import IdlWorkbench.Grammar.Error
import IdlWorkbench.Text.Quoted

/-!
# Why a file is not formatted
-/

namespace IdlWorkbench

inductive FormatError where
  /-- A field has a sequence number with nothing in it. -/
  | emptySequence (range : ByteRange)
  | invalidSequence (range : ByteRange) (value : String)
  | malformedTag (range : ByteRange) (complaint : Complaint)
  | brokenText (range : ByteRange)
  /-- A comment stands where the canonical layout has no place for one. -/
  | droppedComment (range : ByteRange)
deriving Repr

namespace FormatError

def range : FormatError → ByteRange
  | emptySequence range | invalidSequence range _ | malformedTag range _ | brokenText range
  | droppedComment range => range

def message : FormatError → String
  | emptySequence _ => "struct field tag for pb was empty, please remove or add sequence number"
  | invalidSequence _ value => "struct field tag for pb contains a non-number " ++ Text.quoted value
  | malformedTag _ complaint => "invalid gunk tag: " ++ complaint.message
  | brokenText _ => "file has syntax errors"
  | droppedComment _ => "comment cannot be kept in place"

end FormatError

end IdlWorkbench
