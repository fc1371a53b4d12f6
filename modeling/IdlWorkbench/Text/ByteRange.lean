/-!
# Byte offsets into a text

All offsets count UTF-8 bytes. A `ByteRange` is half open: it holds the bytes from `start` up to, and
not including, `stop`. `slice` cuts the characters of a range out of a text.
-/

namespace IdlWorkbench

structure ByteRange where
  start : Nat
  stop : Nat
deriving DecidableEq, Repr, Inhabited

namespace ByteRange

/-- The empty range at `offset`. -/
def point (offset : Nat) : ByteRange := ⟨offset, offset⟩

def length (r : ByteRange) : Nat := r.stop - r.start

def isEmpty (r : ByteRange) : Bool := r.stop ≤ r.start

/-- Both ends belong to a range here: a cursor may stand right behind the last byte. -/
def touches (r : ByteRange) (offset : Nat) : Bool := r.start ≤ offset && offset ≤ r.stop

end ByteRange

namespace Text

/-- Number of bytes that a list of characters takes in UTF-8. -/
def bytes : List Char → Nat
  | [] => 0
  | c :: cs => c.utf8Size + bytes cs

/-- Drop whole characters until at least `n` bytes are gone. -/
def dropBytes : Nat → List Char → List Char
  | _, [] => []
  | n, c :: cs => if n = 0 then c :: cs else dropBytes (n - c.utf8Size) cs

/-- Keep the characters that lie within the first `n` bytes. -/
def takeBytes : Nat → List Char → List Char
  | _, [] => []
  | n, c :: cs => if c.utf8Size ≤ n then c :: takeBytes (n - c.utf8Size) cs else []

def slice (text : String) (r : ByteRange) : String :=
  String.ofList (takeBytes r.length (dropBytes r.start text.toList))

end Text

end IdlWorkbench
