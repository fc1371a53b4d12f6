import IdlWorkbench.Ast.OfTree
import IdlWorkbench.Format.Error
import IdlWorkbench.StructTag
import IdlWorkbench.Text.Integer

/-!
# Sequence numbers

Every field of a struct needs a sequence number, which its tag holds under the key `pb`. Fields that have
one keep it; the others get the least unused numbers from 1 on, in the order of their declaration.
-/

namespace IdlWorkbench.Format

/-- The value of a field's tag; empty if it has none or one that cannot be read. -/
def tagValue (tag : Option Token) : String := (tag.bind fun t => Token.unquote t.text).getD ""

def ownNumber (f : Field) : Except FormatError (Option Int) :=
  match f.tag with
  | none => .ok none
  | some tag =>
    match StructTag.find? (tagValue (some tag)) "pb" with
    | none => .ok none
    | some value =>
      if value.isEmpty then .error (.emptySequence tag.range)
      else
        match Text.int64? value with
        | some n => .ok (some n)
        | none => .error (.invalidSequence tag.range value)

/-- Give the fields without a number, which are `none`, the numbers of `free` in order. -/
def fill : (free : List Nat) → List (Option Int) → List (Option Nat)
  | _, [] => []
  | free, some _ :: rest => none :: fill free rest
  | n :: free, none :: rest => some n :: fill free rest
  | [], none :: rest => none :: fill [] rest

/-- The numbers to add to the fields of a struct; `none` where a field has one already. There are as many
candidates as fields, and each field takes at most one of them, so no field goes without. -/
def assign (fields : List Field) : Except FormatError (List (Option Nat)) := do
  let own ← fields.mapM ownNumber
  let free := (List.range' 1 fields.length).filter fun n : Nat => !own.contains (some (n : Int))
  return fill free own

abbrev Assignments := List (ByteRange × Nat)

/-- The numbers to add to the fields of one struct. -/
def assignments (struct : TypeExpr) : Except FormatError Assignments := do
  let numbers ← assign struct.fields
  return (struct.fields.zip numbers).filterMap fun (f, n) => n.map fun n => (f.range, n)

def allAssignments (tree : Tree) : Except FormatError Assignments := do
  return (← tree.structTypes.mapM assignments).flatten

/-- A tag with a number in front of what it held before. -/
def numberedTag (n : Nat) (tag : String) : String :=
  let rest := Text.trim tag
  "`pb:\"" ++ toString n ++ "\"" ++ (if rest.isEmpty then "" else " " ++ rest) ++ "`"

end IdlWorkbench.Format
