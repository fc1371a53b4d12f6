import IdlWorkbench.Ast.OfTree
import IdlWorkbench.StructTag
import IdlWorkbench.Table
import IdlWorkbench.Text.Integer
import IdlWorkbench.Text.Quoted

/-!
# Rules beyond types

All files of a package give it the same name. The fields of a struct have names of their own, tags that can
be read, and sequence numbers and json names that no other field of the struct has.
-/

namespace IdlWorkbench

inductive Rule where
  | onePackageName
  | noEmbedding
  | readableTag (tag : String) (error : StructTagError)
  | numericSequence (value : String)
  | uniqueSequence (value : String)
  | uniqueJson (value : String)
deriving DecidableEq, Repr

/-- What a message says about a rule that is broken. -/
def Rule.message : Rule → String
  | onePackageName => "found more than one package name"
  | noEmbedding => "anonymous struct fields are not supported"
  | readableTag tag error =>
    "struct field tag `" ++ tag ++ "` not compatible with reflect.StructTag.Get: " ++ error.message
  | numericSequence value => "invalid sequence number " ++ Text.quoted value
  | uniqueSequence value => "sequence number " ++ Text.quoted value ++ " seen twice"
  | uniqueJson value => "json tag " ++ Text.quoted value ++ " seen twice"

structure Violation where
  /-- Index of the file. -/
  file : Nat
  range : ByteRange
  rule : Rule
deriving DecidableEq, Repr

namespace Violation

def message (v : Violation) : String := v.rule.message

/-! ## Package names -/

/-- If the files do not agree on the name of their package, the name in each of them. -/
def ofPackageNames (files : List SourceFile) : List Violation :=
  let names := files.zipIdx.filterMap fun (f, file) => f.packageName?.map fun name => (file, name)
  match names with
  | [] => []
  | (_, first) :: _ =>
    if names.all fun (_, name) => name.text = first.text then []
    else names.map fun (file, name) => ⟨file, name.range, .onePackageName⟩

/-! ## Struct fields -/

structure ReadTag where
  range : ByteRange
  tag : StructTag

def ReadTag.value? (t : ReadTag) (key : String) : Option String := (t.tag.get? key).filter (!·.isEmpty)

def ReadTag.sequence? (t : ReadTag) : Option Int := (t.value? "pb").bind Text.int64?

/-- What is wrong with a field by itself, and its tag. -/
def ofField (f : Field) : List (ByteRange × Rule) × Option ReadTag :=
  if f.isEmbedded then ([(f.range, .noEmbedding)], none)
  else
    match f.tag.bind fun t => (Token.unquote t.text).map fun raw => (t.range, raw) with
    | none => ([], none)
    | some (range, raw) =>
      match StructTag.ofString raw with
      | .error e => ([(range, .readableTag raw e)], none)
      | .ok tag =>
        let t : ReadTag := ⟨range, tag⟩
        match t.value? "pb" with
        | some value =>
          (if (Text.int64? value).isNone then [(range, .numericSequence value)] else [], some t)
        | none => ([], some t)

/-- What is wrong with the fields of a struct one after the other, where `names` holds the json names of
those before. -/
def ofFields : (names : List String) → List Field → List (ByteRange × Rule)
  | _, [] => []
  | names, f :: rest =>
    let (faults, tag) := ofField f
    match tag.bind fun t => (t.value? "json").map fun value => (t.range, value) with
    | none => faults ++ ofFields names rest
    | some (range, value) =>
      faults ++ (if names.contains value then [(range, .uniqueJson value)] else []) ++
        ofFields (value :: names) rest

/-- The tags of fields with a sequence number, grouped by number in the order of their first field. -/
def bySequence (fields : List Field) : Table Int (List ReadTag) :=
  (fields.filterMap fun f => (ofField f).2).foldl
    (fun groups t =>
      match t.sequence? with
      | none => groups
      | some n => groups.insert n ((groups.find? n).getD [] ++ [t])) []

def sharedSequences (fields : List Field) : List (ByteRange × Rule) :=
  (bySequence fields).flatMap fun (_, tags) =>
    if tags.length < 2 then []
    else tags.map fun t => (t.range, .uniqueSequence ((t.value? "pb").getD ""))

def ofStruct (file : Nat) (struct : TypeExpr) : List Violation :=
  (ofFields [] struct.fields ++ sharedSequences struct.fields).map fun (range, rule) => ⟨file, range, rule⟩

def ofStructs (trees : List Tree) : List Violation :=
  trees.zipIdx.flatMap fun (t, file) => t.structTypes.flatMap (ofStruct file)

end Violation

end IdlWorkbench
