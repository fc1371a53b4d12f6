import IdlWorkbench.Source
import IdlWorkbench.Text.Position
import IdlWorkbench.Typing.Const

/-!
# What the checker reports

An error names its cause and the offset where it was found, in the text of the file or in that of a tag.
`locate` widens the offset to the smallest part of the tree that starts there.
-/

namespace IdlWorkbench

inductive Use where
  | constant
  | structLit
  | sliceLit
  | mapLit
deriving DecidableEq, Repr

def Use.describe : Use → String
  | constant => "constant declaration"
  | structLit => "struct literal"
  | sliceLit => "slice literal"
  | mapLit => "map literal"

/-- Causes of type errors. Texts and types are given as messages show them. -/
inductive TypeError where
  | badImport (path reason : String)
  | redeclared (name : String)
  | undefined (name : String)
  | notAType (name : String)
  | barePackage (name : String)
  | notExported (name package : String)
  | notAPackage (name : String)
  | fieldRedeclared (name : String)
  | duplicateMethod (name : String)
  | recursiveType (name : String)
  | badMapKey (type : String)
  | initCycle (name : String)
  | missingInit
  | notConstant (text operand : String)
  | badConstType (type : String)
  | typeAsValue (text : String)
  | badLiteral (text : String)
  | strayIota
  | noMember (name : String)
  | badOperator (op text operand : String)
  | badLiteralType (type : String)
  | mixedElements
  | badFieldName (text : String)
  | unknownField (name type : String)
  | duplicateField (name : String)
  | tooManyValues (type : String)
  | tooFewValues (type : String)
  | badIndex (text : String)
  | missingKey
  | duplicateKey (text : String)
  | notAssignable (text operand type : String) (use : Use) (misfit : ConstValue.Misfit)
deriving DecidableEq, Repr

def TypeError.message : TypeError → String
  | badImport path reason => "could not import " ++ path ++ " (" ++ reason ++ ")"
  | redeclared name => name ++ " redeclared in this block"
  | undefined name => "undefined: " ++ name
  | notAType name => name ++ " is not a type"
  | barePackage name => "use of package " ++ name ++ " without selector"
  | notExported name package => "name " ++ name ++ " not exported by package " ++ package
  | notAPackage name => name ++ " is not a package"
  | fieldRedeclared name => name ++ " redeclared"
  | duplicateMethod name => "duplicate method " ++ name
  | recursiveType name => "invalid recursive type " ++ name
  | badMapKey type => "invalid map key type " ++ type
  | initCycle name => "initialization cycle: " ++ name ++ " refers to itself"
  | missingInit => "missing init expr for const declaration"
  | notConstant text operand => text ++ " (" ++ operand ++ ") is not constant"
  | badConstType type => "invalid constant type " ++ type
  | typeAsValue text => text ++ " (type) is not an expression"
  | badLiteral text => "invalid literal " ++ text
  | strayIota => "cannot use iota outside constant declaration"
  | noMember name => name ++ " undefined"
  | badOperator op text operand =>
    "invalid operation: operator " ++ op ++ " not defined on " ++ text ++ " (" ++ operand ++ ")"
  | badLiteralType type => "invalid composite literal type " ++ type
  | mixedElements => "mixture of field:value and value elements in struct literal"
  | badFieldName text => "invalid field name " ++ text ++ " in struct literal"
  | unknownField name type => "unknown field " ++ name ++ " in struct literal of type " ++ type
  | duplicateField name => "duplicate field name " ++ name ++ " in struct literal"
  | tooManyValues type => "too many values in struct literal of type " ++ type
  | tooFewValues type => "too few values in struct literal of type " ++ type
  | badIndex text => "index " ++ text ++ " must be non-negative integer constant"
  | missingKey => "missing key in map literal"
  | duplicateKey text => "duplicate key " ++ text ++ " in map literal"
  | notAssignable text operand type use misfit =>
    "cannot use " ++ text ++ " (" ++ operand ++ ") as " ++ type ++ " value in " ++ use.describe ++
      misfit.note

/-- The text that an offset counts in. -/
inductive Space where
  | source
  | tag (t : Tag)

structure CheckError where
  /-- Index of the file. -/
  file : Nat
  space : Space
  offset : Nat
  cause : TypeError

def CheckError.message (e : CheckError) : String := e.cause.message

/-! ## Places -/

namespace Tree

mutual

/-- The ranges of the nodes and significant tokens of a tree. -/
def ranges : Tree → List ByteRange
  | leaf t => if t.isTrivia then [] else [t.range]
  | node _ range children => range :: rangesOf children

def rangesOf : List Tree → List ByteRange
  | [] => []
  | t :: ts => t.ranges ++ rangesOf ts

end

/-- The smallest range that starts at an offset and is not empty. -/
def smallestAt? (t : Tree) (offset : Nat) : Option ByteRange :=
  (t.ranges.filter fun r => r.start = offset ∧ !r.isEmpty).foldl
    (fun best r =>
      match best with
      | none => some r
      | some b => if r.length < b.length then some r else some b) none

end Tree

def CheckError.range (e : CheckError) (tree : Tree) : ByteRange :=
  match e.space with
  | .source => (tree.smallestAt? e.offset).getD (.point e.offset)
  | .tag t =>
    match t.parse.tree.smallestAt? e.offset with
    | some r => t.source.rangeToFile r
    | none => .point (t.source.toFile e.offset)

def CheckError.locate (e : CheckError) (s : Source) : Span := Text.span s.text (e.range s.tree)

end IdlWorkbench
