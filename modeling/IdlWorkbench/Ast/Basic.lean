import IdlWorkbench.Token.Basic

/-!
# Declarations, types and expressions

What a source file says, without the blanks and comments that a reader skips. Names and literals are
tokens, so they know where they stand; larger parts carry their range. A part that a broken text leaves
out is `missing`.

Lists that keep their layout hold `Item`s: besides their entries the comments that stand on their own
and the line breaks between them.
-/

namespace IdlWorkbench

structure Doc where
  range : ByteRange
  comments : List Token
deriving Repr

/-- Something in a list that keeps its layout. -/
inductive Item (α : Type) where
  | comment (token : Token)
  | gap (newlines : Nat)
  | entry (a : α)
deriving Repr

def Item.entry? {α : Type} : Item α → Option α
  | entry a => some a
  | _ => none

/-- The entries of a list, without its layout. -/
def entries {α : Type} (items : List (Item α)) : List α := items.filterMap Item.entry?

/-- Whether the members of a type are there, and whether they end in a brace. -/
inductive Braces where
  | absent
  | unclosed
  | closed
deriving DecidableEq, Repr

/-- How the results of a signature are written. -/
inductive ResultForm where
  | absent
  | bare
  | parens
deriving DecidableEq, Repr

mutual

inductive TypeExpr where
  | missing
  | name (id : Token)
  | selector (range : ByteRange) (qualifier name : Option Token)
  | slice (range : ByteRange) (elem : TypeExpr)
  | map (range : ByteRange) (key value : TypeExpr)
  | pointer (range : ByteRange) (elem : TypeExpr)
  | chan (range : ByteRange) (elem : TypeExpr)
  | func (range : ByteRange) (signature : Signature)
  | struct (range : ByteRange) (braces : Braces) (fields : List (Item Field))
  | interface (range : ByteRange) (braces : Braces) (methods : List (Item Method))

structure Param where
  name : Option Token
  type : TypeExpr

structure Signature where
  params : List Param
  form : ResultForm
  results : List Param

/-- A field of a struct; one without names embeds its type. -/
structure Field where
  range : ByteRange
  doc : Option Doc
  names : List Token
  type : TypeExpr
  tag : Option Token
  trailing : Option Token

structure Method where
  range : ByteRange
  doc : Option Doc
  name : Token
  signature : Signature
  trailing : Option Token

end

mutual

inductive Expr where
  | missing
  | literal (token : Token)
  | name (id : Token)
  | selector (range : ByteRange) (qualifier name : Option Token)
  | paren (range : ByteRange) (inner : Expr)
  | unary (range : ByteRange) (op : Token) (operand : Expr)
  /-- A literal of a type, which is also kept as its significant tokens. -/
  | composite (range : ByteRange) (type : TypeExpr) (typeTokens : List Token) (body : LitBody)
  /-- A slice or map type that stands where a value should. -/
  | type (type : TypeExpr) (typeTokens : List Token)

structure LitBody where
  range : ByteRange
  /-- Whether a line break stands between the braces. -/
  multiline : Bool
  elements : List Element

inductive Element where
  | keyed (range : ByteRange) (key value : ElementValue)
  | positional (range : ByteRange) (value : ElementValue)

inductive ElementValue where
  | missing
  | expr (e : Expr)
  | body (b : LitBody)

end

instance : Inhabited TypeExpr := ⟨.missing⟩

instance : Inhabited Expr := ⟨.missing⟩

namespace TypeExpr

def range : TypeExpr → ByteRange
  | missing => .point 0
  | name id => id.range
  | selector range .. | slice range _ | map range .. | pointer range _ | chan range _ | func range _
  | struct range .. | interface range .. => range

def isMissing : TypeExpr → Bool
  | missing => true
  | _ => false

end TypeExpr

def Field.isEmbedded (f : Field) : Bool := f.names.isEmpty

namespace Expr

def range : Expr → ByteRange
  | missing => .point 0
  | literal token | name token => token.range
  | selector range .. | paren range _ | unary range .. | composite range .. => range
  | type t _ => t.range

def isMissing : Expr → Bool
  | missing => true
  | _ => false

end Expr

namespace Element

def range : Element → ByteRange
  | keyed range .. | positional range _ => range

def isKeyed : Element → Bool
  | keyed .. => true
  | positional .. => false

end Element

namespace ElementValue

def range : ElementValue → ByteRange
  | missing => .point 0
  | expr e => e.range
  | body b => b.range

end ElementValue

/-! ## Declarations -/

structure PackageClause where
  range : ByteRange
  doc : Option Doc
  name : Option Token
  trailing : Option Token

structure ImportSpec where
  range : ByteRange
  doc : Option Doc
  name : Option Token
  path : Option Token
  trailing : Option Token

structure TypeSpec where
  range : ByteRange
  doc : Option Doc
  name : Token
  type : TypeExpr
  trailing : Option Token

structure ConstSpec where
  range : ByteRange
  doc : Option Doc
  name : Token
  type : TypeExpr
  value : Expr
  trailing : Option Token

/-- A declaration: one spec, or a group of them between parentheses. -/
structure Decl (α : Type) where
  range : ByteRange
  doc : Option Doc
  grouped : Bool
  items : List (Item α)
  trailing : Option Token

def Decl.specs {α : Type} (d : Decl α) : List α := entries d.items

/-- The doc of a spec: its own, or that of a declaration it has for itself. -/
def Decl.specDoc {α : Type} (d : Decl α) (own : Option Doc) : Option Doc :=
  own <|> if d.grouped then none else d.doc

inductive TopLevel where
  | package (clause : PackageClause)
  | imports (decl : Decl ImportSpec)
  | types (decl : Decl TypeSpec)
  | consts (decl : Decl ConstSpec)

structure SourceFile where
  range : ByteRange
  items : List (Item TopLevel)

namespace SourceFile

def packageClause? (f : SourceFile) : Option PackageClause :=
  (entries f.items).findSome? fun
    | .package clause => some clause
    | _ => none

def packageName? (f : SourceFile) : Option Token := f.packageClause?.bind PackageClause.name

def importDecls (f : SourceFile) : List (Decl ImportSpec) :=
  (entries f.items).filterMap fun
    | .imports decl => some decl
    | _ => none

def typeDecls (f : SourceFile) : List (Decl TypeSpec) :=
  (entries f.items).filterMap fun
    | .types decl => some decl
    | _ => none

def constDecls (f : SourceFile) : List (Decl ConstSpec) :=
  (entries f.items).filterMap fun
    | .consts decl => some decl
    | _ => none

def importSpecs (f : SourceFile) : List ImportSpec := f.importDecls.flatMap Decl.specs

def typeSpecs (f : SourceFile) : List TypeSpec := f.typeDecls.flatMap Decl.specs

def constSpecs (f : SourceFile) : List ConstSpec := f.constDecls.flatMap Decl.specs

end SourceFile

end IdlWorkbench
