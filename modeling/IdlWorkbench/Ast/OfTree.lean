import IdlWorkbench.Ast.Basic
import IdlWorkbench.Token.Value
import IdlWorkbench.Grammar.File

/-!
# Reading declarations off a tree

Each reader takes the children that belong to it by their kind and passes over everything else, so it
also works on the trees of broken texts.
-/

namespace IdlWorkbench

open IdlWorkbench.Tree

namespace Doc

def ofTree? : Tree → Option Doc
  | .node .doc range children => some ⟨range, (tokens children).filter Token.isComment⟩
  | _ => none

def among? (children : List Tree) : Option Doc := children.findSome? ofTree?

end Doc

/-- The trailing comment among the children of an item. -/
def trailingAmong? (children : List Tree) : Option Token :=
  (child? .trailing children).bind fun t => (tokens t.children).head?

def namesAmong (children : List Tree) : List Token :=
  (children.filter (isNode .name)).filterMap fun t => significant? t.children

/-- Comments and line breaks count for the layout of a list. -/
def Item.ofToken? {α : Type} (t : Token) : Option (Item α) :=
  if t.isComment then some (.comment t)
  else if t.kind = .whitespace then some (.gap t.newlines)
  else none

def selectorParts (children : List Tree) : Option Token × Option Token :=
  let ids := (tokens children).filter (·.kind = .ident)
  (ids[0]?, ids[1]?)

/-- Whether the members of a struct or interface are there and closed. -/
def bracesAmong (children : List Tree) : Braces :=
  match child? .fieldList children with
  | none => .absent
  | some t => if (tokens t.children).any (·.kind = .rBrace) then .closed else .unclosed

/-- How the results among the children of a signature are written. -/
def resultFormAmong (children : List Tree) : ResultForm :=
  match child? .resultList children with
  | none => .absent
  | some t => if (tokens t.children).any (·.kind = .lParen) then .parens else .bare

mutual

def TypeExpr.ofTree? : Tree → Option TypeExpr
  | .leaf _ => none
  | .node kind range children =>
    match kind with
    | .nameRef => (significant? children).map .name
    | .selector =>
      let (qualifier, name) := selectorParts children
      some (.selector range qualifier name)
    | .sliceType => some (.slice range ((typesAmong children).headD .missing))
    | .mapType =>
      let parts := typesAmong children
      some (.map range (parts.headD .missing) (parts.tail.headD .missing))
    | .pointerType => some (.pointer range ((typesAmong children).headD .missing))
    | .chanType => some (.chan range ((typesAmong children).headD .missing))
    | .funcType =>
      some (.func range ⟨paramsIn .paramList children, resultFormAmong children,
        paramsIn .resultList children⟩)
    | .structType => some (.struct range (bracesAmong children) (fieldsIn children))
    | .interfaceType => some (.interface range (bracesAmong children) (methodsIn children))
    | _ => none

def typesAmong : List Tree → List TypeExpr
  | [] => []
  | t :: ts =>
    match TypeExpr.ofTree? t with
    | some type => type :: typesAmong ts
    | none => typesAmong ts

/-- The parameters in the first child of kind `k`. -/
def paramsIn (k : NodeKind) : List Tree → List Param
  | [] => []
  | .leaf _ :: ts => paramsIn k ts
  | .node kind _ children :: ts => if kind = k then paramsAmong none children else paramsIn k ts

/-- Parameters: a name goes to the type that follows it. -/
def paramsAmong (name : Option Token) : List Tree → List Param
  | [] => []
  | t :: ts =>
    if isNode .name t then paramsAmong (significant? t.children) ts
    else
      match TypeExpr.ofTree? t with
      | some type => ⟨name, type⟩ :: paramsAmong none ts
      | none => paramsAmong name ts

def fieldsIn : List Tree → List (Item Field)
  | [] => []
  | .leaf _ :: ts => fieldsIn ts
  | .node kind _ children :: ts => if kind = .fieldList then fieldItems children else fieldsIn ts

def fieldItems : List Tree → List (Item Field)
  | [] => []
  | .leaf t :: ts => (Item.ofToken? t).toList ++ fieldItems ts
  | .node kind range children :: ts =>
    if kind = .field then
      .entry ⟨range, Doc.among? children, namesAmong children, (typesAmong children).headD .missing,
        tokenIn? .fieldTag children, trailingAmong? children⟩ :: fieldItems ts
    else fieldItems ts

def methodsIn : List Tree → List (Item Method)
  | [] => []
  | .leaf _ :: ts => methodsIn ts
  | .node kind _ children :: ts => if kind = .fieldList then methodItems children else methodsIn ts

def methodItems : List Tree → List (Item Method)
  | [] => []
  | .leaf t :: ts => (Item.ofToken? t).toList ++ methodItems ts
  | .node kind range children :: ts =>
    match if kind = .method then (namesAmong children).head? else none with
    | some name =>
      .entry ⟨range, Doc.among? children, name,
        ⟨paramsIn .paramList children, resultFormAmong children, paramsIn .resultList children⟩,
        trailingAmong? children⟩ :: methodItems ts
    | none => methodItems ts

end

def typeAmong (children : List Tree) : TypeExpr := (typesAmong children).headD .missing

def TypeExpr.fields : TypeExpr → List Field
  | .struct _ _ fields => entries fields
  | _ => []

/-- Every struct type of a tree, from the outside in and from left to right. -/
def Tree.structTypes (t : Tree) : List TypeExpr :=
  (t.nodes.filter (isNode .structType)).filterMap TypeExpr.ofTree?

/-! ## Expressions -/

/-- The significant tokens of a tree. -/
def Tree.significantLeaves (t : Tree) : List Token := t.leaves.filter (!·.isTrivia)

/-- Whether a line break stands anywhere in the children. -/
def multilineAmong (children : List Tree) : Bool :=
  (leavesOf children).any fun t => t.text.toList.contains '\n'

/-- The type of a composite literal as its significant tokens. -/
def typeTokensAmong (children : List Tree) : List Token :=
  match children.find? fun t => (TypeExpr.ofTree? t).isSome with
  | some t => t.significantLeaves
  | none => []

mutual

def Expr.ofTree? : Tree → Option Expr
  | .leaf _ => none
  | t@(.node kind range children) =>
    match kind with
    | .literal => (significant? children).map .literal
    | .nameRef => (significant? children).map .name
    | .selector =>
      let (qualifier, name) := selectorParts children
      some (.selector range qualifier name)
    | .parenExpr => some (.paren range ((exprsAmong children).headD .missing))
    | .unaryExpr =>
      (significant? children).map fun op => .unary range op ((exprsAmong children).headD .missing)
    | .compositeLit =>
      (bodyAmong? children).map fun body =>
        .composite range (typeAmong children) (typeTokensAmong children) body
    | .sliceType | .mapType =>
      (TypeExpr.ofTree? t).map fun type => .type type t.significantLeaves
    | _ => none

def exprsAmong : List Tree → List Expr
  | [] => []
  | t :: ts =>
    match Expr.ofTree? t with
    | some e => e :: exprsAmong ts
    | none => exprsAmong ts

def LitBody.ofTree? : Tree → Option LitBody
  | .leaf _ => none
  | .node kind range children =>
    if kind = .litBody then some ⟨range, multilineAmong children, elementsAmong children⟩ else none

def bodyAmong? : List Tree → Option LitBody
  | [] => none
  | t :: ts =>
    match LitBody.ofTree? t with
    | some body => some body
    | none => bodyAmong? ts

def Element.ofTree? : Tree → Option Element
  | .leaf _ => none
  | .node kind range children =>
    let parts := valuesAmong children
    match kind with
    | .keyedElement => some (.keyed range (parts.headD .missing) (parts.tail.headD .missing))
    | .element => some (.positional range (parts.headD .missing))
    | _ => none

def elementsAmong : List Tree → List Element
  | [] => []
  | t :: ts =>
    match Element.ofTree? t with
    | some e => e :: elementsAmong ts
    | none => elementsAmong ts

/-- Bodies and expressions among the children of an element. -/
def valuesAmong : List Tree → List ElementValue
  | [] => []
  | t :: ts =>
    match LitBody.ofTree? t, Expr.ofTree? t with
    | some body, _ => .body body :: valuesAmong ts
    | none, some e => .expr e :: valuesAmong ts
    | none, none => valuesAmong ts

end

/-- The first expression among the children of an item. -/
def exprAmong (children : List Tree) : Expr := (exprsAmong children).headD .missing

/-- The expression under the root of an expression that stands alone. -/
def Parse.expr (p : Parse) : Expr := exprAmong p.tree.children

/-! ## Declarations -/

namespace ImportSpec

def ofTree? : Tree → Option ImportSpec
  | .node .importSpec range children =>
    some ⟨range, Doc.among? children, (namesAmong children).head?, tokenIn? .literal children,
      trailingAmong? children⟩
  | _ => none

def importPath? (spec : ImportSpec) : Option String := spec.path.bind fun t => Token.unquote t.text

end ImportSpec

def TypeSpec.ofTree? : Tree → Option TypeSpec
  | .node .typeSpec range children =>
    (namesAmong children).head?.map fun name =>
      ⟨range, Doc.among? children, name, typeAmong children, trailingAmong? children⟩
  | _ => none

/-- Whether a child is the sign between a constant and its value. -/
def isEqSign (t : Tree) : Bool := t.token?.any (·.kind = .eq)

/-- The type of a constant stands before the sign `=`, its value behind it. -/
def ConstSpec.ofTree? : Tree → Option ConstSpec
  | .node .constSpec range children =>
    (namesAmong children).head?.map fun name =>
      ⟨range, Doc.among? children, name, typeAmong (children.takeWhile (!isEqSign ·)),
        exprAmong (children.dropWhile (!isEqSign ·)), trailingAmong? children⟩
  | _ => none

namespace Decl

variable {α : Type}

/-- A child of a declaration as an item of its list. -/
def item? (spec? : Tree → Option α) : Tree → Option (Item α)
  | .leaf t => Item.ofToken? t
  | t => (spec? t).map .entry

/-- A declaration from its range and children. The items of a group stand behind its parenthesis. -/
def ofChildren (spec? : Tree → Option α) (range : ByteRange) (children : List Tree) : Decl α :=
  let isOpen (t : Tree) : Bool := t.token?.any (·.kind = .lParen)
  let grouped := children.any isOpen
  let inside := if grouped then children.dropWhile (!isOpen ·) else children
  ⟨range, Doc.among? children, grouped, inside.filterMap (item? spec?), trailingAmong? children⟩

end Decl

def TopLevel.ofTree? : Tree → Option TopLevel
  | .node .packageClause range children =>
    some (.package ⟨range, Doc.among? children, (namesAmong children).head?, trailingAmong? children⟩)
  | .node .importDecl range children => some (.imports (.ofChildren ImportSpec.ofTree? range children))
  | .node .typeDecl range children => some (.types (.ofChildren TypeSpec.ofTree? range children))
  | .node .constDecl range children => some (.consts (.ofChildren ConstSpec.ofTree? range children))
  | _ => none

def SourceFile.ofTree (t : Tree) : SourceFile :=
  ⟨t.range, t.children.filterMap (Decl.item? TopLevel.ofTree?)⟩

def Parse.file (p : Parse) : SourceFile := .ofTree p.tree

end IdlWorkbench
