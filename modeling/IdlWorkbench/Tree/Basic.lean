import IdlWorkbench.Token.Basic

/-!
# Concrete trees

The tree of a text keeps every token: the leaves from left to right are the tokens of the text. Inner
nodes carry a kind and the bytes they cover; a node may be empty, and then its range is the place where
it would stand.

`nodes` and `branches` list inner nodes from the outside in and from left to right, the latter beside
the node that each one hangs from.
-/

namespace IdlWorkbench

inductive NodeKind where
  | sourceFile
  | doc
  | trailing
  | packageClause
  | importDecl
  | importSpec
  | typeDecl
  | typeSpec
  | constDecl
  | constSpec
  | name
  | nameRef
  | selector
  | sliceType
  | mapType
  | pointerType
  | chanType
  | funcType
  | paramList
  | resultList
  | structType
  | interfaceType
  | fieldList
  | field
  | fieldTag
  | method
  | exprRoot
  | literal
  | parenExpr
  | unaryExpr
  | compositeLit
  | litBody
  | keyedElement
  | element
  | error
deriving DecidableEq, Repr, Inhabited

inductive Tree where
  | leaf (token : Token)
  | node (kind : NodeKind) (range : ByteRange) (children : List Tree)
deriving Inhabited

namespace Tree

def range : Tree → ByteRange
  | leaf token => token.range
  | node _ range _ => range

def children : Tree → List Tree
  | leaf _ => []
  | node _ _ children => children

def token? : Tree → Option Token
  | leaf token => some token
  | node .. => none

def kind? : Tree → Option NodeKind
  | leaf _ => none
  | node kind _ _ => some kind

def isNode (k : NodeKind) (t : Tree) : Bool := t.kind? == some k

mutual

def leaves : Tree → List Token
  | leaf token => [token]
  | node _ _ children => leavesOf children

def leavesOf : List Tree → List Token
  | [] => []
  | t :: ts => t.leaves ++ leavesOf ts

end

mutual

/-- The tree itself, if it is an inner node, and every inner node below it. -/
def nodes : Tree → List Tree
  | leaf _ => []
  | t@(node _ _ children) => t :: nodesOf children

def nodesOf : List Tree → List Tree
  | [] => []
  | t :: ts => t.nodes ++ nodesOf ts

end

mutual

/-- Every inner node below a tree, each after the node that it hangs from. -/
def branches : Tree → List (Tree × Tree)
  | leaf _ => []
  | parent@(node _ _ children) => branchesOf parent children

def branchesOf (parent : Tree) : List Tree → List (Tree × Tree)
  | [] => []
  | leaf _ :: ts => branchesOf parent ts
  | t@(node kind range children) :: ts =>
    (parent, t) :: branchesOf (node kind range children) children ++ branchesOf parent ts

end

/-- Whether an inner node of kind `k` stands anywhere in a tree. -/
def has (k : NodeKind) (t : Tree) : Bool := t.nodes.any (isNode k)

def text (t : Tree) : String := String.join (t.leaves.map Token.text)

/-! ## Looking at the children of a node -/

def child? (k : NodeKind) (children : List Tree) : Option Tree := children.find? (isNode k)

/-- The tokens that stand directly among the children. -/
def tokens (children : List Tree) : List Token := children.filterMap token?

/-- The first significant token that stands directly among the children. -/
def significant? (children : List Tree) : Option Token := (tokens children).find? (!·.isTrivia)

/-- The significant token inside the first child of kind `k`. -/
def tokenIn? (k : NodeKind) (children : List Tree) : Option Token :=
  (child? k children).bind fun t => significant? t.children

end Tree

end IdlWorkbench
