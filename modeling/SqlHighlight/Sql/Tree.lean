import SqlHighlight.Sql.Vocabulary

namespace SqlHighlight.Sql

inductive Group
  | ddlDetail
  | ddl
  | function
  | membership
  | expression
  | selectionTarget
  deriving DecidableEq, Repr

inductive Block
  | root
  | statement
  | clause
  | booleanExpression
  | ddlProceduralBlock
  | ddlOtherBlock
  | ddlDeclareBlock
  | cursorDeclaration
  | beginEndBlock
  | tryBlock
  | catchBlock
  | caseStatement
  | caseInput
  | caseWhen
  | caseThen
  | caseElse
  | ifStatement
  | elseClause
  | whileLoop
  | ddlAsBlock
  | betweenCondition
  | betweenLowerBound
  | betweenUpperBound
  | cteWithClause
  | cteAlias
  | cteAsBlock
  | cursorForBlock
  | cursorForOptions
  | triggerCondition
  | compoundKeyword
  | beginTransaction
  | rollbackTransaction
  | saveTransaction
  | commitTransaction
  | batchSeparator
  | setOperatorClause
  | containerOpen
  | containerMultiStatement
  | containerSingleStatement
  | containerGeneralContent
  | containerClose
  | selectionTarget
  | permissionsBlock
  | permissionsDetail
  | permissionsTarget
  | permissionsRecipient
  | ddlWithClause
  | mergeClause
  | mergeTarget
  | mergeUsing
  | mergeCondition
  | mergeWhen
  | mergeThen
  | mergeAction
  | joinOnSection
  deriving DecidableEq, Repr

inductive Leaf
  | blockComment
  | dashComment
  | slashComment
  | string
  | nationalString
  | quotedName
  | bracketedName
  | comma
  | period
  | semicolon
  | asterisk
  | equals
  | scopeResolution
  | conjunction
  | disjunction
  | alphaOperator
  | operator
  | function
  | keyword
  | dataType
  | returns
  | pseudoName
  | number
  | money
  | binary
  | parameter
  | other
  | blank
  | label
  deriving DecidableEq, Repr

inductive Kind
  | group : Group → Kind
  | block : Block → Kind
  | leaf : Leaf → Kind
  deriving DecidableEq, Repr

def Kind.isGroup : Kind → Bool
  | .group _ => true
  | _ => false

inductive Node
  | element (kind : Kind) (text : String) (flawed : Bool) (children : List Node)
  | text (content : String)
  | comment (content : String)
  deriving Repr

namespace Node

def leaf (l : Leaf) (text : String) : Node := .element (.leaf l) text false []

def block (b : Block) (children : List Node) : Node := .element (.block b) "" false children

def group (g : Group) (children : List Node) (flawed : Bool) : Node :=
  .element (.group g) "" flawed children

def kind? : Node → Option Kind
  | .element kind _ _ _ => some kind
  | _ => none

def children : Node → List Node
  | .element _ _ _ children => children
  | _ => []

def isElement : Node → Bool
  | .element _ _ _ _ => true
  | _ => false

def elements (n : Node) : List Node := n.children.filter isElement

def isTrivia (n : Node) : Bool :=
  match n.kind? with
  | some (.leaf .blank) | some (.leaf .blockComment) | some (.leaf .dashComment)
  | some (.leaf .slashComment) => true
  | _ => false

def attribute? : Node → String → Option Bool
  | .element _ _ flawed _, "hasError" => some flawed
  | _, _ => none

end Node

def WordClass.leaf : WordClass → Leaf
  | .conjunction => .conjunction
  | .disjunction => .disjunction
  | .alphaOperator => .alphaOperator
  | .dataType => .dataType
  | .function => .function
  | .returns => .returns
  | .keyword => .keyword
  | .name => .other

/-- What a parser makes of a text: a root, unless there was nothing to parse with, and whether
it met something it could not make sense of. -/
structure Document where
  root : Option Node
  errorFound : Bool
  deriving Repr

namespace Document

def attribute? (d : Document) (name : String) : Option Bool :=
  if name = "errorFound" then some d.errorFound
  else d.root.bind (·.attribute? name)

end Document

end SqlHighlight.Sql
