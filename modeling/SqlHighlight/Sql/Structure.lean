import SqlHighlight.Sql.Lexeme
import SqlHighlight.Sql.Tree

/-! The structure of SQL by its tokens: statements end at semicolons, clauses start at clause
words, and parentheses are groups. One pass over the tokens keeps the lists of statements that
are open, the innermost apart. -/

namespace SqlHighlight.Sql

/-- A list of statements in the making: those done, the clauses of the next one, and the nodes of
its next clause. -/
structure Draft where
  statements : List Node
  clauses : List Node
  clause : List Node
  deriving Repr

namespace Draft

def empty : Draft := ⟨[], [], []⟩

def push (d : Draft) (n : Node) : Draft := { d with clause := d.clause ++ [n] }

def hasContent (d : Draft) : Bool := d.clause.any (!·.isTrivia)

def closeClause (d : Draft) : Draft :=
  if d.clause.isEmpty then d
  else { d with clauses := d.clauses ++ [.block .clause d.clause], clause := [] }

def pushClause (d : Draft) (n : Node) : Draft :=
  let d := d.closeClause
  { d with clauses := d.clauses ++ [n] }

def closeStatement (d : Draft) : Draft :=
  let d := d.closeClause
  if d.clauses.isEmpty then d
  else { d with statements := d.statements ++ [.block .statement d.clauses], clauses := [] }

def finish (d : Draft) : List Node := d.closeStatement.statements

end Draft

def opensQuery (clause : Node) : Bool :=
  match clause.elements.find? (·.kind? != some (.leaf .blank)) with
  | some (.element (.leaf .keyword) text _ _) => startsClause text
  | _ => false

/-- The children of a group: a single plain clause gives its nodes, all else stays statements. -/
def groupChildren (statements : List Node) : List Node :=
  match statements with
  | [statement] =>
    match statement.elements with
    | [clause] =>
      if clause.kind? = some (.block .clause) && !opensQuery clause then clause.elements
      else statements
    | _ => statements
  | _ => statements

def isWord (value : String) : Bool :=
  match value.toList with
  | c :: _ => c.isAlpha || c == '_' || 0x80 ≤ c.toNat
  | [] => false

def Token.leaf (t : Token) : Leaf :=
  match t.kind with
  | .blank => .blank
  | .blockComment => .blockComment
  | .dashComment => .dashComment
  | .slashComment => .slashComment
  | .string => .string
  | .nationalString => .nationalString
  | .quotedName => .quotedName
  | .bracketedName => .bracketedName
  | .comma => .comma
  | .period => .period
  | .semicolon => .semicolon
  | .asterisk => .asterisk
  | .equals => .equals
  | .operator => if t.value = "::" then .scopeResolution else .operator
  | .colon => .operator
  | .number => .number
  | .binary => .binary
  | .money => .money
  | .pseudoName => .pseudoName
  | .word | .openParen | .closeParen => .other

structure Builder where
  outer : List (Group × Draft)
  draft : Draft
  last : Option Token
  significant : Option Token
  unmatched : Bool
  deriving Repr

namespace Builder

def empty : Builder := ⟨[], .empty, none, none, false⟩

def push (b : Builder) (n : Node) : Builder := { b with draft := b.draft.push n }

def afterPeriod (b : Builder) : Bool := (b.significant.map (·.kind == .period)).getD false

/-- The group that a parenthesis opens. A call of a function that the vocabulary lacks has no
blank before its parenthesis. -/
def groupAhead (b : Builder) : Group :=
  let adjacent := (b.last.map (!·.isTrivia)).getD false
  match b.significant with
  | some t =>
    if t.kind = .word && isWord t.value then
      if upper t.value = "IN" then .membership
      else match WordClass.of t.value with
        | .function | .dataType => .function
        | .name => if adjacent then .function else .expression
        | _ => .expression
    else .expression
  | none => .expression

def openGroup (b : Builder) : Builder :=
  { b with outer := (b.groupAhead, b.draft) :: b.outer, draft := .empty }

def closeGroup (b : Builder) (flawed : Bool) : Builder :=
  match b.outer with
  | [] => b
  | (g, draft) :: outer =>
    { b with outer, draft := draft.push (.group g (groupChildren b.draft.finish) flawed) }

def addWord (b : Builder) (value : String) : Builder :=
  if b.afterPeriod then b.push (.leaf .other value)
  else if isSetOperator value then
    { b with draft := b.draft.pushClause (.block .setOperatorClause [.leaf .keyword value]) }
  else
    let draft :=
      if startsClause value && b.draft.hasContent then b.draft.closeClause else b.draft
    { b with draft := draft.push (.leaf (WordClass.of value).leaf value) }

def place (b : Builder) (t : Token) : Builder :=
  match t.kind with
  | .openParen => b.openGroup
  | .closeParen =>
    if b.outer.isEmpty then { b.push (.leaf .other ")") with unmatched := true }
    else b.closeGroup false
  | .semicolon =>
    let b := b.push (.leaf .semicolon ";")
    { b with draft := b.draft.closeStatement }
  | .word => if isWord t.value then b.addWord t.value else b.push (.leaf t.leaf t.value)
  | _ => b.push (.leaf t.leaf t.value)

def step (b : Builder) (t : Token) : Builder :=
  { b.place t with
    last := some t
    significant := if t.isTrivia then b.significant else some t }

def closeAll (draft : Draft) : List (Group × Draft) → Draft
  | [] => draft
  | (g, parent) :: outer =>
    closeAll (parent.push (.group g (groupChildren draft.finish) true)) outer

end Builder

/-- The tree of tokens. Unfinished tokens and unbalanced parentheses are errors, and the tree is
built nevertheless. -/
def Document.ofTokens (ts : Tokens) : Document :=
  let b := ts.list.foldl Builder.step .empty
  { root := some (.block .root (Builder.closeAll b.draft b.outer).finish)
    errorFound := ts.unfinished || b.unmatched || !b.outer.isEmpty }

def Document.ofText (sql : String) : Document := .ofTokens (.ofText sql)

end SqlHighlight.Sql
