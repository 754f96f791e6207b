import SqlHighlight.Sql.Piece

/-! Concrete syntax trees of SQL, given from outside, made into trees of this library. Text that
no node of the concrete tree covers is put back, so that the result covers the source. -/

namespace SqlHighlight.Sql

inductive Concrete
  | node (kind : String) (named missing : Bool) (range : Range) (children : List Concrete)
  deriving Repr

namespace Concrete

def kind : Concrete → String
  | .node kind _ _ _ _ => kind

def named : Concrete → Bool
  | .node _ named _ _ _ => named

def missing : Concrete → Bool
  | .node _ _ missing _ _ => missing

def range : Concrete → Range
  | .node _ _ _ range _ => range

def children : Concrete → List Concrete
  | .node _ _ _ _ children => children

def isKeyword (kind : String) : Bool := "keyword_".toList.isPrefixOf kind.toList

def isAtomic (n : Concrete) : Bool :=
  n.children.isEmpty || isKeyword n.kind ||
    ["comment", "marginalia", "literal", "parameter", "identifier"].contains n.kind

end Concrete

structure ConcreteTree where
  root : Concrete
  hasError : Bool
  deriving Repr

def isAsciiPunctuation (c : Char) : Bool :=
  '!' ≤ c && c ≤ '~' && !c.isAlphanum

def quotedBody? (mark : Char) (cs : List Char) : Option (List Char) :=
  if cs.getLast? = some mark then undoubleMark? mark cs.dropLast else none

def literalLeaf : List Char → Leaf × List Char
  | '\'' :: cs =>
    match quotedBody? '\'' cs with
    | some body => (.string, body)
    | none => (.other, '\'' :: cs)
  | 'N' :: '\'' :: cs =>
    match quotedBody? '\'' cs with
    | some body => (.nationalString, body)
    | none => (.other, 'N' :: '\'' :: cs)
  | '0' :: x :: d :: cs =>
    (if x == 'x' || x == 'X' then .binary else .number, '0' :: x :: d :: cs)
  | c :: cs => (if c.isDigit || c == '.' || c == '-' then .number else .other, c :: cs)
  | [] => (.other, [])

def identifierLeaf : List Char → Leaf × List Char
  | '"' :: cs =>
    match quotedBody? '"' cs with
    | some body => (.quotedName, body)
    | none => (.other, '"' :: cs)
  | '[' :: cs =>
    match quotedBody? ']' cs with
    | some body => (.bracketedName, body)
    | none => (.other, '[' :: cs)
  | cs => (.other, cs)

def commentLeaf : List Char → Leaf × List Char
  | '-' :: '-' :: cs => (.dashComment, cs)
  | '/' :: '/' :: cs => (.slashComment, cs)
  | cs => (.other, cs)

def marginLeaf : List Char → Leaf × List Char
  | '/' :: '*' :: cs =>
    match cs.reverse with
    | '/' :: '*' :: body => (.blockComment, body.reverse)
    | _ => (.other, '/' :: '*' :: cs)
  | cs => (.other, cs)

def keywordLeaf (cs : List Char) : Leaf × List Char :=
  (match WordClass.of (String.ofList cs) with
    | .name => .keyword
    | w => w.leaf, cs)

def punctuationLeaf (cs : List Char) : Leaf × List Char :=
  (match cs with
    | [','] => .comma
    | ['.'] => .period
    | [';'] => .semicolon
    | ['*'] => .asterisk
    | ['='] => .equals
    | [':', ':'] => .scopeResolution
    | [] => .other
    | cs => if cs.all isAsciiPunctuation then .operator else .other, cs)

namespace Concrete

def leaf (kind : String) (isCallee : Bool) (text : List Char) : Leaf × List Char :=
  if isKeyword kind then keywordLeaf text
  else if kind = "comment" then commentLeaf text
  else if kind = "marginalia" then marginLeaf text
  else if kind = "literal" then literalLeaf text
  else if kind = "parameter" then (.parameter, text)
  else if kind = "identifier" then
    if isCallee then (.function, text) else identifierLeaf text
  else punctuationLeaf text

/-- The range of the name that is called, for the nodes below a node: a call sets it, and
qualified names hand it on. -/
def calleeBelow (callee : Option Range) (n : Concrete) : Option Range :=
  if n.kind = "invocation" then n.children.head?.map range
  else if n.kind = "object_reference" then callee
  else none

def isWithin (outer : Option Range) (r : Range) : Bool :=
  match outer with
  | some o => o.start ≤ r.start && r.stop ≤ o.stop
  | none => false

end Concrete

/-- Nodes made so far of the children of one concrete node. -/
structure Lowering where
  position : Nat
  nodes : List Node
  outer : List (List Node)
  deriving Repr

namespace Lowering

def push (s : Lowering) (n : Node) : Lowering := { s with nodes := s.nodes ++ [n] }

def fill (source : List Char) (s : Lowering) (stop : Nat) : Except Fault Lowering :=
  if stop ≤ s.position then .ok s
  else do
    let gap ← Text.slice s.position stop source
    let l : Leaf := if gap.all Text.isBlank then .blank else .other
    return { s.push (.leaf l (String.ofList gap)) with position := stop }

def textOf (source : List Char) (s : Lowering) (range : Range) : List Char :=
  match Text.slice (max range.start s.position) range.stop source with
  | .ok cs => cs
  | .error _ => []

/-- Adds an atomic node. Parentheses that are not named nodes open and close groups. -/
def addAtom (source : List Char) (g : Group) (callee : Option Range) (s : Lowering)
    (n : Concrete) : Lowering :=
  let text := s.textOf source n.range
  let added := match n.named, text, s.outer with
    | false, ['('], outer => { s with nodes := [], outer := s.nodes :: outer }
    | false, [')'], parent :: outer =>
      { s with nodes := parent ++ [Node.group g s.nodes false], outer }
    | _, _, _ =>
      let (l, body) := Concrete.leaf n.kind (Concrete.isWithin callee n.range) text
      s.push (.leaf l (String.ofList body))
  { added with position := max s.position n.range.stop }

def finish (s : Lowering) : List Node :=
  s.outer.foldl (fun inner parent => parent ++ Node.leaf .other "(" :: inner) s.nodes

def addAll (s : Lowering) (kind : String) (nodes : List Node) (position : Nat) : Lowering :=
  { s with
    position
    nodes := s.nodes ++ if kind = "statement" then [.block .statement nodes] else nodes }

end Lowering

mutual

def Concrete.lower (source : List Char) (g : Group) (callee : Option Range) (s : Lowering) :
    Concrete → Except Fault Lowering
  | .node kind named missing range children =>
    if missing || range.start = range.stop then .ok s
    else do
      let s ← s.fill source range.start
      let n : Concrete := .node kind named missing range children
      if n.isAtomic then return s.addAtom source g callee n
      else
        let g' : Group := if kind = "invocation" then .function else .expression
        let below ← Concrete.lowerAll source g' (n.calleeBelow callee) ⟨s.position, [], []⟩ children
        return s.addAll kind below.finish below.position

def Concrete.lowerAll (source : List Char) (g : Group) (callee : Option Range) (s : Lowering) :
    List Concrete → Except Fault Lowering
  | [] => .ok s
  | n :: ns => do
    let s ← Concrete.lower source g callee s n
    Concrete.lowerAll source g callee s ns

end

def Document.ofConcrete (sql : String) (tree : ConcreteTree) : Except Fault Document := do
  let source := sql.toList
  let g : Group := if tree.root.kind = "invocation" then .function else .expression
  let s ← Concrete.lowerAll source g (tree.root.calleeBelow none) ⟨0, [], []⟩ tree.root.children
  let nodes := s.finish
  let s ← Lowering.fill source ⟨s.position, nodes, []⟩ (Text.width source)
  return ⟨some (.block .root s.nodes), tree.hasError⟩

end SqlHighlight.Sql
