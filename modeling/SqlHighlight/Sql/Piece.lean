import SqlHighlight.Category
import SqlHighlight.Sql.Structure

/-! Trees laid out as text again, in pieces that each have a category. Leaves get back the marks
and quotes they lack, so lengths of pieces add up to offsets of the text that was parsed. -/

namespace SqlHighlight.Sql

structure Piece where
  category : Category
  text : String
  deriving DecidableEq, Repr

namespace Piece

def of (category : Category) (text : String) : List Piece :=
  if text.toList.isEmpty then [] else [⟨category, text⟩]

def width (p : Piece) : Nat := Text.width p.text.toList

end Piece

def isNameStart (c : Char) : Bool := c.isAlpha || c == '_'

def isNameChar (c : Char) : Bool := c.isAlphanum || c == '_'

def isVariableName : List Char → Bool
  | c :: cs =>
    isNameStart c && match cs.dropWhile isNameChar with
      | [] | ['@'] | ['@', '@'] => true
      | _ => false
  | [] => false

def isVariable : List Char → Bool
  | '@' :: '@' :: cs => isVariableName cs
  | '@' :: cs => isVariableName cs
  | ['?'] => true
  | '?' :: c :: cs => isNameStart c && cs.all isNameChar
  | _ => false

namespace Leaf

def wrap (l : Leaf) (text : List Char) : List Char :=
  match l with
  | .blockComment => '/' :: '*' :: text ++ ['*', '/']
  | .dashComment => '-' :: '-' :: text
  | .slashComment => '/' :: '/' :: text
  | .string => '\'' :: doubleMark '\'' text ++ ['\'']
  | .nationalString => 'N' :: '\'' :: doubleMark '\'' text ++ ['\'']
  | .quotedName => '"' :: doubleMark '"' text ++ ['"']
  | .bracketedName => '[' :: doubleMark ']' text ++ [']']
  | _ => text

def category (l : Leaf) (text : List Char) : Category :=
  match l with
  | .blockComment | .dashComment | .slashComment => .comment
  | .string | .nationalString => .string
  | .comma | .period | .semicolon | .asterisk | .equals | .scopeResolution | .conjunction
  | .disjunction | .alphaOperator | .operator => .operator
  | .function => .function
  | .keyword | .dataType | .returns | .pseudoName => .keyword
  | .number | .money | .binary => .number
  | .parameter => .parameter
  | .other => if isVariable text then .parameter else .plain
  | .quotedName | .bracketedName | .blank | .label => .plain

def pieces (l : Leaf) (text : String) : List Piece :=
  Piece.of (l.category text.toList) (String.ofList (l.wrap text.toList))

end Leaf

mutual

def Node.pieces : Node → List Piece
  | .element (.group _) _ _ children => ⟨.plain, "("⟩ :: piecesOfAll children ++ [⟨.plain, ")"⟩]
  | .element (.block _) _ _ children => piecesOfAll children
  | .element (.leaf l) text _ _ => l.pieces text
  | .text _ => []
  | .comment _ => []

def piecesOfAll : List Node → List Piece
  | [] => []
  | n :: ns => n.pieces ++ piecesOfAll ns

end

def render (ps : List Piece) : String := String.join (ps.map Piece.text)

def totalWidth : List Piece → Nat
  | [] => 0
  | p :: ps => p.width + totalWidth ps

/-- Gives each piece the range it has from an offset on. -/
def layOut (start : Nat) : List Piece → List Span
  | [] => []
  | p :: ps => ⟨p.category, ⟨start, start + p.width⟩⟩ :: layOut (start + p.width) ps

namespace Document

def pieces (d : Document) : List Piece := (d.root.map Node.pieces).getD []

def warning : String := "--WARNING! ERRORS ENCOUNTERED DURING SQL PARSING!\n"

def formatted (d : Document) : List Piece :=
  if d.errorFound then ⟨.plain, warning⟩ :: d.pieces else d.pieces

end Document

end SqlHighlight.Sql
