import SqlHighlight.Text.Bytes

namespace SqlHighlight.Sql

def doubleMark (mark : Char) : List Char → List Char
  | [] => []
  | c :: cs => if c = mark then mark :: mark :: doubleMark mark cs else c :: doubleMark mark cs

def undoubleMark? (mark : Char) : List Char → Option (List Char)
  | [] => some []
  | [c] => if c = mark then none else some [c]
  | c :: d :: cs =>
    if c = mark then if d = mark then (undoubleMark? mark cs).map (mark :: ·) else none
    else (undoubleMark? mark (d :: cs)).map (c :: ·)

/-- Reads up to the closing mark. Gives the text with doubled marks undone and what follows the
closing mark, `none` if there is none. -/
def readQuoted (mark : Char) : List Char → List Char × Option (List Char)
  | [] => ([], none)
  | [c] => if c = mark then ([], some []) else ([c], none)
  | c :: d :: cs =>
    if c = mark then
      if d = mark then
        let (value, rest) := readQuoted mark cs
        (mark :: value, rest)
      else ([], some (d :: cs))
    else
      let (value, rest) := readQuoted mark (d :: cs)
      (c :: value, rest)

def closing (marks : List Char) : Option (List Char) → List Char
  | some _ => marks
  | none => []

theorem append_readQuoted (mark : Char) (cs : List Char) :
    doubleMark mark (readQuoted mark cs).1 ++
      (closing [mark] (readQuoted mark cs).2 ++ (readQuoted mark cs).2.getD []) = cs := by
  fun_induction readQuoted mark cs with
  | case1 => rfl
  | case2 => simp [doubleMark, closing]
  | case3 c h => simp [doubleMark, closing, h]
  | case4 cs _ _ h ih => simpa [doubleMark, h] using ih
  | case5 => simp [doubleMark, closing]
  | case6 c d cs h _ _ heq ih => simpa [doubleMark, h, heq] using ih

inductive TokenKind
  | openParen
  | closeParen
  | comma
  | period
  | semicolon
  | colon
  | asterisk
  | equals
  | operator
  | blank
  | word
  | blockComment
  | dashComment
  | slashComment
  | string
  | nationalString
  | quotedName
  | bracketedName
  | number
  | binary
  | money
  | pseudoName
  deriving DecidableEq, Repr

namespace TokenKind

def isTrivia : TokenKind → Bool
  | .blank | .blockComment | .dashComment | .slashComment => true
  | _ => false

def wrap (kind : TokenKind) (value : List Char) : List Char :=
  match kind with
  | .blockComment => '/' :: '*' :: value ++ ['*', '/']
  | .dashComment => '-' :: '-' :: value
  | .slashComment => '/' :: '/' :: value
  | .string => '\'' :: doubleMark '\'' value ++ ['\'']
  | .nationalString => 'N' :: '\'' :: doubleMark '\'' value ++ ['\'']
  | .quotedName => '"' :: doubleMark '"' value ++ ['"']
  | .bracketedName => '[' :: doubleMark ']' value ++ [']']
  | _ => value

end TokenKind

structure Token where
  kind : TokenKind
  value : String
  range : Range
  deriving DecidableEq, Repr

namespace Token

def isTrivia (t : Token) : Bool := t.kind.isTrivia

def render (t : Token) : String := String.ofList (t.kind.wrap t.value.toList)

end Token

structure Tokens where
  list : List Token
  unfinished : Bool
  deriving DecidableEq, Repr

namespace Tokens

def render (ts : Tokens) : String := String.join (ts.list.map Token.render)

end Tokens

end SqlHighlight.Sql
