import SqlHighlight.Sql.Token
import SqlHighlight.Text.Bytes
import SqlHighlight.Text.Characters

namespace SqlHighlight.Sql

/-- A token read after its first character: the characters that belong to it and what follows
them. -/
structure Lexeme where
  kind : TokenKind
  value : List Char
  more : List Char
  rest : List Char
  closed : Bool
  deriving DecidableEq, Repr

namespace Lexeme

def isWordChar (c : Char) : Bool :=
  c.isAlphanum || c == '_' || c == '@' || c == '#' || c == '$' || 0x80 ≤ c.toNat

def isWordStart (c : Char) : Bool :=
  c.isAlpha || c == '_' || c == '@' || c == '#' || 0x80 ≤ c.toNat

def isHexDigit (c : Char) : Bool :=
  c.isDigit || ('a' ≤ c && c ≤ 'f') || ('A' ≤ c && c ≤ 'F')

def plain (kind : TokenKind) (c : Char) (more rest : List Char) : Lexeme :=
  ⟨kind, c :: more, more, rest, true⟩

def run (kind : TokenKind) (p : Char → Bool) (c : Char) (lead cs : List Char) : Lexeme :=
  plain kind c (lead ++ cs.takeWhile p) (cs.dropWhile p)

def lineComment (kind : TokenKind) (mark : Char) (cs : List Char) : Lexeme :=
  let inLine := fun c => c != '\n' && c != '\r'
  ⟨kind, cs.takeWhile inLine, mark :: cs.takeWhile inLine, cs.dropWhile inLine, true⟩

/-- Reads a block comment in which `depth` nested ones are open. Gives its text and what follows
its closing mark, `none` if there is none. -/
def readBlock : Nat → List Char → List Char × Option (List Char)
  | _, [] => ([], none)
  | depth, '/' :: '*' :: cs =>
    let (body, rest) := readBlock (depth + 1) cs
    ('/' :: '*' :: body, rest)
  | 0, '*' :: '/' :: cs => ([], some cs)
  | depth + 1, '*' :: '/' :: cs =>
    let (body, rest) := readBlock depth cs
    ('*' :: '/' :: body, rest)
  | depth, c :: cs =>
    let (body, rest) := readBlock depth cs
    (c :: body, rest)

def blockComment (cs : List Char) : Lexeme :=
  let (body, rest) := readBlock 0 cs
  ⟨.blockComment, body, '*' :: body ++ closing ['*', '/'] rest, rest.getD [], rest.isSome⟩

def quotation (kind : TokenKind) (lead : List Char) (mark : Char) (cs : List Char) : Lexeme :=
  let (value, rest) := readQuoted mark cs
  ⟨kind, value, lead ++ doubleMark mark value ++ closing [mark] rest, rest.getD [], rest.isSome⟩

def wrapped? : Char → List Char → Option Lexeme
  | '-', '-' :: cs => some (lineComment .dashComment '-' cs)
  | '/', '/' :: cs => some (lineComment .slashComment '/' cs)
  | '/', '*' :: cs => some (blockComment cs)
  | 'N', '\'' :: cs => some (quotation .nationalString ['\''] '\'' cs)
  | 'n', '\'' :: cs => some (quotation .nationalString ['\''] '\'' cs)
  | '\'', cs => some (quotation .string [] '\'' cs)
  | '"', cs => some (quotation .quotedName [] '"' cs)
  | '[', cs => some (quotation .bracketedName [] ']' cs)
  | _, _ => none

def exponent : List Char → List Char × List Char
  | e :: d :: cs =>
    if (e == 'e' || e == 'E') &&
        (d.isDigit || ((d == '+' || d == '-') && (cs.head?.map Char.isDigit).getD false)) then
      (e :: d :: cs.takeWhile Char.isDigit, cs.dropWhile Char.isDigit)
    else ([], e :: d :: cs)
  | cs => ([], cs)

def decimals (cs : List Char) : List Char × List Char :=
  let (power, rest) := exponent (cs.dropWhile Char.isDigit)
  (cs.takeWhile Char.isDigit ++ power, rest)

def fraction : List Char → List Char × List Char
  | '.' :: '.' :: cs => ([], '.' :: '.' :: cs)
  | '.' :: cs =>
    let (more, rest) := decimals cs
    ('.' :: more, rest)
  | cs => exponent cs

def numeral (cs : List Char) : List Char × List Char :=
  let (more, rest) := fraction (cs.dropWhile Char.isDigit)
  (cs.takeWhile Char.isDigit ++ more, rest)

def number (kind : TokenKind) (c : Char) (read : List Char × List Char) : Lexeme :=
  plain kind c read.1 read.2

def startsWith (p : Char → Bool) (cs : List Char) : Bool := (cs.head?.map p).getD false

def numeric? (c : Char) (cs : List Char) : Option Lexeme :=
  if c == '0' && startsWith (fun x => x == 'x' || x == 'X') cs then
    some (run .binary isHexDigit c (cs.take 1) (cs.drop 1))
  else if c.isDigit then some (number .number c (numeral cs))
  else if c == '.' && startsWith Char.isDigit cs then some (number .number c (decimals cs))
  else if c == '$' && startsWith (fun d => d.isDigit || d == '.') cs then
    some (number .money c (numeral cs))
  else none

def word? (c : Char) (cs : List Char) : Option Lexeme :=
  if c == '$' && startsWith Char.isAlpha cs then some (run .pseudoName isWordChar c [] cs)
  else if isWordStart c then some (run .word isWordChar c [] cs)
  else if c == '?' then
    if startsWith (fun d => isWordStart d && d != '@') cs then
      some (run .word isWordChar c [] cs)
    else some (plain .word c [] cs)
  else none

def operators : List (Char × Char) :=
  [(':', ':'), ('<', '>'), ('<', '='), ('>', '='), ('!', '='), ('!', '<'), ('!', '>'), ('+', '='),
    ('-', '='), ('*', '='), ('/', '='), ('%', '='), ('&', '='), ('|', '='), ('^', '=')]

def symbolKind : Char → TokenKind
  | '(' => .openParen
  | ')' => .closeParen
  | ',' => .comma
  | '.' => .period
  | ';' => .semicolon
  | ':' => .colon
  | '*' => .asterisk
  | '=' => .equals
  | '+' | '-' | '/' | '%' | '&' | '|' | '^' | '~' | '<' | '>' | '!' => .operator
  | _ => .word

def symbol (c : Char) : List Char → Lexeme
  | [] => plain (symbolKind c) c [] []
  | d :: cs =>
    if operators.contains (c, d) then plain .operator c [d] cs
    else plain (symbolKind c) c [] (d :: cs)

def read (c : Char) (cs : List Char) : Lexeme :=
  if Text.isAsciiBlank c then run .blank Text.isAsciiBlank c [] cs
  else (((wrapped? c cs).or (numeric? c cs)).or (word? c cs)).getD (symbol c cs)

def Splits (l : Lexeme) (cs : List Char) : Prop := l.more ++ l.rest = cs

theorem splits_plain (kind : TokenKind) (c : Char) (more rest : List Char) :
    (plain kind c more rest).Splits (more ++ rest) := rfl

theorem splits_run (kind : TokenKind) (p : Char → Bool) (c : Char) (lead cs : List Char) :
    (run kind p c lead cs).Splits (lead ++ cs) := by
  simp [Splits, run, plain]

theorem append_readBlock (depth : Nat) (cs : List Char) :
    (readBlock depth cs).1 ++
      (closing ['*', '/'] (readBlock depth cs).2 ++ (readBlock depth cs).2.getD []) = cs := by
  fun_induction readBlock depth cs with
  | case1 => rfl
  | case2 depth cs _ _ h ih => simpa [h] using ih
  | case3 => rfl
  | case4 depth cs _ _ h ih => simpa [h] using ih
  | case5 depth c cs _ _ _ _ _ h ih => simpa [h] using ih

theorem splits_wrapped? {c : Char} {cs : List Char} {l : Lexeme} (h : wrapped? c cs = some l) :
    l.Splits cs := by
  unfold wrapped? at h
  split at h <;> first | obtain rfl := Option.some.inj h | simp at h
  all_goals
    simp [Splits, lineComment, blockComment, quotation, append_readBlock, append_readQuoted]

theorem append_exponent (cs : List Char) : (exponent cs).1 ++ (exponent cs).2 = cs := by
  unfold exponent
  split
  · split <;> simp
  · rfl

theorem append_decimals (cs : List Char) : (decimals cs).1 ++ (decimals cs).2 = cs := by
  simp [decimals, append_exponent]

theorem append_fraction (cs : List Char) : (fraction cs).1 ++ (fraction cs).2 = cs := by
  unfold fraction
  split
  · rfl
  · simp [append_decimals]
  · exact append_exponent _

theorem append_numeral (cs : List Char) : (numeral cs).1 ++ (numeral cs).2 = cs := by
  simp [numeral, append_fraction]

theorem splits_numeric? {c : Char} {cs : List Char} {l : Lexeme} (h : numeric? c cs = some l) :
    l.Splits cs := by
  unfold numeric? at h
  split at h
  · obtain rfl := Option.some.inj h
    have := splits_run .binary isHexDigit c (cs.take 1) (cs.drop 1)
    rwa [List.take_append_drop] at this
  split at h
  · obtain rfl := Option.some.inj h
    exact append_numeral cs
  split at h
  · obtain rfl := Option.some.inj h
    exact append_decimals cs
  split at h
  · obtain rfl := Option.some.inj h
    exact append_numeral cs
  · simp at h

theorem splits_word? {c : Char} {cs : List Char} {l : Lexeme} (h : word? c cs = some l) :
    l.Splits cs := by
  unfold word? at h
  repeat' split at h
  all_goals first | obtain rfl := Option.some.inj h | simp at h
  · exact splits_run .pseudoName isWordChar c [] cs
  · exact splits_run .word isWordChar c [] cs
  · exact splits_run .word isWordChar c [] cs
  · exact splits_plain .word c [] cs

theorem splits_symbol (c : Char) (cs : List Char) : (symbol c cs).Splits cs := by
  cases cs with
  | nil => rfl
  | cons d cs =>
    rw [symbol]
    split <;> rfl

theorem splits_read (c : Char) (cs : List Char) : (read c cs).Splits cs := by
  rw [read]
  split
  · exact splits_run .blank Text.isAsciiBlank c [] cs
  · cases hw : wrapped? c cs with
    | some l => exact splits_wrapped? hw
    | none =>
      cases hn : numeric? c cs with
      | some l => exact splits_numeric? hn
      | none =>
        cases hd : word? c cs with
        | some l => exact splits_word? hd
        | none => exact splits_symbol c cs

theorem length_rest_read_le (c : Char) (cs : List Char) :
    (read c cs).rest.length ≤ cs.length := by
  have := congrArg List.length (splits_read c cs)
  simp only [List.length_append] at this
  omega

end Lexeme

namespace Tokens

def cons (t : Token) (closed : Bool) (ts : Tokens) : Tokens :=
  ⟨t :: ts.list, !closed || ts.unfinished⟩

/-- The tokens of characters that start at an offset. -/
def lex (start : Nat) : List Char → Tokens
  | [] => ⟨[], false⟩
  | c :: cs =>
    let l := Lexeme.read c cs
    let stop := start + Text.width (c :: l.more)
    have := Lexeme.length_rest_read_le c cs
    (lex stop l.rest).cons ⟨l.kind, String.ofList l.value, ⟨start, stop⟩⟩ l.closed
termination_by cs => cs.length

def ofText (sql : String) : Tokens := lex 0 sql.toList

end Tokens

end SqlHighlight.Sql
