import SqlHighlight.Text.Characters
import SqlHighlight.Toml.Value

/-! Reading TOML. Each reader takes some characters off the front of a text, so reading ends. -/

namespace SqlHighlight.Toml

/-- What the first characters of a text say, and the rest, which is shorter. -/
structure Reading (α : Type) (cs : List Char) where
  value : α
  rest : List Char
  shorter : rest.length < cs.length

def Reading.map {after cs : List Char} (f : α → β) (x : Reading α after)
    (h : after.length ≤ cs.length) : Reading β cs :=
  ⟨f x.value, x.rest, Nat.lt_of_lt_of_le x.shorter h⟩

/-! ### Blanks -/

def isWs (c : Char) : Bool := c == ' ' || c == '\t'

def skipWs (cs : List Char) : List Char := cs.dropWhile isWs

theorem length_dropWhile_le (p : Char → Bool) (cs : List Char) :
    (cs.dropWhile p).length ≤ cs.length := (List.dropWhile_suffix p).length_le

theorem length_skipWs_le (cs : List Char) : (skipWs cs).length ≤ cs.length :=
  length_dropWhile_le isWs cs

def isPlain (c : Char) : Bool := c == '\t' || (0x20 ≤ c.toNat && c.toNat != 0x7F)

def skipLines (inComment : Bool) : List Char → List Char
  | '\n' :: cs => skipLines false cs
  | '\r' :: '\n' :: cs => skipLines false cs
  | c :: cs =>
    if inComment then if isPlain c then skipLines true cs else c :: cs
    else if isWs c then skipLines false cs
    else if c == '#' then skipLines true cs
    else c :: cs
  | [] => []

theorem length_skipLines_le (inComment : Bool) (cs : List Char) :
    (skipLines inComment cs).length ≤ cs.length := by
  fun_induction skipLines inComment cs <;> simp_all <;> omega

def skipComment : List Char → List Char
  | '#' :: cs => cs.dropWhile isPlain
  | cs => cs

theorem length_skipComment_le (cs : List Char) : (skipComment cs).length ≤ cs.length := by
  unfold skipComment
  split
  · exact Nat.le_succ_of_le (length_dropWhile_le _ _)
  · exact Nat.le_refl _

def breakLine? : List Char → Option (List Char)
  | [] => some []
  | '\n' :: cs => some cs
  | '\r' :: '\n' :: cs => some cs
  | _ => none

def endLine? (cs : List Char) : Option (List Char) := breakLine? (skipComment (skipWs cs))

theorem length_le_of_endLine? {cs rest : List Char} (h : endLine? cs = some rest) :
    rest.length ≤ cs.length := by
  have h₁ := length_skipWs_le cs
  have h₂ := length_skipComment_le (skipWs cs)
  unfold endLine? breakLine? at h
  split at h <;> simp_all <;> omega

/-! ### Strings -/

def scalar? (digits : List Char) : Option Char := do
  let n ← Text.hexNumber? digits
  if n.isValidChar then some (Char.ofNat n) else none

def escape? : (cs : List Char) → Option (Reading Char cs)
  | 'b' :: cs => some ⟨'\x08', cs, by simp⟩
  | 't' :: cs => some ⟨'\t', cs, by simp⟩
  | 'n' :: cs => some ⟨'\n', cs, by simp⟩
  | 'f' :: cs => some ⟨'\x0c', cs, by simp⟩
  | 'r' :: cs => some ⟨'\r', cs, by simp⟩
  | '"' :: cs => some ⟨'"', cs, by simp⟩
  | '\\' :: cs => some ⟨'\\', cs, by simp⟩
  | 'u' :: a :: b :: c :: d :: cs => (scalar? [a, b, c, d]).map fun x => ⟨x, cs, by simp; omega⟩
  | 'U' :: a :: b :: c :: d :: e :: f :: g :: h :: cs =>
    (scalar? [a, b, c, d, e, f, g, h]).map fun x => ⟨x, cs, by simp; omega⟩
  | _ => none

def basicString? (cs : List Char) : Option (Reading (List Char) cs) :=
  match cs with
  | [] => none
  | '"' :: rest => some ⟨[], rest, by simp⟩
  | '\\' :: rest =>
    match escape? rest with
    | none => none
    | some x =>
      have := x.shorter
      (basicString? x.rest).map (·.map (x.value :: ·) (by simp; omega))
  | c :: rest =>
    if isPlain c then (basicString? rest).map (·.map (c :: ·) (by simp)) else none
termination_by cs.length

def literalString? : (cs : List Char) → Option (Reading (List Char) cs)
  | [] => none
  | '\'' :: rest => some ⟨[], rest, by simp⟩
  | c :: rest =>
    if isPlain c then (literalString? rest).map (·.map (c :: ·) (by simp)) else none

def skipFirstBreak : List Char → List Char
  | '\n' :: cs => cs
  | '\r' :: '\n' :: cs => cs
  | cs => cs

theorem length_skipFirstBreak_le (cs : List Char) :
    (skipFirstBreak cs).length ≤ cs.length := by
  unfold skipFirstBreak
  split
  · simp
  · simp only [List.length_cons]
    omega
  · exact Nat.le_refl _

def skipBreaks : List Char → List Char
  | '\n' :: cs => skipBreaks cs
  | '\r' :: '\n' :: cs => skipBreaks cs
  | c :: cs => if isWs c then skipBreaks cs else c :: cs
  | [] => []

theorem length_skipBreaks_le (cs : List Char) : (skipBreaks cs).length ≤ cs.length := by
  fun_induction skipBreaks cs <;> simp_all <;> omega

/-- What follows an escaped line break, after its backslash: blanks and further breaks are left
out. None if there is no line break. -/
def foldedBreak? (cs : List Char) : Option (List Char) :=
  match skipWs cs with
  | '\n' :: rest => some (skipBreaks rest)
  | '\r' :: '\n' :: rest => some (skipBreaks rest)
  | _ => none

theorem length_le_of_foldedBreak? {cs rest : List Char} (h : foldedBreak? cs = some rest) :
    rest.length ≤ cs.length := by
  have h₁ := length_skipWs_le cs
  unfold foldedBreak? at h
  split at h
  · next after hafter =>
    have h₂ := length_skipBreaks_le after
    obtain rfl := Option.some.inj h
    simp only [hafter, List.length_cons] at h₁
    omega
  · next after hafter =>
    have h₂ := length_skipBreaks_le after
    obtain rfl := Option.some.inj h
    simp only [hafter, List.length_cons] at h₁
    omega
  · simp at h

/-- A string over several lines, after its opening quotes. Up to two quotes may stand right before
the closing ones. -/
def longString? (cs : List Char) : Option (Reading (List Char) cs) :=
  match cs with
  | [] => none
  | '"' :: '"' :: '"' :: '"' :: '"' :: rest => some ⟨['"', '"'], rest, by simp; omega⟩
  | '"' :: '"' :: '"' :: '"' :: rest => some ⟨['"'], rest, by simp; omega⟩
  | '"' :: '"' :: '"' :: rest => some ⟨[], rest, by simp; omega⟩
  | '\\' :: rest =>
    match h : foldedBreak? rest with
    | some after =>
      have := length_le_of_foldedBreak? h
      (longString? after).map (·.map id (by simp; omega))
    | none =>
      match escape? rest with
      | none => none
      | some x =>
        have := x.shorter
        (longString? x.rest).map (·.map (x.value :: ·) (by simp; omega))
  | '\n' :: rest => (longString? rest).map (·.map ('\n' :: ·) (by simp))
  | '\r' :: '\n' :: rest => (longString? rest).map (·.map ('\n' :: ·) (by simp; omega))
  | c :: rest => if isPlain c then (longString? rest).map (·.map (c :: ·) (by simp)) else none
termination_by cs.length

def longLiteralString? : (cs : List Char) → Option (Reading (List Char) cs)
  | [] => none
  | '\'' :: '\'' :: '\'' :: '\'' :: '\'' :: rest => some ⟨['\'', '\''], rest, by simp; omega⟩
  | '\'' :: '\'' :: '\'' :: '\'' :: rest => some ⟨['\''], rest, by simp; omega⟩
  | '\'' :: '\'' :: '\'' :: rest => some ⟨[], rest, by simp; omega⟩
  | '\n' :: rest => (longLiteralString? rest).map (·.map ('\n' :: ·) (by simp))
  | '\r' :: '\n' :: rest => (longLiteralString? rest).map (·.map ('\n' :: ·) (by simp; omega))
  | c :: rest =>
    if isPlain c then (longLiteralString? rest).map (·.map (c :: ·) (by simp)) else none

def string? : (cs : List Char) → Option (Reading String cs)
  | '"' :: '"' :: '"' :: rest =>
    have := length_skipFirstBreak_le rest
    (longString? (skipFirstBreak rest)).map (·.map String.ofList (by simp; omega))
  | '\'' :: '\'' :: '\'' :: rest =>
    have := length_skipFirstBreak_le rest
    (longLiteralString? (skipFirstBreak rest)).map (·.map String.ofList (by simp; omega))
  | '"' :: rest => (basicString? rest).map (·.map String.ofList (by simp))
  | '\'' :: rest => (literalString? rest).map (·.map String.ofList (by simp))
  | _ => none

/-! ### Keys -/

def isBareKeyChar (c : Char) : Bool := c.isAlphanum || c == '_' || c == '-'

def simpleKey? : (cs : List Char) → Option (Reading String cs)
  | '"' :: rest => (basicString? rest).map (·.map String.ofList (by simp))
  | '\'' :: rest => (literalString? rest).map (·.map String.ofList (by simp))
  | c :: rest =>
    if isBareKeyChar c then
      some ⟨String.ofList (c :: rest.takeWhile isBareKeyChar), rest.dropWhile isBareKeyChar,
        Nat.lt_succ_of_le (length_dropWhile_le _ _)⟩
    else none
  | [] => none

structure Key where
  path : List String
  last : String

def Key.parts (k : Key) : List String := k.path ++ [k.last]

def maxDepth : Nat := 79

def dottedKey? (cs : List Char) : Option (Reading Key cs) :=
  match simpleKey? (skipWs cs) with
  | none => none
  | some x =>
    have h₁ := length_skipWs_le cs
    have h₂ := x.shorter
    have h₃ := length_skipWs_le x.rest
    match h : skipWs x.rest with
    | '.' :: rest =>
      have h₄ : rest.length < x.rest.length := by rw [h] at h₃; exact h₃
      (dottedKey? rest).map (·.map (fun k => { k with path := x.value :: k.path }) (by omega))
    | rest => some ⟨⟨[], x.value⟩, rest, by rw [h] at h₃; omega⟩
termination_by cs.length

def key? (cs : List Char) : Option (Reading Key cs) :=
  (dottedKey? cs).filter (·.value.parts.length ≤ maxDepth)

/-! ### Values -/

def digits? (isDigit : Char → Bool) : List Char → Option (List Char)
  | [] => none
  | [c] => if isDigit c then some [c] else none
  | c :: '_' :: cs => if isDigit c then (digits? isDigit cs).map (c :: ·) else none
  | c :: cs => if isDigit c then (digits? isDigit cs).map (c :: ·) else none

def natural? (base : Nat) (cs : List Char) : Option Nat := do
  let ds ← digits? (fun c => (Text.hexDigit? c).any (· < base)) cs
  ds.foldlM (fun n c => (Text.hexDigit? c).map (base * n + ·)) 0

def decimal? : List Char → Option Nat
  | ['0'] => some 0
  | '0' :: _ => none
  | cs => natural? 10 cs

def integer? (cs : List Char) : Option Int := do
  let n : Int ← match cs with
    | '0' :: 'x' :: ds => (natural? 16 ds).map Int.ofNat
    | '0' :: 'o' :: ds => (natural? 8 ds).map Int.ofNat
    | '0' :: 'b' :: ds => (natural? 2 ds).map Int.ofNat
    | '+' :: ds => (decimal? ds).map Int.ofNat
    | '-' :: ds => (decimal? ds).map (-Int.ofNat ·)
    | ds => (decimal? ds).map Int.ofNat
  if -0x8000000000000000 ≤ n && n < 0x8000000000000000 then some n else none

def isWordChar (c : Char) : Bool :=
  c.isAlphanum || c == '_' || c == '+' || c == '-' || c == '.' || c == ':'

def scalarValue? (word : List Char) : Option Value :=
  if word = "true".toList then some (.boolean true)
  else if word = "false".toList then some (.boolean false)
  else (integer? word).map .integer

def wordValue? : (cs : List Char) → Option (Reading Value cs)
  | c :: rest =>
    (scalarValue? (c :: rest.takeWhile isWordChar)).map fun v =>
      ⟨v, rest.dropWhile isWordChar, Nat.lt_succ_of_le (length_dropWhile_le _ _)⟩
  | [] => none

mutual

def value? (depth : Nat) (cs : List Char) : Option (Reading Value cs) :=
  match depth, cs with
  | 0, '[' :: _ => none
  | 0, '{' :: _ => none
  | depth + 1, '[' :: rest => (items? depth rest).map (·.map .array (by simp))
  | depth + 1, '{' :: rest =>
    have hws := length_skipWs_le rest
    match h : skipWs rest with
    | '}' :: after => some ⟨.table [], after, by rw [h] at hws; simp at *; omega⟩
    | _ => (pairs? depth [] rest).map (·.map (fun es => .table (entriesToValue es)) (by simp))
  | _, '"' :: rest => (string? ('"' :: rest)).map (·.map .string (by simp))
  | _, '\'' :: rest => (string? ('\'' :: rest)).map (·.map .string (by simp))
  | _, cs => wordValue? cs
termination_by 2 * cs.length

def items? (depth : Nat) (cs : List Char) : Option (Reading (List Value) cs) :=
  have h₁ := length_skipLines_le false cs
  match h : skipLines false cs with
  | ']' :: rest => some ⟨[], rest, by rw [h] at h₁; exact h₁⟩
  | start =>
    have h₂ : start.length ≤ cs.length := by rw [h] at h₁; exact h₁
    match value? depth start with
    | none => none
    | some x =>
      have h₃ := x.shorter
      have h₄ := length_skipLines_le false x.rest
      match h' : skipLines false x.rest with
      | ',' :: rest =>
        have h₅ : rest.length < x.rest.length := by rw [h'] at h₄; exact h₄
        (items? depth rest).map (·.map (x.value :: ·) (by omega))
      | ']' :: rest =>
        some ⟨[x.value], rest, by rw [h'] at h₄; simp at h₄; omega⟩
      | _ => none
termination_by 2 * cs.length + 1

def pairs? (depth : Nat) (entries : Entries) (cs : List Char) : Option (Reading Entries cs) :=
  match key? cs with
  | none => none
  | some k =>
    have h₁ := k.shorter
    match h : k.rest with
    | '=' :: rest =>
      have h₂ : rest.length < cs.length := by rw [h] at h₁; simp at h₁; omega
      have h₃ := length_skipWs_le rest
      match value? depth (skipWs rest) with
      | none => none
      | some x =>
        have h₄ := x.shorter
        have h₅ := length_skipWs_le x.rest
        match entries.insert k.value.path k.value.last x.value with
        | none => none
        | some entries =>
          match h' : skipWs x.rest with
          | ',' :: rest =>
            have h₆ : rest.length < x.rest.length := by rw [h'] at h₅; exact h₅
            (pairs? depth entries rest).map (·.map id (by omega))
          | '}' :: rest => some ⟨entries, rest, by rw [h'] at h₅; simp at h₅; omega⟩
          | _ => none
    | _ => none
termination_by 2 * cs.length + 1

end

/-! ### Documents -/

theorem length_lt_of_line {cs line start mid after next : List Char} (h₁ : line.length ≤ cs.length)
    (hstart : start.length ≤ line.length) (h₂ : mid.length < start.length)
    (hafter : after.length ≤ mid.length) (h₃ : next.length ≤ after.length) :
    next.length < cs.length := by
  omega

/-- Reads lines into the entries so far; `header` is the table that they belong to. -/
def readLines (header : List String) (entries : Entries) (cs : List Char) : Option Entries :=
  have h₁ := length_skipLines_le false cs
  match h : skipLines false cs with
  | [] => some entries
  | '[' :: '[' :: rest =>
    match key? rest with
    | none => none
    | some k =>
      have h₂ := k.shorter
      match h' : k.rest with
      | ']' :: ']' :: after =>
        match he : endLine? after with
        | none => none
        | some next =>
          have h₃ := length_le_of_endLine? he
          have : next.length < cs.length :=
            length_lt_of_line h₁ (h ▸ Nat.le_add_right _ 2) h₂ (h' ▸ Nat.le_add_right _ 2) h₃
          match entries.append k.value.path k.value.last with
          | none => none
          | some entries => readLines k.value.parts entries next
      | _ => none
  | '[' :: rest =>
    match key? rest with
    | none => none
    | some k =>
      have h₂ := k.shorter
      match h' : k.rest with
      | ']' :: after =>
        match he : endLine? after with
        | none => none
        | some next =>
          have h₃ := length_le_of_endLine? he
          have : next.length < cs.length :=
            length_lt_of_line h₁ (h ▸ Nat.le_add_right _ 1) h₂ (h' ▸ Nat.le_add_right _ 1) h₃
          match entries.declare k.value.path k.value.last with
          | none => none
          | some entries => readLines k.value.parts entries next
      | _ => none
  | start =>
    match key? start with
    | none => none
    | some k =>
      have h₂ := k.shorter
      match h' : k.rest with
      | '=' :: rest =>
        have h₃ := length_skipWs_le rest
        match value? maxDepth (skipWs rest) with
        | none => none
        | some x =>
          have h₄ := x.shorter
          match he : endLine? x.rest with
          | none => none
          | some next =>
            have h₅ := length_le_of_endLine? he
            have : next.length < cs.length :=
              length_lt_of_line h₁ (h ▸ Nat.le_refl _) h₂ (h' ▸ Nat.le_add_right _ 1)
                (Nat.le_trans h₅ (Nat.le_trans (Nat.le_of_lt h₄) h₃))
            match entries.within false
                (fun _ es => es.insert k.value.path k.value.last x.value) .declared header with
            | none => none
            | some entries => readLines header entries next
      | _ => none
termination_by cs.length

def skipByteOrderMark : List Char → List Char
  | c :: cs => if c.toNat = 0xFEFF then cs else c :: cs
  | [] => []

def malformedMessage : String := "TOML parse error"

def read? (s : String) : Option Value :=
  (readLines [] [] (skipByteOrderMark s.toList)).map fun es => .table (entriesToValue es)

end SqlHighlight.Toml
