import SqlHighlight.Sql.Lexeme

namespace SqlHighlight.Sql

def TokenKind.terminator? : TokenKind → Option Char
  | .string => some '\''
  | .nationalString => some '\''
  | .quotedName => some '"'
  | .bracketedName => some ']'
  | _ => none

section

variable {mark : Char} {rest : List Char}

theorem readQuoted_mark (h : rest.head? ≠ some mark) :
    readQuoted mark (mark :: rest) = ([], some rest) := by
  cases rest with
  | nil => simp [readQuoted]
  | cons d ds =>
    have hd : d ≠ mark := by simpa using h
    simp [readQuoted, hd]

theorem readQuoted_cons {c : Char} {cs : List Char} (h : c ≠ mark) :
    readQuoted mark (c :: cs) = (c :: (readQuoted mark cs).1, (readQuoted mark cs).2) := by
  cases cs with
  | nil => simp [readQuoted, h]
  | cons d ds => simp [readQuoted, h]

theorem readQuoted_doubleMark (value : List Char) (h : rest.head? ≠ some mark) :
    readQuoted mark (doubleMark mark value ++ mark :: rest) = (value, some rest) := by
  induction value with
  | nil => exact readQuoted_mark h
  | cons c value ih =>
    rw [doubleMark]
    split
    next hc => simp [readQuoted, ih, hc]
    next hc => rw [List.cons_append, readQuoted_cons hc, ih]

end

theorem Lexeme.exists_read_wrap {kind : TokenKind} {mark : Char} (hkind : kind.terminator? = some mark)
    (value : List Char) {rest : List Char} (h : rest.head? ≠ some mark) :
    ∃ c more, kind.wrap value = c :: more ∧
      Lexeme.read c (more ++ rest) = ⟨kind, value, more, rest, true⟩ := by
  have hread := readQuoted_doubleMark value h
  cases kind with
  | string | nationalString | quotedName | bracketedName =>
    cases hkind
    refine ⟨_, _, rfl, ?_⟩
    simp [Lexeme.read, Text.isAsciiBlank, wrapped?, quotation, hread, closing]
  | _ => cases hkind

def Token.shift (n : Nat) (t : Token) : Token := { t with range := t.range.shift n }

namespace Tokens

theorem lex_add (n start : Nat) (cs : List Char) :
    lex (start + n) cs = ⟨(lex start cs).list.map (Token.shift n), (lex start cs).unfinished⟩ := by
  fun_induction lex start cs with
  | case1 => simp [lex]
  | case2 start c cs l stop _ ih =>
    rw [lex]
    change (lex (start + n + Text.width (c :: l.more)) l.rest).cons _ _ = _
    rw [Nat.add_right_comm, ih]
    rfl

theorem lex_wrap_append {kind : TokenKind} {mark : Char} (hkind : kind.terminator? = some mark)
    (start : Nat) (value : List Char) {rest : List Char} (h : rest.head? ≠ some mark) :
    lex start (kind.wrap value ++ rest) =
      (lex (start + Text.width (kind.wrap value)) rest).cons
        ⟨kind, String.ofList value, ⟨start, start + Text.width (kind.wrap value)⟩⟩ true := by
  obtain ⟨c, more, hwrap, hread⟩ := Lexeme.exists_read_wrap hkind value h
  rw [hwrap, List.cons_append, lex, hread]

theorem ofText_render_append {kind : TokenKind} {mark : Char} (hkind : kind.terminator? = some mark)
    (value : String) {rest : String} (hrest : rest.toList.head? ≠ some mark) :
    let t : Token := ⟨kind, value, ⟨0, Text.width (kind.wrap value.toList)⟩⟩
    ofText (t.render ++ rest) =
      ⟨t :: (ofText rest).list.map (Token.shift t.range.stop), (ofText rest).unfinished⟩ := by
  intro t
  have hchars : (t.render ++ rest).toList = kind.wrap value.toList ++ rest.toList := by
    simp [t, Token.render]
  rw [ofText, hchars, lex_wrap_append hkind 0 value.toList hrest, lex_add, String.ofList_toList,
    Nat.zero_add]
  rfl

theorem ofText_render_append_marks :
    let t : Token := ⟨.nationalString, "'é''\n'", ⟨0, 14⟩⟩
    t.kind.terminator? = some '\'' ∧ " 'x".toList.head? ≠ some '\'' ∧
      t.render = "N'''é''''\n'''" ∧
      ofText (t.render ++ " 'x") =
        ⟨[t, ⟨.blank, " ", ⟨14, 15⟩⟩, ⟨.string, "x", ⟨15, 17⟩⟩], true⟩ := by
  intro t
  have hkind : t.kind.terminator? = some '\'' := rfl
  have hrest : " 'x".toList.head? ≠ some '\'' := by decide
  have hbehind : ofText " 'x" = ⟨[⟨.blank, " ", ⟨0, 1⟩⟩, ⟨.string, "x", ⟨1, 3⟩⟩], true⟩ := by
    decide +kernel
  have hwidth : Text.width (t.kind.wrap t.value.toList) = 14 := by decide
  have h := ofText_render_append hkind t.value hrest
  rw [hbehind, hwidth] at h
  exact ⟨hkind, hrest, by decide, h⟩

end Tokens

end SqlHighlight.Sql
