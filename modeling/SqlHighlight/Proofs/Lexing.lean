import SqlHighlight.Proofs.Frontier

namespace SqlHighlight.Sql

/-- A character that is rendered as another one: itself, or a capital for the small letter before a
national string. -/
def RendersAs (c d : Char) : Prop := d = c ∨ c = 'n' ∧ d = 'N'

theorem RendersAs.utf8Size_eq {c d : Char} (h : RendersAs c d) : d.utf8Size = c.utf8Size := by
  obtain rfl | ⟨rfl, rfl⟩ := h
  · rfl
  · decide

namespace Lexeme

/-- Rendering the lexeme gives the characters it was read from, the first one as `RendersAs` says;
and it is spelled as its kind asks. -/
structure Stands (c : Char) (l : Lexeme) : Prop where
  wrap_eq : l.closed = true → ∃ d, RendersAs c d ∧ l.kind.wrap l.value = d :: l.more
  isSpelled : ∀ value ∈ l.kind.spelling?, String.ofList l.value = value

section

variable {kind : TokenKind} {c : Char} {l : Lexeme}

theorem stands_plain {more : List Char} (rest : List Char) (hwrap : ∀ value, kind.wrap value = value)
    (hspelling : ∀ value ∈ kind.spelling?, String.ofList (c :: more) = value) :
    (plain kind c more rest).Stands c where
  wrap_eq _ := ⟨c, .inl rfl, hwrap _⟩
  isSpelled := hspelling

theorem stands_run (p : Char → Bool) (lead cs : List Char) (hwrap : ∀ value, kind.wrap value = value)
    (hspelling : kind.spelling? = none) : (run kind p c lead cs).Stands c :=
  stands_plain _ hwrap (by simp [hspelling])

theorem stands_lineComment {mark : Char} (cs : List Char)
    (hwrap : ∀ value, kind.wrap value = mark :: mark :: value) (hspelling : kind.spelling? = none) :
    (lineComment kind mark cs).Stands mark where
  wrap_eq _ := ⟨mark, .inl rfl, hwrap _⟩
  isSpelled := by simp [lineComment, hspelling]

theorem closing_of_isSome {rest : Option (List Char)} (h : rest.isSome = true) (marks : List Char) :
    closing marks rest = marks := by
  cases rest with
  | none => cases h
  | some _ => rfl

theorem stands_blockComment (cs : List Char) : (blockComment cs).Stands '/' where
  wrap_eq h := by
    refine ⟨'/', .inl rfl, ?_⟩
    simp only [blockComment, TokenKind.wrap] at h ⊢
    rw [closing_of_isSome h]
    rfl
  isSpelled := by simp [blockComment, TokenKind.spelling?]

theorem stands_quotation {lead : List Char} {mark d : Char} (cs : List Char) (hd : RendersAs c d)
    (hwrap : ∀ value, kind.wrap value = d :: (lead ++ doubleMark mark value ++ [mark]))
    (hspelling : kind.spelling? = none) : (quotation kind lead mark cs).Stands c where
  wrap_eq h := by
    refine ⟨d, hd, ?_⟩
    simp only [quotation] at h ⊢
    rw [closing_of_isSome h, hwrap]
  isSpelled := by simp [quotation, hspelling]

theorem stands_wrapped? {cs : List Char} (h : wrapped? c cs = some l) : l.Stands c := by
  unfold wrapped? at h
  split at h
  case h_9 => cases h
  all_goals obtain rfl := Option.some.inj h
  · exact stands_lineComment _ (fun _ => rfl) rfl
  · exact stands_lineComment _ (fun _ => rfl) rfl
  · exact stands_blockComment _
  · exact stands_quotation _ (.inl rfl) (fun _ => rfl) rfl
  · exact stands_quotation _ (.inr ⟨rfl, rfl⟩) (fun _ => rfl) rfl
  · exact stands_quotation _ (.inl rfl) (fun _ => rfl) rfl
  · exact stands_quotation _ (.inl rfl) (fun _ => rfl) rfl
  · exact stands_quotation _ (.inl rfl) (fun _ => rfl) rfl

theorem stands_numeric? {cs : List Char} (h : numeric? c cs = some l) : l.Stands c := by
  unfold numeric? at h
  repeat' split at h
  case isFalse.isFalse.isFalse.isFalse => cases h
  all_goals obtain rfl := Option.some.inj h
  · exact stands_run _ _ _ (fun _ => rfl) rfl
  · exact stands_plain _ (fun _ => rfl) (by simp [TokenKind.spelling?])
  · exact stands_plain _ (fun _ => rfl) (by simp [TokenKind.spelling?])
  · exact stands_plain _ (fun _ => rfl) (by simp [TokenKind.spelling?])

theorem stands_word? {cs : List Char} (h : word? c cs = some l) : l.Stands c := by
  unfold word? at h
  repeat' split at h
  case isFalse.isFalse.isFalse => cases h
  all_goals obtain rfl := Option.some.inj h
  · exact stands_run _ _ _ (fun _ => rfl) rfl
  · exact stands_run _ _ _ (fun _ => rfl) rfl
  · exact stands_run _ _ _ (fun _ => rfl) rfl
  · exact stands_plain _ (fun _ => rfl) (by simp [TokenKind.spelling?])

theorem stands_symbolKind (c : Char) (rest : List Char) :
    (plain (symbolKind c) c [] rest).Stands c := by
  unfold symbolKind
  split <;> exact stands_plain _ (fun _ => rfl) (by simp [TokenKind.spelling?])

theorem stands_symbol (c : Char) (cs : List Char) : (symbol c cs).Stands c := by
  cases cs with
  | nil => exact stands_symbolKind c []
  | cons d cs =>
    rw [symbol]
    split
    · exact stands_plain _ (fun _ => rfl) (by simp [TokenKind.spelling?])
    · exact stands_symbolKind c (d :: cs)

theorem stands_read (c : Char) (cs : List Char) : (read c cs).Stands c := by
  rw [read]
  split
  · exact stands_run _ _ _ (fun _ => rfl) rfl
  · cases hw : wrapped? c cs with
    | some l => exact stands_wrapped? hw
    | none =>
      cases hn : numeric? c cs with
      | some l => exact stands_numeric? hn
      | none =>
        cases hd : word? c cs with
        | some l => exact stands_word? hd
        | none => exact stands_symbol c cs

end

end Lexeme

namespace Tokens

theorem isSpelled_lex (start : Nat) (cs : List Char) : ∀ t ∈ (lex start cs).list, t.IsSpelled := by
  fun_induction lex start cs with
  | case1 => simp
  | case2 start c cs l stop _ ih =>
    intro t ht
    rcases List.mem_cons.1 ht with rfl | ht
    · exact (Lexeme.stands_read c cs).isSpelled
    · exact ih t ht

theorem sizes_lex {start : Nat} {cs : List Char} (h : (lex start cs).unfinished = false) :
    ((lex start cs).list.flatMap fun t => t.render.toList).map Char.utf8Size =
      cs.map Char.utf8Size := by
  fun_induction lex start cs with
  | case1 => rfl
  | case2 start c cs l stop _ ih =>
    simp only [cons, Bool.or_eq_false_iff, Bool.not_eq_false'] at h
    obtain ⟨d, hd, hwrap⟩ := (Lexeme.stands_read c cs).wrap_eq h.1
    have hsizes : (l.kind.wrap l.value).map Char.utf8Size = (c :: l.more).map Char.utf8Size := by
      rw [hwrap, List.map_cons, List.map_cons, hd.utf8Size_eq]
    have hsplit : l.more ++ l.rest = cs := Lexeme.splits_read c cs
    rw [cons, List.flatMap_cons, List.map_append, ih h.2, ← hsplit, ← List.cons_append,
      List.map_append, ← hsizes]
    simp [Token.render]

end Tokens

end SqlHighlight.Sql
