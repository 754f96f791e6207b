import Mathlib.Data.List.Forall2
import SqlHighlight.Proofs.Boundary
import SqlHighlight.Proofs.Lexing

namespace SqlHighlight

namespace Range

/-- Ranges that are not empty, each from where the one before it stops. -/
def Tiles (lower : Nat) : List Range → Nat → Prop
  | [], upper => lower = upper
  | r :: rs, upper => r.start = lower ∧ r.start < r.stop ∧ Tiles r.stop rs upper

end Range

namespace Text

theorem append_inj_of_width {as bs as' bs' : List Char} (h : as ++ bs = as' ++ bs')
    (hwidth : width as = width as') : as = as' ∧ bs = bs' := by
  have hsplit := splitAt?_width_append as bs
  rw [h, hwidth, splitAt?_width_append] at hsplit
  obtain ⟨rfl, rfl⟩ := Prod.mk.inj (Option.some.inj hsplit)
  exact ⟨rfl, rfl⟩

theorem slice_cons_iff {before : List Char} {c d : Char} (cs : List Char) (hd : d.utf8Size = 1) :
    slice (width before) (width before + 1) (before ++ c :: cs) = .ok [d] ↔ c = d := by
  rw [slice_eq_ok_iff]
  constructor
  · rintro ⟨before', after, heq, hwidth, -⟩
    obtain ⟨-, htail⟩ := append_inj_of_width heq hwidth.symm
    exact (List.cons.inj htail).1
  · rintro rfl
    exact ⟨before, cs, rfl, rfl, by simp [hd]⟩

end Text

namespace Sql

/-- The character that a token read from a first character is rendered with. -/
def TokenKind.lead (kind : TokenKind) (c : Char) : Char := if kind = .nationalString then 'N' else c

theorem TokenKind.lead_eq_iff {kind : TokenKind} {c : Char} :
    kind.lead c = c ↔ (kind = .nationalString → c = 'N') := by
  unfold lead
  split
  next h => simp [h, eq_comm]
  next h => simp [h]

@[simp] theorem TokenKind.lead_lead (kind : TokenKind) (c : Char) :
    kind.lead (kind.lead c) = kind.lead c := by
  unfold lead
  split <;> rfl

namespace Lexeme

theorem read_small {cs : List Char} (h : (read 'n' cs).kind ≠ .nationalString) :
    read 'n' cs = run .word isWordChar 'n' [] cs := by
  cases hw : wrapped? 'n' cs with
  | none => simp [read, hw, Text.isAsciiBlank, numeric?, word?, isWordStart]
  | some l =>
    have hl : read 'n' cs = l := by simp [read, hw, Text.isAsciiBlank]
    rw [hl] at h
    unfold wrapped? at hw
    split at hw <;> simp_all
    exact absurd (by rw [← hw]; rfl) h

theorem wrap_read {c : Char} {cs : List Char} (h : (read c cs).closed = true) :
    (read c cs).kind.wrap (read c cs).value = (read c cs).kind.lead c :: (read c cs).more := by
  obtain ⟨d, hd, hwrap⟩ := (stands_read c cs).wrap_eq h
  rw [hwrap, TokenKind.lead]
  split
  next hkind =>
    rw [hkind] at hwrap
    rw [(List.cons.inj hwrap).1]
  next hkind =>
    obtain rfl | ⟨rfl, rfl⟩ := hd
    · rfl
    · rw [read_small hkind] at hwrap
      exact absurd (List.cons.inj hwrap).1 (by decide)

theorem rendersAs_lead_read {c : Char} {cs : List Char} (h : (read c cs).closed = true) :
    RendersAs c ((read c cs).kind.lead c) := by
  obtain ⟨d, hd, hwrap⟩ := (stands_read c cs).wrap_eq h
  rw [wrap_read h] at hwrap
  rwa [(List.cons.inj hwrap).1]

end Lexeme

namespace Tokens

theorem tiles_lex (start : Nat) (cs : List Char) :
    Range.Tiles start ((lex start cs).list.map Token.range) (start + Text.width cs) := by
  fun_induction lex start cs with
  | case1 => rfl
  | case2 start c cs l stop _ ih =>
    have hsplit : l.more ++ l.rest = cs := Lexeme.splits_read c cs
    have hpos : 0 < Text.width (c :: l.more) := Text.width_pos
    refine ⟨rfl, Nat.lt_add_of_pos_right hpos, ?_⟩
    change Range.Tiles stop _ _
    rw [← hsplit, ← List.cons_append, Text.width_append, ← Nat.add_assoc]
    exact ih

theorem isBoundary_of_mem_lex {start : Nat} {cs : List Char} {t : Token}
    (ht : t ∈ (lex start cs).list) (before : List Char) (h : Text.width before = start) :
    Text.IsBoundary t.range.start (before ++ cs) ∧ Text.IsBoundary t.range.stop (before ++ cs) := by
  revert before
  fun_induction lex start cs with
  | case1 => cases ht
  | case2 start c cs l stop _ ih =>
    intro before h
    have hsplit : l.more ++ l.rest = cs := Lexeme.splits_read c cs
    have hstop : Text.width (before ++ c :: l.more) = stop := by rw [Text.width_append, h]
    have heq : before ++ c :: cs = (before ++ c :: l.more) ++ l.rest := by simp [hsplit]
    rcases List.mem_cons.1 ht with rfl | ht
    · constructor
      · exact Text.isBoundary_iff.2 ⟨before, c :: cs, rfl, h⟩
      · exact Text.isBoundary_iff.2 ⟨_, _, heq, hstop⟩
    · rw [heq]
      exact ih ht _ hstop

def chars (ts : Tokens) : List Char := ts.list.flatMap fun t => t.render.toList

theorem toList_render (ts : Tokens) : ts.render.toList = ts.chars := by
  simp only [render, chars, String.toList_join, List.flatMap_map]

section

variable {start : Nat} {c : Char} {cs : List Char}

theorem unfinished_lex_cons : (lex start (c :: cs)).unfinished = false ↔
    (Lexeme.read c cs).closed = true ∧
      (lex (start + Text.width (c :: (Lexeme.read c cs).more)) (Lexeme.read c cs).rest).unfinished =
        false := by
  rw [lex]
  simp [cons]

theorem chars_lex_cons (h : (Lexeme.read c cs).closed = true) :
    (lex start (c :: cs)).chars =
      (Lexeme.read c cs).kind.lead c :: (Lexeme.read c cs).more ++
        (lex (start + Text.width (c :: (Lexeme.read c cs).more)) (Lexeme.read c cs).rest).chars := by
  rw [lex, chars, cons, List.flatMap_cons, ← Lexeme.wrap_read h]
  simp [chars, Token.render]

end

theorem rendersAs_chars_lex {start : Nat} {cs : List Char} (h : (lex start cs).unfinished = false) :
    List.Forall₂ RendersAs cs (lex start cs).chars := by
  fun_induction lex start cs with
  | case1 => exact .nil
  | case2 start c cs l stop _ ih =>
    rw [← lex] at h ⊢
    obtain ⟨hclosed, hrest⟩ := unfinished_lex_cons.1 h
    have hsplit : l.more ++ l.rest = cs := Lexeme.splits_read c cs
    have hmore : List.Forall₂ RendersAs l.more l.more := List.forall₂_same.2 fun _ _ => .inl rfl
    rw [chars_lex_cons hclosed, List.cons_append]
    refine .cons (Lexeme.rendersAs_lead_read hclosed) ?_
    conv_lhs => rw [← hsplit]
    exact List.rel_append hmore (ih hrest)

theorem chars_lex_eq_iff {start : Nat} {cs : List Char} (h : (lex start cs).unfinished = false)
    (before : List Char) (hbefore : Text.width before = start) :
    (lex start cs).chars = cs ↔ ∀ t ∈ (lex start cs).list, t.kind = .nationalString →
      Text.slice t.range.start (t.range.start + 1) (before ++ cs) = .ok ['N'] := by
  revert before
  fun_induction lex start cs with
  | case1 => simp [chars]
  | case2 start c cs l stop _ ih =>
    intro before hbefore
    obtain ⟨hclosed, hrest⟩ := unfinished_lex_cons.1 (by rwa [lex])
    have hsplit : l.more ++ l.rest = cs := Lexeme.splits_read c cs
    have hstop : Text.width (before ++ c :: l.more) = stop := by rw [Text.width_append, hbefore]
    have heq : before ++ c :: cs = (before ++ c :: l.more) ++ l.rest := by simp [hsplit]
    have hfirst : Text.slice start (start + 1) (before ++ c :: cs) = .ok ['N'] ↔ c = 'N' := by
      rw [← hbefore]
      exact Text.slice_cons_iff cs (by decide)
    have hchars : (lex start (c :: cs)).chars = c :: cs ↔
        l.kind.lead c = c ∧ (lex stop l.rest).chars = l.rest := by
      rw [chars_lex_cons hclosed, List.cons_append, List.cons_eq_cons]
      change l.kind.lead c = c ∧ l.more ++ (lex stop l.rest).chars = cs ↔ _
      rw [← hsplit, List.append_cancel_left_eq]
    rw [← lex, hchars, ih hrest _ hstop, ← heq, TokenKind.lead_eq_iff, ← hfirst, lex]
    simp only [cons, List.forall_mem_cons]
    rfl

/-- Finished tokens render as their text, but for the letters of national strings: the text comes back
exactly if none of these is a small one. -/
theorem render_ofText_eq_iff {sql : String} (h : (ofText sql).unfinished = false) :
    List.Forall₂ RendersAs sql.toList (ofText sql).render.toList ∧
      ((ofText sql).render = sql ↔
        ∀ t ∈ (ofText sql).list, t.kind = .nationalString →
          Text.slice t.range.start (t.range.start + 1) sql.toList = .ok ['N']) := by
  constructor
  · rw [toList_render]
    exact rendersAs_chars_lex h
  · rw [← String.toList_inj, toList_render]
    exact chars_lex_eq_iff h [] rfl

theorem render_ofText_eq_iff_quoted :
    let sql := "N'é''n' [n'x'] /* n'y' */ .5"
    (ofText sql).unfinished = false ∧
      List.Forall₂ RendersAs sql.toList (ofText sql).render.toList ∧
        ((ofText sql).render = sql ↔
          ∀ t ∈ (ofText sql).list, t.kind = .nationalString →
            Text.slice t.range.start (t.range.start + 1) sql.toList = .ok ['N']) := by
  intro sql
  have h : (ofText sql).unfinished = false := by decide +kernel
  exact ⟨h, render_ofText_eq_iff h⟩

theorem render_ofText_small :
    (ofText "n'x'").unfinished = false ∧ (ofText "n'x'").render = "N'x'" ∧
      (ofText "n'x'").render ≠ "n'x'" := by
  decide +kernel

end Tokens

end Sql

end SqlHighlight
