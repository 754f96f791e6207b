import SqlHighlight.Proofs.Tracking

/-! Several edits of one revision, taken in at once. All lines are made room for before any is
scanned again, so a rescan can run into the room made for a later change and stop there. Each rescan
makes the lines of its own change current and spoils no other, so the last one leaves none stale. -/

namespace SqlHighlight

open Literal (LineModes)

/-- Makes edits in characters that start at an offset of the old text and at one of the new text.
Gives what comes of the characters, and a change for each edit. The ranges of the edits are in order;
one that starts too early is moved up to the end of the range before it. -/
def Edit.makeAll (version old new : Nat) (cs : List Char) : List Edit → List Char × List Change
  | [] => (cs, [])
  | e :: es =>
    let (kept, tail) := Text.splitFloor (e.range.start - old) cs
    let start := old + Text.width kept
    let (removed, rest) := Text.splitFloor (max e.range.start e.range.stop - start) tail
    let inserted := e.replacement.toList
    let newStart := new + Text.width kept
    let (made, changes) := makeAll version (start + Text.width removed)
      (newStart + Text.width inserted) rest es
    (kept ++ (inserted ++ made),
      { baseVersion := version
        oldStart := start
        oldLength := Text.width removed
        newStart
        newLength := Text.width inserted
        lineDelta := (inserted.count '\n' : Int) - removed.count '\n' } :: changes)

def Revision.editAll (r : Revision) (edits : List Edit) : List Char × List Change :=
  Edit.makeAll r.version 0 0 r.chars edits

theorem Text.splitFloor_width_append (cs ds : List Char) :
    splitFloor (width cs) (cs ++ ds) = (cs, ds) := by
  induction cs with
  | nil =>
    cases ds with
    | nil => rfl
    | cons d ds => rw [width_nil, List.nil_append, splitFloor, if_neg (Nat.not_le.2 d.utf8Size_pos)]
  | cons c cs ih =>
    rw [List.cons_append, splitFloor, width_cons, if_pos (Nat.le_add_right _ _),
      Nat.add_sub_cancel_left, ih]

theorem Edit.makeAll_cons_append (version old new : Nat) (kept removed rest : List Char)
    (replacement : String) (es : List Edit) :
    let start := old + Text.width kept
    let stop := start + Text.width removed
    let inserted := replacement.toList
    let later := makeAll version stop (new + Text.width kept + Text.width inserted) rest es
    makeAll version old new (kept ++ (removed ++ rest)) (⟨⟨start, stop⟩, replacement⟩ :: es) =
      (kept ++ (inserted ++ later.1),
        ⟨version, start, Text.width removed, new + Text.width kept, Text.width inserted,
          (inserted.count '\n' : Int) - removed.count '\n'⟩ :: later.2) := by
  intro start stop inserted later
  have hkept : start - old = Text.width kept := Nat.add_sub_cancel_left old (Text.width kept)
  have hremoved : max start stop - start = Text.width removed := by
    rw [Nat.max_eq_right (Nat.le_add_right _ _)]
    exact Nat.add_sub_cancel_left start (Text.width removed)
  rw [makeAll]
  simp only [hkept, Text.splitFloor_width_append]
  rw [hremoved, Text.splitFloor_width_append]

theorem Revision.edit_eq_editAll (r : Revision) (number : Nat) (range : Range)
    (replacement : String) :
    ((r.edit number range replacement).1.chars, [(r.edit number range replacement).2]) =
      r.editAll [⟨range, replacement⟩] := by
  simp [edit, editAll, Edit.makeAll, chars]

example : (Revision.first "ab\ncd").editAll [⟨⟨1, 4⟩, "x"⟩, ⟨⟨4, 4⟩, "\n\n"⟩] =
    (['a', 'x', '\n', '\n', 'd'], [⟨0, 1, 3, 1, 1, -1⟩, ⟨0, 4, 0, 2, 2, 2⟩]) := by decide +kernel

structure Change.Puts (c : Change) (before removed inserted : List Char) : Prop where
  newStart : c.newStart = Text.width before
  newLength : c.newLength = Text.width inserted
  lineDelta : c.lineDelta = (inserted.count '\n' : Int) - removed.count '\n'

section

variable {version old new : Nat} {cs : List Char} {es : List Edit}

theorem Edit.exists_makeAll_cons (version old new : Nat) (cs : List Char) (e : Edit)
    (es : List Edit) :
    ∃ c kept removed rest old',
      cs = kept ++ (removed ++ rest) ∧ c.baseVersion = version ∧
      (∀ made, new = Text.width made → c.Puts (made ++ kept) removed e.replacement.toList) ∧
      let next := new + Text.width kept + Text.width e.replacement.toList
      makeAll version old new cs (e :: es) =
        (kept ++ (e.replacement.toList ++ (makeAll version old' next rest es).1),
          c :: (makeAll version old' next rest es).2) := by
  have hkept := Text.append_splitFloor (e.range.start - old) cs
  rw [makeAll]
  generalize Text.splitFloor (e.range.start - old) cs = split at hkept ⊢
  obtain ⟨kept, tail⟩ := split
  have hremoved := Text.append_splitFloor
    (max e.range.start e.range.stop - (old + Text.width kept)) tail
  dsimp only at hkept ⊢
  generalize Text.splitFloor (max e.range.start e.range.stop - (old + Text.width kept)) tail = split
    at hremoved ⊢
  obtain ⟨removed, rest⟩ := split
  refine ⟨_, kept, removed, rest, _, ?_, rfl, ?_, rfl⟩
  · rw [hremoved, hkept]
  · intro made hnew
    exact ⟨by rw [hnew, Text.width_append], rfl, rfl⟩

theorem Edit.length_makeAll : (makeAll version old new cs es).2.length = es.length := by
  induction es generalizing old new cs with
  | nil => rfl
  | cons e es ih =>
    obtain ⟨c, kept, removed, rest, old', -, -, -, hmake⟩ :=
      exists_makeAll_cons version old new cs e es
    rw [hmake, List.length_cons, ih, List.length_cons]

theorem Edit.baseVersion_of_mem_makeAll {c : Change}
    (h : c ∈ (makeAll version old new cs es).2) : c.baseVersion = version := by
  induction es generalizing old new cs with
  | nil => simp [makeAll] at h
  | cons e es ih =>
    obtain ⟨d, kept, removed, rest, old', -, hversion, -, hmake⟩ :=
      exists_makeAll_cons version old new cs e es
    rw [hmake] at h
    rcases List.mem_cons.1 h with rfl | h
    · exact hversion
    · exact ih h

end

theorem Revision.lineAt_width {r : Revision} {as bs : List Char} (h : r.chars = as ++ bs) :
    r.lineAt (Text.width as) = as.count '\n' := by
  rw [lineAt, lines, h, Text.lineAt_width]

/-- A line of the new revision that a change has to do with. -/
def Change.Touches (after : Revision) (c : Change) (line : Nat) : Prop :=
  after.lineAt c.newStart ≤ line ∧ line ≤ after.lineAt (Offset.add c.newStart c.newLength)

theorem Change.Puts.touches_iff {after : Revision} {c : Change} {line : Nat}
    {before removed inserted rest : List Char} (h : c.Puts before removed inserted)
    (hafter : after.chars = before ++ (inserted ++ rest)) (hfits : after.length < Offset.bound) :
    c.Touches after line ↔ before.count '\n' ≤ line ∧ line ≤ (before ++ inserted).count '\n' := by
  have hfirst := Revision.lineAt_width hafter
  rw [← List.append_assoc] at hafter
  have hlast := Revision.lineAt_width hafter
  rw [Revision.length, hafter, Text.width_append, Text.width_append] at hfits
  rw [Touches, h.newStart, h.newLength, Offset.add_eq (by omega), ← Text.width_append, hfirst, hlast]

/-- Modes on the way from one revision to the next: changes have made a part of the new text, and
what follows is of the old one. A line is current unless one of the changes touches it. -/
structure Resized (after : Revision) (changes : List Change) (made rest : List Char)
    (modes : LineModes) : Prop where
  length_modes : modes.length = (made ++ rest).count '\n' + 1
  touches_le : ∀ c ∈ changes, ∀ i, c.Touches after i → i ≤ made.count '\n'
  current : ∀ i, (∃ c ∈ changes, c.Touches after i) ∨
    LineModes.CurrentFrom .code modes ((Text.lines (made ++ rest)).map Line.text) i

namespace Resized

variable {after : Revision} {modes : LineModes} {changes : List Change}
  {made kept removed rest : List Char}

theorem start (r : Revision) : Resized after [] [] r.chars (LineModes.ofLines r.lines) where
  length_modes := LineModes.length_scanFrom.trans (Text.length_lines _)
  touches_le := by simp
  current i := .inr (LineModes.currentFrom_scanFrom i)

theorem step {c : Change} {inserted tail : List Char}
    (h : Resized after changes made (kept ++ (removed ++ rest)) modes)
    (hc : c.Puts (made ++ kept) removed inserted)
    (hafter : after.chars = made ++ kept ++ (inserted ++ tail))
    (hfits : after.length < Offset.bound) :
    Resized after (changes ++ [c]) (made ++ kept ++ inserted) rest
      (modes.resize (after.lineAt c.newStart) c.lineDelta) := by
  have hline : after.lineAt c.newStart = (made ++ kept).count '\n' := by
    rw [hc.newStart, Revision.lineAt_width hafter]
  have hlen := h.length_modes
  have hcur := h.current
  rw [← List.append_assoc] at hlen hcur
  have hle : ∀ i, (∃ d ∈ changes, d.Touches after i) → i ≤ (made ++ kept).count '\n' := by
    rintro i ⟨d, hd, hi⟩
    rw [List.count_append]
    exact Nat.le_trans (h.touches_le d hd i hi) (Nat.le_add_right _ _)
  rw [hline, hc.lineDelta]
  constructor
  · rw [LineModes.length_resize_lines inserted hlen, List.append_assoc _ inserted]
  · intro d hd i hi
    rcases List.mem_append.1 hd with hd | hd
    · rw [List.count_append]
      exact Nat.le_trans (hle i ⟨d, hd, hi⟩) (Nat.le_add_right _ _)
    · obtain rfl := List.mem_singleton.1 hd
      exact ((hc.touches_iff hafter hfits).1 hi).2
  · intro i
    rw [List.append_assoc _ inserted]
    rcases LineModes.currentFrom_resize_lines inserted hlen hle hcur i with ⟨d, hd, hi⟩ | hi | hi
    · exact .inl ⟨d, List.mem_append_left _ hd, hi⟩
    · exact .inl ⟨c, by simp, (hc.touches_iff hafter hfits).2 hi⟩
    · exact .inr hi

theorem makeAll {version old new : Nat} {cs : List Char} {es : List Edit}
    (h : Resized after changes made cs modes) (hnew : new = Text.width made)
    (hafter : after.chars = made ++ (Edit.makeAll version old new cs es).1)
    (hfits : after.length < Offset.bound) :
    Resized after (changes ++ (Edit.makeAll version old new cs es).2) after.chars []
      (Tagger.resize after modes (Edit.makeAll version old new cs es).2) := by
  induction es generalizing old new made cs modes changes with
  | nil =>
    change after.chars = made ++ cs at hafter
    change Resized after (changes ++ []) after.chars [] modes
    have hmade : after.chars ++ [] = made ++ cs := by rw [List.append_nil, hafter]
    rw [List.append_nil]
    constructor
    · rw [hmade]
      exact h.length_modes
    · intro c hc i hi
      rw [hafter, List.count_append]
      exact Nat.le_trans (h.touches_le c hc i hi) (Nat.le_add_right _ _)
    · rw [hmade]
      exact h.current
  | cons e es ih =>
    obtain ⟨c, kept, removed, rest, old', rfl, -, hputs, hmake⟩ :=
      Edit.exists_makeAll_cons version old new cs e es
    rw [hmake] at hafter ⊢
    rw [← List.append_assoc] at hafter
    have hstep := h.step (hputs made hnew) hafter hfits
    rw [← List.append_assoc] at hafter
    have hrest := ih hstep (by simp [hnew, Nat.add_assoc]) hafter
    rwa [List.append_assoc] at hrest

end Resized

namespace Tagger

section

variable {after : Revision} {modes : LineModes} {changes : List Change}

theorem length_rescan_modes : (rescan after modes changes).1.length = modes.length := by
  induction changes generalizing modes with
  | nil => rfl
  | cons c cs ih =>
    change (rescan after (modes.rescan after.lines _ _).1 cs).1.length = _
    rw [ih, LineModes.length_rescan]

theorem length_rescan_notices : (rescan after modes changes).2.length = changes.length := by
  induction changes generalizing modes with
  | nil => rfl
  | cons c cs ih =>
    change (rescan after (modes.rescan after.lines _ _).1 cs).2.length + 1 = _
    rw [ih, List.length_cons]

theorem currentFrom_rescan_changes {line : Nat} (hlen : modes.length = after.lineCount)
    (h : (∃ c ∈ changes, c.Touches after line) ∨
      LineModes.CurrentFrom .code modes (after.lines.map Line.text) line) :
    LineModes.CurrentFrom .code (rescan after modes changes).1 (after.lines.map Line.text) line := by
  induction changes generalizing modes with
  | nil => exact h.resolve_left (by simp)
  | cons c cs ih =>
    have hfirst : after.lineAt c.newStart ≤ modes.length := by
      rw [hlen]
      exact Text.lineAt_le _ _
    apply ih
    · exact LineModes.length_rescan.trans hlen
    · -- A rescan settles the lines of its own change, and those of later ones wait for theirs.
      rcases h with ⟨d, hd, htouches⟩ | hcur
      · rcases List.mem_cons.1 hd with rfl | hd
        · exact .inr (LineModes.currentFrom_rescan hfirst (.inl htouches))
        · exact .inl ⟨d, hd, htouches⟩
      · exact .inr (LineModes.currentFrom_rescan hfirst (.inr hcur))

theorem rescan_of_resized (h : Resized after changes after.chars [] modes) :
    (rescan after modes changes).1 = LineModes.ofLines after.lines := by
  have hlen := h.length_modes
  have hcur := h.current
  rw [List.append_nil] at hlen hcur
  have hcount : modes.length = after.lineCount := hlen.trans (Text.length_lines _).symm
  apply LineModes.eq_scanFrom
  · rw [length_rescan_modes, hcount]
    rfl
  · intro i
    exact currentFrom_rescan_changes hcount (hcur i)

end

theorem exists_apply_editAll {t : Tagger} {after : Revision} {edits : List Edit}
    (hmodes : t.modes = LineModes.ofLines t.revision.lines)
    (hafter : after.chars = (t.revision.editAll edits).1) (hfits : after.length < Offset.bound) :
    ∃ notices, t.apply after (t.revision.editAll edits).2 =
        .ok (⟨after, LineModes.ofLines after.lines⟩, notices) ∧
      notices.length = edits.length := by
  have hversion : (t.revision.editAll edits).2.find? (·.baseVersion != t.revision.version) =
      none := by
    rw [List.find?_eq_none]
    intro c hc
    simp [Edit.baseVersion_of_mem_makeAll hc]
  have hresized := (Resized.start t.revision).makeAll rfl hafter hfits
  rw [List.nil_append, ← hmodes] at hresized
  refine ⟨(rescan after (resize after t.modes (t.revision.editAll edits).2)
    (t.revision.editAll edits).2).2, ?_, ?_⟩
  · rw [apply, hversion, ← rescan_of_resized hresized]
    rfl
  · rw [length_rescan_notices]
    exact Edit.length_makeAll

theorem exists_apply_editAll_touching :
    let r := Revision.first "/*\r\né\"\n\n*/"
    let edits : List Edit :=
      [⟨⟨0, 2⟩, "@\""⟩, ⟨⟨2, 3⟩, "\"\n\n"⟩, ⟨⟨4, 4⟩, "\n/*"⟩, ⟨⟨7, 9⟩, ""⟩, ⟨⟨9, 11⟩, "\""⟩]
    let after : Revision := ⟨1, 1, String.ofList (r.editAll edits).1⟩
    after.length < Offset.bound ∧
      ∃ notices, (ofRevision r).apply after (r.editAll edits).2 =
          .ok (⟨after, LineModes.ofLines after.lines⟩, notices) ∧
        notices.length = edits.length := by
  intro r edits after
  have hfits : after.length < Offset.bound := by decide +kernel
  exact ⟨hfits, exists_apply_editAll (LineModes.build_eq _) (Revision.chars_mk _ _ _) hfits⟩

end Tagger

end SqlHighlight
