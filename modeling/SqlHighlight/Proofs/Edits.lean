import Mathlib.Order.Bounds.Basic
import SqlHighlight.Proofs.Batch
import SqlHighlight.Proofs.Boundary
import SqlHighlight.Proofs.Placement

namespace SqlHighlight

namespace Text

abbrev IsFloor (cs : List Char) (offset n : Nat) : Prop :=
  IsGreatest {m | IsBoundary m cs ∧ m ≤ offset} n

theorem isFloor_splitFloor (offset : Nat) (cs : List Char) :
    IsFloor cs offset (width (splitFloor offset cs).1) := by
  refine ⟨⟨isBoundary_iff.2 ⟨_, _, (append_splitFloor offset cs).symm, rfl⟩,
    width_splitFloor_le offset cs⟩, ?_⟩
  rintro m ⟨hm, hle⟩
  induction cs generalizing offset m with
  | nil => exact le_width_of_isBoundary hm
  | cons c cs ih =>
    rw [splitFloor]
    rcases isBoundary_cons.1 hm with rfl | ⟨hsize, hrest⟩
    · exact Nat.zero_le _
    · have := ih (offset - c.utf8Size) hrest (Nat.sub_le_sub_right hle _)
      rw [if_pos (Nat.le_trans hsize hle), width_cons]
      omega

theorem IsFloor.append_left {bs : List Char} {offset n : Nat} (h : IsFloor bs offset n)
    (as : List Char) : IsFloor (as ++ bs) (width as + offset) (width as + n) := by
  obtain ⟨⟨hn, hle⟩, hgreatest⟩ := h
  refine ⟨⟨(isBoundary_append_right as bs n).2 hn, Nat.add_le_add_left hle _⟩, ?_⟩
  rintro m ⟨hm, hle'⟩
  rcases Nat.le_total m (width as) with hbefore | hbehind
  · exact Nat.le_trans hbefore (Nat.le_add_right _ _)
  · obtain ⟨k, rfl⟩ := Nat.exists_eq_add_of_le hbehind
    have hk : k ≤ n := hgreatest ⟨(isBoundary_append_right as bs k).1 hm, by omega⟩
    exact Nat.add_le_add_left hk _

theorem isFloor_min_width {cs : List Char} {offset n : Nat} :
    IsFloor cs (min offset (width cs)) n ↔ IsFloor cs offset n := by
  have hset : {m | IsBoundary m cs ∧ m ≤ min offset (width cs)} = {m | IsBoundary m cs ∧ m ≤ offset} := by
    ext m
    refine and_congr_right fun hm => ?_
    rw [Nat.le_min, and_iff_left (le_width_of_isBoundary hm)]
  rw [IsFloor, hset]

end Text

namespace Revision

section

variable {r : Revision} {before inside after : List Char}

theorem slice_of_chars_eq (h : r.chars = before ++ (inside ++ after)) :
    r.slice ⟨Text.width before, Text.width before + Text.width inside⟩ = .ok inside := by
  have hwidth : Text.width before + Text.width inside ≤ r.length := by
    simp only [length, h, Text.width_append]
    omega
  rw [slice, Nat.min_eq_left hwidth, Nat.min_eq_left (Nat.le_trans (Nat.le_add_right _ _) hwidth),
    Nat.max_eq_right (Nat.le_add_right _ _), h, Text.slice_append]

theorem lineCount_eq (r : Revision) : r.lineCount = r.chars.count '\n' + 1 :=
  Text.length_lines r.chars

theorem edit_of_chars_eq (h : r.chars = before ++ (inside ++ after)) (number : Nat)
    (replacement : String) :
    r.edit number ⟨Text.width before, Text.width before + Text.width inside⟩ replacement =
      (⟨number, r.version + 1, String.ofList (before ++ (replacement.toList ++ after))⟩,
        ⟨r.version, Text.width before, Text.width inside, Text.width before,
          Text.width replacement.toList,
          (replacement.toList.count '\n' : Int) - inside.count '\n'⟩) := by
  rw [edit, h, Text.splitFloor_width_append]
  dsimp only
  rw [Nat.max_eq_right (Nat.le_add_right _ _), Nat.add_sub_cancel_left, Text.splitFloor_width_append,
    List.append_assoc]

end

/-- A revision and a change that come of replacing a range: what lies outside the edited part is kept,
and the part starts and stops at the nearest boundaries below the ends of the range. -/
structure IsEdited (r : Revision) (range : Range) (replacement : String) (after : Revision)
    (c : Change) : Prop where
  start_isFloor : Text.IsFloor r.chars (min range.start r.length) c.oldStart
  stop_isFloor : Text.IsFloor r.chars
    (max (min range.start r.length) (min range.stop r.length)) (c.oldStart + c.oldLength)
  newStart_eq : c.newStart = c.oldStart
  newLength_eq : c.newLength = Text.width replacement.toList
  chars_eq : ∃ left right, r.slice ⟨0, c.oldStart⟩ = .ok left ∧
    r.slice ⟨c.oldStart + c.oldLength, r.length⟩ = .ok right ∧
    after.chars = left ++ (replacement.toList ++ right)
  lineCount_eq : (after.lineCount : Int) = r.lineCount + c.lineDelta
  version_eq : after.version = r.version + 1
  baseVersion_eq : c.baseVersion = r.version

theorem exists_edit_isFloor (r : Revision) (number : Nat) (range : Range) (replacement : String) :
    ∃ before removed after : List Char,
      r.chars = before ++ (removed ++ after) ∧
      Text.IsFloor r.chars range.start (Text.width before) ∧
      Text.IsFloor r.chars (max range.start range.stop) (Text.width before + Text.width removed) ∧
      r.edit number range replacement =
        r.edit number ⟨Text.width before, Text.width before + Text.width removed⟩ replacement := by
  have hstart := Text.isFloor_splitFloor range.start r.chars
  have hchars := Text.append_splitFloor range.start r.chars
  rw [edit]
  generalize Text.splitFloor range.start r.chars = cut at hstart hchars ⊢
  obtain ⟨before, tail⟩ := cut
  dsimp only at hstart hchars ⊢
  have hlower : Text.width before ≤ max range.start range.stop :=
    Nat.le_trans hstart.1.2 (Nat.le_max_left _ _)
  have hstop := Text.isFloor_splitFloor (max range.start range.stop - Text.width before) tail
  have htail := Text.append_splitFloor (max range.start range.stop - Text.width before) tail
  generalize Text.splitFloor (max range.start range.stop - Text.width before) tail = cut at hstop htail ⊢
  obtain ⟨removed, after⟩ := cut
  dsimp only at hstop htail ⊢
  have heq : r.chars = before ++ (removed ++ after) := by rw [htail, hchars]
  refine ⟨before, removed, after, heq, hstart, ?_, ?_⟩
  · have hmoved := hstop.append_left before
    rwa [Nat.add_sub_cancel' hlower, hchars] at hmoved
  · rw [edit_of_chars_eq heq, List.append_assoc]

theorem isEdited_edit (r : Revision) (number : Nat) (range : Range) (replacement : String) :
    r.IsEdited range replacement (r.edit number range replacement).1
      (r.edit number range replacement).2 := by
  obtain ⟨before, removed, after, hchars, hstart, hstop, hedit⟩ :=
    r.exists_edit_isFloor number range replacement
  have hlength : r.length = Text.width (before ++ removed) + Text.width after := by
    rw [length, hchars, ← List.append_assoc, Text.width_append]
  rw [hedit, edit_of_chars_eq hchars]
  constructor
  case start_isFloor => exact Text.isFloor_min_width.2 hstart
  case stop_isFloor =>
    rw [← Nat.min_max_distrib_right]
    exact Text.isFloor_min_width.2 hstop
  case newStart_eq => rfl
  case newLength_eq => rfl
  case chars_eq =>
    refine ⟨before, after, ?_, ?_, chars_mk _ _ _⟩
    · have hleft : r.chars = [] ++ (before ++ (removed ++ after)) := hchars
      have hslice := slice_of_chars_eq hleft
      rwa [Text.width_nil, Nat.zero_add] at hslice
    · have hright : r.chars = (before ++ removed) ++ (after ++ []) := by simp [hchars]
      have hslice := slice_of_chars_eq hright
      rwa [← hlength, Text.width_append] at hslice
  case lineCount_eq =>
    rw [lineCount_eq, lineCount_eq, chars_mk, hchars]
    simp only [List.count_append]
    omega
  case version_eq => rfl
  case baseVersion_eq => rfl

theorem isEdited_edit_and_undo (r : Revision) (number number' : Nat) (range : Range)
    (replacement : String) :
    let made := r.edit number range replacement
    r.IsEdited range replacement made.1 made.2 ∧
      ∃ removed, r.slice ⟨made.2.oldStart, made.2.oldStart + made.2.oldLength⟩ = .ok removed ∧
        let back := made.1.edit number'
          ⟨made.2.newStart, made.2.newStart + made.2.newLength⟩ (String.ofList removed)
        back.1.text = r.text ∧ back.2.lineDelta = -made.2.lineDelta := by
  intro made
  refine ⟨r.isEdited_edit number range replacement, ?_⟩
  obtain ⟨before, removed, after, hchars, -, -, hedit⟩ :=
    r.exists_edit_isFloor number range replacement
  have hmade : made = _ := hedit.trans (edit_of_chars_eq hchars number replacement)
  rw [hmade]
  refine ⟨removed, slice_of_chars_eq hchars, ?_⟩
  rw [edit_of_chars_eq (chars_mk _ _ _), String.toList_ofList, ← hchars]
  exact ⟨String.ofList_toList, (Int.neg_sub _ _).symm⟩

end Revision

end SqlHighlight
