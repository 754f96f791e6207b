import SqlHighlight.Proofs.Tracking

namespace SqlHighlight

namespace Literal.LineModes

section

variable {mode : Mode} {modes ms : LineModes} {ls : List Line} {dirty first i j k : Nat}
  {changed : Bool}

theorem scanned_settle_eq_zero_iff (hls : ls ≠ []) (hms : ms ≠ []) :
    (settle dirty changed mode ls ms).2 = 0 ↔ dirty = 0 ∧ changed = false := by
  cases ls with
  | nil => exact absurd rfl hls
  | cons l ls =>
    cases ms with
    | nil => exact absurd rfl hms
    | cons m ms =>
      rw [settle]
      split <;> simp_all

theorem scanned_settle_clean : (settle 0 false mode ls ms).2 = 0 := by
  cases ls with
  | nil => rfl
  | cons l ls =>
    cases ms with
    | nil => rfl
    | cons m ms => rfl

theorem scanned_settle_le : (settle dirty changed mode ls ms).2 ≤ ms.length := by
  fun_induction settle dirty changed mode ls ms with
  | case1 => exact Nat.zero_le _
  | case2 dirty changed mode l ls m ms _ next rest scanned heq ih =>
    rw [heq] at ih
    exact Nat.succ_le_succ ih
  | case3 => exact Nat.zero_le _

theorem le_scanned_settle (hls : dirty ≤ ls.length) (hms : dirty ≤ ms.length) :
    dirty ≤ (settle dirty changed mode ls ms).2 := by
  fun_induction settle dirty changed mode ls ms with
  | case1 dirty changed mode l ls m ms hstop =>
    simp only [Bool.and_eq_true, decide_eq_true_eq] at hstop
    exact Nat.le_of_eq hstop.1
  | case2 dirty changed mode l ls m ms _ next rest scanned heq ih =>
    rw [heq] at ih
    rw [List.length_cons] at hls hms
    have := ih (by omega) (by omega)
    dsimp only at this ⊢
    omega
  | case3 ls dirty changed mode ms hnil =>
    cases ls with
    | nil => exact hls
    | cons l ls =>
      cases ms with
      | nil => exact hms
      | cons m ms => exact absurd rfl (hnil l ls m ms rfl)

theorem getElem?_settle (hj : (settle dirty changed mode ls ms).2 ≤ j) (hls : j < ls.length)
    (hms : j < ms.length) (hi : j ≤ i + 1) : (settle dirty changed mode ls ms).1[i]? = ms[i]? := by
  fun_induction settle dirty changed mode ls ms generalizing i j with
  | case1 => rfl
  | case2 dirty changed mode l ls m ms _ next rest scanned heq =>
    rename_i ih
    rw [heq] at ih
    rw [List.length_cons] at hls hms
    dsimp only at hj ih ⊢
    cases i with
    | zero =>
      -- The line below is there and is left out, so this one came out as it was.
      have hclean : (settle (dirty - 1) (next != m) next ls ms).2 = 0 := by
        rw [heq]
        dsimp only
        omega
      have hls : ls ≠ [] := List.ne_nil_of_length_pos (by omega)
      have hms : ms ≠ [] := List.ne_nil_of_length_pos (by omega)
      have hnext := ((scanned_settle_eq_zero_iff hls hms).1 hclean).2
      simpa using hnext
    | succ i =>
      rw [List.getElem?_cons_succ, List.getElem?_cons_succ]
      exact ih (j := j - 1) (by omega) (by omega) (by omega) (by omega)
  | case3 => rfl

theorem scanned_settle_le_of_eq (hk : dirty ≤ k + 1)
    (heq : (settle dirty changed mode ls ms).1[k]? = ms[k]?) :
    (settle dirty changed mode ls ms).2 ≤ k + 1 := by
  fun_induction settle dirty changed mode ls ms generalizing k with
  | case1 => exact Nat.zero_le _
  | case2 dirty changed mode l ls m ms _ next rest scanned hsettle =>
    rename_i ih
    rw [hsettle] at ih
    dsimp only at heq ih ⊢
    cases k with
    | zero =>
      obtain rfl : next = m := by simpa using heq
      have hclean : (settle (dirty - 1) (next != next) next ls ms).2 = 0 := by
        rw [show dirty - 1 = 0 by omega, bne_self_eq_false, scanned_settle_clean]
      rw [hsettle] at hclean
      exact Nat.succ_le_succ (Nat.le_of_eq hclean)
    | succ k =>
      rw [List.getElem?_cons_succ, List.getElem?_cons_succ] at heq
      exact Nat.succ_le_succ (ih (by omega) heq)
  | case3 => exact Nat.zero_le _

theorem getElem?_resize_of_lt (added : Nat) {line removed : Nat} (h : line + removed ≤ modes.length)
    (hi : i < line) : (modes.resize line ((added : Int) - removed))[i]? = modes[i]? := by
  obtain ⟨room, -, heq⟩ := exists_resize_eq added h
  rw [heq, List.getElem?_append_left (by rw [List.length_take]; omega), List.getElem?_take_of_lt hi]

theorem getElem?_resize_of_le {line added removed : Nat} (h : line + removed ≤ modes.length)
    (hi : line + added ≤ i) :
    (modes.resize line ((added : Int) - removed))[i]? = modes[i - added + removed]? := by
  obtain ⟨room, hroom, heq⟩ := exists_resize_eq added h
  have hlen : (modes.take line ++ room).length = line + added := by
    rw [List.length_append, List.length_take_of_le (by omega), hroom]
  rw [heq, ← List.append_assoc, List.getElem?_append_right (by omega), hlen, List.getElem?_drop]
  congr 1
  omega

/-- Rescanned lines of an edit that begins in the line `first`, and puts `added` line feeds in place
of `removed` ones. Below them the modes are the old ones, and so is the mode that they start in; and
they end with the first line, the last edited one or one below, that comes out in its old mode. -/
structure IsRescan (old new : LineModes) (first added removed : Nat) (lines : Range) : Prop where
  start_eq : lines.start = first
  lt_stop : first + added < lines.stop
  stop_le : lines.stop ≤ new.length
  above : ∀ i < first, new[i]? = old[i]?
  below : ∀ i j, lines.stop ≤ j → j < new.length → j ≤ i + 1 → new[i]? = old[i - added + removed]?
  stop_le_of_eq : ∀ k, first + added ≤ k → new[k]? = old[k - added + removed]? → lines.stop ≤ k + 1

theorem rescan_add {added : Nat} : modes.rescan ls first (first + added) =
    let settled := settle (added + 1) true (modes.before first) (ls.drop first) (modes.drop first)
    (modes.take first ++ settled.1, ⟨first, first + settled.2⟩) := by
  rw [rescan, Nat.add_assoc, Nat.add_sub_cancel_left]

theorem isRescan_rescan {old : LineModes} {added removed : Nat} (hlen : modes.length = ls.length)
    (hlast : first + added < ls.length) (habove : ∀ i < first, modes[i]? = old[i]?)
    (hbelow : ∀ i, first + added ≤ i → modes[i]? = old[i - added + removed]?) :
    IsRescan old (modes.rescan ls first (first + added)).1 first added removed
      (modes.rescan ls first (first + added)).2 := by
  have htake : (modes.take first).length = first := List.length_take_of_le (by omega)
  have hls : (ls.drop first).length = ls.length - first := List.length_drop
  have hms : (modes.drop first).length = ls.length - first := by rw [List.length_drop, hlen]
  have hlength : (modes.rescan ls first (first + added)).1.length = modes.length := length_rescan
  rw [rescan_add] at hlength ⊢
  generalize hsettled : settle (added + 1) true (modes.before first) (ls.drop first)
    (modes.drop first) = settled at hlength ⊢
  have hdirty : added + 1 ≤ settled.2 := hsettled ▸ le_scanned_settle (by omega) (by omega)
  have hget : ∀ i, (modes.take first ++ settled.1)[first + i]? = settled.1[i]? := by
    intro i
    rw [List.getElem?_append_right (by omega), htake, Nat.add_sub_cancel_left]
  constructor
  case start_eq => rfl
  case lt_stop => exact Nat.add_lt_add_left hdirty first
  case stop_le =>
    have : settled.2 ≤ (modes.drop first).length := hsettled ▸ scanned_settle_le
    dsimp only at hlength ⊢
    omega
  case above =>
    intro i hi
    rw [← habove i hi, List.getElem?_append_left (by omega), List.getElem?_take_of_lt hi]
  case below =>
    intro i j hstop hj hi
    dsimp only at hlength hstop hj
    obtain ⟨i, rfl⟩ := Nat.exists_eq_add_of_le (show first ≤ i by omega)
    rw [hget, ← hbelow _ (by omega), ← List.getElem?_drop, ← hsettled]
    exact getElem?_settle (j := j - first) (by rw [hsettled]; omega) (by omega) (by omega) (by omega)
  case stop_le_of_eq =>
    intro k hk heq
    obtain ⟨k, rfl⟩ := Nat.exists_eq_add_of_le (show first ≤ k by omega)
    rw [hget, ← hbelow _ hk, ← List.getElem?_drop, ← hsettled] at heq
    have := scanned_settle_le_of_eq (by omega) heq
    rw [hsettled] at this
    exact Nat.add_le_add_left this first

theorem isRescan_resize (before removed inserted after : List Char) :
    IsRescan (ofLines (Text.lines (before ++ (removed ++ after))))
      (ofLines (Text.lines (before ++ (inserted ++ after)))) (before.count '\n')
      (inserted.count '\n') (removed.count '\n')
      (((ofLines (Text.lines (before ++ (removed ++ after)))).resize (before.count '\n')
          ((inserted.count '\n' : Int) - removed.count '\n')).rescan
        (Text.lines (before ++ (inserted ++ after))) (before.count '\n')
        ((before ++ inserted).count '\n')).2 := by
  have hmodes := length_ofLines (before ++ (removed ++ after))
  have hedited : before.count '\n' + removed.count '\n' ≤
      (ofLines (Text.lines (before ++ (removed ++ after)))).length := by
    simp only [hmodes, List.count_append]
    omega
  rw [← rescan_resize_ofLines before removed inserted after, List.count_append]
  apply isRescan_rescan
  · rw [length_resize_lines inserted hmodes, Text.length_lines]
  · simp only [Text.length_lines, List.count_append]
    omega
  · exact fun i hi => getElem?_resize_of_lt _ hedited hi
  · exact fun i hi => getElem?_resize_of_le hedited hi

end

end Literal.LineModes

namespace Revision

variable {old new : Revision} {before removed inserted after : List Char} {i j : Nat} {l l' : Line}

theorem start_le_stop_of_le (hij : i ≤ j) (hl : new.line? i = some l) (hl' : new.line? j = some l') :
    l.start ≤ l'.stop := by
  rcases Nat.lt_or_eq_of_le hij with hlt | rfl
  · obtain ⟨hi, rfl⟩ := List.getElem?_eq_some_iff.1 hl
    obtain ⟨hj, rfl⟩ := List.getElem?_eq_some_iff.1 hl'
    have hsorted := Line.pairwise_start_place 0 0 (Text.cutLines new.chars)
    exact Nat.le_trans (List.pairwise_iff_getElem.1 hsorted i j hi hj hlt) (Line.start_le_stop _)
  · obtain rfl : l = l' := Option.some.inj (hl.symm.trans hl')
    exact l.start_le_stop

theorem map_text_line? (r : Revision) (i : Nat) :
    (r.line? i).map Line.text = ((Text.lines r.chars).map Line.text)[i]? :=
  List.getElem?_map.symm

theorem map_text_line?_above (hold : old.chars = before ++ removed)
    (hnew : new.chars = before ++ inserted) (hi : i < before.count '\n') :
    (new.line? i).map Line.text = (old.line? i).map Line.text := by
  rw [map_text_line?, map_text_line?, hold, hnew, ← List.getElem?_take_of_lt hi,
    Text.take_texts_append before inserted removed, List.getElem?_take_of_lt hi]

theorem map_text_line?_below (hold : old.chars = before ++ (removed ++ after))
    (hnew : new.chars = before ++ (inserted ++ after))
    (hj : before.count '\n' + inserted.count '\n' < j) :
    (new.line? j).map Line.text =
      (old.line? (j - inserted.count '\n' + removed.count '\n')).map Line.text := by
  rw [← List.append_assoc] at hold hnew
  obtain ⟨k, rfl⟩ := Nat.exists_eq_add_of_lt hj
  have hdrop := congrArg (·[k]?) (Text.drop_texts_append (before ++ inserted) (before ++ removed) after)
  simp only [List.getElem?_drop, List.count_append] at hdrop
  rw [map_text_line?, map_text_line?, hold, hnew, Nat.add_right_comm, hdrop]
  congr 1
  omega

end Revision

open Literal (LineModes)

structure Tagger.SameLine (t : Tagger) (i : Nat) (t' : Tagger) (j : Nat) : Prop where
  text_eq : (t.revision.line? i).map Line.text = (t'.revision.line? j).map Line.text
  before_eq : t.modes.before i = t'.modes.before j
  mode_eq : t.modes[i]? = t'.modes[j]?

namespace Notice

/-- What a notice tells of an edit that begins in the line `first`, and puts `added` line feeds in
place of `removed` ones. The notice covers the edited lines; outside it lines are only renumbered; and
it ends with the first line, the last edited one or one below, that comes out in its old mode. -/
structure IsTight (n : Notice) (old new : Tagger) (first added removed : Nat) : Prop where
  start_eq : n.lines.start = first
  lt_stop : first + added < n.lines.stop
  stop_le : n.lines.stop ≤ new.revision.lineCount
  span_eq : ∃ l l', new.revision.line? n.lines.start = some l ∧
    new.revision.line? (n.lines.stop - 1) = some l' ∧ n.span = ⟨l.start, l'.stop⟩
  above : ∀ i < first, new.SameLine i old i
  below : ∀ j, n.lines.stop ≤ j → j < new.revision.lineCount →
    new.SameLine j old (j - added + removed)
  stop_le_of_settled : ∀ k, first + added ≤ k →
    new.modes[k]? = old.modes[k - added + removed]? → n.lines.stop ≤ k + 1

theorem exists_span_ofLines {r : Revision} {lines : Range} (hlt : lines.start < lines.stop)
    (hle : lines.stop ≤ r.lineCount) :
    ∃ l l', r.line? lines.start = some l ∧ r.line? (lines.stop - 1) = some l' ∧
      (ofLines r lines).span = ⟨l.start, l'.stop⟩ := by
  obtain ⟨first, stop⟩ := lines
  cases stop with
  | zero => exact absurd hlt (Nat.not_lt_zero _)
  | succ last =>
    have hfirst : r.line? first = some _ := List.getElem?_eq_getElem (Nat.lt_of_lt_of_le hlt hle)
    have hlast : r.line? last = some _ := List.getElem?_eq_getElem hle
    have hspan := Revision.start_le_stop_of_le (Nat.le_of_lt_succ hlt) hfirst hlast
    refine ⟨_, _, hfirst, hlast, ?_⟩
    simp only [ofLines, hfirst, hlast, Option.map_some, Option.getD_some, Nat.max_eq_right hspan]

theorem isTight_ofLines {old new : Revision} {before removed inserted after : List Char}
    {lines : Range} (hold : old.chars = before ++ (removed ++ after))
    (hnew : new.chars = before ++ (inserted ++ after))
    (hscan : LineModes.IsRescan (Tagger.ofRevision old).modes (Tagger.ofRevision new).modes
      (before.count '\n') (inserted.count '\n') (removed.count '\n') lines) :
    (ofLines new lines).IsTight (.ofRevision old) (.ofRevision new) (before.count '\n')
      (inserted.count '\n') (removed.count '\n') := by
  have hlen : (Tagger.ofRevision new).modes.length = (Tagger.ofRevision new).revision.lineCount :=
    LineModes.length_build
  have hlt := hscan.lt_stop
  have hle := hscan.stop_le
  rw [hlen] at hle
  constructor
  case start_eq => exact hscan.start_eq
  case lt_stop => exact hlt
  case stop_le => exact hle
  case span_eq =>
    apply exists_span_ofLines _ hle
    rw [hscan.start_eq]
    omega
  case above =>
    intro i hi
    constructor
    case text_eq => exact Revision.map_text_line?_above hold hnew hi
    case before_eq =>
      cases i with
      | zero => rfl
      | succ i => exact congrArg (Option.getD · .code) (hscan.above i (by omega))
    case mode_eq => exact hscan.above i hi
  case below =>
    intro j (hstop : lines.stop ≤ j) hj
    rw [← hlen] at hj
    constructor
    case text_eq => exact Revision.map_text_line?_below hold hnew (Nat.lt_of_lt_of_le hlt hstop)
    case before_eq =>
      obtain ⟨i, rfl⟩ : ∃ i, j = i + 1 := ⟨j - 1, by omega⟩
      rw [show i + 1 - inserted.count '\n' + removed.count '\n' =
        i - inserted.count '\n' + removed.count '\n' + 1 by omega]
      exact congrArg (Option.getD · .code) (hscan.below i _ hstop hj (Nat.le_refl _))
    case mode_eq => exact hscan.below j _ hstop hj (Nat.le_succ j)
  case stop_le_of_settled => exact hscan.stop_le_of_eq

end Notice

namespace Tagger

theorem exists_isTight_of_edit {r : Revision} {number : Nat} {range : Range} {replacement : String}
    (hfits : (r.edit number range replacement).1.length < Offset.bound) :
    let made := r.edit number range replacement
    ∃ removed notice,
      r.slice ⟨made.2.oldStart, made.2.oldStart + made.2.oldLength⟩ = .ok removed ∧
      (ofRevision r).apply made.1 [made.2] = .ok (ofRevision made.1, [notice]) ∧
      notice.IsTight (ofRevision r) (ofRevision made.1) (r.lineAt made.2.oldStart)
        (replacement.toList.count '\n') (removed.count '\n') := by
  obtain ⟨before, removed, after, hold, hnew, hstart, hlength, happly⟩ := exists_apply_edit_eq hfits
  generalize r.edit number range replacement = made at hnew hstart hlength happly ⊢
  refine ⟨removed, _, ?_, happly, ?_⟩
  · have hslice := Text.slice_append before removed after
    have hwidth : Text.width before + Text.width removed ≤ r.length := by
      simp only [Revision.length, hold, Text.width_append]
      omega
    rwa [hstart, hlength, Revision.slice, hold, Nat.min_eq_left hwidth,
      Nat.min_eq_left (Nat.le_trans (Nat.le_add_right _ _) hwidth),
      Nat.max_eq_right (Nat.le_add_right _ _)]
  · have hscan := LineModes.isRescan_resize before removed replacement.toList after
    rw [← hold, ← hnew, ← LineModes.build_eq, ← LineModes.build_eq] at hscan
    have hfirst : r.lineAt (Text.width before) = before.count '\n' := by
      rw [Revision.lineAt, Revision.lines, hold, Text.lineAt_width]
    rw [hstart, hfirst]
    exact Notice.isTight_ofLines hold hnew hscan

theorem exists_isTight_of_edit_opening :
    ((Revision.first "é;\n@\"\r\nx\";\n\"").edit 1 ⟨1, 5⟩ "\n@\"\n").1.length < Offset.bound ∧
    let made := (Revision.first "é;\n@\"\r\nx\";\n\"").edit 1 ⟨1, 5⟩ "\n@\"\n"
    ∃ removed notice,
      (Revision.first "é;\n@\"\r\nx\";\n\"").slice
        ⟨made.2.oldStart, made.2.oldStart + made.2.oldLength⟩ = .ok removed ∧
      (ofRevision (.first "é;\n@\"\r\nx\";\n\"")).apply made.1 [made.2] =
        .ok (ofRevision made.1, [notice]) ∧
      notice.IsTight (ofRevision (.first "é;\n@\"\r\nx\";\n\"")) (ofRevision made.1)
        ((Revision.first "é;\n@\"\r\nx\";\n\"").lineAt made.2.oldStart)
        ("\n@\"\n".toList.count '\n') (removed.count '\n') :=
  have h : ((Revision.first "é;\n@\"\r\nx\";\n\"").edit 1 ⟨1, 5⟩ "\n@\"\n").1.length <
      Offset.bound := by
    decide +kernel
  ⟨h, exists_isTight_of_edit h⟩

example :
    let made := (Revision.first "a\n@\"b\nc\nd\";\ne").edit 1 ⟨2, 3⟩ ""
    ((ofRevision (.first "a\n@\"b\nc\nd\";\ne")).apply made.1 [made.2]).toOption.map (·.2) =
      some [⟨⟨1, 4⟩, ⟨2, 10⟩⟩] := by
  decide +kernel

end Tagger

end SqlHighlight
