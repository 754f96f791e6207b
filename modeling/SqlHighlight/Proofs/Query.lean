import SqlHighlight.Proofs.Placement
import SqlHighlight.Proofs.Separation

namespace SqlHighlight.Literal

namespace Assembly

def after (ds : List Literal) (a : Assembly) : Assembly := ⟨ds ++ a.done, a.pending⟩

section

variable {mode : Mode} {ds : List Literal} {a : Assembly} {ls xs ys : List Line}

@[simp] theorem flush_after : (a.after ds).flush = a.flush.after ds := by
  simp [after, flush]

theorem add_after (start : Nat) (f : Fragment) :
    (a.after ds).add start f = (a.add start f).after ds := by
  cases hc : f.continued <;> cases ho : f.openAtEnd <;> simp [add, after, flush, finish, hc, ho]

theorem addLine_after (start : Nat) (scan : LineScan) :
    (a.after ds).addLine start scan = (a.addLine start scan).after ds := by
  have hadd : scan.fragments.foldl (add start) (a.after ds) =
      (scan.fragments.foldl (add start) a).after ds := by
    induction scan.fragments generalizing a with
    | nil => rfl
    | cons f fs ih => rw [List.foldl_cons, add_after, ih, List.foldl_cons]
  rw [addLine, addLine, hadd]
  split <;> simp

theorem addLines_after : (a.after ds).addLines mode ls = (a.addLines mode ls).after ds := by
  induction ls generalizing mode a with
  | nil => rfl
  | cons l ls ih => rw [addLines, addLine_after, ih, addLines]

theorem addLines_append :
    a.addLines mode (xs ++ ys) = (a.addLines mode xs).addLines (modeAfter mode xs) ys := by
  induction xs generalizing mode a with
  | nil => rfl
  | cons l xs ih => exact ih

theorem pending_addLines (h : mode.isVerbatim = false → a.pending = none)
    (hopen : (modeAfter mode ls).isVerbatim = false) : (a.addLines mode ls).pending = none := by
  induction ls generalizing mode a with
  | nil => exact h hopen
  | cons l ls ih =>
    apply ih _ hopen
    intro hnext
    change (scanLine mode l.text).mode.isVerbatim = false at hnext
    simp [addLine, hnext, flush]

theorem done_addLines_append (h : mode.isVerbatim = false → a.pending = none)
    (hopen : ys ≠ [] → (modeAfter mode xs).isVerbatim = false) :
    (a.addLines mode (xs ++ ys)).flush.done =
      (a.addLines mode xs).flush.done ++ (empty.addLines (modeAfter mode xs) ys).flush.done := by
  cases ys with
  | nil => simp [addLines, empty, flush]
  | cons l ys =>
    have hpending := pending_addLines h (hopen (by simp))
    have hxs : a.addLines mode xs = empty.after (a.addLines mode xs).done := by
      generalize a.addLines mode xs = b at hpending ⊢
      cases b
      simp_all [after, empty]
    rw [addLines_append, hxs, addLines_after, flush_after, flush_after]
    simp [after, empty, flush]

end

end Assembly

namespace LineModes

section

variable {mode : Mode} {modes : LineModes} {ls : List Line}

theorem getElem?_scanFrom {n : Nat} (h : n ≤ ls.length) :
    (mode :: scanFrom mode ls)[n]? = some (modeAfter mode (ls.take n)) := by
  induction ls generalizing mode n with
  | nil =>
    obtain rfl : n = 0 := by simpa using h
    rfl
  | cons l ls ih =>
    cases n with
    | zero => rfl
    | succ n => exact ih (by simpa using h)

theorem before_ofLines {n : Nat} (h : n ≤ ls.length) :
    (ofLines ls).before n = modeAfter .code (ls.take n) := by
  have hget : (Mode.code :: scanFrom .code ls)[n]? = _ := getElem?_scanFrom h
  cases n with
  | zero => rfl
  | succ n =>
    rw [List.getElem?_cons_succ] at hget
    rw [before, ofLines, hget]
    rfl

theorem openingLine_le (n : Nat) : modes.openingLine n ≤ n := by
  induction n with
  | zero => exact Nat.le_refl 0
  | succ n ih =>
    rw [openingLine]
    split
    · exact Nat.le_succ_of_le ih
    · exact Nat.le_refl _

theorem isVerbatim_before_openingLine (n : Nat) :
    (modes.before (modes.openingLine n)).isVerbatim = false := by
  induction n with
  | zero => rfl
  | succ n ih =>
    rw [openingLine]
    split
    · exact ih
    · next h => simpa using h

end

/-- The literals gathered for a query stand together among those of the whole text. Those before them
end before the query starts, and those after them start behind it. -/
theorem exists_append_gather (cs : List Char) (query : Range) :
    let ls := Text.lines cs
    let first := (ofLines ls).openingLine (Text.lineAt query.start ls)
    ∃ ds es, (Assembly.empty.addLines .code ls).flush.done =
        ds ++ ((gather query ((ofLines ls).before first) .empty (ls.drop first)).flush.done ++ es) ∧
      (∀ l ∈ ds, l.range.stop < query.start) ∧ ∀ l ∈ es, isBehind query l.range.start = true := by
  intro ls first
  have hline : first ≤ Text.lineAt query.start ls := openingLine_le _
  have hlt : first < ls.length :=
    Nat.lt_of_le_of_lt hline (Text.lineAt_lt_length_lines query.start cs)
  have hbefore : (ofLines ls).before first = modeAfter .code (ls.take first) :=
    before_ofLines (Nat.le_of_lt hlt)
  have hopen : (modeAfter .code (ls.take first)).isVerbatim = false := by
    rw [← hbefore]
    exact isVerbatim_before_openingLine _
  have hdrop : List.Sublist (ls.drop first) ls := List.drop_sublist first ls
  obtain ⟨now, later, hrest, hgather, hlater, hbehind⟩ := exists_gather_eq query
    ((ofLines ls).before first) .empty ((Text.pairwise_lines cs).sublist hdrop)
  rw [hgather]
  rw [hrest] at hdrop
  refine ⟨(Assembly.empty.addLines .code (ls.take first)).flush.done,
    (Assembly.empty.addLines (modeAfter ((ofLines ls).before first) now) later).flush.done,
    ?_, ?_, ?_⟩
  · rw [← Assembly.done_addLines_append (fun _ => rfl) hlater, ← hrest, hbefore,
      ← Assembly.done_addLines_append (fun _ => rfl) (fun _ => hopen), List.take_append_drop]
  · intro l hl
    obtain ⟨line, hmem, hle⟩ := Assembly.exists_stop_of_mem_addLines hl
    exact Nat.lt_of_le_of_lt hle (Text.stop_lt_of_mem_take_lines hline hmem)
  · intro l hl
    obtain ⟨line, hmem, hle, -⟩ := Assembly.exists_start_of_mem_addLines hl
    exact Assembly.isBehind_of_le (hbehind line hmem) hle

theorem literals_ofLines (cs : List Char) (query : Range) :
    let ls := Text.lines cs
    let first := (ofLines ls).openingLine (Text.lineAt query.start ls)
    (ofLines ls).literals ls query =
      (gather query ((ofLines ls).before first) .empty (ls.drop first)).flush.done.filter
        (meets query) := by
  intro ls first
  have hlen : List.length (ofLines ls) = ls.length := length_scanFrom
  rw [literals, hlen, List.take_length]

theorem not_meets_of_stop_lt {query : Range} {l : Literal} (h : l.range.stop < query.start) :
    ¬ meets query l = true := by
  unfold meets Range.meets
  split
  · simp only [Bool.and_eq_true, decide_eq_true_eq]
    omega
  · simp only [Bool.and_eq_true, decide_eq_true_eq]
    omega

theorem not_meets_of_isBehind {query : Range} {l : Literal} (hquery : query.start ≤ query.stop)
    (h : isBehind query l.range.start = true) : ¬ meets query l = true := by
  unfold isBehind at h
  unfold meets Range.meets
  split
  next hempty =>
    rw [if_pos hempty, decide_eq_true_eq] at h
    simp only [Bool.and_eq_true, decide_eq_true_eq]
    omega
  next hempty =>
    rw [if_neg hempty, decide_eq_true_eq] at h
    simp only [Bool.and_eq_true, decide_eq_true_eq]
    omega

theorem literals_whole (cs : List Char) :
    (ofLines (Text.lines cs)).literals (Text.lines cs) ⟨0, Text.width cs⟩ =
      (Assembly.empty.addLines .code (Text.lines cs)).flush.done := by
  obtain ⟨ds, es, hall, hbefore, hbehind⟩ := exists_append_gather cs ⟨0, Text.width cs⟩
  have hplaced := Assembly.placed_addLines_empty (List.Sublist.refl (Text.lines cs))
    (fun _ _ => Nat.zero_le _) (fun _ => Text.stop_le_of_mem_lines) (Nat.zero_le _) .code
  have hreaches : ∀ l ∈ (Assembly.empty.addLines .code (Text.lines cs)).flush.done,
      l.Reaches (Text.width cs) := by
    intro l hl
    have hlt := (hplaced.isCutFrom l hl).start_lt_stop
    have hle := (hplaced.inOrder.of_mem (List.mem_map_of_mem hl)).2.2
    exact ⟨Nat.lt_of_lt_of_le hlt hle, Nat.zero_lt_of_lt hlt⟩
  have hds : ds = [] := by
    rw [List.eq_nil_iff_forall_not_mem]
    intro l hl
    exact Nat.not_lt_zero _ (hbefore l hl)
  have hes : es = [] := by
    rw [List.eq_nil_iff_forall_not_mem]
    intro l hl
    have hmeets := (hreaches l (by rw [hall]; simp [hl])).meets
    exact not_meets_of_isBehind (Nat.zero_le _) (hbehind l hl) hmeets
  rw [hds, hes, List.nil_append, List.append_nil] at hall
  rw [literals_ofLines, ← hall]
  apply List.filter_eq_self.2
  exact fun l hl => (hreaches l hl).meets

theorem literals_sublist (cs : List Char) (query : Range) :
    List.Sublist ((ofLines (Text.lines cs)).literals (Text.lines cs) query)
      ((ofLines (Text.lines cs)).literals (Text.lines cs) ⟨0, Text.width cs⟩) := by
  obtain ⟨ds, es, hall, -⟩ := exists_append_gather cs query
  rw [literals_whole, hall, literals_ofLines]
  apply List.filter_sublist.trans
  apply (List.sublist_append_left _ es).trans
  exact List.sublist_append_right ds _

theorem literals_eq_filter_meets (cs : List Char) {query : Range} (h : query.start ≤ query.stop) :
    (ofLines (Text.lines cs)).literals (Text.lines cs) query =
      ((ofLines (Text.lines cs)).literals (Text.lines cs) ⟨0, Text.width cs⟩).filter
        (meets query) := by
  obtain ⟨ds, es, hall, hbefore, hbehind⟩ := exists_append_gather cs query
  have hds : ds.filter (meets query) = [] := by
    rw [List.filter_eq_nil_iff]
    exact fun l hl => not_meets_of_stop_lt (hbefore l hl)
  have hes : es.filter (meets query) = [] := by
    rw [List.filter_eq_nil_iff]
    exact fun l hl => not_meets_of_isBehind h (hbehind l hl)
  rw [literals_whole, hall, List.filter_append, List.filter_append, hds, hes, List.nil_append,
    List.append_nil, literals_ofLines]

end LineModes

end SqlHighlight.Literal

namespace SqlHighlight.Tagger

open Literal (LineModes)

theorem literals_eq_filter_whole {t : Tagger} {query : Range}
    (hmodes : t.modes = LineModes.ofLines t.revision.lines) (hquery : query.start ≤ query.stop) :
    t.literals t.revision query =
      (t.literals t.revision ⟨0, t.revision.length⟩).filter (Literal.meets query) := by
  rw [literals, if_pos rfl, literals, if_pos rfl, hmodes]
  exact LineModes.literals_eq_filter_meets t.revision.chars hquery

theorem literals_eq_filter_whole_at_end :
    let t := ofRevision (.first "a @\"\r\né\n\" + \"b\" + $@\"\x7bx\n\x7d\"")
    (⟨18, 18⟩ : Range).start ≤ (⟨18, 18⟩ : Range).stop ∧
      t.literals t.revision ⟨18, 18⟩ =
        (t.literals t.revision ⟨0, t.revision.length⟩).filter (Literal.meets ⟨18, 18⟩) := by
  intro t
  exact ⟨by decide, literals_eq_filter_whole (LineModes.build_eq _) (by decide)⟩

end SqlHighlight.Tagger
