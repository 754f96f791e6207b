import Mathlib.Algebra.Order.BigOperators.Group.List
import Mathlib.Algebra.Order.Group.Nat
import Mathlib.Data.List.SplitBy
import SqlHighlight.Proofs.Assembly
import SqlHighlight.Proofs.LineModes

namespace SqlHighlight.Literal

section

variable {limit : Nat} {k : StringKind} {o : Opened} {ps : List Part}

theorem Part.holes_eq_nil_of_not_hasContent {p : Part} (hread : p.piece.IsRead)
    (h : p.hasContent = false) : p.holes = [] := by
  apply hread.holes_eq_nil
  exact .inr (by simpa [hasContent] using h)

theorem joinAll_map_literal? (hps : ∀ p ∈ ps, p.piece.IsRead ∧ p.piece.kind = k) :
    joinAll (ps.map Part.literal?) =
      match ps.filter Part.hasContent with
      | [] => none
      | p :: qs => some ⟨⟨p.start, (qs.getLastD p).stop⟩, k.interpolated, ps.flatMap Part.holes⟩ := by
  induction ps with
  | nil => rfl
  | cons p ps ih =>
    obtain ⟨hread, hkind⟩ := hps p List.mem_cons_self
    have hrest : ∀ q ∈ ps, q.piece.IsRead ∧ q.piece.kind = k := fun q hq =>
      hps q (List.mem_cons_of_mem _ hq)
    rw [List.map_cons, joinAll_cons, ih hrest, List.flatMap_cons]
    cases hp : p.hasContent with
    | false =>
      rw [List.filter_cons_of_neg (by simp [hp]), Part.holes_eq_nil_of_not_hasContent hread hp]
      simp [Part.literal?, hp]
    | true =>
      rw [List.filter_cons_of_pos hp]
      cases hqs : ps.filter Part.hasContent with
      | nil =>
        have hholes : ps.flatMap Part.holes = [] := by
          rw [List.flatMap_eq_nil_iff]
          intro q hq
          apply Part.holes_eq_nil_of_not_hasContent (hrest q hq).1
          simpa using List.filter_eq_nil_iff.1 hqs q hq
        simp [Part.literal?, hp, hkind, hholes]
      | cons q qs => simp [Part.literal?, hp, hkind, join, absorb, List.getLast?_cons]

theorem Opened.Sound.joined_eq (h : o.Sound limit) : o.joined = o.literal? :=
  joinAll_map_literal? fun p hp => ⟨(h p hp).1, (h p hp).2.1⟩

theorem Opened.Sound.holes_eq_nil {l : Literal} (h : o.Sound limit) (hl : o.literal? = some l)
    (hplain : l.interpolated = false) : l.holes = [] := by
  rw [literal?] at hl
  split at hl
  · cases hl
  · cases hl
    rw [List.flatMap_eq_nil_iff]
    intro p hp
    obtain ⟨hread, hkind, -⟩ := h p hp
    apply hread.holes_eq_nil
    exact .inl (by rw [hkind]; exact hplain)

end

/-- Literals in runs, each of one literal and those opened unnoticed right after it. -/
def runs (os : List Opened) : List (List Opened) := os.splitBy fun _ o => o.unnoticed

@[simp] theorem flatten_runs (os : List Opened) : (runs os).flatten = os :=
  List.flatten_splitBy _ os

def joinedRun (run : List Opened) : Option Literal := joinAll (run.map Opened.joined)

namespace Assembly

theorem note_joinedRun (ds : List Literal) (run : List Opened) (o : Opened) :
    (⟨ds, joinedRun run⟩ : Assembly).note o =
      if o.unnoticed then ⟨ds, joinedRun (run ++ [o])⟩
      else ⟨ds ++ (joinedRun run).toList, joinedRun [o]⟩ := by
  cases h : o.unnoticed <;> simp [note, h, flush, extend, joinedRun]

theorem filterMap_joinedRun_reverse_cons (run : List Opened) (done : List (List Opened)) :
    (run :: done).reverse.filterMap joinedRun =
      done.reverse.filterMap joinedRun ++ (joinedRun run).toList := by
  cases h : joinedRun run <;> simp [h]

theorem foldl_note_loop (os : List Opened) (o : Opened) (run : List Opened)
    (done : List (List Opened)) :
    (os.foldl note ⟨done.reverse.filterMap joinedRun, joinedRun (o :: run).reverse⟩).flush.done =
      (List.splitBy.loop (fun _ o => o.unnoticed) os o run done).filterMap joinedRun := by
  induction os generalizing o run done with
  | nil =>
    rw [List.splitBy.loop, filterMap_joinedRun_reverse_cons]
    rfl
  | cons o' os ih =>
    rw [List.foldl_cons, List.splitBy.loop, note_joinedRun]
    cases h : o'.unnoticed with
    | true => rw [if_pos rfl, ← ih, ← List.reverse_cons]
    | false =>
      rw [if_neg (by simp), ← ih, filterMap_joinedRun_reverse_cons]
      rfl

theorem done_flush_ofOpened (os : List Opened) :
    (ofOpened os.reverse).flush.done = (runs os).filterMap joinedRun := by
  rw [← List.append_nil os.reverse, ofOpened_append]
  cases os with
  | nil => rfl
  | cons o os =>
    have hfirst : (ofOpened []).note o = ⟨[], joinedRun [o]⟩ := by
      cases h : o.unnoticed <;> simp [note, h, ofOpened, empty, flush, extend, joinedRun]
    rw [List.foldl_cons, hfirst]
    exact foldl_note_loop os o [] []

end Assembly

def Reaches (limit : Nat) (l : Literal) : Prop := l.range.start < limit ∧ 0 < l.range.stop

section

variable {limit : Nat} {o : Opened} {run : List Opened} {l : Literal}

theorem Reaches.meets (h : l.Reaches limit) : meets ⟨0, limit⟩ l = true := by
  obtain ⟨hstart, hstop⟩ := h
  have hempty : (⟨0, limit⟩ : Range).isEmpty = false := by
    simp only [Range.isEmpty, decide_eq_false_iff_not]
    omega
  simp [Literal.meets, Range.meets, hempty, hstart, hstop]

theorem reaches_of_joinAll {ls : List (Option Literal)} (h : ∀ l, some l ∈ ls → l.Reaches limit)
    (hl : joinAll ls = some l) : l.Reaches limit := by
  induction ls generalizing l with
  | nil => cases hl
  | cons m ls ih =>
    have hrest : ∀ l, joinAll ls = some l → l.Reaches limit := fun l =>
      ih fun l' hl' => h l' (List.mem_cons_of_mem _ hl')
    rw [joinAll_cons] at hl
    cases m with
    | none => exact hrest l (by simpa using hl)
    | some m =>
      have hm := h m List.mem_cons_self
      cases hjoin : joinAll ls with
      | none =>
        rw [hjoin] at hl
        cases hl
        exact hm
      | some m' =>
        rw [hjoin] at hl
        cases hl
        exact ⟨hm.1, (hrest m' hjoin).2⟩

theorem Part.reaches {p : Part} (hstop : p.stop ≤ limit) (hl : p.literal? = some l) :
    l.Reaches limit := by
  rw [literal?] at hl
  split at hl
  next h =>
    cases hl
    have hwidth : p.piece.width ≠ 0 := by simpa [hasContent] using h
    have hlt : p.start < p.stop := by
      rw [stop]
      omega
    exact ⟨Nat.lt_of_lt_of_le hlt hstop, Nat.zero_lt_of_lt hlt⟩
  next => cases hl

theorem reaches_of_joinedRun (h : ∀ o ∈ run, o.Sound limit) (hl : joinedRun run = some l) :
    l.Reaches limit := by
  apply reaches_of_joinAll _ hl
  intro m hm
  obtain ⟨o, ho, hm⟩ := List.mem_map.1 hm
  apply reaches_of_joinAll _ hm
  intro m' hm'
  obtain ⟨p, hp, hm'⟩ := List.mem_map.1 hm'
  exact Part.reaches (h o ho p hp).2.2 hm'

end

theorem sound_opened {cs : List Char} {o : Opened} (h : o ∈ opened (Text.lines cs)) :
    o.Sound (Text.width cs) :=
  (wellOpened_nil _).openedFrom (fun _ => Text.stop_le_of_mem_lines) o (List.mem_reverse.1 h)

theorem sound_of_mem_runs {cs : List Char} {run : List Opened}
    (h : run ∈ runs (opened (Text.lines cs))) : ∀ o ∈ run, o.Sound (Text.width cs) := by
  intro o ho
  apply sound_opened
  rw [← flatten_runs (opened _)]
  exact List.mem_flatten_of_mem h ho

theorem text_eq_nil_of_isBehind {cs : List Char} {l : Line} (hl : l ∈ Text.lines cs)
    (h : isBehind ⟨0, Text.width cs⟩ l.start = true) : l.text = [] := by
  have hle : Text.width cs ≤ l.start := by
    unfold isBehind at h
    split at h <;> simp at h <;> omega
  have hstop := Text.stop_le_of_mem_lines hl
  rw [Line.stop] at hstop
  exact Text.width_eq_zero.1 (by omega)

theorem gather_lines (cs : List Char) :
    (gather ⟨0, Text.width cs⟩ .code .empty (Text.lines cs)).flush.done =
      (runs (opened (Text.lines cs))).filterMap joinedRun := by
  rw [← Assembly.done_flush_ofOpened, opened, List.reverse_reverse]
  congr 1
  apply Assembly.gather_ofOpened (wellOpened_nil (Text.width cs))
  · exact fun _ => Text.stop_le_of_mem_lines
  · exact Line.pairwise_start_place 0 0 _
  · exact fun _ => text_eq_nil_of_isBehind

theorem literals_ofRevision (r : Revision) :
    (Tagger.ofRevision r).literals r ⟨0, r.length⟩ =
      (runs (opened r.lines)).filterMap joinedRun := by
  have hline : Text.lineAt 0 r.lines = 0 := Text.lineAt_width [] r.chars
  have hlen : List.length (LineModes.ofLines r.lines) = r.lines.length := LineModes.length_scanFrom
  have hmeets : ∀ l ∈ (runs (opened r.lines)).filterMap joinedRun,
      meets ⟨0, r.length⟩ l = true := by
    intro l hl
    obtain ⟨run, hrun, hl⟩ := List.mem_filterMap.1 hl
    exact (reaches_of_joinedRun (sound_of_mem_runs hrun) hl).meets
  rw [← List.filter_eq_self.2 hmeets, Revision.lines, ← gather_lines]
  simp only [Tagger.literals_ofRevision_self, LineModes.literals, hline, hlen, LineModes.openingLine,
    LineModes.before, List.take_length, List.drop_zero]
  rfl

section

variable {α : Type} (f : α → Option Literal) (xs : List α)

theorem length_toList_joinAll_le :
    (joinAll (xs.map f)).toList.length ≤ (xs.filterMap f).length := by
  induction xs with
  | nil => simp
  | cons x xs ih =>
    rw [List.map_cons, joinAll_cons]
    cases hx : f x with
    | none => simpa [hx] using ih
    | some l => cases h : joinAll (xs.map f) <;> simp [hx, join]

theorem toList_joinAll_eq_iff :
    (joinAll (xs.map f)).toList = xs.filterMap f ↔ (xs.filterMap f).length ≤ 1 := by
  constructor
  · intro h
    rw [← h]
    cases joinAll (xs.map f) <;> simp
  · intro h
    induction xs with
    | nil => rfl
    | cons x xs ih =>
      rw [List.map_cons, joinAll_cons]
      cases hx : f x with
      | none =>
        rw [List.filterMap_cons_none hx] at h ⊢
        rw [none_join, ih h]
      | some l =>
        rw [List.filterMap_cons_some hx] at h ⊢
        have hnil : xs.filterMap f = [] := by simpa using h
        have hjoin : joinAll (xs.map f) = none := by
          rw [← Option.toList_eq_nil_iff, ih (by simp [hnil]), hnil]
        rw [hjoin, hnil]
        rfl

end

theorem joinedRun_eq {limit : Nat} {run : List Opened} (h : ∀ o ∈ run, o.Sound limit) :
    joinedRun run = joinAll (run.map Opened.literal?) := by
  rw [joinedRun, List.map_congr_left fun o ho => (h o ho).joined_eq]

theorem forall_eq_of_flatMap_eq {α β : Type} {f g : α → List β} {xs : List α}
    (hle : ∀ x ∈ xs, (f x).length ≤ (g x).length) (h : xs.flatMap f = xs.flatMap g) :
    ∀ x ∈ xs, f x = g x := by
  induction xs with
  | nil => simp
  | cons x xs ih =>
    have hx := hle x List.mem_cons_self
    have hxs : ∀ y ∈ xs, (f y).length ≤ (g y).length := fun y hy =>
      hle y (List.mem_cons_of_mem _ hy)
    have hrest : (xs.flatMap f).length ≤ (xs.flatMap g).length := by
      rw [List.length_flatMap, List.length_flatMap]
      exact List.sum_le_sum hxs
    rw [List.flatMap_cons, List.flatMap_cons] at h
    have hlen := congrArg List.length h
    rw [List.length_append, List.length_append] at hlen
    obtain ⟨hhead, htail⟩ := List.append_inj h (by omega)
    intro y hy
    rcases List.mem_cons.1 hy with rfl | hy
    · exact hhead
    · exact ih hxs htail y hy

theorem filterMap_joinedRun_eq_iff (cs : List Char) :
    (runs (opened (Text.lines cs))).filterMap joinedRun =
        (opened (Text.lines cs)).filterMap Opened.literal? ↔
      ∀ run ∈ runs (opened (Text.lines cs)), (run.filterMap Opened.literal?).length ≤ 1 := by
  have hrun : ∀ run ∈ runs (opened (Text.lines cs)),
      joinedRun run = joinAll (run.map Opened.literal?) := fun _ h =>
    joinedRun_eq (sound_of_mem_runs h)
  have hflat : (opened (Text.lines cs)).filterMap Opened.literal? =
      (runs (opened (Text.lines cs))).flatMap (List.filterMap Opened.literal?) := by
    conv_lhs => rw [← flatten_runs (opened _)]
    rw [List.filterMap_flatten, List.flatMap]
  rw [hflat, List.filterMap_eq_flatMap_toList]
  constructor
  · intro h run hmem
    rw [← toList_joinAll_eq_iff, ← hrun run hmem]
    apply forall_eq_of_flatMap_eq _ h run hmem
    intro run hmem
    rw [hrun run hmem]
    exact length_toList_joinAll_le _ run
  · intro h
    apply List.flatMap_congr
    intro run hmem
    rw [hrun run hmem, toList_joinAll_eq_iff]
    exact h run hmem

/-- The whole text is answered with its literals, each alone and whole, exactly when no run of
literals has the content of two of them. -/
theorem literals_eq_opened_iff (r : Revision) :
    ((Tagger.ofRevision r).literals r ⟨0, r.length⟩ = (opened r.lines).filterMap Opened.literal? ∧
        ∀ l ∈ (Tagger.ofRevision r).literals r ⟨0, r.length⟩,
          l.interpolated = false → l.holes = []) ↔
      ∀ run ∈ runs (opened r.lines), (run.filterMap Opened.literal?).length ≤ 1 := by
  rw [literals_ofRevision, Revision.lines, ← filterMap_joinedRun_eq_iff, and_iff_left_iff_imp]
  intro h l hl hplain
  rw [h] at hl
  obtain ⟨o, ho, hl⟩ := List.mem_filterMap.1 hl
  exact (sound_opened ho).holes_eq_nil hl hplain

theorem literals_merged_of_unnoticed :
    let r := Revision.first "@\"A\n\"$@\"\n{x}B\""
    (opened r.lines).filterMap Opened.literal? =
        [⟨⟨2, 3⟩, false, []⟩, ⟨⟨9, 13⟩, true, [⟨9, 12⟩]⟩] ∧
      (Tagger.ofRevision r).literals r ⟨0, r.length⟩ = [⟨⟨2, 13⟩, false, [⟨9, 12⟩]⟩] := by
  decide +kernel

end SqlHighlight.Literal
