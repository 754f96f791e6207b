import SqlHighlight.Proofs.Assembly
import SqlHighlight.Proofs.Ranges

namespace SqlHighlight

namespace Text

theorem isBoundary_width_append (before after : List Char) :
    IsBoundary (width before) (before ++ after) := by
  rw [IsBoundary, splitAt?_width_append]
  rfl

theorem le_width_of_isBoundary {n : Nat} {cs : List Char} (h : IsBoundary n cs) : n ≤ width cs := by
  obtain ⟨⟨before, after⟩, hsplit⟩ := Option.isSome_iff_exists.1 h
  obtain ⟨rfl, rfl⟩ := append_of_splitAt? hsplit
  simp

end Text

namespace Literal

theorem Segment.inOrder_holes (start : Nat) (ss : List Segment) :
    Range.InOrder start (holes start ss) (start + Text.width (ss.flatMap chars)) := by
  induction ss generalizing start with
  | nil => exact Nat.le_refl start
  | cons s ss ih =>
    have hrest := ih (start + Text.width s.chars)
    rw [Nat.add_assoc, ← Text.width_append, ← List.flatMap_cons] at hrest
    cases s with
    | text cs => exact hrest.of_le_lower (Nat.le_add_right start (Text.width cs))
    | hole cs => exact ⟨Nat.le_refl start, Nat.le_add_right start (Text.width cs), hrest⟩

/-- A literal cut out of a text, with some content, and with its holes in order. -/
structure IsCutFrom (cs : List Char) (l : Literal) : Prop where
  start_lt_stop : l.range.start < l.range.stop
  start_isBoundary : Text.IsBoundary l.range.start cs
  stop_isBoundary : Text.IsBoundary l.range.stop cs
  holes_inOrder : Range.InOrder l.range.start l.holes l.range.stop

/-- Literals cut out of a text one behind the other, from one offset to another. -/
structure Placed (cs : List Char) (lower : Nat) (ls : List Literal) (upper : Nat) : Prop where
  inOrder : Range.InOrder lower (ls.map range) upper
  isCutFrom : ∀ l ∈ ls, l.IsCutFrom cs

section

variable {cs : List Char} {lower upper n : Nat} {l l' : Literal} {ls : List Literal}

theorem placed_nil (cs : List Char) (n : Nat) : Placed cs n [] n :=
  ⟨Nat.le_refl n, by simp⟩

theorem Placed.of_upper_le (hle : upper ≤ n) (h : Placed cs lower ls upper) :
    Placed cs lower ls n :=
  ⟨h.inOrder.of_upper_le hle, h.isCutFrom⟩

theorem Placed.sublist {ls' : List Literal} (hsub : List.Sublist ls' ls)
    (h : Placed cs lower ls upper) : Placed cs lower ls' upper :=
  ⟨h.inOrder.sublist (hsub.map _), fun l hl => h.isCutFrom l (hsub.subset hl)⟩

theorem Placed.concat (h : Placed cs lower ls n) (hl : l.IsCutFrom cs) (hle : n ≤ l.range.start) :
    Placed cs lower (ls ++ [l]) l.range.stop where
  inOrder := by
    rw [List.map_append]
    apply h.inOrder.append
    exact ⟨hle, Nat.le_of_lt hl.start_lt_stop, Nat.le_refl _⟩
  isCutFrom m hm := by
    rcases List.mem_append.1 hm with hm | hm
    · exact h.isCutFrom m hm
    · rwa [List.mem_singleton.1 hm]

theorem Placed.absorb (h : Placed cs lower (ls ++ [l]) n) (hl : l'.IsCutFrom cs)
    (hle : n ≤ l'.range.start) : Placed cs lower (ls ++ [l.absorb l']) l'.range.stop := by
  have hin := h.inOrder
  rw [List.map_append] at hin
  obtain ⟨m, hbefore, hstart, hstop, hn⟩ := Range.InOrder.append_iff.1 hin
  change l.range.stop ≤ n at hn
  have hl' := h.isCutFrom l (by simp)
  have hcut : (l.absorb l').IsCutFrom cs := by
    refine ⟨?_, hl'.start_isBoundary, hl.stop_isBoundary, ?_⟩
    · change l.range.start < l'.range.stop
      exact Nat.lt_of_le_of_lt (Nat.le_trans hstop (Nat.le_trans hn hle)) hl.start_lt_stop
    · exact hl'.holes_inOrder.append (hl.holes_inOrder.of_le_lower (Nat.le_trans hn hle))
  have hls : Placed cs lower ls m :=
    ⟨hbefore, fun k hk => h.isCutFrom k (List.mem_append_left _ hk)⟩
  exact hls.concat hcut hstart

end

namespace Part

def chars (p : Part) : List Char := p.piece.segments.flatMap Segment.chars

structure LiesIn (cs : List Char) (p : Part) : Prop where
  exists_append : ∃ before after, cs = before ++ (p.chars ++ after) ∧ Text.width before = p.start
  isRead : p.piece.IsRead
  feed_not_mem : '\n' ∉ p.chars

theorem LiesIn.isCutFrom {cs : List Char} {p : Part} {l : Literal} (h : p.LiesIn cs)
    (hl : p.literal? = some l) : l.IsCutFrom cs := by
  obtain ⟨before, after, rfl, hstart⟩ := h.exists_append
  rw [literal?] at hl
  split at hl
  next hcontent =>
    cases hl
    have hwidth : p.piece.width ≠ 0 := by simpa [hasContent] using hcontent
    constructor
    · change p.start < p.start + p.piece.width
      omega
    · rw [← hstart]
      exact Text.isBoundary_width_append _ _
    · change Text.IsBoundary (p.start + Text.width p.chars) _
      rw [← hstart, ← Text.width_append, ← List.append_assoc]
      exact Text.isBoundary_width_append _ _
    · exact Segment.inOrder_holes _ _
  next => cases hl

theorem range_of_literal? {p : Part} {l : Literal} (h : p.literal? = some l) :
    l.range = ⟨p.start, p.stop⟩ ∧ l.holes = p.holes := by
  rw [literal?] at h
  split at h
  · cases h
    exact ⟨rfl, rfl⟩
  · cases h

theorem exists_append_of_mem_place {start : Nat} {ss : List Stretch} {p : Part}
    (h : p ∈ place start ss) :
    ∃ before after, ss.flatMap Stretch.chars = before ++ (p.chars ++ after) ∧
      start + Text.width before = p.start := by
  induction ss generalizing start with
  | nil => cases h
  | cons s ss ih =>
    have hrest (hp : p ∈ place (start + Text.width s.chars) ss) :
        ∃ before after, s.chars ++ ss.flatMap Stretch.chars = before ++ (p.chars ++ after) ∧
          start + Text.width before = p.start := by
      obtain ⟨before, after, heq, hstart⟩ := ih hp
      refine ⟨s.chars ++ before, after, by rw [heq, List.append_assoc], ?_⟩
      rw [Text.width_append, ← Nat.add_assoc, hstart]
    cases s with
    | code cs => exact hrest h
    | literal q =>
      rcases List.mem_cons.1 h with rfl | h
      · exact ⟨[], _, rfl, rfl⟩
      · exact hrest h

theorem le_start_of_mem_place {start : Nat} {ss : List Stretch} {p : Part}
    (h : p ∈ place start ss) : start ≤ p.start := by
  obtain ⟨before, -, -, hstart⟩ := exists_append_of_mem_place h
  rw [← hstart]
  exact Nat.le_add_right _ _

theorem pairwise_place (start : Nat) {ss : List Stretch} (h : Cut.Spaced ss) :
    (place start ss).Pairwise (·.stop < ·.start) := by
  induction ss generalizing start with
  | nil => exact .nil
  | cons s ss ih =>
    cases s with
    | code cs => exact ih _ h
    | literal p =>
      cases ss with
      | nil => exact .cons (by simp [place]) .nil
      | cons s ss =>
        obtain ⟨⟨c, cs, rfl⟩, hrest⟩ := h
        refine .cons ?_ (ih _ hrest)
        intro q hq
        have hle : start + p.width + Text.width (c :: cs) ≤ q.start := le_start_of_mem_place hq
        have hpos : 0 < Text.width (c :: cs) := Text.width_pos
        change start + p.width < q.start
        omega

end Part

section

variable {cs : List Char} {mode : Mode} {l : Line} {p : Part}

theorem le_start_of_mem_partsOf (hp : p ∈ partsOf mode l) : l.start ≤ p.start :=
  Part.le_start_of_mem_place hp

theorem isRead_of_mem_partsOf (hp : p ∈ partsOf mode l) : p.piece.IsRead := by
  apply Cut.isRead_of_mem_pieces
  rw [← map_piece_partsOf mode l]
  exact List.mem_map_of_mem hp

theorem liesIn_of_mem_partsOf (hl : l ∈ Text.lines cs) (hp : p ∈ partsOf mode l) : p.LiesIn cs := by
  obtain ⟨before, after, rfl, hbefore⟩ := Text.exists_append_of_mem_lines hl
  obtain ⟨left, right, heq, hstart⟩ := Part.exists_append_of_mem_place hp
  rw [← Cut.chars, Cut.chars_ofLine] at heq
  have hfeed := Text.feed_not_mem_text_of_mem_lines hl
  rw [heq] at hfeed ⊢
  refine ⟨⟨before ++ left, right ++ after, by simp, ?_⟩, isRead_of_mem_partsOf hp, ?_⟩
  · rw [Text.width_append, hbefore, hstart]
  · intro hmem
    exact hfeed (List.mem_append_right _ (List.mem_append_left _ hmem))

theorem pairwise_partsOf (mode : Mode) (l : Line) :
    (partsOf mode l).Pairwise (·.stop < ·.start) :=
  Part.pairwise_place _ (Cut.spaced_ofLine mode l.text)

end

def partsFrom : Mode → List Line → List Part
  | _, [] => []
  | mode, l :: ls => partsOf mode l ++ partsFrom (nextMode mode l.text) ls

section

variable {cs : List Char} {mode : Mode} {ls : List Line} {p : Part}

theorem exists_line_of_mem_partsFrom (hp : p ∈ partsFrom mode ls) :
    ∃ l ∈ ls, ∃ mode, p ∈ partsOf mode l := by
  induction ls generalizing mode with
  | nil => cases hp
  | cons l ls ih =>
    rcases List.mem_append.1 hp with hp | hp
    · exact ⟨l, List.mem_cons_self, mode, hp⟩
    · obtain ⟨l', hl', h⟩ := ih hp
      exact ⟨l', List.mem_cons_of_mem l hl', h⟩

theorem pairwise_partsFrom (mode : Mode) (hsorted : ls.Pairwise (·.stop < ·.start)) :
    (partsFrom mode ls).Pairwise (·.stop < ·.start) := by
  induction ls generalizing mode with
  | nil => exact .nil
  | cons l ls ih =>
    rw [partsFrom, List.pairwise_append]
    refine ⟨pairwise_partsOf mode l, ih _ hsorted.of_cons, ?_⟩
    intro p hp q hq
    obtain ⟨l', hl', mode', hq⟩ := exists_line_of_mem_partsFrom hq
    calc p.stop ≤ l.stop := stop_le_of_mem_partsOf hp
      _ < l'.start := List.rel_of_pairwise_cons hsorted hl'
      _ ≤ q.start := le_start_of_mem_partsOf hq

theorem liesIn_of_mem_partsFrom (hls : List.Sublist ls (Text.lines cs))
    (hp : p ∈ partsFrom mode ls) : p.LiesIn cs := by
  obtain ⟨l, hl, mode', hp⟩ := exists_line_of_mem_partsFrom hp
  exact liesIn_of_mem_partsOf (hls.subset hl) hp

end

/-- Literals made of parts, in order. A part without content adds nothing; any other is a literal of
its own, or goes on with the last one. -/
inductive MadeFrom : List Part → List Literal → Prop
  | nil : MadeFrom [] []
  | skip {ps : List Part} {ls : List Literal} {p : Part} (h : MadeFrom ps ls)
      (hp : p.literal? = none) : MadeFrom (ps ++ [p]) ls
  | alone {ps : List Part} {ls : List Literal} {p : Part} {l : Literal} (h : MadeFrom ps ls)
      (hp : p.literal? = some l) : MadeFrom (ps ++ [p]) (ls ++ [l])
  | goOn {ps : List Part} {ls : List Literal} {p : Part} {l l' : Literal}
      (h : MadeFrom ps (ls ++ [l])) (hp : p.literal? = some l') :
      MadeFrom (ps ++ [p]) (ls ++ [l.absorb l'])

namespace MadeFrom

variable {cs : List Char} {lower upper : Nat} {ps : List Part} {ls : List Literal} {l : Literal}

theorem placed (h : MadeFrom ps ls) (hlies : ∀ p ∈ ps, p.LiesIn cs)
    (hsorted : ps.Pairwise (·.stop < ·.start)) (hlower : ∀ p ∈ ps, lower ≤ p.start)
    (hupper : ∀ p ∈ ps, p.stop ≤ upper) (hle : lower ≤ upper) : Placed cs lower ls upper := by
  induction h generalizing upper with
  | nil => exact (placed_nil cs lower).of_upper_le hle
  | @skip ps ls p _ _ ih =>
    rw [List.forall_mem_append] at hlies hlower hupper
    exact ih hlies.1 (List.pairwise_append.1 hsorted).1 hlower.1 hupper.1 hle
  | @alone ps ls p l _ hp ih =>
    rw [List.forall_mem_append, List.forall_mem_singleton] at hlies hlower hupper
    obtain ⟨hsorted, -, hlt⟩ := List.pairwise_append.1 hsorted
    obtain ⟨hrange, -⟩ := p.range_of_literal? hp
    have hbefore := ih hlies.1 hsorted hlower.1
      (fun q hq => Nat.le_of_lt (hlt q hq p List.mem_cons_self)) hlower.2
    have hnext := hbefore.concat (hlies.2.isCutFrom hp) (by simp [hrange])
    rw [hrange] at hnext
    exact hnext.of_upper_le hupper.2
  | @goOn ps ls p l l' _ hp ih =>
    rw [List.forall_mem_append, List.forall_mem_singleton] at hlies hlower hupper
    obtain ⟨hsorted, -, hlt⟩ := List.pairwise_append.1 hsorted
    obtain ⟨hrange, -⟩ := p.range_of_literal? hp
    have hbefore := ih hlies.1 hsorted hlower.1
      (fun q hq => Nat.le_of_lt (hlt q hq p List.mem_cons_self)) hlower.2
    have hnext := hbefore.absorb (hlies.2.isCutFrom hp) (by simp [hrange])
    rw [hrange] at hnext
    exact hnext.of_upper_le hupper.2

theorem exists_range_eq (h : MadeFrom ps ls) (hl : l ∈ ls) :
    ∃ p ∈ ps, ∃ q ∈ ps, l.range = ⟨p.start, q.stop⟩ := by
  induction h generalizing l with
  | nil => cases hl
  | @skip ps ls p _ _ ih =>
    obtain ⟨q, hq, q', hq', hrange⟩ := ih hl
    exact ⟨q, List.mem_append_left _ hq, q', List.mem_append_left _ hq', hrange⟩
  | @alone ps ls p m _ hp ih =>
    rcases List.mem_append.1 hl with hl | hl
    · obtain ⟨q, hq, q', hq', hrange⟩ := ih hl
      exact ⟨q, List.mem_append_left _ hq, q', List.mem_append_left _ hq', hrange⟩
    · obtain rfl := List.mem_singleton.1 hl
      exact ⟨p, by simp, p, by simp, (p.range_of_literal? hp).1⟩
  | @goOn ps ls p m m' _ hp ih =>
    rcases List.mem_append.1 hl with hl | hl
    · obtain ⟨q, hq, q', hq', hrange⟩ := ih (List.mem_append_left _ hl)
      exact ⟨q, List.mem_append_left _ hq, q', List.mem_append_left _ hq', hrange⟩
    · obtain rfl := List.mem_singleton.1 hl
      obtain ⟨q, hq, q', -, hrange⟩ := ih (List.mem_append_right _ (List.mem_singleton_self m))
      refine ⟨q, List.mem_append_left _ hq, p, by simp, ?_⟩
      rw [absorb, hrange, (p.range_of_literal? hp).1]

theorem pairwise (h : MadeFrom ps ls) (hsorted : ps.Pairwise (·.stop < ·.start)) :
    ls.Pairwise (·.range.stop < ·.range.start) := by
  induction h with
  | nil => exact .nil
  | skip _ _ ih => exact ih (List.pairwise_append.1 hsorted).1
  | @alone ps ls p l hmade hp ih =>
    obtain ⟨hsorted, -, hlt⟩ := List.pairwise_append.1 hsorted
    refine List.pairwise_append.2 ⟨ih hsorted, List.pairwise_singleton _ _, ?_⟩
    intro m hm l' hl'
    obtain rfl := List.mem_singleton.1 hl'
    obtain ⟨_, _, q, hq, hrange⟩ := hmade.exists_range_eq hm
    rw [hrange, (p.range_of_literal? hp).1]
    exact hlt q hq p List.mem_cons_self
  | @goOn ps ls p l l' _ _ ih =>
    obtain ⟨hls, -, hlt⟩ := List.pairwise_append.1 (ih (List.pairwise_append.1 hsorted).1)
    refine List.pairwise_append.2 ⟨hls, List.pairwise_singleton _ _, ?_⟩
    intro m hm k hk
    obtain rfl := List.mem_singleton.1 hk
    exact hlt m hm l List.mem_cons_self

theorem exists_of_mem_holes (h : MadeFrom ps ls) (hl : l ∈ ls) {hole : Range}
    (hhole : hole ∈ l.holes) : ∃ p ∈ ps, hole ∈ p.holes := by
  induction h generalizing l with
  | nil => cases hl
  | @skip ps ls p _ _ ih =>
    obtain ⟨q, hq, hmem⟩ := ih hl hhole
    exact ⟨q, List.mem_append_left _ hq, hmem⟩
  | @alone ps ls p m _ hp ih =>
    rcases List.mem_append.1 hl with hl | hl
    · obtain ⟨q, hq, hmem⟩ := ih hl hhole
      exact ⟨q, List.mem_append_left _ hq, hmem⟩
    · obtain rfl := List.mem_singleton.1 hl
      rw [(p.range_of_literal? hp).2] at hhole
      exact ⟨p, by simp, hhole⟩
  | @goOn ps ls p m m' _ hp ih =>
    have hbefore {k : Literal} (hk : k ∈ ls ++ [m]) (hhole : hole ∈ k.holes) :
        ∃ q ∈ ps ++ [p], hole ∈ q.holes := by
      obtain ⟨q, hq, hmem⟩ := ih hk hhole
      exact ⟨q, List.mem_append_left _ hq, hmem⟩
    rcases List.mem_append.1 hl with hl | hl
    · exact hbefore (List.mem_append_left _ hl) hhole
    · obtain rfl := List.mem_singleton.1 hl
      rcases List.mem_append.1 hhole with hhole | hhole
      · exact hbefore (List.mem_append_right _ (List.mem_singleton_self m)) hhole
      · rw [(p.range_of_literal? hp).2] at hhole
        exact ⟨p, by simp, hhole⟩

end MadeFrom

namespace Assembly

section

variable {cs : List Char} {lower upper : Nat} {mode : Mode} {a : Assembly} {ps qs : List Part}

theorem flush_addPart {p : Part} (h : p.hasContent = true) :
    (a.addPart p).flush =
      ((if p.piece.continued then a else a.flush).extend p.literal?).flush := by
  rw [addPart, if_pos h]
  cases p.piece.openAtEnd <;> simp

theorem madeFrom_addPart (h : MadeFrom ps a.flush.done) (p : Part) :
    MadeFrom (ps ++ [p]) (a.addPart p).flush.done := by
  cases hp : p.hasContent with
  | false =>
    rw [addPart_of_not_hasContent hp]
    exact h.skip (by simp [Part.literal?, hp])
  | true =>
    obtain ⟨l, hl⟩ : ∃ l, p.literal? = some l := by simp [Part.literal?, hp]
    rw [flush_addPart hp, hl]
    split
    · obtain ⟨done, pending⟩ := a
      cases pending with
      | none =>
        have hdone : MadeFrom ps done := by simpa [flush] using h
        exact hdone.alone hl
      | some q => exact .goOn h hl
    · exact h.alone hl

theorem madeFrom_foldl_addPart (h : MadeFrom ps a.flush.done) :
    MadeFrom (ps ++ qs) (qs.foldl addPart a).flush.done := by
  induction qs generalizing ps a with
  | nil => rwa [List.append_nil]
  | cons q qs ih =>
    have hnext := ih (madeFrom_addPart h q)
    rwa [List.append_assoc] at hnext

@[simp] theorem flush_settleIn : (a.settleIn mode).flush = a.flush := by
  rw [settleIn]
  split <;> simp

def addLines (mode : Mode) (a : Assembly) : List Line → Assembly
  | [] => a
  | l :: ls => addLines (nextMode mode l.text) (a.addLine l.start (scanLine mode l.text)) ls

theorem madeFrom_addLines {ls : List Line} (h : MadeFrom ps a.flush.done) :
    MadeFrom (ps ++ partsFrom mode ls) (addLines mode a ls).flush.done := by
  induction ls generalizing mode a ps with
  | nil => rwa [partsFrom, List.append_nil]
  | cons l ls ih =>
    have hline : MadeFrom (ps ++ partsOf mode l)
        (a.addLine l.start (scanLine mode l.text)).flush.done := by
      rw [addLine_scanLine, flush_settleIn]
      exact madeFrom_foldl_addPart h
    rw [partsFrom, ← List.append_assoc]
    exact ih hline

theorem madeFrom_addLines_empty (mode : Mode) (ls : List Line) :
    MadeFrom (partsFrom mode ls) (empty.addLines mode ls).flush.done :=
  madeFrom_addLines (a := empty) .nil

theorem placed_addLines_empty {ls : List Line} (hls : List.Sublist ls (Text.lines cs))
    (hlower : ∀ l ∈ ls, lower ≤ l.start) (hupper : ∀ l ∈ ls, l.stop ≤ upper) (hle : lower ≤ upper)
    (mode : Mode) : Placed cs lower (empty.addLines mode ls).flush.done upper := by
  apply (madeFrom_addLines_empty mode ls).placed _ _ _ _ hle
  · exact fun p hp => liesIn_of_mem_partsFrom hls hp
  · exact pairwise_partsFrom mode ((Text.pairwise_lines cs).sublist hls)
  · intro p hp
    obtain ⟨l, hl, mode', hp⟩ := exists_line_of_mem_partsFrom hp
    exact Nat.le_trans (hlower l hl) (le_start_of_mem_partsOf hp)
  · intro p hp
    obtain ⟨l, hl, mode', hp⟩ := exists_line_of_mem_partsFrom hp
    exact Nat.le_trans (stop_le_of_mem_partsOf hp) (hupper l hl)

theorem exists_start_of_mem_addLines {ls : List Line} {m : Literal}
    (h : m ∈ (empty.addLines mode ls).flush.done) :
    ∃ l ∈ ls, l.start ≤ m.range.start ∧ m.range.start ≤ l.stop := by
  obtain ⟨p, hp, _, _, hrange⟩ := (madeFrom_addLines_empty mode ls).exists_range_eq h
  obtain ⟨l, hl, mode', hp⟩ := exists_line_of_mem_partsFrom hp
  rw [hrange]
  refine ⟨l, hl, le_start_of_mem_partsOf hp, ?_⟩
  exact Nat.le_trans (Nat.le_add_right _ _) (stop_le_of_mem_partsOf hp)

theorem exists_stop_of_mem_addLines {ls : List Line} {m : Literal}
    (h : m ∈ (empty.addLines mode ls).flush.done) : ∃ l ∈ ls, m.range.stop ≤ l.stop := by
  obtain ⟨_, _, q, hq, hrange⟩ := (madeFrom_addLines_empty mode ls).exists_range_eq h
  obtain ⟨l, hl, mode', hq⟩ := exists_line_of_mem_partsFrom hq
  rw [hrange]
  exact ⟨l, hl, stop_le_of_mem_partsOf hq⟩

end

end Assembly

def modeAfter (mode : Mode) (ls : List Line) : Mode := ls.foldl (fun m l => nextMode m l.text) mode

theorem modeAfter_append (mode : Mode) (xs ys : List Line) :
    modeAfter mode (xs ++ ys) = modeAfter (modeAfter mode xs) ys :=
  List.foldl_append

theorem exists_gather_eq (query : Range) (mode : Mode) (a : Assembly) {ls : List Line}
    (hsorted : ls.Pairwise (·.stop < ·.start)) :
    ∃ now later, ls = now ++ later ∧ gather query mode a ls = a.addLines mode now ∧
      (later ≠ [] → (modeAfter mode now).isVerbatim = false) ∧
      ∀ l ∈ later, isBehind query l.start = true := by
  induction ls generalizing mode a with
  | nil => exact ⟨[], [], rfl, rfl, by simp, by simp⟩
  | cons l ls ih =>
    rw [gather]
    split
    next hstop =>
      simp only [Bool.and_eq_true, Bool.not_eq_true'] at hstop
      refine ⟨[], l :: ls, rfl, rfl, fun _ => hstop.2, ?_⟩
      intro l' hl'
      rcases List.mem_cons.1 hl' with rfl | hl'
      · exact hstop.1
      · have hlt := List.rel_of_pairwise_cons hsorted hl'
        apply Assembly.isBehind_of_le hstop.1
        exact Nat.le_trans l.start_le_stop (Nat.le_of_lt hlt)
    next =>
      obtain ⟨now, later, rfl, hgather, hopen, hbehind⟩ := ih (nextMode mode l.text)
        (a.addLine l.start (scanLine mode l.text)) hsorted.of_cons
      exact ⟨l :: now, later, rfl, hgather, hopen, hbehind⟩

theorem LineModes.exists_literals_eq (modes : LineModes) (cs : List Char) (query : Range) :
    ∃ mode ls, List.Sublist ls (Text.lines cs) ∧ modes.literals (Text.lines cs) query =
      ((Assembly.empty.addLines mode ls).flush.done).filter (meets query) := by
  rw [literals]
  generalize modes.openingLine (Text.lineAt query.start (Text.lines cs)) = first
  have hls : List.Sublist (((Text.lines cs).take modes.length).drop first) (Text.lines cs) :=
    (List.drop_sublist _ _).trans (List.take_sublist _ _)
  obtain ⟨now, later, heq, hgather, -⟩ := exists_gather_eq query (modes.before first) .empty
    ((Text.pairwise_lines cs).sublist hls)
  rw [heq] at hls
  exact ⟨_, now, (List.sublist_append_left now later).trans hls, by rw [← hgather]⟩

theorem LineModes.placed_literals (modes : LineModes) (cs : List Char) (query : Range) :
    Placed cs 0 (modes.literals (Text.lines cs) query) (Text.width cs) := by
  obtain ⟨mode, ls, hls, heq⟩ := modes.exists_literals_eq cs query
  rw [heq]
  apply Placed.sublist List.filter_sublist
  exact Assembly.placed_addLines_empty hls (fun _ _ => Nat.zero_le _)
    (fun l hl => Text.stop_le_of_mem_lines (hls.subset hl)) (Nat.zero_le _) mode

end Literal

end SqlHighlight
