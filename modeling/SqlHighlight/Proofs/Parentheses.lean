import Mathlib.Combinatorics.Enumerative.DyckWord
import SqlHighlight.Proofs.Frontier
import SqlHighlight.Proofs.Shape

namespace SqlHighlight.Sql

open DyckStep

def Token.paren? (t : Token) : Option DyckStep :=
  match t.kind with
  | .openParen => some U
  | .closeParen => some D
  | _ => none

def parens (ts : List Token) : List DyckStep := ts.filterMap Token.paren?

theorem parens_cons (t : Token) (ts : List Token) :
    parens (t :: ts) = t.paren?.toList ++ parens ts := by
  rw [parens, List.filterMap_cons]
  cases t.paren? <;> rfl

theorem depthAfter_eq (depth : Nat) (t : Token) :
    depthAfter depth t = t.paren?.elim depth fun
      | U => depth + 1
      | D => depth - 1 := by
  obtain ⟨kind, value, range⟩ := t
  cases kind <;> rfl

def IsClosed (after : List DyckStep) : Prop :=
  ∃ (inside : DyckWord) (rest : List DyckStep), after = inside.toList ++ D :: rest

def closings : List DyckStep → Nat
  | [] => 0
  | U :: s => closings s - 1
  | D :: s => closings s + 1

theorem count_take_le_add_closings (s : List DyckStep) (i : Nat) :
    (s.take i).count D ≤ (s.take i).count U + closings s := by
  induction s generalizing i with
  | nil => simp
  | cons x s ih =>
    cases i with
    | zero => simp
    | succ i =>
      have := ih i
      cases x <;> simp [closings] <;> omega

theorem exists_append_of_lt_closings {n : Nat} {s : List DyckStep} (h : n < closings s) :
    ∃ inside rest, s = inside ++ D :: rest ∧ inside.count U + n = inside.count D ∧
      ∀ i, (inside.take i).count D ≤ (inside.take i).count U + n := by
  induction s generalizing n with
  | nil => cases h
  | cons x s ih =>
    cases x with
    | U =>
      rw [closings] at h
      obtain ⟨inside, rest, rfl, hcount, hle⟩ := ih (n := n + 1) (by omega)
      refine ⟨U :: inside, rest, rfl, by simp; omega, fun i => ?_⟩
      cases i with
      | zero => simp
      | succ i =>
        have := hle i
        simp
        omega
    | D =>
      cases n with
      | zero => exact ⟨[], s, rfl, rfl, by simp⟩
      | succ n =>
        rw [closings] at h
        obtain ⟨inside, rest, rfl, hcount, hle⟩ := ih (n := n) (by omega)
        refine ⟨D :: inside, rest, rfl, by simp; omega, fun i => ?_⟩
        cases i with
        | zero => simp
        | succ i =>
          have := hle i
          simp
          omega

theorem isClosed_iff {s : List DyckStep} : IsClosed s ↔ 0 < closings s := by
  constructor
  · rintro ⟨inside, rest, rfl⟩
    have hle := count_take_le_add_closings (inside.toList ++ D :: rest) (inside.toList.length + 1)
    rw [List.take_length_add_append, List.count_append, List.count_append,
      inside.count_U_eq_count_D] at hle
    simp at hle
    omega
  · intro h
    obtain ⟨inside, rest, rfl, hcount, hle⟩ := exists_append_of_lt_closings h
    exact ⟨⟨inside, hcount, hle⟩, rest, rfl⟩

instance (s : List DyckStep) : Decidable (IsClosed s) := decidable_of_iff _ isClosed_iff.symm

theorem exists_dyckWord_iff {s : List DyckStep} :
    (∃ w : DyckWord, w.toList = s) ↔ closings s = 0 ∧ s.count U = s.count D := by
  constructor
  · rintro ⟨w, rfl⟩
    refine ⟨Nat.eq_zero_of_not_pos fun hpos => ?_, w.count_U_eq_count_D⟩
    obtain ⟨inside, rest, heq⟩ := isClosed_iff.2 hpos
    have hle := w.count_D_le_count_U (inside.toList.length + 1)
    rw [heq, List.take_length_add_append, List.count_append, List.count_append,
      inside.count_U_eq_count_D] at hle
    simp at hle
  · rintro ⟨hzero, hcount⟩
    exact ⟨⟨s, hcount, fun i => by simpa [hzero] using count_take_le_add_closings s i⟩, rfl⟩

/-- What stands for a token in a tree: a leaf, or where a group starts or ends. -/
inductive Mark
  | leaf
  | opening (flawed : Bool)
  | closing
  deriving DecidableEq, Repr

mutual

def Node.marks : Node → List Mark
  | .element (.group _) _ flawed children =>
    .opening flawed :: marksOfAll children ++ if flawed then [] else [.closing]
  | .element (.block _) _ _ children => marksOfAll children
  | .element (.leaf _) _ _ _ => [.leaf]
  | .text _ => []
  | .comment _ => []

def marksOfAll : List Node → List Mark
  | [] => []
  | n :: ns => n.marks ++ marksOfAll ns

end

/-- The mark of a token at a depth, by the parentheses after it. At depth zero a closing one closes
nothing. -/
def Token.mark (depth : Nat) (after : List DyckStep) (t : Token) : Mark :=
  match t.kind with
  | .openParen => .opening (¬ IsClosed after)
  | .closeParen => if depth = 0 then .leaf else .closing
  | _ => .leaf

def marksFrom (depth : Nat) : List Token → List Mark
  | [] => []
  | t :: ts => t.mark depth (parens ts) :: marksFrom (depthAfter depth t) ts

theorem isFlat_marksOfAll : IsFlat marksOfAll where
  append ns ms := by
    induction ns with
    | nil => rfl
    | cons n ns ih => simp [marksOfAll, ih]
  block b text flawed ns := by simp [marksOfAll, Node.marks]
  not_isElement n hn := by
    cases n with
    | element => cases hn
    | text => rfl
    | comment => rfl

section

variable {α : Type} {f : List Node → List α} {b : Builder} {t : Token} {ts : List Token}

theorem IsFlat.addWord (h : IsFlat f) (b : Builder) (value : String) :
    ∃ l, f (b.addWord value).draft.flat = f b.draft.flat ++ f [.leaf l value] := by
  unfold Builder.addWord
  split
  next => exact ⟨.other, by simp [Builder.push, h.append]⟩
  next =>
    split
    next => exact ⟨.keyword, by rw [h.pushClause, Node.block, h.block]⟩
    next =>
      dsimp only
      refine ⟨(WordClass.of value).leaf, ?_⟩
      split <;> simp [h.append, h.closeClause]

theorem IsFlat.place (h : IsFlat f) (b : Builder) (ht : t.paren? = none) :
    (b.place t).outer = b.outer ∧
      ∃ l text, f (b.place t).draft.flat = f b.draft.flat ++ f [.leaf l text] := by
  have hpush (n : Node) : f (b.push n).draft.flat = f b.draft.flat ++ f [n] := by
    simp [Builder.push, h.append]
  obtain ⟨kind, value, range⟩ := t
  cases kind with
  | openParen => cases ht
  | closeParen => cases ht
  | semicolon => exact ⟨rfl, .semicolon, ";", (h.closeStatement _).trans (hpush _)⟩
  | word =>
    unfold Builder.place
    dsimp only
    split
    next =>
      obtain ⟨l, heq⟩ := h.addWord b value
      exact ⟨b.outer_addWord value, l, value, heq⟩
    next => exact ⟨rfl, _, value, hpush _⟩
  | _ => exact ⟨rfl, _, value, hpush _⟩

end

namespace Builder

def marksBefore : Nat → List (Group × Draft) → List Mark
  | _, [] => []
  | n, (_, d) :: outer => marksBefore (n - 1) outer ++ (marksOfAll d.flat ++ [.opening (n = 0)])

def marks (b : Builder) (ts : List Token) : List Mark :=
  marksBefore (closings (parens ts)) b.outer ++
    (marksOfAll b.draft.flat ++ marksFrom b.outer.length ts)

theorem marks_group {d : Draft} (hd : d.IsShaped) (parent : Draft) (g : Group) (flawed : Bool) :
    marksOfAll (parent.push (.group g (groupChildren d.finish) flawed)).flat =
      marksOfAll parent.flat ++
        .opening flawed :: (marksOfAll d.flat ++ if flawed then [] else [.closing]) := by
  rw [Draft.flat_push, isFlat_marksOfAll.append, ← isFlat_marksOfAll.finish d,
    ← isFlat_marksOfAll.groupChildren hd.isStatements_finish.kind?_eq]
  simp [marksOfAll, Node.group, Node.marks]

theorem marks_closeAll {d : Draft} {outer : List (Group × Draft)} (hd : d.IsShaped)
    (houter : ∀ d ∈ outer, d.2.IsShaped ∧ d.2.IsOpen) :
    marksOfAll (closeAll d outer).finish = marksBefore 0 outer ++ marksOfAll d.flat := by
  induction outer generalizing d with
  | nil => exact isFlat_marksOfAll.finish d
  | cons o outer ih =>
    obtain ⟨g, parent⟩ := o
    obtain ⟨⟨hparent, hopen⟩, houter⟩ := List.forall_mem_cons.1 houter
    rw [closeAll, ih (hparent.push_group hopen hd g true).1 houter, marks_group hd, marksBefore]
    simp

section

variable {b : Builder} {t : Token}

theorem marks_step_of_paren?_eq_none (ht : t.paren? = none) (ts : List Token) :
    (b.step t).marks ts = b.marks (t :: ts) := by
  obtain ⟨houter, l, text, hdraft⟩ := isFlat_marksOfAll.place b ht
  have hparens : parens (t :: ts) = parens ts := by simp [parens, ht]
  have hmark : t.mark b.outer.length (parens ts) = .leaf := by
    unfold Token.paren? at ht
    unfold Token.mark
    split <;> simp_all
  have hdepth : depthAfter b.outer.length t = b.outer.length := by rw [← length_outer_place, houter]
  change marksBefore _ (b.place t).outer ++
    (marksOfAll (b.place t).draft.flat ++ marksFrom (b.place t).outer.length ts) = _
  rw [houter, hdraft, marks, hparens, marksFrom, hmark, hdepth]
  simp [marksOfAll, Node.leaf, Node.marks]

theorem marks_step (hb : b.IsShaped) (t : Token) (ts : List Token) :
    (b.step t).marks ts = b.marks (t :: ts) := by
  obtain ⟨kind, value, range⟩ := t
  cases kind with
  | openParen =>
    have hclosed : (closings (parens ts) = 0) = ¬ IsClosed (parens ts) := by
      rw [isClosed_iff, Nat.not_lt, Nat.le_zero]
    change marksBefore _ ((_, b.draft) :: b.outer) ++ ([] ++ marksFrom (b.outer.length + 1) ts) =
      marksBefore (closings (parens ts) - 1) b.outer ++ (marksOfAll b.draft.flat ++
        .opening (¬ IsClosed (parens ts)) :: marksFrom (b.outer.length + 1) ts)
    simp [marksBefore, hclosed]
  | closeParen =>
    obtain ⟨outer, draft, last, significant, unmatched⟩ := b
    cases outer with
    | nil => simp [marks, step, place, push, marksBefore, marksFrom, Token.mark, depthAfter,
        isFlat_marksOfAll.append, marksOfAll, Node.leaf, Node.marks]
    | cons o outer =>
      obtain ⟨g, parent⟩ := o
      change marksBefore (closings (parens ts)) outer ++
          (marksOfAll (parent.push (.group g (groupChildren draft.finish) false)).flat ++
            marksFrom outer.length ts) =
        marksBefore (closings (parens ts) + 1) ((g, parent) :: outer) ++
          (marksOfAll draft.flat ++ .closing :: marksFrom outer.length ts)
      rw [marks_group hb.draft.1, marksBefore]
      simp
  | _ => exact marks_step_of_paren?_eq_none rfl ts

theorem marks_foldl (hb : b.IsShaped) (ts : List Token) :
    marksOfAll (closeAll (ts.foldl step b).draft (ts.foldl step b).outer).finish = b.marks ts := by
  induction ts generalizing b with
  | nil =>
    rw [List.foldl_nil, marks_closeAll hb.draft.1 hb.outer, marks, marksFrom, List.append_nil]
    rfl
  | cons t ts ih => rw [List.foldl_cons, ih (hb.step t), marks_step hb]

theorem unmatched_addWord (b : Builder) (value : String) :
    (b.addWord value).unmatched = b.unmatched := by
  unfold addWord
  split
  · rfl
  · split <;> rfl

theorem unmatched_place (b : Builder) (t : Token) :
    (b.place t).unmatched = (b.unmatched || decide (t.paren? = some D ∧ b.outer.length = 0)) := by
  obtain ⟨kind, value, range⟩ := t
  cases kind with
  | closeParen =>
    obtain ⟨outer, draft, last, significant, unmatched⟩ := b
    cases outer <;> simp [place, closeGroup, Token.paren?]
  | word =>
    unfold place
    dsimp only
    split
    · rw [unmatched_addWord]
      simp [Token.paren?]
    · simp [push, Token.paren?]
  | _ => simp [place, push, openGroup, Token.paren?]

theorem unmatched_foldl (b : Builder) (ts : List Token) :
    (ts.foldl step b).unmatched = (b.unmatched || decide (b.outer.length < closings (parens ts))) := by
  induction ts generalizing b with
  | nil => simp [parens, closings]
  | cons t ts ih =>
    rw [List.foldl_cons, ih]
    change ((b.place t).unmatched || decide ((b.place t).outer.length < _)) = _
    rw [unmatched_place, length_outer_place, depthAfter_eq, parens_cons, Bool.or_assoc,
      ← Bool.decide_or]
    congr 2
    cases t.paren? with
    | none => simp
    | some s => cases s <;> simp [closings, -List.length_eq_zero_iff] <;> omega

theorem length_outer_foldl {ts : List Token} (h : closings (parens ts) ≤ b.outer.length) :
    (ts.foldl step b).outer.length + (parens ts).count D = b.outer.length + (parens ts).count U := by
  induction ts generalizing b with
  | nil => rfl
  | cons t ts ih =>
    have hlength : (b.step t).outer.length = _ := (length_outer_place b t).trans (depthAfter_eq _ t)
    rw [parens_cons] at h
    rw [List.foldl_cons, parens_cons]
    cases ht : t.paren? with
    | none =>
      rw [ht] at h hlength
      have := ih (b := b.step t) (hlength ▸ h)
      simpa [hlength] using this
    | some s =>
      rw [ht] at h hlength
      cases s with
      | U =>
        have := ih (b := b.step t) (by simp [closings] at h hlength; omega)
        simp at hlength ⊢
        omega
      | D =>
        have := ih (b := b.step t) (by simp [closings] at h hlength; omega)
        simp [closings] at h hlength ⊢
        omega

end

end Builder

theorem Node.IsShaped.isGroup {n : Node} (h : n.IsShaped) (hn : n.attribute? "hasError" = some true) :
    ∃ g, n.kind? = some (.group g) := by
  cases h with
  | group g => exact ⟨g, rfl⟩
  | root => cases hn
  | statement => cases hn
  | clause => cases hn
  | setOperator => cases hn
  | leaf => cases hn

theorem errorFound_ofTokens (ts : Tokens) :
    (Document.ofTokens ts).errorFound = false ↔
      ts.unfinished = false ∧ closings (parens ts.list) = 0 ∧
        (parens ts.list).count U = (parens ts.list).count D := by
  obtain ⟨b, hb⟩ : ∃ b, ts.list.foldl Builder.step .empty = b := ⟨_, rfl⟩
  have hunmatched : b.unmatched = decide (0 < closings (parens ts.list)) := by
    rw [← hb, Builder.unmatched_foldl]
    rfl
  have hlength (h : closings (parens ts.list) = 0) :
      b.outer.length + (parens ts.list).count D = (parens ts.list).count U := by
    rw [← hb, Builder.length_outer_foldl (Nat.le_of_eq h)]
    exact Nat.zero_add _
  have herror : (Document.ofTokens ts).errorFound =
      (ts.unfinished || b.unmatched || !b.outer.isEmpty) := by rw [← hb]; rfl
  simp only [herror, hunmatched, Bool.or_eq_false_iff, decide_eq_false_iff_not, Nat.not_lt,
    Nat.le_zero, Bool.not_eq_false', List.isEmpty_iff, and_assoc]
  refine and_congr_right fun _ => and_congr_right fun h => ?_
  rw [← hlength h, ← List.length_eq_zero_iff]
  omega

theorem errorFound_iff_and_marks_ofTokens (ts : Tokens) :
    ((Document.ofTokens ts).errorFound = false ↔
        ts.unfinished = false ∧ ∃ w : DyckWord, w.toList = parens ts.list) ∧
      ∃ root, (Document.ofTokens ts).root = some root ∧ root.marks = marksFrom 0 ts.list ∧
        ∀ n ∈ root.nodes, n.attribute? "hasError" = some true → ∃ g, n.kind? = some (.group g) := by
  refine ⟨?_, _, rfl, ?_, ?_⟩
  · rw [errorFound_ofTokens, exists_dyckWord_iff]
  · exact Builder.marks_foldl Builder.isShaped_empty ts.list
  · intro n hn
    exact ((Builder.isShaped_ofTokens ts.list).throughout_root n hn).isGroup

example : marksFrom 0 (Tokens.ofText ")(a(b)").list =
    [.leaf, .opening true, .leaf, .opening false, .leaf, .closing] := by
  decide +kernel

end SqlHighlight.Sql
