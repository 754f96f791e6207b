import SqlHighlight.Proofs.Layout
import SqlHighlight.Sql.Concrete

namespace SqlHighlight

namespace Text

theorem isBoundary_width (cs : List Char) : IsBoundary (width cs) cs := by
  have h := splitAt?_width_append cs []
  rw [List.append_nil] at h
  simp [IsBoundary, h]

theorem exists_slice_of_isBoundary {start stop : Nat} {cs before after : List Char}
    (hstart : splitAt? start cs = some (before, after)) (hstop : IsBoundary stop cs)
    (hle : start ≤ stop) :
    ∃ inside rest, slice start stop cs = .ok inside ∧
      splitAt? stop cs = some (before ++ inside, rest) := by
  obtain ⟨⟨upto, rest⟩, hsplit⟩ := Option.isSome_iff_exists.1 hstop
  obtain ⟨hcs, rfl⟩ := append_of_splitAt? hstart
  obtain ⟨hcs', rfl⟩ := append_of_splitAt? hsplit
  obtain ⟨inside, rfl⟩ : ∃ inside, upto = before ++ inside := by
    rcases List.append_eq_append_iff.1 (hcs.trans hcs'.symm) with ⟨ds, h, -⟩ | ⟨ds, h, -⟩
    · exact ⟨ds, h⟩
    · have hds : ds = [] := by
        rw [h, width_append] at hle
        exact width_eq_zero.1 (by omega)
      exact ⟨[], by simp [h, hds]⟩
  refine ⟨inside, rest, ?_, hsplit⟩
  rw [← hcs', width_append, List.append_assoc]
  exact slice_append before inside rest

end Text

namespace Sql

section

variable {mark : Char} {cs body : List Char}

theorem doubleMark_of_undoubleMark? (h : undoubleMark? mark cs = some body) :
    doubleMark mark body = cs := by
  fun_induction undoubleMark? mark cs generalizing body with
  | case1 =>
    cases h
    rfl
  | case2 => cases h
  | case3 c hc =>
    cases h
    simp [doubleMark, hc]
  | case4 cs ih =>
    obtain ⟨body, hbody, rfl⟩ := Option.map_eq_some_iff.1 h
    simp [doubleMark, ih hbody]
  | case5 => cases h
  | case6 c d cs hc ih =>
    obtain ⟨body, hbody, rfl⟩ := Option.map_eq_some_iff.1 h
    simp [doubleMark, hc, ih hbody]

theorem doubleMark_of_quotedBody? (h : quotedBody? mark cs = some body) :
    doubleMark mark body ++ [mark] = cs := by
  rw [quotedBody?] at h
  split at h
  next hlast =>
    rw [doubleMark_of_undoubleMark? h]
    obtain ⟨init, rfl⟩ := List.getLast?_eq_some_iff.1 hlast
    simp
  next => cases h

end

def wrapped (leaf : Leaf × List Char) : List Char := leaf.1.wrap leaf.2

theorem wrapped_literalLeaf (cs : List Char) : wrapped (literalLeaf cs) = cs := by
  unfold literalLeaf
  split
  · split
    next h => simp [wrapped, Leaf.wrap, doubleMark_of_quotedBody? h]
    next => rfl
  · split
    next h => simp [wrapped, Leaf.wrap, doubleMark_of_quotedBody? h]
    next => rfl
  · split <;> rfl
  · split <;> rfl
  · rfl

theorem wrapped_identifierLeaf (cs : List Char) : wrapped (identifierLeaf cs) = cs := by
  unfold identifierLeaf
  split
  · split
    next h => simp [wrapped, Leaf.wrap, doubleMark_of_quotedBody? h]
    next => rfl
  · split
    next h => simp [wrapped, Leaf.wrap, doubleMark_of_quotedBody? h]
    next => rfl
  · rfl

theorem wrapped_commentLeaf (cs : List Char) : wrapped (commentLeaf cs) = cs := by
  unfold commentLeaf
  split <;> rfl

theorem wrapped_marginLeaf (cs : List Char) : wrapped (marginLeaf cs) = cs := by
  unfold marginLeaf
  split
  · split
    next body h =>
      have hcs := congrArg List.reverse h
      simp only [List.reverse_reverse, List.reverse_cons, List.append_assoc] at hcs
      simp [wrapped, Leaf.wrap, hcs]
    next => rfl
  · rfl

theorem wrapped_keywordLeaf (cs : List Char) : wrapped (keywordLeaf cs) = cs := by
  unfold keywordLeaf
  cases WordClass.of (String.ofList cs) <;> rfl

theorem wrapped_punctuationLeaf (cs : List Char) : wrapped (punctuationLeaf cs) = cs := by
  simp only [punctuationLeaf, wrapped]
  split
  · rfl
  · rfl
  · rfl
  · rfl
  · rfl
  · rfl
  · rfl
  · split <;> rfl

theorem wrapped_leaf (kind : String) (isCallee : Bool) (text : List Char) :
    wrapped (Concrete.leaf kind isCallee text) = text := by
  unfold Concrete.leaf
  repeat' split
  · exact wrapped_keywordLeaf text
  · exact wrapped_commentLeaf text
  · exact wrapped_marginLeaf text
  · exact wrapped_literalLeaf text
  · rfl
  · rfl
  · exact wrapped_identifierLeaf text
  · exact wrapped_punctuationLeaf text

namespace Lowering

def textBefore : List (List Node) → List Char
  | [] => []
  | parent :: outer => textBefore outer ++ textOfAll parent ++ ['(']

def text (s : Lowering) : List Char := textBefore s.outer ++ textOfAll s.nodes

theorem textOfAll_finish (s : Lowering) : textOfAll s.finish = s.text := by
  obtain ⟨position, nodes, outer⟩ := s
  simp only [finish, text]
  induction outer generalizing nodes with
  | nil => rfl
  | cons parent outer ih =>
    have hopen : textOfAll (.leaf .other "(" :: nodes) = '(' :: textOfAll nodes :=
      textOfAll_leaf nodes .other ['(']
    rw [List.foldl_cons, ih, textOfAll_append, hopen]
    simp [textBefore]

/-- The state has laid out the source up to its position, from where the text before it ends. -/
def Covers (source before : List Char) (s : Lowering) : Prop :=
  ∃ after, Text.splitAt? s.position source = some (before ++ s.text, after)

theorem text_push_leaf (s : Lowering) (l : Leaf) (body : List Char) :
    (s.push (.leaf l (String.ofList body))).text = s.text ++ l.wrap body := by
  simp [text, push]

theorem text_addAll (s : Lowering) (kind : String) (nodes : List Node) (position : Nat) :
    (s.addAll kind nodes position).text = s.text ++ textOfAll nodes := by
  unfold addAll text
  split <;> simp

theorem text_addAtom (source : List Char) (g : Group) (callee : Option Range) (s : Lowering)
    (n : Concrete) :
    (s.addAtom source g callee n).text = s.text ++ s.textOf source n.range := by
  have hwrap := wrapped_leaf n.kind (Concrete.isWithin callee n.range)
  simp only [wrapped] at hwrap
  unfold addAtom
  generalize s.textOf source n.range = cs
  obtain ⟨position, nodes, outer⟩ := s
  dsimp only
  split
  · simp [text, textBefore]
  · simp [text, textBefore]
  · simp [text, push, hwrap]

theorem textOf_of_lt {source : List Char} {s : Lowering} {range : Range}
    (h : range.stop < s.position) : s.textOf source range = [] := by
  have hle : ¬ max range.start s.position ≤ range.stop := by omega
  simp [textOf, Text.slice, hle]

section

variable {source before : List Char} {s : Lowering}

theorem Covers.exists_slice {stop : Nat} (h : s.Covers source before)
    (hstop : Text.IsBoundary stop source) (hle : s.position ≤ stop) :
    ∃ inside after, Text.slice s.position stop source = .ok inside ∧
      Text.splitAt? stop source = some (before ++ (s.text ++ inside), after) := by
  obtain ⟨after, hafter⟩ := h
  obtain ⟨inside, rest, hslice, hsplit⟩ := Text.exists_slice_of_isBoundary hafter hstop hle
  exact ⟨inside, rest, hslice, by rw [hsplit, List.append_assoc]⟩

theorem Covers.fill {stop : Nat} (h : s.Covers source before)
    (hstop : Text.IsBoundary stop source) :
    ∃ s', s.fill source stop = .ok s' ∧ s'.Covers source before ∧ stop ≤ s'.position ∧
      s'.outer = s.outer := by
  unfold Lowering.fill
  split
  next hle => exact ⟨s, rfl, h, hle, rfl⟩
  next hlt =>
    obtain ⟨gap, after, hgap, hsplit⟩ := h.exists_slice hstop (by omega)
    have hwrap : (if gap.all Text.isBlank then Leaf.blank else Leaf.other).wrap gap = gap := by
      split <;> rfl
    rw [hgap]
    refine ⟨_, rfl, ⟨after, ?_⟩, Nat.le_refl stop, rfl⟩
    change Text.splitAt? stop source =
      some (before ++ (s.push (.leaf _ (String.ofList gap))).text, after)
    rw [text_push_leaf, hwrap, hsplit]

theorem Covers.addAtom (g : Group) (callee : Option Range) {n : Concrete}
    (h : s.Covers source before) (hstop : Text.IsBoundary n.range.stop source)
    (hstart : n.range.start ≤ s.position) : (s.addAtom source g callee n).Covers source before := by
  unfold Covers
  rw [text_addAtom]
  change ∃ after, Text.splitAt? (max s.position n.range.stop) source = _
  rcases Nat.lt_or_ge n.range.stop s.position with hlt | hle
  · -- All of the node is covered already.
    rw [textOf_of_lt hlt, List.append_nil, Nat.max_eq_left (Nat.le_of_lt hlt)]
    exact h
  · obtain ⟨inside, after, hslice, hsplit⟩ := h.exists_slice hstop hle
    rw [textOf, Nat.max_eq_right hstart, hslice, Nat.max_eq_right hle]
    exact ⟨after, hsplit⟩

theorem Covers.finish (h : s.Covers source before) :
    Covers source before ⟨s.position, s.finish, []⟩ := by
  unfold Covers text
  rw [textOfAll_finish]
  exact h

theorem Covers.below (h : s.Covers source before) :
    Covers source (before ++ s.text) ⟨s.position, [], []⟩ := by
  simpa [Covers, text, textBefore] using h

theorem Covers.addAll (kind : String) {below : Lowering}
    (h : below.Covers source (before ++ s.text)) :
    (s.addAll kind below.finish below.position).Covers source before := by
  unfold Covers
  rw [text_addAll, textOfAll_finish, ← List.append_assoc]
  exact h

end

end Lowering

mutual

def Concrete.FitsIn (source : List Char) : Concrete → Prop
  | .node _ _ _ range children =>
    Text.IsBoundary range.start source ∧ Text.IsBoundary range.stop source ∧
      Concrete.AllFitIn source children

def Concrete.AllFitIn (source : List Char) : List Concrete → Prop
  | [] => True
  | n :: ns => n.FitsIn source ∧ Concrete.AllFitIn source ns

end

mutual

def Concrete.decidableFitsIn (source : List Char) : (n : Concrete) → Decidable (n.FitsIn source)
  | .node _ _ _ range children =>
    have := Concrete.decidableAllFitIn source children
    inferInstanceAs (Decidable (Text.IsBoundary range.start source ∧
      Text.IsBoundary range.stop source ∧ Concrete.AllFitIn source children))

def Concrete.decidableAllFitIn (source : List Char) :
    (ns : List Concrete) → Decidable (Concrete.AllFitIn source ns)
  | [] => .isTrue trivial
  | n :: ns =>
    have := n.decidableFitsIn source
    have := Concrete.decidableAllFitIn source ns
    inferInstanceAs (Decidable (n.FitsIn source ∧ Concrete.AllFitIn source ns))

end

instance (source : List Char) (n : Concrete) : Decidable (n.FitsIn source) :=
  n.decidableFitsIn source

theorem Concrete.FitsIn.children {source : List Char} {n : Concrete} (h : n.FitsIn source) :
    AllFitIn source n.children := by
  cases n
  exact h.2.2

namespace Lowering

variable {source : List Char}

mutual

theorem Covers.lower (g : Group) (callee : Option Range) {before : List Char} {s : Lowering} :
    (n : Concrete) → n.FitsIn source → s.Covers source before →
      ∃ s', n.lower source g callee s = .ok s' ∧ s'.Covers source before
  | .node kind named missing range children, hn, hs => by
    obtain ⟨hstart, hstop, hchildren⟩ := hn
    rw [Concrete.lower]
    split
    next => exact ⟨s, rfl, hs⟩
    next =>
      obtain ⟨t, hfill, ht, hposition, -⟩ := hs.fill hstart
      rw [hfill]
      change ∃ s', (if (Concrete.node kind named missing range children).isAtomic then _ else _) =
        Except.ok s' ∧ _
      split
      next => exact ⟨_, rfl, ht.addAtom g callee hstop hposition⟩
      next =>
        obtain ⟨below, hbelow, hcovers⟩ := Covers.lowerAll
          (if kind = "invocation" then .function else .expression)
          ((Concrete.node kind named missing range children).calleeBelow callee) children hchildren
          ht.below
        rw [hbelow]
        exact ⟨_, rfl, hcovers.addAll kind⟩

theorem Covers.lowerAll (g : Group) (callee : Option Range) {before : List Char} {s : Lowering} :
    (ns : List Concrete) → Concrete.AllFitIn source ns → s.Covers source before →
      ∃ s', Concrete.lowerAll source g callee s ns = .ok s' ∧ s'.Covers source before
  | [], _, hs => ⟨s, rfl, hs⟩
  | n :: ns, hns, hs => by
    obtain ⟨t, hlower, ht⟩ := Covers.lower g callee n hns.1 hs
    rw [Concrete.lowerAll, hlower]
    exact Covers.lowerAll g callee ns hns.2 ht

end

theorem covers_start (source : List Char) : Covers source [] ⟨0, [], []⟩ :=
  ⟨source, by simp [text, textBefore]⟩

theorem Covers.text_eq {s : Lowering} (h : s.Covers source [])
    (hle : Text.width source ≤ s.position) : s.text = source := by
  obtain ⟨after, hsplit⟩ := h
  obtain ⟨hsource, hwidth⟩ := Text.append_of_splitAt? hsplit
  have hafter : after = [] := by
    rw [← hwidth, ← hsource, Text.width_append] at hle
    exact Text.width_eq_zero.1 (by omega)
  simpa [hafter] using hsource

end Lowering

theorem render_ofConcrete {sql : String} {tree : ConcreteTree} (h : tree.root.FitsIn sql.toList) :
    ∃ d, Document.ofConcrete sql tree = .ok d ∧ render d.pieces = sql := by
  obtain ⟨s, hs, hcovers⟩ := Lowering.Covers.lowerAll
    (if tree.root.kind = "invocation" then .function else .expression)
    (tree.root.calleeBelow none) tree.root.children h.children (Lowering.covers_start sql.toList)
  obtain ⟨t, hfill, ht, hposition, houter⟩ :=
    hcovers.finish.fill (Text.isBoundary_width sql.toList)
  refine ⟨⟨some (.block .root t.nodes), tree.hasError⟩, ?_, ?_⟩
  · rw [Document.ofConcrete, hs]
    change (Lowering.fill sql.toList ⟨s.position, s.finish, []⟩ (Text.width sql.toList) >>= _) = _
    rw [hfill]
    rfl
  · have htext : textOfAll t.nodes = sql.toList := by
      rw [← ht.text_eq hposition, Lowering.text, houter]
      rfl
    rw [← String.toList_inj, toList_render]
    exact htext

theorem render_ofConcrete_overlapping :
    let sql := "SELECT (('é''x', [a]]) --"
    let node := fun kind named start stop => Concrete.node kind named false ⟨start, stop⟩
    let tree : ConcreteTree := ⟨node "program" true 0 26
      [node "keyword_select" true 0 6 [], .node ")" false true ⟨6, 6⟩ [],
        node "statement" true 7 22
          [node "(" false 7 8 [], node "(" false 8 9 [], node "literal" true 9 16 [],
            node "literal" true 10 16 [], node "identifier" true 18 22 [],
            node "term" true 9 7 [node "," false 16 17 []]],
        node ")" false 22 23 [], node "comment" true 24 26 []], true⟩
    tree.root.FitsIn sql.toList ∧
      ∃ d, Document.ofConcrete sql tree = .ok d ∧ render d.pieces = sql := by
  intro sql node tree
  have h : tree.root.FitsIn sql.toList := by decide +kernel
  exact ⟨h, render_ofConcrete h⟩

end Sql

end SqlHighlight
