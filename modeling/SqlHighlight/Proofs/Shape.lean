import SqlHighlight.Proofs.Drafts

namespace SqlHighlight.Sql

mutual

def Node.nodes : Node → List Node
  | .element kind text flawed children =>
    .element kind text flawed children :: nodesOfAll children
  | .text content => [.text content]
  | .comment content => [.comment content]

def nodesOfAll : List Node → List Node
  | [] => []
  | n :: ns => n.nodes ++ nodesOfAll ns

end

def Node.Throughout (p : Node → Prop) (n : Node) : Prop := ∀ m ∈ n.nodes, p m

theorem mem_nodesOfAll {m : Node} {ns : List Node} : m ∈ nodesOfAll ns ↔ ∃ n ∈ ns, m ∈ n.nodes := by
  induction ns with
  | nil => simp [nodesOfAll]
  | cons n ns ih => simp [nodesOfAll, ih]

namespace Node

variable {p : Node → Prop} {n m : Node}

theorem throughout_element {kind : Kind} {text : String} {flawed : Bool} {children : List Node} :
    (Node.element kind text flawed children).Throughout p ↔
      p (.element kind text flawed children) ∧ ∀ n ∈ children, n.Throughout p := by
  simp only [Throughout, nodes, List.forall_mem_cons, mem_nodesOfAll]
  grind

theorem Throughout.self (h : n.Throughout p) : p n := by
  cases n with
  | element => exact (throughout_element.1 h).1
  | text content => exact h _ List.mem_cons_self
  | comment content => exact h _ List.mem_cons_self

theorem Throughout.of_mem_children (h : n.Throughout p) (hm : m ∈ n.children) : m.Throughout p := by
  cases n with
  | element => exact (throughout_element.1 h).2 m hm
  | text content => cases hm
  | comment content => cases hm

def isSemicolon (n : Node) : Bool := n.kind? = some (.leaf .semicolon)

def isClauseWord : Node → Bool
  | .element (.leaf .keyword) word _ _ => startsClause word
  | _ => false

def isLeafOrGroup (n : Node) : Bool :=
  match n.kind? with
  | some (.leaf _) | some (.group _) => true
  | _ => false

def isClause (n : Node) : Bool :=
  n.kind? = some (.block .clause) || n.kind? = some (.block .setOperatorClause)

def isEnded (statement : Node) : Bool :=
  (statement.children.getLast?.bind (·.children.getLast?)).any isSemicolon

end Node

structure IsStatements (ns : List Node) : Prop where
  kind?_eq : ∀ n ∈ ns, n.kind? = some (.block .statement)
  isEnded : ∀ n ∈ ns.dropLast, n.isEnded

structure IsClauses (ns : List Node) : Prop where
  isClause : ∀ n ∈ ns, n.isClause
  not_isSemicolon : ∀ n ∈ ns.dropLast, ∀ m ∈ n.children, ¬ m.isSemicolon

/-- The nodes of one clause. A semicolon comes last, and nothing but trivia before a clause word. -/
structure IsContent (ns : List Node) : Prop where
  isLeafOrGroup : ∀ n ∈ ns, n.isLeafOrGroup
  not_isSemicolon : ∀ n ∈ ns.dropLast, ¬ n.isSemicolon
  isTrivia : ns.Pairwise fun m n => n.isClauseWord → m.isTrivia

/-- What the children of a node of each kind are. -/
inductive Node.IsShaped : Node → Prop
  | root {ns : List Node} : IsStatements ns → IsShaped (.block .root ns)
  | statement {ns : List Node} : ns ≠ [] → IsClauses ns → IsShaped (.block .statement ns)
  | clause {ns : List Node} : ns ≠ [] → IsContent ns → IsShaped (.block .clause ns)
  | setOperator {word : String} :
    isSetOperator word → IsShaped (.block .setOperatorClause [.leaf .keyword word])
  | group {ns : List Node} (g : Group) (flawed : Bool) :
    IsStatements ns ∨ IsContent ns → IsShaped (.group g ns flawed)
  | leaf (l : Leaf) (text : String) : IsShaped (.leaf l text)

theorem isContent_nil : IsContent [] := ⟨by simp, by simp, .nil⟩

theorem IsContent.concat {ns : List Node} {n : Node} (h : IsContent ns)
    (hopen : ∀ m ∈ ns, ¬ m.isSemicolon) (hn : n.isLeafOrGroup)
    (hword : n.isClauseWord → ∀ m ∈ ns, m.isTrivia) : IsContent (ns ++ [n]) where
  isLeafOrGroup := List.forall_mem_append.2 ⟨h.isLeafOrGroup, List.forall_mem_singleton.2 hn⟩
  not_isSemicolon := by rwa [List.dropLast_concat]
  isTrivia := by
    refine List.pairwise_append.2 ⟨h.isTrivia, List.pairwise_singleton _ n, ?_⟩
    intro m hm n' hn' hclause
    rw [List.mem_singleton.1 hn'] at hclause
    exact hword hclause m hm

theorem IsContent.filter_isElement {ns : List Node} (h : IsContent ns) :
    ns.filter Node.isElement = ns := by
  apply List.filter_eq_self.2
  intro n hn
  have hkind := h.isLeafOrGroup n hn
  cases n with
  | element => rfl
  | text => cases hkind
  | comment => cases hkind

theorem Node.throughout_leaf (l : Leaf) (text : String) : (Node.leaf l text).Throughout IsShaped :=
  throughout_element.2 ⟨.leaf l text, by simp⟩

theorem Node.IsShaped.isContent_children {n : Node} (h : n.IsShaped)
    (hkind : n.kind? = some (.block .clause)) : IsContent n.children := by
  cases h with
  | clause _ h => exact h
  | root => cases hkind
  | statement => cases hkind
  | setOperator => cases hkind
  | group => cases hkind
  | leaf => cases hkind

theorem isShaped_groupChildren {ns : List Node} (h : IsStatements ns)
    (hns : ∀ n ∈ ns, n.Throughout Node.IsShaped) :
    (IsStatements (groupChildren ns) ∨ IsContent (groupChildren ns)) ∧
      ∀ n ∈ groupChildren ns, n.Throughout Node.IsShaped := by
  unfold groupChildren
  split
  next statement =>
    split
    next clause hclause =>
      split
      next hplain =>
        rw [Bool.and_eq_true, decide_eq_true_eq] at hplain
        have hmem : clause ∈ statement.elements := by simp [hclause]
        have hthroughout :=
          (hns statement List.mem_cons_self).of_mem_children (List.mem_filter.1 hmem).1
        have hcontent := hthroughout.self.isContent_children hplain.1
        rw [Node.elements, hcontent.filter_isElement]
        exact ⟨.inr hcontent, fun n hn => hthroughout.of_mem_children hn⟩
      next => exact ⟨.inl h, hns⟩
    next => exact ⟨.inl h, hns⟩
  next => exact ⟨.inl h, hns⟩

namespace Draft

structure IsShaped (d : Draft) : Prop where
  statements : ∀ n ∈ d.statements,
    n.kind? = some (.block .statement) ∧ n.isEnded ∧ n.Throughout Node.IsShaped
  clauses : ∀ n ∈ d.clauses,
    n.isClause ∧ (∀ m ∈ n.children, ¬ m.isSemicolon) ∧ n.Throughout Node.IsShaped
  clause : IsContent d.clause
  throughout : ∀ n ∈ d.clause, n.Throughout Node.IsShaped

def IsOpen (d : Draft) : Prop := ∀ n ∈ d.clause, ¬ n.isSemicolon

theorem isShaped_empty : Draft.empty.IsShaped :=
  ⟨by simp [empty], by simp [empty], isContent_nil, by simp [empty]⟩

theorem isOpen_empty : Draft.empty.IsOpen := by simp [IsOpen, empty]

section

variable {d : Draft} {n : Node}

theorem IsShaped.push (h : d.IsShaped) (hopen : d.IsOpen) (hn : n.isLeafOrGroup)
    (hword : n.isClauseWord → ∀ m ∈ d.clause, m.isTrivia) (hthroughout : n.Throughout Node.IsShaped) :
    (d.push n).IsShaped where
  statements := h.statements
  clauses := h.clauses
  clause := h.clause.concat hopen hn hword
  throughout := List.forall_mem_append.2 ⟨h.throughout, List.forall_mem_singleton.2 hthroughout⟩

theorem IsOpen.push (h : d.IsOpen) (hn : ¬ n.isSemicolon) : (d.push n).IsOpen :=
  List.forall_mem_append.2 ⟨h, List.forall_mem_singleton.2 hn⟩

theorem isOpen_closeClause (d : Draft) : d.closeClause.IsOpen := by simp [IsOpen]

theorem IsShaped.throughout_clause (h : d.IsShaped) (hne : d.clause ≠ []) :
    (Node.block .clause d.clause).Throughout Node.IsShaped :=
  Node.throughout_element.2 ⟨.clause hne h.clause, h.throughout⟩

theorem IsShaped.closeClause (h : d.IsShaped) (hopen : d.IsOpen) : d.closeClause.IsShaped := by
  obtain ⟨-, heq⟩ | ⟨hne, heq⟩ := d.closeClause_eq
  · rwa [heq]
  · rw [heq]
    refine ⟨h.statements, ?_, isContent_nil, by simp⟩
    exact List.forall_mem_append.2
      ⟨h.clauses, List.forall_mem_singleton.2 ⟨rfl, hopen, h.throughout_clause hne⟩⟩

theorem IsShaped.pushClause (h : d.IsShaped) (hopen : d.IsOpen) (hn : n.isClause)
    (hsemicolon : ∀ m ∈ n.children, ¬ m.isSemicolon) (hthroughout : n.Throughout Node.IsShaped) :
    (d.pushClause n).IsShaped where
  statements := (h.closeClause hopen).statements
  clauses := List.forall_mem_append.2
    ⟨(h.closeClause hopen).clauses, List.forall_mem_singleton.2 ⟨hn, hsemicolon, hthroughout⟩⟩
  clause := (h.closeClause hopen).clause
  throughout := (h.closeClause hopen).throughout

theorem IsShaped.throughout_statement (h : d.IsShaped) (hne : d.closeClause.clauses ≠ []) :
    (Node.block .statement d.closeClause.clauses).Throughout Node.IsShaped := by
  obtain ⟨-, heq⟩ | ⟨hclause, heq⟩ := d.closeClause_eq
  · rw [heq] at hne ⊢
    refine Node.throughout_element.2 ⟨.statement hne ⟨?_, ?_⟩, fun n hn => (h.clauses n hn).2.2⟩
    · exact fun n hn => (h.clauses n hn).1
    · exact fun n hn => (h.clauses n (List.dropLast_subset _ hn)).2.1
  · rw [heq] at hne ⊢
    refine Node.throughout_element.2 ⟨.statement hne ⟨?_, ?_⟩, ?_⟩
    · exact List.forall_mem_append.2
        ⟨fun n hn => (h.clauses n hn).1, List.forall_mem_singleton.2 rfl⟩
    · rw [List.dropLast_concat]
      exact fun n hn => (h.clauses n hn).2.1
    · exact List.forall_mem_append.2 ⟨fun n hn => (h.clauses n hn).2.2,
        List.forall_mem_singleton.2 (h.throughout_clause hclause)⟩

theorem IsShaped.isStatements_finish (h : d.IsShaped) : IsStatements d.finish := by
  obtain ⟨-, heq⟩ | ⟨-, heq⟩ := d.finish_eq
  · rw [heq]
    refine ⟨fun n hn => (h.statements n hn).1, ?_⟩
    exact fun n hn => (h.statements n (List.dropLast_subset _ hn)).2.1
  · rw [heq]
    refine ⟨?_, ?_⟩
    · exact List.forall_mem_append.2
        ⟨fun n hn => (h.statements n hn).1, List.forall_mem_singleton.2 rfl⟩
    · rw [List.dropLast_concat]
      exact fun n hn => (h.statements n hn).2.1

theorem IsShaped.throughout_finish (h : d.IsShaped) :
    ∀ n ∈ d.finish, n.Throughout Node.IsShaped := by
  have hstatements : ∀ n ∈ d.statements, n.Throughout Node.IsShaped :=
    fun n hn => (h.statements n hn).2.2
  obtain ⟨-, heq⟩ | ⟨hne, heq⟩ := d.finish_eq
  · rwa [heq]
  · rw [heq]
    exact List.forall_mem_append.2
      ⟨hstatements, List.forall_mem_singleton.2 (h.throughout_statement hne)⟩

theorem IsShaped.throughout_root (h : d.IsShaped) :
    (Node.block .root d.finish).Throughout Node.IsShaped :=
  Node.throughout_element.2 ⟨.root h.isStatements_finish, h.throughout_finish⟩

theorem IsShaped.closeStatement (h : d.IsShaped) (hopen : d.IsOpen) :
    (d.push (.leaf .semicolon ";")).closeStatement.IsShaped ∧
      (d.push (.leaf .semicolon ";")).closeStatement.IsOpen := by
  have hpush : (d.push (.leaf .semicolon ";")).IsShaped :=
    h.push hopen rfl (by simp [Node.isClauseWord, Node.leaf]) (Node.throughout_leaf _ _)
  have hclose : (d.push (.leaf .semicolon ";")).closeClause.clauses =
      d.clauses ++ [.block .clause (d.clause ++ [.leaf .semicolon ";"])] := by
    simp [Draft.closeClause, Draft.push]
  have hstatement := hpush.throughout_statement (by simp [hclose])
  have heq : (d.push (.leaf .semicolon ";")).closeStatement =
      ⟨d.statements ++
        [.block .statement (d.push (.leaf .semicolon ";")).closeClause.clauses], [], []⟩ := by
    simp [Draft.closeStatement, Draft.closeClause, Draft.push]
  rw [heq]
  refine ⟨⟨List.forall_mem_append.2 ⟨h.statements, List.forall_mem_singleton.2 ⟨rfl, ?_, hstatement⟩⟩,
    by simp, isContent_nil, by simp⟩, by simp [IsOpen]⟩
  rw [hclose]
  simp [Node.isEnded, Node.block, Node.children, Node.isSemicolon, Node.leaf, Node.kind?]

theorem IsShaped.throughout_group (h : d.IsShaped) (g : Group) (flawed : Bool) :
    (Node.group g (groupChildren d.finish) flawed).Throughout Node.IsShaped := by
  obtain ⟨hchildren, hthroughout⟩ :=
    isShaped_groupChildren h.isStatements_finish h.throughout_finish
  exact Node.throughout_element.2 ⟨.group g flawed hchildren, hthroughout⟩

theorem IsShaped.push_group {parent : Draft} (hparent : parent.IsShaped) (hopen : parent.IsOpen)
    (h : d.IsShaped) (g : Group) (flawed : Bool) :
    (parent.push (.group g (groupChildren d.finish) flawed)).IsShaped ∧
      (parent.push (.group g (groupChildren d.finish) flawed)).IsOpen := by
  refine ⟨hparent.push hopen rfl ?_ (h.throughout_group g flawed), hopen.push ?_⟩
  · simp [Node.isClauseWord, Node.group]
  · simp [Node.isSemicolon, Node.group, Node.kind?]

end

end Draft

namespace Builder

structure IsShaped (b : Builder) : Prop where
  outer : ∀ d ∈ b.outer, d.2.IsShaped ∧ d.2.IsOpen
  draft : b.draft.IsShaped ∧ b.draft.IsOpen

theorem isShaped_empty : Builder.empty.IsShaped :=
  ⟨by simp [empty], Draft.isShaped_empty, Draft.isOpen_empty⟩

section

variable {b : Builder}

theorem IsShaped.push_leaf (h : b.IsShaped) {l : Leaf} (text : String) (hkeyword : l ≠ .keyword)
    (hsemicolon : l ≠ .semicolon) : (b.push (.leaf l text)).IsShaped := by
  refine ⟨h.outer, h.draft.1.push h.draft.2 rfl ?_ (Node.throughout_leaf l text), h.draft.2.push ?_⟩
  · cases l <;> simp_all [Node.isClauseWord, Node.leaf]
  · simpa [Node.isSemicolon, Node.leaf, Node.kind?] using hsemicolon

theorem IsShaped.openGroup (h : b.IsShaped) : b.openGroup.IsShaped :=
  ⟨List.forall_mem_cons.2 ⟨h.draft, h.outer⟩, Draft.isShaped_empty, Draft.isOpen_empty⟩

theorem IsShaped.closeGroup (h : b.IsShaped) (flawed : Bool) : (b.closeGroup flawed).IsShaped := by
  obtain ⟨outer, draft, last, significant, unmatched⟩ := b
  cases outer with
  | nil => exact h
  | cons o outer =>
    obtain ⟨⟨hparent, hopen⟩, houter⟩ := List.forall_mem_cons.1 h.outer
    exact ⟨houter, hparent.push_group hopen h.draft.1 o.1 flawed⟩

theorem IsShaped.addWord (h : b.IsShaped) (value : String) : (b.addWord value).IsShaped := by
  unfold Builder.addWord
  split
  next => exact h.push_leaf value (by simp) (by simp)
  next =>
    split
    next hset =>
      have hclause : (Node.block .setOperatorClause [.leaf .keyword value]).Throughout Node.IsShaped :=
        Node.throughout_element.2 ⟨.setOperator hset, by simpa using Node.throughout_leaf _ _⟩
      refine ⟨h.outer, h.draft.1.pushClause h.draft.2 rfl ?_ hclause, ?_⟩
      · simp [Node.block, Node.children, Node.isSemicolon, Node.leaf, Node.kind?]
      · exact Draft.isOpen_closeClause b.draft
    next =>
      dsimp only
      have hsemicolon : ¬ (Node.leaf (WordClass.of value).leaf value).isSemicolon := by
        cases hclass : WordClass.of value <;>
          simp [WordClass.leaf, Node.isSemicolon, Node.leaf, Node.kind?]
      have hleaf := Node.throughout_leaf (WordClass.of value).leaf value
      split
      next =>
        have hdraft := h.draft.1.closeClause h.draft.2
        have hopen := Draft.isOpen_closeClause b.draft
        exact ⟨h.outer, hdraft.push hopen rfl (by simp) hleaf, hopen.push hsemicolon⟩
      next hplain =>
        refine ⟨h.outer, h.draft.1.push h.draft.2 rfl ?_ hleaf, h.draft.2.push hsemicolon⟩
        intro hword
        have hstarts : startsClause value = true := by
          cases hclass : WordClass.of value <;>
            simp_all [WordClass.leaf, Node.isClauseWord, Node.leaf]
        simpa [hstarts, Draft.hasContent] using hplain

theorem IsShaped.place (h : b.IsShaped) (t : Token) : (b.place t).IsShaped := by
  obtain ⟨kind, value, range⟩ := t
  cases kind with
  | openParen => exact h.openGroup
  | closeParen =>
    unfold Builder.place
    dsimp only
    split
    next =>
      have hpush := h.push_leaf (l := .other) ")" (by simp) (by simp)
      exact ⟨hpush.outer, hpush.draft⟩
    next => exact h.closeGroup false
  | semicolon => exact ⟨h.outer, h.draft.1.closeStatement h.draft.2⟩
  | word =>
    unfold Builder.place
    dsimp only
    split
    next => exact h.addWord value
    next => exact h.push_leaf value (by simp [Token.leaf]) (by simp [Token.leaf])
  | operator =>
    have hleaf : (Token.leaf ⟨.operator, value, range⟩) = .scopeResolution ∨
        (Token.leaf ⟨.operator, value, range⟩) = .operator := by
      unfold Token.leaf
      dsimp only
      split <;> simp
    apply h.push_leaf value
    · rcases hleaf with hleaf | hleaf <;> simp [hleaf]
    · rcases hleaf with hleaf | hleaf <;> simp [hleaf]
  | _ => exact h.push_leaf value (by simp [Token.leaf]) (by simp [Token.leaf])

theorem IsShaped.step (h : b.IsShaped) (t : Token) : (b.step t).IsShaped :=
  ⟨(h.place t).outer, (h.place t).draft⟩

theorem IsShaped.foldl (h : b.IsShaped) (ts : List Token) : (ts.foldl Builder.step b).IsShaped := by
  induction ts generalizing b with
  | nil => exact h
  | cons t ts ih => exact ih (h.step t)

theorem isShaped_closeAll {d : Draft} {outer : List (Group × Draft)} (hd : d.IsShaped)
    (houter : ∀ d ∈ outer, d.2.IsShaped ∧ d.2.IsOpen) : (closeAll d outer).IsShaped := by
  induction outer generalizing d with
  | nil => exact hd
  | cons o outer ih =>
    obtain ⟨⟨hparent, hopen⟩, houter⟩ := List.forall_mem_cons.1 houter
    exact ih (hparent.push_group hopen hd o.1 true).1 houter

theorem isShaped_ofTokens (ts : List Token) :
    (closeAll (ts.foldl step .empty).draft (ts.foldl step .empty).outer).IsShaped :=
  have h := isShaped_empty.foldl ts
  isShaped_closeAll h.draft.1 h.outer

end

end Builder

theorem throughout_isShaped_ofTokens (ts : Tokens) :
    ∃ ns, (Document.ofTokens ts).root = some (.block .root ns) ∧
      ∀ n ∈ (Node.block .root ns).nodes, n.IsShaped :=
  ⟨_, rfl, (Builder.isShaped_ofTokens ts.list).throughout_root⟩

end SqlHighlight.Sql
