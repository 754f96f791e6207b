import SqlHighlight.Sql.Structure

namespace SqlHighlight.Sql

/-- A reading of nodes one after the other that finds in a block what the block holds. -/
structure IsFlat {α : Type} (f : List Node → List α) : Prop where
  append : ∀ ns ms, f (ns ++ ms) = f ns ++ f ms
  block : ∀ b text flawed ns, f [.element (.block b) text flawed ns] = f ns
  not_isElement : ∀ n, n.isElement = false → f [n] = []

namespace Draft

def flat (d : Draft) : List Node := d.statements ++ (d.clauses ++ d.clause)

@[simp] theorem flat_push (d : Draft) (n : Node) : (d.push n).flat = d.flat ++ [n] := by
  simp [push, flat]

theorem closeClause_eq (d : Draft) :
    d.clause = [] ∧ d.closeClause = d ∨
      d.clause ≠ [] ∧ d.closeClause =
        { d with clauses := d.clauses ++ [.block .clause d.clause], clause := [] } := by
  unfold closeClause
  split
  next h => exact .inl ⟨by simpa using h, rfl⟩
  next h => exact .inr ⟨by simpa using h, rfl⟩

@[simp] theorem clause_closeClause (d : Draft) : d.closeClause.clause = [] := by
  obtain ⟨h, heq⟩ | ⟨-, heq⟩ := d.closeClause_eq
  · rw [heq, h]
  · rw [heq]

@[simp] theorem statements_closeClause (d : Draft) : d.closeClause.statements = d.statements := by
  obtain ⟨-, heq⟩ | ⟨-, heq⟩ := d.closeClause_eq <;> rw [heq]

theorem finish_eq (d : Draft) :
    d.closeClause.clauses = [] ∧ d.finish = d.statements ∨
      d.closeClause.clauses ≠ [] ∧
        d.finish = d.statements ++ [.block .statement d.closeClause.clauses] := by
  unfold finish closeStatement
  dsimp only
  split
  next h => exact .inl ⟨by simpa using h, statements_closeClause d⟩
  next h => exact .inr ⟨by simpa using h, by rw [statements_closeClause]⟩

theorem flat_closeStatement (d : Draft) : d.closeStatement.flat = d.finish := by
  have hclauses : d.closeStatement.clauses = [] := by
    unfold closeStatement
    dsimp only
    split <;> simp_all
  have hclause : d.closeStatement.clause = [] := by
    unfold closeStatement
    dsimp only
    split <;> simp
  rw [flat, hclauses, hclause, finish]
  simp

end Draft

namespace IsFlat

variable {α : Type} {f : List Node → List α}

theorem closeClause (h : IsFlat f) (d : Draft) : f d.closeClause.flat = f d.flat := by
  obtain ⟨-, heq⟩ | ⟨-, heq⟩ := d.closeClause_eq
  · rw [heq]
  · rw [heq]
    simp [Draft.flat, h.append, h.block, Node.block]

theorem pushClause (h : IsFlat f) (d : Draft) (n : Node) :
    f (d.pushClause n).flat = f d.flat ++ f [n] := by
  rw [← h.closeClause d, ← h.append]
  simp [Draft.pushClause, Draft.flat]

theorem finish (h : IsFlat f) (d : Draft) : f d.finish = f d.flat := by
  rw [← h.closeClause d]
  obtain ⟨hclauses, heq⟩ | ⟨-, heq⟩ := d.finish_eq
  · simp [heq, Draft.flat, hclauses]
  · simp [heq, Draft.flat, h.append, h.block, Node.block]

theorem closeStatement (h : IsFlat f) (d : Draft) : f d.closeStatement.flat = f d.flat := by
  rw [Draft.flat_closeStatement, h.finish]

theorem filter_isElement (h : IsFlat f) (ns : List Node) : f (ns.filter Node.isElement) = f ns := by
  induction ns with
  | nil => rfl
  | cons n ns ih =>
    rw [← List.singleton_append, List.filter_append, h.append, h.append, ih]
    congr 1
    cases hn : n.isElement with
    | true => rw [List.filter_cons_of_pos hn, List.filter_nil]
    | false =>
      have hnil : f [] = [] := by simpa using h.append [] []
      rw [List.filter_cons_of_neg (by simp [hn]), List.filter_nil, hnil, h.not_isElement n hn]

theorem elements (h : IsFlat f) {n : Node} {b : Block} (hn : n.kind? = some (.block b)) :
    f n.elements = f [n] := by
  cases n with
  | element kind text flawed children =>
    cases hn
    rw [h.block]
    exact h.filter_isElement children
  | text => cases hn
  | comment => cases hn

theorem groupChildren (h : IsFlat f) {ns : List Node}
    (hns : ∀ n ∈ ns, n.kind? = some (.block .statement)) : f (groupChildren ns) = f ns := by
  unfold Sql.groupChildren
  split
  next statement =>
    split
    next clause hclause =>
      split
      next hplain =>
        rw [Bool.and_eq_true, decide_eq_true_eq] at hplain
        rw [h.elements hplain.1, ← hclause, h.elements (hns statement List.mem_cons_self)]
      next => rfl
    next => rfl
  next => rfl

end IsFlat

end SqlHighlight.Sql
