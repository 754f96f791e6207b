import SqlHighlight.Proofs.Boundary
import SqlHighlight.Proofs.Lexing
import SqlHighlight.Proofs.Spans

namespace SqlHighlight

namespace Sql

theorem totalWidth_eq (ps : List Piece) :
    totalWidth ps = Text.width (ps.flatMap fun p => p.text.toList) := by
  induction ps with
  | nil => rfl
  | cons p ps ih =>
    rw [List.flatMap_cons, Text.width_append, ← ih]
    rfl

theorem flatMap_piecesAfter (before ts : List Token) :
    ((piecesAfter before ts).flatMap fun p => p.text.toList) = ts.flatMap fun t => t.render.toList := by
  induction ts generalizing before with
  | nil => rfl
  | cons t ts ih => rw [piecesAfter, List.flatMap_append, ih, flatMap_pieceOf, List.flatMap_cons]

/-- A document with a root, whose pieces add up to the text unless it has errors. -/
structure Document.IsExact (sql : String) (d : Document) : Prop where
  root_ne_none : d.root ≠ none
  totalWidth_eq : d.errorFound = false → totalWidth d.pieces = Text.width sql.toList

theorem Builder.Holds.pieces_closeAll {ts : List Token} {b : Builder} (h : b.Holds ts)
    (houter : b.outer = []) : piecesOfAll (closeAll b.draft b.outer).finish = piecesAfter [] ts := by
  rw [houter, closeAll, Draft.pieces_finish, ← h.pieces, Builder.pieces, houter]
  rfl

theorem flatMap_pieces_ofText {sql : String} (h : (Document.ofText sql).errorFound = false) :
    (Tokens.ofText sql).unfinished = false ∧
      ((Document.ofText sql).pieces.flatMap fun p => p.text.toList) =
        (Tokens.ofText sql).list.flatMap fun t => t.render.toList := by
  have hspelled : ∀ t ∈ (Tokens.ofText sql).list, t.IsSpelled := Tokens.isSpelled_lex 0 sql.toList
  have hb := Builder.holds_empty.foldl hspelled
  rw [List.nil_append] at hb
  change (_ || _ || _) = false at h
  simp only [Bool.or_eq_false_iff, Bool.not_eq_false', List.isEmpty_iff] at h
  obtain ⟨⟨hfinished, -⟩, houter⟩ := h
  refine ⟨hfinished, ?_⟩
  change (piecesOfAll (Builder.closeAll _ _).finish).flatMap _ = _
  rw [hb.pieces_closeAll houter, flatMap_piecesAfter]

theorem sizes_ofText {sql : String} (h : (Document.ofText sql).errorFound = false) :
    ((Document.ofText sql).pieces.flatMap fun p => p.text.toList).map Char.utf8Size =
      sql.toList.map Char.utf8Size := by
  obtain ⟨hfinished, htext⟩ := flatMap_pieces_ofText h
  rw [htext]
  exact Tokens.sizes_lex hfinished

theorem isExact_ofText (sql : String) : (Document.ofText sql).IsExact sql where
  root_ne_none := Option.some_ne_none _
  totalWidth_eq h := by
    rw [totalWidth_eq]
    exact Text.width_eq_of_sizes (sizes_ofText h)

theorem exists_ofConcrete {sql : String} {tree : ConcreteTree} (h : tree.root.FitsIn sql.toList) :
    ∃ nodes, Document.ofConcrete sql tree = .ok ⟨some (.block .root nodes), tree.hasError⟩ ∧
      textOfAll nodes = sql.toList := by
  obtain ⟨s, hs, hcovers⟩ := Lowering.Covers.lowerAll _ (tree.root.calleeBelow none)
    tree.root.children h.children (Lowering.covers_start sql.toList)
  obtain ⟨t, hfill, ht, hposition, houter⟩ :=
    hcovers.finish.fill (Text.isBoundary_width sql.toList)
  have htext := ht.text_eq hposition
  rw [Lowering.text, houter] at htext
  exact ⟨t.nodes, bind_eq_ok_iff.2 ⟨s, hs, bind_eq_ok_iff.2 ⟨t, hfill, rfl⟩⟩, htext⟩

theorem exists_isExact_ofConcrete {sql : String} {tree : ConcreteTree}
    (h : tree.root.FitsIn sql.toList) :
    ∃ d, Document.ofConcrete sql tree = .ok d ∧ d.IsExact sql := by
  obtain ⟨nodes, hd, htext⟩ := exists_ofConcrete h
  refine ⟨_, hd, Option.some_ne_none _, fun _ => ?_⟩
  rw [totalWidth_eq, ← htext]
  rfl

end Sql

def Backend.Fits (trees : String → Option Sql.ConcreteTree) (sql : String) : Backend → Prop
  | .tokens => True
  | .concrete => ∃ tree, trees sql = some tree ∧ tree.root.FitsIn sql.toList

theorem Backend.exists_isExact {trees : String → Option Sql.ConcreteTree} {sql : String}
    {backend : Backend} (h : backend.Fits trees sql) :
    ∃ d, backend.parser trees sql = .ok d ∧ d.IsExact sql := by
  cases backend with
  | tokens => exact ⟨_, rfl, Sql.isExact_ofText sql⟩
  | concrete =>
    obtain ⟨tree, htree, hfits⟩ := h
    obtain ⟨d, hd, hexact⟩ := Sql.exists_isExact_ofConcrete hfits
    exact ⟨d, by simp [parser, htree, hd], hexact⟩

namespace Classifier

theorem new_eq_ok {trees : String → Option Sql.ConcreteTree} {settings : Settings} {c : Classifier}
    (h : Classifier.new trees settings = .ok c) : c = ⟨settings, settings.backend.parser trees⟩ := by
  obtain ⟨_, -, h⟩ := bind_eq_ok_iff.1 h
  exact (Except.ok.inj h).symm

theorem spansOf?_eq_none_iff (c : Classifier) (holes : List Range) {sql : String} {d : Sql.Document}
    (h : d.IsExact sql) : c.spansOf? holes (Text.width sql.toList) d = none ↔ d.errorFound = true := by
  rw [spansOf?]
  cases herror : d.errorFound with
  | true => simp
  | false => simp [h.root_ne_none, h.totalWidth_eq herror]

theorem exists_classifyText_eq_none_iff {trees : String → Option Sql.ConcreteTree}
    {settings : Settings} {c : Classifier} (hnew : Classifier.new trees settings = .ok c)
    (text : List Char) (holes : List Range)
    (hfits : settings.backend.Fits trees (c.filled text holes)) :
    ∃ d result, c.parser (c.filled text holes) = .ok d ∧ c.classifyText text holes = .ok result ∧
      (result = none ↔
        Gate.startKeyword? settings.startKeywords text = none ∨ d.errorFound = true) := by
  obtain rfl := new_eq_ok hnew
  obtain ⟨d, hd, hexact⟩ := Backend.exists_isExact hfits
  cases hgate : Gate.startKeyword? settings.startKeywords text with
  | none => exact ⟨d, none, hd, by rw [classifyText, hgate], by simp⟩
  | some word =>
    have hnone := spansOf?_eq_none_iff ⟨settings, settings.backend.parser trees⟩ holes hexact
    rw [filled, String.toList_ofList] at hnone
    refine ⟨d, _, hd, ?_, by simpa using hnone⟩
    rw [classifyText, hgate]
    exact bind_eq_ok_iff.2 ⟨d, hd, rfl⟩

theorem exists_classifyText_eq_none_iff_national :
    let text := "SELECT n'é''' {x}".toList
    let holes : List Range := [⟨15, 18⟩]
    let trees : String → Option Sql.ConcreteTree := fun _ =>
      some ⟨.node "program" true false ⟨0, 18⟩ [.node "keyword_select" true false ⟨0, 6⟩ [],
        .node "literal" true false ⟨7, 14⟩ []], false⟩
    Gate.startKeyword? defaultStartKeywords text = some "SELECT" ∧
      ∀ backend : Backend, ∃ c d result, Classifier.new trees { backend } = .ok c ∧
        c.parser (c.filled text holes) = .ok d ∧ c.classifyText text holes = .ok result ∧
        (result = none ↔
          Gate.startKeyword? defaultStartKeywords text = none ∨ d.errorFound = true) := by
  intro text holes trees
  refine ⟨by decide, fun backend => ?_⟩
  have hfits : backend.Fits trees (filled ⟨{ backend }, backend.parser trees⟩ text holes) := by
    cases backend with
    | tokens => trivial
    | concrete => exact ⟨_, rfl, by decide +kernel⟩
  have hnew : Classifier.new trees { backend } = .ok ⟨{ backend }, backend.parser trees⟩ := rfl
  obtain ⟨d, result, h⟩ := exists_classifyText_eq_none_iff hnew text holes hfits
  exact ⟨_, d, result, hnew, h⟩

end Classifier

end SqlHighlight
