import SqlHighlight.Buffer.History
import SqlHighlight.Classify.Classifier
import SqlHighlight.Proofs.LineModes

namespace SqlHighlight

open Literal (LineModes)

namespace Revision

@[simp] theorem chars_mk (number version : Nat) (cs : List Char) :
    (Revision.mk number version (String.ofList cs)).chars = cs :=
  String.toList_ofList

theorem exists_edit_eq (r : Revision) (number : Nat) (range : Range) (replacement : String) :
    ∃ before removed after : List Char,
      r.chars = before ++ (removed ++ after) ∧
      r.edit number range replacement =
        (⟨number, r.version + 1, String.ofList (before ++ (replacement.toList ++ after))⟩,
          { baseVersion := r.version
            oldStart := Text.width before
            oldLength := Text.width removed
            newStart := Text.width before
            newLength := Text.width replacement.toList
            lineDelta := (replacement.toList.count '\n' : Int) - removed.count '\n' }) := by
  refine ⟨_, _, _, ?_, by rw [← List.append_assoc]; rfl⟩
  rw [Text.append_splitFloor, Text.append_splitFloor]

end Revision

namespace Tagger

theorem apply_singleton (t : Tagger) (after : Revision) (c : Change)
    (h : c.baseVersion = t.revision.version) :
    let first := after.lineAt c.newStart
    let rescanned := (t.modes.resize first c.lineDelta).rescan after.lines first
      (after.lineAt (Offset.add c.newStart c.newLength))
    t.apply after [c] = .ok (⟨after, rescanned.1⟩, [.ofLines after rescanned.2]) := by
  simp [apply, h, resize, rescan]

theorem exists_apply_eq (t : Tagger) (after : Revision) (c : Change)
    (h : c.baseVersion = t.revision.version) :
    ∃ notices, t.apply after [c] =
      .ok (⟨after, ((t.modes.resize (after.lineAt c.newStart) c.lineDelta).rescan after.lines
        (after.lineAt c.newStart) (after.lineAt (Offset.add c.newStart c.newLength))).1⟩,
        notices) :=
  ⟨_, t.apply_singleton after c h⟩

theorem exists_apply_edit_eq {r : Revision} {number : Nat} {range : Range} {replacement : String}
    (hfits : (r.edit number range replacement).1.length < Offset.bound) :
    let made := r.edit number range replacement
    ∃ before removed after : List Char,
      r.chars = before ++ (removed ++ after) ∧
      made.1.chars = before ++ (replacement.toList ++ after) ∧
      made.2.oldStart = Text.width before ∧ made.2.oldLength = Text.width removed ∧
      (ofRevision r).apply made.1 [made.2] =
        .ok (ofRevision made.1, [.ofLines made.1
          (((ofRevision r).modes.resize (before.count '\n')
              ((replacement.toList.count '\n' : Int) - removed.count '\n')).rescan
            made.1.lines (before.count '\n') ((before ++ replacement.toList).count '\n')).2]) := by
  intro made
  obtain ⟨before, removed, after, hchars, hedit⟩ := r.exists_edit_eq number range replacement
  have hmade : made = _ := hedit
  refine ⟨before, removed, after, hchars, by rw [hmade, Revision.chars_mk], by rw [hmade],
    by rw [hmade], (apply_singleton (ofRevision r) made.1 made.2 rfl).trans ?_⟩
  rw [hedit] at hfits
  simp only [Revision.length, Revision.chars_mk, Text.width_append] at hfits
  have hstop : Offset.add (Text.width before) (Text.width replacement.toList) =
      Text.width (before ++ replacement.toList) := by
    rw [Text.width_append, Offset.add_eq (by omega)]
  have hfirst := Text.lineAt_width before (replacement.toList ++ after)
  have hlast := Text.lineAt_width (before ++ replacement.toList) after
  rw [List.append_assoc] at hlast
  simp only [hmade, ofRevision, LineModes.build_eq, Revision.lineAt, Revision.lines, Revision.chars_mk,
    hchars, hstop, hfirst, hlast, LineModes.rescan_resize_ofLines]

theorem exists_apply_edit {r : Revision} {number : Nat} {range : Range} {replacement : String}
    (hfits : (r.edit number range replacement).1.length < Offset.bound) :
    ∃ notices, (ofRevision r).apply (r.edit number range replacement).1
        [(r.edit number range replacement).2] =
      .ok (ofRevision (r.edit number range replacement).1, notices) := by
  obtain ⟨before, removed, after, -, -, -, -, happly⟩ := exists_apply_edit_eq hfits
  exact ⟨_, happly⟩

end Tagger

structure Edit where
  range : Range
  replacement : String
  deriving DecidableEq, Repr

def History.replay (h : History) (r : Revision) : List Edit → List Revision
  | [] => []
  | e :: es =>
    let made := h.edit r e.range e.replacement
    made.2.1 :: replay made.1 made.2.1 es

namespace Tagger

/-- Makes each edit on the tracked revision, and takes its change in. Gives every new revision with
the tagger after it. -/
def followAll (h : History) (t : Tagger) : List Edit → Except EditError (List (Revision × Tagger))
  | [] => .ok []
  | e :: es => do
    let made := h.edit t.revision e.range e.replacement
    let (t, _) ← t.apply made.2.1 [made.2.2]
    let steps ← followAll made.1 t es
    return (made.2.1, t) :: steps

structure IsFresh (t : Tagger) (r : Revision) : Prop where
  length_modes : t.modes.length = r.lineCount
  modes_eq : t.modes = (ofRevision r).modes
  literals_eq : ∀ query, t.literals r query = (ofRevision r).literals r query
  classify_eq : ∀ (c : Classifier) query, c.classify t r query = c.classify (ofRevision r) r query

theorem isFresh_ofRevision (r : Revision) : (ofRevision r).IsFresh r where
  length_modes := LineModes.length_build
  modes_eq := rfl
  literals_eq _ := rfl
  classify_eq _ _ := rfl

theorem followAll_cons {h : History} {t t' : Tagger} {e : Edit} {notices : List Notice}
    (es : List Edit)
    (happly : t.apply (h.edit t.revision e.range e.replacement).2.1
      [(h.edit t.revision e.range e.replacement).2.2] = .ok (t', notices)) :
    followAll h t (e :: es) =
      (followAll (h.edit t.revision e.range e.replacement).1 t' es).map
        (((h.edit t.revision e.range e.replacement).2.1, t') :: ·) := by
  rw [followAll]
  simp only [happly]
  rfl

theorem followAll_ofRevision (h : History) (r : Revision) (edits : List Edit)
    (hfits : ∀ after ∈ h.replay r edits, after.length < Offset.bound) :
    followAll h (ofRevision r) edits =
      .ok ((h.replay r edits).map fun after => (after, ofRevision after)) := by
  induction edits generalizing h r with
  | nil => rfl
  | cons e es ih =>
    obtain ⟨notices, happly⟩ := exists_apply_edit (hfits _ List.mem_cons_self)
    have hrest := ih _ _ fun after hafter => hfits after (List.mem_cons_of_mem _ hafter)
    exact (followAll_cons es happly).trans (congrArg (Except.map _) hrest)

theorem isFresh_of_followAll (text : String) (edits : List Edit)
    (hfits : ∀ after ∈ (History.start text).replay (.first text) edits,
      after.length < Offset.bound) :
    ∃ steps, followAll (.start text) (ofRevision (.first text)) edits = .ok steps ∧
      steps.map Prod.fst = (History.start text).replay (.first text) edits ∧
      ∀ step ∈ steps, step.2.IsFresh step.1 := by
  refine ⟨_, followAll_ofRevision _ _ edits hfits, by simp [Function.comp_def], ?_⟩
  intro step hstep
  obtain ⟨after, -, rfl⟩ := List.mem_map.1 hstep
  exact isFresh_ofRevision after

theorem isFresh_of_followAll_awkward :
    (∀ after ∈ (History.start "@\"é\r\n\"").replay (.first "@\"é\r\n\"")
      [⟨⟨3, 4⟩, "\"\n"⟩, ⟨⟨7, 7⟩, "/*"⟩, ⟨⟨90, 2⟩, "\n*/"⟩], after.length < Offset.bound) ∧
    ∃ steps, followAll (.start "@\"é\r\n\"") (ofRevision (.first "@\"é\r\n\""))
        [⟨⟨3, 4⟩, "\"\n"⟩, ⟨⟨7, 7⟩, "/*"⟩, ⟨⟨90, 2⟩, "\n*/"⟩] = .ok steps ∧
      steps.map Prod.fst = (History.start "@\"é\r\n\"").replay (.first "@\"é\r\n\"")
        [⟨⟨3, 4⟩, "\"\n"⟩, ⟨⟨7, 7⟩, "/*"⟩, ⟨⟨90, 2⟩, "\n*/"⟩] ∧
      ∀ step ∈ steps, step.2.IsFresh step.1 :=
  have h : ∀ after ∈ (History.start "@\"é\r\n\"").replay (.first "@\"é\r\n\"")
      [⟨⟨3, 4⟩, "\"\n"⟩, ⟨⟨7, 7⟩, "/*"⟩, ⟨⟨90, 2⟩, "\n*/"⟩], after.length < Offset.bound := by
    decide +kernel
  ⟨h, isFresh_of_followAll _ _ h⟩

end Tagger

end SqlHighlight
