import SqlHighlight.Proofs.Tracking

/-! Sessions in which an edit may start from any revision. A tagger knows a foreign change by the
version it is based on, and revisions on different branches share versions, so it can take one for
its own. As long as that does not happen, every change it takes in leaves the modes of a full scan. -/

namespace SqlHighlight

open Literal (LineModes)

structure Made where
  base : Revision
  after : Revision
  change : Change
  deriving DecidableEq, Repr

/-- The history of a buffer, the edits in it, and a tagger that some of them were given to. -/
structure Session where
  history : History
  made : List Made
  tagger : Tagger
  deriving DecidableEq, Repr

namespace Session

inductive Step
  | edit (number : Nat) (e : Edit)
  | give (index : Nat)
  deriving DecidableEq, Repr

def start (text : String) : Session := ⟨.start text, [], .ofRevision (.first text)⟩

def edit (s : Session) (r : Revision) (e : Edit) : Session :=
  let (history, after, change) := s.history.edit r e.range e.replacement
  { s with history, made := s.made ++ [⟨r, after, change⟩] }

def answer (s : Session) (m : Made) : Except EditError (Tagger × List Notice) :=
  s.tagger.apply m.after [m.change]

def give (s : Session) (m : Made) : Session :=
  match s.answer m with
  | .ok (t, _) => { s with tagger := t }
  | .error _ => s

def step (s : Session) : Step → Session
  | .edit number e => (s.history.revisions[number]?).elim s fun r => s.edit r e
  | .give index => (s.made[index]?).elim s s.give

def offered? (s : Session) : Step → Option Made
  | .edit _ _ => none
  | .give index => s.made[index]?

def given (s : Session) : List Step → List (Session × Made)
  | [] => []
  | step :: steps => (s.offered? step).toList.map (s, ·) ++ (s.step step).given steps

/-- The edit was not made on the tracked revision, but on one of the same version. -/
def Mistakes (s : Session) (m : Made) : Prop :=
  m.base.number ≠ s.tagger.revision.number ∧ m.base.version = s.tagger.revision.version

instance (s : Session) (m : Made) : Decidable (s.Mistakes m) :=
  inferInstanceAs (Decidable (_ ∧ _))

/-- The tagger rejects what is foreign, stays as it is when it rejects, and otherwise moves on to the
modes of a full scan. -/
structure Handles (s : Session) (m : Made) : Prop where
  rejects : m.base.number ≠ s.tagger.revision.number →
    s.answer m = .error (.versionMismatch s.tagger.revision.version m.base.version)
  keeps : ∀ e, s.answer m = .error e → (s.give m).tagger = s.tagger
  scans : ∀ t notices, s.answer m = .ok (t, notices) →
    t.revision = m.after ∧ t.modes = LineModes.ofLines m.after.lines

structure Sound (s : Session) : Prop where
  number_eq : ∀ (i : Nat) (r : Revision), s.history.revisions[i]? = some r → r.number = i
  tracked_mem : s.tagger.revision ∈ s.history.revisions
  base_mem : ∀ m ∈ s.made, m.base ∈ s.history.revisions
  after_mem : ∀ m ∈ s.made, m.after ∈ s.history.revisions
  exists_edit : ∀ m ∈ s.made, ∃ number range replacement,
    m.base.edit number range replacement = (m.after, m.change)

section

variable {s : Session} {m : Made}

theorem Sound.eq_of_number_eq (h : s.Sound) {r r' : Revision} (hr : r ∈ s.history.revisions)
    (hr' : r' ∈ s.history.revisions) (heq : r.number = r'.number) : r = r' := by
  obtain ⟨i, hi⟩ := List.mem_iff_getElem?.1 hr
  obtain ⟨j, hj⟩ := List.mem_iff_getElem?.1 hr'
  rw [h.number_eq i r hi, h.number_eq j r' hj] at heq
  rw [heq, hj] at hi
  exact (Option.some.inj hi).symm

theorem Sound.baseVersion_eq (h : s.Sound) (hm : m ∈ s.made) :
    m.change.baseVersion = m.base.version := by
  obtain ⟨number, range, replacement, hedit⟩ := h.exists_edit m hm
  exact (congrArg (·.2.baseVersion) hedit).symm

theorem Sound.answer_of_ne (h : s.Sound) (hm : m ∈ s.made)
    (hversion : m.base.version ≠ s.tagger.revision.version) :
    s.answer m = .error (.versionMismatch s.tagger.revision.version m.base.version) := by
  rw [← h.baseVersion_eq hm] at hversion ⊢
  simp [answer, Tagger.apply, hversion]

theorem Sound.exists_answer_of_eq (h : s.Sound) (hm : m ∈ s.made)
    (hversion : m.base.version = s.tagger.revision.version) :
    ∃ modes notices, s.answer m = .ok (⟨m.after, modes⟩, notices) := by
  rw [← h.baseVersion_eq hm] at hversion
  obtain ⟨notices, happly⟩ := s.tagger.exists_apply_eq m.after m.change hversion
  exact ⟨_, notices, happly⟩

theorem Sound.exists_answer_of_base_eq (h : s.Sound) (hm : m ∈ s.made)
    (hfresh : s.tagger = .ofRevision s.tagger.revision) (hbase : m.base = s.tagger.revision)
    (hfits : m.after.length < Offset.bound) :
    ∃ notices, s.answer m = .ok (.ofRevision m.after, notices) := by
  obtain ⟨number, range, replacement, hedit⟩ := h.exists_edit m hm
  have hafter : m.after = (m.base.edit number range replacement).1 := by rw [hedit]
  have hchange : m.change = (m.base.edit number range replacement).2 := by rw [hedit]
  rw [answer, hfresh, ← hbase, hchange]
  rw [hafter] at hfits ⊢
  exact Tagger.exists_apply_edit hfits

theorem sound_start (text : String) : (start text).Sound where
  number_eq i r h := by
    cases i with
    | zero =>
      obtain rfl := Option.some.inj h
      rfl
    | succ i => cases h
  tracked_mem := List.mem_singleton_self _
  base_mem := by simp [start]
  after_mem := by simp [start]
  exists_edit := by simp [start]

theorem Sound.edit (h : s.Sound) {r : Revision} (hr : r ∈ s.history.revisions) (e : Edit) :
    (s.edit r e).Sound where
  number_eq i r' hr' := by
    change (s.history.revisions ++ [(r.edit s.history.revisions.length e.range e.replacement).1])[i]? =
      some r' at hr'
    rcases Nat.lt_or_ge i s.history.revisions.length with hi | hi
    · rw [List.getElem?_append_left hi] at hr'
      exact h.number_eq i r' hr'
    · rw [List.getElem?_append_right hi, List.getElem?_singleton] at hr'
      split at hr'
      · next hzero =>
        obtain rfl := Option.some.inj hr'
        exact Nat.le_antisymm hi (Nat.sub_eq_zero_iff_le.1 hzero)
      · cases hr'
  tracked_mem := List.mem_append_left _ h.tracked_mem
  base_mem := by
    intro m hm
    rcases List.mem_append.1 hm with hm | hm
    · exact List.mem_append_left _ (h.base_mem m hm)
    · obtain rfl := List.mem_singleton.1 hm
      exact List.mem_append_left _ hr
  after_mem := by
    intro m hm
    rcases List.mem_append.1 hm with hm | hm
    · exact List.mem_append_left _ (h.after_mem m hm)
    · obtain rfl := List.mem_singleton.1 hm
      exact List.mem_append_right _ (List.mem_singleton_self _)
  exists_edit := by
    intro m hm
    rcases List.mem_append.1 hm with hm | hm
    · exact h.exists_edit m hm
    · obtain rfl := List.mem_singleton.1 hm
      exact ⟨_, _, _, rfl⟩

theorem give_of_error {e : EditError} (h : s.answer m = .error e) : s.give m = s := by
  rw [give, h]

theorem give_of_ok {t : Tagger} {notices : List Notice} (h : s.answer m = .ok (t, notices)) :
    s.give m = { s with tagger := t } := by
  rw [give, h]

theorem Sound.give (h : s.Sound) (hm : m ∈ s.made) : (s.give m).Sound := by
  by_cases hversion : m.base.version = s.tagger.revision.version
  · obtain ⟨modes, notices, hanswer⟩ := h.exists_answer_of_eq hm hversion
    rw [give_of_ok hanswer]
    exact ⟨h.number_eq, h.after_mem m hm, h.base_mem, h.after_mem, h.exists_edit⟩
  · rw [give_of_error (h.answer_of_ne hm hversion)]
    exact h

theorem Sound.step (h : s.Sound) (step : Step) : (s.step step).Sound := by
  cases step with
  | edit number e =>
    rw [Session.step]
    cases hr : s.history.revisions[number]? with
    | none => exact h
    | some r => exact h.edit (List.mem_of_getElem? hr) e
  | give index =>
    rw [Session.step]
    cases hm : s.made[index]? with
    | none => exact h
    | some m => exact h.give (List.mem_of_getElem? hm)

theorem mem_made_of_offered? {step : Step} (h : s.offered? step = some m) : m ∈ s.made := by
  cases step with
  | edit number e => cases h
  | give index => exact List.mem_of_getElem? h

theorem Sound.of_mem_given (h : s.Sound) {steps : List Step} {g : Session × Made}
    (hg : g ∈ s.given steps) : g.1.Sound ∧ g.2 ∈ g.1.made := by
  induction steps generalizing s with
  | nil => cases hg
  | cons step steps ih =>
    rcases List.mem_append.1 hg with hg | hg
    · obtain ⟨m, hm, rfl⟩ := List.mem_map.1 hg
      exact ⟨h, mem_made_of_offered? (Option.mem_toList.1 hm)⟩
    · exact ih (h.step step) hg

theorem Handles.not_mistakes (h : s.Handles m) (hs : s.Sound) (hm : m ∈ s.made) :
    ¬ s.Mistakes m := by
  rintro ⟨hforeign, hversion⟩
  obtain ⟨modes, notices, hanswer⟩ := hs.exists_answer_of_eq hm hversion
  rw [h.rejects hforeign] at hanswer
  cases hanswer

theorem Sound.handles (h : s.Sound) (hm : m ∈ s.made)
    (hfresh : s.tagger = .ofRevision s.tagger.revision) (hfits : m.after.length < Offset.bound)
    (hmistakes : ¬ s.Mistakes m) :
    s.Handles m ∧ (s.give m).tagger = .ofRevision (s.give m).tagger.revision := by
  by_cases hnumber : m.base.number = s.tagger.revision.number
  · have hbase := h.eq_of_number_eq (h.base_mem m hm) h.tracked_mem hnumber
    obtain ⟨notices, hanswer⟩ := h.exists_answer_of_base_eq hm hfresh hbase hfits
    refine ⟨⟨fun hforeign => absurd hnumber hforeign, ?_, ?_⟩, ?_⟩
    · intro e he
      rw [hanswer] at he
      cases he
    · intro t notices' ht
      rw [hanswer] at ht
      cases ht
      exact ⟨rfl, LineModes.build_eq _⟩
    · rw [give_of_ok hanswer]
      rfl
  · have hanswer := h.answer_of_ne hm fun hversion => hmistakes ⟨hnumber, hversion⟩
    refine ⟨⟨fun _ => hanswer, ?_, ?_⟩, ?_⟩
    · intro e he
      rw [give_of_error he]
    · intro t notices ht
      rw [hanswer] at ht
      cases ht
    · rw [give_of_error hanswer]
      exact hfresh

theorem Sound.handles_given (h : s.Sound) (hfresh : s.tagger = .ofRevision s.tagger.revision)
    (steps : List Step) (hfits : ∀ g ∈ s.given steps, g.2.after.length < Offset.bound)
    (hmistakes : ∀ g ∈ s.given steps, ¬ g.1.Mistakes g.2) :
    ∀ g ∈ s.given steps, g.1.Handles g.2 := by
  induction steps generalizing s with
  | nil => simp [given]
  | cons step steps ih =>
    rw [given, List.forall_mem_append] at hfits hmistakes ⊢
    cases step with
    | edit number e =>
      refine ⟨by simp [offered?], ih (h.step _) ?_ hfits.2 hmistakes.2⟩
      rw [Session.step]
      cases s.history.revisions[number]? with
      | none => exact hfresh
      | some r => exact hfresh
    | give index =>
      rw [offered?, Session.step] at hfits hmistakes ⊢
      have hrest := h.step (.give index)
      rw [Session.step] at hrest
      cases hm : s.made[index]? with
      | none =>
        rw [hm] at hfits hmistakes
        exact ⟨by simp, ih h hfresh hfits.2 hmistakes.2⟩
      | some m =>
        rw [hm] at hfits hmistakes hrest
        obtain ⟨hhandles, hnext⟩ := h.handles (List.mem_of_getElem? hm) hfresh
          (hfits.1 (s, m) (by simp)) (hmistakes.1 (s, m) (by simp))
        refine ⟨?_, ih hrest hnext hfits.2 hmistakes.2⟩
        simpa using hhandles

end

/-- A change of another version is rejected, and then nothing changes. All changes are handled, also
the foreign ones, exactly if none is of a revision that only shares its version with the tracked
one. -/
theorem handles_given_iff (text : String) (steps : List Step)
    (hfits : ∀ g ∈ (start text).given steps, g.2.after.length < Offset.bound) :
    (∀ g ∈ (start text).given steps, g.2.base.version ≠ g.1.tagger.revision.version →
      g.1.answer g.2 = .error (.versionMismatch g.1.tagger.revision.version g.2.base.version) ∧
        g.1.give g.2 = g.1) ∧
    ((∀ g ∈ (start text).given steps, g.1.Handles g.2) ↔
      ∀ g ∈ (start text).given steps, ¬ g.1.Mistakes g.2) := by
  have hstart := sound_start text
  refine ⟨?_, ?_, ?_⟩
  · intro g hg hversion
    obtain ⟨hs, hm⟩ := hstart.of_mem_given hg
    have hanswer := hs.answer_of_ne hm hversion
    exact ⟨hanswer, give_of_error hanswer⟩
  · intro h g hg
    obtain ⟨hs, hm⟩ := hstart.of_mem_given hg
    exact (h g hg).not_mistakes hs hm
  · exact hstart.handles_given rfl steps hfits

theorem handles_given_iff_branches :
    let steps : List Step := [.edit 0 ⟨⟨0, 0⟩, "@\""⟩, .edit 0 ⟨⟨3, 3⟩, "z"⟩, .give 0, .give 1,
      .edit 1 ⟨⟨1, 9⟩, "\n\n"⟩, .edit 2 ⟨⟨0, 1⟩, ""⟩, .give 2, .give 3]
    let gs := (start "x\ny").given steps
    (∀ g ∈ gs, g.2.after.length < Offset.bound) ∧ gs.length = 4 ∧
      (∀ g ∈ gs, ¬ g.1.Mistakes g.2) ∧ ∀ g ∈ gs, g.1.Handles g.2 := by
  intro steps gs
  have hfits : ∀ g ∈ gs, g.2.after.length < Offset.bound := by decide +kernel
  have hmistakes : ∀ g ∈ gs, ¬ g.1.Mistakes g.2 := by decide +kernel
  exact ⟨hfits, by decide +kernel, hmistakes, (handles_given_iff _ steps hfits).2.2 hmistakes⟩

theorem exists_given_mistaken :
    let steps : List Step := [.edit 0 ⟨⟨0, 0⟩, "@\""⟩, .edit 0 ⟨⟨3, 3⟩, "z"⟩, .give 0,
      .edit 2 ⟨⟨4, 4⟩, "w"⟩, .give 2]
    ∃ g ∈ (start "x\ny").given steps, ¬ g.1.Handles g.2 ∧
      g.2.base.number ≠ g.1.tagger.revision.number ∧ (g.1.give g.2).tagger.revision = g.2.after ∧
      (g.1.give g.2).tagger.modes ≠ LineModes.ofLines g.2.after.lines := by
  intro steps
  have h : ∃ g ∈ (start "x\ny").given steps, g.1.Mistakes g.2 ∧
      (g.1.give g.2).tagger.revision = g.2.after ∧
      (g.1.give g.2).tagger.modes ≠ LineModes.ofLines g.2.after.lines := by decide +kernel
  obtain ⟨g, hg, hmistakes, hmodes⟩ := h
  obtain ⟨hs, hm⟩ := (sound_start _).of_mem_given hg
  exact ⟨g, hg, fun hhandles => hhandles.not_mistakes hs hm hmistakes, hmistakes.1, hmodes⟩

end Session

end SqlHighlight
