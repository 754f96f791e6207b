import SqlHighlight.Literal.Tagger
import SqlHighlight.Proofs.Lines
import SqlHighlight.Proofs.Reading

namespace SqlHighlight.Literal

structure Part where
  start : Nat
  piece : Piece
  deriving DecidableEq, Repr

namespace Part

def stop (p : Part) : Nat := p.start + p.piece.width

def hasContent (p : Part) : Bool := p.piece.width != 0

def holes (p : Part) : List Range := Segment.holes p.start p.piece.segments

def place (start : Nat) : List Stretch → List Part
  | [] => []
  | .code cs :: ss => place (start + Text.width cs) ss
  | .literal p :: ss => ⟨start, p⟩ :: place (start + p.width) ss

theorem map_piece_place (start : Nat) (ss : List Stretch) :
    (place start ss).map piece = ss.filterMap Stretch.piece? := by
  induction ss generalizing start with
  | nil => rfl
  | cons s ss ih =>
    cases s with
    | code cs => exact ih _
    | literal p => simp [place, ih, Stretch.piece?]

theorem stop_le_of_mem_place {start : Nat} {ss : List Stretch} {p : Part} (h : p ∈ place start ss) :
    p.stop ≤ start + Text.width (ss.flatMap Stretch.chars) := by
  induction ss generalizing start with
  | nil => simp [place] at h
  | cons s ss ih =>
    rw [List.flatMap_cons, Text.width_append]
    cases s with
    | code cs =>
      have := ih h
      simp only [Stretch.chars]
      omega
    | literal q =>
      have hq : q.width = Text.width (Stretch.literal q).chars := rfl
      rcases List.mem_cons.1 h with rfl | h
      · simp only [stop]
        omega
      · have := ih h
        omega

end Part

/-- A literal that a scan opens: what the line it opens on holds of it, and what later lines do. -/
structure Opened where
  opening : Part
  later : List Part
  /-- Whether it opens on a line without content that starts in a verbatim string and ends in
  another, so that no fragment tells the two apart. -/
  unnoticed : Bool
  deriving DecidableEq, Repr

namespace Opened

def parts (o : Opened) : List Part := o.opening :: o.later

def interpolated (o : Opened) : Bool := o.opening.piece.kind.interpolated

def literal? (o : Opened) : Option Literal :=
  match o.parts.filter Part.hasContent with
  | [] => none
  | p :: ps => some ⟨⟨p.start, (ps.getLastD p).stop⟩, o.interpolated, o.parts.flatMap Part.holes⟩

def new (unnoticed : Bool) (p : Part) : Opened := ⟨p, [], unnoticed⟩

def goOn (o : Opened) (p : Part) : Opened := { o with later := o.later ++ [p] }

@[simp] theorem parts_goOn (o : Opened) (p : Part) : (o.goOn p).parts = o.parts ++ [p] := rfl

end Opened

def partsOf (mode : Mode) (l : Line) : List Part :=
  Part.place l.start (Cut.ofLine mode l.text).stretches

/-- The literals opened up to the end of a line, newest first, from those opened before it. -/
def openLine (mode : Mode) (os : List Opened) (l : Line) : List Opened :=
  let parts := partsOf mode l
  let unnoticed :=
    mode.isVerbatim && (nextMode mode l.text).isVerbatim && !parts.any Part.hasContent
  match mode.isVerbatim, os, parts with
  | true, o :: os, p :: ps => (ps.map (.new unnoticed)).reverse ++ o.goOn p :: os
  | _, _, _ => (parts.map (.new unnoticed)).reverse ++ os

def openedFrom : Mode → List Opened → List Line → List Opened
  | _, os, [] => os
  | mode, os, l :: ls => openedFrom (nextMode mode l.text) (openLine mode os l) ls

def opened (ls : List Line) : List Opened := (openedFrom .code [] ls).reverse

section

variable {mode : Mode} {k : StringKind} {o : Opened} {os : List Opened} {p : Part} {ps : List Part}

theorem map_piece_partsOf (mode : Mode) (l : Line) :
    (partsOf mode l).map Part.piece = (Cut.ofLine mode l.text).pieces :=
  Part.map_piece_place _ _

theorem stop_le_of_mem_partsOf {l : Line} (h : p ∈ partsOf mode l) : p.stop ≤ l.stop := by
  have := Part.stop_le_of_mem_place h
  rwa [← Cut.chars, Cut.chars_ofLine] at this

theorem opensInto_partsOf (h : mode.isVerbatim = false) (l : Line) :
    Cut.OpensInto (nextMode mode l.text) ((partsOf mode l).map Part.piece) := by
  rw [map_piece_partsOf, nextMode_eq]
  exact Cut.opensInto_ofLine h l.text

theorem exists_partsOf (hk : k.verbatim = true) (l : Line) :
    ∃ p ps, partsOf (.string k) l = p :: ps ∧ p.piece.IsRead ∧ p.piece.kind = k ∧
      p.piece.continued = true ∧
      (p.piece.openAtEnd = true ∧ ps = [] ∧ nextMode (.string k) l.text = .string k ∨
        p.piece.openAtEnd = false ∧
          Cut.OpensInto (nextMode (.string k) l.text) (ps.map Part.piece)) := by
  obtain ⟨q, qs, hqs, hread, hkind, hcont, hend⟩ := Cut.exists_pieces_ofLine hk l.text
  rw [← map_piece_partsOf] at hqs
  rw [← nextMode_eq] at hend
  obtain ⟨p, ps, hps, rfl, rfl⟩ := List.map_eq_cons_iff.1 hqs
  refine ⟨p, ps, hps, hread, hkind, hcont, ?_⟩
  rcases hend with ⟨hopen, hnil, hmode⟩ | hclosed
  · exact .inl ⟨hopen, List.map_eq_nil_iff.1 hnil, hmode⟩
  · exact .inr hclosed

theorem openLine_of_isVerbatim_eq_false (h : mode.isVerbatim = false) (os : List Opened)
    (l : Line) : openLine mode os l = ((partsOf mode l).map (.new false)).reverse ++ os := by
  simp [openLine, h]

theorem openLine_cons {l : Line} (h : mode.isVerbatim = true) (hparts : partsOf mode l = p :: ps) :
    openLine mode (o :: os) l =
      (ps.map (.new ((nextMode mode l.text).isVerbatim && !(p :: ps).any Part.hasContent))).reverse
        ++ o.goOn p :: os := by
  simp [openLine, h, hparts]

theorem openedFrom_of_text_eq_nil (h : mode.isVerbatim = false) (os : List Opened) {ls : List Line}
    (hls : ∀ l ∈ ls, l.text = []) : openedFrom mode os ls = os := by
  induction ls generalizing mode with
  | nil => rfl
  | cons l ls ih =>
    have hl : l.text = [] := hls l List.mem_cons_self
    obtain ⟨hpieces, hnext⟩ := Cut.ofLine_nil h
    have hparts : partsOf mode l = [] := by
      rw [← List.map_eq_nil_iff, map_piece_partsOf, hl, hpieces]
    rw [openedFrom, openLine_of_isVerbatim_eq_false h, hparts, hl]
    rw [← nextMode_eq] at hnext
    exact ih hnext fun l' hl' => hls l' (List.mem_cons_of_mem _ hl')

def Opened.Sound (limit : Nat) (o : Opened) : Prop :=
  ∀ p ∈ o.parts, p.piece.IsRead ∧ p.piece.kind = o.opening.piece.kind ∧ p.stop ≤ limit

theorem Opened.Sound.goOn {limit : Nat} (ho : o.Sound limit) (hread : p.piece.IsRead)
    (hkind : p.piece.kind = o.opening.piece.kind) (hstop : p.stop ≤ limit) :
    (o.goOn p).Sound limit := by
  intro q hq
  rw [parts_goOn, List.mem_append, List.mem_singleton] at hq
  rcases hq with hq | rfl
  · exact ho q hq
  · exact ⟨hread, hkind, hstop⟩

structure WellOpened (limit : Nat) (mode : Mode) (os : List Opened) : Prop where
  sound : ∀ o ∈ os, o.Sound limit
  continues : mode.isVerbatim = true → ∃ o rest, os = o :: rest ∧ mode = .string o.opening.piece.kind

theorem wellOpened_nil (limit : Nat) : WellOpened limit .code [] where
  sound := by simp
  continues := by simp [Mode.isVerbatim]

theorem WellOpened.append {limit : Nat} (unnoticed : Bool)
    (h : Cut.OpensInto mode (ps.map Part.piece)) (hps : ∀ p ∈ ps, p.stop ≤ limit)
    (hos : ∀ o ∈ os, o.Sound limit) :
    WellOpened limit mode ((ps.map (.new unnoticed)).reverse ++ os) where
  sound := by
    intro o ho
    rw [List.mem_append, List.mem_reverse, List.mem_map] at ho
    rcases ho with ⟨p, hp, rfl⟩ | ho
    · intro q hq
      obtain rfl := List.mem_singleton.1 hq
      exact ⟨h.isRead (List.mem_map_of_mem hp), rfl, hps q hp⟩
    · exact hos o ho
  continues := by
    intro hmode
    obtain ⟨init, q, hq, hkind⟩ := h.exists_eq_append hmode
    obtain ⟨init, last, rfl, -, hlast⟩ := List.map_eq_append_iff.1 hq
    obtain ⟨p, rest, rfl, rfl, hrest⟩ := List.map_eq_cons_iff.1 hlast
    obtain rfl := List.map_eq_nil_iff.1 hrest
    exact ⟨.new unnoticed p, (init.map (.new unnoticed)).reverse ++ os, by simp, hkind⟩

theorem WellOpened.openLine {limit : Nat} {l : Line} (h : WellOpened limit mode os)
    (hl : l.stop ≤ limit) : WellOpened limit (nextMode mode l.text) (openLine mode os l) := by
  have hstop : ∀ p ∈ partsOf mode l, p.stop ≤ limit := fun p hp =>
    Nat.le_trans (stop_le_of_mem_partsOf hp) hl
  cases hmode : mode.isVerbatim with
  | false =>
    rw [openLine_of_isVerbatim_eq_false hmode]
    exact .append false (opensInto_partsOf hmode l) hstop h.sound
  | true =>
    obtain ⟨o, os, rfl, rfl⟩ := h.continues hmode
    obtain ⟨p, ps, hparts, hread, hkind, -, hend⟩ := exists_partsOf hmode l
    rw [hparts] at hstop
    have ho : (o.goOn p).Sound limit :=
      (h.sound o List.mem_cons_self).goOn hread hkind (hstop p List.mem_cons_self)
    have hos : ∀ o' ∈ o.goOn p :: os, o'.Sound limit := by
      intro o' ho'
      rcases List.mem_cons.1 ho' with rfl | ho'
      · exact ho
      · exact h.sound o' (List.mem_cons_of_mem _ ho')
    rw [openLine_cons hmode hparts]
    rcases hend with ⟨-, rfl, hnext⟩ | ⟨-, hinto⟩
    · exact ⟨hos, fun _ => ⟨o.goOn p, os, rfl, hnext⟩⟩
    · exact .append _ hinto (fun q hq => hstop q (List.mem_cons_of_mem _ hq)) hos

theorem WellOpened.openedFrom {limit : Nat} {ls : List Line} (h : WellOpened limit mode os)
    (hls : ∀ l ∈ ls, l.stop ≤ limit) : ∀ o ∈ openedFrom mode os ls, o.Sound limit := by
  induction ls generalizing mode os with
  | nil => exact h.sound
  | cons l ls ih =>
    apply ih (h.openLine (hls l List.mem_cons_self))
    intro l' hl'
    exact hls l' (List.mem_cons_of_mem _ hl')

end

end SqlHighlight.Literal
