import SqlHighlight.Proofs.Opened

/-! Whole literals against the literals that a scan opens. The assembly sees fragments with content
only, so it misses the end of a literal when the line that closes it has no content and leaves
another literal open: what follows is joined to the literal before. Everywhere else each literal
comes out alone and whole. -/

namespace SqlHighlight.Literal

def join : Option Literal → Option Literal → Option Literal
  | some l, some l' => some (l.absorb l')
  | some l, none => some l
  | none, l => l

@[simp] theorem none_join (l : Option Literal) : join none l = l := by
  cases l <;> rfl

@[simp] theorem join_none (l : Option Literal) : join l none = l := by
  cases l <;> rfl

theorem join_assoc (l m n : Option Literal) : join (join l m) n = join l (join m n) := by
  cases l <;> cases m <;> cases n <;> simp [join, absorb]

def joinAll (ls : List (Option Literal)) : Option Literal := ls.foldr join none

@[simp] theorem joinAll_nil : joinAll [] = none := rfl

@[simp] theorem joinAll_cons (l : Option Literal) (ls : List (Option Literal)) :
    joinAll (l :: ls) = join l (joinAll ls) := rfl

@[simp] theorem joinAll_append (ls ms : List (Option Literal)) :
    joinAll (ls ++ ms) = join (joinAll ls) (joinAll ms) := by
  induction ls with
  | nil => simp
  | cons l ls ih => simp [ih, join_assoc]

def Part.literal? (p : Part) : Option Literal :=
  if p.hasContent then some ⟨⟨p.start, p.stop⟩, p.piece.kind.interpolated, p.holes⟩ else none

def Opened.joined (o : Opened) : Option Literal := joinAll (o.parts.map Part.literal?)

@[simp] theorem Opened.joined_goOn (o : Opened) (p : Part) :
    (o.goOn p).joined = join o.joined p.literal? := by
  simp [joined]

theorem Segment.holes_add (offset start : Nat) (ss : List Segment) :
    holes (offset + start) ss = (holes offset ss).map (·.shift start) := by
  induction ss generalizing offset with
  | nil => rfl
  | cons s ss ih =>
    cases s with
    | text cs => rw [holes, holes, Nat.add_right_comm, ih]
    | hole cs =>
      rw [holes, holes, Nat.add_right_comm, ih]
      rfl

namespace Assembly

def extend (a : Assembly) (l : Option Literal) : Assembly := ⟨a.done, join a.pending l⟩

@[simp] theorem extend_none (a : Assembly) : a.extend none = a := by
  simp [extend]

theorem extend_extend (a : Assembly) (l m : Option Literal) :
    (a.extend l).extend m = a.extend (join l m) := by
  simp [extend, join_assoc]

@[simp] theorem flush_flush (a : Assembly) : a.flush.flush = a.flush := by
  simp [flush]

theorem flush_of_pending_eq_none {a : Assembly} (h : a.pending = none) : a.flush = a := by
  cases a
  simp_all [flush]

def addPart (a : Assembly) (p : Part) : Assembly :=
  if p.hasContent then
    let b := (if p.piece.continued then a else a.flush).extend p.literal?
    if p.piece.openAtEnd then b else b.flush
  else a

theorem add_place (offset start : Nat) (a : Assembly) {p : Piece} (h : p.width ≠ 0) :
    a.add start (p.place offset) = a.addPart ⟨offset + start, p⟩ := by
  have hp : (⟨offset + start, p⟩ : Part).hasContent := by simpa [Part.hasContent] using h
  have hlit : (⟨offset + start, p⟩ : Part).literal? = some (ofFragment start (p.place offset)) := by
    rw [Part.literal?, if_pos hp]
    simp only [ofFragment, Piece.place, Range.shift, Part.stop, Part.holes, Segment.holes_add,
      Nat.add_right_comm]
  rw [addPart, if_pos hp, hlit]
  cases a with
  | mk done pending =>
    cases hc : p.continued <;> cases ho : p.openAtEnd <;> cases pending <;>
      simp [add, Piece.place, hc, ho, flush, finish, extend, join]

theorem foldl_add_place (offset start : Nat) (a : Assembly) (ss : List Stretch) :
    (Fragment.place offset ss).foldl (add start) a =
      (Part.place (offset + start) ss).foldl addPart a := by
  induction ss generalizing offset a with
  | nil => rfl
  | cons s ss ih =>
    cases s with
    | code cs => rw [Fragment.place, Part.place, ih, Nat.add_right_comm]
    | literal p =>
      rw [Fragment.place, Part.place, List.foldl_cons, Nat.add_right_comm]
      split
      · next h => simp [ih, addPart, Part.hasContent, h]
      · next h => rw [List.foldl_cons, add_place _ _ _ h, ih]

def settleIn (mode : Mode) (a : Assembly) : Assembly := if mode.isVerbatim then a else a.flush

theorem addLine_scanLine (a : Assembly) (mode : Mode) (l : Line) :
    a.addLine l.start (scanLine mode l.text) =
      ((partsOf mode l).foldl addPart a).settleIn (nextMode mode l.text) := by
  rw [nextMode_eq, addLine, scanLine_eq, foldl_add_place, Nat.zero_add]
  rfl

def note (a : Assembly) (o : Opened) : Assembly :=
  (if o.unnoticed then a else a.flush).extend o.joined

def noteNew (a : Assembly) (p : Part) : Assembly := a.flush.extend p.literal?

section

variable {a : Assembly} {mode : Mode} {p : Part} {ps : List Part}

theorem foldl_noteNew_flush (h : Cut.OpensInto mode (ps.map Part.piece)) :
    (ps.foldl noteNew a.flush).settleIn mode = (ps.foldl noteNew a).settleIn mode := by
  cases ps with
  | nil =>
    have hmode : mode.isVerbatim = false := h
    simp [settleIn, hmode]
  | cons p ps => simp [noteNew]

theorem addPart_of_not_hasContent (h : p.hasContent = false) : a.addPart p = a := by
  simp [addPart, h]

theorem addPart_of_continued (hcont : p.piece.continued = true) (hopen : p.piece.openAtEnd = true) :
    a.addPart p = a.extend p.literal? := by
  cases hp : p.hasContent <;> simp [addPart, Part.literal?, hp, hcont, hopen]

/-- Pieces that a line opens, added one after the other, come out as so many literals. Only if none
of them has content can the literal that was pending hide the last. -/
theorem foldl_addPart (h : Cut.OpensInto mode (ps.map Part.piece))
    (hpending : mode.isVerbatim = true → a.pending = none ∨ ps.any Part.hasContent = true) :
    (ps.foldl addPart a).settleIn mode = (ps.foldl noteNew a).settleIn mode := by
  induction ps generalizing a with
  | nil => rfl
  | cons p ps ih =>
    obtain ⟨-, hcont, hend⟩ := h
    rw [List.foldl_cons, List.foldl_cons]
    cases hp : p.hasContent with
    | false =>
      rw [addPart_of_not_hasContent hp]
      have hnew : a.noteNew p = a.flush := by simp [noteNew, Part.literal?, hp]
      rw [hnew]
      split at hend
      · -- Nothing follows a piece that is left open.
        obtain ⟨hnil, rfl, hverbatim⟩ := hend
        obtain rfl := List.map_eq_nil_iff.1 hnil
        have : a.pending = none := by simpa [hp] using hpending hverbatim
        rw [flush_of_pending_eq_none this]
        rfl
      · rw [foldl_noteNew_flush hend]
        exact ih hend (by simpa [hp] using hpending)
    | true =>
      have hadd : a.addPart p = if p.piece.openAtEnd then a.noteNew p else (a.noteNew p).flush := by
        simp [addPart, noteNew, hp, hcont]
      rw [hadd]
      split at hend
      · next hopen =>
        obtain ⟨hnil, -, -⟩ := hend
        obtain rfl := List.map_eq_nil_iff.1 hnil
        rw [if_pos hopen]
        rfl
      · next hopen =>
        rw [if_neg hopen, ih hend (fun _ => .inl rfl), foldl_noteNew_flush hend]

theorem foldl_addPart_of_not_any (h : ps.any Part.hasContent = false) : ps.foldl addPart a = a := by
  induction ps with
  | nil => rfl
  | cons p ps ih =>
    rw [List.any_cons, Bool.or_eq_false_iff] at h
    rw [List.foldl_cons, addPart_of_not_hasContent h.1, ih h.2]

end

def ofOpened : List Opened → Assembly
  | [] => .empty
  | o :: os => (ofOpened os).note o

section

variable {mode : Mode} {os : List Opened} {ps : List Part}

theorem ofOpened_goOn (o : Opened) (p : Part) (os : List Opened) :
    ofOpened (o.goOn p :: os) = (ofOpened (o :: os)).extend p.literal? := by
  rw [ofOpened, note, Opened.joined_goOn, ← extend_extend]
  rfl

theorem ofOpened_append (os os' : List Opened) :
    ofOpened (os.reverse ++ os') = os.foldl note (ofOpened os') := by
  induction os generalizing os' with
  | nil => rfl
  | cons o os ih =>
    rw [List.reverse_cons, List.append_assoc, List.singleton_append, ih]
    rfl

theorem ofOpened_append_noticed (ps : List Part) (os : List Opened) :
    ofOpened ((ps.map (.new false)).reverse ++ os) = ps.foldl noteNew (ofOpened os) := by
  rw [ofOpened_append, List.foldl_map]
  congr 1
  funext a p
  simp [note, noteNew, Opened.joined, Opened.parts, Opened.new]

theorem ofOpened_append_unnoticed (h : ps.any Part.hasContent = false) (os : List Opened) :
    ofOpened ((ps.map (.new true)).reverse ++ os) = ofOpened os := by
  rw [ofOpened_append, List.foldl_map]
  induction ps with
  | nil => rfl
  | cons p ps ih =>
    rw [List.any_cons, Bool.or_eq_false_iff] at h
    have hp : (ofOpened os).note (.new true p) = ofOpened os := by
      simp [note, Opened.joined, Opened.parts, Opened.new, Part.literal?, h.1]
    rw [List.foldl_cons, hp, ih h.2]

theorem foldl_addPart_of_closed {o : Opened} {p : Part} (hcont : p.piece.continued = true)
    (hclosed : p.piece.openAtEnd = false) (h : Cut.OpensInto mode (ps.map Part.piece)) :
    (ps.foldl addPart ((ofOpened (o :: os)).addPart p)).settleIn mode =
      (ofOpened ((ps.map (.new (mode.isVerbatim && !(p :: ps).any Part.hasContent))).reverse ++
        o.goOn p :: os)).settleIn mode := by
  cases hp : p.hasContent with
  | true =>
    have hadd : (ofOpened (o :: os)).addPart p = (ofOpened (o.goOn p :: os)).flush := by
      simp [addPart, hp, hcont, hclosed, ofOpened_goOn]
    rw [hadd, foldl_addPart h (fun _ => .inl rfl), foldl_noteNew_flush h]
    simp [hp, ofOpened_append_noticed]
  | false =>
    have hgoOn : ofOpened (o.goOn p :: os) = ofOpened (o :: os) := by
      simp [ofOpened_goOn, Part.literal?, hp]
    rw [addPart_of_not_hasContent hp, List.any_cons, hp, Bool.false_or]
    cases hhidden : mode.isVerbatim && !ps.any Part.hasContent with
    | true =>
      -- Closed and opened again with no content: the assembly stays as it is.
      have hany : ps.any Part.hasContent = false := by simp_all
      rw [foldl_addPart_of_not_any hany, ofOpened_append_unnoticed hany, hgoOn]
    | false =>
      rw [ofOpened_append_noticed, hgoOn]
      apply foldl_addPart h
      intro hmode
      exact .inr (by simpa [hmode] using hhidden)

theorem addLine_ofOpened {limit : Nat} (h : WellOpened limit mode os) (l : Line) :
    ((ofOpened os).settleIn mode).addLine l.start (scanLine mode l.text) =
      (ofOpened (openLine mode os l)).settleIn (nextMode mode l.text) := by
  rw [addLine_scanLine]
  cases hmode : mode.isVerbatim with
  | false =>
    have hinto := opensInto_partsOf hmode l
    have hsettle : (ofOpened os).settleIn mode = (ofOpened os).flush := by
      simp [settleIn, hmode]
    rw [hsettle, openLine_of_isVerbatim_eq_false hmode, ofOpened_append_noticed,
      foldl_addPart hinto (fun _ => .inl rfl), foldl_noteNew_flush hinto]
  | true =>
    obtain ⟨o, os, rfl, rfl⟩ := h.continues hmode
    obtain ⟨p, ps, hparts, -, -, hcont, hend⟩ := exists_partsOf hmode l
    have hsettle : (ofOpened (o :: os)).settleIn (.string o.opening.piece.kind) =
        ofOpened (o :: os) := by
      simp [settleIn, hmode]
    rw [hsettle, openLine_cons hmode hparts, hparts, List.foldl_cons]
    rcases hend with ⟨hopen, rfl, -⟩ | ⟨hclosed, hinto⟩
    · -- The whole line belongs to the literal that goes on.
      rw [List.map_nil, List.reverse_nil, List.nil_append, ofOpened_goOn, List.foldl_nil,
        addPart_of_continued hcont hopen]
    · exact foldl_addPart_of_closed hcont hclosed hinto

end

theorem isBehind_of_le {query : Range} {start start' : Nat} (h : isBehind query start = true)
    (hle : start ≤ start') : isBehind query start' = true := by
  unfold isBehind at *
  split at h <;> simp_all <;> omega

theorem gather_ofOpened {query : Range} {limit : Nat} {mode : Mode} {os : List Opened}
    {ls : List Line} (h : WellOpened limit mode os) (hls : ∀ l ∈ ls, l.stop ≤ limit)
    (hsorted : ls.Pairwise (·.start ≤ ·.start))
    (hbehind : ∀ l ∈ ls, isBehind query l.start = true → l.text = []) :
    (gather query mode ((ofOpened os).settleIn mode) ls).flush =
      (ofOpened (openedFrom mode os ls)).flush := by
  induction ls generalizing mode os with
  | nil =>
    rw [gather, openedFrom, settleIn]
    split <;> simp
  | cons l ls ih =>
    rw [gather]
    split
    next hstop =>
      simp only [Bool.and_eq_true, Bool.not_eq_true'] at hstop
      have htext : ∀ l' ∈ l :: ls, l'.text = [] := by
        intro l' hl'
        apply hbehind l' hl'
        rcases List.mem_cons.1 hl' with rfl | hlater
        · exact hstop.1
        · exact isBehind_of_le hstop.1 (List.rel_of_pairwise_cons hsorted hlater)
      rw [openedFrom_of_text_eq_nil hstop.2 os htext]
      simp [settleIn, hstop.2]
    next =>
      change (gather query (nextMode mode l.text)
        (((ofOpened os).settleIn mode).addLine l.start (scanLine mode l.text)) ls).flush = _
      rw [addLine_ofOpened h l]
      apply ih (h.openLine (hls l List.mem_cons_self))
      · intro l' hl'
        exact hls l' (List.mem_cons_of_mem _ hl')
      · exact hsorted.of_cons
      · intro l' hl'
        exact hbehind l' (List.mem_cons_of_mem _ hl')

end Assembly

end SqlHighlight.Literal
