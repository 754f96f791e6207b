import SqlHighlight.Proofs.Seams
import SqlHighlight.Proofs.Separation
import SqlHighlight.Proofs.Written

namespace SqlHighlight.Literal

namespace Content

/-- Content that leaves a string open, and that is read as it stands whatever follows it. -/
def GoesOn (k : StringKind) (cs : List Char) : Prop :=
  ∀ rest, read k (cs ++ rest) =
    ⟨(read k cs).segments ++ (read k rest).segments, (read k rest).rest⟩

section

variable {k : StringKind} {cs : List Char}

theorem goesOn_nil (k : StringKind) : GoesOn k [] := by
  intro rest
  simp [read]

theorem GoesOn.append (h : GoesOn k cs) {s : Segment} (hs : s.StandsAlone k) :
    GoesOn k (s.chars ++ cs) := by
  intro rest
  rw [List.append_assoc, hs.read_append, hs.read_append, h rest]
  rfl

theorem GoesOn.rest_eq_none (h : GoesOn k cs) : (read k cs).rest = none := by
  have heq := congrArg rest (h [])
  rwa [List.append_nil, read] at heq

theorem GoesOn.chars_read (h : GoesOn k cs) : (read k cs).chars = cs := by
  have heq := append_read k cs
  rw [h.rest_eq_none] at heq
  simpa using heq

theorem GoesOn.read_quote (h : GoesOn k cs) {rest : List Char}
    (hrest : k.verbatim = true → rest.head? ≠ some '"') :
    read k (cs ++ '"' :: rest) = ⟨(read k cs).segments, some rest⟩ := by
  rw [h, read_of_leave (StringKind.move_quote hrest), List.append_nil]
  rfl

end

end Content

def linePart (k : StringKind) (l : Line) : Part :=
  ⟨l.start, ⟨k, (Content.read k l.text).segments, true, true⟩⟩

section

variable {k : StringKind} {a : Segment} {as : List Segment}

theorem holes_linePart_of_text_eq_nil {l : Line} (h : l.text = []) : (linePart k l).holes = [] := by
  rw [linePart, h, Content.read]
  rfl

theorem text_chars_append (ha : a.StandsAlone k) (hfeed : '\n' ∉ a.chars) (l : List Char) :
    (Text.splitEnding (a.chars ++ l)).1 = a.chars ++ (Text.splitEnding l).1 ∨
      a = .text ['\r'] ∧ l = ['\n'] := by
  by_cases hreturn : a.chars.getLast? = some '\r'
  · obtain rfl := ha.eq_of_getLast? hreturn
    by_cases hl : l = ['\n']
    · exact .inr ⟨rfl, hl⟩
    · rw [Segment.chars, List.singleton_append, Text.splitEnding_cons (by decide) fun _ => hl]
      exact .inl rfl
  · rw [Text.splitEnding_append hfeed hreturn]
    exact .inl rfl

theorem goesOn_text_chars_append (ha : a.StandsAlone k) (hfeed : '\n' ∉ a.chars) {l : List Char}
    (h : Content.GoesOn k (Text.splitEnding l).1) :
    Content.GoesOn k (Text.splitEnding (a.chars ++ l)).1 := by
  rcases text_chars_append ha hfeed l with heq | ⟨rfl, rfl⟩
  · rw [heq]
    exact h.append ha
  · exact h

theorem holes_text_chars_append (ha : a.StandsAlone k) (hfeed : '\n' ∉ a.chars) (l : List Char)
    (start : Nat) :
    Segment.holes start (Content.read k (Text.splitEnding (a.chars ++ l)).1).segments =
      Segment.holes start [a] ++ Segment.holes (start + Text.width a.chars)
        (Content.read k (Text.splitEnding l).1).segments := by
  rcases text_chars_append ha hfeed l with heq | ⟨rfl, rfl⟩
  · rw [heq, ha.read_append, Content.cons, ← List.singleton_append, Segment.holes_append,
      List.flatMap_singleton]
  · simp [Segment.chars, Text.splitEnding, Content.read, Segment.holes]

theorem goesOn_place (has : ∀ a ∈ as, a.StandsAlone k) (number start : Nat) :
    (∀ l ∈ Line.place number start (Text.cutLines (as.flatMap Segment.chars)),
        Content.GoesOn k l.text) ∧
      (Line.place number start (Text.cutLines (as.flatMap Segment.chars))).flatMap
        (fun l => (linePart k l).holes) = Segment.holes start as := by
  induction as generalizing number start with
  | nil =>
    refine ⟨List.forall_mem_singleton.2 (Content.goesOn_nil k), ?_⟩
    exact List.flatMap_eq_nil_iff.2 (List.forall_mem_singleton.2 (holes_linePart_of_text_eq_nil rfl))
  | cons a as ih =>
    obtain ⟨ha, hrest⟩ := List.forall_mem_cons.1 has
    rw [List.flatMap_cons, ← List.singleton_append (l := as), Segment.holes_append,
      List.flatMap_singleton]
    by_cases hfeed : '\n' ∈ a.chars
    · -- A line feed is a segment of its own, and ends a line without text.
      obtain ⟨-, rfl⟩ := ha.eq_of_feed_mem hfeed
      obtain ⟨hgoesOn, hholes⟩ := ih hrest (number + 1) (start + Text.width ['\n'])
      rw [Segment.chars, List.singleton_append, Text.cutLines_feed, Line.place, List.flatMap_cons,
        holes_linePart_of_text_eq_nil rfl, hholes]
      exact ⟨List.forall_mem_cons.2 ⟨Content.goesOn_nil k, hgoesOn⟩, rfl⟩
    · -- Any other segment is put before the first of the lines that follow.
      rw [Text.cutLines_append_of_feed_not_mem hfeed]
      obtain ⟨hgoesOn, hholes⟩ := ih hrest number (start + Text.width a.chars)
      cases hlines : Text.cutLines (as.flatMap Segment.chars) with
      | nil => exact absurd hlines (Text.cutLines_ne_nil _)
      | cons l ls =>
        rw [hlines, Line.place] at hgoesOn hholes
        rw [Text.prepend, Line.place, List.flatMap_cons]
        obtain ⟨hfirst, hlater⟩ := List.forall_mem_cons.1 hgoesOn
        rw [Text.width_append, ← Nat.add_assoc, ← hholes, List.flatMap_cons, ← List.append_assoc]
        constructor
        · exact List.forall_mem_cons.2 ⟨goesOn_text_chars_append ha hfeed hfirst, hlater⟩
        · congr 1
          exact holes_text_chars_append ha hfeed l start

theorem verbatim_of_cutLines (has : ∀ a ∈ as, a.StandsAlone k) {init : List (List Char)}
    {last : List Char} (h : Text.cutLines (as.flatMap Segment.chars) = init ++ [last])
    (hinit : init ≠ []) : k.verbatim = true := by
  have hlength := Text.length_cutLines (as.flatMap Segment.chars)
  rw [h, List.length_append, List.length_singleton, Nat.add_right_cancel_iff] at hlength
  have hcount : 0 < (as.flatMap Segment.chars).count '\n' := by
    rw [← hlength]
    exact List.length_pos_iff.2 hinit
  obtain ⟨a, ha, hmem⟩ := List.mem_flatMap.1 (List.count_pos_iff.1 hcount)
  exact ((has a ha).eq_of_feed_mem hmem).1

theorem hasContent_linePart {l : Line} (h : Content.GoesOn k l.text) :
    (linePart k l).hasContent = !l.text.isEmpty := by
  have hwidth : (linePart k l).piece.width = Text.width l.text := congrArg Text.width h.chars_read
  rw [Part.hasContent, hwidth, Bool.eq_iff_iff]
  simp

theorem stop_linePart {l : Line} (h : Content.GoesOn k l.text) : (linePart k l).stop = l.stop :=
  congrArg (l.start + Text.width ·) h.chars_read

theorem joinAll_linePart {ls : List Line} (h : ∀ l ∈ ls, Content.GoesOn k l.text) :
    joinAll (ls.map fun l => (linePart k l).literal?) =
      (Line.span? ls).map fun range =>
        ⟨range, k.interpolated, ls.flatMap fun l => (linePart k l).holes⟩ := by
  have hread : ∀ p ∈ ls.map (linePart k), p.piece.IsRead ∧ p.piece.kind = k := by
    rw [List.forall_mem_map]
    exact fun l _ => ⟨⟨_, rfl⟩, rfl⟩
  have hfilter : (ls.map (linePart k)).filter Part.hasContent =
      (ls.filter (!·.text.isEmpty)).map (linePart k) := by
    rw [List.filter_map]
    congr 1
    exact List.filter_congr fun l hl => hasContent_linePart (h l hl)
  have hjoin := joinAll_map_literal? hread
  rw [List.map_map, List.flatMap_map, hfilter] at hjoin
  refine hjoin.trans ?_
  rw [Line.span?]
  cases hls : ls.filter (!·.text.isEmpty) with
  | nil => rfl
  | cons first rest =>
    have hmem : rest.getLastD first ∈ ls := by
      have hlast : rest.getLastD first ∈ ls.filter (!·.text.isEmpty) := by
        rw [hls]
        exact List.getLastD_mem_cons
      exact List.mem_of_mem_filter hlast
    simp only [List.map_cons, getLastD_map, stop_linePart (h _ hmem), Option.map_some]
    rfl

end

end SqlHighlight.Literal
