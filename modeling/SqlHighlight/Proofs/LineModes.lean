import SqlHighlight.Literal.Tagger
import SqlHighlight.Proofs.Lines

/-! Line modes under edits. A mode is current if scanning its line from the mode before it gives
it. The modes of a full scan are those that are current at every line; resizing keeps what is
current outside the edited lines, and rescanning makes the edited lines current and spoils none. -/

namespace SqlHighlight

open Literal (LineModes)

namespace Literal.LineModes

def scanFrom (mode : Mode) : List Line → LineModes
  | [] => []
  | l :: ls => let next := nextMode mode l.text; next :: scanFrom next ls

def ofLines (ls : List Line) : LineModes := scanFrom .code ls

/-- The mode of a line, if it has one, is what scanning the line gives. The mode before the first
line is given, so that what holds of some modes carries over to a part of them. -/
def CurrentFrom (mode : Mode) (modes : LineModes) (texts : List (List Char)) (i : Nat) : Prop :=
  ∀ text m, texts[i]? = some text → modes[i]? = some m →
    m = nextMode (((mode :: modes)[i]?).getD .code) text

section

variable {mode m : Mode} {modes ms ns : LineModes} {l : Line} {ls : List Line}
  {text : List Char} {texts : List (List Char)} {i n : Nat}

@[simp] theorem currentFrom_cons_succ :
    CurrentFrom mode (m :: ms) (text :: texts) (i + 1) ↔ CurrentFrom m ms texts i :=
  Iff.rfl

@[simp] theorem currentFrom_cons_zero :
    CurrentFrom mode (m :: ms) (text :: texts) 0 ↔ m = nextMode mode text := by
  simp [CurrentFrom]

@[simp] theorem currentFrom_nil : CurrentFrom mode ms [] i := by
  intro text m h
  simp at h

@[simp] theorem currentFrom_empty : CurrentFrom mode [] texts i := by
  intro text m _ h
  simp at h

theorem currentFrom_append_left (h : i < ms.length) :
    CurrentFrom mode (ms ++ ns) texts i ↔ CurrentFrom mode ms texts i := by
  induction ms generalizing mode texts i with
  | nil => simp at h
  | cons m ms ih =>
    cases texts with
    | nil => simp
    | cons text texts =>
      cases i with
      | zero => simp
      | succ i => simpa using ih (by simpa using h)

theorem currentFrom_append_right (h : ms.length = n) :
    CurrentFrom mode (ms ++ ns) texts (n + i) ↔
      CurrentFrom (ms.getLastD mode) ns (texts.drop n) i := by
  subst h
  induction ms generalizing mode texts with
  | nil => simp
  | cons m ms ih =>
    cases texts with
    | nil => simp
    | cons text texts =>
      rw [List.length_cons, Nat.add_right_comm, List.cons_append, currentFrom_cons_succ, ih,
        List.drop_succ_cons, List.getLastD_cons]

theorem currentFrom_append_cons (h : ms.length = n) :
    CurrentFrom mode (ms ++ m :: ns) texts (n + 1 + i) ↔
      CurrentFrom m ns (texts.drop (n + 1)) i := by
  have hlen : (ms ++ [m]).length = n + 1 := by simp [h]
  have : CurrentFrom mode ((ms ++ [m]) ++ ns) texts (n + 1 + i) ↔ _ := currentFrom_append_right hlen
  simpa using this

theorem currentFrom_take_congr {texts' : List (List Char)} (h : texts.take n = texts'.take n)
    (hi : i < n) : CurrentFrom mode ms texts i ↔ CurrentFrom mode ms texts' i := by
  have : texts[i]? = texts'[i]? := by
    rw [← List.getElem?_take_of_lt hi, h, List.getElem?_take_of_lt hi]
  simp only [CurrentFrom, this]

theorem length_scanFrom : (scanFrom mode ls).length = ls.length := by
  induction ls generalizing mode with
  | nil => rfl
  | cons l ls ih => simp [scanFrom, ih]

theorem currentFrom_scanFrom (i : Nat) :
    CurrentFrom mode (scanFrom mode ls) (ls.map Line.text) i := by
  induction ls generalizing mode i with
  | nil => simp
  | cons l ls ih =>
    cases i with
    | zero => simp [scanFrom]
    | succ i => simpa [scanFrom] using ih i

theorem eq_scanFrom (hlen : ms.length = ls.length)
    (h : ∀ i, CurrentFrom mode ms (ls.map Line.text) i) : ms = scanFrom mode ls := by
  induction ls generalizing mode ms with
  | nil => simpa [scanFrom] using hlen
  | cons l ls ih =>
    cases ms with
    | nil => simp at hlen
    | cons m ms =>
      have hm : m = nextMode mode l.text := by simpa using h 0
      have hms : ms = scanFrom m ls := ih (by simpa using hlen) fun i => by simpa using h (i + 1)
      rw [scanFrom, ← hm, ← hms]

end

section

variable {mode : Mode} {modes : LineModes} {ls : List Line} {dirty first last i : Nat}
  {changed : Bool}

@[simp] theorem settle_nil : (settle dirty changed mode ls []).1 = [] := by
  cases ls <;> rfl

@[simp] theorem length_settle : (settle dirty changed mode ls modes).1.length = modes.length := by
  induction ls generalizing dirty changed mode modes with
  | nil => rfl
  | cons l ls ih =>
    cases modes with
    | nil => rfl
    | cons m ms =>
      rw [settle]
      split
      · rfl
      · simp [ih]

/-- Settling from a mode in place of a stale one. A line that is neither dirty nor reached by a
change keeps the mode before it, and so stays current. -/
theorem currentFrom_settle (stale : Mode) (hstale : changed = false → stale = mode)
    (h : i < dirty ∨ CurrentFrom stale modes (ls.map Line.text) i) :
    CurrentFrom mode (settle dirty changed mode ls modes).1 (ls.map Line.text) i := by
  induction ls generalizing dirty changed mode stale modes i with
  | nil => simp
  | cons l ls ih =>
    cases modes with
    | nil => simp
    | cons m ms =>
      rw [settle]
      split
      next hstop =>
        simp only [Bool.and_eq_true, decide_eq_true_eq, Bool.not_eq_true'] at hstop
        rw [hstale hstop.2] at h
        exact h.resolve_left (by omega)
      next =>
        cases i with
        | zero => simp
        | succ i =>
          -- The mode just replaced is the stale one for the lines below.
          apply ih m
          · intro hnext
            exact (bne_eq_false_iff_eq.1 hnext).symm
          · rcases h with hlt | hcur
            · exact .inl (by omega)
            · exact .inr (by simpa using hcur)

theorem before_eq_getLastD (h : first ≤ modes.length) :
    modes.before first = (modes.take first).getLastD .code := by
  cases first with
  | zero => rfl
  | succ n =>
    rw [before, List.getLastD_eq_getLast?, List.getLast?_take]
    simp [List.getElem?_eq_getElem h]

@[simp] theorem length_rescan : (modes.rescan ls first last).1.length = modes.length := by
  simp only [rescan, List.length_append, length_settle, List.length_take, List.length_drop]
  omega

theorem currentFrom_rescan (hfirst : first ≤ modes.length)
    (h : first ≤ i ∧ i ≤ last ∨ CurrentFrom .code modes (ls.map Line.text) i) :
    CurrentFrom .code (modes.rescan ls first last).1 (ls.map Line.text) i := by
  have hlen : (modes.take first).length = first := List.length_take_of_le hfirst
  rw [← List.take_append_drop first modes] at h
  simp only [rescan]
  by_cases hi : i < first
  · rw [currentFrom_append_left (by omega)] at h ⊢
    exact h.resolve_left (by omega)
  · obtain ⟨j, rfl⟩ : ∃ j, i = first + j := ⟨i - first, by omega⟩
    rw [currentFrom_append_right hlen] at h
    rw [currentFrom_append_right hlen, before_eq_getLastD hfirst, ← List.map_drop]
    apply currentFrom_settle ((modes.take first).getLastD .code) fun _ => rfl
    rcases h with hdirty | hcur
    · exact .inl (by omega)
    · exact .inr (by rwa [List.map_drop])

end

theorem length_build : (build ls).length = ls.length := by simp [build]

theorem build_eq (ls : List Line) : build ls = ofLines ls := by
  apply eq_scanFrom length_build
  intro i
  apply currentFrom_rescan (Nat.zero_le _)
  rcases Nat.lt_or_ge i ls.length with hlt | hge
  · exact .inl ⟨Nat.zero_le i, Nat.le_sub_one_of_lt hlt⟩
  · right
    intro text m htext
    rw [List.getElem?_eq_none (by simpa using hge)] at htext
    cases htext

section

variable {modes : LineModes} {old new : List (List Char)} {line removed i : Nat} (added : Nat)

theorem exists_resize_eq (h : line + removed ≤ modes.length) :
    ∃ room : LineModes, room.length = added ∧
      modes.resize line ((added : Int) - removed) =
        modes.take line ++ (room ++ modes.drop (line + removed)) := by
  have hsplit : ∀ n k, modes.drop n = (modes.drop n).take k ++ modes.drop (n + k) := by
    intro n k
    rw [← List.drop_drop, List.take_append_drop]
  rcases Nat.lt_trichotomy removed added with hlt | heq | hgt
  · refine ⟨List.replicate (added - removed) .code ++ (modes.drop line).take removed, ?_, ?_⟩
    · simp only [List.length_append, List.length_replicate, List.length_take, List.length_drop]
      omega
    · rw [resize, if_pos (by omega), show ((added : Int) - removed).natAbs = added - removed by omega,
        List.append_assoc, List.append_assoc, ← hsplit]
  · refine ⟨(modes.drop line).take removed, ?_, ?_⟩
    · simp only [List.length_take, List.length_drop]
      omega
    · rw [resize, if_neg (by omega), if_neg (by omega), ← hsplit, List.take_append_drop]
  · refine ⟨(modes.drop (line + (removed - added))).take added, ?_, ?_⟩
    · simp only [List.length_take, List.length_drop]
      omega
    · rw [resize, if_neg (by omega), if_pos (by omega),
        show ((added : Int) - removed).natAbs = removed - added by omega,
        show line + removed = line + (removed - added) + added by omega, ← hsplit]

theorem length_resize (h : line + removed ≤ modes.length) :
    (modes.resize line ((added : Int) - removed)).length + removed = modes.length + added := by
  obtain ⟨room, hroom, heq⟩ := exists_resize_eq added h
  rw [heq]
  simp only [List.length_append, List.length_take, List.length_drop, hroom]
  omega

theorem currentFrom_resize_left (h : line + removed ≤ modes.length)
    (htake : new.take line = old.take line) (hi : i < line) (hcur : CurrentFrom .code modes old i) :
    CurrentFrom .code (modes.resize line ((added : Int) - removed)) new i := by
  obtain ⟨room, -, heq⟩ := exists_resize_eq added h
  have hline : (modes.take line).length = line := List.length_take_of_le (by omega)
  rw [← List.take_append_drop line modes, currentFrom_append_left (by omega)] at hcur
  rwa [heq, currentFrom_append_left (by omega), currentFrom_take_congr htake hi]

theorem currentFrom_resize_right (h : line + removed < modes.length)
    (hdrop : new.drop (line + added + 1) = old.drop (line + removed + 1))
    (hcur : CurrentFrom .code modes old (line + removed + 1 + i)) :
    CurrentFrom .code (modes.resize line ((added : Int) - removed)) new (line + added + 1 + i) := by
  obtain ⟨room, hroom, heq⟩ := exists_resize_eq added (Nat.le_of_lt h)
  have hline : (modes.take line).length = line := List.length_take_of_le (by omega)
  have hlast := List.drop_eq_getElem_cons h
  rw [← List.take_append_drop (line + removed) modes, hlast,
    currentFrom_append_cons (List.length_take_of_le (by omega)), ← hdrop] at hcur
  rwa [heq, hlast, ← List.append_assoc, currentFrom_append_cons (by simp [hline, hroom])]

end

theorem currentFrom_resize_lines {modes : LineModes} {Stale : Nat → Prop}
    {before removed after : List Char} (inserted : List Char)
    (hlen : modes.length = (before ++ (removed ++ after)).count '\n' + 1)
    (hstale : ∀ i, Stale i → i ≤ before.count '\n')
    (hcur : ∀ i, Stale i ∨
      CurrentFrom .code modes ((Text.lines (before ++ (removed ++ after))).map Line.text) i) (i : Nat) :
    Stale i ∨ before.count '\n' ≤ i ∧ i ≤ (before ++ inserted).count '\n' ∨
      CurrentFrom .code
        (modes.resize (before.count '\n') ((inserted.count '\n' : Int) - removed.count '\n'))
        ((Text.lines (before ++ (inserted ++ after))).map Line.text) i := by
  have hedited : before.count '\n' + removed.count '\n' < modes.length := by
    simp only [hlen, List.count_append]
    omega
  rw [List.count_append]
  rcases Nat.lt_or_ge i (before.count '\n') with hlt | hge
  · apply (hcur i).imp_right
    intro hi
    right
    apply currentFrom_resize_left _ (Nat.le_of_lt hedited) _ hlt hi
    exact Text.take_texts_append _ _ _
  · rcases Nat.lt_or_ge (before.count '\n' + inserted.count '\n') i with hgt | hle
    · right; right
      obtain ⟨j, rfl⟩ := Nat.exists_eq_add_of_lt hgt
      rw [Nat.add_right_comm]
      apply currentFrom_resize_right _ hedited
      · have := Text.drop_texts_append (before ++ inserted) (before ++ removed) after
        simpa using this
      · apply (hcur _).resolve_left
        intro hj
        have := hstale _ hj
        omega
    · exact .inr (.inl ⟨hge, hle⟩)

theorem length_resize_lines {modes : LineModes} {before removed after : List Char}
    (inserted : List Char) (hlen : modes.length = (before ++ (removed ++ after)).count '\n' + 1) :
    (modes.resize (before.count '\n') ((inserted.count '\n' : Int) - removed.count '\n')).length =
      (before ++ (inserted ++ after)).count '\n' + 1 := by
  simp only [List.count_append] at hlen ⊢
  have hedited : before.count '\n' + removed.count '\n' ≤ modes.length := by omega
  have := length_resize (inserted.count '\n') hedited
  omega

theorem length_ofLines (cs : List Char) : (ofLines (Text.lines cs)).length = cs.count '\n' + 1 := by
  rw [ofLines, length_scanFrom, Text.length_lines]

theorem rescan_resize_ofLines (before removed inserted after : List Char) :
    (((ofLines (Text.lines (before ++ (removed ++ after)))).resize (before.count '\n')
        ((inserted.count '\n' : Int) - removed.count '\n')).rescan
      (Text.lines (before ++ (inserted ++ after))) (before.count '\n')
      ((before ++ inserted).count '\n')).1 =
    ofLines (Text.lines (before ++ (inserted ++ after))) := by
  have hlen := length_ofLines (before ++ (removed ++ after))
  have hsize := length_resize_lines inserted hlen
  apply eq_scanFrom
  · rw [length_rescan, hsize, Text.length_lines]
  · intro i
    apply currentFrom_rescan
    · simp only [hsize, List.count_append]
      omega
    · have := currentFrom_resize_lines inserted hlen (fun _ => False.elim)
        (fun j => .inr (currentFrom_scanFrom j)) i
      exact this.resolve_left id

end Literal.LineModes

theorem Tagger.literals_ofRevision_self (r : Revision) (query : Range) :
    (ofRevision r).literals r query = (LineModes.ofLines r.lines).literals r.lines query := by
  rw [literals, if_pos (by rfl), ofRevision, LineModes.build_eq]

end SqlHighlight
