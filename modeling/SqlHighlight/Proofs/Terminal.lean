import Mathlib.Data.Finset.Dedup
import Mathlib.Data.Finset.Lattice.Lemmas
import Mathlib.Data.Finset.SDiff
import SqlHighlight.Style.Basic

namespace SqlHighlight

def Hue.ofIndex? : Nat → Option Hue
  | 0 => some .black
  | 1 => some .red
  | 2 => some .green
  | 3 => some .yellow
  | 4 => some .blue
  | 5 => some .magenta
  | 6 => some .cyan
  | 7 => some .white
  | _ => none

inductive Layer
  | foreground
  | background

def Layer.base : Layer → Nat
  | .foreground => 30
  | .background => 40

/-- The attributes that a terminal shows characters with. -/
structure Pen where
  foreground : Option Color := none
  background : Option Color := none
  modifiers : Finset Modifier := ∅
  deriving DecidableEq

namespace Pen

def reset : Pen := {}

def color (p : Pen) : Layer → Option Color
  | .foreground => p.foreground
  | .background => p.background

def paint (p : Pen) (color : Option Color) : Layer → Pen
  | .foreground => { p with foreground := color }
  | .background => { p with background := color }

def add (p : Pen) (m : Modifier) : Pen := { p with modifiers := insert m p.modifiers }

def remove (p : Pen) (ms : Finset Modifier) : Pen := { p with modifiers := p.modifiers \ ms }

def hue? (layer : Layer) (code : Nat) : Option Color :=
  if layer.base + 60 ≤ code then (Hue.ofIndex? (code - (layer.base + 60))).map (.hue true)
  else if layer.base ≤ code then (Hue.ofIndex? (code - layer.base)).map (.hue false)
  else none

def apply (p : Pen) : Nat → Pen
  | 0 => reset
  | 1 => p.add .bold
  | 2 => p.add .dim
  | 3 => p.add .italic
  | 4 => p.add .underlined
  | 5 => p.add .slowBlink
  | 6 => p.add .rapidBlink
  | 7 => p.add .reversed
  | 8 => p.add .hidden
  | 9 => p.add .crossedOut
  | 22 => p.remove {.bold, .dim}
  | 23 => p.remove {.italic}
  | 24 => p.remove {.underlined}
  | 25 => p.remove {.slowBlink, .rapidBlink}
  | 27 => p.remove {.reversed}
  | 28 => p.remove {.hidden}
  | 29 => p.remove {.crossedOut}
  | 39 => p.paint none .foreground
  | 49 => p.paint none .background
  | code =>
    match hue? .foreground code, hue? .background code with
    | some c, _ => p.paint (some c) .foreground
    | none, some c => p.paint (some c) .background
    | none, none => p

/-- What codes do one after the other. The code for a colour that is not a hue takes those behind it
along. -/
def set (p : Pen) : List Nat → Pen
  | [] => p
  | 38 :: 2 :: r :: g :: b :: codes => (p.paint (some (.rgb r g b)) .foreground).set codes
  | 38 :: 5 :: i :: codes => (p.paint (some (.indexed i)) .foreground).set codes
  | 48 :: 2 :: r :: g :: b :: codes => (p.paint (some (.rgb r g b)) .background).set codes
  | 48 :: 5 :: i :: codes => (p.paint (some (.indexed i)) .background).set codes
  | code :: codes => (p.apply code).set codes

def supported : Finset Modifier := {.bold, .dim, .italic, .underlined, .reversed, .crossedOut}

def ofStyle (s : Style) : Pen where
  foreground := s.foreground.filter fun c => c ≠ .reset
  background := s.background.filter fun c => c ≠ .reset
  modifiers := s.modifiers.toFinset ∩ supported

theorem set_color {p : Pen} (layer : Layer) (h : p.color layer = none) (color : Option Color)
    (codes : List Nat) :
    p.set ((color.map (Ansi.colorCodes layer.base)).getD [] ++ codes) =
      (p.paint (color.filter fun c => c ≠ .reset) layer).set codes := by
  have hnone : p.paint none layer = p := by
    cases layer with
    | foreground => rw [paint, ← h]; rfl
    | background => rw [paint, ← h]; rfl
  cases color with
  | none => exact congrArg (set · codes) hnone.symm
  | some c =>
    cases c with
    | reset => exact congrArg (set · codes) hnone.symm
    | hue bright hue => cases layer <;> cases bright <;> cases hue <;> rfl
    | rgb r g b => cases layer <;> rfl
    | indexed i => cases layer <;> rfl

theorem set_modifiers {ms : List (Modifier × Nat)} (h : ms ⊆ Ansi.modifierCodes) (p : Pen)
    (codes : List Nat) :
    p.set (ms.map Prod.snd ++ codes) =
      { p with modifiers := p.modifiers ∪ (ms.map Prod.fst).toFinset }.set codes := by
  induction ms generalizing p with
  | nil => rw [List.map_nil, List.map_nil, List.toFinset_nil, Finset.union_empty, List.nil_append]
  | cons m ms ih =>
    obtain ⟨hm, hms⟩ := List.cons_subset.1 h
    have hadd : p.set (m.2 :: (ms.map Prod.snd ++ codes)) =
        (p.add m.1).set (ms.map Prod.snd ++ codes) := by
      simp only [Ansi.modifierCodes, List.mem_cons, List.not_mem_nil, or_false] at hm
      rcases hm with rfl | rfl | rfl | rfl | rfl | rfl <;> rfl
    rw [List.map_cons, List.cons_append, hadd, ih hms, List.map_cons, List.toFinset_cons,
      Finset.union_insert, ← Finset.insert_union]
    rfl

theorem set_codes (s : Style) : reset.set (Ansi.codes s) = ofStyle s := by
  have hmodifiers : ((Ansi.modifierCodes.filter fun m => s.modifiers.contains m.1).map
      Prod.fst).toFinset = s.modifiers.toFinset ∩ supported := by
    ext m
    cases m <;> simp [Ansi.modifierCodes, supported]
  calc
    reset.set (Ansi.codes s) = Pen.set ⟨none, none, s.modifiers.toFinset ∩ supported⟩
        ((s.foreground.map (Ansi.colorCodes 30)).getD [] ++
          (s.background.map (Ansi.colorCodes 40)).getD []) := by
      rw [Ansi.codes, List.append_assoc, set_modifiers (List.filter_subset_self _), reset,
        Finset.empty_union]
      exact congrArg (fun ms => set ⟨none, none, ms⟩ _) hmodifiers
    _ = Pen.set ⟨s.foreground.filter fun c => c ≠ .reset, none, s.modifiers.toFinset ∩ supported⟩
        ((s.background.map (Ansi.colorCodes 40)).getD [] ++ []) := by
      rw [List.append_nil]
      exact set_color .foreground rfl s.foreground _
    _ = ofStyle s := set_color .background rfl s.background []

end Pen

inductive Reading
  | text
  | escape
  | codes (done : List Nat) (next : Nat)

structure Terminal where
  pen : Pen := .reset
  reading : Reading := .text
  shown : List (Char × Pen) := []

namespace Terminal

def step (t : Terminal) (c : Char) : Terminal :=
  match t.reading with
  | .text =>
    if c = Ansi.escape then { t with reading := .escape }
    else { t with shown := t.shown ++ [(c, t.pen)] }
  | .escape => { t with reading := if c = '[' then .codes [] 0 else .text }
  | .codes done next =>
    if c.isDigit then { t with reading := .codes done (10 * next + (c.toNat - '0'.toNat)) }
    else if c = ';' then { t with reading := .codes (done ++ [next]) 0 }
    else if c = 'm' then { t with reading := .text, pen := t.pen.set (done ++ [next]) }
    else { t with reading := .text }

def run (t : Terminal) (cs : List Char) : Terminal := cs.foldl step t

@[simp] theorem run_nil (t : Terminal) : t.run [] = t := rfl

@[simp] theorem run_cons (t : Terminal) (c : Char) (cs : List Char) :
    t.run (c :: cs) = (t.step c).run cs :=
  rfl

theorem run_append (t : Terminal) (cs ds : List Char) : t.run (cs ++ ds) = (t.run cs).run ds :=
  List.foldl_append

section

variable {p : Pen} {shown : List (Char × Pen)}

theorem run_text {cs : List Char} (h : Ansi.escape ∉ cs) :
    run ⟨p, .text, shown⟩ cs = ⟨p, .text, shown ++ cs.map (·, p)⟩ := by
  induction cs generalizing shown with
  | nil => simp
  | cons c cs ih =>
    rw [List.mem_cons, not_or] at h
    have hstep : step ⟨p, .text, shown⟩ c = ⟨p, .text, shown ++ [(c, p)]⟩ := by
      simp [step, Ne.symm h.1]
    rw [run_cons, hstep, ih h.2, List.append_assoc, List.map_cons, List.singleton_append]

theorem run_digits {ds : List Char} (h : ∀ d ∈ ds, d.isDigit) (done : List Nat) (n : Nat) :
    run ⟨p, .codes done n, shown⟩ ds = ⟨p, .codes done (Nat.ofDigitChars 10 ds n), shown⟩ := by
  induction ds generalizing n with
  | nil => rfl
  | cons d ds ih =>
    obtain ⟨hd, hds⟩ := List.forall_mem_cons.1 h
    have hstep : step ⟨p, .codes done n, shown⟩ d =
        ⟨p, .codes done (10 * n + (d.toNat - '0'.toNat)), shown⟩ := by
      simp [step, hd]
    rw [run_cons, hstep, ih hds, Nat.ofDigitChars_cons]

theorem run_number (done : List Nat) (n : Nat) :
    run ⟨p, .codes done 0, shown⟩ (toString n).toList = ⟨p, .codes done n, shown⟩ := by
  rw [Nat.toString_eq_ofList_toDigits, String.toList_ofList,
    run_digits (fun _ => Nat.isDigit_of_mem_toDigits (by decide) (by decide)),
    Nat.ofDigitChars_ten_toDigits]

theorem run_codes {codes : List Nat} (h : codes ≠ []) (done : List Nat) :
    run ⟨p, .codes done 0, shown⟩
      ([';'].intercalate (codes.map fun n => (toString n).toList) ++ ['m']) =
        ⟨p.set (done ++ codes), .text, shown⟩ := by
  induction codes generalizing done with
  | nil => exact absurd rfl h
  | cons n codes ih =>
    cases codes with
    | nil =>
      rw [List.map_singleton, List.intercalate_singleton, run_append, run_number]
      rfl
    | cons m codes =>
      rw [List.map_cons, List.map_cons, List.intercalate_cons_cons, List.append_assoc,
        List.append_assoc, run_append, run_number, run_append]
      have hnext := ih (List.cons_ne_nil m codes) (done ++ [n])
      rw [List.append_assoc] at hnext
      exact hnext

theorem run_sequence {codes : List Nat} (h : codes ≠ []) :
    run ⟨p, .text, shown⟩ (Ansi.sequence codes) = ⟨p.set codes, .text, shown⟩ :=
  run_codes h []

end

end Terminal

def StyledText.cells (t : StyledText) : List (Char × Pen) := t.text.map (·, Pen.ofStyle t.style)

def StyledLine.cells (l : StyledLine) : List (Char × Pen) :=
  l.flatMap StyledText.cells ++ [('\n', .reset)]

theorem StyledLine.map_fst_cells (l : StyledLine) : l.cells.map Prod.fst = l.chars ++ ['\n'] := by
  simp [cells, chars, StyledText.cells, List.map_flatMap, Function.comp_def]

namespace Terminal

/-- A terminal that shows `f x` as `g x`, and is as before it then, shows them all one by one. -/
theorem run_flatMap {α : Type} {f : α → List Char} {g : α → List (Char × Pen)} {xs : List α}
    (h : ∀ x ∈ xs, ∀ shown, run ⟨.reset, .text, shown⟩ (f x) = ⟨.reset, .text, shown ++ g x⟩)
    (shown : List (Char × Pen)) :
    run ⟨.reset, .text, shown⟩ (xs.flatMap f) = ⟨.reset, .text, shown ++ xs.flatMap g⟩ := by
  induction xs generalizing shown with
  | nil => simp
  | cons x xs ih =>
    obtain ⟨hx, hxs⟩ := List.forall_mem_cons.1 h
    rw [List.flatMap_cons, run_append, hx, ih hxs, List.flatMap_cons, List.append_assoc]

theorem run_renderText {t : StyledText} (h : Ansi.escape ∉ t.text) (shown : List (Char × Pen)) :
    run ⟨.reset, .text, shown⟩ (Ansi.renderText t) = ⟨.reset, .text, shown ++ t.cells⟩ := by
  have hpen := Pen.set_codes t.style
  unfold Ansi.renderText
  split
  next hcodes =>
    rw [run_text h, StyledText.cells, ← hpen, hcodes]
    rfl
  next hcodes =>
    rw [run_append, run_append, run_sequence hcodes, hpen, run_text h,
      run_sequence (List.cons_ne_nil 0 [])]
    rfl

theorem run_renderLine {l : StyledLine} (h : ∀ t ∈ l, Ansi.escape ∉ t.text)
    (shown : List (Char × Pen)) :
    run ⟨.reset, .text, shown⟩ (Ansi.renderLine l) = ⟨.reset, .text, shown ++ l.cells⟩ := by
  rw [Ansi.renderLine, run_append, run_flatMap fun t ht => run_renderText (h t ht), run_text (by decide),
    List.append_assoc]
  rfl

theorem run_render {ls : List StyledLine} (h : ∀ l ∈ ls, ∀ t ∈ l, Ansi.escape ∉ t.text) :
    run {} (Ansi.render ls) = ⟨.reset, .text, ls.flatMap StyledLine.cells⟩ ∧
      (ls.flatMap StyledLine.cells).map Prod.fst = plainText ls := by
  constructor
  · exact run_flatMap (fun l hl => run_renderLine (h l hl)) []
  · simp only [List.map_flatMap, StyledLine.map_fst_cells, plainText]

theorem run_render_mixed :
    let ls : List StyledLine :=
      [[⟨"a[1m".toList, ⟨some (.rgb 86 156 214), some (.indexed 7), [.hidden, .bold, .dim, .bold]⟩⟩,
        ⟨"é".toList, .default⟩], [],
        [⟨";4".toList, ⟨some .reset, some (.hue true .red), [.crossedOut]⟩⟩]]
    (∀ l ∈ ls, ∀ t ∈ l, Ansi.escape ∉ t.text) ∧
      run {} (Ansi.render ls) = ⟨.reset, .text, ls.flatMap StyledLine.cells⟩ ∧
        (ls.flatMap StyledLine.cells).map Prod.fst = plainText ls := by
  intro ls
  have h : ∀ l ∈ ls, ∀ t ∈ l, Ansi.escape ∉ t.text := by decide
  exact ⟨h, run_render h⟩

end Terminal

end SqlHighlight
