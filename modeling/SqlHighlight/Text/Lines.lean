import SqlHighlight.Text.Bytes

/-! Lines of a text. A line feed ends a line, with the carriage return right before it if there is
one; what follows the last line feed is a line too, so that every text has one. -/

namespace SqlHighlight

namespace Text

def cutLines : List Char → List (List Char)
  | [] => [[]]
  | c :: cs =>
    if c = '\n' then [c] :: cutLines cs
    else match cutLines cs with
      | [] => [[c]]
      | l :: ls => (c :: l) :: ls

theorem cutLines_ne_nil (cs : List Char) : cutLines cs ≠ [] := by
  cases cs with
  | nil => simp [cutLines]
  | cons c cs =>
    rw [cutLines]
    split
    · simp
    · split <;> simp

@[simp] theorem flatten_cutLines (cs : List Char) : (cutLines cs).flatten = cs := by
  induction cs with
  | nil => rfl
  | cons c cs ih =>
    rw [cutLines]
    split
    · simp [ih]
    · split
      · next h => exact absurd h (cutLines_ne_nil cs)
      · next h => rw [h] at ih; simpa using ih

/-- A line without and with only what ends it. -/
def splitEnding : List Char → List Char × List Char
  | [] => ([], [])
  | ['\n'] => ([], ['\n'])
  | ['\r', '\n'] => ([], ['\r', '\n'])
  | c :: cs => let (text, ending) := splitEnding cs; (c :: text, ending)

theorem append_splitEnding (cs : List Char) : (splitEnding cs).1 ++ (splitEnding cs).2 = cs := by
  fun_induction splitEnding cs with
  | case1 => rfl
  | case2 => rfl
  | case3 => rfl
  | case4 c cs _ _ text ending h ih => simpa [h] using ih

end Text

/-- A line: its number from zero, the offset of its first byte, its text, and what ends it. -/
structure Line where
  number : Nat
  start : Nat
  text : List Char
  ending : List Char
  deriving DecidableEq, Repr

namespace Line

def stop (l : Line) : Nat := l.start + Text.width l.text

def next (l : Line) : Nat := l.stop + Text.width l.ending

def range (l : Line) : Range := ⟨l.start, l.stop⟩

def place (number start : Nat) : List (List Char) → List Line
  | [] => []
  | l :: ls =>
    let (text, ending) := Text.splitEnding l
    ⟨number, start, text, ending⟩ :: place (number + 1) (start + Text.width l) ls

@[simp] theorem length_place (number start : Nat) (ls : List (List Char)) :
    (place number start ls).length = ls.length := by
  induction ls generalizing number start with
  | nil => rfl
  | cons l ls ih => simp [place, ih]

end Line

namespace Text

def lines (cs : List Char) : List Line := Line.place 0 0 (cutLines cs)

def lineAt (offset : Nat) (ls : List Line) : Nat :=
  (ls.takeWhile (·.start ≤ offset)).length - 1

/-- The lines as a listing counts them: no empty line after a final line feed. -/
def listedLines (cs : List Char) : List Line :=
  (lines cs).filter fun l => !(l.text.isEmpty && l.ending.isEmpty)

end Text

end SqlHighlight
