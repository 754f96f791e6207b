import SqlHighlight.Text.Characters

namespace SqlHighlight

inductive Hue
  | black
  | red
  | green
  | yellow
  | blue
  | magenta
  | cyan
  | white
  deriving DecidableEq, Repr

def Hue.index : Hue → Nat
  | .black => 0
  | .red => 1
  | .green => 2
  | .yellow => 3
  | .blue => 4
  | .magenta => 5
  | .cyan => 6
  | .white => 7

inductive Color
  | reset
  | hue (bright : Bool) (h : Hue)
  | rgb (red green blue : Nat)
  | indexed (i : Nat)
  deriving DecidableEq, Repr

namespace Color

def names : List (String × Color) :=
  [("black", .hue false .black), ("red", .hue false .red), ("green", .hue false .green),
    ("yellow", .hue false .yellow), ("blue", .hue false .blue), ("magenta", .hue false .magenta),
    ("cyan", .hue false .cyan), ("gray", .hue false .white), ("grey", .hue false .white),
    ("darkgray", .hue true .black), ("darkgrey", .hue true .black), ("lightred", .hue true .red),
    ("lightgreen", .hue true .green), ("lightyellow", .hue true .yellow),
    ("lightblue", .hue true .blue), ("lightmagenta", .hue true .magenta),
    ("lightcyan", .hue true .cyan), ("white", .hue true .white)]

/-- Lower case, as far as it can make an ASCII letter: the Kelvin sign is the one character outside
ASCII that it turns into one. -/
def lower (c : Char) : Char := if c.toNat = 0x212A then 'k' else c.toLower

/-- A channel of two digits; a plus sign may stand for the first one. -/
def channel? (high low : Char) : Option Nat := do
  let l ← Text.hexDigit? low
  let h ← if high = '+' then some 0 else Text.hexDigit? high
  return 16 * h + l

def shortChannel? (c : Char) : Option Nat := (Text.hexDigit? c).map (17 * ·)

def ofHex? : List Char → Option Color
  | [a, b, c, d, e, f] => do return .rgb (← channel? a b) (← channel? c d) (← channel? e f)
  | [a, b, c] => do return .rgb (← shortChannel? a) (← shortChannel? b) (← shortChannel? c)
  | _ => none

def parse? (s : String) : Option Color :=
  match Text.trim s.toList with
  | '#' :: digits => ofHex? digits
  | name => (names.find? (·.1.toList == name.map lower)).map Prod.snd

end Color

inductive Modifier
  | bold
  | dim
  | italic
  | underlined
  | reversed
  | crossedOut
  | slowBlink
  | rapidBlink
  | hidden
  deriving DecidableEq, Repr

namespace Modifier

def all : List Modifier :=
  [.bold, .dim, .italic, .underlined, .reversed, .crossedOut, .slowBlink, .rapidBlink, .hidden]

end Modifier

structure Style where
  foreground : Option Color := none
  background : Option Color := none
  modifiers : List Modifier := []
  deriving DecidableEq, Repr

namespace Style

def default : Style := {}

def orderedModifiers (s : Style) : List Modifier := Modifier.all.filter (s.modifiers.contains ·)

end Style

structure StyledText where
  text : List Char
  style : Style
  deriving DecidableEq, Repr

abbrev StyledLine := List StyledText

namespace StyledLine

def chars (l : StyledLine) : List Char := l.flatMap StyledText.text

end StyledLine

def plainText (ls : List StyledLine) : List Char := ls.flatMap fun l => l.chars ++ ['\n']

end SqlHighlight

namespace SqlHighlight.Ansi

def modifierCodes : List (Modifier × Nat) :=
  [(.bold, 1), (.dim, 2), (.italic, 3), (.underlined, 4), (.reversed, 7), (.crossedOut, 9)]

def colorCodes (base : Nat) : Color → List Nat
  | .reset => []
  | .hue bright h => [base + (if bright then 60 else 0) + h.index]
  | .rgb r g b => [base + 8, 2, r, g, b]
  | .indexed i => [base + 8, 5, i]

def codes (s : Style) : List Nat :=
  (modifierCodes.filter fun (m, _) => s.modifiers.contains m).map Prod.snd ++
    ((s.foreground.map (colorCodes 30)).getD []) ++ ((s.background.map (colorCodes 40)).getD [])

def escape : Char := Char.ofNat 0x1B

def sequence (codes : List Nat) : List Char :=
  escape :: '[' :: [';'].intercalate (codes.map fun n => (toString n).toList) ++ ['m']

def renderText (t : StyledText) : List Char :=
  match codes t.style with
  | [] => t.text
  | cs => sequence cs ++ t.text ++ sequence [0]

def renderLine (l : StyledLine) : List Char := l.flatMap renderText ++ ['\n']

def render (ls : List StyledLine) : List Char := ls.flatMap renderLine

end SqlHighlight.Ansi
