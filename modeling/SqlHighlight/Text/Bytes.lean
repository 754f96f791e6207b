/-! Byte offsets into text, and ranges of them. Texts are lists of characters, an offset counts the
bytes that the characters before it take in UTF-8, and a cut inside a character is a fault. Offsets are
64-bit words, so sums and differences wrap; a range may be inverted, and then holds nothing. -/

namespace SqlHighlight

namespace Offset

def bound : Nat := 0x10000000000000000

def add (a b : Nat) : Nat := (a + b) % bound

def sub (a b : Nat) : Nat := (a + bound - b % bound) % bound

theorem add_eq {a b : Nat} (h : a + b < bound) : add a b = a + b := Nat.mod_eq_of_lt h

theorem sub_eq {a b : Nat} (h : b ≤ a) (ha : a < bound) : sub a b = a - b := by
  have hb : b % bound = b := Nat.mod_eq_of_lt (by omega)
  rw [sub, hb, show a + bound - b = (a - b) + bound by omega, Nat.add_mod_right]
  exact Nat.mod_eq_of_lt (by omega)

end Offset

structure Range where
  start : Nat
  stop : Nat
  deriving DecidableEq, Repr, Inhabited

namespace Range

def isEmpty (r : Range) : Bool := r.stop ≤ r.start

def length (r : Range) : Nat := Offset.sub r.stop r.start

def shift (n : Nat) (r : Range) : Range := ⟨r.start + n, r.stop + n⟩

/-- The range seen from `base`; offsets before it wrap around. -/
def relativeTo (base : Nat) (r : Range) : Range := ⟨Offset.sub r.start base, Offset.sub r.stop base⟩

def Contains (r : Range) (n : Nat) : Prop := r.start ≤ n ∧ n < r.stop

instance (r : Range) (n : Nat) : Decidable (r.Contains n) :=
  inferInstanceAs (Decidable (_ ∧ _))

/-- Whether a query meets the range: an empty query meets the ranges that hold or touch its
position, any other those that share an offset with it. -/
def meets (query r : Range) : Bool :=
  if query.isEmpty then r.start ≤ query.start && query.start ≤ r.stop
  else r.start < query.stop && query.start < r.stop

end Range

/-- What goes wrong when text is cut at offsets that are not between two of its characters. -/
inductive Fault
  | offBoundary : Nat → Nat → Fault
  deriving DecidableEq, Repr

namespace Text

def width : List Char → Nat
  | [] => 0
  | c :: cs => c.utf8Size + width cs

@[simp] theorem width_nil : width [] = 0 := rfl

@[simp] theorem width_cons (c : Char) (cs : List Char) :
    width (c :: cs) = c.utf8Size + width cs := rfl

@[simp] theorem width_append (cs ds : List Char) : width (cs ++ ds) = width cs + width ds := by
  induction cs with
  | nil => simp
  | cons c cs ih => simp [ih, Nat.add_assoc]

theorem width_pos {c : Char} {cs : List Char} : 0 < width (c :: cs) := by
  have := c.utf8Size_pos
  simp only [width_cons]
  omega

@[simp] theorem width_eq_zero {cs : List Char} : width cs = 0 ↔ cs = [] := by
  cases cs with
  | nil => simp
  | cons c cs => simp [Nat.ne_of_gt c.utf8Size_pos]

def bytes (cs : List Char) : List UInt8 := cs.flatMap String.utf8EncodeChar

@[simp] theorem bytes_append (cs ds : List Char) : bytes (cs ++ ds) = bytes cs ++ bytes ds :=
  List.flatMap_append

@[simp] theorem length_bytes (cs : List Char) : (bytes cs).length = width cs := by
  induction cs with
  | nil => rfl
  | cons c cs ih =>
    rw [bytes, List.flatMap_cons, List.length_append, String.length_utf8EncodeChar, width_cons, ← ih]
    rfl

def splitAt? : Nat → List Char → Option (List Char × List Char)
  | 0, cs => some ([], cs)
  | _ + 1, [] => none
  | n + 1, c :: cs =>
    if c.utf8Size ≤ n + 1 then
      (splitAt? (n + 1 - c.utf8Size) cs).map fun (before, after) => (c :: before, after)
    else none

@[simp] theorem splitAt?_zero (cs : List Char) : splitAt? 0 cs = some ([], cs) := by
  cases cs <;> rfl

theorem splitAt?_width_append (cs ds : List Char) :
    splitAt? (width cs) (cs ++ ds) = some (cs, ds) := by
  induction cs with
  | nil => simp
  | cons c cs ih =>
    obtain ⟨n, hn⟩ : ∃ n, width (c :: cs) = n + 1 :=
      ⟨width (c :: cs) - 1, (Nat.succ_pred_eq_of_pos width_pos).symm⟩
    have hw : c.utf8Size + width cs = n + 1 := by rw [← width_cons, hn]
    have hle : c.utf8Size ≤ n + 1 := by omega
    have hsub : n + 1 - c.utf8Size = width cs := by omega
    rw [hn, List.cons_append, splitAt?, if_pos hle, hsub, ih]
    rfl

theorem append_of_splitAt? {n : Nat} {cs before after : List Char}
    (h : splitAt? n cs = some (before, after)) : before ++ after = cs ∧ width before = n := by
  induction cs generalizing n before after with
  | nil =>
    cases n with
    | zero => simp_all
    | succ n => simp [splitAt?] at h
  | cons c cs ih =>
    cases n with
    | zero => simp_all
    | succ n =>
      rw [splitAt?] at h
      split at h
      · obtain ⟨⟨b, a⟩, hb, he⟩ := Option.map_eq_some_iff.1 h
        obtain ⟨rfl, rfl⟩ := Prod.mk.inj he
        obtain ⟨h₁, h₂⟩ := ih hb
        exact ⟨by simp [h₁], by simp only [width_cons, h₂]; omega⟩
      · simp at h

def IsBoundary (n : Nat) (cs : List Char) : Prop := (splitAt? n cs).isSome

instance (n : Nat) (cs : List Char) : Decidable (IsBoundary n cs) :=
  inferInstanceAs (Decidable ((splitAt? n cs).isSome = true))

/-- The characters before and after the greatest boundary that is not above an offset. -/
def splitFloor : Nat → List Char → List Char × List Char
  | _, [] => ([], [])
  | n, c :: cs =>
    if c.utf8Size ≤ n then
      let (before, after) := splitFloor (n - c.utf8Size) cs
      (c :: before, after)
    else ([], c :: cs)

@[simp] theorem append_splitFloor (n : Nat) (cs : List Char) :
    (splitFloor n cs).1 ++ (splitFloor n cs).2 = cs := by
  induction cs generalizing n with
  | nil => rfl
  | cons c cs ih =>
    rw [splitFloor]
    split <;> simp [ih]

theorem width_splitFloor_le (n : Nat) (cs : List Char) : width (splitFloor n cs).1 ≤ n := by
  induction cs generalizing n with
  | nil => simp [splitFloor]
  | cons c cs ih =>
    rw [splitFloor]
    split
    · have := ih (n - c.utf8Size)
      simp only [width_cons]
      omega
    · simp

def slice (start stop : Nat) (cs : List Char) : Except Fault (List Char) :=
  if start ≤ stop then
    match splitAt? start cs with
    | some (_, after) =>
      match splitAt? (stop - start) after with
      | some (inside, _) => .ok inside
      | none => .error (.offBoundary start stop)
    | none => .error (.offBoundary start stop)
  else .error (.offBoundary start stop)

theorem slice_append (before inside after : List Char) :
    slice (width before) (width before + width inside) (before ++ (inside ++ after)) =
      .ok inside := by
  simp [slice, splitAt?_width_append]

end Text

end SqlHighlight
