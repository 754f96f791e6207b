import SqlHighlight.Literal.Scanner

/-! The grammar of a line by its characters. A frame says how the text at a position moves a reader:
past some characters, into a nested frame, or out of the frame; frames stack up, as a hole of an
interpolated string can hold strings that have holes of their own. A string is cut into text and
holes, and a line into stretches of code and pieces of literals. -/

namespace SqlHighlight.Literal

inductive Frame
  | string : StringKind → Frame
  | hole
  | character
  | blockComment
  | lineComment
  deriving DecidableEq, Repr

/-- A step of the reader over one character and `more` characters after it. -/
inductive Move
  | pass (more : Nat)
  | enter (frame : Frame) (more : Nat)
  | leave (more : Nat)
  deriving DecidableEq, Repr

def opening? : List Char → Option (Frame × Nat)
  | '$' :: '@' :: '"' :: _ => some (.string ⟨true, true⟩, 2)
  | '@' :: '$' :: '"' :: _ => some (.string ⟨true, true⟩, 2)
  | '$' :: '"' :: _ => some (.string ⟨false, true⟩, 1)
  | '@' :: '"' :: _ => some (.string ⟨true, false⟩, 1)
  | '/' :: '*' :: _ => some (.blockComment, 1)
  | '/' :: '/' :: _ => some (.lineComment, 1)
  | '"' :: _ => some (.string ⟨false, false⟩, 0)
  | '\'' :: _ => some (.character, 0)
  | _ => none

def bracesMove : List Char → Move
  | '{' :: '{' :: _ => .pass 1
  | '}' :: '}' :: _ => .pass 1
  | '{' :: _ => .enter .hole 0
  | _ => .pass 0

def StringKind.move (k : StringKind) (cs : List Char) : Move :=
  match k.verbatim, cs with
  | false, '\\' :: _ => .pass 1
  | true, '"' :: '"' :: _ => .pass 1
  | _, '"' :: _ => .leave 0
  | _, cs => if k.interpolated then bracesMove cs else .pass 0

def holeMove (cs : List Char) : Move :=
  match opening? cs with
  | some (f, more) => .enter f more
  | none => match cs with
    | '{' :: _ => .enter .hole 0
    | '}' :: _ => .leave 0
    | _ => .pass 0

def characterMove : List Char → Move
  | '\\' :: _ => .pass 1
  | '\'' :: _ => .leave 0
  | _ => .pass 0

def blockCommentMove : List Char → Move
  | '*' :: '/' :: _ => .leave 1
  | _ => .pass 0

def Frame.move : Frame → List Char → Move
  | .string k => k.move
  | .hole => holeMove
  | .character => characterMove
  | .blockComment => blockCommentMove
  | .lineComment => fun _ => .pass 0

def Move.more : Move → Nat
  | .pass more => more
  | .enter _ more => more
  | .leave more => more

def Move.frames (fs : List Frame) : Move → List Frame
  | .pass _ => fs
  | .enter f _ => f :: fs
  | .leave _ => fs.tail

/-- Reads until the stacked frames are left, after `more` characters that are already settled.
Gives the characters read and what follows them, `none` when the line ends first. -/
def skip : Nat → List Frame → List Char → List Char × Option (List Char)
  | more, [], cs => (cs.take more, some (cs.drop more))
  | _, _ :: _, [] => ([], none)
  | more + 1, f :: fs, c :: cs =>
    let (read, rest) := skip more (f :: fs) cs
    (c :: read, rest)
  | 0, f :: fs, c :: cs =>
    let move := f.move (c :: cs)
    let (read, rest) := skip move.more (move.frames (f :: fs)) cs
    (c :: read, rest)

theorem append_skip (more : Nat) (fs : List Frame) (cs : List Char) :
    (skip more fs cs).1 ++ (skip more fs cs).2.getD [] = cs := by
  induction cs generalizing more fs with
  | nil => cases fs <;> simp [skip]
  | cons c cs ih =>
    cases fs with
    | nil => simp [skip]
    | cons f fs => cases more <;> simp [skip, ih]

theorem length_le_of_skip {more : Nat} {fs : List Frame} {cs read rest : List Char}
    (h : skip more fs cs = (read, some rest)) : rest.length ≤ cs.length := by
  have := congrArg List.length (append_skip more fs cs)
  simp only [h, Option.getD_some, List.length_append] at this
  omega

inductive Segment
  | text : List Char → Segment
  | hole : List Char → Segment
  deriving DecidableEq, Repr

namespace Segment

def chars : Segment → List Char
  | .text cs => cs
  | .hole cs => cs

def holes (start : Nat) : List Segment → List Range
  | [] => []
  | .text cs :: ss => holes (start + Text.width cs) ss
  | .hole cs :: ss => ⟨start, start + Text.width cs⟩ :: holes (start + Text.width cs) ss

end Segment

/-- Content up to the closing quote, and what follows the quote; `none` when the line ends
first. -/
structure Content where
  segments : List Segment
  rest : Option (List Char)
  deriving DecidableEq, Repr

namespace Content

def cons (s : Segment) (content : Content) : Content :=
  { content with segments := s :: content.segments }

def read (k : StringKind) : List Char → Content
  | [] => ⟨[], none⟩
  | c :: cs =>
    match k.move (c :: cs) with
    | .pass more => (read k (cs.drop more)).cons (.text (c :: cs.take more))
    | .leave more => ⟨[], some (cs.drop more)⟩
    | .enter frame more =>
      match h : skip more [frame] cs with
      | (inside, none) => ⟨[.hole (c :: inside)], none⟩
      | (inside, some rest) =>
        have := length_le_of_skip h
        (read k rest).cons (.hole (c :: inside))
termination_by cs => cs.length

def chars (content : Content) : List Char := content.segments.flatMap Segment.chars

@[simp] theorem rest_cons (s : Segment) (content : Content) :
    (content.cons s).rest = content.rest := rfl

theorem length_lt_of_rest_read {k : StringKind} {cs rest : List Char}
    (h : (read k cs).rest = some rest) : rest.length < cs.length := by
  fun_induction read k cs with
  | case1 => simp at h
  | case2 c cs more _ ih =>
    have := ih h
    simp only [List.length_drop] at this
    simp only [List.length_cons]
    omega
  | case3 c cs more _ =>
    obtain rfl := Option.some.inj h
    simp only [List.length_drop, List.length_cons]
    omega
  | case4 => simp at h
  | case5 c cs frame more _ inside rest' _ hle ih =>
    have := ih h
    simp only [List.length_cons]
    omega

end Content

structure Piece where
  kind : StringKind
  segments : List Segment
  continued : Bool
  openAtEnd : Bool
  deriving DecidableEq, Repr

/-- A part of a line. Quotes and their marks belong to the code around a literal. -/
inductive Stretch
  | code : List Char → Stretch
  | literal : Piece → Stretch
  deriving DecidableEq, Repr

structure Cut where
  stretches : List Stretch
  mode : Mode
  deriving DecidableEq, Repr

namespace Cut

def code (cs : List Char) (cut : Cut) : Cut :=
  { cut with stretches := .code cs :: cut.stretches }

def literal (piece : Piece) (cut : Cut) : Cut :=
  { cut with stretches := .literal piece :: cut.stretches }

def ofCode : List Char → Cut
  | [] => ⟨[], .code⟩
  | c :: cs =>
    match opening? (c :: cs) with
    | none => (ofCode cs).code [c]
    | some (.string k, more) =>
      let content := Content.read k (cs.drop more)
      match h : content.rest with
      | none => (Cut.mk [.literal ⟨k, content.segments, false, k.verbatim⟩] k.leftOpen).code
          (c :: cs.take more)
      | some rest =>
        have := Content.length_lt_of_rest_read h
        have := List.length_drop (i := more) (l := cs)
        (((ofCode rest).code ['"']).literal ⟨k, content.segments, false, false⟩).code
          (c :: cs.take more)
    | some (frame, more) =>
      match h : skip more [frame] cs with
      | (inside, none) =>
        ⟨[.code (c :: inside)], if frame = .blockComment then .comment else .code⟩
      | (inside, some rest) =>
        have := length_le_of_skip h
        (ofCode rest).code (c :: inside)
termination_by cs => cs.length

def ofLine (mode : Mode) (line : List Char) : Cut :=
  match mode with
  | .code => ofCode line
  | .comment =>
    match skip 0 [.blockComment] line with
    | (_, none) => ⟨[.code line], .comment⟩
    | (inside, some rest) => (ofCode rest).code inside
  | .string k =>
    if k.verbatim then
      let content := Content.read k line
      match content.rest with
      | none => ⟨[.literal ⟨k, content.segments, true, true⟩], .string k⟩
      | some rest =>
        ((ofCode rest).code ['"']).literal ⟨k, content.segments, true, false⟩
    else ofCode line

end Cut

namespace Piece

def width (p : Piece) : Nat := Text.width (p.segments.flatMap Segment.chars)

def place (start : Nat) (p : Piece) : Fragment where
  range := ⟨start, start + p.width⟩
  interpolated := p.kind.interpolated
  holes := Segment.holes start p.segments
  continued := p.continued
  openAtEnd := p.openAtEnd

end Piece

namespace Fragment

def place (start : Nat) : List Stretch → List Fragment
  | [] => []
  | .code cs :: ss => place (start + Text.width cs) ss
  | .literal p :: ss =>
    if p.width = 0 then place start ss
    else p.place start :: place (start + p.width) ss

end Fragment

end SqlHighlight.Literal
