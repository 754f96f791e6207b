import SqlHighlight.Proofs.Cut

namespace SqlHighlight.Literal

namespace StringKind

def marks (k : StringKind) : List (List Char) :=
  match k.verbatim, k.interpolated with
  | false, false => [['"']]
  | true, false => [['@', '"']]
  | false, true => [['$', '"']]
  | true, true => [['$', '@', '"'], ['@', '$', '"']]

def isPlain (k : StringKind) (c : Char) : Bool :=
  c != '"' && (k.verbatim || c != '\\' && c != '\n') && !(k.interpolated && (c == '{' || c == '}'))

def isPair (k : StringKind) (c d : Char) : Bool :=
  (if k.verbatim then c == '"' && d == '"' else c == '\\' && d != '\n' && d != '\r') ||
    k.interpolated && c == d && (c == '{' || c == '}')

/-- The text of a string between its quotes and holes. -/
inductive IsText (k : StringKind) : List Char → Prop
  | nil : IsText k []
  | plain {c : Char} {cs : List Char} (hc : k.isPlain c = true) (h : IsText k cs) : IsText k (c :: cs)
  | pair {c d : Char} {cs : List Char} (hcd : k.isPair c d = true) (h : IsText k cs) :
      IsText k (c :: d :: cs)

def encodeChar (k : StringKind) (c : Char) : List Char :=
  if c = '"' then if k.verbatim then ['"', '"'] else ['\\', '"']
  else if c = '\\' && !k.verbatim then ['\\', '\\']
  else if k.interpolated && (c == '{' || c == '}') then [c, c]
  else [c]

def encode (k : StringKind) (value : List Char) : List Char := value.flatMap k.encodeChar

section

variable {k : StringKind} {c d : Char} {cs : List Char}

theorem isText_encode {value : List Char} (h : k.verbatim = false → '\n' ∉ value) :
    k.IsText (k.encode value) := by
  induction value with
  | nil => exact .nil
  | cons c value ih =>
    have hrest := ih fun hk hmem => h hk (List.mem_cons_of_mem c hmem)
    have hfeed : k.verbatim = false → c ≠ '\n' := by
      rintro hk rfl
      exact h hk List.mem_cons_self
    rw [encode, List.flatMap_cons, encodeChar]
    split
    next hc =>
      subst hc
      split
      next hk => exact .pair (by simp [isPair, hk]) hrest
      next hk => exact .pair (by simp [isPair, hk]) hrest
    split
    next hc =>
      simp only [Bool.and_eq_true, decide_eq_true_eq, Bool.not_eq_true'] at hc
      exact .pair (by simp [isPair, hc]) hrest
    split
    next hc => exact .pair (by simp_all [isPair]) hrest
    next hquote hescape hbrace =>
      refine .plain ?_ hrest
      cases hk : k.verbatim <;> cases hi : k.interpolated <;> simp_all [isPlain]

theorem opening?_marks {mark : List Char} (h : mark ∈ k.marks) (cs : List Char) :
    ∃ c more, mark = c :: more ∧ opening? (c :: (more ++ cs)) = some (.string k, more.length) := by
  obtain ⟨verbatim, interpolated⟩ := k
  cases verbatim <;> cases interpolated <;>
    simp only [marks, List.mem_cons, List.not_mem_nil, or_false] at h
  · exact ⟨_, _, h, rfl⟩
  · exact ⟨_, _, h, rfl⟩
  · exact ⟨_, _, h, rfl⟩
  · rcases h with h | h
    · exact ⟨_, _, h, rfl⟩
    · exact ⟨_, _, h, rfl⟩

theorem getLast?_of_mem_marks {mark : List Char} (h : mark ∈ k.marks) : mark.getLast? = some '"' := by
  obtain ⟨verbatim, interpolated⟩ := k
  revert mark
  cases verbatim <;> cases interpolated <;> decide

theorem feed_not_mem_of_mem_marks {mark : List Char} (h : mark ∈ k.marks) : '\n' ∉ mark := by
  obtain ⟨verbatim, interpolated⟩ := k
  revert mark
  cases verbatim <;> cases interpolated <;> decide

theorem bracesMove_of_ne (hopen : c ≠ '{') (hclose : c ≠ '}') (cs : List Char) :
    bracesMove (c :: cs) = .pass 0 := by
  unfold bracesMove
  split <;> simp_all

theorem move_of_isPlain (h : k.isPlain c = true) (cs : List Char) : k.move (c :: cs) = .pass 0 := by
  obtain ⟨verbatim, interpolated⟩ := k
  have hbraces : interpolated = true → bracesMove (c :: cs) = .pass 0 := by
    rintro rfl
    apply bracesMove_of_ne <;> simp_all [isPlain]
  unfold move
  split <;> simp_all [isPlain]

theorem move_of_isPair (h : k.isPair c d = true) (cs : List Char) :
    k.move (c :: d :: cs) = .pass 1 := by
  obtain ⟨verbatim, interpolated⟩ := k
  cases verbatim <;> cases interpolated <;> simp [isPair] at h
  · obtain ⟨⟨rfl, -⟩, -⟩ := h
    rfl
  · obtain ⟨⟨rfl, -⟩, -⟩ | ⟨rfl, rfl | rfl⟩ := h <;> rfl
  · obtain ⟨rfl, rfl⟩ := h
    rfl
  · obtain ⟨rfl, rfl⟩ | ⟨rfl, rfl | rfl⟩ := h <;> rfl

theorem ne_of_isPair (h : k.isPair c d = true) : c ≠ '\n' ∧ d ≠ '\n' ∧ d ≠ '\r' := by
  rw [isPair, Bool.or_eq_true] at h
  rcases h with h | h
  · split at h
    · simp_all
    · simp_all
  · simp only [Bool.and_eq_true, Bool.or_eq_true, beq_iff_eq] at h
    obtain ⟨⟨-, rfl⟩, rfl | rfl⟩ := h <;> decide

theorem move_quote (h : k.verbatim = true → cs.head? ≠ some '"') : k.move ('"' :: cs) = .leave 0 := by
  unfold move
  split <;> simp_all

theorem move_brace (hk : k.interpolated = true) (h : cs.head? ≠ some '{') :
    k.move ('{' :: cs) = .enter .hole 0 := by
  have hbraces : bracesMove ('{' :: cs) = .enter .hole 0 := by
    unfold bracesMove
    split <;> simp_all
  unfold move
  split <;> simp_all

end

end StringKind

def isInert (c : Char) : Bool := c != '"' && c != '\'' && c != '/' && c != '$' && c != '@'

theorem opening?_of_isInert {c : Char} (h : isInert c = true) (cs : List Char) :
    opening? (c :: cs) = none := by
  unfold opening?
  split <;> simp_all [isInert]

inductive IsCharacter : List Char → Prop
  | nil : IsCharacter []
  | plain {c : Char} {cs : List Char} (hquote : c ≠ '\'') (hescape : c ≠ '\\') (hfeed : c ≠ '\n')
      (h : IsCharacter cs) : IsCharacter (c :: cs)
  | escape {c : Char} {cs : List Char} (hfeed : c ≠ '\n') (h : IsCharacter cs) :
      IsCharacter ('\\' :: c :: cs)

/-- The content of a string, and the code of a hole between its braces. -/
inductive Fills : Frame → List Char → Prop
  | content (k : StringKind) : Fills (.string k) []
  | text {k : StringKind} {ts cs : List Char} (ht : k.IsText ts) (h : Fills (.string k) cs) :
      Fills (.string k) (ts ++ cs)
  | hole {k : StringKind} {body cs : List Char} (hk : k.interpolated = true) (hbody : Fills .hole body)
      (hhead : body.head? ≠ some '{') (h : Fills (.string k) cs) :
      Fills (.string k) ('{' :: (body ++ '}' :: cs))
  | code : Fills .hole []
  | char {c : Char} {cs : List Char} (hinert : isInert c = true) (hopen : c ≠ '{') (hclose : c ≠ '}')
      (hfeed : c ≠ '\n') (h : Fills .hole cs) : Fills .hole (c :: cs)
  | braces {body cs : List Char} (hbody : Fills .hole body) (h : Fills .hole cs) :
      Fills .hole ('{' :: (body ++ '}' :: cs))
  | string {k : StringKind} {mark inside cs : List Char} (hmark : mark ∈ k.marks)
      (hinside : Fills (.string k) inside) (hquote : k.verbatim = true → cs.head? ≠ some '"')
      (h : Fills .hole cs) : Fills .hole (mark ++ (inside ++ '"' :: cs))
  | character {inside cs : List Char} (hinside : IsCharacter inside) (h : Fills .hole cs) :
      Fills .hole ('\'' :: (inside ++ '\'' :: cs))
  | comment {inside cs : List Char} (hinside : ¬ ['*', '/'] <:+: inside) (h : Fills .hole cs) :
      Fills .hole ('/' :: '*' :: (inside ++ '*' :: '/' :: cs))

def readBefore (cs : List Char) (r : List Char × Option (List Char)) :
    List Char × Option (List Char) := (cs ++ r.1, r.2)

@[simp] theorem readBefore_readBefore (cs ds : List Char) (r : List Char × Option (List Char)) :
    readBefore cs (readBefore ds r) = readBefore (cs ++ ds) r := by
  simp [readBefore]

theorem skip_eq_readBefore_take (more : Nat) (fs : List Frame) (cs : List Char) :
    skip more fs cs = readBefore (cs.take more) (skip 0 fs (cs.drop more)) := by
  induction cs generalizing more with
  | nil => cases fs <;> simp [skip, readBefore]
  | cons c cs ih =>
    cases fs with
    | nil => simp [skip, readBefore]
    | cons f fs =>
      cases more with
      | zero => rfl
      | succ more => simp [skip, ih more, readBefore]

section

variable {f g : Frame} {fs : List Frame} {c d : Char}

theorem skip_of_move (fs : List Frame) {move : Move} (cs : List Char) {rest : List Char}
    (h : f.move (c :: (cs ++ rest)) = move) (hmore : move.more = cs.length) :
    skip 0 (f :: fs) (c :: (cs ++ rest)) =
      readBefore (c :: cs) (skip 0 (move.frames (f :: fs)) rest) := by
  have hstep := skip_eq_readBefore_take cs.length (move.frames (f :: fs)) (cs ++ rest)
  rw [List.take_left, List.drop_left] at hstep
  simp [skip, h, hmore, hstep, readBefore]

variable {rest : List Char}

theorem skip_pass (h : f.move (c :: rest) = .pass 0) :
    skip 0 (f :: fs) (c :: rest) = readBefore [c] (skip 0 (f :: fs) rest) :=
  skip_of_move fs [] h rfl

theorem skip_pass_pair (h : f.move (c :: d :: rest) = .pass 1) :
    skip 0 (f :: fs) (c :: d :: rest) = readBefore [c, d] (skip 0 (f :: fs) rest) :=
  skip_of_move fs [d] h rfl

theorem skip_leave (h : f.move (c :: rest) = .leave 0) :
    skip 0 (f :: fs) (c :: rest) = readBefore [c] (skip 0 fs rest) :=
  skip_of_move fs [] h rfl

theorem skip_leave_pair (h : f.move (c :: d :: rest) = .leave 1) :
    skip 0 (f :: fs) (c :: d :: rest) = readBefore [c, d] (skip 0 fs rest) :=
  skip_of_move fs [d] h rfl

theorem skip_enter (h : f.move (c :: rest) = .enter g 0) :
    skip 0 (f :: fs) (c :: rest) = readBefore [c] (skip 0 (g :: f :: fs) rest) :=
  skip_of_move fs [] h rfl

theorem skip_enter_pair (h : f.move (c :: d :: rest) = .enter g 1) :
    skip 0 (f :: fs) (c :: d :: rest) = readBefore [c, d] (skip 0 (g :: f :: fs) rest) :=
  skip_of_move fs [d] h rfl

end

theorem StringKind.IsText.skip {k : StringKind} {ts : List Char} (h : k.IsText ts) (fs : List Frame)
    (rest : List Char) :
    skip 0 (.string k :: fs) (ts ++ rest) = readBefore ts (skip 0 (.string k :: fs) rest) := by
  induction h with
  | nil => rfl
  | plain hc _ ih =>
    rw [List.cons_append, skip_pass (f := .string k) (move_of_isPlain hc _), ih]
    simp
  | pair hcd _ ih =>
    rw [List.cons_append, List.cons_append, skip_pass_pair (f := .string k) (move_of_isPair hcd _), ih]
    simp

theorem IsCharacter.skip {cs : List Char} (h : IsCharacter cs) (fs : List Frame) (rest : List Char) :
    skip 0 (.character :: fs) (cs ++ '\'' :: rest) = readBefore (cs ++ ['\'']) (skip 0 fs rest) := by
  induction h with
  | nil => exact skip_leave rfl
  | @plain c cs hquote hescape _ _ ih =>
    have hmove : Frame.character.move (c :: (cs ++ '\'' :: rest)) = .pass 0 := by
      change characterMove _ = _
      unfold characterMove
      split <;> simp_all
    rw [List.cons_append, skip_pass hmove, ih]
    simp
  | escape _ _ ih =>
    rw [List.cons_append, List.cons_append, skip_pass_pair (f := .character) rfl, ih]
    simp

theorem skip_comment {cs : List Char} (h : ¬ ['*', '/'] <:+: cs) (fs : List Frame) (rest : List Char) :
    skip 0 (.blockComment :: fs) (cs ++ '*' :: '/' :: rest) =
      readBefore (cs ++ ['*', '/']) (skip 0 fs rest) := by
  induction cs with
  | nil => exact skip_leave_pair rfl
  | cons c cs ih =>
    have hmove : Frame.blockComment.move (c :: (cs ++ '*' :: '/' :: rest)) = .pass 0 := by
      change blockCommentMove _ = _
      unfold blockCommentMove
      split
      next tail heq =>
        obtain ⟨rfl, hcs⟩ := List.cons.inj heq
        cases cs with
        | nil => simp at hcs
        | cons d cs =>
          obtain ⟨rfl, -⟩ := List.cons.inj hcs
          exact absurd ⟨[], cs, rfl⟩ h
      next => rfl
    rw [List.cons_append, skip_pass hmove, ih fun hcs => h (List.infix_cons hcs)]
    simp

theorem move_hole_of_opening? {cs : List Char} {f : Frame} {more : Nat}
    (h : opening? cs = some (f, more)) : Frame.hole.move cs = .enter f more := by
  simp [Frame.move, holeMove, h]

theorem move_hole_of_isInert {c : Char} (h : isInert c = true) (hopen : c ≠ '{') (hclose : c ≠ '}')
    (cs : List Char) : Frame.hole.move (c :: cs) = .pass 0 := by
  simp only [Frame.move, holeMove, opening?_of_isInert h]
  split <;> simp_all

theorem head?_append_close_ne {body : List Char} (h : body.head? ≠ some '{') (rest : List Char) :
    (body ++ '}' :: rest).head? ≠ some '{' := by
  cases body with
  | nil => simp
  | cons c body => exact h

theorem Fills.skip {f : Frame} {cs : List Char} (h : Fills f cs) (fs : List Frame) {rest : List Char}
    (hrest : f = .hole → rest.head? ≠ some '"') :
    skip 0 (f :: fs) (cs ++ rest) = readBefore cs (skip 0 (f :: fs) rest) := by
  induction h generalizing fs rest with
  | content => rfl
  | text ht _ ih => rw [List.append_assoc, ht.skip, ih fs (by simp), readBefore_readBefore]
  | @hole k _ cs hk _ hhead _ ihbody ih =>
    have hmove := StringKind.move_brace hk (head?_append_close_ne hhead (cs ++ rest))
    rw [List.cons_append, List.append_assoc, List.cons_append, skip_enter (f := .string k) hmove,
      ihbody _ (by simp), skip_leave (f := .hole) rfl, ih fs (by simp)]
    simp
  | code => rfl
  | char hinert hopen hclose _ _ ih =>
    rw [List.cons_append, skip_pass (move_hole_of_isInert hinert hopen hclose _), ih fs hrest]
    simp
  | braces _ _ ihbody ih =>
    rw [List.cons_append, List.append_assoc, List.cons_append, skip_enter (f := .hole) rfl,
      ihbody _ (by simp), skip_leave (f := .hole) rfl, ih fs hrest]
    simp
  | @string k mark inside cs hmark _ hquote _ ihinside ih =>
    obtain ⟨c, more, rfl, hopening⟩ :=
      StringKind.opening?_marks hmark (inside ++ '"' :: (cs ++ rest))
    -- Behind the string stands more code, or what follows the hole.
    have hclose : k.verbatim = true → (cs ++ rest).head? ≠ some '"' := by
      intro hk
      cases cs with
      | nil => exact hrest rfl
      | cons c cs => exact hquote hk
    rw [List.cons_append, List.cons_append, List.append_assoc, List.append_assoc, List.cons_append,
      skip_of_move fs more (move_hole_of_opening? hopening) rfl, Move.frames, ihinside _ (by simp),
      skip_leave (f := .string k) (StringKind.move_quote hclose), ih fs hrest]
    simp
  | character hinside _ ih =>
    rw [List.cons_append, List.append_assoc, List.cons_append, skip_enter (f := .hole) rfl,
      hinside.skip, ih fs hrest]
    simp
  | comment hinside _ ih =>
    rw [List.cons_append, List.cons_append, List.append_assoc, List.cons_append, List.cons_append,
      skip_enter_pair (f := .hole) rfl, skip_comment hinside, ih fs hrest]
    simp

namespace Content

section

variable {k : StringKind} {c : Char} {cs : List Char} {more : Nat}

theorem read_of_pass (h : k.move (c :: cs) = .pass more) :
    read k (c :: cs) = (read k (cs.drop more)).cons (.text (c :: cs.take more)) := by
  rw [read, h]

theorem read_of_leave (h : k.move (c :: cs) = .leave more) :
    read k (c :: cs) = ⟨[], some (cs.drop more)⟩ := by
  rw [read, h]

theorem read_of_enter {f : Frame} {inside rest : List Char} (h : k.move (c :: cs) = .enter f more)
    (hskip : skip more [f] cs = (inside, some rest)) :
    read k (c :: cs) = (read k rest).cons (.hole (c :: inside)) := by
  rw [read, h]
  simp only
  split
  next heq => simp [hskip] at heq
  next heq =>
    obtain ⟨rfl, rfl⟩ : inside = _ ∧ rest = _ := by simpa [hskip] using heq
    rfl

end

end Content

namespace Segment

theorem holes_append (start : Nat) (ss ts : List Segment) :
    holes start (ss ++ ts) = holes start ss ++ holes (start + Text.width (ss.flatMap chars)) ts := by
  induction ss generalizing start with
  | nil => rfl
  | cons s ss ih =>
    rw [List.flatMap_cons, Text.width_append, ← Nat.add_assoc]
    cases s with
    | text cs => exact ih _
    | hole cs => exact congrArg _ (ih _)

inductive IsWritten (k : StringKind) : Segment → Prop
  | text {cs : List Char} (h : k.IsText cs) : IsWritten k (.text cs)
  | hole {body : List Char} (hk : k.interpolated = true) (hbody : Fills .hole body)
      (hhead : body.head? ≠ some '{') : IsWritten k (.hole ('{' :: (body ++ ['}'])))

/-- A segment that is read as one, whatever follows it, and that no line break cuts. -/
structure StandsAlone (k : StringKind) (s : Segment) : Prop where
  read_append : ∀ rest, Content.read k (s.chars ++ rest) = (Content.read k rest).cons s
  eq_of_feed_mem : '\n' ∈ s.chars → k.verbatim = true ∧ s = .text ['\n']
  eq_of_getLast? : s.chars.getLast? = some '\r' → s = .text ['\r']

section

variable {k : StringKind}

theorem standsAlone_of_isPlain {c : Char} (h : k.isPlain c = true) : StandsAlone k (.text [c]) where
  read_append rest := Content.read_of_pass (k.move_of_isPlain h rest)
  eq_of_feed_mem hmem := by
    obtain rfl : '\n' = c := List.mem_singleton.1 hmem
    simp only [StringKind.isPlain, Bool.and_eq_true] at h
    exact ⟨by simpa using h.1.2, rfl⟩
  eq_of_getLast? := by simp [chars]

theorem standsAlone_of_isPair {c d : Char} (h : k.isPair c d = true) :
    StandsAlone k (.text [c, d]) := by
  obtain ⟨hc, hd, hreturn⟩ := StringKind.ne_of_isPair h
  refine ⟨fun rest => Content.read_of_pass (k.move_of_isPair h rest), ?_, ?_⟩
  · simp [chars, hc.symm, hd.symm]
  · simp [chars, hreturn]

theorem standsAlone_hole {body : List Char} (hk : k.interpolated = true) (hbody : Fills .hole body)
    (hhead : body.head? ≠ some '{') (hfeed : '\n' ∉ body) :
    StandsAlone k (.hole ('{' :: (body ++ ['}']))) where
  read_append rest := by
    have hmove := StringKind.move_brace hk (head?_append_close_ne hhead rest)
    have hskip : skip 0 [.hole] (body ++ '}' :: rest) = (body ++ ['}'], some rest) := by
      rw [hbody.skip [] (by simp), skip_leave (f := .hole) rfl]
      simp [skip, readBefore]
    rw [chars, List.cons_append, List.append_assoc, List.singleton_append]
    exact Content.read_of_enter hmove hskip
  eq_of_feed_mem := by simp [chars, hfeed]
  eq_of_getLast? := by simp [chars, List.getLast?_cons]

theorem exists_standsAlone_of_isText {cs : List Char} (h : k.IsText cs) :
    ∃ as : List Segment, (∀ a ∈ as, a.StandsAlone k) ∧ as.flatMap chars = cs ∧
      ∀ start, holes start as = [] := by
  induction h with
  | nil => exact ⟨[], by simp, rfl, fun _ => rfl⟩
  | plain hc _ ih =>
    obtain ⟨as, has, rfl, hholes⟩ := ih
    refine ⟨_ :: as, List.forall_mem_cons.2 ⟨standsAlone_of_isPlain hc, has⟩, rfl, ?_⟩
    exact fun start => hholes _
  | pair hcd _ ih =>
    obtain ⟨as, has, rfl, hholes⟩ := ih
    refine ⟨_ :: as, List.forall_mem_cons.2 ⟨standsAlone_of_isPair hcd, has⟩, rfl, ?_⟩
    exact fun start => hholes _

theorem IsWritten.exists_standsAlone {s : Segment} (h : s.IsWritten k)
    (hfeed : ∀ cs, s = .hole cs → '\n' ∉ cs) :
    ∃ as : List Segment, (∀ a ∈ as, a.StandsAlone k) ∧ as.flatMap chars = s.chars ∧
      ∀ start, holes start as = holes start [s] := by
  cases h with
  | text h => exact exists_standsAlone_of_isText h
  | @hole body hk hbody hhead =>
    have hbodyfeed : '\n' ∉ body := fun hmem => hfeed _ rfl (by simp [hmem])
    refine ⟨[_], ?_, List.flatMap_singleton _ _, fun _ => rfl⟩
    rw [List.forall_mem_singleton]
    exact standsAlone_hole hk hbody hhead hbodyfeed

theorem exists_standsAlone {ss : List Segment} (h : ∀ s ∈ ss, s.IsWritten k)
    (hfeed : ∀ cs, .hole cs ∈ ss → '\n' ∉ cs) :
    ∃ as : List Segment, (∀ a ∈ as, a.StandsAlone k) ∧ as.flatMap chars = ss.flatMap chars ∧
      ∀ start, holes start as = holes start ss := by
  induction ss with
  | nil => exact ⟨[], by simp, rfl, fun _ => rfl⟩
  | cons s ss ih =>
    rw [List.forall_mem_cons] at h
    obtain ⟨as, has, haschars, hasholes⟩ := h.1.exists_standsAlone fun cs hs => hfeed cs (by simp [hs])
    obtain ⟨bs, hbs, hbschars, hbsholes⟩ := ih h.2 fun cs hs => hfeed cs (List.mem_cons_of_mem s hs)
    refine ⟨as ++ bs, ?_, ?_, ?_⟩
    · exact List.forall_mem_append.2 ⟨has, hbs⟩
    · rw [List.flatMap_append, haschars, hbschars, List.flatMap_cons]
    · intro start
      rw [holes_append, hasholes, hbsholes, haschars, ← List.singleton_append (l := ss), holes_append,
        List.flatMap_singleton]

end

end Segment

end SqlHighlight.Literal
