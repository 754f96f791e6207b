import SqlHighlight.Proofs.Drafts
import SqlHighlight.Proofs.Layout

namespace SqlHighlight.Sql

def WordClass.category : WordClass → Category
  | .conjunction | .disjunction | .alphaOperator => .operator
  | .dataType | .returns | .keyword => .keyword
  | .function => .function
  | .name => .plain

def Token.category (afterPeriod : Bool) (t : Token) : Category :=
  match t.kind with
  | .blockComment | .dashComment | .slashComment => .comment
  | .string | .nationalString => .string
  | .comma | .period | .semicolon | .colon | .asterisk | .equals | .operator => .operator
  | .number | .binary | .money => .number
  | .pseudoName => .keyword
  | .openParen | .closeParen | .blank | .quotedName | .bracketedName => .plain
  | .word =>
    if isVariable t.value.toList then .parameter
    else if afterPeriod || !isWord t.value then .plain
    else (WordClass.of t.value).category

def endsInPeriod (ts : List Token) : Bool :=
  (ts.reverse.find? (!·.isTrivia)).any (·.kind == .period)

def piecesAfter (before : List Token) : List Token → List Piece
  | [] => []
  | t :: ts =>
    Piece.of (t.category (endsInPeriod before)) t.render ++ piecesAfter (before ++ [t]) ts

/-- The number of parentheses open after a token. At depth zero a closing one closes nothing. -/
def depthAfter (depth : Nat) (t : Token) : Nat :=
  match t.kind with
  | .openParen => depth + 1
  | .closeParen => depth - 1
  | _ => depth

def unclosed (ts : List Token) : Nat := ts.foldl depthAfter 0

def TokenKind.spelling? : TokenKind → Option String
  | .openParen => some "("
  | .closeParen => some ")"
  | .semicolon => some ";"
  | _ => none

def Token.IsSpelled (t : Token) : Prop := ∀ value ∈ t.kind.spelling?, t.value = value

instance (t : Token) : Decidable t.IsSpelled :=
  inferInstanceAs (Decidable (∀ value ∈ t.kind.spelling?, t.value = value))

theorem isVariable_of_isWord {value : String} (h : isWord value = true) :
    isVariable value.toList = false := by
  unfold isWord at h
  split at h
  next c cs hcs =>
    rw [hcs]
    have hat : c ≠ '@' := by
      rintro rfl
      revert h
      decide
    have hmark : c ≠ '?' := by
      rintro rfl
      revert h
      decide
    unfold isVariable
    split <;> simp_all
  next => cases h

theorem category_of_isSetOperator {value : String} (h : isSetOperator value = true) :
    (WordClass.of value).category = .keyword := by
  have hmem : upper value = "UNION" ∨ upper value = "EXCEPT" ∨ upper value = "INTERSECT" := by
    simpa [isSetOperator, Vocabulary.setOperators] using h
  rcases hmem with h | h | h <;> rw [WordClass.of, h] <;> decide

section

variable {t : Token} {value : String}

theorem pieces_leaf_other (h : isVariable value.toList = false) :
    Leaf.other.pieces value = Piece.of .plain value := by
  simp [Leaf.pieces, Leaf.category, Leaf.wrap, h]

theorem pieces_wordClass (h : isWord value = true) :
    (WordClass.of value).leaf.pieces value = Piece.of (WordClass.of value).category value := by
  have hvariable := isVariable_of_isWord h
  cases hclass : WordClass.of value <;>
    simp [WordClass.leaf, WordClass.category, Leaf.pieces, Leaf.category, Leaf.wrap, hvariable]

theorem Token.pieces_leaf (afterPeriod : Bool) (hopen : t.kind ≠ .openParen)
    (hclose : t.kind ≠ .closeParen) (hword : t.kind = .word → isWord t.value = false) :
    t.leaf.pieces t.value = Piece.of (t.category afterPeriod) t.render := by
  obtain ⟨kind, value, range⟩ := t
  cases kind with
  | openParen => exact absurd rfl hopen
  | closeParen => exact absurd rfl hclose
  | word =>
    have hplain : isWord value = false := hword rfl
    simp [Token.leaf, Token.category, Token.render, Leaf.pieces, Leaf.category, Leaf.wrap,
      TokenKind.wrap, hplain]
  | operator =>
    unfold Token.leaf
    dsimp only
    split <;> rfl
  | _ => rfl

end

theorem isFlat_piecesOfAll : IsFlat piecesOfAll where
  append := piecesOfAll_append
  block b text flawed ns := List.append_nil (piecesOfAll ns)
  not_isElement n hn := by
    cases n with
    | element => cases hn
    | text => rfl
    | comment => rfl

namespace Draft

def pieces (d : Draft) : List Piece :=
  piecesOfAll d.statements ++ (piecesOfAll d.clauses ++ piecesOfAll d.clause)

section

variable (d : Draft) (n : Node)

theorem pieces_eq : d.pieces = piecesOfAll d.flat := by
  rw [flat, piecesOfAll_append, piecesOfAll_append]
  rfl

@[simp] theorem pieces_empty : Draft.empty.pieces = [] := rfl

@[simp] theorem pieces_push : (d.push n).pieces = d.pieces ++ n.pieces := by
  simp [push, pieces]

@[simp] theorem pieces_closeClause : d.closeClause.pieces = d.pieces := by
  rw [pieces_eq, isFlat_piecesOfAll.closeClause, pieces_eq]

@[simp] theorem pieces_pushClause : (d.pushClause n).pieces = d.pieces ++ n.pieces := by
  rw [pieces_eq, isFlat_piecesOfAll.pushClause, pieces_eq]
  simp

@[simp] theorem pieces_closeStatement : d.closeStatement.pieces = d.pieces := by
  rw [pieces_eq, isFlat_piecesOfAll.closeStatement, pieces_eq]

theorem pieces_finish : piecesOfAll d.finish = d.pieces := by
  rw [isFlat_piecesOfAll.finish, pieces_eq]

end

end Draft

def Draft.IsSound (d : Draft) : Prop := ∀ n ∈ d.statements, n.kind? = some (.block .statement)

namespace Draft

variable {d : Draft}

theorem IsSound.push (h : d.IsSound) (n : Node) : (d.push n).IsSound := h

theorem IsSound.closeClause (h : d.IsSound) : d.closeClause.IsSound := by
  unfold Draft.closeClause
  split <;> exact h

theorem IsSound.pushClause (h : d.IsSound) (n : Node) : (d.pushClause n).IsSound := h.closeClause

theorem IsSound.closeStatement (h : d.IsSound) : d.closeStatement.IsSound := by
  unfold Draft.closeStatement
  dsimp only
  split
  · exact h.closeClause
  · intro n hn
    rcases List.mem_append.1 hn with hn | hn
    · exact h.closeClause n hn
    · rw [List.mem_singleton.1 hn]
      rfl

theorem IsSound.pieces_groupChildren (h : d.IsSound) :
    piecesOfAll (groupChildren d.finish) = d.pieces := by
  have hfinish : ∀ n ∈ d.finish, n.kind? = some (.block .statement) := h.closeStatement
  rw [isFlat_piecesOfAll.groupChildren hfinish, pieces_finish]

end Draft

namespace Builder

def piecesBefore : List (Group × Draft) → List Piece
  | [] => []
  | (_, d) :: outer => piecesBefore outer ++ (d.pieces ++ [⟨.plain, "("⟩])

def pieces (b : Builder) : List Piece := piecesBefore b.outer ++ b.draft.pieces

structure IsSound (b : Builder) : Prop where
  outer : ∀ d ∈ b.outer, d.2.IsSound
  draft : b.draft.IsSound

theorem pieces_closeAll {d : Draft} {outer : List (Group × Draft)} (hd : d.IsSound)
    (houter : ∀ d ∈ outer, d.2.IsSound) :
    (closeAll d outer).pieces =
      piecesBefore outer ++ d.pieces ++ List.replicate outer.length ⟨.plain, ")"⟩ := by
  induction outer generalizing d with
  | nil => simp [closeAll, piecesBefore]
  | cons o outer ih =>
    obtain ⟨g, parent⟩ := o
    have hparent : parent.IsSound := houter _ List.mem_cons_self
    have hrest : ∀ d ∈ outer, d.2.IsSound := fun d hmem => houter d (List.mem_cons_of_mem _ hmem)
    rw [closeAll, ih (hparent.push _) hrest, Draft.pieces_push, Node.pieces_group,
      hd.pieces_groupChildren]
    simp [piecesBefore, List.replicate_succ]

section

variable {b : Builder} {t : Token}

@[simp] theorem pieces_push (b : Builder) (n : Node) : (b.push n).pieces = b.pieces ++ n.pieces := by
  simp [push, pieces]

theorem pieces_openGroup (b : Builder) : b.openGroup.pieces = b.pieces ++ [⟨.plain, "("⟩] := by
  simp [openGroup, pieces, piecesBefore]

theorem pieces_closeGroup (hb : b.IsSound) (houter : b.outer ≠ []) (flawed : Bool) :
    (b.closeGroup flawed).pieces = b.pieces ++ [⟨.plain, ")"⟩] := by
  obtain ⟨outer, draft, last, significant, unmatched⟩ := b
  cases outer with
  | nil => exact absurd rfl houter
  | cons o outer =>
    simp [closeGroup, pieces, piecesBefore, hb.draft.pieces_groupChildren]

theorem pieces_addWord {value : String} (h : isWord value = true) :
    (b.addWord value).pieces = b.pieces ++
      Piece.of (if b.afterPeriod then .plain else (WordClass.of value).category) value := by
  unfold addWord
  split
  · rw [pieces_push, Node.pieces_leaf, pieces_leaf_other (isVariable_of_isWord h)]
  · split
    next hset =>
      rw [category_of_isSetOperator hset]
      simp [pieces, Leaf.pieces, Leaf.category, Leaf.wrap]
    next =>
      -- Closing the clause before the word changes no piece.
      dsimp only
      split <;> simp [pieces, pieces_wordClass h]

theorem pieces_place (hb : b.IsSound) (ht : t.IsSpelled) :
    (b.place t).pieces = b.pieces ++ Piece.of (t.category b.afterPeriod) t.render := by
  obtain ⟨kind, value, range⟩ := t
  cases kind with
  | openParen =>
    obtain rfl : value = "(" := ht _ rfl
    rw [place, pieces_openGroup]
    simp [Token.category, Token.render, TokenKind.wrap, Piece.of]
  | closeParen =>
    obtain rfl : value = ")" := ht _ rfl
    have hpiece : Leaf.other.pieces ")" = [⟨.plain, ")"⟩] := by decide
    have hclosed : (b.place ⟨.closeParen, ")", range⟩).pieces = b.pieces ++ [⟨.plain, ")"⟩] := by
      unfold place
      dsimp only
      split
      next => rw [← hpiece, ← Node.pieces_leaf, ← pieces_push]; rfl
      next houter => exact pieces_closeGroup hb (by simpa using houter) false
    rw [hclosed]
    simp [Token.category, Token.render, TokenKind.wrap, Piece.of]
  | semicolon =>
    obtain rfl : value = ";" := ht _ rfl
    simp [place, pieces, push, Leaf.pieces, Leaf.category, Leaf.wrap, Token.category, Token.render,
      TokenKind.wrap]
  | word =>
    have hrender : Token.render ⟨.word, value, range⟩ = value := by
      simp [Token.render, TokenKind.wrap]
    unfold place
    dsimp only
    split
    next hword =>
      rw [pieces_addWord hword, hrender]
      simp [Token.category, isVariable_of_isWord hword, hword]
    next hword =>
      rw [pieces_push, Node.pieces_leaf]
      exact congrArg _ (Token.pieces_leaf _ (by simp) (by simp) fun _ => by simpa using hword)
  | _ =>
    rw [place, pieces_push, Node.pieces_leaf]
    exact congrArg _ (Token.pieces_leaf _ (by simp) (by simp) (by simp))

theorem IsSound.closeGroup (hb : b.IsSound) (flawed : Bool) : (b.closeGroup flawed).IsSound := by
  obtain ⟨outer, draft, last, significant, unmatched⟩ := b
  cases outer with
  | nil => exact hb
  | cons o outer =>
    exact ⟨fun d hd => hb.outer d (List.mem_cons_of_mem _ hd), hb.outer o List.mem_cons_self⟩

theorem IsSound.addWord (hb : b.IsSound) (value : String) : (b.addWord value).IsSound := by
  unfold Builder.addWord
  split
  · exact ⟨hb.outer, hb.draft⟩
  · split
    · exact ⟨hb.outer, hb.draft.pushClause _⟩
    · dsimp only
      split
      · exact ⟨hb.outer, hb.draft.closeClause⟩
      · exact ⟨hb.outer, hb.draft⟩

theorem IsSound.place (hb : b.IsSound) (t : Token) : (b.place t).IsSound := by
  have hpush : ∀ n, (b.push n).IsSound := fun n => ⟨hb.outer, hb.draft.push n⟩
  unfold Builder.place
  split
  · refine ⟨fun d hd => ?_, by simp [Draft.IsSound, openGroup, Draft.empty]⟩
    rcases List.mem_cons.1 hd with rfl | hd
    · exact hb.draft
    · exact hb.outer d hd
  · split
    · exact ⟨hb.outer, hb.draft⟩
    · exact hb.closeGroup false
  · exact ⟨hb.outer, (hb.draft.push _).closeStatement⟩
  · split
    · exact hb.addWord _
    · exact hpush _
  · exact hpush _

theorem outer_addWord (b : Builder) (value : String) : (b.addWord value).outer = b.outer := by
  unfold addWord
  split
  · rfl
  · split <;> rfl

theorem length_outer_place (b : Builder) (t : Token) :
    (b.place t).outer.length = depthAfter b.outer.length t := by
  obtain ⟨kind, value, range⟩ := t
  cases kind with
  | openParen => rfl
  | closeParen =>
    obtain ⟨outer, draft, last, significant, unmatched⟩ := b
    cases outer <;> rfl
  | word =>
    unfold place
    dsimp only
    split
    · rw [outer_addWord]
      rfl
    · rfl
  | _ => rfl

end

theorem piecesAfter_append (before ts us : List Token) :
    piecesAfter before (ts ++ us) = piecesAfter before ts ++ piecesAfter (before ++ ts) us := by
  induction ts generalizing before with
  | nil => simp [piecesAfter]
  | cons t ts ih => simp [piecesAfter, ih]

/-- What a builder holds after tokens: their pieces, and a draft for each parenthesis that they
leave open. -/
structure Holds (ts : List Token) (b : Builder) : Prop where
  isSound : b.IsSound
  significant : b.significant = ts.reverse.find? (!·.isTrivia)
  pieces : b.pieces = piecesAfter [] ts
  depth : b.outer.length = unclosed ts

theorem holds_empty : Holds [] .empty where
  isSound := ⟨by simp [empty], by simp [empty, Draft.IsSound, Draft.empty]⟩
  significant := rfl
  pieces := rfl
  depth := rfl

variable {b : Builder} {t : Token} {ts : List Token}

theorem Holds.afterPeriod (h : Holds ts b) : b.afterPeriod = endsInPeriod ts := by
  rw [Builder.afterPeriod, endsInPeriod, h.significant]
  cases ts.reverse.find? (!·.isTrivia) <;> rfl

theorem Holds.step (h : Holds ts b) (ht : t.IsSpelled) : Holds (ts ++ [t]) (b.step t) where
  isSound := ⟨(h.isSound.place t).outer, (h.isSound.place t).draft⟩
  significant := by
    rw [List.reverse_append, List.reverse_singleton, List.singleton_append, List.find?_cons,
      ← h.significant]
    cases hkind : t.isTrivia <;> simp [Builder.step, hkind]
  pieces := by
    change (b.place t).pieces = _
    rw [pieces_place h.isSound ht, h.pieces, h.afterPeriod, piecesAfter_append]
    simp [piecesAfter]
  depth := by
    change (b.place t).outer.length = _
    rw [length_outer_place, h.depth, unclosed, unclosed, List.foldl_append]
    rfl

theorem Holds.foldl {us : List Token} (h : Holds ts b) (hus : ∀ t ∈ us, t.IsSpelled) :
    Holds (ts ++ us) (us.foldl Builder.step b) := by
  induction us generalizing ts b with
  | nil => simpa using h
  | cons u us ih =>
    have hu := h.step (hus u List.mem_cons_self)
    have hrest := ih hu fun t ht => hus t (List.mem_cons_of_mem _ ht)
    rwa [List.append_assoc] at hrest

end Builder

theorem pieces_ofTokens {ts : Tokens} (h : ∀ t ∈ ts.list, t.IsSpelled) :
    (Document.ofTokens ts).pieces =
      piecesAfter [] ts.list ++ List.replicate (unclosed ts.list) ⟨.plain, ")"⟩ := by
  have hb := Builder.holds_empty.foldl h
  rw [List.nil_append] at hb
  change piecesOfAll (Builder.closeAll _ _).finish = _
  rw [Draft.pieces_finish, Builder.pieces_closeAll hb.isSound.draft hb.isSound.outer, hb.depth,
    ← hb.pieces]
  rfl

theorem pieces_ofTokens_unbalanced :
    let ts := Tokens.ofText "); a.from (x union ('y' -- ("
    (∀ t ∈ ts.list, t.IsSpelled) ∧
      (Document.ofTokens ts).pieces = piecesAfter [] ts.list ++
        List.replicate (unclosed ts.list) ⟨.plain, ")"⟩ := by
  intro ts
  have h : ∀ t ∈ ts.list, t.IsSpelled := by decide +kernel
  exact ⟨h, pieces_ofTokens h⟩

end SqlHighlight.Sql
