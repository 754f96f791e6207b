import SqlHighlight.Proofs.Exact
import SqlHighlight.Proofs.Rendering

namespace SqlHighlight.Sql

def small (c : Char) : Char := if c = 'N' then 'n' else c

section

variable {c : Char} {cs : List Char}

theorem apply_small {α : Type} {f : Char → α} (h : f 'n' = f 'N') (c : Char) : f (small c) = f c := by
  unfold small
  split
  next hc => rw [hc, h]
  next => rfl

theorem small_eq_iff {x : Char} (hsmall : x ≠ 'n') (hcapital : x ≠ 'N') : small c = x ↔ c = x := by
  have h := apply_small (f := fun d => decide (d = x)) (by simp [hsmall.symm, hcapital.symm]) c
  simpa using h

theorem small_beq {x : Char} (hsmall : x ≠ 'n') (hcapital : x ≠ 'N') (c : Char) :
    (small c == x) = (c == x) := by
  rw [Bool.eq_iff_iff, beq_iff_eq, beq_iff_eq, small_eq_iff hsmall hcapital]

@[simp] theorem small_small (c : Char) : small (small c) = small c := apply_small rfl c

theorem small_ne (c : Char) : small c ≠ 'N' := by
  unfold small
  split
  next => decide
  next h => exact h

theorem eq_or_eq_of_small_eq (h : small c = 'n') : c = 'n' ∨ c = 'N' := by
  unfold small at h
  split at h
  next hc => exact .inr hc
  next => exact .inl h

theorem RendersAs.small_eq {d : Char} (h : RendersAs c d) : small d = small c := by
  obtain rfl | ⟨rfl, rfl⟩ := h <;> rfl

theorem map_small_of_rendersAs {ds : List Char} (h : List.Forall₂ RendersAs cs ds) :
    ds.map small = cs.map small := by
  induction h with
  | nil => rfl
  | cons hc _ ih => rw [List.map_cons, hc.small_eq, ih, List.map_cons]

theorem exists_of_map_small_eq_cons {x : Char} (hsmall : x ≠ 'n') (hcapital : x ≠ 'N')
    {ds : List Char} (h : cs.map small = x :: ds) : ∃ es, cs = x :: es := by
  obtain ⟨d, es, rfl, hd, -⟩ := List.map_eq_cons_iff.1 h
  obtain rfl := (small_eq_iff hsmall hcapital).1 hd
  exact ⟨es, rfl⟩

theorem not_mark_map_small {x y : Char} (hx : x ≠ 'n') (hx' : x ≠ 'N') (hy : y ≠ 'n') (hy' : y ≠ 'N')
    (h : ∀ es, c = x → cs = y :: es → False) (ds : List Char) (hc : small c = x)
    (hcs : cs.map small = y :: ds) : False := by
  obtain ⟨es, rfl⟩ := exists_of_map_small_eq_cons hy hy' hcs
  exact h es ((small_eq_iff hx hx').1 hc) rfl

theorem dropWhile_map_small {p : Char → Bool} (h : p 'n' = p 'N') (cs : List Char) :
    (cs.map small).dropWhile p = (cs.dropWhile p).map small := by
  rw [List.dropWhile_map]
  congr 2
  funext c
  exact apply_small h c

theorem readQuoted_map_small {mark : Char} (hsmall : mark ≠ 'n') (hcapital : mark ≠ 'N')
    (cs : List Char) :
    (readQuoted mark (cs.map small)).2 = (readQuoted mark cs).2.map (List.map small) := by
  have hmark {c : Char} : small c = mark ↔ c = mark := small_eq_iff hsmall hcapital
  fun_induction readQuoted mark cs with
  | case1 => rfl
  | case2 => simp [readQuoted, hmark]
  | case3 c h => simp [readQuoted, hmark, h]
  | case4 cs _ _ h ih => simpa [readQuoted, hmark, h] using ih
  | case5 d cs h => simp [readQuoted, hmark, h]
  | case6 c d cs h _ _ heq ih => simpa [readQuoted, hmark, h, heq] using ih

namespace Lexeme

theorem readBlock_map_small (depth : Nat) (cs : List Char) :
    (readBlock depth (cs.map small)).2 = (readBlock depth cs).2.map (List.map small) := by
  fun_induction readBlock depth cs with
  | case1 => rfl
  | case2 depth cs _ _ h ih =>
    rw [h] at ih
    exact ih
  | case3 => rfl
  | case4 depth cs _ _ h ih =>
    rw [h] at ih
    exact ih
  | case5 depth c cs hopen hclose hinner _ _ h ih =>
    rw [h] at ih
    rw [List.map_cons, readBlock.eq_5 depth (small c) (cs.map small)]
    · exact ih
    · exact not_mark_map_small (by decide) (by decide) (by decide) (by decide) hopen
    · intro ds hdepth
      exact not_mark_map_small (by decide) (by decide) (by decide) (by decide)
        (fun es => hclose es hdepth) ds
    · intro inner ds hdepth
      exact not_mark_map_small (by decide) (by decide) (by decide) (by decide)
        (fun es => hinner inner es hdepth) ds

def outline (l : Lexeme) : TokenKind × Bool × List Char := (l.kind, l.closed, l.rest.map small)

theorem outline_run {p : Char → Bool} (hp : p 'n' = p 'N') (kind : TokenKind) (c d : Char)
    (lead lead' cs : List Char) :
    (run kind p d lead' (cs.map small)).outline = (run kind p c lead cs).outline := by
  simp [outline, run, plain, dropWhile_map_small hp]

theorem outline_lineComment (kind : TokenKind) (mark : Char) (cs : List Char) :
    (lineComment kind mark (cs.map small)).outline = (lineComment kind mark cs).outline := by
  simp only [outline, lineComment]
  rw [dropWhile_map_small (by decide)]
  simp

theorem outline_blockComment (cs : List Char) :
    (blockComment (cs.map small)).outline = (blockComment cs).outline := by
  simp only [outline, blockComment, readBlock_map_small]
  cases (readBlock 0 cs).2 <;> simp

theorem outline_quotation (kind : TokenKind) (lead : List Char) {mark : Char} (hsmall : mark ≠ 'n')
    (hcapital : mark ≠ 'N') (cs : List Char) :
    (quotation kind lead mark (cs.map small)).outline = (quotation kind lead mark cs).outline := by
  simp only [outline, quotation, readQuoted_map_small hsmall hcapital]
  cases (readQuoted mark cs).2 <;> simp

theorem outline_wrapped? (c : Char) (cs : List Char) :
    (wrapped? (small c) (cs.map small)).map outline = (wrapped? c cs).map outline := by
  fun_cases wrapped? c cs with
  | case1 cs => exact congrArg some (outline_lineComment _ _ cs)
  | case2 cs => exact congrArg some (outline_lineComment _ _ cs)
  | case3 cs => exact congrArg some (outline_blockComment cs)
  | case4 cs => exact congrArg some (outline_quotation _ _ (by decide) (by decide) cs)
  | case5 cs => exact congrArg some (outline_quotation _ _ (by decide) (by decide) cs)
  | case6 => exact congrArg some (outline_quotation _ _ (by decide) (by decide) cs)
  | case7 => exact congrArg some (outline_quotation _ _ (by decide) (by decide) cs)
  | case8 => exact congrArg some (outline_quotation _ _ (by decide) (by decide) cs)
  | case9 _ _ hdash hslash hblock hcapital hletter hquote hdouble hbracket =>
    have hnone : wrapped? (small c) (cs.map small) = none := by
      apply wrapped?.eq_9
      · exact fun h => hquote ((small_eq_iff (by decide) (by decide)).1 h)
      · exact fun h => hdouble ((small_eq_iff (by decide) (by decide)).1 h)
      · exact fun h => hbracket ((small_eq_iff (by decide) (by decide)).1 h)
      · exact not_mark_map_small (by decide) (by decide) (by decide) (by decide) hdash
      · exact not_mark_map_small (by decide) (by decide) (by decide) (by decide) hslash
      · exact not_mark_map_small (by decide) (by decide) (by decide) (by decide) hblock
      · intro ds hc
        exact absurd hc (small_ne c)
      · intro ds hc hcs
        obtain ⟨es, rfl⟩ := exists_of_map_small_eq_cons (by decide) (by decide) hcs
        rcases eq_or_eq_of_small_eq hc with hc | hc
        · exact hletter es hc rfl
        · exact hcapital es hc rfl
    rw [hnone]

theorem exponent_map_small (cs : List Char) :
    (exponent (cs.map small)).2 = (exponent cs).2.map small := by
  match cs with
  | [] => rfl
  | [e] => rfl
  | e :: d :: cs =>
    have hhead : ((cs.map small).head?.map Char.isDigit).getD false =
        (cs.head?.map Char.isDigit).getD false := by
      cases cs with
      | nil => rfl
      | cons x cs => exact apply_small (f := Char.isDigit) (by decide) x
    simp only [List.map_cons, exponent, small_beq (x := 'e') (by decide) (by decide),
      small_beq (x := 'E') (by decide) (by decide), small_beq (x := '+') (by decide) (by decide),
      small_beq (x := '-') (by decide) (by decide), apply_small (f := Char.isDigit) (by decide), hhead]
    split
    · exact dropWhile_map_small (by decide) cs
    · rfl

theorem decimals_map_small (cs : List Char) :
    (decimals (cs.map small)).2 = (decimals cs).2.map small := by
  simp only [decimals]
  rw [dropWhile_map_small (by decide), exponent_map_small]

theorem fraction_map_small (cs : List Char) :
    (fraction (cs.map small)).2 = (fraction cs).2.map small := by
  fun_cases fraction cs with
  | case1 cs => rfl
  | case2 cs hpoint _ _ h =>
    have hdecimals := decimals_map_small cs
    rw [h] at hdecimals
    rw [List.map_cons, show small '.' = '.' from rfl, fraction.eq_2]
    · exact hdecimals
    · intro ds hds
      obtain ⟨es, rfl⟩ := exists_of_map_small_eq_cons (by decide) (by decide) hds
      exact hpoint es rfl
  | case3 _ _ hpoint =>
    have hhead : ∀ ds, cs.map small = '.' :: ds → False := by
      intro ds hds
      obtain ⟨es, rfl⟩ := exists_of_map_small_eq_cons (by decide) (by decide) hds
      exact hpoint es rfl
    rw [fraction.eq_3 _ (fun ds => hhead _) hhead, exponent_map_small]

theorem numeral_map_small (cs : List Char) :
    (numeral (cs.map small)).2 = (numeral cs).2.map small := by
  simp only [numeral]
  rw [dropWhile_map_small (by decide), fraction_map_small]

theorem startsWith_map_small {p : Char → Bool} (h : p 'n' = p 'N') (cs : List Char) :
    startsWith p (cs.map small) = startsWith p cs := by
  cases cs with
  | nil => rfl
  | cons c cs => exact apply_small h c

theorem outline_number (kind : TokenKind) (c d : Char) {read read' : List Char × List Char}
    (h : read'.2 = read.2.map small) : (number kind d read').outline = (number kind c read).outline := by
  simp [outline, number, plain, h]

theorem outline_numeric? (c : Char) (cs : List Char) :
    (numeric? (small c) (cs.map small)).map outline = (numeric? c cs).map outline := by
  unfold numeric?
  rw [small_beq (by decide) (by decide), small_beq (by decide) (by decide),
    small_beq (by decide) (by decide), apply_small (f := Char.isDigit) (by decide),
    startsWith_map_small (by decide), startsWith_map_small (by decide),
    startsWith_map_small (by decide), ← List.map_drop]
  split
  · exact congrArg some (outline_run (by decide) _ _ _ _ _ _)
  split
  · exact congrArg some (outline_number _ _ _ (numeral_map_small cs))
  split
  · exact congrArg some (outline_number _ _ _ (decimals_map_small cs))
  split
  · exact congrArg some (outline_number _ _ _ (numeral_map_small cs))
  · rfl

theorem outline_word? (c : Char) (cs : List Char) :
    (word? (small c) (cs.map small)).map outline = (word? c cs).map outline := by
  unfold word?
  rw [small_beq (by decide) (by decide), small_beq (by decide) (by decide),
    apply_small (f := isWordStart) (by decide), startsWith_map_small (by decide),
    startsWith_map_small (by decide)]
  split
  · exact congrArg some (outline_run (by decide) _ _ _ _ _ _)
  split
  · exact congrArg some (outline_run (by decide) _ _ _ _ _ _)
  split
  · split
    · exact congrArg some (outline_run (by decide) _ _ _ _ _ _)
    · simp [outline, plain]
  · rfl

theorem outline_symbol (c : Char) (cs : List Char) :
    (symbol (small c) (cs.map small)).outline = (symbol c cs).outline := by
  have hkind : symbolKind (small c) = symbolKind c := apply_small rfl c
  cases cs with
  | nil => simp [symbol, outline, plain, hkind]
  | cons d cs =>
    have hoperator : operators.contains (small c, small d) = operators.contains (c, d) := by
      calc operators.contains (small c, small d) = operators.contains (c, small d) :=
            apply_small (f := fun x => operators.contains (x, small d)) (by simp [operators]) c
        _ = operators.contains (c, d) :=
            apply_small (f := fun x => operators.contains (c, x)) (by simp [operators]) d
    rw [List.map_cons, symbol, symbol, hoperator]
    split <;> simp [outline, plain, hkind]

theorem outline_read (c : Char) (cs : List Char) :
    (read (small c) (cs.map small)).outline = (read c cs).outline := by
  rw [read, read, apply_small (f := Text.isAsciiBlank) (by decide)]
  split
  · exact outline_run (by decide) _ _ _ _ _ _
  · rw [← Option.getD_map outline, ← Option.getD_map outline, Option.map_or, Option.map_or,
      Option.map_or, Option.map_or, outline_wrapped?, outline_numeric?, outline_word?, outline_symbol]

end Lexeme

end

theorem doubleMark_injective (mark : Char) : Function.Injective (doubleMark mark) := by
  intro cs ds h
  induction cs generalizing ds with
  | nil =>
    cases ds with
    | nil => rfl
    | cons d ds =>
      rw [doubleMark, doubleMark] at h
      split at h <;> cases h
  | cons c cs ih =>
    cases ds with
    | nil =>
      rw [doubleMark, doubleMark] at h
      split at h <;> cases h
    | cons d ds =>
      rw [doubleMark, doubleMark] at h
      split at h <;> split at h
      · next hc hd =>
        simp only [List.cons.injEq, true_and] at h
        rw [hc, hd, ih h]
      · next hd => exact absurd (List.cons.inj h).1.symm hd
      · next hc _ => exact absurd (List.cons.inj h).1 hc
      · obtain ⟨rfl, htail⟩ := List.cons.inj h
        rw [ih htail]

theorem TokenKind.wrap_injective (kind : TokenKind) : Function.Injective kind.wrap := by
  intro cs ds h
  cases kind with
  | string | nationalString | quotedName | bracketedName =>
    simp only [wrap, List.cons_append, List.cons.injEq, true_and, List.append_cancel_right_eq] at h
    exact doubleMark_injective _ h
  | blockComment | dashComment | slashComment => simpa [wrap] using h
  | _ => exact h

theorem Lexeme.read_rendered {c : Char} {cs rest : List Char} {l : Lexeme} (hl : read c cs = l)
    (h : l.closed = true) (hrest : rest.map small = l.rest.map small) :
    read (l.kind.lead c) (l.more ++ rest) = { l with rest } := by
  obtain ⟨l', hl'⟩ : ∃ l', read (l.kind.lead c) (l.more ++ rest) = l' := ⟨_, rfl⟩
  have hlead : small (l.kind.lead c) = small c := by
    subst hl
    exact (rendersAs_lead_read h).small_eq
  have hmap : (l.more ++ rest).map small = cs.map small := by
    rw [← splits_read c cs, hl, List.map_append, hrest, List.map_append]
  have houtline : l'.outline = l.outline := by
    calc l'.outline = (read (small c) (cs.map small)).outline := by
          rw [← hl', ← outline_read, hlead, hmap]
      _ = l.outline := by rw [outline_read, hl]
  obtain ⟨hkind, hclosed, hfolded⟩ : l'.kind = l.kind ∧ l'.closed = l.closed ∧
      l'.rest.map small = l.rest.map small := by
    obtain ⟨hkind, htail⟩ := Prod.mk.inj houtline
    exact ⟨hkind, Prod.mk.inj htail⟩
  have hlength : l'.rest.length = rest.length := by
    simpa using congrArg List.length (hfolded.trans hrest.symm)
  have hsplit : l'.more ++ l'.rest = l.more ++ rest := hl' ▸ splits_read _ _
  obtain ⟨hmore, hrest'⟩ := List.append_inj' hsplit hlength
  have hvalue : l'.value = l.value := by
    apply l.kind.wrap_injective
    calc l.kind.wrap l'.value = l'.kind.wrap l'.value := by rw [hkind]
      _ = l'.kind.lead (l.kind.lead c) :: l'.more := by
          subst hl'
          exact wrap_read (hclosed.trans h)
      _ = l.kind.lead c :: l.more := by rw [hkind, TokenKind.lead_lead, hmore]
      _ = l.kind.wrap l.value := by
          subst hl
          exact (wrap_read h).symm
  rw [hl']
  cases l'
  simp_all

namespace Tokens

theorem lex_chars_lex {start : Nat} {cs : List Char} (h : (lex start cs).unfinished = false) :
    lex start (lex start cs).chars = lex start cs := by
  fun_induction lex start cs with
  | case1 => simp [chars, lex]
  | case2 start c cs l stop _ ih =>
    obtain ⟨hclosed, hrest⟩ := unfinished_lex_cons.1 (by rwa [lex])
    have hread := Lexeme.read_rendered (l := l) rfl hclosed
      (map_small_of_rendersAs (rendersAs_chars_lex hrest))
    have hwidth : Text.width (l.kind.lead c :: l.more) = Text.width (c :: l.more) := by
      rw [Text.width_cons, (Lexeme.rendersAs_lead_read hclosed).utf8Size_eq, Text.width_cons]
    rw [← lex, chars_lex_cons hclosed, List.cons_append]
    change lex start (l.kind.lead c :: (l.more ++ (lex stop l.rest).chars)) = _
    rw [lex, hread]
    dsimp only
    rw [hwidth, ih hrest, lex]

theorem ofText_render_ofText {sql : String} (h : (ofText sql).unfinished = false) :
    ofText (ofText sql).render = ofText sql := by
  rw [ofText, toList_render]
  exact lex_chars_lex h

end Tokens

theorem render_pieces_ofText {sql : String} (h : (Document.ofText sql).errorFound = false) :
    render (Document.ofText sql).pieces = (Tokens.ofText sql).render := by
  rw [← String.toList_inj, toList_render, Tokens.toList_render]
  exact (flatMap_pieces_ofText h).2

end SqlHighlight.Sql

namespace SqlHighlight.Classifier

open Sql

theorem tiles_ofText_and_format_render {trees : String → Option ConcreteTree} {settings : Settings}
    {c : Classifier} (hnew : Classifier.new trees settings = .ok c)
    (hbackend : settings.backend = .tokens) (sql : String) :
    Range.Tiles 0 ((Tokens.ofText sql).list.map Token.range) (Text.width sql.toList) ∧
      (∀ t ∈ (Tokens.ofText sql).list,
        Text.IsBoundary t.range.start sql.toList ∧ Text.IsBoundary t.range.stop sql.toList) ∧
      ((Tokens.ofText sql).unfinished = false →
        Tokens.ofText (Tokens.ofText sql).render = Tokens.ofText sql) ∧
      ((Document.ofText sql).errorFound = false →
        ∃ ps, c.format sql = .ok ps ∧ c.format (render ps) = .ok ps) := by
  refine ⟨?_, ?_, Tokens.ofText_render_ofText, ?_⟩
  · have htiles := Tokens.tiles_lex 0 sql.toList
    rwa [Nat.zero_add] at htiles
  · exact fun t ht => Tokens.isBoundary_of_mem_lex ht [] rfl
  · intro h
    obtain rfl := new_eq_ok hnew
    have hformat (text : String) : format ⟨settings, settings.backend.parser trees⟩ text =
        .ok (Document.ofText text).formatted := by
      rw [hbackend]
      rfl
    have hpieces : (Document.ofText sql).formatted = (Document.ofText sql).pieces := by
      simp [Document.formatted, h]
    have hagain : Document.ofText (Tokens.ofText sql).render = Document.ofText sql := by
      rw [Document.ofText, Tokens.ofText_render_ofText (flatMap_pieces_ofText h).1, Document.ofText]
    refine ⟨_, hformat sql, ?_⟩
    rw [hpieces, render_pieces_ofText h, hformat, hagain, hpieces]

theorem tiles_ofText_and_format_render_national :
    let sql := "SELECT (n'é''') ?@p, 1..2 -- $.5e-3"
    let c : Classifier := ⟨{}, Backend.tokens.parser fun _ => none⟩
    Classifier.new (fun _ => none) {} = .ok c ∧
      Tokens.ofText (Tokens.ofText sql).render = Tokens.ofText sql ∧
      ∃ ps, c.format sql = .ok ps ∧ c.format (render ps) = .ok ps := by
  intro sql c
  have hnew : Classifier.new (fun _ => none) {} = .ok c := rfl
  obtain ⟨-, -, hagain, hformat⟩ := tiles_ofText_and_format_render hnew rfl sql
  exact ⟨hnew, hagain (by decide +kernel), hformat (by decide +kernel)⟩

end SqlHighlight.Classifier
