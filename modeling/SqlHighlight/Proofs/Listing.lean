import SqlHighlight.Proofs.LineIndex
import SqlHighlight.Proofs.SpanBoundaries
import SqlHighlight.Style.Highlight

namespace SqlHighlight

namespace Text

def IsField (cs : List Char) : Prop := ∀ c ∈ cs, c ≠ '\t' ∧ c ≠ '\n'

instance (cs : List Char) : Decidable (IsField cs) :=
  List.decidableBAll (fun c => c ≠ '\t' ∧ c ≠ '\n') cs

theorem IsField.append {cs ds : List Char} (hcs : IsField cs) (hds : IsField ds) :
    IsField (cs ++ ds) :=
  List.forall_mem_append.2 ⟨hcs, hds⟩

theorem IsField.cons {c : Char} {cs : List Char} (hc : c ≠ '\t' ∧ c ≠ '\n') (hcs : IsField cs) :
    IsField (c :: cs) :=
  List.forall_mem_cons.2 ⟨hc, hcs⟩

theorem isField_of_isDigit {cs : List Char} (h : ∀ c ∈ cs, c.isDigit) : IsField cs := by
  intro c hc
  have hdigit := h c hc
  constructor
  · rintro rfl
    cases hdigit
  · rintro rfl
    cases hdigit

theorem exists_digitChar_of_mem_toDigits {b n : Nat} {c : Char} (hb : 1 < b)
    (h : c ∈ b.toDigits n) : ∃ d < b, d.digitChar = c := by
  induction n using Nat.strongRecOn with
  | ind n ih =>
    rw [Nat.toDigits_eq_if hb] at h
    split at h
    next hlt => exact ⟨n, hlt, (List.mem_singleton.1 h).symm⟩
    next hge =>
      rcases List.mem_append.1 h with h | h
      · exact ih (n / b) (Nat.div_lt_self (by omega) hb) h
      · exact ⟨n % b, Nat.mod_lt _ (by omega), (List.mem_singleton.1 h).symm⟩

theorem isField_hexDigits (n : Nat) : IsField (hexDigits n) := by
  intro c hc
  obtain ⟨d, -, rfl⟩ := exists_digitChar_of_mem_toDigits (by decide) hc
  exact ⟨Nat.digitChar_ne '\t' rfl, Nat.digitChar_ne '\n' rfl⟩

theorem isField_escape (c : Char) : IsField (escape '"' c) := by
  unfold escape
  simp only [Bool.or_eq_true, beq_iff_eq]
  split_ifs with hmark hfeed hreturn htab hnul hprintable
  · rcases hmark with rfl | rfl
    · decide
    · decide
  · decide
  · decide
  · decide
  · decide
  · exact .cons ⟨htab, hfeed⟩ (List.forall_mem_nil _)
  · exact .append (.append (by decide) (isField_hexDigits _)) (by decide)

theorem isField_quoted (cs : List Char) : IsField (quoted '"' cs) := by
  apply IsField.cons (by decide)
  apply IsField.append
  · intro c hc
    obtain ⟨d, -, hd⟩ := List.mem_flatMap.1 hc
    exact isField_escape d c hd
  · exact .cons (by decide) (List.forall_mem_nil _)

theorem not_mem_intercalate {c : Char} {sep : List Char} {ls : List (List Char)} (hsep : c ∉ sep)
    (h : ∀ l ∈ ls, c ∉ l) : c ∉ sep.intercalate ls := by
  induction ls with
  | nil => exact List.not_mem_nil
  | cons l ls ih =>
    obtain ⟨hl, hls⟩ := List.forall_mem_cons.1 h
    cases ls with
    | nil => rwa [List.intercalate_singleton]
    | cons l' ls =>
      rw [List.intercalate_cons_cons]
      simp only [List.mem_append, not_or]
      exact ⟨⟨hl, hsep⟩, ih hls⟩

def decimal? (ds : List Char) : Option Nat :=
  if ds ≠ [] ∧ ds.all Char.isDigit then some (Nat.ofDigitChars 10 ds 0) else none

end Text

open Highlight (decimal)

theorem Category.isField_label (c : Category) : Text.IsField c.label.toList := by
  cases c <;> decide

namespace Highlight

theorem isDigit_of_mem_decimal {n : Nat} {c : Char} (h : c ∈ decimal n) : c.isDigit := by
  rw [decimal, Nat.toString_eq_ofList_toDigits, String.toList_ofList] at h
  exact Nat.isDigit_of_mem_toDigits (by decide) (by decide) h

@[simp] theorem decimal?_decimal (n : Nat) : Text.decimal? (decimal n) = some n := by
  have hne : decimal n ≠ [] := by
    rw [decimal, Nat.toString_eq_ofList_toDigits, String.toList_ofList]
    exact Nat.toDigits_ne_nil
  rw [Text.decimal?, if_pos ⟨hne, List.all_eq_true.2 fun _ => isDigit_of_mem_decimal⟩, decimal,
    Nat.toString_eq_ofList_toDigits, String.toList_ofList, Nat.ofDigitChars_ten_toDigits]

/-- A row of a listing. Lines and columns count from one. -/
structure Entry where
  line : Nat
  column : Nat
  range : Range
  category : Category
  quotation : List Char
  deriving DecidableEq, Repr

namespace Entry

def place? (field : List Char) : Option (Nat × Nat) :=
  match field.splitOn ':' with
  | [line, column] => do return (← Text.decimal? line, ← Text.decimal? column)
  | _ => none

def range? (field : List Char) : Option Range :=
  match field.splitOn '.' with
  | [start, [], stop] => do return ⟨← Text.decimal? start, ← Text.decimal? stop⟩
  | _ => none

def ofRow? (row : List Char) : Option Entry :=
  match row.splitOn '\t' with
  | [place, range, label, quotation] => do
    let (line, column) ← place? place
    return ⟨line, column, ← range? range, ← Category.ofLabel? (String.ofList label), quotation⟩
  | _ => none

def fields (e : Entry) : List (List Char) :=
  [decimal e.line ++ ':' :: decimal e.column,
    decimal e.range.start ++ '.' :: '.' :: decimal e.range.stop, e.category.label.toList, e.quotation]

def row (e : Entry) : List Char := ['\t'].intercalate e.fields

theorem not_mem_decimal {c : Char} (h : c.isDigit = false) (n : Nat) : c ∉ decimal n := by
  intro hmem
  rw [isDigit_of_mem_decimal hmem] at h
  cases h

theorem place?_decimal (line column : Nat) :
    place? (decimal line ++ ':' :: decimal column) = some (line, column) := by
  have hcolon : ∀ n, ':' ∉ decimal n := not_mem_decimal rfl
  rw [place?, List.splitOn_append_cons_self_of_not_mem (hcolon line),
    List.splitOn_eq_singleton (hcolon column)]
  simp

theorem range?_decimal (start stop : Nat) :
    range? (decimal start ++ '.' :: '.' :: decimal stop) = some ⟨start, stop⟩ := by
  have hperiod : ∀ n, '.' ∉ decimal n := not_mem_decimal rfl
  rw [range?, List.splitOn_append_cons_self_of_not_mem (hperiod start), ← List.nil_append ('.' :: _),
    List.splitOn_append_cons_self_of_not_mem List.not_mem_nil,
    List.splitOn_eq_singleton (hperiod stop)]
  simp

theorem isField_of_mem_fields {e : Entry} (h : Text.IsField e.quotation) :
    ∀ field ∈ e.fields, Text.IsField field := by
  have hdecimal (n : Nat) : Text.IsField (decimal n) :=
    Text.isField_of_isDigit fun _ => isDigit_of_mem_decimal
  simp only [fields, List.forall_mem_cons]
  refine ⟨?_, ?_, e.category.isField_label, h, List.forall_mem_nil _⟩
  · exact (hdecimal _).append (.cons (by decide) (hdecimal _))
  · exact (hdecimal _).append (.cons (by decide) (.cons (by decide) (hdecimal _)))

theorem ofRow?_row {e : Entry} (h : Text.IsField e.quotation) : ofRow? e.row = some e := by
  have htab : ∀ field ∈ e.fields, '\t' ∉ field :=
    fun field hfield hmem => (isField_of_mem_fields h field hfield _ hmem).1 rfl
  rw [ofRow?, row, List.splitOn_intercalate _ htab (List.cons_ne_nil _ _), fields]
  simp [place?_decimal, range?_decimal, Category.ofLabel?_label]

theorem feed_not_mem_row {e : Entry} (h : Text.IsField e.quotation) : '\n' ∉ e.row :=
  Text.not_mem_intercalate (by decide)
    fun field hfield hmem => (isField_of_mem_fields h field hfield _ hmem).2 rfl

/-- An entry is that of a span: its range, its category and its text in quotes, and the place of its
start in the line that holds it. -/
structure Describes (r : Revision) (s : Span) (e : Entry) : Prop where
  range_eq : e.range = s.range
  category_eq : e.category = s.category
  quotation_eq : ∃ text, r.slice s.range = .ok text ∧ e.quotation = Text.quoted '"' text
  exists_line : ∃ number column l, e.line = number + 1 ∧ e.column = column + 1 ∧
    r.line? number = some l ∧ l.start + column = s.range.start ∧
    (l.whole.Contains s.range.start ∨ number + 1 = r.lineCount ∧ s.range.start = r.length)

end Entry

section

variable {r : Revision} {s : Span} {spans : List Span}

theorem exists_line_of_le {offset : Nat} (h : offset ≤ r.length) :
    ∃ l column, r.line? (r.lineAt offset) = some l ∧ l.start + column = offset ∧
      (l.whole.Contains offset ∨ r.lineAt offset + 1 = r.lineCount ∧ offset = r.length) := by
  have hline := List.getElem?_eq_getElem (Text.lineAt_lt_length_lines offset r.chars)
  have hstart := (Text.start_le_iff hline offset).2 (Nat.le_refl _)
  refine ⟨_, offset - _, hline, Nat.add_sub_cancel' hstart, ?_⟩
  rcases Nat.lt_or_eq_of_le h with hlt | heq
  · exact .inl ((Text.whole_contains_iff hline hlt).2 rfl)
  · exact .inr ⟨Text.lineAt_of_width_le (Nat.le_of_eq heq.symm), heq⟩

theorem exists_slice_of_fitsIn {range : Range} (hle : range.start ≤ range.stop)
    (hfits : range.FitsIn r.chars) : ∃ text, r.slice range = .ok text := by
  obtain ⟨text, hslice⟩ := Text.exists_slice hfits.start_isBoundary hfits.stop_isBoundary hle
  obtain ⟨before, after, hchars, hstart, hstop⟩ := Text.slice_eq_ok_iff.1 hslice
  have hrange : range = ⟨Text.width before, Text.width before + Text.width text⟩ := by
    rw [hstart, hstop]
  exact ⟨text, hrange ▸ Revision.slice_of_chars_eq hchars⟩

theorem listSpan_eq {l : Line} {text : List Char}
    (hline : r.line? (r.lineAt s.range.start) = some l) (hslice : r.slice s.range = .ok text) :
    listSpan r r.lines s = .ok (Entry.row ⟨r.lineAt s.range.start + 1,
      Offset.add (s.range.start - l.start) 1, s.range, s.category, Text.quoted '"' text⟩ ++ ['\n']) := by
  have hget : r.lines[Text.lineAt s.range.start r.lines]? = some l := hline
  rw [listSpan, hslice]
  simp only [hget, Option.map_some, Option.getD_some, Entry.row, Entry.fields,
    List.intercalate_cons_cons, List.intercalate_singleton, List.append_assoc, List.cons_append,
    List.nil_append]
  rfl

theorem exists_listSpan (hlength : r.length + 1 < Offset.bound)
    (hle : s.range.start ≤ s.range.stop) (hfits : s.range.FitsIn r.chars) :
    ∃ e : Entry, listSpan r r.lines s = .ok (e.row ++ ['\n']) ∧ Text.IsField e.quotation ∧
      e.Describes r s := by
  have hinside : s.range.start ≤ r.length := Text.le_width_of_isBoundary hfits.start_isBoundary
  obtain ⟨l, column, hline, hcolumn, hwhole⟩ := exists_line_of_le hinside
  obtain ⟨text, hslice⟩ := exists_slice_of_fitsIn hle hfits
  have hadd : Offset.add (s.range.start - l.start) 1 = column + 1 := by
    rw [← hcolumn, Nat.add_sub_cancel_left]
    exact Offset.add_eq (by omega)
  refine ⟨_, listSpan_eq hline hslice, Text.isField_quoted text, rfl, rfl, ⟨text, hslice, rfl⟩, ?_⟩
  exact ⟨_, column, l, rfl, hadd, hline, hcolumn, hwhole⟩

theorem exists_rows_of_listing (hlength : r.length + 1 < Offset.bound)
    (hspans : ∀ s ∈ spans, s.range.start ≤ s.range.stop ∧ s.range.FitsIn r.chars) :
    ∃ out rows, listing r spans = .ok out ∧ out.splitOn '\n' = rows ++ [[]] ∧
      List.Forall₂ (fun s row => ∃ e, Entry.ofRow? row = some e ∧ e.Describes r s) spans rows := by
  induction spans with
  | nil => exact ⟨[], [], rfl, rfl, .nil⟩
  | cons s spans ih =>
    obtain ⟨⟨hle, hfits⟩, hrest⟩ := List.forall_mem_cons.1 hspans
    obtain ⟨e, hrow, hfield, hdescribes⟩ := exists_listSpan hlength hle hfits
    obtain ⟨out, rows, hout, hrows, hall⟩ := ih hrest
    refine ⟨(e.row ++ ['\n']) ++ out, e.row :: rows, ?_, ?_, ?_⟩
    · exact bind_eq_ok_iff.2 ⟨_, hrow, bind_eq_ok_iff.2 ⟨out, hout, rfl⟩⟩
    · rw [List.append_assoc, List.singleton_append,
        List.splitOn_append_cons_self_of_not_mem (Entry.feed_not_mem_row hfield), hrows,
        List.cons_append]
    · exact .cons ⟨e, Entry.ofRow?_row hfield, hdescribes⟩ hall

theorem exists_rows_of_listing_over_breaks :
    let r := Revision.first "a\t\"\r\n\\é\n"
    let spans : List Span := [⟨.string, ⟨1, 6⟩⟩, ⟨.plain, ⟨4, 4⟩⟩, ⟨.comment, ⟨6, 8⟩⟩, ⟨.number, ⟨9, 9⟩⟩]
    r.length + 1 < Offset.bound ∧
      (∀ s ∈ spans, s.range.start ≤ s.range.stop ∧ s.range.FitsIn r.chars) ∧
      ∃ out rows, listing r spans = .ok out ∧ out.splitOn '\n' = rows ++ [[]] ∧
        List.Forall₂ (fun s row => ∃ e, Entry.ofRow? row = some e ∧ e.Describes r s) spans rows := by
  intro r spans
  have hlength : r.length + 1 < Offset.bound := by decide +kernel
  have hspans : ∀ s ∈ spans, s.range.start ≤ s.range.stop ∧ s.range.FitsIn r.chars := by decide +kernel
  exact ⟨hlength, hspans, exists_rows_of_listing hlength hspans⟩

end

end Highlight

end SqlHighlight
