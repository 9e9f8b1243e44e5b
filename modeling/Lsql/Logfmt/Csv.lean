import Lsql.Logfmt.LogTypes

/-!
# Lsql.Logfmt.Csv

The CSV parser reads what quoting writes.

A field is written as it is if it has neither a comma nor a quote, or between quotes with the quotes
in it doubled. A line is the fields with commas between them.
-/

namespace Lsql.Logfmt

/-! ### Quoting -/

/-- The field with every quote doubled. -/
def doubled (field : Bytes) : Bytes := field.flatMap fun b => if b = quote then [quote, quote] else [b]

/-- The ways to write a field. -/
inductive WrittenAs (field : Bytes) : Bytes → Prop
  | bare (hquote : quote ∉ field) (hcomma : comma ∉ field) : WrittenAs field field
  | quoted : WrittenAs field (quote :: (doubled field ++ [quote]))

/-- The lines that no fields are written as: a column starts with a quote that nothing closes, has a
quote though it starts with none, or goes on behind the quote that closes it. -/
inductive Malformed : Bytes → Prop
  | unterminated (field : Bytes) : Malformed (quote :: doubled field)
  | quoteInBare {column behind : Bytes} (hstart : column.head? ≠ some quote) (hquote : quote ∈ column)
      (hcomma : comma ∉ column) (hbehind : behind.head?.all (· = comma) = true) :
      Malformed (column ++ behind)
  | behindQuote (field : Bytes) {b : UInt8} (behind : Bytes) (hquote : b ≠ quote) (hcomma : b ≠ comma) :
      Malformed (quote :: (doubled field ++ quote :: b :: behind))
  | behind {field column rest : Bytes} (hcolumn : WrittenAs field column) (hrest : Malformed rest) :
      Malformed (column ++ comma :: rest)

@[simp] theorem doubled_nil : doubled [] = [] := rfl

theorem doubled_quote (field : Bytes) : doubled (quote :: field) = quote :: quote :: doubled field := by
  simp [doubled]

theorem doubled_cons {b : UInt8} (hb : b ≠ quote) (field : Bytes) :
    doubled (b :: field) = b :: doubled field := by
  simp [doubled, hb]

theorem doubled_eq_self {field : Bytes} (h : quote ∉ field) : doubled field = field := by
  induction field with
  | nil => rfl
  | cons b field ih =>
      obtain ⟨hb, hfield⟩ := not_or.mp (List.mem_cons.not.mp h)
      rw [doubled_cons (Ne.symm hb), ih hfield]

theorem mem_doubled {b : UInt8} {field : Bytes} : b ∈ doubled field ↔ b ∈ field := by
  induction field with
  | nil => rfl
  | cons c field ih =>
      by_cases hc : c = quote
      · subst hc
        simp [doubled_quote, ih]
      · simp [doubled_cons hc, ih]

theorem unescape_doubled (field : Bytes) : unescape (doubled field) = field := by
  induction field with
  | nil => rfl
  | cons b field ih =>
      by_cases hb : b = quote
      · subst hb
        rw [doubled_quote, unescape, if_pos rfl, ih]
      · rw [doubled_cons hb]
        cases htail : doubled field with
        | nil =>
            rw [htail] at ih
            simpa [unescape] using ih
        | cons c rest => rw [unescape, if_neg hb, ← htail, ih]

/-! ### The search for the closing quote -/

theorem closingQuote_cons {b : UInt8} (hb : b ≠ quote) (position : Nat) (escaped : Bool) (bs : Bytes) :
    closingQuote position escaped (b :: bs) = closingQuote (position + 1) escaped bs := by
  cases bs with
  | nil => simp [closingQuote, hb]
  | cons c bs => simp [closingQuote, hb]

theorem closingQuote_pair (position : Nat) (escaped : Bool) (bs : Bytes) :
    closingQuote position escaped (quote :: quote :: bs) = closingQuote (position + 2) true bs := by
  simp [closingQuote]

/-- Behind a doubled field a quote that no quote follows is the closing one. -/
theorem closingQuote_doubled (position : Nat) (escaped : Bool) (field : Bytes) {behind : Bytes}
    (hbehind : behind.head? ≠ some quote) :
    closingQuote position escaped (doubled field ++ quote :: behind) =
      some (position + (doubled field).length, escaped || decide (quote ∈ field)) := by
  induction field generalizing position escaped with
  | nil =>
      cases behind with
      | nil => simp [closingQuote]
      | cons b behind =>
          have hb : b ≠ quote := by simpa using hbehind
          simp [closingQuote, hb]
  | cons b field ih =>
      by_cases hb : b = quote
      · subst hb
        rw [doubled_quote, List.cons_append, List.cons_append, closingQuote_pair, ih]
        simp only [List.length_cons, List.mem_cons, true_or, decide_true, Bool.true_or, Bool.or_true,
          Option.some.injEq, Prod.mk.injEq, and_true]
        omega
      · rw [doubled_cons hb, List.cons_append, closingQuote_cons hb, ih]
        simp only [List.length_cons, List.mem_cons, Ne.symm hb, false_or, Option.some.injEq,
          Prod.mk.injEq, and_true]
        omega

/-- Nothing closes a doubled field. -/
theorem closingQuote_eq_none (position : Nat) (escaped : Bool) (field : Bytes) :
    closingQuote position escaped (doubled field) = none := by
  induction field generalizing position escaped with
  | nil => rfl
  | cons b field ih =>
      by_cases hb : b = quote
      · subst hb
        rw [doubled_quote, closingQuote_pair, ih]
      · rw [doubled_cons hb, closingQuote_cons hb, ih]

/-! ### One column -/

/-- Where the separator behind a column stands, if anything is behind it. -/
def separatorOf (column behind : Bytes) : Option Nat :=
  if behind.isEmpty then none else some column.length

theorem idxOf?_comma {column behind : Bytes} (hcomma : comma ∉ column)
    (hbehind : behind.head?.all (· = comma) = true) :
    (column ++ behind).idxOf? comma = separatorOf column behind := by
  induction column with
  | nil =>
      cases behind with
      | nil => rfl
      | cons b behind =>
          have hb : b = comma := by simpa using hbehind
          simp [separatorOf, hb, List.idxOf?_cons]
  | cons b column ih =>
      obtain ⟨hb, hcolumn⟩ := not_or.mp (List.mem_cons.not.mp hcomma)
      rw [List.cons_append, List.idxOf?_cons, beq_false_of_ne (Ne.symm hb), ih hcolumn]
      cases behind <;> simp [separatorOf]

/-- What a column is read as: the text of the field, with its line breaks, and the separator. -/
structure ReadsAs (field : Bytes) (separator : Option Nat) (read : View × Bool × Option Nat) :
    Prop where
  value : (if read.2.1 then unescape read.1.bytes else read.1.bytes) = field
  lineBreak : hasLineBreak read.1.bytes = hasLineBreak field
  separator : read.2.2 = separator

theorem hasLineBreak_doubled (field : Bytes) : hasLineBreak (doubled field) = hasLineBreak field := by
  rw [Bool.eq_iff_iff]
  simp [hasLineBreak, List.any_eq_true, mem_doubled]

/-- A column that starts with a quote, when the quote that closes it has been found. -/
theorem csvColumn_quote (offset : Nat) {text : Bytes} {position : Nat} {escaped : Bool}
    (h : closingQuote 1 false text = some (position, escaped)) :
    csvColumn ⟨offset, quote :: text⟩ =
      if position = text.length then
        some (⟨offset + 1, text.take (position - 1)⟩, escaped, none)
      else if text[position]? ≠ some comma then none
      else some (⟨offset + 1, text.take (position - 1)⟩, escaped, some (position + 1)) := by
  simp [csvColumn, h, View.drop, View.take]

/-- A column is read as the field that it is written for. -/
theorem csvColumn_written {field column behind : Bytes} (offset : Nat) (h : WrittenAs field column)
    (hbehind : behind.head?.all (· = comma) = true) :
    ∃ read, csvColumn ⟨offset, column ++ behind⟩ = some read ∧
      ReadsAs field (separatorOf column behind) read := by
  have hnoquote : behind.head? ≠ some quote := by
    cases behind with
    | nil => simp
    | cons b behind =>
        have hb : b = comma := by simpa using hbehind
        simp [hb, show comma ≠ quote by decide]
  cases h with
  | bare hquote hcomma =>
      have hstart : (field ++ behind).head? ≠ some quote := by
        cases field with
        | nil => exact hnoquote
        | cons b field => exact fun hb => hquote (by simp [Option.some.inj hb])
      have hfind : (View.mk offset (field ++ behind)).find comma = separatorOf field behind :=
        idxOf?_comma hcomma hbehind
      cases behind with
      | nil =>
          refine ⟨(⟨offset, field⟩, false, none), ?_, by simp, rfl, rfl⟩
          simp only [List.append_nil] at hstart hfind ⊢
          rw [csvColumn, if_neg hstart]
          simp [hfind, separatorOf, hquote]
      | cons b behind =>
          refine ⟨(⟨offset, field⟩, false, some field.length), ?_, by simp, rfl, rfl⟩
          rw [csvColumn, if_neg hstart]
          simp [hfind, separatorOf, View.take, hquote]
  | quoted =>
      have hclose : closingQuote 1 false (doubled field ++ quote :: behind) =
          some (1 + (doubled field).length, decide (quote ∈ field)) := by
        simpa using closingQuote_doubled 1 false field hnoquote
      have htext : quote :: (doubled field ++ [quote]) ++ behind =
          quote :: (doubled field ++ quote :: behind) := by simp
      refine ⟨(⟨offset + 1, doubled field⟩, decide (quote ∈ field),
        separatorOf (quote :: (doubled field ++ [quote])) behind), ?_, ?_, hasLineBreak_doubled field,
        rfl⟩
      · rw [htext, csvColumn_quote offset hclose]
        cases behind with
        | nil => simp [separatorOf, Nat.add_comm]
        | cons b behind =>
            have hb : b = comma := by simpa using hbehind
            simp [separatorOf, hb, Nat.add_comm]
      · by_cases hquote : quote ∈ field
        · simp [hquote, unescape_doubled]
        · simp [hquote, doubled_eq_self hquote]

/-! ### The line -/

/-- The loop stops at a column that is refused. -/
theorem csvColumns_of_none {index : Nat} {line : View} (h : csvColumn line = none) :
    csvColumns index line = ([], false) := by
  rw [csvColumns]
  split
  · rfl
  · simp_all
  · simp_all

/-- The last column. -/
theorem csvColumns_last {index : Nat} {line field : View} {escaped : Bool}
    (h : csvColumn line = some (field, escaped, none)) (hbreak : hasLineBreak field.bytes = false) :
    csvColumns index line = (csvField index field escaped, true) := by
  rw [csvColumns]
  split
  · simp_all
  · simp_all
  · simp_all

/-- A column with others behind it. -/
theorem csvColumns_more {index i : Nat} {line field : View} {escaped : Bool}
    (h : csvColumn line = some (field, escaped, some i)) :
    csvColumns index line =
      if hasLineBreak field.bytes then ([], false)
      else
        (csvField index field escaped ++ (csvColumns (index + 1) (line.drop (i + 1))).1,
          (csvColumns (index + 1) (line.drop (i + 1))).2) := by
  rw [csvColumns]
  split
  · simp_all
  · simp_all
  · simp_all

/-- The columns that fields are reported as, the first one under that index. -/
def columnsFrom (index : Nat) (fields : List Bytes) : List (Bytes × Bytes) :=
  (fields.take (anonColumns - index)).mapIdx fun i field => (anonColumnName (index + i), field)

theorem columnsFrom_cons (index : Nat) (field : Bytes) (fields : List Bytes) :
    columnsFrom index (field :: fields) =
      (if index < anonColumns then [(anonColumnName index, field)] else []) ++
        columnsFrom (index + 1) fields := by
  by_cases hindex : index < anonColumns
  · obtain ⟨k, hk⟩ : ∃ k, anonColumns - index = k + 1 := ⟨anonColumns - index - 1, by omega⟩
    have hk' : anonColumns - (index + 1) = k := by omega
    have hshift : (fun (i : Nat) (field : Bytes) => (anonColumnName (index + (i + 1)), field)) =
        fun i field => (anonColumnName (index + 1 + i), field) := by
      funext i field
      rw [Nat.add_right_comm, Nat.add_assoc]
    rw [columnsFrom, columnsFrom, hk, hk', if_pos hindex, List.take_succ_cons, List.mapIdx_cons, hshift]
    rfl
  · have hzero : anonColumns - index = 0 ∧ anonColumns - (index + 1) = 0 := by omega
    simp [columnsFrom, hzero, hindex]

theorem reported_csvField {field : Bytes} {separator : Option Nat} {read : View × Bool × Option Nat}
    (h : ReadsAs field separator read) (index : Nat) :
    reported (csvField index read.1 read.2.1) =
      if index < anonColumns then [(anonColumnName index, field)] else [] := by
  have hvalue := h.value
  rw [csvField]
  split
  · cases hescaped : read.2.1 with
    | true => simpa [reported, hescaped, FieldText.bytes] using hvalue
    | false => simpa [reported, hescaped, FieldText.bytes] using hvalue
  · rfl

/-- The written line is read as the fields, column by column. -/
theorem csvColumns_written {fields columns : List Bytes} (hwritten : List.Forall₂ WrittenAs fields columns)
    (hne : fields ≠ []) (hbreak : ∀ field ∈ fields, hasLineBreak field = false) (index offset : Nat) :
    reported (csvColumns index ⟨offset, [comma].intercalate columns⟩).1 = columnsFrom index fields ∧
      (csvColumns index ⟨offset, [comma].intercalate columns⟩).2 = true := by
  induction hwritten generalizing index offset with
  | nil => exact absurd rfl hne
  | @cons field column fields columns hcolumn hrest ih =>
      obtain ⟨hfield, hfields⟩ := List.forall_mem_cons.mp hbreak
      cases hrest with
      | nil =>
          have hend : ([] : Bytes).head?.all (· = comma) = true := rfl
          obtain ⟨⟨view, escaped, separator⟩, hread, hreads⟩ := csvColumn_written offset hcolumn hend
          obtain rfl : separator = none := hreads.separator
          rw [List.append_nil] at hread
          rw [List.intercalate_singleton,
            csvColumns_last hread (hreads.lineBreak.trans hfield), columnsFrom_cons]
          exact ⟨(reported_csvField hreads index).trans (by simp [columnsFrom]), rfl⟩
      | @cons next nextColumn fields columns hnext hrest =>
          rw [List.intercalate_cons_cons, List.append_assoc, List.singleton_append]
          generalize hbehind : [comma].intercalate (nextColumn :: columns) = behind at ih ⊢
          have hcomma : (comma :: behind).head?.all (· = comma) = true := by simp
          obtain ⟨⟨view, escaped, separator⟩, hread, hreads⟩ :=
            csvColumn_written offset hcolumn hcomma
          obtain rfl : separator = some column.length := hreads.separator
          have hdrop : (View.mk offset (column ++ comma :: behind)).drop (column.length + 1) =
              ⟨offset + (column.length + 1), behind⟩ := by
            simp [View.drop]
          rw [csvColumns_more hread, hreads.lineBreak.trans hfield, hdrop, columnsFrom_cons]
          obtain ⟨hreported, hok⟩ :=
            ih (by simp) hfields (index + 1) (offset + (column.length + 1))
          refine ⟨?_, hok⟩
          rw [if_neg Bool.false_ne_true, reported_append, reported_csvField hreads, hreported]

/-- A malformed line is refused, whatever its columns in front are. -/
theorem csvColumns_malformed {line : Bytes} (h : Malformed line) (index offset : Nat) :
    (csvColumns index ⟨offset, line⟩).2 = false := by
  induction h generalizing index offset with
  | unterminated field =>
      have hnone : csvColumn ⟨offset, quote :: doubled field⟩ = none := by
        simp [csvColumn, closingQuote_eq_none]
      rw [csvColumns_of_none hnone]
  | @quoteInBare column behind hstart hquote hcomma hbehind =>
      have hstart : (column ++ behind).head? ≠ some quote := by
        obtain ⟨b, column, rfl⟩ := List.exists_cons_of_ne_nil (List.ne_nil_of_mem hquote)
        exact hstart
      have hfind : (View.mk offset (column ++ behind)).find comma = separatorOf column behind :=
        idxOf?_comma hcomma hbehind
      have hnone : csvColumn ⟨offset, column ++ behind⟩ = none := by
        rw [csvColumn, if_neg hstart]
        cases behind with
        | nil =>
            rw [List.append_nil] at hfind ⊢
            simp [hfind, separatorOf, hquote]
        | cons b behind => simp [hfind, separatorOf, View.take, hquote]
      rw [csvColumns_of_none hnone]
  | @behindQuote field b behind hquote hcomma =>
      have hclose : closingQuote 1 false (doubled field ++ quote :: b :: behind) =
          some (1 + (doubled field).length, decide (quote ∈ field)) := by
        have hnext : (b :: behind).head? ≠ some quote := by simpa using hquote
        simpa using closingQuote_doubled 1 false field hnext
      have hnone : csvColumn ⟨offset, quote :: (doubled field ++ quote :: b :: behind)⟩ = none := by
        rw [csvColumn_quote offset hclose]
        simp [Nat.add_comm, hcomma]
      rw [csvColumns_of_none hnone]
  | @behind field column rest hcolumn hrest ih =>
      have hnext : (comma :: rest).head?.all (· = comma) = true := by simp
      obtain ⟨⟨view, escaped, separator⟩, hread, hreads⟩ := csvColumn_written offset hcolumn hnext
      obtain rfl : separator = some column.length := hreads.separator
      have hdrop : (View.mk offset (column ++ comma :: rest)).drop (column.length + 1) =
          ⟨offset + (column.length + 1), rest⟩ := by
        simp [View.drop]
      rw [csvColumns_more hread, hdrop]
      split
      · rfl
      · exact ih (index + 1) (offset + (column.length + 1))

/-! ### Carriage returns -/

theorem dropReturn_of_notMem {line : Bytes} (h : carriageReturn ∉ line) : dropReturn line = line := by
  rw [dropReturn, if_neg]
  simp only [List.isSuffixOf_iff_suffix]
  intro hsuffix
  exact h (hsuffix.subset List.mem_cons_self)

theorem dropReturn_append (line : Bytes) : dropReturn (line ++ [carriageReturn]) = line := by
  have hends : [carriageReturn].isSuffixOf (line ++ [carriageReturn]) = true :=
    List.isSuffixOf_iff_suffix.mpr (List.suffix_append _ _)
  rw [dropReturn, if_pos hends, List.dropLast_concat]

/-- A written field has no line break but its own. -/
theorem WrittenAs.notMem {field column : Bytes} (h : WrittenAs field column)
    (hfield : hasLineBreak field = false) : carriageReturn ∉ column := by
  have hnot : carriageReturn ∉ field := by
    simp only [hasLineBreak, List.any_eq_false] at hfield
    exact fun hmem => hfield _ hmem (by simp)
  cases h with
  | bare hquote hcomma => exact hnot
  | quoted =>
      have hne : carriageReturn ≠ quote := by decide
      simp [mem_doubled, hnot, hne]

theorem notMem_intercalate {fields columns : List Bytes}
    (hwritten : List.Forall₂ WrittenAs fields columns)
    (hbreak : ∀ field ∈ fields, hasLineBreak field = false) :
    carriageReturn ∉ [comma].intercalate columns := by
  induction hwritten with
  | nil => exact List.not_mem_nil
  | @cons field column fields columns hcolumn hrest ih =>
      obtain ⟨hfield, hfields⟩ := List.forall_mem_cons.mp hbreak
      have hnot := hcolumn.notMem hfield
      have hrest' := ih hfields
      cases columns with
      | nil => simpa using hnot
      | cons next columns =>
          have hne : carriageReturn ≠ comma := by decide
          rw [List.intercalate_cons_cons]
          simp [hnot, hrest', hne]

/-- **The parser reads what quoting writes**, with a carriage return behind it or without one, and
reports the first columns under their names; a malformed line it refuses. -/
theorem parseCsv_written :
    (∀ fields columns, fields ≠ [] → (∀ field ∈ fields, hasLineBreak field = false) →
      List.Forall₂ WrittenAs fields columns → ∀ ending, ending = [] ∨ ending = [carriageReturn] →
        (parseCsv ([comma].intercalate columns ++ ending)).2 = true ∧
          reported (parseCsv ([comma].intercalate columns ++ ending)).1 =
            (fields.take anonColumns).mapIdx fun i field => (anonColumnName i, field)) ∧
      ∀ line, Malformed (dropReturn line) → (parseCsv line).2 = false := by
  constructor
  · intro fields columns hne hbreak hwritten ending hending
    have hline : dropReturn ([comma].intercalate columns ++ ending) = [comma].intercalate columns := by
      rcases hending with rfl | rfl
      · rw [List.append_nil, dropReturn_of_notMem (notMem_intercalate hwritten hbreak)]
      · exact dropReturn_append _
    rw [parseCsv, hline]
    obtain ⟨hreported, hok⟩ := csvColumns_written hwritten hne hbreak 0 0
    refine ⟨hok, hreported.trans ?_⟩
    simp [columnsFrom]
  · intro line h
    exact csvColumns_malformed h 0 0

/-- `a,"b ""c"", d",` with a carriage return: the last field is empty. -/
theorem parseCsv_written_quoted :
    reported (parseCsv (Bytes.ofString "a,\"b \"\"c\"\", d\"," ++ [carriageReturn])).1 =
        [(Bytes.ofString "anon1", Bytes.ofString "a"),
          (Bytes.ofString "anon2", Bytes.ofString "b \"c\", d"), (Bytes.ofString "anon3", [])] ∧
      (parseCsv (Bytes.ofString "\"a")).2 = false := by
  have hwritten : List.Forall₂ WrittenAs
      [Bytes.ofString "a", Bytes.ofString "b \"c\", d", []]
      [Bytes.ofString "a", quote :: (doubled (Bytes.ofString "b \"c\", d") ++ [quote]), []] :=
    .cons (.bare (by decide) (by decide)) (.cons .quoted (.cons (.bare (by decide) (by decide)) .nil))
  refine ⟨?_, parseCsv_written.2 _ (.unterminated (Bytes.ofString "a"))⟩
  exact (parseCsv_written.1 _ _ (by simp) (by decide +kernel) hwritten [carriageReturn]
    (Or.inr rfl)).2.trans (by decide +kernel)

end Lsql.Logfmt
