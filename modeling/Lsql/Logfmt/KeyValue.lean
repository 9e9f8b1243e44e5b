import Lsql.Flow.Pieces
import Lsql.Logfmt.LogTypes

/-!
# Lsql.Logfmt.KeyValue

What the TSKV and the TS_LOGFMT parser report of a line (`back/logfmt/log_types/tskv.h`,
`ts_logfmt.h`).

Both cut the line into tokens at a separator of one byte, the one a tab, the other, behind the head of
the line, a space. A token with `=` is a key and a value, another one the value of the next anonymous
column.
-/

namespace Lsql.Logfmt

/-! ### What tokens stand for -/

/-- The pairs that tokens are reported as, when so many anonymous columns have been named. -/
inductive Reports : Nat → List Bytes → List (Bytes × Bytes) → Prop
  | nil {named : Nat} : Reports named [] []
  | pair {named : Nat} {key value : Bytes} {tokens : List Bytes} {pairs : List (Bytes × Bytes)}
      (hkey : equals ∉ key) (hrest : Reports named tokens pairs) :
      Reports named ((key ++ equals :: value) :: tokens) ((key, value) :: pairs)
  | anonymous {named : Nat} {token : Bytes} {tokens : List Bytes} {pairs : List (Bytes × Bytes)}
      (htoken : equals ∉ token) (hnamed : named < anonColumns)
      (hrest : Reports (named + 1) tokens pairs) :
      Reports named (token :: tokens) ((anonColumnName named, token) :: pairs)
  | skipped {named : Nat} {token : Bytes} {tokens : List Bytes} {pairs : List (Bytes × Bytes)}
      (htoken : equals ∉ token) (hnamed : anonColumns ≤ named) (hrest : Reports named tokens pairs) :
      Reports named (token :: tokens) pairs

/-- The first `=` of a token. -/
theorem key_unique {key key' value value' : Bytes} (hkey : equals ∉ key) (hkey' : equals ∉ key')
    (h : key ++ equals :: value = key' ++ equals :: value') : key = key' ∧ value = value' := by
  induction key generalizing key' with
  | nil =>
      cases key' with
      | nil => exact ⟨rfl, (List.cons.inj h).2⟩
      | cons b key' => exact absurd ((List.cons.inj h).1 ▸ List.mem_cons_self) hkey'
  | cons b key ih =>
      cases key' with
      | nil => exact absurd ((List.cons.inj h).1 ▸ List.mem_cons_self) hkey
      | cons c key' =>
          obtain ⟨rfl, htail⟩ := List.cons.inj h
          obtain ⟨rfl, hvalue⟩ := ih (fun hmem => hkey (List.mem_cons_of_mem _ hmem))
            (fun hmem => hkey' (List.mem_cons_of_mem _ hmem)) htail
          exact ⟨rfl, hvalue⟩

/-- Tokens are reported in one way. -/
theorem Reports.unique {named : Nat} {tokens : List Bytes} {pairs pairs' : List (Bytes × Bytes)}
    (h : Reports named tokens pairs) (h' : Reports named tokens pairs') : pairs = pairs' := by
  induction h generalizing pairs' with
  | nil =>
      cases h'
      rfl
  | @pair named key value tokens pairs hkey _ ih =>
      generalize htoken : key ++ equals :: value = token at h'
      cases h' with
      | pair hkey' hrest' =>
          obtain ⟨rfl, rfl⟩ := key_unique hkey hkey' htoken
          rw [ih hrest']
      | anonymous hnot => exact absurd (htoken ▸ by simp) hnot
      | skipped hnot => exact absurd (htoken ▸ by simp) hnot
  | @anonymous named token tokens pairs hnot hnamed _ ih =>
      cases h' with
      | pair => exact absurd (by simp) hnot
      | anonymous _ _ hrest' => rw [ih hrest']
      | skipped _ hle => exact absurd hnamed (Nat.not_lt.mpr hle)
  | @skipped named token tokens pairs hnot hle _ ih =>
      cases h' with
      | pair => exact absurd (by simp) hnot
      | anonymous _ hnamed => exact absurd hnamed (Nat.not_lt.mpr hle)
      | skipped _ _ hrest' => exact ih hrest'

/-! ### The loop over the tokens -/

/-- The loop reports the tokens in order, each as what it stands for. -/
theorem reports_keyValues (named : Nat) (views : List View) :
    Reports named (views.map View.bytes) (reported (keyValues named views)) := by
  induction views generalizing named with
  | nil => exact .nil
  | cons token views ih =>
      rw [keyValues]
      cases hfind : token.find equals with
      | none =>
          have hnot : equals ∉ token.bytes := Flow.idxOf?_eq_none hfind
          by_cases hnamed : named < anonColumns
          · simp only [if_pos hnamed]
            exact .anonymous hnot hnamed (ih (named + 1))
          · simp only [if_neg hnamed]
            exact .skipped hnot (Nat.le_of_not_lt hnamed) (ih named)
      | some eq =>
          obtain ⟨htoken, hkey, -⟩ := Flow.idxOf?_eq_some hfind
          rw [List.map_cons, htoken]
          exact .pair hkey (ih named)

/-! ### The tokens of a line -/

/-- A token that the separator ends. -/
theorem tokens_append {sep : UInt8} {token : Bytes} (h : sep ∉ token) (offset : Nat)
    (start rest : Bytes) :
    tokens sep offset start (token ++ sep :: rest) = ⟨offset, start ++ token⟩ ::
      tokens sep (offset + (start ++ token).length + 1) [] rest := by
  induction token generalizing start with
  | nil => simp [tokens]
  | cons b token ih =>
      obtain ⟨hb, htoken⟩ := not_or.mp (List.mem_cons.not.mp h)
      rw [List.cons_append, tokens, if_neg (Ne.symm hb), ih htoken, List.append_assoc,
        List.singleton_append]

/-- The last token of a line. -/
theorem tokens_last {sep : UInt8} {token : Bytes} (h : sep ∉ token) (offset : Nat) (start : Bytes)
    (hne : start ++ token ≠ []) : tokens sep offset start token = [⟨offset, start ++ token⟩] := by
  induction token generalizing start with
  | nil =>
      rw [List.append_nil] at hne ⊢
      rw [tokens, if_neg (by simpa using hne)]
  | cons b token ih =>
      obtain ⟨hb, htoken⟩ := not_or.mp (List.mem_cons.not.mp h)
      rw [tokens, if_neg (Ne.symm hb), ih htoken _ (by simp), List.append_assoc,
        List.singleton_append]

/-- Tokens with separators between them. -/
theorem tokens_intercalate {sep : UInt8} {texts : List Bytes}
    (h : ∀ text ∈ texts, text ≠ [] ∧ sep ∉ text) (offset : Nat) :
    (tokens sep offset [] ([sep].intercalate texts)).map View.bytes = texts := by
  induction texts generalizing offset with
  | nil => rfl
  | cons text texts ih =>
      obtain ⟨hne, hsep⟩ := h text List.mem_cons_self
      have hrest : ∀ text ∈ texts, text ≠ [] ∧ sep ∉ text :=
        fun other hmem => h other (List.mem_cons_of_mem _ hmem)
      cases texts with
      | nil =>
          rw [List.intercalate_singleton, tokens_last hsep _ _ (by simpa using hne)]
          rfl
      | cons next texts =>
          rw [List.intercalate_cons_cons, List.append_assoc, List.singleton_append, tokens_append hsep,
            List.map_cons, ih hrest]
          rfl

/-- Tokens each of which the separator ends; then they may be empty. -/
theorem tokens_terminated {sep : UInt8} {texts : List Bytes} (h : ∀ text ∈ texts, sep ∉ text)
    (offset : Nat) :
    (tokens sep offset [] (texts.flatMap fun text => text ++ [sep])).map View.bytes = texts := by
  induction texts generalizing offset with
  | nil => rfl
  | cons text texts ih =>
      rw [List.flatMap_cons, List.append_assoc, List.singleton_append,
        tokens_append (h text List.mem_cons_self), List.map_cons,
        ih fun other hmem => h other (List.mem_cons_of_mem _ hmem)]
      rfl

/-! ### Lines -/

/-- **TSKV**: tokens with tabs between them. -/
theorem parseTskv_intercalate {texts : List Bytes} (h : ∀ text ∈ texts, text ≠ [] ∧ tab ∉ text) :
    Reports 0 texts (reported (parseTskv ([tab].intercalate texts)).1) := by
  have hreports := reports_keyValues 0 (tokens tab 0 [] ([tab].intercalate texts))
  rwa [tokens_intercalate h] at hreports

/-- TSKV with a tab behind every token. -/
theorem parseTskv_terminated {texts : List Bytes} (h : ∀ text ∈ texts, tab ∉ text) :
    Reports 0 texts (reported (parseTskv (texts.flatMap fun text => text ++ [tab])).1) := by
  have hreports := reports_keyValues 0 (tokens tab 0 [] (texts.flatMap fun text => text ++ [tab]))
  rwa [tokens_terminated h] at hreports

/-- The head of a TS_LOGFMT line: a byte, the twenty of the timestamp, and what closes it. -/
structure Head where
  opening : UInt8
  timestamp : Bytes
  closing : Bytes
  size : timestamp.length = 20
  closed : space ∉ closing

/-- The bytes of a head. -/
def Head.bytes (head : Head) : Bytes := head.opening :: (head.timestamp ++ head.closing)

/-- The line of a head, and of tokens that spaces separate from it and from each other. -/
def Head.line (head : Head) (texts : List Bytes) : Bytes := [space].intercalate (head.bytes :: texts)

section Line

variable (head : Head) (behind : Bytes)

theorem Head.length_bytes : ¬ (head.bytes ++ behind).length < 21 := by
  have hsize := head.size
  rw [Head.bytes, List.length_append, List.length_cons, List.length_append, hsize]
  omega

/-- The bytes after the opening one are the timestamp. -/
theorem Head.take_drop :
    ((View.whole (head.bytes ++ behind)).drop 1).take 20 = ⟨1, head.timestamp⟩ := by
  rw [View.take, View.drop, View.whole, Head.bytes, List.cons_append, List.drop_succ_cons,
    List.drop_zero, List.append_assoc, List.take_append_of_le_length (Nat.le_of_eq head.size.symm),
    List.take_of_length_le (Nat.le_of_eq head.size)]

theorem Head.drop_bytes :
    ((View.whole (head.bytes ++ behind)).drop 21).bytes = head.closing ++ behind := by
  rw [View.drop, View.whole, Head.bytes, List.cons_append, List.drop_succ_cons, List.append_assoc,
    ← head.size, List.drop_left]

/-- A line with nothing behind its head. -/
theorem parseTsLogfmt_head : parseTsLogfmt head.bytes =
    ([(Bytes.ofString "timestamp", .view ⟨1, head.timestamp⟩)], true) := by
  have hlength := head.length_bytes []
  have htimestamp := head.take_drop []
  have hrest := head.drop_bytes []
  rw [List.append_nil] at hlength htimestamp hrest
  have hsep : ((View.whole head.bytes).drop 21).find space = none := by
    rw [View.find, hrest, List.append_nil]
    exact List.idxOf?_eq_none_iff.mpr head.closed
  rw [parseTsLogfmt, if_neg hlength]
  simp only [hsep, htimestamp]

/-- A line with tokens behind the first space after the timestamp. -/
theorem parseTsLogfmt_space : ∃ offset, parseTsLogfmt (head.bytes ++ space :: behind) =
    ((Bytes.ofString "timestamp", .view ⟨1, head.timestamp⟩) ::
      keyValues 0 (tokens space offset [] behind), true) := by
  have htimestamp := head.take_drop (space :: behind)
  have hrest := head.drop_bytes (space :: behind)
  have hsep : ((View.whole (head.bytes ++ space :: behind)).drop 21).find space =
      some head.closing.length := by
    rw [View.find, hrest]
    exact Flow.idxOf?_append head.closed behind
  have hbehind : (((View.whole (head.bytes ++ space :: behind)).drop 21).drop
      (head.closing.length + 1)).bytes = behind := by
    rw [View.drop, hrest, ← List.drop_drop, List.drop_left, List.drop_succ_cons, List.drop_zero]
  refine ⟨(((View.whole (head.bytes ++ space :: behind)).drop 21).drop
    (head.closing.length + 1)).offset, ?_⟩
  rw [parseTsLogfmt, if_neg (head.length_bytes _)]
  simp only [hsep, htimestamp, hbehind]

end Line

/-- **TS_LOGFMT**: the head, and what the tokens behind it stand for. -/
theorem parseTsLogfmt_line (head : Head) {texts : List Bytes}
    (h : ∀ text ∈ texts, text ≠ [] ∧ space ∉ text) :
    (parseTsLogfmt (head.line texts)).2 = true ∧ ∃ pairs, Reports 0 texts pairs ∧
      reported (parseTsLogfmt (head.line texts)).1 =
        (Bytes.ofString "timestamp", head.timestamp) :: pairs := by
  cases texts with
  | nil =>
      rw [Head.line, List.intercalate_singleton, parseTsLogfmt_head]
      exact ⟨rfl, [], .nil, rfl⟩
  | cons text texts =>
      obtain ⟨offset, hparsed⟩ := parseTsLogfmt_space head ([space].intercalate (text :: texts))
      have hreports :=
        reports_keyValues 0 (tokens space offset [] ([space].intercalate (text :: texts)))
      rw [tokens_intercalate h] at hreports
      rw [Head.line, List.intercalate_cons_cons, List.append_assoc, List.singleton_append, hparsed]
      exact ⟨rfl, _, hreports, rfl⟩

end Lsql.Logfmt
