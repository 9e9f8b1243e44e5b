import Lsql.Core.Schema
import Lsql.Core.Platform
import Lsql.Logfmt.KeyValue

/-!
# Lsql.Output.TSKVFormatter

The records of a query as TSKV lines (`output/TSKVFormatter.h`), and what the TSKV parser reads in
them.
-/

namespace Lsql.Output

open Logfmt (tab newline equals reported parseTskv parseTsLogfmt Reports)

/-! ### The formatter -/

/-- `to_string(value)`. -/
def valueText [Platform] : Value → Bytes
  | .null => Bytes.ofString "null"
  | .boolean x => Bytes.ofString (if x then "true" else "false")
  | .integer x => Bytes.ofString (toString x.toInt)
  | .floating x => Platform.floatToString x
  | .string s => s
  | .pinned s => s.view

/-- `TSKVFormatter::consume`, with `binding->name(id)` as a function: the text that is pushed to the
sink. -/
def consumeTSKV [Platform] (name : FieldId → Except Fault Bytes) (r : List (FieldId × Value)) :
    Except Fault Bytes :=
  r.foldlM (fun ss (id, value) => do
    let name ← name id
    pure (ss ++ name ++ [equals] ++ valueText value ++ [tab])) []

section Values

variable [Platform]

/-- The text of a string value is its bytes. -/
theorem valueText_of_getView {value : Value} {text : Bytes} (h : value.getView = .ok text) :
    valueText value = text := by
  cases value <;> cases h <;> rfl

/-- The token of a field. -/
def fieldToken (field : Bytes × Bytes) : Bytes := field.1 ++ equals :: field.2

/-- What the loop appends for the fields of a record of string values. -/
theorem consumeTSKV_append {name : FieldId → Except Fault Bytes} {r : List (FieldId × Value)}
    {fields : List (Bytes × Bytes)}
    (h : List.Forall₂ (fun f t => name f.1 = .ok t.1 ∧ f.2.getView = .ok t.2) r fields) (ss : Bytes) :
    r.foldlM (fun ss (f : FieldId × Value) => do
        let name ← name f.1
        pure (ss ++ name ++ [equals] ++ valueText f.2 ++ [tab])) ss =
      (.ok (ss ++ (fields.map fieldToken).flatMap fun token => token ++ [tab]) : Except Fault Bytes) := by
  induction h generalizing ss with
  | nil => simp
  | @cons f t r fields hfield _ ih =>
      rw [List.foldlM_cons, hfield.1, ok_bind, pure_eq_ok, ok_bind, ih,
        valueText_of_getView hfield.2]
      simp [fieldToken]

theorem consumeTSKV_eq {name : FieldId → Except Fault Bytes} {r : List (FieldId × Value)}
    {fields : List (Bytes × Bytes)}
    (h : List.Forall₂ (fun f t => name f.1 = .ok t.1 ∧ f.2.getView = .ok t.2) r fields) :
    consumeTSKV name r = .ok ((fields.map fieldToken).flatMap fun token => token ++ [tab]) :=
  consumeTSKV_append h []

omit [Platform] in
/-- The token of a field stands for the field. -/
theorem reports_fieldTokens {fields : List (Bytes × Bytes)} (h : ∀ field ∈ fields, equals ∉ field.1)
    (named : Nat) : Reports named (fields.map fieldToken) fields := by
  induction fields with
  | nil => exact .nil
  | cons field fields ih =>
      exact .pair (h field List.mem_cons_self) (ih fun other hmem => h other (List.mem_cons_of_mem _ hmem))

omit [Platform] in
theorem tab_notMem_fieldToken {field : Bytes × Bytes} (hname : tab ∉ field.1) (htext : tab ∉ field.2) :
    tab ∉ fieldToken field := by
  rw [fieldToken, List.mem_append, List.mem_cons, not_or, not_or]
  exact ⟨hname, by decide, htext⟩

/-- **Key-value lines**: tokens are reported as what they stand for, whichever of the two parsers reads
them, and the parser reads the fields of a record in the line that is printed for it. -/
theorem keyValues_reported :
    (∀ texts : List Bytes, (∀ text ∈ texts, text ≠ [] ∧ tab ∉ text ∧ newline ∉ text) →
        (parseTskv ([tab].intercalate texts)).2 = true ∧
          Reports 0 texts (reported (parseTskv ([tab].intercalate texts)).1)) ∧
      (∀ (head : Logfmt.Head) (texts : List Bytes),
        (∀ text ∈ texts, text ≠ [] ∧ Logfmt.space ∉ text ∧ newline ∉ text) →
          (parseTsLogfmt (head.line texts)).2 = true ∧ ∃ pairs, Reports 0 texts pairs ∧
            reported (parseTsLogfmt (head.line texts)).1 =
              (Bytes.ofString "timestamp", head.timestamp) :: pairs) ∧
      (∀ (named : Nat) (texts : List Bytes) (pairs pairs' : List (Bytes × Bytes)),
        Reports named texts pairs → Reports named texts pairs' → pairs = pairs') ∧
      ∀ (name : FieldId → Except Fault Bytes) (r : List (FieldId × Value))
        (fields : List (Bytes × Bytes)),
        List.Forall₂ (fun f t => name f.1 = .ok t.1 ∧ f.2.getView = .ok t.2) r fields →
          (∀ field ∈ fields, equals ∉ field.1 ∧ tab ∉ field.1 ∧ newline ∉ field.1 ∧
            tab ∉ field.2 ∧ newline ∉ field.2) →
            ∃ line, consumeTSKV name r = .ok line ∧ (parseTskv line).2 = true ∧
              newline ∉ line ∧ reported (parseTskv line).1 = fields := by
  refine ⟨fun texts h => ⟨rfl, ?_⟩, fun head texts h => ?_, fun named texts pairs pairs' => ?_, ?_⟩
  · exact Logfmt.parseTskv_intercalate fun text hmem => ⟨(h text hmem).1, (h text hmem).2.1⟩
  · exact Logfmt.parseTsLogfmt_line head fun text hmem => ⟨(h text hmem).1, (h text hmem).2.1⟩
  · exact Reports.unique
  · intro name r fields hfields h
    have htab : ∀ token ∈ fields.map fieldToken, tab ∉ token := by
      intro token htoken
      obtain ⟨field, hmem, rfl⟩ := List.mem_map.mp htoken
      exact tab_notMem_fieldToken (h field hmem).2.1 (h field hmem).2.2.2.1
    refine ⟨_, consumeTSKV_eq hfields, rfl, ?_, ?_⟩
    · -- a record is one line
      simp only [List.mem_flatMap, List.mem_map, List.mem_append, List.mem_singleton]
      rintro ⟨token, ⟨field, hmem, rfl⟩, htoken | htoken⟩
      · obtain ⟨-, -, hname, -, htext⟩ := h field hmem
        rw [fieldToken, List.mem_append, List.mem_cons] at htoken
        rcases htoken with hin | heq | hin
        · exact hname hin
        · exact absurd heq (by decide)
        · exact htext hin
      · exact absurd htoken (by decide)
    · exact (Logfmt.parseTskv_terminated htab).unique
        (reports_fieldTokens (fun field hmem => (h field hmem).1) 0)

end Values

/-- The first column is called `a`, the others have the empty name. -/
def firstNamed (id : FieldId) : Except Fault Bytes := .ok (if id = 1 then [97] else [])

/-- A token with two `=`, one with none and an empty pair; and a record with an empty column. -/
theorem keyValues_reported_tokens :
    Reports 0 [[97, 61, 49, 61, 50], [120], [61]]
        (reported (parseTskv ([tab].intercalate [[97, 61, 49, 61, 50], [120], [61]])).1) ∧
      (∃ pairs, Reports 0 [[120], [97, 61]] pairs ∧
        reported (parseTsLogfmt
            (Logfmt.Head.line ⟨91, List.replicate 20 48, [93], rfl, by decide⟩ [[120], [97, 61]])).1 =
          (Bytes.ofString "timestamp", List.replicate 20 48) :: pairs) ∧
      ([] : List (Bytes × Bytes)) = [] ∧
      ∃ line, @consumeTSKV Platform.inert firstNamed [(1, .string [61]), (2, .pinned ⟨[], [10]⟩)] =
          .ok line ∧
        reported (parseTskv line).1 = [([97], [61]), ([], [])] := by
  have h := @keyValues_reported Platform.inert
  obtain ⟨line, hline, -, -, hread⟩ := h.2.2.2 firstNamed [(1, .string [61]), (2, .pinned ⟨[], [10]⟩)]
    [([97], [61]), ([], [])] (.cons ⟨rfl, rfl⟩ (.cons ⟨rfl, rfl⟩ .nil)) (by decide)
  exact ⟨(h.1 _ (by decide)).2, (h.2.1 _ _ (by decide)).2, h.2.2.1 0 [] [] [] .nil .nil, line, hline,
    hread⟩

end Lsql.Output
