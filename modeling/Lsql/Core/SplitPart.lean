import Lsql.Core.Function
import Lsql.Flow.Pieces

/-!
# Lsql.Core.SplitPart

`SplitPart` gives what indexing the full split of its argument gives (`core/function/build/SplitPart.h`).

The executor never builds the split. It moves a view behind one separator after the other and keeps
the offset of the view in the argument; the part is then cut from the argument itself, so that a
part of a pinned string is a view into the same page.
-/

namespace Lsql

/-! ### The search for a separator -/

theorem findByte_eq_idxOf? (separator : UInt8) (curr : Bytes) :
    findByte separator curr = curr.idxOf? separator := rfl

/-- What a part is: everything up to the next separator. -/
theorem splitOn_head (separator : UInt8) (curr : Bytes) :
    (curr.splitOn separator)[0]? =
      some ((findByte separator curr).elim curr fun sep => curr.take sep) := by
  rw [findByte_eq_idxOf?]
  cases hfind : curr.idxOf? separator with
  | none =>
      rw [Flow.splitOn_of_not_mem (Flow.idxOf?_eq_none hfind)]
      rfl
  | some sep =>
      obtain ⟨hcurr, hbefore, -⟩ := Flow.idxOf?_eq_some hfind
      have hsplit := Flow.splitOn_append hbefore (curr.drop (sep + 1))
      rw [← hcurr] at hsplit
      rw [hsplit]
      rfl

/-- Without a separator there is one part. -/
theorem splitOn_of_findByte_none {separator : UInt8} {curr : Bytes}
    (h : findByte separator curr = none) (n : Nat) : (curr.splitOn separator)[n + 1]? = none := by
  rw [findByte_eq_idxOf?] at h
  rw [Flow.splitOn_of_not_mem (Flow.idxOf?_eq_none h)]
  rfl

/-- Behind a separator the other parts begin. -/
theorem splitOn_of_findByte_some {separator : UInt8} {curr : Bytes} {sep : Nat}
    (h : findByte separator curr = some sep) (n : Nat) :
    (curr.splitOn separator)[n + 1]? = ((curr.drop (sep + 1)).splitOn separator)[n]? := by
  rw [findByte_eq_idxOf?] at h
  obtain ⟨hcurr, hbefore, -⟩ := Flow.idxOf?_eq_some h
  have hsplit := Flow.splitOn_append hbefore (curr.drop (sep + 1))
  rw [← hcurr] at hsplit
  rw [hsplit]
  rfl

theorem findByte_lt {separator : UInt8} {curr : Bytes} {sep : Nat}
    (h : findByte separator curr = some sep) : sep < curr.length :=
  (Flow.idxOf?_eq_some h).2.2

/-! ### The loop -/

/-- What the loop keeps: the view is the rest of the argument from the offset on. -/
structure SplitState (s : Bytes) (offset : Nat) (curr : Bytes) : Prop where
  within : offset ≤ s.length
  rest : curr = s.drop offset

namespace SplitState

theorem start (s : Bytes) : SplitState s 0 s := ⟨Nat.zero_le _, rfl⟩

/-- One round of the loop. -/
theorem next {separator : UInt8} {s curr : Bytes} {offset sep : Nat}
    (h : SplitState s offset curr) (hfind : findByte separator curr = some sep) :
    SplitState s (offset + sep + 1) (curr.drop (sep + 1)) := by
  have hlt := findByte_lt hfind
  rw [h.rest, List.length_drop] at hlt
  refine ⟨by omega, ?_⟩
  rw [h.rest, List.drop_drop, Nat.add_assoc]

/-- The rounds of the loop. -/
theorem skipParts {separator : UInt8} {s : Bytes} {n : Nat} :
    ∀ {offset offset' : Nat} {curr curr' : Bytes}, SplitState s offset curr →
      Lsql.skipParts separator n offset curr = some (offset', curr') →
        SplitState s offset' curr' := by
  induction n with
  | zero =>
      intro offset offset' curr curr' h hskip
      cases hskip
      exact h
  | succ n ih =>
      intro offset offset' curr curr' h hskip
      rw [Lsql.skipParts] at hskip
      cases hfind : findByte separator curr with
      | none =>
          rw [hfind] at hskip
          cases hskip
      | some sep =>
          rw [hfind] at hskip
          exact ih (h.next hfind) hskip

end SplitState

/-- Which part the loop stops before: the parts of what is left are the parts from the index on. -/
theorem splitOn_skipParts (separator : UInt8) (n offset : Nat) (curr : Bytes) :
    (curr.splitOn separator)[n]? =
      (Lsql.skipParts separator n offset curr).bind fun found =>
        (found.2.splitOn separator)[0]? := by
  induction n generalizing offset curr with
  | zero => rfl
  | succ n ih =>
      rw [skipParts]
      cases hfind : findByte separator curr with
      | none => exact splitOn_of_findByte_none hfind n
      | some sep => rw [splitOn_of_findByte_some hfind n, ih (offset + sep + 1)]

/-! ### The part -/

/-- A part of a string value: an owned string has a copy of it, a pinned one a view of the same page,
with the bytes that follow the part in the page behind it. -/
inductive PartOf (part : Bytes) : Value → Value → Prop
  | owned (s : Bytes) : PartOf part (.string s) (.string part)
  | pinned (s : PinnedString) {rest : Bytes} {offset : Nat} (within : offset ≤ s.view.length)
      (page : part ++ rest = (s.view ++ s.rest).drop offset) :
      PartOf part (.pinned s) (.pinned ⟨part, rest⟩)

/-- What `substr` cuts, at an offset within the string. -/
theorem substr_partOf {value : Value} {s : Bytes} (hs : value.getView = .ok s) {offset : Nat}
    (hoffset : offset ≤ s.length) (len : Option Nat) :
    ∃ result, value.substr offset len = .ok result ∧
      PartOf (len.elim (s.drop offset) fun n => (s.drop offset).take n) value result := by
  cases value with
  | string t =>
      cases hs
      refine ⟨_, if_pos hoffset, ?_⟩
      cases len <;> exact .owned _
  | pinned t =>
      cases hs
      have hcut : (len.elim (t.view.drop offset) fun n => (t.view.drop offset).take n) <+:
          t.view.drop offset := by
        cases len with
        | none => exact List.prefix_refl _
        | some n => exact List.take_prefix _ _
      have hpage := congrArg (· ++ t.rest) (List.prefix_iff_eq_append.mp hcut)
      simp only [List.append_assoc, List.drop_drop] at hpage
      rw [← List.drop_append_of_le_length hoffset] at hpage
      cases len <;> exact ⟨_, if_pos hoffset, .pinned t hoffset hpage⟩
  | null => cases hs
  | integer x => cases hs
  | floating x => cases hs
  | boolean x => cases hs

/-- The executor on a string: the loop, and the cut behind it. -/
theorem splitPartExecutor_of_getView (separator : UInt8) (index : Nat) {value : Value} {s : Bytes}
    (hs : value.getView = .ok s) :
    splitPartExecutor separator index value = (skipParts separator index 0 s).elim (.ok .null)
      fun found => value.substr found.1 (findByte separator found.2) := by
  have hnull : value.isNull = false := by
    cases value <;> first | rfl | cases hs
  rw [splitPartExecutor, hnull, if_neg Bool.false_ne_true, hs, ok_bind]
  cases skipParts separator index 0 s <;> rfl

/-- **`SplitPart` is indexing.** On a string value the executor returns, and every offset it takes
lies within the string: those at which its loop moves on, and the one at which it cuts. -/
theorem splitPartExecutor_eq_getElem (separator : UInt8) (index : Nat) {value : Value} {s : Bytes}
    (hs : value.getView = .ok s) :
    (∃ result, splitPartExecutor separator index value = .ok result ∧
      (result = .null ↔ (s.splitOn separator).length ≤ index) ∧
      ∀ part, (s.splitOn separator)[index]? = some part → PartOf part value result) ∧
    ∀ (n offset : Nat) (curr : Bytes), skipParts separator n 0 s = some (offset, curr) →
      offset ≤ s.length ∧ curr = s.drop offset ∧
        ∀ sep, findByte separator curr = some sep → sep + 1 ≤ curr.length := by
  refine ⟨?_, ?_⟩
  · have hpart := splitOn_skipParts separator index 0 s
    rw [splitPartExecutor_of_getView separator index hs]
    cases hskip : skipParts separator index 0 s with
    | none =>
        rw [hskip] at hpart
        have hlength := List.getElem?_eq_none_iff.mp hpart
        refine ⟨_, rfl, by simp [hlength], ?_⟩
        intro part hsome
        rw [hpart] at hsome
        cases hsome
    | some found =>
        obtain ⟨offset, curr⟩ := found
        have hstate := (SplitState.start s).skipParts hskip
        obtain ⟨result, hresult, hcut⟩ :=
          substr_partOf hs hstate.within (findByte separator curr)
        rw [hskip, Option.bind_some, splitOn_head] at hpart
        rw [← hstate.rest] at hcut
        have hlt := (List.getElem?_eq_some_iff.mp hpart).1
        refine ⟨result, hresult, ?_, ?_⟩
        · constructor
          · rintro rfl
            cases hcut
          · intro hle
            omega
        · intro part hsome
          rw [hpart] at hsome
          cases hsome
          exact hcut
  · intro n offset curr hskip
    have hstate := (SplitState.start s).skipParts hskip
    exact ⟨hstate.within, hstate.rest, fun sep hfind => findByte_lt hfind⟩

/-- The part behind two adjacent separators, of a string that is pinned. -/
theorem splitPartExecutor_eq_getElem_pinned :
    (∃ result, splitPartExecutor 44 2 (.pinned ⟨[97, 44, 44, 98], [10]⟩) = .ok result ∧
      (result = .null ↔ (List.splitOn 44 ([97, 44, 44, 98] : Bytes)).length ≤ 2) ∧
      ∀ part, (List.splitOn 44 ([97, 44, 44, 98] : Bytes))[2]? = some part →
        PartOf part (.pinned ⟨[97, 44, 44, 98], [10]⟩) result) ∧
    ∀ (n offset : Nat) (curr : Bytes), skipParts 44 n 0 [97, 44, 44, 98] = some (offset, curr) →
      offset ≤ ([97, 44, 44, 98] : Bytes).length ∧ curr = ([97, 44, 44, 98] : Bytes).drop offset ∧
        ∀ sep, findByte 44 curr = some sep → sep + 1 ≤ curr.length :=
  @splitPartExecutor_eq_getElem 44 2 (.pinned ⟨[97, 44, 44, 98], [10]⟩) [97, 44, 44, 98] rfl

end Lsql
