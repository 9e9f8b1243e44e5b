import Mathlib.Data.List.Basic
import Mathlib.Logic.Function.Basic

/-!
# Lsql.Flow.Merge

Merging two sorted sequences a piece at a time.

`Interleave l r m` says that `m` runs through `l` and `r` keeping the order of each. A merge is an
interleaving that is sorted. `PartialMerge` is what has been put out of a merge and what either side
has left: it starts with nothing put out (`PartialMerge.start`), grows by the head of a side that is
not above the rest of the other one (`PartialMerge.take`), and can always be completed
(`PartialMerge.complete`).
-/

namespace Flow

variable {α : Type}

/-- One of two inputs. -/
inductive Side
  | left
  | right
  deriving DecidableEq, Repr

namespace Side

/-- `1 - Index`. -/
def other : Side → Side
  | left => right
  | right => left

@[simp] theorem other_other (s : Side) : s.other.other = s := by cases s <;> rfl

@[simp] theorem other_ne (s : Side) : s.other ≠ s := by cases s <;> simp [other]

@[simp] theorem ne_other (s : Side) : s ≠ s.other := by cases s <;> simp [other]

theorem eq_or_other (s t : Side) : t = s ∨ t = s.other := by
  cases s <;> cases t <;> simp [other]

end Side

/-! ### Interleavings -/

/-- `m` is made of `l` and `r`, each in its order. -/
inductive Interleave : List α → List α → List α → Prop
  | nil : Interleave [] [] []
  | left {x : α} {l r m : List α} : Interleave l r m → Interleave (x :: l) r (x :: m)
  | right {x : α} {l r m : List α} : Interleave l r m → Interleave l (x :: r) (x :: m)

namespace Interleave

variable {l r m l' r' m' : List α}

theorem perm (h : Interleave l r m) : m.Perm (l ++ r) := by
  induction h with
  | nil => exact .nil
  | left _ ih => exact ih.cons _
  | right _ ih => exact (ih.cons _).trans List.perm_middle.symm

theorem left_sublist (h : Interleave l r m) : l.Sublist m := by
  induction h with
  | nil => exact .slnil
  | left _ ih => exact ih.cons_cons _
  | right _ ih => exact ih.cons _

theorem right_sublist (h : Interleave l r m) : r.Sublist m := by
  induction h with
  | nil => exact .slnil
  | left _ ih => exact ih.cons _
  | right _ ih => exact ih.cons_cons _

theorem append (h : Interleave l r m) (h' : Interleave l' r' m') :
    Interleave (l ++ l') (r ++ r') (m ++ m') := by
  induction h with
  | nil => exact h'
  | left _ ih => exact .left ih
  | right _ ih => exact .right ih

theorem all_left (l : List α) : Interleave l [] l := by
  induction l with
  | nil => exact .nil
  | cons x l ih => exact .left ih

theorem all_right (r : List α) : Interleave [] r r := by
  induction r with
  | nil => exact .nil
  | cons x r ih => exact .right ih

end Interleave

/-! ### Merges -/

/-- A relation that is transitive and total on the elements that satisfy `P`. -/
structure OrderedOn (P : α → Prop) (le : α → α → Prop) : Prop where
  total : ∀ {a b}, P a → P b → le a b ∨ le b a
  trans : ∀ {a b c}, P a → P b → P c → le a b → le b c → le a c

/-- `m` is a sorted interleaving. -/
structure SortedMerge (le : α → α → Prop) (l r m : List α) : Prop where
  interleave : Interleave l r m
  sorted : m.Pairwise le

/-- Sorted sequences have a merge. -/
theorem exists_sortedMerge {P : α → Prop} {le : α → α → Prop} (hle : OrderedOn P le) :
    ∀ {l r : List α}, (∀ x ∈ l, P x) → (∀ x ∈ r, P x) → l.Pairwise le → r.Pairwise le →
      ∃ m, SortedMerge le l r m
  | [], r, _, _, _, hr => ⟨r, .all_right r, hr⟩
  | l, [], _, _, hl, _ => ⟨l, .all_left l, hl⟩
  | x :: l, y :: r, hPl, hPr, hl, hr => by
    have hx := hPl x (by simp)
    have hy := hPr y (by simp)
    have hl' := List.pairwise_cons.mp hl
    have hr' := List.pairwise_cons.mp hr
    rcases hle.total hx hy with hxy | hyx
    · obtain ⟨m, hm⟩ := exists_sortedMerge hle (fun z hz => hPl z (by simp [hz])) hPr hl'.2 hr
      refine ⟨x :: m, hm.interleave.left, List.pairwise_cons.mpr ⟨fun z hz => ?_, hm.sorted⟩⟩
      rcases List.mem_append.mp (hm.interleave.perm.subset hz) with hz | hz
      · exact hl'.1 z hz
      · rcases List.mem_cons.mp hz with rfl | hz
        · exact hxy
        · exact hle.trans hx hy (hPr z (by simp [hz])) hxy (hr'.1 z hz)
    · obtain ⟨m, hm⟩ := exists_sortedMerge hle hPl (fun z hz => hPr z (by simp [hz])) hl hr'.2
      refine ⟨y :: m, hm.interleave.right, List.pairwise_cons.mpr ⟨fun z hz => ?_, hm.sorted⟩⟩
      rcases List.mem_append.mp (hm.interleave.perm.subset hz) with hz | hz
      · rcases List.mem_cons.mp hz with rfl | hz
        · exact hyx
        · exact hle.trans hy hx (hPl z (by simp [hz])) hyx (hl'.1 z hz)
      · exact hr'.1 z hz

/-- What has been put out of a merge of `inputs`, and what is left on either side. -/
structure PartialMerge (le : α → α → Prop) (inputs : Side → List α) (out : List α)
    (rest : Side → List α) : Prop where
  split : ∃ taken : Side → List α, (∀ s, inputs s = taken s ++ rest s) ∧
    Interleave (taken .left) (taken .right) out
  sorted : out.Pairwise le
  below : ∀ x ∈ out, ∀ s, ∀ y ∈ rest s, le x y

namespace PartialMerge

variable {le : α → α → Prop} {inputs rest : Side → List α} {out : List α}

theorem start (le : α → α → Prop) (inputs : Side → List α) : PartialMerge le inputs [] inputs where
  split := ⟨fun _ => [], fun _ => rfl, .nil⟩
  sorted := .nil
  below := by simp

theorem mem_inputs (h : PartialMerge le inputs out rest) {s : Side} {x : α} (hx : x ∈ rest s) :
    x ∈ inputs s := by
  obtain ⟨taken, hsplit, -⟩ := h.split
  rw [hsplit s]
  exact List.mem_append_right _ hx

theorem rest_sorted (h : PartialMerge le inputs out rest) {s : Side}
    (hs : (inputs s).Pairwise le) : (rest s).Pairwise le := by
  obtain ⟨taken, hsplit, -⟩ := h.split
  rw [hsplit s] at hs
  exact (List.pairwise_append.mp hs).2.1

/-- What is not above the head of a side is not above the rest of it. -/
theorem le_rest {P : α → Prop} (hle : OrderedOn P le) (h : PartialMerge le inputs out rest)
    {s : Side} (hP : ∀ x ∈ inputs s, P x) (hs : (inputs s).Pairwise le) {x y : α} {ys : List α}
    (hrest : rest s = y :: ys) (hx : P x) (hxy : le x y) : ∀ z ∈ rest s, le x z := by
  intro z hz
  have hsorted := h.rest_sorted hs
  rw [hrest] at hz hsorted
  have hy : P y := hP y (h.mem_inputs (by simp [hrest]))
  rcases List.mem_cons.mp hz with rfl | hz
  · exact hxy
  · exact hle.trans hx hy (hP z (h.mem_inputs (by simp [hrest, hz]))) hxy
      ((List.pairwise_cons.mp hsorted).1 z hz)

/-- Putting out the head of a side. -/
theorem take (h : PartialMerge le inputs out rest) {s : Side} (hs : (inputs s).Pairwise le) {x : α}
    {xs : List α} (hrest : rest s = x :: xs) (hx : ∀ y ∈ rest s.other, le x y) :
    PartialMerge le inputs (out ++ [x]) (Function.update rest s xs) where
  split := by
    obtain ⟨taken, hsplit, hint⟩ := h.split
    refine ⟨Function.update taken s (taken s ++ [x]), fun t => ?_, ?_⟩
    · rcases s.eq_or_other t with rfl | rfl
      · simp [hsplit, hrest]
      · simp [hsplit]
    · cases s with
      | left => simpa using hint.append (Interleave.left .nil)
      | right => simpa using hint.append (Interleave.right .nil)
  sorted := by
    refine List.pairwise_append.mpr ⟨h.sorted, List.pairwise_singleton _ _, fun y hy z hz => ?_⟩
    rw [List.mem_singleton.mp hz]
    exact h.below y hy s x (by simp [hrest])
  below y hy t z hz := by
    rcases s.eq_or_other t with rfl | rfl
    · have hz : z ∈ xs := by simpa using hz
      rcases List.mem_append.mp hy with hy | hy
      · exact h.below y hy t z (by simp [hrest, hz])
      · rw [List.mem_singleton.mp hy]
        have := h.rest_sorted hs
        rw [hrest] at this
        exact (List.pairwise_cons.mp this).1 z hz
    · have hz : z ∈ rest s.other := by simpa using hz
      rcases List.mem_append.mp hy with hy | hy
      · exact h.below y hy s.other z hz
      · rw [List.mem_singleton.mp hy]
        exact hx z hz

/-- Nothing is left: the output is a merge. -/
theorem finish (h : PartialMerge le inputs out rest) (hrest : ∀ s, rest s = []) :
    SortedMerge le (inputs .left) (inputs .right) out where
  interleave := by
    obtain ⟨taken, hsplit, hint⟩ := h.split
    rw [hsplit .left, hsplit .right, hrest, hrest, List.append_nil, List.append_nil]
    exact hint
  sorted := h.sorted

/-- The output can be completed to a merge. -/
theorem complete {P : α → Prop} (hle : OrderedOn P le) (h : PartialMerge le inputs out rest)
    (hP : ∀ s, ∀ x ∈ inputs s, P x) (hs : ∀ s, (inputs s).Pairwise le) :
    ∃ m, SortedMerge le (inputs .left) (inputs .right) m ∧ out <+: m := by
  obtain ⟨m, hm⟩ := exists_sortedMerge hle
    (fun x hx => hP .left x (h.mem_inputs hx)) (fun x hx => hP .right x (h.mem_inputs hx))
    (h.rest_sorted (hs .left)) (h.rest_sorted (hs .right))
  obtain ⟨taken, hsplit, hint⟩ := h.split
  refine ⟨out ++ m, ⟨?_, ?_⟩, List.prefix_append out m⟩
  · rw [hsplit .left, hsplit .right]
    exact hint.append hm.interleave
  · refine List.pairwise_append.mpr ⟨h.sorted, hm.sorted, fun x hx y hy => ?_⟩
    rcases List.mem_append.mp (hm.interleave.perm.subset hy) with hy | hy
    · exact h.below x hx .left y hy
    · exact h.below x hx .right y hy

end PartialMerge

end Flow
