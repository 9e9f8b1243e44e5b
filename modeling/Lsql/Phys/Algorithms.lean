import Lsql.Phys.Ops
import Mathlib.Data.List.Sort

/-!
# Lsql.Phys.Algorithms

What the standard promises of the algorithms that the operators use.

`std::sort` and the heap algorithms require of the comparator that it is a strict weak order on the
elements; then the result of a sort is in order, and the top of a heap comes last. Of equal elements
either may come first: every list that is in order is the result of some implementation
(`Algorithms.choosing`).
-/

namespace Lsql.Phys

open Lsql.Exec

/-- A comparator that is a strict weak order on the elements of a list. -/
structure StrictWeak {α : Type} (less : α → α → Bool) (l : List α) : Prop where
  irrefl : ∀ a ∈ l, less a a = false
  trans : ∀ a ∈ l, ∀ b ∈ l, ∀ c ∈ l, less a b = true → less b c = true → less a c = true
  negTrans : ∀ a ∈ l, ∀ b ∈ l, ∀ c ∈ l, less a b = false → less b c = false → less a c = false

/-- Elements in order: none is less than one before it. -/
def InOrder {α : Type} (less : α → α → Bool) (l : List α) : Prop :=
  l.Pairwise fun a b => less b a = false

/-- The promises of the standard. -/
class LawfulAlgorithms [Algorithms] : Prop where
  sort_inOrder : ∀ {α : Type} (less : α → α → Bool) (l : List α), StrictWeak less l →
    InOrder less (Algorithms.sort less l)
  pop_last : ∀ {α : Type} (less : α → α → Bool) (l : List α) (top : α) (rest : List α),
    StrictWeak less l → Algorithms.pop less l = some (top, rest) → ∀ a ∈ rest, less top a = false

namespace StrictWeak

variable {α : Type} {less : α → α → Bool} {l l' : List α}

theorem asymm (h : StrictWeak less l) {a b : α} (ha : a ∈ l) (hb : b ∈ l) (hab : less a b = true) :
    less b a = false := by
  cases hba : less b a with
  | false => rfl
  | true => exact (h.trans a ha b hb a ha hab hba).symm.trans (h.irrefl a ha)

theorem subset (h : StrictWeak less l) (hsub : l' ⊆ l) : StrictWeak less l' where
  irrefl a ha := h.irrefl a (hsub ha)
  trans a ha b hb c hc := h.trans a (hsub ha) b (hsub hb) c (hsub hc)
  negTrans a ha b hb c hc := h.negTrans a (hsub ha) b (hsub hb) c (hsub hc)

/-- The elements can be put in order. -/
theorem exists_inOrder (h : StrictWeak less l) : ∃ w : List α, w.Perm l ∧ InOrder less w := by
  let le (a b : {x // x ∈ l}) : Bool := !less b.1 a.1
  have htrans : ∀ a b c, le a b = true → le b c = true → le a c = true := by
    intro a b c hab hbc
    rw [Bool.not_eq_true'] at hab hbc ⊢
    exact h.negTrans c.1 c.2 b.1 b.2 a.1 a.2 hbc hab
  have htotal : ∀ a b, (le a b || le b a) = true := by
    intro a b
    rw [Bool.or_eq_true, Bool.not_eq_true', Bool.not_eq_true']
    cases hba : less b.1 a.1 with
    | false => exact .inl rfl
    | true => exact .inr (h.asymm b.2 a.2 hba)
  refine ⟨(l.attach.mergeSort le).map Subtype.val, ?_, ?_⟩
  · exact ((List.mergeSort_perm l.attach le).map Subtype.val).trans (.of_eq l.attach_map_subtype_val)
  · refine List.pairwise_map.mpr ((List.pairwise_mergeSort htrans htotal l.attach).imp ?_)
    exact fun hab => Bool.not_eq_true' _ ▸ hab

end StrictWeak

/-! ### Implementations -/

/-- A heap that is kept in order. -/
def popSorted {α : Type} (sorted : List α) : Option (α × List α) :=
  match sorted.reverse with
  | [] => none
  | top :: rest => some (top, rest)

theorem popSorted_perm {α : Type} {l sorted : List α} (h : sorted.Perm l) :
    (popSorted sorted).elim (l = []) fun p => (p.1 :: p.2).Perm l := by
  have hrev := (List.reverse_perm sorted).trans h
  unfold popSorted
  split
  next heq =>
    rw [heq] at hrev
    exact hrev.symm.eq_nil
  next top rest heq =>
    rw [heq] at hrev
    exact hrev

theorem popSorted_last {α : Type} {less : α → α → Bool} {sorted rest : List α} {top : α}
    (h : InOrder less sorted) (hpop : popSorted sorted = some (top, rest)) :
    ∀ a ∈ rest, less top a = false := by
  unfold popSorted at hpop
  split at hpop
  · cases hpop
  next top' rest' heq =>
    cases hpop
    have hrev := List.pairwise_reverse.mpr (List.Pairwise.imp (fun hab => hab) h)
    rw [heq] at hrev
    exact (List.pairwise_cons.mp hrev).1

open Classical in
/-- The elements in some order that the comparator allows. -/
noncomputable def someOrder {α : Type} (less : α → α → Bool) (l : List α) : List α :=
  if h : StrictWeak less l then h.exists_inOrder.choose else l

theorem someOrder_perm {α : Type} (less : α → α → Bool) (l : List α) :
    (someOrder less l).Perm l := by
  unfold someOrder
  split
  next h => exact h.exists_inOrder.choose_spec.1
  next => exact .refl l

theorem someOrder_inOrder {α : Type} {less : α → α → Bool} {l : List α} (h : StrictWeak less l) :
    InOrder less (someOrder less l) := by
  rw [someOrder, dif_pos h]
  exact h.exists_inOrder.choose_spec.2

section Choosing

variable {κ : Type} (lessChosen : κ → κ → Bool) (l w : List κ)

/-- Being asked to sort the chosen list by the chosen comparator. -/
def IsChosen {α : Type} (less : α → α → Bool) (as : List α) : Prop :=
  ∃ e : κ = α, e ▸ lessChosen = less ∧ e ▸ l = as

open Classical in
/-- A sort that has a given answer to one question. -/
noncomputable def choosingSort {α : Type} (less : α → α → Bool) (as : List α) : List α :=
  if h : IsChosen lessChosen l less as then h.choose ▸ w else someOrder less as

theorem choosingSort_perm (hperm : w.Perm l) {α : Type} (less : α → α → Bool) (as : List α) :
    (choosingSort lessChosen l w less as).Perm as := by
  unfold choosingSort
  split
  next h =>
    obtain ⟨rfl, rfl, rfl⟩ := h
    exact hperm
  next => exact someOrder_perm less as

theorem choosingSort_inOrder (hw : InOrder lessChosen w) {α : Type} {less : α → α → Bool}
    {as : List α} (hweak : StrictWeak less as) :
    InOrder less (choosingSort lessChosen l w less as) := by
  unfold choosingSort
  split
  next h =>
    obtain ⟨rfl, rfl, rfl⟩ := h
    exact hw
  next => exact someOrder_inOrder hweak

theorem choosingSort_chosen : choosingSort lessChosen l w lessChosen l = w := by
  have h : IsChosen lessChosen l lessChosen l := ⟨rfl, rfl, rfl⟩
  rw [choosingSort, dif_pos h]

/-- An implementation whose sort puts a list into a given order. -/
@[reducible]
noncomputable def Algorithms.choosing (hperm : w.Perm l) : Algorithms where
  sort less as := choosingSort lessChosen l w less as
  sort_perm less as := choosingSort_perm lessChosen l w hperm less as
  pop less as := popSorted (choosingSort lessChosen l w less as)
  pop_perm less as := popSorted_perm (choosingSort_perm lessChosen l w hperm less as)
  mapOrder as := as
  mapOrder_perm as := .refl as

theorem Algorithms.choosing_lawful (hperm : w.Perm l) (hw : InOrder lessChosen w) :
    @LawfulAlgorithms (Algorithms.choosing lessChosen l w hperm) :=
  @LawfulAlgorithms.mk (Algorithms.choosing lessChosen l w hperm)
    (fun _ _ hweak => choosingSort_inOrder lessChosen l w hw hweak)
    fun _ _ _ _ hweak hpop => popSorted_last (choosingSort_inOrder lessChosen l w hw hweak) hpop

end Choosing

end Lsql.Phys
