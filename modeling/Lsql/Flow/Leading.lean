import Mathlib.Data.List.Perm.Basic

/-!
# Lsql.Flow.Leading

The leading elements of a sequence in an order, found one element at a time.

A bounded priority queue keeps at most `k` elements: it takes an element in while it has room, and
after that in the place of its last one if the new element may precede that one. `Leading` says what
the kept elements are among those seen; each of the three things that the queue can do keeps it. Put in
order, the kept elements are the first `k` of the whole sequence in some order of the whole sequence
(`Leading.take`).
-/

namespace Flow

variable {α : Type} {r : α → α → Prop} {k : Nat} {all kept : List α}

/-- `kept` are `k` elements of `all`, or all of them, none of which comes after one that was left
out. -/
structure Leading (r : α → α → Prop) (k : Nat) (all kept : List α) : Prop where
  rest : ∃ rest, (kept ++ rest).Perm all ∧ ∀ a ∈ kept, ∀ b ∈ rest, r a b
  length_eq : kept.length = min k all.length

namespace Leading

theorem nil : Leading r k [] [] := ⟨⟨[], .refl _, fun a ha => absurd ha List.not_mem_nil⟩, by simp⟩

/-- As long as there is room nothing has been left out. -/
theorem perm_of_room (h : Leading r k all kept) (hroom : kept.length < k) : kept.Perm all := by
  obtain ⟨rest, hperm, -⟩ := h.rest
  have hlength := hperm.length_eq
  rw [List.length_append] at hlength
  have hrest : rest = [] := by
    rw [← List.length_eq_zero_iff]
    have := h.length_eq
    omega
  rw [hrest, List.append_nil] at hperm
  exact hperm

/-- An element is taken in while there is room. -/
theorem grow (h : Leading r k all kept) (hroom : kept.length < k) (x : α) :
    Leading r k (all ++ [x]) (kept ++ [x]) := by
  have hperm := h.perm_of_room hroom
  refine ⟨⟨[], ?_, fun _ _ b hb => absurd hb List.not_mem_nil⟩, ?_⟩
  · rw [List.append_nil]
    exact hperm.append_right [x]
  · have := hperm.length_eq
    rw [List.length_append, List.length_append]
    simp only [List.length_singleton]
    omega

/-- With no room left, an element takes the place of the last of those that are kept. -/
theorem replace (htrans : ∀ a b c, r a b → r b c → r a c) (h : Leading r k all kept)
    (hfull : ¬ kept.length < k) {last : α} {others : List α} (hperm : (last :: others).Perm kept)
    (hlast : ∀ a ∈ others, r a last) {x : α} (hx : r x last) :
    Leading r k (all ++ [x]) (others ++ [x]) := by
  obtain ⟨rest, hrest, hle⟩ := h.rest
  have hmem : ∀ a ∈ others, a ∈ kept := fun a ha => hperm.subset (List.mem_cons_of_mem _ ha)
  have hlastmem : last ∈ kept := hperm.subset List.mem_cons_self
  refine ⟨⟨last :: rest, ?_, ?_⟩, ?_⟩
  · calc
      (others ++ [x] ++ last :: rest).Perm (last :: (others ++ [x] ++ rest)) := List.perm_middle
      _ = last :: (others ++ x :: rest) := by simp
      List.Perm _ (last :: x :: (others ++ rest)) := List.perm_middle.cons last
      List.Perm _ (x :: last :: (others ++ rest)) := List.Perm.swap x last _
      List.Perm _ (x :: (kept ++ rest)) := (hperm.append_right rest).cons x
      List.Perm _ (x :: all) := hrest.cons x
      List.Perm _ (all ++ [x]) := (List.perm_append_singleton x all).symm
  · intro a ha b hb
    rcases List.mem_append.mp ha with ha | ha
    · rcases List.mem_cons.mp hb with rfl | hb
      · exact hlast a ha
      · exact hle a (hmem a ha) b hb
    · rw [List.mem_singleton.mp ha]
      rcases List.mem_cons.mp hb with rfl | hb
      · exact hx
      · exact htrans x last b hx (hle last hlastmem b hb)
  · have hlength := hperm.length_eq
    have := h.length_eq
    simp only [List.length_append, List.length_cons, List.length_nil] at hlength ⊢
    omega

/-- With no room left, an element that comes after the last of those that are kept is left out. -/
theorem skip (h : Leading r k all kept)
    (hfull : ¬ kept.length < k) {x : α} (hx : ∀ a ∈ kept, r a x) :
    Leading r k (all ++ [x]) kept := by
  obtain ⟨rest, hrest, hle⟩ := h.rest
  refine ⟨⟨rest ++ [x], ?_, ?_⟩, ?_⟩
  · rw [← List.append_assoc]
    exact hrest.append_right [x]
  · intro a ha b hb
    rcases List.mem_append.mp hb with hb | hb
    · exact hle a ha b hb
    · rw [List.mem_singleton.mp hb]
      exact hx a ha
  · have := h.length_eq
    rw [List.length_append, List.length_singleton]
    omega

/-- Put in order, what is kept is the front of the whole sequence in order. -/
theorem take (h : Leading r k all kept) {out : List α} (hout : out.Perm kept)
    (hordered : out.Pairwise r) (hsort : ∀ l : List α, ∃ w : List α, w.Perm l ∧ w.Pairwise r) :
    ∃ w : List α, w.Perm all ∧ w.Pairwise r ∧ out = w.take k := by
  obtain ⟨rest, hperm, hle⟩ := h.rest
  obtain ⟨tail, htail, htailOrdered⟩ := hsort rest
  refine ⟨out ++ tail, (hout.append htail).trans hperm, ?_, ?_⟩
  · refine List.pairwise_append.mpr ⟨hordered, htailOrdered, fun a ha b hb => ?_⟩
    exact hle a (hout.subset ha) b (htail.subset hb)
  · have hlength := hperm.length_eq
    have hkept := h.length_eq
    have houtlen := hout.length_eq
    have htaillen := htail.length_eq
    rw [List.length_append] at hlength
    by_cases hk : k ≤ all.length
    · exact (List.take_left' (by omega)).symm
    · have hnil : tail = [] := List.length_eq_zero_iff.mp (by omega)
      rw [hnil, List.append_nil, List.take_of_length_le (by omega)]

end Leading

end Flow
