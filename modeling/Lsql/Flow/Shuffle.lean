import Lsql.Flow.Merge
import Mathlib.Data.List.OfFn

/-!
# Lsql.Flow.Shuffle

Interleavings of any number of sequences: what comes out of several producers that run on their own
schedules. `Shuffle.append_at` is one step of one of them.
-/

namespace Flow

variable {α β : Type}

/-- `m` is made of the sequences of a list, each in its order. -/
inductive Shuffle : List (List α) → List α → Prop
  | nil : Shuffle [] []
  | cons {l r m : List α} {ls : List (List α)} :
      Shuffle ls r → Interleave l r m → Shuffle (l :: ls) m

namespace Interleave

variable {l r m : List α}

theorem snoc_left (h : Interleave l r m) (x : α) : Interleave (l ++ [x]) r (m ++ [x]) := by
  simpa using h.append (Interleave.left .nil : Interleave [x] [] [x])

theorem snoc_right (h : Interleave l r m) (x : α) : Interleave l (r ++ [x]) (m ++ [x]) := by
  simpa using h.append (Interleave.right .nil : Interleave [] [x] [x])

theorem eq_left (h : Interleave l [] m) : m = l := by
  generalize hr : ([] : List α) = r at h
  induction h with
  | nil => rfl
  | left _ ih => rw [ih hr]
  | right => cases hr

theorem symm (h : Interleave l r m) : Interleave r l m := by
  induction h with
  | nil => exact .nil
  | left _ ih => exact ih.right
  | right _ ih => exact ih.left

/-- Interleaving with an interleaving. -/
theorem assoc {k : List α} (h : Interleave k m l) {r' : List α} (h' : Interleave r r' m) :
    ∃ w, Interleave k r w ∧ Interleave w r' l := by
  induction h generalizing r r' with
  | nil =>
      cases h'
      exact ⟨[], .nil, .nil⟩
  | left _ ih =>
      obtain ⟨w, hw, hl⟩ := ih h'
      exact ⟨_, hw.left, hl.left⟩
  | right _ ih =>
      cases h' with
      | left h' =>
          obtain ⟨w, hw, hl⟩ := ih h'
          exact ⟨_, hw.right, hl.left⟩
      | right h' =>
          obtain ⟨w, hw, hl⟩ := ih h'
          exact ⟨w, hw, hl.right⟩

end Interleave

namespace Shuffle

variable {ls ks : List (List α)} {l m : List α}

/-- A single sequence is all there is. -/
theorem single : Shuffle [l] m ↔ m = l := by
  constructor
  · intro h
    cases h with
    | cons htail hint =>
        cases htail
        exact hint.eq_left
  · rintro rfl
    exact .cons .nil (.all_left m)

/-- The first sequences, and the others. -/
theorem split (h : Shuffle (ls ++ ks) m) :
    ∃ u v, Shuffle ls u ∧ Shuffle ks v ∧ Interleave u v m := by
  induction ls generalizing m with
  | nil => exact ⟨[], m, .nil, h, .all_right m⟩
  | cons l ls ih =>
      cases h with
      | cons htail hint =>
          obtain ⟨u, v, hu, hv, hr⟩ := ih htail
          obtain ⟨w, hw, hm⟩ := hint.assoc hr
          exact ⟨w, v, .cons hu hw, hv, hm⟩

theorem perm (h : Shuffle ls m) : m.Perm ls.flatten := by
  induction h with
  | nil => exact .nil
  | cons _ hint ih =>
      rw [List.flatten_cons]
      exact hint.perm.trans (ih.append_left _)

/-- Every sequence keeps its order. -/
theorem sublist (h : Shuffle ls m) (hl : l ∈ ls) : l.Sublist m := by
  induction h with
  | nil => cases hl
  | cons _ hint ih =>
      rcases List.mem_cons.mp hl with rfl | hl
      · exact hint.left_sublist
      · exact (ih hl).trans hint.right_sublist

/-- Nothing has come yet. -/
theorem of_all_nil (h : ∀ l ∈ ls, l = []) : Shuffle ls ([] : List α) := by
  induction ls with
  | nil => exact .nil
  | cons l ls ih =>
      have htail := ih fun k hk => h k (List.mem_cons_of_mem _ hk)
      rw [h l List.mem_cons_self]
      exact .cons htail .nil

/-- The order in which the sequences are listed does not matter. -/
theorem of_perm (hperm : ls.Perm ks) (h : Shuffle ls m) : Shuffle ks m := by
  induction hperm generalizing m with
  | nil => exact h
  | cons l _ ih =>
      cases h with
      | cons htail hint => exact .cons (ih htail) hint
  | swap k l ls =>
      cases h with
      | cons htail hl =>
          cases htail with
          | cons htail hk =>
              obtain ⟨w, hw, hm⟩ := hl.assoc hk
              obtain ⟨v, hv, hm⟩ := hm.symm.assoc hw
              exact .cons (.cons htail hv.symm) hm.symm
  | trans _ _ ih ih' => exact ih' (ih h)

/-- One more element, from the sequence at one place. -/
theorem append_at (h : Shuffle ls m) {i : Nat} (hi : ls[i]? = some l) (x : α) :
    Shuffle (ls.set i (l ++ [x])) (m ++ [x]) := by
  induction h generalizing i with
  | nil => simp at hi
  | cons htail hint ih =>
      cases i with
      | zero =>
          cases Option.some.inj hi
          exact .cons htail (hint.snoc_left x)
      | succ i => exact .cons (ih hi) (hint.snoc_right x)

/-- One more element, from a sequence of its own. -/
theorem append_single (h : Shuffle ls m) (x : α) : Shuffle (ls ++ [[x]]) (m ++ [x]) := by
  induction h with
  | nil => exact single.mpr rfl
  | cons _ hint ih => exact .cons ih (hint.snoc_right x)

/-- A property that tells one sequence from the others finds that sequence. -/
theorem filter_eq {p : α → Bool} {after : List (List α)} (h : Shuffle (ls ++ l :: after) m)
    (hl : ∀ a ∈ l, p a = true) (hls : ∀ k ∈ ls, ∀ a ∈ k, p a = false)
    (hafter : ∀ k ∈ after, ∀ a ∈ k, p a = false) : m.filter p = l := by
  have hnone : ∀ {ks : List (List α)}, (∀ k ∈ ks, ∀ a ∈ k, p a = false) →
      ks.flatten.filter p = [] := by
    intro ks hks
    refine List.filter_eq_nil_iff.mpr fun a ha => ?_
    obtain ⟨k, hk, hak⟩ := List.mem_flatten.mp ha
    rw [hks k hk a hak]
    exact Bool.false_ne_true
  have hkeep : l.filter p = l := List.filter_eq_self.mpr hl
  have hperm : (m.filter p).Perm l := by
    refine (h.perm.filter p).trans (.of_eq ?_)
    rw [List.flatten_append, List.flatten_cons, List.filter_append, List.filter_append,
      hnone hls, hnone hafter, hkeep, List.nil_append, List.append_nil]
  have hsub : l.Sublist (m.filter p) := hkeep ▸ (h.sublist (by simp)).filter p
  exact (hsub.eq_of_length hperm.length_eq.symm).symm

/-- `append_at` for sequences that are given by a function. -/
theorem append_ofFn {n : Nat} {f : Fin n → List α} (h : Shuffle (List.ofFn f) m) (i : Fin n)
    (x : α) : Shuffle (List.ofFn (Function.update f i (f i ++ [x]))) (m ++ [x]) := by
  have hset : List.ofFn (Function.update f i (f i ++ [x])) =
      (List.ofFn f).set i (f i ++ [x]) := by
    apply List.ext_getElem?
    intro j
    by_cases hj : j < n
    · by_cases hij : (i : Nat) = j
      · subst hij
        simp
      · have hne : (⟨j, hj⟩ : Fin n) ≠ i := fun he => hij (congrArg Fin.val he).symm
        rw [List.getElem?_set_ne hij]
        simp [hj, Function.update_of_ne hne]
    · simp [hj]
  rw [hset]
  exact h.append_at (by simp) x

end Shuffle

end Flow
