import Mathlib.Data.List.Basic
import Mathlib.Order.WellFounded

/-!
# Lsql.Flow.Loop

Loops that end: a round leaves the loop with a result, or changes its state and makes a variant
smaller. A loop carries its variant, so that running it is a function; what it returns is found by
the rule of its invariant.
-/

namespace Flow

/-- What a round of a loop does. -/
inductive Round (σ α : Type)
  | leave (result : α)
  | again (state : σ)

/-- A loop, by its round and a variant that every further round makes smaller. -/
structure Loop (σ α : Type) where
  round : σ → Round σ α
  variant : σ → Nat
  decreases : ∀ s s', round s = .again s' → variant s' < variant s

namespace Loop

variable {σ α : Type} {loop : Loop σ α}

/-- A round in state `s` goes on with `s'`. -/
def Continues (loop : Loop σ α) (s' s : σ) : Prop := loop.round s = .again s'

/-- **No run of a loop has infinitely many rounds.** -/
theorem wellFounded (loop : Loop σ α) : WellFounded loop.Continues :=
  Subrelation.wf (fun h => loop.decreases _ _ h) (InvImage.wf loop.variant Nat.lt_wfRel.wf)

/-- The result of a loop that starts in a state. -/
def run (loop : Loop σ α) (s : σ) : α :=
  match _hround : loop.round s with
  | .leave result => result
  | .again s' => loop.run s'
termination_by loop.variant s
decreasing_by exact loop.decreases s s' _hround

theorem run_of_leave {s : σ} {result : α} (h : loop.round s = .leave result) :
    loop.run s = result := by
  rw [run]
  split
  next result' h' => exact Round.leave.inj (h'.symm.trans h)
  next s' h' => cases h'.symm.trans h

theorem run_of_again {s s' : σ} (h : loop.round s = .again s') : loop.run s = loop.run s' := by
  rw [run]
  split
  next result h' => cases h'.symm.trans h
  next s'' h' => rw [Round.again.inj (h'.symm.trans h)]

/-- **The rule of the invariant**: every round keeps it, and it gives what a loop is left with. -/
theorem run_spec (Inv : σ → Prop) (Post : α → Prop)
    (hagain : ∀ s s', Inv s → loop.round s = .again s' → Inv s')
    (hleave : ∀ s result, Inv s → loop.round s = .leave result → Post result) {s : σ}
    (h : Inv s) : Post (loop.run s) := by
  -- the states behind a round come first
  induction s using loop.wellFounded.induction with
  | _ s ih =>
      cases hround : loop.round s with
      | leave result =>
          rw [run_of_leave hround]
          exact hleave s result h hround
      | again s' =>
          rw [run_of_again hround]
          exact ih s' hround (hagain s s' h hround)

end Loop

end Flow
