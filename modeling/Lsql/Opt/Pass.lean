import Lsql.Core.Fault

/-!
# Lsql.Opt.Pass

What the optimizer passes share (`optimize/optimize.h`).

A pass rewrites its input in place and reports to the `Context` when it changes something. `Pass` is
a computation that may fail and that carries the flag; the texts of the report are left out.
-/

namespace Lsql.Opt

/-- A computation with `Context::changes_`. -/
abbrev Pass (α : Type) := StateT Bool (Except Fault) α

namespace Pass

variable {α β : Type}

/-- `ctx.setChanges()`. -/
def setChanges : Pass Unit := fun _ => .ok ((), true)

/-- What a pass makes of its input. -/
def result (p : Pass α) : Except Fault α := do
  let (a, _) ← p false
  pure a

theorem pure_ok {a a' : α} {b b' : Bool} :
    (pure a : Pass α) b = .ok (a', b') ↔ a = a' ∧ b = b' := by
  constructor
  · intro h
    cases h
    exact ⟨rfl, rfl⟩
  · rintro ⟨rfl, rfl⟩
    rfl

theorem bind_ok {p : Pass α} {f : α → Pass β} {b b' : Bool} {y : β} :
    (p >>= f) b = .ok (y, b') ↔ ∃ a b₁, p b = .ok (a, b₁) ∧ f a b₁ = .ok (y, b') := by
  constructor
  · intro h
    obtain ⟨⟨a, b₁⟩, hp, hf⟩ := bind_eq_ok.mp h
    exact ⟨a, b₁, hp, hf⟩
  · rintro ⟨a, b₁, hp, hf⟩
    exact bind_eq_ok.mpr ⟨(a, b₁), hp, hf⟩

/-- A part of a pass that reports nothing. -/
theorem lift_ok {x : Except Fault α} {a : α} {b b' : Bool} :
    (liftM x : Pass α) b = .ok (a, b') ↔ x = .ok a ∧ b = b' := by
  constructor
  · intro h
    obtain ⟨a', hx, ha⟩ := bind_eq_ok.mp h
    cases ha
    exact ⟨hx, rfl⟩
  · rintro ⟨rfl, rfl⟩
    rfl

theorem setChanges_bind {f : Unit → Pass β} {b : Bool} :
    (setChanges >>= f) b = f () true := rfl

theorem result_ok {p : Pass α} {a : α} : p.result = .ok a ↔ ∃ b, p false = .ok (a, b) := by
  constructor
  · intro h
    obtain ⟨⟨a', b⟩, hp, ha⟩ := bind_eq_ok.mp h
    cases ha
    exact ⟨b, hp⟩
  · rintro ⟨b, hp⟩
    exact bind_eq_ok.mpr ⟨(a, b), hp, rfl⟩

/-- A pass completes under a condition and only then, and `R` is known of what it makes. -/
def CompletesIff (p : Pass α) (c : Prop) (R : α → Prop) : Prop :=
  ∀ b, (c → ∃ a b', p b = .ok (a, b') ∧ R a) ∧ ∀ r, p b = .ok r → c

namespace CompletesIff

variable {c c' : Prop} {p : Pass α} {R R' : α → Prop} {S : β → Prop}

theorem pure {a : α} (h : R a) : CompletesIff (Pure.pure a : Pass α) True R :=
  fun b => ⟨fun _ => ⟨a, b, rfl, h⟩, fun _ _ => trivial⟩

theorem bind {f : α → Pass β} (hp : CompletesIff p c R)
    (hf : ∀ a, R a → CompletesIff (f a) c' S) : CompletesIff (p >>= f) (c ∧ c') S := by
  intro b
  constructor
  · intro h
    obtain ⟨a, b₁, ha, hR⟩ := (hp b).1 h.1
    obtain ⟨y, b₂, hy, hS⟩ := (hf a hR b₁).1 h.2
    exact ⟨y, b₂, bind_ok.mpr ⟨a, b₁, ha, hy⟩, hS⟩
  · intro r hr
    obtain ⟨y, b₂⟩ := r
    obtain ⟨a, b₁, ha, hy⟩ := bind_ok.mp hr
    have hc := (hp b).2 _ ha
    obtain ⟨a', b', ha', hR⟩ := (hp b).1 hc
    cases ha.symm.trans ha'
    exact ⟨hc, (hf a hR b₁).2 _ hy⟩

/-- A last step that cannot fail. -/
theorem map {g : α → β} (hp : CompletesIff p c R) (hg : ∀ a, R a → S (g a)) :
    CompletesIff (do
      let a ← p
      Pure.pure (g a)) c S := by
  intro b
  have h := hp.bind (fun a ha => CompletesIff.pure (hg a ha)) b
  rw [and_true] at h
  exact h

theorem congr (hp : CompletesIff p c R) (hc : c' ↔ c) (hR : ∀ a, R a → R' a) :
    CompletesIff p c' R' := by
  intro b
  constructor
  · intro h
    obtain ⟨a, b', ha, hRa⟩ := (hp b).1 (hc.mp h)
    exact ⟨a, b', ha, hR a hRa⟩
  · exact fun r hr => hc.mpr ((hp b).2 r hr)

end CompletesIff

/-- A pass over every element of a vector. -/
def each (f : α → Pass α) : List α → Pass (List α)
  | [] => pure []
  | a :: as => do
    let a ← f a
    let as ← each f as
    pure (a :: as)

theorem each_completesIff {f : α → Pass α} {c : α → Prop} {R : α → α → Prop} {as : List α}
    (h : ∀ a ∈ as, CompletesIff (f a) (c a) (R a)) :
    CompletesIff (each f as) (∀ a ∈ as, c a) (List.Forall₂ R as) := by
  induction as with
  | nil => exact (CompletesIff.pure .nil).congr (iff_of_true (by simp) trivial) fun _ h => h
  | cons a as ih =>
      have htail := ih fun b hb => h b (List.mem_cons_of_mem _ hb)
      have hcons := (h a List.mem_cons_self).bind fun a' ha =>
        htail.map (S := List.Forall₂ R (a :: as)) fun as' has => .cons ha has
      exact hcons.congr List.forall_mem_cons fun _ h => h

/-- A number of passes, one after the other. -/
def times (pass : α → Pass α) : Nat → α → Except Fault α
  | 0, a => pure a
  | n + 1, a => do
    let a ← (pass a).result
    times pass n a

/-- What every pass keeps to. -/
theorem times_spec {pass : α → Pass α} {R : α → α → Prop} (hrefl : ∀ a, R a a)
    (htrans : ∀ a b c, R a b → R b c → R a c)
    (hpass : ∀ a b, ∃ a' b', pass a b = .ok (a', b') ∧ R a a') (n : Nat) (a : α) :
    ∃ a', times pass n a = .ok a' ∧ R a a' := by
  induction n generalizing a with
  | zero => exact ⟨a, rfl, hrefl a⟩
  | succ n ih =>
      obtain ⟨a₁, b, ha₁, hR⟩ := hpass a false
      obtain ⟨a', ha', hR'⟩ := ih a₁
      refine ⟨a', ?_, htrans a a₁ a' hR hR'⟩
      rw [times, result_ok.mpr ⟨b, ha₁⟩, ok_bind]
      exact ha'

end Pass

end Lsql.Opt
