import Mathlib.Data.List.Forall2

/-!
# Lsql.Core.Fault

How a run of the program ends when it does not end well.

The source reports failures in three ways: an exception (`require`, `throwError`, an exception of
the C++ library), the termination of the process (`panic`, a failed `verify`), and behaviour the
language leaves undefined (a read past the end of a vector, signed overflow, a division that
traps). A fallible function of the model returns `Except Fault`.
-/

namespace Lsql

/-- A way of not returning a value. -/
inductive Fault
  /-- An exception derived from `std::exception`, with its text. -/
  | exception (message : String)
  /-- `panic` or a failed `verify`: the process terminates. -/
  | panic (message : String)
  /-- Undefined behaviour of the language. -/
  | undefined (what : String)
  deriving DecidableEq, Repr

/-- `verify(X)`: terminates the process unless `X` holds. -/
def verify (cond : Bool) (message : String) : Except Fault Unit :=
  if cond then .ok () else .error (.panic message)

@[simp] theorem verify_true (message : String) : verify true message = .ok () := rfl

@[simp] theorem verify_false (message : String) :
    verify false message = .error (.panic message) := rfl

theorem verify_eq_ok {cond : Bool} {message : String} {u : Unit} :
    verify cond message = .ok u ↔ cond = true := by
  cases cond <;> simp

/-- `require(X, ...)`: throws unless `X` holds. -/
def require (cond : Bool) (message : String) : Except Fault Unit :=
  if cond then .ok () else .error (.exception message)

@[simp] theorem require_true (message : String) : require true message = .ok () := rfl

theorem require_eq_ok {cond : Bool} {message : String} {u : Unit} :
    require cond message = .ok u ↔ cond = true := by
  cases cond <;> simp [require]

/-! ### Sequencing -/

section Sequencing

variable {ε α β : Type}

@[simp] theorem ok_bind (a : α) (f : α → Except ε β) : (Except.ok a >>= f) = f a := rfl

@[simp] theorem error_bind (e : ε) (f : α → Except ε β) :
    ((Except.error e : Except ε α) >>= f) = .error e := rfl

@[simp] theorem pure_eq_ok (a : α) : (pure a : Except ε α) = .ok a := rfl

/-- A sequence returns if its parts do. -/
theorem bind_eq_ok {x : Except ε α} {f : α → Except ε β} {b : β} :
    (x >>= f) = .ok b ↔ ∃ a, x = .ok a ∧ f a = .ok b := by
  cases x with
  | ok a => simp
  | error e => simp

/-- A loop returns if every round does. -/
theorem mapM_eq_ok {f : α → Except ε β} {as : List α} {bs : List β} :
    as.mapM f = .ok bs ↔ List.Forall₂ (fun a b => f a = .ok b) as bs := by
  induction as generalizing bs with
  | nil => simp [eq_comm]
  | cons a as ih =>
      simp only [List.mapM_cons, bind_eq_ok, ih, pure_eq_ok, Except.ok.injEq,
        List.forall₂_cons_left_iff]
      constructor
      · rintro ⟨b, hb, bs', hbs, rfl⟩
        exact ⟨b, bs', hb, hbs, rfl⟩
      · rintro ⟨b, bs', hb, hbs, rfl⟩
        exact ⟨b, hb, bs', hbs, rfl⟩

/-- What a loop made of an element. -/
theorem forall₂_mem_left {R : α → β → Prop} {as : List α} {bs : List β}
    (h : List.Forall₂ R as bs) {a : α} (ha : a ∈ as) : ∃ b ∈ bs, R a b := by
  induction h with
  | nil => cases ha
  | cons hab _ ih =>
      rcases List.mem_cons.mp ha with rfl | ha
      · exact ⟨_, List.mem_cons_self, hab⟩
      · obtain ⟨b, hb, hr⟩ := ih ha
        exact ⟨b, List.mem_cons_of_mem _ hb, hr⟩

/-- What a loop made an element of. -/
theorem forall₂_mem_right {R : α → β → Prop} {as : List α} {bs : List β}
    (h : List.Forall₂ R as bs) {b : β} (hb : b ∈ bs) : ∃ a ∈ as, R a b :=
  forall₂_mem_left h.flip hb

/-- Two loops, one after the other. -/
theorem forall₂_comp_of_mem {γ : Type} {R : α → β → Prop} {S : β → γ → Prop} {T : α → γ → Prop}
    {as : List α} {bs : List β} {cs : List γ} (hcomp : ∀ a ∈ as, ∀ b c, R a b → S b c → T a c)
    (h : List.Forall₂ R as bs) (h' : List.Forall₂ S bs cs) : List.Forall₂ T as cs := by
  induction h generalizing cs with
  | nil =>
      cases h'
      exact .nil
  | cons hab _ ih =>
      cases h' with
      | cons hbc hrest =>
          exact .cons (hcomp _ List.mem_cons_self _ _ hab hbc)
            (ih (fun a ha => hcomp a (List.mem_cons_of_mem _ ha)) hrest)

theorem forall₂_comp {γ : Type} {R : α → β → Prop} {S : β → γ → Prop} {T : α → γ → Prop}
    (hcomp : ∀ a b c, R a b → S b c → T a c) {as : List α} {bs : List β} {cs : List γ}
    (h : List.Forall₂ R as bs) (h' : List.Forall₂ S bs cs) : List.Forall₂ T as cs :=
  forall₂_comp_of_mem (fun a _ => hcomp a) h h'

/-- A loop that completes for every element. -/
theorem exists_forall₂ {R : α → β → Prop} {as : List α} (h : ∀ a ∈ as, ∃ b, R a b) :
    ∃ bs, List.Forall₂ R as bs := by
  induction as with
  | nil => exact ⟨[], .nil⟩
  | cons a as ih =>
      obtain ⟨b, hb⟩ := h a List.mem_cons_self
      obtain ⟨bs, hbs⟩ := ih fun p hp => h p (List.mem_cons_of_mem _ hp)
      exact ⟨b :: bs, .cons hb hbs⟩

theorem exists_of_isOk {x : Except ε α} (h : x.isOk = true) : ∃ a, x = .ok a := by
  cases x with
  | ok a => exact ⟨a, rfl⟩
  | error e => cases h

/-! ### Outcomes -/

/-- The computation returns exactly if a condition holds, and what it returns has a property. -/
def Yields (condition : Prop) (post : α → Prop) : Except ε α → Prop
  | .ok a => condition ∧ post a
  | .error _ => ¬ condition

/-- The computation returns something with a property, or fails in an allowed way. -/
def Ends (allowed : ε → Prop) (post : α → Prop) : Except ε α → Prop
  | .ok a => post a
  | .error e => allowed e

theorem Yields.bind {c c' : Prop} {P : α → Prop} {Q : β → Prop} {x : Except ε α}
    {f : α → Except ε β} (h : Yields c P x) (hf : ∀ a, P a → Yields c' Q (f a)) :
    Yields (c ∧ c') Q (x >>= f) := by
  cases x with
  | error e => exact fun hc => h hc.1
  | ok a =>
      have hnext := hf a h.2
      rw [ok_bind]
      cases hfa : f a with
      | error e =>
          rw [hfa] at hnext
          exact fun hc => hnext hc.2
      | ok b =>
          rw [hfa] at hnext
          exact ⟨⟨h.1, hnext.1⟩, hnext.2⟩

theorem Yields.mono {c c' : Prop} {P Q : α → Prop} {x : Except ε α} (h : Yields c P x)
    (hc : c ↔ c') (hPQ : ∀ a, P a → Q a) : Yields c' Q x := by
  cases x with
  | error e => exact fun hc' => h (hc.mpr hc')
  | ok a => exact ⟨hc.mp h.1, hPQ a h.2⟩

/-- A computation that always returns. -/
theorem yields_ok {P : α → Prop} {a : α} (h : P a) : Yields True P (.ok a : Except ε α) :=
  ⟨trivial, h⟩

theorem Yields.of_ok {c : Prop} {P : α → Prop} {x : Except ε α} {a : α} (h : Yields c P x)
    (hx : x = .ok a) : c ∧ P a := by
  rw [hx] at h
  exact h

theorem Yields.exists_ok_iff {c : Prop} {P : α → Prop} {x : Except ε α} (h : Yields c P x) :
    (∃ a, x = .ok a ∧ P a) ↔ c := by
  cases x with
  | error e =>
      refine ⟨?_, fun hc => absurd hc h⟩
      rintro ⟨a, ha, -⟩
      cases ha
  | ok a => exact ⟨fun _ => h.1, fun _ => ⟨a, rfl, h.2⟩⟩

theorem Ends.bind {allowed : ε → Prop} {P : α → Prop} {Q : β → Prop} {x : Except ε α}
    {f : α → Except ε β} (h : Ends allowed P x) (hf : ∀ a, P a → Ends allowed Q (f a)) :
    Ends allowed Q (x >>= f) := by
  cases x with
  | error e => exact h
  | ok a => exact hf a h

theorem Ends.mono {allowed : ε → Prop} {P Q : α → Prop} {x : Except ε α} (h : Ends allowed P x)
    (hPQ : ∀ a, x = .ok a → P a → Q a) : Ends allowed Q x := by
  cases x with
  | error e => exact h
  | ok a => exact hPQ a rfl h

end Sequencing

end Lsql
