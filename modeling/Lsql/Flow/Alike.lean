import Lsql.Flow.Feed

/-!
# Lsql.Flow.Alike

Two implementations of an operator that nobody can tell apart.

Bodies are alike when they are the same tree of interactions and their results are related. A
relation between the states of two operators under which their calls are alike makes any run of the
one a run of the other.
-/

namespace Flow

/-! ### Outcomes -/

/-- Outcomes that fail alike, or succeed with related results. -/
inductive Outcome {ε α β : Type} (R : α → β → Prop) : Except ε α → Except ε β → Prop
  | ok {a : α} {b : β} : R a b → Outcome R (.ok a) (.ok b)
  | error (e : ε) : Outcome R (.error e) (.error e)

namespace Outcome

variable {ε α β γ δ : Type} {R : α → β → Prop} {S : γ → δ → Prop}

theorem bind {x : Except ε α} {y : Except ε β} {f : α → Except ε γ} {g : β → Except ε δ}
    (h : Outcome R x y) (hfg : ∀ a b, R a b → Outcome S (f a) (g b)) :
    Outcome S (x >>= f) (y >>= g) := by
  cases h with
  | ok hab => exact hfg _ _ hab
  | error e => exact .error e

theorem mono {R' : α → β → Prop} {x : Except ε α} {y : Except ε β} (h : Outcome R x y)
    (hR : ∀ a b, R a b → R' a b) : Outcome R' x y := by
  cases h with
  | ok hab => exact .ok (hR _ _ hab)
  | error e => exact .error e

/-- Results that are related by what is read off them are the same there. -/
theorem map_eq {x : Except ε α} {y : Except ε β} {f : α → γ} {g : β → γ} (h : Outcome R x y)
    (hfg : ∀ a b, R a b → f a = g b) : x.map f = y.map g := by
  cases h with
  | ok hab => exact congrArg Except.ok (hfg _ _ hab)
  | error e => rfl

end Outcome

/-- The same computation on related elements. -/
theorem mapM_eq {ε α β γ : Type} {R : α → β → Prop} {as : List α} {bs : List β}
    {f : α → Except ε γ} {g : β → Except ε γ} (h : List.Forall₂ R as bs)
    (hfg : ∀ a b, R a b → f a = g b) : as.mapM f = bs.mapM g := by
  induction h with
  | nil => rfl
  | cons hab _ ih => rw [List.mapM_cons, List.mapM_cons, hfg _ _ hab, ih]

/-! ### Bodies -/

namespace Prog

variable {ε η ρ α β γ δ : Type}

/-- The same interactions, with related results. -/
inductive Alike (R : α → β → Prop) : Prog ε η ρ α → Prog ε η ρ β → Prop
  | done {a : α} {b : β} : R a b → Alike R (done a) (done b)
  | fail (e : ε) : Alike R (fail e) (fail e)
  | active {k : Bool → Prog ε η ρ α} {l : Bool → Prog ε η ρ β} :
      (∀ x, Alike R (k x) (l x)) → Alike R (active k) (active l)
  | emit (item : Option ρ) {k : Bool → Prog ε η ρ α} {l : Bool → Prog ε η ρ β} :
      (∀ x, Alike R (k x) (l x)) → Alike R (emit item k) (emit item l)
  | load {k : η → Prog ε η ρ α} {l : η → Prog ε η ρ β} :
      (∀ x, Alike R (k x) (l x)) → Alike R (load k) (load l)
  | store (c : η) {k : Prog ε η ρ α} {l : Prog ε η ρ β} :
      Alike R k l → Alike R (store c k) (store c l)

namespace Alike

variable {R : α → β → Prop} {S : γ → δ → Prop}

theorem refl {R : α → α → Prop} (hR : ∀ a, R a a) (p : Prog ε η ρ α) : Alike R p p := by
  induction p with
  | done a => exact .done (hR a)
  | fail e => exact .fail e
  | active k ih => exact .active ih
  | emit item k ih => exact .emit item ih
  | load k ih => exact .load ih
  | store c k ih => exact .store c ih

theorem bind {p : Prog ε η ρ α} {q : Prog ε η ρ β} {f : α → Prog ε η ρ γ} {g : β → Prog ε η ρ δ}
    (h : Alike R p q) (hfg : ∀ a b, R a b → Alike S (f a) (g b)) :
    Alike S (p >>= f) (q >>= g) := by
  induction h with
  | done hab => exact hfg _ _ hab
  | fail e => exact .fail e
  | active _ ih => exact .active ih
  | emit item _ ih => exact .emit item ih
  | load _ ih => exact .load ih
  | store c _ ih => exact .store c ih

theorem lift {x : Except ε α} {y : Except ε β} (h : Outcome R x y) :
    Alike R (lift x : Prog ε η ρ α) (lift y) := by
  cases h with
  | ok hab => exact .done hab
  | error e => exact .fail e

/-- Two runs against the same downstream leave it alike. -/
theorem run {p : Prog ε η ρ α} {q : Prog ε η ρ β} (h : Alike R p q)
    (accept : List (Option ρ) → Bool) (c : η) (d : Downstream ρ) :
    Outcome (fun x y => R x.1 y.1 ∧ x.2 = y.2) (run accept p c d) (run accept q c d) := by
  induction h generalizing c d with
  | done hab => exact .ok ⟨hab, rfl⟩
  | fail e => exact .error e
  | active _ ih => exact ih d.active c d
  | emit item _ ih => exact ih (d.send accept item).active c (d.send accept item)
  | load _ ih => exact ih c c d
  | store c' _ ih => exact ih c' d

end Alike

/-- Calls that are alike as long as the states are related. -/
theorem feed_alike {σ τ : Type} {S : σ → τ → Prop}
    {consume : σ → Option ρ → Prog ε η ρ (σ × Bool)}
    {consume' : τ → Option ρ → Prog ε η ρ (τ × Bool)} {items : List (Option ρ)}
    (h : ∀ item ∈ items, ∀ s t, S s t →
      Alike (fun r r' => S r.1 r'.1 ∧ r.2 = r'.2) (consume s item) (consume' t item))
    (accept : List (Option ρ) → Bool) {s : σ} {t : τ} (hst : S s t) (c : η) (d : Downstream ρ) :
    Outcome (fun x y => (S x.1.1 y.1.1 ∧ x.1.2 = y.1.2) ∧ x.2 = y.2)
      (feed accept consume items s c d) (feed accept consume' items t c d) := by
  induction items generalizing s t c d with
  | nil => exact .ok ⟨⟨hst, rfl⟩, rfl⟩
  | cons item items ih =>
      have hrun := (h item List.mem_cons_self s t hst).run accept c d
      refine hrun.bind ?_
      rintro ⟨⟨s', cont⟩, c', d'⟩ ⟨⟨t', cont'⟩, c'', d''⟩ ⟨⟨hst', hcont⟩, hrest⟩
      cases hrest
      obtain rfl : cont = cont' := hcont
      cases cont with
      | true => exact ih (fun i hi => h i (List.mem_cons_of_mem _ hi)) hst' c' d'
      | false => exact .ok ⟨⟨hst', rfl⟩, rfl⟩

end Prog

end Flow
