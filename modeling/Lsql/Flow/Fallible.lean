import Lsql.Flow.Shuffle

/-!
# Lsql.Flow.Fallible

Sequences in which an element may be a failure.

A consumer that meets a failure ends there, so what follows it does not count. `Approx R s t` says
that `t` is, up to `R` on the elements, what `s` is, as far as `s` goes before its first failure.
Everything that is made of sequences element by element keeps the relation.
-/

namespace Flow

variable {ε α β γ δ : Type}

/-- The second sequence answers the first one up to the first failure of that. -/
inductive Approx (R : α → β → Prop) : List (Except ε α) → List (Except ε β) → Prop
  | nil : Approx R [] []
  | ok {a : α} {b : β} {s : List (Except ε α)} {t : List (Except ε β)} :
      R a b → Approx R s t → Approx R (.ok a :: s) (.ok b :: t)
  | fault {e : ε} {s : List (Except ε α)} {t : List (Except ε β)} : Approx R (.error e :: s) t

/-- All the elements, if none is a failure; else the first failure. -/
def collect : List (Except ε α) → Except ε (List α)
  | [] => .ok []
  | .ok a :: s => match collect s with
    | .ok as => .ok (a :: as)
    | .error e => .error e
  | .error e :: _ => .error e

@[simp] theorem collect_map_ok (as : List α) : collect (as.map (Except.ok (ε := ε))) = .ok as := by
  induction as with
  | nil => rfl
  | cons a as ih => simp [collect, ih]

theorem collect_eq_ok {s : List (Except ε α)} {as : List α} (h : collect s = .ok as) :
    s = as.map .ok := by
  induction s generalizing as with
  | nil =>
      cases h
      rfl
  | cons x s ih =>
      cases x with
      | error e => cases h
      | ok a =>
          rw [collect] at h
          split at h
          next as' has =>
            cases h
            rw [ih has, List.map_cons]
          next => cases h

/-- A sequence without failures can be collected. -/
theorem exists_collect {s : List (Except ε α)} (h : ∀ x ∈ s, ∃ a, x = .ok a) :
    ∃ as, collect s = .ok as := by
  induction s with
  | nil => exact ⟨[], rfl⟩
  | cons x s ih =>
      obtain ⟨as, has⟩ := ih fun y hy => h y (List.mem_cons_of_mem _ hy)
      obtain ⟨a, rfl⟩ := h x List.mem_cons_self
      exact ⟨a :: as, by rw [collect, has]⟩

namespace Approx

variable {R : α → β → Prop} {Q : γ → δ → Prop} {s : List (Except ε α)} {t : List (Except ε β)}

theorem refl {R : α → α → Prop} (h : ∀ a, R a a) : ∀ s : List (Except ε α), Approx R s s
  | [] => .nil
  | .ok a :: s => .ok (h a) (refl h s)
  | .error _ :: _ => .fault

theorem mono {R' : α → β → Prop} (hR : ∀ a b, R a b → R' a b) (h : Approx R s t) :
    Approx R' s t := by
  induction h with
  | nil => exact .nil
  | ok hab _ ih => exact .ok (hR _ _ hab) ih
  | fault => exact .fault

theorem trans {S : β → γ → Prop} {T : α → γ → Prop} (hT : ∀ a b c, R a b → S b c → T a c)
    {u : List (Except ε γ)} (h : Approx R s t) (h' : Approx S t u) : Approx T s u := by
  induction h generalizing u with
  | nil =>
      cases h'
      exact .nil
  | ok hab _ ih =>
      cases h' with
      | ok hbc hrest => exact .ok (hT _ _ _ hab hbc) (ih hrest)
  | fault => exact .fault

theorem of_forall₂ {as : List α} {bs : List β} (h : List.Forall₂ R as bs) :
    Approx R (as.map (Except.ok (ε := ε))) (bs.map .ok) := by
  induction h with
  | nil => exact .nil
  | cons hab _ ih => exact .ok hab ih

/-- A sequence without failures is answered element by element. -/
theorem collect_ok (h : Approx R s t) {as : List α} (hs : collect s = .ok as) :
    ∃ bs, collect t = .ok bs ∧ List.Forall₂ R as bs := by
  induction h generalizing as with
  | nil =>
      cases hs
      exact ⟨[], rfl, .nil⟩
  | @ok a b s t hab _ ih =>
      rw [collect] at hs
      split at hs
      next as' has =>
        cases hs
        obtain ⟨bs, hbs, hall⟩ := ih has
        exact ⟨b :: bs, by rw [collect, hbs], .cons hab hall⟩
      next => cases hs
  | fault => cases hs

/-- A sequence without failures is answered by one without failures. -/
theorem all_ok (h : Approx R s t) (hs : ∀ x ∈ s, ∃ a, x = .ok a) :
    ∀ y ∈ t, ∃ a b, .ok a ∈ s ∧ y = .ok b ∧ R a b := by
  induction h with
  | nil => exact fun y hy => absurd hy List.not_mem_nil
  | @ok a b s t hab _ ih =>
      intro y hy
      rcases List.mem_cons.mp hy with rfl | hy
      · exact ⟨a, b, List.mem_cons_self, rfl, hab⟩
      · obtain ⟨a', b', ha', hb', hR⟩ := ih (fun x hx => hs x (List.mem_cons_of_mem _ hx)) y hy
        exact ⟨a', b', List.mem_cons_of_mem _ ha', hb', hR⟩
  | @fault e s t =>
      obtain ⟨a, ha⟩ := hs _ List.mem_cons_self
      cases ha

theorem append {s' : List (Except ε α)} {t' : List (Except ε β)} (h : Approx R s t)
    (h' : Approx R s' t') : Approx R (s ++ s') (t ++ t') := by
  induction h with
  | nil => exact h'
  | ok hab _ ih => exact .ok hab ih
  | fault => exact .fault

theorem take (h : Approx R s t) (n : Nat) : Approx R (s.take n) (t.take n) := by
  induction h generalizing n with
  | nil => simpa using Approx.nil
  | ok hab _ ih =>
      cases n with
      | zero => exact .nil
      | succ n => exact .ok hab (ih n)
  | fault =>
      cases n with
      | zero => exact .nil
      | succ n => exact .fault

end Approx

/-! ### Working on every element -/

/-- What becomes of an element that may be a failure. -/
def expandItem (f : α → List (Except ε β)) : Except ε α → List (Except ε β)
  | .ok a => f a
  | .error e => [.error e]

/-- Every element makes a number of elements; failures stay. -/
def expand (f : α → List (Except ε β)) (s : List (Except ε α)) : List (Except ε β) :=
  s.flatMap (expandItem f)

@[simp] theorem expand_nil (f : α → List (Except ε β)) : expand f [] = [] := rfl

@[simp] theorem expand_ok (f : α → List (Except ε β)) (a : α) (s : List (Except ε α)) :
    expand f (.ok a :: s) = f a ++ expand f s := rfl

@[simp] theorem expand_error (f : α → List (Except ε β)) (e : ε) (s : List (Except ε α)) :
    expand f (.error e :: s) = .error e :: expand f s := rfl

theorem expand_append (f : α → List (Except ε β)) (s s' : List (Except ε α)) :
    expand f (s ++ s') = expand f s ++ expand f s' := List.flatMap_append

theorem expand_map_ok (f : α → List (Except ε β)) (as : List α) :
    expand f (as.map .ok) = as.flatMap f := by
  induction as with
  | nil => rfl
  | cons a as ih => simp [ih]

theorem expand_expand (f : β → List (Except ε γ)) (g : α → List (Except ε β))
    (s : List (Except ε α)) : expand f (expand g s) = expand (fun a => expand f (g a)) s := by
  induction s with
  | nil => rfl
  | cons x s ih =>
      cases x with
      | ok a => rw [expand_ok, expand_ok, expand_append, ih]
      | error e => rw [expand_error, expand_error, expand_error, ih]

theorem expand_congr {f g : α → List (Except ε β)} {s : List (Except ε α)}
    (h : ∀ a, .ok a ∈ s → f a = g a) : expand f s = expand g s := by
  induction s with
  | nil => rfl
  | cons x s ih =>
      have ih := ih fun a ha => h a (List.mem_cons_of_mem _ ha)
      cases x with
      | ok a => rw [expand_ok, expand_ok, h a List.mem_cons_self, ih]
      | error e => rw [expand_error, expand_error, ih]

/-- What an element that is no failure is made of. -/
theorem ok_mem_expand {f : α → List (Except ε β)} {s : List (Except ε α)} {b : β}
    (h : .ok b ∈ expand f s) : ∃ a, .ok a ∈ s ∧ .ok b ∈ f a := by
  obtain ⟨x, hx, hb⟩ := List.mem_flatMap.mp h
  cases x with
  | ok a => exact ⟨a, hx, hb⟩
  | error e => cases List.mem_singleton.mp hb

/-- An item for an item. -/
theorem expand_single (f : α → Except ε β) (s : List (Except ε α)) :
    expand (fun a => [f a]) s = s.map fun x => x >>= f := by
  induction s with
  | nil => rfl
  | cons x s ih =>
      rw [List.map_cons, ← ih]
      cases x <;> rfl

theorem Approx.expand {R : α → β → Prop} {Q : γ → δ → Prop} {f : α → List (Except ε γ)}
    {g : β → List (Except ε δ)} (hfg : ∀ a b, R a b → Approx Q (f a) (g b))
    {s : List (Except ε α)} {t : List (Except ε β)} (h : Approx R s t) :
    Approx Q (expand f s) (Flow.expand g t) := by
  induction h with
  | nil => exact .nil
  | ok hab _ ih => exact (hfg _ _ hab).append ih
  | fault => exact .fault

/-- Elements that are answered by what they are made of. -/
theorem Approx.of_expand {R : β → α → Prop} {f : α → List (Except ε β)}
    (h : ∀ a, Approx R (f a) [.ok a]) (s : List (Except ε α)) : Approx R (Flow.expand f s) s := by
  induction s with
  | nil => exact .nil
  | cons x s ih =>
      cases x with
      | ok a => exact (h a).append ih
      | error e => exact .fault

/-- Elements that make nothing: only failures are left. -/
theorem Approx.expand_nothing {R : β → γ → Prop} {f : α → List (Except ε β)} (h : ∀ a, f a = [])
    (s : List (Except ε α)) : Approx R (Flow.expand f s) [] := by
  induction s with
  | nil => exact .nil
  | cons x s ih =>
      cases x with
      | ok a =>
          rw [expand_ok, h a, List.nil_append]
          exact ih
      | error e => exact .fault

/-! ### Interleavings -/

namespace Interleave

variable {R : α → β → Prop}

/-- Any two sequences have an interleaving. -/
theorem exists_any (l r : List α) : ∃ m, Interleave l r m := by
  induction l with
  | nil => exact ⟨r, .all_right r⟩
  | cons x l ih =>
      obtain ⟨m, hm⟩ := ih
      exact ⟨x :: m, hm.left⟩

theorem map (f : α → β) {l r m : List α} (h : Interleave l r m) :
    Interleave (l.map f) (r.map f) (m.map f) := by
  induction h with
  | nil => exact .nil
  | left _ ih => exact ih.left
  | right _ ih => exact ih.right

theorem of_map {f : α → β} {l r : List α} {m : List β} (h : Interleave (l.map f) (r.map f) m) :
    ∃ m', m = m'.map f ∧ Interleave l r m' := by
  generalize hl : l.map f = l', hr : r.map f = r' at h
  induction h generalizing l r with
  | nil =>
      rw [List.map_eq_nil_iff] at hl hr
      subst hl hr
      exact ⟨[], rfl, .nil⟩
  | left _ ih =>
      obtain ⟨x, l, rfl, rfl, rfl⟩ := List.map_eq_cons_iff.mp hl
      obtain ⟨m', rfl, hm'⟩ := ih rfl hr
      exact ⟨x :: m', rfl, hm'.left⟩
  | right _ ih =>
      obtain ⟨x, r, rfl, rfl, rfl⟩ := List.map_eq_cons_iff.mp hr
      obtain ⟨m', rfl, hm'⟩ := ih hl rfl
      exact ⟨x :: m', rfl, hm'.right⟩

/-- An interleaving of the answers answers an interleaving. -/
theorem approx {l' r' m' : List (Except ε β)} (h : Interleave l' r' m')
    {l r : List (Except ε α)} (hl : Approx R l l') (hr : Approx R r r') :
    ∃ m, Interleave l r m ∧ Approx R m m' := by
  induction h generalizing l r with
  | nil =>
      cases hl with
      | nil =>
          refine ⟨r, .all_right r, ?_⟩
          cases hr with
          | nil => exact .nil
          | fault => exact .fault
      | @fault e l =>
          obtain ⟨m, hm⟩ := exists_any l r
          exact ⟨.error e :: m, hm.left, .fault⟩
  | left _ ih =>
      cases hl with
      | ok hab hrest =>
          obtain ⟨m, hm, happ⟩ := ih hrest hr
          exact ⟨_ :: m, hm.left, .ok hab happ⟩
      | @fault e l =>
          obtain ⟨m, hm⟩ := exists_any l r
          exact ⟨.error e :: m, hm.left, .fault⟩
  | right _ ih =>
      cases hr with
      | ok hab hrest =>
          obtain ⟨m, hm, happ⟩ := ih hl hrest
          exact ⟨_ :: m, hm.right, .ok hab happ⟩
      | @fault e r =>
          obtain ⟨m, hm⟩ := exists_any l r
          exact ⟨.error e :: m, hm.right, .fault⟩

end Interleave

namespace Shuffle

variable {R : α → β → Prop}

/-- Any sequences have an interleaving. -/
theorem exists_any (ls : List (List α)) : ∃ m, Shuffle ls m := by
  induction ls with
  | nil => exact ⟨[], .nil⟩
  | cons l ls ih =>
      obtain ⟨r, hr⟩ := ih
      obtain ⟨m, hm⟩ := Interleave.exists_any l r
      exact ⟨m, .cons hr hm⟩

theorem of_map {f : α → β} {ls : List (List α)} {m : List β} (h : Shuffle (ls.map (List.map f)) m) :
    ∃ m', m = m'.map f ∧ Shuffle ls m' := by
  induction ls generalizing m with
  | nil =>
      cases h
      exact ⟨[], rfl, .nil⟩
  | cons l ls ih =>
      cases h with
      | cons hrest hint =>
          obtain ⟨r, rfl, hr⟩ := ih hrest
          obtain ⟨m', rfl, hm'⟩ := hint.of_map
          exact ⟨m', rfl, .cons hr hm'⟩

/-- An interleaving of the answers answers an interleaving. -/
theorem approx {ls' : List (List (Except ε β))} {m' : List (Except ε β)} (h : Shuffle ls' m')
    {ls : List (List (Except ε α))} (hls : List.Forall₂ (Approx R) ls ls') :
    ∃ m, Shuffle ls m ∧ Approx R m m' := by
  induction h generalizing ls with
  | nil =>
      cases hls
      exact ⟨[], .nil, .nil⟩
  | cons _ hint ih =>
      cases hls with
      | cons hl hrest =>
          obtain ⟨r, hr, happ⟩ := ih hrest
          obtain ⟨m, hm, happ⟩ := hint.approx hl happ
          exact ⟨m, .cons hr hm, happ⟩

end Shuffle

end Flow
