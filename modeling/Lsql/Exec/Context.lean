import Lsql.Exec.Scalar

/-!
# Lsql.Exec.Context

What the evaluation of scalars and aggregates does to a context: it fills slots and adds none, so the
context that the next record starts with, reset, is always the same.
-/

namespace Lsql.Exec

theorem ScalarContext.reset_eq (ctx : ScalarContext) :
    ctx.reset = List.replicate ctx.length none := List.map_const'

theorem ScalarContext.reset_congr {ctx ctx' : ScalarContext} (h : ctx'.length = ctx.length) :
    ctx'.reset = ctx.reset := by
  rw [reset_eq, reset_eq, h]

namespace Scalar

/-- Induction with a hypothesis for every argument. -/
@[elab_as_elim] theorem induction {motive : Scalar → Prop}
    (identifier : ∀ slot id t, motive (.identifier slot id t)) (value : ∀ v, motive (.value v))
    (lazy : ∀ id s, motive s → motive (.lazy id s))
    (coalesce : ∀ t args, (∀ a ∈ args, motive a) → motive (.coalesce t args))
    (unary : ∀ t f a, motive a → motive (.unary t f a))
    (binary : ∀ t f l r, motive l → motive r → motive (.binary t f l r))
    (nary : ∀ t f args, (∀ a ∈ args, motive a) → motive (.nary t f args)) (s : Scalar) :
    motive s :=
  @Scalar.rec motive (fun args => ∀ a ∈ args, motive a) identifier value lazy
    (fun t args ih => coalesce t args ih) unary binary (fun t f args ih => nary t f args ih)
    (fun _ h => absurd h List.not_mem_nil)
    (fun _ _ ih ihs a ha => (List.mem_cons.mp ha).elim (fun he => he ▸ ih) fun ha => ihs a ha) s

variable {record : Record} {ctx ctx' : ScalarContext}

theorem evalFirst_length {args : List Scalar} {v : Value}
    (ih : ∀ a ∈ args, ∀ ctx v ctx', eval record a ctx = .ok (v, ctx') → ctx'.length = ctx.length)
    (h : evalFirst record args ctx = .ok (v, ctx')) : ctx'.length = ctx.length := by
  induction args generalizing ctx with
  | nil =>
      cases h
      rfl
  | cons a args ihs =>
      obtain ⟨⟨w, ctx₁⟩, ha, hrest⟩ := bind_eq_ok.mp h
      have hlength := ih a List.mem_cons_self ctx w ctx₁ ha
      rw [← hlength]
      change (if w.isNull then evalFirst record args ctx₁ else pure (w, ctx₁)) = _ at hrest
      split at hrest
      · exact ihs (fun b hb => ih b (List.mem_cons_of_mem _ hb)) hrest
      · cases hrest
        rfl

theorem evalAll_length_of {args : List Scalar} {vs : List Value}
    (ih : ∀ a ∈ args, ∀ ctx v ctx', eval record a ctx = .ok (v, ctx') → ctx'.length = ctx.length)
    (h : evalAll record args ctx = .ok (vs, ctx')) : ctx'.length = ctx.length := by
  induction args generalizing ctx vs with
  | nil =>
      cases h
      rfl
  | cons a args ihs =>
      obtain ⟨⟨w, ctx₁⟩, ha, hrest⟩ := bind_eq_ok.mp h
      obtain ⟨⟨ws, ctx₂⟩, has, hres⟩ := bind_eq_ok.mp hrest
      cases hres
      rw [← ih a List.mem_cons_self ctx w ctx₁ ha]
      exact ihs (fun b hb => ih b (List.mem_cons_of_mem _ hb)) has

/-- Evaluation keeps the number of slots. -/
theorem eval_length {s : Scalar} {v : Value} (h : eval record s ctx = .ok (v, ctx')) :
    ctx'.length = ctx.length := by
  induction s using Scalar.induction generalizing ctx v ctx' with
  | identifier slot id t =>
      obtain ⟨w, -, hw⟩ := bind_eq_ok.mp h
      cases hw
      rfl
  | value w =>
      cases h
      rfl
  | lazy id s ih =>
      rw [eval] at h
      split at h
      · cases h
      · cases h
        rfl
      · obtain ⟨⟨w, ctx₁⟩, hs, hw⟩ := bind_eq_ok.mp h
        cases hw
        rw [List.length_set]
        exact ih hs
  | coalesce t args ih => exact evalFirst_length (fun a ha _ _ _ => ih a ha) h
  | unary t f a ih =>
      obtain ⟨⟨w, ctx₁⟩, ha, hw⟩ := bind_eq_ok.mp h
      obtain ⟨res, -, hres⟩ := bind_eq_ok.mp hw
      cases hres
      exact ih ha
  | binary t f l r ihl ihr =>
      obtain ⟨⟨w, ctx₁⟩, hl, hw⟩ := bind_eq_ok.mp h
      obtain ⟨⟨w', ctx₂⟩, hr, hw'⟩ := bind_eq_ok.mp hw
      obtain ⟨res, -, hres⟩ := bind_eq_ok.mp hw'
      cases hres
      exact (ihr hr).trans (ihl hl)
  | nary t f args ih =>
      obtain ⟨⟨ws, ctx₁⟩, has, hw⟩ := bind_eq_ok.mp h
      obtain ⟨res, -, hres⟩ := bind_eq_ok.mp hw
      cases hres
      exact evalAll_length_of (fun a ha _ _ _ => ih a ha) has

theorem evalAll_length {args : List Scalar} {vs : List Value}
    (h : evalAll record args ctx = .ok (vs, ctx')) : ctx'.length = ctx.length :=
  evalAll_length_of (fun _ _ _ _ _ ha => eval_length ha) h

end Scalar

theorem Aggregator.feed_length [Platform] {a a' : Aggregator} {record : Record}
    {ctx ctx' : ScalarContext} (h : a.feed record ctx = .ok (a', ctx')) :
    ctx'.length = ctx.length := by
  cases a with
  | nullary state =>
      obtain ⟨s, -, hs⟩ := bind_eq_ok.mp h
      cases hs
      rfl
  | unary arg state =>
      obtain ⟨⟨v, ctx₁⟩, hv, hrest⟩ := bind_eq_ok.mp h
      obtain ⟨s, -, hs⟩ := bind_eq_ok.mp hrest
      cases hs
      exact Scalar.eval_length hv
  | const v nullIfEmpty count =>
      rw [feed] at h
      split at h
      · cases h
        rfl
      · cases h

end Lsql.Exec
