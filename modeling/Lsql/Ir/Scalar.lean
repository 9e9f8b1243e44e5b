import Lsql.Core.Function
import Lsql.Core.Schema

/-!
# Lsql.Ir.Scalar

The scalar expressions of the intermediate representation (`ir/Scalars.h`, `ir/Scalars.cpp`) and
their meaning.

A scalar reads the fields of a record. `eval` is the meaning of a scalar on a record that is given
as a function of the field: arguments from left to right, the alternatives of a `coalesce` only as
far as needed, a cached scalar as the scalar that it holds. The way a plan keeps the value of a
cached scalar (`Lsql.Plan.Scalar`) is compared with it.
-/

namespace Lsql.Ir

/-- `ir::Scalar`, with one constructor for each node; the last field is `value_type`. -/
inductive Scalar
  | field (fieldId : FieldId) (valueType : ValueType)
  | value (value : Value) (valueType : ValueType)
  | coalesce (args : List Scalar) (valueType : ValueType)
  | fnCall (function : Function) (args : List Scalar) (valueType : ValueType)
  | cached (scalar : Scalar) (valueType : ValueType)

namespace Scalar

/-- `value_type`. -/
def valueType : Scalar → ValueType
  | field _ t | value _ t | coalesce _ t | fnCall _ _ t | cached _ t => t

@[simp] theorem valueType_field (id : FieldId) (t : ValueType) : (field id t).valueType = t := rfl
@[simp] theorem valueType_value (v : Value) (t : ValueType) : (value v t).valueType = t := rfl
@[simp] theorem valueType_coalesce (args : List Scalar) (t : ValueType) :
    (coalesce args t).valueType = t := rfl
@[simp] theorem valueType_fnCall (f : Function) (args : List Scalar) (t : ValueType) :
    (fnCall f args t).valueType = t := rfl
@[simp] theorem valueType_cached (s : Scalar) (t : ValueType) : (cached s t).valueType = t := rfl

/-- Induction with a hypothesis for every argument. -/
@[elab_as_elim] theorem induction {motive : Scalar → Prop}
    (field : ∀ id t, motive (.field id t)) (value : ∀ v t, motive (.value v t))
    (coalesce : ∀ args t, (∀ a ∈ args, motive a) → motive (.coalesce args t))
    (fnCall : ∀ f args t, (∀ a ∈ args, motive a) → motive (.fnCall f args t))
    (cached : ∀ s t, motive s → motive (.cached s t)) (s : Scalar) : motive s :=
  @Scalar.rec motive (fun args => ∀ a ∈ args, motive a) field value
    (fun args t ih => coalesce args t ih) (fun f args t ih => fnCall f args t ih)
    (fun s t ih => cached s t ih) (fun _ h => absurd h List.not_mem_nil)
    (fun _ _ ih ihs a ha => (List.mem_cons.mp ha).elim (fun he => he ▸ ih) fun ha => ihs a ha) s

/-! ### Equality -/

mutual

/-- `operator==`: `util::equal` on the nodes, which compares constants by `Value::operator==`. -/
def equal : Scalar → Scalar → Bool
  | field a t, field b u => a == b && t == u
  | value a t, value b u => a.equal b && t == u
  | coalesce as t, coalesce bs u => equalAll as bs && t == u
  | fnCall f as t, fnCall g bs u => f == g && equalAll as bs && t == u
  | cached a t, cached b u => a.equal b && t == u
  | _, _ => false

/-- `util::equal` on vectors. -/
def equalAll : List Scalar → List Scalar → Bool
  | [], [] => true
  | a :: as, b :: bs => a.equal b && equalAll as bs
  | _, _ => false

end

/-! ### Fields -/

mutual

/-- The fields that a scalar reads. -/
def fields : Scalar → List FieldId
  | field id _ => [id]
  | value _ _ => []
  | coalesce args _ => fieldsAll args
  | fnCall _ args _ => fieldsAll args
  | cached s _ => s.fields

def fieldsAll : List Scalar → List FieldId
  | [] => []
  | a :: as => a.fields ++ fieldsAll as

end

theorem mem_fieldsAll {args : List Scalar} {id : FieldId} :
    id ∈ fieldsAll args ↔ ∃ a ∈ args, id ∈ a.fields := by
  induction args with
  | nil => simp [fieldsAll]
  | cons a as ih => simp [fieldsAll, ih]

/-! ### Meaning -/

variable [Platform]

mutual

/-- The value of a scalar on a record. -/
def eval (record : FieldId → Except Fault Value) : Scalar → Except Fault Value
  | field id _ => record id
  | value v _ => .ok v
  | coalesce args _ => evalFirst record args
  | fnCall f args _ => do
    let vs ← evalAll record args
    f.apply vs
  | cached s _ => s.eval record

/-- The first alternative that is not null. -/
def evalFirst (record : FieldId → Except Fault Value) : List Scalar → Except Fault Value
  | [] => .ok .null
  | a :: as => do
    let v ← a.eval record
    if v.isNull then evalFirst record as else pure v

/-- The arguments, from left to right. -/
def evalAll (record : FieldId → Except Fault Value) : List Scalar → Except Fault (List Value)
  | [] => .ok []
  | a :: as => do
    let v ← a.eval record
    let vs ← evalAll record as
    pure (v :: vs)

end

section Eval

variable {record record' : FieldId → Except Fault Value}

theorem evalFirst_congr {as bs : List Scalar}
    (h : List.Forall₂ (fun a b => a.eval record = b.eval record') as bs) :
    evalFirst record as = evalFirst record' bs := by
  induction h with
  | nil => rfl
  | cons hab _ ih => rw [evalFirst, evalFirst, hab, ih]

theorem evalAll_congr {as bs : List Scalar}
    (h : List.Forall₂ (fun a b => a.eval record = b.eval record') as bs) :
    evalAll record as = evalAll record' bs := by
  induction h with
  | nil => rfl
  | cons hab _ ih => rw [evalAll, evalAll, hab, ih]

theorem evalAll_ok {as : List Scalar} {vs : List Value} :
    evalAll record as = .ok vs ↔ List.Forall₂ (fun a v => a.eval record = .ok v) as vs := by
  induction as generalizing vs with
  | nil => simp [evalAll, eq_comm]
  | cons a as ih =>
      rw [evalAll, List.forall₂_cons_left_iff]
      cases ha : a.eval record with
      | error e => simp
      | ok v =>
          cases has : evalAll record as with
          | error e =>
              rw [has] at ih
              simp [← ih]
          | ok us =>
              rw [has] at ih
              simp only [ok_bind, pure_eq_ok, Except.ok.injEq, ← ih]
              constructor
              · rintro rfl
                exact ⟨v, us, rfl, rfl, rfl⟩
              · rintro ⟨v', us', hv, hus, rfl⟩
                rw [hv, hus]

/-- A scalar's value depends on the fields that it reads. -/
theorem eval_congr {s : Scalar} (h : ∀ id ∈ s.fields, record id = record' id) :
    s.eval record = s.eval record' := by
  have hall : ∀ {args : List Scalar}, (∀ a ∈ args, (∀ id ∈ a.fields, record id = record' id) →
      a.eval record = a.eval record') → (∀ id ∈ fieldsAll args, record id = record' id) →
      List.Forall₂ (fun a b => a.eval record = b.eval record') args args := by
    intro args ih hargs
    exact List.forall₂_same.mpr fun a ha =>
      ih a ha fun id hid => hargs id (mem_fieldsAll.mpr ⟨a, ha, hid⟩)
  induction s using Scalar.induction with
  | field id t => exact h id (by simp [fields])
  | value v t => rfl
  | coalesce args t ih =>
      rw [fields] at h
      rw [eval, eval, evalFirst_congr (hall ih h)]
  | fnCall f args t ih =>
      rw [fields] at h
      rw [eval, eval, evalAll_congr (hall ih h)]
  | cached s t ih =>
      rw [fields] at h
      exact ih h

end Eval

end Scalar

end Lsql.Ir
