import Lsql.Ir.Refinement
import Lsql.Plan.Planner

/-!
# Lsql.Plan.Plannable

Programs of the intermediate representation that can be planned.

A scalar reads the fields of its input, and each of its calls has the arguments that the executor of
its function takes. Planning it then fails on an invalid pattern only, and what it is planned as asks
for no other fields.
-/

namespace Lsql

open Flow

/-! ### Calls -/

/-- Whether an executor is built for a function that takes so many arguments. -/
def Function.takes : Function → Nat → Bool
  | .coalesce, _ => true
  | .lower, n | .splitPart _ _, n | .substr _ _, n | .rSubstr _, n | .like _, n | .cast _, n
  | .jsonValue _, n | .parseTimestamp _, n | .booleanNegate, n => n == 1
  | .equal, n | .notEqual, n | .and, n | .or, n => n == 2
  | .less t, n | .greater t, n | .lessEqual t, n | .greaterEqual t, n =>
    (Operand.comparable t).isSome && n == 2
  | .divide t, n | .subtract t, n => (Operand.subtractable t).isSome && n == 2
  | .add t, n => (Operand.addable t).isSome && n == 2
  | _, _ => false

/-- The numbers of arguments that an executor can be called with. -/
def Executor.Takes (n : Nat) : Executor → Prop
  | .unary _ => n = 1
  | .binary _ => n = 2
  | .nary _ => True

/-- Whether an aggregator is built for a function that takes so many arguments. -/
def Function.aggregates : Function → Nat → Bool
  | .countAll, n => n == 0
  | .countNonNull, n => n == 1
  | .percentile _ t, n | .min t, n | .max t, n => (Operand.comparable t).isSome && n == 1
  | .sum t, n => (Operand.addable t).isSome && n == 1
  | _, _ => false

namespace Ir

mutual

/-- Every call of a scalar has the arguments that its function takes. -/
def Scalar.wellCalled : Scalar → Bool
  | .field _ _ | .value _ _ => true
  | .coalesce args _ => Scalar.wellCalledAll args
  | .fnCall f args _ => f.takes args.length && Scalar.wellCalledAll args
  | .cached s _ => s.wellCalled

def Scalar.wellCalledAll : List Scalar → Bool
  | [] => true
  | a :: as => a.wellCalled && Scalar.wellCalledAll as

end

theorem Scalar.wellCalledAll_iff {args : List Scalar} :
    Scalar.wellCalledAll args = true ↔ ∀ a ∈ args, a.wellCalled = true := by
  induction args with
  | nil => simp [wellCalledAll]
  | cons a as ih => simp [wellCalledAll, ih]

/-- A scalar that can be planned over an input. -/
structure Scalar.Plannable (schema : Schema) (s : Scalar) : Prop where
  reads : s.ReadsIn schema
  calls : s.wellCalled = true

/-- An aggregate that can be planned over an input. -/
structure Aggregate.Plannable (schema : Schema) (a : Aggregate) : Prop where
  args : ∀ s ∈ a.args, s.Plannable schema
  call : ∀ f args, a.node = .fnCall f args → f.aggregates args.length = true

section Mono

variable {a b : Schema}

theorem Scalar.Plannable.mono {s : Scalar} (h : s.Plannable a) (hsub : a.fields ⊆ b.fields) :
    s.Plannable b := ⟨h.reads.mono hsub, h.calls⟩

theorem Aggregate.Plannable.mono {x : Aggregate} (h : x.Plannable a)
    (hsub : a.fields ⊆ b.fields) : x.Plannable b := ⟨fun s hs => (h.args s hs).mono hsub, h.call⟩

theorem Scalar.Plannable.all {args : List Scalar} (hreads : ∀ id ∈ fieldsAll args, id ∈ a.fields)
    (hcalls : wellCalledAll args = true) : ∀ s ∈ args, s.Plannable a := fun s hs =>
  ⟨fun id hid => hreads id (mem_fieldsAll.mpr ⟨s, hs, hid⟩), wellCalledAll_iff.mp hcalls s hs⟩

end Mono

end Ir

namespace Plan

open Lsql.Exec (Scalar Aggregate)

/-! ### What planning a scalar ends with -/

/-- A pattern that the library does not accept. -/
def BadPattern (e : Fault) : Prop := e = .exception "reflex::regex_error"

section Scalars

variable [HashOrder]

theorem mem_mergeRequired {args : List Scalar} {set : FieldSet} {id : FieldId} :
    id ∈ Scalar.mergeRequired args set ↔ id ∈ set ∨ ∃ a ∈ args, id ∈ a.requiredFields := by
  induction args generalizing set with
  | nil => simp [Scalar.mergeRequired]
  | cons a as ih => simp [Scalar.mergeRequired, ih, or_assoc]

theorem mem_requiredOf {sets : List FieldSet} {id : FieldId} :
    id ∈ requiredOf sets ↔ ∃ set ∈ sets, id ∈ set := by
  have hfold : ∀ start : FieldSet,
      id ∈ sets.foldl FieldSet.merge start ↔ id ∈ start ∨ ∃ set ∈ sets, id ∈ set := by
    induction sets with
    | nil => simp
    | cons set sets ih => simp [ih, or_assoc]
  rw [requiredOf, hfold]
  simp

theorem mem_requiredProjectorsFields {projectors : List (FieldId × FieldSet)} {required : FieldSet}
    {id : FieldId} (h : id ∈ requiredProjectorsFields projectors required) :
    ∃ p ∈ projectors, id ∈ p.2 := by
  have hfold : ∀ start : FieldSet, id ∈ projectors.foldl (fun set p =>
      if required.contains p.1 then set.merge p.2 else set) start →
      id ∈ start ∨ ∃ p ∈ projectors, id ∈ p.2 := by
    clear h
    induction projectors with
    | nil => exact fun _ => .inl
    | cons p ps ih =>
        intro start hid
        rcases ih _ hid with hid | ⟨q, hq, hid⟩
        · dsimp only at hid
          split at hid
          · exact (FieldSet.mem_merge.mp hid).imp_right fun hid => ⟨p, List.mem_cons_self, hid⟩
          · exact .inl hid
        · exact .inr ⟨q, List.mem_cons_of_mem _ hq, hid⟩
  exact (hfold _ h).resolve_left (FieldSet.not_mem_emptySet id)

/-- A planned scalar asks for fields that the scalar reads. -/
def Asks (s : Ir.Scalar) (e : Scalar) : Prop := ∀ id ∈ e.requiredFields, id ∈ s.fields

/-- A planned aggregate asks for fields that its arguments read. -/
def AsksAggregate (a : Ir.Aggregate) (e : Aggregate) : Prop :=
  ∀ id ∈ e.requiredFields, ∃ s ∈ a.args, id ∈ s.fields

theorem asks_args {list : List Ir.Scalar} {es : List Scalar} (h : List.Forall₂ Asks list es)
    {id : FieldId} (hid : id ∈ Scalar.mergeRequired es .emptySet) : id ∈ Ir.Scalar.fieldsAll list := by
  rcases mem_mergeRequired.mp hid with hid | ⟨e, he, hid⟩
  · exact absurd hid (FieldSet.not_mem_emptySet id)
  · obtain ⟨s, hs, hasks⟩ := forall₂_mem_right h he
    exact Ir.Scalar.mem_fieldsAll.mpr ⟨s, hs, hasks id hid⟩

variable [Platform] {schema : Schema}

omit [HashOrder] in
/-- No executor but for the numbers of arguments that a function takes. -/
theorem buildScalar_ends {f : Function} {n : Nat} (h : f.takes n = true) :
    Ends BadPattern (Executor.Takes n) (buildScalar f) := by
  have hoperand : ∀ {concept : ValueType → Option Operand} {t : ValueType}
      {execute : Operand → Value → Value → Except Fault Value},
      ((concept t).isSome && n == 2) = true → Ends BadPattern (Executor.Takes n) (do
        let T ← dispatch concept t
        pure (Executor.binary (execute T))) := by
    intro concept t execute hn
    rw [Bool.and_eq_true, beq_iff_eq] at hn
    obtain ⟨T, hT⟩ := Option.isSome_iff_exists.mp hn.1
    rw [dispatch, hT]
    exact hn.2
  have hpattern : ∀ {regex : Bytes} {execute : Value → Except Fault Value}, (n == 1) = true →
      Ends BadPattern (Executor.Takes n) (do
        buildPattern regex
        pure (Executor.unary execute)) := by
    intro regex execute hn
    rw [buildPattern, require]
    split
    · exact beq_iff_eq.mp hn
    · exact rfl
  cases f with
  | rSubstr | like => exact hpattern h
  | less | greater | lessEqual | greaterEqual | divide | add | subtract => exact hoperand h
  | coalesce => trivial
  | percentile | countNonNull | countAll | min | max | sum => cases h
  | _ => exact beq_iff_eq.mp h

theorem planCall_ends {f : Function} {t : ValueType} {args : List Scalar}
    (h : f.takes args.length = true) :
    Ends BadPattern (fun e => ∀ id ∈ e.requiredFields, id ∈ Scalar.mergeRequired args .emptySet)
      (planCall f t args) := by
  refine (buildScalar_ends h).bind fun executor hn => ?_
  cases executor with
  | unary execute =>
      obtain ⟨arg, rfl⟩ := List.length_eq_one_iff.mp hn
      exact fun id hid => mem_mergeRequired.mpr (.inr ⟨arg, List.mem_cons_self, hid⟩)
  | binary execute =>
      obtain ⟨left, right, rfl⟩ := List.length_eq_two.mp hn
      intro id hid
      refine mem_mergeRequired.mpr (.inr ?_)
      rcases FieldSet.mem_merge.mp hid with hid | hid
      · exact ⟨left, List.mem_cons_self, hid⟩
      · exact ⟨right, by simp, hid⟩
  | nary execute => exact fun id hid => hid

theorem expressionList_ends_of {list : List Ir.Scalar}
    (hall : ∀ s ∈ list, ∀ scope, Ends BadPattern (fun p => Asks s p.1) (planScalar schema s scope))
    (scope : Option ScalarScope) :
    Ends BadPattern (fun p => List.Forall₂ Asks list p.1) (expressionList schema list scope) := by
  induction list generalizing scope with
  | nil => exact List.Forall₂.nil
  | cons s list ih =>
      refine (hall s List.mem_cons_self scope).bind ?_
      rintro ⟨e, scope₁⟩ he
      refine (ih (fun q hq => hall q (List.mem_cons_of_mem _ hq)) scope₁).bind ?_
      rintro ⟨es, scope₂⟩ hes
      exact List.Forall₂.cons he hes

theorem planScalar_ends {s : Ir.Scalar} (h : s.Plannable schema) (scope : Option ScalarScope) :
    Ends BadPattern (fun p => Asks s p.1) (planScalar schema s scope) := by
  induction s using Ir.Scalar.induction generalizing scope with
  | field id t =>
      have hid : id ∈ schema.fields := h.reads id List.mem_cons_self
      rw [planScalar]
      split
      · exact fun x hx => FieldSet.mem_withField.mp hx ▸ List.mem_cons_self
      next hnone => exact absurd hid (by simpa [Schema.slot, List.idxOf?_eq_none_iff] using hnone)
  | value v t => exact fun id hid => absurd hid (FieldSet.not_mem_emptySet id)
  | coalesce args t ih =>
      have hargs := Ir.Scalar.Plannable.all h.reads h.calls
      refine (expressionList_ends_of (fun a ha => ih a ha (hargs a ha)) scope).bind ?_
      rintro ⟨es, scope₁⟩ hes
      exact fun id hid => asks_args hes hid
  | fnCall f args t ih =>
      obtain ⟨htakes, hcalls⟩ := Bool.and_eq_true_iff.mp h.calls
      have hargs := Ir.Scalar.Plannable.all h.reads hcalls
      refine (expressionList_ends_of (fun a ha => ih a ha (hargs a ha)) scope).bind ?_
      rintro ⟨es, scope₁⟩ hes
      have hlen : es.length = args.length := (List.Forall₂.length_eq hes).symm
      exact (planCall_ends (hlen ▸ htakes)).bind fun call hcall id hid => asks_args hes (hcall id hid)
  | cached s t ih =>
      have hs : s.Plannable schema := ⟨h.reads, h.calls⟩
      cases scope with
      | none => exact ih hs none
      | some scope => exact (ih hs _).bind fun p hp => hp

theorem expressionList_ends {list : List Ir.Scalar} (h : ∀ s ∈ list, s.Plannable schema)
    (scope : Option ScalarScope) :
    Ends BadPattern (fun p => List.Forall₂ Asks list p.1) (expressionList schema list scope) :=
  expressionList_ends_of (fun s hs scope => planScalar_ends (h s hs) scope) scope

theorem projectorsList_ends {list : List Ir.Projector} (h : ∀ p ∈ list, p.expr.Plannable schema)
    (scope : Option ScalarScope) :
    Ends BadPattern (fun r => List.Forall₂ (fun p q => Asks p.expr q.expr) list r.1)
      (projectorsList schema list scope) := by
  induction list generalizing scope with
  | nil => exact List.Forall₂.nil
  | cons p list ih =>
      refine (planScalar_ends (h p List.mem_cons_self) scope).bind ?_
      rintro ⟨e, scope₁⟩ he
      refine (ih (fun q hq => h q (List.mem_cons_of_mem _ hq)) scope₁).bind ?_
      rintro ⟨ps, scope₂⟩ hps
      exact List.Forall₂.cons he hps

omit [HashOrder] [Platform] in
/-- An aggregator is built, and it is fed as many values as the function takes. -/
theorem buildAggregate_returns {f : Function} {n : Nat} (h : f.aggregates n = true) :
    ∃ start, buildAggregate f = .ok start ∧ n = if start.isNullary then 0 else 1 := by
  have hoperand : ∀ {concept : ValueType → Option Operand} {t : ValueType}
      {start : Operand → FnAggregator}, ((concept t).isSome && n == 1) = true →
      (∀ T, (start T).isNullary = false) → ∃ x, (do
        let T ← dispatch concept t
        pure (start T) : Except Fault FnAggregator) = .ok x ∧
        n = if x.isNullary then 0 else 1 := by
    intro concept t start hn hnullary
    rw [Bool.and_eq_true, beq_iff_eq] at hn
    obtain ⟨T, hT⟩ := Option.isSome_iff_exists.mp hn.1
    exact ⟨start T, by rw [dispatch, hT]; rfl, by rw [hnullary, hn.2]; rfl⟩
  cases f with
  | countAll | countNonNull => exact ⟨_, rfl, beq_iff_eq.mp h⟩
  | percentile | min | max | sum => exact hoperand h fun _ => rfl
  | _ => cases h

theorem planAggregate_ends {a : Ir.Aggregate} (h : a.Plannable schema) (scope : Option ScalarScope) :
    Ends BadPattern (fun r => AsksAggregate a r.1) (planAggregate schema a.node a.valueType scope) := by
  obtain ⟨node, id, t⟩ := a
  cases node with
  | const v nullIfEmpty => exact fun id hid => absurd hid (FieldSet.not_mem_emptySet id)
  | fnCall f args =>
      refine (expressionList_ends h.args scope).bind ?_
      rintro ⟨es, scope₁⟩ hes
      have hlen : es.length = args.length := (List.Forall₂.length_eq hes).symm
      obtain ⟨start, hstart, harity⟩ := buildAggregate_returns (h.call f args rfl)
      show Ends BadPattern _ (buildAggregate f >>= _)
      rw [hstart, ok_bind]
      rw [← hlen] at harity
      split at harity
      next hnullary =>
        obtain rfl := List.length_eq_zero_iff.mp harity
        rw [if_pos hnullary]
        exact fun id hid => absurd hid (FieldSet.not_mem_emptySet id)
      next hnullary =>
        obtain ⟨arg, rfl⟩ := List.length_eq_one_iff.mp harity
        rw [if_neg hnullary]
        obtain ⟨s, hs, hasks⟩ := forall₂_mem_right hes List.mem_cons_self
        exact fun id hid => ⟨s, hs, hasks id hid⟩

theorem aggregatesList_ends {list : List Ir.Aggregate} (h : ∀ a ∈ list, a.Plannable schema)
    (scope : Option ScalarScope) :
    Ends BadPattern (fun r => List.Forall₂ (fun a q => AsksAggregate a q.expr) list r.1)
      (aggregatesList schema list scope) := by
  induction list generalizing scope with
  | nil => exact List.Forall₂.nil
  | cons a list ih =>
      refine (planAggregate_ends (h a List.mem_cons_self) scope).bind ?_
      rintro ⟨e, scope₁⟩ he
      refine (ih (fun q hq => h q (List.mem_cons_of_mem _ hq)) scope₁).bind ?_
      rintro ⟨ps, scope₂⟩ hps
      exact List.Forall₂.cons he hps

end Scalars

end Plan

end Lsql
