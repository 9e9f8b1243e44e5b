import Lsql.Ir.Refinement

/-!
# Lsql.Opt.FilterSplit

How `filterPushdown` takes a condition apart (`optimize/filter_pushdown.cpp`).

`splitCondition` collects the conjuncts that read certain fields only, and the others. `And` reads its
right operand only if the left one is true, so that a conjunct behind a false one may well be null;
what is collected has a value where its own conjuncts allow it. Where the first part is true, the
second one has the value of the whole condition; where the first part is false, so is the condition.
-/

namespace Lsql.Opt.FilterPushdown

open Ir

/-- `conjunction`. -/
def conjunction : Option Scalar → Option Scalar → Option Scalar
  | none, right => right
  | some left, none => some left
  | some left, some right => some (.fnCall .and [left, right] .boolean)

/-- `SplitCondition`. -/
structure SplitCondition where
  pushable : Option Scalar
  remaining : Option Scalar

/-- What `FieldSubsetChecker` finds out: every field that the condition reads is one of the schema. -/
def fieldsMatch (schema : Schema) (condition : Scalar) : Bool := condition.fields.all schema.contains

/-- The condition itself, on one side. -/
def splitLeaf (schema : Schema) (condition : Scalar) : SplitCondition :=
  if fieldsMatch schema condition then ⟨some condition, none⟩ else ⟨none, some condition⟩

/-- `splitCondition`. -/
def splitCondition (schema : Schema) : Scalar → Except Fault SplitCondition
  | .fnCall .and (a :: b :: _) _ => do
    let left ← splitCondition schema a
    let right ← splitCondition schema b
    pure ⟨conjunction left.pushable right.pushable, conjunction left.remaining right.remaining⟩
  | .fnCall .and _ _ => .error (.undefined "call->args[1]")
  | condition => .ok (splitLeaf schema condition)

mutual

/-- `FieldRebinder::visit`. -/
def rebind (fields : List (FieldId × FieldId)) : Scalar → Except Fault Scalar
  | .field id t =>
    match fields.lookup id with
    | some id' => .ok (.field id' t)
    | none => .error (.exception "unordered_map::at")
  | .value v t => .ok (.value v t)
  | .coalesce args t => do
    let args ← rebindAll fields args
    pure (.coalesce args t)
  | .fnCall f args t => do
    let args ← rebindAll fields args
    pure (.fnCall f args t)
  | .cached s t => do
    let s ← rebind fields s
    pure (.cached s t)

def rebindAll (fields : List (FieldId × FieldId)) : List Scalar → Except Fault (List Scalar)
  | [] => .ok []
  | a :: as => do
    let a ← rebind fields a
    let as ← rebindAll fields as
    pure (a :: as)

end

/-- Every `And` that is taken apart has its two operands. -/
def AndsBinary : Scalar → Prop
  | .fnCall .and [a, b] _ => AndsBinary a ∧ AndsBinary b
  | .fnCall .and _ _ => False
  | _ => True

/-! ### The parts of a condition -/

section Eval

variable [Platform] {record : FieldId → Except Fault Value}

/-- The value of a part; a part that is not there is true. -/
def optionEval (record : FieldId → Except Fault Value) : Option Scalar → Except Fault Value
  | none => .ok (.boolean true)
  | some s => s.eval record

omit [Platform] in
theorem getBool_ok {v : Value} {b : Bool} : v.getBool = .ok b ↔ v = .boolean b := by
  cases v <;> simp [Value.getBool]

omit [Platform] in
theorem andExecutor_ok {x y v : Value} : andExecutor x y = .ok v ↔
    (x = .boolean false ∧ v = .boolean false) ∨
      ∃ b, x = .boolean true ∧ y = .boolean b ∧ v = .boolean b := by
  unfold andExecutor
  cases x with
  | boolean a =>
      cases a with
      | false => simp [Value.getBool, eq_comm]
      | true => cases y <;> simp [Value.getBool, eq_comm]
  | _ => simp [Value.getBool]

theorem eval_and {a b : Scalar} (t : ValueType) {v : Value} :
    (Scalar.fnCall .and [a, b] t).eval record = .ok v ↔
      ∃ x y, a.eval record = .ok x ∧ b.eval record = .ok y ∧ andExecutor x y = .ok v := by
  rw [Scalar.eval]
  constructor
  · intro h
    obtain ⟨vs, hvs, hv⟩ := bind_eq_ok.mp h
    obtain ⟨x, xs, hx, hxs, rfl⟩ := List.forall₂_cons_left_iff.mp (Scalar.evalAll_ok.mp hvs)
    obtain ⟨y, rfl, hy⟩ := forall₂_one hxs
    exact ⟨x, y, hx, hy, hv⟩
  · rintro ⟨x, y, hx, hy, hv⟩
    exact bind_eq_ok.mpr ⟨[x, y], Scalar.evalAll_ok.mpr (.cons hx (.cons hy .nil)), hv⟩

variable {p q : Option Scalar} {v x y : Value}

theorem conjunction_true (h : optionEval record (conjunction p q) = .ok (.boolean true)) :
    optionEval record p = .ok (.boolean true) ∧ optionEval record q = .ok (.boolean true) := by
  cases p with
  | none => exact ⟨rfl, h⟩
  | some a =>
      cases q with
      | none => exact ⟨h, rfl⟩
      | some b =>
          obtain ⟨x, y, hx, hy, hv⟩ := (eval_and .boolean).mp h
          rcases andExecutor_ok.mp hv with ⟨-, hv⟩ | ⟨b, rfl, rfl, hb⟩
          · cases hv
          · rw [← hb] at hy
            exact ⟨hx, hy⟩

theorem conjunction_false (h : optionEval record (conjunction p q) = .ok (.boolean false)) :
    optionEval record p = .ok (.boolean false) ∨
      optionEval record p = .ok (.boolean true) ∧ optionEval record q = .ok (.boolean false) := by
  cases p with
  | none => exact .inr ⟨rfl, h⟩
  | some a =>
      cases q with
      | none => exact .inl h
      | some b =>
          obtain ⟨x, y, hx, hy, hv⟩ := (eval_and .boolean).mp h
          rcases andExecutor_ok.mp hv with ⟨rfl, -⟩ | ⟨b, rfl, rfl, hb⟩
          · exact .inl hx
          · rw [← hb] at hy
            exact .inr ⟨hx, hy⟩

theorem conjunction_and (hp : optionEval record p = .ok x) (hq : optionEval record q = .ok y)
    (h : andExecutor x y = .ok v) : optionEval record (conjunction p q) = .ok v := by
  cases p with
  | none =>
      cases hp
      rcases andExecutor_ok.mp h with ⟨hx, -⟩ | ⟨b, -, rfl, rfl⟩
      · cases hx
      · exact hq
  | some a =>
      cases q with
      | none =>
          cases hq
          rcases andExecutor_ok.mp h with ⟨rfl, rfl⟩ | ⟨b, rfl, hb, rfl⟩
          · exact hp
          · rw [← hb]
            exact hp
      | some b => exact (eval_and .boolean).mpr ⟨x, y, hp, hq, h⟩

end Eval

section Split

/-- What `splitCondition` makes of a condition. -/
inductive Splits (schema : Schema) : Scalar → SplitCondition → Prop
  | leaf (c : Scalar) : Splits schema c (splitLeaf schema c)
  | and {a b : Scalar} {rest : List Scalar} {t : ValueType} {left right : SplitCondition} :
      Splits schema a left → Splits schema b right →
      Splits schema (.fnCall .and (a :: b :: rest) t)
        ⟨conjunction left.pushable right.pushable, conjunction left.remaining right.remaining⟩

variable {schema : Schema} {c : Scalar} {sp : SplitCondition}

theorem splits_of_ok (h : splitCondition schema c = .ok sp) : Splits schema c sp := by
  induction c using splitCondition.induct generalizing sp with
  | case1 a b rest t iha ihb =>
      rw [splitCondition] at h
      obtain ⟨left, hleft, h⟩ := bind_eq_ok.mp h
      obtain ⟨right, hright, h⟩ := bind_eq_ok.mp h
      cases h
      exact .and (iha hleft) (ihb hright)
  | case2 args t hargs =>
      rw [splitCondition] at h
      · cases h
      · exact hargs
  | case3 c hand hother =>
      rw [splitCondition] at h
      · cases h
        exact .leaf c
      · exact hand
      · exact hother

theorem splitCondition_ok (h : AndsBinary c) : ∃ sp, splitCondition schema c = .ok sp := by
  induction c using splitCondition.induct with
  | case1 a b rest t iha ihb =>
      cases rest with
      | nil =>
          obtain ⟨left, hleft⟩ := iha h.1
          obtain ⟨right, hright⟩ := ihb h.2
          rw [splitCondition, hleft, hright]
          exact ⟨_, rfl⟩
      | cons => exact absurd h id
  | case2 args t hargs =>
      rcases args with _ | ⟨a, _ | ⟨b, rest⟩⟩
      · exact absurd h id
      · exact absurd h id
      · exact absurd rfl (hargs a b rest)
  | case3 c hand hother =>
      refine ⟨splitLeaf schema c, ?_⟩
      rw [splitCondition]
      · exact hand
      · exact hother

/-- A property of conditions and of their conjunctions. -/
theorem conjunction_forall {Q : Scalar → Prop} {p q : Option Scalar}
    (hand : ∀ {a b : Scalar}, Q a → Q b → Q (.fnCall .and [a, b] .boolean))
    (hp : ∀ s, p = some s → Q s) (hq : ∀ s, q = some s → Q s) :
    ∀ s, conjunction p q = some s → Q s := by
  intro s hs
  cases p with
  | none => exact hq s hs
  | some a =>
      cases q with
      | none => exact hp s hs
      | some b =>
          cases hs
          exact hand (hp a rfl) (hq b rfl)

/-- A property of conditions and of their conjunctions is one of the parts. -/
theorem Splits.parts {Q : Scalar → Prop} (h : Splits schema c sp)
    (hoperands : ∀ {a b : Scalar} {rest : List Scalar} {t : ValueType},
      Q (.fnCall .and (a :: b :: rest) t) → Q a ∧ Q b)
    (hand : ∀ {a b : Scalar}, Q a → Q b → Q (.fnCall .and [a, b] .boolean)) (hc : Q c) :
    (∀ s, sp.pushable = some s → Q s) ∧ ∀ s, sp.remaining = some s → Q s := by
  induction h with
  | leaf c =>
      unfold splitLeaf
      split
      · refine ⟨fun s hs => ?_, fun s hs => by cases hs⟩
        cases hs
        exact hc
      · refine ⟨fun s hs => (by cases hs), fun s hs => ?_⟩
        cases hs
        exact hc
  | and _ _ iha ihb =>
      obtain ⟨ha, hb⟩ := hoperands hc
      exact ⟨conjunction_forall hand (iha ha).1 (ihb hb).1,
        conjunction_forall hand (iha ha).2 (ihb hb).2⟩

theorem readsIn_and {a b : Scalar} {t : ValueType} :
    (Scalar.fnCall .and [a, b] t).ReadsIn schema ↔ a.ReadsIn schema ∧ b.ReadsIn schema := by
  constructor
  · intro h
    exact ⟨fun id hid => h id (Scalar.mem_fieldsAll.mpr ⟨a, by simp, hid⟩),
      fun id hid => h id (Scalar.mem_fieldsAll.mpr ⟨b, by simp, hid⟩)⟩
  · intro h id hmem
    obtain ⟨d, hd, hid⟩ := Scalar.mem_fieldsAll.mp hmem
    rcases List.mem_pair.mp hd with rfl | rfl
    · exact h.1 id hid
    · exact h.2 id hid

/-- The first part reads the fields of the schema only. -/
theorem Splits.pushable_readsIn (h : Splits schema c sp) :
    ∀ s, sp.pushable = some s → s.ReadsIn schema := by
  induction h with
  | leaf c =>
      intro s hs
      unfold splitLeaf at hs
      split at hs
      next hmatch =>
        cases hs
        intro id hid
        simpa [Schema.contains] using List.all_eq_true.mp hmatch id hid
      · cases hs
  | and _ _ iha ihb =>
      exact conjunction_forall (fun ha hb => readsIn_and.mpr ⟨ha, hb⟩) iha ihb

/-- The parts read no more than the condition. -/
theorem Splits.readsIn {schema' : Schema} (h : Splits schema c sp) (hc : c.ReadsIn schema') :
    (∀ s, sp.pushable = some s → s.ReadsIn schema') ∧
      ∀ s, sp.remaining = some s → s.ReadsIn schema' := by
  refine h.parts (fun hab => ⟨fun id hid => hab id ?_, fun id hid => hab id ?_⟩)
    (fun ha hb => readsIn_and.mpr ⟨ha, hb⟩) hc
  · exact Scalar.mem_fieldsAll.mpr ⟨_, by simp, hid⟩
  · exact Scalar.mem_fieldsAll.mpr ⟨_, by simp, hid⟩

theorem Splits.binary (h : Splits schema c sp) (hc : AndsBinary c) :
    (∀ s, sp.pushable = some s → AndsBinary s) ∧
      ∀ s, sp.remaining = some s → AndsBinary s := by
  refine h.parts (fun {a b rest t} hab => ?_) (fun ha hb => ⟨ha, hb⟩) hc
  cases rest with
  | nil => exact hab
  | cons => exact absurd hab id

variable [Platform] {record : FieldId → Except Fault Value} {v : Value}

/-- Where the first part is true, the second one has the value of the condition. -/
theorem Splits.eval_remaining (h : Splits schema c sp) (hbinary : AndsBinary c)
    (hc : c.eval record = .ok v) (hp : optionEval record sp.pushable = .ok (.boolean true)) :
    optionEval record sp.remaining = .ok v := by
  induction h generalizing v with
  | leaf c =>
      unfold splitLeaf at hp ⊢
      split at hp
      · rw [optionEval, hc] at hp
        cases hp
        rw [if_pos ‹_›]
        rfl
      · rw [if_neg ‹_›]
        exact hc
  | @and a b rest t left right _ _ iha ihb =>
      cases rest with
      | nil =>
          obtain ⟨x, y, hx, hy, hv⟩ := (eval_and t).mp hc
          obtain ⟨hl, hr⟩ := conjunction_true hp
          exact conjunction_and (iha hbinary.1 hx hl) (ihb hbinary.2 hy hr) hv
      | cons => exact absurd hbinary id

/-- Where the first part is false, so is the condition. -/
theorem Splits.eval_false (h : Splits schema c sp) (hbinary : AndsBinary c)
    (hc : c.eval record = .ok v) (hp : optionEval record sp.pushable = .ok (.boolean false)) :
    v = .boolean false := by
  induction h generalizing v with
  | leaf c =>
      unfold splitLeaf at hp
      split at hp
      · rw [optionEval, hc] at hp
        cases hp
        rfl
      · cases hp
  | @and a b rest t left right hsa _ iha ihb =>
      cases rest with
      | nil =>
          obtain ⟨x, y, hx, hy, hv⟩ := (eval_and t).mp hc
          rcases conjunction_false hp with hl | ⟨hl, hr⟩
          · rw [iha hbinary.1 hx hl] at hv
            rcases andExecutor_ok.mp hv with ⟨-, hv⟩ | ⟨d, hd, -⟩
            · exact hv
            · cases hd
          · rw [ihb hbinary.2 hy hr] at hv
            rcases andExecutor_ok.mp hv with ⟨-, hv⟩ | ⟨d, -, hd, hv⟩
            · exact hv
            · rw [hv, ← hd]
      | cons => exact absurd hbinary id

end Split

/-! ### Renamed fields -/

section Rebind

variable {fields : List (FieldId × FieldId)}

theorem rebindAll_ok {as : List Scalar} {Q : Scalar → Scalar → Prop}
    (h : ∀ a ∈ as, ∃ a', rebind fields a = .ok a' ∧ Q a a') :
    ∃ as', rebindAll fields as = .ok as' ∧ List.Forall₂ Q as as' := by
  induction as with
  | nil => exact ⟨[], rfl, .nil⟩
  | cons a as ih =>
      obtain ⟨a', ha, hQ⟩ := h a List.mem_cons_self
      obtain ⟨as', has, hall⟩ := ih fun b hb => h b (List.mem_cons_of_mem _ hb)
      refine ⟨a' :: as', ?_, .cons hQ hall⟩
      rw [rebindAll, ha, has]
      rfl

theorem mem_of_lookup {id id' : FieldId} (h : fields.lookup id = some id') :
    (id, id') ∈ fields := by
  obtain ⟨l₁, l₂, rfl, -⟩ := List.lookup_eq_some_iff.mp h
  exact List.mem_append_right _ List.mem_cons_self

/-- What a renamed scalar is: it reads the new fields, and has the value of the old scalar on a
record with the new fields under the old names. -/
structure Rebound (fields : List (FieldId × FieldId)) (s s' : Scalar) : Prop where
  readsIn : ∀ schema : Schema, (∀ p ∈ fields, p.2 ∈ schema.fields) → s'.ReadsIn schema
  binary : AndsBinary s → AndsBinary s'
  eval [Platform] : ∀ record record' : FieldId → Except Fault Value,
    (∀ id id', fields.lookup id = some id' → record id = record' id') →
    s.eval record = s'.eval record'

/-- Operands that are renamed one by one. -/
theorem rebound_readsIn {args args' : List Scalar} (h : List.Forall₂ (Rebound fields) args args')
    {schema : Schema} (hschema : ∀ p ∈ fields, p.2 ∈ schema.fields) :
    ∀ id ∈ Scalar.fieldsAll args', id ∈ schema.fields := by
  intro id hid
  obtain ⟨a', ha', hid⟩ := Scalar.mem_fieldsAll.mp hid
  obtain ⟨a, -, ha⟩ := forall₂_mem_right h ha'
  exact ha.readsIn schema hschema id hid

theorem rebound_binary {f : Function} {args args' : List Scalar} {t : ValueType}
    (h : List.Forall₂ (Rebound fields) args args') (hbinary : AndsBinary (.fnCall f args t)) :
    AndsBinary (.fnCall f args' t) := by
  cases f with
  | and =>
      rcases args with _ | ⟨a, _ | ⟨b, _ | ⟨c, rest⟩⟩⟩
      case cons.cons.nil =>
        obtain ⟨a', b', rfl, ha, hb⟩ := forall₂_two h
        exact ⟨ha.binary hbinary.1, hb.binary hbinary.2⟩
      all_goals exact absurd hbinary id
  | _ => trivial

theorem rebind_ok {s : Scalar} (h : ∀ id ∈ s.fields, ∃ id', fields.lookup id = some id') :
    ∃ s', rebind fields s = .ok s' ∧ Rebound fields s s' := by
  have hargs : ∀ {args : List Scalar},
      (∀ a ∈ args, (∀ id ∈ a.fields, ∃ id', fields.lookup id = some id') →
        ∃ a', rebind fields a = .ok a' ∧ Rebound fields a a') →
      (∀ id ∈ Scalar.fieldsAll args, ∃ id', fields.lookup id = some id') →
      ∃ args', rebindAll fields args = .ok args' ∧ List.Forall₂ (Rebound fields) args args' := by
    intro args ih hargs
    exact rebindAll_ok fun a ha =>
      ih a ha fun id hid => hargs id (Scalar.mem_fieldsAll.mpr ⟨a, ha, hid⟩)
  induction s using Scalar.induction with
  | field id t =>
      obtain ⟨id', hid'⟩ := h id List.mem_cons_self
      refine ⟨.field id' t, ?_, ?_, fun _ => trivial, fun record record' hrecord => ?_⟩
      · rw [rebind, hid']
      · intro schema hschema i hi
        rw [List.mem_singleton.mp hi]
        exact hschema _ (mem_of_lookup hid')
      · exact hrecord id id' hid'
  | value v t =>
      exact ⟨.value v t, rfl, fun _ _ i hi => absurd hi List.not_mem_nil, fun _ => trivial,
        fun _ _ _ => rfl⟩
  | coalesce args t ih =>
      obtain ⟨args', hrebind, hall⟩ := hargs ih h
      refine ⟨.coalesce args' t, ?_, fun schema => rebound_readsIn hall, fun _ => trivial,
        fun record record' hrecord => ?_⟩
      · rw [rebind, hrebind]
        rfl
      · rw [Scalar.eval, Scalar.eval]
        exact Scalar.evalFirst_congr (hall.imp fun a a' ha => ha.eval record record' hrecord)
  | fnCall f args t ih =>
      obtain ⟨args', hrebind, hall⟩ := hargs ih h
      refine ⟨.fnCall f args' t, ?_, fun schema => rebound_readsIn hall, rebound_binary hall,
        fun record record' hrecord => ?_⟩
      · rw [rebind, hrebind]
        rfl
      · rw [Scalar.eval, Scalar.eval,
          Scalar.evalAll_congr (hall.imp fun a a' ha => ha.eval record record' hrecord)]
  | cached s t ih =>
      obtain ⟨s', hrebind, hs'⟩ := ih h
      refine ⟨.cached s' t, ?_, hs'.readsIn, fun _ => trivial, hs'.eval⟩
      rw [rebind, hrebind]
      rfl

end Rebind

end Lsql.Opt.FilterPushdown
