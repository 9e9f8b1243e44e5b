import Lsql.Ir.Scalar

/-!
# Lsql.Ir.Substitution

Scalars for the fields of a scalar: what is computed from a row is computed from the scalars that the
row has been computed from.
-/

namespace Lsql.Ir.Scalar

mutual

/-- A scalar with other scalars in the place of its fields. -/
def mapFields (f : FieldId → ValueType → Scalar) : Scalar → Scalar
  | field id t => f id t
  | value v t => value v t
  | coalesce args t => coalesce (mapFieldsAll f args) t
  | fnCall fn args t => fnCall fn (mapFieldsAll f args) t
  | cached s t => cached (s.mapFields f) t

def mapFieldsAll (f : FieldId → ValueType → Scalar) : List Scalar → List Scalar
  | [] => []
  | a :: as => a.mapFields f :: mapFieldsAll f as

end

variable {f g : FieldId → ValueType → Scalar}

theorem mapFieldsAll_eq_map (as : List Scalar) : mapFieldsAll f as = as.map (mapFields f) := by
  induction as with
  | nil => rfl
  | cons a as ih => rw [mapFieldsAll, ih, List.map_cons]

theorem mapFields_congr {s : Scalar} (h : ∀ id ∈ s.fields, ∀ t, f id t = g id t) :
    s.mapFields f = s.mapFields g := by
  have hargs : ∀ {args : List Scalar},
      (∀ a ∈ args, (∀ id ∈ a.fields, ∀ t, f id t = g id t) → a.mapFields f = a.mapFields g) →
      (∀ id ∈ fieldsAll args, ∀ t, f id t = g id t) → mapFieldsAll f args = mapFieldsAll g args := by
    intro args ih h
    rw [mapFieldsAll_eq_map, mapFieldsAll_eq_map]
    refine List.map_congr_left fun a ha => ih a ha fun id hid => ?_
    exact h id (mem_fieldsAll.mpr ⟨a, ha, hid⟩)
  induction s using Scalar.induction with
  | field id t => exact h id List.mem_cons_self t
  | value v t => rfl
  | coalesce args t ih => rw [mapFields, mapFields, hargs ih h]
  | fnCall fn args t ih => rw [mapFields, mapFields, hargs ih h]
  | cached s t ih => rw [mapFields, mapFields, ih h]

/-- Fields for fields. -/
theorem mapFields_field (s : Scalar) : s.mapFields field = s := by
  have hargs : ∀ {args : List Scalar}, (∀ a ∈ args, a.mapFields field = a) →
      mapFieldsAll field args = args := by
    intro args ih
    rw [mapFieldsAll_eq_map]
    exact (List.map_congr_left ih).trans (List.map_id args)
  induction s using Scalar.induction with
  | field id t => rfl
  | value v t => rfl
  | coalesce args t ih => rw [mapFields, hargs ih]
  | fnCall fn args t ih => rw [mapFields, hargs ih]
  | cached s t ih => rw [mapFields, ih]

/-- The fields that are read are those of the scalars that have been put in. -/
theorem mem_fields_mapFields {s : Scalar} {id : FieldId} (h : id ∈ (s.mapFields f).fields) :
    ∃ id' ∈ s.fields, ∃ t, id ∈ (f id' t).fields := by
  have hargs : ∀ {args : List Scalar},
      (∀ a ∈ args, id ∈ (a.mapFields f).fields → ∃ id' ∈ a.fields, ∃ t, id ∈ (f id' t).fields) →
      id ∈ fieldsAll (mapFieldsAll f args) →
      ∃ id' ∈ fieldsAll args, ∃ t, id ∈ (f id' t).fields := by
    intro args ih h
    obtain ⟨a', ha', hid⟩ := mem_fieldsAll.mp h
    rw [mapFieldsAll_eq_map] at ha'
    obtain ⟨a, ha, rfl⟩ := List.mem_map.mp ha'
    obtain ⟨id', hid', t, hf⟩ := ih a ha hid
    exact ⟨id', mem_fieldsAll.mpr ⟨a, ha, hid'⟩, t, hf⟩
  induction s using Scalar.induction with
  | field id' t => exact ⟨id', List.mem_cons_self, t, h⟩
  | value v t => exact absurd h List.not_mem_nil
  | coalesce args t ih => exact hargs ih h
  | fnCall fn args t ih => exact hargs ih h
  | cached s t ih => exact ih h

section Eval

variable [Platform] {record record' : FieldId → Except Fault Value}

/-- **Substitution.** The new scalar has the value that the old one has of the values of the scalars
that have been put in. -/
theorem eval_mapFields {s : Scalar}
    (h : ∀ id ∈ s.fields, ∀ t, (f id t).eval record = record' id) :
    (s.mapFields f).eval record = s.eval record' := by
  have hargs : ∀ {args : List Scalar},
      (∀ a ∈ args, (∀ id ∈ a.fields, ∀ t, (f id t).eval record = record' id) →
        (a.mapFields f).eval record = a.eval record') →
      (∀ id ∈ fieldsAll args, ∀ t, (f id t).eval record = record' id) →
      List.Forall₂ (fun a' a => a'.eval record = a.eval record') (mapFieldsAll f args) args := by
    intro args ih h
    rw [mapFieldsAll_eq_map, List.forall₂_map_left_iff]
    refine List.forall₂_same.mpr fun a ha => ih a ha fun id hid => ?_
    exact h id (mem_fieldsAll.mpr ⟨a, ha, hid⟩)
  induction s using Scalar.induction with
  | field id t => exact h id List.mem_cons_self t
  | value v t => rfl
  | coalesce args t ih =>
      rw [mapFields, eval, eval]
      exact evalFirst_congr (hargs ih h)
  | fnCall fn args t ih =>
      rw [mapFields, eval, eval, evalAll_congr (hargs ih h)]
  | cached s t ih => exact ih h

end Eval

/-! ### Casts -/

mutual

/-- Every cast has its one argument. -/
def CastsUnary : Scalar → Prop
  | field _ _ | value _ _ => True
  | coalesce args _ => CastsUnaryAll args
  | fnCall (.cast _) args _ => args.length = 1 ∧ CastsUnaryAll args
  | fnCall _ args _ => CastsUnaryAll args
  | cached s _ => s.CastsUnary

def CastsUnaryAll : List Scalar → Prop
  | [] => True
  | a :: as => a.CastsUnary ∧ CastsUnaryAll as

end

theorem castsUnaryAll_iff {args : List Scalar} :
    CastsUnaryAll args ↔ ∀ a ∈ args, a.CastsUnary := by
  induction args with
  | nil => simp [CastsUnaryAll]
  | cons a as ih => simp [CastsUnaryAll, ih]

theorem castsUnary_fnCall {fn : Function} {args : List Scalar} {t : ValueType} :
    (fnCall fn args t).CastsUnary ↔
      (∀ castTo, fn = .cast castTo → args.length = 1) ∧ ∀ a ∈ args, a.CastsUnary := by
  rw [← castsUnaryAll_iff]
  cases fn <;> simp [CastsUnary]

theorem CastsUnary.mapFields {s : Scalar} (h : s.CastsUnary)
    (hf : ∀ id ∈ s.fields, ∀ t, (f id t).CastsUnary) : (s.mapFields f).CastsUnary := by
  have hargs : ∀ {args : List Scalar},
      (∀ a ∈ args, a.CastsUnary → (∀ id ∈ a.fields, ∀ t, (f id t).CastsUnary) →
        (a.mapFields f).CastsUnary) →
      (∀ a ∈ args, a.CastsUnary) → (∀ id ∈ fieldsAll args, ∀ t, (f id t).CastsUnary) →
      ∀ a ∈ mapFieldsAll f args, a.CastsUnary := by
    intro args ih h hf a' ha'
    rw [mapFieldsAll_eq_map] at ha'
    obtain ⟨a, ha, rfl⟩ := List.mem_map.mp ha'
    exact ih a ha (h a ha) fun id hid => hf id (mem_fieldsAll.mpr ⟨a, ha, hid⟩)
  induction s using Scalar.induction with
  | field id t => exact hf id List.mem_cons_self t
  | value v t => trivial
  | coalesce args t ih =>
      exact castsUnaryAll_iff.mpr (hargs ih (castsUnaryAll_iff.mp h) hf)
  | fnCall fn args t ih =>
      obtain ⟨hcast, hunary⟩ := castsUnary_fnCall.mp h
      refine castsUnary_fnCall.mpr ⟨fun castTo hfn => ?_, hargs ih hunary hf⟩
      rw [mapFieldsAll_eq_map, List.length_map]
      exact hcast castTo hfn
  | cached s t ih => exact ih h hf

end Lsql.Ir.Scalar
