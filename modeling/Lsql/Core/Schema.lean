import Mathlib.Data.List.Nodup
import Mathlib.Data.List.Perm.Basic
import Lsql.Core.Value

/-!
# Lsql.Core.Schema

Field identifiers, field sets, schemas and the binding of names to fields (`core/schema`).

A `FieldSet` is a hash set. The model keeps its elements in the order in which they were inserted;
the order in which the set is iterated is some function of that history, given by an instance of
`HashOrder` of which only that it is a permutation is known. Sets are compared as sets, never by
their histories. A `Schema` is a sequence of distinct fields, one for each slot.
-/

namespace Lsql

/-- `FieldId`. -/
abbrev FieldId := Nat

/-- `UnknownFieldId`. -/
def unknownFieldId : FieldId := 0

/-- The iteration order of a `std::unordered_set<FieldId>`, from the order of insertion. -/
class HashOrder where
  order : List FieldId → List FieldId
  perm : ∀ l, (order l).Perm l

/-- A set that is iterated in the order of insertion. -/
@[reducible] def HashOrder.insertion : HashOrder := ⟨id, List.Perm.refl⟩

/-- A set that is iterated against the order of insertion. -/
@[reducible] def HashOrder.backwards : HashOrder := ⟨List.reverse, List.reverse_perm⟩

/-! ### Field sets -/

/-- `FieldSet`. -/
structure FieldSet where
  history : List FieldId
  nodup : history.Nodup

namespace FieldSet

instance : Membership FieldId FieldSet := ⟨fun s id => id ∈ s.history⟩

theorem mem_def {s : FieldSet} {id : FieldId} : id ∈ s ↔ id ∈ s.history := Iff.rfl

instance (id : FieldId) (s : FieldSet) : Decidable (id ∈ s) :=
  inferInstanceAs (Decidable (id ∈ s.history))

/-- `contains`. -/
def contains (s : FieldSet) (id : FieldId) : Bool := decide (id ∈ s)

@[simp] theorem contains_iff {s : FieldSet} {id : FieldId} : s.contains id = true ↔ id ∈ s := by
  simp [contains]

/-- `empty`. -/
def isEmpty (s : FieldSet) : Bool := s.history.isEmpty

/-- `size`. -/
def size (s : FieldSet) : Nat := s.history.length

/-- `emptySet`. -/
def emptySet : FieldSet := ⟨[], List.nodup_nil⟩

@[simp] theorem not_mem_emptySet (id : FieldId) : ¬ id ∈ emptySet := by
  simp [emptySet, mem_def]

/-- `withField`. -/
def withField (id : FieldId) : FieldSet := ⟨[id], List.nodup_singleton id⟩

@[simp] theorem mem_withField {id x : FieldId} : x ∈ withField id ↔ x = id := by
  simp [withField, mem_def]

/-- `add`. -/
def add (s : FieldSet) (id : FieldId) : FieldSet :=
  if h : id ∈ s.history then s
  else ⟨s.history ++ [id], s.nodup.append (List.nodup_singleton id) (by simpa using h)⟩

@[simp] theorem mem_add {s : FieldSet} {id x : FieldId} : x ∈ s.add id ↔ x ∈ s ∨ x = id := by
  unfold add
  split
  next h => exact ⟨.inl, fun hx => hx.elim (fun hx => hx) fun hx => hx ▸ h⟩
  · simp [mem_def]

/-- `remove`. -/
def remove (s : FieldSet) (id : FieldId) : FieldSet :=
  ⟨s.history.erase id, s.nodup.erase id⟩

@[simp] theorem mem_remove {s : FieldSet} {id x : FieldId} :
    x ∈ s.remove id ↔ x ∈ s ∧ x ≠ id := by
  rw [mem_def, remove, s.nodup.mem_erase_iff, mem_def]
  exact and_comm

/-- Inserting elements one after another. -/
def addAll (s : FieldSet) : List FieldId → FieldSet
  | [] => s
  | id :: ids => (s.add id).addAll ids

@[simp] theorem mem_addAll {s : FieldSet} {ids : List FieldId} {x : FieldId} :
    x ∈ s.addAll ids ↔ x ∈ s ∨ x ∈ ids := by
  induction ids generalizing s with
  | nil => simp [addAll]
  | cons id ids ih => simp [addAll, ih, or_assoc]

/-- `==`. -/
def equal (a b : FieldSet) : Bool :=
  a.size == b.size && a.history.all fun id => b.contains id

theorem equal_iff {a b : FieldSet} : a.equal b = true ↔ ∀ id, id ∈ a ↔ id ∈ b := by
  have hall : (a.history.all fun id => b.contains id) = true ↔ a.history ⊆ b.history := by
    simp [List.all_eq_true, List.subset_def, mem_def]
  unfold equal size
  rw [Bool.and_eq_true, beq_iff_eq, hall]
  constructor
  · rintro ⟨hlen, hsub⟩ id
    exact ((List.subperm_of_subset a.nodup hsub).perm_of_length_le (Nat.le_of_eq hlen.symm)).mem_iff
  · intro h
    have hperm := (List.perm_ext_iff_of_nodup a.nodup b.nodup).mpr h
    exact ⟨hperm.length_eq, hperm.subset⟩

variable [HashOrder]

/-- `fieldIds`, in iteration order. -/
def fieldIds (s : FieldSet) : List FieldId := HashOrder.order s.history

theorem fieldIds_perm (s : FieldSet) : s.fieldIds.Perm s.history := HashOrder.perm s.history

@[simp] theorem mem_fieldIds {s : FieldSet} {id : FieldId} : id ∈ s.fieldIds ↔ id ∈ s :=
  s.fieldIds_perm.mem_iff

theorem nodup_fieldIds (s : FieldSet) : s.fieldIds.Nodup := s.fieldIds_perm.nodup_iff.mpr s.nodup

/-- `merge`. -/
def merge (s other : FieldSet) : FieldSet := s.addAll other.fieldIds

@[simp] theorem mem_merge {s other : FieldSet} {x : FieldId} :
    x ∈ s.merge other ↔ x ∈ s ∨ x ∈ other := by
  simp [merge]

end FieldSet

/-- `intersection`. -/
def FieldSet.intersection (a b : FieldSet) : FieldSet :=
  ⟨a.history.filter fun id => b.contains id, a.nodup.filter _⟩

@[simp] theorem FieldSet.mem_intersection {a b : FieldSet} {x : FieldId} :
    x ∈ a.intersection b ↔ x ∈ a ∧ x ∈ b := by
  simp [intersection, mem_def, contains]

/-! ### Schemas -/

/-- `Schema`: the field in each slot. -/
structure Schema where
  fields : List FieldId
  nodup : fields.Nodup
  deriving DecidableEq

namespace Schema

@[ext] theorem ext {a b : Schema} (h : a.fields = b.fields) : a = b := by
  cases a
  cases b
  simpa using h

/-- `Schema()`. -/
def empty : Schema := ⟨[], List.nodup_nil⟩

/-- `contains(id)`. -/
def contains (s : Schema) (id : FieldId) : Bool := decide (id ∈ s.fields)

/-- `contains(fields)`. -/
def containsAll (s : Schema) (fields : FieldSet) : Bool := fields.history.all s.contains

/-- `slot`. -/
def slot (s : Schema) (id : FieldId) : Option Nat := s.fields.idxOf? id

theorem slot_eq_some {s : Schema} {id : FieldId} {i : Nat} :
    s.slot id = some i ↔ s.fields[i]? = some id := by
  rw [slot, List.idxOf?_eq_some_iff, List.getElem?_eq_some_iff]
  constructor
  · intro h
    obtain ⟨hi, hid, -⟩ := h
    exact ⟨hi, hid⟩
  · intro h
    obtain ⟨hi, hid⟩ := h
    refine ⟨hi, hid, fun j hj he => Nat.ne_of_lt hj ?_⟩
    exact (List.Nodup.getElem_inj_iff s.nodup).mp (he.trans hid.symm)

/-- `columns`. -/
def columns (s : Schema) : Nat := s.fields.length

/-- `append`. -/
def append (s : Schema) (id : FieldId) : Except Fault Schema :=
  if h : id ∈ s.fields then .error (.panic "duplicate field id")
  else .ok ⟨s.fields ++ [id], s.nodup.append (List.nodup_singleton id) (by simpa using h)⟩

/-- Appending fields one after another. -/
def appendAll (s : Schema) : List FieldId → Except Fault Schema
  | [] => .ok s
  | id :: ids => do
    let s ← s.append id
    s.appendAll ids

theorem append_eq_ok {s s' : Schema} {id : FieldId} :
    s.append id = .ok s' ↔ id ∉ s.fields ∧ s'.fields = s.fields ++ [id] := by
  unfold append
  split
  next h => simp [h]
  next h =>
    simp only [Except.ok.injEq, h, not_false_eq_true, true_and]
    exact ⟨fun he => he ▸ rfl, fun he => Schema.ext he.symm⟩

/-- `appendAll` succeeds on fields that are distinct and new, and on nothing else. -/
theorem appendAll_eq_ok {s s' : Schema} {ids : List FieldId} :
    s.appendAll ids = .ok s' ↔ s'.fields = s.fields ++ ids := by
  induction ids generalizing s with
  | nil => simp [appendAll, Schema.ext_iff, eq_comm]
  | cons id ids ih =>
      simp only [appendAll]
      cases happ : s.append id with
      | error e =>
          have hmem : id ∈ s.fields := by
            by_contra hid
            simp [append, hid] at happ
          constructor
          · intro h
            cases h
          · intro h
            have hnd := s'.nodup
            rw [h] at hnd
            exact absurd rfl ((List.nodup_append.mp hnd).2.2 id hmem id (by simp))
      | ok s₁ =>
          have h₁ := (append_eq_ok.mp happ).2
          change s₁.appendAll ids = .ok s' ↔ _
          rw [ih, h₁]
          simp

/-- Fields that can be appended one after another. -/
theorem appendAll_ok_iff {s : Schema} {ids : List FieldId} :
    (∃ s', s.appendAll ids = .ok s') ↔ (s.fields ++ ids).Nodup := by
  constructor
  · rintro ⟨s', h⟩
    exact appendAll_eq_ok.mp h ▸ s'.nodup
  · intro h
    exact ⟨⟨s.fields ++ ids, h⟩, appendAll_eq_ok.mpr rfl⟩

/-- `concat`. -/
def concat (a b : Schema) : Except Fault Schema := a.appendAll b.fields

/-- `withField`. -/
def withField (id : FieldId) : Schema := ⟨[id], List.nodup_singleton id⟩

/-- `fieldSet`. -/
def fieldSet (s : Schema) : FieldSet := ⟨s.fields, s.nodup⟩

@[simp] theorem mem_fieldSet {s : Schema} {id : FieldId} : id ∈ s.fieldSet ↔ id ∈ s.fields := Iff.rfl

/-- `fromFieldSet`: one slot for each field, in iteration order. -/
def fromFieldSet [HashOrder] (set : FieldSet) : Schema := ⟨set.fieldIds, set.nodup_fieldIds⟩

/-- Appending the fields of a set to the empty schema, as the source does. -/
theorem appendAll_fieldIds [HashOrder] (set : FieldSet) :
    empty.appendAll set.fieldIds = .ok (fromFieldSet set) := by
  rw [appendAll_eq_ok]
  rfl

end Schema

/-! ### Names and types of fields -/

/-- `FieldBinding`: the name and the type of the fields `1`, `2`, ... -/
structure FieldBinding where
  entries : List (String × ValueType)
  deriving DecidableEq

namespace FieldBinding

/-- `FieldBinding()`. -/
def empty : FieldBinding := ⟨[]⟩

/-- `next_id_`. -/
def nextId (b : FieldBinding) : FieldId := b.entries.length + 1

/-- The entry of a field. -/
def entry (b : FieldBinding) (id : FieldId) : Option (String × ValueType) :=
  if id = unknownFieldId then none else b.entries[id - 1]?

/-- `name`. -/
def name (b : FieldBinding) (id : FieldId) : Except Fault String :=
  match b.entry id with
  | some e => .ok e.1
  | none => .error (.panic "verify(it != names_.end()) failed ")

/-- `type`. -/
def type (b : FieldBinding) (id : FieldId) : Except Fault ValueType :=
  match b.entry id with
  | some e => .ok e.2
  | none => .error (.panic "verify(it != types_.end()) failed ")

/-- `hasField`. -/
def hasField (b : FieldBinding) (name : String) (type : ValueType) : Bool :=
  b.entries.contains (name, type)

/-- `id`. -/
def id (b : FieldBinding) (name : String) (type : ValueType) : FieldId :=
  match b.entries.idxOf? (name, type) with
  | some i => i + 1
  | none => unknownFieldId

/-- `add`. -/
def add (b : FieldBinding) (name : String) (type : ValueType) :
    Except Fault (FieldId × FieldBinding) := do
  verify (!b.hasField name type) "verify(!hasField(name, type)) failed "
  pure (b.nextId, ⟨b.entries ++ [(name, type)]⟩)

/-- `getOrAdd`. -/
def getOrAdd (b : FieldBinding) (name : String) (type : ValueType) : FieldId × FieldBinding :=
  if b.hasField name type then (b.id name type, b)
  else (b.nextId, ⟨b.entries ++ [(name, type)]⟩)

/-- `addAnonymous`: the name is the prefix and the identifier that the field will have. -/
def addAnonymous (b : FieldBinding) (pre : String) (type : ValueType) :
    Except Fault (FieldId × FieldBinding) :=
  b.add (pre ++ "_" ++ toString b.nextId) type

end FieldBinding

end Lsql
