import Lsql.Phys.Grouping

/-!
# Lsql.Phys.KeyLaws

The laws of the comparison, the equality and the hash of values, and of the vectors of values that
groups, joins and sorts have for keys.
-/

namespace Lsql.Phys

/-- What an ordered and an unordered container rely on. The elements with `P` are those that can be
compared; elements that are the `Same` can stand for each other. -/
structure ComparisonLaws {α : Type} (P : α → Prop) (Same : α → α → Prop)
    (compare : α → α → Option Ordering) (equal : α → α → Bool) (hash : α → BitVec 64) : Prop where
  total : ∀ {a b}, P a → P b → ∃ o, compare a b = some o
  swap : ∀ {a b}, P a → P b → compare b a = (compare a b).map Ordering.swap
  trans : ∀ {a b c}, P a → P b → P c → compare a b ≠ some .gt → compare b c ≠ some .gt →
    compare a c ≠ some .gt
  eq_iff : ∀ {a b}, P a → P b → (compare a b = some .eq ↔ equal a b = true)
  hash_eq : ∀ {a b}, equal a b = true → hash a = hash b
  same_compare : ∀ {a a'}, Same a a' → ∀ b, compare a b = compare a' b ∧ compare b a = compare b a'
  same_equal : ∀ {a a'}, Same a a' → ∀ b, equal a b = equal a' b ∧ equal b a = equal b a'
  same_hash : ∀ {a a'}, Same a a' → hash a = hash a'

theorem ne_gt_trans {α : Type} {cmp : α → α → Ordering} [Std.TransCmp cmp] {a b c : α}
    (hab : cmp a b ≠ .gt) (hbc : cmp b c ≠ .gt) : cmp a c ≠ .gt :=
  Ordering.isLE_iff_ne_gt.mp (Std.TransCmp.isLE_trans (Ordering.isLE_iff_ne_gt.mpr hab)
    (Ordering.isLE_iff_ne_gt.mpr hbc))

/-! ### Values -/

/-- The same value, whatever holds its string. -/
def SameValue (v w : Value) : Prop := v.owned = w.owned

theorem compare_owned_left (v w : Value) : v.owned.compare w = v.compare w := by
  cases v <;> cases w <;> rfl

theorem compare_owned_right (v w : Value) : v.compare w.owned = v.compare w := by
  cases v <;> cases w <;> rfl

/-- Equivalent values are equal, also with the strings held in two ways. -/
theorem compare_eq_iff_equal (v w : Value) : v.compare w = some .eq ↔ v.equal w = true := by
  cases v with
  | integer x =>
      cases w with
      | integer y => simp [Value.compare, Value.equal, Int64.toInt_inj]
      | _ => simp [Value.compare, Value.equal, Value.index]
  | floating x =>
      cases w with
      | floating y => exact beq_iff_eq.symm
      | _ => simp [Value.compare, Value.equal, Value.index]
  | boolean x =>
      cases w with
      | boolean y => simp [Value.compare, Value.equal]
      | _ => simp [Value.compare, Value.equal, Value.index]
  | null => cases w <;> simp [Value.compare, Value.equal, Value.index]
  | string s =>
      cases w with
      | string t => simp [Value.compare, Value.equal]
      | pinned t => simp [Value.compare, Value.equal]
      | _ => simp [Value.compare, Value.equal, Value.index]
  | pinned s =>
      cases w with
      | string t => simp [Value.compare, Value.equal]
      | pinned t => simp [Value.compare, Value.equal]
      | _ => simp [Value.compare, Value.equal, Value.index]

theorem sameValue_compare {v v' : Value} (h : SameValue v v') (w : Value) :
    v.compare w = v'.compare w ∧ w.compare v = w.compare v' := by
  rw [← compare_owned_left v, h, compare_owned_left, ← compare_owned_right w v, h,
    compare_owned_right]
  exact ⟨rfl, rfl⟩

theorem sameValue_equal {v v' : Value} (h : SameValue v v') (w : Value) :
    v.equal w = v'.equal w ∧ w.equal v = w.equal v' := by
  rw [← Value.equal_owned_left v, h, Value.equal_owned_left, ← Value.equal_owned_right w v, h,
    Value.equal_owned_right]
  exact ⟨rfl, rfl⟩

theorem sameValue_hash [StdHash] {v v' : Value} (h : SameValue v v') : v.hash = v'.hash := by
  rw [← Value.hash_owned v, h, Value.hash_owned]

theorem comparisonLaws_value [StdHash] :
    ComparisonLaws (fun v => v.isNaN = false) SameValue Value.compare Value.equal Value.hash where
  total ha hb := ⟨_, Value.compare_eq_order ha hb⟩
  swap {a b} ha hb := by
    have hswap : Value.order b a = (Value.order a b).swap := Std.OrientedCmp.eq_swap
    rw [Value.compare_eq_order ha hb, Value.compare_eq_order hb ha, hswap]
    rfl
  trans {a b c} ha hb hc hab hbc := by
    rw [Value.compare_eq_order ha hb] at hab
    rw [Value.compare_eq_order hb hc] at hbc
    rw [Value.compare_eq_order ha hc]
    exact fun h => ne_gt_trans (fun h => hab (congrArg some h)) (fun h => hbc (congrArg some h))
      (Option.some.inj h)
  eq_iff _ _ := compare_eq_iff_equal _ _
  hash_eq := Value.hash_eq_of_equal
  same_compare := sameValue_compare
  same_equal := sameValue_equal
  same_hash := sameValue_hash

/-! ### Keys -/

/-- Vectors of the same values. -/
def SameKey (as bs : List Value) : Prop := List.Forall₂ SameValue as bs

theorem compareKeys_eq_iff_equal (as bs : List Value) :
    compareKeys as bs = some .eq ↔ equalKeys as bs = true := by
  induction as generalizing bs with
  | nil => cases bs <;> simp [compareKeys, equalKeys]
  | cons a as ih =>
      cases bs with
      | nil => simp [compareKeys, equalKeys]
      | cons b bs =>
          rw [equalKeys, Bool.and_eq_true, ← compare_eq_iff_equal, ← ih, compareKeys]
          split
          next heq => rw [heq, and_iff_right rfl]
          next hne => exact iff_of_false (fun h => hne h) (fun h => hne h.1)

theorem sameKey_compare {as as' : List Value} (h : SameKey as as') (bs : List Value) :
    compareKeys as bs = compareKeys as' bs ∧ compareKeys bs as = compareKeys bs as' := by
  induction h generalizing bs with
  | nil => exact ⟨rfl, rfl⟩
  | cons hv _ ih =>
      cases bs with
      | nil => exact ⟨rfl, rfl⟩
      | cons b bs =>
          obtain ⟨hleft, hright⟩ := sameValue_compare hv b
          rw [compareKeys, compareKeys, compareKeys, compareKeys, hleft, hright, (ih bs).1,
            (ih bs).2]
          exact ⟨rfl, rfl⟩

theorem sameKey_equal {as as' : List Value} (h : SameKey as as') (bs : List Value) :
    equalKeys as bs = equalKeys as' bs ∧ equalKeys bs as = equalKeys bs as' := by
  induction h generalizing bs with
  | nil => exact ⟨rfl, rfl⟩
  | cons hv _ ih =>
      cases bs with
      | nil => exact ⟨rfl, rfl⟩
      | cons b bs =>
          obtain ⟨hleft, hright⟩ := sameValue_equal hv b
          rw [equalKeys, equalKeys, equalKeys, equalKeys, hleft, hright, (ih bs).1, (ih bs).2]
          exact ⟨rfl, rfl⟩

theorem sameKey_hash [StdHash] {as as' : List Value} (h : SameKey as as') :
    hashKeys as = hashKeys as' := by
  have hmix : ∀ seed, hashKeys.mixAll seed as = hashKeys.mixAll seed as' := by
    induction h with
    | nil => exact fun _ => rfl
    | cons hv _ ih =>
        intro seed
        rw [hashKeys.mixAll, hashKeys.mixAll, sameValue_hash hv, ih]
  rw [hashKeys, hashKeys, h.length_eq, hmix]

theorem comparisonLaws_key [StdHash] :
    ComparisonLaws Comparable SameKey compareKeys equalKeys hashKeys where
  total ha hb := ⟨_, compareKeys_eq_order ha hb⟩
  swap ha hb := by
    rw [compareKeys_eq_order ha hb, compareKeys_eq_order hb ha, keyOrder_swap]
    rfl
  trans ha hb hc hab hbc := by
    rw [compareKeys_eq_order ha hb] at hab
    rw [compareKeys_eq_order hb hc] at hbc
    rw [compareKeys_eq_order ha hc]
    exact fun h => ne_gt_trans (fun h => hab (congrArg some h)) (fun h => hbc (congrArg some h))
      (Option.some.inj h)
  eq_iff _ _ := compareKeys_eq_iff_equal _ _
  hash_eq := hashKeys_eq_of_equal
  same_compare := sameKey_compare
  same_equal := sameKey_equal
  same_hash := sameKey_hash

/-- **The laws of values and of keys.** -/
theorem value_key_laws [StdHash] :
    ComparisonLaws (fun v => v.isNaN = false) SameValue Value.compare Value.equal Value.hash ∧
      ComparisonLaws Comparable SameKey compareKeys equalKeys hashKeys :=
  ⟨comparisonLaws_value, comparisonLaws_key⟩

end Lsql.Phys
