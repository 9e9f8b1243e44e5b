import Lsql.Core.Value

/-!
# Lsql.Core.ValueOrder

The order of values.

`Value::operator<=>` yields a partial ordering because of floats: a NaN is unordered with every
float, itself included. On all other values it is the total order `Value.order`, by class, then by
number, then by bytes; the two representations of a string form one class. Vectors of values
without a NaN are ordered lexicographically.
-/

namespace Lsql

namespace Value

/-- The class of a value; both kinds of strings are one class. -/
def cls : Value → Nat
  | null => 0
  | integer _ => 1
  | floating _ => 2
  | boolean _ => 3
  | string _ => 4
  | pinned _ => 4

/-- The number that orders a value within its class. -/
def num : Value → Int
  | integer x => x.toInt
  | floating x => x.rank
  | boolean x => if x then 1 else 0
  | _ => 0

/-- The bytes that order a string. -/
def bytes : Value → Bytes
  | string s => s
  | pinned s => s.view
  | _ => []

/-- The total order of values. -/
def order : Value → Value → Ordering :=
  compareLex (compareOn cls) (compareLex (compareOn num) (compareOn bytes))

instance : Std.TransCmp order :=
  inferInstanceAs (Std.TransCmp (compareLex _ (compareLex _ _)))

/-- A NaN. -/
def isNaN : Value → Bool
  | floating x => x.isNaN
  | _ => false

/-- Values of different classes are ordered by their class. -/
theorem order_of_cls_ne {a b : Value} (h : a.cls ≠ b.cls) :
    order a b = Ord.compare a.cls b.cls := by
  have hne : Ord.compare a.cls b.cls ≠ .eq := by simpa [Std.LawfulEqOrd.compare_eq_iff_eq] using h
  cases hc : Ord.compare a.cls b.cls with
  | eq => exact absurd hc hne
  | lt => simp [order, compareLex, compareOn, hc]
  | gt => simp [order, compareLex, compareOn, hc]

theorem compare_bool_eq (x y : Bool) :
    Ord.compare x y = Ord.compare (if x then (1 : Int) else 0) (if y then 1 else 0) := by
  cases x <;> cases y <;> rfl

/-- Without a NaN, `<=>` is the total order. -/
theorem compare_eq_order {a b : Value} (ha : a.isNaN = false) (hb : b.isNaN = false) :
    a.compare b = some (order a b) := by
  by_cases h : a.cls = b.cls
  · cases a <;> cases b <;> simp_all [compare, Float32Bits.compare, order, compareLex, compareOn,
      cls, num, bytes, isNaN, compare_bool_eq]
  · rw [order_of_cls_ne h]
    cases a <;> cases b <;> first | rfl | exact absurd rfl h

/-- A value is equivalent to itself unless it is a NaN. -/
theorem compare_self {a : Value} : a.compare a = some .eq ↔ a.isNaN = false := by
  cases hn : a.isNaN with
  | false => simp [compare_eq_order hn hn, Std.ReflCmp.compare_self]
  | true =>
      cases a with
      | floating x =>
          have hx : x.isNaN = true := hn
          simp [compare, Float32Bits.compare, hx]
      | _ => cases hn

theorem compare_self_or (a : Value) : a.compare a = some .eq ∨ a.compare a = none := by
  cases hn : a.isNaN with
  | false => exact .inl (compare_self.mpr hn)
  | true =>
      cases a with
      | floating x =>
          have hx : x.isNaN = true := hn
          simp [compare, Float32Bits.compare, hx]
      | _ => cases hn

end Value

/-! ### Vectors of values -/

/-- No value of the vector is a NaN. -/
def Comparable (key : List Value) : Prop := ∀ v ∈ key, v.isNaN = false

/-- The total order of vectors: lexicographic. -/
def keyOrder : List Value → List Value → Ordering := List.compareLex Value.order

instance : Std.TransCmp keyOrder := inferInstanceAs (Std.TransCmp (List.compareLex Value.order))

theorem keyOrder_swap (as bs : List Value) : keyOrder bs as = (keyOrder as bs).swap :=
  Std.OrientedCmp.eq_swap

/-- Without a NaN, `<=>` on vectors is lexicographic. -/
theorem compareKeys_eq_order {as bs : List Value} (ha : Comparable as) (hb : Comparable bs) :
    compareKeys as bs = some (keyOrder as bs) := by
  unfold keyOrder
  induction as generalizing bs with
  | nil => cases bs <;> simp [compareKeys, List.compareLex_nil_nil, List.compareLex_nil_cons]
  | cons a as ih =>
      cases bs with
      | nil => simp [compareKeys, List.compareLex_cons_nil]
      | cons b bs =>
          have ih : compareKeys as bs = some (List.compareLex Value.order as bs) :=
            ih (fun v hv => ha v (by simp [hv])) fun v hv => hb v (by simp [hv])
          rw [compareKeys, Value.compare_eq_order (ha a (by simp)) (hb b (by simp)),
            List.compareLex_cons_cons]
          cases Value.order a b <;> simp [ih]

/-- A vector is equivalent to itself unless it holds a NaN. -/
theorem compareKeys_self {as : List Value} : compareKeys as as = some .eq ↔ Comparable as := by
  induction as with
  | nil => simp [compareKeys, Comparable]
  | cons a as ih =>
      have hcons : Comparable (a :: as) ↔ a.isNaN = false ∧ Comparable as := by
        simp [Comparable]
      rw [hcons, ← ih, ← Value.compare_self, compareKeys]
      split
      next h => simp [h]
      next h =>
        constructor
        · intro he
          exact absurd he h
        · exact fun he => absurd he.1 h

theorem compareKeys_self_or (as : List Value) :
    compareKeys as as = some .eq ∨ compareKeys as as = none := by
  induction as with
  | nil => exact .inl rfl
  | cons a as ih =>
      rw [compareKeys]
      rcases a.compare_self_or with h | h <;> rw [h]
      · exact ih
      · exact .inr rfl

end Lsql
