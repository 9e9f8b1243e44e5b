import Lsql.Core.ValueOrder

/-!
# Lsql.Core.ValueHash

Equality of values and the hashes that go with it (`Value::operator==`, `Value::hash`).

The two representations of a string are equal when their bytes are, both zeros are equal, and a NaN
is equal to nothing. `Value::hash` mixes the hash of the alternative with its index, with one index
for the two kinds of strings. An unordered container finds a key by its hash and its equality, so it
finds what `equal` alone would find: equal values, and equal vectors of values, have equal hashes.
-/

namespace Lsql

namespace Value

/-- The value with its string, if it holds one, as a `std::string`. -/
def owned : Value → Value
  | pinned s => string s.view
  | v => v

@[simp] theorem owned_pinned (s : PinnedString) : (pinned s).owned = string s.view := rfl

theorem owned_of_type_ne {v : Value} (h : v.type ≠ .string) : v.owned = v := by
  cases v <;> first | rfl | exact absurd rfl h

@[simp] theorem isNull_owned (v : Value) : v.owned.isNull = v.isNull := by
  cases v <;> rfl

/-- Equality does not see how a string is held. -/
theorem equal_owned_left (v w : Value) : v.owned.equal w = v.equal w := by
  cases v <;> cases w <;> rfl

theorem equal_owned_right (v w : Value) : v.equal w.owned = v.equal w := by
  cases v <;> cases w <;> rfl

theorem equal_symm (v w : Value) : v.equal w = w.equal v := by
  have hnum : ∀ x y : Int, (some (Ord.compare x y) == some Ordering.eq) =
      (some (Ord.compare y x) == some Ordering.eq) := by
    intro x y
    rw [Std.OrientedOrd.eq_swap (a := x) (b := y)]
    cases Ord.compare y x <;> rfl
  cases v <;> cases w <;> simp only [equal, Float32Bits.compare]
  case floating.floating x y =>
    by_cases hx : x.isNaN = true <;> by_cases hy : y.isNaN = true <;> simp [hx, hy]
    simpa using hnum x.rank y.rank
  all_goals exact Bool.beq_comm

/-- Two floats are equal if neither is a NaN and their ranks are the same. -/
theorem floating_equal {x y : Float32Bits} :
    x.compare y = some .eq ↔ x.isNaN = false ∧ y.isNaN = false ∧ x.rank = y.rank := by
  unfold Float32Bits.compare
  cases x.isNaN <;> cases y.isNaN <;> simp

/-- Equality: of the numbers for floats, of the value with an owned string for all others. -/
theorem equal_iff {v w : Value} : v.equal w = true ↔
    (∃ x y, v = floating x ∧ w = floating y ∧ x.compare y = some .eq) ∨
      v.type ≠ .floating ∧ v.owned = w.owned := by
  cases v <;> cases w <;> simp [equal, owned]

theorem equal_trans {u v w : Value} (huv : u.equal v = true) (hvw : v.equal w = true) :
    u.equal w = true := by
  rcases equal_iff.mp huv with ⟨x, y, rfl, rfl, hxy⟩ | ⟨hu, huv⟩
  · rcases equal_iff.mp hvw with ⟨y', z, hy, rfl, hyz⟩ | ⟨hv, -⟩
    · cases hy
      obtain ⟨hx, -, hxy⟩ := floating_equal.mp hxy
      obtain ⟨-, hz, hyz⟩ := floating_equal.mp hyz
      exact equal_iff.mpr (.inl ⟨x, z, rfl, rfl, floating_equal.mpr ⟨hx, hz, hxy.trans hyz⟩⟩)
    · exact absurd rfl hv
  · rcases equal_iff.mp hvw with ⟨y, z, rfl, -, -⟩ | ⟨-, hvw⟩
    · cases u <;> first | exact absurd rfl hu | cases huv
    · exact equal_iff.mpr (.inr ⟨hu, huv.trans hvw⟩)

/-- A value is equal to itself unless it is a NaN. -/
theorem equal_self {v : Value} : v.equal v = true ↔ v.isNaN = false := by
  cases v with
  | floating x =>
      show (x.compare x == some Ordering.eq) = true ↔ x.isNaN = false
      rw [beq_iff_eq, floating_equal]
      exact ⟨fun h => h.1, fun h => ⟨h, h, rfl⟩⟩
  | _ => simp [equal, isNaN]

end Value

/-! ### Hashes -/

/-- The specialisations of `std::hash`. The standard requires of the one for `float` that equal numbers
have equal hashes. -/
class StdHash where
  int64 : Int64 → BitVec 64
  float : Float32Bits → BitVec 64
  boolean : Bool → BitVec 64
  view : Bytes → BitVec 64
  size : BitVec 64 → BitVec 64
  float_congr : ∀ x y : Float32Bits, x.compare y = some .eq → float x = float y

section Hash

variable [StdHash]

/-- `a ^= b + 0x9e3779b9 + (a << 6) + (a >> 2)`. -/
def mixHash (a b : BitVec 64) : BitVec 64 := a ^^^ (b + 0x9e3779b9 + (a <<< 6) + (a >>> 2))

namespace Value

/-- `std::hash` of the alternative that is held. -/
def alternativeHash : Value → BitVec 64
  | null => 0x9e3779b9
  | integer x => StdHash.int64 x
  | floating x => StdHash.float x
  | boolean x => StdHash.boolean x
  | string s => StdHash.view s
  | pinned s => StdHash.view s.view

/-- `Value::hash`. -/
def hash (v : Value) : BitVec 64 :=
  mixHash v.alternativeHash (StdHash.size (BitVec.ofNat 64 (min v.index 4)))

/-- The hash does not see how a string is held. -/
theorem hash_owned (v : Value) : v.owned.hash = v.hash := by
  cases v <;> rfl

/-- Equal values have equal hashes. -/
theorem hash_eq_of_equal {v w : Value} (h : v.equal w = true) : v.hash = w.hash := by
  rcases equal_iff.mp h with ⟨x, y, rfl, rfl, hxy⟩ | ⟨-, howned⟩
  · rw [hash, hash, alternativeHash, alternativeHash, StdHash.float_congr x y hxy]
    rfl
  · rw [← hash_owned v, howned, hash_owned]

end Value

/-- `std::hash<std::vector<Value>>`: the size, then the hashes of the values mixed in. -/
def hashKeys (key : List Value) : BitVec 64 :=
  mixAll (BitVec.ofNat 64 key.length) key
where
  mixAll (seed : BitVec 64) : List Value → BitVec 64
    | [] => seed
    | v :: vs => mixAll (mixHash seed v.hash) vs

end Hash

end Lsql
