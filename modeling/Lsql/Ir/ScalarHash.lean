import Lsql.Core.ValueHash
import Lsql.Ir.Relation

/-!
# Lsql.Ir.ScalarHash

Equality of aggregates and the hashes of scalars and aggregates (`ir/Scalars.cpp`,
`ir/Aggregates.cpp`, `util/equal.h`, `util/hash.h`).

`util::hash` walks the same fields as `util::equal`: a variant mixes its index with the hash of what
it holds, a struct mixes the hashes of its fields, a vector starts from its size. Equality is that of
`Value::operator==` on constants and that of numbers on percentiles, so two equal scalars need not be
the same scalar; their hashes are equal, and an unordered container finds what equality alone finds.
-/

namespace Lsql

/-- `std::hash` of what functions and scalars hold besides values. -/
class DescriptionHash extends StdHash where
  char : UInt8 → BitVec 64
  valueType : ValueType → BitVec 64
  timeFormat : TimeFormat → BitVec 64
  fieldId : FieldId → BitVec 64

/-- Hashes that tell nothing apart. -/
@[reducible] def DescriptionHash.constant : DescriptionHash where
  int64 _ := 0
  float _ := 0
  boolean _ := 0
  view _ := 0
  size _ := 0
  float_congr _ _ _ := rfl
  char _ := 0
  valueType _ := 0
  timeFormat _ := 0
  fieldId _ := 0

/-- Hashes mixed into a seed, one after another. -/
def mixHashes (seed : BitVec 64) (hashes : List (BitVec 64)) : BitVec 64 :=
  hashes.foldl mixHash seed

/-- `util::hash` of a vector. -/
def hashVector (hashes : List (BitVec 64)) : BitVec 64 :=
  mixHashes (BitVec.ofNat 64 hashes.length) hashes

/-- `util::hash` of a variant that holds a struct. -/
def hashVariant (index : Nat) (fields : List (BitVec 64)) : BitVec 64 :=
  mixHash (BitVec.ofNat 64 index) (mixHashes 0 fields)

/-! ### Functions -/

/-- `==` on vectors of floats. -/
def equalFloats : List Float32Bits → List Float32Bits → Bool
  | [], [] => true
  | x :: xs, y :: ys => x.compare y == some .eq && equalFloats xs ys
  | _, _ => false

namespace Function

/-- `==`: that of numbers on percentiles. -/
def same : Function → Function → Bool
  | percentile ps t, percentile qs u => equalFloats ps qs && t == u
  | f, g => f == g

/-- `index()`. -/
def index : Function → Nat
  | lower => 0
  | splitPart _ _ => 1
  | substr _ _ => 2
  | coalesce => 3
  | rSubstr _ => 4
  | like _ => 5
  | cast _ => 6
  | jsonValue _ => 7
  | parseTimestamp _ => 8
  | booleanNegate => 9
  | equal => 10
  | notEqual => 11
  | less _ => 12
  | greater _ => 13
  | lessEqual _ => 14
  | greaterEqual _ => 15
  | and => 16
  | or => 17
  | divide _ => 18
  | add _ => 19
  | subtract _ => 20
  | percentile _ _ => 21
  | countNonNull => 22
  | countAll => 23
  | min _ => 24
  | max _ => 25
  | sum _ => 26

variable [DescriptionHash]

/-- The hashes of the fields. -/
def fieldHashes : Function → List (BitVec 64)
  | splitPart separator i =>
    [DescriptionHash.char separator, StdHash.size (BitVec.ofNat 64 i)]
  | substr start length =>
    [StdHash.size (BitVec.ofNat 64 start), StdHash.size (BitVec.ofNat 64 length)]
  | rSubstr regex | like regex => [StdHash.view regex]
  | jsonValue path => [StdHash.view path]
  | parseTimestamp format => [DescriptionHash.timeFormat format]
  | cast t | less t | greater t | lessEqual t | greaterEqual t | divide t | add t | subtract t
  | min t | max t | sum t => [DescriptionHash.valueType t]
  | percentile ps t => [hashVector (ps.map StdHash.float), DescriptionHash.valueType t]
  | lower | coalesce | booleanNegate | equal | notEqual | and | or | countNonNull | countAll => []

/-- `util::hash`. -/
def hash (f : Function) : BitVec 64 := hashVariant f.index f.fieldHashes

omit [DescriptionHash] in
theorem equalFloats_symm (xs ys : List Float32Bits) : equalFloats xs ys = equalFloats ys xs := by
  induction xs generalizing ys with
  | nil => cases ys <;> rfl
  | cons x xs ih =>
      cases ys with
      | nil => rfl
      | cons y ys =>
          have hxy : (x.compare y == some .eq) = (y.compare x == some .eq) :=
            Value.equal_symm (.floating x) (.floating y)
          rw [equalFloats, equalFloats, ih, hxy]

omit [DescriptionHash] in
theorem equalFloats_trans {xs ys zs : List Float32Bits} (hxy : equalFloats xs ys = true)
    (hyz : equalFloats ys zs = true) : equalFloats xs zs = true := by
  induction xs generalizing ys zs with
  | nil =>
      cases ys with
      | nil => exact hyz
      | cons y ys => cases hxy
  | cons x xs ih =>
      cases ys with
      | nil => cases hxy
      | cons y ys =>
          cases zs with
          | nil => cases hyz
          | cons z zs =>
              simp only [equalFloats, Bool.and_eq_true] at hxy hyz ⊢
              have hxz : (Value.floating x).equal (.floating z) = true :=
                Value.equal_trans (v := .floating y) hxy.1 hyz.1
              exact ⟨hxz, ih hxy.2 hyz.2⟩

omit [DescriptionHash] in
theorem same_symm (f g : Function) : f.same g = g.same f := by
  cases f <;> cases g
  case percentile.percentile ps t qs u =>
    rw [same, same, equalFloats_symm, Bool.beq_comm (a := t)]
  all_goals exact Bool.beq_comm

omit [DescriptionHash] in
theorem same_trans {f g h : Function} (hfg : f.same g = true) (hgh : g.same h = true) :
    f.same h = true := by
  unfold same at hfg
  split at hfg
  next ps t qs u =>
    cases h
    case percentile rs v =>
      simp only [same, Bool.and_eq_true, beq_iff_eq] at hfg hgh ⊢
      exact ⟨equalFloats_trans hfg.1 hgh.1, hfg.2.trans hgh.2⟩
    all_goals cases hgh
  next =>
    rw [beq_iff_eq.mp hfg]
    exact hgh

theorem floatHashes_eq {xs ys : List Float32Bits} (h : equalFloats xs ys = true) :
    xs.map StdHash.float = ys.map StdHash.float := by
  induction xs generalizing ys with
  | nil =>
      cases ys with
      | nil => rfl
      | cons y ys => cases h
  | cons x xs ih =>
      cases ys with
      | nil => cases h
      | cons y ys =>
          rw [equalFloats, Bool.and_eq_true, beq_iff_eq] at h
          rw [List.map_cons, List.map_cons, StdHash.float_congr x y h.1, ih h.2]

theorem hash_eq_of_same {f g : Function} (h : f.same g = true) : f.hash = g.hash := by
  unfold same at h
  split at h
  next ps t qs u =>
    rw [Bool.and_eq_true, beq_iff_eq] at h
    rw [hash, hash, fieldHashes, fieldHashes, floatHashes_eq h.1, h.2]
    rfl
  next => rw [beq_iff_eq.mp h]

end Function

namespace Ir

/-! ### Scalars -/

namespace Scalar

theorem equalAll_symm {as bs : List Scalar} (ih : ∀ a ∈ as, ∀ b, a.equal b = b.equal a) :
    equalAll as bs = equalAll bs as := by
  induction as generalizing bs with
  | nil => cases bs <;> rfl
  | cons a as ihas =>
      cases bs with
      | nil => rfl
      | cons b bs =>
          rw [equalAll, equalAll, ih a List.mem_cons_self b,
            ihas fun c hc => ih c (List.mem_cons_of_mem _ hc)]

theorem equal_symm (a b : Scalar) : a.equal b = b.equal a := by
  induction a using Scalar.induction generalizing b with
  | field id t =>
      cases b <;> first | rfl | rw [equal, equal, Bool.beq_comm, Bool.beq_comm (a := t)]
  | value v t =>
      cases b <;> first | rfl | rw [equal, equal, Value.equal_symm, Bool.beq_comm (a := t)]
  | coalesce args t ih =>
      cases b <;> first | rfl | rw [equal, equal, equalAll_symm ih, Bool.beq_comm (a := t)]
  | fnCall f args t ih =>
      cases b <;> first
        | rfl
        | rw [equal, equal, equalAll_symm ih, Bool.beq_comm (a := f), Bool.beq_comm (a := t)]
  | cached s t ih =>
      cases b <;> first | rfl | rw [equal, equal, ih, Bool.beq_comm (a := t)]

theorem equalAll_trans {as bs cs : List Scalar}
    (ih : ∀ a ∈ as, ∀ b c, a.equal b = true → b.equal c = true → a.equal c = true)
    (hab : equalAll as bs = true) (hbc : equalAll bs cs = true) : equalAll as cs = true := by
  induction as generalizing bs cs with
  | nil =>
      cases bs with
      | nil => exact hbc
      | cons b bs => cases hab
  | cons a as ihas =>
      cases bs with
      | nil => cases hab
      | cons b bs =>
          cases cs with
          | nil => cases hbc
          | cons c cs =>
              rw [equalAll, Bool.and_eq_true] at hab hbc ⊢
              exact ⟨ih a List.mem_cons_self b c hab.1 hbc.1,
                ihas (fun d hd => ih d (List.mem_cons_of_mem _ hd)) hab.2 hbc.2⟩

theorem equal_trans {a b c : Scalar} (hab : a.equal b = true) (hbc : b.equal c = true) :
    a.equal c = true := by
  induction a using Scalar.induction generalizing b c with
  | field id t =>
      cases b <;> simp only [equal, Bool.and_eq_true, beq_iff_eq, Bool.false_eq_true] at hab
      rw [hab.1, hab.2]
      exact hbc
  | value v t =>
      cases b <;> simp only [equal, Bool.and_eq_true, beq_iff_eq, Bool.false_eq_true] at hab
      cases c <;> simp only [equal, Bool.and_eq_true, beq_iff_eq, Bool.false_eq_true] at hbc ⊢
      exact ⟨Value.equal_trans hab.1 hbc.1, hab.2.trans hbc.2⟩
  | coalesce args t ih =>
      cases b <;> simp only [equal, Bool.and_eq_true, beq_iff_eq, Bool.false_eq_true] at hab
      cases c <;> simp only [equal, Bool.and_eq_true, beq_iff_eq, Bool.false_eq_true] at hbc ⊢
      exact ⟨equalAll_trans (fun a ha b c => ih a ha) hab.1 hbc.1, hab.2.trans hbc.2⟩
  | fnCall f args t ih =>
      cases b <;> simp only [equal, Bool.and_eq_true, beq_iff_eq, Bool.false_eq_true] at hab
      cases c <;> simp only [equal, Bool.and_eq_true, beq_iff_eq, Bool.false_eq_true] at hbc ⊢
      exact ⟨⟨hab.1.1.trans hbc.1.1, equalAll_trans (fun a ha b c => ih a ha) hab.1.2 hbc.1.2⟩,
        hab.2.trans hbc.2⟩
  | cached s t ih =>
      cases b <;> simp only [equal, Bool.and_eq_true, beq_iff_eq, Bool.false_eq_true] at hab
      cases c <;> simp only [equal, Bool.and_eq_true, beq_iff_eq, Bool.false_eq_true] at hbc ⊢
      exact ⟨ih hab.1 hbc.1, hab.2.trans hbc.2⟩

variable [DescriptionHash]

/-- `std::hash<ir::Scalar>`, from the node. -/
def hashNode (index : Nat) (fields : List (BitVec 64)) (t : ValueType) : BitVec 64 :=
  mixHashes 0 [hashVariant index fields, DescriptionHash.valueType t]

mutual

/-- `std::hash<ir::Scalar>`. -/
def hash : Scalar → BitVec 64
  | field id t => hashNode 0 [DescriptionHash.fieldId id] t
  | value v t => hashNode 1 [v.hash] t
  | coalesce args t => hashNode 2 [hashVector (hashes args)] t
  | fnCall f args t => hashNode 3 [f.hash, hashVector (hashes args)] t
  | cached s t => hashNode 4 [s.hash] t

def hashes : List Scalar → List (BitVec 64)
  | [] => []
  | a :: as => a.hash :: hashes as

end

theorem hashes_eq_of_equalAll {as bs : List Scalar}
    (ih : ∀ a ∈ as, ∀ b, a.equal b = true → a.hash = b.hash) (h : equalAll as bs = true) :
    hashes as = hashes bs := by
  induction as generalizing bs with
  | nil =>
      cases bs with
      | nil => rfl
      | cons b bs => cases h
  | cons a as ihas =>
      cases bs with
      | nil => cases h
      | cons b bs =>
          rw [equalAll, Bool.and_eq_true] at h
          rw [hashes, hashes, ih a List.mem_cons_self b h.1,
            ihas (fun c hc => ih c (List.mem_cons_of_mem _ hc)) h.2]

/-- Equal scalars have equal hashes. -/
theorem hash_eq_of_equal {a b : Scalar} (h : a.equal b = true) : a.hash = b.hash := by
  induction a using Scalar.induction generalizing b with
  | field id t =>
      cases b <;> simp only [equal, Bool.and_eq_true, beq_iff_eq, Bool.false_eq_true] at h
      rw [h.1, h.2]
  | value v t =>
      cases b <;> simp only [equal, Bool.and_eq_true, beq_iff_eq, Bool.false_eq_true] at h
      rw [hash, hash, Value.hash_eq_of_equal h.1, h.2]
  | coalesce args t ih =>
      cases b <;> simp only [equal, Bool.and_eq_true, beq_iff_eq, Bool.false_eq_true] at h
      rw [hash, hash, hashes_eq_of_equalAll (fun a ha b hab => ih a ha hab) h.1, h.2]
  | fnCall f args t ih =>
      cases b <;> simp only [equal, Bool.and_eq_true, beq_iff_eq, Bool.false_eq_true] at h
      rw [hash, hash, hashes_eq_of_equalAll (fun a ha b hab => ih a ha hab) h.1.2, h.1.1, h.2]
  | cached s t ih =>
      cases b <;> simp only [equal, Bool.and_eq_true, beq_iff_eq, Bool.false_eq_true] at h
      rw [hash, hash, ih h.1, h.2]

end Scalar

/-! ### Aggregates -/

namespace AggregateNode

/-- `util::equal`. -/
def equal : AggregateNode → AggregateNode → Bool
  | fnCall f as, fnCall g bs => f.same g && Scalar.equalAll as bs
  | const v n, const w m => v.equal w && n == m
  | _, _ => false

theorem equal_symm (n m : AggregateNode) : n.equal m = m.equal n := by
  cases n <;> cases m
  case fnCall.fnCall f as g bs =>
    rw [equal, equal, Function.same_symm, Scalar.equalAll_symm fun a _ => Scalar.equal_symm a]
  case const.const v n w m =>
    rw [equal, equal, Value.equal_symm, Bool.beq_comm (a := n)]
  all_goals rfl

theorem equal_trans {n m o : AggregateNode} (hnm : n.equal m = true) (hmo : m.equal o = true) :
    n.equal o = true := by
  cases n <;> cases m <;> simp only [equal, Bool.and_eq_true, Bool.false_eq_true] at hnm <;>
    cases o <;> simp only [equal, Bool.and_eq_true, Bool.false_eq_true, beq_iff_eq] at hmo hnm ⊢
  next f as g bs h cs =>
    exact ⟨Function.same_trans hnm.1 hmo.1,
      Scalar.equalAll_trans (fun a _ b c => Scalar.equal_trans) hnm.2 hmo.2⟩
  next => exact ⟨Value.equal_trans hnm.1 hmo.1, hnm.2.trans hmo.2⟩

/-- `util::hash`. -/
def hash [DescriptionHash] : AggregateNode → BitVec 64
  | fnCall f args => hashVariant 0 [f.hash, hashVector (Scalar.hashes args)]
  | const v nullIfEmpty => hashVariant 1 [v.hash, StdHash.boolean nullIfEmpty]

end AggregateNode

namespace Aggregate

/-- `operator==`. -/
def equal (a b : Aggregate) : Bool :=
  a.node.equal b.node && a.outputFieldId == b.outputFieldId && a.valueType == b.valueType

theorem equal_symm (a b : Aggregate) : a.equal b = b.equal a := by
  rw [equal, equal, AggregateNode.equal_symm, Bool.beq_comm (a := a.outputFieldId),
    Bool.beq_comm (a := a.valueType)]

theorem equal_trans {a b c : Aggregate} (hab : a.equal b = true) (hbc : b.equal c = true) :
    a.equal c = true := by
  simp only [equal, Bool.and_eq_true, beq_iff_eq] at hab hbc ⊢
  exact ⟨⟨AggregateNode.equal_trans hab.1.1 hbc.1.1, hab.1.2.trans hbc.1.2⟩, hab.2.trans hbc.2⟩

variable [DescriptionHash]

/-- `std::hash<ir::Aggregate>`. -/
def hash (a : Aggregate) : BitVec 64 :=
  mixHashes 0 [a.node.hash, DescriptionHash.fieldId a.outputFieldId,
    DescriptionHash.valueType a.valueType]

/-- Equal aggregates have equal hashes. -/
theorem hash_eq_of_equal {a b : Aggregate} (h : a.equal b = true) : a.hash = b.hash := by
  have hnode : ∀ {n m : AggregateNode}, n.equal m = true → n.hash = m.hash := by
    intro n m h
    cases n <;> cases m <;>
      simp only [AggregateNode.equal, Bool.and_eq_true, beq_iff_eq, Bool.false_eq_true] at h
    next f as g bs =>
      rw [AggregateNode.hash, AggregateNode.hash, Function.hash_eq_of_same h.1,
        Scalar.hashes_eq_of_equalAll (fun a _ b hab => Scalar.hash_eq_of_equal hab) h.2]
    next v n w m =>
      rw [AggregateNode.hash, AggregateNode.hash, Value.hash_eq_of_equal h.1, h.2]
  simp only [equal, Bool.and_eq_true, beq_iff_eq] at h
  rw [hash, hash, hnode h.1.1, h.1.2, h.2]

end Aggregate

end Ir

end Lsql
