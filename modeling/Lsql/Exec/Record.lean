import Lsql.Core.Value

/-!
# Lsql.Exec.Record

The records that operators hand on (`back/exec/Record.h` and the record classes of the operators).

A record answers for the value in a slot. The classes that wrap another record keep the wrapped
record and look into it on demand. A vector is indexed without a check.
-/

namespace Lsql.Exec

/-- `Record`, with one constructor for each class. -/
inductive Record
  /-- `EmptyRecord`. -/
  | empty
  /-- `VecRecord`. -/
  | vec (values : List Value)
  /-- `AggregateState`. -/
  | aggregate (values : List Value)
  /-- `HashMarkJoinRecord`. -/
  | mark (value : Value) (slot : Nat) (child : Record)
  /-- `HashLeftJoinRecord` with a matching right record. -/
  | leftJoin (left right : Record) (leftColumns : Nat)
  /-- `HashLeftJoinRecord` without one. -/
  | leftJoinNull (left : Record) (leftColumns : Nat)
  /-- `ValueRecord`. -/
  | value (v : Value)
  deriving DecidableEq, Repr

/-- `values_[slot]`. -/
def valueAt (values : List Value) (slot : Nat) : Except Fault Value :=
  match values[slot]? with
  | some v => .ok v
  | none => .error (.undefined "read past the end of a record")

/-- `record.value(slot)`. -/
def Record.get : Record → Nat → Except Fault Value
  | empty, _ => .ok .null
  | vec values, slot => valueAt values slot
  | aggregate values, slot => valueAt values slot
  | mark v s child, slot => if slot = s then .ok v else child.get slot
  | leftJoin left right n, slot => if slot < n then left.get slot else right.get (slot - n)
  | leftJoinNull left n, slot => if slot < n then left.get slot else .ok .null
  | value v, _ => .ok v

end Lsql.Exec
