import Lsql.Exec.Record

/-!
# Lsql.Exec.Clone

Records that are handed on, and what is kept of them (`Record::clone`).

The record that an operator emits may look into a record of its producer, which will hold other values
with the producer's next call. Whoever keeps a record past the call clones it: a record that is owned
by a `shared_ptr` is shared, every other one is copied, and what it looks into is cloned in turn. A
`Record` is such a clone, and nothing that it reaches changes.
-/

namespace Lsql.Exec

/-- A record for the duration of a call. -/
inductive Emitted
  /-- Owned by a `shared_ptr`. -/
  | shared (record : Record)
  /-- `VecRecord`, in place. -/
  | vec (values : List Value)
  /-- `ValueRecord`, in place. -/
  | value (v : Value)
  /-- `HashMarkJoinRecord` with a pointer to the source's record. -/
  | mark (value : Value) (slot : Nat) (child : Emitted)
  /-- `HashLeftJoinRecord` with a pointer to the left record and a right record that is kept. -/
  | leftJoin (left : Emitted) (right : Record) (leftColumns : Nat)
  /-- `HashLeftJoinRecord` without a right record. -/
  | leftJoinNull (left : Emitted) (leftColumns : Nat)

namespace Emitted

/-- `value(slot)`. -/
def get : Emitted → Nat → Except Fault Value
  | shared record, slot => record.get slot
  | vec values, slot => valueAt values slot
  | value v, _ => .ok v
  | mark v s child, slot => if slot = s then .ok v else child.get slot
  | leftJoin left right n, slot => if slot < n then left.get slot else right.get (slot - n)
  | leftJoinNull left n, slot => if slot < n then left.get slot else .ok .null

/-- `clone`. -/
def clone : Emitted → Record
  | shared record => record
  | vec values => .vec values
  | value v => .value v
  | mark v s child => .mark v s child.clone
  | leftJoin left right n => .leftJoin left.clone right n
  | leftJoinNull left n => .leftJoinNull left.clone n

/-- A clone has the values that the record had. -/
theorem get_clone (e : Emitted) (slot : Nat) : e.clone.get slot = e.get slot := by
  induction e generalizing slot with
  | shared record => rfl
  | vec values => rfl
  | value v => rfl
  | mark v s child ih => simp only [clone, Record.get, get, ih]
  | leftJoin left right n ih => simp only [clone, Record.get, get, ih]
  | leftJoinNull left n ih => simp only [clone, Record.get, get, ih]

end Emitted

end Lsql.Exec
