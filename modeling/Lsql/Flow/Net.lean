import Mathlib.Logic.Function.Basic
import Mathlib.Data.List.Nodup
import Lsql.Flow.Prog

/-!
# Lsql.Flow.Net

Networks of stream operators.

A node holds an operator and the inputs that are subscribed to it. Emitting an item calls every
subscribed input in turn and drops those that answer `false`; the call of an input runs the body of
its node, which may emit in turn. A node subscribes only inputs of later nodes, so calls nest to a
bounded depth. Sources are not called: their bodies are threads of a run, and the threads of a run
take steps in any order.

The state also records, for every input, the items it was called with and what it answered, and for
every node the items it emitted. Nothing in a run reads these records.
-/

namespace Flow

/-- An input of a node. -/
structure Port where
  node : Nat
  index : Nat
  deriving DecidableEq, Repr

/-- The state of a network whose operators are of type `ν`. -/
structure Net (ν η ρ : Type) where
  op : Nat → ν
  /-- The inputs that are still subscribed to a node. -/
  subs : Nat → List Port
  /-- The address of the cell that a node shares. -/
  cell : Nat → Nat
  heap : Nat → η
  /-- What an input was called with and what it answered, in order. -/
  log : Port → List (Option ρ × Bool)
  /-- What a node has emitted while it had a subscriber. -/
  sent : Nat → List (Option ρ)

/-- Why a network stops: a body failed, or calls nest deeper than was allowed for. -/
inductive Stop (ε : Type)
  | fault (e : ε)
  | tooDeep
  deriving DecidableEq, Repr

namespace Net

variable {ν ε η ρ α β : Type}

def active (s : Net ν η ρ) (i : Nat) : Bool := !(s.subs i).isEmpty

/-- A node's subscribers, as the one downstream that its body sees. -/
def downstream (s : Net ν η ρ) (i : Nat) : Prog.Downstream ρ :=
  { active := s.active i, out := s.sent i }

theorem downstream_congr {s s' : Net ν η ρ} {i : Nat} (hsubs : s'.subs i = s.subs i)
    (hsent : s'.sent i = s.sent i) : s'.downstream i = s.downstream i := by
  simp [downstream, active, hsubs, hsent]

theorem active_eq_false {s : Net ν η ρ} {i : Nat} : s.active i = false ↔ s.subs i = [] := by
  simp [active]

def cellOf (s : Net ν η ρ) (i : Nat) : η := s.heap (s.cell i)

def setCell (s : Net ν η ρ) (i : Nat) (c : η) : Net ν η ρ :=
  { s with heap := Function.update s.heap (s.cell i) c }

def unsubscribe (s : Net ν η ρ) (i : Nat) (t : Port) : Net ν η ρ :=
  { s with subs := Function.update s.subs i ((s.subs i).erase t) }

def noteSent (s : Net ν η ρ) (i : Nat) (item : Option ρ) : Net ν η ρ :=
  if s.active i then { s with sent := Function.update s.sent i (s.sent i ++ [item]) } else s

section NoteSent

variable (s : Net ν η ρ) (i : Nat) (item : Option ρ)

@[simp] theorem noteSent_op : (s.noteSent i item).op = s.op := by
  unfold noteSent
  split <;> rfl

@[simp] theorem noteSent_subs : (s.noteSent i item).subs = s.subs := by
  unfold noteSent
  split <;> rfl

@[simp] theorem noteSent_cell : (s.noteSent i item).cell = s.cell := by
  unfold noteSent
  split <;> rfl

@[simp] theorem noteSent_heap : (s.noteSent i item).heap = s.heap := by
  unfold noteSent
  split <;> rfl

@[simp] theorem noteSent_log : (s.noteSent i item).log = s.log := by
  unfold noteSent
  split <;> rfl

theorem noteSent_sent_of_ne {k : Nat} (h : k ≠ i) : (s.noteSent i item).sent k = s.sent k := by
  unfold noteSent
  split <;> simp [h]

theorem noteSent_sent_self (h : s.active i = true) :
    (s.noteSent i item).sent i = s.sent i ++ [item] := by
  simp [noteSent, h]

end NoteSent

/-- The end of a call: the operator's new state, and the record of the call. -/
def finish (s : Net ν η ρ) (t : Port) (item : Option ρ) (op : ν) (cont : Bool) : Net ν η ρ :=
  { s with
    op := Function.update s.op t.node op
    log := Function.update s.log t (s.log t ++ [(item, cont)]) }

@[simp] theorem finish_log_self (s : Net ν η ρ) (t : Port) (item : Option ρ) (op : ν)
    (cont : Bool) : (s.finish t item op cont).log t = s.log t ++ [(item, cont)] := by
  simp [finish]

@[simp] theorem finish_downstream (s : Net ν η ρ) (t : Port) (item : Option ρ) (op : ν)
    (cont : Bool) (k : Nat) : (s.finish t item op cont).downstream k = s.downstream k := rfl

@[simp] theorem setCell_downstream (s : Net ν η ρ) (i : Nat) (c : η) (k : Nat) :
    (s.setCell i c).downstream k = s.downstream k := rfl

/-- How an input is called: what it answers and the state that it leaves. -/
abbrev Deliver (ν ε η ρ : Type) :=
  Port → Option ρ → Net ν η ρ → Except (Stop ε) (Bool × Net ν η ρ)

/-- The loop of `emit` over the subscribed inputs. -/
def emitLoop (deliver : Deliver ν ε η ρ) (i : Nat) (item : Option ρ) :
    List Port → Net ν η ρ → Except (Stop ε) (Net ν η ρ)
  | [], s => .ok s
  | t :: ts, s =>
    (deliver t item s).bind fun (cont, s) =>
      emitLoop deliver i item ts (if cont then s else s.unsubscribe i t)

/-- `emit`. -/
def emit (deliver : Deliver ν ε η ρ) (i : Nat) (item : Option ρ) (s : Net ν η ρ) :
    Except (Stop ε) (Net ν η ρ) :=
  emitLoop deliver i item (s.subs i) (s.noteSent i item)

/-- Running a body at node `i`. -/
def exec (deliver : Deliver ν ε η ρ) (i : Nat) :
    Prog ε η ρ α → Net ν η ρ → Except (Stop ε) (α × Net ν η ρ)
  | .done a, s => .ok (a, s)
  | .fail e, _ => .error (.fault e)
  | .active k, s => exec deliver i (k (s.active i)) s
  | .emit item k, s =>
    (emit deliver i item s).bind fun s => exec deliver i (k (s.active i)) s
  | .load k, s => exec deliver i (k (s.cellOf i)) s
  | .store c k, s => exec deliver i k (s.setCell i c)

/-- The body of an operator's input. -/
abbrev Consume (ν ε η ρ : Type) := ν → Nat → Option ρ → Prog ε η ρ (ν × Bool)

/-- Calling an input, with calls nested at most `depth` deep. -/
def call (consume : Consume ν ε η ρ) : Nat → Deliver ν ε η ρ
  | 0 => fun _ _ _ => .error .tooDeep
  | depth + 1 => fun t item s =>
    (exec (call consume depth) t.node (consume (s.op t.node) t.index item) s).bind
      fun ((op, cont), s) => .ok (cont, s.finish t item op cont)

/-! ### Runs -/

/-- A source that is pushing: the rest of its body. -/
structure Thread (ε η ρ : Type) where
  node : Nat
  body : Prog ε η ρ Unit

/-- Whether a source has ended. -/
def Thread.ended (th : Thread ε η ρ) : Bool := match th.body with
  | .done _ => true
  | _ => false

/-- One interaction of a source. -/
def Thread.step (deliver : Deliver ν ε η ρ) (th : Thread ε η ρ) (s : Net ν η ρ) :
    Except (Stop ε) (Thread ε η ρ × Net ν η ρ) :=
  match th.body with
  | .done a => .ok (⟨th.node, .done a⟩, s)
  | .fail e => .error (.fault e)
  | .active k => .ok (⟨th.node, k (s.active th.node)⟩, s)
  | .emit item k =>
    (emit deliver th.node item s).bind fun s => .ok (⟨th.node, k (s.active th.node)⟩, s)
  | .load k => .ok (⟨th.node, k (s.cellOf th.node)⟩, s)
  | .store c k => .ok (⟨th.node, k⟩, s.setCell th.node c)

/-- A network with its pushing sources. -/
structure State (ν ε η ρ : Type) where
  net : Net ν η ρ
  threads : List (Thread ε η ρ)

/-- The state after one interaction of the `k`-th source. -/
def State.step (deliver : Deliver ν ε η ρ) (k : Nat) (st : State ν ε η ρ) :
    Except (Stop ε) (State ν ε η ρ) :=
  match st.threads[k]? with
  | none => .ok st
  | some th =>
    (th.step deliver st.net).bind fun (th, s) => .ok ⟨s, st.threads.set k th⟩

/-- Interactions in the order of a schedule. -/
def State.run (deliver : Deliver ν ε η ρ) :
    List Nat → State ν ε η ρ → Except (Stop ε) (State ν ε η ρ)
  | [], st => .ok st
  | k :: ks, st => (st.step deliver k).bind (State.run deliver ks)

def State.ended (st : State ν ε η ρ) : Bool := st.threads.all Thread.ended

/-! ### Triples -/

/-- The result satisfies `P` unless a body failed. -/
def Ensures (P : α → Prop) : Except (Stop ε) α → Prop
  | .ok a => P a
  | .error (.fault _) => True
  | .error .tooDeep => False

theorem Ensures.bind {P : α → Prop} {Q : β → Prop} {x : Except (Stop ε) α}
    {f : α → Except (Stop ε) β} (h : Ensures P x) (hf : ∀ a, P a → Ensures Q (f a)) :
    Ensures Q (x.bind f) := by
  match x, h with
  | .ok a, h => exact hf a h
  | .error (.fault _), _ => trivial

theorem Ensures.mono {P Q : α → Prop} {x : Except (Stop ε) α} (h : Ensures P x)
    (hPQ : ∀ a, P a → Q a) : Ensures Q x := by
  match x, h with
  | .ok a, h => exact hPQ a h
  | .error (.fault _), _ => trivial

theorem Ensures.of_ok {P : α → Prop} {x : Except (Stop ε) α} {a : α} (h : Ensures P x)
    (hx : x = .ok a) : P a := by
  subst hx
  exact h

theorem Ensures.ne_tooDeep {P : α → Prop} {x : Except (Stop ε) α} (h : Ensures P x) :
    x ≠ .error .tooDeep := by
  rintro rfl
  exact h

end Net

end Flow
