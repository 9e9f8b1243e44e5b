import Lsql.Core.Fault
import Mathlib.Data.List.Count
import Mathlib.Data.List.TakeWhile
import Mathlib.Data.List.Induction
import Mathlib.Logic.Function.Basic

/-!
# Lsql.Output.OrderedSink

The sinks of concurrent statements (`util/sinks.h`, `util/sinks.cpp`, `addSink` in `cli/run.h`).

Every statement writes to a buffer of its own. A sink whose turn has come writes the buffer to the
output when its statement is done, and passes the turn on. With `keep_output_order` only the first
sink starts with its turn, so the statements' texts come out in the statements' order, whatever the
order in which the statements finish.

While the first `k` sinks have been flushed the chain is `settled k`. A sink that finishes in its
turn leaves it `pending` at its successor for a moment, and the cascade of `prevComplete` settles
it again (`prevComplete_pending`).
-/

namespace Lsql.Output

/-- `OrderedSink::State`. -/
inductive SinkState
  | consumingWaiting
  | consumingReady
  | doneWaiting
  | doneComplete
  deriving DecidableEq, Repr

/-- `OrderedSink`. The next sink is given by its index. -/
structure OrderedSink where
  next : Option Nat
  buf : String
  state : SinkState
  deriving DecidableEq, Repr

/-- The sinks, and what they have written to the output: each text with the sink that wrote it. -/
structure Sinks where
  sinks : List OrderedSink
  os : List (Nat × String)
  deriving DecidableEq, Repr

/-- A call of one of the sinks by the statement that it belongs to. -/
inductive Call
  | push (sink : Nat) (s : String)
  | done (sink : Nat)
  deriving DecidableEq, Repr

namespace Call

/-- The sink that is called. -/
def sink : Call → Nat
  | push i _ => i
  | done i => i

/-- The sink that is done. -/
def done? : Call → Option Nat
  | push _ _ => none
  | done i => some i

end Call

namespace Sinks

/-- No sink yet. -/
def empty : Sinks := { sinks := [], os := [] }

/-- `addSink`: the new sink waits if the order is kept and it is not the first one, and the sink
before it gets it as its next one. -/
def addSink (keepOutputOrder : Bool) (c : Sinks) : Sinks :=
  let sink : OrderedSink := {
    next := none, buf := ""
    state := if keepOutputOrder && !c.sinks.isEmpty then .consumingWaiting else .consumingReady }
  let last := c.sinks.length - 1
  { c with sinks := c.sinks.modify last (fun s => { s with next := some c.sinks.length }) ++ [sink] }

/-- The sinks of `n` statements. -/
def build (keepOutputOrder : Bool) : Nat → Sinks
  | 0 => empty
  | n + 1 => (build keepOutputOrder n).addSink keepOutputOrder

/-- `state_ = DoneComplete; flushLocked();`. -/
def completeAndFlush (c : Sinks) (i : Nat) (s : OrderedSink) : Sinks where
  sinks := c.sinks.set i { s with state := .doneComplete, buf := "" }
  os := c.os ++ [(i, s.buf ++ "\n")]

def isDoneWaiting (s : OrderedSink) : Bool := s.state = .doneWaiting

theorem completeAndFlush_count {c : Sinks} {i : Nat} {s : OrderedSink} (hs : c.sinks[i]? = some s)
    (hw : s.state = .doneWaiting) :
    (c.completeAndFlush i s).sinks.countP isDoneWaiting < c.sinks.countP isDoneWaiting := by
  obtain ⟨hi, rfl⟩ := List.getElem?_eq_some_iff.mp hs
  have hpos : 0 < c.sinks.countP isDoneWaiting :=
    List.countP_pos_iff.mpr ⟨_, List.getElem_mem hi, by simp [isDoneWaiting, hw]⟩
  have hold : isDoneWaiting c.sinks[i] = true := by simp [isDoneWaiting, hw]
  have hnew : isDoneWaiting { c.sinks[i] with state := .doneComplete, buf := "" } = false := rfl
  rw [completeAndFlush, List.countP_set hi, hold, hnew]
  simp only [if_true, Bool.false_eq_true, if_false]
  omega

/-- `prevCompleteLocked` with the `notifyNextLocked` that it ends in. Every call of itself leaves
one sink less that is done and waits. -/
def prevComplete (c : Sinks) (i : Nat) : Sinks :=
  match _hs : c.sinks[i]? with
  | none => c
  | some s =>
    match _hw : s.state with
    | .consumingWaiting => { c with sinks := c.sinks.set i { s with state := .consumingReady } }
    | .doneWaiting =>
      match s.next with
      | none => c.completeAndFlush i s
      | some next => (c.completeAndFlush i s).prevComplete next
    | .consumingReady => c
    | .doneComplete => c
termination_by c.sinks.countP isDoneWaiting
decreasing_by exact completeAndFlush_count _hs _hw

/-- `notifyNextLocked`. -/
def notifyNext (c : Sinks) (s : OrderedSink) : Sinks :=
  match s.next with
  | none => c
  | some next => c.prevComplete next

theorem prevComplete_eq {c : Sinks} {i : Nat} {s : OrderedSink} (hs : c.sinks[i]? = some s) :
    c.prevComplete i = match s.state with
      | .consumingWaiting => { c with sinks := c.sinks.set i { s with state := .consumingReady } }
      | .doneWaiting => (c.completeAndFlush i s).notifyNext s
      | .consumingReady => c
      | .doneComplete => c := by
  rw [prevComplete]
  split
  next hnone => simp [hs] at hnone
  next s' hs' =>
    cases hs.symm.trans hs'
    split <;> rename_i hw <;> simp only [hw]
    rfl

/-- `OrderedSink::push`. -/
def push (c : Sinks) (i : Nat) (s : OrderedSink) (text : String) : Sinks :=
  { c with sinks := c.sinks.set i { s with buf := s.buf ++ text ++ "\n" } }

/-- `OrderedSink::done`. -/
def done (c : Sinks) (i : Nat) (s : OrderedSink) : Except Fault Sinks :=
  match s.state with
  | .consumingWaiting => .ok { c with sinks := c.sinks.set i { s with state := .doneWaiting } }
  | .consumingReady => .ok ((c.completeAndFlush i s).notifyNext s)
  | .doneWaiting => .error (.panic "invalid state")
  | .doneComplete => .error (.panic "invalid state")

/-- A call of a sink that exists. -/
def call (c : Sinks) (call : Call) : Except Fault Sinks :=
  match c.sinks[call.sink]? with
  | none => .error (.undefined "a call of no sink")
  | some s =>
    match call with
    | .push i text => .ok (c.push i s text)
    | .done i => c.done i s

/-- Calls in the order in which they arrive. -/
def run (c : Sinks) : List Call → Except Fault Sinks
  | [] => .ok c
  | e :: es => do
    let c ← c.call e
    c.run es

/-! ### What the calls say -/

/-- What a statement pushes to its sink, as its buffer holds it. -/
def lines (calls : List Call) (i : Nat) : String :=
  calls.foldl (fun buf e => match e with
    | .push j text => if j = i then buf ++ text ++ "\n" else buf
    | .done _ => buf) ""

/-- What a sink is to write: the lines of its statement and an empty line. -/
def output (calls : List Call) (i : Nat) : Nat × String := (i, lines calls i ++ "\n")

/-- Calls of `n` statements in any order, where a statement that is done makes no further call. So
`done` comes at most once for each sink and after all pushes to it. -/
structure Orderly (n : Nat) (calls : List Call) : Prop where
  known : ∀ e ∈ calls, e.sink < n
  order : calls.Pairwise fun a b => a ≠ .done b.sink

/-- The statement of a sink is done. -/
def isDone (calls : List Call) (i : Nat) : Bool := calls.contains (.done i)

theorem lines_concat_push (calls : List Call) (i j : Nat) (text : String) :
    lines (calls ++ [.push j text]) i =
      if j = i then lines calls i ++ text ++ "\n" else lines calls i := by
  simp [lines]

theorem lines_concat_done (calls : List Call) (i j : Nat) :
    lines (calls ++ [.done j]) i = lines calls i := by
  simp [lines]

theorem isDone_concat_push (calls : List Call) (i j : Nat) (text : String) :
    isDone (calls ++ [.push j text]) i = isDone calls i := by
  simp [isDone]

theorem isDone_concat_done (calls : List Call) (i j : Nat) :
    isDone (calls ++ [.done j]) i = (isDone calls i || i == j) := by
  simp [isDone, Bool.beq_eq_decide_eq]

theorem Orderly.init {n : Nat} {calls : List Call} {e : Call} (h : Orderly n (calls ++ [e])) :
    Orderly n calls ∧ e.sink < n ∧ isDone calls e.sink = false := by
  have horder := List.pairwise_append.mp h.order
  refine ⟨⟨fun a ha => h.known a (List.mem_append_left _ ha), horder.1⟩, h.known e (by simp), ?_⟩
  cases hd : isDone calls e.sink with
  | false => rfl
  | true => exact absurd rfl (horder.2.2 (.done e.sink) (by simpa [isDone] using hd) e (by simp))

theorem run_append (c : Sinks) (front back : List Call) :
    c.run (front ++ back) = (do (← c.run front).run back) := by
  induction front generalizing c with
  | nil => rfl
  | cons e es ih =>
      simp only [List.cons_append, run]
      cases c.call e with
      | error _ => rfl
      | ok c' => exact ih c'

theorem run_concat {c c' : Sinks} {calls : List Call} {e : Call} (h : c.run calls = .ok c') :
    c.run (calls ++ [e]) = c'.call e := by
  rw [run_append, h]
  simp only [ok_bind, run]
  cases c'.call e <;> rfl

/-! ### The chain -/

/-- The sink at one place of a chain of `n`, in a given state and with the lines that it holds unless
it has flushed them. -/
def sinkAt (n i : Nat) (line : String) (state : SinkState) : OrderedSink where
  next := if i + 1 < n then some (i + 1) else none
  buf := if state = .doneComplete then "" else line
  state := state

def chain (n : Nat) (text : Nat → String) (state : Nat → SinkState) : List OrderedSink :=
  (List.range n).map fun i => sinkAt n i (text i) (state i)

section Chain

variable {n i : Nat} {line : String} {t : SinkState} {text text' : Nat → String}
  {state state' : Nat → SinkState}

@[simp] theorem sinkAt_state : (sinkAt n i line t).state = t := rfl

theorem sinkAt_buf (ht : t ≠ .doneComplete) : (sinkAt n i line t).buf = line := if_neg ht

theorem sinkAt_with_state {t' : SinkState} (ht : t ≠ .doneComplete) (ht' : t' ≠ .doneComplete) :
    { sinkAt n i line t with state := t' } = sinkAt n i line t' := by
  simp [sinkAt, ht, ht']

theorem sinkAt_with_buf {line' : String} (ht : t ≠ .doneComplete) :
    { sinkAt n i line t with buf := line' } = sinkAt n i line' t := by
  simp [sinkAt, ht]

theorem chain_get (hi : i < n) :
    (chain n text state)[i]? = some (sinkAt n i (text i) (state i)) := by
  simp [chain, hi]

theorem chain_congr (hstate : ∀ i < n, state i = state' i)
    (htext : ∀ i < n, state i ≠ .doneComplete → text i = text' i) :
    chain n text state = chain n text' state' := by
  apply List.map_congr_left
  intro i hi
  have hi : i < n := List.mem_range.mp hi
  rw [← hstate i hi]
  by_cases hc : state i = .doneComplete
  · simp [sinkAt, hc]
  · rw [htext i hi hc]

/-- Changing the sink at one place. -/
theorem chain_set (hi : i < n) : (chain n text state).set i (sinkAt n i line t) =
    chain n (Function.update text i line) (Function.update state i t) := by
  apply List.ext_getElem?
  intro j
  by_cases hj : j < n
  · by_cases hij : i = j
    · subst hij
      simp [chain, hi]
    · rw [List.getElem?_set_ne hij, chain_get hj, chain_get hj]
      simp [Function.update_of_ne (Ne.symm hij)]
  · simp [chain, hj]

/-- Changing the sink at one place into what it is in another chain. -/
theorem chain_set_eq (hi : i < n) (hstate : state' i = t)
    (htext : t ≠ .doneComplete → text' i = line) (hother : ∀ j < n, j ≠ i → state' j = state j)
    (hsame : ∀ j < n, j ≠ i → state j ≠ .doneComplete → text' j = text j) :
    (chain n text state).set i (sinkAt n i line t) = chain n text' state' := by
  rw [chain_set hi]
  apply chain_congr
  · intro j hj
    by_cases hji : j = i
    · subst hji
      rw [Function.update_self, hstate]
    · rw [Function.update_of_ne hji, hother j hj hji]
  · intro j hj hc
    by_cases hji : j = i
    · subst hji
      rw [Function.update_self] at hc ⊢
      exact (htext hc).symm
    · rw [Function.update_of_ne hji] at hc ⊢
      exact (hsame j hj hji hc).symm

theorem completeAndFlush_sinkAt {c : Sinks} (ht : t ≠ .doneComplete) :
    c.completeAndFlush i (sinkAt n i line t) =
      { sinks := c.sinks.set i (sinkAt n i line .doneComplete), os := c.os ++ [(i, line ++ "\n")] } := by
  simp [completeAndFlush, sinkAt, ht]

end Chain

theorem build_eq (keep : Bool) (n : Nat) : build keep n = {
    sinks := chain n (fun _ => "") fun i =>
      if keep && i != 0 then .consumingWaiting else .consumingReady
    os := [] } := by
  induction n with
  | zero => rfl
  | succ n ih =>
      rw [build, ih, addSink]
      congr 1
      apply List.ext_getElem?
      intro i
      rcases Nat.lt_trichotomy i n with hi | rfl | hi
      · rw [List.getElem?_append_left (by simpa [chain] using hi), List.getElem?_modify,
          chain_get hi, chain_get (by omega)]
        by_cases hlast : n - 1 = i
        · have : i + 1 = n := by omega
          simp [chain, sinkAt, hlast, this]
        · have : i + 1 < n := by omega
          simp [chain, sinkAt, hlast, this]
          omega
      · rw [chain_get (by omega), List.getElem?_append_right (by simp [chain])]
        simp [chain, sinkAt]
      · rw [List.getElem?_eq_none (by simp [chain]; omega),
          List.getElem?_eq_none (by simp [chain]; omega)]

/-! ### Keeping the order -/

section Keep

variable {n k : Nat} {text : Nat → String} {D : Nat → Bool} {os : List (Nat × String)}

/-- The first `k` sinks have been flushed and it is the turn of the next one, whose statement is not
done. -/
def settled (D : Nat → Bool) (k i : Nat) : SinkState :=
  if i < k then .doneComplete
  else if D i then .doneWaiting
  else if i = k then .consumingReady
  else .consumingWaiting

/-- The first `k` sinks have been flushed and the next one has not been told. -/
def pending (D : Nat → Bool) (k i : Nat) : SinkState :=
  if i < k then .doneComplete
  else if D i then .doneWaiting
  else .consumingWaiting

/-- What the sinks from `k` to `k'` write. -/
def written (text : Nat → String) (k k' : Nat) : List (Nat × String) :=
  (List.range' k (k' - k)).map fun i => (i, text i ++ "\n")

@[simp] theorem written_self : written text k k = [] := by simp [written]

theorem written_cons {k' : Nat} (h : k < k') :
    written text k k' = (k, text k ++ "\n") :: written text (k + 1) k' := by
  have hlen : k' - k = k' - (k + 1) + 1 := by omega
  rw [written, written, hlen, List.range'_succ, List.map_cons]

theorem pending_last (hkn : k = n) :
    chain n text (pending D k) = chain n text (settled D k) := by
  apply chain_congr
  · intro i hi
    have : i < k := by omega
    simp [pending, settled, this]
  · exact fun _ _ _ => rfl

/-- The sink whose turn it is has written its lines. -/
theorem flush_turn (hk : k < n) {t : SinkState} (ht : t ≠ .doneComplete) {state : Nat → SinkState}
    (hstate : ∀ j, j ≠ k → pending D (k + 1) j = state j) :
    completeAndFlush { sinks := chain n text state, os } k (sinkAt n k (text k) t) =
      { sinks := chain n text (pending D (k + 1)), os := os ++ [(k, text k ++ "\n")] } := by
  rw [completeAndFlush_sinkAt ht]
  congr 1
  exact chain_set_eq hk (by simp [pending]) (fun h => absurd rfl h) (fun j _ => hstate j)
    fun _ _ _ _ => rfl

/-- Telling the sink whose turn has come, if there is one left: every sink whose statement is done is
flushed, up to the first one whose statement is not. -/
theorem prevComplete_pending (hk : k ≤ n) : ∃ k', k ≤ k' ∧ k' ≤ n ∧
    (∀ i, k ≤ i → i < k' → D i = true) ∧ (k' < n → D k' = false) ∧
    (if k < n then prevComplete { sinks := chain n text (pending D k), os } k
      else { sinks := chain n text (pending D k), os }) =
      { sinks := chain n text (settled D k'), os := os ++ written text k k' } := by
  induction hm : n - k generalizing k os with
  | zero =>
      have hkn : k = n := by omega
      refine ⟨k, Nat.le_refl _, hk, fun i h h' => by omega, fun h => by omega, ?_⟩
      rw [if_neg (by omega), pending_last hkn, written_self, List.append_nil]
  | succ m ih =>
      have hk : k < n := by omega
      rw [if_pos hk, prevComplete_eq (chain_get hk), sinkAt_state]
      cases hD : D k with
      | false =>
          have hwait : pending D k k = .consumingWaiting := by simp [pending, hD]
          refine ⟨k, Nat.le_refl _, Nat.le_of_lt hk, fun i h h' => by omega, fun _ => hD, ?_⟩
          rw [hwait]
          dsimp only
          rw [sinkAt_with_state (by simp) (by simp), written_self, List.append_nil]
          congr 1
          apply chain_set_eq hk (by simp [settled, hD]) (fun _ => rfl)
          · intro j _ hj
            simp [settled, pending, hj]
          · exact fun _ _ _ _ => rfl
      | true =>
          have hwait : pending D k k = .doneWaiting := by simp [pending, hD]
          have hflush := @flush_turn n k text D os hk .doneWaiting (by simp) (pending D k) (by
              intro j hj
              have : j < k + 1 ↔ j < k := by omega
              simp [pending, this])
          obtain ⟨k', hle, hn, hall, hopen, heq⟩ :=
            @ih (k + 1) (os ++ [(k, text k ++ "\n")]) (by omega) (by omega)
          refine ⟨k', by omega, hn, fun i hi hi' => ?_, hopen, ?_⟩
          · rcases Nat.eq_or_lt_of_le hi with rfl | hi
            · exact hD
            · exact hall i hi hi'
          · rw [hwait]
            dsimp only
            rw [notifyNext, hflush, written_cons (by omega : k < k'),
              List.append_cons os _ (written text (k + 1) k'), ← heq]
            by_cases hlast : k + 1 < n <;> simp [sinkAt, hlast]

/-- A call of a sink of the chain. -/
theorem call_chain {state : Nat → SinkState} {e : Call} (he : e.sink < n) :
    call { sinks := chain n text state, os } e =
      match e with
      | .push i line =>
        .ok (push { sinks := chain n text state, os } i (sinkAt n i (text i) (state i)) line)
      | .done i => done { sinks := chain n text state, os } i (sinkAt n i (text i) (state i)) := by
  rw [call]
  simp only [chain_get he]
  cases e <;> rfl

/-- The sinks after some calls: those before the first one whose statement is not done have been
flushed. -/
structure InOrder (n : Nat) (calls : List Call) (k : Nat) (c : Sinks) : Prop where
  le : k ≤ n
  flushed : ∀ i < k, isDone calls i = true
  waits : k < n → isDone calls k = false
  eq : c = {
    sinks := chain n (lines calls) (settled (isDone calls) k), os := written (lines calls) 0 k }

theorem written_append {k' : Nat} (hk : k ≤ k') :
    written text 0 k ++ written text k k' = written text 0 k' := by
  rw [written, written, written, ← List.map_append]
  congr 1
  have hrange := @List.range'_append_1 0 k (k' - k)
  rw [Nat.zero_add, Nat.add_sub_cancel' hk] at hrange
  exact hrange

theorem written_congr {text' : Nat → String} (h : ∀ i < k, text i = text' i) :
    written text 0 k = written text' 0 k := by
  apply List.map_congr_left
  intro i hi
  have : i < k := by simpa using hi
  rw [h i this]

/-- A statement that is not done pushes a line: its sink holds one line more. -/
theorem InOrder.push {calls : List Call} {c : Sinks} (h : InOrder n calls k c) {i : Nat}
    (hi : i < n) (hd : isDone calls i = false) (line : String) :
    ∃ c', c.call (.push i line) = .ok c' ∧ InOrder n (calls ++ [.push i line]) k c' := by
  have hki : k ≤ i := by
    by_contra hlt
    rw [h.flushed i (by omega)] at hd
    cases hd
  have hstate : settled (isDone calls) k i ≠ .doneComplete := by
    have : ¬ i < k := by omega
    rw [settled, if_neg this, hd]
    by_cases hik : i = k <;> simp [hik]
  have hsame : isDone (calls ++ [.push i line]) = isDone calls := by
    funext j
    exact isDone_concat_push calls j i line
  refine ⟨_, ?_, h.le, ?_, ?_, rfl⟩
  · rw [h.eq, call_chain hi]
    dsimp only
    rw [Sinks.push, sinkAt_buf hstate, sinkAt_with_buf hstate, hsame]
    congr 2
    · apply chain_set_eq hi rfl
      · intro _
        rw [lines_concat_push, if_pos rfl]
      · exact fun _ _ _ => rfl
      · intro j _ hj _
        rw [lines_concat_push, if_neg (Ne.symm hj)]
    · apply written_congr
      intro j hj
      rw [lines_concat_push, if_neg (by omega)]
  · rw [hsame]
    exact h.flushed
  · rw [hsame]
    exact h.waits

/-- A statement is done. If it is its turn, its sink and those after it that wait are flushed. -/
theorem InOrder.done {calls : List Call} {c : Sinks} (h : InOrder n calls k c) {i : Nat}
    (hi : i < n) (hd : isDone calls i = false) :
    ∃ c' k', c.call (.done i) = .ok c' ∧ InOrder n (calls ++ [.done i]) k' c' := by
  have hki : k ≤ i := by
    by_contra hlt
    rw [h.flushed i (by omega)] at hd
    cases hd
  have hlines : lines (calls ++ [.done i]) = lines calls := by
    funext j
    exact lines_concat_done calls j i
  have hdone : ∀ j, j ≠ i → isDone (calls ++ [.done i]) j = isDone calls j := by
    intro j hj
    simp [isDone_concat_done, hj]
  have hself : isDone (calls ++ [.done i]) i = true := by simp [isDone_concat_done]
  have hnot : ¬ i < k := by omega
  rw [h.eq, call_chain hi]
  dsimp only
  rw [Sinks.done, sinkAt_state]
  by_cases hturn : i = k
  · subst hturn
    have hready : settled (isDone calls) i i = .consumingReady := by simp [settled, hd]
    have hflush := @flush_turn n i (lines calls) (isDone (calls ++ [.done i]))
      (written (lines calls) 0 i) hi .consumingReady (by simp) (settled (isDone calls) i) (by
        intro j hj
        have : j < i + 1 ↔ j < i := by omega
        simp [pending, settled, this, hdone j hj, hj])
    obtain ⟨k', hle, hn, hall, hopen, heq⟩ := @prevComplete_pending n (i + 1) (lines calls)
      (isDone (calls ++ [.done i])) (written (lines calls) 0 i ++ [(i, lines calls i ++ "\n")])
      (by omega)
    refine ⟨_, k', by rw [hready], hn, ?_, hopen, ?_⟩
    · intro j hj
      rcases Nat.lt_trichotomy j i with hlt | rfl | hgt
      · rw [hdone j (by omega)]
        exact h.flushed j hlt
      · exact hself
      · exact hall j hgt hj
    · rw [hflush, notifyNext, hlines, ← written_append (by omega : i ≤ k'),
        written_cons (by omega : i < k'),
        List.append_cons (written _ 0 i) _ (written _ (i + 1) k'), ← heq]
      by_cases hlast : i + 1 < n <;> simp [sinkAt, hlast]
  · have hwait : settled (isDone calls) k i = .consumingWaiting := by
      simp [settled, hd, hnot, hturn]
    refine ⟨_, k, by rw [hwait], h.le, ?_, ?_, ?_⟩
    · intro j hj
      rw [hdone j (by omega)]
      exact h.flushed j hj
    · intro hk
      rw [hdone k (Ne.symm hturn)]
      exact h.waits hk
    · rw [sinkAt_with_state (by simp) (by simp), hlines]
      congr 1
      apply chain_set_eq hi
      · simp [settled, hself, hnot]
      · exact fun _ => rfl
      · intro j _ hj
        simp [settled, hdone j hj]
      · exact fun _ _ _ _ => rfl

theorem inOrder_build : InOrder n [] 0 (build true n) where
  le := Nat.zero_le n
  flushed := by simp
  waits := by simp [isDone]
  eq := by
    rw [build_eq]
    congr 1
    apply chain_congr
    · intro i _
      by_cases hi : i = 0 <;> simp [settled, isDone, hi]
    · exact fun _ _ _ => rfl

theorem run_inOrder {calls : List Call} (h : Orderly n calls) :
    ∃ c k, (build true n).run calls = .ok c ∧ InOrder n calls k c := by
  induction calls using List.reverseRecOn with
  | nil => exact ⟨_, 0, rfl, inOrder_build⟩
  | append_singleton calls e ih =>
      obtain ⟨hinit, hsink, hd⟩ := h.init
      obtain ⟨c, k, hrun, hc⟩ := ih hinit
      rw [run_concat hrun]
      cases e with
      | push i line =>
          obtain ⟨c', hcall, hc'⟩ := hc.push hsink hd line
          exact ⟨c', k, hcall, hc'⟩
      | done i => exact hc.done hsink hd

/-- The flushed sinks are the longest run of sinks from the first one whose statements are done. -/
theorem InOrder.takeWhile {calls : List Call} {c : Sinks} (h : InOrder n calls k c) :
    (List.range n).takeWhile (isDone calls) = List.range k := by
  have hsplit : List.range n = List.range k ++ List.range' k (n - k) := by
    have hrange := @List.range'_append_1 0 k (n - k)
    rw [Nat.zero_add, Nat.add_sub_cancel' h.le] at hrange
    rw [List.range_eq_range', List.range_eq_range', hrange]
  have hall : ∀ i ∈ List.range k, isDone calls i = true :=
    fun i hi => h.flushed i (List.mem_range.mp hi)
  rw [hsplit, List.takeWhile_append_of_pos hall]
  by_cases hk : k < n
  · have hlen : n - k = n - k - 1 + 1 := by omega
    rw [hlen, List.range'_succ, List.takeWhile_cons_of_neg (by simp [h.waits hk]), List.append_nil]
  · have hlen : n - k = 0 := by omega
    rw [hlen, List.range'_zero, List.takeWhile_nil, List.append_nil]

end Keep

/-! ### Not keeping the order -/

section Free

variable {n : Nat} {calls : List Call} {c : Sinks}

/-- Every sink has its turn from the start. -/
def free (D : Nat → Bool) (i : Nat) : SinkState := if D i then .doneComplete else .consumingReady

/-- The sinks that are done, in the order in which they were done. -/
def dones (calls : List Call) : List Nat := calls.filterMap Call.done?

theorem mem_dones {i : Nat} : i ∈ dones calls ↔ isDone calls i = true := by
  simp only [dones, List.mem_filterMap, isDone, List.contains_iff_mem]
  constructor
  · rintro ⟨e, he, hi⟩
    cases e with
    | push j line => simp [Call.done?] at hi
    | done j =>
        cases Option.some.inj hi
        exact he
  · intro h
    exact ⟨_, h, rfl⟩

theorem Orderly.nodup_dones (h : Orderly n calls) : (dones calls).Nodup := by
  induction calls using List.reverseRecOn with
  | nil => exact .nil
  | append_singleton calls e ih =>
      obtain ⟨hinit, -, hd⟩ := h.init
      rw [dones, List.filterMap_append]
      refine List.nodup_append.mpr ⟨ih hinit, ?_, ?_⟩
      · cases e with
        | push i line => exact .nil
        | done i => simp [Call.done?]
      · intro i hi j hj
        cases e with
        | push k line => simp [Call.done?] at hj
        | done k =>
            have hjk : j = k := by simpa [Call.done?] using hj
            rintro rfl
            rw [hjk] at hi
            have hdone := mem_dones.mp hi
            rw [Call.sink, hdone] at hd
            cases hd

/-- The sinks after some calls: those whose statements are done have been flushed, in that order. -/
def AtOnce (n : Nat) (calls : List Call) (c : Sinks) : Prop :=
  c = {
    sinks := chain n (lines calls) (free (isDone calls))
    os := (dones calls).map (output calls) }

/-- A sink that is not flushed by its predecessor. -/
theorem notifyNext_free {text : Nat → String} {D : Nat → Bool} {os : List (Nat × String)}
    {i : Nat} {s : OrderedSink} (hs : s.next = if i + 1 < n then some (i + 1) else none) :
    notifyNext { sinks := chain n text (free D), os } s = { sinks := chain n text (free D), os } := by
  rw [notifyNext, hs]
  by_cases hlast : i + 1 < n
  · rw [if_pos hlast]
    dsimp only
    rw [prevComplete_eq (chain_get hlast), sinkAt_state]
    cases hd : D (i + 1) <;> simp [free, hd]
  · rw [if_neg hlast]

theorem AtOnce.push (h : AtOnce n calls c) {i : Nat} (hi : i < n) (hd : isDone calls i = false)
    (line : String) :
    ∃ c', c.call (.push i line) = .ok c' ∧ AtOnce n (calls ++ [.push i line]) c' := by
  have hstate : free (isDone calls) i ≠ .doneComplete := by simp [free, hd]
  have hsame : isDone (calls ++ [.push i line]) = isDone calls := by
    funext j
    exact isDone_concat_push calls j i line
  refine ⟨_, ?_, rfl⟩
  rw [h, call_chain hi]
  dsimp only
  rw [Sinks.push, sinkAt_buf hstate, sinkAt_with_buf hstate, hsame]
  congr 2
  · apply chain_set_eq hi rfl
    · intro _
      rw [lines_concat_push, if_pos rfl]
    · exact fun _ _ _ => rfl
    · intro j _ hj _
      rw [lines_concat_push, if_neg (Ne.symm hj)]
  · have hdones : dones (calls ++ [.push i line]) = dones calls := by simp [dones, Call.done?]
    rw [hdones]
    apply List.map_congr_left
    intro j hj
    have hji : i ≠ j := by
      rintro rfl
      rw [mem_dones.mp hj] at hd
      cases hd
    rw [output, output, lines_concat_push, if_neg hji]

/-- A statement is done: its sink is flushed at once, and no other one. -/
theorem AtOnce.done (h : AtOnce n calls c) {i : Nat} (hi : i < n) (hd : isDone calls i = false) :
    ∃ c', c.call (.done i) = .ok c' ∧ AtOnce n (calls ++ [.done i]) c' ∧
      c'.os = c.os ++ [output calls i] := by
  have hlines : lines (calls ++ [.done i]) = lines calls := by
    funext j
    exact lines_concat_done calls j i
  have houtput : output (calls ++ [.done i]) = output calls := by
    funext j
    rw [output, output, hlines]
  have hready : free (isDone calls) i = .consumingReady := by simp [free, hd]
  have hdones : dones (calls ++ [.done i]) = dones calls ++ [i] := by simp [dones, Call.done?]
  refine ⟨_, ?_, rfl, ?_⟩
  · rw [h, call_chain hi]
    dsimp only
    rw [Sinks.done, hready, sinkAt_state]
    dsimp only
    rw [completeAndFlush_sinkAt (by simp)]
    have hset : (chain n (lines calls) (free (isDone calls))).set i
        (sinkAt n i (lines calls i) .doneComplete) =
        chain n (lines calls) (free (isDone (calls ++ [.done i]))) := by
      apply chain_set_eq hi
      · simp [free, isDone_concat_done]
      · exact fun _ => rfl
      · intro j _ hj
        simp [free, isDone_concat_done, hj]
      · exact fun _ _ _ _ => rfl
    rw [hset, notifyNext_free rfl, hlines, houtput, hdones, List.map_append]
    rfl
  · rw [houtput, hdones, List.map_append, h]
    rfl

theorem atOnce_build : AtOnce n [] (build false n) := by
  rw [AtOnce, build_eq]
  congr 1

theorem run_atOnce (h : Orderly n calls) :
    ∃ c, (build false n).run calls = .ok c ∧ AtOnce n calls c := by
  induction calls using List.reverseRecOn with
  | nil => exact ⟨_, rfl, atOnce_build⟩
  | append_singleton calls e ih =>
      obtain ⟨hinit, hsink, hd⟩ := h.init
      obtain ⟨c, hrun, hc⟩ := ih hinit
      rw [run_concat hrun]
      cases e with
      | push i line => exact hc.push hsink hd line
      | done i =>
          obtain ⟨c', hcall, hc', -⟩ := hc.done hsink hd
          exact ⟨c', hcall, hc'⟩

end Free

/-- What the sinks have written after some calls.

In the kept order: the texts of the sinks from the first one on, up to the first one whose statement
is not done. Else: the texts of the sinks whose statements are done, each at its own `done`. Either
way, when all statements are done every sink has written its text once and holds nothing more. -/
structure Correct (keepOutputOrder : Bool) (n : Nat) (calls : List Call) (c : Sinks) : Prop where
  kept : keepOutputOrder = true →
    c.os = ((List.range n).takeWhile (isDone calls)).map (output calls)
  atDone : keepOutputOrder = false → c.os = (dones calls).map (output calls) ∧
    ∀ i, Orderly n (calls ++ [.done i]) →
      ∃ c', c.call (.done i) = .ok c' ∧ c'.os = c.os ++ [output calls i]
  complete : (∀ i < n, isDone calls i = true) →
    (keepOutputOrder = true → c.os = (List.range n).map (output calls)) ∧
    c.os.Perm ((List.range n).map (output calls)) ∧
    ∀ s ∈ c.sinks, s.state = .doneComplete ∧ s.buf = ""

theorem InOrder.correct {n k : Nat} {calls : List Call} {c : Sinks} (h : InOrder n calls k c) :
    Correct true n calls c := by
  have hos : c.os = (List.range k).map (output calls) := by
    rw [h.eq, List.range_eq_range']
    rfl
  refine ⟨fun _ => by rw [h.takeWhile, hos], by simp, fun hall => ?_⟩
  have hk : k = n := by
    by_contra hne
    have hlt : k < n := Nat.lt_of_le_of_ne h.le hne
    have hopen := h.waits hlt
    rw [hall k hlt] at hopen
    cases hopen
  subst hk
  refine ⟨fun _ => hos, hos ▸ .refl _, fun s hs => ?_⟩
  rw [h.eq] at hs
  obtain ⟨i, hi, rfl⟩ := List.mem_map.mp hs
  simp [settled, sinkAt, List.mem_range.mp hi]

theorem AtOnce.correct {n : Nat} {calls : List Call} {c : Sinks} (h : AtOnce n calls c)
    (horderly : Orderly n calls) : Correct false n calls c := by
  have hos : c.os = (dones calls).map (output calls) := by rw [h]
  refine ⟨by simp, fun _ => ⟨hos, fun i hnext => ?_⟩, fun hall => ⟨by simp, ?_, fun s hs => ?_⟩⟩
  · obtain ⟨-, hi, hd⟩ := hnext.init
    obtain ⟨c', hcall, -, hout⟩ := h.done hi hd
    exact ⟨c', hcall, hout⟩
  · rw [hos]
    refine List.Perm.map _ ((List.perm_ext_iff_of_nodup horderly.nodup_dones
      List.nodup_range).mpr fun i => ?_)
    rw [mem_dones, List.mem_range]
    constructor
    · intro hi
      exact horderly.known (.done i) (by simpa [isDone] using hi)
    · exact hall i
  · rw [h] at hs
    obtain ⟨i, hi, rfl⟩ := List.mem_map.mp hs
    simp [free, sinkAt, hall i (List.mem_range.mp hi)]

/-- **Ordered output.** For any number of sinks and any order of their statements' calls, no call
fails, and after any number of calls the sinks have written what `Correct` says. -/
theorem orderedSink_correct (keepOutputOrder : Bool) (n : Nat) (calls : List Call)
    (h : Orderly n calls) :
    ∃ c, (build keepOutputOrder n).run calls = .ok c ∧ Correct keepOutputOrder n calls c := by
  cases keepOutputOrder with
  | true =>
      obtain ⟨c, k, hrun, hc⟩ := run_inOrder h
      exact ⟨c, hrun, hc.correct⟩
  | false =>
      obtain ⟨c, hrun, hc⟩ := run_atOnce h
      exact ⟨c, hrun, hc.correct h⟩

/-- Three statements that finish in the opposite order. -/
theorem orderedSink_correct_reversed :
    let calls : List Call := [.push 0 "a", .push 2 "c", .done 2, .push 1 "b", .done 1, .done 0]
    ∃ c, (build true 3).run calls = .ok c ∧ Correct true 3 calls c :=
  orderedSink_correct true 3 _ ⟨by decide, by decide⟩

end Sinks

end Lsql.Output
