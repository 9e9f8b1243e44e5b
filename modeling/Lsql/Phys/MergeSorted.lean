import Lsql.Core.ValueOrder
import Lsql.Flow.Merge
import Lsql.Phys.Ops

/-!
# Lsql.Phys.MergeSorted

`MergeSorted`: the sorted union of two inputs that push on their own schedules
(`back/exec/phys/ops/MergeSorted.h`).

A side whose next record cannot be compared yet is buffered. Whichever call brings the missing
information drains the buffers as far as it can. If the downstream refuses, the side that was being
called is told so at once and the other one at its next call.

The correctness result (`mergeSorted_correct`) holds for every schedule of the calls and every
downstream. It rests on one invariant, `Feed.Inv`: while the merge runs, what was emitted is part of
a merge of which either side still has its buffer and the records to come, and at most one side is
buffered.
-/

namespace Lsql.Phys

open Lsql.Exec Flow

/-- The fixed part of `MergeSorted`: the merge key and its direction. -/
structure MergeOrder where
  sortKey : List Scalar
  desc : Bool

/-- `MergeSorted`. The two elements of each array are indexed by a side. -/
structure MergeSorted extends MergeOrder where
  delayDone : Bool
  eof : Side → Bool
  buffers : Side → List Keyed

namespace MergeOrder

/-- `key`. -/
def key (self : MergeOrder) (record : Record) : Except Fault (List Value) :=
  Scalar.key record self.sortKey

/-- `less`: `desc_ ^ (a < b)`. -/
def less (self : MergeOrder) (a b : List Value) : Bool := self.desc ^^ keyLess a b

end MergeOrder

namespace MergeSorted

/-- A newly built operator. -/
def build (order : MergeOrder) : MergeSorted :=
  { order with delayDone := false, eof := fun _ => false, buffers := fun _ => [] }

/-- `DrainResult`. -/
inductive DrainResult
  | continue
  | stopRequested
  deriving DecidableEq, Repr

/-- `shouldWait`. -/
def shouldWait (self : MergeSorted) (side : Side) : Bool :=
  !self.eof side && (self.buffers side).isEmpty

def setBuffer (self : MergeSorted) (side : Side) (buffer : List Keyed) : MergeSorted :=
  { self with buffers := Function.update self.buffers side buffer }

/-- `push`. -/
def push (self : MergeSorted) (side : Side) (record : Record) (key : List Value) : MergeSorted :=
  self.setBuffer side (self.buffers side ++ [(record, key)])

/-- `eof`. -/
def bothEof (self : MergeSorted) : Bool := self.eof .left && self.eof .right

/-- `reset`. -/
def reset (self : MergeSorted) : MergeSorted :=
  { self with delayDone := false, eof := fun _ => false, buffers := fun _ => [] }

/-- The loop of `drain()` over two buffers that both hold records. -/
def drainBoth (less : List Value → List Value → Bool) :
    List Keyed → List Keyed → Body (List Keyed × List Keyed × DrainResult)
  | l :: lb, r :: rb =>
    if less l.2 r.2 then do
      let cont ← Prog.send (some l.1)
      if !cont then pure (lb, r :: rb, .stopRequested) else drainBoth less lb (r :: rb)
    else do
      let cont ← Prog.send (some r.1)
      if !cont then pure (l :: lb, rb, .stopRequested) else drainBoth less (l :: lb) rb
  | lb, rb => pure (lb, rb, .continue)
termination_by lb rb => lb.length + rb.length

/-- The loop of `drainSide`. -/
def drainList : List Keyed → Body (List Keyed × DrainResult)
  | [] => pure ([], .continue)
  | r :: rs => do
    let cont ← Prog.send (some r.1)
    if !cont then pure (rs, .stopRequested) else drainList rs

/-- `drainSide`. -/
def drainSide (self : MergeSorted) (side : Side) : Body (MergeSorted × DrainResult) := do
  let (buffer, res) ← drainList (self.buffers side)
  pure (self.setBuffer side buffer, res)

/-- `drain()`. -/
def drain (self : MergeSorted) : Body (MergeSorted × DrainResult) := do
  let (lb, rb, res) ← drainBoth self.less (self.buffers .left) (self.buffers .right)
  let self := (self.setBuffer .left lb).setBuffer .right rb
  if res = .stopRequested then pure (self, .stopRequested)
  else if self.eof .right && !lb.isEmpty then self.drainSide .left
  else if self.eof .left && !rb.isEmpty then self.drainSide .right
  else pure (self, .continue)

/-- The loop of `drain(curr_side, record)` over the other side's buffer. With `none` it ran until
the buffer was empty. -/
def drainOther (less : List Value → List Value → Bool) (record : Record) (k : List Value) :
    List Keyed → Body (List Keyed × Option DrainResult)
  | [] => pure ([], none)
  | v :: b =>
    if less k v.2 then do
      let cont ← Prog.send (some record)
      if !cont then pure (v :: b, some .stopRequested) else pure (v :: b, some .continue)
    else do
      let cont ← Prog.send (some v.1)
      if !cont then pure (b, some .stopRequested) else drainOther less record k b

/-- The end of `drain(curr_side, record)`: a record that could not be compared is buffered. -/
def endDrain (self : MergeSorted) (side : Side) (record : Record) (k : List Value)
    (b : List Keyed) : Option DrainResult → MergeSorted × DrainResult
  | some res => (self.setBuffer side.other b, res)
  | none => ((self.setBuffer side.other b).push side record k, .continue)

/-- `drain(curr_side, record)`. -/
def drainRecord (self : MergeSorted) (side : Side) (record : Record) :
    Body (MergeSorted × DrainResult) := do
  let k ← Prog.lift (self.key record)
  let (b, res) ← drainOther self.less record k (self.buffers side.other)
  pure (self.endDrain side record k b res)

/-- `terminate`. -/
def terminate (self : MergeSorted) (stoppedSide : Side) : MergeSorted :=
  let self := { self with eof := Function.update self.eof stoppedSide true }
  if self.bothEof then self.reset else { self with delayDone := true }

/-- `consume<Index>`. -/
def consume (self : MergeSorted) (side : Side) (record : Option Record) :
    Body (MergeSorted × Bool) :=
  if self.delayDone then pure (self.reset, false)
  else
    match record with
    | none => do
      let self := { self with eof := Function.update self.eof side true }
      let (self, res) ← self.drain
      if res = .stopRequested then pure (self.terminate side, false)
      else if self.bothEof then do
        let _ ← Prog.send none
        pure (self.reset, false)
      else
        pure (self, false)
    | some record =>
      if self.shouldWait side.other then do
        let k ← Prog.lift (self.key record)
        pure (self.push side record k, true)
      else if !(self.buffers side).isEmpty then do
        let k ← Prog.lift (self.key record)
        let (self, res) ← (self.push side record k).drain
        if res = .continue then pure (self, true) else pure (self.terminate side, false)
      else do
        let (self, res) ← self.drainRecord side record
        if res = .stopRequested then pure (self.terminate side, false) else pure (self, true)

end MergeSorted

/-! ### The order of records -/

namespace MergeOrder

/-- The order of the keys: ascending or descending. -/
def keyOrdered (desc : Bool) (a b : List Value) : Prop :=
  if desc then compareKeys a b = some .gt ∨ compareKeys a b = some .eq
  else compareKeys a b = some .lt ∨ compareKeys a b = some .eq

instance (desc : Bool) (a b : List Value) : Decidable (keyOrdered desc a b) :=
  inferInstanceAs (Decidable (if desc = true then
    compareKeys a b = some .gt ∨ compareKeys a b = some .eq
    else compareKeys a b = some .lt ∨ compareKeys a b = some .eq))

/-- The keys of two records are defined and in order. -/
def Ordered (self : MergeOrder) (a b : Record) : Prop :=
  ∃ ka kb, self.key a = .ok ka ∧ self.key b = .ok kb ∧ keyOrdered self.desc ka kb

/-- A sequence sorted by the merge key. Every record is in order with itself too, which leaves out
the keys that are not: those that hold a NaN. -/
structure Sorted (order : MergeOrder) (records : List Record) : Prop where
  self_ordered : ∀ r ∈ records, order.Ordered r r
  pairwise : records.Pairwise order.Ordered

theorem keyOrdered_self {desc : Bool} {k : List Value} :
    keyOrdered desc k k ↔ Comparable k := by
  rw [← compareKeys_self]
  rcases compareKeys_self_or k with h | h <;> cases desc <;> simp [keyOrdered, h]

theorem keyOrdered_iff {desc : Bool} {a b : List Value} (ha : Comparable a) (hb : Comparable b) :
    keyOrdered desc a b ↔ (if desc then keyOrder b a else keyOrder a b).isLE = true := by
  simp only [keyOrdered, compareKeys_eq_order ha hb, keyOrder_swap a b]
  cases desc <;> cases keyOrder a b <;> simp

/-- A record whose key is defined and holds no NaN. -/
def Keyable (self : MergeOrder) (r : Record) : Prop := ∃ k, self.key r = .ok k ∧ Comparable k

theorem ordered_self {self : MergeOrder} {r : Record} : self.Ordered r r ↔ self.Keyable r := by
  constructor
  · rintro ⟨ka, kb, ha, hb, h⟩
    cases ha.symm.trans hb
    exact ⟨ka, ha, keyOrdered_self.mp h⟩
  · rintro ⟨k, hk, hc⟩
    exact ⟨k, k, hk, hk, keyOrdered_self.mpr hc⟩

/-- On records with keys, the merge order is total and transitive. -/
theorem orderedOn (self : MergeOrder) : OrderedOn self.Keyable self.Ordered where
  total {a b} := by
    rintro ⟨ka, ha, hca⟩ ⟨kb, hb, hcb⟩
    have htotal : keyOrdered self.desc ka kb ∨ keyOrdered self.desc kb ka := by
      rw [keyOrdered_iff hca hcb, keyOrdered_iff hcb hca, keyOrder_swap ka kb]
      cases self.desc <;> cases keyOrder ka kb <;> simp
    exact htotal.imp (fun h => ⟨ka, kb, ha, hb, h⟩) fun h => ⟨kb, ka, hb, ha, h⟩
  trans {a b c} := by
    rintro ⟨ka, ha, hca⟩ ⟨kb, hb, hcb⟩ ⟨kc, hc, hcc⟩ ⟨ka', kb', ha', hb', hab⟩
      ⟨kb'', kc', hb'', hc', hbc⟩
    cases ha.symm.trans ha'
    cases hb.symm.trans hb'
    cases hb.symm.trans hb''
    cases hc.symm.trans hc'
    refine ⟨ka, kc, ha, hc, ?_⟩
    rw [keyOrdered_iff hca hcc]
    rw [keyOrdered_iff hca hcb] at hab
    rw [keyOrdered_iff hcb hcc] at hbc
    cases hd : self.desc with
    | false =>
        simp only [hd, Bool.false_eq_true, if_false] at hab hbc ⊢
        exact Std.TransCmp.isLE_trans hab hbc
    | true =>
        simp only [hd, if_true] at hab hbc ⊢
        exact Std.TransCmp.isLE_trans hbc hab

/-- What `less` says of two keys. -/
theorem ordered_of_less {self : MergeOrder} {ka kb : List Value} (ha : Comparable ka)
    (hb : Comparable kb) :
    if self.less ka kb then keyOrdered self.desc ka kb else keyOrdered self.desc kb ka := by
  simp only [keyOrdered_iff ha hb, keyOrdered_iff hb ha, less, keyLess, compareKeys_eq_order ha hb,
    keyOrder_swap ka kb]
  cases self.desc <;> cases keyOrder ka kb <;> simp

theorem Sorted.keyable {self : MergeOrder} {records : List Record} (h : self.Sorted records) :
    ∀ r ∈ records, self.Keyable r := fun r hr => ordered_self.mp (h.self_ordered r hr)

end MergeOrder

/-! ### Schedules -/

namespace MergeSorted

/-- The operator with its downstream, the items that either input has yet to send, and which inputs
have not been told to stop. -/
structure Feed where
  self : MergeSorted
  down : Prog.Downstream Record
  input : Side → List (Option Record)
  live : Side → Bool

namespace Feed

/-- Two inputs that each send records and then the end of their stream. -/
def start (order : MergeOrder) (records : Side → List Record) : Feed where
  self := build order
  down := .fresh
  input side := (records side).map some ++ [none]
  live _ := true

/-- The next call of one input. An input that was told to stop makes no call. -/
def step (accept : List (Option Record) → Bool) (side : Side) (f : Feed) : Except Fault Feed :=
  if f.live side then
    match f.input side with
    | [] => .ok f
    | item :: items => do
      let ((self, cont), _, down) ← (f.self.consume side item).run accept .unused f.down
      pure {
        self, down
        input := Function.update f.input side items
        live := Function.update f.live side cont }
  else
    .ok f

/-- Calls in the order of a schedule. -/
def run (accept : List (Option Record) → Bool) : List Side → Feed → Except Fault Feed
  | [], f => .ok f
  | side :: sides, f => do
    let f ← f.step accept side
    f.run accept sides

end Feed

/-! ### Draining -/

section Drain

variable {order : MergeOrder} (accept : List (Option Record) → Bool)
  {records rest : Side → List Record} {d : Prog.Downstream Record}

/-- What the downstream was sent is part of a merge of the records, of which `rest` is left. -/
def Emitted (order : MergeOrder) (records : Side → List Record) (d : Prog.Downstream Record)
    (rest : Side → List Record) : Prop :=
  ∃ out, d.out = out.map some ∧ PartialMerge order.Ordered records out rest

/-- The downstream has just refused a record. -/
structure Refused (order : MergeOrder) (accept : List (Option Record) → Bool)
    (records : Side → List Record) (d : Prog.Downstream Record) : Prop where
  inactive : d.active = false
  refused : accept d.out = false
  emitted : ∃ r out rest, d.out = (out ++ [r]).map some ∧
    PartialMerge order.Ordered records (out ++ [r]) rest

/-- Sending the head of a side that is not above the rest of the other one. -/
theorem Emitted.send (hsorted : ∀ s, order.Sorted (records s)) (hact : d.active = true)
    (h : Emitted order records d rest) {s : Side} {x : Record} {xs : List Record}
    (hrest : rest s = x :: xs) (hx : ∀ y ∈ rest s.other, order.Ordered x y) :
    Emitted order records (d.send accept (some x)) (Function.update rest s xs) ∧
      ((d.send accept (some x)).active = false →
        Refused order accept records (d.send accept (some x))) := by
  obtain ⟨out, hout, hmerge⟩ := h
  have htake := hmerge.take (hsorted s).pairwise hrest hx
  rw [Prog.Downstream.send_of_active hact]
  refine ⟨⟨out ++ [x], by simp [hout], htake⟩, fun hr => ?_⟩
  exact ⟨hr, hr, x, out, _, by simp [hout], htake⟩

/-- What a drain ends in: everything it could was sent, or the downstream refused. -/
def Drained (order : MergeOrder) (accept : List (Option Record) → Bool)
    (records : Side → List Record) (d : Prog.Downstream Record) (res : DrainResult)
    (rest : Side → List Record) : Prop :=
  (res = .continue ∧ d.active = true ∧ Emitted order records d rest) ∨
    (res = .stopRequested ∧ Refused order accept records d)

/-- `drainSide` sends the whole buffer if the other side has nothing left. -/
theorem run_drainList (hsorted : ∀ s, order.Sorted (records s)) {s : Side} {buffer : List Keyed}
    {pending : List Record} (c : Cell) (hact : d.active = true) (h : Emitted order records d rest)
    (hrest : rest s = buffer.map Prod.fst ++ pending) (hother : rest s.other = []) :
    ∃ buffer' res d', (drainList buffer).run accept c d = .ok ((buffer', res), c, d') ∧
      Drained order accept records d' res (Function.update rest s pending) ∧
      (res = .continue → buffer' = []) := by
  induction buffer generalizing d rest with
  | nil =>
      refine ⟨[], .continue, d, rfl, .inl ⟨rfl, hact, ?_⟩, fun _ => rfl⟩
      rwa [show pending = rest s by simpa using hrest.symm, Function.update_eq_self]
  | cons e buffer ih =>
      obtain ⟨hE, hstop⟩ := h.send accept hsorted hact (by simpa using hrest) (by simp [hother])
      simp only [drainList, Prog.send_bind, Prog.run_emit]
      cases hcont : (d.send accept (some e.1)).active with
      | false => exact ⟨buffer, .stopRequested, _, by simp, .inr ⟨rfl, hstop hcont⟩, by simp⟩
      | true =>
          obtain ⟨buffer', res, d', hrun, hd, hb⟩ := ih hcont hE (by simp) (by simpa using hother)
          exact ⟨buffer', res, d', by simpa using hrun, by simpa using hd, hb⟩

/-- What a side still has: its buffer and the records to come. -/
def restOf (self : MergeSorted) (pending : Side → List Record) (s : Side) : List Record :=
  (self.buffers s).map Prod.fst ++ pending s

theorem restOf_setBuffer (self : MergeSorted) (pending : Side → List Record) (s : Side)
    (buffer : List Keyed) : restOf (self.setBuffer s buffer) pending =
      Function.update (restOf self pending) s (buffer.map Prod.fst ++ pending s) := by
  funext t
  rcases s.eq_or_other t with rfl | rfl <;> simp [restOf, setBuffer]

/-- `drainSide`, as a step of the operator. -/
theorem run_drainSide (hsorted : ∀ s, order.Sorted (records s)) {self : MergeSorted} {s : Side}
    {pending : Side → List Record} (c : Cell) (hact : d.active = true)
    (h : Emitted order records d (restOf self pending)) (hother : restOf self pending s.other = []) :
    ∃ buffer res d', (self.drainSide s).run accept c d =
        .ok ((self.setBuffer s buffer, res), c, d') ∧
      Drained order accept records d' res (restOf (self.setBuffer s []) pending) ∧
      (res = .continue → buffer = []) := by
  obtain ⟨buffer, res, d', hrun, hd, hb⟩ := run_drainList accept hsorted c hact h rfl hother
  refine ⟨buffer, res, d', ?_, ?_, hb⟩
  · rw [drainSide, Prog.run_bind_ok hrun]
    rfl
  · rw [restOf_setBuffer]
    simpa using hd

theorem drainBoth_nil_left (less : List Value → List Value → Bool) (rb : List Keyed) :
    drainBoth less [] rb = pure ([], rb, .continue) := by
  rw [drainBoth]
  simp

theorem drainBoth_nil_right (less : List Value → List Value → Bool) (lb : List Keyed) :
    drainBoth less lb [] = pure (lb, [], .continue) := by
  cases lb <;> rw [drainBoth] <;> simp

theorem setBuffer_self (self : MergeSorted) (s : Side) :
    self.setBuffer s (self.buffers s) = self := by
  simp [setBuffer]

/-- With one side unbuffered, `drain()` comes down to at most one `drainSide`. -/
theorem drain_eq {self : MergeSorted} {s : Side} (h : self.buffers s.other = []) :
    self.drain = if self.eof s.other && !(self.buffers s).isEmpty then self.drainSide s
      else pure (self, .continue) := by
  cases s with
  | left =>
      have h : self.buffers .right = [] := h
      have hset : (self.setBuffer .left (self.buffers .left)).setBuffer .right [] = self := by
        rw [setBuffer_self, ← h, setBuffer_self]
      simp [drain, h, drainBoth_nil_right, hset, Side.other]
  | right =>
      have h : self.buffers .left = [] := h
      have hset : (self.setBuffer .left []).setBuffer .right (self.buffers .right) = self := by
        rw [← h, setBuffer_self, setBuffer_self]
      simp [drain, h, drainBoth_nil_left, hset, Side.other]

/-- `drain()`: if it goes through, the buffer of a side whose other side has ended is empty. -/
theorem run_drain (hsorted : ∀ s, order.Sorted (records s)) {self : MergeSorted}
    {pending : Side → List Record} (c : Cell) (hact : d.active = true)
    (h : Emitted order records d (restOf self pending)) (hone : ∃ s, self.buffers s = [])
    (hpending : ∀ s, self.eof s = true → pending s = []) :
    ∃ s buffer res d', self.drain.run accept c d = .ok ((self.setBuffer s buffer, res), c, d') ∧
      Drained order accept records d' res (restOf (self.setBuffer s buffer) pending) ∧
      (res = .continue → buffer ⊆ self.buffers s ∧ self.buffers s.other = [] ∧
        (self.eof s.other = true → buffer = [])) := by
  obtain ⟨t, ht⟩ := hone
  obtain ⟨s, rfl⟩ : ∃ s : Side, t = s.other := ⟨t.other, by simp⟩
  rw [drain_eq ht]
  split
  next hcond =>
    have heof : self.eof s.other = true := by
      simp only [Bool.and_eq_true] at hcond
      exact hcond.1
    have hother : restOf self pending s.other = [] := by simp [restOf, ht, hpending _ heof]
    obtain ⟨buffer, res, d', hrun, hd, hb⟩ := run_drainSide accept hsorted c hact h hother
    refine ⟨s, buffer, res, d', hrun, ?_, fun hres => ⟨by simp [hb hres], ht, fun _ => hb hres⟩⟩
    rcases hd with ⟨hres, hd⟩ | hd
    · rw [hb hres]
      exact .inl ⟨hres, hd⟩
    · exact .inr hd
  next hcond =>
    refine ⟨s, self.buffers s, .continue, d, by rw [setBuffer_self]; rfl, ?_, fun _ =>
      ⟨List.Subset.refl _, ht, fun heof => by simpa [heof] using hcond⟩⟩
    rw [setBuffer_self]
    exact .inl ⟨rfl, hact, h⟩

/-- The loop of `drain(curr_side, record)`: the record is `k`'s, the other side's buffer is `b`. -/
theorem run_drainOther (hsorted : ∀ s, order.Sorted (records s)) {s : Side} {record : Record}
    {k : List Value} {b : List Keyed} {ps po : List Record} (c : Cell)
    (hact : d.active = true) (h : Emitted order records d rest) (hkey : order.key record = .ok k)
    (hb : ∀ e ∈ b, order.key e.1 = .ok e.2) (hs : rest s = record :: ps)
    (ho : rest s.other = b.map Prod.fst ++ po) :
    ∃ b' res d', (drainOther order.less record k b).run accept c d = .ok ((b', res), c, d') ∧
      ((res = none ∧ b' = [] ∧ d'.active = true ∧
          Emitted order records d' (Function.update rest s.other po)) ∨
        (res = some .continue ∧ b' ⊆ b ∧ d'.active = true ∧ Emitted order records d'
          (Function.update (Function.update rest s.other (b'.map Prod.fst ++ po)) s ps)) ∨
        (res = some .stopRequested ∧ Refused order accept records d')) := by
  induction b generalizing d rest with
  | nil =>
      refine ⟨[], none, d, rfl, .inl ⟨rfl, rfl, hact, ?_⟩⟩
      rwa [show po = rest s.other by simpa using ho.symm, Function.update_eq_self]
  | cons v b ih =>
      have hkeyable := fun t => (hsorted t).keyable
      have hmem : ∀ t, ∀ x ∈ rest t, order.Keyable x := by
        obtain ⟨out, -, hmerge⟩ := h
        exact fun t x hx => hkeyable t x (hmerge.mem_inputs hx)
      have hk : Comparable k := by
        obtain ⟨k', hk', hc⟩ := hmem s record (by simp [hs])
        cases hkey.symm.trans hk'
        exact hc
      have hv : Comparable v.2 := by
        obtain ⟨k', hk', hc⟩ := hmem s.other v.1 (by simp [ho])
        cases (hb v (by simp)).symm.trans hk'
        exact hc
      have hless := @MergeOrder.ordered_of_less order _ _ hk hv
      simp only [drainOther]
      split
      next hlt =>
        -- the record goes before the whole buffer
        rw [if_pos hlt] at hless
        have hle : ∀ y ∈ rest s.other, order.Ordered record y := by
          obtain ⟨out, -, hmerge⟩ := h
          exact hmerge.le_rest order.orderedOn (hkeyable _) (hsorted _).pairwise
            (by simpa using ho) (hmem s record (by simp [hs]))
            ⟨k, v.2, hkey, hb v (by simp), hless⟩
        obtain ⟨hE, hstop⟩ := h.send accept hsorted hact hs hle
        simp only [Prog.send_bind, Prog.run_emit]
        cases hcont : (d.send accept (some record)).active with
        | false => exact ⟨v :: b, _, _, by simp, .inr (.inr ⟨rfl, hstop hcont⟩)⟩
        | true =>
            refine ⟨v :: b, _, _, by simp, .inr (.inl ⟨rfl, List.Subset.refl _, hcont, ?_⟩)⟩
            rwa [← ho, Function.update_eq_self]
      next hlt =>
        -- the head of the buffer goes before the record
        rw [if_neg hlt] at hless
        have hle : ∀ y ∈ rest s.other.other, order.Ordered v.1 y := by
          obtain ⟨out, -, hmerge⟩ := h
          rw [Side.other_other]
          exact hmerge.le_rest order.orderedOn (hkeyable _) (hsorted _).pairwise hs
            (hmem s.other v.1 (by simp [ho])) ⟨v.2, k, hb v (by simp), hkey, hless⟩
        obtain ⟨hE, hstop⟩ := h.send accept hsorted hact (by simpa using ho) hle
        simp only [Prog.send_bind, Prog.run_emit]
        cases hcont : (d.send accept (some v.1)).active with
        | false => exact ⟨b, _, _, by simp, .inr (.inr ⟨rfl, hstop hcont⟩)⟩
        | true =>
            obtain ⟨b', res, d', hrun, hres⟩ := ih hcont hE (fun e he => hb e (by simp [he]))
              (by simpa using hs) (by simp)
            refine ⟨b', res, d', by simpa using hrun, ?_⟩
            rcases hres with ⟨h1, h2, h3, h4⟩ | ⟨h1, h2, h3, h4⟩ | h1
            · exact .inl ⟨h1, h2, h3, by simpa using h4⟩
            · exact .inr (.inl ⟨h1, fun e he => by simp [h2 he], h3, by simpa using h4⟩)
            · exact .inr (.inr h1)

/-- `drain(curr_side, record)`, with the record counted among those to come. -/
theorem run_drainRecord (hsorted : ∀ s, order.Sorted (records s)) {self : MergeSorted} {s : Side}
    {record : Record} {ps : List Record} {pending : Side → List Record} (c : Cell)
    (hact : d.active = true) (h : Emitted order records d (restOf self pending))
    (horder : self.toMergeOrder = order)
    (hkeyed : ∀ t, ∀ e ∈ self.buffers t, order.key e.1 = .ok e.2)
    (hbuf : self.buffers s = []) (hps : pending s = record :: ps) :
    ∃ self' res d', (self.drainRecord s record).run accept c d = .ok ((self', res), c, d') ∧
      self'.toMergeOrder = order ∧ self'.eof = self.eof ∧ self'.delayDone = self.delayDone ∧
      Drained order accept records d' res (restOf self' (Function.update pending s ps)) ∧
      (res = .continue → (∀ t, ∀ e ∈ self'.buffers t, order.key e.1 = .ok e.2) ∧
        ∃ t, self'.buffers t = []) := by
  have hrest : restOf self pending s = record :: ps := by simp [restOf, hbuf, hps]
  have hmem : record ∈ records s := by
    obtain ⟨out, -, hmerge⟩ := h
    exact hmerge.mem_inputs (by simp [hrest])
  obtain ⟨k, hk, -⟩ := (hsorted s).keyable record hmem
  have hkself : self.key record = .ok k := by rw [horder, hk]
  obtain ⟨b, res, d', hrun, hres⟩ := run_drainOther accept hsorted c hact h hk (hkeyed s.other)
    hrest rfl
  have hdef : (self.drainRecord s record).run accept c d =
      .ok (self.endDrain s record k b res, c, d') := by
    simp only [drainRecord, hkself, Prog.lift_ok, Prog.done_bind]
    rw [horder, Prog.run_bind_ok hrun]
    rfl
  rcases hres with ⟨rfl, rfl, hact', hE⟩ | ⟨rfl, hsub, hact', hE⟩ | ⟨rfl, hR⟩
  · refine ⟨_, _, _, hdef, horder, rfl, rfl, .inl ⟨rfl, hact', ?_⟩, fun _ => ⟨fun t e he => ?_,
      s.other, by simp [push, setBuffer]⟩⟩
    · convert hE using 1
      funext t
      rcases s.eq_or_other t with rfl | rfl
      · simp [restOf, push, setBuffer, hbuf, hps]
      · simp [restOf, push, setBuffer]
    · rcases s.eq_or_other t with rfl | rfl
      · have : e = (record, k) := by simpa [push, setBuffer, hbuf] using he
        rw [this]
        exact hk
      · simp [push, setBuffer] at he
  · refine ⟨_, _, _, hdef, horder, rfl, rfl, .inl ⟨rfl, hact', ?_⟩, fun _ => ⟨fun t e he => ?_, s,
      by simp [setBuffer, hbuf]⟩⟩
    · convert hE using 1
      funext t
      rcases s.eq_or_other t with rfl | rfl <;> simp [restOf, setBuffer, hbuf]
    · rcases s.eq_or_other t with rfl | rfl
      · simp [setBuffer, hbuf] at he
      · exact hkeyed _ e (hsub (by simpa [setBuffer] using he))
  · exact ⟨_, _, _, hdef, horder, rfl, rfl, .inr ⟨rfl, hR⟩, fun h => by cases h⟩

end Drain

theorem bothEof_eq_false {self : MergeSorted} {s : Side} (h : self.eof s = false) :
    self.bothEof = false := by
  cases s <;> simp [bothEof, h]

theorem eof_of_bothEof {self : MergeSorted} (h : self.bothEof = true) (s : Side) :
    self.eof s = true := by
  simp only [bothEof, Bool.and_eq_true] at h
  cases s
  · exact h.1
  · exact h.2

/-- After `terminate`, the other side has ended or will be told to stop. -/
theorem terminate_delay (self : MergeSorted) (s : Side) :
    self.eof s.other = true ∨ (self.terminate s).delayDone = true := by
  cases h : self.eof s.other with
  | true => exact .inl rfl
  | false =>
      have hboth : ({ self with eof := Function.update self.eof s true } : MergeSorted).bothEof =
          false := bothEof_eq_false (show Function.update self.eof s true s.other = false by simpa)
      simp [terminate, hboth]

/-! ### The invariant of a schedule -/

namespace Feed

variable {order : MergeOrder} {accept : List (Option Record) → Bool}
  {records : Side → List Record}

/-- While the downstream accepts and not both inputs have ended. -/
structure Running (order : MergeOrder) (records : Side → List Record) (f : Feed)
    (pending : Side → List Record) : Prop where
  order_eq : f.self.toMergeOrder = order
  noDelay : f.self.delayDone = false
  active : f.down.active = true
  live : ∀ s, f.live s = !f.self.eof s
  input : ∀ s, f.input s = if f.self.eof s then [] else (pending s).map some ++ [none]
  ended : ∀ s, f.self.eof s = true → pending s = []
  notBoth : f.self.bothEof = false
  keyed : ∀ s, ∀ e ∈ f.self.buffers s, order.key e.1 = .ok e.2
  oneBuffer : ∃ s, f.self.buffers s = []
  emitted : Emitted order records f.down (restOf f.self pending)

/-- After both inputs have ended. -/
structure Finished (order : MergeOrder) (records : Side → List Record) (f : Feed) : Prop where
  live : ∀ s, f.live s = false
  input : ∀ s, f.input s = []
  buffers : ∀ s, f.self.buffers s = []
  merged : ∃ m, SortedMerge order.Ordered (records .left) (records .right) m ∧
    f.down.out = m.map some ++ [none]

/-- After the downstream refused a record: the side whose call met the refusal has been told to
stop, and the other one will be at its next call. -/
structure Stopped (order : MergeOrder) (accept : List (Option Record) → Bool)
    (records : Side → List Record) (f : Feed) : Prop where
  refused : Refused order accept records f.down
  delay : ∃ s, f.live s = false ∧ (f.live s.other = true → f.self.delayDone = true)

/-- **The invariant.** -/
def Inv (order : MergeOrder) (accept : List (Option Record) → Bool)
    (records : Side → List Record) (f : Feed) : Prop :=
  (∃ pending, Running order records f pending) ∨ Finished order records f ∨
    Stopped order accept records f

/-! ### One call -/

/-- A call of an input that has not been told to stop. -/
theorem step_of_run {f : Feed} {s : Side} {item : Option Record} {items : List (Option Record)}
    {self : MergeSorted} {cont : Bool} {c : Cell} {down : Prog.Downstream Record}
    (hlive : f.live s = true) (hinput : f.input s = item :: items)
    (hrun : (f.self.consume s item).run accept .unused f.down = .ok ((self, cont), c, down)) :
    f.step accept s = .ok {
      self, down
      input := Function.update f.input s items
      live := Function.update f.live s cont } := by
  simp only [step, hlive, if_true, hinput, hrun]
  rfl

/-- A refusal ends the call with `terminate`. -/
theorem Running.stop {f : Feed} {pending : Side → List Record} (h : Running order records f pending)
    {s : Side} {self : MergeSorted} {down : Prog.Downstream Record}
    {input : Side → List (Option Record)} (heof : self.eof s.other = f.self.eof s.other)
    (hR : Refused order accept records down) :
    Stopped order accept records
      { self := self.terminate s, down, input, live := Function.update f.live s false } where
  refused := hR
  delay := by
    refine ⟨s, by simp, fun hlive => ?_⟩
    have hlive : f.self.eof s.other = false := by simpa [h.live] using hlive
    rcases self.terminate_delay s with hs | hs
    · rw [heof, hlive] at hs
      cases hs
    · exact hs

/-- The end of one input. -/
theorem Running.step_eof (hsorted : ∀ s, order.Sorted (records s)) {f : Feed}
    {pending : Side → List Record} (h : Running order records f pending) {s : Side}
    (hlive : f.live s = true) (hs : pending s = []) :
    ∃ f', f.step accept s = .ok f' ∧ Inv order accept records f' := by
  have heof : f.self.eof s = false := by simpa [h.live] using hlive
  have hinput : f.input s = [none] := by simp [h.input, heof, hs]
  let self₁ : MergeSorted := { f.self with eof := Function.update f.self.eof s true }
  have hended : ∀ t, self₁.eof t = true → pending t = [] := by
    intro t ht
    rcases s.eq_or_other t with rfl | rfl
    · exact hs
    · exact h.ended _ (by simpa [self₁] using ht)
  obtain ⟨t, buffer, res, d', hrun, hd, hcont⟩ := run_drain accept hsorted .unused h.active
    (show Emitted order records f.down (restOf self₁ pending) from h.emitted) h.oneBuffer hended
  let self₂ := self₁.setBuffer t buffer
  have hconsume : (f.self.consume s none).run accept .unused f.down =
      (if res = .stopRequested then pure (self₂.terminate s, false)
        else if self₂.bothEof then do
          let _ ← Prog.send none
          pure (self₂.reset, false)
        else pure (self₂, false) : Body (MergeSorted × Bool)).run accept .unused d' := by
    unfold consume
    rw [if_neg (by simp [h.noDelay])]
    exact Prog.run_bind_ok hrun
  rcases hd with ⟨rfl, hact, hE⟩ | ⟨rfl, hR⟩
  · obtain ⟨hsub, hother, hdrained⟩ := hcont rfl
    simp only [reduceCtorEq, if_false] at hconsume
    cases hboth : self₂.bothEof with
    | true =>
        -- the last call: nothing is left on either side
        have hall : ∀ u, self₁.eof u = true := eof_of_bothEof hboth
        have hbuffers : ∀ u, self₂.buffers u = [] := by
          intro u
          rcases t.eq_or_other u with rfl | rfl
          · simp [self₂, setBuffer, hdrained (hall _)]
          · simpa [self₂, setBuffer] using hother
        simp only [hboth, if_true, Prog.send_bind, Prog.run_emit, Prog.pure_def,
          Prog.run_done] at hconsume
        refine ⟨_, step_of_run hlive hinput hconsume, .inr (.inl ⟨fun u => ?_, fun u => ?_,
          fun u => rfl, ?_⟩)⟩
        · rcases s.eq_or_other u with rfl | rfl
          · simp
          · have : f.self.eof s.other = true := by simpa [self₁] using hall s.other
            simp [h.live, this]
        · rcases s.eq_or_other u with rfl | rfl
          · simp
          · have : f.self.eof s.other = true := by simpa [self₁] using hall s.other
            simp [h.input, this]
        · obtain ⟨out, hout, hmerge⟩ := hE
          refine ⟨out, hmerge.finish fun u => ?_, ?_⟩
          · change restOf self₂ pending u = []
            simp [restOf, hbuffers, hended u (hall u)]
          · simp [Prog.Downstream.send_of_active hact, hout]
    | false =>
        simp only [hboth, Bool.false_eq_true, if_false, Prog.pure_def, Prog.run_done] at hconsume
        refine ⟨_, step_of_run hlive hinput hconsume, .inl ⟨pending, h.order_eq, h.noDelay, hact,
          fun u => ?_, fun u => ?_, hended, hboth, fun u e he => ?_, ⟨t.other, ?_⟩, hE⟩⟩
        · rcases s.eq_or_other u with rfl | rfl
          · simp [self₂, self₁, setBuffer]
          · simpa [self₂, self₁, setBuffer] using h.live s.other
        · rcases s.eq_or_other u with rfl | rfl
          · simp [self₂, self₁, setBuffer]
          · simpa [self₂, self₁, setBuffer] using h.input s.other
        · rcases t.eq_or_other u with rfl | rfl
          · exact h.keyed _ e (hsub (by simpa [self₂, setBuffer] using he))
          · exact h.keyed _ e (by simpa [self₂, setBuffer, self₁] using he)
        · simpa [self₂, setBuffer] using hother
  · simp only [if_true, Prog.pure_def, Prog.run_done] at hconsume
    exact ⟨_, step_of_run hlive hinput hconsume,
      .inr (.inr (h.stop (by simp [self₂, self₁, setBuffer]) hR))⟩

/-- What is left of the records when one of them is handed over. -/
theorem Running.input_cons {f : Feed} {pending : Side → List Record}
    (h : Running order records f pending) {s : Side} (hlive : f.live s = true) {record : Record}
    {ps : List Record} (hs : pending s = record :: ps) :
    f.input s = some record :: (ps.map some ++ [none]) := by
  have heof : f.self.eof s = false := by simpa [h.live] using hlive
  simp [h.input, heof, hs]

/-- The invariant after a call that handed over a record. -/
theorem Running.took {f : Feed} {pending : Side → List Record} (h : Running order records f pending)
    {s : Side} (hlive : f.live s = true) {ps : List Record} {self : MergeSorted}
    {down : Prog.Downstream Record} (horder : self.toMergeOrder = order)
    (heof : self.eof = f.self.eof) (hdelay : self.delayDone = f.self.delayDone)
    (hact : down.active = true)
    (hE : Emitted order records down (restOf self (Function.update pending s ps)))
    (hkeyed : ∀ t, ∀ e ∈ self.buffers t, order.key e.1 = .ok e.2)
    (hone : ∃ t, self.buffers t = []) :
    Running order records
      { self, down, input := Function.update f.input s (ps.map some ++ [none]),
        live := Function.update f.live s true } (Function.update pending s ps) where
  order_eq := horder
  noDelay := hdelay.trans h.noDelay
  active := hact
  live t := by
    rcases s.eq_or_other t with rfl | rfl
    · simpa [heof, h.live] using hlive.symm
    · simp [heof, h.live]
  input t := by
    have hs : f.self.eof s = false := by simpa [h.live] using hlive
    rcases s.eq_or_other t with rfl | rfl
    · simp [heof, hs]
    · simp [heof, h.input]
  ended t ht := by
    have hs : f.self.eof s = false := by simpa [h.live] using hlive
    rcases s.eq_or_other t with rfl | rfl
    · rw [heof, hs] at ht
      cases ht
    · simpa using h.ended _ (heof ▸ ht)
  notBoth := bothEof_eq_false (show self.eof s = false by rw [heof]; simpa [h.live] using hlive)
  keyed := hkeyed
  oneBuffer := hone
  emitted := hE

/-- A record of one input. -/
theorem Running.step_record (hsorted : ∀ s, order.Sorted (records s)) {f : Feed}
    {pending : Side → List Record} (h : Running order records f pending) {s : Side}
    (hlive : f.live s = true) {record : Record} {ps : List Record} (hs : pending s = record :: ps) :
    ∃ f', f.step accept s = .ok f' ∧ Inv order accept records f' := by
  have hinput := h.input_cons hlive hs
  have hmem : record ∈ records s := by
    obtain ⟨out, -, hmerge⟩ := h.emitted
    exact hmerge.mem_inputs (by simp [restOf, hs])
  obtain ⟨k, hk, -⟩ := (hsorted s).keyable record hmem
  have hkself : f.self.key record = .ok k := by rw [h.order_eq, hk]
  -- a buffered record takes the place of the one that was to come
  have hpushE : Emitted order records f.down
      (restOf (f.self.push s record k) (Function.update pending s ps)) := by
    convert h.emitted using 1
    funext t
    rcases s.eq_or_other t with rfl | rfl <;> simp [restOf, push, setBuffer, hs]
  have hpushKeyed : ∀ t, ∀ e ∈ (f.self.push s record k).buffers t, order.key e.1 = .ok e.2 := by
    intro t e he
    rcases s.eq_or_other t with rfl | rfl
    · have he : e ∈ f.self.buffers t ∨ e = (record, k) := by simpa [push, setBuffer] using he
      rcases he with he | rfl
      · exact h.keyed _ e he
      · exact hk
    · exact h.keyed _ e (by simpa [push, setBuffer] using he)
  by_cases hwait : f.self.shouldWait s.other = true
  · -- nothing to compare with yet
    have hother : f.self.buffers s.other = [] := by
      simp only [shouldWait, Bool.and_eq_true] at hwait
      simpa using hwait.2
    have hconsume : (f.self.consume s (some record)).run accept .unused f.down =
        .ok ((f.self.push s record k, true), .unused, f.down) := by
      simp [consume, h.noDelay, hwait, hkself]
    exact ⟨_, step_of_run hlive hinput hconsume, .inl ⟨_, h.took hlive h.order_eq rfl rfl h.active
      hpushE hpushKeyed ⟨s.other, by simpa [push, setBuffer] using hother⟩⟩⟩
  · by_cases hbuf : f.self.buffers s = []
    · obtain ⟨self', res, d', hrun, horder, heof, hdelay, hd, hkeep⟩ := run_drainRecord accept hsorted
        .unused h.active h.emitted h.order_eq h.keyed hbuf hs
      have hconsume : (f.self.consume s (some record)).run accept .unused f.down =
          (if res = .stopRequested then pure (self'.terminate s, false) else pure (self', true) :
            Body (MergeSorted × Bool)).run accept .unused d' := by
        simp only [consume, h.noDelay, hwait, hbuf, Bool.false_eq_true, if_false,
          List.isEmpty_nil, Bool.not_true]
        rw [Prog.run_bind_ok hrun]
      rcases hd with ⟨rfl, hact, hE⟩ | ⟨rfl, hR⟩
      · obtain ⟨hkeyed, hone⟩ := hkeep rfl
        simp only [reduceCtorEq, if_false, Prog.pure_def, Prog.run_done] at hconsume
        exact ⟨_, step_of_run hlive hinput hconsume,
          .inl ⟨_, h.took hlive horder heof hdelay hact hE hkeyed hone⟩⟩
      · simp only [if_true, Prog.pure_def, Prog.run_done] at hconsume
        exact ⟨_, step_of_run hlive hinput hconsume, .inr (.inr (h.stop (by rw [heof]) hR))⟩
    · -- this side is buffered already, so the other one has ended
      have hother : f.self.buffers s.other = [] := by
        obtain ⟨t, ht⟩ := h.oneBuffer
        rcases s.eq_or_other t with rfl | rfl
        · exact absurd ht hbuf
        · exact ht
      have heofo : f.self.eof s.other = true := by simpa [shouldWait, hother] using hwait
      obtain ⟨t, buffer, res, d', hrun, hd, hcont⟩ := run_drain accept hsorted .unused h.active
        hpushE ⟨s.other, by simpa [push, setBuffer] using hother⟩ (fun t ht => by
          rcases s.eq_or_other t with rfl | rfl
          · have : f.self.eof t = false := by simpa [h.live] using hlive
            rw [show (f.self.push t record k).eof t = f.self.eof t from rfl, this] at ht
            cases ht
          · simpa using h.ended _ ht)
      let self₂ := (f.self.push s record k).setBuffer t buffer
      have hconsume : (f.self.consume s (some record)).run accept .unused f.down =
          (if res = .continue then pure (self₂, true) else pure (self₂.terminate s, false) :
            Body (MergeSorted × Bool)).run accept .unused d' := by
        simp only [consume, h.noDelay, hwait, Bool.false_eq_true, if_false, hkself, Prog.lift_ok,
          Prog.done_bind]
        rw [if_pos (by simpa using hbuf), Prog.run_bind_ok hrun]
      rcases hd with ⟨rfl, hact, hE⟩ | ⟨rfl, hR⟩
      · obtain ⟨hsub, hto, -⟩ := hcont rfl
        simp only [if_true, Prog.pure_def, Prog.run_done] at hconsume
        refine ⟨_, step_of_run hlive hinput hconsume, .inl ⟨_, h.took hlive h.order_eq rfl rfl hact
          hE (fun u e he => ?_) ⟨t.other, by simpa [self₂, setBuffer] using hto⟩⟩⟩
        rcases t.eq_or_other u with rfl | rfl
        · exact hpushKeyed _ e (hsub (by simpa [self₂, setBuffer] using he))
        · exact hpushKeyed _ e (by simpa [self₂, setBuffer] using he)
      · simp only [reduceCtorEq, if_false, Prog.pure_def, Prog.run_done] at hconsume
        exact ⟨_, step_of_run hlive hinput hconsume, .inr (.inr (h.stop rfl hR))⟩

/-- After a refusal, a call sends nothing and is answered `false`. -/
theorem Stopped.step {f : Feed} (h : Stopped order accept records f) (s : Side) :
    ∃ f', f.step accept s = .ok f' ∧ Stopped order accept records f' ∧ f'.down = f.down ∧
      (f.live s = true → f.input s ≠ [] → f'.live s = false) := by
  cases hlive : f.live s with
  | false => exact ⟨f, by simp [Feed.step, hlive], h, rfl, by simp⟩
  | true =>
      cases hinput : f.input s with
      | nil => exact ⟨f, by simp [Feed.step, hlive, hinput], h, rfl, by simp⟩
      | cons item items =>
          obtain ⟨t, ht, hdelay⟩ := h.delay
          have hts : t = s.other := by
            rcases s.eq_or_other t with rfl | rfl
            · rw [hlive] at ht
              cases ht
            · rfl
          subst hts
          rw [Side.other_other] at hdelay
          have hconsume : (f.self.consume s item).run accept .unused f.down =
              .ok ((f.self.reset, false), .unused, f.down) := by
            simp [consume, hdelay hlive]
          refine ⟨_, step_of_run hlive hinput hconsume, ⟨h.refused, s, by simp, fun hlive' => ?_⟩,
            rfl, by simp⟩
          have : f.live s.other = true := by simpa using hlive'
          rw [ht] at this
          cases this

theorem Finished.step {f : Feed} (h : Finished order records f) (s : Side) :
    f.step accept s = .ok f := by
  simp [Feed.step, h.live s]

/-- **One call keeps the invariant.** -/
theorem Inv.step (hsorted : ∀ s, order.Sorted (records s)) {f : Feed}
    (h : Inv order accept records f) (s : Side) :
    ∃ f', f.step accept s = .ok f' ∧ Inv order accept records f' := by
  rcases h with ⟨pending, h⟩ | h | h
  · cases hlive : f.live s with
    | false =>
        exact ⟨f, by simp [Feed.step, hlive], .inl ⟨pending, h⟩⟩
    | true =>
        cases hs : pending s with
        | nil => exact h.step_eof hsorted hlive hs
        | cons record ps => exact h.step_record hsorted hlive hs
  · exact ⟨f, h.step s, .inr (.inl h)⟩
  · obtain ⟨f', hf', hstopped, -⟩ := h.step s
    exact ⟨f', hf', .inr (.inr hstopped)⟩

theorem inv_start (order : MergeOrder) (accept : List (Option Record) → Bool)
    (records : Side → List Record) : Inv order accept records (start order records) := by
  refine .inl ⟨records, rfl, rfl, rfl, fun s => rfl, fun s => rfl, ?_, rfl, ?_, ⟨.left, rfl⟩, [],
    rfl, ?_⟩
  · intro s h
    cases h
  · intro s e he
    cases he
  · have hrest : restOf (start order records).self records = records := by
      funext s
      simp [restOf, start, build]
    rw [hrest]
    exact PartialMerge.start _ _

/-- **Every schedule keeps the invariant.** -/
theorem Inv.run (hsorted : ∀ s, order.Sorted (records s)) {f : Feed}
    (h : Inv order accept records f) (schedule : List Side) :
    ∃ f', f.run accept schedule = .ok f' ∧ Inv order accept records f' := by
  induction schedule generalizing f with
  | nil => exact ⟨f, rfl, h⟩
  | cons s schedule ih =>
      obtain ⟨f₁, hstep, h₁⟩ := h.step hsorted s
      obtain ⟨f', hrun, h'⟩ := ih h₁
      exact ⟨f', by rw [Feed.run, hstep]; exact hrun, h'⟩

theorem Stopped.run {f : Feed} (h : Stopped order accept records f) {schedule : List Side}
    {f' : Feed} (hrun : f.run accept schedule = .ok f') : f'.down = f.down := by
  induction schedule generalizing f with
  | nil =>
      cases hrun
      rfl
  | cons s schedule ih =>
      obtain ⟨f₁, hstep, h₁, hdown, -⟩ := h.step s
      rw [Feed.run, hstep] at hrun
      rw [ih h₁ hrun, hdown]

/-! ### Correctness -/

/-- No record that the downstream was sent has been refused. -/
def NoRefusal (accept : List (Option Record) → Bool) (out : List (Option Record)) : Prop :=
  ∀ front r, front ++ [some r] <+: out → accept (front ++ [some r]) = true

/-- The last item that the downstream was sent is a record that it refused. -/
def RefusedLast (accept : List (Option Record) → Bool) (out : List (Option Record)) : Prop :=
  ∃ front r, out = front ++ [some r] ∧ accept out = false

/-- What the operator has done after some calls of its two inputs. -/
structure Correct (order : MergeOrder) (accept : List (Option Record) → Bool)
    (records : Side → List Record) (f : Feed) : Prop where
  /-- What was emitted is part of a merge of the two inputs and one end of the stream. -/
  merge : ∃ m, SortedMerge order.Ordered (records .left) (records .right) m ∧
    f.down.out <+: m.map some ++ [none]
  /-- The end is emitted only after both inputs have ended. -/
  eof : none ∈ f.down.out → ∀ s, f.input s = []
  /-- When both inputs have ended and no record was refused, all of a merge and one end of the
  stream were emitted and both buffers are empty. -/
  complete : (∀ s, f.input s = []) → NoRefusal accept f.down.out →
    (∃ m, SortedMerge order.Ordered (records .left) (records .right) m ∧
      f.down.out = m.map some ++ [none]) ∧ ∀ s, f.self.buffers s = []
  /-- After a refusal nothing is emitted any more. -/
  quiet : RefusedLast accept f.down.out →
    ∀ schedule f', f.run accept schedule = .ok f' → f'.down = f.down
  /-- After a refusal the next call of an input is answered `false`. -/
  stop : RefusedLast accept f.down.out → ∀ s f', f.step accept s = .ok f' →
    f.live s = true → f.input s ≠ [] → f'.live s = false

/-- A refused record is not taken for one that was accepted. -/
theorem Refused.not_noRefusal {d : Prog.Downstream Record}
    (h : Refused order accept records d) : ¬ NoRefusal accept d.out := by
  obtain ⟨r, out, -, hout, -⟩ := h.emitted
  intro hno
  have := hno (out.map some) r (by simp [hout])
  rw [show out.map some ++ [some r] = d.out by simp [hout], h.refused] at this
  cases this

theorem step_consistent {f f' : Feed} {s : Side} (h : f.step accept s = .ok f')
    (hd : f.down.Consistent accept) : f'.down.Consistent accept := by
  unfold Feed.step at h
  split at h
  · split at h
    · cases h
      exact hd
    · cases hrun : (f.self.consume s _).run accept .unused f.down with
      | error e =>
          rw [hrun] at h
          cases h
      | ok r =>
          rw [hrun] at h
          cases h
          exact Prog.run_consistent hrun hd
  · cases h
    exact hd

theorem run_consistent {f f' : Feed} {schedule : List Side} (h : f.run accept schedule = .ok f')
    (hd : f.down.Consistent accept) : f'.down.Consistent accept := by
  induction schedule generalizing f with
  | nil =>
      cases h
      exact hd
  | cons s schedule ih =>
      rw [Feed.run] at h
      cases hstep : f.step accept s with
      | error e =>
          rw [hstep] at h
          cases h
      | ok f₁ =>
          rw [hstep] at h
          exact ih h (step_consistent hstep hd)

theorem Running.correct (hsorted : ∀ s, order.Sorted (records s)) {f : Feed}
    {pending : Side → List Record} (h : Running order records f pending)
    (hd : f.down.Consistent accept) : Correct order accept records f := by
  obtain ⟨out, hout, hmerge⟩ := h.emitted
  have hno : ¬ RefusedLast accept f.down.out := by
    rintro ⟨front, r, hlast, hrefused⟩
    rw [← hd (by simp [hlast]), h.active] at hrefused
    cases hrefused
  refine ⟨?_, fun hnone => ?_, fun hall => ?_, fun hr => absurd hr hno, fun hr => absurd hr hno⟩
  · obtain ⟨m, hm, hpre⟩ := hmerge.complete order.orderedOn (fun s => (hsorted s).keyable)
      fun s => (hsorted s).pairwise
    exact ⟨m, hm, hout ▸ (hpre.map some).trans (List.prefix_append _ _)⟩
  · simp [hout] at hnone
  · exfalso
    cases hl : f.self.eof .left with
    | false =>
        have := hall .left
        simp [h.input, hl] at this
    | true =>
        cases hr : f.self.eof .right with
        | false =>
            have := hall .right
            simp [h.input, hr] at this
        | true =>
            have := h.notBoth
            simp [bothEof, hl, hr] at this

theorem Finished.correct {f : Feed} (h : Finished order records f) :
    Correct order accept records f := by
  obtain ⟨m, hm, hout⟩ := h.merged
  have hno : ¬ RefusedLast accept f.down.out := by
    rintro ⟨front, r, hlast, -⟩
    rw [hout] at hlast
    simpa using (List.append_inj' hlast rfl).2
  exact ⟨⟨m, hm, hout ▸ List.prefix_refl _⟩, fun _ => h.input, fun _ _ => ⟨⟨m, hm, hout⟩, h.buffers⟩,
    fun hr => absurd hr hno, fun hr => absurd hr hno⟩

theorem Stopped.correct (hsorted : ∀ s, order.Sorted (records s)) {f : Feed}
    (h : Stopped order accept records f) : Correct order accept records f := by
  obtain ⟨r, out, rest, hout, hmerge⟩ := h.refused.emitted
  refine ⟨?_, fun hnone => ?_, fun _ hno => absurd hno (Refused.not_noRefusal h.refused), fun _ _ _ hrun =>
    h.run hrun, fun _ s f' hstep hlive hinput => ?_⟩
  · obtain ⟨m, hm, hpre⟩ := hmerge.complete order.orderedOn (fun s => (hsorted s).keyable)
      fun s => (hsorted s).pairwise
    exact ⟨m, hm, hout ▸ (hpre.map some).trans (List.prefix_append _ _)⟩
  · rw [hout] at hnone
    simp at hnone
  · obtain ⟨f'', hstep', -, -, hstop⟩ := h.step s
    rw [hstep] at hstep'
    cases hstep'
    exact hstop hlive hinput

end Feed

/-- **Correctness under every schedule and every downstream.** For two inputs that are sorted by the
merge key and end, no order of their calls makes the operator fail, and after any number of calls
the operator has done what `Feed.Correct` says. -/
theorem mergeSorted_correct (order : MergeOrder) (records : Side → List Record)
    (hsorted : ∀ s, order.Sorted (records s)) (accept : List (Option Record) → Bool)
    (schedule : List Side) :
    ∃ f, (Feed.start order records).run accept schedule = .ok f ∧
      Feed.Correct order accept records f := by
  obtain ⟨f, hrun, hinv⟩ := (Feed.inv_start order accept records).run hsorted schedule
  refine ⟨f, hrun, ?_⟩
  rcases hinv with ⟨pending, h⟩ | h | h
  · exact h.correct hsorted
      (Feed.run_consistent hrun (Prog.Downstream.consistent_fresh accept))
  · exact h.correct
  · exact h.correct hsorted

/-- Two inputs whose keys alternate, called in turn. -/
theorem mergeSorted_correct_alternating :
    let order : MergeOrder := { sortKey := [.identifier 0 1 .integer], desc := false }
    let records : Side → List Record := fun
      | .left => [.vec [.integer 1], .vec [.integer 3]]
      | .right => [.vec [.integer 2]]
    ∃ f, (Feed.start order records).run (fun _ => true)
        [.left, .right, .left, .right, .left] = .ok f ∧
      Feed.Correct order (fun _ => true) records f := by
  refine mergeSorted_correct _ _ (fun s => ?_) _ _
  cases s with
  | left =>
      refine ⟨fun r hr => ?_, ?_⟩
      · simp only [List.mem_cons, List.not_mem_nil, or_false] at hr
        rcases hr with rfl | rfl <;> exact ⟨_, _, rfl, rfl, by decide⟩
      · refine List.pairwise_cons.mpr ⟨fun r hr => ?_, List.pairwise_singleton _ _⟩
        rw [List.mem_singleton.mp hr]
        exact ⟨_, _, rfl, rfl, by decide⟩
  | right =>
      refine ⟨fun r hr => ?_, List.pairwise_singleton _ _⟩
      rw [List.mem_singleton.mp hr]
      exact ⟨_, _, rfl, rfl, by decide⟩

end MergeSorted

end Lsql.Phys
