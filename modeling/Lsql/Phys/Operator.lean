import Lsql.Flow.Protocol
import Lsql.Phys.MergeSorted

/-!
# Lsql.Phys.Operator

The operators of a built program as one type, and what each of them keeps for the stream protocol.

Most operators have one input and the same duty: to answer `false` only when nothing waits for what
they would still send (`Answers`). The exceptions are the ones that count their inputs (`UnionAll`,
`MergeSorted`), the ones that nobody subscribes to, and `AggregateCollector`, of which the contract
also says what it has put into the state that its emitters read.
-/

namespace Lsql.Phys

open Lsql.Exec Flow

/-- An operator of a built program; the sources are threads, and have no input. -/
inductive Operator
  | source
  | limit (self : Limit)
  | filter (self : Filter)
  | projection (self : Projection)
  | unionAll (self : UnionAll)
  | mergeSorted (self : MergeSorted)
  | semiJoinBuild
  | semiJoinProbe (joinKey : Scalar)
  | markJoinBuild
  | markJoinProbe (joinKey : Scalar) (outputSlot : Nat)
  | leftJoinBuild (key : Scalar)
  | leftJoinProbe (key : Scalar) (leftColumns : Nat)
  | aggregateCollector (self : AggregateCollector)
  | materializeCollector
  | sort (self : SortOp)
  | topK (self : TopK)
  | group (self : Group)
  | consumerBridge (self : ConsumerBridge)

namespace Operator

/-- The number of inputs. -/
def ports : Operator → Nat
  | source => 0
  | unionAll self => self.inputs
  | mergeSorted _ => 2
  | _ => 1

/-- Whether the operator writes the state object that it shares. -/
def owner : Operator → Bool
  | semiJoinBuild | markJoinBuild | leftJoinBuild _ => true
  | aggregateCollector _ | materializeCollector => true
  | _ => false

/-- The side of a `MergeSorted` that an input feeds: `subLeft` or `subRight`. -/
def side : Nat → Side
  | 0 => .left
  | _ => .right

section Consume

variable [Platform] [Algorithms]

/-- `consume` of an input. -/
def consume : Operator → Nat → Option Record → Body (Operator × Bool)
  | source, _, _ => pure (source, false)
  | limit self, _, record => do
    let (self, cont) ← self.consume record
    pure (limit self, cont)
  | filter self, _, record => do
    let (self, cont) ← self.consume record
    pure (filter self, cont)
  | projection self, _, record => do
    let (self, cont) ← self.consume record
    pure (projection self, cont)
  | unionAll self, _, record => do
    let (self, cont) ← self.consume record
    pure (unionAll self, cont)
  | mergeSorted self, p, record => do
    let (self, cont) ← self.consume (side p) record
    pure (mergeSorted self, cont)
  | semiJoinBuild, _, record => do
    let cont ← HashSemiJoinBuild.consume record
    pure (semiJoinBuild, cont)
  | semiJoinProbe joinKey, _, record => do
    let cont ← HashSemiJoinProbe.consume joinKey record
    pure (semiJoinProbe joinKey, cont)
  | markJoinBuild, _, record => do
    let cont ← HashMarkJoinBuild.consume record
    pure (markJoinBuild, cont)
  | markJoinProbe joinKey outputSlot, _, record => do
    let cont ← HashMarkJoinProbe.consume joinKey outputSlot record
    pure (markJoinProbe joinKey outputSlot, cont)
  | leftJoinBuild key, _, record => do
    let cont ← HashLeftJoinBuild.consume key record
    pure (leftJoinBuild key, cont)
  | leftJoinProbe key leftColumns, _, record => do
    let cont ← HashLeftJoinProbe.consume key leftColumns record
    pure (leftJoinProbe key leftColumns, cont)
  | aggregateCollector self, _, record => do
    let (self, cont) ← self.consume record
    pure (aggregateCollector self, cont)
  | materializeCollector, _, record => do
    let cont ← MaterializeCollector.consume record
    pure (materializeCollector, cont)
  | sort self, _, record => do
    let (self, cont) ← self.consume record
    pure (sort self, cont)
  | topK self, _, record => do
    let (self, cont) ← self.consume record
    pure (topK self, cont)
  | group self, _, record => do
    let (self, cont) ← self.consume record
    pure (group self, cont)
  | consumerBridge self, _, record => do
    let (self, cont) ← self.consume record
    pure (consumerBridge self, cont)

end Consume

end Operator

/-! ### Operators of one input -/

/-- The duty of an operator of one input: it answers `false` to the end of the stream, and answers
`false` only when nothing waits for more. -/
def Answers (item : Option Record) (cont act : Bool) : Prop :=
  (item = none → cont = false) ∧ (cont = false → act = false)

theorem answers_active {record : Record} (act : Bool) : Answers (some record) act act :=
  ⟨nofun, id⟩

theorem answers_true {record : Record} {act : Bool} : Answers (some record) true act :=
  ⟨nofun, nofun⟩

theorem answers_gone {item : Option Record} : Answers item false false :=
  ⟨fun _ => rfl, fun _ => rfl⟩

section Answers

variable {owner : Bool} {d : Prog.Downstream Record} {c : Cell}

theorem Limit.consume_answers (self : Limit) (item : Option Record) :
    (self.consume item).Meets owner (fun r d' _ => Answers item r.2 d'.active) d c := by
  cases item with
  | none => simp [Limit.consume, answers_gone]
  | some record =>
      by_cases h : self.currLimit = 0
      · simp [Limit.consume, h, answers_gone]
      · simp only [Limit.consume, h, if_false, Prog.send_bind, Prog.meets_emit_some]
        intro act' _
        cases act' with
        | false => simp [answers_gone]
        | true =>
            by_cases h' : self.currLimit - 1 = 0
            · simp [h', answers_gone]
            · simp [h', answers_true]

theorem Filter.consume_answers (self : Filter) (item : Option Record) :
    (self.consume item).Meets owner (fun r d' _ => Answers item r.2 d'.active) d c := by
  cases item with
  | none => simp [Filter.consume, answers_gone]
  | some record =>
      simp only [Filter.consume, Prog.meets_bind, Prog.meets_lift]
      rintro ⟨holds, ctx⟩ _ c' _
      cases holds with
      | true => simp [answers_active]
      | false => simp [answers_active]

theorem Projection.consume_answers (self : Projection) (item : Option Record) :
    (self.consume item).Meets owner (fun r d' _ => Answers item r.2 d'.active) d c := by
  cases item with
  | none => simp [Projection.consume, answers_gone]
  | some record =>
      simp only [Projection.consume, Prog.meets_bind, Prog.meets_lift]
      rintro ⟨values, ctx⟩ _ c' _
      simp [answers_active]

theorem HashSemiJoinProbe.consume_answers (joinKey : Scalar) (item : Option Record) :
    (HashSemiJoinProbe.consume joinKey item).Meets owner
      (fun cont d' _ => Answers item cont d'.active) d c := by
  cases item with
  | none => simp [HashSemiJoinProbe.consume, Prog.send, answers_gone]
  | some record =>
      simp only [HashSemiJoinProbe.consume, Prog.read_bind, Prog.meets_load, Prog.meets_bind,
        Prog.meets_lift]
      intro c₁ _ values _ c₂ _
      by_cases hempty : values.isEmpty = true
      · simp [hempty, Prog.send, answers_gone]
      · simp only [hempty, Bool.false_eq_true, if_false, Prog.meets_bind, Prog.meets_lift]
        intro v _ c₃ _
        by_cases hv : containsValue values v = true
        · simp only [hv, if_true, Prog.send_bind, Prog.meets_emit_some]
          intro act' _
          cases act' <;> simp [answers_gone, answers_true]
        · simp only [hv, if_false, Bool.false_eq_true, Prog.isActive_bind, Prog.meets_active]
          cases hact : d.active <;> simp [hact, answers_gone, answers_true]

theorem HashMarkJoinProbe.consume_answers (joinKey : Scalar) (outputSlot : Nat)
    (item : Option Record) : (HashMarkJoinProbe.consume joinKey outputSlot item).Meets owner
      (fun cont d' _ => Answers item cont d'.active) d c := by
  cases item with
  | none => simp [HashMarkJoinProbe.consume, Prog.send, answers_gone]
  | some record =>
      simp only [HashMarkJoinProbe.consume, Prog.read_bind, Prog.meets_load, Prog.meets_bind,
        Prog.meets_lift]
      intro c₁ _ values _ c₂ _ v _ c₃ _ act' _ c₄ _
      cases act' <;> simp [answers_gone, answers_true]

theorem HashLeftJoinProbe.consume_answers (key : Scalar) (leftColumns : Nat)
    (item : Option Record) : (HashLeftJoinProbe.consume key leftColumns item).Meets owner
      (fun cont d' _ => Answers item cont d'.active) d c := by
  cases item with
  | none => simp [HashLeftJoinProbe.consume, Prog.send, answers_gone]
  | some record =>
      simp only [HashLeftJoinProbe.consume, Prog.read_bind, Prog.meets_load, Prog.meets_bind,
        Prog.meets_lift]
      intro v _ c₁ _ c₂ _ rows _ c₃ _
      cases findRows rows v with
      | none => simp [Prog.send, answers_active]
      | some matching =>
          by_cases hv : v.type = .null
          · simp [hv, Prog.send, answers_active]
          · simp only [hv, if_false]
            refine Prog.meets_sendAll _ (fun _ _ _ => answers_true) fun d' _ hd' _ => ?_
            rw [hd']
            exact answers_gone

theorem SortOp.consume_answers [Algorithms] (self : SortOp) (item : Option Record) :
    (self.consume item).Meets owner (fun r d' _ => Answers item r.2 d'.active) d c := by
  cases item with
  | none =>
      simp only [SortOp.consume, Prog.meets_bind]
      refine Prog.meets_sendAll _ (fun _ _ _ => ?_) fun d' _ hd' _ => ?_
      · simp [answers_gone]
      · simp [hd', answers_gone]
  | some record =>
      simp only [SortOp.consume, Prog.meets_bind, Prog.meets_lift]
      intro key _ c₁ _
      cases hact : d.active <;> simp [hact, answers_gone, answers_true]

theorem TopK.consume_answers [Algorithms] (self : TopK) (item : Option Record) :
    (self.consume item).Meets owner (fun r d' _ => Answers item r.2 d'.active) d c := by
  cases item with
  | none =>
      simp only [TopK.consume, Prog.meets_bind]
      refine Prog.meets_sendAll _ (fun _ _ _ => ?_) fun d' _ hd' _ => ?_
      · simp [answers_gone]
      · simp [hd', answers_gone]
  | some record =>
      simp only [TopK.consume, Prog.isActive_bind, Prog.meets_active]
      cases hact : d.active with
      | false => simp [hact, answers_gone]
      | true => simp [Prog.meets_bind, Prog.meets_lift, answers_true]

/-- The loop over the groups runs to its end, or no subscriber is left. -/
theorem Group.emitAll_meets [Platform] (groups : List GroupEntry) :
    (Group.emitAll groups).Meets owner (fun cont d' _ => cont = false → d'.active = false) d c := by
  induction groups generalizing d c with
  | nil => simp [Group.emitAll]
  | cons e es ih =>
      simp only [Group.emitAll, Prog.meets_bind, Prog.meets_lift]
      intro record _ c₁ _ act' _ c₂ _
      cases act' with
      | false => simp
      | true => exact ih

theorem Group.consume_answers [Platform] [Algorithms] (self : Group) (item : Option Record) :
    (self.consume item).Meets owner (fun r d' _ => Answers item r.2 d'.active) d c := by
  cases item with
  | none =>
      simp only [Group.consume, Prog.meets_bind]
      refine (emitAll_meets _).mono fun cont act' c' h => ?_
      cases cont with
      | false => simp [h rfl, answers_gone]
      | true => simp [answers_gone]
  | some record =>
      simp only [Group.consume, Prog.meets_bind, Prog.meets_lift]
      intro self' _ c₁ _
      cases hact : d.active <;> simp [hact, answers_gone, answers_true]

end Answers

/-! ### UnionAll -/

/-- The number of inputs that have answered `false`. -/
def closedInputs (inputs : Nat) (logs : Nat → List (Option Record × Bool)) : Nat :=
  (List.range inputs).countP fun p => refused (logs p)

theorem countP_range_set {f g : Nat → Bool} {p n : Nat} (hp : p < n) (hf : f p = false)
    (hg : g p = true) (hfg : ∀ q ≠ p, g q = f q) :
    (List.range n).countP g = (List.range n).countP f + 1 := by
  induction n with
  | zero => omega
  | succ n ih =>
      rw [List.range_succ, List.countP_append, List.countP_append]
      by_cases hpn : p = n
      · subst hpn
        have heq : (List.range p).countP g = (List.range p).countP f :=
          List.countP_congr fun q hq => by
            rw [hfg q (Nat.ne_of_lt (List.mem_range.mp hq))]
        simp [heq, hf, hg]
      · rw [ih (by omega)]
        simp only [List.countP_singleton, hfg n (Ne.symm hpn)]
        omega

/-- One more call: the input is counted if it answered `false`. -/
theorem closedInputs_call {inputs p : Nat} {logs : Nat → List (Option Record × Bool)}
    (hp : p < inputs) (hopen : Open (logs p)) (item : Option Record) (cont : Bool) :
    closedInputs inputs (Function.update logs p (logs p ++ [(item, cont)])) =
      if cont then closedInputs inputs logs else closedInputs inputs logs + 1 := by
  have hother : ∀ q ≠ p, refused (Function.update logs p (logs p ++ [(item, cont)]) q) =
      refused (logs q) := fun q hq => by rw [Function.update_of_ne hq]
  cases cont with
  | true =>
      refine List.countP_congr fun q _ => ?_
      by_cases hq : q = p
      · subst hq
        simp
      · rw [hother q hq]
  | false => exact countP_range_set hp hopen.refused (by simp) hother

/-- Until it has finished, `UnionAll` has counted the inputs that have ended and waits for one. -/
structure UnionAll.Counts (op : UnionAll) (logs : Nat → List (Option Record × Bool))
    (act : Bool) : Prop where
  finished : op.streamFinished = true → act = false
  counts : op.streamFinished = false → op.eofCount = closedInputs op.inputs logs ∧
    op.eofCount < op.inputs

theorem UnionAll.consume_counts {owner : Bool} {d : Prog.Downstream Record} {c : Cell}
    {self : UnionAll}
    {logs : Nat → List (Option Record × Bool)} {p : Nat} (item : Option Record)
    (h : self.Counts logs d.active) (hp : p < self.inputs) (hopen : Open (logs p)) :
    (self.consume item).Meets owner (fun r d' _ => (item = none → r.2 = false) ∧
      r.1.inputs = self.inputs ∧
      r.1.Counts (Function.update logs p (logs p ++ [(item, r.2)])) d'.active) d c := by
  unfold UnionAll.consume
  by_cases hfin : self.streamFinished = true
  · simp only [hfin, if_true, Prog.pure_def, Prog.meets_done]
    exact fun _ _ => ⟨fun _ => trivial, trivial, fun _ => h.finished hfin, by simp [hfin]⟩
  · have hfin : self.streamFinished = false := by simpa using hfin
    obtain ⟨hcount, hlt⟩ := h.counts hfin
    simp only [hfin, Bool.false_eq_true, if_false]
    cases item with
    | none =>
        by_cases hlast : self.eofCount + 1 = self.inputs
        · simp only [hlast, if_true, Prog.send_bind, Prog.meets_emit_none, Prog.pure_def,
            Prog.meets_done]
          exact fun _ _ => ⟨fun _ => trivial, trivial, fun _ => rfl, by simp⟩
        · simp only [hlast, if_false, Prog.pure_def, Prog.meets_done]
          refine fun _ _ => ⟨fun _ => trivial, trivial, by simp, fun _ => ⟨?_, ?_⟩⟩
          · simp [closedInputs_call hp hopen, hcount]
          · show self.eofCount + 1 < self.inputs
            omega
    | some record =>
        simp only [Prog.send_bind, Prog.meets_emit_some]
        intro act' _
        cases act' with
        | false =>
            simp only [Bool.not_false, if_true, Prog.pure_def, Prog.meets_done]
            exact fun _ _ => ⟨by simp, trivial, fun _ => rfl, by simp⟩
        | true =>
            simp only [Bool.not_true, Bool.false_eq_true, if_false, Prog.pure_def, Prog.meets_done]
            refine fun _ _ => ⟨by simp, trivial, by simp [hfin], fun _ => ⟨?_, hlt⟩⟩
            simp [closedInputs_call hp hopen, hcount]

/-! ### MergeSorted -/

/-- What draining leaves as it was; it stops only when no subscriber is left. -/
def MergeSorted.Drains (self self' : MergeSorted) (res : MergeSorted.DrainResult)
    (act : Bool) : Prop :=
  self'.delayDone = self.delayDone ∧ self'.eof = self.eof ∧
    (res = .stopRequested → act = false)

namespace MergeSorted

variable {owner : Bool} {d : Prog.Downstream Record} {c : Cell}

theorem drainBoth_meets (less : List Value → List Value → Bool) (lb rb : List Keyed) :
    (drainBoth less lb rb).Meets owner
      (fun r d' _ => r.2.2 = .stopRequested → d'.active = false) d c := by
  induction lb, rb using drainBoth.induct less generalizing d c with
  | case1 l lb r rb h ih =>
      rw [drainBoth]
      simp only [h, if_true, Prog.send_bind, Prog.meets_emit_some]
      intro act' _
      cases act' with
      | false => simp
      | true => exact ih
  | case2 l lb r rb h ih =>
      rw [drainBoth]
      simp only [h, if_false, Bool.false_eq_true, Prog.send_bind, Prog.meets_emit_some]
      intro act' _
      cases act' with
      | false => simp
      | true => exact ih
  | case3 lb rb h =>
      have : drainBoth less lb rb = pure (lb, rb, .continue) := by
        unfold drainBoth
        split
        · exact absurd rfl (h _ _ _ _ rfl)
        · rfl
      simp [this]

theorem drainList_meets (buffer : List Keyed) : (drainList buffer).Meets owner
    (fun r d' _ => r.2 = .stopRequested → d'.active = false) d c := by
  induction buffer generalizing d c with
  | nil => simp [drainList]
  | cons r rs ih =>
      simp only [drainList, Prog.send_bind, Prog.meets_emit_some]
      intro act' _
      cases act' with
      | false => simp
      | true => exact ih

theorem drainSide_meets (self : MergeSorted) (s : Side) : (self.drainSide s).Meets owner
    (fun r d' _ => self.Drains r.1 r.2 d'.active) d c := by
  simp only [drainSide, Prog.meets_bind]
  exact (drainList_meets _).mono fun r act' c' h => fun _ _ => ⟨rfl, rfl, h⟩

theorem drain_meets (self : MergeSorted) : self.drain.Meets owner
    (fun r d' _ => self.Drains r.1 r.2 d'.active) d c := by
  simp only [drain, Prog.meets_bind]
  refine (drainBoth_meets _ _ _).mono ?_
  rintro ⟨lb, rb, res⟩ act' c' h
  let self' := (self.setBuffer .left lb).setBuffer .right rb
  by_cases hres : res = .stopRequested
  · simp only [hres, if_true]
    exact fun _ _ => ⟨rfl, rfl, fun _ => h hres⟩
  · simp only [hres, if_false]
    split
    · exact drainSide_meets self' .left
    · split
      · exact drainSide_meets self' .right
      · exact fun _ _ => ⟨rfl, rfl, by simp⟩

theorem drainOther_meets (less : List Value → List Value → Bool) (record : Record)
    (k : List Value) (b : List Keyed) : (drainOther less record k b).Meets owner
      (fun r d' _ => r.2 = some .stopRequested → d'.active = false) d c := by
  induction b generalizing d c with
  | nil => simp [drainOther]
  | cons v b ih =>
      rw [drainOther]
      split
      · simp only [Prog.send_bind, Prog.meets_emit_some]
        intro act' _
        cases act' <;> simp
      · simp only [Prog.send_bind, Prog.meets_emit_some]
        intro act' _
        cases act' with
        | false => simp
        | true => exact ih

theorem drainRecord_meets (self : MergeSorted) (s : Side) (record : Record) :
    (self.drainRecord s record).Meets owner
      (fun r d' _ => self.Drains r.1 r.2 d'.active) d c := by
  simp only [drainRecord, Prog.meets_bind, Prog.meets_lift]
  intro k _ c₁ _
  refine (drainOther_meets _ _ _ _).mono ?_
  rintro ⟨b, res⟩ act' c' h
  cases res with
  | none => exact fun _ _ => ⟨rfl, rfl, fun hres => DrainResult.noConfusion hres⟩
  | some res => exact fun _ _ => ⟨rfl, rfl, fun hres => h (congrArg some hres)⟩

/-- What one call does: unless no subscriber is left, it takes a record, or notes the end of an
input of which it does not have both. -/
theorem consume_meets (self : MergeSorted) (s : Side) (item : Option Record) :
    (self.consume s item).Meets owner (fun r d' _ => (item = none → r.2 = false) ∧
      (self.delayDone = false → d'.active = false ∨ (r.2 = item.isSome ∧ r.1.delayDone = false ∧
        r.1.eof = (if item.isSome then self.eof else Function.update self.eof s true) ∧
        (self.bothEof = false → r.1.bothEof = false)))) d c := by
  unfold consume
  by_cases hdelay : self.delayDone = true
  · simp [hdelay]
  · have hdelay : self.delayDone = false := by simpa using hdelay
    simp only [hdelay, Bool.false_eq_true, if_false]
    cases item with
    | none =>
        simp only [Prog.meets_bind]
        refine (drain_meets _).mono ?_
        rintro ⟨self', res⟩ act' c' ⟨hd, heof, hstop⟩
        by_cases hres : res = .stopRequested
        · simp [hres, hstop hres]
        · simp only [hres, if_false]
          cases hboth : self'.bothEof with
          | true => simp
          | false => exact fun _ _ => ⟨fun _ => rfl, fun _ => .inr ⟨rfl, hd, heof, fun _ => hboth⟩⟩
    | some record =>
        have hsame : ∀ self' : MergeSorted, self'.eof = self.eof → self.bothEof = false →
            self'.bothEof = false := fun self' heof hboth => by simpa [bothEof, heof] using hboth
        by_cases hwait : self.shouldWait s.other = true
        · simp only [hwait, if_true, Prog.meets_bind, Prog.meets_lift]
          exact fun k _ c₁ _ c₂ _ => ⟨by simp, fun _ => .inr ⟨rfl, hdelay, rfl, hsame _ rfl⟩⟩
        · by_cases hbuffer : (!(self.buffers s).isEmpty) = true
          · simp only [hwait, hbuffer, if_true, if_false, Bool.false_eq_true, Prog.meets_bind,
              Prog.meets_lift]
            intro k _ c₁ _
            refine (drain_meets _).mono ?_
            rintro ⟨self', res⟩ act' c' ⟨hd, heof, hstop⟩
            cases res with
            | stopRequested => simp [hstop rfl]
            | «continue» =>
                exact fun _ _ =>
                  ⟨by simp, fun _ => .inr ⟨rfl, hd.trans hdelay, heof, hsame _ heof⟩⟩
          · simp only [hwait, hbuffer, if_false, Bool.false_eq_true, Prog.meets_bind]
            refine (drainRecord_meets _ _ _).mono ?_
            rintro ⟨self', res⟩ act' c' ⟨hd, heof, hstop⟩
            cases res with
            | stopRequested => simp [hstop rfl]
            | «continue» =>
                exact fun _ _ =>
                  ⟨by simp, fun _ => .inr ⟨rfl, hd.trans hdelay, heof, hsame _ heof⟩⟩

/-- While something waits for it, `MergeSorted` knows which of its inputs have ended, and waits for
one of them. -/
def Waits (self : MergeSorted) (logs : Nat → List (Option Record × Bool)) : Prop :=
  self.delayDone = false ∧ self.eof .left = refused (logs 0) ∧
    self.eof .right = refused (logs 1) ∧ self.bothEof = false

theorem consume_waits {self : MergeSorted} {logs : Nat → List (Option Record × Bool)} {p : Nat}
    (item : Option Record) (h : d.active = false ∨ self.Waits logs) (hp : p < 2)
    (hopen : Open (logs p)) : (self.consume (Operator.side p) item).Meets owner
      (fun r d' _ => (item = none → r.2 = false) ∧ (d'.active = false ∨
        r.1.Waits (Function.update logs p (logs p ++ [(item, r.2)])))) d c := by
  refine (consume_meets self (Operator.side p) item).active_mono.mono
    fun ⟨self', cont⟩ act' c' ⟨⟨hnone, hcall⟩, hact⟩ => ⟨hnone, ?_⟩
  rcases h with hgone | ⟨hdelay, hleft, hright, hboth⟩
  · exact .inl (by simpa [hgone] using hact)
  · refine (hcall hdelay).imp_right fun ⟨hcont, hd, heof, hb⟩ => ⟨hd, ?_, ?_, hb hboth⟩
    · rcases (by omega : p = 0 ∨ p = 1) with rfl | rfl <;> cases item <;>
        simp_all [Operator.side]
    · rcases (by omega : p = 0 ∨ p = 1) with rfl | rfl <;> cases item <;>
        simp_all [Operator.side]

end MergeSorted

/-! ### Aggregate -/

namespace AggregateCollector

variable [Platform]

/-- The aggregators after a sequence of records. -/
def feedAll (self : AggregateCollector) : List Record → Except Fault AggregateCollector
  | [] => .ok self
  | record :: records => do
    let (aggregators, ctx) ← Aggregator.feedAll record self.aggregators self.scalarContext.reset
    feedAll { aggregators := aggregators, scalarContext := ctx } records

/-- The aggregation of a sequence of records. -/
def aggregation (self : AggregateCollector) (records : List Record) :
    Except Fault (List Value) := do
  let self ← self.feedAll records
  self.aggregators.mapM Aggregator.get

theorem feedAll_snoc {self self' : AggregateCollector} {records : List Record} {record : Record}
    {aggregators : List Aggregator} {ctx : ScalarContext} (h : self.feedAll records = .ok self')
    (hfeed : Aggregator.feedAll record self'.aggregators self'.scalarContext.reset =
      .ok (aggregators, ctx)) : self.feedAll (records ++ [record]) = .ok ⟨aggregators, ctx⟩ := by
  induction records generalizing self with
  | nil =>
      cases h
      rw [List.nil_append, feedAll, hfeed]
      rfl
  | cons r rs ih =>
      rw [feedAll] at h
      rw [List.cons_append, feedAll]
      cases hr : Aggregator.feedAll r self.aggregators self.scalarContext.reset with
      | error e =>
          rw [hr] at h
          cases h
      | ok p =>
          rw [hr] at h
          exact ih h

end AggregateCollector

/-- The records that an input has been called with. -/
def recordsOf (log : List (Option Record × Bool)) : List Record := log.filterMap Prod.fst

@[simp] theorem recordsOf_snoc (log : List (Option Record × Bool)) (item : Option Record)
    (cont : Bool) : recordsOf (log ++ [(item, cont)]) = recordsOf log ++ item.toList := by
  cases item <;> simp [recordsOf]

/-- How a node was built: whether it is the collector of an aggregate or of a materialized relation,
which one, and whether anything waits for it. -/
structure CollectorStart where
  collects : Bool
  materializes : Bool
  collector : AggregateCollector
  waited : Bool

/-- The state of a collector: until it is done it has fed its aggregators with every record, and its
state object holds the aggregation if it saw the end of the stream, or else what it was built with.
It takes records if and only if something waits for it. -/
structure AggregateCollector.Collected [Platform] (start : CollectorStart) (op : AggregateCollector)
    (log : List (Option Record × Bool)) (d : Prog.Downstream Record) (c : Cell) : Prop where
  active : refused log = false → d.active = start.waited
  took : ∀ record cont, (some record, cont) ∈ log → cont = start.waited
  fed : refused log = false → start.collector.feedAll (recordsOf log) = .ok op
  ended : (none, false) ∈ log → ∃ values,
    start.collector.aggregation (recordsOf log) = .ok values ∧ c = .aggregate values ∧
      d.out <+: [some (.aggregate values), none]
  fresh : (none, false) ∉ log → c = .aggregate [] ∧ d.out = []

/-- What a collector leaves in its state depends on what it was called with, and on nothing else. -/
theorem AggregateCollector.Collected.cell_eq [Platform] {start : CollectorStart}
    {self self' : AggregateCollector} {log : List (Option Record × Bool)}
    {d d' : Prog.Downstream Record} {c c' : Cell} (h : Collected start self log d c)
    (h' : Collected start self' log d' c') : c = c' := by
  by_cases hend : (none, false) ∈ log
  · obtain ⟨values, hvalues, hc, -⟩ := h.ended hend
    obtain ⟨values', hvalues', hc', -⟩ := h'.ended hend
    rw [hvalues] at hvalues'
    rw [hc, hc', Except.ok.inj hvalues']
  · rw [(h.fresh hend).1, (h'.fresh hend).1]

theorem AggregateCollector.consume_collected [Platform] {start : CollectorStart}
    {self : AggregateCollector} {d : Prog.Downstream Record} {c : Cell}
    {log : List (Option Record × Bool)} (item : Option Record)
    (h : Collected start self log d c) (hopen : Open log) :
    (self.consume item).Meets true (fun r d' c' => Answers item r.2 d'.active ∧
      Collected start r.1 (log ++ [(item, r.2)]) d' c') d c := by
  have hnone : (none, false) ∉ log := fun hmem => (hopen _ hmem).1 rfl
  cases item with
  | none =>
      simp only [consume, Prog.meets_bind, Prog.meets_lift]
      intro values hvalues c₁ _
      have hdone : ∀ (r : AggregateCollector) (d' : Prog.Downstream Record),
          d'.out <+: [some (.aggregate values), none] →
          Collected start r (log ++ [(none, false)]) d' (.aggregate values) := fun r d' hout => {
        active := by simp
        took := fun record cont hmem => h.took record cont (by simpa using hmem)
        fed := by simp
        ended := fun _ =>
          ⟨values, by simpa [aggregation, h.fed hopen.refused] using hvalues, rfl, hout⟩
        fresh := by simp }
      have hfirst : ∀ act, (d.after (some (.aggregate values)) act).out <+:
          [some (Record.aggregate values), none] := fun act => by
        cases hact : d.active <;> simp [Prog.Downstream.after, hact, (h.fresh hnone).2]
      refine ⟨rfl, fun c₂ hc₂ act hact c₃ hc₃ => ?_⟩
      cases act with
      | false =>
          intro c₄ hc₄
          rw [hc₄ rfl, hc₃ rfl, hc₂ rfl]
          exact ⟨answers_gone, hdone _ _ (hfirst false)⟩
      | true =>
          intro c₄ hc₄
          rw [hc₄ rfl, hc₃ rfl, hc₂ rfl]
          refine ⟨answers_gone, hdone _ _ ?_⟩
          simp [Prog.Downstream.after, hact rfl, (h.fresh hnone).2]
  | some record =>
      simp only [consume, Prog.meets_bind, Prog.meets_lift]
      rintro ⟨aggregators, ctx⟩ hfeed c₁ hc₁ c₂ hc₂ c₃ hc₃
      rw [hc₃ rfl, hc₂ rfl, hc₁ trivial]
      have hact := h.active hopen.refused
      exact ⟨answers_active d.active, {
        active := fun _ => hact
        took := fun r cont hmem => by
          rcases List.mem_append.mp hmem with hmem | hmem
          · exact h.took r cont hmem
          · cases List.mem_singleton.mp hmem
            exact hact
        fed := fun _ => by simpa using feedAll_snoc (h.fed hopen.refused) hfeed
        ended := by simp [hnone]
        fresh := fun _ => h.fresh hnone }⟩

/-- The state of the collector of a materialized relation: it has taken every record, whoever waits
for it, and its state object holds them. What it has emitted is a first part of what it was called
with, and all of it as long as a subscriber is left. -/
structure MaterializeCollector.Collected (log : List (Option Record × Bool))
    (d : Prog.Downstream Record) (c : Cell) : Prop where
  took : ∀ record cont, (some record, cont) ∈ log → cont = true
  stored : c = .materialize (recordsOf log)
  sent : d.out <+: log.map Prod.fst
  live : d.active = true → d.out = log.map Prod.fst

theorem MaterializeCollector.consume_collected {d : Prog.Downstream Record} {c : Cell}
    {log : List (Option Record × Bool)} (item : Option Record) (h : Collected log d c) :
    (consume item).Meets true (fun cont d' c' => Answers item cont d'.active ∧
      Collected (log ++ [(item, cont)]) d' c') d c := by
  -- what is emitted while a subscriber is left is emitted next
  have hnext : ∀ (cont act : Bool), d.active = true →
      (d.after item act).out = (log ++ [(item, cont)]).map Prod.fst := by
    intro cont act hact
    rw [Prog.Downstream.after_out hact, h.live hact, List.map_append]
    rfl
  have hquiet : ∀ cont : Bool, d.out <+: (log ++ [(item, cont)]).map Prod.fst := by
    intro cont
    rw [List.map_append]
    exact h.sent.trans (List.prefix_append _ _)
  cases item with
  | none =>
      simp only [consume, Prog.isActive_bind, Prog.meets_active]
      have hdone : ∀ d' : Prog.Downstream Record, d'.active = false →
          d'.out <+: (log ++ [(none, false)]).map Prod.fst →
          Collected (log ++ [(none, false)]) d' c := fun d' hact hout => {
        took := fun record cont hmem => h.took record cont (by simpa using hmem)
        stored := by simpa using h.stored
        sent := hout
        live := fun hact' => absurd (hact.symm.trans hact') Bool.false_ne_true }
      cases hact : d.active with
      | false =>
          intro c₁ hc₁
          rw [hc₁ rfl, hact]
          exact ⟨answers_gone, hdone d hact (hquiet false)⟩
      | true =>
          intro c₁ hc₁
          rw [hc₁ rfl]
          exact ⟨answers_gone, hdone _ rfl (hnext false false hact ▸ List.prefix_rfl)⟩
  | some record =>
      simp only [consume, Prog.read_bind, Prog.meets_load, Prog.meets_bind, Prog.meets_lift]
      intro c₁ hc₁ records hrecords c₂ hc₂
      rw [hc₁ trivial, h.stored] at hrecords
      obtain rfl : recordsOf log = records := Except.ok.inj hrecords
      have htook : ∀ d' : Prog.Downstream Record,
          d'.out <+: (log ++ [(some record, true)]).map Prod.fst →
          (d'.active = true → d'.out = (log ++ [(some record, true)]).map Prod.fst) →
          Collected (log ++ [(some record, true)]) d' (.materialize (recordsOf log ++ [record])) :=
        fun d' hout hlive => {
          took := fun r cont hmem => by
            rcases List.mem_append.mp hmem with hmem | hmem
            · exact h.took r cont hmem
            · cases List.mem_singleton.mp hmem
              rfl
          stored := by simp
          sent := hout
          live := hlive }
      refine ⟨rfl, fun c₃ hc₃ c₄ hc₄ => ?_⟩
      rw [hc₄ rfl, hc₃ rfl]
      beta_reduce
      by_cases hact : d.active = true
      · rw [if_pos hact]
        intro act' _ c₅ hc₅
        rw [hc₅ rfl]
        have hout := hnext true act' hact
        exact ⟨answers_true, htook _ (hout ▸ List.prefix_rfl) fun _ => hout⟩
      · rw [if_neg hact]
        intro c₅ hc₅
        rw [hc₅ rfl]
        exact ⟨answers_true, htook d (hquiet true) fun hact' => absurd hact' hact⟩

/-! ### Operators without subscribers -/

section Answers

variable {d : Prog.Downstream Record} {c : Cell}

theorem HashSemiJoinBuild.consume_none (item : Option Record) :
    (HashSemiJoinBuild.consume item).Meets true (fun cont _ _ => item = none → cont = false)
      d c := by
  cases item <;> simp [HashSemiJoinBuild.consume, Prog.meets_bind, Prog.meets_lift]

theorem HashMarkJoinBuild.consume_none (item : Option Record) :
    (HashMarkJoinBuild.consume item).Meets true (fun cont _ _ => item = none → cont = false)
      d c := by
  cases item <;> simp [HashMarkJoinBuild.consume, Prog.meets_bind, Prog.meets_lift]

theorem HashLeftJoinBuild.consume_none (key : Scalar) (item : Option Record) :
    (HashLeftJoinBuild.consume key item).Meets true (fun cont _ _ => item = none → cont = false)
      d c := by
  cases item with
  | none => simp [HashLeftJoinBuild.consume]
  | some record =>
      simp only [HashLeftJoinBuild.consume, Prog.meets_bind, Prog.meets_lift]
      intro v _ c₁ _
      split <;> simp [Prog.meets_bind, Prog.meets_lift]

theorem ConsumerBridge.consume_none {owner : Bool} (self : ConsumerBridge)
    (item : Option Record) :
    (self.consume item).Meets owner (fun r _ _ => item = none → r.2 = false) d c := by
  cases item <;> simp [ConsumerBridge.consume, Prog.meets_bind, Prog.meets_lift]

end Answers

/-! ### The contract -/

namespace Operator

variable [Platform]

/-- Whether the operator is the collector of an aggregate. -/
def collects : Operator → Bool
  | aggregateCollector _ => true
  | _ => false

/-- Whether the operator is the collector of a materialized relation. -/
def materializes : Operator → Bool
  | materializeCollector => true
  | _ => false

/-- The invariant of the operator at node `i`; `start i` is the collector that was built there. -/
def Inv (start : Nat → CollectorStart) (i : Nat) (op : Operator)
    (logs : Nat → List (Option Record × Bool)) (d : Prog.Downstream Record) (c : Cell) : Prop :=
  (op.collects = (start i).collects ∧ op.materializes = (start i).materializes) ∧
  match op with
  | source => True
  | unionAll self => 0 < self.inputs → self.Counts logs d.active
  | mergeSorted self => d.active = false ∨ self.Waits logs
  | semiJoinBuild | markJoinBuild | leftJoinBuild _ | consumerBridge _ => d.active = false
  | aggregateCollector self =>
    (refused (logs 0) = true → d.active = false) ∧ self.Collected (start i) (logs 0) d c
  | materializeCollector =>
    (refused (logs 0) = true → d.active = false) ∧
      MaterializeCollector.Collected (logs 0) d c
  | _ => refused (logs 0) = true → d.active = false

omit [Platform] in
/-- Wrapping the new state of an operator. -/
theorem meets_wrap {σ : Type} {wrap : σ → Operator} {body : Body (σ × Bool)} {owner : Bool}
    {d : Prog.Downstream Record} {c : Cell}
    {Q : Operator × Bool → Prog.Downstream Record → Cell → Prop}
    (h : body.Meets owner (fun r d' c' => ∀ c'', (owner = true → c'' = c') →
      Q (wrap r.1, r.2) d' c'') d c) :
    (body >>= fun r => pure (wrap r.1, r.2) : Body (Operator × Bool)).Meets owner Q d c := by
  rw [Prog.meets_bind]
  exact h

omit [Platform] in
/-- The call of an operator whose own state does not change. -/
theorem meets_keep {op : Operator} {body : Body Bool} {owner : Bool}
    {d : Prog.Downstream Record} {c : Cell}
    {Q : Operator × Bool → Prog.Downstream Record → Cell → Prop}
    (h : body.Meets owner (fun cont d' c' => ∀ c'', (owner = true → c'' = c') →
      Q (op, cont) d' c'') d c) :
    (body >>= fun cont => pure (op, cont) : Body (Operator × Bool)).Meets owner Q d c := by
  rw [Prog.meets_bind]
  exact h

omit [Platform] in
/-- The call of an operator of one input. -/
theorem refused_call {logs : Nat → List (Option Record × Bool)} {item : Option Record}
    {cont act : Bool} (hopen : Open (logs 0)) (h : Answers item cont act) :
    refused (Function.update logs 0 (logs 0 ++ [(item, cont)]) 0) = true → act = false := by
  simpa [hopen.refused] using h.2

/-- What a call has to keep (`Contract.consume_meets`). -/
def Kept (start : Nat → CollectorStart) (i : Nat) (op : Operator)
    (logs : Nat → List (Option Record × Bool)) (p : Nat) (item : Option Record)
    (r : Operator × Bool) (d : Prog.Downstream Record) (c : Cell) : Prop :=
  (item = none → r.2 = false) ∧ r.1.ports = op.ports ∧ r.1.owner = op.owner ∧
    Inv start i r.1 (Function.update logs p (logs p ++ [(item, r.2)])) d c

theorem consume_kept [Algorithms] {start : Nat → CollectorStart} {i : Nat} {op : Operator}
    {logs : Nat → List (Option Record × Bool)} {d : Prog.Downstream Record} {c : Cell} {p : Nat}
    (item : Option Record) (h : Inv start i op logs d c) (hp : p < op.ports)
    (hopen : Open (logs p)) :
    (consume op p item).Meets op.owner (Kept start i op logs p item) d c := by
  have hone : ∀ {ports : Nat}, ports = 1 → p < ports → p = 0 := by omega
  have gone : ∀ {act act' : Bool}, act = false → (act' = true → act = true) → act' = false := by
    simp_all
  cases op with
  | source => exact absurd hp (Nat.not_lt_zero p)
  | limit self =>
      obtain rfl := hone rfl hp
      exact meets_wrap ((self.consume_answers item).mono fun r _ _ hr _ _ =>
        ⟨hr.1, rfl, rfl, h.1, refused_call hopen hr⟩)
  | filter self =>
      obtain rfl := hone rfl hp
      exact meets_wrap ((self.consume_answers item).mono fun r _ _ hr _ _ =>
        ⟨hr.1, rfl, rfl, h.1, refused_call hopen hr⟩)
  | projection self =>
      obtain rfl := hone rfl hp
      exact meets_wrap ((self.consume_answers item).mono fun r _ _ hr _ _ =>
        ⟨hr.1, rfl, rfl, h.1, refused_call hopen hr⟩)
  | unionAll self =>
      exact meets_wrap ((UnionAll.consume_counts item (h.2 (Nat.zero_lt_of_lt hp)) hp hopen).mono
        fun r _ _ ⟨hnone, hinputs, hcounts⟩ _ _ => ⟨hnone, hinputs, rfl, h.1, fun _ => hcounts⟩)
  | mergeSorted self =>
      exact meets_wrap ((MergeSorted.consume_waits item h.2 hp hopen).mono
        fun r _ _ ⟨hnone, hwaits⟩ _ _ => ⟨hnone, rfl, rfl, h.1, hwaits⟩)
  | semiJoinBuild =>
      exact meets_keep ((HashSemiJoinBuild.consume_none item).active_mono.mono
        fun _ _ _ ⟨hnone, hact⟩ _ _ => ⟨hnone, rfl, rfl, h.1, gone h.2 hact⟩)
  | semiJoinProbe joinKey =>
      obtain rfl := hone rfl hp
      exact meets_keep ((HashSemiJoinProbe.consume_answers joinKey item).mono fun _ _ _ hr _ _ =>
        ⟨hr.1, rfl, rfl, h.1, refused_call hopen hr⟩)
  | markJoinBuild =>
      exact meets_keep ((HashMarkJoinBuild.consume_none item).active_mono.mono
        fun _ _ _ ⟨hnone, hact⟩ _ _ => ⟨hnone, rfl, rfl, h.1, gone h.2 hact⟩)
  | markJoinProbe joinKey outputSlot =>
      obtain rfl := hone rfl hp
      exact meets_keep ((HashMarkJoinProbe.consume_answers joinKey outputSlot item).mono
        fun _ _ _ hr _ _ => ⟨hr.1, rfl, rfl, h.1, refused_call hopen hr⟩)
  | leftJoinBuild key =>
      exact meets_keep ((HashLeftJoinBuild.consume_none key item).active_mono.mono
        fun _ _ _ ⟨hnone, hact⟩ _ _ => ⟨hnone, rfl, rfl, h.1, gone h.2 hact⟩)
  | leftJoinProbe key leftColumns =>
      obtain rfl := hone rfl hp
      exact meets_keep ((HashLeftJoinProbe.consume_answers key leftColumns item).mono
        fun _ _ _ hr _ _ => ⟨hr.1, rfl, rfl, h.1, refused_call hopen hr⟩)
  | aggregateCollector self =>
      obtain rfl := hone rfl hp
      refine meets_wrap ((AggregateCollector.consume_collected item h.2.2 hopen).mono
        fun r _ _ ⟨hr, hcollected⟩ c'' hc => ⟨hr.1, rfl, rfl, h.1, refused_call hopen hr, ?_⟩)
      rw [hc rfl]
      simpa using hcollected
  | materializeCollector =>
      obtain rfl := hone rfl hp
      refine meets_keep ((MaterializeCollector.consume_collected item h.2.2).mono
        fun cont _ _ ⟨hr, hcollected⟩ c'' hc => ⟨hr.1, rfl, rfl, h.1, refused_call hopen hr, ?_⟩)
      rw [hc rfl]
      simpa using hcollected
  | sort self =>
      obtain rfl := hone rfl hp
      exact meets_wrap ((self.consume_answers item).mono fun r _ _ hr _ _ =>
        ⟨hr.1, rfl, rfl, h.1, refused_call hopen hr⟩)
  | topK self =>
      obtain rfl := hone rfl hp
      exact meets_wrap ((self.consume_answers item).mono fun r _ _ hr _ _ =>
        ⟨hr.1, rfl, rfl, h.1, refused_call hopen hr⟩)
  | group self =>
      obtain rfl := hone rfl hp
      exact meets_wrap ((self.consume_answers item).mono fun r _ _ hr _ _ =>
        ⟨hr.1, rfl, rfl, h.1, refused_call hopen hr⟩)
  | consumerBridge self =>
      exact meets_wrap ((self.consume_none item).active_mono.mono
        fun _ _ _ ⟨hnone, hact⟩ _ _ => ⟨hnone, rfl, rfl, h.1, gone h.2 hact⟩)

omit [Platform] in
theorem closedInputs_eq {inputs : Nat} {logs : Nat → List (Option Record × Bool)}
    (h : ∀ p < inputs, Closed (logs p)) : closedInputs inputs logs = inputs := by
  rw [closedInputs, List.countP_eq_length.mpr fun p hp => (h p (List.mem_range.mp hp)).refused,
    List.length_range]

/-- **The operators keep the stream protocol.** -/
def contract [Algorithms] (start : Nat → CollectorStart) : Contract consume where
  ports := ports
  owner := owner
  Inv := Inv start
  inv_cell {i op logs d c c'} howner h := by
    cases op <;> first | exact h | exact absurd howner (by simp [owner])
  inv_source {i op logs d d' c} hports h := by
    cases op with
    | source => exact h
    | unionAll self => exact ⟨h.1, fun hpos => absurd hports (Nat.ne_of_gt hpos)⟩
    | _ => exact absurd hports (by simp [ports])
  consume_meets item h hp hopen := consume_kept item h hp hopen
  finished {i op logs d c} h hpos hclosed := by
    have hrefused : 0 < op.ports → refused (logs 0) = true := fun h0 => (hclosed 0 h0).refused
    cases op with
    | source => exact absurd hpos (Nat.lt_irrefl 0)
    | unionAll self =>
        by_cases hfin : self.streamFinished = true
        · exact (h.2 hpos).finished hfin
        · have ⟨hcount, hlt⟩ := (h.2 hpos).counts (by simpa using hfin)
          have hall : closedInputs self.inputs logs = self.inputs := closedInputs_eq hclosed
          rw [hcount, hall] at hlt
          exact absurd hlt (Nat.lt_irrefl _)
    | mergeSorted self =>
        refine h.2.resolve_right fun ⟨_, hleft, hright, hboth⟩ => ?_
        rw [(hclosed 0 Nat.two_pos).refused] at hleft
        rw [(hclosed 1 Nat.one_lt_two).refused] at hright
        simp [MergeSorted.bothEof, hleft, hright] at hboth
    | aggregateCollector self => exact h.2.1 (hrefused hpos)
    | materializeCollector => exact h.2.1 (hrefused hpos)
    | semiJoinBuild | markJoinBuild => exact h.2
    | leftJoinBuild key => exact h.2
    | consumerBridge self => exact h.2
    | _ => exact h.2 (hrefused hpos)

end Operator

end Lsql.Phys
