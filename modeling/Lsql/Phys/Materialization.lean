import Lsql.Phys.Aggregation
import Lsql.Plan.Requests

/-!
# Lsql.Phys.Materialization

Materialized relations across phases (`back/exec/phys/ops/Materialize.h`).

The collector keeps every record of its source, whether or not anything waits for it in its own
phase, and never stops its source. In every later phase an emitter sends what the collector has kept,
and then the end of the stream, unless its readers stop before. The records have every field that is
required in any phase, since the planner asks the source for all of them at once.
-/

namespace Lsql.Phys

open Lsql.Exec Lsql.Plan Flow

/-! ### The collector -/

/-- A collector that is called no more has taken an ended stream. -/
theorem MaterializeCollector.Collected.whole {log : List (Option Record × Bool)}
    {d : Prog.Downstream Record} {c : Cell} (h : MaterializeCollector.Collected log d c)
    (hclosed : Closed log) :
    log = (recordsOf log).map (fun r => (some r, true)) ++ [(none, false)] := by
  obtain ⟨front, item, hopen, rfl⟩ := hclosed
  cases item with
  | some r => exact absurd (h.took r false (by simp)) Bool.false_ne_true
  | none =>
      rw [recordsOf_snoc, Option.toList_none, List.append_nil]
      congr 1
      clear h
      induction front with
      | nil => rfl
      | cons e front ih =>
          obtain ⟨hrecord, htook⟩ := hopen e List.mem_cons_self
          obtain ⟨item, cont⟩ := e
          obtain ⟨r, rfl⟩ := Option.ne_none_iff_exists'.mp hrecord
          obtain rfl : cont = true := htook
          have hrest := ih fun e he => hopen e (List.mem_cons_of_mem _ he)
          show (some r, true) :: front =
            (some r, true) :: (recordsOf front).map fun r => (some r, true)
          rw [← hrest]

namespace Builder

section Collector

variable [Platform] [Algorithms] {b : Builder} {st : Net.State Operator Fault Cell Record}
  {i minPhase source node : Nat} {phases : List Nat}

/-- What is known of a collector at any time. -/
theorem CollectorAt.materialized
    (h : b.CollectorAt i minPhase source phases (.materialize []) .materializeCollector node)
    (hr : Net.RunOk (Operator.contract b.start) b.layout st) :
    MaterializeCollector.Collected (st.net.log ⟨node, 0⟩) (st.net.downstream node)
      (st.net.cellOf node) := by
  have ⟨hkind, hinv⟩ := (hr.ok node (Nat.zero_le _)).1
  have hmaterializes : (b.start node).materializes = true := congrArg Operator.materializes h.op
  have hkind := hkind.2
  rw [hmaterializes] at hkind
  cases hop : st.net.op node with
  | materializeCollector =>
      rw [hop] at hinv
      exact hinv.2
  | _ =>
      rw [hop] at hkind
      cases hkind

/-- Once a collector's phase is over its state does not change. -/
theorem CollectorAt.materialized_fixed
    (h : b.CollectorAt i minPhase source phases (.materialize []) .materializeCollector node)
    (hok : b.Ok) : b.FixedAfter minPhase node := by
  intro st st' k hr hend hstep
  have hr' := hstep.runOk hr
  have hsame : st'.net.log ⟨node, 0⟩ = st.net.log ⟨node, 0⟩ :=
    (h.closed hr hok hend).eq_of_grows (hstep.grows _) (hr'.wellFormed _)
  rw [(h.materialized hr').stored, (h.materialized hr).stored, hsame]

end Collector

/-! ### The emitters -/

section Emitter

/-- What an emitter sends: the records that were kept, and the end of the stream. -/
def replayOf : Cell → List (Option Record)
  | .materialize records => records.map some ++ [none]
  | _ => []

/-- An emitter whose state stays as it is sends what was kept, or a first part of it. -/
theorem push_replays {records : List Record} {d : Prog.Downstream Record} (hout : d.out = []) :
    MaterializeEmitter.push.Meets true (fun _ d' _ => d'.out <+: records.map some ++ [none]) d
      (.materialize records) := by
  unfold MaterializeEmitter.push
  simp only [Prog.read_bind, Prog.meets_load, Prog.meets_bind, Prog.meets_lift]
  intro c₁ hc₁ records' hrecords c₂ _
  rw [hc₁ trivial] at hrecords
  obtain rfl : records = records' := Except.ok.inj hrecords
  refine (Prog.meets_sendAll_out records).mono fun cont d' c' h => ?_
  obtain ⟨hpre, hall⟩ := h
  rw [hout, List.nil_append] at hpre hall
  cases cont with
  | false =>
      intro c'' _
      exact hpre.trans (List.prefix_append _ _)
  | true =>
      intro c'' _
      show (if d'.active then d'.out ++ [none] else d'.out) <+: _
      rw [hall rfl]
      split
      · exact List.prefix_rfl
      · exact List.prefix_append _ _

end Emitter

/-! ### The replay -/

section Replay

variable [Platform] [Algorithms] {plan : Plan} {b : Builder}
  {st : Net.State Operator Fault Cell Record} {i source node : Nat} {op : Operation}

/-- A materialized relation that does what it is for: its source produced a stream, the collector took
all of it, and in every required phase that is over each reader got the same records and one end of
the stream, or a first part of this if it stopped. -/
structure Replayed (b : Builder) (i source node : Nat) (op : Operation)
    (st : Net.State Operator Fault Cell Record) (records : List Record) : Prop where
  produced : ∃ n, b.get source op.minPhase = .ok n ∧ st.net.sent n = records.map some ++ [none]
  consumed : st.net.log ⟨node, 0⟩ = records.map (fun r => (some r, true)) ++ [(none, false)]
  kept : st.net.cellOf node = .materialize records
  delivered : ∀ phase ∈ op.phases, b.EndedBefore st (phase + 1) →
    ∃ n, b.get i phase = .ok n ∧ ∀ t ∈ b.subs n,
      (st.net.log t).map Prod.fst <+: records.map some ++ [none] ∧
        ((∀ e ∈ st.net.log t, e.1 ≠ none → e.2 = true) →
          st.net.log t = records.map (fun r => (some r, true)) ++ [(none, false)])

/-- The records are replayed, whatever waits for the collector in its phase. -/
theorem materialize_replays [HashOrder] [Storage] (hprogram : program plan = .ok b)
    (hused : plan.Used i) (hop : plan.operations[i]? = some op)
    (hnode : op.node = .materialize source) :
    ∃ node, ∀ schedule st, b.execute schedule = .ok st → b.EndedBefore st (op.minPhase + 1) →
      ∃ records, b.Replayed i source node op st records := by
  have h := program_runs hprogram
  obtain ⟨node, hcol, hanswers⟩ := (h.halves hused hop).materialize source hnode
  obtain ⟨n, hget, hn⟩ := hcol.input
  have hwf := plan.wellFormed op (List.mem_of_getElem? hop)
  refine ⟨node, fun schedule st hrun hend => ?_⟩
  have hr := (execute_induction (P := fun _ => True) h.ok trivial (fun _ _ _ _ _ => trivial) hrun).1
  have hcollected := hcol.materialized hr
  have hlog := hcollected.whole (hcol.closed hr h.ok hend)
  generalize recordsOf (st.net.log ⟨node, 0⟩) = records at hlog
  have hitems : (st.net.log ⟨node, 0⟩).map Prod.fst = records.map some ++ [none] := by
    rw [hlog]
    simp [Function.comp_def]
  have hstored : st.net.cellOf node = .materialize records := by
    rw [hcollected.stored, recordsOf_eq hitems]
  have hheard := hr.heard hn (by rw [hitems]; exact List.mem_append_right _ List.mem_cons_self)
  refine ⟨records, ⟨n, hget, hheard.symm.trans hitems⟩, hlog, hstored, fun phase hphase hended => ?_⟩
  by_cases hne : phase = op.minPhase
  · -- the collector answers itself
    refine ⟨node, (hanswers phase hphase).1 hne, fun t ht => ?_⟩
    exact delivered_of_stream hr h.ok hcol.bounded (hcol.phase.trans hne.symm) hended
      (hitems ▸ hcollected.sent) ht
  · obtain ⟨s, hs, hsphase, hpush, hsget, hlt, hscell⟩ := (hanswers phase hphase).2 hne
    obtain ⟨k, hk⟩ := List.mem_iff_getElem?.mp hs
    have hbehind : op.minPhase < s.phase := by
      have := hwf.minPhase_le phase hphase
      omega
    have hsends : b.SendsAnswer MaterializeEmitter.push replayOf node := fun hr hout => by
      rw [(hcol.materialized hr).stored]
      exact push_replays hout
    obtain ⟨-, hreplays⟩ := answersFor_execute h.ok (hcol.materialized_fixed h.ok) hsends hk hbehind
      hpush hscell hrun
    obtain ⟨th, hth, -, hthend⟩ := hended k s hk (by omega)
    have hsent := hreplays.sent (fun a => by simp [MaterializeEmitter.push]) hth hthend
    rw [hstored] at hsent
    refine ⟨s.node, hsget, fun t ht => delivered_of_stream hr h.ok hlt ?_ hended hsent ht⟩
    exact (h.ok.sources s hs).2.2.1.trans hsphase

/-- **Materialized relations replay faithfully**: what the source produces in its first phase reaches
the readers in every phase, with all fields that are required in any of them. -/
theorem materialize_faithful [HashOrder] [Storage] (hplanned : Planned plan.operations)
    (hprogram : program plan = .ok b) (hused : plan.Used i) (hop : plan.operations[i]? = some op)
    (hnode : op.node = .materialize source) :
    ∃ src node, plan.operations[source]? = some src ∧ src.minPhase = op.minPhase ∧
      (∀ phase ∈ op.phases, op.minPhase ∈ src.phases ∧
        ∀ f ∈ fieldsAt op.requiredFields phase, f ∈ fieldsAt src.requiredFields op.minPhase) ∧
      ∀ schedule st, b.execute schedule = .ok st → b.EndedBefore st (op.minPhase + 1) →
        ∃ records, b.Replayed i source node op st records := by
  obtain ⟨src, hsrc, hphase, hfields⟩ := hplanned.materialize_requested hop hnode
  obtain ⟨node, hreplays⟩ := materialize_replays hprogram hused hop hnode
  exact ⟨src, node, hsrc, hphase, hfields, hreplays⟩

end Replay

end Builder

/-! ### A relation that is read in two phases -/

/-- `SELECT x FROM m WHERE x IN (SELECT x FROM m LIMIT 1)` over a materialized relation `m`: its first
reader stops at the first record, before the second reader gets any. -/
def sharedRelation : Plan where
  operations := [
    { node := .values [.integer 1, .integer 2, .integer 3], minPhase := 0, schema := .withField 1,
      requiredFields := [(0, .withField 1)] },
    { node := .materialize 0, minPhase := 0, schema := .withField 1,
      requiredFields := [(0, .withField 1), (1, .withField 1)] },
    { node := .limit 1 1, minPhase := 0, schema := .withField 1,
      requiredFields := [(0, .withField 1)] },
    { node := .hashSemiJoin 2 1 (.identifier 0 1 .integer) 1, minPhase := 1, schema := .withField 1,
      requiredFields := [(1, .withField 1)] }]
  topOperations := [3]
  fieldBinding := .empty
  acyclic i op h j hj := by
    match i, h with
    | 0, h | 1, h | 2, h | 3, h =>
      cases h
      simp [OperationNode.sources] at hj <;> omega
  wellFormed op h := by
    simp only [List.mem_cons, List.not_mem_nil, or_false] at h
    rcases h with rfl | rfl | rfl | rfl <;> exact ⟨by simp, by simp [Operation.phases]⟩

theorem planned_sharedRelation : @Planned .insertion sharedRelation.operations := by
  have hvalues := @Planned.operation .insertion []
    (.values [.integer 1, .integer 2, .integer 3]) (.withField 1) (@Planned.empty .insertion)
    (by simp [OperationNode.sources])
  have hmaterialize := @Planned.operation .insertion _ (.materialize 0) (.withField 1) hvalues
    (by simp [OperationNode.sources])
  have hlimit := @Planned.operation .insertion _ (.limit 1 1) (.withField 1) hmaterialize
    (by simp [OperationNode.sources])
  have hjoin := @Planned.operation .insertion _ (.hashSemiJoin 2 1 (.identifier 0 1 .integer) 1)
    (.withField 1) hlimit (by simp [OperationNode.sources])
  exact @Planned.query .insertion _ _ 3 hjoin rfl

theorem sharedRelation_builds :
    (@Builder.program .inert .insertion .empty sharedRelation).isOk = true := by
  rfl

theorem materialize_faithful_sharedRelation : ∃ b,
    @Builder.program .inert .insertion .empty sharedRelation = .ok b ∧
      ∃ op src node, sharedRelation.operations[1]? = some op ∧
        sharedRelation.operations[0]? = some src ∧ src.minPhase = op.minPhase ∧
        (∀ phase ∈ op.phases, op.minPhase ∈ src.phases ∧
          ∀ f ∈ fieldsAt op.requiredFields phase, f ∈ fieldsAt src.requiredFields op.minPhase) ∧
        ∀ schedule st, @Builder.execute .inert .plain b schedule = .ok st →
          b.EndedBefore st (op.minPhase + 1) →
            ∃ records, b.Replayed 1 0 node op st records := by
  obtain ⟨b, hb⟩ := exists_of_isOk sharedRelation_builds
  have hused : sharedRelation.Used 1 :=
    .source (show sharedRelation.Used 3 from .top (by decide)) rfl (by simp [OperationNode.sources])
  obtain ⟨src, node, hfaithful⟩ := @Builder.materialize_faithful .inert .plain sharedRelation b 1 0 _
    .insertion .empty planned_sharedRelation hb hused rfl rfl
  exact ⟨b, hb, _, src, node, rfl, hfaithful⟩

/-- What the readers of `sharedRelation` get when its two sources run one after another: the first one
record, the second all of them. -/
def sharedReplays : Bool :=
  match @Builder.program .inert .insertion .empty sharedRelation with
  | .error _ => false
  | .ok b =>
    match @Builder.execute .inert .plain b (List.replicate 6 0 ++ List.replicate 6 1) with
    | .error _ => false
    | .ok st =>
      let record (i : Int64) : Option Record := some (.value (.integer i))
      b.endedBefore st 2 && decide (st.net.log ⟨3, 0⟩ = [(record 1, false)]) &&
        decide (st.net.log ⟨5, 0⟩ =
          [(record 1, true), (record 2, true), (record 3, true), (none, false)])

example : sharedReplays = true := by
  decide +kernel

end Lsql.Phys
