import Lsql.Phys.Run

/-!
# Lsql.Phys.Aggregation

Global aggregation across phases (`back/exec/phys/ops/Aggregate.h`).

An aggregate collects its input in the first phase in which it can be read and answers in every
phase in which it is required. The collector stops as soon as nothing waits for it in its own phase,
so it depends on the plan whether the later phases are answered with the aggregation
(`aggregated_iff`).
-/

namespace Lsql.Phys

open Lsql.Exec Lsql.Plan Flow

namespace Builder

/-! ### Runs, phase by phase -/

section Execute

/-- Whether the sources of the phases before `phase` have ended. -/
def endedBefore (b : Builder) (st : Net.State Operator Fault Cell Record) (phase : Nat) : Bool :=
  (b.sources.zip st.threads).all fun e => e.2.ended || decide (phase ≤ e.1.phase)

variable [Platform] [Algorithms]

/-- An interaction of the `k`-th source, which pushes once the earlier phases are over. -/
def interact (b : Builder) (k : Nat) (st : Net.State Operator Fault Cell Record) :
    Except (Stop Fault) (Net.State Operator Fault Cell Record) :=
  match b.sources[k]? with
  | none => .ok st
  | some s => if b.endedBefore st s.phase then st.step b.deliver k else .ok st

/-- Interactions in the order of a schedule. -/
def executeFrom (b : Builder) : List Nat → Net.State Operator Fault Cell Record →
    Except (Stop Fault) (Net.State Operator Fault Cell Record)
  | [], st => .ok st
  | k :: ks, st => do
    let st ← b.interact k st
    executeFrom b ks st

/-- `run`: the phases in turn. -/
def execute (b : Builder) (schedule : List Nat) :
    Except (Stop Fault) (Net.State Operator Fault Cell Record) :=
  b.executeFrom schedule b.initial

variable {b : Builder} {st : Net.State Operator Fault Cell Record}

/-- The induction along a run: what holds at first and is kept by the interactions of a source whose
turn it is holds in every state. -/
theorem execute_induction {P : Net.State Operator Fault Cell Record → Prop} (hok : b.Ok)
    (hfirst : P b.initial)
    (hstep : ∀ {st st' k s}, Net.RunOk (Operator.contract b.start) b.layout st → P st →
      b.sources[k]? = some s → b.endedBefore st s.phase = true →
      Net.Stepped (Operator.contract b.start) b.layout k st st' → P st')
    {schedule : List Nat} (hrun : b.execute schedule = .ok st) :
    Net.RunOk (Operator.contract b.start) b.layout st ∧ P st := by
  suffices h : ∀ {st₀}, Net.RunOk (Operator.contract b.start) b.layout st₀ → P st₀ →
      b.executeFrom schedule st₀ = .ok st →
      Net.RunOk (Operator.contract b.start) b.layout st ∧ P st from h hok.initial hfirst hrun
  clear hrun
  induction schedule with
  | nil =>
      intro st₀ hr hP hrun
      cases hrun
      exact ⟨hr, hP⟩
  | cons k ks ih =>
      intro st₀ hr hP hrun
      obtain ⟨st₁, hinteract, hrun⟩ := bind_eq_ok.mp hrun
      unfold interact at hinteract
      split at hinteract
      · cases hinteract
        exact ih hr hP hrun
      next s hs =>
        split at hinteract
        next hready =>
          have hstepped := (Net.step_stepped hok.sound hr).of_ok hinteract
          exact ih (hstepped.runOk hr) (hstep hr hP hs hready hstepped) hrun
        next =>
          cases hinteract
          exact ih hr hP hrun

/-- The sources of the earlier phases have ended. -/
def EndedBefore (b : Builder) (st : Net.State Operator Fault Cell Record) (phase : Nat) : Prop :=
  ∀ (k : Nat) (s : Source), b.sources[k]? = some s → s.phase < phase →
    ∃ th : Net.Thread Fault Cell Record,
      st.threads[k]? = some th ∧ th.node = s.node ∧ th.ended = true

/-- The threads of a run are the sources of the program. -/
def SameSources (b : Builder) (st : Net.State Operator Fault Cell Record) : Prop :=
  st.threads.map Net.Thread.node = b.sources.map Source.node

omit [Platform] [Algorithms] in
theorem SameSources.thread (h : b.SameSources st) {k : Nat} {s : Source}
    (hs : b.sources[k]? = some s) : ∃ th, st.threads[k]? = some th ∧ th.node = s.node := by
  have hmap : (st.threads.map Net.Thread.node)[k]? = some s.node := by
    rw [h, List.getElem?_map, hs]
    rfl
  rw [List.getElem?_map] at hmap
  exact Option.map_eq_some_iff.mp hmap

omit [Platform] [Algorithms] in
theorem SameSources.endedBefore (h : b.SameSources st) {phase : Nat} :
    b.endedBefore st phase = true ↔ b.EndedBefore st phase := by
  unfold Builder.endedBefore
  rw [List.all_eq_true]
  constructor
  · intro hall k s hs hlt
    obtain ⟨th, hth, hnode⟩ := h.thread hs
    have hmem : (s, th) ∈ b.sources.zip st.threads :=
      List.mem_of_getElem? (List.getElem?_zip_eq_some.mpr ⟨hs, hth⟩)
    refine ⟨th, hth, hnode, ?_⟩
    simpa [Nat.not_le.mpr hlt] using hall _ hmem
  · rintro hall ⟨s, th⟩ hmem
    obtain ⟨k, hk⟩ := List.mem_iff_getElem?.mp hmem
    have ⟨hs, hth⟩ := List.getElem?_zip_eq_some.mp hk
    by_cases hlt : s.phase < phase
    · obtain ⟨th', hth', -, hend⟩ := hall k s hs hlt
      have : th = th' := Option.some.inj (hth.symm.trans hth')
      simp [this, hend]
    · simp [Nat.not_lt.mp hlt]

theorem EndedBefore.step {st' : Net.State Operator Fault Cell Record} {k phase : Nat}
    (h : b.EndedBefore st phase) (hsame : b.SameSources st')
    (hstep : Net.Stepped (Operator.contract b.start) b.layout k st st') :
    b.EndedBefore st' phase := fun k s hs hlt => by
  obtain ⟨th, hth, -, hend⟩ := h k s hs hlt
  obtain ⟨th', hth', hend'⟩ := hstep.ended hth hend
  obtain ⟨th'', hth'', hnode⟩ := hsame.thread hs
  cases Option.some.inj (hth'.symm.trans hth'')
  exact ⟨th', hth', hnode, hend'⟩

omit [Platform] [Algorithms] in
theorem EndedBefore.mono {phase phase' : Nat} (h : b.EndedBefore st phase') (hle : phase ≤ phase') :
    b.EndedBefore st phase := fun k s hs hlt =>
  h k s hs (Nat.lt_of_lt_of_le hlt hle)

omit [Platform] [Algorithms] in
/-- The nodes that feed a node belong to its phase. -/
theorem Ok.feeds_phase (hok : b.Ok) {k i : Nat} (h : b.layout.Feeds k i) :
    b.phase k = b.phase i ∧ k ≤ i := by
  induction h with
  | refl => exact ⟨rfl, Nat.le_refl _⟩
  | step ht _ ih =>
      have hlt := hok.forward ht
      exact ⟨(hok.samePhase ht).symm.trans ih.1, Nat.le_trans (Nat.le_of_lt hlt) ih.2⟩

omit [Platform] [Algorithms] in
/-- The sources below a node have ended when its phase is over. -/
theorem EndedBefore.sources {phase : Nat} (h : b.EndedBefore st phase) (hok : b.Ok) {i : Nat}
    (hi : i < b.size) (hphase : b.phase i < phase) : Net.SourcesEnded b.layout st i := by
  intro k hfeeds hports
  have ⟨hsame, hle⟩ := hok.feeds_phase hfeeds
  have hk : k < b.size := Nat.lt_of_le_of_lt hle hi
  obtain ⟨s, hs, rfl⟩ := hok.sources_all k hk (Operator.source_of_ports (hok.fresh k) hports)
  obtain ⟨m, hm⟩ := List.mem_iff_getElem?.mp hs
  have hsphase : s.phase < phase := by
    rw [← (hok.sources s hs).2.2.1, hsame]
    exact hphase
  obtain ⟨th, hth, hnode, hend⟩ := h m s hm hsphase
  exact ⟨th, List.mem_of_getElem? hth, hnode, hend⟩

/-- Nothing waits for a node whose phase is over. -/
theorem EndedBefore.drained {phase : Nat} (h : b.EndedBefore st phase)
    (hr : Net.RunOk (Operator.contract b.start) b.layout st) (hok : b.Ok) {i : Nat}
    (hi : i < b.size) (hphase : b.phase i < phase) : st.net.subs i = [] :=
  hr.drained hok.sound hok.layout_connected i hi (h.sources hok hi hphase)

end Execute

/-! ### The collector -/

section Collector

variable [Platform] [Algorithms] {b : Builder} {st : Net.State Operator Fault Cell Record}
  {i minPhase source node : Nat} {phases : List Nat} {collector : AggregateCollector}

/-- What is known of a collector at any time. -/
theorem CollectorAt.collected
    (h : b.CollectorAt i minPhase source phases (.aggregate []) (.aggregateCollector collector) node)
    (hr : Net.RunOk (Operator.contract b.start) b.layout st) :
    ∃ self, AggregateCollector.Collected (b.start node) self (st.net.log ⟨node, 0⟩)
      (st.net.downstream node) (st.net.cellOf node) := by
  have ⟨hkind, hinv⟩ := (hr.ok node (Nat.zero_le _)).1
  have hcollects : (b.start node).collects = true := congrArg Operator.collects h.op
  rw [hcollects] at hkind
  have hkind := hkind.1
  cases hop : st.net.op node with
  | aggregateCollector self =>
      rw [hop] at hinv
      exact ⟨self, hinv.2⟩
  | _ =>
      rw [hop] at hkind
      cases hkind

/-- A collector is called no more once its phase is over. -/
theorem CollectorAt.closed {state : Cell} {op : Operator}
    (h : b.CollectorAt i minPhase source phases state op node)
    (hr : Net.RunOk (Operator.contract b.start) b.layout st) (hok : b.Ok)
    (hend : b.EndedBefore st (minPhase + 1)) : Closed (st.net.log ⟨node, 0⟩) := by
  obtain ⟨n, hget, hmem⟩ := h.input
  have hphase : b.phase n < minPhase + 1 := by
    rw [← hok.samePhase hmem, h.phase]
    exact Nat.lt_succ_self _
  have hnil := hend.drained hr hok (Nat.lt_trans (hok.forward hmem) h.bounded) hphase
  rcases hr.follows.left hmem with hin | hclosed
  · rw [hnil] at hin
    cases hin
  · exact hclosed

/-- Once a collector's phase is over its state does not change. -/
theorem CollectorAt.cell_step
    (h : b.CollectorAt i minPhase source phases (.aggregate []) (.aggregateCollector collector) node)
    {st' : Net.State Operator Fault Cell Record} {k : Nat}
    (hr : Net.RunOk (Operator.contract b.start) b.layout st) (hok : b.Ok)
    (hend : b.EndedBefore st (minPhase + 1))
    (hstep : Net.Stepped (Operator.contract b.start) b.layout k st st') :
    st'.net.cellOf node = st.net.cellOf node := by
  have hr' := hstep.runOk hr
  have hsame : st'.net.log ⟨node, 0⟩ = st.net.log ⟨node, 0⟩ :=
    (h.closed hr hok hend).eq_of_grows (hstep.grows _) (hr'.wellFormed _)
  obtain ⟨self, hcol⟩ := h.collected hr
  obtain ⟨self', hcol'⟩ := h.collected hr'
  rw [hsame] at hcol'
  exact hcol'.cell_eq hcol

end Collector

/-! ### Sources that answer for a collector -/

section Answering

variable [Platform] [Algorithms] {b : Builder} {st : Net.State Operator Fault Cell Record}
  {minPhase node : Nat} {push : Body Unit} {answerOf : Cell → List (Option Record)}

/-- A source that answers with what a collector has left in its state: it has not begun, or it will
have sent a first part of the answer. -/
def AnswersFor (b : Builder) (push : Body Unit) (answerOf : Cell → List (Option Record))
    (minPhase node k : Nat) (s : Source) (st : Net.State Operator Fault Cell Record) : Prop :=
  ∃ th, st.threads[k]? = some th ∧ th.node = s.node ∧
    (th.body = push ∧ st.net.sent s.node = [] ∨
      b.EndedBefore st (minPhase + 1) ∧
        th.body.Meets true (fun _ d _ => d.out <+: answerOf (st.net.cellOf node))
          (st.net.downstream s.node) (st.net.cellOf node))

/-- The state of a collector is fixed once its phase is over. -/
def FixedAfter (b : Builder) (minPhase node : Nat) : Prop :=
  ∀ {st st' : Net.State Operator Fault Cell Record} {k : Nat},
    Net.RunOk (Operator.contract b.start) b.layout st → b.EndedBefore st (minPhase + 1) →
    Net.Stepped (Operator.contract b.start) b.layout k st st' →
    st'.net.cellOf node = st.net.cellOf node

/-- A source that finds the state of a collector sends the answer, or a first part of it. -/
def SendsAnswer (b : Builder) (push : Body Unit) (answerOf : Cell → List (Option Record))
    (node : Nat) : Prop :=
  ∀ {st : Net.State Operator Fault Cell Record} {d : Prog.Downstream Record},
    Net.RunOk (Operator.contract b.start) b.layout st → d.out = [] →
    push.Meets true (fun _ d' _ => d'.out <+: answerOf (st.net.cellOf node)) d
      (st.net.cellOf node)

/-- An interaction of any source. The phase of an emitter begins when that of its collector is over,
and from then on the state that they share is fixed. -/
theorem AnswersFor.step (hfixed : b.FixedAfter minPhase node)
    (hpush : b.SendsAnswer push answerOf node) {k m : Nat} {s s' : Source}
    (hs : b.sources[k]? = some s) (hs' : b.sources[m]? = some s') (hlt : minPhase < s.phase)
    (hcell : b.cell s.node = b.cell node) {st' : Net.State Operator Fault Cell Record}
    (hr : Net.RunOk (Operator.contract b.start) b.layout st) (hsame : b.SameSources st)
    (hready : b.endedBefore st s'.phase = true)
    (hstep : Net.Stepped (Operator.contract b.start) b.layout m st st')
    (h : b.AnswersFor push answerOf minPhase node k s st) :
    b.AnswersFor push answerOf minPhase node k s st' := by
  obtain ⟨th, hth, hnode, hstate⟩ := h
  have hsame' : b.SameSources st' := hstep.nodes.trans hsame
  have hcellOf : ∀ {st : Net.State Operator Fault Cell Record},
      Net.RunOk (Operator.contract b.start) b.layout st →
      st.net.cellOf s.node = st.net.cellOf node := fun hr => by
    unfold Net.cellOf
    rw [hr.follows.cell]
    exact congrArg _ hcell
  by_cases hmk : k = m
  · -- the emitter itself; the sources before it have ended
    subst hmk
    cases Option.some.inj (hs.symm.trans hs')
    have hbefore : b.EndedBefore st (minPhase + 1) := (hsame.endedBefore.mp hready).mono hlt
    have hmeets : th.body.Meets true (fun _ d _ => d.out <+: answerOf (st.net.cellOf node))
        (st.net.downstream s.node) (st.net.cellOf node) := by
      rcases hstate with ⟨hbody, hsent⟩ | ⟨-, hmeets⟩
      · rw [hbody]
        exact hpush hr hsent
      · exact hmeets
    have hstay := hfixed hr hbefore hstep
    have hr' := hstep.runOk hr
    have hbefore' := hbefore.step hsame' hstep
    cases hstep with
    | idle hnone =>
        rw [hth] at hnone
        cases hnone
    | @thread th₀ th' net' hth₀ hpost =>
        cases Option.some.inj (hth.symm.trans hth₀)
        have hmeets' := hpost.meets (by rw [hnode, hcellOf hr]; exact hmeets) fun _ => by
          rw [hnode, hcellOf hr']
          exact hstay.trans (hcellOf hr).symm
        rw [hnode, hcellOf hr', hstay] at hmeets'
        refine ⟨th', by simp [(List.getElem?_eq_some_iff.mp hth).1], hpost.node.trans hnode,
          .inr ⟨hbefore', ?_⟩⟩
        rw [hstay]
        exact hmeets'
  · -- another source
    have ⟨hth', hdown⟩ := hstep.other hr hmk hth
    rw [hnode] at hdown
    refine ⟨th, hth', hnode, hstate.imp (fun ⟨hbody, hsent⟩ => ⟨hbody, ?_⟩)
      fun ⟨hbefore, hmeets⟩ => ⟨hbefore.step hsame' hstep, ?_⟩⟩
    · exact (congrArg Prog.Downstream.out hdown).trans hsent
    · rw [hdown, hfixed hr hbefore hstep]
      exact hmeets

/-- Such a source, at any time of a run. -/
theorem answersFor_execute (hok : b.Ok) (hfixed : b.FixedAfter minPhase node)
    (hpush : b.SendsAnswer push answerOf node) {k : Nat} {s : Source}
    (hs : b.sources[k]? = some s) (hlt : minPhase < s.phase) (hspush : s.push = push)
    (hcell : b.cell s.node = b.cell node) {schedule : List Nat}
    (hrun : b.execute schedule = .ok st) :
    b.SameSources st ∧ b.AnswersFor push answerOf minPhase node k s st := by
  refine (execute_induction
    (P := fun st => b.SameSources st ∧ b.AnswersFor push answerOf minPhase node k s st) hok ⟨?_, ?_⟩
    (fun hr ⟨hsame, hanswers⟩ hs' hready hstep => ⟨hstep.nodes.trans hsame,
      hanswers.step hfixed hpush hs hs' hlt hcell hr hsame hready hstep⟩) hrun).2
  · simp [SameSources, Builder.initial, Function.comp_def]
  · exact ⟨⟨s.node, s.push⟩, by simp [Builder.initial, hs], rfl, .inl ⟨hspush, rfl⟩⟩

omit [Platform] [Algorithms] in
/-- A source that has ended has sent a first part of the answer. -/
theorem AnswersFor.sent {k : Nat} {s : Source} (h : b.AnswersFor push answerOf minPhase node k s st)
    (hpush : ∀ a, push ≠ .done a) {th : Net.Thread Fault Cell Record}
    (hth : st.threads[k]? = some th) (hend : th.ended = true) :
    st.net.sent s.node <+: answerOf (st.net.cellOf node) := by
  obtain ⟨th', hth', hnode, hstate⟩ := h
  cases Option.some.inj (hth.symm.trans hth')
  unfold Net.Thread.ended at hend
  split at hend
  next a hbody =>
    rcases hstate with ⟨hbody', -⟩ | ⟨-, hmeets⟩
    · exact absurd (hbody'.symm.trans hbody) (hpush a)
    · rw [hbody] at hmeets
      exact hmeets _ fun _ => rfl
  · cases hend

end Answering

/-! ### The emitters -/

section Emitter

/-- The answer of an aggregate: one record, and the end of the stream. -/
def answer (values : List Value) : List (Option Record) := [some (.aggregate values), none]

/-- An emitter whose state stays as it is sends the answer, or a first part of it. -/
theorem push_meets {values : List Value} {d : Prog.Downstream Record} (hout : d.out = []) :
    AggregateEmitter.push.Meets true (fun _ d' _ => d'.out <+: answer values) d
      (.aggregate values) := by
  unfold AggregateEmitter.push answer
  simp only [Prog.isActive_bind, Prog.meets_active]
  split
  next hact =>
    simp only [Prog.read_bind, Prog.meets_load, Prog.meets_bind, Prog.meets_lift]
    intro c₁ hc₁ values' hvalues c₂ _ act _ c₃ _
    rw [hc₁ trivial] at hvalues
    cases hvalues
    have hafter : (d.after (some (.aggregate values)) act).out = [some (.aggregate values)] := by
      rw [Prog.Downstream.after_out hact, hout, List.nil_append]
    cases act with
    | false =>
        intro c₄ _
        rw [hafter]
        exact ⟨[none], rfl⟩
    | true =>
        intro c₄ _
        rw [Prog.Downstream.after_out rfl, hafter]
        exact List.prefix_rfl
  next =>
    intro c' _
    rw [hout]
    exact List.nil_prefix

variable [Platform] [Algorithms] {b : Builder} {st : Net.State Operator Fault Cell Record}
  {i minPhase source node : Nat} {phases : List Nat} {collector : AggregateCollector}

/-- An emitter: it has not begun, or it will have sent a first part of the answer that its collector
left. -/
def EmitterOk (b : Builder) (minPhase node k : Nat) (s : Source)
    (st : Net.State Operator Fault Cell Record) : Prop :=
  ∃ th, st.threads[k]? = some th ∧ th.node = s.node ∧
    (th.body = AggregateEmitter.push ∧ st.net.sent s.node = [] ∨
      b.EndedBefore st (minPhase + 1) ∧ ∃ values, st.net.cellOf node = .aggregate values ∧
        th.body.Meets true (fun _ d _ => d.out <+: answer values) (st.net.downstream s.node)
          (.aggregate values))

/-- The state of a collector holds the values of an aggregate. -/
theorem CollectorAt.cell_aggregate
    (h : b.CollectorAt i minPhase source phases (.aggregate []) (.aggregateCollector collector) node)
    (hr : Net.RunOk (Operator.contract b.start) b.layout st) :
    ∃ values, st.net.cellOf node = .aggregate values := by
  obtain ⟨self, hcol⟩ := h.collected hr
  by_cases hend : (none, false) ∈ st.net.log ⟨node, 0⟩
  · obtain ⟨values, -, hc, -⟩ := hcol.ended hend
    exact ⟨values, hc⟩
  · exact ⟨[], (hcol.fresh hend).1⟩

/-- The answer that the state of a collector gives. -/
def answerOf : Cell → List (Option Record)
  | .aggregate values => answer values
  | _ => []

/-- An emitter answers for its collector. -/
theorem emitterOk_iff
    (hcol : b.CollectorAt i minPhase source phases (.aggregate []) (.aggregateCollector collector)
      node) (hr : Net.RunOk (Operator.contract b.start) b.layout st) {k : Nat} {s : Source} :
    b.EmitterOk minPhase node k s st ↔
      b.AnswersFor AggregateEmitter.push answerOf minPhase node k s st := by
  obtain ⟨values, hvalues⟩ := hcol.cell_aggregate hr
  unfold EmitterOk AnswersFor
  rw [hvalues]
  refine exists_congr fun th => and_congr_right fun _ => and_congr_right fun _ =>
    or_congr_right (and_congr_right fun _ => ?_)
  constructor
  · rintro ⟨values', hvalues', hmeets⟩
    cases hvalues'
    exact hmeets
  · exact fun hmeets => ⟨values, rfl, hmeets⟩

omit [Platform] [Algorithms] in
/-- An emitter that has ended has sent a first part of the answer that its collector left. -/
theorem EmitterOk.sent {k : Nat} {s : Source} (h : b.EmitterOk minPhase node k s st)
    {th : Net.Thread Fault Cell Record} (hth : st.threads[k]? = some th) (hend : th.ended = true) :
    ∃ values, st.net.cellOf node = .aggregate values ∧ st.net.sent s.node <+: answer values := by
  obtain ⟨th', hth', hnode, hstate⟩ := h
  cases Option.some.inj (hth.symm.trans hth')
  unfold Net.Thread.ended at hend
  split at hend
  next a hbody =>
    rcases hstate with ⟨hpush, -⟩ | ⟨-, values, hvalues, hmeets⟩
    · rw [hbody] at hpush
      cases hpush
    · rw [hbody] at hmeets
      exact ⟨values, hvalues, hmeets _ fun _ => rfl⟩
  · cases hend

end Emitter

/-! ### The aggregation -/

section Aggregation

variable [Platform] [Algorithms] {plan : Plan} {b : Builder}
  {st : Net.State Operator Fault Cell Record} {i source node : Nat} {op : Operation}
  {collector : AggregateCollector}

/-- An aggregate that does what it is for: its collector consumed all that the source produced in
the aggregate's first phase, and in every required phase that is over each reader got one record,
the aggregation, and the end of the stream, or a first part of this if it stopped. -/
structure Aggregated (b : Builder) (i source node : Nat) (op : Operation)
    (collector : AggregateCollector) (st : Net.State Operator Fault Cell Record)
    (records : List Record) (values : List Value) : Prop where
  produced : ∃ n, b.get source op.minPhase = .ok n ∧ st.net.sent n = records.map some ++ [none]
  consumed : (st.net.log ⟨node, 0⟩).map Prod.fst = records.map some ++ [none]
  finalised : st.net.cellOf node = .aggregate values
  aggregation : collector.aggregation records = .ok values
  delivered : ∀ phase ∈ op.phases, b.EndedBefore st (phase + 1) →
    ∃ n, b.get i phase = .ok n ∧ ∀ t ∈ b.subs n,
      (st.net.log t).map Prod.fst <+: answer values ∧
        ((∀ e ∈ st.net.log t, e.1 ≠ none → e.2 = true) →
          st.net.log t = [(some (.aggregate values), true), (none, false)])

omit [Platform] [Algorithms] in
/-- An ended stream that is a first part of another one is all of it. -/
theorem eq_of_whole {records records' : List Record}
    (h : records.map some ++ [none] <+: records'.map some ++ [none]) : records = records' := by
  induction records generalizing records' with
  | nil =>
      cases records' with
      | nil => rfl
      | cons r rs => simp at h
  | cons r rs ih =>
      cases records' with
      | nil => simp at h
      | cons r' rs' =>
          simp only [List.map_cons, List.cons_append, List.cons_prefix_cons, Option.some.injEq] at h
          rw [h.1, ih h.2]

omit [Platform] [Algorithms] in
theorem recordsOf_eq {log : List (Option Record × Bool)} {records : List Record}
    (h : log.map Prod.fst = records.map some ++ [none]) : recordsOf log = records := by
  have : recordsOf log = (log.map Prod.fst).filterMap id := by
    simp [recordsOf, List.filterMap_map]
  rw [this, h]
  simp

/-- The readers of a node that sent a first part of a stream, after its phase. -/
theorem delivered_of_stream {records : List Record} {n phase : Nat}
    (hr : Net.RunOk (Operator.contract b.start) b.layout st) (hok : b.Ok) (hn : n < b.size)
    (hphase : b.phase n = phase) (hend : b.EndedBefore st (phase + 1))
    (hsent : st.net.sent n <+: records.map some ++ [none]) {t : Port} (ht : t ∈ b.subs n) :
    (st.net.log t).map Prod.fst <+: records.map some ++ [none] ∧
      ((∀ e ∈ st.net.log t, e.1 ≠ none → e.2 = true) →
        st.net.log t = records.map (fun r => (some r, true)) ++ [(none, false)]) := by
  have hpre := ((hr.ok n (Nat.zero_le n)).2.isPrefix t ht).trans hsent
  refine ⟨hpre, fun htakes => ?_⟩
  obtain ⟨records', hlog⟩ := hr.eof hok.sound hok.layout_connected ht
    (hend.sources hok hn (hphase ▸ Nat.lt_succ_self _)) htakes
  have hwhole : records'.map some ++ [none] <+: records.map some ++ [none] := by
    simpa [hlog, Function.comp_def] using hpre
  rw [hlog, eq_of_whole hwhole]

omit [Platform] [Algorithms] in
/-- What the collector of an aggregate waits for. -/
theorem Runs.waited_iff (h : Runs plan b) (hop : plan.operations[i]? = some op)
    (hcol : b.CollectorAt i op.minPhase source op.phases (.aggregate [])
      (.aggregateCollector collector) node)
    (hanswers : ∀ phase ∈ op.phases,
      b.AnswersAt i op.minPhase node (b.cell node) AggregateEmitter.push phase) :
    (b.start node).waited = true ↔ plan.ReadAt i op.minPhase := by
  have hwaited : (b.start node).waited = true ↔ b.subs node ≠ [] := by
    simp [Builder.start, Net.active, Builder.net]
  rw [hwaited]
  by_cases hphase : op.minPhase ∈ op.phases
  · exact h.waited ((hanswers _ hphase).1 rfl) hop hphase
  · refine iff_of_false (fun hne => ?_) ?_
    · obtain ⟨t, ht⟩ := List.exists_mem_of_ne_nil _ hne
      obtain ⟨j, phase, hget⟩ := h.entries ht
      exact hphase (hcol.head _ (get_mem hget) rfl).2
    · rintro ⟨⟨op', hop', hphase'⟩, -⟩
      cases Option.some.inj (hop.symm.trans hop')
      exact hphase hphase'

/-- A collector is called with the end of the stream unless it refuses a record before. -/
theorem CollectorAt.ended_iff
    (hcol : b.CollectorAt i op.minPhase source op.phases (.aggregate [])
      (.aggregateCollector collector) node)
    (hr : Net.RunOk (Operator.contract b.start) b.layout st) (hok : b.Ok)
    (hend : b.EndedBefore st (op.minPhase + 1)) {n : Nat} (hn : ⟨node, 0⟩ ∈ b.subs n) :
    (none, false) ∈ st.net.log ⟨node, 0⟩ ↔
      (b.start node).waited = true ∨ ∀ r, some r ∉ st.net.sent n := by
  obtain ⟨self, hcollected⟩ := hcol.collected hr
  obtain ⟨front, item, hopen, hlog⟩ := hcol.closed hr hok hend
  constructor
  · intro hmem
    have hitem : item = none := by
      rw [hlog] at hmem
      rcases List.mem_append.mp hmem with hmem | hmem
      · exact absurd rfl (hopen _ hmem).1
      · exact (congrArg Prod.fst (List.mem_singleton.mp hmem)).symm
    -- all that was sent has been heard
    have hheard := hr.heard hn (List.mem_map.mpr ⟨_, hmem, rfl⟩)
    rw [or_iff_not_imp_left]
    intro hwaited r hr'
    rw [← hheard, hlog] at hr'
    obtain ⟨⟨item', cont⟩, he, hitem'⟩ := List.mem_map.mp hr'
    cases hitem'
    rcases List.mem_append.mp he with he | he
    · have htook := hcollected.took r cont (by simp [hlog, he])
      exact hwaited (htook.symm.trans (hopen _ he).2)
    · have := congrArg Prod.fst (List.mem_singleton.mp he)
      rw [hitem] at this
      cases this
  · intro hcase
    cases item with
    | none => simp [hlog]
    | some r =>
        rcases hcase with hwaited | hnone
        · have htook := hcollected.took r false (by simp [hlog])
          rw [hwaited] at htook
          cases htook
        · refine absurd ?_ (hnone r)
          refine ((hr.ok n (Nat.zero_le n)).2.isPrefix _ hn).subset ?_
          simp [hlog]

/-- The emitters of an aggregate, at any time. -/
theorem emitter_ok {plan : Plan} (h : Runs plan b) (hwf : op.WellFormed)
    (hcol : b.CollectorAt i op.minPhase source op.phases (.aggregate [])
      (.aggregateCollector collector) node) {phase k : Nat} {s : Source}
    (hphase : phase ∈ op.phases) (hne : phase ≠ op.minPhase) (hs : b.sources[k]? = some s)
    (hsphase : s.phase = phase) (hpush : s.push = AggregateEmitter.push)
    (hcell : b.cell s.node = b.cell node) {schedule : List Nat}
    (hrun : b.execute schedule = .ok st) :
    b.SameSources st ∧ b.EmitterOk op.minPhase node k s st := by
  have hlt : op.minPhase < s.phase := by
    have := hwf.minPhase_le phase hphase
    omega
  have hr := (execute_induction (P := fun _ => True) h.ok trivial (fun _ _ _ _ _ => trivial) hrun).1
  rw [emitterOk_iff hcol hr]
  refine answersFor_execute h.ok (fun hr hend hstep => hcol.cell_step hr h.ok hend hstep)
    (fun hr hout => ?_) hs hlt hpush hcell hrun
  obtain ⟨values, hvalues⟩ := hcol.cell_aggregate hr
  rw [hvalues]
  exact push_meets hout

/-- **Global aggregation across phases.** When the first phase of an aggregate is over, it does what
it is for if and only if its output is read in that phase, or its source produced no record. -/
theorem aggregated_iff [HashOrder] [Storage] (hprogram : program plan = .ok b)
    (hused : plan.Used i) (hop : plan.operations[i]? = some op)
    {aggregates : List AggregateProjector} {ctx : ScalarContext}
    (hnode : op.node = .aggregate source aggregates ctx) :
    ∃ node n, b.get source op.minPhase = .ok n ∧ ⟨node, 0⟩ ∈ b.subs n ∧
      ∀ schedule st, b.execute schedule = .ok st → b.EndedBefore st (op.minPhase + 1) →
        ((∃ records values,
            b.Aggregated i source node op (collectorOf aggregates ctx) st records values) ↔
          plan.ReadAt i op.minPhase ∨ ∀ r, some r ∉ st.net.sent n) := by
  have h := program_runs hprogram
  obtain ⟨node, hcol, hanswers⟩ := (h.halves hused hop).aggregate source aggregates ctx hnode
  obtain ⟨n, hget, hn⟩ := hcol.input
  have hwf := plan.wellFormed op (List.mem_of_getElem? hop)
  refine ⟨node, n, hget, hn, fun schedule st hrun hend => ?_⟩
  have hr := (execute_induction (P := fun _ => True) h.ok trivial (fun _ _ _ _ _ => trivial) hrun).1
  rw [← h.waited_iff hop hcol hanswers, ← hcol.ended_iff hr h.ok hend hn]
  constructor
  · rintro ⟨records, values, haggr⟩
    have hmem : none ∈ (st.net.log ⟨node, 0⟩).map Prod.fst := by simp [haggr.consumed]
    obtain ⟨⟨item, cont⟩, he, hitem⟩ := List.mem_map.mp hmem
    cases hitem
    cases cont with
    | false => exact he
    | true =>
        -- the end of the stream is never answered `true`
        rcases hr.wellFormed ⟨node, 0⟩ with hopen | ⟨front, item, hopen, hlog⟩
        · exact absurd rfl (hopen _ he).1
        · rw [hlog] at he
          rcases List.mem_append.mp he with he | he
          · exact absurd rfl (hopen _ he).1
          · cases List.mem_singleton.mp he
  · intro hmem
    obtain ⟨self, hcollected⟩ := hcol.collected hr
    have hheard := hr.heard hn (List.mem_map.mpr ⟨_, hmem, rfl⟩)
    obtain ⟨records, hrecords⟩ : ∃ records : List Record,
        st.net.sent n = records.map some ++ [none] := by
      refine ((hr.ok n (Nat.zero_le n)).2.stream.resolve_left fun hnone => ?_).2
      exact hnone none (by rw [← hheard]; exact List.mem_map.mpr ⟨_, hmem, rfl⟩) rfl
    obtain ⟨values, hvalues, hcell, hout⟩ := hcollected.ended hmem
    have hstart : (b.start node).collector = collectorOf aggregates ctx :=
      congrArg Operator.collectorOf hcol.op
    refine ⟨records, values, ⟨n, hget, hrecords⟩, hheard.trans hrecords, hcell, ?_, ?_⟩
    · rwa [hstart, recordsOf_eq (hheard.trans hrecords)] at hvalues
    · intro phase hphase hended
      by_cases hne : phase = op.minPhase
      · -- the collector answers itself
        refine ⟨node, (hanswers phase hphase).1 hne, fun t ht => ?_⟩
        exact delivered_of_stream hr h.ok hcol.bounded (hcol.phase.trans hne.symm) hended
          (show _ <+: [Record.aggregate values].map some ++ [none] from hout) ht
      · obtain ⟨s, hs, hsphase, hpush, hsget, hlt, hscell⟩ := (hanswers phase hphase).2 hne
        obtain ⟨k, hk⟩ := List.mem_iff_getElem?.mp hs
        have ⟨hsame, hemitter⟩ := emitter_ok h hwf hcol hphase hne hk hsphase hpush hscell hrun
        obtain ⟨th, hth, -, hthend⟩ := hended k s hk (by omega)
        obtain ⟨values', hvalues', hsent⟩ := hemitter.sent hth hthend
        rw [hcell] at hvalues'
        cases hvalues'
        refine ⟨s.node, hsget, fun t ht => delivered_of_stream hr h.ok hlt ?_ hended
          (show _ <+: [Record.aggregate values].map some ++ [none] from hsent) ht⟩
        exact (h.ok.sources s hs).2.2.1.trans hsphase

end Aggregation

end Builder

/-! ### An aggregate that is read at once -/

/-- `SELECT COUNT(*) FROM ...`. -/
def promptCount : Plan where
  operations := [
    { node := .values [.integer 7, .integer 8], minPhase := 0, schema := .withField 1,
      requiredFields := [(0, .emptySet)] },
    { node := .aggregate 0 [⟨2, .nullary .integer (.countAll 0)⟩] [], minPhase := 0,
      schema := .withField 2, requiredFields := [(0, .withField 2)] }]
  topOperations := [1]
  fieldBinding := .empty
  acyclic i op h j hj := by
    match i, h with
    | 0, h | 1, h =>
      cases h
      simp [OperationNode.sources] at hj <;> omega
  wellFormed op h := by
    simp only [List.mem_cons, List.not_mem_nil, or_false] at h
    rcases h with rfl | rfl <;> exact ⟨by simp, by simp [Operation.phases]⟩

theorem promptCount_builds :
    (@Builder.program .inert .insertion .empty promptCount).isOk = true := by
  rfl

theorem aggregated_promptCount : ∃ b,
    @Builder.program .inert .insertion .empty promptCount = .ok b ∧
      ∃ op node, promptCount.operations[1]? = some op ∧
        ∀ schedule st, @Builder.execute .inert .plain b schedule = .ok st → b.EndedBefore st 1 →
          ∃ records values, @Builder.Aggregated .inert b 1 0 node op
            (Builder.collectorOf [⟨2, .nullary .integer (.countAll 0)⟩] []) st records values := by
  obtain ⟨b, hb⟩ := exists_of_isOk promptCount_builds
  obtain ⟨node, n, -, -, hiff⟩ := @Builder.aggregated_iff .inert .plain promptCount b 1 0 _
    .insertion .empty hb (.top (by decide)) rfl _ _ rfl
  refine ⟨b, hb, _, node, rfl, fun schedule st hrun hend => (hiff schedule st hrun hend).mpr ?_⟩
  exact .inl ⟨⟨_, rfl, by decide⟩, .inl ⟨by decide, rfl⟩⟩

/-! ### An aggregate that is read only later -/

/-- `SELECT c FROM (SELECT COUNT(*) AS c FROM ...) WHERE c IN (2, 3)`: the count is the probing side
of a semi-join, which needs the values `2` and `3` first. -/
def lateCount : Plan where
  operations := [
    { node := .values [.integer 2, .integer 3], minPhase := 0, schema := .withField 1,
      requiredFields := [(0, .withField 1)] },
    { node := .values [.integer 7, .integer 8], minPhase := 0, schema := .withField 2,
      requiredFields := [(0, .emptySet)] },
    { node := .aggregate 1 [⟨3, .nullary .integer (.countAll 0)⟩] [], minPhase := 0, schema := .withField 3,
      requiredFields := [(1, .withField 3)] },
    { node := .hashSemiJoin 0 2 (.identifier 0 3 .integer) 1, minPhase := 1, schema := .withField 3,
      requiredFields := [(1, .withField 3)] }]
  topOperations := [3]
  fieldBinding := .empty
  acyclic i op h j hj := by
    match i, h with
    | 0, h | 1, h | 2, h | 3, h =>
      cases h
      simp [OperationNode.sources] at hj <;> omega
  wellFormed op h := by
    simp only [List.mem_cons, List.not_mem_nil, or_false] at h
    rcases h with rfl | rfl | rfl | rfl <;> exact ⟨by simp, by simp [Operation.phases]⟩

/-- The sources of the first phase push to their ends. -/
def lateSchedule : List Nat := List.replicate 6 0 ++ List.replicate 6 1

/-- What becomes of `lateCount`: whether its first phase ended with a collector that was stopped at
the first of the two records, and whether its emitter is then the end of the program. -/
def lateOutcome : Bool :=
  match @Builder.program .inert .insertion .empty lateCount with
  | .error _ => false
  | .ok b =>
    match @Builder.execute .inert .plain b lateSchedule with
    | .error _ => false
    | .ok st =>
      b.endedBefore st 1 &&
        decide (st.net.log ⟨2, 0⟩ = [(some (.value (.integer 7)), false)]) &&
        match @Builder.execute .inert .plain b (lateSchedule ++ List.replicate 4 2) with
        | .error (.fault e) => decide (e = .undefined "read past the end of a record")
        | _ => false

theorem lateOutcome_eq : lateOutcome = true := by
  decide +kernel

/-- The collector stops at the first record, since nothing reads the count in its own phase. -/
theorem lateCount_not_aggregated : ∃ b st op aggregates ctx,
    @Builder.program .inert .insertion .empty lateCount = .ok b ∧ lateCount.Used 2 ∧
      lateCount.operations[2]? = some op ∧ op.node = .aggregate 1 aggregates ctx ∧
      @Builder.execute .inert .plain b lateSchedule = .ok st ∧ b.endedBefore st 1 = true ∧
      (¬ ∃ records values, @Builder.Aggregated .inert b 2 1 2 op
        (Builder.collectorOf aggregates ctx) st records values) ∧
      @Builder.execute .inert .plain b (lateSchedule ++ List.replicate 4 2) =
        .error (.fault (.undefined "read past the end of a record")) := by
  have h := lateOutcome_eq
  unfold lateOutcome at h
  split at h
  · cases h
  next b hb =>
    split at h
    · cases h
    next st hst =>
      rw [Bool.and_eq_true, Bool.and_eq_true] at h
      obtain ⟨⟨hend, hlog⟩, hfault⟩ := h
      split at hfault
      next e he =>
        have hused : lateCount.Used 2 :=
          .source (show lateCount.Used 3 from .top (by decide)) rfl (by simp [OperationNode.sources])
        refine ⟨b, st, _, _, _, hb, hused, rfl, rfl, hst, hend, ?_, ?_⟩
        · rintro ⟨records, values, -, hconsumed, -⟩
          rw [of_decide_eq_true hlog] at hconsumed
          cases records <;> simp at hconsumed
        · rw [he, of_decide_eq_true hfault]
      · cases hfault

end Lsql.Phys
