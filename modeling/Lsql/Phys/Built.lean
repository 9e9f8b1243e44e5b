import Lsql.Phys.Wiring

/-!
# Lsql.Phys.Built

What `build` makes of a plan: every step keeps the wiring (`Builder.Ok`), and the operations that
are read in a phase are those that some operation of the plan reads in it (`Plan.reads`).
-/

namespace Lsql.Phys

open Lsql.Exec Lsql.Plan Flow

/-! ### The sources -/

section Drains

variable {d : Prog.Downstream Record} {c : Cell}

/-- The end of a source: it sends the end of the stream unless it was stopped. -/
theorem drains_end {cont : Bool} (hstop : cont = false → d.active = false) :
    Net.Drains (if cont then do let _ ← Prog.send none; pure () else pure () : Body Unit) d c := by
  cases cont with
  | false => exact fun _ _ => hstop rfl
  | true => exact fun _ _ => rfl

theorem drains_sendAll (records : List Record) :
    Net.Drains (do
      let cont ← Prog.sendAll (records.map some)
      if cont then do let _ ← Prog.send none; pure () else pure () : Body Unit) d c := by
  unfold Net.Drains
  rw [Prog.meets_bind]
  exact Prog.meets_sendAll records (fun _ _ _ => drains_end (by simp))
    fun _ _ hd _ => drains_end fun _ => hd

theorem Values.push_drains (values : List Value) : Net.Drains (Values.push values) d c := by
  unfold Net.Drains Values.push
  simp only [Prog.isActive_bind, Prog.meets_active, Prog.meets_bind, Prog.meets_lift]
  intro _ _ c' _
  exact Prog.meets_bind.mp (drains_sendAll _)

theorem AggregateEmitter.push_drains : Net.Drains AggregateEmitter.push d c := by
  unfold Net.Drains AggregateEmitter.push
  simp only [Prog.isActive_bind, Prog.meets_active]
  split
  next hact =>
    simp only [Prog.read_bind, Prog.meets_load, Prog.meets_bind, Prog.meets_lift]
    intro c₁ _ values _ c₂ _ act hact c₃ _
    exact drains_end fun h => h
  next hact => exact fun _ _ => by simpa using hact

theorem MaterializeEmitter.push_drains : Net.Drains MaterializeEmitter.push d c := by
  unfold Net.Drains MaterializeEmitter.push
  simp only [Prog.read_bind, Prog.meets_load, Prog.meets_bind, Prog.meets_lift]
  intro c₁ _ records _ c₂ _
  exact Prog.meets_bind.mp (drains_sendAll records)

variable [Platform]

/-- The loop over the lines: it runs to its end, or no subscriber is left. -/
theorem Log.pushLines_stops (self : Log) (type : Option Logfmt.LogType)
    (lines : List PinnedString) :
    (self.pushLines type lines).Meets false (fun cont d _ => cont = false → d.active = false)
      d c := by
  induction lines generalizing type d c with
  | nil => exact fun _ _ => nofun
  | cons line lines ih =>
      simp only [pushLines, Prog.meets_bind, Prog.meets_lift]
      rintro ⟨record, type⟩ _ c' _
      cases record with
      | none => exact ih type
      | some record =>
          intro act _
          cases act with
          | false => exact fun _ _ _ => rfl
          | true => exact ih type

theorem Log.push_drains (self : Log) : Net.Drains self.push d c := by
  unfold Net.Drains Log.push
  simp only [Prog.isActive_bind, Prog.meets_active, Prog.meets_bind, Prog.meets_lift]
  intro _ _ c' _
  split
  · rw [Prog.meets_bind]
    exact Prog.meets_sendAll _ (fun _ _ _ => drains_end (by simp)) fun _ _ hd _ => drains_end fun _ => hd
  · rw [Prog.meets_bind]
    exact (self.pushLines_stops _ _).mono fun cont d' _ hstop => drains_end hstop

end Drains

namespace Builder

/-- Everything that was added is in place, and the nodes that can be read are new. -/
structure Made (inputs : List (Nat × Nat)) (b b' : Builder) : Prop extends Reads inputs b b' where
  ok : b'.Ok
  newer : ∀ e ∈ b'.ops, e ∈ b.ops ∨ b.size ≤ e.2

theorem Ok.made {b : Builder} (h : b.Ok) : Made [] b b :=
  { (Grows.refl b).reads rfl with
    ok := h
    newer := fun _ he => .inl he }

theorem Made.trans {b b' b'' : Builder} {is js : List (Nat × Nat)} (h : Made is b b')
    (h' : Made js b' b'') : Made (is ++ js) b b'' :=
  { h.toReads.trans h'.toReads with
    ok := h'.ok
    newer := fun e he => by
      rcases h'.newer e he with he | hlt
      · exact h.newer e he
      · exact .inr (Nat.le_trans h.size hlt) }

/-! ### Loops over the required phases -/

/-- A loop over the required phases keeps what its body keeps. `Q` is what the body does for its
phase, and later rounds leave it be. -/
theorem forPhases_spec {f : Builder → Nat → FieldSet → Except Fault Builder}
    (inputs : Nat → List (Nat × Nat)) (I : Builder → Prop) (Q : Nat → Builder → Prop)
    {required : List (Nat × FieldSet)} {b b' : Builder}
    (hstep : ∀ {b b' : Builder} {phase fields}, phase ∈ required.map Prod.fst → I b →
      f b phase fields = .ok b' → I b' ∧ Reads (inputs phase) b b' ∧ Q phase b')
    (hkeep : ∀ {b b' : Builder} {phase}, Grows b b' → Q phase b → Q phase b') (h : I b)
    (hloop : forPhases f required b = .ok b') :
    I b' ∧ Reads (required.flatMap fun e => inputs e.1) b b' ∧
      ∀ e ∈ required, Q e.1 b' := by
  induction required generalizing b with
  | nil =>
      cases hloop
      exact ⟨h, (Grows.refl _).reads rfl, by simp⟩
  | cons e required ih =>
      obtain ⟨phase, fields⟩ := e
      obtain ⟨b₁, hb₁, hloop⟩ := bind_eq_ok.mp hloop
      have ⟨h₁, hreads₁, hQ₁⟩ := hstep (by simp) h hb₁
      have ⟨h', hreads', hQ'⟩ := ih (fun hmem => hstep (List.mem_cons_of_mem _ hmem)) h₁ hloop
      refine ⟨h', hreads₁.trans hreads', fun e he => ?_⟩
      rcases List.mem_cons.mp he with rfl | he
      · exact hkeep hreads'.toGrows hQ₁
      · exact hQ' e he

/-- A loop whose rounds each add something. -/
theorem Ok.forPhases {f : Builder → Nat → FieldSet → Except Fault Builder}
    {inputs : Nat → List (Nat × Nat)} {state : Nat} {required : List (Nat × FieldSet)}
    {b b' : Builder} (h : b.Ok) (hstate : state < b.cells)
    (hstep : ∀ {b b' : Builder} {phase fields}, b.Ok → state < b.cells →
      f b phase fields = .ok b' → Made (inputs phase) b b')
    (hloop : Builder.forPhases f required b = .ok b') :
    Made (required.flatMap fun e => inputs e.1) b b' := by
  induction required generalizing b with
  | nil =>
      cases hloop
      exact h.made
  | cons e required ih =>
      obtain ⟨phase, fields⟩ := e
      obtain ⟨b₁, hb₁, hloop⟩ := bind_eq_ok.mp hloop
      have hmade := hstep h hstate hb₁
      exact hmade.trans (ih hmade.ok (Nat.lt_of_lt_of_le hstate hmade.cells) hloop)

/-- An operator with a node of its own in each phase in which it is required. -/
structure Plain (op : Operator) (inputs : Nat) : Prop where
  fresh : ∀ c, op.Fresh c
  owner : op.owner = false
  exposed : op.exposed = true
  ne_source : op ≠ .source
  ports : op.ports = inputs

theorem Ok.buildPhase {b b' : Builder} {i state phase : Nat} {op : Operator}
    {inputs : List (Nat × Nat)} (h : b.Ok) (hstate : state < b.cells)
    (hop : Plain op inputs.length) (hphase : ∀ e ∈ inputs, e.2 = phase)
    (hbuild : Builder.buildPhase i state op inputs b phase = .ok b') : Made inputs b b' := by
  obtain ⟨⟨b₁, node⟩, hadd, hins⟩ := bind_eq_ok.mp hbuild
  have ha := h.addOperation hstate (hop.fresh _) (by simp [hop.owner]) hop.ne_source hop.ports
    hphase hadd
  have ⟨hnode, hsize⟩ := ha.newest
  have hfree : ∀ e ∈ b₁.ops, e.2 = node → e.1 = (phase, i) := fun e he heq => by
    rw [ha.ops] at he
    have := (h.heads e he).1
    omega
  have ⟨hok, hreads, hops, _⟩ := ha.ok.insert (by omega) ha.phase
    (by rw [ha.op]; exact hop.exposed) hfree hins
  exact { List.append_nil inputs ▸ ha.reads.trans hreads with
    ok := hok
    newer := fun e he => by
      rw [hops, ha.ops] at he
      rcases List.mem_append.mp he with he | he
      · exact .inl he
      · cases List.mem_singleton.mp he
        exact .inr (Nat.le_of_eq hnode.symm) }

/-- The nodes of an operation, one for each phase. -/
theorem Ok.buildPhases {b b' : Builder} {i state : Nat} {opOf : FieldSet → Operator}
    {required : List (Nat × FieldSet)} {n : Nat} (h : b.Ok) (inputs : Nat → List (Nat × Nat))
    (hbuild : Builder.forPhases (fun b phase fields => Builder.buildPhase i state (opOf fields)
      (inputs phase) b phase) required b = .ok b')
    (hstate : state < b.cells) (hop : ∀ fields, Plain (opOf fields) n)
    (hinputs : ∀ phase, (inputs phase).length = n ∧ ∀ e ∈ inputs phase, e.2 = phase) :
    Made (required.flatMap fun e => inputs e.1) b b' :=
  h.forPhases hstate (fun hok hstate hb =>
    hok.buildPhase hstate (by rw [(hinputs _).1]; exact hop _) (hinputs _).2 hb) hbuild

/-- A source of operation `i` in a phase. -/
def SourceAt (b : Builder) (i phase state : Nat) (push : Body Unit) : Prop :=
  ∃ s ∈ b.sources, s.phase = phase ∧ s.push = push ∧ b.get i phase = .ok s.node ∧
    s.node < b.size ∧ b.cell s.node = state

theorem SourceAt.grows {b b' : Builder} {i phase state : Nat} {push : Body Unit} (hb : Grows b b')
    (h : b.SourceAt i phase state push) : b'.SourceAt i phase state push := by
  obtain ⟨s, hs, hphase, hpush, hget, hlt, hcell⟩ := h
  exact ⟨s, hb.sources hs, hphase, hpush, hb.get hget, Nat.lt_of_lt_of_le hlt hb.size,
    (hb.cell _ hlt).trans hcell⟩

theorem Ok.buildSource {b b' : Builder} {i state phase : Nat} {push : Body Unit} (h : b.Ok)
    (hstate : state < b.cells) (hdrains : ∀ d c, Net.Drains push d c)
    (hbuild : Builder.buildSource i state push b phase = .ok b') :
    Made [] b b' ∧ b'.SourceAt i phase state push ∧ b'.ops = b.ops ++ [((phase, i), b.size)] := by
  have hadd : (b.addSource state phase push).1.Ok := h.addSource hstate hdrains
  have hop : (b.addSource state phase push).1.op b.size = .source :=
    @newOperation_op_self b .source state phase
  have hphase : (b.addSource state phase push).1.phase b.size = phase :=
    @newOperation_phase_self b .source state phase
  have hcell : (b.addSource state phase push).1.cell b.size = state :=
    @newOperation_cell_self b .source state phase
  have hfree : ∀ e ∈ (b.addSource state phase push).1.ops, e.2 = b.size → e.1 = (phase, i) :=
    fun e he heq => by
      have := (h.heads e he).1
      omega
  have hlt : b.size < (b.addSource state phase push).1.size := Nat.lt_succ_self _
  obtain ⟨hok, hreads, hops, hget⟩ := hadd.insert hlt hphase (by rw [hop]; rfl) hfree hbuild
  have hreads' : Reads [] b b' := ((grows_addSource b state phase push).reads rfl).trans hreads
  refine ⟨{ hreads' with ok := hok, newer := fun e he => ?_ }, ?_, hops⟩
  · rw [hops] at he
    rcases List.mem_append.mp he with he | he
    · exact .inl he
    · cases List.mem_singleton.mp he
      exact .inr (Nat.le_refl _)
  · exact ⟨_, hreads.sources (List.mem_append_right _ (List.mem_singleton.mpr rfl)), rfl, rfl, hget,
      Nat.lt_of_lt_of_le hlt hreads.size, (hreads.cell _ hlt).trans hcell⟩

/-! ### Collectors and joins -/

/-- The half of an operation that collects its input, in one phase. -/
structure CollectorAt (b : Builder) (i minPhase source : Nat) (phases : List Nat) (state : Cell)
    (collector : Operator) (node : Nat) : Prop where
  bounded : node < b.size
  op : b.op node = collector
  cell : b.cell node < b.cells
  heap : b.heap (b.cell node) = state
  phase : b.phase node = minPhase
  input : ∃ n, b.get source minPhase = .ok n ∧ ⟨node, 0⟩ ∈ b.subs n
  head : ∀ e ∈ b.ops, e.2 = node → e.1 = (minPhase, i) ∧ minPhase ∈ phases

/-- What the operation has in a phase in which it is required: its collector, or a source that
shares the collector's state. -/
def AnswersAt (b : Builder) (i minPhase node state : Nat) (push : Body Unit) (phase : Nat) : Prop :=
  (phase = minPhase → b.get i phase = .ok node) ∧
    (phase ≠ minPhase → b.SourceAt i phase state push)

section Collector

variable {i minPhase source : Nat} {state : Cell} {collector : Operator} {push : Body Unit}
  {node : Nat}

theorem CollectorAt.grows {b b' : Builder} {phases : List Nat} (hb : Grows b b')
    (hnew : ∀ e ∈ b'.ops, e.2 = node → e ∈ b.ops ∨ e.1 = (minPhase, i) ∧ minPhase ∈ phases)
    (h : b.CollectorAt i minPhase source phases state collector node) :
    b'.CollectorAt i minPhase source phases state collector node where
  bounded := Nat.lt_of_lt_of_le h.bounded hb.size
  op := (hb.op _ h.bounded).trans h.op
  cell := by
    rw [hb.cell _ h.bounded]
    exact Nat.lt_of_lt_of_le h.cell hb.cells
  heap := by rw [hb.cell _ h.bounded, hb.heap _ h.cell, h.heap]
  phase := (hb.phase _ h.bounded).trans h.phase
  input := by
    obtain ⟨n, hget, hmem⟩ := h.input
    exact ⟨n, hb.get hget, hb.subs n hmem⟩
  head e he heq := (hnew e he heq).elim (fun hold => h.head e hold heq) id

theorem AnswersAt.grows {b b' : Builder} {phase cell : Nat} (hb : Grows b b')
    (h : b.AnswersAt i minPhase node cell push phase) :
    b'.AnswersAt i minPhase node cell push phase :=
  ⟨fun heq => hb.get (h.1 heq), fun hne => (h.2 hne).grows hb⟩

/-- A collecting node, with a state object of its own. -/
theorem Ok.addCollector {b b' : Builder} {phase : Nat} (h : b.Ok) (hfresh : collector.Fresh state)
    (hports : collector.ports = 1)
    (hadd : (b.newState state).1.addOperation collector b.cells phase [(source, phase)] =
      .ok (b', node)) :
    Added (b.newState state).1 b' collector b.cells phase [(source, phase)] node := by
  have hheap : (b.newState state).1.heap b.cells = state := Function.update_self ..
  have hne_source : collector ≠ .source := by
    rintro rfl
    cases hports
  exact (h.newState state).addOperation (Nat.lt_succ_self _) (by rw [hheap]; exact hfresh)
    (fun _ j _ => Nat.ne_of_lt (h.cells j)) hne_source (by rw [hports]; rfl) (by simp) hadd

theorem Ok.buildCollected {b b' : Builder} {required : List (Nat × FieldSet)} (h : b.Ok)
    (hbuild : Builder.buildCollected i minPhase source required state collector push b = .ok b')
    (hfresh : collector.Fresh state) (hports : collector.ports = 1)
    (hexposed : collector.exposed = true) (hdrains : ∀ d c, Net.Drains push d c) :
    Made [(source, minPhase)] b b' ∧ ∃ node,
      b'.CollectorAt i minPhase source (required.map Prod.fst) state collector node ∧
        ∀ phase ∈ required.map Prod.fst, b'.AnswersAt i minPhase node (b'.cell node) push phase := by
  obtain ⟨⟨b₁, node⟩, hadd, hloop⟩ := bind_eq_ok.mp hbuild
  have hstate : b.cells < (b.newState state).1.cells := Nat.lt_succ_self _
  have hheap : (b.newState state).1.heap b.cells = state := Function.update_self ..
  have ha := h.addCollector hfresh hports hadd
  have ⟨hnode, hsize⟩ := ha.newest
  have hnode : node = b.size := hnode
  have hbounded : node < b₁.size := by omega
  have hnewest : ∀ e ∈ b₁.ops, e.2 ≠ node := fun e he => by
    rw [ha.ops] at he
    have := (h.heads e he).1
    omega
  -- before the loop the collector is there, but not to be read
  have hcol : b₁.CollectorAt i minPhase source (required.map Prod.fst) state collector node := {
    bounded := hbounded
    op := ha.op
    cell := ha.ok.cells node
    heap := by rw [ha.cell, ha.reads.heap _ hstate, hheap]
    phase := ha.phase
    input := by
      obtain ⟨e, he, n, hget, hmem⟩ := ha.inputs 0 Nat.one_pos
      cases he
      exact ⟨n, hget, hmem⟩
    head := fun e he heq => absurd heq (hnewest e he) }
  obtain ⟨⟨hok', hcol', hcell', hnewer'⟩, hreads', hanswers⟩ := forPhases_spec (fun _ => [])
    (fun b' => b'.Ok ∧
      b'.CollectorAt i minPhase source (required.map Prod.fst) state collector node ∧
        b'.cell node = b.cells ∧ ∀ e ∈ b'.ops, e ∈ b.ops ∨ b.size ≤ e.2)
    (fun phase b' => b'.AnswersAt i minPhase node b.cells push phase)
    (fun {b₂ b₃ phase fields} hphases ⟨hok, hcol, hcell, hnewer⟩ hb => by
      by_cases hphase : phase = minPhase
      · rw [if_pos hphase] at hb
        obtain ⟨hok₃, hreads, hops, hget⟩ := hok.insert hcol.bounded
          (hcol.phase.trans hphase.symm) (by rw [hcol.op, hexposed])
          (fun e he heq => by rw [(hcol.head e he heq).1, hphase]) hb
        have hmem : ∀ e ∈ b₃.ops, e ∈ b₂.ops ∨ e = ((phase, i), node) := fun e he => by
          rw [hops] at he
          simpa using he
        refine ⟨⟨hok₃, hcol.grows hreads.toGrows fun e he _ => ?_, ?_, fun e he => ?_⟩, hreads,
          fun _ => hget, fun hne => absurd hphase hne⟩
        · exact (hmem e he).imp id fun heq => by
            rw [heq]
            exact ⟨by rw [hphase], hphase ▸ hphases⟩
        · rw [hreads.cell _ hcol.bounded, hcell]
        · rcases hmem e he with he | rfl
          · exact hnewer e he
          · exact .inr (Nat.le_of_eq hnode.symm)
      · rw [if_neg hphase] at hb
        obtain ⟨hmade, hsource, hops⟩ := hok.buildSource
          (by rw [← hcell]; exact hcol.cell) hdrains hb
        have hmem : ∀ e ∈ b₃.ops, e ∈ b₂.ops ∨ e = ((phase, i), b₂.size) := fun e he => by
          rw [hops] at he
          simpa using he
        refine ⟨⟨hmade.ok, hcol.grows hmade.toGrows fun e he heq => ?_, ?_, fun e he => ?_⟩,
          hmade.toReads, fun heq => absurd heq hphase, fun _ => hsource⟩
        · refine .inl ((hmem e he).resolve_right ?_)
          rintro rfl
          exact Nat.ne_of_lt hcol.bounded heq.symm
        · rw [hmade.cell _ hcol.bounded, hcell]
        · rcases hmem e he with he | rfl
          · exact hnewer e he
          · exact .inr (hnode ▸ Nat.le_of_lt hcol.bounded))
    AnswersAt.grows
    ⟨ha.ok, hcol, ha.cell, fun e he => .inl (by rwa [ha.ops] at he)⟩ hloop
  have hnone : (required.flatMap fun _ => ([] : List (Nat × Nat))) = [] := by simp
  have hreads := (((grows_newState b state).reads rfl).trans ha.reads).trans hreads'
  rw [hnone] at hreads
  refine ⟨{ (show Reads [(source, minPhase)] b b' by simpa using hreads) with
    ok := hok'
    newer := hnewer' }, node, hcol', fun phase hmem => ?_⟩
  obtain ⟨e, he, rfl⟩ := List.mem_map.mp hmem
  rw [hcell']
  exact hanswers e he

/-- The builder of a join is not read; its probes have a node in each phase. -/
theorem Ok.buildJoin {b b' : Builder} {matchPhase matched : Nat} {buildOp probeOp : Operator}
    {required : List (Nat × FieldSet)} (h : b.Ok)
    (hbuild : Builder.buildJoin i matchPhase matched source required state buildOp probeOp b =
      .ok b') (hfresh : buildOp.Fresh state) (hports : buildOp.ports = 1)
    (hprobe : Plain probeOp 1) :
    Made ((matched, matchPhase) :: required.map fun e => (source, e.1)) b b' := by
  obtain ⟨⟨b₁, node⟩, hadd, hloop⟩ := bind_eq_ok.mp hbuild
  have hstate : b.cells < (b.newState state).1.cells := Nat.lt_succ_self _
  have ha := h.addCollector hfresh hports hadd
  have hmade : Made [(matched, matchPhase)] b b₁ := {
    (show Reads [(matched, matchPhase)] b b₁ by
      simpa using ((grows_newState b state).reads rfl).trans ha.reads) with
    ok := ha.ok
    newer := fun e he => .inl (by rwa [ha.ops] at he) }
  have hprobes := ha.ok.buildPhases (fun phase => [(source, phase)]) hloop
    (Nat.lt_of_lt_of_le hstate ha.reads.cells) (fun _ => hprobe) fun _ => ⟨rfl, by simp⟩
  rw [List.map_eq_flatMap]
  exact hmade.trans hprobes

end Collector

/-! ### Operations -/

theorem operationAt_ok {plan : Plan} {i : Nat} {op : Operation}
    (h : operationAt plan i = .ok op) : plan.operations[i]? = some op := by
  unfold operationAt at h
  split at h
  next hop =>
    cases h
    exact hop
  · cases h

theorem minPhase_eq {plan : Plan} {i : Nat} {op : Operation} (h : plan.operations[i]? = some op) :
    plan.minPhase i = op.minPhase := by
  simp [Plan.minPhase, h]

/-- The collector of an aggregate, as it is built. -/
def collectorOf (aggregates : List AggregateProjector) (ctx : ScalarContext) : AggregateCollector :=
  { aggregators := aggregates.map fun a => a.expr.aggregator, scalarContext := ctx }

/-- The two halves of an operation, if it is an aggregate. -/
def AggregateAt (b : Builder) (i : Nat) (op : Operation) : Prop :=
  ∀ source aggregates ctx, op.node = .aggregate source aggregates ctx → ∃ node,
    b.CollectorAt i op.minPhase source op.phases (.aggregate [])
      (.aggregateCollector (collectorOf aggregates ctx)) node ∧
    ∀ phase ∈ op.phases,
      b.AnswersAt i op.minPhase node (b.cell node) AggregateEmitter.push phase

/-- The two halves of an operation, if it is a materialized relation. -/
def MaterializeAt (b : Builder) (i : Nat) (op : Operation) : Prop :=
  ∀ source, op.node = .materialize source → ∃ node,
    b.CollectorAt i op.minPhase source op.phases (.materialize []) .materializeCollector node ∧
    ∀ phase ∈ op.phases,
      b.AnswersAt i op.minPhase node (b.cell node) MaterializeEmitter.push phase

/-- The two halves of an operation that collects its input. -/
structure HalvesAt (b : Builder) (i : Nat) (op : Operation) : Prop where
  aggregate : b.AggregateAt i op
  materialize : b.MaterializeAt i op

theorem phases_flatMap (op : Operation) (f : Nat → List (Nat × Nat)) :
    (op.requiredFields.flatMap fun e => f e.1) = op.phases.flatMap f := by
  simp [Operation.phases, List.flatMap_map]

section Build

variable [Platform] [HashOrder] [Storage] {plan : Plan} {b b' : Builder} {i : Nat} {op : Operation}

omit [Platform] [HashOrder] [Storage] in
/-- A loop that adds sources. -/
theorem Ok.forSources {f : Builder → Nat → FieldSet → Except Fault Builder} {state : Nat}
    {required : List (Nat × FieldSet)} (h : b.Ok) (hstate : state < b.cells)
    (hstep : ∀ {b b' : Builder} {phase fields}, b.Ok → state < b.cells →
      f b phase fields = .ok b' → Made [] b b')
    (hloop : Builder.forPhases f required b = .ok b') : Made [] b b' := by
  have hmade := h.forPhases hstate hstep hloop
  rwa [show (required.flatMap fun _ => ([] : List (Nat × Nat))) = [] by simp] at hmade

omit [Storage] in
theorem Ok.buildLogs {binding : FieldBinding} {file : LogFile} (h : b.Ok)
    (hbuild : Builder.buildLogs binding i op file b = .ok b') : Made [] b b' :=
  h.forSources (Nat.zero_lt_of_lt (h.cells 0))
    (fun hok hstate hb => by
      obtain ⟨log, -, hb⟩ := bind_eq_ok.mp hb
      exact (hok.buildSource hstate (fun _ _ => log.push_drains) hb).1) hbuild

/-- What building an operation adds. One case for each kind of operation. -/
theorem Ok.buildNode (h : b.Ok) (hwf : op.WellFormed)
    (hbuild : Builder.buildNode plan i op b = .ok b') : Made (plan.reads op) b b' := by
  have hzero : 0 < b.cells := Nat.zero_lt_of_lt (h.cells 0)
  -- an operation with one input and a node in each phase
  have hone : ∀ {source : Nat} {opOf : FieldSet → Operator},
      Builder.forPhases (fun b phase fields => Builder.buildPhase i 0 (opOf fields)
        [(source, phase)] b phase) op.requiredFields b = .ok b' →
      (∀ fields, Plain (opOf fields) 1) →
      Made (op.phases.flatMap fun phase => [(source, phase)]) b b' := fun hb hplain => by
    have hmade := h.buildPhases (fun phase => [(_, phase)]) hb hzero hplain fun _ => ⟨rfl, by simp⟩
    rwa [phases_flatMap op fun phase => [(_, phase)]] at hmade
  have hprobes : ∀ {source : Nat}, (op.requiredFields.map fun e => (source, e.1)) =
      op.phases.flatMap fun phase => [(source, phase)] := fun {source} => by
    rw [← phases_flatMap op fun phase => [(source, phase)], List.map_eq_flatMap]
  unfold Builder.buildNode at hbuild
  unfold Plan.reads
  cases hnode : op.node with rw [hnode] at hbuild
  | aggregate source aggregates ctx =>
      exact (h.buildCollected hbuild rfl rfl rfl fun _ _ => AggregateEmitter.push_drains).1
  | materialize source =>
      exact (h.buildCollected hbuild rfl rfl rfl fun _ _ => MaterializeEmitter.push_drains).1
  | filter | group | limit | projection | sort | topK =>
      exact hone hbuild fun _ => ⟨fun _ => trivial, rfl, rfl, by simp, rfl⟩
  | log | stream =>
      obtain ⟨file, -, hbuild⟩ := bind_eq_ok.mp hbuild
      exact h.buildLogs hbuild
  | values values =>
      exact h.forSources hzero (fun hok hstate hb =>
        (hok.buildSource hstate (fun _ _ => Values.push_drains _) hb).1) hbuild
  | hashMarkJoin matched source scalar matchFieldId outputFieldId =>
      dsimp only at hbuild
      split at hbuild
      · cases hbuild
      · obtain ⟨m, hm, hbuild⟩ := bind_eq_ok.mp hbuild
        have hmade := h.buildJoin hbuild trivial rfl ⟨fun _ => trivial, rfl, rfl, by simp, rfl⟩
        rwa [hprobes, ← minPhase_eq (operationAt_ok hm)] at hmade
  | hashSemiJoin matched source scalar matchFieldId =>
      obtain ⟨m, hm, hbuild⟩ := bind_eq_ok.mp hbuild
      have hmade := h.buildJoin hbuild trivial rfl ⟨fun _ => trivial, rfl, rfl, by simp, rfl⟩
      rwa [hprobes, ← minPhase_eq (operationAt_ok hm)] at hmade
  | hashLeftJoin left right leftKey rightKey =>
      obtain ⟨l, -, hbuild⟩ := bind_eq_ok.mp hbuild
      obtain ⟨r, hr, hbuild⟩ := bind_eq_ok.mp hbuild
      have hmade := h.buildJoin hbuild trivial rfl ⟨fun _ => trivial, rfl, rfl, by simp, rfl⟩
      rwa [hprobes, ← minPhase_eq (operationAt_ok hr)] at hmade
  | mergeSorted left right sortKey desc =>
      have hmade := h.buildPhases (fun phase => [(left, phase), (right, phase)]) hbuild hzero
        (fun _ => ⟨fun _ => ⟨rfl, rfl⟩, rfl, rfl, by simp, rfl⟩) fun _ => ⟨rfl, by simp⟩
      rwa [phases_flatMap op fun phase => [(left, phase), (right, phase)]] at hmade
  | unionAll sources =>
      have hpos : 0 < sources.length := List.length_pos_iff.mpr (hwf.union_ne sources hnode)
      have hmade := h.buildPhases (fun phase => sources.map fun source => (source, phase)) hbuild
        hzero (fun _ => ⟨fun _ => ⟨rfl, rfl, hpos⟩, rfl, rfl, by simp, rfl⟩)
        fun _ => ⟨by simp [Operator.ports], by simp⟩
      rwa [phases_flatMap op fun phase => sources.map fun source => (source, phase)] at hmade

theorem Ok.buildNode_halves (h : b.Ok) (hbuild : Builder.buildNode plan i op b = .ok b') :
    b'.HalvesAt i op := by
  unfold Builder.buildNode at hbuild
  constructor
  · intro source aggregates ctx hnode
    rw [hnode] at hbuild
    exact (h.buildCollected hbuild rfl rfl rfl fun _ _ => AggregateEmitter.push_drains).2
  · intro source hnode
    rw [hnode] at hbuild
    exact (h.buildCollected hbuild rfl rfl rfl fun _ _ => MaterializeEmitter.push_drains).2

/-! ### Plans -/

omit [Platform] [HashOrder] [Storage] in
/-- A collector and what answers for it stay while the program grows. -/
theorem collector_grows {minPhase source node : Nat} {phases : List Nat} {state : Cell}
    {collector : Operator} {push : Body Unit} (hb : Grows b b')
    (hnewer : ∀ e ∈ b'.ops, e ∈ b.ops ∨ b.size ≤ e.2)
    (hcol : b.CollectorAt i minPhase source phases state collector node)
    (hanswers : ∀ phase ∈ phases, b.AnswersAt i minPhase node (b.cell node) push phase) :
    b'.CollectorAt i minPhase source phases state collector node ∧
      ∀ phase ∈ phases, b'.AnswersAt i minPhase node (b'.cell node) push phase := by
  refine ⟨hcol.grows hb fun e he heq => ?_, fun phase hmem => ?_⟩
  · refine .inl ((hnewer e he).resolve_right fun hle => ?_)
    have := hcol.bounded
    omega
  · rw [hb.cell _ hcol.bounded]
    exact (hanswers phase hmem).grows hb

omit [Platform] [HashOrder] [Storage] in
theorem HalvesAt.grows (hb : Grows b b') (hnewer : ∀ e ∈ b'.ops, e ∈ b.ops ∨ b.size ≤ e.2)
    (h : b.HalvesAt i op) : b'.HalvesAt i op := by
  constructor
  · intro source aggregates ctx hnode
    obtain ⟨node, hcol, hanswers⟩ := h.aggregate source aggregates ctx hnode
    exact ⟨node, collector_grows hb hnewer hcol hanswers⟩
  · intro source hnode
    obtain ⟨node, hcol, hanswers⟩ := h.materialize source hnode
    exact ⟨node, collector_grows hb hnewer hcol hanswers⟩

omit [Platform] [HashOrder] [Storage] in
/-- The collectors do not depend on what the builder remembers besides. -/
theorem HalvesAt.noting (h : b.HalvesAt i op) (outputs : List Output) (built : List Nat) :
    { b with outputs := outputs, built := built }.HalvesAt i op := by
  constructor
  · intro source aggregates ctx hnode
    obtain ⟨node, hcol, hanswers⟩ := h.aggregate source aggregates ctx hnode
    exact ⟨node, { hcol with }, hanswers⟩
  · intro source hnode
    obtain ⟨node, hcol, hanswers⟩ := h.materialize source hnode
    exact ⟨node, { hcol with }, hanswers⟩

/-- What has been built of a plan. -/
structure Covers (plan : Plan) (b : Builder) : Prop where
  ok : b.Ok
  used : ∀ j ∈ b.built, plan.Used j
  built : ∀ j ∈ b.built, ∃ op, plan.operations[j]? = some op ∧ b.HalvesAt j op ∧
    (∀ s ∈ op.node.sources, s ∈ b.built) ∧
    ∀ e ∈ plan.reads op, ∃ n, b.get e.1 e.2 = .ok n ∧ b.subs n ≠ []
  readers : ∀ {n t}, t ∈ b.subs n → ∃ j ∈ b.built, ∃ op, plan.operations[j]? = some op ∧
    ∃ e ∈ plan.reads op, b.get e.1 e.2 = .ok n

omit [Platform] [HashOrder] [Storage] in
theorem covers_empty (plan : Plan) : Covers plan empty where
  ok := ok_empty
  used := by simp [empty]
  built := by simp [empty]
  readers := by simp [empty]

/-- Building one more operation, after its sources. -/
theorem Covers.buildNode (h : Covers plan b) (hop : plan.operations[i]? = some op)
    (hused : plan.Used i) (hsources : ∀ s ∈ op.node.sources, s ∈ b.built)
    (hbuild : Builder.buildNode plan i op b = .ok b') :
    Covers plan { b' with built := i :: b'.built } := by
  have hmade := h.ok.buildNode (plan.wellFormed op (List.mem_of_getElem? hop)) hbuild
  have hbuilt : b'.built = b.built := hmade.built
  have hkeep : ∀ {e : Nat × Nat}, (∃ n, b.get e.1 e.2 = .ok n ∧ b.subs n ≠ []) →
      ∃ n, b'.get e.1 e.2 = .ok n ∧ b'.subs n ≠ [] := fun ⟨n, hget, hne⟩ =>
    ⟨n, hmade.get hget, fun hnil => hne (List.subset_nil.mp (hnil ▸ hmade.subs n))⟩
  exact {
    ok := { hmade.ok with }
    used := fun j hj => by
      rcases List.mem_cons.mp hj with rfl | hj
      · exact hused
      · exact h.used j (hbuilt ▸ hj)
    built := fun j hj => by
      rcases List.mem_cons.mp hj with rfl | hj
      · exact ⟨op, hop, (h.ok.buildNode_halves hbuild).noting _ _,
          fun s hs => List.mem_cons_of_mem _ (hbuilt ▸ hsources s hs), hmade.subscribed⟩
      · obtain ⟨op', hop', hhalves, hsources', hreads⟩ := h.built j (hbuilt ▸ hj)
        exact ⟨op', hop', (hhalves.grows hmade.toGrows hmade.newer).noting _ _,
          fun s hs => List.mem_cons_of_mem _ (hbuilt ▸ hsources' s hs), fun e he => hkeep (hreads e he)⟩
    readers := fun {n t} ht => by
      rcases hmade.new ht with ht | ⟨e, he, hget⟩
      · obtain ⟨j, hj, op', hop', e, he, hget⟩ := h.readers ht
        exact ⟨j, List.mem_cons_of_mem _ (hbuilt ▸ hj), op', hop', e, he, hmade.get hget⟩
      · exact ⟨i, List.mem_cons_self, op, hop, e, he, hget⟩ }

/-- What stays while operations are built. -/
structure Keeps (b b' : Builder) : Prop where
  ops : b.ops <+: b'.ops
  outputs : b'.outputs = b.outputs
  built : b.built ⊆ b'.built

omit [Platform] [HashOrder] [Storage] in
theorem Keeps.refl (b : Builder) : Keeps b b := ⟨List.prefix_rfl, rfl, List.Subset.refl _⟩

omit [Platform] [HashOrder] [Storage] in
theorem Keeps.trans {b'' : Builder} (h : Keeps b b') (h' : Keeps b' b'') : Keeps b b'' :=
  ⟨h.ops.trans h'.ops, h'.outputs.trans h.outputs, List.Subset.trans h.built h'.built⟩

/-- By induction on the depth of the calls, and along the list of sources. -/
theorem Covers.buildOperation {fuel : Nat} (h : Covers plan b) (hused : plan.Used i)
    (hbuild : Builder.buildOperation plan fuel i b = .ok b') :
    Covers plan b' ∧ i ∈ b'.built ∧ Keeps b b' := by
  induction fuel generalizing i b b' with
  | zero => cases hbuild
  | succ fuel ih =>
      unfold Builder.buildOperation at hbuild
      split at hbuild
      next hin =>
        cases hbuild
        exact ⟨h, by simpa using hin, Keeps.refl b⟩
      next =>
        obtain ⟨op, hop, hbuild⟩ := bind_eq_ok.mp hbuild
        obtain ⟨b₁, hfold, hbuild⟩ := bind_eq_ok.mp hbuild
        obtain ⟨b₂, hnode, hbuild⟩ := bind_eq_ok.mp hbuild
        cases hbuild
        have hop := operationAt_ok hop
        have hfolded : ∀ (sources : List Nat) (b b₁ : Builder), Covers plan b →
            (∀ s ∈ sources, plan.Used s) →
            sources.foldlM (fun b j => Builder.buildOperation plan fuel j b) b = .ok b₁ →
            Covers plan b₁ ∧ (∀ s ∈ sources, s ∈ b₁.built) ∧ Keeps b b₁ := by
          intro sources
          induction sources with
          | nil =>
              rintro b b₁ h - hfold
              cases hfold
              exact ⟨h, by simp, Keeps.refl b⟩
          | cons s sources ihs =>
              intro b b₁ h hused hfold
              rw [List.foldlM_cons] at hfold
              obtain ⟨b₂, hb₂, hfold⟩ := bind_eq_ok.mp hfold
              have ⟨h₂, hin₂, hkeeps₂⟩ := ih h (hused s (by simp)) hb₂
              have ⟨h₁, hin₁, hkeeps₁⟩ := ihs b₂ b₁ h₂ (fun s hs => hused s (by simp [hs])) hfold
              refine ⟨h₁, fun u hu => ?_, hkeeps₂.trans hkeeps₁⟩
              rcases List.mem_cons.mp hu with rfl | hu
              · exact hkeeps₁.built hin₂
              · exact hin₁ u hu
        have ⟨h₁, hin₁, hkeeps₁⟩ := hfolded _ b b₁ h (fun s hs => hused.source hop hs) hfold
        have hmade := h₁.ok.buildNode (plan.wellFormed op (List.mem_of_getElem? hop)) hnode
        refine ⟨h₁.buildNode hop hused hin₁ hnode, List.mem_cons_self,
          hkeeps₁.trans ⟨hmade.ops, hmade.outputs, ?_⟩⟩
        rw [← hmade.built]
        exact List.subset_cons_self _ _

/-- What the outputs of a built program are. -/
def OutputOf (plan : Plan) (b : Builder) (i : Nat) (o : Output) : Prop :=
  ∃ op, plan.operations[i]? = some op ∧ o.schema = op.schema ∧ o.phase = op.minPhase ∧
    b.get i op.minPhase = .ok o.node

theorem Covers.buildTop {tops done : List Nat} (h : Covers plan b)
    (hused : ∀ i ∈ tops, plan.Used i) (hdone : ∀ i ∈ done, i ∈ b.built)
    (houtputs : List.Forall₂ (OutputOf plan b) done b.outputs)
    (hbuild : Builder.buildTop plan tops b = .ok b') :
    Covers plan b' ∧ (∀ i ∈ done ++ tops, i ∈ b'.built) ∧
      List.Forall₂ (OutputOf plan b') (done ++ tops) b'.outputs := by
  induction tops generalizing b done with
  | nil =>
      cases hbuild
      rw [List.append_nil]
      exact ⟨h, hdone, houtputs⟩
  | cons i tops ih =>
      obtain ⟨b₁, hb₁, hbuild⟩ := bind_eq_ok.mp hbuild
      obtain ⟨op, hop, hbuild⟩ := bind_eq_ok.mp hbuild
      obtain ⟨node, hget, hbuild⟩ := bind_eq_ok.mp hbuild
      have hop := operationAt_ok hop
      have ⟨h₁, hin₁, hkeeps⟩ := h.buildOperation (hused i (by simp)) hb₁
      have hprev : List.Forall₂ (OutputOf plan b₁) done b₁.outputs := by
        rw [hkeeps.outputs]
        exact houtputs.imp fun _ _ ⟨op', hop', hschema, hphase, hget'⟩ =>
          ⟨op', hop', hschema, hphase, get_of_ops hkeeps.ops hget'⟩
      have hrest := @ih { b₁ with outputs := b₁.outputs ++ [_] } (done ++ [i])
        { h₁ with
          ok := { h₁.ok with }
          built := fun j hj => by
            obtain ⟨op', hop', hhalves, hrest⟩ := h₁.built j hj
            exact ⟨op', hop', hhalves.noting _ _, hrest⟩ }
        (fun j hj => hused j (by simp [hj]))
        (fun j hj => by
          rcases List.mem_append.mp hj with hj | hj
          · exact hkeeps.built (hdone j hj)
          · rw [List.mem_singleton.mp hj]
            exact hin₁)
        (List.rel_append hprev (.cons ⟨op, hop, rfl, rfl, hget⟩ .nil)) hbuild
      rwa [List.append_assoc] at hrest

/-- **What `build` makes of a plan.** -/
theorem build_covers (hbuild : build plan = .ok b) :
    Covers plan b ∧ (∀ i ∈ plan.topOperations, i ∈ b.built) ∧
      List.Forall₂ (OutputOf plan b) plan.topOperations b.outputs := by
  have hrest := @Covers.buildTop _ _ _ plan empty b plan.topOperations [] (covers_empty plan)
    (fun i hi => .top hi) (by simp) .nil hbuild
  simpa using hrest

end Build

end Builder

end Lsql.Phys
