import Lsql.Phys.Built

/-!
# Lsql.Phys.Run

Running a built program (`cli/run.h`).

A consumer is subscribed to every output, and then the sources push, phase by phase; those of one
phase push at the same time. Whatever the order of their interactions is, every input of every
operator is called by the stream protocol.
-/

namespace Lsql.Phys

open Lsql.Exec Lsql.Plan Flow

namespace Builder

/-! ### The outputs -/

/-- The loop of `runWithSinks` over the outputs: each gets a consumer. -/
def attach : List Output → Builder → Except Fault Builder
  | [], b => .ok b
  | o :: outputs, b => do
    let (b, node) := b.newOperation
      (.consumerBridge { columns := o.schema.columns, consumed := [], isDone := false }) 0 o.phase
    let b ← b.output o.node ⟨node, 0⟩
    attach outputs b

/-- A program with its consumers. -/
def program [Platform] [HashOrder] [Storage] (plan : Plan) : Except Fault Builder := do
  let b ← build plan
  attach b.outputs b

/-- What attaching the consumers adds. -/
structure Attached (outs : List Output) (b b' : Builder) : Prop extends Grows b b' where
  ok : b'.Ok
  entries : b'.ops = b.ops
  subscribed : ∀ o ∈ outs, b'.subs o.node ≠ []
  new : ∀ {n t}, t ∈ b'.subs n → t ∈ b.subs n ∨ ∃ o ∈ outs, o.node = n

theorem Ok.attach {b b' : Builder} {outputs : List Output} (h : b.Ok)
    (houtputs : ∀ o ∈ outputs, ∃ i, ((o.phase, i), o.node) ∈ b.ops)
    (hattach : Builder.attach outputs b = .ok b') : Attached outputs b b' := by
  induction outputs generalizing b with
  | nil =>
      cases hattach
      exact { Grows.refl b' with
        ok := h
        entries := rfl
        subscribed := by simp
        new := fun ht => .inl ht }
  | cons o outputs ih =>
      obtain ⟨b₁, hout, hattach⟩ := bind_eq_ok.mp hattach
      have hwired := @Ok.newOperation b
        (.consumerBridge { columns := o.schema.columns, consumed := [], isDone := false }) 0 o.phase
        h (Nat.zero_lt_of_lt (h.cells 0)) trivial nofun
      obtain ⟨i, hentry⟩ := houtputs o (by simp)
      have ⟨hlt, hphase, hexposed⟩ := hwired.heads _ hentry
      have hop := @newOperation_op_self b
        (.consumerBridge { columns := o.schema.columns, consumed := [], isDone := false }) 0 o.phase
      have hsame := sameNodes_output hout
      have hwired₁ := hwired.output (Nat.lt_succ_self _) (by rw [hop]; exact Nat.one_pos) hlt
        hexposed (by rw [hphase]; exact newOperation_phase_self) hout
      have hok₁ := hwired₁.ok (hsame.sourced (h.newOperation_sourced nofun)) fun _ => by
        rw [hsame.op]
        exact Nat.le_of_eq (congrArg Operator.ports hop)
      have hgrows := (grows_newOperation b _ 0 o.phase).trans hsame.grows
      have hrest := ih hok₁ (fun o ho => by rw [hsame.ops]; exact houtputs o (by simp [ho])) hattach
      exact { hgrows.trans hrest.toGrows with
        ok := hrest.ok
        entries := hrest.entries.trans hsame.ops
        subscribed := fun o' ho' => by
          rcases List.mem_cons.mp ho' with rfl | ho'
          · have hmem : (⟨b.size, 0⟩ : Port) ∈ b₁.subs o'.node := by
              rw [output_subs hout]
              simp
            exact List.ne_nil_of_mem (hrest.subs _ hmem)
          · exact hrest.subscribed o' ho'
        new := fun {n t} ht => by
          rcases hrest.new ht with ht | ⟨o', ho', rfl⟩
          · by_cases hn : n = o.node
            · exact .inr ⟨o, by simp, hn.symm⟩
            · rw [output_subs hout, Function.update_of_ne hn] at ht
              exact .inl ht
          · exact .inr ⟨o', by simp [ho'], rfl⟩ }

/-- What a built program with its consumers is. -/
structure Runs (plan : Plan) (b : Builder) : Prop where
  ok : b.Ok
  halves : ∀ {i op}, plan.Used i → plan.operations[i]? = some op → b.HalvesAt i op
  outputs : List.Forall₂ (OutputOf plan b) plan.topOperations b.outputs
  entries : ∀ {n t}, t ∈ b.subs n → ∃ i phase, b.get i phase = .ok n
  waited : ∀ {i phase n op}, b.get i phase = .ok n → plan.operations[i]? = some op →
    phase ∈ op.phases → (b.subs n ≠ [] ↔ plan.ReadAt i phase)

section Program

variable [Platform] [HashOrder] [Storage] {plan : Plan} {b : Builder}

omit [Platform] [HashOrder] [Storage] in
/-- Every operation that the plan uses has been built. -/
theorem Covers.used_built (h : Covers plan b) (htop : ∀ i ∈ plan.topOperations, i ∈ b.built)
    {i : Nat} (hused : plan.Used i) : i ∈ b.built := by
  induction hused with
  | top hi => exact htop _ hi
  | source _ hop hi ih =>
      obtain ⟨op', hop', -, hsources, -⟩ := h.built _ ih
      rw [hop] at hop'
      cases hop'
      exact hsources _ hi

omit [Platform] [HashOrder] [Storage] in
/-- The entry of a node is unique. -/
theorem Ok.get_unique (h : b.Ok) {i j phase phase' n : Nat} (hi : b.get i phase = .ok n)
    (hj : b.get j phase' = .ok n) : i = j ∧ phase = phase' := by
  have heq := h.heads_unique _ (get_mem hi) _ (get_mem hj) rfl
  cases heq
  exact ⟨rfl, rfl⟩

theorem program_runs (hprogram : program plan = .ok b) : Runs plan b := by
  obtain ⟨b₀, hbuild, hattach⟩ := bind_eq_ok.mp hprogram
  obtain ⟨hcovers, htop, houtputs⟩ := build_covers hbuild
  have hentries : ∀ o ∈ b₀.outputs, ∃ i, ((o.phase, i), o.node) ∈ b₀.ops := fun o ho => by
    obtain ⟨i, -, op, -, -, hphase, hget⟩ := forall₂_mem_right houtputs ho
    exact ⟨i, hphase ▸ get_mem hget⟩
  have ha := hcovers.ok.attach hentries hattach
  have hget : ∀ {i phase n}, b.get i phase = .ok n → b₀.get i phase = .ok n := fun h => by
    rwa [get_congr ha.entries] at h
  refine ⟨ha.ok, fun {i op} hused hop => ?_, ?_, fun {n t} ht => ?_,
    fun {i phase n op} hn hop hphase => ⟨fun hne => ?_, ?_⟩⟩
  · obtain ⟨op', hop', hhalves, -⟩ := hcovers.built i (hcovers.used_built htop hused)
    rw [hop] at hop'
    cases hop'
    exact hhalves.grows ha.toGrows fun e he => .inl (ha.entries ▸ he)
  · rw [ha.outputs]
    exact houtputs.imp fun _ _ ⟨op, hop, hschema, hphase, hn⟩ =>
      ⟨op, hop, hschema, hphase, ha.get hn⟩
  · rcases ha.new ht with ht | ⟨o, ho, rfl⟩
    · obtain ⟨-, -, -, -, e, -, hn⟩ := hcovers.readers ht
      exact ⟨e.1, e.2, ha.get hn⟩
    · obtain ⟨i, -, op, -, -, -, hn⟩ := forall₂_mem_right houtputs ho
      exact ⟨i, op.minPhase, ha.get hn⟩
  · refine ⟨⟨op, hop, hphase⟩, ?_⟩
    obtain ⟨t, ht⟩ := List.exists_mem_of_ne_nil _ hne
    rcases ha.new ht with ht | ⟨o, ho, rfl⟩
    · obtain ⟨j, hj, op', hop', e, he, he'⟩ := hcovers.readers ht
      obtain ⟨rfl, rfl⟩ := hcovers.ok.get_unique (hget hn) he'
      exact .inr ⟨j, op', hcovers.used j hj, hop', he⟩
    · obtain ⟨k, hk, op', hop', -, -, hn'⟩ := forall₂_mem_right houtputs ho
      obtain ⟨rfl, rfl⟩ := hcovers.ok.get_unique (hget hn) hn'
      exact .inl ⟨hk, (minPhase_eq hop').symm⟩
  · rintro ⟨-, ⟨hi, rfl⟩ | ⟨j, op', hused, hop', hmem⟩⟩
    · obtain ⟨o, ho, op', hop', -, -, hn'⟩ := forall₂_mem_left houtputs hi
      rw [minPhase_eq hop'] at hn
      have : n = o.node := Except.ok.inj ((hget hn).symm.trans hn')
      exact this ▸ ha.subscribed o ho
    · obtain ⟨op'', hop'', -, -, hreads⟩ := hcovers.built j (hcovers.used_built htop hused)
      rw [hop'] at hop''
      cases hop''
      obtain ⟨n', hn', hne⟩ := hreads _ hmem
      have : n = n' := Except.ok.inj ((hget hn).symm.trans hn')
      exact fun hnil => hne (List.subset_nil.mp (this ▸ hnil ▸ ha.subs n))

end Program

end Builder

/-! ### Runs -/

namespace Builder

variable [Platform] [Algorithms]

/-- The network of a built program, before the first interaction. -/
def net (b : Builder) : Net Operator Cell Record where
  op := b.op
  subs := b.subs
  cell := b.cell
  heap := b.heap
  log _ := []
  sent _ := []

/-- A built program before the first interaction: every source is about to push. -/
def initial (b : Builder) : Net.State Operator Fault Cell Record where
  net := b.net
  threads := b.sources.map fun s => { node := s.node, body := s.push }

/-- The call of an input. Calls nest at most as deep as there are operators. -/
def deliver (b : Builder) : Net.Deliver Operator Fault Cell Record :=
  Net.call Operator.consume b.size

/-- A run: interactions of the sources in the order of a schedule. -/
def run (b : Builder) (schedule : List Nat) :
    Except (Stop Fault) (Net.State Operator Fault Cell Record) :=
  b.initial.run b.deliver schedule

/-- The fixed part of the network. -/
def layout (b : Builder) : Layout where
  size := b.size
  subs := b.subs
  ports i := (b.op i).ports
  owner i := (b.op i).owner
  cell := b.cell

omit [Platform] [Algorithms] in
theorem Ok.sound {b : Builder} (h : b.Ok) : b.layout.Sound where
  forward := h.forward
  bounded := h.bounded
  inRange := h.inRange
  nodup := h.nodup
  unique := h.unique
  owned := h.owned

omit [Platform] [Algorithms] in
theorem Ok.layout_connected {b : Builder} (h : b.Ok) : b.layout.Connected := fun i hi p hp =>
  h.connected i hi p hp (.inl (Nat.ne_of_lt hi))

/-- The collectors of a program as they were built. -/
def start (b : Builder) (i : Nat) : CollectorStart where
  collects := (b.op i).collects
  materializes := (b.op i).materializes
  collector := (b.op i).collectorOf
  waited := b.net.active i

/-- The program meets the protocol before the first interaction. -/
theorem Ok.initial {b : Builder} (h : b.Ok) :
    Net.RunOk (Operator.contract b.start) b.layout b.initial where
  follows := {
    ports := fun _ => rfl
    owner := fun _ => rfl
    cell := rfl
    sub := fun _ => List.Sublist.refl _
    left := fun ht => .inl ht
    logs := fun _ => .inl open_nil }
  ok i _ := by
    refine ⟨(h.fresh i).inv rfl rfl fun hquiet => ?_, ⟨?_, ?_, ?_⟩⟩
    · exact Net.active_eq_false.mpr (h.quiet i hquiet)
    · exact fun t _ => ⟨open_nil, rfl⟩
    · exact fun t _ => List.prefix_rfl
    · exact .inl (by simp [Builder.initial, net])
  source th hth := by
    obtain ⟨s, hs, rfl⟩ := List.mem_map.mp hth
    have hop := (h.sources s hs).2.1
    exact ⟨congrArg Operator.ports hop, congrArg Operator.owner hop⟩
  drains th hth := by
    obtain ⟨s, hs, rfl⟩ := List.mem_map.mp hth
    exact (h.sources s hs).2.2.2 _ _
  nodup := by
    simpa [Builder.initial, Function.comp_def] using h.sources_nodup

/-- **The stream protocol.** Whatever a plan is built into and in whatever order its sources push,
every input is called with records and then with at most one end of the stream, is not called again
after it answered `false`, and if it refuses no record it has been called with one end of the stream
once all sources below it have ended. -/
theorem stream_protocol [HashOrder] [Storage] {plan : Plan} {b : Builder}
    (hprogram : program plan = .ok b) (schedule : List Nat) :
    b.run schedule ≠ .error .tooDeep ∧ ∀ st, b.run schedule = .ok st →
      (∀ t, WellFormed (st.net.log t)) ∧
      ∀ i t, t ∈ b.subs i → Net.SourcesEnded b.layout st i →
        (∀ e ∈ st.net.log t, e.1 ≠ none → e.2 = true) →
        ∃ records : List Record,
          st.net.log t = records.map (fun r => (some r, true)) ++ [(none, false)] := by
  have hok := (program_runs hprogram).ok
  have hrun : Net.Ensures (Net.RunOk (Operator.contract b.start) b.layout) (b.run schedule) :=
    Net.run_spec hok.sound hok.initial
  refine ⟨hrun.ne_tooDeep, fun st hst => ?_⟩
  have hr := hrun.of_ok hst
  exact ⟨hr.wellFormed, fun i t ht hend htakes =>
    hr.eof hok.sound hok.layout_connected ht hend htakes⟩

end Builder

/-! ### A small program -/

/-- An implementation of the library algorithms. -/
@[reducible] def Algorithms.plain : Algorithms where
  sort less l := l.mergeSort fun a b => !less b a
  sort_perm _ _ := List.mergeSort_perm _ _
  pop _ l := match l with
    | [] => none
    | a :: l => some (a, l)
  pop_perm _ l := by cases l <;> simp
  mapOrder l := l
  mapOrder_perm _ := List.Perm.refl _

/-- A storage without files. -/
@[reducible] def Storage.empty : Storage where
  openLog _ _ _ := .error (.exception "no such file")
  openStream _ := .error (.exception "no such command")

/-- Two values, read by a limit and by a union, and the limit read by the union and as a result. -/
def sharedPlan : Plan where
  operations := [
    { node := .values [.integer 1, .integer 2], minPhase := 0, schema := .withField 1,
      requiredFields := [(0, .withField 1)] },
    { node := .limit 0 1, minPhase := 0, schema := .withField 1,
      requiredFields := [(0, .withField 1)] },
    { node := .unionAll [0, 1], minPhase := 0, schema := .withField 1,
      requiredFields := [(0, .withField 1)] }]
  topOperations := [2, 1]
  fieldBinding := .empty
  acyclic i op h j hj := by
    match i, h with
    | 0, h | 1, h | 2, h =>
      cases h
      simp [OperationNode.sources] at hj <;> omega
  wellFormed op h := by
    simp only [List.mem_cons, List.not_mem_nil, or_false] at h
    rcases h with rfl | rfl | rfl <;> exact ⟨by simp, by simp [Operation.phases]⟩

theorem sharedPlan_builds : (@Builder.program .inert .insertion .empty sharedPlan).isOk = true := by
  rfl

theorem stream_protocol_shared : ∃ b,
    @Builder.program .inert .insertion .empty sharedPlan = .ok b ∧
      ∀ schedule st, @Builder.run .inert .plain b schedule = .ok st →
        ∀ t, WellFormed (st.net.log t) := by
  obtain ⟨b, hb⟩ := exists_of_isOk sharedPlan_builds
  exact ⟨b, hb, fun schedule st hst =>
    ((@Builder.stream_protocol .inert .plain .insertion .empty sharedPlan b hb schedule).2 st
      hst).1⟩

end Lsql.Phys
