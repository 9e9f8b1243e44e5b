import Lsql.Phys.Built
import Lsql.Plan.Totality

/-!
# Lsql.Phys.Totality

Building comes to an end (`Builder` in `back/exec/phys/build.cpp`).

The builder looks operations up in the phases in which they are required. In a plan whose operations
have what they ask for, each of them has been built by then, so that no lookup fails, and the half of
a join that collects belongs to an earlier phase than those that answer. With the planner in front:
every well-formed program is planned and built.
-/

namespace Lsql.Phys

open Lsql.Exec Lsql.Plan Flow

namespace Builder

/-! ### Single steps that return -/

/-- The keys of the operations that can be looked up. -/
def keys (b : Builder) : List (Nat × Nat) := b.ops.map Prod.fst

/-- Operation `i` can be looked up in more phases, and nothing else has been added. -/
def Entered (i : Nat) (phases : List Nat) (b b' : Builder) : Prop :=
  b'.keys = b.keys ++ phases.map fun phase => (phase, i)

theorem Entered.trans {i : Nat} {ps qs : List Nat} {b b' b'' : Builder} (h : Entered i ps b b')
    (h' : Entered i qs b' b'') : Entered i (ps ++ qs) b b'' := by
  rw [Entered, h', h, List.map_append, List.append_assoc]

/-- A key is found. -/
theorem get_of_key {b : Builder} {i phase : Nat} (h : (phase, i) ∈ b.keys) :
    ∃ n, b.get i phase = .ok n := by
  obtain ⟨e, he, hkey⟩ := List.mem_map.mp h
  rw [get]
  cases hfind : b.ops.find? fun e => e.1 == (phase, i) with
  | some e' => exact ⟨e'.2, rfl⟩
  | none => exact absurd hkey (by simpa using List.find?_eq_none.mp hfind e he)

theorem insert_returns {b : Builder} {i phase : Nat} (node : Nat) (h : (phase, i) ∉ b.keys) :
    ∃ b', b.insert i phase node = .ok b' ∧ Entered i [phase] b b' := by
  have hnone : (b.ops.any fun e => e.1 == (phase, i)) = false := by
    refine List.any_eq_false.mpr fun e he => ?_
    rw [beq_iff_eq]
    rintro heq
    exact h (heq ▸ List.mem_map_of_mem he)
  rw [insert, hnone]
  refine ⟨_, rfl, ?_⟩
  rw [Entered, keys, List.map_append]
  rfl

theorem buildSource_returns {b : Builder} {i phase : Nat} (state : Nat) (push : Body Unit)
    (h : (phase, i) ∉ b.keys) :
    ∃ b', buildSource i state push b phase = .ok b' ∧ Entered i [phase] b b' :=
  @insert_returns (b.addSource state phase push).1 i phase b.size h

/-- Every input of the newest node can be subscribed, if its source can be looked up. -/
theorem Wired.subscribe_returns {b : Builder} {node index : Nat} {inputs : List (Nat × Nat)}
    (h : b.Wired node index) (hnode : node < b.size)
    (hports : (b.op node).ports = index + inputs.length)
    (hphase : ∀ e ∈ inputs, e.2 = b.phase node)
    (hinputs : ∀ e ∈ inputs, ∃ n, b.get e.1 e.2 = .ok n) :
    ∃ b', b.subscribe node index inputs = .ok b' := by
  induction inputs generalizing b index with
  | nil => exact ⟨b, rfl⟩
  | cons e inputs ih =>
      obtain ⟨source, phase⟩ := e
      obtain ⟨n, hget⟩ := hinputs (source, phase) List.mem_cons_self
      have ⟨hn, hnphase, hexposed⟩ := h.heads _ (get_mem hget)
      -- the port is new to the source
      have hfree : ((b.subs n).contains ⟨node, index⟩) = false := by
        simpa using h.unconnected index (Nat.le_refl index) n
      obtain ⟨b₁, hout⟩ : ∃ b₁, b.output n ⟨node, index⟩ = .ok b₁ := by
        rw [Builder.output, hfree]
        exact ⟨_, rfl⟩
      have hsame := sameNodes_output hout
      have hphase₀ : phase = b.phase node := hphase (source, phase) List.mem_cons_self
      have h₁ := h.output hnode (by rw [hports]; simp) hn hexposed (by rw [hnphase, ← hphase₀]) hout
      obtain ⟨b₂, hsub⟩ := ih h₁ (by rw [hsame.size]; exact hnode)
        (by rw [hsame.op, hports, List.length_cons]; omega)
        (fun e he => by rw [hsame.phase]; exact hphase e (List.mem_cons_of_mem _ he))
        (fun e he => by
          rw [get_congr hsame.ops]
          exact hinputs e (List.mem_cons_of_mem _ he))
      exact ⟨b₂, by rw [Builder.subscribe, hget, ok_bind, hout, ok_bind, hsub]⟩

theorem Ok.addOperation_returns {b : Builder} {op : Operator} {state phase : Nat}
    {inputs : List (Nat × Nat)} (h : b.Ok) (hstate : state < b.cells)
    (hfresh : op.Fresh (b.heap state))
    (howned : op.owner = true → ∀ i, (b.op i).owner = true → b.cell i ≠ state)
    (hports : op.ports = inputs.length) (hphase : ∀ e ∈ inputs, e.2 = phase)
    (hinputs : ∀ e ∈ inputs, ∃ n, b.get e.1 e.2 = .ok n) :
    ∃ made, b.addOperation op state phase inputs = .ok made := by
  have hop : (b.newOperation op state phase).1.op b.size = op := newOperation_op_self
  have hat : (b.newOperation op state phase).1.phase b.size = phase := newOperation_phase_self
  obtain ⟨b', hsub⟩ := (h.newOperation hstate hfresh howned).subscribe_returns (Nat.lt_succ_self _)
    (by rw [hop, hports, Nat.zero_add]) (fun e he => (hphase e he).trans hat.symm) hinputs
  exact ⟨(b', b.size), bind_eq_ok.mpr ⟨b', hsub, rfl⟩⟩

theorem Ok.buildPhase_returns {b : Builder} {i state phase : Nat} {op : Operator}
    {inputs : List (Nat × Nat)} (h : b.Ok) (hstate : state < b.cells)
    (hop : Plain op inputs.length) (hphase : ∀ e ∈ inputs, e.2 = phase)
    (hinputs : ∀ e ∈ inputs, ∃ n, b.get e.1 e.2 = .ok n) (hnew : (phase, i) ∉ b.keys) :
    ∃ b', Builder.buildPhase i state op inputs b phase = .ok b' ∧ Entered i [phase] b b' := by
  have howned : op.owner = true → ∀ j, (b.op j).owner = true → b.cell j ≠ state := by
    rw [hop.owner]
    exact fun hf => absurd hf Bool.false_ne_true
  obtain ⟨⟨b₁, node⟩, hadd⟩ := h.addOperation_returns hstate (hop.fresh _) howned hop.ports hphase
    hinputs
  have hkeys : b₁.keys = b.keys := congrArg (List.map Prod.fst)
    (h.addOperation hstate (hop.fresh _) howned hop.ne_source hop.ports hphase hadd).ops
  obtain ⟨b₂, hins, hentered⟩ := @insert_returns b₁ i phase node (hkeys ▸ hnew)
  refine ⟨b₂, bind_eq_ok.mpr ⟨(b₁, node), hadd, hins⟩, ?_⟩
  rw [Entered, ← hkeys]
  exact hentered

/-- A loop over the required phases returns if its body does, in a phase that is new. -/
theorem forPhases_returns {f : Builder → Nat → FieldSet → Except Fault Builder} {i : Nat}
    (I : Builder → Prop) {required : List (Nat × FieldSet)} {b : Builder}
    (hstep : ∀ {b : Builder} {phase fields}, (phase, fields) ∈ required → I b →
      (phase, i) ∉ b.keys → ∃ b', f b phase fields = .ok b' ∧ I b' ∧ Entered i [phase] b b')
    (hordered : (required.map Prod.fst).Pairwise (· < ·)) (h : I b)
    (hnew : ∀ phase ∈ required.map Prod.fst, (phase, i) ∉ b.keys) :
    ∃ b', forPhases f required b = .ok b' ∧ I b' ∧ Entered i (required.map Prod.fst) b b' := by
  induction required generalizing b with
  | nil => exact ⟨b, rfl, h, (List.append_nil _).symm⟩
  | cons e required ih =>
      obtain ⟨phase, fields⟩ := e
      obtain ⟨hfirst, hrest⟩ := List.pairwise_cons.mp hordered
      obtain ⟨b₁, hb₁, h₁, hentered₁⟩ := hstep List.mem_cons_self h (hnew phase List.mem_cons_self)
      have hnew₁ : ∀ later ∈ required.map Prod.fst, (later, i) ∉ b₁.keys := by
        intro later hlater hmem
        rw [hentered₁] at hmem
        rcases List.mem_append.mp hmem with hmem | hmem
        · exact hnew later (List.mem_cons_of_mem _ hlater) hmem
        · have heq : later = phase := congrArg Prod.fst (List.mem_singleton.mp hmem)
          exact Nat.ne_of_gt (hfirst later hlater) heq
      obtain ⟨b₂, hb₂, h₂, hentered₂⟩ := ih (fun hmem => hstep (List.mem_cons_of_mem _ hmem)) hrest h₁
        hnew₁
      exact ⟨b₂, by rw [forPhases, hb₁, ok_bind, hb₂], h₂, hentered₁.trans hentered₂⟩

/-! ### Collectors, joins and sources -/

section Nodes

variable {b : Builder} {i : Nat} {required : List (Nat × FieldSet)}

/-- A loop that adds a source in each phase. -/
theorem forSources_returns {f : Builder → Nat → FieldSet → Except Fault Builder}
    (hordered : (required.map Prod.fst).Pairwise (· < ·)) (hnew : ∀ phase, (phase, i) ∉ b.keys)
    (hstep : ∀ {b : Builder} {phase fields}, (phase, fields) ∈ required → (phase, i) ∉ b.keys →
      ∃ b', f b phase fields = .ok b' ∧ Entered i [phase] b b') :
    ∃ b', forPhases f required b = .ok b' ∧ Entered i (required.map Prod.fst) b b' := by
  obtain ⟨b', hb', -, hentered⟩ := forPhases_returns (fun _ => True)
    (fun hmem _ hphase => by
      obtain ⟨b₁, hb₁, hentered₁⟩ := hstep hmem hphase
      exact ⟨b₁, hb₁, trivial, hentered₁⟩) hordered trivial fun phase _ => hnew phase
  exact ⟨b', hb', hentered⟩

/-- A node in each phase, over inputs that can be looked up. -/
theorem Ok.buildPhases_return {state n : Nat} {opOf : FieldSet → Operator} (h : b.Ok)
    (inputs : Nat → List (Nat × Nat)) (hstate : state < b.cells)
    (hop : ∀ fields, Plain (opOf fields) n)
    (hinputs : ∀ phase, (inputs phase).length = n ∧ ∀ e ∈ inputs phase, e.2 = phase)
    (hget : ∀ phase ∈ required.map Prod.fst, ∀ e ∈ inputs phase, ∃ n, b.get e.1 e.2 = .ok n)
    (hordered : (required.map Prod.fst).Pairwise (· < ·)) (hnew : ∀ phase, (phase, i) ∉ b.keys) :
    ∃ b', Builder.forPhases (fun b phase fields => Builder.buildPhase i state (opOf fields)
      (inputs phase) b phase) required b = .ok b' ∧ Entered i (required.map Prod.fst) b b' := by
  obtain ⟨b', hb', -, hentered⟩ := forPhases_returns (fun b' => b'.Ok ∧ Grows b b')
    (fun {b₁ phase fields} hmem hI hphase => by
      obtain ⟨hok, hgrows⟩ := hI
      have hcells := Nat.lt_of_lt_of_le hstate hgrows.cells
      have hplain : Plain (opOf fields) (inputs phase).length := (hinputs phase).1 ▸ hop fields
      obtain ⟨b₂, hb₂, hentered₂⟩ := hok.buildPhase_returns hcells hplain (hinputs phase).2
        (fun e he => by
          obtain ⟨n, hn⟩ := hget phase (List.mem_map_of_mem hmem) e he
          exact ⟨n, hgrows.get hn⟩) hphase
      have hmade := hok.buildPhase hcells hplain (hinputs phase).2 hb₂
      exact ⟨b₂, hb₂, ⟨hmade.ok, hgrows.trans hmade.toGrows⟩, hentered₂⟩)
    hordered ⟨h, Grows.refl b⟩ fun phase _ => hnew phase
  exact ⟨b', hb', hentered⟩

/-- The collecting half of an operation, with a state object of its own. -/
theorem Ok.newCollector_returns {source phase : Nat} {state : Cell} {collector : Operator} (h : b.Ok)
    (hfresh : collector.Fresh state) (hports : collector.ports = 1)
    (hget : ∃ n, b.get source phase = .ok n) :
    ∃ made, (b.newState state).1.addOperation collector b.cells phase [(source, phase)] = .ok made ∧
      Added (b.newState state).1 made.1 collector b.cells phase [(source, phase)] made.2 := by
  have hheap : (b.newState state).1.heap b.cells = state := Function.update_self ..
  have hinputs : ∀ e ∈ [(source, phase)], ∃ n, (b.newState state).1.get e.1 e.2 = .ok n :=
    List.forall_mem_singleton.mpr hget
  obtain ⟨made, hadd⟩ := (h.newState state).addOperation_returns
    (Nat.lt_succ_self _) (by rw [hheap]; exact hfresh) (fun _ j _ => Nat.ne_of_lt (h.cells j))
    (by rw [hports]; rfl) (List.forall_mem_singleton.mpr rfl) hinputs
  exact ⟨made, hadd, h.addCollector hfresh hports hadd⟩

theorem Ok.buildCollected_returns {minPhase source : Nat} {state : Cell} {collector : Operator}
    {push : Body Unit} (h : b.Ok) (hfresh : collector.Fresh state) (hports : collector.ports = 1)
    (hget : ∃ n, b.get source minPhase = .ok n)
    (hordered : (required.map Prod.fst).Pairwise (· < ·)) (hnew : ∀ phase, (phase, i) ∉ b.keys) :
    ∃ b', Builder.buildCollected i minPhase source required state collector push b = .ok b' ∧
      Entered i (required.map Prod.fst) b b' := by
  obtain ⟨⟨b₁, node⟩, hadd, hadded⟩ := h.newCollector_returns hfresh hports hget
  have hkeys : b₁.keys = b.keys := congrArg (List.map Prod.fst) hadded.ops
  obtain ⟨b₂, hloop, hentered⟩ := @forSources_returns b₁ i required
    (fun b' phase _ =>
      if phase = minPhase then b'.insert i phase node
      else Builder.buildSource i b.cells push b' phase) hordered
    (fun phase => hkeys ▸ hnew phase) (fun _ hphase => by
      split
      · exact insert_returns node hphase
      · exact buildSource_returns _ push hphase)
  refine ⟨b₂, bind_eq_ok.mpr ⟨(b₁, node), hadd, hloop⟩, ?_⟩
  rwa [Entered, ← hkeys]

theorem Ok.buildJoin_returns {matchPhase matched source : Nat} {state : Cell}
    {buildOp probeOp : Operator} (h : b.Ok) (hfresh : buildOp.Fresh state) (hports : buildOp.ports = 1)
    (hprobe : Plain probeOp 1) (hmatched : ∃ n, b.get matched matchPhase = .ok n)
    (hsource : ∀ phase ∈ required.map Prod.fst, ∃ n, b.get source phase = .ok n)
    (hordered : (required.map Prod.fst).Pairwise (· < ·)) (hnew : ∀ phase, (phase, i) ∉ b.keys) :
    ∃ b', Builder.buildJoin i matchPhase matched source required state buildOp probeOp b = .ok b' ∧
      Entered i (required.map Prod.fst) b b' := by
  obtain ⟨⟨b₁, node⟩, hadd, hadded⟩ := h.newCollector_returns hfresh hports hmatched
  have hkeys : b₁.keys = b.keys := congrArg (List.map Prod.fst) hadded.ops
  have hget : ∀ i phase, b₁.get i phase = b.get i phase := get_congr hadded.ops
  obtain ⟨b₂, hloop, hentered⟩ := hadded.ok.buildPhases_return (i := i)
    (fun phase => [(source, phase)])
    (Nat.lt_of_lt_of_le (Nat.lt_succ_self b.cells) hadded.reads.cells) (fun _ => hprobe)
    (fun _ => ⟨rfl, by simp⟩)
    (fun phase hphase => List.forall_mem_singleton.mpr (hget source phase ▸ hsource phase hphase))
    hordered (fun phase => hkeys ▸ hnew phase)
  refine ⟨b₂, bind_eq_ok.mpr ⟨(b₁, node), hadd, hloop⟩, ?_⟩
  rwa [Entered, ← hkeys]

end Nodes

/-! ### Operations -/

/-- The file or command of a source cannot be opened. -/
def Unopened [Storage] (e : Fault) : Prop :=
  (∃ path range timeFormat, Storage.openLog path range timeFormat = .error e) ∨
    ∃ command, Storage.openStream command = .error e

section Build

variable {b : Builder} {i : Nat} {op : Operation} {plan : Lsql.Plan}

/-- The fields of a phase, found again. -/
theorem fieldsAt_of_mem {required : List (Nat × FieldSet)} {phase : Nat} {fields : FieldSet}
    (hordered : (required.map Prod.fst).Pairwise (· < ·)) (hmem : (phase, fields) ∈ required) :
    fieldsAt required phase = fields := by
  induction required with
  | nil => cases hmem
  | cons e required ih =>
      obtain ⟨hfirst, hrest⟩ := List.pairwise_cons.mp hordered
      rw [fieldsAt]
      rcases List.mem_cons.mp hmem with rfl | hmem
      · rw [List.find?_cons_of_pos (by simp)]
      · have hlt := hfirst phase (List.mem_map_of_mem hmem)
        rw [List.find?_cons_of_neg (by simpa using Nat.ne_of_lt hlt), ← fieldsAt, ih hrest hmem]

theorem buildSlots_returns {binding : FieldBinding} {schema : Schema} {ids : List FieldId}
    (h : ∀ id ∈ ids, id ∈ schema.fields ∧ (binding.entry id).isSome = true)
    (slots : List (Bytes × Nat)) (numSlots : Nat) :
    ∃ r, buildSlots binding schema ids slots numSlots = .ok r := by
  induction ids generalizing slots numSlots with
  | nil => exact ⟨_, rfl⟩
  | cons id ids ih =>
      obtain ⟨hin, hnamed⟩ := h id List.mem_cons_self
      obtain ⟨entry, hentry⟩ := Option.isSome_iff_exists.mp hnamed
      rw [buildSlots]
      split
      next hnone => exact absurd hin (by simpa [Schema.slot, List.idxOf?_eq_none_iff] using hnone)
      · rw [FieldBinding.name, hentry]
        exact ih (fun id hid => h id (List.mem_cons_of_mem _ hid)) _ _

variable [HashOrder] [Platform]

/-- A source is built in each phase, if the columns that are required have names. -/
theorem buildLogs_returns (hsound : Sound plan.operations) (hop : plan.operations[i]? = some op)
    (hnamed : ∀ f ∈ op.schema.fields, (plan.fieldBinding.entry f).isSome = true) (file : LogFile)
    (hnew : ∀ phase, (phase, i) ∉ b.keys) :
    ∃ b', buildLogs plan.fieldBinding i op file b = .ok b' ∧ Entered i op.phases b b' := by
  have hordered := hsound.ordered i op hop
  refine forSources_returns hordered hnew fun {b₁ phase fields} hmem hphase => ?_
  have hin : ∀ id ∈ fields.fieldIds, id ∈ op.schema.fields := fun id hid =>
    hsound.inSchema i op hop phase id (fieldsAt_of_mem hordered hmem ▸ FieldSet.mem_fieldIds.mp hid)
  obtain ⟨⟨slots, numSlots⟩, hslots⟩ :=
    buildSlots_returns (fun id hid => ⟨hin id hid, hnamed id (hin id hid)⟩) [] 0
  obtain ⟨b₂, hb₂, hentered⟩ := buildSource_returns 0
    ({ file := file, slots := slots, numSlots := numSlots } : Log).push hphase
  exact ⟨b₂, by rw [buildLog, hslots]; exact hb₂, hentered⟩

variable [Storage]

/-- An operation is built, if what it reads can be looked up. One case for each kind. -/
theorem Ok.buildNode_ends (h : b.Ok) (hcomplete : Complete plan)
    (hop : plan.operations[i]? = some op) (hreads : ∀ e ∈ plan.reads op, ∃ n, b.get e.1 e.2 = .ok n)
    (hnew : ∀ phase, (phase, i) ∉ b.keys) :
    Ends Unopened (Entered i op.phases b) (Builder.buildNode plan i op b) := by
  have hordered := hcomplete.sound.ordered i op hop
  have hnode := hcomplete.wellPlanned i op hop
  have hlt := hcomplete.sound.sources_lt hop
  have hzero : 0 < b.cells := Nat.zero_lt_of_lt (h.cells 0)
  have hreturns : ∀ {x : Except Fault Builder}, (∃ b', x = .ok b' ∧ Entered i op.phases b b') →
      Ends Unopened (Entered i op.phases b) x := by
    rintro x ⟨b', rfl, hentered⟩
    exact hentered
  -- an operation with one input and a node in each phase
  have hone : ∀ {source : Nat} {opOf : FieldSet → Operator}, (∀ fields, Plain (opOf fields) 1) →
      (∀ phase ∈ op.phases, (source, phase) ∈ plan.reads op) →
      Ends Unopened (Entered i op.phases b) (Builder.forPhases (fun b phase fields =>
        Builder.buildPhase i 0 (opOf fields) [(source, phase)] b phase) op.requiredFields b) :=
    fun hplain hin => hreturns (h.buildPhases_return (fun phase => [(_, phase)]) hzero hplain
      (fun _ => ⟨rfl, by simp⟩)
      (fun phase hphase => List.forall_mem_singleton.mpr (hreads _ (hin phase hphase))) hordered hnew)
  have hphases : ∀ {source : Nat}, ∀ phase ∈ op.phases,
      (source, phase) ∈ op.phases.flatMap fun phase => [(source, phase)] := fun phase hphase =>
    List.mem_flatMap.mpr ⟨phase, hphase, List.mem_singleton_self _⟩
  have hat : ∀ j < plan.operations.length, ∃ m, operationAt plan j = .ok m ∧
      plan.minPhase j = m.minPhase := fun j hj => by
    have hm := List.getElem?_eq_getElem hj
    exact ⟨_, by rw [operationAt, hm], minPhase_eq hm⟩
  unfold Plan.reads at hreads hone
  unfold Builder.buildNode
  cases hkind : op.node with
    (rw [hkind] at hreads hone hnode hlt; dsimp only at hreads hone ⊢)
  | aggregate source aggregates ctx =>
      exact hreturns (h.buildCollected_returns rfl rfl (hreads _ (List.mem_singleton_self _))
        hordered hnew)
  | materialize source =>
      exact hreturns (h.buildCollected_returns rfl rfl (hreads _ (List.mem_singleton_self _))
        hordered hnew)
  | filter | group | limit | projection | sort | topK =>
      exact hone (fun _ => ⟨fun _ => trivial, rfl, rfl, by simp, rfl⟩) hphases
  | log path range timeFormat =>
      cases hfile : Storage.openLog path range timeFormat with
      | error e => exact .inl ⟨path, range, timeFormat, hfile⟩
      | ok file => exact hreturns (buildLogs_returns hcomplete.sound hop hnode file hnew)
  | stream command =>
      cases hfile : Storage.openStream command with
      | error e => exact .inr ⟨command, hfile⟩
      | ok file => exact hreturns (buildLogs_returns hcomplete.sound hop hnode file hnew)
  | values values =>
      exact hreturns (forSources_returns hordered hnew fun _ hphase =>
        buildSource_returns 0 (Values.push values) hphase)
  | hashMarkJoin matched source scalar matchFieldId outputFieldId =>
      obtain ⟨m, hm, hmin⟩ := hat matched (hlt _ List.mem_cons_self)
      obtain ⟨outputSlot, hslot⟩ : ∃ outputSlot, op.schema.slot outputFieldId = some outputSlot := by
        refine Option.ne_none_iff_exists'.mp fun hnone => ?_
        exact absurd hnode.2.1 (by simpa [Schema.slot, List.idxOf?_eq_none_iff] using hnone)
      rw [hslot]
      dsimp only
      rw [hm, ok_bind]
      exact hreturns (h.buildJoin_returns trivial rfl ⟨fun _ => trivial, rfl, rfl, by simp, rfl⟩
        (hmin ▸ hreads _ List.mem_cons_self)
        (fun phase hphase => hreads _ (List.mem_cons_of_mem _ (hphases phase hphase))) hordered hnew)
  | hashSemiJoin matched source scalar matchFieldId =>
      obtain ⟨m, hm, hmin⟩ := hat matched (hlt _ List.mem_cons_self)
      rw [hm, ok_bind]
      exact hreturns (h.buildJoin_returns trivial rfl ⟨fun _ => trivial, rfl, rfl, by simp, rfl⟩
        (hmin ▸ hreads _ List.mem_cons_self)
        (fun phase hphase => hreads _ (List.mem_cons_of_mem _ (hphases phase hphase))) hordered hnew)
  | hashLeftJoin left right leftKey rightKey =>
      obtain ⟨l, hl, -⟩ := hat left (hlt _ (List.mem_cons_of_mem _ List.mem_cons_self))
      obtain ⟨r, hr, hmin⟩ := hat right (hlt _ List.mem_cons_self)
      rw [hl, ok_bind, hr, ok_bind]
      exact hreturns (h.buildJoin_returns trivial rfl ⟨fun _ => trivial, rfl, rfl, by simp, rfl⟩
        (hmin ▸ hreads _ List.mem_cons_self)
        (fun phase hphase => hreads _ (List.mem_cons_of_mem _ (hphases phase hphase))) hordered hnew)
  | mergeSorted left right sortKey desc =>
      refine hreturns (h.buildPhases_return (fun phase => [(left, phase), (right, phase)]) hzero
        (fun _ => ⟨fun _ => ⟨rfl, rfl⟩, rfl, rfl, by simp, rfl⟩) (fun _ => ⟨rfl, by simp⟩)
        (fun phase hphase e he => hreads e ?_) hordered hnew)
      exact List.mem_flatMap.mpr ⟨phase, hphase, he⟩
  | unionAll sources =>
      have hpos : 0 < sources.length := List.length_pos_iff.mpr hnode.1
      refine hreturns (h.buildPhases_return (fun phase => sources.map fun source => (source, phase))
        hzero (fun _ => ⟨fun _ => ⟨rfl, rfl, hpos⟩, rfl, rfl, by simp, rfl⟩)
        (fun _ => ⟨by simp [Operator.ports], by simp⟩) (fun phase hphase e he => hreads e ?_)
        hordered hnew)
      exact List.mem_flatMap.mpr ⟨phase, hphase, he⟩

end Build

/-! ### The phases of joins -/

end Builder

/-- The half of a join that collects. -/
def Operator.buildsJoin : Operator → Bool
  | .semiJoinBuild | .markJoinBuild | .leftJoinBuild _ => true
  | _ => false

/-- The half of a join that answers. -/
def Operator.probesJoin : Operator → Bool
  | .semiJoinProbe _ | .markJoinProbe _ _ | .leftJoinProbe _ _ => true
  | _ => false

theorem Operator.probes_of_builds {op : Operator} (h : op.buildsJoin = true) :
    op.probesJoin = false := by
  cases op with
  | semiJoinBuild | markJoinBuild | leftJoinBuild => rfl
  | _ => cases h

namespace Builder

/-- The half of a join that collects runs in a phase before those that answer. The halves of a join
share a state object. -/
def JoinsOrdered (b : Builder) : Prop :=
  ∀ n n', (b.op n).buildsJoin = true → (b.op n').probesJoin = true → b.cell n = b.cell n' →
    b.phase n < b.phase n'

section Joins

variable {b b' : Builder} {op : Operator} {state phase i : Nat} {inputs : List (Nat × Nat)}

/-- One more node. -/
structure AddsNode (op : Operator) (state phase : Nat) (b b' : Builder) : Prop where
  op : b'.op = Function.update b.op b.size op
  cell : b'.cell = Function.update b.cell b.size state
  phase : b'.phase = Function.update b.phase b.size phase

theorem sameNodes_subscribe {node index : Nat} (h : b.subscribe node index inputs = .ok b') :
    SameNodes b b' := by
  induction inputs generalizing b index with
  | nil =>
      cases h
      exact ⟨rfl, rfl, rfl, rfl, rfl, rfl, rfl, rfl, rfl, rfl, fun _ => List.prefix_rfl⟩
  | cons e inputs ih =>
      obtain ⟨n, -, h⟩ := bind_eq_ok.mp h
      obtain ⟨b₁, hout, h⟩ := bind_eq_ok.mp h
      exact (sameNodes_output hout).trans (ih h)

theorem addOperation_adds {node : Nat}
    (h : b.addOperation op state phase inputs = .ok (b', node)) : AddsNode op state phase b b' := by
  obtain ⟨b₁, hsub, hb'⟩ := bind_eq_ok.mp h
  cases hb'
  have hsame := sameNodes_subscribe hsub
  exact ⟨hsame.op, hsame.cell, hsame.phase⟩

theorem buildPhase_adds (h : buildPhase i state op inputs b phase = .ok b') :
    AddsNode op state phase b b' := by
  obtain ⟨⟨b₁, node⟩, hadd, hins⟩ := bind_eq_ok.mp h
  obtain ⟨-, -, hb'⟩ := bind_eq_ok.mp hins
  cases hb'
  exact ⟨(addOperation_adds hadd).op, (addOperation_adds hadd).cell, (addOperation_adds hadd).phase⟩

theorem buildSource_adds {push : Body Unit} (h : buildSource i state push b phase = .ok b') :
    AddsNode .source state phase b b' := by
  obtain ⟨-, -, hb'⟩ := bind_eq_ok.mp h
  cases hb'
  exact ⟨rfl, rfl, rfl⟩

/-- A new half of a join, beside the halves that share its state object. -/
theorem JoinsOrdered.adds (h : b.JoinsOrdered) (hadds : AddsNode op state phase b b')
    (hbuild : op.buildsJoin = true → ∀ n, (b.op n).probesJoin = true → b.cell n = state →
      phase < b.phase n)
    (hprobe : op.probesJoin = true → ∀ n, (b.op n).buildsJoin = true → b.cell n = state →
      b.phase n < phase) : b'.JoinsOrdered := by
  intro n n' hn hn' hcell
  rw [hadds.op] at hn hn'
  rw [hadds.cell] at hcell
  rw [hadds.phase]
  by_cases heq : n = b.size <;> by_cases heq' : n' = b.size
  · subst heq
    subst heq'
    rw [Function.update_self] at hn hn'
    exact absurd ((Operator.probes_of_builds hn).symm.trans hn') Bool.false_ne_true
  · subst heq
    rw [Function.update_self] at hn hcell ⊢
    rw [Function.update_of_ne heq'] at hn' hcell ⊢
    exact hbuild hn n' hn' hcell.symm
  · subst heq'
    rw [Function.update_self] at hn' hcell ⊢
    rw [Function.update_of_ne heq] at hn hcell ⊢
    exact hprobe hn' n hn hcell
  · rw [Function.update_of_ne heq] at hn hcell ⊢
    rw [Function.update_of_ne heq'] at hn' hcell ⊢
    exact h n n' hn hn' hcell

/-- An operator that is no part of a join. -/
theorem JoinsOrdered.adds_other (h : b.JoinsOrdered) (hadds : AddsNode op state phase b b')
    (hop : op.buildsJoin = false ∧ op.probesJoin = false) : b'.JoinsOrdered :=
  h.adds hadds (fun hb => absurd (hop.1.symm.trans hb) Bool.false_ne_true)
    fun hp => absurd (hop.2.symm.trans hp) Bool.false_ne_true

theorem forPhases_keeps {f : Builder → Nat → FieldSet → Except Fault Builder}
    {required : List (Nat × FieldSet)} (I : Builder → Prop)
    (hstep : ∀ {b b' : Builder} {phase fields}, phase ∈ required.map Prod.fst → I b →
      f b phase fields = .ok b' → I b') (h : I b) (hloop : forPhases f required b = .ok b') :
    I b' := by
  induction required generalizing b with
  | nil =>
      cases hloop
      exact h
  | cons e required ih =>
      obtain ⟨b₁, hb₁, hloop⟩ := bind_eq_ok.mp hloop
      exact ih (fun hmem => hstep (List.mem_cons_of_mem _ hmem))
        (hstep List.mem_cons_self h hb₁) hloop

theorem JoinsOrdered.forSources {f : Builder → Nat → FieldSet → Except Fault Builder}
    {required : List (Nat × FieldSet)} (h : b.JoinsOrdered)
    (hstep : ∀ {b b' : Builder} {phase fields}, f b phase fields = .ok b' →
      AddsNode .source state phase b b') (hloop : Builder.forPhases f required b = .ok b') :
    b'.JoinsOrdered :=
  forPhases_keeps JoinsOrdered (fun _ h hb => h.adds_other (hstep hb) ⟨rfl, rfl⟩) h hloop

theorem JoinsOrdered.buildCollected {minPhase source : Nat} {required : List (Nat × FieldSet)}
    {state : Cell} {collector : Operator} {push : Body Unit} (h : b.JoinsOrdered)
    (hop : collector.buildsJoin = false ∧ collector.probesJoin = false)
    (hbuild : Builder.buildCollected i minPhase source required state collector push b = .ok b') :
    b'.JoinsOrdered := by
  obtain ⟨⟨b₁, node⟩, hadd, hloop⟩ := bind_eq_ok.mp hbuild
  have hstate : (b.newState state).1.JoinsOrdered := h
  refine forPhases_keeps JoinsOrdered (fun {b₂ b₃ phase _} _ h₂ hb => ?_)
    (hstate.adds_other (addOperation_adds hadd) hop) hloop
  split at hb
  · obtain ⟨-, -, hb₃⟩ := bind_eq_ok.mp hb
    cases hb₃
    exact h₂
  · exact h₂.adds_other (buildSource_adds hb) ⟨rfl, rfl⟩

/-- The collecting half comes first, with a state object that nobody has yet. -/
theorem JoinsOrdered.buildJoin {matchPhase matched source : Nat} {required : List (Nat × FieldSet)}
    {state : Cell} {buildOp probeOp : Operator} (h : b.JoinsOrdered) (hok : b.Ok)
    (hbuildOp : buildOp.probesJoin = false) (hprobeOp : probeOp.buildsJoin = false)
    (hphases : ∀ phase ∈ required.map Prod.fst, matchPhase < phase)
    (hbuild : Builder.buildJoin i matchPhase matched source required state buildOp probeOp b =
      .ok b') : b'.JoinsOrdered := by
  obtain ⟨⟨b₁, node⟩, hadd, hloop⟩ := bind_eq_ok.mp hbuild
  have hadds := addOperation_adds hadd
  have hstate : (b.newState state).1.JoinsOrdered := h
  have hfree : ∀ n, b.cell n ≠ b.cells := fun n => Nat.ne_of_lt (hok.cells n)
  have h₁ : b₁.JoinsOrdered := hstate.adds hadds (fun _ n _ hcell => absurd hcell (hfree n))
    fun hp => absurd (hbuildOp.symm.trans hp) Bool.false_ne_true
  -- the only collecting half with the state object is the one that has been added
  have hhalf : ∀ n, (b₁.op n).buildsJoin = true → b₁.cell n = b.cells → b₁.phase n = matchPhase := by
    intro n _ hcell
    rw [hadds.cell] at hcell
    rw [hadds.phase]
    by_cases hn : n = b.size
    · subst hn
      exact Function.update_self ..
    · rw [Function.update_of_ne (by exact hn)] at hcell
      exact absurd hcell (hfree n)
  refine (forPhases_keeps (fun b' => b'.JoinsOrdered ∧ ∀ n, (b'.op n).buildsJoin = true →
    b'.cell n = b.cells → b'.phase n = matchPhase) (fun {b₂ b₃ phase _} hmem hI hb => ?_)
    ⟨h₁, hhalf⟩ hloop).1
  obtain ⟨h₂, hhalf₂⟩ := hI
  have hadds₂ := buildPhase_adds hb
  refine ⟨h₂.adds hadds₂ (fun hf => absurd (hprobeOp.symm.trans hf) Bool.false_ne_true)
    fun _ n hn hcell => hhalf₂ n hn hcell ▸ hphases phase hmem, fun n hn hcell => ?_⟩
  rw [hadds₂.op] at hn
  rw [hadds₂.cell] at hcell
  rw [hadds₂.phase]
  by_cases heq : n = b₂.size
  · subst heq
    rw [Function.update_self] at hn
    exact absurd (hprobeOp.symm.trans hn) Bool.false_ne_true
  · rw [Function.update_of_ne heq] at hn hcell ⊢
    exact hhalf₂ n hn hcell

variable [Platform] [HashOrder] [Storage] {plan : Lsql.Plan} {operation : Operation}

theorem JoinsOrdered.buildNode (h : b.JoinsOrdered) (hok : b.Ok)
    (hphases : ∀ side, operation.node.buildSide = some side → ∀ phase ∈ operation.phases,
      plan.minPhase side < phase)
    (hbuild : Builder.buildNode plan i operation b = .ok b') : b'.JoinsOrdered := by
  have hone : ∀ {opOf : FieldSet → Operator} {inputs : Nat → List (Nat × Nat)},
      (∀ fields, (opOf fields).buildsJoin = false ∧ (opOf fields).probesJoin = false) →
      Builder.forPhases (fun b phase fields => Builder.buildPhase i 0 (opOf fields) (inputs phase) b
        phase) operation.requiredFields b = .ok b' → b'.JoinsOrdered := fun hop hloop =>
    forPhases_keeps JoinsOrdered (fun _ h hb => h.adds_other (buildPhase_adds hb) (hop _)) h hloop
  have hlogs : ∀ {file : LogFile},
      Builder.buildLogs plan.fieldBinding i operation file b = .ok b' → b'.JoinsOrdered :=
    fun hloop => h.forSources (fun hb => by
      obtain ⟨log, -, hb⟩ := bind_eq_ok.mp hb
      exact buildSource_adds hb) hloop
  unfold Builder.buildNode at hbuild
  unfold OperationNode.buildSide at hphases
  cases hkind : operation.node with rw [hkind] at hbuild hphases
  | aggregate | materialize => exact h.buildCollected ⟨rfl, rfl⟩ hbuild
  | filter | group | limit | projection | sort | topK | mergeSorted | unionAll =>
      exact hone (fun _ => ⟨rfl, rfl⟩) hbuild
  | log | stream =>
      obtain ⟨file, -, hbuild⟩ := bind_eq_ok.mp hbuild
      exact hlogs hbuild
  | values values => exact h.forSources (fun hb => buildSource_adds hb) hbuild
  | hashMarkJoin matched =>
      dsimp only at hbuild
      split at hbuild
      · cases hbuild
      · obtain ⟨m, hm, hbuild⟩ := bind_eq_ok.mp hbuild
        exact h.buildJoin hok rfl rfl
          (minPhase_eq (operationAt_ok hm) ▸ hphases matched rfl) hbuild
  | hashSemiJoin matched =>
      obtain ⟨m, hm, hbuild⟩ := bind_eq_ok.mp hbuild
      exact h.buildJoin hok rfl rfl (minPhase_eq (operationAt_ok hm) ▸ hphases matched rfl) hbuild
  | hashLeftJoin left right =>
      obtain ⟨l, -, hbuild⟩ := bind_eq_ok.mp hbuild
      obtain ⟨r, hr, hbuild⟩ := bind_eq_ok.mp hbuild
      exact h.buildJoin hok rfl rfl (minPhase_eq (operationAt_ok hr) ▸ hphases right rfl) hbuild

end Joins

/-! ### Building a plan -/

section Build

variable [Platform] [HashOrder] [Storage] {plan : Lsql.Plan} {b : Builder} {i : Nat}

/-- What has been built of a complete plan: whatever is built can be looked up in all phases in which
it is required. -/
structure Filled (plan : Lsql.Plan) (b : Builder) : Prop where
  covers : Covers plan b
  keys_built : ∀ e ∈ b.keys, e.2 ∈ b.built
  answers : ∀ j ∈ b.built, ∀ op, plan.operations[j]? = some op → ∀ phase ∈ op.phases,
    (phase, j) ∈ b.keys
  joins : b.JoinsOrdered

omit [Platform] [HashOrder] [Storage] in
theorem filled_empty (plan : Lsql.Plan) : Filled plan empty where
  covers := covers_empty plan
  keys_built _ h := absurd h List.not_mem_nil
  answers _ h := absurd h List.not_mem_nil
  joins _ _ h := by cases h

omit [Platform] [Storage] in
/-- What an operation reads can be looked up, once its sources are built. -/
theorem Filled.reads (h : Filled plan b) (hcomplete : Complete plan) {op : Operation}
    (hop : plan.operations[i]? = some op) (hphases : op.phases ≠ [])
    (hsources : ∀ s ∈ op.node.sources, s ∈ b.built) :
    ∀ e ∈ plan.reads op, ∃ n, b.get e.1 e.2 = .ok n := by
  intro e he
  obtain ⟨hin, source, hsource, hmem⟩ := hcomplete.reads hop hphases e he
  exact get_of_key (h.answers e.1 (hsources e.1 hin) source hsource e.2 hmem)

/-- One more operation, after its sources. -/
theorem Filled.buildNode (h : Filled plan b) (hcomplete : Complete plan) (hused : plan.Used i)
    {op : Operation} (hop : plan.operations[i]? = some op)
    (hsources : ∀ s ∈ op.node.sources, s ∈ b.built) (hnew : i ∉ b.built) :
    Ends Unopened (fun b' => Filled plan { b' with built := i :: b'.built } ∧ b'.built = b.built)
      (Builder.buildNode plan i op b) := by
  obtain ⟨op₁, hop₁, hphases⟩ := hcomplete.used hused
  cases hop.symm.trans hop₁
  have hends := h.covers.ok.buildNode_ends hcomplete hop
    (h.reads hcomplete hop hphases hsources) fun phase hmem => hnew (h.keys_built _ hmem)
  refine hends.mono fun b' hbuild hentered => ?_
  have hmade := h.covers.ok.buildNode (plan.wellFormed op (List.mem_of_getElem? hop)) hbuild
  have hbuilt : b'.built = b.built := hmade.built
  have hjoins : b'.JoinsOrdered :=
    h.joins.buildNode h.covers.ok (fun side => hcomplete.joins i op side hop) hbuild
  refine ⟨{
    covers := h.covers.buildNode hop hused hsources hbuild
    keys_built := fun e he => ?_
    answers := fun j hj op' hop' phase hphase => ?_
    joins := hjoins }, hbuilt⟩
  · have he : e ∈ b'.keys := he
    rw [hentered] at he
    rcases List.mem_append.mp he with he | he
    · exact List.mem_cons_of_mem _ (hbuilt ▸ h.keys_built e he)
    · obtain ⟨phase, -, rfl⟩ := List.mem_map.mp he
      exact List.mem_cons_self
  · show (phase, j) ∈ b'.keys
    rw [hentered]
    rcases List.mem_cons.mp hj with rfl | hj
    · obtain rfl := Option.some.inj (hop.symm.trans hop')
      exact List.mem_append_right _ (List.mem_map_of_mem hphase)
    · exact List.mem_append_left _ (h.answers j (hbuilt ▸ hj) op' hop' phase hphase)

/-- What building an operation leads to: it is built, and nothing behind it. -/
structure Builds (plan : Lsql.Plan) (i : Nat) (b b' : Builder) : Prop where
  filled : Filled plan b'
  kept : b.built ⊆ b'.built
  below : ∀ j ∈ b'.built, j ∈ b.built ∨ j ≤ i

/-- By induction on the depth of the calls, and along the list of sources. -/
theorem Filled.buildOperation {fuel : Nat} (h : Filled plan b) (hcomplete : Complete plan)
    (hused : plan.Used i) (hfuel : i < fuel) :
    Ends Unopened (fun b' => Builds plan i b b' ∧ i ∈ b'.built)
      (Builder.buildOperation plan fuel i b) := by
  induction fuel generalizing i b with
  | zero => cases hfuel
  | succ fuel ih =>
      rw [Builder.buildOperation]
      split
      next hin => exact ⟨⟨h, List.Subset.refl _, fun _ hj => .inl hj⟩, by simpa using hin⟩
      next hin =>
        obtain ⟨op, hop, -⟩ := hcomplete.used hused
        have hat : operationAt plan i = .ok op := by rw [operationAt, hop]
        rw [hat, ok_bind]
        have hbelow := plan.acyclic i op hop
        have hfolded : ∀ (sources : List Nat) (b : Builder), Filled plan b →
            (∀ s ∈ sources, plan.Used s ∧ s < i) →
            Ends Unopened (fun b₁ => Filled plan b₁ ∧ b.built ⊆ b₁.built ∧
              (∀ j ∈ b₁.built, j ∈ b.built ∨ j < i) ∧ ∀ s ∈ sources, s ∈ b₁.built)
              (sources.foldlM (fun b j => Builder.buildOperation plan fuel j b) b) := by
          intro sources
          induction sources with
          | nil =>
              exact fun b hb _ => ⟨hb, List.Subset.refl _, fun _ hj => .inl hj,
                fun _ hs => absurd hs List.not_mem_nil⟩
          | cons s sources ihs =>
              intro b hb hall
              obtain ⟨hs, hlt⟩ := hall s List.mem_cons_self
              rw [List.foldlM_cons]
              refine (ih hb hs (Nat.lt_of_lt_of_le hlt (Nat.le_of_lt_succ hfuel))).bind ?_
              rintro b₁ ⟨hb₁, hin₁⟩
              refine (ihs b₁ hb₁.filled fun u hu => hall u (List.mem_cons_of_mem s hu)).mono ?_
              rintro b₂ - ⟨hb₂, hkept₂, hbelow₂, hin₂⟩
              refine ⟨hb₂, List.Subset.trans hb₁.kept hkept₂, fun j hj => ?_, fun u hu => ?_⟩
              · rcases hbelow₂ j hj with hj | hj
                · exact (hb₁.below j hj).imp_right fun hle => Nat.lt_of_le_of_lt hle hlt
                · exact .inr hj
              · rcases List.mem_cons.mp hu with rfl | hu
                · exact hkept₂ hin₁
                · exact hin₂ u hu
        refine (hfolded op.node.sources b h fun s hs => ⟨hused.source hop hs, hbelow s hs⟩).bind ?_
        rintro b₁ ⟨h₁, hkept, hbelow₁, hin₁⟩
        have hnew : i ∉ b₁.built := fun hmem => by
          rcases hbelow₁ i hmem with hmem | hlt
          · exact hin (by simpa using hmem)
          · exact Nat.lt_irrefl i hlt
        refine (h₁.buildNode hcomplete hused hop hin₁ hnew).bind ?_
        rintro b₂ ⟨h₂, hbuilt⟩
        refine ⟨⟨h₂, fun j hj => List.mem_cons_of_mem i (hbuilt ▸ hkept hj), fun j hj => ?_⟩,
          List.mem_cons_self⟩
        rcases List.mem_cons.mp hj with rfl | hj
        · exact .inr (Nat.le_refl j)
        · exact (hbelow₁ j (hbuilt ▸ hj)).imp_right Nat.le_of_lt

omit [Platform] [HashOrder] [Storage] in
/-- An output changes nothing that has been built. -/
theorem Filled.noting (h : Filled plan b) (outputs : List Output) :
    Filled plan { b with outputs := outputs } where
  covers := { h.covers with
    ok := { h.covers.ok with }
    built := fun j hj => by
      obtain ⟨op, hop, hhalves, hrest⟩ := h.covers.built j hj
      exact ⟨op, hop, hhalves.noting outputs b.built, hrest⟩ }
  keys_built := h.keys_built
  answers := h.answers
  joins := h.joins

theorem Filled.buildTop {tops : List Nat} (h : Filled plan b) (hcomplete : Complete plan)
    (htops : ∀ i ∈ tops, i ∈ plan.topOperations) :
    Ends Unopened (Filled plan) (Builder.buildTop plan tops b) := by
  induction tops generalizing b with
  | nil => exact h
  | cons i tops ih =>
      have hi := htops i List.mem_cons_self
      obtain ⟨op, hop, hphase⟩ := hcomplete.tops i hi
      refine (h.buildOperation hcomplete (.top hi) (Nat.lt_succ_self i)).bind ?_
      rintro b₁ ⟨h₁, hin₁⟩
      have hat : operationAt plan i = .ok op := by rw [operationAt, hop]
      obtain ⟨node, hnode⟩ := get_of_key (h₁.filled.answers i hin₁ op hop op.minPhase hphase)
      rw [hat, ok_bind, hnode, ok_bind]
      exact ih (h₁.filled.noting _) fun j hj => htops j (List.mem_cons_of_mem i hj)

omit [Platform] [HashOrder] [Storage] in
/-- Every operation that a result is computed from has been built. -/
theorem Covers.built_of_used (h : Covers plan b) (htops : ∀ i ∈ plan.topOperations, i ∈ b.built)
    (hused : plan.Used i) : i ∈ b.built := by
  induction hused with
  | top hi => exact htops _ hi
  | source _ hop hi ih =>
      obtain ⟨op, hop', -, hsources, -⟩ := h.built _ ih
      obtain rfl := Option.some.inj (hop.symm.trans hop')
      exact hsources _ hi

/-- What a builder has made of a plan: whatever is read has been built, and the collecting halves of
joins run before the others. -/
structure Finished (plan : Lsql.Plan) (b : Builder) : Prop where
  created : ∀ (i : Nat) (op : Operation), plan.Used i → plan.operations[i]? = some op →
    ∀ e ∈ plan.reads op, ∃ n, b.get e.1 e.2 = .ok n
  joins : b.JoinsOrdered

theorem build_ends (hcomplete : Complete plan) :
    Ends Unopened (Finished plan) (build plan) := by
  refine ((filled_empty plan).buildTop hcomplete fun _ hi => hi).mono fun b hbuild hfilled => ?_
  obtain ⟨hcovers, htops, -⟩ := build_covers hbuild
  refine ⟨fun i op hused hop => ?_, hfilled.joins⟩
  obtain ⟨op', hop', -, hsources, -⟩ := hcovers.built i (hcovers.built_of_used htops hused)
  obtain rfl := Option.some.inj (hop.symm.trans hop')
  obtain ⟨op', hop', hphases⟩ := hcomplete.used hused
  obtain rfl := Option.some.inj (hop.symm.trans hop')
  exact hfilled.reads hcomplete hop hphases hsources

end Build

end Builder

/-! ### Planning and building -/

/-- A storage whose files and commands have no lines. -/
@[reducible] def Storage.blank : Storage where
  openLog _ _ _ := .ok { lines := [], type := none }
  openStream _ := .ok { lines := [], type := none }

/-- `t = FROM 'a.log'; SELECT x FROM t WHERE x IN (FROM t); FROM t`, with one relation in all three
places. -/
def sharedLog : Ir.Program where
  statements := [
    .namedRelation "t" (.file "a.log" none none (.withField 1)),
    .query (.semiJoin (.namedRelationReference "t" (.withField 1))
      (.namedRelationReference "t" (.withField 1)) (.field 1 .string) 1 (.withField 1)),
    .query (.namedRelationReference "t" (.withField 1))]
  fieldBinding := ⟨[("x", .string)]⟩

theorem sharedLog_plannable : sharedLog.Plannable := by
  have hleaf : ∀ {P : Ir.Relation → Prop} {r : Ir.Relation}, r.sources = [] → P r →
      r.Everywhere P := fun hnil h => .node h fun q hq => absurd (hnil ▸ hq) List.not_mem_nil
  have hfield : (Ir.Scalar.field 1 .string).Plannable (.withField 1) :=
    ⟨fun id hid => hid, rfl⟩
  refine ⟨hleaf rfl fun id hid => ?_, .node ⟨List.Subset.refl _, hfield, List.mem_singleton_self _⟩
    fun q hq => ?_, hleaf rfl ⟨.withField 1, rfl, List.Subset.refl _⟩, trivial⟩
  · rw [List.mem_singleton.mp hid]
    rfl
  · have hq : q = .namedRelationReference "t" (.withField 1) := by
      simpa [Ir.Relation.sources] using hq
    subst hq
    exact hleaf rfl ⟨.withField 1, rfl, List.Subset.refl _⟩

end Lsql.Phys
