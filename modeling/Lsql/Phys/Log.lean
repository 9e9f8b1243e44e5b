import Mathlib.Data.List.Induction
import Lsql.Core.Schema
import Lsql.Logfmt.LogTypes
import Lsql.Phys.Ops

/-!
# Lsql.Phys.Log

`Log`: the source that reads the lines of a file or a stream as records
(`back/exec/phys/ops/Log.h`, `Builder::buildLog`).

Only the requested fields of a line are kept, and there are three ways through `push`: without any
field a line is not looked at; if `_line` is the only field the line is taken whole; otherwise the
line is parsed, and a line that is malformed gives no record.
-/

namespace Lsql.Phys

open Lsql.Exec Lsql.Logfmt Flow

/-- `LogFile`: the lines of an opened source, and the format that was detected when it was
opened. -/
structure LogFile where
  lines : List PinnedString
  type : Option LogType
  deriving DecidableEq, Repr

/-- `Log`. The map from the names of the requested fields to their slots is an association list. -/
structure Log where
  file : LogFile
  slots : List (Bytes × Nat)
  numSlots : Nat
  deriving DecidableEq, Repr

/-- `config::Language::LineIdentifier`. -/
def lineIdentifier : Bytes := Bytes.ofString "_line"

/-! ### Building -/

/-- `slots_.find(name)`. -/
def findSlot (slots : List (Bytes × Nat)) (name : Bytes) : Option Nat :=
  (slots.find? fun e => e.1 == name).map Prod.snd

/-- `slots.emplace(name, slot)`: the first slot of a name stays. -/
def emplaceSlot (slots : List (Bytes × Nat)) (name : Bytes) (slot : Nat) : List (Bytes × Nat) :=
  if (findSlot slots name).isSome then slots else slots ++ [(name, slot)]

/-- The loop of `buildLog` over the required fields. -/
def buildSlots (binding : FieldBinding) (schema : Schema) :
    List FieldId → List (Bytes × Nat) → Nat → Except Fault (List (Bytes × Nat) × Nat)
  | [], slots, numSlots => .ok (slots, numSlots)
  | id :: ids, slots, numSlots =>
    match schema.slot id with
    | none => .error (.panic "verify(slot.has_value()) failed ")
    | some slot => do
      let name ← binding.name id
      buildSlots binding schema ids (emplaceSlot slots (Bytes.ofString name) slot)
        (max numSlots (slot + 1))

/-- `buildLog`, for one phase. -/
def buildLog [HashOrder] (binding : FieldBinding) (schema : Schema) (file : LogFile)
    (fields : FieldSet) : Except Fault Log := do
  let (slots, numSlots) ← buildSlots binding schema fields.fieldIds [] 0
  pure { file := file, slots := slots, numSlots := numSlots }

namespace Log

section Push

variable [Platform]

/-- The value that `insert` stores for a piece of a line: a short one is copied, a longer one keeps
the page. -/
def storeText (line : PinnedString) : FieldText → Value
  | .view v =>
    if v.bytes.length ≤ Platform.smallStringCapacity then .string v.bytes
    else .pinned { view := v.bytes, rest := line.view.drop (v.offset + v.bytes.length) ++ line.rest }
  | .owned s => .string s
  | .null => .null

/-- The callback of the parsers: a field that is not requested is dropped. -/
def insert (self : Log) (line : PinnedString) (values : List Value) (field : Bytes × FieldText) :
    List Value :=
  match findSlot self.slots field.1 with
  | some slot => values.set slot (storeText line field.2)
  | none => values

/-- `only_line`. -/
def onlyLine (self : Log) : Bool :=
  (findSlot self.slots lineIdentifier).isSome && self.slots.length == 1

/-- A record of nulls. -/
def blank (self : Log) : List Value := List.replicate self.numSlots .null

/-- The pair of the line itself. -/
def lineField (line : PinnedString) : Bytes × FieldText :=
  (lineIdentifier, .view (View.whole line.view))

/-- The body of the loop for a parsed line: `none` if it is malformed. The format is determined at
the first line. -/
def readLine (self : Log) (type : Option LogType) (line : PinnedString) :
    Except Fault (Option Record × Option LogType) :=
  if self.onlyLine then .ok (some (.vec (self.insert line self.blank (lineField line))), type)
  else
    match type <|> LogType.detect line.view with
    | none => .error (.exception ("failed to detect log type in " ++ line.view.toText))
    | some type =>
      let (fields, parsed) := type.parseKeyValue line.view
      if !parsed then .ok (none, some type)
      else
        let values := fields.foldl (self.insert line) self.blank
        -- `_line` is inserted last, over a field of that name; the insertion is void without a slot
        .ok (some (.vec (self.insert line values (lineField line))), some type)

/-- The loop over the lines when a field is requested. -/
def pushLines (self : Log) : Option LogType → List PinnedString → Body Bool
  | _, [] => pure true
  | type, line :: lines => do
    let (record, type) ← Prog.lift (self.readLine type line)
    match record with
    | none => pushLines self type lines
    | some record => do
      let cont ← Prog.send (some record)
      if !cont then pure false else pushLines self type lines

/-- `push`. -/
def push (self : Log) : Body Unit := do
  let act ← Prog.isActive
  Prog.lift (verify act "verify(active()) failed ")
  let cont ←
    if self.slots.isEmpty then
      Prog.sendAll ((self.file.lines.map fun _ => Record.empty).map some)
    else
      self.pushLines self.file.type self.file.lines
  if cont then
    let _ ← Prog.send none
    pure ()
  else
    pure ()

/-! ### What a complete run emits -/

/-- What `push` emits to a subscriber that takes everything. -/
def outcome (self : Log) : Except Fault (List (Option Record)) :=
  (self.push.run (fun _ => true) .unused .fresh).map fun r => r.2.2.out

end Push

end Log

/-- The format of a source: the one given, or else the one of its first line. -/
def LogFile.format [Platform] (file : LogFile) : Option LogType :=
  file.type <|> file.lines.head?.bind fun line => LogType.detect line.view

namespace Log

variable [Platform]

/-- The pairs of a parsed line, with the line itself. -/
def pairs (type : LogType) (line : PinnedString) : List (Bytes × FieldText) :=
  (type.parseKeyValue line.view).1 ++ [lineField line]

/-- The record of a line that is well formed. -/
def parsedRecord (self : Log) (type : LogType) (line : PinnedString) : Option Record :=
  if (type.parseKeyValue line.view).2 then
    some (.vec ((pairs type line).foldl (self.insert line) self.blank))
  else none

/-- The record of the `i`-th line. -/
def recordAt (self : Log) (i : Nat) : Option Record :=
  self.file.lines[i]?.bind fun line =>
    if self.slots.isEmpty then some .empty
    else self.file.format.bind fun type => self.parsedRecord type line

theorem readLine_of_type {self : Log} (h : self.onlyLine = false) (type : LogType)
    (line : PinnedString) :
    self.readLine (some type) line = .ok (self.parsedRecord type line, some type) := by
  simp only [readLine, h, Bool.false_eq_true, if_false, parsedRecord, pairs, List.foldl_append]
  cases hparsed : (type.parseKeyValue line.view).2 <;> simp [hparsed]

/-- The first line determines the format. -/
theorem pushLines_format {self : Log} (h : self.onlyLine = false) {type : LogType}
    (hformat : self.file.format = some type) :
    self.pushLines self.file.type self.file.lines = self.pushLines (some type) self.file.lines := by
  unfold LogFile.format at hformat
  cases hlines : self.file.lines with
  | nil => rfl
  | cons line lines =>
      have hread : self.readLine self.file.type line = self.readLine (some type) line := by
        rw [hlines] at hformat
        simp only [readLine, h, Bool.false_eq_true, if_false]
        rw [show (self.file.type <|> LogType.detect line.view) = some type by simpa using hformat]
        rfl
      simp only [pushLines, hread]

theorem run_pushLines {self : Log} (h : self.onlyLine = false) (type : LogType)
    (lines : List PinnedString) (c : Cell) (out : List (Option Record)) :
    (self.pushLines (some type) lines).run (fun _ => true) c ⟨true, out⟩ =
      .ok (true, c, ⟨true, out ++ (lines.filterMap (self.parsedRecord type)).map some⟩) := by
  induction lines generalizing out with
  | nil => simp [pushLines]
  | cons line lines ih =>
      simp only [pushLines, readLine_of_type h, Prog.lift_ok, Prog.done_bind]
      cases hrecord : self.parsedRecord type line with
      | none => simpa [hrecord] using ih out
      | some record =>
          simp only [Prog.send_bind, Prog.run_emit, Prog.Downstream.send, if_true, Bool.not_true,
            Bool.false_eq_true, if_false]
          rw [ih]
          simp [hrecord]

omit [Platform] in
theorem run_sendAll (records : List Record) (c : Cell) (out : List (Option Record)) :
    (Prog.sendAll (records.map some) : Body Bool).run (fun _ => true) c ⟨true, out⟩ =
      .ok (true, c, ⟨true, out ++ records.map some⟩) := by
  induction records generalizing out with
  | nil => simp
  | cons record records ih =>
      simp only [List.map_cons, Prog.sendAll, Prog.run_emit, Prog.Downstream.send, if_true]
      rw [ih]
      simp

/-- Without a requested field every line gives a record. -/
theorem outcome_of_no_field {self : Log} (h : self.slots.isEmpty = true) :
    self.outcome = .ok (self.file.lines.map (fun _ => some Record.empty) ++ [none]) := by
  simp only [outcome, push, Prog.isActive_bind, Prog.run_active, Prog.Downstream.fresh,
    verify_true, Prog.lift_ok, Prog.done_bind, h, if_true]
  rw [Prog.run_bind_ok (run_sendAll _ _ _)]
  simp [Prog.Downstream.send, Except.map]

/-- With a field to parse, the well-formed lines give a record. -/
theorem outcome_of_format {self : Log} (h : self.slots.isEmpty = false)
    (honly : self.onlyLine = false) {type : LogType} (hformat : self.file.format = some type) :
    self.outcome =
      .ok ((self.file.lines.filterMap (self.parsedRecord type)).map some ++ [none]) := by
  simp only [outcome, push, Prog.isActive_bind, Prog.run_active, Prog.Downstream.fresh,
    verify_true, Prog.lift_ok, Prog.done_bind, h, Bool.false_eq_true, if_false]
  rw [pushLines_format honly hformat, Prog.run_bind_ok (run_pushLines honly _ _ _ _)]
  simp [Prog.Downstream.send, Except.map]

/-- With a field to parse and no format, the first line ends the run. -/
theorem outcome_of_no_format {self : Log} (h : self.slots.isEmpty = false)
    (honly : self.onlyLine = false) (hformat : self.file.format = none)
    (hlines : self.file.lines ≠ []) : ∃ e, self.outcome = .error e := by
  unfold LogFile.format at hformat
  obtain ⟨line, lines, hl⟩ := List.exists_cons_of_ne_nil hlines
  rw [hl] at hformat
  have hnone : (self.file.type <|> LogType.detect line.view) = none := by simpa using hformat
  have hread : self.readLine self.file.type line =
      .error (.exception ("failed to detect log type in " ++ line.view.toText)) := by
    simp only [readLine, honly, Bool.false_eq_true, if_false, hnone]
  refine ⟨.exception ("failed to detect log type in " ++ line.view.toText), ?_⟩
  simp only [outcome, push, Prog.isActive_bind, Prog.run_active, Prog.Downstream.fresh,
    verify_true, Prog.lift_ok, Prog.done_bind, h, Bool.false_eq_true, if_false, hl, pushLines, hread,
    Prog.lift_error, Prog.fail_bind, Prog.run_fail]
  rfl

theorem outcome_of_no_line {self : Log} (hlines : self.file.lines = []) :
    self.outcome = .ok [none] := by
  by_cases h : self.slots.isEmpty = true
  · simpa [hlines] using outcome_of_no_field h
  · simp only [outcome, push, Prog.isActive_bind, Prog.run_active, Prog.Downstream.fresh,
      verify_true, Prog.lift_ok, Prog.done_bind, h, Bool.false_eq_true, if_false, hlines, pushLines]
    simp [Prog.Downstream.send, Except.map]

/-- The numbers of the lines that give a record. -/
def keptLines (self : Log) : List Nat :=
  (List.range self.file.lines.length).filter fun i => (self.recordAt i).isSome

theorem keptLines_increasing (self : Log) : self.keptLines.Pairwise (· < ·) :=
  List.Pairwise.filter _ List.pairwise_lt_range

omit [Platform] in
/-- Filtering the positions of a list instead of its elements. -/
theorem filterMap_eq_positions {α β : Type} (f : α → Option β) (l : List α) :
    (l.filterMap f).map some = ((List.range l.length).filter fun i => (l[i]?.bind f).isSome).map
      fun i => l[i]?.bind f := by
  induction l using List.reverseRecOn with
  | nil => rfl
  | append_singleton l a ih =>
      have hpos : ∀ i ∈ List.range l.length, (l ++ [a])[i]?.bind f = l[i]?.bind f := fun i hi => by
        rw [List.getElem?_append_left (List.mem_range.mp hi)]
      rw [List.filterMap_append, List.map_append, ih, List.length_append, List.length_singleton,
        List.range_succ, List.filter_append, List.map_append]
      have hfilter : (List.range l.length).filter (fun i => ((l ++ [a])[i]?.bind f).isSome) =
          (List.range l.length).filter fun i => (l[i]?.bind f).isSome :=
        List.filter_congr fun i hi => by rw [hpos i hi]
      rw [hfilter]
      congr 1
      · exact List.map_congr_left fun i hi => (hpos i (List.mem_of_mem_filter hi)).symm
      · cases hfa : f a <;> simp [hfa]

/-- A run that returns has emitted the records of these lines and the end of the stream. -/
theorem outcome_eq_kept {self : Log} (honly : self.onlyLine = false) {out : List (Option Record)}
    (h : self.outcome = .ok out) : out = self.keptLines.map self.recordAt ++ [none] := by
  by_cases hslots : self.slots.isEmpty = true
  · rw [outcome_of_no_field hslots] at h
    have hpos := filterMap_eq_positions (fun _ => some Record.empty) self.file.lines
    have hrecord : self.recordAt = fun i => self.file.lines[i]?.bind fun _ => some .empty := by
      funext i
      simp [recordAt, hslots]
    rw [keptLines, hrecord, ← hpos]
    simpa using h.symm
  · have hslots : self.slots.isEmpty = false := by simpa using hslots
    cases hformat : self.file.format with
    | some type =>
        rw [outcome_of_format hslots honly hformat] at h
        have hpos := filterMap_eq_positions (self.parsedRecord type) self.file.lines
        have hrecord : self.recordAt = fun i =>
            self.file.lines[i]?.bind (self.parsedRecord type) := by
          funext i
          simp [recordAt, hslots, hformat]
        rw [keptLines, hrecord, ← hpos]
        exact (Except.ok.inj h).symm
    | none =>
        by_cases hlines : self.file.lines = []
        · rw [outcome_of_no_line hlines] at h
          simpa [keptLines, hlines] using h.symm
        · obtain ⟨e, he⟩ := outcome_of_no_format hslots honly hformat hlines
          rw [he] at h
          cases h

end Log

/-! ### The slots of the requested fields -/

/-- The fields of a log are told apart by their names: all of them hold strings. -/
def NamesDistinct (binding : FieldBinding) (schema : Schema) : Prop :=
  ∀ a ∈ schema.fields, ∀ b ∈ schema.fields, ∀ na nb, binding.name a = .ok na →
    binding.name b = .ok nb → Bytes.ofString na = Bytes.ofString nb → a = b

/-- The entry of a field. -/
def SlotOf (binding : FieldBinding) (schema : Schema) (id : FieldId) (e : Bytes × Nat) : Prop :=
  (∃ name, binding.name id = .ok name ∧ Bytes.ofString name = e.1) ∧ schema.slot id = some e.2

theorem Schema.slot_mem {schema : Schema} {id : FieldId} {slot : Nat}
    (h : schema.slot id = some slot) : schema.fields[slot]? = some id := by
  simp only [Schema.slot, List.idxOf?, List.findIdx?_eq_some_iff_getElem, beq_iff_eq] at h
  obtain ⟨hlt, heq, -⟩ := h
  rw [List.getElem?_eq_getElem hlt, heq]

theorem findSlot_mem {slots : List (Bytes × Nat)} {name : Bytes} {slot : Nat}
    (h : findSlot slots name = some slot) : (name, slot) ∈ slots := by
  unfold findSlot at h
  obtain ⟨e, he, rfl⟩ := Option.map_eq_some_iff.mp h
  have hname : e.1 = name := by simpa using List.find?_some he
  exact hname ▸ List.mem_of_find?_eq_some he

theorem findSlot_of_mem {slots : List (Bytes × Nat)} (hnodup : (slots.map Prod.fst).Nodup)
    {name : Bytes} {slot : Nat} (h : (name, slot) ∈ slots) : findSlot slots name = some slot := by
  induction slots with
  | nil => cases h
  | cons e slots ih =>
      rw [List.map_cons, List.nodup_cons] at hnodup
      rcases List.mem_cons.mp h with rfl | h
      · simp [findSlot]
      · have hne : e.1 ≠ name := fun he =>
          hnodup.1 (he ▸ List.mem_map.mpr ⟨_, h, rfl⟩)
        simpa [findSlot, hne] using ih hnodup.2 h

/-- With distinct names every requested field has its own entry. -/
theorem buildSlots_spec {binding : FieldBinding} {schema : Schema} {ids : List FieldId}
    {done : List FieldId} {slots slots' : List (Bytes × Nat)} {numSlots numSlots' : Nat}
    (hnames : NamesDistinct binding schema) (hnodup : (done ++ ids).Nodup)
    (hslots : List.Forall₂ (SlotOf binding schema) done slots)
    (hlt : ∀ e ∈ slots, e.2 < numSlots)
    (h : buildSlots binding schema ids slots numSlots = .ok (slots', numSlots')) :
    List.Forall₂ (SlotOf binding schema) (done ++ ids) slots' ∧ ∀ e ∈ slots', e.2 < numSlots' := by
  induction ids generalizing done slots numSlots with
  | nil =>
      cases h
      exact ⟨by simpa using hslots, hlt⟩
  | cons id ids ih =>
      simp only [buildSlots] at h
      cases hslot : schema.slot id with
      | none => simp [hslot] at h
      | some slot =>
          simp only [hslot, bind_eq_ok] at h
          obtain ⟨name, hname, h⟩ := h
          have hfresh : findSlot slots (Bytes.ofString name) = none := by
            by_contra hsome
            obtain ⟨slot', hslot'⟩ := Option.ne_none_iff_exists'.mp hsome
            -- the entry is that of another field of the same name
            obtain ⟨other, hother, ⟨⟨name', hname', heq⟩, hs⟩⟩ :=
              forall₂_mem_right hslots (findSlot_mem hslot')
            have hsame := hnames id (List.mem_of_getElem? (Schema.slot_mem hslot)) other
              (List.mem_of_getElem? (Schema.slot_mem hs)) name name' hname hname' heq.symm
            exact (List.nodup_append.mp hnodup).2.2 other hother id (by simp) hsame.symm
          have hslots' : List.Forall₂ (SlotOf binding schema) (done ++ [id])
              (slots ++ [(Bytes.ofString name, slot)]) :=
            List.rel_append hslots (.cons ⟨⟨name, hname, rfl⟩, hslot⟩ .nil)
          rw [emplaceSlot, hfresh] at h
          have := ih (by simpa using hnodup) hslots' (fun e he => ?_) h
          · simpa using this
          · rcases List.mem_append.mp he with he | he
            · exact Nat.lt_of_lt_of_le (hlt e he) (Nat.le_max_left _ _)
            · rw [List.mem_singleton.mp he]
              exact Nat.lt_of_lt_of_le (Nat.lt_succ_self _) (Nat.le_max_right _ _)

/-- A log source as `buildLog` builds it for a set of fields. -/
structure Log.Built (binding : FieldBinding) (schema : Schema) (file : LogFile)
    (fields : FieldSet) (log : Log) : Prop where
  file_eq : log.file = file
  slot_of : ∀ id ∈ fields, ∃ e ∈ log.slots, SlotOf binding schema id e
  of_slot : ∀ e ∈ log.slots, ∃ id ∈ fields, SlotOf binding schema id e
  length_eq : log.slots.length = fields.size
  names_nodup : (log.slots.map Prod.fst).Nodup
  slots_nodup : (log.slots.map Prod.snd).Nodup
  slot_lt : ∀ e ∈ log.slots, e.2 < log.numSlots

theorem Log.built [HashOrder] {binding : FieldBinding} {schema : Schema} {file : LogFile}
    {fields : FieldSet} {log : Log} (hnames : NamesDistinct binding schema)
    (h : buildLog binding schema file fields = .ok log) :
    Log.Built binding schema file fields log := by
  obtain ⟨⟨slots, numSlots⟩, hslots, hlog⟩ := bind_eq_ok.mp h
  cases hlog
  have hnodup := fields.nodup_fieldIds
  obtain ⟨hall, hlt⟩ : List.Forall₂ (SlotOf binding schema) ([] ++ fields.fieldIds) slots ∧ _ :=
    buildSlots_spec hnames (by simpa using hnodup) .nil (by simp) hslots
  rw [List.nil_append] at hall
  -- entries are told apart by either component, since their fields are
  have hentries : ∀ {ids : List FieldId} {es : List (Bytes × Nat)}, ids.Nodup →
      List.Forall₂ (SlotOf binding schema) ids es →
      (es.map Prod.fst).Nodup ∧ (es.map Prod.snd).Nodup := by
    intro ids es hids hes
    induction hes with
    | nil => simp
    | cons he hes ih =>
        rename_i id e ids es
        obtain ⟨⟨name, hname, hfst⟩, hsnd⟩ := he
        rw [List.nodup_cons] at hids
        have ⟨ih₁, ih₂⟩ := ih hids.2
        refine ⟨List.nodup_cons.mpr ⟨fun hmem => ?_, ih₁⟩, List.nodup_cons.mpr ⟨fun hmem => ?_, ih₂⟩⟩
        · obtain ⟨e', he', heq⟩ := List.mem_map.mp hmem
          obtain ⟨id', hid', ⟨name', hname', hfst'⟩, hsnd'⟩ := forall₂_mem_right hes he'
          have hsame := hnames id (List.mem_of_getElem? (Schema.slot_mem hsnd)) id'
            (List.mem_of_getElem? (Schema.slot_mem hsnd')) name name' hname hname'
            (by rw [hfst, hfst', heq])
          exact hids.1 (hsame ▸ hid')
        · obtain ⟨e', he', heq⟩ := List.mem_map.mp hmem
          obtain ⟨id', hid', -, hsnd'⟩ := forall₂_mem_right hes he'
          have hsame : id = id' := Option.some.inj
            ((Schema.slot_mem hsnd).symm.trans (heq ▸ Schema.slot_mem hsnd'))
          exact hids.1 (hsame ▸ hid')
  exact {
    file_eq := rfl
    slot_of := fun id hid => forall₂_mem_left hall (FieldSet.mem_fieldIds.mpr hid)
    of_slot := fun e he => by
      obtain ⟨id, hid, hslot⟩ := forall₂_mem_right hall he
      exact ⟨id, FieldSet.mem_fieldIds.mp hid, hslot⟩
    length_eq := by rw [← hall.length_eq, fields.fieldIds_perm.length_eq]; rfl
    names_nodup := (hentries hnodup hall).1
    slots_nodup := (hentries hnodup hall).2
    slot_lt := hlt }

/-! ### The value of a field -/

/-- The value of a name after the callbacks for a line: the last one counts. -/
def fieldValue [Platform] (line : PinnedString) (name : Bytes) (v : Value)
    (fields : List (Bytes × FieldText)) : Value :=
  fields.foldl (fun v field => if field.1 = name then Log.storeText line field.2 else v) v

namespace Log

variable [Platform]

theorem foldl_insert_get {self : Log} (hnames : (self.slots.map Prod.fst).Nodup)
    (hslots : (self.slots.map Prod.snd).Nodup) {name : Bytes} {slot : Nat}
    (hmem : (name, slot) ∈ self.slots) (line : PinnedString) (fields : List (Bytes × FieldText))
    (values : List Value) (v : Value) (hv : values[slot]? = some v) :
    (fields.foldl (self.insert line) values)[slot]? = some (fieldValue line name v fields) := by
  induction fields generalizing values v with
  | nil => exact hv
  | cons field fields ih =>
      rw [List.foldl_cons, fieldValue, List.foldl_cons]
      refine ih _ _ ?_
      unfold insert
      cases hfind : findSlot self.slots field.1 with
      | none =>
          have hne : field.1 ≠ name := by
            rintro rfl
            rw [findSlot_of_mem hnames hmem] at hfind
            cases hfind
          simpa [hne] using hv
      | some slot' =>
          have hmem' := findSlot_mem hfind
          by_cases heq : field.1 = name
          · rw [heq, findSlot_of_mem hnames hmem] at hfind
            cases hfind
            have hlt : slot < values.length := (List.getElem?_eq_some_iff.mp hv).1
            simp [heq, hlt]
          · have hne : slot' ≠ slot := by
              rintro rfl
              have := List.inj_on_of_nodup_map hslots hmem' hmem rfl
              exact heq (congrArg Prod.fst this)
            simpa [heq, hne] using hv

/-- What a record answers for a requested field does not depend on the other fields. -/
theorem get_parsedRecord {self : Log} (hnames : (self.slots.map Prod.fst).Nodup)
    (hslots : (self.slots.map Prod.snd).Nodup) (hlt : ∀ e ∈ self.slots, e.2 < self.numSlots)
    {name : Bytes} {slot : Nat} (hmem : (name, slot) ∈ self.slots) {type : LogType}
    {line : PinnedString} {record : Record} (h : self.parsedRecord type line = some record) :
    record.get slot = .ok (fieldValue line name .null (pairs type line)) := by
  unfold parsedRecord at h
  split at h
  · cases h
    have hblank : self.blank[slot]? = some .null := by
      simp [blank, hlt _ hmem]
    simp [Record.get, valueAt, foldl_insert_get hnames hslots hmem line _ _ _ hblank]
  · cases h

/-! ### Rows and requested fields -/

/-- Two runs over one source: both fail, or they emit records of the same lines, in order, that
agree on every field that both have requested. -/
def SameRows (schema : Schema) (common : FieldId → Prop) (a b : Log) : Prop :=
  match a.outcome, b.outcome with
  | .ok outA, .ok outB => ∃ kept : List Nat, kept.Pairwise (· < ·) ∧
      outA = kept.map a.recordAt ++ [none] ∧ outB = kept.map b.recordAt ++ [none] ∧
      ∀ i ∈ kept, ∀ id, common id → ∃ slot ra rb v, schema.slot id = some slot ∧
        a.recordAt i = some ra ∧ b.recordAt i = some rb ∧ ra.get slot = .ok v ∧ rb.get slot = .ok v
  | .error _, .error _ => True
  | _, _ => False

/-- The raw-line mode: `_line` is the only requested field. -/
def LineOnly (binding : FieldBinding) (fields : FieldSet) : Prop :=
  ∃ id name, fields.history = [id] ∧ binding.name id = .ok name ∧
    Bytes.ofString name = lineIdentifier

/-- A format is known or detected, and every line is well formed in it. -/
def AllParsed (file : LogFile) : Prop :=
  ∀ line ∈ file.lines, ∃ type, file.format = some type ∧ (type.parseKeyValue line.view).2 = true

omit [Platform] in
theorem Built.onlyLine {binding : FieldBinding} {schema : Schema} {file : LogFile}
    {fields : FieldSet} {log : Log} (h : Built binding schema file fields log)
    (hline : ¬ LineOnly binding fields) : log.onlyLine = false := by
  by_contra honly
  simp only [Log.onlyLine, Bool.not_eq_false, Bool.and_eq_true, beq_iff_eq] at honly
  obtain ⟨slot, hslot⟩ := Option.isSome_iff_exists.mp honly.1
  obtain ⟨id, hid, ⟨name, hname, heq⟩, -⟩ := h.of_slot _ (findSlot_mem hslot)
  have hsize : fields.history.length = 1 := h.length_eq.symm.trans honly.2
  obtain ⟨id', hid'⟩ := List.length_eq_one_iff.mp hsize
  have : id ∈ fields.history := hid
  rw [hid', List.mem_singleton] at this
  exact hline ⟨id, name, this ▸ hid', hname, heq⟩

omit [Platform] in
theorem Built.isEmpty {binding : FieldBinding} {schema : Schema} {file : LogFile}
    {fields : FieldSet} {log : Log} (h : Built binding schema file fields log) :
    log.slots.isEmpty = fields.isEmpty := by
  have := h.length_eq
  unfold FieldSet.size at this
  rw [FieldSet.isEmpty, Bool.eq_iff_iff, List.isEmpty_iff_length_eq_zero,
    List.isEmpty_iff_length_eq_zero, this]

theorem recordAt_isSome {self : Log} {i : Nat} : (self.recordAt i).isSome = true ↔
    ∃ line, self.file.lines[i]? = some line ∧ (self.slots.isEmpty = true ∨
      ∃ type, self.file.format = some type ∧ (type.parseKeyValue line.view).2 = true) := by
  unfold recordAt
  cases hline : self.file.lines[i]? with
  | none => simp
  | some line =>
      by_cases hslots : self.slots.isEmpty = true
      · simp [hslots]
      · cases hformat : self.file.format with
        | none => simp [hslots]
        | some type => simp [hslots, parsedRecord, Option.isSome_iff_ne_none]

theorem outcome_ok_iff {self : Log} (honly : self.onlyLine = false) :
    (∃ out, self.outcome = .ok out) ↔
      self.slots.isEmpty = true ∨ self.file.lines = [] ∨ self.file.format ≠ none := by
  by_cases hslots : self.slots.isEmpty = true
  · simp [hslots, outcome_of_no_field]
  · have hslots' : self.slots.isEmpty = false := by simpa using hslots
    by_cases hlines : self.file.lines = []
    · simp [hlines, outcome_of_no_line]
    · cases hformat : self.file.format with
      | some type => simp [outcome_of_format hslots' honly hformat]
      | none =>
          obtain ⟨e, he⟩ := outcome_of_no_format hslots' honly hformat hlines
          simp [he, hlines, hslots]

/-- Two sources that look at the same lines differ only in the fields that they keep. -/
theorem Built.agree {binding : FieldBinding} {schema : Schema} {file : LogFile}
    {fieldsA fieldsB : FieldSet} {a b : Log} (ha : Built binding schema file fieldsA a)
    (hb : Built binding schema file fieldsB b) {i : Nat} (hia : (a.recordAt i).isSome = true)
    (hib : (b.recordAt i).isSome = true) {id : FieldId} (hidA : id ∈ fieldsA)
    (hidB : id ∈ fieldsB) : ∃ slot ra rb v, schema.slot id = some slot ∧
      a.recordAt i = some ra ∧ b.recordAt i = some rb ∧ ra.get slot = .ok v ∧
      rb.get slot = .ok v := by
  obtain ⟨ra, hra⟩ := Option.isSome_iff_exists.mp hia
  obtain ⟨rb, hrb⟩ := Option.isSome_iff_exists.mp hib
  obtain ⟨⟨nameA, slotA⟩, hmemA, ⟨nA, hnA, rfl⟩, hsA⟩ := ha.slot_of id hidA
  obtain ⟨⟨nameB, slotB⟩, hmemB, ⟨nB, hnB, rfl⟩, hsB⟩ := hb.slot_of id hidB
  obtain rfl : nA = nB := by simpa [hnA] using hnB
  obtain rfl : slotA = slotB := by simpa [hsA] using hsB
  have hneA : a.slots.isEmpty = false := by
    rw [List.isEmpty_eq_false_iff_exists_mem]
    exact ⟨_, hmemA⟩
  have hneB : b.slots.isEmpty = false := by
    rw [List.isEmpty_eq_false_iff_exists_mem]
    exact ⟨_, hmemB⟩
  unfold recordAt at hra hrb
  rw [ha.file_eq, hneA] at hra
  rw [hb.file_eq, hneB] at hrb
  cases hline : file.lines[i]? with
  | none => simp [hline] at hra
  | some line =>
      cases hformat : file.format with
      | none => simp [hline, hformat] at hra
      | some type =>
          have hra' : a.parsedRecord type line = some ra := by simpa [hline, hformat] using hra
          have hrb' : b.parsedRecord type line = some rb := by simpa [hline, hformat] using hrb
          refine ⟨slotA, ra, rb, _, hsA, ?_, ?_,
            get_parsedRecord ha.names_nodup ha.slots_nodup ha.slot_lt hmemA hra',
            get_parsedRecord hb.names_nodup hb.slots_nodup hb.slot_lt hmemB hrb'⟩
          · simp [recordAt, ha.file_eq, hneA, hline, hformat, hra']
          · simp [recordAt, hb.file_eq, hneB, hline, hformat, hrb']

theorem sameRows_of_kept {binding : FieldBinding} {schema : Schema} {file : LogFile}
    {fieldsA fieldsB : FieldSet} {a b : Log} (ha : Built binding schema file fieldsA a)
    (hb : Built binding schema file fieldsB b) (honlyA : a.onlyLine = false)
    (honlyB : b.onlyLine = false)
    (hok : (∃ out, a.outcome = .ok out) ↔ ∃ out, b.outcome = .ok out)
    (hkept : ∀ i, (a.recordAt i).isSome = true ↔ (b.recordAt i).isSome = true) :
    SameRows schema (fun id => id ∈ fieldsA ∧ id ∈ fieldsB) a b := by
  have hlines : a.keptLines = b.keptLines := by
    unfold keptLines
    rw [ha.file_eq, hb.file_eq]
    exact List.filter_congr fun i _ => Bool.eq_iff_iff.mpr (hkept i)
  unfold SameRows
  cases hoa : a.outcome with
  | ok outA =>
      obtain ⟨outB, hob⟩ := hok.mp ⟨outA, hoa⟩
      rw [hob]
      refine ⟨a.keptLines, a.keptLines_increasing, outcome_eq_kept honlyA hoa,
        hlines ▸ outcome_eq_kept honlyB hob, fun i hi id hid => ?_⟩
      have hia : (a.recordAt i).isSome = true := (List.mem_filter.mp hi).2
      exact ha.agree hb hia ((hkept i).mp hia) hid.1 hid.2
  | error e =>
      cases hob : b.outcome with
      | ok outB =>
          obtain ⟨outA, hoa'⟩ := hok.mpr ⟨outB, hob⟩
          rw [hoa'] at hoa
          cases hoa
      | error e' => trivial

/-- A run that gives as many records as there are lines has found every line well formed. -/
theorem allParsed_of_length {self : Log} (hslots : self.slots.isEmpty = false)
    (honly : self.onlyLine = false) {out : List (Option Record)} (hout : self.outcome = .ok out)
    (hlen : out.length = self.file.lines.length + 1) : AllParsed self.file := by
  rw [outcome_eq_kept honly hout] at hlen
  have hall : ∀ i ∈ List.range self.file.lines.length, (self.recordAt i).isSome = true := by
    rw [← List.length_filter_eq_length_iff]
    simpa [keptLines] using hlen
  intro line hline
  obtain ⟨i, hi⟩ := List.mem_iff_getElem?.mp hline
  have hlt := (List.getElem?_eq_some_iff.mp hi).1
  obtain ⟨line', hline', hparsed⟩ := recordAt_isSome.mp (hall i (List.mem_range.mpr hlt))
  obtain rfl : line = line' := by simpa [hi] using hline'
  simpa [hslots] using hparsed

/-- If one source looks at the lines and the other does not, every line has to be well formed. -/
theorem SameRows.allParsed {schema : Schema} {common : FieldId → Prop} {a b : Log}
    (h : SameRows schema common a b) (hfile : a.file = b.file) (ha : a.slots.isEmpty = true)
    (hb : b.slots.isEmpty = false) (honly : b.onlyLine = false) : AllParsed b.file := by
  unfold SameRows at h
  rw [outcome_of_no_field ha] at h
  cases hob : b.outcome with
  | error e =>
      rw [hob] at h
      exact h.elim
  | ok outB =>
      rw [hob] at h
      obtain ⟨kept, -, houtA, houtB, -⟩ := h
      refine allParsed_of_length hb honly hob ?_
      have hA := congrArg List.length houtA
      have hB := congrArg List.length houtB
      simp only [List.length_append, List.length_map, List.length_singleton] at hA hB
      rw [hB, ← hA, hfile]

theorem SameRows.symm {schema : Schema} {common : FieldId → Prop} {a b : Log}
    (h : SameRows schema common a b) : SameRows schema common b a := by
  unfold SameRows at h ⊢
  cases hoa : a.outcome <;> cases hob : b.outcome <;> rw [hoa, hob] at h
  · trivial
  · exact h
  · exact h
  · obtain ⟨kept, hinc, houtA, houtB, hagree⟩ := h
    refine ⟨kept, hinc, houtB, houtA, fun i hi id hid => ?_⟩
    obtain ⟨slot, ra, rb, v, hs, hra, hrb, hva, hvb⟩ := hagree i hi id hid
    exact ⟨slot, rb, ra, v, hs, hrb, hra, hvb, hva⟩

/-- **The rows of a log source and its requested fields.** Outside the raw-line mode two runs over
one source give the same rows exactly if both look at the lines, or neither does, or every line is
well formed. -/
theorem log_sameRows_iff [HashOrder] {binding : FieldBinding} {schema : Schema} {file : LogFile}
    {fieldsA fieldsB : FieldSet} {a b : Log} (hnames : NamesDistinct binding schema)
    (ha : buildLog binding schema file fieldsA = .ok a)
    (hb : buildLog binding schema file fieldsB = .ok b) (hlineA : ¬ LineOnly binding fieldsA)
    (hlineB : ¬ LineOnly binding fieldsB) :
    SameRows schema (fun id => id ∈ fieldsA ∧ id ∈ fieldsB) a b ↔
      (fieldsA.isEmpty = fieldsB.isEmpty ∨ AllParsed file) := by
  have hA := Log.built hnames ha
  have hB := Log.built hnames hb
  have honlyA := hA.onlyLine hlineA
  have honlyB := hB.onlyLine hlineB
  constructor
  · intro h
    rw [or_iff_not_imp_left, ← hA.isEmpty, ← hB.isEmpty]
    intro hne
    cases hea : a.slots.isEmpty <;> cases heb : b.slots.isEmpty
    · exact absurd (hea.trans heb.symm) hne
    · exact hA.file_eq ▸ h.symm.allParsed (hB.file_eq.trans hA.file_eq.symm) heb hea honlyA
    · exact hB.file_eq ▸ h.allParsed (hA.file_eq.trans hB.file_eq.symm) hea heb honlyB
    · exact absurd (hea.trans heb.symm) hne
  · rintro (hsame | hall)
    · rw [← hA.isEmpty, ← hB.isEmpty] at hsame
      refine sameRows_of_kept hA hB honlyA honlyB ?_ fun i => ?_
      · rw [outcome_ok_iff honlyA, outcome_ok_iff honlyB, hA.file_eq, hB.file_eq, hsame]
      · rw [recordAt_isSome, recordAt_isSome, hA.file_eq, hB.file_eq, hsame]
    · refine sameRows_of_kept hA hB honlyA honlyB ?_ fun i => ?_
      · have hok : file.lines = [] ∨ file.format ≠ none := by
          cases hlines : file.lines with
          | nil => exact .inl rfl
          | cons line lines =>
              obtain ⟨type, htype, -⟩ := hall line (by simp [hlines])
              exact .inr (by simp [htype])
        rw [outcome_ok_iff honlyA, outcome_ok_iff honlyB, hA.file_eq, hB.file_eq]
        simp [hok]
      · have hline : ∀ line, file.lines[i]? = some line → ∃ type, file.format = some type ∧
            (type.parseKeyValue line.view).2 = true := fun line hl =>
          hall line (List.mem_of_getElem? hl)
        rw [recordAt_isSome, recordAt_isSome, hA.file_eq, hB.file_eq]
        exact exists_congr fun line => and_congr_right fun hl => by simp [hline line hl]

end Log

namespace Log

/-- The fields `uid` and `status` of a log. -/
def exampleBinding : FieldBinding := ⟨[("uid", .string), ("status", .string)]⟩

theorem exampleFields_nodup : ([1, 2] : List FieldId).Nodup := by decide

def exampleSchema : Schema := ⟨[1, 2], exampleFields_nodup⟩

theorem example_namesDistinct : NamesDistinct exampleBinding exampleSchema := by
  intro a ha b hb na nb hna hnb heq
  have hname : ∀ id ∈ exampleSchema.fields, exampleBinding.name id =
      .ok (if id = 1 then "uid" else "status") := by decide
  rw [hname a ha] at hna
  rw [hname b hb] at hnb
  cases hna
  cases hnb
  simp only [exampleSchema, List.mem_cons, List.not_mem_nil, or_false] at ha hb
  rcases ha with rfl | rfl <;> rcases hb with rfl | rfl
  · rfl
  · exact absurd heq (by decide)
  · exact absurd heq (by decide)
  · rfl

theorem example_not_lineOnly {id : FieldId} (h : id ∈ exampleSchema.fields) :
    ¬ LineOnly exampleBinding (.withField id) := by
  rintro ⟨id', name, hid, hname, hline⟩
  obtain rfl : id = id' := by simpa [FieldSet.withField] using hid
  simp only [exampleSchema, List.mem_cons, List.not_mem_nil, or_false] at h
  rcases h with rfl | rfl
  · cases hname
    exact absurd hline (by decide)
  · cases hname
    exact absurd hline (by decide)

/-- A log of two lines. -/
def wellFormedLog : LogFile where
  lines := [⟨Bytes.ofString "[2026-May-06 12:00:01] uid=aaa status=ok", []⟩,
    ⟨Bytes.ofString "[2026-May-06 12:00:02] uid=bbb status=fail", []⟩]
  type := some .tsLogfmt

theorem log_sameRows_wellFormed :
    @SameRows .inert exampleSchema (fun id => id ∈ FieldSet.withField 1 ∧ id ∈ FieldSet.withField 2)
      ⟨wellFormedLog, [(Bytes.ofString "uid", 0)], 1⟩
      ⟨wellFormedLog, [(Bytes.ofString "status", 1)], 2⟩ :=
  (@log_sameRows_iff .inert .insertion exampleBinding exampleSchema wellFormedLog (.withField 1)
    (.withField 2) _ _ example_namesDistinct (by decide) (by decide)
    (example_not_lineOnly (by decide)) (example_not_lineOnly (by decide))).mpr (.inl rfl)

/-- A log whose second line is too short for its format. -/
def malformedLog : LogFile where
  lines := [⟨Bytes.ofString "[2026-May-06 12:00:01] uid=aaa status=ok", []⟩,
    ⟨Bytes.ofString "not a log record", []⟩]
  type := some .tsLogfmt

/-- Counting the lines of a log does not look at them; reading a field of them does. -/
theorem log_rows_differ : ∃ a b,
    @buildLog .insertion exampleBinding exampleSchema malformedLog .emptySet = .ok a ∧
    @buildLog .insertion exampleBinding exampleSchema malformedLog (.withField 1) = .ok b ∧
    ¬ LineOnly exampleBinding .emptySet ∧ ¬ LineOnly exampleBinding (.withField 1) ∧
    @outcome .inert a = .ok [some .empty, some .empty, none] ∧
    @outcome .inert b = .ok [some (.vec [.string (Bytes.ofString "aaa")]), none] ∧
    ¬ @SameRows .inert exampleSchema (fun id => id ∈ FieldSet.emptySet ∧ id ∈ FieldSet.withField 1)
      a b := by
  refine ⟨⟨malformedLog, [], 0⟩, ⟨malformedLog, [(Bytes.ofString "uid", 0)], 1⟩, by decide,
    by decide, ?_, example_not_lineOnly (by decide), rfl, by decide, fun h => ?_⟩
  · rintro ⟨id, name, hid, -⟩
    cases hid
  · obtain ⟨type, htype, hparsed⟩ := @SameRows.allParsed .inert _ _ _ _ h rfl rfl rfl (by decide)
      ⟨Bytes.ofString "not a log record", []⟩ (by simp [malformedLog])
    cases htype
    exact absurd hparsed (by decide)

end Log

end Lsql.Phys
