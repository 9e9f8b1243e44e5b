import Lsql.Core.ValueHash
import Lsql.Phys.Log
import Lsql.Storage.LineSource

/-!
# Lsql.Phys.LogSources

The files and streams that a `Log` reads (`back/exec/phys/log/log.cpp`).

Opening a file looks for its format in all of its lines; a stream is read once, so that its format is
that of the first line that is consumed. Two sources that read the same content have the same lines;
their records are the same if the format is not needed or the first line has one, and only then.
-/

namespace Lsql.Exec

/-- The record with its strings as `std::string`s. -/
def Record.owned : Record → Record
  | .empty => .empty
  | .vec values => .vec (values.map Value.owned)
  | .aggregate values => .aggregate (values.map Value.owned)
  | .mark v slot child => .mark v.owned slot child.owned
  | .leftJoin left right leftColumns => .leftJoin left.owned right.owned leftColumns
  | .leftJoinNull left leftColumns => .leftJoinNull left.owned leftColumns
  | .value v => .value v.owned

end Lsql.Exec

namespace Lsql.Phys

open Lsql.Exec Lsql.Logfmt Flow
open Lsql.Storage (LineSource PagedLineSource isProbablyArchive streamLines)

/-! ### Opening -/

/-- The source of the lines of a file. An archive is a stream of what `unpack` reads from it. -/
def lineSource (path : Bytes) (pageSize : Nat) (content : Bytes) (unpack : Bytes → List Bytes) :
    LineSource :=
  if isProbablyArchive path then .stream (unpack content)
  else .paged (PagedLineSource.whole pageSize content)

section Open

variable [Platform]

/-- `detectLogType(source)`: the format of the first line that has one. -/
def detectLogType (source : LineSource) : Except Fault (Option LogType) := do
  let lines ← source.lines
  pure (lines.findSome? fun line => LogType.detect line.view)

/-- `getFileSourceWhole`, with the source of the file's lines. -/
def getFileSourceWhole (source : LineSource) : Except Fault LogFile := do
  let type ← detectLogType source
  let lines ← source.lines
  pure { lines := lines, type := type }

omit [Platform] in
/-- A file that is no archive reads its content. -/
theorem lineSource_reads {path : Bytes} {pageSize : Nat} {content : Bytes}
    {unpack : Bytes → List Bytes} (hpath : isProbablyArchive path = false) (hsize : 0 < pageSize) :
    (lineSource path pageSize content unpack).Reads content := by
  rw [lineSource, hpath]
  exact ⟨pageSize, hsize, rfl⟩

end Open

/-- `open(plan::Stream)`. -/
def openStream (chunks : List Bytes) : LogFile :=
  { lines := streamLines none chunks, type := none }

/-- The format of a content, as a file of it has it. -/
def contentType [Platform] (content : Bytes) : Option LogType :=
  (pieces Storage.newline content).findSome? LogType.detect

/-- The first line has a format. -/
def FirstDetectable [Platform] (content : Bytes) : Prop :=
  ((pieces Storage.newline content).head?.bind LogType.detect).isSome = true

instance [Platform] (content : Bytes) : Decidable (FirstDetectable content) :=
  inferInstanceAs (Decidable (_ = true))

/-- The format of the first line is that of the content. -/
theorem contentType_of_first [Platform] {content : Bytes} {type : LogType}
    (h : (pieces Storage.newline content).head?.bind LogType.detect = some type) :
    contentType content = some type := by
  rw [contentType]
  cases hpieces : pieces Storage.newline content with
  | nil =>
      rw [hpieces] at h
      cases h
  | cons line lines =>
      rw [hpieces] at h
      change LogType.detect line = some type at h
      rw [List.findSome?_cons, h]

section Open

variable [Platform] {source : LineSource} {content : Bytes}

theorem getFileSourceWhole_ok {file : LogFile} (hsource : source.Reads content)
    (hend : Terminated Storage.newline content) (h : getFileSourceWhole source = .ok file) :
    file.lines.map PinnedString.view = pieces Storage.newline content ∧
      file.type = contentType content := by
  obtain ⟨lines, hlines, hviews⟩ := LineSource.lines_find hsource hend
  rw [getFileSourceWhole, detectLogType, hlines] at h
  cases h
  refine ⟨hviews, ?_⟩
  show List.findSome? (LogType.detect ∘ PinnedString.view) lines = contentType content
  rw [contentType, ← hviews, List.findSome?_map]

end Open

/-! ### The names of the slots -/

/-- The name of a field, as the parsers know it. -/
def NameIs (binding : FieldBinding) (id : FieldId) (name : Bytes) : Prop :=
  ∃ text, binding.name id = .ok text ∧ Bytes.ofString text = name

theorem emplaceSlot_names {slots : List (Bytes × Nat)} {name : Bytes} {slot : Nat}
    (h : (slots.map Prod.fst).Nodup) :
    ((emplaceSlot slots name slot).map Prod.fst).Nodup ∧
      ∀ other, other ∈ (emplaceSlot slots name slot).map Prod.fst ↔
        other ∈ slots.map Prod.fst ∨ other = name := by
  rw [emplaceSlot]
  split
  next hfound =>
    obtain ⟨found, hfound⟩ := Option.isSome_iff_exists.mp hfound
    have hmem : name ∈ slots.map Prod.fst := List.mem_map.mpr ⟨_, findSlot_mem hfound, rfl⟩
    refine ⟨h, fun other => ⟨.inl, ?_⟩⟩
    rintro (hother | rfl)
    · exact hother
    · exact hmem
  next hnew =>
    have hfresh : name ∉ slots.map Prod.fst := by
      intro hmem
      obtain ⟨e, he, rfl⟩ := List.mem_map.mp hmem
      exact hnew (findSlot_of_mem h he ▸ rfl)
    rw [List.map_append]
    refine ⟨List.nodup_append.mpr ⟨h, List.nodup_singleton _, ?_⟩, fun other => ?_⟩
    · intro a ha b hb hab
      rw [hab, List.mem_singleton.mp hb] at ha
      exact hfresh ha
    · rw [List.mem_append]
      exact or_congr_right List.mem_singleton

/-- The slots have the names of the required fields, each once. -/
theorem buildSlots_names {binding : FieldBinding} {schema : Schema} {ids : List FieldId}
    {slots slots' : List (Bytes × Nat)} {numSlots numSlots' : Nat}
    (hnodup : (slots.map Prod.fst).Nodup)
    (h : buildSlots binding schema ids slots numSlots = .ok (slots', numSlots')) :
    (slots'.map Prod.fst).Nodup ∧ (∀ id ∈ ids, ∃ name, NameIs binding id name) ∧
      ∀ name, name ∈ slots'.map Prod.fst ↔
        name ∈ slots.map Prod.fst ∨ ∃ id ∈ ids, NameIs binding id name := by
  induction ids generalizing slots numSlots with
  | nil =>
      cases h
      exact ⟨hnodup, by simp, by simp⟩
  | cons id ids ih =>
      rw [buildSlots] at h
      cases hslot : schema.slot id with
      | none =>
          rw [hslot] at h
          cases h
      | some slot =>
          rw [hslot] at h
          obtain ⟨text, htext, h⟩ := bind_eq_ok.mp h
          obtain ⟨hnodup', hemplace⟩ := emplaceSlot_names hnodup
          obtain ⟨hall, hnamed, hnames⟩ := ih hnodup' h
          have hid : ∀ name, NameIs binding id name ↔ name = Bytes.ofString text := by
            intro name
            constructor
            · rintro ⟨text', htext', rfl⟩
              rw [Except.ok.inj (htext.symm.trans htext')]
            · rintro rfl
              exact ⟨text, htext, rfl⟩
          refine ⟨hall, ?_, fun name => ?_⟩
          · rw [List.forall_mem_cons]
            exact ⟨⟨_, text, htext, rfl⟩, hnamed⟩
          · rw [hnames, hemplace, or_assoc, List.exists_mem_cons_iff, hid]

namespace Log

variable {binding : FieldBinding} {schema : Schema} {fields : FieldSet}

/-- Whether every requested field, if there is any, is the line itself. -/
def OnlyRaw (binding : FieldBinding) (fields : FieldSet) : Prop :=
  ∀ id ∈ fields, NameIs binding id lineIdentifier

/-- A list without repetitions all of whose elements are one. -/
theorem slots_of_one {slots : List (Bytes × Nat)} {name : Bytes}
    (hnodup : (slots.map Prod.fst).Nodup) (h : ∀ other ∈ slots.map Prod.fst, other = name) :
    slots = [] ∨ ∃ slot, slots = [(name, slot)] := by
  cases slots with
  | nil => exact .inl rfl
  | cons e rest =>
      have he : e.1 = name := h _ List.mem_cons_self
      cases rest with
      | nil => exact .inr ⟨e.2, by rw [← he]⟩
      | cons e' rest =>
          have he' : e'.1 = name := h _ (List.mem_cons_of_mem _ List.mem_cons_self)
          rw [List.map_cons, List.map_cons, he, he'] at hnodup
          exact absurd List.mem_cons_self (List.nodup_cons.mp hnodup).1

/-- The two ways through `push` that do not parse. -/
theorem onlyRaw_iff [HashOrder] {file : LogFile} {log : Log}
    (h : buildLog binding schema file fields = .ok log) :
    (log.slots.isEmpty = true ∨ log.onlyLine = true) ↔ OnlyRaw binding fields := by
  obtain ⟨⟨slots, numSlots⟩, hslots, hlog⟩ := bind_eq_ok.mp h
  obtain rfl : ⟨file, slots, numSlots⟩ = log := Except.ok.inj hlog
  obtain ⟨hnodup, hnamed, hnames⟩ := buildSlots_names (by exact List.nodup_nil) hslots
  have hmem : ∀ name, name ∈ slots.map Prod.fst ↔ ∃ id ∈ fields, NameIs binding id name := by
    intro name
    rw [hnames]
    simp only [List.map_nil, List.not_mem_nil, false_or, FieldSet.mem_fieldIds]
  have hall : (∀ name ∈ slots.map Prod.fst, name = lineIdentifier) ↔ OnlyRaw binding fields := by
    constructor
    · intro hline id hid
      obtain ⟨name, hname⟩ := hnamed id (FieldSet.mem_fieldIds.mpr hid)
      exact hline name ((hmem name).mpr ⟨id, hid, hname⟩) ▸ hname
    · intro hraw name hname
      obtain ⟨id, hid, text, htext, rfl⟩ := (hmem name).mp hname
      obtain ⟨text', htext', hline⟩ := hraw id hid
      rw [Except.ok.inj (htext.symm.trans htext'), hline]
  rw [← hall]
  constructor
  · rintro (hempty | honly)
    · obtain rfl : slots = [] := List.isEmpty_iff.mp hempty
      exact fun _ hname => absurd hname List.not_mem_nil
    · rw [onlyLine, Bool.and_eq_true, beq_iff_eq] at honly
      obtain ⟨slot, hslot⟩ := Option.isSome_iff_exists.mp honly.1
      obtain ⟨e, he⟩ := List.length_eq_one_iff.mp honly.2
      obtain rfl : slots = [e] := he
      have hfound := List.mem_singleton.mp (findSlot_mem hslot)
      intro name hname
      rw [← hfound] at hname
      exact List.mem_singleton.mp hname
  · intro hline
    rcases slots_of_one hnodup hline with rfl | ⟨slot, rfl⟩
    · exact .inl rfl
    · exact .inr rfl

/-! ### Records and the text of a line -/

/-- What a parser's callback has stored, whatever page the line is in. -/
def textValue : FieldText → Value
  | .view v => .string v.bytes
  | .owned s => .string s
  | .null => .null

variable [Platform]

theorem owned_storeText (line : PinnedString) (text : FieldText) :
    (storeText line text).owned = textValue text := by
  cases text with
  | view v =>
      rw [storeText]
      split <;> rfl
  | owned s => rfl
  | null => rfl

/-- Two lines with the same text fill the slots alike. -/
theorem owned_insert {a b : Log} (hslots : a.slots = b.slots) (line line' : PinnedString)
    (field : Bytes × FieldText) {values values' : List Value}
    (h : values.map Value.owned = values'.map Value.owned) :
    (a.insert line values field).map Value.owned =
      (b.insert line' values' field).map Value.owned := by
  rw [insert, insert, hslots]
  cases findSlot b.slots field.1 with
  | none => exact h
  | some slot => simp only [List.map_set, h, owned_storeText]

theorem owned_foldl_insert {a b : Log} (hslots : a.slots = b.slots) (line line' : PinnedString)
    (fields : List (Bytes × FieldText)) {values values' : List Value}
    (h : values.map Value.owned = values'.map Value.owned) :
    (fields.foldl (a.insert line) values).map Value.owned =
      (fields.foldl (b.insert line') values').map Value.owned := by
  induction fields generalizing values values' with
  | nil => exact h
  | cons field fields ih => exact ih (owned_insert hslots line line' field h)

/-- What a log reads from a line, up to the page. -/
def Alike (f g : PinnedString → Option Record) : Prop :=
  ∀ line line', line.view = line'.view →
    (f line).map Record.owned = (g line').map Record.owned

/-- The record of the line itself. -/
def rawRecord (self : Log) (line : PinnedString) : Record :=
  .vec (self.insert line self.blank (lineField line))

theorem rawRecord_alike {a b : Log} (hslots : a.slots = b.slots) (hnum : a.numSlots = b.numSlots) :
    Alike (fun line => some (a.rawRecord line)) (fun line => some (b.rawRecord line)) := by
  intro line line' hview
  have hblank : a.blank = b.blank := by rw [blank, blank, hnum]
  have hfield : lineField line = lineField line' := by rw [lineField, lineField, hview]
  have hvalues := owned_insert hslots line line' (lineField line') (congrArg _ hblank)
  show some (Record.vec ((a.insert line a.blank (lineField line)).map Value.owned)) = _
  rw [hfield, hvalues]
  rfl

theorem parsedRecord_alike {a b : Log} (hslots : a.slots = b.slots)
    (hnum : a.numSlots = b.numSlots) (type : LogType) :
    Alike (a.parsedRecord type) (b.parsedRecord type) := by
  intro line line' hview
  have hblank : a.blank = b.blank := by rw [blank, blank, hnum]
  have hpairs : pairs type line = pairs type line' := by
    rw [pairs, pairs, lineField, lineField, hview]
  have hvalues := owned_foldl_insert hslots line line' (pairs type line') (congrArg _ hblank)
  rw [parsedRecord, parsedRecord, hview, hpairs]
  split
  · exact congrArg (fun values => some (Record.vec values)) hvalues
  · rfl

omit [Platform] in
/-- Lines with the same texts give the same records. -/
theorem records_alike {f g : PinnedString → Option Record} (h : Alike f g)
    {lines lines' : List PinnedString}
    (hviews : lines.map PinnedString.view = lines'.map PinnedString.view) :
    (lines.filterMap f).map Record.owned = (lines'.filterMap g).map Record.owned := by
  induction lines generalizing lines' with
  | nil =>
      rw [List.map_nil, eq_comm, List.map_eq_nil_iff] at hviews
      rw [hviews]
      rfl
  | cons line lines ih =>
      cases lines' with
      | nil => cases hviews
      | cons line' lines' =>
          rw [List.map_cons, List.map_cons, List.cons.injEq] at hviews
          have hline := h line line' hviews.1
          have hrest := ih hviews.2
          rw [List.filterMap_cons, List.filterMap_cons]
          cases hf : f line with
          | none =>
              rw [hf, Option.map_none, eq_comm, Option.map_eq_none_iff] at hline
              rw [hline]
              exact hrest
          | some r =>
              rw [hf, Option.map_some, eq_comm, Option.map_eq_some_iff] at hline
              obtain ⟨r', hg, howned⟩ := hline
              rw [hg]
              show Record.owned r :: _ = Record.owned r' :: _
              rw [howned, hrest]

/-! ### The raw lines -/

/-- A line that is not parsed. -/
theorem run_pushLines_raw {self : Log} (h : self.onlyLine = true) (type : Option LogType)
    (lines : List PinnedString) (c : Cell) (out : List (Option Record)) :
    (self.pushLines type lines).run (fun _ => true) c ⟨true, out⟩ =
      .ok (true, c, ⟨true, out ++ lines.map fun line => some (self.rawRecord line)⟩) := by
  induction lines generalizing out with
  | nil => simp [pushLines]
  | cons line lines ih =>
      have hread : self.readLine type line = .ok (some (self.rawRecord line), type) := by
        rw [readLine, if_pos h]
        rfl
      simp only [pushLines, hread, Prog.lift_ok, Prog.done_bind, Prog.send_bind, Prog.run_emit,
        Prog.Downstream.send, if_true, Bool.not_true, Bool.false_eq_true, if_false]
      rw [ih]
      simp

/-- What a run emits that takes a record from some of the lines. -/
def Emits (self : Log) (f : PinnedString → Option Record) : Prop :=
  self.outcome = .ok ((self.file.lines.filterMap f).map some ++ [none])

theorem emits_empty {self : Log} (h : self.slots.isEmpty = true) :
    self.Emits fun _ => some .empty := by
  have hrecords : self.file.lines.filterMap (fun _ => some Record.empty) =
      self.file.lines.map fun _ => .empty := congrFun List.filterMap_eq_map' _
  rw [Emits, outcome_of_no_field h, hrecords, List.map_map]
  rfl

/-- If the line is the only field, every line is a record. -/
theorem emits_raw {self : Log} (h : self.onlyLine = true) :
    self.Emits fun line => some (self.rawRecord line) := by
  have hslots : self.slots.isEmpty = false := by
    rw [onlyLine, Bool.and_eq_true, beq_iff_eq] at h
    cases hs : self.slots with
    | nil =>
        rw [hs] at h
        exact absurd h.2 (by decide)
    | cons e rest => rfl
  simp only [Emits, outcome, push, Prog.isActive_bind, Prog.run_active, Prog.Downstream.fresh,
    verify_true, Prog.lift_ok, Prog.done_bind, hslots, Bool.false_eq_true, if_false]
  rw [Prog.run_bind_ok (run_pushLines_raw h _ _ _ _)]
  simp [Prog.Downstream.send, Except.map]

/-! ### Two sources of one content -/

/-- Two runs give the same records: both fail, or they emit records with the same values. -/
def SameRecords (a b : Log) : Prop :=
  match a.outcome, b.outcome with
  | .ok outA, .ok outB => outA.map (Option.map Record.owned) = outB.map (Option.map Record.owned)
  | .error _, .error _ => True
  | _, _ => False

theorem sameRecords_of_emits {a b : Log} {f g : PinnedString → Option Record} (ha : a.Emits f)
    (hb : b.Emits g) (h : Alike f g)
    (hviews : a.file.lines.map PinnedString.view = b.file.lines.map PinnedString.view) :
    SameRecords a b := by
  have hout : ∀ records : List Record, (records.map some ++ [none]).map (Option.map Record.owned) =
      (records.map Record.owned).map some ++ [none] := by
    intro records
    rw [List.map_append, List.map_map, List.map_map]
    rfl
  rw [SameRecords, ha, hb]
  show List.map _ _ = List.map _ _
  rw [hout, hout, records_alike h hviews]

theorem not_sameRecords_of_error {a b : Log} {out : List (Option Record)} (ha : a.outcome = .ok out)
    (hb : ∃ e, b.outcome = .error e) : ¬ SameRecords a b := by
  obtain ⟨e, he⟩ := hb
  rw [SameRecords, ha, he]
  exact not_false

/-- A file and a stream with the same lines, for the same slots. -/
structure SameLines (a b : Log) (content : Bytes) : Prop where
  slots_eq : a.slots = b.slots
  numSlots_eq : a.numSlots = b.numSlots
  lines_file : a.file.lines.map PinnedString.view = pieces Storage.newline content
  lines_stream : b.file.lines.map PinnedString.view = pieces Storage.newline content
  type_file : a.file.type = contentType content
  type_stream : b.file.type = none

namespace SameLines

variable {a b : Log} {content : Bytes}

theorem lines_eq (h : SameLines a b content) :
    a.file.lines.map PinnedString.view = b.file.lines.map PinnedString.view :=
  h.lines_file.trans h.lines_stream.symm

theorem onlyLine_eq (h : SameLines a b content) : a.onlyLine = b.onlyLine := by
  rw [Log.onlyLine, Log.onlyLine, h.slots_eq]

/-- What the stream's first line is detected as. -/
theorem format_stream (h : SameLines a b content) :
    b.file.format = (pieces Storage.newline content).head?.bind LogType.detect := by
  rw [LogFile.format, h.type_stream, ← h.lines_stream, List.head?_map]
  cases b.file.lines.head? <;> rfl

theorem format_file {type : LogType} (h : SameLines a b content)
    (htype : contentType content = some type) : a.file.format = some type := by
  rw [LogFile.format, h.type_file, htype]
  rfl

/-- Without a format. -/
theorem of_raw (h : SameLines a b content) (hraw : a.slots.isEmpty = true ∨ a.onlyLine = true) :
    SameRecords a b := by
  rcases hraw with hempty | honly
  · refine sameRecords_of_emits (emits_empty hempty) (emits_empty (h.slots_eq ▸ hempty)) ?_
      h.lines_eq
    exact fun _ _ _ => rfl
  · exact sameRecords_of_emits (emits_raw honly) (emits_raw (h.onlyLine_eq ▸ honly))
      (rawRecord_alike h.slots_eq h.numSlots_eq) h.lines_eq

/-- The stream does not get past a first line without a format. -/
theorem stream_error (h : SameLines a b content) (hempty : a.slots.isEmpty = false)
    (honly : a.onlyLine = false) (hlines : pieces Storage.newline content ≠ [])
    (hfirst : ¬ FirstDetectable content) : ∃ e, b.outcome = .error e := by
  refine outcome_of_no_format (h.slots_eq ▸ hempty) (h.onlyLine_eq ▸ honly) ?_ ?_
  · rw [h.format_stream]
    exact Option.not_isSome_iff_eq_none.mp hfirst
  · intro hnil
    have hviews := h.lines_stream
    rw [hnil] at hviews
    exact hlines hviews.symm

/-- With a format: that of the file is there, that of the stream is the same or is missing. -/
theorem of_format (h : SameLines a b content) (hempty : a.slots.isEmpty = false)
    (honly : a.onlyLine = false) {type : LogType} (htype : contentType content = some type) :
    SameRecords a b ↔ FirstDetectable content := by
  have hfile := outcome_of_format hempty honly (h.format_file htype)
  by_cases hfirst : FirstDetectable content
  · obtain ⟨type', htype'⟩ := Option.isSome_iff_exists.mp hfirst
    obtain rfl : type' = type :=
      Option.some.inj ((contentType_of_first htype').symm.trans htype)
    have hempty' : b.slots.isEmpty = false := h.slots_eq ▸ hempty
    have hstream := outcome_of_format hempty' (h.onlyLine_eq ▸ honly)
      (h.format_stream.trans htype')
    exact iff_of_true (sameRecords_of_emits hfile hstream
      (parsedRecord_alike h.slots_eq h.numSlots_eq type') h.lines_eq) hfirst
  · have hlines : pieces Storage.newline content ≠ [] := by
      intro hnil
      rw [contentType, hnil] at htype
      cases htype
    have herror := h.stream_error hempty honly hlines hfirst
    exact iff_of_false (not_sameRecords_of_error hfile herror) hfirst

end SameLines

/-- What `buildLog` makes of two files for the same fields. -/
theorem sameLines_of_build [HashOrder] {source : LineSource} {chunks : List Bytes}
    {content : Bytes} {file : LogFile} {a b : Log} (hsource : source.Reads content)
    (hchunks : chunks.flatten = content) (hend : Terminated Storage.newline content)
    (hfile : getFileSourceWhole source = .ok file)
    (ha : buildLog binding schema file fields = .ok a)
    (hb : buildLog binding schema (openStream chunks) fields = .ok b) : SameLines a b content := by
  obtain ⟨⟨slots, numSlots⟩, hslots, hlog⟩ := bind_eq_ok.mp ha
  obtain rfl : ⟨file, slots, numSlots⟩ = a := Except.ok.inj hlog
  obtain ⟨⟨slots', numSlots'⟩, hslots', hlog'⟩ := bind_eq_ok.mp hb
  obtain rfl : ⟨openStream chunks, slots', numSlots'⟩ = b := Except.ok.inj hlog'
  obtain ⟨hlines, htype⟩ := getFileSourceWhole_ok hsource hend hfile
  have hsame := Except.ok.inj (hslots.symm.trans hslots')
  exact {
    slots_eq := congrArg Prod.fst hsame
    numSlots_eq := congrArg Prod.snd hsame
    lines_file := hlines
    lines_stream := hchunks ▸ Storage.streamLines_terminated (hchunks ▸ hend)
    type_file := htype
    type_stream := rfl }

/-- **A file and the same bytes as a stream.** The two give the same records exactly if only the line
itself is requested, or nothing, or the format can be detected from the first line. -/
theorem fileStream_sameRecords_iff [HashOrder] {source : LineSource} {chunks : List Bytes}
    {content : Bytes} {file : LogFile} {a b : Log} (hsource : source.Reads content)
    (hchunks : chunks.flatten = content) (hend : Terminated Storage.newline content)
    (hdetect : ∃ line ∈ pieces Storage.newline content, (LogType.detect line).isSome)
    (hfile : getFileSourceWhole source = .ok file)
    (ha : buildLog binding schema file fields = .ok a)
    (hb : buildLog binding schema (openStream chunks) fields = .ok b) :
    SameRecords a b ↔ (OnlyRaw binding fields ∨ FirstDetectable content) := by
  have hlines := sameLines_of_build hsource hchunks hend hfile ha hb
  rw [← onlyRaw_iff ha]
  by_cases hraw : a.slots.isEmpty = true ∨ a.onlyLine = true
  · exact iff_of_true (hlines.of_raw hraw) (.inl hraw)
  · obtain ⟨hempty, honly⟩ := not_or.mp hraw
    obtain ⟨line, hline, hsome⟩ := hdetect
    have hcontent : (contentType content).isSome := List.findSome?_isSome_iff.mpr ⟨line, hline, hsome⟩
    obtain ⟨type, htype⟩ := Option.isSome_iff_exists.mp hcontent
    rw [hlines.of_format (Bool.eq_false_iff.mpr hempty) (Bool.eq_false_iff.mpr honly) htype]
    exact (or_iff_right hraw).symm

end Log

/-! ### A line without a format at the beginning -/

namespace Log

/-- A file in pages of eight bytes. -/
def pagedFile (content : Bytes) : LineSource :=
  lineSource (Bytes.ofString "requests.log") 8 content fun _ => []

theorem pagedFile_reads (content : Bytes) : (pagedFile content).Reads content :=
  lineSource_reads (by decide) (by decide)

/-- A log whose lines all have a format. -/
def cleanContent : Bytes := Bytes.ofString "[2026-May-06 12:00:01] uid=aaa\nnot a log record\n"

def cleanLines : List PinnedString :=
  [⟨Bytes.ofString "[2026-May-06 12:00:01] uid=aaa", []⟩,
    ⟨Bytes.ofString "not a log record", []⟩]

theorem fileStream_sameRecords_clean :
    @SameRecords .inert
      ⟨⟨cleanLines, some .tsLogfmt⟩, [(Bytes.ofString "uid", 0)], 1⟩
      ⟨openStream [cleanContent], [(Bytes.ofString "uid", 0)], 1⟩ :=
  (@fileStream_sameRecords_iff exampleBinding exampleSchema (.withField 1) .inert .insertion
    (pagedFile cleanContent) [cleanContent] cleanContent ⟨cleanLines, some .tsLogfmt⟩ _ _
    (pagedFile_reads _) (List.append_nil _) (by decide) (by decide) (by decide) (by decide)
    rfl).mpr (.inr (by decide))

/-- A log with a first line that has no format. -/
def mixedContent : Bytes := Bytes.ofString "garbage\n[2026-May-06 12:00:01] uid=aaa\n"

def mixedFile : LogFile where
  lines := [⟨Bytes.ofString "garbage", [Storage.newline]⟩,
    ⟨Bytes.ofString "[2026-May-06 12:00:01] uid=aaa", []⟩]
  type := some .tsLogfmt

/-- The file gives the record of the second line, the stream ends with an error. -/
theorem fileStream_differ : ∃ a b,
    (pagedFile mixedContent).Reads mixedContent ∧ [mixedContent].flatten = mixedContent ∧
    Terminated Storage.newline mixedContent ∧
    (∃ line ∈ pieces Storage.newline mixedContent, (@LogType.detect .inert line).isSome) ∧
    @getFileSourceWhole .inert (pagedFile mixedContent) = .ok mixedFile ∧
    @buildLog .insertion exampleBinding exampleSchema mixedFile (.withField 1) = .ok a ∧
    @buildLog .insertion exampleBinding exampleSchema (openStream [mixedContent]) (.withField 1) =
      .ok b ∧
    @outcome .inert a = .ok [some (.vec [.string (Bytes.ofString "aaa")]), none] ∧
    (∃ e, @outcome .inert b = .error e) ∧ ¬ @SameRecords .inert a b := by
  have hlines := @sameLines_of_build exampleBinding exampleSchema (.withField 1) .inert .insertion
    (pagedFile mixedContent) [mixedContent] mixedContent mixedFile
    ⟨mixedFile, [(Bytes.ofString "uid", 0)], 1⟩
    ⟨openStream [mixedContent], [(Bytes.ofString "uid", 0)], 1⟩ (pagedFile_reads _)
    (List.append_nil _) (by decide) (by decide) (by decide) rfl
  have hfile : @outcome .inert ⟨mixedFile, [(Bytes.ofString "uid", 0)], 1⟩ =
      .ok [some (.vec [.string (Bytes.ofString "aaa")]), none] := by decide
  have hstream := @SameLines.stream_error .inert _ _ _ hlines rfl rfl (by decide) (by decide)
  exact ⟨_, _, pagedFile_reads _, List.append_nil _, by decide, by decide, by decide, by decide,
    rfl, hfile, hstream, @not_sameRecords_of_error .inert _ _ _ hfile hstream⟩

end Log

end Lsql.Phys
