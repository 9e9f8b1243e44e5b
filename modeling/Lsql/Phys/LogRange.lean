import Lsql.Phys.LogSources
import Lsql.Phys.SearchTimestamp
import Lsql.Plan.Operation

/-!
# Lsql.Phys.LogRange

Opening a log between two times (`getFileSourceRange` in `back/exec/phys/log/log.cpp`).

The two searches give a range of bytes. In a file that is ordered by time the lines that start in it
are those whose timestamps lie between the times, and it ends with the last of them.
-/

namespace Lsql.Phys

open Lsql.Exec Lsql.Logfmt Flow
open Lsql.Storage hiding newline

section Range

variable [Platform]

/-- The format of the timestamps: the one that is given, or that of the log's type. -/
def rangeFormat (path : Bytes) (logType : Option LogType) (timeFormat : Option TimeFormat) :
    Except Fault TimeFormat := do
  let timeFormat ← match timeFormat with
    | some format => .ok (some format)
    | none => match logType with
      | none => .error (.exception "failed to detect log type")
      | some type => .ok type.timeFormat
  match timeFormat with
  | none => .error (.exception ("can't pull timestamp from file at " ++ path.toText))
  | some format => pure format

/-- The range between what the two searches have found, which is empty if they found no line. -/
def rangeBetween : Option Nat → Nat → Nat × Nat
  | none, _ => (0, 0)
  | some fromPos, toPos => if toPos ≤ fromPos then (0, 0) else (fromPos, toPos)

/-- What `getFileSourceRange` opens: the lines' source, and the type of the log. -/
def rangeSource (path : Bytes) (pageSize : Nat) (content : Bytes) (buffer : SearchBuffer)
    (range : Plan.TimeRange) (timeFormat : Option TimeFormat) :
    Except Fault (PagedLineSource × Option LogType) := do
  require (!isProbablyArchive path)
    ("time range cannot be applied to compressed streams, path: '" ++ path.toText ++ "'")
  let logType ← detectLogType (.paged (PagedLineSource.whole pageSize content))
  let format ← rangeFormat path logType timeFormat
  let fromPos ← lowerBoundLine content buffer range.tsFrom format
  let toPos ← upperBoundLine content buffer range.tsTo format
  let found := rangeBetween fromPos toPos
  pure (⟨pageSize, content, found.1, found.2⟩, logType)

/-- `getFileSourceRange`. -/
def getFileSourceRange (path : Bytes) (pageSize : Nat) (content : Bytes) (buffer : SearchBuffer)
    (range : Plan.TimeRange) (timeFormat : Option TimeFormat) : Except Fault LogFile := do
  let (source, logType) ← rangeSource path pageSize content buffer range timeFormat
  let lines ← source.lines
  pure { lines := lines, type := logType }

/-- Whether the timestamp of a line lies between two times. -/
def inRange (format : TimeFormat) (range : Plan.TimeRange) (line : Bytes) : Bool :=
  stampMeets format (fun ts => decide (range.tsFrom ≤ ts) && decide (ts ≤ range.tsTo)) line

variable {content : Bytes} {format : TimeFormat} {cond : Int64 → Bool}

/-- The lines that meet a condition start at the first one, and no others do. -/
theorem firstLine_le_iff (h : TimeOrdered content format) (hcond : Upward cond)
    {line : Nat × Bytes} (hline : line ∈ fileLines content) :
    (firstLine content format cond).getD content.length ≤ line.1 ↔
      stampMeets format cond line.2 = true := by
  rw [firstLine]
  cases hfind : (fileLines content).find? (fun line => stampMeets format cond line.2) with
  | none =>
      have hnot := List.find?_eq_none.mp hfind line hline
      exact iff_of_false (Nat.not_le.mpr (fileLines_lt hline)) hnot
  | some found =>
      obtain ⟨hfound, front, back, hlines, hfront⟩ := List.find?_eq_some_iff_append.mp hfind
      have hmem : found ∈ fileLines content := List.mem_of_find?_eq_some hfind
      constructor
      · exact fun hle => h.upward hcond hmem hline hle hfound
      · intro hmeets
        by_contra hlt
        -- a line that starts in front of it would come in front of it
        have hpairs := pairwise_fileLines content
        rw [hlines] at hline
        rcases List.mem_append.mp hline with hline | hline
        · have hnot := hfront line hline
          rw [hmeets] at hnot
          cases hnot
        · rcases List.mem_cons.mp hline with rfl | hline
          · exact hlt (Nat.le_refl _)
          · rw [hlines, List.pairwise_append, List.pairwise_cons] at hpairs
            exact hlt (Nat.le_of_lt (hpairs.2.1.1 line hline))

omit [Platform] in
theorem rangeBetween_iff {fromPos : Option Nat} {toPos size pos : Nat} (hpos : pos < size) :
    (rangeBetween fromPos toPos).1 ≤ pos ∧ pos < (rangeBetween fromPos toPos).2 ↔
      fromPos.getD size ≤ pos ∧ pos < toPos := by
  cases fromPos with
  | none =>
      show 0 ≤ pos ∧ pos < 0 ↔ size ≤ pos ∧ pos < toPos
      omega
  | some fromPos =>
      show _ ↔ fromPos ≤ pos ∧ pos < toPos
      rw [rangeBetween]
      split <;> dsimp only <;> omega

/-- Both ends of the range are where a line starts, or the end of the file. -/
theorem lineStart_firstLine {pos : Nat} (h : firstLine content format cond = some pos) :
    PagedLineSource.LineStart content pos := by
  rw [firstLine, Option.map_eq_some_iff] at h
  obtain ⟨line, hfind, rfl⟩ := h
  exact lineStart_of_mem (List.mem_of_find?_eq_some hfind)

omit [Platform] in
theorem rangeBetween_lineStart {fromPos : Option Nat} {toPos : Nat}
    (hfrom : ∀ pos, fromPos = some pos → PagedLineSource.LineStart content pos)
    (hto : PagedLineSource.LineStart content toPos) :
    PagedLineSource.LineStart content (rangeBetween fromPos toPos).1 ∧
      PagedLineSource.LineStart content (rangeBetween fromPos toPos).2 := by
  cases fromPos with
  | none => exact ⟨.inl rfl, .inl rfl⟩
  | some fromPos =>
      rw [rangeBetween]
      split
      · exact ⟨.inl rfl, .inl rfl⟩
      · exact ⟨hfrom fromPos rfl, hto⟩

/-- A range of a file that holds the lines which meet a condition, whole, and no others. -/
structure Covers (content : Bytes) (source : PagedLineSource) (meets : Bytes → Bool) : Prop where
  content_eq : source.content = content
  beginsLine : PagedLineSource.LineStart content source.beginPos
  endsLine : PagedLineSource.LineStart content source.endPos
  exact : ∀ line ∈ fileLines content,
    source.beginPos ≤ line.1 ∧ line.1 < source.endPos ↔ meets line.2 = true

/-- Being between two times is being late enough and not too late. -/
theorem inRange_iff {range : Plan.TimeRange} {line : Bytes} {ts : Int64}
    (h : lineTimestamp line format = .ok ts) :
    inRange format range line = true ↔
      stampMeets format (fun ts => decide (range.tsFrom ≤ ts)) line = true ∧
        ¬ stampMeets format (fun ts => decide (range.tsTo < ts)) line = true := by
  rw [inRange, stampMeets_of_ok h, stampMeets_of_ok h, stampMeets_of_ok h, Bool.and_eq_true,
    decide_eq_true_iff, decide_eq_true_iff, decide_eq_true_iff, Int64.not_lt]

/-- **The range between the two searches covers the lines between the two times.** -/
theorem covers_rangeBetween (h : TimeOrdered content format) (pageSize : Nat)
    (range : Plan.TimeRange) :
    let found := rangeBetween (firstLine content format fun ts => decide (range.tsFrom ≤ ts))
      ((firstLine content format fun ts => decide (range.tsTo < ts)).getD content.length)
    Covers content ⟨pageSize, content, found.1, found.2⟩ (inRange format range) := by
  intro found
  have hto : PagedLineSource.LineStart content
      ((firstLine content format fun ts => decide (range.tsTo < ts)).getD content.length) := by
    cases hfirst : firstLine content format fun ts => decide (range.tsTo < ts) with
    | none => exact .inr (.inl rfl)
    | some pos => exact lineStart_firstLine hfirst
  have hfrom : ∀ pos, firstLine content format (fun ts => decide (range.tsFrom ≤ ts)) = some pos →
      PagedLineSource.LineStart content pos := fun pos => lineStart_firstLine
  have hstarts := rangeBetween_lineStart hfrom hto
  refine ⟨rfl, hstarts.1, hstarts.2, fun line hline => ?_⟩
  obtain ⟨ts, hts⟩ := h.stamped line hline
  rw [inRange_iff hts, rangeBetween_iff (fileLines_lt hline),
    firstLine_le_iff h (upward_ge range.tsFrom) hline, ← Nat.not_le,
    firstLine_le_iff h (upward_gt range.tsTo) hline]

omit [Platform] in
/-- A source reads the lines that its range covers; one that is not ended it leaves out. -/
theorem Covers.lines {source : PagedLineSource} {meets : Bytes → Bool}
    (h : Covers content source meets) (hsize : 0 < source.pageSize) :
    ∃ lines, source.lines = .ok lines ∧
      lines.map PinnedString.view = (pieces Storage.newline content).filter meets := by
  obtain ⟨pageSize, fileContent, beginPos, endPos⟩ := source
  obtain rfl : fileContent = content := h.content_eq
  obtain ⟨lines, hlines, hviews⟩ := PagedLineSource.lines_range hsize h.beginsLine h.endsLine
  refine ⟨lines, hlines, ?_⟩
  rw [hviews, linesStartingIn]
  have hfilter : (positioned 0 (pieces Storage.newline fileContent)).filter
        (fun line => decide (beginPos ≤ line.1) && decide (line.1 < endPos)) =
      (positioned 0 (pieces Storage.newline fileContent)).filter (meets ∘ Prod.snd) := by
    refine List.filter_congr fun line hline => ?_
    have hmem : line ∈ fileLines fileContent := by
      rw [fileLines, textLines, positioned_append]
      exact List.mem_append_left _ hline
    rw [Bool.eq_iff_iff, Bool.and_eq_true, decide_eq_true_iff, decide_eq_true_iff]
    exact h.exact line hmem
  rw [hfilter, ← List.filter_map, map_positioned]

theorem detectLogType_whole {pageSize : Nat} (hsize : 0 < pageSize) :
    detectLogType (.paged (PagedLineSource.whole pageSize content)) = .ok (contentType content) := by
  obtain ⟨lines, hlines, hviews⟩ := @PagedLineSource.lines_find pageSize content hsize
  have hsource : (LineSource.paged (PagedLineSource.whole pageSize content)).lines = .ok lines :=
    hlines
  rw [detectLogType, hsource, contentType, ← hviews, List.findSome?_map]
  rfl

/-- **Opening an ordered file between two times.** -/
theorem rangeSource_spec (h : TimeOrdered content format) {path : Bytes} {pageSize : Nat}
    (hpath : isProbablyArchive path = false) (hsize : 0 < pageSize) {timeFormat : Option TimeFormat}
    (hformat : rangeFormat path (contentType content) timeFormat = .ok format)
    (buffer : SearchBuffer) (range : Plan.TimeRange) :
    ∃ source, rangeSource path pageSize content buffer range timeFormat =
        .ok (source, contentType content) ∧
      source.pageSize = pageSize ∧ Covers content source (inRange format range) := by
  refine ⟨_, ?_, rfl, covers_rangeBetween h pageSize range⟩
  rw [rangeSource, hpath, detectLogType_whole hsize]
  simp only [Bool.not_false, require_true, ok_bind, hformat, lowerBoundLine_spec h,
    upperBoundLine_spec h, pure_eq_ok]

/-- **The timestamp search is correct.** On every file its loop ends, and it returns an answer or the
failure of a line without a timestamp. On a file that is ordered by time, with a last line that is
ended or not, the two searches find the first line that is late enough and the first one that is too
late. The range between them covers the lines between the two times, and the source that is opened
hands out those of them that are ended, as it does without a range. -/
theorem timestampSearch_correct (buffer : SearchBuffer) (content : Bytes) (format : TimeFormat) :
    (∀ search : Search, search.content = content →
      WellFounded (search.boundLoop buffer).Continues ∧
        search.Returned (search.boundLine buffer)) ∧
    (TimeOrdered content format →
      (∀ ts, lowerBoundLine content buffer ts format =
        .ok (firstLine content format fun lineTs => decide (ts ≤ lineTs))) ∧
      (∀ ts, upperBoundLine content buffer ts format =
        .ok ((firstLine content format fun lineTs => decide (ts < lineTs)).getD content.length)) ∧
      ∀ path pageSize range timeFormat, isProbablyArchive path = false → 0 < pageSize →
        rangeFormat path (contentType content) timeFormat = .ok format →
        ∃ source lines, rangeSource path pageSize content buffer range timeFormat =
            .ok (source, contentType content) ∧
          Covers content source (inRange format range) ∧
          getFileSourceRange path pageSize content buffer range timeFormat =
            .ok ⟨lines, contentType content⟩ ∧
          lines.map PinnedString.view =
            (pieces Storage.newline content).filter (inRange format range)) := by
  refine ⟨fun search _ => ⟨(search.boundLoop buffer).wellFounded, search.boundLine_returned buffer⟩,
    fun hordered => ⟨lowerBoundLine_spec hordered, upperBoundLine_spec hordered, ?_⟩⟩
  intro path pageSize range timeFormat hpath hsize hformat
  obtain ⟨source, hsource, rfl, hcovers⟩ :=
    rangeSource_spec hordered hpath hsize hformat buffer range
  obtain ⟨lines, hlines, hviews⟩ := hcovers.lines hsize
  refine ⟨source, lines, hsource, hcovers, ?_, hviews⟩
  rw [getFileSourceRange, hsource]
  show (source.lines >>= fun lines => pure (LogFile.mk lines (contentType content))) = _
  rw [hlines]
  rfl

end Range

/-- A platform that finds a timestamp at the start of a text, and knows the first of January of 2024
(UTC). -/
@[reducible] def newYearPlatform : Platform :=
  { Platform.inert with
    regexFind := fun _ s => if 19 ≤ s.length then some (0, 19) else none
    mktime := fun time => Int64.ofInt (1704067200 + 3600 * time.hour + 60 * time.min + time.sec) }

/-- Three lines, two of them of the same time, and the last one not ended. -/
def newYearLog : Bytes :=
  Bytes.ofString "2024-01-01 00:00:01 a\n2024-01-01 00:00:03\n2024-01-01 00:00:03 bc"

theorem newYearLog_lines : fileLines newYearLog =
    [(0, Bytes.ofString "2024-01-01 00:00:01 a"), (22, Bytes.ofString "2024-01-01 00:00:03"),
      (42, Bytes.ofString "2024-01-01 00:00:03 bc")] := by
  decide +kernel

theorem newYearLog_stamps :
    (fileLines newYearLog).map (fun line => @lineTimestamp newYearPlatform line.2 .SQL) =
      [.ok 1704067201, .ok 1704067203, .ok 1704067203] := by
  rw [newYearLog_lines]
  decide +kernel

theorem newYearLog_timeOrdered : @TimeOrdered newYearPlatform newYearLog .SQL := by
  have hstamps := newYearLog_stamps
  rw [newYearLog_lines, List.map_cons, List.map_cons, List.map_cons, List.map_nil,
    List.cons.injEq, List.cons.injEq, List.cons.injEq] at hstamps
  obtain ⟨hfirst, hsecond, hthird, -⟩ := hstamps
  refine @TimeOrdered.mk newYearPlatform newYearLog .SQL ?_ ?_
  · rw [newYearLog_lines, List.forall_mem_cons, List.forall_mem_cons, List.forall_mem_cons]
    exact ⟨⟨_, hfirst⟩, ⟨_, hsecond⟩, ⟨_, hthird⟩, by simp⟩
  · rw [newYearLog_lines]
    simp only [List.pairwise_cons, List.forall_mem_cons, List.not_mem_nil, false_implies,
      implies_true, List.Pairwise.nil, and_true, hfirst, hsecond, hthird, Except.ok.injEq]
    refine ⟨⟨?_, ?_⟩, ?_⟩
    all_goals
      rintro s t rfl rfl
      decide

/-- The log of three lines, searched with a buffer of one byte for its second second and the third:
the range ends with the file, and of its lines the ended one is handed out. -/
theorem timestampSearch_correct_newYear :
    @lowerBoundLine newYearPlatform newYearLog ⟨1, Nat.one_pos⟩ 1704067202 .SQL =
        .ok (@firstLine newYearPlatform newYearLog .SQL fun lineTs => decide (1704067202 ≤ lineTs)) ∧
      ∃ source lines, @rangeSource newYearPlatform (Bytes.ofString "new-year.log") 4096 newYearLog
          ⟨1, Nat.one_pos⟩ ⟨1704067202, 1704067203⟩ (some .SQL) =
            .ok (source, @contentType newYearPlatform newYearLog) ∧
        Covers newYearLog source
          (@inRange newYearPlatform .SQL ⟨1704067202, 1704067203⟩) ∧
        @getFileSourceRange newYearPlatform (Bytes.ofString "new-year.log") 4096 newYearLog
          ⟨1, Nat.one_pos⟩ ⟨1704067202, 1704067203⟩ (some .SQL) =
            .ok ⟨lines, @contentType newYearPlatform newYearLog⟩ ∧
        lines.map PinnedString.view =
          (pieces Storage.newline newYearLog).filter
            (@inRange newYearPlatform .SQL ⟨1704067202, 1704067203⟩) := by
  have hcorrect := (@timestampSearch_correct newYearPlatform ⟨1, Nat.one_pos⟩ newYearLog .SQL).2
    newYearLog_timeOrdered
  exact ⟨hcorrect.1 1704067202,
    hcorrect.2.2 _ 4096 ⟨1704067202, 1704067203⟩ (some .SQL) (by decide +kernel) (by decide) rfl⟩

end Lsql.Phys
