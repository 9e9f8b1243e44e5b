import Lsql.Core.TimeFormat
import Lsql.Flow.Loop
import Lsql.Storage.Lines

/-!
# Lsql.Phys.SearchTimestamp

The search for a timestamp in a file (`back/exec/phys/log/search`).

A file whose lines are ordered by time is searched by bisection over its bytes. A probe goes back to
the start of its line and reads the line, both in chunks of the search buffer's size. The interval
keeps the lines in front of it too early and those behind it late enough, and every probe makes it
smaller by a byte at least, whatever the file holds.
-/

namespace Lsql.Storage

open Flow (pieces lastPiece Terminated)

/-! ### The lines of a file -/

/-- The lines of a text; the last one may lack its newline. -/
def textLines (text : Bytes) : List Bytes :=
  pieces newline text ++ unlessEmpty (lastPiece newline text)

/-- The lines of a content with the positions at which they start. -/
def fileLines (content : Bytes) : List (Nat × Bytes) := positioned 0 (textLines content)

@[simp] theorem textLines_nil : textLines [] = [] := rfl

/-- A first line that is ended. -/
theorem textLines_append {line : Bytes} (h : newline ∉ line) (rest : Bytes) :
    textLines (line ++ newline :: rest) = line :: textLines rest := by
  rw [textLines, Flow.pieces_append h, Flow.lastPiece_append h, textLines, List.cons_append]

/-- A line that is not ended. -/
theorem textLines_last {line : Bytes} (h : newline ∉ line) (hne : line ≠ []) :
    textLines line = [line] := by
  rw [textLines, Flow.pieces_of_not_mem h, Flow.lastPiece_of_not_mem h, unlessEmpty,
    if_neg (by rwa [List.isEmpty_iff]), List.nil_append]

/-- The lines in front of a position at which a line starts, and those from there on. -/
theorem fileLines_split {content : Bytes} {pos : Nat} (h : Terminated newline (content.take pos))
    (hpos : pos ≤ content.length) :
    fileLines content =
      positioned 0 (pieces newline (content.take pos)) ++ positioned pos (textLines (content.drop pos)) := by
  obtain ⟨hpieces, hlast⟩ := h.append (content.drop pos)
  rw [List.take_append_drop] at hpieces hlast
  have hbytes := sum_pieces (content.take pos)
  rw [show lastPiece newline (content.take pos) = [] from h, List.length_nil, Nat.add_zero,
    List.length_take, Nat.min_eq_left hpos] at hbytes
  rw [fileLines, textLines, hpieces, hlast, List.append_assoc, ← textLines, positioned_append,
    hbytes, Nat.zero_add]

/-- The lines in front of a position at which a line starts, start in front of it. -/
theorem lt_of_mem_front {content : Bytes} {pos : Nat} (h : Terminated newline (content.take pos))
    (hpos : pos ≤ content.length) {line : Nat × Bytes}
    (hline : line ∈ positioned 0 (pieces newline (content.take pos))) : line.1 < pos := by
  have hbytes := sum_pieces (content.take pos)
  rw [show lastPiece newline (content.take pos) = [] from h, List.length_nil, Nat.add_zero,
    List.length_take, Nat.min_eq_left hpos] at hbytes
  have := (mem_positioned hline).2
  omega

/-- Lines start behind each other. -/
theorem pairwise_positioned (pos : Nat) (lines : List Bytes) :
    (positioned pos lines).Pairwise fun a b => a.1 < b.1 := by
  induction lines generalizing pos with
  | nil => exact .nil
  | cons line lines ih =>
      refine List.pairwise_cons.mpr ⟨fun other hother => ?_, ih _⟩
      have := (mem_positioned hother).1
      show pos < other.1
      omega

theorem pairwise_fileLines (content : Bytes) :
    (fileLines content).Pairwise fun a b => a.1 < b.1 :=
  pairwise_positioned 0 _

/-- Where the lines behind a text start. -/
theorem lineStart_positioned {front text : Bytes}
    (h : PagedLineSource.LineStart (front ++ text) front.length) {line : Nat × Bytes}
    (hline : line ∈ positioned front.length (textLines text)) :
    PagedLineSource.LineStart (front ++ text) line.1 := by
  induction hlength : text.length using Nat.strongRecOn generalizing front text with
  | _ n ih =>
      rcases Flow.first_piece newline text with htext | ⟨before, after, rfl, hbefore⟩
      · -- there is this line at most
        rw [textLines, Flow.pieces_of_not_mem htext, List.nil_append] at hline
        rw [unlessEmpty] at hline
        split at hline
        · exact absurd hline List.not_mem_nil
        · rw [List.mem_singleton.mp hline]
          exact h
      · rw [textLines_append hbefore] at hline
        rcases List.mem_cons.mp hline with rfl | hline
        · exact h
        · have hfront : front ++ (before ++ newline :: after) =
              (front ++ before ++ [newline]) ++ after := by
            rw [List.append_assoc, List.append_assoc, List.singleton_append]
          have hpos : (front ++ before ++ [newline]).length = front.length + before.length + 1 := by
            rw [List.length_append, List.length_append, List.length_singleton]
          rw [List.length_append, List.length_cons] at hlength
          rw [hfront]
          refine ih after.length (by omega) (.inr (.inr ⟨_, hpos, ?_⟩)) (by rwa [hpos]) rfl
          rw [List.append_assoc, List.getElem?_append_right (by rw [List.length_append]),
            List.length_append, Nat.sub_self]
          rfl

theorem lineStart_of_mem {content : Bytes} {line : Nat × Bytes} (h : line ∈ fileLines content) :
    PagedLineSource.LineStart content line.1 :=
  @lineStart_positioned [] content (.inl rfl) line h

/-- Every line starts in the file. -/
theorem fileLines_lt {content : Bytes} {line : Nat × Bytes} (h : line ∈ fileLines content) :
    line.1 < content.length := by
  have hbytes := sum_pieces content
  rw [fileLines, textLines, positioned_append] at h
  rcases List.mem_append.mp h with h | h
  · have := (mem_positioned h).2
    omega
  · rw [unlessEmpty] at h
    split at h
    · exact absurd h List.not_mem_nil
    next hlast =>
      obtain rfl := List.mem_singleton.mp h
      rw [List.isEmpty_iff, ← List.length_eq_zero_iff] at hlast
      dsimp only
      omega

end Lsql.Storage

namespace Lsql.Phys

open Flow (Loop Round pieces lastPiece Terminated)
open Lsql.Storage

/-! ### Reading a line -/

/-- `file.read(offset, dest)`: the bytes of the file there, as many as there is room for. -/
def readAt (content : Bytes) (offset size : Nat) : Bytes := (content.drop offset).take size

/-- The buffer of the search, with room for a byte at least. -/
structure SearchBuffer where
  size : Nat
  pos : 0 < size

/-- `Line`. -/
structure Line where
  beginPos : Nat
  nextBegin : Nat
  text : Bytes
  deriving DecidableEq, Repr

/-- `readChar`. -/
def readChar (content : Bytes) (offset : Nat) : Option UInt8 :=
  if content.length ≤ offset then none
  else some ((readAt content offset 1).headD 0)

/-- A round of `while (offset > 0)`: the chunk in front of an offset is searched from its end. -/
def scanBackRound (content : Bytes) (buffer : SearchBuffer) (offset : Nat) : Round Nat Nat :=
  if 0 < offset then
    let chunkBegin := if buffer.size < offset then offset - buffer.size else 0
    let chunk := readAt content chunkBegin (offset - chunkBegin)
    match chunk.reverse.idxOf? newline with
    | some i => .leave (chunkBegin + (chunk.length - i))
    | none => .again chunkBegin
  else .leave 0

theorem scanBackRound_again {content : Bytes} {buffer : SearchBuffer} {offset offset' : Nat}
    (h : scanBackRound content buffer offset = .again offset') :
    offset' < offset ∧ newline ∉ readAt content offset' (offset - offset') := by
  rw [scanBackRound] at h
  split at h
  next hpos =>
    dsimp only at h
    split at h
    · cases h
    next hnone =>
      have hoffset := Round.again.inj h
      rw [hoffset] at hnone
      refine ⟨?_, fun hmem => Flow.idxOf?_eq_none hnone (List.mem_reverse.mpr hmem)⟩
      have := buffer.pos
      split at hoffset <;> omega
  · cases h

/-- The loop of `findLineBegin`. -/
def scanBack (content : Bytes) (buffer : SearchBuffer) : Loop Nat Nat where
  round := scanBackRound content buffer
  variant := id
  decreases _ _ h := (scanBackRound_again h).1

/-- `findLineBegin`. -/
def findLineBegin (content : Bytes) (offset : Nat) (buffer : SearchBuffer) : Option Nat :=
  if content.length ≤ offset then none
  else if offset = 0 then some 0
  else if readChar content (offset - 1) = some newline then some offset
  else some ((scanBack content buffer).run offset)

/-- A round of `while (offset < file.size())`: the chunk at an offset is searched, with the text that
has been read in front of it. -/
def scanLineRound (content : Bytes) (buffer : SearchBuffer) (beginPos : Nat) (state : Nat × Bytes) :
    Round (Nat × Bytes) Line :=
  if state.1 < content.length then
    let chunk := readAt content state.1 (min buffer.size (content.length - state.1))
    match chunk.idxOf? newline with
    | some i => .leave ⟨beginPos, state.1 + i + 1, state.2 ++ chunk.take i⟩
    | none => .again (state.1 + chunk.length, state.2 ++ chunk)
  else .leave ⟨beginPos, content.length, state.2⟩

theorem length_readAt {content : Bytes} {offset size : Nat} (h : offset + size ≤ content.length) :
    (readAt content offset size).length = size := by
  rw [readAt, List.length_take, List.length_drop]
  omega

theorem scanLineRound_decreases {content : Bytes} {buffer : SearchBuffer} {beginPos : Nat}
    {state state' : Nat × Bytes} (h : scanLineRound content buffer beginPos state = .again state') :
    content.length - state'.1 < content.length - state.1 := by
  rw [scanLineRound] at h
  split at h
  next hlt =>
    dsimp only at h
    split at h
    · cases h
    · have hchunk := @length_readAt content state.1
        (min buffer.size (content.length - state.1)) (by omega)
      rw [← Round.again.inj h, hchunk]
      have := buffer.pos
      dsimp only
      omega
  · cases h

/-- The loop of `readLine`. -/
def scanLine (content : Bytes) (buffer : SearchBuffer) (beginPos : Nat) :
    Loop (Nat × Bytes) Line where
  round := scanLineRound content buffer beginPos
  variant state := content.length - state.1
  decreases _ _ h := scanLineRound_decreases h

/-- `readLine`. -/
def readLine (content : Bytes) (beginPos : Nat) (buffer : SearchBuffer) : Line :=
  (scanLine content buffer beginPos).run (beginPos, [])

/-- `readLineAt`. -/
def readLineAt (content : Bytes) (offset : Nat) (buffer : SearchBuffer) : Option Line :=
  match findLineBegin content offset buffer with
  | none => none
  | some beginPos => some (readLine content beginPos buffer)

/-! ### What is read -/

section Reading

variable {content : Bytes} {buffer : SearchBuffer}

/-- No newline lies from a position up to an offset. -/
def Unbroken (content : Bytes) (pos offset : Nat) : Prop :=
  pos ≤ offset ∧ newline ∉ readAt content pos (offset - pos)

theorem Unbroken.refl (offset : Nat) : Unbroken content offset offset := by
  refine ⟨Nat.le_refl _, ?_⟩
  rw [Nat.sub_self, readAt, List.take_zero]
  exact List.not_mem_nil

theorem readAt_append {pos size size' : Nat} :
    readAt content pos (size + size') = readAt content pos size ++ readAt content (pos + size) size' := by
  rw [readAt, readAt, readAt, List.take_add, List.drop_drop]

theorem Unbroken.trans {a b c : Nat} (h : Unbroken content a b) (h' : Unbroken content b c) :
    Unbroken content a c := by
  refine ⟨h.1.trans h'.1, ?_⟩
  have hsum : c - a = (b - a) + (c - b) := by
    have := h.1
    have := h'.1
    omega
  rw [hsum, readAt_append, show a + (b - a) = b from Nat.add_sub_cancel' h.1]
  exact List.not_mem_append h.2 h'.2

/-- Where a newline is in what is read. -/
theorem readAt_eq_append {pos size : Nat} {front back : Bytes}
    (h : readAt content pos size = front ++ newline :: back) :
    content[pos + front.length]? = some newline ∧
      readAt content (pos + (front.length + 1)) (size - (front.length + 1)) = back := by
  have hlength : front.length < size := by
    have := congrArg List.length h
    rw [readAt, List.length_take, List.length_append, List.length_cons] at this
    omega
  constructor
  · have hget : (readAt content pos size)[front.length]? = some newline := by
      rw [h, List.getElem?_append_right (Nat.le_refl _), Nat.sub_self]
      rfl
    rwa [readAt, List.getElem?_take_of_lt hlength, List.getElem?_drop] at hget
  · have hdrop : (readAt content pos size).drop (front.length + 1) = back := by
      rw [h, List.append_cons, List.drop_left' (by rw [List.length_append]; rfl)]
    rwa [readAt, List.drop_take, List.drop_drop] at hdrop

/-- Behind a newline a line starts. -/
theorem terminated_take {pos : Nat} (h : content[pos]? = some newline) :
    Terminated newline (content.take (pos + 1)) := by
  rw [List.take_add_one, h]
  exact Flow.terminated_concat _

theorem readChar_eq_newline {offset : Nat} (h : readChar content offset = some newline) :
    content[offset]? = some newline := by
  rw [readChar] at h
  split at h
  · cases h
  next hlt =>
    have hoffset : offset < content.length := by omega
    rw [readAt, List.drop_eq_getElem_cons hoffset] at h
    rw [List.getElem?_eq_getElem hoffset]
    exact h

/-- Where the search for the start of a line is left. -/
theorem scanBackRound_leave {offset pos : Nat} (hoffset : offset ≤ content.length)
    (h : scanBackRound content buffer offset = .leave pos) :
    Terminated newline (content.take pos) ∧ Unbroken content pos offset := by
  rw [scanBackRound] at h
  split at h
  next hpos =>
    dsimp only at h
    generalize hbegin : (if buffer.size < offset then offset - buffer.size else 0) = chunkBegin at h
    have hle : chunkBegin ≤ offset := by
      split at hbegin <;> omega
    have hlength := @length_readAt content chunkBegin (offset - chunkBegin) (by omega)
    split at h
    next i hi =>
      obtain ⟨front, back, hchunk, hback, rfl⟩ := Flow.reverse_idxOf?_eq_some hi
      obtain rfl := Round.leave.inj h
      obtain ⟨hnewline, hread⟩ := readAt_eq_append hchunk
      have hsize := congrArg List.length hchunk
      rw [hlength, List.length_append, List.length_cons] at hsize
      have hpos : chunkBegin + ((readAt content chunkBegin (offset - chunkBegin)).length -
          back.length) = chunkBegin + front.length + 1 := by omega
      rw [hpos]
      refine ⟨terminated_take hnewline, by omega, ?_⟩
      rwa [show offset - (chunkBegin + front.length + 1) =
        offset - chunkBegin - (front.length + 1) by omega, Nat.add_assoc, hread]
    · cases h
  next hzero =>
    obtain rfl := Round.leave.inj h
    obtain rfl : offset = 0 := by omega
    exact ⟨Flow.lastPiece_nil, Unbroken.refl 0⟩

theorem scanBack_spec {offset : Nat} (h : offset ≤ content.length) :
    Terminated newline (content.take ((scanBack content buffer).run offset)) ∧
      Unbroken content ((scanBack content buffer).run offset) offset := by
  refine Loop.run_spec (fun pos => Unbroken content pos offset)
    (fun pos => Terminated newline (content.take pos) ∧ Unbroken content pos offset)
    ?_ ?_ (Unbroken.refl offset)
  · intro pos pos' hinv hround
    obtain ⟨hlt, hchunk⟩ := scanBackRound_again hround
    exact Unbroken.trans ⟨Nat.le_of_lt hlt, hchunk⟩ hinv
  · intro pos result hinv hround
    obtain ⟨hstart, hunbroken⟩ := scanBackRound_leave (hinv.1.trans h) hround
    exact ⟨hstart, hunbroken.trans hinv⟩

/-- **Going back to the start of a line.** -/
theorem findLineBegin_spec {offset : Nat} (h : offset < content.length) :
    ∃ pos, findLineBegin content offset buffer = some pos ∧
      Terminated newline (content.take pos) ∧ Unbroken content pos offset := by
  rw [findLineBegin, if_neg (Nat.not_le.mpr h)]
  split
  next hzero =>
    rw [hzero]
    exact ⟨0, rfl, Flow.lastPiece_nil, Unbroken.refl 0⟩
  next hpos =>
    split
    next hprev =>
      refine ⟨offset, rfl, ?_, Unbroken.refl offset⟩
      have hstart := terminated_take (readChar_eq_newline hprev)
      rwa [Nat.sub_add_cancel (by omega)] at hstart
    · exact ⟨_, rfl, scanBack_spec (Nat.le_of_lt h)⟩

/-- The text of a line and where the next one starts, for a line that starts at a position. -/
structure ReadsLine (content : Bytes) (pos : Nat) (line : Line) : Prop where
  beginPos : line.beginPos = pos
  whole : newline ∉ line.text
  next : (∃ rest, content.drop pos = line.text ++ newline :: rest ∧
      line.nextBegin = pos + line.text.length + 1) ∨
    content.drop pos = line.text ∧ line.nextBegin = content.length

/-- What `readLine` has read of a line. -/
structure ReadSoFar (content : Bytes) (pos : Nat) (state : Nat × Bytes) : Prop where
  text : content.drop pos = state.2 ++ content.drop state.1
  whole : newline ∉ state.2
  offset : state.1 = pos + state.2.length

theorem readAt_append_drop {offset size : Nat} :
    content.drop offset = readAt content offset size ++ content.drop (offset + size) := by
  rw [readAt, ← List.drop_drop, List.take_append_drop]

/-- **Reading a line**, whatever its length and the size of the buffer. -/
theorem readLine_spec (pos : Nat) : ReadsLine content pos (readLine content pos buffer) := by
  refine Loop.run_spec (ReadSoFar content pos) (ReadsLine content pos) ?_ ?_
    ⟨rfl, List.not_mem_nil, rfl⟩
  · intro state state' hinv hround
    change scanLineRound content buffer pos state = _ at hround
    rw [scanLineRound] at hround
    split at hround
    next hlt =>
      dsimp only at hround
      split at hround
      · cases hround
      next hnone =>
        have hchunk := @length_readAt content state.1
          (min buffer.size (content.length - state.1)) (by omega)
        rw [← Round.again.inj hround]
        constructor
        · rw [hinv.text, List.append_assoc, hchunk, ← readAt_append_drop]
        · exact List.not_mem_append hinv.whole (Flow.idxOf?_eq_none hnone)
        · rw [hinv.offset, List.length_append, Nat.add_assoc]
    · cases hround
  · intro state line hinv hround
    change scanLineRound content buffer pos state = _ at hround
    rw [scanLineRound] at hround
    split at hround
    next hlt =>
      dsimp only at hround
      split at hround
      next i hi =>
        obtain ⟨-, hbefore, hlength⟩ := Flow.idxOf?_eq_some hi
        have htext := hinv.text
        rw [@readAt_append_drop content state.1 (min buffer.size (content.length - state.1)),
          Flow.append_of_idxOf? hi] at htext
        rw [← Round.leave.inj hround]
        refine ⟨rfl, List.not_mem_append hinv.whole hbefore, .inl ⟨_, htext, ?_⟩⟩
        · show state.1 + i + 1 = _
          rw [List.length_append, List.length_take, Nat.min_eq_left (Nat.le_of_lt hlength),
            hinv.offset, ← Nat.add_assoc]
      · cases hround
    next hge =>
      rw [← Round.leave.inj hround]
      refine ⟨rfl, hinv.whole, .inr ⟨?_, rfl⟩⟩
      rw [hinv.text, List.drop_eq_nil_of_le (Nat.le_of_not_lt hge), List.append_nil]

/-- A line of the file: it is one of its lines, and no other line starts before the next one. -/
structure FileLine (content : Bytes) (line : Line) : Prop where
  mem : (line.beginPos, line.text) ∈ fileLines content
  next : ∀ other ∈ fileLines content, other.1 < line.nextBegin → other.1 ≤ line.beginPos

/-- What is read at the start of a line is a line of the file. -/
theorem ReadsLine.fileLine {pos : Nat} {line : Line} (h : ReadsLine content pos line)
    (hstart : Terminated newline (content.take pos)) (hpos : pos < content.length) :
    FileLine content line := by
  obtain ⟨beginPos, nextBegin, text⟩ := line
  obtain ⟨hbegin, hwhole, hnext⟩ := h
  obtain rfl : beginPos = pos := hbegin
  have hfront := fun other => @lt_of_mem_front content beginPos hstart (Nat.le_of_lt hpos) other
  -- the lines from this one on
  obtain ⟨rest, hlines, hrest⟩ : ∃ rest, textLines (content.drop beginPos) = text :: rest ∧
      ∀ other ∈ positioned (beginPos + text.length + 1) rest, nextBegin ≤ other.1 := by
    rcases hnext with ⟨rest, hdrop, hnext⟩ | ⟨hdrop, -⟩
    · refine ⟨textLines rest, ?_, fun other hother => ?_⟩
      · rw [hdrop]
        exact textLines_append hwhole rest
      · have := (mem_positioned hother).1
        dsimp only at hnext
        omega
    · refine ⟨[], ?_, fun other hother => absurd hother List.not_mem_nil⟩
      rw [hdrop]
      refine textLines_last hwhole ?_
      rw [← hdrop]
      exact fun hnil => absurd (List.drop_eq_nil_iff.mp hnil) (Nat.not_le.mpr hpos)
  have hsplit := fileLines_split hstart (Nat.le_of_lt hpos)
  rw [hlines, positioned] at hsplit
  constructor
  · rw [hsplit]
    exact List.mem_append_right _ List.mem_cons_self
  · intro other hother hlt
    rw [hsplit] at hother
    rcases List.mem_append.mp hother with hother | hother
    · exact Nat.le_of_lt (hfront other hother)
    · rcases List.mem_cons.mp hother with rfl | hother
      · exact Nat.le_refl _
      · exact absurd (hrest other hother) (Nat.not_le.mpr hlt)

/-- What is read reaches over the offset at which it was looked for. -/
theorem ReadsLine.reaches {pos offset : Nat} {line : Line} (h : ReadsLine content pos line)
    (hunbroken : Unbroken content pos offset) (hoffset : offset < content.length) :
    offset < line.nextBegin := by
  rcases h.next with ⟨rest, hdrop, hnext⟩ | ⟨-, hnext⟩
  · by_contra hle
    apply hunbroken.2
    have hlength : line.text.length < offset - pos := by omega
    refine List.mem_iff_getElem?.mpr ⟨line.text.length, ?_⟩
    rw [readAt, List.getElem?_take_of_lt hlength, hdrop,
      List.getElem?_append_right (Nat.le_refl _), Nat.sub_self]
    rfl
  · omega

/-- **A probe**: the line that an offset lies in. -/
theorem readLineAt_spec {offset : Nat} (h : offset < content.length) :
    ∃ line, readLineAt content offset buffer = some line ∧ FileLine content line ∧
      line.beginPos ≤ offset ∧ offset < line.nextBegin := by
  obtain ⟨pos, hfind, hstart, hunbroken⟩ := @findLineBegin_spec content buffer offset h
  have hread := @readLine_spec content buffer pos
  refine ⟨readLine content pos buffer, ?_, hread.fileLine hstart (by have := hunbroken.1; omega),
    ?_, hread.reaches hunbroken h⟩
  · rw [readLineAt, hfind]
  · rw [hread.beginPos]
    exact hunbroken.1

theorem readLineAt_none {offset : Nat} (h : content.length ≤ offset) :
    readLineAt content offset buffer = none := by
  rw [readLineAt, findLineBegin, if_pos h]

end Reading

/-! ### Conditions on timestamps -/

/-- A condition that every later timestamp meets. -/
def Upward (cond : Int64 → Bool) : Prop := ∀ s t, s ≤ t → cond s = true → cond t = true

theorem upward_ge (ts : Int64) : Upward fun lineTs => decide (ts ≤ lineTs) := by
  intro s t hle h
  rw [decide_eq_true_iff] at h ⊢
  exact Int64.le_trans h hle

theorem upward_gt (ts : Int64) : Upward fun lineTs => decide (ts < lineTs) := by
  intro s t hle h
  rw [decide_eq_true_iff] at h ⊢
  exact Int64.lt_of_lt_of_le h hle

/-! ### The search -/

section Timestamp

variable [Platform]

/-- `findFirst`. -/
def findFirst (s regex : Bytes) : Except Fault (Option Bytes) :=
  match Platform.regexFind regex s with
  | none => .ok none
  | some (first, size) =>
    if first ≤ s.length then .ok (some ((s.drop first).take size))
    else .error (.exception "std::out_of_range")

/-- `searchFirstTimestamp`. -/
def searchFirstTimestamp (s : Bytes) (format : TimeFormat) : Except Fault (Option Int64) := do
  match ← findFirst s (timeFormatRegex format) with
  | none => pure none
  | some view =>
    let ts ← timestampFromString view format
    pure (some ts)

/-- `lineTimestamp`. -/
def lineTimestamp (line : Bytes) (format : TimeFormat) : Except Fault Int64 := do
  match ← searchFirstTimestamp line format with
  | none => .error (.exception ("failed to find timestamp in line '" ++ line.toText ++ "'"))
  | some ts => pure ts

/-- What `boundLine` keeps: the interval and the answer, which is `npos` at first. -/
structure Interval where
  beginPos : Nat
  endPos : Nat
  answer : Option Nat
  deriving DecidableEq, Repr

/-- The arguments of `boundLine`. -/
structure Search where
  content : Bytes
  ts : Int64
  format : TimeFormat
  acceptLine : Int64 → Int64 → Bool
  skipLine : Int64 → Int64 → Bool

namespace Search

/-- A round of `while (begin < end)`. -/
def boundRound (search : Search) (buffer : SearchBuffer) (s : Interval) :
    Round Interval (Except Fault (Option Nat)) :=
  if s.beginPos < s.endPos then
    let mid := s.beginPos + (s.endPos - s.beginPos) / 2
    match readLineAt search.content mid buffer with
    | none => .again { s with endPos := mid }
    | some line =>
      match lineTimestamp line.text search.format with
      | .error fault => .leave (.error fault)
      | .ok lineTs =>
        if search.skipLine lineTs search.ts then .again { s with beginPos := line.nextBegin }
        else if search.acceptLine lineTs search.ts then
          .again ⟨s.beginPos, line.beginPos, some line.beginPos⟩
        else .again { s with endPos := line.beginPos }
  else .leave (.ok s.answer)

variable {search : Search} {buffer : SearchBuffer} {s s' : Interval}

/-- What a further round of the search has done: it has cut the interval at a probe behind the file,
behind the line of the probe, or in front of it. -/
theorem boundRound_again (h : search.boundRound buffer s = .again s') :
    ∃ mid, s.beginPos ≤ mid ∧ mid < s.endPos ∧
      ((search.content.length ≤ mid ∧ s' = { s with endPos := mid }) ∨
        ∃ line lineTs, FileLine search.content line ∧ line.beginPos ≤ mid ∧
          mid < line.nextBegin ∧ lineTimestamp line.text search.format = .ok lineTs ∧
          ((search.skipLine lineTs search.ts = true ∧ s' = { s with beginPos := line.nextBegin }) ∨
            search.skipLine lineTs search.ts = false ∧
              s' = ⟨s.beginPos, line.beginPos, if search.acceptLine lineTs search.ts then
                some line.beginPos else s.answer⟩)) := by
  rw [boundRound] at h
  split at h
  next hlt =>
    dsimp only at h
    generalize hmid : s.beginPos + (s.endPos - s.beginPos) / 2 = mid at h
    refine ⟨mid, by omega, by omega, ?_⟩
    rcases Nat.lt_or_ge mid search.content.length with hinside | hbehind
    · obtain ⟨line, hread, hline, hbegin, hnext⟩ := @readLineAt_spec search.content buffer mid hinside
      rw [hread] at h
      dsimp only at h
      split at h
      · cases h
      next lineTs hts =>
        refine .inr ⟨line, lineTs, hline, hbegin, hnext, hts, ?_⟩
        split at h
        next hskip => exact .inl ⟨hskip, (Round.again.inj h).symm⟩
        next hskip =>
          refine .inr ⟨Bool.eq_false_of_not_eq_true hskip, ?_⟩
          split at h
          next haccept =>
            rw [if_pos haccept]
            exact (Round.again.inj h).symm
          next haccept =>
            rw [if_neg haccept]
            exact (Round.again.inj h).symm
    · rw [readLineAt_none hbehind] at h
      exact .inl ⟨hbehind, (Round.again.inj h).symm⟩
  · cases h

/-- How the search is left: with its answer, or at a line that carries no timestamp. -/
theorem boundRound_leave {result : Except Fault (Option Nat)}
    (h : search.boundRound buffer s = .leave result) :
    (s.endPos ≤ s.beginPos ∧ result = .ok s.answer) ∨
      ∃ line ∈ fileLines search.content, ∃ fault,
        lineTimestamp line.2 search.format = .error fault ∧ result = .error fault := by
  rw [boundRound] at h
  split at h
  next hlt =>
    right
    dsimp only at h
    generalize s.beginPos + (s.endPos - s.beginPos) / 2 = mid at h
    rcases Nat.lt_or_ge mid search.content.length with hinside | hbehind
    · obtain ⟨line, hread, hline, -⟩ := @readLineAt_spec search.content buffer mid hinside
      rw [hread] at h
      dsimp only at h
      split at h
      next fault hts => exact ⟨_, hline.mem, fault, hts, (Round.leave.inj h).symm⟩
      next lineTs hts =>
        split at h
        · cases h
        · split at h <;> cases h
    · rw [readLineAt_none hbehind] at h
      cases h
  next hge => exact .inl ⟨Nat.le_of_not_lt hge, (Round.leave.inj h).symm⟩

/-- Every round makes the interval smaller, on every file. -/
theorem boundRound_decreases (h : search.boundRound buffer s = .again s') :
    s'.endPos - s'.beginPos < s.endPos - s.beginPos := by
  obtain ⟨mid, hbegin, hend, ⟨-, rfl⟩ | ⟨line, lineTs, -, hline, hnext, -, ⟨-, rfl⟩ | ⟨-, rfl⟩⟩⟩ :=
    boundRound_again h <;> dsimp only <;> omega

/-- The loop of `boundLine`. -/
def boundLoop (search : Search) (buffer : SearchBuffer) :
    Loop Interval (Except Fault (Option Nat)) where
  round := search.boundRound buffer
  variant s := s.endPos - s.beginPos
  decreases _ _ h := boundRound_decreases h

/-- `boundLine`. -/
def boundLine (search : Search) (buffer : SearchBuffer) : Except Fault (Option Nat) :=
  (search.boundLoop buffer).run ⟨0, search.content.length, none⟩

/-- A result is an answer, or the failure of a line that carries no timestamp. -/
def Returned (search : Search) (result : Except Fault (Option Nat)) : Prop :=
  (∃ answer, result = .ok answer) ∨ ∃ line ∈ fileLines search.content, ∃ fault,
    lineTimestamp line.2 search.format = .error fault ∧ result = .error fault

/-- **The search returns on every file.** -/
theorem boundLine_returned (search : Search) (buffer : SearchBuffer) :
    search.Returned (search.boundLine buffer) := by
  refine Loop.run_spec (fun _ => True) search.Returned (fun _ _ _ _ => trivial) ?_ trivial
  intro s result _ hround
  rcases boundRound_leave hround with ⟨-, hresult⟩ | hfault
  · exact .inl ⟨_, hresult⟩
  · exact .inr hfault

end Search

/-- `lowerBoundLine`, where no answer is `npos`. -/
def lowerBoundLine (content : Bytes) (buffer : SearchBuffer) (ts : Int64) (format : TimeFormat) :
    Except Fault (Option Nat) :=
  Search.boundLine ⟨content, ts, format, fun lineTs target => decide (target ≤ lineTs),
    fun lineTs target => decide (lineTs < target)⟩ buffer

/-- `upperBoundLine`. -/
def upperBoundLine (content : Bytes) (buffer : SearchBuffer) (ts : Int64) (format : TimeFormat) :
    Except Fault Nat := do
  let result ← Search.boundLine ⟨content, ts, format, fun lineTs target => decide (target < lineTs),
    fun lineTs target => decide (lineTs ≤ target)⟩ buffer
  pure (result.getD content.length)

/-! ### What the search finds -/

/-- Whether the timestamp of a line meets a condition. -/
def stampMeets (format : TimeFormat) (cond : Int64 → Bool) (line : Bytes) : Bool :=
  match lineTimestamp line format with
  | .ok ts => cond ts
  | .error _ => false

/-- The offset of the first line whose timestamp meets a condition. -/
def firstLine (content : Bytes) (format : TimeFormat) (cond : Int64 → Bool) : Option Nat :=
  ((fileLines content).find? fun line => stampMeets format cond line.2).map Prod.fst

/-- Every line carries a timestamp, and timestamps do not decrease. -/
structure TimeOrdered (content : Bytes) (format : TimeFormat) : Prop where
  stamped : ∀ line ∈ fileLines content, ∃ ts, lineTimestamp line.2 format = .ok ts
  ordered : (fileLines content).Pairwise fun a b => ∀ s t,
    lineTimestamp a.2 format = .ok s → lineTimestamp b.2 format = .ok t → s ≤ t

variable {content : Bytes} {format : TimeFormat} {cond : Int64 → Bool}

theorem stampMeets_of_ok {line : Bytes} {ts : Int64} (h : lineTimestamp line format = .ok ts) :
    stampMeets format cond line = cond ts := by
  rw [stampMeets, h]

/-- In an ordered file the lines behind one that meets such a condition meet it too. -/
theorem TimeOrdered.upward (h : TimeOrdered content format) (hcond : Upward cond)
    {a b : Nat × Bytes} (ha : a ∈ fileLines content) (hb : b ∈ fileLines content)
    (hle : a.1 ≤ b.1) (hmeets : stampMeets format cond a.2 = true) :
    stampMeets format cond b.2 = true := by
  have hpairs := (pairwise_fileLines content).and h.ordered
  refine List.Pairwise.forall_of_forall_of_flip
    (R := fun a b : Nat × Bytes => a.1 ≤ b.1 → stampMeets format cond a.2 = true →
      stampMeets format cond b.2 = true) (fun _ _ _ h => h) ?_ ?_ ha hb hle hmeets
  · refine hpairs.imp_of_mem fun {a b} ha hb hab _ hmeets => ?_
    obtain ⟨s, hs⟩ := h.stamped a ha
    obtain ⟨t, ht⟩ := h.stamped b hb
    rw [stampMeets_of_ok hs] at hmeets
    rw [stampMeets_of_ok ht]
    exact hcond s t (hab.2 s t hs ht) hmeets
  · -- a line that comes later does not start earlier
    exact hpairs.imp fun hab hle => absurd hab.1 (Nat.not_lt.mpr hle)

/-- A search that skips the lines that do not meet a condition and accepts those that do. -/
def Search.For (search : Search) (cond : Int64 → Bool) : Prop :=
  ∀ ts, search.skipLine ts search.ts = !cond ts ∧ search.acceptLine ts search.ts = cond ts

/-- What the interval says about the lines around it. -/
structure Bisects (search : Search) (cond : Int64 → Bool) (s : Interval) : Prop where
  endPos_le : s.endPos ≤ search.content.length
  early : ∀ line ∈ fileLines search.content, line.1 < s.beginPos →
    stampMeets search.format cond line.2 = false
  late : ∀ line ∈ fileLines search.content, s.endPos ≤ line.1 →
    stampMeets search.format cond line.2 = true
  answer : (s.answer = none ∧ s.endPos = search.content.length) ∨
    s.answer = some s.endPos ∧ ∃ text, (s.endPos, text) ∈ fileLines search.content

variable {search : Search} {buffer : SearchBuffer}

theorem bisects_start : Bisects search cond ⟨0, search.content.length, none⟩ where
  endPos_le := Nat.le_refl _
  early _ _ hlt := absurd hlt (Nat.not_lt_zero _)
  late _ hline hle := absurd (fileLines_lt hline) (Nat.not_lt.mpr hle)
  answer := .inl ⟨rfl, rfl⟩

/-- A round keeps what the interval says. -/
theorem Bisects.again (hfile : TimeOrdered search.content search.format) (hcond : Upward cond)
    (hsearch : search.For cond) {s s' : Interval} (h : Bisects search cond s)
    (hround : search.boundRound buffer s = .again s') : Bisects search cond s' := by
  obtain ⟨mid, -, hend, hprobe⟩ := Search.boundRound_again hround
  have hinside : mid < search.content.length := Nat.lt_of_lt_of_le hend h.endPos_le
  rcases hprobe with ⟨hbehind, -⟩ | ⟨line, lineTs, hline, -, -, hts, hcut⟩
  · exact absurd hinside (Nat.not_lt.mpr hbehind)
  · have hmeets := @stampMeets_of_ok _ _ cond _ _ hts
    rcases hcut with ⟨hskip, rfl⟩ | ⟨hskip, rfl⟩
    · -- no line up to the probe meets the condition, since the probe would
      rw [(hsearch lineTs).1, Bool.not_eq_true'] at hskip
      refine { h with early := fun other hother hlt => ?_ }
      refine Bool.eq_false_of_not_eq_true fun hother' => ?_
      have := hfile.upward hcond hother hline.mem (hline.next other hother hlt) hother'
      rw [hmeets, hskip] at this
      cases this
    · rw [(hsearch lineTs).1, Bool.not_eq_false'] at hskip
      rw [(hsearch lineTs).2, if_pos hskip]
      exact
        { endPos_le := Nat.le_of_lt (fileLines_lt hline.mem)
          early := h.early
          late := fun other hother hle =>
            hfile.upward hcond hline.mem hother hle (hmeets.trans hskip)
          answer := .inr ⟨rfl, line.text, hline.mem⟩ }

/-- An empty interval has the first line that meets the condition behind it. -/
theorem Bisects.firstLine {s : Interval} (h : Bisects search cond s)
    (hempty : s.endPos ≤ s.beginPos) :
    firstLine search.content search.format cond = s.answer := by
  rcases h.answer with ⟨hanswer, hend⟩ | ⟨hanswer, text, hline⟩
  · rw [hanswer, Phys.firstLine, Option.map_eq_none_iff, List.find?_eq_none]
    intro line hline
    rw [h.early line hline (by have := fileLines_lt hline; omega)]
    exact Bool.false_ne_true
  · obtain ⟨front, back, hlines⟩ := List.append_of_mem hline
    have hfind : (fileLines search.content).find?
        (fun line => stampMeets search.format cond line.2) = some (s.endPos, text) := by
      rw [List.find?_eq_some_iff_append]
      refine ⟨h.late _ hline (Nat.le_refl _), front, back, hlines, fun other hother => ?_⟩
      have hpairs := pairwise_fileLines search.content
      rw [hlines, List.pairwise_append] at hpairs
      have hlt := hpairs.2.2 other hother _ List.mem_cons_self
      dsimp only at hlt
      rw [h.early other (hlines ▸ List.mem_append_left _ hother) (by omega)]
      rfl
    rw [hanswer, Phys.firstLine, hfind]
    rfl

/-- **The search finds the first line that meets a condition** that no later line gives up. -/
theorem boundLine_spec (hfile : TimeOrdered search.content search.format) (hcond : Upward cond)
    (hsearch : search.For cond) :
    search.boundLine buffer = .ok (firstLine search.content search.format cond) := by
  refine @Loop.run_spec _ _ (search.boundLoop buffer) (Bisects search cond)
    (fun result => result = .ok (firstLine search.content search.format cond))
    (fun _ _ hinv hround => hinv.again hfile hcond hsearch hround) ?_ _ bisects_start
  intro s result hinv hround
  rcases Search.boundRound_leave hround with ⟨hempty, hresult⟩ | ⟨line, hline, fault, hts, -⟩
  · rw [hinv.firstLine hempty]
    exact hresult
  · obtain ⟨ts, hok⟩ := hfile.stamped line hline
    cases hok.symm.trans hts

theorem lowerBoundLine_spec (h : TimeOrdered content format) (ts : Int64) :
    lowerBoundLine content buffer ts format =
      .ok (firstLine content format fun lineTs => decide (ts ≤ lineTs)) := by
  refine boundLine_spec h (upward_ge ts) fun lineTs => ⟨?_, rfl⟩
  rw [← decide_not]
  exact decide_eq_decide.mpr Int64.not_le.symm

theorem upperBoundLine_spec (h : TimeOrdered content format) (ts : Int64) :
    upperBoundLine content buffer ts format =
      .ok ((firstLine content format fun lineTs => decide (ts < lineTs)).getD content.length) := by
  rw [upperBoundLine, boundLine_spec h (upward_gt ts) fun lineTs => ⟨?_, rfl⟩]
  · rfl
  · rw [← decide_not]
    exact decide_eq_decide.mpr Int64.not_lt.symm

end Timestamp

end Lsql.Phys
