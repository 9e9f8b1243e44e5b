import Lsql.Core.Fault
import Lsql.Core.Value
import Lsql.Flow.Pieces

/-!
# Lsql.Storage.LineSource

The readers of lines (`back/storage/LineSource.cpp`, `back/storage/PagedFile.cpp`).

`PagedLineSource` looks for the newlines in the pages of a file, `StreamLineSource` in the chunks that
a stream reads. A line that lies in one page or chunk is a view into it, a line across several is put
together. Whatever the page size and the chunks, both find the pieces of the content that a newline
ends; the stream also hands out what follows the last newline, which the paged source drops.
-/

namespace Lsql.Storage

open Flow (pieces lastPiece)

/-- `'\n'`. -/
def newline : UInt8 := 10

/-! ### Pages -/

/-- `PagedLineSource`, with the content of its file. -/
structure PagedLineSource where
  pageSize : Nat
  content : Bytes
  beginPos : Nat
  endPos : Nat

namespace PagedLineSource

/-- `PagedLineSource(file)`. -/
def whole (pageSize : Nat) (content : Bytes) : PagedLineSource :=
  ⟨pageSize, content, 0, content.length⟩

/-- `file_->page(index)->data()`. -/
def page (src : PagedLineSource) (index : Nat) : Except Fault Bytes := do
  verify (decide (index * src.pageSize < src.content.length))
    "verify(index * page_size < size()) failed "
  pure ((src.content.drop (index * src.pageSize)).take src.pageSize)

/-- `page_included`. -/
def pageIncluded (src : PagedLineSource) (index : Nat) : Bool :=
  decide (index * src.pageSize < src.endPos)

/-- The generator needs more steps than it has been given. -/
def outOfFuel : Fault := .undefined "the reader does not end"

mutual

/-- `while (pos < end_)`, with the current page. -/
def linesFrom (src : PagedLineSource) :
    Nat → Nat → Bytes → Nat → Except Fault (List PinnedString)
  | 0, _, _, _ => .error outOfFuel
  | fuel + 1, pageIndex, page, pos =>
    if pos < src.endPos then
      let data := page.drop (pos % src.pageSize)
      match data.idxOf? newline with
      | none => lineAcross src fuel pageIndex data
      | some i =>
        if src.endPos < pos + i + 1 then pure []
        else if i + 1 = data.length then
          if src.pageIncluded (pageIndex + 1) then do
            let page ← src.page (pageIndex + 1)
            let lines ← linesFrom src fuel (pageIndex + 1) page (pos + i + 1)
            pure (⟨data.take i, data.drop i⟩ :: lines)
          else pure [⟨data.take i, data.drop i⟩]
        else do
          let lines ← linesFrom src fuel pageIndex page (pos + i + 1)
          pure (⟨data.take i, data.drop i⟩ :: lines)
    else pure []

/-- `while (newline == npos)`, with what has been found of the line. -/
def lineAcross (src : PagedLineSource) : Nat → Nat → Bytes → Except Fault (List PinnedString)
  | 0, _, _ => .error outOfFuel
  | fuel + 1, pageIndex, line =>
    if src.pageIncluded (pageIndex + 1) then do
      let data ← src.page (pageIndex + 1)
      match data.idxOf? newline with
      | none => lineAcross src fuel (pageIndex + 1) (line ++ data)
      | some i =>
        if i + 1 < data.length then do
          let lines ← linesFrom src fuel (pageIndex + 1) data
            (src.pageSize * (pageIndex + 1) + i + 1)
          pure (⟨line ++ data.take i, []⟩ :: lines)
        else if src.pageIncluded (pageIndex + 1 + 1) then do
          let page ← src.page (pageIndex + 1 + 1)
          let lines ← linesFrom src fuel (pageIndex + 1 + 1) page
            (src.pageSize * (pageIndex + 1 + 1))
          pure (⟨line ++ data.take i, []⟩ :: lines)
        else pure [⟨line ++ data.take i, []⟩]
    else pure []

end

/-- `lines`. Every round of the loops takes at least one byte. -/
def lines (src : PagedLineSource) : Except Fault (List PinnedString) :=
  if src.endPos ≤ src.beginPos then pure []
  else do
    let pageIndex := src.beginPos / src.pageSize
    let page ← src.page pageIndex
    linesFrom src (src.content.length + 1) pageIndex page src.beginPos

/-! ### The lines of a file -/

/-- The lines that a reader has found are the pieces of a text. -/
def Finds (x : Except Fault (List PinnedString)) (text : Bytes) : Prop :=
  ∃ lines, x = .ok lines ∧ lines.map PinnedString.view = pieces newline text

theorem finds_nil {text : Bytes} (h : newline ∉ text) :
    Finds (pure ([] : List PinnedString)) text :=
  ⟨[], rfl, (Flow.pieces_of_not_mem h).symm⟩

/-- One line more. -/
theorem Finds.cons {x : Except Fault (List PinnedString)} {line : PinnedString}
    {text rest : Bytes} (h : Finds x rest)
    (htext : pieces newline text = line.view :: pieces newline rest) :
    Finds (do
      let lines ← x
      pure (line :: lines)) text := by
  obtain ⟨lines, rfl, hlines⟩ := h
  exact ⟨line :: lines, rfl, by rw [List.map_cons, hlines, htext]⟩

theorem finds_single {line : PinnedString} {text : Bytes}
    (htext : pieces newline text = [line.view]) : Finds (pure [line]) text :=
  ⟨[line], rfl, htext.symm⟩

theorem Finds.congr {x : Except Fault (List PinnedString)} {text text' : Bytes}
    (h : Finds x text) (htext : pieces newline text' = pieces newline text) : Finds x text' := by
  obtain ⟨lines, hx, hlines⟩ := h
  exact ⟨lines, hx, hlines.trans htext.symm⟩

/-- A position at which a line starts, or the end of the content. -/
def LineStart (content : Bytes) (pos : Nat) : Prop :=
  pos = 0 ∨ pos = content.length ∨ ∃ before, pos = before + 1 ∧ content[before]? = some newline

/-- A source whose range ends with a line, or with the file. -/
structure EndsLine (src : PagedLineSource) : Prop where
  le_length : src.endPos ≤ src.content.length
  lineStart : LineStart src.content src.endPos

/-- The text of the range, from a position on. -/
def textFrom (src : PagedLineSource) (pos : Nat) : Bytes := (src.content.take src.endPos).drop pos

section Pages

variable {src : PagedLineSource}

theorem page_ok {k : Nat} (h : k * src.pageSize < src.content.length) :
    src.page k = .ok ((src.content.drop (k * src.pageSize)).take src.pageSize) := by
  rw [page, decide_eq_true h]
  rfl

theorem pageIncluded_iff {k : Nat} : src.pageIncluded k = true ↔ k * src.pageSize < src.endPos :=
  decide_eq_true_iff

/-- A page from a position in it on. -/
theorem page_data {pageSize : Nat} {content : Bytes} {k pos : Nat} (hk : k * pageSize ≤ pos)
    (hpos : pos < (k + 1) * pageSize) :
    ((content.drop (k * pageSize)).take pageSize).drop (pos % pageSize) =
      (content.drop pos).take ((k + 1) * pageSize - pos) := by
  obtain ⟨d, rfl⟩ := Nat.exists_eq_add_of_le hk
  rw [Nat.add_mul, Nat.one_mul] at hpos ⊢
  have hd : d < pageSize := by omega
  rw [Nat.mul_comm k, Nat.mul_add_mod, Nat.mod_eq_of_lt hd, List.drop_take, List.drop_drop]
  congr 1
  omega

theorem textFrom_eq_nil {pos : Nat} (h : src.endPos ≤ pos) : src.textFrom pos = [] :=
  List.drop_eq_nil_of_le (by rw [List.length_take]; omega)

/-- The bytes of the range behind a position, as the file has them. -/
theorem textFrom_eq (src : PagedLineSource) (pos : Nat) :
    src.textFrom pos = (src.content.drop pos).take (src.endPos - pos) := List.drop_take

/-- The next bytes of the range, and what follows them in it. -/
theorem textFrom_split (src : PagedLineSource) (pos n : Nat) :
    src.textFrom pos = ((src.content.drop pos).take n).take (src.endPos - pos) ++
      src.textFrom (pos + n) := by
  have hsplit := List.take_append_drop n (src.textFrom pos)
  have hrest : (src.textFrom pos).drop n = src.textFrom (pos + n) := List.drop_drop
  rw [hrest, textFrom_eq src pos, List.take_take, Nat.min_comm, ← List.take_take] at hsplit
  rw [textFrom_eq src pos]
  exact hsplit.symm

/-- Bytes without a newline, at a position in the range, and what follows them in the range. -/
theorem pieces_textFrom_of_not_mem {pos n : Nat} {xs : Bytes}
    (h : newline ∉ (src.content.drop pos).take n) (hxs : newline ∉ xs) :
    pieces newline (xs ++ src.textFrom pos) =
      pieces newline (xs ++ (src.content.drop pos).take n ++ src.textFrom (pos + n)) := by
  rw [textFrom_split src pos n]
  rcases Nat.le_total (pos + n) src.endPos with hle | hle
  · have hall : ((src.content.drop pos).take n).length ≤ src.endPos - pos := by
      rw [List.length_take]
      omega
    rw [List.take_of_length_le hall, List.append_assoc]
  · -- the bytes go beyond the range, which has no newline behind the position
    have hnone : newline ∉ ((src.content.drop pos).take n).take (src.endPos - pos) :=
      fun hmem => h (List.mem_of_mem_take hmem)
    rw [textFrom_eq_nil hle, List.append_nil, List.append_nil,
      Flow.pieces_of_not_mem (List.not_mem_append hxs hnone),
      Flow.pieces_of_not_mem (List.not_mem_append hxs h)]

/-- The first newline among some bytes at a position, if it is in the range. -/
theorem pieces_textFrom_of_idxOf? {pos n i : Nat} {xs : Bytes} (hxs : newline ∉ xs)
    (h : ((src.content.drop pos).take n).idxOf? newline = some i) (hi : pos + i + 1 ≤ src.endPos) :
    pieces newline (xs ++ src.textFrom pos) =
      (xs ++ ((src.content.drop pos).take n).take i) ::
        pieces newline (src.textFrom (pos + i + 1)) := by
  have hfirst := Flow.pieces_of_idxOf? hxs (Flow.idxOf?_take h (m := src.endPos - pos) (by omega))
    (src.textFrom (pos + n))
  rw [← textFrom_split, List.take_take, Nat.min_eq_left (by omega)] at hfirst
  rw [hfirst, textFrom, List.drop_drop]
  rfl

/-- The first newline is not behind another one. -/
theorem idxOf?_le_newline {pos n i before : Nat}
    (h : ((src.content.drop pos).take n).idxOf? newline = some i) (hpos : pos ≤ before)
    (hbefore : src.content[before]? = some newline) : pos + i ≤ before := by
  obtain ⟨-, hnone, hi⟩ := Flow.idxOf?_eq_some h
  refine Nat.le_of_not_lt fun hlt => hnone ?_
  refine List.mem_of_getElem? (i := before - pos) ?_
  rw [List.length_take, List.length_drop] at hi
  rw [List.take_take, List.getElem?_take, if_pos (by omega), List.getElem?_drop,
    Nat.add_sub_cancel' hpos]
  exact hbefore

/-- What the loop over the lines finds with some fuel, from any position in any page on. -/
def FindsFrom (src : PagedLineSource) (fuel : Nat) : Prop :=
  ∀ k pos, k * src.pageSize ≤ pos → pos < (k + 1) * src.pageSize → src.endPos - pos < fuel →
    Finds (src.linesFrom fuel k ((src.content.drop (k * src.pageSize)).take src.pageSize) pos)
      (src.textFrom pos)

/-- What the loop over the pages of a line finds, with the beginning of the line. -/
def FindsAcross (src : PagedLineSource) (fuel : Nat) : Prop :=
  ∀ k line, newline ∉ line → src.endPos - (k + 1) * src.pageSize < fuel →
    Finds (src.lineAcross fuel k line) (line ++ src.textFrom ((k + 1) * src.pageSize))

theorem findsFrom_succ (hend : src.EndsLine) (hsize : 0 < src.pageSize) {fuel : Nat}
    (hfrom : src.FindsFrom fuel) (hacross : src.FindsAcross fuel) : src.FindsFrom (fuel + 1) := by
  intro k pos hk hpos hfuel
  have hlength := hend.le_length
  rw [linesFrom]
  split
  next hlt =>
    dsimp only
    rw [page_data hk hpos]
    split
    next hnone =>
      have hmem := Flow.idxOf?_eq_none hnone
      have hpieces := pieces_textFrom_of_not_mem hmem List.not_mem_nil
      rw [List.nil_append, List.nil_append, Nat.add_sub_cancel' (Nat.le_of_lt hpos)] at hpieces
      exact (hacross k _ hmem (by omega)).congr hpieces
    next i hsome =>
      have hi := (Flow.idxOf?_eq_some hsome).2.2
      rw [List.length_take, List.length_drop] at hi
      split
      next hbeyond =>
        -- the newline is behind the range
        refine finds_nil fun hmem => (Flow.idxOf?_eq_some hsome).2.1 ?_
        rw [List.take_take]
        rw [textFrom_eq] at hmem
        exact List.take_subset_take_left _ (by omega) hmem
      next hinside =>
        have hpieces := pieces_textFrom_of_idxOf? List.not_mem_nil hsome (by omega)
        rw [List.nil_append, List.nil_append] at hpieces
        split
        next hlast =>
          rw [List.length_take, List.length_drop] at hlast
          split
          next hincluded =>
            rw [pageIncluded_iff] at hincluded
            rw [page_ok (by omega), ok_bind]
            exact (hfrom (k + 1) (pos + i + 1) (by omega)
              (by rw [Nat.add_mul (k + 1)]; omega) (by omega)).cons hpieces
          next hexcluded =>
            -- the last line of the range ends with its last page
            rw [pageIncluded_iff] at hexcluded
            refine finds_single ?_
            rw [hpieces, textFrom_eq_nil (by omega), Flow.pieces_nil]
        next hinner =>
          rw [List.length_take, List.length_drop] at hinner
          exact (hfrom k (pos + i + 1) (by omega) (by omega) (by omega)).cons hpieces
  next hdone =>
    rw [textFrom_eq_nil (by omega)]
    exact finds_nil List.not_mem_nil

theorem findsAcross_succ (hend : src.EndsLine) (hsize : 0 < src.pageSize) {fuel : Nat}
    (hfrom : src.FindsFrom fuel) (hacross : src.FindsAcross fuel) :
    src.FindsAcross (fuel + 1) := by
  intro k line hline hfuel
  have hlength := hend.le_length
  have hsucc : (k + 1 + 1) * src.pageSize = (k + 1) * src.pageSize + src.pageSize := by
    rw [Nat.add_mul (k + 1), Nat.one_mul]
  rw [lineAcross]
  split
  next hincluded =>
    rw [pageIncluded_iff] at hincluded
    rw [page_ok (by omega), ok_bind]
    split
    next hnone =>
      have hmem := Flow.idxOf?_eq_none hnone
      have hpieces := pieces_textFrom_of_not_mem hmem hline
      rw [← hsucc] at hpieces
      exact (hacross (k + 1) _ (List.not_mem_append hline hmem) (by omega)).congr hpieces
    next i hsome =>
      have hi := (Flow.idxOf?_eq_some hsome).2.2
      rw [List.length_take, List.length_drop] at hi
      -- the line ends in the range, which ends with a line
      have hinside : (k + 1) * src.pageSize + i + 1 ≤ src.endPos := by
        rcases hend.lineStart with hzero | hall | ⟨before, hbefore, hnewline⟩
        · omega
        · omega
        · have := idxOf?_le_newline hsome (by omega) hnewline
          omega
      have hpieces := pieces_textFrom_of_idxOf? hline hsome hinside
      split
      next hinner =>
        rw [List.length_take, List.length_drop] at hinner
        rw [Nat.mul_comm src.pageSize]
        exact (hfrom (k + 1) _ (by omega) (by omega) (by omega)).cons hpieces
      next hlast =>
        rw [List.length_take, List.length_drop] at hlast
        split
        next hincluded' =>
          rw [pageIncluded_iff] at hincluded'
          have hpos : src.pageSize * (k + 1 + 1) = (k + 1) * src.pageSize + i + 1 := by
            rw [Nat.mul_comm]
            omega
          rw [page_ok (by omega), ok_bind, hpos]
          exact (hfrom (k + 1 + 1) _ (by omega) (by rw [Nat.add_mul (k + 1 + 1)]; omega)
            (by omega)).cons hpieces
        next hexcluded =>
          rw [pageIncluded_iff] at hexcluded
          refine finds_single ?_
          rw [hpieces, textFrom_eq_nil (by omega), Flow.pieces_nil]
  next hexcluded =>
    rw [pageIncluded_iff] at hexcluded
    rw [textFrom_eq_nil (by omega), List.append_nil]
    exact finds_nil hline

/-- Both loops, by the fuel. -/
theorem loops_find (hend : src.EndsLine) (hsize : 0 < src.pageSize) (fuel : Nat) :
    src.FindsFrom fuel ∧ src.FindsAcross fuel := by
  induction fuel with
  | zero =>
      constructor
      · exact fun _ _ _ _ h => absurd h (Nat.not_lt_zero _)
      · exact fun _ _ _ h => absurd h (Nat.not_lt_zero _)
  | succ fuel ih =>
      exact ⟨findsFrom_succ hend hsize ih.1 ih.2, findsAcross_succ hend hsize ih.1 ih.2⟩

/-- **The paged source finds the lines of its range**, whatever the page size. -/
theorem lines_find_range (hend : src.EndsLine) (hsize : 0 < src.pageSize) :
    Finds src.lines (src.textFrom src.beginPos) := by
  have hlength := hend.le_length
  rw [lines]
  split
  next hempty =>
    rw [textFrom_eq_nil hempty]
    exact finds_nil List.not_mem_nil
  next hcontent =>
    have hfirst : src.beginPos / src.pageSize * src.pageSize ≤ src.beginPos := Nat.div_mul_le_self _ _
    have hnext : src.beginPos < (src.beginPos / src.pageSize + 1) * src.pageSize := by
      rw [Nat.mul_comm]
      exact Nat.lt_mul_div_succ _ hsize
    dsimp only
    rw [page_ok (by omega), ok_bind]
    exact (loops_find hend hsize _).1 _ _ hfirst hnext (by omega)

/-- **The paged source finds the lines of its file**, whatever the page size. -/
theorem lines_find {pageSize : Nat} {content : Bytes} (hsize : 0 < pageSize) :
    Finds (whole pageSize content).lines content := by
  have hall : (whole pageSize content).textFrom 0 = content := List.take_length
  have hfind := @lines_find_range (whole pageSize content) ⟨Nat.le_refl _, .inr (.inl rfl)⟩ hsize
  rwa [show (whole pageSize content).beginPos = 0 from rfl, hall] at hfind

end Pages

end PagedLineSource

/-! ### Chunks -/

/-- `while (begin < data.size())`, with the beginning of a line in `partial`. -/
def chunkLines (chunk : Bytes) (start : Nat) (partialLine : Option Bytes) :
    List PinnedString × Option Bytes :=
  if start < chunk.length then
    match _h : (chunk.drop start).idxOf? newline with
    | none => ([], some (partialLine.getD [] ++ chunk.drop start))
    | some i =>
      let (lines, rest) := chunkLines chunk (start + i + 1) none
      match partialLine with
      | some line => (⟨line ++ (chunk.drop start).take i, []⟩ :: lines, rest)
      | none => (⟨(chunk.drop start).take i, (chunk.drop start).drop i⟩ :: lines, rest)
  else ([], partialLine)
termination_by chunk.length - start

/-- `StreamLineSource::lines`, on what `read` gives until it gives nothing. -/
def streamLines (partialLine : Option Bytes) : List Bytes → List PinnedString
  | [] =>
    match partialLine with
    | some line => if line.isEmpty then [] else [⟨line, []⟩]
    | none => []
  | chunk :: chunks =>
    let (lines, rest) := chunkLines chunk 0 partialLine
    lines ++ streamLines rest chunks

/-- What is left of a line behind a chunk. -/
def Leaves (partialLine : Option Bytes) (line : Bytes) : Prop :=
  partialLine.getD [] = line ∧ newline ∉ line

theorem leaves_none : Leaves none [] := ⟨rfl, List.not_mem_nil⟩

/-- A newline in a chunk ends the line that has been begun. -/
theorem leaves_found {partialLine : Option Bytes} {line : Bytes} (h : Leaves partialLine line)
    {chunk : Bytes} {start i : Nat} (hsome : (chunk.drop start).idxOf? newline = some i) :
    pieces newline (line ++ chunk.drop start) =
        (line ++ (chunk.drop start).take i) :: pieces newline (chunk.drop (start + i + 1)) ∧
      lastPiece newline (line ++ chunk.drop start) =
        lastPiece newline (chunk.drop (start + i + 1)) := by
  have hpieces := Flow.pieces_of_idxOf? h.2 hsome []
  have hlast := Flow.lastPiece_of_idxOf? h.2 hsome []
  rw [List.append_nil, List.drop_drop] at hpieces hlast
  exact ⟨hpieces, hlast⟩

/-- A chunk, with what has been read before of the first line. -/
theorem chunkLines_find (chunk : Bytes) (start : Nat) {partialLine : Option Bytes} {line : Bytes}
    (h : Leaves partialLine line) :
    (chunkLines chunk start partialLine).1.map PinnedString.view =
        pieces newline (line ++ chunk.drop start) ∧
      Leaves (chunkLines chunk start partialLine).2
        (lastPiece newline (line ++ chunk.drop start)) := by
  fun_induction chunkLines chunk start partialLine generalizing line with
  | case1 start partialLine hstart hnone =>
      have hmem : newline ∉ line ++ chunk.drop start :=
        List.not_mem_append h.2 (Flow.idxOf?_eq_none hnone)
      rw [Flow.pieces_of_not_mem hmem, Flow.lastPiece_of_not_mem hmem]
      exact ⟨rfl, congrArg (· ++ _) h.1, hmem⟩
  | case2 start hstart i hsome lines rest hrest line' ih =>
      obtain ⟨hpieces, hlast⟩ := leaves_found h hsome
      obtain ⟨hlines, hleaves⟩ := ih leaves_none
      rw [hrest, List.nil_append] at hlines hleaves
      rw [hpieces, hlast, List.map_cons, hlines, ← h.1]
      exact ⟨rfl, hleaves⟩
  | case3 start hstart i hsome lines rest hrest ih =>
      obtain ⟨hpieces, hlast⟩ := leaves_found h hsome
      obtain ⟨hlines, hleaves⟩ := ih leaves_none
      rw [hrest, List.nil_append] at hlines hleaves
      rw [hpieces, hlast, List.map_cons, hlines, ← h.1]
      exact ⟨rfl, hleaves⟩
  | case4 start partialLine hend =>
      rw [List.drop_eq_nil_of_le (by omega), List.append_nil, Flow.pieces_of_not_mem h.2,
        Flow.lastPiece_of_not_mem h.2]
      exact ⟨rfl, h⟩

/-- A text without the empty line. -/
def unlessEmpty (line : Bytes) : List Bytes := if line.isEmpty then [] else [line]

/-- **The stream finds the lines of what it reads**, whatever the chunks, and the text behind the last
newline. -/
theorem streamLines_find {chunks : List Bytes} {partialLine : Option Bytes} {line : Bytes}
    (h : Leaves partialLine line) :
    (streamLines partialLine chunks).map PinnedString.view =
      pieces newline (line ++ chunks.flatten) ++
        unlessEmpty (lastPiece newline (line ++ chunks.flatten)) := by
  induction chunks generalizing partialLine line with
  | nil =>
      rw [List.flatten_nil, List.append_nil, Flow.pieces_of_not_mem h.2,
        Flow.lastPiece_of_not_mem h.2, ← h.1]
      cases partialLine with
      | none => rfl
      | some line' =>
          show List.map _ (if line'.isEmpty then _ else _) = [] ++ unlessEmpty line'
          rw [unlessEmpty]
          split <;> rfl
  | cons chunk chunks ih =>
      obtain ⟨hlines, hleaves⟩ := chunkLines_find chunk 0 h
      rw [List.drop_zero] at hlines hleaves
      obtain ⟨-, hpieces, hlast⟩ :=
        @Flow.pieces_append_text _ _ newline (line ++ chunk) chunks.flatten
      rw [List.flatten_cons, ← List.append_assoc, hpieces, hlast, List.append_assoc, ← ih hleaves,
        ← hlines, ← List.map_append]
      rfl

/-- If the last line is ended, the lines are the pieces of the text. -/
theorem streamLines_terminated {chunks : List Bytes}
    (h : Flow.Terminated newline chunks.flatten) :
    (streamLines none chunks).map PinnedString.view = pieces newline chunks.flatten := by
  have hfind := @streamLines_find chunks _ _ leaves_none
  rw [List.nil_append, show lastPiece newline chunks.flatten = [] from h] at hfind
  rw [hfind]
  exact List.append_nil _

/-! ### Sources -/

/-- `CompressedSuffixes`. -/
def compressedSuffixes : List Bytes := [Bytes.ofString ".gz", Bytes.ofString ".gzip"]

/-- `isProbablyArchive`. -/
def isProbablyArchive (path : Bytes) : Bool :=
  compressedSuffixes.any fun suffix => suffix.isSuffixOf path

/-- `LineSource`: a file in pages, or what a stream reads. -/
inductive LineSource
  | paged (src : PagedLineSource)
  | stream (chunks : List Bytes)


namespace LineSource

/-- `LineSource::lines`. -/
def lines : LineSource → Except Fault (List PinnedString)
  | paged src => src.lines
  | stream chunks => pure (streamLines none chunks)

/-- What a source reads, from its beginning to its end. -/
def Reads (content : Bytes) : LineSource → Prop
  | paged src => ∃ pageSize, 0 < pageSize ∧ src = .whole pageSize content
  | stream chunks => chunks.flatten = content

/-- **Every source finds the same lines** in a content whose last line is ended. -/
theorem lines_find {source : LineSource} {content : Bytes} (h : source.Reads content)
    (hend : Flow.Terminated newline content) : PagedLineSource.Finds source.lines content := by
  cases source with
  | paged src =>
      obtain ⟨pageSize, hsize, rfl⟩ := h
      exact PagedLineSource.lines_find hsize
  | stream chunks =>
      obtain rfl : chunks.flatten = content := h
      exact ⟨streamLines none chunks, rfl, streamLines_terminated hend⟩

end LineSource

end Lsql.Storage
