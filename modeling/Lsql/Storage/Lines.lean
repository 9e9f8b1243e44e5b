import Lsql.Storage.LineSource

/-!
# Lsql.Storage.Lines

The lines of a file and of a stream, without the pages and the chunks.

A line of a file has the position of its first byte. A range takes the lines that start in it.
-/

namespace Lsql.Storage

open Flow (pieces lastPiece Terminated)

/-! ### The lines of a range -/

/-- Pieces with the positions at which they start, where the first starts at `pos`. -/
def positioned (pos : Nat) : List Bytes → List (Nat × Bytes)
  | [] => []
  | line :: lines => (pos, line) :: positioned (pos + line.length + 1) lines

/-- The lines of a content that start in a range. -/
def linesStartingIn (content : Bytes) (beginPos endPos : Nat) : List Bytes :=
  ((positioned 0 (pieces newline content)).filter
    fun line => decide (beginPos ≤ line.1) && decide (line.1 < endPos)).map Prod.snd

/-- The bytes of lines, with the newlines that end them. -/
def linesLength : List Bytes → Nat
  | [] => 0
  | line :: lines => line.length + 1 + linesLength lines

theorem positioned_append (pos : Nat) (lines lines' : List Bytes) :
    positioned pos (lines ++ lines') =
      positioned pos lines ++ positioned (pos + linesLength lines) lines' := by
  induction lines generalizing pos with
  | nil => rfl
  | cons line lines ih =>
      rw [List.cons_append, positioned, ih, positioned, linesLength, List.cons_append,
        Nat.add_assoc pos, Nat.add_assoc pos]

theorem map_positioned (pos : Nat) (lines : List Bytes) :
    (positioned pos lines).map Prod.snd = lines := by
  induction lines generalizing pos with
  | nil => rfl
  | cons line lines ih => exact congrArg (line :: ·) (ih _)

/-- The positions of lines are between the first one and the end of the last one. -/
theorem mem_positioned {pos : Nat} {lines : List Bytes} {p : Nat × Bytes}
    (h : p ∈ positioned pos lines) : pos ≤ p.1 ∧ p.1 < pos + linesLength lines := by
  induction lines generalizing pos with
  | nil => exact absurd h List.not_mem_nil
  | cons line lines ih =>
      rw [linesLength]
      rcases List.mem_cons.mp h with rfl | h
      · exact ⟨Nat.le_refl _, by omega⟩
      · have := ih h
        omega

/-- The bytes of the lines of a text are its bytes up to the last newline. -/
theorem sum_pieces (text : Bytes) :
    linesLength (pieces newline text) + (lastPiece newline text).length =
      text.length := by
  induction hlength : text.length using Nat.strongRecOn generalizing text with
  | _ n ih =>
      rcases Flow.first_piece newline text with htext | ⟨before, after, rfl, hbefore⟩
      · rw [Flow.pieces_of_not_mem htext, Flow.lastPiece_of_not_mem htext]
        rw [linesLength, Nat.zero_add, hlength]
      · rw [List.length_append, List.length_cons] at hlength
        rw [Flow.pieces_append hbefore, Flow.lastPiece_append hbefore, linesLength,
          Nat.add_assoc, ih after.length (by omega) after rfl]
        omega

namespace PagedLineSource

theorem LineStart.le_length {content : Bytes} {pos : Nat} (h : LineStart content pos) :
    pos ≤ content.length := by
  rcases h with rfl | rfl | ⟨before, rfl, hbefore⟩
  · exact Nat.zero_le _
  · exact Nat.le_refl _
  · exact (List.getElem?_eq_some_iff.mp hbefore).1

/-- In front of the start of a line, the last line is ended, or the content is at its end. -/
theorem LineStart.terminated {content : Bytes} {pos : Nat} (h : LineStart content pos) :
    Terminated newline (content.take pos) ∨ pos = content.length := by
  rcases h with rfl | rfl | ⟨before, rfl, hbefore⟩
  · exact .inl Flow.lastPiece_nil
  · exact .inr rfl
  · left
    rw [List.take_add_one, hbefore]
    exact Flow.terminated_concat _

/-- The lines that start in a range are the pieces of its text. -/
theorem linesStartingIn_eq {content : Bytes} {beginPos endPos : Nat}
    (hbegin : LineStart content beginPos) (hend : LineStart content endPos) :
    linesStartingIn content beginPos endPos = pieces newline ((content.take endPos).drop beginPos) := by
  have hlength := hend.le_length
  rcases Nat.lt_or_ge beginPos endPos with hlt | hle
  · have hbefore : Terminated newline (content.take beginPos) :=
      hbegin.terminated.resolve_right (by omega)
    have htake : content.take beginPos ++ (content.take endPos).drop beginPos =
        content.take endPos := by
      have hsplit := List.take_append_drop beginPos (content.take endPos)
      rwa [List.take_take, Nat.min_eq_left (Nat.le_of_lt hlt)] at hsplit
    have hcontent := List.take_append_drop endPos content
    rw [← htake, List.append_assoc] at hcontent
    have hsum := sum_pieces (content.take beginPos)
    rw [show lastPiece newline (content.take beginPos) = [] from hbefore, List.length_nil,
      Nat.add_zero, List.length_take, Nat.min_eq_left (by omega)] at hsum
    have hbytes := sum_pieces ((content.take endPos).drop beginPos)
    rw [List.length_drop, List.length_take, Nat.min_eq_left hlength] at hbytes
    have hafter := (hbefore.append ((content.take endPos).drop beginPos)).2
    rw [htake] at hafter
    -- the lines behind the range start behind it
    have hrest : pieces newline ((content.take endPos).drop beginPos ++ content.drop endPos) =
          pieces newline ((content.take endPos).drop beginPos) ++
            pieces newline (content.drop endPos) ∧
        ∀ p ∈ positioned (beginPos +
            linesLength (pieces newline ((content.take endPos).drop beginPos)))
              (pieces newline (content.drop endPos)), endPos ≤ p.1 := by
      rcases hend.terminated with hterminated | hfile
      · have hinside : Terminated newline ((content.take endPos).drop beginPos) :=
          hafter.symm.trans hterminated
        refine ⟨(hinside.append _).1, fun p hp => ?_⟩
        rw [show lastPiece newline ((content.take endPos).drop beginPos) = [] from hinside,
          List.length_nil] at hbytes
        have := (mem_positioned hp).1
        omega
      · rw [List.drop_eq_nil_of_le (Nat.le_of_eq hfile.symm), List.append_nil, Flow.pieces_nil,
          List.append_nil]
        exact ⟨rfl, fun _ hp => absurd hp List.not_mem_nil⟩
    have hpieces : pieces newline content = pieces newline (content.take beginPos) ++
        (pieces newline ((content.take endPos).drop beginPos) ++
          pieces newline (content.drop endPos)) := by
      rw [← hrest.1, ← (hbefore.append _).1, hcontent]
    rw [linesStartingIn, hpieces, positioned_append, positioned_append, List.filter_append, List.filter_append, Nat.zero_add, hsum]
    have hbeforeNone : (positioned 0 (pieces newline (content.take beginPos))).filter
        (fun line => decide (beginPos ≤ line.1) && decide (line.1 < endPos)) = [] := by
      refine List.filter_eq_nil_iff.mpr fun p hp => ?_
      have := (mem_positioned hp).2
      rw [Bool.and_eq_true, decide_eq_true_iff, decide_eq_true_iff]
      omega
    have hinsideAll : (positioned beginPos (pieces newline ((content.take endPos).drop beginPos))).filter
        (fun line => decide (beginPos ≤ line.1) && decide (line.1 < endPos)) =
          positioned beginPos (pieces newline ((content.take endPos).drop beginPos)) := by
      refine List.filter_eq_self.mpr fun p hp => ?_
      have := mem_positioned hp
      rw [Bool.and_eq_true, decide_eq_true_iff, decide_eq_true_iff]
      omega
    have hafterNone : (positioned (beginPos +
        linesLength (pieces newline ((content.take endPos).drop beginPos)))
          (pieces newline (content.drop endPos))).filter
        (fun line => decide (beginPos ≤ line.1) && decide (line.1 < endPos)) = [] := by
      refine List.filter_eq_nil_iff.mpr fun p hp => ?_
      have := hrest.2 p hp
      rw [Bool.and_eq_true, decide_eq_true_iff, decide_eq_true_iff]
      omega
    rw [hbeforeNone, hinsideAll, hafterNone, List.nil_append, List.append_nil, map_positioned]
  · have hempty : (content.take endPos).drop beginPos = [] :=
      List.drop_eq_nil_of_le (by rw [List.length_take]; omega)
    rw [hempty, Flow.pieces_nil, linesStartingIn, List.filter_eq_nil_iff.mpr, List.map_nil]
    intro p _
    rw [Bool.and_eq_true, decide_eq_true_iff, decide_eq_true_iff]
    omega

/-- **The paged source yields the lines that start in its range**, whatever the page size. -/
theorem lines_range {pageSize : Nat} (hsize : 0 < pageSize) {content : Bytes}
    {beginPos endPos : Nat} (hbegin : LineStart content beginPos) (hend : LineStart content endPos) :
    ∃ lines, (PagedLineSource.mk pageSize content beginPos endPos).lines = .ok lines ∧
      lines.map PinnedString.view = linesStartingIn content beginPos endPos := by
  obtain ⟨lines, hlines, hviews⟩ := @lines_find_range ⟨pageSize, content, beginPos, endPos⟩
    ⟨hend.le_length, hend⟩ hsize
  refine ⟨lines, hlines, ?_⟩
  rw [hviews, linesStartingIn_eq hbegin hend]
  rfl

/-- Pages of two bytes, with a line over three of them and an empty line. -/
theorem lines_range_twoBytes :
    ∃ lines, (PagedLineSource.mk 2 (Bytes.ofString "ab\n\ncdefg\nh") 3 10).lines = .ok lines ∧
      lines.map PinnedString.view = linesStartingIn (Bytes.ofString "ab\n\ncdefg\nh") 3 10 :=
  lines_range (by decide) (.inr (.inr ⟨2, rfl, by decide⟩)) (.inr (.inr ⟨9, rfl, by decide⟩))

end PagedLineSource

/-! ### The lines of a stream -/

/-- `StreamLineSource::lines`, on what `read` returns call after call; reading nothing is the end of
the stream. -/
def linesOfReads (reads : List Bytes) : List PinnedString :=
  streamLines none (reads.takeWhile fun chunk => !chunk.isEmpty)

/-- **The stream yields the same lines**, however the reads cut its bytes, and no read behind the end
of the stream matters. -/
theorem linesOfReads_eq {chunks : List Bytes} (h : ∀ chunk ∈ chunks, chunk ≠ [])
    (later : List Bytes) :
    (linesOfReads (chunks ++ [] :: later)).map PinnedString.view =
      pieces newline chunks.flatten ++ unlessEmpty (lastPiece newline chunks.flatten) := by
  have hread : (chunks ++ [] :: later).takeWhile (fun chunk => !chunk.isEmpty) = chunks := by
    rw [List.takeWhile_append_of_pos fun chunk hchunk => ?_]
    · exact List.append_nil chunks
    · rw [Bool.not_eq_true', List.isEmpty_eq_false_iff]
      exact h chunk hchunk
  have hfind := @streamLines_find chunks _ _ leaves_none
  rw [List.nil_append] at hfind
  rw [linesOfReads, hread, hfind]

/-- A line in two chunks, an empty line, and a line that is not ended. -/
theorem linesOfReads_twoChunks :
    (linesOfReads ([Bytes.ofString "a", Bytes.ofString "b\n\nc"] ++ [] :: [])).map
        PinnedString.view =
      pieces newline [Bytes.ofString "a", Bytes.ofString "b\n\nc"].flatten ++
        unlessEmpty (lastPiece newline [Bytes.ofString "a", Bytes.ofString "b\n\nc"].flatten) :=
  linesOfReads_eq (by decide) []

end Lsql.Storage
