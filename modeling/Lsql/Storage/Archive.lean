import Mathlib.Algebra.Ring.Nat
import Mathlib.Data.List.Basic
import Lsql.Core.Fault
import Lsql.Core.Value

/-!
# Lsql.Storage.Archive

The stream of a compressed file (`back/storage/Archive.cpp`).

The stream hands chunks of the file to zlib's `inflate` and the reader's buffer for the output. It ends
at the first `Z_STREAM_END`, wherever the file goes on behind it: a gzip file of one member is read as
its content, and one that is cut inside of its first member is reported; the members behind the first
are never looked at.

zlib is a parameter, an `Inflater`. What it is taken to do with a member is `Inflates`.
-/

namespace Lsql.Storage

/-! ### zlib -/

/-- What `inflate` returns. -/
inductive ZStatus
  /-- `Z_OK`. -/
  | ok
  /-- `Z_STREAM_END`. -/
  | streamEnd
  /-- `Z_BUF_ERROR`. -/
  | bufError
  /-- Another code. -/
  | failed (code : Int)
  deriving DecidableEq, Repr

/-- What a call of `inflate` does: the bytes that it takes of its input, those that it puts out, and
what it returns. -/
structure Inflated (σ : Type) where
  state : σ
  used : Nat
  out : Bytes
  status : ZStatus

/-- zlib: the state after `inflateInit2`, and `inflate`, of the state, whether `flush` is `Z_FINISH`,
`avail_in` bytes of input and `avail_out`. -/
structure Inflater (σ : Type) where
  init : σ
  inflate : σ → Bool → Bytes → Nat → Inflated σ

/-- A call in the midst of a member: `taken` bytes of it have been taken, and `given` bytes of its
content put out. -/
structure InflatesStep {σ : Type} (member content : Bytes) (At : Nat → Nat → σ → Prop)
    (taken given : Nat) (input : Bytes) (avail : Nat) (call : Inflated σ) : Prop where
  used : call.used ≤ input.length ∧ taken + call.used ≤ member.length
  out : call.out.length ≤ avail ∧ call.out <+: content.drop given
  status : call.status = .streamEnd ∨ call.status = .ok ∨ call.status = .bufError
  /-- `Z_STREAM_END` is returned at the end of the member. -/
  atEnd : call.status = .streamEnd ↔ taken + call.used = member.length
  /-- Then the content has been put out. -/
  complete : call.status = .streamEnd → given + call.out.length = content.length
  /-- Before it, `inflate` stops when the input is empty or the output full. -/
  stops : call.status ≠ .streamEnd → call.used = input.length ∨ call.out.length = avail
  next : call.status ≠ .streamEnd → At (taken + call.used) (given + call.out.length) call.state

/-- **zlib's contract**, for a member and its content: the states `At` are those in which so many bytes
of the member have been taken, and so many of its content put out. -/
structure Inflates {σ : Type} (z : Inflater σ) (member content : Bytes)
    (At : Nat → Nat → σ → Prop) : Prop where
  init : At 0 0 z.init
  step {taken given : Nat} {state : σ} (h : At taken given state) (finish : Bool) {input : Bytes}
    {avail : Nat} (havail : 0 < avail)
    (hinput : input <+: member.drop taken ∨ member.drop taken <+: input) :
    InflatesStep member content At taken given input avail (z.inflate state finish input avail)

/-! ### The file -/

/-- A `File`: its bytes, and how many of the bytes that it is asked for `pread` gives. -/
structure File where
  bytes : Bytes
  preadSize : Nat → Nat → Nat
  preadSize_le : ∀ offset count, preadSize offset count ≤ count
  /-- `pread` gives no byte only at the end of the file. -/
  preadSize_pos : ∀ offset count, 0 < count → offset + count ≤ bytes.length →
    0 < preadSize offset count

/-- `file_->read`. -/
def File.read (file : File) (offset count : Nat) : Except Fault Bytes := do
  verify (decide (offset < file.bytes.length)) "verify(offset < size()) failed "
  pure ((file.bytes.drop offset).take (file.preadSize offset count))

/-- A file that is read as far as it is asked for. -/
def File.whole (bytes : Bytes) : File where
  bytes := bytes
  preadSize _ count := count
  preadSize_le _ _ := Nat.le_refl _
  preadSize_pos _ _ h _ := h

/-! ### The stream -/

/-- `static_cast<uInt>(n)`. -/
def uInt (n : Nat) : Nat := n % 2 ^ 32

theorem uInt_of_lt {n : Nat} (h : n < 2 ^ 32) : uInt n = n := Nat.mod_eq_of_lt h

/-- `NativeArchiveStream`; `input` is what `next_in` and `avail_in` hold. -/
structure NativeArchiveStream (σ : Type) where
  file : File
  inbufSize : Nat
  compressedEof : Bool
  decompressedEof : Bool
  compressedOffset : Nat
  state : σ
  input : Bytes

namespace NativeArchiveStream

variable {σ : Type} (z : Inflater σ)

/-- The constructor. -/
def start (file : File) (inbufSize : Nat) : NativeArchiveStream σ :=
  ⟨file, inbufSize, false, false, 0, z.init, []⟩

/-- `if (strm.avail_in == 0 && !compressed_eof_)`: the next chunk of the file. -/
def refill (s : NativeArchiveStream σ) : Except Fault (NativeArchiveStream σ) :=
  if s.input.isEmpty && !s.compressedEof then
    let remaining := s.file.bytes.length - s.compressedOffset
    let toRead := Nat.min s.inbufSize remaining
    if toRead = 0 then .ok { s with compressedEof := true }
    else do
      let data ← s.file.read s.compressedOffset toRead
      if data.isEmpty then pure { s with compressedEof := true }
      else
        pure { s with
          compressedOffset := s.compressedOffset + data.length
          input := data.take (uInt data.length) }
  else .ok s

/-- The loop needs more rounds than it has been given. -/
def outOfFuel : Fault := .undefined "the stream does not end"

/-- `while (strm.avail_out > 0 && !decompressed_eof_)`, with `avail_out` and the bytes that have been
put out. -/
def readLoop : Nat → NativeArchiveStream σ → Nat → Bytes →
    Except Fault (NativeArchiveStream σ × Nat × Bytes)
  | 0, _, _, _ => .error outOfFuel
  | fuel + 1, s, avail, out =>
    if 0 < avail && !s.decompressedEof then do
      let s ← s.refill
      let call := z.inflate s.state s.compressedEof s.input avail
      let s := { s with state := call.state, input := s.input.drop call.used }
      let avail := avail - call.out.length
      let out := out ++ call.out
      match call.status with
      | .streamEnd => pure ({ s with decompressedEof := true }, avail, out)
      | .bufError => do
        require (!s.compressedEof) "truncated compressed stream"
        readLoop fuel s avail out
      | .failed code => .error (.exception ("inflate failed: " ++ toString code))
      | .ok => do
        require (decide (0 < s.input.length) || !s.compressedEof) "truncated compressed stream"
        readLoop fuel s avail out
    else pure (s, avail, out)

/-- A request: `max_count`, and the size of `dest`. -/
structure Request where
  maxCount : Nat
  destSize : Nat
  deriving DecidableEq

/-- How many bytes a request is for. -/
def Request.size (request : Request) : Nat := Nat.min request.maxCount request.destSize

/-- The answer to a request: what `read` returns, and the bytes that it has put into `dest`. -/
structure Answer where
  count : Nat
  bytes : Bytes
  deriving DecidableEq

/-- `read`. A round of the loop takes a byte of the file or puts one out. -/
def read (s : NativeArchiveStream σ) (request : Request) :
    Except Fault (NativeArchiveStream σ × Answer) :=
  if s.decompressedEof then .ok (s, ⟨0, []⟩)
  else
    let maxCount := request.size
    if maxCount = 0 then .ok (s, ⟨0, []⟩)
    else do
      let fuel := s.input.length + (s.file.bytes.length - s.compressedOffset) + maxCount + 1
      let (s, avail, out) ← readLoop z fuel s (uInt maxCount) []
      pure (s, ⟨maxCount - avail, out⟩)

/-- Reads, one after the other. -/
def reads (s : NativeArchiveStream σ) : List Request →
    Except Fault (NativeArchiveStream σ × List Answer)
  | [] => .ok (s, [])
  | request :: requests => do
    let (s, answer) ← read z s request
    let (s, answers) ← reads s requests
    pure (s, answer :: answers)

/-! ### Inside of a member -/

/-- What begins another text does so behind any number of its bytes. -/
theorem drop_isPrefix {xs ys : Bytes} (h : xs <+: ys) (n : Nat) : xs.drop n <+: ys.drop n := by
  obtain ⟨rest, rfl⟩ := h
  exact ⟨_, List.drop_append.symm⟩

variable {z} {member content : Bytes} {At : Nat → Nat → σ → Prop}

/-- The stream is inside of the member that the file begins with, or that it is the beginning of. -/
structure Inside (member : Bytes) (At : Nat → Nat → σ → Prop) (taken given : Nat)
    (s : NativeArchiveStream σ) : Prop where
  notEnded : s.decompressedEof = false
  file : member <+: s.file.bytes ∨ s.file.bytes <+: member
  offset : taken ≤ s.compressedOffset ∧ s.compressedOffset ≤ s.file.bytes.length
  input : s.input = (s.file.bytes.take s.compressedOffset).drop taken
  eof : s.compressedEof = true → s.compressedOffset = s.file.bytes.length ∧ s.input = []
  state : At taken given s.state

/-- The chunks fit the counter of zlib. -/
structure Chunked (s : NativeArchiveStream σ) : Prop where
  pos : 0 < s.inbufSize
  fits : Nat.min s.inbufSize s.file.bytes.length < 2 ^ 32

namespace Inside

variable {taken given : Nat} {s : NativeArchiveStream σ}

theorem length_input (h : Inside member At taken given s) :
    s.input.length = s.compressedOffset - taken := by
  rw [h.input, List.length_drop, List.length_take, Nat.min_eq_left h.offset.2]

/-- The input goes on as the member does. -/
theorem input_member (h : Inside member At taken given s) :
    s.input <+: member.drop taken ∨ member.drop taken <+: s.input := by
  have hinput : s.input <+: s.file.bytes.drop taken := by
    rw [h.input]
    exact drop_isPrefix (List.take_prefix _ _) taken
  rcases h.file with hmember | hmember
  · exact List.prefix_or_prefix_of_prefix hinput (drop_isPrefix hmember taken)
  · exact .inl (hinput.trans (drop_isPrefix hmember taken))

/-- What the file gives of a chunk. -/
theorem file_read (h : Inside member At taken given s) {toRead : Nat} (hpos : 0 < toRead)
    (hle : toRead ≤ s.file.bytes.length - s.compressedOffset) :
    ∃ data, s.file.read s.compressedOffset toRead = .ok data ∧ data ≠ [] ∧ data.length ≤ toRead ∧
      data = (s.file.bytes.drop s.compressedOffset).take data.length := by
  have hoffset := h.offset.2
  have hsize := s.file.preadSize_le s.compressedOffset toRead
  have hsizePos := s.file.preadSize_pos s.compressedOffset toRead hpos (by omega)
  have hlength : ((s.file.bytes.drop s.compressedOffset).take
      (s.file.preadSize s.compressedOffset toRead)).length =
        s.file.preadSize s.compressedOffset toRead := by
    rw [List.length_take, List.length_drop, Nat.min_eq_left (by omega)]
  refine ⟨(s.file.bytes.drop s.compressedOffset).take
    (s.file.preadSize s.compressedOffset toRead), ?_, ?_, ?_, ?_⟩
  · rw [File.read, decide_eq_true (by omega), verify_true, ok_bind]
    rfl
  · intro hnil
    rw [hnil, List.length_nil] at hlength
    omega
  · rw [hlength]
    exact hsize
  · rw [hlength]

/-- The next chunk: afterwards there is input, or the file is at its end. -/
theorem refill (h : Inside member At taken given s) (hchunk : Chunked s) :
    ∃ s', s.refill = .ok s' ∧ Inside member At taken given s' ∧ Chunked s' ∧ s'.file = s.file ∧
      (s'.compressedEof = true ∨ s'.input ≠ []) := by
  rw [NativeArchiveStream.refill]
  cases hempty : s.input.isEmpty with
  | false =>
      refine ⟨s, rfl, h, hchunk, rfl, .inr ?_⟩
      intro hnil
      rw [hnil] at hempty
      cases hempty
  | true =>
      have hnil := List.isEmpty_iff.mp hempty
      have htaken : taken = s.compressedOffset := by
        have hlength := h.length_input
        rw [hnil, List.length_nil] at hlength
        have := h.offset.1
        omega
      cases heof : s.compressedEof with
      | true => exact ⟨s, rfl, h, hchunk, rfl, .inl heof⟩
      | false =>
          have hpos := hchunk.pos
          have hfits := hchunk.fits
          by_cases hzero : Nat.min s.inbufSize (s.file.bytes.length - s.compressedOffset) = 0
          · -- nothing is left of the file
            have hend : s.compressedOffset = s.file.bytes.length := by
              have := h.offset.2
              rcases Nat.min_eq_zero_iff.mp hzero with hsize | hrest
              · omega
              · omega
            refine ⟨{ s with compressedEof := true }, ?_, ?_, ?_, rfl, .inl rfl⟩
            · simp only [Bool.not_false, Bool.and_self, if_true, if_pos hzero]
            · exact ⟨h.notEnded, h.file, h.offset, h.input, fun _ => ⟨hend, hnil⟩, h.state⟩
            · exact ⟨hpos, hfits⟩
          · obtain ⟨data, hread, hne, hle, hdata⟩ :=
              h.file_read (Nat.pos_of_ne_zero hzero) (Nat.min_le_right _ _)
            have hrest : data.length ≤ s.file.bytes.length - s.compressedOffset :=
              Nat.le_trans hle (Nat.min_le_right _ _)
            have hoffset := h.offset.2
            have hlength := List.length_pos_of_ne_nil hne
            have hlt : data.length < 2 ^ 32 := by
              refine Nat.lt_of_le_of_lt (Nat.le_min.mpr ⟨?_, ?_⟩) hfits
              · exact Nat.le_trans hle (Nat.min_le_left _ _)
              · omega
            have hend : s.compressedOffset + data.length ≤ s.file.bytes.length := by omega
            refine ⟨{ s with
              compressedEof := false
              compressedOffset := s.compressedOffset + data.length
              input := data }, ?_, ?_, ?_, rfl, .inr hne⟩
            · simp only [Bool.not_false, Bool.and_self, if_true, if_neg hzero, hread, ok_bind]
              rw [if_neg (by simpa using hne), uInt_of_lt hlt, List.take_length]
              rfl
            · refine ⟨h.notEnded, h.file, ?_, ?_, ?_, h.state⟩
              · exact ⟨Nat.le_trans h.offset.1 (Nat.le_add_right _ _), hend⟩
              · have hchunk : data = (s.file.bytes.drop s.compressedOffset).take
                    (s.compressedOffset + data.length - s.compressedOffset) := by
                  rwa [Nat.add_sub_cancel_left]
                rw [htaken, List.drop_take]
                exact hchunk
              · intro heof'
                cases heof'
            · exact ⟨hpos, hfits⟩

/-- What `inflate` leaves of the input, while the file is not at its end. -/
theorem inflated (h : Inside member At taken given s) (heof : s.compressedEof = false) {avail : Nat}
    {call : Inflated σ}
    (hcall : InflatesStep member content At taken given s.input avail call)
    (hstatus : call.status ≠ .streamEnd) :
    Inside member At (taken + call.used) (given + call.out.length)
      { s with state := call.state, input := s.input.drop call.used } := by
  have hused := hcall.used.1
  rw [h.length_input] at hused
  have htaken : taken + call.used ≤ s.compressedOffset := by
    have := h.offset.1
    omega
  refine ⟨h.notEnded, h.file, ⟨htaken, h.offset.2⟩, ?_, ?_, hcall.next hstatus⟩
  · rw [h.input, List.drop_drop]
  · intro heof'
    rw [heof] at heof'
    cases heof'

end Inside

/-- How the loop ends that starts inside of a member: the request is filled, the member has ended, or
the file has ended before it. -/
inductive LoopEnd (member content : Bytes) (At : Nat → Nat → σ → Prop) (file : File)
    (given avail : Nat) (out : Bytes) :
    Except Fault (NativeArchiveStream σ × Nat × Bytes) → Prop
  | full {s' : NativeArchiveStream σ} {taken' : Nat} {new : Bytes}
      (inside : Inside member At taken' (given + new.length) s') (chunked : Chunked s')
      (sameFile : s'.file = file) (read : new <+: content.drop given) (size : new.length = avail) :
      LoopEnd member content At file given avail out (.ok (s', 0, out ++ new))
  | ended {s' : NativeArchiveStream σ} {new : Bytes} (eof : s'.decompressedEof = true)
      (whole : member.length ≤ file.bytes.length) (read : new = content.drop given)
      (size : new.length ≤ avail) (complete : given + new.length = content.length)
      (sameFile : s'.file = file) :
      LoopEnd member content At file given avail out (.ok (s', avail - new.length, out ++ new))
  | truncated (short : file.bytes.length < member.length) :
      LoopEnd member content At file given avail out
        (.error (.exception "truncated compressed stream"))

/-- A round before the loop ends. -/
theorem LoopEnd.round {file : File} {given avail : Nat} {out first : Bytes}
    {x : Except Fault (NativeArchiveStream σ × Nat × Bytes)} (hread : first <+: content.drop given)
    (hsize : first.length ≤ avail)
    (h : LoopEnd member content At file (given + first.length) (avail - first.length) (out ++ first) x) :
    LoopEnd member content At file given avail out x := by
  obtain ⟨rest, hrest⟩ := hread
  have hdrop : content.drop (given + first.length) = rest := by
    rw [← List.drop_drop, ← hrest, List.drop_left]
  cases h with
  | @full s' taken' new inside chunked sameFile read size =>
      rw [List.append_assoc]
      have hinside : Inside member At taken' (given + (first ++ new).length) s' := by
        rw [List.length_append, ← Nat.add_assoc]
        exact inside
      refine .full hinside chunked sameFile ?_ ?_
      · rw [← hrest]
        rw [hdrop] at read
        exact (List.prefix_append_right_inj first).mpr read
      · rw [List.length_append, size]
        omega
  | @ended s' new eof whole read size complete sameFile =>
      rw [List.append_assoc, Nat.sub_sub, ← List.length_append]
      refine .ended eof whole ?_ ?_ ?_ sameFile
      · rw [read, hdrop, hrest]
      · rw [List.length_append]
        omega
      · rw [List.length_append, ← Nat.add_assoc]
        exact complete
  | truncated short => exact .truncated short

/-- **The loop**, inside of a member. -/
theorem readLoop_spec (hz : Inflates z member content At) (fuel : Nat) :
    ∀ {s : NativeArchiveStream σ} {taken given avail : Nat} (out : Bytes),
      Inside member At taken given s → Chunked s →
        s.file.bytes.length - taken + avail < fuel →
          LoopEnd member content At s.file given avail out (readLoop z fuel s avail out) := by
  induction fuel with
  | zero =>
      intro s taken given avail out _ _ hfuel
      omega
  | succ fuel ih =>
      intro s taken given avail out h hchunk hfuel
      rw [readLoop]
      by_cases havail : 0 < avail
      · obtain ⟨s₁, hrefill, h₁, hchunk₁, hfile, hready⟩ := h.refill hchunk
        have hcall := hz.step h₁.state s₁.compressedEof havail h₁.input_member
        rw [decide_eq_true havail, h.notEnded]
        simp only [Bool.not_false, Bool.and_self, if_true, hrefill, ok_bind]
        rw [← hfile] at hfuel ⊢
        generalize z.inflate s₁.state s₁.compressedEof s₁.input avail = call at hcall
        -- the loop goes on, or finds the end of the file in the midst of the member
        have hgoes (hstatus : call.status ≠ .streamEnd) :
            s₁.compressedEof = true ∧ s₁.file.bytes.length < member.length ∧
                s₁.input.drop call.used = [] ∨
              s₁.compressedEof = false ∧
                LoopEnd member content At s₁.file given avail out (readLoop z fuel
                  { s₁ with state := call.state, input := s₁.input.drop call.used }
                  (avail - call.out.length) (out ++ call.out)) := by
          have hused := hcall.used
          have hlength := h₁.length_input
          have hoffset := h₁.offset
          rcases Bool.eq_false_or_eq_true s₁.compressedEof with heof | heof
          · obtain ⟨hend, hnil⟩ := h₁.eof heof
            have hne := mt hcall.atEnd.mpr hstatus
            rw [hnil, List.length_nil] at hused hlength
            exact .inl ⟨heof, by omega, by rw [hnil, List.drop_nil]⟩
          · have hne : s₁.input ≠ [] := by
              rcases hready with htrue | hne
              · rw [heof] at htrue
                cases htrue
              · exact hne
            have hpos := List.length_pos_of_ne_nil hne
            have hprogress := hcall.stops hstatus
            have hout := hcall.out.1
            have hnext := h₁.inflated heof hcall hstatus
            have hfuel' : s₁.file.bytes.length - (taken + call.used) + (avail - call.out.length) <
                fuel := by
              omega
            exact .inr ⟨heof, .round hcall.out.2 hcall.out.1
              (ih _ hnext ⟨hchunk₁.pos, hchunk₁.fits⟩ hfuel')⟩
        rcases hcall.status with hstatus | hstatus | hstatus
        · simp only [hstatus]
          have hend := hcall.atEnd.mp hstatus
          have hcomplete := hcall.complete hstatus
          have hused := hcall.used.1
          have hlength := h₁.length_input
          have hoffset := h₁.offset
          refine .ended rfl (by omega) ?_ hcall.out.1 hcomplete rfl
          exact hcall.out.2.eq_of_length (by rw [List.length_drop]; omega)
        · have hgoes := hgoes (by rw [hstatus]; simp)
          simp only [hstatus]
          rcases hgoes with ⟨heof, hshort, hnil⟩ | ⟨heof, hend⟩
          · rw [heof, hnil]
            exact .truncated hshort
          · rw [heof] at hend ⊢
            simpa using hend
        · have hgoes := hgoes (by rw [hstatus]; simp)
          simp only [hstatus]
          rcases hgoes with ⟨heof, hshort, hnil⟩ | ⟨heof, hend⟩
          · rw [heof]
            exact .truncated hshort
          · rw [heof] at hend ⊢
            exact hend
      · have hzero : avail = 0 := by omega
        subst hzero
        have hfull : LoopEnd member content At s.file given 0 out (.ok (s, 0, out ++ [])) :=
          .full h hchunk rfl (List.nil_prefix) rfl
        rw [List.append_nil] at hfull
        exact hfull

/-! ### Requests -/

/-- Between two reads: the stream is inside of the member, or the member has ended. -/
inductive Stands (member content : Bytes) (At : Nat → Nat → σ → Prop) (given : Nat)
    (s : NativeArchiveStream σ) : Prop
  | inside {taken : Nat} (h : Inside member At taken given s) (hchunk : Chunked s)
  | ended (eof : s.decompressedEof = true) (whole : member.length ≤ s.file.bytes.length)
      (complete : given = content.length)

/-- The stream answers with the next bytes of the content, as many as there are and are asked for, and
with fewer only at the end of the member; or the file has ended inside of the member. -/
inductive ReadEnd (member content : Bytes) (At : Nat → Nat → σ → Prop) (file : File)
    (given size : Nat) : Except Fault (NativeArchiveStream σ × Answer) → Prop
  | answered {s' : NativeArchiveStream σ} {bytes : Bytes} (read : bytes = (content.drop given).take size)
      (stands : Stands member content At (given + bytes.length) s') (sameFile : s'.file = file)
      (filled : file.bytes.length < member.length → bytes.length = size) :
      ReadEnd member content At file given size (.ok (s', ⟨bytes.length, bytes⟩))
  | truncated (short : file.bytes.length < member.length) :
      ReadEnd member content At file given size
        (.error (.exception "truncated compressed stream"))

/-- The rounds that a request is given are enough. -/
theorem Inside.loop (hz : Inflates z member content At) {s : NativeArchiveStream σ}
    {taken given : Nat} (h : Inside member At taken given s) (hchunk : Chunked s) {avail size : Nat}
    (havail : avail ≤ size) :
    LoopEnd member content At s.file given avail [] (readLoop z
      (s.input.length + (s.file.bytes.length - s.compressedOffset) + size + 1) s avail []) := by
  have hlength := h.length_input
  have hoffset := h.offset
  exact readLoop_spec hz _ [] h hchunk (by omega)

/-- **A read.** -/
theorem read_spec (hz : Inflates z member content At) {s : NativeArchiveStream σ} {given : Nat}
    (h : Stands member content At given s) {request : Request} (hsize : request.size < 2 ^ 32) :
    ReadEnd member content At s.file given request.size (read z s request) := by
  rw [read]
  cases h with
  | ended eof whole complete =>
      rw [if_pos eof]
      have hnothing : ([] : Bytes) = (content.drop given).take request.size := by
        rw [complete, List.drop_length, List.take_nil]
      exact .answered hnothing (.ended eof whole complete) rfl (by omega)
  | @inside taken hin hchunk =>
      rw [hin.notEnded, if_neg Bool.false_ne_true]
      by_cases hzero : request.size = 0
      · simp only [hzero, if_true]
        have hnothing : ([] : Bytes) = (content.drop given).take 0 := List.take_zero.symm
        exact .answered hnothing (.inside hin hchunk) rfl (fun _ => rfl)
      · have hloop := hin.loop hz hchunk (Nat.le_refl request.size)
        simp only [if_neg hzero, uInt_of_lt hsize]
        generalize readLoop z _ s request.size [] = x at hloop
        cases hloop with
        | @full s' taken' new hin' hchunk' sameFile hread hfull =>
            have hnew : new = (content.drop given).take request.size := by
              rw [← hfull]
              exact List.prefix_iff_eq_take.mp hread
            have hanswer := ReadEnd.answered hnew (.inside hin' hchunk') sameFile fun _ => hfull
            rw [List.nil_append, ok_bind, Nat.sub_zero]
            rw [hfull] at hanswer
            exact hanswer
        | @ended s' new eof whole hread hle complete sameFile =>
            have hnew : new = (content.drop given).take request.size := by
              rw [← hread, List.take_of_length_le hle]
            have hwhole : member.length ≤ s'.file.bytes.length := by
              rw [sameFile]
              exact whole
            have hstands : Stands member content At (given + new.length) s' := .ended eof hwhole complete
            have hanswer := ReadEnd.answered hnew hstands sameFile fun hshort =>
              absurd hshort (Nat.not_lt.mpr whole)
            have hcount : request.size - (request.size - new.length) = new.length := by omega
            rw [List.nil_append, ok_bind, hcount]
            exact hanswer
        | truncated short => exact .truncated short

/-- All the bytes of some answers. -/
def given (answers : List Answer) : Bytes := answers.flatMap Answer.bytes

/-- How many bytes some requests are for. -/
def asked (requests : List Request) : Nat := (requests.map Request.size).sum

/-- The first bytes of a text, taken in two steps. -/
theorem take_add_take (xs : Bytes) (m n : Nat) :
    xs.take (m + n) = xs.take m ++ (xs.drop (xs.take m).length).take n := by
  rw [List.take_add, List.length_take]
  rcases Nat.le_total m xs.length with h | h
  · rw [Nat.min_eq_left h]
  · rw [Nat.min_eq_right h, List.drop_of_length_le h, List.drop_length]

/-- The answers to requests, one after the other. -/
inductive ReadsEnd (member content : Bytes) (At : Nat → Nat → σ → Prop) (file : File)
    (before size : Nat) : Except Fault (NativeArchiveStream σ × List Answer) → Prop
  | answered {s' : NativeArchiveStream σ} {answers : List Answer}
      (counts : ∀ answer ∈ answers, answer.count = answer.bytes.length)
      (read : given answers = (content.drop before).take size)
      (stands : Stands member content At (before + (given answers).length) s')
      (sameFile : s'.file = file)
      (filled : file.bytes.length < member.length → (given answers).length = size) :
      ReadsEnd member content At file before size (.ok (s', answers))
  | truncated (short : file.bytes.length < member.length) :
      ReadsEnd member content At file before size
        (.error (.exception "truncated compressed stream"))

/-- **A run of reads.** -/
theorem reads_spec (hz : Inflates z member content At) {requests : List Request}
    (hsizes : ∀ request ∈ requests, request.size < 2 ^ 32) :
    ∀ {s : NativeArchiveStream σ} {before : Nat}, Stands member content At before s →
      ReadsEnd member content At s.file before (asked requests) (reads z s requests) := by
  induction requests with
  | nil =>
      intro s before h
      have hnone : ∀ answer ∈ ([] : List Answer), answer.count = answer.bytes.length := by simp
      exact .answered hnone List.take_zero.symm h rfl (fun _ => rfl)
  | cons request requests ih =>
      intro s before h
      have hfirst := read_spec hz h (hsizes request List.mem_cons_self)
      rw [reads]
      generalize read z s request = x at hfirst
      cases hfirst with
      | truncated short => exact .truncated short
      | @answered s' bytes hread hstands sameFile hfilled =>
          have hrest := ih (fun r hr => hsizes r (List.mem_cons_of_mem _ hr)) hstands
          rw [ok_bind]
          simp only
          generalize reads z s' requests = y at hrest
          rw [sameFile] at hrest
          cases hrest with
          | truncated short => exact .truncated short
          | @answered s'' answers hcounts hreads hstands' sameFile' hfilled' =>
              have hgiven : given (⟨bytes.length, bytes⟩ :: answers) = bytes ++ given answers := rfl
              refine .answered ?_ ?_ ?_ sameFile' ?_
              · intro answer hanswer
                rcases List.mem_cons.mp hanswer with rfl | hanswer
                · rfl
                · exact hcounts answer hanswer
              · have hsum : asked (request :: requests) = request.size + asked requests := by
                  simp [asked]
                rw [hgiven, hsum, take_add_take, ← hread, List.drop_drop, hreads]
              · rw [hgiven, List.length_append, ← Nat.add_assoc]
                exact hstands'
              · intro hshort
                rw [hgiven, List.length_append, hfilled hshort, hfilled' hshort]
                simp [asked]

/-! ### Files of members -/

/-- A member, as zlib reads it. -/
structure Member (z : Inflater σ) where
  bytes : Bytes
  content : Bytes
  At : Nat → Nat → σ → Prop
  inflates : Inflates z bytes content At

/-- The bytes of members, one behind the other. -/
def fileOf (members : List (Member z)) : Bytes := members.flatMap Member.bytes

/-- Their contents. -/
def contentOf (members : List (Member z)) : Bytes := members.flatMap Member.content

/-- The answers to some requests are the first bytes of a content, as many as are asked for. -/
def Delivers (z : Inflater σ) (s : NativeArchiveStream σ) (content : Bytes)
    (requests : List Request) : Prop :=
  ∃ s' answers, reads z s requests = .ok (s', answers) ∧
    (∀ answer ∈ answers, answer.count = answer.bytes.length) ∧
      given answers = content.take (asked requests)

/-- No request is answered as if the content had ended, and after enough of them an error is
reported. -/
structure ReportsTruncation (z : Inflater σ) (s : NativeArchiveStream σ) : Prop where
  noEnd : ∀ (requests : List Request) (request : Request) (s' s'' : NativeArchiveStream σ)
    (answers : List Answer) (answer : Answer),
    (∀ r ∈ request :: requests, r.size < 2 ^ 32) → 0 < request.size →
      reads z s requests = .ok (s', answers) → read z s' request = .ok (s'', answer) →
        0 < answer.count
  reported : ∃ limit, ∀ requests : List Request, (∀ r ∈ requests, r.size < 2 ^ 32) →
    limit < asked requests → ∃ message, reads z s requests = .error (.exception message)

theorem stands_start (file : File) {inbufSize : Nat} (hpos : 0 < inbufSize)
    (hfits : Nat.min inbufSize file.bytes.length < 2 ^ 32) (m : Member z)
    (hfile : m.bytes <+: file.bytes ∨ file.bytes <+: m.bytes) :
    Stands m.bytes m.content m.At 0 (start z file inbufSize) := by
  have hinside : Inside m.bytes m.At 0 0 (start z file inbufSize) := by
    refine ⟨rfl, hfile, ⟨Nat.zero_le _, Nat.zero_le _⟩, ?_, ?_, m.inflates.init⟩
    · rw [start, List.take_zero, List.drop_nil]
    · intro heof
      cases heof
  exact .inside hinside ⟨hpos, hfits⟩

/-- The first bytes of two texts are those of the first one. -/
theorem take_append_eq_take {xs ys : Bytes} {n : Nat} :
    xs.take n = (xs ++ ys).take n ↔ n ≤ xs.length ∨ ys = [] := by
  rw [List.take_append, List.self_eq_append_right, List.take_eq_nil_iff, Nat.sub_eq_zero_iff_le]

section Files

variable {file : File} {inbufSize : Nat} (hpos : 0 < inbufSize)
  (hfits : Nat.min inbufSize file.bytes.length < 2 ^ 32)

include hpos hfits

/-- A file that begins with a member is read as the content of the member. -/
theorem reads_first (m : Member z) (hfile : m.bytes <+: file.bytes) {requests : List Request}
    (hsizes : ∀ request ∈ requests, request.size < 2 ^ 32) :
    ∃ s' answers, reads z (start z file inbufSize) requests = .ok (s', answers) ∧
      (∀ answer ∈ answers, answer.count = answer.bytes.length) ∧
        given answers = m.content.take (asked requests) ∧
          Stands m.bytes m.content m.At (given answers).length s' ∧ s'.file = file := by
  have hrun := reads_spec m.inflates hsizes (stands_start file hpos hfits m (.inl hfile))
  generalize reads z (start z file inbufSize) requests = x at hrun
  cases hrun with
  | truncated short => exact absurd hfile.length_le (Nat.not_le.mpr short)
  | @answered s' answers hcounts hread hstands sameFile _ =>
      rw [Nat.zero_add] at hstands
      exact ⟨s', answers, rfl, hcounts, by rw [hread, List.drop_zero], hstands, sameFile⟩

theorem delivers_iff (first : Member z) (others : List (Member z))
    (hfile : file.bytes = fileOf (first :: others)) {requests : List Request}
    (hsizes : ∀ request ∈ requests, request.size < 2 ^ 32) :
    Delivers z (start z file inbufSize) (contentOf (first :: others)) requests ↔
      asked requests ≤ first.content.length ∨ contentOf others = [] := by
  have hbegins : first.bytes <+: file.bytes := by
    rw [hfile]
    exact List.prefix_append _ _
  obtain ⟨s', answers, hreads, hcounts, hgiven, -⟩ := reads_first hpos hfits first hbegins hsizes
  have hcontent : contentOf (first :: others) = first.content ++ contentOf others := rfl
  rw [← take_append_eq_take, ← hcontent, ← hgiven]
  constructor
  · rintro ⟨s'', answers', hreads', -, hgiven'⟩
    rw [hreads] at hreads'
    cases hreads'
    exact hgiven'
  · intro h
    exact ⟨s', answers, hreads, hcounts, h⟩

/-- A file that is the beginning of a member is reported. -/
theorem reports_of_first (m : Member z) (hfile : file.bytes <+: m.bytes)
    (hshort : file.bytes ≠ m.bytes) : ReportsTruncation z (start z file inbufSize) := by
  have hlength : file.bytes.length < m.bytes.length :=
    Nat.lt_of_le_of_ne hfile.length_le fun heq => hshort (hfile.eq_of_length heq)
  have hstart := stands_start file hpos hfits m (.inr hfile)
  refine ⟨?_, m.content.length, ?_⟩
  · intro requests request s' s'' answers answer hsizes hsize hreads hread
    have hrun := reads_spec m.inflates (fun r hr => hsizes r (List.mem_cons_of_mem _ hr)) hstart
    rw [hreads] at hrun
    cases hrun with
    | answered _ _ hstands sameFile _ =>
        have hnext := read_spec m.inflates hstands (hsizes request List.mem_cons_self)
        rw [hread] at hnext
        cases hnext with
        | answered _ _ _ hfilled =>
            rw [sameFile] at hfilled
            rw [hfilled hlength]
            exact hsize
  · intro requests hsizes hasked
    have hrun := reads_spec m.inflates hsizes hstart
    generalize reads z (start z file inbufSize) requests = x at hrun
    cases hrun with
    | truncated _ => exact ⟨_, rfl⟩
    | answered _ hread _ _ hfilled =>
        have hlen := congrArg List.length hread
        rw [hfilled hlength, List.drop_zero, List.length_take] at hlen
        omega

omit hpos hfits in
/-- Requests for one byte each. -/
theorem asked_replicate (n : Nat) : asked (List.replicate n ⟨1, 1⟩) = n := by
  simp [asked, Request.size]

/-- A file that begins with a member ends where the member does. -/
theorem not_reports_of_first (m : Member z) (hfile : m.bytes <+: file.bytes) :
    ¬ ReportsTruncation z (start z file inbufSize) := by
  intro h
  have hone : ∀ r ∈ List.replicate m.content.length (⟨1, 1⟩ : Request), r.size < 2 ^ 32 := by
    intro r hr
    rw [List.eq_of_mem_replicate hr]
    decide
  obtain ⟨s', answers, hreads, -, hgiven, hstands, sameFile⟩ := reads_first hpos hfits m hfile hone
  rw [asked_replicate, List.take_length] at hgiven
  rw [hgiven] at hstands
  -- everything has been read, and one byte more is asked for
  have hnext := read_spec m.inflates hstands (show (⟨1, 1⟩ : Request).size < 2 ^ 32 by decide)
  rw [sameFile] at hnext
  have hend := h.noEnd (List.replicate m.content.length ⟨1, 1⟩) ⟨1, 1⟩ s'
  generalize read z s' ⟨1, 1⟩ = x at hnext hend
  cases hnext with
  | truncated short => exact absurd hfile.length_le (Nat.not_le.mpr short)
  | @answered s'' bytes hread _ _ _ =>
      have hpositive := hend s'' answers _ (by
        intro r hr
        rcases List.mem_cons.mp hr with rfl | hr
        · decide
        · exact hone r hr) (by decide) hreads rfl
      rw [hread, List.drop_length] at hpositive
      simp at hpositive

omit hpos hfits in
/-- A request that does not fit `avail_out` is answered with more bytes than are put out, if the stream
is inside of a member. -/
theorem count_ne_of_oversize (m : Member z) {s s' : NativeArchiveStream σ} {given : Nat}
    (h : Stands m.bytes m.content m.At given s) (hopen : s.decompressedEof = false)
    {request : Request} (hsize : 2 ^ 32 ≤ request.size) {answer : Answer}
    (hread : read z s request = .ok (s', answer)) : answer.count ≠ answer.bytes.length := by
  cases h with
  | ended eof =>
      rw [hopen] at eof
      cases eof
  | inside hin hchunk =>
      have hlt : uInt request.size < 2 ^ 32 := Nat.mod_lt _ (by decide)
      have hloop := hin.loop m.inflates hchunk (Nat.le_trans (Nat.le_of_lt hlt) hsize)
      have hne : request.size ≠ 0 := by omega
      rw [read, hopen, if_neg Bool.false_ne_true] at hread
      simp only [if_neg hne] at hread
      generalize readLoop z _ s (uInt request.size) [] = x at hloop hread
      cases hloop with
      | @full s₁ taken₁ new _ _ _ _ hfull =>
          cases hread
          show request.size - 0 ≠ ([] ++ new).length
          rw [List.nil_append]
          omega
      | @ended s₁ new _ _ _ hle _ _ =>
          cases hread
          show request.size - (uInt request.size - new.length) ≠ ([] ++ new).length
          rw [List.nil_append]
          omega
      | truncated _ => cases hread

/-- **Where a compressed file is read as all of its members**: while no more is asked for than the first
member has, or where the others are empty; and a file that is cut inside of a member is reported if
that is its first. A request that does not fit `avail_out` is answered wrongly until the stream has
ended. -/
theorem archive_delivers_iff :
    (∀ (first : Member z) (others : List (Member z)), file.bytes = fileOf (first :: others) →
      (∀ requests : List Request, (∀ request ∈ requests, request.size < 2 ^ 32) →
        (Delivers z (start z file inbufSize) (contentOf (first :: others)) requests ↔
          asked requests ≤ first.content.length ∨ contentOf others = [])) ∧
      ∀ (requests : List Request) (s' s'' : NativeArchiveStream σ) (answers : List Answer)
        (request : Request) (answer : Answer), (∀ request ∈ requests, request.size < 2 ^ 32) →
        reads z (start z file inbufSize) requests = .ok (s', answers) → s'.decompressedEof = false →
          2 ^ 32 ≤ request.size → read z s' request = .ok (s'', answer) →
            answer.count ≠ answer.bytes.length) ∧
    ∀ (whole : List (Member z)) (cut : Member z) (part : Bytes), part <+: cut.bytes →
      part ≠ cut.bytes → part ≠ [] → file.bytes = fileOf whole ++ part →
        (ReportsTruncation z (start z file inbufSize) ↔ whole = []) := by
  constructor
  · intro first others hfile
    refine ⟨fun requests hsizes => delivers_iff hpos hfits first others hfile hsizes, ?_⟩
    intro requests s' s'' answers request answer hsizes hreads hopen hsize hread
    have hbegins : first.bytes <+: file.bytes := by
      rw [hfile]
      exact List.prefix_append _ _
    obtain ⟨s₁, answers₁, hreads₁, -, -, hstands, -⟩ :=
      reads_first hpos hfits first hbegins hsizes
    rw [hreads] at hreads₁
    cases hreads₁
    exact count_ne_of_oversize first hstands hopen hsize hread
  · intro whole cut part hpart hproper _ hfile
    constructor
    · intro h
      cases whole with
      | nil => rfl
      | cons first others =>
          refine absurd h (not_reports_of_first hpos hfits first ?_)
          rw [hfile, fileOf, List.flatMap_cons, List.append_assoc]
          exact List.prefix_append _ _
    · rintro rfl
      have hbytes : file.bytes = part := hfile
      rw [← hbytes] at hpart hproper
      exact reports_of_first hpos hfits cut hpart hproper

end Files

end NativeArchiveStream

/-! ### Stored members -/

section Stored

/-- What `inflate` takes and puts out of a member with one stored block: so many bytes before the
content, the content, and the bytes of the trailer. -/
def storedFeed (before len after : Nat) : Nat → Nat → Bytes → Nat × Bytes
  | _, _, [] => (0, [])
  | i, avail, b :: bs =>
    if before ≤ i ∧ i < before + len then
      if avail = 0 then (0, [])
      else
        let rest := storedFeed before len after (i + 1) (avail - 1) bs
        (rest.1 + 1, b :: rest.2)
    else if i < before + len + after then
      let rest := storedFeed before len after (i + 1) avail bs
      (rest.1 + 1, rest.2)
    else (0, [])

/-- `inflate` on such a member; the state is the number of bytes that it has taken. -/
def storedInflater (before len after : Nat) : Inflater Nat where
  init := 0
  inflate i finish input avail :=
    let fed := storedFeed before len after i avail input
    { state := i + fed.1
      used := fed.1
      out := fed.2
      status :=
        if i + fed.1 = before + len + after then .streamEnd
        else if finish || fed.1 = 0 then .bufError
        else .ok }

variable {head content trailer : Bytes}

/-- How much of the content has been put out. -/
def storedGiven (before len i : Nat) : Nat := min (i - before) len

theorem storedFeed_spec (head content trailer input : Bytes) : ∀ {i : Nat} (avail : Nat),
    i ≤ head.length + content.length + trailer.length →
    (input <+: (head ++ content ++ trailer).drop i ∨ (head ++ content ++ trailer).drop i <+: input) →
      let fed := storedFeed head.length content.length trailer.length i avail input
      fed.1 ≤ input.length ∧ i + fed.1 ≤ head.length + content.length + trailer.length ∧
        fed.2.length ≤ avail ∧ fed.2 <+: content.drop (storedGiven head.length content.length i) ∧
        storedGiven head.length content.length (i + fed.1) =
          storedGiven head.length content.length i + fed.2.length ∧
        (i + fed.1 ≠ head.length + content.length + trailer.length →
          fed.1 = input.length ∨ fed.2.length = avail) := by
  induction input with
  | nil =>
      intro i avail hi _
      simp [storedFeed, hi]
  | cons b bs ih =>
      intro i avail hi hcompat
      have hlength : (head ++ content ++ trailer).length =
          head.length + content.length + trailer.length := by
        rw [List.length_append, List.length_append]
      by_cases hend : i = head.length + content.length + trailer.length
      · -- the member has been taken
        have hdata : ¬ (head.length ≤ i ∧ i < head.length + content.length) := by omega
        have hrest : ¬ i < head.length + content.length + trailer.length := by omega
        simp only [storedFeed, if_neg hdata, if_neg hrest]
        refine ⟨Nat.zero_le _, hi, Nat.zero_le _, List.nil_prefix, rfl, fun hne => ?_⟩
        exact absurd hend hne
      · have hlt : i < (head ++ content ++ trailer).length := by omega
        have hhead : b = (head ++ content ++ trailer)[i] ∧
            (bs <+: (head ++ content ++ trailer).drop (i + 1) ∨
              (head ++ content ++ trailer).drop (i + 1) <+: bs) := by
          rw [← List.getElem_cons_drop hlt, List.cons_prefix_cons, List.cons_prefix_cons] at hcompat
          rcases hcompat with ⟨hb, h⟩ | ⟨hb, h⟩
          · exact ⟨hb, .inl h⟩
          · exact ⟨hb.symm, .inr h⟩
        by_cases hdata : head.length ≤ i ∧ i < head.length + content.length
        · by_cases havail : avail = 0
          · simp only [storedFeed, if_pos hdata, if_pos havail]
            exact ⟨Nat.zero_le _, hi, Nat.zero_le _, List.nil_prefix, rfl, fun _ => .inr havail.symm⟩
          · obtain ⟨hused, htaken, hout, hprefix, hgiven, hstops⟩ := ih (avail - 1) (by omega) hhead.2
            have hnext : storedGiven head.length content.length (i + 1) =
                storedGiven head.length content.length i + 1 := by
              simp only [storedGiven]
              omega
            have hcontent : content.drop (storedGiven head.length content.length i) =
                b :: content.drop (storedGiven head.length content.length (i + 1)) := by
              have hindex : storedGiven head.length content.length i = i - head.length := by
                simp only [storedGiven]
                omega
              have hbound : i - head.length < content.length := by omega
              have hbyte : b = content[i - head.length] := by
                rw [hhead.1, List.getElem_append_left (by rw [List.length_append]; omega),
                  List.getElem_append_right hdata.1]
              rw [hnext, hindex, hbyte, List.getElem_cons_drop]
            simp only [storedFeed, if_pos hdata, if_neg havail]
            refine ⟨?_, ?_, ?_, ?_, ?_, ?_⟩
            · rw [List.length_cons]
              omega
            · omega
            · rw [List.length_cons]
              omega
            · rw [hcontent, List.cons_prefix_cons]
              exact ⟨rfl, hprefix⟩
            · rw [List.length_cons, Nat.add_comm _ 1, ← Nat.add_assoc, hgiven, hnext]
              omega
            · intro hne
              rw [List.length_cons, List.length_cons]
              have := hstops (by omega)
              omega
        · obtain ⟨hused, htaken, hout, hprefix, hgiven, hstops⟩ := ih avail (by omega) hhead.2
          have hnext : storedGiven head.length content.length (i + 1) =
              storedGiven head.length content.length i := by
            simp only [storedGiven]
            omega
          have hrest : i < head.length + content.length + trailer.length := by omega
          rw [hnext] at hprefix hgiven
          simp only [storedFeed, if_neg hdata, if_pos hrest]
          refine ⟨?_, ?_, hout, hprefix, ?_, ?_⟩
          · rw [List.length_cons]
            omega
          · omega
          · rw [Nat.add_comm _ 1, ← Nat.add_assoc, hgiven]
          · intro hne
            rw [List.length_cons]
            have := hstops (by omega)
            omega

/-- The state after so many bytes of the member. -/
def storedAt (before len after taken given state : Nat) : Prop :=
  state = taken ∧ taken ≤ before + len + after ∧ given = storedGiven before len taken

/-- The contract, for a member with one stored block. -/
theorem stored_inflates (head content trailer : Bytes) :
    Inflates (storedInflater head.length content.length trailer.length) (head ++ content ++ trailer)
      content (storedAt head.length content.length trailer.length) := by
  have hlength : (head ++ content ++ trailer).length =
      head.length + content.length + trailer.length := by
    rw [List.length_append, List.length_append]
  refine ⟨⟨rfl, Nat.zero_le _, ?_⟩, ?_⟩
  · simp only [storedGiven]
    omega
  · rintro taken given state ⟨rfl, hle, rfl⟩ finish input avail havail hinput
    obtain ⟨hused, htaken, hout, hread, hgiven, hstops⟩ :=
      storedFeed_spec head content trailer input avail hle hinput
    rw [storedInflater]
    simp only
    generalize storedFeed head.length content.length trailer.length state avail input = fed at *
    by_cases hend : state + fed.1 = head.length + content.length + trailer.length
    · rw [if_pos hend]
      refine ⟨⟨hused, hlength ▸ htaken⟩, ⟨hout, hread⟩, .inl rfl,
        ⟨fun _ => hend.trans hlength.symm, fun _ => rfl⟩, ?_, ?_, ?_⟩
      · intro _
        rw [← hgiven, hend]
        simp only [storedGiven]
        omega
      · intro hne
        exact absurd rfl hne
      · intro hne
        exact absurd rfl hne
    · rw [if_neg hend]
      have hstatus : (if (finish || decide (fed.1 = 0)) = true then ZStatus.bufError else .ok) ≠
          .streamEnd := by
        split <;> simp
      refine ⟨⟨hused, hlength ▸ htaken⟩, ⟨hout, hread⟩, ?_,
        ⟨fun h => absurd h hstatus, fun h => ?_⟩, ?_, ?_, ?_⟩
      · split
        · exact .inr (.inr rfl)
        · exact .inr (.inl rfl)
      · rw [hlength] at h
        exact absurd h hend
      · intro h
        exact absurd h hstatus
      · intro _
        exact hstops hend
      · intro _
        exact ⟨rfl, htaken, hgiven.symm⟩

/-- A member with one stored block. -/
def storedMember (head content trailer : Bytes) :
    NativeArchiveStream.Member (storedInflater head.length content.length trailer.length) where
  bytes := head ++ content ++ trailer
  content := content
  At := storedAt head.length content.length trailer.length
  inflates := stored_inflates head content trailer

/-- The header of a gzip member and of a stored block of one byte. -/
def gzipHead : Bytes := [0x1f, 0x8b, 8, 0, 0, 0, 0, 0, 0, 255, 1, 1, 0, 254, 255]

/-- The checksum and the length of the content `a`. -/
def gzipTrailer : Bytes := [0x43, 0xbe, 0xb7, 0xe8, 1, 0, 0, 0]

/-- zlib on the gzip file of the text `a`. -/
def gzipInflater : Inflater Nat := storedInflater gzipHead.length 1 gzipTrailer.length

/-- The gzip file of the text `a`. -/
def gzipMember : NativeArchiveStream.Member gzipInflater := storedMember gzipHead [97] gzipTrailer

open NativeArchiveStream (Delivers ReportsTruncation start fileOf contentOf asked reads)

/-- The file of two members, in chunks of seven bytes, with a request for more than both. -/
theorem archive_delivers_iff_twoMembers :
    (Delivers gzipInflater (start gzipInflater (File.whole (fileOf [gzipMember, gzipMember])) 7)
        (contentOf [gzipMember, gzipMember]) [⟨1, 1⟩] ↔
      asked [⟨1, 1⟩] ≤ 1 ∨ contentOf [gzipMember] = []) ∧
    (ReportsTruncation gzipInflater (start gzipInflater (File.whole gzipHead) 7) ↔
      ([] : List (NativeArchiveStream.Member gzipInflater)) = []) := by
  have htwo := (@NativeArchiveStream.archive_delivers_iff _ gzipInflater
    (File.whole (fileOf [gzipMember, gzipMember])) 7 (by decide) (by decide)).1 gzipMember [gzipMember] rfl
  have hcut := (@NativeArchiveStream.archive_delivers_iff _ gzipInflater (File.whole gzipHead) 7
    (by decide) (by decide)).2 [] gzipMember gzipHead (List.prefix_append gzipHead _) (by decide)
    (by decide) rfl
  exact ⟨htwo.1 [⟨1, 1⟩] (by decide), hcut⟩

/-- The second of two members is dropped, and a file that is cut inside of it is read as if it ended with
the first one. -/
theorem archive_not_delivered :
    ¬ Delivers gzipInflater (start gzipInflater (File.whole (fileOf [gzipMember, gzipMember])) 7)
      (contentOf [gzipMember, gzipMember]) [⟨2, 2⟩] ∧
    ¬ ReportsTruncation gzipInflater
      (start gzipInflater (File.whole (fileOf [gzipMember] ++ gzipHead)) 7) := by
  constructor
  · rintro ⟨s', answers, hreads, -, hgiven⟩
    have hrun : (reads gzipInflater
        (start gzipInflater (File.whole (fileOf [gzipMember, gzipMember])) 7) [⟨2, 2⟩]).toOption.map
          Prod.snd = some [⟨1, [97]⟩] := by
      decide +kernel
    rw [hreads] at hrun
    cases hrun
    exact absurd hgiven (by decide)
  · exact NativeArchiveStream.not_reports_of_first (by decide) (by decide) gzipMember
      (List.prefix_append gzipMember.bytes _)

end Stored

end Lsql.Storage
