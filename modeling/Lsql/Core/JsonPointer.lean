import Mathlib.Data.List.TakeWhile
import Lsql.Core.JsonPath

/-!
# Lsql.Core.JsonPointer

The paths that `jsonPathToPointer` accepts, and what the pointers mean that it gives.

The grammar below is that of the manual: `$`, a pointer, or segments, which are names and bracketed
indexes. Only a name at the very beginning stands without a dot in front of it.
-/

namespace Lsql

/-! ### Reading a pointer -/

/-- Every `a` followed by `b` becomes `c`, from left to right. -/
def replacePair (a b c : UInt8) : Bytes → Bytes
  | x :: y :: s =>
    if x = a ∧ y = b then c :: replacePair a b c s else x :: replacePair a b c (y :: s)
  | s => s

/-- The reference tokens of a pointer: split at `/`, then `~1` to `/`, then `~0` to `~`. -/
def pointerTokens (pointer : Bytes) : List Bytes :=
  ((pointer.splitOn slash).drop 1).map fun token =>
    replacePair tilde digitZero tilde (replacePair tilde digitOne slash token)

theorem replacePair_cons_of_ne {a b c x : UInt8} (hx : x ≠ a) (s : Bytes) :
    replacePair a b c (x :: s) = x :: replacePair a b c s := by
  cases s with
  | nil => simp [replacePair]
  | cons y s => simp [replacePair, hx]

theorem replacePair_cons_cons_of_ne {a b c y : UInt8} (hy : y ≠ b) (s : Bytes) :
    replacePair a b c (a :: y :: s) = a :: replacePair a b c (y :: s) := by
  simp [replacePair, hy]

theorem replacePair_pair {a b c : UInt8} (s : Bytes) :
    replacePair a b c (a :: b :: s) = c :: replacePair a b c s := by
  simp [replacePair]

/-- The text of a segment behind its slash. -/
def escapeSegment (segment : Bytes) : Bytes :=
  segment.flatMap fun c =>
    if c = tilde then [tilde, digitZero] else if c = slash then [tilde, digitOne] else [c]

theorem pointerSegment_eq (segment : Bytes) :
    pointerSegment segment = slash :: escapeSegment segment :=
  rfl

/-- The first replacement leaves the tildes escaped. -/
theorem replacePair_slash_escapeSegment (segment : Bytes) :
    replacePair tilde digitOne slash (escapeSegment segment) =
      segment.flatMap fun c => if c = tilde then [tilde, digitZero] else [c] := by
  induction segment with
  | nil => rfl
  | cons c segment ih =>
      simp only [escapeSegment, List.flatMap_cons] at ih ⊢
      by_cases htilde : c = tilde
      · simp only [htilde, if_true, List.cons_append, List.nil_append]
        rw [replacePair_cons_cons_of_ne (by decide), replacePair_cons_of_ne (by decide), ih]
      · by_cases hslash : c = slash
        · simp only [hslash, show slash ≠ tilde by decide, if_false, if_true, List.cons_append,
            List.nil_append]
          rw [replacePair_pair, ih]
        · simp only [htilde, hslash, if_false, List.cons_append, List.nil_append]
          rw [replacePair_cons_of_ne htilde, ih]

theorem replacePair_tilde (segment : Bytes) :
    replacePair tilde digitZero tilde
      (segment.flatMap fun c => if c = tilde then [tilde, digitZero] else [c]) = segment := by
  induction segment with
  | nil => rfl
  | cons c segment ih =>
      simp only [List.flatMap_cons]
      by_cases htilde : c = tilde
      · simp only [htilde, if_true, List.cons_append, List.nil_append]
        rw [replacePair_pair, ih]
      · simp only [htilde, if_false, List.cons_append, List.nil_append]
        rw [replacePair_cons_of_ne htilde, ih]

theorem slash_notMem_escapeSegment (segment : Bytes) : slash ∉ escapeSegment segment := by
  simp only [escapeSegment, List.mem_flatMap, not_exists, not_and]
  intro c _
  split
  · decide
  · split
    · decide
    · rename_i hslash
      simpa using Ne.symm hslash

theorem append_flatMap_pointerSegment (first : Bytes) (segments : List Bytes) :
    first ++ segments.flatMap pointerSegment =
      [slash].intercalate (first :: segments.map escapeSegment) := by
  induction segments generalizing first with
  | nil => simp
  | cons segment segments ih =>
      rw [List.map_cons, List.intercalate_cons_cons, ← ih, List.flatMap_cons, pointerSegment_eq]
      simp

/-- The pointer that segments are translated to has these segments as its tokens. -/
theorem pointerTokens_flatMap (segments : List Bytes) :
    pointerTokens (segments.flatMap pointerSegment) = segments := by
  have hjoined : segments.flatMap pointerSegment =
      [slash].intercalate ([] :: segments.map escapeSegment) :=
    append_flatMap_pointerSegment [] segments
  have hread (segment : Bytes) :
      replacePair tilde digitZero tilde (replacePair tilde digitOne slash (escapeSegment segment)) =
        segment := by
    rw [replacePair_slash_escapeSegment, replacePair_tilde]
  rw [pointerTokens, hjoined, List.splitOn_intercalate]
  · simp [Function.comp_def, hread]
  · simp [slash_notMem_escapeSegment]
  · simp

/-! ### The grammar of paths -/

/-- A segment of a path. -/
inductive PathSegment
  | name (name : Bytes)
  | index (digits : Bytes)
  deriving DecidableEq, Repr

namespace PathSegment

def token : PathSegment → Bytes
  | name s => s
  | index digits => digits

/-- The segment without a dot in front of it. -/
def bare : PathSegment → Bytes
  | name s => s
  | index digits => leftBracket :: (digits ++ [rightBracket])

/-- The segment behind other segments. -/
def render : PathSegment → Bytes
  | name s => dot :: s
  | index digits => leftBracket :: (digits ++ [rightBracket])

def Valid : PathSegment → Prop
  | name s => s ≠ [] ∧ dot ∉ s ∧ leftBracket ∉ s
  | index digits => digits ≠ [] ∧ ∀ c ∈ digits, isDigit c = true

end PathSegment

/-- The path is made of these segments: with a dot before every name and a `$` or nothing in front,
or with a name at its very beginning that nothing but the rest of the segments follows. -/
def SegmentPath (path : Bytes) (segments : List PathSegment) : Prop :=
  segments ≠ [] ∧ (∀ segment ∈ segments, segment.Valid) ∧
    (path = dollar :: segments.flatMap PathSegment.render ∨
      path = segments.flatMap PathSegment.render ∨
      ∃ first rest, segments = .name first :: rest ∧ first.head? ≠ some slash ∧
        first.head? ≠ some dollar ∧ path = first ++ rest.flatMap PathSegment.render)

/-- The accepted paths. -/
inductive IsJsonPath (path : Bytes) : Prop
  | empty (h : path = [])
  | root (h : path = [dollar])
  | pointer (h : path.head? = some slash)
      (hescaped : ∀ i, path[i]? = some tilde →
        path[i + 1]? = some digitZero ∨ path[i + 1]? = some digitOne)
  | segments (segments : List PathSegment) (h : SegmentPath path segments)

/-- A dot at the beginning, behind a `$` or not, with a bracket behind it. -/
def DotBeforeBracket (path : Bytes) : Prop :=
  ∃ digits rest, (∀ segment ∈ PathSegment.index digits :: rest, segment.Valid) ∧
    (path = dot :: (PathSegment.index digits :: rest).flatMap PathSegment.render ∨
      path = dollar :: dot :: (PathSegment.index digits :: rest).flatMap PathSegment.render)

/-- What the translation of a path has to be: nothing for a path outside the grammar, and otherwise
a pointer whose tokens are the segments of the path. -/
def Translates (path : Bytes) : Option Bytes → Prop
  | none => ¬ IsJsonPath path
  | some pointer => IsJsonPath path ∧
      ∀ segments, SegmentPath path segments → pointerTokens pointer = segments.map PathSegment.token

/-! ### One segment -/

/-- The bytes of a name. -/
def isNameByte (c : UInt8) : Bool := c != dot && c != leftBracket

theorem isNameByte_iff {c : UInt8} : isNameByte c = true ↔ c ≠ dot ∧ c ≠ leftBracket := by
  simp [isNameByte]

/-- The part of the path that a segment without a dot may have behind it. -/
def PathSegment.EndsBefore : PathSegment → Bytes → Prop
  | name _, rest => rest.head?.all fun c => c = dot || c = leftBracket
  | index _, _ => True

theorem drop_length_takeWhile {α : Type*} (p : α → Bool) (xs : List α) :
    xs.drop (xs.takeWhile p).length = xs.dropWhile p := by
  calc xs.drop (xs.takeWhile p).length
      = (xs.takeWhile p ++ xs.dropWhile p).drop (xs.takeWhile p).length := by
        rw [List.takeWhile_append_dropWhile]
    _ = xs.dropWhile p := List.drop_left

theorem head?_dropWhile_all {α : Type*} (p : α → Bool) (xs : List α) :
    (xs.dropWhile p).head?.all (!p ·) = true := by
  induction xs with
  | nil => rfl
  | cons x xs ih => by_cases hx : p x = true <;> simp_all

/-- The beginning of a list that a predicate holds on ends where the predicate first fails. -/
theorem span_append {α : Type*} {p : α → Bool} {xs ys : List α} (hxs : ∀ x ∈ xs, p x = true)
    (hys : ys.head?.all (!p ·) = true) :
    (xs ++ ys).takeWhile p = xs ∧ (xs ++ ys).dropWhile p = ys := by
  rw [List.takeWhile_append_of_pos hxs, List.dropWhile_append_of_pos hxs]
  cases ys with
  | nil => simp
  | cons y ys => simp_all

theorem valid_name_iff {s : Bytes} :
    (PathSegment.name s).Valid ↔ s ≠ [] ∧ ∀ c ∈ s, isNameByte c = true := by
  simp only [PathSegment.Valid, isNameByte_iff]
  grind

theorem endsBefore_name_iff {s rest : Bytes} :
    (PathSegment.name s).EndsBefore rest ↔ rest.head?.all (!isNameByte ·) = true := by
  cases rest with
  | nil => simp [PathSegment.EndsBefore]
  | cons c rest => by_cases hc : c = dot <;> simp [PathSegment.EndsBefore, isNameByte, hc]

/-- What is read where no bracket stands first. -/
theorem pathSegment_name {path : Bytes} (hne : path ≠ []) (hbracket : path.head? ≠ some leftBracket) :
    pathSegment path =
      if (path.takeWhile isNameByte).isEmpty then none
      else some (path.takeWhile isNameByte, path.dropWhile isNameByte) := by
  obtain ⟨c, tail, rfl⟩ := List.exists_cons_of_ne_nil hne
  have hc : c ≠ leftBracket := by simpa using hbracket
  simp only [pathSegment, hc, if_false, ← drop_length_takeWhile isNameByte]
  rfl

/-- One segment is taken from the text exactly when the text starts with it. -/
theorem pathSegment_eq_some {path token rest : Bytes} :
    pathSegment path = some (token, rest) ↔
      ∃ segment : PathSegment, segment.Valid ∧ segment.token = token ∧
        path = segment.bare ++ rest ∧ segment.EndsBefore rest := by
  constructor
  · intro h
    cases path with
    | nil => simp [pathSegment] at h
    | cons c tail =>
        by_cases hbracket : c = leftBracket
        · subst hbracket
          have hsplit : tail.takeWhile isDigit ++ tail.dropWhile isDigit = tail :=
            List.takeWhile_append_dropWhile
          simp only [pathSegment, if_true] at h
          cases hrest : tail.dropWhile isDigit with
          | nil => simp [hrest] at h
          | cons close after =>
              simp only [hrest, Option.ite_none_left_eq_some, Bool.or_eq_true, not_or,
                Option.some.injEq, Prod.mk.injEq] at h
              obtain ⟨⟨hne, hclose⟩, rfl, rfl⟩ := h
              refine ⟨.index (tail.takeWhile isDigit), ⟨by simpa using hne, ?_⟩, rfl, ?_, trivial⟩
              · intro d hd
                exact List.mem_takeWhile_imp hd
              · have hclose : close = rightBracket := by simpa using hclose
                rw [hrest, hclose] at hsplit
                conv_lhs => rw [← hsplit]
                simp [PathSegment.bare]
        · rw [pathSegment_name (by simp) (by simpa using hbracket)] at h
          simp only [Option.ite_none_left_eq_some, Option.some.injEq, Prod.mk.injEq] at h
          obtain ⟨hne, rfl, rfl⟩ := h
          refine ⟨.name ((c :: tail).takeWhile isNameByte), valid_name_iff.mpr ⟨?_, ?_⟩, rfl,
            List.takeWhile_append_dropWhile.symm, ?_⟩
          · simpa using hne
          · intro d hd
            exact List.mem_takeWhile_imp hd
          · exact endsBefore_name_iff.mpr (head?_dropWhile_all _ _)
  · rintro ⟨segment, hvalid, rfl, rfl, hends⟩
    cases segment with
    | name s =>
        obtain ⟨hne, hbytes⟩ := valid_name_iff.mp hvalid
        obtain ⟨htake, hdrop⟩ := span_append hbytes (endsBefore_name_iff.mp hends)
        have hhead : (s ++ rest).head? ≠ some leftBracket := by
          obtain ⟨c, s, rfl⟩ := List.exists_cons_of_ne_nil hne
          simpa using (isNameByte_iff.mp (hbytes c List.mem_cons_self)).2
        rw [PathSegment.bare, pathSegment_name (by simp [hne]) hhead, htake, hdrop]
        simp [hne, PathSegment.token]
    | index digits =>
        obtain ⟨hne, hdigits⟩ := hvalid
        have hclose : (rightBracket :: rest).head?.all (!isDigit ·) = true := rfl
        obtain ⟨htake, hdrop⟩ := span_append hdigits hclose
        simp [PathSegment.bare, PathSegment.token, pathSegment, htake, hdrop, hne]

/-! ### One round of the loop -/

/-- Where the loop goes on when a segment has been read: nowhere at the end of the path. -/
def afterSegment : Bytes → Option (Option Bytes)
  | [] => some none
  | c :: rest =>
    if c = dot then if rest.head?.any isNameByte then some (some rest) else none
    else if c = leftBracket then some (some (c :: rest))
    else none

/-- A round: the segment that it appends, and where the loop goes on. -/
def pathRound (path : Bytes) : Option (Bytes × Option Bytes) :=
  (pathSegment path).bind fun (segment, rest) => (afterSegment rest).map (segment, ·)

theorem pathSegments_succ (fuel : Nat) (path : Bytes) :
    pathSegments (fuel + 1) path = (pathRound path).bind fun round =>
      (round.2.elim (some []) (pathSegments fuel)).map (pointerSegment round.1 ++ ·) := by
  rw [pathSegments, pathRound]
  cases pathSegment path with
  | none => rfl
  | some found =>
      obtain ⟨segment, rest⟩ := found
      cases rest with
      | nil => simp [afterSegment]
      | cons c rest =>
          by_cases hdot : c = dot
          · cases rest with
            | nil => simp [hdot, afterSegment]
            | cons next rest =>
                by_cases hnext : next = dot ∨ next = leftBracket
                · have hbyte : isNameByte next = false := by
                    rcases hnext with rfl | rfl <;> rfl
                  simp [hdot, hnext, afterSegment, hbyte]
                · have hbyte : isNameByte next = true := isNameByte_iff.mpr (not_or.mp hnext)
                  cases hrec : pathSegments fuel (next :: rest) <;>
                    simp [hdot, hnext, afterSegment, hbyte, hrec]
          · by_cases hbracket : c = leftBracket
            · cases hrec : pathSegments fuel (leftBracket :: rest) <;>
                simp [afterSegment, hbracket, hrec, show leftBracket ≠ dot by decide]
            · simp [afterSegment, hdot, hbracket]

/-- What stands behind a segment, when the loop goes on at `next`: a bracket that `next` starts with,
or a dot with a name behind it. -/
def Leads (behind next : Bytes) : Prop :=
  (behind = next ∧ next.head? = some leftBracket) ∨
    (behind = dot :: next ∧ next.head?.any isNameByte = true)

theorem afterSegment_eq_none_iff {behind : Bytes} : afterSegment behind = some none ↔ behind = [] := by
  cases behind with
  | nil => simp [afterSegment]
  | cons c rest =>
      simp only [afterSegment, reduceCtorEq, iff_false]
      grind

theorem afterSegment_eq_some_iff {behind next : Bytes} :
    afterSegment behind = some (some next) ↔ Leads behind next := by
  cases behind with
  | nil =>
      have hne : [] = next → next.head? ≠ some leftBracket := by
        rintro rfl
        simp
      simpa [afterSegment, Leads] using hne
  | cons c rest =>
      simp only [afterSegment, Leads, List.cons.injEq]
      have hbracket : leftBracket ≠ dot := by decide
      by_cases hdot : c = dot
      · subst hdot
        simp only [if_true, Option.ite_none_right_eq_some, Option.some.injEq]
        grind
      · by_cases hc : c = leftBracket
        · subst hc
          simp only [hdot, if_false, if_true, Option.some.injEq]
          grind
        · simp only [hdot, hc, if_false, reduceCtorEq, false_iff]
          grind

/-- A round appends the segment that the path starts with and goes on behind it. -/
theorem pathRound_eq_some {path token : Bytes} {next : Option Bytes} :
    pathRound path = some (token, next) ↔
      ∃ segment : PathSegment, segment.Valid ∧ segment.token = token ∧
        ∃ behind, afterSegment behind = some next ∧ path = segment.bare ++ behind := by
  simp only [pathRound, Option.bind_eq_some_iff, Option.map_eq_some_iff, Prod.mk.injEq]
  constructor
  · rintro ⟨⟨segment, behind⟩, hfound, following, hafter, rfl, rfl⟩
    obtain ⟨segment, hvalid, htoken, hpath, -⟩ := pathSegment_eq_some.mp hfound
    exact ⟨segment, hvalid, htoken, behind, hafter, hpath⟩
  · rintro ⟨segment, hvalid, rfl, behind, hafter, rfl⟩
    -- a dot or a bracket ends a name
    have hends : segment.EndsBefore behind := by
      cases segment with
      | index digits => trivial
      | name s =>
          cases next with
          | none => simp [afterSegment_eq_none_iff.mp hafter, PathSegment.EndsBefore]
          | some next =>
              rcases afterSegment_eq_some_iff.mp hafter with ⟨rfl, hhead⟩ | ⟨rfl, -⟩
              · simp [PathSegment.EndsBefore, hhead]
              · simp [PathSegment.EndsBefore]
    exact ⟨(segment.token, behind), pathSegment_eq_some.mpr ⟨segment, hvalid, rfl, rfl, hends⟩,
      next, hafter, rfl, rfl⟩

theorem bare_ne_nil {segment : PathSegment} (h : segment.Valid) : segment.bare ≠ [] := by
  cases segment with
  | name s => exact h.1
  | index digits => simp [PathSegment.bare]

/-- Every round that goes on has taken a byte. -/
theorem pathRound_shortens {path token next : Bytes} (h : pathRound path = some (token, some next)) :
    next.length < path.length := by
  obtain ⟨segment, hvalid, -, behind, hafter, rfl⟩ := pathRound_eq_some.mp h
  have hpos : 0 < segment.bare.length := List.length_pos_iff.mpr (bare_ne_nil hvalid)
  rw [List.length_append]
  rcases afterSegment_eq_some_iff.mp hafter with ⟨rfl, -⟩ | ⟨rfl, -⟩
  · omega
  · rw [List.length_cons]
    omega

/-! ### The loop -/

/-- The text of segments whose first one has no dot in front. -/
def bareText : List PathSegment → Bytes
  | [] => []
  | segment :: rest => segment.bare ++ rest.flatMap PathSegment.render

/-- What leads to segments is their text behind another segment. -/
theorem leads_bareText_iff {segment : PathSegment} (hvalid : segment.Valid)
    (rest : List PathSegment) (behind : Bytes) :
    Leads behind (bareText (segment :: rest)) ↔
      behind = (segment :: rest).flatMap PathSegment.render := by
  cases segment with
  | name s =>
      obtain ⟨hne, hbytes⟩ := valid_name_iff.mp hvalid
      obtain ⟨c, s, rfl⟩ := List.exists_cons_of_ne_nil hne
      have hc : isNameByte c = true := hbytes c List.mem_cons_self
      simp [Leads, bareText, PathSegment.bare, PathSegment.render, hc, (isNameByte_iff.mp hc).2]
  | index digits =>
      have hbracket : isNameByte leftBracket = false := rfl
      simp [Leads, bareText, PathSegment.bare, PathSegment.render, hbracket]

/-- The loop accepts exactly the texts of segments, and translates them one by one. -/
theorem pathSegments_eq_some {fuel : Nat} {path pointer : Bytes} (hfuel : path.length < fuel) :
    pathSegments fuel path = some pointer ↔
      ∃ segments, segments ≠ [] ∧ (∀ segment ∈ segments, segment.Valid) ∧
        path = bareText segments ∧
        pointer = (segments.map PathSegment.token).flatMap pointerSegment := by
  induction fuel generalizing path pointer with
  | zero => cases hfuel
  | succ fuel ih =>
      simp only [pathSegments_succ, Option.bind_eq_some_iff, Option.map_eq_some_iff]
      constructor
      · rintro ⟨⟨token, next⟩, hround, pointer, hnext, rfl⟩
        obtain ⟨segment, hvalid, rfl, behind, hafter, rfl⟩ := pathRound_eq_some.mp hround
        cases next with
        | none =>
            cases hnext
            refine ⟨[segment], by simp, by simpa using hvalid, ?_, by simp⟩
            simp [bareText, afterSegment_eq_none_iff.mp hafter]
        | some next =>
            have hshorter := pathRound_shortens hround
            obtain ⟨segments, hne, hall, rfl, rfl⟩ := (ih (by omega)).mp hnext
            obtain ⟨second, rest, rfl⟩ := List.exists_cons_of_ne_nil hne
            have hbehind := (leads_bareText_iff (hall second List.mem_cons_self) rest behind).mp
              (afterSegment_eq_some_iff.mp hafter)
            refine ⟨segment :: second :: rest, by simp, List.forall_mem_cons.mpr ⟨hvalid, hall⟩, ?_,
              by simp⟩
            rw [bareText, hbehind]
      · rintro ⟨segments, hne, hall, rfl, rfl⟩
        obtain ⟨segment, rest, rfl⟩ := List.exists_cons_of_ne_nil hne
        obtain ⟨hvalid, hrest⟩ := List.forall_mem_cons.mp hall
        cases rest with
        | nil =>
            refine ⟨(segment.token, none), pathRound_eq_some.mpr
              ⟨segment, hvalid, rfl, [], rfl, by simp [bareText]⟩, [], rfl, by simp⟩
        | cons second rest =>
            have hleads : Leads ((second :: rest).flatMap PathSegment.render)
                (bareText (second :: rest)) :=
              (leads_bareText_iff (hrest second List.mem_cons_self) rest _).mpr rfl
            have hround : pathRound (bareText (segment :: second :: rest)) =
                some (segment.token, some (bareText (second :: rest))) :=
              pathRound_eq_some.mpr
                ⟨segment, hvalid, rfl, _, afterSegment_eq_some_iff.mpr hleads, rfl⟩
            have hshorter := pathRound_shortens hround
            exact ⟨_, hround, _, (ih (by omega)).mpr ⟨_, by simp, hrest, rfl, rfl⟩, by simp⟩

/-! ### The beginning of the path -/

/-- What the code reads in front of the segments: `$.`, a `$` before a bracket, a dot, or nothing. -/
def StartsThen (path body : Bytes) : Prop :=
  path = dollar :: dot :: body ∨ (path = dollar :: body ∧ body.head? = some leftBracket) ∨
    path = dot :: body ∨
    (path = body ∧ body.head? ≠ some dot ∧ body.head? ≠ some dollar ∧ body.head? ≠ some slash)

/-- The loop starts at one body, or the beginning is refused. -/
theorem jsonPathToPointer_start {path : Bytes} (hne : path ≠ []) (hroot : path ≠ [dollar])
    (hslash : path.head? ≠ some slash) :
    (∃ body, body.length ≤ path.length ∧
        jsonPathToPointer path = pathSegments (path.length + 1) body ∧
        ∀ text, text ≠ [] → (StartsThen path text ↔ body = text)) ∨
      (jsonPathToPointer path = none ∧ ∀ text, text ≠ [] → ¬ StartsThen path text) := by
  obtain ⟨first, rest, rfl⟩ := List.exists_cons_of_ne_nil hne
  have hfirst : first ≠ slash := by simpa using hslash
  have hdistinct : dollar ≠ dot ∧ dollar ≠ leftBracket ∧ dot ≠ leftBracket ∧ dollar ≠ slash ∧
      dot ≠ slash := by decide
  have hstart (text : Bytes) : StartsThen (first :: rest) text ↔
      (first = dollar ∧ rest = dot :: text) ∨
        ((first = dollar ∧ rest = text) ∧ text.head? = some leftBracket) ∨
        (first = dot ∧ rest = text) ∨
        (first :: rest = text ∧ text.head? ≠ some dot ∧ text.head? ≠ some dollar ∧
          text.head? ≠ some slash) := by
    simp only [StartsThen, List.cons.injEq]
  simp only [hstart]
  by_cases hdollar : first = dollar
  · subst hdollar
    obtain ⟨c, rest, rfl⟩ := List.exists_cons_of_ne_nil (l := rest) (by simpa using hroot)
    by_cases hdot : c = dot
    · refine Or.inl ⟨rest, by simp; omega, by simp [jsonPathToPointer, hdistinct, hdot], ?_⟩
      intro text _
      grind
    · by_cases hbracket : c = leftBracket
      · refine Or.inl ⟨c :: rest, by simp, ?_, ?_⟩
        · simp [jsonPathToPointer, hdistinct, hbracket, hdistinct.2.2.1.symm]
        · intro text _
          grind
      · refine Or.inr ⟨by simp [jsonPathToPointer, hdistinct, hdot, hbracket], ?_⟩
        intro text _
        grind
  · by_cases hdot : first = dot
    · refine Or.inl ⟨rest, by simp, ?_, ?_⟩
      · simp [jsonPathToPointer, hdistinct, hdot, hdistinct.1.symm]
      · intro text _
        grind
    · refine Or.inl ⟨first :: rest, le_refl _, ?_, ?_⟩
      · simp [jsonPathToPointer, hfirst, hdollar, hdot]
      · intro text _
        grind

theorem jsonPathToPointer_eq_some {path pointer : Bytes} (hne : path ≠ []) (hroot : path ≠ [dollar])
    (hslash : path.head? ≠ some slash) :
    jsonPathToPointer path = some pointer ↔
      ∃ segments, segments ≠ [] ∧ (∀ segment ∈ segments, segment.Valid) ∧
        StartsThen path (bareText segments) ∧
        pointer = (segments.map PathSegment.token).flatMap pointerSegment := by
  have hnonempty {segments : List PathSegment} (hsegments : segments ≠ [])
      (hall : ∀ segment ∈ segments, segment.Valid) : bareText segments ≠ [] := by
    obtain ⟨segment, rest, rfl⟩ := List.exists_cons_of_ne_nil hsegments
    simp [bareText, bare_ne_nil (hall segment List.mem_cons_self)]
  rcases jsonPathToPointer_start hne hroot hslash with ⟨body, hlength, heq, hstart⟩ | ⟨heq, hstart⟩
  · rw [heq, pathSegments_eq_some (by omega)]
    constructor
    · rintro ⟨segments, hsegments, hall, hbody, hpointer⟩
      exact ⟨segments, hsegments, hall, (hstart _ (hnonempty hsegments hall)).mpr hbody, hpointer⟩
    · rintro ⟨segments, hsegments, hall, hbody, hpointer⟩
      exact ⟨segments, hsegments, hall, (hstart _ (hnonempty hsegments hall)).mp hbody, hpointer⟩
  · rw [heq]
    constructor
    · rintro ⟨⟩
    · rintro ⟨segments, hsegments, hall, hbody, -⟩
      exact absurd hbody (hstart _ (hnonempty hsegments hall))

/-- In front of valid segments the code reads what the grammar has there, or a dot before a
bracket. -/
theorem startsThen_bareText_iff {path : Bytes} {segment : PathSegment} {rest : List PathSegment}
    (hall : ∀ s ∈ segment :: rest, s.Valid) :
    StartsThen path (bareText (segment :: rest)) ↔
      SegmentPath path (segment :: rest) ∨
        (∃ digits, segment = .index digits ∧
          (path = dot :: (segment :: rest).flatMap PathSegment.render ∨
            path = dollar :: dot :: (segment :: rest).flatMap PathSegment.render)) := by
  cases segment with
  | name s =>
      obtain ⟨hne, hbytes⟩ := valid_name_iff.mp (hall _ List.mem_cons_self)
      obtain ⟨c, s, rfl⟩ := List.exists_cons_of_ne_nil hne
      have hc := isNameByte_iff.mp (hbytes c List.mem_cons_self)
      simp only [StartsThen, SegmentPath, bareText, PathSegment.bare, PathSegment.render,
        List.flatMap_cons, List.cons_append, List.head?_cons, Option.some.injEq]
      grind
  | index digits =>
      have hdistinct : leftBracket ≠ dot ∧ leftBracket ≠ dollar ∧ leftBracket ≠ slash := by decide
      simp only [StartsThen, SegmentPath, bareText, PathSegment.bare, PathSegment.render,
        List.flatMap_cons, List.cons_append, List.head?_cons]
      grind

theorem startsThen_start {path text : Bytes} (htext : text ≠ []) (h : StartsThen path text) :
    path ≠ [] ∧ path ≠ [dollar] ∧ path.head? ≠ some slash := by
  obtain ⟨c, text, rfl⟩ := List.exists_cons_of_ne_nil htext
  have hdistinct : dollar ≠ slash ∧ dot ≠ slash := by decide
  rcases h with rfl | ⟨rfl, -⟩ | rfl | ⟨rfl, -, hdollar, hslash⟩
  · simp [hdistinct]
  · simp [hdistinct]
  · simp [hdistinct]
  · refine ⟨by simp, ?_, hslash⟩
    rintro heq
    exact hdollar (by simp [heq])

theorem SegmentPath.starts {path : Bytes} {segments : List PathSegment}
    (h : SegmentPath path segments) :
    bareText segments ≠ [] ∧ StartsThen path (bareText segments) := by
  obtain ⟨segment, rest, rfl⟩ := List.exists_cons_of_ne_nil h.1
  refine ⟨?_, (startsThen_bareText_iff h.2.1).mpr (Or.inl h)⟩
  simp [bareText, bare_ne_nil (h.2.1 segment List.mem_cons_self)]

/-- No path of the grammar has a dot before a bracket at its beginning. -/
theorem DotBeforeBracket.not_isJsonPath {path : Bytes} (h : DotBeforeBracket path) :
    ¬ IsJsonPath path := by
  obtain ⟨digits, after, -, hpath⟩ := h
  have hdistinct : leftBracket ≠ dot ∧ dollar ≠ dot ∧ dot ≠ slash ∧ dollar ≠ slash ∧
      dollar ≠ leftBracket := by decide
  have hpath : (∃ tail, path = dot :: leftBracket :: tail) ∨
      ∃ tail, path = dollar :: dot :: leftBracket :: tail :=
    hpath.imp (fun h => ⟨_, h⟩) (fun h => ⟨_, h⟩)
  rintro (hempty | hroot | hslash | ⟨segments, hne, hall, hforms⟩)
  · rcases hpath with ⟨tail, rfl⟩ | ⟨tail, rfl⟩ <;> cases hempty
  · rcases hpath with ⟨tail, rfl⟩ | ⟨tail, rfl⟩ <;> simp at hroot
  · rcases hpath with ⟨tail, rfl⟩ | ⟨tail, rfl⟩ <;> simp [hdistinct] at hslash
  · obtain ⟨segment, rest, rfl⟩ := List.exists_cons_of_ne_nil hne
    have hvalid := hall segment List.mem_cons_self
    cases segment with
    | name s =>
        obtain ⟨hs, hbytes⟩ := valid_name_iff.mp hvalid
        obtain ⟨c, s, rfl⟩ := List.exists_cons_of_ne_nil hs
        have hc := isNameByte_iff.mp (hbytes c List.mem_cons_self)
        simp only [List.flatMap_cons, PathSegment.render, List.cons_append] at hforms
        grind
    | index digits =>
        simp only [List.flatMap_cons, PathSegment.render, List.cons_append] at hforms
        grind

/-- `tildesEscaped` as the manual of pointers has it. -/
theorem tildesEscaped_iff {path : Bytes} :
    tildesEscaped path = true ↔ ∀ i, path[i]? = some tilde →
      path[i + 1]? = some digitZero ∨ path[i + 1]? = some digitOne := by
  induction path with
  | nil => simp [tildesEscaped]
  | cons c rest ih =>
      have hhead : rest.head? = (c :: rest)[1]? := by cases rest <;> rfl
      simp only [tildesEscaped, Bool.and_eq_true, Bool.or_eq_true, ih, hhead]
      constructor
      · rintro ⟨hc, hrest⟩ i hi
        cases i with
        | zero =>
            have : c = tilde := by simpa using hi
            simpa [this] using hc
        | succ i => exact hrest i hi
      · intro h
        refine ⟨?_, fun i hi => h (i + 1) hi⟩
        by_cases hc : c = tilde
        · have := h 0 (by simp [hc])
          simpa [hc] using this
        · simp [hc]

/-- A pointer is accepted exactly when its tildes are escaped. -/
theorem translates_pointer {path : Bytes} (hslash : path.head? = some slash) :
    Translates path (jsonPathToPointer path) := by
  obtain ⟨rest, rfl⟩ : ∃ rest, path = slash :: rest := by
    cases path with
    | nil => cases hslash
    | cons c rest => exact ⟨rest, by simpa using hslash⟩
  have hnone (segments : List PathSegment) : ¬ SegmentPath (slash :: rest) segments := by
    intro h
    exact (startsThen_start h.starts.1 h.starts.2).2.2 rfl
  have hresult : jsonPathToPointer (slash :: rest) =
      if tildesEscaped (slash :: rest) then some (slash :: rest) else none := by
    simp [jsonPathToPointer]
  rw [hresult]
  by_cases hescaped : tildesEscaped (slash :: rest) = true
  · rw [if_pos hescaped]
    exact ⟨.pointer rfl (tildesEscaped_iff.mp hescaped), fun segments h => absurd h (hnone segments)⟩
  · rw [if_neg hescaped]
    rintro (h | h | ⟨-, h⟩ | ⟨segments, h⟩)
    · cases h
    · cases h
    · exact hescaped (tildesEscaped_iff.mpr h)
    · exact hnone segments h

theorem DotBeforeBracket.starts {path : Bytes} (h : DotBeforeBracket path) :
    ∃ segments, segments ≠ [] ∧ (∀ segment ∈ segments, segment.Valid) ∧
      bareText segments ≠ [] ∧ StartsThen path (bareText segments) := by
  obtain ⟨digits, rest, hall, hpath⟩ := h
  refine ⟨.index digits :: rest, by simp, hall, by simp [bareText, PathSegment.bare], ?_⟩
  exact (startsThen_bareText_iff hall).mpr (Or.inr ⟨digits, rfl, hpath⟩)

/-- Behind no pointer and no bare root, only segments are accepted, and every reading of the path
gives the tokens of the result. -/
theorem translates_segments {path : Bytes} (hne : path ≠ []) (hroot : path ≠ [dollar])
    (hslash : path.head? ≠ some slash) :
    Translates path (jsonPathToPointer path) ↔ ¬ DotBeforeBracket path := by
  have hspec (pointer : Bytes) := @jsonPathToPointer_eq_some path pointer hne hroot hslash
  cases hresult : jsonPathToPointer path with
  | none =>
      have hnothing {segments : List PathSegment} (hsegments : segments ≠ [])
          (hall : ∀ segment ∈ segments, segment.Valid) : ¬ StartsThen path (bareText segments) := by
        intro hstart
        cases hresult.symm.trans ((hspec _).mpr ⟨segments, hsegments, hall, hstart, rfl⟩)
      have hdot : ¬ DotBeforeBracket path := by
        intro h
        obtain ⟨segments, hsegments, hall, -, hstart⟩ := h.starts
        exact hnothing hsegments hall hstart
      have hpath : ¬ IsJsonPath path := by
        rintro (h | h | ⟨h, -⟩ | ⟨segments, h⟩)
        · exact hne h
        · exact hroot h
        · exact hslash h
        · exact hnothing h.1 h.2.1 h.starts.2
      simp [Translates, hdot, hpath]
  | some pointer =>
      constructor
      · intro h hdot
        exact hdot.not_isJsonPath h.1
      · intro hdot
        obtain ⟨segments, hsegments, hall, hstart, -⟩ := (hspec pointer).mp hresult
        obtain ⟨segment, rest, rfl⟩ := List.exists_cons_of_ne_nil hsegments
        rcases (startsThen_bareText_iff hall).mp hstart with hread | ⟨digits, rfl, hpath⟩
        · refine ⟨.segments _ hread, ?_⟩
          intro others hothers
          have hsame := (hspec _).mpr ⟨others, hothers.1, hothers.2.1, hothers.starts.2, rfl⟩
          rw [hresult, Option.some.injEq] at hsame
          rw [hsame, pointerTokens_flatMap]
        · exact absurd ⟨digits, rest, hall, hpath⟩ hdot

/-- The empty path and the bare root are accepted, and have no segments. -/
theorem translates_whole {path : Bytes} (h : path = [] ∨ path = [dollar]) :
    Translates path (jsonPathToPointer path) := by
  have hnone (segments : List PathSegment) : ¬ SegmentPath path segments := by
    intro hsegments
    have := startsThen_start hsegments.starts.1 hsegments.starts.2
    exact h.elim this.1 this.2.1
  rcases h with rfl | rfl
  · exact ⟨.empty rfl, fun segments h => absurd h (hnone segments)⟩
  · exact ⟨.root rfl, fun segments h => absurd h (hnone segments)⟩

/-- The loop ends on every path, since every round shortens the text; and a path is translated as the
grammar has it exactly when it does not begin with a dot before a bracket. -/
theorem jsonPathToPointer_translates_iff (path : Bytes) :
    Acc (fun next path => ∃ token, pathRound path = some (token, some next)) path ∧
      (Translates path (jsonPathToPointer path) ↔ ¬ DotBeforeBracket path) := by
  constructor
  · refine (Subrelation.wf ?_ (measure List.length).wf).apply path
    rintro next path ⟨token, h⟩
    exact pathRound_shortens h
  · have hdot (h : DotBeforeBracket path) :
        path ≠ [] ∧ path ≠ [dollar] ∧ path.head? ≠ some slash := by
      obtain ⟨segments, -, -, hne, hstart⟩ := h.starts
      exact startsThen_start hne hstart
    by_cases hslash : path.head? = some slash
    · simp only [translates_pointer hslash, true_iff]
      exact fun h => (hdot h).2.2 hslash
    · by_cases hwhole : path = [] ∨ path = [dollar]
      · simp only [translates_whole hwhole, true_iff]
        exact fun h => hwhole.elim (hdot h).1 (hdot h).2.1
      · obtain ⟨hne, hroot⟩ := not_or.mp hwhole
        exact translates_segments hne hroot hslash

/-- `.[0]` and `$.[0]` are accepted. -/
theorem dotBeforeBracket_accepted :
    jsonPathToPointer (Bytes.ofString ".[0]") = some (Bytes.ofString "/0") ∧
      ¬ IsJsonPath (Bytes.ofString ".[0]") ∧
      jsonPathToPointer (Bytes.ofString "$.[0]") = some (Bytes.ofString "/0") ∧
      ¬ IsJsonPath (Bytes.ofString "$.[0]") := by
  have hvalid : ∀ segment ∈ [PathSegment.index [48]], segment.Valid := by
    simp [PathSegment.Valid, isDigit]
  refine ⟨by decide +kernel, ?_, by decide +kernel, ?_⟩
  · exact DotBeforeBracket.not_isJsonPath ⟨[48], [], hvalid, Or.inl (by decide +kernel)⟩
  · exact DotBeforeBracket.not_isJsonPath ⟨[48], [], hvalid, Or.inr (by decide +kernel)⟩

end Lsql
