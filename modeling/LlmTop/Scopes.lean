import LlmTop.Paths

/-!
# Scope matching

A granted scope against a requested one, colon segment by colon segment, each
segment compared as a path.
-/
namespace LlmTop

def star : Bytes := ascii "*"
def doubleStar : Bytes := ascii "**"

def isColon (c : UInt8) : Bool := c == ':'.toUInt8

/-- A `*` stands for part of one segment; only the first one is a wildcard. -/
def segmentMatches (pattern segment : Bytes) : Bool :=
  match Lib.Search.find '*'.toUInt8 pattern with
  | none => pattern == segment
  | some i =>
      let pre := pattern.take i
      let suffix := pattern.drop (i + 1)
      if segment.length < pre.length + suffix.length then false
      else if segment.take pre.length ≠ pre then false
      else if suffix.isEmpty then true
      else segment.drop (segment.length - suffix.length) == suffix

/-- Without a wildcard the two have to be equal. -/
theorem segmentMatches_literal {pattern segment : Bytes} (h : '*'.toUInt8 ∉ pattern) :
    segmentMatches pattern segment = true ↔ pattern = segment := by
  unfold segmentMatches
  rw [Lib.Search.find_eq_none.mpr h]
  exact beq_iff_eq

/-- The wildcard stands for any text between its two sides. -/
theorem segmentMatches_star {before after segment : Bytes} (h : '*'.toUInt8 ∉ before) :
    segmentMatches (before ++ '*'.toUInt8 :: after) segment = true ↔
      ∃ middle, segment = before ++ middle ++ after := by
  have hfind : Lib.Search.find '*'.toUInt8 (before ++ '*'.toUInt8 :: after) = some before.length :=
    Lib.Search.find_eq_some.mpr ⟨before, after, rfl, h, rfl⟩
  have hsuffix : (before ++ '*'.toUInt8 :: after).drop (before.length + 1) = after := by
    rw [List.drop_length_add_append]
    rfl
  unfold segmentMatches
  rw [hfind, Lib.Search.exists_between]
  dsimp only
  rw [List.take_left, hsuffix]
  split_ifs with hroom hfront hempty
  · exact iff_of_false id fun hcut => Nat.not_le.mpr hroom hcut.1
  · exact iff_of_false id fun hcut => hfront hcut.2.1
  · rw [and_iff_right (Nat.not_lt.mp hroom), and_iff_right (not_not.mp hfront),
      List.isEmpty_iff.mp hempty, List.length_nil, Nat.sub_zero, List.drop_length]
    exact iff_of_true rfl rfl
  · rw [beq_iff_eq, and_iff_right (Nat.not_lt.mp hroom), and_iff_right (not_not.mp hfront)]

def kMaxPathSegments : Nat := 64

def isPathSeparator (c : UInt8) : Bool := c == '/'.toUInt8 || c == '\\'.toUInt8

/-- One segment into the bounded stack; `none` is `kTooManySegments`. -/
def pushView (cap : Nat) (out : List Bytes) (seg : Bytes) : Option (List Bytes) :=
  if seg ≠ [] ∧ seg ≠ dot then
    if seg = dotdot ∧ out ≠ [] ∧ out.getLast? ≠ some dotdot then some out.dropLast
    else if cap ≤ out.length then none
    else some (out ++ [seg])
  else some out

def isAbsolute (s : Bytes) : Bool :=
  match s with
  | c :: _ => isPathSeparator c
  | [] => false

def normalizeSegments (s : Bytes) (cap : Nat) : Option (List Bytes) :=
  (Lib.Split.splitTerminated isPathSeparator s).foldlM (pushView cap) []

/-- Pattern segments against target segments: `**` absorbs the rest, `*` takes
exactly one, anything else is a glob inside one segment. -/
def globLoop : List Bytes → List Bytes → Bool
  | [], target => target.isEmpty
  | p :: ps, target =>
      if p = doubleStar then true
      else
        match target with
        | [] => false
        | t :: ts =>
            if p = star then globLoop ps ts
            else if segmentMatches p t then globLoop ps ts
            else false

def pathGlobMatchesSegs (p : List Bytes) (pAbs : Bool) (t : List Bytes) (tAbs : Bool) : Bool :=
  if pAbs ≠ tAbs then false else globLoop p t

/-- The `:`-separated segments `next_colon_segment` yields. -/
def colonSegments (s : Bytes) : List Bytes := Lib.Split.splitTerminated isColon s

/-- One granted colon segment against one requested segment. -/
def segmentGrants (granted requested : Bytes) : Bool :=
  match normalizeSegments granted kMaxPathSegments, normalizeSegments requested kMaxPathSegments with
  | some gp, some tp => pathGlobMatchesSegs gp (isAbsolute granted) tp (isAbsolute requested)
  | _, _ => false

/-- The walk over both scopes with its two counters. -/
def scopeLoop : List Bytes → List Bytes → Nat → Nat → Bool
  | [], requested, gCount, rCount => gCount == rCount + requested.length
  | g :: granted, requested, gCount, rCount =>
      if g = doubleStar then true
      else
        match requested with
        | [] => false
        | r :: requested =>
            if g = star then scopeLoop granted requested (gCount + 1) (rCount + 1)
            else if segmentGrants g r then scopeLoop granted requested (gCount + 1) (rCount + 1)
            else false

def scopeMatches (granted requested : Bytes) : Bool :=
  if granted = doubleStar then true
  else scopeLoop (colonSegments granted) (colonSegments requested) 0 0

example : scopeMatches (ascii "execute:read:src/**") (ascii "execute:read:src/db/pool.cpp") = true := by
  decide
example : scopeMatches (ascii "execute:read:src/*") (ascii "execute:read:src/db/pool.cpp") = false := by
  decide
example : scopeMatches (ascii "read:src/*") (ascii "read:src/../../etc") = false := by decide

end LlmTop
