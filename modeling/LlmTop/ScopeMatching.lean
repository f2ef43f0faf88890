import LlmTop.Lib.Wildcard
import LlmTop.Scopes

/-!
# Scope matching without copies

`scope_matches` works on views with a stack of 64 segments.  It is held against
the plain procedure, which builds the normalized strings and splits them.
-/
namespace LlmTop

open Lib.Wildcard

/-! ## The plain procedure -/

def splitScopeSv (s : Bytes) (delim : UInt8) : List Bytes :=
  Lib.Split.splitTerminated (· == delim) s

/-- A pattern word: `**` is the rest, `*` is any one item. -/
def scopePart : Bytes → PatternPart Bytes := PatternPart.ofWord star doubleStar

/-- Two colon segments, compared as normalized paths. -/
def naiveSegment (granted requested : Bytes) : Bool :=
  let p := normalizePathSegment granted
  let t := normalizePathSegment requested
  (p.head? == some '/'.toUInt8) == (t.head? == some '/'.toUInt8) &&
    covers segmentMatches ((splitScopeSv p '/'.toUInt8).map scopePart)
      (splitScopeSv t '/'.toUInt8)

def naiveScopeMatches (granted requested : Bytes) : Bool :=
  granted == doubleStar ||
    covers naiveSegment ((splitScopeSv granted ':'.toUInt8).map scopePart)
      (splitScopeSv requested ':'.toUInt8)

/-! ## The bounded stack -/

/-- The normalized segments of a path with either separator. -/
def segmentViews (s : Bytes) : List Bytes :=
  (Lib.Split.splitTerminated isPathSeparator s).foldl pushSegment []

/-- No more than `cap` segments are pending at any time while `s` is normalized. -/
def Fits (cap : Nat) (s : Bytes) : Prop :=
  ∀ front ∈ (Lib.Split.splitTerminated isPathSeparator s).inits,
    (front.foldl pushSegment []).length ≤ cap

instance (cap : Nat) (s : Bytes) : Decidable (Fits cap s) :=
  inferInstanceAs (Decidable (∀ front ∈ _, _))

theorem Fits.length_le {cap : Nat} {s : Bytes} (h : Fits cap s) :
    (segmentViews s).length ≤ cap :=
  h _ ((List.mem_inits _ _).mpr (List.prefix_refl _))

theorem Fits.mono {cap cap' : Nat} {s : Bytes} (h : Fits cap s) (hle : cap ≤ cap') :
    Fits cap' s :=
  fun front hfront => (h front hfront).trans hle

theorem pushView_eq {cap : Nat} {out : List Bytes} (hout : out.length ≤ cap) (seg : Bytes) :
    pushView cap out seg =
      if (pushSegment out seg).length ≤ cap then some (pushSegment out seg) else none := by
  unfold pushView pushSegment
  by_cases hskip : seg = [] ∨ seg = dot
  · rw [if_neg (by tauto), if_pos hskip, if_pos hout]
  · rw [if_pos (by tauto), if_neg hskip]
    by_cases hpop : seg = dotdot ∧ out ≠ [] ∧ out.getLast? ≠ some dotdot
    · rw [if_pos hpop, if_pos hpop.1, if_pos hpop.2, if_pos]
      rw [List.length_dropLast]
      omega
    · have hpush : (if seg = dotdot then
          if out ≠ [] ∧ out.getLast? ≠ some dotdot then out.dropLast else out ++ [seg]
          else out ++ [seg]) = out ++ [seg] := by
        split_ifs <;> first | rfl | exact absurd ⟨by assumption, by assumption⟩ hpop
      rw [if_neg hpop, hpush, List.length_append, List.length_singleton]
      split_ifs <;> first | rfl | omega

theorem foldlM_pushView {cap : Nat} {out : List Bytes} (hout : out.length ≤ cap)
    (pieces : List Bytes) {segs : List Bytes} :
    pieces.foldlM (pushView cap) out = some segs ↔
      (∀ front ∈ pieces.inits, (front.foldl pushSegment out).length ≤ cap) ∧
        pieces.foldl pushSegment out = segs := by
  induction pieces generalizing out with
  | nil => simp [hout]
  | cons seg pieces ih =>
      rw [List.foldlM_cons, pushView_eq hout, List.inits_cons, List.forall_mem_cons,
        List.forall_mem_map]
      split
      · rename_i hnext
        rw [List.foldl_nil, and_iff_right hout]
        exact ih hnext
      · rename_i hnext
        constructor
        · intro h
          contradiction
        · rintro ⟨⟨-, hall⟩, -⟩
          exact absurd (hall [] (by simp)) hnext

theorem normalizeSegments_eq_some {cap : Nat} {s : Bytes} {segs : List Bytes} :
    normalizeSegments s cap = some segs ↔ Fits cap s ∧ segmentViews s = segs :=
  foldlM_pushView (Nat.zero_le cap) _

/-! ## The same segments -/

theorem isSlash_fold (c : UInt8) :
    isSlash (if c = '\\'.toUInt8 then '/'.toUInt8 else c) = isPathSeparator c := by
  unfold isSlash isPathSeparator
  split
  · rename_i hback
    rw [hback]
    decide
  · rename_i hback
    rw [beq_false_of_ne hback, Bool.or_false]

theorem splitTerminated_foldBackslashes (s : Bytes) :
    Lib.Split.splitTerminated isSlash (foldBackslashes s) =
      Lib.Split.splitTerminated isPathSeparator s := by
  unfold foldBackslashes
  rw [Lib.Split.splitTerminated_map]
  simp only [isSlash_fold]
  refine (List.map_congr_left fun piece hpiece => ?_).trans (List.map_id _)
  refine foldBackslashes_eq_self fun hback => ?_
  have hdelim := Lib.Split.delim_of_mem_splitTerminated hpiece _ hback
  exact absurd hdelim (by decide)

theorem pathSegments_foldBackslashes (s : Bytes) :
    pathSegments (foldBackslashes s) = segmentViews s := by
  rw [pathSegments, splitTerminated_foldBackslashes, segmentViews]

theorem segmentViews_normal (s : Bytes) : NormalSegments (segmentViews s) :=
  pathSegments_foldBackslashes s ▸ pathSegments_normal (no_backslash_foldBackslashes s)

theorem normalizePathSegment_views (s : Bytes) :
    normalizePathSegment s =
      (if isAbsolute s then ascii "/" else []) ++ joinSegments (segmentViews s) := by
  unfold normalizePathSegment
  dsimp only
  rw [pathSegments_foldBackslashes]
  cases s with
  | nil => rfl
  | cons c cs =>
      have habs : (foldBackslashes (c :: cs)).head? = some '/'.toUInt8 ↔
          isAbsolute (c :: cs) = true := by
        rw [isAbsolute, ← isSlash_fold, isSlash, beq_iff_eq]
        exact Option.some_inj
      simp only [List.isEmpty_cons, Bool.false_eq_true, if_false, habs]

/-- Splitting the normalized string gives the segments back. -/
theorem splitScopeSv_normalize (s : Bytes) :
    splitScopeSv (normalizePathSegment s) '/'.toUInt8 =
      if isAbsolute s then [] :: segmentViews s else segmentViews s := by
  have hjoin : Lib.Split.splitTerminated isSlash (joinSegments (segmentViews s)) = segmentViews s :=
    splitTerminated_joinSegments (segmentViews_normal s).1
  have hslash : (· == '/'.toUInt8) = isSlash := rfl
  rw [splitScopeSv, hslash, normalizePathSegment_views]
  split
  · have hsplit : ascii "/" ++ joinSegments (segmentViews s) =
        '/'.toUInt8 :: joinSegments (segmentViews s) := rfl
    rw [hsplit, Lib.Split.splitTerminated_delim _ (by decide), hjoin]
  · exact hjoin

theorem head?_normalize (s : Bytes) :
    ((normalizePathSegment s).head? == some '/'.toUInt8) = isAbsolute s := by
  rw [normalizePathSegment_views]
  cases habs : isAbsolute s with
  | true => rfl
  | false => exact beq_false_of_ne (head?_joinSegments (segmentViews_normal s).1)

theorem segmentMatches_nil : segmentMatches [] [] = true := rfl

theorem naiveSegment_eq (granted requested : Bytes) :
    naiveSegment granted requested =
      (isAbsolute granted == isAbsolute requested &&
        covers segmentMatches ((segmentViews granted).map scopePart) (segmentViews requested)) := by
  have hempty : scopePart [] = .key [] := by decide
  unfold naiveSegment
  dsimp only
  rw [head?_normalize, head?_normalize, splitScopeSv_normalize, splitScopeSv_normalize]
  cases isAbsolute granted <;> cases isAbsolute requested <;>
    simp [hempty, covers, segmentMatches_nil]

/-! ## The loops -/

theorem globLoop_eq (pattern target : List Bytes) :
    globLoop pattern target = covers segmentMatches (pattern.map scopePart) target := by
  induction pattern generalizing target with
  | nil => rfl
  | cons p ps ih =>
      unfold globLoop
      rw [List.map_cons, scopePart, covers_ofWord, ← scopePart]
      simp only [ih]
      cases target <;> rfl

theorem scopeLoop_eq (granted requested : List Bytes) (count : Nat) :
    scopeLoop granted requested count count =
      covers segmentGrants (granted.map scopePart) requested := by
  induction granted generalizing requested count with
  | nil => cases requested <;> simp [scopeLoop, covers]
  | cons g gs ih =>
      unfold scopeLoop
      rw [List.map_cons, scopePart, covers_ofWord, ← scopePart]
      simp only [ih]
      cases requested <;> rfl

/-- The bounded comparison is the plain one of two segments that fit. -/
theorem segmentGrants_eq (granted requested : Bytes) :
    segmentGrants granted requested =
      (naiveSegment granted requested &&
        decide (Fits kMaxPathSegments granted ∧ Fits kMaxPathSegments requested)) := by
  have hnone : ∀ {s : Bytes}, normalizeSegments s kMaxPathSegments = none →
      ¬ Fits kMaxPathSegments s := by
    intro s hnone hfits
    rw [normalizeSegments_eq_some.mpr ⟨hfits, rfl⟩] at hnone
    contradiction
  unfold segmentGrants
  cases hg : normalizeSegments granted kMaxPathSegments with
  | none => simp [hnone hg]
  | some gp =>
      obtain ⟨hgfits, rfl⟩ := normalizeSegments_eq_some.mp hg
      cases hr : normalizeSegments requested kMaxPathSegments with
      | none => simp [hnone hr]
      | some tp =>
          obtain ⟨hrfits, rfl⟩ := normalizeSegments_eq_some.mp hr
          rw [naiveSegment_eq, decide_eq_true ⟨hgfits, hrfits⟩, Bool.and_true, ← globLoop_eq]
          dsimp only [pathGlobMatchesSegs]
          cases isAbsolute granted <;> cases isAbsolute requested <;> rfl

/-! ## The two procedures -/

theorem colonSegments_eq (s : Bytes) : colonSegments s = splitScopeSv s ':'.toUInt8 := rfl

/-- The colon segments that are normalized and compared, as pairs of a granted
and a requested one. -/
def comparedSegments (granted requested : Bytes) : List (Bytes × Bytes) :=
  compared ((colonSegments granted).map scopePart) (colonSegments requested)

theorem scopeMatches_eq (granted requested : Bytes) :
    scopeMatches granted requested =
      covers segmentGrants ((colonSegments granted).map scopePart) (colonSegments requested) := by
  unfold scopeMatches
  split
  · rename_i hall
    subst hall
    rfl
  · exact scopeLoop_eq _ _ 0

theorem naiveScopeMatches_eq (granted requested : Bytes) :
    naiveScopeMatches granted requested =
      covers naiveSegment ((colonSegments granted).map scopePart) (colonSegments requested) := by
  unfold naiveScopeMatches
  rw [colonSegments_eq, colonSegments_eq]
  by_cases hall : granted = doubleStar
  · subst hall
    rfl
  · rw [beq_false_of_ne hall, Bool.false_or]

/-- Without the depth bound the two agree; a compared segment that is too deep
is never authorized. -/
theorem scopeMatches_iff_naive (granted requested : Bytes) :
    scopeMatches granted requested = true ↔
      naiveScopeMatches granted requested = true ∧
        ∀ pair ∈ comparedSegments granted requested,
          Fits kMaxPathSegments pair.1 ∧ Fits kMaxPathSegments pair.2 := by
  have hgrants : segmentGrants = fun g r => naiveSegment g r &&
      decide (Fits kMaxPathSegments g ∧ Fits kMaxPathSegments r) := by
    funext g r
    exact segmentGrants_eq g r
  rw [scopeMatches_eq, naiveScopeMatches_eq, hgrants, covers_and]
  simp only [decide_eq_true_eq]
  rfl

end LlmTop
