import LlmTop.ClimbingPaths
import LlmTop.Confinement

/-!
# Normalization keeps the way

A path is a walk from wherever it is resolved.  `normalize_path_segment` takes
pieces out of the path and joins the rest; the walk still ends where it did and
climbs over the top as often.
-/
namespace LlmTop

open Lib.Walk

/-- The walk of `s` from a directory, with its climbs over the top. -/
def trek (start : List Bytes) (s : Bytes) : Trek Bytes :=
  Trek.walk ⟨start, 0⟩ ((pathPieces s).map pieceMove)

example : trek [ascii "a"] (ascii "../../b\\./c/..") = ⟨[ascii "b"], 1⟩ := by decide

theorem pieceMove_name {piece : Bytes} (h : PlainSegment piece) (hup : piece ≠ dotdot) :
    pieceMove piece = .down piece := by
  unfold pieceMove
  rw [if_neg (not_or.mpr ⟨h.nonempty, h.ne_dot⟩), if_neg hup]

/-- One piece against the stack is one more move at the end of the walk: a `..`
that takes the top name with it leaves that name again. -/
theorem walk_pushSegment {segments : List Bytes} (h : NormalSegments segments) (piece : Bytes)
    (t : Trek Bytes) :
    t.walk ((pushSegment segments piece).map pieceMove) =
      (t.walk (segments.map pieceMove)).move (pieceMove piece) := by
  have hpush : t.walk ((segments ++ [piece]).map pieceMove) =
      (t.walk (segments.map pieceMove)).move (pieceMove piece) := by
    rw [List.map_append, Trek.walk_append]
    rfl
  unfold pushSegment
  by_cases hskip : piece = [] ∨ piece = dot
  · rw [if_pos hskip, pieceMove, if_pos hskip, Trek.move_stay]
  · rw [if_neg hskip]
    by_cases hup : piece = dotdot
    · rw [if_pos hup]
      split
      · rename_i htop
        have hcut := List.dropLast_concat_getLast htop.1
        have hname : segments.getLast htop.1 ≠ dotdot := by
          intro heq
          exact htop.2 (heq ▸ List.getLast?_eq_some_getLast htop.1)
        have hdown := pieceMove_name (h.1 _ (List.getLast_mem htop.1)) hname
        have hback : pieceMove piece = .up := by rw [hup]; rfl
        rw [hback]
        conv_rhs => rw [← hcut, List.map_append, Trek.walk_append, List.map_singleton, hdown]
        rw [Trek.walk_cons, Trek.walk_nil, Trek.move_down_up]
      · exact hpush
    · rw [if_neg hup]
      exact hpush

theorem walk_foldl_pushSegment (pieces : List Bytes) {segments : List Bytes}
    (h : NormalSegments segments) (hslash : ∀ seg ∈ pieces, ∀ c ∈ seg, isPathSeparator c = false)
    (t : Trek Bytes) :
    t.walk ((pieces.foldl pushSegment segments).map pieceMove) =
      (t.walk (segments.map pieceMove)).walk (pieces.map pieceMove) := by
  induction pieces generalizing segments with
  | nil => rfl
  | cons piece pieces ih =>
      have hpiece := hslash piece List.mem_cons_self
      have hnormal : NormalSegments (pushSegment segments piece) := by
        refine pushSegment_normal h (fun c hc => ?_) fun hback => ?_
        · exact (Bool.or_eq_false_iff.mp (hpiece c hc)).1
        · exact absurd (hpiece _ hback) (by decide)
      rw [List.foldl_cons, ih hnormal fun seg hseg => hslash seg (List.mem_cons_of_mem piece hseg),
        walk_pushSegment h, List.map_cons, Trek.walk_cons]

/-- The segments that are left lead from everywhere to where the path leads. -/
theorem walk_segmentViews (s : Bytes) (t : Trek Bytes) :
    t.walk ((segmentViews s).map pieceMove) = t.walk ((pathPieces s).map pieceMove) :=
  walk_foldl_pushSegment _ normalSegments_nil
    (fun _ hseg => Lib.Split.delim_of_mem_splitTerminated hseg) t

theorem normalizePathSegment_pathOf (s : Bytes) :
    normalizePathSegment s = pathOf (isAbsolute s) (segmentViews s) :=
  normalizePathSegment_views s

theorem pathPieces_normalize (s : Bytes) :
    pathPieces (normalizePathSegment s) =
      (if isAbsolute s then [[]] else []) ++ segmentViews s := by
  rw [normalizePathSegment_pathOf]
  exact pieces_pathOf (segmentViews_normal s) (isAbsolute s)

theorem trek_normalize (start : List Bytes) (s : Bytes) :
    trek start (normalizePathSegment s) = trek start s := by
  unfold trek
  rw [pathPieces_normalize, ← walk_segmentViews, List.map_append, Trek.walk_append]
  -- the empty piece in front of a leading separator is no move
  cases isAbsolute s <;> rfl

theorem isAbsolute_iff (s : Bytes) :
    isAbsolute s = true ↔ s.head? = some '/'.toUInt8 ∨ s.head? = some '\\'.toUInt8 := by
  cases s with
  | nil => simp [isAbsolute]
  | cons c cs => simp [isAbsolute, isPathSeparator]

/-- Normalization is a change of spelling: the normal form is led by a separator
when the path is, and leads to the same place from any directory. -/
theorem normalizePathSegment_lexical (s : Bytes) :
    normalizePathSegment (normalizePathSegment s) = normalizePathSegment s ∧
      '\\'.toUInt8 ∉ normalizePathSegment s ∧
      ((normalizePathSegment s).head? = some '/'.toUInt8 ↔
        s.head? = some '/'.toUInt8 ∨ s.head? = some '\\'.toUInt8) ∧
      (∃ segments, NormalSegments segments ∧
        normalizePathSegment s = pathOf (isAbsolute s) segments ∧
        pathPieces (normalizePathSegment s) = (if isAbsolute s then [[]] else []) ++ segments) ∧
      ∀ start, trek start (normalizePathSegment s) = trek start s := by
  refine ⟨normalizePathSegment_idem s, ?_, ?_, ⟨segmentViews s, segmentViews_normal s,
    normalizePathSegment_pathOf s, pathPieces_normalize s⟩, fun start => trek_normalize start s⟩
  · rw [normalizePathSegment_views, List.mem_append, not_or]
    refine ⟨?_, no_backslash_joinSegments (segmentViews_normal s).1⟩
    split <;> decide
  · rw [← isAbsolute_iff, ← head?_normalize, beq_iff_eq]

end LlmTop
