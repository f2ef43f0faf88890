import LlmTop.Authorization
import LlmTop.Lib.Walk
import LlmTop.ScopeMatching

/-!
# Approved resources stay under the root

What `escapes_root` leaves of the normal forms: a relative path without a `..`.
-/
namespace LlmTop

open Lib.Walk

/-- The pieces of a path between its separators. -/
def pathPieces (s : Bytes) : List Bytes := Lib.Split.splitTerminated isPathSeparator s

/-- One piece of a path, as a directory walk reads it. -/
def pieceMove (piece : Bytes) : Move Bytes :=
  if piece = [] ∨ piece = dot then .stay else if piece = dotdot then .up else .down piece

def HasDrive (s : Bytes) : Prop :=
  ∃ drive rest, s = drive :: ':'.toUInt8 :: rest ∧ isLetter drive = true

/-- A resource that names a place under any directory it is resolved against. -/
structure Confined (resource : Bytes) : Prop where
  normal : normalizePathSegment resource = resource
  relative : resource.head? ≠ some '/'.toUInt8
  no_drive : ¬HasDrive resource
  no_backslash : '\\'.toUInt8 ∉ resource
  written : resource = joinSegments (pathPieces resource)
  pieces : ∀ piece ∈ pathPieces resource, piece ≠ [] ∧ piece ≠ dot ∧ piece ≠ dotdot
  stays : ∀ root, Stays root ((pathPieces resource).map pieceMove)

theorem not_hasDrive {s : Bytes} (h : escapesRoot s = false) : ¬HasDrive s := by
  rintro ⟨drive, rest, rfl, hletter⟩
  unfold escapesRoot at h
  split_ifs at h
  simp [hletter] at h

/-- A normal stack with no `..` at the bottom has none at all. -/
theorem dotdot_not_mem {segments : List Bytes} (h : ClimbsFirst segments)
    (hhead : segments.head? ≠ some dotdot) : dotdot ∉ segments := by
  obtain ⟨climbs, names, rfl, hclimbs, hnames⟩ := h
  cases climbs with
  | nil => exact hnames
  | cons climb climbs =>
      obtain rfl := hclimbs climb List.mem_cons_self
      exact absurd rfl hhead

/-- The test for a leading `..` sees the first segment. -/
theorem escapesRoot_dotdot {segments : List Bytes} (h : segments.head? = some dotdot) :
    escapesRoot (joinSegments segments) = true := by
  obtain ⟨rest, rfl⟩ := List.head?_eq_some_iff.mp h
  unfold escapesRoot
  refine if_pos ?_
  cases rest with
  | nil => exact Or.inl rfl
  | cons next others =>
      refine Or.inr (List.isPrefixOf_iff_prefix.mpr ?_)
      exact ⟨joinSegments (next :: others), rfl⟩

/-- What passes the root test in normal form is confined. -/
theorem confined_of_normal {resource : Bytes} (hnormal : normalizePathSegment resource = resource)
    (h : escapesRoot resource = false) : Confined resource := by
  have hrelative : resource.head? ≠ some '/'.toUInt8 := by
    intro hslash
    unfold escapesRoot at h
    split_ifs at h
  obtain ⟨segments, hsegments, heq | heq⟩ := normalizePathSegment_eq resource
  · rw [hnormal] at heq
    have hback : '\\'.toUInt8 ∉ resource := heq ▸ no_backslash_joinSegments hsegments.1
    have hpieces : pathPieces resource = segments := by
      rw [pathPieces, ← splitTerminated_foldBackslashes, foldBackslashes_eq_self hback, heq,
        splitTerminated_joinSegments hsegments.1]
    have hup : dotdot ∉ segments := by
      refine dotdot_not_mem hsegments.2 fun hhead => ?_
      rw [heq, escapesRoot_dotdot hhead] at h
      contradiction
    refine ⟨hnormal, hrelative, not_hasDrive h, hback, hpieces ▸ heq, ?_, ?_⟩
    · intro piece hpiece
      rw [hpieces] at hpiece
      have hplain := hsegments.1 piece hpiece
      exact ⟨hplain.nonempty, hplain.ne_dot, fun heq => hup (heq ▸ hpiece)⟩
    · refine stays_of_no_up fun m hm => ?_
      obtain ⟨piece, hpiece, rfl⟩ := List.mem_map.mp hm
      rw [hpieces] at hpiece
      have hne : piece ≠ dotdot := fun heq => hup (heq ▸ hpiece)
      unfold pieceMove
      rw [if_neg hne]
      split_ifs <;> exact nofun
  · rw [hnormal] at heq
    exact absurd (by rw [heq]; rfl) hrelative

theorem Entry.resource_normal (e : Entry) : normalizePathSegment e.resource = e.resource := by
  cases e with
  | pointer field => exact normalizePathSegment_idem _
  | tool call => exact normalizePathSegment_idem _

namespace LLMTOPMiddleware

/-- Whatever the grants and the verdict, the listed resources are confined. -/
theorem approved_resources_confined (m : LLMTOPMiddleware) (clock : Clock) (ast : AST)
    (acceptHealed : Bool) :
    (∀ pointer ∈ (m.evaluate clock ast acceptHealed).1.approvedPointers,
        Confined pointer.resource) ∧
      ∀ tool ∈ (m.evaluate clock ast acceptHealed).1.approvedTools, Confined tool.resource := by
  obtain ⟨before, after, -, hadmitted, hpointers, htools⟩ :=
    m.evaluate_prefix clock ast acceptHealed
  have hconfined : ∀ e ∈ before, Confined e.resource := by
    intro e he
    obtain ⟨tick, htick⟩ := Lib.Guarded.exists_index_of_mem he 1
    exact confined_of_normal e.resource_normal (hadmitted _ htick).1
  rw [hpointers, htools, List.forall_mem_map, List.forall_mem_map]
  constructor
  · intro field hfield
    obtain ⟨e, he, hsome⟩ := List.mem_filterMap.mp hfield
    cases e with
    | tool call => contradiction
    | pointer field' =>
        obtain rfl : field' = field := Option.some.inj hsome
        exact hconfined _ he
  · intro call hcall
    obtain ⟨e, he, hsome⟩ := List.mem_filterMap.mp hcall
    cases e with
    | pointer field => contradiction
    | tool call' =>
        obtain rfl : call' = call := Option.some.inj hsome
        exact hconfined _ he

end LLMTOPMiddleware
end LlmTop
