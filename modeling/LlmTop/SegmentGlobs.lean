import LlmTop.Lib.Glob
import LlmTop.Scopes

/-!
# Wildcards inside one segment

`segment_matches` reads the first `*` of a pattern as a wildcard and every later
one as itself: it grants nothing that the glob would not, and all that the glob
would as long as there is no second `*`.
-/
namespace LlmTop

open Lib.Glob

/-- What the pattern says: each `*` stands for some text. -/
def SegmentGlob (pattern segment : Bytes) : Prop := Matches '*'.toUInt8 pattern segment

theorem segmentGlob_of_matches {pattern segment : Bytes}
    (h : segmentMatches pattern segment = true) : SegmentGlob pattern segment := by
  by_cases hstar : '*'.toUInt8 ∈ pattern
  · obtain ⟨before, after, rfl, hbefore⟩ := List.eq_append_cons_of_mem hstar
    obtain ⟨middle, rfl⟩ := (segmentMatches_star hbefore).mp h
    rw [List.append_assoc]
    refine (matches_literals hbefore).mpr ⟨middle ++ after, rfl, ?_⟩
    exact matches_wild.mpr ⟨middle, after, rfl, matches_refl after⟩
  · rw [(segmentMatches_literal hstar).mp h]
    exact matches_refl segment

theorem matches_of_segmentGlob {pattern segment : Bytes} (hone : pattern.count '*'.toUInt8 ≤ 1)
    (h : SegmentGlob pattern segment) : segmentMatches pattern segment = true := by
  by_cases hstar : '*'.toUInt8 ∈ pattern
  · obtain ⟨before, after, rfl, hbefore⟩ := List.eq_append_cons_of_mem hstar
    have hafter : '*'.toUInt8 ∉ after := by
      rw [List.count_append, List.count_cons_self] at hone
      exact List.count_eq_zero.mp (by omega)
    obtain ⟨rest, rfl, hrest⟩ := (matches_literals hbefore).mp h
    obtain ⟨middle, tail, rfl, htail⟩ := matches_wild.mp hrest
    rw [(matches_self_iff hafter).mp htail]
    exact (segmentMatches_star hbefore).mpr ⟨middle, (List.append_assoc _ _ _).symm⟩
  · exact (segmentMatches_literal hstar).mpr ((matches_self_iff hstar).mp h).symm

/-- With a second `*` the pattern does not match itself with every `*` left out. -/
theorem not_matches_filter {pattern : Bytes} (htwo : 1 < pattern.count '*'.toUInt8) :
    segmentMatches pattern (pattern.filter (· ≠ '*'.toUInt8)) = false := by
  have hstar : '*'.toUInt8 ∈ pattern := List.count_pos_iff.mp (by omega)
  obtain ⟨before, after, hsplit, hbefore⟩ := List.eq_append_cons_of_mem hstar
  have hafter : '*'.toUInt8 ∈ after := by
    rw [hsplit, List.count_append, List.count_cons_self, List.count_eq_zero.mpr hbefore] at htwo
    exact List.count_pos_iff.mp (by omega)
  rw [Bool.eq_false_iff]
  intro hmatches
  rw [hsplit] at hmatches
  obtain ⟨middle, heq⟩ := (segmentMatches_star hbefore).mp hmatches
  have hmem : '*'.toUInt8 ∈ (before ++ '*'.toUInt8 :: after).filter (· ≠ '*'.toUInt8) := by
    rw [heq]
    exact List.mem_append_right _ hafter
  simpa using List.of_mem_filter hmem

/-- A pattern is read as a glob exactly when it has no second `*`. -/
theorem segmentMatches_glob_iff {pattern : Bytes} (hpattern : '/'.toUInt8 ∉ pattern) :
    (∀ segment : Bytes, '/'.toUInt8 ∉ segment →
      (segmentMatches pattern segment = true ↔ SegmentGlob pattern segment)) ↔
      pattern.count '*'.toUInt8 ≤ 1 := by
  constructor
  · intro h
    by_contra htwo
    have hslash : '/'.toUInt8 ∉ pattern.filter (· ≠ '*'.toUInt8) :=
      fun hmem => hpattern (List.mem_of_mem_filter hmem)
    have hmatches := (h _ hslash).mpr (matches_filter pattern)
    rw [not_matches_filter (by omega)] at hmatches
    contradiction
  · intro hone segment _
    exact ⟨segmentGlob_of_matches, matches_of_segmentGlob hone⟩

theorem one_star_glob : segmentMatches (ascii "a*b") (ascii "axxb") = true ↔
    SegmentGlob (ascii "a*b") (ascii "axxb") :=
  (segmentMatches_glob_iff (by decide)).mpr (by decide) (ascii "axxb") (by decide)

/-- A grant for every text around `_test_` refuses one. -/
theorem two_stars_refused :
    SegmentGlob (ascii "*_test_*") (ascii "a_test_b") ∧
      segmentMatches (ascii "*_test_*") (ascii "a_test_b") = false := by
  refine ⟨matches_wild.mpr ⟨ascii "a", ascii "_test_b", rfl, ?_⟩, by decide⟩
  change Matches '*'.toUInt8 (ascii "_test_" ++ ascii "*") (ascii "_test_" ++ ascii "b")
  refine (matches_literals (by decide)).mpr ⟨ascii "b", rfl, ?_⟩
  exact matches_wild.mpr ⟨ascii "b", [], rfl, matches_nil.mpr rfl⟩

end LlmTop
