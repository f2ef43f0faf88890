import Mathlib.Data.List.Basic

/-!
# Globs over one text

A pattern in which each wildcard `w` stands for some text, and everything else
for itself.
-/
namespace LlmTop.Lib.Glob

variable {α : Type} {w : α}

inductive Matches (w : α) : List α → List α → Prop where
  | nil : Matches w [] []
  | literal {c : α} {pattern text : List α} (hc : c ≠ w) (h : Matches w pattern text) :
      Matches w (c :: pattern) (c :: text)
  | wild (filling : List α) {pattern text : List α} (h : Matches w pattern text) :
      Matches w (w :: pattern) (filling ++ text)

theorem matches_literals {front : List α} (hfront : w ∉ front)
    {pattern text : List α} :
    Matches w (front ++ pattern) text ↔ ∃ rest, text = front ++ rest ∧ Matches w pattern rest := by
  induction front generalizing text with
  | nil => simp
  | cons c front ih =>
      rw [List.mem_cons, not_or] at hfront
      constructor
      · intro h
        cases h with
        | literal _ htail =>
            obtain ⟨rest, rfl, hrest⟩ := (ih hfront.2).mp htail
            exact ⟨rest, rfl, hrest⟩
        | wild _ _ => exact absurd rfl hfront.1
      · rintro ⟨rest, rfl, hrest⟩
        exact Matches.literal (Ne.symm hfront.1) ((ih hfront.2).mpr ⟨rest, rfl, hrest⟩)

theorem matches_wild {pattern text : List α} :
    Matches w (w :: pattern) text ↔
      ∃ filling rest, text = filling ++ rest ∧ Matches w pattern rest := by
  constructor
  · intro h
    cases h with
    | literal hc _ => exact absurd rfl hc
    | wild filling htail => exact ⟨filling, _, rfl, htail⟩
  · rintro ⟨filling, rest, rfl, hrest⟩
    exact Matches.wild filling hrest

theorem matches_nil {text : List α} : Matches w [] text ↔ text = [] := by
  constructor
  · intro h
    cases h
    rfl
  · rintro rfl
    exact Matches.nil

/-- Without a wildcard a pattern matches only itself. -/
theorem matches_self_iff {pattern : List α} (h : w ∉ pattern) {text : List α} :
    Matches w pattern text ↔ text = pattern := by
  have hsplit : Matches w (pattern ++ []) text ↔ _ := matches_literals h
  rw [List.append_nil] at hsplit
  rw [hsplit]
  simp [matches_nil]

/-- Wildcards may stand for nothing. -/
theorem matches_filter [DecidableEq α] (pattern : List α) :
    Matches w pattern (pattern.filter (· ≠ w)) := by
  induction pattern with
  | nil => exact Matches.nil
  | cons c pattern ih =>
      by_cases hc : c = w
      · rw [List.filter_cons_of_neg (by simpa using hc), hc]
        exact Matches.wild [] ih
      · rw [List.filter_cons_of_pos (by simpa using hc)]
        exact Matches.literal hc ih

/-- A wildcard may stand for itself, so a pattern matches its own text. -/
theorem matches_refl (pattern : List α) : Matches w pattern pattern := by
  induction pattern with
  | nil => exact Matches.nil
  | cons c pattern ih =>
      by_cases hc : c = w
      · subst hc
        exact Matches.wild [c] ih
      · exact Matches.literal hc ih

end LlmTop.Lib.Glob
