import Mathlib.Data.List.Chain
import Mathlib.Order.Lattice

/-!
# Merging adjacent parts by rank

A list of words is reduced by joining two neighbours whose join is ranked, the
lowest rank first and the leftmost on ties, until no join is ranked.
-/
namespace LlmTop.Lib.PairMerge

variable {β ρ : Type} [LinearOrder ρ] (rank : List β → Option ρ)

/-- No neighbours can be joined at a rank that `allowed` excludes. -/
def Joins (allowed : ρ → Prop) (parts : List (List β)) : Prop :=
  parts.IsChain fun x y => ∀ r, rank (x ++ y) = some r → allowed r

/-- The neighbours `a`, `b` behind `front` are the ones to join next. -/
structure Best (front : List (List β)) (a b : List β) (back : List (List β)) (r : ρ) : Prop where
  ranked : rank (a ++ b) = some r
  left : Joins rank (r < ·) (front ++ [a])
  right : Joins rank (r ≤ ·) (b :: back)

inductive Reduces : List (List β) → List (List β) → Prop
  | done {parts : List (List β)} (h : Joins rank (fun _ => False) parts) : Reduces parts parts
  | join {front back result : List (List β)} {a b : List β} {r : ρ}
      (hbest : Best rank front a b back r) (h : Reduces (front ++ (a ++ b) :: back) result) :
      Reduces (front ++ a :: b :: back) result

variable {rank} {parts front front' back back' : List (List β)} {a a' b b' : List β} {r r' : ρ}

theorem Best.not_joins (h : Best rank front a b back r) :
    ¬ Joins rank (fun _ => False) (front ++ a :: b :: back) := fun hjoins =>
  (List.isChain_append_cons_cons.mp hjoins).2.1 r h.ranked

/-- Two choices in one list cannot stand in different places. -/
theorem Best.not_behind {mid : List (List β)} (h : Best rank front a b back r)
    (h' : Best rank (front ++ a :: mid) a' b' back' r')
    (heq : b :: back = mid ++ a' :: b' :: back') : False := by
  have hle : r ≤ r' := by
    have hright := h.right
    rw [heq] at hright
    exact (List.isChain_append_cons_cons.mp hright).2.1 r' h'.ranked
  have hlt : r' < r := by
    have hleft := h'.left
    rw [List.append_assoc, List.cons_append] at hleft
    cases mid with
    | nil =>
        obtain ⟨rfl, -⟩ := List.cons.inj heq
        exact (List.isChain_append_cons_cons.mp hleft).2.1 r h.ranked
    | cons c mid =>
        obtain ⟨rfl, -⟩ := List.cons.inj heq
        exact (List.isChain_append_cons_cons.mp hleft).2.1 r h.ranked
  exact absurd hlt (not_lt_of_ge hle)

theorem Best.unique (h : Best rank front a b back r) (h' : Best rank front' a' b' back' r')
    (heq : front ++ a :: b :: back = front' ++ a' :: b' :: back') :
    front = front' ∧ a = a' ∧ b = b' ∧ back = back' := by
  rcases List.append_eq_append_iff.mp heq with ⟨mid, rfl, hmid⟩ | ⟨mid, rfl, hmid⟩
  · cases mid with
    | nil => simpa using hmid
    | cons c mid =>
        obtain ⟨rfl, htail⟩ := List.cons.inj hmid
        exact (h.not_behind h' htail).elim
  · cases mid with
    | nil => simpa [eq_comm] using hmid
    | cons c mid =>
        obtain ⟨rfl, htail⟩ := List.cons.inj hmid
        exact (h'.not_behind h htail).elim

theorem reduces_iff {result : List (List β)} :
    Reduces rank parts result ↔ (Joins rank (fun _ => False) parts ∧ parts = result) ∨
      ∃ front a b back r, parts = front ++ a :: b :: back ∧ Best rank front a b back r ∧
        Reduces rank (front ++ (a ++ b) :: back) result := by
  constructor
  · rintro (hdone | ⟨hbest, h⟩)
    · exact Or.inl ⟨hdone, rfl⟩
    · exact Or.inr ⟨_, _, _, _, _, rfl, hbest, h⟩
  · rintro (⟨hdone, rfl⟩ | ⟨front, a, b, back, r, rfl, hbest, h⟩)
    · exact .done hdone
    · exact .join hbest h

/-- The reduction leaves no choice. -/
theorem Reduces.unique {result result' : List (List β)} (h : Reduces rank parts result)
    (h' : Reduces rank parts result') : result = result' := by
  induction h generalizing result' with
  | done hdone =>
      rcases reduces_iff.mp h' with ⟨-, rfl⟩ | ⟨front, a, b, back, r, rfl, hbest, -⟩
      · rfl
      · exact absurd hdone hbest.not_joins
  | join hbest _ ih =>
      rcases reduces_iff.mp h' with ⟨hdone, -⟩ | ⟨front, a, b, back, r, heq, hbest', h'⟩
      · exact absurd hdone hbest.not_joins
      · obtain ⟨rfl, rfl, rfl, rfl⟩ := hbest.unique hbest' heq
        exact ih h'

/-- A reduction only moves the borders of the words. -/
theorem Reduces.flatten {result : List (List β)} (h : Reduces rank parts result) :
    result.flatten = parts.flatten := by
  induction h with
  | done hdone => rfl
  | join hbest _ ih => rw [ih]; simp

theorem Reduces.length_le {result : List (List β)} (h : Reduces rank parts result) :
    result.length ≤ parts.length := by
  induction h with
  | done hdone => exact Nat.le_refl _
  | join hbest _ ih =>
      refine Nat.le_trans ih ?_
      simp only [List.length_append, List.length_cons]
      omega

/-- From ranked words only ranked words come. -/
theorem Reduces.ranked {result : List (List β)} (h : Reduces rank parts result)
    (hparts : ∀ word ∈ parts, (rank word).isSome = true) :
    ∀ word ∈ result, (rank word).isSome = true := by
  induction h with
  | done hdone => exact hparts
  | @join front back result a b r hbest _ ih =>
      refine ih fun word hword => ?_
      have hjoined : (rank (a ++ b)).isSome = true := by rw [hbest.ranked]; rfl
      rcases List.mem_append.mp hword with hword | hword
      · exact hparts word (List.mem_append_left _ hword)
      · rcases List.mem_cons.mp hword with rfl | hword
        · exact hjoined
        · exact hparts word (by simp [hword])

end LlmTop.Lib.PairMerge
