import Mathlib.Data.List.Forall2

/-!
# Wildcards over sequences

A pattern is a list of parts, read against a list of items from the left: a key
stands for one item that it accepts, `any` for one item, `rest` for all that is
left.
-/
namespace LlmTop.Lib.Wildcard

inductive PatternPart (κ : Type) where
  | key (k : κ)
  | any
  | rest
deriving DecidableEq

variable {κ α : Type}

/-- A word that is not one of the two wildcards is a key. -/
def PatternPart.ofWord [DecidableEq κ] (anyWord restWord word : κ) : PatternPart κ :=
  if word = restWord then .rest else if word = anyWord then .any else .key word

def covers (accepts : κ → α → Bool) : List (PatternPart κ) → List α → Bool
  | [], items => items.isEmpty
  | .rest :: _, _ => true
  | .any :: _, [] => false
  | .any :: parts, _ :: items => covers accepts parts items
  | .key _ :: _, [] => false
  | .key k :: parts, item :: items => accepts k item && covers accepts parts items

/-- The keys with the items that they are held against. -/
def compared : List (PatternPart κ) → List α → List (κ × α)
  | .any :: parts, _ :: items => compared parts items
  | .key k :: parts, item :: items => (k, item) :: compared parts items
  | _, _ => []

/-- The items are as many as the pattern asks for. -/
def shaped (parts : List (PatternPart κ)) (items : List α) : Bool :=
  covers (fun _ _ => true) parts items

variable {accepts : κ → α → Bool} {parts : List (PatternPart κ)} {items : List α}

/-- One word of the pattern, as a loop over the two sequences tests it. -/
theorem covers_ofWord [DecidableEq κ] (anyWord restWord word : κ) :
    covers accepts (PatternPart.ofWord anyWord restWord word :: parts) items =
      if word = restWord then true
      else
        match items with
        | [] => false
        | item :: items =>
            if word = anyWord then covers accepts parts items
            else if accepts word item then covers accepts parts items
            else false := by
  unfold PatternPart.ofWord
  split
  · rfl
  · cases items with
    | nil => dsimp only; split <;> rfl
    | cons item items =>
        dsimp only
        split
        · rfl
        · rw [covers]
          cases accepts word item <;> rfl

theorem covers_any : covers accepts [.any] items = true ↔ ∃ item, items = [item] := by
  cases items with
  | nil => simp [covers]
  | cons item items => simp [covers]

theorem covers_iff : covers accepts parts items = true ↔
    shaped parts items = true ∧ ∀ pair ∈ compared parts items, accepts pair.1 pair.2 = true := by
  fun_induction covers accepts parts items with
  | case1 items => simp [shaped, covers, compared]
  | case2 => simp [shaped, covers, compared]
  | case3 => simp [shaped, covers]
  | case4 parts item items ih => simpa [shaped, covers, compared] using ih
  | case5 => simp [shaped, covers]
  | case6 k parts item items ih =>
      simp only [shaped, covers, compared, Bool.and_eq_true, Bool.true_and,
        List.forall_mem_cons] at ih ⊢
      rw [ih]
      exact and_left_comm

/-- Two tests of the compared pairs are one. -/
theorem covers_and {first second : κ → α → Bool} :
    covers (fun k item => first k item && second k item) parts items = true ↔
      covers first parts items = true ∧
        ∀ pair ∈ compared parts items, second pair.1 pair.2 = true := by
  rw [covers_iff, covers_iff, and_assoc, ← forall₂_and]
  simp only [Bool.and_eq_true]

/-- Parts and items in equal number, in front of more: a `rest` among them ends
the comparison. -/
theorem covers_append {front : List (PatternPart κ)} {before : List α}
    (hlength : front.length = before.length) :
    covers accepts (front ++ parts) (before ++ items) = true ↔
      covers accepts front before = true ∧
        (.rest ∈ front ∨ covers accepts parts items = true) := by
  induction front generalizing before with
  | nil =>
      obtain rfl := List.length_eq_zero_iff.mp hlength.symm
      simp [covers]
  | cons part front ih =>
      obtain ⟨item, before, rfl⟩ := List.exists_cons_of_length_eq_add_one hlength.symm
      have hrest := @ih before (Nat.succ.inj hlength)
      cases part with
      | rest => simp [covers]
      | any => simpa [covers] using hrest
      | key k => simp [covers, hrest, and_assoc]

/-- A pattern held against its own words. -/
theorem covers_self [DecidableEq κ] {accepts : κ → κ → Bool} {anyWord restWord : κ}
    {words : List κ} :
    covers accepts (words.map (PatternPart.ofWord anyWord restWord)) words = true ↔
      ∀ word ∈ words.takeWhile (· ≠ restWord), word ≠ anyWord → accepts word word = true := by
  induction words with
  | nil => simp [covers]
  | cons word words ih =>
      rw [List.map_cons, covers_ofWord, List.takeWhile_cons]
      by_cases hrest : word = restWord
      · simp [hrest]
      · rw [if_neg hrest, decide_eq_true hrest, if_pos rfl, List.forall_mem_cons, ← ih]
        dsimp only
        by_cases hany : word = anyWord
        · simp [hany]
        · cases accepts word word <;> simp [hany]

/-- Keys that accept only themselves are a prefix of the items. -/
theorem covers_literals {accepts : α → α → Bool} {parts : List (PatternPart α)} {keys : List α}
    (hkeys : ∀ k ∈ keys, ∀ item, accepts k item = true ↔ k = item) :
    covers accepts (keys.map .key ++ parts) items = true ↔
      ∃ back, items = keys ++ back ∧ covers accepts parts back = true := by
  induction keys generalizing items with
  | nil => simp
  | cons k keys ih =>
      have hrest : ∀ k ∈ keys, ∀ item, accepts k item = true ↔ k = item :=
        fun k' hk => hkeys k' (List.mem_cons_of_mem k hk)
      cases items with
      | nil => simp [covers]
      | cons item items =>
          rw [List.map_cons, List.cons_append, covers, Bool.and_eq_true,
            hkeys k List.mem_cons_self, ih hrest]
          constructor
          · rintro ⟨rfl, back, rfl, hback⟩
            exact ⟨back, rfl, hback⟩
          · rintro ⟨back, heq, hback⟩
            obtain ⟨rfl, rfl⟩ := List.cons.inj heq
            exact ⟨rfl, back, rfl, hback⟩

/-- The parts that take one item each, in front of the first `rest`. -/
def bound : List (PatternPart κ) → List (PatternPart κ)
  | [] => []
  | .rest :: _ => []
  | part :: parts => part :: bound parts

theorem bound_sublist (parts : List (PatternPart κ)) : List.Sublist (bound parts) parts := by
  fun_induction bound parts with
  | case1 => exact List.Sublist.refl []
  | case2 parts => exact List.nil_sublist _
  | case3 part parts _ ih => exact ih.cons_cons part

theorem rest_not_mem_bound (parts : List (PatternPart κ)) : .rest ∉ bound parts := by
  fun_induction bound parts with
  | case1 => exact List.not_mem_nil
  | case2 parts => exact List.not_mem_nil
  | case3 part parts hpart ih =>
      exact fun hmem => (List.mem_cons.mp hmem).elim (fun heq => hpart heq.symm) ih

/-- A pattern covers what its parts are filled in with. -/
theorem covers_fill {fill : PatternPart κ → α}
    (h : ∀ k, .key k ∈ bound parts → accepts k (fill (.key k)) = true) :
    covers accepts parts ((bound parts).map fill) = true := by
  induction parts with
  | nil => rfl
  | cons part parts ih =>
      cases part with
      | rest => rfl
      | any => exact ih fun k hk => h k (List.mem_cons_of_mem _ hk)
      | key k =>
          have hrest := ih fun k' hk => h k' (List.mem_cons_of_mem _ hk)
          rw [bound, List.map_cons, covers, h k List.mem_cons_self, hrest]
          · rfl
          · exact nofun

end LlmTop.Lib.Wildcard
