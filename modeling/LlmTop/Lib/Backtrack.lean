import Mathlib.Data.List.Basic

/-!
# Leftmost-first regular expressions

The meaning of a pattern at the front of a text is the list of the lengths it
can match, in the order in which a backtracking matcher tries them.
-/
namespace LlmTop.Lib.Backtrack

inductive Pattern (α : Type) where
  | one (p : α → Bool)
  | empty
  | seq (r s : Pattern α)
  | alt (r s : Pattern α)
  | star (r : Pattern α)
  | notAhead (r : Pattern α)

namespace Pattern

variable {α : Type}

/-- One greedy `*` after another round of the body, rounds of no progress left out. -/
def starLengths (body : List α → List Nat) : Nat → List α → List Nat
  | 0, _ => [0]
  | fuel + 1, text =>
      ((body text).filter (0 < ·)).flatMap
        (fun n => (starLengths body fuel (text.drop n)).map (n + ·)) ++ [0]

def lengths : Pattern α → List α → List Nat
  | one _, [] => []
  | one p, c :: _ => if p c then [1] else []
  | empty, _ => [0]
  | seq r s, text => (lengths r text).flatMap fun n => (lengths s (text.drop n)).map (n + ·)
  | alt r s, text => lengths r text ++ lengths s text
  | star r, text => starLengths (lengths r) text.length text
  | notAhead r, text => if (lengths r text).isEmpty then [0] else []

def plus (r : Pattern α) : Pattern α := seq r (star r)

def opt (r : Pattern α) : Pattern α := alt r empty

/-- `literal same word` matches `word`, letters compared by `same`. -/
def literal (same : α → α → Bool) : List α → Pattern α
  | [] => empty
  | c :: word => seq (one (same c)) (literal same word)

def first (r : Pattern α) (text : List α) : Option Nat := (lengths r text).head?

/-- The matches from left to right, each behind the one before. -/
def matchesFrom (r : Pattern α) : Nat → List α → List (List α)
  | 0, _ => []
  | _ + 1, [] => []
  | fuel + 1, c :: rest =>
      match first r (c :: rest) with
      | none => matchesFrom r fuel rest
      | some n => (c :: rest).take n :: matchesFrom r fuel ((c :: rest).drop (max n 1))

def findAll (r : Pattern α) (text : List α) : List (List α) := matchesFrom r text.length text

variable {r s : Pattern α} {p : α → Bool} {text : List α}

/-! ## Combinations -/

theorem first_alt : first (alt r s) text = (first r text).or (first s text) := List.head?_append

theorem first_seq :
    first (seq r s) text =
      (lengths r text).findSome? fun n => (first s (text.drop n)).map (n + ·) := by
  rw [first, lengths, List.head?_flatMap]
  congr 1
  funext n
  rw [first, List.head?_map]

theorem first_seq_none (h : first r text = none) : first (seq r s) text = none := by
  rw [first_seq, List.head?_eq_none_iff.mp h]
  rfl

theorem first_seq_some {n m : Nat} (h : first r text = some n)
    (hs : first s (text.drop n) = some m) : first (seq r s) text = some (n + m) := by
  obtain ⟨others, hlengths⟩ := List.head?_eq_some_iff.mp h
  rw [first_seq, hlengths, List.findSome?_cons, hs]
  rfl

theorem first_one_seq {c : α} {rest : List α} :
    first (seq (one p) s) (c :: rest) = if p c then (first s rest).map (1 + ·) else none := by
  rw [first_seq, lengths]
  by_cases hc : p c
  · rw [if_pos hc, if_pos hc, List.findSome?_singleton, List.drop_one, List.tail_cons]
  · rw [if_neg hc, if_neg hc, List.findSome?_nil]

theorem first_opt : first (opt r) text = (first r text).or (some 0) := first_alt

/-- The word stands at the front of the text. -/
def startsWith (same : α → α → Bool) : List α → List α → Bool
  | [], _ => true
  | _ :: _, [] => false
  | c :: word, d :: text => same c d && startsWith same word text

theorem first_literal {same : α → α → Bool} {word : List α} :
    first (literal same word) text =
      if startsWith same word text then some word.length else none := by
  induction word generalizing text with
  | nil => rfl
  | cons c word ih =>
      cases text with
      | nil => rfl
      | cons d text =>
          rw [literal, first_one_seq, ih, startsWith, List.length_cons, Nat.add_comm]
          cases same c d <;> cases startsWith same word text <;> rfl

@[simp] theorem first_one_nil : first (one p) [] = none := rfl

@[simp] theorem first_one_cons {c : α} {rest : List α} :
    first (one p) (c :: rest) = if p c then some 1 else none := by
  rw [first, lengths]
  split <;> rfl

/-- An optional letter is taken where what follows can then be matched. -/
theorem first_opt_seq {c : α} {rest : List α} :
    first (seq (opt (one p)) s) (c :: rest) =
      if p c then ((first s rest).map (1 + ·)).or (first s (c :: rest))
      else first s (c :: rest) := by
  have hzero : (first s (c :: rest)).map (0 + ·) = first s (c :: rest) := by
    cases first s (c :: rest) <;> simp
  rw [first_seq, opt, lengths, lengths, lengths]
  by_cases hc : p c
  · rw [if_pos hc, if_pos hc, List.singleton_append, List.findSome?_cons, List.findSome?_singleton,
      List.drop_zero, hzero, List.drop_one, List.tail_cons]
    cases first s rest <;> rfl
  · rw [if_neg hc, if_neg hc, List.nil_append, List.findSome?_singleton, List.drop_zero, hzero]

theorem first_notAhead_one :
    first (notAhead (one p)) text = if text.head?.any p then none else some 0 := by
  cases text with
  | nil => rfl
  | cons c rest =>
      rw [first, lengths, lengths, List.head?_cons, Option.any_some]
      by_cases hc : p c
      · rw [if_pos hc, if_pos hc]
        rfl
      · rw [if_neg hc, if_neg hc]
        rfl

/-! ## Runs of one class -/

theorem takeWhile_append_stop {run rest : List α} (hrun : ∀ c ∈ run, p c = true)
    (hrest : ∀ c ∈ rest.head?, p c = false) : (run ++ rest).takeWhile p = run := by
  rw [List.takeWhile_append_of_pos hrun]
  cases rest with
  | nil => simp
  | cons c rest => rw [List.takeWhile_cons, hrest c rfl, if_neg Bool.false_ne_true, List.append_nil]

theorem starLengths_one {fuel : Nat} (hfuel : text.length ≤ fuel) :
    starLengths (lengths (one p)) fuel text =
      (List.range ((text.takeWhile p).length + 1)).reverse := by
  induction text generalizing fuel with
  | nil => cases fuel <;> rfl
  | cons c rest ih =>
      obtain ⟨fuel, rfl⟩ := Nat.exists_eq_add_one_of_ne_zero (Nat.ne_zero_of_lt hfuel)
      rw [starLengths, lengths, List.takeWhile_cons]
      by_cases hc : p c
      · rw [if_pos hc, if_pos hc, List.length_cons, List.range_succ_eq_map, List.reverse_cons]
        have hrest := ih (Nat.le_of_succ_le_succ hfuel)
        simp [hrest, Nat.add_comm 1, List.map_reverse]
      · rw [if_neg hc, if_neg hc]
        rfl

/-- A greedy run is tried from its full length down. -/
theorem lengths_star_one :
    lengths (star (one p)) text = (List.range ((text.takeWhile p).length + 1)).reverse :=
  starLengths_one (Nat.le_refl _)

theorem lengths_plus_one :
    lengths (plus (one p)) text =
      ((List.range (text.takeWhile p).length).map (· + 1)).reverse := by
  cases text with
  | nil => rfl
  | cons c rest =>
      rw [plus, lengths, lengths, List.takeWhile_cons]
      by_cases hc : p c
      · rw [if_pos hc, if_pos hc, List.flatMap_singleton, List.drop_one, List.tail_cons,
          lengths_star_one, ← List.map_reverse, List.length_cons]
        simp [Nat.add_comm 1]
      · rw [if_neg hc, if_neg hc]
        rfl

theorem first_star_one : first (star (one p)) text = some (text.takeWhile p).length := by
  rw [first, lengths_star_one, List.range_succ, List.reverse_append]
  rfl

theorem first_plus_one :
    first (plus (one p)) text =
      if (text.takeWhile p).length = 0 then none else some (text.takeWhile p).length := by
  rw [first, lengths_plus_one]
  cases (text.takeWhile p).length with
  | zero => rfl
  | succ n =>
      rw [List.range_succ, List.map_append, List.reverse_append]
      rfl

/-- Trying from above, the first success is the largest one. -/
theorem findSome?_down {β : Type} {f : Nat → Option β} {n l : Nat} {b : β} (hl : l < n)
    (hf : f l = some b) (habove : ∀ k, l < k → k < n → f k = none) :
    (List.range n).reverse.findSome? f = some b := by
  induction n with
  | zero => exact absurd hl (Nat.not_lt_zero l)
  | succ n ih =>
      rw [List.range_succ, List.reverse_append, List.reverse_singleton, List.singleton_append,
        List.findSome?_cons]
      rcases Nat.lt_succ_iff_lt_or_eq.mp hl with hlt | rfl
      · rw [habove n hlt (Nat.lt_succ_self n)]
        exact ih hlt fun k hk hkn => habove k hk (Nat.lt_succ_of_lt hkn)
      · rw [hf]

end Pattern
end LlmTop.Lib.Backtrack
