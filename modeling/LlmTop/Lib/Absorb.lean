import Mathlib.Data.List.Basic

/-!
# Absorbing a sequence block by block

A state machine that consumes its input in blocks of `n` elements, holding back
an incomplete last block.  Input may arrive in pieces of any size.
-/
namespace LlmTop.Lib.Absorb

variable {α σ : Type} (n : Nat) (step : σ → List α → σ)

/-- The first `count` blocks of the input, in order. -/
def absorbBlocks : Nat → σ → List α → σ
  | 0, state, _ => state
  | count + 1, state, input => absorbBlocks count (step state (input.take n)) (input.drop n)

/-- Every complete block of the input. -/
def absorb (state : σ) (input : List α) : σ := absorbBlocks n step (input.length / n) state input

/-- The incomplete block at the end. -/
def leftover (input : List α) : List α := input.drop (n * (input.length / n))

theorem absorbBlocks_append (count : Nat) (state : σ) {input : List α} (more : List α)
    (h : n * count ≤ input.length) :
    absorbBlocks n step count state (input ++ more) = absorbBlocks n step count state input := by
  induction count generalizing state input with
  | zero => rfl
  | succ count ih =>
      have hn : n ≤ input.length := Nat.le_trans (Nat.le_mul_of_pos_right n (Nat.succ_pos count)) h
      rw [absorbBlocks, absorbBlocks, List.take_append_of_le_length hn,
        List.drop_append_of_le_length hn]
      exact ih _ (by rw [List.length_drop]; rw [Nat.mul_succ] at h; omega)

theorem absorbBlocks_add (first second : Nat) (state : σ) (input : List α) :
    absorbBlocks n step (first + second) state input =
      absorbBlocks n step second (absorbBlocks n step first state input)
        (input.drop (n * first)) := by
  induction first generalizing state input with
  | zero => simp [absorbBlocks]
  | succ first ih =>
      rw [show first + 1 + second = first + second + 1 by omega, absorbBlocks, ih, absorbBlocks,
        List.drop_drop, Nat.mul_succ, Nat.add_comm n]

theorem leftover_length (hn : 0 < n) (input : List α) : (leftover n input).length < n := by
  have hmod := Nat.mod_lt input.length hn
  have hdiv := Nat.div_add_mod input.length n
  rw [leftover, List.length_drop]
  omega

theorem leftover_length_eq (input : List α) :
    (leftover n input).length = input.length % n := by
  have hdiv := Nat.div_add_mod input.length n
  rw [leftover, List.length_drop]
  omega

theorem blocks_append (hn : 0 < n) (input more : List α) :
    (input ++ more).length / n =
      input.length / n + (leftover n input ++ more).length / n := by
  have hdiv := Nat.div_add_mod input.length n
  rw [List.length_append, List.length_append, leftover_length_eq]
  rw [show input.length + more.length =
    n * (input.length / n) + (input.length % n + more.length) by omega,
    Nat.mul_add_div hn]

/-- What was held back is absorbed together with what follows. -/
theorem absorb_append (hn : 0 < n) (state : σ) (input more : List α) :
    absorb n step state (input ++ more) =
      absorb n step (absorb n step state input) (leftover n input ++ more) := by
  have hle : n * (input.length / n) ≤ input.length := Nat.mul_div_le _ _
  have hcount := blocks_append n hn input more
  unfold absorb
  rw [hcount, absorbBlocks_add, absorbBlocks_append n step _ _ _ hle,
    List.drop_append_of_le_length hle]
  rfl

theorem leftover_append (hn : 0 < n) (input more : List α) :
    leftover n (input ++ more) = leftover n (leftover n input ++ more) := by
  have hle : n * (input.length / n) ≤ input.length := Nat.mul_div_le _ _
  have hcount := blocks_append n hn input more
  unfold leftover at hcount ⊢
  rw [hcount, Nat.mul_add, ← List.drop_drop, List.drop_append_of_le_length hle]

theorem absorb_of_length_lt {state : σ} {input : List α} (h : input.length < n) :
    absorb n step state input = state := by
  rw [absorb, Nat.div_eq_of_lt h]
  rfl

theorem leftover_of_length_lt {input : List α} (h : input.length < n) :
    leftover n input = input := by
  rw [leftover, Nat.div_eq_of_lt h]
  rfl

theorem absorb_block (hn : 0 < n) {state : σ} {block : List α} (h : block.length = n) :
    absorb n step state block = step state block := by
  rw [absorb, h, Nat.div_self hn, absorbBlocks, absorbBlocks, List.take_of_length_le (by omega)]

theorem leftover_block (hn : 0 < n) {block : List α} (h : block.length = n) :
    leftover n block = [] := by
  rw [leftover, h, Nat.div_self hn, Nat.mul_one, List.drop_of_length_le (by omega)]

/-- One complete block in front of the rest of the input. -/
theorem absorb_block_append (hn : 0 < n) {state : σ} {block : List α} (rest : List α)
    (h : block.length = n) :
    absorb n step state (block ++ rest) = absorb n step (step state block) rest := by
  rw [absorb_append n step hn, absorb_block n step hn h, leftover_block n hn h, List.nil_append]

/-- A relation that each piece extends holds of all pieces taken in turn. -/
theorem rel_foldl_pieces {take : σ → List α → σ} {Taken : σ → List α → Prop}
    (hstep : ∀ state input piece, Taken state input → Taken (take state piece) (input ++ piece))
    (pieces : List (List α)) {state : σ} {input : List α} (h : Taken state input) :
    Taken (pieces.foldl take state) (input ++ pieces.flatten) := by
  induction pieces generalizing state input with
  | nil =>
      rw [List.flatten_nil, List.append_nil]
      exact h
  | cons piece pieces ih =>
      rw [List.flatten_cons, List.foldl_cons, ← List.append_assoc]
      apply ih
      exact hstep state input piece h

end LlmTop.Lib.Absorb
