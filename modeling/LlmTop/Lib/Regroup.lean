import Mathlib.Data.Nat.Bitwise
import Mathlib.Data.Nat.Digits.Lemmas

/-!
# Digits of one width read as digits of another

A stream of `w`-bit digits, most significant first, goes through an accumulator
that gives out `v`-bit digits as soon as it holds one.  What was given out and
what is still held are the number that was read, so the digits given out are
determined by the input.  An accumulator of `n` bits that wraps around does as
well, as long as the bits that are held fit.
-/
namespace LlmTop.Lib.Regroup

/-- The number with these `w`-bit digits. -/
def value (w : Nat) (digits : List Nat) : Nat := Nat.ofDigits (2 ^ w) digits.reverse

section Value

variable (w : Nat)

theorem value_append (front back : List Nat) :
    value w (front ++ back) = value w front * 2 ^ (w * back.length) + value w back := by
  rw [value, List.reverse_append, Nat.ofDigits_append, List.length_reverse, ← Nat.pow_mul]
  exact (Nat.add_comm _ _).trans (congrArg (· + _) (Nat.mul_comm _ _))

theorem value_concat (digits : List Nat) (d : Nat) :
    value w (digits ++ [d]) = value w digits * 2 ^ w + d := by
  have hone : value w [d] = d := Nat.ofDigits_singleton
  rw [value_append, hone, List.length_singleton, Nat.mul_one]

variable {w}

theorem value_inj (hw : 0 < w) {digits digits' : List Nat} (hlength : digits.length = digits'.length)
    (hlt : ∀ d ∈ digits, d < 2 ^ w) (hlt' : ∀ d ∈ digits', d < 2 ^ w)
    (h : value w digits = value w digits') : digits = digits' := by
  refine List.reverse_injective (Nat.ofDigits_inj_of_len_eq (Nat.one_lt_two_pow (by omega)) ?_ ?_ ?_ h)
  · rw [List.length_reverse, List.length_reverse, hlength]
  · exact fun d hd => hlt d (List.mem_reverse.mp hd)
  · exact fun d hd => hlt' d (List.mem_reverse.mp hd)

end Value

/-- Of the digits read, `out` was given out and the number `held` of `kept` bits is left. -/
structure Reads (w v : Nat) (digits out : List Nat) (kept held : Nat) : Prop where
  bits : w * digits.length = v * out.length + kept
  held_lt : held < 2 ^ kept
  out_lt : ∀ b ∈ out, b < 2 ^ v
  value_eq : value w digits = value v out * 2 ^ kept + held

variable {w v kept held : Nat} {digits out : List Nat}

theorem Reads.nil : Reads w v [] [] 0 0 where
  bits := rfl
  held_lt := Nat.one_pos
  out_lt := List.forall_mem_nil _
  value_eq := rfl

/-- A digit goes below the bits that are held. -/
theorem Reads.read (h : Reads w v digits out kept held) {d : Nat} (hd : d < 2 ^ w) :
    Reads w v (digits ++ [d]) out (kept + w) (held * 2 ^ w + d) where
  bits := by
    rw [List.length_append, List.length_singleton, Nat.mul_add_one, h.bits, Nat.add_assoc]
  held_lt := by
    calc held * 2 ^ w + d < (held + 1) * 2 ^ w := by rw [Nat.add_mul, Nat.one_mul]; omega
      _ ≤ 2 ^ kept * 2 ^ w := Nat.mul_le_mul_right _ h.held_lt
      _ = 2 ^ (kept + w) := (Nat.pow_add 2 kept w).symm
  out_lt := h.out_lt
  value_eq := by
    rw [value_concat, h.value_eq, Nat.add_mul, Nat.mul_assoc, ← Nat.pow_add, Nat.add_assoc]

/-- The upper bits that are held are given out. -/
theorem Reads.give (h : Reads w v digits out (kept + v) held) :
    Reads w v digits (out ++ [held / 2 ^ kept]) kept (held % 2 ^ kept) where
  bits := by
    rw [h.bits, List.length_append, List.length_singleton, Nat.mul_add_one]
    omega
  held_lt := Nat.mod_lt _ (Nat.two_pow_pos kept)
  out_lt := by
    refine List.forall_mem_append.mpr ⟨h.out_lt, List.forall_mem_singleton.mpr ?_⟩
    refine Nat.div_lt_of_lt_mul ?_
    rw [← Nat.pow_add]
    exact h.held_lt
  value_eq := by
    have hcut := Nat.div_add_mod held (2 ^ kept)
    rw [value_concat, h.value_eq, Nat.add_mul, Nat.mul_assoc, ← Nat.pow_add, Nat.add_comm v,
      Nat.add_assoc, Nat.mul_comm (held / 2 ^ kept), hcut]

/-- Digits that are exactly digits of the other width go in front. -/
theorem Reads.prepend {front front' : List Nat} (hfront : Reads w v front front' 0 0)
    (h : Reads w v digits out kept held) :
    Reads w v (front ++ digits) (front' ++ out) kept held where
  bits := by
    have hbits := hfront.bits
    have hbits' := h.bits
    simp only [List.length_append, Nat.mul_add]
    omega
  held_lt := h.held_lt
  out_lt := List.forall_mem_append.mpr ⟨hfront.out_lt, h.out_lt⟩
  value_eq := by
    have hvalue := hfront.value_eq
    rw [Nat.pow_zero, Nat.mul_one, Nat.add_zero] at hvalue
    rw [value_append, value_append, hvalue, h.value_eq, h.bits, Nat.pow_add]
    ring

/-- What is given out is determined by what is read, once less than a digit is held. -/
theorem Reads.unique {out' : List Nat} {kept' held' : Nat} (h : Reads w v digits out kept held)
    (h' : Reads w v digits out' kept' held') (hkept : kept < v) (hkept' : kept' < v) : out = out' := by
  have hbits := h.bits.symm.trans h'.bits
  have hlength : out.length = out'.length := by
    have hdiv := congrArg (· / v) hbits
    simpa only [Nat.mul_add_div (Nat.zero_lt_of_lt hkept), Nat.div_eq_of_lt hkept,
      Nat.div_eq_of_lt hkept', Nat.add_zero] using hdiv
  obtain rfl : kept = kept' := by
    rw [hlength] at hbits
    omega
  have hvalue := congrArg (· / 2 ^ kept) (h.value_eq.symm.trans h'.value_eq)
  rw [Nat.mul_comm, Nat.mul_add_div (Nat.two_pow_pos kept), Nat.div_eq_of_lt h.held_lt, Nat.mul_comm,
    Nat.mul_add_div (Nat.two_pow_pos kept), Nat.div_eq_of_lt h'.held_lt] at hvalue
  exact value_inj (Nat.zero_lt_of_lt hkept) hlength h.out_lt h'.out_lt hvalue

/-! ## Accumulators that wrap around -/

section Word

variable {n : Nat} (x : BitVec n)

/-- Shifting a digit in keeps the low bits below the word's size. -/
theorem shiftIn_mod {d : BitVec n} (hd : d.toNat < 2 ^ w) (hfits : kept + w ≤ n) :
    (x <<< w ||| d).toNat % 2 ^ (kept + w) = x.toNat % 2 ^ kept * 2 ^ w + d.toNat := by
  rw [← Nat.shiftLeft_eq, Nat.shiftLeft_add_eq_or_of_lt hd]
  refine Nat.eq_of_testBit_eq fun i => ?_
  rw [BitVec.toNat_or, BitVec.toNat_shiftLeft]
  simp only [Nat.testBit_mod_two_pow, Nat.testBit_or, Nat.testBit_shiftLeft]
  by_cases hi : i < kept + w
  · have hn : i < n := Nat.lt_of_lt_of_le hi hfits
    have hkept : i - w < kept ∨ i < w := by omega
    rcases hkept with hkept | hlow
    · simp [hi, hn, hkept]
    · have hshift : ¬ w ≤ i := Nat.not_le_of_lt hlow
      simp [hi, hshift]
  · have hlarge : d.toNat < 2 ^ i := Nat.lt_of_lt_of_le hd (Nat.pow_le_pow_right (by decide) (by omega))
    have hkept : ¬ i - w < kept := by omega
    simp [hi, hkept, Nat.testBit_lt_two_pow hlarge]

/-- An arithmetic shift brings copies of the sign in at the top only. -/
theorem shiftOut_mod {s : Nat} (hfits : s + v ≤ n) :
    (x.sshiftRight s).toNat % 2 ^ v = x.toNat / 2 ^ s % 2 ^ v := by
  refine Nat.eq_of_testBit_eq fun i => ?_
  rw [Nat.testBit_mod_two_pow, Nat.testBit_mod_two_pow, Nat.testBit_div_two_pow, BitVec.testBit_toNat,
    BitVec.testBit_toNat]
  by_cases hi : i < v
  · have hlow : s + i < n := by omega
    have hn : ¬ n ≤ i := by omega
    rw [BitVec.getLsbD_sshiftRight]
    simp [hi, hlow, hn, Nat.add_comm]
  · simp [hi]

end Word

end LlmTop.Lib.Regroup
