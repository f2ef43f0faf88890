import LlmTop.Bytes
import Mathlib.Data.Nat.Digits.Defs

/-!
# Decimal texts

`std::to_string` and its inverse, the integer parser behind `std::stoi` and
`std::stoll`.
-/
namespace LlmTop

def digitByte (d : Nat) : UInt8 := UInt8.ofNat ('0'.toNat + d)

/-- `std::to_string` of an unsigned number. -/
def natDecimal (n : Nat) : Bytes :=
  if n = 0 then [digitByte 0] else (Nat.digits 10 n).reverse.map digitByte

/-- `std::to_string` of a signed number. -/
def toDecimal (n : Int) : Bytes :=
  if n < 0 then '-'.toUInt8 :: natDecimal n.natAbs else natDecimal n.natAbs

example : toDecimal (-120) = ascii "-120" := by decide

theorem digitByte_isDigit {d : Nat} (h : d < 10) : isDigit (digitByte d) = true := by
  have hall : ∀ d < 10, isDigit (digitByte d) = true := by decide
  exact hall d h

theorem digitByte_value {d : Nat} (h : d < 10) : (digitByte d).toNat - '0'.toNat = d := by
  have hall : ∀ d < 10, (digitByte d).toNat - '0'.toNat = d := by decide
  exact hall d h

theorem natDecimal_ne_nil (n : Nat) : natDecimal n ≠ [] := by
  unfold natDecimal
  split
  · simp
  · simpa [Nat.digits_ne_nil_iff_ne_zero] using ‹¬n = 0›

theorem isDigit_of_mem_natDecimal {n : Nat} {c : UInt8} (h : c ∈ natDecimal n) :
    isDigit c = true := by
  unfold natDecimal at h
  split at h
  · obtain rfl := List.mem_singleton.mp h
    decide
  · obtain ⟨d, hd, rfl⟩ := List.mem_map.mp h
    exact digitByte_isDigit (Nat.digits_lt_base (by decide) (List.mem_reverse.mp hd))

/-- Reading digits that are written most significant first. -/
theorem digitsValue_reverse {digits : List Nat} (h : ∀ d ∈ digits, d < 10) :
    digitsValue (digits.reverse.map digitByte) = Nat.ofDigits 10 digits := by
  unfold digitsValue
  induction digits with
  | nil => rfl
  | cons d rest ih =>
      rw [List.reverse_cons, List.map_append, List.foldl_append, List.map_singleton,
        List.foldl_cons, List.foldl_nil, ih fun e he => h e (List.mem_cons_of_mem d he),
        digitByte_value (h d List.mem_cons_self), Nat.ofDigits_cons, Nat.add_comm]

theorem digitsValue_natDecimal (n : Nat) : digitsValue (natDecimal n) = n := by
  unfold natDecimal
  split
  · rename_i hzero
    rw [hzero]
    rfl
  · rw [digitsValue_reverse fun d hd => Nat.digits_lt_base (by decide) hd, Nat.ofDigits_digits]

theorem toDecimal_head (n : Int) : ∃ c rest, toDecimal n = c :: rest ∧
    (c = '-'.toUInt8 ∨ isDigit c = true) := by
  unfold toDecimal
  split
  · exact ⟨_, _, rfl, Or.inl rfl⟩
  · obtain ⟨c, rest, hdecimal⟩ := List.exists_cons_of_ne_nil (natDecimal_ne_nil n.natAbs)
    have hmem : c ∈ natDecimal n.natAbs := by simp [hdecimal]
    exact ⟨c, rest, hdecimal, Or.inr (isDigit_of_mem_natDecimal hmem)⟩

theorem not_isSpace_of_isDigit {c : UInt8} (h : isDigit c = true) : isSpace c = false := by
  have hall := of_all_bytes (p := fun c => !isDigit c || !isSpace c) (by decide +kernel) c
  simpa [h] using hall

theorem not_sign_of_isDigit {c : UInt8} (h : isDigit c = true) :
    c ≠ '-'.toUInt8 ∧ c ≠ '+'.toUInt8 := by
  constructor <;>
  · rintro rfl
    revert h
    decide

/-- The digits behind an optional sign, as the integer parser takes them apart. -/
theorem parseInteger_digits {low high : Int} {digits : Bytes} (negative : Bool)
    (hne : digits ≠ []) (hdigits : ∀ c ∈ digits, isDigit c = true) :
    parseInteger low high ((if negative then ['-'.toUInt8] else []) ++ digits) =
      let value : Int := if negative then -digitsValue digits else digitsValue digits
      if low ≤ value ∧ value ≤ high then some value else none := by
  obtain ⟨c, rest, rfl⟩ := List.exists_cons_of_ne_nil hne
  have hc := hdigits c List.mem_cons_self
  obtain ⟨hminus, hplus⟩ := not_sign_of_isDigit hc
  have htake : (c :: rest).takeWhile isDigit = c :: rest := List.takeWhile_eq_self_iff.mpr hdigits
  cases negative with
  | true =>
      have hspace : isSpace '-'.toUInt8 = false := by decide
      simp [parseInteger, hspace, htake]
  | false => simp [parseInteger, not_isSpace_of_isDigit hc, hminus, hplus, htake]

theorem parseInteger_toDecimal {low high n : Int} (hlow : low ≤ n) (hhigh : n ≤ high) :
    parseInteger low high (toDecimal n) = some n := by
  have hdigits := @parseInteger_digits low high _ (decide (n < 0))
    (natDecimal_ne_nil n.natAbs) fun _ h => isDigit_of_mem_natDecimal h
  rw [digitsValue_natDecimal] at hdigits
  unfold toDecimal
  by_cases hneg : n < 0
  · have hvalue : -(n.natAbs : Int) = n := by omega
    simpa only [hneg, decide_true, if_true, hvalue, hlow, hhigh, and_self, List.cons_append,
      List.nil_append] using hdigits
  · have hvalue : (n.natAbs : Int) = n := by omega
    simpa only [hneg, decide_false, Bool.false_eq_true, if_false, hvalue, hlow, hhigh, and_self,
      if_true, List.nil_append] using hdigits

theorem parseInteger_range {low high n : Int} {text : Bytes}
    (h : parseInteger low high text = some n) : low ≤ n ∧ n ≤ high := by
  unfold parseInteger at h
  dsimp only at h
  split_ifs at h
  all_goals
    obtain rfl := Option.some.inj h
    assumption

end LlmTop
