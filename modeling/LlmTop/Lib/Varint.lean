import Mathlib.Algebra.Order.Ring.Nat
import Mathlib.Tactic.Ring

/-!
# Numbers in groups of seven bits

Least significant group first; the high bit of a byte says that another group
follows.  The reader takes a bounded number of groups, and at the end of its
text it stops with what it has read.
-/
namespace LlmTop.Lib.Varint

/-- The number in at most `groups` bytes. -/
def encode : Nat → Nat → List UInt8
  | 0, _ => []
  | groups + 1, value =>
      if value < 128 then [UInt8.ofNat value]
      else UInt8.ofNat (value % 128 + 128) :: encode groups (value / 128)

/-- Adds the groups at the head of a text to `value`; `none` when there are too many. -/
def decode : Nat → Nat → Nat → List UInt8 → Option (Nat × List UInt8)
  | _, _, value, [] => some (value, [])
  | 0, _, _, _ :: _ => none
  | groups + 1, scale, value, byte :: rest =>
      let value := value + byte.toNat % 128 * scale
      if byte.toNat < 128 then some (value, rest) else decode groups (128 * scale) value rest

variable {groups scale acc value : Nat}

theorem encode_small (h : value < 128) : encode (groups + 1) value = [UInt8.ofNat value] :=
  if_pos h

theorem encode_large (h : ¬ value < 128) :
    encode (groups + 1) value = UInt8.ofNat (value % 128 + 128) :: encode groups (value / 128) :=
  if_neg h

theorem encode_ne_nil (groups value : Nat) : encode (groups + 1) value ≠ [] := by
  unfold encode
  split <;> simp

theorem toNat_ofNat {n : Nat} (h : n < 256) : (UInt8.ofNat n).toNat = n := by
  rw [UInt8.toNat_ofNat']
  exact Nat.mod_eq_of_lt h

theorem decode_last (h : value < 128) (rest : List UInt8) :
    decode (groups + 1) scale acc (UInt8.ofNat value :: rest) = some (acc + value * scale, rest) := by
  rw [decode, toNat_ofNat (by omega), if_pos h, Nat.mod_eq_of_lt h]

theorem decode_more (value : Nat) (rest : List UInt8) :
    decode (groups + 1) scale acc (UInt8.ofNat (value % 128 + 128) :: rest) =
      decode groups (128 * scale) (acc + value % 128 * scale) rest := by
  have hbyte : (value % 128 + 128) % 128 = value % 128 := by omega
  rw [decode, toNat_ofNat (by omega), if_neg (by omega), hbyte]

theorem div_lt_pow (h : value < 128 ^ (groups + 1)) : value / 128 < 128 ^ groups :=
  Nat.div_lt_of_lt_mul (by rwa [Nat.pow_succ, Nat.mul_comm] at h)

/-- A whole number, whatever follows it. -/
theorem decode_encode (hvalue : value < 128 ^ (groups + 1)) (rest : List UInt8) :
    decode (groups + 1) scale acc (encode (groups + 1) value ++ rest) =
      some (acc + value * scale, rest) := by
  induction groups generalizing scale acc value with
  | zero =>
      have hsmall : value < 128 := hvalue
      rw [encode_small hsmall]
      exact decode_last hsmall rest
  | succ groups ih =>
      by_cases hsmall : value < 128
      · rw [encode_small hsmall]
        exact decode_last hsmall rest
      · rw [encode_large hsmall, List.cons_append, decode_more, ih (div_lt_pow hvalue)]
        have hsplit : value % 128 * scale + value / 128 * (128 * scale) = value * scale := by
          conv_rhs => rw [← Nat.mod_add_div value 128]
          ring
        rw [Nat.add_assoc, hsplit]

/-- A number that ends early reads as its low groups. -/
theorem decode_take (hvalue : value < 128 ^ groups) {k : Nat}
    (hk : k < (encode groups value).length) :
    decode groups scale acc ((encode groups value).take k) =
      some (acc + value % 128 ^ k * scale, []) := by
  induction k generalizing groups scale acc value with
  | zero => simp [decode, Nat.mod_one]
  | succ k ih =>
      cases groups with
      | zero => simp [encode] at hk
      | succ groups =>
          by_cases hsmall : value < 128
          · rw [encode_small hsmall] at hk
            simp at hk
          · rw [encode_large hsmall] at hk ⊢
            rw [List.take_succ_cons, decode_more,
              ih (div_lt_pow hvalue) (by simpa using hk)]
            have hsplit : value % 128 * scale + value / 128 % 128 ^ k * (128 * scale) =
                value % 128 ^ (k + 1) * scale := by
              rw [Nat.pow_succ', Nat.mod_mul]
              ring
            rw [Nat.add_assoc, hsplit]

theorem decode_length {text rest : List UInt8} {result : Nat}
    (h : decode groups scale acc text = some (result, rest)) : rest.length ≤ text.length := by
  induction groups generalizing scale acc text with
  | zero =>
      cases text with
      | nil =>
          obtain ⟨-, rfl⟩ := Prod.mk.inj (Option.some.inj h)
          exact Nat.le_refl _
      | cons byte text => contradiction
  | succ groups ih =>
      cases text with
      | nil =>
          obtain ⟨-, rfl⟩ := Prod.mk.inj (Option.some.inj h)
          exact Nat.le_refl _
      | cons byte text =>
          rw [decode] at h
          split at h
          · obtain ⟨-, rfl⟩ := Prod.mk.inj (Option.some.inj h)
            exact Nat.le_succ _
          · exact Nat.le_succ_of_le (ih h)

/-- What was read stands in no fewer bytes than it takes to write it. -/
theorem decode_consumed {text rest : List UInt8} {result : Nat}
    (h : decode groups scale acc text = some (result, rest)) :
    ∃ value, result = acc + value * scale ∧ value < 128 ^ (text.length - rest.length) := by
  induction groups generalizing scale acc text with
  | zero =>
      cases text with
      | nil =>
          cases h
          exact ⟨0, by simp, by simp⟩
      | cons byte text => contradiction
  | succ groups ih =>
      cases text with
      | nil =>
          cases h
          exact ⟨0, by simp, by simp⟩
      | cons byte text =>
          have hgroup : byte.toNat % 128 < 128 := Nat.mod_lt _ (by decide)
          rw [decode] at h
          split at h
          · cases h
            refine ⟨byte.toNat % 128, rfl, ?_⟩
            rw [List.length_cons, Nat.add_sub_cancel_left, Nat.pow_one]
            exact hgroup
          · obtain ⟨value, rfl, hvalue⟩ := ih h
            refine ⟨byte.toNat % 128 + 128 * value, by ring, ?_⟩
            rw [List.length_cons, Nat.succ_sub (decode_length h), Nat.pow_succ]
            omega

theorem decode_advances {byte : UInt8} {text rest : List UInt8} {result : Nat}
    (h : decode (groups + 1) scale acc (byte :: text) = some (result, rest)) :
    rest.length < (byte :: text).length := by
  rw [decode] at h
  split at h
  · cases h
    exact Nat.lt_succ_self _
  · exact Nat.lt_succ_of_le (decode_length h)

theorem encode_length_le {bytes : Nat} (h : value < 128 ^ bytes) (hbytes : 0 < bytes) :
    (encode groups value).length ≤ bytes := by
  induction groups generalizing bytes value with
  | zero => exact Nat.zero_le _
  | succ groups ih =>
      by_cases hsmall : value < 128
      · rw [encode_small hsmall]
        exact hbytes
      · obtain ⟨bytes, rfl⟩ : ∃ n, bytes = n + 1 := ⟨bytes - 1, by omega⟩
        have hrest : 0 < bytes := by
          rcases Nat.eq_zero_or_pos bytes with rfl | hpos
          · exact absurd h hsmall
          · exact hpos
        rw [encode_large hsmall, List.length_cons]
        exact Nat.succ_le_succ (ih (div_lt_pow h) hrest)

end LlmTop.Lib.Varint
