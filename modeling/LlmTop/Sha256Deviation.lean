import LlmTop.Sha256Conformance

/-!
# The effect of the sixth round constant

Entry 5 of the table is not the standard's constant, so one compression from
the same chaining value never gives the standard's result.  The two hashes can
meet again only where different chaining values collide in the last block.
-/
namespace LlmTop.Sha256
open Lib.Absorb

theorem tableConstant_eq {t : Nat} (h : t < 64) (hne : t ≠ 5) :
    tableConstant t = Fips180.roundConstant t := by
  have hall : ∀ t < 64, t ≠ 5 →
      tableConstant t = UInt32.ofNat (Nat.nthRoot 3 (Fips180.primes.getD t 0 * 2 ^ 96)) := by
    rw [primes_eq]
    decide +kernel
  exact hall t h hne

theorem tableConstant_five_ne : tableConstant 5 ≠ Fips180.roundConstant 5 := by
  unfold Fips180.roundConstant
  rw [primes_eq]
  decide +kernel

/-! ## One compression -/

theorem step_injective {v v' : Fips180.Variables} {k w : Word}
    (h : Fips180.step v k w = Fips180.step v' k w) : v = v' := by
  obtain ⟨a, b, c, d, e, f, g, h₀⟩ := v
  obtain ⟨a', b', c', d', e', f', g', h₀'⟩ := v'
  simp only [Fips180.step, Fips180.Variables.mk.injEq] at h
  obtain ⟨htop, rfl, rfl, rfl, hnew, rfl, rfl, rfl⟩ := h
  -- The new `a` gives back `h`, and the new `e` then gives back `d`.
  obtain rfl : h₀ = h₀' := by
    simpa only [UInt32.add_left_inj] using htop
  obtain rfl : d = d' := by
    simpa only [UInt32.add_left_inj] using hnew
  rfl

theorem step_constant_ne (v : Fips180.Variables) {k k' : Word} (w : Word) (h : k ≠ k') :
    Fips180.step v k w ≠ Fips180.step v k' w := by
  intro heq
  have htop := congrArg Fips180.Variables.a heq
  simp only [Fips180.step, UInt32.add_left_inj, UInt32.add_right_inj] at htop
  exact h htop

theorem steps_before_six (H : Fips180.Hash) (block : Bytes) {t : Nat} (h : t ≤ 5) :
    Fips180.steps tableConstant H block t = Fips180.steps Fips180.roundConstant H block t := by
  induction t with
  | zero => rw [Fips180.steps, Fips180.steps]
  | succ t ih =>
      rw [Fips180.steps, Fips180.steps, ih (by omega), tableConstant_eq (by omega) (by omega)]

/-- From the sixth step on the variables differ: a step is injective. -/
theorem steps_after_six (H : Fips180.Hash) (block : Bytes) {t : Nat} (h : 6 ≤ t) (hle : t ≤ 64) :
    Fips180.steps tableConstant H block t ≠ Fips180.steps Fips180.roundConstant H block t := by
  induction t, h using Nat.le_induction with
  | base =>
      have hsixth (k : Nat → Word) : Fips180.steps k H block 6 =
          Fips180.step (Fips180.steps k H block 5) (k 5) (Fips180.W block 5) := rfl
      rw [hsixth, hsixth, steps_before_six H block (Nat.le_refl 5)]
      exact step_constant_ne _ _ tableConstant_five_ne
  | succ t ht ih =>
      rw [Fips180.steps, Fips180.steps, tableConstant_eq (by omega) (by omega)]
      exact fun heq => ih (by omega) (step_injective heq)

theorem finish_injective {H : Fips180.Hash} {v v' : Fips180.Variables}
    (h : Fips180.finish H v = Fips180.finish H v') : v = v' := by
  obtain ⟨a, b, c, d, e, f, g, h₀⟩ := v
  obtain ⟨a', b', c', d', e', f', g', h₀'⟩ := v'
  simpa only [Fips180.finish, Vector.mk.injEq, Array.mk.injEq, List.cons.injEq,
    UInt32.add_left_inj, and_true, Fips180.Variables.mk.injEq] using h

theorem compress_ne (H : Fips180.Hash) (block : Bytes) :
    Fips180.compress tableConstant H block ≠ Fips180.compress Fips180.roundConstant H block :=
  fun heq => steps_after_six H block (by omega) (Nat.le_refl 64) (finish_injective heq)

/-! ## The digest -/

theorem bigEndian_word_injective {x y : Word}
    (h : Fips180.bigEndian 4 x.toNat = Fips180.bigEndian 4 y.toNat) : x = y := by
  have hx := x.toNat_lt
  have hy := y.toNat_lt
  simp only [Fips180.bigEndian, List.range, List.range.loop, List.map, List.cons.injEq,
    and_true] at h
  obtain ⟨h0, h1, h2, h3⟩ := h
  have h0 := congrArg UInt8.toNat h0
  have h1 := congrArg UInt8.toNat h1
  have h2 := congrArg UInt8.toNat h2
  have h3 := congrArg UInt8.toNat h3
  simp only [UInt8.toNat_ofNat'] at h0 h1 h2 h3
  apply UInt32.toNat_inj.mp
  omega

theorem digest_injective {H H' : Fips180.Hash} (h : Fips180.digest H = Fips180.digest H') :
    H = H' := by
  have words : ∀ {xs ys : List Word}, xs.length = ys.length →
      xs.flatMap (fun w => Fips180.bigEndian 4 w.toNat) =
        ys.flatMap (fun w => Fips180.bigEndian 4 w.toNat) → xs = ys := by
    intro xs
    induction xs with
    | nil =>
        intro ys hlen _
        exact (List.length_eq_zero_iff.mp hlen.symm).symm
    | cons x xs ih =>
        intro ys hlen heq
        cases ys with
        | nil => cases hlen
        | cons y ys =>
            have hlen4 (w : Word) : (Fips180.bigEndian 4 w.toNat).length = 4 := by
              simp [Fips180.bigEndian]
            rw [List.flatMap_cons, List.flatMap_cons] at heq
            obtain ⟨hhead, htail⟩ := List.append_inj heq (by rw [hlen4, hlen4])
            rw [bigEndian_word_injective hhead, ih (by simpa using hlen) htail]
  exact Vector.toList_inj.mp (words (by simp) h)

/-! ## The last block -/

def paddedFront (x : Bytes) : Bytes := (Fips180.pad x).take ((Fips180.pad x).length - 64)
def lastBlock (x : Bytes) : Bytes := (Fips180.pad x).drop ((Fips180.pad x).length - 64)

/-- The chaining value in front of the last padded block. -/
def chain (k : Nat → Word) (x : Bytes) : Fips180.Hash :=
  absorb 64 (Fips180.compress k) Fips180.initialHash (paddedFront x)

theorem pad_length (x : Bytes) :
    (Fips180.pad x).length = 64 * ((x.length + 8) / 64) + 64 := by
  rw [pad_eq]
  simp only [List.length_append, List.length_singleton, List.length_replicate, zeroBytes,
    Fips180.bigEndian, List.length_map, List.length_range]
  split <;> omega

theorem sha256With_eq (k : Nat → Word) (x : Bytes) :
    Fips180.sha256With k x = Fips180.digest (Fips180.compress k (chain k x) (lastBlock x)) := by
  have hlen := pad_length x
  have hfront : (paddedFront x).length = 64 * ((x.length + 8) / 64) := by
    rw [paddedFront, List.length_take]
    omega
  have hlast : (lastBlock x).length = 64 := by
    rw [lastBlock, List.length_drop]
    omega
  have hnone : leftover 64 (paddedFront x) = [] := by
    apply List.length_eq_zero_iff.mp
    rw [leftover_length_eq, hfront]
    omega
  have hpad : Fips180.pad x = paddedFront x ++ lastBlock x := (List.take_append_drop _ _).symm
  rw [Fips180.sha256With, hpad, absorb_append 64 _ (by decide), hnone, List.nil_append,
    absorb_block 64 _ (by decide) hlast]
  rfl

theorem chain_short (k : Nat → Word) {x : Bytes} (h : x.length ≤ 55) :
    chain k x = Fips180.initialHash := by
  have hlen := pad_length x
  have hfront : paddedFront x = [] := by
    rw [paddedFront, show (Fips180.pad x).length - 64 = 0 by omega, List.take_zero]
  rw [chain, hfront]
  rfl

/-- The last compression of the in-tree hash on `x` and of the standard's on
`y` give one value. -/
def Collide (x y : Bytes) : Prop :=
  Fips180.compress tableConstant (chain tableConstant x) (lastBlock x) =
    Fips180.compress Fips180.roundConstant (chain Fips180.roundConstant y) (lastBlock y)

theorem hash_eq_sha256_iff (x y : Bytes) : hash x = Fips180.sha256 y ↔ Collide x y := by
  rw [hash_eq, Fips180.sha256, sha256With_eq, sha256With_eq]
  exact ⟨digest_injective, congrArg Fips180.digest⟩

/-- On one message a collision needs chaining values that already differ. -/
theorem chain_ne_of_collide {x : Bytes} (h : Collide x x) :
    chain tableConstant x ≠ chain Fips180.roundConstant x := by
  intro heq
  unfold Collide at h
  rw [heq] at h
  exact compress_ne _ _ h

theorem hash_ne_sha256 {x : Bytes} (h : x.length ≤ 55) : hash x ≠ Fips180.sha256 x := by
  intro heq
  apply chain_ne_of_collide ((hash_eq_sha256_iff x x).mp heq)
  rw [chain_short _ h, chain_short _ h]

/-! ## HMAC -/

/-- The message of the outer hash. -/
def outer (H : Bytes → Bytes) (key text : Bytes) : Bytes :=
  let key := if 64 < key.length then H key else key
  let key := key ++ List.replicate (64 - key.length) 0
  key.map (· ^^^ 0x5c) ++ H (key.map (· ^^^ 0x36) ++ text)

theorem sha256With_length (k : Nat → Word) (x : Bytes) : (Fips180.sha256With k x).length = 32 :=
  digest_length _

/-- With one whole block and a short rest the chaining value is one compression. -/
theorem chain_block (k : Nat → Word) {block rest : Bytes} (hblock : block.length = 64)
    (hrest : rest.length ≤ 55) :
    chain k (block ++ rest) = Fips180.compress k Fips180.initialHash block := by
  have hlen := pad_length (block ++ rest)
  rw [List.length_append, hblock] at hlen
  have hfront : paddedFront (block ++ rest) = block := by
    rw [paddedFront, show (Fips180.pad (block ++ rest)).length - 64 = block.length by omega, pad_eq,
      List.append_assoc, List.take_left]
  rw [chain, hfront, absorb_block 64 _ (by decide) hblock]

theorem chain_outer_ne {key : Bytes} (text : Bytes) (h : key.length ≤ 64) :
    chain tableConstant (outer hash key text) ≠
      chain Fips180.roundConstant (outer Fips180.sha256 key text) := by
  have hkey : (key ++ List.replicate (64 - key.length) 0).length = 64 := by
    rw [List.length_append, List.length_replicate]
    omega
  have hshort : ¬ 64 < key.length := Nat.not_lt.mpr h
  simp only [outer, hshort, if_false]
  rw [chain_block _ (by rw [List.length_map, hkey]) (by rw [hash_eq, sha256With_length]; omega),
    chain_block _ (by rw [List.length_map, hkey])
      (by rw [Fips180.sha256, sha256With_length]; omega)]
  exact compress_ne _ _

theorem hmac_eq_iff (key text : Bytes) :
    hmac key text = Fips180.hmac Fips180.sha256 key text ↔
      Collide (outer hash key text) (outer Fips180.sha256 key text) := by
  rw [hmac_eq]
  exact hash_eq_sha256_iff (outer hash key text) (outer Fips180.sha256 key text)

/-! ## Conformance -/

/-- The in-tree hash meets the standard on a message exactly where two different
chaining values collide in the last block, so never on a message of one block;
HMAC meets RFC 2104 exactly where the outer hash does so. -/
theorem conforms_iff_collide (message key text : Bytes) :
    (hash message = Fips180.sha256 message ↔
      55 < message.length ∧
        chain tableConstant message ≠ chain Fips180.roundConstant message ∧
        Collide message message) ∧
    (hmac key text = Fips180.hmac Fips180.sha256 key text ↔
      (key.length ≤ 64 →
        chain tableConstant (outer hash key text) ≠
          chain Fips180.roundConstant (outer Fips180.sha256 key text)) ∧
        Collide (outer hash key text) (outer Fips180.sha256 key text)) := by
  constructor
  · constructor
    · intro heq
      have hcollide := (hash_eq_sha256_iff message message).mp heq
      refine ⟨?_, chain_ne_of_collide hcollide, hcollide⟩
      by_contra hshort
      exact hash_ne_sha256 (Nat.le_of_not_lt hshort) heq
    · rintro ⟨-, -, hcollide⟩
      exact (hash_eq_sha256_iff message message).mpr hcollide
  · rw [hmac_eq_iff]
    exact ⟨fun hcollide => ⟨chain_outer_ne text, hcollide⟩, And.right⟩

/-- The one-block message of the standard's own example. -/
theorem hash_abc_ne : hash (ascii "abc") ≠ Fips180.sha256 (ascii "abc") :=
  hash_ne_sha256 (by decide)

end LlmTop.Sha256
