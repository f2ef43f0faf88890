import LlmTop.Lib.Regroup

/-!
# Base 64

The encoding of RFC 4648: groups of 24 bits as four characters of an alphabet,
and zero bits and pad characters at the end of a text that is not all groups.
-/
namespace LlmTop.Lib.Base64

open Regroup

/-- The alphabet of section 4. -/
def standard : List UInt8 :=
  "ABCDEFGHIJKLMNOPQRSTUVWXYZabcdefghijklmnopqrstuvwxyz0123456789+/".toList.map Char.toUInt8

/-- The alphabet of section 5, safe in URLs and file names. -/
def urlSafe : List UInt8 :=
  "ABCDEFGHIJKLMNOPQRSTUVWXYZabcdefghijklmnopqrstuvwxyz0123456789-_".toList.map Char.toUInt8

theorem length_standard : standard.length = 64 := by decide

theorem length_urlSafe : urlSafe.length = 64 := by decide

/-- The groups of six bits. -/
def sextets : List UInt8 → List Nat
  | [] => []
  | [x] => [x.toNat / 4, x.toNat % 4 * 16]
  | [x, y] => [x.toNat / 4, x.toNat % 4 * 16 + y.toNat / 16, y.toNat % 16 * 4]
  | x :: y :: z :: rest =>
      x.toNat / 4 :: (x.toNat % 4 * 16 + y.toNat / 16) :: (y.toNat % 16 * 4 + z.toNat / 64) ::
        z.toNat % 64 :: sextets rest

/-- The text without pad characters. -/
def encodeUnpadded (alphabet bytes : List UInt8) : List UInt8 :=
  (sextets bytes).map (alphabet.getD · 0)

/-- The text up to a whole number of groups of four. -/
def encode (alphabet bytes : List UInt8) : List UInt8 :=
  encodeUnpadded alphabet bytes ++ List.replicate ((3 - bytes.length % 3) % 3) '='.toUInt8

example : encode standard ("foob".toList.map Char.toUInt8) = "Zm9vYg==".toList.map Char.toUInt8 := by
  decide

theorem bytes_lt (bytes : List UInt8) : ∀ b ∈ bytes.map UInt8.toNat, b < 2 ^ 8 :=
  List.forall_mem_map.mpr fun c _ => c.toNat_lt

/-- A whole group: three bytes as four sextets. -/
theorem reads_group (x y z : UInt8) :
    Reads 6 8
      [x.toNat / 4, x.toNat % 4 * 16 + y.toNat / 16, y.toNat % 16 * 4 + z.toNat / 64, z.toNat % 64]
      [x.toNat, y.toNat, z.toNat] 0 0 where
  bits := rfl
  held_lt := by decide
  out_lt := bytes_lt [x, y, z]
  value_eq := by
    simp only [value, List.reverse_cons, List.reverse_nil, List.nil_append, List.cons_append,
      Nat.ofDigits_cons, Nat.ofDigits_nil]
    omega

/-- The bits of the bytes, and zeros behind them, less than a byte's worth. -/
theorem reads_sextets (bytes : List UInt8) :
    ∃ kept < 8, Reads 6 8 (sextets bytes) (bytes.map UInt8.toNat) kept 0 := by
  induction bytes using sextets.induct with
  | case1 => exact ⟨0, by decide, .nil⟩
  | case2 x =>
      refine ⟨4, by decide, rfl, by decide, bytes_lt [x], ?_⟩
      simp only [sextets, value, List.map_cons, List.map_nil, List.reverse_cons, List.reverse_nil,
        List.nil_append, List.cons_append, Nat.ofDigits_cons, Nat.ofDigits_nil]
      omega
  | case3 x y =>
      refine ⟨2, by decide, rfl, by decide, bytes_lt [x, y], ?_⟩
      simp only [sextets, value, List.map_cons, List.map_nil, List.reverse_cons, List.reverse_nil,
        List.nil_append, List.cons_append, Nat.ofDigits_cons, Nat.ofDigits_nil]
      omega
  | case4 x y z rest ih =>
      obtain ⟨kept, hkept, hrest⟩ := ih
      exact ⟨kept, hkept, (reads_group x y z).prepend hrest⟩

theorem sextets_lt (bytes : List UInt8) : ∀ d ∈ sextets bytes, d < 64 := by
  induction bytes using sextets.induct with
  | case1 => exact List.forall_mem_nil _
  | case2 x =>
      have hx := x.toNat_lt
      refine List.forall_mem_cons.mpr ⟨?_, List.forall_mem_singleton.mpr ?_⟩ <;> omega
  | case3 x y =>
      have hx := x.toNat_lt
      have hy := y.toNat_lt
      refine List.forall_mem_cons.mpr
        ⟨?_, List.forall_mem_cons.mpr ⟨?_, List.forall_mem_singleton.mpr ?_⟩⟩ <;> omega
  | case4 x y z rest ih =>
      have hx := x.toNat_lt
      have hy := y.toNat_lt
      have hz := z.toNat_lt
      simp only [sextets, List.forall_mem_cons]
      exact ⟨by omega, by omega, by omega, by omega, ih⟩

theorem mem_encodeUnpadded {alphabet bytes : List UInt8} (halphabet : alphabet.length = 64) {c : UInt8}
    (h : c ∈ encodeUnpadded alphabet bytes) : c ∈ alphabet := by
  obtain ⟨d, hd, rfl⟩ := List.mem_map.mp h
  rw [List.getD_eq_getElem _ _ (halphabet ▸ sextets_lt bytes d hd)]
  exact List.getElem_mem _

theorem mem_encode {alphabet bytes : List UInt8} (halphabet : alphabet.length = 64) {c : UInt8}
    (h : c ∈ encode alphabet bytes) : c ∈ alphabet ∨ c = '='.toUInt8 := by
  rcases List.mem_append.mp h with h | h
  · exact Or.inl (mem_encodeUnpadded halphabet h)
  · exact Or.inr (List.eq_of_mem_replicate h)

/-- A table with an entry for every byte. -/
theorem getD_byteTable {β : Type} (f : Nat → β) (c : UInt8) (default : β) :
    ((List.range 256).map f).getD c.toNat default = f c.toNat := by
  rw [List.getD_eq_getElem?_getD, List.getElem?_map, List.getElem?_range c.toNat_lt, Option.map_some,
    Option.getD_some]

end LlmTop.Lib.Base64
