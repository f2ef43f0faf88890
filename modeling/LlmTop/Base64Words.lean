import LlmTop.Base64Url
import LlmTop.Lib.Base64

/-!
# base64url in machine words

The codec as the validator runs it, with its table of 256 entries and the group
of 24 bits in a `uint32_t`, and the equations that make it the codec on numbers.
-/
namespace LlmTop
namespace Base64Words

/-! ## Words -/

section Word

variable {n s : UInt32} (hs : s.toNat < 32)

include hs

theorem toNat_shiftRight : (n >>> s).toNat = n.toNat / 2 ^ s.toNat := by
  rw [UInt32.toNat_shiftRight, Nat.mod_eq_of_lt hs, Nat.shiftRight_eq_div_pow]

theorem toNat_shiftLeft {c : UInt8} (hc : c.toNat * 2 ^ s.toNat < 2 ^ 32) :
    (c.toUInt32 <<< s).toNat = c.toNat * 2 ^ s.toNat := by
  rw [UInt32.toNat_shiftLeft, Nat.mod_eq_of_lt hs, UInt8.toNat_toUInt32, Nat.shiftLeft_eq,
    Nat.mod_eq_of_lt hc]

/-- A byte goes below the bits of a word that has none there. -/
theorem toNat_or_shiftLeft {c : UInt8} {k : Nat} (hn : 2 ^ k ∣ n.toNat) (hk : k ≤ 32)
    (hc : c.toNat * 2 ^ s.toNat < 2 ^ k) :
    (n ||| c.toUInt32 <<< s).toNat = n.toNat + c.toNat * 2 ^ s.toNat := by
  have hword := Nat.lt_of_lt_of_le hc (Nat.pow_le_pow_right (by decide) hk)
  obtain ⟨m, hm⟩ := hn
  rw [UInt32.toNat_or, toNat_shiftLeft hs hword, hm, Nat.two_pow_add_eq_or_of_lt hc]

omit hs in
theorem toNat_or {c : UInt8} {k : Nat} (hn : 2 ^ k ∣ n.toNat) (hc : c.toNat < 2 ^ k) :
    (n ||| c.toUInt32).toNat = n.toNat + c.toNat := by
  obtain ⟨m, hm⟩ := hn
  rw [UInt32.toNat_or, UInt8.toNat_toUInt32, hm, Nat.two_pow_add_eq_or_of_lt hc]

end Word

theorem toUInt8_mask (n : UInt32) : (n &&& 0xFF).toUInt8 = UInt8.ofNat n.toNat := by
  rw [← UInt8.toNat_inj, UInt32.toNat_toUInt8, UInt32.toNat_and,
    show (0xFF : UInt32).toNat = 2 ^ 8 - 1 from rfl, Nat.and_two_pow_sub_one_eq_mod, Nat.mod_mod,
    UInt8.toNat_ofNat']

/-! ## Encoding -/

/-- `table[n & 0x3F]`. -/
def tableAt (n : UInt32) : UInt8 := encodeTable.getD (n &&& 0x3F).toNat 0

/-- One round; the second and the third byte may be behind the end. -/
def encodeGroup (x : UInt8) (y z : Option UInt8) : Bytes :=
  let n := x.toUInt32 <<< 16
  let n := y.elim n fun y => n ||| y.toUInt32 <<< 8
  let n := z.elim n fun z => n ||| z.toUInt32
  [tableAt (n >>> 18), tableAt (n >>> 12)] ++ (if y.isSome then [tableAt (n >>> 6)] else []) ++
    if z.isSome then [tableAt n] else []

def base64urlEncode : Bytes → Bytes
  | [] => []
  | [x] => encodeGroup x none none
  | [x, y] => encodeGroup x (some y) none
  | x :: y :: z :: rest => encodeGroup x (some y) (some z) ++ base64urlEncode rest

theorem tableAt_eq (n : UInt32) : tableAt n = encodeSextet n.toNat := by
  rw [tableAt, UInt32.toNat_and, show (0x3F : UInt32).toNat = 2 ^ 6 - 1 from rfl,
    Nat.and_two_pow_sub_one_eq_mod]
  rfl

/-- The four places of a packed word. -/
theorem tableAt_shifts {n : UInt32} {m : Nat} (hn : n.toNat = m) :
    tableAt (n >>> 18) = encodeSextet (m / 2 ^ 18) ∧ tableAt (n >>> 12) = encodeSextet (m / 2 ^ 12) ∧
      tableAt (n >>> 6) = encodeSextet (m / 2 ^ 6) ∧ tableAt n = encodeSextet m := by
  have hshift (s : UInt32) (hs : s.toNat < 32) :
      tableAt (n >>> s) = encodeSextet (m / 2 ^ s.toNat) := by
    rw [tableAt_eq, toNat_shiftRight hs, hn]
  exact ⟨hshift 18 (by decide), hshift 12 (by decide), hshift 6 (by decide), by rw [tableAt_eq, hn]⟩

section Pack

variable (x y z : UInt8)

theorem toNat_pack1 : (x.toUInt32 <<< 16).toNat = x.toNat * 2 ^ 16 := by
  have hx := x.toNat_lt
  exact toNat_shiftLeft (by decide) (show x.toNat * 2 ^ 16 < 2 ^ 32 by omega)

theorem toNat_pack2 :
    (x.toUInt32 <<< 16 ||| y.toUInt32 <<< 8).toNat = x.toNat * 2 ^ 16 + y.toNat * 2 ^ 8 := by
  have hy := y.toNat_lt
  have hx := toNat_pack1 x
  have hor := toNat_or_shiftLeft (n := x.toUInt32 <<< 16) (s := 8) (c := y) (k := 16) (by decide)
    (Dvd.intro_left _ hx.symm) (by decide) (show y.toNat * 2 ^ 8 < 2 ^ 16 by omega)
  rw [hx] at hor
  exact hor

theorem toNat_pack3 : (x.toUInt32 <<< 16 ||| y.toUInt32 <<< 8 ||| z.toUInt32).toNat =
    x.toNat * 2 ^ 16 + y.toNat * 2 ^ 8 + z.toNat := by
  have hxy := toNat_pack2 x y
  rw [toNat_or (k := 8) (by rw [hxy]; omega) z.toNat_lt, hxy]

end Pack

/-- The words and the numbers encode alike. -/
theorem base64urlEncode_eq (bytes : Bytes) : base64urlEncode bytes = LlmTop.base64urlEncode bytes := by
  induction bytes using base64urlEncode.induct with
  | case1 => rfl
  | case2 x =>
      obtain ⟨h18, h12, -, -⟩ := tableAt_shifts (toNat_pack1 x)
      simp only [base64urlEncode, encodeGroup, Option.elim, h18, h12]
      rfl
  | case3 x y =>
      obtain ⟨h18, h12, h6, -⟩ := tableAt_shifts (toNat_pack2 x y)
      simp only [base64urlEncode, encodeGroup, Option.elim, h18, h12, h6]
      rfl
  | case4 x y z rest ih =>
      obtain ⟨h18, h12, h6, hlast⟩ := tableAt_shifts (toNat_pack3 x y z)
      simp only [base64urlEncode, encodeGroup, Option.elim, h18, h12, h6, hlast, ih]
      rfl

/-! ## Decoding -/

def decodeTable : Bytes := [
  255, 255, 255, 255, 255, 255, 255, 255, 255, 255, 255, 255, 255, 255, 255, 255,
  255, 255, 255, 255, 255, 255, 255, 255, 255, 255, 255, 255, 255, 255, 255, 255,
  255, 255, 255, 255, 255, 255, 255, 255, 255, 255, 255, 255, 255, 62, 255, 255,
  52, 53, 54, 55, 56, 57, 58, 59, 60, 61, 255, 255, 255, 255, 255, 255,
  255, 0, 1, 2, 3, 4, 5, 6, 7, 8, 9, 10, 11, 12, 13, 14,
  15, 16, 17, 18, 19, 20, 21, 22, 23, 24, 25, 255, 255, 255, 255, 63,
  255, 26, 27, 28, 29, 30, 31, 32, 33, 34, 35, 36, 37, 38, 39, 40,
  41, 42, 43, 44, 45, 46, 47, 48, 49, 50, 51, 255, 255, 255, 255, 255,
  255, 255, 255, 255, 255, 255, 255, 255, 255, 255, 255, 255, 255, 255, 255, 255,
  255, 255, 255, 255, 255, 255, 255, 255, 255, 255, 255, 255, 255, 255, 255, 255,
  255, 255, 255, 255, 255, 255, 255, 255, 255, 255, 255, 255, 255, 255, 255, 255,
  255, 255, 255, 255, 255, 255, 255, 255, 255, 255, 255, 255, 255, 255, 255, 255,
  255, 255, 255, 255, 255, 255, 255, 255, 255, 255, 255, 255, 255, 255, 255, 255,
  255, 255, 255, 255, 255, 255, 255, 255, 255, 255, 255, 255, 255, 255, 255, 255,
  255, 255, 255, 255, 255, 255, 255, 255, 255, 255, 255, 255, 255, 255, 255, 255,
  255, 255, 255, 255, 255, 255, 255, 255, 255, 255, 255, 255, 255, 255, 255, 255]

def decodeEntry (c : UInt8) : UInt8 := decodeTable.getD c.toNat 0

/-- The third character of a group: the word with its bits, and the byte it completes. -/
def secondByte (n : UInt32) (y : UInt8) : Option (UInt32 × Bytes) :=
  let c := decodeEntry y
  if y ≠ '='.toUInt8 then
    if c = 255 then none
    else
      let n := n ||| c.toUInt32 <<< 6
      some (n, [((n >>> 8) &&& 0xFF).toUInt8])
  else some (n, [])

/-- The fourth character. -/
def thirdByte (n : UInt32) (z : UInt8) : Option Bytes :=
  let d := decodeEntry z
  if z ≠ '='.toUInt8 then
    if d = 255 then none
    else
      let n := n ||| d.toUInt32
      some [(n &&& 0xFF).toUInt8]
  else some []

/-- One round; `none` is the early return. -/
def decodeGroup (w x y z : UInt8) : Option Bytes :=
  let a := decodeEntry w
  let b := decodeEntry x
  if a = 255 ∨ b = 255 then none
  else do
    let n := a.toUInt32 <<< 18 ||| b.toUInt32 <<< 12
    let first := ((n >>> 16) &&& 0xFF).toUInt8
    let (n, second) ← secondByte n y
    let third ← thirdByte n z
    some (first :: (second ++ third))

def decodeLoop (result : Bytes) : Bytes → Bytes
  | w :: x :: y :: z :: rest =>
      match decodeGroup w x y z with
      | none => []
      | some group => decodeLoop (result ++ group) rest
  | _ => result

/-- The loop that pads, for at most so many rounds. -/
def padLoop : Nat → Bytes → Bytes
  | 0, padded => padded
  | rounds + 1, padded =>
      if padded.length % 4 ≠ 0 then padLoop rounds (padded ++ ['='.toUInt8]) else padded

def base64urlDecode (input : Bytes) : Bytes := decodeLoop [] (padLoop 3 input)

theorem decodeTable_eq : decodeTable =
    (List.range 256).map fun n => (decodeSextet (UInt8.ofNat n)).elim 255 UInt8.ofNat := by
  decide +kernel

theorem decodeEntry_eq (c : UInt8) : decodeEntry c = (decodeSextet c).elim 255 UInt8.ofNat := by
  rw [decodeEntry, decodeTable_eq, Lib.Base64.getD_byteTable, UInt8.ofNat_toNat]

theorem decodeSextet_lt {c : UInt8} {a : Nat} (h : decodeSextet c = some a) : a < 64 := by
  have hall := of_all_bytes (p := fun c => (decodeSextet c).all (· < 64)) (by decide +kernel) c
  rw [h] at hall
  exact of_decide_eq_true hall

/-- An entry is 255, or a sextet. -/
theorem decodeEntry_cases (c : UInt8) :
    decodeSextet c = none ∧ decodeEntry c = 255 ∨
      ∃ a < 64, decodeSextet c = some a ∧ decodeEntry c ≠ 255 ∧ (decodeEntry c).toNat = a := by
  rw [decodeEntry_eq]
  cases hc : decodeSextet c with
  | none => exact Or.inl ⟨rfl, rfl⟩
  | some a =>
      have ha := decodeSextet_lt hc
      have hentry : (UInt8.ofNat a).toNat = a := UInt8.toNat_ofNat_of_lt' (Nat.lt_trans ha (by decide))
      refine Or.inr ⟨a, ha, rfl, fun hinvalid => ?_, hentry⟩
      have hvalue := hentry.symm.trans (congrArg UInt8.toNat hinvalid)
      exact absurd ha (by rw [hvalue]; decide)

section Group

variable {n : UInt32} {m : Nat} (hn : n.toNat = m)

include hn

theorem secondByte_eq (hbits : 2 ^ 12 ∣ m) (y : UInt8) :
    (secondByte n y).map (Prod.map UInt32.toNat id) =
      if y = '='.toUInt8 then some (m, [])
      else (decodeSextet y).map fun c => (m + c * 2 ^ 6, [UInt8.ofNat ((m + c * 2 ^ 6) / 2 ^ 8)]) := by
  by_cases hy : y = '='.toUInt8
  · rw [secondByte, if_neg (not_not_intro hy), if_pos hy, ← hn]
    rfl
  rw [secondByte, if_pos hy, if_neg hy]
  rcases decodeEntry_cases y with ⟨hnone, hinvalid⟩ | ⟨c, hc, hsome, hvalid, hvalue⟩
  · rw [if_pos hinvalid, hnone]
    rfl
  · have hor : (n ||| (decodeEntry y).toUInt32 <<< 6).toNat = m + c * 2 ^ 6 := by
      have hbelow := toNat_or_shiftLeft (n := n) (s := 6) (c := decodeEntry y) (k := 12) (by decide)
        (hn ▸ hbits) (by decide) (by rw [hvalue]; exact Nat.mul_lt_mul_of_pos_right hc (by decide))
      rwa [hn, hvalue] at hbelow
    have hbyte : (((n ||| (decodeEntry y).toUInt32 <<< 6) >>> 8) &&& 0xFF).toUInt8 =
        UInt8.ofNat ((m + c * 2 ^ 6) / 2 ^ 8) := by
      rw [toUInt8_mask, toNat_shiftRight (by decide), hor]
      rfl
    rw [if_neg hvalid, hsome]
    exact congrArg some (Prod.ext hor (congrArg (fun byte => [byte]) hbyte))

theorem secondByte_dvd (hbits : 2 ^ 12 ∣ m) {y : UInt8} {n' : UInt32} {second : Bytes}
    (h : secondByte n y = some (n', second)) : 2 ^ 6 ∣ n'.toNat := by
  have hmap := secondByte_eq hn hbits y
  rw [h, Option.map_some] at hmap
  split at hmap
  · have hsame : n'.toNat = m := congrArg Prod.fst (Option.some.inj hmap)
    omega
  · obtain ⟨c, -, hpair⟩ := Option.map_eq_some_iff.mp hmap.symm
    have hsum : m + c * 2 ^ 6 = n'.toNat := congrArg Prod.fst hpair
    omega

theorem thirdByte_eq (hbits : 2 ^ 6 ∣ m) (z : UInt8) :
    thirdByte n z =
      if z = '='.toUInt8 then some [] else (decodeSextet z).map fun d => [UInt8.ofNat (m + d)] := by
  by_cases hz : z = '='.toUInt8
  · rw [thirdByte, if_neg (not_not_intro hz), if_pos hz]
  rw [thirdByte, if_pos hz, if_neg hz]
  rcases decodeEntry_cases z with ⟨hnone, hinvalid⟩ | ⟨d, hd, hsome, hvalid, hvalue⟩
  · rw [if_pos hinvalid, hnone]
    rfl
  · have hbyte : ((n ||| (decodeEntry z).toUInt32) &&& 0xFF).toUInt8 = UInt8.ofNat (m + d) := by
      rw [toUInt8_mask, toNat_or (k := 6) (hn ▸ hbits) (hvalue ▸ hd), hn, hvalue]
    rw [if_neg hvalid, hsome]
    exact congrArg (fun byte => some [byte]) hbyte

end Group

/-- The group on numbers, its two optional bytes one after the other. -/
theorem decodeGroup_numbers {w x : UInt8} {a b : Nat} (hw : decodeSextet w = some a)
    (hx : decodeSextet x = some b) (y z : UInt8) : LlmTop.decodeGroup w x y z =
      let n := a * 2 ^ 18 + b * 2 ^ 12
      (if y = '='.toUInt8 then some (n, [])
        else (decodeSextet y).map fun c => (n + c * 2 ^ 6, [UInt8.ofNat ((n + c * 2 ^ 6) / 2 ^ 8)])).bind
        fun second =>
          (if z = '='.toUInt8 then some []
            else (decodeSextet z).map fun d => [UInt8.ofNat (second.1 + d)]).bind
            fun third => some (UInt8.ofNat (n / 2 ^ 16) :: (second.2 ++ third)) := by
  simp only [LlmTop.decodeGroup, hw, hx, Option.bind_eq_bind, Option.bind_some]
  by_cases hy : y = '='.toUInt8
  · by_cases hz : z = '='.toUInt8
    · simp only [if_pos hy, if_pos hz, Option.bind_some]
    · simp only [if_pos hy, if_neg hz, Option.bind_some]
  · by_cases hz : z = '='.toUInt8
    · simp only [if_neg hy, if_pos hz, Option.bind_some]
    · simp only [if_neg hy, if_neg hz]

theorem decodeGroup_eq (w x y z : UInt8) : decodeGroup w x y z = LlmTop.decodeGroup w x y z := by
  rcases decodeEntry_cases w with ⟨hw, hinvalid⟩ | ⟨a, ha, hw, hvalid, hvalue⟩
  · rw [decodeGroup, LlmTop.decodeGroup, if_pos (Or.inl hinvalid), hw]
    rfl
  rcases decodeEntry_cases x with ⟨hx, hinvalid'⟩ | ⟨b, hb, hx, hvalid', hvalue'⟩
  · rw [decodeGroup, LlmTop.decodeGroup, if_pos (Or.inr hinvalid'), hw, hx]
    rfl
  have hn : ((decodeEntry w).toUInt32 <<< 18 ||| (decodeEntry x).toUInt32 <<< 12).toNat =
      a * 2 ^ 18 + b * 2 ^ 12 := by
    have hupper := toNat_shiftLeft (s := 18) (c := decodeEntry w) (by decide)
      (show (decodeEntry w).toNat * 2 ^ 18 < 2 ^ 32 by omega)
    rw [hvalue] at hupper
    have hor := toNat_or_shiftLeft (n := (decodeEntry w).toUInt32 <<< 18) (s := 12) (c := decodeEntry x)
      (k := 18) (by decide) (Dvd.intro_left _ hupper.symm) (by decide)
      (show (decodeEntry x).toNat * 2 ^ 12 < 2 ^ 18 by omega)
    rw [hupper, hvalue'] at hor
    exact hor
  rw [decodeGroup_numbers hw hx, decodeGroup, if_neg (not_or_intro hvalid hvalid')]
  generalize (decodeEntry w).toUInt32 <<< 18 ||| (decodeEntry x).toUInt32 <<< 12 = n at hn ⊢
  have hbits : 2 ^ 12 ∣ a * 2 ^ 18 + b * 2 ^ 12 := by omega
  dsimp only
  rw [← secondByte_eq hn hbits]
  cases hy : secondByte n y with
  | none => rfl
  | some pair =>
      have hthird := thirdByte_eq rfl (secondByte_dvd hn hbits hy) z
      have hfirst : ((n >>> 16) &&& 0xFF).toUInt8 = UInt8.ofNat ((a * 2 ^ 18 + b * 2 ^ 12) / 2 ^ 16) := by
        rw [toUInt8_mask, toNat_shiftRight (by decide), hn]
        rfl
      rw [Option.map_some, Option.bind_some, ← hfirst, Prod.map_fst, ← hthird]
      rfl

theorem decodeLoop_eq (result text : Bytes) :
    decodeLoop result text = (decodeGroups text).elim [] (result ++ ·) := by
  induction text using decodeGroups.induct generalizing result with
  | case1 w x y z rest ih =>
      rw [decodeLoop, decodeGroup_eq, decodeGroups_cons]
      cases LlmTop.decodeGroup w x y z with
      | none => rfl
      | some group =>
          dsimp only
          rw [ih]
          cases decodeGroups rest with
          | none => rfl
          | some decoded => exact List.append_assoc ..
  | case2 text hshort =>
      rw [decodeLoop.eq_2 _ _ hshort, decodeGroups.eq_2 _ hshort]
      exact (List.append_nil result).symm

theorem fillPadding_full {padded : Bytes} (h : padded.length % 4 = 0) : fillPadding padded = padded := by
  rw [fillPadding, h]
  exact List.append_nil padded

theorem fillPadding_concat {padded : Bytes} (h : padded.length % 4 ≠ 0) :
    fillPadding (padded ++ ['='.toUInt8]) = fillPadding padded := by
  have hone : (4 - padded.length % 4) % 4 = (4 - (padded.length + 1) % 4) % 4 + 1 := by omega
  rw [fillPadding, fillPadding, List.length_append, List.length_singleton, hone, List.append_assoc,
    List.replicate_succ]
  rfl

/-- The missing characters are as many rounds. -/
theorem padLoop_eq {rounds : Nat} {padded : Bytes} (h : (4 - padded.length % 4) % 4 ≤ rounds) :
    padLoop rounds padded = fillPadding padded := by
  induction rounds generalizing padded with
  | zero =>
      have hlength : padded.length % 4 = 0 := by omega
      rw [padLoop, fillPadding_full hlength]
  | succ rounds ih =>
      rw [padLoop]
      by_cases hlength : padded.length % 4 = 0
      · rw [if_neg (not_not_intro hlength), fillPadding_full hlength]
      · have hrounds : (4 - (padded ++ ['='.toUInt8]).length % 4) % 4 ≤ rounds := by
          rw [List.length_append, List.length_singleton]
          omega
        rw [if_pos hlength, ih hrounds, fillPadding_concat hlength]

/-- The words and the numbers decode alike. -/
theorem base64urlDecode_eq (input : Bytes) : base64urlDecode input = LlmTop.base64urlDecode input := by
  rw [base64urlDecode, decodeLoop_eq, padLoop_eq (by omega)]
  change _ = (decodeGroups (fillPadding input)).getD []
  cases decodeGroups (fillPadding input) <;> rfl

/-- The sextets of three bytes, cut out of their sum. -/
theorem encodeSextet_word (x y z : UInt8) {n : Nat}
    (hn : n = x.toNat * 2 ^ 16 + y.toNat * 2 ^ 8 + z.toNat) :
    encodeSextet (n / 2 ^ 18) = Lib.Base64.urlSafe.getD (x.toNat / 4) 0 ∧
      encodeSextet (n / 2 ^ 12) = Lib.Base64.urlSafe.getD (x.toNat % 4 * 16 + y.toNat / 16) 0 ∧
        encodeSextet (n / 2 ^ 6) = Lib.Base64.urlSafe.getD (y.toNat % 16 * 4 + z.toNat / 64) 0 ∧
          encodeSextet n = Lib.Base64.urlSafe.getD (z.toNat % 64) 0 := by
  have hx := x.toNat_lt
  have hy := y.toNat_lt
  have hz := z.toNat_lt
  have hsextet {n d : Nat} (h : n % 64 = d) : encodeSextet n = Lib.Base64.urlSafe.getD d 0 := by
    rw [encodeSextet, h]
    rfl
  exact ⟨hsextet (by omega), hsextet (by omega), hsextet (by omega), hsextet (by omega)⟩

theorem base64urlEncode_eq_encodeUnpadded (bytes : Bytes) :
    base64urlEncode bytes = Lib.Base64.encodeUnpadded Lib.Base64.urlSafe bytes := by
  rw [base64urlEncode_eq]
  induction bytes using Lib.Base64.sextets.induct with
  | case1 => rfl
  | case2 x =>
      obtain ⟨h1, h2, -, -⟩ := encodeSextet_word x 0 0 (n := x.toNat * 2 ^ 16) (by simp)
      rw [LlmTop.base64urlEncode, h1, h2]
      rfl
  | case3 x y =>
      obtain ⟨h1, h2, h3, -⟩ :=
        encodeSextet_word x y 0 (n := x.toNat * 2 ^ 16 + y.toNat * 2 ^ 8) (by simp)
      rw [LlmTop.base64urlEncode, h1, h2, h3]
      rfl
  | case4 x y z rest ih =>
      obtain ⟨h1, h2, h3, h4⟩ := encodeSextet_word x y z rfl
      rw [LlmTop.base64urlEncode, ih, h1, h2, h3, h4]
      rfl

/-- What is encoded is in the alphabet, which has no pad character, and decodes to what it was. -/
theorem base64url_round_trip (bytes : Bytes) :
    (∀ c ∈ base64urlEncode bytes, c ∈ Lib.Base64.urlSafe) ∧ '='.toUInt8 ∉ base64urlEncode bytes ∧
      base64urlDecode (base64urlEncode bytes) = bytes := by
  have hsafe : ∀ c ∈ base64urlEncode bytes, c ∈ Lib.Base64.urlSafe := by
    rw [base64urlEncode_eq_encodeUnpadded]
    exact fun c => Lib.Base64.mem_encodeUnpadded Lib.Base64.length_urlSafe
  refine ⟨hsafe, fun hpad => absurd (hsafe _ hpad) (by decide), ?_⟩
  rw [base64urlDecode_eq, base64urlEncode_eq, base64urlDecode_encode]

end Base64Words
end LlmTop
