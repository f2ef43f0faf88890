import LlmTop.Tokens

/-!
# base64url, both ways

The encoder, its round trip, and every text that the decoder reads as the same
bytes: it ignores spare bits and lets a `=` stand inside a group.
-/
namespace LlmTop

def encodeTable : Bytes :=
  ascii "ABCDEFGHIJKLMNOPQRSTUVWXYZabcdefghijklmnopqrstuvwxyz0123456789-_"

/-- `table[n & 0x3F]`. -/
def encodeSextet (n : Nat) : UInt8 := encodeTable.getD (n % 64) 0

def base64urlEncode : Bytes → Bytes
  | [] => []
  | [x] =>
      let n := x.toNat * 2 ^ 16
      [encodeSextet (n / 2 ^ 18), encodeSextet (n / 2 ^ 12)]
  | [x, y] =>
      let n := x.toNat * 2 ^ 16 + y.toNat * 2 ^ 8
      [encodeSextet (n / 2 ^ 18), encodeSextet (n / 2 ^ 12), encodeSextet (n / 2 ^ 6)]
  | x :: y :: z :: rest =>
      let n := x.toNat * 2 ^ 16 + y.toNat * 2 ^ 8 + z.toNat
      encodeSextet (n / 2 ^ 18) :: encodeSextet (n / 2 ^ 12) :: encodeSextet (n / 2 ^ 6) ::
        encodeSextet n :: base64urlEncode rest

example : base64urlEncode (ascii "\x7b\"a\":1\x7d") = ascii "eyJhIjoxfQ" := by decide

/-! ## Sextets -/

theorem decodeSextet_encodeSextet (n : Nat) : decodeSextet (encodeSextet n) = some (n % 64) := by
  have hall : ∀ n < 64, decodeSextet (encodeTable.getD n 0) = some n := by decide +kernel
  exact hall (n % 64) (Nat.mod_lt n (by decide))

/-- Neither a dot nor a pad character is a sextet. -/
theorem decodeSextet_ne {c : UInt8} {n : Nat} (h : decodeSextet c = some n) :
    c ≠ '.'.toUInt8 ∧ c ≠ '='.toUInt8 := by
  have hdot : decodeSextet '.'.toUInt8 = none := by decide
  have hpad : decodeSextet '='.toUInt8 = none := by decide
  constructor
  · rintro rfl
    rw [hdot] at h
    contradiction
  · rintro rfl
    rw [hpad] at h
    contradiction

theorem encodeSextet_ne (n : Nat) : encodeSextet n ≠ '.'.toUInt8 ∧ encodeSextet n ≠ '='.toUInt8 :=
  decodeSextet_ne (decodeSextet_encodeSextet n)

/-! ## Groups -/

/-- The bytes of two, three and four sextets. -/
def byte1 (a b : Nat) : UInt8 := UInt8.ofNat (a * 4 + b / 16)
def byte2 (b c : Nat) : UInt8 := UInt8.ofNat (b % 16 * 16 + c / 4)
def byte3 (c d : Nat) : UInt8 := UInt8.ofNat (c % 4 * 64 + d)

/-- A text of groups with its `=` filled in, and the bytes it spells. -/
inductive Groups : Bytes → Bytes → Prop where
  | nil : Groups [] []
  | full {w x y z : UInt8} {a b c d : Nat} {text bytes : Bytes} (hw : decodeSextet w = some a)
      (hx : decodeSextet x = some b) (hy : decodeSextet y = some c) (hz : decodeSextet z = some d)
      (hrest : Groups text bytes) :
      Groups (w :: x :: y :: z :: text) (byte1 a b :: byte2 b c :: byte3 c d :: bytes)
  | padded {w x y : UInt8} {a b c : Nat} {text bytes : Bytes} (hw : decodeSextet w = some a)
      (hx : decodeSextet x = some b) (hy : decodeSextet y = some c) (hrest : Groups text bytes) :
      Groups (w :: x :: y :: '='.toUInt8 :: text) (byte1 a b :: byte2 b c :: bytes)
  | gap {w x z : UInt8} {a b d : Nat} {text bytes : Bytes} (hw : decodeSextet w = some a)
      (hx : decodeSextet x = some b) (hz : decodeSextet z = some d) (hrest : Groups text bytes) :
      Groups (w :: x :: '='.toUInt8 :: z :: text) (byte1 a b :: UInt8.ofNat d :: bytes)
  | padded2 {w x : UInt8} {a b : Nat} {text bytes : Bytes} (hw : decodeSextet w = some a)
      (hx : decodeSextet x = some b) (hrest : Groups text bytes) :
      Groups (w :: x :: '='.toUInt8 :: '='.toUInt8 :: text) (byte1 a b :: bytes)

theorem ofNat_congr {m n : Nat} (h : m % 256 = n % 256) : UInt8.ofNat m = UInt8.ofNat n := by
  rw [← UInt8.toNat_inj]
  simpa using h

/-- The decoder's shifts, byte by byte. -/
theorem byte1_eq (a b : Nat) : UInt8.ofNat ((a * 2 ^ 18 + b * 2 ^ 12) / 2 ^ 16) = byte1 a b :=
  ofNat_congr (by omega)

theorem byte2_eq (a b c : Nat) :
    UInt8.ofNat ((a * 2 ^ 18 + b * 2 ^ 12 + c * 2 ^ 6) / 2 ^ 8) = byte2 b c :=
  ofNat_congr (by omega)

theorem byte3_eq (a b c d : Nat) :
    UInt8.ofNat (a * 2 ^ 18 + b * 2 ^ 12 + c * 2 ^ 6 + d) = byte3 c d :=
  ofNat_congr (by omega)

theorem gap_eq (a b d : Nat) :
    UInt8.ofNat (a * 2 ^ 18 + b * 2 ^ 12 + d) = UInt8.ofNat d :=
  ofNat_congr (by omega)

theorem decodeGroups_cons (w x y z : UInt8) (rest : Bytes) :
    decodeGroups (w :: x :: y :: z :: rest) =
      (decodeGroup w x y z).bind fun group => (decodeGroups rest).map (group ++ ·) := by
  rw [decodeGroups]
  cases decodeGroup w x y z with
  | none => rfl
  | some group => cases decodeGroups rest <;> rfl

section Group

variable {w x y z : UInt8} {a b c d : Nat} (hw : decodeSextet w = some a)
  (hx : decodeSextet x = some b)

include hw hx

theorem decodeGroup_full (hy : decodeSextet y = some c) (hz : decodeSextet z = some d) :
    decodeGroup w x y z = some [byte1 a b, byte2 b c, byte3 c d] := by
  simp only [decodeGroup, hw, hx, hy, hz, if_neg (decodeSextet_ne hy).2,
    if_neg (decodeSextet_ne hz).2, Option.bind_eq_bind, Option.bind_some, Option.map_some, byte1_eq,
    byte2_eq, byte3_eq, List.singleton_append]

theorem decodeGroup_padded (hy : decodeSextet y = some c) :
    decodeGroup w x y '='.toUInt8 = some [byte1 a b, byte2 b c] := by
  simp only [decodeGroup, hw, hx, hy, if_neg (decodeSextet_ne hy).2, if_true, Option.bind_eq_bind,
    Option.bind_some, Option.map_some, byte1_eq, byte2_eq, List.append_nil]

theorem decodeGroup_gap (hz : decodeSextet z = some d) :
    decodeGroup w x '='.toUInt8 z = some [byte1 a b, UInt8.ofNat d] := by
  simp only [decodeGroup, hw, hx, hz, if_neg (decodeSextet_ne hz).2, if_true, Option.bind_eq_bind,
    Option.bind_some, Option.map_some, byte1_eq, gap_eq, List.nil_append]

theorem decodeGroup_padded2 : decodeGroup w x '='.toUInt8 '='.toUInt8 = some [byte1 a b] := by
  simp only [decodeGroup, hw, hx, if_true, Option.bind_eq_bind, Option.bind_some, byte1_eq,
    List.append_nil]

end Group

theorem Groups.decode {text bytes : Bytes} (h : Groups text bytes) :
    decodeGroups text = some bytes := by
  induction h with
  | nil => rfl
  | full hw hx hy hz hrest ih =>
      rw [decodeGroups_cons, ih, decodeGroup_full hw hx hy hz]
      rfl
  | padded hw hx hy hrest ih =>
      rw [decodeGroups_cons, ih, decodeGroup_padded hw hx hy]
      rfl
  | gap hw hx hz hrest ih =>
      rw [decodeGroups_cons, ih, decodeGroup_gap hw hx hz]
      rfl
  | padded2 hw hx hrest ih =>
      rw [decodeGroups_cons, ih, decodeGroup_padded2 hw hx]
      rfl

/-- The four shapes of a group that decodes. -/
theorem groups_cons {w x y z : UInt8} {group text bytes : Bytes}
    (hgroup : decodeGroup w x y z = some group) (hrest : Groups text bytes) :
    Groups (w :: x :: y :: z :: text) (group ++ bytes) := by
  cases hw : decodeSextet w with
  | none => simp [decodeGroup, hw] at hgroup
  | some a =>
  cases hx : decodeSextet x with
  | none => simp [decodeGroup, hw, hx] at hgroup
  | some b =>
  by_cases hy : y = '='.toUInt8
  · subst hy
    by_cases hz : z = '='.toUInt8
    · subst hz
      rw [decodeGroup_padded2 hw hx] at hgroup
      obtain rfl := Option.some.inj hgroup
      exact .padded2 hw hx hrest
    · cases hd : decodeSextet z with
      | none => simp [decodeGroup, hw, hx, hz, hd] at hgroup
      | some d =>
          rw [decodeGroup_gap hw hx hd] at hgroup
          obtain rfl := Option.some.inj hgroup
          exact .gap hw hx hd hrest
  · cases hc : decodeSextet y with
    | none => simp [decodeGroup, hw, hx, hy, hc] at hgroup
    | some c =>
    by_cases hz : z = '='.toUInt8
    · subst hz
      rw [decodeGroup_padded hw hx hc] at hgroup
      obtain rfl := Option.some.inj hgroup
      exact .padded hw hx hc hrest
    · cases hd : decodeSextet z with
      | none => simp [decodeGroup, hw, hx, hy, hc, hz, hd] at hgroup
      | some d =>
          rw [decodeGroup_full hw hx hc hd] at hgroup
          obtain rfl := Option.some.inj hgroup
          exact .full hw hx hc hd hrest

theorem groups_of_decode {text bytes : Bytes} (hlength : text.length % 4 = 0)
    (h : decodeGroups text = some bytes) : Groups text bytes := by
  induction text using decodeGroups.induct generalizing bytes with
  | case1 w x y z rest ih =>
      rw [decodeGroups_cons, Option.bind_eq_some_iff] at h
      obtain ⟨group, hgroup, hmap⟩ := h
      obtain ⟨decoded, hdecoded, rfl⟩ := Option.map_eq_some_iff.mp hmap
      refine groups_cons hgroup (ih ?_ hdecoded)
      simp only [List.length_cons] at hlength
      omega
  | case2 text hshort =>
      obtain rfl : text = [] := by
        rcases text with _ | ⟨w, _ | ⟨x, _ | ⟨y, _ | ⟨z, rest⟩⟩⟩⟩
        · rfl
        · simp at hlength
        · simp at hlength
        · simp at hlength
        · exact absurd rfl (hshort w x y z rest)
      obtain rfl := Option.some.inj h
      exact .nil

/-! ## Spellings -/

def fillPadding (text : Bytes) : Bytes :=
  text ++ List.replicate ((4 - text.length % 4) % 4) '='.toUInt8

/-- The text decodes to these bytes. -/
def Spells (text bytes : Bytes) : Prop := Groups (fillPadding text) bytes

theorem spells_iff {text bytes : Bytes} (hne : bytes ≠ []) :
    base64urlDecode text = bytes ↔ Spells text bytes := by
  have hlength : (fillPadding text).length % 4 = 0 := by
    rw [fillPadding, List.length_append, List.length_replicate]
    omega
  change (decodeGroups (fillPadding text)).getD [] = bytes ↔ _
  constructor
  · intro h
    refine groups_of_decode hlength ?_
    cases hdecode : decodeGroups (fillPadding text) with
    | none =>
        rw [hdecode] at h
        exact absurd h.symm hne
    | some decoded =>
        rw [hdecode] at h
        exact congrArg some h
  · intro h
    rw [h.decode]
    rfl

theorem Spells.decode {text bytes : Bytes} (h : Spells text bytes) : base64urlDecode text = bytes := by
  change (decodeGroups (fillPadding text)).getD [] = bytes
  rw [Groups.decode h]
  rfl

theorem fillPadding_group (w x y z : UInt8) (rest : Bytes) :
    fillPadding (w :: x :: y :: z :: rest) = w :: x :: y :: z :: fillPadding rest := by
  have hlength : (w :: x :: y :: z :: rest).length % 4 = rest.length % 4 := by
    rw [show (w :: x :: y :: z :: rest).length = rest.length + 4 from rfl]
    omega
  rw [fillPadding, hlength]
  rfl

theorem fillPadding_two (w x : UInt8) :
    fillPadding [w, x] = [w, x, '='.toUInt8, '='.toUInt8] := rfl

theorem fillPadding_three (w x y : UInt8) : fillPadding [w, x, y] = [w, x, y, '='.toUInt8] := rfl

/-- Three bytes out of the sextets the encoder splits them into. -/
theorem bytes_of_sextets (x y z : UInt8) {n : Nat}
    (hn : n = x.toNat * 2 ^ 16 + y.toNat * 2 ^ 8 + z.toNat) :
    byte1 (n / 2 ^ 18 % 64) (n / 2 ^ 12 % 64) = x ∧ byte2 (n / 2 ^ 12 % 64) (n / 2 ^ 6 % 64) = y ∧
      byte3 (n / 2 ^ 6 % 64) (n % 64) = z := by
  have hx := x.toNat_lt
  have hy := y.toNat_lt
  have hz := z.toNat_lt
  have hback : ∀ (c : UInt8) (m : Nat), m = c.toNat → UInt8.ofNat m = c := by
    rintro c m rfl
    exact UInt8.ofNat_toNat
  exact ⟨hback x _ (by omega), hback y _ (by omega), hback z _ (by omega)⟩

theorem spells_encode (bytes : Bytes) : Spells (base64urlEncode bytes) bytes := by
  unfold Spells
  induction bytes using base64urlEncode.induct with
  | case1 => exact .nil
  | case2 x =>
      rw [base64urlEncode, fillPadding_two]
      generalize hn : x.toNat * 2 ^ 16 = n
      have hgroup := Groups.padded2 (decodeSextet_encodeSextet (n / 2 ^ 18))
        (decodeSextet_encodeSextet (n / 2 ^ 12)) .nil
      rw [(bytes_of_sextets x 0 0 (n := n) (by simp [← hn])).1] at hgroup
      exact hgroup
  | case3 x y =>
      rw [base64urlEncode, fillPadding_three]
      generalize hn : x.toNat * 2 ^ 16 + y.toNat * 2 ^ 8 = n
      have hgroup := Groups.padded (decodeSextet_encodeSextet (n / 2 ^ 18))
        (decodeSextet_encodeSextet (n / 2 ^ 12)) (decodeSextet_encodeSextet (n / 2 ^ 6)) .nil
      obtain ⟨h1, h2, -⟩ := bytes_of_sextets x y 0 (n := n) (by simp [← hn])
      rw [h1, h2] at hgroup
      exact hgroup
  | case4 x y z rest ih =>
      rw [base64urlEncode, fillPadding_group]
      generalize hn : x.toNat * 2 ^ 16 + y.toNat * 2 ^ 8 + z.toNat = n
      have hgroup := Groups.full (decodeSextet_encodeSextet (n / 2 ^ 18))
        (decodeSextet_encodeSextet (n / 2 ^ 12)) (decodeSextet_encodeSextet (n / 2 ^ 6))
        (decodeSextet_encodeSextet n) ih
      obtain ⟨h1, h2, h3⟩ := bytes_of_sextets x y z hn.symm
      rw [h1, h2, h3] at hgroup
      exact hgroup

theorem base64urlDecode_encode (bytes : Bytes) : base64urlDecode (base64urlEncode bytes) = bytes :=
  (spells_encode bytes).decode

theorem dot_not_mem_encode (bytes : Bytes) : '.'.toUInt8 ∉ base64urlEncode bytes := by
  induction bytes using base64urlEncode.induct with
  | case1 => simp [base64urlEncode]
  | case2 x => simp [base64urlEncode, Ne.symm (encodeSextet_ne _).1]
  | case3 x y => simp [base64urlEncode, Ne.symm (encodeSextet_ne _).1]
  | case4 x y z rest ih => simp [base64urlEncode, Ne.symm (encodeSextet_ne _).1, ih]

theorem base64urlEncode_ne_nil {bytes : Bytes} (h : bytes ≠ []) : base64urlEncode bytes ≠ [] := by
  intro hnil
  have hdecode := base64urlDecode_encode bytes
  rw [hnil] at hdecode
  exact h hdecode.symm

end LlmTop
