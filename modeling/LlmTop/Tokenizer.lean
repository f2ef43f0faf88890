import LlmTop.BpeReference
import LlmTop.PretokenSplit

/-!
# The tokenizer loses nothing

`encode` and `decode` over the two halves, the split and the merge, and what a
vocabulary needs for them to be inverse.
-/
namespace LlmTop
namespace Cl100kTokenizer

open Lib.PairMerge

/-- The loop of `encode`; each round takes at least one byte. -/
def encodeLoop (ranks : RankMap) : Nat → Bytes → List Int → Except Bytes (List Int)
  | 0, _, out => .ok out
  | _ + 1, [], out => .ok out
  | fuel + 1, c :: rest, out => do
      let len := nextPretoken (c :: rest)
      let out ← bpe ranks ((c :: rest).take len) out
      encodeLoop ranks fuel ((c :: rest).drop len) out

def encode (ranks : RankMap) (text : Bytes) : Except Bytes (List Int) := do
  requireAscii text
  encodeLoop ranks text.length text []

/-- `inverse_`: of two byte strings under one id the later one stays. -/
def inverse (ranks : RankMap) : AList fun _ : Int => Bytes :=
  ranks.entries.foldl (fun inv kv => inv.insert kv.2 kv.1) ∅

def unknownId : Bytes := ascii "Cl100kTokenizer: unknown token id in decode"

def decodeId (ranks : RankMap) (out : Bytes) (id : Int) : Except Bytes Bytes :=
  match (inverse ranks).lookup id with
  | none => .error unknownId
  | some token => .ok (out ++ token)

def decode (ranks : RankMap) (ids : List Int) : Except Bytes Bytes :=
  ids.foldlM (decodeId ranks) []

/-- Every ASCII byte has an id, and no id stands for two byte strings. -/
structure Vocabulary (ranks : RankMap) : Prop where
  bytes : ∀ c : UInt8, c < 0x80 → (ranks.find [c]).isSome = true
  distinct : ∀ token other r, ranks.find token = some r → ranks.find other = some r → token = other

/-! ## The id map -/

theorem lookup_foldl_insert {entries : List (Sigma fun _ : Bytes => Int)} {token : Bytes} {r : Int}
    (h : ∀ kv ∈ entries, kv.2 = r → kv.1 = token) {inv : AList fun _ : Int => Bytes}
    (hmem : ⟨token, r⟩ ∈ entries ∨ inv.lookup r = some token) :
    (entries.foldl (fun inv kv => inv.insert kv.2 kv.1) inv).lookup r = some token := by
  induction entries generalizing inv with
  | nil => exact hmem.resolve_left List.not_mem_nil
  | cons kv entries ih =>
      obtain ⟨hkv, hrest⟩ := List.forall_mem_cons.mp h
      refine ih hrest ?_
      by_cases hrank : kv.2 = r
      · refine Or.inr ?_
        rw [← hrank, AList.lookup_insert, hkv hrank]
      · rw [AList.lookup_insert_ne (Ne.symm hrank)]
        refine hmem.imp_left fun hin => (List.mem_cons.mp hin).resolve_left fun heq => hrank ?_
        rw [← heq]

theorem Vocabulary.lookup_inverse {ranks : RankMap} (h : Vocabulary ranks) {token : Bytes} {r : Int}
    (hfind : ranks.find token = some r) : (inverse ranks).lookup r = some token := by
  refine lookup_foldl_insert (fun kv hkv hrank => ?_) (Or.inl (AList.mem_lookup_iff.mp hfind))
  obtain ⟨other, rank⟩ := kv
  obtain rfl : rank = r := hrank
  exact h.distinct other token rank (AList.mem_lookup_iff.mpr hkv) hfind

/-- Decoding the ids of parts puts the parts together. -/
theorem Vocabulary.decode_mapM {ranks : RankMap} (h : Vocabulary ranks) {parts : List Bytes}
    {ids : List Int} (hids : parts.mapM ranks.find = some ids) :
    decode ranks ids = .ok parts.flatten := by
  have hrun : ∀ out, ids.foldlM (decodeId ranks) out = .ok (out ++ parts.flatten) := by
    induction parts generalizing ids with
    | nil =>
        obtain rfl : [] = ids := Option.some.inj hids
        exact fun out => congrArg Except.ok (List.append_nil out).symm
    | cons part parts ih =>
        rw [List.mapM_cons] at hids
        obtain ⟨id, hid, hrest⟩ := Option.bind_eq_some_iff.mp hids
        obtain ⟨rest, hmap, hcons⟩ := Option.bind_eq_some_iff.mp hrest
        obtain rfl : id :: rest = ids := Option.some.inj hcons
        intro out
        rw [List.foldlM_cons, decodeId, h.lookup_inverse hid]
        refine (ih hmap (out ++ part)).trans ?_
        rw [List.flatten_cons, List.append_assoc]
  exact hrun []

theorem exists_mapM {ranks : RankMap} {parts : List Bytes}
    (h : ∀ part ∈ parts, (ranks.find part).isSome = true) : ∃ ids, parts.mapM ranks.find = some ids := by
  induction parts with
  | nil => exact ⟨[], rfl⟩
  | cons part parts ih =>
      obtain ⟨hpart, hparts⟩ := List.forall_mem_cons.mp h
      obtain ⟨id, hid⟩ := Option.isSome_iff_exists.mp hpart
      obtain ⟨ids, hids⟩ := ih hparts
      refine ⟨id :: ids, ?_⟩
      rw [List.mapM_cons, hid, hids]
      rfl

/-! ## The split -/

/-- The pre-tokens are not empty and make up the text. -/
theorem pretokenLoop_spec {fuel : Nat} {text : Bytes} (hfuel : text.length ≤ fuel) :
    (pretokenLoop fuel text).flatten = text ∧ ∀ piece ∈ pretokenLoop fuel text, 1 ≤ piece.length := by
  induction fuel generalizing text with
  | zero =>
      obtain rfl := List.length_eq_zero_iff.mp (Nat.le_zero.mp hfuel)
      exact ⟨rfl, nofun⟩
  | succ fuel ih =>
      cases text with
      | nil => exact ⟨rfl, nofun⟩
      | cons c rest =>
          obtain ⟨hpos, hle⟩ := nextPretoken_bounds (List.cons_ne_nil c rest)
          obtain ⟨hflatten, hpieces⟩ := @ih ((c :: rest).drop (nextPretoken (c :: rest))) (by
            rw [List.length_drop]
            omega)
          rw [pretokenLoop]
          refine ⟨?_, List.forall_mem_cons.mpr ⟨?_, hpieces⟩⟩
          · rw [List.flatten_cons, hflatten, List.take_append_drop]
          · rw [List.length_take_of_le hle]
            exact hpos

theorem encodeLoop_eq (ranks : RankMap) (fuel : Nat) (text : Bytes) (out : List Int) :
    encodeLoop ranks fuel text out =
      (pretokenLoop fuel text).foldlM (fun out piece => bpe ranks piece out) out := by
  induction fuel generalizing text out with
  | zero => rfl
  | succ fuel ih =>
      cases text with
      | nil => rfl
      | cons c rest =>
          rw [encodeLoop, pretokenLoop, List.foldlM_cons]
          exact congrArg _ (funext (ih _))

/-! ## The merge -/

/-- An ASCII piece is merged into parts that all have an id. -/
theorem Vocabulary.bpe_eq {ranks : RankMap} (h : Vocabulary ranks) {piece : Bytes}
    (hascii : ∀ c ∈ piece, c < 0x80) (hpiece : piece.length < kNone) :
    ∃ (parts : List Bytes) (ids : List Int), parts.mapM ranks.find = some ids ∧ parts.flatten = piece ∧
      ∀ out, bpe ranks piece out = .ok (out ++ ids) := by
  have hbytes : ∀ word ∈ piece.map fun c => [c], (ranks.find word).isSome = true := by
    rw [List.forall_mem_map]
    exact fun c hc => h.bytes c (hascii c hc)
  obtain ⟨parts, hreduces, -⟩ := @exists_reduces_bpe ranks _ hpiece []
  obtain ⟨ids, hids⟩ := exists_mapM (hreduces.ranked hbytes)
  refine ⟨parts, ids, hids, ?_, fun out => ?_⟩
  · rw [hreduces.flatten]
    exact List.flatMap_singleton' piece
  · obtain ⟨parts', hreduces', hbpe⟩ := @exists_reduces_bpe ranks _ hpiece out
    rw [hbpe, hreduces'.unique hreduces, hids]
    rfl

theorem Vocabulary.foldlM_bpe {ranks : RankMap} (h : Vocabulary ranks) {pieces : List Bytes}
    (hascii : ∀ piece ∈ pieces, ∀ c ∈ piece, c < 0x80)
    (hpieces : ∀ piece ∈ pieces, piece.length < kNone) (out : List Int) :
    ∃ (parts : List Bytes) (ids : List Int), parts.mapM ranks.find = some ids ∧ parts.flatten = pieces.flatten ∧
      pieces.foldlM (fun out piece => bpe ranks piece out) out = .ok (out ++ ids) := by
  induction pieces generalizing out with
  | nil => exact ⟨[], [], rfl, rfl, congrArg Except.ok (List.append_nil out).symm⟩
  | cons piece pieces ih =>
      obtain ⟨hfirst, hascii⟩ := List.forall_mem_cons.mp hascii
      obtain ⟨hshort, hpieces⟩ := List.forall_mem_cons.mp hpieces
      obtain ⟨parts, ids, hids, hflatten, hbpe⟩ := h.bpe_eq hfirst hshort
      obtain ⟨parts', ids', hids', hflatten', hrest⟩ := ih hascii hpieces (out ++ ids)
      refine ⟨parts ++ parts', ids ++ ids', ?_, ?_, ?_⟩
      · rw [List.mapM_append, hids, hids']
        rfl
      · rw [List.flatten_append, List.flatten_cons, hflatten, hflatten']
      · rw [List.foldlM_cons, hbpe, ← List.append_assoc]
        exact hrest

/-- Any ASCII text is encoded, and decoding gives it back; its pre-tokens are
the text, cut into pieces of at least one byte. -/
theorem decode_encode_text {ranks : RankMap} (hranks : Vocabulary ranks) {text : Bytes}
    (hascii : ∀ c ∈ text, c < 0x80)
    (hpieces : ∀ pieces, pretokens text = .ok pieces → ∀ piece ∈ pieces, piece.length < 2 ^ 32 - 1) :
    (∃ ids, encode ranks text = .ok ids ∧ decode ranks ids = .ok text) ∧
      (∃ pieces, pretokens text = .ok pieces ∧ (∀ piece ∈ pieces, 1 ≤ piece.length) ∧
        pieces.flatten = text) ∧
      ∀ i < text.length, 1 ≤ nextPretoken (text.drop i) ∧
        i + nextPretoken (text.drop i) ≤ text.length := by
  have hpretokens : pretokens text = .ok (pretokenLoop text.length text) := by
    rw [pretokens, requireAscii_ok hascii]
    rfl
  obtain ⟨hflatten, hpos⟩ := pretokenLoop_spec (Nat.le_refl text.length)
  refine ⟨?_, ⟨_, hpretokens, hpos, hflatten⟩, fun i hi => ?_⟩
  · have hbytes : ∀ piece ∈ pretokenLoop text.length text, ∀ c ∈ piece, c < 0x80 := by
      intro piece hpiece c hc
      refine hascii c ?_
      rw [← hflatten]
      exact List.mem_flatten_of_mem hpiece hc
    obtain ⟨parts, ids, hids, hparts, hrun⟩ :=
      hranks.foldlM_bpe hbytes (hpieces _ hpretokens) []
    refine ⟨ids, ?_, ?_⟩
    · rw [encode, requireAscii_ok hascii]
      exact (encodeLoop_eq ..).trans hrun
    · rw [hranks.decode_mapM hids, hparts, hflatten]
  · have hne : text.drop i ≠ [] := by
      rw [ne_eq, List.drop_eq_nil_iff]
      exact Nat.not_le.mpr hi
    obtain ⟨hfirst, hlast⟩ := nextPretoken_bounds hne
    rw [List.length_drop] at hlast
    exact ⟨hfirst, by omega⟩

/-- Each ASCII byte under its own number. -/
def byteRanks : RankMap where
  entries := (List.range 128).map fun n => ⟨[UInt8.ofNat n], Int.ofNat n⟩
  nodupKeys := by
    rw [List.NodupKeys, List.keys, List.map_map]
    refine List.Nodup.map_on (fun m hm n hn heq => ?_) List.nodup_range
    have hnat := congrArg UInt8.toNat (List.cons.inj heq).1
    rw [UInt8.toNat_ofNat', UInt8.toNat_ofNat'] at hnat
    rw [List.mem_range] at hm hn
    omega

theorem find_byteRanks {token : Bytes} {r : Int} :
    byteRanks.find token = some r ↔ ∃ n < 128, token = [UInt8.ofNat n] ∧ r = Int.ofNat n := by
  rw [RankMap.find, ← Option.mem_def, AList.mem_lookup_iff, byteRanks, List.mem_map]
  simp only [List.mem_range, Sigma.mk.injEq, heq_eq_eq, eq_comm]

/-- The ASCII bytes, and one pair. -/
def asciiRanks : RankMap := AList.insert (ascii "ab") 128 byteRanks

theorem vocabulary_asciiRanks : Vocabulary asciiRanks where
  bytes c hc := by
    have hne : [c] ≠ ascii "ab" := fun heq => by cases heq
    have hfind : byteRanks.find [c] = some (Int.ofNat c.toNat) :=
      find_byteRanks.mpr ⟨c.toNat, hc, by rw [UInt8.ofNat_toNat], rfl⟩
    rw [RankMap.find, asciiRanks, AList.lookup_insert_ne hne]
    exact Option.isSome_iff_exists.mpr ⟨_, hfind⟩
  distinct token other r htoken hother := by
    have hcases : ∀ {token}, asciiRanks.find token = some r →
        (token = ascii "ab" ∧ r = 128) ∨ byteRanks.find token = some r := by
      intro token hfind
      by_cases hpair : token = ascii "ab"
      · rw [hpair, RankMap.find, asciiRanks, AList.lookup_insert] at hfind
        exact Or.inl ⟨hpair, (Option.some.inj hfind).symm⟩
      · rw [RankMap.find, asciiRanks, AList.lookup_insert_ne hpair] at hfind
        exact Or.inr hfind
    rcases hcases htoken with ⟨rfl, hr⟩ | htoken <;> rcases hcases hother with ⟨rfl, hr'⟩ | hother
    · rfl
    · obtain ⟨n, hn, -, rfl⟩ := find_byteRanks.mp hother
      simp only [Int.ofNat_eq_natCast] at hr
      omega
    · obtain ⟨n, hn, -, rfl⟩ := find_byteRanks.mp htoken
      simp only [Int.ofNat_eq_natCast] at hr'
      omega
    · obtain ⟨n, -, rfl, rfl⟩ := find_byteRanks.mp htoken
      obtain ⟨m, -, rfl, hm⟩ := find_byteRanks.mp hother
      rw [Int.ofNat.inj hm]

theorem decode_encode_words :
    ∃ ids, encode asciiRanks (ascii "it's 12  tabs;") = .ok ids ∧
      decode asciiRanks ids = .ok (ascii "it's 12  tabs;") := by
  have hpretokens : pretokens (ascii "it's 12  tabs;") =
      .ok (["it", "'s", " ", "12", "  ", "tabs", ";"].map ascii) := by decide +kernel
  refine (decode_encode_text vocabulary_asciiRanks (by decide +kernel) fun pieces hpieces => ?_).1
  obtain rfl := Except.ok.inj (hpretokens.symm.trans hpieces)
  decide +kernel

end Cl100kTokenizer
end LlmTop
