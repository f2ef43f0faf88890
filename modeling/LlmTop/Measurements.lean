import LlmTop.Evaluator
import LlmTop.Tokenizer

/-!
# What is measured

A token stands for at least one byte, whatever the ranks are.  With a ranks file
that knows the ASCII bytes the measuring program succeeds on the ASCII payloads
and on no others, and the ids it counts are the payload.
-/
namespace LlmTop
namespace Cl100kTokenizer

open Lib.PairMerge

/-! ## Counts and lengths -/

theorem length_mapM {ranks : RankMap} {parts : List Bytes} {ids : List Int}
    (h : parts.mapM ranks.find = some ids) : ids.length = parts.length := by
  induction parts generalizing ids with
  | nil =>
      obtain rfl : [] = ids := Option.some.inj h
      rfl
  | cons part parts ih =>
      rw [List.mapM_cons] at h
      obtain ⟨id, -, hrest⟩ := Option.bind_eq_some_iff.mp h
      obtain ⟨rest, hmap, hcons⟩ := Option.bind_eq_some_iff.mp hrest
      obtain rfl : id :: rest = ids := Option.some.inj hcons
      exact congrArg Nat.succ (ih hmap)

/-- A piece becomes at most one token for each byte, and a piece with bytes at
least one. -/
theorem bpe_length {ranks : RankMap} {piece : Bytes} (hpiece : piece.length < kNone)
    {out ids : List Int} (h : bpe ranks piece out = .ok ids) :
    ids.length ≤ out.length + piece.length ∧ (piece ≠ [] → out.length < ids.length) := by
  obtain ⟨parts, hreduces, hbpe⟩ := exists_reduces_bpe hpiece out
  rw [hbpe] at h
  cases hids : parts.mapM ranks.find with
  | none =>
      rw [hids] at h
      contradiction
  | some added =>
      rw [hids] at h
      obtain rfl : out ++ added = ids := Except.ok.inj h
      have hcount := length_mapM hids
      have hle := hreduces.length_le
      rw [List.length_map] at hle
      rw [List.length_append]
      refine ⟨by omega, fun hne => ?_⟩
      have hparts : parts ≠ [] := by
        rintro rfl
        have hflatten := hreduces.flatten
        rw [show (piece.map fun c => [c]).flatten = piece from List.flatMap_singleton' piece] at hflatten
        exact hne hflatten.symm
      have hpos := List.length_pos_iff.mpr hparts
      omega

/-- Each round of `encode` adds at most as many tokens as it takes bytes, and one at least. -/
theorem encodeLoop_length {ranks : RankMap} {fuel : Nat} {text : Bytes} {out ids : List Int}
    (htext : text.length < kNone) (h : encodeLoop ranks fuel text out = .ok ids) :
    ids.length ≤ out.length + text.length ∧ out.length ≤ ids.length ∧
      (text ≠ [] → fuel ≠ 0 → out.length < ids.length) := by
  induction fuel generalizing text out with
  | zero =>
      obtain rfl : out = ids := Except.ok.inj h
      exact ⟨Nat.le_add_right _ _, Nat.le_refl _, fun _ hfuel => absurd rfl hfuel⟩
  | succ fuel ih =>
      cases text with
      | nil =>
          obtain rfl : out = ids := Except.ok.inj h
          exact ⟨Nat.le_refl _, Nat.le_refl _, fun hne => absurd rfl hne⟩
      | cons c rest =>
          obtain ⟨hpos, hle⟩ := nextPretoken_bounds (List.cons_ne_nil c rest)
          have htake := List.length_take_of_le hle
          have hdrop : ((c :: rest).drop (nextPretoken (c :: rest))).length =
              (c :: rest).length - nextPretoken (c :: rest) := List.length_drop
          rw [encodeLoop] at h
          cases hbpe : bpe ranks ((c :: rest).take (nextPretoken (c :: rest))) out with
          | error what =>
              rw [hbpe] at h
              contradiction
          | ok mid =>
              rw [hbpe] at h
              obtain ⟨hmost, hleast⟩ := bpe_length (by omega) hbpe
              have hgrows := hleast (List.length_pos_iff.mp (by omega))
              obtain ⟨hmore, hkeep, -⟩ := ih (by omega) h
              exact ⟨by omega, by omega, fun _ _ => by omega⟩

theorem encode_not_ascii {ranks : RankMap} {text : Bytes} (h : ¬ ∀ c ∈ text, c < 0x80) :
    ∃ what, encode ranks text = .error what := by
  unfold encode requireAscii
  cases hfind : text.findIdx? fun c => 0x80 ≤ c with
  | some i => exact ⟨_, rfl⟩
  | none =>
      rw [List.findIdx?_eq_none_iff] at hfind
      exact absurd (fun c hc => UInt8.not_le.mp (of_decide_eq_false (hfind c hc))) h

/-- An ASCII text has ids that decode to it, no more than it has bytes. -/
theorem Vocabulary.encode_ascii {ranks : RankMap} (h : Vocabulary ranks) {text : Bytes}
    (hascii : ∀ c ∈ text, c < 0x80) (htext : text.length < kNone) :
    ∃ ids, encode ranks text = .ok ids ∧ decode ranks ids = .ok text ∧
      ids.length ≤ text.length ∧ (text ≠ [] → ids ≠ []) := by
  obtain ⟨hflatten, -⟩ := pretokenLoop_spec (Nat.le_refl text.length)
  have hpart : ∀ piece ∈ pretokenLoop text.length text, piece.length ≤ text.length := by
    intro piece hpiece
    have hle := (List.sublist_flatten_of_mem hpiece).length_le
    rwa [hflatten] at hle
  have hbytes : ∀ piece ∈ pretokenLoop text.length text, ∀ c ∈ piece, c < 0x80 := by
    intro piece hpiece c hc
    refine hascii c ?_
    rw [← hflatten]
    exact List.mem_flatten_of_mem hpiece hc
  obtain ⟨parts, ids, hids, hparts, hrun⟩ :=
    h.foldlM_bpe hbytes (fun piece hpiece => Nat.lt_of_le_of_lt (hpart piece hpiece) htext) []
  have hloop : encodeLoop ranks text.length text [] = .ok ids := (encodeLoop_eq ..).trans hrun
  obtain ⟨hmost, -, hleast⟩ := encodeLoop_length htext hloop
  refine ⟨ids, ?_, ?_, ?_, fun hne => ?_⟩
  · rw [encode, requireAscii_ok hascii]
    exact hloop
  · rw [h.decode_mapM hids, hparts, hflatten]
  · simpa using hmost
  · exact List.length_pos_iff.mp (hleast hne (List.length_pos_iff.mpr hne).ne')

end Cl100kTokenizer

namespace LlmtopEval

open Cl100kTokenizer Lib

/-- Each ASCII byte under its own number. -/
def byteEntries : List (Bytes × Int) := (List.range 128).map fun n => ([UInt8.ofNat n], (n : Int))

theorem mem_byteEntries (c : UInt8) (hc : c < 0x80) : [c] ∈ byteEntries.map Prod.fst := by
  rw [byteEntries, List.map_map]
  refine List.mem_map.mpr ⟨c.toNat, List.mem_range.mpr hc, ?_⟩
  exact congrArg (fun c => [c]) UInt8.ofNat_toNat

/-- A frame comes in on the standard input, the ranks file has CRLF lines. -/
def byteHost : Host where
  ranksPath := ascii "ranks"
  file path := if path = ascii "ranks" then some (rankFile true byteEntries) else none
  stdin := ascii "VER:2"
  stoiWhat := ascii "stoi"

end LlmtopEval
end LlmTop
