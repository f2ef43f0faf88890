import LlmTop.Decimals
import LlmTop.Lib.Base64
import LlmTop.Tokenizer

/-!
# The ranks file

A line is a token in base 64, a space and the token's rank.  `base64_decode`
keeps every bit it has read in an `int`, which wraps around after six characters.
-/
namespace LlmTop
namespace Cl100kTokenizer

open Lib.Regroup

/-- `lut`: the place of a character in the alphabet, -1 where it has none. -/
def lut : List Int32 :=
  let a := ascii "ABCDEFGHIJKLMNOPQRSTUVWXYZabcdefghijklmnopqrstuvwxyz0123456789+/"
  (List.range 64).foldl (fun t i => t.set (a.getD i 0).toNat (Int32.ofNat i)) (List.replicate 256 (-1))

def base64DecodeLoop (out : Bytes) (val bits : Int32) : Bytes → Bytes
  | [] => out
  | c :: rest =>
      if c = '='.toUInt8 then out
      else
        let d := lut.getD c.toNat (-1)
        if d < 0 then base64DecodeLoop out val bits rest
        else
          let val := val <<< 6 ||| d
          let bits := bits + 6
          if 0 ≤ bits then
            base64DecodeLoop (out ++ [((val >>> bits) &&& 0xFF).toUInt32.toUInt8]) val (bits - 8) rest
          else base64DecodeLoop out val bits rest

def base64Decode (input : Bytes) : Bytes := base64DecodeLoop [] 0 (-8) input

example : base64Decode (ascii "Zm-8=") = ascii "fo" := by decide +kernel

/-! ## What is read -/

/-- The sextets in front of the first `=`; any other character is skipped. -/
def readSextets (input : Bytes) : List Nat :=
  (input.takeWhile (· ≠ '='.toUInt8)).filterMap Lib.Base64.standard.idxOf?

theorem lut_eq : lut = (List.range 256).map fun n =>
    (Lib.Base64.standard.findIdx? fun c => c.toNat == n).elim (-1) Int32.ofNat := by
  decide +kernel

theorem lut_getD (c : UInt8) :
    lut.getD c.toNat (-1) = (Lib.Base64.standard.idxOf? c).elim (-1) Int32.ofNat := by
  have hsame : (fun c' : UInt8 => c'.toNat == c.toNat) = (· == c) := by
    funext c'
    rw [Bool.eq_iff_iff, beq_iff_eq, beq_iff_eq, UInt8.toNat_inj]
  rw [lut_eq, Lib.Base64.getD_byteTable, hsame]
  rfl

theorem idxOf?_standard_lt {c : UInt8} {d : Nat} (h : Lib.Base64.standard.idxOf? c = some d) :
    d < 64 := by
  obtain ⟨hd, -⟩ := List.idxOf?_eq_some_iff.mp h
  exact Lib.Base64.length_standard ▸ hd

theorem readSextets_pad (rest : Bytes) : readSextets ('='.toUInt8 :: rest) = [] := rfl

section Read

variable {c : UInt8} (hpad : c ≠ '='.toUInt8) (rest : Bytes)

include hpad

theorem readSextets_skip (hd : lut.getD c.toNat (-1) < 0) :
    readSextets (c :: rest) = readSextets rest := by
  have hnone : Lib.Base64.standard.idxOf? c = none := by
    have hnonneg : ∀ d < 64, ¬ Int32.ofNat d < 0 := by decide
    rw [lut_getD] at hd
    cases hc : Lib.Base64.standard.idxOf? c with
    | none => rfl
    | some d =>
        rw [hc] at hd
        exact absurd hd (hnonneg d (idxOf?_standard_lt hc))
  rw [readSextets, List.takeWhile_cons_of_pos (p := (· ≠ '='.toUInt8)) (decide_eq_true hpad),
    List.filterMap_cons_none (f := (Lib.Base64.standard.idxOf? ·)) hnone]
  rfl

theorem readSextets_digit (hd : ¬ lut.getD c.toNat (-1) < 0) :
    ∃ d < 64, lut.getD c.toNat (-1) = Int32.ofNat d ∧
      readSextets (c :: rest) = d :: readSextets rest := by
  rw [lut_getD] at hd ⊢
  cases hc : Lib.Base64.standard.idxOf? c with
  | none =>
      rw [hc] at hd
      exact absurd (by decide) hd
  | some d =>
      refine ⟨d, idxOf?_standard_lt hc, rfl, ?_⟩
      rw [readSextets, List.takeWhile_cons_of_pos (p := (· ≠ '='.toUInt8)) (decide_eq_true hpad),
        List.filterMap_cons_some (f := (Lib.Base64.standard.idxOf? ·)) hc]
      rfl

end Read

/-! ## The accumulator -/

/-- Of the digits read, `out` has left and the low `kept` bits of `val` have not;
whatever is above them is left over. -/
structure Buffered (digits : List Nat) (out : Bytes) (val bits : Int32) (kept : Nat) : Prop where
  kept_lt : kept < 8
  bits_eq : bits = Int32.ofNat kept - 8
  reads : Reads 6 8 digits (out.map UInt8.toNat) kept (val.toBitVec.toNat % 2 ^ kept)

theorem buffered_nil : Buffered [] [] 0 (-8) 0 where
  kept_lt := by decide
  bits_eq := by decide
  reads := Reads.nil

/-- `(val >> bits) & 0xFF`. -/
theorem toNat_byte (val : Int32) {k : Nat} (hk : k < 6) :
    ((val >>> Int32.ofNat k) &&& 0xFF).toUInt32.toUInt8.toNat =
      val.toBitVec.toNat % 2 ^ (k + 8) / 2 ^ k := by
  have hamount : ∀ k < 6, ((Int32.ofNat k).toBitVec.smod 32).toNat = k := by decide
  have hshift : (val >>> Int32.ofNat k).toBitVec = val.toBitVec.sshiftRight k := by
    change val.toBitVec.sshiftRight ((Int32.ofNat k).toBitVec.smod 32).toNat = _
    rw [hamount k hk]
  have hmask : ((val >>> Int32.ofNat k) &&& 0xFF).toUInt32.toUInt8.toNat =
      (val >>> Int32.ofNat k).toBitVec.toNat % 2 ^ 8 := by
    change ((val >>> Int32.ofNat k).toBitVec &&& 255#32).toNat % 2 ^ 8 = _
    rw [BitVec.toNat_and, show (255#32).toNat = 2 ^ 8 - 1 from rfl, Nat.and_two_pow_sub_one_eq_mod,
      Nat.mod_mod]
  rw [hmask, hshift, shiftOut_mod _ (by omega), Nat.pow_add, Nat.mod_mul_right_div_self]

section Step

variable {digits : List Nat} {out : Bytes} {val bits : Int32} {kept d : Nat}
  (h : Buffered digits out val bits kept) (hd : d < 64)

include h hd

theorem Buffered.shiftIn : Reads 6 8 (digits ++ [d]) (out.map UInt8.toNat) (kept + 6)
    ((val <<< 6 ||| Int32.ofNat d).toBitVec.toNat % 2 ^ (kept + 6)) := by
  have hkept := h.kept_lt
  have hdigit : (BitVec.ofNat 32 d).toNat = d := by
    rw [BitVec.toNat_ofNat, Nat.mod_eq_of_lt (by omega)]
  have hread : (val.toBitVec <<< 6 ||| BitVec.ofNat 32 d).toNat % 2 ^ (kept + 6) =
      val.toBitVec.toNat % 2 ^ kept * 2 ^ 6 + d := by
    rw [shiftIn_mod _ (hdigit.symm ▸ hd) (by omega), hdigit]
  change Reads _ _ _ _ _ ((val.toBitVec <<< 6 ||| BitVec.ofNat 32 d).toNat % _)
  rw [hread]
  exact h.reads.read hd

/-- Less than a byte is held. -/
theorem Buffered.hold (hbits : ¬ 0 ≤ bits + 6) :
    Buffered (digits ++ [d]) out (val <<< 6 ||| Int32.ofNat d) (bits + 6) (kept + 6) := by
  have hcases : ∀ kept < 8, ¬ 0 ≤ Int32.ofNat kept - 8 + 6 →
      kept < 2 ∧ Int32.ofNat kept - 8 + 6 = Int32.ofNat (kept + 6) - 8 := by decide
  have hshift := h.shiftIn hd
  obtain ⟨hkept, rfl, -⟩ := h
  obtain ⟨hsmall, hnext⟩ := hcases kept hkept hbits
  exact ⟨by omega, hnext, hshift⟩

/-- The upper eight bits that are held leave. -/
theorem Buffered.give (hbits : 0 ≤ bits + 6) :
    Buffered (digits ++ [d])
      (out ++ [(((val <<< 6 ||| Int32.ofNat d) >>> (bits + 6)) &&& 0xFF).toUInt32.toUInt8])
      (val <<< 6 ||| Int32.ofNat d) (bits + 6 - 8) (kept - 2) := by
  have hcases : ∀ kept < 8, 0 ≤ Int32.ofNat kept - 8 + 6 →
      2 ≤ kept ∧ Int32.ofNat kept - 8 + 6 = Int32.ofNat (kept - 2) := by decide
  have hshift := h.shiftIn hd
  obtain ⟨hkept, rfl, -⟩ := h
  obtain ⟨hlarge, hnext⟩ := hcases kept hkept hbits
  obtain ⟨k, rfl⟩ := Nat.exists_eq_add_of_le' hlarge
  refine ⟨by omega, congrArg (· - 8) hnext, ?_⟩
  rw [hnext, List.map_append, List.map_singleton, Nat.add_sub_cancel, toNat_byte _ (by omega)]
  have hgive := Reads.give (show Reads 6 8 _ _ (k + 8) _ from hshift)
  rwa [Nat.mod_mod_of_dvd _ (Nat.pow_dvd_pow 2 (Nat.le_add_right k 8))] at hgive

end Step

/-- The loop from any round to its end. -/
theorem Buffered.loop {digits : List Nat} {out : Bytes} {val bits : Int32} {kept : Nat}
    (h : Buffered digits out val bits kept) (input : Bytes) :
    ∃ val' bits' kept', Buffered (digits ++ readSextets input)
      (base64DecodeLoop out val bits input) val' bits' kept' := by
  induction input generalizing digits out val bits kept with
  | nil =>
      refine ⟨val, bits, kept, ?_⟩
      rw [base64DecodeLoop, show readSextets [] = [] from rfl, List.append_nil]
      exact h
  | cons c rest ih =>
      rw [base64DecodeLoop]
      by_cases hpad : c = '='.toUInt8
      · refine ⟨val, bits, kept, ?_⟩
        rw [if_pos hpad, hpad, readSextets_pad, List.append_nil]
        exact h
      rw [if_neg hpad]
      by_cases hskip : lut.getD c.toNat (-1) < 0
      · rw [if_pos hskip, readSextets_skip hpad rest hskip]
        exact ih h
      obtain ⟨d, hd, hdigit, hread⟩ := readSextets_digit hpad rest hskip
      rw [if_neg hskip, hdigit, hread, List.append_cons]
      by_cases hbits : 0 ≤ bits + 6
      · rw [if_pos hbits]
        exact ih (h.give hd hbits)
      · rw [if_neg hbits]
        exact ih (h.hold hd hbits)

/-- The sextets of any text come out as bytes, and less than a byte's worth is lost. -/
theorem base64Decode_reads (input : Bytes) :
    ∃ kept < 8, ∃ held,
      Reads 6 8 (readSextets input) ((base64Decode input).map UInt8.toNat) kept held := by
  obtain ⟨val, bits, kept, h⟩ := buffered_nil.loop input
  exact ⟨kept, h.kept_lt, _, h.reads⟩

/-! ## What was encoded -/

theorem idxOf?_standard_getD {d : Nat} (hd : d < 64) :
    Lib.Base64.standard.idxOf? (Lib.Base64.standard.getD d 0) = some d := by
  have hall : ∀ d < 64, Lib.Base64.standard.idxOf? (Lib.Base64.standard.getD d 0) = some d := by
    decide +kernel
  exact hall d hd

theorem readSextets_encode (bytes : Bytes) :
    readSextets (Lib.Base64.encode Lib.Base64.standard bytes) = Lib.Base64.sextets bytes := by
  have hdigits := Lib.Base64.sextets_lt bytes
  have hchars : ∀ c ∈ Lib.Base64.encodeUnpadded Lib.Base64.standard bytes,
      decide (c ≠ '='.toUInt8) = true := by
    refine List.forall_mem_map.mpr fun d hd => decide_eq_true fun hpad => ?_
    have hindex := idxOf?_standard_getD (hdigits d hd)
    have hnone : Lib.Base64.standard.idxOf? '='.toUInt8 = none := by decide
    rw [hpad, hnone] at hindex
    contradiction
  have hpads (n : Nat) :
      List.takeWhile (fun c => decide (c ≠ '='.toUInt8)) (List.replicate n '='.toUInt8) = [] := by
    rw [List.takeWhile_replicate, if_neg (by decide)]
  rw [readSextets, Lib.Base64.encode, List.takeWhile_append_of_pos hchars, hpads, List.append_nil,
    Lib.Base64.encodeUnpadded, List.filterMap_map]
  exact (List.filterMap_congr fun d hd => idxOf?_standard_getD (hdigits d hd)).trans List.filterMap_some

/-- A text with the sextets of the bytes decodes to them, whatever else is in it. -/
theorem base64Decode_of_sextets {input bytes : Bytes} (h : readSextets input = Lib.Base64.sextets bytes) :
    base64Decode input = bytes := by
  obtain ⟨kept, hkept, held, hdecoded⟩ := base64Decode_reads input
  obtain ⟨kept', hkept', hencoded⟩ := Lib.Base64.reads_sextets bytes
  rw [h] at hdecoded
  exact List.map_injective_iff.mpr (fun _ _ => UInt8.toNat_inj.mp) (hdecoded.unique hencoded hkept hkept')

theorem base64Decode_encode (bytes : Bytes) :
    base64Decode (Lib.Base64.encode Lib.Base64.standard bytes) = bytes :=
  base64Decode_of_sextets (readSextets_encode bytes)

/-! ## Loading -/

inductive LoadError where
  | runtime (what : Bytes)
  /-- What `std::stoi` throws. -/
  | badRank
deriving DecidableEq, Repr

def cannotOpen : Bytes := ascii "Cl100kTokenizer: cannot open ranks file: "

def ranksEmpty : Bytes := ascii "Cl100kTokenizer: ranks file was empty: "

/-- One round of the constructor's loop. -/
def loadLine (ranks : RankMap) (line : Bytes) : Except LoadError RankMap :=
  let line := if line.getLast? = some '\r'.toUInt8 then line.dropLast else line
  if line.isEmpty then .ok ranks
  else
    match Lib.Search.find ' '.toUInt8 line with
    | none => .ok ranks
    | some sp =>
        let token := base64Decode (line.take sp)
        match stoi (line.drop (sp + 1)) with
        | none => .error .badRank
        | some rank => .ok (ranks.insert token rank)

/-- The constructor; `file` is `none` when there is nothing to open under the path. -/
def load (ranksPath : Bytes) (file : Option Bytes) : Except LoadError RankMap :=
  match file with
  | none => .error (.runtime (cannotOpen ++ ranksPath))
  | some text => do
      let ranks ← (lines text).foldlM loadLine ∅
      if ranks.entries.isEmpty then .error (.runtime (ranksEmpty ++ ranksPath)) else .ok ranks

/-- A line of the file without its newline. -/
def rankLine (cr : Bool) (entry : Bytes × Int) : Bytes :=
  Lib.Base64.encode Lib.Base64.standard entry.1 ++ ' '.toUInt8 :: toDecimal entry.2 ++
    if cr then ['\r'.toUInt8] else []

/-- The file with these entries, its lines ended in either way. -/
def rankFile (cr : Bool) (entries : List (Bytes × Int)) : Bytes :=
  entries.flatMap fun entry => rankLine cr entry ++ ['\n'.toUInt8]

/-- The later one of two entries for a token stays. -/
def rankTable (entries : List (Bytes × Int)) : RankMap :=
  entries.foldl (fun ranks entry => ranks.insert entry.1 entry.2) ∅

section Line

theorem not_isSpace_of_mem_encode {bytes : Bytes} {c : UInt8}
    (h : c ∈ Lib.Base64.encode Lib.Base64.standard bytes) : LlmTop.isSpace c = false := by
  have hall : (Lib.Base64.standard.all fun c => !LlmTop.isSpace c) = true := by decide +kernel
  rcases Lib.Base64.mem_encode Lib.Base64.length_standard h with h | rfl
  · exact (Bool.not_eq_true' _).mp (List.all_eq_true.mp hall c h)
  · decide

theorem not_isSpace_of_mem_toDecimal {n : Int} {c : UInt8} (h : c ∈ toDecimal n) :
    LlmTop.isSpace c = false := by
  have hdigit : c ∈ natDecimal n.natAbs → LlmTop.isSpace c = false :=
    fun hc => not_isSpace_of_isDigit (isDigit_of_mem_natDecimal hc)
  unfold toDecimal at h
  split at h
  · rcases List.mem_cons.mp h with rfl | h
    · decide
    · exact hdigit h
  · exact hdigit h

variable (cr : Bool) (entry : Bytes × Int)

theorem rankLine_false : rankLine false entry =
    Lib.Base64.encode Lib.Base64.standard entry.1 ++ ' '.toUInt8 :: toDecimal entry.2 :=
  List.append_nil _

variable {entry}

theorem mem_rankLine {c : UInt8} (h : c ∈ rankLine cr entry) :
    LlmTop.isSpace c = false ∨ c = ' '.toUInt8 ∨ cr = true ∧ c = '\r'.toUInt8 := by
  rcases List.mem_append.mp h with h | h
  · rcases List.mem_append.mp h with htoken | h
    · exact Or.inl (not_isSpace_of_mem_encode htoken)
    · rcases List.mem_cons.mp h with hspace | hrank
      · exact Or.inr (Or.inl hspace)
      · exact Or.inl (not_isSpace_of_mem_toDecimal hrank)
  · cases cr with
    | true => exact Or.inr (Or.inr ⟨rfl, List.mem_singleton.mp h⟩)
    | false => exact absurd h List.not_mem_nil

theorem newline_not_mem_rankLine : '\n'.toUInt8 ∉ rankLine cr entry := by
  intro h
  rcases mem_rankLine cr h with hplain | hspace | ⟨-, hreturn⟩
  · exact absurd hplain (by decide)
  · exact absurd hspace (by decide)
  · exact absurd hreturn (by decide)

theorem return_not_mem_rankLine : '\r'.toUInt8 ∉ rankLine false entry := by
  intro h
  rcases mem_rankLine false h with hplain | hspace | ⟨hcr, -⟩
  · exact absurd hplain (by decide)
  · exact absurd hspace (by decide)
  · contradiction

/-- Only the carriage return at a line's end is dropped. -/
theorem strip_rankLine :
    (if (rankLine cr entry).getLast? = some '\r'.toUInt8 then (rankLine cr entry).dropLast
      else rankLine cr entry) = rankLine false entry := by
  cases cr with
  | true =>
      rw [rankLine, ← rankLine_false, if_pos rfl, if_pos List.getLast?_concat, List.dropLast_concat]
  | false => exact if_neg fun hlast => return_not_mem_rankLine (List.mem_of_getLast? hlast)

theorem loadLine_rankLine (ranks : RankMap) (hlow : -2 ^ 31 ≤ entry.2) (hhigh : entry.2 ≤ 2 ^ 31 - 1) :
    loadLine ranks (rankLine cr entry) = .ok (ranks.insert entry.1 entry.2) := by
  have hfind : Lib.Search.find ' '.toUInt8 (rankLine false entry) =
      some (Lib.Base64.encode Lib.Base64.standard entry.1).length := by
    rw [rankLine_false]
    refine Lib.Search.find_append _ fun hspace => ?_
    exact absurd (not_isSpace_of_mem_encode hspace) (by decide)
  have hne : (rankLine false entry).isEmpty = false := by
    rw [rankLine_false]
    simp
  rw [loadLine, strip_rankLine, hne, if_neg Bool.false_ne_true, hfind]
  dsimp only
  rw [rankLine_false, List.take_left, List.drop_append, List.drop_eq_nil_of_le (Nat.le_succ _),
    Nat.add_sub_cancel_left, base64Decode_of_sextets (readSextets_encode _), List.nil_append,
    List.drop_one, List.tail_cons, stoi, parseInteger_toDecimal hlow hhigh]

end Line

theorem lines_rankFile (cr : Bool) (entries : List (Bytes × Int)) :
    lines (rankFile cr entries) = entries.map (rankLine cr) := by
  induction entries with
  | nil => rfl
  | cons entry entries ih =>
      have hword : ∀ c ∈ rankLine cr entry, (c == '\n'.toUInt8) = false :=
        fun c hc => beq_eq_false_iff_ne.mpr fun heq => newline_not_mem_rankLine cr (heq ▸ hc)
      rw [rankFile, List.flatMap_cons, List.append_assoc, List.map_cons, ← ih]
      exact Lib.Split.splitTerminated_append _ hword (by decide)

theorem foldlM_loadLine (cr : Bool) {entries : List (Bytes × Int)}
    (hrange : ∀ entry ∈ entries, -2 ^ 31 ≤ entry.2 ∧ entry.2 ≤ 2 ^ 31 - 1) (ranks : RankMap) :
    (entries.map (rankLine cr)).foldlM loadLine ranks =
      .ok (entries.foldl (fun ranks entry => ranks.insert entry.1 entry.2) ranks) := by
  induction entries generalizing ranks with
  | nil => rfl
  | cons entry entries ih =>
      obtain ⟨⟨hlow, hhigh⟩, hrest⟩ := List.forall_mem_cons.mp hrange
      rw [List.map_cons, List.foldlM_cons, loadLine_rankLine cr ranks hlow hhigh]
      exact ih hrest _

theorem rankTable_concat (entries : List (Bytes × Int)) (entry : Bytes × Int) :
    rankTable (entries ++ [entry]) = (rankTable entries).insert entry.1 entry.2 :=
  List.foldl_concat ..

/-- A file that was written from entries loads as their table. -/
theorem load_rankFile (ranksPath : Bytes) (cr : Bool) {entries : List (Bytes × Int)} (hne : entries ≠ [])
    (hrange : ∀ entry ∈ entries, -2 ^ 31 ≤ entry.2 ∧ entry.2 ≤ 2 ^ 31 - 1) :
    load ranksPath (some (rankFile cr entries)) = .ok (rankTable entries) := by
  have htable : (rankTable entries).entries.isEmpty = false := by
    obtain ⟨front, entry, rfl⟩ := (List.eq_nil_or_concat entries).resolve_left hne
    rw [List.concat_eq_append, rankTable_concat, AList.entries_insert, List.isEmpty_cons]
  have hrun := foldlM_loadLine cr hrange ∅
  rw [load, lines_rankFile, hrun]
  exact if_neg (Bool.eq_false_iff.mp htable)

theorem find_rankTable (entries : List (Bytes × Int)) (token : Bytes) :
    (rankTable entries).find token = entries.reverse.lookup token := by
  induction entries using List.reverseRecOn with
  | nil => rfl
  | append_singleton entries entry ih =>
      obtain ⟨other, rank⟩ := entry
      rw [rankTable_concat, List.reverse_append, List.reverse_singleton, List.singleton_append,
        List.lookup_cons, RankMap.find]
      by_cases htoken : token = other
      · rw [htoken, AList.lookup_insert, beq_self_eq_true]
      · rw [AList.lookup_insert_ne htoken, beq_eq_false_iff_ne.mpr htoken]
        exact ih

theorem mem_of_find_rankTable {entries : List (Bytes × Int)} {token : Bytes} {r : Int}
    (h : (rankTable entries).find token = some r) : (token, r) ∈ entries := by
  rw [find_rankTable, List.lookup_eq_some_iff] at h
  obtain ⟨later, earlier, hsplit, -⟩ := h
  rw [← List.mem_reverse, hsplit]
  exact List.mem_append_right later List.mem_cons_self

/-- Entries with every ASCII byte and no rank twice make a vocabulary. -/
theorem vocabulary_rankTable {entries : List (Bytes × Int)}
    (hbytes : ∀ c : UInt8, c < 0x80 → [c] ∈ entries.map Prod.fst)
    (hranks : (entries.map Prod.snd).Nodup) : Vocabulary (rankTable entries) where
  bytes c hc := by
    obtain ⟨entry, hentry, htoken⟩ := List.mem_map.mp (hbytes c hc)
    rw [find_rankTable, List.lookup_isSome_iff]
    exact ⟨entry, List.mem_reverse.mpr hentry, beq_iff_eq.mpr htoken.symm⟩
  distinct token other r htoken hother := by
    have hsame := List.inj_on_of_nodup_map hranks (mem_of_find_rankTable htoken)
      (mem_of_find_rankTable hother) rfl
    exact congrArg Prod.fst hsame

end Cl100kTokenizer
end LlmTop
