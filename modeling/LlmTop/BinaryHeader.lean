import LlmTop.BinaryRoundTrip
import LlmTop.HeaderFields
import LlmTop.TokenLines

/-!
# The binary header of a parsed frame

A header is written to binary, decoded to a line of tokens and parsed again.
Fields are written in a fixed order, so the value of a parsed header that leaves
a quote open can end up in front of others.
-/
namespace LlmTop

/-! ## The decoded line -/

/-- `encode_header` on the fields of a header; the call converts `hr` to 32 bits. -/
def Header.encode (h : Header) : Bytes :=
  BinaryEncoder.encodeHeader h.ver h.chk h.agt h.uid h.tim h.reqid h.fallback (UInt32.ofInt h.hr)

def emittedKeys (h : Header) : List Bytes :=
  ["VER", "CHK", "AGT", "UID", "TIM", "REQID"].map ascii ++
    (if h.fallback = [] then [] else [ascii "FALLBACK"])

def hrWords (h : Header) : List Bytes :=
  if UInt32.ofInt h.hr = 0 then []
  else [fieldToken (ascii "HR") (natDecimal (UInt32.ofInt h.hr).toNat)]

/-- The fields in the order in which the encoder writes them. -/
def headerWords (h : Header) : List Bytes :=
  (emittedKeys h).map (fun k => fieldToken k (h.text k)) ++ hrWords h

theorem headerLine_eq (h : Header) :
    BinaryEncoder.headerLine h.ver h.chk h.agt h.uid h.tim h.reqid h.fallback (UInt32.ofInt h.hr) =
      spaced ' '.toUInt8 (headerWords h) := by
  have hcolon : ':'.toUInt8 = 58 := rfl
  have hblank : ' '.toUInt8 = 32 := rfl
  unfold BinaryEncoder.headerLine headerWords emittedKeys hrWords
  by_cases hfallback : h.fallback = [] <;> by_cases hhr : UInt32.ofInt h.hr = 0 <;>
    simp [hfallback, hhr, spaced, fieldToken, Header.text, ascii, hcolon, hblank]

theorem text_of_emitted {h : Header} {k : Bytes} (hk : k ∈ emittedKeys h) : k ∈ textKeys := by
  unfold emittedKeys at hk
  rcases List.mem_append.mp hk with hk | hk
  · exact List.mem_append_left _ hk
  · split at hk
    · contradiction
    · obtain rfl := List.mem_singleton.mp hk
      decide

/-! ## Words -/

theorem plain_word {word : Bytes} (hne : word ≠ [])
    (hplain : ∀ c ∈ word, c ≠ ' '.toUInt8 ∧ c ≠ quote ∧ c ≠ backslash) :
    Solid ' '.toUInt8 word ∧ leavesOpen ' '.toUInt8 word = false := by
  have hrun := lex_plain hne hplain {}
  refine ⟨⟨hne, ?_, ?_⟩, ?_⟩
  · rw [hrun]
  · rw [hrun]
    rfl
  · rw [leavesOpen, hrun]

theorem plain_hrWords {h : Header} {word : Bytes} (hword : word ∈ hrWords h) :
    ∀ c ∈ word, c ≠ ' '.toUInt8 ∧ c ≠ quote ∧ c ≠ backslash := by
  unfold hrWords at hword
  split at hword
  · contradiction
  · obtain rfl := List.mem_singleton.mp hword
    intro c hc
    rcases List.mem_append.mp hc with hc | hc
    · have hall : ∀ c ∈ ascii "HR", c ≠ ' '.toUInt8 ∧ c ≠ quote ∧ c ≠ backslash := by
        decide +kernel
      exact hall c hc
    · rcases List.mem_cons.mp hc with rfl | hc
      · decide
      · have hdigit := isDigit_of_mem_natDecimal hc
        refine ⟨?_, ?_, ?_⟩ <;>
        · rintro rfl
          revert hdigit
          decide

theorem plain_key {k : Bytes} (hk : k ∈ textKeys) :
    ∀ c ∈ k ++ [':'.toUInt8], c ≠ ' '.toUInt8 ∧ c ≠ quote ∧ c ≠ backslash := by
  have hall : ∀ k ∈ textKeys, ∀ c ∈ k ++ [':'.toUInt8],
      c ≠ ' '.toUInt8 ∧ c ≠ quote ∧ c ≠ backslash := by decide +kernel
  exact hall k hk

theorem stoi_getD_range (val : Bytes) :
    -2 ^ 31 ≤ (stoi val).getD 0 ∧ (stoi val).getD 0 ≤ 2 ^ 31 - 1 := by
  cases hstoi : stoi val with
  | none => decide
  | some n => exact parseInteger_range hstoi

section Parsed

-- a header that the tokens of some line fill
variable {line : Bytes} {h : Header} (hread : h = readHeader (headerTokens line))

include hread

theorem solid_field {k : Bytes} (hk : k ∈ textKeys) :
    Solid ' '.toUInt8 (fieldToken k (h.text k)) := by
  by_cases hempty : h.text k = []
  · rw [hempty]
    refine (plain_word (by simp [fieldToken]) ?_).1
    exact plain_key hk
  · subst hread
    exact solid_of_mem_lexSplit (mem_of_text hk (by simp [Header.text]) hempty)

theorem solid_headerWords : ∀ word ∈ headerWords h, Solid ' '.toUInt8 word := by
  intro word hword
  rcases List.mem_append.mp hword with hword | hword
  · obtain ⟨k, hk, rfl⟩ := List.mem_map.mp hword
    exact solid_field hread (text_of_emitted hk)
  · have hne : word ≠ [] := by
      unfold hrWords at hword
      split at hword
      · contradiction
      · obtain rfl := List.mem_singleton.mp hword
        simp [fieldToken]
    exact (plain_word hne (plain_hrWords hword)).1

theorem hr_range : -2 ^ 31 ≤ h.hr ∧ h.hr ≤ 2 ^ 31 - 1 := by
  have hstep : ∀ (h : Header) (token : Bytes), (-2 ^ 31 ≤ h.hr ∧ h.hr ≤ 2 ^ 31 - 1) →
      -2 ^ 31 ≤ (headerNext h token).hr ∧ (headerNext h token).hr ≤ 2 ^ 31 - 1 := by
    intro h token hrange
    rw [headerNext_eq]
    cases tokenParts token with
    | none => exact hrange
    | some parts =>
        dsimp only
        rw [hr_setField]
        split
        · exact stoi_getD_range parts.2
        · exact hrange
  have hrun : ∀ (tokens : List Bytes) (h : Header), (-2 ^ 31 ≤ h.hr ∧ h.hr ≤ 2 ^ 31 - 1) →
      -2 ^ 31 ≤ (tokens.foldl headerNext h).hr ∧ (tokens.foldl headerNext h).hr ≤ 2 ^ 31 - 1 := by
    intro tokens
    induction tokens with
    | nil => exact fun _ hrange => hrange
    | cons token tokens ih => exact fun h hrange => ih _ (hstep h token hrange)
  rw [hread]
  exact hrun _ {} (by decide)

end Parsed

/-! ## Headers that survive -/

theorem headerNext_fieldToken {k : Bytes} (hk : ':'.toUInt8 ∉ k) (h : Header) (val : Bytes) :
    headerNext h (fieldToken k val) = h.setField k val := by
  rw [headerNext_eq, tokenParts_fieldToken hk]

theorem headerFaults_fieldToken {k : Bytes} (hk : ':'.toUInt8 ∉ k) (val : Bytes) :
    headerFaults (fieldToken k val) = fieldFaults k val := by
  rw [headerFaults_eq, tokenParts_fieldToken hk]

theorem stoi_natDecimal {n : Nat} (hn : (n : Int) ≤ 2 ^ 31 - 1) :
    stoi (natDecimal n) = some (n : Int) := by
  have hdecimal : toDecimal n = natDecimal n := by
    rw [toDecimal, if_neg (by omega), Int.natAbs_natCast]
  rw [← hdecimal]
  exact parseInteger_toDecimal (by omega) hn

theorem stoi_natDecimal_large {n : Nat} (hn : (2 : Int) ^ 31 - 1 < n) :
    stoi (natDecimal n) = none := by
  have hdigits := @parseInteger_digits (-2 ^ 31) (2 ^ 31 - 1) _ false
    (natDecimal_ne_nil n) fun _ h => isDigit_of_mem_natDecimal h
  rw [digitsValue_natDecimal] at hdigits
  unfold stoi
  refine (Eq.trans ?_ hdigits).trans ?_
  · rfl
  · exact if_neg fun h => absurd h.2 (by simpa using hn)

theorem toNat_ofInt_of_nonneg {n : Int} (hpos : 0 ≤ n) (hhigh : n ≤ 2 ^ 31 - 1) :
    ((UInt32.ofInt n).toNat : Int) = n := by
  have hmod : n % 2 ^ 32 = n := Int.emod_eq_of_lt hpos (by omega)
  rw [UInt32.ofInt, hmod, UInt32.toNat_ofNat_of_lt' (by unfold UInt32.size; omega)]
  exact Int.toNat_of_nonneg hpos

theorem toNat_ofInt_of_neg {n : Int} (hneg : n < 0) (hlow : -2 ^ 31 ≤ n) :
    ((UInt32.ofInt n).toNat : Int) = n + 2 ^ 32 := by
  have hmod : n % 2 ^ 32 = n + 2 ^ 32 := by omega
  rw [UInt32.ofInt, hmod, UInt32.toNat_ofNat_of_lt' (by unfold UInt32.size; omega)]
  omega

/-- The number survives the decimal text. -/
theorem stoi_hr {hr : Int} (hpos : 0 ≤ hr) (hhigh : hr ≤ 2 ^ 31 - 1) :
    stoi (natDecimal (UInt32.ofInt hr).toNat) = some hr := by
  have hvalue := toNat_ofInt_of_nonneg hpos hhigh
  rw [stoi_natDecimal (by omega), hvalue]

theorem headerNext_headerKey {k : Bytes} (hk : k ∈ headerKeys) (h : Header) (val : Bytes) :
    headerNext h (fieldToken k val) = h.setField k val :=
  headerNext_fieldToken ((by decide : ∀ k ∈ headerKeys, ':'.toUInt8 ∉ k) k hk) h val

/-- The text fields, without the number. -/
theorem foldl_emittedKeys (h : Header) :
    ((emittedKeys h).map fun k => fieldToken k (h.text k)).foldl headerNext {} =
      { h with hr := 0 } := by
  unfold emittedKeys
  by_cases hfallback : h.fallback = []
  · rw [if_pos hfallback]
    simp only [List.map_cons, List.map_nil, List.append_nil, List.foldl_cons, List.foldl_nil]
    iterate 6 rw [headerNext_headerKey (by decide)]
    change ({ h with fallback := [], hr := 0 } : Header) = { h with hr := 0 }
    rw [← hfallback]
  · rw [if_neg hfallback]
    simp only [List.map_cons, List.map_nil, List.cons_append, List.nil_append, List.foldl_cons,
      List.foldl_nil]
    iterate 7 rw [headerNext_headerKey (by decide)]
    rfl

theorem tokensFaults_headerWords {h : Header} (hpos : 0 ≤ h.hr) (hhigh : h.hr ≤ 2 ^ 31 - 1) :
    tokensFaults (headerWords h) = [] := by
  unfold tokensFaults headerWords
  rw [List.flatMap_append, List.append_eq_nil_iff]
  constructor
  · rw [List.flatMap_eq_nil_iff]
    intro word hword
    obtain ⟨k, hk, rfl⟩ := List.mem_map.mp hword
    have htext := text_of_emitted hk
    rw [headerFaults_fieldToken (colon_of_text htext)]
    have hall : ∀ k ∈ textKeys, k ≠ ascii "HR" ∧ headerKeys.contains k = true := by decide
    rw [fieldFaults, if_neg (hall k htext).1, if_pos (hall k htext).2]
  · unfold hrWords
    split
    · rfl
    · rw [List.flatMap_singleton, headerFaults_fieldToken (by decide), fieldFaults, if_pos rfl,
        stoi_hr hpos hhigh]
      rfl

/-- The words fill the header they were written from. -/
theorem readHeader_headerWords {h : Header} (hpos : 0 ≤ h.hr) (hhigh : h.hr ≤ 2 ^ 31 - 1) :
    readHeader (headerWords h) = h ∧ tokensFaults (headerWords h) = [] := by
  refine ⟨?_, tokensFaults_headerWords hpos hhigh⟩
  rw [readHeader, headerWords, List.foldl_append, foldl_emittedKeys]
  unfold hrWords
  split
  · rename_i hzero
    have hvalue := toNat_ofInt_of_nonneg hpos hhigh
    rw [hzero] at hvalue
    have hhr : h.hr = 0 := hvalue.symm
    rw [List.foldl_nil, ← hhr]
  · rw [List.foldl_cons, List.foldl_nil, headerNext_headerKey (by decide)]
    change ({ h with hr := (stoi (natDecimal (UInt32.ofInt h.hr).toNat)).getD 0 } : Header) = h
    rw [stoi_hr hpos hhigh]
    rfl

/-! ## Headers that do not -/

/-- At most two fields of the line are empty: `UID` and `TIM`. -/
theorem lineLength_headerWords {h : Header} (hcomplete : h.complete = true) :
    lineLength (headerWords h) ≤ headerRoom textKeys h + 10 + lineLength (hrWords h) := by
  have hrequired : h.ver ≠ [] ∧ h.chk ≠ [] ∧ h.agt ≠ [] ∧ h.reqid ≠ [] := by
    simpa [Header.complete, and_assoc] using hcomplete
  obtain ⟨hver, hchk, hagt, hreqid⟩ := hrequired
  have hoptional : ∀ k : Bytes, k.length = 3 →
      (fieldToken k (h.text k)).length + 1 ≤ fieldRoom h k + 5 := by
    intro k hk
    unfold fieldRoom
    split
    · rename_i hempty
      rw [hempty, fieldToken, List.length_append, List.length_singleton]
      omega
    · omega
  have huid := hoptional (ascii "UID") rfl
  have htim := hoptional (ascii "TIM") rfl
  have hver := fieldRoom_of_ne (k := ascii "VER") hver
  have hchk := fieldRoom_of_ne (k := ascii "CHK") hchk
  have hagt := fieldRoom_of_ne (k := ascii "AGT") hagt
  have hreqid := fieldRoom_of_ne (k := ascii "REQID") hreqid
  unfold headerWords emittedKeys
  rw [lineLength_append]
  simp only [headerRoom, textKeys, List.map_cons, List.map_nil, List.sum_cons, List.sum_nil]
  by_cases hfallback : h.fallback = []
  · rw [if_pos hfallback]
    simp only [List.map_cons, List.map_nil, List.append_nil, lineLength_cons, lineLength_nil]
    omega
  · have hlast := fieldRoom_of_ne (k := ascii "FALLBACK") hfallback
    rw [if_neg hfallback]
    simp only [List.map_cons, List.map_nil, List.cons_append, List.nil_append, lineLength_cons,
      lineLength_nil]
    omega

def wordKeys (h : Header) : List Bytes :=
  emittedKeys h ++ (if UInt32.ofInt h.hr = 0 then [] else [ascii "HR"])

def wordValue (h : Header) (k : Bytes) : Bytes :=
  if k = ascii "HR" then natDecimal (UInt32.ofInt h.hr).toNat else h.text k

theorem headerWords_eq (h : Header) :
    headerWords h = (wordKeys h).map fun k => fieldToken k (wordValue h k) := by
  have hvalue : ∀ k ∈ emittedKeys h, wordValue h k = h.text k := fun k hk =>
    if_neg ((by decide : ∀ k ∈ textKeys, k ≠ ascii "HR") k (text_of_emitted hk))
  have htext : (emittedKeys h).map (fun k => fieldToken k (wordValue h k)) =
      (emittedKeys h).map (fun k => fieldToken k (h.text k)) :=
    List.map_congr_left fun k hk => by rw [hvalue k hk]
  rw [headerWords, wordKeys, List.map_append, htext]
  unfold hrWords
  split <;> rfl

/-- Two neighbours of the line, by their keys. -/
theorem adjacent_words {h : Header} {before after : List Bytes} {t u : Bytes}
    (hwords : headerWords h = before ++ t :: u :: after) :
    ∃ k ∈ emittedKeys h, ∃ k' ∈ headerKeys, t = fieldToken k (h.text k) ∧
      u = fieldToken k' (wordValue h k') ∧ 6 ≤ k.length + k'.length := by
  have hchain : List.IsChain (fun k k' : Bytes => k ∈ emittedKeys h ∧ k' ∈ headerKeys ∧
      6 ≤ k.length + k'.length) (wordKeys h) := by
    unfold wordKeys emittedKeys
    by_cases hfallback : h.fallback = [] <;> by_cases hhr : UInt32.ofInt h.hr = 0
    · rw [if_pos hfallback, if_pos hhr]
      decide
    · rw [if_pos hfallback, if_neg hhr]
      decide
    · rw [if_neg hfallback, if_pos hhr]
      decide
    · rw [if_neg hfallback, if_neg hhr]
      decide
  rw [headerWords_eq, List.map_eq_append_iff] at hwords
  obtain ⟨keys, tail, hkeys, -, htail⟩ := hwords
  obtain ⟨k, rest, rfl, ht, hrest⟩ := List.map_eq_cons_iff.mp htail
  obtain ⟨k', rest', rfl, hu, -⟩ := List.map_eq_cons_iff.mp hrest
  rw [hkeys] at hchain
  obtain ⟨hk, hk', hlength⟩ := (List.isChain_append_cons_cons.mp hchain).2.1
  have hvalue : wordValue h k = h.text k :=
    if_neg ((by decide : ∀ k ∈ textKeys, k ≠ ascii "HR") k (text_of_emitted hk))
  exact ⟨k, hk, k', hk', by rw [← ht, hvalue], hu.symm, hlength⟩

/-- A word that leaves a quote open and ends the line covers the `HR` word as well. -/
theorem length_of_open {h : Header} {k val : Bytes} (hk : k ∈ textKeys)
    (hopen : leavesOpen ' '.toUInt8 (fieldToken k val) = true)
    (hsuffix : fieldToken k val <:+ spaced ' '.toUInt8 (headerWords h)) :
    k.length + 2 + lineLength (hrWords h) ≤ (fieldToken k val).length := by
  have hquote : quote ∈ val := by
    have hmem := quote_of_leavesOpen hopen
    rw [fieldToken, ← List.singleton_append, ← List.append_assoc, List.mem_append] at hmem
    rcases hmem with hmem | hmem
    · exact absurd rfl (plain_key hk quote hmem).2.1
    · exact hmem
  obtain ⟨front, back, rfl⟩ := List.append_of_mem hquote
  have hlength : (fieldToken k (front ++ quote :: back)).length =
      k.length + 1 + front.length + 1 + back.length := by
    simp only [fieldToken, List.length_append, List.length_cons]
    omega
  unfold headerWords at hsuffix
  cases hhr : hrWords h with
  | nil =>
      rw [hlength, lineLength_nil]
      omega
  | cons word rest =>
      have hmem : word ∈ hrWords h := by simp [hhr]
      have hplain := plain_hrWords hmem
      obtain rfl : rest = [] := by
        unfold hrWords at hhr
        split at hhr
        · contradiction
        · exact (List.cons.inj hhr).2.symm
      have hkeys : (emittedKeys h).map (fun k => fieldToken k (h.text k)) ≠ [] := by
        simp [emittedKeys]
      have hword := spaced_concat ' '.toUInt8 hkeys word
      have htail : quote :: back <:+ fieldToken k (front ++ quote :: back) :=
        ⟨k ++ ':'.toUInt8 :: front, by simp [fieldToken]⟩
      rw [hhr] at hsuffix
      have hblank : ' '.toUInt8 ≠ quote := by decide
      rcases List.suffix_or_suffix_of_suffix (htail.trans hsuffix) hword with hs | hs
      · rcases List.mem_cons.mp (hs.mem List.mem_cons_self) with heq | hmem
        · exact absurd heq.symm hblank
        · exact absurd rfl (hplain quote hmem).2.1
      · rcases List.suffix_cons_iff.mp hs with heq | hs
        · exact absurd (List.cons.inj heq).1 hblank
        · have hroom := hs.length_le
          rw [hlength, lineLength_cons, lineLength_nil]
          rw [List.length_cons] at hroom
          omega

/-- The tokens of the line when a word before the last is open: it swallows the
head of its neighbour. -/
theorem headerTokens_open {line : Bytes} {h : Header} (hread : h = readHeader (headerTokens line))
    (hopen : ∃ word ∈ (headerWords h).dropLast, leavesOpen ' '.toUInt8 word = true) :
    ∃ before k more later, k ∈ textKeys ∧
      (∀ word ∈ before, leavesOpen ' '.toUInt8 word = false) ∧
      leavesOpen ' '.toUInt8 (fieldToken k (h.text k)) = true ∧
      more ≠ [] ∧ 8 ≤ k.length + more.length ∧
      headerTokens (spaced ' '.toUInt8 (headerWords h)) =
        before ++ (fieldToken k (h.text k) ++ more) :: later := by
  obtain ⟨before, t, u, after, hwords, hclosed, hopen⟩ := exists_first_open hopen
  have hsolid := solid_headerWords hread
  obtain ⟨k, hemitted, k', hk', ht, hu, hkeys⟩ := adjacent_words hwords
  have hinit : k' ++ [':'.toUInt8] <+: u := by
    rw [hu, fieldToken]
    exact ⟨wordValue h k', by simp⟩
  have hplain : ∀ c ∈ k' ++ [':'.toUInt8], c ≠ quote ∧ c ≠ backslash := by
    have hall : ∀ k ∈ headerKeys, ∀ c ∈ k ++ [':'.toUInt8], c ≠ quote ∧ c ≠ backslash := by
      decide +kernel
    exact hall k' hk'
  obtain ⟨more, later, hlex, hmore⟩ := lexSplit_spaced_open (by decide) (by decide)
    (fun w hw => hsolid w (by simp [hwords, hw])) hclosed
    (hsolid t (by simp [hwords])) hopen hinit hplain
  rw [List.length_append, List.length_singleton] at hmore
  rw [← hwords, ht] at hlex
  have hne : more ≠ [] := List.ne_nil_of_length_pos (by omega)
  exact ⟨before, k, more, later, text_of_emitted hemitted, hclosed, ht ▸ hopen, hne, by omega, hlex⟩

/-- An open word in front of another one costs the line more room than its
empty fields leave. -/
theorem open_word_lost {line : Bytes} {h : Header} (hread : h = readHeader (headerTokens line))
    (hcomplete : h.complete = true)
    (hopen : ∃ word ∈ (headerWords h).dropLast, leavesOpen ' '.toUInt8 word = true) :
    readHeader (headerTokens (spaced ' '.toUInt8 (headerWords h))) ≠ h := by
  intro hback
  obtain ⟨before, k, more, later, hk, hclosed, hopen, hnonempty, hmore, htokens⟩ :=
    headerTokens_open hread hopen
  -- the open value comes from a token of its own
  have hne : h.text k ≠ [] := by
    intro hempty
    rw [hempty] at hopen
    have hquote := quote_of_leavesOpen hopen
    exact absurd rfl (plain_key hk quote hquote).2.1
  have hmem : fieldToken k (h.text k) ∈ headerTokens (spaced ' '.toUInt8 (headerWords h)) := by
    have hfield := mem_of_text (h := {}) hk (by simp [Header.text])
      (by rw [← readHeader, hback]; exact hne)
    rwa [← readHeader, hback] at hfield
  have hlength := length_of_open hk hopen (suffix_of_leavesOpen hmem hopen)
  have hlater : fieldToken k (h.text k) ∈ later := by
    rw [htokens, List.mem_append, List.mem_cons] at hmem
    rcases hmem with hmem | hmem | hmem
    · rw [hclosed _ hmem] at hopen
      contradiction
    · exact absurd (List.self_eq_append_right.mp hmem) hnonempty
    · exact hmem
  obtain ⟨l₁, l₂, rfl⟩ := List.append_of_mem hlater
  -- what the fields need, and what there is
  have hswallowed : fieldToken k (h.text k) ++ more = fieldToken k (h.text k ++ more) := by
    rw [fieldToken, fieldToken, List.append_assoc, List.cons_append]
  have hroom := headerRoom_twice hk before l₁ l₂ (h.text k ++ more) (h.text k)
  rw [← hswallowed, ← htokens, hback, fieldRoom_of_ne hne] at hroom
  have hline := lineLength_headerWords hcomplete
  have hfits := lineLength_lexSplit ' '.toUInt8 (spaced ' '.toUInt8 (headerWords h))
  have hspaced : (spaced ' '.toUInt8 (headerWords h)).length + 1 = lineLength (headerWords h) := by
    rw [headerWords, emittedKeys]
    exact length_spaced _ _ _
  rw [← headerTokens, hspaced, htokens] at hfits
  simp only [lineLength_append, lineLength_cons, List.length_append] at *
  omega

/-! ## The round trip of a parsed header -/

theorem short_text {line : Bytes} {h : Header} (hread : h = readHeader (headerTokens line))
    (hline : line.length < 2 ^ 32) {k : Bytes} (hk : k ∈ textKeys) :
    BinaryEncoder.Short (h.text k) := by
  by_cases hempty : h.text k = []
  · rw [hempty]
    decide
  · subst hread
    have hmem := mem_of_text hk (by simp [Header.text]) hempty
    have hinfix := (infix_of_mem_lexSplit hmem).length_le
    rw [fieldToken, List.length_append, List.length_cons] at hinfix
    exact Nat.lt_of_le_of_lt (Nat.le_of_succ_le (Nat.le_of_add_left_le hinfix)) hline

theorem decodeHeader_encode {line : Bytes} {h : Header} (hread : h = readHeader (headerTokens line))
    (hline : line.length < 2 ^ 32) :
    BinaryEncoder.decodeHeader h.encode =
      .ok (spaced ' '.toUInt8 (headerWords h), h.encode.length) := by
  have hshort : ∀ s ∈ [h.ver, h.chk, h.agt, h.uid, h.tim, h.reqid, h.fallback],
      BinaryEncoder.Short s := by
    intro s hs
    have hmem : s ∈ textKeys.map h.text := hs
    obtain ⟨k, hk, rfl⟩ := List.mem_map.mp hmem
    exact short_text hread hline hk
  have hnil : ∀ op ∈ ([] : Bytes).head?, 0x10 ≤ op := nofun
  have hdecode := @BinaryEncoder.decodeHeader_encodeHeader _ _ _ _ _ _ _ (UInt32.ofInt h.hr)
    hshort [] hnil
  rw [List.append_nil, headerLine_eq] at hdecode
  exact hdecode

/-- A parsed header survives the binary form exactly when its `HR` is not
negative and no field but the last one written leaves a quote open. -/
theorem binary_header_lossless_iff {maxSize : Nat} (hsize : maxSize < 2 ^ 32) {payload : Bytes}
    {ast : AST} (hparse : parse .strict maxSize payload = .ok ast) :
    (∃ line pos, BinaryEncoder.decodeHeader ast.header.encode = .ok (line, pos) ∧
        parseHeader line .strict [] = .ok (ast.header, [])) ↔
      0 ≤ ast.header.hr ∧
        ∀ word ∈ (headerWords ast.header).dropLast, leavesOpen ' '.toUInt8 word = false := by
  obtain ⟨hlength, line, hline, -, hread, hcomplete⟩ := header_of_parse hparse
  generalize ast.header = h at hread hcomplete ⊢
  have hdecode := decodeHeader_encode hread (by omega)
  obtain ⟨hlow, hhigh⟩ := hr_range hread
  have htokens : (∀ word ∈ (headerWords h).dropLast, leavesOpen ' '.toUInt8 word = false) →
      headerTokens (spaced ' '.toUInt8 (headerWords h)) = headerWords h :=
    lexSplit_spaced (by decide) (by decide) (solid_headerWords hread)
  constructor
  · rintro ⟨line', pos, hline', hback⟩
    rw [hdecode] at hline'
    obtain ⟨rfl, -⟩ := Prod.mk.inj (Except.ok.inj hline')
    obtain ⟨hfaults, -, hsame⟩ := parseHeader_strict_eq_ok.mp hback
    have hclosed : ∀ word ∈ (headerWords h).dropLast, leavesOpen ' '.toUInt8 word = false := by
      by_contra hopen
      simp only [not_forall, Bool.not_eq_false, exists_prop] at hopen
      exact open_word_lost hread hcomplete hopen hsame.symm
    refine ⟨?_, hclosed⟩
    by_contra hneg
    have hvalue := toNat_ofInt_of_neg (Int.not_le.mp hneg) hlow
    have hnonzero : ¬ UInt32.ofInt h.hr = 0 := by
      intro hzero
      rw [hzero, show ((0 : UInt32).toNat : Int) = 0 from rfl] at hvalue
      omega
    have hfault :
        headerFaults (fieldToken (ascii "HR") (natDecimal (UInt32.ofInt h.hr).toNat)) ≠ [] := by
      rw [headerFaults_fieldToken (by decide), fieldFaults, if_pos rfl,
        stoi_natDecimal_large (by omega)]
      exact List.cons_ne_nil _ _
    rw [htokens hclosed, tokensFaults, List.flatMap_eq_nil_iff] at hfaults
    refine hfault (hfaults _ (List.mem_append_right _ ?_))
    rw [hrWords, if_neg hnonzero]
    exact List.mem_cons_self
  · rintro ⟨hpos, hclosed⟩
    obtain ⟨hsame, hfaults⟩ := readHeader_headerWords hpos hhigh
    refine ⟨_, _, hdecode, parseHeader_strict_eq_ok.mpr ?_⟩
    rw [htokens hclosed, hsame]
    exact ⟨hfaults, hcomplete, rfl⟩

def quotedFrame : Bytes := ascii "VER:2 CHK:sha256:0 AGT:a REQID:\"r 1\" HR:7 FALLBACK:x\n[A] k:v"

theorem binary_header_lossless_quoted :
    ∃ ast, parse .strict 1048576 quotedFrame = .ok ast ∧ ast.header.hr = 7 ∧
      ∃ line pos, BinaryEncoder.decodeHeader ast.header.encode = .ok (line, pos) ∧
        parseHeader line .strict [] = .ok (ast.header, []) := by
  have hrun : (parse .strict 1048576 quotedFrame).toOption.any (fun ast =>
      ast.header.hr == 7 &&
        (headerWords ast.header).dropLast.all fun word => !leavesOpen ' '.toUInt8 word) = true := by
    decide +kernel
  obtain ⟨ast, hparse, h⟩ := exists_of_parse_any hrun
  simp only [Bool.and_eq_true, beq_iff_eq, List.all_eq_true, Bool.not_eq_true'] at h
  exact ⟨ast, hparse, h.1,
    (binary_header_lossless_iff (by decide) hparse).mpr ⟨by rw [h.1]; decide, h.2⟩⟩

def negativeHrFrame : Bytes := ascii "VER:2 CHK:sha256:0 AGT:a REQID:r HR:-1\n[A] k:v"

/-- `HR:-1` is written as 4294967295, which the parser does not take back. -/
theorem negative_hr_lost :
    ∃ ast line pos, parse .strict 1048576 negativeHrFrame = .ok ast ∧ ast.header.hr = -1 ∧
      BinaryEncoder.decodeHeader ast.header.encode = .ok (line, pos) ∧
      ∀ h log, parseHeader line .strict [] ≠ .ok (h, log) := by
  have hrun : (parse .strict 1048576 negativeHrFrame).toOption.any (fun ast =>
      ast.header.hr == -1 && (BinaryEncoder.decodeHeader ast.header.encode).toOption.any fun r =>
        (parseHeader r.1 .strict []).toOption.isNone) = true := by
    decide +kernel
  obtain ⟨ast, hparse, h⟩ := exists_of_parse_any hrun
  simp only [Bool.and_eq_true, beq_iff_eq] at h
  obtain ⟨hhr, hdecode⟩ := h
  generalize hresult : BinaryEncoder.decodeHeader ast.header.encode = result at hdecode
  cases result with
  | error fault => exact absurd hdecode Bool.false_ne_true
  | ok r =>
      have hnone : (parseHeader r.1 .strict []).toOption.isNone = true := hdecode
      refine ⟨ast, r.1, r.2, hparse, hhr, hresult, fun h log hback => ?_⟩
      rw [hback] at hnone
      exact absurd hnone Bool.false_ne_true

end LlmTop
