import LlmTop.Chk
import LlmTop.LexerLaws
import LlmTop.ParserModes
import LlmTop.Sha256Conformance

/-!
# Stamping and parsing

`stamp_chk` finds the integrity field by substring search on line 1, the parser
by folding continuation lines and splitting into tokens.  `SafeCut` says when
the two views are of the same field.
-/
namespace LlmTop
open Lib.Faults

/-! ## The header as tokens -/

def chkKey : Bytes := ascii "CHK:"

/-- Every field but the integrity field. -/
def Header.withoutChk (h : Header) : Header := { h with chk := [] }

theorem headerNext_withoutChk (h : Header) (token : Bytes) :
    (headerNext h token).withoutChk = (headerNext h.withoutChk token).withoutChk := by
  unfold headerNext
  cases Lib.Search.find ':'.toUInt8 token with
  | none => rfl
  | some colon =>
      dsimp only
      unfold Header.setField
      simp only [apply_ite Header.withoutChk]
      rfl

theorem headerNext_chk (h : Header) (token : Bytes) :
    (headerNext h token).chk = if chkKey <+: token then token.drop 4 else h.chk := by
  unfold headerNext
  cases hfind : Lib.Search.find ':'.toUInt8 token with
  | none =>
      have hnot : ¬ chkKey <+: token := by
        intro hstarts
        exact Lib.Search.find_eq_none.mp hfind (hstarts.subset (by decide))
      rw [if_neg hnot]
  | some colon =>
      obtain ⟨key, val, rfl, hkey, rfl⟩ := Lib.Search.find_eq_some.mp hfind
      have hiff : chkKey <+: key ++ ':'.toUInt8 :: val ↔ key = ascii "CHK" := by
        constructor
        · intro hstarts
          obtain ⟨rest, hrest⟩ := hstarts
          have hfirst : chkKey ++ rest = ascii "CHK" ++ ':'.toUInt8 :: rest := rfl
          have hpos := Lib.Search.find_append (c := ':'.toUInt8) rest
            (show ':'.toUInt8 ∉ ascii "CHK" by decide)
          rw [← hfirst, hrest, Lib.Search.find_append val hkey] at hpos
          rw [hfirst] at hrest
          exact (List.append_inj hrest (Option.some.inj hpos).symm).1.symm
        · rintro rfl
          exact ⟨val, rfl⟩
      simp only [List.take_left]
      have hval : (key ++ ':'.toUInt8 :: val).drop (key.length + 1) = val := by
        rw [← List.drop_drop, List.drop_left]
        rfl
      rw [hval]
      by_cases hchk : key = ascii "CHK"
      · rw [if_pos (hiff.mpr hchk), hchk]
        rfl
      · rw [if_neg (mt hiff.mp hchk)]
        unfold Header.setField
        rw [if_neg hchk]
        split_ifs <;> rfl

theorem foldl_withoutChk (tokens : List Bytes) (h : Header) :
    (tokens.foldl headerNext h).withoutChk =
      (tokens.foldl headerNext h.withoutChk).withoutChk := by
  induction tokens generalizing h with
  | nil => rfl
  | cons token tokens ih =>
      rw [List.foldl_cons, ih, headerNext_withoutChk, ← ih, List.foldl_cons]

theorem foldl_chk_of_none {tokens : List Bytes} (h : Header)
    (hnone : ∀ token ∈ tokens, ¬ chkKey <+: token) :
    (tokens.foldl headerNext h).chk = h.chk := by
  induction tokens generalizing h with
  | nil => rfl
  | cons token tokens ih =>
      rw [List.foldl_cons, ih _ (fun t ht => hnone t (by simp [ht])), headerNext_chk,
        if_neg (hnone token (by simp))]

/-- The field is the value of the last token with its key. -/
theorem mem_of_foldl_chk {tokens : List Bytes} (h : Header)
    (hsome : ∃ token ∈ tokens, chkKey <+: token) :
    chkKey ++ (tokens.foldl headerNext h).chk ∈ tokens := by
  induction tokens generalizing h with
  | nil => simp at hsome
  | cons token tokens ih =>
      rw [List.foldl_cons]
      by_cases hrest : ∃ t ∈ tokens, chkKey <+: t
      · exact List.mem_cons_of_mem token (ih _ hrest)
      · have htoken : chkKey <+: token := by
          obtain ⟨t, ht, hstarts⟩ := hsome
          rcases List.mem_cons.mp ht with rfl | ht
          · exact hstarts
          · exact absurd ⟨t, ht, hstarts⟩ hrest
        rw [foldl_chk_of_none _ (by simpa using hrest), headerNext_chk, if_pos htoken]
        obtain ⟨rest, rfl⟩ := htoken
        exact List.mem_cons_self

/-! ## The header as text -/

theorem foldHeader_eq (headerLine : Bytes) (rest : List Bytes) :
    foldHeader headerLine rest =
      (headerLine ++ (foldHeader [] rest).1, (foldHeader [] rest).2) := by
  induction rest generalizing headerLine with
  | nil => simp [foldHeader]
  | cons line rest ih =>
      unfold foldHeader
      dsimp only
      split_ifs
      · exact ih headerLine
      · rw [ih (headerLine ++ _ ++ _), ih ([] ++ _ ++ _)]
        simp
      · simp

theorem foldHeader_separated (rest : List Bytes) :
    ∀ c ∈ (foldHeader [] rest).1.head?, c = ' '.toUInt8 := by
  induction rest with
  | nil => simp [foldHeader]
  | cons line rest ih =>
      unfold foldHeader
      dsimp only
      split_ifs
      · exact ih
      · rw [foldHeader_eq]
        intro c hc
        exact (Option.some.inj hc).symm
      · simp

/-- A word without blanks in the continuation text lies in one of the lines. -/
theorem infix_foldHeader {word : Bytes} (hne : word ≠ []) (hword : ' '.toUInt8 ∉ word)
    {rest : List Bytes} (h : word <:+: (foldHeader [] rest).1) : ∃ line ∈ rest, word <:+: line := by
  induction rest with
  | nil => exact absurd (List.infix_nil.mp h) hne
  | cons line rest ih =>
      unfold foldHeader at h
      dsimp only at h
      split_ifs at h
      · obtain ⟨l, hl, hinfix⟩ := ih h
        exact ⟨l, List.mem_cons_of_mem line hl, hinfix⟩
      · rw [foldHeader_eq] at h
        rcases Lib.Search.infix_of_append_separated hne hword (foldHeader_separated rest) h with
          hfront | hback
        · have hcons : word <:+: ' '.toUInt8 :: trim line := hfront
          rcases List.infix_cons_iff.mp hcons with hstarts | hprobe
          · cases word with
            | nil => exact absurd rfl hne
            | cons c cs =>
                obtain ⟨tail, htail⟩ := hstarts
                exact absurd (List.cons.inj htail).1 fun hc => hword (by simp [hc])
          · exact ⟨line, List.mem_cons_self, hprobe.trans (Lib.Search.trimBoth_infix _ line)⟩
        · obtain ⟨l, hl, hinfix⟩ := ih hback
          exact ⟨l, List.mem_cons_of_mem line hl, hinfix⟩
      · exact absurd (List.infix_nil.mp h) hne

/-! ## Line 1 -/

def isNewline (c : UInt8) : Bool := c == '\n'.toUInt8

/-- What is left of line 1 behind the value. -/
def lineRest (post : Bytes) : Bytes := post.takeWhile (! isNewline ·)

def laterLines (post : Bytes) : List Bytes := lines (post.dropWhile (! isNewline ·)).tail

def headerFront (pre : Bytes) : Bytes := pre.dropWhile isTrimmed

/-- The header text behind the value: the rest of line 1 and the continuations. -/
def headerBack (post : Bytes) : Bytes :=
  (lineRest post).rdropWhile isTrimmed ++ (foldHeader [] (laterLines post)).1

theorem frameParts_eq {front post : Bytes} (hne : front ≠ []) (hline : '\n'.toUInt8 ∉ front) :
    frameParts (front ++ post) =
      some (foldHeader (trim (front ++ lineRest post)) (laterLines post)) := by
  have hword : ∀ c ∈ front ++ lineRest post, isNewline c = false := by
    intro c hc
    rcases List.mem_append.mp hc with hc | hc
    · have hc' : c ≠ '\n'.toUInt8 := fun he => hline (he ▸ hc)
      simpa [isNewline] using hc'
    · simpa using List.mem_takeWhile_imp hc
  have hlines : lines (front ++ post) = (front ++ lineRest post) :: laterLines post := by
    have hpost : front ++ post = (front ++ lineRest post) ++ post.dropWhile (! isNewline ·) := by
      rw [List.append_assoc, lineRest, List.takeWhile_append_dropWhile]
    unfold laterLines
    rw [hpost]
    cases hdrop : post.dropWhile (! isNewline ·) with
    | nil =>
        rw [List.append_nil]
        exact Lib.Split.splitTerminated_word (by simp [hne]) hword
    | cons c cs =>
        have hc : isNewline c = true := by
          have hhead := List.head_dropWhile_not (! isNewline ·) (by rw [hdrop]; simp)
          simpa [hdrop] using hhead
        exact Lib.Split.splitTerminated_append cs hword hc
  unfold frameParts
  rw [hlines]

/-- The header line of a frame cut in front of a core on line 1. -/
theorem frameParts_core {pre core post : Bytes} (hline : '\n'.toUInt8 ∉ pre ++ core)
    (hhead : ∃ c ∈ core.head?, isTrimmed c = false)
    (hlast : ∃ c ∈ core.getLast?, isTrimmed c = false) :
    frameParts (pre ++ (core ++ post)) =
      some (headerFront pre ++ (core ++ headerBack post), (foldHeader [] (laterLines post)).2) := by
  have hne : pre ++ core ≠ [] := by
    obtain ⟨c, hc, -⟩ := hhead
    intro hnil
    rw [(List.append_eq_nil_iff.mp hnil).2] at hc
    contradiction
  rw [← List.append_assoc, frameParts_eq hne hline, foldHeader_eq, List.append_assoc, trim,
    Lib.Search.trimBoth_core _ _ hhead hlast]
  simp [headerFront, headerBack]

theorem infix_headerBack {word post : Bytes} (hne : word ≠ []) (hword : ' '.toUInt8 ∉ word)
    (h : word <:+: headerBack post) : word <:+: post := by
  rcases Lib.Search.infix_of_append_separated hne hword (foldHeader_separated _) h with h | h
  · exact h.trans ((List.rdropWhile_prefix _ _).isInfix.trans (List.takeWhile_prefix _).isInfix)
  · obtain ⟨line, hline, hinfix⟩ := infix_foldHeader hne hword h
    have hrest : (post.dropWhile (! isNewline ·)).tail <:+ post :=
      (List.tail_suffix _).trans (List.dropWhile_suffix _)
    exact hinfix.trans ((Lib.Split.infix_of_mem_splitTerminated hline).trans hrest.isInfix)

theorem infix_of_headerToken {payload token : Bytes} {parts : Bytes × List Bytes}
    (hparts : frameParts payload = some parts) (htoken : token ∈ headerTokens parts.1)
    (hne : token ≠ []) (hword : ' '.toUInt8 ∉ token) : token <:+: payload := by
  have hinfix := infix_of_mem_lexSplit htoken
  obtain ⟨line, rest, hlines, rfl⟩ := lines_of_frameParts hparts
  have hline : ∀ l ∈ line :: rest, l <:+: payload := by
    intro l hl
    rw [← hlines] at hl
    exact Lib.Split.infix_of_mem_splitTerminated hl
  rw [foldHeader_eq] at hinfix
  rcases Lib.Search.infix_of_append_separated hne hword (foldHeader_separated rest) hinfix with
    h | h
  · exact h.trans ((Lib.Search.trimBoth_infix _ line).trans (hline line (by simp)))
  · obtain ⟨l, hl, hinfix⟩ := infix_foldHeader hne hword h
    exact hinfix.trans (hline l (by simp [hl]))

/-! ## The stamped field -/

/-- The token that the stamp writes. -/
def stampWord (frame : Bytes) : Bytes := chkMarker ++ Sha256.hashHex (canonicalForChk frame)

theorem stampWord_plain {frame : Bytes} {c : UInt8} (hc : c ∈ stampWord frame) :
    c ≠ ' '.toUInt8 ∧ c ≠ quote ∧ c ≠ backslash ∧ c ≠ '\n'.toUInt8 ∧ isTrimmed c = false ∧
      (isValueEnd c = false) := by
  have hall : ∀ c ∈ chkMarker ++ Sha256.hexDigits, c ≠ ' '.toUInt8 ∧ c ≠ quote ∧ c ≠ backslash ∧
      c ≠ '\n'.toUInt8 ∧ isTrimmed c = false ∧ isValueEnd c = false := by decide +kernel
  rcases List.mem_append.mp hc with hc | hc
  · exact hall c (List.mem_append_left _ hc)
  · exact hall c (List.mem_append_right _ (Sha256.mem_hashHex hc))

theorem stampWord_ne_nil (frame : Bytes) : stampWord frame ≠ [] := by
  simp [stampWord, chkMarker, ascii]

theorem blank_notMem_stampWord (frame : Bytes) : ' '.toUInt8 ∉ stampWord frame :=
  fun h => (stampWord_plain h).1 rfl

theorem stampChk_eq {frame pre value post : Bytes} (h : Marked frame pre value post) :
    stampChk frame = pre ++ (stampWord frame ++ post) := by
  rw [stampChk_of_marked h, stampWord, List.append_assoc]

theorem marked_stampChk {frame pre value post : Bytes} (h : Marked frame pre value post) :
    Marked (stampChk frame) pre (Sha256.hashHex (canonicalForChk frame)) post := by
  rw [stampChk_of_marked h]
  exact h.replace _ fun c hc => (stampWord_plain (List.mem_append_right _ hc)).2.2.2.2.2

theorem canonicalForChk_stampChk (frame : Bytes) :
    canonicalForChk (stampChk frame) = canonicalForChk frame := by
  by_cases hmarked : ∃ pre value post, Marked frame pre value post
  · obtain ⟨pre, value, post, h⟩ := hmarked
    rw [canonicalForChk_of_marked (marked_stampChk h), canonicalForChk_of_marked h]
  · rw [stampChk_of_unmarked hmarked]

theorem canonicalForChk_idem (frame : Bytes) :
    canonicalForChk (canonicalForChk frame) = canonicalForChk frame := by
  by_cases hmarked : ∃ pre value post, Marked frame pre value post
  · obtain ⟨pre, value, post, h⟩ := hmarked
    rw [canonicalForChk_of_marked (marked_canonicalForChk h), canonicalForChk_of_marked h]
  · rw [canonicalForChk_of_unmarked hmarked, canonicalForChk_of_unmarked hmarked]

theorem stampChk_idem (frame : Bytes) : stampChk (stampChk frame) = stampChk frame := by
  by_cases hmarked : ∃ pre value post, Marked frame pre value post
  · obtain ⟨pre, value, post, h⟩ := hmarked
    rw [stampChk_of_marked (marked_stampChk h), canonicalForChk_stampChk, ← stampChk_of_marked h]
  · rw [stampChk_of_unmarked hmarked, stampChk_of_unmarked hmarked]

theorem computeChk_stampChk (frame : Bytes) : computeChk (stampChk frame) = computeChk frame := by
  unfold computeChk
  rw [canonicalForChk_stampChk]

/-- What a stamp is to a frame: a second one changes nothing, the digest input
stays, and only the value behind the first marker of line 1 is written. -/
theorem stampChk_stable (frame : Bytes) :
    stampChk (stampChk frame) = stampChk frame ∧
      canonicalForChk (stampChk frame) = canonicalForChk frame ∧
      canonicalForChk (canonicalForChk frame) = canonicalForChk frame ∧
      computeChk (stampChk frame) = computeChk frame ∧
      ((∃ pre value post digest, Marked frame pre value post ∧ digest.length = 64 ∧
          stampChk frame = pre ++ (chkMarker ++ (digest ++ post)) ∧
          computeChk (stampChk frame) = ascii "sha256:" ++ digest) ∨
        (¬ ∃ pre value post, Marked frame pre value post) ∧ stampChk frame = frame) := by
  refine ⟨stampChk_idem frame, canonicalForChk_stampChk frame, canonicalForChk_idem frame,
    computeChk_stampChk frame, ?_⟩
  by_cases hmarked : ∃ pre value post, Marked frame pre value post
  · obtain ⟨pre, value, post, h⟩ := hmarked
    exact Or.inl ⟨pre, value, post, Sha256.hashHex (canonicalForChk frame), h,
      Sha256.hashHex_length _, stampChk_of_marked h, computeChk_stampChk frame⟩
  · exact Or.inr ⟨hmarked, stampChk_of_unmarked hmarked⟩

theorem frameParts_stampChk {frame pre value post : Bytes} (h : Marked frame pre value post) :
    frameParts (stampChk frame) =
      some (headerFront pre ++ (stampWord frame ++ headerBack post),
        (foldHeader [] (laterLines post)).2) := by
  have hne := stampWord_ne_nil frame
  rw [stampChk_eq h]
  refine frameParts_core ?_ ?_ ?_
  · rw [List.mem_append, not_or]
    exact ⟨h.line, fun hc => (stampWord_plain hc).2.2.2.1 rfl⟩
  · exact ⟨_, List.head?_eq_some_head hne, (stampWord_plain (List.head_mem hne)).2.2.2.2.1⟩
  · exact ⟨_, List.getLast?_eq_some_getLast hne, (stampWord_plain (List.getLast_mem hne)).2.2.2.2.1⟩

theorem frameParts_marked {frame pre value post : Bytes} (h : Marked frame pre value post) :
    frameParts frame =
      some (headerFront pre ++ (chkMarker ++ headerBack (value ++ post)),
        (foldHeader [] (laterLines post)).2) := by
  have hlater : laterLines (value ++ post) = laterLines post := by
    have hvalue : ∀ c ∈ value, (! isNewline c) = true := by
      intro c hc
      have hrun := h.run c hc
      simp only [isValueEnd, Bool.or_eq_false_iff] at hrun
      simp [isNewline, hrun.2]
    unfold laterLines
    rw [List.dropWhile_append_of_pos hvalue]
  rw [← hlater]
  conv => lhs; rw [h.eq]
  refine frameParts_core ?_ (by decide) (by decide)
  rw [List.mem_append, not_or]
  exact ⟨h.line, by decide⟩

/-- Cut at its first marker, the frame has a field of its own there: a token
begins at the marker and the stamp's digest ends it, no later token sets the
field again, and the text behind it gives the other fields that the frame has. -/
structure SafeCut (frame pre value post : Bytes) (h : Header) : Prop where
  marked : Marked frame pre value post
  fresh : ((headerFront pre).foldl (lexStep ' '.toUInt8) {}).Fresh
  closed : ∀ c ∈ (headerBack post).head?, c = ' '.toUInt8
  clean : tokensFaults (headerTokens (headerBack post)) = []
  single : ∀ token ∈ headerTokens (headerBack post), ¬ chkKey <+: token
  fields : (readHeader (headerTokens (headerFront pre) ++
    headerTokens (headerBack post))).withoutChk = h.withoutChk

def StampSafe (frame : Bytes) (h : Header) : Prop :=
  ∃ pre value post, SafeCut frame pre value post h

/-- The frame spells out its own digest somewhere outside the field. -/
def SelfDigest (frame : Bytes) : Prop := stampWord frame <:+: canonicalForChk frame

/-- The stamped frame is accepted with the same content and the right digest. -/
def StampAccepted (maxSize : Nat) (frame : Bytes) (ast : AST) : Prop :=
  parse .strict maxSize (stampChk frame) =
    .ok { ast with
      header := { ast.header with chk := computeChk (stampChk frame) }
      rawFrame := stampChk frame }

theorem header_eq_iff {h h₀ : Header} {val : Bytes} :
    h = { h₀ with chk := val } ↔ h.chk = val ∧ h.withoutChk = h₀.withoutChk := by
  obtain ⟨ver, chk, agt, uid, tim, reqid, fallback, hr⟩ := h
  obtain ⟨ver', chk', agt', uid', tim', reqid', fallback', hr'⟩ := h₀
  simp only [Header.withoutChk, Header.mk.injEq, true_and]
  tauto

theorem headerNext_of_chk {token : Bytes} (h : Header) (htoken : chkKey <+: token) :
    (headerNext h token).withoutChk = h.withoutChk := by
  obtain ⟨val, rfl⟩ := htoken
  rfl

/-- The header of the stamped frame, read token by token. -/
theorem readHeader_stamped (frame : Bytes) (front : List Bytes) {back : List Bytes}
    (hsingle : ∀ token ∈ back, ¬ chkKey <+: token) :
    (readHeader (front ++ stampWord frame :: back)).chk = computeChk frame ∧
      (readHeader (front ++ stampWord frame :: back)).withoutChk =
        (readHeader (front ++ back)).withoutChk := by
  have hword : chkKey <+: stampWord frame := ⟨computeChk frame, rfl⟩
  unfold readHeader
  rw [List.foldl_append, List.foldl_cons, List.foldl_append]
  constructor
  · rw [foldl_chk_of_none _ hsingle, headerNext_chk, if_pos hword]
    rfl
  · rw [foldl_withoutChk, headerNext_of_chk _ hword, ← foldl_withoutChk]

theorem tokensFaults_append (front back : List Bytes) :
    tokensFaults (front ++ back) = tokensFaults front ++ tokensFaults back :=
  List.flatMap_append

theorem tokensFaults_stampWord (frame : Bytes) (back : List Bytes) :
    tokensFaults (stampWord frame :: back) = tokensFaults back := by
  have hword : headerFaults (stampWord frame) = [] := rfl
  rw [tokensFaults, List.flatMap_cons, hword]
  rfl

theorem headerTokens_safe {frame pre value post : Bytes} {h : Header}
    (hsafe : SafeCut frame pre value post h) :
    headerTokens (headerFront pre ++ (stampWord frame ++ headerBack post)) =
      headerTokens (headerFront pre) ++ stampWord frame :: headerTokens (headerBack post) := by
  have hplain : ∀ c ∈ stampWord frame, c ≠ ' '.toUInt8 ∧ c ≠ quote ∧ c ≠ backslash :=
    fun c hc => ⟨(stampWord_plain hc).1, (stampWord_plain hc).2.1, (stampWord_plain hc).2.2.1⟩
  unfold headerTokens
  rw [lexSplit_append _ hsafe.fresh,
    lexSplit_word (stampWord_ne_nil frame) hplain hsafe.closed (by decide) (by decide)]

theorem length_le_of_parse {maxSize : Nat} {payload : Bytes} {ast : AST}
    (h : parse .strict maxSize payload = .ok ast) : payload.length ≤ maxSize :=
  (readFrame_of_clean (parse_strict_eq_ok.mp h).1).1

theorem stampAccepted_of_safe {maxSize : Nat} {frame : Bytes} {ast : AST}
    (hparse : parse .strict maxSize frame = .ok ast)
    (hsize : (stampChk frame).length ≤ maxSize) (hsafe : StampSafe frame ast.header) :
    StampAccepted maxSize frame ast := by
  obtain ⟨pre, value, post, hsafe⟩ := hsafe
  have hread := readFrame_parts (length_le_of_parse hparse) (frameParts_marked hsafe.marked)
  obtain ⟨hfaults, hcomplete, hast⟩ := parse_strict_eq_ok.mp hparse
  rw [hread] at hfaults hcomplete hast
  obtain ⟨htokens, hbody⟩ := List.append_eq_nil_iff.mp hfaults
  unfold headerTokens at htokens
  rw [lexSplit_append _ hsafe.fresh, tokensFaults_append] at htokens
  have hheader : readHeader (headerTokens (headerFront pre ++
      (stampWord frame ++ headerBack post))) =
        { ast.header with chk := computeChk (stampChk frame) } := by
    rw [headerTokens_safe hsafe, computeChk_stampChk frame]
    obtain ⟨hchk, hothers⟩ :=
      readHeader_stamped frame (headerTokens (headerFront pre)) hsafe.single
    exact header_eq_iff.mpr ⟨hchk, hothers.trans hsafe.fields⟩
  have hstamped := readFrame_parts hsize (frameParts_stampChk hsafe.marked)
  refine parse_strict_eq_ok.mpr ?_
  rw [hstamped]
  refine ⟨?_, ?_, ?_⟩
  · change tokensFaults (headerTokens _) ++ _ = []
    rw [headerTokens_safe hsafe, tokensFaults_append, tokensFaults_stampWord, hsafe.clean]
    exact List.append_eq_nil_iff.mpr ⟨by rw [headerTokens, (List.append_eq_nil_iff.mp htokens).1]; rfl,
      hbody⟩
  · change (readHeader (headerTokens _)).complete = true
    rw [hheader]
    rw [← hast] at hcomplete
    simp only [Header.complete, Bool.not_eq_true', Bool.or_eq_false_iff] at hcomplete ⊢
    exact ⟨⟨⟨hcomplete.1.1.1, rfl⟩, hcomplete.1.2⟩, hcomplete.2⟩
  · unfold readParts
    dsimp only
    rw [hheader, hast]
    rfl

/-- Some token carries the field of a header that has one. -/
theorem chk_mem_tokens (tokens : List Bytes) (hne : (readHeader tokens).chk ≠ []) :
    chkKey ++ (readHeader tokens).chk ∈ tokens := by
  refine mem_of_foldl_chk {} ?_
  by_contra hnone
  exact hne (foldl_chk_of_none {} (by simpa using hnone))

/-- A token equal to the stamped word, in a header line cut around that word,
is the word itself or comes from the text on one side of it. -/
theorem fresh_of_mem {front back word : Bytes} (hne : word ≠ [])
    (hplain : ∀ c ∈ word, c ≠ ' '.toUInt8 ∧ c ≠ quote ∧ c ≠ backslash)
    (hmem : word ∈ headerTokens (front ++ (word ++ back)))
    (hfront : ¬ word <:+: front) (hback : ¬ word <:+: back) :
    (front.foldl (lexStep ' '.toUInt8) {}).Fresh ∧ ∀ c ∈ back.head?, c = ' '.toUInt8 := by
  have hproper := proper_start.run ' '.toUInt8 front
  unfold headerTokens lexSplit at hmem
  rw [List.foldl_append, List.foldl_append, lex_plain hne hplain] at hmem
  obtain ⟨more, later, hfinish, -, hclosed, hlater⟩ := (lex_tail ' '.toUInt8 back
    { front.foldl (lexStep ' '.toUInt8) {} with
      current := (front.foldl (lexStep ' '.toUInt8) {}).current ++ word, inEscape := false }).2
    (by simp [hne])
  rw [hfinish] at hmem
  rcases List.mem_append.mp hmem with htoken | htoken
  · exact absurd (infix_of_mem_lexSplit (mem_lexSplit_of_tokens htoken)) hfront
  · rcases List.mem_cons.mp htoken with heq | htoken
    · have hlen := congrArg List.length heq
      rw [List.length_append, List.length_append] at hlen
      have hcurrent : (front.foldl (lexStep ' '.toUInt8) {}).current = [] :=
        List.length_eq_zero_iff.mp (by omega)
      have hmore : more = [] := List.length_eq_zero_iff.mp (by omega)
      exact ⟨hproper.fresh hcurrent, hclosed hmore⟩
    · exact absurd (hlater word htoken) hback

theorem selfDigest_of_part {frame pre value post : Bytes} (h : Marked frame pre value post)
    (hpart : stampWord frame <:+: headerFront pre ∨ stampWord frame <:+: headerBack post) :
    SelfDigest frame := by
  unfold SelfDigest
  rw [canonicalForChk_of_marked h]
  rcases hpart with hfront | hback
  · exact hfront.trans ((List.dropWhile_suffix _).isInfix.trans List.infix_append_left)
  · exact (infix_headerBack (stampWord_ne_nil frame) (blank_notMem_stampWord frame) hback).trans
      ((List.suffix_append _ _).trans (List.suffix_append _ _)).isInfix

/-- What the parser reads in the header line of an accepted stamped frame. -/
theorem header_of_accepted {maxSize : Nat} {frame pre value post : Bytes} {ast : AST}
    (h : Marked frame pre value post) (hsize : (stampChk frame).length ≤ maxSize)
    (haccepted : StampAccepted maxSize frame ast) :
    tokensFaults (headerTokens (headerFront pre ++ (stampWord frame ++ headerBack post))) = [] ∧
      readHeader (headerTokens (headerFront pre ++ (stampWord frame ++ headerBack post))) =
        { ast.header with chk := computeChk frame } := by
  obtain ⟨hfaults, -, hast⟩ := parse_strict_eq_ok.mp haccepted
  rw [readFrame_parts hsize (frameParts_stampChk h)] at hfaults hast
  refine ⟨(List.append_eq_nil_iff.mp hfaults).1, ?_⟩
  rw [← computeChk_stampChk frame]
  exact (congrArg AST.header hast).symm

/-- The stamped word is a token of its own when no other part can give it. -/
theorem tokens_of_accepted {frame front back : Bytes}
    (hchk : (readHeader (headerTokens (front ++ (stampWord frame ++ back)))).chk =
      computeChk frame)
    (hfront : ¬ stampWord frame <:+: front) (hback : ¬ stampWord frame <:+: back) :
    (front.foldl (lexStep ' '.toUInt8) {}).Fresh ∧ (∀ c ∈ back.head?, c = ' '.toUInt8) ∧
      headerTokens (front ++ (stampWord frame ++ back)) =
        headerTokens front ++ stampWord frame :: headerTokens back := by
  have hne := stampWord_ne_nil frame
  have hplain : ∀ c ∈ stampWord frame, c ≠ ' '.toUInt8 ∧ c ≠ quote ∧ c ≠ backslash :=
    fun c hc => ⟨(stampWord_plain hc).1, (stampWord_plain hc).2.1, (stampWord_plain hc).2.2.1⟩
  have hmem := chk_mem_tokens (headerTokens (front ++ (stampWord frame ++ back)))
    (by rw [hchk]; simp [computeChk, ascii])
  rw [hchk] at hmem
  obtain ⟨hfresh, hclosed⟩ := fresh_of_mem hne hplain hmem hfront hback
  refine ⟨hfresh, hclosed, ?_⟩
  unfold headerTokens
  rw [lexSplit_append _ hfresh, lexSplit_word hne hplain hclosed (by decide) (by decide)]

/-- The last token that sets the field sets it to the digest, so it is the stamp. -/
theorem single_of_accepted {frame back : Bytes} {tokens : List Bytes}
    (hchk : (readHeader (tokens ++ stampWord frame :: headerTokens back)).chk = computeChk frame)
    (hback : ¬ stampWord frame <:+: back) :
    ∀ token ∈ headerTokens back, ¬ chkKey <+: token := by
  intro token htoken hkey
  have hlast := mem_of_foldl_chk (headerNext (readHeader tokens) (stampWord frame))
    ⟨token, htoken, hkey⟩
  rw [readHeader, List.foldl_append, List.foldl_cons] at hchk
  have hfield : ((headerTokens back).foldl headerNext
      (headerNext (readHeader tokens) (stampWord frame))).chk = computeChk frame := hchk
  rw [hfield] at hlast
  exact hback (infix_of_mem_lexSplit hlast)

theorem safe_of_accepted {maxSize : Nat} {frame pre value post : Bytes} {ast : AST}
    (h : Marked frame pre value post) (hsize : (stampChk frame).length ≤ maxSize)
    (haccepted : StampAccepted maxSize frame ast) (hself : ¬ SelfDigest frame) :
    SafeCut frame pre value post ast.header := by
  obtain ⟨hfaults, hheader⟩ := header_of_accepted h hsize haccepted
  have hfront : ¬ stampWord frame <:+: headerFront pre :=
    fun hpart => hself (selfDigest_of_part h (Or.inl hpart))
  have hback : ¬ stampWord frame <:+: headerBack post :=
    fun hpart => hself (selfDigest_of_part h (Or.inr hpart))
  obtain ⟨hfresh, hclosed, hsplit⟩ :=
    tokens_of_accepted (congrArg Header.chk hheader) hfront hback
  rw [hsplit] at hfaults hheader
  have hsingle := single_of_accepted (congrArg Header.chk hheader) hback
  rw [tokensFaults_append, tokensFaults_stampWord] at hfaults
  refine ⟨h, hfresh, hclosed, (List.append_eq_nil_iff.mp hfaults).2, hsingle, ?_⟩
  rw [← (readHeader_stamped frame (headerTokens (headerFront pre)) hsingle).2, hheader]
  rfl

/-- Without a marker the frame is left as it is, and verifies only if it came
with its digest. -/
theorem selfDigest_of_unmarked {maxSize : Nat} {frame : Bytes} {ast : AST}
    (hunmarked : ¬ ∃ pre value post, Marked frame pre value post)
    (haccepted : StampAccepted maxSize frame ast) : SelfDigest frame := by
  unfold StampAccepted at haccepted
  rw [stampChk_of_unmarked hunmarked] at haccepted
  obtain ⟨hfaults, -, hast⟩ := parse_strict_eq_ok.mp haccepted
  obtain ⟨-, parts, hparts, -, hread⟩ := readFrame_of_clean hfaults
  unfold SelfDigest
  rw [canonicalForChk_of_unmarked hunmarked]
  rw [hread] at hast
  have hchk : (readHeader (headerTokens parts.1)).chk = computeChk frame :=
    (congrArg (fun a => a.header.chk) hast).symm
  have hmem := chk_mem_tokens (headerTokens parts.1) (by rw [hchk]; simp [computeChk, ascii])
  rw [hchk] at hmem
  exact infix_of_headerToken hparts hmem (stampWord_ne_nil frame) (blank_notMem_stampWord frame)

theorem safe_or_selfDigest {maxSize : Nat} {frame : Bytes} {ast : AST}
    (hsize : (stampChk frame).length ≤ maxSize) (haccepted : StampAccepted maxSize frame ast) :
    StampSafe frame ast.header ∨ SelfDigest frame := by
  by_cases hself : SelfDigest frame
  · exact Or.inr hself
  · by_cases hmarked : ∃ pre value post, Marked frame pre value post
    · obtain ⟨pre, value, post, hmarked⟩ := hmarked
      exact Or.inl ⟨pre, value, post, safe_of_accepted hmarked hsize haccepted hself⟩
    · exact Or.inr (selfDigest_of_unmarked hmarked haccepted)

/-- Stamping an accepted frame gives an accepted frame with the same content
and the right digest exactly when the marker of line 1 is the header's own field;
the only other way is a frame that already spells out its digest elsewhere. -/
theorem stampChk_accepted_iff {maxSize : Nat} {frame : Bytes} {ast : AST}
    (hparse : parse .strict maxSize frame = .ok ast)
    (hsize : (stampChk frame).length ≤ maxSize) :
    (StampSafe frame ast.header → StampAccepted maxSize frame ast) ∧
      (StampAccepted maxSize frame ast → StampSafe frame ast.header ∨ SelfDigest frame) :=
  ⟨stampAccepted_of_safe hparse hsize, safe_or_selfDigest hsize⟩

def stampableFrame : Bytes := ascii "VER:2 CHK:sha256: AGT:a REQID:r\n[A] k:v"

theorem stampable_parse : parse .strict 1048576 stampableFrame =
    .ok (readFrame 1048576 stampableFrame).1 :=
  parse_strict_eq_ok.mpr ⟨by decide +kernel, by decide +kernel, rfl⟩

theorem stampable_marked :
    Marked stampableFrame (ascii "VER:2 ") [] (ascii " AGT:a REQID:r\n[A] k:v") := by
  refine ⟨?_, ?_, ?_, ?_, ?_⟩ <;> decide +kernel

theorem stampable_size : (stampChk stampableFrame).length ≤ 1048576 := by
  rw [stampChk_eq stampable_marked]
  simp [stampWord, Sha256.hashHex_length, chkMarker, ascii]

theorem stampable_safe : StampSafe stampableFrame (readFrame 1048576 stampableFrame).1.header := by
  refine ⟨_, _, _, stampable_marked, ⟨?_, ?_, ?_⟩, ?_, ?_, ?_, rfl⟩ <;> decide +kernel

theorem stampable_accepted : StampAccepted 1048576 stampableFrame
    (readFrame 1048576 stampableFrame).1 :=
  (stampChk_accepted_iff stampable_parse stampable_size).1 stampable_safe

/-- The integrity field stands on a line of its own. -/
def foldedFrame : Bytes := ascii "VER:2\nCHK:sha256:x\nAGT:a\nREQID:r"

/-- The parser reads the field, the stamp does not find it. -/
theorem folded_chk_unstamped :
    ∃ ast, parse .strict 1048576 foldedFrame = .ok ast ∧ ast.header.chk = ascii "sha256:x" ∧
      stampChk foldedFrame = foldedFrame ∧ ¬ StampAccepted 1048576 foldedFrame ast := by
  have hregion : chkRegion foldedFrame = none := by decide
  have hstamp : stampChk foldedFrame = foldedFrame := by
    unfold stampChk
    rw [hregion]
  have hchk : (readFrame 1048576 foldedFrame).1.header.chk = ascii "sha256:x" := by decide +kernel
  refine ⟨(readFrame 1048576 foldedFrame).1,
    parse_strict_eq_ok.mpr ⟨by decide +kernel, by decide +kernel, rfl⟩, hchk, hstamp, ?_⟩
  intro haccepted
  unfold StampAccepted at haccepted
  rw [hstamp] at haccepted
  have hdigest := congrArg (fun a => a.header.chk.length) (parse_strict_eq_ok.mp haccepted).2.2
  rw [hchk] at hdigest
  simp [computeChk, Sha256.hashHex_length, ascii] at hdigest

end LlmTop
