import LlmTop.FrameView
import LlmTop.HeaderFields
import LlmTop.StreamFold

/-!
# Layouts of a header

The tokens of a header can stand on one line or on continuation lines of their
own, with blank lines between.  The parser sees the same header and the same
body in every layout.
-/
namespace LlmTop
open Lib Lib.Faults

/-- A field with a known key and a value that trimming has nothing to take from. -/
structure HeaderToken where
  key : Bytes
  value : Bytes
  known : key ∈ headerKeys
  solid : ∀ c ∈ value, isTrimmed c = false

def HeaderToken.text (t : HeaderToken) : Bytes := fieldToken t.key t.value

def headerLineOf (tokens : List HeaderToken) : Bytes :=
  spaced ' '.toUInt8 (tokens.map HeaderToken.text)

/-- The tokens in order: some on line 1, then one on each continuation line
with the blank lines in front of it, then more blank lines. -/
structure HeaderLayout (tokens : List HeaderToken) where
  first : List HeaderToken
  folded : List (List Bytes × HeaderToken)
  blanks : List Bytes
  first_ne : first ≠ []
  order : first ++ folded.map Prod.snd = tokens
  blank : ∀ line ∈ folded.flatMap Prod.fst ++ blanks, ∀ c ∈ line, isBlank c = true

/-- Lines, and the body behind a newline; `none` is a frame that ends there. -/
def frameText (headerLines : List Bytes) (body : Option Bytes) : Bytes :=
  spaced '\n'.toUInt8 headerLines ++ (body.map ('\n'.toUInt8 :: ·)).getD []

namespace HeaderLayout

variable {tokens : List HeaderToken}

def laterLines (layout : HeaderLayout tokens) : List Bytes :=
  (layout.folded.flatMap fun f => f.1 ++ [f.2.text]) ++ layout.blanks

def frame (layout : HeaderLayout tokens) (body : Option Bytes) : Bytes :=
  frameText (headerLineOf layout.first :: layout.laterLines) body

/-- All tokens on line 1. -/
def flat (hne : tokens ≠ []) : HeaderLayout tokens where
  first := tokens
  folded := []
  blanks := []
  first_ne := hne
  order := List.append_nil tokens
  blank := by simp

end HeaderLayout

/-- The first line of a body that is not blank is no continuation. -/
def OpensBody (body : Bytes) : Prop :=
  ∀ line ∈ (contentLines (lines body)).head?, isHeaderContinuation line = false

/-! ## Texts that trimming leaves alone -/

/-- A text that begins and ends with elements that `p` keeps. -/
structure Kept (p : UInt8 → Bool) (s : Bytes) : Prop where
  head : ∃ c ∈ s.head?, p c = false
  last : ∃ c ∈ s.getLast?, p c = false

theorem Kept.trimBoth {p : UInt8 → Bool} {s : Bytes} (h : Kept p s) :
    Search.trimBoth p s = s := by
  have hcore := Search.trimBoth_core [] [] h.head h.last
  simpa using hcore

theorem Kept.ne_nil {p : UInt8 → Bool} {s : Bytes} (h : Kept p s) : s ≠ [] := by
  rintro rfl
  obtain ⟨c, hc, -⟩ := h.head
  contradiction

theorem kept_of_all {p : UInt8 → Bool} {s : Bytes} (hne : s ≠ []) (h : ∀ c ∈ s, p c = false) :
    Kept p s where
  head := ⟨s.head hne, List.head?_eq_some_head hne, h _ (List.head_mem hne)⟩
  last := ⟨s.getLast hne, List.getLast?_eq_some_getLast hne, h _ (List.getLast_mem hne)⟩

theorem Kept.append {p : UInt8 → Bool} {s t : Bytes} (hs : Kept p s) (ht : Kept p t) (middle : Bytes) :
    Kept p (s ++ (middle ++ t)) := by
  obtain ⟨c, hc, hkept⟩ := hs.head
  obtain ⟨d, hd, hkept'⟩ := ht.last
  refine ⟨⟨c, ?_, hkept⟩, ⟨d, ?_, hkept'⟩⟩
  · rw [List.head?_append, Option.mem_def.mp hc]
    rfl
  · rw [List.getLast?_append, List.getLast?_append, Option.mem_def.mp hd]
    rfl

theorem kept_spaced {p : UInt8 → Bool} (delim : UInt8) {words : List Bytes} (hne : words ≠ [])
    (h : ∀ word ∈ words, Kept p word) : Kept p (spaced delim words) := by
  induction words with
  | nil => exact absurd rfl hne
  | cons word rest ih =>
      have hword := h word List.mem_cons_self
      cases rest with
      | nil => exact hword
      | cons next rest =>
          have hrest := ih (List.cons_ne_nil next rest) fun w hw => h w (List.mem_cons_of_mem word hw)
          exact hword.append hrest [delim]

/-! ## Tokens -/

theorem HeaderToken.text_plain (t : HeaderToken) : ∀ c ∈ t.text, isTrimmed c = false := by
  have hkeys : ∀ key ∈ headerKeys, ∀ c ∈ key, isTrimmed c = false := by decide +kernel
  intro c hc
  rcases List.mem_append.mp hc with hc | hc
  · exact hkeys t.key t.known c hc
  · rcases List.mem_cons.mp hc with rfl | hc
    · decide
    · exact t.solid c hc

theorem HeaderToken.text_ne_nil (t : HeaderToken) : t.text ≠ [] := by
  simp [HeaderToken.text, fieldToken]

theorem isBlank_of_isTrimmed {c : UInt8} (h : isTrimmed c = false) : isBlank c = false := by
  simp only [isTrimmed, Bool.or_eq_false_iff] at h
  simp only [isBlank, h, Bool.or_self]

theorem HeaderToken.kept (t : HeaderToken) : Kept isBlank t.text :=
  kept_of_all t.text_ne_nil fun c hc => isBlank_of_isTrimmed (t.text_plain c hc)

theorem HeaderToken.byte_ne (t : HeaderToken) {c : UInt8} (hc : isTrimmed c = true) : c ∉ t.text := by
  intro hmem
  rw [t.text_plain c hmem] at hc
  contradiction

theorem HeaderToken.isHeaderContinuation (t : HeaderToken) : isHeaderContinuation t.text = true := by
  have hkeys : ∀ key ∈ headerKeys, ':'.toUInt8 ∉ key ∧ key.length ≠ 0 ∧
      key.head? ≠ some '['.toUInt8 ∧ key.head? ≠ some '!'.toUInt8 ∧ headerKeys.contains key = true := by
    decide
  obtain ⟨hcolon, hlength, hrole, htool, hknown⟩ := hkeys t.key t.known
  have hblank := t.byte_ne (c := ' '.toUInt8) (by decide)
  have hhead : t.text.head? = t.key.head? := by
    cases hkey : t.key with
    | nil => exact absurd (congrArg List.length hkey) hlength
    | cons c cs => rw [HeaderToken.text, fieldToken, hkey, List.cons_append, List.head?_cons,
        List.head?_cons]
  have hfind : Search.find ':'.toUInt8 t.text = some t.key.length := Search.find_append t.value hcolon
  have htake : t.text.take t.key.length = t.key := List.take_left
  unfold LlmTop.isHeaderContinuation
  rw [hhead, if_neg (by simp [t.text_ne_nil, hrole, htool]), if_neg hblank, hfind]
  dsimp only
  rw [htake, hknown]
  simpa using hlength

/-! ## Lines of a layout -/

theorem contentLines_append (front back : List Bytes) :
    contentLines (front ++ back) = contentLines front ++ contentLines back := by
  rw [contentLines, List.map_append, List.filter_append]
  rfl

theorem contentLines_blank {blanks : List Bytes} (h : ∀ line ∈ blanks, ∀ c ∈ line, isBlank c = true) :
    contentLines blanks = [] := by
  induction blanks with
  | nil => rfl
  | cons line rest ih =>
      have hline : trimLine line = [] := by
        have hdrop : line.dropWhile isBlank = [] :=
          List.dropWhile_eq_nil_iff.mpr (h line List.mem_cons_self)
        rw [trimLine, Search.trimBoth, hdrop]
        rfl
      rw [contentLines_cons, hline]
      exact ih fun l hl => h l (List.mem_cons_of_mem line hl)

theorem contentLines_text (t : HeaderToken) : contentLines [t.text] = [t.text] := by
  have hline : trimLine t.text = t.text := t.kept.trimBoth
  rw [contentLines_cons, hline, if_neg (by simp [t.text_ne_nil])]
  rfl

theorem frameText_cons (line next : Bytes) (rest : List Bytes) (body : Option Bytes) :
    frameText (line :: next :: rest) body = line ++ '\n'.toUInt8 :: frameText (next :: rest) body := by
  rw [frameText, frameText, spaced, List.append_assoc, List.cons_append]

theorem lines_cut {line : Bytes} (hplain : '\n'.toUInt8 ∉ line) (rest : Bytes) :
    lines (line ++ '\n'.toUInt8 :: rest) = line :: lines rest := by
  apply Split.splitTerminated_append
  · intro c hc
    exact beq_eq_false_iff_ne.mpr fun heq => hplain (heq ▸ hc)
  · decide

theorem lines_single {line : Bytes} (hne : line ≠ []) (hplain : '\n'.toUInt8 ∉ line) :
    lines line = [line] := by
  apply Split.splitTerminated_word hne
  intro c hc
  exact beq_eq_false_iff_ne.mpr fun heq => hplain (heq ▸ hc)

theorem contentLines_frameText {headerLines : List Bytes} (hne : headerLines ≠ [])
    (hplain : ∀ line ∈ headerLines, '\n'.toUInt8 ∉ line) (body : Option Bytes) :
    contentLines (lines (frameText headerLines body)) =
      contentLines headerLines ++ contentLines (lines (body.getD [])) := by
  induction headerLines with
  | nil => exact absurd rfl hne
  | cons line rest ih =>
      have hline := hplain line List.mem_cons_self
      cases rest with
      | nil =>
          cases body with
          | none =>
              have htext : frameText [line] none = line := List.append_nil line
              rw [htext]
              by_cases hempty : line = []
              · rw [hempty]
                rfl
              · rw [lines_single hempty hline]
                exact (List.append_nil _).symm
          | some body =>
              have htext : frameText [line] (some body) = line ++ '\n'.toUInt8 :: body := rfl
              rw [htext, lines_cut hline, Option.getD_some]
              exact contentLines_append [line] (lines body)
      | cons next rest =>
          have hrest := ih (List.cons_ne_nil next rest) fun l hl =>
            hplain l (List.mem_cons_of_mem line hl)
          rw [frameText_cons, lines_cut hline]
          have hcons : ∀ rest, contentLines (line :: rest) = contentLines [line] ++ contentLines rest :=
            fun rest => contentLines_append [line] rest
          rw [hcons, hcons (next :: rest), hrest, List.append_assoc]

/-- Line 1, then lines with the content of the later lines and of the body. -/
theorem lines_frameText {line : Bytes} {later : List Bytes} (hne : line ≠ [])
    (hplain : ∀ l ∈ line :: later, '\n'.toUInt8 ∉ l) (body : Option Bytes) :
    ∃ rest, lines (frameText (line :: later) body) = line :: rest ∧
      contentLines rest = contentLines later ++ contentLines (lines (body.getD [])) := by
  have hline := hplain line List.mem_cons_self
  cases later with
  | nil =>
      cases body with
      | none =>
          have htext : frameText [line] none = line := List.append_nil line
          exact ⟨[], by rw [htext, lines_single hne hline], rfl⟩
      | some body => exact ⟨lines body, lines_cut hline body, rfl⟩
  | cons next rest =>
      refine ⟨lines (frameText (next :: rest) body), ?_, ?_⟩
      · rw [frameText_cons, lines_cut hline]
      · apply contentLines_frameText (List.cons_ne_nil next rest)
        exact fun l hl => hplain l (List.mem_cons_of_mem line hl)

/-! ## The view of a layout -/

theorem spaced_cons (delim : UInt8) (word : Bytes) (back : List Bytes) :
    spaced delim (word :: back) = word ++ back.flatMap ([delim] ++ ·) := by
  induction back generalizing word with
  | nil => exact (List.append_nil word).symm
  | cons next back ih =>
      rw [spaced, ih, List.flatMap_cons, List.append_assoc]
      rfl

theorem spaced_append (delim : UInt8) {front : List Bytes} (hne : front ≠ []) (back : List Bytes) :
    spaced delim (front ++ back) = spaced delim front ++ back.flatMap ([delim] ++ ·) := by
  cases front with
  | nil => exact absurd rfl hne
  | cons word rest =>
      rw [List.cons_append, spaced_cons, spaced_cons, List.flatMap_append, List.append_assoc]

theorem notMem_spaced {delim c : UInt8} {words : List Bytes} (hdelim : c ≠ delim)
    (h : ∀ word ∈ words, c ∉ word) : c ∉ spaced delim words := by
  cases words with
  | nil => exact List.not_mem_nil
  | cons word rest =>
      obtain ⟨hword, hrest⟩ := List.forall_mem_cons.mp h
      rw [spaced_cons, List.mem_append, List.mem_flatMap, not_or]
      refine ⟨hword, ?_⟩
      rintro ⟨other, hother, hc⟩
      rcases List.mem_cons.mp hc with heq | hc
      · exact hdelim heq
      · exact hrest other hother hc

namespace HeaderLayout

variable {tokens : List HeaderToken} (layout : HeaderLayout tokens)

theorem kept_headerLineOf {first : List HeaderToken} (hne : first ≠ []) :
    Kept isBlank (headerLineOf first) := by
  apply kept_spaced
  · simpa using hne
  · intro word hword
    obtain ⟨t, -, rfl⟩ := List.mem_map.mp hword
    exact t.kept

theorem newline_notMem {line : Bytes}
    (hline : line ∈ headerLineOf layout.first :: layout.laterLines) : '\n'.toUInt8 ∉ line := by
  have htoken (t : HeaderToken) : '\n'.toUInt8 ∉ t.text := t.byte_ne (by decide)
  have hblank : ∀ l ∈ layout.folded.flatMap Prod.fst ++ layout.blanks, '\n'.toUInt8 ∉ l := by
    intro l hl hc
    have hnewline := layout.blank l hl _ hc
    exact absurd hnewline (by decide)
  intro hc
  rcases List.mem_cons.mp hline with rfl | hlater
  · refine notMem_spaced (by decide) ?_ hc
    exact List.forall_mem_map.mpr fun t _ => htoken t
  · rcases List.mem_append.mp hlater with hfolded | hmem
    · obtain ⟨f, hf, hl⟩ := List.mem_flatMap.mp hfolded
      rcases List.mem_append.mp hl with hl | hl
      · exact hblank line (List.mem_append_left _ (List.mem_flatMap.mpr ⟨f, hf, hl⟩)) hc
      · rw [List.mem_singleton.mp hl] at hc
        exact htoken f.2 hc
    · exact hblank line (List.mem_append_right _ hmem) hc

theorem contentLines_later :
    contentLines layout.laterLines = (layout.folded.map Prod.snd).map HeaderToken.text := by
  have hfolded : ∀ folded : List (List Bytes × HeaderToken),
      (∀ line ∈ folded.flatMap Prod.fst, ∀ c ∈ line, isBlank c = true) →
        contentLines (folded.flatMap fun f => f.1 ++ [f.2.text]) =
          (folded.map Prod.snd).map HeaderToken.text := by
    intro folded hblank
    induction folded with
    | nil => rfl
    | cons f folded ih =>
        rw [List.flatMap_cons, List.forall_mem_append] at hblank
        rw [List.flatMap_cons, contentLines_append, contentLines_append,
          contentLines_blank hblank.1, contentLines_text, ih hblank.2]
        rfl
  have hblank := List.forall_mem_append.mp layout.blank
  rw [laterLines, contentLines_append, hfolded _ hblank.1, contentLines_blank hblank.2,
    List.append_nil]

/-- Every layout of the tokens has one view, with the content of the body. -/
theorem frameView_frame {body : Option Bytes} (hbody : OpensBody (body.getD [])) :
    frameView (layout.frame body) =
      some (headerLineOf tokens, contentLines (lines (body.getD []))) := by
  have hfirst := kept_headerLineOf layout.first_ne
  obtain ⟨rest, hlines, hcontent⟩ :=
    lines_frameText hfirst.ne_nil (fun _ hl => layout.newline_notMem hl) body
  have hcontinues : ∀ word ∈ (layout.folded.map Prod.snd).map HeaderToken.text,
      isHeaderContinuation word = true := by
    intro word hword
    obtain ⟨t, -, rfl⟩ := List.mem_map.mp hword
    exact t.isHeaderContinuation
  have hstops : (contentLines (lines (body.getD []))).takeWhile isHeaderContinuation = [] ∧
      (contentLines (lines (body.getD []))).dropWhile isHeaderContinuation =
        contentLines (lines (body.getD [])) := by
    unfold OpensBody at hbody
    revert hbody
    cases contentLines (lines (body.getD [])) with
    | nil => exact fun _ => ⟨rfl, rfl⟩
    | cons line later =>
        intro hbody
        have hline : ¬isHeaderContinuation line = true := by simp [hbody line rfl]
        exact ⟨List.takeWhile_cons_of_neg hline, List.dropWhile_cons_of_neg hline⟩
  have htokens : headerLineOf tokens = headerLineOf layout.first ++
      ((layout.folded.map Prod.snd).map HeaderToken.text).flatMap (ascii " " ++ ·) := by
    have hne : layout.first.map HeaderToken.text ≠ [] := by simpa using layout.first_ne
    have hsplit : headerLineOf (layout.first ++ layout.folded.map Prod.snd) =
        headerLineOf layout.first ++
          ((layout.folded.map Prod.snd).map HeaderToken.text).flatMap ([' '.toUInt8] ++ ·) := by
      rw [headerLineOf, List.map_append]
      exact spaced_append ' '.toUInt8 hne _
    rw [layout.order] at hsplit
    exact hsplit
  have hline : trimLine (headerLineOf layout.first) = headerLineOf layout.first := hfirst.trimBoth
  rw [frameView_eq, frame, hlines]
  dsimp only
  rw [hcontent, layout.contentLines_later, hline, foldContent,
    List.takeWhile_append_of_pos hcontinues, List.dropWhile_append_of_pos hcontinues, hstops.1,
    hstops.2, List.append_nil, ← htokens]

end HeaderLayout

/-- In every layout the parser takes the same header from the stream, leaves it
at the body, and comes to the outcome of the layout on one line; the frames may
end with or without a newline. -/
theorem header_folding_is_view {tokens : List HeaderToken} (hne : tokens ≠ [])
    (layout : HeaderLayout tokens) {body flatBody : Option Bytes}
    (hsame : body.getD [] = flatBody.getD []) (hbody : OpensBody (body.getD [])) {maxSize : Nat}
    (hsize : (layout.frame body).length ≤ maxSize)
    (hflat : ((HeaderLayout.flat hne).frame flatBody).length ≤ maxSize) :
    (∀ mode, parse mode maxSize (layout.frame body) =
      (parse mode maxSize ((HeaderLayout.flat hne).frame flatBody)).map
        fun ast => { ast with rawFrame := layout.frame body }) ∧
    ∃ stream, openFrame (layout.frame body) = some (headerLineOf tokens, stream) ∧
      contentLines (unread stream) = contentLines (lines (body.getD [])) := by
  have hview := layout.frameView_frame hbody
  constructor
  · intro mode
    have hflatView := (HeaderLayout.flat hne).frameView_frame (hsame ▸ hbody)
    apply parse_of_view _ hflat hsize
    rw [hview, hflatView, hsame]
  · unfold frameView at hview
    rw [← openFrame_eq, Option.map_map, Option.map_eq_some_iff] at hview
    obtain ⟨⟨headerLine, stream⟩, hopen, hparts⟩ := hview
    obtain ⟨rfl, hcontent⟩ := Prod.mk.inj hparts
    exact ⟨stream, hopen, hcontent⟩

def foldedTokens : List HeaderToken :=
  [⟨ascii "VER", ascii "2", by decide +kernel, by decide +kernel⟩,
    ⟨ascii "CHK", ascii "sha256:0", by decide +kernel, by decide +kernel⟩,
    ⟨ascii "AGT", ascii "a", by decide +kernel, by decide +kernel⟩,
    ⟨ascii "REQID", ascii "r", by decide +kernel, by decide +kernel⟩]

theorem foldedTokens_ne : foldedTokens ≠ [] := by simp [foldedTokens]

/-- Two tokens on line 1, then one each on two lines with a blank line between. -/
def foldedLayout : HeaderLayout foldedTokens where
  first := foldedTokens.take 2
  folded := (foldedTokens.drop 2).map fun t => ([ascii " \t"], t)
  blanks := [[]]
  first_ne := by simp [foldedTokens]
  order := rfl
  blank := by decide +kernel

theorem folded_layout_read : (parse .strict 1048576
    (foldedLayout.frame (some (ascii "[A] k:v")))).toOption.any
      (fun ast => ast.header.reqid == ascii "r" && ast.statements.length == 1) = true := by
  have hbody : OpensBody (ascii "[A] k:v") := by
    unfold OpensBody
    decide +kernel
  have hview := @header_folding_is_view foldedTokens foldedTokens_ne foldedLayout
    (some (ascii "[A] k:v")) (some (ascii "[A] k:v")) rfl hbody 1048576 (by decide +kernel)
    (by decide +kernel)
  rw [hview.1 .strict]
  decide +kernel

end LlmTop
