import LlmTop.QuoteScan
import LlmTop.ToolLines
import LlmTop.TokenLines

/-!
# Quoted values

A writer's escapes, and what the parser's four scans make of a quoted value: the
quote scan, the splitter and the bracket scan pass over it, and the unescaper
gives back the value.
-/
namespace LlmTop

/-! ## Escapes -/

/-- The letter that stands behind a backslash for the byte. -/
def escLetter (c : UInt8) : Option UInt8 :=
  if c = backslash then some backslash
  else if c = quote then some quote
  else if c = '\n'.toUInt8 then some 'n'.toUInt8
  else if c = '\t'.toUInt8 then some 't'.toUInt8
  else if c = '\r'.toUInt8 then some 'r'.toUInt8
  else none

def escByte (c : UInt8) : Bytes :=
  match escLetter c with
  | some letter => [backslash, letter]
  | none => [c]

def esc (value : Bytes) : Bytes := value.flatMap escByte

def quoted (value : Bytes) : Bytes := quote :: (esc value ++ [quote])

theorem esc_cons (c : UInt8) (value : Bytes) : esc (c :: value) = escByte c ++ esc value := rfl

/-- An escaped byte is plain, or a pair that the unescaper turns back. -/
theorem escByte_cases (c : UInt8) :
    (escByte c = [c] ∧ c ≠ backslash ∧ c ≠ quote ∧ c ≠ '\n'.toUInt8) ∨
      ∃ letter, escByte c = [backslash, letter] ∧ letter ≠ '\n'.toUInt8 ∧
        ∀ rest, unescape (backslash :: letter :: rest) = c :: unescape rest := by
  unfold escByte escLetter
  split_ifs with hback hquote hfeed htab hreturn
  · exact Or.inr ⟨backslash, rfl, by decide, fun rest => by rw [hback]; rfl⟩
  · exact Or.inr ⟨quote, rfl, by decide, fun rest => by rw [hquote]; rfl⟩
  · exact Or.inr ⟨'n'.toUInt8, rfl, by decide, fun rest => by rw [hfeed]; rfl⟩
  · exact Or.inr ⟨'t'.toUInt8, rfl, by decide, fun rest => by rw [htab]; rfl⟩
  · exact Or.inr ⟨'r'.toUInt8, rfl, by decide, fun rest => by rw [hreturn]; rfl⟩
  · exact Or.inl ⟨rfl, hback, hquote, hfeed⟩

theorem unescape_esc (value : Bytes) : unescape (esc value) = value := by
  induction value with
  | nil => rfl
  | cons c value ih =>
      rw [esc_cons]
      rcases escByte_cases c with ⟨hplain, hback, -, -⟩ | ⟨letter, hpair, -, hletter⟩
      · rw [hplain, List.singleton_append, unescape_plain hback, ih]
      · rw [hpair, List.cons_append, List.singleton_append, hletter, ih]

theorem quotedText_esc (value : Bytes) : QuotedText (esc value) := by
  induction value with
  | nil => exact .nil
  | cons c value ih =>
      rw [esc_cons]
      rcases escByte_cases c with ⟨hplain, hback, hquote, -⟩ | ⟨letter, hpair, -, -⟩
      · rw [hplain]
        exact .plain hback hquote ih
      · rw [hpair]
        exact .escaped letter ih

theorem newline_notMem_quoted (value : Bytes) : '\n'.toUInt8 ∉ quoted value := by
  have hesc : '\n'.toUInt8 ∉ esc value := by
    intro hmem
    obtain ⟨c, -, hc⟩ := List.mem_flatMap.mp hmem
    rcases escByte_cases c with ⟨hplain, -, -, hne⟩ | ⟨letter, hpair, hne, -⟩
    · rw [hplain] at hc
      exact hne (List.mem_singleton.mp hc).symm
    · rw [hpair, List.mem_pair] at hc
      rcases hc with hc | hc
      · exact absurd hc (by decide)
      · exact hne hc.symm
  unfold quoted
  rw [List.mem_cons, List.mem_append, List.mem_singleton, not_or, not_or]
  exact ⟨by decide, hesc, by decide⟩

/-- The unescaper gives back every value. -/
theorem unquote_quoted (value : Bytes) : unquoteAndUnescape (quoted value) = value := by
  rw [quoted, unquoteAndUnescape_ends, if_neg (not_not.mpr rfl), if_neg (not_not.mpr rfl),
    unescape_esc]

/-! ## The scans -/

/-- A text that no scan starts or ends a string in. -/
def Unquoted (word : Bytes) : Prop := ∀ c ∈ word, c ≠ quote ∧ c ≠ backslash

/-- The quote scan leaves the text as it came to it. -/
def Level (text : Bytes) : Prop := text.foldl scanStep (false, false) = (false, false)

theorem Level.append {front back : Bytes} (hfront : Level front) (hback : Level back) :
    Level (front ++ back) := by
  unfold Level
  rw [List.foldl_append, hfront, hback]

theorem level_unquoted {word : Bytes} (h : Unquoted word) : Level word := by
  unfold Level
  induction word with
  | nil => rfl
  | cons c word ih =>
      obtain ⟨hquote, hback⟩ := h c List.mem_cons_self
      rw [List.foldl_cons, scanStep, if_neg Bool.false_ne_true, if_neg hback, if_neg hquote]
      exact ih fun d hd => h d (List.mem_cons_of_mem c hd)

theorem level_quoted (value : Bytes) : Level (quoted value) := by
  have hopen : scanStep (false, false) quote = (true, false) := scan_quote false false
  have hclose : scanStep (true, false) quote = (false, false) := scan_quote true false
  unfold Level quoted
  rw [List.foldl_cons, hopen, List.foldl_append, scan_inside true (quotedText_esc value),
    List.foldl_cons, List.foldl_nil, hclose]

theorem quoteOpen_of_level {line : Bytes} (h : Level line) : quoteOpen line = false := by
  rw [quoteOpen_eq, h]

/-- The bracket scan passes over the text. -/
def Passed (text : Bytes) : Prop :=
  ∀ rest, closingBracket false false (text ++ rest) =
    (closingBracket false false rest).map (· + text.length)

theorem Passed.append {front back : Bytes} (hfront : Passed front) (hback : Passed back) :
    Passed (front ++ back) := by
  intro rest
  rw [List.append_assoc, hfront, hback, Option.map_map, List.length_append]
  congr 1
  funext n
  simp only [Function.comp_apply]
  omega

theorem passed_unquoted {word : Bytes} (h : Unquoted word) (hclose : ']'.toUInt8 ∉ word) :
    Passed word := by
  intro rest
  induction word with
  | nil => exact Option.map_id.symm ▸ rfl
  | cons c word ih =>
      rw [List.mem_cons, not_or] at hclose
      obtain ⟨hquote, hback⟩ := h c List.mem_cons_self
      have hrest := ih (fun d hd => h d (List.mem_cons_of_mem c hd)) hclose.2
      rw [List.cons_append, closingBracket, if_neg Bool.false_ne_true, if_neg fun hc => hback hc.1,
        if_neg hquote, if_neg fun hc => hclose.1 hc.1.symm, hrest, Option.map_map]
      rfl

theorem closingBracket_inside {body : Bytes} (h : QuotedText body) (rest : Bytes) :
    closingBracket true false (body ++ rest) =
      (closingBracket true false rest).map (· + body.length) := by
  induction h with
  | nil => exact Option.map_id.symm ▸ rfl
  | escaped c h ih =>
      rw [List.cons_append, List.cons_append, closingBracket, if_neg Bool.false_ne_true,
        if_pos ⟨rfl, rfl⟩, closingBracket, if_pos rfl, ih, Option.map_map, Option.map_map]
      rfl
  | plain hback hquote h ih =>
      rw [List.cons_append, closingBracket, if_neg Bool.false_ne_true, if_neg fun hc => hback hc.1,
        if_neg hquote, if_neg fun hc => hc.2 rfl, ih, Option.map_map]
      rfl

theorem closingBracket_quote (inQuotes : Bool) (rest : Bytes) :
    closingBracket inQuotes false (quote :: rest) =
      (closingBracket (!inQuotes) false rest).map (· + 1) := by
  have hback : quote ≠ backslash := by decide
  rw [closingBracket, if_neg Bool.false_ne_true, if_neg fun hc => hback hc.1, if_pos rfl]

theorem passed_quoted (value : Bytes) : Passed (quoted value) := by
  intro rest
  rw [quoted, List.cons_append, List.append_assoc, closingBracket_quote, Bool.not_false,
    closingBracket_inside (quotedText_esc value), List.singleton_append, closingBracket_quote,
    Bool.not_true, Option.map_map, Option.map_map]
  congr 1
  funext n
  simp only [Function.comp_apply, List.length_cons, List.length_append, List.length_nil]
  omega

theorem Passed.closes {args : Bytes} (h : Passed args) : Closes args := by
  have hclose : closingBracket false false [']'.toUInt8] = some 0 := by decide
  rw [Closes, h, hclose, Option.map_some, Nat.zero_add]

/-- Inside quotes a text goes to the token being read, delimiters and all. -/
theorem lex_inside_quotes {delim : UInt8} {body : Bytes} (h : QuotedText body) (current : Bytes) :
    body.foldl (lexStep delim) { current := current, inQuotes := true } =
      { current := current ++ body, inQuotes := true } := by
  induction h generalizing current with
  | nil => rw [List.append_nil, List.foldl_nil]
  | escaped c h ih =>
      have hfirst : lexStep delim { current := current, inQuotes := true } backslash =
          { current := current ++ [backslash], inQuotes := true, inEscape := true } := by
        simp [lexStep]
      have hsecond : lexStep delim
          { current := current ++ [backslash], inQuotes := true, inEscape := true } c =
            { current := current ++ [backslash, c], inQuotes := true } := by
        simp [lexStep]
      rw [List.foldl_cons, List.foldl_cons, hfirst, hsecond, ih]
      simp
  | plain hback hquote h ih =>
      rename_i c body
      have hstep : lexStep delim { current := current, inQuotes := true } c =
          { current := current ++ [c], inQuotes := true } := by
        simp [lexStep, hback, hquote]
      rw [List.foldl_cons, hstep, ih]
      simp

/-- A word and a quoted value behind it are one token. -/
theorem lex_binding {delim : UInt8} {word : Bytes} (hne : word ≠ [])
    (hplain : ∀ c ∈ word, c ≠ delim ∧ c ≠ quote ∧ c ≠ backslash) (value : Bytes) :
    (word ++ quoted value).foldl (lexStep delim) {} = { current := word ++ quoted value } := by
  have hback : quote ≠ backslash := by decide
  have hopen : lexStep delim { current := word } quote =
      { current := word ++ [quote], inQuotes := true } := by
    simp [lexStep, hback]
  have hclose : ∀ current : Bytes, lexStep delim { current := current, inQuotes := true } quote =
      { current := current ++ [quote] } := by
    intro current
    simp [lexStep, hback]
  rw [List.foldl_append, lex_plain hne hplain, quoted, List.foldl_cons, List.nil_append, hopen,
    List.foldl_append, lex_inside_quotes (quotedText_esc value), List.foldl_cons, List.foldl_nil, hclose]
  simp

theorem solid_binding {delim : UInt8} {word : Bytes} (hne : word ≠ [])
    (hplain : ∀ c ∈ word, c ≠ delim ∧ c ≠ quote ∧ c ≠ backslash) (value : Bytes) :
    Solid delim (word ++ quoted value) ∧ leavesOpen delim (word ++ quoted value) = false := by
  have hrun := lex_binding hne hplain value
  unfold Solid leavesOpen
  rw [hrun]
  exact ⟨⟨List.append_ne_nil_of_left_ne_nil hne _, rfl, rfl⟩, rfl⟩

end LlmTop
