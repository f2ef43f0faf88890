import Mathlib.Data.List.DropRight
import LlmTop.Reading

/-!
# The quote scan and the lexer

`parse` looks for an unclosed quote with a scan of its own, in which a backslash
escapes outside quotes too.  Where it and `lex_split` part is read off the texts
between the quotes of a line.
-/
namespace LlmTop

/-- One byte of the scan in `parse`: inside quotes, behind a backslash. -/
def scanStep (s : Bool × Bool) (c : UInt8) : Bool × Bool :=
  if s.2 then (s.1, false)
  else if c = backslash then (s.1, true)
  else if c = quote then (!s.1, false)
  else s

theorem quoteOpen_eq (line : Bytes) : quoteOpen line = (line.foldl scanStep (false, false)).1 := rfl

/-- The same two flags of the lexer. -/
def lexFlags (s : Bool × Bool) (c : UInt8) : Bool × Bool :=
  if s.2 then (s.1, false)
  else if c = backslash ∧ s.1 then (s.1, true)
  else if c = quote then (!s.1, s.2)
  else s

def lexOpen (delim : UInt8) (line : Bytes) : Bool := (line.foldl (lexStep delim) {}).inQuotes

theorem lexStep_flags (delim : UInt8) (s : LexState) (c : UInt8) :
    ((lexStep delim s c).inQuotes, (lexStep delim s c).inEscape) =
      lexFlags (s.inQuotes, s.inEscape) c := by
  unfold lexStep lexFlags
  dsimp only
  split_ifs <;> rfl

theorem lexOpen_eq (delim : UInt8) (line : Bytes) :
    lexOpen delim line = (line.foldl lexFlags (false, false)).1 := by
  have hrun : ∀ s : LexState, ((line.foldl (lexStep delim) s).inQuotes,
      (line.foldl (lexStep delim) s).inEscape) =
        line.foldl lexFlags (s.inQuotes, s.inEscape) := by
    induction line with
    | nil => exact fun _ => rfl
    | cons c line ih =>
        intro s
        rw [List.foldl_cons, ih, lexStep_flags, List.foldl_cons]
  exact congrArg Prod.fst (hrun {})

/-- The scan finds an unclosed quote where the lexer does, and the line is
balanced for the lexer once the parser has closed it. -/
structure QuotesAgree (line : Bytes) : Prop where
  same : ∀ delim, quoteOpen line = lexOpen delim line
  closed : ∀ delim, lexOpen delim (closeQuote line) = false

/-! ## The quotes of a line -/

/-- Text inside quotes; a backslash takes the next byte with it. -/
inductive QuotedText : Bytes → Prop where
  | nil : QuotedText []
  | escaped (c : UInt8) {text : Bytes} (h : QuotedText text) :
      QuotedText (backslash :: c :: text)
  | plain {c : UInt8} {text : Bytes} (hback : c ≠ backslash) (hquote : c ≠ quote)
      (h : QuotedText text) : QuotedText (c :: text)

/-- A quoted string with the text in front of it. -/
structure QuotedString where
  before : Bytes
  body : Bytes
  outside : quote ∉ before
  inside : QuotedText body

/-- A string that is not closed; `dangling` is a last backslash that escapes
nothing. -/
structure OpenString where
  body : Bytes
  dangling : Bool
  inside : QuotedText body

/-- A line as its quotes divide it. -/
structure QuotedLine where
  strings : List QuotedString
  last : Bytes
  outside : quote ∉ last
  unclosed : Option OpenString

def QuotedString.render (s : QuotedString) : Bytes := s.before ++ quote :: (s.body ++ [quote])

def OpenString.render (s : OpenString) : Bytes :=
  s.body ++ if s.dangling then [backslash] else []

namespace QuotedLine

def render (d : QuotedLine) : Bytes :=
  d.strings.flatMap QuotedString.render ++
    (d.last ++ (d.unclosed.map fun s => quote :: s.render).getD [])

/-- The texts in front of the opening quotes. -/
def openings (d : QuotedLine) : List Bytes :=
  d.strings.map QuotedString.before ++ if d.unclosed.isSome then [d.last] else []

end QuotedLine

/-- The text ends in an odd number of backslashes. -/
def oddBackslashes (text : Bytes) : Bool := (text.rtakeWhile (· == backslash)).length % 2 == 1

/-- An even number of opening quotes stands behind an odd run of backslashes,
and no unclosed string ends in a backslash of its own. -/
structure QuotedLine.Balanced (d : QuotedLine) : Prop where
  even : d.openings.countP oddBackslashes % 2 = 0
  complete : ∀ s ∈ d.unclosed, s.dangling = false

/-- Every text is inside quotes up to a closing quote or its end. -/
theorem quotedText_cases (text : Bytes) :
    (∃ body rest, QuotedText body ∧ text = body ++ quote :: rest) ∨
      ∃ s : OpenString, text = s.render := by
  match text with
  | [] => exact Or.inr ⟨⟨[], false, .nil⟩, rfl⟩
  | [c] =>
      by_cases hback : c = backslash
      · exact Or.inr ⟨⟨[], true, .nil⟩, by rw [hback]; rfl⟩
      · by_cases hquote : c = quote
        · exact Or.inl ⟨[], [], .nil, by rw [hquote]; rfl⟩
        · exact Or.inr ⟨⟨[c], false, .plain hback hquote .nil⟩, rfl⟩
  | c :: d :: rest =>
      by_cases hback : c = backslash
      · subst hback
        rcases quotedText_cases rest with ⟨body, rest', hbody, rfl⟩ | ⟨s, rfl⟩
        · exact Or.inl ⟨backslash :: d :: body, rest', .escaped d hbody, rfl⟩
        · exact Or.inr ⟨⟨backslash :: d :: s.body, s.dangling, .escaped d s.inside⟩, rfl⟩
      · by_cases hquote : c = quote
        · exact Or.inl ⟨[], d :: rest, .nil, by rw [hquote]; rfl⟩
        · rcases quotedText_cases (d :: rest) with ⟨body, rest', hbody, hrest⟩ | ⟨s, hrest⟩
          · exact Or.inl ⟨c :: body, rest', .plain hback hquote hbody, by rw [hrest]; rfl⟩
          · exact Or.inr ⟨⟨c :: s.body, s.dangling, .plain hback hquote s.inside⟩, by
              rw [hrest]; rfl⟩

theorem exists_quotedLine (line : Bytes) : ∃ d : QuotedLine, d.render = line := by
  induction hlength : line.length using Nat.strong_induction_on generalizing line with
  | _ n ih =>
      by_cases hquote : quote ∈ line
      · obtain ⟨i, hfind⟩ := Lib.Search.exists_find hquote
        obtain ⟨before, rest, rfl, houtside, -⟩ := Lib.Search.find_eq_some.mp hfind
        rcases quotedText_cases rest with ⟨body, rest', hbody, rfl⟩ | ⟨s, rfl⟩
        · obtain ⟨d, hd⟩ := ih rest'.length (by simp [← hlength]; omega) rest' rfl
          refine ⟨{ d with strings := ⟨before, body, houtside, hbody⟩ :: d.strings }, ?_⟩
          rw [← hd, QuotedLine.render, QuotedLine.render, List.flatMap_cons, QuotedString.render]
          simp
        · exact ⟨⟨[], before, houtside, some s⟩, rfl⟩
      · exact ⟨⟨[], line, hquote, none⟩, List.append_nil line⟩

/-! ## The two runs -/

theorem oddBackslashes_append (text : Bytes) (c : UInt8) :
    oddBackslashes (text ++ [c]) = if c = backslash then !oddBackslashes text else false := by
  unfold oddBackslashes
  rw [List.rtakeWhile_concat]
  by_cases hback : c = backslash
  · rw [if_pos hback, if_pos (beq_iff_eq.mpr hback), List.length_append, List.length_singleton]
    rcases Nat.mod_two_eq_zero_or_one (text.rtakeWhile (· == backslash)).length with h | h <;>
      simp [Nat.add_mod, h]
  · rw [if_neg hback, if_neg (by simpa using hback)]
    rfl

theorem scan_outside (inside : Bool) {text : Bytes} (h : quote ∉ text) :
    text.foldl scanStep (inside, false) = (inside, oddBackslashes text) := by
  induction text using List.reverseRecOn with
  | nil => rfl
  | append_singleton text c ih =>
      rw [List.mem_append, not_or, List.mem_singleton] at h
      rw [List.foldl_append, ih h.1, List.foldl_cons, List.foldl_nil, oddBackslashes_append,
        scanStep]
      dsimp only
      cases oddBackslashes text with
      | true => simp
      | false =>
          by_cases hback : c = backslash
          · simp [hback]
          · simp [hback, Ne.symm h.2]

theorem lex_outside {text : Bytes} (h : quote ∉ text) :
    text.foldl lexFlags (false, false) = (false, false) := by
  induction text with
  | nil => rfl
  | cons c text ih =>
      rw [List.mem_cons, not_or] at h
      have hstep : lexFlags (false, false) c = (false, false) := by
        simp [lexFlags, Ne.symm h.1]
      rw [List.foldl_cons, hstep, ih h.2]

theorem scan_inside (inside : Bool) {text : Bytes} (h : QuotedText text) :
    text.foldl scanStep (inside, false) = (inside, false) := by
  induction h with
  | nil => rfl
  | escaped c h ih => exact ih
  | plain hback hquote h ih =>
      rw [List.foldl_cons, scanStep, if_neg Bool.false_ne_true, if_neg hback, if_neg hquote, ih]

theorem lex_inside {text : Bytes} (h : QuotedText text) :
    text.foldl lexFlags (true, false) = (true, false) := by
  induction h with
  | nil => rfl
  | escaped c h ih => exact ih
  | plain hback hquote h ih =>
      rw [List.foldl_cons, lexFlags, if_neg Bool.false_ne_true, if_neg (fun h => hback h.1),
        if_neg hquote, ih]

theorem scan_quote (inside escape : Bool) :
    scanStep (inside, escape) quote = (inside == escape, false) := by
  cases inside <;> cases escape <;> decide

theorem lex_quote (inside : Bool) : lexFlags (inside, false) quote = (!inside, false) := by
  cases inside <;> decide

/-- An opening quote behind an odd run of backslashes turns the scan over. -/
theorem scan_string (inside : Bool) (s : QuotedString) :
    s.render.foldl scanStep (inside, false) = (inside != oddBackslashes s.before, false) := by
  rw [QuotedString.render, List.foldl_append, scan_outside inside s.outside, List.foldl_cons,
    scan_quote, List.foldl_append, scan_inside _ s.inside, List.foldl_cons, List.foldl_nil,
    scan_quote]
  cases inside <;> cases oddBackslashes s.before <;> rfl

theorem lex_string (s : QuotedString) :
    s.render.foldl lexFlags (false, false) = (false, false) := by
  rw [QuotedString.render, List.foldl_append, lex_outside s.outside, List.foldl_cons, lex_quote,
    Bool.not_false, List.foldl_append, lex_inside s.inside, List.foldl_cons, List.foldl_nil,
    lex_quote, Bool.not_true]

theorem odd_add (n : Nat) (b : Bool) :
    ((n + if b = true then 1 else 0) % 2 == 1) = ((n % 2 == 1) != b) := by
  rcases Nat.mod_two_eq_zero_or_one n with h | h <;> cases b <;> simp [Nat.add_mod, h]

theorem scan_strings (strings : List QuotedString) (inside : Bool) :
    (strings.flatMap QuotedString.render).foldl scanStep (inside, false) =
      (inside != ((strings.map QuotedString.before).countP oddBackslashes % 2 == 1), false) := by
  induction strings generalizing inside with
  | nil => cases inside <;> rfl
  | cons s strings ih =>
      rw [List.flatMap_cons, List.foldl_append, scan_string, ih, List.map_cons, List.countP_cons,
        odd_add]
      cases inside <;> cases oddBackslashes s.before <;> simp

theorem lex_strings (strings : List QuotedString) :
    (strings.flatMap QuotedString.render).foldl lexFlags (false, false) = (false, false) := by
  induction strings with
  | nil => rfl
  | cons s strings ih => rw [List.flatMap_cons, List.foldl_append, lex_string, ih]

namespace QuotedLine

def flipped (d : QuotedLine) : Bool := d.openings.countP oddBackslashes % 2 == 1

def dangling (d : QuotedLine) : Bool := (d.unclosed.map OpenString.dangling).getD false

theorem flipped_eq (d : QuotedLine) : d.flipped =
    (((d.strings.map QuotedString.before).countP oddBackslashes % 2 == 1) !=
      (d.unclosed.isSome && oddBackslashes d.last)) := by
  unfold flipped openings
  rw [List.countP_append]
  cases d.unclosed with
  | none => simp
  | some s =>
      rw [Option.isSome_some, if_pos rfl, Bool.true_and, ← odd_add, List.countP_singleton]

theorem balanced_iff (d : QuotedLine) :
    d.Balanced ↔ d.flipped = false ∧ d.dangling = false := by
  have heven : d.flipped = false ↔ d.openings.countP oddBackslashes % 2 = 0 := by
    unfold flipped
    rw [beq_eq_false_iff_ne]
    omega
  have hcomplete : d.dangling = false ↔ ∀ s ∈ d.unclosed, s.dangling = false := by
    unfold dangling
    cases d.unclosed <;> simp
  rw [heven, hcomplete]
  exact ⟨fun h => ⟨h.even, h.complete⟩, fun h => ⟨h.1, h.2⟩⟩

theorem lex_render (d : QuotedLine) :
    d.render.foldl lexFlags (false, false) = (d.unclosed.isSome, d.dangling) := by
  have hback : lexFlags (true, false) backslash = (true, true) := by decide
  rw [render, List.foldl_append, lex_strings, List.foldl_append, lex_outside d.outside, dangling]
  cases d.unclosed with
  | none => rfl
  | some s =>
      rw [Option.map_some, Option.getD_some, List.foldl_cons, lex_quote,
        Bool.not_false, OpenString.render, List.foldl_append, lex_inside s.inside,
        Option.map_some, Option.getD_some]
      cases s.dangling with
      | false => rfl
      | true => exact hback

theorem scan_render (d : QuotedLine) :
    (d.render.foldl scanStep (false, false)).1 = (d.unclosed.isSome != d.flipped) := by
  rw [flipped_eq, render, List.foldl_append, scan_strings, List.foldl_append,
    scan_outside _ d.outside]
  cases d.unclosed with
  | none => simp
  | some s =>
      have hlast : ∀ inside : Bool, ((if s.dangling then [backslash] else []).foldl scanStep
          (inside, false)).1 = inside := by
        intro inside
        cases s.dangling <;> cases inside <;> decide
      rw [Option.map_some, Option.getD_some, List.foldl_cons, scan_quote, OpenString.render,
        List.foldl_append, scan_inside _ s.inside, hlast, Option.isSome_some, Bool.true_and]
      cases oddBackslashes d.last <;> simp

theorem quoteOpen_render (d : QuotedLine) :
    quoteOpen d.render = (d.unclosed.isSome != d.flipped) := by
  rw [quoteOpen_eq, scan_render]

theorem lexOpen_render (d : QuotedLine) (delim : UInt8) :
    lexOpen delim d.render = d.unclosed.isSome := by
  rw [lexOpen_eq, lex_render]

/-- The healing quote closes an open string unless a backslash takes it. -/
theorem lexOpen_append (d : QuotedLine) (delim : UInt8) (h : d.unclosed.isSome = true) :
    lexOpen delim (d.render ++ [quote]) = d.dangling := by
  rw [lexOpen_eq, List.foldl_append, lex_render, h]
  cases d.dangling <;> decide

theorem same_iff (d : QuotedLine) :
    (∀ delim, quoteOpen d.render = lexOpen delim d.render) ↔ d.flipped = false := by
  simp only [quoteOpen_render, lexOpen_render]
  cases d.flipped <;> cases d.unclosed.isSome <;> simp

theorem closed_iff (d : QuotedLine) (h : d.flipped = false) :
    (∀ delim, lexOpen delim (closeQuote d.render) = false) ↔ d.dangling = false := by
  have hscan : quoteOpen d.render = d.unclosed.isSome := by
    rw [quoteOpen_render, h, Bool.bne_false]
  rw [closeQuote, hscan]
  cases hsome : d.unclosed.isSome with
  | false =>
      have hnone : d.unclosed = none := by simpa using hsome
      apply iff_of_true
      · intro delim
        rw [if_neg Bool.false_ne_true, lexOpen_render, hsome]
      · rw [dangling, hnone]
        rfl
  | true => simp [lexOpen_append d _ hsome]

end QuotedLine

/-- Every line is one that its quotes divide, and the scan agrees with the lexer
exactly on the balanced ones. -/
theorem quotesAgree_iff_balanced (line : Bytes) :
    (∃ d : QuotedLine, d.render = line) ∧
      ∀ d : QuotedLine, d.render = line → (QuotesAgree line ↔ d.Balanced) := by
  refine ⟨exists_quotedLine line, ?_⟩
  rintro d rfl
  rw [d.balanced_iff]
  constructor
  · intro h
    have hflipped := d.same_iff.mp h.same
    exact ⟨hflipped, (d.closed_iff hflipped).mp h.closed⟩
  · rintro ⟨hflipped, hdangling⟩
    exact ⟨d.same_iff.mpr hflipped, (d.closed_iff hflipped).mpr hdangling⟩

def escapedQuoteLine : Bytes := ascii "[A] k:\\\"x y:z"

def escapedQuoteFrame : Bytes :=
  ascii "VER:2 CHK:sha256:0 AGT:a UID:u TIM:t REQID:r\n" ++ escapedQuoteLine

/-- The backslash hides the quote from the scan: the strict parser takes both
fields as one. -/
theorem escaped_quote_swallows :
    quoteOpen escapedQuoteLine = false ∧ lexOpen ' '.toUInt8 escapedQuoteLine = true ∧
      ∃ ast, parse .strict 1048576 escapedQuoteFrame = .ok ast ∧
        (ast.statements.flatMap fun stmt => stmt.kvpairs.data) =
          [(ascii "k", ascii "\\\"x y:z")] := by
  have hrun : (parse .strict 1048576 escapedQuoteFrame).toOption.any (fun ast =>
      (ast.statements.flatMap fun stmt => stmt.kvpairs.data) ==
        [(ascii "k", ascii "\\\"x y:z")]) = true := by decide +kernel
  obtain ⟨ast, hparse, h⟩ := exists_of_parse_any hrun
  exact ⟨by decide, by decide, ast, hparse, beq_iff_eq.mp h⟩

end LlmTop
