import LlmTop.Lexer

/-!
# Laws of the lexer

Where a token can come from, and how splitting composes: outside quotes and
between tokens the lexer starts afresh.
-/
namespace LlmTop

/-- Between tokens and outside quotes. -/
structure LexState.Fresh (s : LexState) : Prop where
  current : s.current = []
  quotes : s.inQuotes = false
  escape : s.inEscape = false

/-- Quotes belong to a token that has begun, escapes to quotes. -/
structure LexState.Proper (s : LexState) : Prop where
  quotes : s.inQuotes = true → s.current ≠ []
  escape : s.inEscape = true → s.inQuotes = true

theorem LexState.Proper.step {s : LexState} (h : s.Proper) (delim c : UInt8) :
    (lexStep delim s c).Proper := by
  unfold lexStep
  split
  · exact ⟨fun _ => by simp, fun he => nomatch he⟩
  · split
    · rename_i hquoted
      exact ⟨fun _ => by simp, fun _ => hquoted.2⟩
    · split
      · exact ⟨fun _ => by simp, fun he => absurd he (by assumption)⟩
      · split
        · rename_i hdelim
          split
          · exact ⟨fun hq => absurd hq hdelim.2, fun he => absurd he (by assumption)⟩
          · exact h
        · exact ⟨fun _ => by simp, fun he => h.escape he⟩

theorem LexState.Proper.run {s : LexState} (h : s.Proper) (delim : UInt8) (str : Bytes) :
    (str.foldl (lexStep delim) s).Proper := by
  induction str generalizing s with
  | nil => exact h
  | cons c cs ih => exact ih (h.step delim c)

theorem LexState.Proper.fresh {s : LexState} (h : s.Proper) (hcurrent : s.current = []) :
    s.Fresh := by
  have hquotes : s.inQuotes = false := by
    cases hq : s.inQuotes with
    | false => rfl
    | true => exact absurd hcurrent (h.quotes hq)
  have hescape : s.inEscape = false := by
    cases he : s.inEscape with
    | false => rfl
    | true => rw [h.escape he] at hquotes; contradiction
  exact ⟨hcurrent, hquotes, hescape⟩

theorem proper_start : LexState.Proper {} :=
  ⟨fun h => absurd h Bool.false_ne_true, fun h => absurd h Bool.false_ne_true⟩

/-- Tokens already found only stand in front. -/
theorem lexStep_shift (delim c : UInt8) (s : LexState) (earlier : List Bytes) :
    lexStep delim { s with tokens := earlier ++ s.tokens } c =
      { lexStep delim s c with tokens := earlier ++ (lexStep delim s c).tokens } := by
  unfold lexStep
  dsimp only
  split_ifs <;> simp

theorem lex_shift (delim : UInt8) (str : Bytes) (s : LexState) (earlier : List Bytes) :
    (str.foldl (lexStep delim) { s with tokens := earlier ++ s.tokens }).finish =
      earlier ++ (str.foldl (lexStep delim) s).finish := by
  induction str generalizing s with
  | nil =>
      unfold LexState.finish
      dsimp only [List.foldl_nil]
      by_cases hcurrent : s.current = [] <;> simp [hcurrent]
  | cons c cs ih => rw [List.foldl_cons, lexStep_shift, ih, List.foldl_cons]

theorem lexSplit_append {delim : UInt8} {front : Bytes} (back : Bytes)
    (h : (front.foldl (lexStep delim) {}).Fresh) :
    lexSplit (front ++ back) delim = lexSplit front delim ++ lexSplit back delim := by
  have hstate : front.foldl (lexStep delim) {} =
      { ({} : LexState) with tokens := lexSplit front delim ++ ({} : LexState).tokens } := by
    unfold lexSplit LexState.finish
    rw [if_neg (by simp [h.current])]
    generalize front.foldl (lexStep delim) {} = s at h
    obtain ⟨tokens, current, inQuotes, inEscape⟩ := s
    obtain ⟨hcurrent, hquotes, hescape⟩ := h
    dsimp only at hcurrent hquotes hescape
    simp [hcurrent, hquotes, hescape]
  conv => lhs; unfold lexSplit
  rw [List.foldl_append, hstate, lex_shift]
  rfl

/-- A run of plain bytes goes to the token being read, in quotes or not. -/
theorem lex_plain {delim : UInt8} {word : Bytes} (hne : word ≠ [])
    (hplain : ∀ c ∈ word, c ≠ delim ∧ c ≠ quote ∧ c ≠ backslash) (s : LexState) :
    word.foldl (lexStep delim) s =
      { s with current := s.current ++ word, inEscape := false } := by
  have hstep : ∀ c ∈ word, ∀ s : LexState,
      lexStep delim s c = { s with current := s.current ++ [c], inEscape := false } := by
    intro c hc s
    obtain ⟨hdelim, hquote, hback⟩ := hplain c hc
    unfold lexStep
    cases he : s.inEscape with
    | true => simp
    | false => simp [hdelim, hquote, hback, ← he]
  clear hplain
  induction word generalizing s with
  | nil => exact absurd rfl hne
  | cons c cs ih =>
      rw [List.foldl_cons, hstep c (by simp)]
      cases cs with
      | nil => rfl
      | cons d ds =>
          rw [ih (by simp) _ (fun e he => hstep e (by simp [he]))]
          simp

/-- A byte goes to the token being read, or it is a delimiter outside quotes and
ends that token. -/
theorem lexStep_cases (delim c : UInt8) (s : LexState) :
    ((lexStep delim s c).tokens = s.tokens ∧ (lexStep delim s c).current = s.current ++ [c]) ∨
      (c = delim ∧ s.inQuotes = false ∧ s.inEscape = false ∧ lexStep delim s c =
        if s.current ≠ [] then { s with tokens := s.tokens ++ [s.current], current := [] }
        else s) := by
  unfold lexStep
  split
  · exact Or.inl ⟨rfl, rfl⟩
  · rename_i hescape
    split
    · exact Or.inl ⟨rfl, rfl⟩
    · split
      · exact Or.inl ⟨rfl, rfl⟩
      · split
        · rename_i hdelim
          exact Or.inr ⟨hdelim.1, by simpa using hdelim.2, by simpa using hescape, rfl⟩
        · exact Or.inl ⟨rfl, rfl⟩

/-- From a token that has begun, and from a fresh state: which tokens come. -/
theorem lex_tail (delim : UInt8) (str : Bytes) (s : LexState) :
    (s.Fresh → ∃ later, (str.foldl (lexStep delim) s).finish = s.tokens ++ later ∧
      ∀ token ∈ later, token <:+: str) ∧
    (s.current ≠ [] → ∃ more later,
      (str.foldl (lexStep delim) s).finish = s.tokens ++ (s.current ++ more) :: later ∧
        more <+: str ∧ (more = [] → ∀ c ∈ str.head?, c = delim) ∧
        ∀ token ∈ later, token <:+: str) := by
  induction str generalizing s with
  | nil =>
      constructor
      · intro h
        exact ⟨[], by simp [LexState.finish, h.current], by simp⟩
      · intro h
        exact ⟨[], [], by simp [LexState.finish, h], by simp, by simp, by simp⟩
  | cons c cs ih =>
      rw [List.foldl_cons]
      rcases lexStep_cases delim c s with ⟨htokens, hcurrent⟩ | ⟨hdelim, hquotes, hescape, hstep⟩
      · obtain ⟨more, later, hfinish, hmore, -, hlater⟩ :=
          (ih (lexStep delim s c)).2 (by simp [hcurrent])
        rw [htokens, hcurrent, List.append_assoc] at hfinish
        have hgrown : c :: more <+: c :: cs := (List.prefix_cons_inj c).mpr hmore
        have hlater : ∀ token ∈ later, token <:+: c :: cs :=
          fun token ht => List.infix_cons (hlater token ht)
        constructor
        · intro h
          refine ⟨(s.current ++ c :: more) :: later, hfinish, fun token ht => ?_⟩
          rcases List.mem_cons.mp ht with rfl | ht
          · rw [h.current]
            exact hgrown.isInfix
          · exact hlater token ht
        · intro _
          exact ⟨c :: more, later, hfinish, hgrown,
            fun hnil => absurd hnil (List.cons_ne_nil c more), hlater⟩
      · rw [hstep]
        constructor
        · intro h
          rw [if_neg (by simp [h.current])]
          obtain ⟨later, hfinish, hlater⟩ := (ih s).1 h
          exact ⟨later, hfinish, fun token ht => List.infix_cons (hlater token ht)⟩
        · intro h
          rw [if_pos h]
          obtain ⟨later, hfinish, hlater⟩ :=
            (ih { s with tokens := s.tokens ++ [s.current], current := [] }).1
              ⟨rfl, hquotes, hescape⟩
          refine ⟨[], later, by simp [hfinish], List.nil_prefix, fun _ d hd => ?_,
            fun token ht => List.infix_cons (hlater token ht)⟩
          rw [List.head?_cons, Option.mem_some_iff] at hd
          exact hd ▸ hdelim

theorem infix_of_mem_lexSplit {delim : UInt8} {str token : Bytes}
    (h : token ∈ lexSplit str delim) : token <:+: str := by
  obtain ⟨later, hfinish, hlater⟩ := (lex_tail delim str {}).1 ⟨rfl, rfl, rfl⟩
  rw [lexSplit, hfinish] at h
  exact hlater token (by simpa using h)

theorem mem_lexSplit_of_tokens {delim : UInt8} {str token : Bytes}
    (h : token ∈ (str.foldl (lexStep delim) {}).tokens) : token ∈ lexSplit str delim := by
  unfold lexSplit LexState.finish
  split
  · exact List.mem_append_left _ h
  · exact h

/-- A plain word that a delimiter or the end closes is one token. -/
theorem lexSplit_word {delim : UInt8} {word rest : Bytes} (hne : word ≠ [])
    (hplain : ∀ c ∈ word, c ≠ delim ∧ c ≠ quote ∧ c ≠ backslash)
    (hrest : ∀ c ∈ rest.head?, c = delim) (hdelim : delim ≠ quote) (hback : delim ≠ backslash) :
    lexSplit (word ++ rest) delim = word :: lexSplit rest delim := by
  have hstart : word.foldl (lexStep delim) {} = { current := word } := by
    rw [lex_plain hne hplain]
    rfl
  cases rest with
  | nil =>
      rw [List.append_nil, lexSplit, hstart]
      simp [LexState.finish, hne, lexSplit]
  | cons c cs =>
      obtain rfl : c = delim := hrest c (by simp)
      have hfirst : lexStep c { current := word } c =
          { ({} : LexState) with tokens := [word] ++ ({} : LexState).tokens } := by
        simp [lexStep, hdelim, hback, hne]
      have hskip : lexStep c {} c = {} := by simp [lexStep, hdelim, hback]
      rw [lexSplit, List.foldl_append, hstart, List.foldl_cons, hfirst, lex_shift]
      rw [lexSplit, List.foldl_cons, hskip]
      rfl

/-! ## Unquoting -/

theorem unescape_plain {c : UInt8} (hc : c ≠ backslash) (rest : Bytes) :
    unescape (c :: rest) = c :: unescape rest := by
  cases rest with
  | nil => rfl
  | cons next rest =>
      rw [unescape, if_neg hc]

theorem unquoteAndUnescape_ends (front : UInt8) (body : Bytes) (back : UInt8) :
    unquoteAndUnescape (front :: (body ++ [back])) =
      if front ≠ quote then front :: (body ++ [back])
      else if back ≠ quote then front :: (body ++ [back]) else unescape body := by
  have hlast : (front :: (body ++ [back])).getLast? = some back := by
    rw [← List.cons_append, List.getLast?_concat]
  have hbody : ((front :: (body ++ [back])).drop 1).dropLast = body := by
    rw [List.drop_succ_cons, List.drop_zero, List.dropLast_concat]
  unfold unquoteAndUnescape
  rw [hlast, hbody, List.head?_cons]
  by_cases hfront : front = quote
  · by_cases hback : back = quote
    · simp only [hfront, hback, ne_eq, not_true_eq_false, or_false, if_false]
      apply if_neg
      simp
    · simp [hfront, hback]
  · simp [hfront]

/-! ## The closing bracket -/

/-- What stands in front of the bracket decides that it closes. -/
theorem closingBracket_cut {inQuotes inEscape : Bool} {text : Bytes} {len : Nat}
    (h : closingBracket inQuotes inEscape text = some len) :
    ∃ args rest, text = args ++ ']'.toUInt8 :: rest ∧ args.length = len ∧
      ∀ rest', closingBracket inQuotes inEscape (args ++ ']'.toUInt8 :: rest') = some len := by
  induction text generalizing inQuotes inEscape len with
  | nil => contradiction
  | cons c text ih =>
      have hstep : ∀ {inQuotes' inEscape' : Bool},
          (∀ tail, closingBracket inQuotes inEscape (c :: tail) =
            (closingBracket inQuotes' inEscape' tail).map (· + 1)) →
          ∃ args rest, c :: text = args ++ ']'.toUInt8 :: rest ∧ args.length = len ∧
            ∀ rest', closingBracket inQuotes inEscape (args ++ ']'.toUInt8 :: rest') = some len := by
        intro inQuotes' inEscape' hnext
        rw [hnext] at h
        obtain ⟨n, hn, rfl⟩ := Option.map_eq_some_iff.mp h
        obtain ⟨args, rest, rfl, rfl, hargs⟩ := ih hn
        refine ⟨c :: args, rest, rfl, rfl, ?_⟩
        intro rest'
        rw [List.cons_append, hnext, hargs, Option.map_some]
      by_cases hescape : inEscape = true
      · exact hstep fun tail => by rw [closingBracket, if_pos hescape]
      · by_cases hback : c = backslash ∧ inQuotes = true
        · exact hstep fun tail => by rw [closingBracket, if_neg hescape, if_pos hback]
        · by_cases hquote : c = quote
          · exact hstep fun tail => by
              rw [closingBracket, if_neg hescape, if_neg hback, if_pos hquote]
          · by_cases hclose : c = ']'.toUInt8 ∧ ¬inQuotes = true
            · rw [closingBracket, if_neg hescape, if_neg hback, if_neg hquote, if_pos hclose] at h
              obtain rfl := Option.some.inj h
              refine ⟨[], text, by rw [hclose.1]; rfl, rfl, ?_⟩
              intro rest'
              rw [List.nil_append, ← hclose.1, closingBracket, if_neg hescape, if_neg hback,
                if_neg hquote, if_pos hclose]
            · exact hstep fun tail => by
                rw [closingBracket, if_neg hescape, if_neg hback, if_neg hquote, if_neg hclose]

end LlmTop
