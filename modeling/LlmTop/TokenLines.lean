import LlmTop.LexerLaws
import Mathlib.Algebra.BigOperators.Group.List.Basic
import Mathlib.Algebra.GroupWithZero.Nat

/-!
# Lines of tokens

A token on its own stays whole, and a line of tokens lexes back to them as long
as none but the last leaves a quote open.
-/
namespace LlmTop

/-- A quote is open behind the text. -/
def leavesOpen (delim : UInt8) (text : Bytes) : Bool := (text.foldl (lexStep delim) {}).inQuotes

/-- A nonempty text that the lexer does not split. -/
def Solid (delim : UInt8) (token : Bytes) : Prop :=
  token ≠ [] ∧ (token.foldl (lexStep delim) {}).tokens = [] ∧
    (token.foldl (lexStep delim) {}).current = token

/-- The room that tokens and one delimiter for each take in a line. -/
def lineLength (tokens : List Bytes) : Nat := (tokens.map fun t => t.length + 1).sum

@[simp] theorem lineLength_nil : lineLength [] = 0 := rfl

@[simp] theorem lineLength_cons (t : Bytes) (tokens : List Bytes) :
    lineLength (t :: tokens) = t.length + 1 + lineLength tokens := by
  simp [lineLength]

@[simp] theorem lineLength_append (tokens tokens' : List Bytes) :
    lineLength (tokens ++ tokens') = lineLength tokens + lineLength tokens' := by
  simp [lineLength]

/-! ## Tokens of a text -/

/-- What the lexer knows about the text behind it. -/
structure LexState.Traces (delim : UInt8) (str : Bytes) (s : LexState) : Prop where
  current : s.current.foldl (lexStep delim) {} = { s with tokens := [] }
  suffix : s.current <:+ str
  solid : ∀ t ∈ s.tokens, Solid delim t ∧ leavesOpen delim t = false
  length : lineLength s.tokens + s.current.length ≤ str.length

section Step

variable {delim : UInt8} {str : Bytes} {s : LexState} (h : s.Traces delim str)
include h

/-- A byte that the token takes. -/
theorem LexState.Traces.grow {c : UInt8} (htokens : (lexStep delim s c).tokens = s.tokens)
    (hcurrent : (lexStep delim s c).current = s.current ++ [c]) :
    (lexStep delim s c).Traces delim (str ++ [c]) := by
  have hlength := h.length
  have hshift := lexStep_shift delim c { s with tokens := [] } s.tokens
  simp only [List.append_nil] at hshift
  have hnone : (lexStep delim { s with tokens := [] } c).tokens = [] := by
    have heq := congrArg LexState.tokens hshift
    rw [htokens] at heq
    exact List.self_eq_append_right.mp heq
  have hsame : lexStep delim { s with tokens := [] } c =
      { lexStep delim s c with tokens := [] } := by
    rw [show lexStep delim s c = _ from hshift]
    generalize lexStep delim { s with tokens := [] } c = s' at hnone
    obtain ⟨tokens, current, inQuotes, inEscape⟩ := s'
    obtain rfl : tokens = [] := hnone
    rfl
  refine ⟨?_, ?_, ?_, ?_⟩
  · rw [← hsame, hcurrent, List.foldl_append, h.current]
    rfl
  · rw [hcurrent]
    obtain ⟨front, rfl⟩ := h.suffix
    exact ⟨front, by rw [List.append_assoc]⟩
  · rw [htokens]
    exact h.solid
  · rw [htokens, hcurrent, List.length_append, List.length_append]
    omega

/-- A delimiter behind a token. -/
theorem LexState.Traces.cut (c : UInt8) (hquotes : s.inQuotes = false)
    (hescape : s.inEscape = false) (hne : s.current ≠ []) :
    LexState.Traces delim (str ++ [c])
      { s with tokens := s.tokens ++ [s.current], current := [] } := by
  have hlength := h.length
  refine ⟨?_, List.nil_suffix, ?_, ?_⟩
  · simp [hquotes, hescape]
  · intro t ht
    rcases List.mem_append.mp ht with ht | ht
    · exact h.solid t ht
    · obtain rfl := List.mem_singleton.mp ht
      refine ⟨⟨hne, ?_, ?_⟩, ?_⟩
      · rw [h.current]
      · rw [h.current]
      · rw [leavesOpen, h.current]
        exact hquotes
  · simp only [lineLength_append, lineLength_cons, lineLength_nil, List.length_append,
      List.length_nil, List.length_singleton]
    omega

theorem LexState.Traces.step (c : UInt8) : (lexStep delim s c).Traces delim (str ++ [c]) := by
  rcases lexStep_cases delim c s with ⟨htokens, hcurrent⟩ | ⟨hdelim, hquotes, hescape, hstep⟩
  · exact h.grow htokens hcurrent
  · rw [hstep]
    by_cases hnil : s.current = []
    · rw [if_neg (not_not.mpr hnil)]
      have hlength := h.length
      refine ⟨h.current, ?_, h.solid, ?_⟩
      · rw [hnil]
        exact List.nil_suffix
      · rw [List.length_append]
        omega
    · rw [if_pos hnil]
      exact h.cut c hquotes hescape hnil

end Step

theorem traces_run (delim : UInt8) (str : Bytes) :
    (str.foldl (lexStep delim) {}).Traces delim str := by
  induction str using List.reverseRecOn with
  | nil => exact ⟨rfl, List.suffix_rfl, nofun, Nat.le_refl 0⟩
  | append_singleton str c ih =>
      rw [List.foldl_append]
      exact ih.step c

theorem solid_of_mem_lexSplit {delim : UInt8} {str token : Bytes}
    (h : token ∈ lexSplit str delim) : Solid delim token := by
  have htraces := traces_run delim str
  unfold lexSplit LexState.finish at h
  split at h
  · rename_i hne
    rcases List.mem_append.mp h with h | h
    · exact (htraces.solid token h).1
    · obtain rfl := List.mem_singleton.mp h
      refine ⟨hne, ?_, ?_⟩
      · rw [htraces.current]
      · rw [htraces.current]
  · exact (htraces.solid token h).1

/-- Only the last token can leave a quote open. -/
theorem suffix_of_leavesOpen {delim : UInt8} {str token : Bytes} (h : token ∈ lexSplit str delim)
    (hopen : leavesOpen delim token = true) : token <:+ str := by
  have htraces := traces_run delim str
  have hclosed : token ∉ (str.foldl (lexStep delim) {}).tokens := by
    intro hmem
    rw [(htraces.solid token hmem).2] at hopen
    contradiction
  unfold lexSplit LexState.finish at h
  split at h
  · rcases List.mem_append.mp h with h | h
    · exact absurd h hclosed
    · obtain rfl := List.mem_singleton.mp h
      exact htraces.suffix
  · exact absurd h hclosed

theorem lineLength_lexSplit (delim : UInt8) (str : Bytes) :
    lineLength (lexSplit str delim) ≤ str.length + 1 := by
  have hlength := (traces_run delim str).length
  unfold lexSplit LexState.finish
  split
  · rw [lineLength_append, lineLength_cons, lineLength_nil]
    omega
  · omega

/-! ## Lines -/

/-- Tokens with one delimiter between two. -/
def spaced (delim : UInt8) : List Bytes → Bytes
  | [] => []
  | [t] => t
  | t :: u :: rest => t ++ delim :: spaced delim (u :: rest)

theorem length_spaced (delim : UInt8) (t : Bytes) (rest : List Bytes) :
    (spaced delim (t :: rest)).length + 1 = lineLength (t :: rest) := by
  induction rest generalizing t with
  | nil => simp [spaced]
  | cons u rest ih =>
      rw [spaced, List.length_append, List.length_cons, lineLength_cons, ← ih u]
      omega

/-- The last of several tokens stands behind a delimiter. -/
theorem spaced_concat (delim : UInt8) {tokens : List Bytes} (hne : tokens ≠ []) (last : Bytes) :
    delim :: last <:+ spaced delim (tokens ++ [last]) := by
  induction tokens with
  | nil => exact absurd rfl hne
  | cons t rest ih =>
      cases rest with
      | nil => exact ⟨t, rfl⟩
      | cons u rest =>
          obtain ⟨front, hfront⟩ := ih (List.cons_ne_nil u rest)
          refine ⟨t ++ delim :: front, ?_⟩
          rw [List.cons_append, List.cons_append, spaced, ← List.cons_append, ← hfront,
            List.append_assoc, List.cons_append]

/-- The first token that leaves a quote open, if it is not the last one. -/
theorem exists_first_open {delim : UInt8} {tokens : List Bytes}
    (h : ∃ t ∈ tokens.dropLast, leavesOpen delim t = true) :
    ∃ before t u after, tokens = before ++ t :: u :: after ∧
      (∀ t ∈ before, leavesOpen delim t = false) ∧ leavesOpen delim t = true := by
  induction tokens with
  | nil =>
      obtain ⟨t, ht, -⟩ := h
      contradiction
  | cons t rest ih =>
      cases rest with
      | nil =>
          obtain ⟨t, ht, -⟩ := h
          contradiction
      | cons u rest =>
          by_cases hopen : leavesOpen delim t = true
          · exact ⟨[], t, u, rest, rfl, nofun, hopen⟩
          · have hrest : ∃ t ∈ (u :: rest).dropLast, leavesOpen delim t = true := by
              obtain ⟨w, hw, hopenw⟩ := h
              rw [List.dropLast_cons_cons, List.mem_cons] at hw
              rcases hw with rfl | hw
              · exact absurd hopenw hopen
              · exact ⟨w, hw, hopenw⟩
            obtain ⟨before, t', u', after, heq, hclosed, hopen'⟩ := ih hrest
            refine ⟨t :: before, t', u', after, by rw [heq, List.cons_append], ?_, hopen'⟩
            intro w hw
            rcases List.mem_cons.mp hw with rfl | hw
            · exact Bool.eq_false_iff.mpr hopen
            · exact hclosed w hw

theorem lexStep_inQuotes {delim c : UInt8} (h : c ≠ quote) (s : LexState) :
    (lexStep delim s c).inQuotes = s.inQuotes := by
  unfold lexStep
  split_ifs <;> rfl

/-- Only a quote opens one. -/
theorem quote_of_leavesOpen {delim : UInt8} {text : Bytes} (h : leavesOpen delim text = true) :
    quote ∈ text := by
  have hrun : ∀ (text : Bytes) (s : LexState), quote ∉ text →
      (text.foldl (lexStep delim) s).inQuotes = s.inQuotes := by
    intro text
    induction text with
    | nil => exact fun _ _ => rfl
    | cons c cs ih =>
        intro s hnone
        rw [List.mem_cons, not_or] at hnone
        rw [List.foldl_cons, ih _ hnone.2, lexStep_inQuotes (Ne.symm hnone.1)]
  by_contra hnone
  rw [leavesOpen, hrun text {} hnone] at h
  contradiction

theorem Solid.run {delim : UInt8} {token : Bytes} (h : Solid delim token) :
    ∃ inEscape, token.foldl (lexStep delim) {} =
      { current := token, inQuotes := leavesOpen delim token, inEscape := inEscape } := by
  obtain ⟨-, htokens, hcurrent⟩ := h
  unfold leavesOpen
  generalize token.foldl (lexStep delim) {} = s at htokens hcurrent ⊢
  obtain ⟨tokens, current, inQuotes, inEscape⟩ := s
  obtain rfl : tokens = [] := htokens
  obtain rfl : current = token := hcurrent
  exact ⟨inEscape, rfl⟩

theorem lexSplit_solid {delim : UInt8} {token : Bytes} (h : Solid delim token) :
    lexSplit token delim = [token] := by
  obtain ⟨hne, htokens, hcurrent⟩ := h
  unfold lexSplit LexState.finish
  rw [htokens, hcurrent, if_pos hne]
  rfl

/-- Inside quotes a word without quotes and escapes is text, delimiters and all. -/
theorem lex_quoted {delim : UInt8} {word : Bytes} (hne : word ≠ [])
    (hplain : ∀ c ∈ word, c ≠ quote ∧ c ≠ backslash) {s : LexState} (hs : s.inQuotes = true) :
    word.foldl (lexStep delim) s = { s with current := s.current ++ word, inEscape := false } := by
  have hstep : ∀ c ∈ word, ∀ s : LexState, s.inQuotes = true →
      lexStep delim s c = { s with current := s.current ++ [c], inEscape := false } := by
    intro c hc s hs
    obtain ⟨hquote, hback⟩ := hplain c hc
    unfold lexStep
    cases he : s.inEscape with
    | true => simp
    | false => simp [hs, hquote, hback, ← he]
  clear hplain
  induction word generalizing s with
  | nil => exact absurd rfl hne
  | cons c cs ih =>
      rw [List.foldl_cons, hstep c List.mem_cons_self s hs]
      cases cs with
      | nil => rfl
      | cons d ds =>
          have hnext : ({ s with current := s.current ++ [c], inEscape := false } : LexState).inQuotes =
              true := hs
          rw [ih (List.cons_ne_nil d ds) hnext (fun e he => hstep e (List.mem_cons_of_mem c he))]
          simp

section Delim

variable {delim : UInt8} (hquote : delim ≠ quote) (hback : delim ≠ backslash)

include hquote hback

/-- A closed token and a delimiter leave the lexer where it began. -/
theorem lex_closed {token : Bytes} (h : Solid delim token)
    (hclosed : leavesOpen delim token = false) (back : Bytes) :
    lexSplit (token ++ delim :: back) delim = token :: lexSplit back delim := by
  obtain ⟨inEscape, hrun⟩ := h.run
  have hproper := proper_start.run delim token
  rw [hrun, hclosed] at hproper
  obtain rfl : inEscape = false := by
    cases inEscape with
    | false => rfl
    | true => exact absurd (hproper.escape rfl) Bool.false_ne_true
  have hfront : (token ++ [delim]).foldl (lexStep delim) {} = { tokens := [token] } := by
    rw [List.foldl_append, hrun, hclosed]
    simp [lexStep, hquote, hback, h.1]
  have hsplit : lexSplit (token ++ [delim]) delim = [token] := by
    rw [lexSplit, hfront]
    rfl
  have hfresh : ((token ++ [delim]).foldl (lexStep delim) {}).Fresh := by
    rw [hfront]
    exact ⟨rfl, rfl, rfl⟩
  have happend := lexSplit_append back hfresh
  rwa [hsplit, List.append_assoc] at happend

/-- A line of tokens lexes back to its tokens. -/
theorem lexSplit_spaced {tokens : List Bytes} (hsolid : ∀ t ∈ tokens, Solid delim t)
    (hclosed : ∀ t ∈ tokens.dropLast, leavesOpen delim t = false) :
    lexSplit (spaced delim tokens) delim = tokens := by
  induction tokens with
  | nil => rfl
  | cons t rest ih =>
      cases rest with
      | nil => exact lexSplit_solid (hsolid t List.mem_cons_self)
      | cons u rest =>
          rw [spaced, lex_closed hquote hback (hsolid t List.mem_cons_self)
            (hclosed t List.mem_cons_self)]
          rw [ih (fun t ht => hsolid t (List.mem_cons_of_mem _ ht))
            (fun t ht => hclosed t (List.mem_cons_of_mem _ ht))]

/-- An open token swallows the delimiter behind it and the head of the next token. -/
theorem lexSplit_spaced_open {before after : List Bytes} {t u word : Bytes}
    (hsolid : ∀ t ∈ before, Solid delim t) (hclosed : ∀ t ∈ before, leavesOpen delim t = false)
    (ht : Solid delim t) (hopen : leavesOpen delim t = true) (hword : word <+: u)
    (hplain : ∀ c ∈ word, c ≠ quote ∧ c ≠ backslash) :
    ∃ more later, lexSplit (spaced delim (before ++ t :: u :: after)) delim =
      before ++ (t ++ more) :: later ∧ word.length < more.length := by
  induction before with
  | nil =>
      obtain ⟨inEscape, hrun⟩ := ht.run
      rw [hopen] at hrun
      obtain ⟨rest, hrest⟩ : ∃ rest, spaced delim (u :: after) = word ++ rest := by
        obtain ⟨back, rfl⟩ := hword
        cases after with
        | nil => exact ⟨back, rfl⟩
        | cons w after => exact ⟨_, by rw [spaced, List.append_assoc]⟩
      have hswallowed : ∀ c ∈ delim :: word, c ≠ quote ∧ c ≠ backslash := by
        intro c hc
        rcases List.mem_cons.mp hc with rfl | hc
        · exact ⟨hquote, hback⟩
        · exact hplain c hc
      have hquoted := @lex_quoted delim _ (List.cons_ne_nil _ _) hswallowed
        { current := t, inQuotes := true, inEscape := inEscape } rfl
      obtain ⟨more, later, hfinish, -⟩ := (lex_tail delim rest
        { current := t ++ delim :: word, inQuotes := true }).2 (by simp)
      refine ⟨delim :: word ++ more, later, ?_, by rw [List.length_append, List.length_cons]; omega⟩
      rw [List.nil_append, spaced, hrest, lexSplit, ← List.cons_append, List.foldl_append, hrun,
        List.foldl_append, hquoted, hfinish]
      simp
  | cons b before ih =>
      obtain ⟨more, later, hlex, hmore⟩ := ih (fun t ht => hsolid t (List.mem_cons_of_mem _ ht))
        (fun t ht => hclosed t (List.mem_cons_of_mem _ ht))
      refine ⟨more, later, ?_, hmore⟩
      have hspaced : spaced delim (b :: (before ++ t :: u :: after)) =
          b ++ delim :: spaced delim (before ++ t :: u :: after) := by
        cases before <;> rfl
      rw [List.cons_append, hspaced, lex_closed hquote hback (hsolid b List.mem_cons_self)
        (hclosed b List.mem_cons_self), hlex]
      rfl

end Delim

end LlmTop
