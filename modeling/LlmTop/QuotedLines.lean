import LlmTop.LinePlacement
import LlmTop.QuotedValues

/-!
# Quoted values through the parser

A writer puts any bytes between quotes, as a tool argument or behind a role.  The
strict parser reads back the keys and the values, in order.
-/
namespace LlmTop
open Lib Lib.Faults

/-! ## What a writer writes -/

structure Ident where
  text : Bytes
  bare : isBareIdentifier text = true

/-- Values under distinct bare identifiers. -/
structure IdentPairs where
  pairs : List (Bytes × Bytes)
  bare : ∀ pair ∈ pairs, isBareIdentifier pair.1 = true
  distinct : (keysOf pairs).Nodup

def pairToken (sep : UInt8) (pair : Bytes × Bytes) : Bytes := pair.1 ++ [sep] ++ quoted pair.2

def argToken : Bytes × Bytes → Bytes := pairToken '='.toUInt8
def kvToken : Bytes × Bytes → Bytes := pairToken ':'.toUInt8

def argsText (args : IdentPairs) : Bytes := spaced ';'.toUInt8 (args.pairs.map argToken)

/-- `!name[k1="v1";k2="v2"]>method`. -/
def callLine (name : Ident) (args : IdentPairs) (method : Option Ident) : Bytes :=
  bracketedLine name.text (argsText args) [] (method.map Ident.text)

/-- `[R] k1:"v1" k2:"v2"`. -/
def roleLine (role : Ident) (kvpairs : IdentPairs) : Bytes :=
  spaced ' '.toUInt8 (('['.toUInt8 :: (role.text ++ [']'.toUInt8])) :: kvpairs.pairs.map kvToken)

def IdentPairs.none : IdentPairs := ⟨[], by simp, List.nodup_nil⟩

/-! ## Tokens -/

theorem notMem_ident {s : Bytes} (h : isBareIdentifier s = true) {c : UInt8}
    (hc : (isAlnum c || c == '_'.toUInt8) = false) : c ∉ s := by
  intro hmem
  rw [ident_of_bare h hmem] at hc
  contradiction

theorem unquoted_ident {s : Bytes} (h : isBareIdentifier s = true) : Unquoted s := by
  intro c hc
  refine ⟨?_, ?_⟩
  · rintro rfl
    exact notMem_ident h (by decide) hc
  · rintro rfl
    exact notMem_ident h (by decide) hc

theorem ident_ne_nil {s : Bytes} (h : isBareIdentifier s = true) : s ≠ [] := by
  rintro rfl
  contradiction

section Token

variable {sep delim : UInt8} {pair : Bytes × Bytes} (hbare : isBareIdentifier pair.1 = true)

include hbare

theorem splitArg_argToken : splitArg (argToken pair) = some (pair.1, quoted pair.2) := by
  apply splitArg_eq_some.mpr
  refine ⟨?_, notMem_ident hbare (by decide)⟩
  rw [argToken, pairToken, List.append_assoc]
  rfl

theorem splitToken_kvToken : splitToken (kvToken pair) = some (pair.1, quoted pair.2) := by
  have hcolon : ':'.toUInt8 ∉ pair.1 := notMem_ident hbare (by decide)
  have htoken : kvToken pair = pair.1 ++ ':'.toUInt8 :: quoted pair.2 := by
    rw [kvToken, pairToken, List.append_assoc]
    rfl
  -- The first `=` is in the value, if anywhere: the text in front of it has the colon.
  have hbinds : ¬BindsIdentifier (kvToken pair) := by
    rintro ⟨-, hident⟩
    have hword : ∀ c ∈ pair.1 ++ [':'.toUInt8], (c != '='.toUInt8) = true := by
      intro c hc
      apply bne_iff_ne.mpr
      rintro rfl
      rcases List.mem_append.mp hc with hc | hc
      · exact notMem_ident hbare (by decide) hc
      · exact absurd (List.mem_singleton.mp hc) (by decide)
    rw [kvToken, pairToken, List.takeWhile_append_of_pos hword] at hident
    apply notMem_ident hident (c := ':'.toUInt8) (by decide)
    simp
  have hfind : Search.find ':'.toUInt8 (kvToken pair) = some pair.1.length := by
    rw [htoken, Search.find_append _ hcolon]
  have hdrop : (pair.1 ++ ':'.toUInt8 :: quoted pair.2).drop (pair.1.length + 1) = quoted pair.2 := by
    rw [← List.drop_drop, List.drop_left]
    rfl
  rw [splitToken, filter_equals, if_neg hbinds, hfind]
  simp only [minPos, Option.map_some]
  rw [htoken, List.take_left, hdrop]

theorem solid_pairToken (hsep : sep ≠ delim ∧ sep ≠ quote ∧ sep ≠ backslash)
    (hdelim : (isAlnum delim || delim == '_'.toUInt8) = false) :
    Solid delim (pairToken sep pair) ∧ leavesOpen delim (pairToken sep pair) = false := by
  apply solid_binding (List.append_ne_nil_of_left_ne_nil (ident_ne_nil hbare) _)
  intro c hc
  rcases List.mem_append.mp hc with hc | hc
  · refine ⟨?_, unquoted_ident hbare c hc⟩
    rintro rfl
    exact notMem_ident hbare hdelim hc
  · rw [List.mem_singleton.mp hc]
    exact hsep

theorem level_pairToken (hsep : sep ≠ quote ∧ sep ≠ backslash) : Level (pairToken sep pair) := by
  have hkey := level_unquoted (unquoted_ident hbare)
  have hmark : Level [sep] := level_unquoted (List.forall_mem_singleton.mpr hsep)
  exact (hkey.append hmark).append (level_quoted pair.2)

theorem passed_argToken : Passed (argToken pair) := by
  have hkey := passed_unquoted (unquoted_ident hbare) (notMem_ident hbare (by decide))
  have hmark : Passed ['='.toUInt8] := passed_unquoted (by unfold Unquoted; decide +kernel) (by decide +kernel)
  exact (hkey.append hmark).append (passed_quoted pair.2)

theorem newline_notMem_pairToken (hsep : sep ≠ '\n'.toUInt8) : '\n'.toUInt8 ∉ pairToken sep pair := by
  unfold pairToken
  rw [List.mem_append, List.mem_append, List.mem_singleton, not_or, not_or]
  exact ⟨⟨notMem_ident hbare (by decide), hsep.symm⟩, newline_notMem_quoted pair.2⟩

theorem kept_pairToken : Kept isBlank (pairToken sep pair) := by
  have hkey : Kept isBlank pair.1 := by
    apply kept_of_all (ident_ne_nil hbare)
    intro c hc
    have hident := ident_of_bare hbare hc
    have hall := of_all_bytes
      (p := fun c => !(isAlnum c || c == '_'.toUInt8) || !isBlank c) (by decide +kernel) c
    simpa [hident] using hall
  have hclose : Kept isBlank [quote] := kept_of_all (List.cons_ne_nil _ _) (by decide +kernel)
  have htoken : pairToken sep pair = pair.1 ++ ((sep :: quote :: esc pair.2) ++ [quote]) := by
    rw [pairToken, List.append_assoc]
    rfl
  rw [htoken]
  exact hkey.append hclose _

end Token

/-! ## Lines of tokens -/

/-- What holds of the words and the delimiter, and of two texts joined, holds of
the line. -/
theorem spaced_closed {P : Bytes → Prop} {delim : UInt8} (hnil : P []) (hdelim : P [delim])
    (happend : ∀ front back, P front → P back → P (front ++ back)) {words : List Bytes}
    (h : ∀ word ∈ words, P word) : P (spaced delim words) := by
  induction words with
  | nil => exact hnil
  | cons word rest ih =>
      obtain ⟨hword, hrest⟩ := List.forall_mem_cons.mp h
      cases rest with
      | nil => exact hword
      | cons next rest => exact happend _ _ hword (happend [delim] _ hdelim (ih hrest))

namespace IdentPairs

variable (p : IdentPairs) {sep delim : UInt8}

theorem forall_tokens {P : Bytes → Prop}
    (h : ∀ pair : Bytes × Bytes, isBareIdentifier pair.1 = true → P (pairToken sep pair)) :
    ∀ token ∈ p.pairs.map (pairToken sep), P token := by
  intro token htoken
  obtain ⟨pair, hpair, rfl⟩ := List.mem_map.mp htoken
  exact h pair (p.bare pair hpair)

theorem lexSplit_tokens (hsep : sep ≠ delim ∧ sep ≠ quote ∧ sep ≠ backslash)
    (hdelim : (isAlnum delim || delim == '_'.toUInt8) = false) (hquote : delim ≠ quote)
    (hback : delim ≠ backslash) :
    lexSplit (spaced delim (p.pairs.map (pairToken sep))) delim = p.pairs.map (pairToken sep) := by
  have hsolid : ∀ token ∈ p.pairs.map (pairToken sep),
      Solid delim token ∧ leavesOpen delim token = false :=
    p.forall_tokens fun _ hbare => solid_pairToken hbare hsep hdelim
  apply lexSplit_spaced hquote hback
  · exact fun token htoken => (hsolid token htoken).1
  · exact fun token htoken => (hsolid token (List.mem_of_mem_dropLast htoken)).2

/-- The splitter and the unescaper read the pairs back off their tokens. -/
theorem pairsOf_tokens {split : Bytes → Option (Bytes × Bytes)}
    (hsplit : ∀ pair : Bytes × Bytes, isBareIdentifier pair.1 = true →
      split (pairToken sep pair) = some (pair.1, quoted pair.2)) :
    pairsOf split (p.pairs.map (pairToken sep)) = p.pairs := by
  have hread : ∀ pair ∈ p.pairs, ((split (pairToken sep pair)).map fun read =>
      (read.1, unquoteAndUnescape read.2)) = some pair := by
    intro pair hpair
    rw [hsplit pair (p.bare pair hpair), Option.map_some, unquote_quoted]
  unfold pairsOf
  rw [List.filterMap_map]
  refine (List.filterMap_congr hread).trans ?_
  exact List.filterMap_some

theorem any_isNone_tokens {split : Bytes → Option (Bytes × Bytes)}
    (hsplit : ∀ pair : Bytes × Bytes, isBareIdentifier pair.1 = true →
      split (pairToken sep pair) = some (pair.1, quoted pair.2)) :
    (p.pairs.map (pairToken sep)).any (fun token => (split token).isNone) = false := by
  have hread : ∀ token ∈ p.pairs.map (pairToken sep), ¬(split token).isNone = true :=
    p.forall_tokens fun pair hbare => by
      rw [hsplit pair hbare]
      exact Bool.false_ne_true
  exact List.any_eq_false.mpr hread

theorem tokenKeys_tokens {split : Bytes → Option (Bytes × Bytes)}
    (hsplit : ∀ pair : Bytes × Bytes, isBareIdentifier pair.1 = true →
      split (pairToken sep pair) = some (pair.1, quoted pair.2)) :
    tokenKeys split (p.pairs.map (pairToken sep)) = keysOf p.pairs := by
  have hread : ∀ pair ∈ p.pairs, (split (pairToken sep pair)).map Prod.fst = some pair.1 := by
    intro pair hpair
    rw [hsplit pair (p.bare pair hpair)]
    rfl
  unfold tokenKeys keysOf
  rw [List.filterMap_map]
  refine (List.filterMap_congr hread).trans ?_
  exact congrFun List.filterMap_eq_map p.pairs

end IdentPairs

/-! ## Tool lines -/

theorem Ident.trim_text (ident : Ident) : trim ident.text = ident.text := by
  have hkept : Kept isTrimmed ident.text := by
    apply kept_of_all (ident_ne_nil ident.bare)
    intro c hc
    have hident := ident_of_bare ident.bare hc
    have hall := of_all_bytes
      (p := fun c => !(isAlnum c || c == '_'.toUInt8) || !isTrimmed c) (by decide +kernel) c
    simpa [hident] using hall
  exact hkept.trimBoth

/-- Bytes that stand around the values of a tool line. -/
def isPunctuation (c : UInt8) : Bool :=
  isAlnum c || c == '_'.toUInt8 || c == '!'.toUInt8 || c == '['.toUInt8 || c == ']'.toUInt8 ||
    c == '>'.toUInt8

theorem punctuation_plain {c : UInt8} (h : isPunctuation c = true) :
    (c ≠ quote ∧ c ≠ backslash) ∧ c ≠ '\n'.toUInt8 ∧ isBlank c = false := by
  have hall := of_all_bytes (p := fun c => !isPunctuation c ||
    (c != quote && c != backslash && c != '\n'.toUInt8 && !isBlank c)) (by decide +kernel) c
  simp only [h, Bool.not_true, Bool.false_or, Bool.and_eq_true, bne_iff_ne, Bool.not_eq_true'] at hall
  exact ⟨⟨hall.1.1.1, hall.1.1.2⟩, hall.1.2, hall.2⟩

theorem Ident.punctuation (ident : Ident) : ∀ c ∈ ident.text, isPunctuation c = true := by
  intro c hc
  have hident := ident_of_bare ident.bare hc
  simp only [isPunctuation, hident, Bool.true_or]

section Punctuation

variable {word : Bytes} (h : ∀ c ∈ word, isPunctuation c = true)

include h

theorem level_punctuation : Level word := level_unquoted fun c hc => (punctuation_plain (h c hc)).1

theorem kept_punctuation (hne : word ≠ []) : Kept isBlank word :=
  kept_of_all hne fun c hc => (punctuation_plain (h c hc)).2.2

theorem newline_notMem_punctuation : '\n'.toUInt8 ∉ word :=
  fun hc => (punctuation_plain (h _ hc)).2.1 rfl

end Punctuation

section CallLine

variable (name : Ident) (args : IdentPairs) (method : Option Ident)

/-- What stands in front of the arguments, and what behind them. -/
theorem callLine_parts : callLine name args method = ('!'.toUInt8 :: (name.text ++ ['['.toUInt8])) ++
    (argsText args ++ ']'.toUInt8 :: methodText (method.map Ident.text)) := by
  simp [callLine, bracketedLine]

theorem callLine_front : ∀ c ∈ '!'.toUInt8 :: (name.text ++ ['['.toUInt8]), isPunctuation c = true := by
  rw [List.forall_mem_cons, List.forall_mem_append, List.forall_mem_singleton]
  exact ⟨by decide, name.punctuation, by decide⟩

theorem callLine_back :
    ∀ c ∈ ']'.toUInt8 :: methodText (method.map Ident.text), isPunctuation c = true := by
  rw [List.forall_mem_cons]
  refine ⟨by decide, ?_⟩
  cases method with
  | none => exact fun c hc => absurd hc List.not_mem_nil
  | some method => exact List.forall_mem_cons.mpr ⟨by decide, method.punctuation⟩

theorem level_callLine : Level (callLine name args method) := by
  have hfront := level_punctuation (callLine_front name)
  have hback := level_punctuation (callLine_back method)
  have hargs : Level (argsText args) := by
    have hnil : Level [] := rfl
    have hdelim : Level [';'.toUInt8] := rfl
    apply spaced_closed hnil hdelim fun _ _ => Level.append
    exact args.forall_tokens fun _ hbare => level_pairToken hbare (by decide)
  rw [callLine_parts]
  exact hfront.append (hargs.append hback)

theorem passed_argsText : Passed (argsText args) := by
  have hnil : Passed [] := passed_unquoted (fun _ hc => absurd hc List.not_mem_nil) List.not_mem_nil
  have hdelim : Passed [';'.toUInt8] := passed_unquoted (by unfold Unquoted; decide +kernel) (by decide +kernel)
  apply spaced_closed hnil hdelim fun _ _ => Passed.append
  exact args.forall_tokens fun _ hbare => passed_argToken hbare

theorem bodyLine_callLine : BodyLine (callLine name args method) := by
  have hfront := callLine_front name
  have hback := callLine_back method
  have hargs : '\n'.toUInt8 ∉ argsText args := by
    apply notMem_spaced (by decide)
    exact args.forall_tokens fun _ hbare => newline_notMem_pairToken hbare (by decide)
  refine ⟨?_, ?_, ?_⟩
  · rw [callLine_parts]
    exact (kept_punctuation hfront (List.cons_ne_nil _ _)).append
      (kept_punctuation hback (List.cons_ne_nil _ _)) _
  · rw [callLine_parts, List.mem_append, List.mem_append, not_or, not_or]
    exact ⟨newline_notMem_punctuation hfront, hargs, newline_notMem_punctuation hback⟩
  · simp [callLine, bracketedLine, isHeaderContinuation]

theorem isToolLine_callLine : isToolLine (callLine name args method) = true := rfl

theorem lineArgs_callLine : lineArgs (callLine name args method) = some (args.pairs.map argToken) := by
  have hclosed : closeQuote (callLine name args method) = callLine name args method :=
    closeQuote_closed (quoteOpen_of_level (level_callLine name args method))
  have hname : '['.toUInt8 ∉ name.text := notMem_ident name.bare (by decide)
  rw [lineArgs, isToolLine_callLine, if_pos rfl, hclosed, callLine,
    toolArgs_bracketed hname (passed_argsText args).closes]
  apply congrArg some
  exact args.lexSplit_tokens (by decide) (by decide) (by decide) (by decide)

theorem sound_callLine : SoundLine (callLine name args method) := by
  have hquotes := quoteOpen_of_level (level_callLine name args method)
  have htool := isToolLine_callLine name args method
  refine ⟨bodyLine_callLine name args method, hquotes, ?_, ?_⟩
  · rw [lineDrops, lineTokens_of_tool htool, lineArgs_callLine]
    exact args.any_isNone_tokens fun _ hbare => splitArg_argToken hbare
  · have hkeys : tokenKeys splitArg (args.pairs.map argToken) = keysOf args.pairs :=
      args.tokenKeys_tokens fun _ hbare => splitArg_argToken hbare
    rw [lineRepaired, hquotes, isRoleLine_of_tool htool, lineArgs_callLine, Option.any_some, hkeys,
      decide_eq_true args.distinct]
    rfl

/-- The tool call of the line, with its arguments in order. -/
theorem toolOf_callLine :
    ∃ map : OrderedMap, map.data = args.pairs ∧
      toolOf (callLine name args method) = ⟨name.text, map, method.map Ident.text⟩ := by
  have hname : '['.toUInt8 ∉ name.text := notMem_ident name.bare (by decide)
  have htokens : lexSplit (argsText args) ';'.toUInt8 = args.pairs.map argToken :=
    args.lexSplit_tokens (by decide) (by decide) (by decide) (by decide)
  have hpairs : pairsOf splitArg (args.pairs.map argToken) = args.pairs :=
    args.pairsOf_tokens fun _ hbare => splitArg_argToken hbare
  have hmethod : (method.map Ident.text).map trim = method.map Ident.text := by
    rw [Option.map_map]
    congr 1
    funext m
    exact m.trim_text
  refine ⟨OrderedMap.ofPairs args.pairs, OrderedMap.data_ofPairs args.distinct, ?_⟩
  have hcall := @toolOf_bracketed name.text (argsText args) [] (method.map Ident.text) hname
    (passed_argsText args).closes List.not_mem_nil
  rw [htokens, argNext, foldl_pairNext, hpairs, name.trim_text, hmethod] at hcall
  exact hcall

end CallLine

/-! ## Role lines -/

section RoleLine

variable (role : Ident) (kvpairs : IdentPairs)

def roleHead : Bytes := '['.toUInt8 :: (role.text ++ [']'.toUInt8])

theorem roleHead_punctuation : ∀ c ∈ roleHead role, isPunctuation c = true := by
  unfold roleHead
  rw [List.forall_mem_cons, List.forall_mem_append, List.forall_mem_singleton]
  exact ⟨by decide, role.punctuation, by decide⟩

/-- The bracket that closes the role, and the pairs behind it. -/
theorem roleLine_parts : roleLine role kvpairs = ('['.toUInt8 :: role.text) ++
    ']'.toUInt8 :: (kvpairs.pairs.map kvToken).flatMap ([' '.toUInt8] ++ ·) := by
  rw [roleLine, spaced_cons]
  simp

theorem level_roleLine : Level (roleLine role kvpairs) := by
  have hhead : Level (roleHead role) := level_punctuation (roleHead_punctuation role)
  have htokens : ∀ token ∈ kvpairs.pairs.map kvToken, Level token :=
    kvpairs.forall_tokens fun _ hbare => level_pairToken hbare (by decide)
  have hnil : Level [] := rfl
  have hdelim : Level [' '.toUInt8] := rfl
  apply spaced_closed hnil hdelim fun _ _ => Level.append
  exact List.forall_mem_cons.mpr ⟨hhead, htokens⟩

theorem bodyLine_roleLine : BodyLine (roleLine role kvpairs) := by
  have hpunctuation := roleHead_punctuation role
  refine ⟨?_, ?_, ?_⟩
  · have hhead := kept_punctuation hpunctuation (List.cons_ne_nil _ _)
    have htokens : ∀ token ∈ kvpairs.pairs.map kvToken, Kept isBlank token :=
      kvpairs.forall_tokens fun _ hbare => kept_pairToken hbare
    apply kept_spaced _ (List.cons_ne_nil _ _)
    exact List.forall_mem_cons.mpr ⟨hhead, htokens⟩
  · have htokens : ∀ token ∈ kvpairs.pairs.map kvToken, '\n'.toUInt8 ∉ token :=
      kvpairs.forall_tokens fun _ hbare => newline_notMem_pairToken hbare (by decide)
    apply notMem_spaced (by decide)
    exact List.forall_mem_cons.mpr ⟨newline_notMem_punctuation hpunctuation, htokens⟩
  · simp [roleLine_parts, isHeaderContinuation]

theorem isRoleLine_roleLine : isRoleLine (roleLine role kvpairs) = true := by
  rw [roleLine_parts]
  rfl

theorem find_roleLine :
    Search.find ']'.toUInt8 (roleLine role kvpairs) = some (role.text.length + 1) := by
  have hclose : ']'.toUInt8 ∉ '['.toUInt8 :: role.text := by
    rw [List.mem_cons, not_or]
    exact ⟨by decide, notMem_ident role.bare (by decide)⟩
  rw [roleLine_parts]
  exact Search.find_append _ hclose

/-- The parser closes neither a quote nor the role. -/
theorem closed_roleLine : closeQuote (roleLine role kvpairs) = roleLine role kvpairs ∧
    roleOpen (roleLine role kvpairs) = false ∧
    closedRole (roleLine role kvpairs) = roleLine role kvpairs := by
  have hopen : roleOpen (roleLine role kvpairs) = false := by
    rw [roleOpen, find_roleLine]
    rfl
  refine ⟨closeQuote_closed (quoteOpen_of_level (level_roleLine role kvpairs)), hopen, ?_⟩
  rw [closedRole, hopen]
  rfl

theorem roleOf_roleLine : roleOf (roleLine role kvpairs) = role.text := by
  obtain ⟨hquote, -, hrole⟩ := closed_roleLine role kvpairs
  rw [roleOf, hquote, hrole, roleLine_parts, List.cons_append, List.drop_succ_cons, List.drop_zero]
  exact Search.takeWhile_append_cons _ (notMem_ident role.bare (by decide))

theorem lineTokens_roleLine : lineTokens (roleLine role kvpairs) = kvpairs.pairs.map kvToken := by
  obtain ⟨hquote, -, hrole⟩ := closed_roleLine role kvpairs
  have hstop : roleStop (roleLine role kvpairs) = role.text.length + 1 := by
    rw [roleStop, hrole, find_roleLine]
    rfl
  have hdrop : (roleLine role kvpairs).drop (role.text.length + 1 + 1) =
      (kvpairs.pairs.map kvToken).flatMap ([' '.toUInt8] ++ ·) := by
    rw [roleLine_parts, ← List.drop_drop]
    have hlength : role.text.length + 1 = ('['.toUInt8 :: role.text).length := rfl
    rw [hlength, List.drop_left]
    rfl
  have htokens : lexSplit (spaced ' '.toUInt8 (kvpairs.pairs.map kvToken)) ' '.toUInt8 =
      kvpairs.pairs.map kvToken :=
    kvpairs.lexSplit_tokens (by decide) (by decide) (by decide) (by decide)
  unfold lineTokens
  dsimp only
  rw [hquote, isRoleLine_roleLine, if_pos rfl, roleTokens, hrole, hstop, hdrop]
  cases htext : kvpairs.pairs.map kvToken with
  | nil => rfl
  | cons token rest =>
      -- The blank behind the role opens no token.
      rw [htext, spaced_cons] at htokens
      rw [List.flatMap_cons, List.append_assoc]
      exact htokens

theorem groupPairs_roleLine : groupPairs [roleLine role kvpairs] = kvpairs.pairs := by
  have hpairs : pairsOf splitToken (kvpairs.pairs.map kvToken) = kvpairs.pairs :=
    kvpairs.pairsOf_tokens fun _ hbare => splitToken_kvToken hbare
  have htool := isToolLine_of_role (isRoleLine_roleLine role kvpairs)
  unfold groupPairs
  rw [List.filter_cons_of_pos (by rw [htool]; rfl), List.filter_nil, List.flatMap_singleton,
    lineTokens_roleLine]
  exact hpairs

theorem sound_roleLine : SoundLine (roleLine role kvpairs) := by
  have hquotes := quoteOpen_of_level (level_roleLine role kvpairs)
  obtain ⟨hquote, hopen, -⟩ := closed_roleLine role kvpairs
  have htool := isToolLine_of_role (isRoleLine_roleLine role kvpairs)
  have hargs : lineArgs (roleLine role kvpairs) = some [] := by
    rw [lineArgs, htool]
    rfl
  refine ⟨bodyLine_roleLine role kvpairs, hquotes, ?_, ?_⟩
  · have hsplit : (kvpairs.pairs.map kvToken).any (fun token => (splitToken token).isNone) = false :=
      kvpairs.any_isNone_tokens fun _ hbare => splitToken_kvToken hbare
    rw [lineDrops, lineTokens_roleLine, hargs, hsplit]
    rfl
  · rw [lineRepaired, hquotes, hquote, hopen, hargs, Bool.and_false, Option.any_some]
    rfl

end RoleLine

/-! ## The round trip -/

/-- A tool line with quoted values, in the place of the same call without
arguments, gives its statement that call with the arguments and the method; a
role line, in the place of the bare role, gives its statement the pairs, in
front of those that other lines of the statement have under other keys. -/
theorem quoted_values_round_trip (place : Place) (maxSize : Nat) :
    (∀ name args method bare, (place.frame (callLine name args method)).length ≤ maxSize →
      parse .strict maxSize (place.frame (callLine name .none none)) = .ok bare →
      ∃ before stmt after calls empty map later, bare.statements = before ++ stmt :: after ∧
        stmt.toolCalls = calls ++ ⟨name.text, empty, none⟩ :: later ∧ map.data = args.pairs ∧
        parse .strict maxSize (place.frame (callLine name args method)) = .ok { bare with
          rawFrame := place.frame (callLine name args method)
          statements := before ++ { stmt with
            toolCalls := calls ++ ⟨name.text, map, method.map Ident.text⟩ :: later } :: after }) ∧
    ∀ role pairs bare, (place.frame (roleLine role pairs)).length ≤ maxSize →
      (∀ key ∈ keysOf pairs.pairs, ∀ line ∈ place.rest, key ∉ lineKeys line) →
      parse .strict maxSize (place.frame (roleLine role .none)) = .ok bare →
      ∃ before stmt after kvpairs, bare.statements = before ++ stmt :: after ∧
        stmt.role = role.text ∧ kvpairs.data = pairs.pairs ++ stmt.kvpairs.data ∧
        parse .strict maxSize (place.frame (roleLine role pairs)) = .ok { bare with
          rawFrame := place.frame (roleLine role pairs)
          statements := before ++ { stmt with kvpairs := kvpairs } :: after } := by
  constructor
  · intro name args method bare hsize h
    obtain ⟨empty, -, hempty⟩ := toolOf_callLine name .none none
    obtain ⟨map, hmap, hcall⟩ := toolOf_callLine name args method
    obtain ⟨before, stmt, after, calls, later, hstatements, hcalls, hparse⟩ :=
      Place.replace_tool (sound_callLine name .none none) (sound_callLine name args method)
        (isToolLine_callLine _ _ _) (isToolLine_callLine _ _ _) hsize h
    rw [hempty] at hcalls
    rw [hcall] at hparse
    exact ⟨before, stmt, after, calls, empty, map, later, hstatements, hcalls, hmap, hparse⟩
  · intro role pairs bare hsize hfresh h
    have hpairs := groupPairs_roleLine role pairs
    obtain ⟨before, stmt, after, kvpairs, hstatements, hrole, hdata, hparse⟩ :=
      Place.replace_role (sound_roleLine role .none) (sound_roleLine role pairs)
        (isRoleLine_roleLine _ _) (isRoleLine_roleLine _ _) (groupPairs_roleLine role .none)
        (hpairs.symm ▸ pairs.distinct) (hpairs.symm ▸ hfresh) hsize h
    rw [roleOf_roleLine] at hrole hparse
    rw [hpairs] at hdata
    refine ⟨before, stmt, after, kvpairs, hstatements, hrole, hdata, ?_⟩
    rw [hparse, ← hrole]

/-- Behind a header, indented, with a carriage return and more of the body. -/
def quotedPlace : Place where
  front := ascii "VER:2 CHK:sha256:0 AGT:a REQID:r\n[A] a:1"
  indent := ascii "  "
  trailing := ascii "\r"
  back := some (ascii "!ls\nk:v")
  blank := by decide +kernel

def delimiterPairs : IdentPairs where
  pairs := [(ascii "a", ascii "x]; \">\\"), (ascii "b", ascii "\n\t\r=:[")]
  bare := by decide +kernel
  distinct := by decide +kernel

def readIdent : Ident := ⟨ascii "read", by decide +kernel⟩

/-- Values full of delimiters, as arguments and behind a role. -/
theorem delimiter_values_read :
    (∃ ast, ∃ stmt ∈ ast.statements, ∃ call ∈ stmt.toolCalls,
      parse .strict 1048576 (quotedPlace.frame (callLine readIdent delimiterPairs (some readIdent))) =
        .ok ast ∧ call.args.data = delimiterPairs.pairs) ∧
    ∃ ast, ∃ stmt ∈ ast.statements,
      parse .strict 1048576 (quotedPlace.frame (roleLine readIdent delimiterPairs)) = .ok ast ∧
        delimiterPairs.pairs <+: stmt.kvpairs.data := by
  constructor
  · obtain ⟨bare, hbare, -⟩ := @exists_of_parse_any .strict 1048576
      (quotedPlace.frame (callLine readIdent .none none)) (fun _ => true) (by decide +kernel)
    obtain ⟨before, stmt, after, calls, empty, map, later, -, -, hmap, hparse⟩ :=
      (quoted_values_round_trip quotedPlace 1048576).1 readIdent delimiterPairs (some readIdent) bare
        (by decide +kernel) hbare
    exact ⟨_, _, List.mem_append_right _ List.mem_cons_self, _,
      List.mem_append_right _ List.mem_cons_self, hparse, hmap⟩
  · obtain ⟨bare, hbare, -⟩ := @exists_of_parse_any .strict 1048576
      (quotedPlace.frame (roleLine readIdent .none)) (fun _ => true) (by decide +kernel)
    obtain ⟨before, stmt, after, kvpairs, -, -, hdata, hparse⟩ :=
      (quoted_values_round_trip quotedPlace 1048576).2 readIdent delimiterPairs bare
        (by decide +kernel) (by decide +kernel) hbare
    exact ⟨_, _, List.mem_append_right _ List.mem_cons_self, hparse, hdata ▸ List.prefix_append _ _⟩

end LlmTop
