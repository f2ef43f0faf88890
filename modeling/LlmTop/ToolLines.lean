import LlmTop.LexerLaws
import LlmTop.StatementKeys
import Mathlib.Data.List.Forall2

/-!
# Tool lines read in full

A tool line is a name, arguments in brackets and a method.  The parser finds the
three by searches of their own and looks at nothing between the closing bracket
and the next `>`.
-/
namespace LlmTop
open Lib.Faults

/-! ## Tokens and the text they come from -/

/-- The tokens in order, with nothing but delimiters between and around them. -/
inductive Separated (delim : UInt8) : Bytes → List Bytes → Prop
  | done {pad : Bytes} (hpad : ∀ c ∈ pad, c = delim) : Separated delim pad []
  | token {pad token rest : Bytes} {tokens : List Bytes} (hpad : ∀ c ∈ pad, c = delim)
      (h : Separated delim rest tokens) : Separated delim (pad ++ (token ++ rest)) (token :: tokens)

namespace Separated

variable {delim : UInt8} {text : Bytes} {tokens : List Bytes}

theorem pad (h : Separated delim text tokens) : Separated delim (text ++ [delim]) tokens := by
  induction h with
  | done hpad =>
      apply done
      intro c hc
      rcases List.mem_append.mp hc with hc | hc
      · exact hpad c hc
      · exact List.mem_singleton.mp hc
  | token hpad _ ih =>
      rw [List.append_assoc, List.append_assoc]
      exact token hpad ih

theorem concat (h : Separated delim text tokens) (last : Bytes) :
    Separated delim (text ++ last) (tokens ++ [last]) := by
  induction h with
  | @done pad hpad =>
      have hnil : Separated delim [] [] := done (by simp)
      have hlast := @token delim pad last [] [] hpad hnil
      rwa [List.append_nil] at hlast
  | token hpad _ ih =>
      rw [List.append_assoc, List.append_assoc]
      exact token hpad ih

end Separated

theorem separated_run (delim : UInt8) (str : Bytes) :
    ∃ front, str = front ++ (str.foldl (lexStep delim) {}).current ∧
      Separated delim front (str.foldl (lexStep delim) {}).tokens := by
  induction str using List.reverseRecOn with
  | nil => exact ⟨[], rfl, .done (by simp)⟩
  | append_singleton str c ih =>
      obtain ⟨front, hstr, hfront⟩ := ih
      rw [List.foldl_append, List.foldl_cons, List.foldl_nil]
      generalize str.foldl (lexStep delim) {} = s at hstr hfront ⊢
      rcases lexStep_cases delim c s with ⟨htokens, hcurrent⟩ | ⟨rfl, -, -, hstep⟩
      · refine ⟨front, ?_, by rwa [htokens]⟩
        rw [hcurrent, ← List.append_assoc, ← hstr]
      · rw [hstep]
        split_ifs with hne
        · refine ⟨str ++ [c], (List.append_nil _).symm, ?_⟩
          rw [hstr]
          exact (hfront.concat s.current).pad
        · rw [not_not.mp hne, List.append_nil] at hstr
          refine ⟨str ++ [c], ?_, ?_⟩
          · rw [not_not.mp hne, List.append_nil]
          · rw [hstr]
            exact hfront.pad

/-- Splitting drops nothing but delimiters. -/
theorem separated_lexSplit (delim : UInt8) (str : Bytes) :
    Separated delim str (lexSplit str delim) := by
  obtain ⟨front, hstr, hfront⟩ := separated_run delim str
  unfold lexSplit LexState.finish
  split_ifs with hne
  · have hlast := hfront.concat (str.foldl (lexStep delim) {}).current
    rwa [← hstr] at hlast
  · rw [not_not.mp hne, List.append_nil] at hstr
    rwa [← hstr] at hfront

/-! ## Clean runs over pairs -/

section Pairs

variable {split : Bytes → Option (Bytes × Bytes)} {duplicate malformed : Bytes → Fault}

/-- A token that stands for a pair. -/
def Holds (split : Bytes → Option (Bytes × Bytes)) (token : Bytes) (pair : Bytes × Bytes) : Prop :=
  ∃ raw, split token = some (pair.1, raw) ∧ pair.2 = unquoteAndUnescape raw

/-- Without a fault every token adds its pair at the end. -/
theorem pairs_of_clean {pairs : OrderedMap} {tokens : List Bytes}
    (h : faultsAlong (pairNext split) (pairFaults split duplicate malformed) pairs tokens = []) :
    ∃ added, (tokens.foldl (pairNext split) pairs).data = pairs.data ++ added ∧
      List.Forall₂ (Holds split) tokens added := by
  induction tokens generalizing pairs with
  | nil => exact ⟨[], (List.append_nil _).symm, List.Forall₂.nil⟩
  | cons token tokens ih =>
      rw [faultsAlong] at h
      obtain ⟨htoken, hrest⟩ := List.append_eq_nil_iff.mp h
      obtain ⟨added, hdata, hadded⟩ := ih hrest
      unfold pairFaults at htoken
      cases hsplit : split token with
      | none => simp [hsplit] at htoken
      | some pair =>
          obtain ⟨key, raw⟩ := pair
          have hnew : key ∉ keysOf pairs.data := by
            intro hmem
            have hcount := OrderedMap.count_pos.mpr hmem
            simp [hsplit, hcount] at htoken
          have hset : (pairNext split pairs token).data =
              pairs.data ++ [(key, unquoteAndUnescape raw)] := by
            rw [← OrderedMap.data_set_new hnew, pairNext, hsplit]
          refine ⟨(key, unquoteAndUnescape raw) :: added, ?_, ?_⟩
          · rw [List.foldl_cons, hdata, hset, List.append_assoc]
            rfl
          · exact List.Forall₂.cons ⟨raw, hsplit, rfl⟩ hadded

end Pairs

theorem splitArg_eq_some {arg key raw : Bytes} :
    splitArg arg = some (key, raw) ↔ arg = key ++ '='.toUInt8 :: raw ∧ '='.toUInt8 ∉ key := by
  unfold splitArg
  constructor
  · intro h
    obtain ⟨i, hfind, hpair⟩ := Option.map_eq_some_iff.mp h
    obtain ⟨before, rest, rfl, hbefore, rfl⟩ := Lib.Search.find_eq_some.mp hfind
    obtain ⟨rfl, rfl⟩ := Prod.mk.inj hpair
    simpa using hbefore
  · rintro ⟨rfl, hkey⟩
    rw [Lib.Search.find_append raw hkey, Option.map_some, List.take_left]
    simp

/-! ## The shape of a tool line -/

/-- The first `]` outside quotes is right behind the text. -/
def Closes (args : Bytes) : Prop :=
  closingBracket false false (args ++ [']'.toUInt8]) = some args.length

def methodText (method : Option Bytes) : Bytes := (method.map ('>'.toUInt8 :: ·)).getD []

/-- The text of the arguments is the map's entries, in order, one for each
token between separators. -/
def HoldsArgs (args : Bytes) (pairs : OrderedMap) : Prop :=
  ∃ tokens, Separated ';'.toUInt8 args tokens ∧ List.Forall₂ (Holds splitArg) tokens pairs.data

/-- The line has the grammar's shape and the call holds all of its text: only
white space stands between the closing bracket and the method or the end. -/
inductive ReadWhole : Bytes → ToolCall → Prop
  | plain {name : Bytes} {method : Option Bytes} (hname : '>'.toUInt8 ∉ name)
      (hopen : '['.toUInt8 ∉ name ++ methodText method) :
      ReadWhole ('!'.toUInt8 :: (name ++ methodText method))
        ⟨trim name, OrderedMap.empty, method.map trim⟩
  | bracketed {name args gap : Bytes} {method : Option Bytes} {pairs : OrderedMap}
      (hname : '['.toUInt8 ∉ name) (hcloses : Closes args) (hargs : HoldsArgs args pairs)
      (hgap : ∀ c ∈ gap, isSpace c = true) :
      ReadWhole ('!'.toUInt8 ::
          (name ++ '['.toUInt8 :: (args ++ ']'.toUInt8 :: (gap ++ methodText method))))
        ⟨trim name, pairs, method.map trim⟩

/-- The text between the closing bracket and the next `>`, or the end. -/
def toolGap (line : Bytes) : Bytes :=
  match Lib.Search.find '['.toUInt8 line with
  | some start =>
      match argsLength line start with
      | some len => (line.drop (start + 1 + len + 1)).takeWhile (· != '>'.toUInt8)
      | none => []
  | none => []

theorem Closes.bracket {args : Bytes} (h : Closes args) (rest : Bytes) :
    closingBracket false false (args ++ ']'.toUInt8 :: rest) = some args.length := by
  obtain ⟨front, back, heq, hlength, hany⟩ := closingBracket_cut h
  obtain ⟨rfl, -⟩ := List.append_inj heq hlength.symm
  exact hany rest

theorem closes_of_bracket {text : Bytes} {len : Nat}
    (h : closingBracket false false text = some len) :
    ∃ args rest, text = args ++ ']'.toUInt8 :: rest ∧ args.length = len ∧ Closes args := by
  obtain ⟨args, rest, htext, hlength, hany⟩ := closingBracket_cut h
  refine ⟨args, rest, htext, hlength, ?_⟩
  rw [Closes, hlength]
  exact hany []

/-! ## Calls by their shape -/

theorem find_methodText {before : Bytes} (h : '>'.toUInt8 ∉ before) (method : Option Bytes) :
    Lib.Search.find '>'.toUInt8 (before ++ methodText method) = method.map fun _ => before.length := by
  cases method with
  | none => exact Lib.Search.find_eq_none.mpr (by simpa [methodText] using h)
  | some method => exact Lib.Search.find_append method h

theorem methodAfter_methodText (before : Bytes) (method : Option Bytes) :
    methodAfter (before ++ methodText method) (method.map fun _ => before.length) =
      method.map trim := by
  cases method with
  | none => rfl
  | some method =>
      have hdrop : (before ++ methodText (some method)).drop (before.length + 1) = method := by
        rw [← List.drop_drop, List.drop_left]
        rfl
      rw [methodAfter, Option.map_some, Option.map_some, hdrop, Option.map_some]

/-- The text up to the first `>`, and the method behind it. -/
theorem exists_methodText (text : Bytes) :
    ∃ before method, text = before ++ methodText method ∧ '>'.toUInt8 ∉ before ∧
      before = text.takeWhile (· != '>'.toUInt8) := by
  cases hfind : Lib.Search.find '>'.toUInt8 text with
  | none =>
      have hnone := Lib.Search.find_eq_none.mp hfind
      exact ⟨text, none, (List.append_nil text).symm, hnone,
        (Lib.Search.takeWhile_of_not_mem hnone).symm⟩
  | some i =>
      obtain ⟨before, rest, rfl, hbefore, -⟩ := Lib.Search.find_eq_some.mp hfind
      exact ⟨before, some rest, rfl, hbefore,
        (Lib.Search.takeWhile_append_cons rest hbefore).symm⟩

theorem toolOf_plain {name : Bytes} {method : Option Bytes} (hname : '>'.toUInt8 ∉ name)
    (hopen : '['.toUInt8 ∉ name ++ methodText method) :
    toolOf ('!'.toUInt8 :: (name ++ methodText method)) =
      ⟨trim name, OrderedMap.empty, method.map trim⟩ := by
  have hline : '!'.toUInt8 :: (name ++ methodText method) =
      ('!'.toUInt8 :: name) ++ methodText method := rfl
  have hbefore : '>'.toUInt8 ∉ '!'.toUInt8 :: name := by
    rw [List.mem_cons, not_or]
    exact ⟨by decide, hname⟩
  have hnone : Lib.Search.find '['.toUInt8 ('!'.toUInt8 :: (name ++ methodText method)) = none := by
    apply Lib.Search.find_eq_none.mpr
    rw [List.mem_cons, not_or]
    exact ⟨by decide, hopen⟩
  have hcut : Lib.Search.substr (('!'.toUInt8 :: name) ++ methodText method) 1
      (((method.map fun _ => ('!'.toUInt8 :: name).length).getD
        (('!'.toUInt8 :: name) ++ methodText method).length) - 1) = name := by
    cases method with
    | none => simp [methodText, Lib.Search.substr]
    | some method => simp [Lib.Search.substr]
  unfold toolOf
  rw [hnone]
  dsimp only
  rw [hline, find_methodText hbefore, methodAfter_methodText, hcut]

section Bracketed

variable {name args gap : Bytes} {method : Option Bytes}

/-- A tool line with brackets. -/
def bracketedLine (name args gap : Bytes) (method : Option Bytes) : Bytes :=
  '!'.toUInt8 :: (name ++ '['.toUInt8 :: (args ++ ']'.toUInt8 :: (gap ++ methodText method)))

theorem find_bracketedLine (hname : '['.toUInt8 ∉ name) :
    Lib.Search.find '['.toUInt8 (bracketedLine name args gap method) = some (name.length + 1) := by
  have hbefore : '['.toUInt8 ∉ '!'.toUInt8 :: name := by
    rw [List.mem_cons, not_or]
    exact ⟨by decide, hname⟩
  have hfind := Lib.Search.find_append (args ++ ']'.toUInt8 :: (gap ++ methodText method)) hbefore
  exact hfind

theorem drop_name (name rest : Bytes) :
    ('!'.toUInt8 :: (name ++ '['.toUInt8 :: rest)).drop (name.length + 1 + 1) = rest := by
  rw [← List.drop_drop, List.drop_succ_cons, List.drop_left]
  rfl

theorem argsLength_bracketedLine (hcloses : Closes args) :
    argsLength (bracketedLine name args gap method) (name.length + 1) = some args.length := by
  rw [argsLength, bracketedLine, drop_name]
  exact hcloses.bracket _

theorem drop_args : (bracketedLine name args gap method).drop (name.length + 1 + 1 + args.length) =
    ']'.toUInt8 :: (gap ++ methodText method) := by
  rw [← List.drop_drop, bracketedLine, drop_name, List.drop_left]

theorem toolGap_bracketedLine (hname : '['.toUInt8 ∉ name) (hcloses : Closes args)
    (hgap : '>'.toUInt8 ∉ gap) : toolGap (bracketedLine name args gap method) = gap := by
  have hdrop : (bracketedLine name args gap method).drop (name.length + 1 + 1 + args.length + 1) =
      gap ++ methodText method := by
    rw [← List.drop_drop, drop_args]
    rfl
  rw [toolGap, find_bracketedLine hname]
  dsimp only
  rw [argsLength_bracketedLine hcloses]
  dsimp only
  rw [hdrop]
  cases method with
  | none =>
      rw [methodText, Option.map_none, Option.getD_none, List.append_nil]
      exact Lib.Search.takeWhile_of_not_mem hgap
  | some method => exact Lib.Search.takeWhile_append_cons method hgap

theorem argTokens_bracketedLine :
    argTokens (bracketedLine name args gap method) (name.length + 1) args.length =
      lexSplit args ';'.toUInt8 := by
  rw [argTokens, Lib.Search.substr, bracketedLine, drop_name, List.take_left]

theorem toolOf_bracketed (hname : '['.toUInt8 ∉ name) (hcloses : Closes args)
    (hgap : '>'.toUInt8 ∉ gap) :
    toolOf (bracketedLine name args gap method) =
      ⟨trim name, (lexSplit args ';'.toUInt8).foldl argNext OrderedMap.empty, method.map trim⟩ := by
  have hcut : Lib.Search.substr (bracketedLine name args gap method) 1 (name.length + 1 - 1) = name := by
    rw [Lib.Search.substr, bracketedLine, Nat.add_sub_cancel, List.drop_succ_cons, List.drop_zero,
      List.take_left]
  have hfront : bracketedLine name args gap method =
      ('!'.toUInt8 :: (name ++ '['.toUInt8 :: (args ++ ']'.toUInt8 :: gap))) ++ methodText method := by
    simp [bracketedLine]
  have hmarker : Lib.Search.findFrom '>'.toUInt8 (bracketedLine name args gap method)
      (name.length + 1 + 1 + args.length) = method.map fun _ =>
        ('!'.toUInt8 :: (name ++ '['.toUInt8 :: (args ++ ']'.toUInt8 :: gap))).length := by
    have hbefore : '>'.toUInt8 ∉ ']'.toUInt8 :: gap := by
      rw [List.mem_cons, not_or]
      exact ⟨by decide, hgap⟩
    have hfind := find_methodText hbefore method
    rw [Lib.Search.findFrom, drop_args, ← List.cons_append, hfind, Option.map_map]
    apply congrArg (method.map ·)
    funext m
    simp only [Function.comp_apply, List.length_cons, List.length_append]
    omega
  unfold toolOf
  rw [find_bracketedLine hname]
  dsimp only
  rw [argsLength_bracketedLine hcloses]
  dsimp only
  rw [argTokens_bracketedLine, hcut, hmarker, hfront, methodAfter_methodText]

theorem toolArgs_bracketed (hname : '['.toUInt8 ∉ name) (hcloses : Closes args) :
    toolArgs (bracketedLine name args gap method) = some (lexSplit args ';'.toUInt8) := by
  rw [toolArgs, find_bracketedLine hname]
  dsimp only
  rw [argsLength_bracketedLine hcloses, Option.map_some, argTokens_bracketedLine]

end Bracketed

/-! ## What the parser reads of a line -/

/-- A tool line without faults has one of the two shapes, with its own gap. -/
theorem shape_of_clean {line : Bytes} (htool : isToolLine line = true) (hclean : toolFaults line = []) :
    (∃ name method, '>'.toUInt8 ∉ name ∧ '['.toUInt8 ∉ name ++ methodText method ∧
        line = '!'.toUInt8 :: (name ++ methodText method)) ∨
      ∃ name args gap method, '['.toUInt8 ∉ name ∧ Closes args ∧ '>'.toUInt8 ∉ gap ∧
        line = bracketedLine name args gap method := by
  obtain ⟨text, rfl⟩ := List.head?_eq_some_iff.mp (beq_iff_eq.mp htool)
  unfold toolFaults toolArgs at hclean
  cases hfind : Lib.Search.find '['.toUInt8 ('!'.toUInt8 :: text) with
  | none =>
      obtain ⟨name, method, rfl, hname, -⟩ := exists_methodText text
      have hopen := Lib.Search.find_eq_none.mp hfind
      rw [List.mem_cons, not_or] at hopen
      exact Or.inl ⟨name, method, hname, hopen.2, rfl⟩
  | some start =>
      obtain ⟨before, rest, heq, hbefore, hstart⟩ := Lib.Search.find_eq_some.mp hfind
      cases before with
      | nil => exact absurd (List.cons.inj heq).1 (by decide)
      | cons c name =>
          rw [List.cons_append] at heq
          obtain ⟨rfl, rfl⟩ := List.cons.inj heq
          rw [List.mem_cons, not_or] at hbefore
          rw [hfind, ← hstart, List.length_cons] at hclean
          dsimp only at hclean
          rw [argsLength, drop_name] at hclean
          cases hclose : closingBracket false false rest with
          | none => simp [hclose] at hclean
          | some len =>
              obtain ⟨args, tail, rfl, -, hcloses⟩ := closes_of_bracket hclose
              obtain ⟨gap, method, rfl, hgap, -⟩ := exists_methodText tail
              exact Or.inr ⟨name, args, gap, method, hbefore.2, hcloses, hgap, rfl⟩

theorem space_ne_marker {gap : Bytes} (h : ∀ c ∈ gap, isSpace c = true) : '>'.toUInt8 ∉ gap := by
  intro hmem
  have hspace := h _ hmem
  revert hspace
  decide

/-- A line without faults is read whole when its gap is white space. -/
theorem readWhole_iff {line : Bytes} (htool : isToolLine line = true) (hclean : toolFaults line = []) :
    ReadWhole line (toolOf line) ↔ ∀ c ∈ toolGap line, isSpace c = true := by
  constructor
  · intro hwhole
    generalize toolOf line = call at hwhole
    cases hwhole with
    | plain hname hopen =>
        rename_i name method
        have hnone : Lib.Search.find '['.toUInt8
            ('!'.toUInt8 :: (name ++ methodText method)) = none := by
          apply Lib.Search.find_eq_none.mpr
          rw [List.mem_cons, not_or]
          exact ⟨by decide, hopen⟩
        rw [toolGap, hnone]
        simp
    | bracketed hname hcloses _hargs hgap =>
        rename_i name args gap method pairs
        have heq : toolGap (bracketedLine name args gap method) = gap :=
          toolGap_bracketedLine hname hcloses (space_ne_marker hgap)
        rw [bracketedLine] at heq
        rw [heq]
        exact hgap
  · intro hspace
    rcases shape_of_clean htool hclean with ⟨name, method, hname, hopen, rfl⟩ |
      ⟨name, args, gap, method, hname, hcloses, hgap, rfl⟩
    · rw [toolOf_plain hname hopen]
      exact .plain hname hopen
    · rw [toolGap_bracketedLine hname hcloses hgap] at hspace
      rw [toolFaults, toolArgs_bracketed hname hcloses] at hclean
      obtain ⟨added, hdata, hadded⟩ := pairs_of_clean hclean
      rw [toolOf_bracketed hname hcloses hgap]
      apply ReadWhole.bracketed hname hcloses _ hspace
      refine ⟨lexSplit args ';'.toUInt8, separated_lexSplit _ args, ?_⟩
      have hpairs : ((lexSplit args ';'.toUInt8).foldl argNext OrderedMap.empty).data = added := hdata
      rwa [hpairs]

theorem toolFaults_of_strict {maxSize : Nat} {payload line : Bytes}
    (h : (readFrame maxSize payload).2 = []) (hline : line ∈ bodyContent maxSize payload)
    (htool : isToolLine line = true) : closeQuote line = line ∧ toolFaults line = [] := by
  obtain ⟨stmt, hclean⟩ := strict_line_clean h hline
  unfold lineFaults at hclean
  obtain ⟨hquote, hrest⟩ := List.append_eq_nil_iff.mp hclean
  have hclosed : closeQuote line = line := by
    unfold quoteFaults at hquote
    split at hquote
    · contradiction
    · rename_i hopen
      exact closeQuote_closed (Bool.eq_false_iff.mpr hopen)
  have hrole : isRoleLine line = false := by
    cases hrole : isRoleLine line with
    | false => rfl
    | true =>
        rw [isToolLine_of_role hrole] at htool
        contradiction
  rw [hclosed, hrole, htool] at hrest
  exact ⟨hclosed, (List.append_eq_nil_iff.mp hrest).1⟩

/-- An accepted frame's tool lines are its calls, in order; each is read whole
exactly when white space alone stands behind its closing bracket. -/
theorem tool_lines_read_whole_iff {maxSize : Nat} {payload : Bytes} {ast : AST}
    (h : parse .strict maxSize payload = .ok ast) :
    List.Forall₂ ReadWhole ((bodyContent maxSize payload).filter isToolLine)
        (ast.statements.flatMap Statement.toolCalls) ↔
      ∀ line ∈ bodyContent maxSize payload, isToolLine line = true →
        ∀ c ∈ toolGap line, isSpace c = true := by
  have hclean := (parse_strict_eq_ok.mp h).1
  have hwhole : ∀ line ∈ (bodyContent maxSize payload).filter isToolLine,
      (ReadWhole line (toolOf (closeQuote line)) ↔ ∀ c ∈ toolGap line, isSpace c = true) := by
    intro line hmem
    obtain ⟨hline, htool⟩ := List.mem_filter.mp hmem
    obtain ⟨hclosed, hfaults⟩ := toolFaults_of_strict hclean hline htool
    rw [hclosed]
    exact readWhole_iff htool hfaults
  rw [strict_calls h, groupCalls, List.forall₂_map_right_iff, List.forall₂_same]
  constructor
  · intro hall line hline htool
    have hmem := List.mem_filter.mpr ⟨hline, htool⟩
    exact (hwhole line hmem).mp (hall line hmem)
  · intro hall line hmem
    obtain ⟨hline, htool⟩ := List.mem_filter.mp hmem
    exact (hwhole line hmem).mpr (hall line hline htool)

def toolLineFrame : Bytes :=
  ascii "VER:2 CHK:sha256:0 AGT:a REQID:r\n[A]\n!read [path=\"a;b]\";n=1] > all\n!ls"

theorem tool_line_frame_read_whole :
    ∃ ast, parse .strict 1048576 toolLineFrame = .ok ast ∧
      List.Forall₂ ReadWhole ((bodyContent 1048576 toolLineFrame).filter isToolLine)
        (ast.statements.flatMap Statement.toolCalls) := by
  have hparse : parse .strict 1048576 toolLineFrame = .ok (readFrame 1048576 toolLineFrame).1 :=
    parse_strict_eq_ok.mpr ⟨by decide +kernel, by decide +kernel, rfl⟩
  refine ⟨_, hparse, (tool_lines_read_whole_iff hparse).mpr ?_⟩
  decide +kernel

/-- Two calls on one line. -/
def twoCallsFrame : Bytes := ascii "VER:2 CHK:sha256:0 AGT:a REQID:r\n[A]\n!a[x=1]!b[y=2]"

/-- The second call is accepted and gone. -/
theorem second_call_discarded :
    ∃ ast, parse .strict 1048576 twoCallsFrame = .ok ast ∧
      (ast.statements.flatMap Statement.toolCalls).map ToolCall.name = [ascii "a"] ∧
      ¬List.Forall₂ ReadWhole ((bodyContent 1048576 twoCallsFrame).filter isToolLine)
        (ast.statements.flatMap Statement.toolCalls) := by
  have hparse : parse .strict 1048576 twoCallsFrame = .ok (readFrame 1048576 twoCallsFrame).1 :=
    parse_strict_eq_ok.mpr ⟨by decide +kernel, by decide +kernel, rfl⟩
  refine ⟨_, hparse, by decide +kernel, ?_⟩
  have hclean : (readFrame 1048576 twoCallsFrame).2 = [] := by decide +kernel
  have hlines : (bodyContent 1048576 twoCallsFrame).filter isToolLine = [ascii "!a[x=1]!b[y=2]"] := by
    decide +kernel
  have hmem : ascii "!a[x=1]!b[y=2]" ∈ (bodyContent 1048576 twoCallsFrame).filter isToolLine := by
    rw [hlines]
    exact List.mem_cons_self
  obtain ⟨hline, htool⟩ := List.mem_filter.mp hmem
  obtain ⟨hclosed, hfaults⟩ := toolFaults_of_strict hclean hline htool
  rw [strict_calls hparse, groupCalls, hlines]
  intro hwhole
  cases hwhole with
  | cons hfirst _ =>
      dsimp only at hfirst
      rw [hclosed] at hfirst
      have hgap := (readWhole_iff htool hfaults).mp hfirst
      revert hgap
      decide +kernel

end LlmTop
