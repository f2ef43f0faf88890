import LlmTop.ParserBounds
import LlmTop.ParserModes
import LlmTop.TokenLines

/-!
# How much a frame can say

Every byte of a parsed string was a byte of the payload, but for a quote and a
bracket that may have been put into a line.  So the strings of a frame together
are no longer than the payload, and at most twice as long when it was repaired.
-/
namespace LlmTop
open Lib.Faults

/-! ## The strings of a frame -/

def OrderedMap.strings (m : OrderedMap) : List Bytes := m.data.flatMap fun entry => [entry.1, entry.2]

def ToolCall.strings (tool : ToolCall) : List Bytes :=
  tool.name :: (tool.args.strings ++ tool.method.toList)

def Statement.strings (stmt : Statement) : List Bytes :=
  stmt.role :: (stmt.kvpairs.strings ++ stmt.toolCalls.flatMap ToolCall.strings)

def Header.strings (h : Header) : List Bytes :=
  [h.ver, h.chk, h.agt, h.uid, h.tim, h.reqid, h.fallback]

def AST.strings (ast : AST) : List Bytes :=
  ast.header.strings ++ (ast.statements ++ ast.healedDraft).flatMap Statement.strings

/-- The strings laid end to end. -/
def extent (strings : List Bytes) : Nat := strings.flatten.length

@[simp] theorem extent_nil : extent [] = 0 := rfl

@[simp] theorem extent_cons (s : Bytes) (strings : List Bytes) :
    extent (s :: strings) = s.length + extent strings := by
  simp [extent]

@[simp] theorem extent_append (strings strings' : List Bytes) :
    extent (strings ++ strings') = extent strings + extent strings' := by
  simp [extent]

theorem length_le_extent {s : Bytes} {strings : List Bytes} (h : s ∈ strings) :
    s.length ≤ extent strings :=
  (List.infix_of_mem_flatten h).length_le

theorem extent_set (m : OrderedMap) (key value : Bytes) :
    extent (m.set key value).strings ≤ extent m.strings + (key.length + value.length) := by
  have hset := OrderedMap.flatMap_set_length (fun entry => entry.1 ++ entry.2) m key value
  have hflatten : ∀ m : OrderedMap,
      extent m.strings = (m.data.flatMap fun entry => entry.1 ++ entry.2).length := by
    intro m
    rw [extent, OrderedMap.strings, List.flatten_eq_flatMap, List.flatMap_assoc]
    simp
  rw [hflatten, hflatten]
  simpa using hset

/-! ## Tokens -/

theorem extent_lexSplit (delim : UInt8) (str : Bytes) :
    extent (lexSplit str delim) ≤ str.length := by
  have hroom := lineLength_lexSplit delim str
  have hle : ∀ tokens : List Bytes, tokens ≠ [] → extent tokens + 1 ≤ lineLength tokens := by
    intro tokens
    induction tokens with
    | nil => exact fun h => absurd rfl h
    | cons t tokens ih =>
        intro _
        rw [extent_cons, lineLength_cons]
        cases tokens with
        | nil => simp
        | cons u tokens =>
            have hrest := ih (List.cons_ne_nil u tokens)
            omega
  cases htokens : lexSplit str delim with
  | nil => exact Nat.zero_le _
  | cons t tokens =>
      have hnonempty := hle (t :: tokens) (List.cons_ne_nil t tokens)
      rw [htokens] at hroom
      omega

theorem length_unescape_le (s : Bytes) : (unescape s).length ≤ s.length := by
  induction s using unescape.induct with
  | case1 => exact Nat.le_refl _
  | case2 c => exact Nat.le_refl _
  | _ => simp_all [unescape] <;> omega

theorem length_unquoteAndUnescape_le (s : Bytes) : (unquoteAndUnescape s).length ≤ s.length := by
  unfold unquoteAndUnescape
  split
  · exact Nat.le_refl _
  · have hinner := length_unescape_le (s.drop 1).dropLast
    rw [List.length_dropLast, List.length_drop] at hinner
    omega

/-- What a token is split into was in the token. -/
def Within (split : Bytes → Option (Bytes × Bytes)) : Prop :=
  ∀ token key val : Bytes, split token = some (key, val) → key.length + val.length ≤ token.length

theorem within_of_map {sep : Bytes → Option Nat} :
    Within fun token => (sep token).map fun i => (token.take i, token.drop (i + 1)) := by
  intro token key val h
  obtain ⟨i, -, hparts⟩ := Option.map_eq_some_iff.mp h
  cases hparts
  rw [List.length_take, List.length_drop]
  omega

theorem within_splitToken : Within splitToken := within_of_map

theorem within_splitArg : Within splitArg := within_of_map

theorem extent_pairs {split : Bytes → Option (Bytes × Bytes)} (hsplit : Within split)
    (tokens : List Bytes) (pairs : OrderedMap) :
    extent (tokens.foldl (pairNext split) pairs).strings ≤ extent pairs.strings + extent tokens := by
  induction tokens generalizing pairs with
  | nil => exact Nat.le_refl _
  | cons token tokens ih =>
      have hpair : extent (pairNext split pairs token).strings ≤
          extent pairs.strings + token.length := by
        unfold pairNext
        cases hparts : split token with
        | none => exact Nat.le_add_right _ _
        | some parts =>
            obtain ⟨key, val⟩ := parts
            have hset := extent_set pairs key (unquoteAndUnescape val)
            have hval := length_unquoteAndUnescape_le val
            have htoken := hsplit token key val hparts
            dsimp only
            omega
      have hrest := ih (pairNext split pairs token)
      rw [List.foldl_cons, extent_cons]
      omega

/-! ## Lines -/

theorem length_trim_le (s : Bytes) : (trim s).length ≤ s.length := Checked.length_trimBoth_le _ s

/-- A method stands behind its marker. -/
theorem extent_methodAfter {line : Bytes} {marker : Option Nat} {start : Nat}
    (h : ∀ i ∈ marker, start ≤ i) :
    extent (methodAfter line marker).toList ≤ line.length - start := by
  cases marker with
  | none => exact Nat.zero_le _
  | some i =>
      have hstart := h i rfl
      have htrim := length_trim_le (line.drop (i + 1))
      rw [List.length_drop] at htrim
      simp only [methodAfter, Option.map_some, Option.toList_some, extent_cons, extent_nil]
      omega

theorem extent_toolOf (line : Bytes) : extent (toolOf line).strings ≤ line.length := by
  have hname : ∀ len, (trim (Lib.Search.substr line 1 len)).length ≤ min len (line.length - 1) := by
    intro len
    have htrim := length_trim_le (Lib.Search.substr line 1 len)
    rw [Lib.Search.substr, List.length_take, List.length_drop] at htrim
    exact htrim
  unfold toolOf
  cases Lib.Search.find '['.toUInt8 line with
  | none =>
      have hmethod := @extent_methodAfter line (Lib.Search.find '>'.toUInt8 line)
        ((Lib.Search.find '>'.toUInt8 line).getD line.length) (fun i hi => by
          rw [Option.mem_def.mp hi, Option.getD_some])
      have hname := hname ((Lib.Search.find '>'.toUInt8 line).getD line.length - 1)
      simp only [ToolCall.strings, OrderedMap.strings, OrderedMap.empty, List.flatMap_nil,
        List.nil_append, extent_cons]
      omega
  | some start =>
      have hname := hname (start - 1)
      dsimp only
      cases argsLength line start with
      | none =>
          simp only [ToolCall.strings, OrderedMap.strings, OrderedMap.empty, List.flatMap_nil,
            List.nil_append, Option.toList_none, extent_cons, extent_nil]
          omega
      | some len =>
          have hargs := extent_pairs within_splitArg (argTokens line start len) OrderedMap.empty
          have htokens := extent_lexSplit ';'.toUInt8 (Lib.Search.substr line (start + 1) len)
          have hempty : extent OrderedMap.empty.strings = 0 := rfl
          have hmethod := @extent_methodAfter line
            (Lib.Search.findFrom '>'.toUInt8 line (start + 1 + len)) (start + 1 + len)
            (fun i hi => by
              obtain ⟨j, -, rfl⟩ := Option.map_eq_some_iff.mp hi
              exact Nat.le_add_right _ _)
          have hlength : (Lib.Search.substr line (start + 1) len).length ≤
              min len (line.length - (start + 1)) := by
            rw [Lib.Search.substr, List.length_take, List.length_drop]
          simp only [ToolCall.strings, extent_cons, extent_append, argNext, argTokens] at hargs ⊢
          omega

/-- What a line's repairs put into it. -/
def repairs (line : Bytes) : Nat :=
  (quoteFaults line).length +
    if isRoleLine (closeQuote line) then (roleFaults (closeQuote line)).length else 0

theorem repairs_le (line : Bytes) : repairs line ≤ 2 := by
  unfold repairs quoteFaults roleFaults
  split_ifs <;> simp

theorem repairs_le_faults (stmt : Statement) (line : Bytes) :
    repairs line ≤ (lineFaults stmt line).length := by
  unfold repairs lineFaults
  simp only [List.length_append]
  split <;> omega

theorem length_closeQuote (line : Bytes) :
    (closeQuote line).length = line.length + (quoteFaults line).length := by
  unfold closeQuote quoteFaults
  split <;> simp

theorem length_closedRole (line : Bytes) :
    (closedRole line).length = line.length + (roleFaults line).length := by
  unfold closedRole roleFaults
  split_ifs
  · exact Checked.length_closeRole line
  · exact Checked.length_closeRole line
  · rfl

theorem extent_roleStatement (stmt : Statement) (line : Bytes) :
    extent (roleStatement stmt line).strings ≤
      extent stmt.strings + (closedRole line).length := by
  have hpairs := extent_pairs within_splitToken (roleTokens line) stmt.kvpairs
  have htokens := extent_lexSplit ' '.toUInt8 ((closedRole line).drop (roleStop line + 1))
  have hrole : (Lib.Search.substr (closedRole line) 1 (roleStop line - 1)).length ≤
      min (roleStop line) (closedRole line).length := by
    rw [Lib.Search.substr, List.length_take, List.length_drop]
    omega
  rw [List.length_drop] at htokens
  simp only [roleStatement, Statement.strings, extent_cons, extent_append, kvNext, roleTokens]
    at hpairs ⊢
  omega

/-- One line of the body. -/
theorem extent_lineStatement (stmt : Statement) (line : Bytes) :
    extent (lineStatement stmt line).strings ≤ extent stmt.strings + line.length + repairs line := by
  have hquote := length_closeQuote line
  unfold lineStatement lineTokens repairs
  dsimp only
  split_ifs with hrole htool
  · have hstatement := extent_roleStatement stmt (closeQuote line)
    have hlength := length_closedRole (closeQuote line)
    omega
  · have hcall := extent_toolOf (closeQuote line)
    simp only [Statement.strings, List.flatMap_append, List.flatMap_singleton, extent_cons,
      extent_append]
    omega
  · have hpairs := extent_pairs within_splitToken (lexSplit (closeQuote line) ' '.toUInt8)
      stmt.kvpairs
    have htokens := extent_lexSplit ' '.toUInt8 (closeQuote line)
    simp only [Statement.strings, extent_cons, extent_append, kvNext] at hpairs ⊢
    omega

/-! ## The body -/

def Body.strings (b : Body) : List Bytes :=
  (b.statements ++ b.healedDraft ++ [b.cur.stmt]).flatMap Statement.strings

theorem extent_push (b : Body) (cur : Current) (hcur : cur.stmt = Statement.empty) :
    extent { b.pushCurrentStmt with cur := cur }.strings = extent b.strings := by
  have hempty : extent Statement.empty.strings = 0 := rfl
  unfold Body.pushCurrentStmt Body.strings
  split
  · simp [hcur, hempty]
  · simp [hcur, hempty]
    omega

theorem extent_flush (b : Body) (line : Bytes) : extent (b.flush line).strings = extent b.strings := by
  unfold Body.flush
  split
  · exact extent_push b _ rfl
  · rfl

theorem extent_bodyNext (b : Body) (rawLine : Bytes) :
    ∃ repaired ≤ 2, repaired ≤ (bodyFaults b rawLine).length ∧
      extent (bodyNext b rawLine).strings ≤ extent b.strings + rawLine.length + repaired := by
  unfold bodyNext bodyFaults
  dsimp only
  split
  · exact ⟨0, Nat.zero_le _, Nat.zero_le _, Nat.le_add_right _ _⟩
  · refine ⟨repairs (trimLine rawLine), repairs_le _, repairs_le_faults _ _, ?_⟩
    have hflush := extent_flush b (trimLine rawLine)
    have hline := extent_lineStatement (b.flush (trimLine rawLine)).cur.stmt (trimLine rawLine)
    have htrim : (trimLine rawLine).length ≤ rawLine.length := Checked.length_trimBoth_le _ rawLine
    simp only [Body.strings, List.flatMap_append, List.flatMap_singleton, extent_append, stepLine,
      lineNext] at hflush ⊢
    omega

theorem extent_body (bodyLines : List Bytes) (b : Body) :
    ∃ repaired ≤ 2 * bodyLines.length, repaired ≤ (faultsAlong bodyNext bodyFaults b bodyLines).length ∧
      extent (bodyLines.foldl bodyNext b).strings ≤
        extent b.strings + extent bodyLines + repaired := by
  induction bodyLines generalizing b with
  | nil => exact ⟨0, Nat.zero_le _, Nat.zero_le _, Nat.le_refl _⟩
  | cons line bodyLines ih =>
      obtain ⟨first, hfirst, hfaults, hline⟩ := extent_bodyNext b line
      obtain ⟨later, hlater, hfaults', hlines⟩ := ih (bodyNext b line)
      refine ⟨first + later, ?_, ?_, ?_⟩
      · rw [List.length_cons]
        omega
      · rw [faultsAlong, List.length_append]
        exact Nat.add_le_add hfaults hfaults'
      · rw [List.foldl_cons, extent_cons]
        omega

theorem extent_close (b : Body) :
    extent ((b.close.statements ++ b.close.healedDraft).flatMap Statement.strings) ≤
      extent b.strings := by
  have hpush := extent_push b {} rfl
  unfold Body.close
  split
  · refine Nat.le_trans ?_ (Nat.le_of_eq hpush)
    simp [Body.strings]
  · simp [Body.strings]

/-! ## The header -/

theorem extent_setField (h : Header) (key val : Bytes) :
    extent (h.setField key val).strings ≤ extent h.strings + val.length := by
  unfold Header.setField
  split_ifs <;> simp only [Header.strings, extent_cons, extent_nil] <;> omega

theorem extent_headerNext (h : Header) (token : Bytes) :
    extent (headerNext h token).strings ≤ extent h.strings + token.length := by
  unfold headerNext
  split
  · exact Nat.le_add_right _ _
  · rename_i colon hfind
    have hset := extent_setField h (token.take colon) (token.drop (colon + 1))
    rw [List.length_drop] at hset
    omega

theorem extent_header (tokens : List Bytes) (h : Header) :
    extent (tokens.foldl headerNext h).strings ≤ extent h.strings + extent tokens := by
  induction tokens generalizing h with
  | nil => exact Nat.le_refl _
  | cons token tokens ih =>
      have hfirst := extent_headerNext h token
      have hrest := ih (headerNext h token)
      rw [List.foldl_cons, extent_cons]
      omega

theorem extent_foldHeader (headerLine : Bytes) (rest : List Bytes) :
    (foldHeader headerLine rest).1.length + lineLength (foldHeader headerLine rest).2 ≤
      headerLine.length + lineLength rest := by
  induction rest generalizing headerLine with
  | nil => exact Nat.le_refl _
  | cons line rest ih =>
      have htrim := length_trim_le line
      unfold foldHeader
      dsimp only
      split_ifs
      · have hrest := ih headerLine
        rw [lineLength_cons]
        omega
      · have hrest := ih (headerLine ++ ascii " " ++ trim line)
        rw [List.length_append, List.length_append] at hrest
        rw [lineLength_cons]
        change _ ≤ _ + 1 + _ + _ at hrest
        omega
      · exact Nat.le_refl _

theorem length_parts {payload : Bytes} {parts : Bytes × List Bytes}
    (h : frameParts payload = some parts) : parts.1.length + lineLength parts.2 ≤ payload.length := by
  obtain ⟨line, rest, hlines, rfl⟩ := lines_of_frameParts h
  have hfold := extent_foldHeader (trim line) rest
  have htrim := length_trim_le line
  have hroom : lineLength (lines payload) ≤ payload.length + 1 :=
    Lib.Split.length_splitTerminated _ payload
  rw [hlines, lineLength_cons] at hroom
  omega

theorem lineLength_eq (tokens : List Bytes) : lineLength tokens = extent tokens + tokens.length := by
  induction tokens with
  | nil => rfl
  | cons t tokens ih =>
      rw [lineLength_cons, ih, extent_cons, List.length_cons]
      omega

/-! ## The frame -/

theorem extent_readParts {payload : Bytes} {parts : Bytes × List Bytes}
    (h : frameParts payload = some parts) :
    extent (readParts payload parts).strings ≤ 2 * payload.length ∧
      (partsFaults parts = [] → extent (readParts payload parts).strings ≤ payload.length) := by
  have hroom := length_parts h
  have hlines := lineLength_eq parts.2
  have htokens := extent_lexSplit ' '.toUInt8 parts.1
  have hheader := extent_header (headerTokens parts.1) {}
  obtain ⟨repaired, hfew, hfaults, hbody⟩ := extent_body parts.2 {}
  have hclose := extent_close (readBody parts.2)
  have hnothing : extent ({} : Body).strings = 0 ∧ extent ({} : Header).strings = 0 := ⟨rfl, rfl⟩
  have hall : extent (readParts payload parts).strings ≤
      parts.1.length + extent parts.2 + repaired := by
    simp only [AST.strings, readParts, extent_append, readHeader, headerTokens, readBody]
      at hheader hclose hbody ⊢
    omega
  refine ⟨by omega, fun hclean => ?_⟩
  rw [(List.append_eq_nil_iff.mp hclean).2, List.length_nil] at hfaults
  omega

theorem extent_readFrame (maxSize : Nat) (payload : Bytes) :
    extent (readFrame maxSize payload).1.strings ≤ 2 * min maxSize payload.length ∧
      ((readFrame maxSize payload).2 = [] →
        extent (readFrame maxSize payload).1.strings ≤ payload.length) := by
  unfold readFrame
  split
  · exact ⟨Nat.zero_le _, fun _ => Nat.zero_le _⟩
  · rename_i hsize
    rw [Nat.min_eq_right (Nat.le_of_not_lt hsize)]
    cases hparts : frameParts payload with
    | none => exact ⟨Nat.zero_le _, fun _ => Nat.zero_le _⟩
    | some parts => exact extent_readParts hparts

/-- Parsing does not amplify: all strings of the frame together are at most twice as long as
the payload, and no longer than the payload when there was nothing to complain about. -/
theorem parsed_strings_bounded {mode : Mode} {maxSize : Nat} {payload : Bytes} {ast : AST}
    (h : parse mode maxSize payload = .ok ast) :
    extent ast.strings ≤ 2 * min maxSize payload.length ∧
      (ast.diagnostic = [] → extent ast.strings ≤ payload.length) := by
  have hread := extent_readFrame maxSize payload
  cases mode with
  | strict =>
      obtain ⟨hclean, -, rfl⟩ := parse_strict_eq_ok.mp h
      exact ⟨hread.1, fun _ => hread.2 hclean⟩
  | tolerant =>
      rw [parse_tolerant] at h
      cases h
      exact ⟨hread.1, fun hnone => hread.2 (diagnostic_eq_nil.mp hnone)⟩

/-- An unclosed role and an unclosed quote are completed, one byte for each. -/
theorem parsed_strings_bounded_repaired :
    ∃ ast, parse .tolerant 1048576 (ascii "VER:2\n[A\n[B k:\"v") = .ok ast ∧
      ast.healedDraft.length = 2 ∧ extent ast.strings ≤ 2 * min 1048576 16 ∧
      (ast.diagnostic = [] → extent ast.strings ≤ 16) := by
  have hrun : (parse .tolerant 1048576 (ascii "VER:2\n[A\n[B k:\"v")).toOption.any
      (fun ast => ast.healedDraft.length == 2) = true := by
    decide +kernel
  obtain ⟨ast, hparse, h⟩ := exists_of_parse_any hrun
  exact ⟨ast, hparse, beq_iff_eq.mp h, parsed_strings_bounded hparse⟩

end LlmTop
