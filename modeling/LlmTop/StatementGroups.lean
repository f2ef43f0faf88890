import LlmTop.Attribution

/-!
# One statement for each group

The body lines cut in front of every role line, and the statement that a group
of lines stands for, read off the group at once.
-/
namespace LlmTop
open Lib.Faults

/-! ## The statement of a group -/

/-- The text between the brackets of a role line. -/
def roleOf (line : Bytes) : Bytes :=
  ((closedRole (closeQuote line)).drop 1).takeWhile (· != ']'.toUInt8)

def groupRole (group : List Bytes) : Bytes := ((group.find? isRoleLine).map roleOf).getD []

/-- The key/value pairs on the lines that are no tool calls. -/
def groupPairs (group : List Bytes) : List (Bytes × Bytes) :=
  ((group.filter (!isToolLine ·)).flatMap lineTokens).filterMap fun token =>
    (splitToken token).map fun pair => (pair.1, unquoteAndUnescape pair.2)

def groupCalls (group : List Bytes) : List ToolCall :=
  (group.filter isToolLine).map fun line => toolOf (closeQuote line)

def groupStatement (group : List Bytes) : Statement where
  role := groupRole group
  kvpairs := OrderedMap.ofPairs (groupPairs group)
  toolCalls := groupCalls group

/-- The lead counts when it has a key or a tool call. -/
def groupsOf (lines : List Bytes) : List (List Bytes) :=
  let (lead, groups) := Lib.Split.cutBefore isRoleLine lines
  if contributes lead then lead :: groups else groups

/-- The body lines that are not blank, trimmed. -/
def bodyContent (maxSize : Nat) (payload : Bytes) : List Bytes :=
  if maxSize < payload.length then []
  else ((frameParts payload).map fun parts => contentLines parts.2).getD []

def statementGroups (maxSize : Nat) (payload : Bytes) : List (List Bytes) :=
  groupsOf (bodyContent maxSize payload)

theorem bodyContent_parts {maxSize : Nat} {payload : Bytes} {parts : Bytes × List Bytes}
    (hsize : payload.length ≤ maxSize) (hparts : frameParts payload = some parts) :
    bodyContent maxSize payload = contentLines parts.2 := by
  unfold bodyContent
  rw [if_neg (Nat.not_lt.mpr hsize), hparts]
  rfl

/-! ## A run over the lines of a group -/

/-- The role that the parser cuts out by positions. -/
theorem substr_role {line : Bytes} (h : isRoleLine line = true) :
    Lib.Search.substr (closedRole line) 1 (roleStop line - 1) =
      ((closedRole line).drop 1).takeWhile (· != ']'.toUInt8) := by
  have hline : line.head? = some '['.toUInt8 := beq_iff_eq.mp h
  have hhead : (closedRole line).head? = some '['.toUInt8 := by
    unfold closedRole
    split
    · exact head?_closeRole hline
    · exact hline
  obtain ⟨before, rest, heq, hbefore, hstop⟩ := Lib.Search.find_eq_some.mp (find_closedRole line)
  rw [heq] at hhead
  cases before with
  | nil =>
      have hclose : ']'.toUInt8 = '['.toUInt8 := Option.some.inj hhead
      exact absurd hclose (by decide)
  | cons c before =>
      have hclose : ']'.toUInt8 ∉ before := fun hmem => hbefore (List.mem_cons_of_mem c hmem)
      rw [heq, ← hstop, Lib.Search.substr, List.cons_append, List.drop_succ_cons, List.drop_zero,
        List.length_cons, Nat.add_sub_cancel, List.take_left,
        Lib.Search.takeWhile_append_cons rest hclose]

theorem lineStatement_role (stmt : Statement) (line : Bytes) :
    (lineStatement stmt line).role = if isRoleLine line then roleOf line else stmt.role := by
  unfold lineStatement
  dsimp only
  rw [isRoleLine_closeQuote]
  cases hrole : isRoleLine line with
  | true => exact substr_role (by rw [isRoleLine_closeQuote, hrole])
  | false =>
      rw [if_neg Bool.false_ne_true, if_neg Bool.false_ne_true]
      split <;> rfl

theorem lineStatement_toolCalls (stmt : Statement) (line : Bytes) :
    (lineStatement stmt line).toolCalls = stmt.toolCalls ++ groupCalls [line] := by
  unfold lineStatement groupCalls
  dsimp only
  rw [isRoleLine_closeQuote, isToolLine_closeQuote]
  cases hrole : isRoleLine line with
  | true => simp [isToolLine_of_role hrole, roleStatement]
  | false => cases htool : isToolLine line <;> simp [htool]

/-- The pairs that a splitter reads off tokens. -/
def pairsOf (split : Bytes → Option (Bytes × Bytes)) (tokens : List Bytes) : List (Bytes × Bytes) :=
  tokens.filterMap fun token => (split token).map fun pair => (pair.1, unquoteAndUnescape pair.2)

theorem foldl_pairNext (split : Bytes → Option (Bytes × Bytes)) (tokens : List Bytes) (pairs : OrderedMap) :
    tokens.foldl (pairNext split) pairs =
      (pairsOf split tokens).foldl (fun m pair => m.set pair.1 pair.2) pairs := by
  unfold pairsOf
  induction tokens generalizing pairs with
  | nil => rfl
  | cons token tokens ih =>
      rw [List.foldl_cons, ih, pairNext]
      cases hsplit : split token with
      | none => rw [List.filterMap_cons_none (by rw [hsplit]; rfl)]
      | some pair => rw [List.filterMap_cons_some (by rw [hsplit]; rfl), List.foldl_cons]

theorem foldl_kvNext (tokens : List Bytes) (pairs : OrderedMap) :
    tokens.foldl kvNext pairs =
      (pairsOf splitToken tokens).foldl (fun m pair => m.set pair.1 pair.2) pairs :=
  foldl_pairNext splitToken tokens pairs

theorem flatMap_lineTokens (lines : List Bytes) :
    lines.flatMap lineTokens = (lines.filter (!isToolLine ·)).flatMap lineTokens := by
  induction lines with
  | nil => rfl
  | cons line lines ih =>
      rw [List.flatMap_cons, List.filter_cons, ih]
      cases htool : isToolLine line with
      | true => simp [lineTokens_of_tool htool]
      | false => simp

theorem run_kvpairs (lines : List Bytes) (stmt : Statement) :
    (lines.foldl lineStatement stmt).kvpairs = (lines.flatMap lineTokens).foldl kvNext stmt.kvpairs := by
  induction lines generalizing stmt with
  | nil => rfl
  | cons line lines ih =>
      rw [List.foldl_cons, ih, lineStatement_kvpairs, List.flatMap_cons, List.foldl_append]

theorem groupCalls_cons (line : Bytes) (lines : List Bytes) :
    groupCalls (line :: lines) = groupCalls [line] ++ groupCalls lines := by
  rw [groupCalls, ← List.singleton_append, List.filter_append, List.map_append]
  rfl

theorem run_toolCalls (lines : List Bytes) (stmt : Statement) :
    (lines.foldl lineStatement stmt).toolCalls = stmt.toolCalls ++ groupCalls lines := by
  induction lines generalizing stmt with
  | nil => exact (List.append_nil _).symm
  | cons line lines ih =>
      rw [List.foldl_cons, ih, lineStatement_toolCalls, groupCalls_cons line lines,
        List.append_assoc]

theorem run_role {lines : List Bytes} (h : ∀ line ∈ lines, isRoleLine line = false)
    (stmt : Statement) : (lines.foldl lineStatement stmt).role = stmt.role := by
  induction lines generalizing stmt with
  | nil => rfl
  | cons line lines ih =>
      obtain ⟨hline, hlines⟩ := List.forall_mem_cons.mp h
      rw [List.foldl_cons, ih hlines, lineStatement_role, hline]
      rfl

/-- At most the first line of a group is a role line. -/
def OneRole (group : List Bytes) : Prop := ∀ line ∈ group.tail, isRoleLine line = false

theorem segment_statement {group : List Bytes} (h : OneRole group) :
    group.foldl lineStatement Statement.empty = groupStatement group := by
  have hrole : (group.foldl lineStatement Statement.empty).role = groupRole group := by
    cases group with
    | nil => rfl
    | cons line lines =>
        have hrest : ∀ other ∈ lines, isRoleLine other = false := h
        rw [List.foldl_cons, run_role hrest, lineStatement_role, groupRole, List.find?_cons]
        cases isRoleLine line with
        | true => rfl
        | false =>
            have hnone : lines.find? isRoleLine = none := by
              rw [List.find?_eq_none]
              exact fun other hother => Bool.eq_false_iff.mp (hrest other hother)
            dsimp only
            rw [hnone]
            rfl
  have hpairs := run_kvpairs group Statement.empty
  have hcalls := run_toolCalls group Statement.empty
  rw [foldl_kvNext, flatMap_lineTokens] at hpairs
  generalize group.foldl lineStatement Statement.empty = stmt at hrole hpairs hcalls
  obtain ⟨role, kvpairs, toolCalls⟩ := stmt
  simp only at hrole hpairs hcalls
  rw [hrole, hpairs, hcalls]
  rfl

/-! ## The groups -/

theorem oneRole_of_mem {lines group : List Bytes} (h : group ∈ groupsOf lines) : OneRole group := by
  have hgroup : group = (Lib.Split.cutBefore isRoleLine lines).1 ∨
      group ∈ (Lib.Split.cutBefore isRoleLine lines).2 := by
    unfold groupsOf at h
    dsimp only at h
    split at h
    · exact List.mem_cons.mp h
    · exact Or.inr h
  rcases hgroup with rfl | hgroup
  · exact fun line hline =>
      Lib.Split.cutBefore_lead isRoleLine lines line (List.mem_of_mem_tail hline)
  · obtain ⟨first, rest, rfl, -, hrest⟩ := Lib.Split.cutBefore_group isRoleLine lines group hgroup
    exact hrest

theorem map_lines_segmentsOf (lines : List Bytes) :
    (segmentsOf lines).map Segment.lines = groupsOf lines := by
  have hgroups : ∀ groups : List (List Bytes),
      (groups.map fun group => (⟨group, false⟩ : Segment)).map Segment.lines = groups := by
    intro groups
    rw [List.map_map]
    exact List.map_id groups
  unfold segmentsOf groupsOf
  dsimp only
  split
  · rw [List.map_cons, hgroups]
  · cases (Lib.Split.cutBefore isRoleLine lines).2 with
    | nil => rfl
    | cons group groups =>
        dsimp only
        rw [List.map_cons, hgroups]

theorem segments_eq (maxSize : Nat) (payload : Bytes) :
    segments maxSize payload = segmentsOf (bodyContent maxSize payload) := by
  unfold segments bodyContent
  split
  · rfl
  · cases frameParts payload <;> rfl

theorem statement_of_mem {maxSize : Nat} {payload : Bytes} {s : Segment}
    (h : s ∈ segments maxSize payload) : s.statement = groupStatement s.lines := by
  refine segment_statement (@oneRole_of_mem (bodyContent maxSize payload) _ ?_)
  rw [← map_lines_segmentsOf, ← segments_eq]
  exact List.mem_map_of_mem h

/-- What is read off line by line is read off the groups, when a lead that is
left out yields none of it. -/
theorem flatMap_groupsOf {β : Type} {f : Bytes → List β}
    (hf : ∀ line, f line ≠ [] → contributes [line] = true) (lines : List Bytes) :
    (groupsOf lines).flatMap (fun group => group.flatMap f) = lines.flatMap f := by
  have hlines := Lib.Split.cutBefore_flatten isRoleLine lines
  have hflat : ∀ groups : List (List Bytes),
      groups.flatMap (fun group => group.flatMap f) = groups.flatten.flatMap f := by
    intro groups
    rw [← List.flatMap_id, List.flatMap_assoc]
    rfl
  unfold groupsOf
  dsimp only
  split
  · rw [hflat, List.flatten_cons, hlines]
  · rename_i hlead
    have hnone : (Lib.Split.cutBefore isRoleLine lines).1.flatMap f = [] := by
      rw [List.flatMap_eq_nil_iff]
      intro line hline
      by_contra hne
      have hcounts := hf line hne
      rw [contributes, List.any_cons, List.any_nil, Bool.or_false] at hcounts
      exact hlead (List.any_eq_true.mpr ⟨line, hline, hcounts⟩)
    calc (Lib.Split.cutBefore isRoleLine lines).2.flatMap (fun group => group.flatMap f)
        = (Lib.Split.cutBefore isRoleLine lines).1.flatMap f ++
            (Lib.Split.cutBefore isRoleLine lines).2.flatten.flatMap f := by
          rw [hflat, hnone, List.nil_append]
      _ = lines.flatMap f := by rw [← List.flatMap_append, hlines]

theorem groupCalls_lines (group : List Bytes) :
    groupCalls group = group.flatMap fun line => groupCalls [line] := by
  induction group with
  | nil => rfl
  | cons line lines ih => rw [groupCalls_cons, ih, List.flatMap_cons]

/-- Every tool line is in a group, once and in order. -/
theorem flatMap_groupCalls (lines : List Bytes) :
    (groupsOf lines).flatMap groupCalls = groupCalls lines := by
  have htool : ∀ line, groupCalls [line] ≠ [] → contributes [line] = true := by
    intro line hcalls
    by_contra hnone
    cases hline : isToolLine line with
    | true => exact hnone (by simp [contributes, hline])
    | false => exact hcalls (by simp [groupCalls, hline])
  have hgroups := flatMap_groupsOf htool lines
  simp only [← groupCalls_lines] at hgroups
  exact hgroups

/-! ## The parse -/

theorem parse_lists {mode : Mode} {maxSize : Nat} {payload : Bytes} {ast : AST}
    (h : parse mode maxSize payload = .ok ast) :
    ast.statements = (trusted maxSize payload).map Segment.statement ∧
      ast.healedDraft = (quarantined maxSize payload).map Segment.statement := by
  obtain ⟨tolerant, hparsed, hstatements, hdraft, -⟩ := attributed maxSize payload
  rw [parse_tolerant] at hparsed
  obtain rfl := Except.ok.inj hparsed
  cases mode with
  | tolerant =>
      rw [parse_tolerant] at h
      obtain rfl := Except.ok.inj h
      exact ⟨hstatements, hdraft⟩
  | strict =>
      obtain ⟨-, -, rfl⟩ := parse_strict_eq_ok.mp h
      exact ⟨hstatements, hdraft⟩

theorem parse_groups {mode : Mode} {maxSize : Nat} {payload : Bytes} {ast : AST}
    (h : parse mode maxSize payload = .ok ast) :
    ast.statements = (trusted maxSize payload).map (fun s => groupStatement s.lines) ∧
      ast.healedDraft = (quarantined maxSize payload).map (fun s => groupStatement s.lines) := by
  obtain ⟨hstatements, hdraft⟩ := parse_lists h
  rw [hstatements, hdraft]
  exact ⟨List.map_congr_left fun s hs => statement_of_mem (List.mem_filter.mp hs).1,
    List.map_congr_left fun s hs => statement_of_mem (List.mem_filter.mp hs).1⟩

theorem map_lines_segments (maxSize : Nat) (payload : Bytes) :
    (segments maxSize payload).map Segment.lines = statementGroups maxSize payload := by
  rw [segments_eq, map_lines_segmentsOf, statementGroups]

/-- One statement for each group, in one of the two lists. -/
theorem statements_perm {mode : Mode} {maxSize : Nat} {payload : Bytes} {ast : AST}
    (h : parse mode maxSize payload = .ok ast) :
    (ast.statements ++ ast.healedDraft).Perm
      ((statementGroups maxSize payload).map groupStatement) := by
  obtain ⟨htrusted, hhealed⟩ := parse_groups h
  have hsplit : (quarantined maxSize payload ++ trusted maxSize payload).Perm
      (segments maxSize payload) :=
    List.filter_append_perm Segment.quarantined (segments maxSize payload)
  rw [htrusted, hhealed, ← map_lines_segments, List.map_map, ← List.map_append]
  exact (List.perm_append_comm.trans hsplit).map _

/-- An accepted frame has one statement for each group, in order. -/
theorem strict_statements {maxSize : Nat} {payload : Bytes} {ast : AST}
    (h : parse .strict maxSize payload = .ok ast) :
    ast.statements = (statementGroups maxSize payload).map groupStatement := by
  obtain ⟨htrusted, hhealed⟩ := parse_groups h
  have hnone : quarantined maxSize payload = [] := by
    obtain ⟨hclean, -, rfl⟩ := parse_strict_eq_ok.mp h
    rw [(readFrame_clean hclean).1] at hhealed
    exact List.map_eq_nil_iff.mp hhealed.symm
  have hall : trusted maxSize payload = segments maxSize payload := by
    apply List.filter_eq_self.mpr
    intro s hs
    have hnot := List.filter_eq_nil_iff.mp hnone s hs
    simpa using hnot
  rw [htrusted, hall, ← map_lines_segments, List.map_map]
  rfl

/-- An accepted frame has the calls of its tool lines, in order. -/
theorem strict_calls {maxSize : Nat} {payload : Bytes} {ast : AST}
    (h : parse .strict maxSize payload = .ok ast) :
    ast.statements.flatMap Statement.toolCalls = groupCalls (bodyContent maxSize payload) := by
  rw [strict_statements h, List.flatMap_map, ← flatMap_groupCalls, statementGroups]
  rfl

/-- The statements of a parse are those of the groups, one for each, the healed
ones apart and both lists in order; every tool line is a call of its own group,
and the last of two equal keys wins. -/
theorem statements_of_groups {mode : Mode} {maxSize : Nat} {payload : Bytes} {ast : AST}
    (h : parse mode maxSize payload = .ok ast) :
    (segments maxSize payload).map Segment.lines = statementGroups maxSize payload ∧
      ast.statements = (trusted maxSize payload).map (fun s => groupStatement s.lines) ∧
      ast.healedDraft = (quarantined maxSize payload).map (fun s => groupStatement s.lines) ∧
      (ast.statements ++ ast.healedDraft).Perm
        ((statementGroups maxSize payload).map groupStatement) ∧
      (statementGroups maxSize payload).flatMap (fun group => (groupStatement group).toolCalls) =
        groupCalls (bodyContent maxSize payload) ∧
      ∀ group key, (groupStatement group).kvpairs.find key =
        (groupPairs group).reverse.lookup key := by
  obtain ⟨htrusted, hhealed⟩ := parse_groups h
  exact ⟨map_lines_segments maxSize payload, htrusted, hhealed, statements_perm h,
    flatMap_groupCalls _, fun group key => OrderedMap.find_ofPairs (groupPairs group) key⟩

def mixedGroupsFrame : Bytes :=
  ascii "VER:2 CHK:sha256:0 AGT:a REQID:r\nk:v\n\n[A] x:1 x:2\n!ls[]\n[B]"

/-- A lead with a key, a group with a key twice and a role without lines. -/
theorem mixed_groups_statements :
    ∃ ast, parse .tolerant 1048576 mixedGroupsFrame = .ok ast ∧
      (ast.statements ++ ast.healedDraft).Perm
        ((statementGroups 1048576 mixedGroupsFrame).map groupStatement) :=
  ⟨_, parse_tolerant _ _, (statements_of_groups (parse_tolerant _ _)).2.2.2.1⟩

end LlmTop
