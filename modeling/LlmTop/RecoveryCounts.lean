import LlmTop.Recovery
import LlmTop.StatementKeys

/-!
# What recovery counts

The statements of a parsed frame that count as recovered: all of them, unless a
role line has nothing between its brackets and nothing comes of its lines.
-/
namespace LlmTop
open Lib.Faults

/-- The errors that are counted in a diagnostic. -/
def diagnosticCount (diagnostic : Bytes) : Nat :=
  if diagnostic.isEmpty then 0 else 1 + countSeparators diagnostic

theorem analyzeAndRecover_counts (timestamp : Bytes) (ast : AST) (originalPayload : Bytes) :
    (analyzeAndRecover timestamp ast originalPayload).statementsTotal = ast.statements.length ∧
      (analyzeAndRecover timestamp ast originalPayload).statementsRecovered =
        ast.statements.countP isRecovered ∧
      (analyzeAndRecover timestamp ast originalPayload).errorsFound =
        diagnosticCount ast.diagnostic := by
  unfold analyzeAndRecover diagnosticCount
  cases ast.diagnostic.isEmpty with
  | true => exact ⟨rfl, rfl, rfl⟩
  | false =>
      have herrors : ¬ (1 + countSeparators ast.diagnostic : Int) = 0 := by omega
      simp only [Bool.false_eq_true, if_false, if_neg herrors]
      split <;> exact ⟨rfl, rfl, rfl⟩

/-- The statement has a role, a key or a tool call. -/
def Statement.HasContent (stmt : Statement) : Prop :=
  stmt.role ≠ [] ∨ stmt.kvpairs.data ≠ [] ∨ stmt.toolCalls ≠ []

theorem isRecovered_iff {stmt : Statement} : isRecovered stmt = true ↔ stmt.HasContent := by
  simp [isRecovered, Statement.HasContent, or_assoc]

/-! ## The statement of a group -/

theorem contributes_iff {group : List Bytes} :
    contributes group = true ↔ group.flatMap lineKeys ≠ [] ∨ groupCalls group ≠ [] := by
  have hkeys : group.flatMap lineKeys ≠ [] ↔ ∃ line ∈ group, lineKeys line ≠ [] := by
    simp [List.flatMap_eq_nil_iff]
  have hcalls : groupCalls group ≠ [] ↔ ∃ line ∈ group, isToolLine line = true := by
    simp [groupCalls, List.filter_eq_nil_iff]
  rw [hkeys, hcalls, contributes, List.any_eq_true, ← exists_or]
  refine exists_congr fun line => ?_
  cases isToolLine line <;> cases lineKeys line <;> simp

theorem groupStatement_hasContent {group : List Bytes} :
    (groupStatement group).HasContent ↔ groupRole group ≠ [] ∨ contributes group = true := by
  have hdata : (groupStatement group).kvpairs.data ≠ [] ↔ group.flatMap lineKeys ≠ [] := by
    have hempty : ∀ {data : List (Bytes × Bytes)}, data = [] ↔ keysOf data = [] :=
      List.map_eq_nil_iff.symm
    have hkeys : keysOf (groupStatement group).kvpairs.data = [] ↔ keysOf (groupPairs group) = [] := by
      rw [List.eq_nil_iff_forall_not_mem, List.eq_nil_iff_forall_not_mem]
      exact forall_congr' fun key => not_congr OrderedMap.mem_keysOf_ofPairs
    rw [← keysOf_groupPairs, not_iff_not, hempty, hkeys]
  rw [contributes_iff, Statement.HasContent, hdata]
  rfl

/-- The role line of the group has nothing between its brackets. -/
def EmptyRole (group : List Bytes) : Prop :=
  ∃ line ∈ group.head?, isRoleLine line = true ∧ roleOf line = []

theorem mem_groupsOf {lines group : List Bytes} (h : group ∈ groupsOf lines) :
    contributes group = true ∨ ∃ line ∈ group.head?, isRoleLine line = true := by
  unfold groupsOf at h
  dsimp only at h
  have hgroup : ∀ group ∈ (Lib.Split.cutBefore isRoleLine lines).2,
      ∃ line ∈ group.head?, isRoleLine line = true := by
    intro group hgroup
    obtain ⟨line, rest, rfl, hline, -⟩ := Lib.Split.cutBefore_group isRoleLine lines group hgroup
    exact ⟨line, rfl, hline⟩
  split at h
  · rename_i hlead
    rcases List.mem_cons.mp h with rfl | h
    · exact Or.inl hlead
    · exact Or.inr (hgroup group h)
  · exact Or.inr (hgroup group h)

theorem groupRole_of_head {group : List Bytes} {line : Bytes} (hhead : line ∈ group.head?)
    (hline : isRoleLine line = true) : groupRole group = roleOf line := by
  obtain ⟨rest, rfl⟩ := List.head?_eq_some_iff.mp hhead
  rw [groupRole, List.find?_cons, hline]
  rfl

/-- A statement comes out empty only behind a role line without a role. -/
theorem hasContent_of_mem {lines group : List Bytes} (h : group ∈ groupsOf lines) :
    (groupStatement group).HasContent ↔ (EmptyRole group → contributes group = true) := by
  rw [groupStatement_hasContent]
  rcases mem_groupsOf h with hcontributes | ⟨line, hhead, hline⟩
  · simp [hcontributes]
  · have hempty : EmptyRole group ↔ roleOf line = [] := by
      constructor
      · rintro ⟨other, hother, -, hrole⟩
        rwa [Option.mem_unique hhead hother]
      · exact fun hrole => ⟨line, hhead, hline, hrole⟩
    rw [groupRole_of_head hhead hline, hempty]
    tauto

/-- Every statement of a parse counts as recovered exactly when each role line
with an empty role has a key or a tool call on the lines of its statement. -/
theorem statements_recovered_iff {mode : Mode} {maxSize : Nat} {payload : Bytes} {ast : AST}
    (h : parse mode maxSize payload = .ok ast) (timestamp originalPayload : Bytes) :
    ((∀ stmt ∈ ast.statements ++ ast.healedDraft, stmt.HasContent) ∧
      (analyzeAndRecover timestamp ast originalPayload).statementsRecovered =
        (analyzeAndRecover timestamp ast originalPayload).statementsTotal) ↔
      ∀ group ∈ statementGroups maxSize payload, EmptyRole group → contributes group = true := by
  obtain ⟨htotal, hrecovered, -⟩ := analyzeAndRecover_counts timestamp ast originalPayload
  have hgroups : (∀ stmt ∈ ast.statements ++ ast.healedDraft, stmt.HasContent) ↔
      ∀ group ∈ statementGroups maxSize payload, EmptyRole group → contributes group = true := by
    have hperm := statements_perm h
    constructor
    · intro hall group hgroup
      refine (hasContent_of_mem hgroup).mp (hall _ (hperm.mem_iff.mpr ?_))
      exact List.mem_map_of_mem hgroup
    · intro hall stmt hstmt
      obtain ⟨group, hgroup, rfl⟩ := List.mem_map.mp (hperm.mem_iff.mp hstmt)
      exact (hasContent_of_mem hgroup).mpr (hall group hgroup)
  rw [← hgroups, htotal, hrecovered, Nat.cast_inj, List.countP_eq_length]
  refine and_iff_left_of_imp fun hall stmt hstmt => isRecovered_iff.mpr (hall stmt ?_)
  exact List.mem_append_left _ hstmt

def keyedFrame : Bytes := ascii "VER:2 CHK:sha256:0 AGT:a REQID:r\n[] k:v\n[A]"

theorem keyed_parse : parse .strict 1048576 keyedFrame = .ok (readFrame 1048576 keyedFrame).1 :=
  parse_strict_eq_ok.mpr ⟨by decide, by decide, rfl⟩

theorem keyed_recovered :
    (analyzeAndRecover [] (readFrame 1048576 keyedFrame).1 []).statementsRecovered =
      (analyzeAndRecover [] (readFrame 1048576 keyedFrame).1 []).statementsTotal := by
  refine ((statements_recovered_iff keyed_parse [] []).mpr fun group hgroup hempty => ?_).2
  have hgroups : ∀ group ∈ statementGroups 1048576 keyedFrame,
      contributes group = true ∨ group = [ascii "[A]"] := by decide
  rcases hgroups group hgroup with hcontributes | rfl
  · exact hcontributes
  · obtain ⟨line, hline, -, hrole⟩ := hempty
    obtain rfl := Option.mem_some_iff.mp hline
    exact absurd hrole (by decide)

/-- A role line without a role, and nothing else. -/
def namelessFrame : Bytes := ascii "VER:2 CHK:sha256:0 AGT:a REQID:r\n[]"

/-- The frame is accepted, and its one statement does not count. -/
theorem nameless_not_recovered :
    ∃ ast, parse .strict 1048576 namelessFrame = .ok ast ∧
      (∃ stmt ∈ ast.statements, ¬ stmt.HasContent) ∧
      (analyzeAndRecover [] ast []).statementsRecovered = 0 ∧
      (analyzeAndRecover [] ast []).statementsTotal = 1 := by
  have hrun : (parse .strict 1048576 namelessFrame).toOption.any (fun ast =>
      ast.statements.any (!isRecovered ·) &&
        (analyzeAndRecover [] ast []).statementsRecovered == 0 &&
        (analyzeAndRecover [] ast []).statementsTotal == 1) = true := by decide
  obtain ⟨ast, hparse, h⟩ := exists_of_parse_any hrun
  simp only [Bool.and_eq_true, List.any_eq_true, beq_iff_eq] at h
  obtain ⟨⟨⟨stmt, hstmt, hnone⟩, hrecovered⟩, htotal⟩ := h
  refine ⟨ast, hparse, ⟨stmt, hstmt, fun hcontent => ?_⟩, hrecovered, htotal⟩
  rw [isRecovered_iff.mpr hcontent] at hnone
  contradiction

end LlmTop
