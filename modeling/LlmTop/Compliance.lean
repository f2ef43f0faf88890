import LlmTop.Evaluator

/-!
# What counts as valid

The measuring program reports a payload as valid from what the parser and the
schema validator say.  Here is what that stands for in terms of the frame, and
that the mode of the parser changes it only for frames without a checksum.
-/
namespace LlmTop
open Lib Lib.Faults

/-! ## Conforming statements -/

theorem mem_of_reached {stmt : Statement} {fields : List FieldSchema} {field : FieldSchema}
    (h : field ∈ reachedFields stmt fields) : field ∈ fields := by
  rcases List.mem_append.mp h with h | h
  · exact (List.takeWhile_sublist _).subset h
  · exact (List.dropWhile_sublist _).subset ((List.take_sublist 1 _).subset h)

/-- A role, and if the role is known, its required fields and only its tools. -/
structure Statement.Conforms (stmt : Statement) : Prop where
  role : stmt.role ≠ []
  fields : ∀ schema, schemas.lookup stmt.role = some schema →
    ∀ field ∈ schema.requiredFields, field.present stmt = true
  tools : ∀ schema, schemas.lookup stmt.role = some schema →
    ∀ tool ∈ stmt.toolCalls, schema.allows tool = true

/-- The header fields without which nothing is validated. -/
structure Header.Identified (h : Header) : Prop where
  ver : h.ver ≠ []
  agt : h.agt ≠ []
  reqid : h.reqid ≠ []

namespace SchemaValidator

variable {v : SchemaValidator} (hinband : v.requireInbandCapabilities = false)

include hinband

theorem fieldErrors_eq_nil_iff {label : Bytes} {stmt : Statement} {field : FieldSchema} :
    v.fieldErrors label stmt field = [] ↔ field.present stmt = true := by
  unfold fieldErrors FieldSchema.present
  cases stmt.kvpairs.find field.name with
  | none => simp
  | some value => simp [hinband]

theorem statementErrors_eq_nil (e : Located) : v.statementErrors e = [] ↔ e.stmt.Conforms := by
  unfold statementErrors
  cases hrole : e.stmt.role.isEmpty with
  | true =>
      refine iff_of_false (List.cons_ne_nil _ _) fun h => h.role (List.isEmpty_iff.mp hrole)
  | false =>
      have hne : e.stmt.role ≠ [] := by simpa using hrole
      rw [if_neg Bool.false_ne_true]
      cases hlookup : schemas.lookup e.stmt.role with
      | none =>
          refine iff_of_true rfl ⟨hne, fun schema h => ?_, fun schema h => ?_⟩ <;>
          · rw [hlookup] at h
            contradiction
      | some schema =>
          dsimp only
          rw [List.append_eq_nil_iff, List.flatMap_eq_nil_iff]
          constructor
          · rintro ⟨hreached, htools⟩
            have hall := all_of_reached fun field hfield =>
              (fieldErrors_eq_nil_iff hinband).mp (hreached field hfield)
            rw [if_pos hall, toolErrors_eq_nil] at htools
            refine ⟨hne, fun schema' h => ?_, fun schema' h => ?_⟩ <;>
              obtain rfl := Option.some.inj (hlookup.symm.trans h)
            · exact List.all_eq_true.mp hall
            · exact htools
          · intro h
            have hall := List.all_eq_true.mpr (h.fields schema hlookup)
            rw [if_pos hall, toolErrors_eq_nil]
            refine ⟨fun field hfield => (fieldErrors_eq_nil_iff hinband).mpr ?_, h.tools schema hlookup⟩
            exact h.fields schema hlookup field (mem_of_reached hfield)

end SchemaValidator

theorem validateHeader_identified (h : Header) (result : ValidationResult) :
    (SchemaValidator.validateHeader h result).1 = true ↔ h.Identified := by
  unfold SchemaValidator.validateHeader
  split
  · rename_i hver
    exact iff_of_false Bool.false_ne_true fun h => h.ver (List.isEmpty_iff.mp hver)
  · rename_i hver
    split
    · rename_i hagt
      exact iff_of_false Bool.false_ne_true fun h => h.agt (List.isEmpty_iff.mp hagt)
    · rename_i hagt
      split
      · rename_i hreqid
        exact iff_of_false Bool.false_ne_true fun h => h.reqid (List.isEmpty_iff.mp hreqid)
      · rename_i hreqid
        exact iff_of_true rfl ⟨fun h => hver (List.isEmpty_iff.mpr h),
          fun h => hagt (List.isEmpty_iff.mpr h), fun h => hreqid (List.isEmpty_iff.mpr h)⟩

theorem validateHeader_valid (h : Header) (result : ValidationResult) :
    (SchemaValidator.validateHeader h result).2.valid = result.valid := by
  unfold SchemaValidator.validateHeader
  cases h.ver.isEmpty <;> cases h.agt.isEmpty <;> cases h.reqid.isEmpty <;>
    cases h.tim.isEmpty <;> cases h.chk.isEmpty <;> rfl

/-- The validator as it is built finds a frame valid if every statement conforms. -/
theorem validate_valid {v : SchemaValidator} (hinband : v.requireInbandCapabilities = false) (ast : AST) :
    ((v.validate ast).valid = true ↔ ast.header.Identified ∧
      ∀ stmt ∈ ast.statements ++ ast.healedDraft, stmt.Conforms) ∧
      ((v.validate ast).valid = true → (v.validate ast).errors = []) := by
  by_cases hheader : ast.header.Identified
  · obtain ⟨-, herrors, -, hvalid⟩ := v.validate_eq hheader.ver hheader.agt hheader.reqid
    rw [hvalid, herrors, List.isEmpty_iff, List.flatMap_eq_nil_iff, ← ast.map_stmt_located,
      List.forall_mem_map]
    refine ⟨?_, id⟩
    rw [and_iff_right hheader]
    exact forall₂_congr fun e _ => SchemaValidator.statementErrors_eq_nil hinband e
  · have hinvalid : (v.validate ast).valid = false := by
      have hcheck := Bool.eq_false_iff.mpr (mt (validateHeader_identified ast.header {}).mp hheader)
      have hkeep := validateHeader_valid ast.header {}
      unfold SchemaValidator.validate
      split
      · rename_i result hresult
        rwa [hresult] at hkeep
      · rename_i result hresult
        rw [hresult] at hcheck
        contradiction
    rw [hinvalid]
    exact ⟨iff_of_false Bool.false_ne_true fun h => hheader h.1, fun h => absurd h Bool.false_ne_true⟩

namespace LlmtopEval

/-! ## What is reported as valid -/

/-- A frame read without a diagnostic, whose header and statements conform. -/
structure Compliant (tolerant : Bool) (ast : AST) : Prop where
  clean : ast.diagnostic = []
  header : ast.header.Identified
  chk : tolerant = false → ast.header.chk ≠ []
  statements : ∀ stmt ∈ ast.statements, stmt.Conforms

theorem complete_iff {h : Header} : h.complete = true ↔ h.Identified ∧ h.chk ≠ [] := by
  unfold Header.complete
  simp only [Bool.not_eq_true', Bool.or_eq_false_iff, List.isEmpty_eq_false_iff]
  exact ⟨fun h => ⟨⟨h.1.1.1, h.1.2, h.2⟩, h.1.1.2⟩, fun h => ⟨⟨⟨h.1.ver, h.2⟩, h.1.agt⟩, h.1.reqid⟩⟩

section Read

variable {payload : Bytes} {ast : AST} (hread : parse .tolerant defaultMaxSize payload = .ok ast)

include hread

theorem judge_tolerant : judge true payload = verdictOn ast := by
  unfold judge
  rw [show modeOf true = .tolerant from rfl, hread]

theorem judge_strict (hclean : ast.diagnostic = []) (hcomplete : ast.header.complete = true) :
    judge false payload = verdictOn ast := by
  have hdiag := readFrame_diagnostic defaultMaxSize payload
  rw [parse_tolerant] at hread
  obtain rfl := Except.ok.inj hread
  have hnone := diagnostic_eq_nil.mp hclean
  have hstrict := parse_strict_eq_ok.mpr ⟨hnone, hcomplete, rfl⟩
  unfold judge
  rw [show modeOf false = .strict from rfl, hstrict, hnone, List.foldl_nil, ← hdiag]

theorem clean_of_judge (h : (judge false payload).valid = true) :
    ast.diagnostic = [] ∧ ast.header.complete = true := by
  unfold judge at h
  split at h
  · contradiction
  · rename_i strict hstrict
    obtain ⟨hnone, hcomplete, -⟩ := parse_strict_eq_ok.mp hstrict
    rw [parse_tolerant] at hread
    obtain rfl := Except.ok.inj hread
    exact ⟨diagnostic_eq_nil.mpr hnone, hcomplete⟩

/-- A clean frame has no draft, and its verdict is about its own statements. -/
theorem verdictOn_valid : ((verdictOn ast).valid = true ↔ Compliant true ast) ∧
      ((verdictOn ast).valid = true →
        verdictOn ast = { valid := true, statements := ast.statements.length }) := by
  obtain ⟨hiff, herrors⟩ := validate_valid (v := {}) rfl ast
  have hdraft : ast.diagnostic = [] → ast.healedDraft = [] := by
    intro hnone
    rw [parse_tolerant] at hread
    obtain rfl := Except.ok.inj hread
    exact (readFrame_clean (diagnostic_eq_nil.mp hnone)).1
  have hvalid : (verdictOn ast).valid = true ↔
      (SchemaValidator.validate {} ast).valid = true ∧ ast.diagnostic = [] := by
    unfold verdictOn
    rw [Bool.and_eq_true, List.isEmpty_iff]
  constructor
  · rw [hvalid, hiff]
    constructor
    · rintro ⟨⟨hheader, hstmts⟩, hnone⟩
      exact ⟨hnone, hheader, nofun, fun stmt hstmt => hstmts stmt (List.mem_append_left _ hstmt)⟩
    · intro hcompliant
      rw [hdraft hcompliant.clean, List.append_nil]
      exact ⟨⟨hcompliant.header, hcompliant.statements⟩, hcompliant.clean⟩
  · intro hboth
    obtain ⟨hschema, hnone⟩ := hvalid.mp hboth
    unfold verdictOn
    dsimp only
    rw [hschema, herrors hschema, hdraft hnone, hnone]
    rfl

end Read

/-- `"valid": true` says that the parser read the frame without a diagnostic and
that its header and every statement conform; the rest of the verdict then only
counts the statements.  What the strict mode finds valid has the same verdict in
the tolerant one. -/
theorem judge_valid_iff (tolerant : Bool) (payload : Bytes) :
    ∃ ast, parse .tolerant defaultMaxSize payload = .ok ast ∧
      ((judge tolerant payload).valid = true ↔ Compliant tolerant ast) ∧
      ((judge tolerant payload).valid = true →
        judge tolerant payload = { valid := true, statements := ast.statements.length }) ∧
      ((judge false payload).valid = true → judge true payload = judge false payload) := by
  obtain ⟨ast, hread⟩ : ∃ ast, parse .tolerant defaultMaxSize payload = .ok ast :=
    ⟨_, parse_tolerant defaultMaxSize payload⟩
  obtain ⟨hvalid, hrest⟩ := verdictOn_valid hread
  have htolerant := judge_tolerant hread
  have hstrict : (judge false payload).valid = true → judge false payload = verdictOn ast := by
    intro h
    obtain ⟨hclean, hcomplete⟩ := clean_of_judge hread h
    exact judge_strict hread hclean hcomplete
  refine ⟨ast, hread, ?_, ?_, fun h => htolerant.trans (hstrict h).symm⟩
  · cases tolerant with
    | true => rwa [htolerant]
    | false =>
        constructor
        · intro h
          obtain ⟨hclean, hcomplete⟩ := clean_of_judge hread h
          rw [hstrict h] at h
          have hcompliant := hvalid.mp h
          exact ⟨hclean, hcompliant.header, fun _ => (complete_iff.mp hcomplete).2,
            hcompliant.statements⟩
        · rintro ⟨hclean, hheader, hchk, hstmts⟩
          rw [judge_strict hread hclean (complete_iff.mpr ⟨hheader, hchk rfl⟩), hvalid]
          exact ⟨hclean, hheader, nofun, hstmts⟩
  · cases tolerant with
    | true => rwa [htolerant]
    | false =>
        intro h
        have hsame := hstrict h
        rw [hsame] at h ⊢
        exact hrest h

end LlmtopEval
end LlmTop
