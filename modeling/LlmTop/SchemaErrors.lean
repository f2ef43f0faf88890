import LlmTop.SchemaValidator

/-!
# What one validation pass reports

The messages of a pass as lists of their own, the rules that a frame breaks,
and the messages that an early return keeps back.
-/
namespace LlmTop

theorem length_flatMap_append {α β : Type} {f g h : α → List β} (hg : ∀ x, g x = f x ++ h x)
    (xs : List α) :
    (xs.flatMap g).length = (xs.flatMap f).length + (xs.flatMap h).length := by
  induction xs with
  | nil => rfl
  | cons x xs ih =>
      simp only [List.flatMap_cons, List.length_append, hg x, ih]
      omega

/-- A report that leaves out `h x` for each `x` is the full report, in any order,
only if nothing was left out. -/
theorem perm_flatMap_iff {α β : Type} {f g h : α → List β} (hg : ∀ x, g x = f x ++ h x)
    (xs : List α) :
    (xs.flatMap f).Perm (xs.flatMap g) ↔ ∀ x ∈ xs, h x = [] := by
  constructor
  · intro hperm
    have hlen := length_flatMap_append hg xs
    rw [← hperm.length_eq] at hlen
    exact List.flatMap_eq_nil_iff.mp (List.length_eq_zero_iff.mp (by omega))
  · intro hnone
    have heq : xs.flatMap f = xs.flatMap g := by
      refine List.flatMap_congr fun x hx => ?_
      rw [hg x, hnone x hx, List.append_nil]
    rw [heq]

def ValidationResult.add (result : ValidationResult) (errors warnings : List Bytes) :
    ValidationResult :=
  { result with errors := result.errors ++ errors, warnings := result.warnings ++ warnings }

theorem ValidationResult.add_add (result : ValidationResult)
    (errors warnings errors' warnings' : List Bytes) :
    (result.add errors warnings).add errors' warnings' =
      result.add (errors ++ errors') (warnings ++ warnings') := by
  simp only [add, List.append_assoc]

theorem ValidationResult.add_nil (result : ValidationResult) : result.add [] [] = result := by
  simp only [add, List.append_nil]

def FieldSchema.present (stmt : Statement) (field : FieldSchema) : Bool :=
  (stmt.kvpairs.find field.name).isSome

/-- The required fields that the loop looks at: all up to the first missing one. -/
def reachedFields (stmt : Statement) (fields : List FieldSchema) : List FieldSchema :=
  fields.takeWhile (·.present stmt) ++ (fields.dropWhile (·.present stmt)).take 1

/-- The fields behind the first missing one. -/
def hiddenFields (stmt : Statement) (fields : List FieldSchema) : List FieldSchema :=
  (fields.dropWhile (·.present stmt)).drop 1

theorem hiddenFields_eq_nil {stmt : Statement} {fields : List FieldSchema}
    (hall : fields.all (·.present stmt) = true) : hiddenFields stmt fields = [] := by
  rw [hiddenFields, List.dropWhile_eq_nil_iff.mpr (List.all_eq_true.mp hall)]
  rfl

def toolErrors (schema : StatementSchema) (label : Bytes) (stmt : Statement) : List Bytes :=
  (stmt.toolCalls.filter (! schema.allows ·)).map fun tool =>
    disallowedTool label stmt.role tool.name

/-- A statement of either list, with the position it is reported under. -/
structure Located where
  healed : Bool
  stmt : Statement
  index : Nat

def Located.label (e : Located) : Bytes := statementLabel e.healed e.index

def locatedIn (healed : Bool) (stmts : List Statement) : List Located :=
  stmts.zipIdx.map fun entry => ⟨healed, entry.1, entry.2⟩

/-- Everything a pass looks at. -/
def AST.located (ast : AST) : List Located :=
  locatedIn false ast.statements ++ locatedIn true ast.healedDraft

theorem AST.map_stmt_located (ast : AST) :
    ast.located.map Located.stmt = ast.statements ++ ast.healedDraft := by
  have hstmts : ∀ healed stmts, (locatedIn healed stmts).map Located.stmt = stmts := by
    intro healed stmts
    rw [locatedIn, List.map_map]
    exact List.zipIdx_map_fst 0 stmts
  rw [located, List.map_append, hstmts, hstmts]

namespace SchemaValidator

variable (v : SchemaValidator)

def fieldErrors (label : Bytes) (stmt : Statement) (field : FieldSchema) : List Bytes :=
  match stmt.kvpairs.find field.name with
  | none => [missingField label stmt.role field.name]
  | some value =>
      if field.isPointer && !hasCapability value && v.requireInbandCapabilities then
        [uncappedField label stmt.role field.name]
      else []

def fieldWarnings (label : Bytes) (stmt : Statement) (field : FieldSchema) : List Bytes :=
  match stmt.kvpairs.find field.name with
  | none => []
  | some value =>
      if field.isPointer && !hasCapability value && !v.requireInbandCapabilities then
        [uncappedField label stmt.role field.name]
      else []

theorem checkFields_eq (label : Bytes) (stmt : Statement) (fields : List FieldSchema)
    (result : ValidationResult) :
    v.checkFields label stmt fields result =
      (fields.all (·.present stmt),
        result.add ((reachedFields stmt fields).flatMap (v.fieldErrors label stmt))
          ((reachedFields stmt fields).flatMap (v.fieldWarnings label stmt))) := by
  induction fields generalizing result with
  | nil => rw [checkFields]; exact congrArg _ result.add_nil.symm
  | cons field rest ih =>
      rw [checkFields]
      cases hfind : stmt.kvpairs.find field.name with
      | none =>
          have habsent : field.present stmt = false := by simp [FieldSchema.present, hfind]
          simp only [reachedFields, List.all_cons, habsent, Bool.false_and, List.takeWhile_cons,
            List.dropWhile_cons, Bool.false_eq_true, if_false, List.take_succ_cons, List.take_zero,
            List.nil_append, List.flatMap_singleton, fieldErrors, fieldWarnings, hfind,
            ValidationResult.error, ValidationResult.add, List.append_nil]
      | some value =>
          have hpresent : field.present stmt = true := by simp [FieldSchema.present, hfind]
          have hreached : reachedFields stmt (field :: rest) = field :: reachedFields stmt rest := by
            simp [reachedFields, hpresent]
          rw [hreached, List.flatMap_cons, List.flatMap_cons, List.all_cons, hpresent, Bool.true_and,
            ← ValidationResult.add_add]
          simp only [fieldErrors, fieldWarnings, hfind]
          cases field.isPointer && !hasCapability value with
          | false => simpa [ValidationResult.add_nil] using ih result
          | true =>
              cases v.requireInbandCapabilities with
              | true =>
                  simpa [ValidationResult.add, ValidationResult.error] using
                    ih (result.error (uncappedField label stmt.role field.name))
              | false =>
                  simpa [ValidationResult.add, ValidationResult.warning] using
                    ih (result.warning (uncappedField label stmt.role field.name))

theorem checkTools_eq (schema : StatementSchema) (label : Bytes) (stmt : Statement)
    (result : ValidationResult) :
    checkTools schema label stmt result = result.add (toolErrors schema label stmt) [] := by
  unfold checkTools toolErrors
  induction stmt.toolCalls generalizing result with
  | nil => exact result.add_nil.symm
  | cons tool tools ih =>
      rw [List.foldl_cons, ih]
      cases hallows : schema.allows tool with
      | true => simp [hallows]
      | false => simp [hallows, ValidationResult.add, ValidationResult.error]

/-- What a pass reports about one statement. -/
def statementErrors (e : Located) : List Bytes :=
  if e.stmt.role.isEmpty then [missingRole e.label]
  else
    match schemas.lookup e.stmt.role with
    | none => []
    | some schema =>
        (reachedFields e.stmt schema.requiredFields).flatMap (v.fieldErrors e.label e.stmt) ++
          if schema.requiredFields.all (·.present e.stmt) then toolErrors schema e.label e.stmt
          else []

def statementWarnings (e : Located) : List Bytes :=
  if e.stmt.role.isEmpty then []
  else
    match schemas.lookup e.stmt.role with
    | none => [unknownRole e.label e.stmt.role]
    | some schema =>
        (reachedFields e.stmt schema.requiredFields).flatMap (v.fieldWarnings e.label e.stmt)

/-- Every rule that one statement breaks. -/
def statementViolations (e : Located) : List Bytes :=
  if e.stmt.role.isEmpty then [missingRole e.label]
  else
    match schemas.lookup e.stmt.role with
    | none => []
    | some schema =>
        schema.requiredFields.flatMap (v.fieldErrors e.label e.stmt) ++
          toolErrors schema e.label e.stmt

/-- The rules that it breaks behind the early return. -/
def hiddenViolations (e : Located) : List Bytes :=
  if e.stmt.role.isEmpty then []
  else
    match schemas.lookup e.stmt.role with
    | none => []
    | some schema =>
        (hiddenFields e.stmt schema.requiredFields).flatMap (v.fieldErrors e.label e.stmt) ++
          if schema.requiredFields.all (·.present e.stmt) then []
          else toolErrors schema e.label e.stmt

theorem validateStatement_eq (e : Located) (result : ValidationResult) :
    (v.validateStatement e.stmt e.index result e.healed).2 =
      result.add (v.statementErrors e) (v.statementWarnings e) := by
  unfold validateStatement statementErrors statementWarnings
  change (if e.stmt.role.isEmpty then (false, result.error (missingRole e.label)) else _).2 = _
  split
  · simp only [ValidationResult.error, ValidationResult.add, List.append_nil]
  · cases schemas.lookup e.stmt.role with
    | none => simp only [ValidationResult.warning, ValidationResult.add, List.append_nil]; rfl
    | some schema =>
        dsimp only
        rw [checkFields_eq]
        cases schema.requiredFields.all (·.present e.stmt) with
        | false =>
            simp only [Bool.false_eq_true, if_false, List.append_nil]
            rfl
        | true =>
            simp only [if_true]
            rw [checkTools_eq, ValidationResult.add_add, List.append_nil]
            rfl

theorem validateAll_eq (healed : Bool) (stmts : List Statement) (result : ValidationResult) :
    v.validateAll healed stmts result =
      result.add ((locatedIn healed stmts).flatMap v.statementErrors)
        ((locatedIn healed stmts).flatMap v.statementWarnings) := by
  unfold validateAll locatedIn
  induction stmts.zipIdx generalizing result with
  | nil => exact result.add_nil.symm
  | cons entry entries ih =>
      rw [List.foldl_cons, ih, List.map_cons, List.flatMap_cons, List.flatMap_cons,
        ← ValidationResult.add_add]
      exact congrArg (ValidationResult.add · _ _)
        (v.validateStatement_eq ⟨healed, entry.1, entry.2⟩ result)

theorem statementViolations_eq (e : Located) :
    v.statementViolations e = v.statementErrors e ++ v.hiddenViolations e := by
  unfold statementViolations statementErrors hiddenViolations
  split
  · rfl
  · cases schemas.lookup e.stmt.role with
    | none => rfl
    | some schema =>
        have hfields : schema.requiredFields =
            reachedFields e.stmt schema.requiredFields ++
              hiddenFields e.stmt schema.requiredFields := by
          rw [reachedFields, hiddenFields, List.append_assoc, List.take_append_drop,
            List.takeWhile_append_dropWhile]
        dsimp only
        conv_lhs => rw [hfields, List.flatMap_append]
        split
        · rename_i hall
          rw [hiddenFields_eq_nil hall, List.flatMap_nil, List.append_nil, List.nil_append,
            List.append_nil]
        · rw [List.append_nil, List.append_assoc]

end SchemaValidator

/-! ## When nothing is kept back -/

def StatementSchema.missing (schema : StatementSchema) (stmt : Statement) : List FieldSchema :=
  schema.requiredFields.filter (! ·.present stmt)

/-- A missing field is the only thing wrong behind itself. -/
structure StatementSchema.AtMostOneMissing (schema : StatementSchema) (stmt : Statement) : Prop where
  one : (schema.missing stmt).length ≤ 1
  tools : schema.missing stmt ≠ [] → ∀ tool ∈ stmt.toolCalls, schema.allows tool = true

theorem mem_of_lookup {role : Bytes} {schema : StatementSchema} {table : List (Bytes × StatementSchema)}
    (h : table.lookup role = some schema) : schema ∈ table.map Prod.snd := by
  obtain ⟨before, after, rfl, -⟩ := List.lookup_eq_some_iff.mp h
  exact List.mem_map_of_mem (List.mem_append_right before List.mem_cons_self)

/-- In every schema the pointer field is the first one. -/
theorem not_pointer_behind {role : Bytes} {schema : StatementSchema}
    (h : schemas.lookup role = some schema) :
    ∀ field ∈ schema.requiredFields.drop 1, field.isPointer = false := by
  have htable : ∀ schema ∈ schemas.map Prod.snd,
      ∀ field ∈ schema.requiredFields.drop 1, field.isPointer = false := by decide
  exact htable schema (mem_of_lookup h)

theorem toolErrors_eq_nil {schema : StatementSchema} {label : Bytes} {stmt : Statement} :
    toolErrors schema label stmt = [] ↔ ∀ tool ∈ stmt.toolCalls, schema.allows tool = true := by
  simp [toolErrors, List.filter_eq_nil_iff]

theorem not_present_first {stmt : Statement} {fields rest : List FieldSchema} {first : FieldSchema}
    (h : fields.dropWhile (·.present stmt) = first :: rest) : first.present stmt = false := by
  have hne : fields.dropWhile (·.present stmt) ≠ [] := by simp [h]
  have hhead := List.head_dropWhile_not (fun field : FieldSchema => field.present stmt) hne
  simpa [h] using hhead

/-- If the loop met no missing field, there is none. -/
theorem all_of_reached {stmt : Statement} {fields : List FieldSchema}
    (h : ∀ field ∈ reachedFields stmt fields, field.present stmt = true) :
    fields.all (·.present stmt) = true := by
  cases hdrop : fields.dropWhile (·.present stmt) with
  | nil => exact List.all_eq_true.mpr (List.dropWhile_eq_nil_iff.mp hdrop)
  | cons first rest =>
      have hfirst : first ∈ reachedFields stmt fields := by
        rw [reachedFields, hdrop]
        exact List.mem_append_right _ List.mem_cons_self
      have habsent := not_present_first hdrop
      rw [h first hfirst] at habsent
      contradiction

theorem missing_eq (schema : StatementSchema) (stmt : Statement) :
    schema.missing stmt =
      (schema.requiredFields.dropWhile (·.present stmt)).filter (! ·.present stmt) := by
  unfold StatementSchema.missing
  have hcut : schema.requiredFields = schema.requiredFields.takeWhile (·.present stmt) ++
      schema.requiredFields.dropWhile (·.present stmt) := List.takeWhile_append_dropWhile.symm
  conv_lhs => rw [hcut, List.filter_append]
  have hnone : (schema.requiredFields.takeWhile (·.present stmt)).filter (! ·.present stmt) = [] := by
    refine List.filter_eq_nil_iff.mpr fun field hfield => ?_
    simpa using List.mem_takeWhile_imp hfield
  rw [hnone, List.nil_append]

theorem missing_eq_nil {schema : StatementSchema} {stmt : Statement} :
    schema.missing stmt = [] ↔ schema.requiredFields.all (·.present stmt) = true := by
  simp [StatementSchema.missing, List.filter_eq_nil_iff]

/-- One missing field ends the loop; a second one would be behind it. -/
theorem length_missing_le_one {schema : StatementSchema} {stmt : Statement} :
    (schema.missing stmt).length ≤ 1 ↔
      ∀ field ∈ hiddenFields stmt schema.requiredFields, field.present stmt = true := by
  rw [missing_eq, hiddenFields]
  cases hdrop : schema.requiredFields.dropWhile (·.present stmt) with
  | nil => simp
  | cons first rest =>
      have hfirst := not_present_first hdrop
      have hrest : (rest.filter (! ·.present stmt)).length + 1 ≤ 1 ↔
          rest.filter (! ·.present stmt) = [] := by
        rw [← List.length_eq_zero_iff]
        omega
      rw [List.filter_cons_of_pos (by simp [hfirst]), List.length_cons, hrest, List.filter_eq_nil_iff]
      simp

namespace SchemaValidator

variable (v : SchemaValidator)

theorem fieldErrors_eq_nil {label : Bytes} {stmt : Statement} {field : FieldSchema}
    (h : field.isPointer = false) :
    v.fieldErrors label stmt field = [] ↔ field.present stmt = true := by
  unfold fieldErrors FieldSchema.present
  cases stmt.kvpairs.find field.name with
  | none => simp
  | some value => simp [h]

theorem present_of_fieldErrors {label : Bytes} {stmt : Statement} {field : FieldSchema}
    (h : v.fieldErrors label stmt field = []) : field.present stmt = true := by
  unfold fieldErrors at h
  unfold FieldSchema.present
  cases hfind : stmt.kvpairs.find field.name with
  | none => simp [hfind] at h
  | some value => rfl

theorem hiddenViolations_eq_nil (e : Located) :
    v.hiddenViolations e = [] ↔
      ∀ schema, schemas.lookup e.stmt.role = some schema → schema.AtMostOneMissing e.stmt := by
  unfold hiddenViolations
  split
  · rename_i hrole
    have hnone : schemas.lookup e.stmt.role = none := by
      rw [List.isEmpty_iff.mp hrole]
      decide
    simp [hnone]
  · cases hlookup : schemas.lookup e.stmt.role with
    | none => simp
    | some schema =>
        have hpointer : ∀ field ∈ hiddenFields e.stmt schema.requiredFields,
            field.isPointer = false := fun field hfield =>
          not_pointer_behind hlookup field
            (((List.dropWhile_sublist _).drop 1).subset hfield)
        have hfields : (∀ field ∈ hiddenFields e.stmt schema.requiredFields,
              v.fieldErrors e.label e.stmt field = []) ↔ (schema.missing e.stmt).length ≤ 1 := by
          rw [length_missing_le_one]
          exact forall₂_congr fun field hfield => v.fieldErrors_eq_nil (hpointer field hfield)
        have htools : ((if schema.requiredFields.all (·.present e.stmt) then []
              else toolErrors schema e.label e.stmt) = []) ↔
            (schema.missing e.stmt ≠ [] → ∀ tool ∈ e.stmt.toolCalls, schema.allows tool = true) := by
          rw [ne_eq, missing_eq_nil]
          split
          · rename_i hall
            exact iff_of_true rfl fun hmissing => absurd hall hmissing
          · rename_i hmissing
            rw [toolErrors_eq_nil]
            exact ⟨fun h _ => h, fun h => h hmissing⟩
        simp only [Option.some.injEq, forall_eq', List.append_eq_nil_iff, List.flatMap_eq_nil_iff]
        rw [hfields, htools]
        exact ⟨fun h => ⟨h.1, h.2⟩, fun h => ⟨h.one, h.tools⟩⟩

/-- Every rule that the frame breaks. -/
def violations (ast : AST) : List Bytes := ast.located.flatMap v.statementViolations

/-- The pass reports every broken rule and nothing else, in whatever order. -/
def ReportsAll (ast : AST) : Prop :=
  (v.validate ast).errors.Perm (v.violations ast) ∧
    ((v.validate ast).valid = true ↔ v.violations ast = [])

theorem validate_eq {ast : AST} (hver : ast.header.ver ≠ []) (hagt : ast.header.agt ≠ [])
    (hreqid : ast.header.reqid ≠ []) :
    ∃ warnings, (v.validate ast).errors = ast.located.flatMap v.statementErrors ∧
      (v.validate ast).warnings = warnings ++ ast.located.flatMap v.statementWarnings ∧
      (v.validate ast).valid = (ast.located.flatMap v.statementErrors).isEmpty := by
  have hheader : validateHeader ast.header {} =
      (true, ⟨false, [], (validateHeader ast.header {}).2.warnings⟩) := by
    unfold validateHeader
    rw [if_neg (by simpa using hver), if_neg (by simpa using hagt), if_neg (by simpa using hreqid)]
    cases ast.header.tim.isEmpty <;> cases ast.header.chk.isEmpty <;> rfl
  refine ⟨(validateHeader ast.header {}).2.warnings, ?_⟩
  unfold validate
  rw [hheader]
  dsimp only
  rw [validateAll_eq, validateAll_eq, ValidationResult.add_add, ← List.flatMap_append,
    ← List.flatMap_append]
  exact ⟨rfl, rfl, rfl⟩

/-- One pass reports every error exactly when no statement misses two required
fields, or one with a tool call that its role may not make. -/
theorem reportsAll_iff {v : SchemaValidator} {ast : AST} (hver : ast.header.ver ≠ [])
    (hagt : ast.header.agt ≠ []) (hreqid : ast.header.reqid ≠ []) :
    v.ReportsAll ast ↔
      ∀ stmt ∈ ast.statements ++ ast.healedDraft, ∀ schema,
        schemas.lookup stmt.role = some schema → schema.AtMostOneMissing stmt := by
  obtain ⟨-, herrors, -, hvalid⟩ := v.validate_eq hver hagt hreqid
  have hnone := perm_flatMap_iff v.statementViolations_eq ast.located
  unfold ReportsAll violations
  rw [herrors, hvalid]
  constructor
  · rintro ⟨hperm, -⟩ stmt hstmt
    rw [← ast.map_stmt_located] at hstmt
    obtain ⟨e, he, rfl⟩ := List.mem_map.mp hstmt
    exact (v.hiddenViolations_eq_nil e).mp (hnone.mp hperm e he)
  · intro h
    have hperm := hnone.mpr fun e he => by
      refine (v.hiddenViolations_eq_nil e).mpr (h e.stmt ?_)
      rw [← ast.map_stmt_located]
      exact List.mem_map_of_mem he
    refine ⟨hperm, ?_⟩
    rw [List.isEmpty_iff, ← List.length_eq_zero_iff, ← List.length_eq_zero_iff, hperm.length_eq]

def requestHeader : Header where
  ver := ascii "LLM-TOPv1"
  agt := ascii "test-agent"
  reqid := ascii "req-008"

/-- A statement that should name an action, and one tool of its role. -/
def execStatement : Statement where
  role := ascii "EXEC"
  kvpairs := OrderedMap.ofPairs [(ascii "tgt", ascii "src/main.cpp:cap=TOKEN")]
  toolCalls := [⟨ascii "run", OrderedMap.empty, none⟩]

theorem exec_reportsAll :
    ReportsAll {} { header := requestHeader, healedDraft := [execStatement] } := by
  refine (reportsAll_iff (by decide) (by decide) (by decide)).mpr ?_
  intro stmt hstmt schema hschema
  obtain rfl : stmt = execStatement := by simpa using hstmt
  obtain rfl : execSchema = schema := Option.some.inj hschema
  exact ⟨by decide, by decide⟩

/-- The same request to a role that has a goal to name as well. -/
def coderStatement : Statement := { execStatement with role := ascii "CODER", toolCalls := [] }

/-- The second missing field is not reported. -/
theorem coder_not_reportsAll :
    (validate {} { header := requestHeader, statements := [coderStatement] }).errors =
        [missingField (statementLabel false 0) (ascii "CODER") (ascii "act")] ∧
      violations {} { header := requestHeader, statements := [coderStatement] } =
        [missingField (statementLabel false 0) (ascii "CODER") (ascii "act"),
          missingField (statementLabel false 0) (ascii "CODER") (ascii "GL")] ∧
      ¬ ReportsAll {} { header := requestHeader, statements := [coderStatement] } := by
  have herrors : (validate {} { header := requestHeader, statements := [coderStatement] }).errors =
      [missingField (statementLabel false 0) (ascii "CODER") (ascii "act")] := by decide +kernel
  have hviolations : violations {} { header := requestHeader, statements := [coderStatement] } =
      [missingField (statementLabel false 0) (ascii "CODER") (ascii "act"),
        missingField (statementLabel false 0) (ascii "CODER") (ascii "GL")] := by decide +kernel
  refine ⟨herrors, hviolations, fun h => ?_⟩
  have hlen := h.1.length_eq
  rw [herrors, hviolations] at hlen
  contradiction

end SchemaValidator
end LlmTop
