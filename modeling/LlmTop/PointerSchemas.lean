import LlmTop.Authorization
import LlmTop.SchemaErrors

/-!
# Pointers in the schema and in the middleware

The validator knows a pointer by the schema of the statement's role, the
middleware by its key.  What the first lets through, the second does not refuse
for want of a token, as long as the role's schema lists the key.
-/
namespace LlmTop

def StatementSchema.Lists (schema : StatementSchema) (key : Bytes) : Prop :=
  ∃ field ∈ schema.requiredFields ++ schema.optionalFields, field.name = key

instance (schema : StatementSchema) (key : Bytes) : Decidable (schema.Lists key) :=
  inferInstanceAs (Decidable (∃ field ∈ schema.requiredFields ++ schema.optionalFields, field.name = key))

example : (schemas.filter fun entry => entry.2.Lists (ascii "tgt")).map Prod.fst =
    ["EXEC", "CODER", "READ"].map ascii := by
  decide +kernel

theorem isPointerKey_iff {key : Bytes} : isPointerKey key = true ↔ key = ascii "tgt" := by
  rw [isPointerKey, beq_iff_eq]

/-- Wherever a schema lists the key of the middleware, it requires it as a pointer. -/
theorem pointer_of_lists {role key : Bytes} {schema : StatementSchema}
    (hschema : schemas.lookup role = some schema) (hkey : isPointerKey key = true)
    (hlists : schema.Lists key) :
    ∃ field ∈ schema.requiredFields, field.name = key ∧ field.isPointer = true := by
  have htable : ∀ schema ∈ schemas.map Prod.snd, schema.Lists (ascii "tgt") →
      ∃ field ∈ schema.requiredFields, field.name = ascii "tgt" ∧ field.isPointer = true := by
    decide +kernel
  rw [isPointerKey_iff.mp hkey] at hlists ⊢
  exact htable schema (mem_of_lookup hschema) hlists

namespace SchemaValidator

variable {v : SchemaValidator} {ast : AST}

theorem validateHeader_fails {header : Header}
    (h : ¬ (header.ver ≠ [] ∧ header.agt ≠ [] ∧ header.reqid ≠ [])) :
    ∃ message, validateHeader header {} = (false, { errors := [message] }) := by
  unfold validateHeader
  split
  · exact ⟨_, rfl⟩
  · split
    · exact ⟨_, rfl⟩
    · split
      · exact ⟨_, rfl⟩
      · simp_all

theorem header_of_valid (hvalid : (v.validate ast).valid = true) :
    ast.header.ver ≠ [] ∧ ast.header.agt ≠ [] ∧ ast.header.reqid ≠ [] := by
  by_contra hheader
  obtain ⟨message, hfails⟩ := validateHeader_fails hheader
  unfold validate at hvalid
  rw [hfails] at hvalid
  contradiction

/-- A pass without errors left nothing unread. -/
theorem violations_of_errors {e : Located} (h : v.statementErrors e = []) :
    v.statementViolations e = [] := by
  rw [v.statementViolations_eq, h, List.nil_append]
  unfold statementErrors at h
  unfold hiddenViolations
  split
  · rfl
  · rename_i hrole
    rw [if_neg hrole] at h
    cases hlookup : schemas.lookup e.stmt.role with
    | none => rfl
    | some schema =>
        rw [hlookup] at h
        have hreached := List.flatMap_eq_nil_iff.mp (List.append_eq_nil_iff.mp h).1
        have hall := all_of_reached fun field hfield => v.present_of_fieldErrors (hreached field hfield)
        dsimp only
        rw [hiddenFields_eq_nil hall, if_pos hall]
        rfl

theorem statementViolations_of_valid (hvalid : (v.validate ast).valid = true) {e : Located}
    (he : e ∈ ast.located) : v.statementViolations e = [] := by
  obtain ⟨hver, hagt, hreqid⟩ := header_of_valid hvalid
  obtain ⟨-, -, -, herrors⟩ := v.validate_eq hver hagt hreqid
  rw [herrors, List.isEmpty_iff] at hvalid
  exact violations_of_errors (List.flatMap_eq_nil_iff.mp hvalid e he)

/-- In a valid frame a pointer that the role's schema lists carries a token. -/
theorem capped_of_valid (hinband : v.requireInbandCapabilities = true)
    (hvalid : (v.validate ast).valid = true) {stmt : Statement}
    (hstmt : stmt ∈ ast.statements ++ ast.healedDraft) {schema : StatementSchema}
    (hschema : schemas.lookup stmt.role = some schema) {kv : Bytes × Bytes}
    (hkv : kv ∈ stmt.kvpairs.data) (hkey : isPointerKey kv.1 = true) (hlists : schema.Lists kv.1) :
    hasCapability kv.2 = true := by
  rw [← ast.map_stmt_located] at hstmt
  obtain ⟨e, he, rfl⟩ := List.mem_map.mp hstmt
  obtain ⟨field, hfield, hname, hpointer⟩ := pointer_of_lists hschema hkey hlists
  have hnone := statementViolations_of_valid hvalid he
  have hrole : ¬ e.stmt.role.isEmpty = true := by
    intro hempty
    simp [statementViolations, hempty] at hnone
  rw [statementViolations, if_neg hrole, hschema] at hnone
  have herror := List.flatMap_eq_nil_iff.mp (List.append_eq_nil_iff.mp hnone).1 field hfield
  have hfind : e.stmt.kvpairs.find field.name = some kv.2 := by
    rw [hname]
    exact OrderedMap.find_of_mem hkv
  simpa [fieldErrors, hfind, hpointer, hinband] using herror

theorem warned_of_valid (hvalid : (v.validate ast).valid = true) {e : Located}
    (he : e ∈ ast.located) (hrole : schemas.lookup e.stmt.role = none) :
    unknownRole e.label e.stmt.role ∈ (v.validate ast).warnings := by
  have hnone := statementViolations_of_valid hvalid he
  obtain ⟨hver, hagt, hreqid⟩ := header_of_valid hvalid
  obtain ⟨warnings, -, hwarnings, -⟩ := v.validate_eq hver hagt hreqid
  have hnamed : ¬ e.stmt.role.isEmpty = true := by
    intro hempty
    simp [statementViolations, hempty] at hnone
  have hwarning : v.statementWarnings e = [unknownRole e.label e.stmt.role] := by
    rw [statementWarnings, if_neg hnamed, hrole]
  rw [hwarnings]
  refine List.mem_append_right _ (List.mem_flatMap.mpr ⟨e, he, ?_⟩)
  rw [hwarning]
  exact List.mem_singleton_self _

end SchemaValidator

/-! ## What the middleware refuses -/

/-- The two messages for a pointer without a token, one for each mode. -/
def uncappedTexts : List Bytes :=
  [ascii "ERR:cap_required - pointer field 'tgt' has no capability token",
    ascii "ERR:cap_required - target 'tgt' ("]

def ExecutionPlan.RefusesUncapped (plan : ExecutionPlan) : Prop :=
  ∃ text ∈ uncappedTexts, text <+: plan.errorMessage

theorem agree_beginning {text front rest : Bytes} (h : text <+: front ++ rest) :
    ∀ p ∈ front.zip text, p.1 = p.2 := by
  induction front generalizing text with
  | nil => exact nofun
  | cons c cs ih =>
      cases text with
      | nil => exact nofun
      | cons d ds =>
          obtain ⟨rfl, htail⟩ := List.cons_prefix_cons.mp h
          exact List.forall_mem_cons.mpr ⟨rfl, ih htail⟩

/-- No message with this front is about a pointer without a token. -/
def apart (front : Bytes) : Bool :=
  uncappedTexts.all fun text => (front.zip text).any fun p => p.1 != p.2

theorem not_refusesUncapped (front : Bytes) {plan : ExecutionPlan}
    (h : front <+: plan.errorMessage) (hfront : apart front = true) : ¬ plan.RefusesUncapped := by
  rintro ⟨text, htext, hprefix⟩
  obtain ⟨rest, hrest⟩ := h
  rw [← hrest] at hprefix
  obtain ⟨p, hp, hne⟩ := List.any_eq_true.mp (List.all_eq_true.mp hfront text htext)
  exact bne_iff_ne.mp hne (agree_beginning hprefix p hp)

namespace LLMTOPMiddleware

variable {m : LLMTOPMiddleware} {clock : Clock} {agt : Bytes} {p : Progress} {plan : ExecutionPlan}

theorem replay_not_uncapped {header : Header} (hmessage : plan.errorMessage = replayMessage header) :
    ¬ plan.RefusesUncapped := by
  refine not_refusesUncapped (ascii "ERR:replay_detected - Request ID '") ?_ rfl
  rw [hmessage, replayMessage, List.append_assoc, List.append_assoc, List.append_assoc]
  exact List.prefix_append _ _

theorem silent_not_uncapped (hmessage : plan.errorMessage = []) : ¬ plan.RefusesUncapped := by
  rintro ⟨text, htext, hprefix⟩
  rw [hmessage, List.prefix_nil] at hprefix
  subst hprefix
  exact absurd htext (by decide +kernel)

theorem checkPointer_not_uncapped {kv : Bytes × Bytes} (hkey : isPointerKey kv.1 = true)
    (hcap : hasCapability kv.2 = true) (h : m.checkPointer clock agt p kv = .error plan) :
    ¬ plan.RefusesUncapped := by
  obtain ⟨key, value⟩ := kv
  obtain rfl : key = ascii "tgt" := isPointerKey_iff.mp hkey
  unfold hasCapability at hcap
  unfold checkPointer at h
  simp only [hkey, hcap, Bool.not_true, Bool.false_eq_true, if_false, if_true] at h
  split at h
  · cases h
    exact not_refusesUncapped _ (List.prefix_append _ _) rfl
  · split at h
    · cases h
      exact not_refusesUncapped _ (List.prefix_append _ _) rfl
    · contradiction

theorem checkTool_not_uncapped {tool : ToolCall} (h : m.checkTool clock agt p tool = .error plan) :
    ¬ plan.RefusesUncapped := by
  unfold checkTool at h
  dsimp only at h
  split at h
  · cases h
    refine not_refusesUncapped (ascii "ERR:exec - tool call '") ?_ rfl
    exact ((List.prefix_append _ _).trans (List.prefix_append _ _)).trans (List.prefix_append _ _)
  · split at h
    · split at h
      · cases h
        exact not_refusesUncapped _ (List.prefix_append _ _) rfl
      · contradiction
    · split at h
      · split at h
        · cases h
          refine not_refusesUncapped (ascii "ERR:exec - Unauthorized tool call: ") ?_
            rfl
          exact (((List.prefix_append _ _).trans (List.prefix_append _ _)).trans
            (List.prefix_append _ _)).trans (List.prefix_append _ _)
        · contradiction
      · cases h
        exact not_refusesUncapped _ (List.prefix_append _ _) rfl

theorem gateError_not_uncapped {ast : AST} {acceptHealed : Bool} {message : Bytes}
    (h : m.gateError clock ast acceptHealed = some message) :
    ¬ ExecutionPlan.RefusesUncapped { errorMessage := message } := by
  unfold gateError at h
  split_ifs at h
  · obtain rfl := Option.some.inj h
    exact not_refusesUncapped _ (List.prefix_refl _) rfl
  · obtain rfl := Option.some.inj h
    exact not_refusesUncapped _ (List.prefix_refl _) rfl
  · obtain rfl := Option.some.inj h
    exact not_refusesUncapped _ (List.prefix_refl _) rfl
  · obtain rfl := Option.some.inj h
    exact replay_not_uncapped rfl

theorem consumeRequest_not_uncapped {header : Header} (hmessage : p.plan.errorMessage = []) :
    ¬ (m.consumeRequest clock header p).1.RefusesUncapped := by
  unfold consumeRequest
  split
  · split
    · exact silent_not_uncapped hmessage
    · exact replay_not_uncapped rfl
    · exact not_refusesUncapped _ (List.prefix_append _ _) rfl
  · exact silent_not_uncapped hmessage

theorem mem_of_batchesOf {ast : AST} {acceptHealed : Bool} {stmt : Statement}
    (h : stmt ∈ (batchesOf ast acceptHealed).flatten) :
    stmt ∈ ast.statements ++ ast.healedDraft := by
  unfold batchesOf at h
  split at h
  · simpa using h
  · exact List.mem_append_left _ (by simpa using h)

theorem checkEntry_not_uncapped {ast : AST} {acceptHealed : Bool}
    (hcapped : ∀ stmt ∈ ast.statements ++ ast.healedDraft, ∀ kv ∈ stmt.kvpairs.data,
      isPointerKey kv.1 = true → hasCapability kv.2 = true)
    {e : Entry} (he : e ∈ entriesOf ast acceptHealed)
    (h : m.checkEntry clock agt p e = .error plan) : ¬ plan.RefusesUncapped := by
  obtain ⟨stmt, hstmt, hentry⟩ := List.mem_flatMap.mp he
  cases e with
  | pointer field =>
      have hfield : field ∈ stmt.pointerFields := by
        rcases List.mem_append.mp hentry with hentry | hentry
        · obtain ⟨field', hfield', heq⟩ := List.mem_map.mp hentry
          exact Entry.pointer.inj heq ▸ hfield'
        · obtain ⟨_, -, heq⟩ := List.mem_map.mp hentry
          exact nomatch heq
      obtain ⟨kv, hkv, hpair⟩ := List.mem_filterMap.mp hfield
      have heq : kv = (field.key, field.value) := by
        unfold PointerField.ofPair at hpair
        split at hpair
        · cases hpair
          rfl
        · contradiction
      subst heq
      exact checkPointer_not_uncapped field.isPointer
        (hcapped stmt (mem_of_batchesOf hstmt) _ hkv field.isPointer) h
  | tool call => exact checkTool_not_uncapped h

/-- When every pointer carries a token, no refusal is about a missing one. -/
theorem evaluate_not_uncapped {ast : AST}
    (hcapped : ∀ stmt ∈ ast.statements ++ ast.healedDraft, ∀ kv ∈ stmt.kvpairs.data,
      isPointerKey kv.1 = true → hasCapability kv.2 = true)
    (m : LLMTOPMiddleware) (clock : Clock) (acceptHealed : Bool) :
    ¬ (m.evaluate clock ast acceptHealed).1.RefusesUncapped := by
  unfold evaluate
  cases hgate : m.gateError clock ast acceptHealed with
  | some message => exact gateError_not_uncapped hgate
  | none =>
      cases hwalk : m.checkBatches clock ast acceptHealed with
      | error plan =>
          rw [checkBatches_eq] at hwalk
          obtain ⟨e, he, p, hstep⟩ := Lib.Guarded.exists_step_of_foldlM_error hwalk
          exact checkEntry_not_uncapped hcapped he hstep
      | ok p =>
          rcases m.checkBatches_cases clock ast acceptHealed with ⟨-, hok⟩ |
            ⟨-, _, _, _, _, -, -, -, herror⟩
          · rw [hwalk] at hok
            cases hok
            exact consumeRequest_not_uncapped (by rw [Entry.recordAll_eq])
          · rw [hwalk] at herror
            contradiction

end LLMTOPMiddleware

/-- Where the role's schema lists the pointer key, the two components agree: a
valid frame has a token there, and no refusal of the middleware is about a
missing one.  A role outside the table is warned about and passes. -/
theorem valid_pointers_capped {v : SchemaValidator} {ast : AST}
    (hinband : v.requireInbandCapabilities = true) (hvalid : (v.validate ast).valid = true) :
    (∀ stmt ∈ ast.statements ++ ast.healedDraft, ∀ schema,
      schemas.lookup stmt.role = some schema → ∀ kv ∈ stmt.kvpairs.data,
        isPointerKey kv.1 = true → schema.Lists kv.1 → hasCapability kv.2 = true) ∧
    (∀ e ∈ ast.located, schemas.lookup e.stmt.role = none →
      unknownRole e.label e.stmt.role ∈ (v.validate ast).warnings) ∧
    ((∀ stmt ∈ ast.statements ++ ast.healedDraft, ∀ kv ∈ stmt.kvpairs.data,
        isPointerKey kv.1 = true →
          ∃ schema, schemas.lookup stmt.role = some schema ∧ schema.Lists kv.1) →
      ∀ (m : LLMTOPMiddleware) (clock : Clock) (acceptHealed : Bool),
        ¬ (m.evaluate clock ast acceptHealed).1.RefusesUncapped) := by
  refine ⟨fun stmt hstmt schema hschema kv hkv hkey hlists =>
    SchemaValidator.capped_of_valid hinband hvalid hstmt hschema hkv hkey hlists,
    fun e he hrole => SchemaValidator.warned_of_valid hvalid he hrole, ?_⟩
  intro hlisted m clock acceptHealed
  refine LLMTOPMiddleware.evaluate_not_uncapped (fun stmt hstmt kv hkv hkey => ?_) m clock acceptHealed
  obtain ⟨schema, hschema, hlists⟩ := hlisted stmt hstmt kv hkv hkey
  exact SchemaValidator.capped_of_valid hinband hvalid hstmt hschema hkv hkey hlists

def inbandValidator : SchemaValidator := ({} : SchemaValidator).setRequireInbandCapabilities true

def readRequest : AST where
  header := SchemaValidator.requestHeader
  statements := [{
    role := ascii "READ"
    kvpairs := OrderedMap.ofPairs [(ascii "tgt", ascii "src/main.cpp:cap=TOKEN")]
    toolCalls := [] }]

theorem readRequest_not_uncapped :
    ¬ ((exampleMiddleware []).evaluate (fun _ => 0) readRequest false).1.RefusesUncapped := by
  have hvalid : (inbandValidator.validate readRequest).valid = true := by decide +kernel
  refine (valid_pointers_capped rfl hvalid).2.2 ?_ _ _ _
  intro stmt hstmt kv hkv hkey
  refine ⟨readSchema, ?_, ?_⟩
  · obtain rfl := List.mem_singleton.mp hstmt
    rfl
  · rw [isPointerKey_iff.mp hkey]
    decide +kernel

/-- A request under a role that no schema describes. -/
def customRequest : AST where
  header := SchemaValidator.requestHeader
  statements := [{
    role := ascii "CUSTOM_ROLE"
    kvpairs := OrderedMap.ofPairs [(ascii "tgt", ascii "src/main.cpp")]
    toolCalls := [] }]

/-- It passes the strict schema mode, and is refused for the token it lacks. -/
theorem customRequest_uncapped :
    (inbandValidator.validate customRequest).valid = true ∧
      (customRequest.statements.any fun stmt => stmt.kvpairs.data.any fun kv =>
        isPointerKey kv.1 && !hasCapability kv.2) = true ∧
      (LLMTOPMiddleware.evaluate
        { jwtValidator := SimpleJWTValidator.new (ascii "secret") [] [], verifyChk := false }
        (fun _ => 0) customRequest false).1.RefusesUncapped := by
  refine ⟨by decide +kernel, by decide +kernel, _, List.mem_cons_self, ?_⟩
  decide +kernel

end LlmTop
