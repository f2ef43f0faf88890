import LlmTop.Lib.Guarded
import LlmTop.Middleware
import LlmTop.Parser

/-!
# What an evaluation walks and records

The two loops of `evaluate` flattened into one walk over entries, the ways an
evaluation can end, and what stands behind an authorized plan.
-/
namespace LlmTop

structure PointerField where
  key : Bytes
  value : Bytes
  isPointer : isPointerKey key = true

namespace PointerField

def ofPair (kv : Bytes × Bytes) : Option PointerField :=
  if h : isPointerKey kv.1 = true then some ⟨kv.1, kv.2, h⟩ else none

def resource (field : PointerField) : Bytes := normalizePathSegment (extractResourcePath field.value)

/-- The capability token the field carries itself. -/
def token (field : PointerField) : Option Bytes :=
  if (Lib.Search.findSub (ascii "cap=") field.value).isSome then
    some (extractCapabilityToken field.value)
  else none

/-- The scopes any of which opens the field; only the resource when a token
comes with it. -/
def scopes (field : PointerField) : List Bytes :=
  if field.token.isSome then [field.resource]
  else [ascii "read:" ++ field.resource, ascii "write:" ++ field.resource, field.resource]

def approve (field : PointerField) : ApprovedPointer := ⟨field.key, field.resource⟩

end PointerField

namespace ToolCall

def resourceKey (call : ToolCall) : Bytes := (toolResource call.args).1

def resource (call : ToolCall) : Bytes := normalizePathSegment (toolResource call.args).2

def approve (call : ToolCall) : ApprovedTool :=
  LLMTOPMiddleware.approvedTool call call.resourceKey call.resource

def token (call : ToolCall) : Option Bytes := call.args.find (ascii "cap")

/-- The scope the call's capability is checked against. -/
def scope (call : ToolCall) : Bytes := LLMTOPMiddleware.toolScope call call.resource

/-- The middleware's check of the call's capability, for some scope. -/
def CheckedAgainst (m : LLMTOPMiddleware) (now : Int) (agt : Bytes) (call : ToolCall)
    (scope : Bytes) : Prop :=
  match call.token with
  | some token => m.validateCapability now token scope agt = true
  | none => m.outOfBandProxyMode = true ∧ m.validateProxyCapability agt scope = true

end ToolCall

/-- A pointer field or a tool call. -/
inductive Entry where
  | pointer (field : PointerField)
  | tool (call : ToolCall)

namespace Entry

def resource : Entry → Bytes
  | pointer field => field.resource
  | tool call => call.resource

def token : Entry → Option Bytes
  | pointer field => field.token
  | tool call => call.token

def scopes : Entry → List Bytes
  | pointer field => field.scopes
  | tool call => [call.scope]

def Admitted (m : LLMTOPMiddleware) (now : Int) (agt : Bytes) (e : Entry) : Prop :=
  escapesRoot e.resource = false ∧
    match e.token with
    | some token => ∃ scope ∈ e.scopes, m.validateCapability now token scope agt = true
    | none => m.outOfBandProxyMode = true ∧
        ∃ scope ∈ e.scopes, m.validateProxyCapability agt scope = true

theorem admitted_tool {m : LLMTOPMiddleware} {now : Int} {agt : Bytes} {call : ToolCall} :
    (tool call).Admitted m now agt ↔
      escapesRoot call.resource = false ∧ call.CheckedAgainst m now agt call.scope := by
  have hresource : (tool call).resource = call.resource := rfl
  have htool : (tool call).token = call.token := rfl
  unfold Admitted ToolCall.CheckedAgainst
  rw [hresource, htool]
  cases call.token <;> simp [scopes]

def action : Entry → Bytes
  | pointer field =>
      (if field.token.isSome then ascii "READ/WRITE authorized for "
      else ascii "READ/WRITE authorized (out-of-band proxy) for ") ++ field.resource
  | tool call =>
      (if call.token.isSome then ascii "TOOL authorized: "
      else ascii "TOOL authorized (out-of-band proxy): ") ++ call.name

def field : Entry → Option PointerField
  | pointer field => some field
  | tool _ => none

def call : Entry → Option ToolCall
  | pointer _ => none
  | tool call => some call

def record (plan : ExecutionPlan) (e : Entry) : ExecutionPlan :=
  { plan with
    approvedActions := plan.approvedActions ++ [e.action]
    approvedPointers := plan.approvedPointers ++ (e.field.map PointerField.approve).toList
    approvedTools := plan.approvedTools ++ (e.call.map ToolCall.approve).toList }

def recordAll (entries : List Entry) : ExecutionPlan := entries.foldl record {}

theorem foldl_record (entries : List Entry) (plan : ExecutionPlan) :
    entries.foldl record plan = { plan with
      approvedActions := plan.approvedActions ++ entries.map action
      approvedPointers :=
        plan.approvedPointers ++ (entries.filterMap field).map PointerField.approve
      approvedTools := plan.approvedTools ++ (entries.filterMap call).map ToolCall.approve } := by
  induction entries generalizing plan with
  | nil => simp
  | cons e rest ih =>
      rw [List.foldl_cons, ih]
      cases e with
      | pointer field =>
          have hcall : (pointer field).call = none := rfl
          have hfield : (pointer field).field = some field := rfl
          simp [record, hcall, hfield, List.filterMap_cons_none, List.filterMap_cons_some]
      | tool call =>
          have hcall : (tool call).call = some call := rfl
          have hfield : (tool call).field = none := rfl
          simp [record, hcall, hfield, List.filterMap_cons_none, List.filterMap_cons_some]

theorem recordAll_eq (entries : List Entry) :
    recordAll entries = {
      approvedActions := entries.map action
      approvedPointers := (entries.filterMap field).map PointerField.approve
      approvedTools := (entries.filterMap call).map ToolCall.approve } := by
  rw [recordAll, foldl_record]
  simp

end Entry

section Field

variable {m : LLMTOPMiddleware} {now : Int} {agt : Bytes} (field : PointerField)
  (hescapes : escapesRoot field.resource = false)

include hescapes

theorem PointerField.admitted_of_token {token : Bytes} (htoken : field.token = some token) :
    (Entry.pointer field).Admitted m now agt ↔
      m.validateCapability now token field.resource agt = true := by
  simp [Entry.Admitted, Entry.resource, Entry.token, Entry.scopes, PointerField.scopes, htoken,
    hescapes]

theorem PointerField.admitted_of_proxy (htoken : field.token = none) :
    (Entry.pointer field).Admitted m now agt ↔ m.outOfBandProxyMode = true ∧
      (m.validateProxyCapability agt (ascii "read:" ++ field.resource) = true ∨
        m.validateProxyCapability agt (ascii "write:" ++ field.resource) = true ∨
        m.validateProxyCapability agt field.resource = true) := by
  simp [Entry.Admitted, Entry.resource, Entry.token, Entry.scopes, PointerField.scopes, htoken,
    hescapes]

end Field

def Statement.pointerFields (stmt : Statement) : List PointerField :=
  stmt.kvpairs.data.filterMap PointerField.ofPair

def Statement.entries (stmt : Statement) : List Entry :=
  stmt.pointerFields.map .pointer ++ stmt.toolCalls.map .tool

/-- Everything `evaluate` asks a capability for, in its order. -/
def entriesOf (ast : AST) (acceptHealed : Bool) : List Entry :=
  (batchesOf ast acceptHealed).flatten.flatMap Statement.entries

namespace LLMTOPMiddleware

section Walk

variable (m : LLMTOPMiddleware) (clock : Clock) (agt : Bytes)

def checkEntry (p : Progress) : Entry → Except ExecutionPlan Progress
  | .pointer field => m.checkPointer clock agt p (field.key, field.value)
  | .tool call => m.checkTool clock agt p call

def Admits (p : Progress) (e : Entry) : Prop := e.Admitted m (clock p.tick) agt

def advance (p : Progress) (e : Entry) : Progress := ⟨e.record p.plan, p.tick + 1⟩

def Refusal (p : Progress) (plan : ExecutionPlan) : Prop := ∃ message, plan = p.plan.fail message

theorem not_admits_of_escapes {p : Progress} {e : Entry} (h : escapesRoot e.resource = true) :
    ¬m.Admits clock agt p e :=
  fun hadmits => absurd (h.symm.trans hadmits.1) (by decide)

theorem checkPointer_guards (p : Progress) (field : PointerField) :
    (m.Admits clock agt p (.pointer field) ∧
      m.checkPointer clock agt p (field.key, field.value) = .ok (advance p (.pointer field))) ∨
    (¬m.Admits clock agt p (.pointer field) ∧
      ∃ plan, m.checkPointer clock agt p (field.key, field.value) = .error plan ∧
        Refusal p plan) := by
  have hkey : ¬(!isPointerKey field.key) = true := by simp [field.isPointer]
  have hresource : normalizePathSegment (extractResourcePath field.value) = field.resource := rfl
  unfold checkPointer
  simp only [if_neg hkey, hresource]
  split
  · rename_i hescapes
    exact Or.inr ⟨m.not_admits_of_escapes clock agt hescapes, _, rfl, _, rfl⟩
  · rename_i hescapes
    rw [Bool.not_eq_true] at hescapes
    split
    · rename_i hcap
      have htoken : field.token = some (extractCapabilityToken field.value) := if_pos hcap
      rw [Admits, field.admitted_of_token hescapes htoken]
      split
      · rename_i hinvalid
        exact Or.inr ⟨by simpa using hinvalid, _, rfl, _, rfl⟩
      · rename_i hvalid
        refine Or.inl ⟨by simpa using hvalid, ?_⟩
        simp [advance, Entry.record, Entry.action, Entry.field, Entry.call, PointerField.approve,
          htoken]
    · rename_i hcap
      have htoken : field.token = none := if_neg hcap
      rw [Admits, field.admitted_of_proxy hescapes htoken]
      split
      · rename_i hproxy
        split
        · rename_i hdenied
          refine Or.inr ⟨?_, _, rfl, _, rfl⟩
          rintro ⟨-, hgranted⟩
          simp only [Bool.and_eq_true, Bool.not_eq_true'] at hdenied
          simp [hdenied] at hgranted
        · rename_i hgranted
          refine Or.inl ⟨⟨hproxy, by simpa [or_iff_not_imp_left] using hgranted⟩, ?_⟩
          simp [advance, Entry.record, Entry.action, Entry.field, Entry.call, PointerField.approve,
            htoken]
      · rename_i hproxy
        exact Or.inr ⟨fun h => hproxy h.1, _, rfl, _, rfl⟩

theorem checkTool_guards (p : Progress) (call : ToolCall) :
    (m.Admits clock agt p (.tool call) ∧
      m.checkTool clock agt p call = .ok (advance p (.tool call))) ∨
    (¬m.Admits clock agt p (.tool call) ∧
      ∃ plan, m.checkTool clock agt p call = .error plan ∧ Refusal p plan) := by
  have hresource : normalizePathSegment (toolResource call.args).2 = call.resource := rfl
  have hscope : toolScope call call.resource = call.scope := rfl
  have happrove : approvedTool call (toolResource call.args).1 call.resource = call.approve := rfl
  have hfind : call.args.find (ascii "cap") = call.token := rfl
  unfold checkTool
  simp only [hresource, hscope, happrove, hfind]
  split
  · rename_i hescapes
    exact Or.inr ⟨m.not_admits_of_escapes clock agt hescapes, _, rfl, _, rfl⟩
  · rename_i hescapes
    rw [Bool.not_eq_true] at hescapes
    rw [Admits, Entry.admitted_tool, and_iff_right hescapes, ToolCall.CheckedAgainst]
    cases htoken : call.token with
    | some capToken =>
        dsimp only
        split
        · rename_i hinvalid
          exact Or.inr ⟨by simpa using hinvalid, _, rfl, _, rfl⟩
        · rename_i hvalid
          refine Or.inl ⟨by simpa using hvalid, ?_⟩
          simp [advance, Entry.record, Entry.action, Entry.field, Entry.call, htoken]
    | none =>
        dsimp only
        split
        · rename_i hproxy
          split
          · rename_i hdenied
            refine Or.inr ⟨?_, _, rfl, _, rfl⟩
            rintro ⟨-, hgranted⟩
            simp [hgranted] at hdenied
          · rename_i hgranted
            refine Or.inl ⟨⟨hproxy, by simpa using hgranted⟩, ?_⟩
            simp [advance, Entry.record, Entry.action, Entry.field, Entry.call, htoken]
        · rename_i hproxy
          exact Or.inr ⟨fun h => hproxy h.1, _, rfl, _, rfl⟩

theorem checkEntry_guards :
    Lib.Guarded.Guards (m.checkEntry clock agt) (m.Admits clock agt) advance Refusal
  | p, .pointer field => m.checkPointer_guards clock agt p field
  | p, .tool call => m.checkTool_guards clock agt p call

theorem checkPointer_fold (kvs : List (Bytes × Bytes)) (p : Progress) :
    kvs.foldlM (m.checkPointer clock agt) p =
      ((kvs.filterMap PointerField.ofPair).map Entry.pointer).foldlM (m.checkEntry clock agt) p := by
  rw [List.foldlM_map]
  refine Lib.Guarded.foldlM_filterMap ?_ ?_ kvs p
  · intro p kv hnone
    have hkey : (!isPointerKey kv.1) = true := by simpa [PointerField.ofPair] using hnone
    rw [checkPointer, if_pos hkey]
  · intro p kv field hsome
    unfold PointerField.ofPair at hsome
    split at hsome
    · cases hsome
      rfl
    · contradiction

theorem checkStatement_eq (p : Progress) (stmt : Statement) :
    m.checkStatement clock agt p stmt = stmt.entries.foldlM (m.checkEntry clock agt) p := by
  rw [Statement.entries, List.foldlM_append, Statement.pointerFields, ← checkPointer_fold,
    checkStatement]
  refine congrArg _ (funext fun p => ?_)
  rw [List.foldlM_map]
  rfl

end Walk

/-- What the header, the healed statements, the checksum and the early replay
check let through. -/
structure GatesOpen (m : LLMTOPMiddleware) (clock : Clock) (ast : AST) (acceptHealed : Bool) :
    Prop where
  agent : ast.header.agt ≠ []
  request : ast.header.reqid ≠ []
  healed : ast.healedDraft = [] ∨ acceptHealed = true
  intact : m.verifyChk = true → ast.header.chk = computeChk ast.rawFrame
  fresh : m.enforceIdempotency = true →
    m.idempotencyStore.isReplayed (clock 0) ast.header.agt ast.header.reqid = false

theorem gateError_eq_none {m : LLMTOPMiddleware} {clock : Clock} {ast : AST} {acceptHealed : Bool} :
    m.gateError clock ast acceptHealed = none ↔ m.GatesOpen clock ast acceptHealed := by
  unfold gateError
  constructor
  · intro h
    split_ifs at h with hnames hhealed hchk hreplay
    simp only [Bool.or_eq_true, List.isEmpty_iff, not_or] at hnames
    refine ⟨hnames.1, hnames.2, ?_, ?_, ?_⟩
    · simpa [or_iff_not_imp_left] using hhealed
    · simpa using hchk
    · simpa using hreplay
  · intro h
    rw [if_neg (by simp [h.agent, h.request]), if_neg ?_, if_neg ?_, if_neg ?_]
    · simpa using h.fresh
    · simpa using h.intact
    · simpa [or_iff_not_imp_left] using h.healed

variable (m : LLMTOPMiddleware) (clock : Clock) (ast : AST) (acceptHealed : Bool)

theorem checkBatches_eq :
    m.checkBatches clock ast acceptHealed =
      (entriesOf ast acceptHealed).foldlM (m.checkEntry clock ast.header.agt) ⟨{}, 1⟩ := by
  rw [checkBatches, entriesOf, Lib.Guarded.foldlM_flatMap, ← List.flatMap_id,
    Lib.Guarded.foldlM_flatMap]
  simp only [← checkStatement_eq]
  rfl

/-- Every entry is admitted at the clock reading of its turn. -/
def AllAdmitted : Prop := ∀ entry ∈ (entriesOf ast acceptHealed).zipIdx 1,
  entry.1.Admitted m (clock entry.2) ast.header.agt

/-- The store takes the request once the walk is over. -/
def Recordable : Prop := m.enforceIdempotency = true →
  m.idempotencyStore.Admits clock ((entriesOf ast acceptHealed).length + 1)
    ast.header.agt ast.header.reqid

/-- The ways an evaluation ends. -/
inductive Outcome : ExecutionPlan → Prop where
  | gated {message : Bytes} (hgates : ¬m.GatesOpen clock ast acceptHealed) :
      Outcome { errorMessage := message }
  | refused {before after : List Entry} {e : Entry} {message : Bytes}
      (hgates : m.GatesOpen clock ast acceptHealed)
      (hentries : entriesOf ast acceptHealed = before ++ e :: after)
      (hbefore : ∀ entry ∈ before.zipIdx 1, entry.1.Admitted m (clock entry.2) ast.header.agt)
      (hrefused : ¬e.Admitted m (clock (before.length + 1)) ast.header.agt) :
      Outcome ((Entry.recordAll before).fail message)
  | unrecorded {message : Bytes} (hgates : m.GatesOpen clock ast acceptHealed)
      (hall : m.AllAdmitted clock ast acceptHealed)
      (hrecord : ¬m.Recordable clock ast acceptHealed) :
      Outcome { Entry.recordAll (entriesOf ast acceptHealed) with
        approvedActions := [], errorMessage := message }
  | authorized (hgates : m.GatesOpen clock ast acceptHealed)
      (hall : m.AllAdmitted clock ast acceptHealed)
      (hrecord : m.Recordable clock ast acceptHealed) :
      Outcome { Entry.recordAll (entriesOf ast acceptHealed) with authorized := true }

theorem foldl_advance (entries : List Entry) (p : Progress) :
    entries.foldl advance p =
      ⟨entries.foldl Entry.record p.plan, entries.length + p.tick⟩ := by
  induction entries generalizing p with
  | nil => simp
  | cons e rest ih =>
      rw [List.foldl_cons, List.foldl_cons, List.length_cons, ih, advance]
      simp only [Progress.mk.injEq, true_and]
      omega

theorem admitsAll_iff (agt : Bytes) (entries : List Entry) (p : Progress) :
    Lib.Guarded.AdmitsAll (m.Admits clock agt) advance p entries ↔
      ∀ entry ∈ entries.zipIdx p.tick, entry.1.Admitted m (clock entry.2) agt :=
  Lib.Guarded.admitsAll_iff_zipIdx (fun tick (e : Entry) => e.Admitted m (clock tick) agt)
    Progress.tick fun _ _ => rfl

theorem consumeRequest_outcome (hgates : m.GatesOpen clock ast acceptHealed)
    (hall : m.AllAdmitted clock ast acceptHealed) :
    m.Outcome clock ast acceptHealed (m.consumeRequest clock ast.header
      ⟨Entry.recordAll (entriesOf ast acceptHealed), (entriesOf ast acceptHealed).length + 1⟩).1 := by
  unfold consumeRequest
  split
  · rename_i henforce
    have hstore := m.idempotencyStore.recordRequest_eq_recorded clock
      ((entriesOf ast acceptHealed).length + 1) ast.header.agt ast.header.reqid ast.header.chk
    split
    · rename_i hrecorded
      rw [hrecorded] at hstore
      exact Outcome.authorized hgates hall fun _ => hstore.mp rfl
    · rename_i hreplay
      rw [hreplay] at hstore
      exact Outcome.unrecorded hgates hall fun h => nomatch hstore.mpr (h henforce)
    · rename_i hfull
      rw [hfull] at hstore
      exact Outcome.unrecorded hgates hall fun h => nomatch hstore.mpr (h henforce)
  · rename_i henforce
    exact Outcome.authorized hgates hall fun h => absurd h henforce

/-- The walk over the entries ends at the first refusal or behind the last entry. -/
theorem checkBatches_cases :
    (m.AllAdmitted clock ast acceptHealed ∧ m.checkBatches clock ast acceptHealed =
      .ok ⟨Entry.recordAll (entriesOf ast acceptHealed), (entriesOf ast acceptHealed).length + 1⟩) ∨
    (¬m.AllAdmitted clock ast acceptHealed ∧ ∃ before e after message,
      entriesOf ast acceptHealed = before ++ e :: after ∧
      (∀ entry ∈ before.zipIdx 1, entry.1.Admitted m (clock entry.2) ast.header.agt) ∧
      ¬e.Admitted m (clock (before.length + 1)) ast.header.agt ∧
      m.checkBatches clock ast acceptHealed = .error ((Entry.recordAll before).fail message)) := by
  have hguards := m.checkEntry_guards clock ast.header.agt
  have hwalk := m.admitsAll_iff clock ast.header.agt (entriesOf ast acceptHealed) ⟨{}, 1⟩
  rw [checkBatches_eq]
  by_cases hall : m.AllAdmitted clock ast acceptHealed
  · rw [hguards.foldlM_ok (hwalk.mpr hall), foldl_advance]
    exact Or.inl ⟨hall, rfl⟩
  · obtain ⟨before, e, after, plan, hentries, hbefore, hrefused, hfold, message, rfl⟩ :=
      hguards.foldlM_error (mt hwalk.mp hall)
    rw [foldl_advance] at hrefused
    rw [hfold, foldl_advance]
    exact Or.inr ⟨hall, before, e, after, message, hentries,
      (m.admitsAll_iff clock _ _ _).mp hbefore, hrefused, rfl⟩

theorem evaluate_outcome :
    m.Outcome clock ast acceptHealed (m.evaluate clock ast acceptHealed).1 := by
  unfold evaluate
  cases hgate : m.gateError clock ast acceptHealed with
  | some message =>
      refine Outcome.gated fun hopen => ?_
      rw [gateError_eq_none.mpr hopen] at hgate
      contradiction
  | none =>
      have hopen := gateError_eq_none.mp hgate
      rcases m.checkBatches_cases clock ast acceptHealed with ⟨hall, hok⟩ |
        ⟨-, before, e, after, message, hentries, hbefore, hrefused, herror⟩
      · rw [hok]
        exact m.consumeRequest_outcome clock ast acceptHealed hopen hall
      · rw [herror]
        exact Outcome.refused hopen hentries hbefore hrefused

end LLMTOPMiddleware

def pointerFieldsOf (ast : AST) (acceptHealed : Bool) : List PointerField :=
  (batchesOf ast acceptHealed).flatten.flatMap Statement.pointerFields

def toolCallsOf (ast : AST) (acceptHealed : Bool) : List ToolCall :=
  (batchesOf ast acceptHealed).flatten.flatMap Statement.toolCalls

theorem filterMap_field (ast : AST) (acceptHealed : Bool) :
    (entriesOf ast acceptHealed).filterMap Entry.field = pointerFieldsOf ast acceptHealed := by
  rw [entriesOf, pointerFieldsOf, List.filterMap_flatMap]
  refine List.flatMap_congr fun stmt _ => ?_
  rw [Statement.entries, List.filterMap_append, List.filterMap_map, List.filterMap_map]
  have hpointers : Entry.field ∘ Entry.pointer = some := rfl
  have htools : Entry.field ∘ Entry.tool = fun _ => none := rfl
  rw [hpointers, htools]
  simp

theorem filterMap_call (ast : AST) (acceptHealed : Bool) :
    (entriesOf ast acceptHealed).filterMap Entry.call = toolCallsOf ast acceptHealed := by
  rw [entriesOf, toolCallsOf, List.filterMap_flatMap]
  refine List.flatMap_congr fun stmt _ => ?_
  rw [Statement.entries, List.filterMap_append, List.filterMap_map, List.filterMap_map]
  have hpointers : Entry.call ∘ Entry.pointer = fun _ => none := rfl
  have htools : Entry.call ∘ Entry.tool = some := rfl
  rw [hpointers, htools]
  simp

namespace LLMTOPMiddleware

/-- The agent holds `scope` for an entry with this token: it is the scope claim
of the token, or a grant of the session. -/
def HoldsScope (m : LLMTOPMiddleware) (now : Int) (agt : Bytes) (token : Option Bytes)
    (scope : Bytes) : Prop :=
  (∃ text claim, token = some text ∧ m.jwtValidator.Vouches now text claim ∧
    (m.allowDelegation = true ∨ claim.sub = agt) ∧ claim.scope = scope) ∨
  scope ∈ m.sessionGrantedScopes agt

theorem validateCapability_iff {m : LLMTOPMiddleware} {now : Int} {token scope agt : Bytes} :
    m.validateCapability now token scope agt = true ↔
      ∃ claim, m.jwtValidator.Vouches now token claim ∧
        (m.allowDelegation = true ∨ claim.sub = agt) ∧ (scope = [] ∨ Covers claim.scope scope) := by
  have hsub : ∀ claim, m.jwtValidator.Vouches now token claim →
      (scope = [] ∨ Covers claim.scope scope) →
      (m.validateCapability now token scope agt = true ↔
        m.allowDelegation = true ∨ claim.sub = agt) := by
    intro claim hvouches hscope
    rw [validateCapability, SimpleJWTValidator.verify_of_vouches hvouches hscope]
    simp [or_iff_not_imp_left]
  constructor
  · intro h
    have hvalid : (m.jwtValidator.verify now token scope).valid = true := by
      by_contra hinvalid
      simp [validateCapability, hinvalid] at h
    obtain ⟨claim, hvouches, hscope⟩ := SimpleJWTValidator.verify_valid.mp hvalid
    exact ⟨claim, hvouches, (hsub claim hvouches hscope).mp h, hscope⟩
  · rintro ⟨claim, hvouches, hagent, hscope⟩
    exact (hsub claim hvouches hscope).mpr hagent

theorem validateProxyCapability_iff {m : LLMTOPMiddleware} {agt scope : Bytes} :
    m.validateProxyCapability agt scope = true ↔
      ∃ granted ∈ m.sessionGrantedScopes agt, Covers granted scope := by
  simp [validateProxyCapability, Covers]

end LLMTOPMiddleware

/-- A scope the agent holds for the entry covers one that it asks for. -/
def Entry.Covered (m : LLMTOPMiddleware) (now : Int) (agt : Bytes) (e : Entry) : Prop :=
  ∃ scope, m.HoldsScope now agt e.token scope ∧ ∃ requested ∈ e.scopes, Covers scope requested

/-- What a scope must look like to cover the root, the empty resource. -/
def RootScope (scope : Bytes) : Prop :=
  scope = [] ∨ (colonSegments scope).head? = some doubleStar

/-- An in-band pointer to the root: what the token claims, or a session grant,
covers the root.  `verify` does not look at the scope here. -/
def Entry.RootChecked (m : LLMTOPMiddleware) (agt : Bytes) (e : Entry) : Prop :=
  ∀ field token, e = .pointer field → field.token = some token → field.resource = [] →
    (∃ claim, tokenClaim token = some claim ∧ RootScope claim.scope) ∨
      ∃ scope ∈ m.sessionGrantedScopes agt, RootScope scope

theorem ToolCall.scope_ne_nil (call : ToolCall) : call.scope ≠ [] := by
  unfold ToolCall.scope LLMTOPMiddleware.toolScope
  have hlead : ascii "execute:" ≠ [] := by decide
  split <;> simp [hlead]

theorem Entry.mem_scopes_of_token {e : Entry} {token scope : Bytes} (h : e.token = some token)
    (hscope : scope ∈ e.scopes) (hempty : scope = []) :
    ∃ field, e = .pointer field ∧ field.token = some token ∧ field.resource = [] := by
  cases e with
  | pointer field =>
      have htoken : field.token = some token := h
      have hresource : scope = field.resource := by
        simpa [Entry.scopes, PointerField.scopes, htoken] using hscope
      exact ⟨field, rfl, htoken, hresource.symm.trans hempty⟩
  | tool call =>
      have hcall : scope = call.scope := by simpa [Entry.scopes] using hscope
      exact absurd (hcall.symm.trans hempty) call.scope_ne_nil

theorem Entry.Covered.rootChecked {m : LLMTOPMiddleware} {now : Int} {agt : Bytes} {e : Entry}
    (h : e.Covered m now agt) : e.RootChecked m agt := by
  rintro field token rfl htoken hroot
  obtain ⟨granted, hholds, requested, hrequested, hcovers⟩ := h
  have hresource : requested = [] := by
    have hmem : requested ∈ field.scopes := hrequested
    simpa [PointerField.scopes, htoken, hroot] using hmem
  subst hresource
  rcases hholds with ⟨text, claim, htext, hvouches, -, rfl⟩ | hgrant
  · have heq : token = text := Option.some.inj (htoken.symm.trans htext)
    subst heq
    exact Or.inl ⟨claim, hvouches.tokenClaim_eq, covers_nil.mp hcovers⟩
  · exact Or.inr ⟨granted, hgrant, covers_nil.mp hcovers⟩

theorem Entry.covered_iff {m : LLMTOPMiddleware} {now : Int} {agt : Bytes} {e : Entry}
    (h : e.Admitted m now agt) : e.Covered m now agt ↔ e.RootChecked m agt := by
  constructor
  · exact Entry.Covered.rootChecked
  · intro hroot
    obtain ⟨-, hadmitted⟩ := h
    cases htoken : e.token with
    | none =>
        rw [htoken] at hadmitted
        obtain ⟨-, scope, hscope, hproxy⟩ := hadmitted
        obtain ⟨granted, hgranted, hcovers⟩ := LLMTOPMiddleware.validateProxyCapability_iff.mp hproxy
        exact ⟨granted, Or.inr hgranted, scope, hscope, hcovers⟩
    | some token =>
        rw [htoken] at hadmitted
        obtain ⟨scope, hscope, hvalid⟩ := hadmitted
        obtain ⟨claim, hvouches, hagent, hempty | hcovers⟩ :=
          LLMTOPMiddleware.validateCapability_iff.mp hvalid
        · obtain ⟨field, rfl, hfield, hresource⟩ := mem_scopes_of_token htoken hscope hempty
          subst hempty
          rcases hroot field token rfl hfield hresource with
            ⟨claim', hclaim, hrootScope⟩ | ⟨granted, hgranted, hrootScope⟩
          · have heq : claim' = claim := Option.some.inj (hclaim.symm.trans hvouches.tokenClaim_eq)
            subst heq
            exact ⟨claim'.scope, Or.inl ⟨token, claim', htoken, hvouches, hagent, rfl⟩, [], hscope,
              covers_nil.mpr hrootScope⟩
          · exact ⟨granted, Or.inr hgranted, [], hscope, covers_nil.mpr hrootScope⟩
        · exact ⟨claim.scope, Or.inl ⟨token, claim, htoken, hvouches, hagent, rfl⟩, scope, hscope,
            hcovers⟩

namespace LLMTOPMiddleware

variable {m : LLMTOPMiddleware} {clock : Clock} {ast : AST} {acceptHealed : Bool}

/-- Whatever the plan lists belongs to a prefix of the walk that was admitted. -/
theorem evaluate_prefix (m : LLMTOPMiddleware) (clock : Clock) (ast : AST) (acceptHealed : Bool) :
    ∃ before after, entriesOf ast acceptHealed = before ++ after ∧
      (∀ entry ∈ before.zipIdx 1, entry.1.Admitted m (clock entry.2) ast.header.agt) ∧
      (m.evaluate clock ast acceptHealed).1.approvedPointers =
        (before.filterMap Entry.field).map PointerField.approve ∧
      (m.evaluate clock ast acceptHealed).1.approvedTools =
        (before.filterMap Entry.call).map ToolCall.approve := by
  have houtcome := m.evaluate_outcome clock ast acceptHealed
  generalize (m.evaluate clock ast acceptHealed).1 = plan at houtcome
  cases houtcome with
  | gated hgates => exact ⟨[], _, rfl, by simp, rfl, rfl⟩
  | @refused before after e message hgates hentries hbefore hrefused =>
      refine ⟨before, e :: after, hentries, hbefore, ?_⟩
      rw [Entry.recordAll_eq]
      exact ⟨rfl, rfl⟩
  | unrecorded hgates hall hrecord =>
      refine ⟨entriesOf ast acceptHealed, [], by simp, hall, ?_⟩
      rw [Entry.recordAll_eq]
      exact ⟨rfl, rfl⟩
  | authorized hgates hall hrecord =>
      refine ⟨entriesOf ast acceptHealed, [], by simp, hall, ?_⟩
      rw [Entry.recordAll_eq]
      exact ⟨rfl, rfl⟩

/-- The calls a plan approves are the first ones of the walk, each admitted. -/
theorem approvedTools_getElem {i : Nat} {call : ToolCall}
    (hcall : (toolCallsOf ast acceptHealed)[i]? = some call)
    (happroved : i < (m.evaluate clock ast acceptHealed).1.approvedTools.length) :
    (m.evaluate clock ast acceptHealed).1.approvedTools[i]? = some call.approve ∧
      ∃ tick, (Entry.tool call).Admitted m (clock tick) ast.header.agt := by
  obtain ⟨before, after, hentries, hadmitted, -, htools⟩ := m.evaluate_prefix clock ast acceptHealed
  rw [htools, List.length_map] at happroved
  rw [← filterMap_call, hentries, List.filterMap_append,
    List.getElem?_append_left happroved] at hcall
  constructor
  · rw [htools, List.getElem?_map, hcall]
    rfl
  · obtain ⟨e, he, hsome⟩ := List.mem_filterMap.mp (List.mem_of_getElem? hcall)
    obtain rfl : e = .tool call := by
      cases e with
      | pointer field => contradiction
      | tool call' => exact congrArg Entry.tool (Option.some.inj hsome)
    obtain ⟨tick, htick⟩ := Lib.Guarded.exists_index_of_mem he 1
    exact ⟨tick, hadmitted _ htick⟩

theorem plan_of_authorized (h : (m.evaluate clock ast acceptHealed).1.authorized = true) :
    m.AllAdmitted clock ast acceptHealed ∧ (m.evaluate clock ast acceptHealed).1 =
      { Entry.recordAll (entriesOf ast acceptHealed) with authorized := true } := by
  have houtcome := m.evaluate_outcome clock ast acceptHealed
  generalize (m.evaluate clock ast acceptHealed).1 = plan at h houtcome
  cases houtcome with
  | gated hgates => contradiction
  | refused hgates hentries hbefore hrefused =>
      rw [Entry.recordAll_eq] at h
      contradiction
  | unrecorded hgates hall hrecord =>
      rw [Entry.recordAll_eq] at h
      contradiction
  | authorized hgates hall hrecord => exact ⟨hall, rfl⟩

theorem evaluate_of_authorized (h : (m.evaluate clock ast acceptHealed).1.authorized = true) :
    m.AllAdmitted clock ast acceptHealed ∧
      (m.evaluate clock ast acceptHealed).1.approvedPointers =
        (pointerFieldsOf ast acceptHealed).map PointerField.approve ∧
      (m.evaluate clock ast acceptHealed).1.approvedTools =
        (toolCallsOf ast acceptHealed).map ToolCall.approve := by
  obtain ⟨hall, hplan⟩ := plan_of_authorized h
  rw [hplan, Entry.recordAll_eq, ← filterMap_field, ← filterMap_call]
  exact ⟨hall, rfl, rfl⟩

/-- An authorized plan lists every pointer field and every tool call, and each of
them is covered exactly when no in-band pointer to the root slips through. -/
theorem authorized_covered_iff (h : (m.evaluate clock ast acceptHealed).1.authorized = true) :
    (m.evaluate clock ast acceptHealed).1.approvedPointers =
        (pointerFieldsOf ast acceptHealed).map PointerField.approve ∧
      (m.evaluate clock ast acceptHealed).1.approvedTools =
        (toolCallsOf ast acceptHealed).map ToolCall.approve ∧
      ((∀ entry ∈ (entriesOf ast acceptHealed).zipIdx 1,
          entry.1.Covered m (clock entry.2) ast.header.agt) ↔
        ∀ e ∈ entriesOf ast acceptHealed, e.RootChecked m ast.header.agt) := by
  obtain ⟨hall, hpointers, htools⟩ := evaluate_of_authorized h
  refine ⟨hpointers, htools, ?_⟩
  constructor
  · intro hcovered e he
    obtain ⟨tick, hentry⟩ := Lib.Guarded.exists_index_of_mem he 1
    exact (Entry.covered_iff (hall _ hentry)).mp (hcovered _ hentry)
  · intro hroot entry hentry
    exact (Entry.covered_iff (hall _ hentry)).mpr (hroot _ (List.fst_mem_of_mem_zipIdx hentry))

end LLMTOPMiddleware

/-- A host with the in-tree verifier and a few session grants. -/
def exampleMiddleware (grants : List Bytes) : LLMTOPMiddleware where
  jwtValidator := SimpleJWTValidator.new (ascii "secret") [] []
  outOfBandProxyMode := true
  verifyChk := false
  sessionGrantedScopes := fun agent => if agent = ascii "a" then grants else []

def grantedFrame : Bytes :=
  ascii "VER:2 CHK:sha256:0 AGT:a REQID:r\n[A] tgt:src/x\n!ls[]"

def proxyGrants : List Bytes := [ascii "read:src/**", ascii "execute:ls"]

theorem granted_covered :
    ∃ ast, parse .strict 1048576 grantedFrame = .ok ast ∧ (entriesOf ast false).length = 2 ∧
      ∀ entry ∈ (entriesOf ast false).zipIdx 1,
        entry.1.Covered (exampleMiddleware proxyGrants) 0 ast.header.agt := by
  have hrun : (parse .strict 1048576 grantedFrame).toOption.any (fun ast =>
      ((exampleMiddleware proxyGrants).evaluate (fun _ => 0) ast false).1.authorized &&
        (entriesOf ast false).length == 2 &&
        (entriesOf ast false).all fun e => e.token.isNone) = true := by decide +kernel
  obtain ⟨ast, hparse, h⟩ := exists_of_parse_any hrun
  simp only [Bool.and_eq_true, beq_iff_eq, List.all_eq_true] at h
  obtain ⟨⟨hauthorized, hlength⟩, htokens⟩ := h
  have hcovered := (LLMTOPMiddleware.authorized_covered_iff hauthorized).2.2
  refine ⟨ast, hparse, hlength, hcovered.mpr fun e he field token hfield htoken => ?_⟩
  have hnone := htokens e he
  have hsome : e.token = some token := hfield ▸ htoken
  rw [hsome] at hnone
  contradiction

/-- Signed for `read:x`, for the agent `a`. -/
def readToken : Bytes := ascii <|
  "eyJhbGciOiJIUzI1NiIsInR5cCI6IkpXVCJ9.eyJzdWIiOiJhIiwic2NvcGUiOiJyZWFkOngiLCJleHAiOjk5OTk5OTk5" ++
  "OTl9.mIKsx_iyuhx1FO8aPLVdgtvbx_EEKbI8UWB7fPA7Yfg"

def rootPointerFrame : Bytes :=
  ascii "VER:2 CHK:sha256:0 AGT:a REQID:r\n[A] tgt:.:cap=" ++ readToken

/-- The token is good for `read:x` alone, yet it opens the root. -/
theorem root_pointer_uncovered :
    ∃ ast, parse .strict 1048576 rootPointerFrame = .ok ast ∧
      ((exampleMiddleware []).evaluate (fun _ => 1784000000) ast false).1.authorized = true ∧
      ¬ ∀ entry ∈ (entriesOf ast false).zipIdx 1,
        entry.1.Covered (exampleMiddleware []) 1784000000 ast.header.agt := by
  have hrun : (parse .strict 1048576 rootPointerFrame).toOption.any (fun ast =>
      ((exampleMiddleware []).evaluate (fun _ => 1784000000) ast false).1.authorized &&
        ((entriesOf ast false).zipIdx 1).any fun entry =>
          match entry.1 with
          | .pointer field => field.token == some readToken && field.resource.isEmpty
          | .tool _ => false) = true := by decide +kernel
  obtain ⟨ast, hparse, h⟩ := exists_of_parse_any hrun
  simp only [Bool.and_eq_true, List.any_eq_true] at h
  obtain ⟨hauthorized, ⟨e, tick⟩, hentry, hroot⟩ := h
  refine ⟨ast, hparse, hauthorized, fun hcovered => ?_⟩
  cases e with
  | tool call => exact absurd hroot Bool.false_ne_true
  | pointer field =>
      simp only [Bool.and_eq_true, beq_iff_eq, List.isEmpty_iff] at hroot
      have hchecked := (hcovered _ hentry).rootChecked field readToken rfl hroot.1 hroot.2
      rcases hchecked with ⟨claim, hclaim, hscope⟩ | ⟨granted, hgranted, -⟩
      · have hread : (tokenClaim readToken).map JWTClaim.scope = some (ascii "read:x") := by
          decide +kernel
        rw [hclaim] at hread
        rw [Option.some.inj hread] at hscope
        revert hscope
        unfold RootScope
        decide
      · simp [exampleMiddleware] at hgranted

end LlmTop
