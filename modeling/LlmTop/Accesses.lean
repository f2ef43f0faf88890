import LlmTop.Lib.Interleaved
import LlmTop.Sessions
import LlmTop.StoreRuns
import Mathlib.Order.Monotone.Defs

/-!
# The accesses of an evaluation

`evaluate` as a program on a middleware that other threads use and reconfigure:
each load of an atomic flag, each critical section and each reading of the clock
is a step of its own.
-/
namespace LlmTop
open IdempotencyStore Lib.Interleaved Lib.TtlSet

namespace LLMTOPMiddleware

def setOutOfBandProxy (m : LLMTOPMiddleware) (enable : Bool) : LLMTOPMiddleware :=
  { m with outOfBandProxyMode := enable }

def setVerifyChk (m : LLMTOPMiddleware) (enable : Bool) : LLMTOPMiddleware :=
  { m with verifyChk := enable }

def setEnforceIdempotency (m : LLMTOPMiddleware) (enable : Bool) : LLMTOPMiddleware :=
  { m with enforceIdempotency := enable }

def withStore (m : LLMTOPMiddleware) (store : IdempotencyStore) : LLMTOPMiddleware :=
  { m with idempotencyStore := store }

def clearIdempotencyStore (m : LLMTOPMiddleware) : LLMTOPMiddleware :=
  m.withStore m.idempotencyStore.clear

end LLMTOPMiddleware

/-- What a host can call while evaluations are under way. -/
inductive HostCall where
  | session (call : SessionCall)
  | setOutOfBandProxy (enable : Bool)
  | setVerifyChk (enable : Bool)
  | setEnforceIdempotency (enable : Bool)
  | clearIdempotencyStore
deriving DecidableEq

inductive Access where
  | verifyChk
  | enforceIdempotency
  | outOfBandProxyMode
  | now
  | validateProxyCapability (agentId requestedScope : Bytes)
  | isReplayed (q : Request)
  | recordRequest (q : Request) (checksum : Bytes)

def Access.Answer : Access → Type
  | verifyChk => Bool
  | enforceIdempotency => Bool
  | outOfBandProxyMode => Bool
  | now => Int
  | validateProxyCapability _ _ => Bool
  | isReplayed _ => Bool
  | recordRequest _ _ => RecordResult

abbrev Accesses := Program Access Access.Answer

/-- A middleware in use, with the clock readings taken so far and the requests
recorded since its store was last cleared. -/
structure Hosted where
  middleware : LLMTOPMiddleware
  tick : Nat := 0
  journal : Journal Request := []

namespace Hosted

def run (h : Hosted) : Run := ⟨h.middleware.idempotencyStore, h.tick, h.journal⟩

def withRun (h : Hosted) (r : Run) : Hosted :=
  ⟨h.middleware.withStore r.store, r.tick, r.journal⟩

def serve (clock : Clock) (h : Hosted) : (access : Access) → access.Answer × Hosted
  | .verifyChk => (h.middleware.verifyChk, h)
  | .enforceIdempotency => (h.middleware.enforceIdempotency, h)
  | .outOfBandProxyMode => (h.middleware.outOfBandProxyMode, h)
  | .now => (clock h.tick, { h with tick := h.tick + 1 })
  | .validateProxyCapability agentId requestedScope =>
      (h.middleware.validateProxyCapability agentId requestedScope, h)
  | .isReplayed q => ((h.run.query clock q).1, h.withRun (h.run.query clock q).2)
  | .recordRequest q checksum =>
      ((h.run.record clock q checksum).1, h.withRun (h.run.record clock q checksum).2)

def apply (h : Hosted) : HostCall → Hosted
  | .session call => { h with middleware := call.apply h.middleware }
  | .setOutOfBandProxy enable => { h with middleware := h.middleware.setOutOfBandProxy enable }
  | .setVerifyChk enable => { h with middleware := h.middleware.setVerifyChk enable }
  | .setEnforceIdempotency enable =>
      { h with middleware := h.middleware.setEnforceIdempotency enable }
  | .clearIdempotencyStore =>
      { h with middleware := h.middleware.clearIdempotencyStore, journal := [] }

end Hosted

/-! ## The program -/

namespace Evaluating

def verifyChk : Accesses Bool := .question Access.verifyChk

def enforceIdempotency : Accesses Bool := .question Access.enforceIdempotency

def outOfBandProxyMode : Accesses Bool := .question Access.outOfBandProxyMode

def now : Accesses Int := .question Access.now

def validateProxyCapability (agentId requestedScope : Bytes) : Accesses Bool :=
  .question (Access.validateProxyCapability agentId requestedScope)

def isReplayed (q : Request) : Accesses Bool := .question (Access.isReplayed q)

def recordRequest (q : Request) (checksum : Bytes) : Accesses RecordResult :=
  .question (Access.recordRequest q checksum)

-- of `m` only what no setter changes is used, the validator and the delegation option
variable (m : LLMTOPMiddleware) (agt : Bytes)

def validateCapability (capToken resource : Bytes) : Accesses Bool := do
  let time ← now
  pure (m.validateCapability time capToken resource agt)

/-- One critical section for each scope, until one of them is granted. -/
def validateAnyCapability : List Bytes → Accesses Bool
  | [] => pure false
  | scope :: scopes => do
      if ← validateProxyCapability agt scope then pure true else validateAnyCapability scopes

def checkPointer (plan : ExecutionPlan) (kv : Bytes × Bytes) :
    ExceptT ExecutionPlan Accesses ExecutionPlan :=
  if !isPointerKey kv.1 then pure plan
  else
    let resource := normalizePathSegment (extractResourcePath kv.2)
    if escapesRoot resource then
      throw <| plan.fail <| ascii "ERR:cap_required - pointer field '" ++ kv.1 ++
        ascii "' resolves outside any grantable root: " ++ resource
    else if (Lib.Search.findSub (ascii "cap=") kv.2).isSome then do
      let capToken := extractCapabilityToken kv.2
      if !(← validateCapability m agt capToken resource) then
        throw <| plan.fail <| ascii "ERR:cap_invalid_or_expired for target: " ++ kv.1
      else
        pure { plan with
          approvedActions := plan.approvedActions ++ [ascii "READ/WRITE authorized for " ++ resource]
          approvedPointers := plan.approvedPointers ++ [⟨kv.1, resource⟩] }
    else do
      if ← outOfBandProxyMode then
        if !(← validateAnyCapability agt
            [ascii "read:" ++ resource, ascii "write:" ++ resource, resource]) then
          throw <| plan.fail <| ascii "ERR:cap_required - target '" ++ kv.1 ++ ascii "' (" ++
            resource ++ ascii ") not authorized for agent '" ++ agt ++ ascii "' in proxy session"
        else
          pure { plan with
            approvedActions := plan.approvedActions ++
              [ascii "READ/WRITE authorized (out-of-band proxy) for " ++ resource]
            approvedPointers := plan.approvedPointers ++ [⟨kv.1, resource⟩] }
      else
        throw <| plan.fail <| ascii "ERR:cap_required - pointer field '" ++ kv.1 ++
          ascii "' has no capability token"

def checkTool (plan : ExecutionPlan) (tool : ToolCall) :
    ExceptT ExecutionPlan Accesses ExecutionPlan :=
  let (resourceKey, rawResource) := toolResource tool.args
  let resource := normalizePathSegment rawResource
  if escapesRoot resource then
    throw <| plan.fail <| ascii "ERR:exec - tool call '" ++ tool.name ++
      ascii "' resolves outside any grantable root: " ++ resource
  else
    let scope := LLMTOPMiddleware.toolScope tool resource
    let approved := LLMTOPMiddleware.approvedTool tool resourceKey resource
    match tool.args.find (ascii "cap") with
    | some capToken => do
        if !(← validateCapability m agt capToken scope) then
          throw <| plan.fail <| ascii "ERR:exec - Unauthorized tool call: " ++ tool.name
        else
          pure { plan with
            approvedActions := plan.approvedActions ++ [ascii "TOOL authorized: " ++ tool.name]
            approvedTools := plan.approvedTools ++ [approved] }
    | none => do
        if ← outOfBandProxyMode then
          if !(← validateProxyCapability agt scope) then
            throw <| plan.fail <| ascii "ERR:exec - Unauthorized tool call: " ++ tool.name ++
              ascii " for agent " ++ agt ++ ascii " in proxy session"
          else
            pure { plan with
              approvedActions := plan.approvedActions ++
                [ascii "TOOL authorized (out-of-band proxy): " ++ tool.name]
              approvedTools := plan.approvedTools ++ [approved] }
        else
          throw <| plan.fail <| ascii "ERR:exec - missing capability for tool call: " ++ tool.name

def checkStatement (plan : ExecutionPlan) (stmt : Statement) :
    ExceptT ExecutionPlan Accesses ExecutionPlan := do
  let plan ← stmt.kvpairs.data.foldlM (checkPointer m agt) plan
  stmt.toolCalls.foldlM (checkTool m agt) plan

def checkBatches (ast : AST) (acceptHealed : Bool) :
    ExceptT ExecutionPlan Accesses ExecutionPlan :=
  (batchesOf ast acceptHealed).foldlM
    (fun plan batch => batch.foldlM (checkStatement m ast.header.agt) plan) {}

def requestOf (header : Header) : Request := ⟨header.agt, header.reqid⟩

/-- `is_replayed` is asked only while the flag is on. -/
def replayed (header : Header) : Accesses Bool := do
  if ← enforceIdempotency then isReplayed (requestOf header) else pure false

def gateError (ast : AST) (acceptHealed : Bool) : Accesses (Option Bytes) :=
  if ast.header.agt.isEmpty || ast.header.reqid.isEmpty then
    pure (some (ascii "ERR:auth_rejected - Missing agent or request ID"))
  else if !ast.healedDraft.isEmpty && !acceptHealed then
    pure (some (ascii "ERR:auth_rejected - Healed statements present but not accepted"))
  else do
    if (← verifyChk) && ast.header.chk != computeChk ast.rawFrame then
      pure (some (ascii "ERR:integrity - checksum mismatch"))
    else if ← replayed ast.header then pure (some (replayMessage ast.header))
    else pure none

/-- The flag is loaded a second time. -/
def consumeRequest (header : Header) (plan : ExecutionPlan) : Accesses ExecutionPlan := do
  if ← enforceIdempotency then
    match ← recordRequest (requestOf header) header.chk with
    | .recorded => pure { plan with authorized := true }
    | .replay => pure { plan with approvedActions := [], errorMessage := replayMessage header }
    | .capacityExceeded =>
        pure { plan with
          approvedActions := []
          errorMessage := ascii "ERR:replay_detected - idempotency store at capacity; " ++
            ascii "cannot guarantee exactly-once execution" }
  else pure { plan with authorized := true }

def evaluate (ast : AST) (acceptHealed : Bool) : Accesses ExecutionPlan := do
  match ← gateError ast acceptHealed with
  | some message => pure { errorMessage := message }
  | none =>
      match ← (checkBatches m ast acceptHealed).run with
      | .error plan => pure plan
      | .ok plan => consumeRequest ast.header plan

end Evaluating

/-! ## One entry -/

namespace Entry

/-- The scope a token has to be good for. -/
def tokenScope : Entry → Bytes
  | pointer field => field.resource
  | tool call => call.scope

def escapeMessage : Entry → Bytes
  | pointer field => ascii "ERR:cap_required - pointer field '" ++ field.key ++
      ascii "' resolves outside any grantable root: " ++ field.resource
  | tool call => ascii "ERR:exec - tool call '" ++ call.name ++
      ascii "' resolves outside any grantable root: " ++ call.resource

def invalidMessage : Entry → Bytes
  | pointer field => ascii "ERR:cap_invalid_or_expired for target: " ++ field.key
  | tool call => ascii "ERR:exec - Unauthorized tool call: " ++ call.name

def ungrantedMessage (agt : Bytes) : Entry → Bytes
  | pointer field => ascii "ERR:cap_required - target '" ++ field.key ++ ascii "' (" ++
      field.resource ++ ascii ") not authorized for agent '" ++ agt ++ ascii "' in proxy session"
  | tool call => ascii "ERR:exec - Unauthorized tool call: " ++ call.name ++
      ascii " for agent " ++ agt ++ ascii " in proxy session"

def bareMessage : Entry → Bytes
  | pointer field => ascii "ERR:cap_required - pointer field '" ++ field.key ++
      ascii "' has no capability token"
  | tool call => ascii "ERR:exec - missing capability for tool call: " ++ call.name

variable (plan : ExecutionPlan)

theorem record_pointer (field : PointerField) :
    (pointer field).record plan = { plan with
      approvedActions := plan.approvedActions ++ [(pointer field).action]
      approvedPointers := plan.approvedPointers ++ [⟨field.key, field.resource⟩] } := by
  simp [record, Entry.field, Entry.call, PointerField.approve]

theorem record_tool (call : ToolCall) :
    (tool call).record plan = { plan with
      approvedActions := plan.approvedActions ++ [(tool call).action]
      approvedTools := plan.approvedTools ++ [call.approve] } := by
  simp [record, Entry.field, Entry.call]

end Entry

theorem PointerField.scopes_of_proxy (field : PointerField) (h : field.token = none) :
    (Entry.pointer field).scopes =
      [ascii "read:" ++ field.resource, ascii "write:" ++ field.resource, field.resource] := by
  simp [Entry.scopes, PointerField.scopes, h]

namespace LLMTOPMiddleware

section Entries

variable (m : LLMTOPMiddleware) (clock : Clock) (agt : Bytes) (p : Progress)

theorem checkPointer_eq (field : PointerField) :
    m.checkPointer clock agt p (field.key, field.value) =
      if escapesRoot field.resource then .error (p.plan.fail (Entry.pointer field).escapeMessage)
      else
        match field.token with
        | some token =>
            if m.validateCapability (clock p.tick) token field.resource agt then
              .ok (advance p (.pointer field))
            else .error (p.plan.fail (Entry.pointer field).invalidMessage)
        | none =>
            if m.outOfBandProxyMode then
              if (Entry.pointer field).scopes.any (m.validateProxyCapability agt) then
                .ok (advance p (.pointer field))
              else .error (p.plan.fail ((Entry.pointer field).ungrantedMessage agt))
            else .error (p.plan.fail (Entry.pointer field).bareMessage) := by
  have hkey : ¬(!isPointerKey field.key) = true := by simp [field.isPointer]
  have hresource : normalizePathSegment (extractResourcePath field.value) = field.resource := rfl
  unfold checkPointer
  simp only [if_neg hkey, hresource]
  split
  · rfl
  split
  · rename_i hcap
    have htoken : field.token = some (extractCapabilityToken field.value) := if_pos hcap
    rw [htoken]
    dsimp only
    cases m.validateCapability (clock p.tick) (extractCapabilityToken field.value)
      field.resource agt with
    | false => rfl
    | true => simp [advance, Entry.record_pointer, Entry.action, htoken]
  · rename_i hcap
    have htoken : field.token = none := if_neg hcap
    rw [field.scopes_of_proxy htoken, htoken]
    dsimp only
    split
    · simp only [List.any_cons, List.any_nil, Bool.or_false]
      cases m.validateProxyCapability agt (ascii "read:" ++ field.resource) <;>
      cases m.validateProxyCapability agt (ascii "write:" ++ field.resource) <;>
      cases m.validateProxyCapability agt field.resource <;>
      simp [advance, Entry.record_pointer, Entry.action, Entry.ungrantedMessage, htoken]
    · rfl

theorem checkTool_eq (call : ToolCall) :
    m.checkTool clock agt p call =
      if escapesRoot call.resource then .error (p.plan.fail (Entry.tool call).escapeMessage)
      else
        match call.token with
        | some token =>
            if m.validateCapability (clock p.tick) token call.scope agt then
              .ok (advance p (.tool call))
            else .error (p.plan.fail (Entry.tool call).invalidMessage)
        | none =>
            if m.outOfBandProxyMode then
              if (Entry.tool call).scopes.any (m.validateProxyCapability agt) then
                .ok (advance p (.tool call))
              else .error (p.plan.fail ((Entry.tool call).ungrantedMessage agt))
            else .error (p.plan.fail (Entry.tool call).bareMessage) := by
  have hresource : normalizePathSegment (toolResource call.args).2 = call.resource := rfl
  have hscope : toolScope call call.resource = call.scope := rfl
  have happrove : approvedTool call (toolResource call.args).1 call.resource = call.approve := rfl
  have hfind : call.args.find (ascii "cap") = call.token := rfl
  have hscopes : (Entry.tool call).scopes = [call.scope] := rfl
  unfold checkTool
  simp only [hresource, hscope, happrove, hfind, hscopes]
  split
  · rfl
  cases htoken : call.token with
  | some capToken =>
      dsimp only
      cases m.validateCapability (clock p.tick) capToken call.scope agt with
      | false => rfl
      | true => simp [advance, Entry.record_tool, Entry.action, htoken]
  | none =>
      dsimp only
      split
      · simp only [List.any_cons, List.any_nil, Bool.or_false]
        cases m.validateProxyCapability agt call.scope with
        | false => rfl
        | true => simp [advance, Entry.record_tool, Entry.action, htoken]
      · rfl

/-- The check of one entry of either kind. -/
theorem checkEntry_eq (e : Entry) :
    m.checkEntry clock agt p e =
      if escapesRoot e.resource then .error (p.plan.fail e.escapeMessage)
      else
        match e.token with
        | some token =>
            if m.validateCapability (clock p.tick) token e.tokenScope agt then .ok (advance p e)
            else .error (p.plan.fail e.invalidMessage)
        | none =>
            if m.outOfBandProxyMode then
              if e.scopes.any (m.validateProxyCapability agt) then .ok (advance p e)
              else .error (p.plan.fail (e.ungrantedMessage agt))
            else .error (p.plan.fail e.bareMessage) := by
  cases e with
  | pointer field => exact m.checkPointer_eq clock agt p field
  | tool call => exact m.checkTool_eq clock agt p call

end Entries

end LLMTOPMiddleware

namespace Evaluating

variable (m : LLMTOPMiddleware) (agt : Bytes)

theorem validateAnyCapability_singleton (scope : Bytes) :
    validateAnyCapability agt [scope] = validateProxyCapability agt scope := by
  unfold validateAnyCapability validateAnyCapability
  refine (congrArg _ (funext fun granted => ?_)).trans (bind_pure (validateProxyCapability agt scope))
  cases granted <;> rfl

def checkEntry (plan : ExecutionPlan) : Entry → ExceptT ExecutionPlan Accesses ExecutionPlan
  | .pointer field => checkPointer m agt plan (field.key, field.value)
  | .tool call => checkTool m agt plan call

theorem checkPointer_run (plan : ExecutionPlan) (field : PointerField) :
    (checkPointer m agt plan (field.key, field.value)).run =
      (if escapesRoot field.resource then pure (.error (plan.fail (Entry.pointer field).escapeMessage))
      else
        match field.token with
        | some token => do
            let valid ← validateCapability m agt token field.resource
            pure (if valid then .ok ((Entry.pointer field).record plan)
              else .error (plan.fail (Entry.pointer field).invalidMessage))
        | none => do
            if ← outOfBandProxyMode then
              let granted ← validateAnyCapability agt (Entry.pointer field).scopes
              pure (if granted then .ok ((Entry.pointer field).record plan)
                else .error (plan.fail ((Entry.pointer field).ungrantedMessage agt)))
            else pure (.error (plan.fail (Entry.pointer field).bareMessage))) := by
  have hkey : ¬(!isPointerKey field.key) = true := by simp [field.isPointer]
  have hresource : normalizePathSegment (extractResourcePath field.value) = field.resource := rfl
  unfold checkPointer
  dsimp only
  simp only [if_neg hkey, hresource]
  split
  · rfl
  split
  · rename_i hcap
    have htoken : field.token = some (extractCapabilityToken field.value) := if_pos hcap
    rw [htoken, Program.run_liftM_bind]
    refine congrArg _ (funext fun valid => ?_)
    cases valid with
    | false => rfl
    | true => simp [Entry.record_pointer, Entry.action, htoken]
  · rename_i hcap
    have htoken : field.token = none := if_neg hcap
    rw [field.scopes_of_proxy htoken, htoken, Program.run_liftM_bind]
    refine congrArg _ (funext fun proxy => ?_)
    cases proxy with
    | false => rfl
    | true =>
        simp only [if_true]
        rw [Program.run_liftM_bind]
        refine congrArg _ (funext fun granted => ?_)
        cases granted with
        | false => rfl
        | true => simp [Entry.record_pointer, Entry.action, htoken]

theorem checkTool_run (plan : ExecutionPlan) (call : ToolCall) :
    (checkTool m agt plan call).run =
      (if escapesRoot call.resource then pure (.error (plan.fail (Entry.tool call).escapeMessage))
      else
        match call.token with
        | some token => do
            let valid ← validateCapability m agt token call.scope
            pure (if valid then .ok ((Entry.tool call).record plan)
              else .error (plan.fail (Entry.tool call).invalidMessage))
        | none => do
            if ← outOfBandProxyMode then
              let granted ← validateAnyCapability agt (Entry.tool call).scopes
              pure (if granted then .ok ((Entry.tool call).record plan)
                else .error (plan.fail ((Entry.tool call).ungrantedMessage agt)))
            else pure (.error (plan.fail (Entry.tool call).bareMessage))) := by
  have hresource : normalizePathSegment (toolResource call.args).2 = call.resource := rfl
  have hscope : LLMTOPMiddleware.toolScope call call.resource = call.scope := rfl
  have happrove :
      LLMTOPMiddleware.approvedTool call (toolResource call.args).1 call.resource = call.approve := rfl
  have hfind : call.args.find (ascii "cap") = call.token := rfl
  have hscopes : (Entry.tool call).scopes = [call.scope] := rfl
  unfold checkTool
  dsimp only
  simp only [hresource, hscope, happrove, hfind]
  split
  · rfl
  cases htoken : call.token with
  | some capToken =>
      dsimp only
      rw [Program.run_liftM_bind]
      refine congrArg _ (funext fun valid => ?_)
      cases valid with
      | false => rfl
      | true => simp [Entry.record_tool, Entry.action, htoken]
  | none =>
      dsimp only
      rw [Program.run_liftM_bind]
      refine congrArg _ (funext fun proxy => ?_)
      cases proxy with
      | false => rfl
      | true =>
          simp only [if_true]
          rw [hscopes, validateAnyCapability_singleton, Program.run_liftM_bind]
          refine congrArg _ (funext fun granted => ?_)
          cases granted with
          | false => rfl
          | true => simp [Entry.record_tool, Entry.action, htoken]

theorem checkEntry_run (plan : ExecutionPlan) (e : Entry) :
    (checkEntry m agt plan e).run =
      (if escapesRoot e.resource then pure (.error (plan.fail e.escapeMessage))
      else
        match e.token with
        | some token => do
            let valid ← validateCapability m agt token e.tokenScope
            pure (if valid then .ok (e.record plan) else .error (plan.fail e.invalidMessage))
        | none => do
            if ← outOfBandProxyMode then
              let granted ← validateAnyCapability agt e.scopes
              pure (if granted then .ok (e.record plan)
                else .error (plan.fail (e.ungrantedMessage agt)))
            else pure (.error (plan.fail e.bareMessage))) := by
  cases e with
  | pointer field => exact checkPointer_run m agt plan field
  | tool call => exact checkTool_run m agt plan call

theorem checkPointer_fold (kvs : List (Bytes × Bytes)) (plan : ExecutionPlan) :
    kvs.foldlM (checkPointer m agt) plan =
      ((kvs.filterMap PointerField.ofPair).map Entry.pointer).foldlM (checkEntry m agt) plan := by
  rw [List.foldlM_map, List.foldlM_filterMap]
  refine congrArg (fun step => kvs.foldlM step plan) (funext fun plan => funext fun kv => ?_)
  unfold PointerField.ofPair
  by_cases hkey : isPointerKey kv.1 = true
  · rw [dif_pos hkey]
    rfl
  · rw [dif_neg hkey, checkPointer, if_pos (by simpa using hkey)]

theorem checkStatement_eq (plan : ExecutionPlan) (stmt : Statement) :
    checkStatement m agt plan stmt = stmt.entries.foldlM (checkEntry m agt) plan := by
  rw [Statement.entries, List.foldlM_append, Statement.pointerFields, ← checkPointer_fold,
    checkStatement]
  refine congrArg _ (funext fun plan => ?_)
  rw [List.foldlM_map]
  rfl

theorem checkBatches_eq (ast : AST) (acceptHealed : Bool) :
    checkBatches m ast acceptHealed =
      (entriesOf ast acceptHealed).foldlM (checkEntry m ast.header.agt) {} := by
  rw [checkBatches, entriesOf, Program.foldlM_flatMap, ← List.flatMap_id, Program.foldlM_flatMap]
  simp only [← checkStatement_eq]
  rfl

end Evaluating

/-! ## Without interruption -/

namespace Evaluating

variable (clock : Clock) (h : Hosted) (agt : Bytes)

theorem run_validateAnyCapability (scopes : List Bytes) :
    (validateAnyCapability agt scopes).run (Hosted.serve clock) h =
      (scopes.any (h.middleware.validateProxyCapability agt), h) := by
  induction scopes with
  | nil => rfl
  | cons scope scopes ih =>
      have hfirst : (validateProxyCapability agt scope).run (Hosted.serve clock) h =
          (h.middleware.validateProxyCapability agt scope, h) := rfl
      unfold validateAnyCapability
      rw [Program.run_bind, hfirst, List.any_cons]
      dsimp only
      cases h.middleware.validateProxyCapability agt scope with
      | true => rfl
      | false => exact ih

/-- Only a token's check reads the clock. -/
def readsClock (e : Entry) : Bool := !escapesRoot e.resource && e.token.isSome

/-- One entry, with the clock reading it takes, if it takes one. -/
theorem run_checkEntry (plan : ExecutionPlan) (e : Entry) {clock' : Clock} {turn : Nat}
    (hclock : clock' turn = clock h.tick) :
    (checkEntry h.middleware agt plan e).run.run (Hosted.serve clock) h =
      ((h.middleware.checkEntry clock' agt ⟨plan, turn⟩ e).map Progress.plan,
        { h with tick := if readsClock e then h.tick + 1 else h.tick }) := by
  rw [checkEntry_run, LLMTOPMiddleware.checkEntry_eq, readsClock]
  cases hescapes : escapesRoot e.resource with
  | true => rfl
  | false =>
      cases htoken : e.token with
      | some token =>
          have hvalid : (validateCapability h.middleware agt token e.tokenScope).run
              (Hosted.serve clock) h = (h.middleware.validateCapability (clock h.tick) token
                e.tokenScope agt, { h with tick := h.tick + 1 }) := rfl
          simp only [Bool.false_eq_true, if_false, Program.run_bind, hvalid, hclock]
          cases h.middleware.validateCapability (clock h.tick) token e.tokenScope agt <;> rfl
      | none =>
          have hproxy : outOfBandProxyMode.run (Hosted.serve clock) h =
              (h.middleware.outOfBandProxyMode, h) := rfl
          simp only [Bool.false_eq_true, if_false, Program.run_bind, hproxy]
          cases h.middleware.outOfBandProxyMode with
          | false => rfl
          | true =>
              simp only [if_true, Program.run_bind, run_validateAnyCapability clock h agt]
              cases e.scopes.any (h.middleware.validateProxyCapability agt) <;> rfl

/-- The clock reading of the `k`-th entry when the first is met at `tick`. -/
def readingOf : List Entry → Nat → Nat → Nat
  | [], tick, k => tick + k
  | _ :: _, tick, 0 => tick
  | e :: entries, tick, k + 1 => readingOf entries (if readsClock e then tick + 1 else tick) k

theorem readingOf_behind (entries : List Entry) (tick k : Nat) :
    readingOf entries tick (entries.length + k) = readingOf entries tick entries.length + k := by
  induction entries generalizing tick with
  | nil => simp [readingOf]
  | cons e entries ih =>
      rw [List.length_cons, Nat.add_right_comm]
      exact ih _

theorem le_readingOf (entries : List Entry) (tick k : Nat) : tick ≤ readingOf entries tick k := by
  induction entries generalizing tick k with
  | nil => exact Nat.le_add_right _ _
  | cons e entries ih =>
      cases k with
      | zero => exact le_rfl
      | succ k =>
          refine le_trans ?_ (ih _ k)
          split <;> omega

theorem readingOf_mono (entries : List Entry) (tick : Nat) : Monotone (readingOf entries tick) := by
  induction entries generalizing tick with
  | nil => exact fun k k' hle => Nat.add_le_add_left hle tick
  | cons e entries ih =>
      intro k k' hle
      cases k with
      | zero => exact le_readingOf _ _ _
      | succ k =>
          obtain ⟨k', rfl⟩ : ∃ j, k' = j + 1 := ⟨k' - 1, by omega⟩
          exact ih _ (Nat.le_of_succ_le_succ hle)

/-- The walk over the entries, each with its own reading. -/
theorem run_walk (entries : List Entry) (plan : ExecutionPlan) {clock' : Clock} {turn : Nat}
    (hclock : ∀ k, clock' (turn + k) = clock (readingOf entries h.tick k)) :
    ∃ tick, (entries.foldlM (checkEntry h.middleware agt) plan).run.run (Hosted.serve clock) h =
        ((entries.foldlM (h.middleware.checkEntry clock' agt) ⟨plan, turn⟩).map Progress.plan,
          { h with tick := tick }) ∧
      ((entries.foldlM (h.middleware.checkEntry clock' agt) ⟨plan, turn⟩).isOk = true →
        tick = readingOf entries h.tick entries.length) := by
  induction entries generalizing h plan turn with
  | nil => exact ⟨h.tick, rfl, fun _ => rfl⟩
  | cons e entries ih =>
      have hturn : clock' turn = clock h.tick := hclock 0
      have hfirst := run_checkEntry clock h agt plan e hturn
      rw [List.foldlM_cons, List.foldlM_cons, ExceptT.run_bind, Program.run_bind, hfirst]
      rcases h.middleware.checkEntry_guards clock' agt ⟨plan, turn⟩ e with ⟨-, hok⟩ |
        ⟨-, stopped, herror, -⟩
      · rw [hok]
        refine @ih { h with tick := if readsClock e then h.tick + 1 else h.tick } (e.record plan)
          (turn + 1) fun k => ?_
        rw [Nat.add_assoc, Nat.add_comm 1 k]
        exact hclock (k + 1)
      · rw [herror]
        exact ⟨_, rfl, fun h => nomatch h⟩

end Evaluating

namespace Hosted

theorem withRun_query (h : Hosted) (clock : Clock) (q : Request) :
    ∃ tick, h.tick ≤ tick ∧ h.withRun (h.run.query clock q).2 = { h with tick := tick } := by
  unfold Run.query
  dsimp only
  split_ifs
  · exact ⟨h.tick + 1, Nat.le_succ _, rfl⟩
  · exact ⟨h.tick, le_rfl, rfl⟩

end Hosted

namespace Evaluating

variable (clock : Clock) (h : Hosted)

theorem run_replayed (header : Header) :
    ∃ tick, h.tick ≤ tick ∧ (replayed header).run (Hosted.serve clock) h =
      (h.middleware.enforceIdempotency && h.middleware.idempotencyStore.isReplayed (clock h.tick)
        header.agt header.reqid, { h with tick := tick }) := by
  have henforce : enforceIdempotency.run (Hosted.serve clock) h =
      (h.middleware.enforceIdempotency, h) := rfl
  unfold replayed
  rw [Program.run_bind, henforce]
  cases h.middleware.enforceIdempotency with
  | false => exact ⟨h.tick, le_rfl, rfl⟩
  | true =>
      obtain ⟨tick, hle, hquery⟩ := h.withRun_query clock (requestOf header)
      exact ⟨tick, hle, congrArg (Prod.mk _) hquery⟩

theorem run_gateError (ast : AST) (acceptHealed : Bool) {clock' : Clock}
    (hclock : clock' 0 = clock h.tick) :
    ∃ tick, h.tick ≤ tick ∧ (gateError ast acceptHealed).run (Hosted.serve clock) h =
      (h.middleware.gateError clock' ast acceptHealed, { h with tick := tick }) := by
  have hverify : verifyChk.run (Hosted.serve clock) h = (h.middleware.verifyChk, h) := rfl
  unfold gateError LLMTOPMiddleware.gateError
  split
  · exact ⟨h.tick, le_rfl, rfl⟩
  · split
    · exact ⟨h.tick, le_rfl, rfl⟩
    · rw [Program.run_bind, hverify]
      dsimp only
      split
      · exact ⟨h.tick, le_rfl, rfl⟩
      · obtain ⟨tick, hle, hreplayed⟩ := run_replayed clock h ast.header
        refine ⟨tick, hle, ?_⟩
        rw [Program.run_bind, hreplayed, hclock]
        dsimp only
        split <;> rfl

theorem run_consumeRequest (header : Header) (plan : ExecutionPlan) {clock' : Clock} {turn : Nat}
    (hclock : ∀ k, clock' (turn + k) = clock (h.tick + k)) :
    let alone := (consumeRequest header plan).run (Hosted.serve clock) h
    let (plan, store) := h.middleware.consumeRequest clock' header ⟨plan, turn⟩
    alone.1 = plan ∧ alone.2.middleware = h.middleware.withStore store := by
  have henforce : enforceIdempotency.run (Hosted.serve clock) h =
      (h.middleware.enforceIdempotency, h) := rfl
  unfold consumeRequest LLMTOPMiddleware.consumeRequest
  rw [Program.run_bind, henforce]
  dsimp only
  cases hflag : h.middleware.enforceIdempotency with
  | false => exact ⟨rfl, rfl⟩
  | true =>
      have hresult := h.run.record_result clock (requestOf header) header.chk
      have hstore := h.run.record_store clock (requestOf header) header.chk
      have hrecord : (recordRequest (requestOf header) header.chk).run (Hosted.serve clock) h =
          ((h.run.record clock (requestOf header) header.chk).1,
            h.withRun (h.run.record clock (requestOf header) header.chk).2) := rfl
      have hsame := h.middleware.idempotencyStore.recordRequest_congr hclock header.agt
        header.reqid header.chk
      replace hresult : _ = (h.middleware.idempotencyStore.recordRequest clock h.tick header.agt
        header.reqid header.chk).1 := hresult
      replace hstore : _ = (h.middleware.idempotencyStore.recordRequest clock h.tick header.agt
        header.reqid header.chk).2 := hstore
      simp only [if_true, Program.run_bind, hrecord, hsame]
      rw [hresult]
      generalize h.middleware.idempotencyStore.recordRequest clock h.tick header.agt header.reqid
        header.chk = answer at hresult hstore ⊢
      obtain ⟨result, store⟩ := answer
      have hmiddleware : (h.withRun (h.run.record clock (requestOf header) header.chk).2).middleware =
          h.middleware.withStore store := congrArg h.middleware.withStore hstore
      cases result <;> exact ⟨rfl, hmiddleware⟩

/-- Undisturbed, the accesses of an evaluation make up `evaluate`: of the clock
it has some of the readings, in their order. -/
theorem evaluate_undisturbed (h : Hosted) (clock : Clock) (ast : AST) (acceptHealed : Bool) :
    ∃ reading : Nat → Nat, Monotone reading ∧ (∀ k, h.tick ≤ reading k) ∧
      let alone := (evaluate h.middleware ast acceptHealed).run (Hosted.serve clock) h
      let (plan, store) := h.middleware.evaluate (clock ∘ reading) ast acceptHealed
      alone.1 = plan ∧ alone.2.middleware = h.middleware.withStore store := by
  obtain ⟨tick, hle, hgate⟩ := @run_gateError clock h ast acceptHealed
    (fun _ => clock h.tick) rfl
  let entries := entriesOf ast acceptHealed
  let reading : Nat → Nat := fun k => if k = 0 then h.tick else readingOf entries tick (k - 1)
  have hgateError : h.middleware.gateError (clock ∘ reading) ast acceptHealed =
      h.middleware.gateError (fun _ => clock h.tick) ast acceptHealed := rfl
  have hturns : ∀ k, (clock ∘ reading) (1 + k) = clock (readingOf entries tick k) := by
    intro k
    change clock (if 1 + k = 0 then _ else _) = _
    rw [if_neg (by omega), Nat.add_sub_cancel_left]
  refine ⟨reading, ?_, ?_, ?_⟩
  · intro k k' hkk
    dsimp only [reading]
    split_ifs with hk hk'
    · exact le_rfl
    · exact hle.trans (le_readingOf _ _ _)
    · omega
    · exact readingOf_mono _ _ (Nat.sub_le_sub_right hkk 1)
  · intro k
    dsimp only [reading]
    split_ifs
    · exact le_rfl
    · exact hle.trans (le_readingOf _ _ _)
  · unfold evaluate LLMTOPMiddleware.evaluate
    rw [Program.run_bind, hgate, hgateError]
    cases h.middleware.gateError (fun _ => clock h.tick) ast acceptHealed with
    | some message => exact ⟨rfl, rfl⟩
    | none =>
        obtain ⟨tick', hwalk, hend⟩ := run_walk clock { h with tick := tick } ast.header.agt entries
          {} hturns
        dsimp only at hwalk hend ⊢
        rw [← LLMTOPMiddleware.checkBatches_eq] at hwalk hend
        rw [Program.run_bind, checkBatches_eq, hwalk]
        rcases h.middleware.checkBatches_cases (clock ∘ reading) ast acceptHealed with ⟨-, hok⟩ |
          ⟨-, before, e, after, message, -, -, -, herror⟩
        · rw [hok] at hend ⊢
          refine run_consumeRequest clock _ ast.header _ fun k => ?_
          rw [hend rfl, ← readingOf_behind, ← hturns, ← Nat.add_assoc, Nat.add_comm 1]
        · rw [herror]
          exact ⟨rfl, rfl⟩

end Evaluating
end LlmTop
