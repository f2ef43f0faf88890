import LlmTop.Ast
import LlmTop.Chk
import LlmTop.Idempotency
import LlmTop.Tokens

/-!
# The enforcement middleware

`evaluate` with its checks in the source's order.  The loops run in `Except`:
an early return is the plan it returns, with whatever was approved before.
-/
namespace LlmTop

structure ApprovedPointer where
  key : Bytes
  resource : Bytes

structure ApprovedTool where
  name : Bytes
  args : OrderedMap
  resource : Bytes
  method : Option Bytes

structure ExecutionPlan where
  authorized : Bool := false
  approvedActions : List Bytes := []
  approvedPointers : List ApprovedPointer := []
  approvedTools : List ApprovedTool := []
  errorMessage : Bytes := []

structure LLMTOPMiddleware where
  jwtValidator : SimpleJWTValidator
  allowDelegation : Bool := false
  outOfBandProxyMode : Bool := false
  enforceIdempotency : Bool := false
  verifyChk : Bool := true
  idempotencyStore : IdempotencyStore := IdempotencyStore.new 1000 3600
  sessionGrantedScopes : Bytes → List Bytes := fun _ => []

namespace LLMTOPMiddleware

def grantSessionCapability (m : LLMTOPMiddleware) (agentId scope : Bytes) : LLMTOPMiddleware :=
  { m with sessionGrantedScopes := fun agent =>
      if agent = agentId then m.sessionGrantedScopes agent ++ [scope]
      else m.sessionGrantedScopes agent }

def revokeSessionCapabilities (m : LLMTOPMiddleware) (agentId : Bytes) : LLMTOPMiddleware :=
  { m with sessionGrantedScopes := fun agent =>
      if agent = agentId then [] else m.sessionGrantedScopes agent }

def validateProxyCapability (m : LLMTOPMiddleware) (agentId requestedScope : Bytes) : Bool :=
  (m.sessionGrantedScopes agentId).any fun granted =>
    granted == requestedScope || scopeMatches granted requestedScope

def validateCapability (m : LLMTOPMiddleware) (now : Int) (capToken resource agentId : Bytes) :
    Bool :=
  let claim := m.jwtValidator.verify now capToken resource
  if !claim.valid then false
  else if !m.allowDelegation && claim.sub ≠ agentId then false
  else true

end LLMTOPMiddleware

def isPointerKey (key : Bytes) : Bool := key == ascii "tgt"

def resourceKeys : List Bytes := ["path", "target", "file", "resource"].map ascii

/-- The first present resource argument with its value; two empty strings when
the call takes no resource. -/
def toolResource (args : OrderedMap) : Bytes × Bytes :=
  (resourceKeys.findSome? fun key => (args.find key).map fun value => (key, value)).getD ([], [])

def extractCapabilityToken (pointerStr : Bytes) : Bytes :=
  match Lib.Search.findSub (ascii "cap=") pointerStr with
  | none => []
  | some capPos =>
      let start := capPos + 4
      let stop := (Lib.Search.findFrom ';'.toUInt8 pointerStr start).getD pointerStr.length
      Lib.Search.substr pointerStr start (stop - start)

def extractResourcePath (pointerStr : Bytes) : Bytes :=
  match Lib.Search.find ':'.toUInt8 pointerStr with
  | none => pointerStr
  | some colon => pointerStr.take colon

/-- The plan of one call and the number of clock readings so far. -/
structure Progress where
  plan : ExecutionPlan
  tick : Nat

def ExecutionPlan.fail (plan : ExecutionPlan) (message : Bytes) : ExecutionPlan :=
  { plan with errorMessage := message }

namespace LLMTOPMiddleware

variable (m : LLMTOPMiddleware) (clock : Clock) (agt : Bytes)

/-- One key/value pair of a statement in the pointer loop. -/
def checkPointer (p : Progress) (kv : Bytes × Bytes) : Except ExecutionPlan Progress :=
  if !isPointerKey kv.1 then .ok p
  else
    let resource := normalizePathSegment (extractResourcePath kv.2)
    if escapesRoot resource then
      .error <| p.plan.fail <| ascii "ERR:cap_required - pointer field '" ++ kv.1 ++
        ascii "' resolves outside any grantable root: " ++ resource
    else if (Lib.Search.findSub (ascii "cap=") kv.2).isSome then
      let capToken := extractCapabilityToken kv.2
      if !m.validateCapability (clock p.tick) capToken resource agt then
        .error <| p.plan.fail <| ascii "ERR:cap_invalid_or_expired for target: " ++ kv.1
      else
        .ok ⟨{ p.plan with
          approvedActions :=
            p.plan.approvedActions ++ [ascii "READ/WRITE authorized for " ++ resource]
          approvedPointers := p.plan.approvedPointers ++ [⟨kv.1, resource⟩] }, p.tick + 1⟩
    else if m.outOfBandProxyMode then
      if !m.validateProxyCapability agt (ascii "read:" ++ resource) &&
          !m.validateProxyCapability agt (ascii "write:" ++ resource) &&
          !m.validateProxyCapability agt resource then
        .error <| p.plan.fail <| ascii "ERR:cap_required - target '" ++ kv.1 ++ ascii "' (" ++
          resource ++ ascii ") not authorized for agent '" ++ agt ++ ascii "' in proxy session"
      else
        .ok ⟨{ p.plan with
          approvedActions := p.plan.approvedActions ++
            [ascii "READ/WRITE authorized (out-of-band proxy) for " ++ resource]
          approvedPointers := p.plan.approvedPointers ++ [⟨kv.1, resource⟩] }, p.tick + 1⟩
    else
      .error <| p.plan.fail <| ascii "ERR:cap_required - pointer field '" ++ kv.1 ++
        ascii "' has no capability token"

/-- The scope a tool call asks for. -/
def toolScope (tool : ToolCall) (resource : Bytes) : Bytes :=
  let scope := ascii "execute:" ++ tool.name
  if !resource.isEmpty then scope ++ ascii ":" ++ resource else scope

/-- The call with its resource argument replaced by the normalized path. -/
def approvedTool (tool : ToolCall) (resourceKey resource : Bytes) : ApprovedTool where
  name := tool.name
  args := if !resourceKey.isEmpty then tool.args.set resourceKey resource else tool.args
  resource := resource
  method := tool.method

def checkTool (p : Progress) (tool : ToolCall) : Except ExecutionPlan Progress :=
  let (resourceKey, rawResource) := toolResource tool.args
  let resource := normalizePathSegment rawResource
  if escapesRoot resource then
    .error <| p.plan.fail <| ascii "ERR:exec - tool call '" ++ tool.name ++
      ascii "' resolves outside any grantable root: " ++ resource
  else
    let scope := toolScope tool resource
    let approved := approvedTool tool resourceKey resource
    match tool.args.find (ascii "cap") with
    | some capToken =>
        if !m.validateCapability (clock p.tick) capToken scope agt then
          .error <| p.plan.fail <| ascii "ERR:exec - Unauthorized tool call: " ++ tool.name
        else
          .ok ⟨{ p.plan with
            approvedActions := p.plan.approvedActions ++ [ascii "TOOL authorized: " ++ tool.name]
            approvedTools := p.plan.approvedTools ++ [approved] }, p.tick + 1⟩
    | none =>
        if m.outOfBandProxyMode then
          if !m.validateProxyCapability agt scope then
            .error <| p.plan.fail <| ascii "ERR:exec - Unauthorized tool call: " ++ tool.name ++
              ascii " for agent " ++ agt ++ ascii " in proxy session"
          else
            .ok ⟨{ p.plan with
              approvedActions := p.plan.approvedActions ++
                [ascii "TOOL authorized (out-of-band proxy): " ++ tool.name]
              approvedTools := p.plan.approvedTools ++ [approved] }, p.tick + 1⟩
        else
          .error <| p.plan.fail <| ascii "ERR:exec - missing capability for tool call: " ++ tool.name

def checkStatement (p : Progress) (stmt : Statement) : Except ExecutionPlan Progress := do
  let p ← stmt.kvpairs.data.foldlM (m.checkPointer clock agt) p
  stmt.toolCalls.foldlM (m.checkTool clock agt) p

end LLMTOPMiddleware

/-- The statement lists `evaluate` walks. -/
def batchesOf (ast : AST) (acceptHealed : Bool) : List (List Statement) :=
  if acceptHealed && !ast.healedDraft.isEmpty then [ast.statements, ast.healedDraft]
  else [ast.statements]

def replayMessage (h : Header) : Bytes :=
  ascii "ERR:replay_detected - Request ID '" ++ h.reqid ++
    ascii "' has already been executed for agent '" ++ h.agt ++ ascii "'"

namespace LLMTOPMiddleware

/-- The checks in front of the statement loops, as the error they end in. -/
def gateError (m : LLMTOPMiddleware) (clock : Clock) (ast : AST) (acceptHealed : Bool) :
    Option Bytes :=
  if ast.header.agt.isEmpty || ast.header.reqid.isEmpty then
    some (ascii "ERR:auth_rejected - Missing agent or request ID")
  else if !ast.healedDraft.isEmpty && !acceptHealed then
    some (ascii "ERR:auth_rejected - Healed statements present but not accepted")
  else if m.verifyChk && ast.header.chk != computeChk ast.rawFrame then
    some (ascii "ERR:integrity - checksum mismatch")
  else if m.enforceIdempotency &&
      m.idempotencyStore.isReplayed (clock 0) ast.header.agt ast.header.reqid then
    some (replayMessage ast.header)
  else none

/-- Both statement lists through the two loops. -/
def checkBatches (m : LLMTOPMiddleware) (clock : Clock) (ast : AST) (acceptHealed : Bool) :
    Except ExecutionPlan Progress :=
  (batchesOf ast acceptHealed).foldlM
    (fun p batch => batch.foldlM (m.checkStatement clock ast.header.agt) p) ⟨{}, 1⟩

/-- The end of `evaluate`: everything is authorized, the request id is used up. -/
def consumeRequest (m : LLMTOPMiddleware) (clock : Clock) (header : Header) (p : Progress) :
    ExecutionPlan × IdempotencyStore :=
  if m.enforceIdempotency then
    match m.idempotencyStore.recordRequest clock p.tick header.agt header.reqid header.chk with
    | (.recorded, store) => ({ p.plan with authorized := true }, store)
    | (.replay, store) =>
        ({ p.plan with approvedActions := [], errorMessage := replayMessage header }, store)
    | (.capacityExceeded, store) =>
        ({ p.plan with
          approvedActions := []
          errorMessage := ascii "ERR:replay_detected - idempotency store at capacity; " ++
            ascii "cannot guarantee exactly-once execution" }, store)
  else ({ p.plan with authorized := true }, m.idempotencyStore)

/-- `evaluate(ast, accept_healed)`: the plan, and the store it leaves.  Reading 0
of the clock is the early replay check's; every later check has its own. -/
def evaluate (m : LLMTOPMiddleware) (clock : Clock) (ast : AST) (acceptHealed : Bool) :
    ExecutionPlan × IdempotencyStore :=
  match m.gateError clock ast acceptHealed with
  | some message => ({ errorMessage := message }, m.idempotencyStore)
  | none =>
      match m.checkBatches clock ast acceptHealed with
      | .error plan => (plan, m.idempotencyStore)
      | .ok p => m.consumeRequest clock ast.header p

end LLMTOPMiddleware
end LlmTop
