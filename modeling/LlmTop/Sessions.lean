import Mathlib.Data.List.DropRight
import LlmTop.Authorization

/-!
# Session grants of one agent

A history of grant and revoke calls, seen by one agent: its own grants since its
last revoke.  Nothing else in the grant table reaches its evaluations.
-/
namespace LlmTop

inductive SessionCall where
  | grantCapability (agentId scope : Bytes)
  | revokeCapabilities (agentId : Bytes)
deriving DecidableEq

namespace SessionCall

def agentId : SessionCall → Bytes
  | grantCapability agentId _ => agentId
  | revokeCapabilities agentId => agentId

/-- The scope that is granted, if any. -/
def scope : SessionCall → Option Bytes
  | grantCapability _ scope => some scope
  | revokeCapabilities _ => none

def isGrant (call : SessionCall) : Bool := call.scope.isSome

def apply (m : LLMTOPMiddleware) : SessionCall → LLMTOPMiddleware
  | grantCapability agentId scope => m.grantSessionCapability agentId scope
  | revokeCapabilities agentId => m.revokeSessionCapabilities agentId

/-- The calls about the agent behind its last revoke. -/
def relevant (agent : Bytes) (history : List SessionCall) : List SessionCall :=
  (history.filter fun call => call.agentId = agent).rtakeWhile isGrant

theorem relevant_append_other {agent : Bytes} {call : SessionCall} (h : call.agentId ≠ agent)
    (history : List SessionCall) : relevant agent (history ++ [call]) = relevant agent history := by
  simp [relevant, List.filter_append, h]

theorem relevant_append_own {agent : Bytes} {call : SessionCall} (h : call.agentId = agent)
    (history : List SessionCall) : relevant agent (history ++ [call]) =
      if call.isGrant then relevant agent history ++ [call] else [] := by
  have hown : [call].filter (fun call => call.agentId = agent) = [call] := by simp [h]
  rw [relevant, List.filter_append, hown, List.rtakeWhile_concat, relevant]

/-- The relevant calls stand for the whole history. -/
theorem relevant_relevant (agent : Bytes) (history : List SessionCall) :
    relevant agent (relevant agent history) = relevant agent history := by
  have hown : (relevant agent history).filter (fun call => call.agentId = agent) =
      relevant agent history := by
    refine List.filter_eq_self.mpr fun call hcall => ?_
    have hmem := (List.rtakeWhile_suffix isGrant
      (history.filter fun call => call.agentId = agent)).subset hcall
    exact (List.mem_filter.mp hmem).2
  rw [relevant, hown, List.rtakeWhile_eq_self_iff]
  intro call hcall
  exact List.mem_rtakeWhile_imp (p := isGrant) hcall

/-- What the history leaves in the agent's slot of the grant table. -/
def grantsOf (history : List SessionCall) (agent : Bytes) : List Bytes :=
  (relevant agent history).filterMap scope

theorem grantsOf_append (history : List SessionCall) (call : SessionCall) (agent : Bytes) :
    grantsOf (history ++ [call]) agent =
      if agent = call.agentId then call.scope.elim [] fun s => grantsOf history agent ++ [s]
      else grantsOf history agent := by
  unfold grantsOf
  split
  · rename_i hown
    rw [relevant_append_own hown.symm, isGrant]
    cases hscope : call.scope with
    | none => rfl
    | some s => simp [hscope]
  · rename_i hother
    rw [relevant_append_other (Ne.symm hother)]

end SessionCall

namespace LLMTOPMiddleware

def withGrants (m : LLMTOPMiddleware) (grants : Bytes → List Bytes) : LLMTOPMiddleware :=
  { m with sessionGrantedScopes := grants }

/-- A fresh middleware with these settings, after the history's calls. -/
def afterCalls (m : LLMTOPMiddleware) (history : List SessionCall) : LLMTOPMiddleware :=
  history.foldl SessionCall.apply (m.withGrants fun _ => [])

/-- The calls change the grant table only, and each agent's slot by itself. -/
theorem afterCalls_eq (m : LLMTOPMiddleware) (history : List SessionCall) :
    m.afterCalls history = m.withGrants (SessionCall.grantsOf history) := by
  induction history using List.reverseRecOn with
  | nil => rfl
  | append_singleton history call ih =>
      have hgrants := SessionCall.grantsOf_append history call
      unfold afterCalls at ih ⊢
      rw [List.foldl_append, ih, List.foldl_cons, List.foldl_nil]
      cases call with
      | grantCapability agentId scope =>
          simp only [SessionCall.apply, grantSessionCapability, withGrants, mk.injEq, true_and]
          funext agent
          rw [hgrants]
          rfl
      | revokeCapabilities agentId =>
          simp only [SessionCall.apply, revokeSessionCapabilities, withGrants, mk.injEq, true_and]
          funext agent
          rw [hgrants]
          rfl

section Congruence

variable (m : LLMTOPMiddleware) (clock : Clock) {agt : Bytes} {grants grants' : Bytes → List Bytes}
  (h : grants agt = grants' agt)
include h

theorem validateProxyCapability_congr (scope : Bytes) :
    (m.withGrants grants).validateProxyCapability agt scope =
      (m.withGrants grants').validateProxyCapability agt scope := by
  have hslot : (m.withGrants grants).sessionGrantedScopes agt =
      (m.withGrants grants').sessionGrantedScopes agt := h
  rw [validateProxyCapability, validateProxyCapability, hslot]

theorem checkPointer_congr :
    (m.withGrants grants).checkPointer clock agt =
      (m.withGrants grants').checkPointer clock agt := by
  funext p kv
  unfold checkPointer
  simp only [m.validateProxyCapability_congr h]
  rfl

theorem checkTool_congr :
    (m.withGrants grants).checkTool clock agt =
      (m.withGrants grants').checkTool clock agt := by
  funext p tool
  unfold checkTool
  simp only [m.validateProxyCapability_congr h]
  rfl

theorem checkStatement_congr :
    (m.withGrants grants).checkStatement clock agt =
      (m.withGrants grants').checkStatement clock agt := by
  funext p stmt
  unfold checkStatement
  rw [m.checkPointer_congr clock h, m.checkTool_congr clock h]

end Congruence

/-- An evaluation reads one slot of the grant table. -/
theorem evaluate_congr (m : LLMTOPMiddleware) (clock : Clock) (ast : AST) (acceptHealed : Bool)
    {grants grants' : Bytes → List Bytes} (h : grants ast.header.agt = grants' ast.header.agt) :
    (m.withGrants grants).evaluate clock ast acceptHealed =
      (m.withGrants grants').evaluate clock ast acceptHealed := by
  have hbatches : (m.withGrants grants).checkBatches clock ast acceptHealed =
      (m.withGrants grants').checkBatches clock ast acceptHealed := by
    unfold checkBatches
    rw [m.checkStatement_congr clock h]
  unfold evaluate
  rw [hbatches]
  rfl

/-- Two histories that are the same for the frame's agent lead to the same plan,
and so do the agent's own grants since its last revoke alone. -/
theorem session_noninterference (m : LLMTOPMiddleware) (clock : Clock) (ast : AST)
    (acceptHealed : Bool) {history history' : List SessionCall}
    (h : SessionCall.relevant ast.header.agt history =
      SessionCall.relevant ast.header.agt history') :
    (m.afterCalls history).evaluate clock ast acceptHealed =
        (m.afterCalls history').evaluate clock ast acceptHealed ∧
      (m.afterCalls history).evaluate clock ast acceptHealed =
        (m.afterCalls (SessionCall.relevant ast.header.agt history)).evaluate clock ast
          acceptHealed := by
  simp only [afterCalls_eq]
  constructor
  · refine m.evaluate_congr clock ast acceptHealed ?_
    rw [SessionCall.grantsOf, SessionCall.grantsOf, h]
  · refine m.evaluate_congr clock ast acceptHealed ?_
    rw [SessionCall.grantsOf, SessionCall.grantsOf, SessionCall.relevant_relevant]

end LLMTOPMiddleware

def otherGrants : List SessionCall :=
  [.grantCapability (ascii "b") (ascii "**"), .grantCapability (ascii "a") (ascii "**"),
    .revokeCapabilities (ascii "a")]

/-- Grants to another agent and revoked ones are as good as none. -/
theorem other_grants_ignored :
    ∃ ast, parse .strict 1048576 grantedFrame = .ok ast ∧
      ((exampleMiddleware []).afterCalls otherGrants).evaluate (fun _ => 0) ast false =
        ((exampleMiddleware []).afterCalls []).evaluate (fun _ => 0) ast false := by
  have hrun : (parse .strict 1048576 grantedFrame).toOption.any (fun ast =>
      ast.header.agt == ascii "a") = true := by
    decide +kernel
  obtain ⟨ast, hparse, hagent⟩ := exists_of_parse_any hrun
  refine ⟨ast, hparse, (LLMTOPMiddleware.session_noninterference _ _ _ _ ?_).1⟩
  rw [beq_iff_eq.mp hagent]
  decide

end LlmTop
