import LlmTop.Accesses
import LlmTop.Authorization

/-!
# Wider and narrower settings

The host's calls order the middleware's settings: grants and proxy mode let more
through, the checksum and the replay check less.  Whatever is authorized stays
authorized under wider settings, with the same plan.
-/
namespace LlmTop

namespace LLMTOPMiddleware

/-- `m'` lets through at least what `m` does. -/
structure Wider (m m' : LLMTOPMiddleware) : Prop where
  validator : m'.jwtValidator = m.jwtValidator
  delegation : m.allowDelegation = true → m'.allowDelegation = true
  proxy : m.outOfBandProxyMode = true → m'.outOfBandProxyMode = true
  grants : ∀ agt, m.sessionGrantedScopes agt ⊆ m'.sessionGrantedScopes agt
  chk : m'.verifyChk = true → m.verifyChk = true
  idempotency : m'.enforceIdempotency = true → m.enforceIdempotency = true
  store : m'.idempotencyStore = m.idempotencyStore

theorem Wider.refl (m : LLMTOPMiddleware) : Wider m m :=
  ⟨rfl, id, id, fun _ => List.Subset.refl _, id, id, rfl⟩

theorem Wider.trans {m m' m'' : LLMTOPMiddleware} (h : Wider m m') (h' : Wider m' m'') :
    Wider m m'' where
  validator := h'.validator.trans h.validator
  delegation := h'.delegation ∘ h.delegation
  proxy := h'.proxy ∘ h.proxy
  grants agt := List.Subset.trans (h.grants agt) (h'.grants agt)
  chk := h.chk ∘ h'.chk
  idempotency := h.idempotency ∘ h'.idempotency
  store := h'.store.trans h.store

section Wider

variable {m m' : LLMTOPMiddleware} (h : Wider m m')

include h

theorem Wider.validateProxyCapability {agt scope : Bytes}
    (hgranted : m.validateProxyCapability agt scope = true) :
    m'.validateProxyCapability agt scope = true := by
  obtain ⟨granted, hmem, hcovers⟩ := List.any_eq_true.mp hgranted
  exact List.any_eq_true.mpr ⟨granted, h.grants agt hmem, hcovers⟩

theorem Wider.validateCapability {now : Int} {token scope agt : Bytes}
    (hvalid : m.validateCapability now token scope agt = true) :
    m'.validateCapability now token scope agt = true := by
  unfold LLMTOPMiddleware.validateCapability at hvalid ⊢
  rw [h.validator]
  dsimp only at hvalid ⊢
  split at hvalid
  · contradiction
  · rename_i hclaim
    split at hvalid
    · contradiction
    · rename_i hsubject
      rw [if_neg hclaim, if_neg]
      intro hother
      obtain ⟨hstrict, hne⟩ := Bool.and_eq_true_iff.mp hother
      refine hsubject (Bool.and_eq_true_iff.mpr ⟨?_, hne⟩)
      cases hdelegation : m.allowDelegation with
      | false => rfl
      | true =>
          rw [h.delegation hdelegation] at hstrict
          contradiction

theorem Wider.admitted {now : Int} {agt : Bytes} {e : Entry} (hadmitted : e.Admitted m now agt) :
    e.Admitted m' now agt := by
  unfold Entry.Admitted at hadmitted ⊢
  refine hadmitted.imp_right ?_
  cases e.token with
  | some token =>
      rintro ⟨scope, hscope, hvalid⟩
      exact ⟨scope, hscope, h.validateCapability hvalid⟩
  | none =>
      rintro ⟨hproxy, scope, hscope, hgranted⟩
      exact ⟨h.proxy hproxy, scope, hscope, h.validateProxyCapability hgranted⟩

theorem Wider.gatesOpen {clock : Clock} {ast : AST} {acceptHealed : Bool}
    (hgates : m.GatesOpen clock ast acceptHealed) : m'.GatesOpen clock ast acceptHealed where
  agent := hgates.agent
  request := hgates.request
  healed := hgates.healed
  intact hon := hgates.intact (h.chk hon)
  fresh hon := by
    rw [h.store]
    exact hgates.fresh (h.idempotency hon)

theorem Wider.recordable {clock : Clock} {ast : AST} {acceptHealed : Bool}
    (hrecord : m.Recordable clock ast acceptHealed) : m'.Recordable clock ast acceptHealed := by
  intro hon
  rw [h.store]
  exact hrecord (h.idempotency hon)

end Wider

/-- An open gate, every entry admitted and room in the store are what authorizes. -/
theorem authorized_iff {m : LLMTOPMiddleware} {clock : Clock} {ast : AST} {acceptHealed : Bool} :
    (m.evaluate clock ast acceptHealed).1.authorized = true ↔
      m.GatesOpen clock ast acceptHealed ∧ m.AllAdmitted clock ast acceptHealed ∧
        m.Recordable clock ast acceptHealed := by
  have houtcome := m.evaluate_outcome clock ast acceptHealed
  generalize (m.evaluate clock ast acceptHealed).1 = plan at houtcome
  cases houtcome with
  | gated hgates => exact iff_of_false Bool.false_ne_true fun h => hgates h.1
  | @refused before after e message hgates hentries hbefore hrefused =>
      rw [Entry.recordAll_eq]
      refine iff_of_false Bool.false_ne_true fun h => hrefused (h.2.1 (e, before.length + 1) ?_)
      rw [hentries, List.zipIdx_append, List.zipIdx_cons, Nat.add_comm 1]
      exact List.mem_append_right _ List.mem_cons_self
  | unrecorded hgates hall hrecord =>
      rw [Entry.recordAll_eq]
      exact iff_of_false Bool.false_ne_true fun h => hrecord h.2.2
  | authorized hgates hall hrecord => exact iff_of_true rfl ⟨hgates, hall, hrecord⟩

/-- What is authorized stays authorized, and lists the same. -/
theorem Wider.evaluate {m m' : LLMTOPMiddleware} (h : Wider m m') {clock : Clock} {ast : AST}
    {acceptHealed : Bool} (hauthorized : (m.evaluate clock ast acceptHealed).1.authorized = true) :
    (m'.evaluate clock ast acceptHealed).1 = (m.evaluate clock ast acceptHealed).1 := by
  obtain ⟨hgates, hall, hrecord⟩ := authorized_iff.mp hauthorized
  have hauthorized' : (m'.evaluate clock ast acceptHealed).1.authorized = true :=
    authorized_iff.mpr ⟨h.gatesOpen hgates, fun entry hentry => h.admitted (hall entry hentry),
      h.recordable hrecord⟩
  rw [(plan_of_authorized hauthorized).2, (plan_of_authorized hauthorized').2]

end LLMTOPMiddleware

/-! ## Runs of host calls -/

/-- The host lets more through. -/
def HostCall.Widens : HostCall → Bool
  | .session (.grantCapability ..) => true
  | .session (.revokeCapabilities _) => false
  | .setOutOfBandProxy enable => enable
  | .setVerifyChk enable => !enable
  | .setEnforceIdempotency enable => !enable
  | .clearIdempotencyStore => false

/-- The host lets less through. -/
def HostCall.Narrows : HostCall → Bool
  | .session (.grantCapability ..) => false
  | .session (.revokeCapabilities _) => true
  | .setOutOfBandProxy enable => !enable
  | .setVerifyChk enable => enable
  | .setEnforceIdempotency enable => enable
  | .clearIdempotencyStore => false

namespace Hosted

open LLMTOPMiddleware

theorem wider_apply (h : Hosted) {call : HostCall} (hcall : call.Widens = true) :
    Wider h.middleware (h.apply call).middleware := by
  cases call with
  | session call =>
      cases call with
      | grantCapability agentId scope =>
          refine ⟨rfl, id, id, fun agt => ?_, id, id, rfl⟩
          change h.middleware.sessionGrantedScopes agt ⊆
            if agt = agentId then h.middleware.sessionGrantedScopes agt ++ [scope]
            else h.middleware.sessionGrantedScopes agt
          split
          · exact List.subset_append_left _ _
          · exact List.Subset.refl _
      | revokeCapabilities agentId => contradiction
  | setOutOfBandProxy enable =>
      exact ⟨rfl, id, fun _ => hcall, fun _ => List.Subset.refl _, id, id, rfl⟩
  | setVerifyChk enable =>
      have hoff : enable = false := (Bool.not_eq_true' enable).mp hcall
      exact ⟨rfl, id, id, fun _ => List.Subset.refl _, fun hon => absurd (hoff.symm.trans hon) (by decide),
        id, rfl⟩
  | setEnforceIdempotency enable =>
      have hoff : enable = false := (Bool.not_eq_true' enable).mp hcall
      exact ⟨rfl, id, id, fun _ => List.Subset.refl _, id,
        fun hon => absurd (hoff.symm.trans hon) (by decide), rfl⟩
  | clearIdempotencyStore => contradiction

theorem narrower_apply (h : Hosted) {call : HostCall} (hcall : call.Narrows = true) :
    Wider (h.apply call).middleware h.middleware := by
  cases call with
  | session call =>
      cases call with
      | grantCapability agentId scope => contradiction
      | revokeCapabilities agentId =>
          refine ⟨rfl, id, id, fun agt => ?_, id, id, rfl⟩
          change (if agt = agentId then [] else h.middleware.sessionGrantedScopes agt) ⊆
            h.middleware.sessionGrantedScopes agt
          split
          · exact List.nil_subset _
          · exact List.Subset.refl _
  | setOutOfBandProxy enable =>
      have hoff : enable = false := (Bool.not_eq_true' enable).mp hcall
      exact ⟨rfl, id, fun hon => absurd (hoff.symm.trans hon) (by decide), fun _ => List.Subset.refl _,
        id, id, rfl⟩
  | setVerifyChk enable => exact ⟨rfl, id, id, fun _ => List.Subset.refl _, fun _ => hcall, id, rfl⟩
  | setEnforceIdempotency enable =>
      exact ⟨rfl, id, id, fun _ => List.Subset.refl _, id, fun _ => hcall, rfl⟩
  | clearIdempotencyStore => contradiction

theorem wider_run {calls : List HostCall} (hcalls : ∀ call ∈ calls, call.Widens = true) (h : Hosted) :
    Wider h.middleware (calls.foldl Hosted.apply h).middleware := by
  induction calls generalizing h with
  | nil => exact Wider.refl h.middleware
  | cons call calls ih =>
      obtain ⟨hcall, hcalls⟩ := List.forall_mem_cons.mp hcalls
      exact (h.wider_apply hcall).trans (ih hcalls (h.apply call))

theorem narrower_run {calls : List HostCall} (hcalls : ∀ call ∈ calls, call.Narrows = true)
    (h : Hosted) : Wider (calls.foldl Hosted.apply h).middleware h.middleware := by
  induction calls generalizing h with
  | nil => exact Wider.refl h.middleware
  | cons call calls ih =>
      obtain ⟨hcall, hcalls⟩ := List.forall_mem_cons.mp hcalls
      exact (ih hcalls (h.apply call)).trans (h.narrower_apply hcall)

/-- After any calls that widen, what was authorized is authorized with the same plan;
and what is authorized after any calls that narrow was authorized before them. -/
theorem settings_monotone (h : Hosted) (calls : List HostCall) (clock : Clock) (ast : AST)
    (acceptHealed : Bool) :
    ((∀ call ∈ calls, call.Widens = true) →
      (h.middleware.evaluate clock ast acceptHealed).1.authorized = true →
        ((calls.foldl Hosted.apply h).middleware.evaluate clock ast acceptHealed).1 =
          (h.middleware.evaluate clock ast acceptHealed).1) ∧
    ((∀ call ∈ calls, call.Narrows = true) →
      ((calls.foldl Hosted.apply h).middleware.evaluate clock ast acceptHealed).1.authorized = true →
        (h.middleware.evaluate clock ast acceptHealed).1 =
          ((calls.foldl Hosted.apply h).middleware.evaluate clock ast acceptHealed).1) :=
  ⟨fun hcalls hauthorized => (wider_run hcalls h).evaluate hauthorized,
    fun hcalls hauthorized => (narrower_run hcalls h).evaluate hauthorized⟩

def lsAst : AST where
  header := { agt := ascii "a", reqid := ascii "r" }
  statements := [{ Statement.empty with toolCalls := [⟨ascii "ls", OrderedMap.empty, none⟩] }]

theorem settings_monotone_granted :
    let h : Hosted := ⟨exampleMiddleware [ascii "execute:ls"], 0, []⟩
    let calls : List HostCall :=
      [.session (.grantCapability (ascii "a") (ascii "read:**")), .setEnforceIdempotency false]
    ((calls.foldl Hosted.apply h).middleware.evaluate (fun _ => 0) lsAst false).1 =
      (h.middleware.evaluate (fun _ => 0) lsAst false).1 :=
  (settings_monotone _ _ _ lsAst false).1 (by decide) (by decide +kernel)

end Hosted
end LlmTop
