import LlmTop.Accesses

/-!
# Evaluations during reconfiguration

Evaluations and host calls in any order, access by access.  What a returned plan
approves was granted at one of the evaluation's own turns.
-/
namespace LlmTop
open IdempotencyStore Lib.Interleaved Lib.TtlSet

/-! ## What an evaluation can return -/

section Answers

variable (P : (access : Access) → access.Answer → Prop) (m : LLMTOPMiddleware) (agt : Bytes)
  (ast : AST) (acceptHealed : Bool)

def Entry.AdmittedBy (e : Entry) : Prop :=
  escapesRoot e.resource = false ∧
    match e.token with
    | some token => ∃ time, P .now time ∧ m.validateCapability time token e.tokenScope agt = true
    | none => P .outOfBandProxyMode true ∧
        ∃ scope ∈ e.scopes, P (.validateProxyCapability agt scope) true

def Entry.RefusedBy (e : Entry) : Prop :=
  escapesRoot e.resource = true ∨
    match e.token with
    | some token => ∃ time, P .now time ∧ m.validateCapability time token e.tokenScope agt = false
    | none => P .outOfBandProxyMode false ∨
        ∀ scope ∈ e.scopes, P (.validateProxyCapability agt scope) false

def Evaluating.GatesClosed : Prop :=
  ast.header.agt = [] ∨ ast.header.reqid = [] ∨ (ast.healedDraft ≠ [] ∧ acceptHealed = false) ∨
    (P .verifyChk true ∧ ast.header.chk ≠ computeChk ast.rawFrame) ∨
    (P .enforceIdempotency true ∧ P (.isReplayed (requestOf ast.header)) true)

/-- The ways an evaluation ends, by the answers that led there. -/
inductive Evaluating.Ends : ExecutionPlan → Prop where
  | gated {message : Bytes} (hgates : GatesClosed P ast acceptHealed) :
      Ends { errorMessage := message }
  | refused {before after : List Entry} {e : Entry} {message : Bytes}
      (hentries : entriesOf ast acceptHealed = before ++ e :: after)
      (hbefore : ∀ entry ∈ before, entry.AdmittedBy P m ast.header.agt)
      (hrefused : e.RefusedBy P m ast.header.agt) :
      Ends ((Entry.recordAll before).fail message)
  | unrecorded {message : Bytes} {result : RecordResult}
      (hall : ∀ entry ∈ entriesOf ast acceptHealed, entry.AdmittedBy P m ast.header.agt)
      (henforce : P .enforceIdempotency true)
      (hrecord : P (.recordRequest (requestOf ast.header) ast.header.chk) result)
      (hresult : result ≠ .recorded) :
      Ends { Entry.recordAll (entriesOf ast acceptHealed) with
        approvedActions := [], errorMessage := message }
  | authorized
      (hall : ∀ entry ∈ entriesOf ast acceptHealed, entry.AdmittedBy P m ast.header.agt)
      (hrecord : P .enforceIdempotency false ∨
        P (.recordRequest (requestOf ast.header) ast.header.chk) .recorded) :
      Ends { Entry.recordAll (entriesOf ast acceptHealed) with authorized := true }

end Answers

/-- The turns of the entry's own check, when it lets the entry through: one reading
at which the token is good for it, or one look at the proxy mode and a lookup for
each scope up to one that a grant covers then. -/
inductive Entry.OpenedOn (m : LLMTOPMiddleware) (clock : Clock) (agt : Bytes) (e : Entry) :
    List (Hosted × Access) → Prop where
  | token {token : Bytes} {h : Hosted} (hinside : escapesRoot e.resource = false)
      (htoken : e.token = some token)
      (hvalid : m.validateCapability (clock h.tick) token e.tokenScope agt = true) :
      OpenedOn m clock agt e [(h, .now)]
  | proxy {h opened : Hosted} {denied : List (Hosted × Access)} {tried rest : List Bytes}
      {scope : Bytes} (hinside : escapesRoot e.resource = false) (htoken : e.token = none)
      (hproxy : h.middleware.outOfBandProxyMode = true) (hscopes : e.scopes = tried ++ scope :: rest)
      (hdenied : denied.map Prod.snd = tried.map (Access.validateProxyCapability agt))
      (hgranted : ∃ granted ∈ opened.middleware.sessionGrantedScopes agt, Covers granted scope) :
      OpenedOn m clock agt e
        ((h, .outOfBandProxyMode) :: denied ++ [(opened, .validateProxyCapability agt scope)])

namespace Evaluating

variable {P : (access : Access) → access.Answer → Prop} {m : LLMTOPMiddleware} {agt : Bytes}

theorem returns_validateAnyCapability {scopes : List Bytes} {granted : Bool}
    (h : (validateAnyCapability agt scopes).Returns P granted) :
    if granted then ∃ scope ∈ scopes, P (.validateProxyCapability agt scope) true
    else ∀ scope ∈ scopes, P (.validateProxyCapability agt scope) false := by
  induction scopes with
  | nil =>
      cases h
      simp
  | cons scope scopes ih =>
      unfold validateAnyCapability at h
      obtain ⟨answer, hanswer, hrest⟩ := Program.returns_bind.mp h
      replace hanswer := Program.returns_question.mp hanswer
      cases answer with
      | true =>
          cases hrest
          exact ⟨scope, List.mem_cons_self, hanswer⟩
      | false =>
          have hscopes := ih hrest
          cases granted with
          | true =>
              obtain ⟨scope', hmem, hgranted⟩ := hscopes
              exact ⟨scope', List.mem_cons_of_mem _ hmem, hgranted⟩
          | false => exact List.forall_mem_cons.mpr ⟨hanswer, hscopes⟩

theorem returns_checkEntry (plan : ExecutionPlan) (e : Entry)
    (outcome : Except ExecutionPlan ExecutionPlan)
    (h : (checkEntry m agt plan e).run.Returns P outcome) :
    (outcome = .ok (e.record plan) ∧ e.AdmittedBy P m agt) ∨
      ∃ error, outcome = .error error ∧ (e.RefusedBy P m agt ∧ ∃ message, error = plan.fail message) := by
  rw [checkEntry_run] at h
  unfold Entry.AdmittedBy Entry.RefusedBy
  cases hescapes : escapesRoot e.resource with
  | true =>
      rw [hescapes, if_pos rfl] at h
      cases h
      exact Or.inr ⟨_, rfl, Or.inl rfl, _, rfl⟩
  | false =>
      rw [hescapes, if_neg Bool.false_ne_true] at h
      cases htoken : e.token with
      | some token =>
          rw [htoken] at h
          obtain ⟨valid, hvalid, hrest⟩ := Program.returns_bind.mp h
          obtain ⟨time, htime, hverdict⟩ := Program.returns_bind.mp hvalid
          replace htime := Program.returns_question.mp htime
          replace hverdict := Program.returns_pure.mp hverdict
          cases valid with
          | true =>
              cases hrest
              exact Or.inl ⟨rfl, rfl, time, htime, hverdict⟩
          | false =>
              cases hrest
              exact Or.inr ⟨_, rfl, Or.inr ⟨time, htime, hverdict⟩, _, rfl⟩
      | none =>
          rw [htoken] at h
          obtain ⟨proxy, hproxy, hrest⟩ := Program.returns_bind.mp h
          replace hproxy := Program.returns_question.mp hproxy
          cases proxy with
          | false =>
              cases hrest
              exact Or.inr ⟨_, rfl, Or.inr (Or.inl hproxy), _, rfl⟩
          | true =>
              obtain ⟨granted, hgranted, hplan⟩ := Program.returns_bind.mp hrest
              have hscopes := returns_validateAnyCapability hgranted
              cases granted with
              | true =>
                  cases hplan
                  exact Or.inl ⟨rfl, rfl, hproxy, hscopes⟩
              | false =>
                  cases hplan
                  exact Or.inr ⟨_, rfl, Or.inr (Or.inr hscopes), _, rfl⟩

theorem returns_gateError {ast : AST} {acceptHealed : Bool} {message : Bytes}
    (h : (gateError ast acceptHealed).Returns P (some message)) : GatesClosed P ast acceptHealed := by
  unfold gateError at h
  unfold GatesClosed
  split at h
  · rename_i hnames
    simp only [Bool.or_eq_true, List.isEmpty_iff] at hnames
    exact hnames.elim Or.inl fun hreqid => Or.inr (Or.inl hreqid)
  · split at h
    · rename_i hhealed
      exact Or.inr (Or.inr (Or.inl (by simpa using hhealed)))
    · obtain ⟨verify, hverify, hrest⟩ := Program.returns_bind.mp h
      replace hverify := Program.returns_question.mp hverify
      split at hrest
      · rename_i hchk
        simp only [Bool.and_eq_true, bne_iff_ne] at hchk
        rw [hchk.1] at hverify
        exact Or.inr (Or.inr (Or.inr (Or.inl ⟨hverify, hchk.2⟩)))
      · obtain ⟨replay, hreplay, hmessage⟩ := Program.returns_bind.mp hrest
        obtain ⟨enforce, henforce, hasked⟩ := Program.returns_bind.mp hreplay
        replace henforce := Program.returns_question.mp henforce
        cases enforce with
        | false =>
            cases hasked
            cases hmessage
        | true =>
            replace hasked := Program.returns_question.mp hasked
            cases replay with
            | false => cases hmessage
            | true => exact Or.inr (Or.inr (Or.inr (Or.inr ⟨henforce, hasked⟩)))

theorem returns_consumeRequest {ast : AST} {acceptHealed : Bool} {plan : ExecutionPlan}
    (hall : ∀ entry ∈ entriesOf ast acceptHealed, entry.AdmittedBy P m ast.header.agt)
    (h : (consumeRequest ast.header (Entry.recordAll (entriesOf ast acceptHealed))).Returns P plan) :
    Ends P m ast acceptHealed plan := by
  obtain ⟨enforce, henforce, hrest⟩ := Program.returns_bind.mp h
  replace henforce := Program.returns_question.mp henforce
  cases enforce with
  | false =>
      cases hrest
      exact Ends.authorized hall (Or.inl henforce)
  | true =>
      obtain ⟨result, hresult, hplan⟩ := Program.returns_bind.mp hrest
      replace hresult := Program.returns_question.mp hresult
      cases result with
      | recorded =>
          cases hplan
          exact Ends.authorized hall (Or.inr hresult)
      | replay =>
          cases hplan
          exact Ends.unrecorded hall henforce hresult (by decide)
      | capacityExceeded =>
          cases hplan
          exact Ends.unrecorded hall henforce hresult (by decide)

theorem returns_evaluate {ast : AST} {acceptHealed : Bool} {plan : ExecutionPlan}
    (h : (evaluate m ast acceptHealed).Returns P plan) : Ends P m ast acceptHealed plan := by
  obtain ⟨gate, hgate, hrest⟩ := Program.returns_bind.mp h
  cases gate with
  | some message =>
      cases hrest
      exact Ends.gated (returns_gateError hgate)
  | none =>
      obtain ⟨outcome, houtcome, hplan⟩ := Program.returns_bind.mp hrest
      rw [checkBatches_eq] at houtcome
      rcases Program.Returns.walk (@returns_checkEntry P m ast.header.agt) houtcome with
        ⟨rfl, hall⟩ | ⟨before, e, after, error, hentries, hbefore, rfl, hrefused, message, rfl⟩
      · exact returns_consumeRequest hall hplan
      · cases hplan
        exact Ends.refused hentries hbefore hrefused

/-! ## On which turns -/

section Turns

variable {clock : Clock} {turns : List (Hosted × Access)}

theorem returnsOn_validateAnyCapability {scopes : List Bytes}
    (h : (validateAnyCapability agt scopes).ReturnsOn (Hosted.serve clock) turns true) :
    ∃ (tried rest : List Bytes) (scope : Bytes) (denied : List (Hosted × Access)) (opened : Hosted),
      scopes = tried ++ scope :: rest ∧
      turns = denied ++ [(opened, Access.validateProxyCapability agt scope)] ∧
      denied.map Prod.snd = tried.map (Access.validateProxyCapability agt) ∧
      ∃ granted ∈ opened.middleware.sessionGrantedScopes agt, Covers granted scope := by
  induction scopes generalizing turns with
  | nil => exact absurd (Program.returnsOn_pure.mp h).2 Bool.false_ne_true
  | cons scope scopes ih =>
      unfold validateAnyCapability at h
      obtain ⟨early, late, answer, rfl, hasked, hrest⟩ := Program.returnsOn_bind.mp h
      obtain ⟨shared, rfl, hanswer⟩ := Program.returnsOn_question.mp hasked
      cases answer with
      | true =>
          obtain ⟨rfl, -⟩ := Program.returnsOn_pure.mp hrest
          exact ⟨[], scopes, scope, [], shared, rfl, rfl, rfl,
            LLMTOPMiddleware.validateProxyCapability_iff.mp hanswer⟩
      | false =>
          obtain ⟨tried, rest, opening, denied, opened, rfl, rfl, hdenied, hgranted⟩ := ih hrest
          refine ⟨scope :: tried, rest, opening, (shared, .validateProxyCapability agt scope) :: denied,
            opened, rfl, rfl, ?_, hgranted⟩
          rw [List.map_cons, List.map_cons, hdenied]

theorem returnsOn_checkEntry (plan : ExecutionPlan) (e : Entry) (turns : List (Hosted × Access))
    (outcome : Except ExecutionPlan ExecutionPlan)
    (h : (checkEntry m agt plan e).run.ReturnsOn (Hosted.serve clock) turns outcome) :
    (outcome = .ok (e.record plan) ∧ e.OpenedOn m clock agt turns) ∨
      ∃ error, outcome = .error error ∧ ∃ message, error = plan.fail message := by
  rw [checkEntry_run] at h
  cases hescapes : escapesRoot e.resource with
  | true =>
      rw [hescapes, if_pos rfl] at h
      obtain ⟨-, rfl⟩ := Program.returnsOn_pure.mp h
      exact Or.inr ⟨_, rfl, _, rfl⟩
  | false =>
      rw [hescapes, if_neg Bool.false_ne_true] at h
      cases htoken : e.token with
      | some token =>
          rw [htoken] at h
          obtain ⟨early, late, valid, rfl, hvalid, hrest⟩ := Program.returnsOn_bind.mp h
          obtain ⟨reading, quiet, time, rfl, htime, hverdict⟩ := Program.returnsOn_bind.mp hvalid
          obtain ⟨shared, rfl, rfl⟩ := Program.returnsOn_question.mp htime
          obtain ⟨rfl, hchecked⟩ := Program.returnsOn_pure.mp hverdict
          obtain ⟨rfl, rfl⟩ := Program.returnsOn_pure.mp hrest
          cases valid with
          | true => exact Or.inl ⟨rfl, .token hescapes htoken hchecked⟩
          | false => exact Or.inr ⟨_, rfl, _, rfl⟩
      | none =>
          rw [htoken] at h
          obtain ⟨early, late, proxy, rfl, hproxy, hrest⟩ := Program.returnsOn_bind.mp h
          obtain ⟨shared, rfl, hmode⟩ := Program.returnsOn_question.mp hproxy
          cases proxy with
          | false =>
              obtain ⟨-, rfl⟩ := Program.returnsOn_pure.mp hrest
              exact Or.inr ⟨_, rfl, _, rfl⟩
          | true =>
              obtain ⟨lookups, quiet, granted, rfl, hgranted, hplan⟩ := Program.returnsOn_bind.mp hrest
              obtain ⟨rfl, rfl⟩ := Program.returnsOn_pure.mp hplan
              cases granted with
              | false => exact Or.inr ⟨_, rfl, _, rfl⟩
              | true =>
                  obtain ⟨tried, rest, scope, denied, opened, hscopes, rfl, hdenied, hcovers⟩ :=
                    returnsOn_validateAnyCapability hgranted
                  rw [List.append_nil]
                  exact Or.inl ⟨rfl, .proxy hescapes htoken hmode hscopes hdenied hcovers⟩

/-- The last step of an evaluation leaves the lists of pointers and tools alone. -/
theorem returnsOn_consumeRequest {header : Header} {plan result : ExecutionPlan}
    (h : (consumeRequest header plan).ReturnsOn (Hosted.serve clock) turns result) :
    result.approvedPointers = plan.approvedPointers ∧ result.approvedTools = plan.approvedTools := by
  obtain ⟨early, late, enforce, rfl, -, hrest⟩ := Program.returnsOn_bind.mp h
  cases enforce with
  | false =>
      obtain ⟨-, rfl⟩ := Program.returnsOn_pure.mp hrest
      exact ⟨rfl, rfl⟩
  | true =>
      obtain ⟨early, late, answer, rfl, -, hplan⟩ := Program.returnsOn_bind.mp hrest
      cases answer with
      | recorded =>
          obtain ⟨-, rfl⟩ := Program.returnsOn_pure.mp hplan
          exact ⟨rfl, rfl⟩
      | replay =>
          obtain ⟨-, rfl⟩ := Program.returnsOn_pure.mp hplan
          exact ⟨rfl, rfl⟩
      | capacityExceeded =>
          obtain ⟨-, rfl⟩ := Program.returnsOn_pure.mp hplan
          exact ⟨rfl, rfl⟩

/-- The turns of an evaluation are those of its gates, those of each approved
entry's check in the order of the entries, and what comes behind. -/
theorem returnsOn_evaluate {ast : AST} {acceptHealed : Bool} {plan : ExecutionPlan}
    (h : (evaluate m ast acceptHealed).ReturnsOn (Hosted.serve clock) turns plan) :
    ∃ before after gates checks later, entriesOf ast acceptHealed = before ++ after ∧
      plan.approvedPointers = (before.filterMap Entry.field).map PointerField.approve ∧
      plan.approvedTools = (before.filterMap Entry.call).map ToolCall.approve ∧
      (plan.authorized = true → after = []) ∧ turns = gates ++ checks.flatten ++ later ∧
      List.Forall₂ (Entry.OpenedOn m clock ast.header.agt) before checks := by
  obtain ⟨gates, others, gate, rfl, -, hrest⟩ := Program.returnsOn_bind.mp h
  cases gate with
  | some message =>
      obtain ⟨-, rfl⟩ := Program.returnsOn_pure.mp hrest
      exact ⟨[], _, gates, [], others, rfl, rfl, rfl, nofun, by simp, .nil⟩
  | none =>
      obtain ⟨walk, tail, outcome, rfl, houtcome, hplan⟩ := Program.returnsOn_bind.mp hrest
      rw [checkBatches_eq] at houtcome
      obtain ⟨before, after, checks, later, hentries, rfl, hchecks, hend⟩ :=
        Program.ReturnsOn.walk (@returnsOn_checkEntry m ast.header.agt clock) houtcome
      refine ⟨before, after, gates, checks, later ++ tail, hentries, ?_⟩
      have hrecorded : before.foldl Entry.record {} = Entry.recordAll before := rfl
      rw [hrecorded, Entry.recordAll_eq] at hend
      rcases hend with ⟨rfl, rfl⟩ | ⟨error, rfl, message, rfl⟩
      · obtain ⟨hpointers, htools⟩ := returnsOn_consumeRequest hplan
        exact ⟨hpointers, htools, fun _ => rfl, by simp only [List.append_assoc], hchecks⟩
      · obtain ⟨-, rfl⟩ := Program.returnsOn_pure.mp hplan
        exact ⟨rfl, rfl, nofun, by simp only [List.append_assoc], hchecks⟩

end Turns

end Evaluating

/-! ## Evaluations and host calls in any order -/

structure Frame where
  ast : AST
  acceptHealed : Bool

namespace Frame

variable (f : Frame)

def agt : Bytes := f.ast.header.agt

def request : Request := Evaluating.requestOf f.ast.header

def entries : List Entry := entriesOf f.ast f.acceptHealed

end Frame

abbrev Interleaving (ι : Type) := System ι Access Access.Answer Hosted ExecutionPlan

namespace Interleaving

variable {ι : Type} [DecidableEq ι]

/-- No call has begun. -/
def start (m : LLMTOPMiddleware) (frames : ι → Frame) : Interleaving ι :=
  ⟨⟨m, 0, []⟩, fun i => Evaluating.evaluate m (frames i).ast (frames i).acceptHealed⟩

abbrev run (clock : Clock) (s : Interleaving ι) (moves : List (Move ι HostCall)) : Interleaving ι :=
  s.after (Hosted.serve clock) Hosted.apply moves

abbrev Held (clock : Clock) (s : Interleaving ι) (moves : List (Move ι HostCall)) (i : ι)
    (access : Access) (holds : Hosted → Prop) : Prop :=
  s.AtTurn (Hosted.serve clock) Hosted.apply moves i access holds

variable {m : LLMTOPMiddleware} {frames : ι → Frame} {clock : Clock} {moves : List (Move ι HostCall)}
  {i : ι} {plan : ExecutionPlan}

theorem ends_of_returned (h : ((start m frames).run clock moves).threads i = .done plan) :
    Evaluating.Ends ((start m frames).Answered (Hosted.serve clock) Hosted.apply moves i) m
      (frames i).ast (frames i).acceptHealed plan :=
  Evaluating.returns_evaluate (System.returns_answered h)

/-- What opens the entry held at turns of the call. -/
def Covered (m : LLMTOPMiddleware) (clock : Clock) (s : Interleaving ι)
    (moves : List (Move ι HostCall)) (i : ι) (agt : Bytes) (e : Entry) : Prop :=
  escapesRoot e.resource = false ∧
    match e.token with
    | some token => s.Held clock moves i .now fun h =>
        m.validateCapability (clock h.tick) token e.tokenScope agt = true
    | none =>
        (s.Held clock moves i .outOfBandProxyMode fun h => h.middleware.outOfBandProxyMode = true) ∧
        ∃ scope ∈ e.scopes, s.Held clock moves i (.validateProxyCapability agt scope) fun h =>
          ∃ granted ∈ h.middleware.sessionGrantedScopes agt, Covers granted scope

theorem covered_of_admittedBy {s : Interleaving ι} {agt : Bytes} {e : Entry}
    (h : e.AdmittedBy (s.Answered (Hosted.serve clock) Hosted.apply moves i) m agt) :
    Covered m clock s moves i agt e := by
  refine ⟨h.1, ?_⟩
  have hanswers := h.2
  cases htoken : e.token with
  | some token =>
      rw [htoken] at hanswers
      obtain ⟨time, ⟨early, hturn, rfl⟩, hvalid⟩ := hanswers
      exact ⟨early, hturn, hvalid⟩
  | none =>
      rw [htoken] at hanswers
      obtain ⟨hproxy, scope, hscope, early, hturn, hgranted⟩ := hanswers
      exact ⟨hproxy, scope, hscope, early, hturn,
        LLMTOPMiddleware.validateProxyCapability_iff.mp hgranted⟩

/-- Whatever a plan approves was covered while the call was under way, whatever
other calls and the host did in between. -/
theorem approvals_covered (m : LLMTOPMiddleware) (frames : ι → Frame) (clock : Clock)
    (moves : List (Move ι HostCall)) (i : ι) (plan : ExecutionPlan)
    (hreturned : ((start m frames).run clock moves).threads i = .done plan) :
    ∃ before after, (frames i).entries = before ++ after ∧
      plan.approvedPointers = (before.filterMap Entry.field).map PointerField.approve ∧
      plan.approvedTools = (before.filterMap Entry.call).map ToolCall.approve ∧
      (plan.authorized = true → after = []) ∧
      ∀ e ∈ before, Covered m clock (start m frames) moves i (frames i).agt e := by
  have hends := ends_of_returned hreturned
  cases hends with
  | gated hgates => exact ⟨[], _, rfl, rfl, rfl, fun h => (Bool.false_ne_true h).elim, by simp⟩
  | @refused before after e message hentries hbefore hrefused =>
      refine ⟨before, e :: after, hentries, ?_⟩
      rw [Entry.recordAll_eq]
      exact ⟨rfl, rfl, fun h => (Bool.false_ne_true h).elim,
        fun e he => covered_of_admittedBy (hbefore e he)⟩
  | unrecorded hall henforce hrecord hresult =>
      refine ⟨_, [], (List.append_nil _).symm, ?_⟩
      rw [Entry.recordAll_eq]
      exact ⟨rfl, rfl, fun _ => rfl, fun e he => covered_of_admittedBy (hall e he)⟩
  | authorized hall hrecord =>
      refine ⟨_, [], (List.append_nil _).symm, ?_⟩
      rw [Entry.recordAll_eq]
      exact ⟨rfl, rfl, fun _ => rfl, fun e he => covered_of_admittedBy (hall e he)⟩

def lsFrame : Frame where
  ast :=
    { header := { agt := ascii "a", reqid := ascii "r" }
      statements := [{ Statement.empty with toolCalls := [⟨ascii "ls", OrderedMap.empty, none⟩] }] }
  acceptHealed := false

def grantLs : HostCall := .session (.grantCapability (ascii "a") (ascii "execute:ls"))

/-- Whatever a plan approves was let through on the turns of its own check: the
checks take turns of the call in the order of the entries, and no turn serves two. -/
theorem approvals_checked (m : LLMTOPMiddleware) (frames : ι → Frame) (clock : Clock)
    (moves : List (Move ι HostCall)) (i : ι) (plan : ExecutionPlan)
    (hreturned : ((start m frames).run clock moves).threads i = .done plan) :
    ∃ before after gates checks later, (frames i).entries = before ++ after ∧
      plan.approvedPointers = (before.filterMap Entry.field).map PointerField.approve ∧
      plan.approvedTools = (before.filterMap Entry.call).map ToolCall.approve ∧
      (plan.authorized = true → after = []) ∧
      (start m frames).turns (Hosted.serve clock) Hosted.apply i moves =
        gates ++ checks.flatten ++ later ∧
      List.Forall₂ (Entry.OpenedOn m clock (frames i).agt) before checks :=
  Evaluating.returnsOn_evaluate (System.returnsOn_turns hreturned)

/-- The grant comes after the call has begun. -/
theorem approvals_checked_late :
    let s := start (exampleMiddleware []) fun _ : Unit => lsFrame
    let moves := [.thread (), .host grantLs, .thread (), .thread (), .thread (), .thread ()]
    ∃ plan, (s.run (fun _ => 0) moves).threads () = .done plan ∧ plan.authorized = true ∧
      ∃ before after gates checks later, lsFrame.entries = before ++ after ∧
        plan.approvedPointers = (before.filterMap Entry.field).map PointerField.approve ∧
        plan.approvedTools = (before.filterMap Entry.call).map ToolCall.approve ∧
        (plan.authorized = true → after = []) ∧
        s.turns (Hosted.serve fun _ => 0) Hosted.apply () moves = gates ++ checks.flatten ++ later ∧
        List.Forall₂ (Entry.OpenedOn (exampleMiddleware []) (fun _ => 0) (ascii "a")) before checks :=
  ⟨_, rfl, rfl, approvals_checked (exampleMiddleware []) (fun _ : Unit => lsFrame) (fun _ => 0) _ ()
    _ rfl⟩

/-! ## Refusals -/

/-- What closes the entry held at turns of the call. -/
def Uncovered (m : LLMTOPMiddleware) (clock : Clock) (s : Interleaving ι)
    (moves : List (Move ι HostCall)) (i : ι) (agt : Bytes) (e : Entry) : Prop :=
  escapesRoot e.resource = true ∨
    match e.token with
    | some token => s.Held clock moves i .now fun h =>
        m.validateCapability (clock h.tick) token e.tokenScope agt = false
    | none =>
        (s.Held clock moves i .outOfBandProxyMode fun h => h.middleware.outOfBandProxyMode = false) ∨
        ∀ scope ∈ e.scopes, s.Held clock moves i (.validateProxyCapability agt scope) fun h =>
          ∀ granted ∈ h.middleware.sessionGrantedScopes agt, ¬Covers granted scope

theorem uncovered_of_refusedBy {s : Interleaving ι} {agt : Bytes} {e : Entry}
    (h : e.RefusedBy (s.Answered (Hosted.serve clock) Hosted.apply moves i) m agt) :
    Uncovered m clock s moves i agt e := by
  rcases h with hescapes | hanswers
  · exact Or.inl hescapes
  · refine Or.inr ?_
    cases htoken : e.token with
    | some token =>
        rw [htoken] at hanswers
        obtain ⟨time, ⟨early, hturn, rfl⟩, hinvalid⟩ := hanswers
        exact ⟨early, hturn, hinvalid⟩
    | none =>
        rw [htoken] at hanswers
        rcases hanswers with hproxy | hscopes
        · exact Or.inl hproxy
        · refine Or.inr fun scope hscope => ?_
          obtain ⟨early, hturn, hdenied⟩ := hscopes scope hscope
          refine ⟨early, hturn, fun granted hgranted hcovers => ?_⟩
          have hadmitted := LLMTOPMiddleware.validateProxyCapability_iff.mpr
            ⟨granted, hgranted, hcovers⟩
          exact Bool.false_ne_true (hdenied.symm.trans hadmitted)

/-- The reasons a call can be refused for. -/
inductive Refused (m : LLMTOPMiddleware) (clock : Clock) (s : Interleaving ι)
    (moves : List (Move ι HostCall)) (i : ι) (f : Frame) : Prop where
  | unnamed (h : f.agt = [] ∨ f.ast.header.reqid = [])
  | healed (h : f.ast.healedDraft ≠ []) (hclosed : f.acceptHealed = false)
  | mangled (hon : s.Held clock moves i .verifyChk fun h => h.middleware.verifyChk = true)
      (hchk : f.ast.header.chk ≠ computeChk f.ast.rawFrame)
  | replayed (hseen : s.Held clock moves i (.isReplayed f.request) fun h =>
      h.middleware.idempotencyStore.isReplayed (clock h.tick) f.agt f.ast.header.reqid = true)
      (hon : s.Held clock moves i .enforceIdempotency fun h =>
        h.middleware.enforceIdempotency = true)
  | uncovered (e : Entry) (he : e ∈ f.entries) (h : Uncovered m clock s moves i f.agt e)
  | unrecorded (hfull : s.Held clock moves i (.recordRequest f.request f.ast.header.chk) fun h =>
      ¬h.middleware.idempotencyStore.Admits clock h.tick f.agt f.ast.header.reqid)
      (hon : s.Held clock moves i .enforceIdempotency fun h =>
        h.middleware.enforceIdempotency = true)

/-- No call is refused for a reason that none of its own turns met. -/
theorem refused_of_unauthorized (m : LLMTOPMiddleware) (frames : ι → Frame) (clock : Clock)
    (moves : List (Move ι HostCall)) (i : ι) (plan : ExecutionPlan)
    (hreturned : ((start m frames).run clock moves).threads i = .done plan)
    (hplan : plan.authorized = false) : Refused m clock (start m frames) moves i (frames i) := by
  have hends := ends_of_returned hreturned
  cases hends with
  | gated hgates =>
      rcases hgates with hagt | hreqid | ⟨hhealed, hclosed⟩ | ⟨hon, hchk⟩ | ⟨hon, hseen⟩
      · exact .unnamed (Or.inl hagt)
      · exact .unnamed (Or.inr hreqid)
      · exact .healed hhealed hclosed
      · exact .mangled hon hchk
      · exact .replayed hseen hon
  | @refused before after e message hentries hbefore hrefused =>
      refine .uncovered e ?_ (uncovered_of_refusedBy hrefused)
      rw [Frame.entries, hentries]
      exact List.mem_append_right _ List.mem_cons_self
  | @unrecorded message result hall henforce hrecord hresult =>
      obtain ⟨early, hturn, hanswer⟩ := hrecord
      refine .unrecorded ⟨early, hturn, fun hadmits => hresult ?_⟩ henforce
      rw [← hanswer]
      refine (Run.record_result _ clock _ _).trans ?_
      exact (recordRequest_eq_recorded _ clock _ _ _ _).mpr hadmits
  | authorized hall hrecord =>
      rw [Entry.recordAll_eq] at hplan
      exact absurd hplan.symm Bool.false_ne_true

def revokeAll : HostCall := .session (.revokeCapabilities (ascii "a"))

/-- The grant is revoked before the call asks for it. -/
theorem refused_of_unauthorized_revoked :
    let s := start (exampleMiddleware []) fun _ : Unit => lsFrame
    let moves := [.host grantLs, .thread (), .host revokeAll, .thread (), .thread (), .thread ()]
    ∃ plan, (s.run (fun _ => 0) moves).threads () = .done plan ∧
      Refused (exampleMiddleware []) (fun _ => 0) s moves () lsFrame :=
  ⟨_, rfl, refused_of_unauthorized (exampleMiddleware []) (fun _ : Unit => lsFrame) (fun _ => 0) _ ()
    _ rfl rfl⟩

/-! ## Revoked grants -/

end Interleaving

/-- The second call gives back what the first one took from the agent. -/
inductive HostCall.Reopens (agt : Bytes) : HostCall → HostCall → Prop where
  | grant (scope : Bytes) :
      Reopens agt (.session (.revokeCapabilities agt)) (.session (.grantCapability agt scope))
  | enable : Reopens agt (.setOutOfBandProxy false) (.setOutOfBandProxy true)

/-- No session grant of the agent counts. -/
def Hosted.Shut (agt : Bytes) (closing : HostCall) (h : Hosted) : Prop :=
  (closing = .session (.revokeCapabilities agt) → h.middleware.sessionGrantedScopes agt = []) ∧
    (closing = .setOutOfBandProxy false → h.middleware.outOfBandProxyMode = false)

theorem Hosted.serve_settings (clock : Clock) (h : Hosted) (access : Access) :
    ∃ store, (h.serve clock access).2.middleware = h.middleware.withStore store := by
  cases access with
  | isReplayed q => exact ⟨_, rfl⟩
  | recordRequest q checksum => exact ⟨_, rfl⟩
  | _ => exact ⟨h.middleware.idempotencyStore, rfl⟩

theorem Hosted.Shut.serve {agt : Bytes} {closing : HostCall} {h : Hosted} (hshut : h.Shut agt closing)
    (clock : Clock) (access : Access) : (h.serve clock access).2.Shut agt closing := by
  obtain ⟨store, hstore⟩ := h.serve_settings clock access
  unfold Shut
  rw [hstore]
  exact hshut

theorem Hosted.Shut.apply {agt : Bytes} {closing call : HostCall} {h : Hosted}
    (hshut : h.Shut agt closing) (hcall : ¬HostCall.Reopens agt closing call) :
    (h.apply call).Shut agt closing := by
  constructor
  · rintro rfl
    have hgrants := hshut.1 rfl
    cases call with
    | session call =>
        cases call with
        | grantCapability agentId scope =>
            have hne : agt ≠ agentId := by
              rintro rfl
              exact hcall (.grant scope)
            change (if agt = agentId then _ else h.middleware.sessionGrantedScopes agt) = []
            rw [if_neg hne]
            exact hgrants
        | revokeCapabilities agentId =>
            change (if agt = agentId then [] else h.middleware.sessionGrantedScopes agt) = []
            rw [hgrants, ite_self]
    | _ => exact hgrants
  · rintro rfl
    have hproxy := hshut.2 rfl
    cases call with
    | setOutOfBandProxy enable =>
        cases enable with
        | false => rfl
        | true => exact absurd .enable hcall
    | session call => cases call <;> exact hproxy
    | _ => exact hproxy

theorem Hosted.shut_apply {agt : Bytes} {closing : HostCall} (h : Hosted) :
    (h.apply closing).Shut agt closing := by
  constructor
  · rintro rfl
    exact if_pos rfl
  · rintro rfl
    rfl

namespace Interleaving

variable {ι : Type} [DecidableEq ι] {m : LLMTOPMiddleware} {frames : ι → Frame} {clock : Clock}
  {moves : List (Move ι HostCall)} {i : ι} {plan : ExecutionPlan}

theorem shut_at_turn {early late : List (Move ι HostCall)} {closing : HostCall} {agt : Bytes}
    (hmoves : moves = early ++ .host closing :: late) (hidle : .thread i ∉ early)
    (hlate : ∀ call, .host call ∈ late → ¬HostCall.Reopens agt closing call)
    {s : Interleaving ι} {access : Access} {before : List (Move ι HostCall)}
    (hturn : s.Turn (Hosted.serve clock) Hosted.apply moves i access before) :
    (s.run clock before).shared.Shut agt closing := by
  obtain ⟨between, rfl, hbetween⟩ := hturn.behind hmoves hidle (by simp)
  unfold run
  rw [System.after_append, System.after_concat]
  exact System.shared_after (Hosted.Shut agt closing) (fun h access hshut => hshut.serve clock access)
    (fun h call hcall hshut => hshut.apply (hlate call (hbetween.subset hcall)))
    (Hosted.shut_apply _)

/-- Once an agent's grants are revoked, or the proxy is switched off, a call that
has not begun is approved nothing without a token. -/
theorem closed_session_approves_nothing (m : LLMTOPMiddleware) (frames : ι → Frame) (clock : Clock)
    (early late : List (Move ι HostCall)) (i : ι) (plan : ExecutionPlan) (closing reopening : HostCall)
    (hcloses : HostCall.Reopens (frames i).agt closing reopening) (hidle : .thread i ∉ early)
    (hlate : ∀ call, .host call ∈ late → ¬HostCall.Reopens (frames i).agt closing call)
    (hreturned : ((start m frames).run clock (early ++ .host closing :: late)).threads i =
      .done plan) :
    ∃ before after, (frames i).entries = before ++ after ∧
      plan.approvedPointers = (before.filterMap Entry.field).map PointerField.approve ∧
      plan.approvedTools = (before.filterMap Entry.call).map ToolCall.approve ∧
      (plan.authorized = true → after = []) ∧ ∀ e ∈ before, e.token.isSome = true := by
  obtain ⟨before, after, hentries, hpointers, htools, hauthorized, hcovered⟩ :=
    approvals_covered m frames clock _ i plan hreturned
  refine ⟨before, after, hentries, hpointers, htools, hauthorized, fun e he => ?_⟩
  have hopened := (hcovered e he).2
  cases htoken : e.token with
  | some token => rfl
  | none =>
      rw [htoken] at hopened
      obtain ⟨⟨proxied, hproxied, hproxy⟩, scope, -, turn, hturn, granted, hgranted, -⟩ := hopened
      cases hcloses with
      | grant scope =>
          have hshut := (shut_at_turn rfl hidle hlate hturn).1 rfl
          rw [hshut] at hgranted
          exact absurd hgranted List.not_mem_nil
      | enable =>
          have hshut := (shut_at_turn rfl hidle hlate hproxied).2 rfl
          rw [hshut] at hproxy
          exact absurd hproxy Bool.false_ne_true

/-- Granted, revoked, and asked for only then. -/
theorem closed_session_approves_nothing_revoked :
    let s := start (exampleMiddleware []) fun _ : Unit => lsFrame
    let late := [.thread (), .thread (), .thread (), .thread ()]
    ∃ plan, (s.run (fun _ => 0) ([.host grantLs] ++ .host revokeAll :: late)).threads () =
        .done plan ∧
      ∃ before after, lsFrame.entries = before ++ after ∧
        plan.approvedPointers = (before.filterMap Entry.field).map PointerField.approve ∧
        plan.approvedTools = (before.filterMap Entry.call).map ToolCall.approve ∧
        (plan.authorized = true → after = []) ∧ ∀ e ∈ before, e.token.isSome = true := by
  intro s late
  refine ⟨_, rfl, closed_session_approves_nothing (exampleMiddleware []) (fun _ : Unit => lsFrame)
    (fun _ => 0) [.host grantLs] late () _ revokeAll grantLs (.grant _) (by simp) ?_ rfl⟩
  intro call hcall
  simp [late] at hcall

end Interleaving
end LlmTop
