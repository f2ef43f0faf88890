import LlmTop.Accesses
import LlmTop.Stamping

/-!
# The integrity check

When `evaluate` answers that the checksum is wrong: never for a frame that was
stamped, parsed and handed to it.
-/
namespace LlmTop
open Lib.Faults

def integrityMessage : Bytes := ascii "ERR:integrity - checksum mismatch"

/-- Every other text differs from it in its first letters. -/
theorem ne_integrityMessage {word message : Bytes} (hmessage : word <+: message)
    (hword : ¬word <+: integrityMessage) : message ≠ integrityMessage := by
  rintro rfl
  exact hword hmessage

/-- What an entry is refused with. -/
def Entry.refusals (agt : Bytes) (e : Entry) : List Bytes :=
  [e.escapeMessage, e.invalidMessage, e.ungrantedMessage agt, e.bareMessage]

/-- The word that all of them start with. -/
def Entry.refusalWord : Entry → Bytes
  | .pointer _ => ascii "ERR:cap_"
  | .tool _ => ascii "ERR:exec"

theorem Entry.refusals_start {agt : Bytes} {e : Entry} {message : Bytes}
    (h : message ∈ e.refusals agt) : e.refusalWord <+: message := by
  have hstart : ∀ {word first : Bytes} (rest : Bytes), word <+: first → word <+: first ++ rest :=
    fun rest hfirst => hfirst.trans (List.prefix_append _ rest)
  simp only [refusals, List.mem_cons, List.not_mem_nil, or_false] at h
  cases e with
  | pointer field =>
      change ascii "ERR:cap_" <+: message
      rcases h with rfl | rfl | rfl | rfl
      · simp only [escapeMessage, List.append_assoc]
        exact hstart _ (by decide)
      · exact hstart _ (by decide)
      · simp only [ungrantedMessage, List.append_assoc]
        exact hstart _ (by decide)
      · simp only [bareMessage, List.append_assoc]
        exact hstart _ (by decide)
  | tool call =>
      change ascii "ERR:exec" <+: message
      rcases h with rfl | rfl | rfl | rfl
      · simp only [escapeMessage, List.append_assoc]
        exact hstart _ (by decide)
      · exact hstart _ (by decide)
      · simp only [ungrantedMessage, List.append_assoc]
        exact hstart _ (by decide)
      · exact hstart _ (by decide)

/-- No entry is refused with the answer of the checksum. -/
theorem Entry.refusals_ne {agt : Bytes} {e : Entry} {message : Bytes} (h : message ∈ e.refusals agt) :
    message ≠ integrityMessage := by
  refine ne_integrityMessage (refusals_start h) ?_
  cases e with
  | pointer field => exact (by decide : ¬ascii "ERR:cap_" <+: integrityMessage)
  | tool call => exact (by decide : ¬ascii "ERR:exec" <+: integrityMessage)

namespace LLMTOPMiddleware

variable (m : LLMTOPMiddleware) (clock : Clock) (ast : AST) (acceptHealed : Bool)

theorem checkEntry_error {agt : Bytes} {p : Progress} {e : Entry} {plan : ExecutionPlan}
    (h : m.checkEntry clock agt p e = .error plan) : plan.errorMessage ∈ e.refusals agt := by
  rw [checkEntry_eq] at h
  unfold Entry.refusals
  cases hescapes : escapesRoot e.resource with
  | true =>
      rw [hescapes, if_pos rfl] at h
      obtain rfl := Except.error.inj h
      exact List.mem_cons_self
  | false =>
      rw [hescapes, if_neg Bool.false_ne_true] at h
      cases htoken : e.token with
      | some token =>
          rw [htoken] at h
          dsimp only at h
          split_ifs at h
          obtain rfl := Except.error.inj h
          simp [ExecutionPlan.fail]
      | none =>
          rw [htoken] at h
          dsimp only at h
          split_ifs at h
          · obtain rfl := Except.error.inj h
            simp [ExecutionPlan.fail]
          · obtain rfl := Except.error.inj h
            simp [ExecutionPlan.fail]

theorem checkBatches_message {plan : ExecutionPlan}
    (h : m.checkBatches clock ast acceptHealed = .error plan) :
    plan.errorMessage ≠ integrityMessage := by
  rw [checkBatches_eq] at h
  obtain ⟨p, e, -, hentry⟩ := Lib.Guarded.step_of_foldlM_error h
  exact Entry.refusals_ne (m.checkEntry_error clock hentry)

theorem consumeRequest_message (header : Header) {p : Progress} (hplan : p.plan.errorMessage = []) :
    (m.consumeRequest clock header p).1.errorMessage ≠ integrityMessage := by
  have hempty : p.plan.errorMessage ≠ integrityMessage := by
    rw [hplan]
    decide
  have hreplay : ∀ rest, ascii "ERR:replay_detected - Request ID '" ++ rest ≠ integrityMessage :=
    fun rest => ne_integrityMessage (List.prefix_append _ rest) (by decide)
  unfold consumeRequest
  split_ifs
  · generalize m.idempotencyStore.recordRequest clock p.tick header.agt header.reqid header.chk = taken
    obtain ⟨result, store⟩ := taken
    cases result with
    | recorded => exact hempty
    | replay =>
        simp only [replayMessage, List.append_assoc]
        exact hreplay _
    | capacityExceeded =>
        have hfull : ascii "ERR:replay_detected - idempotency store at capacity; " ++
            ascii "cannot guarantee exactly-once execution" ≠ integrityMessage := by decide
        exact hfull
  · exact hempty

theorem gateError_integrity_iff :
    m.gateError clock ast acceptHealed = some integrityMessage ↔
      ast.header.agt ≠ [] ∧ ast.header.reqid ≠ [] ∧ (ast.healedDraft = [] ∨ acceptHealed = true) ∧
        m.verifyChk = true ∧ ast.header.chk ≠ computeChk ast.rawFrame := by
  have hnamed : (ast.header.agt.isEmpty || ast.header.reqid.isEmpty) = true ↔
      ast.header.agt = [] ∨ ast.header.reqid = [] := by simp
  have hdraft : (!ast.healedDraft.isEmpty && !acceptHealed) = true ↔
      ¬(ast.healedDraft = [] ∨ acceptHealed = true) := by simp
  have hmangled : (m.verifyChk && ast.header.chk != computeChk ast.rawFrame) = true ↔
      m.verifyChk = true ∧ ast.header.chk ≠ computeChk ast.rawFrame := by simp
  have hreplayed : replayMessage ast.header ≠ integrityMessage := by
    simp only [replayMessage, List.append_assoc]
    exact ne_integrityMessage (List.prefix_append ..) (by decide)
  unfold gateError
  split_ifs with hnames hhealed hchk hreplay
  · refine iff_of_false (fun h => absurd (Option.some.inj h) (by decide)) fun h => ?_
    exact (hnamed.mp hnames).elim h.1 h.2.1
  · refine iff_of_false (fun h => absurd (Option.some.inj h) (by decide)) fun h => ?_
    exact hdraft.mp hhealed h.2.2.1
  · refine iff_of_true rfl ?_
    obtain ⟨hagt, hreqid⟩ := not_or.mp (mt hnamed.mpr hnames)
    exact ⟨hagt, hreqid, not_not.mp (mt hdraft.mpr hhealed), hmangled.mp hchk⟩
  · exact iff_of_false (fun h => hreplayed (Option.some.inj h)) fun h => hchk (hmangled.mpr h.2.2.2)
  · exact iff_of_false nofun fun h => hchk (hmangled.mpr h.2.2.2)

/-- The checksum is what an evaluation fails over exactly when it is checked and
does not fit, and nothing in front of it failed. -/
theorem evaluate_integrity_iff :
    (m.evaluate clock ast acceptHealed).1.errorMessage = integrityMessage ↔
      ast.header.agt ≠ [] ∧ ast.header.reqid ≠ [] ∧ (ast.healedDraft = [] ∨ acceptHealed = true) ∧
        m.verifyChk = true ∧ ast.header.chk ≠ computeChk ast.rawFrame := by
  rw [← m.gateError_integrity_iff clock ast acceptHealed]
  unfold evaluate
  cases hgate : m.gateError clock ast acceptHealed with
  | some message => exact Option.some_inj.symm
  | none =>
      refine iff_of_false ?_ nofun
      rcases m.checkBatches_cases clock ast acceptHealed with
        ⟨-, hwalk⟩ | ⟨-, before, e, after, message, -, -, -, hwalk⟩
      · rw [hwalk]
        refine m.consumeRequest_message clock ast.header ?_
        rw [Entry.recordAll_eq]
      · rw [hwalk]
        exact m.checkBatches_message clock ast acceptHealed hwalk

end LLMTOPMiddleware

/-- A frame whose field `stamp_chk` finds is stamped, accepted, and then never
refused over its checksum, whatever the settings are. -/
theorem stamped_frame_intact {maxSize : Nat} {frame : Bytes} {ast : AST}
    (hparse : parse .strict maxSize frame = .ok ast) (hsize : (stampChk frame).length ≤ maxSize)
    (hsafe : StampSafe frame ast.header) :
    ∃ stamped, parse .strict maxSize (stampChk frame) = .ok stamped ∧
      stamped.statements = ast.statements ∧
      ∀ (m : LLMTOPMiddleware) (clock : Clock) (acceptHealed : Bool),
        (m.evaluate clock stamped acceptHealed).1.errorMessage ≠ integrityMessage := by
  refine ⟨_, stampAccepted_of_safe hparse hsize hsafe, rfl, fun m clock acceptHealed hmessage => ?_⟩
  obtain ⟨-, -, -, -, hchk⟩ := (m.evaluate_integrity_iff clock _ acceptHealed).mp hmessage
  exact hchk rfl

theorem stamped_frame_intact_stampable :
    ∃ stamped, parse .strict 1048576 (stampChk stampableFrame) = .ok stamped ∧
      stamped.statements = (readFrame 1048576 stampableFrame).1.statements ∧
      ∀ (m : LLMTOPMiddleware) (clock : Clock) (acceptHealed : Bool),
        (m.evaluate clock stamped acceptHealed).1.errorMessage ≠ integrityMessage :=
  stamped_frame_intact stampable_parse stampable_size stampable_safe

end LlmTop
