import LlmTop.Authorization
import LlmTop.RecoveryHeader

/-!
# A recovery frame is never executed

The recovery instruction repeats diagnostics, and with them text of a payload
that did not parse.  Whatever they hold, the strict parser does not accept the
instruction, and the middleware's checksum check does not let it through.
-/
namespace LlmTop
open Lib

/-! ## The timestamp -/

/-- What a timestamp is written with. -/
def isTimestampByte (c : UInt8) : Bool := isDigit c || c ∈ ascii "-TZ:"

theorem isTimestampByte_natDecimal {n : Nat} {c : UInt8} (h : c ∈ natDecimal n) :
    isTimestampByte c = true := by
  rw [isTimestampByte, isDigit_of_mem_natDecimal h]
  rfl

theorem isTimestampByte_twoDigits {n : Nat} {c : UInt8} (h : c ∈ twoDigits n) :
    isTimestampByte c = true := by
  unfold twoDigits at h
  split at h
  · rcases List.mem_append.mp h with h | h
    · exact List.all_eq_true.mp (by decide : (ascii "0").all isTimestampByte = true) c h
    · exact isTimestampByte_natDecimal h
  · exact isTimestampByte_natDecimal h

theorem isTimestampByte_toDecimal {n : Int} {c : UInt8} (h : c ∈ toDecimal n) :
    isTimestampByte c = true := by
  unfold toDecimal at h
  split at h
  · rcases List.mem_cons.mp h with rfl | h
    · decide
    · exact isTimestampByte_natDecimal h
  · exact isTimestampByte_natDecimal h

theorem isTimestampByte_of_mem {tm : BrokenDownTime} {c : UInt8} (h : c ∈ getIsoTimestamp tm) :
    isTimestampByte c = true := by
  have hmark : ∀ {mark : String} {c : UInt8}, ascii mark ⊆ ascii "-TZ:" → c ∈ ascii mark →
      isTimestampByte c = true := by
    intro mark c hsub hc
    rw [isTimestampByte, decide_eq_true (hsub hc), Bool.or_true]
  unfold getIsoTimestamp at h
  simp only [List.mem_append] at h
  rcases h with (((((((((((h | h) | h) | h) | h) | h) | h) | h) | h) | h) | h) | h)
  · exact isTimestampByte_toDecimal h
  · exact hmark (by decide) h
  · exact isTimestampByte_twoDigits h
  · exact hmark (by decide) h
  · exact isTimestampByte_twoDigits h
  · exact hmark (by decide) h
  · exact isTimestampByte_twoDigits h
  · exact hmark (by decide) h
  · exact isTimestampByte_twoDigits h
  · exact hmark (by decide) h
  · exact isTimestampByte_twoDigits h
  · exact hmark (by decide) h

/-- No white space and no quote. -/
theorem plain_timestamp (tm : BrokenDownTime) :
    ∀ c ∈ getIsoTimestamp tm, isTrimmed c = false ∧ c ≠ quote := by
  intro c hc
  have hall := of_all_bytes (p := fun c => !isTimestampByte c || (!isTrimmed c && c != quote))
    (by decide +kernel) c
  simpa [isTimestampByte_of_mem hc] using hall

/-! ## The strict parser -/

/-- The first hint is a line of words. -/
def firstHint : Bytes := ascii "1. Check for unclosed quotes or brackets in the payload"

def laterHints : Bytes :=
  ascii "  2. Verify escape sequences (\\n, \\t, \\\\, \\\")\n" ++
    ascii "  3. Ensure all role declarations end with ]\n" ++
    ascii "  4. Keep values free of spaces: 'GL:fix the leak' splits into separate fields\n" ++
    ascii "  5. Re-validate the header (VER, CHK, AGT, UID, TIM, REQID)\n"

theorem recoveryHints_eq :
    recoveryHints = ascii "\nRECOVERY_HINTS:" ++ '\n'.toUInt8 :: (ascii "  " ++ firstHint) ++
      '\n'.toUInt8 :: laterHints := by
  have htitle : ascii "\nRECOVERY_HINTS:\n" = ascii "\nRECOVERY_HINTS:" ++ ['\n'.toUInt8] := rfl
  have hline : ascii "  1. Check for unclosed quotes or brackets in the payload\n" =
      ascii "  " ++ (firstHint ++ ['\n'.toUInt8]) := rfl
  unfold recoveryHints laterHints
  rw [htitle, hline]
  simp only [List.append_assoc, List.cons_append, List.nil_append]

section Instruction

variable (timestamp : Bytes) (ast : AST) (plan : RecoveryPlan) (originalPayload : Bytes)

/-- Where the first hint stands in the instruction. -/
def hintPlace : Place where
  front := recoveryHeader timestamp ast.header.reqid ++ ascii "\n" ++
    ascii "[PLANNER] act:repair GL:fix_and_resubmit TD:correct_syntax,validate_format\n" ++
    (ascii "ERROR_COUNT:" ++ toDecimal plan.errorsFound ++ ascii " " ++
      ascii "RECOVERED:" ++ toDecimal plan.statementsRecovered ++ ascii "/" ++
      toDecimal plan.statementsTotal ++ ascii "\n" ++
      ascii "ERRORS:\n" ++ plan.errorDetails.zipIdx.flatMap errorLine ++ ascii "\nRECOVERY_HINTS:")
  indent := ascii "  "
  trailing := []
  back := some (laterHints ++ ascii "\nORIGINAL_PAYLOAD_HASH:djb2:" ++
    computeSimpleHash originalPayload ++ ascii "\n")
  blank := List.all_eq_true.mp (by decide)

theorem recoveryInstruction_hint :
    generateRecoveryInstruction timestamp ast plan originalPayload =
      (hintPlace timestamp ast plan originalPayload).frame firstHint := by
  rw [generateRecoveryInstruction, recoveryBody, recoveryHints_eq]
  simp [Place.frame, hintPlace, frameText, spaced, List.append_assoc]

theorem strict_rejects_recovery (maxSize : Nat) (result : AST) :
    parse .strict maxSize (generateRecoveryInstruction timestamp ast plan originalPayload) ≠
      .ok result := by
  intro hparse
  have hbody : BodyLine firstHint := ⟨⟨⟨_, rfl, by decide⟩, ⟨_, rfl, by decide⟩⟩, by decide, by decide⟩
  have hdrops : lineDrops firstHint = true := by decide +kernel
  obtain ⟨header, before, hview⟩ := (hintPlace timestamp ast plan originalPayload).exists_view
  obtain ⟨front, last, hpieces⟩ := Split.pieces_inside isRoleLine before
    (hintPlace timestamp ast plan originalPayload).after
  rw [recoveryInstruction_hint] at hparse
  have hsize := (readFrame_of_clean (parse_strict_eq_ok.mp hparse).1).1
  obtain ⟨hclean, -⟩ := (parse_strict_view hsize (hview firstHint hbody)).mp hparse
  have hpiece := hclean.pieces _ (by
    rw [hpieces firstHint (by decide)]
    exact List.mem_append_right _ List.mem_cons_self)
  have hkeeps := ((piece_clean_iff.mp hpiece).1 firstHint (by simp)).1
  exact absurd (hdrops.symm.trans hkeeps) (by decide)

end Instruction

/-! ## The middleware -/

theorem evaluate_gated {m : LLMTOPMiddleware} {clock : Clock} {ast : AST} {acceptHealed : Bool}
    (h : ¬m.GatesOpen clock ast acceptHealed) :
    ∃ message, m.evaluate clock ast acceptHealed = ({ errorMessage := message }, m.idempotencyStore) := by
  unfold LLMTOPMiddleware.evaluate
  cases hgate : m.gateError clock ast acceptHealed with
  | some message => exact ⟨message, rfl⟩
  | none => exact absurd (LLMTOPMiddleware.gateError_eq_none.mp hgate) h

/-- A checksum that is shorter than a digest is none. -/
theorem computeChk_ne_short {chk : Bytes} (h : chk.length < 71) (frame : Bytes) : chk ≠ computeChk frame := by
  rintro rfl
  have hmark : (ascii "sha256:").length = 7 := rfl
  rw [computeChk, List.length_append, hmark, Sha256.hashHex_length] at h
  omega

/-- A recovery instruction is refused: the strict parser does not take it, and of
what the tolerant parser makes of it nothing is approved by a middleware that
checks checksums, whatever it grants. -/
theorem recovery_never_executed (tm : BrokenDownTime) (ast : AST) (plan : RecoveryPlan)
    (originalPayload : Bytes) (maxSize : Nat) :
    let instruction := generateRecoveryInstruction (getIsoTimestamp tm) ast plan originalPayload
    (∀ result, parse .strict maxSize instruction ≠ .ok result) ∧
      ∃ result, parse .tolerant maxSize instruction = .ok result ∧
        ∀ (m : LLMTOPMiddleware) (clock : Clock) (acceptHealed : Bool), m.verifyChk = true →
          ∃ message, m.evaluate clock result acceptHealed =
            ({ errorMessage := message }, m.idempotencyStore) := by
  intro instruction
  refine ⟨strict_rejects_recovery _ ast plan originalPayload maxSize, ?_⟩
  rcases Nat.lt_or_ge maxSize instruction.length with hlong | hfits
  · refine ⟨_, parse_tolerant maxSize instruction, fun m clock acceptHealed _ => ?_⟩
    refine evaluate_gated fun hgates => hgates.agent ?_
    rw [readFrame, if_pos hlong]
  · obtain ⟨result, hparse, hheader⟩ :=
      parse_recoveryInstruction (plain_timestamp tm) ast plan originalPayload hfits
    refine ⟨result, hparse, fun m clock acceptHealed hon => ?_⟩
    refine evaluate_gated fun hgates => ?_
    have hchk := hgates.intact hon
    rw [hheader] at hchk
    have hshort : (ascii "sha256:recovery").length < 71 := by decide
    exact computeChk_ne_short hshort result.rawFrame hchk

end LlmTop
