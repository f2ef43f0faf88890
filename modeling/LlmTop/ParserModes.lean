import LlmTop.Reading

/-!
# Strict and tolerant are one parser

Both modes go through `readFrame`; they part only where a fault was logged
first, and at the required header fields.
-/
namespace LlmTop
open Lib.Faults

/-! ## Clean runs -/

/-- Nothing is quarantined and nothing is about to be. -/
structure Body.Clean (b : Body) : Prop where
  current : b.cur.healed = false
  draft : b.healedDraft = []
  recovery : b.recoveryAttempted = false

theorem Body.Clean.push {b : Body} (h : b.Clean) : b.pushCurrentStmt.Clean := by
  unfold Body.pushCurrentStmt
  rw [if_neg (by simp [h.current])]
  exact ⟨h.current, h.draft, h.recovery⟩

theorem Body.Clean.flush {b : Body} (h : b.Clean) (line : Bytes) : (b.flush line).Clean := by
  unfold Body.flush
  split
  · exact ⟨rfl, h.push.draft, h.push.recovery⟩
  · exact h

theorem Body.Clean.next {b : Body} (h : b.Clean) {line : Bytes} (hfaults : bodyFaults b line = []) :
    (bodyNext b line).Clean := by
  unfold bodyFaults at hfaults
  unfold bodyNext
  dsimp only at hfaults ⊢
  split
  · exact h
  · rename_i hline
    rw [if_neg hline] at hfaults
    have hflush := h.flush (trimLine line)
    refine ⟨?_, hflush.draft, hflush.recovery⟩
    simp [stepLine, lineNext, hflush.current, hfaults]

theorem Body.Clean.run {b : Body} (h : b.Clean) {bodyLines : List Bytes}
    (hfaults : faultsAlong bodyNext bodyFaults b bodyLines = []) :
    (bodyLines.foldl bodyNext b).Clean := by
  induction bodyLines generalizing b with
  | nil => exact h
  | cons line rest ih =>
      rw [faultsAlong] at hfaults
      obtain ⟨hline, hrest⟩ := List.append_eq_nil_iff.mp hfaults
      exact ih (h.next hline) hrest

theorem Body.Clean.close {b : Body} (h : b.Clean) : b.close.Clean := by
  unfold Body.close
  split
  · exact h.push
  · exact h

theorem readFrame_clean {maxSize : Nat} {payload : Bytes} (h : (readFrame maxSize payload).2 = []) :
    (readFrame maxSize payload).1.healedDraft = [] ∧
      (readFrame maxSize payload).1.recoveryAttempted = false := by
  obtain ⟨-, parts, -, hfaults, hread⟩ := readFrame_of_clean h
  have hbody := (List.append_eq_nil_iff.mp hfaults).2
  have hclean : (readBody parts.2).close.Clean :=
    Body.Clean.close (Body.Clean.run ⟨rfl, rfl, rfl⟩ hbody)
  rw [hread]
  exact ⟨hclean.draft, hclean.recovery⟩

/-! ## The two runs -/

theorem emits_frame {maxSize : Nat} {payload : Bytes}
    (hcomplete : (readFrame maxSize payload).1.header.complete = true) :
    Emits (parseFrame maxSize payload) (readFrame maxSize payload).1
      (readFrame maxSize payload).2 := by
  unfold readFrame at hcomplete ⊢
  by_cases hsize : maxSize < payload.length
  · rw [if_pos hsize] at hcomplete
    contradiction
  · rw [if_neg hsize] at hcomplete ⊢
    cases hparts : frameParts payload with
    | none =>
        rw [hparts] at hcomplete
        contradiction
    | some parts =>
        rw [hparts] at hcomplete
        rw [parseFrame_parts (Nat.le_of_not_lt hsize) hparts]
        have hheader : Emits (parseHeader parts.1) (readHeader (headerTokens parts.1))
            (tokensFaults (headerTokens parts.1)) := by
          have hfields := (emits_requireFields (h := readHeader (headerTokens parts.1)) hcomplete).map
            fun _ => readHeader (headerTokens parts.1)
          rw [parseHeader_eq, ← List.append_nil (tokensFaults _)]
          exact (emits_headerTokens (headerTokens parts.1) {}).bind hfields
        have hbody := (Emits.foldlM emits_bodyLine parts.2 {}).map fun b =>
          ({ header := readHeader (headerTokens parts.1)
             statements := b.close.statements
             healedDraft := b.close.healedDraft
             recoveryAttempted := b.close.recoveryAttempted
             rawFrame := payload } : AST)
        exact hheader.bind hbody

theorem parseFrame_tolerant (maxSize : Nat) (payload : Bytes) (log : List Fault) :
    parseFrame maxSize payload .tolerant log =
      .ok ((readFrame maxSize payload).1, log ++ (readFrame maxSize payload).2) := by
  unfold readFrame
  by_cases hsize : maxSize < payload.length
  · unfold parseFrame
    rw [if_pos hsize, if_pos hsize]
    rfl
  · rw [if_neg hsize]
    cases hparts : frameParts payload with
    | none =>
        rw [parseFrame_none (Nat.le_of_not_lt hsize) hparts]
        rfl
    | some parts =>
        rw [parseFrame_parts (Nat.le_of_not_lt hsize) hparts]
        have htokens := (emits_headerTokens (headerTokens parts.1) {}).tolerant log
        have hheader : parseHeader parts.1 .tolerant log =
            .ok (readHeader (headerTokens parts.1), log ++ tokensFaults (headerTokens parts.1)) := by
          rw [parseHeader_eq, bind_ok htokens, bind_ok (requireFields_tolerant _ _)]
          rfl
        have hbody := (Emits.foldlM emits_bodyLine parts.2 {}).tolerant
          (log ++ tokensFaults (headerTokens parts.1))
        rw [bind_ok hheader, bind_ok hbody, List.append_assoc]
        rfl

theorem parseFrame_strict_incomplete {maxSize : Nat} {payload : Bytes}
    (hmissing : (readFrame maxSize payload).1.header.complete = false) :
    ∃ fault, parseFrame maxSize payload .strict [] = .error fault := by
  unfold readFrame at hmissing
  by_cases hsize : maxSize < payload.length
  · unfold parseFrame
    rw [if_pos hsize]
    exact ⟨_, rfl⟩
  · rw [if_neg hsize] at hmissing
    cases hparts : frameParts payload with
    | none =>
        rw [parseFrame_none (Nat.le_of_not_lt hsize) hparts]
        exact ⟨_, rfl⟩
    | some parts =>
        rw [hparts] at hmissing
        rw [parseFrame_parts (Nat.le_of_not_lt hsize) hparts]
        have htokens := emits_headerTokens (headerTokens parts.1) {}
        rw [parseHeader_eq]
        by_cases hclean : tokensFaults (headerTokens parts.1) = []
        · refine ⟨.missingHeaderFields, bind_error ?_⟩
          rw [bind_ok (htokens.strict_clean hclean [])]
          exact bind_error (requireFields_strict hmissing [])
        · obtain ⟨fault, hfault⟩ := htokens.strict_fault hclean []
          exact ⟨fault, bind_error (bind_error hfault)⟩

/-! ## The diagnostic -/

theorem Fault.text_ne_nil (fault : Fault) : fault.text ≠ [] := by
  cases fault <;> simp [Fault.text, ascii_ne_nil]

theorem diagnostic_eq_nil {log : List Fault} : log.foldl appendDiagnostic [] = [] ↔ log = [] := by
  have hkeep : ∀ (log : List Fault) {diagnostic : Bytes}, diagnostic ≠ [] →
      log.foldl appendDiagnostic diagnostic ≠ [] := by
    intro log
    induction log with
    | nil => exact fun h => h
    | cons fault log ih => exact fun h => ih (by simp [appendDiagnostic, h])
  constructor
  · intro h
    cases log with
    | nil => rfl
    | cons fault log =>
        have hfirst : appendDiagnostic [] fault ≠ [] := by
          simp [appendDiagnostic, fault.text_ne_nil]
        exact absurd h (hkeep log hfirst)
  · rintro rfl
    rfl

/-- The tolerant parser always returns. -/
theorem parse_tolerant (maxSize : Nat) (payload : Bytes) :
    parse .tolerant maxSize payload =
      .ok { (readFrame maxSize payload).1 with
        diagnostic := (readFrame maxSize payload).2.foldl appendDiagnostic [] } := by
  unfold parse
  rw [parseFrame_tolerant, List.nil_append]

theorem readFrame_diagnostic (maxSize : Nat) (payload : Bytes) :
    (readFrame maxSize payload).1.diagnostic = [] := by
  unfold readFrame
  split
  · rfl
  · split <;> rfl

/-- What the strict parser accepts. -/
theorem parse_strict_eq_ok {maxSize : Nat} {payload : Bytes} {ast : AST} :
    parse .strict maxSize payload = .ok ast ↔
      (readFrame maxSize payload).2 = [] ∧
        (readFrame maxSize payload).1.header.complete = true ∧
        ast = (readFrame maxSize payload).1 := by
  have hdiag := readFrame_diagnostic maxSize payload
  unfold parse
  cases hcomplete : (readFrame maxSize payload).1.header.complete with
  | false =>
      obtain ⟨fault, hfault⟩ := parseFrame_strict_incomplete hcomplete
      simp [hfault]
  | true =>
      have hrun := emits_frame hcomplete
      by_cases hclean : (readFrame maxSize payload).2 = []
      · rw [hrun.strict_clean hclean]
        have hself : { (readFrame maxSize payload).1 with diagnostic := [] } =
            (readFrame maxSize payload).1 := by
          rw [← hdiag]
        simp only [List.foldl_nil, hself, hclean, Except.ok.injEq, true_and]
        exact eq_comm
      · obtain ⟨fault, hfault⟩ := hrun.strict_fault hclean []
        simp [hfault, hclean]

/-- Strict mode accepts exactly the frames that tolerant mode reads without a
diagnostic and with every required field, and reads them the same. -/
theorem parse_strict_iff_tolerant (maxSize : Nat) (payload : Bytes) :
    (∀ ast, parse .strict maxSize payload = .ok ast ↔
      parse .tolerant maxSize payload = .ok ast ∧ ast.diagnostic = [] ∧
        ast.header.complete = true) ∧
    ∀ ast, parse .strict maxSize payload = .ok ast →
      ast.healedDraft = [] ∧ ast.diagnostic = [] ∧ ast.recoveryAttempted = false := by
  have hdiag := readFrame_diagnostic maxSize payload
  constructor
  · intro ast
    rw [parse_strict_eq_ok, parse_tolerant]
    constructor
    · rintro ⟨hclean, hcomplete, rfl⟩
      refine ⟨?_, hdiag, hcomplete⟩
      rw [hclean, List.foldl_nil, ← hdiag]
    · rintro ⟨htolerant, hempty, hcomplete⟩
      obtain rfl := Except.ok.inj htolerant
      have hclean := diagnostic_eq_nil.mp hempty
      refine ⟨hclean, hcomplete, ?_⟩
      rw [hclean, List.foldl_nil, ← hdiag]
  · intro ast hstrict
    obtain ⟨hclean, -, rfl⟩ := parse_strict_eq_ok.mp hstrict
    obtain ⟨hdraft, hrecovery⟩ := readFrame_clean hclean
    exact ⟨hdraft, hdiag, hrecovery⟩

end LlmTop
