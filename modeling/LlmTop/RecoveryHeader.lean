import LlmTop.BinaryHeader
import LlmTop.LinePlacement
import LlmTop.Recovery

/-!
# The header of a recovery frame

The recovery instruction is a frame itself.  Whatever the request identifier
and the rest of the AST hold, the parser takes the header that was written and
no line of the body joins it.
-/
namespace LlmTop

/-! ## Header tokens -/

theorem sanitizeHeaderToken_ne_nil (s : Bytes) : sanitizeHeaderToken s ≠ [] := by
  unfold sanitizeHeaderToken
  dsimp only
  split
  · exact ascii_ne_nil (by decide)
  · rename_i hempty
    simpa using hempty

theorem length_sanitizeHeaderToken (s : Bytes) : (sanitizeHeaderToken s).length ≤ kMaxHeaderToken := by
  unfold sanitizeHeaderToken
  dsimp only
  split
  · decide
  · rw [List.length_map]
    exact List.length_take_le _ _

theorem isHeaderSafe_of_mem {s : Bytes} {c : UInt8} (h : c ∈ sanitizeHeaderToken s) :
    isHeaderSafe c = true := by
  unfold sanitizeHeaderToken at h
  dsimp only at h
  split at h
  · exact List.all_eq_true.mp (by decide : (ascii "unknown").all isHeaderSafe = true) c h
  · obtain ⟨d, -, rfl⟩ := List.mem_map.mp h
    split
    · assumption
    · decide

theorem plain_of_safe {c : UInt8} (h : isHeaderSafe c = true) : isTrimmed c = false ∧ c ≠ quote := by
  have hall := of_all_bytes (p := fun c => !isHeaderSafe c || (!isTrimmed c && c != quote))
    (by decide +kernel) c
  simpa [h] using hall

/-- Outside quotes an escape is a byte like any other. -/
theorem lex_unquoted {delim : UInt8} {word : Bytes} (h : ∀ c ∈ word, c ≠ delim ∧ c ≠ quote)
    (current : Bytes) :
    word.foldl (lexStep delim) { current := current } = { current := current ++ word } := by
  induction word generalizing current with
  | nil => rw [List.foldl_nil, List.append_nil]
  | cons c cs ih =>
      obtain ⟨⟨hdelim, hquote⟩, hrest⟩ := List.forall_mem_cons.mp h
      have hstep : lexStep delim { current := current } c = { current := current ++ [c] } := by
        simp [lexStep, hdelim, hquote]
      rw [List.foldl_cons, hstep, ih hrest, List.append_assoc]
      rfl

theorem solid_unquoted {delim : UInt8} {word : Bytes} (hne : word ≠ [])
    (h : ∀ c ∈ word, c ≠ delim ∧ c ≠ quote) :
    Solid delim word ∧ leavesOpen delim word = false := by
  have hrun := lex_unquoted h []
  rw [List.nil_append] at hrun
  exact ⟨⟨hne, by rw [hrun], by rw [hrun]⟩, by rw [leavesOpen, hrun]⟩

/-- A line of tokens without quotes is read back as the tokens. -/
theorem headerTokens_lineOf {tokens : List HeaderToken}
    (hquote : ∀ t ∈ tokens, quote ∉ t.text) :
    headerTokens (headerLineOf tokens) = tokens.map HeaderToken.text := by
  have hword : ∀ word ∈ tokens.map HeaderToken.text,
      Solid ' '.toUInt8 word ∧ leavesOpen ' '.toUInt8 word = false := by
    intro word hword
    obtain ⟨t, ht, rfl⟩ := List.mem_map.mp hword
    refine solid_unquoted t.text_ne_nil fun c hc => ⟨?_, ?_⟩
    · rintro rfl
      exact t.byte_ne (by decide) hc
    · rintro rfl
      exact hquote t ht hc
  exact lexSplit_spaced (by decide) (by decide) (fun word h => (hword word h).1)
    fun word h => (hword word (List.mem_of_mem_dropLast h)).2

/-! ## The recovery frame -/

/-- What the header of the frame says. -/
def recoveredHeader (timestamp reqid : Bytes) : Header where
  ver := ascii "LLM-TOPv1"
  chk := ascii "sha256:recovery"
  agt := ascii "evaluator"
  uid := ascii "system"
  tim := timestamp
  reqid := sanitizeHeaderToken reqid ++ ascii "_recovery"
  fallback := ascii "json"

def recoveryValues : List Bytes :=
  ["LLM-TOPv1", "sha256:recovery", "evaluator", "system", "_recovery", "json"].map ascii

theorem plain_recoveryValues :
    ∀ value ∈ recoveryValues, ∀ c ∈ value, isTrimmed c = false ∧ c ≠ quote := by
  have hall : ∀ value ∈ recoveryValues, (value.all fun c => !isTrimmed c && c != quote) = true := by
    decide
  intro value hvalue c hc
  simpa using List.all_eq_true.mp (hall value hvalue) c hc

theorem plain_reqid {reqid : Bytes} {c : UInt8}
    (hc : c ∈ sanitizeHeaderToken reqid ++ ascii "_recovery") : isTrimmed c = false ∧ c ≠ quote := by
  rcases List.mem_append.mp hc with hc | hc
  · exact plain_of_safe (isHeaderSafe_of_mem hc)
  · exact plain_recoveryValues _ (by decide) c hc

theorem headerKey_of_text {key : Bytes} (h : key ∈ textKeys) : key ∈ headerKeys := by
  have hall : ∀ key ∈ textKeys, key ∈ headerKeys := by decide
  exact hall key h

theorem plain_recovered {timestamp : Bytes}
    (hclock : ∀ c ∈ timestamp, isTrimmed c = false ∧ c ≠ quote) {reqid key : Bytes}
    (hkey : key ∈ textKeys) :
    ∀ c ∈ (recoveredHeader timestamp reqid).text key, isTrimmed c = false ∧ c ≠ quote := by
  intro c hc
  simp only [textKeys, List.map_cons, List.map_nil, List.mem_cons, List.not_mem_nil, or_false] at hkey
  rcases hkey with rfl | rfl | rfl | rfl | rfl | rfl | rfl
  · exact plain_recoveryValues (ascii "LLM-TOPv1") (by decide) c hc
  · exact plain_recoveryValues (ascii "sha256:recovery") (by decide) c hc
  · exact plain_recoveryValues (ascii "evaluator") (by decide) c hc
  · exact plain_recoveryValues (ascii "system") (by decide) c hc
  · exact hclock c hc
  · exact plain_reqid hc
  · exact plain_recoveryValues (ascii "json") (by decide) c hc

section Clock

variable {timestamp : Bytes} (hclock : ∀ c ∈ timestamp, isTrimmed c = false ∧ c ≠ quote)

/-- The fields of the header as tokens. -/
def recoveryTokens (reqid : Bytes) : List HeaderToken :=
  textKeys.attach.map fun key =>
    ⟨key.1, (recoveredHeader timestamp reqid).text key.1, headerKey_of_text key.2,
      fun c hc => (plain_recovered hclock key.2 c hc).1⟩

theorem recoveryTokens_texts (reqid : Bytes) :
    (recoveryTokens hclock reqid).map HeaderToken.text =
      headerWords (recoveredHeader timestamp reqid) := by
  have hfallback : (recoveredHeader timestamp reqid).fallback ≠ [] := ascii_ne_nil (by decide)
  have hhr : UInt32.ofInt (recoveredHeader timestamp reqid).hr = 0 := rfl
  have htokens : (recoveryTokens hclock reqid).map HeaderToken.text =
      textKeys.map fun key => fieldToken key ((recoveredHeader timestamp reqid).text key) := by
    rw [recoveryTokens, List.map_map]
    exact List.attach_map_val
      (f := fun key => fieldToken key ((recoveredHeader timestamp reqid).text key))
  rw [htokens, headerWords, emittedKeys, hrWords, if_neg hfallback, if_pos hhr, List.append_nil]
  rfl

theorem recoveryHeader_eq (reqid : Bytes) :
    recoveryHeader timestamp reqid = headerLineOf (recoveryTokens hclock reqid) := by
  have hfront : ascii "VER:LLM-TOPv1 CHK:sha256:recovery AGT:evaluator UID:system TIM:" =
      spaced ' '.toUInt8 [fieldToken (ascii "VER") (ascii "LLM-TOPv1"),
        fieldToken (ascii "CHK") (ascii "sha256:recovery"),
        fieldToken (ascii "AGT") (ascii "evaluator"), fieldToken (ascii "UID") (ascii "system"),
        fieldToken (ascii "TIM") []] := rfl
  have hmiddle : ascii " REQID:" = ' '.toUInt8 :: fieldToken (ascii "REQID") [] := rfl
  have hback : ascii "_recovery FALLBACK:json" =
      ascii "_recovery" ++ ' '.toUInt8 :: fieldToken (ascii "FALLBACK") (ascii "json") := rfl
  have hwords : headerWords (recoveredHeader timestamp reqid) =
      [fieldToken (ascii "VER") (ascii "LLM-TOPv1"), fieldToken (ascii "CHK") (ascii "sha256:recovery"),
        fieldToken (ascii "AGT") (ascii "evaluator"), fieldToken (ascii "UID") (ascii "system"),
        fieldToken (ascii "TIM") timestamp,
        fieldToken (ascii "REQID") (sanitizeHeaderToken reqid ++ ascii "_recovery"),
        fieldToken (ascii "FALLBACK") (ascii "json")] := by
    rw [← recoveryTokens_texts hclock]
    rfl
  rw [recoveryHeader, hfront, hmiddle, hback, headerLineOf, recoveryTokens_texts, hwords]
  simp [spaced, fieldToken]

theorem notMem_quote_recoveryTokens {reqid : Bytes} {t : HeaderToken}
    (ht : t ∈ recoveryTokens hclock reqid) : quote ∉ t.text := by
  have hkeys : ∀ key ∈ textKeys, quote ∉ key ++ [':'.toUInt8] := by decide
  obtain ⟨key, -, rfl⟩ := List.mem_map.mp ht
  intro hc
  rcases List.mem_append.mp hc with hc | hc
  · exact hkeys key.1 key.2 (List.mem_append_left _ hc)
  · rcases List.mem_cons.mp hc with hcolon | hc
    · exact absurd hcolon (by decide)
    · exact (plain_recovered hclock key.2 quote hc).2 rfl

theorem recoveryTokens_ne (reqid : Bytes) : recoveryTokens hclock reqid ≠ [] :=
  List.cons_ne_nil _ _

end Clock

def plannerLine : Bytes := ascii "[PLANNER] act:repair GL:fix_and_resubmit TD:correct_syntax,validate_format"

/-- The role line keeps the lines behind it out of the header, whatever they are. -/
theorem opensBody_planner (body : Bytes) : OpensBody (plannerLine ++ '\n'.toUInt8 :: body) := by
  intro line hline
  have hkept : trimLine plannerLine = plannerLine := by decide
  have hne : ¬ plannerLine.isEmpty = true := by decide
  rw [lines_cut (by decide), contentLines_cons, hkept, if_neg hne] at hline
  obtain rfl := Option.mem_some_iff.mp hline
  decide

theorem recoveryInstruction_frame {timestamp : Bytes}
    (hclock : ∀ c ∈ timestamp, isTrimmed c = false ∧ c ≠ quote) (ast : AST) (plan : RecoveryPlan)
    (originalPayload : Bytes) :
    generateRecoveryInstruction timestamp ast plan originalPayload =
      (HeaderLayout.flat (recoveryTokens_ne hclock ast.header.reqid)).frame
        (some (plannerLine ++ '\n'.toUInt8 :: recoveryBody plan originalPayload)) := by
  have hplanner : ascii "[PLANNER] act:repair GL:fix_and_resubmit TD:correct_syntax,validate_format\n" =
      plannerLine ++ ['\n'.toUInt8] := by decide
  have hnewline : ascii "\n" = ['\n'.toUInt8] := rfl
  rw [generateRecoveryInstruction, hplanner, hnewline, recoveryHeader_eq hclock]
  simp [HeaderLayout.frame, frameText, HeaderLayout.flat, HeaderLayout.laterLines, spaced]

theorem parse_recoveryInstruction {timestamp : Bytes}
    (hclock : ∀ c ∈ timestamp, isTrimmed c = false ∧ c ≠ quote) (ast : AST) (plan : RecoveryPlan)
    (originalPayload : Bytes) {maxSize : Nat}
    (hfits : (generateRecoveryInstruction timestamp ast plan originalPayload).length ≤ maxSize) :
    ∃ result, parse .tolerant maxSize
        (generateRecoveryInstruction timestamp ast plan originalPayload) = .ok result ∧
      result.header = recoveredHeader timestamp ast.header.reqid := by
  refine ⟨_, parse_tolerant _ _, ?_⟩
  have hframe := recoveryInstruction_frame hclock ast plan originalPayload
  have hview := @HeaderLayout.frameView_frame _
    (HeaderLayout.flat (recoveryTokens_ne hclock ast.header.reqid))
    (some (plannerLine ++ '\n'.toUInt8 :: recoveryBody plan originalPayload))
    (opensBody_planner (recoveryBody plan originalPayload))
  rw [← hframe] at hview
  have hheader := (readFrame_view hfits hview).1
  dsimp only at hheader ⊢
  rw [hheader, headerTokens_lineOf fun t ht => notMem_quote_recoveryTokens hclock ht,
    recoveryTokens_texts]
  have hhr : (recoveredHeader timestamp ast.header.reqid).hr = 0 := rfl
  exact (readHeader_headerWords (by rw [hhr]) (by rw [hhr]; decide)).1

/-- Nothing untrusted reaches the header of a recovery frame but the sanitized
request identifier. -/
theorem recovery_header_fixed {timestamp : Bytes}
    (hclock : ∀ c ∈ timestamp, isTrimmed c = false ∧ c ≠ quote) (ast : AST) (plan : RecoveryPlan)
    (originalPayload : Bytes) {maxSize : Nat}
    (hfits : (generateRecoveryInstruction timestamp ast plan originalPayload).length ≤ maxSize) :
    ∃ result s, parse .tolerant maxSize
        (generateRecoveryInstruction timestamp ast plan originalPayload) = .ok result ∧
      s ≠ [] ∧ s.length ≤ 64 ∧
      (∀ c ∈ s, isAlnum c = true ∨ c = '-'.toUInt8 ∨ c = '_'.toUInt8 ∨ c = '.'.toUInt8) ∧
      result.header = {
        ver := ascii "LLM-TOPv1"
        chk := ascii "sha256:recovery"
        agt := ascii "evaluator"
        uid := ascii "system"
        tim := timestamp
        reqid := s ++ ascii "_recovery"
        fallback := ascii "json"
        hr := 0 } ∧
      ∀ (ast' : AST) (plan' : RecoveryPlan) (originalPayload' : Bytes) (maxSize' : Nat) (result' : AST),
        sanitizeHeaderToken ast'.header.reqid = sanitizeHeaderToken ast.header.reqid →
        (generateRecoveryInstruction timestamp ast' plan' originalPayload').length ≤ maxSize' →
        parse .tolerant maxSize' (generateRecoveryInstruction timestamp ast' plan' originalPayload') =
          .ok result' → result'.header = result.header := by
  obtain ⟨result, hparse, hheader⟩ := parse_recoveryInstruction hclock ast plan originalPayload hfits
  refine ⟨result, sanitizeHeaderToken ast.header.reqid, hparse, sanitizeHeaderToken_ne_nil _,
    length_sanitizeHeaderToken _, ?_, hheader, ?_⟩
  · intro c hc
    have hsafe := isHeaderSafe_of_mem hc
    unfold isHeaderSafe at hsafe
    simpa [or_assoc] using hsafe
  · intro ast' plan' originalPayload' maxSize' result' hsame hfits' hparse'
    obtain ⟨other, hother, hheader'⟩ :=
      parse_recoveryInstruction hclock ast' plan' originalPayload' hfits'
    obtain rfl := Except.ok.inj (hother.symm.trans hparse')
    rw [hheader', hheader, recoveredHeader, hsame]
    rfl

/-- A request identifier that would be fields of its own. -/
def injectedRequest : AST where
  header := { reqid := ascii "x AGT:admin\nHR:1" }

def injectedPlan : RecoveryPlan where
  errorDetails := [ascii "HR:2\nAGT:b"]

theorem recovery_header_injected :
    let instruction := generateRecoveryInstruction (ascii "2026-01-01T00:00:00Z") injectedRequest
      injectedPlan []
    ∃ result s, parse .tolerant instruction.length instruction = .ok result ∧
      result.header.reqid = s ++ ascii "_recovery" ∧ result.header.agt = ascii "evaluator" ∧
      result.header.hr = 0 := by
  intro instruction
  obtain ⟨result, s, hparse, -, -, -, hheader, -⟩ := @recovery_header_fixed
    (ascii "2026-01-01T00:00:00Z") (by decide +kernel) injectedRequest injectedPlan []
    instruction.length (Nat.le_refl _)
  refine ⟨result, s, hparse, ?_, ?_, ?_⟩ <;> rw [hheader]

end LlmTop
