import LlmTop.JsonOutput

/-!
# Fallback recovery

`FallbackRecoveryManager`: what it counts in a parsed frame, the instruction it
writes for the planner and the JSON document it falls back to.  Both say the time
that the clock gave.
-/
namespace LlmTop

/-! ## Time -/

/-- The fields of `std::tm` that are printed; the year counts from year 0. -/
structure BrokenDownTime where
  year : Int
  month : Nat
  day : Nat
  hour : Nat
  minute : Nat
  second : Nat

/-- A number in two digits. -/
def twoDigits (n : Nat) : Bytes := if n < 10 then ascii "0" ++ natDecimal n else natDecimal n

/-- `get_iso_timestamp`, with the format `%FT%TZ`. -/
def getIsoTimestamp (tm : BrokenDownTime) : Bytes :=
  toDecimal tm.year ++ ascii "-" ++ twoDigits tm.month ++ ascii "-" ++ twoDigits tm.day ++
    ascii "T" ++ twoDigits tm.hour ++ ascii ":" ++ twoDigits tm.minute ++ ascii ":" ++
    twoDigits tm.second ++ ascii "Z"

example : getIsoTimestamp ⟨2026, 1, 9, 23, 5, 0⟩ = ascii "2026-01-09T23:05:00Z" := by decide

inductive RecoveryAction where
  | reparseSuggested
  | completeFailure
  | noError
deriving DecidableEq, Repr

structure RecoveryPlan where
  action : RecoveryAction := .noError
  recoveryInstruction : Bytes := []
  fallbackJson : Bytes := []
  errorsFound : Int := 0
  statementsRecovered : Int := 0
  statementsTotal : Int := 0
  errorDetails : List Bytes := []

/-! ## The recovery instruction -/

def kMaxHeaderToken : Nat := 64

def isHeaderSafe (c : UInt8) : Bool :=
  isAlnum c || c == '-'.toUInt8 || c == '_'.toUInt8 || c == '.'.toUInt8

def sanitizeHeaderToken (s : Bytes) : Bytes :=
  let out := (s.take kMaxHeaderToken).map fun c => if isHeaderSafe c then c else '_'.toUInt8
  if out.isEmpty then ascii "unknown" else out

/-- `std::hex`. -/
def natHex (n : Nat) : Bytes :=
  if n = 0 then ascii "0"
  else (Nat.digits 16 n).reverse.map fun d => Sha256.hexDigits.getD d 0

/-- The loop of `compute_simple_hash`. -/
def djb2 (data : Bytes) : UInt32 :=
  data.foldl (fun hash c => ((hash <<< 5) + hash) + c.toUInt32) 5381

def computeSimpleHash (data : Bytes) : Bytes := natHex (djb2 data).toNat

example : computeSimpleHash (ascii "a") = ascii "2b606" := by decide

def recoveryHeader (timestamp reqid : Bytes) : Bytes :=
  ascii "VER:LLM-TOPv1 CHK:sha256:recovery AGT:evaluator UID:system TIM:" ++ timestamp ++
    ascii " REQID:" ++ sanitizeHeaderToken reqid ++ ascii "_recovery FALLBACK:json"

def errorLine (entry : Bytes × Nat) : Bytes :=
  ascii "  [" ++ natDecimal entry.2 ++ ascii "] " ++ entry.1 ++ ascii "\n"

def recoveryHints : Bytes :=
  ascii "\nRECOVERY_HINTS:\n" ++
    ascii "  1. Check for unclosed quotes or brackets in the payload\n" ++
    ascii "  2. Verify escape sequences (\\n, \\t, \\\\, \\\")\n" ++
    ascii "  3. Ensure all role declarations end with ]\n" ++
    ascii "  4. Keep values free of spaces: 'GL:fix the leak' splits into separate fields\n" ++
    ascii "  5. Re-validate the header (VER, CHK, AGT, UID, TIM, REQID)\n"

def recoveryBody (plan : RecoveryPlan) (originalPayload : Bytes) : Bytes :=
  ascii "ERROR_COUNT:" ++ toDecimal plan.errorsFound ++ ascii " " ++
    ascii "RECOVERED:" ++ toDecimal plan.statementsRecovered ++ ascii "/" ++
    toDecimal plan.statementsTotal ++ ascii "\n" ++
    ascii "ERRORS:\n" ++ plan.errorDetails.zipIdx.flatMap errorLine ++ recoveryHints ++
    ascii "\nORIGINAL_PAYLOAD_HASH:djb2:" ++ computeSimpleHash originalPayload ++ ascii "\n"

def generateRecoveryInstruction (timestamp : Bytes) (ast : AST) (plan : RecoveryPlan)
    (originalPayload : Bytes) : Bytes :=
  recoveryHeader timestamp ast.header.reqid ++ ascii "\n" ++
    ascii "[PLANNER] act:repair GL:fix_and_resubmit TD:correct_syntax,validate_format\n" ++
    recoveryBody plan originalPayload

/-! ## The fallback document -/

def RecoveryAction.status : RecoveryAction → Bytes
  | noError => ascii "no_error"
  | reparseSuggested => ascii "reparse_suggested"
  | completeFailure => ascii "complete_failure"

def recoveredText (stmt : Statement) : Bytes :=
  ascii "    \x7b\n" ++ memberLine "      " "role" (stringValue stmt.role) ++
    memberLine "      " "kvpairs" (mapText stmt.kvpairs) ++
    ascii "      " ++ memberText (ascii "tool_count") (natDecimal stmt.toolCalls.length) ++
    ascii "\n    \x7d"

def generateFallbackJson (timestamp : Bytes) (ast : AST) (plan : RecoveryPlan) : Bytes :=
  ascii "\x7b\n" ++ memberLine "  " "type" (ascii "\"FALLBACK\"") ++
    memberLine "  " "timestamp" (ascii "\"" ++ timestamp ++ ascii "\"") ++
    memberLine "  " "original_reqid" (stringValue ast.header.reqid) ++
    memberLine "  " "agent" (stringValue ast.header.agt) ++
    memberLine "  " "error_count" (toDecimal plan.errorsFound) ++
    memberLine "  " "recovery_status" (ascii "\"" ++ plan.action.status ++ ascii "\"") ++
    memberLine "  " "statements_recovered" (toDecimal plan.statementsRecovered) ++
    memberLine "  " "statements_total" (toDecimal plan.statementsTotal) ++
    memberLine "  " "diagnostic_messages"
      (ascii "[\n" ++ itemLines (plan.errorDetails.map fun detail => ascii "    " ++ stringValue detail) ++
        ascii "  ]") ++
    memberLine "  " "recovered_statements"
      (ascii "[\n" ++ itemLines (ast.statements.map recoveredText) ++ ascii "  ]") ++
    memberLine "  " "next_action" (ascii "\"Submit corrected payload with errors fixed\"") ++
    ascii "  " ++ memberText (ascii "support_link")
      (ascii "\"https://example.com/docs/fallback-recovery\"") ++
    ascii "\n\x7d\n"

/-! ## The analysis -/

def diagnosticSeparator : Bytes := ascii " | "

/-- The `find` loop over the joined diagnostics; each match is stepped over whole. -/
def countSeparators : Bytes → Nat
  | a :: b :: c :: rest =>
      if [a, b, c] = diagnosticSeparator then countSeparators rest + 1
      else countSeparators (b :: c :: rest)
  | _ => 0

/-- The statement has a role, a key or a tool call. -/
def isRecovered (stmt : Statement) : Bool :=
  !stmt.role.isEmpty || !stmt.kvpairs.data.isEmpty || !stmt.toolCalls.isEmpty

def analyzeAndRecover (timestamp : Bytes) (ast : AST) (originalPayload : Bytes) : RecoveryPlan :=
  let plan : RecoveryPlan :=
    if ast.diagnostic.isEmpty then {}
    else { errorDetails := [ast.diagnostic], errorsFound := 1 + countSeparators ast.diagnostic }
  let plan := { plan with
    statementsTotal := ast.statements.length
    statementsRecovered := ast.statements.countP isRecovered }
  if plan.errorsFound = 0 then { plan with action := .noError }
  else if plan.statementsRecovered = 0 then
    let plan := { plan with action := .completeFailure }
    { plan with fallbackJson := generateFallbackJson timestamp ast plan }
  else
    let plan := { plan with action := .reparseSuggested }
    { plan with
      recoveryInstruction := generateRecoveryInstruction timestamp ast plan originalPayload }

example : countSeparators (ascii "err one | err two | err three") = 2 := by decide

end LlmTop
