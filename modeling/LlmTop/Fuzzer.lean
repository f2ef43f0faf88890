import LlmTop.BinaryBounds
import LlmTop.Confinement
import LlmTop.Evaluator
import LlmTop.Rejection
import LlmTop.TokenMutation

/-!
# The fuzzer

`main` of the fuzzer over any source of random numbers: which of its checks can
ever fail.
-/
namespace LlmTop.Fuzzer
open Lib.Faults LLMTOPMiddleware

/-! ## Mutations -/

/-- `std::mt19937` behind `std::uniform_int_distribution`. -/
structure RandomSource where
  Gen : Type
  seeded : Nat → Gen
  draw : Gen → Nat → Nat → Nat × Gen
  drawn : ∀ gen {lo hi : Nat}, lo ≤ hi → lo ≤ (draw gen lo hi).1 ∧ (draw gen lo hi).1 ≤ hi

/-- `erase(pos, 1)`; `none` where a position is out of range, here and below. -/
def erase (s : Bytes) (pos : Nat) : Option Bytes :=
  if pos ≤ s.length then some (s.take pos ++ s.drop (pos + 1)) else none

def insert (s : Bytes) (pos : Nat) (word : Bytes) : Option Bytes :=
  if pos ≤ s.length then some (s.take pos ++ word ++ s.drop pos) else none

def substr (s : Bytes) (pos len : Nat) : Option Bytes :=
  if pos ≤ s.length then some ((s.drop pos).take len) else none

/-- `s[pos] = c`. -/
def store (s : Bytes) (pos : Nat) (c : UInt8) : Option Bytes :=
  if pos < s.length then some (s.set pos c) else none

def swapNext (s : Bytes) (pos : Nat) : Option Bytes := do
  let c ← s[pos]?
  let next ← s[pos + 1]?
  some ((s.set pos next).set (pos + 1) c)

section Mutations

variable (source : RandomSource)

/-- One mutation.  A swap at the last byte duplicates a segment, as an action of
4 does. -/
def mutate (payload : Bytes) (gen : source.Gen) : Option (Bytes × source.Gen) :=
  let (pos, gen) := source.draw gen 0 (payload.length - 1)
  let (action, gen) := source.draw gen 0 4
  if action = 0 then (erase payload pos).map (·, gen)
  else if action = 1 ∧ pos + 1 < payload.length then (swapNext payload pos).map (·, gen)
  else if action = 2 then
    let (c, gen) := source.draw gen 32 126
    (store payload pos (UInt8.ofNat c)).map (·, gen)
  else if action = 3 then
    let (c, gen) := source.draw gen 0 255
    (insert payload pos [UInt8.ofNat c]).map (·, gen)
  else
    let (len, gen) := source.draw gen 0 (payload.length - 1)
    (substr payload pos (min (len % 10 + 1) (payload.length - pos))).bind fun segment =>
      (insert payload pos segment).map (·, gen)

def mutateTimes : Nat → Bytes → source.Gen → Option Bytes
  | 0, payload, _ => some payload
  | count + 1, payload, gen =>
      if payload.isEmpty then some payload
      else (mutate source payload gen).bind fun (payload, gen) => mutateTimes count payload gen

def corruptPayload (payload : Bytes) (seed numMutations : Nat) : Option Bytes :=
  if payload.isEmpty then some payload
  else mutateTimes source numMutations payload (source.seeded seed)

end Mutations

/-! ## What is counted -/

structure Tally where
  iterations : Nat := 0
  crashes : Nat := 0
  fallbacks : Nat := 0

def Tally.total (tallies : List Tally) : Tally where
  iterations := (tallies.map Tally.iterations).sum
  crashes := (tallies.map Tally.crashes).sum
  fallbacks := (tallies.map Tally.fallbacks).sum

/-- One parse in tolerant mode. -/
def parseTally (payload : Bytes) : Tally :=
  match parse .tolerant defaultMaxSize payload with
  | .error _ => { iterations := 1, crashes := 1 }
  | .ok ast => { iterations := 1, fallbacks := if ast.diagnostic.isEmpty then 0 else 1 }

/-- `kTestSecret`. -/
def testSecret : Bytes := ascii "llm-top-test-secret-key-2026"

def validator : SimpleJWTValidator := SimpleJWTValidator.new testSecret [] []

/-- The payload part of `good_cap`. -/
def capPayload : Bytes :=
  base64urlEncode (payloadText (ascii "agent1") (ascii "execute:read:src/*") 9999999999 [] [])

def goodCap : Bytes :=
  createToken (hmacOf testSecret) (ascii "agent1") (ascii "execute:read:src/*") 9999999999 [] []

def wantedScope : Bytes := ascii "execute:read:src/main.cpp"

def middleware : LLMTOPMiddleware where
  jwtValidator := validator

/-- The frame whose mutations are evaluated. -/
def boundaryFrame : Bytes := stampChk (
  ascii "VER:LLM-TOPv1 CHK:sha256:0000 AGT:agent1 UID:u TIM:2026-07-18 REQID:rq1 FALLBACK:json\n" ++
    ascii "[EXEC] tgt:src/main.cpp:cap=" ++ goodCap ++ ascii " act:read\n" ++
    ascii "!read[path=src/main.cpp;cap=" ++ goodCap ++ ascii "]\n")

/-- The invariants that a plan breaks, the third once for every call. -/
def violations (plan : ExecutionPlan) : Nat :=
  (if plan.authorized && !plan.errorMessage.isEmpty then 1 else 0) +
    (if !plan.authorized && (!plan.approvedTools.isEmpty || !plan.approvedPointers.isEmpty)
      then 1 else 0) +
    plan.approvedTools.countP fun tool =>
      (ascii "../").isPrefixOf tool.resource || tool.resource == ascii ".."

def evaluateTally (clock : Clock) (corrupted : Bytes) : Tally :=
  match parse .tolerant defaultMaxSize corrupted with
  | .error _ => { iterations := 1, crashes := 1 }
  | .ok ast => { iterations := 1, crashes := violations (middleware.evaluate clock ast false).1 }

def tokenTally (now : Int) (token : Bytes) : Tally where
  iterations := 1
  crashes := if (validator.verify now token wantedScope).valid && token != goodCap then 1 else 0

/-- The loop over the statements, with its guard. -/
def decodeRest (data : Bytes) (pos : Nat) : Except Bytes Unit :=
  if pos < data.length then
    match BinaryEncoder.decodeStatement data pos with
    | .error what => .error what
    | .ok (_, next) => if next ≤ pos then .ok () else decodeRest data next
  else .ok ()
termination_by data.length - pos

def decodeAll (data : Bytes) : Except Bytes Unit := do
  let (_, pos) ← BinaryEncoder.decodeHeader data
  decodeRest data pos

/-- Malformed binary is reported, and expected to be. -/
def decodeTally (data : Bytes) : Tally :=
  match decodeAll data with
  | .error _ => { iterations := 1 }
  | .ok _ => { iterations := 1 }

/-! ## The program -/

/-- The header that most of the corpus shares. -/
def shortHeader : Bytes := ascii "VER:LLM-TOPv1 CHK:sha256:x AGT:a UID:u TIM:t REQID:r\n"

def testCorpus : List (Bytes × Bytes) :=
  [(ascii "Standard payload",
      ascii "VER:LLM-TOPv1 CHK:sha256:abcd1234 AGT:ci-agent-3 UID:ci-agent " ++
        ascii "TIM:2026-07-18T08:00:00Z REQID:rq-0001 FALLBACK:json HR:1\n" ++
        ascii "[RSH] tgt:src/auth.ts#L1-200:cap=eyJhb;ttl=2026-07-18T09:00:00Z act:refactor " ++
        ascii "GL:fix_multi_session TD:add_tests\n" ++
        ascii "!read[path=$P/src/auth.ts]\n"),
    (ascii "Empty payload", []),
    (ascii "Header only",
      ascii "VER:LLM-TOPv1 CHK:sha256:test AGT:agent UID:user TIM:2026-07-18 REQID:r1\n"),
    (ascii "Deeply nested quotes",
      shortHeader ++
        ascii "[CODER] ctx:\"nested \\\"quotes [inside] \\\\backslash\\\" end\" act:test\n" ++
        ascii "!run[script=\"build [release] \\\"env=prod\\\" done\";target=\"a;b;c\"]\n"),
    (ascii "Many tool calls",
      shortHeader ++ ascii "[EXEC] tgt:file act:run\n" ++
        ascii "!read[path=a]\n!write[path=b;content=c]\n!exec[cmd=d]\n" ++
        ascii "!compile[src=e;out=f]\n!test[suite=g]\n"),
    (ascii "Unicode-like content",
      shortHeader ++ ascii "[CODER] tgt:src/\xc3\xa9tude.cpp act:refactor GL:fix_\xc3\xbc\n"),
    (ascii "Very long value",
      shortHeader ++ ascii "[CODER] tgt:" ++ List.replicate 2000 'A'.toUInt8 ++ ascii " act:test\n"),
    (ascii "Only special characters", ascii "!@#$%^&*()[]\x7b\x7d|\\;:'\",.<>?/`~\n"),
    (ascii "Multiple role sections",
      shortHeader ++ ascii "[PLANNER] GL:plan TD:items\n" ++ ascii "[CODER] tgt:a act:b GL:c\n" ++
        ascii "[EXEC] tgt:d act:e\n" ++ ascii "[READ] tgt:f\n"),
    (ascii "Malformed header fields",
      ascii "VER CHK AGT UID TIM REQID FALLBACK HR\n" ++ ascii "[TEST] act:test\n")]

def edgeCases : List Bytes :=
  [[], ascii "\n", ascii "\n\n\n", ascii "VER:LLM-TOPv1\n", List.replicate 10000 'A'.toUInt8,
    List.replicate 100 0, ascii "![]\n", ascii "!tool_with_no_brackets>method\n", ascii "[]\n",
    ascii "[ROLE\n", ascii "!run[key=\"unclosed\n"]

/-- A message of the binary encoder, whose mutations are decoded. -/
def blob : Bytes :=
  BinaryEncoder.encodeHeader (ascii "LLM-TOPv1") (ascii "sha256:abcd") (ascii "agent") (ascii "uid")
      (ascii "2026-07-18") (ascii "rq1") (ascii "json") 1 ++
    BinaryEncoder.encodeStatement (ascii "CODER")
      ((OrderedMap.empty.set (ascii "tgt") (ascii "src/main.cpp")).set (ascii "act") (ascii "refactor")) []

/-- Every fifth message is cut. -/
def truncated (i : Nat) (data : Bytes) : Bytes :=
  if i % 5 = 0 ∧ 8 < data.length then data.take (data.length - i % 7 - 1) else data

/-- What the clock shows to the evaluations and to the verifications. -/
structure Readings where
  evaluate : Nat → Clock
  verify : Nat → Int

def okText (t : Tally) (failed : Bytes) : Bytes := if t.crashes = 0 then ascii "OK" else failed

def baseLine (base : Bytes × Tally) : Bytes :=
  ascii "  Fuzzing: " ++ base.1 ++ ascii "... " ++ okText base.2 (ascii "CRASH!") ++ ascii " (" ++
    natDecimal base.2.fallbacks ++ ascii " fallbacks)\n"

def summary (t : Tally) : Bytes :=
  ascii "\nFuzzing Completed: " ++ natDecimal t.iterations ++ ascii " iterations.\n" ++
    ascii "Crashes (Unhandled Exceptions): " ++ natDecimal t.crashes ++ ascii "\n" ++
    ascii "Graceful Fallbacks (Diagnostics Emitted): " ++ natDecimal t.fallbacks ++ ascii "\n" ++
    if t.crashes = 0 then ascii "[PASS] Fuzzing passed. No segfaults or unhandled exceptions.\n"
    else ascii "[FAIL] Fuzzing detected brittle execution paths.\n"

structure Report where
  stdout : Bytes
  status : Nat

def progress (bases : List (Bytes × Tally)) (authorization binary : Tally) : Bytes :=
  ascii "Starting LLM-TOP Parser Fuzzing (Enhanced)...\n" ++ bases.flatMap baseLine ++
    ascii "  Testing edge cases... OK\n" ++
    ascii "  Fuzzing middleware + JWT decode... " ++ okText authorization (ascii "FAILED") ++
    ascii "\n  Fuzzing binary decoder... " ++ okText binary (ascii "FAILED") ++ ascii "\n"

def reportOn (bases : List (Bytes × Tally)) (edges authorization binary : Tally) : Report :=
  let all := Tally.total (bases.map Prod.snd ++ [edges, authorization, binary])
  { stdout := progress bases authorization binary ++ summary all
    status := if all.crashes = 0 then 0 else 1 }

section Program

variable (source : RandomSource)

def baseTally (base : Bytes) : Option Tally := do
  let tallies ← (List.range 200).mapM fun i =>
    (corruptPayload source base i (1 + i % 20)).map parseTally
  some (Tally.total tallies)

def boundaryTallies (readings : Readings) : Option (List Tally) :=
  (List.range 400).mapM fun i =>
    (corruptPayload source boundaryFrame (i + 9000) (1 + i % 12)).map
      (evaluateTally (readings.evaluate i))

def tokenTallies (readings : Readings) : Option (List Tally) :=
  (List.range 400).mapM fun i =>
    (corruptPayload source goodCap (i + 4000) (1 + i % 8)).map (tokenTally (readings.verify i))

/-- `mutated[pos_dis(gen)] = byte_dis(gen)`: the byte is drawn first. -/
def mutateBytes : Nat → Bytes → source.Gen → Option (Bytes × source.Gen)
  | 0, data, gen => some (data, gen)
  | count + 1, data, gen =>
      let byte := source.draw gen 0 255
      let pos := source.draw byte.2 0 (blob.length - 1)
      (store data pos.1 (UInt8.ofNat byte.1)).bind fun data => mutateBytes count data pos.2

/-- One generator runs through all of them. -/
def decodeTallies : List Nat → source.Gen → Option (List Tally)
  | [], _ => some []
  | i :: rest, gen => do
      let (mutated, gen) ← mutateBytes source (1 + i % 10) blob gen
      let tallies ← decodeTallies rest gen
      some (decodeTally (truncated i mutated) :: tallies)

def main (readings : Readings) : Option Report := do
  let bases ← testCorpus.mapM fun base => (baseTally source base.2).map (base.1, ·)
  let edges := Tally.total (edgeCases.map parseTally)
  let boundary ← boundaryTallies source readings
  let tokens ← tokenTallies source readings
  let decodes ← decodeTallies source (List.range 400) (source.seeded 1234)
  some (reportOn bases edges (Tally.total (boundary ++ tokens)) (Tally.total decodes))

end Program

/-! ## No mutation is out of range -/

section InRange

variable {s : Bytes} {pos : Nat}

theorem store_exists (h : pos < s.length) (c : UInt8) : store s pos c = some (s.set pos c) := if_pos h

theorem swapNext_exists (h : pos + 1 < s.length) : ∃ swapped, swapNext s pos = some swapped := by
  have hpos : pos < s.length := Nat.lt_of_succ_lt h
  unfold swapNext
  rw [List.getElem?_eq_getElem hpos, List.getElem?_eq_getElem h]
  exact ⟨_, rfl⟩

variable (source : RandomSource)

theorem mutate_exists {payload : Bytes} (hne : payload ≠ []) (gen : source.Gen) :
    ∃ mutated, mutate source payload gen = some mutated := by
  have hdrawn := (source.drawn gen (Nat.zero_le (payload.length - 1))).2
  unfold mutate
  generalize source.draw gen 0 (payload.length - 1) = drawn at hdrawn ⊢
  obtain ⟨pos, gen⟩ := drawn
  have hpos : pos < payload.length := Nat.lt_of_le_pred (List.length_pos_iff.mpr hne) hdrawn
  generalize source.draw gen 0 4 = drawn
  obtain ⟨action, gen⟩ := drawn
  dsimp only
  split_ifs with hdelete hswap
  · rw [erase, if_pos hpos.le]
    exact ⟨_, rfl⟩
  · obtain ⟨swapped, hswapped⟩ := swapNext_exists hswap.2
    rw [hswapped]
    exact ⟨_, rfl⟩
  · rw [store_exists hpos]
    exact ⟨_, rfl⟩
  · rw [insert, if_pos hpos.le]
    exact ⟨_, rfl⟩
  · rw [substr, if_pos hpos.le, Option.bind_some, insert, if_pos hpos.le]
    exact ⟨_, rfl⟩

theorem mutateTimes_exists (count : Nat) (payload : Bytes) (gen : source.Gen) :
    ∃ corrupted, mutateTimes source count payload gen = some corrupted := by
  induction count generalizing payload gen with
  | zero => exact ⟨payload, rfl⟩
  | succ count ih =>
      unfold mutateTimes
      by_cases hnil : payload = []
      · exact ⟨payload, if_pos (List.isEmpty_iff.mpr hnil)⟩
      · obtain ⟨mutated, hmutate⟩ := mutate_exists source hnil gen
        rw [if_neg (mt List.isEmpty_iff.mp hnil), hmutate]
        exact ih mutated.1 mutated.2

theorem corruptPayload_exists (payload : Bytes) (seed numMutations : Nat) :
    ∃ corrupted, corruptPayload source payload seed numMutations = some corrupted := by
  unfold corruptPayload
  by_cases hnil : payload.isEmpty = true
  · exact ⟨payload, if_pos hnil⟩
  · rw [if_neg hnil]
    exact mutateTimes_exists source numMutations payload (source.seeded seed)

theorem blob_length_pos : 0 < blob.length := by
  unfold blob BinaryEncoder.encodeHeader
  simp only [List.length_append, List.length_singleton]
  omega

theorem mutateBytes_exists (count : Nat) {data : Bytes} (h : data.length = blob.length)
    (gen : source.Gen) : ∃ mutated, mutateBytes source count data gen = some mutated := by
  induction count generalizing data gen with
  | zero => exact ⟨_, rfl⟩
  | succ count ih =>
      have hdrawn := (source.drawn (source.draw gen 0 255).2 (Nat.zero_le (blob.length - 1))).2
      have hpos : (source.draw (source.draw gen 0 255).2 0 (blob.length - 1)).1 < data.length := by
        rw [h]
        exact Nat.lt_of_le_pred blob_length_pos hdrawn
      unfold mutateBytes
      dsimp only
      rw [store_exists hpos]
      exact ih (by rw [List.length_set, h]) _

end InRange

/-! ## What the checks can find -/

theorem Tally.iterations_append (tallies tallies' : List Tally) :
    (Tally.total (tallies ++ tallies')).iterations =
      (Tally.total tallies).iterations + (Tally.total tallies').iterations := by
  rw [Tally.total, List.map_append, List.sum_append]
  rfl

theorem Tally.iterations_triple (t t' t'' : Tally) :
    (Tally.total [t, t', t'']).iterations = t.iterations + (t'.iterations + (t''.iterations + 0)) := rfl

theorem Tally.total_crashes (tallies : List Tally) :
    (Tally.total tallies).crashes = 0 ↔ ∀ t ∈ tallies, t.crashes = 0 := by
  rw [Tally.total, List.sum_eq_zero_iff_forall_eq_nat, List.forall_mem_map]

theorem Tally.total_iterations {tallies : List Tally} (h : ∀ t ∈ tallies, t.iterations = 1) :
    (Tally.total tallies).iterations = tallies.length := by
  rw [Tally.total, List.map_congr_left h, List.map_const', List.sum_replicate]
  simp

theorem parseTally_clean (payload : Bytes) :
    (parseTally payload).iterations = 1 ∧ (parseTally payload).crashes = 0 := by
  rw [parseTally, parse_tolerant]
  exact ⟨rfl, rfl⟩

theorem decodeTally_clean (data : Bytes) :
    (decodeTally data).iterations = 1 ∧ (decodeTally data).crashes = 0 := by
  unfold decodeTally
  cases decodeAll data with
  | error _ => exact ⟨rfl, rfl⟩
  | ok _ => exact ⟨rfl, rfl⟩

section Plans

variable (m : LLMTOPMiddleware) (clock : Clock) (ast : AST) (acceptHealed : Bool)

theorem approved_tools_rooted :
    ∀ tool ∈ (m.evaluate clock ast acceptHealed).1.approvedTools,
      escapesRoot tool.resource = false := by
  obtain ⟨before, after, -, hadmitted, -, htools⟩ := m.evaluate_prefix clock ast acceptHealed
  rw [htools, List.forall_mem_map]
  intro call hcall
  obtain ⟨e, he, hsome⟩ := List.mem_filterMap.mp hcall
  obtain ⟨tick, htick⟩ := Lib.Guarded.exists_index_of_mem he 1
  cases e with
  | pointer field => contradiction
  | tool call' =>
      obtain rfl : call' = call := Option.some.inj hsome
      exact (hadmitted _ htick).1

/-- A rejected plan lists something exactly when the refusal comes late. -/
theorem rejected_lists_iff :
    ((m.evaluate clock ast acceptHealed).1.authorized = false →
        (m.evaluate clock ast acceptHealed).1.approvedPointers = [] ∧
          (m.evaluate clock ast acceptHealed).1.approvedTools = []) ↔
      ¬m.RefusedAfterApproval clock ast acceptHealed := by
  have houtcome := m.evaluate_outcome clock ast acceptHealed
  generalize (m.evaluate clock ast acceptHealed).1 = plan at houtcome
  cases houtcome with
  | gated hgates => exact ⟨fun _ h => hgates h.1, fun _ _ => ⟨rfl, rfl⟩⟩
  | @refused before after e message hgates hentries hbefore hrefused =>
      rw [refusedAfterApproval_of_refused hgates hentries hbefore hrefused, not_not]
      exact (forall_prop_of_true (Entry.recordAll_authorized before)).trans Entry.recordAll_eq_nil
  | unrecorded hgates hall hrecord =>
      rw [refusedAfterApproval_of_allAdmitted hgates hall, and_iff_left hrecord, not_not]
      exact (forall_prop_of_true (Entry.recordAll_authorized _)).trans Entry.recordAll_eq_nil
  | authorized hgates hall hrecord =>
      rw [refusedAfterApproval_of_allAdmitted hgates hall]
      exact ⟨fun _ h => h.2 hrecord, fun _ h => nomatch h⟩

/-- Of the three invariants only the second can break. -/
theorem violations_eq_zero_iff :
    violations (m.evaluate clock ast acceptHealed).1 = 0 ↔
      ¬m.RefusedAfterApproval clock ast acceptHealed := by
  have hrooted := approved_tools_rooted m clock ast acceptHealed
  have hsilent : (m.evaluate clock ast acceptHealed).1.authorized = true →
      (m.evaluate clock ast acceptHealed).1.errorMessage = [] := by
    intro h
    obtain ⟨-, hplan⟩ := plan_of_authorized h
    rw [hplan, Entry.recordAll_eq]
  rw [← rejected_lists_iff]
  generalize (m.evaluate clock ast acceptHealed).1 = plan at hrooted hsilent ⊢
  have hcalls : plan.approvedTools.countP (fun tool =>
      (ascii "../").isPrefixOf tool.resource || tool.resource == ascii "..") = 0 := by
    refine List.countP_eq_zero.mpr fun tool htool hescapes => ?_
    have hkept := hrooted tool htool
    unfold escapesRoot at hkept
    split_ifs at hkept with hclimbs
    simp only [Bool.or_eq_true, beq_iff_eq] at hescapes
    exact hclimbs hescapes.symm
  unfold violations
  rw [hcalls]
  cases hauthorized : plan.authorized with
  | true => simp [hsilent hauthorized]
  | false => simp [and_comm]

end Plans

/-! ## Altered tokens -/

/-- Another spelling of the signature behind the text that was signed. -/
def Respelled (token : Bytes) : Prop :=
  ∃ signature, token = tokenText tokenHeader capPayload signature ∧ token ≠ goodCap ∧
    Spells signature ((hmacOf testSecret).tag (tokenHeader ++ ascii "." ++ capPayload))

/-- The right code for a text that was never signed, with claims that pass. -/
def Forged (now : Int) (token : Bytes) : Prop :=
  ∃ header payload signature, splitParts token = some (header, payload, signature) ∧
    ¬(header = tokenHeader ∧ payload = capPayload) ∧ signature ≠ [] ∧
    extractStringClaim (base64urlDecode header) (ascii "alg") = ascii "HS256" ∧
    base64urlDecode signature = (hmacOf testSecret).tag (header ++ ascii "." ++ payload) ∧
    validator.Accepts now (readClaims (base64urlDecode payload)) wantedScope

theorem capPayload_claims :
    readClaims (base64urlDecode capPayload) =
      { sub := ascii "agent1", scope := ascii "execute:read:src/*", iss := [], aud := [],
        exp := 9999999999 } := by
  rw [capPayload, base64urlDecode_encode]
  exact readClaims_payloadText _ _ _ _ _ (by decide)

theorem accepts_cap (now : Int) :
    validator.Accepts now (readClaims (base64urlDecode capPayload)) wantedScope ↔ now ≤ 9999999999 := by
  have hcovers : Covers (ascii "execute:read:src/*") wantedScope := Or.inr (by decide +kernel)
  rw [capPayload_claims]
  exact ⟨And.left, fun h => ⟨h, Or.inl rfl, Or.inl rfl, Or.inr hcovers⟩⟩

theorem alg_verifier {alg : Bytes} {verifier : Verifier} :
    validator.verifiers alg = some verifier ↔
      alg = ascii "HS256" ∧ verifier = macVerifier (hmacOf testSecret) := by
  rw [macVerifier_hmacOf]
  show (if alg = ascii "HS256" then some (hs256Verifier testSecret) else none) = some verifier ↔ _
  split_ifs with halg
  · rw [and_iff_right halg, Option.some.injEq, eq_comm]
  · exact iff_of_false (by simp) fun h => halg h.1

/-- Behind the header and the payload that were signed: only a respelled signature. -/
theorem verify_respelled {now : Int} {token : Bytes} (hne : token ≠ goodCap) {signature : Bytes}
    (htoken : token = tokenText tokenHeader capPayload signature) :
    (validator.verify now token wantedScope).valid = true ↔ Respelled token ∧ now ≤ 9999999999 := by
  have halg := alg_verifier.mpr ⟨alg_tokenHeader, rfl⟩
  have hpayload : '.'.toUInt8 ∉ capPayload := dot_not_mem_encode _
  rw [htoken, SimpleJWTValidator.verify_tail wantedScope halg (dot_not_mem_encode _) hpayload,
    accepts_cap, ← htoken]
  refine and_congr_left fun _ => ⟨fun h => ⟨signature, htoken, hne, h⟩, ?_⟩
  rintro ⟨signature', htoken', -, h⟩
  rw [htoken] at htoken'
  rwa [List.append_cancel_left htoken']

theorem verify_altered {now : Int} {token : Bytes} (hne : token ≠ goodCap) :
    (validator.verify now token wantedScope).valid = true ↔
      (Respelled token ∧ now ≤ 9999999999) ∨ Forged now token := by
  constructor
  · intro h
    obtain ⟨claim, hvouches, hscope⟩ := SimpleJWTValidator.verify_valid.mp h
    obtain ⟨header, payload, signature, verifier, hparts, hsignature, hverifier, hmac, hclaim⟩ :=
      hvouches.parts
    obtain ⟨halg, rfl⟩ := alg_verifier.mp hverifier
    by_cases hsigned : header = tokenHeader ∧ payload = capPayload
    · obtain ⟨rfl, rfl⟩ := hsigned
      exact Or.inl ((verify_respelled hne (splitParts_eq_some hparts).1).mp h)
    · rw [hclaim] at hvouches hscope
      exact Or.inr ⟨header, payload, signature, hparts, hsigned, hsignature, halg,
        macVerifier_iff.mp hmac, hvouches.alive, hvouches.issuer, hvouches.audience, hscope⟩
  · rintro (⟨hrespelled, halive⟩ | hforged)
    · have ⟨signature, htoken, _⟩ := hrespelled
      exact (verify_respelled hne htoken).mpr ⟨hrespelled, halive⟩
    · obtain ⟨header, payload, signature, hparts, -, hsignature, halg, hmac, halive, hissuer,
        haudience, hscope⟩ := hforged
      exact SimpleJWTValidator.verify_valid.mpr ⟨_, ⟨⟨header, payload, signature, _, hparts, hsignature,
        alg_verifier.mpr ⟨halg, rfl⟩, macVerifier_iff.mpr hmac, rfl⟩, halive, hissuer, haudience⟩, hscope⟩

/-! ## The verdict -/

theorem goodCap_parts :
    ∃ signature, splitParts goodCap = some (tokenHeader, capPayload, signature) :=
  ⟨_, splitParts_createToken _ _ _ _ _ _⟩

theorem tokenTally_clean (now : Int) (token : Bytes) :
    (tokenTally now token).crashes = 0 ↔
      ¬((Respelled token ∧ now ≤ 9999999999) ∨ Forged now token) := by
  unfold tokenTally
  by_cases hsame : token = goodCap
  · refine iff_of_true (if_neg (by simp [hsame])) ?_
    rintro (⟨⟨-, -, hne, -⟩, -⟩ | ⟨header, payload, signature, hparts, hsigned, -⟩)
    · exact hne hsame
    · obtain ⟨signature', hparts'⟩ := goodCap_parts
      rw [hsame, hparts'] at hparts
      cases hparts
      exact hsigned ⟨rfl, rfl⟩
  · rw [← verify_altered hsame]
    simp [hsame]

/-- Counting the crashes of independent samples. -/
theorem sampled {f : Nat → Option Tally} {P : Nat → Prop} (count : Nat)
    (h : ∀ i, ∃ t, f i = some t ∧ t.iterations = 1 ∧ (t.crashes = 0 ↔ ¬P i)) :
    ∃ tallies, (List.range count).mapM f = some tallies ∧
      (Tally.total tallies).iterations = count ∧
      ((Tally.total tallies).crashes = 0 ↔ ∀ i < count, ¬P i) := by
  choose g hg using h
  have hmap : (List.range count).mapM f = some ((List.range count).map g) := by
    rw [funext fun i => (hg i).1]
    exact List.mapM_pure
  refine ⟨_, hmap, ?_, ?_⟩
  · rw [Tally.total_iterations (List.forall_mem_map.mpr fun i _ => (hg i).2.1), List.length_map,
      List.length_range]
  · rw [Tally.total_crashes, List.forall_mem_map]
    exact forall_congr' fun i => imp_congr List.mem_range (hg i).2.2

section Verdict

variable (source : RandomSource) (readings : Readings)

/-- The mutated frame is refused after something in it was approved. -/
def ListsRefused (i : Nat) : Prop :=
  ∃ corrupted ast, corruptPayload source boundaryFrame (i + 9000) (1 + i % 12) = some corrupted ∧
    parse .tolerant defaultMaxSize corrupted = .ok ast ∧
    middleware.RefusedAfterApproval (readings.evaluate i) ast false

/-- The mutated token spells its signature in another way, or is a forgery. -/
def TakesToken (i : Nat) : Prop :=
  ∃ token, corruptPayload source goodCap (i + 4000) (1 + i % 8) = some token ∧
    ((Respelled token ∧ readings.verify i ≤ 9999999999) ∨ Forged (readings.verify i) token)

theorem baseTally_clean (base : Bytes) :
    ∃ t, baseTally source base = some t ∧ t.iterations = 200 ∧ t.crashes = 0 := by
  have hsamples : ∀ i, ∃ t, (corruptPayload source base i (1 + i % 20)).map parseTally = some t ∧
      t.iterations = 1 ∧ (t.crashes = 0 ↔ ¬False) := by
    intro i
    obtain ⟨corrupted, hcorrupted⟩ := corruptPayload_exists source base i (1 + i % 20)
    obtain ⟨hone, hnone⟩ := parseTally_clean corrupted
    rw [hcorrupted]
    exact ⟨parseTally corrupted, rfl, hone, iff_of_true hnone id⟩
  obtain ⟨tallies, hmap, hiterations, hcrashes⟩ := @sampled _ (fun _ => False) 200 hsamples
  refine ⟨Tally.total tallies, ?_, hiterations, hcrashes.mpr fun _ _ => id⟩
  unfold baseTally
  rw [hmap]
  rfl

theorem boundaryTallies_clean :
    ∃ tallies, boundaryTallies source readings = some tallies ∧
      (Tally.total tallies).iterations = 400 ∧
      ((Tally.total tallies).crashes = 0 ↔ ∀ i < 400, ¬ListsRefused source readings i) := by
  refine sampled 400 fun i => ?_
  obtain ⟨corrupted, hcorrupted⟩ :=
    corruptPayload_exists source boundaryFrame (i + 9000) (1 + i % 12)
  have hparse := parse_tolerant defaultMaxSize corrupted
  rw [hcorrupted]
  refine ⟨evaluateTally (readings.evaluate i) corrupted, rfl, ?_, ?_⟩
  · rw [evaluateTally, hparse]
  · rw [evaluateTally, hparse]
    dsimp only
    rw [violations_eq_zero_iff, not_iff_not]
    constructor
    · exact fun h => ⟨corrupted, _, hcorrupted, hparse, h⟩
    · rintro ⟨corrupted', ast, hcorrupted', hparse', h⟩
      obtain rfl := Option.some.inj (hcorrupted.symm.trans hcorrupted')
      obtain rfl := Except.ok.inj (hparse.symm.trans hparse')
      exact h

theorem tokenTallies_clean :
    ∃ tallies, tokenTallies source readings = some tallies ∧
      (Tally.total tallies).iterations = 400 ∧
      ((Tally.total tallies).crashes = 0 ↔ ∀ i < 400, ¬TakesToken source readings i) := by
  refine sampled 400 fun i => ?_
  obtain ⟨token, htoken⟩ := corruptPayload_exists source goodCap (i + 4000) (1 + i % 8)
  rw [htoken]
  refine ⟨tokenTally (readings.verify i) token, rfl, rfl, ?_⟩
  rw [tokenTally_clean, not_iff_not]
  constructor
  · exact fun h => ⟨token, htoken, h⟩
  · rintro ⟨token', htoken', h⟩
    obtain rfl := Option.some.inj (htoken.symm.trans htoken')
    exact h

theorem decodeTallies_clean (rounds : List Nat) (gen : source.Gen) :
    ∃ tallies, decodeTallies source rounds gen = some tallies ∧ tallies.length = rounds.length ∧
      ∀ t ∈ tallies, t.iterations = 1 ∧ t.crashes = 0 := by
  induction rounds generalizing gen with
  | nil => exact ⟨[], rfl, rfl, List.forall_mem_nil _⟩
  | cons i rest ih =>
      obtain ⟨⟨mutated, gen'⟩, hmutated⟩ := mutateBytes_exists source (1 + i % 10) rfl gen
      obtain ⟨tallies, hrest, hlength, hclean⟩ := ih gen'
      refine ⟨decodeTally (truncated i mutated) :: tallies, ?_, by rw [List.length_cons, hlength,
        List.length_cons], List.forall_mem_cons.mpr ⟨decodeTally_clean _, hclean⟩⟩
      unfold decodeTallies
      rw [hmutated]
      dsimp only [bind, Option.bind]
      rw [hrest]

theorem bases_clean :
    ∃ bases, testCorpus.mapM (fun base => (baseTally source base.2).map (base.1, ·)) = some bases ∧
      (Tally.total (bases.map Prod.snd)).iterations = 2000 ∧
      ∀ t ∈ bases.map Prod.snd, t.crashes = 0 := by
  choose tally htally using baseTally_clean source
  have hmap : testCorpus.mapM (fun base => (baseTally source base.2).map (base.1, ·)) =
      some (testCorpus.map fun base => (base.1, tally base.2)) := by
    simp only [(htally _).1]
    exact List.mapM_pure
  have htallies : (testCorpus.map fun base => (base.1, tally base.2)).map Prod.snd =
      testCorpus.map fun base => tally base.2 := List.map_map ..
  refine ⟨_, hmap, ?_, ?_⟩
  · rw [htallies, Tally.total, List.map_map]
    have hcount : Tally.iterations ∘ (fun base : Bytes × Bytes => tally base.2) = fun _ => 200 :=
      funext fun base => (htally base.2).2.1
    rw [hcount]
    rfl
  · rw [htallies, List.forall_mem_map]
    exact fun base _ => (htally base.2).2.2

/-- The program never aborts, counts 3211 iterations, and fails only on a plan
that was refused late or on a token that is not the minted one and yet signed. -/
theorem main_verdict :
    ∃ front all, main source readings =
        some ⟨front ++ summary all, if all.crashes = 0 then 0 else 1⟩ ∧
      all.iterations = 3211 ∧
      (all.crashes = 0 ↔
        ∀ i < 400, ¬ListsRefused source readings i ∧ ¬TakesToken source readings i) := by
  obtain ⟨bases, hbases, hbasesCount, hbasesClean⟩ := bases_clean source
  obtain ⟨boundary, hboundary, hboundaryCount, hboundaryClean⟩ := boundaryTallies_clean source readings
  obtain ⟨tokens, htokens, htokensCount, htokensClean⟩ := tokenTallies_clean source readings
  obtain ⟨decodes, hdecodes, hdecodesCount, hdecodesClean⟩ :=
    decodeTallies_clean source (List.range 400) (source.seeded 1234)
  have hmain : main source readings = some (reportOn bases (Tally.total (edgeCases.map parseTally))
      (Tally.total (boundary ++ tokens)) (Tally.total decodes)) := by
    unfold main
    rw [hbases, hboundary, htokens, hdecodes]
    rfl
  have hedges : (Tally.total (edgeCases.map parseTally)).iterations = 11 :=
    Tally.total_iterations (List.forall_mem_map.mpr fun payload _ => (parseTally_clean payload).1)
  have hedgesClean : (Tally.total (edgeCases.map parseTally)).crashes = 0 :=
    (Tally.total_crashes _).mpr (List.forall_mem_map.mpr fun payload _ => (parseTally_clean payload).2)
  have hbinary : (Tally.total decodes).iterations = 400 := by
    rw [Tally.total_iterations fun t ht => (hdecodesClean t ht).1, hdecodesCount, List.length_range]
  have hbinaryClean : (Tally.total decodes).crashes = 0 :=
    (Tally.total_crashes _).mpr fun t ht => (hdecodesClean t ht).2
  refine ⟨_, _, hmain, ?_, ?_⟩
  · rw [Tally.iterations_append, hbasesCount, Tally.iterations_triple, hedges, hbinary,
      Tally.iterations_append, hboundaryCount, htokensCount]
  · rw [Tally.total_crashes, List.forall_mem_append, and_iff_right hbasesClean, List.forall_mem_cons,
      and_iff_right hedgesClean, List.forall_mem_cons, List.forall_mem_singleton,
      and_iff_left hbinaryClean, Tally.total_crashes, List.forall_mem_append, ← Tally.total_crashes,
      ← Tally.total_crashes, hboundaryClean, htokensClean, ← forall₂_and]

end Verdict

/-- A linear congruential generator. -/
def congruential : RandomSource where
  Gen := Nat
  seeded seed := seed
  draw gen lo hi := (lo + gen % (hi - lo + 1), (1103515245 * gen + 12345) % 2 ^ 31)
  drawn gen lo hi hle := by
    have hlt := Nat.mod_lt gen (show 0 < hi - lo + 1 by omega)
    exact ⟨Nat.le_add_right _ _, by omega⟩

theorem main_verdict_congruential :
    let readings : Readings := ⟨fun _ _ => 0, fun _ => 0⟩
    ∃ front all, main congruential readings =
        some ⟨front ++ summary all, if all.crashes = 0 then 0 else 1⟩ ∧
      all.iterations = 3211 ∧
      (all.crashes = 0 ↔ ∀ i < 400, ¬ListsRefused congruential readings i ∧
        ¬TakesToken congruential readings i) :=
  main_verdict congruential ⟨fun _ _ => 0, fun _ => 0⟩

end LlmTop.Fuzzer
