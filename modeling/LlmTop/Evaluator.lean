import LlmTop.Chk
import LlmTop.JsonTexts
import LlmTop.ParserModes
import LlmTop.RanksFile
import LlmTop.SchemaErrors

/-!
# The measuring program

`main` of `llmtop_eval`: a payload from a file or from the standard input, its
size and token count, whether it validates, and the report as a line of JSON.
-/
namespace LlmTop
open Lib Lib.Faults

/-- What a run of a program leaves. -/
structure Outcome where
  stdout : Bytes := []
  stderr : Bytes := []
  status : Nat := 0

/-- `max_size` of a parser that is built without one. -/
def defaultMaxSize : Nat := 1024 * 1024

/-- What the parser writes to `std::cerr`. -/
def diagnosticLog (mode : Mode) (payload : Bytes) : Bytes :=
  match parseFrame defaultMaxSize payload mode [] with
  | .error _ => []
  | .ok (_, log) => log.flatMap fun fault => ascii "DIAGNOSTIC: " ++ fault.text ++ ascii "\n"

namespace LlmtopEval

/-! ## The program -/

/-- What the program finds around it. -/
structure Host where
  /-- `CL100K_RANKS_PATH`. -/
  ranksPath : Bytes
  /-- What is read of the files that can be opened. -/
  file : Bytes → Option Bytes
  stdin : Bytes
  /-- `what()` of the exceptions of `std::stoi`. -/
  stoiWhat : Bytes

structure Options where
  path : Bytes := []
  ranksPath : Bytes
  validate : Bool := false
  tolerant : Bool := false
  stamp : Bool := false

def usageLines : List String :=
  ["Usage: llmtop_eval [options] [file]",
    "",
    "Reads a payload from <file>, or from stdin when <file> is '-' or omitted,",
    "and prints one line of JSON describing it.",
    "",
    "Options:",
    "  --stamp           Write the payload back out with its CHK header set to",
    "                    the correct digest, and exit. This is the supported way",
    "                    for a host to make an LLM-generated frame satisfy the",
    "                    middleware's integrity check. No JSON is printed.",
    "  --validate        Parse and schema-check the payload as LLM-TOP.",
    "                    Without this, only size and token count are reported.",
    "  --tolerant        With --validate, parse in TOLERANT mode (collect",
    "                    diagnostics and self-heal) instead of STRICT.",
    "  --ranks <path>    cl100k_base ranks file. Defaults to the path compiled in.",
    "  --help            Show this message.",
    "",
    "Output fields:",
    "  bytes             Payload size in bytes.",
    "  tokens            Real cl100k_base BPE token count.",
    "  validated         Whether --validate was requested.",
    "  valid             True only if the payload parsed and passed schema validation.",
    "  statements        Statements parsed (0 unless --validate).",
    "  healed            Statements the parser had to repair (--tolerant only).",
    "  errors            Validation error strings.",
    "  diagnostic        Parser diagnostic text, if any.",
    "",
    "Exit status: 0 if the measurement was taken, 1 if it could not be."]

/-- `print_usage`. -/
def usage : Bytes := usageLines.flatMap fun line => ascii line ++ ascii "\n"

def failure (what : Bytes) : Outcome where
  stderr := ascii "llmtop_eval: " ++ what ++ ascii "\n"
  status := 1

def unknownOption (arg : Bytes) : Bytes := ascii "unknown option '" ++ arg ++ ascii "'"

def extraArgument (arg : Bytes) : Bytes := ascii "unexpected extra argument '" ++ arg ++ ascii "'"

def cannotOpen (path : Bytes) : Bytes := ascii "cannot open '" ++ path ++ ascii "'"

/-- The loop over `argv`; an error is how the program ends there. -/
def readArguments (opts : Options) : List Bytes → Except Outcome Options
  | [] => .ok opts
  | arg :: rest =>
      if arg = ascii "--help" ∨ arg = ascii "-h" then .error { stdout := usage }
      else if arg = ascii "--stamp" then readArguments { opts with stamp := true } rest
      else if arg = ascii "--validate" then readArguments { opts with validate := true } rest
      else if arg = ascii "--tolerant" then readArguments { opts with tolerant := true } rest
      else if arg = ascii "--ranks" then
        match rest with
        | ranksPath :: rest => readArguments { opts with ranksPath } rest
        -- the last argument: it falls through to the unknown options
        | [] => .error (failure (unknownOption arg))
      else if arg.head? = some '-'.toUInt8 ∧ arg ≠ ascii "-" then
        .error (failure (unknownOption arg))
      else if opts.path.isEmpty then readArguments { opts with path := arg } rest
      else .error (failure (extraArgument arg))

def readPayload (host : Host) (path : Bytes) : Except Outcome Bytes :=
  if path = [] ∨ path = ascii "-" then .ok host.stdin
  else
    match host.file path with
    | none => .error (failure (cannotOpen path))
    | some text => .ok text

/-- The tokenizer is built and counts; an error is `what()`. -/
def countTokens (host : Host) (ranksPath payload : Bytes) : Except Bytes Nat :=
  match Cl100kTokenizer.load ranksPath (host.file ranksPath) with
  | .error (.runtime what) => .error what
  | .error .badRank => .error host.stoiWhat
  | .ok ranks => (Cl100kTokenizer.encode ranks payload).map List.length

/-- What is reported about a payload beside its size. -/
structure Verdict where
  valid : Bool := false
  statements : Nat := 0
  healed : Nat := 0
  errors : List Bytes := []
  diagnostic : Bytes := []

def modeOf (tolerant : Bool) : Mode := if tolerant then .tolerant else .strict

/-- The verdict on what the parser returned. -/
def verdictOn (ast : AST) : Verdict :=
  let result := SchemaValidator.validate {} ast
  { valid := result.valid && ast.diagnostic.isEmpty
    statements := ast.statements.length
    healed := ast.healedDraft.length
    errors := result.errors
    diagnostic := ast.diagnostic }

/-- The `--validate` part. -/
def judge (tolerant : Bool) (payload : Bytes) : Verdict :=
  match parse (modeOf tolerant) defaultMaxSize payload with
  | .error what => { errors := [ascii "parse: " ++ what] }
  | .ok ast => verdictOn ast

structure Report where
  bytes : Nat
  tokens : Nat
  validated : Bool
  verdict : Verdict

def boolText (b : Bool) : Bytes := ascii (if b then "true" else "false")

def Report.text (r : Report) : Bytes :=
  ascii "\x7b" ++
    ascii "\"bytes\":" ++ natDecimal r.bytes ++
    ascii ",\"tokens\":" ++ natDecimal r.tokens ++
    ascii ",\"validated\":" ++ boolText r.validated ++
    ascii ",\"valid\":" ++ boolText r.verdict.valid ++
    ascii ",\"statements\":" ++ natDecimal r.verdict.statements ++
    ascii ",\"healed\":" ++ natDecimal r.verdict.healed ++
    ascii ",\"errors\":[" ++ (ascii ",").intercalate (r.verdict.errors.map stringValue) ++
    ascii "],\"diagnostic\":" ++ stringValue r.verdict.diagnostic ++ ascii "\x7d\n"

/-- What the options and the payload lead to. -/
def measure (host : Host) (opts : Options) (payload : Bytes) : Outcome :=
  if opts.stamp then { stdout := stampChk payload }
  else
    match countTokens host opts.ranksPath payload with
    | .error what => failure what
    | .ok tokens =>
        { stdout := Report.text ⟨payload.length, tokens, opts.validate,
            if opts.validate then judge opts.tolerant payload else {}⟩
          stderr := if opts.validate then diagnosticLog (modeOf opts.tolerant) payload else [] }

def run (host : Host) (args : List Bytes) : Except Outcome Outcome := do
  let opts ← readArguments { ranksPath := host.ranksPath } args
  let payload ← readPayload host opts.path
  .ok (measure host opts payload)

def main (host : Host) (args : List Bytes) : Outcome :=
  match run host args with
  | .error outcome => outcome
  | .ok outcome => outcome

/-! ## The report is read back -/

def Report.json (r : Report) : JsonReader.Value :=
  .object [(ascii "bytes", .number r.bytes 0), (ascii "tokens", .number r.tokens 0),
    (ascii "validated", .bool r.validated), (ascii "valid", .bool r.verdict.valid),
    (ascii "statements", .number r.verdict.statements 0),
    (ascii "healed", .number r.verdict.healed 0),
    (ascii "errors", .array (r.verdict.errors.map .string)),
    (ascii "diagnostic", .string r.verdict.diagnostic)]

/-- The members with the texts of their values. -/
def Report.fields (r : Report) : List Field :=
  [⟨"bytes", natDecimal r.bytes, .number r.bytes 0⟩,
    ⟨"tokens", natDecimal r.tokens, .number r.tokens 0⟩,
    ⟨"validated", boolText r.validated, .bool r.validated⟩,
    ⟨"valid", boolText r.verdict.valid, .bool r.verdict.valid⟩,
    ⟨"statements", natDecimal r.verdict.statements, .number r.verdict.statements 0⟩,
    ⟨"healed", natDecimal r.verdict.healed, .number r.verdict.healed 0⟩,
    ⟨"errors", ascii "[" ++ ((ascii ",").intercalate (r.verdict.errors.map stringValue) ++ ascii "]"),
      .array (r.verdict.errors.map .string)⟩,
    ⟨"diagnostic", stringValue r.verdict.diagnostic, .string r.verdict.diagnostic⟩]

/-- A member without a blank behind its colon. -/
def compactMember (f : Field) : Bytes := ascii "\"" ++ (ascii f.name ++ (ascii "\":" ++ f.text))

/-- The report without its newline. -/
def Report.line (r : Report) : Bytes :=
  ascii "\x7b" ++ ((ascii ",").intercalate (r.fields.map compactMember) ++ ascii "\x7d")

theorem Report.text_eq (r : Report) : r.text = r.line ++ ascii "\n" := by
  unfold text line fields
  simp only [List.map_cons, List.map_nil, List.intercalate_cons_cons, List.intercalate_singleton,
    compactMember, List.append_assoc]
  rfl

theorem reads_boolText (b : Bool) (depth : Nat) :
    JsonReader.Reads (JsonReader.value (depth + 1)) (boolText b) (.bool b) := by
  cases b with
  | true => exact JsonReader.reads_true depth
  | false => exact JsonReader.reads_false depth

theorem reads_errors (errors : List Bytes) (depth : Nat) :
    JsonReader.Reads (JsonReader.value (depth + 2))
      (ascii "[" ++ ((ascii ",").intercalate (errors.map stringValue) ++ ascii "]"))
      (.array (errors.map .string)) :=
  JsonReader.reads_array (JsonReader.body_intercalate fun error _ => reads_stringValue error depth)

/-- A member that is read back under its name. -/
structure ReadsField (depth : Nat) (f : Field) : Prop where
  plain : (ascii f.name).all isPlainByte = true
  reads : JsonReader.Reads (JsonReader.value depth) f.text f.value

theorem ReadsField.member {depth : Nat} {f : Field} (h : ReadsField depth f) :
    JsonReader.Reads (JsonReader.member (JsonReader.value depth)) (compactMember f) f.member := by
  have hmember := JsonReader.reads_member (spells_self h.plain) JsonReader.gap_nil
    JsonReader.gap_nil h.reads
  exact hmember

theorem plain_names : (ascii "errors").all isPlainByte = true ∧
    (ascii "diagnostic").all isPlainByte = true := by
  decide

theorem Report.readsFields (r : Report) (depth : Nat) : ∀ f ∈ r.fields, ReadsField (depth + 2) f := by
  have hnumber : ∀ {name : String} (n : Nat), (ascii name).all isPlainByte = true →
      ReadsField (depth + 2) ⟨name, natDecimal n, .number n 0⟩ :=
    fun n hname => ⟨hname, reads_natDecimal n (depth + 1)⟩
  have hbool : ∀ {name : String} (b : Bool), (ascii name).all isPlainByte = true →
      ReadsField (depth + 2) ⟨name, boolText b, .bool b⟩ :=
    fun b hname => ⟨hname, reads_boolText b (depth + 1)⟩
  unfold fields
  simp only [List.forall_mem_cons]
  refine ⟨hnumber _ ?_, hnumber _ ?_, hbool _ ?_, hbool _ ?_, hnumber _ ?_, hnumber _ ?_,
    ⟨plain_names.1, reads_errors _ depth⟩, ⟨plain_names.2, reads_stringValue _ (depth + 1)⟩,
    List.forall_mem_nil _⟩
  all_goals decide

theorem Report.read_text (r : Report) : JsonReader.read r.text = some r.json := by
  have hnewline : JsonReader.Gap (ascii "\n") := by decide
  have hlength : 3 ≤ ([] ++ (r.line ++ ascii "\n")).length := by
    have hopen : (ascii "\x7b").length = 1 := rfl
    have hclose : (ascii "\x7d").length = 1 := rfl
    have hend : (ascii "\n").length = 1 := rfl
    simp only [line, List.nil_append, List.length_append, hopen, hclose, hend]
    omega
  obtain ⟨depth, hdepth⟩ := Nat.exists_eq_add_of_le' hlength
  have hobject := JsonReader.reads_object
    (JsonReader.body_intercalate fun f hf => (r.readsFields depth f hf).member)
  have hreads : JsonReader.Reads (JsonReader.value (depth + 3)) r.line r.json := hobject
  rw [← hdepth] at hreads
  rw [r.text_eq]
  exact JsonReader.read_eq JsonReader.gap_nil hnewline hreads

/-! ## The report is one line -/

/-- Bytes that stay on a line of a terminal. -/
def Printed (text : Bytes) : Prop := ∀ c ∈ text, ¬ c < 0x20

instance (text : Bytes) : Decidable (Printed text) := List.decidableBAll _ text

theorem printed_append {text text' : Bytes} : Printed (text ++ text') ↔ Printed text ∧ Printed text' :=
  List.forall_mem_append

theorem printed_of_plain {text : Bytes} (h : text.all isPlainByte = true) : Printed text := by
  intro c hc
  have hplain := List.all_eq_true.mp h c hc
  unfold isPlainByte at hplain
  simp only [Bool.and_eq_true, Bool.not_eq_true', decide_eq_false_iff_not] at hplain
  exact hplain.2

theorem printed_natDecimal (n : Nat) : Printed (natDecimal n) :=
  printed_of_plain (List.all_eq_true.mpr fun _ hc => isPlainByte_natDecimal hc)

theorem printed_boolText (b : Bool) : Printed (boolText b) := by
  cases b <;> decide

theorem printed_stringValue (s : Bytes) : Printed (stringValue s) := by
  have hall := of_all_bytes (p := fun c => (escapeByte c).all fun d => !decide (d < 0x20))
    (by decide +kernel)
  have hquote : Printed (ascii "\"") := by decide
  refine printed_append.mpr ⟨printed_append.mpr ⟨hquote, fun d hd => ?_⟩, hquote⟩
  obtain ⟨c, -, hc⟩ := List.mem_flatMap.mp hd
  have hd := List.all_eq_true.mp (hall c) d hc
  exact of_decide_eq_false (Bool.not_eq_true' _ |>.mp hd)

theorem printed_intercalate {sep : Bytes} {texts : List Bytes} (hsep : Printed sep)
    (h : ∀ text ∈ texts, Printed text) : Printed (sep.intercalate texts) := by
  induction texts with
  | nil => exact List.forall_mem_nil _
  | cons text texts ih =>
      obtain ⟨htext, htexts⟩ := List.forall_mem_cons.mp h
      cases texts with
      | nil => rwa [List.intercalate_singleton]
      | cons next rest =>
          rw [List.intercalate_cons_cons]
          exact printed_append.mpr ⟨printed_append.mpr ⟨htext, hsep⟩, ih htexts⟩

theorem Report.printed_line (r : Report) : Printed r.line := by
  have hcomma : Printed (ascii ",") := by decide
  have herrors : Printed ((ascii ",").intercalate (r.verdict.errors.map stringValue)) :=
    printed_intercalate hcomma (List.forall_mem_map.mpr fun error _ => printed_stringValue error)
  have htexts : ∀ f ∈ r.fields, Printed f.text := by
    have harray := printed_append.mpr ⟨(by decide : Printed (ascii "[")),
      printed_append.mpr ⟨herrors, (by decide : Printed (ascii "]"))⟩⟩
    unfold fields
    simp only [List.forall_mem_cons]
    exact ⟨printed_natDecimal _, printed_natDecimal _, printed_boolText _, printed_boolText _,
      printed_natDecimal _, printed_natDecimal _, harray, printed_stringValue _,
      List.forall_mem_nil _⟩
  refine printed_append.mpr ⟨by decide, printed_append.mpr ⟨?_, by decide⟩⟩
  refine printed_intercalate hcomma (List.forall_mem_map.mpr fun f hf => ?_)
  have hname := printed_of_plain (r.readsFields 0 f hf).plain
  exact printed_append.mpr ⟨by decide, printed_append.mpr ⟨hname,
    printed_append.mpr ⟨by decide, htexts f hf⟩⟩⟩

/-! ## How the program ends -/

theorem readArguments_error {opts : Options} {args : List Bytes} {outcome : Outcome}
    (h : readArguments opts args = .error outcome) :
    outcome = { stdout := usage } ∨ ∃ what, outcome = failure what := by
  fun_induction readArguments opts args with
  | case1 => contradiction
  | case2 => exact Or.inl (Except.error.inj h).symm
  | case3 _ _ _ ih => exact ih h
  | case4 _ _ _ _ ih => exact ih h
  | case5 _ _ _ _ _ ih => exact ih h
  | case6 _ _ _ _ _ _ _ ih => exact ih h
  | case7 => exact Or.inr ⟨_, (Except.error.inj h).symm⟩
  | case8 => exact Or.inr ⟨_, (Except.error.inj h).symm⟩
  | case9 _ _ _ _ _ _ _ _ _ _ ih => exact ih h
  | case10 => exact Or.inr ⟨_, (Except.error.inj h).symm⟩

theorem readPayload_error {host : Host} {path : Bytes} {outcome : Outcome}
    (h : readPayload host path = .error outcome) : outcome = failure (cannotOpen path) := by
  unfold readPayload at h
  split at h
  · contradiction
  · split at h
    · exact (Except.error.inj h).symm
    · contradiction

/-- A diagnostic is in the report if one was logged. -/
theorem diagnosticLog_eq_nil (tolerant : Bool) (payload : Bytes) :
    diagnosticLog (modeOf tolerant) payload = [] ↔ (judge tolerant payload).diagnostic = [] := by
  unfold diagnosticLog judge parse
  cases parseFrame defaultMaxSize payload (modeOf tolerant) [] with
  | error fault => exact iff_of_true rfl rfl
  | ok read =>
      obtain ⟨ast, log⟩ := read
      have hline : ∀ fault : Fault, ascii "DIAGNOSTIC: " ++ fault.text ++ ascii "\n" ≠ [] := by
        intro fault
        simp [ascii]
      dsimp only [verdictOn]
      rw [diagnostic_eq_nil, List.flatMap_eq_nil_iff, List.eq_nil_iff_forall_not_mem]
      exact forall₂_congr fun fault _ => iff_of_false (hline fault) not_false

/-- The report of a payload under some options. -/
def reportOf (opts : Options) (payload : Bytes) (tokens : Nat) : Report :=
  ⟨payload.length, tokens, opts.validate, if opts.validate then judge opts.tolerant payload else {}⟩

/-- A measurement: the report in one line, and on `std::cerr` the parser's log. -/
structure Measured (host : Host) (opts : Options) (payload : Bytes) (outcome : Outcome) : Prop where
  status : outcome.status = 0
  report : ∃ tokens, countTokens host opts.ranksPath payload = .ok tokens ∧
    JsonReader.read outcome.stdout = some (reportOf opts payload tokens).json ∧
    (outcome.stderr = [] ↔ (reportOf opts payload tokens).verdict.diagnostic = [])
  line : ∃ line, outcome.stdout = line ++ ascii "\n" ∧ Printed line

theorem measure_measured {host : Host} {opts : Options} {payload : Bytes} {tokens : Nat}
    (hstamp : opts.stamp = false) (htokens : countTokens host opts.ranksPath payload = .ok tokens) :
    Measured host opts payload (measure host opts payload) := by
  have hmeasure : measure host opts payload =
      { stdout := (reportOf opts payload tokens).text
        stderr := if opts.validate then diagnosticLog (modeOf opts.tolerant) payload else [] } := by
    unfold measure
    rw [hstamp, if_neg Bool.false_ne_true, htokens]
    rfl
  rw [hmeasure]
  refine ⟨rfl, ⟨tokens, htokens, (reportOf opts payload tokens).read_text, ?_⟩,
    _, (reportOf opts payload tokens).text_eq, (reportOf opts payload tokens).printed_line⟩
  unfold reportOf
  cases opts.validate with
  | true => exact diagnosticLog_eq_nil opts.tolerant payload
  | false => exact iff_of_true rfl rfl

section Run

variable {host : Host} {args : List Bytes}

theorem main_refused {outcome : Outcome}
    (h : readArguments { ranksPath := host.ranksPath } args = .error outcome) :
    main host args = outcome := by
  unfold main run
  rw [h]
  rfl

variable {opts : Options} (hargs : readArguments { ranksPath := host.ranksPath } args = .ok opts)

include hargs

theorem main_unopened {outcome : Outcome} (h : readPayload host opts.path = .error outcome) :
    main host args = outcome := by
  unfold main run
  rw [hargs]
  dsimp only [bind, Except.bind]
  rw [h]

theorem main_measure {payload : Bytes} (h : readPayload host opts.path = .ok payload) :
    main host args = measure host opts payload := by
  unfold main run
  rw [hargs]
  dsimp only [bind, Except.bind]
  rw [h]

end Run

end LlmtopEval
end LlmTop
