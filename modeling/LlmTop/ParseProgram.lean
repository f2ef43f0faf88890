import LlmTop.Evaluator
import LlmTop.JsonOutput

/-!
# The parsing program

`main` of `llmtop-parse`: a payload from a file, parsed in either mode, and its
AST as JSON on the standard output or in a file.
-/
namespace LlmTop
open Lib Lib.Faults

namespace LlmtopParse

/-! ## The program -/

/-- What comes of an input file. -/
inductive Input where
  | unopened
  /-- It opens and then cannot be read: a directory, say. -/
  | unreadable
  | content (payload : Bytes)

/-- The files.  A stream that fails while it is written to says so to nobody: a
file keeps what `kept` says of the document. -/
structure Host where
  file : Bytes → Input
  writable : Bytes → Bool
  kept : Bytes → Bytes → Bytes
  /-- What the runtime reports of an exception that nothing catches. -/
  uncaught : Bytes

/-- The map `args`. -/
structure Options where
  file : Option Bytes := none
  mode : Option Bytes := none
  out : Option Bytes := none

structure Outcome extends LlmTop.Outcome where
  /-- The path of the output file that was opened, and what it is left with. -/
  written : Option (Bytes × Bytes) := none

def usageLines : List String :=
  ["Usage: llmtop-parse [options]",
    "Options:",
    "  --file <path>       Path to input file containing LLM-TOP payload",
    "  --mode <mode>       Parsing mode: 'strict' or 'tolerant' (default: strict)",
    "  --out <path>        Path to output file for JSON/AST results",
    "  --help              Show this help message"]

/-- `printUsage`. -/
def usage : Bytes := usageLines.flatMap fun line => ascii line ++ ascii "\n"

def failure (stdout message : Bytes) : Outcome where
  stdout := stdout
  stderr := message ++ ascii "\n"
  status := 1

def unknownArgument (arg : Bytes) : Outcome :=
  failure usage (ascii "Unknown or incomplete argument: " ++ arg)

/-- The loop over `argv`; an error is how the program ends there. -/
def readArguments (opts : Options) : List Bytes → Except Outcome Options
  | [] => .ok opts
  | [arg] =>
      if arg = ascii "--help" then .error { stdout := usage }
      else .error (unknownArgument arg)
  | arg :: value :: rest =>
      if arg = ascii "--help" then .error { stdout := usage }
      else if arg = ascii "--file" then readArguments { opts with file := some value } rest
      else if arg = ascii "--mode" then readArguments { opts with mode := some value } rest
      else if arg = ascii "--out" then readArguments { opts with out := some value } rest
      else .error (unknownArgument arg)

def requireFile (opts : Options) : Except Outcome Bytes :=
  match opts.file with
  | none => .error (failure usage (ascii "Error: --file argument is required."))
  | some path => .ok path

/-- A mode that is not given reads as the empty text. -/
def readMode (opts : Options) : Except Outcome Mode :=
  let mode := opts.mode.getD []
  if mode = ascii "tolerant" then .ok .tolerant
  else if mode ≠ [] ∧ mode ≠ ascii "strict" then
    .error (failure []
      (ascii "Error: Unknown mode '" ++ mode ++ ascii "'. Use 'strict' or 'tolerant'."))
  else .ok .strict

/-- `std::terminate`, by `SIGABRT`. -/
def aborted (host : Host) : Outcome where
  stdout := []
  stderr := host.uncaught
  status := 134

/-- The payload is read outside of the `try` block. -/
def readFile (host : Host) (path : Bytes) : Except Outcome Bytes :=
  match host.file path with
  | .unopened => .error (failure [] (ascii "Error: Could not open file " ++ path))
  | .unreadable => .error (aborted host)
  | .content payload => .ok payload

/-- The document is written where it is wanted, behind what the parser logged; that
the writing went well is not checked. -/
def deliver (host : Host) (out : Option Bytes) (log document : Bytes) : Outcome :=
  match out with
  | none => { stdout := document ++ ascii "\n", stderr := log }
  | some path =>
      if host.writable path then
        { stdout := ascii "Output written to " ++ path ++ ascii "\n"
          stderr := log
          written := some (path, host.kept path document) }
      else failure [] (log ++ ascii "Error: Could not open output file " ++ path)

def parseAndDeliver (host : Host) (opts : Options) (mode : Mode) (payload : Bytes) : Outcome :=
  match parse mode defaultMaxSize payload with
  | .error what => failure [] (ascii "Parse Error: " ++ what)
  | .ok ast => deliver host opts.out (diagnosticLog mode payload) (toJson ast)

def execute (host : Host) (opts : Options) : Except Outcome Outcome := do
  let path ← requireFile opts
  let mode ← readMode opts
  let payload ← readFile host path
  .ok (parseAndDeliver host opts mode payload)

def main (host : Host) (args : List Bytes) : Outcome :=
  match readArguments {} args >>= execute host with
  | .error outcome => outcome
  | .ok outcome => outcome

/-! ## The document is read back -/

/-- The document as it stands in a file, or with the newline behind it. -/
theorem read_toJson (ast : AST) {after : Bytes} (hafter : JsonReader.Gap after) :
    JsonReader.read (toJson ast ++ after) = some ast.json := by
  have hindent : JsonReader.Gap (ascii "  ") := by decide
  have hclosing : JsonReader.Gap (ascii "") := JsonReader.gap_nil
  have hnewline : JsonReader.Gap (ascii "\n") := by decide
  have hlength : 7 ≤ ([] ++ (linesText "  " "" ast.fields ast.lastField ++
      (ascii "\n" ++ after))).length :=
    Nat.le_trans (length_linesText "  " "" ast.fields ast.lastField) (by simp)
  obtain ⟨depth, hdepth⟩ := Nat.exists_eq_add_of_le' hlength
  have hreads := reads_linesText (ast.sound_fields depth) hindent hclosing
  rw [← hdepth] at hreads
  rw [toJson_eq, json_ast, List.append_assoc]
  exact @JsonReader.read_eq [] _ _ _ JsonReader.gap_nil (hnewline.append hafter) hreads

/-- What a run that succeeds leaves: the AST, on the standard output or in the file
asked for, as far as that takes what is written to it. -/
structure Delivered (host : Host) (out : Option Bytes) (ast : AST) (outcome : Outcome) : Prop where
  status : outcome.status = 0
  printed : out = none → JsonReader.read outcome.stdout = some ast.json ∧ outcome.written = none
  saved : ∀ path, out = some path → host.writable path = true ∧
    ∃ document, outcome.written = some (path, host.kept path document) ∧
      JsonReader.read document = some ast.json

/-- What a run that fails leaves. -/
structure Failed (outcome : Outcome) : Prop where
  status : outcome.status = 1
  message : outcome.stderr ≠ []
  stdout : outcome.stdout = [] ∨ outcome.stdout = usage
  written : outcome.written = none

theorem failed_failure {stdout : Bytes} (h : stdout = [] ∨ stdout = usage) (message : Bytes) :
    Failed (failure stdout message) where
  status := rfl
  message := by simp [failure, ascii]
  stdout := h
  written := rfl

theorem deliver_ends (host : Host) (out : Option Bytes) (log : Bytes) (ast : AST) :
    Delivered host out ast (deliver host out log (toJson ast)) ∨
      Failed (deliver host out log (toJson ast)) := by
  have hnewline : JsonReader.Gap (ascii "\n") := by decide
  unfold deliver
  cases out with
  | none => exact Or.inl ⟨rfl, fun _ => ⟨read_toJson ast hnewline, rfl⟩, nofun⟩
  | some path =>
      dsimp only
      cases hwritable : host.writable path with
      | false =>
          rw [if_neg Bool.false_ne_true]
          exact Or.inr (failed_failure (Or.inl rfl) _)
      | true =>
          rw [if_pos rfl]
          have hread := read_toJson ast JsonReader.gap_nil
          rw [List.append_nil] at hread
          refine Or.inl ⟨rfl, nofun, fun path' hpath => ?_⟩
          obtain rfl := Option.some.inj hpath
          exact ⟨hwritable, _, rfl, hread⟩

theorem deliver_status (host : Host) (out : Option Bytes) (log document : Bytes) :
    (deliver host out log document).status = 0 ↔
      ∀ path, out = some path → host.writable path = true := by
  unfold deliver
  cases out with
  | none => exact iff_of_true rfl nofun
  | some path =>
      dsimp only
      cases hwritable : host.writable path with
      | false =>
          rw [if_neg Bool.false_ne_true]
          refine iff_of_false Nat.one_ne_zero fun h => ?_
          rw [h path rfl] at hwritable
          contradiction
      | true =>
          rw [if_pos rfl]
          exact iff_of_true rfl fun path' hpath => Option.some.inj hpath ▸ hwritable

/-! ## How the program ends -/

theorem readArguments_error {opts : Options} {args : List Bytes} {outcome : Outcome}
    (h : readArguments opts args = .error outcome) :
    outcome = { stdout := usage } ∨ Failed outcome := by
  fun_induction readArguments opts args with
  | case1 => contradiction
  | case2 => exact Or.inl (Except.error.inj h).symm
  | case3 => exact Or.inr ((Except.error.inj h) ▸ failed_failure (Or.inr rfl) _)
  | case4 => exact Or.inl (Except.error.inj h).symm
  | case5 _ _ _ _ ih => exact ih h
  | case6 _ _ _ _ _ ih => exact ih h
  | case7 _ _ _ _ _ _ ih => exact ih h
  | case8 => exact Or.inr ((Except.error.inj h) ▸ failed_failure (Or.inr rfl) _)

theorem readMode_error {opts : Options} {outcome : Outcome} (h : readMode opts = .error outcome) :
    Failed outcome := by
  unfold readMode at h
  dsimp only at h
  split at h
  · contradiction
  · split at h
    · exact (Except.error.inj h) ▸ failed_failure (Or.inl rfl) _
    · contradiction

/-- Something keeps a run from the parser, or the file cannot be read, or the parser
has its content. -/
theorem execute_cases (host : Host) (opts : Options) :
    (∃ outcome, execute host opts = .error outcome ∧ Failed outcome) ∨
      ∃ path mode, opts.file = some path ∧ readMode opts = .ok mode ∧
        (host.file path = .unreadable ∧ execute host opts = .error (aborted host) ∨
          ∃ payload, host.file path = .content payload ∧
            execute host opts = .ok (parseAndDeliver host opts mode payload)) := by
  unfold execute
  cases hfile : opts.file with
  | none =>
      rw [requireFile, hfile]
      exact Or.inl ⟨_, rfl, failed_failure (Or.inr rfl) _⟩
  | some path =>
      rw [requireFile, hfile]
      cases hmode : readMode opts with
      | error outcome => exact Or.inl ⟨outcome, rfl, readMode_error hmode⟩
      | ok mode =>
          dsimp only [bind, Except.bind]
          rw [readFile]
          cases hread : host.file path with
          | unopened => exact Or.inl ⟨_, rfl, failed_failure (Or.inl rfl) _⟩
          | unreadable => exact Or.inr ⟨path, mode, rfl, rfl, Or.inl ⟨hread, rfl⟩⟩
          | content payload => exact Or.inr ⟨path, mode, rfl, rfl, Or.inr ⟨payload, hread, rfl⟩⟩

theorem parseAndDeliver_ends (host : Host) (opts : Options) (mode : Mode) (payload : Bytes) :
    Failed (parseAndDeliver host opts mode payload) ∨
      ∃ ast, parse mode defaultMaxSize payload = .ok ast ∧
        Delivered host opts.out ast (parseAndDeliver host opts mode payload) := by
  unfold parseAndDeliver
  cases parse mode defaultMaxSize payload with
  | error what => exact Or.inl (failed_failure (Or.inl rfl) _)
  | ok ast =>
      exact (deliver_ends host opts.out (diagnosticLog mode payload) ast).symm.imp_right
        fun hdone => ⟨ast, rfl, hdone⟩

/-- A run prints its usage, fails with nothing written, is aborted over a file that
opens and cannot be read, or delivers a document that is read back as the AST of
the payload. -/
theorem main_delivers (host : Host) (args : List Bytes) :
    main host args = { stdout := usage } ∨ Failed (main host args) ∨
      ∃ opts path mode, readArguments {} args = .ok opts ∧ opts.file = some path ∧
        readMode opts = .ok mode ∧
        (host.file path = .unreadable ∧ main host args = aborted host ∨
          ∃ payload ast, host.file path = .content payload ∧
            parse mode defaultMaxSize payload = .ok ast ∧
            Delivered host opts.out ast (main host args)) := by
  unfold main
  cases hargs : readArguments {} args with
  | error outcome => exact (readArguments_error hargs).imp_right Or.inl
  | ok opts =>
      dsimp only [bind, Except.bind]
      rcases execute_cases host opts with ⟨outcome, hrun, hfailed⟩ | ⟨path, mode, hfile, hmode, hend⟩
      · rw [hrun]
        exact Or.inr (Or.inl hfailed)
      · rcases hend with ⟨hread, hrun⟩ | ⟨payload, hread, hrun⟩
        · rw [hrun]
          exact Or.inr (Or.inr ⟨opts, path, mode, rfl, hfile, hmode, Or.inl ⟨hread, rfl⟩⟩)
        · rw [hrun]
          refine Or.inr ((parseAndDeliver_ends host opts mode payload).imp_right ?_)
          rintro ⟨ast, hparse, hdone⟩
          exact ⟨opts, path, mode, rfl, hfile, hmode, Or.inr ⟨payload, ast, hread, hparse, hdone⟩⟩

/-- Nothing of the document is kept, and the run succeeds. -/
example :
    let frame : Bytes := ascii "VER:2 CHK:0 AGT:a REQID:r"
    let host : Host := ⟨fun _ => .content frame, fun _ => true, fun _ _ => [], []⟩
    let outcome := main host [ascii "--file", ascii "in", ascii "--out", ascii "/dev/full"]
    outcome.status = 0 ∧ outcome.written = some (ascii "/dev/full", []) := by
  decide +kernel

/-! ## The two modes -/

theorem readArguments_append {opts opts' : Options} {args : List Bytes}
    (h : readArguments opts args = .ok opts') (rest : List Bytes) :
    readArguments opts (args ++ rest) = readArguments opts' rest := by
  fun_induction readArguments opts args with
  | case1 =>
      obtain rfl := Except.ok.inj h
      rfl
  | case2 => contradiction
  | case3 => contradiction
  | case4 => contradiction
  | case5 opts value tail hhelp ih =>
      rw [List.cons_append, List.cons_append, readArguments, if_neg hhelp, if_pos rfl]
      exact ih h
  | case6 opts value tail hhelp hfile ih =>
      rw [List.cons_append, List.cons_append, readArguments, if_neg hhelp, if_neg hfile, if_pos rfl]
      exact ih h
  | case7 opts value tail hhelp hfile hmode ih =>
      rw [List.cons_append, List.cons_append, readArguments, if_neg hhelp, if_neg hfile, if_neg hmode,
        if_pos rfl]
      exact ih h
  | case8 => contradiction

/-- A payload that the strict mode accepts: the same AST in both, and nothing is logged. -/
theorem accepted_modes {payload : Bytes} {ast : AST} (h : parse .strict defaultMaxSize payload = .ok ast) :
    parse .tolerant defaultMaxSize payload = .ok ast ∧
      diagnosticLog .tolerant payload = diagnosticLog .strict payload := by
  obtain ⟨hclean, -, rfl⟩ := parse_strict_eq_ok.mp h
  have hdiag := readFrame_diagnostic defaultMaxSize payload
  have htolerant : parse .tolerant defaultMaxSize payload = .ok (readFrame defaultMaxSize payload).1 := by
    rw [parse_tolerant, hclean, List.foldl_nil, ← hdiag]
  have hlog : ∀ tolerant, diagnosticLog (LlmtopEval.modeOf tolerant) payload = [] := by
    intro tolerant
    have hparse : parse (LlmtopEval.modeOf tolerant) defaultMaxSize payload =
        .ok (readFrame defaultMaxSize payload).1 := by
      cases tolerant with
      | true => exact htolerant
      | false => exact h
    rw [LlmtopEval.diagnosticLog_eq_nil, LlmtopEval.judge, hparse]
    exact hdiag
  exact ⟨htolerant, (hlog true).trans (hlog false).symm⟩

section Run

variable {host : Host} {args : List Bytes} {opts : Options}

theorem execute_run {path payload : Bytes} {mode : Mode} (hfile : opts.file = some path)
    (hmode : readMode opts = .ok mode) (hread : host.file path = .content payload) :
    execute host opts = .ok (parseAndDeliver host opts mode payload) := by
  rw [execute, requireFile, hfile, hmode]
  dsimp only [bind, Except.bind]
  rw [readFile, hread]

theorem Failed.status_ne {outcome : Outcome} (h : Failed outcome) : outcome.status ≠ 0 := by
  rw [h.status]
  exact Nat.one_ne_zero

theorem execute_unread
    (h : ¬ ∃ path payload, opts.file = some path ∧ host.file path = .content payload) :
    ∃ outcome, execute host opts = .error outcome ∧ outcome.status ≠ 0 := by
  rcases execute_cases host opts with ⟨outcome, hrun, hfailed⟩ | ⟨path, mode, hfile, hmode, hend⟩
  · exact ⟨outcome, hrun, hfailed.status_ne⟩
  · rcases hend with ⟨-, hrun⟩ | ⟨payload, hread, -⟩
    · exact ⟨aborted host, hrun, (by decide : 134 ≠ 0)⟩
    · exact absurd ⟨path, payload, hfile, hread⟩ h

theorem main_ran {outcome : Outcome} (hargs : readArguments {} args = .ok opts)
    (h : execute host opts = .ok outcome) : main host args = outcome := by
  rw [main, hargs]
  dsimp only [bind, Except.bind]
  rw [h]

theorem main_unread (hargs : readArguments {} args = .ok opts)
    (h : ¬ ∃ path payload, opts.file = some path ∧ host.file path = .content payload) :
    (main host args).status ≠ 0 := by
  obtain ⟨outcome, hrun, hstatus⟩ := execute_unread h
  rw [main, hargs]
  dsimp only [bind, Except.bind]
  rwa [hrun]

end Run

/-- With `--mode tolerant` behind the arguments of a strict run, the program does the
same wherever that run succeeds, and fails only over files that do not open or
cannot be read. -/
theorem tolerant_of_strict {host : Host} {args : List Bytes} {opts : Options}
    (hargs : readArguments {} args = .ok opts) (hmode : readMode opts = .ok .strict) :
    ((main host args).status = 0 →
      main host (args ++ [ascii "--mode", ascii "tolerant"]) = main host args) ∧
    ((main host (args ++ [ascii "--mode", ascii "tolerant"])).status = 0 ↔
      (∃ path payload, opts.file = some path ∧ host.file path = .content payload) ∧
        ∀ out, opts.out = some out → host.writable out = true) := by
  have htolerant : readArguments {} (args ++ [ascii "--mode", ascii "tolerant"]) =
      .ok { opts with mode := some (ascii "tolerant") } := readArguments_append hargs _
  by_cases hpayload : ∃ path payload, opts.file = some path ∧ host.file path = .content payload
  · obtain ⟨path, payload, hfile, hread⟩ := hpayload
    have hread' := parse_tolerant defaultMaxSize payload
    rw [main_ran hargs (execute_run hfile hmode hread),
      main_ran htolerant (execute_run hfile rfl hread)]
    unfold parseAndDeliver
    constructor
    · intro hstatus
      cases hstrict : parse .strict defaultMaxSize payload with
      | error what =>
          rw [hstrict] at hstatus
          contradiction
      | ok ast =>
          obtain ⟨hparse, hlog⟩ := accepted_modes hstrict
          rw [hparse, hlog]
    · rw [hread', and_iff_right ⟨path, payload, hfile, hread⟩]
      exact deliver_status ..
  · have hfails := main_unread hargs hpayload
    have hfails' := main_unread htolerant hpayload
    exact ⟨fun h => absurd h hfails, iff_of_false hfails' fun h => hpayload h.1⟩

/-- A frame with a header only, and an output file that can be written. -/
def frameHost : Host where
  file path := if path = ascii "in" then .content (ascii "VER:2 CHK:0 AGT:a REQID:r") else .unopened
  writable _ := true
  kept _ document := document
  uncaught := []

theorem tolerant_of_strict_frame :
    main frameHost [ascii "--file", ascii "in", ascii "--out", ascii "o", ascii "--mode",
        ascii "tolerant"] =
      main frameHost [ascii "--file", ascii "in", ascii "--out", ascii "o"] ∧
    (main frameHost [ascii "--file", ascii "in", ascii "--out", ascii "o", ascii "--mode",
      ascii "tolerant"]).status = 0 := by
  obtain ⟨hsame, hstatus⟩ := @tolerant_of_strict frameHost
    [ascii "--file", ascii "in", ascii "--out", ascii "o"]
    ⟨some (ascii "in"), none, some (ascii "o")⟩ rfl rfl
  refine ⟨hsame (by decide +kernel), hstatus.mpr ⟨⟨_, _, rfl, rfl⟩, fun _ _ => rfl⟩⟩

end LlmtopParse
end LlmTop
