import LlmTop.Ast
import LlmTop.Lexer
import LlmTop.Lib.Faults

/-!
# The parser

One program for both modes: `handle_error` throws in strict mode and logs in
tolerant mode.  The log is what goes to `std::cerr`; its joined texts are the
diagnostic of the frame.
-/
namespace LlmTop
open Lib.Faults

/-- What the parser can object to, with the data its text quotes. -/
inductive Fault where
  | oversize
  | emptyPayload
  | malformedHeaderToken (token : Bytes)
  | invalidHr (val : Bytes)
  | unknownHeaderKey (key : Bytes)
  | missingHeaderFields
  | healedQuote
  | unclosedQuote
  | insertedRoleBracket
  | appendedRoleBracket
  | malformedRole (line : Bytes)
  | duplicateKey (key : Bytes)
  | malformedKVPair (token : Bytes)
  | duplicateArg (key : Bytes)
  | malformedArg (arg : Bytes)
  | malformedToolCall (line : Bytes)
deriving DecidableEq

def Fault.text : Fault → Bytes
  | .oversize => ascii "Payload size exceeds maximum allowed limit"
  | .emptyPayload => ascii "Empty payload"
  | .malformedHeaderToken token => ascii "Malformed header token: " ++ token
  | .invalidHr val => ascii "Invalid HR value: " ++ val ++ ascii " (coerced to 0)"
  | .unknownHeaderKey key => ascii "Unknown header key: " ++ key
  | .missingHeaderFields => ascii "Missing required header fields"
  | .healedQuote => ascii "Self-healed unclosed quote in line (appended double-quote)"
  | .unclosedQuote => ascii "Malformed unclosed quote in line"
  | .insertedRoleBracket => ascii "Self-healed unclosed role bracket (inserted closing bracket)"
  | .appendedRoleBracket => ascii "Self-healed unclosed role bracket (appended closing bracket)"
  | .malformedRole line => ascii "Malformed role declaration: " ++ line
  | .duplicateKey key => ascii "Duplicate key detected: " ++ key
  | .malformedKVPair token => ascii "Malformed KV pair (missing ':' or '='): " ++ token
  | .duplicateArg key => ascii "Duplicate tool argument detected: " ++ key
  | .malformedArg arg => ascii "Malformed tool argument: " ++ arg
  | .malformedToolCall line =>
      ascii "Malformed tool call (missing closing bracket): " ++ line

/-- `handle_error` on the diagnostic of a tolerant parse. -/
def appendDiagnostic (diagnostic : Bytes) (fault : Fault) : Bytes :=
  diagnostic ++ (if diagnostic.isEmpty then [] else ascii " | ") ++ fault.text

abbrev Parse (α : Type) := Faulty Fault α

/-! ## The header -/

def headerKeys : List Bytes :=
  ["VER", "CHK", "AGT", "UID", "TIM", "REQID", "FALLBACK", "HR"].map ascii

/-- A lone `KEY:VALUE` token with a known key is folded into the header. -/
def isHeaderContinuation (s : Bytes) : Bool :=
  if s.isEmpty || s.head? == some '['.toUInt8 || s.head? == some '!'.toUInt8 then false
  else if ' '.toUInt8 ∈ s then false
  else
    match Lib.Search.find ':'.toUInt8 s with
    | none => false
    | some colon => colon ≠ 0 && headerKeys.contains (s.take colon)

/-- The header line with its continuation lines, and the body that is left. -/
def foldHeader (headerLine : Bytes) : List Bytes → Bytes × List Bytes
  | [] => (headerLine, [])
  | line :: rest =>
      let probe := trim line
      if probe.isEmpty then foldHeader headerLine rest
      else if isHeaderContinuation probe then
        foldHeader (headerLine ++ ascii " " ++ probe) rest
      else (headerLine, line :: rest)

def headerToken (h : Header) (token : Bytes) : Parse Header :=
  match Lib.Search.find ':'.toUInt8 token with
  | none => do
      report (.malformedHeaderToken token)
      pure h
  | some colon =>
      let key := token.take colon
      let val := token.drop (colon + 1)
      if key = ascii "VER" then pure { h with ver := val }
      else if key = ascii "CHK" then pure { h with chk := val }
      else if key = ascii "AGT" then pure { h with agt := val }
      else if key = ascii "UID" then pure { h with uid := val }
      else if key = ascii "TIM" then pure { h with tim := val }
      else if key = ascii "REQID" then pure { h with reqid := val }
      else if key = ascii "FALLBACK" then pure { h with fallback := val }
      else if key = ascii "HR" then
        match stoi val with
        | some hr => pure { h with hr := hr }
        | none => do
            report (.invalidHr val)
            pure { h with hr := 0 }
      else do
        report (.unknownHeaderKey key)
        pure h

def Header.complete (h : Header) : Bool :=
  !(h.ver.isEmpty || h.chk.isEmpty || h.agt.isEmpty || h.reqid.isEmpty)

def requireFields (h : Header) : Parse Unit := do
  if (← currentMode) = .strict then
    if h.complete = false then report .missingHeaderFields

def parseHeader (headerLine : Bytes) : Parse Header := do
  let h ← (lexSplit headerLine ' '.toUInt8).foldlM headerToken {}
  requireFields h
  pure h

/-! ## One line of the body -/

/-- One token or argument into a map; the flag is `current_stmt_healed`. -/
def putPair (split : Bytes → Option (Bytes × Bytes)) (duplicate malformed : Bytes → Fault)
    (state : OrderedMap × Bool) (token : Bytes) : Parse (OrderedMap × Bool) :=
  let (pairs, healed) := state
  match split token with
  | some (key, val) =>
      let val := unquoteAndUnescape val
      if 0 < pairs.count key then do
        report (duplicate key)
        pure (pairs.set key val, true)
      else pure (pairs.set key val, healed)
  | none => do
      report (malformed token)
      pure (pairs, healed)

def parseKVPair : OrderedMap × Bool → Bytes → Parse (OrderedMap × Bool) :=
  putPair splitToken .duplicateKey .malformedKVPair

def parseKVPairs (line : Bytes) (kvpairs : OrderedMap) (healed : Bool) :
    Parse (OrderedMap × Bool) :=
  (lexSplit line ' '.toUInt8).foldlM parseKVPair (kvpairs, healed)

def parseArg : OrderedMap × Bool → Bytes → Parse (OrderedMap × Bool) :=
  putPair splitArg .duplicateArg .malformedArg

def methodAfter (line : Bytes) (marker : Option Nat) : Option Bytes :=
  marker.map fun i => trim (line.drop (i + 1))

def parseToolCall (line : Bytes) (healed : Bool) : Parse (ToolCall × Bool) :=
  match Lib.Search.find '['.toUInt8 line with
  | some start =>
      let name := trim (Lib.Search.substr line 1 (start - 1))
      match closingBracket false false (line.drop (start + 1)) with
      | some len => do
          let stop := start + 1 + len
          let (args, healed) ←
            (lexSplit (Lib.Search.substr line (start + 1) len) ';'.toUInt8).foldlM parseArg
              (OrderedMap.empty, healed)
          let method := methodAfter line (Lib.Search.findFrom '>'.toUInt8 line stop)
          pure (⟨name, args, method⟩, healed)
      | none => do
          report (.malformedToolCall line)
          pure (⟨name, OrderedMap.empty, none⟩, healed)
  | none =>
      let marker := Lib.Search.find '>'.toUInt8 line
      let name := trim (Lib.Search.substr line 1 (marker.getD line.length - 1))
      pure (⟨name, OrderedMap.empty, methodAfter line marker⟩, healed)

/-- Append the closing quote of a line that leaves one open. -/
def healQuote (line : Bytes) (healed : Bool) : Parse (Bytes × Bool) := do
  if quoteOpen line then
    match ← currentMode with
    | .tolerant =>
        report .healedQuote
        pure (line ++ [quote], true)
    | .strict =>
        report .unclosedQuote
        pure (line, healed)
  else pure (line, healed)

/-- The closing bracket of a role, put in front of the first blank. -/
def closeRole (line : Bytes) : Bytes :=
  match Lib.Search.find ' '.toUInt8 line with
  | some i => line.take i ++ [']'.toUInt8] ++ line.drop i
  | none => line ++ [']'.toUInt8]

def roleOpen (line : Bytes) : Bool := (Lib.Search.find ']'.toUInt8 line).isNone

def healRole (line : Bytes) (healed : Bool) : Parse (Bytes × Bool) := do
  if roleOpen line then
    match ← currentMode with
    | .tolerant =>
        if (Lib.Search.find ' '.toUInt8 line).isSome then report .insertedRoleBracket
        else report .appendedRoleBracket
        pure (closeRole line, true)
    | .strict => pure (line, healed)
  else pure (line, healed)

/-- The statement being read: `current_stmt`, `has_role`, `current_stmt_healed`. -/
structure Current where
  stmt : Statement := Statement.empty
  hasRole : Bool := false
  healed : Bool := false

def parseRoleLine (cur : Current) (line : Bytes) : Parse Current := do
  let (line, healed) ← healRole line cur.healed
  match Lib.Search.find ']'.toUInt8 line with
  | none =>
      report (.malformedRole line)
      pure { cur with healed := healed }
  | some stop =>
      let (kvpairs, healed) ← parseKVPairs (line.drop (stop + 1)) cur.stmt.kvpairs healed
      let role := Lib.Search.substr line 1 (stop - 1)
      pure ⟨{ cur.stmt with role := role, kvpairs := kvpairs }, true, healed⟩

def parseLine (cur : Current) (line : Bytes) : Parse Current := do
  let (line, healed) ← healQuote line cur.healed
  let cur := { cur with healed := healed }
  if line.head? = some '['.toUInt8 then parseRoleLine cur line
  else if line.head? = some '!'.toUInt8 then do
    let (tool, healed) ← parseToolCall line cur.healed
    pure { cur with
      stmt := { cur.stmt with toolCalls := cur.stmt.toolCalls ++ [tool] }, healed := healed }
  else do
    let (kvpairs, healed) ← parseKVPairs line cur.stmt.kvpairs cur.healed
    pure { cur with stmt := { cur.stmt with kvpairs := kvpairs }, healed := healed }

/-! ## The body -/

structure Body where
  statements : List Statement := []
  healedDraft : List Statement := []
  recoveryAttempted : Bool := false
  cur : Current := {}

def Current.started (cur : Current) : Bool :=
  cur.hasRole || !cur.stmt.kvpairs.data.isEmpty || !cur.stmt.toolCalls.isEmpty

def Body.pushCurrentStmt (b : Body) : Body :=
  if b.cur.healed then
    { b with healedDraft := b.healedDraft ++ [b.cur.stmt], recoveryAttempted := true }
  else { b with statements := b.statements ++ [b.cur.stmt] }

def isRoleLine (line : Bytes) : Bool := line.head? == some '['.toUInt8

/-- A role line ends the statement before it; `has_role` is never reset. -/
def Body.flush (b : Body) (line : Bytes) : Body :=
  if isRoleLine line && b.cur.started then
    { b.pushCurrentStmt with cur := { hasRole := b.cur.hasRole } }
  else b

def parseBodyLine (b : Body) (rawLine : Bytes) : Parse Body := do
  let line := trimLine rawLine
  if line.isEmpty then pure b
  else
    let b := b.flush line
    let cur ← parseLine b.cur line
    pure { b with cur := cur }

def Body.close (b : Body) : Body := if b.cur.started then b.pushCurrentStmt else b

/-- The parse with its log; `diagnostic` is filled in from the log. -/
def parseFrame (maxSize : Nat) (payload : Bytes) : Parse AST := do
  if maxSize < payload.length then
    report .oversize
    pure {}
  else
    match lines payload with
    | [] =>
        report .emptyPayload
        pure { rawFrame := payload }
    | line :: rest =>
        let (headerLine, bodyLines) := foldHeader (trim line) rest
        let header ← parseHeader headerLine
        let b ← bodyLines.foldlM parseBodyLine {}
        let b := b.close
        pure {
          header := header
          statements := b.statements
          healedDraft := b.healedDraft
          recoveryAttempted := b.recoveryAttempted
          rawFrame := payload }

/-- `LLMTOPParser(mode, max_size).parse(payload)`; an error is the text of the
exception. -/
def parse (mode : Mode) (maxSize : Nat) (payload : Bytes) : Except Bytes AST :=
  match parseFrame maxSize payload mode [] with
  | .error fault => .error (ascii "ERR:parse - " ++ fault.text)
  | .ok (ast, log) => .ok { ast with diagnostic := log.foldl appendDiagnostic [] }

theorem exists_of_parse_any {mode : Mode} {maxSize : Nat} {payload : Bytes} {p : AST → Bool}
    (h : (parse mode maxSize payload).toOption.any p = true) :
    ∃ ast, parse mode maxSize payload = .ok ast ∧ p ast = true := by
  cases hparse : parse mode maxSize payload with
  | error message =>
      rw [hparse] at h
      contradiction
  | ok ast =>
      rw [hparse] at h
      exact ⟨ast, rfl, h⟩

end LlmTop
