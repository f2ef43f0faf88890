import LlmTop.StreamFold
import LlmTop.Lib.CheckedText

/-!
# The parser at its positions

The parser once more, as it computes with positions: every index and every
position it gives to a string operation is logged, a search that fails answers
`npos`, and an operation whose position is out of range raises.
-/
namespace LlmTop.Checked
open Lib Lib.Faults Lib.Traced Lib.CheckedText

/-- What can be raised under `parse`. -/
inductive Raised where
  | runtimeError (fault : Fault)
  /-- A position behind the end of a string. -/
  | outOfRange
  /-- `stoi` on a text that is no number, or not one of an `int`. -/
  | stoi

abbrev Access := CheckedText.Access

/-- A computation of the parser, with the mode and the log of the diagnostics. -/
def Parse (α : Type) : Type := Mode → List Fault → Run Access Raised (α × List Fault)

instance : Monad Parse where
  pure a := fun _ log => pure (a, log)
  bind c k := fun mode log => c mode log >>= fun r => k r.1 mode r.2

def lift {α : Type} (run : Run Access Raised α) : Parse α :=
  fun _ log => run >>= fun a => pure (a, log)

def currentMode : Parse Mode := fun mode log => pure (mode, log)

def handleError (fault : Fault) : Parse Unit := fun mode log =>
  match mode with
  | .strict => raise (.runtimeError fault)
  | .tolerant => pure ((), log ++ [fault])

/-- `try` with a handler for everything. -/
def tryCatch {α : Type} (c handler : Parse α) : Parse α := fun mode log =>
  match c mode log with
  | ⟨events, .raised _⟩ =>
      ⟨events ++ (handler mode log).events, (handler mode log).outcome⟩
  | run => run

/-! ## Tokens -/

def substr (s : Bytes) (pos count : UInt64) : Run Access Raised Bytes :=
  CheckedText.substr .outOfRange s pos count

def trim (s : Bytes) : Run Access Raised Bytes := CheckedText.trim .outOfRange isTrimmed s

def trimLine (line : Bytes) : Run Access Raised Bytes :=
  CheckedText.eraseBoth .outOfRange isBlank line

def lexLoop (str : Bytes) (delim : UInt8) : Nat → UInt64 → LexState → Run Access Raised LexState
  | 0, _, _ => running
  | fuel + 1, i, s =>
      if i < size str then do
        let c ← elemAt str i
        lexLoop str delim fuel (i + 1) (lexStep delim s c)
      else pure s

def lexSplit (str : Bytes) (delim : UInt8) : Run Access Raised (List Bytes) := do
  let s ← lexLoop str delim (str.length + 1) 0 {}
  pure s.finish

/-- A backslash and the byte behind it. -/
def unescaped (c next : UInt8) : Bytes :=
  if next = 'n'.toUInt8 then ['\n'.toUInt8]
  else if next = 't'.toUInt8 then ['\t'.toUInt8]
  else if next = 'r'.toUInt8 then ['\r'.toUInt8]
  else if next = backslash then [backslash]
  else if next = quote then [quote]
  else [c, next]

def unescapeLoop (quoted : Bytes) : Nat → UInt64 → Bytes → Run Access Raised Bytes
  | 0, _, _ => running
  | fuel + 1, i, result =>
      if i < size quoted - 1 then do
        let c ← elemAt quoted i
        if c = backslash ∧ i + 1 < size quoted - 1 then do
          let next ← elemAt quoted (i + 1)
          unescapeLoop quoted fuel (i + 1 + 1) (result ++ unescaped c next)
        else unescapeLoop quoted fuel (i + 1) (result ++ [c])
      else pure result

def unquoteAndUnescape (quoted : Bytes) : Run Access Raised Bytes :=
  if size quoted < 2 then pure quoted
  else do
    let front ← elemAt quoted 0
    if front ≠ quote then pure quoted
    else do
      let back ← elemAt quoted (size quoted - 1)
      if back ≠ quote then pure quoted
      else unescapeLoop quoted (quoted.length + 1) 1 []

/-! ## The header -/

def isHeaderContinuation (s : Bytes) : Run Access Raised Bool :=
  if s.isEmpty then pure false
  else do
    let first ← elemAt s 0
    if first = '['.toUInt8 then pure false
    else do
      let first ← elemAt s 0
      if first = '!'.toUInt8 then pure false
      else if find ' '.toUInt8 s ≠ npos then pure false
      else
        let colon := find ':'.toUInt8 s
        if colon = npos ∨ colon = 0 then pure false
        else do
          let key ← substr s 0 colon
          pure (headerKeys.contains key)

def stoi (val : Bytes) : Parse Int :=
  match LlmTop.stoi val with
  | some n => pure n
  | none => lift (raise .stoi)

def headerToken (h : Header) (token : Bytes) : Parse Header :=
  let colon := find ':'.toUInt8 token
  if colon = npos then do
    handleError (.malformedHeaderToken token)
    pure h
  else do
    let key ← lift (substr token 0 colon)
    let val ← lift (substr token (colon + 1) npos)
    if key = ascii "VER" then pure { h with ver := val }
    else if key = ascii "CHK" then pure { h with chk := val }
    else if key = ascii "AGT" then pure { h with agt := val }
    else if key = ascii "UID" then pure { h with uid := val }
    else if key = ascii "TIM" then pure { h with tim := val }
    else if key = ascii "REQID" then pure { h with reqid := val }
    else if key = ascii "FALLBACK" then pure { h with fallback := val }
    else if key = ascii "HR" then
      tryCatch
        (do
          let hr ← stoi val
          pure { h with hr := hr })
        (do
          handleError (.invalidHr val)
          pure { h with hr := 0 })
    else do
      handleError (.unknownHeaderKey key)
      pure h

def requireFields (h : Header) : Parse Unit := do
  let mode ← currentMode
  if mode = .strict then
    if h.complete = false then handleError .missingHeaderFields else pure ()
  else pure ()

def parseHeader (headerLine : Bytes) : Parse Header := do
  let tokens ← lift (lexSplit headerLine ' '.toUInt8)
  let h ← tokens.foldlM headerToken {}
  requireFields h
  pure h

/-! ## One line of the body -/

/-- `=` binds behind a bare identifier only. -/
def bindingEquals (token : Bytes) : Run Access Raised UInt64 :=
  let equals := find '='.toUInt8 token
  if equals = npos then pure npos
  else do
    let key ← substr token 0 equals
    if isBareIdentifier key then pure equals else pure npos

def splitToken (token : Bytes) : Run Access Raised (Option (Bytes × Bytes)) := do
  let equals ← bindingEquals token
  let sep := min (find ':'.toUInt8 token) equals
  if sep = npos then pure none
  else do
    let key ← substr token 0 sep
    let val ← substr token (sep + 1) npos
    pure (some (key, val))

def splitArg (arg : Bytes) : Run Access Raised (Option (Bytes × Bytes)) :=
  let eq := find '='.toUInt8 arg
  if eq = npos then pure none
  else do
    let key ← substr arg 0 eq
    let val ← substr arg (eq + 1) npos
    pure (some (key, val))

def putPair (split : Bytes → Run Access Raised (Option (Bytes × Bytes)))
    (duplicate malformed : Bytes → Fault) (state : OrderedMap × Bool) (token : Bytes) :
    Parse (OrderedMap × Bool) := do
  let parts ← lift (split token)
  match parts with
  | some (key, val) => do
      let val ← lift (unquoteAndUnescape val)
      if 0 < state.1.count key then do
        handleError (duplicate key)
        pure (state.1.set key val, true)
      else pure (state.1.set key val, state.2)
  | none => do
      handleError (malformed token)
      pure state

def parseKVPairs (line : Bytes) (kvpairs : OrderedMap) (healed : Bool) :
    Parse (OrderedMap × Bool) := do
  let tokens ← lift (lexSplit line ' '.toUInt8)
  tokens.foldlM (putPair splitToken .duplicateKey .malformedKVPair) (kvpairs, healed)

/-- The scan for the `]` that closes the arguments. -/
def bracketLoop (line : Bytes) : Nat → UInt64 → Bool → Bool → Run Access Raised UInt64
  | 0, _, _, _ => running
  | fuel + 1, i, inQuotes, inEscape =>
      if i < size line then do
        let c ← elemAt line i
        if inEscape then bracketLoop line fuel (i + 1) inQuotes false
        else if c = backslash ∧ inQuotes then bracketLoop line fuel (i + 1) inQuotes true
        else if c = quote then bracketLoop line fuel (i + 1) (!inQuotes) false
        else if c = ']'.toUInt8 ∧ ¬ inQuotes then pure i
        else bracketLoop line fuel (i + 1) inQuotes false
      else pure npos

def methodAfter (line : Bytes) (marker : UInt64) : Run Access Raised (Option Bytes) :=
  if marker = npos then pure none
  else do
    let method ← substr line (marker + 1) npos
    let method ← trim method
    pure (some method)

def parseToolCall (line : Bytes) (healed : Bool) : Parse (ToolCall × Bool) :=
  let start := find '['.toUInt8 line
  if start ≠ npos then do
    let name ← lift (substr line 1 (start - 1))
    let stop ← lift (bracketLoop line (line.length + 1) (start + 1) false false)
    if stop ≠ npos then do
      let argsStr ← lift (substr line (start + 1) (stop - start - 1))
      let tokens ← lift (lexSplit argsStr ';'.toUInt8)
      let (args, healed) ←
        tokens.foldlM (putPair splitArg .duplicateArg .malformedArg) (OrderedMap.empty, healed)
      let name ← lift (trim name)
      let method ← lift (methodAfter line (findFrom '>'.toUInt8 line stop))
      pure (⟨name, args, method⟩, healed)
    else do
      handleError (.malformedToolCall line)
      let name ← lift (trim name)
      pure (⟨name, OrderedMap.empty, none⟩, healed)
  else do
    let marker := find '>'.toUInt8 line
    let name ← lift (substr line 1 (if marker ≠ npos then marker - 1 else size line - 1))
    let name ← lift (trim name)
    let method ← lift (methodAfter line marker)
    pure (⟨name, OrderedMap.empty, method⟩, healed)

def healQuote (line : Bytes) (healed : Bool) : Parse (Bytes × Bool) :=
  if quoteOpen line then do
    let mode ← currentMode
    match mode with
    | .tolerant => do
        handleError .healedQuote
        pure (line ++ [quote], true)
    | .strict => do
        handleError .unclosedQuote
        pure (line, healed)
  else pure (line, healed)

def healRole (line : Bytes) (healed : Bool) : Parse (Bytes × Bool) :=
  if find ']'.toUInt8 line = npos then do
    let mode ← currentMode
    match mode with
    | .tolerant =>
        let firstSpace := find ' '.toUInt8 line
        if firstSpace ≠ npos then do
          let line ← lift (CheckedText.insert .outOfRange line firstSpace [']'.toUInt8])
          handleError .insertedRoleBracket
          pure (line, true)
        else do
          handleError .appendedRoleBracket
          pure (line ++ [']'.toUInt8], true)
    | .strict => pure (line, healed)
  else pure (line, healed)

def parseRoleLine (cur : Current) (line : Bytes) : Parse Current := do
  let (line, healed) ← healRole line cur.healed
  let stop := find ']'.toUInt8 line
  if stop = npos then do
    handleError (.malformedRole line)
    pure { cur with healed := healed }
  else do
    let role ← lift (substr line 1 (stop - 1))
    let rest ← lift (substr line (stop + 1) npos)
    let (kvpairs, healed) ← parseKVPairs rest cur.stmt.kvpairs healed
    pure ⟨{ cur.stmt with role := role, kvpairs := kvpairs }, true, healed⟩

def parseLine (cur : Current) (line : Bytes) : Parse Current := do
  let (line, healed) ← healQuote line cur.healed
  let cur := { cur with healed := healed }
  let first ← lift (elemAt line 0)
  if first = '['.toUInt8 then parseRoleLine cur line
  else do
    let first ← lift (elemAt line 0)
    if first = '!'.toUInt8 then do
      let (tool, healed) ← parseToolCall line cur.healed
      pure { cur with
        stmt := { cur.stmt with toolCalls := cur.stmt.toolCalls ++ [tool] }, healed := healed }
    else do
      let (kvpairs, healed) ← parseKVPairs line cur.stmt.kvpairs cur.healed
      pure { cur with stmt := { cur.stmt with kvpairs := kvpairs }, healed := healed }

/-! ## The frame -/

def parseBodyLine (b : Body) (rawLine : Bytes) : Parse Body := do
  let line ← lift (trimLine rawLine)
  if line.isEmpty then pure b
  else do
    let first ← lift (elemAt line 0)
    let b :=
      if first = '['.toUInt8 ∧ b.cur.started then
        { b.pushCurrentStmt with cur := { hasRole := b.cur.hasRole } }
      else b
    let cur ← parseLine b.cur line
    pure { b with cur := cur }

def foldLoop : Nat → Bytes → Option Nat → TextStream UInt8 →
    Run Access Raised (Bytes × Option Nat × TextStream UInt8)
  | 0, _, _, _ => running
  | fuel + 1, headerLine, mark, stream =>
      match stream.getline isLineFeed with
      | (none, stream) => pure (headerLine, mark, stream)
      | (some line, stream) => do
          let probe ← trim line
          if probe.isEmpty then foldLoop fuel headerLine stream.tellg.1 stream.tellg.2
          else do
            let continuation ← isHeaderContinuation probe
            if continuation then
              foldLoop fuel (headerLine ++ ascii " " ++ probe) stream.tellg.1 stream.tellg.2
            else pure (headerLine, mark, stream)

def bodyLoop : Nat → Body → TextStream UInt8 → Parse Body
  | 0, _, _ => lift running
  | fuel + 1, b, stream =>
      match stream.getline isLineFeed with
      | (none, _) => pure b
      | (some line, stream) => do
          let b ← parseBodyLine b line
          bodyLoop fuel b stream

def parseFrame (maxSize : Nat) (payload : Bytes) : Parse AST :=
  if maxSize < payload.length then do
    handleError .oversize
    pure {}
  else
    match (⟨payload, 0, false, false⟩ : TextStream UInt8).getline isLineFeed with
    | (none, _) => do
        handleError .emptyPayload
        pure { rawFrame := payload }
    | (some line, stream) => do
        let headerLine ← lift (trim line)
        let (headerLine, mark, stream) ←
          lift (foldLoop (payload.length + 1) headerLine stream.tellg.1 stream.tellg.2)
        let header ← parseHeader headerLine
        let b ← bodyLoop (payload.length + 1) {} (stream.clear.seekg mark)
        let b := b.close
        pure {
          header := header
          statements := b.statements
          healedDraft := b.healedDraft
          recoveryAttempted := b.recoveryAttempted
          rawFrame := payload }

/-- `LLMTOPParser(mode, max_size).parse(payload)`. -/
def parse (mode : Mode) (maxSize : Nat) (payload : Bytes) : Run Access Raised AST := do
  let (ast, log) ← parseFrame maxSize payload mode []
  pure { ast with diagnostic := log.foldl appendDiagnostic [] }

end LlmTop.Checked
