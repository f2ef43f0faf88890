import LlmTop.Parser

/-!
# What a frame says

The tolerant parse as pure functions: the result of each step and the faults it
logs, apart.  `Emits` connects every one of them with the parser's own code, so
the strict parse is covered as well.
-/
namespace LlmTop
open Lib.Faults

/-- The faults that mark the statement being read as healed. -/
def Fault.isRepair : Fault → Bool
  | .healedQuote | .insertedRoleBracket | .appendedRoleBracket => true
  | .duplicateKey _ | .duplicateArg _ => true
  | _ => false

/-! ## Pairs -/

def pairNext (split : Bytes → Option (Bytes × Bytes)) (pairs : OrderedMap) (token : Bytes) :
    OrderedMap :=
  match split token with
  | some (key, val) => pairs.set key (unquoteAndUnescape val)
  | none => pairs

def pairFaults (split : Bytes → Option (Bytes × Bytes)) (duplicate malformed : Bytes → Fault)
    (pairs : OrderedMap) (token : Bytes) : List Fault :=
  match split token with
  | some (key, _) => if 0 < pairs.count key then [duplicate key] else []
  | none => [malformed token]

theorem emits_putPair {split : Bytes → Option (Bytes × Bytes)}
    {duplicate malformed : Bytes → Fault} (hdup : ∀ key, (duplicate key).isRepair = true)
    (hmal : ∀ token, (malformed token).isRepair = false) (pairs : OrderedMap) (healed : Bool)
    (token : Bytes) :
    Emits (putPair split duplicate malformed (pairs, healed) token)
      (pairNext split pairs token,
        healed || (pairFaults split duplicate malformed pairs token).any Fault.isRepair)
      (pairFaults split duplicate malformed pairs token) := by
  unfold putPair pairNext pairFaults
  cases split token with
  | none =>
      dsimp only
      rw [List.any_cons, hmal, List.any_nil, Bool.or_false, Bool.or_false]
      exact Emits.report_bind _ (Emits.pure _)
  | some pair =>
      dsimp only
      split
      · rw [List.any_cons, hdup, Bool.true_or, Bool.or_true]
        exact Emits.report_bind _ (Emits.pure _)
      · rw [List.any_nil, Bool.or_false]
        exact Emits.pure _

def kvNext : OrderedMap → Bytes → OrderedMap := pairNext splitToken
def kvFaults : OrderedMap → Bytes → List Fault :=
  pairFaults splitToken .duplicateKey .malformedKVPair
def argNext : OrderedMap → Bytes → OrderedMap := pairNext splitArg
def argFaults : OrderedMap → Bytes → List Fault :=
  pairFaults splitArg .duplicateArg .malformedArg

theorem emits_kvPairs (tokens : List Bytes) (pairs : OrderedMap) (healed : Bool) :
    Emits (tokens.foldlM parseKVPair (pairs, healed))
      (tokens.foldl kvNext pairs,
        healed || (faultsAlong kvNext kvFaults pairs tokens).any Fault.isRepair)
      (faultsAlong kvNext kvFaults pairs tokens) :=
  Emits.foldlM_flag (emits_putPair (fun _ => rfl) (fun _ => rfl)) tokens pairs healed

theorem emits_args (args : List Bytes) (pairs : OrderedMap) (healed : Bool) :
    Emits (args.foldlM parseArg (pairs, healed))
      (args.foldl argNext pairs,
        healed || (faultsAlong argNext argFaults pairs args).any Fault.isRepair)
      (faultsAlong argNext argFaults pairs args) :=
  Emits.foldlM_flag (emits_putPair (fun _ => rfl) (fun _ => rfl)) args pairs healed

/-! ## Tool calls -/

/-- Length of the argument text of a tool line with an opening bracket. -/
def argsLength (line : Bytes) (start : Nat) : Option Nat :=
  closingBracket false false (line.drop (start + 1))

def argTokens (line : Bytes) (start len : Nat) : List Bytes :=
  lexSplit (Lib.Search.substr line (start + 1) len) ';'.toUInt8

def toolOf (line : Bytes) : ToolCall :=
  match Lib.Search.find '['.toUInt8 line with
  | some start =>
      let name := trim (Lib.Search.substr line 1 (start - 1))
      match argsLength line start with
      | some len =>
          ⟨name, (argTokens line start len).foldl argNext OrderedMap.empty,
            methodAfter line (Lib.Search.findFrom '>'.toUInt8 line (start + 1 + len))⟩
      | none => ⟨name, OrderedMap.empty, none⟩
  | none =>
      let marker := Lib.Search.find '>'.toUInt8 line
      ⟨trim (Lib.Search.substr line 1 (marker.getD line.length - 1)), OrderedMap.empty,
        methodAfter line marker⟩

/-- The arguments of a tool line, unless its bracket is never closed. -/
def toolArgs (line : Bytes) : Option (List Bytes) :=
  match Lib.Search.find '['.toUInt8 line with
  | some start => (argsLength line start).map (argTokens line start)
  | none => some []

def toolFaults (line : Bytes) : List Fault :=
  match toolArgs line with
  | some args => faultsAlong argNext argFaults OrderedMap.empty args
  | none => [.malformedToolCall line]

theorem emits_toolCall (line : Bytes) (healed : Bool) :
    Emits (parseToolCall line healed)
      (toolOf line, healed || (toolFaults line).any Fault.isRepair) (toolFaults line) := by
  unfold parseToolCall toolOf toolFaults toolArgs argsLength
  cases Lib.Search.find '['.toUInt8 line with
  | none => simpa [faultsAlong] using Emits.pure _
  | some start =>
      dsimp only
      cases closingBracket false false (line.drop (start + 1)) with
      | none =>
          have hclean : (Fault.malformedToolCall line).isRepair = false := rfl
          dsimp only [Option.map_none]
          rw [List.any_cons, List.any_nil, Bool.or_false, hclean, Bool.or_false]
          exact Emits.report_bind _ (Emits.pure _)
      | some len =>
          exact (emits_args (argTokens line start len) OrderedMap.empty healed).map fun s =>
            ((⟨trim (Lib.Search.substr line 1 (start - 1)), s.1,
              methodAfter line (Lib.Search.findFrom '>'.toUInt8 line (start + 1 + len))⟩ :
              ToolCall), s.2)

/-! ## Lines -/

def closeQuote (line : Bytes) : Bytes := if quoteOpen line then line ++ [quote] else line

theorem closeQuote_closed {line : Bytes} (h : quoteOpen line = false) : closeQuote line = line := by
  rw [closeQuote, h]
  rfl

def quoteFaults (line : Bytes) : List Fault := if quoteOpen line then [.healedQuote] else []

def closedRole (line : Bytes) : Bytes := if roleOpen line then closeRole line else line

def roleFaults (line : Bytes) : List Fault :=
  if roleOpen line then
    if (Lib.Search.find ' '.toUInt8 line).isSome then [.insertedRoleBracket]
    else [.appendedRoleBracket]
  else []

/-- Position of the bracket that closes the role. -/
def roleStop (line : Bytes) : Nat := (Lib.Search.find ']'.toUInt8 (closedRole line)).getD 0

def roleTokens (line : Bytes) : List Bytes :=
  lexSplit ((closedRole line).drop (roleStop line + 1)) ' '.toUInt8

def roleStatement (stmt : Statement) (line : Bytes) : Statement :=
  { stmt with
    role := Lib.Search.substr (closedRole line) 1 (roleStop line - 1)
    kvpairs := (roleTokens line).foldl kvNext stmt.kvpairs }

def isToolLine (line : Bytes) : Bool := line.head? == some '!'.toUInt8

/-- The key/value tokens of a line; a tool line has none. -/
def lineTokens (line : Bytes) : List Bytes :=
  let line := closeQuote line
  if isRoleLine line then roleTokens line
  else if isToolLine line then []
  else lexSplit line ' '.toUInt8

def lineStatement (stmt : Statement) (rawLine : Bytes) : Statement :=
  let line := closeQuote rawLine
  if isRoleLine line then roleStatement stmt line
  else if isToolLine line then { stmt with toolCalls := stmt.toolCalls ++ [toolOf line] }
  else { stmt with kvpairs := (lineTokens rawLine).foldl kvNext stmt.kvpairs }

def lineFaults (stmt : Statement) (rawLine : Bytes) : List Fault :=
  let line := closeQuote rawLine
  quoteFaults rawLine ++
    ((if isRoleLine line then roleFaults line
      else if isToolLine line then toolFaults line
      else []) ++
    faultsAlong kvNext kvFaults stmt.kvpairs (lineTokens rawLine))

theorem emits_healQuote (line : Bytes) (healed : Bool) :
    Emits (healQuote line healed)
      (closeQuote line, healed || (quoteFaults line).any Fault.isRepair) (quoteFaults line) := by
  unfold healQuote closeQuote quoteFaults
  cases quoteOpen line with
  | false => simpa using Emits.pure _
  | true =>
      simp only [if_true, List.any_cons, List.any_nil, Fault.isRepair, Bool.or_false, Bool.or_true]
      refine Emits.mode (fun log => rfl) (fun h => nomatch h) (fun _ log => ⟨_, rfl⟩)

theorem find_closeRole (line : Bytes) :
    (Lib.Search.find ']'.toUInt8 (closeRole line)).isSome = true := by
  rw [Option.isSome_iff_ne_none, ne_eq, Lib.Search.find_eq_none, not_not]
  unfold closeRole
  split <;> simp

theorem head?_closeRole {line : Bytes} (h : line.head? = some '['.toUInt8) :
    (closeRole line).head? = some '['.toUInt8 := by
  obtain ⟨rest, rfl⟩ := List.head?_eq_some_iff.mp h
  unfold closeRole
  split
  · rename_i i hfind
    obtain ⟨before, after, heq, -, rfl⟩ := Lib.Search.find_eq_some.mp hfind
    cases before with
    | nil => exact absurd (List.cons.inj heq).1 (by decide)
    | cons c before => rfl
  · rfl

theorem find_closedRole (line : Bytes) :
    Lib.Search.find ']'.toUInt8 (closedRole line) = some (roleStop line) := by
  have hsome : (Lib.Search.find ']'.toUInt8 (closedRole line)).isSome = true := by
    unfold closedRole
    split
    · exact find_closeRole line
    · rename_i hclosed
      simpa [roleOpen, Option.isSome_iff_ne_none] using hclosed
  obtain ⟨stop, hstop⟩ := Option.isSome_iff_exists.mp hsome
  rw [roleStop, hstop, Option.getD_some]

theorem healRole_tolerant {line : Bytes} (healed : Bool) (log : List Fault)
    (h : roleOpen line = true) :
    healRole line healed .tolerant log = .ok ((closeRole line, true), log ++ roleFaults line) := by
  unfold healRole roleFaults
  rw [if_pos h, if_pos h, bind_apply]
  simp only [currentMode]
  split <;> rfl

theorem roleFaults_of_open {line : Bytes} (h : roleOpen line = true) :
    ∃ repair, roleFaults line = [repair] ∧ repair.isRepair = true := by
  unfold roleFaults
  rw [if_pos h]
  split
  · exact ⟨_, rfl, rfl⟩
  · exact ⟨_, rfl, rfl⟩

/-- The pairs behind the role's bracket, and the statement they make. -/
theorem emits_rolePairs (cur : Current) (line : Bytes) (healed : Bool) :
    Emits ((roleTokens line).foldlM parseKVPair (cur.stmt.kvpairs, healed) >>= fun s =>
        pure (⟨{ cur.stmt with
          role := Lib.Search.substr (closedRole line) 1 (roleStop line - 1), kvpairs := s.1 },
          true, s.2⟩ : Current))
      ⟨roleStatement cur.stmt line, true,
        healed || (faultsAlong kvNext kvFaults cur.stmt.kvpairs (roleTokens line)).any Fault.isRepair⟩
      (faultsAlong kvNext kvFaults cur.stmt.kvpairs (roleTokens line)) :=
  (emits_kvPairs (roleTokens line) cur.stmt.kvpairs healed).map _

/-- A line whose role is closed: nothing is repaired in front of the pairs. -/
theorem emits_roleLine_closed {line : Bytes} (hopen : ¬ roleOpen line = true) (cur : Current) :
    Emits (parseRoleLine cur line)
      ⟨roleStatement cur.stmt line, true,
        cur.healed || (faultsAlong kvNext kvFaults cur.stmt.kvpairs (roleTokens line)).any Fault.isRepair⟩
      (faultsAlong kvNext kvFaults cur.stmt.kvpairs (roleTokens line)) := by
  have hclosed : closedRole line = line := by simp [closedRole, hopen]
  have hheal : healRole line cur.healed = pure (line, cur.healed) := by
    unfold healRole
    rw [if_neg hopen]
  have hline : parseRoleLine cur line =
      (roleTokens line).foldlM parseKVPair (cur.stmt.kvpairs, cur.healed) >>= fun s =>
        pure (⟨{ cur.stmt with
          role := Lib.Search.substr (closedRole line) 1 (roleStop line - 1), kvpairs := s.1 },
          true, s.2⟩ : Current) := by
    have hfind := find_closedRole line
    funext mode log
    rw [hclosed] at hfind
    unfold parseRoleLine
    rw [hheal, bind_apply, pure_apply]
    simp only [hfind, roleTokens, hclosed]
    rfl
  rw [hline]
  exact emits_rolePairs cur line cur.healed

theorem emits_roleLine (cur : Current) (line : Bytes) :
    Emits (parseRoleLine cur line)
      ⟨roleStatement cur.stmt line, true,
        cur.healed || (roleFaults line ++
          faultsAlong kvNext kvFaults cur.stmt.kvpairs (roleTokens line)).any Fault.isRepair⟩
      (roleFaults line ++
        faultsAlong kvNext kvFaults cur.stmt.kvpairs (roleTokens line)) := by
  by_cases hopen : roleOpen line = true
  · -- Strict mode stops here with a fault of its own, after `healRole`.
    have hclosed : closedRole line = closeRole line := by simp [closedRole, hopen]
    obtain ⟨repair, hrepair, hflag⟩ := roleFaults_of_open hopen
    refine ⟨fun log => ?_, fun h => absurd (List.append_eq_nil_iff.mp h).1 (by simp [hrepair]),
      fun _ log => ⟨.malformedRole line, ?_⟩⟩
    · have hrun := (emits_rolePairs cur line true).tolerant (log ++ roleFaults line)
      rw [← List.append_assoc]
      unfold parseRoleLine
      rw [bind_ok (healRole_tolerant _ _ hopen)]
      dsimp only
      rw [← hclosed, find_closedRole line]
      refine hrun.trans ?_
      simp [hrepair, hflag]
    · unfold parseRoleLine healRole
      rw [if_pos hopen]
      unfold roleOpen at hopen
      simp only [bind_apply, currentMode, pure_apply, Option.isNone_iff_eq_none.mp hopen, report]
  · have hfaults : roleFaults line = [] := by simp [roleFaults, hopen]
    rw [hfaults, List.nil_append]
    exact emits_roleLine_closed hopen cur

theorem head?_closeQuote (line : Bytes) : (closeQuote line).head? = line.head? := by
  cases line with
  | nil => rfl
  | cons c cs =>
      unfold closeQuote
      split <;> rfl

theorem isRoleLine_closeQuote (line : Bytes) : isRoleLine (closeQuote line) = isRoleLine line := by
  simp [isRoleLine, head?_closeQuote]

theorem isToolLine_of_role {line : Bytes} (h : isRoleLine line = true) :
    isToolLine line = false := by
  simp only [isToolLine, isRoleLine, beq_iff_eq] at h ⊢
  rw [h]
  decide

theorem isToolLine_closeQuote (line : Bytes) : isToolLine (closeQuote line) = isToolLine line := by
  simp [isToolLine, head?_closeQuote]

/-- What a line adds to the statement being read. -/
def lineNext (cur : Current) (line : Bytes) : Current :=
  ⟨lineStatement cur.stmt line, cur.hasRole || isRoleLine line,
    cur.healed || (lineFaults cur.stmt line).any Fault.isRepair⟩

theorem emits_line (cur : Current) (line : Bytes) :
    Emits (parseLine cur line) (lineNext cur line) (lineFaults cur.stmt line) := by
  have hrole := isRoleLine_closeQuote line
  unfold parseLine lineNext lineFaults lineStatement lineTokens
  rw [List.any_append, ← Bool.or_assoc]
  refine (emits_healQuote line cur.healed).bind ?_
  dsimp only
  rw [hrole]
  by_cases h : isRoleLine line = true
  · have hhead : (closeQuote line).head? = some '['.toUInt8 := by
      simpa [isRoleLine, head?_closeQuote] using h
    rw [if_pos hhead, h]
    simpa using emits_roleLine _ (closeQuote line)
  · have hhead : ¬ (closeQuote line).head? = some '['.toUInt8 := by
      simpa [isRoleLine, head?_closeQuote] using h
    have hnot : isRoleLine line = false := by simpa using h
    rw [if_neg hhead, hnot, Bool.or_false]
    by_cases ht : isToolLine (closeQuote line) = true
    · have hbang : (closeQuote line).head? = some '!'.toUInt8 := by
        simpa [isToolLine] using ht
      have htool := (emits_toolCall (closeQuote line)
        (cur.healed || (quoteFaults line).any Fault.isRepair)).map fun s =>
          (⟨{ cur.stmt with toolCalls := cur.stmt.toolCalls ++ [s.1] }, cur.hasRole, s.2⟩ : Current)
      rw [if_pos hbang, ht]
      simpa [faultsAlong] using htool
    · have hbang : ¬ (closeQuote line).head? = some '!'.toUInt8 := by
        simpa [isToolLine] using ht
      have hpairs := (emits_kvPairs (lexSplit (closeQuote line) ' '.toUInt8) cur.stmt.kvpairs
        (cur.healed || (quoteFaults line).any Fault.isRepair)).map fun s =>
          (⟨{ cur.stmt with kvpairs := s.1 }, cur.hasRole, s.2⟩ : Current)
      rw [if_neg hbang]
      simpa [ht, parseKVPairs] using hpairs

/-! ## The body -/

def stepLine (b : Body) (line : Bytes) : Body :=
  let b := b.flush line
  { b with cur := lineNext b.cur line }

/-- What a body line leaves behind; blank lines leave nothing. -/
def bodyNext (b : Body) (rawLine : Bytes) : Body :=
  let line := trimLine rawLine
  if line.isEmpty then b else stepLine b line

def bodyFaults (b : Body) (rawLine : Bytes) : List Fault :=
  let line := trimLine rawLine
  if line.isEmpty then [] else lineFaults (b.flush line).cur.stmt line

theorem emits_bodyLine (b : Body) (rawLine : Bytes) :
    Emits (parseBodyLine b rawLine) (bodyNext b rawLine) (bodyFaults b rawLine) := by
  unfold parseBodyLine bodyNext bodyFaults
  by_cases hempty : (trimLine rawLine).isEmpty = true
  · simp only [hempty, if_true]
    exact Emits.pure b
  · simp only [hempty, if_false, Bool.false_eq_true]
    exact (emits_line (b.flush (trimLine rawLine)).cur (trimLine rawLine)).map fun cur =>
      { b.flush (trimLine rawLine) with cur := cur }

/-! ## The header -/

def Header.setField (h : Header) (key val : Bytes) : Header :=
  if key = ascii "VER" then { h with ver := val }
  else if key = ascii "CHK" then { h with chk := val }
  else if key = ascii "AGT" then { h with agt := val }
  else if key = ascii "UID" then { h with uid := val }
  else if key = ascii "TIM" then { h with tim := val }
  else if key = ascii "REQID" then { h with reqid := val }
  else if key = ascii "FALLBACK" then { h with fallback := val }
  else if key = ascii "HR" then { h with hr := (stoi val).getD 0 }
  else h

def fieldFaults (key val : Bytes) : List Fault :=
  if key = ascii "HR" then
    if (stoi val).isNone then [.invalidHr val] else []
  else if headerKeys.contains key then []
  else [.unknownHeaderKey key]

def headerNext (h : Header) (token : Bytes) : Header :=
  match Lib.Search.find ':'.toUInt8 token with
  | none => h
  | some colon => h.setField (token.take colon) (token.drop (colon + 1))

def headerFaults (token : Bytes) : List Fault :=
  match Lib.Search.find ':'.toUInt8 token with
  | none => [.malformedHeaderToken token]
  | some colon => fieldFaults (token.take colon) (token.drop (colon + 1))

theorem emits_headerToken (h : Header) (token : Bytes) :
    Emits (headerToken h token) (headerNext h token) (headerFaults token) := by
  unfold headerToken headerNext headerFaults
  cases Lib.Search.find ':'.toUInt8 token with
  | none => exact Emits.report_bind _ (Emits.pure h)
  | some colon =>
      dsimp only
      generalize token.take colon = key
      generalize token.drop (colon + 1) = val
      have hset : ∀ {name : Bytes}, name ∈ headerKeys → name ≠ ascii "HR" → ∀ h' : Header,
          Emits (pure h' : Parse Header) h' (fieldFaults name val) := by
        intro name hname hne h'
        rw [fieldFaults, if_neg hne, if_pos (by simpa using hname)]
        exact Emits.pure h'
      unfold Header.setField
      apply Emits.ite (fun hver => hver ▸ hset (by decide) (by decide) _)
      intro hver
      apply Emits.ite (fun hchk => hchk ▸ hset (by decide) (by decide) _)
      intro hchk
      apply Emits.ite (fun hagt => hagt ▸ hset (by decide) (by decide) _)
      intro hagt
      apply Emits.ite (fun huid => huid ▸ hset (by decide) (by decide) _)
      intro huid
      apply Emits.ite (fun htim => htim ▸ hset (by decide) (by decide) _)
      intro htim
      apply Emits.ite (fun hreqid => hreqid ▸ hset (by decide) (by decide) _)
      intro hreqid
      apply Emits.ite (fun hfallback => hfallback ▸ hset (by decide) (by decide) _)
      intro hfallback
      apply Emits.ite
      · intro hhr
        rw [fieldFaults, if_pos hhr]
        cases stoi val with
        | none => exact Emits.report_bind _ (Emits.pure _)
        | some hr => exact Emits.pure _
      · intro hhr
        have hunknown : ¬ headerKeys.contains key = true := by
          simp [headerKeys, hver, hchk, hagt, huid, htim, hreqid, hfallback, hhr]
        rw [fieldFaults, if_neg hhr, if_neg hunknown]
        exact Emits.report_bind _ (Emits.pure h)

def headerTokens (headerLine : Bytes) : List Bytes := lexSplit headerLine ' '.toUInt8

def readHeader (tokens : List Bytes) : Header := tokens.foldl headerNext {}

def tokensFaults (tokens : List Bytes) : List Fault := tokens.flatMap headerFaults

theorem emits_headerTokens (tokens : List Bytes) (h : Header) :
    Emits (tokens.foldlM headerToken h) (tokens.foldl headerNext h) (tokensFaults tokens) := by
  have hfaults : ∀ h : Header,
      faultsAlong headerNext (fun _ token => headerFaults token) h tokens = tokensFaults tokens := by
    induction tokens with
    | nil => exact fun _ => rfl
    | cons token tokens ih =>
        intro h
        rw [faultsAlong, ih, tokensFaults, tokensFaults, List.flatMap_cons]
  rw [← hfaults h]
  exact Emits.foldlM emits_headerToken tokens h

/-! ## The frame -/

/-- The header line with its continuations, and the body lines. -/
def frameParts (payload : Bytes) : Option (Bytes × List Bytes) :=
  match lines payload with
  | [] => none
  | line :: rest => some (foldHeader (trim line) rest)

theorem lines_of_frameParts {payload : Bytes} {parts : Bytes × List Bytes}
    (h : frameParts payload = some parts) :
    ∃ line rest, lines payload = line :: rest ∧ foldHeader (trim line) rest = parts := by
  unfold frameParts at h
  cases hlines : lines payload with
  | nil =>
      rw [hlines] at h
      contradiction
  | cons line rest =>
      rw [hlines] at h
      exact ⟨line, rest, rfl, Option.some.inj h⟩

def readBody (bodyLines : List Bytes) : Body := bodyLines.foldl bodyNext {}

def readParts (payload : Bytes) (parts : Bytes × List Bytes) : AST :=
  let b := (readBody parts.2).close
  { header := readHeader (headerTokens parts.1)
    statements := b.statements
    healedDraft := b.healedDraft
    recoveryAttempted := b.recoveryAttempted
    rawFrame := payload }

def partsFaults (parts : Bytes × List Bytes) : List Fault :=
  tokensFaults (headerTokens parts.1) ++ faultsAlong bodyNext bodyFaults {} parts.2

/-- The frame as the tolerant parser reads it, and its log. -/
def readFrame (maxSize : Nat) (payload : Bytes) : AST × List Fault :=
  if maxSize < payload.length then ({}, [.oversize])
  else
    match frameParts payload with
    | none => ({ rawFrame := payload }, [.emptyPayload])
    | some parts => (readParts payload parts, partsFaults parts)

theorem readFrame_parts {maxSize : Nat} {payload : Bytes} {parts : Bytes × List Bytes}
    (hsize : payload.length ≤ maxSize) (hparts : frameParts payload = some parts) :
    readFrame maxSize payload = (readParts payload parts, partsFaults parts) := by
  unfold readFrame
  rw [if_neg (Nat.not_lt.mpr hsize), hparts]

/-- A frame with nothing in its log is neither too long nor empty. -/
theorem readFrame_of_clean {maxSize : Nat} {payload : Bytes} (h : (readFrame maxSize payload).2 = []) :
    payload.length ≤ maxSize ∧ ∃ parts, frameParts payload = some parts ∧ partsFaults parts = [] ∧
      (readFrame maxSize payload).1 = readParts payload parts := by
  unfold readFrame at h ⊢
  split at h
  · contradiction
  · rename_i hsize
    refine ⟨Nat.le_of_not_lt hsize, ?_⟩
    rw [if_neg hsize]
    cases hparts : frameParts payload with
    | none =>
        rw [hparts] at h
        contradiction
    | some parts =>
        rw [hparts] at h
        exact ⟨parts, rfl, h, rfl⟩

theorem parseHeader_eq (headerLine : Bytes) :
    parseHeader headerLine =
      ((headerTokens headerLine).foldlM headerToken {} >>= fun h =>
        requireFields h >>= fun _ => pure h) := rfl

theorem emits_requireFields {h : Header} (hcomplete : h.complete = true) :
    Emits (requireFields h) () [] := by
  unfold requireFields
  refine Emits.mode (fun log => ?_) (fun _ log => ?_) (fun hne => absurd rfl hne)
  · rw [List.append_nil]
    rfl
  · simp only [hcomplete, Bool.true_eq_false, if_false, if_true]
    rfl

theorem requireFields_tolerant (h : Header) (log : List Fault) :
    requireFields h .tolerant log = .ok ((), log) := rfl

theorem requireFields_strict {h : Header} (hmissing : h.complete = false) (log : List Fault) :
    requireFields h .strict log = .error .missingHeaderFields := by
  unfold requireFields
  rw [bind_apply]
  simp only [currentMode, hmissing, if_true]
  rfl

theorem parseFrame_none {maxSize : Nat} {payload : Bytes} (hsize : payload.length ≤ maxSize)
    (hparts : frameParts payload = none) :
    parseFrame maxSize payload = (report .emptyPayload >>= fun _ => pure { rawFrame := payload }) := by
  unfold frameParts at hparts
  unfold parseFrame
  rw [if_neg (Nat.not_lt.mpr hsize)]
  cases hlines : lines payload with
  | nil => rfl
  | cons line rest =>
      rw [hlines] at hparts
      contradiction

theorem parseFrame_parts {maxSize : Nat} {payload : Bytes} {parts : Bytes × List Bytes}
    (hsize : payload.length ≤ maxSize) (hparts : frameParts payload = some parts) :
    parseFrame maxSize payload =
      (parseHeader parts.1 >>= fun header =>
        parts.2.foldlM parseBodyLine {} >>= fun b =>
          pure { header := header
                 statements := b.close.statements
                 healedDraft := b.close.healedDraft
                 recoveryAttempted := b.close.recoveryAttempted
                 rawFrame := payload }) := by
  obtain ⟨line, rest, hlines, rfl⟩ := lines_of_frameParts hparts
  unfold parseFrame
  rw [if_neg (Nat.not_lt.mpr hsize), hlines]

end LlmTop
