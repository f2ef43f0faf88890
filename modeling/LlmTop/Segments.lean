import LlmTop.ParserModes

/-!
# Statements and their own lines

The body of a frame cut in front of every role line, and for each segment what
its text alone says: which of its lines are repaired, where a key comes twice
and where something is dropped.
-/
namespace LlmTop
open Lib.Faults

/-! ## Defects of the text -/

def tokenKeys (split : Bytes → Option (Bytes × Bytes)) (tokens : List Bytes) : List Bytes :=
  tokens.filterMap fun token => (split token).map Prod.fst

def lineKeys (line : Bytes) : List Bytes := tokenKeys splitToken (lineTokens line)

/-- The arguments of a line; only a tool line has any. -/
def lineArgs (line : Bytes) : Option (List Bytes) :=
  if isToolLine line then toolArgs (closeQuote line) else some []

/-- The line is closed by the parser, or names one tool argument twice. -/
def lineRepaired (line : Bytes) : Bool :=
  quoteOpen line || (isRoleLine line && roleOpen (closeQuote line)) ||
    (lineArgs line).any fun args => !decide (tokenKeys splitArg args).Nodup

/-- A token, an argument or the whole argument list of the line is dropped. -/
def lineDrops (line : Bytes) : Bool :=
  (lineTokens line).any (fun token => (splitToken token).isNone) ||
    match lineArgs line with
    | none => true
    | some args => args.any fun arg => (splitArg arg).isNone

/-- Own lines of a statement.  `inherited` is a repair in front of the first
role line that no statement of its own has taken. -/
structure Segment where
  lines : List Bytes
  inherited : Bool

namespace Segment

def repaired (s : Segment) : Bool :=
  s.lines.any lineRepaired || !decide (s.lines.flatMap lineKeys).Nodup

def drops (s : Segment) : Bool := s.lines.any lineDrops

def quarantined (s : Segment) : Bool := s.inherited || s.repaired

def statement (s : Segment) : Statement := s.lines.foldl lineStatement Statement.empty

/-- What the parser logs on the segment's own lines. -/
def faults (s : Segment) : List Fault :=
  faultsAlong lineStatement lineFaults Statement.empty s.lines

end Segment

/-- Lines in front of the first role line make a statement of their own when
one of them has a key or a tool call. -/
def contributes (lead : List Bytes) : Bool :=
  lead.any fun line => isToolLine line || !(lineKeys line).isEmpty

def segmentsOf (contentLines : List Bytes) : List Segment :=
  let (lead, groups) := Lib.Split.cutBefore isRoleLine contentLines
  if contributes lead then ⟨lead, false⟩ :: groups.map (⟨·, false⟩)
  else
    match groups with
    | [] => []
    | group :: groups => ⟨group, lead.any quoteOpen⟩ :: groups.map (⟨·, false⟩)

/-- The lines of a body that are not blank, trimmed. -/
def contentLines (bodyLines : List Bytes) : List Bytes :=
  (bodyLines.map trimLine).filter fun line => !line.isEmpty

def segments (maxSize : Nat) (payload : Bytes) : List Segment :=
  if maxSize < payload.length then []
  else ((frameParts payload).map fun parts => segmentsOf (contentLines parts.2)).getD []

/-! ## Faults and the text -/

section Pairs

variable {split : Bytes → Option (Bytes × Bytes)} {duplicate malformed : Bytes → Fault}

section Token

variable {token : Bytes}

theorem tokenKeys_none (h : split token = none) (tokens : List Bytes) :
    tokenKeys split (token :: tokens) = tokenKeys split tokens := by
  simp [tokenKeys, h]

theorem tokenKeys_some {pair : Bytes × Bytes} (h : split token = some pair) (tokens : List Bytes) :
    tokenKeys split (token :: tokens) = pair.1 :: tokenKeys split tokens := by
  simp [tokenKeys, h]

theorem pairNext_none (h : split token = none) (pairs : OrderedMap) :
    pairNext split pairs token = pairs := by
  simp [pairNext, h]

theorem keysOf_pairNext {pair : Bytes × Bytes} (h : split token = some pair) (pairs : OrderedMap) :
    keysOf (pairNext split pairs token).data =
      if pair.1 ∈ keysOf pairs.data then keysOf pairs.data else keysOf pairs.data ++ [pair.1] := by
  simp [pairNext, h, OrderedMap.keysOf_set]

theorem pairFaults_none (h : split token = none) (pairs : OrderedMap) :
    pairFaults split duplicate malformed pairs token = [malformed token] := by
  simp [pairFaults, h]

theorem pairFaults_some {pair : Bytes × Bytes} (h : split token = some pair) (pairs : OrderedMap) :
    pairFaults split duplicate malformed pairs token =
      if pair.1 ∈ keysOf pairs.data then [duplicate pair.1] else [] := by
  simp [pairFaults, h, OrderedMap.count_pos]

end Token

theorem keysOf_pairs {pairs : OrderedMap} {tokens : List Bytes}
    (h : (keysOf pairs.data ++ tokenKeys split tokens).Nodup) :
    keysOf (tokens.foldl (pairNext split) pairs).data =
      keysOf pairs.data ++ tokenKeys split tokens := by
  induction tokens generalizing pairs with
  | nil => simp [tokenKeys]
  | cons token tokens ih =>
      rw [List.foldl_cons]
      cases hsplit : split token with
      | none =>
          rw [tokenKeys_none hsplit] at h ⊢
          rw [pairNext_none hsplit]
          exact ih h
      | some pair =>
          rw [tokenKeys_some hsplit] at h ⊢
          have hnew : pair.1 ∉ keysOf pairs.data := by
            intro hmem
            exact (List.nodup_append.mp h).2.2 _ hmem _ List.mem_cons_self rfl
          have hset : keysOf (pairNext split pairs token).data = keysOf pairs.data ++ [pair.1] := by
            rw [keysOf_pairNext hsplit, if_neg hnew]
          rw [ih (by rwa [hset, List.append_assoc]), hset, List.append_assoc]
          rfl

/-- A duplicate is logged exactly when a key comes twice. -/
theorem pairs_repaired (hdup : ∀ key, (duplicate key).isRepair = true)
    (hmal : ∀ token, (malformed token).isRepair = false) (pairs : OrderedMap)
    (tokens : List Bytes) :
    (faultsAlong (pairNext split) (pairFaults split duplicate malformed) pairs tokens).any
        Fault.isRepair =
      !decide (keysOf pairs.data ++ tokenKeys split tokens).Nodup := by
  induction tokens generalizing pairs with
  | nil => simp [faultsAlong, tokenKeys, pairs.distinct]
  | cons token tokens ih =>
      rw [faultsAlong, List.any_append, ih]
      cases hsplit : split token with
      | none =>
          rw [tokenKeys_none hsplit, pairNext_none hsplit, pairFaults_none hsplit]
          simp [hmal]
      | some pair =>
          rw [tokenKeys_some hsplit, keysOf_pairNext hsplit, pairFaults_some hsplit]
          by_cases hmem : pair.1 ∈ keysOf pairs.data
          · have htwice : ¬ (keysOf pairs.data ++ pair.1 :: tokenKeys split tokens).Nodup := by
              intro h
              exact (List.nodup_append.mp h).2.2 _ hmem _ List.mem_cons_self rfl
            simp [hmem, hdup, htwice]
          · rw [if_neg hmem, if_neg hmem, List.append_assoc]
            rfl

theorem pairs_drop (hdup : ∀ key, (duplicate key).isRepair = true)
    (hmal : ∀ token, (malformed token).isRepair = false) (pairs : OrderedMap)
    (tokens : List Bytes) :
    (faultsAlong (pairNext split) (pairFaults split duplicate malformed) pairs tokens).any
        (fun fault => !fault.isRepair) =
      tokens.any fun token => (split token).isNone := by
  induction tokens generalizing pairs with
  | nil => rfl
  | cons token tokens ih =>
      rw [faultsAlong, List.any_append, ih, List.any_cons]
      congr 1
      unfold pairFaults
      cases split token with
      | none => simp [hmal]
      | some pair =>
          dsimp only
          split <;> simp [hdup]

end Pairs

theorem lineTokens_of_tool {line : Bytes} (h : isToolLine line = true) : lineTokens line = [] := by
  have hrole : isRoleLine (closeQuote line) = false := by
    rw [isRoleLine_closeQuote]
    simp only [isToolLine, isRoleLine, beq_iff_eq] at h ⊢
    rw [h]
    decide
  have htool : isToolLine (closeQuote line) = true := by rw [isToolLine_closeQuote, h]
  simp [lineTokens, hrole, htool]

theorem lineStatement_kvpairs (stmt : Statement) (line : Bytes) :
    (lineStatement stmt line).kvpairs = (lineTokens line).foldl kvNext stmt.kvpairs := by
  unfold lineStatement
  dsimp only
  split
  · rename_i hrole
    simp [roleStatement, lineTokens, hrole]
  · split
    · rename_i htool
      rw [isToolLine_closeQuote] at htool
      simp [lineTokens_of_tool htool]
    · rfl

theorem toolFaults_repaired (line : Bytes) :
    (toolFaults line).any Fault.isRepair =
      (toolArgs line).any fun args => !decide (tokenKeys splitArg args).Nodup := by
  unfold toolFaults
  cases toolArgs line with
  | none => rfl
  | some args =>
      rw [Option.any_some]
      exact pairs_repaired (fun _ => rfl) (fun _ => rfl) OrderedMap.empty args

theorem toolFaults_drop (line : Bytes) :
    (toolFaults line).any (fun fault => !fault.isRepair) =
      match toolArgs line with
      | none => true
      | some args => args.any fun arg => (splitArg arg).isNone := by
  unfold toolFaults
  cases toolArgs line with
  | none => rfl
  | some args => exact pairs_drop (fun _ => rfl) (fun _ => rfl) OrderedMap.empty args

/-- The repairs on one line: its own, and a key the statement already has. -/
theorem lineFaults_repaired (stmt : Statement) (line : Bytes) :
    (lineFaults stmt line).any Fault.isRepair =
      (lineRepaired line || !decide (keysOf stmt.kvpairs.data ++ lineKeys line).Nodup) := by
  have hquote : (quoteFaults line).any Fault.isRepair = quoteOpen line := by
    unfold quoteFaults
    cases quoteOpen line <;> rfl
  have hpairs : (faultsAlong kvNext kvFaults stmt.kvpairs (lineTokens line)).any Fault.isRepair =
      !decide (keysOf stmt.kvpairs.data ++ lineKeys line).Nodup :=
    pairs_repaired (fun _ => rfl) (fun _ => rfl) _ _
  unfold lineFaults lineRepaired lineArgs
  rw [List.any_append, List.any_append, hquote, hpairs, Bool.or_assoc, Bool.or_assoc,
    isRoleLine_closeQuote, isToolLine_closeQuote]
  congr 1
  rw [← Bool.or_assoc]
  congr 1
  cases hrole : isRoleLine line with
  | true =>
      rw [isToolLine_of_role hrole]
      cases hopen : roleOpen (closeQuote line) with
      | false => simp [roleFaults, hopen, tokenKeys]
      | true =>
          obtain ⟨repair, hrepair, hflag⟩ := roleFaults_of_open hopen
          simp [hrepair, hflag]
  | false =>
      cases htool : isToolLine line with
      | false => simp [tokenKeys]
      | true => simpa using toolFaults_repaired (closeQuote line)

theorem lineFaults_drop (stmt : Statement) (line : Bytes) :
    (lineFaults stmt line).any (fun fault => !fault.isRepair) = lineDrops line := by
  have hquote : (quoteFaults line).any (fun fault => !fault.isRepair) = false := by
    unfold quoteFaults
    cases quoteOpen line <;> rfl
  have hpairs : (faultsAlong kvNext kvFaults stmt.kvpairs (lineTokens line)).any
      (fun fault => !fault.isRepair) = (lineTokens line).any fun token =>
        (splitToken token).isNone :=
    pairs_drop (fun _ => rfl) (fun _ => rfl) _ _
  unfold lineFaults lineDrops lineArgs
  rw [List.any_append, List.any_append, hquote, hpairs, Bool.false_or, Bool.or_comm,
    isRoleLine_closeQuote, isToolLine_closeQuote]
  congr 1
  cases hrole : isRoleLine line with
  | true =>
      rw [isToolLine_of_role hrole]
      cases hopen : roleOpen (closeQuote line) with
      | false => simp [roleFaults, hopen]
      | true =>
          obtain ⟨repair, hrepair, hflag⟩ := roleFaults_of_open hopen
          simp [hrepair, hflag]
  | false =>
      cases htool : isToolLine line with
      | false => simp
      | true => simpa using toolFaults_drop (closeQuote line)

/-! ## A whole segment -/

theorem run_repaired (stmt : Statement) (lines : List Bytes) :
    (faultsAlong lineStatement lineFaults stmt lines).any Fault.isRepair =
      (lines.any lineRepaired ||
        !decide (keysOf stmt.kvpairs.data ++ lines.flatMap lineKeys).Nodup) := by
  induction lines generalizing stmt with
  | nil => simp [faultsAlong, stmt.kvpairs.distinct]
  | cons line lines ih =>
      rw [faultsAlong, List.any_append, ih, lineFaults_repaired, List.any_cons,
        List.flatMap_cons, ← List.append_assoc]
      by_cases hkeys : (keysOf stmt.kvpairs.data ++ lineKeys line).Nodup
      · have hnext : keysOf (lineStatement stmt line).kvpairs.data =
            keysOf stmt.kvpairs.data ++ lineKeys line := by
          rw [lineStatement_kvpairs]
          exact keysOf_pairs hkeys
        rw [hnext]
        simp [hkeys, Bool.or_assoc]
      · have hall : ¬ (keysOf stmt.kvpairs.data ++ lineKeys line ++
            lines.flatMap lineKeys).Nodup :=
          fun h => hkeys (List.nodup_append.mp h).1
        rw [decide_eq_false hkeys, decide_eq_false hall]
        simp

theorem run_drop (stmt : Statement) (lines : List Bytes) :
    (faultsAlong lineStatement lineFaults stmt lines).any (fun fault => !fault.isRepair) =
      lines.any lineDrops := by
  induction lines generalizing stmt with
  | nil => rfl
  | cons line lines ih => rw [faultsAlong, List.any_append, ih, lineFaults_drop, List.any_cons]

theorem Segment.any_faults (s : Segment) : s.faults.any Fault.isRepair = s.repaired :=
  run_repaired Statement.empty s.lines

theorem Segment.faults_eq_nil {s : Segment} :
    s.faults = [] ↔ s.drops = false ∧ s.repaired = false := by
  have hdrops : s.faults.any (fun fault => !fault.isRepair) = s.drops :=
    run_drop Statement.empty s.lines
  rw [← hdrops, ← s.any_faults]
  constructor
  · intro h
    rw [h]
    exact ⟨rfl, rfl⟩
  · rintro ⟨hkept, hrepaired⟩
    cases hfaults : s.faults with
    | nil => rfl
    | cons fault rest =>
        rw [hfaults, List.any_cons, Bool.or_eq_false_iff] at hkept hrepaired
        simp [hrepaired.1] at hkept

theorem foldl_lineNext (cur : Current) (lines : List Bytes) :
    lines.foldl lineNext cur =
      ⟨lines.foldl lineStatement cur.stmt, cur.hasRole || lines.any isRoleLine,
        cur.healed || (faultsAlong lineStatement lineFaults cur.stmt lines).any Fault.isRepair⟩ := by
  induction lines generalizing cur with
  | nil => simp [faultsAlong]
  | cons line lines ih =>
      rw [List.foldl_cons, ih, List.foldl_cons, faultsAlong, List.any_append, List.any_cons]
      simp [lineNext, Bool.or_assoc]

end LlmTop
