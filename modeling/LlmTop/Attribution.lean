import LlmTop.Segments

/-!
# Trust and quarantine

The tolerant parser builds one statement from each segment.  Where it puts the
statement, and what it logs, is read off the segment's text.
-/
namespace LlmTop
open Lib.Faults

/-! ## Where the parser puts a segment -/

/-- The three fields of the AST that `push_current_stmt` writes. -/
structure Placed where
  statements : List Statement
  healedDraft : List Statement
  recoveryAttempted : Bool

def Body.placed (b : Body) : Placed := ⟨b.statements, b.healedDraft, b.recoveryAttempted⟩

def Placed.push (p : Placed) (stmt : Statement) (healed : Bool) : Placed :=
  if healed then ⟨p.statements, p.healedDraft ++ [stmt], true⟩
  else ⟨p.statements ++ [stmt], p.healedDraft, p.recoveryAttempted⟩

def Placed.pushCur (p : Placed) (cur : Current) : Placed := p.push cur.stmt cur.healed

theorem placed_pushCurrentStmt (b : Body) : b.pushCurrentStmt.placed = b.placed.pushCur b.cur := by
  unfold Body.pushCurrentStmt Placed.pushCur Placed.push
  split <;> rfl

theorem foldl_pairNext_data {split : Bytes → Option (Bytes × Bytes)} {pairs : OrderedMap}
    (tokens : List Bytes) (h : pairs.data ≠ []) :
    (tokens.foldl (pairNext split) pairs).data ≠ [] := by
  induction tokens generalizing pairs with
  | nil => exact h
  | cons token tokens ih =>
      refine ih ?_
      unfold pairNext
      cases split token with
      | none => exact h
      | some pair =>
          intro hnil
          have hkeys := OrderedMap.keysOf_set pairs pair.1 (unquoteAndUnescape pair.2)
          rw [hnil] at hkeys
          split at hkeys
          · exact h (List.map_eq_nil_iff.mp hkeys.symm)
          · simp [keysOf] at hkeys

theorem Current.started_next {cur : Current} (line : Bytes) (h : cur.started = true) :
    (lineNext cur line).started = true := by
  simp only [Current.started, Bool.or_eq_true, Bool.not_eq_true', List.isEmpty_eq_false_iff] at h ⊢
  rcases h with (hrole | hpairs) | htools
  · exact Or.inl (Or.inl (by simp [lineNext, hrole]))
  · refine Or.inl (Or.inr ?_)
    change (lineStatement cur.stmt line).kvpairs.data ≠ []
    rw [lineStatement_kvpairs]
    exact foldl_pairNext_data _ hpairs
  · refine Or.inr ?_
    change (lineStatement cur.stmt line).toolCalls ≠ []
    unfold lineStatement
    dsimp only
    split
    · exact htools
    · split
      · simp
      · exact htools

theorem Current.started_run (lines : List Bytes) {cur : Current} (h : cur.started = true) :
    (lines.foldl lineNext cur).started = true := by
  induction lines generalizing cur with
  | nil => exact h
  | cons line lines ih => exact ih (Current.started_next line h)

/-- A line that ends no statement only moves the reading state. -/
theorem stepLine_kept {b : Body} {line : Bytes} (h : b.flush line = b) :
    (stepLine b line).cur = lineNext b.cur line ∧ (stepLine b line).placed = b.placed := by
  constructor
  · simp only [stepLine, h]
  · simp only [stepLine, h]
    rfl

/-- From a statement that is being read: its remaining lines end it, and every
later group is read afresh. -/
theorem run_started (lines : List Bytes) {b : Body} (h : b.cur.started = true) :
    (lines.foldl stepLine b).close.placed =
      (Lib.Split.cutBefore isRoleLine lines).2.foldl
        (fun p group => p.pushCur (group.foldl lineNext {}))
        (b.placed.pushCur ((Lib.Split.cutBefore isRoleLine lines).1.foldl lineNext b.cur)) := by
  induction lines generalizing b with
  | nil =>
      change b.close.placed = b.placed.pushCur b.cur
      unfold Body.close
      rw [if_pos h, placed_pushCurrentStmt]
  | cons line lines ih =>
      rw [List.foldl_cons]
      unfold Lib.Split.cutBefore
      cases hrole : isRoleLine line with
      | true =>
          have hflush : b.flush line =
              { b.pushCurrentStmt with cur := { hasRole := b.cur.hasRole } } := by
            unfold Body.flush
            rw [hrole, h, Bool.and_self, if_pos rfl]
          have hstarted : (stepLine b line).cur.started = true := by
            simp [stepLine, lineNext, Current.started, hrole]
          have hplaced : (stepLine b line).placed = b.placed.pushCur b.cur := by
            rw [← placed_pushCurrentStmt]
            simp only [stepLine, hflush]
            rfl
          rw [ih hstarted, hplaced]
          simp only [if_true, List.foldl_nil, List.foldl_cons]
          congr 2
          simp [foldl_lineNext, stepLine, hflush, lineNext, hrole]
      | false =>
          obtain ⟨hcur, hplaced⟩ := stepLine_kept (show b.flush line = b by simp [Body.flush, hrole])
          rw [ih (by rw [hcur]; exact Current.started_next line h), hplaced, hcur]
          simp

/-- In front of the first statement nothing is pushed; a repair that no key or
tool call follows stays with the reading state. -/
theorem run_unstarted (lines : List Bytes) {b : Body} (h : b.cur.started = false) :
    (lines.foldl stepLine b).close.placed =
      (if ((Lib.Split.cutBefore isRoleLine lines).1.foldl lineNext b.cur).started then
        (Lib.Split.cutBefore isRoleLine lines).2.foldl
          (fun p group => p.pushCur (group.foldl lineNext {}))
          (b.placed.pushCur ((Lib.Split.cutBefore isRoleLine lines).1.foldl lineNext b.cur))
      else
        match (Lib.Split.cutBefore isRoleLine lines).2 with
        | [] => b.placed
        | group :: groups =>
            groups.foldl (fun p group => p.pushCur (group.foldl lineNext {}))
              (b.placed.pushCur
                (group.foldl lineNext
                  ((Lib.Split.cutBefore isRoleLine lines).1.foldl lineNext b.cur)))) := by
  induction lines generalizing b with
  | nil =>
      change b.close.placed = if b.cur.started then _ else b.placed
      rw [Body.close, h]
      rfl
  | cons line lines ih =>
      obtain ⟨hcur, hplaced⟩ := stepLine_kept (show b.flush line = b by simp [Body.flush, h])
      rw [List.foldl_cons]
      unfold Lib.Split.cutBefore
      cases hrole : isRoleLine line with
      | true =>
          have hstarted : (stepLine b line).cur.started = true := by
            simp [hcur, lineNext, Current.started, hrole]
          rw [run_started lines hstarted, hplaced, hcur]
          simp [h]
      | false =>
          cases hnext : (stepLine b line).cur.started with
          | true =>
              have hlead := Current.started_run (Lib.Split.cutBefore isRoleLine lines).1 hnext
              rw [run_started lines hnext, hplaced, hcur]
              rw [hcur] at hlead
              simp [hlead]
          | false =>
              rw [ih hnext, hplaced, hcur]
              simp

/-! ## The lead -/

theorem foldl_kvNext_eq {tokens : List Bytes} {pairs : OrderedMap}
    (h : tokenKeys splitToken tokens = []) : tokens.foldl kvNext pairs = pairs := by
  induction tokens with
  | nil => rfl
  | cons token tokens ih =>
      cases hsplit : splitToken token with
      | none =>
          rw [tokenKeys_none hsplit] at h
          rw [List.foldl_cons, kvNext, pairNext_none hsplit]
          exact ih h
      | some pair =>
          rw [tokenKeys_some hsplit] at h
          contradiction

/-- Without a key or a tool call the lead leaves the empty statement. -/
theorem lead_statement {lead : List Bytes} (hrole : ∀ line ∈ lead, isRoleLine line = false)
    (h : contributes lead = false) :
    lead.foldl lineStatement Statement.empty = Statement.empty := by
  induction lead with
  | nil => rfl
  | cons line lead ih =>
      simp only [contributes, List.any_cons, Bool.or_eq_false_iff, Bool.not_eq_false',
        List.isEmpty_iff] at h
      have hline := hrole line (by simp)
      have hstmt : lineStatement Statement.empty line = Statement.empty := by
        unfold lineStatement
        simp only [isRoleLine_closeQuote, isToolLine_closeQuote, hline, h.1.1, Bool.false_eq_true,
          if_false]
        rw [foldl_kvNext_eq h.1.2]
      rw [List.foldl_cons, hstmt]
      exact ih (fun l hl => hrole l (by simp [hl])) h.2

theorem foldl_kvNext_ne {tokens : List Bytes} {pairs : OrderedMap}
    (h : tokenKeys splitToken tokens ≠ []) : (tokens.foldl kvNext pairs).data ≠ [] := by
  induction tokens generalizing pairs with
  | nil => exact absurd rfl h
  | cons token tokens ih =>
      cases hsplit : splitToken token with
      | none =>
          rw [tokenKeys_none hsplit] at h
          exact ih h
      | some pair =>
          refine foldl_pairNext_data tokens ?_
          intro hnil
          have hfind := OrderedMap.find_set_self pairs pair.1 (unquoteAndUnescape pair.2)
          have hset : kvNext pairs token =
              pairs.set pair.1 (unquoteAndUnescape pair.2) := by simp [kvNext, pairNext, hsplit]
          rw [← hset, OrderedMap.find_eq_lookup, hnil] at hfind
          contradiction

theorem started_of_contributes {lead : List Bytes} (cur : Current)
    (hrole : ∀ line ∈ lead, isRoleLine line = false) (h : contributes lead = true) :
    (lead.foldl lineNext cur).started = true := by
  induction lead generalizing cur with
  | nil => contradiction
  | cons line lead ih =>
      simp only [contributes, List.any_cons, Bool.or_eq_true, Bool.not_eq_true',
        List.isEmpty_eq_false_iff] at h
      have hline := hrole line (by simp)
      rw [List.foldl_cons]
      rcases h with (htool | hkeys) | hrest
      · refine Current.started_run lead ?_
        simp [lineNext, lineStatement, Current.started, isRoleLine_closeQuote,
          isToolLine_closeQuote, hline, htool]
      · refine Current.started_run lead ?_
        have hpairs : (lineStatement cur.stmt line).kvpairs.data ≠ [] := by
          rw [lineStatement_kvpairs]
          exact foldl_kvNext_ne hkeys
        simp [lineNext, Current.started, hpairs]
      · exact ih _ (fun l hl => hrole l (by simp [hl])) hrest

theorem lead_started {lead : List Bytes} (hrole : ∀ line ∈ lead, isRoleLine line = false) :
    (lead.foldl lineNext {}).started = contributes lead := by
  cases h : contributes lead with
  | true => exact started_of_contributes {} hrole h
  | false =>
      have hany : lead.any isRoleLine = false := by simpa using hrole
      rw [foldl_lineNext, Current.started, lead_statement hrole h, hany]
      rfl

/-- All that such a lead can hand on is a quote that the parser closed. -/
theorem lead_left {lead : List Bytes} (hrole : ∀ line ∈ lead, isRoleLine line = false)
    (h : contributes lead = false) :
    lead.foldl lineNext {} = { healed := lead.any quoteOpen } := by
  have hline : ∀ line ∈ lead, isToolLine line = false ∧ lineKeys line = [] := by
    simpa [contributes] using h
  have hkeys : lead.flatMap lineKeys = [] :=
    List.flatMap_eq_nil_iff.mpr fun line hmem => (hline line hmem).2
  have hown : ∀ line ∈ lead, lineRepaired line = quoteOpen line := by
    intro line hmem
    simp [lineRepaired, lineArgs, hrole line hmem, (hline line hmem).1, tokenKeys]
  have hlines : lead.any lineRepaired = lead.any quoteOpen := by
    rw [Bool.eq_iff_iff, List.any_eq_true, List.any_eq_true]
    exact exists_congr fun line => and_congr_right fun hmem => by rw [hown line hmem]
  have hany : lead.any isRoleLine = false := by simpa using hrole
  rw [foldl_lineNext, run_repaired, lead_statement hrole h, hkeys, hlines, hany]
  simp [Statement.empty, OrderedMap.empty, keysOf]

/-! ## The parse -/

/-- A segment goes where its own text sends it. -/
def Placed.pushSegment (p : Placed) (s : Segment) : Placed := p.push s.statement s.quarantined

theorem foldl_pushSegment (segs : List Segment) (p : Placed) :
    segs.foldl Placed.pushSegment p =
      ⟨p.statements ++ (segs.filter (!·.quarantined)).map Segment.statement,
        p.healedDraft ++ (segs.filter (·.quarantined)).map Segment.statement,
        p.recoveryAttempted || segs.any Segment.quarantined⟩ := by
  induction segs generalizing p with
  | nil => simp
  | cons s segs ih =>
      rw [List.foldl_cons, ih]
      cases hs : s.quarantined <;> simp [Placed.pushSegment, Placed.push, hs]

theorem pushCur_group (p : Placed) (group : List Bytes) (inherited : Bool) :
    p.pushCur (group.foldl lineNext { healed := inherited }) = p.pushSegment ⟨group, inherited⟩ := by
  have hfaults := Segment.any_faults ⟨group, inherited⟩
  unfold Placed.pushCur Placed.pushSegment Segment.quarantined
  rw [foldl_lineNext, ← hfaults]
  rfl

theorem foldl_pushCur (groups : List (List Bytes)) (p : Placed) :
    groups.foldl (fun p group => p.pushCur (group.foldl lineNext {})) p =
      (groups.map (⟨·, false⟩)).foldl Placed.pushSegment p := by
  rw [List.foldl_map]
  congr 1
  funext p group
  exact pushCur_group p group false

theorem foldl_bodyNext (bodyLines : List Bytes) (b : Body) :
    bodyLines.foldl bodyNext b = (contentLines bodyLines).foldl stepLine b := by
  unfold contentLines
  induction bodyLines generalizing b with
  | nil => rfl
  | cons line rest ih =>
      rw [List.foldl_cons, ih, List.map_cons, List.filter_cons]
      unfold bodyNext
      dsimp only
      cases (trimLine line).isEmpty <;> rfl

theorem readBody_placed (bodyLines : List Bytes) :
    (readBody bodyLines).close.placed =
      (segmentsOf (contentLines bodyLines)).foldl Placed.pushSegment ⟨[], [], false⟩ := by
  have hrole := Lib.Split.cutBefore_lead isRoleLine (contentLines bodyLines)
  rw [readBody, foldl_bodyNext, run_unstarted _ rfl, lead_started hrole]
  unfold segmentsOf
  dsimp only
  cases hlead : contributes (Lib.Split.cutBefore isRoleLine (contentLines bodyLines)).1 with
  | true =>
      rw [if_pos rfl, if_pos rfl, foldl_pushCur, pushCur_group, List.foldl_cons]
      rfl
  | false =>
      rw [if_neg Bool.false_ne_true, if_neg Bool.false_ne_true, lead_left hrole hlead]
      cases (Lib.Split.cutBefore isRoleLine (contentLines bodyLines)).2 with
      | nil => rfl
      | cons group groups =>
          dsimp only
          rw [foldl_pushCur, pushCur_group, List.foldl_cons]
          rfl

/-! ## The log -/

def stepFaults (b : Body) (line : Bytes) : List Fault :=
  lineFaults (b.flush line).cur.stmt line

theorem faultsAlong_bodyNext (bodyLines : List Bytes) (b : Body) :
    faultsAlong bodyNext bodyFaults b bodyLines =
      faultsAlong stepLine stepFaults b (contentLines bodyLines) := by
  unfold contentLines
  induction bodyLines generalizing b with
  | nil => rfl
  | cons line rest ih =>
      rw [faultsAlong, ih, List.map_cons, List.filter_cons]
      unfold bodyNext bodyFaults
      dsimp only
      cases (trimLine line).isEmpty <;> rfl

/-- A role line finds the empty statement, flushed or not. -/
theorem flush_stmt {b : Body} (h : b.cur.started = true ∨ b.cur.stmt = .empty) (line : Bytes) :
    (b.flush line).cur.stmt = if isRoleLine line then .empty else b.cur.stmt := by
  unfold Body.flush
  cases hrole : isRoleLine line with
  | false => rfl
  | true =>
      cases hstarted : b.cur.started with
      | true => rfl
      | false => simpa [hstarted] using h

theorem lineNext_started_or_empty {cur : Current} {line : Bytes}
    (hrole : isRoleLine line = false) (h : cur.started = true ∨ cur.stmt = .empty) :
    (lineNext cur line).started = true ∨ (lineNext cur line).stmt = .empty := by
  rcases h with hstarted | hempty
  · exact Or.inl (Current.started_next line hstarted)
  · have hone : ∀ l ∈ [line], isRoleLine l = false := by simpa using hrole
    cases hline : contributes [line] with
    | true => exact Or.inl (started_of_contributes cur hone hline)
    | false =>
        refine Or.inr ?_
        have hstmt := lead_statement hone hline
        rw [← hempty] at hstmt
        exact hstmt.trans hempty

/-- The body's log is what the segments log, each read from the empty statement. -/
theorem log_run (lines : List Bytes) {b : Body} (h : b.cur.started = true ∨ b.cur.stmt = .empty) :
    faultsAlong stepLine stepFaults b lines =
      faultsAlong lineStatement lineFaults b.cur.stmt (Lib.Split.cutBefore isRoleLine lines).1 ++
        (Lib.Split.cutBefore isRoleLine lines).2.flatMap
          (faultsAlong lineStatement lineFaults .empty) := by
  induction lines generalizing b with
  | nil => rfl
  | cons line lines ih =>
      have hstmt := flush_stmt h line
      have hnext : (stepLine b line).cur.stmt = lineStatement (b.flush line).cur.stmt line := rfl
      rw [faultsAlong, stepFaults]
      unfold Lib.Split.cutBefore
      cases hrole : isRoleLine line with
      | true =>
          have hstarted : (stepLine b line).cur.started = true := by
            simp [stepLine, lineNext, Current.started, hrole]
          rw [hrole, if_pos rfl] at hstmt
          rw [ih (Or.inl hstarted), hnext, hstmt]
          simp [faultsAlong]
      | false =>
          have hflush : b.flush line = b := by simp [Body.flush, hrole]
          have hcur : (stepLine b line).cur = lineNext b.cur line := by simp [stepLine, hflush]
          have hinv := lineNext_started_or_empty hrole h
          rw [← hcur] at hinv
          rw [ih hinv, hnext, hflush]
          simp [faultsAlong]

theorem log_segments (bodyLines : List Bytes) :
    ∃ front, faultsAlong bodyNext bodyFaults {} bodyLines =
      front ++ (segmentsOf (contentLines bodyLines)).flatMap Segment.faults := by
  have hflat (groups : List (List Bytes)) :
      (groups.map fun lines => (⟨lines, false⟩ : Segment)).flatMap Segment.faults =
        groups.flatMap (faultsAlong lineStatement lineFaults .empty) := by
    rw [List.flatMap_map]
    rfl
  rw [faultsAlong_bodyNext, log_run _ (Or.inr rfl)]
  unfold segmentsOf
  dsimp only
  split
  · refine ⟨[], ?_⟩
    rw [List.nil_append, List.flatMap_cons, hflat]
    rfl
  · refine ⟨faultsAlong lineStatement lineFaults .empty
      (Lib.Split.cutBefore isRoleLine (contentLines bodyLines)).1, ?_⟩
    congr 1
    cases (Lib.Split.cutBefore isRoleLine (contentLines bodyLines)).2 with
    | nil => rfl
    | cons group groups =>
        dsimp only
        rw [List.flatMap_cons, List.flatMap_cons, hflat]
        rfl

/-! ## Attribution -/

def trusted (maxSize : Nat) (payload : Bytes) : List Segment :=
  (segments maxSize payload).filter (!·.quarantined)

def quarantined (maxSize : Nat) (payload : Bytes) : List Segment :=
  (segments maxSize payload).filter (·.quarantined)

/-- `ast` is the tolerant parse, its statements are those of the segments, and
what the segments log on their own lines ends its diagnostic. -/
structure Attributed (maxSize : Nat) (payload : Bytes) (ast : AST) : Prop where
  parsed : parse .tolerant maxSize payload = .ok ast
  statements : ast.statements = (trusted maxSize payload).map Segment.statement
  healedDraft : ast.healedDraft = (quarantined maxSize payload).map Segment.statement
  diagnostic : ∃ front, ast.diagnostic =
    (front ++ (segments maxSize payload).flatMap Segment.faults).foldl appendDiagnostic []

theorem attributed (maxSize : Nat) (payload : Bytes) : ∃ ast, Attributed maxSize payload ast := by
  have hread : (readFrame maxSize payload).1.statements =
        (trusted maxSize payload).map Segment.statement ∧
      (readFrame maxSize payload).1.healedDraft =
        (quarantined maxSize payload).map Segment.statement ∧
      ∃ front, (readFrame maxSize payload).2 =
        front ++ (segments maxSize payload).flatMap Segment.faults := by
    unfold readFrame trusted quarantined segments
    by_cases hsize : maxSize < payload.length
    · rw [if_pos hsize, if_pos hsize]
      exact ⟨rfl, rfl, [.oversize], rfl⟩
    · rw [if_neg hsize, if_neg hsize]
      cases frameParts payload with
      | none => exact ⟨rfl, rfl, [.emptyPayload], rfl⟩
      | some parts =>
          have hplaced := readBody_placed parts.2
          rw [foldl_pushSegment] at hplaced
          obtain ⟨front, hfront⟩ := log_segments parts.2
          refine ⟨congrArg Placed.statements hplaced, congrArg Placed.healedDraft hplaced,
            tokensFaults (headerTokens parts.1) ++ front, ?_⟩
          rw [List.append_assoc]
          exact congrArg (tokensFaults (headerTokens parts.1) ++ ·) hfront
  obtain ⟨hstatements, hdraft, front, hlog⟩ := hread
  exact ⟨_, parse_tolerant maxSize payload, hstatements, hdraft, front, by rw [← hlog]⟩

/-- A trusted statement is clean unless it drops something on its own lines:
only repairs and duplicates, its own or an inherited one, take it out. -/
theorem trusted_clean_iff (maxSize : Nat) (payload : Bytes) :
    ∃ ast, Attributed maxSize payload ast ∧
      ((∀ s ∈ trusted maxSize payload, s.faults = []) ↔
        ∀ s ∈ segments maxSize payload, s.drops = true → s.inherited = true ∨ s.repaired = true) := by
  obtain ⟨ast, hast⟩ := attributed maxSize payload
  refine ⟨ast, hast, ?_⟩
  constructor
  · intro hclean s hs hdrops
    by_contra hkept
    rw [not_or, Bool.not_eq_true, Bool.not_eq_true] at hkept
    have htrusted : s ∈ trusted maxSize payload := by
      simp [trusted, Segment.quarantined, hs, hkept]
    have hnone := (Segment.faults_eq_nil.mp (hclean s htrusted)).1
    rw [hdrops] at hnone
    contradiction
  · intro hcond s hs
    obtain ⟨hmem, hkept⟩ := List.mem_filter.mp hs
    simp only [Segment.quarantined, Bool.not_eq_true', Bool.or_eq_false_iff] at hkept
    refine Segment.faults_eq_nil.mpr ⟨?_, hkept.2⟩
    by_contra hdrops
    rcases hcond s hmem (by simpa using hdrops) with h | h
    · simp [h] at hkept
    · simp [h] at hkept

def droppedTokenFrame : Bytes := ascii "VER:2 CHK:sha256:0 AGT:a REQID:r\n[A] foo"

/-- The token `foo` is dropped, the statement is trusted. -/
theorem dropped_token_trusted :
    (∃ ast, parse .tolerant 1048576 droppedTokenFrame = .ok ast ∧
      ast.diagnostic = ascii "Malformed KV pair (missing ':' or '='): foo" ∧
      ast.statements.map Statement.role = [ascii "A"] ∧ ast.healedDraft.length = 0) ∧
    ¬ ∀ s ∈ trusted 1048576 droppedTokenFrame, s.faults = [] := by
  refine ⟨⟨_, parse_tolerant 1048576 droppedTokenFrame, ?_, ?_, ?_⟩, ?_⟩ <;> decide

/-- A quarantined statement has a repair or a duplicate on its own lines unless
it inherits one from lines in front of the first role that make no statement. -/
theorem quarantined_repaired_iff (maxSize : Nat) (payload : Bytes) :
    ∃ ast, Attributed maxSize payload ast ∧
      ((∀ s ∈ quarantined maxSize payload, ∃ fault ∈ s.faults, fault.isRepair = true) ↔
        ∀ s ∈ segments maxSize payload, s.inherited = true → s.repaired = true) := by
  obtain ⟨ast, hast⟩ := attributed maxSize payload
  refine ⟨ast, hast, ?_⟩
  constructor
  · intro hown s hs hinherited
    have hquarantined : s ∈ quarantined maxSize payload := by
      simp [quarantined, Segment.quarantined, hs, hinherited]
    rw [← s.any_faults, List.any_eq_true]
    exact hown s hquarantined
  · intro hcond s hs
    obtain ⟨hmem, hflag⟩ := List.mem_filter.mp hs
    rw [← List.any_eq_true, s.any_faults]
    simp only [Segment.quarantined, Bool.or_eq_true] at hflag
    rcases hflag with h | h
    · exact hcond s hmem h
    · exact h

def strayQuoteFrame : Bytes := ascii "VER:2 CHK:sha256:0 AGT:a REQID:r\n\"\n[A] k:v"

/-- The quote on its own line makes no statement; the clean one behind it is
quarantined. -/
theorem stray_quote_quarantines :
    (∃ ast, parse .tolerant 1048576 strayQuoteFrame = .ok ast ∧
      ast.statements.length = 0 ∧ ast.healedDraft.map Statement.role = [ascii "A"]) ∧
    ¬ ∀ s ∈ quarantined 1048576 strayQuoteFrame, ∃ fault ∈ s.faults, fault.isRepair = true := by
  refine ⟨⟨_, parse_tolerant 1048576 strayQuoteFrame, ?_, ?_⟩, ?_⟩ <;> decide

end LlmTop
