import LlmTop.HeaderFields
import LlmTop.RecoveryCounts

/-!
# Diagnostics and their separators

The recovery manager counts separators in the joined text; the parser counts
nothing.  The two agree as long as no piece of the payload that a diagnostic
quotes contains the separator itself.
-/
namespace LlmTop
open Lib.Faults

/-! ## Counting in the joined text -/

def bar : UInt8 := '|'.toUInt8

theorem countSeparators_cons {a b c : UInt8} {rest : Bytes} (h : [a, b, c] ≠ diagnosticSeparator) :
    countSeparators (a :: b :: c :: rest) = countSeparators (b :: c :: rest) := by
  rw [countSeparators, if_neg h]

theorem separator_start {c : UInt8} {rest : Bytes} (h : diagnosticSeparator <+: c :: rest) :
    c = ' '.toUInt8 ∧ rest.head? = some bar := by
  obtain ⟨tail, htail⟩ := h
  injection htail with hc hrest
  exact ⟨hc.symm, by rw [← hrest]; rfl⟩

theorem countSeparators_skip {c : UInt8} {rest : Bytes}
    (h : ¬ diagnosticSeparator <+: c :: rest) :
    countSeparators (c :: rest) = countSeparators rest := by
  cases rest with
  | nil => rfl
  | cons d rest =>
      cases rest with
      | nil => rfl
      | cons e rest =>
          refine countSeparators_cons fun heq => h ?_
          exact ⟨rest, by rw [← heq]; rfl⟩

theorem countSeparators_eq_zero (text : Bytes) :
    countSeparators text = 0 ↔ ¬ diagnosticSeparator <:+: text := by
  induction text using countSeparators.induct with
  | case1 a b c rest hsep ih =>
      rw [countSeparators, if_pos hsep]
      refine iff_of_false (Nat.succ_ne_zero _) (not_not.mpr ⟨[], rest, ?_⟩)
      rw [← hsep]
      rfl
  | case2 a b c rest hsep ih =>
      have hcut : diagnosticSeparator <:+: a :: b :: c :: rest ↔ _ := List.infix_cons_iff
      rw [countSeparators_cons hsep, ih, hcut, not_or]
      refine (and_iff_right fun hbegins => hsep ?_).symm
      obtain ⟨tail, htail⟩ := hbegins
      have htake := congrArg (List.take 3) htail
      exact htake.symm
  | case3 text hshort =>
      have hlen : text.length < 3 := by
        rcases text with _ | ⟨a, _ | ⟨b, _ | ⟨c, rest⟩⟩⟩
        · decide
        · simp
        · simp
        · exact absurd rfl (hshort a b c rest)
      refine iff_of_true ?_ fun hinside => ?_
      · unfold countSeparators
        split
        · exact absurd rfl (hshort _ _ _ _)
        · rfl
      · have hle := hinside.length_le
        have hsep : diagnosticSeparator.length = 3 := rfl
        omega

/-- A separator between two texts is counted once, whatever the first one ends in. -/
theorem countSeparators_join {back : Bytes} (hback : back.head? ≠ some bar) (front : Bytes) :
    countSeparators (front ++ (diagnosticSeparator ++ back)) =
      countSeparators front + 1 + countSeparators back := by
  have hsep : countSeparators (diagnosticSeparator ++ back) = countSeparators back + 1 := if_pos rfl
  have hone : ∀ c, countSeparators (c :: (diagnosticSeparator ++ back)) = countSeparators back + 1 := by
    intro c
    have hblank : ¬ diagnosticSeparator <+: c :: (diagnosticSeparator ++ back) :=
      fun hbegins => absurd (Option.some.inj (separator_start hbegins).2) (by decide)
    rw [countSeparators_skip hblank, hsep]
  induction front using countSeparators.induct with
  | case1 a b c rest heq ih =>
      rw [List.cons_append, List.cons_append, List.cons_append, countSeparators, if_pos heq, ih,
        countSeparators, if_pos heq]
      omega
  | case2 a b c rest hne ih =>
      rw [List.cons_append, List.cons_append, List.cons_append, countSeparators_cons hne,
        countSeparators_cons hne]
      exact ih
  | case3 front hshort =>
      rcases front with _ | ⟨a, _ | ⟨b, _ | ⟨c, rest⟩⟩⟩
      · rw [List.nil_append, hsep]
        exact Nat.add_comm _ _
      · rw [List.singleton_append, hone]
        exact Nat.add_comm _ _
      · by_cases heq : [a, b, ' '.toUInt8] = diagnosticSeparator
        · -- the match at the end of `front` takes the blank of the separator with it
          have hbar : ¬ diagnosticSeparator <+: bar :: ' '.toUInt8 :: back :=
            fun hbegins => absurd (separator_start hbegins).1 (by decide)
          have hblank : ¬ diagnosticSeparator <+: ' '.toUInt8 :: back :=
            fun hbegins => hback (separator_start hbegins).2
          have hstep : countSeparators ([a, b] ++ (diagnosticSeparator ++ back)) =
              countSeparators (bar :: ' '.toUInt8 :: back) + 1 := if_pos heq
          rw [hstep, countSeparators_skip hbar, countSeparators_skip hblank]
          exact Nat.add_comm _ _
        · have hstep : countSeparators ([a, b] ++ (diagnosticSeparator ++ back)) =
              countSeparators (b :: (diagnosticSeparator ++ back)) := countSeparators_cons heq
          rw [hstep, hone]
          exact Nat.add_comm _ _
      · exact absurd rfl (hshort a b c rest)

theorem infix_behind {front : Bytes} (hfront : bar ∉ front) (rest : Bytes) :
    diagnosticSeparator <:+: front ++ ' '.toUInt8 :: rest ↔
      diagnosticSeparator <:+: ' '.toUInt8 :: rest := by
  induction front with
  | nil => rfl
  | cons c front ih =>
      rw [List.mem_cons, not_or] at hfront
      have hcut : diagnosticSeparator <:+: c :: (front ++ ' '.toUInt8 :: rest) ↔ _ :=
        List.infix_cons_iff
      rw [List.cons_append, hcut, ih hfront.2]
      refine or_iff_right fun hbegins => ?_
      have hbar := (separator_start hbegins).2
      cases front with
      | nil => exact absurd (Option.some.inj hbar) (by decide)
      | cons d front => exact hfront.2 (List.mem_cons.mpr (Or.inl (Option.some.inj hbar).symm))

theorem infix_front {back : Bytes} (hback : bar ∉ back) (front : Bytes) :
    diagnosticSeparator <:+: front ++ ' '.toUInt8 :: back ↔
      diagnosticSeparator <:+: front ++ [' '.toUInt8] := by
  have hturn : ∀ text : Bytes, diagnosticSeparator <:+: text ↔ diagnosticSeparator <:+: text.reverse := by
    intro text
    rw [← List.reverse_infix]
    rfl
  rw [hturn, hturn (front ++ [' '.toUInt8]), List.reverse_append, List.reverse_append,
    List.reverse_cons, List.append_assoc, List.singleton_append, List.reverse_singleton,
    List.singleton_append]
  exact infix_behind (by simpa using hback) _

/-! ## Messages -/

/-- What a message shows of the payload, with the blanks around it. -/
def Fault.shown : Fault → Option Bytes
  | .malformedHeaderToken piece | .unknownHeaderKey piece | .malformedRole piece
  | .duplicateKey piece | .malformedKVPair piece | .duplicateArg piece | .malformedArg piece
  | .malformedToolCall piece => some (' '.toUInt8 :: piece)
  | .invalidHr val => some (' '.toUInt8 :: (val ++ [' '.toUInt8]))
  | _ => none

theorem Fault.text_head (fault : Fault) : fault.text.head? ≠ some bar := by
  cases fault <;> exact fun h => absurd (Option.some.inj h) (by decide)

theorem separator_quoted {front : Bytes} (hlast : front.getLast? = some ' '.toUInt8)
    (hfront : bar ∉ front) (piece : Bytes) :
    diagnosticSeparator <:+: front ++ piece ↔
      ∃ shown, some (' '.toUInt8 :: piece) = some shown ∧ diagnosticSeparator <:+: shown := by
  obtain ⟨init, rfl⟩ := List.getLast?_eq_some_iff.mp hlast
  rw [List.append_assoc, List.singleton_append,
    infix_behind fun hmem => hfront (List.mem_append_left _ hmem)]
  simp

theorem separator_plain {text : Bytes} (htext : bar ∉ text) :
    diagnosticSeparator <:+: text ↔
      ∃ shown, (none : Option Bytes) = some shown ∧ diagnosticSeparator <:+: shown := by
  refine iff_of_false (fun hinside => htext (hinside.subset ?_)) (by simp)
  decide

/-- The separator can only come from the piece. -/
theorem Fault.separator_text (fault : Fault) :
    diagnosticSeparator <:+: fault.text ↔
      ∃ piece, fault.shown = some piece ∧ diagnosticSeparator <:+: piece := by
  cases fault with
  | malformedHeaderToken piece | unknownHeaderKey piece | malformedRole piece | duplicateKey piece
  | malformedKVPair piece | duplicateArg piece | malformedArg piece | malformedToolCall piece =>
      exact separator_quoted (by decide) (by decide) piece
  | invalidHr val =>
      have hback : ascii " (coerced to 0)" = ' '.toUInt8 :: ascii "(coerced to 0)" := rfl
      rw [text, hback, infix_front (by decide), List.append_assoc]
      exact separator_quoted (by decide) (by decide) _
  | oversize | emptyPayload | missingHeaderFields | healedQuote | unclosedQuote
  | insertedRoleBracket | appendedRoleBracket => exact separator_plain (by decide)

theorem diagnosticCount_append (diagnostic : Bytes) (fault : Fault) :
    diagnosticCount (appendDiagnostic diagnostic fault) =
      diagnosticCount diagnostic + (1 + countSeparators fault.text) := by
  have htext : ¬ fault.text.isEmpty = true := by simpa using fault.text_ne_nil
  unfold diagnosticCount appendDiagnostic
  cases hdiagnostic : diagnostic.isEmpty with
  | true =>
      rw [List.isEmpty_iff.mp hdiagnostic, if_pos rfl, if_pos rfl, List.nil_append, List.nil_append,
        if_neg htext, Nat.zero_add]
  | false =>
      have hne : ¬ (diagnostic ++ (ascii " | " ++ fault.text)).isEmpty = true := by
        simpa using fun _ _ => fault.text_ne_nil
      rw [if_neg Bool.false_ne_true, if_neg Bool.false_ne_true, List.append_assoc, if_neg hne]
      have hjoin := countSeparators_join fault.text_head diagnostic
      rw [diagnosticSeparator] at hjoin
      omega

theorem diagnosticCount_log (log : List Fault) :
    diagnosticCount (log.foldl appendDiagnostic []) =
      log.length + (log.map fun fault => countSeparators fault.text).sum := by
  induction log using List.reverseRecOn with
  | nil => rfl
  | append_singleton log fault ih =>
      rw [List.foldl_append, List.foldl_cons, List.foldl_nil, diagnosticCount_append, ih]
      simp only [List.length_append, List.length_singleton, List.map_append, List.map_singleton,
        List.sum_append, List.sum_singleton]
      omega

/-- The count is right when no message contains the separator. -/
theorem diagnosticCount_eq_length (log : List Fault) :
    diagnosticCount (log.foldl appendDiagnostic []) = log.length ↔
      ∀ fault ∈ log, ∀ piece, fault.shown = some piece → ¬ diagnosticSeparator <:+: piece := by
  rw [diagnosticCount_log, Nat.add_eq_left, List.sum_eq_zero_iff_forall_eq_nat]
  simp only [List.mem_map, forall_exists_index, and_imp, forall_apply_eq_imp_iff₂,
    countSeparators_eq_zero, Fault.separator_text, not_exists, not_and]

/-! ## What the messages quote -/

/-- Some message of the log shows the piece. -/
def Shows (log : List Fault) (piece : Bytes) : Prop := ∃ fault ∈ log, fault.shown = some piece

theorem shows_append {log log' : List Fault} {piece : Bytes} :
    Shows (log ++ log') piece ↔ Shows log piece ∨ Shows log' piece := by
  simp only [Shows, List.mem_append, or_and_right, exists_or]

theorem shows_flatMap {α : Type} {f : α → List Fault} {xs : List α} {piece : Bytes} :
    Shows (xs.flatMap f) piece ↔ ∃ x ∈ xs, Shows (f x) piece := by
  simp only [Shows, List.mem_flatMap]
  constructor
  · rintro ⟨fault, ⟨x, hx, hfault⟩, hshown⟩
    exact ⟨x, hx, fault, hfault, hshown⟩
  · rintro ⟨x, hx, fault, hfault, hshown⟩
    exact ⟨fault, ⟨x, hx, hfault⟩, hshown⟩

theorem not_shows_nil {piece : Bytes} : ¬ Shows [] piece := by simp [Shows]

theorem shows_singleton {fault : Fault} {piece : Bytes} :
    Shows [fault] piece ↔ fault.shown = some piece := by simp [Shows]

/-- One more of a key that is there makes it come twice, and no other key. -/
theorem exists_twice_cons {k : Bytes} {keys later : List Bytes} (hk : k ∈ keys) {P : Bytes → Prop} :
    (∃ key, 1 < (keys ++ k :: later).count key ∧ P key) ↔
      P k ∨ ∃ key, 1 < (keys ++ later).count key ∧ P key := by
  have hfirst : 0 < keys.count k := List.count_pos_iff.mpr hk
  constructor
  · rintro ⟨key, htwice, hkey⟩
    by_cases heq : key = k
    · exact Or.inl (heq ▸ hkey)
    · rw [List.count_append, List.count_cons_of_ne (Ne.symm heq), ← List.count_append] at htwice
      exact Or.inr ⟨key, htwice, hkey⟩
  · rintro (hkey | ⟨key, htwice, hkey⟩)
    · refine ⟨k, ?_, hkey⟩
      rw [List.count_append, List.count_cons_self]
      omega
    · refine ⟨key, Nat.lt_of_lt_of_le htwice ?_, hkey⟩
      rw [List.count_append, List.count_append, List.count_cons]
      omega

/-- Along the pairs a message comes for each token that is no pair, and for each
key that is there twice. -/
theorem shows_pairs {split : Bytes → Option (Bytes × Bytes)} {duplicate malformed : Bytes → Fault}
    {piece : Bytes} (tokens : List Bytes) (pairs : OrderedMap) :
    Shows (faultsAlong (pairNext split) (pairFaults split duplicate malformed) pairs tokens) piece ↔
      (∃ token ∈ tokens, split token = none ∧ (malformed token).shown = some piece) ∨
        ∃ key, 1 < (keysOf pairs.data ++ tokenKeys split tokens).count key ∧
          (duplicate key).shown = some piece := by
  induction tokens generalizing pairs with
  | nil =>
      refine iff_of_false not_shows_nil ?_
      rintro (⟨_, htoken, -⟩ | ⟨key, htwice, -⟩)
      · exact absurd htoken List.not_mem_nil
      · have hone := List.nodup_iff_count.mp pairs.distinct key
        rw [tokenKeys, List.filterMap_nil, List.append_nil] at htwice
        omega
  | cons token tokens ih =>
      rw [faultsAlong, shows_append, ih]
      cases hsplit : split token with
      | none =>
          rw [tokenKeys_none hsplit, pairNext_none hsplit, pairFaults_none hsplit, shows_singleton,
            ← or_assoc]
          refine or_congr_left ?_
          simp [hsplit]
      | some pair =>
          have htokens : (∃ t ∈ token :: tokens, split t = none ∧ (malformed t).shown = some piece) ↔
              ∃ t ∈ tokens, split t = none ∧ (malformed t).shown = some piece := by
            simp [hsplit]
          rw [tokenKeys_some hsplit, keysOf_pairNext hsplit, pairFaults_some hsplit, htokens]
          by_cases hkey : pair.1 ∈ keysOf pairs.data
          · rw [if_pos hkey, if_pos hkey, shows_singleton, or_left_comm, exists_twice_cons hkey]
          · rw [if_neg hkey, if_neg hkey, List.append_assoc]
            exact or_iff_right not_shows_nil

theorem shows_fieldFaults (key val piece : Bytes) :
    Shows (fieldFaults key val) piece ↔
      (key ∉ headerKeys ∧ ' '.toUInt8 :: key = piece) ∨
      (key = ascii "HR" ∧ stoi val = none ∧ ' '.toUInt8 :: (val ++ [' '.toUInt8]) = piece) := by
  have hhr : ascii "HR" ∈ headerKeys := by decide
  unfold fieldFaults
  by_cases hname : key = ascii "HR"
  · rw [if_pos hname, or_iff_right fun h => h.1 (hname ▸ hhr), and_iff_right hname]
    cases stoi val with
    | none =>
        rw [Option.isNone_none, if_pos rfl, shows_singleton, and_iff_right rfl]
        exact Option.some_inj
    | some n =>
        rw [Option.isNone_some, if_neg Bool.false_ne_true]
        exact iff_of_false not_shows_nil fun h => nomatch h.1
  · rw [if_neg hname, or_iff_left fun h => hname h.1]
    by_cases hkey : key ∈ headerKeys
    · rw [if_pos (List.contains_iff_mem.mpr hkey)]
      exact iff_of_false not_shows_nil fun h => h.1 hkey
    · rw [if_neg (mt List.contains_iff_mem.mp hkey), shows_singleton, and_iff_right hkey]
      exact Option.some_inj

/-- The three kinds of words of a header line that get a message. -/
theorem shows_word (word piece : Bytes) :
    Shows (headerFaults word) piece ↔
      (':'.toUInt8 ∉ word ∧ ' '.toUInt8 :: word = piece) ∨
      (∃ key val, word = key ++ ':'.toUInt8 :: val ∧ ':'.toUInt8 ∉ key ∧ key ∉ headerKeys ∧
        ' '.toUInt8 :: key = piece) ∨
      ∃ val, word = ascii "HR" ++ ':'.toUInt8 :: val ∧ stoi val = none ∧
        ' '.toUInt8 :: (val ++ [' '.toUInt8]) = piece := by
  rw [headerFaults_eq]
  cases hparts : tokenParts word with
  | none =>
      have hcolon := tokenParts_eq_none.mp hparts
      rw [shows_singleton, Fault.shown, Option.some.injEq]
      refine ⟨fun hpiece => Or.inl ⟨hcolon, hpiece⟩, ?_⟩
      rintro (⟨-, hpiece⟩ | ⟨key, val, rfl, -⟩ | ⟨val, rfl, -⟩)
      · exact hpiece
      · simp at hcolon
      · simp at hcolon
  | some parts =>
      obtain ⟨key, val⟩ := parts
      have hother : ∀ {key' val'}, word = fieldToken key' val' → ':'.toUInt8 ∉ key' →
          key = key' ∧ val = val' := by
        intro key' val' hword hkey'
        have hsame := hparts.symm.trans (tokenParts_eq_some.mpr ⟨hword, hkey'⟩)
        exact Prod.mk.inj (Option.some.inj hsame)
      obtain ⟨hword, hkey⟩ := tokenParts_eq_some.mp hparts
      refine (shows_fieldFaults key val piece).trans ⟨?_, ?_⟩
      · rintro (⟨hunknown, hpiece⟩ | ⟨rfl, hnone, hpiece⟩)
        · exact Or.inr (Or.inl ⟨key, val, hword, hkey, hunknown, hpiece⟩)
        · exact Or.inr (Or.inr ⟨val, hword, hnone, hpiece⟩)
      · rintro (⟨hcolon, -⟩ | ⟨key', val', hword', hkey', hunknown, hpiece⟩ |
          ⟨val', hword', hnone, hpiece⟩)
        · rw [tokenParts_eq_none.mpr hcolon] at hparts
          contradiction
        · obtain ⟨rfl, rfl⟩ := hother hword' hkey'
          exact Or.inl ⟨hunknown, hpiece⟩
        · obtain ⟨rfl, rfl⟩ := hother hword' (by decide)
          exact Or.inr ⟨rfl, hnone, hpiece⟩

/-- What a line leads to on its own, whatever was read before it. -/
def ownFaults (line : Bytes) : List Fault :=
  quoteFaults line ++
    if isRoleLine (closeQuote line) then roleFaults (closeQuote line)
    else if isToolLine (closeQuote line) then toolFaults (closeQuote line)
    else []

theorem shows_own (line piece : Bytes) :
    Shows (ownFaults line) piece ↔
      match lineArgs line with
      | none => ' '.toUInt8 :: closeQuote line = piece
      | some args => (∃ arg ∈ args, splitArg arg = none ∧ ' '.toUInt8 :: arg = piece) ∨
          ∃ key, 1 < (tokenKeys splitArg args).count key ∧ ' '.toUInt8 :: key = piece := by
  have hquote : ¬ Shows (quoteFaults line) piece := by
    unfold quoteFaults
    split <;> simp [Shows, Fault.shown]
  have hrole : ∀ line, ¬ Shows (roleFaults line) piece := by
    intro line
    unfold roleFaults
    split
    · split <;> simp [Shows, Fault.shown]
    · exact not_shows_nil
  have hnone : (∃ arg ∈ ([] : List Bytes), splitArg arg = none ∧ ' '.toUInt8 :: arg = piece) ∨
      (∃ key, 1 < (tokenKeys splitArg []).count key ∧ ' '.toUInt8 :: key = piece) ↔ False := by
    simp [tokenKeys]
  unfold ownFaults lineArgs
  rw [shows_append, or_iff_right hquote, isRoleLine_closeQuote, isToolLine_closeQuote]
  by_cases hline : isRoleLine line = true
  · rw [if_pos hline, isToolLine_of_role hline, if_neg Bool.false_ne_true]
    exact iff_of_false (hrole _) hnone.mp
  · rw [if_neg hline]
    by_cases htool : isToolLine line = true
    · rw [if_pos htool, if_pos htool, toolFaults]
      cases toolArgs (closeQuote line) with
      | none =>
          dsimp only
          rw [shows_singleton, Fault.shown, Option.some.injEq]
      | some args =>
          dsimp only
          unfold argNext argFaults
          rw [shows_pairs]
          simp only [Fault.shown, Option.some.injEq]
          rfl
    · rw [if_neg htool, if_neg htool]
      exact iff_of_false not_shows_nil hnone.mp

theorem shows_lines (lines : List Bytes) (stmt : Statement) (piece : Bytes) :
    Shows (faultsAlong lineStatement lineFaults stmt lines) piece ↔
      (∃ line ∈ lines, Shows (ownFaults line) piece) ∨
        Shows (faultsAlong kvNext kvFaults stmt.kvpairs (lines.flatMap lineTokens)) piece := by
  induction lines generalizing stmt with
  | nil => simp [faultsAlong, Shows]
  | cons line lines ih =>
      have hline : lineFaults stmt line =
          ownFaults line ++ faultsAlong kvNext kvFaults stmt.kvpairs (lineTokens line) := by
        rw [ownFaults, List.append_assoc]
        rfl
      rw [faultsAlong, shows_append, hline, shows_append, ih, lineStatement_kvpairs,
        List.flatMap_cons, faultsAlong_append, shows_append, List.exists_mem_cons_iff]
      exact or_or_or_comm

theorem mem_pieces {lines : List Bytes} {line : Bytes} :
    (∃ group ∈ Lib.Split.pieces isRoleLine lines, line ∈ group) ↔ line ∈ lines := by
  have hflat : (Lib.Split.pieces isRoleLine lines).flatten = lines :=
    Lib.Split.cutBefore_flatten isRoleLine lines
  rw [← List.mem_flatten, hflat]

/-- A group of lines: its own lines, its tokens and its keys. -/
theorem shows_group (group : List Bytes) (piece : Bytes) :
    Shows (faultsAlong lineStatement lineFaults .empty group) piece ↔
      (∃ line ∈ group, Shows (ownFaults line) piece) ∨
      (∃ line ∈ group, ∃ token ∈ lineTokens line, splitToken token = none ∧
        ' '.toUInt8 :: token = piece) ∨
      ∃ key, 1 < (group.flatMap lineKeys).count key ∧ ' '.toUInt8 :: key = piece := by
  have hkeys : tokenKeys splitToken (group.flatMap lineTokens) = group.flatMap lineKeys := by
    rw [tokenKeys, List.filterMap_flatMap]
    rfl
  have hempty : keysOf Statement.empty.kvpairs.data = [] := rfl
  have htokens : (∃ token ∈ group.flatMap lineTokens, splitToken token = none ∧
        ' '.toUInt8 :: token = piece) ↔
      ∃ line ∈ group, ∃ token ∈ lineTokens line, splitToken token = none ∧
        ' '.toUInt8 :: token = piece := by
    simp only [List.mem_flatMap]
    constructor
    · rintro ⟨token, ⟨line, hline, htoken⟩, hpiece⟩
      exact ⟨line, hline, token, htoken, hpiece⟩
    · rintro ⟨line, hline, token, htoken, hpiece⟩
      exact ⟨token, ⟨line, hline, htoken⟩, hpiece⟩
  rw [shows_lines, kvNext, kvFaults, shows_pairs, hempty, List.nil_append, hkeys]
  simp only [Fault.shown, Option.some.injEq]
  rw [htokens]

theorem shows_body (bodyLines : List Bytes) (piece : Bytes) :
    Shows (faultsAlong bodyNext bodyFaults {} bodyLines) piece ↔
      ∃ group ∈ Lib.Split.pieces isRoleLine (contentLines bodyLines),
        Shows (faultsAlong lineStatement lineFaults .empty group) piece := by
  rw [faultsAlong_bodyNext, log_run _ (Or.inr rfl), shows_append, shows_flatMap, Lib.Split.pieces,
    List.exists_mem_cons_iff]

/-! ## The pieces of a payload -/

/-- The words of the header line with its continuations. -/
def headerContent (maxSize : Nat) (payload : Bytes) : List Bytes :=
  if maxSize < payload.length then []
  else ((frameParts payload).map fun parts => headerTokens parts.1).getD []

/-- The pieces of the payload that a diagnostic quotes, each behind the blank
that its message puts there. -/
inductive Quoted (maxSize : Nat) (payload : Bytes) : Bytes → Prop where
  /-- A header word without a colon. -/
  | word {word : Bytes} (hword : word ∈ headerContent maxSize payload)
      (hcolon : ':'.toUInt8 ∉ word) : Quoted maxSize payload (' '.toUInt8 :: word)
  | headerKey {key val : Bytes} (hword : key ++ ':'.toUInt8 :: val ∈ headerContent maxSize payload)
      (hkey : ':'.toUInt8 ∉ key) (hunknown : key ∉ headerKeys) :
      Quoted maxSize payload (' '.toUInt8 :: key)
  /-- An `HR` that is no number; the message goes on with a blank. -/
  | hr {val : Bytes} (hword : ascii "HR" ++ ':'.toUInt8 :: val ∈ headerContent maxSize payload)
      (hnone : stoi val = none) : Quoted maxSize payload (' '.toUInt8 :: (val ++ [' '.toUInt8]))
  /-- A body token without a separator. -/
  | token {line token : Bytes} (hline : line ∈ bodyContent maxSize payload)
      (htoken : token ∈ lineTokens line) (hnone : splitToken token = none) :
      Quoted maxSize payload (' '.toUInt8 :: token)
  /-- A key that comes twice between one role line and the next. -/
  | key {group : List Bytes} {key : Bytes}
      (hgroup : group ∈ Lib.Split.pieces isRoleLine (bodyContent maxSize payload))
      (htwice : 1 < (group.flatMap lineKeys).count key) : Quoted maxSize payload (' '.toUInt8 :: key)
  /-- A tool line without its argument list, as the closed quote leaves it. -/
  | call {line : Bytes} (hline : line ∈ bodyContent maxSize payload) (hnone : lineArgs line = none) :
      Quoted maxSize payload (' '.toUInt8 :: closeQuote line)
  | argument {line arg : Bytes} {args : List Bytes} (hline : line ∈ bodyContent maxSize payload)
      (hargs : lineArgs line = some args) (harg : arg ∈ args) (hnone : splitArg arg = none) :
      Quoted maxSize payload (' '.toUInt8 :: arg)
  | argumentName {line name : Bytes} {args : List Bytes}
      (hline : line ∈ bodyContent maxSize payload) (hargs : lineArgs line = some args)
      (htwice : 1 < (tokenKeys splitArg args).count name) :
      Quoted maxSize payload (' '.toUInt8 :: name)

theorem quoted_of_word {maxSize : Nat} {payload word piece : Bytes}
    (hword : word ∈ headerContent maxSize payload) (h : Shows (headerFaults word) piece) :
    Quoted maxSize payload piece := by
  rcases (shows_word word piece).mp h with ⟨hcolon, rfl⟩ | ⟨key, val, rfl, hkey, hunknown, rfl⟩ |
    ⟨val, rfl, hnone, rfl⟩
  · exact .word hword hcolon
  · exact .headerKey hword hkey hunknown
  · exact .hr hword hnone

theorem quoted_of_line {maxSize : Nat} {payload line piece : Bytes}
    (hline : line ∈ bodyContent maxSize payload) (h : Shows (ownFaults line) piece) :
    Quoted maxSize payload piece := by
  rw [shows_own] at h
  cases hargs : lineArgs line with
  | none =>
      rw [hargs] at h
      exact h ▸ .call hline hargs
  | some args =>
      rw [hargs] at h
      rcases h with ⟨arg, harg, hnone, rfl⟩ | ⟨name, htwice, rfl⟩
      · exact .argument hline hargs harg hnone
      · exact .argumentName hline hargs htwice

theorem quoted_of_group {maxSize : Nat} {payload piece : Bytes} {group : List Bytes}
    (hgroup : group ∈ Lib.Split.pieces isRoleLine (bodyContent maxSize payload))
    (h : Shows (faultsAlong lineStatement lineFaults .empty group) piece) :
    Quoted maxSize payload piece := by
  have hmem : ∀ line ∈ group, line ∈ bodyContent maxSize payload :=
    fun line hline => mem_pieces.mp ⟨group, hgroup, hline⟩
  rcases (shows_group group piece).mp h with ⟨line, hline, hown⟩ |
    ⟨line, hline, token, htoken, hnone, rfl⟩ | ⟨key, htwice, rfl⟩
  · exact quoted_of_line (hmem line hline) hown
  · exact .token (hmem line hline) htoken hnone
  · exact .key hgroup htwice

section Frame

variable {maxSize : Nat} {payload : Bytes} {parts : Bytes × List Bytes}

theorem headerContent_parts (hsize : payload.length ≤ maxSize)
    (hparts : frameParts payload = some parts) :
    headerContent maxSize payload = headerTokens parts.1 := by
  unfold headerContent
  rw [if_neg (Nat.not_lt.mpr hsize), hparts]
  rfl

theorem shows_parts (hsize : payload.length ≤ maxSize) (hparts : frameParts payload = some parts)
    (piece : Bytes) :
    Shows (readFrame maxSize payload).2 piece ↔
      (∃ word ∈ headerContent maxSize payload, Shows (headerFaults word) piece) ∨
        ∃ group ∈ Lib.Split.pieces isRoleLine (bodyContent maxSize payload),
          Shows (faultsAlong lineStatement lineFaults .empty group) piece := by
  rw [readFrame_parts hsize hparts, headerContent_parts hsize hparts,
    bodyContent_parts hsize hparts, ← shows_body, ← shows_flatMap]
  exact shows_append

theorem shows_of_quoted (hsize : payload.length ≤ maxSize)
    (hparts : frameParts payload = some parts) {piece : Bytes} (h : Quoted maxSize payload piece) :
    Shows (readFrame maxSize payload).2 piece := by
  rw [shows_parts hsize hparts]
  have hown : ∀ {line}, line ∈ bodyContent maxSize payload → Shows (ownFaults line) piece →
      ∃ group ∈ Lib.Split.pieces isRoleLine (bodyContent maxSize payload),
        Shows (faultsAlong lineStatement lineFaults .empty group) piece := by
    intro line hline hshows
    obtain ⟨group, hgroup, hmem⟩ := mem_pieces.mpr hline
    exact ⟨group, hgroup, (shows_group group piece).mpr (Or.inl ⟨line, hmem, hshows⟩)⟩
  cases h with
  | word hword hcolon => exact Or.inl ⟨_, hword, (shows_word _ _).mpr (Or.inl ⟨hcolon, rfl⟩)⟩
  | headerKey hword hkey hunknown =>
      exact Or.inl ⟨_, hword,
        (shows_word _ _).mpr (Or.inr (Or.inl ⟨_, _, rfl, hkey, hunknown, rfl⟩))⟩
  | hr hword hnone =>
      exact Or.inl ⟨_, hword, (shows_word _ _).mpr (Or.inr (Or.inr ⟨_, rfl, hnone, rfl⟩))⟩
  | token hline htoken hnone =>
      obtain ⟨group, hgroup, hmem⟩ := mem_pieces.mpr hline
      refine Or.inr ⟨group, hgroup, (shows_group _ _).mpr (Or.inr (Or.inl ?_))⟩
      exact ⟨_, hmem, _, htoken, hnone, rfl⟩
  | key hgroup htwice =>
      exact Or.inr ⟨_, hgroup, (shows_group _ _).mpr (Or.inr (Or.inr ⟨_, htwice, rfl⟩))⟩
  | call hline hnone =>
      refine Or.inr (hown hline ((shows_own _ _).mpr ?_))
      rw [hnone]
  | argument hline hargs harg hnone =>
      refine Or.inr (hown hline ((shows_own _ _).mpr ?_))
      rw [hargs]
      exact Or.inl ⟨_, harg, hnone, rfl⟩
  | argumentName hline hargs htwice =>
      refine Or.inr (hown hline ((shows_own _ _).mpr ?_))
      rw [hargs]
      exact Or.inr ⟨_, htwice, rfl⟩

end Frame

/-- A payload that is too long or empty has no pieces. -/
theorem not_quoted {maxSize : Nat} {payload : Bytes} (hheader : headerContent maxSize payload = [])
    (hbody : bodyContent maxSize payload = []) (piece : Bytes) : ¬ Quoted maxSize payload piece := by
  intro h
  cases h with
  | word hword | headerKey hword | hr hword =>
      rw [hheader] at hword
      exact absurd hword List.not_mem_nil
  | token hline | call hline | argument hline | argumentName hline =>
      rw [hbody] at hline
      exact absurd hline List.not_mem_nil
  | key hgroup htwice =>
      have hone : Lib.Split.pieces isRoleLine [] = [[]] := rfl
      rw [hbody, hone] at hgroup
      obtain rfl := List.mem_singleton.mp hgroup
      rw [List.flatMap_nil, List.count_nil] at htwice
      omega

/-- The diagnostics show exactly the pieces of the payload that are faulty. -/
theorem shows_iff_quoted (maxSize : Nat) (payload piece : Bytes) :
    Shows (readFrame maxSize payload).2 piece ↔ Quoted maxSize payload piece := by
  by_cases hsize : maxSize < payload.length
  · have hlog : (readFrame maxSize payload).2 = [.oversize] := by
      unfold readFrame
      rw [if_pos hsize]
    rw [hlog, shows_singleton]
    exact iff_of_false nofun (not_quoted (if_pos hsize) (if_pos hsize) piece)
  · cases hparts : frameParts payload with
    | none =>
        have hlog : (readFrame maxSize payload).2 = [.emptyPayload] := by
          unfold readFrame
          rw [if_neg hsize, hparts]
        rw [hlog, shows_singleton]
        refine iff_of_false nofun (not_quoted ?_ ?_ piece)
        · rw [headerContent, if_neg hsize, hparts]
          rfl
        · rw [bodyContent, if_neg hsize, hparts]
          rfl
    | some parts =>
        have hle := Nat.le_of_not_lt hsize
        refine ⟨fun h => ?_, shows_of_quoted hle hparts⟩
        rcases (shows_parts hle hparts piece).mp h with ⟨word, hword, h⟩ | ⟨group, hgroup, h⟩
        · exact quoted_of_word hword h
        · exact quoted_of_group hgroup h

/-- Recovery counts the diagnostics of a tolerant parse exactly when no piece that
they quote contains the separator. -/
theorem errors_found_iff {maxSize : Nat} {payload : Bytes} {frame ast : AST} {log : List Fault}
    (hrun : parseFrame maxSize payload .tolerant [] = .ok (frame, log))
    (h : parse .tolerant maxSize payload = .ok ast) (timestamp originalPayload : Bytes) :
    ((analyzeAndRecover timestamp ast originalPayload).errorsFound = log.length ∧
      ((analyzeAndRecover timestamp ast originalPayload).errorsFound = 0 ↔ log = [])) ↔
      ∀ piece, Quoted maxSize payload piece → ¬ diagnosticSeparator <:+: piece := by
  rw [parseFrame_tolerant, List.nil_append] at hrun
  obtain ⟨rfl, rfl⟩ := Prod.mk.inj (Except.ok.inj hrun)
  rw [parse_tolerant] at h
  obtain rfl := Except.ok.inj h
  rw [(analyzeAndRecover_counts timestamp _ originalPayload).2.2, Nat.cast_inj, Nat.cast_eq_zero]
  have hzero : diagnosticCount ((readFrame maxSize payload).2.foldl appendDiagnostic []) = 0 ↔
      (readFrame maxSize payload).2 = [] := by
    rw [diagnosticCount_log, Nat.add_eq_zero_iff, List.length_eq_zero_iff]
    refine and_iff_left_of_imp fun hnil => ?_
    rw [hnil]
    rfl
  refine (and_iff_left hzero).trans ((diagnosticCount_eq_length _).trans ?_)
  constructor
  · intro hclean piece hquoted
    obtain ⟨fault, hfault, hshown⟩ := (shows_iff_quoted maxSize payload piece).mpr hquoted
    exact hclean fault hfault piece hshown
  · intro hclean fault hfault piece hshown
    exact hclean piece ((shows_iff_quoted maxSize payload piece).mp ⟨fault, hfault, hshown⟩)

def plainTokenFrame : Bytes := ascii "VER:2 CHK:sha256:0 AGT:a REQID:r\n[A] k:v plain"

theorem plain_token_log :
    (readFrame 1048576 plainTokenFrame).2 = [.malformedKVPair (ascii "plain")] := by decide

theorem plain_token_counted :
    ∃ ast, parse .tolerant 1048576 plainTokenFrame = .ok ast ∧
      (analyzeAndRecover [] ast []).errorsFound = 1 := by
  refine ⟨_, parse_tolerant 1048576 plainTokenFrame, ?_⟩
  have hrun := parseFrame_tolerant 1048576 plainTokenFrame []
  rw [plain_token_log] at hrun
  refine ((errors_found_iff hrun (parse_tolerant 1048576 plainTokenFrame) [] []).mpr ?_).1
  intro piece hquoted
  rw [← shows_iff_quoted, plain_token_log, shows_singleton] at hquoted
  obtain rfl := Option.some.inj hquoted
  rw [← countSeparators_eq_zero]
  decide

/-- A quoted text without a colon, and the separator in it. -/
def barredTokenFrame : Bytes := ascii "VER:2 CHK:sha256:0 AGT:a REQID:r\n[A] \"a | b\""

/-- One diagnostic, counted twice. -/
theorem barred_token_counted :
    ∃ frame log ast, parseFrame 1048576 barredTokenFrame .tolerant [] = .ok (frame, log) ∧
      parse .tolerant 1048576 barredTokenFrame = .ok ast ∧ log.length = 1 ∧
      (analyzeAndRecover [] ast []).errorsFound = 2 := by
  refine ⟨_, _, _, parseFrame_tolerant 1048576 barredTokenFrame [],
    parse_tolerant 1048576 barredTokenFrame, ?_, ?_⟩ <;> decide

end LlmTop
