import LlmTop.StatementGroups

/-!
# Keys of accepted statements

Which tokens of a strict frame become keys, and when a key holds text of a tool
call.
-/
namespace LlmTop
open Lib.Faults

/-- One of the bytes that delimit a tool call. -/
def isCallMark (c : UInt8) : Bool := c == '!'.toUInt8 || c == '['.toUInt8 || c == ']'.toUInt8

/-- A bare identifier stands in front of the first `=`. -/
def BindsIdentifier (token : Bytes) : Prop :=
  '='.toUInt8 ∈ token ∧ isBareIdentifier (token.takeWhile (· != '='.toUInt8)) = true

instance (token : Bytes) : Decidable (BindsIdentifier token) :=
  inferInstanceAs (Decidable (_ ∧ _))

theorem ident_of_bare {s : Bytes} (h : isBareIdentifier s = true) {c : UInt8} (hc : c ∈ s) :
    (isAlnum c || c == '_'.toUInt8) = true := by
  unfold isBareIdentifier at h
  exact List.all_eq_true.mp (Bool.and_eq_true_iff.mp h).2 c hc

/-- The guard on the `=` of a token. -/
theorem filter_equals (token : Bytes) :
    ((Lib.Search.find '='.toUInt8 token).filter fun i => isBareIdentifier (token.take i)) =
      if BindsIdentifier token then Lib.Search.find '='.toUInt8 token else none := by
  cases hequals : Lib.Search.find '='.toUInt8 token with
  | none => exact (ite_self none).symm
  | some i =>
      have hmem : '='.toUInt8 ∈ token := Lib.Search.mem_of_find hequals
      have hbinds : BindsIdentifier token ↔ isBareIdentifier (token.take i) = true := by
        rw [BindsIdentifier, and_iff_right hmem, Lib.Search.take_find hequals]
      rw [Option.filter_some]
      exact if_congr hbinds.symm rfl rfl

/-- The key of a token: the identifier that a `=` binds, else the text in front
of the first `:`. -/
theorem splitToken_key (token : Bytes) :
    (splitToken token).map Prod.fst =
      if BindsIdentifier token then some (token.takeWhile (· != '='.toUInt8))
      else if ':'.toUInt8 ∈ token then some (token.takeWhile (· != ':'.toUInt8))
      else none := by
  have hkey : (splitToken token).map Prod.fst = (minPos (Lib.Search.find ':'.toUInt8 token)
      (if BindsIdentifier token then Lib.Search.find '='.toUInt8 token else none)).map
        fun sep => token.take sep := by
    rw [← filter_equals, splitToken, Option.map_map]
    rfl
  rw [hkey]
  split
  · rename_i hbinds
    obtain ⟨i, hequals⟩ := Lib.Search.exists_find hbinds.1
    have htake := Lib.Search.take_find hequals
    rw [hequals]
    cases hcolon : Lib.Search.find ':'.toUInt8 token with
    | none => exact congrArg some htake
    | some j =>
        -- A colon in front of the `=` would be part of the identifier.
        have hle : i ≤ j := by
          by_contra hlt
          have hmem : ':'.toUInt8 ∈ token.take i :=
            Lib.Search.mem_take_of_find hcolon (Nat.lt_of_not_le hlt)
          exact absurd (ident_of_bare hbinds.2 (htake ▸ hmem)) (by decide)
        rw [minPos, Option.map_some, Nat.min_eq_right hle, htake]
  · have hmin : ∀ sep : Option Nat, minPos sep none = sep := fun sep => by cases sep <;> rfl
    rw [hmin]
    cases hcolon : Lib.Search.find ':'.toUInt8 token with
    | none => exact (if_neg (Lib.Search.find_eq_none.mp hcolon)).symm
    | some j =>
        rw [if_pos (Lib.Search.mem_of_find hcolon), Option.map_some, Lib.Search.take_find hcolon]

/-! ## Keys of a statement -/

theorem keysOf_groupPairs (group : List Bytes) :
    keysOf (groupPairs group) = group.flatMap lineKeys := by
  have htokens := flatMap_lineTokens group
  have hkeys : group.flatMap lineKeys = tokenKeys splitToken (group.flatMap lineTokens) := by
    rw [tokenKeys, List.filterMap_flatMap]
    rfl
  rw [hkeys, htokens, keysOf, groupPairs, List.map_filterMap, tokenKeys]
  refine List.filterMap_congr fun token _ => ?_
  rw [Option.map_map]
  rfl

/-- The keys of all statements are those of the body's lines. -/
theorem mem_statementKeys {maxSize : Nat} {payload key : Bytes} :
    (∃ group ∈ statementGroups maxSize payload,
        key ∈ keysOf (groupStatement group).kvpairs.data) ↔
      ∃ line ∈ bodyContent maxSize payload, key ∈ lineKeys line := by
  have hkeys : ∀ line, lineKeys line ≠ [] → contributes [line] = true := by
    intro line hne
    cases hline : lineKeys line with
    | nil => contradiction
    | cons k keys => simp [contributes, hline]
  have hgroups := congrArg (key ∈ ·) (flatMap_groupsOf hkeys (bodyContent maxSize payload))
  simp only [List.mem_flatMap] at hgroups
  simp only [groupStatement, OrderedMap.mem_keysOf_ofPairs, keysOf_groupPairs, List.mem_flatMap]
  exact iff_of_eq hgroups

/-! ## Strict frames -/

/-- Every line of an accepted frame is read without a fault. -/
theorem strict_line_clean {maxSize : Nat} {payload : Bytes} (h : (readFrame maxSize payload).2 = [])
    {line : Bytes} (hline : line ∈ bodyContent maxSize payload) :
    ∃ stmt, lineFaults stmt line = [] := by
  obtain ⟨hsize, parts, hparts, hfaults, -⟩ := readFrame_of_clean h
  rw [bodyContent_parts hsize hparts] at hline
  have hbody := (List.append_eq_nil_iff.mp hfaults).2
  rw [faultsAlong_bodyNext] at hbody
  obtain ⟨b, hline⟩ := faults_eq_nil_of_mem hbody hline
  exact ⟨_, hline⟩

/-- An accepted frame has no token without a separator. -/
theorem strict_tokens_split {maxSize : Nat} {payload : Bytes}
    (h : (readFrame maxSize payload).2 = []) {line token : Bytes}
    (hline : line ∈ bodyContent maxSize payload) (htoken : token ∈ lineTokens line) :
    (splitToken token).isSome = true := by
  obtain ⟨stmt, hnone⟩ := strict_line_clean h hline
  have hdrops := lineFaults_drop stmt line
  rw [hnone, List.any_nil] at hdrops
  have htokens := (Bool.or_eq_false_iff.mp hdrops.symm).1
  rw [List.any_eq_false] at htokens
  simpa [Option.isSome_iff_ne_none] using htokens token htoken

/-- The key of a token that splits is free of call marks, or a `:` cut it off
behind one. -/
theorem token_key_plain_iff {token : Bytes} (hsplit : (splitToken token).isSome = true) :
    (∀ key ∈ (splitToken token).map Prod.fst, ∀ c ∈ key, isCallMark c = false) ↔
      ((∃ c ∈ token.takeWhile (· != ':'.toUInt8), isCallMark c = true) → BindsIdentifier token) := by
  have hkey := splitToken_key token
  by_cases hbinds : BindsIdentifier token
  · rw [if_pos hbinds] at hkey
    rw [hkey]
    refine iff_of_true ?_ fun _ => hbinds
    rintro key ⟨⟩ c hc
    have hident := ident_of_bare hbinds.2 hc
    have hall := of_all_bytes
      (p := fun c => !(isAlnum c || c == '_'.toUInt8) || !isCallMark c) (by decide +kernel) c
    simpa [hident] using hall
  · have hcolon : ':'.toUInt8 ∈ token := by
      by_contra hnone
      rw [if_neg hbinds, if_neg hnone, Option.map_eq_none_iff] at hkey
      rw [hkey] at hsplit
      contradiction
    rw [if_neg hbinds, if_pos hcolon] at hkey
    rw [hkey]
    simp [hbinds]

theorem mem_lineKeys {line key : Bytes} :
    key ∈ lineKeys line ↔ ∃ token ∈ lineTokens line, key ∈ (splitToken token).map Prod.fst := by
  rw [lineKeys, tokenKeys, List.mem_filterMap]
  rfl

section Accepted

variable {maxSize : Nat} {payload : Bytes} {ast : AST}

/-- The keys of an accepted frame are those of its lines. -/
theorem mem_acceptedKeys (h : parse .strict maxSize payload = .ok ast) {key : Bytes} :
    (∃ stmt ∈ ast.statements, key ∈ keysOf stmt.kvpairs.data) ↔
      ∃ line ∈ bodyContent maxSize payload, key ∈ lineKeys line := by
  obtain ⟨hclean, -, hast⟩ := parse_strict_eq_ok.mp h
  have hperm := statements_perm h
  have hdraft : ast.healedDraft = [] := hast ▸ (readFrame_clean hclean).1
  rw [hdraft, List.append_nil] at hperm
  rw [← mem_statementKeys]
  simp only [hperm.mem_iff, List.mem_map, exists_exists_and_eq_and]

/-- The keys of an accepted frame are free of call marks exactly when each token
with one in front of its first colon has its `=` behind a bare identifier. -/
theorem strict_keys_plain_iff (h : parse .strict maxSize payload = .ok ast) :
    (∀ stmt ∈ ast.statements, ∀ key ∈ keysOf stmt.kvpairs.data, ∀ c ∈ key,
        isCallMark c = false) ↔
      ∀ line ∈ bodyContent maxSize payload, ∀ token ∈ lineTokens line,
        (∃ c ∈ token.takeWhile (· != ':'.toUInt8), isCallMark c = true) → BindsIdentifier token := by
  have hclean := (parse_strict_eq_ok.mp h).1
  have hkeys : (∀ stmt ∈ ast.statements, ∀ key ∈ keysOf stmt.kvpairs.data, ∀ c ∈ key,
      isCallMark c = false) ↔ ∀ line ∈ bodyContent maxSize payload, ∀ token ∈ lineTokens line,
        ∀ key ∈ (splitToken token).map Prod.fst, ∀ c ∈ key, isCallMark c = false := by
    constructor
    · intro hall line hline token htoken key hkey
      obtain ⟨stmt, hstmt, hmem⟩ :=
        (mem_acceptedKeys h).mpr ⟨line, hline, mem_lineKeys.mpr ⟨token, htoken, hkey⟩⟩
      exact hall stmt hstmt key hmem
    · intro hall stmt hstmt key hkey
      obtain ⟨line, hline, hmem⟩ := (mem_acceptedKeys h).mp ⟨stmt, hstmt, hkey⟩
      obtain ⟨token, htoken, hsplit⟩ := mem_lineKeys.mp hmem
      exact hall line hline token htoken key hsplit
  rw [hkeys]
  refine forall₂_congr fun line hline => forall₂_congr fun token htoken => ?_
  exact token_key_plain_iff (strict_tokens_split hclean hline htoken)

end Accepted

def markedValuesFrame : Bytes :=
  ascii "VER:2 CHK:sha256:0 AGT:a UID:u TIM:t REQID:r\n[A] k:a[1]! x=!y[:z]"

theorem marked_values_plain_keys :
    ∃ ast, parse .strict 1048576 markedValuesFrame = .ok ast ∧
      ∀ stmt ∈ ast.statements, ∀ key ∈ keysOf stmt.kvpairs.data, ∀ c ∈ key,
        isCallMark c = false := by
  have hrun : (parse .strict 1048576 markedValuesFrame).toOption.any (fun _ => true) = true := by
    decide +kernel
  obtain ⟨ast, hparse, -⟩ := exists_of_parse_any hrun
  exact ⟨ast, hparse, (strict_keys_plain_iff hparse).mpr (by decide +kernel)⟩

def colonCallFrame : Bytes :=
  ascii "VER:2 CHK:sha256:0 AGT:a UID:u TIM:t REQID:r\n[A] !read[path=a:b]"

/-- The colon in its argument turns the call into a key. -/
theorem colon_call_becomes_key :
    ∃ ast, parse .strict 1048576 colonCallFrame = .ok ast ∧
      (ast.statements.all fun stmt => stmt.toolCalls.isEmpty) = true ∧
      (∃ stmt ∈ ast.statements, ascii "!read[path=a" ∈ keysOf stmt.kvpairs.data) ∧
      ¬ ∀ stmt ∈ ast.statements, ∀ key ∈ keysOf stmt.kvpairs.data, ∀ c ∈ key,
        isCallMark c = false := by
  have hrun : (parse .strict 1048576 colonCallFrame).toOption.any (fun ast =>
      (ast.statements.all fun stmt => stmt.toolCalls.isEmpty) &&
        ast.statements.any fun stmt =>
          decide (ascii "!read[path=a" ∈ keysOf stmt.kvpairs.data)) = true := by decide +kernel
  obtain ⟨ast, hparse, h⟩ := exists_of_parse_any hrun
  obtain ⟨hcalls, hkey⟩ := Bool.and_eq_true_iff.mp h
  obtain ⟨stmt, hstmt, hmem⟩ := List.any_eq_true.mp hkey
  have hbang : isCallMark '!'.toUInt8 ≠ false := by decide
  exact ⟨ast, hparse, hcalls, ⟨stmt, hstmt, of_decide_eq_true hmem⟩, fun hplain =>
    hbang (hplain stmt hstmt _ (of_decide_eq_true hmem) _ List.mem_cons_self)⟩

end LlmTop
