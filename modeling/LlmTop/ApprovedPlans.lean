import LlmTop.ToolArguments

/-!
# What an authorized plan lists

Both lists of the plan against the statements they come from, entry by entry.
-/
namespace LlmTop

/-- The statements `evaluate` walks, the healed ones only when they are accepted. -/
def walkedStatements (ast : AST) (acceptHealed : Bool) : List Statement :=
  ast.statements ++ if acceptHealed then ast.healedDraft else []

def Statement.targets (stmt : Statement) : List (Bytes × Bytes) :=
  stmt.kvpairs.data.filter fun kv => kv.1 == ascii "tgt"

/-- The pointer with its path: the text in front of the first colon, normalized. -/
def approvedTarget (kv : Bytes × Bytes) : ApprovedPointer :=
  ⟨kv.1, normalizePathSegment (kv.2.takeWhile (· != ':'.toUInt8))⟩

/-- The first of the four resource arguments that the call has. -/
def OrderedMap.resourceArgument (args : OrderedMap) : Option Bytes :=
  resourceKeys.find? fun key => (args.find key).isSome

/-- The approved call is the one that was asked for, up to the spelling of its
path. -/
structure ToolCall.ApprovedAs (call : ToolCall) (approved : ApprovedTool) : Prop where
  name : approved.name = call.name
  method : approved.method = call.method
  args : approved.args.data = call.args.data.map fun entry =>
    if some entry.1 = call.args.resourceArgument then (entry.1, normalizePathSegment entry.2)
    else entry

theorem flatten_batchesOf (ast : AST) (acceptHealed : Bool) :
    (batchesOf ast acceptHealed).flatten = walkedStatements ast acceptHealed := by
  unfold batchesOf walkedStatements
  cases acceptHealed with
  | false => simp
  | true =>
      cases hhealed : ast.healedDraft with
      | nil => simp
      | cons stmt rest => simp

theorem extractResourcePath_eq (value : Bytes) :
    extractResourcePath value = value.takeWhile (· != ':'.toUInt8) := by
  unfold extractResourcePath
  cases hcolon : Lib.Search.find ':'.toUInt8 value with
  | none => exact (Lib.Search.takeWhile_of_not_mem (Lib.Search.find_eq_none.mp hcolon)).symm
  | some i => exact Lib.Search.take_find hcolon

/-- The pointer fields of a statement, approved, are its targets. -/
theorem map_approve_pointerFields (stmt : Statement) :
    stmt.pointerFields.map PointerField.approve = stmt.targets.map approvedTarget := by
  unfold Statement.pointerFields Statement.targets
  induction stmt.kvpairs.data with
  | nil => rfl
  | cons kv rest ih =>
      by_cases hkey : isPointerKey kv.1 = true
      · have hfield : PointerField.ofPair kv = some ⟨kv.1, kv.2, hkey⟩ := dif_pos hkey
        have htarget : (kv.1 == ascii "tgt") = true := hkey
        rw [List.filterMap_cons_some hfield, List.filter_cons, if_pos htarget, List.map_cons,
          List.map_cons, ih, PointerField.approve, PointerField.resource, extractResourcePath_eq,
          approvedTarget]
      · have hfield : PointerField.ofPair kv = none := dif_neg hkey
        have htarget : ¬(kv.1 == ascii "tgt") = true := hkey
        rw [List.filterMap_cons_none hfield, List.filter_cons, if_neg htarget, ih]

theorem OrderedMap.resourceArgument_eq (args : OrderedMap) :
    args.resourceArgument =
      if (toolResource args).1.isEmpty then none else some (toolResource args).1 := by
  unfold resourceArgument toolResource
  have hkeys : ∀ key ∈ resourceKeys, key ≠ [] := fun _ => ne_nil_of_mem_resourceKeys
  generalize resourceKeys = keys at hkeys ⊢
  induction keys with
  | nil => rfl
  | cons key keys ih =>
      cases hfind : args.find key with
      | some value =>
          have hne := hkeys key List.mem_cons_self
          simp [hfind, hne]
      | none =>
          have hrest := ih fun k hk => hkeys k (List.mem_cons_of_mem key hk)
          simpa [hfind] using hrest

theorem ToolCall.approve_approvedAs (call : ToolCall) : call.ApprovedAs call.approve := by
  refine ⟨rfl, rfl, ?_⟩
  have hargs : call.approve.args =
      if !call.resourceKey.isEmpty then call.args.set call.resourceKey call.resource
      else call.args := rfl
  have hargument : call.args.resourceArgument =
      if call.resourceKey.isEmpty then none else some call.resourceKey :=
    call.args.resourceArgument_eq
  rw [hargs, hargument]
  rcases toolResource_cases call.args with ⟨key, hkey, value, hfind, hresource⟩ | ⟨-, hresource⟩
  · have hselected : call.resourceKey = key := congrArg Prod.fst hresource
    have hvalue : call.resource = normalizePathSegment value :=
      congrArg normalizePathSegment (congrArg Prod.snd hresource)
    have hne : key.isEmpty = false := by simpa using ne_nil_of_mem_resourceKeys hkey
    rw [hselected, hvalue, hne]
    simp only [Bool.not_false, if_true, Bool.false_eq_true, if_false, Option.some.injEq]
    exact OrderedMap.set_data hfind normalizePathSegment
  · have hselected : call.resourceKey = [] := congrArg Prod.fst hresource
    rw [hselected]
    simp

namespace LLMTOPMiddleware

variable {m : LLMTOPMiddleware} {clock : Clock} {ast : AST} {acceptHealed : Bool}

/-- An authorized plan lists every target and every call of the statements it
was asked for, in their order and nothing else. -/
theorem authorized_plan_complete (h : (m.evaluate clock ast acceptHealed).1.authorized = true) :
    (m.evaluate clock ast acceptHealed).1.errorMessage = [] ∧
      (m.evaluate clock ast acceptHealed).1.approvedPointers =
        ((walkedStatements ast acceptHealed).flatMap Statement.targets).map approvedTarget ∧
      List.Forall₂ ToolCall.ApprovedAs
        ((walkedStatements ast acceptHealed).flatMap Statement.toolCalls)
        (m.evaluate clock ast acceptHealed).1.approvedTools := by
  obtain ⟨-, hpointers, htools⟩ := evaluate_of_authorized h
  refine ⟨?_, ?_, ?_⟩
  · rw [(plan_of_authorized h).2, Entry.recordAll_eq]
  · rw [hpointers, pointerFieldsOf, flatten_batchesOf, List.map_flatMap, List.map_flatMap]
    exact List.flatMap_congr fun stmt _ => map_approve_pointerFields stmt
  · rw [htools, toolCallsOf, flatten_batchesOf, List.forall₂_map_right_iff, List.forall₂_same]
    exact fun call _ => call.approve_approvedAs

end LLMTOPMiddleware

theorem agreeing_plan_complete :
    ∃ ast, parse .strict 1048576 agreeingArgumentsFrame = .ok ast ∧
      List.Forall₂ ToolCall.ApprovedAs ((walkedStatements ast false).flatMap Statement.toolCalls)
        ((exampleMiddleware sourceGrants).evaluate (fun _ => 0) ast false).1.approvedTools := by
  have hrun : (parse .strict 1048576 agreeingArgumentsFrame).toOption.any (fun ast =>
      ((exampleMiddleware sourceGrants).evaluate (fun _ => 0) ast false).1.authorized) = true := by
    decide +kernel
  obtain ⟨ast, hparse, hauthorized⟩ := exists_of_parse_any hrun
  exact ⟨ast, hparse, (LLMTOPMiddleware.authorized_plan_complete hauthorized).2.2⟩

end LlmTop
