import LlmTop.Authorization

/-!
# The resource arguments of an approved call

`tool_resource` picks one of the four argument names; the approved map carries
that one rewritten and the others as they came.
-/
namespace LlmTop

theorem toolResource_cases (args : OrderedMap) :
    (∃ key ∈ resourceKeys, ∃ value, args.find key = some value ∧ toolResource args = (key, value)) ∨
      ((∀ key ∈ resourceKeys, args.find key = none) ∧ toolResource args = ([], [])) := by
  unfold toolResource
  cases hfound : resourceKeys.findSome? fun key => (args.find key).map fun value => (key, value) with
  | none =>
      refine Or.inr ⟨fun key hkey => ?_, rfl⟩
      simpa using List.findSome?_eq_none_iff.mp hfound key hkey
  | some found =>
      obtain ⟨key, hkey, hvalue⟩ := List.exists_of_findSome?_eq_some hfound
      obtain ⟨value, hfind, rfl⟩ := Option.map_eq_some_iff.mp hvalue
      exact Or.inl ⟨key, hkey, value, hfind, rfl⟩

theorem ne_nil_of_mem_resourceKeys {key : Bytes} (h : key ∈ resourceKeys) : key ≠ [] := by
  revert key
  decide

namespace ToolCall

theorem find_approve_args (call : ToolCall) {key : Bytes} (h : key ∈ resourceKeys) :
    call.approve.args.find key =
      if key = call.resourceKey then some call.resource else call.args.find key := by
  have hargs : call.approve.args =
      if !call.resourceKey.isEmpty then call.args.set call.resourceKey call.resource
      else call.args := rfl
  rw [hargs]
  cases hempty : call.resourceKey.isEmpty with
  | true =>
      have hne : key ≠ call.resourceKey := by
        rw [List.isEmpty_iff.mp hempty]
        exact ne_nil_of_mem_resourceKeys h
      simp [hne]
  | false =>
      rw [Bool.not_false, if_pos rfl]
      exact OrderedMap.find_set ..

/-- Every resource argument but the selected one holds the selected path in its
normalized form. -/
def ArgumentsAgree (call : ToolCall) : Prop :=
  ∀ key ∈ resourceKeys, ∀ value, call.args.find key = some value → key ≠ call.resourceKey →
    value = call.resource

instance (call : ToolCall) : Decidable call.ArgumentsAgree :=
  inferInstanceAs (Decidable (∀ key ∈ resourceKeys, ∀ value ∈ call.args.find key,
    key ≠ call.resourceKey → value = call.resource))

end ToolCall

/-- Every resource argument is a confined normalized path, the resource the
capability was checked for. -/
def ApprovedTool.ArgumentsBound (approved : ApprovedTool) : Prop :=
  ∀ key ∈ resourceKeys, ∀ value, approved.args.find key = some value →
    normalizePathSegment value = value ∧ escapesRoot value = false ∧ value = approved.resource

theorem ToolCall.argumentsBound_iff {call : ToolCall} (h : escapesRoot call.resource = false) :
    call.approve.ArgumentsBound ↔ call.ArgumentsAgree := by
  constructor
  · intro hbound key hkey value hvalue hne
    refine (hbound key hkey value ?_).2.2
    rw [call.find_approve_args hkey, if_neg hne, hvalue]
  · intro hagree key hkey value hvalue
    have hresource : value = call.resource := by
      rw [call.find_approve_args hkey] at hvalue
      split at hvalue
      · exact (Option.some.inj hvalue).symm
      · rename_i hne
        exact hagree key hkey value hvalue hne
    subst hresource
    exact ⟨normalizePathSegment_idem _, h, rfl⟩

namespace LLMTOPMiddleware

variable {m : LLMTOPMiddleware} {clock : Clock} {ast : AST} {acceptHealed : Bool}

theorem AllAdmitted.tool (h : m.AllAdmitted clock ast acceptHealed) {call : ToolCall}
    (hcall : call ∈ toolCallsOf ast acceptHealed) :
    ∃ tick, (Entry.tool call).Admitted m (clock tick) ast.header.agt := by
  obtain ⟨stmt, hstmt, hmem⟩ := List.mem_flatMap.mp hcall
  have hentry : Entry.tool call ∈ entriesOf ast acceptHealed := by
    refine List.mem_flatMap.mpr ⟨stmt, hstmt, List.mem_append_right _ ?_⟩
    exact List.mem_map_of_mem hmem
  obtain ⟨tick, htick⟩ := Lib.Guarded.exists_index_of_mem hentry 1
  exact ⟨tick, h _ htick⟩

/-- The plan binds each call's selected resource; it binds every resource
argument exactly when the unselected ones agree with the selected one. -/
theorem approved_arguments_bound_iff
    (h : (m.evaluate clock ast acceptHealed).1.authorized = true) :
    (∀ approved ∈ (m.evaluate clock ast acceptHealed).1.approvedTools,
        ∃ call ∈ toolCallsOf ast acceptHealed, approved = call.approve ∧ ∃ tick,
          call.CheckedAgainst m (clock tick) ast.header.agt (toolScope call approved.resource)) ∧
      ((∀ approved ∈ (m.evaluate clock ast acceptHealed).1.approvedTools,
          approved.ArgumentsBound) ↔
        ∀ call ∈ toolCallsOf ast acceptHealed, call.ArgumentsAgree) := by
  obtain ⟨hall, -, htools⟩ := evaluate_of_authorized h
  rw [htools]
  constructor
  · intro approved happroved
    obtain ⟨call, hcall, rfl⟩ := List.mem_map.mp happroved
    obtain ⟨tick, htick⟩ := hall.tool hcall
    exact ⟨call, hcall, rfl, tick, (Entry.admitted_tool.mp htick).2⟩
  · rw [List.forall_mem_map]
    refine forall₂_congr fun call hcall => ?_
    obtain ⟨tick, htick⟩ := hall.tool hcall
    exact ToolCall.argumentsBound_iff htick.1

end LLMTOPMiddleware
def sourceGrants : List Bytes := [ascii "execute:ls:src/**"]

def agreeingArgumentsFrame : Bytes :=
  ascii "VER:2 CHK:sha256:0 AGT:a REQID:r\n!ls[path=src/./a;file=src/a]"

theorem agreeing_arguments_bound :
    ∃ ast, parse .strict 1048576 agreeingArgumentsFrame = .ok ast ∧
      ∀ approved ∈ ((exampleMiddleware sourceGrants).evaluate (fun _ => 0) ast
        false).1.approvedTools, approved.ArgumentsBound := by
  have hrun : (parse .strict 1048576 agreeingArgumentsFrame).toOption.any (fun ast =>
      ((exampleMiddleware sourceGrants).evaluate (fun _ => 0) ast false).1.authorized &&
        (toolCallsOf ast false).all fun call => call.ArgumentsAgree) = true := by
    decide +kernel
  obtain ⟨ast, hparse, h⟩ := exists_of_parse_any hrun
  simp only [Bool.and_eq_true, List.all_eq_true, decide_eq_true_eq] at h
  exact ⟨ast, hparse, (LLMTOPMiddleware.approved_arguments_bound_iff h.1).2.mpr h.2⟩

def escapingArgumentFrame : Bytes :=
  ascii "VER:2 CHK:sha256:0 AGT:a REQID:r\n!ls[path=src/a;target=../../etc]"

/-- `path` is authorized and `target` climbs out of the root, into the plan. -/
theorem escaping_argument_approved :
    ∃ ast, parse .strict 1048576 escapingArgumentFrame = .ok ast ∧
      ((exampleMiddleware sourceGrants).evaluate (fun _ => 0) ast false).1.authorized = true ∧
      ∃ approved ∈ ((exampleMiddleware sourceGrants).evaluate (fun _ => 0) ast
        false).1.approvedTools, approved.args.find (ascii "target") = some (ascii "../../etc") ∧
        ¬approved.ArgumentsBound := by
  have hrun : (parse .strict 1048576 escapingArgumentFrame).toOption.any (fun ast =>
      let plan := ((exampleMiddleware sourceGrants).evaluate (fun _ => 0) ast false).1
      plan.authorized && plan.approvedTools.any fun approved =>
        approved.args.find (ascii "target") == some (ascii "../../etc")) = true := by
    decide +kernel
  obtain ⟨ast, hparse, h⟩ := exists_of_parse_any hrun
  simp only [Bool.and_eq_true, List.any_eq_true, beq_iff_eq] at h
  obtain ⟨hauthorized, approved, happroved, htarget⟩ := h
  refine ⟨ast, hparse, hauthorized, approved, happroved, htarget, fun hbound => ?_⟩
  obtain ⟨-, hescapes, -⟩ := hbound (ascii "target") (by decide) _ htarget
  revert hescapes
  decide

end LlmTop
