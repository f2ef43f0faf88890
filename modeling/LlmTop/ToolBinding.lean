import LlmTop.ToolArguments

/-!
# Capabilities that name a tool

What a granted scope `execute:N` or `execute:N:P` says about the calls approved
under it.  The requested scope is glued together with `:` and taken apart again,
each piece as a path; a name in one piece survives that and any other may not.
-/
namespace LlmTop

/-- The name is one colon segment and one path segment. -/
structure PlainName (name : Bytes) : Prop where
  nonempty : name ≠ []
  no_colon : ∀ c ∈ name, isColon c = false
  no_separator : ∀ c ∈ name, isPathSeparator c = false

/-- A name without a wildcard. -/
structure LiteralName (name : Bytes) : Prop extends PlainName name where
  no_star : '*'.toUInt8 ∉ name

/-- `execute:N`, or `execute:N:P`. -/
def toolGrant (name : Bytes) (pattern : Option Bytes) : Bytes :=
  ascii "execute:" ++ name ++ (pattern.map fun p => ':'.toUInt8 :: p).getD []

theorem colonSegments_toolGrant {name : Bytes} (h : PlainName name) (pattern : Option Bytes) :
    colonSegments (toolGrant name pattern) =
      ascii "execute" :: name :: colonSegments (pattern.getD []) := by
  have hexecute : toolGrant name pattern =
      ascii "execute" ++ ':'.toUInt8 :: (name ++ (pattern.map fun p => ':'.toUInt8 :: p).getD []) := by
    simp [toolGrant, show ascii "execute:" = ascii "execute" ++ [':'.toUInt8] from rfl]
  rw [hexecute, colonSegments, Lib.Split.splitTerminated_append _ (by decide +kernel)
    (by decide)]
  congr 1
  cases pattern with
  | none =>
      have hnil : colonSegments [] = [] := rfl
      simpa [hnil] using Lib.Split.splitTerminated_word h.nonempty h.no_colon
  | some p => exact Lib.Split.splitTerminated_append _ h.no_colon (by decide)

theorem normalizeSegments_plain {name : Bytes} (h : PlainName name) :
    normalizeSegments name kMaxPathSegments = some (if name = dot then [] else [name]) := by
  unfold normalizeSegments
  rw [Lib.Split.splitTerminated_word h.nonempty h.no_separator, List.foldlM_cons]
  unfold pushView
  by_cases hdot : name = dot
  · simp [hdot]
  · simp [hdot, h.nonempty, kMaxPathSegments]

theorem isAbsolute_plain {name : Bytes} (h : PlainName name) : isAbsolute name = false := by
  obtain ⟨c, cs, rfl⟩ := List.exists_cons_of_ne_nil h.nonempty
  exact h.no_separator c List.mem_cons_self

theorem LiteralName.ne_of_star {name wildcard : Bytes} (h : LiteralName name)
    (hstar : '*'.toUInt8 ∈ wildcard) : name ≠ wildcard :=
  fun heq => h.no_star (heq ▸ hstar)

/-- A literal name grants itself and no other plain name, not even as `.`. -/
theorem segmentGrants_literal {name requested : Bytes} (hname : LiteralName name)
    (hrequested : PlainName requested) (h : segmentGrants name requested = true) :
    requested = name := by
  have hall := hname.ne_of_star (show '*'.toUInt8 ∈ doubleStar by decide)
  have hone := hname.ne_of_star (show '*'.toUInt8 ∈ star by decide)
  unfold segmentGrants pathGlobMatchesSegs at h
  rw [normalizeSegments_plain hname.toPlainName, normalizeSegments_plain hrequested,
    isAbsolute_plain hname.toPlainName, isAbsolute_plain hrequested] at h
  by_cases hdot : name = dot <;> by_cases hdot' : requested = dot
  · rw [hdot, hdot']
  · simp [hdot, hdot', globLoop] at h
  · simp [hdot, hdot', globLoop, hall] at h
  · have hmatches : segmentMatches name requested = true := by
      simpa [hdot, hdot', globLoop, hall, hone] using h
    exact ((segmentMatches_literal hname.no_star).mp hmatches).symm

theorem scopeMatches_toolGrant {name requested : Bytes} {pattern resource : Option Bytes}
    (hname : LiteralName name) (hrequested : PlainName requested)
    (h : scopeMatches (toolGrant name pattern) (toolGrant requested resource) = true) :
    requested = name ∧ (pattern = none → resource.getD [] = []) := by
  have hall := hname.ne_of_star (show '*'.toUInt8 ∈ doubleStar by decide)
  have hone := hname.ne_of_star (show '*'.toUInt8 ∈ star by decide)
  have hgrant : toolGrant name pattern ≠ doubleStar := by
    intro heq
    have hhead := congrArg List.head? heq
    revert hhead
    simp [toolGrant, show ascii "execute:" = 'e'.toUInt8 :: ascii "xecute:" by decide]
    decide
  unfold scopeMatches at h
  rw [if_neg hgrant, colonSegments_toolGrant hname.toPlainName, colonSegments_toolGrant hrequested,
    scopeLoop, if_neg (by decide), if_neg (by decide), if_pos (by decide), scopeLoop, if_neg hall,
    if_neg hone] at h
  split at h
  · rename_i hgrants
    refine ⟨segmentGrants_literal hname hrequested hgrants, ?_⟩
    rintro rfl
    have hcount : (colonSegments (resource.getD [])).length = 0 := by
      simpa [scopeLoop, colonSegments] using h
    exact Lib.Split.splitTerminated_eq_nil.mp (List.length_eq_zero_iff.mp hcount)
  · contradiction

theorem covers_toolGrant {name requested : Bytes} {pattern resource : Option Bytes}
    (hname : LiteralName name) (hrequested : PlainName requested)
    (h : Covers (toolGrant name pattern) (toolGrant requested resource)) :
    requested = name ∧ (pattern = none → resource.getD [] = []) := by
  rcases h with heq | hmatches
  · have hsegments := congrArg colonSegments heq
    rw [colonSegments_toolGrant hname.toPlainName, colonSegments_toolGrant hrequested] at hsegments
    simp only [List.cons.injEq, true_and] at hsegments
    refine ⟨hsegments.1.symm, ?_⟩
    rintro rfl
    exact Lib.Split.splitTerminated_eq_nil.mp hsegments.2.symm
  · exact scopeMatches_toolGrant hname hrequested hmatches

namespace ToolCall

theorem scope_eq_toolGrant (call : ToolCall) :
    call.scope = toolGrant call.name (if call.resource = [] then none else some call.resource) := by
  unfold scope LLMTOPMiddleware.toolScope toolGrant
  by_cases hempty : call.resource = []
  · simp [hempty]
  · simp [hempty, show ascii ":" = [':'.toUInt8] by decide]

/-- The one scope the agent has for the call: its token's claim if it carries a
token, else the session's only grant. -/
def Under (call : ToolCall) (m : LLMTOPMiddleware) (agt grant : Bytes) : Prop :=
  match call.token with
  | some token => ∃ claim, tokenClaim token = some claim ∧ claim.scope = grant
  | none => m.sessionGrantedScopes agt = [grant]

theorem covers_of_under {call : ToolCall} {m : LLMTOPMiddleware} {now : Int} {agt grant : Bytes}
    (hunder : call.Under m agt grant) (h : (Entry.tool call).Admitted m now agt) :
    Covers grant call.scope := by
  have hchecked := (Entry.admitted_tool.mp h).2
  unfold Under at hunder
  unfold CheckedAgainst at hchecked
  cases htoken : call.token with
  | some token =>
      rw [htoken] at hunder hchecked
      obtain ⟨claim, hclaim, rfl⟩ := hunder
      obtain ⟨claim', hvouches, -, hempty | hcovers⟩ :=
        LLMTOPMiddleware.validateCapability_iff.mp hchecked
      · exact absurd hempty call.scope_ne_nil
      · obtain rfl : claim = claim' := Option.some.inj (hclaim.symm.trans hvouches.tokenClaim_eq)
        exact hcovers
  | none =>
      rw [htoken] at hunder hchecked
      dsimp only at hunder
      obtain ⟨granted, hgranted, hcovers⟩ :=
        LLMTOPMiddleware.validateProxyCapability_iff.mp hchecked.2
      rw [hunder, List.mem_singleton] at hgranted
      exact hgranted ▸ hcovers

def TakesNoResource (call : ToolCall) : Prop := ∀ key ∈ resourceKeys, call.args.find key = none

instance (call : ToolCall) : Decidable call.TakesNoResource :=
  inferInstanceAs (Decidable (∀ key ∈ resourceKeys, call.args.find key = none))

/-- The call has a resource argument, and its path normalizes to nothing. -/
def NamesRoot (call : ToolCall) : Prop := call.resourceKey ≠ [] ∧ call.resource = []

theorem takesNoResource_iff {call : ToolCall} : call.TakesNoResource ↔ call.resourceKey = [] := by
  unfold resourceKey
  rcases toolResource_cases call.args with ⟨key, hkey, value, hfind, heq⟩ | ⟨hnone, heq⟩
  · rw [heq]
    refine ⟨fun h => ?_, fun h => absurd h (ne_nil_of_mem_resourceKeys hkey)⟩
    rw [h key hkey] at hfind
    contradiction
  · rw [heq]
    exact ⟨fun _ => rfl, fun _ => hnone⟩

end ToolCall

namespace LLMTOPMiddleware

variable {m : LLMTOPMiddleware} {clock : Clock} {ast : AST} {acceptHealed : Bool}

/-- A call approved under `execute:N` or `execute:N:P` has the name `N` exactly
when its name is in one piece; under `execute:N` it takes no resource exactly
when it does not name the root. -/
theorem approved_tool_bound_iff {i : Nat} {call : ToolCall} {name : Bytes} {pattern : Option Bytes}
    (hcall : (toolCallsOf ast acceptHealed)[i]? = some call)
    (happroved : i < (m.evaluate clock ast acceptHealed).1.approvedTools.length)
    (hname : LiteralName name) (hunder : call.Under m ast.header.agt (toolGrant name pattern)) :
    (m.evaluate clock ast acceptHealed).1.approvedTools[i]? = some call.approve ∧
      ((call.name = name ∧ (pattern = none → call.TakesNoResource)) ↔
        (PlainName call.name ∧ (pattern = none → ¬call.NamesRoot))) := by
  obtain ⟨hlisted, tick, hadmitted⟩ := approvedTools_getElem hcall happroved
  refine ⟨hlisted, ?_⟩
  constructor
  · rintro ⟨rfl, hresource⟩
    refine ⟨hname.toPlainName, fun hpattern hroot => hroot.1 ?_⟩
    exact ToolCall.takesNoResource_iff.mp (hresource hpattern)
  · rintro ⟨hplain, hroot⟩
    have hcovers := ToolCall.covers_of_under hunder hadmitted
    rw [call.scope_eq_toolGrant] at hcovers
    obtain ⟨hequal, hempty⟩ := covers_toolGrant hname hplain hcovers
    refine ⟨hequal, fun hpattern => ToolCall.takesNoResource_iff.mpr ?_⟩
    by_contra hkey
    refine hroot hpattern ⟨hkey, ?_⟩
    by_contra hne
    have hnil := hempty hpattern
    rw [if_neg hne] at hnil
    exact hne hnil

end LLMTOPMiddleware

instance (name : Bytes) : Decidable (PlainName name) :=
  decidable_of_iff
    ((!name.isEmpty && name.all (!isColon ·) && name.all (!isPathSeparator ·)) = true) <| by
    simp only [Bool.and_eq_true, Bool.not_eq_true', List.isEmpty_eq_false_iff, List.all_eq_true]
    exact ⟨fun h => ⟨h.1.1, h.1.2, h.2⟩, fun h => ⟨⟨h.nonempty, h.no_colon⟩, h.no_separator⟩⟩

def listFrame : Bytes := ascii "VER:2 CHK:sha256:0 AGT:a REQID:r\n!ls[]"

theorem listed_tool_bound :
    ∃ (ast : AST) (call : ToolCall), parse .strict 1048576 listFrame = .ok ast ∧
      ((exampleMiddleware [ascii "execute:ls"]).evaluate (fun _ => 0) ast
        false).1.approvedTools[0]? = some call.approve ∧
      call.name = ascii "ls" ∧ call.TakesNoResource := by
  have hrun : (parse .strict 1048576 listFrame).toOption.any (fun ast =>
      ast.header.agt == ascii "a" &&
        ((exampleMiddleware [ascii "execute:ls"]).evaluate (fun _ => 0) ast
          false).1.approvedTools.length == 1 &&
        (toolCallsOf ast false)[0]?.any fun call =>
          call.token.isNone && decide (PlainName call.name) && decide (call.resourceKey = []))
      = true := by
    decide +kernel
  obtain ⟨ast, hparse, h⟩ := exists_of_parse_any hrun
  simp only [Bool.and_eq_true, beq_iff_eq, Option.any_eq_true, decide_eq_true_eq,
    Option.isNone_iff_eq_none] at h
  obtain ⟨⟨hagt, happroved⟩, call, hcall, ⟨htoken, hplain⟩, hkey⟩ := h
  have hunder : call.Under (exampleMiddleware [ascii "execute:ls"]) ast.header.agt
      (toolGrant (ascii "ls") none) := by
    simp [ToolCall.Under, htoken, exampleMiddleware, hagt, toolGrant]
    rfl
  have hname : LiteralName (ascii "ls") := ⟨by decide +kernel, by decide +kernel⟩
  obtain ⟨hlisted, hbound⟩ := LLMTOPMiddleware.approved_tool_bound_iff
    hcall (by rw [happroved]; decide) hname hunder
  obtain ⟨hequal, hresource⟩ := hbound.mpr ⟨hplain, fun _ hroot => hroot.1 hkey⟩
  exact ⟨ast, call, hparse, hlisted, hequal, hresource rfl⟩

def renamedFrame : Bytes := ascii "VER:2 CHK:sha256:0 AGT:a REQID:r\n!read:src[]"

/-- The session may `read` below `src`; the tool `read:src` is approved. -/
theorem renamed_tool_approved :
    ∃ ast, parse .strict 1048576 renamedFrame = .ok ast ∧ ast.header.agt = ascii "a" ∧
      ((exampleMiddleware [toolGrant (ascii "read") (some (ascii "src/**"))]).evaluate
        (fun _ => 0) ast false).1.authorized = true ∧
      ((exampleMiddleware [toolGrant (ascii "read") (some (ascii "src/**"))]).evaluate
        (fun _ => 0) ast false).1.approvedTools.map ApprovedTool.name = [ascii "read:src"] := by
  have hrun : (parse .strict 1048576 renamedFrame).toOption.any (fun ast =>
      let plan := ((exampleMiddleware [toolGrant (ascii "read") (some (ascii "src/**"))]).evaluate
        (fun _ => 0) ast false).1
      ast.header.agt == ascii "a" && plan.authorized &&
        plan.approvedTools.map ApprovedTool.name == [ascii "read:src"]) = true := by
    decide +kernel
  obtain ⟨ast, hparse, h⟩ := exists_of_parse_any hrun
  simp only [Bool.and_eq_true, beq_iff_eq] at h
  exact ⟨ast, hparse, h.1.1, h.1.2, h.2⟩

end LlmTop
