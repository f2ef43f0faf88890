import LlmTop.Authorization

/-!
# What a rejected plan still lists
-/
namespace LlmTop

theorem Entry.recordAll_authorized (entries : List Entry) :
    (Entry.recordAll entries).authorized = false := by
  rw [Entry.recordAll_eq]

theorem Entry.recordAll_eq_nil {entries : List Entry} :
    (Entry.recordAll entries).approvedPointers = [] ∧ (Entry.recordAll entries).approvedTools = [] ↔
      entries = [] := by
  rw [Entry.recordAll_eq]
  cases entries with
  | nil => simp
  | cons e rest => cases e <;> simp [Entry.field, Entry.call]

namespace LLMTOPMiddleware

variable (m : LLMTOPMiddleware) (clock : Clock) (ast : AST) (acceptHealed : Bool)

/-- The first entry is admitted, and then a later one is not or the store does
not take the request. -/
def RefusedAfterApproval : Prop :=
  m.GatesOpen clock ast acceptHealed ∧
    ∃ first rest, entriesOf ast acceptHealed = first :: rest ∧
      first.Admitted m (clock 1) ast.header.agt ∧
      ((∃ entry ∈ rest.zipIdx 2, ¬entry.1.Admitted m (clock entry.2) ast.header.agt) ∨
        ¬m.Recordable clock ast acceptHealed)

def ApprovesNothing (plan : ExecutionPlan) : Prop :=
  plan.approvedPointers = [] ∧ plan.approvedTools = [] ∧ plan.approvedActions = []

variable {m clock ast acceptHealed}

theorem refusedAfterApproval_of_refused {before after : List Entry} {e : Entry}
    (hgates : m.GatesOpen clock ast acceptHealed)
    (hentries : entriesOf ast acceptHealed = before ++ e :: after)
    (hbefore : ∀ entry ∈ before.zipIdx 1, entry.1.Admitted m (clock entry.2) ast.header.agt)
    (hrefused : ¬e.Admitted m (clock (before.length + 1)) ast.header.agt) :
    m.RefusedAfterApproval clock ast acceptHealed ↔ before ≠ [] := by
  cases before with
  | nil =>
      refine ⟨?_, fun h => absurd rfl h⟩
      rintro ⟨-, first, rest, heq, hfirst, -⟩
      obtain ⟨rfl, -⟩ : e = first ∧ after = rest := by simpa [hentries] using heq
      exact absurd hfirst hrefused
  | cons first rest =>
      refine ⟨fun _ => List.cons_ne_nil _ _, fun _ => ⟨hgates, first, rest ++ e :: after, hentries,
        hbefore (first, 1) (by simp), Or.inl ⟨(e, rest.length + 2), ?_, hrefused⟩⟩⟩
      rw [List.zipIdx_append, List.mem_append, List.zipIdx_cons, Nat.add_comm]
      exact Or.inr (List.mem_cons_self ..)

theorem refusedAfterApproval_of_allAdmitted (hgates : m.GatesOpen clock ast acceptHealed)
    (hall : m.AllAdmitted clock ast acceptHealed) :
    m.RefusedAfterApproval clock ast acceptHealed ↔
      entriesOf ast acceptHealed ≠ [] ∧ ¬m.Recordable clock ast acceptHealed := by
  constructor
  · rintro ⟨-, first, rest, hentries, -, ⟨entry, hentry, hrefused⟩ | hrecord⟩
    · refine absurd (hall entry ?_) hrefused
      rw [hentries, List.zipIdx_cons]
      exact List.mem_cons_of_mem _ hentry
    · exact ⟨by simp [hentries], hrecord⟩
  · rintro ⟨hne, hrecord⟩
    obtain ⟨first, rest, hentries⟩ := List.exists_cons_of_ne_nil hne
    refine ⟨hgates, first, rest, hentries, hall (first, 1) ?_, Or.inr hrecord⟩
    rw [hentries, List.zipIdx_cons]
    exact List.mem_cons_self ..

/-- A rejected plan approves nothing exactly when the refusal comes before the
first approval. -/
theorem rejected_approves_nothing_iff (m : LLMTOPMiddleware) (clock : Clock) (ast : AST)
    (acceptHealed : Bool) :
    ((m.evaluate clock ast acceptHealed).1.authorized = false →
        ApprovesNothing (m.evaluate clock ast acceptHealed).1) ↔
      ¬m.RefusedAfterApproval clock ast acceptHealed := by
  have houtcome := m.evaluate_outcome clock ast acceptHealed
  generalize (m.evaluate clock ast acceptHealed).1 = plan at houtcome
  cases houtcome with
  | gated hgates => exact ⟨fun _ h => hgates h.1, fun _ _ => ⟨rfl, rfl, rfl⟩⟩
  | @refused before after e message hgates hentries hbefore hrefused =>
      rw [refusedAfterApproval_of_refused hgates hentries hbefore hrefused, not_not]
      constructor
      · intro h
        obtain ⟨hpointers, htools, -⟩ := h (Entry.recordAll_authorized before)
        exact Entry.recordAll_eq_nil.mp ⟨hpointers, htools⟩
      · rintro rfl -
        exact ⟨rfl, rfl, rfl⟩
  | unrecorded hgates hall hrecord =>
      rw [refusedAfterApproval_of_allAdmitted hgates hall]
      constructor
      · rintro h ⟨hne, -⟩
        obtain ⟨hpointers, htools, -⟩ := h (Entry.recordAll_authorized _)
        exact hne (Entry.recordAll_eq_nil.mp ⟨hpointers, htools⟩)
      · intro hempty _
        obtain ⟨hpointers, htools⟩ := Entry.recordAll_eq_nil.mpr
          (not_not.mp fun hne => hempty ⟨hne, hrecord⟩)
        exact ⟨hpointers, htools, rfl⟩
  | authorized hgates hall hrecord =>
      rw [refusedAfterApproval_of_allAdmitted hgates hall]
      exact ⟨fun _ h => h.2 hrecord, fun _ h => nomatch h⟩

end LLMTOPMiddleware

def secondRefusedFrame : Bytes := ascii "VER:2 CHK:sha256:0 AGT:a REQID:r\n!ls[]\n!rm[]"

/-- The session may call `ls` and not `rm`; the rejected plan lists `ls`. -/
theorem rejected_plan_lists_tool :
    ∃ ast, parse .strict 1048576 secondRefusedFrame = .ok ast ∧
      ((exampleMiddleware [ascii "execute:ls"]).evaluate (fun _ => 0) ast false).1.authorized =
        false ∧
      ((exampleMiddleware [ascii "execute:ls"]).evaluate (fun _ => 0) ast
        false).1.approvedTools.map ApprovedTool.name = [ascii "ls"] ∧
      ¬LLMTOPMiddleware.ApprovesNothing
        ((exampleMiddleware [ascii "execute:ls"]).evaluate (fun _ => 0) ast false).1 := by
  have hrun : (parse .strict 1048576 secondRefusedFrame).toOption.any (fun ast =>
      let plan := ((exampleMiddleware [ascii "execute:ls"]).evaluate (fun _ => 0) ast false).1
      !plan.authorized && plan.approvedTools.map ApprovedTool.name == [ascii "ls"]) = true := by
    decide +kernel
  obtain ⟨ast, hparse, h⟩ := exists_of_parse_any hrun
  simp only [Bool.and_eq_true, Bool.not_eq_true', beq_iff_eq] at h
  obtain ⟨hauthorized, hlisted⟩ := h
  refine ⟨ast, hparse, hauthorized, hlisted, ?_⟩
  rintro ⟨-, htools, -⟩
  rw [htools] at hlisted
  contradiction

end LlmTop
