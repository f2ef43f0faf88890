import Mathlib.Data.List.Basic

/-!
# A walk that stops at the first refusal

A left fold in `Except`.  An admitted element leads to a known next state; any
other element ends the walk with an error about the state it was met in.
-/
namespace LlmTop.Lib.Guarded

variable {ε σ α : Type}

/-- `step` admits an element and moves on, or refuses it and reports. -/
def Guards (step : σ → α → Except ε σ) (admits : σ → α → Prop) (next : σ → α → σ)
    (refusal : σ → ε → Prop) : Prop :=
  ∀ state x, (admits state x ∧ step state x = .ok (next state x)) ∨
    (¬admits state x ∧ ∃ error, step state x = .error error ∧ refusal state error)

def AdmitsAll (admits : σ → α → Prop) (next : σ → α → σ) : σ → List α → Prop
  | _, [] => True
  | state, x :: xs => admits state x ∧ AdmitsAll admits next (next state x) xs

variable {step : σ → α → Except ε σ} {admits : σ → α → Prop} {next : σ → α → σ}
  {refusal : σ → ε → Prop}

theorem Guards.admitted (h : Guards step admits next refusal) {state : σ} {x : α}
    (hx : admits state x) : step state x = .ok (next state x) := by
  rcases h state x with ⟨-, hstep⟩ | ⟨hnot, -⟩
  · exact hstep
  · exact absurd hx hnot

theorem Guards.refused (h : Guards step admits next refusal) {state : σ} {x : α}
    (hx : ¬admits state x) : ∃ error, step state x = .error error ∧ refusal state error := by
  rcases h state x with ⟨hadmits, -⟩ | ⟨-, herror⟩
  · exact absurd hadmits hx
  · exact herror

theorem Guards.foldlM_ok (h : Guards step admits next refusal) {state : σ} {xs : List α}
    (hall : AdmitsAll admits next state xs) :
    xs.foldlM step state = .ok (xs.foldl next state) := by
  induction xs generalizing state with
  | nil => rfl
  | cons x xs ih =>
      obtain ⟨hx, hrest⟩ := hall
      rw [List.foldlM_cons, h.admitted hx, List.foldl_cons]
      exact ih hrest

/-- A walk that is not admitted as a whole ends at its first refused element. -/
theorem Guards.foldlM_error (h : Guards step admits next refusal) {state : σ} {xs : List α}
    (hall : ¬AdmitsAll admits next state xs) :
    ∃ before x after error, xs = before ++ x :: after ∧ AdmitsAll admits next state before ∧
      ¬admits (before.foldl next state) x ∧ xs.foldlM step state = .error error ∧
      refusal (before.foldl next state) error := by
  induction xs generalizing state with
  | nil => exact absurd trivial hall
  | cons x xs ih =>
      by_cases hx : admits state x
      · have hrest : ¬AdmitsAll admits next (next state x) xs := fun hrest => hall ⟨hx, hrest⟩
        obtain ⟨before, y, after, error, rfl, hbefore, hy, hfold, herror⟩ := ih hrest
        refine ⟨x :: before, y, after, error, rfl, ⟨hx, hbefore⟩, hy, ?_, herror⟩
        rw [List.foldlM_cons, h.admitted hx]
        exact hfold
      · obtain ⟨error, hstep, herror⟩ := h.refused hx
        refine ⟨[], x, xs, error, rfl, trivial, hx, ?_, herror⟩
        rw [List.foldlM_cons, hstep]
        rfl

/-- An error of the walk is the error of some step. -/
theorem exists_step_of_foldlM_error {step : σ → α → Except ε σ} {state : σ} {xs : List α}
    {error : ε} (h : xs.foldlM step state = .error error) :
    ∃ x ∈ xs, ∃ state, step state x = .error error := by
  induction xs generalizing state with
  | nil => exact nomatch h
  | cons x xs ih =>
      rw [List.foldlM_cons] at h
      cases hstep : step state x with
      | error first =>
          rw [hstep] at h
          exact ⟨x, List.mem_cons_self, state, hstep.trans h⟩
      | ok next =>
          rw [hstep] at h
          obtain ⟨y, hy, hstate⟩ := ih h
          exact ⟨y, List.mem_cons_of_mem x hy, hstate⟩

/-- When only a counter of the state decides, the elements are admitted one by
one, each with the count it is met at. -/
theorem admitsAll_iff_zipIdx (admits : Nat → α → Prop) (counter : σ → Nat)
    (hcounter : ∀ state x, counter (next state x) = counter state + 1) {state : σ} {xs : List α} :
    AdmitsAll (fun state x => admits (counter state) x) next state xs ↔
      ∀ entry ∈ xs.zipIdx (counter state), admits entry.2 entry.1 := by
  induction xs generalizing state with
  | nil => simp [AdmitsAll]
  | cons x xs ih =>
      rw [AdmitsAll, ih, hcounter, List.zipIdx_cons, List.forall_mem_cons]

theorem exists_index_of_mem {xs : List α} {x : α} (h : x ∈ xs) (start : Nat) :
    ∃ i, (x, i) ∈ xs.zipIdx start := by
  rw [← List.zipIdx_map_fst start xs] at h
  obtain ⟨⟨x', i⟩, hmem, rfl⟩ := List.mem_map.mp h
  exact ⟨i, hmem⟩

theorem foldlM_flatMap {β : Type} (items : β → List α) (blocks : List β) (state : σ) :
    (blocks.flatMap items).foldlM step state =
      blocks.foldlM (fun state block => (items block).foldlM step state) state := by
  induction blocks generalizing state with
  | nil => rfl
  | cons block blocks ih =>
      rw [List.flatMap_cons, List.foldlM_append, List.foldlM_cons]
      exact congrArg _ (funext ih)

/-- Elements a step passes over can be left out. -/
theorem foldlM_filterMap {β : Type} {select : β → Option α} {onAll : σ → β → Except ε σ}
    (hnone : ∀ state b, select b = none → onAll state b = .ok state)
    (hsome : ∀ state b x, select b = some x → onAll state b = step state x)
    (items : List β) (state : σ) :
    items.foldlM onAll state = (items.filterMap select).foldlM step state := by
  induction items generalizing state with
  | nil => rfl
  | cons b rest ih =>
      cases hb : select b with
      | none =>
          rw [List.filterMap_cons_none hb, List.foldlM_cons, hnone state b hb]
          exact ih state
      | some x =>
          rw [List.filterMap_cons_some hb, List.foldlM_cons, List.foldlM_cons, hsome state b x hb]
          exact congrArg _ (funext ih)

/-- A walk that fails, fails at one of its elements. -/
theorem step_of_foldlM_error {xs : List α} {state : σ}
    {error : ε} (h : xs.foldlM step state = .error error) :
    ∃ state', ∃ x ∈ xs, step state' x = .error error := by
  induction xs generalizing state with
  | nil => contradiction
  | cons x xs ih =>
      rw [List.foldlM_cons] at h
      cases hstep : step state x with
      | error first =>
          rw [hstep] at h
          obtain rfl := Except.error.inj h
          exact ⟨state, x, List.mem_cons_self, hstep⟩
      | ok next =>
          rw [hstep] at h
          obtain ⟨state', y, hmem, hy⟩ := ih h
          exact ⟨state', y, List.mem_cons_of_mem x hmem, hy⟩

end LlmTop.Lib.Guarded
