import Mathlib.Order.Basic

/-!
# Events without a trace

A machine answers a row of timed events, and some of the events are marked.
When no marked event tells the state with it from the one without it, the others
are answered as in the row without the marked ones.
-/
namespace LlmTop.Lib.Unwinding

variable {σ ε ο τ : Type} (step : σ → ε → ο × σ)

/-- The answers to the events that are not marked. -/
def answers : σ → List (Bool × ε) → List ο
  | _, [] => []
  | s, (true, e) :: rest => answers (step s e).2 rest
  | s, (false, e) :: rest => (step s e).1 :: answers (step s e).2 rest

/-- Every event is allowed in the state that it finds. -/
def AllAllowed (Allowed : σ → Bool × ε → Prop) : σ → List (Bool × ε) → Prop
  | _, [] => True
  | s, event :: rest => Allowed s event ∧ AllAllowed Allowed (step s event.2).2 rest

/-- States that no later event tells apart, time by time. -/
structure Unwinds [Preorder τ] (Allowed : σ → Bool × ε → Prop) (time : ε → τ)
    (Same : τ → σ → σ → Prop) : Prop where
  later : ∀ {t t' s s'}, t ≤ t' → Same t s s' → Same t' s s'
  kept : ∀ {e s s'}, Same (time e) s s' → Allowed s (false, e) →
    (step s e).1 = (step s' e).1 ∧ Same (time e) (step s e).2 (step s' e).2
  marked : ∀ {e s s'}, Same (time e) s s' → Allowed s (true, e) → Same (time e) (step s e).2 s'

variable {step}

theorem AllAllowed.imp {Allowed Allowed' : σ → Bool × ε → Prop} {s : σ} {events : List (Bool × ε)}
    (hallowed : AllAllowed step Allowed s events)
    (h : ∀ event ∈ events, ∀ s, Allowed s event → Allowed' s event) :
    AllAllowed step Allowed' s events := by
  induction events generalizing s with
  | nil => trivial
  | cons event rest ih =>
      obtain ⟨hfirst, hrest⟩ := List.forall_mem_cons.mp h
      exact ⟨hfirst s hallowed.1, ih hallowed.2 hrest⟩

theorem Unwinds.answers_eq [Preorder τ] {Allowed : σ → Bool × ε → Prop} {time : ε → τ}
    {Same : τ → σ → σ → Prop} (h : Unwinds step Allowed time Same) {events : List (Bool × ε)}
    (hordered : (events.map fun event => time event.2).Pairwise (· ≤ ·)) {t : τ} {s s' : σ}
    (hstart : ∀ event ∈ events, t ≤ time event.2) (hsame : Same t s s')
    (hallowed : AllAllowed step Allowed s events) :
    answers step s events = answers step s' (events.filter fun event => !event.1) := by
  induction events generalizing t s s' with
  | nil => rfl
  | cons event rest ih =>
      obtain ⟨marked, e⟩ := event
      obtain ⟨hfirst, hrest⟩ := List.pairwise_cons.mp hordered
      have hnow := h.later (hstart _ List.mem_cons_self) hsame
      have hlater : ∀ event ∈ rest, time e ≤ time event.2 :=
        fun event hmem => hfirst _ (List.mem_map_of_mem hmem)
      cases marked with
      | true => exact ih hrest hlater (h.marked hnow hallowed.1) hallowed.2
      | false =>
          obtain ⟨hanswer, hnext⟩ := h.kept hnow hallowed.1
          rw [List.filter_cons_of_pos rfl, answers, answers, hanswer, ih hrest hlater hnext hallowed.2]

/-- From states that are the same at every time, no first time is needed. -/
theorem Unwinds.answers_eq_always [Preorder τ] {Allowed : σ → Bool × ε → Prop} {time : ε → τ}
    {Same : τ → σ → σ → Prop} (h : Unwinds step Allowed time Same) {events : List (Bool × ε)}
    (hordered : (events.map fun event => time event.2).Pairwise (· ≤ ·)) {s s' : σ}
    (hsame : ∀ t, Same t s s') (hallowed : AllAllowed step Allowed s events) :
    answers step s events = answers step s' (events.filter fun event => !event.1) := by
  cases events with
  | nil => rfl
  | cons event rest =>
      refine h.answers_eq hordered (List.forall_mem_cons.mpr ⟨le_rfl, fun later hlater => ?_⟩)
        (hsame (time event.2)) hallowed
      exact (List.pairwise_cons.mp hordered).1 _ (List.mem_map_of_mem hlater)

end LlmTop.Lib.Unwinding
