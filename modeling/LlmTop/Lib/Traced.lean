import Mathlib.Data.List.Basic

/-!
# Runs that log what they touch

A run returns, raises a fault or, when its fuel is used up, is still going on;
it keeps a log of the events on its way.  A run is compared with a function that
only returns or fails: every logged event is allowed, and the outcomes agree.
-/
namespace LlmTop.Lib.Traced

variable {ω ε α β γ δ : Type}

inductive Outcome (ε α : Type) where
  | returned (value : α)
  | raised (fault : ε)
  | running

structure Run (ω ε α : Type) where
  events : List ω
  outcome : Outcome ε α

def Run.returned (value : α) : Run ω ε α := ⟨[], .returned value⟩

def raise (fault : ε) : Run ω ε α := ⟨[], .raised fault⟩

def running : Run ω ε α := ⟨[], .running⟩

/-- An event and its answer. -/
def touch (event : ω) (answer : α) : Run ω ε α := ⟨[event], .returned answer⟩

def Run.andThen (run : Run ω ε α) (next : α → Run ω ε β) : Run ω ε β :=
  match run.outcome with
  | .returned value => ⟨run.events ++ (next value).events, (next value).outcome⟩
  | .raised fault => ⟨run.events, .raised fault⟩
  | .running => ⟨run.events, .running⟩

instance : Monad (Run ω ε) where
  pure := Run.returned
  bind := Run.andThen

/-- The run returns where the function does, with related values, and raises its faults. -/
inductive Outcome.Agrees (rel : α → β → Prop) : Outcome ε α → Except ε β → Prop where
  | returned {a : α} {b : β} (h : rel a b) : Agrees rel (.returned a) (.ok b)
  | raised (fault : ε) : Agrees rel (.raised fault) (.error fault)

structure Refines (allowed : ω → Prop) (rel : α → β → Prop) (run : Run ω ε α)
    (result : Except ε β) : Prop where
  allowed : ∀ event ∈ run.events, allowed event
  agrees : run.outcome.Agrees rel result

variable {allowed : ω → Prop} {rel : α → β → Prop} {rel' : γ → δ → Prop}

theorem refines_pure {a : α} {b : β} (h : rel a b) :
    Refines allowed rel (pure a : Run ω ε α) (.ok b) where
  allowed := fun _ hevent => absurd hevent List.not_mem_nil
  agrees := .returned h

theorem refines_raise (fault : ε) :
    Refines allowed rel (raise fault : Run ω ε α) (.error fault) where
  allowed := fun _ hevent => absurd hevent List.not_mem_nil
  agrees := .raised fault

theorem refines_touch {event : ω} {a : α} {b : β} (hevent : allowed event) (h : rel a b) :
    Refines allowed rel (touch event a : Run ω ε α) (.ok b) where
  allowed := fun event' hevent' => by rwa [List.mem_singleton.mp hevent']
  agrees := .returned h

theorem refines_bind {run : Run ω ε α} {next : α → Run ω ε γ} {result : Except ε β}
    {next' : β → Except ε δ} (hrun : Refines allowed rel run result)
    (hnext : ∀ a b, rel a b → Refines allowed rel' (next a) (next' b)) :
    Refines allowed rel' (run >>= next) (result >>= next') := by
  obtain ⟨events, outcome⟩ := run
  obtain ⟨hevents, hagrees⟩ := hrun
  cases hagrees with
  | raised fault => exact ⟨hevents, .raised fault⟩
  | @returned a b h =>
      obtain ⟨hallowed, hout⟩ := hnext a b h
      refine ⟨fun event hevent => ?_, hout⟩
      exact (List.mem_append.mp hevent).elim (hevents event) (hallowed event)

/-- A step with one answer, in front of the rest. -/
theorem refines_after {run : Run ω ε α} {next : α → Run ω ε γ} {a : α} {result : Except ε δ}
    (hrun : Refines allowed Eq run (.ok a)) (hnext : Refines allowed rel' (next a) result) :
    Refines allowed rel' (run >>= next) result := by
  obtain ⟨events, outcome⟩ := run
  obtain ⟨hevents, hagrees⟩ := hrun
  cases hagrees with
  | returned h =>
      subst h
      obtain ⟨hallowed, hout⟩ := hnext
      refine ⟨fun event hevent => ?_, hout⟩
      exact (List.mem_append.mp hevent).elim (hevents event) (hallowed event)

theorem refines_ite {c : Prop} [Decidable c] {run run' : Run ω ε α} {result result' : Except ε β}
    (hpos : c → Refines allowed rel run result) (hneg : ¬c → Refines allowed rel run' result') :
    Refines allowed rel (if c then run else run') (if c then result else result') := by
  split
  · exact hpos ‹c›
  · exact hneg ‹¬c›

/-- The value the run is related to is the function's result. -/
theorem Refines.with_result {run : Run ω ε α} {result : Except ε β}
    (h : Refines allowed rel run result) :
    Refines allowed (fun a b => rel a b ∧ result = .ok b) run result := by
  obtain ⟨hallowed, hagrees⟩ := h
  refine ⟨hallowed, ?_⟩
  generalize run.outcome = outcome at hagrees ⊢
  cases hagrees with
  | returned hab => exact .returned ⟨hab, rfl⟩
  | raised fault => exact .raised fault

theorem refines_ite_ok {c : Prop} [Decidable c] {run run' : Run ω ε α} {b b' : β}
    (hpos : c → Refines allowed rel run (.ok b)) (hneg : ¬c → Refines allowed rel run' (.ok b')) :
    Refines allowed rel (if c then run else run') (.ok (if c then b else b')) := by
  split
  · exact hpos ‹c›
  · exact hneg ‹¬c›

theorem Refines.map {rel' : α → δ → Prop} {next : β → δ} {run : Run ω ε α} {result : Except ε β}
    (h : Refines allowed rel run result) (hnext : ∀ a b, rel a b → rel' a (next b)) :
    Refines allowed rel' run (result.map next) := by
  obtain ⟨hallowed, hagrees⟩ := h
  refine ⟨hallowed, ?_⟩
  generalize run.outcome = outcome at hagrees ⊢
  cases hagrees with
  | returned hab => exact .returned (hnext _ _ hab)
  | raised fault => exact .raised fault

/-- A run that refines a function ends. -/
theorem Refines.ends {run : Run ω ε α} {result : Except ε β} (h : Refines allowed rel run result) :
    run.outcome ≠ .running := by
  intro hrunning
  have hagrees := h.agrees
  rw [hrunning] at hagrees
  cases hagrees

theorem Refines.of_returned {run : Run ω ε α} {result : Except ε β}
    (h : Refines allowed rel run result) {a : α} (hreturned : run.outcome = .returned a) :
    ∃ b, result = .ok b ∧ rel a b := by
  have hagrees := h.agrees
  rw [hreturned] at hagrees
  cases hagrees with
  | returned hab => exact ⟨_, rfl, hab⟩

/-- Where the function returns, so does the run. -/
theorem Refines.outcome_of_ok {run : Run ω ε α} {a : α} (h : Refines allowed Eq run (.ok a)) :
    run.outcome = .returned a := by
  have hagrees := h.agrees
  generalize run.outcome = outcome at hagrees ⊢
  cases hagrees with
  | returned hab => exact congrArg Outcome.returned hab

/-! ## Runs on their own -/

/-- The run touches what is allowed, ends, and returns values that meet `post` only. -/
structure Meets (allowed : ω → Prop) (post : α → Prop) (run : Run ω ε α) : Prop where
  allowed : ∀ event ∈ run.events, allowed event
  ends : run.outcome ≠ .running
  post : ∀ {a : α}, run.outcome = .returned a → post a

theorem Refines.meets {post : α → Prop} {run : Run ω ε α} {result : Except ε β}
    (h : Refines allowed rel run result) (hpost : ∀ a b, result = .ok b → rel a b → post a) :
    Meets allowed post run := by
  refine ⟨h.allowed, h.ends, fun hreturned => ?_⟩
  obtain ⟨b, hresult, hab⟩ := h.of_returned hreturned
  exact hpost _ b hresult hab

theorem meets_pure {post : α → Prop} {a : α} (h : post a) :
    Meets allowed post (pure a : Run ω ε α) where
  allowed := fun _ hevent => absurd hevent List.not_mem_nil
  ends := fun h => by cases h
  post := fun hreturned => by cases hreturned; exact h

theorem meets_bind {post : α → Prop} {post' : γ → Prop} {run : Run ω ε α} {next : α → Run ω ε γ}
    (hrun : Meets allowed post run) (hnext : ∀ a, post a → Meets allowed post' (next a)) :
    Meets allowed post' (run >>= next) := by
  obtain ⟨events, outcome⟩ := run
  obtain ⟨hevents, hends, hpost⟩ := hrun
  cases outcome with
  | raised fault => exact ⟨hevents, fun h => (by cases h), fun h => (by cases h)⟩
  | running => exact absurd rfl hends
  | returned a =>
      obtain ⟨hallowed, hends', hpost'⟩ := hnext a (hpost rfl)
      refine ⟨fun event hevent => ?_, hends', hpost'⟩
      exact (List.mem_append.mp hevent).elim (hevents event) (hallowed event)

end LlmTop.Lib.Traced
