/-!
# One program in two modes

A computation that may report faults.  In strict mode the first fault ends it;
in tolerant mode every fault is logged and the computation goes on.
`Emits m a faults` describes the two runs together: tolerant mode reaches `a`
and logs `faults`, strict mode reaches the same `a` when there are none.
-/
namespace LlmTop.Lib.Faults

inductive Mode where
  | strict
  | tolerant
deriving DecidableEq, Repr

variable {μ α β σ : Type}

def Faulty (μ α : Type) : Type := Mode → List μ → Except μ (α × List μ)

instance : Monad (Faulty μ) where
  pure a := fun _ log => .ok (a, log)
  bind m k := fun mode log =>
    match m mode log with
    | .error fault => .error fault
    | .ok (a, log) => k a mode log

def report (fault : μ) : Faulty μ Unit := fun mode log =>
  match mode with
  | .strict => .error fault
  | .tolerant => .ok ((), log ++ [fault])

def currentMode : Faulty μ Mode := fun mode log => .ok (mode, log)

theorem pure_apply (a : α) (mode : Mode) (log : List μ) :
    (pure a : Faulty μ α) mode log = .ok (a, log) := rfl

theorem bind_apply (m : Faulty μ α) (k : α → Faulty μ β) (mode : Mode) (log : List μ) :
    (m >>= k) mode log =
      match m mode log with
      | .error fault => .error fault
      | .ok (a, log) => k a mode log := rfl

theorem bind_ok {m : Faulty μ α} {k : α → Faulty μ β} {mode : Mode} {log log' : List μ} {a : α}
    (h : m mode log = .ok (a, log')) : (m >>= k) mode log = k a mode log' := by
  rw [bind_apply, h]

theorem bind_error {m : Faulty μ α} {k : α → Faulty μ β} {mode : Mode} {log : List μ} {fault : μ}
    (h : m mode log = .error fault) : (m >>= k) mode log = .error fault := by
  rw [bind_apply, h]

structure Emits (m : Faulty μ α) (a : α) (faults : List μ) : Prop where
  tolerant : ∀ log, m .tolerant log = .ok (a, log ++ faults)
  strict_clean : faults = [] → ∀ log, m .strict log = .ok (a, log)
  strict_fault : faults ≠ [] → ∀ log, ∃ fault, m .strict log = .error fault

theorem Emits.pure (a : α) : Emits (Pure.pure a : Faulty μ α) a [] where
  tolerant := fun log => by rw [pure_apply, List.append_nil]
  strict_clean := fun _ _ => rfl
  strict_fault := fun h => absurd rfl h

theorem Emits.report (fault : μ) : Emits (report fault) () [fault] where
  tolerant := fun _ => rfl
  strict_clean := fun h => nomatch h
  strict_fault := fun _ _ => ⟨fault, rfl⟩

theorem Emits.bind {m : Faulty μ α} {k : α → Faulty μ β} {a : α} {b : β} {first second : List μ}
    (hm : Emits m a first) (hk : Emits (k a) b second) : Emits (m >>= k) b (first ++ second) where
  tolerant := fun log => by rw [bind_apply, hm.tolerant, ← List.append_assoc, ← hk.tolerant]
  strict_clean := fun h log => by
    obtain ⟨hfirst, hsecond⟩ := List.append_eq_nil_iff.mp h
    rw [bind_apply, hm.strict_clean hfirst]
    exact hk.strict_clean hsecond log
  strict_fault := fun h log => by
    rw [bind_apply]
    by_cases hfirst : first = []
    · rw [hm.strict_clean hfirst]
      exact hk.strict_fault (fun hsecond => h (by rw [hfirst, hsecond]; rfl)) log
    · obtain ⟨fault, hfault⟩ := hm.strict_fault hfirst log
      exact ⟨fault, by rw [hfault]⟩

theorem Emits.map {m : Faulty μ α} {a : α} {faults : List μ} (hm : Emits m a faults)
    (f : α → β) : Emits (m >>= fun x => Pure.pure (f x)) (f a) faults := by
  rw [← List.append_nil faults]
  exact hm.bind (Emits.pure (f a))

/-- A fault in front: the rest runs in tolerant mode only. -/
theorem Emits.report_bind {k : Unit → Faulty μ β} {b : β} {faults : List μ} (fault : μ)
    (hk : Emits (k ()) b faults) :
    Emits (Faults.report fault >>= k) b (fault :: faults) :=
  (Emits.report fault).bind hk

/-- A step that only reads the mode and acts in one way in each. -/
theorem Emits.ite {c : Prop} [Decidable c] {m m' : Faulty μ α} {a a' : α} {faults : List μ}
    (hpos : c → Emits m a faults) (hneg : ¬c → Emits m' a' faults) :
    Emits (if c then m else m') (if c then a else a') faults := by
  split
  · exact hpos ‹c›
  · exact hneg ‹¬c›

theorem Emits.mode {k : Mode → Faulty μ β} {b : β} {faults : List μ}
    (htolerant : ∀ log, k .tolerant .tolerant log = .ok (b, log ++ faults))
    (hclean : faults = [] → ∀ log, k .strict .strict log = .ok (b, log))
    (hfault : faults ≠ [] → ∀ log, ∃ fault, k .strict .strict log = .error fault) :
    Emits (currentMode >>= k) b faults where
  tolerant := htolerant
  strict_clean := hclean
  strict_fault := hfault

/-- The faults of a left fold with state `next` and step faults `faults`. -/
def faultsAlong (next : σ → α → σ) (faults : σ → α → List μ) : σ → List α → List μ
  | _, [] => []
  | state, x :: xs => faults state x ++ faultsAlong next faults (next state x) xs

theorem faultsAlong_append (next : σ → α → σ) (faults : σ → α → List μ) (state : σ) (xs ys : List α) :
    faultsAlong next faults state (xs ++ ys) =
      faultsAlong next faults state xs ++ faultsAlong next faults (xs.foldl next state) ys := by
  induction xs generalizing state with
  | nil => rfl
  | cons x xs ih =>
      rw [List.cons_append, faultsAlong, ih, faultsAlong, List.foldl_cons, List.append_assoc]

/-- Along a run without faults each element is met in a state where it has none. -/
theorem faults_eq_nil_of_mem {next : σ → α → σ} {faults : σ → α → List μ} {state : σ} {xs : List α}
    (h : faultsAlong next faults state xs = []) {x : α} (hx : x ∈ xs) :
    ∃ state, faults state x = [] := by
  induction xs generalizing state with
  | nil => exact absurd hx List.not_mem_nil
  | cons y ys ih =>
      obtain ⟨hfirst, hrest⟩ := List.append_eq_nil_iff.mp h
      rcases List.mem_cons.mp hx with rfl | hx
      · exact ⟨state, hfirst⟩
      · exact ih hrest hx

theorem Emits.foldlM {step : σ → α → Faulty μ σ} {next : σ → α → σ} {faults : σ → α → List μ}
    (h : ∀ state x, Emits (step state x) (next state x) (faults state x)) (xs : List α)
    (state : σ) :
    Emits (xs.foldlM step state) (xs.foldl next state) (faultsAlong next faults state xs) := by
  induction xs generalizing state with
  | nil => exact Emits.pure state
  | cons x xs ih =>
      rw [List.foldlM_cons, List.foldl_cons, faultsAlong]
      exact (h state x).bind (ih (next state x))

/-- A fold that carries a flag which certain faults raise. -/
theorem Emits.foldlM_flag {raises : μ → Bool} {step : σ × Bool → α → Faulty μ (σ × Bool)}
    {next : σ → α → σ} {faults : σ → α → List μ}
    (h : ∀ state flag x, Emits (step (state, flag) x)
      (next state x, flag || (faults state x).any raises) (faults state x))
    (xs : List α) (state : σ) (flag : Bool) :
    Emits (xs.foldlM step (state, flag))
      (xs.foldl next state, flag || (faultsAlong next faults state xs).any raises)
      (faultsAlong next faults state xs) := by
  induction xs generalizing state flag with
  | nil => simpa [faultsAlong] using Emits.pure (state, flag)
  | cons x xs ih =>
      rw [List.foldlM_cons, List.foldl_cons, faultsAlong, List.any_append, ← Bool.or_assoc]
      exact (h state flag x).bind (ih (next state x) _)

end LlmTop.Lib.Faults
