import Mathlib.Data.List.Infix
import Mathlib.Logic.Function.Basic

/-!
# Programs that share a state

A program asks a shared state one question after the other.  Any number of
programs take turns, one question a turn, and a host changes the state between
the turns.
-/
namespace LlmTop.Lib.Interleaved

inductive Program (Q : Type) (A : Q → Type) (α : Type) where
  | done (result : α)
  | ask (q : Q) (next : A q → Program Q A α)

namespace Program

variable {Q : Type} {A : Q → Type} {α β ε σ S : Type}

def bind (program : Program Q A α) (rest : α → Program Q A β) : Program Q A β :=
  match program with
  | done result => rest result
  | ask q next => ask q fun answer => (next answer).bind rest

instance : Monad (Program Q A) where
  pure := done
  bind := bind

def question (q : Q) : Program Q A (A q) := ask q done

theorem bind_done (program : Program Q A α) : program.bind done = program := by
  induction program with
  | done result => rfl
  | ask q next ih =>
      unfold bind
      exact congrArg (ask q) (funext ih)

theorem bind_assoc {γ : Type} (program : Program Q A α) (first : α → Program Q A β)
    (second : β → Program Q A γ) :
    (program.bind first).bind second = program.bind fun result => (first result).bind second := by
  induction program with
  | done result => rfl
  | ask q next ih =>
      simp only [bind]
      exact congrArg (ask q) (funext ih)

instance : LawfulMonad (Program Q A) :=
  LawfulMonad.mk' (Program Q A) bind_done (fun _ _ => rfl) bind_assoc

theorem run_liftM_bind (program : Program Q A β) (rest : β → ExceptT ε (Program Q A) α) :
    (liftM program >>= rest).run = program >>= fun value => (rest value).run :=
  ExceptT.run_bind_lift program rest

theorem foldlM_flatMap {m : Type → Type} [Monad m] [LawfulMonad m] (step : σ → α → m σ)
    (items : β → List α) (blocks : List β) (state : σ) :
    (blocks.flatMap items).foldlM step state =
      blocks.foldlM (fun state block => (items block).foldlM step state) state := by
  induction blocks generalizing state with
  | nil => rfl
  | cons block blocks ih =>
      rw [List.flatMap_cons, List.foldlM_append, List.foldlM_cons]
      exact congrArg _ (funext ih)

/-! ## One program by itself -/

/-- The program with nothing in between. -/
def run (serve : S → (q : Q) → A q × S) : Program Q A α → S → α × S
  | done result, s => (result, s)
  | ask q next, s => (next (serve s q).1).run serve (serve s q).2

variable {serve : S → (q : Q) → A q × S}

@[simp] theorem run_bind (program : Program Q A α) (rest : α → Program Q A β) (s : S) :
    (program >>= rest).run serve s =
      (rest (program.run serve s).1).run serve (program.run serve s).2 := by
  induction program generalizing s with
  | done result => rfl
  | ask q next ih => exact ih (serve s q).1 (serve s q).2

/-! ## What a program can return -/

/-- The program returns `result` when every answer it gets satisfies `P`. -/
def Returns (P : (q : Q) → A q → Prop) : Program Q A α → α → Prop
  | done value, result => value = result
  | ask q next, result => ∃ answer, P q answer ∧ (next answer).Returns P result

variable {P : (q : Q) → A q → Prop}

@[simp] theorem returns_pure {value result : α} :
    (pure value : Program Q A α).Returns P result ↔ value = result := Iff.rfl

@[simp] theorem returns_question {q : Q} {answer : A q} :
    (question q : Program Q A (A q)).Returns P answer ↔ P q answer := by
  constructor
  · rintro ⟨given, hgiven, rfl⟩
    exact hgiven
  · intro h
    exact ⟨answer, h, rfl⟩

@[simp] theorem returns_bind {program : Program Q A α} {rest : α → Program Q A β} {result : β} :
    (program >>= rest).Returns P result ↔
      ∃ value, program.Returns P value ∧ (rest value).Returns P result := by
  induction program with
  | done value =>
      constructor
      · intro h
        exact ⟨value, rfl, h⟩
      · rintro ⟨value', rfl, h⟩
        exact h
  | ask q next ih =>
      constructor
      · rintro ⟨answer, hanswer, h⟩
        obtain ⟨value, hvalue, hrest⟩ := (ih answer).mp h
        exact ⟨value, ⟨answer, hanswer, hvalue⟩, hrest⟩
      · rintro ⟨value, ⟨answer, hanswer, hvalue⟩, hrest⟩
        exact ⟨answer, hanswer, (ih answer).mpr ⟨value, hvalue, hrest⟩⟩

/-- A walk with early returns: every element is admitted, or one is refused and
all before it are admitted. -/
theorem Returns.walk {step : σ → α → ExceptT ε (Program Q A) σ} {next : σ → α → σ}
    {admits : α → Prop} {refuses : σ → α → ε → Prop}
    (hstep : ∀ state x outcome, (step state x).run.Returns P outcome →
      (outcome = .ok (next state x) ∧ admits x) ∨
        ∃ error, outcome = .error error ∧ refuses state x error)
    {xs : List α} {state : σ} {outcome : Except ε σ}
    (h : (xs.foldlM step state).run.Returns P outcome) :
    (outcome = .ok (xs.foldl next state) ∧ ∀ x ∈ xs, admits x) ∨
      ∃ before x after error, xs = before ++ x :: after ∧ (∀ y ∈ before, admits y) ∧
        outcome = .error error ∧ refuses (before.foldl next state) x error := by
  induction xs generalizing state with
  | nil => exact Or.inl ⟨(returns_pure.mp h).symm, by simp⟩
  | cons x xs ih =>
      rw [List.foldlM_cons, ExceptT.run_bind, returns_bind] at h
      obtain ⟨first, hfirst, hrest⟩ := h
      rcases hstep state x first hfirst with ⟨rfl, hx⟩ | ⟨error, rfl, herror⟩
      · rcases ih hrest with ⟨rfl, hall⟩ | ⟨before, y, after, error, rfl, hbefore, rfl, herror⟩
        · exact Or.inl ⟨rfl, List.forall_mem_cons.mpr ⟨hx, hall⟩⟩
        · exact Or.inr ⟨x :: before, y, after, error, rfl, List.forall_mem_cons.mpr ⟨hx, hbefore⟩,
            rfl, herror⟩
      · exact Or.inr ⟨[], x, xs, error, rfl, by simp, (returns_pure.mp hrest).symm, herror⟩

/-! ## The turns of a program -/

/-- The program returns `result` when it asks its questions one after the other in
these states. -/
def ReturnsOn (serve : S → (q : Q) → A q × S) : Program Q A α → List (S × Q) → α → Prop
  | done value, turns, result => turns = [] ∧ value = result
  | ask q next, turns, result => ∃ shared rest, turns = (shared, q) :: rest ∧
      (next (serve shared q).1).ReturnsOn serve rest result

theorem returnsOn_pure {value result : α} {turns : List (S × Q)} :
    (pure value : Program Q A α).ReturnsOn serve turns result ↔ turns = [] ∧ value = result := Iff.rfl

theorem returnsOn_question {q : Q} {turns : List (S × Q)} {answer : A q} :
    (question q : Program Q A (A q)).ReturnsOn serve turns answer ↔
      ∃ shared, turns = [(shared, q)] ∧ (serve shared q).1 = answer := by
  constructor
  · rintro ⟨shared, rest, rfl, rfl, hanswer⟩
    exact ⟨shared, rfl, hanswer⟩
  · rintro ⟨shared, rfl, hanswer⟩
    exact ⟨shared, [], rfl, rfl, hanswer⟩

theorem returnsOn_bind {program : Program Q A α} {rest : α → Program Q A β} {turns : List (S × Q)}
    {result : β} :
    (program >>= rest).ReturnsOn serve turns result ↔
      ∃ early late value, turns = early ++ late ∧ program.ReturnsOn serve early value ∧
        (rest value).ReturnsOn serve late result := by
  induction program generalizing turns with
  | done value =>
      constructor
      · intro h
        exact ⟨[], turns, value, rfl, ⟨rfl, rfl⟩, h⟩
      · rintro ⟨early, late, value', rfl, ⟨rfl, rfl⟩, h⟩
        exact h
  | ask q next ih =>
      constructor
      · rintro ⟨shared, tail, rfl, h⟩
        obtain ⟨early, late, value, rfl, hvalue, hrest⟩ := (ih _).mp h
        exact ⟨(shared, q) :: early, late, value, rfl, ⟨shared, early, rfl, hvalue⟩, hrest⟩
      · rintro ⟨early, late, value, rfl, ⟨shared, tail, rfl, hvalue⟩, hrest⟩
        exact ⟨shared, tail ++ late, rfl, (ih _).mpr ⟨tail, late, value, rfl, hvalue, hrest⟩⟩

/-- The turns of a walk are those of its elements' checks, one check behind the
other; a check that fails ends the walk. -/
theorem ReturnsOn.walk {step : σ → α → ExceptT ε (Program Q A) σ} {next : σ → α → σ}
    {opened : α → List (S × Q) → Prop} {fails : σ → ε → Prop}
    (hstep : ∀ state x turns outcome, (step state x).run.ReturnsOn serve turns outcome →
      (outcome = .ok (next state x) ∧ opened x turns) ∨ ∃ error, outcome = .error error ∧ fails state error)
    {xs : List α} {state : σ} {turns : List (S × Q)} {outcome : Except ε σ}
    (h : (xs.foldlM step state).run.ReturnsOn serve turns outcome) :
    ∃ before after checks later, xs = before ++ after ∧ turns = checks.flatten ++ later ∧
      List.Forall₂ opened before checks ∧
      (outcome = .ok (before.foldl next state) ∧ after = [] ∨
        ∃ error, outcome = .error error ∧ fails (before.foldl next state) error) := by
  induction xs generalizing state turns with
  | nil =>
      obtain ⟨rfl, rfl⟩ := returnsOn_pure.mp h
      exact ⟨[], [], [], [], rfl, rfl, .nil, Or.inl ⟨rfl, rfl⟩⟩
  | cons x xs ih =>
      rw [List.foldlM_cons, ExceptT.run_bind, returnsOn_bind] at h
      obtain ⟨early, late, first, rfl, hfirst, hrest⟩ := h
      rcases hstep state x early first hfirst with ⟨rfl, hx⟩ | ⟨error, rfl, herror⟩
      · obtain ⟨before, after, checks, later, rfl, rfl, hchecks, hend⟩ := ih hrest
        refine ⟨x :: before, after, early :: checks, later, rfl, ?_, .cons hx hchecks, hend⟩
        rw [List.flatten_cons, List.append_assoc]
      · obtain ⟨-, rfl⟩ := returnsOn_pure.mp hrest
        exact ⟨[], x :: xs, [], early ++ late, rfl, rfl, .nil, Or.inr ⟨error, rfl, herror⟩⟩

end Program

/-! ## Programs in turns -/

inductive Move (ι H : Type) where
  | thread (i : ι)
  | host (h : H)

structure System (ι Q : Type) (A : Q → Type) (S α : Type) where
  shared : S
  threads : ι → Program Q A α

namespace System

variable {ι H Q : Type} {A : Q → Type} {S α : Type} [DecidableEq ι]
  (serve : S → (q : Q) → A q × S) (host : S → H → S)

def step (s : System ι Q A S α) : Move ι H → System ι Q A S α
  | .thread i =>
      match s.threads i with
      | .done _ => s
      | .ask q next =>
          ⟨(serve s.shared q).2, Function.update s.threads i (next (serve s.shared q).1)⟩
  | .host h => { s with shared := host s.shared h }

def after (s : System ι Q A S α) (moves : List (Move ι H)) : System ι Q A S α :=
  moves.foldl (step serve host) s

/-- What `i` asks in a move, with the state in which it asks. -/
def turnOf (s : System ι Q A S α) (i : ι) : Move ι H → List (S × Q)
  | .thread j =>
      match s.threads j with
      | .done _ => []
      | .ask q _ => if j = i then [(s.shared, q)] else []
  | .host _ => []

/-- The turns of `i` in their order. -/
def turns (i : ι) : System ι Q A S α → List (Move ι H) → List (S × Q)
  | _, [] => []
  | s, move :: moves => s.turnOf i move ++ turns i (s.step serve host move) moves

/-- Behind `before` it is the turn of `i`, which asks `q`. -/
structure Turn (s : System ι Q A S α) (moves : List (Move ι H)) (i : ι) (q : Q)
    (before : List (Move ι H)) : Prop where
  within : before ++ [.thread i] <+: moves
  asks : ∃ next, (s.after serve host before).threads i = .ask q next

/-- The state was such at a turn of `i` at which it asked `q`. -/
def AtTurn (s : System ι Q A S α) (moves : List (Move ι H)) (i : ι) (q : Q) (holds : S → Prop) :
    Prop :=
  ∃ before, s.Turn serve host moves i q before ∧ holds (s.after serve host before).shared

def Answered (s : System ι Q A S α) (moves : List (Move ι H)) (i : ι) (q : Q) (answer : A q) :
    Prop :=
  s.AtTurn serve host moves i q fun shared => (serve shared q).1 = answer

variable {serve host} {s : System ι Q A S α} {moves : List (Move ι H)} {i : ι}

theorem after_append (s : System ι Q A S α) (early late : List (Move ι H)) :
    s.after serve host (early ++ late) = (s.after serve host early).after serve host late :=
  List.foldl_append

theorem after_concat (s : System ι Q A S α) (moves : List (Move ι H)) (move : Move ι H) :
    s.after serve host (moves ++ [move]) = (s.after serve host moves).step serve host move :=
  s.after_append moves [move]

theorem step_thread {q : Q} {next : A q → Program Q A α} (h : s.threads i = .ask q next) :
    s.step serve host (.thread i : Move ι H) =
      ⟨(serve s.shared q).2, Function.update s.threads i (next (serve s.shared q).1)⟩ := by
  unfold step
  dsimp only
  rw [h]

theorem Turn.mono {longer before : List (Move ι H)} {q : Q} (h : s.Turn serve host moves i q before)
    (hlonger : moves <+: longer) : s.Turn serve host longer i q before :=
  ⟨h.within.trans hlonger, h.asks⟩

/-- A program that had no turn before a move has all its turns behind it. -/
theorem Turn.behind {before early late : List (Move ι H)} {move : Move ι H} {q : Q}
    (h : s.Turn serve host moves i q before) (hmoves : moves = early ++ move :: late)
    (hidle : .thread i ∉ early) (hmove : move ≠ .thread i) :
    ∃ between, before = early ++ [move] ++ between ∧ between <+: late := by
  have hearly : early ++ [move] <+: moves := ⟨late, by rw [hmoves, List.append_assoc]; rfl⟩
  have hturn : Move.thread i ∉ early ++ [move] := by
    rw [List.mem_append, List.mem_singleton]
    exact not_or.mpr ⟨hidle, hmove.symm⟩
  rcases List.prefix_or_prefix_of_prefix hearly h.within with hle | hle
  · rcases List.prefix_concat_iff.mp hle with heq | hle
    · exact absurd (heq ▸ List.mem_append_right _ (List.mem_singleton_self _)) hturn
    · obtain ⟨between, rfl⟩ := hle
      refine ⟨between, rfl, ?_⟩
      have hwithin := h.within
      have hsplit : early ++ move :: late = early ++ [move] ++ late := List.append_cons _ _ _
      rw [hmoves, hsplit, List.append_assoc, List.prefix_append_right_inj] at hwithin
      exact (List.prefix_append _ _).trans hwithin
  · exact absurd (hle.subset (List.mem_append_right _ (List.mem_singleton_self _))) hturn

theorem Answered.mono {longer : List (Move ι H)} {q : Q} {answer : A q}
    (h : s.Answered serve host moves i q answer) (hlonger : moves <+: longer) :
    s.Answered serve host longer i q answer := by
  obtain ⟨before, hturn, hanswer⟩ := h
  exact ⟨before, hturn.mono hlonger, hanswer⟩

/-- What the rest of a program can return on the answers given so far, the whole
program can. -/
theorem returns_of_after {P : (q : Q) → A q → Prop}
    (hgiven : ∀ q answer, s.Answered serve host moves i q answer → P q answer) {result : α}
    (h : ((s.after serve host moves).threads i).Returns P result) :
    (s.threads i).Returns P result := by
  induction moves using List.reverseRecOn generalizing result with
  | nil => exact h
  | append_singleton moves move ih =>
      have hprefix : moves <+: moves ++ [move] := List.prefix_append _ _
      refine ih (fun q answer hanswer => hgiven q answer (hanswer.mono hprefix)) ?_
      rw [after_concat] at h
      cases move with
      | host _ => exact h
      | thread j =>
          cases hj : (s.after serve host moves).threads j with
          | done value =>
              unfold step at h
              dsimp only at h
              rw [hj] at h
              exact h
          | ask q next =>
              rw [step_thread hj] at h
              by_cases hij : i = j
              · subst hij
                rw [hj]
                refine ⟨_, hgiven q _ ⟨moves, ⟨List.prefix_rfl, next, hj⟩, rfl⟩, ?_⟩
                simpa using h
              · simpa [Function.update_of_ne hij] using h

/-- A result rests on answers that were given at the program's own turns. -/
theorem returns_answered {result : α} (h : (s.after serve host moves).threads i = .done result) :
    (s.threads i).Returns (s.Answered serve host moves i) result := by
  refine returns_of_after (fun _ _ hanswer => hanswer) ?_
  rw [h]
  rfl

/-- A program that has returned did so on its own turns. -/
theorem returnsOn_turns {result : α} (h : (s.after serve host moves).threads i = .done result) :
    (s.threads i).ReturnsOn serve (s.turns serve host i moves) result := by
  induction moves generalizing s with
  | nil =>
      have hdone : s.threads i = .done result := h
      rw [hdone]
      exact ⟨rfl, rfl⟩
  | cons move moves ih =>
      have hrest := ih h
      unfold turns
      cases move with
      | host _ => exact hrest
      | thread j =>
          cases hj : s.threads j with
          | done value =>
              simp only [turnOf, hj, List.nil_append]
              simpa only [step, hj] using hrest
          | ask q next =>
              simp only [turnOf, hj]
              rw [step_thread hj] at hrest ⊢
              by_cases hij : j = i
              · subst hij
                rw [if_pos rfl, hj]
                exact ⟨s.shared, _, rfl, by simpa using hrest⟩
              · rw [if_neg hij, List.nil_append]
                simpa only [Function.update_of_ne (Ne.symm hij)] using hrest

/-- What the questions and the host's moves keep holds of the state. -/
theorem shared_after (Inv : S → Prop) (hserve : ∀ shared q, Inv shared → Inv (serve shared q).2)
    (hhost : ∀ shared h, .host h ∈ moves → Inv shared → Inv (host shared h)) (h : Inv s.shared) :
    Inv (s.after serve host moves).shared := by
  induction moves using List.reverseRecOn with
  | nil => exact h
  | append_singleton moves move ih =>
      have hmoves := ih fun shared h hmem => hhost shared h (List.mem_append_left _ hmem)
      rw [after_concat]
      cases move with
      | host h => exact hhost _ h (by simp) hmoves
      | thread j =>
          cases hj : (s.after serve host moves).threads j with
          | done value =>
              unfold step
              dsimp only
              rw [hj]
              exact hmoves
          | ask q next =>
              rw [step_thread hj]
              exact hserve _ q hmoves

end System
end LlmTop.Lib.Interleaved
