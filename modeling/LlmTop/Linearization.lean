import LlmTop.Concurrency

/-!
# Where concurrent calls take effect

Each call takes effect at one of its own steps, as if it were evaluated there at
a stroke on a set with a time to live.
-/
namespace LlmTop
open IdempotencyStore Lib.TtlSet

namespace Evaluation

variable (e : Evaluation)

/-- The checks in front of the walk that need no store. -/
def frameError : Option Bytes :=
  { e.settings with enforceIdempotency := false }.gateError (fun _ => 0) e.ast e.acceptHealed

/-- The plan that `record_request`'s answer leads to. -/
def conclude (header : Header) (plan : ExecutionPlan) : RecordResult → ExecutionPlan
  | .recorded => { plan with authorized := true }
  | .replay => { plan with approvedActions := [], errorMessage := replayMessage header }
  | .capacityExceeded => { plan with
      approvedActions := []
      errorMessage := ascii "ERR:replay_detected - idempotency store at capacity; " ++
        ascii "cannot guarantee exactly-once execution" }

/-- The call all at once: it looks at `look` and writes down `now`. -/
def atomic (maxEntries : Nat) (ttl look now : Int) (journal : Journal Request) :
    ExecutionPlan × Journal Request :=
  let keys := journal.map fun stamp => (stamp.1.key, stamp.2)
  match e.frameError with
  | some message => ({ errorMessage := message }, journal)
  | none =>
      if Guarded ttl look keys e.request.key then
        ({ errorMessage := replayMessage e.ast.header }, journal)
      else
        match e.settings.checkBatches e.clock e.ast e.acceptHealed with
        | .error plan => (plan, journal)
        | .ok p =>
            if maxEntries ≤ (guardedKeys ttl look keys).length then
              (conclude e.ast.header p.plan .capacityExceeded, journal)
            else (conclude e.ast.header p.plan .recorded, journal ++ [(e.request, now)])

/-- One decision; a refusal at the end of the walk still lists what it approved. -/
structure SameVerdict (plan plan' : ExecutionPlan) : Prop where
  authorized : plan.authorized = plan'.authorized
  errorMessage : plan.errorMessage = plan'.errorMessage
  approved : plan.authorized = true → plan = plan'

theorem SameVerdict.refl (plan : ExecutionPlan) : SameVerdict plan plan := ⟨rfl, rfl, fun _ => rfl⟩

/-- The times of the step the call takes effect at. -/
def effectAt (clock : Clock) (r : Run) : Phase → Option (Int × Int)
  | .waiting =>
      match (e.check clock r).1 with
      | .fresh =>
          match e.authorize with
          | .admitted _ => none
          | _ => some (clock r.tick, clock r.tick)
      | _ => some (clock r.tick, clock r.tick)
  | .admitted p => some (r.look clock, (e.consume clock r p).2.last clock)
  | _ => none

/-- A phase with the verdict the call has by then. -/
inductive Settles (e : Evaluation) : Phase → Option ExecutionPlan → Prop where
  | waiting : Settles e .waiting none
  | refused {plan : ExecutionPlan} (hframe : e.frameError = none)
      (h : e.settings.checkBatches e.clock e.ast e.acceptHealed = .error plan) :
      Settles e .fresh (some plan)
  | fresh {p : Progress} (hframe : e.frameError = none)
      (h : e.settings.checkBatches e.clock e.ast e.acceptHealed = .ok p) : Settles e .fresh none
  | admitted {p : Progress} (hframe : e.frameError = none)
      (h : e.settings.checkBatches e.clock e.ast e.acceptHealed = .ok p) :
      Settles e (.admitted p) none
  | returned {plan plan' : ExecutionPlan} {record : Option (RecordResult × Int)}
      (h : SameVerdict plan plan') : Settles e (.returned plan record) (some plan')

variable {e} {clock : Clock} {r : Run}

theorem Settles.of_returned {plan : ExecutionPlan} {record : Option (RecordResult × Int)}
    {verdict : Option ExecutionPlan} (h : Settles e (.returned plan record) verdict) :
    ∃ plan', verdict = some plan' ∧ SameVerdict plan plan' := by
  cases h with
  | returned hsame => exact ⟨_, rfl, hsame⟩

theorem Settles.of_waiting {verdict : Option ExecutionPlan} (h : Settles e .waiting verdict) :
    verdict = none := by
  cases h
  rfl

/-- The early check is the frame's checks and the guard. -/
theorem check_eq (henforce : e.settings.enforceIdempotency = true) (hclock : clock.Steady)
    (h : r.Tracks clock) :
    (e.check clock r).1 =
      match e.frameError with
      | some message => .returned { errorMessage := message } none
      | none =>
          if Guarded r.store.ttlSeconds (clock r.tick) r.keyJournal e.request.key then
            .returned { errorMessage := replayMessage e.ast.header } none
          else .fresh := by
  have hreplayed : r.store.isReplayed (clock r.tick) e.ast.header.agt e.ast.header.reqid = true ↔
      Guarded r.store.ttlSeconds (clock r.tick) r.keyJournal e.request.key :=
    (h.query hclock e.request).1
  unfold check frameError LLMTOPMiddleware.gateError onStore
  simp only [henforce, Bool.true_and, Bool.false_and, Bool.false_eq_true, if_false]
  by_cases hguarded : Guarded r.store.ttlSeconds (clock r.tick) r.keyJournal e.request.key
  · simp only [hreplayed.mpr hguarded, if_pos hguarded, if_true]
    split_ifs <;> rfl
  · have hfree := mt hreplayed.mp hguarded
    rw [Bool.not_eq_true] at hfree
    simp only [hfree, if_neg hguarded, Bool.false_eq_true, if_false]
    split_ifs <;> rfl

/-- With the store's part of the walk out of the way. -/
theorem authorize_eq :
    e.authorize =
      match e.settings.checkBatches e.clock e.ast e.acceptHealed with
      | .error plan => .returned plan none
      | .ok p => .admitted p := rfl

theorem consume_eq (henforce : e.settings.enforceIdempotency = true) (p : Progress) :
    (e.consume clock r p).1 =
      .returned (conclude e.ast.header p.plan (r.record clock e.request e.ast.header.chk).1)
        (some ((r.record clock e.request e.ast.header.chk).1, clock (r.prune clock).tick)) := by
  have hresult := r.record_result clock e.request e.ast.header.chk
  have hflag : (e.onStore r.store).enforceIdempotency = true := henforce
  unfold consume LLMTOPMiddleware.consumeRequest
  rw [if_pos hflag]
  dsimp only
  change (r.record clock e.request e.ast.header.chk).1 = ((e.onStore r.store).idempotencyStore.recordRequest
    clock r.tick e.ast.header.agt e.ast.header.reqid e.ast.header.chk).1 at hresult
  rw [hresult]
  generalize (e.onStore r.store).idempotencyStore.recordRequest clock r.tick e.ast.header.agt
    e.ast.header.reqid e.ast.header.chk = answer
  obtain ⟨result, store⟩ := answer
  cases result <;> rfl

theorem unauthorized_of_ok {p : Progress}
    (h : e.settings.checkBatches e.clock e.ast e.acceptHealed = .ok p) :
    p.plan.authorized = false := by
  rcases e.settings.checkBatches_cases e.clock e.ast e.acceptHealed with ⟨-, hok⟩ |
    ⟨-, before, entry, after, message, -, -, -, herror⟩
  · cases h.symm.trans hok
    rw [Entry.recordAll_eq]
  · cases h.symm.trans herror

variable {phase : Phase} {verdict : Option ExecutionPlan}

/-- A step at which the call does not take effect. -/
theorem Settles.quiet (henforce : e.settings.enforceIdempotency = true) (hclock : clock.Steady)
    (htracks : r.Tracks clock) (h : e.Settles phase verdict) (hquiet : e.effectAt clock r phase = none) :
    e.Settles (e.step clock r phase).1 verdict ∧ (e.step clock r phase).2.journal = r.journal := by
  cases h with
  | waiting =>
      have hcheck := check_eq henforce hclock htracks
      unfold effectAt at hquiet
      change e.Settles (e.check clock r).1 none ∧ (e.check clock r).2.journal = r.journal
      rw [check_snd]
      refine ⟨?_, rfl⟩
      cases hframe : e.frameError with
      | some message =>
          rw [hcheck, hframe] at hquiet
          exact nomatch hquiet
      | none =>
          rw [hframe] at hcheck
          dsimp only at hcheck
          split_ifs at hcheck with hguarded
          · rw [hcheck] at hquiet
            exact nomatch hquiet
          · rw [hcheck, authorize_eq] at hquiet
            rw [hcheck]
            cases hbatches : e.settings.checkBatches e.clock e.ast e.acceptHealed with
            | error plan =>
                rw [hbatches] at hquiet
                exact nomatch hquiet
            | ok p => exact .fresh hframe hbatches
  | refused hframe h =>
      have hstep : (e.step clock r .fresh).1 = e.authorize := rfl
      rw [hstep, authorize_eq, h]
      exact ⟨.returned (.refl _), rfl⟩
  | fresh hframe h =>
      have hstep : (e.step clock r .fresh).1 = e.authorize := rfl
      rw [hstep, authorize_eq, h]
      exact ⟨.admitted hframe h, rfl⟩
  | admitted hframe h => exact nomatch hquiet
  | returned h => exact ⟨.returned h, rfl⟩

/-- What the step does at which the call takes effect. -/
structure TakesEffect (e : Evaluation) (clock : Clock) (r : Run) (phase : Phase) (look now : Int) :
    Prop where
  settles : e.Settles (e.step clock r phase).1
    (some (e.atomic r.store.maxEntries r.store.ttlSeconds look now r.journal).1)
  journal : (e.step clock r phase).2.journal =
    (e.atomic r.store.maxEntries r.store.ttlSeconds look now r.journal).2
  last_le : r.last clock ≤ look
  look_le : look ≤ now
  now_le : now ≤ (e.step clock r phase).2.last clock

theorem takesEffect_of_check (hclock : clock.Steady) (plan : ExecutionPlan)
    (hatomic : e.atomic r.store.maxEntries r.store.ttlSeconds (clock r.tick) (clock r.tick)
      r.journal = (plan, r.journal))
    (hsettles : e.Settles (e.check clock r).1 (some plan)) :
    e.TakesEffect clock r .waiting (clock r.tick) (clock r.tick) := by
  have hrun : (e.step clock r .waiting).2 = r.wait := check_snd
  refine ⟨?_, ?_, hclock (Nat.sub_le _ _), le_rfl, ?_⟩
  · rw [hatomic]
    exact hsettles
  · rw [hrun, hatomic]
    rfl
  · rw [hrun]
    exact le_rfl

theorem takesEffect_check (henforce : e.settings.enforceIdempotency = true) (hclock : clock.Steady)
    (htracks : r.Tracks clock) {look now : Int}
    (heffect : e.effectAt clock r .waiting = some (look, now)) :
    e.TakesEffect clock r .waiting look now := by
  have hcheck := check_eq henforce hclock htracks
  unfold effectAt at heffect
  cases hframe : e.frameError with
  | some message =>
      rw [hframe] at hcheck
      rw [hcheck] at heffect
      cases heffect
      refine takesEffect_of_check hclock { errorMessage := message } (by rw [atomic, hframe]) ?_
      rw [hcheck]
      exact .returned (.refl _)
  | none =>
      rw [hframe] at hcheck
      dsimp only at hcheck
      by_cases hguarded : Guarded r.store.ttlSeconds (clock r.tick) r.keyJournal e.request.key
      · rw [if_pos hguarded] at hcheck
        rw [hcheck] at heffect
        cases heffect
        refine takesEffect_of_check hclock { errorMessage := replayMessage e.ast.header } ?_ ?_
        · rw [atomic, hframe]
          exact if_pos hguarded
        · rw [hcheck]
          exact .returned (.refl _)
      · rw [if_neg hguarded] at hcheck
        rw [hcheck, authorize_eq] at heffect
        cases hbatches : e.settings.checkBatches e.clock e.ast e.acceptHealed with
        | ok p =>
            rw [hbatches] at heffect
            exact nomatch heffect
        | error plan =>
            rw [hbatches] at heffect
            cases heffect
            refine takesEffect_of_check hclock plan ?_ ?_
            · rw [atomic, hframe, hbatches]
              exact if_neg hguarded
            · rw [hcheck]
              exact .refused hframe hbatches

theorem takesEffect_of_unrecorded (henforce : e.settings.enforceIdempotency = true)
    (hclock : clock.Steady) (htracks : r.Tracks clock) (p : Progress) (plan : ExecutionPlan)
    (hresult : (r.record clock e.request e.ast.header.chk).1 ≠ .recorded)
    (hatomic : ∀ now, e.atomic r.store.maxEntries r.store.ttlSeconds (r.look clock) now r.journal =
      (plan, r.journal))
    (hsame : SameVerdict (conclude e.ast.header p.plan (r.record clock e.request e.ast.header.chk).1)
      plan) :
    e.TakesEffect clock r (.admitted p) (r.look clock) ((e.consume clock r p).2.last clock) := by
  have hrun : (e.consume clock r p).2 = (r.record clock e.request e.ast.header.chk).2 := rfl
  obtain ⟨hpruned, -⟩ := htracks.record_adds_nothing hclock hresult
  refine ⟨?_, ?_, htracks.last_le_look hclock, ?_, le_rfl⟩
  · rw [hatomic]
    change e.Settles (e.consume clock r p).1 _
    rw [consume_eq henforce]
    exact .returned hsame
  · rw [hatomic]
    change (r.record clock e.request e.ast.header.chk).2.journal = r.journal
    rw [hpruned]
    rfl
  · rw [hrun, hpruned]
    exact le_rfl

theorem takesEffect_consume (henforce : e.settings.enforceIdempotency = true) (hclock : clock.Steady)
    (htracks : r.Tracks clock) {p : Progress} (hframe : e.frameError = none)
    (hbatches : e.settings.checkBatches e.clock e.ast e.acceptHealed = .ok p) :
    e.TakesEffect clock r (.admitted p) (r.look clock) ((e.consume clock r p).2.last clock) := by
  have hplan := unauthorized_of_ok hbatches
  have hresult := (htracks.record hclock e.request e.ast.header.chk).1
  unfold expectedResult at hresult
  split_ifs at hresult with hguarded hfull
  · refine takesEffect_of_unrecorded henforce hclock htracks p
      { errorMessage := replayMessage e.ast.header } (by rw [hresult]; decide) (fun now => ?_) ?_
    · rw [atomic, hframe]
      exact if_pos hguarded
    · rw [hresult]
      exact ⟨hplan, rfl, fun h => absurd (hplan.symm.trans h) Bool.false_ne_true⟩
  · refine takesEffect_of_unrecorded henforce hclock htracks p
      (conclude e.ast.header p.plan .capacityExceeded) (by rw [hresult]; decide) (fun now => ?_) ?_
    · rw [atomic, hframe, hbatches]
      exact (if_neg hguarded).trans (if_pos hfull)
    · rw [hresult]
      exact .refl _
  · obtain ⟨hpushed, -⟩ := htracks.record_recorded hclock hresult
    have hrun : (e.consume clock r p).2 = (r.prune clock).push clock e.request e.ast.header.chk :=
      hpushed
    have hatomic : ∀ now, e.atomic r.store.maxEntries r.store.ttlSeconds (r.look clock) now
        r.journal = (conclude e.ast.header p.plan .recorded, r.journal ++ [(e.request, now)]) := by
      intro now
      rw [atomic, hframe, hbatches]
      exact (if_neg hguarded).trans (if_neg hfull)
    refine ⟨?_, ?_, htracks.last_le_look hclock, ?_, le_rfl⟩
    · rw [hatomic]
      change e.Settles (e.consume clock r p).1 _
      rw [consume_eq henforce, hresult]
      exact .returned (.refl _)
    · rw [hatomic, hrun]
      change (e.consume clock r p).2.journal = _
      rw [hrun]
      rfl
    · rw [hrun]
      exact hclock (Nat.sub_le _ _)

/-- A step either is where the call takes effect or changes no verdict. -/
theorem Settles.step (henforce : e.settings.enforceIdempotency = true) (hclock : clock.Steady)
    (htracks : r.Tracks clock) (h : e.Settles phase verdict) {look now : Int}
    (heffect : e.effectAt clock r phase = some (look, now)) :
    verdict = none ∧ e.TakesEffect clock r phase look now := by
  cases h with
  | waiting => exact ⟨rfl, takesEffect_check henforce hclock htracks heffect⟩
  | refused hframe h => exact nomatch heffect
  | fresh hframe h => exact nomatch heffect
  | admitted hframe h =>
      cases heffect
      exact ⟨rfl, takesEffect_consume henforce hclock htracks hframe h⟩
  | returned h => exact nomatch heffect

end Evaluation

/-- A call takes effect: it looks at the store at `look` and is done with it at
`now`. -/
structure Effect (ι : Type) where
  call : ι
  look : Int
  now : Int

/-- The calls one after the other on a set with a time to live. -/
structure Serial (ι : Type) where
  journal : Journal Request
  verdict : ι → Option ExecutionPlan

namespace Serial

variable {ι : Type} [DecidableEq ι] (calls : ι → Evaluation) (maxEntries : Nat) (ttlSeconds : Int)

def new : Serial ι := ⟨[], fun _ => none⟩

def step (t : Serial ι) (effect : Effect ι) : Serial ι :=
  let (plan, journal) := (calls effect.call).atomic maxEntries ttlSeconds effect.look effect.now
    t.journal
  ⟨journal, Function.update t.verdict effect.call (some plan)⟩

def after (t : Serial ι) (effects : List (Effect ι)) : Serial ι :=
  effects.foldl (step calls maxEntries ttlSeconds) t

variable {calls maxEntries ttlSeconds}

theorem after_concat (t : Serial ι) (effects : List (Effect ι)) (effect : Effect ι) :
    t.after calls maxEntries ttlSeconds (effects ++ [effect]) =
      (t.after calls maxEntries ttlSeconds effects).step calls maxEntries ttlSeconds effect :=
  List.foldl_append

theorem verdict_step_self (t : Serial ι) (effect : Effect ι) :
    (t.step calls maxEntries ttlSeconds effect).verdict effect.call =
      some ((calls effect.call).atomic maxEntries ttlSeconds effect.look effect.now t.journal).1 :=
  Function.update_self ..

theorem verdict_step_of_ne (t : Serial ι) {effect : Effect ι} {i : ι} (h : i ≠ effect.call) :
    (t.step calls maxEntries ttlSeconds effect).verdict i = t.verdict i :=
  Function.update_of_ne h ..

end Serial

namespace Shared

variable {ι : Type} [DecidableEq ι] (calls : ι → Evaluation) (clock : Clock)

def effectOf (s : Shared ι) (i : ι) : Option (Effect ι) :=
  ((calls i).effectAt clock s.run (s.phase i)).map fun times => ⟨i, times.1, times.2⟩

/-- The calls in the order in which they take effect. -/
def effects : Shared ι → List ι → List (Effect ι)
  | _, [] => []
  | s, i :: schedule => (s.effectOf calls clock i).toList ++ effects (s.step calls clock i) schedule

variable {calls clock} {s : Shared ι}

theorem effects_append (early late : List ι) :
    s.effects calls clock (early ++ late) =
      s.effects calls clock early ++ (s.after calls clock early).effects calls clock late := by
  induction early generalizing s with
  | nil => rfl
  | cons i early ih =>
      rw [List.cons_append, effects, effects, ih, List.append_assoc]
      rfl

/-- What the calls so far have in common with the calls one after the other. -/
structure Linear (calls : ι → Evaluation) (clock : Clock) (maxEntries : Nat) (ttlSeconds : Int)
    (s : Shared ι) (effects : List (Effect ι)) : Prop where
  coherent : s.Coherent calls clock
  settings : s.run.store.maxEntries = maxEntries ∧ s.run.store.ttlSeconds = ttlSeconds
  journal : (Serial.new.after calls maxEntries ttlSeconds effects).journal = s.run.journal
  settles : ∀ i, (calls i).Settles (s.phase i)
    ((Serial.new.after calls maxEntries ttlSeconds effects).verdict i)
  mem_effects : ∀ i, ((Serial.new.after calls maxEntries ttlSeconds effects).verdict i).isSome = true ↔
    i ∈ effects.map Effect.call
  nodup : (effects.map Effect.call).Nodup
  ordered : effects.Pairwise fun first second => first.now ≤ second.look
  timed : ∀ effect ∈ effects, effect.look ≤ effect.now ∧ effect.now ≤ s.run.last clock

theorem linear_start (maxEntries : Nat) (ttlSeconds : Int) :
    (start maxEntries ttlSeconds : Shared ι).Linear calls clock maxEntries ttlSeconds [] where
  coherent := coherent_start maxEntries ttlSeconds
  settings := ⟨rfl, rfl⟩
  journal := rfl
  settles := fun _ => .waiting
  mem_effects := fun _ => by simp [Serial.after, Serial.new]
  nodup := List.nodup_nil
  ordered := List.Pairwise.nil
  timed := by simp

variable {maxEntries : Nat} {ttlSeconds : Int} {past : List (Effect ι)}

theorem maxEntries_step (i : ι) :
    (s.step calls clock i).run.store.maxEntries = s.run.store.maxEntries := by
  change ((calls i).step clock s.run (s.phase i)).2.store.maxEntries = _
  cases s.phase i with
  | waiting =>
      change ((calls i).check clock s.run).2.store.maxEntries = _
      rw [Evaluation.check_snd]
      rfl
  | fresh => rfl
  | admitted p =>
      exact (Run.call_settings (.recordRequest (calls i).request (calls i).ast.header.chk)).1
  | returned plan record => rfl

/-- The verdicts of the other calls stand. -/
theorem settles_step {i : ι} {verdict verdict' : ι → Option ExecutionPlan}
    (h : ∀ j, (calls j).Settles (s.phase j) (verdict j))
    (hi : (calls i).Settles ((calls i).step clock s.run (s.phase i)).1 (verdict' i))
    (hothers : ∀ j, j ≠ i → verdict' j = verdict j) (j : ι) :
    (calls j).Settles ((s.step calls clock i).phase j) (verdict' j) := by
  rw [phase_step]
  split_ifs with hj
  · rw [hj]
    exact hi
  · rw [hothers j hj]
    exact h j

theorem Linear.step (hclock : clock.Steady)
    (henforce : ∀ i, (calls i).settings.enforceIdempotency = true)
    (h : s.Linear calls clock maxEntries ttlSeconds past) (i : ι) :
    (s.step calls clock i).Linear calls clock maxEntries ttlSeconds
      (past ++ (s.effectOf calls clock i).toList) := by
  have hcoherent := h.coherent.step hclock henforce i
  have hlast : s.run.last clock ≤ (s.step calls clock i).run.last clock :=
    hclock (Nat.sub_le_sub_right
      (Evaluation.tick_le_step hclock h.coherent.tracks (s.phase i)) 1)
  have hsettings : (s.step calls clock i).run.store.maxEntries = maxEntries ∧
      (s.step calls clock i).run.store.ttlSeconds = ttlSeconds :=
    ⟨(maxEntries_step i).trans h.settings.1,
      (Evaluation.step_settings (s.phase i)).trans h.settings.2⟩
  unfold effectOf
  cases heffect : (calls i).effectAt clock s.run (s.phase i) with
  | none =>
      obtain ⟨hsettles, hjournal⟩ := (h.settles i).quiet (henforce i) hclock h.coherent.tracks heffect
      rw [Option.map_none, Option.toList_none, List.append_nil]
      exact ⟨hcoherent, hsettings, h.journal.trans hjournal.symm,
        settles_step h.settles hsettles fun _ _ => rfl, h.mem_effects, h.nodup, h.ordered,
        fun effect he => ⟨(h.timed effect he).1, (h.timed effect he).2.trans hlast⟩⟩
  | some times =>
      obtain ⟨look, now⟩ := times
      obtain ⟨hfree, htakes⟩ := (h.settles i).step (henforce i) hclock h.coherent.tracks heffect
      have hjournal := htakes.journal
      have hsettles := htakes.settles
      rw [h.settings.1, h.settings.2, ← h.journal] at hjournal hsettles
      have hnew : i ∉ past.map Effect.call := by
        rw [← h.mem_effects, hfree]
        exact Bool.false_ne_true
      rw [Option.map_some, Option.toList_some]
      refine ⟨hcoherent, hsettings, ?_, ?_, ?_, ?_, ?_, ?_⟩
      · rw [Serial.after_concat]
        exact hjournal.symm
      · rw [Serial.after_concat]
        refine settles_step h.settles ?_ fun j hj => Serial.verdict_step_of_ne _ hj
        rw [Serial.verdict_step_self _ ⟨i, look, now⟩]
        exact hsettles
      · intro j
        rw [Serial.after_concat, List.map_append, List.map_singleton, List.mem_append,
          List.mem_singleton, ← h.mem_effects]
        by_cases hj : j = i
        · rw [hj, Serial.verdict_step_self _ ⟨i, look, now⟩]
          simp
        · rw [Serial.verdict_step_of_ne _ hj]
          simp [hj]
      · rw [List.map_append, List.map_singleton]
        exact List.nodup_append.mpr ⟨h.nodup, List.nodup_singleton _, by simpa using hnew⟩
      · refine List.pairwise_append.mpr ⟨h.ordered, List.pairwise_singleton _ _, ?_⟩
        intro effect he last hlast'
        rw [List.mem_singleton.mp hlast']
        exact (h.timed effect he).2.trans htakes.last_le
      · intro effect he
        rcases List.mem_append.mp he with he | he
        · exact ⟨(h.timed effect he).1, (h.timed effect he).2.trans hlast⟩
        · rw [List.mem_singleton.mp he]
          exact ⟨htakes.look_le, htakes.now_le⟩

theorem Linear.after (hclock : clock.Steady)
    (henforce : ∀ i, (calls i).settings.enforceIdempotency = true)
    (h : s.Linear calls clock maxEntries ttlSeconds past) (schedule : List ι) :
    (s.after calls clock schedule).Linear calls clock maxEntries ttlSeconds
      (past ++ s.effects calls clock schedule) := by
  induction schedule generalizing s past with
  | nil =>
      rw [effects, List.append_nil]
      exact h
  | cons i schedule ih =>
      have hrest := ih (h.step hclock henforce i)
      rw [List.append_assoc] at hrest
      exact hrest

/-- Every schedule is as good as one call after the other, in an order that is
true to what came before what. -/
theorem linearizable (calls : ι → Evaluation) (clock : Clock) (hclock : clock.Steady)
    (henforce : ∀ i, (calls i).settings.enforceIdempotency = true) (maxEntries : Nat)
    (ttlSeconds : Int) (schedule : List ι) :
    let start : Shared ι := start maxEntries ttlSeconds
    let s := start.after calls clock schedule
    let effects := start.effects calls clock schedule
    let serial := Serial.new.after calls maxEntries ttlSeconds effects
    serial.journal = s.run.journal ∧
    (∀ i plan record, s.phase i = .returned plan record →
      ∃ plan', serial.verdict i = some plan' ∧ Evaluation.SameVerdict plan plan') ∧
    (effects.map Effect.call).Nodup ∧
    effects.Pairwise (fun first second => first.now ≤ second.look) ∧
    (∀ effect ∈ effects, effect.look ≤ effect.now) ∧
    ∀ early late, schedule = early ++ late →
      start.effects calls clock early <+: effects ∧
      ∀ i, (∀ plan record, (start.after calls clock early).phase i = .returned plan record →
          i ∈ (start.effects calls clock early).map Effect.call) ∧
        ((start.after calls clock early).phase i = .waiting →
          i ∉ (start.effects calls clock early).map Effect.call) := by
  intro start s effects serial
  have hlinear : ∀ schedule, (start.after calls clock schedule).Linear calls clock maxEntries
      ttlSeconds (start.effects calls clock schedule) := fun schedule =>
    (linear_start maxEntries ttlSeconds).after hclock henforce schedule
  have h := hlinear schedule
  refine ⟨h.journal, ?_, h.nodup, h.ordered, fun effect he => (h.timed effect he).1, ?_⟩
  · intro i plan record hreturned
    have hsettles := h.settles i
    change (calls i).Settles (s.phase i) (serial.verdict i) at hsettles
    rw [hreturned] at hsettles
    exact hsettles.of_returned
  · rintro early late rfl
    have hearly := hlinear early
    refine ⟨⟨_, (effects_append early late).symm⟩, fun i => ⟨fun plan record hreturned => ?_,
      fun hwaiting => ?_⟩⟩
    · have hsettles := hearly.settles i
      rw [hreturned] at hsettles
      obtain ⟨plan', hverdict, -⟩ := hsettles.of_returned
      rw [← hearly.mem_effects, hverdict]
      rfl
    · have hsettles := hearly.settles i
      rw [hwaiting] at hsettles
      rw [← hearly.mem_effects, hsettles.of_waiting]
      exact Bool.false_ne_true

theorem linearizable_twins :
    let start : Shared Bool := start 1000 3600
    let schedule := [false, true, false, true, false, true]
    (Serial.new.after twins 1000 3600 (start.effects twins Int.ofNat schedule)).journal =
      (start.after twins Int.ofNat schedule).run.journal :=
  (linearizable twins Int.ofNat (fun _ _ => Int.ofNat_le.mpr) (fun _ => rfl) 1000 3600 _).1

end Shared
end LlmTop
