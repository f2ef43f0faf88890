import LlmTop.Authorization
import LlmTop.StoreRuns
import Mathlib.Logic.Function.Basic

/-!
# Concurrent evaluations

Any number of `evaluate` calls on one idempotency store.  Each call takes three
atomic steps, the early replay check, the capability checks and the record, and
the steps of different calls come in any order.
-/
namespace LlmTop
open IdempotencyStore Lib.TtlSet

/-- One call of `evaluate`.  The settings are those in force during the call; the
store in them is not the one the call works on.  The clock is the one its
capability checks read. -/
structure Evaluation where
  settings : LLMTOPMiddleware
  ast : AST
  acceptHealed : Bool
  clock : Clock

theorem LLMTOPMiddleware.consumeRequest_authorized {m : LLMTOPMiddleware}
    (henforce : m.enforceIdempotency = true) (clock : Clock) (header : Header) {p : Progress}
    (hplan : p.plan.authorized = false) :
    (m.consumeRequest clock header p).1.authorized = true ↔
      (m.idempotencyStore.recordRequest clock p.tick header.agt header.reqid header.chk).1 =
        .recorded := by
  unfold consumeRequest
  rw [if_pos henforce]
  generalize m.idempotencyStore.recordRequest clock p.tick header.agt header.reqid header.chk =
    answer
  obtain ⟨result, store⟩ := answer
  cases result <;> simp [hplan]

namespace Evaluation

inductive Phase where
  | waiting
  | fresh
  | admitted (p : Progress)
  | returned (plan : ExecutionPlan) (record : Option (RecordResult × Int))

/-- When the call used up its request id. -/
def Phase.recordedAt : Phase → Option Int
  | .returned _ (some (.recorded, time)) => some time
  | _ => none

theorem recordedAt_eq_some {phase : Phase} {time : Int} :
    phase.recordedAt = some time ↔ ∃ plan, phase = .returned plan (some (.recorded, time)) := by
  constructor
  · intro h
    unfold Phase.recordedAt at h
    split at h
    · rename_i plan time'
      rw [Option.some.injEq] at h
      exact ⟨plan, by rw [h]⟩
    · contradiction
  · rintro ⟨plan, rfl⟩
    rfl

variable (e : Evaluation)

def request : Request := ⟨e.ast.header.agt, e.ast.header.reqid⟩

def onStore (store : IdempotencyStore) : LLMTOPMiddleware :=
  { e.settings with idempotencyStore := store }

/-- Everything up to and with the early replay check, which has one reading of
the clock to itself. -/
def check (clock : Clock) (r : Run) : Phase × Run :=
  match (e.onStore r.store).gateError (fun _ => clock r.tick) e.ast e.acceptHealed with
  | some message => (.returned { errorMessage := message } none, r.wait)
  | none => (.fresh, r.wait)

/-- The two loops; they do not touch the store. -/
def authorize : Phase :=
  match e.settings.checkBatches e.clock e.ast e.acceptHealed with
  | .error plan => .returned plan none
  | .ok p => .admitted p

def consume (clock : Clock) (r : Run) (p : Progress) : Phase × Run :=
  let (result, r') := r.record clock e.request e.ast.header.chk
  (.returned ((e.onStore r.store).consumeRequest clock e.ast.header ⟨p.plan, r.tick⟩).1
    (some (result, clock (r.prune clock).tick)), r')

def step (clock : Clock) (r : Run) : Phase → Phase × Run
  | .waiting => e.check clock r
  | .fresh => (e.authorize, r)
  | .admitted p => e.consume clock r p
  | .returned plan record => (.returned plan record, r)

/-- A plan is not authorized before its request is recorded. -/
def Phase.Sound : Phase → Prop
  | .admitted p => p.plan.authorized = false
  | .returned plan record => plan.authorized = true ↔ ∃ time, record = some (.recorded, time)
  | _ => True

variable {e} {clock : Clock} {r : Run}

theorem authorize_sound : e.authorize.Sound := by
  unfold authorize
  rcases e.settings.checkBatches_cases e.clock e.ast e.acceptHealed with ⟨-, hok⟩ |
    ⟨-, before, entry, after, message, -, -, -, herror⟩
  · rw [hok]
    exact congrArg ExecutionPlan.authorized (Entry.recordAll_eq _)
  · rw [herror]
    simp [Phase.Sound, ExecutionPlan.fail, Entry.recordAll_eq]

theorem consume_sound (henforce : e.settings.enforceIdempotency = true) {p : Progress}
    (hplan : p.plan.authorized = false) : (e.consume clock r p).1.Sound := by
  have hauthorized := LLMTOPMiddleware.consumeRequest_authorized (m := e.onStore r.store) henforce
    clock e.ast.header (p := ⟨p.plan, r.tick⟩) hplan
  have hresult := r.record_result clock e.request e.ast.header.chk
  unfold consume Phase.Sound
  dsimp only
  rw [hauthorized]
  simp only [Option.some.injEq, Prod.mk.injEq, exists_and_left, exists_eq', and_true]
  rw [hresult]
  rfl

theorem check_fst_sound : (e.check clock r).1.Sound := by
  unfold check
  split
  · simp [Phase.Sound]
  · trivial

theorem step_sound (henforce : e.settings.enforceIdempotency = true) {phase : Phase}
    (hsound : phase.Sound) : (e.step clock r phase).1.Sound := by
  cases phase with
  | waiting => exact check_fst_sound
  | fresh => exact authorize_sound
  | admitted p => exact consume_sound henforce hsound
  | returned plan record => exact hsound

theorem check_snd : (e.check clock r).2 = r.wait := by
  unfold check
  split <;> rfl

theorem step_tracks (hclock : clock.Steady) (h : r.Tracks clock) (phase : Phase) :
    (e.step clock r phase).2.Tracks clock := by
  cases phase with
  | waiting =>
      change (e.check clock r).2.Tracks clock
      rw [check_snd]
      exact h.wait hclock
  | fresh => exact h
  | admitted p => exact (h.record hclock e.request e.ast.header.chk).2
  | returned plan record => exact h

theorem step_settings (phase : Phase) :
    (e.step clock r phase).2.store.ttlSeconds = r.store.ttlSeconds := by
  cases phase with
  | waiting =>
      change (e.check clock r).2.store.ttlSeconds = _
      rw [check_snd]
      rfl
  | fresh => rfl
  | admitted p => exact (Run.call_settings (.recordRequest e.request e.ast.header.chk)).2
  | returned plan record => rfl

theorem tick_le_step (hclock : clock.Steady) (h : r.Tracks clock) (phase : Phase) :
    r.tick ≤ (e.step clock r phase).2.tick := by
  cases phase with
  | waiting =>
      change r.tick ≤ (e.check clock r).2.tick
      rw [check_snd]
      exact Nat.le_succ _
  | fresh => exact le_rfl
  | admitted p => exact h.tick_le_record hclock e.request e.ast.header.chk
  | returned plan record => exact le_rfl

/-- The step in which a call records its request, if it does. -/
structure Records (e : Evaluation) (clock : Clock) (r : Run) (after : Phase × Run) (time : Int) :
    Prop where
  recordedAt : after.1.recordedAt = some time
  journal : after.2.journal = r.journal ++ [(e.request, time)]
  free : ¬Guarded r.store.ttlSeconds (r.look clock) r.keyJournal e.request.key
  later : r.look clock ≤ time

/-- A step records the request or leaves the journal as it is. -/
theorem step_cases (hclock : clock.Steady) (h : r.Tracks clock) (phase : Phase) :
    ((e.step clock r phase).1.recordedAt = phase.recordedAt ∧
      (e.step clock r phase).2.journal = r.journal) ∨
    ∃ time, e.Records clock r (e.step clock r phase) time := by
  cases phase with
  | waiting =>
      refine Or.inl ⟨?_, ?_⟩
      · change (e.check clock r).1.recordedAt = none
        unfold check
        split <;> rfl
      · change (e.check clock r).2.journal = _
        rw [check_snd]
        rfl
  | fresh =>
      refine Or.inl ⟨?_, rfl⟩
      change e.authorize.recordedAt = none
      unfold authorize
      split <;> rfl
  | admitted p =>
      change ((e.consume clock r p).1.recordedAt = none ∧ _) ∨ _
      by_cases hresult : (r.record clock e.request e.ast.header.chk).1 = .recorded
      · obtain ⟨hrun, hfree⟩ := h.record_recorded hclock hresult
        refine Or.inr ⟨clock (r.prune clock).tick, ?_, ?_, hfree, hclock (Nat.sub_le _ _)⟩
        · change (Phase.returned _
            (some ((r.record clock e.request e.ast.header.chk).1, _))).recordedAt = _
          rw [hresult]
          rfl
        · change (r.record clock e.request e.ast.header.chk).2.journal = _
          rw [hrun]
          rfl
      · obtain ⟨hrun, -⟩ := h.record_adds_nothing hclock hresult
        refine Or.inl ⟨?_, ?_⟩
        · change (Phase.returned _
            (some ((r.record clock e.request e.ast.header.chk).1, _))).recordedAt = _
          generalize (r.record clock e.request e.ast.header.chk).1 = result at hresult
          cases result with
          | recorded => exact absurd rfl hresult
          | replay => rfl
          | capacityExceeded => rfl
        · change (r.record clock e.request e.ast.header.chk).2.journal = _
          rw [hrun]
          rfl
  | returned plan record => exact Or.inl ⟨rfl, rfl⟩

/-! ## A call with nothing in between -/

/-- The readings of an undisturbed call that the store takes: the early replay
check's, and those behind the capability checks. -/
def storeClock (e : Evaluation) : Clock := fun k =>
  if k = 0 then e.clock 0 else e.clock ((entriesOf e.ast e.acceptHealed).length + k)

/-- The three steps in a row. -/
def alone (e : Evaluation) (store : IdempotencyStore) : Phase × Run :=
  let checked := e.step e.storeClock ⟨store, 0, []⟩ .waiting
  let authorized := e.step e.storeClock checked.2 checked.1
  e.step e.storeClock authorized.2 authorized.1

theorem checkBatches_over (e : Evaluation) (store : IdempotencyStore) (clock : Clock) :
    (e.onStore store).checkBatches clock e.ast e.acceptHealed =
      e.settings.checkBatches clock e.ast e.acceptHealed := rfl

theorem consumeRequest_congr (m : LLMTOPMiddleware) {clock clock' : Clock} (header : Header)
    (plan : ExecutionPlan) {tick tick' : Nat}
    (hclock : ∀ k, clock (tick + k) = clock' (tick' + k)) :
    m.consumeRequest clock header ⟨plan, tick⟩ = m.consumeRequest clock' header ⟨plan, tick'⟩ := by
  unfold LLMTOPMiddleware.consumeRequest
  rw [m.idempotencyStore.recordRequest_congr hclock]

theorem consumeRequest_store {m : LLMTOPMiddleware} (henforce : m.enforceIdempotency = true)
    (clock : Clock) (header : Header) (p : Progress) :
    (m.consumeRequest clock header p).2 =
      (m.idempotencyStore.recordRequest clock p.tick header.agt header.reqid header.chk).2 := by
  unfold LLMTOPMiddleware.consumeRequest
  rw [if_pos henforce]
  generalize m.idempotencyStore.recordRequest clock p.tick header.agt header.reqid header.chk =
    answer
  obtain ⟨result, store⟩ := answer
  cases result <;> rfl

/-- Undisturbed, the steps are `evaluate`. -/
theorem alone_eq_evaluate (e : Evaluation) (henforce : e.settings.enforceIdempotency = true)
    (store : IdempotencyStore) :
    ∃ record, (e.alone store).1 =
        .returned ((e.onStore store).evaluate e.clock e.ast e.acceptHealed).1 record ∧
      (e.alone store).2.store = ((e.onStore store).evaluate e.clock e.ast e.acceptHealed).2 := by
  have hgate : (e.onStore store).gateError (fun _ => e.storeClock 0) e.ast e.acceptHealed =
      (e.onStore store).gateError e.clock e.ast e.acceptHealed := rfl
  unfold alone LLMTOPMiddleware.evaluate
  rw [checkBatches_over]
  simp only [step, check]
  rw [hgate]
  cases (e.onStore store).gateError e.clock e.ast e.acceptHealed with
  | some message => exact ⟨none, rfl, rfl⟩
  | none =>
      simp only [authorize]
      rcases e.settings.checkBatches_cases e.clock e.ast e.acceptHealed with ⟨-, hok⟩ |
        ⟨-, before, entry, after, message, -, -, -, herror⟩
      · rw [hok]
        have hclock : ∀ k, e.storeClock (1 + k) =
            e.clock ((entriesOf e.ast e.acceptHealed).length + 1 + k) := by
          intro k
          rw [storeClock, if_neg (by omega), Nat.add_assoc]
        have hsame := consumeRequest_congr (e.onStore store) e.ast.header
          (Entry.recordAll (entriesOf e.ast e.acceptHealed)) hclock
        refine ⟨_, congrArg (Phase.returned · _) (congrArg Prod.fst hsame), ?_⟩
        have hstore := consumeRequest_store (m := e.onStore store) henforce e.storeClock e.ast.header
          ⟨Entry.recordAll (entriesOf e.ast e.acceptHealed), 1⟩
        change (Run.record _ _ _ _).2.store = _
        rw [Run.record_store]
        exact hstore.symm.trans (congrArg Prod.snd hsame)
      · rw [herror]
        exact ⟨none, rfl, rfl⟩

end Evaluation

/-- The store with all calls on it. -/
structure Shared (ι : Type) where
  run : Run
  phase : ι → Evaluation.Phase

namespace Shared

variable {ι : Type}

def start (maxEntries : Nat) (ttlSeconds : Int) : Shared ι :=
  ⟨⟨IdempotencyStore.new maxEntries ttlSeconds, 0, []⟩, fun _ => .waiting⟩

variable [DecidableEq ι] (calls : ι → Evaluation) (clock : Clock)

/-- The next step of one call. -/
def step (s : Shared ι) (i : ι) : Shared ι :=
  let (phase, run) := (calls i).step clock s.run (s.phase i)
  ⟨run, Function.update s.phase i phase⟩

def after (s : Shared ι) (schedule : List ι) : Shared ι := schedule.foldl (step calls clock) s

/-- What holds between any two steps. -/
structure Coherent (s : Shared ι) : Prop where
  tracks : s.run.Tracks clock
  sound : ∀ i, (s.phase i).Sound
  journaled : ∀ i time, (s.phase i).recordedAt = some time →
    ((calls i).request, time) ∈ s.run.journal
  apart : ∀ i j time time', i ≠ j → (calls i).request = (calls j).request →
    (s.phase i).recordedAt = some time → (s.phase j).recordedAt = some time' →
    s.run.store.ttlSeconds ≤ time' - time ∨ s.run.store.ttlSeconds ≤ time - time'

variable {calls clock} {s : Shared ι}

theorem phase_step (i j : ι) : (s.step calls clock i).phase j =
    if j = i then ((calls i).step clock s.run (s.phase i)).1 else s.phase j :=
  Function.update_apply _ _ _ _

theorem recordedAt_of_quiet {i : ι}
    (hquiet : ((calls i).step clock s.run (s.phase i)).1.recordedAt = (s.phase i).recordedAt)
    (j : ι) : ((s.step calls clock i).phase j).recordedAt = (s.phase j).recordedAt := by
  rw [phase_step]
  split_ifs with hj
  · rw [hj]
    exact hquiet
  · rfl

theorem recordedAt_of_records {i j : ι} {time time' : Int}
    (hrecords : (calls i).Records clock s.run ((calls i).step clock s.run (s.phase i)) time)
    (hj : ((s.step calls clock i).phase j).recordedAt = some time') :
    j = i ∧ time' = time ∨ j ≠ i ∧ (s.phase j).recordedAt = some time' := by
  rw [phase_step] at hj
  split_ifs at hj with hji
  · rw [hrecords.recordedAt, Option.some.injEq] at hj
    exact Or.inl ⟨hji, hj.symm⟩
  · exact Or.inr ⟨hji, hj⟩

omit [DecidableEq ι] in
/-- The call that records now and one that did before, with the same request. -/
theorem Coherent.apart_records (h : s.Coherent calls clock) {i j : ι} {time time' : Int}
    (hrequest : (calls i).request = (calls j).request)
    (hrecords : (calls i).Records clock s.run ((calls i).step clock s.run (s.phase i)) time)
    (hj : (s.phase j).recordedAt = some time') : s.run.store.ttlSeconds ≤ time - time' := by
  refine apart_of_not_guarded hrecords.free ?_ hrecords.later
  rw [hrequest]
  exact List.mem_map_of_mem (f := fun stamp => (stamp.1.key, stamp.2)) (h.journaled j time' hj)

theorem Coherent.step (hclock : clock.Steady)
    (henforce : ∀ i, (calls i).settings.enforceIdempotency = true)
    (h : s.Coherent calls clock) (i : ι) : (s.step calls clock i).Coherent calls clock := by
  have hsettings : (s.step calls clock i).run.store.ttlSeconds = s.run.store.ttlSeconds :=
    Evaluation.step_settings (s.phase i)
  refine ⟨Evaluation.step_tracks hclock h.tracks (s.phase i), fun j => ?_, ?_, ?_⟩
  · rw [phase_step]
    split_ifs
    · exact Evaluation.step_sound (henforce i) (h.sound i)
    · exact h.sound j
  · intro j time hj
    rcases Evaluation.step_cases hclock h.tracks (e := calls i) (s.phase i) with
      ⟨hquiet, hjournal⟩ | ⟨time', hrecords⟩
    · rw [recordedAt_of_quiet hquiet] at hj
      exact hjournal ▸ h.journaled j time hj
    · change _ ∈ ((calls i).step clock s.run (s.phase i)).2.journal
      rw [hrecords.journal]
      rcases recordedAt_of_records hrecords hj with ⟨rfl, rfl⟩ | ⟨-, hj⟩
      · exact List.mem_append_right _ (List.mem_singleton_self _)
      · exact List.mem_append_left _ (h.journaled j time hj)
  · intro j k time time' hne hrequest hj hk
    rw [hsettings]
    rcases Evaluation.step_cases hclock h.tracks (e := calls i) (s.phase i) with
      ⟨hquiet, -⟩ | ⟨now, hrecords⟩
    · rw [recordedAt_of_quiet hquiet] at hj hk
      exact h.apart j k time time' hne hrequest hj hk
    · rcases recordedAt_of_records hrecords hj with ⟨rfl, rfl⟩ | ⟨-, hj⟩
      · rcases recordedAt_of_records hrecords hk with ⟨rfl, -⟩ | ⟨-, hk⟩
        · exact absurd rfl hne
        · exact Or.inr (h.apart_records hrequest hrecords hk)
      · rcases recordedAt_of_records hrecords hk with ⟨hki, rfl⟩ | ⟨-, hk⟩
        · exact Or.inl (h.apart_records (hki ▸ hrequest.symm) hrecords hj)
        · exact h.apart j k time time' hne hrequest hj hk

omit [DecidableEq ι] in
theorem coherent_start (maxEntries : Nat) (ttlSeconds : Int) :
    (start maxEntries ttlSeconds : Shared ι).Coherent calls clock where
  tracks := Run.tracks_new clock maxEntries ttlSeconds
  sound := fun _ => trivial
  journaled := by simp [start, Evaluation.Phase.recordedAt]
  apart := by simp [start, Evaluation.Phase.recordedAt]

theorem Coherent.after (hclock : clock.Steady)
    (henforce : ∀ i, (calls i).settings.enforceIdempotency = true)
    (h : s.Coherent calls clock) (schedule : List ι) :
    (s.after calls clock schedule).Coherent calls clock := by
  induction schedule generalizing s with
  | nil => exact h
  | cons i schedule ih => exact ih (h.step hclock henforce i)

theorem settings_after (schedule : List ι) :
    (s.after calls clock schedule).run.store.ttlSeconds = s.run.store.ttlSeconds := by
  induction schedule generalizing s with
  | nil => rfl
  | cons i schedule ih => exact ih.trans (Evaluation.step_settings (s.phase i))

/-- A call that has returned stays as it is. -/
theorem returned_after {i : ι} {plan : ExecutionPlan} {record : Option (RecordResult × Int)}
    (hreturned : s.phase i = .returned plan record) (schedule : List ι) :
    (s.after calls clock schedule).phase i = .returned plan record := by
  induction schedule generalizing s with
  | nil => exact hreturned
  | cons j schedule ih =>
      refine ih ?_
      rw [phase_step]
      split_ifs with hij
      · rw [← hij, hreturned]
        rfl
      · exact hreturned

end Shared

/-- The store guards the key at `now`. -/
def IdempotencyStore.LiveKey (store : IdempotencyStore) (now : Int) (key : Bytes) : Prop :=
  ∃ entry, store.seenRequests.lookup key = some entry ∧
    isExpired store.ttlSeconds now entry.recordedAt = false

namespace Shared

variable {ι : Type} [DecidableEq ι] {calls : ι → Evaluation} {clock : Clock} {s : Shared ι}

/-- A step that records nothing leaves the live keys as they are. -/
theorem liveKey_of_quiet (hclock : clock.Steady)
    (henforce : ∀ i, (calls i).settings.enforceIdempotency = true) (h : s.Coherent calls clock)
    {i : ι} (hjournal : (s.step calls clock i).run.journal = s.run.journal) {now : Int}
    (hnow : (s.step calls clock i).run.last clock ≤ now) (key : Bytes) :
    (s.step calls clock i).run.store.LiveKey now key ↔ s.run.store.LiveKey now key := by
  have hlast : s.run.last clock ≤ (s.step calls clock i).run.last clock :=
    hclock (Nat.sub_le_sub_right (Evaluation.tick_le_step hclock h.tracks (s.phase i)) 1)
  have hsettings : (s.step calls clock i).run.store.ttlSeconds = s.run.store.ttlSeconds :=
    Evaluation.step_settings (s.phase i)
  unfold LiveKey
  rw [← (h.step hclock henforce i).tracks.held hnow, ← h.tracks.held (hlast.trans hnow), hsettings,
    Run.keyJournal, Run.keyJournal, hjournal]

/-- A call that does not end authorized never records. -/
theorem quiet_of_unauthorized (hclock : clock.Steady)
    (henforce : ∀ i, (calls i).settings.enforceIdempotency = true) (h : s.Coherent calls clock)
    {i : ι} {rest : List ι} {plan : ExecutionPlan} {record : Option (RecordResult × Int)}
    (hreturned : (s.after calls clock (i :: rest)).phase i = .returned plan record)
    (hplan : plan.authorized = false) :
    (s.step calls clock i).run.journal = s.run.journal := by
  rcases Evaluation.step_cases hclock h.tracks (e := calls i) (s.phase i) with
    ⟨-, hjournal⟩ | ⟨time, hrecords⟩
  · exact hjournal
  · obtain ⟨plan', hphase⟩ := Evaluation.recordedAt_eq_some.mp hrecords.recordedAt
    have hstep : (s.step calls clock i).phase i = .returned plan' (some (.recorded, time)) := by
      rw [phase_step, if_pos rfl, hphase]
    have hsound := (h.step hclock henforce i).sound i
    rw [hstep] at hsound
    have hplan' : plan'.authorized = true := hsound.mpr ⟨time, rfl⟩
    have hsame := (returned_after hstep rest).symm.trans hreturned
    cases hsame
    rw [hplan] at hplan'
    contradiction

/-- Every request is authorized at most once within the time to live, whatever
the order of the steps. -/
theorem authorized_once (calls : ι → Evaluation) (clock : Clock) (hclock : clock.Steady)
    (henforce : ∀ i, (calls i).settings.enforceIdempotency = true) (maxEntries : Nat)
    (ttlSeconds : Int) (schedule : List ι) :
    let s := (start maxEntries ttlSeconds).after calls clock schedule
    (∀ i j plan plan' record record', i ≠ j → (calls i).request = (calls j).request →
      s.phase i = .returned plan record → s.phase j = .returned plan' record' →
      plan.authorized = true → plan'.authorized = true →
      ∃ time time', record = some (.recorded, time) ∧ record' = some (.recorded, time') ∧
        (ttlSeconds ≤ time' - time ∨ ttlSeconds ≤ time - time')) ∧
    (∀ i plan record, s.phase i = .returned plan record → plan.authorized = true →
      ∃ time, record = some (.recorded, time)) ∧
    (∀ before i rest plan record, schedule = before ++ i :: rest →
      s.phase i = .returned plan record → plan.authorized = false →
      let left := (start maxEntries ttlSeconds).after calls clock before
      let right := left.step calls clock i
      ∀ now key, right.run.last clock ≤ now →
        (right.run.store.LiveKey now key ↔ left.run.store.LiveKey now key)) := by
  intro s
  have h : s.Coherent calls clock := (coherent_start maxEntries ttlSeconds).after hclock henforce
    schedule
  have httl : s.run.store.ttlSeconds = ttlSeconds := settings_after schedule
  have hrecorded : ∀ i plan record, s.phase i = .returned plan record → plan.authorized = true →
      ∃ time, record = some (.recorded, time) := by
    intro i plan record hphase hplan
    have hsound := h.sound i
    rw [hphase] at hsound
    exact hsound.mp hplan
  refine ⟨?_, hrecorded, ?_⟩
  · intro i j plan plan' record record' hne hrequest hi hj hplan hplan'
    obtain ⟨time, rfl⟩ := hrecorded i plan record hi hplan
    obtain ⟨time', rfl⟩ := hrecorded j plan' record' hj hplan'
    refine ⟨time, time', rfl, rfl, ?_⟩
    rw [← httl]
    exact h.apart i j time time' hne hrequest (by rw [hi]; rfl) (by rw [hj]; rfl)
  · intro before i rest plan record hschedule hphase hplan left right now key hnow
    have hleft : left.Coherent calls clock := (coherent_start maxEntries ttlSeconds).after hclock
      henforce before
    have hafter : s = left.after calls clock (i :: rest) := by
      change after calls clock _ schedule = _
      rw [hschedule, after, List.foldl_append]
      rfl
    rw [hafter] at hphase
    exact liveKey_of_quiet hclock henforce hleft
      (quiet_of_unauthorized hclock henforce hleft hphase hplan) hnow key

/-- Two calls with one request id and nothing to authorize, step by step. -/
def twins : Bool → Evaluation := fun _ =>
  { settings := { exampleMiddleware [] with enforceIdempotency := true }
    ast := { header := { agt := ascii "a", reqid := ascii "r" } }
    acceptHealed := false
    clock := fun _ => 0 }

theorem authorized_once_twins :
    let start : Shared Bool := start 1000 3600
    (∃ plan record, (start.after twins Int.ofNat [false, true, false, true, false, true]).phase true =
        .returned plan record ∧ plan.authorized = false) ∧
    let left := start.after twins Int.ofNat [false, true, false, true, false]
    let right := left.step twins Int.ofNat true
    ∀ now key, right.run.last Int.ofNat ≤ now →
      (right.run.store.LiveKey now key ↔ left.run.store.LiveKey now key) := by
  refine ⟨⟨_, _, rfl, rfl⟩, ?_⟩
  exact (authorized_once twins Int.ofNat (fun _ _ => Int.ofNat_le.mpr) (fun _ => rfl) 1000 3600
    [false, true, false, true, false, true]).2.2 [false, true, false, true, false] true [] _ _ rfl
    rfl rfl

end Shared
end LlmTop
