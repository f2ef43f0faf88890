import LlmTop.Accesses
import LlmTop.Authorization
import LlmTop.Lib.Unwinding
import Mathlib

/-!
# Refused requests leave no trace

Calls one after the other, each within a second of the clock: what was refused
could as well never have been sent.
-/
namespace LlmTop
namespace IdempotencyStore

/-- `prune_expired` at a clock that stands. -/
def prunedAt (store : IdempotencyStore) (now : Int) :
    (AList fun _ : Bytes => Entry) × List HistoryItem :=
  (pruneLoop store.ttlSeconds (fun _ => now) 0 store.seenRequests store.history).2

/-- Two stores that no reading from now on tells apart. -/
structure Alike (now : Int) (store store' : IdempotencyStore) : Prop where
  maxEntries : store.maxEntries = store'.maxEntries
  ttlSeconds : store.ttlSeconds = store'.ttlSeconds
  pruned : store.prunedAt now = store'.prunedAt now

theorem Alike.refl (now : Int) (store : IdempotencyStore) : Alike now store store := ⟨rfl, rfl, rfl⟩

theorem Alike.trans {now : Int} {store store' store'' : IdempotencyStore}
    (h : Alike now store store') (h' : Alike now store' store'') : Alike now store store'' :=
  ⟨h.maxEntries.trans h'.maxEntries, h.ttlSeconds.trans h'.ttlSeconds, h.pruned.trans h'.pruned⟩

section Standing

variable {ttl now : Int} {seen : AList fun _ : Bytes => Entry} {history : List HistoryItem}

theorem pruneLoop_tick (tick tick' : Nat) :
    (pruneLoop ttl (fun _ => now) tick seen history).2 =
      (pruneLoop ttl (fun _ => now) tick' seen history).2 :=
  (@pruneLoop_congr ttl (fun _ => now) (fun _ => now) tick tick' (fun _ => rfl) seen history).1

theorem isExpired_later {later recordedAt : Int} (hle : now ≤ later)
    (h : isExpired ttl now recordedAt = true) : isExpired ttl later recordedAt = true := by
  unfold isExpired at h ⊢
  rw [decide_eq_true_iff] at h ⊢
  omega

/-- Pruning again, later, is pruning later. -/
theorem pruneLoop_again {later : Int} (hle : now ≤ later) (tick : Nat) :
    let pruned := (pruneLoop ttl (fun _ => now) tick seen history).2
    (pruneLoop ttl (fun _ => later) tick pruned.1 pruned.2).2 =
      (pruneLoop ttl (fun _ => later) tick seen history).2 := by
  induction history generalizing tick seen with
  | nil => rfl
  | cons item rest ih =>
      dsimp only
      by_cases hexpired : isExpired ttl now item.recordedAt = true
      · have hlater := isExpired_later hle hexpired
        rw [pruneLoop, if_pos hexpired, pruneLoop_tick tick (tick + 1), ih (tick + 1)]
        conv_rhs => rw [pruneLoop, if_pos hlater]
      · rw [pruneLoop, if_neg hexpired]

/-- Pruning keeps every entry that has not expired, and adds none. -/
theorem pruneLoop_live (tick : Nat) (key : Bytes) :
    ((pruneLoop ttl (fun _ => now) tick seen history).2.1.lookup key).any
        (fun entry => !isExpired ttl now entry.recordedAt) =
      (seen.lookup key).any fun entry => !isExpired ttl now entry.recordedAt := by
  induction history generalizing tick seen with
  | nil => rfl
  | cons item rest ih =>
      by_cases hexpired : isExpired ttl now item.recordedAt = true
      · rw [pruneLoop, if_pos hexpired]
        dsimp only
        rw [ih]
        split_ifs with hcurrent
        · by_cases hkey : key = item.key
          · obtain ⟨entry, hentry, hstamp⟩ := (Option.any_eq_true ..).mp hcurrent
            rw [hkey, AList.lookup_erase, hentry, Option.any_some, eq_of_beq hstamp, hexpired]
            rfl
          · rw [AList.lookup_erase_ne hkey]
        · rfl
      · rw [pruneLoop, if_neg hexpired]

end Standing

section Alike

variable {now : Int} {store store' : IdempotencyStore} (h : Alike now store store')

include h

theorem Alike.later {later : Int} (hle : now ≤ later) : Alike later store store' where
  maxEntries := h.maxEntries
  ttlSeconds := h.ttlSeconds
  pruned := by
    have hpruned := h.pruned
    unfold prunedAt at hpruned ⊢
    rw [← pruneLoop_again hle 0, hpruned, h.ttlSeconds, pruneLoop_again hle 0]

theorem Alike.isReplayed (agentId reqid : Bytes) :
    store.isReplayed now agentId reqid = store'.isReplayed now agentId reqid := by
  have hany : ∀ s : IdempotencyStore, s.isReplayed now agentId reqid =
      ((s.prunedAt now).1.lookup (requestKey agentId reqid)).any
        fun entry => !isExpired s.ttlSeconds now entry.recordedAt := by
    intro s
    refine Eq.trans ?_ (pruneLoop_live 0 (requestKey agentId reqid)).symm
    unfold IdempotencyStore.isReplayed
    cases s.seenRequests.lookup (requestKey agentId reqid) with
    | none => rfl
    | some entry => rfl
  rw [hany, hany, h.pruned, h.ttlSeconds]

end Alike

/-- What `record_request` does behind the pruning. -/
def recordedAt (store : IdempotencyStore) (now : Int) (agentId reqid checksum : Bytes) :
    RecordResult × IdempotencyStore :=
  let seen := (store.prunedAt now).1
  let history := (store.prunedAt now).2
  let key := requestKey agentId reqid
  if (seen.lookup key).isSome then (.replay, { store with seenRequests := seen, history := history })
  else if store.maxEntries ≤ seen.entries.length then
    (.capacityExceeded, { store with seenRequests := seen, history := history })
  else
    (.recorded, { store with
      seenRequests := seen.insert key ⟨checksum, now⟩, history := history ++ [⟨key, now⟩] })

theorem recordRequest_standing (store : IdempotencyStore) (now : Int) (tick : Nat)
    (agentId reqid checksum : Bytes) :
    store.recordRequest (fun _ => now) tick agentId reqid checksum =
      store.recordedAt now agentId reqid checksum := by
  unfold recordedAt prunedAt
  rw [pruneLoop_tick 0 tick]
  rfl

theorem recordedAt_settings (store : IdempotencyStore) (now : Int) (agentId reqid checksum : Bytes) :
    (store.recordedAt now agentId reqid checksum).2.maxEntries = store.maxEntries ∧
      (store.recordedAt now agentId reqid checksum).2.ttlSeconds = store.ttlSeconds := by
  unfold recordedAt
  dsimp only
  split_ifs
  · exact ⟨rfl, rfl⟩
  · exact ⟨rfl, rfl⟩
  · exact ⟨rfl, rfl⟩

theorem Alike.recordedAt {now : Int} {store store' : IdempotencyStore} (h : Alike now store store')
    (agentId reqid checksum : Bytes) :
    store.recordedAt now agentId reqid checksum = store'.recordedAt now agentId reqid checksum := by
  unfold IdempotencyStore.recordedAt
  rw [h.pruned, h.maxEntries, h.ttlSeconds]

/-- A request that is not taken prunes the store, at most. -/
theorem alike_of_not_recorded {store : IdempotencyStore} {now : Int} {agentId reqid checksum : Bytes}
    (h : (store.recordedAt now agentId reqid checksum).1 ≠ .recorded) :
    Alike now (store.recordedAt now agentId reqid checksum).2 store := by
  have hpruned : Alike now
      { store with seenRequests := (store.prunedAt now).1, history := (store.prunedAt now).2 } store :=
    ⟨rfl, rfl, pruneLoop_again (Int.le_refl now) 0⟩
  unfold IdempotencyStore.recordedAt at h ⊢
  dsimp only at h ⊢
  split_ifs at h ⊢ with hseen hfull
  · exact hpruned
  · exact hpruned
  · exact absurd rfl h

end IdempotencyStore

open Lib.Unwinding LLMTOPMiddleware

/-- A call of `evaluate` under the settings of the moment, or one of
`clear_idempotency_store`, each at its second. -/
inductive TimedCall where
  | evaluate (settings : LLMTOPMiddleware) (ast : AST) (acceptHealed : Bool) (now : Int)
  | clear (now : Int)

namespace TimedCall

def now : TimedCall → Int
  | .evaluate _ _ _ now => now
  | .clear now => now

/-- The plan that is returned, and the store that is left; the store is all that
passes from call to call. -/
def serve (store : IdempotencyStore) : TimedCall → Option ExecutionPlan × IdempotencyStore
  | .evaluate settings ast acceptHealed now =>
      let result := (settings.withStore store).evaluate (fun _ => now) ast acceptHealed
      (some result.1, result.2)
  | .clear _ => (none, store.clear)

/-- The call gets as far as `record_request`. -/
def Consumes (m : LLMTOPMiddleware) (now : Int) (ast : AST) (acceptHealed : Bool) : Prop :=
  m.enforceIdempotency = true ∧ m.gateError (fun _ => now) ast acceptHealed = none ∧
    ∃ p, m.checkBatches (fun _ => now) ast acceptHealed = .ok p

section Settings

variable (settings : LLMTOPMiddleware) {ast : AST} {acceptHealed : Bool} {now : Int}
  {store store' : IdempotencyStore}

theorem gateError_same
    (h : store.isReplayed now ast.header.agt ast.header.reqid =
      store'.isReplayed now ast.header.agt ast.header.reqid) :
    (settings.withStore store).gateError (fun _ => now) ast acceptHealed =
      (settings.withStore store').gateError (fun _ => now) ast acceptHealed := by
  unfold gateError withStore
  dsimp only
  rw [h]

/-- Two stores that answer the two replay checks alike. -/
theorem evaluate_same {Same : IdempotencyStore → IdempotencyStore → Prop} (hsame : Same store store')
    (hreplayed : store.isReplayed now ast.header.agt ast.header.reqid =
      store'.isReplayed now ast.header.agt ast.header.reqid)
    (hrecorded : Consumes (settings.withStore store) now ast acceptHealed →
      (store.recordedAt now ast.header.agt ast.header.reqid ast.header.chk).1 =
          (store'.recordedAt now ast.header.agt ast.header.reqid ast.header.chk).1 ∧
        Same (store.recordedAt now ast.header.agt ast.header.reqid ast.header.chk).2
          (store'.recordedAt now ast.header.agt ast.header.reqid ast.header.chk).2) :
    let result := (settings.withStore store).evaluate (fun _ => now) ast acceptHealed
    let result' := (settings.withStore store').evaluate (fun _ => now) ast acceptHealed
    result.1 = result'.1 ∧ Same result.2 result'.2 := by
  -- the walk over the entries does not look at the store
  have hbatches : (settings.withStore store').checkBatches (fun _ => now) ast acceptHealed =
      (settings.withStore store).checkBatches (fun _ => now) ast acceptHealed := rfl
  have hgates := @gateError_same settings ast acceptHealed now store store' hreplayed
  unfold Consumes at hrecorded
  unfold LLMTOPMiddleware.evaluate
  rw [← hgates, hbatches]
  cases hgate : (settings.withStore store).gateError (fun _ => now) ast acceptHealed with
  | some message => exact ⟨rfl, hsame⟩
  | none =>
      cases hwalk : (settings.withStore store).checkBatches (fun _ => now) ast acceptHealed with
      | error plan => exact ⟨rfl, hsame⟩
      | ok p =>
          unfold consumeRequest withStore
          cases henforce : settings.enforceIdempotency with
          | false => exact ⟨rfl, hsame⟩
          | true =>
              obtain ⟨hresult, hstores⟩ := hrecorded ⟨henforce, hgate, p, hwalk⟩
              dsimp only
              rw [IdempotencyStore.recordRequest_standing, IdempotencyStore.recordRequest_standing]
              generalize store.recordedAt now ast.header.agt ast.header.reqid ast.header.chk = taken
                at hresult hstores ⊢
              generalize store'.recordedAt now ast.header.agt ast.header.reqid ast.header.chk = taken'
                at hresult hstores ⊢
              obtain ⟨result, left⟩ := taken
              obtain ⟨result', left'⟩ := taken'
              obtain rfl : result = result' := hresult
              cases result with
              | recorded => exact ⟨rfl, hstores⟩
              | replay => exact ⟨rfl, hstores⟩
              | capacityExceeded => exact ⟨rfl, hstores⟩

/-- What the third outcome of `record_request` is reported with. -/
def capacityMessage : Bytes :=
  ascii "ERR:replay_detected - idempotency store at capacity; " ++
    ascii "cannot guarantee exactly-once execution"

/-- The store changes in `record_request` alone. -/
theorem evaluate_left :
    let result := (settings.withStore store).evaluate (fun _ => now) ast acceptHealed
    let taken := store.recordedAt now ast.header.agt ast.header.reqid ast.header.chk
    (¬Consumes (settings.withStore store) now ast acceptHealed → result.2 = store) ∧
      (Consumes (settings.withStore store) now ast acceptHealed → result.2 = taken.2 ∧
        (taken.1 = .recorded → result.1.authorized = true) ∧
        (taken.1 = .capacityExceeded → result.1.errorMessage = capacityMessage)) := by
  unfold Consumes LLMTOPMiddleware.evaluate
  cases hgate : (settings.withStore store).gateError (fun _ => now) ast acceptHealed with
  | some message => exact ⟨fun _ => rfl, fun h => nomatch h.2.1⟩
  | none =>
      cases hwalk : (settings.withStore store).checkBatches (fun _ => now) ast acceptHealed with
      | error plan => exact ⟨fun _ => rfl, fun h => nomatch h.2.2.choose_spec⟩
      | ok p =>
          unfold consumeRequest withStore
          cases henforce : settings.enforceIdempotency with
          | false => exact ⟨fun _ => rfl, fun h => nomatch h.1⟩
          | true =>
              refine ⟨fun h => absurd ⟨rfl, rfl, p, rfl⟩ h, fun _ => ?_⟩
              dsimp only
              rw [IdempotencyStore.recordRequest_standing]
              generalize store.recordedAt now ast.header.agt ast.header.reqid ast.header.chk = taken
              obtain ⟨result, left⟩ := taken
              cases result with
              | recorded => exact ⟨rfl, fun _ => rfl, nofun⟩
              | replay => exact ⟨rfl, nofun, nofun⟩
              | capacityExceeded => exact ⟨rfl, nofun, fun _ => rfl⟩

/-- A refusal prunes the store, at most. -/
theorem evaluate_refused
    (h : ((settings.withStore store).evaluate (fun _ => now) ast acceptHealed).1.authorized = false) :
    IdempotencyStore.Alike now ((settings.withStore store).evaluate (fun _ => now) ast acceptHealed).2
      store := by
  obtain ⟨hkept, htaken⟩ := @evaluate_left settings ast acceptHealed now store
  by_cases hconsumes : Consumes (settings.withStore store) now ast acceptHealed
  · obtain ⟨hleft, hrecorded, -⟩ := htaken hconsumes
    rw [hleft]
    refine IdempotencyStore.alike_of_not_recorded fun hresult => ?_
    rw [hrecorded hresult] at h
    contradiction
  · rw [hkept hconsumes]
    exact IdempotencyStore.Alike.refl now store

end Settings

/-- What is struck out is refused in the state that it finds. -/
def StruckRefused (store : IdempotencyStore) (call : Bool × TimedCall) : Prop :=
  call.1 = true → ∃ plan, (serve store call.2).1 = some plan ∧ plan.authorized = false

theorem unwinds_refused : Unwinds serve StruckRefused now IdempotencyStore.Alike where
  later hle h := h.later hle
  kept {call store store'} h _ := by
    cases call with
    | evaluate settings ast acceptHealed now =>
        have hnow : IdempotencyStore.Alike now store store' := h
        obtain ⟨hplan, hleft⟩ := @evaluate_same settings ast acceptHealed now store store' _ hnow
          (hnow.isReplayed _ _) fun _ => by
            rw [hnow.recordedAt]
            exact ⟨rfl, IdempotencyStore.Alike.refl now _⟩
        exact ⟨congrArg some hplan, hleft⟩
    | clear now => exact ⟨rfl, h.maxEntries, h.ttlSeconds, rfl⟩
  marked {call store store'} h hstruck := by
    obtain ⟨plan, hplan, hunauthorized⟩ := hstruck rfl
    cases call with
    | evaluate settings ast acceptHealed now =>
        obtain rfl := Option.some.inj hplan
        exact (evaluate_refused settings hunauthorized).trans h
    | clear now => contradiction

/-- Refused calls can be struck from a run: whoever sent them, and whatever the
settings were, every other call returns what it returns without them. -/
theorem refused_leave_no_trace (store : IdempotencyStore) (calls : List (Bool × TimedCall))
    (hordered : (calls.map fun call => call.2.now).Pairwise (· ≤ ·))
    (hrefused : AllAllowed serve StruckRefused store calls) :
    answers serve store calls = answers serve store (calls.filter fun call => !call.1) :=
  unwinds_refused.answers_eq_always hordered (fun t => IdempotencyStore.Alike.refl t store) hrefused

/-- A request of the agent, without statements. -/
def requestAt (agt reqid : Bytes) (now : Int) : TimedCall :=
  .evaluate { jwtValidator := SimpleJWTValidator.new (ascii "k") [] [], enforceIdempotency := true,
              verifyChk := false }
    { header := { agt := agt, reqid := reqid } } false now

/-- Struck out is a replay between two requests; there is room for two. -/
theorem refused_leave_no_trace_replay :
    let store := IdempotencyStore.new 2 10
    let first := requestAt (ascii "a") (ascii "r") 5
    let replay := requestAt (ascii "a") (ascii "r") 6
    let last := requestAt (ascii "a") (ascii "s") 7
    answers serve store [(false, first), (true, replay), (false, last)] =
      answers serve store [(false, first), (false, last)] :=
  refused_leave_no_trace _ _ (by decide)
    ⟨nofun, fun _ => ⟨_, rfl, by decide +kernel⟩, nofun, trivial⟩

end TimedCall
end LlmTop
