import LlmTop.Bytes
import Mathlib.Data.List.AList

/-!
# The idempotency store

Recorded requests with a time to live.  The wall clock is read more than once
in a call; a `Clock` lists the readings in order, none of them promised to be
later than the one before.
-/
namespace LlmTop

abbrev Clock := Nat → Int

structure IdempotencyStore.Entry where
  checksum : Bytes
  recordedAt : Int

structure IdempotencyStore.HistoryItem where
  key : Bytes
  recordedAt : Int

inductive IdempotencyStore.RecordResult where
  | recorded
  | replay
  | capacityExceeded
deriving DecidableEq

structure IdempotencyStore where
  maxEntries : Nat
  ttlSeconds : Int
  seenRequests : AList fun _ : Bytes => IdempotencyStore.Entry
  history : List IdempotencyStore.HistoryItem

namespace IdempotencyStore

def new (maxEntries : Nat) (ttlSeconds : Int) : IdempotencyStore where
  maxEntries := maxEntries
  ttlSeconds := ttlSeconds
  seenRequests := ∅
  history := []

def requestKey (agentId reqid : Bytes) : Bytes := agentId ++ ascii ":" ++ reqid

def isExpired (ttlSeconds now recordedAt : Int) : Bool := ttlSeconds ≤ now - recordedAt

def isReplayed (store : IdempotencyStore) (now : Int) (agentId reqid : Bytes) : Bool :=
  match store.seenRequests.lookup (requestKey agentId reqid) with
  | none => false
  | some entry => !isExpired store.ttlSeconds now entry.recordedAt

/-- The loop of `prune_expired`: every look at the front of the history reads
the clock once. -/
def pruneLoop (ttlSeconds : Int) (clock : Clock) (tick : Nat)
    (seen : AList fun _ : Bytes => Entry) :
    List HistoryItem → Nat × (AList fun _ : Bytes => Entry) × List HistoryItem
  | [] => (tick, seen, [])
  | item :: rest =>
      if isExpired ttlSeconds (clock tick) item.recordedAt then
        let current := (seen.lookup item.key).any fun entry => entry.recordedAt == item.recordedAt
        pruneLoop ttlSeconds clock (tick + 1) (if current then seen.erase item.key else seen) rest
      else (tick + 1, seen, item :: rest)

def recordRequest (store : IdempotencyStore) (clock : Clock) (tick : Nat)
    (agentId reqid checksum : Bytes) : RecordResult × IdempotencyStore :=
  let (tick, seen, history) := pruneLoop store.ttlSeconds clock tick store.seenRequests store.history
  let store := { store with seenRequests := seen, history := history }
  let key := requestKey agentId reqid
  if (seen.lookup key).isSome then (.replay, store)
  else if store.maxEntries ≤ seen.entries.length then (.capacityExceeded, store)
  else
    let now := clock tick
    (.recorded, { store with
      seenRequests := seen.insert key ⟨checksum, now⟩, history := history ++ [⟨key, now⟩] })

/-- Only the readings from `tick` on matter. -/
theorem pruneLoop_congr (ttlSeconds : Int) {clock clock' : Clock} {tick tick' : Nat}
    (hclock : ∀ k, clock (tick + k) = clock' (tick' + k))
    (seen : AList fun _ : Bytes => Entry) (history : List HistoryItem) :
    (pruneLoop ttlSeconds clock tick seen history).2 =
        (pruneLoop ttlSeconds clock' tick' seen history).2 ∧
      ∃ reads, (pruneLoop ttlSeconds clock tick seen history).1 = tick + reads ∧
        (pruneLoop ttlSeconds clock' tick' seen history).1 = tick' + reads := by
  induction history generalizing tick tick' seen with
  | nil => exact ⟨rfl, 0, rfl, rfl⟩
  | cons item rest ih =>
      have hnow : clock tick = clock' tick' := hclock 0
      unfold pruneLoop
      rw [hnow]
      split
      · have hlater : ∀ k, clock (tick + 1 + k) = clock' (tick' + 1 + k) := by
          intro k
          rw [Nat.add_assoc, Nat.add_assoc]
          exact hclock (1 + k)
        obtain ⟨hpruned, reads, htick, htick'⟩ := ih hlater
          (if (seen.lookup item.key).any fun entry => entry.recordedAt == item.recordedAt then
            seen.erase item.key else seen)
        exact ⟨hpruned, 1 + reads, by rw [htick, Nat.add_assoc], by rw [htick', Nat.add_assoc]⟩
      · exact ⟨rfl, 1, rfl, rfl⟩

theorem recordRequest_congr (store : IdempotencyStore) {clock clock' : Clock} {tick tick' : Nat}
    (hclock : ∀ k, clock (tick + k) = clock' (tick' + k)) (agentId reqid checksum : Bytes) :
    store.recordRequest clock tick agentId reqid checksum =
      store.recordRequest clock' tick' agentId reqid checksum := by
  have hsame := pruneLoop_congr store.ttlSeconds hclock store.seenRequests store.history
  unfold recordRequest
  generalize pruneLoop store.ttlSeconds clock tick store.seenRequests store.history = pruned at hsame ⊢
  generalize pruneLoop store.ttlSeconds clock' tick' store.seenRequests store.history = pruned'
    at hsame ⊢
  obtain ⟨last, kept⟩ := pruned
  obtain ⟨last', kept'⟩ := pruned'
  obtain ⟨rfl, reads, rfl, rfl⟩ := hsame
  dsimp only
  rw [hclock reads]

def clear (store : IdempotencyStore) : IdempotencyStore :=
  { store with seenRequests := ∅, history := [] }

/-- The requests `prune_expired` leaves. -/
def liveRequests (store : IdempotencyStore) (clock : Clock) (tick : Nat) :
    AList fun _ : Bytes => Entry :=
  (pruneLoop store.ttlSeconds clock tick store.seenRequests store.history).2.1

/-- There is a slot for the request and no live one under its key. -/
def Admits (store : IdempotencyStore) (clock : Clock) (tick : Nat) (agentId reqid : Bytes) : Prop :=
  (store.liveRequests clock tick).lookup (requestKey agentId reqid) = none ∧
    (store.liveRequests clock tick).entries.length < store.maxEntries

theorem recordRequest_eq_recorded (store : IdempotencyStore) (clock : Clock) (tick : Nat)
    (agentId reqid checksum : Bytes) :
    (store.recordRequest clock tick agentId reqid checksum).1 = .recorded ↔
      store.Admits clock tick agentId reqid := by
  unfold recordRequest Admits liveRequests
  generalize pruneLoop store.ttlSeconds clock tick store.seenRequests store.history = pruned
  obtain ⟨tick', seen, history⟩ := pruned
  dsimp only
  split_ifs with hseen hfull
  · simp [Option.isSome_iff_ne_none.mp hseen]
  · simp [Nat.not_lt.mpr hfull]
  · have hfree : seen.lookup (requestKey agentId reqid) = none := by simpa using hseen
    simp [hfree, Nat.not_le.mp hfull]

theorem recordRequest_eq_replay (store : IdempotencyStore) (clock : Clock) (tick : Nat)
    (agentId reqid checksum : Bytes) :
    (store.recordRequest clock tick agentId reqid checksum).1 = .replay ↔
      ((store.liveRequests clock tick).lookup (requestKey agentId reqid)).isSome = true := by
  unfold recordRequest liveRequests
  generalize pruneLoop store.ttlSeconds clock tick store.seenRequests store.history = pruned
  obtain ⟨tick', seen, history⟩ := pruned
  dsimp only
  split_ifs with hseen hfull <;> simp [hseen]

end IdempotencyStore
end LlmTop
