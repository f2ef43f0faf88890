import LlmTop.Idempotency
import LlmTop.Lib.TtlSet
import Mathlib.Data.Int.Order.Basic

/-!
# Runs of the idempotency store

A store in use, with the journal of what it recorded since the last `clear`.
The map and the history are the unexpired end of that journal.
-/
namespace LlmTop

/-- The readings never go back. -/
def Clock.Steady (clock : Clock) : Prop := ∀ ⦃i j : Nat⦄, i ≤ j → clock i ≤ clock j

namespace IdempotencyStore

open Lib.TtlSet

def HistoryItem.stamp (item : HistoryItem) : Bytes × Int := (item.key, item.recordedAt)

theorem live_iff {ttl now : Int} {item : HistoryItem} :
    Live ttl now item.stamp ↔ isExpired ttl now item.recordedAt = false := by
  simp [Live, HistoryItem.stamp, isExpired]

/-! ## The map and the history -/

/-- `seen_requests_` and `history_` hold the same keys with the same times. -/
structure InStep (seen : AList fun _ : Bytes => Entry) (history : List HistoryItem) : Prop where
  keys : seen.keys.Perm (history.map HistoryItem.key)
  stamps : ∀ item ∈ history, (seen.lookup item.key).map Entry.recordedAt = some item.recordedAt

namespace InStep

variable {seen : AList fun _ : Bytes => Entry} {history : List HistoryItem}

theorem empty : InStep ∅ [] := ⟨List.Perm.nil, by simp⟩

theorem nodup (h : InStep seen history) : (history.map HistoryItem.key).Nodup :=
  h.keys.nodup_iff.mp seen.keys_nodup

theorem length_eq (h : InStep seen history) : seen.entries.length = history.length := by
  have hlength := h.keys.length_eq
  rwa [AList.keys, List.keys, List.length_map, List.length_map] at hlength

theorem isSome_lookup (h : InStep seen history) {key : Bytes} :
    (seen.lookup key).isSome = true ↔ key ∈ history.map HistoryItem.key := by
  rw [AList.lookup_isSome, AList.mem_keys, h.keys.mem_iff]

/-- The map has the key with this time when the history says so. -/
theorem lookup_eq (h : InStep seen history) {key : Bytes} {entry : Entry}
    (hlookup : seen.lookup key = some entry) : ⟨key, entry.recordedAt⟩ ∈ history := by
  have hsome : (seen.lookup key).isSome = true := by rw [hlookup, Option.isSome_some]
  obtain ⟨item, hmem, hkey⟩ := List.mem_map.mp (h.isSome_lookup.mp hsome)
  have hstamp := h.stamps item hmem
  rw [hkey, hlookup, Option.map_some, Option.some.injEq] at hstamp
  rw [← hkey, hstamp]
  exact hmem

theorem pop {item : HistoryItem} {rest : List HistoryItem} (h : InStep seen (item :: rest)) :
    InStep (seen.erase item.key) rest := by
  have hnodup := h.nodup
  rw [List.map_cons, List.nodup_cons] at hnodup
  refine ⟨?_, fun other hmem => ?_⟩
  · refine (List.perm_ext_iff_of_nodup (seen.erase item.key).keys_nodup hnodup.2).mpr fun key => ?_
    rw [← AList.mem_keys, AList.mem_erase, AList.mem_keys, h.keys.mem_iff, List.map_cons,
      List.mem_cons]
    constructor
    · rintro ⟨hne, heq | hmem⟩
      · exact absurd heq hne
      · exact hmem
    · intro hmem
      refine ⟨?_, Or.inr hmem⟩
      rintro rfl
      exact hnodup.1 hmem
  · have hne : other.key ≠ item.key := by
      intro heq
      exact hnodup.1 (heq ▸ List.mem_map_of_mem hmem)
    rw [AList.lookup_erase_ne hne]
    exact h.stamps other (List.mem_cons_of_mem _ hmem)

theorem push (h : InStep seen history) {key checksum : Bytes} (now : Int)
    (hfree : seen.lookup key = none) :
    InStep (seen.insert key ⟨checksum, now⟩) (history ++ [⟨key, now⟩]) := by
  have hkey : key ∉ history.map HistoryItem.key := by
    rw [← h.keys.mem_iff, ← AList.mem_keys]
    exact AList.lookup_eq_none.mp hfree
  have hnodup : ((history ++ [(⟨key, now⟩ : HistoryItem)]).map HistoryItem.key).Nodup := by
    rw [List.map_append, List.map_singleton]
    exact List.nodup_append.mpr ⟨h.nodup, List.nodup_singleton _, by simpa using hkey⟩
  refine ⟨?_, fun item hmem => ?_⟩
  · refine (List.perm_ext_iff_of_nodup (seen.insert key ⟨checksum, now⟩).keys_nodup hnodup).mpr
      fun other => ?_
    rw [← AList.mem_keys, AList.mem_insert, AList.mem_keys, h.keys.mem_iff, List.map_append,
      List.map_singleton, List.mem_append, List.mem_singleton, or_comm]
  · rcases List.mem_append.mp hmem with hmem | hmem
    · have hne : item.key ≠ key := fun heq =>
        hkey (heq ▸ List.mem_map_of_mem (f := HistoryItem.key) hmem)
      rw [AList.lookup_insert_ne hne]
      exact h.stamps item hmem
    · rw [List.mem_singleton.mp hmem, AList.lookup_insert]
      rfl

/-- The entry is the one the front item recorded, so the map loses it too. -/
theorem front_current {item : HistoryItem} {rest : List HistoryItem}
    (h : InStep seen (item :: rest)) :
    ((seen.lookup item.key).any fun entry => entry.recordedAt == item.recordedAt) = true := by
  have hstamp := h.stamps item List.mem_cons_self
  cases hlookup : seen.lookup item.key with
  | none => simp [hlookup] at hstamp
  | some entry => simpa [hlookup] using hstamp

end InStep

/-! ## Pruning -/

/-- What `prune_expired` does to a map and a history in step: it drops a front
part that has expired at its last reading and keeps what is live then. -/
structure Prunes (ttl : Int) (clock : Clock) (tick : Nat) (seen : AList fun _ : Bytes => Entry)
    (history : List HistoryItem)
    (pruned : Nat × (AList fun _ : Bytes => Entry) × List HistoryItem) : Prop where
  later : tick ≤ pruned.1
  inStep : InStep pruned.2.1 pruned.2.2
  dropped : ∃ gone, history = gone ++ pruned.2.2 ∧
    ∀ item ∈ gone, ¬Live ttl (clock (pruned.1 - 1)) item.stamp
  kept : ∀ item ∈ pruned.2.2, Live ttl (clock (pruned.1 - 1)) item.stamp
  lookups : ∀ key entry, pruned.2.1.lookup key = some entry → seen.lookup key = some entry

theorem pruneLoop_prunes {ttl : Int} {clock : Clock} (hclock : clock.Steady) {tick : Nat}
    {seen : AList fun _ : Bytes => Entry} {history : List HistoryItem} (h : InStep seen history)
    (horder : Chronological (history.map HistoryItem.stamp)) :
    Prunes ttl clock tick seen history (pruneLoop ttl clock tick seen history) := by
  induction history generalizing tick seen with
  | nil => exact ⟨le_rfl, h, ⟨[], rfl, by simp⟩, by simp [pruneLoop], fun _ _ hlookup => hlookup⟩
  | cons item rest ih =>
      unfold pruneLoop
      split
      · rename_i hexpired
        simp only [h.front_current, if_true]
        have hpruned := @ih (tick + 1) _ h.pop (List.pairwise_cons.mp horder).2
        generalize pruneLoop ttl clock (tick + 1) (seen.erase item.key) rest = pruned at hpruned ⊢
        obtain ⟨gone, hgone, hdead⟩ := hpruned.dropped
        have hlater := hpruned.later
        refine ⟨by omega, hpruned.inStep, ⟨item :: gone, by rw [hgone]; rfl, ?_⟩, hpruned.kept, ?_⟩
        · intro other hmem hlive
          rcases List.mem_cons.mp hmem with rfl | hmem
          · have hearlier := live_iff.mp (hlive.earlier (hclock (show tick ≤ pruned.1 - 1 by omega)))
            rw [hexpired] at hearlier
            contradiction
          · exact hdead other hmem hlive
        · intro key entry hlookup
          have herased := hpruned.lookups key entry hlookup
          by_cases hkey : key = item.key
          · rw [hkey, AList.lookup_erase] at herased
            contradiction
          · rwa [AList.lookup_erase_ne hkey] at herased
      · rename_i hfresh
        have hlive : Live ttl (clock tick) item.stamp := live_iff.mpr (by simpa using hfresh)
        refine ⟨Nat.le_succ tick, h, ⟨[], rfl, by simp⟩, fun other hmem => ?_,
          fun _ _ hlookup => hlookup⟩
        have hbehind : other.stamp ∈ (item :: rest).map HistoryItem.stamp :=
          List.mem_map_of_mem hmem
        exact Chronological.live horder hlive other.stamp hbehind

/-! ## Runs -/

structure Request where
  agentId : Bytes
  reqid : Bytes
deriving DecidableEq

/-- The string the store looks the request up under. -/
def Request.key (q : Request) : Bytes := requestKey q.agentId q.reqid

inductive Call where
  | recordRequest (q : Request) (checksum : Bytes)
  | isReplayed (q : Request)
  | clear

/-- A store in use: the clock readings it has taken, and every request it
answered `recorded` to since the last `clear`. -/
structure Run where
  store : IdempotencyStore
  tick : Nat := 0
  journal : Journal Request := []

namespace Run

def keyJournal (r : Run) : Journal Bytes := r.journal.map fun stamp => (stamp.1.key, stamp.2)

/-- The last reading of the clock. -/
def last (r : Run) (clock : Clock) : Int := clock (r.tick - 1)

/-- After `prune_expired`. -/
def prune (r : Run) (clock : Clock) : Run :=
  let (tick, seen, history) :=
    pruneLoop r.store.ttlSeconds clock r.tick r.store.seenRequests r.store.history
  ⟨{ r.store with seenRequests := seen, history := history }, tick, r.journal⟩

/-- The last reading of the pruning in front of the next record; with nothing to
prune, the last one of the run. -/
def look (r : Run) (clock : Clock) : Int := (r.prune clock).last clock

/-- `record_request`; what it records goes into the journal with the time the
store wrote down. -/
def record (r : Run) (clock : Clock) (q : Request) (checksum : Bytes) : RecordResult × Run :=
  let (result, store) := r.store.recordRequest clock r.tick q.agentId q.reqid checksum
  let tick := (r.prune clock).tick
  if result = .recorded then (result, ⟨store, tick + 1, r.journal ++ [(q, clock tick)]⟩)
  else (result, ⟨store, tick, r.journal⟩)

/-- One more reading of the clock. -/
def wait (r : Run) : Run := { r with tick := r.tick + 1 }

/-- `is_replayed`; the clock is read only when the key is found. -/
def query (r : Run) (clock : Clock) (q : Request) : Bool × Run :=
  (r.store.isReplayed (clock r.tick) q.agentId q.reqid,
    if (r.store.seenRequests.lookup q.key).isSome then r.wait else r)

def call (clock : Clock) (r : Run) : Call → Run
  | .recordRequest q checksum => (r.record clock q checksum).2
  | .isReplayed q => (r.query clock q).2
  | .clear => ⟨r.store.clear, r.tick, []⟩

def after (clock : Clock) (r : Run) (calls : List Call) : Run := calls.foldl (call clock) r

/-- One more entry in the map, the history and the journal. -/
def push (r : Run) (clock : Clock) (q : Request) (checksum : Bytes) : Run where
  store := { r.store with
    seenRequests := r.store.seenRequests.insert q.key ⟨checksum, clock r.tick⟩
    history := r.store.history ++ [⟨q.key, clock r.tick⟩] }
  tick := r.tick + 1
  journal := r.journal ++ [(q, clock r.tick)]

section Record

variable (r : Run) (clock : Clock) (q : Request) (checksum : Bytes)

theorem record_result : (r.record clock q checksum).1 =
    (r.store.recordRequest clock r.tick q.agentId q.reqid checksum).1 := by
  unfold record
  dsimp only
  split_ifs <;> rfl

theorem record_store : (r.record clock q checksum).2.store =
    (r.store.recordRequest clock r.tick q.agentId q.reqid checksum).2 := by
  unfold record
  dsimp only
  split_ifs <;> rfl

theorem record_eq :
    r.record clock q checksum =
      let pruned := r.prune clock
      if (pruned.store.seenRequests.lookup q.key).isSome then (.replay, pruned)
      else if pruned.store.maxEntries ≤ pruned.store.seenRequests.entries.length then
        (.capacityExceeded, pruned)
      else (.recorded, pruned.push clock q checksum) := by
  unfold record recordRequest prune push Request.key
  generalize pruneLoop r.store.ttlSeconds clock r.tick r.store.seenRequests r.store.history = pruned
  obtain ⟨tick, seen, history⟩ := pruned
  dsimp only
  split_ifs with hseen hfull <;> simp_all

end Record

/-! ## What a run keeps -/

/-- The store holds the end of the journal; all before it has expired. -/
structure Tracks (clock : Clock) (r : Run) : Prop where
  inStep : InStep r.store.seenRequests r.store.history
  bounded : r.store.history.length ≤ r.store.maxEntries
  journal : ∃ past, r.keyJournal = past ++ r.store.history.map HistoryItem.stamp ∧
    ∀ stamp ∈ past, ¬Live r.store.ttlSeconds (r.last clock) stamp
  chronological : Chronological r.keyJournal
  stamped : ∀ stamp ∈ r.keyJournal, stamp.2 ≤ r.last clock

theorem tracks_new (clock : Clock) (maxEntries : Nat) (ttlSeconds : Int) :
    Tracks clock ⟨new maxEntries ttlSeconds, 0, []⟩ where
  inStep := InStep.empty
  bounded := Nat.zero_le _
  journal := ⟨[], rfl, by simp⟩
  chronological := List.Pairwise.nil
  stamped := by simp [keyJournal]

variable {clock : Clock} {r : Run}

theorem Tracks.chronological_history (h : r.Tracks clock) :
    Chronological (r.store.history.map HistoryItem.stamp) := by
  obtain ⟨past, hjournal, -⟩ := h.journal
  have horder := h.chronological
  rw [hjournal] at horder
  exact (List.pairwise_append.mp horder).2.1

theorem Tracks.prunes (h : r.Tracks clock) (hclock : clock.Steady) :
    Prunes r.store.ttlSeconds clock r.tick r.store.seenRequests r.store.history
      (pruneLoop r.store.ttlSeconds clock r.tick r.store.seenRequests r.store.history) :=
  pruneLoop_prunes hclock h.inStep h.chronological_history

theorem Tracks.last_le_look (h : r.Tracks clock) (hclock : clock.Steady) :
    r.last clock ≤ r.look clock :=
  hclock (Nat.sub_le_sub_right (h.prunes hclock).later 1)

/-- After pruning the store holds what is live, and nothing else. -/
theorem Tracks.prune (h : r.Tracks clock) (hclock : clock.Steady) : (r.prune clock).Tracks clock := by
  have hprunes := h.prunes hclock
  obtain ⟨past, hjournal, hpast⟩ := h.journal
  obtain ⟨gone, hgone, hdead⟩ := hprunes.dropped
  replace hgone : r.store.history = gone ++ (r.prune clock).store.history := hgone
  have hlook := h.last_le_look hclock
  refine ⟨hprunes.inStep, ?_, ⟨past ++ gone.map HistoryItem.stamp, ?_, ?_⟩, h.chronological,
    fun stamp hmem => (h.stamped stamp hmem).trans hlook⟩
  · refine le_trans ?_ h.bounded
    rw [hgone, List.length_append]
    exact Nat.le_add_left _ _
  · rw [List.append_assoc, ← List.map_append, ← hgone]
    exact hjournal
  · intro stamp hmem hlive
    rcases List.mem_append.mp hmem with hmem | hmem
    · exact hpast stamp hmem (hlive.earlier hlook)
    · obtain ⟨item, hitem, rfl⟩ := List.mem_map.mp hmem
      exact hdead item hitem hlive

theorem Tracks.live_prune (h : r.Tracks clock) (hclock : clock.Steady) :
    ∀ stamp ∈ (r.prune clock).store.history.map HistoryItem.stamp,
      Live r.store.ttlSeconds (r.look clock) stamp := by
  intro stamp hmem
  obtain ⟨item, hitem, rfl⟩ := List.mem_map.mp hmem
  exact (h.prunes hclock).kept item hitem

theorem Tracks.pruned_journal (h : r.Tracks clock) (hclock : clock.Steady) :
    ∃ past, r.keyJournal = past ++ (r.prune clock).store.history.map HistoryItem.stamp ∧
      ∀ stamp ∈ past, ¬Live r.store.ttlSeconds (r.look clock) stamp :=
  (h.prune hclock).journal

/-- The keys of the history are the ones guarded at the last look. -/
theorem Tracks.guarded_iff (h : r.Tracks clock) (hclock : clock.Steady) {key : Bytes} :
    Guarded r.store.ttlSeconds (r.look clock) r.keyJournal key ↔
      ((r.prune clock).store.seenRequests.lookup key).isSome = true := by
  obtain ⟨past, hjournal, hpast⟩ := h.pruned_journal hclock
  rw [hjournal, guarded_expired_append hpast,
    guarded_of_live (h.live_prune hclock), (h.prune hclock).inStep.isSome_lookup, List.map_map]
  rfl

theorem Tracks.length_guardedKeys (h : r.Tracks clock) (hclock : clock.Steady) :
    (guardedKeys r.store.ttlSeconds (r.look clock) r.keyJournal).length =
      (r.prune clock).store.seenRequests.entries.length := by
  have hpruned := h.prune hclock
  obtain ⟨past, hjournal, hpast⟩ := h.pruned_journal hclock
  have hkeys : ((r.prune clock).store.history.map HistoryItem.stamp).map Prod.fst =
      (r.prune clock).store.history.map HistoryItem.key := by
    rw [List.map_map]
    rfl
  have hnodup := hpruned.inStep.nodup
  rw [← hkeys] at hnodup
  rw [hjournal, guardedKeys_expired_append hpast,
    guardedKeys_of_live hnodup (h.live_prune hclock), hkeys, List.length_map,
    hpruned.inStep.length_eq]

theorem keyJournal_push (r : Run) (clock : Clock) (q : Request) (checksum : Bytes) :
    (r.push clock q checksum).keyJournal = r.keyJournal ++ [(q.key, clock r.tick)] := List.map_append

theorem Tracks.push (h : r.Tracks clock) (hclock : clock.Steady) {q : Request} (checksum : Bytes)
    (hfree : r.store.seenRequests.lookup q.key = none)
    (hroom : r.store.seenRequests.entries.length < r.store.maxEntries) :
    (r.push clock q checksum).Tracks clock := by
  obtain ⟨past, hjournal, hpast⟩ := h.journal
  have hlast : r.last clock ≤ clock r.tick := hclock (Nat.sub_le _ _)
  have hstamped : ∀ stamp ∈ r.keyJournal, stamp.2 ≤ clock r.tick := fun stamp hmem =>
    (h.stamped stamp hmem).trans hlast
  have hnew := r.keyJournal_push clock q checksum
  refine ⟨h.inStep.push _ hfree, ?_, ⟨past, ?_, ?_⟩, ?_, ?_⟩
  · rw [h.inStep.length_eq] at hroom
    exact (List.length_append).trans_le hroom
  · have hhistory : (r.push clock q checksum).store.history.map HistoryItem.stamp =
        r.store.history.map HistoryItem.stamp ++ [(q.key, clock r.tick)] := List.map_append
    rw [hhistory, ← List.append_assoc, ← hjournal, hnew]
  · exact fun stamp hmem hlive => hpast stamp hmem (hlive.earlier hlast)
  · rw [hnew]
    exact h.chronological.concat hstamped
  · intro stamp hmem
    rw [hnew] at hmem
    rcases List.mem_append.mp hmem with hmem | hmem
    · exact hstamped stamp hmem
    · rw [List.mem_singleton.mp hmem]
      rfl

end Run

/-- What a set with a time to live and room for `maxEntries` keys answers. -/
def expectedResult (maxEntries : Nat) (ttl look : Int) (journal : Journal Bytes) (key : Bytes) :
    RecordResult :=
  if Guarded ttl look journal key then .replay
  else if maxEntries ≤ (guardedKeys ttl look journal).length then .capacityExceeded
  else .recorded

namespace Run

variable {clock : Clock} {r : Run}

/-- One record, with everything it can do to the run. -/
theorem Tracks.record (h : r.Tracks clock) (hclock : clock.Steady)
    (q : Request) (checksum : Bytes) :
    (r.record clock q checksum).1 = expectedResult r.store.maxEntries
        r.store.ttlSeconds (r.look clock) r.keyJournal q.key ∧
      (r.record clock q checksum).2.Tracks clock := by
  have hpruned := h.prune hclock
  rw [record_eq]
  dsimp only
  by_cases hguarded : Guarded r.store.ttlSeconds (r.look clock) r.keyJournal q.key
  · have hseen := (h.guarded_iff hclock).mp hguarded
    rw [if_pos hseen, expectedResult, if_pos hguarded]
    exact ⟨rfl, hpruned⟩
  · have hseen := mt (h.guarded_iff hclock).mpr hguarded
    rw [if_neg hseen, expectedResult, if_neg hguarded, h.length_guardedKeys hclock]
    have hmax : (r.prune clock).store.maxEntries = r.store.maxEntries := rfl
    rw [hmax]
    split_ifs with hfull
    · exact ⟨rfl, hpruned⟩
    · refine ⟨rfl, hpruned.push hclock checksum ?_ (Nat.not_le.mp hfull)⟩
      simpa using hseen

theorem Tracks.wait (h : r.Tracks clock) (hclock : clock.Steady) : r.wait.Tracks clock := by
  obtain ⟨past, hjournal, hpast⟩ := h.journal
  have hlast : r.last clock ≤ clock r.tick := hclock (Nat.sub_le _ _)
  exact ⟨h.inStep, h.bounded, ⟨past, hjournal, fun stamp hmem hlive =>
    hpast stamp hmem (hlive.earlier hlast)⟩, h.chronological,
    fun stamp hmem => (h.stamped stamp hmem).trans hlast⟩

/-- What was recorded less than a time to live ago is still in the map. -/
theorem Tracks.held (h : r.Tracks clock) {now : Int} (hnow : r.last clock ≤ now) {key : Bytes} :
    Guarded r.store.ttlSeconds now r.keyJournal key ↔
      ∃ entry, r.store.seenRequests.lookup key = some entry ∧
        isExpired r.store.ttlSeconds now entry.recordedAt = false := by
  obtain ⟨past, hjournal, hpast⟩ := h.journal
  have hdead : ∀ stamp ∈ past, ¬Live r.store.ttlSeconds now stamp := fun stamp hmem hlive =>
    hpast stamp hmem (hlive.earlier hnow)
  rw [hjournal, guarded_expired_append hdead]
  constructor
  · rintro ⟨stamp, hmem, rfl, hlive⟩
    obtain ⟨item, hitem, rfl⟩ := List.mem_map.mp hmem
    obtain ⟨entry, hlookup, hrecorded⟩ := Option.map_eq_some_iff.mp (h.inStep.stamps item hitem)
    refine ⟨entry, hlookup, ?_⟩
    rw [hrecorded]
    exact live_iff.mp hlive
  · rintro ⟨entry, hlookup, hfresh⟩
    exact ⟨_, List.mem_map_of_mem (h.inStep.lookup_eq hlookup), rfl, live_iff.mpr hfresh⟩

theorem isReplayed_eq_true {store : IdempotencyStore} {now : Int} {agentId reqid : Bytes} :
    store.isReplayed now agentId reqid = true ↔
      ∃ entry, store.seenRequests.lookup (requestKey agentId reqid) = some entry ∧
        isExpired store.ttlSeconds now entry.recordedAt = false := by
  unfold isReplayed
  cases store.seenRequests.lookup (requestKey agentId reqid) <;> simp

theorem Tracks.query (h : r.Tracks clock) (hclock : clock.Steady) (q : Request) :
    ((r.query clock q).1 = true ↔
        Guarded r.store.ttlSeconds (clock r.tick) r.keyJournal q.key) ∧
      (r.query clock q).2.Tracks clock := by
  refine ⟨isReplayed_eq_true.trans (h.held (hclock (Nat.sub_le _ _))).symm, ?_⟩
  unfold Run.query
  dsimp only
  split_ifs
  · exact h.wait hclock
  · exact h

theorem tracks_clear (r : Run) (clock : Clock) : Tracks clock ⟨r.store.clear, r.tick, []⟩ :=
  ⟨InStep.empty, Nat.zero_le _, ⟨[], rfl, by simp⟩, List.Pairwise.nil, by simp [keyJournal]⟩

theorem Tracks.call (h : r.Tracks clock) (hclock : clock.Steady) (c : Call) :
    (r.call clock c).Tracks clock := by
  cases c with
  | recordRequest q checksum => exact (h.record hclock q checksum).2
  | isReplayed q => exact (h.query hclock q).2
  | clear => exact r.tracks_clear clock

theorem Tracks.after (h : r.Tracks clock) (hclock : clock.Steady) (calls : List Call) :
    (r.after clock calls).Tracks clock := by
  induction calls generalizing r with
  | nil => exact h
  | cons c calls ih => exact ih (h.call hclock c)

theorem call_settings (c : Call) :
    (r.call clock c).store.maxEntries = r.store.maxEntries ∧
      (r.call clock c).store.ttlSeconds = r.store.ttlSeconds := by
  cases c with
  | recordRequest q checksum =>
      rw [show r.call clock (.recordRequest q checksum) = (r.record clock q checksum).2 from rfl,
        record_eq]
      dsimp only
      split_ifs <;> exact ⟨rfl, rfl⟩
  | isReplayed q =>
      rw [show r.call clock (.isReplayed q) = (r.query clock q).2 from rfl, Run.query]
      dsimp only
      split_ifs <;> exact ⟨rfl, rfl⟩
  | clear => exact ⟨rfl, rfl⟩

theorem after_settings (calls : List Call) :
    (r.after clock calls).store.maxEntries = r.store.maxEntries ∧
      (r.after clock calls).store.ttlSeconds = r.store.ttlSeconds := by
  induction calls generalizing r with
  | nil => exact ⟨rfl, rfl⟩
  | cons c calls ih =>
      have hcall := @call_settings clock r c
      exact ⟨ih.1.trans hcall.1, ih.2.trans hcall.2⟩

/-- An answer other than `recorded` adds nothing. -/
theorem Tracks.record_adds_nothing (h : r.Tracks clock) (hclock : clock.Steady)
    {q : Request} {checksum : Bytes} (hresult : (r.record clock q checksum).1 ≠ .recorded) :
    (r.record clock q checksum).2 = r.prune clock ∧
      (r.prune clock).store.history <:+ r.store.history ∧
      ∀ key entry, (r.prune clock).store.seenRequests.lookup key = some entry →
        r.store.seenRequests.lookup key = some entry := by
  have hprunes := h.prunes hclock
  obtain ⟨gone, hgone, -⟩ := hprunes.dropped
  refine ⟨?_, ⟨gone, hgone.symm⟩, hprunes.lookups⟩
  rw [record_eq] at hresult ⊢
  dsimp only at hresult ⊢
  split_ifs at hresult ⊢
  · rfl
  · rfl
  · exact absurd rfl hresult

theorem Tracks.record_recorded (h : r.Tracks clock) (hclock : clock.Steady)
    {q : Request} {checksum : Bytes} (hresult : (r.record clock q checksum).1 = .recorded) :
    (r.record clock q checksum).2 = (r.prune clock).push clock q checksum ∧
      ¬Guarded r.store.ttlSeconds (r.look clock) r.keyJournal q.key := by
  rw [h.guarded_iff hclock]
  rw [record_eq] at hresult ⊢
  dsimp only at hresult ⊢
  split_ifs at hresult ⊢ with hseen hfull
  exact ⟨rfl, hseen⟩

theorem Tracks.tick_le_record (h : r.Tracks clock) (hclock : clock.Steady) (q : Request)
    (checksum : Bytes) : r.tick ≤ (r.record clock q checksum).2.tick := by
  have hlater : r.tick ≤ (r.prune clock).tick := (h.prunes hclock).later
  rw [record_eq]
  dsimp only
  split_ifs
  · exact hlater
  · exact hlater
  · exact hlater.trans (Nat.le_succ _)

end Run

/-- A store fresh from its constructor, after these calls. -/
def runOf (maxEntries : Nat) (ttlSeconds : Int) (clock : Clock) (calls : List Call) : Run :=
  Run.after clock ⟨new maxEntries ttlSeconds, 0, []⟩ calls

theorem tracks_runOf (maxEntries : Nat) (ttlSeconds : Int) {clock : Clock} (hclock : clock.Steady)
    (calls : List Call) : (runOf maxEntries ttlSeconds clock calls).Tracks clock :=
  (Run.tracks_new clock maxEntries ttlSeconds).after hclock calls

theorem settings_runOf (maxEntries : Nat) (ttlSeconds : Int) (clock : Clock) (calls : List Call) :
    (runOf maxEntries ttlSeconds clock calls).store.maxEntries = maxEntries ∧
      (runOf maxEntries ttlSeconds clock calls).store.ttlSeconds = ttlSeconds :=
  Run.after_settings calls

/-- The store is a set with a time to live that refuses what it has no room for. -/
theorem store_is_ttl_set (maxEntries : Nat) (ttlSeconds : Int) (clock : Clock)
    (hclock : clock.Steady) (calls : List Call) :
    let r := runOf maxEntries ttlSeconds clock calls
    (∀ (q : Request) checksum, (r.store.recordRequest clock r.tick q.agentId q.reqid checksum).1 =
      expectedResult maxEntries ttlSeconds (r.look clock) r.keyJournal q.key) ∧
    (∀ q : Request, r.store.isReplayed (clock r.tick) q.agentId q.reqid = true ↔
      Guarded ttlSeconds (clock r.tick) r.keyJournal q.key) ∧
    (∀ key, Guarded ttlSeconds (r.last clock) r.keyJournal key ↔
      ∃ entry, r.store.seenRequests.lookup key = some entry ∧
        isExpired ttlSeconds (r.last clock) entry.recordedAt = false) ∧
    InStep r.store.seenRequests r.store.history ∧
    Chronological (r.store.history.map HistoryItem.stamp) ∧
    r.store.history.length ≤ maxEntries ∧
    (∀ (q : Request) checksum,
      (r.store.recordRequest clock r.tick q.agentId q.reqid checksum).1 ≠ .recorded →
      let left := (r.store.recordRequest clock r.tick q.agentId q.reqid checksum).2
      left.history <:+ r.store.history ∧
        ∀ key entry, left.seenRequests.lookup key = some entry →
          r.store.seenRequests.lookup key = some entry) := by
  intro r
  have h : r.Tracks clock := tracks_runOf maxEntries ttlSeconds hclock calls
  obtain ⟨hmax, httl⟩ := settings_runOf maxEntries ttlSeconds clock calls
  change r.store.maxEntries = maxEntries at hmax
  change r.store.ttlSeconds = ttlSeconds at httl
  have hbounded := h.bounded
  rw [hmax] at hbounded
  refine ⟨fun q checksum => ?_, fun q => ?_, fun key => ?_, h.inStep, h.chronological_history,
    hbounded, fun q checksum hresult => ?_⟩
  · rw [← hmax, ← httl, ← (h.record hclock q checksum).1, Run.record_result]
  · rw [← httl]
    exact (h.query hclock q).1
  · rw [← httl]
    exact h.held le_rfl
  · rw [← Run.record_result] at hresult
    obtain ⟨hrun, hsuffix, hlookups⟩ := h.record_adds_nothing hclock hresult
    dsimp only
    rw [← Run.record_store, hrun]
    exact ⟨hsuffix, hlookups⟩

theorem store_is_ttl_set_full :
    ((runOf 1 10 Int.ofNat [.recordRequest ⟨ascii "a", ascii "r1"⟩ []]).store.recordRequest
      Int.ofNat 1 (ascii "a") (ascii "r2") []).1 = .capacityExceeded :=
  ((store_is_ttl_set 1 10 Int.ofNat (fun _ _ => Int.ofNat_le.mpr)
    [.recordRequest ⟨ascii "a", ascii "r1"⟩ []]).1 ⟨ascii "a", ascii "r2"⟩ []).trans
    (by decide +kernel)

end IdempotencyStore
end LlmTop
