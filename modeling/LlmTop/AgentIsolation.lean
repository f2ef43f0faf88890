import LlmTop.RefusedTraces
import LlmTop.RequestKeys

/-!
# Agents are isolated

While the store has room, and as long as no agent's name holds a colon, an agent
is answered as if no other one had ever called.
-/
namespace LlmTop
open Lib.TtlSet Lib.Unwinding IdempotencyStore

namespace TimedCall

/-- Whom the call is from; `clear` is the host's. -/
def agent : TimedCall → Option Bytes
  | .evaluate _ ast _ _ => some ast.header.agt
  | .clear _ => none

/-- The calls of all other agents are marked. -/
def markOthers (agt : Bytes) (call : TimedCall) : Bool × TimedCall :=
  (call.agent.any (· != agt), call)

/-- The call is told that the store is full. -/
def ToldFull (store : IdempotencyStore) (call : TimedCall) : Prop :=
  ∃ plan, (serve store call).1 = some plan ∧ plan.errorMessage = capacityMessage

theorem not_toldFull {store : IdempotencyStore} {call : TimedCall}
    (h : (serve store call).1.all (·.errorMessage != capacityMessage) = true) :
    ¬ToldFull store call := by
  rintro ⟨plan, hplan, hfull⟩
  rw [hplan, Option.all_some, hfull, bne_self_eq_false] at h
  contradiction

end TimedCall

namespace IdempotencyStore

section Tracked

variable {store : IdempotencyStore} {journal : Journal Request} {now : Int}

/-- The store holds what is live of the journal, at a clock that stands. -/
abbrev TracksAt (now : Int) (store : IdempotencyStore) (journal : Journal Request) : Prop :=
  Run.Tracks (fun _ => now) ⟨store, 0, journal⟩

theorem steady_standing (now : Int) : Clock.Steady fun _ => now := fun _ _ _ => le_rfl

theorem TracksAt.of_tick {tick : Nat} (h : Run.Tracks (fun _ => now) ⟨store, tick, journal⟩) :
    TracksAt now store journal :=
  ⟨h.inStep, h.bounded, h.journal, h.chronological, h.stamped⟩

theorem TracksAt.later (h : TracksAt now store journal) {later : Int} (hle : now ≤ later) :
    TracksAt later store journal := by
  obtain ⟨past, hjournal, hpast⟩ := h.journal
  exact ⟨h.inStep, h.bounded, ⟨past, hjournal, fun stamp hmem hlive =>
    hpast stamp hmem (hlive.earlier hle)⟩, h.chronological,
    fun stamp hmem => (h.stamped stamp hmem).trans hle⟩

theorem TracksAt.isReplayed (h : TracksAt now store journal) (q : Request) :
    store.isReplayed now q.agentId q.reqid = true ↔
      Guarded store.ttlSeconds now (Run.keyJournal ⟨store, 0, journal⟩) q.key :=
  (Run.Tracks.query h (steady_standing now) q).1

theorem TracksAt.recordedAt (h : TracksAt now store journal) (q : Request) (checksum : Bytes) :
    let taken := store.recordedAt now q.agentId q.reqid checksum
    taken.1 = expectedResult store.maxEntries store.ttlSeconds now
        (Run.keyJournal ⟨store, 0, journal⟩) q.key ∧
      TracksAt now taken.2 (if taken.1 = .recorded then journal ++ [(q, now)] else journal) := by
  obtain ⟨hresult, htracks⟩ := Run.Tracks.record h (steady_standing now) q checksum
  unfold Run.record at hresult htracks
  dsimp only at hresult htracks
  rw [recordRequest_standing] at hresult htracks
  dsimp only
  generalize store.recordedAt now q.agentId q.reqid checksum = taken at hresult htracks ⊢
  split_ifs at hresult htracks ⊢ with hrecorded
  · exact ⟨hresult, TracksAt.of_tick htracks⟩
  · exact ⟨hresult, TracksAt.of_tick htracks⟩

end Tracked

/-- What one agent's requests left in the journal. -/
def ownJournal (agt : Bytes) (journal : Journal Request) : Journal Request :=
  journal.filter fun stamp => stamp.1.agentId == agt

def PlainNames (journal : Journal Request) : Prop := ∀ stamp ∈ journal, ':'.toUInt8 ∉ stamp.1.agentId

section Own

variable {store store' : IdempotencyStore} {journal : Journal Request} {agt : Bytes} {ttl now : Int}

theorem ownJournal_append {q : Request} :
    ownJournal agt (journal ++ [(q, now)]) =
      ownJournal agt journal ++ if q.agentId = agt then [(q, now)] else [] := by
  unfold ownJournal
  rw [List.filter_append]
  split_ifs with hq
  · simp [hq]
  · simp [hq]

theorem PlainNames.own (hnames : PlainNames journal) : PlainNames (ownJournal agt journal) :=
  fun stamp hmem => hnames stamp (List.mem_of_mem_filter hmem)

/-- Without colons in the names a key is as good as its request. -/
theorem guarded_key (hnames : PlainNames journal) {q : Request} (hq : ':'.toUInt8 ∉ q.agentId) :
    Guarded ttl now (Run.keyJournal ⟨store, 0, journal⟩) q.key ↔ Guarded ttl now journal q := by
  rw [Run.guarded_keyJournal]
  constructor
  · rintro ⟨q', hkey, stamp, hmem, rfl, hlive⟩
    rcases Request.key_eq_iff.mp hkey with rfl | hcollides
    · exact ⟨stamp, hmem, rfl, hlive⟩
    · exact absurd hcollides (Request.not_collides (hnames stamp hmem) hq)
  · exact fun h => ⟨q, rfl, h⟩

theorem guarded_own {q : Request} (hq : q.agentId = agt) :
    Guarded ttl now (ownJournal agt journal) q ↔ Guarded ttl now journal q := by
  constructor
  · rintro ⟨stamp, hmem, hrest⟩
    exact ⟨stamp, List.mem_of_mem_filter hmem, hrest⟩
  · rintro ⟨stamp, hmem, rfl, hlive⟩
    exact ⟨stamp, List.mem_filter.mpr ⟨hmem, beq_iff_eq.mpr hq⟩, rfl, hlive⟩

theorem length_guardedKeys_own :
    (guardedKeys ttl now (Run.keyJournal ⟨store', 0, ownJournal agt journal⟩)).length ≤
      (guardedKeys ttl now (Run.keyJournal ⟨store, 0, journal⟩)).length := by
  have hsubset : guardedKeys ttl now (Run.keyJournal ⟨store', 0, ownJournal agt journal⟩) ⊆
      guardedKeys ttl now (Run.keyJournal ⟨store, 0, journal⟩) := by
    intro key hkey
    obtain ⟨stamp, hmem, hrest⟩ := mem_guardedKeys.mp hkey
    obtain ⟨recorded, hrecorded, rfl⟩ := List.mem_map.mp hmem
    exact mem_guardedKeys.mpr
      ⟨_, List.mem_map_of_mem (List.mem_of_mem_filter hrecorded), hrest⟩
  exact (List.subperm_of_subset (List.nodup_dedup _) hsubset).length_le

/-- An agent's request that finds room is answered the same from its own journal. -/
theorem expectedResult_own {maxEntries : Nat} {q : Request} (hnames : PlainNames journal)
    (hq : q.agentId = agt) (hagt : ':'.toUInt8 ∉ agt)
    (hroom : expectedResult maxEntries ttl now (Run.keyJournal ⟨store, 0, journal⟩) q.key ≠
      .capacityExceeded) :
    expectedResult maxEntries ttl now (Run.keyJournal ⟨store, 0, journal⟩) q.key =
      expectedResult maxEntries ttl now (Run.keyJournal ⟨store', 0, ownJournal agt journal⟩) q.key := by
  have hplain : ':'.toUInt8 ∉ q.agentId := by rwa [hq]
  have hguarded : Guarded ttl now (Run.keyJournal ⟨store', 0, ownJournal agt journal⟩) q.key ↔
      Guarded ttl now (Run.keyJournal ⟨store, 0, journal⟩) q.key := by
    rw [guarded_key hnames hplain, guarded_key hnames.own hplain, guarded_own hq]
  have hless := @length_guardedKeys_own store store' journal agt ttl now
  unfold expectedResult at hroom ⊢
  by_cases hreplay : Guarded ttl now (Run.keyJournal ⟨store, 0, journal⟩) q.key
  · rw [if_pos hreplay, if_pos (hguarded.mpr hreplay)]
  · rw [if_neg hreplay] at hroom ⊢
    rw [if_neg (mt hguarded.mp hreplay)]
    split_ifs at hroom ⊢ with hfull hfull'
    · rfl
    · exact absurd rfl hroom
    · omega
    · rfl

end Own

end IdempotencyStore

/-- The second store is what the first would hold without the other agents. -/
structure Isolated (agt : Bytes) (now : Int) (store store' : IdempotencyStore) : Prop where
  maxEntries : store.maxEntries = store'.maxEntries
  ttlSeconds : store.ttlSeconds = store'.ttlSeconds
  journal : ∃ journal, TracksAt now store journal ∧ TracksAt now store' (ownJournal agt journal) ∧
    PlainNames journal

theorem Isolated.refl_new (agt : Bytes) (now : Int) (maxEntries : Nat) (ttlSeconds : Int) :
    Isolated agt now (IdempotencyStore.new maxEntries ttlSeconds)
      (IdempotencyStore.new maxEntries ttlSeconds) :=
  ⟨rfl, rfl, [], Run.tracks_new _ maxEntries ttlSeconds, Run.tracks_new _ maxEntries ttlSeconds,
    List.forall_mem_nil _⟩

section Recorded

variable {agt : Bytes} {now : Int} {store store' : IdempotencyStore} (h : Isolated agt now store store')

include h

theorem Isolated.isReplayed {q : Request} (hq : q.agentId = agt) (hagt : ':'.toUInt8 ∉ agt) :
    store.isReplayed now q.agentId q.reqid = store'.isReplayed now q.agentId q.reqid := by
  obtain ⟨journal, htracks, hown, hnames⟩ := h.journal
  have hplain : ':'.toUInt8 ∉ q.agentId := by rwa [hq]
  rw [Bool.eq_iff_iff, htracks.isReplayed q, hown.isReplayed q, guarded_key hnames hplain,
    guarded_key hnames.own hplain, guarded_own hq, h.ttlSeconds]

theorem Isolated.recordedAt_own {q : Request} (hq : q.agentId = agt) (hagt : ':'.toUInt8 ∉ agt)
    (checksum : Bytes)
    (hroom : (store.recordedAt now q.agentId q.reqid checksum).1 ≠ .capacityExceeded) :
    (store.recordedAt now q.agentId q.reqid checksum).1 =
        (store'.recordedAt now q.agentId q.reqid checksum).1 ∧
      Isolated agt now (store.recordedAt now q.agentId q.reqid checksum).2
        (store'.recordedAt now q.agentId q.reqid checksum).2 := by
  obtain ⟨journal, htracks, hown, hnames⟩ := h.journal
  obtain ⟨hresult, hstore⟩ := htracks.recordedAt q checksum
  obtain ⟨hresult', hstore'⟩ := hown.recordedAt q checksum
  obtain ⟨hmax, httl⟩ := store.recordedAt_settings now q.agentId q.reqid checksum
  obtain ⟨hmax', httl'⟩ := store'.recordedAt_settings now q.agentId q.reqid checksum
  have hsame : (store.recordedAt now q.agentId q.reqid checksum).1 =
      (store'.recordedAt now q.agentId q.reqid checksum).1 := by
    rw [hresult] at hroom ⊢
    rw [hresult', ← h.maxEntries, ← h.ttlSeconds]
    exact expectedResult_own hnames hq hagt hroom
  refine ⟨hsame, by rw [hmax, hmax', h.maxEntries], by rw [httl, httl', h.ttlSeconds], _, hstore, ?_, ?_⟩
  · rw [hsame]
    split_ifs at hstore' ⊢
    · rwa [ownJournal_append, if_pos hq]
    · exact hstore'
  · split_ifs
    · exact List.forall_mem_append.mpr ⟨hnames, List.forall_mem_singleton.mpr (by rwa [hq])⟩
    · exact hnames

theorem Isolated.recordedAt_other {q : Request} (hq : q.agentId ≠ agt)
    (hplain : ':'.toUInt8 ∉ q.agentId) (checksum : Bytes) :
    Isolated agt now (store.recordedAt now q.agentId q.reqid checksum).2 store' := by
  obtain ⟨journal, htracks, hown, hnames⟩ := h.journal
  obtain ⟨-, hstore⟩ := htracks.recordedAt q checksum
  obtain ⟨hmax, httl⟩ := store.recordedAt_settings now q.agentId q.reqid checksum
  refine ⟨hmax.trans h.maxEntries, httl.trans h.ttlSeconds, _, hstore, ?_, ?_⟩
  · split_ifs
    · rwa [ownJournal_append, if_neg hq, List.append_nil]
    · exact hown
  · split_ifs
    · exact List.forall_mem_append.mpr ⟨hnames, List.forall_mem_singleton.mpr hplain⟩
    · exact hnames

end Recorded

namespace TimedCall

/-- Marked is the call of another agent; a call that is not marked is the host's
or the agent's own, and is not told that the store is full. -/
def Apart (agt : Bytes) (store : IdempotencyStore) (event : Bool × TimedCall) : Prop :=
  (event.1 = true → ∃ other, event.2.agent = some other ∧ other ≠ agt ∧ ':'.toUInt8 ∉ other) ∧
    (event.1 = false → ∀ own, event.2.agent = some own →
      own = agt ∧ ':'.toUInt8 ∉ agt ∧ ¬ToldFull store event.2)

section Calls

variable {agt : Bytes} {settings : LLMTOPMiddleware} {ast : AST} {acceptHealed : Bool} {now : Int}
  {store store' : IdempotencyStore} (h : Isolated agt now store store')

include h

theorem isolated_other (hother : ast.header.agt ≠ agt) (hplain : ':'.toUInt8 ∉ ast.header.agt) :
    Isolated agt now ((settings.withStore store).evaluate (fun _ => now) ast acceptHealed).2 store' := by
  obtain ⟨hkept, htaken⟩ := @evaluate_left settings ast acceptHealed now store
  by_cases hconsumes : Consumes (settings.withStore store) now ast acceptHealed
  · rw [(htaken hconsumes).1]
    exact h.recordedAt_other (q := ⟨ast.header.agt, ast.header.reqid⟩) hother hplain ast.header.chk
  · rw [hkept hconsumes]
    exact h

theorem isolated_own (hagt : ast.header.agt = agt) (hplain : ':'.toUInt8 ∉ agt)
    (hroom : ¬ToldFull store (.evaluate settings ast acceptHealed now)) :
    let result := (settings.withStore store).evaluate (fun _ => now) ast acceptHealed
    let result' := (settings.withStore store').evaluate (fun _ => now) ast acceptHealed
    result.1 = result'.1 ∧ Isolated agt now result.2 result'.2 := by
  let q : Request := ⟨ast.header.agt, ast.header.reqid⟩
  refine evaluate_same settings h (h.isReplayed (q := q) hagt hplain) fun hconsumes => ?_
  refine h.recordedAt_own (q := q) hagt hplain ast.header.chk fun hfull => hroom ?_
  obtain ⟨-, htaken⟩ := @evaluate_left settings ast acceptHealed now store
  exact ⟨_, rfl, (htaken hconsumes).2.2 hfull⟩

end Calls

theorem unwinds_isolated (agt : Bytes) : Unwinds serve (Apart agt) now (Isolated agt) where
  later hle h := by
    obtain ⟨journal, htracks, hown, hnames⟩ := h.journal
    exact ⟨h.maxEntries, h.ttlSeconds, journal, htracks.later hle, hown.later hle, hnames⟩
  kept {call store store'} h hallowed := by
    cases call with
    | evaluate settings ast acceptHealed now =>
        obtain ⟨hagt, hplain, hroom⟩ := hallowed.2 rfl _ rfl
        obtain ⟨hplan, hleft⟩ := @isolated_own agt settings ast acceptHealed now store store' h hagt
          hplain hroom
        exact ⟨congrArg some hplan, hleft⟩
    | clear now =>
        exact ⟨rfl, h.maxEntries, h.ttlSeconds, [], Run.tracks_clear ⟨store, 0, []⟩ _,
          Run.tracks_clear ⟨store', 0, []⟩ _, List.forall_mem_nil _⟩
  marked {call store store'} h hallowed := by
    obtain ⟨other, hagent, hother, hplain⟩ := hallowed.1 rfl
    cases call with
    | evaluate settings ast acceptHealed now =>
        obtain rfl := Option.some.inj hagent
        exact isolated_other h hother hplain
    | clear now => contradiction

/-- An agent is answered as if no other agent had called: whatever they send, and
whatever the settings are, as long as it is never told that the store is full. -/
theorem agents_isolated (agt : Bytes) (maxEntries : Nat) (ttlSeconds : Int) (calls : List TimedCall)
    (hordered : (calls.map now).Pairwise (· ≤ ·))
    (hnames : ∀ call ∈ calls, ∀ other, call.agent = some other → ':'.toUInt8 ∉ other)
    (hroom : AllAllowed serve (fun store event => event.2.agent = some agt → ¬ToldFull store event.2)
      (IdempotencyStore.new maxEntries ttlSeconds) (calls.map (markOthers agt))) :
    answers serve (IdempotencyStore.new maxEntries ttlSeconds) (calls.map (markOthers agt)) =
      answers serve (IdempotencyStore.new maxEntries ttlSeconds)
        ((calls.map (markOthers agt)).filter fun event => !event.1) := by
  refine (unwinds_isolated agt).answers_eq_always ?_
    (fun t => Isolated.refl_new agt t maxEntries ttlSeconds) (hroom.imp ?_)
  · rwa [List.map_map]
  · refine List.forall_mem_map.mpr fun call hmem store hfine => ⟨fun hmarked => ?_, fun hmarked own hown => ?_⟩
    · obtain ⟨other, hother, hne⟩ := (Option.any_eq_true ..).mp hmarked
      exact ⟨other, hother, bne_iff_ne.mp hne, hnames call hmem other hother⟩
    · have hown' : call.agent = some own := hown
      have hsame : own = agt := by
        unfold markOthers at hmarked
        simpa [hown'] using hmarked
      rw [hsame] at hown
      exact ⟨hsame, hnames call hmem agt hown, hfine hown⟩

/-- The other agent's request between them is taken, and their store has room for three. -/
theorem agents_isolated_two :
    let store := IdempotencyStore.new 3 10
    let first := requestAt (ascii "a") (ascii "r") 5
    let other := requestAt (ascii "b") (ascii "r") 5
    let replay := requestAt (ascii "a") (ascii "r") 6
    answers serve store [(false, first), (true, other), (false, replay)] =
      answers serve store [(false, first), (false, replay)] := by
  have hnames : ∀ call ∈ [requestAt (ascii "a") (ascii "r") 5, requestAt (ascii "b") (ascii "r") 5,
      requestAt (ascii "a") (ascii "r") 6], ∀ other, call.agent = some other → ':'.toUInt8 ∉ other := by
    simp only [List.forall_mem_cons, requestAt, agent]
    simp +decide
  exact agents_isolated (ascii "a") 3 10 _ (by decide) hnames
    ⟨fun _ => not_toldFull (by decide +kernel), fun _ => not_toldFull (by decide +kernel),
      fun _ => not_toldFull (by decide +kernel), trivial⟩

end TimedCall
end LlmTop
