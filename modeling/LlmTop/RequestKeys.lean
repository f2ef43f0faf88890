import LlmTop.Parser
import LlmTop.ReplayChecks
import LlmTop.StoreBounds

/-!
# Keys of requests

The store looks a request up under `agent_id + ":" + reqid`.  Both parts may
contain colons, so two requests can share a key.
-/
namespace LlmTop
namespace IdempotencyStore

open Lib.TtlSet

/-- The agent id of `q'` reads on over the colon into the request id of `q`, and
the key of both is the same. -/
def Request.ReadsOn (q q' : Request) : Prop :=
  ∃ middle, q'.agentId = q.agentId ++ ascii ":" ++ middle ∧
    q.reqid = middle ++ ascii ":" ++ q'.reqid

def Request.Collides (q q' : Request) : Prop := q.ReadsOn q' ∨ q'.ReadsOn q

theorem Request.ReadsOn.key_eq {q q' : Request} (h : q.ReadsOn q') : q.key = q'.key := by
  obtain ⟨middle, hagent, hreqid⟩ := h
  simp [key, requestKey, hagent, hreqid]

theorem Request.ReadsOn.ne {q q' : Request} (h : q.ReadsOn q') : q ≠ q' := by
  rintro rfl
  obtain ⟨middle, hagent, -⟩ := h
  have hlength := congrArg List.length hagent
  simp [ascii] at hlength

/-- One key ends its agent part where the other does, or in the other's request id. -/
theorem Request.readsOn_of_append {q q' : Request} {middle : Bytes}
    (hagent : q'.agentId ++ ascii ":" = q.agentId ++ ascii ":" ++ middle)
    (hreqid : q.reqid = middle ++ q'.reqid) : q = q' ∨ q.ReadsOn q' := by
  rcases List.eq_nil_or_concat middle with rfl | ⟨front, c, rfl⟩
  · rw [List.append_nil] at hagent
    obtain ⟨agentId, reqid⟩ := q
    obtain ⟨agentId', reqid'⟩ := q'
    obtain rfl : agentId' = agentId := List.append_cancel_right hagent
    obtain rfl : reqid = reqid' := hreqid
    exact Or.inl rfl
  · have hend : q'.agentId ++ ascii ":" = (q.agentId ++ ascii ":" ++ front) ++ [c] := by
      simpa using hagent
    obtain ⟨hfront, hcolon⟩ := List.append_inj' hend rfl
    exact Or.inr ⟨front, hfront, by rw [hreqid, hcolon, List.concat_eq_append]⟩

theorem Request.key_eq_iff {q q' : Request} : q.key = q'.key ↔ q = q' ∨ q.Collides q' := by
  constructor
  · intro hkey
    rcases List.append_eq_append_iff.mp hkey with ⟨middle, hagent, hreqid⟩ | ⟨middle, hagent, hreqid⟩
    · exact (readsOn_of_append hagent hreqid).imp_right Or.inl
    · exact (readsOn_of_append hagent hreqid).imp Eq.symm Or.inr
  · rintro (rfl | h | h)
    · rfl
    · exact h.key_eq
    · exact h.key_eq.symm

/-- An agent id without a colon never reads on. -/
theorem Request.not_collides {q q' : Request} (h : ':'.toUInt8 ∉ q.agentId)
    (h' : ':'.toUInt8 ∉ q'.agentId) : ¬q.Collides q' := by
  rintro (⟨middle, hagent, -⟩ | ⟨middle, hagent, -⟩)
  · exact h' (by rw [hagent]; simp [show ':'.toUInt8 ∈ ascii ":" by decide])
  · exact h (by rw [hagent]; simp [show ':'.toUInt8 ∈ ascii ":" by decide])

/-- The request is a replay only when it was itself recorded within the time to
live. -/
def ReplaysOwn (clock : Clock) (r : Run) (q : Request) : Prop :=
  (∀ checksum, (r.store.recordRequest clock r.tick q.agentId q.reqid checksum).1 = .replay →
    Guarded r.store.ttlSeconds (r.look clock) r.journal q) ∧
  (r.store.isReplayed (clock r.tick) q.agentId q.reqid = true →
    Guarded r.store.ttlSeconds (clock r.tick) r.journal q)

namespace Run

variable {clock : Clock} {r : Run}

theorem guarded_keyJournal {ttl now : Int} {key : Bytes} :
    Guarded ttl now r.keyJournal key ↔ ∃ q, q.key = key ∧ Guarded ttl now r.journal q := by
  constructor
  · rintro ⟨stamp, hmem, rfl, hlive⟩
    obtain ⟨recorded, hrecorded, rfl⟩ := List.mem_map.mp hmem
    exact ⟨recorded.1, rfl, recorded, hrecorded, rfl, hlive⟩
  · rintro ⟨q, rfl, recorded, hmem, rfl, hlive⟩
    exact ⟨_, List.mem_map_of_mem hmem, rfl, hlive⟩

/-- Only what a call records gets into the journal. -/
theorem mem_journal_call {c : Call} {stamp : Request × Int}
    (hmem : stamp ∈ (r.call clock c).journal) :
    stamp ∈ r.journal ∨ ∃ checksum, c = .recordRequest stamp.1 checksum := by
  cases c with
  | recordRequest q checksum =>
      rw [show r.call clock (.recordRequest q checksum) = (r.record clock q checksum).2 from rfl,
        record_eq] at hmem
      dsimp only at hmem
      split_ifs at hmem
      · exact Or.inl hmem
      · exact Or.inl hmem
      · rcases List.mem_append.mp hmem with hmem | hmem
        · exact Or.inl hmem
        · rw [List.mem_singleton.mp hmem]
          exact Or.inr ⟨checksum, rfl⟩
  | isReplayed q =>
      rw [show r.call clock (.isReplayed q) = (r.query clock q).2 from rfl, Run.query] at hmem
      dsimp only at hmem
      split_ifs at hmem <;> exact Or.inl hmem
  | clear => exact absurd hmem List.not_mem_nil

theorem mem_journal_after {calls : List Call} {stamp : Request × Int}
    (hmem : stamp ∈ (r.after clock calls).journal) :
    stamp ∈ r.journal ∨ ∃ checksum, .recordRequest stamp.1 checksum ∈ calls := by
  induction calls generalizing r with
  | nil => exact Or.inl hmem
  | cons c calls ih =>
      rcases ih hmem with hcall | ⟨checksum, hcalls⟩
      · rcases mem_journal_call hcall with h | ⟨checksum, rfl⟩
        · exact Or.inl h
        · exact Or.inr ⟨checksum, List.mem_cons_self⟩
      · exact Or.inr ⟨checksum, List.mem_cons_of_mem c hcalls⟩

/-- What the history holds was recorded. -/
def Journaled (r : Run) : Prop := ∀ item ∈ r.store.history, item.stamp ∈ r.keyJournal

theorem Journaled.prune (h : r.Journaled) (hstep : InStep r.store.seenRequests r.store.history)
    (clock : Clock) : (r.prune clock).Journaled :=
  fun item hmem => h item ((leaves_prune hstep clock).2.subset hmem)

theorem Journaled.call (h : r.Journaled) (hstep : InStep r.store.seenRequests r.store.history)
    (clock : Clock) (c : Call) : (r.call clock c).Journaled := by
  cases c with
  | recordRequest q checksum =>
      have hpruned := h.prune hstep clock
      rw [Run.call]
      rcases r.record_admits clock q checksum with ⟨hrun, -⟩ | ⟨hrun, -⟩
      · rw [hrun]
        intro item hmem
        unfold keyJournal Run.push
        rw [List.map_append]
        rcases List.mem_append.mp hmem with hmem | hmem
        · exact List.mem_append_left _ (hpruned item hmem)
        · rw [List.mem_singleton.mp hmem]
          exact List.mem_append_right _ (List.mem_singleton_self _)
      · rwa [hrun]
  | isReplayed q =>
      simp only [Run.call, Run.query]
      split_ifs
      · exact h
      · exact h
  | clear => exact fun item hmem => absurd hmem List.not_mem_nil

theorem Journaled.after (h : r.Journaled) (hstep : InStep r.store.seenRequests r.store.history)
    (clock : Clock) (calls : List Call) : (r.after clock calls).Journaled := by
  induction calls generalizing r with
  | nil => exact h
  | cons c calls ih => exact ih (h.call hstep clock c) (inStep_call hstep clock c)

/-- A refusal as a replay rests on an item of the history that is live at the last
look, when the history is in order. -/
theorem item_of_replay (hstep : InStep r.store.seenRequests r.store.history)
    (horder : Chronological (r.store.history.map HistoryItem.stamp)) {q : Request} {checksum : Bytes}
    (h : (r.store.recordRequest clock r.tick q.agentId q.reqid checksum).1 = .replay) :
    ∃ item ∈ r.store.history, item.key = q.key ∧
      Live r.store.ttlSeconds (r.look clock) item.stamp := by
  rw [recordRequest_eq_replay] at h
  obtain ⟨entry, hlookup⟩ := Option.isSome_iff_exists.mp h
  have hleaves := pruneLoop_leaves r.store.ttlSeconds clock r.tick hstep
  have hlive := pruned_live hstep horder clock r.tick hlookup
  exact ⟨⟨q.key, entry.recordedAt⟩, hleaves.suffix.subset (hleaves.inStep.lookup_eq hlookup), rfl,
    live_iff.mpr hlive⟩

theorem item_of_replayed (hstep : InStep r.store.seenRequests r.store.history) {now : Int}
    {q : Request} (h : r.store.isReplayed now q.agentId q.reqid = true) :
    ∃ item ∈ r.store.history, item.key = q.key ∧ Live r.store.ttlSeconds now item.stamp := by
  obtain ⟨entry, hlookup, hfresh⟩ := Run.isReplayed_eq_true.mp h
  exact ⟨⟨q.key, entry.recordedAt⟩, hstep.lookup_eq hlookup, rfl, live_iff.mpr hfresh⟩

end Run

/-- The calls that record these requests, one after the other. -/
def recordAll (requests : List (Request × Bytes)) : List Call :=
  requests.map fun request => .recordRequest request.1 request.2

/-- No recording writes down a time below one that the store still holds. -/
def StampsInOrder (maxEntries : Nat) (ttlSeconds : Int) (clock : Clock) (calls : List Call) : Prop :=
  ∀ past c, past ++ [c] <+: calls → (runOf maxEntries ttlSeconds clock past).StampsForward clock c

section InOrder

variable {maxEntries : Nat} {ttlSeconds : Int} {clock : Clock} {calls : List Call}

theorem stampsInOrder_iff : StampsInOrder maxEntries ttlSeconds clock calls ↔
    ∀ past, past <+: calls →
      Chronological ((runOf maxEntries ttlSeconds clock past).store.history.map HistoryItem.stamp) :=
  have hempty : Chronological (([] : List HistoryItem).map HistoryItem.stamp) := List.Pairwise.nil
  (Run.chronological_prefixes_iff InStep.empty hempty clock calls).symm

/-- A clock that does not run back stamps in order. -/
theorem stampsInOrder_of_steady (hclock : clock.Steady) :
    StampsInOrder maxEntries ttlSeconds clock calls := by
  refine stampsInOrder_iff.mpr fun past _ => ?_
  have h := tracks_runOf maxEntries ttlSeconds hclock past
  obtain ⟨expired, hjournal, -⟩ := h.journal
  have horder := h.chronological
  rw [hjournal] at horder
  exact (List.pairwise_append.mp horder).2.1

theorem journaled_runOf : (runOf maxEntries ttlSeconds clock calls).Journaled :=
  Run.Journaled.after (fun _ hmem => absurd hmem List.not_mem_nil) InStep.empty clock calls

end InOrder

/-- The request is told apart from all that the history holds. -/
theorem replaysOwn_of_history {clock : Clock} {r : Run}
    (hstep : InStep r.store.seenRequests r.store.history)
    (horder : Chronological (r.store.history.map HistoryItem.stamp)) {q : Request}
    (hown : ∀ item ∈ r.store.history, item.key = q.key → (q, item.recordedAt) ∈ r.journal) :
    ReplaysOwn clock r q := by
  refine ⟨fun checksum hreplay => ?_, fun hreplayed => ?_⟩
  · obtain ⟨item, hmem, hkey, hlive⟩ := Run.item_of_replay hstep horder hreplay
    exact ⟨_, hown item hmem hkey, rfl, hlive⟩
  · obtain ⟨item, hmem, hkey, hlive⟩ := Run.item_of_replayed hstep hreplayed
    exact ⟨_, hown item hmem hkey, rfl, hlive⟩

/-- What is recorded under the key of a request that collides with none in the run
is that request. -/
theorem mem_journal_of_not_collides {maxEntries : Nat} {ttlSeconds : Int} {clock : Clock}
    {requests : List (Request × Bytes)} {q : Request}
    (hfree : ∀ request ∈ requests, ¬request.1.Collides q) {item : HistoryItem}
    (hmem : item ∈ (runOf maxEntries ttlSeconds clock (recordAll requests)).store.history)
    (hkey : item.key = q.key) :
    (q, item.recordedAt) ∈ (runOf maxEntries ttlSeconds clock (recordAll requests)).journal := by
  obtain ⟨⟨q', time⟩, hstamp, heq⟩ := List.mem_map.mp (journaled_runOf item hmem)
  obtain ⟨hkey', rfl⟩ : q'.key = item.key ∧ time = item.recordedAt := Prod.mk.inj heq
  rcases Request.key_eq_iff.mp (hkey'.trans hkey) with rfl | hcollides
  · exact hstamp
  · rcases Run.mem_journal_after hstamp with hnil | ⟨checksum, hcall⟩
    · exact absurd hnil List.not_mem_nil
    · obtain ⟨request, hrequest, hcall⟩ := List.mem_map.mp hcall
      rw [Call.recordRequest.injEq] at hcall
      exact absurd (hcall.1 ▸ hcollides) (hfree request hrequest)

theorem runOf_recordAll_singleton {maxEntries : Nat} (hroom : 0 < maxEntries) (ttlSeconds : Int)
    (clock : Clock) (q : Request) (checksum : Bytes) :
    runOf maxEntries ttlSeconds clock (recordAll [(q, checksum)]) =
      Run.push ⟨new maxEntries ttlSeconds, 0, []⟩ clock q checksum := by
  change (Run.record _ clock q checksum).2 = _
  rw [Run.record_eq]
  have hfull : ¬maxEntries ≤ 0 := Nat.not_le.mpr hroom
  simp [Run.prune, pruneLoop, new, hfull]

/-- The clock at which one recording is looked up while it is live. -/
def recordedAtZero (ttlSeconds : Int) : Clock := fun tick => if tick = 0 then 0 else ttlSeconds - 1

theorem stampsInOrder_single {maxEntries : Nat} (hroom : 0 < maxEntries) (ttlSeconds : Int)
    (clock : Clock) (q : Request) (checksum : Bytes) :
    StampsInOrder maxEntries ttlSeconds clock (recordAll [(q, checksum)]) := by
  refine stampsInOrder_iff.mpr fun past hprefix => ?_
  cases past with
  | nil => exact List.Pairwise.nil
  | cons c past =>
      obtain ⟨rfl, hrest⟩ := List.cons_prefix_cons.mp hprefix
      rw [List.prefix_nil.mp hrest]
      have hrun := runOf_recordAll_singleton hroom ttlSeconds clock q checksum
      rw [recordAll, List.map_singleton] at hrun
      rw [hrun]
      exact List.pairwise_singleton _ _

/-- The next request with the key of the one recorded is a replay. -/
theorem replay_of_key_eq (maxEntries : Nat) (ttlSeconds : Int) {q q' : Request}
    (hkey : q'.key = q.key) :
    let clock := recordedAtZero ttlSeconds
    let r := Run.push ⟨new maxEntries ttlSeconds, 0, []⟩ clock q []
    (r.store.recordRequest clock 1 q'.agentId q'.reqid []).1 = .replay := by
  intro clock r
  have hfresh : isExpired ttlSeconds (clock 1) (clock 0) = false := by
    have hfirst : clock 0 = 0 := rfl
    have hnext : clock 1 = ttlSeconds - 1 := rfl
    rw [isExpired, decide_eq_false_iff_not, hfirst, hnext]
    omega
  have hpruned : r.store.liveRequests clock 1 =
      (∅ : AList fun _ : Bytes => Entry).insert q.key ⟨[], clock 0⟩ := by
    simp only [r, liveRequests, Run.push, new, List.nil_append, pruneLoop, hfresh,
      Bool.false_eq_true, if_false]
  have hrequest : requestKey q'.agentId q'.reqid = q.key := hkey
  rw [recordRequest_eq_replay, hrequest, hpruned, AList.lookup_insert]
  rfl

theorem Request.Collides.ne {q q' : Request} (h : q.Collides q') : q ≠ q' :=
  h.elim ReadsOn.ne fun h => h.ne.symm

/-- Whatever collides with the one request recorded is a replay of it. -/
theorem not_replaysOwn_of_collides {maxEntries : Nat} (hroom : 0 < maxEntries) (ttlSeconds : Int)
    {q q' : Request} (hcollides : q.Collides q') :
    let clock := recordedAtZero ttlSeconds
    ¬ReplaysOwn clock (runOf maxEntries ttlSeconds clock (recordAll [(q, [])])) q' := by
  intro clock
  rw [runOf_recordAll_singleton hroom]
  intro hown
  have hkey : q'.key = q.key := (Request.key_eq_iff.mpr (Or.inr hcollides)).symm
  obtain ⟨stamp, hmem, hother, -⟩ := hown.1 [] (replay_of_key_eq maxEntries ttlSeconds hkey)
  obtain rfl : stamp = (q, clock 0) := List.mem_singleton.mp hmem
  exact hcollides.ne hother

/-- Replay protection tells all requests in play apart when no two of them
collide, and otherwise only in a store without room. -/
theorem replays_own_iff (maxEntries : Nat) (ttlSeconds : Int) (InPlay : Request → Prop) :
    (∀ (clock : Clock) (requests : List (Request × Bytes)),
      StampsInOrder maxEntries ttlSeconds clock (recordAll requests) →
      (∀ request ∈ requests, InPlay request.1) → ∀ q, InPlay q →
      ReplaysOwn clock (runOf maxEntries ttlSeconds clock (recordAll requests)) q) ↔
    maxEntries = 0 ∨ ∀ q q', InPlay q → InPlay q' → ¬q.Collides q' := by
  constructor
  · intro hown
    by_contra hcondition
    obtain ⟨hroom, q, q', hq, hq', hcollides⟩ : maxEntries ≠ 0 ∧
        ∃ q q', InPlay q ∧ InPlay q' ∧ q.Collides q' := by simpa using hcondition
    replace hroom := Nat.pos_of_ne_zero hroom
    have horder := stampsInOrder_single hroom ttlSeconds (recordedAtZero ttlSeconds) q []
    exact not_replaysOwn_of_collides hroom ttlSeconds hcollides
      (hown _ [(q, [])] horder (by simpa using hq) q' hq')
  · rintro hcondition clock requests horder hrequests q hq
    have hbounded := Run.bounded_runOf maxEntries ttlSeconds clock (recordAll requests)
    refine replaysOwn_of_history hbounded.inStep
      (stampsInOrder_iff.mp horder _ List.prefix_rfl) fun item hmem hkey => ?_
    rcases hcondition with hroom | hfree
    · have hsize := hbounded.size
      rw [(settings_runOf maxEntries ttlSeconds clock _).1] at hsize
      have hfilled := List.length_pos_of_mem hmem
      omega
    · exact mem_journal_of_not_collides (fun request hmem =>
        hfree request.1 q (hrequests request hmem) hq) hmem hkey

/-- Agent `a:b` with request `c` uses up request `b:c` of agent `a`; both come out
of the header parser. -/
theorem replays_another_request :
    (parseHeader (ascii "VER:1 CHK:x AGT:a:b REQID:c") .strict []).toOption.map
      (fun parsed => (parsed.1.agt, parsed.1.reqid)) = some (ascii "a:b", ascii "c") ∧
    (parseHeader (ascii "VER:1 CHK:x AGT:a REQID:b:c") .strict []).toOption.map
      (fun parsed => (parsed.1.agt, parsed.1.reqid)) = some (ascii "a", ascii "b:c") ∧
    let clock : Clock := fun _ => 0
    let r := runOf 1000 3600 clock (recordAll [(⟨ascii "a:b", ascii "c"⟩, [])])
    (r.store.recordRequest clock r.tick (ascii "a") (ascii "b:c") []).1 = .replay ∧
      r.store.isReplayed 0 (ascii "a") (ascii "b:c") = true ∧
      ¬Guarded 3600 0 r.journal ⟨ascii "a", ascii "b:c"⟩ := by
  decide +kernel

end IdempotencyStore
end LlmTop
