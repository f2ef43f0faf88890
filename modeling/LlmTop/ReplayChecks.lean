import LlmTop.StoreRuns
import Mathlib.Data.List.Induction

/-!
# The two replay checks under any clock

`record_request` prunes and then looks for the key; `is_replayed` tests the
entry itself.  They answer alike as long as the history is in order, and the
wall clock decides whether it is.
-/
namespace LlmTop.IdempotencyStore

open Lib.TtlSet

/-- The last reading `prune_expired` takes. -/
def lastLook (store : IdempotencyStore) (clock : Clock) (tick : Nat) : Int :=
  clock ((pruneLoop store.ttlSeconds clock tick store.seenRequests store.history).1 - 1)

/-- At any one reading of the clock the two checks answer alike, and a pruning
leaves nothing that has expired at its last reading. -/
structure ReplayChecksAgree (store : IdempotencyStore) : Prop where
  answers : ∀ (now : Int) (agentId reqid checksum : Bytes),
    store.isReplayed now agentId reqid = true ↔
      (store.recordRequest (fun _ => now) 0 agentId reqid checksum).1 = .replay
  pruned : ∀ (clock : Clock) (tick : Nat) (key : Bytes) (entry : Entry),
    (store.liveRequests clock tick).lookup key = some entry →
      isExpired store.ttlSeconds (store.lastLook clock tick) entry.recordedAt = false

/-! ## Pruning with any clock -/

/-- The map and the history stay in step, a front part goes, and the item at
which the loop stops is live at its last reading. -/
structure Leaves (ttl : Int) (clock : Clock) (history : List HistoryItem)
    (pruned : Nat × (AList fun _ : Bytes => Entry) × List HistoryItem) : Prop where
  inStep : InStep pruned.2.1 pruned.2.2
  suffix : pruned.2.2 <:+ history
  front : ∀ item rest, pruned.2.2 = item :: rest → Live ttl (clock (pruned.1 - 1)) item.stamp

theorem pruneLoop_leaves (ttl : Int) (clock : Clock) (tick : Nat)
    {seen : AList fun _ : Bytes => Entry} {history : List HistoryItem} (h : InStep seen history) :
    Leaves ttl clock history (pruneLoop ttl clock tick seen history) := by
  induction history generalizing tick seen with
  | nil => exact ⟨h, List.suffix_rfl, by simp [pruneLoop]⟩
  | cons item rest ih =>
      unfold pruneLoop
      split
      · simp only [h.front_current, if_true]
        have hleaves := ih (tick + 1) h.pop
        exact ⟨hleaves.inStep, hleaves.suffix.trans (List.suffix_cons item rest), hleaves.front⟩
      · rename_i hfresh
        refine ⟨h, List.suffix_rfl, ?_⟩
        intro other rest' hcons
        rw [← (List.cons.inj hcons).1]
        apply live_iff.mpr
        simpa using hfresh

/-- At one reading the loop drops the expired front of the history. -/
theorem pruneLoop_constant (ttl now : Int) (tick : Nat) (seen : AList fun _ : Bytes => Entry)
    (history : List HistoryItem) :
    (pruneLoop ttl (fun _ => now) tick seen history).2.2.map HistoryItem.stamp =
      (history.map HistoryItem.stamp).dropWhile fun stamp => !decide (Live ttl now stamp) := by
  induction history generalizing tick seen with
  | nil => rfl
  | cons item rest ih =>
      unfold pruneLoop
      rw [List.map_cons]
      split
      · rename_i hexpired
        have hdead : ¬Live ttl now item.stamp := by
          rw [live_iff, hexpired]
          decide
        rw [List.dropWhile_cons_of_pos (by simpa using hdead)]
        apply ih
      · rename_i hfresh
        have hlive : Live ttl now item.stamp := live_iff.mpr (by simpa using hfresh)
        rw [List.dropWhile_cons_of_neg (by simpa using hlive)]
        rfl

variable {store : IdempotencyStore}

theorem steady_constant (now : Int) : Clock.Steady fun _ => now := fun _ _ _ => le_rfl

/-- A live entry is one that a pruning at the same reading leaves. -/
theorem isReplayed_iff_live (h : InStep store.seenRequests store.history)
    (horder : Chronological (store.history.map HistoryItem.stamp)) (now : Int)
    (agentId reqid : Bytes) :
    store.isReplayed now agentId reqid = true ↔
      ((store.liveRequests (fun _ => now) 0).lookup (requestKey agentId reqid)).isSome = true := by
  have hprunes := @pruneLoop_prunes store.ttlSeconds _ (steady_constant now) 0 _ _ h horder
  rw [Run.isReplayed_eq_true, liveRequests, hprunes.inStep.isSome_lookup, List.mem_map]
  constructor
  · rintro ⟨entry, hlookup, hfresh⟩
    have hitem := h.lookup_eq hlookup
    obtain ⟨gone, hgone, hdead⟩ := hprunes.dropped
    rw [hgone] at hitem
    rcases List.mem_append.mp hitem with hmem | hmem
    · exact absurd (live_iff.mpr hfresh) (hdead _ hmem)
    · exact ⟨_, hmem, rfl⟩
  · rintro ⟨item, hmem, hkey⟩
    obtain ⟨entry, hlookup, hrecorded⟩ := Option.map_eq_some_iff.mp (hprunes.inStep.stamps item hmem)
    rw [hkey] at hlookup
    refine ⟨entry, hprunes.lookups _ _ hlookup, ?_⟩
    rw [hrecorded]
    exact live_iff.mp (hprunes.kept item hmem)

theorem pruned_live (h : InStep store.seenRequests store.history)
    (horder : Chronological (store.history.map HistoryItem.stamp)) (clock : Clock) (tick : Nat)
    {key : Bytes} {entry : Entry} (hlookup : (store.liveRequests clock tick).lookup key = some entry) :
    isExpired store.ttlSeconds (store.lastLook clock tick) entry.recordedAt = false := by
  have hleaves := pruneLoop_leaves store.ttlSeconds clock tick h
  have hitem := hleaves.inStep.lookup_eq hlookup
  have horder' := List.Pairwise.sublist (hleaves.suffix.map HistoryItem.stamp).sublist horder
  cases hleft : (pruneLoop store.ttlSeconds clock tick store.seenRequests store.history).2.2 with
  | nil =>
      rw [hleft] at hitem
      exact absurd hitem List.not_mem_nil
  | cons front rest =>
      have hfront := hleaves.front front rest hleft
      rw [hleft] at hitem horder'
      exact live_iff.mp (Chronological.live horder' hfront _ (List.mem_map_of_mem hitem))

/-- Agreement is the order the comment at `prune_expired` takes for granted. -/
theorem replayChecksAgree_iff (h : InStep store.seenRequests store.history) :
    store.ReplayChecksAgree ↔ Chronological (store.history.map HistoryItem.stamp) := by
  constructor
  · intro hagree
    apply (chronological_iff_dropWhile store.ttlSeconds _).mpr
    intro now stamp hmem
    rw [← pruneLoop_constant store.ttlSeconds now 0 store.seenRequests] at hmem
    obtain ⟨item, hitem, rfl⟩ := List.mem_map.mp hmem
    have hleaves := pruneLoop_leaves store.ttlSeconds (fun _ => now) 0 h
    obtain ⟨entry, hlookup, hrecorded⟩ := Option.map_eq_some_iff.mp (hleaves.inStep.stamps item hitem)
    have hfresh := hagree.pruned (fun _ => now) 0 item.key entry hlookup
    rw [hrecorded] at hfresh
    exact live_iff.mpr hfresh
  · intro horder
    constructor
    · intro now agentId reqid checksum
      rw [recordRequest_eq_replay]
      exact isReplayed_iff_live h horder now agentId reqid
    · intro clock tick key entry hlookup
      exact pruned_live h horder clock tick hlookup

/-! ## Runs with any clock -/

namespace Run

variable {r : Run}

/-- What a call writes down is not earlier than what the store still holds. -/
def StampsForward (clock : Clock) (r : Run) : Call → Prop
  | .recordRequest q _ => r.store.Admits clock r.tick q.agentId q.reqid →
      ∀ item ∈ (r.prune clock).store.history, item.recordedAt ≤ clock (r.prune clock).tick
  | .isReplayed _ => True
  | .clear => True

theorem leaves_prune (h : InStep r.store.seenRequests r.store.history) (clock : Clock) :
    InStep (r.prune clock).store.seenRequests (r.prune clock).store.history ∧
      (r.prune clock).store.history <:+ r.store.history :=
  have hleaves := pruneLoop_leaves r.store.ttlSeconds clock r.tick h
  ⟨hleaves.inStep, hleaves.suffix⟩

/-- A record appends an admitted request to what the pruning leaves; any other
request leaves just that. -/
theorem record_admits (clock : Clock) (q : Request) (checksum : Bytes) :
    (r.record clock q checksum).2 = (r.prune clock).push clock q checksum ∧
        r.store.Admits clock r.tick q.agentId q.reqid ∨
      (r.record clock q checksum).2 = r.prune clock ∧
        ¬r.store.Admits clock r.tick q.agentId q.reqid := by
  rw [← recordRequest_eq_recorded r.store clock r.tick q.agentId q.reqid checksum, ← record_result,
    record_eq]
  dsimp only
  split_ifs
  · exact Or.inr ⟨rfl, by simp⟩
  · exact Or.inr ⟨rfl, by simp⟩
  · exact Or.inl ⟨rfl, rfl⟩

theorem inStep_call (h : InStep r.store.seenRequests r.store.history) (clock : Clock) (c : Call) :
    InStep (r.call clock c).store.seenRequests (r.call clock c).store.history := by
  cases c with
  | recordRequest q checksum =>
      have hpruned := (leaves_prune h clock).1
      rw [call]
      rcases r.record_admits clock q checksum with ⟨hrun, hadmits⟩ | ⟨hrun, -⟩
      · rw [hrun]
        exact hpruned.push _ hadmits.1
      · rwa [hrun]
  | isReplayed q =>
      simp only [call, query]
      split_ifs
      · exact h
      · exact h
  | clear => exact InStep.empty

theorem inStep_after (h : InStep r.store.seenRequests r.store.history) (clock : Clock)
    (calls : List Call) :
    InStep (r.after clock calls).store.seenRequests (r.after clock calls).store.history := by
  induction calls generalizing r with
  | nil => exact h
  | cons c calls ih => exact ih (inStep_call h clock c)

/-- From an ordered history a call keeps the order when it stamps forward. -/
theorem chronological_call_iff (h : InStep r.store.seenRequests r.store.history)
    (horder : Chronological (r.store.history.map HistoryItem.stamp)) (clock : Clock) (c : Call) :
    Chronological ((r.call clock c).store.history.map HistoryItem.stamp) ↔
      r.StampsForward clock c := by
  cases c with
  | recordRequest q checksum =>
      have hpruned : Chronological ((r.prune clock).store.history.map HistoryItem.stamp) :=
        List.Pairwise.sublist ((leaves_prune h clock).2.map HistoryItem.stamp).sublist horder
      rw [call, StampsForward]
      rcases r.record_admits clock q checksum with ⟨hrun, hadmits⟩ | ⟨hrun, hrefused⟩
      · have hhistory : ((r.prune clock).push clock q checksum).store.history.map
            HistoryItem.stamp = (r.prune clock).store.history.map HistoryItem.stamp ++
              [(q.key, clock (r.prune clock).tick)] := List.map_append
        rw [hrun, hhistory, chronological_concat_iff]
        simp only [hpruned, true_and, hadmits, true_implies, List.forall_mem_map]
        rfl
      · rw [hrun]
        exact iff_of_true hpruned fun hadmits => absurd hadmits hrefused
  | isReplayed q =>
      simp only [call, query, StampsForward, iff_true]
      split_ifs
      · exact horder
      · exact horder
  | clear => exact iff_of_true List.Pairwise.nil trivial

theorem after_concat (clock : Clock) (past : List Call) (c : Call) :
    r.after clock (past ++ [c]) = (r.after clock past).call clock c := by
  rw [after, List.foldl_append]
  rfl

/-- In a run the order lasts exactly as long as every call stamps forward. -/
theorem chronological_prefixes_iff (h : InStep r.store.seenRequests r.store.history)
    (horder : Chronological (r.store.history.map HistoryItem.stamp)) (clock : Clock)
    (calls : List Call) :
    (∀ past, past <+: calls →
        Chronological ((r.after clock past).store.history.map HistoryItem.stamp)) ↔
      ∀ past c, past ++ [c] <+: calls → (r.after clock past).StampsForward clock c := by
  constructor
  · intro hall past c hprefix
    have hbefore := hall past ((List.prefix_append past [c]).trans hprefix)
    have hafter := hall (past ++ [c]) hprefix
    rw [after_concat] at hafter
    exact (chronological_call_iff (inStep_after h clock past) hbefore clock c).mp hafter
  · intro hforward past
    induction past using List.reverseRecOn with
    | nil => exact fun _ => horder
    | append_singleton past c ih =>
        intro hprefix
        have hbefore := ih ((List.prefix_append past [c]).trans hprefix)
        rw [after_concat]
        apply (chronological_call_iff (inStep_after h clock past) hbefore clock c).mpr
        exact hforward past c hprefix

end Run

/-- The comment at `prune_expired` as a condition on the readings: the checks
agree throughout a run when no recording writes a time below one still held. -/
theorem replay_checks_agree_iff (maxEntries : Nat) (ttlSeconds : Int) (clock : Clock)
    (calls : List Call) :
    (∀ past, past <+: calls →
        (runOf maxEntries ttlSeconds clock past).store.ReplayChecksAgree) ↔
      ∀ past c, past ++ [c] <+: calls →
        (runOf maxEntries ttlSeconds clock past).StampsForward clock c := by
  have hagree : ∀ past, (runOf maxEntries ttlSeconds clock past).store.ReplayChecksAgree ↔
      Chronological ((runOf maxEntries ttlSeconds clock past).store.history.map
        HistoryItem.stamp) := by
    intro past
    exact replayChecksAgree_iff (Run.inStep_after InStep.empty clock past)
  simp only [hagree]
  have hempty : Chronological (([] : List HistoryItem).map HistoryItem.stamp) := List.Pairwise.nil
  exact Run.chronological_prefixes_iff InStep.empty hempty clock calls

/-- The clock steps back by one second between two recordings. -/
def steppedBack : Clock := fun tick => if tick = 0 then 1000000001 else 1000000000

/-- An hour after the second recording `is_replayed` lets its request pass and
`record_request` still refuses it. -/
theorem replay_checks_disagree_after_step_back :
    ¬∀ (maxEntries : Nat) (ttlSeconds : Int) (clock : Clock) (calls : List Call),
      (runOf maxEntries ttlSeconds clock calls).store.ReplayChecksAgree := by
  intro hall
  have hanswers := (hall 1000 3600 steppedBack
    [.recordRequest ⟨ascii "a", ascii "r1"⟩ [], .recordRequest ⟨ascii "a", ascii "r2"⟩ []]).answers
    1000003600 (ascii "a") (ascii "r2") []
  revert hanswers
  decide +kernel

end LlmTop.IdempotencyStore
