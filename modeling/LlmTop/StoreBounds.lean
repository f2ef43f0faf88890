import LlmTop.StoreRuns

/-!
# The store under any clock

What a run of the store keeps when the wall clock may be set back: its size, its
two halves in step, and every guard until a reading calls it expired.
-/
namespace LlmTop.IdempotencyStore

variable {ttl : Int} {clock : Clock}

/-- `prune_expired` without a word about the clock. -/
structure PrunesAny (ttl : Int) (clock : Clock) (tick : Nat) (seen : AList fun _ : Bytes => Entry)
    (history : List HistoryItem)
    (pruned : Nat × (AList fun _ : Bytes => Entry) × List HistoryItem) : Prop where
  later : tick ≤ pruned.1
  inStep : InStep pruned.2.1 pruned.2.2
  suffix : pruned.2.2 <:+ history
  kept : ∀ key entry, seen.lookup key = some entry → pruned.2.1.lookup key = some entry ∨
    ∃ k, tick ≤ k ∧ k < pruned.1 ∧ isExpired ttl (clock k) entry.recordedAt = true

theorem pruneLoop_any {tick : Nat} {seen : AList fun _ : Bytes => Entry}
    {history : List HistoryItem} (h : InStep seen history) :
    PrunesAny ttl clock tick seen history (pruneLoop ttl clock tick seen history) := by
  induction history generalizing tick seen with
  | nil => exact ⟨le_rfl, h, List.suffix_rfl, fun _ _ hlookup => Or.inl hlookup⟩
  | cons item rest ih =>
      unfold pruneLoop
      split
      · rename_i hexpired
        simp only [h.front_current, if_true]
        have hpruned := @ih (tick + 1) _ h.pop
        generalize pruneLoop ttl clock (tick + 1) (seen.erase item.key) rest = pruned at hpruned ⊢
        have hlater := hpruned.later
        refine ⟨by omega, hpruned.inStep, hpruned.suffix.trans (List.suffix_cons _ _), ?_⟩
        intro key entry hlookup
        by_cases hkey : key = item.key
        · have hstamp := h.stamps item List.mem_cons_self
          rw [← hkey, hlookup, Option.map_some, Option.some.injEq] at hstamp
          exact Or.inr ⟨tick, le_rfl, by omega, hstamp ▸ hexpired⟩
        · have herased : (seen.erase item.key).lookup key = some entry := by
            rw [AList.lookup_erase_ne hkey, hlookup]
          rcases hpruned.kept key entry herased with hkept | ⟨k, hk, hlt, hreading⟩
          · exact Or.inl hkept
          · exact Or.inr ⟨k, by omega, hlt, hreading⟩
      · exact ⟨Nat.le_succ tick, h, List.suffix_rfl, fun _ _ hlookup => Or.inl hlookup⟩

namespace Run

variable {r : Run}

structure Bounded (r : Run) : Prop where
  inStep : InStep r.store.seenRequests r.store.history
  size : r.store.history.length ≤ r.store.maxEntries

theorem Bounded.prunes (h : r.Bounded) (clock : Clock) :
    PrunesAny r.store.ttlSeconds clock r.tick r.store.seenRequests r.store.history
      (pruneLoop r.store.ttlSeconds clock r.tick r.store.seenRequests r.store.history) :=
  pruneLoop_any h.inStep

theorem Bounded.prune (h : r.Bounded) (clock : Clock) : (r.prune clock).Bounded :=
  ⟨(h.prunes clock).inStep, (h.prunes clock).suffix.length_le.trans h.size⟩

theorem Bounded.record (h : r.Bounded) (clock : Clock) (q : Request) (checksum : Bytes) :
    (r.record clock q checksum).2.Bounded := by
  have hpruned := h.prune clock
  rw [record_eq]
  dsimp only
  split_ifs with hseen hfull
  · exact hpruned
  · exact hpruned
  · refine ⟨hpruned.inStep.push _ (by simpa using hseen), ?_⟩
    rw [hpruned.inStep.length_eq] at hfull
    have hlength : ((r.prune clock).push clock q checksum).store.history.length =
        (r.prune clock).store.history.length + 1 := List.length_append
    rw [hlength]
    exact Nat.not_le.mp hfull

theorem Bounded.call (h : r.Bounded) (clock : Clock) (c : Call) : (r.call clock c).Bounded := by
  cases c with
  | recordRequest q checksum => exact h.record clock q checksum
  | isReplayed q =>
      change (r.query clock q).2.Bounded
      unfold Run.query
      dsimp only
      split_ifs <;> exact ⟨h.inStep, h.size⟩
  | clear => exact ⟨InStep.empty, Nat.zero_le _⟩

theorem Bounded.after (h : r.Bounded) (clock : Clock) (calls : List Call) :
    (r.after clock calls).Bounded := by
  induction calls generalizing r with
  | nil => exact h
  | cons c calls ih => exact ih (h.call clock c)

theorem bounded_runOf (maxEntries : Nat) (ttlSeconds : Int) (clock : Clock) (calls : List Call) :
    (runOf maxEntries ttlSeconds clock calls).Bounded :=
  Bounded.after ⟨InStep.empty, Nat.zero_le _⟩ clock calls

theorem prune_tick_le_record (r : Run) (clock : Clock) (q : Request) (checksum : Bytes) :
    (r.prune clock).tick ≤ (r.record clock q checksum).2.tick := by
  rw [record_eq]
  dsimp only
  split_ifs
  · exact le_rfl
  · exact le_rfl
  · exact Nat.le_succ _

theorem Bounded.tick_le_call (h : r.Bounded) (clock : Clock) (c : Call) :
    r.tick ≤ (r.call clock c).tick := by
  cases c with
  | recordRequest q checksum =>
      exact (h.prunes clock).later.trans (r.prune_tick_le_record clock q checksum)
  | isReplayed q =>
      change r.tick ≤ (r.query clock q).2.tick
      unfold Run.query
      dsimp only
      split_ifs
      · exact Nat.le_succ _
      · exact le_rfl
  | clear => exact le_rfl

theorem Bounded.tick_le_after (h : r.Bounded) (clock : Clock) (calls : List Call) :
    r.tick ≤ (r.after clock calls).tick := by
  induction calls generalizing r with
  | nil => exact le_rfl
  | cons c calls ih => exact (h.tick_le_call clock c).trans (ih (h.call clock c))

/-! ## Guards -/

/-- The key is in the map with this time. -/
def Holds (r : Run) (key : Bytes) (time : Int) : Prop :=
  ∃ entry, r.store.seenRequests.lookup key = some entry ∧ entry.recordedAt = time

variable {key : Bytes} {time : Int}

/-- Pruning spares a key that none of its readings calls expired. -/
theorem Holds.prune (hholds : r.Holds key time) (h : r.Bounded)
    (hfresh : ∀ k, r.tick ≤ k → k < (r.prune clock).tick → clock k - time < r.store.ttlSeconds) :
    (r.prune clock).Holds key time := by
  obtain ⟨entry, hlookup, rfl⟩ := hholds
  rcases (h.prunes clock).kept key entry hlookup with hkept | ⟨k, hk, hlt, hexpired⟩
  · exact ⟨entry, hkept, rfl⟩
  · have hlive := hfresh k hk hlt
    rw [isExpired, decide_eq_true_eq] at hexpired
    omega

theorem Holds.isSome (hholds : r.Holds key time) :
    (r.store.seenRequests.lookup key).isSome = true := by
  obtain ⟨entry, hlookup, -⟩ := hholds
  rw [hlookup, Option.isSome_some]

theorem Holds.call (hholds : r.Holds key time) (h : r.Bounded) {c : Call} (hclear : c ≠ .clear)
    (hfresh : ∀ k, r.tick ≤ k → k < (r.call clock c).tick → clock k - time < r.store.ttlSeconds) :
    (r.call clock c).Holds key time := by
  cases c with
  | clear => exact absurd rfl hclear
  | isReplayed q =>
      change (r.query clock q).2.Holds key time
      unfold Run.query
      dsimp only
      split_ifs <;> exact hholds
  | recordRequest q checksum =>
      have hpruned : (r.prune clock).Holds key time := hholds.prune h fun k hk hlt =>
        hfresh k hk (hlt.trans_le (r.prune_tick_le_record clock q checksum))
      change (r.record clock q checksum).2.Holds key time
      rw [record_eq]
      dsimp only
      split_ifs with hseen hfull
      · exact hpruned
      · exact hpruned
      · have hne : key ≠ q.key := by
          rintro rfl
          exact hseen hpruned.isSome
        obtain ⟨entry, hlookup, htime⟩ := hpruned
        exact ⟨entry, (AList.lookup_insert_ne hne).trans hlookup, htime⟩

theorem Holds.after (hholds : r.Holds key time) (h : r.Bounded) {calls : List Call}
    (hclear : .clear ∉ calls)
    (hfresh : ∀ k, r.tick ≤ k → k < (r.after clock calls).tick →
      clock k - time < r.store.ttlSeconds) : (r.after clock calls).Holds key time := by
  induction calls generalizing r with
  | nil => exact hholds
  | cons c calls ih =>
      rw [List.mem_cons, not_or] at hclear
      have hlater : (r.call clock c).tick ≤ (r.after clock (c :: calls)).tick :=
        (h.call clock c).tick_le_after clock calls
      refine ih (hholds.call h (Ne.symm hclear.1) fun k hk hlt => hfresh k hk (hlt.trans_le hlater))
        (h.call clock c) hclear.2 fun k hk hlt => ?_
      rw [(call_settings c).2]
      exact hfresh k ((h.tick_le_call clock c).trans hk) hlt

theorem holds_of_recorded {q : Request} {checksum : Bytes}
    (hresult : (r.record clock q checksum).1 = .recorded) :
    (r.record clock q checksum).2.Holds q.key (clock (r.prune clock).tick) ∧
      (r.record clock q checksum).2.tick = (r.prune clock).tick + 1 := by
  rw [record_eq] at hresult ⊢
  dsimp only at hresult ⊢
  split_ifs at hresult ⊢
  exact ⟨⟨_, AList.lookup_insert _, rfl⟩, rfl⟩

end Run

/-- Whatever the clock does, the store stays in its bounds, and it answers a
request it recorded with `replay` until a reading calls it expired. -/
theorem store_safe_under_any_clock (maxEntries : Nat) (ttlSeconds : Int) (clock : Clock)
    (early : List Call) :
    let r := runOf maxEntries ttlSeconds clock early
    r.store.history.length = r.store.seenRequests.entries.length ∧
    r.store.seenRequests.entries.length ≤ maxEntries ∧
    ∀ (q q' : Request) (checksum checksum' : Bytes) (late : List Call),
      (r.record clock q checksum).1 = .recorded → .clear ∉ late → q'.key = q.key →
      let recordedAt := (r.prune clock).tick
      let r' := (r.record clock q checksum).2.after clock late
      (∀ k, recordedAt < k → k < (r'.prune clock).tick →
        clock k - clock recordedAt < ttlSeconds) →
      (r'.store.recordRequest clock r'.tick q'.agentId q'.reqid checksum').1 = .replay := by
  intro r
  have h : r.Bounded := Run.bounded_runOf maxEntries ttlSeconds clock early
  obtain ⟨hmax, httl⟩ := settings_runOf maxEntries ttlSeconds clock early
  change r.store.maxEntries = maxEntries at hmax
  change r.store.ttlSeconds = ttlSeconds at httl
  refine ⟨h.inStep.length_eq.symm, ?_, ?_⟩
  · rw [h.inStep.length_eq, ← hmax]
    exact h.size
  · intro q q' checksum checksum' late hresult hclear hkey recordedAt r' hfresh
    have hrecord := h.record clock q checksum
    have hrecordTtl : (r.record clock q checksum).2.store.ttlSeconds = ttlSeconds :=
      (@Run.call_settings clock r (.recordRequest q checksum)).2.trans httl
    have hsettings : r'.store.ttlSeconds = ttlSeconds :=
      (Run.after_settings late).2.trans hrecordTtl
    obtain ⟨hholds, htick⟩ := Run.holds_of_recorded hresult
    have hbounded : r'.Bounded := hrecord.after clock late
    have hlater : r'.tick ≤ (r'.prune clock).tick := (hbounded.prunes clock).later
    have hheld : r'.Holds q.key (clock recordedAt) := by
      refine hholds.after hrecord hclear fun k hk hlt => ?_
      rw [htick] at hk
      rw [hrecordTtl]
      exact hfresh k hk (hlt.trans_le hlater)
    have hpruned : (r'.prune clock).Holds q.key (clock recordedAt) := by
      refine hheld.prune hbounded fun k hk hlt => ?_
      have hafter := hrecord.tick_le_after clock late
      rw [htick] at hafter
      rw [hsettings]
      exact hfresh k (hafter.trans hk) hlt
    rw [← Run.record_result r' clock q' checksum', Run.record_eq]
    dsimp only
    rw [hkey, if_pos hpruned.isSome]

/-- The clock steps back behind the first of two recordings. -/
theorem store_safe_under_step_back :
    let clock : Clock := fun tick => if tick = 0 then 1000000001 else 1000000000
    let q : Request := ⟨ascii "a", ascii "r1"⟩
    let late := [Call.recordRequest ⟨ascii "a", ascii "r2"⟩ [], .isReplayed q]
    let r' := ((runOf 1000 3600 clock []).record clock q []).2.after clock late
    (r'.store.recordRequest clock r'.tick q.agentId q.reqid []).1 = .replay := by
  intro clock q late r'
  have hfresh : ∀ k, 0 < k → clock k - clock 0 < 3600 := by
    intro k hk
    simp only [clock, if_neg (Nat.ne_of_gt hk), if_true]
    decide
  exact (store_safe_under_any_clock 1000 3600 clock []).2.2 q q [] [] late (by decide +kernel)
    (by simp [late]) rfl fun k hk _ => hfresh k hk

end LlmTop.IdempotencyStore
