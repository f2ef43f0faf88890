import LlmTop.Reconfiguration

/-!
# Exactly once, with the store cleared and enforcement switched

Two authorized calls with one request id are a time to live apart, unless the
store was cleared between them or enforcement was off during one of them.
-/
namespace LlmTop
open IdempotencyStore Lib.Interleaved Lib.TtlSet

namespace Hosted

/-- The store of a middleware in use holds what its journal says is live. -/
structure Sound (clock : Clock) (ttl : Int) (h : Hosted) : Prop where
  tracks : h.run.Tracks clock
  ttl_eq : h.middleware.idempotencyStore.ttlSeconds = ttl

variable {clock : Clock} {ttl : Int} {h : Hosted}

theorem Sound.serve (hclock : clock.Steady) (hsound : h.Sound clock ttl) (access : Access) :
    (h.serve clock access).2.Sound clock ttl := by
  obtain ⟨htracks, httl⟩ := hsound
  cases access with
  | now => exact ⟨htracks.wait hclock, httl⟩
  | isReplayed q =>
      exact ⟨(htracks.query hclock q).2, (@Run.call_settings clock h.run (.isReplayed q)).2.trans httl⟩
  | recordRequest q checksum =>
      exact ⟨(htracks.record hclock q checksum).2,
        (@Run.call_settings clock h.run (.recordRequest q checksum)).2.trans httl⟩
  | _ => exact ⟨htracks, httl⟩

theorem Sound.apply (hsound : h.Sound clock ttl) (call : HostCall) : (h.apply call).Sound clock ttl := by
  obtain ⟨htracks, httl⟩ := hsound
  cases call with
  | session call => cases call <;> exact ⟨htracks, httl⟩
  | clearIdempotencyStore => exact ⟨h.run.tracks_clear clock, httl⟩
  | _ => exact ⟨htracks, httl⟩

/-- Until the store is cleared nothing leaves the journal. -/
theorem mem_journal_serve {stamp : Request × Int} (hmem : stamp ∈ h.journal) (access : Access) :
    stamp ∈ (h.serve clock access).2.journal := by
  cases access with
  | isReplayed q =>
      change stamp ∈ (h.run.query clock q).2.journal
      unfold Run.query
      dsimp only
      split_ifs <;> exact hmem
  | recordRequest q checksum =>
      change stamp ∈ (h.run.record clock q checksum).2.journal
      unfold Run.record
      dsimp only
      split_ifs
      · exact List.mem_append_left _ hmem
      · exact hmem
  | _ => exact hmem

theorem mem_journal_apply {stamp : Request × Int} (hmem : stamp ∈ h.journal) {call : HostCall}
    (hcall : call ≠ .clearIdempotencyStore) : stamp ∈ (h.apply call).journal := by
  cases call with
  | clearIdempotencyStore => exact absurd rfl hcall
  | _ => exact hmem

theorem mem_journal_recorded {q : Request} {checksum : Bytes}
    (hresult : (h.run.record clock q checksum).1 = .recorded) :
    (q, clock (h.run.prune clock).tick) ∈ (h.serve clock (.recordRequest q checksum)).2.journal := by
  change _ ∈ (h.run.record clock q checksum).2.journal
  unfold Run.record at hresult ⊢
  dsimp only at hresult ⊢
  split_ifs at hresult ⊢ with hrecorded
  · exact List.mem_append_right _ (List.mem_singleton_self _)
  · exact absurd hresult hrecorded

end Hosted

namespace Interleaving

variable {ι : Type} [DecidableEq ι]

/-- The call used up its request at its turn behind `early`, and `time` is what
the store wrote down. -/
structure UsesUp (clock : Clock) (s : Interleaving ι) (moves : List (Move ι HostCall)) (i : ι)
    (q : Request) (early : List (Move ι HostCall)) (time : Int) : Prop where
  turn : ∃ checksum, s.Turn (Hosted.serve clock) Hosted.apply moves i (.recordRequest q checksum) early ∧
    ((s.run clock early).shared.run.record clock q checksum).1 = .recorded
  time_eq : clock ((s.run clock early).shared.run.prune clock).tick = time

variable {m : LLMTOPMiddleware} {frames : ι → Frame} {clock : Clock} {moves : List (Move ι HostCall)}
  {s : Interleaving ι} {i j : ι} {q : Request} {early early' : List (Move ι HostCall)}
  {time time' ttl : Int}

theorem UsesUp.within (h : s.UsesUp clock moves i q early time) : early ++ [.thread i] <+: moves := by
  obtain ⟨checksum, hturn, -⟩ := h.turn
  exact hturn.within

theorem UsesUp.mem_journal (h : s.UsesUp clock moves i q early time) :
    (q, time) ∈ (s.run clock (early ++ [.thread i])).shared.journal := by
  obtain ⟨checksum, hturn, hrecorded⟩ := h.turn
  obtain ⟨next, hnext⟩ := hturn.asks
  unfold run
  rw [System.after_concat, System.step_thread hnext, ← h.time_eq]
  exact Hosted.mem_journal_recorded hrecorded

theorem sound_after (hclock : clock.Steady) (hsound : s.shared.Sound clock ttl)
    (moves : List (Move ι HostCall)) : (s.run clock moves).shared.Sound clock ttl :=
  System.shared_after (Hosted.Sound clock ttl) (fun _ access h => h.serve hclock access)
    (fun _ call _ h => h.apply call) hsound

/-- The later of two records of one request finds the earlier one expired, if it
is still there to be found. -/
theorem UsesUp.apart (hclock : clock.Steady) (hsound : s.shared.Sound clock ttl)
    (hi : s.UsesUp clock moves i q early time) {middle : List (Move ι HostCall)}
    (hj : s.UsesUp clock moves j q (early ++ [.thread i] ++ middle) time')
    (hkept : .host .clearIdempotencyStore ∉ middle) : ttl ≤ time' - time := by
  have hbetween : (q, time) ∈ (s.run clock (early ++ [.thread i] ++ middle)).shared.journal := by
    unfold run
    rw [System.after_append]
    refine System.shared_after (fun h : Hosted => (q, time) ∈ h.journal)
      (fun _ access hmem => Hosted.mem_journal_serve hmem access)
      (fun _ call hcall hmem => Hosted.mem_journal_apply hmem ?_) hi.mem_journal
    rintro rfl
    exact hkept hcall
  have hstore := sound_after hclock hsound (early ++ [.thread i] ++ middle)
  obtain ⟨checksum, -, hrecorded⟩ := hj.turn
  obtain ⟨-, hfree⟩ := hstore.tracks.record_recorded hclock hrecorded
  rw [← hstore.ttl_eq, ← hj.time_eq]
  exact apart_of_not_guarded hfree
    (List.mem_map_of_mem (f := fun stamp => (stamp.1.key, stamp.2)) hbetween)
    (hclock (Nat.sub_le _ _))

/-- `j` used its request up after `i` did, with the store cleared in between or a
time to live later. -/
def Follows (ttl : Int) (i : ι) (early early' : List (Move ι HostCall)) (time time' : Int) : Prop :=
  ∃ middle, early' = early ++ [.thread i] ++ middle ∧
    (.host .clearIdempotencyStore ∈ middle ∨ ttl ≤ time' - time)

theorem UsesUp.follows (hclock : clock.Steady) (hsound : s.shared.Sound clock ttl)
    (hi : s.UsesUp clock moves i q early time) (hj : s.UsesUp clock moves j q early' time')
    (hle : early ++ [.thread i] <+: early') : Follows ttl i early early' time time' := by
  obtain ⟨middle, rfl⟩ := hle
  refine ⟨middle, rfl, ?_⟩
  by_cases hcleared : .host .clearIdempotencyStore ∈ middle
  · exact Or.inl hcleared
  · exact Or.inr (hi.apart hclock hsound hj hcleared)

/-- What makes an authorized call use up its request. -/
theorem usesUp_of_authorized {plan : ExecutionPlan}
    (hreturned : ((start m frames).run clock moves).threads i = .done plan)
    (hplan : plan.authorized = true) :
    (start m frames).Held clock moves i .enforceIdempotency
        (fun h => h.middleware.enforceIdempotency = false) ∨
      ∃ early time, (start m frames).UsesUp clock moves i (frames i).request early time := by
  have hends := ends_of_returned hreturned
  cases hends with
  | gated hgates => exact absurd hplan Bool.false_ne_true
  | refused hentries hbefore hrefused =>
      rw [Entry.recordAll_eq] at hplan
      exact absurd hplan Bool.false_ne_true
  | unrecorded hall henforce hrecord hresult =>
      rw [Entry.recordAll_eq] at hplan
      exact absurd hplan Bool.false_ne_true
  | authorized hall hrecord =>
      rcases hrecord with hoff | ⟨early, hturn, hrecorded⟩
      · exact Or.inl hoff
      · exact Or.inr ⟨early, _, ⟨_, hturn, hrecorded⟩, rfl⟩

/-- Exactly once, as far as the host lets it. -/
theorem exactly_once_reconfigured (m : LLMTOPMiddleware) (frames : ι → Frame) (clock : Clock)
    (hclock : clock.Steady) (maxEntries : Nat) (ttlSeconds : Int)
    (hstore : m.idempotencyStore = IdempotencyStore.new maxEntries ttlSeconds)
    (moves : List (Move ι HostCall)) (i j : ι) (plan plan' : ExecutionPlan) (hne : i ≠ j)
    (hrequest : (frames i).request = (frames j).request)
    (hi : ((start m frames).run clock moves).threads i = .done plan)
    (hj : ((start m frames).run clock moves).threads j = .done plan')
    (hplan : plan.authorized = true) (hplan' : plan'.authorized = true) :
    let s := start m frames
    let enforcementOff := fun h : Hosted => h.middleware.enforceIdempotency = false
    s.Held clock moves i .enforceIdempotency enforcementOff ∨
      s.Held clock moves j .enforceIdempotency enforcementOff ∨
      ∃ early early' time time', s.UsesUp clock moves i (frames i).request early time ∧
        s.UsesUp clock moves j (frames j).request early' time' ∧
        (Follows ttlSeconds i early early' time time' ∨
          Follows ttlSeconds j early' early time' time) := by
  intro s enforcementOff
  have hsound : s.shared.Sound clock ttlSeconds := by
    have hnew := Run.tracks_new clock maxEntries ttlSeconds
    rw [← hstore] at hnew
    exact ⟨hnew, by
      change m.idempotencyStore.ttlSeconds = ttlSeconds
      rw [hstore]
      rfl⟩
  rcases usesUp_of_authorized hi hplan with hoff | ⟨early, time, huses⟩
  · exact Or.inl hoff
  · rcases usesUp_of_authorized hj hplan' with hoff | ⟨early', time', huses'⟩
    · exact Or.inr (Or.inl hoff)
    · refine Or.inr (Or.inr ⟨early, early', time, time', huses, huses', ?_⟩)
      rw [← hrequest] at huses'
      rcases List.prefix_or_prefix_of_prefix huses.within huses'.within with hle | hle
      · rcases List.prefix_concat_iff.mp hle with heq | hle
        · have hlast := (List.append_inj' heq rfl).2
          simp only [List.cons.injEq, Move.thread.injEq, and_true] at hlast
          exact absurd hlast hne
        · exact Or.inl (huses.follows hclock hsound huses' hle)
      · rcases List.prefix_concat_iff.mp hle with heq | hle
        · have hlast := (List.append_inj' heq rfl).2
          simp only [List.cons.injEq, Move.thread.injEq, and_true] at hlast
          exact absurd hlast.symm hne
        · exact Or.inr (huses'.follows hclock hsound huses hle)

def bareFrame : Frame where
  ast := { header := { agt := ascii "a", reqid := ascii "r" } }
  acceptHealed := false

def enforcing : LLMTOPMiddleware := { exampleMiddleware [] with enforceIdempotency := true }

/-- Both calls are authorized at one time, with a clear between them. -/
theorem exactly_once_cleared :
    let s := start enforcing fun _ : Bool => bareFrame
    let enforcementOff := fun h : Hosted => h.middleware.enforceIdempotency = false
    let moves := [.thread false, .thread false, .thread false, .thread false, .thread false,
      .host .clearIdempotencyStore, .thread true, .thread true, .thread true, .thread true,
      .thread true]
    s.Held (fun _ => 0) moves false .enforceIdempotency enforcementOff ∨
      s.Held (fun _ => 0) moves true .enforceIdempotency enforcementOff ∨
      ∃ early early' time time',
        s.UsesUp (fun _ => 0) moves false bareFrame.request early time ∧
        s.UsesUp (fun _ => 0) moves true bareFrame.request early' time' ∧
        (Follows 3600 false early early' time time' ∨ Follows 3600 true early' early time' time) :=
  exactly_once_reconfigured enforcing (fun _ => bareFrame) (fun _ => 0) (fun _ _ _ => le_rfl) 1000
    3600 rfl _ false true _ _ (by decide) rfl rfl rfl rfl rfl

end Interleaving
end LlmTop
