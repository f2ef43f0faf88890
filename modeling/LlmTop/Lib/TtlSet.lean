import Mathlib.Data.List.Dedup

/-!
# Sets with a time to live

The journal of such a set lists every key that was recorded, with its time, and
nothing is ever taken out of it.  A key is guarded while it was recorded less
than `ttl` ago.
-/
namespace LlmTop.Lib.TtlSet

variable {κ : Type}

abbrev Journal (κ : Type) := List (κ × Int)

def Live (ttl now : Int) (stamp : κ × Int) : Prop := now - stamp.2 < ttl

instance (ttl now : Int) (stamp : κ × Int) : Decidable (Live ttl now stamp) :=
  inferInstanceAs (Decidable (now - stamp.2 < ttl))

def Guarded (ttl now : Int) (journal : Journal κ) (key : κ) : Prop :=
  ∃ stamp ∈ journal, stamp.1 = key ∧ Live ttl now stamp

def guardedKeys [DecidableEq κ] (ttl now : Int) (journal : Journal κ) : List κ :=
  ((journal.filter fun stamp => Live ttl now stamp).map Prod.fst).dedup

/-- Oldest first. -/
def Chronological (journal : Journal κ) : Prop :=
  journal.Pairwise fun earlier later => earlier.2 ≤ later.2

theorem Live.earlier {ttl now later : Int} {stamp : κ × Int} (hlive : Live ttl later stamp)
    (hle : now ≤ later) : Live ttl now stamp := by
  unfold Live at *
  omega

theorem Live.younger {ttl now : Int} {stamp stamp' : κ × Int} (hlive : Live ttl now stamp)
    (hle : stamp.2 ≤ stamp'.2) : Live ttl now stamp' := by
  unfold Live at *
  omega

/-- A live oldest stamp means that all are live. -/
theorem Chronological.live {ttl now : Int} {stamp : κ × Int} {journal : Journal κ}
    (horder : Chronological (stamp :: journal)) (hlive : Live ttl now stamp) :
    ∀ stamp' ∈ stamp :: journal, Live ttl now stamp' := by
  intro stamp' hmem
  rcases List.mem_cons.mp hmem with rfl | hmem
  · exact hlive
  · exact hlive.younger ((List.pairwise_cons.mp horder).1 stamp' hmem)

theorem Chronological.concat {journal : Journal κ} (horder : Chronological journal) {key : κ}
    {now : Int} (hpast : ∀ stamp ∈ journal, stamp.2 ≤ now) :
    Chronological (journal ++ [(key, now)]) := by
  refine List.pairwise_append.mpr ⟨horder, List.pairwise_singleton _ _, ?_⟩
  intro stamp hmem stamp' hmem'
  rw [List.mem_singleton.mp hmem']
  exact hpast stamp hmem

/-- Dropping the expired front leaves live stamps alone, at every time, exactly
when the journal is in order. -/
theorem chronological_iff_dropWhile (ttl : Int) (journal : Journal κ) :
    Chronological journal ↔
      ∀ now, ∀ stamp ∈ journal.dropWhile (fun stamp => !decide (Live ttl now stamp)),
        Live ttl now stamp := by
  induction journal with
  | nil =>
      simp only [List.dropWhile_nil, List.not_mem_nil, false_implies, implies_true, iff_true]
      exact List.Pairwise.nil
  | cons front rest ih =>
      constructor
      · intro horder now
        by_cases hlive : Live ttl now front
        · rw [List.dropWhile_cons_of_neg (by simpa using hlive)]
          exact horder.live hlive
        · rw [List.dropWhile_cons_of_pos (by simpa using hlive)]
          exact ih.mp (List.pairwise_cons.mp horder).2 now
      · intro hall
        -- at a time at which the front is live nothing at all is dropped
        have hwhole : ∀ now, Live ttl now front → ∀ stamp ∈ rest, Live ttl now stamp := by
          intro now hlive stamp hmem
          apply hall now stamp
          rw [List.dropWhile_cons_of_neg (by simpa using hlive)]
          exact List.mem_cons_of_mem _ hmem
        apply List.pairwise_cons.mpr
        constructor
        · intro stamp hmem
          by_contra hlater
          have hlive := hwhole (stamp.2 + ttl) (by unfold Live; omega) stamp hmem
          unfold Live at hlive
          omega
        · apply ih.mpr
          intro now stamp hmem
          by_cases hlive : Live ttl now front
          · exact hwhole now hlive stamp ((List.dropWhile_sublist _).mem hmem)
          · apply hall now stamp
            rw [List.dropWhile_cons_of_pos (by simpa using hlive)]
            exact hmem

theorem chronological_concat_iff {journal : Journal κ} {key : κ} {now : Int} :
    Chronological (journal ++ [(key, now)]) ↔
      Chronological journal ∧ ∀ stamp ∈ journal, stamp.2 ≤ now := by
  constructor
  · intro horder
    obtain ⟨hjournal, -, hpast⟩ := List.pairwise_append.mp horder
    exact ⟨hjournal, fun stamp hmem => hpast stamp hmem _ (List.mem_singleton_self _)⟩
  · intro h
    exact h.1.concat h.2

theorem guarded_append {ttl now : Int} {past recent : Journal κ} {key : κ} :
    Guarded ttl now (past ++ recent) key ↔ Guarded ttl now past key ∨ Guarded ttl now recent key := by
  simp only [Guarded, List.mem_append, or_and_right, exists_or]

/-- What has expired does not count. -/
theorem guarded_expired_append {ttl now : Int} {past recent : Journal κ} {key : κ}
    (hpast : ∀ stamp ∈ past, ¬Live ttl now stamp) :
    Guarded ttl now (past ++ recent) key ↔ Guarded ttl now recent key := by
  rw [guarded_append, or_iff_right]
  rintro ⟨stamp, hmem, -, hlive⟩
  exact hpast stamp hmem hlive

/-- Among live stamps a key is guarded when it is there. -/
theorem guarded_of_live {ttl now : Int} {journal : Journal κ} {key : κ}
    (hlive : ∀ stamp ∈ journal, Live ttl now stamp) :
    Guarded ttl now journal key ↔ key ∈ journal.map Prod.fst := by
  rw [List.mem_map]
  constructor
  · rintro ⟨stamp, hmem, hkey, -⟩
    exact ⟨stamp, hmem, hkey⟩
  · rintro ⟨stamp, hmem, hkey⟩
    exact ⟨stamp, hmem, hkey, hlive stamp hmem⟩

/-- A key that is not guarded was last recorded a time to live ago. -/
theorem apart_of_not_guarded {ttl look now time : Int} {journal : Journal κ} {key : κ}
    (hfree : ¬Guarded ttl look journal key) (hmem : (key, time) ∈ journal) (hle : look ≤ now) :
    ttl ≤ now - time := by
  have hexpired : ¬Live ttl look (key, time) := fun hlive => hfree ⟨_, hmem, rfl, hlive⟩
  unfold Live at hexpired
  dsimp only at hexpired
  omega

section Keys

variable [DecidableEq κ]

theorem mem_guardedKeys {ttl now : Int} {journal : Journal κ} {key : κ} :
    key ∈ guardedKeys ttl now journal ↔ Guarded ttl now journal key := by
  simp only [guardedKeys, List.mem_dedup, List.mem_map, List.mem_filter, decide_eq_true_eq, Guarded]
  exact exists_congr fun stamp => ⟨fun h => ⟨h.1.1, h.2, h.1.2⟩, fun h => ⟨⟨h.1, h.2.2⟩, h.2.1⟩⟩

instance (ttl now : Int) (journal : Journal κ) (key : κ) : Decidable (Guarded ttl now journal key) :=
  decidable_of_iff _ mem_guardedKeys

theorem guardedKeys_expired_append {ttl now : Int} {past recent : Journal κ}
    (hpast : ∀ stamp ∈ past, ¬Live ttl now stamp) :
    guardedKeys ttl now (past ++ recent) = guardedKeys ttl now recent := by
  have hnone : past.filter (fun stamp => Live ttl now stamp) = [] := by
    simpa using hpast
  rw [guardedKeys, List.filter_append, hnone, List.nil_append]
  rfl

theorem guardedKeys_of_live {ttl now : Int} {journal : Journal κ}
    (hnodup : (journal.map Prod.fst).Nodup) (hlive : ∀ stamp ∈ journal, Live ttl now stamp) :
    guardedKeys ttl now journal = journal.map Prod.fst := by
  have hall : journal.filter (fun stamp => Live ttl now stamp) = journal := by
    simpa using hlive
  rw [guardedKeys, hall, hnodup.dedup]

end Keys

end LlmTop.Lib.TtlSet
