import LlmTop.BpeMerge

/-!
# The naive merge

The procedure of the tests reduces a piece as the queue does.
-/
namespace LlmTop
namespace Cl100kTokenizer

open Lib.PairMerge

def RankMap.Below (ranks : RankMap) : Prop := ∀ token r, ranks.find token = some r → r < intMax

theorem RankMap.below_of_entries {ranks : RankMap} (h : ∀ entry ∈ ranks.entries, entry.2 < intMax) :
    ranks.Below := fun token r hr => h ⟨token, r⟩ (AList.mem_lookup_iff.mp hr)

section Scan

variable {ranks : RankMap} {parts : List Bytes}

/-- What is known when the first `m` pairs were looked at. -/
structure Scanned (ranks : RankMap) (parts : List Bytes) (m : Nat) (best : Int × Option Nat) :
    Prop where
  place : ∀ i ∈ best.2, i < m ∧ rankAt ranks parts i = some best.1
  start : best.2 = none → best.1 = intMax
  least : ∀ k < m, ∀ r, rankAt ranks parts k = some r → best.1 ≤ r
  first : ∀ i ∈ best.2, ∀ k < i, ∀ r, rankAt ranks parts k = some r → best.1 < r

theorem Scanned.scanPair {m : Nat} {best : Int × Option Nat} (h : Scanned ranks parts m best) :
    Scanned ranks parts (m + 1) (scanPair ranks parts best m) := by
  have hkeep : (∀ r, rankAt ranks parts m = some r → best.1 ≤ r) →
      Scanned ranks parts (m + 1) best := by
    intro hm
    refine ⟨fun i hi => ⟨Nat.lt_succ_of_lt (h.place i hi).1, (h.place i hi).2⟩, h.start, ?_, h.first⟩
    intro k hk r hr
    rcases Nat.lt_succ_iff_lt_or_eq.mp hk with hk | rfl
    · exact h.least k hk r hr
    · exact hm r hr
  unfold Cl100kTokenizer.scanPair
  cases hm : rankAt ranks parts m with
  | none => exact hkeep fun r hr => by simp [hm] at hr
  | some rank =>
      dsimp only
      split
      · rename_i hlower
        have hless : ∀ k < m, ∀ r, rankAt ranks parts k = some r → rank < r := fun k hk r hr =>
          hlower.trans_le (h.least k hk r hr)
        refine ⟨?_, nofun, ?_, ?_⟩
        · intro i hi
          obtain rfl := Option.some.inj hi
          exact ⟨Nat.lt_succ_self m, hm⟩
        · intro k hk r hr
          rcases Nat.lt_succ_iff_lt_or_eq.mp hk with hk | rfl
          · exact le_of_lt (hless k hk r hr)
          · exact le_of_eq (Option.some.inj (hm.symm.trans hr))
        · intro i hi
          obtain rfl := Option.some.inj hi
          exact hless
      · rename_i hlower
        apply hkeep
        intro r hr
        obtain rfl := Option.some.inj (hm.symm.trans hr)
        exact not_lt.mp hlower

theorem scanned_bestPair (ranks : RankMap) (parts : List Bytes) :
    Scanned ranks parts (parts.length - 1) (bestPair ranks parts) := by
  have hrun : ∀ m, Scanned ranks parts m
      ((List.range m).foldl (Cl100kTokenizer.scanPair ranks parts) (intMax, none)) := by
    intro m
    induction m with
    | zero =>
        exact ⟨nofun, fun _ => rfl, fun k hk => absurd hk (Nat.not_lt_zero k), nofun⟩
    | succ m ih =>
        rw [List.range_succ, List.foldl_append]
        exact ih.scanPair
  exact hrun _

theorem rankAt_split (front back : List Bytes) (a b : Bytes) :
    rankAt ranks (front ++ a :: b :: back) front.length = ranks.find (a ++ b) := by
  simp [rankAt, List.getD_eq_getElem?_getD]

theorem exists_split {i : Nat} (hi : i < parts.length - 1) :
    ∃ front a b back, parts = front ++ a :: b :: back ∧ front.length = i := by
  have hlt : i + 1 < parts.length := by omega
  refine ⟨parts.take i, parts[i], parts[i + 1], parts.drop (i + 2), ?_, by simp; omega⟩
  rw [← List.drop_eq_getElem_cons, ← List.drop_eq_getElem_cons, List.take_append_drop]

/-- The place that the scan finds is the pair to join next. -/
theorem best_of_bestPair {i : Nat} (h : (bestPair ranks parts).2 = some i) :
    ∃ front a b back, parts = front ++ a :: b :: back ∧ front.length = i ∧
      Best ranks.find front a b back (bestPair ranks parts).1 := by
  have hscan := scanned_bestPair ranks parts
  generalize bestPair ranks parts = best at h hscan
  obtain ⟨hi, hrank⟩ := hscan.place i h
  obtain ⟨front, a, b, back, rfl, rfl⟩ := exists_split hi
  refine ⟨front, a, b, back, rfl, rfl, ⟨?_, ?_, ?_⟩⟩
  · rw [← hrank, rankAt_split]
  · refine List.isChain_iff_forall_rel_of_append_cons_cons.mpr ?_
    intro x y before after heq r hr
    have hparts : front ++ a :: b :: back = before ++ x :: y :: (after ++ b :: back) := by
      rw [← List.singleton_append, ← List.append_assoc, heq]
      simp
    have hlt : before.length < front.length := by
      have hlength := congrArg List.length heq
      simp only [List.length_append, List.length_cons, List.length_nil] at hlength
      omega
    refine hscan.first _ h before.length hlt r ?_
    rw [hparts, rankAt_split, hr]
  · refine List.isChain_iff_forall_rel_of_append_cons_cons.mpr ?_
    intro x y before after heq r hr
    have hparts : front ++ a :: b :: back = (front ++ a :: before) ++ x :: y :: after := by
      rw [heq]
      simp
    refine hscan.least (front ++ a :: before).length ?_ r ?_
    · rw [hparts]
      simp only [List.length_append, List.length_cons]
      omega
    · rw [hparts, rankAt_split, hr]

theorem joins_of_bestPair (hbelow : ranks.Below) (h : (bestPair ranks parts).2 = none) :
    Joins ranks.find (fun _ => False) parts := by
  have hscan := scanned_bestPair ranks parts
  refine List.isChain_iff_forall_rel_of_append_cons_cons.mpr ?_
  rintro x y before after rfl r hr
  have hle : (bestPair ranks (before ++ x :: y :: after)).1 ≤ r := by
    refine hscan.least before.length ?_ r ?_
    · rw [List.length_append, List.length_cons, List.length_cons]
      omega
    · rw [rankAt_split, hr]
  rw [hscan.start h] at hle
  exact absurd (hbelow _ r hr) (not_lt.mpr hle)

theorem joinAt_split (front back : List Bytes) (a b : Bytes) :
    joinAt (front ++ a :: b :: back) front.length = front ++ (a ++ b) :: back := by
  induction front with
  | nil => rfl
  | cons x front ih =>
      have hcons : joinAt (x :: (front ++ a :: b :: back)) (front.length + 1) =
          x :: joinAt (front ++ a :: b :: back) front.length := rfl
      rw [List.cons_append, List.length_cons, hcons, ih, List.cons_append]

end Scan

theorem reduces_referenceLoop {ranks : RankMap} (hbelow : ranks.Below) {fuel : Nat}
    {parts : List Bytes} (hfuel : parts.length ≤ fuel) :
    Reduces ranks.find parts (referenceLoop ranks fuel parts) := by
  induction fuel generalizing parts with
  | zero =>
      obtain rfl := List.length_eq_zero_iff.mp (Nat.le_zero.mp hfuel)
      exact .done .nil
  | succ fuel ih =>
      unfold referenceLoop
      split
      · rename_i hbest
        exact .done (joins_of_bestPair hbelow hbest)
      · rename_i hbest
        obtain ⟨front, a, b, back, rfl, rfl, hjoin⟩ := best_of_bestPair hbest
        rw [joinAt_split]
        refine .join hjoin (ih ?_)
        simp only [List.length_append, List.length_cons] at hfuel ⊢
        omega

theorem bpe_of_two_le {ranks : RankMap} {piece : Bytes} (h : 2 ≤ piece.length)
    (hpiece : piece.length < kNone) (out : List Int) :
    bpe ranks piece out =
      (collect ranks piece
        (mergeLoop ranks piece (initialNodes piece.length)
          ((List.range (piece.length - 1)).foldl
            (pushPair ranks piece (initialNodes piece.length)) Lib.MinHeap.empty))
        (piece.length + 1) 0 >>= fun ids => .ok (out ++ ids)) := by
  have hn : piece.length % 2 ^ 32 = piece.length := by
    apply Nat.mod_eq_of_lt
    unfold kNone at hpiece
    omega
  match piece, h with
  | c :: d :: rest, _ =>
      rw [← hn]
      rfl

/-- The queue appends the ids of the parts that its piece reduces to. -/
theorem exists_reduces_bpe {ranks : RankMap} {piece : Bytes} (hpiece : piece.length < kNone)
    (out : List Int) :
    ∃ parts, Reduces ranks.find (piece.map fun c => [c]) parts ∧
      bpe ranks piece out =
        (parts.mapM ranks.find).elim (.error notInRanks) fun ids => .ok (out ++ ids) := by
  rcases Nat.lt_or_ge piece.length 2 with hshort | hlong
  · match piece, hshort with
    | [], _ => exact ⟨[], .done .nil, congrArg Except.ok (List.append_nil out).symm⟩
    | [c], _ =>
        refine ⟨[[c]], .done (.singleton _), ?_⟩
        rw [bpe, List.mapM_cons]
        cases ranks.find [c] <;> rfl
  · have hne : piece ≠ [] := List.length_pos_iff.mp (by omega)
    obtain ⟨chain, hlinked, hreduces⟩ := (ready_initialNodes hpiece hne).reduces hpiece
    rw [textAt_initialNodes] at hreduces
    have hwalk := @collect_eq ranks piece _ [] chain hpiece hlinked _
      (Nat.lt_succ_of_le hlinked.length_le)
    have hhead : chain.headD kNone = 0 := by
      rw [List.headD_eq_head?_getD, hlinked.head]
      rfl
    rw [hhead] at hwalk
    refine ⟨_, hreduces, ?_⟩
    rw [bpe_of_two_le hlong hpiece, hwalk]
    generalize (chain.map _).mapM ranks.find = found
    cases found <;> rfl

/-- The queue appends the ids of the naive procedure, and throws exactly where
that procedure leaves a part without an id. -/
theorem bpe_eq_reference {ranks : RankMap} (hbelow : ranks.Below) {piece : Bytes}
    (hpiece : piece.length < 2 ^ 32 - 1) (out : List Int) :
    bpe ranks piece out =
      match referenceBpe ranks piece with
      | some ids => .ok (out ++ ids)
      | none => .error notInRanks := by
  obtain ⟨parts, hreduces, hbpe⟩ := @exists_reduces_bpe ranks _ hpiece out
  have hreference := reduces_referenceLoop hbelow
    (show (piece.map fun c => [c]).length ≤ piece.length from (List.length_map _).le)
  rw [hbpe, hreduces.unique hreference, referenceBpe]
  cases (referenceLoop ranks piece.length (piece.map fun c => [c])).mapM ranks.find <;> rfl

/-- Two pairs share a rank: the leftmost is joined first. -/
theorem bpe_babab :
    let ranks : RankMap :=
      [(⟨ascii "b", 6⟩ : Sigma fun _ : Bytes => Int), ⟨ascii "ab", 1⟩, ⟨ascii "ba", 1⟩].toAList
    bpe ranks (ascii "babab") [7] = .ok [7, 1, 1, 6] ∧
      bpe ranks (ascii "bac") [7] = .error notInRanks := by
  intro ranks
  have hbelow : ranks.Below := RankMap.below_of_entries (by decide)
  constructor
  · rw [bpe_eq_reference hbelow (by decide)]
    rfl
  · rw [bpe_eq_reference hbelow (by decide)]
    rfl

end Cl100kTokenizer
end LlmTop
