import LlmTop.Bpe
import LlmTop.Lib.PairMerge
import Mathlib.Data.List.Range

/-!
# The merge loop

The active nodes are a list that covers the piece, every ranked pair of
neighbours in it is queued, and what the queue hands out first is the pair that
the naive procedure joins.
-/
namespace LlmTop
namespace Cl100kTokenizer

open Lib.PairMerge

/-! ## What a merge writes -/

section Merge

variable {nodes : List Node} {i j : Nat}

theorem nodeAt_modify_self (hi : i < nodes.length) (f : Node → Node) :
    nodeAt (nodes.modify i f) i = f (nodeAt nodes i) := by
  rw [nodeAt_modify, if_pos ⟨rfl, hi⟩]

theorem nodeAt_modify_ne (f : Node → Node) {k : Nat} (hk : k ≠ i) :
    nodeAt (nodes.modify i f) k = nodeAt nodes k := by
  rw [nodeAt_modify, if_neg fun h => hk h.1.symm]

/-- An update that keeps a field. -/
theorem field_modify {α : Type} (g : Node → α) {f : Node → Node} (hf : ∀ node, g (f node) = g node)
    (k : Nat) : g (nodeAt (nodes.modify i f) k) = g (nodeAt nodes k) := by
  rw [nodeAt_modify]
  split
  · exact hf _
  · rfl

theorem length_merge : (merge nodes i j).length = nodes.length := by
  unfold merge
  dsimp only
  split <;> simp only [List.length_modify]

variable (hi : i < nodes.length) (hj : j < nodes.length) (hne : i ≠ j) (k : Nat)
include hi hj hne

/-- Two updates at different places. -/
theorem nodeAt_modify_modify (f g : Node → Node) :
    nodeAt ((nodes.modify i f).modify j g) k =
      if k = i then f (nodeAt nodes k) else if k = j then g (nodeAt nodes k) else nodeAt nodes k := by
  by_cases hki : k = i
  · rw [if_pos hki, hki, nodeAt_modify_ne _ hne, nodeAt_modify_self hi]
  · rw [if_neg hki]
    by_cases hkj : k = j
    · rw [if_pos hkj, hkj, nodeAt_modify_self (by rwa [List.length_modify]), nodeAt_modify_ne _ hne.symm]
    · rw [if_neg hkj, nodeAt_modify_ne _ hkj, nodeAt_modify_ne _ hki]

theorem nodeAt_merge :
    nodeAt (merge nodes i j) k =
      let node :=
        if k = i then ((nodeAt nodes k).grow (nodeAt nodes j).len).setNext (nodeAt nodes j).next
        else if k = j then (nodeAt nodes k).retire
        else nodeAt nodes k
      if k = (nodeAt nodes j).next ∧ k ≠ kNone ∧ k < nodes.length then node.setPrev i else node := by
  unfold merge
  dsimp only
  have hlength : ((nodes.modify i (·.grow (nodeAt nodes j).len)).modify j Node.retire).length =
      nodes.length := by rw [List.length_modify, List.length_modify]
  have hnode := nodeAt_modify_modify hi hj hne k (·.grow (nodeAt nodes j).len) Node.retire
  have hnext : (nodeAt ((nodes.modify i (·.grow (nodeAt nodes j).len)).modify j Node.retire) j).next
      = (nodeAt nodes j).next :=
    (field_modify (f := Node.retire) Node.next (fun _ => rfl) j).trans
      (field_modify (f := (·.grow (nodeAt nodes j).len)) Node.next (fun _ => rfl) j)
  generalize (nodes.modify i (·.grow (nodeAt nodes j).len)).modify j Node.retire = retired at *
  rw [hnext, nodeAt_modify_ne _ hne.symm, hnext]
  have hlinked : nodeAt (retired.modify i (·.setNext (nodeAt nodes j).next)) k =
      if k = i then ((nodeAt nodes k).grow (nodeAt nodes j).len).setNext (nodeAt nodes j).next
      else if k = j then (nodeAt nodes k).retire
      else nodeAt nodes k := by
    by_cases hki : k = i
    · rw [hki, if_pos rfl] at hnode ⊢
      rw [nodeAt_modify_self (by rwa [hlength]), hnode]
    · rw [if_neg hki] at hnode ⊢
      rw [nodeAt_modify_ne _ hki, hnode]
  by_cases hnone : (nodeAt nodes j).next = kNone
  · rw [if_pos hnone, hlinked]
    exact (if_neg fun h => h.2.1 (h.1.trans hnone)).symm
  · rw [if_neg hnone, nodeAt_modify, hlinked, List.length_modify, hlength]
    apply if_congr _ rfl rfl
    constructor
    · rintro ⟨rfl, hk⟩
      exact ⟨rfl, hnone, hk⟩
    · rintro ⟨rfl, -, hk⟩
      exact ⟨rfl, hk⟩

theorem start_merge : (nodeAt (merge nodes i j) k).start = (nodeAt nodes k).start := by
  rw [nodeAt_merge hi hj hne]
  dsimp only
  split_ifs <;> rfl

theorem len_merge : (nodeAt (merge nodes i j) k).len =
    if k = i then ((nodeAt nodes k).len + (nodeAt nodes j).len) % 2 ^ 32
    else (nodeAt nodes k).len := by
  rw [nodeAt_merge hi hj hne]
  dsimp only
  split_ifs <;> rfl

theorem active_merge : (nodeAt (merge nodes i j) k).active =
    if k = j then false else (nodeAt nodes k).active := by
  rw [nodeAt_merge hi hj hne]
  dsimp only
  split_ifs <;> first | rfl | omega

theorem next_merge : (nodeAt (merge nodes i j) k).next =
    if k = i then (nodeAt nodes j).next else (nodeAt nodes k).next := by
  rw [nodeAt_merge hi hj hne]
  dsimp only
  split_ifs <;> rfl

theorem prev_merge : (nodeAt (merge nodes i j) k).prev =
    if k = (nodeAt nodes j).next ∧ k ≠ kNone ∧ k < nodes.length then i
    else (nodeAt nodes k).prev := by
  rw [nodeAt_merge hi hj hne]
  dsimp only
  split_ifs <;> rfl

end Merge

/-! ## The list of active nodes -/

def textAt (piece : Bytes) (nodes : List Node) (i : Nat) : Bytes :=
  Lib.Search.substr piece (nodeAt nodes i).start (nodeAt nodes i).len

/-- Node `b` stands right behind node `a`. -/
structure Follows (nodes : List Node) (a b : Nat) : Prop where
  next : (nodeAt nodes a).next = b
  prev : (nodeAt nodes b).prev = a
  start : (nodeAt nodes a).start + (nodeAt nodes a).len = (nodeAt nodes b).start
  lt : a < b

/-- `chain` lists the active nodes, each beginning where the one before it ends. -/
structure Linked (piece : Bytes) (nodes : List Node) (chain : List Nat) : Prop where
  length : nodes.length = piece.length
  active : ∀ i, (nodeAt nodes i).active = true ↔ i ∈ chain
  head : chain.head? = some 0
  first : (nodeAt nodes 0).prev = kNone
  last : ∀ i ∈ chain.getLast?, (nodeAt nodes i).next = kNone
  within : ∀ i ∈ chain, (nodeAt nodes i).start + (nodeAt nodes i).len ≤ piece.length
  follows : chain.IsChain (Follows nodes)

section Linked

variable {piece : Bytes} {nodes : List Node} {chain front back : List Nat} {i j : Nat}

theorem Linked.lt (h : Linked piece nodes chain) (hi : i ∈ chain) : i < nodes.length :=
  lt_of_active ((h.active i).mpr hi)

theorem Linked.sorted (h : Linked piece nodes chain) : chain.Pairwise (· < ·) :=
  List.isChain_iff_pairwise.mp (h.follows.imp fun _ _ h => h.lt)

theorem Linked.length_le (h : Linked piece nodes chain) : chain.length ≤ piece.length := by
  have hnodup : chain.Nodup := h.sorted.imp fun hlt => Nat.ne_of_lt hlt
  have hrange : chain ⊆ List.range nodes.length := fun i hi => List.mem_range.mpr (h.lt hi)
  have hlength := (List.subperm_of_subset hnodup hrange).length_le
  rwa [List.length_range, h.length] at hlength

theorem Linked.lt_of_front (h : Linked piece nodes (front ++ i :: back)) {a : Nat}
    (ha : a ∈ front) : a < i :=
  (List.pairwise_append.mp h.sorted).2.2 a ha i List.mem_cons_self

theorem Linked.lt_of_back (h : Linked piece nodes (front ++ i :: back)) {b : Nat}
    (hb : b ∈ back) : i < b :=
  (List.pairwise_cons.mp (List.pairwise_append.mp h.sorted).2.1).1 b hb

theorem Linked.le_of_mem (h : Linked piece nodes (front ++ i :: back)) {a : Nat}
    (ha : a ∈ front ++ [i]) : a ≤ i := by
  rcases List.mem_append.mp ha with ha | ha
  · exact Nat.le_of_lt (h.lt_of_front ha)
  · rw [List.mem_singleton.mp ha]

/-- The list, split one node further back. -/
theorem Linked.shift (h : Linked piece nodes (front ++ i :: back)) :
    Linked piece nodes ((front ++ [i]) ++ back) := by
  rwa [List.append_assoc, List.singleton_append]

theorem Linked.between (h : Linked piece nodes (front ++ i :: j :: back)) : Follows nodes i j :=
  (List.isChain_append_cons_cons.mp h.follows).2.1

theorem Linked.next_eq (h : Linked piece nodes (front ++ i :: back)) :
    (nodeAt nodes i).next = back.headD kNone := by
  cases back with
  | nil => exact h.last i (by simp)
  | cons j back => exact h.between.next

theorem Linked.prev_eq (h : Linked piece nodes (front ++ i :: back)) :
    (nodeAt nodes i).prev = front.getLastD kNone := by
  induction front using List.reverseRecOn with
  | nil =>
      obtain rfl : i = 0 := Option.some.inj h.head
      exact h.first
  | append_singleton front p _ =>
      rw [List.append_assoc, List.singleton_append] at h
      rw [h.between.prev, List.getLastD_concat]

/-- A pair beside the merged one stays a pair. -/
theorem Follows.merged {a b : Nat} (hi : i < nodes.length) (hj : j < nodes.length) (hne : i ≠ j)
    (h : Follows nodes a b) (ha : a ≠ i) (hb : b ≠ (nodeAt nodes j).next) :
    Follows (merge nodes i j) a b where
  next := by rw [next_merge hi hj hne, if_neg ha, h.next]
  prev := by rw [prev_merge hi hj hne, if_neg fun hnext => hb hnext.1, h.prev]
  start := by
    rw [start_merge hi hj hne, start_merge hi hj hne, len_merge hi hj hne, if_neg ha, h.start]
  lt := h.lt

variable (hpiece : piece.length < kNone)
include hpiece

theorem Linked.ne_kNone (h : Linked piece nodes chain) (hi : i ∈ chain) : i ≠ kNone := by
  have hlt := h.lt hi
  rw [h.length] at hlt
  omega

/-- The lengths of two neighbours add up without a wrap. -/
theorem Linked.sum_len (h : Linked piece nodes (front ++ i :: j :: back)) :
    ((nodeAt nodes i).len + (nodeAt nodes j).len) % 2 ^ 32 =
      (nodeAt nodes i).len + (nodeAt nodes j).len := by
  have hstart := h.between.start
  have hwithin := h.within j (by simp)
  apply Nat.mod_eq_of_lt
  unfold kNone at hpiece
  omega

theorem Linked.candidate_eq (h : Linked piece nodes (front ++ i :: j :: back)) :
    candidate piece (nodeAt nodes i) (nodeAt nodes j) =
      textAt piece nodes i ++ textAt piece nodes j := by
  rw [candidate, h.sum_len hpiece, textAt, textAt, Lib.Search.substr, Lib.Search.substr,
    Lib.Search.substr, List.take_add, List.drop_drop, h.between.start]

omit hpiece in
theorem Linked.active_merged (h : Linked piece nodes (front ++ i :: j :: back)) (k : Nat) :
    (nodeAt (merge nodes i j) k).active = true ↔ k ∈ front ++ i :: back := by
  have hi := h.lt (i := i) (by simp)
  have hj := h.lt (i := j) (by simp)
  have hne : i ≠ j := Nat.ne_of_lt h.between.lt
  rw [active_merge hi hj hne]
  by_cases hk : k = j
  · subst hk
    rw [if_pos rfl]
    apply iff_of_false Bool.false_ne_true
    intro hmem
    rcases List.mem_append.mp hmem with hmem | hmem
    · exact Nat.lt_irrefl k (h.shift.lt_of_front (List.mem_append_left _ hmem))
    · rcases List.mem_cons.mp hmem with hmem | hmem
      · exact hne hmem.symm
      · exact Nat.lt_irrefl k (h.shift.lt_of_back hmem)
  · rw [if_neg hk, h.active]
    simp [hk]

/-- What comes behind `j` is further back in the piece, also when it is nothing. -/
theorem Linked.lt_next (h : Linked piece nodes (front ++ j :: back)) :
    j < (nodeAt nodes j).next := by
  rw [h.next_eq]
  cases back with
  | nil =>
      have hj := h.lt (i := j) (by simp)
      exact Nat.lt_of_lt_of_le hj (h.length.trans_le (Nat.le_of_lt hpiece))
  | cons c back => exact h.lt_of_back List.mem_cons_self

omit hpiece in
theorem Linked.last_merged (h : Linked piece nodes (front ++ i :: j :: back)) :
    ∀ l ∈ (front ++ i :: back).getLast?, (nodeAt (merge nodes i j) l).next = kNone := by
  intro l hl
  have hlt := h.between.lt
  rw [next_merge (h.lt (by simp)) (h.lt (by simp)) (Nat.ne_of_lt hlt)]
  cases back with
  | nil =>
      rw [List.getLast?_concat] at hl
      rw [if_pos (Option.some.inj hl).symm]
      exact h.shift.next_eq
  | cons c back =>
      have hmem : l ∈ (c :: back).getLast? := by simpa using hl
      have hbehind := h.shift.lt_of_back (List.mem_of_getLast? hmem)
      rw [if_neg (by omega)]
      exact h.last l (by simpa using hl)

theorem Linked.within_merged (h : Linked piece nodes (front ++ i :: j :: back)) :
    ∀ k ∈ front ++ i :: back,
      (nodeAt (merge nodes i j) k).start + (nodeAt (merge nodes i j) k).len ≤ piece.length := by
  intro k hk
  have hi := h.lt (i := i) (by simp)
  have hj := h.lt (i := j) (by simp)
  have hne : i ≠ j := Nat.ne_of_lt h.between.lt
  rw [start_merge hi hj hne, len_merge hi hj hne]
  by_cases hki : k = i
  · have hstart := h.between.start
    have hwithin := h.within j (by simp)
    rw [if_pos hki, hki, h.sum_len hpiece]
    omega
  · rw [if_neg hki]
    apply h.within k
    rcases List.mem_append.mp hk with hk | hk
    · exact List.mem_append_left _ hk
    · simp [(List.mem_cons.mp hk).resolve_left hki]

/-- The two pairs that the new node is in. -/
theorem Linked.follows_merged (h : Linked piece nodes (front ++ i :: j :: back)) :
    (front ++ i :: back).IsChain (Follows (merge nodes i j)) := by
  have hi := h.lt (i := i) (by simp)
  have hj := h.lt (i := j) (by simp)
  have hij := h.between
  have hne : i ≠ j := Nat.ne_of_lt hij.lt
  have hbehind := h.shift.lt_next hpiece
  have hchain := List.isChain_append_cons_cons.mp h.follows
  apply List.isChain_split.mpr
  constructor
  · apply hchain.1.imp_of_mem_imp
    intro a b ha hb hab
    have hle := h.le_of_mem hb
    have hlt := hab.lt
    have hijlt := hij.lt
    exact hab.merged hi hj hne (by omega) (by omega)
  · cases back with
    | nil => exact .singleton i
    | cons c back =>
        obtain ⟨hjc, htail⟩ := List.isChain_cons_cons.mp hchain.2.2
        have hcnext : (nodeAt nodes j).next = c := hjc.next
        have hc := h.lt (i := c) (by simp)
        refine List.isChain_cons_cons.mpr ⟨⟨?_, ?_, ?_, hij.lt.trans hjc.lt⟩, ?_⟩
        · rw [next_merge hi hj hne, if_pos rfl, hcnext]
        · rw [prev_merge hi hj hne, if_pos ⟨hcnext.symm, h.ne_kNone hpiece (by simp), hc⟩]
        · rw [start_merge hi hj hne, start_merge hi hj hne, len_merge hi hj hne, if_pos rfl,
            h.sum_len hpiece, ← hjc.start, ← hij.start, Nat.add_assoc]
        · apply htail.imp_of_mem_imp
          intro a b ha _ hab
          have hlt := hab.lt
          have hle : c ≤ a := by
            rcases List.mem_cons.mp ha with rfl | ha
            · exact le_rfl
            · exact Nat.le_of_lt (h.shift.shift.lt_of_back ha)
          have hijlt := hij.lt
          have hcj := hjc.lt
          exact hab.merged hi hj hne (by omega) (by rw [hcnext]; omega)

/-- The neighbours `i` and `j` become one node. -/
theorem Linked.merged (h : Linked piece nodes (front ++ i :: j :: back)) :
    Linked piece (merge nodes i j) (front ++ i :: back) where
  length := by rw [← h.length, length_merge]
  active := h.active_merged
  head := by
    have hhead := h.head
    cases front <;> simpa using hhead
  first := by
    have hbehind := h.shift.lt_next hpiece
    rw [prev_merge (h.lt (by simp)) (h.lt (by simp)) (Nat.ne_of_lt h.between.lt),
      if_neg fun hzero => by omega, h.first]
  last := h.last_merged
  within := h.within_merged hpiece
  follows := h.follows_merged hpiece

theorem Linked.textAt_merge (h : Linked piece nodes (front ++ i :: j :: back)) (k : Nat) :
    textAt piece (merge nodes i j) k =
      if k = i then textAt piece nodes i ++ textAt piece nodes j else textAt piece nodes k := by
  have hi := h.lt (i := i) (by simp)
  have hj := h.lt (i := j) (by simp)
  have hne : i ≠ j := Nat.ne_of_lt h.between.lt
  rw [textAt, start_merge hi hj hne, len_merge hi hj hne]
  by_cases hk : k = i
  · rw [if_pos hk, if_pos hk, hk]
    exact h.candidate_eq hpiece
  · rw [if_neg hk, if_neg hk]
    rfl

theorem Linked.map_textAt_merge (h : Linked piece nodes (front ++ i :: j :: back)) :
    (front ++ i :: back).map (textAt piece (merge nodes i j)) =
      front.map (textAt piece nodes) ++ (textAt piece nodes i ++ textAt piece nodes j) ::
        back.map (textAt piece nodes) := by
  rw [List.map_append, List.map_cons, h.textAt_merge hpiece, if_pos rfl]
  congr 1
  · apply List.map_congr_left
    intro a ha
    rw [h.textAt_merge hpiece, if_neg (Nat.ne_of_lt (h.lt_of_front ha))]
  · congr 1
    apply List.map_congr_left
    intro a ha
    have hlt := h.lt_of_back (List.mem_cons_of_mem j ha)
    rw [h.textAt_merge hpiece, if_neg (Nat.ne_of_lt hlt).symm]

end Linked

/-! ## The queue -/

/-- The rank of two neighbours is in the queue, if they have one. -/
def Queued (ranks : RankMap) (piece : Bytes) (nodes : List Node) (heap : Lib.MinHeap MergePair)
    (a b : Nat) : Prop :=
  ∀ r, ranks.find (textAt piece nodes a ++ textAt piece nodes b) = some r →
    (⟨r, a⟩ : MergePair) ∈ heap

section Queue

variable {ranks : RankMap} {piece : Bytes} {nodes : List Node} {heap : Lib.MinHeap MergePair}
  {chain front back : List Nat} {i j : Nat}

theorem mem_pushPair_of_mem {entry : MergePair} (h : entry ∈ heap) (i : Nat) :
    entry ∈ pushPair ranks piece nodes heap i := by
  unfold pushPair
  dsimp only
  split
  · exact h
  · split
    · exact h
    · split
      · exact Lib.MinHeap.mem_push.mpr (Or.inr h)
      · exact h

theorem Queued.pushed {a b : Nat} (h : Queued ranks piece nodes heap a b) (i : Nat) :
    Queued ranks piece nodes (pushPair ranks piece nodes heap i) a b := fun r hr =>
  mem_pushPair_of_mem (h r hr) i

/-- Queueing node `i` queues it with the node behind it. -/
theorem queued_pushPair (hpiece : piece.length < kNone)
    (h : Linked piece nodes (front ++ i :: j :: back)) :
    Queued ranks piece nodes (pushPair ranks piece nodes heap i) i j := by
  intro r hr
  have hactive := (h.active i).mpr (by simp)
  have hactive' := (h.active j).mpr (by simp)
  have hi := h.ne_kNone hpiece (i := i) (by simp)
  have hj := h.ne_kNone hpiece (i := j) (by simp)
  unfold pushPair
  simp only [h.between.next, hactive, hactive', hi, hj, h.candidate_eq hpiece, hr, or_self,
    Bool.true_eq_false, if_false]
  exact Lib.MinHeap.mem_push.mpr (Or.inl rfl)

/-- The state between two rounds of the loop. -/
structure Ready (ranks : RankMap) (piece : Bytes) (nodes : List Node)
    (heap : Lib.MinHeap MergePair) (chain : List Nat) : Prop where
  linked : Linked piece nodes chain
  queued : chain.IsChain (Queued ranks piece nodes heap)

theorem Ready.between (h : Ready ranks piece nodes heap (front ++ i :: j :: back)) :
    Queued ranks piece nodes heap i j :=
  (List.isChain_append_cons_cons.mp h.queued).2.1

variable {top : MergePair} {rest : Lib.MinHeap MergePair} (hpiece : piece.length < kNone)
  (hpop : heap.pop = some (top, rest))
include hpiece hpop

/-- A stale entry belongs to no pair of the list. -/
theorem Ready.drop (h : Ready ranks piece nodes heap chain)
    (hstale : stale ranks piece nodes top = true) : Ready ranks piece nodes rest chain := by
  refine ⟨h.linked, List.isChain_iff_forall_rel_of_append_cons_cons.mpr ?_⟩
  rintro a b front back rfl r hr
  rcases ((Lib.MinHeap.pop_eq_some hpop).1 _).mp (h.between r hr) with htop | hrest
  · have hfollows := h.linked.between
    have hactive := (h.linked.active a).mpr (by simp)
    have hactive' := (h.linked.active b).mpr (by simp)
    have hb := h.linked.ne_kNone hpiece (i := b) (by simp)
    have hcandidate := h.linked.candidate_eq hpiece
    rw [← htop] at hstale
    simp [stale, hfollows.next, hactive, hactive', hb, hcandidate, hr] at hstale
  · exact hrest

/-- An entry that is not stale is the pair to join next. -/
theorem Ready.best (h : Ready ranks piece nodes heap chain)
    (hstale : stale ranks piece nodes top = false) :
    ∃ front j back, chain = front ++ top.index :: j :: back ∧
      (nodeAt nodes top.index).next = j ∧
      Best ranks.find (front.map (textAt piece nodes))
        (textAt piece nodes top.index) (textAt piece nodes j) (back.map (textAt piece nodes))
        top.rank := by
  obtain ⟨hactive, hnone, -, hrank⟩ := active_of_not_stale hstale
  obtain ⟨front, behind, rfl⟩ := List.append_of_mem ((h.linked.active _).mp hactive)
  have hnext := h.linked.next_eq
  cases behind with
  | nil => exact absurd hnext hnone
  | cons j back =>
      have hnext : (nodeAt nodes top.index).next = j := hnext
      have hqueued := List.isChain_append_cons_cons.mp h.queued
      have hleast : ∀ {a b r}, Queued ranks piece nodes heap a b →
          ranks.find (textAt piece nodes a ++ textAt piece nodes b) = some r →
          top.rank < r ∨ top.rank = r ∧ top.index ≤ a := fun hab hr =>
        MergePair.le_iff.mp ((Lib.MinHeap.pop_eq_some hpop).2.1 _ (hab _ hr))
      refine ⟨front, j, back, rfl, hnext, ⟨?_, ?_, ?_⟩⟩
      · rw [← hrank, hnext, h.linked.candidate_eq hpiece]
      · -- an equal rank further left would have come first
        rw [← List.map_singleton, ← List.map_append]
        refine (List.isChain_map _).mpr (List.isChain_iff_forall_rel_of_append_cons_cons.mpr ?_)
        intro a b l l' heq r hr
        have hchain := (List.isChain_append_cons_cons.mp h.linked.follows).1
        have hle := h.linked.le_of_mem (a := b) (by simp [heq])
        rw [heq] at hchain hqueued
        have hlt := (List.isChain_append_cons_cons.mp hchain).2.1.lt
        have hab := hleast (List.isChain_append_cons_cons.mp hqueued.1).2.1 hr
        omega
      · rw [← List.map_cons]
        refine (List.isChain_map _).mpr (hqueued.2.2.imp fun a b hab r hr => ?_)
        have hleast := hleast hab hr
        omega

/-- After a merge the two new pairs are queued. -/
theorem Ready.merged (h : Ready ranks piece nodes heap (front ++ top.index :: j :: back)) :
    let merged := merge nodes top.index j
    let queued := pushPair ranks piece merged rest (nodeAt merged top.index).prev
    Ready ranks piece merged (pushPair ranks piece merged queued top.index)
      (front ++ top.index :: back) := by
  intro merged queued
  have hlinked := h.linked.merged hpiece
  have hqueued := List.isChain_append_cons_cons.mp h.queued
  have hold : ∀ {a b}, a ≠ top.index → b ≠ top.index → Queued ranks piece nodes heap a b →
      Queued ranks piece merged (pushPair ranks piece merged queued top.index) a b := by
    intro a b ha hb hab r hr
    rw [h.linked.textAt_merge hpiece, h.linked.textAt_merge hpiece, if_neg ha, if_neg hb] at hr
    have hmem := ((Lib.MinHeap.pop_eq_some hpop).1 _).mp (hab r hr)
    have hrest := hmem.resolve_left fun htop => ha (congrArg MergePair.index htop)
    exact mem_pushPair_of_mem (mem_pushPair_of_mem hrest _) _
  refine ⟨hlinked, List.isChain_split.mpr ⟨?_, ?_⟩⟩
  · cases front using List.reverseRecOn with
    | nil => exact .singleton _
    | append_singleton front p =>
        have hne : ∀ a ∈ front ++ [p], a ≠ top.index := fun a ha =>
          Nat.ne_of_lt (h.linked.lt_of_front ha)
        have hprev : (nodeAt merged top.index).prev = p := by
          rw [hlinked.prev_eq, List.getLastD_concat]
        rw [List.append_assoc, List.singleton_append] at hlinked hqueued ⊢
        refine List.isChain_append_cons_cons.mpr ⟨?_, ?_, .singleton _⟩
        · exact (List.isChain_append_cons_cons.mp hqueued.1).1.imp_of_mem_imp fun a b ha hb =>
            hold (hne a ha) (hne b hb)
        · apply Queued.pushed
          change Queued ranks piece merged (pushPair ranks piece merged rest _) p top.index
          rw [hprev]
          exact queued_pushPair hpiece hlinked
  · cases back with
    | nil => exact .singleton _
    | cons c back =>
        have hne : ∀ a ∈ c :: back, a ≠ top.index := fun a ha =>
          (Nat.ne_of_lt (h.linked.lt_of_back (List.mem_cons_of_mem j ha))).symm
        refine List.isChain_cons_cons.mpr ⟨queued_pushPair hpiece hlinked, ?_⟩
        exact (List.isChain_cons_cons.mp hqueued.2.2).2.imp_of_mem_imp fun a b ha hb =>
          hold (hne a ha) (hne b hb)

omit hpop

theorem Ready.reduces (h : Ready ranks piece nodes heap chain) :
    ∃ chain', Linked piece (mergeLoop ranks piece nodes heap) chain' ∧
      Reduces ranks.find (chain.map (textAt piece nodes))
        (chain'.map (textAt piece (mergeLoop ranks piece nodes heap))) := by
  fun_induction mergeLoop ranks piece nodes heap generalizing chain with
  | case1 nodes heap hpop =>
      refine ⟨chain, h.linked, .done ((List.isChain_map _).mpr (h.queued.imp ?_))⟩
      intro a b hab r hr
      exact Lib.MinHeap.not_mem_of_pop_eq_none hpop (hab r hr)
  | case2 nodes heap top rest hpop hstale ih => exact ih (h.drop hpiece hpop hstale)
  | case3 =>
      rename_i nodes heap top rest hpop hstale merged queued ih
      obtain ⟨front, j, back, rfl, hnext, hbest⟩ :=
        h.best hpiece hpop (Bool.eq_false_iff.mpr hstale)
      subst hnext
      obtain ⟨chain', hlinked, hreduces⟩ := ih (h.merged hpiece hpop)
      rw [h.linked.map_textAt_merge hpiece] at hreduces
      rw [List.map_append, List.map_cons, List.map_cons]
      exact ⟨chain', hlinked, .join hbest hreduces⟩

end Queue

/-! ## The two ends of the loop -/

section Ends

variable {ranks : RankMap} {piece : Bytes} {nodes : List Node} {front behind : List Nat}

/-- From any node on, the walk along the list looks up what is left of it. -/
theorem collect_eq (hpiece : piece.length < kNone) (h : Linked piece nodes (front ++ behind))
    {fuel : Nat} (hfuel : behind.length < fuel) :
    collect ranks piece nodes fuel (behind.headD kNone) =
      ((behind.map (textAt piece nodes)).mapM ranks.find).elim (.error notInRanks) .ok := by
  induction behind generalizing front fuel with
  | nil =>
      obtain ⟨fuel, rfl⟩ := Nat.exists_eq_add_one_of_ne_zero (Nat.ne_zero_of_lt hfuel)
      rfl
  | cons a behind ih =>
      obtain ⟨fuel, rfl⟩ := Nat.exists_eq_add_one_of_ne_zero (Nat.ne_zero_of_lt hfuel)
      have hactive := (h.active a).mpr (by simp)
      have hnone := h.ne_kNone hpiece (i := a) (by simp)
      have hnext := h.next_eq
      have hlater := ih h.shift (Nat.lt_of_succ_lt_succ hfuel)
      have hid : ranks.find (Lib.Search.substr piece (nodeAt nodes a).start (nodeAt nodes a).len) =
          ranks.find (textAt piece nodes a) := rfl
      simp only [collect, List.headD_cons, hnone, hactive, Bool.true_eq_false, if_false, hnext,
        hlater, hid, List.map_cons, List.mapM_cons]
      cases ranks.find (textAt piece nodes a) with
      | none => rfl
      | some id => cases (behind.map (textAt piece nodes)).mapM ranks.find <;> rfl

theorem nodeAt_initialNodes {n i : Nat} (hi : i < n) :
    nodeAt (initialNodes n) i =
      { start := i
        len := 1
        prev := if i = 0 then kNone else i - 1
        next := if i + 1 < n then i + 1 else kNone
        active := true } := by
  simp [nodeAt, initialNodes, hi]

theorem linked_initialNodes (hne : piece ≠ []) :
    Linked piece (initialNodes piece.length) (List.range piece.length) := by
  obtain ⟨n, hn⟩ := Nat.exists_eq_add_one_of_ne_zero (List.length_pos_iff.mpr hne).ne'
  rw [hn]
  have hactive : ∀ i, (nodeAt (initialNodes (n + 1)) i).active = true ↔ i ∈ List.range (n + 1) := by
    intro i
    rw [List.mem_range]
    constructor
    · intro hactive
      simpa [initialNodes] using lt_of_active hactive
    · intro hi
      rw [nodeAt_initialNodes hi]
  refine ⟨by simp [initialNodes, hn], hactive, by rw [List.range_succ_eq_map]; rfl, ?_, ?_, ?_, ?_⟩
  · rw [nodeAt_initialNodes (Nat.succ_pos n)]
    rfl
  · intro i hi
    rw [List.range_succ, List.getLast?_concat] at hi
    obtain rfl := Option.some.inj hi
    rw [nodeAt_initialNodes (Nat.lt_succ_self n)]
    exact if_neg (Nat.lt_irrefl _)
  · intro i hi
    rw [nodeAt_initialNodes (List.mem_range.mp hi), hn]
    exact List.mem_range.mp hi
  · apply (List.isChain_range_succ _ n).mpr
    intro i hi
    refine ⟨?_, ?_, ?_, Nat.lt_succ_self i⟩
    · rw [nodeAt_initialNodes (by omega)]
      exact if_pos (by omega)
    · rw [nodeAt_initialNodes (by omega)]
      rfl
    · rw [nodeAt_initialNodes (by omega), nodeAt_initialNodes (by omega)]
      rfl

theorem textAt_initialNodes (piece : Bytes) :
    (List.range piece.length).map (textAt piece (initialNodes piece.length)) =
      piece.map fun c => [c] := by
  apply List.ext_getElem (by simp)
  intro i hi hi'
  have hlt : i < piece.length := by simpa using hi
  rw [List.getElem_map, List.getElem_map, List.getElem_range, textAt, nodeAt_initialNodes hlt,
    Lib.Search.substr, List.drop_eq_getElem_cons hlt]
  rfl

theorem Queued.foldl {heap : Lib.MinHeap MergePair} {a b : Nat}
    (h : Queued ranks piece nodes heap a b) (places : List Nat) :
    Queued ranks piece nodes (places.foldl (pushPair ranks piece nodes) heap) a b := by
  induction places generalizing heap with
  | nil => exact h
  | cons i places ih => exact ih (h.pushed i)

theorem queued_foldl {places : List Nat} {a : Nat} (ha : a ∈ places) {b : Nat}
    (h : ∀ heap, Queued ranks piece nodes (pushPair ranks piece nodes heap a) a b)
    (heap : Lib.MinHeap MergePair) :
    Queued ranks piece nodes (places.foldl (pushPair ranks piece nodes) heap) a b := by
  obtain ⟨front, behind, rfl⟩ := List.append_of_mem ha
  rw [List.foldl_append, List.foldl_cons]
  exact (h _).foldl behind

/-- Before the first round every pair of neighbours is queued. -/
theorem ready_initialNodes (hpiece : piece.length < kNone) (hne : piece ≠ []) :
    Ready ranks piece (initialNodes piece.length)
      ((List.range (piece.length - 1)).foldl (pushPair ranks piece (initialNodes piece.length))
        Lib.MinHeap.empty)
      (List.range piece.length) := by
  have hlinked := linked_initialNodes hne
  refine ⟨hlinked, List.isChain_iff_forall_rel_of_append_cons_cons.mpr ?_⟩
  intro a b front behind heq
  rw [heq] at hlinked
  have hb : b < piece.length := by
    rw [← List.mem_range, heq]
    simp
  have hlt := hlinked.between.lt
  exact queued_foldl (List.mem_range.mpr (by omega)) (fun _ => queued_pushPair hpiece hlinked) _

end Ends

end Cl100kTokenizer
end LlmTop
