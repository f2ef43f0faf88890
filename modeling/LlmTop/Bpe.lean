import LlmTop.Bytes
import LlmTop.Lib.MinHeap
import Mathlib.Data.List.AList

/-!
# Byte-pair merging

`Cl100kTokenizer::bpe` with its node list and its queue of candidate pairs, and
the naive procedure that the tests compare it with.
-/
namespace LlmTop
namespace Cl100kTokenizer

/-- `ranks_`: the vocabulary, byte strings with their ids. -/
abbrev RankMap := AList fun _ : Bytes => Int

def RankMap.find (ranks : RankMap) (token : Bytes) : Option Int := ranks.lookup token

def intMax : Int := 2 ^ 31 - 1

/-- `UINT32_MAX`, the index of no node. -/
def kNone : Nat := 2 ^ 32 - 1

def notInRanks : Bytes := ascii "Cl100kTokenizer: byte sequence not in ranks"

/-! ## Candidate pairs -/

structure MergePair where
  rank : Int
  index : Nat
deriving DecidableEq, Repr

/-- `operator>`: the lower rank comes first, and the leftmost of equal ranks. -/
instance : LinearOrder MergePair where
  le a b := a.rank < b.rank ∨ a.rank = b.rank ∧ a.index ≤ b.index
  le_refl a := Or.inr ⟨rfl, le_rfl⟩
  le_trans a b c hab hbc := by omega
  le_antisymm a b hab hba := by
    obtain ⟨rank, index⟩ := a
    obtain ⟨rank', index'⟩ := b
    dsimp only at hab hba
    rw [MergePair.mk.injEq]
    omega
  le_total a b := by omega
  toDecidableLE _ _ := inferInstanceAs (Decidable (_ ∨ _))

theorem MergePair.le_iff {a b : MergePair} :
    a ≤ b ↔ a.rank < b.rank ∨ a.rank = b.rank ∧ a.index ≤ b.index := Iff.rfl

/-! ## Nodes -/

/-- The range of `len` bytes from `start`; `prev` and `next` are indices of nodes. -/
structure Node where
  start : Nat
  len : Nat
  prev : Nat
  next : Nat
  active : Bool
deriving DecidableEq, Repr

namespace Node

def grow (node : Node) (len : Nat) : Node := { node with len := (node.len + len) % 2 ^ 32 }

def retire (node : Node) : Node := { node with active := false }

def setNext (node : Node) (next : Nat) : Node := { node with next := next }

def setPrev (node : Node) (prev : Nat) : Node := { node with prev := prev }

end Node

def nodeAt (nodes : List Node) (i : Nat) : Node :=
  nodes.getD i { start := 0, len := 0, prev := kNone, next := kNone, active := false }

def initialNodes (n : Nat) : List Node :=
  (List.range n).map fun i =>
    { start := i
      len := 1
      prev := if i = 0 then kNone else i - 1
      next := if i + 1 < n then i + 1 else kNone
      active := true }

/-- The bytes of two neighbours. -/
def candidate (piece : Bytes) (a b : Node) : Bytes :=
  Lib.Search.substr piece a.start ((a.len + b.len) % 2 ^ 32)

def pushPair (ranks : RankMap) (piece : Bytes) (nodes : List Node) (heap : Lib.MinHeap MergePair)
    (i : Nat) : Lib.MinHeap MergePair :=
  let node := nodeAt nodes i
  if i = kNone ∨ node.active = false then heap
  else if node.next = kNone ∨ (nodeAt nodes node.next).active = false then heap
  else
    match ranks.find (candidate piece node (nodeAt nodes node.next)) with
    | some rank => heap.push ⟨rank, i⟩
    | none => heap

/-- The entry was queued for a pair that is gone. -/
def stale (ranks : RankMap) (piece : Bytes) (nodes : List Node) (top : MergePair) : Bool :=
  let node := nodeAt nodes top.index
  !node.active || node.next == kNone || !(nodeAt nodes node.next).active ||
    ranks.find (candidate piece node (nodeAt nodes node.next)) != some top.rank

/-- Node `i` takes over the range of its neighbour `j`, which is retired. -/
def merge (nodes : List Node) (i j : Nat) : List Node :=
  let nodes := nodes.modify i (·.grow (nodeAt nodes j).len)
  let nodes := nodes.modify j Node.retire
  let nodes := nodes.modify i (·.setNext (nodeAt nodes j).next)
  if (nodeAt nodes j).next = kNone then nodes
  else nodes.modify (nodeAt nodes j).next (·.setPrev i)

/-! ## Termination of the loop -/

theorem nodeAt_modify (nodes : List Node) (f : Node → Node) (i j : Nat) :
    nodeAt (nodes.modify i f) j =
      if i = j ∧ j < nodes.length then f (nodeAt nodes j) else nodeAt nodes j := by
  simp only [nodeAt, List.getD_eq_getElem?_getD, List.getElem?_modify]
  by_cases hj : j < nodes.length
  · by_cases hij : i = j <;> simp [hij, hj]
  · simp [hj]

theorem lt_of_active {nodes : List Node} {i : Nat} (h : (nodeAt nodes i).active = true) :
    i < nodes.length := by
  by_contra hi
  rw [nodeAt, List.getD_eq_getElem?_getD, List.getElem?_eq_none (Nat.le_of_not_lt hi)] at h
  exact absurd h Bool.false_ne_true

theorem countP_modify (nodes : List Node) {f : Node → Node}
    (hf : ∀ node, (f node).active = node.active) (i : Nat) :
    (nodes.modify i f).countP Node.active = nodes.countP Node.active := by
  induction nodes generalizing i with
  | nil => rw [List.modify_nil]
  | cons node nodes ih =>
      cases i with
      | zero => rw [List.modify_zero_cons, List.countP_cons, List.countP_cons, hf]
      | succ i => rw [List.modify_succ_cons, List.countP_cons, List.countP_cons, ih]

theorem countP_retire {nodes : List Node} {j : Nat} (hj : (nodeAt nodes j).active = true) :
    (nodes.modify j Node.retire).countP Node.active + 1 = nodes.countP Node.active := by
  induction nodes generalizing j with
  | nil => exact absurd hj Bool.false_ne_true
  | cons node nodes ih =>
      cases j with
      | zero =>
          have hactive : node.active = true := hj
          have hretired : node.retire.active = false := rfl
          rw [List.modify_zero_cons, List.countP_cons, List.countP_cons, hactive, hretired]
          simp
      | succ j =>
          rw [List.modify_succ_cons, List.countP_cons, List.countP_cons, ← ih hj]
          omega

/-- A merge retires one node. -/
theorem countP_merge {nodes : List Node} {i j : Nat} (hj : (nodeAt nodes j).active = true) :
    (merge nodes i j).countP Node.active + 1 = nodes.countP Node.active := by
  have hgrown : (nodeAt (nodes.modify i (·.grow (nodeAt nodes j).len)) j).active = true := by
    rw [nodeAt_modify]
    split <;> exact hj
  have hgrow := countP_modify nodes (f := (·.grow (nodeAt nodes j).len)) (fun _ => rfl) i
  have hnext := fun nodes next => countP_modify nodes (f := (·.setNext next)) (fun _ => rfl) i
  have hprev := fun nodes k => countP_modify nodes (f := (·.setPrev i)) (fun _ => rfl) k
  unfold merge
  dsimp only
  split
  · rw [hnext, countP_retire hgrown, hgrow]
  · rw [hprev, hnext, countP_retire hgrown, hgrow]

theorem size_pushPair_le (ranks : RankMap) (piece : Bytes) (nodes : List Node)
    (heap : Lib.MinHeap MergePair) (i : Nat) :
    (pushPair ranks piece nodes heap i).size ≤ heap.size + 1 := by
  unfold pushPair
  dsimp only
  split
  · omega
  · split
    · omega
    · split
      · rw [Lib.MinHeap.size_push]
      · omega

theorem active_of_not_stale {ranks : RankMap} {piece : Bytes} {nodes : List Node} {top : MergePair}
    (h : stale ranks piece nodes top = false) :
    (nodeAt nodes top.index).active = true ∧ (nodeAt nodes top.index).next ≠ kNone ∧
      (nodeAt nodes (nodeAt nodes top.index).next).active = true ∧
      ranks.find (candidate piece (nodeAt nodes top.index)
        (nodeAt nodes (nodeAt nodes top.index).next)) = some top.rank := by
  simpa [stale, and_assoc] using h

/-! ## The merge -/

/-- The queue is worked off.  A merge queues at most two pairs. -/
def mergeLoop (ranks : RankMap) (piece : Bytes) (nodes : List Node)
    (heap : Lib.MinHeap MergePair) : List Node :=
  match _hpop : heap.pop with
  | none => nodes
  | some (top, rest) =>
      if _hstale : stale ranks piece nodes top = true then mergeLoop ranks piece nodes rest
      else
        let merged := merge nodes top.index (nodeAt nodes top.index).next
        let queued := pushPair ranks piece merged rest (nodeAt merged top.index).prev
        mergeLoop ranks piece merged (pushPair ranks piece merged queued top.index)
termination_by 3 * nodes.countP Node.active + heap.size
decreasing_by
  · have hsize := (Lib.MinHeap.pop_eq_some _hpop).2.2
    omega
  · have hsize := (Lib.MinHeap.pop_eq_some _hpop).2.2
    have hactive := active_of_not_stale (Bool.eq_false_iff.mpr _hstale)
    have hretired := countP_merge (i := top.index) hactive.2.2.1
    have hqueued := Nat.add_le_add_right
      (size_pushPair_le ranks piece merged rest (nodeAt merged top.index).prev) 1
    refine Nat.lt_of_le_of_lt (Nat.add_le_add_left
      ((size_pushPair_le ranks piece merged queued top.index).trans hqueued) _) ?_
    omega

/-- The ids along the list from `curr`.  The fuel outlasts the list. -/
def collect (ranks : RankMap) (piece : Bytes) (nodes : List Node) :
    Nat → Nat → Except Bytes (List Int)
  | 0, _ => .error []
  | fuel + 1, curr =>
      if curr = kNone then .ok []
      else
        let node := nodeAt nodes curr
        if node.active = false then collect ranks piece nodes fuel node.next
        else
          match ranks.find (Lib.Search.substr piece node.start node.len) with
          | none => .error notInRanks
          | some id => do
              let ids ← collect ranks piece nodes fuel node.next
              .ok (id :: ids)

def bpe (ranks : RankMap) (piece : Bytes) (out : List Int) : Except Bytes (List Int) :=
  match piece with
  | [] => .ok out
  | [c] =>
      match ranks.find [c] with
      | none => .error notInRanks
      | some id => .ok (out ++ [id])
  | _ => do
      let n := piece.length % 2 ^ 32
      let nodes := initialNodes n
      let heap := (List.range (n - 1)).foldl (pushPair ranks piece nodes) Lib.MinHeap.empty
      let ids ← collect ranks piece (mergeLoop ranks piece nodes heap) (n + 1) 0
      .ok (out ++ ids)

/-! ## The reference procedure -/

/-- The rank under which part `i` and the next one can be joined. -/
def rankAt (ranks : RankMap) (parts : List Bytes) (i : Nat) : Option Int :=
  ranks.find (parts.getD i [] ++ parts.getD (i + 1) [])

def scanPair (ranks : RankMap) (parts : List Bytes) (best : Int × Option Nat) (i : Nat) :
    Int × Option Nat :=
  match rankAt ranks parts i with
  | some rank => if rank < best.1 then (rank, some i) else best
  | none => best

/-- The lowest rank of two neighbours and its leftmost place. -/
def bestPair (ranks : RankMap) (parts : List Bytes) : Int × Option Nat :=
  (List.range (parts.length - 1)).foldl (scanPair ranks parts) (intMax, none)

def joinAt (parts : List Bytes) (i : Nat) : List Bytes :=
  (parts.modify i (· ++ parts.getD (i + 1) [])).eraseIdx (i + 1)

def referenceLoop (ranks : RankMap) : Nat → List Bytes → List Bytes
  | 0, parts => parts
  | fuel + 1, parts =>
      match (bestPair ranks parts).2 with
      | none => parts
      | some i => referenceLoop ranks fuel (joinAt parts i)

/-- `reference_bpe` of the tests; `none` where `ranks.at` throws. -/
def referenceBpe (ranks : RankMap) (piece : Bytes) : Option (List Int) :=
  (referenceLoop ranks piece.length (piece.map fun c => [c])).mapM ranks.find

end Cl100kTokenizer
end LlmTop
