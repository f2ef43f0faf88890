import Mathlib.Data.List.Sort

/-!
# Priority queues

A queue that hands out a least entry first.  Which of several equal entries it
hands out cannot be seen, so it is a list in ascending order.
-/
namespace LlmTop.Lib

structure MinHeap (α : Type) [LinearOrder α] where
  entries : List α
  ordered : entries.Pairwise (· ≤ ·)

namespace MinHeap

variable {α : Type} [LinearOrder α]

instance : Membership α (MinHeap α) := ⟨fun heap entry => entry ∈ heap.entries⟩

def empty : MinHeap α := ⟨[], List.Pairwise.nil⟩

def size (heap : MinHeap α) : Nat := heap.entries.length

def push (heap : MinHeap α) (entry : α) : MinHeap α :=
  ⟨heap.entries.orderedInsert (· ≤ ·) entry, heap.ordered.orderedInsert entry _⟩

def pop (heap : MinHeap α) : Option (α × MinHeap α) :=
  match heap with
  | ⟨[], _⟩ => none
  | ⟨top :: rest, h⟩ => some (top, ⟨rest, h.of_cons⟩)

variable {heap rest : MinHeap α} {top entry : α}

@[simp] theorem mem_push {other : α} : other ∈ heap.push entry ↔ other = entry ∨ other ∈ heap :=
  List.mem_orderedInsert _

@[simp] theorem size_push : (heap.push entry).size = heap.size + 1 :=
  List.orderedInsert_length _ heap.entries entry

theorem not_mem_of_pop_eq_none (h : heap.pop = none) : entry ∉ heap := by
  obtain ⟨entries, ordered⟩ := heap
  cases entries with
  | nil => exact List.not_mem_nil
  | cons top rest => contradiction

/-- The entry that is handed out is least, and all others stay. -/
theorem pop_eq_some (h : heap.pop = some (top, rest)) :
    (∀ entry, entry ∈ heap ↔ entry = top ∨ entry ∈ rest) ∧ (∀ entry ∈ heap, top ≤ entry) ∧
      heap.size = rest.size + 1 := by
  obtain ⟨entries, ordered⟩ := heap
  cases entries with
  | nil => contradiction
  | cons first others =>
      obtain ⟨rfl, rfl⟩ := Prod.mk.inj (Option.some.inj h)
      refine ⟨fun entry => List.mem_cons, fun entry hentry => ?_, rfl⟩
      rcases List.mem_cons.mp hentry with rfl | hrest
      · exact le_rfl
      · exact (List.pairwise_cons.mp ordered).1 entry hrest

end MinHeap
end LlmTop.Lib
