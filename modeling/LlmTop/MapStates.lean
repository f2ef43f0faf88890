import LlmTop.OrderedMap
import Mathlib.Data.List.InsertIdx

/-!
# The two containers of `ordered_map`

The entries and the index as the operations of the source leave them, with
nothing assumed about how the two fit.  They are kept in step by every sequence
of operations, and the map is then an association list.
-/
namespace LlmTop

/-- `data_` and `index_`. -/
structure MapState where
  data : List (Bytes × Bytes) := []
  index : Bytes → Option Nat := fun _ => none

namespace MapState

/-- `map[key]`: the state behind it, and the position of the value it refers to. -/
def access (m : MapState) (key : Bytes) : MapState × Nat :=
  match m.index key with
  | some i => (m, i)
  | none =>
      let data := m.data ++ [(key, [])]
      ({ data, index := fun k => if k = key then some (data.length - 1) else m.index k },
        data.length - 1)

/-- A write through a reference to the value at position `i`. -/
def writeAt (m : MapState) (i : Nat) (value : Bytes) : MapState :=
  { m with data := m.data.modify i fun entry => (entry.1, value) }

/-- `map[key] = value`. -/
def write (m : MapState) (key value : Bytes) : MapState :=
  let (m, i) := m.access key
  m.writeAt i value

def insertOrAssign (m : MapState) (pair : Bytes × Bytes) : MapState :=
  match m.index pair.1 with
  | some i => m.writeAt i pair.2
  | none =>
      let data := m.data ++ [pair]
      { data, index := fun k => if k = pair.1 then some (data.length - 1) else m.index k }

/-- The position of a remaining entry once the one at `idx` is gone. -/
def renumber (idx i : Nat) : Nat := if i > idx then i - 1 else i

def erase (m : MapState) (key : Bytes) : MapState :=
  match m.index key with
  | none => m
  | some idx =>
      { data := m.data.eraseIdx idx
        index := fun k => if k = key then none else (m.index k).map (renumber idx) }

def clear (_ : MapState) : MapState := {}

/-- `find`, as the entry the iterator points to; `none` is `end()`. -/
def find (m : MapState) (key : Bytes) : Option (Bytes × Bytes) :=
  (m.index key).bind fun i => m.data[i]?

/-- `at`; `none` is the exception. -/
def valueAt (m : MapState) (key : Bytes) : Option Bytes :=
  (m.index key).bind fun i => m.data[i]?.map Prod.snd

def count (m : MapState) (key : Bytes) : Nat := if (m.index key).isSome then 1 else 0

def size (m : MapState) : Nat := m.data.length

def isEmpty (m : MapState) : Bool := m.data.isEmpty

/-- The operations that change the map. -/
inductive Op where
  | access (key : Bytes)
  | write (key value : Bytes)
  | insertOrAssign (pair : Bytes × Bytes)
  | erase (key : Bytes)
  | clear

def step (m : MapState) : Op → MapState
  | .access key => (m.access key).1
  | .write key value => m.write key value
  | .insertOrAssign pair => m.insertOrAssign pair
  | .erase key => m.erase key
  | .clear => m.clear

def run (ops : List Op) : MapState := ops.foldl step {}

/-- The index holds the keys of the entries, each with its position, and no key
has two entries. -/
structure Coherent (m : MapState) : Prop where
  distinct : (keysOf m.data).Nodup
  index_eq : ∀ key, m.index key = (keysOf m.data).idxOf? key

end MapState

/-! ## The association list -/

namespace Entries

/-- Overwrite in place, or append. -/
def write (entries : List (Bytes × Bytes)) (key value : Bytes) : List (Bytes × Bytes) :=
  if (keysOf entries).contains key then
    entries.map fun entry => if entry.1 = key then (entry.1, value) else entry
  else entries ++ [(key, value)]

def erase (entries : List (Bytes × Bytes)) (key : Bytes) : List (Bytes × Bytes) :=
  entries.filter fun entry => entry.1 ≠ key

def step (entries : List (Bytes × Bytes)) : MapState.Op → List (Bytes × Bytes)
  | .access key => if (keysOf entries).contains key then entries else entries ++ [(key, [])]
  | .write key value => write entries key value
  | .insertOrAssign pair => write entries pair.1 pair.2
  | .erase key => erase entries key
  | .clear => []

def run (ops : List MapState.Op) : List (Bytes × Bytes) := ops.foldl step []

end Entries

namespace MapState

/-! ## Writing -/

/-- Coherent containers are a map. -/
def Coherent.toMap {m : MapState} (h : m.Coherent) : OrderedMap where
  data := m.data
  index := m.index
  distinct := h.distinct
  index_eq := h.index_eq

def ofMap (m : OrderedMap) : MapState := ⟨m.data, m.index⟩

theorem coherent_ofMap (m : OrderedMap) : (ofMap m).Coherent := ⟨m.distinct, m.index_eq⟩

theorem insertOrAssign_ofMap (m : OrderedMap) (key value : Bytes) :
    (ofMap m).insertOrAssign (key, value) = ofMap (m.set key value) := by
  have hset : ofMap (m.set key value) = ⟨OrderedMap.assign m.data (m.index key) key value,
      fun k => if (m.index key).isNone ∧ k = key then some m.data.length else m.index k⟩ := rfl
  have hindex : (ofMap m).index key = m.index key := rfl
  rw [hset]
  unfold insertOrAssign
  dsimp only
  rw [hindex]
  cases m.index key with
  | some i => simp [writeAt, OrderedMap.assign, ofMap]
  | none => simp [OrderedMap.assign, ofMap]

theorem modify_length_append (data : List (Bytes × Bytes)) (entry : Bytes × Bytes)
    (f : Bytes × Bytes → Bytes × Bytes) :
    (data ++ [entry]).modify data.length f = data ++ [f entry] := by
  induction data with
  | nil => rfl
  | cons first rest ih => exact congrArg (first :: ·) ih

/-- A write through `map[key]` is an assignment. -/
theorem write_eq (m : MapState) (key value : Bytes) :
    m.write key value = m.insertOrAssign (key, value) := by
  unfold write access insertOrAssign
  cases m.index key with
  | some i => rfl
  | none =>
      simp only [writeAt, List.length_append, List.length_singleton, Nat.add_sub_cancel]
      rw [modify_length_append]

theorem access_eq (m : MapState) (key : Bytes) :
    (m.access key).1 = if (m.index key).isSome then m else m.insertOrAssign (key, []) := by
  unfold access insertOrAssign
  cases m.index key with
  | some i => rfl
  | none => rfl

variable {m : MapState}

theorem Coherent.insertOrAssign (h : m.Coherent) (pair : Bytes × Bytes) :
    (m.insertOrAssign pair).Coherent ∧
      (m.insertOrAssign pair).data = Entries.write m.data pair.1 pair.2 := by
  have hset := insertOrAssign_ofMap h.toMap pair.1 pair.2
  have hm : ofMap h.toMap = m := rfl
  rw [hm] at hset
  rw [hset]
  refine ⟨coherent_ofMap _, ?_⟩
  unfold Entries.write
  by_cases hkey : pair.1 ∈ keysOf m.data
  · rw [if_pos (List.contains_iff_mem.mpr hkey)]
    obtain ⟨old, hold⟩ := Option.ne_none_iff_exists'.mp
      (mt (OrderedMap.find_eq_none (m := h.toMap)).mp (not_not.mpr hkey))
    exact OrderedMap.set_data hold fun _ => pair.2
  · rw [if_neg (mt List.contains_iff_mem.mp hkey)]
    exact OrderedMap.data_set_new (m := h.toMap) hkey pair.2

theorem Coherent.access (h : m.Coherent) (key : Bytes) :
    (m.access key).1.Coherent ∧ (m.access key).1.data =
      if (keysOf m.data).contains key then m.data else m.data ++ [(key, [])] := by
  have hindex : m.index key = none ↔ key ∉ keysOf m.data :=
    OrderedMap.index_eq_none (m := h.toMap)
  rw [access_eq]
  by_cases hkey : key ∈ keysOf m.data
  · have hsome : (m.index key).isSome = true :=
      Option.isSome_iff_ne_none.mpr (mt hindex.mp (not_not.mpr hkey))
    rw [if_pos hsome, if_pos (List.contains_iff_mem.mpr hkey)]
    exact ⟨h, rfl⟩
  · have hnone : ¬ (m.index key).isSome = true := by
      rw [Option.not_isSome_iff_eq_none]
      exact hindex.mpr hkey
    obtain ⟨hcoherent, hdata⟩ := h.insertOrAssign (key, [])
    have habsent : ¬ (keysOf m.data).contains key = true := mt List.contains_iff_mem.mp hkey
    rw [if_neg hnone, if_neg habsent]
    rw [Entries.write, if_neg habsent] at hdata
    exact ⟨hcoherent, hdata⟩

/-! ## Erasing -/

/-- The positions of what is left once the entry of `key` is taken out. -/
theorem idxOf?_eraseIdx {keys : List Bytes} {key : Bytes} {idx : Nat} (hdistinct : keys.Nodup)
    (hidx : keys.idxOf? key = some idx) (other : Bytes) :
    (keys.eraseIdx idx).idxOf? other =
      if other = key then none else (keys.idxOf? other).map (renumber idx) := by
  induction keys generalizing idx with
  | nil => contradiction
  | cons k ks ih =>
      rw [List.nodup_cons] at hdistinct
      rw [List.idxOf?_cons] at hidx
      by_cases hk : k = key
      · subst hk
        obtain rfl : 0 = idx := by simpa using hidx
        rw [List.eraseIdx_cons_zero]
        by_cases hother : other = k
        · rw [if_pos hother, hother]
          exact List.idxOf?_eq_none_iff.mpr hdistinct.1
        · rw [if_neg hother, List.idxOf?_cons, beq_false_of_ne (Ne.symm hother)]
          cases ks.idxOf? other <;> simp [renumber]
      · rw [beq_false_of_ne hk] at hidx
        obtain ⟨j, hj, rfl⟩ := Option.map_eq_some_iff.mp hidx
        rw [List.eraseIdx_cons_succ, List.idxOf?_cons, List.idxOf?_cons, ih hdistinct.2 hj]
        by_cases hother : k = other
        · subst hother
          simp [hk, renumber]
        · rw [beq_false_of_ne hother]
          by_cases hkey : other = key
          · simp [hkey]
          · rw [if_neg hkey, if_neg hkey]
            cases ks.idxOf? other with
            | none => rfl
            | some i =>
                simp only [Bool.false_eq_true, if_false, Option.map_some, Option.some.injEq]
                unfold renumber
                split <;> split <;> omega

theorem erase_eq_self {data : List (Bytes × Bytes)} {key : Bytes} (h : key ∉ keysOf data) :
    Entries.erase data key = data := by
  refine List.filter_eq_self.mpr fun entry hentry => ?_
  have hne : entry.1 ≠ key := fun heq => h (heq ▸ List.mem_map_of_mem hentry)
  simpa using hne

theorem eraseIdx_eq_erase {data : List (Bytes × Bytes)} {key : Bytes} {idx : Nat}
    (hdistinct : (keysOf data).Nodup) (hidx : (keysOf data).idxOf? key = some idx) :
    data.eraseIdx idx = Entries.erase data key := by
  induction data generalizing idx with
  | nil => contradiction
  | cons entry rest ih =>
      have hkeys : keysOf (entry :: rest) = entry.1 :: keysOf rest := rfl
      rw [hkeys, List.nodup_cons] at hdistinct
      rw [hkeys, List.idxOf?_cons] at hidx
      by_cases hk : entry.1 = key
      · obtain rfl : 0 = idx := by simpa [hk] using hidx
        rw [List.eraseIdx_cons_zero, Entries.erase, List.filter_cons_of_neg (by simpa using hk)]
        exact (erase_eq_self (hk ▸ hdistinct.1)).symm
      · rw [beq_false_of_ne hk] at hidx
        obtain ⟨j, hj, rfl⟩ := Option.map_eq_some_iff.mp hidx
        rw [List.eraseIdx_cons_succ, Entries.erase, List.filter_cons_of_pos (by simpa using hk),
          ih hdistinct.2 hj, Entries.erase]

theorem Coherent.erase (h : m.Coherent) (key : Bytes) :
    (m.erase key).Coherent ∧ (m.erase key).data = Entries.erase m.data key := by
  unfold MapState.erase
  cases hindex : m.index key with
  | none =>
      have hkey := OrderedMap.index_eq_none (m := h.toMap).mp hindex
      exact ⟨h, (erase_eq_self hkey).symm⟩
  | some idx =>
      have hidx := (h.index_eq key).symm.trans hindex
      have hkeys : keysOf (m.data.eraseIdx idx) = (keysOf m.data).eraseIdx idx :=
        (List.eraseIdx_map Prod.fst m.data idx).symm
      refine ⟨⟨?_, fun other => ?_⟩, eraseIdx_eq_erase h.distinct hidx⟩
      · exact hkeys ▸ h.distinct.sublist (List.eraseIdx_sublist _ _)
      · change (if other = key then none else (m.index other).map (renumber idx)) = _
        rw [hkeys, idxOf?_eraseIdx h.distinct hidx, h.index_eq]

/-! ## Runs -/

theorem Coherent.step (h : m.Coherent) (op : Op) :
    (m.step op).Coherent ∧ (m.step op).data = Entries.step m.data op := by
  cases op with
  | access key => exact h.access key
  | write key value =>
      have heq : m.step (.write key value) = m.insertOrAssign (key, value) := m.write_eq key value
      rw [heq]
      exact h.insertOrAssign (key, value)
  | insertOrAssign pair => exact h.insertOrAssign pair
  | erase key => exact h.erase key
  | clear => exact ⟨⟨List.nodup_nil, fun _ => rfl⟩, rfl⟩

theorem coherent_foldl (ops : List Op) {m : MapState} (h : m.Coherent) :
    (ops.foldl MapState.step m).Coherent ∧
      (ops.foldl MapState.step m).data = ops.foldl Entries.step m.data := by
  induction ops generalizing m with
  | nil => exact ⟨h, rfl⟩
  | cons op ops ih =>
      obtain ⟨hnext, hdata⟩ := h.step op
      rw [List.foldl_cons, List.foldl_cons, ← hdata]
      exact ih hnext

theorem coherent_run (ops : List Op) :
    (run ops).Coherent ∧ (run ops).data = Entries.run ops :=
  coherent_foldl ops ⟨List.nodup_nil, fun _ => rfl⟩

/-! ## Reading -/

theorem Coherent.valueAt_eq (h : m.Coherent) (key : Bytes) :
    m.valueAt key = m.data.lookup key :=
  h.toMap.find_eq_lookup key

theorem find?_eq_bind (data : List (Bytes × Bytes)) (key : Bytes) :
    (data.find? fun entry => entry.1 == key) =
      ((keysOf data).idxOf? key).bind fun i => data[i]? := by
  induction data with
  | nil => rfl
  | cons entry rest ih =>
      have hkeys : keysOf (entry :: rest) = entry.1 :: keysOf rest := rfl
      rw [hkeys, List.find?_cons, List.idxOf?_cons]
      cases entry.1 == key with
      | true => rfl
      | false =>
          rw [ih]
          cases (keysOf rest).idxOf? key <;> rfl

theorem Coherent.find_eq (h : m.Coherent) (key : Bytes) :
    m.find key = m.data.find? fun entry => entry.1 == key := by
  rw [find?_eq_bind, ← h.index_eq]
  rfl

theorem Coherent.count_eq (h : m.Coherent) (key : Bytes) :
    m.count key = if key ∈ keysOf m.data then 1 else 0 := by
  have hindex : m.index key = none ↔ key ∉ keysOf m.data :=
    OrderedMap.index_eq_none (m := h.toMap)
  unfold count
  by_cases hkey : key ∈ keysOf m.data
  · rw [if_pos hkey, if_pos (Option.isSome_iff_ne_none.mpr (mt hindex.mp (not_not.mpr hkey)))]
  · rw [if_neg hkey, hindex.mpr hkey]
    rfl

/-- Every sequence of operations leaves the two containers in step, and what can
be read from them is what an association list under the same operations holds. -/
theorem run_refines (ops : List Op) :
    (keysOf (run ops).data).Nodup ∧
      (∀ key, (run ops).index key = (keysOf (run ops).data).idxOf? key) ∧
      (run ops).data = Entries.run ops ∧
      (∀ key, (run ops).find key = (Entries.run ops).find? fun entry => entry.1 == key) ∧
      (∀ key, (run ops).valueAt key = (Entries.run ops).lookup key) ∧
      (∀ key, (run ops).count key = if key ∈ keysOf (Entries.run ops) then 1 else 0) ∧
      (run ops).size = (Entries.run ops).length ∧
      (run ops).isEmpty = (Entries.run ops).isEmpty ∧
      ∀ key, ((run ops).erase key).data = (run ops).data.filter fun entry => entry.1 ≠ key := by
  obtain ⟨hcoherent, hdata⟩ := coherent_run ops
  rw [← hdata]
  exact ⟨hcoherent.distinct, hcoherent.index_eq, rfl, hcoherent.find_eq, hcoherent.valueAt_eq,
    hcoherent.count_eq, rfl, rfl, fun key => (hcoherent.erase key).2⟩

example : (run [.write (ascii "a") (ascii "1"), .access (ascii "b"), .write (ascii "c") (ascii "3"),
    .erase (ascii "a"), .insertOrAssign (ascii "c", ascii "4")]).data =
    [(ascii "b", []), (ascii "c", ascii "4")] := by
  decide

end MapState
end LlmTop
