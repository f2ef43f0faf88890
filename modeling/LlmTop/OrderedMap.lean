import LlmTop.Bytes

/-!
# The insertion-ordered map

`data` is the deque of entries and `index` the hash map from a key to its
position.  The source keeps the two in step by hand; here a value of the type
carries the proof that they are.
-/
namespace LlmTop

def keysOf (data : List (Bytes × Bytes)) : List Bytes := data.map Prod.fst

structure OrderedMap where
  data : List (Bytes × Bytes)
  index : Bytes → Option Nat
  distinct : (keysOf data).Nodup
  index_eq : ∀ key, index key = (keysOf data).idxOf? key

namespace OrderedMap

@[ext] theorem ext {m n : OrderedMap} (h : m.data = n.data) : m = n := by
  obtain ⟨data, index, distinct, index_eq⟩ := m
  obtain ⟨data', index', distinct', index_eq'⟩ := n
  obtain rfl : data = data' := h
  have hindex : index = index' := by
    funext key
    rw [index_eq, index_eq']
  subst hindex
  rfl

def empty : OrderedMap where
  data := []
  index := fun _ => none
  distinct := List.nodup_nil
  index_eq := fun _ => rfl

/-- `find`, read through to the value. -/
def find (m : OrderedMap) (key : Bytes) : Option Bytes :=
  (m.index key).bind fun i => m.data[i]?.map Prod.snd

def count (m : OrderedMap) (key : Bytes) : Nat :=
  if (m.index key).isSome then 1 else 0

theorem index_eq_none {m : OrderedMap} {key : Bytes} :
    m.index key = none ↔ key ∉ keysOf m.data := by
  rw [m.index_eq, List.idxOf?_eq_none_iff]

theorem count_pos {m : OrderedMap} {key : Bytes} : 0 < m.count key ↔ key ∈ keysOf m.data := by
  unfold count
  cases h : m.index key with
  | none => simpa using index_eq_none.mp h
  | some i =>
      have hne : m.index key ≠ none := by simp [h]
      simpa using not_not.mp (mt index_eq_none.mpr hne)

/-- The entries after `map[key] = value`, given the position of the key. -/
def assign (data : List (Bytes × Bytes)) (position : Option Nat) (key value : Bytes) :
    List (Bytes × Bytes) :=
  match position with
  | some i => data.modify i fun entry => (entry.1, value)
  | none => data ++ [(key, value)]

theorem keysOf_modify (data : List (Bytes × Bytes)) (i : Nat) (value : Bytes) :
    keysOf (data.modify i fun entry => (entry.1, value)) = keysOf data := by
  induction data generalizing i with
  | nil => simp [keysOf]
  | cons entry rest ih =>
      cases i with
      | zero => simp [keysOf]
      | succ i => simpa [keysOf] using ih i

theorem keysOf_append (data : List (Bytes × Bytes)) (key value : Bytes) :
    keysOf (data ++ [(key, value)]) = keysOf data ++ [key] := by
  simp [keysOf]

private theorem idxOf?_append_ne {keys : List Bytes} {key other : Bytes} (h : other ≠ key) :
    (keys ++ [key]).idxOf? other = keys.idxOf? other := by
  induction keys with
  | nil => simp [List.idxOf?_cons, h.symm]
  | cons k ks ih => simp only [List.cons_append, List.idxOf?_cons, ih]

/-- `map[key] = value`: overwrite in place, or append a new entry. -/
def set (m : OrderedMap) (key value : Bytes) : OrderedMap where
  data := assign m.data (m.index key) key value
  index := fun k =>
    if (m.index key).isNone ∧ k = key then some m.data.length else m.index k
  distinct := by
    cases h : m.index key with
    | some i => simpa [assign, keysOf_modify] using m.distinct
    | none =>
        have hkey := index_eq_none.mp h
        simp only [assign, keysOf_append]
        rw [List.nodup_append]
        refine ⟨m.distinct, by simp, ?_⟩
        rintro other hother _ hk rfl
        exact hkey (List.mem_singleton.mp hk ▸ hother)
  index_eq := by
    intro k
    cases h : m.index key with
    | some i => simp [assign, keysOf_modify, m.index_eq k]
    | none =>
        have hkey := index_eq_none.mp h
        have hlen : (keysOf m.data).length = m.data.length := List.length_map _
        simp only [assign, keysOf_append, Option.isNone_none, true_and]
        split
        · rename_i hk
          subst hk
          rw [← hlen]
          exact (Lib.Search.find_append [] hkey).symm
        · rename_i hk
          rw [m.index_eq k, idxOf?_append_ne hk]

/-- The map as an association list: the first entry under the key. -/
theorem find_eq_lookup (m : OrderedMap) (key : Bytes) : m.find key = m.data.lookup key := by
  unfold find
  rw [m.index_eq]
  generalize m.data = data
  induction data with
  | nil => rfl
  | cons entry rest ih =>
      obtain ⟨k, v⟩ := entry
      have hkeys : keysOf ((k, v) :: rest) = k :: keysOf rest := rfl
      rw [hkeys, List.idxOf?_cons, List.lookup_cons, ← ih]
      by_cases hk : key = k
      · simp [hk]
      · have h1 : (k == key) = false := by simpa using Ne.symm hk
        have h2 : (key == k) = false := by simpa using hk
        rw [h1, h2]
        cases (keysOf rest).idxOf? key <;> simp

theorem lookup_eq_none {data : List (Bytes × Bytes)} {key : Bytes} :
    data.lookup key = none ↔ key ∉ keysOf data := by
  rw [List.lookup_eq_none_iff]
  simp only [keysOf, List.mem_map, not_exists, not_and]
  constructor
  · intro h entry hentry he
    have := h entry hentry
    simp [he] at this
  · intro h entry hentry
    have := h entry hentry
    simpa using Ne.symm this

theorem find_eq_none {m : OrderedMap} {key : Bytes} :
    m.find key = none ↔ key ∉ keysOf m.data := by
  rw [find_eq_lookup, lookup_eq_none]

/-- No key stands twice, so every entry is found under its key. -/
theorem find_of_mem {m : OrderedMap} {entry : Bytes × Bytes} (h : entry ∈ m.data) :
    m.find entry.1 = some entry.2 := by
  obtain ⟨before, after, hsplit⟩ := List.append_of_mem h
  have hdistinct := m.distinct
  rw [hsplit, keysOf, List.map_append, List.map_cons, List.nodup_append] at hdistinct
  rw [find_eq_lookup, List.lookup_eq_some_iff]
  refine ⟨before, after, hsplit, fun other hother => ?_⟩
  have hne := hdistinct.2.2 other.1 (List.mem_map_of_mem hother) entry.1 List.mem_cons_self
  exact bne_iff_ne.mpr hne.symm

theorem keysOf_set (m : OrderedMap) (key value : Bytes) :
    keysOf (m.set key value).data =
      if key ∈ keysOf m.data then keysOf m.data else keysOf m.data ++ [key] := by
  change keysOf (assign m.data (m.index key) key value) = _
  cases h : m.index key with
  | none =>
      rw [if_neg (index_eq_none.mp h)]
      exact keysOf_append _ _ _
  | some i =>
      have hkey : key ∈ keysOf m.data := not_not.mp (mt index_eq_none.mpr (by simp [h]))
      rw [if_pos hkey]
      exact keysOf_modify _ _ _

theorem lookup_modify {data : List (Bytes × Bytes)} {i : Nat} {key : Bytes} (value : Bytes)
    (h : (keysOf data).idxOf? key = some i) (other : Bytes) :
    (data.modify i fun entry => (entry.1, value)).lookup other =
      if other = key then some value else data.lookup other := by
  induction data generalizing i with
  | nil => simp [keysOf] at h
  | cons entry rest ih =>
      obtain ⟨k, v⟩ := entry
      have hkeys : keysOf ((k, v) :: rest) = k :: keysOf rest := rfl
      rw [hkeys, List.idxOf?_cons] at h
      by_cases hk : k = key
      · subst hk
        obtain rfl : 0 = i := by simpa using h
        simp only [List.modify_zero_cons, List.lookup_cons]
        by_cases ho : other = k
        · simp [ho]
        · have h2 : (other == k) = false := by simpa using ho
          simp [h2, ho]
      · have h1 : (k == key) = false := by simpa using hk
        rw [h1] at h
        obtain ⟨j, hj, rfl⟩ := Option.map_eq_some_iff.mp h
        simp only [List.modify_succ_cons, List.lookup_cons, ih hj]
        by_cases ho : other = k
        · simp [ho, hk]
        · have h2 : (other == k) = false := by simpa using ho
          simp [h2]

theorem find_set (m : OrderedMap) (key value other : Bytes) :
    (m.set key value).find other = if other = key then some value else m.find other := by
  rw [find_eq_lookup, find_eq_lookup]
  change (assign m.data (m.index key) key value).lookup other = _
  cases h : m.index key with
  | some i => exact lookup_modify value (m.index_eq key ▸ h) other
  | none =>
      have hkey := index_eq_none.mp h
      simp only [assign, List.lookup_append]
      by_cases ho : other = key
      · subst ho
        have hnone : m.data.lookup other = none := by
          rw [← find_eq_lookup]
          exact find_eq_none.mpr hkey
        simp [hnone]
      · have h2 : (other == key) = false := by simpa using ho
        simp [h2, ho, List.lookup_cons]

theorem find_set_self (m : OrderedMap) (key value : Bytes) :
    (m.set key value).find key = some value := by
  rw [find_set, if_pos rfl]

theorem mem_set {m : OrderedMap} {key value : Bytes} {entry : Bytes × Bytes}
    (h : entry ∈ (m.set key value).data) : entry ∈ m.data ∨ entry = (key, value) := by
  obtain ⟨k, v⟩ := entry
  have hfind := find_of_mem h
  rw [find_set] at hfind
  split at hfind
  · rename_i hk
    exact Or.inr (Prod.ext hk (Option.some.inj hfind).symm)
  · rw [find_eq_lookup] at hfind
    obtain ⟨before, after, hsplit, -⟩ := List.lookup_eq_some_iff.mp hfind
    exact Or.inl (by rw [hsplit]; simp)

/-- An entry takes the place of the one it overwrites. -/
theorem flatMap_set_length {β : Type} (write : Bytes × Bytes → List β) (m : OrderedMap)
    (key value : Bytes) :
    ((m.set key value).data.flatMap write).length ≤
      (m.data.flatMap write).length + (write (key, value)).length := by
  change ((assign m.data (m.index key) key value).flatMap write).length ≤ _
  rw [m.index_eq]
  generalize m.data = data
  cases h : (keysOf data).idxOf? key with
  | none => simp [assign]
  | some i =>
      induction data generalizing i with
      | nil => simp [keysOf] at h
      | cons entry data ih =>
          have hkeys : keysOf (entry :: data) = entry.1 :: keysOf data := rfl
          rw [hkeys, List.idxOf?_cons] at h
          by_cases hentry : entry.1 = key
          · obtain rfl : 0 = i := by simpa [hentry] using h
            simp only [assign, List.modify_zero_cons, List.flatMap_cons, List.length_append,
              hentry]
            omega
          · simp only [beq_iff_eq, hentry, if_false, Option.map_eq_some_iff] at h
            obtain ⟨i, hi, rfl⟩ := h
            have hrest := ih i hi
            simp only [assign, List.modify_succ_cons, List.flatMap_cons, List.length_append]
              at hrest ⊢
            omega

theorem modify_eq_map {data : List (Bytes × Bytes)} {i : Nat} {key value : Bytes}
    (f : Bytes → Bytes) (hdistinct : (keysOf data).Nodup)
    (hindex : (keysOf data).idxOf? key = some i) (hvalue : data.lookup key = some value) :
    (data.modify i fun entry => (entry.1, f value)) =
      data.map fun entry => if entry.1 = key then (entry.1, f entry.2) else entry := by
  induction data generalizing i with
  | nil => contradiction
  | cons entry rest ih =>
      obtain ⟨k, v⟩ := entry
      have hkeys : keysOf ((k, v) :: rest) = k :: keysOf rest := rfl
      rw [hkeys, List.nodup_cons] at hdistinct
      rw [hkeys, List.idxOf?_cons] at hindex
      rw [List.lookup_cons] at hvalue
      by_cases hk : k = key
      · subst hk
        obtain rfl : 0 = i := by simpa using hindex
        obtain rfl : v = value := by simpa using hvalue
        have hrest : ∀ entry ∈ rest,
            (if entry.1 = k then (entry.1, f entry.2) else entry) = entry := by
          intro entry hentry
          refine if_neg fun heq => hdistinct.1 ?_
          exact heq ▸ List.mem_map_of_mem hentry
        rw [List.modify_zero_cons, List.map_cons, if_pos rfl, List.map_congr_left hrest,
          List.map_id']
      · have h1 : (k == key) = false := by simpa using hk
        have h2 : (key == k) = false := by simpa using Ne.symm hk
        rw [h1] at hindex
        rw [h2] at hvalue
        obtain ⟨j, hj, rfl⟩ := Option.map_eq_some_iff.mp hindex
        rw [List.modify_succ_cons, List.map_cons, if_neg hk, ih hdistinct.2 hj hvalue]

/-- Overwriting a present entry by a function of what it held. -/
theorem set_data {m : OrderedMap} {key value : Bytes} (h : m.find key = some value)
    (f : Bytes → Bytes) :
    (m.set key (f value)).data =
      m.data.map fun entry => if entry.1 = key then (entry.1, f entry.2) else entry := by
  change assign m.data (m.index key) key (f value) = _
  rw [find_eq_lookup] at h
  cases hindex : m.index key with
  | some i => exact modify_eq_map f m.distinct (m.index_eq key ▸ hindex) h
  | none =>
      have hnone := find_eq_none.mpr (index_eq_none.mp hindex)
      rw [find_eq_lookup, h] at hnone
      contradiction

def ofPairs (pairs : List (Bytes × Bytes)) : OrderedMap :=
  pairs.foldl (fun m pair => m.set pair.1 pair.2) empty

/-- The last value of a key wins. -/
theorem find_ofPairs (pairs : List (Bytes × Bytes)) (key : Bytes) :
    (ofPairs pairs).find key = pairs.reverse.lookup key := by
  unfold ofPairs
  induction pairs using List.reverseRecOn with
  | nil => rfl
  | append_singleton pairs pair ih =>
      obtain ⟨k, v⟩ := pair
      rw [List.foldl_append, List.foldl_cons, List.foldl_nil, find_set, ih, List.reverse_append,
        List.reverse_singleton, List.singleton_append, List.lookup_cons]
      by_cases hk : key = k
      · simp [hk]
      · rw [if_neg hk, beq_false_of_ne hk]

theorem mem_keysOf_ofPairs {pairs : List (Bytes × Bytes)} {key : Bytes} :
    key ∈ keysOf (ofPairs pairs).data ↔ key ∈ keysOf pairs := by
  have hreverse : key ∈ keysOf pairs.reverse ↔ key ∈ keysOf pairs := by
    rw [keysOf, List.map_reverse, List.mem_reverse, keysOf]
  rw [← not_iff_not, ← find_eq_none, find_ofPairs, lookup_eq_none, hreverse]

/-- A new key goes to the end. -/
theorem data_set_new {m : OrderedMap} {key : Bytes} (hnew : key ∉ keysOf m.data) (value : Bytes) :
    (m.set key value).data = m.data ++ [(key, value)] := by
  change assign m.data (m.index key) key value = _
  rw [index_eq_none.mpr hnew]
  rfl

/-- Pairs with distinct keys are the entries of their map. -/
theorem data_ofPairs {pairs : List (Bytes × Bytes)} (h : (keysOf pairs).Nodup) :
    (ofPairs pairs).data = pairs := by
  induction pairs using List.reverseRecOn with
  | nil => rfl
  | append_singleton pairs pair ih =>
      rw [keysOf, List.map_append, List.map_singleton, List.nodup_append] at h
      obtain ⟨hpairs, -, hnew⟩ := h
      have hdata := ih hpairs
      have hkey : pair.1 ∉ keysOf (ofPairs pairs).data := by
        rw [hdata]
        intro hmem
        exact hnew _ hmem _ (List.mem_singleton.mpr rfl) rfl
      have hset := data_set_new hkey pair.2
      rw [hdata] at hset
      rw [ofPairs, List.foldl_append]
      exact hset

end OrderedMap
end LlmTop
