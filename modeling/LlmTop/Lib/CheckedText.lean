import LlmTop.Lib.Search
import LlmTop.Lib.Traced
import Mathlib.Algebra.Group.Nat.Defs

/-!
# Texts with 64-bit positions

Searches answer with a position or `npos`, the largest number; positions wrap.
An access logs its position and the size of its text.  An element that is not
there reads as the default; a cut behind the end raises.
-/
namespace LlmTop.Lib.CheckedText
open Traced

variable {α ε : Type}

def npos : UInt64 := 0xFFFFFFFFFFFFFFFF

inductive Access where
  /-- `s[pos]`, and `front` and `back`. -/
  | elem (pos : UInt64) (size : Nat)
  /-- The position that `substr`, `insert` and `erase` take. -/
  | cut (pos : UInt64) (size : Nat)

def Access.InRange : Access → Prop
  | .elem pos size => pos.toNat < size
  | .cut pos size => pos.toNat ≤ size

def size (s : List α) : UInt64 := UInt64.ofNat s.length

def position : Option Nat → UInt64
  | none => npos
  | some i => UInt64.ofNat i

def elemAt [Inhabited α] (s : List α) (pos : UInt64) : Run Access ε α :=
  touch (.elem pos s.length) (s.getD pos.toNat default)

def cutAt (fault : ε) (s : List α) (pos : UInt64) : Run Access ε Unit :=
  ⟨[.cut pos s.length], if pos.toNat ≤ s.length then .returned () else .raised fault⟩

def substr (fault : ε) (s : List α) (pos count : UInt64) : Run Access ε (List α) := do
  cutAt fault s pos
  pure (Search.substr s pos.toNat count.toNat)

def insert (fault : ε) (s : List α) (pos : UInt64) (word : List α) : Run Access ε (List α) := do
  cutAt fault s pos
  pure (s.take pos.toNat ++ word ++ s.drop pos.toNat)

def erase (fault : ε) (s : List α) (pos count : UInt64) : Run Access ε (List α) := do
  cutAt fault s pos
  pure (s.take pos.toNat ++ s.drop (pos.toNat + count.toNat))

def findFirstNot (p : α → Bool) (s : List α) : UInt64 := position (s.findIdx? (!p ·))

def findLastNot (p : α → Bool) (s : List α) : UInt64 :=
  position ((s.reverse.findIdx? (!p ·)).map (s.length - 1 - ·))

section
variable [BEq α]

def find (c : α) (s : List α) : UInt64 := position (Search.find c s)

def findFrom (c : α) (s : List α) (start : UInt64) : UInt64 :=
  position (Search.findFrom c s start.toNat)

end

/-! ## Positions -/

/-- No position in the text, nor its end, is `npos`. -/
def Addressable (s : List α) : Prop := s.length < 2 ^ 64 - 1

theorem toNat_npos : npos.toNat = 2 ^ 64 - 1 := rfl

theorem toNat_position {i : Nat} (h : i < 2 ^ 64 - 1) : (position (some i)).toNat = i := by
  unfold position
  rw [UInt64.toNat_ofNat']
  apply Nat.mod_eq_of_lt
  omega

theorem position_ne_npos {i : Nat} (h : i < 2 ^ 64 - 1) : position (some i) ≠ npos := by
  intro heq
  have htoNat := toNat_position h
  rw [heq, toNat_npos] at htoNat
  omega

theorem position_succ {i : Nat} (h : i < 2 ^ 64 - 1) : (position (some i) + 1).toNat = i + 1 := by
  rw [UInt64.toNat_add, toNat_position h]
  apply Nat.mod_eq_of_lt
  show i + 1 < 2 ^ 64
  omega

theorem Addressable.toNat_size {s : List α} (h : Addressable s) : (size s).toNat = s.length := by
  unfold size
  rw [UInt64.toNat_ofNat']
  apply Nat.mod_eq_of_lt
  unfold Addressable at h
  omega

theorem Addressable.of_le {s t : List α} (h : Addressable s) (hle : t.length ≤ s.length) : Addressable t :=
  Nat.lt_of_le_of_lt hle h

theorem find_lt [BEq α] [LawfulBEq α] {c : α} {s : List α} {i : Nat}
    (h : Search.find c s = some i) : i < s.length := by
  obtain ⟨before, rest, rfl, -, rfl⟩ := Search.find_eq_some.mp h
  rw [List.length_append, List.length_cons]
  omega

theorem findFrom_lt [BEq α] [LawfulBEq α] {c : α} {s : List α} {start i : Nat}
    (h : Search.findFrom c s start = some i) : i < s.length := by
  obtain ⟨k, hk, rfl⟩ := Option.map_eq_some_iff.mp h
  have hlt := find_lt hk
  rw [List.length_drop] at hlt
  omega

/-! ## Accesses -/

section
variable {s : List α} {pos : UInt64}

theorem refines_elemAt [Inhabited α] {c : α} (h : s[pos.toNat]? = some c) :
    Refines Access.InRange Eq (elemAt s pos : Run Access ε α) (.ok c) := by
  apply refines_touch
  · exact (List.getElem?_eq_some_iff.mp h).1
  · rw [List.getD_eq_getElem?_getD, h, Option.getD_some]

theorem refines_cutAt (fault : ε) (h : pos.toNat ≤ s.length) :
    Refines Access.InRange Eq (cutAt fault s pos) (.ok ()) := by
  unfold cutAt
  rw [if_pos h]
  apply refines_touch
  · exact h
  · rfl

theorem refines_substr (fault : ε) (h : pos.toNat ≤ s.length) (count : UInt64) :
    Refines Access.InRange Eq (substr fault s pos count)
      (.ok (Search.substr s pos.toNat count.toNat)) := by
  apply refines_after (refines_cutAt fault h)
  exact refines_pure rfl

theorem refines_insert (fault : ε) (h : pos.toNat ≤ s.length) (word : List α) :
    Refines Access.InRange Eq (insert fault s pos word)
      (.ok (s.take pos.toNat ++ word ++ s.drop pos.toNat)) := by
  apply refines_after (refines_cutAt fault h)
  exact refines_pure rfl

theorem refines_erase (fault : ε) (h : pos.toNat ≤ s.length) (count : UInt64) :
    Refines Access.InRange Eq (erase fault s pos count)
      (.ok (s.take pos.toNat ++ s.drop (pos.toNat + count.toNat))) := by
  apply refines_after (refines_cutAt fault h)
  exact refines_pure rfl

end

/-! ## Searches -/

section
variable [BEq α] [LawfulBEq α] {s : List α}

theorem find_cases (hs : Addressable s) (c : α) :
    (Search.find c s = none ∧ find c s = npos) ∨
      ∃ i, Search.find c s = some i ∧ i < s.length ∧ find c s ≠ npos ∧ (find c s).toNat = i ∧
        (find c s + 1).toNat = i + 1 := by
  unfold find
  cases h : Search.find c s with
  | none => exact Or.inl ⟨rfl, rfl⟩
  | some i =>
      have hi := find_lt h
      have hsmall : i < 2 ^ 64 - 1 := Nat.lt_trans hi hs
      exact Or.inr ⟨i, rfl, hi, position_ne_npos hsmall, toNat_position hsmall,
        position_succ hsmall⟩

end

theorem refines_front {s : List α} {pos : UInt64} (fault : ε) :
    Refines Access.InRange Eq (substr fault s 0 pos) (.ok (s.take pos.toNat)) :=
  refines_substr fault (Nat.zero_le _) pos

theorem refines_back {s : List α} {pos : UInt64} (fault : ε) (hs : Addressable s)
    (h : pos.toNat ≤ s.length) :
    Refines Access.InRange Eq (substr fault s pos npos) (.ok (s.drop pos.toNat)) := by
  have hsubstr := refines_substr fault h npos
  unfold Search.substr at hsubstr
  rw [List.take_of_length_le] at hsubstr
  · exact hsubstr
  · unfold Addressable at hs
    rw [List.length_drop, toNat_npos]
    omega

/-! ## Loops over a text -/

/-- A position and the part of the text from there on. -/
structure Stands (s : List α) (pos : UInt64) (rest : List α) : Prop where
  drop : s.drop pos.toNat = rest
  le : pos.toNat ≤ s.length

section
variable {s rest : List α} {pos : UInt64} {c : α}

theorem Stands.length (h : Stands s pos rest) : pos.toNat + rest.length = s.length := by
  have hle := h.le
  rw [← h.drop, List.length_drop]
  omega

theorem Stands.lt_size (hs : Addressable s) (h : Stands s pos (c :: rest)) : pos < size s := by
  have hlength := h.length
  rw [List.length_cons] at hlength
  rw [UInt64.lt_iff_toNat_lt, hs.toNat_size]
  omega

theorem Stands.not_lt_size (hs : Addressable s) (h : Stands s pos []) : ¬ pos < size s := by
  have hlength := h.length
  rw [List.length_nil] at hlength
  rw [UInt64.lt_iff_toNat_lt, hs.toNat_size]
  omega

theorem Stands.next (hs : Addressable s) (h : Stands s pos (c :: rest)) :
    (pos + 1).toNat = pos.toNat + 1 ∧ Stands s (pos + 1) rest := by
  have hlength := h.length
  rw [List.length_cons] at hlength
  have hpos : (pos + 1).toNat = pos.toNat + 1 := by
    rw [UInt64.toNat_add]
    apply Nat.mod_eq_of_lt
    show pos.toNat + 1 < 2 ^ 64
    unfold Addressable at hs
    omega
  refine ⟨hpos, ?_, ?_⟩
  · rw [hpos, ← List.drop_drop, h.drop, List.drop_succ_cons, List.drop_zero]
  · omega

theorem Stands.elem (h : Stands s pos (c :: rest)) : s[pos.toNat]? = some c := by
  have hget : (s.drop pos.toNat)[0]? = some c := by rw [h.drop]; rfl
  rwa [List.getElem?_drop, Nat.add_zero] at hget

theorem stands_start (s : List α) : Stands s 0 s := ⟨rfl, Nat.zero_le _⟩

end

/-! ## Trimming -/

def trim (fault : ε) (p : α → Bool) (s : List α) : Run Access ε (List α) :=
  let first := findFirstNot p s
  if first = npos then pure [] else substr fault s first (findLastNot p s - first + 1)

/-- What stands in front of the first element kept, then what stands behind the last one. -/
def eraseBoth (fault : ε) (p : α → Bool) (s : List α) : Run Access ε (List α) := do
  let s ← erase fault s 0 (findFirstNot p s)
  erase fault s (findLastNot p s + 1) npos

section
variable {p : α → Bool} {s : List α}

theorem findFirstNot_cases (hs : Addressable s) :
    (findFirstNot p s = npos ∧ s.dropWhile p = []) ∨
      findFirstNot p s ≠ npos ∧ (findFirstNot p s).toNat < s.length ∧
        s.drop (findFirstNot p s).toNat = s.dropWhile p ∧ s.dropWhile p ≠ [] := by
  unfold findFirstNot
  cases h : s.findIdx? (!p ·) with
  | none =>
      have hall : ∀ c ∈ s, p c = true := by simpa using h
      exact Or.inl ⟨rfl, List.dropWhile_eq_nil_iff.mpr hall⟩
  | some i =>
      obtain ⟨hi, hfind⟩ := List.findIdx?_eq_some_iff_findIdx_eq.mp h
      have hsmall : i < 2 ^ 64 - 1 := Nat.lt_trans hi hs
      have hdrop : s.dropWhile p = s.drop i := by rw [List.dropWhile_eq_drop_findIdx_not, hfind]
      refine Or.inr ⟨position_ne_npos hsmall, ?_, ?_, ?_⟩
      · rwa [toNat_position hsmall]
      · rw [toNat_position hsmall, hdrop]
      · rw [hdrop, ne_eq, List.drop_eq_nil_iff]
        omega

theorem drop_findFirstNot (hs : Addressable s) : s.drop (findFirstNot p s).toNat = s.dropWhile p := by
  rcases findFirstNot_cases (p := p) hs with ⟨hfirst, hnil⟩ | ⟨-, -, hdrop, -⟩
  · rw [hfirst, hnil]
    apply List.drop_eq_nil_of_le
    exact Nat.le_of_lt hs
  · exact hdrop

/-- The position behind the last element kept; `npos + 1` is zero. -/
theorem findLastNot_succ (hs : Addressable s) :
    (findLastNot p s + 1).toNat = (s.rdropWhile p).length := by
  unfold findLastNot List.rdropWhile
  rw [List.length_reverse, List.dropWhile_eq_drop_findIdx_not, List.length_drop, List.length_reverse]
  cases h : s.reverse.findIdx? (!p ·) with
  | none =>
      have hend : s.reverse.findIdx (!p ·) = s.reverse.length :=
        List.findIdx?_eq_none_iff_findIdx_eq.mp h
      rw [hend, List.length_reverse, Nat.sub_self, Option.map_none]
      decide
  | some k =>
      obtain ⟨hk, hfind⟩ := List.findIdx?_eq_some_iff_findIdx_eq.mp h
      rw [List.length_reverse] at hk
      unfold Addressable at hs
      rw [Option.map_some, position_succ (by omega), hfind]
      omega

theorem take_rdropWhile (p : α → Bool) (s : List α) :
    s.take (s.rdropWhile p).length = s.rdropWhile p :=
  (List.prefix_iff_eq_take.mp (List.rdropWhile_prefix p s)).symm

/-- Trimming at the back stops at an element that is kept. -/
theorem rdropWhile_append {front back : List α} (h : ∃ c ∈ back, p c = false) :
    (front ++ back).rdropWhile p = front ++ back.rdropWhile p := by
  have hkept : (back.reverse.dropWhile p).isEmpty = false := by
    obtain ⟨c, hc, hp⟩ := h
    rw [List.isEmpty_eq_false_iff, ne_eq, List.dropWhile_eq_nil_iff]
    intro hall
    have hdropped := hall c (List.mem_reverse.mpr hc)
    rw [hp] at hdropped
    contradiction
  unfold List.rdropWhile
  rw [List.reverse_append, List.dropWhile_append, hkept]
  simp

theorem refines_eraseBoth (fault : ε) (hs : Addressable s) :
    Refines Access.InRange Eq (eraseBoth fault p s) (.ok (Search.trimBoth p s)) := by
  have hdrop : Addressable (s.dropWhile p) := hs.of_le (List.length_dropWhile_le p s)
  have hfront : s.take (0 : UInt64).toNat ++
      s.drop ((0 : UInt64).toNat + (findFirstNot p s).toNat) = s.dropWhile p := by
    rw [← drop_findFirstNot hs]
    simp
  apply refines_after (refines_erase fault (Nat.zero_le _) _)
  rw [hfront]
  have hlast := findLastNot_succ (p := p) hdrop
  have hle : (findLastNot p (s.dropWhile p) + 1).toNat ≤ (s.dropWhile p).length := by
    rw [hlast]
    exact (List.rdropWhile_prefix p _).length_le
  have hback := refines_erase fault hle npos
  rw [hlast, take_rdropWhile, List.drop_eq_nil_of_le, List.append_nil] at hback
  · exact hback
  · unfold Addressable at hdrop
    rw [toNat_npos]
    omega

theorem refines_trim (fault : ε) (hs : Addressable s) :
    Refines Access.InRange Eq (trim fault p s) (.ok (Search.trimBoth p s)) := by
  unfold trim Search.trimBoth
  dsimp only
  rcases findFirstNot_cases (p := p) hs with ⟨hfirst, hnil⟩ | ⟨hfirst, hlt, hdrop, hne⟩
  · rw [if_pos hfirst, hnil]
    exact refines_pure rfl
  · rw [if_neg hfirst]
    have hsubstr := refines_substr fault (Nat.le_of_lt hlt) (findLastNot p s - findFirstNot p s + 1)
    have hkept : ∃ c ∈ s.dropWhile p, p c = false := by
      refine ⟨(s.dropWhile p).head hne, List.head_mem hne, ?_⟩
      exact List.head_dropWhile_not p hne
    have hsplit : s.rdropWhile p =
        s.take (findFirstNot p s).toNat ++ (s.dropWhile p).rdropWhile p := by
      rw [← rdropWhile_append hkept, ← hdrop, List.take_append_drop]
    have hlength : (s.rdropWhile p).length =
        (findFirstNot p s).toNat + ((s.dropWhile p).rdropWhile p).length := by
      rw [hsplit, List.length_append, List.length_take, Nat.min_eq_left (Nat.le_of_lt hlt)]
    have hcount : (findLastNot p s - findFirstNot p s + 1).toNat =
        ((s.dropWhile p).rdropWhile p).length := by
      have hlast := findLastNot_succ (p := p) hs
      have hbound := (findFirstNot p s).toNat_lt
      rw [UInt64.toNat_add] at hlast
      rw [UInt64.toNat_add, UInt64.toNat_sub]
      change (_ + 1) % 2 ^ 64 = _ at hlast
      change (_ + 1) % 2 ^ 64 = _
      omega
    rw [hcount] at hsubstr
    unfold Search.substr at hsubstr
    rw [hdrop, take_rdropWhile] at hsubstr
    exact hsubstr

end

end LlmTop.Lib.CheckedText
