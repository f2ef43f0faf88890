import Mathlib.Data.List.Basic
import Mathlib.Data.List.Infix
import Mathlib.Data.List.DropRight

/-!
# Searching and cutting sequences

The position-returning searches of a string library (`find`, `find_first_of`,
substring search) over lists of any alphabet with lawful equality.  A failed search is
`none`; the laws turn a position into the factorization that it stands for.
-/
namespace LlmTop.Lib.Search

variable {α : Type} [BEq α]

/-- Position of the first `c`. -/
def find (c : α) (s : List α) : Option Nat := s.idxOf? c

/-- Position of the first `c` at or after `start`. -/
def findFrom (c : α) (s : List α) (start : Nat) : Option Nat :=
  (find c (s.drop start)).map (start + ·)

/-- Position of the first element satisfying `p`, at or after `start`. -/
def findIfFrom (p : α → Bool) (s : List α) (start : Nat) : Option Nat :=
  ((s.drop start).findIdx? p).map (start + ·)

/-- Position of the first occurrence of the whole word `pattern`. -/
def findSub (pattern : List α) : List α → Option Nat
  | [] => if pattern.isEmpty then some 0 else none
  | c :: cs =>
      if pattern.isPrefixOf (c :: cs) then some 0
      else (findSub pattern cs).map (· + 1)

/-- The `len` elements from `pos` on, or fewer at the end. -/
def substr (s : List α) (pos len : Nat) : List α := (s.drop pos).take len

/-- Drop the elements satisfying `p` from both ends. -/
def trimBoth (p : α → Bool) (s : List α) : List α := (s.dropWhile p).rdropWhile p

variable [LawfulBEq α]

theorem find_eq_none {c : α} {s : List α} : find c s = none ↔ c ∉ s := by
  simp [find]

theorem find_append {c : α} {before : List α} (rest : List α) (h : c ∉ before) :
    find c (before ++ c :: rest) = some before.length := by
  induction before with
  | nil => simp [find, List.idxOf?_cons]
  | cons x xs ih =>
      simp only [List.mem_cons, not_or] at h
      have hne : (x == c) = false := by simpa using Ne.symm h.1
      unfold find at ih ⊢
      rw [List.cons_append, List.idxOf?_cons, hne]
      simp [ih h.2]

theorem find_eq_some {c : α} {s : List α} {i : Nat} :
    find c s = some i ↔
      ∃ before rest, s = before ++ c :: rest ∧ c ∉ before ∧ before.length = i := by
  constructor
  · intro h
    induction s generalizing i with
    | nil => simp [find] at h
    | cons x xs ih =>
        unfold find at h
        rw [List.idxOf?_cons] at h
        split at h
        · rename_i hx
          have hx : x = c := by simpa using hx
          cases h
          exact ⟨[], xs, by simp [hx], by simp, rfl⟩
        · rename_i hx
          obtain ⟨j, hj, rfl⟩ := Option.map_eq_some_iff.mp h
          obtain ⟨before, rest, rfl, hnot, rfl⟩ := ih hj
          have hne : c ≠ x := by
            intro he
            exact hx (by simp [he])
          exact ⟨x :: before, rest, rfl, by simp [hne, hnot], by simp⟩
  · rintro ⟨before, rest, rfl, hnot, rfl⟩
    exact find_append rest hnot

theorem mem_of_find {c : α} {s : List α} {i : Nat} (h : find c s = some i) : c ∈ s := by
  obtain ⟨before, rest, rfl, -, -⟩ := find_eq_some.mp h
  simp

theorem exists_find {c : α} {s : List α} (h : c ∈ s) : ∃ i, find c s = some i :=
  Option.ne_none_iff_exists'.mp fun hnone => find_eq_none.mp hnone h

theorem mem_take_of_find {c : α} {s : List α} {i n : Nat} (h : find c s = some i) (hn : i < n) :
    c ∈ s.take n := by
  obtain ⟨before, rest, rfl, -, rfl⟩ := find_eq_some.mp h
  obtain ⟨k, rfl⟩ := Nat.exists_eq_add_of_lt hn
  rw [List.take_append, Nat.add_assoc, Nat.add_sub_cancel_left, List.take_succ_cons]
  simp

theorem takeWhile_append_cons {c : α} {before : List α} (rest : List α) (h : c ∉ before) :
    (before ++ c :: rest).takeWhile (· != c) = before := by
  have hkept : ∀ x ∈ before, (x != c) = true :=
    fun x hx => bne_iff_ne.mpr fun heq => h (heq ▸ hx)
  rw [List.takeWhile_append_of_pos hkept, List.takeWhile_cons]
  simp

theorem takeWhile_of_not_mem {c : α} {s : List α} (h : c ∉ s) : s.takeWhile (· != c) = s :=
  List.takeWhile_eq_self_iff.mpr fun _ hx => bne_iff_ne.mpr fun heq => h (heq ▸ hx)

omit [BEq α] [LawfulBEq α] in
theorem span_append {p : α → Bool} {word : List α} (hword : ∀ x ∈ word, p x = true) {d : α}
    (hd : p d = false) (rest : List α) : (word ++ d :: rest).span p = (word, d :: rest) := by
  have hstop : ¬p d = true := Bool.eq_false_iff.mp hd
  rw [List.span_eq_takeWhile_dropWhile, List.takeWhile_append_of_pos hword,
    List.dropWhile_append_of_pos hword, List.takeWhile_cons_of_neg hstop,
    List.dropWhile_cons_of_neg hstop, List.append_nil]

/-- The text in front of the first `c`, cut out by its position. -/
theorem take_find {c : α} {s : List α} {i : Nat} (h : find c s = some i) :
    s.take i = s.takeWhile (· != c) := by
  obtain ⟨before, rest, rfl, hbefore, rfl⟩ := find_eq_some.mp h
  rw [List.take_left, takeWhile_append_cons rest hbefore]

/-- An occurrence of `pattern` starts at the head of the list `s`. -/
theorem findSub_eq_zero {pattern s : List α} (h : pattern <+: s) :
    findSub pattern s = some 0 := by
  cases s with
  | nil => simp [findSub, List.prefix_nil.mp h]
  | cons c cs => simp [findSub, h]

theorem findSub_cons {pattern : List α} {c : α} {cs : List α} (h : ¬ pattern <+: c :: cs) :
    findSub pattern (c :: cs) = (findSub pattern cs).map (· + 1) := by
  simp [findSub, h]

/-- The first occurrence: `pattern` starts at `i` and at no earlier position. -/
theorem findSub_eq_some {pattern s : List α} {i : Nat} :
    findSub pattern s = some i ↔
      i ≤ s.length ∧ pattern <+: s.drop i ∧ ∀ j < i, ¬ pattern <+: s.drop j := by
  induction s generalizing i with
  | nil =>
      simp only [findSub, List.length_nil, List.drop_nil, List.prefix_nil, Nat.le_zero_eq]
      by_cases hp : pattern = []
      · simp only [hp, List.isEmpty_nil, if_true, Option.some.injEq]
        constructor
        · rintro rfl
          exact ⟨rfl, trivial, fun j hj => absurd hj (Nat.not_lt_zero j)⟩
        · rintro ⟨rfl, -, -⟩
          rfl
      · simp [hp]
  | cons c cs ih =>
      by_cases hp : pattern <+: c :: cs
      · rw [findSub_eq_zero hp]
        constructor
        · rintro ⟨⟩
          exact ⟨Nat.zero_le _, by simpa using hp, fun j hj => absurd hj (Nat.not_lt_zero j)⟩
        · rintro ⟨-, -, hfirst⟩
          have hi : i = 0 := by
            by_contra hne
            exact hfirst 0 (Nat.pos_of_ne_zero hne) (by simpa using hp)
          rw [hi]
      · rw [findSub_cons hp]
        constructor
        · intro h
          obtain ⟨j, hj, rfl⟩ := Option.map_eq_some_iff.mp h
          obtain ⟨hle, hpre, hfirst⟩ := ih.mp hj
          refine ⟨by simpa using hle, by simpa using hpre, ?_⟩
          intro k hk
          cases k with
          | zero => simpa using hp
          | succ k => simpa using hfirst k (by omega)
        · rintro ⟨hle, hpre, hfirst⟩
          cases i with
          | zero => exact absurd (by simpa using hpre) hp
          | succ i =>
              have hi : findSub pattern cs = some i := by
                refine ih.mpr ⟨by simpa using hle, by simpa using hpre, ?_⟩
                intro k hk
                simpa using hfirst (k + 1) (by omega)
              simp [hi]

omit [BEq α] [LawfulBEq α] in
/-- Trimming stops at a core that begins and ends with kept elements. -/
theorem trimBoth_core {p : α → Bool} {core : List α} (front back : List α)
    (hhead : ∃ c ∈ core.head?, p c = false) (hlast : ∃ c ∈ core.getLast?, p c = false) :
    trimBoth p (front ++ (core ++ back)) = front.dropWhile p ++ (core ++ back.rdropWhile p) := by
  obtain ⟨first, hfirst, hkept⟩ := hhead
  obtain ⟨last, hlast, hkept'⟩ := hlast
  have hdrop : ∀ rest : List α, (core ++ rest).dropWhile p = core ++ rest := by
    intro rest
    cases core with
    | nil => contradiction
    | cons c cs =>
        obtain rfl : c = first := by simpa using hfirst
        simp [hkept]
  have hleft : (front ++ (core ++ back)).dropWhile p = front.dropWhile p ++ (core ++ back) := by
    rw [List.dropWhile_append]
    split
    · rename_i hempty
      rw [List.isEmpty_iff.mp hempty, hdrop, List.nil_append]
    · rfl
  have hright : ∀ before : List α,
      (before ++ (core ++ back)).rdropWhile p = before ++ (core ++ back.rdropWhile p) := by
    intro before
    have hrev : (core.reverse ++ before.reverse).dropWhile p = core.reverse ++ before.reverse := by
      have hhead : core.reverse.head? = some last := by simpa using hlast
      cases hcore : core.reverse with
      | nil => simp [hcore] at hhead
      | cons c cs =>
          obtain rfl : c = last := by simpa [hcore] using hhead
          simp [hkept']
    unfold List.rdropWhile
    rw [List.reverse_append, List.reverse_append, List.append_assoc, List.dropWhile_append]
    split
    · rename_i hempty
      rw [hrev, List.isEmpty_iff.mp hempty]
      simp
    · simp
  rw [trimBoth, hleft, hright]

omit [BEq α] [LawfulBEq α] in
theorem dropWhile_congr {p q : α → Bool} {s : List α} (h : ∀ c ∈ s, p c = q c) :
    s.dropWhile p = s.dropWhile q := by
  induction s with
  | nil => rfl
  | cons c cs ih =>
      rw [List.dropWhile_cons, List.dropWhile_cons, h c List.mem_cons_self,
        ih fun e he => h e (List.mem_cons_of_mem c he)]

omit [BEq α] [LawfulBEq α] in
/-- Trimming looks at the elements of the text only. -/
theorem trimBoth_congr {p q : α → Bool} {s : List α} (h : ∀ c ∈ s, p c = q c) :
    trimBoth p s = trimBoth q s := by
  have hkept : ∀ c ∈ (s.dropWhile q).reverse, p c = q c := by
    intro c hc
    apply h
    exact (List.dropWhile_sublist q).mem (List.mem_reverse.mp hc)
  rw [trimBoth, trimBoth, dropWhile_congr h, List.rdropWhile, List.rdropWhile, dropWhile_congr hkept]

omit [BEq α] [LawfulBEq α] in
/-- One more element that trimming drops changes nothing. -/
theorem trimBoth_concat {p : α → Bool} {c : α} (hc : p c = true) (s : List α) :
    trimBoth p (s ++ [c]) = trimBoth p s := by
  rw [trimBoth, trimBoth, List.dropWhile_append]
  split
  · rename_i hempty
    rw [List.isEmpty_iff.mp hempty, List.dropWhile_cons_of_pos hc]
    rfl
  · apply List.rdropWhile_concat_pos
    exact hc

omit [BEq α] [LawfulBEq α] in
theorem trimBoth_infix (p : α → Bool) (s : List α) : trimBoth p s <:+: s :=
  (List.rdropWhile_prefix p _).isInfix.trans (List.dropWhile_suffix p).isInfix

omit [BEq α] [LawfulBEq α] in
/-- A start and an end that do not overlap, as a program cuts them off. -/
theorem exists_between {before after target : List α} :
    (∃ middle, target = before ++ middle ++ after) ↔
      before.length + after.length ≤ target.length ∧ target.take before.length = before ∧
        target.drop (target.length - after.length) = after := by
  constructor
  · rintro ⟨middle, rfl⟩
    refine ⟨?_, ?_, ?_⟩
    · simp only [List.length_append]
      omega
    · rw [List.append_assoc, List.take_left]
    · rw [List.length_append, Nat.add_sub_cancel, List.drop_left]
  · rintro ⟨hroom, htake, hdrop⟩
    obtain ⟨rest, rfl⟩ : before <+: target := htake ▸ List.take_prefix _ target
    rw [List.length_append] at hroom hdrop
    have hback : before.length + rest.length - after.length =
        before.length + (rest.length - after.length) := by omega
    rw [hback, List.drop_length_add_append] at hdrop
    refine ⟨rest.take (rest.length - after.length), ?_⟩
    rw [List.append_assoc]
    apply congrArg (before ++ ·)
    calc rest = rest.take (rest.length - after.length) ++ rest.drop (rest.length - after.length) :=
          (List.take_append_drop _ rest).symm
      _ = rest.take (rest.length - after.length) ++ after := by rw [hdrop]

omit [BEq α] [LawfulBEq α] in
/-- A word without the separator lies on one side of it. -/
theorem infix_of_append_separated {sep : α} {word front back : List α} (hne : word ≠ [])
    (hword : sep ∉ word) (hback : ∀ c ∈ back.head?, c = sep) (h : word <:+: front ++ back) :
    word <:+: front ∨ word <:+: back := by
  rcases List.infix_append_iff.mp h with h | h | ⟨first, second, rfl, hfirst, hsecond⟩
  · exact Or.inl h
  · exact Or.inr h
  · cases second with
    | nil => exact Or.inl (by simpa using hfirst.isInfix)
    | cons c cs =>
        obtain ⟨rest, hrest⟩ := hsecond
        obtain rfl : c = sep := hback c (by simp [← hrest])
        exact absurd (by simp) hword

end LlmTop.Lib.Search
