import Mathlib

/-!
# Days and dates

The Gregorian calendar, carried on in both directions: a day is counted from its
date, a date is found from the count, and dates come in the order of their days.
-/
namespace LlmTop.Lib.Calendar

/-! ## Positions in a row of blocks -/

def before (lengths : List Nat) (i : Nat) : Nat := (lengths.take i).sum

/-- The block that a position falls into, and the place in it. -/
def locate : List Nat → Nat → Nat × Nat
  | [], n => (0, n)
  | length :: rest, n =>
      if n < length then (0, n)
      else ((locate rest (n - length)).1 + 1, (locate rest (n - length)).2)

structure Located (lengths : List Nat) (n : Nat) (p : Nat × Nat) : Prop where
  block : p.1 < lengths.length
  place : p.2 < lengths.getD p.1 0
  eq : before lengths p.1 + p.2 = n

theorem locate_located {lengths : List Nat} {n : Nat} (h : n < lengths.sum) :
    Located lengths n (locate lengths n) := by
  induction lengths generalizing n with
  | nil => contradiction
  | cons length rest ih =>
      rw [List.sum_cons] at h
      unfold locate
      split_ifs with hfirst
      · exact ⟨Nat.succ_pos _, hfirst, Nat.zero_add n⟩
      · obtain ⟨hblock, hplace, heq⟩ := @ih (n - length) (by omega)
        refine ⟨Nat.succ_lt_succ hblock, hplace, ?_⟩
        unfold before at heq ⊢
        rw [List.take_succ_cons, List.sum_cons]
        omega

theorem locate_lt (lengths : List Nat) {n n' : Nat} (h : n < n') :
    (locate lengths n).1 < (locate lengths n').1 ∨
      (locate lengths n).1 = (locate lengths n').1 ∧ (locate lengths n).2 < (locate lengths n').2 := by
  induction lengths generalizing n n' with
  | nil => exact Or.inr ⟨rfl, h⟩
  | cons length rest ih =>
      unfold locate
      split_ifs with hfirst hfirst'
      · exact Or.inr ⟨rfl, h⟩
      · exact Or.inl (Nat.succ_pos _)
      · omega
      · have hrest := @ih (n - length) (n' - length) (by omega)
        omega

/-! ## Years -/

/-- The days from the first day of year 0 to that of a year. -/
def daysBeforeYear (y : Int) : Int := 365 * y + (y + 3) / 4 - (y + 99) / 100 + (y + 399) / 400

def isLeap (y : Int) : Bool := y % 4 == 0 && (y % 100 != 0 || y % 400 == 0)

theorem daysBeforeYear_succ (y : Int) :
    daysBeforeYear (y + 1) = daysBeforeYear y + if isLeap y then 366 else 365 := by
  unfold daysBeforeYear isLeap
  split_ifs with hleap
  · simp only [Bool.and_eq_true, Bool.or_eq_true, beq_iff_eq, bne_iff_ne] at hleap
    omega
  · simp only [Bool.and_eq_true, Bool.or_eq_true, beq_iff_eq, bne_iff_ne] at hleap
    omega

theorem daysBeforeYear_mono {y y' : Int} (h : y ≤ y') : daysBeforeYear y ≤ daysBeforeYear y' := by
  unfold daysBeforeYear
  omega

/-- The mean length of a year finds it up to one. -/
def yearOf (n : Int) : Int :=
  let y := 400 * n / 146097
  if n < daysBeforeYear y then y - 1 else if daysBeforeYear (y + 1) ≤ n then y + 1 else y

/-- No year begins a year's length or more away from its mean place. -/
theorem daysBeforeYear_near (y : Int) :
    400 * daysBeforeYear y ≤ 146097 * (y + 1) ∧ 146097 * (y - 1) ≤ 400 * daysBeforeYear y := by
  unfold daysBeforeYear
  omega

theorem yearOf_spec (n : Int) : daysBeforeYear (yearOf n) ≤ n ∧ n < daysBeforeYear (yearOf n + 1) := by
  have hbelow := (daysBeforeYear_near (400 * n / 146097 - 1)).1
  have habove := (daysBeforeYear_near (400 * n / 146097 + 1 + 1)).2
  unfold yearOf
  dsimp only
  split_ifs with hearly hlate
  · rw [Int.sub_add_cancel]
    omega
  · omega
  · omega

theorem yearOf_mono {n n' : Int} (h : n ≤ n') : yearOf n ≤ yearOf n' := by
  by_contra hless
  have hyears := daysBeforeYear_mono (Int.not_le.mp hless)
  have hlast := (yearOf_spec n').2
  have hfirst := (yearOf_spec n).1
  omega

/-! ## Dates -/

def monthLengths (y : Int) : List Nat :=
  [31, if isLeap y then 29 else 28, 31, 30, 31, 30, 31, 31, 30, 31, 30, 31]

theorem sum_monthLengths (y : Int) : (monthLengths y).sum = if isLeap y then 366 else 365 := by
  unfold monthLengths
  cases isLeap y with
  | true => rfl
  | false => rfl

theorem monthLength_le (y : Int) (month : Nat) : (monthLengths y).getD month 0 ≤ 31 := by
  have hall : ∀ length ∈ monthLengths y, length ≤ 31 := by
    unfold monthLengths
    cases isLeap y with
    | true => decide
    | false => decide
  rw [List.getD_eq_getElem?_getD]
  cases hlength : (monthLengths y)[month]? with
  | none => exact Nat.zero_le _
  | some length => exact hall length (List.mem_of_getElem? hlength)

/-- Months and days are counted from 0. -/
structure Date where
  year : Int
  month : Nat
  day : Nat

structure Date.Valid (d : Date) : Prop where
  month : d.month < 12
  day : d.day < (monthLengths d.year).getD d.month 0

def Date.Before (d d' : Date) : Prop :=
  d.year < d'.year ∨ d.year = d'.year ∧ (d.month < d'.month ∨ d.month = d'.month ∧ d.day < d'.day)

def dayNumber (y : Int) (month : Nat) : Int := daysBeforeYear y + before (monthLengths y) month

def dateOf (n : Int) : Date :=
  let y := yearOf n
  let place := locate (monthLengths y) (n - daysBeforeYear y).toNat
  ⟨y, place.1, place.2⟩

theorem dateOf_located (n : Int) :
    Located (monthLengths (yearOf n)) (n - daysBeforeYear (yearOf n)).toNat
      ((dateOf n).month, (dateOf n).day) := by
  refine locate_located ?_
  obtain ⟨hfirst, hlast⟩ := yearOf_spec n
  rw [daysBeforeYear_succ] at hlast
  rw [sum_monthLengths]
  split_ifs at hlast ⊢
  · omega
  · omega

theorem dateOf_valid (n : Int) : (dateOf n).Valid :=
  ⟨(dateOf_located n).block, (dateOf_located n).place⟩

theorem dayNumber_dateOf (n : Int) :
    dayNumber (dateOf n).year (dateOf n).month + (dateOf n).day = n := by
  have heq : (before (monthLengths (yearOf n)) (dateOf n).month : Int) + (dateOf n).day =
      n - daysBeforeYear (yearOf n) := by
    rw [← Int.natCast_add, (dateOf_located n).eq]
    exact Int.toNat_of_nonneg (Int.sub_nonneg.mpr (yearOf_spec n).1)
  show daysBeforeYear (yearOf n) + before (monthLengths (yearOf n)) (dateOf n).month +
    (dateOf n).day = n
  omega

theorem dateOf_before {n n' : Int} (h : n < n') : (dateOf n).Before (dateOf n') := by
  rcases Int.lt_or_eq_of_le (yearOf_mono (Int.le_of_lt h)) with hyear | hyear
  · exact Or.inl hyear
  · refine Or.inr ⟨hyear, ?_⟩
    have hfirst := (yearOf_spec n).1
    rw [hyear] at hfirst
    unfold dateOf
    rw [hyear]
    exact locate_lt _ (by omega)

end LlmTop.Lib.Calendar
