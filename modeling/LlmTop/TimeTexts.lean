import LlmTop.JsonTexts
import LlmTop.Lib.Calendar
import Mathlib.Data.Nat.Digits.Lemmas
import Mathlib.Tactic.Ring

/-!
# Times and their texts

`time_utils.hpp`: the timestamp that is written is read back as its second, and
the texts sort as the seconds do.
-/
namespace LlmTop
open Lib.Calendar

/-- The days from year 0 to 1970. -/
def epochDay : Int := 719528

/-- `gmtime_r`. -/
def gmtime (time : Int) : BrokenDownTime :=
  let date := dateOf (time / 86400 + epochDay)
  let second := (time % 86400).toNat
  { year := date.year
    month := date.month + 1
    day := date.day + 1
    hour := second / 3600
    minute := second / 60 % 60
    second := second % 60 }

/-- `timegm` in a month of the calendar; the fields below it carry over. -/
def timegm (year month day hour minute second : Int) : Int :=
  86400 * (dayNumber year (month - 1).toNat + (day - 1) - epochDay) + 3600 * hour + 60 * minute + second

/-- The conversion `%d` of `sscanf` with a width, which a sign counts in. -/
def scanInt (width : Nat) (text : Bytes) : Option (Int × Bytes) :=
  let body := text.dropWhile isSpace
  let signed := body.head? = some '-'.toUInt8 ∨ body.head? = some '+'.toUInt8
  let window := (if signed then body.tail else body).take (if signed then width - 1 else width)
  let digits := window.takeWhile isDigit
  if digits = [] then none
  else
    some (if body.head? = some '-'.toUInt8 then -digitsValue digits else digitsValue digits,
      (if signed then body.tail else body).drop digits.length)

/-- A byte of the format that is no conversion. -/
def scanMark (mark : UInt8) : Bytes → Option Bytes
  | [] => none
  | c :: rest => if c = mark then some rest else none

/-- `parse_iso8601_to_epoch`. -/
def parseIso8601ToEpoch (s : Bytes) : Option Int := do
  let text := s.takeWhile (· != 0)
  let (y, text) ← scanInt 4 text
  let text ← scanMark '-'.toUInt8 text
  let (mo, text) ← scanInt 2 text
  let text ← scanMark '-'.toUInt8 text
  let (d, text) ← scanInt 2 text
  let text ← scanMark 'T'.toUInt8 text
  let (h, text) ← scanInt 2 text
  let text ← scanMark ':'.toUInt8 text
  let (mi, text) ← scanInt 2 text
  let text ← scanMark ':'.toUInt8 text
  let (se, _) ← scanInt 2 text
  if mo < 1 ∨ mo > 12 ∨ d < 1 ∨ d > 31 ∨ h > 23 ∨ mi > 59 ∨ se > 60 then none
  else
    let t := timegm y mo d h mi se
    if t = -1 then none else some t

example : parseIso8601ToEpoch (ascii "2026-07-18T08:00:00Z") = some 1784361600 := by decide
example : parseIso8601ToEpoch (ascii "2026-02-31T-1:00:60") = some 1772492460 := by decide
example : getIsoTimestamp (gmtime (-1)) = ascii "1969-12-31T23:59:59Z" := by decide

/-! ## Numbers of a fixed width -/

/-- A number written in so many digits. -/
structure Numeral (width n : Nat) (text : Bytes) : Prop where
  length : text.length = width
  digits : ∀ c ∈ text, isDigit c = true
  value : digitsValue text = n

/-- The value of a digit. -/
def digitOf (c : UInt8) : Nat := c.toNat - '0'.toNat

theorem digitOf_lt {c : UInt8} (h : isDigit c = true) : digitOf c < 10 := by
  have hall := of_all_bytes (p := fun c => !isDigit c || decide (digitOf c < 10)) (by decide +kernel) c
  simpa [h] using hall

theorem digitOf_mono {c d : UInt8} (hc : isDigit c = true) (hd : isDigit d = true) :
    (digitOf c < digitOf d → c < d) ∧ (digitOf c = digitOf d → c = d) := by
  unfold isDigit at hc hd
  simp only [Bool.and_eq_true, decide_eq_true_eq, UInt8.le_iff_toNat_le] at hc hd
  have hzero : '0'.toUInt8.toNat = '0'.toNat := rfl
  rw [hzero] at hc hd
  unfold digitOf
  rw [UInt8.lt_iff_toNat_lt, ← UInt8.toNat_inj]
  omega

theorem digitsValue_from (digits : Bytes) (start : Nat) :
    digits.foldl (fun value c => 10 * value + digitOf c) start =
      start * 10 ^ digits.length + digitsValue digits := by
  induction digits generalizing start with
  | nil => simp [digitsValue]
  | cons c rest ih =>
      have hfirst : digitsValue (c :: rest) =
          rest.foldl (fun value c => 10 * value + digitOf c) (10 * 0 + digitOf c) := rfl
      rw [List.foldl_cons, ih, hfirst, ih, List.length_cons, Nat.pow_succ]
      ring

theorem digitsValue_cons (c : UInt8) (rest : Bytes) :
    digitsValue (c :: rest) = digitOf c * 10 ^ rest.length + digitsValue rest := by
  rw [← digitsValue_from rest (digitOf c), ← Nat.zero_add (digitOf c)]
  rfl

theorem digitsValue_lt {digits : Bytes} (h : ∀ c ∈ digits, isDigit c = true) :
    digitsValue digits < 10 ^ digits.length := by
  induction digits with
  | nil => exact Nat.one_pos
  | cons c rest ih =>
      obtain ⟨hc, hrest⟩ := List.forall_mem_cons.mp h
      have hlast := ih hrest
      have hdigit : (digitOf c + 1) * 10 ^ rest.length ≤ 10 * 10 ^ rest.length :=
        Nat.mul_le_mul_right _ (digitOf_lt hc)
      rw [digitsValue_cons, List.length_cons, Nat.pow_succ]
      rw [Nat.add_mul] at hdigit
      omega

/-- Texts of one width sort as their values do. -/
theorem digits_lt {digits digits' : Bytes} (hlength : digits.length = digits'.length)
    (h : ∀ c ∈ digits, isDigit c = true) (h' : ∀ c ∈ digits', isDigit c = true) :
    (digitsValue digits < digitsValue digits' → digits < digits') ∧
      (digitsValue digits = digitsValue digits' → digits = digits') := by
  induction digits generalizing digits' with
  | nil =>
      obtain rfl := List.eq_nil_of_length_eq_zero hlength.symm
      exact ⟨fun h => absurd h (Nat.lt_irrefl _), fun _ => rfl⟩
  | cons c rest ih =>
      obtain ⟨d, rest', rfl⟩ := List.exists_cons_of_length_eq_add_one hlength.symm
      obtain ⟨hc, hrest⟩ := List.forall_mem_cons.mp h
      obtain ⟨hd, hrest'⟩ := List.forall_mem_cons.mp h'
      have hlengths : rest.length = rest'.length := Nat.succ.inj hlength
      have hlow := digitsValue_lt hrest
      have hlow' := digitsValue_lt hrest'
      rw [digitsValue_cons, digitsValue_cons, hlengths, List.cons_lt_cons_iff]
      rw [hlengths] at hlow
      obtain ⟨hless, hsame⟩ := ih hlengths hrest hrest'
      obtain ⟨hdigit, heq⟩ := digitOf_mono hc hd
      rcases Nat.lt_trichotomy (digitOf c) (digitOf d) with hcd | hcd | hcd
      · have hstep := Nat.mul_le_mul_right (10 ^ rest'.length) (Nat.succ_le_of_lt hcd)
        rw [Nat.succ_mul] at hstep
        exact ⟨fun _ => Or.inl (hdigit hcd), fun _ => by omega⟩
      · rw [hcd]
        refine ⟨fun hvalue => Or.inr ⟨heq hcd, hless (by omega)⟩, fun hvalue => ?_⟩
        rw [heq hcd, hsame (by omega)]
      · have hstep := Nat.mul_le_mul_right (10 ^ rest'.length) (Nat.succ_le_of_lt hcd)
        rw [Nat.succ_mul] at hstep
        exact ⟨fun _ => by omega, fun _ => by omega⟩

theorem append_lt_append {text text' : Bytes} (hlength : text.length = text'.length) (h : text < text')
    (rest rest' : Bytes) : text ++ rest < text' ++ rest' := by
  induction text generalizing text' with
  | nil =>
      obtain rfl := List.eq_nil_of_length_eq_zero hlength.symm
      exact absurd h (List.lt_irrefl _)
  | cons c tail ih =>
      obtain ⟨d, tail', rfl⟩ := List.exists_cons_of_length_eq_add_one hlength.symm
      rw [List.cons_append, List.cons_append, List.cons_lt_cons_iff]
      rw [List.cons_lt_cons_iff] at h
      exact h.imp_right (And.imp_right (ih (Nat.succ.inj hlength)))

namespace Numeral

variable {width n : Nat} {text : Bytes} (numeral : Numeral width n text)

include numeral

theorem scanInt_append (hwidth : 0 < width) (rest : Bytes) :
    scanInt width (text ++ rest) = some ((n : Int), rest) := by
  obtain ⟨c, tail, rfl⟩ := List.exists_cons_of_length_pos (numeral.length ▸ hwidth)
  have hdigit := numeral.digits c List.mem_cons_self
  obtain ⟨hminus, hplus⟩ := not_sign_of_isDigit hdigit
  have hbody : ((c :: tail) ++ rest).dropWhile isSpace = (c :: tail) ++ rest := by
    rw [List.cons_append, List.dropWhile_cons_of_neg]
    rw [not_isSpace_of_isDigit hdigit]
    exact Bool.false_ne_true
  have hsigned : ¬(((c :: tail) ++ rest).head? = some '-'.toUInt8 ∨
      ((c :: tail) ++ rest).head? = some '+'.toUInt8) := by
    rw [List.cons_append, List.head?_cons, Option.some.injEq, Option.some.injEq]
    exact not_or.mpr ⟨hminus, hplus⟩
  have hwindow : (((c :: tail) ++ rest).take width).takeWhile isDigit = c :: tail := by
    rw [← numeral.length, List.take_left, List.takeWhile_eq_self_iff]
    exact numeral.digits
  unfold scanInt
  simp only [hbody, if_neg hsigned]
  rw [hwindow, if_neg (List.cons_ne_nil c tail), if_neg (not_or.mp hsigned).1, List.drop_left,
    numeral.value]

theorem append_lt {n' : Nat} {text' : Bytes} (numeral' : Numeral width n' text') {rest rest' : Bytes}
    (h : n < n' ∨ n = n' ∧ rest < rest') : text ++ rest < text' ++ rest' := by
  have hlength := numeral.length.trans numeral'.length.symm
  obtain ⟨hless, hsame⟩ := digits_lt hlength numeral.digits numeral'.digits
  rw [numeral.value, numeral'.value] at hless hsame
  rcases h with h | ⟨h, hrest⟩
  · exact append_lt_append hlength (hless h) rest rest'
  · rw [hsame h]
    exact List.append_left_lt hrest

end Numeral

theorem numeral_twoDigits {n : Nat} (h : n < 100) : Numeral 2 n (twoDigits n) := by
  have hall : ∀ n < 100, (twoDigits n).length = 2 ∧ (twoDigits n).all isDigit = true ∧
      digitsValue (twoDigits n) = n := by decide +kernel
  obtain ⟨hlength, hdigits, hvalue⟩ := hall n h
  exact ⟨hlength, List.all_eq_true.mp hdigits, hvalue⟩

theorem numeral_year {y : Int} (hlow : 1000 ≤ y) (hhigh : y ≤ 9999) :
    Numeral 4 y.toNat (toDecimal y) := by
  have htext : toDecimal y = natDecimal y.toNat := by
    have habs : y.natAbs = y.toNat := by omega
    rw [toDecimal, if_neg (by omega), habs]
  rw [htext]
  refine ⟨?_, fun c hc => isDigit_of_mem_natDecimal hc, digitsValue_natDecimal _⟩
  rw [natDecimal, if_neg (by omega), List.length_map, List.length_reverse]
  have hupper := (Nat.digits_length_le_iff (by decide : 1 < 10) y.toNat).mpr (by omega : y.toNat < 10 ^ 4)
  have hlower := (Nat.lt_digits_length_iff (by decide : 1 < 10) y.toNat).mpr (by omega : 10 ^ 3 ≤ y.toNat)
  omega

/-! ## The fields of a time -/

structure BrokenDownTime.Normal (tm : BrokenDownTime) : Prop where
  month : 1 ≤ tm.month ∧ tm.month ≤ 12
  day : 1 ≤ tm.day ∧ tm.day ≤ 31
  hour : tm.hour ≤ 23
  minute : tm.minute ≤ 59
  second : tm.second ≤ 59

theorem gmtime_normal (time : Int) : (gmtime time).Normal := by
  obtain ⟨hmonth, hday⟩ := dateOf_valid (time / 86400 + epochDay)
  have hsecond : (time % 86400).toNat < 86400 := by omega
  refine ⟨⟨Nat.succ_pos _, hmonth⟩, ⟨Nat.succ_pos _, ?_⟩, ?_, ?_, ?_⟩
  · exact Nat.lt_of_lt_of_le hday (monthLength_le _ _)
  · show (time % 86400).toNat / 3600 ≤ 23
    omega
  · show (time % 86400).toNat / 60 % 60 ≤ 59
    omega
  · show (time % 86400).toNat % 60 ≤ 59
    omega

/-- The second that a broken-down time names. -/
def BrokenDownTime.epoch (tm : BrokenDownTime) : Int :=
  timegm tm.year tm.month tm.day tm.hour tm.minute tm.second

theorem gmtime_eq {time : Int} {date : Date} (h : dateOf (time / 86400 + epochDay) = date) :
    gmtime time = ⟨date.year, date.month + 1, date.day + 1, (time % 86400).toNat / 3600,
      (time % 86400).toNat / 60 % 60, (time % 86400).toNat % 60⟩ := by
  rw [← h]
  rfl

theorem epoch_gmtime (time : Int) : (gmtime time).epoch = time := by
  have hday := dayNumber_dateOf (time / 86400 + epochDay)
  generalize hdate : dateOf (time / 86400 + epochDay) = date at hday
  have hmonth : (((date.month + 1 : Nat) : Int) - 1).toNat = date.month := by omega
  rw [gmtime_eq hdate]
  unfold BrokenDownTime.epoch timegm
  dsimp only
  rw [hmonth]
  omega

/-! ## Reading a timestamp -/

theorem getIsoTimestamp_eq (tm : BrokenDownTime) :
    getIsoTimestamp tm = toDecimal tm.year ++ ('-'.toUInt8 :: (twoDigits tm.month ++
      ('-'.toUInt8 :: (twoDigits tm.day ++ ('T'.toUInt8 :: (twoDigits tm.hour ++
      (':'.toUInt8 :: (twoDigits tm.minute ++ (':'.toUInt8 :: (twoDigits tm.second ++
        ['Z'.toUInt8])))))))))) := by
  have hdash : ascii "-" = ['-'.toUInt8] := rfl
  have hcolon : ascii ":" = [':'.toUInt8] := rfl
  have hletters : ascii "T" = ['T'.toUInt8] ∧ ascii "Z" = ['Z'.toUInt8] := ⟨rfl, rfl⟩
  unfold getIsoTimestamp
  simp only [hdash, hcolon, hletters.1, hletters.2, List.append_assoc, List.cons_append, List.nil_append]

theorem scanMark_cons (mark : UInt8) (rest : Bytes) : scanMark mark (mark :: rest) = some rest :=
  if_pos rfl

section Read

variable {tm : BrokenDownTime} (hyear : 1000 ≤ tm.year ∧ tm.year ≤ 9999) (htm : tm.Normal)

include hyear htm

theorem parse_getIsoTimestamp :
    parseIso8601ToEpoch (getIsoTimestamp tm) = if tm.epoch = -1 then none else some tm.epoch := by
  have htext : (getIsoTimestamp tm).takeWhile (· != 0) = getIsoTimestamp tm := by
    refine List.takeWhile_eq_self_iff.mpr fun c hc => ?_
    have hplain := isPlainByte_timestamp hc
    rw [bne_iff_ne]
    rintro rfl
    exact absurd hplain (by decide)
  have hy : (tm.year.toNat : Int) = tm.year := Int.toNat_of_nonneg (by omega)
  obtain ⟨hmonth, hday, hhour, hminute, hsecond⟩ := htm
  unfold parseIso8601ToEpoch
  dsimp only
  rw [htext, getIsoTimestamp_eq, (numeral_year hyear.1 hyear.2).scanInt_append (by decide)]
  simp only [Option.bind_eq_bind, Option.bind_some, scanMark_cons,
    (numeral_twoDigits (by omega : tm.month < 100)).scanInt_append (by decide),
    (numeral_twoDigits (by omega : tm.day < 100)).scanInt_append (by decide),
    (numeral_twoDigits (by omega : tm.hour < 100)).scanInt_append (by decide),
    (numeral_twoDigits (by omega : tm.minute < 100)).scanInt_append (by decide),
    (numeral_twoDigits (by omega : tm.second < 100)).scanInt_append (by decide)]
  rw [if_neg (by omega), hy]
  rfl

end Read

/-! ## The order of timestamps -/

/-- The fields in their order, the first difference deciding. -/
def BrokenDownTime.Earlier (tm tm' : BrokenDownTime) : Prop :=
  tm.year < tm'.year ∨ tm.year = tm'.year ∧ (tm.month < tm'.month ∨ tm.month = tm'.month ∧
    (tm.day < tm'.day ∨ tm.day = tm'.day ∧ (tm.hour < tm'.hour ∨ tm.hour = tm'.hour ∧
      (tm.minute < tm'.minute ∨ tm.minute = tm'.minute ∧ tm.second < tm'.second))))

theorem gmtime_earlier {time time' : Int} (h : time < time') : (gmtime time).Earlier (gmtime time') := by
  unfold BrokenDownTime.Earlier
  rcases Int.lt_or_eq_of_le (Int.ediv_le_ediv (by decide : (0 : Int) < 86400) h.le) with hday | hday
  · have hbefore := dateOf_before (Int.add_lt_add_right hday epochDay)
    unfold Date.Before at hbefore
    rw [gmtime_eq rfl, gmtime_eq rfl]
    dsimp only
    omega
  · have hsecond : (time % 86400).toNat < (time' % 86400).toNat := by omega
    rw [gmtime_eq rfl, gmtime_eq rfl, hday]
    dsimp only
    omega

theorem getIsoTimestamp_lt {tm tm' : BrokenDownTime} (hyear : 1000 ≤ tm.year ∧ tm.year ≤ 9999)
    (hyear' : 1000 ≤ tm'.year ∧ tm'.year ≤ 9999) (htm : tm.Normal) (htm' : tm'.Normal)
    (h : tm.Earlier tm') : getIsoTimestamp tm < getIsoTimestamp tm' := by
  have hmark : ∀ {c : UInt8} {rest rest' : Bytes}, rest < rest' → c :: rest < c :: rest' :=
    fun h => List.cons_lt_cons_iff.mpr (Or.inr ⟨rfl, h⟩)
  have hfield : ∀ {n n' : Nat} {rest rest' : Bytes}, n < 100 → n' < 100 →
      (n < n' ∨ n = n' ∧ rest < rest') → twoDigits n ++ rest < twoDigits n' ++ rest' :=
    fun hn hn' => (numeral_twoDigits hn).append_lt (numeral_twoDigits hn')
  obtain ⟨hmonth, hday, hhour, hminute, hsecond⟩ := htm
  obtain ⟨hmonth', hday', hhour', hminute', hsecond'⟩ := htm'
  rw [getIsoTimestamp_eq, getIsoTimestamp_eq]
  refine (numeral_year hyear.1 hyear.2).append_lt (numeral_year hyear'.1 hyear'.2) ?_
  refine Or.imp (fun h => by omega) (And.imp (fun h => by omega) fun h => hmark ?_) h
  refine hfield (by omega) (by omega) (h.imp_right (And.imp_right fun h => hmark ?_))
  refine hfield (by omega) (by omega) (h.imp_right (And.imp_right fun h => hmark ?_))
  refine hfield (by omega) (by omega) (h.imp_right (And.imp_right fun h => hmark ?_))
  refine hfield (by omega) (by omega) (h.imp_right (And.imp_right fun h => hmark ?_))
  exact hfield (by omega) (by omega) (Or.inl h)

/-- A timestamp of a year of four digits is read back as its second, the second
before the epoch apart, and timestamps sort as times. -/
theorem timestamp_faithful {time time' : Int}
    (h : 1000 ≤ (gmtime time).year ∧ (gmtime time).year ≤ 9999)
    (h' : 1000 ≤ (gmtime time').year ∧ (gmtime time').year ≤ 9999) :
    (parseIso8601ToEpoch (getIsoTimestamp (gmtime time)) = if time = -1 then none else some time) ∧
      (getIsoTimestamp (gmtime time) < getIsoTimestamp (gmtime time') ↔ time < time') := by
  constructor
  · rw [parse_getIsoTimestamp h (gmtime_normal time), epoch_gmtime]
  · refine ⟨fun hless => ?_, fun hless =>
      getIsoTimestamp_lt h h' (gmtime_normal time) (gmtime_normal time') (gmtime_earlier hless)⟩
    rcases Int.lt_trichotomy time time' with hlt | rfl | hgt
    · exact hlt
    · exact absurd hless (List.lt_irrefl _)
    · exact absurd hless (List.lt_asymm (getIsoTimestamp_lt h' h (gmtime_normal time')
        (gmtime_normal time) (gmtime_earlier hgt)))

/-- A morning and the second before it; the last second before the epoch is the one
that is not read back. -/
theorem timestamp_faithful_morning :
    (parseIso8601ToEpoch (getIsoTimestamp (gmtime 1784361600)) = some 1784361600 ∧
      (getIsoTimestamp (gmtime 1784361600) < getIsoTimestamp (gmtime 1784361599) ↔
        (1784361600 : Int) < 1784361599)) ∧
    parseIso8601ToEpoch (getIsoTimestamp (gmtime (-1))) = none ∧
      (getIsoTimestamp (gmtime (-1)) < getIsoTimestamp (gmtime 0) ↔ (-1 : Int) < 0) :=
  ⟨@timestamp_faithful 1784361600 1784361599 (by decide) (by decide),
    @timestamp_faithful (-1) 0 (by decide) (by decide)⟩

example : getIsoTimestamp (gmtime 1784361600) = ascii "2026-07-18T08:00:00Z" := by decide +kernel

end LlmTop
