import Mathlib.Data.List.Basic
import Mathlib.Data.List.TakeWhile

/-!
# Reading JSON

A reader of RFC 8259 texts over bytes.  Strings keep bytes from 0x80 on as they
are, objects keep the order of their members, and a number is an integer and a
power of ten.  A reader returns what it read and the text behind it.
-/
namespace LlmTop.Lib.JsonReader

inductive Value where
  | null
  | bool (b : Bool)
  | number (mantissa exponent : Int)
  | string (s : List UInt8)
  | array (items : List Value)
  | object (members : List (List UInt8 × Value))

abbrev Reader (α : Type) := List UInt8 → Option (α × List UInt8)

variable {α : Type}

/-! ## White space -/

def isGap (c : UInt8) : Bool := c == 0x20 || c == 0x09 || c == 0x0A || c == 0x0D

def skip (text : List UInt8) : List UInt8 := text.dropWhile isGap

/-- What can stand behind a value: white space, a comma or a closing bracket. -/
def endsValue (c : UInt8) : Bool :=
  isGap c || c == ','.toUInt8 || c == ']'.toUInt8 || c == '}'.toUInt8

/-! ## Strings -/

def hexValue (c : UInt8) : Option Nat :=
  if '0'.toUInt8 ≤ c ∧ c ≤ '9'.toUInt8 then some (c.toNat - '0'.toNat)
  else if 'a'.toUInt8 ≤ c ∧ c ≤ 'f'.toUInt8 then some (c.toNat - 'a'.toNat + 10)
  else if 'A'.toUInt8 ≤ c ∧ c ≤ 'F'.toUInt8 then some (c.toNat - 'A'.toNat + 10)
  else none

def fourHex (w x y z : UInt8) : Option Nat := do
  let w ← hexValue w
  let x ← hexValue x
  let y ← hexValue y
  let z ← hexValue z
  some (((w * 16 + x) * 16 + y) * 16 + z)

/-- The escapes with one letter. -/
def letterValue (c : UInt8) : Option UInt8 :=
  if c = '"'.toUInt8 ∨ c = '\\'.toUInt8 ∨ c = '/'.toUInt8 then some c
  else if c = 'b'.toUInt8 then some 0x08
  else if c = 'f'.toUInt8 then some 0x0C
  else if c = 'n'.toUInt8 then some 0x0A
  else if c = 'r'.toUInt8 then some 0x0D
  else if c = 't'.toUInt8 then some 0x09
  else none

/-- The UTF-8 bytes of a code point. -/
def utf8Bytes (point : Nat) : List UInt8 :=
  if point < 0x80 then [UInt8.ofNat point]
  else if point < 0x800 then [UInt8.ofNat (0xC0 + point / 64), UInt8.ofNat (0x80 + point % 64)]
  else if point < 0x10000 then
    [UInt8.ofNat (0xE0 + point / 4096), UInt8.ofNat (0x80 + point / 64 % 64),
      UInt8.ofNat (0x80 + point % 64)]
  else
    [UInt8.ofNat (0xF0 + point / 262144), UInt8.ofNat (0x80 + point / 4096 % 64),
      UInt8.ofNat (0x80 + point / 64 % 64), UInt8.ofNat (0x80 + point % 64)]

/-- The second half of a surrogate pair, and the code point of the pair. -/
def pairPoint (high : Nat) (a b w x y z : UInt8) : Option Nat := do
  let low ← fourHex w x y z
  if a = '\\'.toUInt8 ∧ b = 'u'.toUInt8 ∧ 0xDC00 ≤ low ∧ low ≤ 0xDFFF then
    some (0x10000 + (high - 0xD800) * 0x400 + (low - 0xDC00))
  else none

def push (front : List UInt8) (read : Option (List UInt8 × List UInt8)) :
    Option (List UInt8 × List UInt8) :=
  read.map fun r => (front ++ r.1, r.2)

/-- A string behind its first quote.  Half of a surrogate pair on its own is no character. -/
def string : Reader (List UInt8)
  | [] => none
  | [c] => if c = '"'.toUInt8 then some ([], []) else none
  | c :: d :: rest =>
      if c = '"'.toUInt8 then some ([], d :: rest)
      else if c ≠ '\\'.toUInt8 then
        if c < 0x20 then none else push [c] (string (d :: rest))
      else if d ≠ 'u'.toUInt8 then
        match letterValue d with
        | none => none
        | some b => push [b] (string rest)
      else
        match rest with
        | w :: x :: y :: z :: rest =>
            match fourHex w x y z with
            | none => none
            | some point =>
                if point < 0xD800 ∨ 0xDFFF < point then push (utf8Bytes point) (string rest)
                else if 0xDBFF < point then none
                else
                  match rest with
                  | a :: b :: w :: x :: y :: z :: rest =>
                      match pairPoint point a b w x y z with
                      | none => none
                      | some point => push (utf8Bytes point) (string rest)
                  | _ => none
        | _ => none

/-! ## Numbers and literals -/

def isDigit (c : UInt8) : Bool := '0'.toUInt8 ≤ c && c ≤ '9'.toUInt8

def digitsValue (ds : List UInt8) : Nat := ds.foldl (fun n c => 10 * n + (c.toNat - '0'.toNat)) 0

def digits : Reader (List UInt8) := fun text =>
  if (text.takeWhile isDigit).isEmpty then none
  else some (text.takeWhile isDigit, text.dropWhile isDigit)

/-- The part in front of the point: no zero leads other digits. -/
def whole : Reader (List UInt8)
  | [] => none
  | c :: rest => if c = '0'.toUInt8 then some ([c], rest) else digits (c :: rest)

def fraction : Reader (List UInt8)
  | [] => some ([], [])
  | c :: rest => if c = '.'.toUInt8 then digits rest else some ([], c :: rest)

def sign : List UInt8 → Bool × List UInt8
  | [] => (false, [])
  | c :: rest =>
      if c = '-'.toUInt8 then (true, rest)
      else if c = '+'.toUInt8 then (false, rest)
      else (false, c :: rest)

def signed (minus : Bool) (n : Nat) : Int := if minus then -n else n

def exponent : Reader Int
  | [] => some (0, [])
  | c :: rest =>
      if c = 'e'.toUInt8 ∨ c = 'E'.toUInt8 then
        (digits (sign rest).2).map fun r => (signed (sign rest).1 (digitsValue r.1), r.2)
      else some (0, c :: rest)

def unsigned (minus : Bool) : Reader Value := fun text => do
  let (ds, text) ← whole text
  let (fs, text) ← fraction text
  let (e, text) ← exponent text
  some (.number (signed minus (digitsValue (ds ++ fs))) (e - fs.length), text)

def number : Reader Value
  | [] => none
  | c :: rest => if c = '-'.toUInt8 then unsigned true rest else unsigned false (c :: rest)

def literals : List (List UInt8 × Value) :=
  [(['t', 'r', 'u', 'e'].map Char.toUInt8, .bool true),
    (['f', 'a', 'l', 's', 'e'].map Char.toUInt8, .bool false),
    (['n', 'u', 'l', 'l'].map Char.toUInt8, .null)]

def scalar : Reader Value := fun text =>
  match literals.find? fun word => word.1.isPrefixOf text with
  | some word => some (word.2, text.drop word.1.length)
  | none => number text

/-! ## Values -/

/-- Items with commas between them, up to the closing bracket; the fuel bounds
their number. -/
def items (close : UInt8) (item : Reader α) : Nat → Reader (List α)
  | 0, _ => none
  | fuel + 1, text =>
      match item (skip text) with
      | none => none
      | some (a, text) =>
          match skip text with
          | [] => none
          | c :: text =>
              if c = close then some ([a], text)
              else if c = ','.toUInt8 then
                (items close item fuel text).map fun r => (a :: r.1, r.2)
              else none

/-- What stands behind an opening bracket. -/
def bracketed (close : UInt8) (item : Reader α) : Reader (List α) := fun text =>
  match skip text with
  | [] => none
  | c :: rest => if c = close then some ([], rest) else items close item text.length text

def member (value : Reader Value) : Reader (List UInt8 × Value)
  | [] => none
  | c :: text =>
      if c = '"'.toUInt8 then
        match string text with
        | none => none
        | some (name, text) =>
            match skip text with
            | [] => none
            | c :: text =>
                if c = ':'.toUInt8 then (value (skip text)).map fun r => ((name, r.1), r.2)
                else none
      else none

/-- The first argument bounds how deep the brackets are nested. -/
def value : Nat → Reader Value
  | 0, _ => none
  | _ + 1, [] => none
  | depth + 1, c :: text =>
      if c = '"'.toUInt8 then (string text).map fun r => (.string r.1, r.2)
      else if c = '['.toUInt8 then
        (bracketed ']'.toUInt8 (value depth) text).map fun r => (.array r.1, r.2)
      else if c = '{'.toUInt8 then
        (bracketed '}'.toUInt8 (member (value depth)) text).map fun r => (.object r.1, r.2)
      else scalar (c :: text)

/-- A whole text is one value. -/
def read (text : List UInt8) : Option Value :=
  match value text.length (skip text) with
  | none => none
  | some (v, rest) => if (skip rest).isEmpty then some v else none

example : (read ("[1, 2.50e3]".toList.map Char.toUInt8)).isSome = true := by decide
example : (read ("[1, 2,]".toList.map Char.toUInt8)).isSome = false := by decide

/-! ## Texts and what they read as -/

def Gap (text : List UInt8) : Prop := ∀ c ∈ text, isGap c = true

instance (text : List UInt8) : Decidable (Gap text) :=
  decidable_of_iff (text.all isGap = true) List.all_eq_true

theorem gap_nil : Gap [] := List.forall_mem_nil _

/-- The reader takes the text whole, whatever may stand behind a value. -/
structure Reads (reader : Reader α) (text : List UInt8) (a : α) : Prop where
  starts : ∃ c ∈ text.head?, endsValue c = false
  run : ∀ rest, (∀ c ∈ rest.head?, endsValue c = true) → reader (text ++ rest) = some (a, rest)

theorem skip_gap {gap : List UInt8} (h : Gap gap) (text : List UInt8) : skip (gap ++ text) = skip text :=
  List.dropWhile_append_of_pos h

theorem skip_mark {gap : List UInt8} (hgap : Gap gap) {c : UInt8} (h : isGap c = false)
    (rest : List UInt8) : skip (gap ++ c :: rest) = c :: rest := by
  rw [skip_gap hgap]
  exact List.dropWhile_cons_of_neg (by simp [h])

theorem isGap_of_endsValue {c : UInt8} (h : endsValue c = false) : isGap c = false := by
  simp only [endsValue, Bool.or_eq_false_iff] at h
  exact h.1.1.1

theorem endsValue_of_isGap {c : UInt8} (h : isGap c = true) : endsValue c = true := by
  simp [endsValue, h]

theorem Reads.skip {reader : Reader α} {text : List UInt8} {a : α} (h : Reads reader text a)
    {before : List UInt8} (hbefore : Gap before) (rest : List UInt8) :
    skip (before ++ (text ++ rest)) = text ++ rest := by
  obtain ⟨c, hc, hends⟩ := h.starts
  obtain ⟨tail, rfl⟩ := List.head?_eq_some_iff.mp hc
  exact skip_mark hbefore (isGap_of_endsValue hends) (tail ++ rest)

/-- White space and then a mark are what may stand behind a value. -/
theorem ends_gap {gap : List UInt8} (hgap : Gap gap) {c : UInt8} (h : endsValue c = true)
    (rest : List UInt8) : ∀ d ∈ (gap ++ c :: rest).head?, endsValue d = true := by
  intro d hd
  cases gap with
  | nil => exact Option.some.inj hd ▸ h
  | cons e gap =>
      obtain rfl := Option.some.inj hd
      exact endsValue_of_isGap (hgap e List.mem_cons_self)

/-! ## Strings -/

/-- Text between quotes, and the bytes it stands for. -/
def Spells (text decoded : List UInt8) : Prop :=
  ∀ rest, string (text ++ rest) = push decoded (string rest)

theorem push_push (front back : List UInt8) (read : Option (List UInt8 × List UInt8)) :
    push front (push back read) = push (front ++ back) read := by
  cases read with
  | none => rfl
  | some r => simp [push]

theorem spells_nil : Spells [] [] := by
  intro rest
  cases h : string rest <;> simp [push, h]

theorem Spells.append {text text' decoded decoded' : List UInt8} (h : Spells text decoded)
    (h' : Spells text' decoded') : Spells (text ++ text') (decoded ++ decoded') := by
  intro rest
  rw [List.append_assoc, h, h', push_push]

theorem spells_plain {c : UInt8} (hquote : c ≠ '"'.toUInt8) (hback : c ≠ '\\'.toUInt8)
    (hcontrol : ¬ c < 0x20) : Spells [c] [c] := by
  intro rest
  cases rest with
  | nil => simp [string, hquote, push]
  | cons d rest =>
      rw [List.singleton_append, string.eq_def (c :: d :: rest)]
      dsimp only
      rw [if_neg hquote, if_pos hback, if_neg hcontrol]

theorem spells_letter {c d : UInt8} (h : letterValue c = some d) : Spells ['\\'.toUInt8, c] [d] := by
  have hunicode : c ≠ 'u'.toUInt8 := by
    rintro rfl
    have hnone : letterValue 'u'.toUInt8 = none := by decide
    rw [hnone] at h
    contradiction
  intro rest
  rw [List.cons_append, List.singleton_append, string.eq_def ('\\'.toUInt8 :: c :: rest)]
  dsimp only
  rw [if_neg (by decide), if_neg (not_not.mpr rfl), if_pos hunicode, h]

theorem spells_unicode {w x y z : UInt8} {point : Nat} (h : fourHex w x y z = some point)
    (hplain : point < 0xD800) : Spells ['\\'.toUInt8, 'u'.toUInt8, w, x, y, z] (utf8Bytes point) := by
  intro rest
  simp only [List.cons_append, List.nil_append]
  rw [string.eq_def ('\\'.toUInt8 :: 'u'.toUInt8 :: _)]
  dsimp only
  rw [if_neg (by decide), if_neg (not_not.mpr rfl), if_neg (not_not.mpr rfl), h]
  exact if_pos (Or.inl hplain)

theorem string_close (rest : List UInt8) : string ('"'.toUInt8 :: rest) = some ([], rest) := by
  cases rest with
  | nil => rfl
  | cons d rest =>
      rw [string.eq_def]
      exact if_pos rfl

theorem Spells.close {text decoded : List UInt8} (h : Spells text decoded) (rest : List UInt8) :
    string (text ++ '"'.toUInt8 :: rest) = some (decoded, rest) := by
  rw [h, string_close, push, Option.map_some, List.append_nil]

theorem reads_string {text decoded : List UInt8} (h : Spells text decoded) (depth : Nat) :
    Reads (value (depth + 1)) ('"'.toUInt8 :: (text ++ ['"'.toUInt8])) (.string decoded) where
  starts := ⟨_, rfl, by decide⟩
  run := fun rest _ => by
    rw [List.cons_append, List.append_assoc, value, if_pos rfl, List.singleton_append, h.close]
    rfl

/-! ## Numbers and literals -/

theorem isDigit_ends {c : UInt8} (h : endsValue c = true) :
    isDigit c = false ∧ c ≠ '.'.toUInt8 ∧ c ≠ 'e'.toUInt8 ∧ c ≠ 'E'.toUInt8 := by
  simp only [endsValue, isGap, Bool.or_eq_true, beq_iff_eq] at h
  rcases h with (((((rfl | rfl) | rfl) | rfl) | rfl) | rfl) | rfl <;> decide

/-- Digits in front of a text: a zero alone, or no zero leads them. -/
def IsWhole (ds : List UInt8) : Prop :=
  ds = ['0'.toUInt8] ∨
    ∃ c rest, ds = c :: rest ∧ c ≠ '0'.toUInt8 ∧ ∀ d ∈ c :: rest, isDigit d = true

theorem IsWhole.head {ds : List UInt8} (h : IsWhole ds) : ∃ c rest, ds = c :: rest ∧ isDigit c = true := by
  rcases h with rfl | ⟨c, rest, rfl, -, hall⟩
  · exact ⟨_, _, rfl, by decide⟩
  · exact ⟨c, rest, rfl, hall c List.mem_cons_self⟩

theorem IsWhole.whole {ds rest : List UInt8} (h : IsWhole ds) (hrest : ∀ c ∈ rest.head?, isDigit c = false) :
    whole (ds ++ rest) = some (ds, rest) := by
  rcases h with rfl | ⟨c, cs, rfl, hzero, hall⟩
  · rw [List.singleton_append, JsonReader.whole, if_pos rfl]
  · have htake : (c :: cs ++ rest).takeWhile isDigit = c :: cs := by
      rw [List.takeWhile_append_of_pos hall]
      cases rest with
      | nil => exact List.append_nil _
      | cons d rest => rw [List.takeWhile_cons_of_neg (by simp [hrest d rfl]), List.append_nil]
    have hdrop : (c :: cs ++ rest).dropWhile isDigit = rest := by
      rw [List.dropWhile_append_of_pos hall]
      cases rest with
      | nil => rfl
      | cons d rest => exact List.dropWhile_cons_of_neg (by simp [hrest d rfl])
    rw [List.cons_append] at htake hdrop ⊢
    rw [JsonReader.whole, if_neg hzero, digits, htake, hdrop]
    rfl

theorem unsigned_whole {ds rest : List UInt8} (h : IsWhole ds)
    (hrest : ∀ c ∈ rest.head?, endsValue c = true) (minus : Bool) :
    unsigned minus (ds ++ rest) = some (.number (signed minus (digitsValue ds)) 0, rest) := by
  have hends : ∀ c ∈ rest.head?, isDigit c = false := fun c hc => (isDigit_ends (hrest c hc)).1
  have hfraction : fraction rest = some ([], rest) := by
    cases rest with
    | nil => rfl
    | cons c rest => exact if_neg (isDigit_ends (hrest c rfl)).2.1
  have hexponent : exponent rest = some (0, rest) := by
    cases rest with
    | nil => rfl
    | cons c rest =>
        have hmarks := (isDigit_ends (hrest c rfl)).2.2
        exact if_neg (not_or.mpr hmarks)
  rw [unsigned, h.whole hends]
  simp [hfraction, hexponent]

theorem scalar_number {c : UInt8} (h : isDigit c = true ∨ c = '-'.toUInt8) (rest : List UInt8) :
    scalar (c :: rest) = number (c :: rest) := by
  have hletter : c ≠ 't'.toUInt8 ∧ c ≠ 'f'.toUInt8 ∧ c ≠ 'n'.toUInt8 := by
    refine ⟨?_, ?_, ?_⟩ <;>
    · rintro rfl
      revert h
      decide
  have hnone : (literals.find? fun word => word.1.isPrefixOf (c :: rest)) = none := by
    simp [literals, List.isPrefixOf, Ne.symm hletter.1, Ne.symm hletter.2.1, Ne.symm hletter.2.2]
  rw [scalar, hnone]

theorem value_scalar {c : UInt8} (h : isDigit c = true ∨ c = '-'.toUInt8) (depth : Nat)
    (rest : List UInt8) : value (depth + 1) (c :: rest) = number (c :: rest) := by
  have hmarks : c ≠ '"'.toUInt8 ∧ c ≠ '['.toUInt8 ∧ c ≠ '{'.toUInt8 := by
    refine ⟨?_, ?_, ?_⟩ <;>
    · rintro rfl
      revert h
      decide
  rw [value, if_neg hmarks.1, if_neg hmarks.2.1, if_neg hmarks.2.2, scalar_number h]

theorem reads_natural {ds : List UInt8} (h : IsWhole ds) (depth : Nat) :
    Reads (value (depth + 1)) ds (.number (digitsValue ds) 0) := by
  obtain ⟨c, cs, rfl, hc⟩ := h.head
  have hminus : c ≠ '-'.toUInt8 := by
    rintro rfl
    exact absurd hc (by decide)
  refine ⟨⟨c, rfl, ?_⟩, fun rest hrest => ?_⟩
  · refine Bool.eq_false_iff.mpr fun hends => ?_
    rw [(isDigit_ends hends).1] at hc
    contradiction
  · rw [List.cons_append, value_scalar (Or.inl hc), number, if_neg hminus, ← List.cons_append]
    exact unsigned_whole h hrest false

theorem reads_negative {ds : List UInt8} (h : IsWhole ds) (depth : Nat) :
    Reads (value (depth + 1)) ('-'.toUInt8 :: ds) (.number (-digitsValue ds) 0) where
  starts := ⟨_, rfl, by decide⟩
  run := fun rest hrest => by
    rw [List.cons_append, value_scalar (Or.inr rfl), number, if_pos rfl]
    exact unsigned_whole h hrest true

theorem reads_true (depth : Nat) :
    Reads (value (depth + 1)) (['t', 'r', 'u', 'e'].map Char.toUInt8) (.bool true) where
  starts := ⟨_, rfl, by decide⟩
  run := fun _ _ => rfl

theorem reads_false (depth : Nat) :
    Reads (value (depth + 1)) (['f', 'a', 'l', 's', 'e'].map Char.toUInt8) (.bool false) where
  starts := ⟨_, rfl, by decide⟩
  run := fun _ _ => rfl

/-! ## Arrays and objects -/

/-- Texts of items with commas between them, up to the closing bracket. -/
inductive Items (close : UInt8) (item : List UInt8 → α → Prop) : List UInt8 → List α → Prop where
  | last {before text after : List UInt8} {a : α} (hbefore : Gap before) (htext : item text a)
      (hafter : Gap after) : Items close item (before ++ (text ++ (after ++ [close]))) [a]
  | more {before text after later : List UInt8} {a : α} {as : List α} (hbefore : Gap before)
      (htext : item text a) (hafter : Gap after) (hlater : Items close item later as) :
      Items close item (before ++ (text ++ (after ++ ','.toUInt8 :: later))) (a :: as)

/-- What stands between brackets, with the closing one. -/
inductive Body (close : UInt8) (item : List UInt8 → α → Prop) : List UInt8 → List α → Prop where
  | empty {gap : List UInt8} (hgap : Gap gap) : Body close item (gap ++ [close]) []
  | items {text : List UInt8} {as : List α} (htext : Items close item text as) :
      Body close item text as

theorem Gap.append {gap gap' : List UInt8} (h : Gap gap) (h' : Gap gap') : Gap (gap ++ gap') :=
  List.forall_mem_append.mpr ⟨h, h'⟩

/-- White space in front joins what is there. -/
theorem Items.indent {close : UInt8} {item : List UInt8 → α → Prop} {text gap : List UInt8}
    {as : List α} (hgap : Gap gap) (h : Items close item text as) :
    Items close item (gap ++ text) as := by
  cases h with
  | last hbefore htext hafter =>
      rw [← List.append_assoc]
      exact .last (hgap.append hbefore) htext hafter
  | more hbefore htext hafter hlater =>
      rw [← List.append_assoc]
      exact .more (hgap.append hbefore) htext hafter hlater

theorem Items.length_le {close : UInt8} {item : List UInt8 → α → Prop} {text : List UInt8}
    {as : List α} (h : Items close item text as) : as.length ≤ text.length := by
  induction h with
  | last =>
      simp only [List.length_append, List.length_singleton]
      omega
  | more _ _ _ _ ih =>
      simp only [List.length_append, List.length_cons]
      omega

/-- Items with nothing but a comma between them. -/
theorem body_intercalate {ι : Type} {close : UInt8} {item : List UInt8 → α → Prop}
    {text : ι → List UInt8} {val : ι → α} {xs : List ι} (h : ∀ x ∈ xs, item (text x) (val x)) :
    Body close item ([','.toUInt8].intercalate (xs.map text) ++ [close]) (xs.map val) := by
  cases xs with
  | nil => exact .empty gap_nil
  | cons x xs =>
      refine .items ?_
      induction xs generalizing x with
      | nil =>
          rw [List.map_singleton, List.map_singleton, List.intercalate_singleton]
          exact .last gap_nil (h x List.mem_cons_self) gap_nil
      | cons y ys ih =>
          have hlater := ih y fun z hz => h z (List.mem_cons_of_mem x hz)
          have hitems := Items.more gap_nil (h x List.mem_cons_self) gap_nil hlater
          rw [List.map_cons, List.map_cons, List.intercalate_cons_cons, List.append_assoc,
            List.append_assoc]
          exact hitems

section Brackets

variable {close : UInt8} (hclose : close = ']'.toUInt8 ∨ close = '}'.toUInt8)

include hclose

theorem closes : endsValue close = true ∧ isGap close = false ∧ close ≠ ','.toUInt8 := by
  rcases hclose with rfl | rfl <;> decide

theorem Items.run {reader : Reader α} {text : List UInt8} {as : List α}
    (h : Items close (Reads reader) text as) {fuel : Nat} (hfuel : as.length ≤ fuel)
    (rest : List UInt8) : items close reader fuel (text ++ rest) = some (as, rest) := by
  obtain ⟨hends, hgap, hcomma⟩ := closes hclose
  induction h generalizing fuel with
  | last hbefore htext hafter =>
      cases fuel with
      | zero => exact absurd hfuel (Nat.not_succ_le_zero 0)
      | succ fuel =>
          simp only [List.append_assoc, List.singleton_append]
          rw [items, htext.skip hbefore, htext.run _ (ends_gap hafter hends rest)]
          dsimp only
          rw [skip_mark hafter hgap]
          exact if_pos rfl
  | more hbefore htext hafter hlater ih =>
      cases fuel with
      | zero => exact absurd hfuel (Nat.not_succ_le_zero _)
      | succ fuel =>
          simp only [List.append_assoc, List.cons_append]
          rw [items, htext.skip hbefore, htext.run _ (ends_gap hafter (by decide) _)]
          dsimp only
          rw [skip_mark hafter (by decide)]
          dsimp only
          rw [if_neg hcomma.symm, if_pos rfl, ih (Nat.le_of_succ_le_succ hfuel)]
          rfl

/-- The first item is not taken for a closing bracket. -/
theorem Items.skip {reader : Reader α} {text : List UInt8} {as : List α}
    (h : Items close (Reads reader) text as) (rest : List UInt8) :
    ∃ c later, skip (text ++ rest) = c :: later ∧ c ≠ close := by
  have hfirst : ∀ {before text : List UInt8} {a : α}, Gap before → Reads reader text a →
      ∀ rest, ∃ c later, JsonReader.skip (before ++ (text ++ rest)) = c :: later ∧ c ≠ close := by
    intro before text a hbefore htext rest
    obtain ⟨c, hc, hends⟩ := htext.starts
    obtain ⟨tail, rfl⟩ := List.head?_eq_some_iff.mp hc
    refine ⟨c, tail ++ rest, htext.skip hbefore rest, ?_⟩
    rintro rfl
    rw [(closes hclose).1] at hends
    contradiction
  cases h with
  | last hbefore htext hafter =>
      rw [List.append_assoc, List.append_assoc]
      exact hfirst hbefore htext _
  | more hbefore htext hafter hlater =>
      rw [List.append_assoc, List.append_assoc]
      exact hfirst hbefore htext _

theorem Body.run {reader : Reader α} {text : List UInt8} {as : List α}
    (h : Body close (Reads reader) text as) (rest : List UInt8) :
    bracketed close reader (text ++ rest) = some (as, rest) := by
  cases h with
  | empty hgap =>
      rw [List.append_assoc, List.singleton_append, bracketed,
        skip_mark hgap (closes hclose).2.1]
      exact if_pos rfl
  | items htext =>
      obtain ⟨c, later, hskip, hc⟩ := htext.skip hclose rest
      have hfuel : as.length ≤ (text ++ rest).length :=
        Nat.le_trans htext.length_le (by simp)
      rw [bracketed, hskip]
      dsimp only
      rw [if_neg hc, htext.run hclose hfuel]

end Brackets

theorem reads_array {depth : Nat} {text : List UInt8} {vs : List Value}
    (h : Body ']'.toUInt8 (Reads (value depth)) text vs) :
    Reads (value (depth + 1)) ('['.toUInt8 :: text) (.array vs) where
  starts := ⟨_, rfl, by decide⟩
  run := fun rest _ => by
    rw [List.cons_append, value, if_neg (by decide), if_pos rfl, h.run (Or.inl rfl)]
    rfl

theorem reads_object {depth : Nat} {text : List UInt8} {members : List (List UInt8 × Value)}
    (h : Body '}'.toUInt8 (Reads (member (value depth))) text members) :
    Reads (value (depth + 1)) ('{'.toUInt8 :: text) (.object members) where
  starts := ⟨_, rfl, by decide⟩
  run := fun rest _ => by
    rw [List.cons_append, value, if_neg (by decide), if_neg (by decide), if_pos rfl,
      h.run (Or.inr rfl)]
    rfl

theorem reads_member {reader : Reader Value} {name decoded gap gap' text : List UInt8} {v : Value}
    (hname : Spells name decoded) (hgap : Gap gap) (hgap' : Gap gap') (h : Reads reader text v) :
    Reads (member reader)
      ('"'.toUInt8 :: (name ++ '"'.toUInt8 :: (gap ++ ':'.toUInt8 :: (gap' ++ text)))) (decoded, v) where
  starts := ⟨_, rfl, by decide⟩
  run := fun rest hrest => by
    simp only [List.cons_append, List.append_assoc]
    rw [member, if_pos rfl, hname.close]
    dsimp only
    rw [skip_mark hgap (by decide)]
    dsimp only
    rw [if_pos rfl, h.skip hgap', h.run rest hrest]
    rfl

/-- A text of one value, with white space around it. -/
theorem read_eq {before text after : List UInt8} {v : Value} (hbefore : Gap before) (hafter : Gap after)
    (h : Reads (value (before ++ (text ++ after)).length) text v) :
    read (before ++ (text ++ after)) = some v := by
  have hends : ∀ c ∈ after.head?, endsValue c = true :=
    fun c hc => endsValue_of_isGap (hafter c (List.mem_of_mem_head? hc))
  have hrest : skip after = [] := List.dropWhile_eq_nil_iff.mpr hafter
  rw [read, h.skip hbefore, h.run after hends]
  dsimp only
  rw [hrest]
  rfl

end LlmTop.Lib.JsonReader
