import Mathlib.Data.List.Basic

/-!
# JSON texts

The grammar of RFC 8259 as trees that keep their white space, numbers and
escapes as written; `text` is the UTF-8 text of a tree.  A string decodes to its
characters unless an escape in it is a surrogate.
-/
namespace LlmTop.Lib.Json

def utf8 (chars : List Char) : List UInt8 := chars.flatMap String.utf8EncodeChar

/-! ## Strings -/

/-- The escapes with one letter. -/
inductive Escape where
  | quotationMark
  | reverseSolidus
  | solidus
  | backspace
  | formFeed
  | lineFeed
  | carriageReturn
  | tab

namespace Escape

def letter : Escape → UInt8
  | quotationMark => '"'.toUInt8
  | reverseSolidus => '\\'.toUInt8
  | solidus => '/'.toUInt8
  | backspace => 'b'.toUInt8
  | formFeed => 'f'.toUInt8
  | lineFeed => 'n'.toUInt8
  | carriageReturn => 'r'.toUInt8
  | tab => 't'.toUInt8

def char : Escape → Char
  | quotationMark => '"'
  | reverseSolidus => '\\'
  | solidus => '/'
  | backspace => '\x08'
  | formFeed => '\x0c'
  | lineFeed => '\n'
  | carriageReturn => '\r'
  | tab => '\t'

end Escape

structure HexDigit where
  value : Fin 16
  upper : Bool

def HexDigit.byte (d : HexDigit) : UInt8 :=
  if d.value.val < 10 then UInt8.ofNat ('0'.toNat + d.value.val)
  else UInt8.ofNat ((if d.upper then 'A'.toNat else 'a'.toNat) + (d.value.val - 10))

def IsSurrogate (codePoint : Nat) : Prop := 0xD800 ≤ codePoint ∧ codePoint ≤ 0xDFFF

instance (codePoint : Nat) : Decidable (IsSurrogate codePoint) := inferInstanceAs (Decidable (_ ∧ _))

/-- One character of a string, written out or escaped. -/
inductive Item where
  | unescaped (c : Char) (control : 0x20 ≤ c.toNat) (plain : c ≠ '"' ∧ c ≠ '\\')
  | escaped (e : Escape)
  | unicode (w x y z : HexDigit)

namespace Item

def codePoint (w x y z : HexDigit) : Nat :=
  ((w.value.val * 16 + x.value.val) * 16 + y.value.val) * 16 + z.value.val

def text : Item → List UInt8
  | unescaped c _ _ => String.utf8EncodeChar c
  | escaped e => ['\\'.toUInt8, e.letter]
  | unicode w x y z => ['\\'.toUInt8, 'u'.toUInt8, w.byte, x.byte, y.byte, z.byte]

/-- The character meant; half of a surrogate pair is none. -/
def char : Item → Option Char
  | unescaped c _ _ => some c
  | escaped e => some e.char
  | unicode w x y z =>
      if IsSurrogate (codePoint w x y z) then none else some (Char.ofNat (codePoint w x y z))

end Item

abbrev Str := List Item

namespace Str

/-- The text between the quotes. -/
def body (s : Str) : List UInt8 := s.flatMap Item.text

def text (s : Str) : List UInt8 := '"'.toUInt8 :: (body s ++ ['"'.toUInt8])

def decode (s : Str) : Option (List Char) := s.mapM Item.char

/-- The string is written without escapes. -/
def Verbatim (s : Str) : Prop := ∀ item ∈ s, ∃ c control plain, item = .unescaped c control plain

end Str

/-! ## Numbers and white space -/

def digit (d : Fin 10) : UInt8 := UInt8.ofNat ('0'.toNat + d.val)

def digits (ds : List (Fin 10)) : List UInt8 := ds.map digit

/-- The part in front of the point: no zero leads other digits. -/
inductive Whole where
  | zero
  | positive (first : Fin 9) (rest : List (Fin 10))

def Whole.text : Whole → List UInt8
  | zero => ['0'.toUInt8]
  | positive first rest => UInt8.ofNat ('1'.toNat + first.val) :: digits rest

structure Exponent where
  upper : Bool
  minus : Option Bool
  first : Fin 10
  rest : List (Fin 10)

def Exponent.text (e : Exponent) : List UInt8 :=
  (if e.upper then 'E'.toUInt8 else 'e'.toUInt8) ::
    (((e.minus.map fun minus => [if minus then '-'.toUInt8 else '+'.toUInt8]).getD []) ++
      digits (e.first :: e.rest))

structure Number where
  minus : Bool
  whole : Whole
  fraction : Option (Fin 10 × List (Fin 10))
  exponent : Option Exponent

def Number.text (n : Number) : List UInt8 :=
  (if n.minus then ['-'.toUInt8] else []) ++ (n.whole.text ++
    (((n.fraction.map fun f => '.'.toUInt8 :: digits (f.1 :: f.2)).getD []) ++
      ((n.exponent.map Exponent.text).getD [])))

inductive Literal where
  | false
  | null
  | true

def Literal.text : Literal → List UInt8
  | .false => utf8 ['f', 'a', 'l', 's', 'e']
  | .null => utf8 ['n', 'u', 'l', 'l']
  | .true => utf8 ['t', 'r', 'u', 'e']

/-- Spaces, tabs, line feeds and carriage returns. -/
structure Blank where
  text : List UInt8
  blank : ∀ c ∈ text, c = 0x20 ∨ c = 0x09 ∨ c = 0x0A ∨ c = 0x0D

def Blank.none : Blank := ⟨[], by simp⟩

/-! ## Values -/

/-- What a tree stands for: a value, or what stands between brackets. -/
inductive Kind where
  | value
  | elements
  | members

/-- White space stands around every bracket, colon and comma. -/
inductive Tree : Kind → Type where
  | literal (l : Literal) : Tree .value
  | number (n : Number) : Tree .value
  | string (s : Str) : Tree .value
  | emptyArray (gap : Blank) : Tree .value
  | array (items : Tree .elements) : Tree .value
  | emptyObject (gap : Blank) : Tree .value
  | object (items : Tree .members) : Tree .value
  | lastElement (before : Blank) (item : Tree .value) (after : Blank) : Tree .elements
  | element (before : Blank) (item : Tree .value) (after : Blank) (later : Tree .elements) :
      Tree .elements
  | lastMember (before : Blank) (name : Str) (colon afterColon : Blank) (item : Tree .value)
      (after : Blank) : Tree .members
  | member (before : Blank) (name : Str) (colon afterColon : Blank) (item : Tree .value)
      (after : Blank) (later : Tree .members) : Tree .members

namespace Tree

def text : {kind : Kind} → Tree kind → List UInt8
  | _, literal l => l.text
  | _, number n => n.text
  | _, string s => s.text
  | _, emptyArray gap => '['.toUInt8 :: (gap.text ++ [']'.toUInt8])
  | _, array items => '['.toUInt8 :: (items.text ++ [']'.toUInt8])
  | _, emptyObject gap => '{'.toUInt8 :: (gap.text ++ ['}'.toUInt8])
  | _, object items => '{'.toUInt8 :: (items.text ++ ['}'.toUInt8])
  | _, lastElement before item after => before.text ++ (item.text ++ after.text)
  | _, element before item after later =>
      before.text ++ (item.text ++ (after.text ++ ','.toUInt8 :: later.text))
  | _, lastMember before name colon afterColon item after =>
      before.text ++ (name.text ++ (colon.text ++ ':'.toUInt8 :: (afterColon.text ++
        (item.text ++ after.text))))
  | _, member before name colon afterColon item after later =>
      before.text ++ (name.text ++ (colon.text ++ ':'.toUInt8 :: (afterColon.text ++
        (item.text ++ (after.text ++ ','.toUInt8 :: later.text)))))

/-- Names and values of the members, in order; only members have any. -/
def entries : {kind : Kind} → Tree kind → List (Str × Tree .value)
  | _, lastMember _ name _ _ item _ => [(name, item)]
  | _, member _ name _ _ item _ later => (name, item) :: later.entries
  | _, _ => []

/-- The members of an object. -/
def members? : Tree .value → Option (List (Str × Tree .value))
  | emptyObject _ => some []
  | object items => some items.entries
  | _ => .none

def string? : Tree .value → Option Str
  | string s => some s
  | _ => .none

end Tree

/-! ## Bytes of a text -/

/-- A byte below 0x80 in an encoded character is the character itself. -/
theorem toNat_of_mem_utf8EncodeChar {c : Char} {b : UInt8} (h : b ∈ String.utf8EncodeChar c)
    (hb : b.toNat < 0x80) : c.toNat = b.toNat := by
  have hhigh : ∀ n : Nat, 0x80 ≤ n % 0x100 → b ≠ UInt8.ofNat n := by
    rintro n hn rfl
    rw [UInt8.toNat_ofNat'] at hb
    omega
  unfold String.utf8EncodeChar at h
  dsimp only at h
  split_ifs at h with hone htwo hthree
  · obtain rfl := List.mem_singleton.mp h
    rw [UInt8.toNat_ofNat']
    change c.val.toNat = c.val.toNat % 2 ^ 8
    omega
  · rcases List.mem_pair.mp h with h | h
    · exact absurd h (hhigh _ (by omega))
    · exact absurd h (hhigh _ (by omega))
  · simp only [List.mem_cons, List.not_mem_nil, or_false] at h
    rcases h with h | h | h
    · exact absurd h (hhigh _ (by omega))
    · exact absurd h (hhigh _ (by omega))
    · exact absurd h (hhigh _ (by omega))
  · simp only [List.mem_cons, List.not_mem_nil, or_false] at h
    rcases h with h | h | h | h
    · exact absurd h (hhigh _ (by omega))
    · exact absurd h (hhigh _ (by omega))
    · exact absurd h (hhigh _ (by omega))
    · exact absurd h (hhigh _ (by omega))

/-- The code point that an escape names is a character unless it is a surrogate. -/
theorem toNat_ofNat {codePoint : Nat} (hbound : codePoint < 0x10000) (h : ¬IsSurrogate codePoint) :
    (Char.ofNat codePoint).toNat = codePoint := by
  have hvalid : codePoint.isValidChar := by
    unfold IsSurrogate at h
    unfold Nat.isValidChar
    omega
  rw [Char.ofNat, dif_pos hvalid]
  rfl

theorem codePoint_lt (w x y z : HexDigit) : Item.codePoint w x y z < 0x10000 := by
  unfold Item.codePoint
  omega

/-- A character written out has no byte of a quote or a backslash. -/
theorem plain_of_mem_unescaped {c : Char} (plain : c ≠ '"' ∧ c ≠ '\\') {b : UInt8}
    (h : b ∈ String.utf8EncodeChar c) : b ≠ '"'.toUInt8 ∧ b ≠ '\\'.toUInt8 := by
  constructor
  · rintro rfl
    exact plain.1 (Char.ext (UInt32.toNat_inj.mp (toNat_of_mem_utf8EncodeChar h (by decide))))
  · rintro rfl
    exact plain.2 (Char.ext (UInt32.toNat_inj.mp (toNat_of_mem_utf8EncodeChar h (by decide))))

/-- The bytes of numbers, literals and hex digits. -/
def isScalarByte (c : UInt8) : Bool :=
  ('0'.toUInt8 ≤ c && c ≤ '9'.toUInt8) || ('a'.toUInt8 ≤ c && c ≤ 'z'.toUInt8) ||
    ('A'.toUInt8 ≤ c && c ≤ 'Z'.toUInt8) || c == '+'.toUInt8 || c == '-'.toUInt8 || c == '.'.toUInt8

theorem scalar_byte (d : HexDigit) : isScalarByte d.byte = true := by
  have hall : ∀ value : Fin 16, ∀ upper : Bool, isScalarByte (HexDigit.byte ⟨value, upper⟩) = true := by
    decide +kernel
  exact hall d.value d.upper

theorem scalar_digits (ds : List (Fin 10)) : ∀ c ∈ digits ds, isScalarByte c = true := by
  have hall : ∀ d : Fin 10, isScalarByte (digit d) = true := by decide +kernel
  intro c hc
  obtain ⟨d, -, rfl⟩ := List.mem_map.mp hc
  exact hall d

theorem scalar_whole (w : Whole) : ∀ c ∈ w.text, isScalarByte c = true := by
  cases w with
  | zero => decide +kernel
  | positive first rest =>
      have hall : ∀ first : Fin 9, isScalarByte (UInt8.ofNat ('1'.toNat + first.val)) = true := by decide +kernel
      exact List.forall_mem_cons.mpr ⟨hall first, scalar_digits rest⟩

theorem scalar_exponent (e : Exponent) : ∀ c ∈ e.text, isScalarByte c = true := by
  unfold Exponent.text
  rw [List.forall_mem_cons, List.forall_mem_append]
  refine ⟨?_, ?_, scalar_digits _⟩
  · cases e.upper <;> decide +kernel
  · cases e.minus with
    | none => exact fun c hc => absurd hc List.not_mem_nil
    | some minus => cases minus <;> decide +kernel

theorem scalar_number (n : Number) : ∀ c ∈ n.text, isScalarByte c = true := by
  unfold Number.text
  rw [List.forall_mem_append, List.forall_mem_append, List.forall_mem_append]
  refine ⟨?_, scalar_whole n.whole, ?_, ?_⟩
  · cases n.minus <;> decide +kernel
  · cases n.fraction with
    | none => exact fun c hc => absurd hc List.not_mem_nil
    | some f => exact List.forall_mem_cons.mpr ⟨by decide +kernel, scalar_digits _⟩
  · cases n.exponent with
    | none => exact fun c hc => absurd hc List.not_mem_nil
    | some e => exact scalar_exponent e

theorem number_ne_nil (n : Number) : n.text ≠ [] := by
  have hwhole : n.whole.text ≠ [] := by
    cases n.whole with
    | zero => exact List.cons_ne_nil _ _
    | positive first rest => exact List.cons_ne_nil _ _
  unfold Number.text
  exact List.append_ne_nil_of_right_ne_nil _ (List.append_ne_nil_of_left_ne_nil hwhole _)

theorem scalar_literal (l : Literal) : ∀ c ∈ l.text, isScalarByte c = true := by
  cases l <;> decide +kernel

end LlmTop.Lib.Json
