import LlmTop.Lib.Search
import LlmTop.Lib.Split
import Mathlib.Algebra.Group.Int.Defs
import Mathlib.Algebra.Group.Nat.Defs

/-!
# Byte strings

`std::string` is a sequence of bytes with no encoding attached.  Literals of
the source are written through `ascii`.
-/
namespace LlmTop

abbrev Bytes := List UInt8

def ascii (text : String) : Bytes := text.toList.map fun c => UInt8.ofNat c.toNat

theorem ascii_ne_nil {text : String} (h : text ≠ "") : ascii text ≠ [] := by
  intro hnil
  exact h (String.toList_eq_nil_iff.mp (List.map_eq_nil_iff.mp hnil))

/-- A test of every byte. -/
theorem of_all_bytes {p : UInt8 → Bool}
    (h : ((List.range 256).all fun n => p (UInt8.ofNat n)) = true) (c : UInt8) : p c = true := by
  have hc := List.all_eq_true.mp h c.toNat (List.mem_range.mpr c.toNat_lt)
  rwa [UInt8.ofNat_toNat] at hc

/-- `std::isspace` in the C locale. -/
def isSpace (c : UInt8) : Bool :=
  c == ' '.toUInt8 || (9 ≤ c && c ≤ 13)

def isDigit (c : UInt8) : Bool := '0'.toUInt8 ≤ c && c ≤ '9'.toUInt8

/-- `std::isalnum` in the C locale. -/
def isAlnum (c : UInt8) : Bool :=
  isDigit c || ('A'.toUInt8 ≤ c && c ≤ 'Z'.toUInt8) || ('a'.toUInt8 ≤ c && c ≤ 'z'.toUInt8)

/-- `std::getline` until the stream ends: a final newline opens no last line. -/
def lines (text : Bytes) : List Bytes :=
  Lib.Split.splitTerminated (· == '\n'.toUInt8) text

/-- Value of a digit run, most significant digit first. -/
def digitsValue (digits : Bytes) : Nat :=
  digits.foldl (fun value c => 10 * value + (c.toNat - '0'.toNat)) 0

/-- `std::stoi` / `std::stoll` in base ten for a type with range `[low, high]`:
leading white space, an optional sign, then the longest digit run; whatever
follows is ignored.  `none` is `invalid_argument` or `out_of_range`. -/
def parseInteger (low high : Int) (text : Bytes) : Option Int :=
  let body := text.dropWhile isSpace
  let negative := body.head? = some '-'.toUInt8
  let body :=
    if body.head? = some '-'.toUInt8 ∨ body.head? = some '+'.toUInt8 then body.tail else body
  let digits := body.takeWhile isDigit
  if digits.isEmpty then none
  else
    let magnitude : Int := digitsValue digits
    let value := if negative then -magnitude else magnitude
    if low ≤ value ∧ value ≤ high then some value else none

def stoi (text : Bytes) : Option Int := parseInteger (-2 ^ 31) (2 ^ 31 - 1) text

def stoll (text : Bytes) : Option Int := parseInteger (-2 ^ 63) (2 ^ 63 - 1) text

example : stoi (ascii " -12x") = some (-12) := by decide
example : stoi (ascii "2147483648") = none := by decide

end LlmTop
