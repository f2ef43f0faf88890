import LlmTop.Bytes
import LlmTop.Lib.Absorb
import Mathlib.Data.Nat.NthRoot.Defs
import Mathlib.Data.Nat.Sqrt

/-!
# SHA-256 as FIPS 180-4 defines it

Written from the standard: the constants are the roots of primes that the
standard describes, the schedule is its recurrence and padding is stated in
bits.  The round constants are a parameter of the compression so that a table
can be compared with the standard's own.
-/
namespace LlmTop.Fips180

abbrev Word := UInt32

def rotateRight (n : Nat) (x : Word) : Word := ⟨x.toBitVec.rotateRight n⟩
def Ch (x y z : Word) : Word := (x &&& y) ^^^ (~~~x &&& z)
def Maj (x y z : Word) : Word := (x &&& y) ^^^ (x &&& z) ^^^ (y &&& z)
def Sigma0 (x : Word) : Word := rotateRight 2 x ^^^ rotateRight 13 x ^^^ rotateRight 22 x
def Sigma1 (x : Word) : Word := rotateRight 6 x ^^^ rotateRight 11 x ^^^ rotateRight 25 x
def sigma0 (x : Word) : Word := rotateRight 7 x ^^^ rotateRight 18 x ^^^ (x >>> 3)
def sigma1 (x : Word) : Word := rotateRight 17 x ^^^ rotateRight 19 x ^^^ (x >>> 10)

/-- The prime numbers below 312, the first sixty-four. -/
def primes : List Nat :=
  (List.range 312).filter fun p => 2 ≤ p && (List.range p).all fun d => d < 2 || p % d ≠ 0

/-- The first thirty-two bits of the fractional part of the cube root of the
prime number `t`. -/
def roundConstant (t : Nat) : Word := UInt32.ofNat (Nat.nthRoot 3 (primes.getD t 0 * 2 ^ 96))

/-- The first thirty-two bits of the fractional part of the square root. -/
def initialWord (i : Nat) : Word := UInt32.ofNat (Nat.sqrt (primes.getD i 0 * 2 ^ 64))

/-- Eight words, by position. -/
abbrev Hash := Vector Word 8

def initialHash : Hash := Vector.ofFn fun i => initialWord i.val

/-- Least number of zero bits that fills the last block up to its length field. -/
def zeroBits (bits : Nat) : Nat := (448 + 512 - (bits + 1) % 512) % 512

/-- `value` as `count` bytes, most significant first. -/
def bigEndian (count value : Nat) : Bytes :=
  (List.range count).map fun i => UInt8.ofNat (value / 256 ^ (count - 1 - i))

/-- A one bit, the zero bits (seven of them share its byte) and the length. -/
def pad (message : Bytes) : Bytes :=
  let bits := 8 * message.length
  message ++ [0x80] ++ List.replicate ((zeroBits bits - 7) / 8) 0 ++ bigEndian 8 bits

def blockWord (block : Bytes) (t : Nat) : Word :=
  UInt32.ofNat ((block.getD (4 * t) 0).toNat * 256 ^ 3 + (block.getD (4 * t + 1) 0).toNat * 256 ^ 2 +
    (block.getD (4 * t + 2) 0).toNat * 256 + (block.getD (4 * t + 3) 0).toNat)

/-- The message schedule. -/
def W (block : Bytes) (t : Nat) : Word :=
  if t < 16 then blockWord block t
  else sigma1 (W block (t - 2)) + W block (t - 7) + sigma0 (W block (t - 15)) + W block (t - 16)
termination_by t

structure Variables where
  a : Word
  b : Word
  c : Word
  d : Word
  e : Word
  f : Word
  g : Word
  h : Word

/-- One step of the compression with constant `k` and schedule word `w`. -/
def step (v : Variables) (k w : Word) : Variables :=
  let T1 := v.h + Sigma1 v.e + Ch v.e v.f v.g + k + w
  let T2 := Sigma0 v.a + Maj v.a v.b v.c
  ⟨T1 + T2, v.a, v.b, v.c, v.d + T1, v.e, v.f, v.g⟩

def start (H : Hash) : Variables := ⟨H[0], H[1], H[2], H[3], H[4], H[5], H[6], H[7]⟩

/-- The variables after the first `t` steps over the block. -/
def steps (k : Nat → Word) (H : Hash) (block : Bytes) : Nat → Variables
  | 0 => start H
  | t + 1 => step (steps k H block t) (k t) (W block t)

def finish (H : Hash) (v : Variables) : Hash :=
  #v[v.a + H[0], v.b + H[1], v.c + H[2], v.d + H[3],
    v.e + H[4], v.f + H[5], v.g + H[6], v.h + H[7]]

def compress (k : Nat → Word) (H : Hash) (block : Bytes) : Hash :=
  finish H (steps k H block 64)

def digest (H : Hash) : Bytes := H.toList.flatMap fun w => bigEndian 4 w.toNat

/-- The hash with round constants `k`; the standard's is `sha256`. -/
def sha256With (k : Nat → Word) (message : Bytes) : Bytes :=
  digest (Lib.Absorb.absorb 64 (compress k) initialHash (pad message))

def sha256 (message : Bytes) : Bytes := sha256With roundConstant message

/-- HMAC over a hash function with 64-byte blocks (RFC 2104). -/
def hmac (H : Bytes → Bytes) (key text : Bytes) : Bytes :=
  let key := if 64 < key.length then H key else key
  let key := key ++ List.replicate (64 - key.length) 0
  H (key.map (· ^^^ 0x5c) ++ H (key.map (· ^^^ 0x36) ++ text))

end LlmTop.Fips180
