import LlmTop.Bytes
import LlmTop.Lib.Absorb

/-!
# The in-tree SHA-256 and HMAC

The streaming context of `sha256.hpp`.  `buf` holds the valid prefix
`buf_[0, buf_len_)` of the block buffer; the bytes behind it are never read
before they are written.
-/
namespace LlmTop.Sha256

abbrev Word := UInt32
abbrev State := Vector Word 8

abbrev digestSize : Nat := 32
abbrev blockSize : Nat := 64

def K : List Word := [
  0x428a2f98, 0x71374491, 0xb5c0fbcf, 0xe9b5dba5,
  0x3956c25b, 0x59f26681, 0x923f82a4, 0xab1c5ed5,
  0xd807aa98, 0x12835b01, 0x243185be, 0x550c7dc3,
  0x72be5d74, 0x80deb1fe, 0x9bdc06a7, 0xc19bf174,
  0xe49b69c1, 0xefbe4786, 0x0fc19dc6, 0x240ca1cc,
  0x2de92c6f, 0x4a7484aa, 0x5cb0a9dc, 0x76f988da,
  0x983e5152, 0xa831c66d, 0xb00327c8, 0xbf597fc7,
  0xc6e00bf3, 0xd5a79147, 0x06ca6351, 0x14292967,
  0x27b70a85, 0x2e1b2138, 0x4d2c6dfc, 0x53380d13,
  0x650a7354, 0x766a0abb, 0x81c2c92e, 0x92722c85,
  0xa2bfe8a1, 0xa81a664b, 0xc24b8b70, 0xc76c51a3,
  0xd192e819, 0xd6990624, 0xf40e3585, 0x106aa070,
  0x19a4c116, 0x1e376c08, 0x2748774c, 0x34b0bcb5,
  0x391c0cb3, 0x4ed8aa4a, 0x5b9cca4f, 0x682e6ff3,
  0x748f82ee, 0x78a5636f, 0x84c87814, 0x8cc70208,
  0x90befffa, 0xa4506ceb, 0xbef9a3f7, 0xc67178f2]

def initialState : State :=
  #v[0x6a09e667, 0xbb67ae85, 0x3c6ef372, 0xa54ff53a,
    0x510e527f, 0x9b05688c, 0x1f83d9ab, 0x5be0cd19]

def rotr (x n : Word) : Word := (x >>> n) ||| (x <<< (32 - n))
def ch (x y z : Word) : Word := (x &&& y) ^^^ (~~~x &&& z)
def maj (x y z : Word) : Word := (x &&& y) ^^^ (x &&& z) ^^^ (y &&& z)
def sigma0 (x : Word) : Word := rotr x 2 ^^^ rotr x 13 ^^^ rotr x 22
def sigma1 (x : Word) : Word := rotr x 6 ^^^ rotr x 11 ^^^ rotr x 25
def gamma0 (x : Word) : Word := rotr x 7 ^^^ rotr x 18 ^^^ (x >>> 3)
def gamma1 (x : Word) : Word := rotr x 17 ^^^ rotr x 19 ^^^ (x >>> 10)

/-- `W[i]` for `i < 16`: four bytes of the block, most significant first. -/
def loadWord (block : Bytes) (i : Nat) : Word :=
  ((block.getD (i * 4) 0).toUInt32 <<< 24) |||
  ((block.getD (i * 4 + 1) 0).toUInt32 <<< 16) |||
  ((block.getD (i * 4 + 2) 0).toUInt32 <<< 8) |||
  (block.getD (i * 4 + 3) 0).toUInt32

def extendSchedule (W : List Word) (i : Nat) : List Word :=
  W ++ [gamma1 (W.getD (i - 2) 0) + W.getD (i - 7) 0 + gamma0 (W.getD (i - 15) 0) +
    W.getD (i - 16) 0]

def schedule (block : Bytes) : List Word :=
  (List.range' 16 48).foldl extendSchedule ((List.range 16).map (loadWord block))

/-- The locals `a` to `h` of `transform`. -/
@[ext] structure Working where
  a : Word
  b : Word
  c : Word
  d : Word
  e : Word
  f : Word
  g : Word
  h : Word

def round (v : Working) (k w : Word) : Working :=
  let t1 := v.h + sigma1 v.e + ch v.e v.f v.g + k + w
  let t2 := sigma0 v.a + maj v.a v.b v.c
  { a := t1 + t2, b := v.a, c := v.b, d := v.c, e := v.d + t1, f := v.e, g := v.f, h := v.g }

def Working.ofState (s : State) : Working :=
  ⟨s.get 0, s.get 1, s.get 2, s.get 3, s.get 4, s.get 5, s.get 6, s.get 7⟩

def addWorking (s : State) (v : Working) : State :=
  #v[s.get 0 + v.a, s.get 1 + v.b, s.get 2 + v.c, s.get 3 + v.d,
    s.get 4 + v.e, s.get 5 + v.f, s.get 6 + v.g, s.get 7 + v.h]

def transform (s : State) (block : Bytes) : State :=
  let W := schedule block
  addWorking s <|
    (List.range 64).foldl (fun v i => round v (K.getD i 0) (W.getD i 0)) (Working.ofState s)

structure Context where
  state : State
  count : UInt64
  buf : Bytes
  digest : Bytes
  finalized : Bool

/-- `reset`, run by the constructor. -/
def Context.init : Context where
  state := initialState
  count := 0
  buf := []
  digest := List.replicate digestSize 0
  finalized := false

/-- Top up a partially filled buffer; returns what the buffer did not take. -/
def Context.topUp (ctx : Context) (data : Bytes) : Context × Bytes :=
  if 0 < ctx.buf.length then
    let take := min data.length (blockSize - ctx.buf.length)
    let buf := ctx.buf ++ data.take take
    if buf.length = blockSize then
      ({ ctx with
          state := transform ctx.state buf
          count := ctx.count + 512
          buf := [] }, data.drop take)
    else ({ ctx with buf := buf }, data.drop take)
  else (ctx, data)

/-- The zero-copy loop over complete blocks. -/
def Context.fullBlocks : Nat → Context → Bytes → Context × Bytes
  | 0, ctx, data => (ctx, data)
  | n + 1, ctx, data =>
      Context.fullBlocks n
        { ctx with
          state := transform ctx.state (data.take blockSize)
          count := ctx.count + 512 }
        (data.drop blockSize)

def Context.update (ctx : Context) (data : Bytes) : Context :=
  let (ctx, data) := ctx.topUp data
  let (ctx, data) := ctx.fullBlocks (data.length / blockSize) data
  if data.isEmpty then ctx else { ctx with buf := data }

def wordBytes (w : Word) : Bytes :=
  [(w >>> 24).toUInt8, (w >>> 16).toUInt8, (w >>> 8).toUInt8, w.toUInt8]

def stateBytes (s : State) : Bytes := s.toList.flatMap wordBytes

/-- `total_bits`, most significant byte first. -/
def lengthBytes (totalBits : UInt64) : Bytes :=
  (List.range 8).map fun i => (totalBits >>> UInt64.ofNat ((7 - i) * 8)).toUInt8

def Context.finalize (ctx : Context) : Bytes × Context :=
  if ctx.finalized then (ctx.digest, ctx)
  else
    let totalBits := ctx.count + UInt64.ofNat (ctx.buf.length * 8)
    let buf := ctx.buf ++ [0x80]
    let (state, buf) :=
      if 56 < buf.length then
        (transform ctx.state (buf ++ List.replicate (blockSize - buf.length) 0), [])
      else (ctx.state, buf)
    let buf := buf ++ List.replicate (56 - buf.length) 0
    let buf := buf ++ lengthBytes totalBits
    let state := transform state buf
    let digest := stateBytes state
    (digest, { ctx with state := state, buf := buf, digest := digest, finalized := true })

def hash (input : Bytes) : Bytes := ((Context.init.update input).finalize).1

def hexDigits : Bytes := ascii "0123456789abcdef"

/-- `to_hex`: two lower-case digits for each byte. -/
def toHex (digest : Bytes) : Bytes :=
  digest.flatMap fun b => [hexDigits.getD (b.toNat / 16) 0, hexDigits.getD (b.toNat % 16) 0]

def hashHex (input : Bytes) : Bytes := toHex (hash input)

/-- `HMAC_SHA256::compute`. -/
def hmac (key message : Bytes) : Bytes :=
  let key := if blockSize < key.length then hash key else key
  let keyBlock := key ++ List.replicate (blockSize - key.length) 0
  let ipad := keyBlock.map (· ^^^ 0x36)
  let opad := keyBlock.map (· ^^^ 0x5c)
  let inner := (((Context.init.update ipad).update message).finalize).1
  (((Context.init.update opad).update inner).finalize).1

/-- `HMAC_SHA256::verify`, on two digests. -/
def verifyDigest (a b : Bytes) : Bool :=
  (a.zip b).foldl (fun result p => result ||| (p.1 ^^^ p.2)) 0 == 0

end LlmTop.Sha256
