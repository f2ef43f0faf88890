import LlmTop.Scopes
import LlmTop.Sha256

/-!
# Capability tokens

The JWT validator: base64url, the claims of the payload's top-level object and
`verify`.  A verifier is any predicate a host registers under an `alg` value.
-/
namespace LlmTop

/-! ## base64url -/

/-- `decode_table`; `none` stands for 255. -/
def decodeSextet (c : UInt8) : Option Nat :=
  if 'A'.toUInt8 ≤ c ∧ c ≤ 'Z'.toUInt8 then some (c.toNat - 'A'.toNat)
  else if 'a'.toUInt8 ≤ c ∧ c ≤ 'z'.toUInt8 then some (c.toNat - 'a'.toNat + 26)
  else if isDigit c then some (c.toNat - '0'.toNat + 52)
  else if c = '-'.toUInt8 then some 62
  else if c = '_'.toUInt8 then some 63
  else none

/-- Four characters; a `=` in one of the last two places stands for no byte. -/
def decodeGroup (w x y z : UInt8) : Option Bytes := do
  let a ← decodeSextet w
  let b ← decodeSextet x
  let n := a * 2 ^ 18 + b * 2 ^ 12
  let first := UInt8.ofNat (n / 2 ^ 16)
  let (n, second) ←
    if y = '='.toUInt8 then some (n, [])
    else (decodeSextet y).map fun c => (n + c * 2 ^ 6, [UInt8.ofNat ((n + c * 2 ^ 6) / 2 ^ 8)])
  let third ←
    if z = '='.toUInt8 then some [] else (decodeSextet z).map fun d => [UInt8.ofNat (n + d)]
  some (first :: (second ++ third))

def decodeGroups : Bytes → Option Bytes
  | w :: x :: y :: z :: rest => do
      let group ← decodeGroup w x y z
      let decoded ← decodeGroups rest
      some (group ++ decoded)
  | _ => some []

def base64urlDecode (input : Bytes) : Bytes :=
  let padded := input ++ List.replicate ((4 - input.length % 4) % 4) '='.toUInt8
  (decodeGroups padded).getD []

example : base64urlDecode (ascii "eyJhIjoxfQ") = ascii "\x7b\"a\":1\x7d" := by decide

/-! ## Claims -/

def openBrace : UInt8 := '{'.toUInt8
def closeBrace : UInt8 := '}'.toUInt8

/-- A member's key behind its opening quote, and the text behind the closing one. -/
def scanKey (esc : Bool) : Bytes → Bytes × Bytes
  | [] => ([], [])
  | c :: cs =>
      if !esc && c == '"'.toUInt8 then ([], cs)
      else if !esc && c == '\\'.toUInt8 then scanKey true cs
      else
        let (key, rest) := scanKey false cs
        (c :: key, rest)

/-- A string value behind its opening quote: its text, closing quote included. -/
def scanString (esc : Bool) : Bytes → Bytes × Bytes
  | [] => ([], [])
  | c :: cs =>
      if !esc && c == '"'.toUInt8 then ([c], cs)
      else
        let (text, rest) := scanString (!esc && c == '\\'.toUInt8) cs
        (c :: text, rest)

/-- An object or array value from its opening bracket to the matching one. -/
def scanNested (depth : Int) (inString esc : Bool) : Bytes → Bytes × Bytes
  | [] => ([], [])
  | c :: cs =>
      let (depth', inString', esc') :=
        if inString then
          if esc then (depth, true, false)
          else if c = '\\'.toUInt8 then (depth, true, true)
          else (depth, c ≠ '"'.toUInt8, false)
        else if c = '"'.toUInt8 then (depth, true, esc)
        else if c = openBrace ∨ c = '['.toUInt8 then (depth + 1, false, esc)
        else if c = closeBrace ∨ c = ']'.toUInt8 then (depth - 1, false, esc)
        else (depth, false, esc)
      if !inString && (c == closeBrace || c == ']'.toUInt8) && depth' == 0 then ([c], cs)
      else
        let (text, rest) := scanNested depth' inString' esc' cs
        (c :: text, rest)

def scanValue (text : Bytes) : Bytes × Bytes :=
  match text with
  | [] => ([], [])
  | c :: cs =>
      if c = '"'.toUInt8 then
        let (value, rest) := scanString false cs
        (c :: value, rest)
      else if c = openBrace ∨ c = '['.toUInt8 then scanNested 0 false false text
      else text.span fun c => c ≠ ','.toUInt8 && c ≠ closeBrace

/-- The members of the object; every round takes at least the opening quote of a
key, so the length of the text is fuel enough. -/
def memberValue (key : Bytes) : Nat → Bytes → Bytes
  | 0, _ => []
  | fuel + 1, text =>
      match text.dropWhile fun c => isSpace c || c == ','.toUInt8 with
      | [] => []
      | c :: cs =>
          if c ≠ '"'.toUInt8 then []
          else
            let (k, rest) := scanKey false cs
            match rest.dropWhile isSpace with
            | [] => []
            | colon :: rest =>
                if colon ≠ ':'.toUInt8 then []
                else
                  let (value, rest) := scanValue (rest.dropWhile isSpace)
                  if k = key then value else memberValue key fuel rest

/-- `top_level_raw`: the text of the key's value in the first object. -/
def topLevelRaw (json key : Bytes) : Bytes :=
  match json.dropWhile (· ≠ openBrace) with
  | [] => []
  | _ :: rest => memberValue key json.length rest

def hexDigitValue (c : UInt8) : Option Nat :=
  if isDigit c then some (c.toNat - '0'.toNat)
  else if 'a'.toUInt8 ≤ c ∧ c ≤ 'f'.toUInt8 then some (c.toNat - 'a'.toNat + 10)
  else if 'A'.toUInt8 ≤ c ∧ c ≤ 'F'.toUInt8 then some (c.toNat - 'A'.toNat + 10)
  else none

/-- The escape `\uXXXX` in UTF-8; a surrogate becomes U+FFFD. -/
def encodeCodePoint (cp : Nat) : Bytes :=
  let cp := if 0xD800 ≤ cp ∧ cp ≤ 0xDFFF then 0xFFFD else cp
  if cp < 0x80 then [UInt8.ofNat cp]
  else if cp < 0x800 then [UInt8.ofNat (0xC0 + cp / 64), UInt8.ofNat (0x80 + cp % 64)]
  else
    [UInt8.ofNat (0xE0 + cp / 4096), UInt8.ofNat (0x80 + cp / 64 % 64),
      UInt8.ofNat (0x80 + cp % 64)]

def fourHex (a b c d : UInt8) : Option Nat := do
  let a ← hexDigitValue a
  let b ← hexDigitValue b
  let c ← hexDigitValue c
  let d ← hexDigitValue d
  some (((a * 16 + b) * 16 + c) * 16 + d)

/-- The character a one-letter escape stands for. -/
def simpleEscape (next : UInt8) : Option UInt8 :=
  if next = 'n'.toUInt8 then some '\n'.toUInt8
  else if next = 't'.toUInt8 then some '\t'.toUInt8
  else if next = 'r'.toUInt8 then some '\r'.toUInt8
  else if next = 'b'.toUInt8 then some 8
  else if next = 'f'.toUInt8 then some 12
  else if next = '/'.toUInt8 ∨ next = '"'.toUInt8 ∨ next = '\\'.toUInt8 then some next
  else none

def unescapeClaim : Bytes → Bytes
  | [] => []
  | [c] => if c = '\\'.toUInt8 then [] else [c]
  | c :: next :: rest =>
      if c ≠ '\\'.toUInt8 then c :: unescapeClaim (next :: rest)
      else if next = 'u'.toUInt8 then
        match rest with
        | w :: x :: y :: z :: rest' =>
            match fourHex w x y z with
            | some cp => encodeCodePoint cp ++ unescapeClaim rest'
            | none => ascii "\\u" ++ unescapeClaim (w :: x :: y :: z :: rest')
        | short => ascii "\\u" ++ unescapeClaim short
      else
        match simpleEscape next with
        | some b => b :: unescapeClaim rest
        | none => '\\'.toUInt8 :: next :: unescapeClaim rest

def extractStringClaim (json key : Bytes) : Bytes :=
  let raw := topLevelRaw json key
  if raw.length < 2 ∨ raw.head? ≠ some '"'.toUInt8 ∨ raw.getLast? ≠ some '"'.toUInt8 then []
  else unescapeClaim (raw.drop 1).dropLast

def extractIntClaim (json key : Bytes) : Int := (stoll (topLevelRaw json key)).getD 0

/-! ## Verification -/

structure JWTClaim where
  sub : Bytes := []
  scope : Bytes := []
  iss : Bytes := []
  aud : Bytes := []
  exp : Int := 0
  valid : Bool := false

abbrev Verifier := Bytes → Bytes → Bool

structure SimpleJWTValidator where
  expectedIss : Bytes
  expectedAud : Bytes
  verifiers : Bytes → Option Verifier

/-- The verifier that ships in-tree under `HS256`. -/
def hs256Verifier (sharedSecret : Bytes) : Verifier := fun signingInput signature =>
  if signature.length ≠ Sha256.digestSize then false
  else Sha256.verifyDigest (Sha256.hmac sharedSecret signingInput) signature

/-- The constructor, called with a nonempty secret. -/
def SimpleJWTValidator.new (sharedSecret expectedIss expectedAud : Bytes) : SimpleJWTValidator where
  expectedIss := expectedIss
  expectedAud := expectedAud
  verifiers := fun alg => if alg = ascii "HS256" then some (hs256Verifier sharedSecret) else none

def SimpleJWTValidator.registerVerifier (v : SimpleJWTValidator) (alg : Bytes)
    (verifier : Verifier) : SimpleJWTValidator :=
  { v with verifiers := fun a => if a = alg then some verifier else v.verifiers a }

/-- The three parts between exactly two dots. -/
def splitParts (token : Bytes) : Option (Bytes × Bytes × Bytes) := do
  let dot1 ← Lib.Search.find '.'.toUInt8 token
  let dot2 ← Lib.Search.findFrom '.'.toUInt8 token (dot1 + 1)
  if (Lib.Search.findFrom '.'.toUInt8 token (dot2 + 1)).isSome then none
  else
    some (token.take dot1, Lib.Search.substr token (dot1 + 1) (dot2 - dot1 - 1),
      token.drop (dot2 + 1))

def readClaims (payload : Bytes) : JWTClaim where
  sub := extractStringClaim payload (ascii "sub")
  scope := extractStringClaim payload (ascii "scope")
  iss := extractStringClaim payload (ascii "iss")
  aud := extractStringClaim payload (ascii "aud")
  exp := extractIntClaim payload (ascii "exp")

/-- `verify`; `now` is the reading of the clock in step 4. -/
def SimpleJWTValidator.verify (v : SimpleJWTValidator) (now : Int) (token expectedScope : Bytes) :
    JWTClaim :=
  match splitParts token with
  | none => {}
  | some (header, payload, signature) =>
      if signature.isEmpty then {}
      else
        match v.verifiers (extractStringClaim (base64urlDecode header) (ascii "alg")) with
        | none => {}
        | some verifier =>
            if !verifier (header ++ ascii "." ++ payload) (base64urlDecode signature) then {}
            else
              let claim := readClaims (base64urlDecode payload)
              if claim.exp < now then claim
              else if v.expectedIss ≠ [] ∧ claim.iss ≠ v.expectedIss then claim
              else if v.expectedAud ≠ [] ∧ claim.aud ≠ v.expectedAud then claim
              else if expectedScope ≠ [] ∧ claim.scope ≠ expectedScope ∧
                  scopeMatches claim.scope expectedScope = false then claim
              else { claim with valid := true }

/-! ## What a valid token vouches for -/

/-- The token is signed under a registered algorithm, alive at `now` and issued
for this audience; `claim` is what it says. -/
structure SimpleJWTValidator.Vouches (v : SimpleJWTValidator) (now : Int) (token : Bytes)
    (claim : JWTClaim) : Prop where
  parts : ∃ header payload signature verifier,
    splitParts token = some (header, payload, signature) ∧ signature ≠ [] ∧
    v.verifiers (extractStringClaim (base64urlDecode header) (ascii "alg")) = some verifier ∧
    verifier (header ++ ascii "." ++ payload) (base64urlDecode signature) = true ∧
    claim = readClaims (base64urlDecode payload)
  alive : now ≤ claim.exp
  issuer : v.expectedIss = [] ∨ claim.iss = v.expectedIss
  audience : v.expectedAud = [] ∨ claim.aud = v.expectedAud

/-- The granted scope is the requested one or matches it. -/
def Covers (granted requested : Bytes) : Prop :=
  granted = requested ∨ scopeMatches granted requested = true

instance (granted requested : Bytes) : Decidable (Covers granted requested) := by
  unfold Covers
  infer_instance

theorem covers_nil {granted : Bytes} :
    Covers granted [] ↔ granted = [] ∨ (colonSegments granted).head? = some doubleStar := by
  unfold Covers scopeMatches
  by_cases hall : granted = doubleStar
  · subst hall
    decide
  · rw [if_neg hall]
    cases hsegments : colonSegments granted with
    | nil =>
        have hempty : granted = [] := Lib.Split.splitTerminated_eq_nil.mp hsegments
        simp [hempty]
    | cons g rest =>
        have hne : granted ≠ [] := by
          rintro rfl
          contradiction
        have hloop : scopeLoop (g :: rest) (colonSegments []) 0 0 = decide (g = doubleStar) := by
          by_cases hg : g = doubleStar <;> simp [scopeLoop, colonSegments, hg]
        rw [hloop]
        simp [hne]

/-- What a token claims, whoever signed it. -/
def tokenClaim (token : Bytes) : Option JWTClaim :=
  (splitParts token).map fun parts => readClaims (base64urlDecode parts.2.1)

theorem SimpleJWTValidator.Vouches.tokenClaim_eq {v : SimpleJWTValidator} {now : Int}
    {token : Bytes} {claim : JWTClaim} (h : v.Vouches now token claim) :
    tokenClaim token = some claim := by
  obtain ⟨header, payload, signature, verifier, hparts, -, -, -, rfl⟩ := h.parts
  rw [tokenClaim, hparts]
  rfl

theorem SimpleJWTValidator.verify_of_vouches {v : SimpleJWTValidator} {now : Int} {token : Bytes}
    {claim : JWTClaim} (h : v.Vouches now token claim) {expectedScope : Bytes}
    (hscope : expectedScope = [] ∨ Covers claim.scope expectedScope) :
    v.verify now token expectedScope = { claim with valid := true } := by
  obtain ⟨header, payload, signature, verifier, hparts, hsig, halg, hverified, hclaim⟩ := h.parts
  have halive : ¬ claim.exp < now := Int.not_lt.mpr h.alive
  have hissuer : ¬ (v.expectedIss ≠ [] ∧ claim.iss ≠ v.expectedIss) := by
    rw [← not_or, not_not]
    exact h.issuer
  have haudience : ¬ (v.expectedAud ≠ [] ∧ claim.aud ≠ v.expectedAud) := by
    rw [← not_or, not_not]
    exact h.audience
  have hscope : ¬ (expectedScope ≠ [] ∧ claim.scope ≠ expectedScope ∧
      scopeMatches claim.scope expectedScope = false) := by
    rintro ⟨hne, hdiffers, hmismatch⟩
    rcases hscope with h | h | h
    · exact hne h
    · exact hdiffers h
    · rw [h] at hmismatch
      contradiction
  have hempty : signature.isEmpty = false := List.isEmpty_eq_false_iff.mpr hsig
  unfold verify
  simp only [hparts, hempty, Bool.false_eq_true, if_false, halg, hverified, Bool.not_true, ← hclaim,
    if_neg halive, if_neg hissuer, if_neg haudience, if_neg hscope]

/-- `verify` accepts exactly what the token vouches for, but an empty expected
scope is not checked at all. -/
theorem SimpleJWTValidator.verify_valid {v : SimpleJWTValidator} {now : Int}
    {token expectedScope : Bytes} :
    (v.verify now token expectedScope).valid = true ↔
      ∃ claim, v.Vouches now token claim ∧
        (expectedScope = [] ∨ Covers claim.scope expectedScope) := by
  constructor
  · intro h
    unfold verify at h
    split at h
    · contradiction
    · rename_i header payload signature hparts
      split at h
      · contradiction
      · rename_i hsig
        split at h
        · contradiction
        · rename_i verifier halg
          split at h
          · contradiction
          · rename_i hverified
            dsimp only at h
            split_ifs at h with halive hissuer haudience hscope
            · contradiction
            · contradiction
            · contradiction
            · contradiction
            · refine ⟨readClaims (base64urlDecode payload),
                ⟨⟨header, payload, signature, verifier, hparts, by simpa using hsig, halg,
                  by simpa using hverified, rfl⟩, Int.not_lt.mp halive, ?_, ?_⟩, ?_⟩
              · by_contra hne
                exact hissuer (not_or.mp hne)
              · by_contra hne
                exact haudience (not_or.mp hne)
              · by_contra hne
                obtain ⟨hsome, hcovers⟩ := not_or.mp hne
                obtain ⟨hdiffers, hmismatch⟩ := not_or.mp hcovers
                exact hscope ⟨hsome, hdiffers, by simpa using hmismatch⟩
  · rintro ⟨claim, hvouches, hscope⟩
    rw [verify_of_vouches hvouches hscope]

end LlmTop
