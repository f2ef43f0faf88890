import LlmTop.Base64Url
import LlmTop.Decimals
import LlmTop.Sha256Conformance

/-!
# Minting tokens

`create_token`, and what the hand-written reader of the payload makes of it.
-/
namespace LlmTop

/-! ## JSON strings -/

def escapeByte (c : UInt8) : Bytes :=
  if c = '"'.toUInt8 then ascii "\\\""
  else if c = '\\'.toUInt8 then ascii "\\\\"
  else if c = '\n'.toUInt8 then ascii "\\n"
  else if c = '\r'.toUInt8 then ascii "\\r"
  else if c = '\t'.toUInt8 then ascii "\\t"
  else if c = 8 then ascii "\\b"
  else if c = 12 then ascii "\\f"
  else if c < 0x20 then
    ascii "\\u00" ++
      [Sha256.hexDigits.getD (c.toNat / 16) 0, Sha256.hexDigits.getD (c.toNat % 16) 0]
  else [c]

/-- `escape_json`. -/
def escapeJson (s : Bytes) : Bytes := s.flatMap escapeByte

/-- The escapes of one byte: itself, a backslash pair, or a `\u00XX`. -/
theorem escapeByte_cases (c : UInt8) :
    (escapeByte c = [c] ∧ c ≠ '"'.toUInt8 ∧ c ≠ '\\'.toUInt8) ∨
    (∃ next, escapeByte c = ['\\'.toUInt8, next] ∧ next ≠ 'u'.toUInt8 ∧
      simpleEscape next = some c) ∨
    (∃ x y, escapeByte c = ascii "\\u00" ++ [x, y] ∧
      fourHex '0'.toUInt8 '0'.toUInt8 x y = some c.toNat ∧ c.toNat < 0x20 ∧
      x ≠ '"'.toUInt8 ∧ x ≠ '\\'.toUInt8 ∧ y ≠ '"'.toUInt8 ∧ y ≠ '\\'.toUInt8) := by
  have hall := of_all_bytes (p := fun c =>
    let next := (escapeByte c).getD 1 0
    let x := (escapeByte c).getD 4 0
    let y := (escapeByte c).getD 5 0
    (escapeByte c == [c] && c != '"'.toUInt8 && c != '\\'.toUInt8) ||
    (escapeByte c == ['\\'.toUInt8, next] && next != 'u'.toUInt8 &&
      simpleEscape next == some c) ||
    (escapeByte c == ascii "\\u00" ++ [x, y] &&
      fourHex '0'.toUInt8 '0'.toUInt8 x y == some c.toNat && c.toNat < 0x20 &&
      x != '"'.toUInt8 && x != '\\'.toUInt8 && y != '"'.toUInt8 && y != '\\'.toUInt8))
    (by decide +kernel) c
  simp only [Bool.or_eq_true, Bool.and_eq_true, beq_iff_eq, bne_iff_ne, decide_eq_true_eq] at hall
  rcases hall with (⟨⟨hself, hquote⟩, hbackslash⟩ | ⟨⟨hpair, hu⟩, hsimple⟩) |
    ⟨⟨⟨⟨⟨⟨hunicode, hhex⟩, hbound⟩, hx⟩, hx'⟩, hy⟩, hy'⟩
  · exact Or.inl ⟨hself, hquote, hbackslash⟩
  · exact Or.inr (Or.inl ⟨_, hpair, hu, hsimple⟩)
  · exact Or.inr (Or.inr ⟨_, _, hunicode, hhex, hbound, hx, hx', hy, hy'⟩)

theorem unescapeClaim_plain {c : UInt8} (hc : c ≠ '\\'.toUInt8) (rest : Bytes) :
    unescapeClaim (c :: rest) = c :: unescapeClaim rest := by
  cases rest with
  | nil => exact if_neg hc
  | cons next rest =>
      rw [unescapeClaim.eq_def (c :: next :: rest)]
      exact if_pos hc

theorem unescapeClaim_pair {next b : UInt8} (hu : next ≠ 'u'.toUInt8) (h : simpleEscape next = some b)
    (rest : Bytes) : unescapeClaim ('\\'.toUInt8 :: next :: rest) = b :: unescapeClaim rest := by
  rw [unescapeClaim.eq_def ('\\'.toUInt8 :: next :: rest)]
  dsimp only
  rw [if_neg (not_not.mpr rfl), if_neg hu, h]

theorem unescapeClaim_unicode {w x y z : UInt8} {cp : Nat} (h : fourHex w x y z = some cp) (rest : Bytes) :
    unescapeClaim ('\\'.toUInt8 :: 'u'.toUInt8 :: w :: x :: y :: z :: rest) =
      encodeCodePoint cp ++ unescapeClaim rest := by
  rw [unescapeClaim.eq_def ('\\'.toUInt8 :: _)]
  dsimp only
  rw [if_neg (not_not.mpr rfl), if_pos rfl, h]

theorem unescapeClaim_escapeByte (c : UInt8) (rest : Bytes) :
    unescapeClaim (escapeByte c ++ rest) = c :: unescapeClaim rest := by
  rcases escapeByte_cases c with ⟨hescape, -, hc⟩ | ⟨next, hescape, hu, hsimple⟩ |
    ⟨x, y, hescape, hhex, hbound, -⟩
  · rw [hescape]
    exact unescapeClaim_plain hc rest
  · rw [hescape]
    exact unescapeClaim_pair hu hsimple rest
  · have htext : ascii "\\u00" ++ [x, y] ++ rest =
        '\\'.toUInt8 :: 'u'.toUInt8 :: '0'.toUInt8 :: '0'.toUInt8 :: x :: y :: rest := rfl
    have hpoint : encodeCodePoint c.toNat = [c] := by
      have hsurrogate : ¬(0xD800 ≤ c.toNat ∧ c.toNat ≤ 0xDFFF) := by omega
      have hascii : c.toNat < 0x80 := by omega
      unfold encodeCodePoint
      dsimp only
      rw [if_neg hsurrogate, if_pos hascii, UInt8.ofNat_toNat]
    rw [hescape, htext, unescapeClaim_unicode hhex, hpoint, List.singleton_append]

theorem unescapeClaim_escapeJson (s : Bytes) : unescapeClaim (escapeJson s) = s := by
  induction s with
  | nil => rfl
  | cons c cs ih => rw [escapeJson, List.flatMap_cons, unescapeClaim_escapeByte, ← escapeJson, ih]

/-- Text the string scanner passes over. -/
def Passes (text : Bytes) : Prop :=
  ∀ rest, scanString false (text ++ rest) =
    (text ++ (scanString false rest).1, (scanString false rest).2)

theorem Passes.append {text text' : Bytes} (h : Passes text) (h' : Passes text') :
    Passes (text ++ text') := by
  intro rest
  rw [List.append_assoc, h, h', List.append_assoc]

theorem passes_plain {c : UInt8} (hquote : c ≠ '"'.toUInt8) (hbackslash : c ≠ '\\'.toUInt8) :
    Passes [c] := by
  intro rest
  have hescape : (c == '\\'.toUInt8) = false := beq_eq_false_iff_ne.mpr hbackslash
  rw [List.singleton_append, scanString]
  simp [hquote, hescape]

theorem passes_pair (next : UInt8) : Passes ['\\'.toUInt8, next] := by
  intro rest
  have hquote : '\\'.toUInt8 ≠ '"'.toUInt8 := by decide
  simp [scanString, hquote]

theorem passes_escapeByte (c : UInt8) : Passes (escapeByte c) := by
  rcases escapeByte_cases c with ⟨hescape, hquote, hbackslash⟩ | ⟨next, hescape, -⟩ |
    ⟨x, y, hescape, -, -, hx, hx', hy, hy'⟩
  · rw [hescape]
    exact passes_plain hquote hbackslash
  · rw [hescape]
    exact passes_pair next
  · have hzero : Passes ['0'.toUInt8] := passes_plain (by decide) (by decide)
    rw [hescape]
    exact (((passes_pair 'u'.toUInt8).append hzero).append hzero).append
      ((passes_plain hx hx').append (passes_plain hy hy'))

theorem passes_escapeJson (s : Bytes) : Passes (escapeJson s) := by
  induction s with
  | nil => exact fun _ => rfl
  | cons c cs ih => exact (passes_escapeByte c).append ih

/-! ## Objects -/

def stringValue (s : Bytes) : Bytes := ascii "\"" ++ escapeJson s ++ ascii "\""

def member (key value : Bytes) : Bytes := ascii "\"" ++ key ++ ascii "\":" ++ value

/-- The members behind the first one. -/
def laterMembers (members : List (Bytes × Bytes)) : Bytes :=
  members.flatMap fun m => ascii "," ++ member m.1 m.2

/-- An object as `create_token` puts it together. -/
def objectText (first : Bytes × Bytes) (later : List (Bytes × Bytes)) : Bytes :=
  ascii "\x7b" ++ member first.1 first.2 ++ laterMembers later ++ ascii "\x7d"

/-- What may follow a value. -/
def EndsValue (rest : Bytes) : Prop :=
  ∃ c cs, rest = c :: cs ∧ (c = ','.toUInt8 ∨ c = closeBrace)

/-- A value the reader takes whole, and no more. -/
structure IsValue (value : Bytes) : Prop where
  starts : ∃ c cs, value = c :: cs ∧ isSpace c = false
  scan : ∀ rest, EndsValue rest → scanValue (value ++ rest) = (value, rest)

theorem isValue_stringValue (s : Bytes) : IsValue (stringValue s) := by
  refine ⟨⟨'"'.toUInt8, escapeJson s ++ ascii "\"", rfl, by decide⟩, fun rest _ => ?_⟩
  have hclose : scanString false (ascii "\"" ++ rest) = (ascii "\"", rest) := rfl
  have hscan : scanString false (escapeJson s ++ ascii "\"" ++ rest) =
      (escapeJson s ++ ascii "\"", rest) := by
    rw [List.append_assoc, passes_escapeJson, hclose]
  change scanValue ('"'.toUInt8 :: (escapeJson s ++ ascii "\"" ++ rest)) = _
  rw [scanValue, if_pos rfl, hscan]
  rfl

/-- A character of a number: nothing that ends a value or opens another kind of one. -/
def IsNumberChar (c : UInt8) : Prop :=
  c ≠ ','.toUInt8 ∧ c ≠ closeBrace ∧ c ≠ '"'.toUInt8 ∧ c ≠ openBrace ∧ c ≠ '['.toUInt8 ∧
    isSpace c = false

instance (c : UInt8) : Decidable (IsNumberChar c) := by
  unfold IsNumberChar
  infer_instance

theorem isNumberChar_of_isDigit {c : UInt8} (h : isDigit c = true) : IsNumberChar c := by
  have hall := of_all_bytes (p := fun c => !isDigit c || decide (IsNumberChar c)) (by decide +kernel) c
  simpa [h] using hall

theorem isNumberChar_of_mem_toDecimal {n : Int} {c : UInt8} (h : c ∈ toDecimal n) :
    IsNumberChar c := by
  unfold toDecimal at h
  split at h
  · rcases List.mem_cons.mp h with rfl | h
    · decide
    · exact isNumberChar_of_isDigit (isDigit_of_mem_natDecimal h)
  · exact isNumberChar_of_isDigit (isDigit_of_mem_natDecimal h)

theorem isValue_toDecimal (n : Int) : IsValue (toDecimal n) := by
  obtain ⟨c, cs, hdecimal, -⟩ := toDecimal_head n
  have hchars : ∀ x ∈ toDecimal n, IsNumberChar x := fun x => isNumberChar_of_mem_toDecimal
  rw [hdecimal] at hchars ⊢
  obtain ⟨-, -, hquote, hopen, hbracket, hspace⟩ := hchars c List.mem_cons_self
  refine ⟨⟨c, cs, rfl, hspace⟩, ?_⟩
  rintro rest ⟨d, ds, rfl, hd⟩
  have hspan : (c :: cs ++ d :: ds).span (fun x => x ≠ ','.toUInt8 && x ≠ closeBrace) =
      (c :: cs, d :: ds) := by
    have hinside : ∀ x ∈ c :: cs, (x ≠ ','.toUInt8 && x ≠ closeBrace) = true := fun x hx => by
      simpa using ⟨(hchars x hx).1, (hchars x hx).2.1⟩
    have hends : (d ≠ ','.toUInt8 && d ≠ closeBrace) = false := by
      rcases hd with rfl | rfl <;> decide
    exact Lib.Search.span_append hinside hends ds
  rw [List.cons_append, scanValue, if_neg hquote, if_neg (by simp [hopen, hbracket]),
    ← List.cons_append, hspan]

def PlainKey (key : Bytes) : Prop := '"'.toUInt8 ∉ key ∧ '\\'.toUInt8 ∉ key

instance (key : Bytes) : Decidable (PlainKey key) := by
  unfold PlainKey
  infer_instance

theorem scanKey_plain {key : Bytes} (hkey : PlainKey key) (rest : Bytes) :
    scanKey false (key ++ '"'.toUInt8 :: rest) = (key, rest) := by
  induction key with
  | nil => rfl
  | cons c cs ih =>
      obtain ⟨hquote, hbackslash⟩ := hkey
      rw [List.mem_cons, not_or] at hquote hbackslash
      rw [List.cons_append, scanKey, if_neg (by simpa using Ne.symm hquote.1),
        if_neg (by simpa using Ne.symm hbackslash.1), ih ⟨hquote.2, hbackslash.2⟩]

/-- What the reader skips between members. -/
def isGap (c : UInt8) : Bool := isSpace c || c == ','.toUInt8

theorem isGap_of_isSpace {c : UInt8} (h : isSpace c = true) : isGap c = true := by
  rw [isGap, h, Bool.true_or]

theorem memberValue_gap {gap : Bytes} (h : ∀ c ∈ gap, isGap c = true) (wanted : Bytes) (fuel : Nat)
    (rest : Bytes) : memberValue wanted fuel (gap ++ rest) = memberValue wanted fuel rest := by
  cases fuel with
  | zero => rfl
  | succ fuel =>
      have hskip : (gap ++ rest).dropWhile isGap = rest.dropWhile isGap := List.dropWhile_append_of_pos h
      unfold isGap at hskip
      rw [memberValue, memberValue, hskip]

/-- One member: its value is taken, or the reader is behind it. -/
theorem memberValue_step {key : Bytes} (hkey : PlainKey key) {colon afterColon value raw gap rest : Bytes}
    (hcolon : ∀ c ∈ colon, isSpace c = true) (hafterColon : ∀ c ∈ afterColon, isSpace c = true)
    (hstart : ∃ c cs, value = c :: cs ∧ isSpace c = false) (hscan : scanValue value = (raw, gap ++ rest))
    (hgap : ∀ c ∈ gap, isSpace c = true) (wanted : Bytes) (fuel : Nat) :
    memberValue wanted (fuel + 1) ('"'.toUInt8 :: (key ++ '"'.toUInt8 :: (colon ++ ':'.toUInt8 ::
        (afterColon ++ value)))) =
      if key = wanted then raw else memberValue wanted fuel rest := by
  obtain ⟨c, cs, hvalue, hspace⟩ := hstart
  have hopening : ∀ text : Bytes, ('"'.toUInt8 :: text).dropWhile
      (fun c => isSpace c || c == ','.toUInt8) = '"'.toUInt8 :: text :=
    fun _ => List.dropWhile_cons_of_neg (by decide)
  have hmark : (colon ++ ':'.toUInt8 :: (afterColon ++ value)).dropWhile isSpace =
      ':'.toUInt8 :: (afterColon ++ value) := by
    rw [List.dropWhile_append_of_pos hcolon]
    exact List.dropWhile_cons_of_neg (by decide)
  have hfirst : (afterColon ++ value).dropWhile isSpace = value := by
    rw [List.dropWhile_append_of_pos hafterColon, hvalue]
    exact List.dropWhile_cons_of_neg (by simp [hspace])
  rw [memberValue, hopening]
  simp only [ne_eq, not_true, if_false, scanKey_plain hkey, hmark, hfirst, hscan]
  rw [memberValue_gap fun c hc => isGap_of_isSpace (hgap c hc)]

theorem memberValue_member {key value : Bytes} (hkey : PlainKey key)
    (hvalue : IsValue value) (wanted : Bytes) (fuel : Nat) {rest : Bytes} (hrest : EndsValue rest) :
    memberValue wanted (fuel + 1) (member key value ++ rest) =
      if key = wanted then value else memberValue wanted fuel rest := by
  have htext : member key value ++ rest =
      '"'.toUInt8 :: (key ++ '"'.toUInt8 :: (':'.toUInt8 :: (value ++ rest))) := by
    have hopening : ascii "\"" = ['"'.toUInt8] := rfl
    have hclosing : ascii "\":" = ['"'.toUInt8, ':'.toUInt8] := rfl
    simp [member, hopening, hclosing]
  have hnone : ∀ c ∈ ([] : Bytes), isSpace c = true := fun c hc => absurd hc List.not_mem_nil
  have hstart : ∃ c cs, value ++ rest = c :: cs ∧ isSpace c = false := by
    obtain ⟨c, cs, rfl, hspace⟩ := hvalue.starts
    exact ⟨c, cs ++ rest, rfl, hspace⟩
  rw [htext]
  exact memberValue_step hkey hnone hnone hstart (hvalue.scan rest hrest) hnone wanted fuel

theorem memberValue_comma (wanted : Bytes) (fuel : Nat) (rest : Bytes) :
    memberValue wanted fuel (','.toUInt8 :: rest) = memberValue wanted fuel rest :=
  memberValue_gap (List.forall_mem_singleton.mpr (by decide)) wanted fuel rest

/-- Members the reader can tell apart. -/
def PlainMembers (members : List (Bytes × Bytes)) : Prop :=
  ∀ m ∈ members, PlainKey m.1 ∧ IsValue m.2

theorem endsValue_later (later : List (Bytes × Bytes)) :
    EndsValue (laterMembers later ++ ascii "\x7d") := by
  cases later with
  | nil => exact ⟨_, _, rfl, Or.inr rfl⟩
  | cons m later => exact ⟨_, _, rfl, Or.inl rfl⟩

theorem lookup_getD_cons (m : Bytes × Bytes) (members : List (Bytes × Bytes)) (wanted : Bytes) :
    ((m :: members).lookup wanted).getD [] =
      if m.1 = wanted then m.2 else (members.lookup wanted).getD [] := by
  rw [List.lookup_cons]
  by_cases hkey : m.1 = wanted
  · simp [hkey]
  · have hne : (wanted == m.1) = false := by simpa using Ne.symm hkey
    rw [if_neg hkey, hne]

theorem memberValue_later {later : List (Bytes × Bytes)} (hplain : PlainMembers later)
    (wanted : Bytes) {fuel : Nat} (hfuel : later.length ≤ fuel) :
    memberValue wanted fuel (laterMembers later ++ ascii "\x7d") = (later.lookup wanted).getD [] := by
  induction later generalizing fuel with
  | nil =>
      cases fuel with
      | zero => rfl
      | succ fuel => rfl
  | cons m later ih =>
      obtain ⟨fuel, rfl⟩ := Nat.exists_eq_add_one.mpr (Nat.lt_of_lt_of_le (Nat.succ_pos _) hfuel)
      obtain ⟨hm, hlater⟩ := List.forall_mem_cons.mp hplain
      have hcomma : ascii "," = [','.toUInt8] := rfl
      rw [laterMembers, List.flatMap_cons, ← laterMembers, List.append_assoc, List.append_assoc, hcomma,
        List.singleton_append, memberValue_comma,
        memberValue_member hm.1 hm.2 wanted fuel (endsValue_later later),
        ih hlater (Nat.le_of_succ_le_succ hfuel), lookup_getD_cons]

theorem length_laterMembers (later : List (Bytes × Bytes)) :
    later.length ≤ (laterMembers later).length := by
  induction later with
  | nil => exact Nat.zero_le _
  | cons m later ih =>
      rw [laterMembers, List.flatMap_cons, ← laterMembers]
      simp only [List.length_append, List.length_cons] at ih ⊢
      have hcomma : (ascii ",").length = 1 := rfl
      omega

theorem topLevelRaw_objectText {first : Bytes × Bytes} {later : List (Bytes × Bytes)}
    (hplain : PlainMembers (first :: later)) (wanted : Bytes) :
    topLevelRaw (objectText first later) wanted =
      ((first :: later).lookup wanted).getD [] := by
  have hopen : (objectText first later).dropWhile (· ≠ openBrace) = openBrace ::
      (member first.1 first.2 ++ (laterMembers later ++ ascii "\x7d")) := by
    rw [objectText, List.append_assoc, List.append_assoc]
    exact List.dropWhile_cons_of_neg (by decide)
  obtain ⟨fuel, hlength, hfuel⟩ :
      ∃ fuel, (objectText first later).length = fuel + 1 ∧ later.length ≤ fuel := by
    refine ⟨(member first.1 first.2).length + (laterMembers later).length + 1, ?_, ?_⟩
    · simp [objectText, ascii]
      omega
    · exact (length_laterMembers later).trans (by omega)
  obtain ⟨hfirst, hrest⟩ := List.forall_mem_cons.mp hplain
  rw [topLevelRaw, hopen, hlength]
  dsimp only
  rw [memberValue_member hfirst.1 hfirst.2 wanted fuel (endsValue_later later),
    memberValue_later hrest wanted hfuel, lookup_getD_cons]

/-! ## Claims -/

/-- The payload of `create_token`; an empty issuer or audience is left out. -/
def payloadText (sub scope : Bytes) (exp : Int) (iss aud : Bytes) : Bytes :=
  let payload := ascii "\x7b\"sub\":\"" ++ escapeJson sub ++ ascii "\",\"scope\":\"" ++
    escapeJson scope ++ ascii "\",\"exp\":" ++ toDecimal exp
  let payload := if iss.isEmpty then payload
    else payload ++ ascii ",\"iss\":\"" ++ escapeJson iss ++ ascii "\""
  let payload := if aud.isEmpty then payload
    else payload ++ ascii ",\"aud\":\"" ++ escapeJson aud ++ ascii "\""
  payload ++ ascii "\x7d"

def optionalMember (key s : Bytes) : List (Bytes × Bytes) :=
  if s.isEmpty then [] else [(key, stringValue s)]

def laterClaims (scope : Bytes) (exp : Int) (iss aud : Bytes) : List (Bytes × Bytes) :=
  [(ascii "scope", stringValue scope), (ascii "exp", toDecimal exp)] ++
    optionalMember (ascii "iss") iss ++ optionalMember (ascii "aud") aud

theorem payloadText_eq (sub scope : Bytes) (exp : Int) (iss aud : Bytes) :
    payloadText sub scope exp iss aud =
      objectText (ascii "sub", stringValue sub) (laterClaims scope exp iss aud) := by
  unfold payloadText objectText laterClaims laterMembers optionalMember member stringValue
  cases iss <;> cases aud <;> simp [ascii]

theorem plainMembers_claims (sub scope : Bytes) (exp : Int) (iss aud : Bytes) :
    PlainMembers ((ascii "sub", stringValue sub) :: laterClaims scope exp iss aud) := by
  have hoptional : ∀ {key : Bytes} (s : Bytes), PlainKey key →
      PlainMembers (optionalMember key s) := by
    intro key s hkey m hm
    unfold optionalMember at hm
    split at hm
    · exact absurd hm List.not_mem_nil
    · rw [List.mem_singleton.mp hm]
      exact ⟨hkey, isValue_stringValue s⟩
  intro m hm
  simp only [laterClaims, List.mem_cons, List.mem_append, List.not_mem_nil, or_false] at hm
  rcases hm with rfl | ((rfl | rfl) | hm) | hm
  · exact ⟨(by decide : PlainKey (ascii "sub")), isValue_stringValue sub⟩
  · exact ⟨(by decide : PlainKey (ascii "scope")), isValue_stringValue scope⟩
  · exact ⟨(by decide : PlainKey (ascii "exp")), isValue_toDecimal exp⟩
  · exact hoptional iss (by decide) m hm
  · exact hoptional aud (by decide) m hm

theorem extractStringClaim_stringValue {json key s : Bytes}
    (hraw : topLevelRaw json key = stringValue s) : extractStringClaim json key = s := by
  have hvalue : stringValue s = '"'.toUInt8 :: (escapeJson s ++ ['"'.toUInt8]) := rfl
  have hbody : (stringValue s).drop 1 = escapeJson s ++ ['"'.toUInt8] := rfl
  unfold extractStringClaim
  dsimp only
  rw [hraw, hbody, List.dropLast_concat, unescapeClaim_escapeJson, if_neg]
  rw [hvalue, ← List.cons_append, List.getLast?_concat]
  simp

/-- A claim that is left out when it is empty. -/
theorem extractStringClaim_optional {json key s : Bytes}
    (hraw : topLevelRaw json key = if s ≠ [] then stringValue s else []) :
    extractStringClaim json key = s := by
  by_cases hs : s = []
  · rw [if_neg (not_not.mpr hs)] at hraw
    unfold extractStringClaim
    rw [hraw, hs]
    rfl
  · rw [if_pos hs] at hraw
    exact extractStringClaim_stringValue hraw

theorem lookup_optionalMember (key s wanted : Bytes) (rest : List (Bytes × Bytes)) :
    ((optionalMember key s ++ rest).lookup wanted).getD [] =
      if key = wanted ∧ s ≠ [] then stringValue s else (rest.lookup wanted).getD [] := by
  unfold optionalMember
  cases s with
  | nil => simp
  | cons c cs => simp [lookup_getD_cons]

section Claims

variable (sub scope : Bytes) (exp : Int) (iss aud : Bytes)

/-- The reader finds the value of every member. -/
theorem topLevelRaw_payloadText (wanted : Bytes) :
    topLevelRaw (payloadText sub scope exp iss aud) wanted =
      if ascii "sub" = wanted then stringValue sub
      else if ascii "scope" = wanted then stringValue scope
      else if ascii "exp" = wanted then toDecimal exp
      else if ascii "iss" = wanted ∧ iss ≠ [] then stringValue iss
      else if ascii "aud" = wanted ∧ aud ≠ [] then stringValue aud
      else [] := by
  have haud := lookup_optionalMember (ascii "aud") aud wanted []
  rw [List.append_nil] at haud
  rw [payloadText_eq, topLevelRaw_objectText (plainMembers_claims sub scope exp iss aud),
    lookup_getD_cons, laterClaims, List.append_assoc, List.cons_append, lookup_getD_cons,
    List.cons_append, lookup_getD_cons, List.nil_append, lookup_optionalMember, haud]
  rfl

theorem readClaims_payloadText (hexp : -2 ^ 63 ≤ exp ∧ exp ≤ 2 ^ 63 - 1) :
    readClaims (payloadText sub scope exp iss aud) =
      { sub := sub, scope := scope, iss := iss, aud := aud, exp := exp } := by
  have hraw := topLevelRaw_payloadText sub scope exp iss aud
  have hsub : extractStringClaim (payloadText sub scope exp iss aud) (ascii "sub") = sub :=
    extractStringClaim_stringValue ((hraw _).trans (if_pos rfl))
  have hscope : extractStringClaim (payloadText sub scope exp iss aud) (ascii "scope") = scope :=
    extractStringClaim_stringValue ((hraw _).trans (by rw [if_neg (by decide), if_pos rfl]))
  have hissuer : extractStringClaim (payloadText sub scope exp iss aud) (ascii "iss") = iss := by
    refine extractStringClaim_optional ((hraw _).trans ?_)
    rw [if_neg (by decide), if_neg (by decide), if_neg (by decide), if_neg (c := _ ∧ aud ≠ [])]
    · simp only [true_and]
    · exact fun h => absurd h.1 (by decide)
  have haudience : extractStringClaim (payloadText sub scope exp iss aud) (ascii "aud") = aud := by
    refine extractStringClaim_optional ((hraw _).trans ?_)
    rw [if_neg (by decide), if_neg (by decide), if_neg (by decide), if_neg (c := _ ∧ iss ≠ [])]
    · simp only [true_and]
    · exact fun h => absurd h.1 (by decide)
  have hexpiry : extractIntClaim (payloadText sub scope exp iss aud) (ascii "exp") = exp := by
    rw [extractIntClaim, hraw, if_neg (by decide), if_neg (by decide), if_pos rfl, stoll,
      parseInteger_toDecimal hexp.1 hexp.2, Option.getD_some]
  rw [readClaims, hsub, hscope, hissuer, haudience, hexpiry]

end Claims

/-! ## Signatures -/

/-- A MAC with tags of the digest's size. -/
structure Mac where
  tag : Bytes → Bytes
  length_tag : ∀ text, (tag text).length = Sha256.digestSize

def hmacOf (sharedSecret : Bytes) : Mac where
  tag := Sha256.hmac sharedSecret
  length_tag := fun text => by
    rw [Sha256.hmac_eq]
    exact Sha256.hash_length _

def macVerifier (mac : Mac) : Verifier := fun signingInput signature =>
  if signature.length ≠ Sha256.digestSize then false
  else Sha256.verifyDigest (mac.tag signingInput) signature

theorem macVerifier_hmacOf (sharedSecret : Bytes) :
    macVerifier (hmacOf sharedSecret) = hs256Verifier sharedSecret := rfl

theorem verifyDigest_iff {a b : Bytes} (h : a.length = b.length) :
    Sha256.verifyDigest a b = true ↔ a = b := by
  have hloop : ∀ (a b : Bytes) (result : UInt8), a.length = b.length →
      ((a.zip b).foldl (fun result p => result ||| (p.1 ^^^ p.2)) result = 0 ↔
        result = 0 ∧ a = b) := by
    intro a
    induction a with
    | nil =>
        intro b result hlength
        obtain rfl : b = [] := List.length_eq_zero_iff.mp hlength.symm
        simp
    | cons x xs ih =>
        intro b result hlength
        cases b with
        | nil => contradiction
        | cons y ys =>
            rw [List.zip_cons_cons, List.foldl_cons, ih ys _ (Nat.succ.inj hlength),
              UInt8.or_eq_zero_iff, UInt8.xor_eq_zero_iff, List.cons.injEq, and_assoc]
  rw [Sha256.verifyDigest, beq_iff_eq, hloop a b 0 h, and_iff_right rfl]

/-- The in-tree verifier accepts the tag and nothing else. -/
theorem macVerifier_iff {mac : Mac} {signingInput signature : Bytes} :
    macVerifier mac signingInput signature = true ↔ signature = mac.tag signingInput := by
  unfold macVerifier
  split_ifs with hlength
  · simp only [false_iff]
    rintro rfl
    exact hlength (mac.length_tag signingInput)
  · rw [verifyDigest_iff ((mac.length_tag signingInput).trans (not_not.mp hlength).symm)]
    exact eq_comm

/-! ## Tokens -/

/-- The three parts of a token around its dots. -/
def tokenText (header payload signature : Bytes) : Bytes :=
  header ++ ascii "." ++ payload ++ ascii "." ++ signature

def tokenHeader : Bytes := base64urlEncode (ascii "\x7b\"alg\":\"HS256\",\"typ\":\"JWT\"\x7d")

/-- `create_token`. -/
def createToken (mac : Mac) (sub scope : Bytes) (exp : Int) (iss aud : Bytes) : Bytes :=
  let payload := base64urlEncode (payloadText sub scope exp iss aud)
  let signingInput := tokenHeader ++ ascii "." ++ payload
  signingInput ++ ascii "." ++ base64urlEncode (mac.tag signingInput)

theorem drop_behind (before rest : Bytes) :
    (before ++ '.'.toUInt8 :: rest).drop (before.length + 1) = rest := by
  simp

/-- The search behind a delimiter is a search in the rest. -/
theorem findFrom_behind (before rest : Bytes) :
    Lib.Search.findFrom '.'.toUInt8 (before ++ '.'.toUInt8 :: rest) (before.length + 1) =
      (Lib.Search.find '.'.toUInt8 rest).map (before.length + 1 + ·) := by
  rw [Lib.Search.findFrom, drop_behind]

theorem splitParts_append {header payload : Bytes} (hheader : '.'.toUInt8 ∉ header)
    (hpayload : '.'.toUInt8 ∉ payload) (signature : Bytes) :
    splitParts (header ++ '.'.toUInt8 :: (payload ++ '.'.toUInt8 :: signature)) =
      if '.'.toUInt8 ∈ signature then none else some (header, payload, signature) := by
  have hjoin : header ++ '.'.toUInt8 :: (payload ++ '.'.toUInt8 :: signature) =
      (header ++ '.'.toUInt8 :: payload) ++ '.'.toUInt8 :: signature := by simp
  have hthird := findFrom_behind (header ++ '.'.toUInt8 :: payload) signature
  have hlength : (header ++ '.'.toUInt8 :: payload).length = header.length + 1 + payload.length := by
    rw [List.length_append, List.length_cons, Nat.add_assoc, Nat.add_comm payload.length]
  rw [← hjoin, hlength] at hthird
  unfold splitParts
  simp only [Option.bind_eq_bind]
  rw [Lib.Search.find_append _ hheader, Option.bind_some, findFrom_behind,
    Lib.Search.find_append _ hpayload, Option.map_some, Option.bind_some, hthird]
  split_ifs with hdots hmem hmem
  · rfl
  · rw [Option.isSome_map, Lib.Search.find_eq_none.mpr hmem] at hdots
    contradiction
  · have hnone : Lib.Search.find '.'.toUInt8 signature = none := by simpa using hdots
    exact absurd hmem (Lib.Search.find_eq_none.mp hnone)
  · have hlen : header.length + 1 + payload.length - header.length - 1 = payload.length := by omega
    have hlast := drop_behind (header ++ '.'.toUInt8 :: payload) signature
    rw [← hjoin, hlength] at hlast
    rw [List.take_left, Lib.Search.substr, hlen, drop_behind, List.take_left, hlast]

theorem splitParts_tokenText {header payload : Bytes} (hheader : '.'.toUInt8 ∉ header)
    (hpayload : '.'.toUInt8 ∉ payload) (signature : Bytes) :
    splitParts (tokenText header payload signature) =
      if '.'.toUInt8 ∈ signature then none else some (header, payload, signature) := by
  have hdot : ascii "." = ['.'.toUInt8] := rfl
  have htext : tokenText header payload signature =
      header ++ '.'.toUInt8 :: (payload ++ '.'.toUInt8 :: signature) := by
    simp [tokenText, hdot]
  rw [htext, splitParts_append hheader hpayload]

/-- A token with three parts is the text of its parts. -/
theorem splitParts_eq_some {token header payload signature : Bytes}
    (h : splitParts token = some (header, payload, signature)) :
    token = tokenText header payload signature ∧ '.'.toUInt8 ∉ header ∧ '.'.toUInt8 ∉ payload ∧
      '.'.toUInt8 ∉ signature := by
  have hparts := h
  unfold splitParts at h
  simp only [Option.bind_eq_bind, Option.bind_eq_some_iff] at h
  obtain ⟨dot1, hdot1, dot2, hdot2, -⟩ := h
  obtain ⟨before, rest, rfl, hbefore, rfl⟩ := Lib.Search.find_eq_some.mp hdot1
  rw [findFrom_behind] at hdot2
  obtain ⟨j, hj, -⟩ := Option.map_eq_some_iff.mp hdot2
  obtain ⟨middle, last, rfl, hmiddle, -⟩ := Lib.Search.find_eq_some.mp hj
  rw [splitParts_append hbefore hmiddle] at hparts
  split_ifs at hparts with hlast
  cases hparts
  refine ⟨?_, hbefore, hmiddle, hlast⟩
  have hdot : ascii "." = ['.'.toUInt8] := rfl
  simp [tokenText, hdot]

/-! ## Verification -/

/-- Steps 4 to 6 of `verify`: what a signed claim has to say. -/
def SimpleJWTValidator.Accepts (v : SimpleJWTValidator) (now : Int) (claim : JWTClaim)
    (expectedScope : Bytes) : Prop :=
  now ≤ claim.exp ∧ (v.expectedIss = [] ∨ claim.iss = v.expectedIss) ∧
    (v.expectedAud = [] ∨ claim.aud = v.expectedAud) ∧
    (expectedScope = [] ∨ Covers claim.scope expectedScope)

instance (v : SimpleJWTValidator) (now : Int) (claim : JWTClaim) (expectedScope : Bytes) :
    Decidable (v.Accepts now claim expectedScope) := by
  unfold SimpleJWTValidator.Accepts
  infer_instance

section Signed

variable {v : SimpleJWTValidator} {now : Int} {token header payload signature : Bytes}
  {verifier : Verifier} (expectedScope : Bytes)
  (hparts : splitParts token = some (header, payload, signature)) (hsignature : signature ≠ [])
  (halg : v.verifiers (extractStringClaim (base64urlDecode header) (ascii "alg")) = some verifier)

include hparts hsignature halg

/-- A token with three parts and a known algorithm. -/
theorem SimpleJWTValidator.verify_parts :
    v.verify now token expectedScope =
      if verifier (header ++ ascii "." ++ payload) (base64urlDecode signature) then
        { readClaims (base64urlDecode payload) with
          valid := decide (v.Accepts now (readClaims (base64urlDecode payload)) expectedScope) }
      else {} := by
  have hempty : signature.isEmpty = false := List.isEmpty_eq_false_iff.mpr hsignature
  unfold verify
  simp only [hparts, hempty, halg, Bool.false_eq_true, if_false]
  generalize hclaim : readClaims (base64urlDecode payload) = claim
  have hinvalid : claim.valid = false := by
    rw [← hclaim]
    rfl
  cases verifier (header ++ ascii "." ++ payload) (base64urlDecode signature) with
  | false => rfl
  | true =>
      simp only [Bool.not_true, Bool.false_eq_true, if_false, if_true]
      have hsame : claim = { claim with valid := false } := by rw [← hinvalid]
      split_ifs with hexpired hissuer haudience hscope
      · rw [decide_eq_false fun h : v.Accepts now claim expectedScope => Int.not_lt.mpr h.1 hexpired]
        exact hsame
      · rw [decide_eq_false fun h : v.Accepts now claim expectedScope =>
          h.2.1.elim hissuer.1 hissuer.2]
        exact hsame
      · rw [decide_eq_false fun h : v.Accepts now claim expectedScope =>
          h.2.2.1.elim haudience.1 haudience.2]
        exact hsame
      · have hrefused : ¬ v.Accepts now claim expectedScope := by
          rintro ⟨-, -, -, h | h | h⟩
          · exact hscope.1 h
          · exact hscope.2.1 h
          · rw [hscope.2.2] at h
            contradiction
        rw [decide_eq_false hrefused]
        exact hsame
      · have haccepted : v.Accepts now claim expectedScope := by
          refine ⟨Int.not_lt.mp hexpired, ?_, ?_, ?_⟩
          · rwa [← not_not (a := _ ∨ _), not_or]
          · rwa [← not_not (a := _ ∨ _), not_or]
          · by_contra hno
            simp only [Covers, not_or, Bool.not_eq_true] at hno
            exact hscope hno
        rw [decide_eq_true haccepted]

end Signed

section Minted

variable (mac : Mac) (sub scope : Bytes) (exp : Int) (iss aud : Bytes)

theorem splitParts_createToken :
    splitParts (createToken mac sub scope exp iss aud) =
      some (tokenHeader, base64urlEncode (payloadText sub scope exp iss aud),
        base64urlEncode (mac.tag (tokenHeader ++ ascii "." ++
          base64urlEncode (payloadText sub scope exp iss aud)))) := by
  have hheader : '.'.toUInt8 ∉ tokenHeader := dot_not_mem_encode _
  have htext := splitParts_tokenText hheader
    (dot_not_mem_encode (payloadText sub scope exp iss aud))
    (base64urlEncode (mac.tag (tokenHeader ++ ascii "." ++
      base64urlEncode (payloadText sub scope exp iss aud))))
  rw [if_neg (dot_not_mem_encode _)] at htext
  exact htext

/-- The header names the algorithm the token is signed with. -/
theorem alg_tokenHeader :
    extractStringClaim (base64urlDecode tokenHeader) (ascii "alg") = ascii "HS256" := by
  rw [tokenHeader, base64urlDecode_encode]
  decide +kernel

/-- A minted token verifies to the values it was minted from. -/
theorem SimpleJWTValidator.verify_minted {v : SimpleJWTValidator} (now : Int)
    (hmac : v.verifiers (ascii "HS256") = some (macVerifier mac))
    (hexp : -2 ^ 63 ≤ exp ∧ exp ≤ 2 ^ 63 - 1) (expectedScope : Bytes) :
    let claim : JWTClaim := { sub := sub, scope := scope, iss := iss, aud := aud, exp := exp }
    v.verify now (createToken mac sub scope exp iss aud) expectedScope =
      { claim with valid := decide (v.Accepts now claim expectedScope) } := by
  have htag : ∀ text, base64urlEncode (mac.tag text) ≠ [] := fun text =>
    base64urlEncode_ne_nil (List.ne_nil_of_length_pos (by rw [mac.length_tag]; decide))
  rw [verify_parts expectedScope (splitParts_createToken mac sub scope exp iss aud) (htag _)
    (by rw [alg_tokenHeader, hmac]), base64urlDecode_encode, base64urlDecode_encode,
    if_pos (macVerifier_iff.mpr rfl), readClaims_payloadText sub scope exp iss aud hexp]

end Minted

/-- The round trip of `create_token` and `verify`: no value leaks into another. -/
theorem SimpleJWTValidator.verify_createToken (v : SimpleJWTValidator) (mac : Mac)
    (hmac : v.verifiers (ascii "HS256") = some (macVerifier mac)) (now : Int)
    (sub scope : Bytes) (exp : Int64) (iss aud : Bytes) :
    v.verify now (createToken mac sub scope exp.toInt iss aud) [] =
      { sub := sub, scope := scope, iss := iss, aud := aud, exp := exp.toInt,
        valid := decide (now ≤ exp.toInt ∧ (v.expectedIss = [] ∨ iss = v.expectedIss) ∧
          (v.expectedAud = [] ∨ aud = v.expectedAud)) } := by
  have hexp : -2 ^ 63 ≤ exp.toInt ∧ exp.toInt ≤ 2 ^ 63 - 1 :=
    ⟨exp.le_toInt, Int.le_sub_one_of_lt exp.toInt_lt⟩
  rw [verify_minted mac sub scope exp.toInt iss aud now hmac hexp]
  simp only [Accepts, true_or, and_true]

/-- A subject that tries to close its string and to set its own expiry. -/
theorem SimpleJWTValidator.verify_createToken_quoted :
    (SimpleJWTValidator.new (ascii "k") (ascii "gate") []).verify 5
        (createToken (hmacOf (ascii "k")) (ascii "a\",\"exp\":9,\"b\":\"") (ascii "read:**")
          (Int64.ofInt 3).toInt (ascii "gate") []) [] =
      { sub := ascii "a\",\"exp\":9,\"b\":\"", scope := ascii "read:**", iss := ascii "gate", aud := [],
        exp := 3, valid := false } := by
  rw [SimpleJWTValidator.verify_createToken _ (hmacOf (ascii "k")) rfl 5]
  rfl

end LlmTop
