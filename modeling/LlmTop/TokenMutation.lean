import LlmTop.TokenMint

/-!
# Mutated tokens

Which tails of a signed token verify.  The decoder fills in missing `=`, takes
`=` inside the text and drops the unused low bits of a group, so one signature
has many spellings.
-/
namespace LlmTop

/-! ## Spellings of one signature -/

/-- Two spellings of the same bytes. -/
def Respells (text text' : Bytes) : Prop := ∃ bytes, Spells text bytes ∧ Spells text' bytes

theorem Groups.dot_not_mem {text bytes : Bytes} (h : Groups text bytes) : '.'.toUInt8 ∉ text := by
  have hpad : '.'.toUInt8 ≠ '='.toUInt8 := by decide
  induction h with
  | nil => exact List.not_mem_nil
  | full hw hx hy hz hrest ih =>
      simp [ih, (decodeSextet_ne hw).1.symm, (decodeSextet_ne hx).1.symm,
        (decodeSextet_ne hy).1.symm, (decodeSextet_ne hz).1.symm]
  | padded hw hx hy hrest ih =>
      simp [ih, hpad, (decodeSextet_ne hw).1.symm, (decodeSextet_ne hx).1.symm,
        (decodeSextet_ne hy).1.symm]
  | gap hw hx hz hrest ih =>
      simp [ih, hpad, (decodeSextet_ne hw).1.symm, (decodeSextet_ne hx).1.symm,
        (decodeSextet_ne hz).1.symm]
  | padded2 hw hx hrest ih =>
      simp [ih, hpad, (decodeSextet_ne hw).1.symm, (decodeSextet_ne hx).1.symm]

theorem Spells.dot_not_mem {text bytes : Bytes} (h : Spells text bytes) : '.'.toUInt8 ∉ text :=
  fun hmem => Groups.dot_not_mem h (List.mem_append_left _ hmem)

theorem spells_nil {bytes : Bytes} (h : Spells [] bytes) : bytes = [] := by
  cases h
  rfl

/-- Writing a `=` that the decoder would fill in. -/
theorem spells_pad {text : Bytes} (hlength : text.length % 4 = 2 ∨ text.length % 4 = 3)
    (bytes : Bytes) : Spells (text ++ ['='.toUInt8]) bytes ↔ Spells text bytes := by
  have hfill : fillPadding (text ++ ['='.toUInt8]) = fillPadding text := by
    unfold fillPadding
    rw [List.length_append, List.length_singleton]
    rcases hlength with h | h
    · rw [h, show (text.length + 1) % 4 = 3 by omega, List.append_assoc]
      rfl
    · rw [h, show (text.length + 1) % 4 = 0 by omega, List.append_assoc]
      rfl
  unfold Spells
  rw [hfill]

/-- Changing low bits of the last sextet that no byte holds. -/
theorem spells_spare {text : Bytes} (hlength : text.length % 4 = 2) {y y' : UInt8} {c c' : Nat}
    (hy : decodeSextet y = some c) (hy' : decodeSextet y' = some c') (hspare : c / 4 = c' / 4)
    {bytes : Bytes} (h : Spells (text ++ [y]) bytes) : Spells (text ++ [y']) bytes := by
  induction text using decodeGroups.induct generalizing bytes with
  | case1 w x y₀ z rest ih =>
      have hrest : rest.length % 4 = 2 := by
        simp only [List.length_cons] at hlength
        omega
      unfold Spells at h ⊢
      simp only [List.cons_append, fillPadding_group] at h ⊢
      cases h with
      | full hw hx hy₀ hz h => exact .full hw hx hy₀ hz (ih hrest h)
      | padded hw hx hy₀ h => exact .padded hw hx hy₀ (ih hrest h)
      | gap hw hx hz h => exact .gap hw hx hz (ih hrest h)
      | padded2 hw hx h => exact .padded2 hw hx (ih hrest h)
  | case2 text hshort =>
      rcases text with _ | ⟨w, _ | ⟨x, _ | ⟨u, _ | ⟨z, rest⟩⟩⟩⟩
      · simp at hlength
      · simp at hlength
      · have hbyte : ∀ b, byte2 b c = byte2 b c' := fun b => by rw [byte2, byte2, hspare]
        have hpad : decodeSextet '='.toUInt8 = none := by decide
        unfold Spells at h ⊢
        simp only [List.cons_append, List.nil_append, fillPadding_three] at h ⊢
        cases h with
        | full hw hx hy₀ hz h =>
            rw [hpad] at hz
            contradiction
        | padded hw hx hy₀ h =>
            obtain rfl := Option.some.inj (hy.symm.trans hy₀)
            rw [hbyte]
            exact .padded hw hx hy' h
        | gap hw hx hz h =>
            rw [hpad] at hz
            contradiction
        | padded2 hw hx h => exact absurd rfl (decodeSextet_ne hy).2
      · simp at hlength
      · exact absurd rfl (hshort w x u z rest)

theorem length_base64urlEncode (bytes : Bytes) :
    (base64urlEncode bytes).length = (bytes.length * 4 + 2) / 3 := by
  induction bytes using base64urlEncode.induct with
  | case1 => rfl
  | case2 x => simp [base64urlEncode]
  | case3 x y => simp [base64urlEncode]
  | case4 x y z rest ih =>
      simp only [base64urlEncode, List.length_cons, ih]
      omega

/-- The encoder leaves two bits of its last sextet unused on such lengths. -/
theorem base64urlEncode_spare {bytes : Bytes} (hlength : bytes.length % 3 = 2) :
    ∃ (text : Bytes) (y y' : UInt8) (c c' : Nat), base64urlEncode bytes = text ++ [y] ∧
      text.length % 4 = 2 ∧ y ≠ y' ∧ decodeSextet y = some c ∧ decodeSextet y' = some c' ∧
      c / 4 = c' / 4 := by
  induction bytes using base64urlEncode.induct with
  | case1 => contradiction
  | case2 x => simp at hlength
  | case3 x y =>
      rw [base64urlEncode]
      generalize hn : x.toNat * 2 ^ 16 + y.toNat * 2 ^ 8 = n
      have hc := decodeSextet_encodeSextet (n / 2 ^ 6)
      have hc' := decodeSextet_encodeSextet (n / 2 ^ 6 + 1)
      refine ⟨[encodeSextet (n / 2 ^ 18), encodeSextet (n / 2 ^ 12)], _, _, _, _, rfl, rfl, ?_, hc,
        hc', by omega⟩
      intro heq
      rw [heq, hc'] at hc
      have := Option.some.inj hc
      omega
  | case4 x y z rest ih =>
      have hrest : rest.length % 3 = 2 := by
        simp only [List.length_cons] at hlength
        omega
      obtain ⟨text, y', y'', c, c', htext, htextlength, hspare⟩ := ih hrest
      simp only [base64urlEncode]
      rw [htext]
      refine ⟨_ :: _ :: _ :: _ :: text, y', y'', c, c', rfl, ?_, hspare⟩
      simp only [List.length_cons]
      omega

/-! ## The tails that verify -/

section Tail

variable {v : SimpleJWTValidator} {mac : Mac} {now : Int} {header payload : Bytes}
  (expectedScope : Bytes)
  (halg : v.verifiers (extractStringClaim (base64urlDecode header) (ascii "alg")) =
    some (macVerifier mac))
  (hheader : '.'.toUInt8 ∉ header) (hpayload : '.'.toUInt8 ∉ payload)

include halg hheader hpayload

/-- A tail verifies when it spells the tag, whatever the spelling. -/
theorem SimpleJWTValidator.verify_tail (tail : Bytes) :
    (v.verify now (tokenText header payload tail) expectedScope).valid = true ↔
      Spells tail (mac.tag (header ++ ascii "." ++ payload)) ∧
        v.Accepts now (readClaims (base64urlDecode payload)) expectedScope := by
  have htag : mac.tag (header ++ ascii "." ++ payload) ≠ [] :=
    List.ne_nil_of_length_pos (by rw [mac.length_tag]; decide)
  have hparts := splitParts_tokenText hheader hpayload tail
  by_cases hdot : '.'.toUInt8 ∈ tail
  · rw [if_pos hdot] at hparts
    have hverify : v.verify now (tokenText header payload tail) expectedScope = {} := by
      unfold verify
      rw [hparts]
    rw [hverify]
    exact iff_of_false Bool.false_ne_true fun h => h.1.dot_not_mem hdot
  · rw [if_neg hdot] at hparts
    by_cases hnil : tail = []
    · subst hnil
      have hverify : v.verify now (tokenText header payload []) expectedScope = {} := by
        unfold verify
        rw [hparts]
        rfl
      rw [hverify]
      exact iff_of_false Bool.false_ne_true fun h => htag (spells_nil h.1)
    · have hspells : macVerifier mac (header ++ ascii "." ++ payload) (base64urlDecode tail) = true ↔
          Spells tail (mac.tag (header ++ ascii "." ++ payload)) :=
        macVerifier_iff.trans (spells_iff htag)
      rw [verify_parts expectedScope hparts hnil halg]
      split_ifs with hmac
      · rw [decide_eq_true_iff, and_iff_right (hspells.mp hmac)]
      · exact iff_of_false id fun h => hmac (hspells.mpr h.1)

end Tail

/-- No minted token is the only spelling of itself, not even at its own length. -/
theorem SimpleJWTValidator.minted_respelled {v : SimpleJWTValidator} {mac : Mac} {now : Int}
    {expectedScope : Bytes} (sub scope : Bytes) (exp : Int) (iss aud : Bytes)
    (hmac : v.verifiers (ascii "HS256") = some (macVerifier mac))
    (hvalid : (v.verify now (createToken mac sub scope exp iss aud) expectedScope).valid = true) :
    ∃ mutated, mutated ≠ createToken mac sub scope exp iss aud ∧
      mutated.length = (createToken mac sub scope exp iss aud).length ∧
      (v.verify now mutated expectedScope).valid = true := by
  have hparts := splitParts_createToken mac sub scope exp iss aud
  generalize createToken mac sub scope exp iss aud = token at hparts hvalid ⊢
  obtain ⟨htoken, hheader, hpayload, -⟩ := splitParts_eq_some hparts
  generalize base64urlEncode (payloadText sub scope exp iss aud) = payload at *
  have halg : v.verifiers (extractStringClaim (base64urlDecode tokenHeader) (ascii "alg")) =
      some (macVerifier mac) := by rw [alg_tokenHeader, hmac]
  have hthird : (mac.tag (tokenHeader ++ ascii "." ++ payload)).length % 3 = 2 := by
    rw [mac.length_tag]
    rfl
  obtain ⟨text, y, y', c, c', htext, hlength, hne, hy, hy', hbits⟩ := base64urlEncode_spare hthird
  rw [htoken, verify_tail expectedScope halg hheader hpayload, htext] at hvalid
  refine ⟨tokenText tokenHeader payload (text ++ [y']), ?_, ?_,
    (verify_tail expectedScope halg hheader hpayload _).mpr
      ⟨spells_spare hlength hy hy' hbits hvalid.1, hvalid.2⟩⟩
  · rw [htoken, htext]
    intro heq
    have htail := List.append_cancel_left (List.append_cancel_left heq)
    exact hne (List.singleton_inj.mp htail).symm
  · rw [htoken, htext, tokenText, tokenText]
    simp only [List.length_append, List.length_singleton]

/-- Behind a token that verifies, a different signature text is refused exactly
when it does not respell the signature. -/
theorem SimpleJWTValidator.mutation_rejected_iff {v : SimpleJWTValidator} {secret : Bytes}
    {now : Int} {expectedScope token header payload signature : Bytes}
    (hparts : splitParts token = some (header, payload, signature))
    (halg : v.verifiers (extractStringClaim (base64urlDecode header) (ascii "alg")) =
      some (hs256Verifier secret))
    (hvalid : (v.verify now token expectedScope).valid = true) (mutated : Bytes) :
    (v.verify now (tokenText header payload mutated) expectedScope).valid = false ↔
      ¬ Respells signature mutated := by
  obtain ⟨rfl, hheader, hpayload, -⟩ := splitParts_eq_some hparts
  rw [← macVerifier_hmacOf] at halg
  obtain ⟨hspells, haccepts⟩ := (verify_tail expectedScope halg hheader hpayload signature).mp hvalid
  rw [← Bool.not_eq_true, verify_tail expectedScope halg hheader hpayload mutated, not_iff_not,
    and_iff_left haccepts]
  constructor
  · exact fun h => ⟨_, hspells, h⟩
  · rintro ⟨bytes, hbytes, h⟩
    rw [← hbytes.decode, hspells.decode] at h
    exact h

theorem SimpleJWTValidator.mutation_rejected_short :
    let v := SimpleJWTValidator.new (ascii "k") [] []
    let payload := base64urlEncode (payloadText (ascii "a") (ascii "read:x") 9 [] [])
    (v.verify 5 (tokenText tokenHeader payload (ascii "AAAA")) []).valid = false := by
  intro v payload
  have hvalid : (v.verify 5 (createToken (hmacOf (ascii "k")) (ascii "a") (ascii "read:x") 9 [] [])
      []).valid = true := by
    rw [SimpleJWTValidator.verify_minted (hmacOf (ascii "k")) _ _ _ _ _ 5 rfl (by decide)]
    rfl
  refine (@SimpleJWTValidator.mutation_rejected_iff v (ascii "k") _ _ _ _ _ _
    (splitParts_createToken (hmacOf (ascii "k")) (ascii "a") (ascii "read:x") 9 [] []) ?_ hvalid
    (ascii "AAAA")).mpr ?_
  · rw [alg_tokenHeader]
    rfl
  · rintro ⟨bytes, hsignature, hshort⟩
    have hlength := (hmacOf (ascii "k")).length_tag (tokenHeader ++ ascii "." ++ payload)
    rw [(spells_encode _).decode.symm.trans hsignature.decode, ← hshort.decode] at hlength
    exact absurd hlength (by decide)

/-- A `=` behind a signature: another token with the same header and payload. -/
theorem SimpleJWTValidator.padded_token_verifies :
    let v := SimpleJWTValidator.new (ascii "k") [] []
    let token := createToken (hmacOf (ascii "k")) (ascii "a") (ascii "read:x") 9 [] []
    let mutated := token ++ ascii "="
    mutated ≠ token ∧
      (splitParts mutated).map (fun parts => (parts.1, parts.2.1)) =
        (splitParts token).map (fun parts => (parts.1, parts.2.1)) ∧
      (v.verify 5 token []).valid = true ∧ (v.verify 5 mutated []).valid = true := by
  intro v token mutated
  have hvalid : (v.verify 5 token []).valid = true := by
    rw [SimpleJWTValidator.verify_minted (hmacOf (ascii "k")) _ _ _ _ _ 5 rfl (by decide)]
    rfl
  have hparts := splitParts_createToken (hmacOf (ascii "k")) (ascii "a") (ascii "read:x") 9 [] []
  obtain ⟨htoken, hheader, hpayload, hdot⟩ := splitParts_eq_some hparts
  have halg : v.verifiers (extractStringClaim (base64urlDecode tokenHeader) (ascii "alg")) =
      some (macVerifier (hmacOf (ascii "k"))) := by
    rw [alg_tokenHeader]
    rfl
  generalize hsig : base64urlEncode ((hmacOf (ascii "k")).tag _) = signature at hparts htoken hdot
  have hlength : signature.length % 4 = 3 := by
    rw [← hsig, length_base64urlEncode, (hmacOf (ascii "k")).length_tag]
    rfl
  have hmutated : mutated = tokenText tokenHeader
      (base64urlEncode (payloadText (ascii "a") (ascii "read:x") 9 [] [])) (signature ++ ascii "=") := by
    rw [tokenText, ← List.append_assoc]
    exact congrArg (· ++ ascii "=") htoken
  have hpad : '.'.toUInt8 ∉ signature ++ ascii "=" := by
    rw [List.mem_append, not_or]
    exact ⟨hdot, by decide⟩
  refine ⟨fun h => ?_, ?_, hvalid, ?_⟩
  · exact absurd (List.append_right_eq_self.mp h) (by decide)
  · rw [hmutated, splitParts_tokenText hheader hpayload, if_neg hpad, hparts]
    rfl
  · rw [hmutated]
    rw [show token = _ from htoken] at hvalid
    rw [SimpleJWTValidator.verify_tail [] halg hheader hpayload] at hvalid ⊢
    exact ⟨(spells_pad (Or.inr hlength) _).mpr hvalid.1, hvalid.2⟩

end LlmTop
