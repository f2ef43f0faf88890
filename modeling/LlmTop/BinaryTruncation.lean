import LlmTop.BinaryFields

/-!
# Truncated statements

Which proper prefixes of an encoded statement the decoder takes for a
statement: those that end between two fields, and those that end inside a
length whose low groups are all zero.
-/
namespace LlmTop.BinaryEncoder

/-! ## Cut values -/

/-- A length cut behind groups that are all zero. -/
def Stalls (value q : Bytes) : Prop :=
  ∃ k, 0 < k ∧ k < (encodeVarint value.length).length ∧ 128 ^ k ∣ value.length ∧
    q = (encodeVarint value.length).take k

section Value

variable (underflow : Bytes) {value q : Bytes} (hshort : Short value)

include hshort

theorem decodeVarint_take {k : Nat} (hpos : 0 < k) (hk : k < (encodeVarint value.length).length) :
    decodeVarint ((encodeVarint value.length).take k) = .ok (value.length % 128 ^ k, []) := by
  rw [encodeVarint_short hshort] at hk ⊢
  refine decodeVarint_of_decode ?_ ?_ (Nat.lt_of_le_of_lt (Nat.mod_le _ _) hshort)
  · rw [ne_eq, List.take_eq_nil_iff, not_or]
    exact ⟨Nat.ne_of_gt hpos, Lib.Varint.encode_ne_nil 4 _⟩
  · rw [Lib.Varint.decode_take (short_lt_pow hshort) hk, Nat.mul_one, Nat.zero_add]

/-- The decoder takes a stalled length for the empty string. -/
theorem decodeBlock_stalls (h : Stalls value q) : decodeBlock underflow q = .ok ([], []) := by
  obtain ⟨k, hpos, hk, hdvd, rfl⟩ := h
  unfold decodeBlock
  rw [decodeVarint_take hshort hpos hk, Nat.mod_eq_zero_of_dvd hdvd]
  rfl

/-- Every other cut through a counted value is an underflow. -/
theorem decodeBlock_cut (hinit : q <+: counted value) (hne : q ≠ counted value)
    (hstalls : ¬ Stalls value q) : ∃ fault, decodeBlock underflow q = .error fault := by
  rcases Lib.Fields.prefix_append hinit with ⟨hq, hqne⟩ | ⟨body, hbody, rfl⟩
  · by_cases hnil : q = []
    · subst hnil
      exact ⟨_, rfl⟩
    · have htake := List.prefix_iff_eq_take.mp hq
      have hpos : 0 < q.length := List.length_pos_iff.mpr hnil
      have hlength : q.length < (encodeVarint value.length).length :=
        lt_of_le_of_ne hq.length_le fun h => hqne (hq.eq_of_length h)
      have hvarint := decodeVarint_take hshort hpos hlength
      rw [← htake] at hvarint
      have hmod : 0 < value.length % 128 ^ q.length := by
        refine Nat.pos_of_ne_zero fun h => hstalls ⟨q.length, hpos, hlength, ?_, htake⟩
        exact Nat.dvd_of_mod_eq_zero h
      refine ⟨underflow, ?_⟩
      unfold decodeBlock
      rw [hvarint]
      simp only [bind, Except.bind, List.length_nil, if_pos hmod]
  · have hlength : body.length < value.length :=
      lt_of_le_of_ne hbody.length_le fun h => hne (by rw [hbody.eq_of_length h, counted])
    have hvarint : decodeVarint (encodeVarint value.length ++ body) = .ok (value.length, body) := by
      refine decodeVarint_of_decode ?_ ?_ hshort
      · simp [encodeVarint_ne_nil]
      · rw [encodeVarint_short hshort, Lib.Varint.decode_encode (short_lt_pow hshort), Nat.mul_one,
          Nat.zero_add]
    refine ⟨underflow, ?_⟩
    unfold decodeBlock
    rw [hvarint]
    simp only [bind, Except.bind, if_pos hlength]

end Value

/-! ## Cut fields -/

/-- A pair cut inside its key: the length of the value is missing at least. -/
theorem decodeKvpair_cut (op : UInt8) {key q : Bytes} (hshort : Short key)
    (hinit : q <+: counted key) (hne : q ≠ counted key) :
    ∃ fault, decodeKvpair (op :: q) = .error fault := by
  unfold decodeKvpair
  rw [List.drop_succ_cons, List.drop_zero]
  by_cases hstalls : Stalls key q
  · rw [decodeBlock_stalls _ hshort hstalls]
    exact ⟨_, rfl⟩
  · obtain ⟨fault, hfault⟩ :=
      decodeBlock_cut (ascii "Key buffer underflow") hshort hinit hne hstalls
    rw [hfault]
    exact ⟨fault, rfl⟩

theorem prefix_singleton {b : UInt8} {q : Bytes} (h : q <+: [b]) (hnil : q ≠ []) : q = [b] := by
  obtain ⟨op, tail, rfl⟩ := List.exists_cons_of_ne_nil hnil
  obtain ⟨rfl, htail⟩ := List.cons_prefix_cons.mp h
  rw [List.prefix_nil.mp htail]

theorem decodeField_cut_head {field : Field} (hfits : field.Fits) (stmt : Statement) {q : Bytes}
    (hinit : q <+: field.head) (hnil : q ≠ []) (hne : q ≠ field.head) :
    ∃ fault, decodeField q stmt = .error fault := by
  cases field with
  | role value => exact absurd (prefix_singleton hinit hnil) hne
  | tool value => exact absurd (prefix_singleton hinit hnil) hne
  | method value => exact absurd (prefix_singleton hinit hnil) hne
  | entry key value =>
      change q <+: entryHead key at hinit
      change q ≠ entryHead key at hne
      unfold entryHead at hinit hne
      cases hlookup : fieldOpcodes.lookup key with
      | some op =>
          rw [hlookup] at hinit hne
          exact absurd (prefix_singleton hinit hnil) hne
      | none =>
          rw [hlookup] at hinit hne
          obtain ⟨op, tail, rfl⟩ := List.exists_cons_of_ne_nil hnil
          obtain ⟨rfl, htail⟩ := List.cons_prefix_cons.mp hinit
          obtain ⟨fault, hfault⟩ := decodeKvpair_cut Opcode.kv.code hfits.1 htail
            fun h => hne (congrArg _ h)
          rw [decodeField_kv, hfault]
          exact ⟨fault, rfl⟩
  | arg key value =>
      obtain ⟨op, tail, rfl⟩ := List.exists_cons_of_ne_nil hnil
      obtain ⟨rfl, htail⟩ := List.cons_prefix_cons.mp hinit
      obtain ⟨fault, hfault⟩ := decodeKvpair_cut Opcode.toolArg.code hfits.1 htail
        fun h => hne (congrArg _ h)
      cases hcall : stmt.toolCalls.getLast? with
      | none =>
          refine ⟨ascii "OP_TOOL_ARG with no preceding tool call", ?_⟩
          unfold decodeField
          rw [hcall]
          rfl
      | some call =>
          rw [decodeField_arg hcall, hfault]
          exact ⟨fault, rfl⟩

/-- A cut field fails, but for a stalled length of its value. -/
theorem decodeField_cut {field : Field} (hfits : field.Fits) {stmt : Statement}
    (hready : field.Ready stmt) {q : Bytes} (hinit : q <+: field.bytes) (hnil : q ≠ [])
    (hne : q ≠ field.bytes) (hstalls : ∀ body, q = field.head ++ body → ¬ Stalls field.value body) :
    ∃ fault, decodeField q stmt = .error fault := by
  rcases Lib.Fields.prefix_append hinit with ⟨hq, hqne⟩ | ⟨body, hbody, rfl⟩
  · exact decodeField_cut_head hfits stmt hq hnil hqne
  · obtain ⟨fault, hfault⟩ := decodeBlock_cut field.underflow hfits.value hbody
      (fun h => hne (by rw [h, Field.bytes])) (hstalls body rfl)
    rw [decodeField_head hfits hready, hfault]
    exact ⟨fault, rfl⟩

/-! ## Cut statements -/

/-- The cuts through fields that read as a shorter statement. -/
inductive SilentCut (fields : List Field) : Bytes → Prop where
  /-- Between two fields; the end marker is missing. -/
  | boundary {before after : List Field} (h : fields = before ++ after) :
      SilentCut fields (before.flatMap Field.bytes)
  /-- Inside the length of a value, behind zero groups only. -/
  | length {before after : List Field} {field : Field} {q : Bytes}
      (h : fields = before ++ field :: after) (hq : Stalls field.value q) :
      SilentCut fields (before.flatMap Field.bytes ++ (field.head ++ q))

theorem decodeStatement_of_read {p : Bytes} :
    (∃ fault, decodeStatement p 0 = .error fault) ↔
      ∃ fault, Lib.Fields.read statementFormat p Statement.empty = .error fault := by
  unfold decodeStatement
  rw [List.drop_zero]
  cases Lib.Fields.read statementFormat p Statement.empty with
  | error fault => exact iff_of_true ⟨fault, rfl⟩ ⟨fault, rfl⟩
  | ok result => exact iff_of_false (fun ⟨_, h⟩ => nomatch h) fun ⟨_, h⟩ => nomatch h

section Statement

variable {fields : List Field} (hfits : ∀ field ∈ fields, field.Fits)
  (horderly : Orderly Statement.empty fields)

include hfits horderly

/-- A silent cut is read without a fault. -/
theorem read_silentCut {p : Bytes} (h : SilentCut fields p) :
    ∃ stmt, Lib.Fields.read statementFormat p Statement.empty = .ok (stmt, []) := by
  cases h with
  | @boundary before after heq =>
      subst heq
      exact ⟨_, (reads_fields (fun f hf => hfits f (List.mem_append_left _ hf))
        horderly.before).read_eq⟩
  | @length before after field q heq hq =>
      subst heq
      have hfield : field.Fits := hfits field (by simp)
      have hready := horderly before field after rfl
      have hreads := reads_fields (fun f hf => hfits f (List.mem_append_left _ hf)) horderly.before
      obtain ⟨op, tail, hhead, hop⟩ := field.head_cons
      have hdecode := decodeField_head hfield hready q
      rw [decodeBlock_stalls _ hfield.value hq] at hdecode
      rw [hreads, hhead, List.cons_append]
      rw [hhead, List.cons_append] at hdecode
      exact ⟨_, Lib.Fields.read_field statementFormat (beq_eq_false_iff_ne.mpr hop) hdecode⟩

/-- Every other cut is a fault. -/
theorem read_cut {p : Bytes} (hinit : p <+: fields.flatMap Field.bytes)
    (h : ¬ SilentCut fields p) :
    ∃ fault, Lib.Fields.read statementFormat p Statement.empty = .error fault := by
  rcases Lib.Fields.prefix_flatMap hinit with ⟨before, after, heq, rfl⟩ |
    ⟨before, field, after, q, heq, hq, hnil, hne, rfl⟩
  · exact absurd (.boundary heq) h
  · have hstalls : ∀ body, q = field.head ++ body → ¬ Stalls field.value body := by
      rintro body rfl hbody
      exact h (.length heq hbody)
    subst heq
    have hreads := reads_fields (fun f hf => hfits f (List.mem_append_left _ hf)) horderly.before
    obtain ⟨fault, hfault⟩ := decodeField_cut (hfits field (by simp))
      (horderly before field after rfl) hq hnil hne hstalls
    obtain ⟨op, tail, hhead, hop⟩ := field.head_cons
    obtain ⟨op', tail', rfl⟩ := List.exists_cons_of_ne_nil hnil
    rw [Field.bytes, hhead, List.cons_append] at hq
    obtain ⟨rfl, -⟩ := List.cons_prefix_cons.mp hq
    rw [hreads]
    exact ⟨fault, Lib.Fields.read_error statementFormat (beq_eq_false_iff_ne.mpr hop) hfault⟩

end Statement

/-- A truncated statement is refused exactly when the cut is not silent. -/
theorem truncation_detected_iff {role : Bytes} {kvpairs : OrderedMap} {tools : List ToolCall}
    (hshort : ShortStatement role kvpairs tools) {p : Bytes}
    (hinit : p <+: encodeStatement role kvpairs tools)
    (hne : p ≠ encodeStatement role kvpairs tools) :
    (∃ fault, decodeStatement p 0 = .error fault) ↔
      ¬ SilentCut (statementFields role kvpairs tools) p := by
  have hfits := fits_statementFields hshort
  have horderly := orderly_statementFields role kvpairs tools
  rw [decodeStatement_of_read]
  rw [encodeStatement_eq] at hinit hne
  constructor
  · rintro ⟨fault, hfault⟩ hcut
    obtain ⟨stmt, hread⟩ := read_silentCut hfits horderly hcut
    rw [hread] at hfault
    contradiction
  · intro hcut
    refine read_cut hfits horderly ?_ hcut
    rcases List.prefix_concat_iff.mp hinit with h | h
    · exact absurd h hne
    · exact h

theorem truncation_detected_role :
    ¬ SilentCut (statementFields (ascii "A") OrderedMap.empty []) [Opcode.role.code, 1] :=
  (@truncation_detected_iff (ascii "A") OrderedMap.empty [] ⟨by decide, nofun, nofun⟩ _
    (by decide) (by decide)).mp ⟨_, rfl⟩

/-- The statement of role "A" without its end marker, and without anything. -/
theorem truncation_undetected :
    let whole := encodeStatement (ascii "A") OrderedMap.empty []
    let p := [Opcode.role.code, 1, 'A'.toUInt8]
    p <+: whole ∧ p ≠ whole ∧
      decodeStatement p 0 = .ok ({ Statement.empty with role := ascii "A" }, 3) ∧
      decodeStatement [] 0 = .ok (Statement.empty, 0) :=
  ⟨by decide, by decide, rfl, rfl⟩

end LlmTop.BinaryEncoder
