import LlmTop.BinaryFields
import Mathlib.Data.Nat.Digits.Lemmas

/-!
# The round trip of a binary message

A header and statements, encoded one behind the other, decode to themselves.
-/
namespace LlmTop.BinaryEncoder

/-! ## Headers -/

def headerFields (ver chk agt uid tim reqid fallback : Bytes) (hr : UInt32) :
    List (Opcode × Bytes) :=
  [(.version, ver), (.checksum, chk), (.agent, agt), (.uid, uid), (.timestamp, tim),
    (.reqid, reqid)] ++ (if fallback.isEmpty then [] else [(.fallback, fallback)]) ++
    (if 0 < hr then [(.hr, natDecimal hr.toNat)] else [])

/-- The header line a decoder rebuilds. -/
def headerLine (ver chk agt uid tim reqid fallback : Bytes) (hr : UInt32) : Bytes :=
  ascii "VER:" ++ ver ++ ascii " CHK:" ++ chk ++ ascii " AGT:" ++ agt ++ ascii " UID:" ++ uid ++
    ascii " TIM:" ++ tim ++ ascii " REQID:" ++ reqid ++
    (if fallback = [] then [] else ascii " FALLBACK:" ++ fallback) ++
    (if hr = 0 then [] else ascii " HR:" ++ natDecimal hr.toNat)

/-- A field behind what the line holds already. -/
def appendField (result : Bytes) (field : Opcode × Bytes) : Bytes :=
  (if result.isEmpty then result else result ++ ascii " ") ++ (headerLabel field.1.code).getD [] ++
    field.2

theorem reads_headerField {field : Opcode × Bytes} (hlabel : (headerLabel field.1.code).isSome)
    (hshort : Short field.2) (result : Bytes) :
    Lib.Fields.Reads headerFormat result (encodeString field.1 field.2)
      (appendField result field) := by
  obtain ⟨label, hlabel⟩ := Option.isSome_iff_exists.mp hlabel
  have hgo : headerFormat.stops field.1.code = false := by
    have hsmall : ∀ op, headerLabel op ≠ none → op < 0x10 := by
      intro op h
      have hall := of_all_bytes (p := fun op => (headerLabel op).isNone || decide (op < 0x10))
        (by decide +kernel) op
      cases hop : headerLabel op with
      | none => exact absurd hop h
      | some label =>
          rw [hop] at hall
          exact of_decide_eq_true (by simpa using hall)
    exact decide_eq_false (UInt8.not_le.mpr (hsmall _ (by rw [hlabel]; exact Option.some_ne_none _)))
  refine Lib.Fields.Reads.field hgo fun rest => ?_
  change decodeHeaderField (field.1.code :: (counted field.2 ++ rest)) result = _
  have hstring : decodeString (field.1.code :: (counted field.2 ++ rest)) = .ok (field.2, rest) :=
    decodeBlock_counted _ hshort rest
  unfold decodeHeaderField appendField
  simp only [List.headD_cons, hlabel, hstring]
  rfl

theorem encodeHeader_eq (ver chk agt uid tim reqid fallback : Bytes) (hr : UInt32) :
    encodeHeader ver chk agt uid tim reqid fallback hr = magic ++ [0x01] ++
      (headerFields ver chk agt uid tim reqid fallback hr).flatMap fun f => encodeString f.1 f.2 := by
  unfold encodeHeader headerFields
  cases fallback <;> by_cases hhr : 0 < hr <;> simp [hhr]

/-- Behind a nonempty line every field follows a space. -/
theorem foldl_appendField (fields : List (Opcode × Bytes)) {result : Bytes} (h : result ≠ []) :
    fields.foldl appendField result =
      result ++ fields.flatMap fun f => ascii " " ++ (headerLabel f.1.code).getD [] ++ f.2 := by
  induction fields generalizing result with
  | nil => simp
  | cons field fields ih =>
      have hempty : result.isEmpty = false := List.isEmpty_eq_false_iff.mpr h
      have hstep : appendField result field =
          result ++ (ascii " " ++ (headerLabel field.1.code).getD [] ++ field.2) := by
        simp [appendField, hempty]
      rw [List.foldl_cons, hstep, ih (List.append_ne_nil_of_left_ne_nil h _), List.flatMap_cons,
        List.append_assoc]

theorem foldl_headerFields (ver chk agt uid tim reqid fallback : Bytes) (hr : UInt32) :
    (headerFields ver chk agt uid tim reqid fallback hr).foldl appendField [] =
      headerLine ver chk agt uid tim reqid fallback hr := by
  have hfirst : appendField [] (.version, ver) = ascii "VER:" ++ ver := rfl
  have hne : ascii "VER:" ++ ver ≠ [] := List.append_ne_nil_of_left_ne_nil (by decide) _
  have hhr : (0 < hr) ↔ ¬ hr = 0 := UInt32.pos_iff_ne_zero
  rw [headerFields, List.append_assoc, List.cons_append, List.foldl_cons, hfirst,
    foldl_appendField _ hne, headerLine]
  simp only [hhr, List.flatMap_append, List.flatMap_cons, List.flatMap_nil]
  cases fallback <;> by_cases h : hr = 0 <;> simp [h, headerLabel, Opcode.code, ascii]

theorem short_natDecimal {n : Nat} (h : n < 2 ^ 32) : Short (natDecimal n) := by
  have hdigits : (Nat.digits 10 n).length ≤ 10 :=
    (Nat.digits_length_le_iff (by decide) n).mpr (Nat.lt_trans h (by decide))
  unfold natDecimal Short
  split
  · decide
  · rw [List.length_map, List.length_reverse]
    omega

theorem short_headerFields {ver chk agt uid tim reqid fallback : Bytes} {hr : UInt32}
    (hshort : ∀ s ∈ [ver, chk, agt, uid, tim, reqid, fallback], Short s) :
    ∀ field ∈ headerFields ver chk agt uid tim reqid fallback hr,
      (headerLabel field.1.code).isSome ∧ Short field.2 := by
  intro field hfield
  have hdecimal := short_natDecimal hr.toNat_lt
  simp only [headerFields, List.mem_append, List.mem_cons, List.not_mem_nil, or_false] at hfield
  simp only [List.mem_cons, List.not_mem_nil, or_false, forall_eq_or_imp, forall_eq] at hshort
  obtain ⟨hver, hchk, hagt, huid, htim, hreqid, hfallback⟩ := hshort
  rcases hfield with ((rfl | rfl | rfl | rfl | rfl | rfl) | hfield) | hfield
  · exact ⟨rfl, hver⟩
  · exact ⟨rfl, hchk⟩
  · exact ⟨rfl, hagt⟩
  · exact ⟨rfl, huid⟩
  · exact ⟨rfl, htim⟩
  · exact ⟨rfl, hreqid⟩
  · split at hfield
    · contradiction
    · obtain rfl := List.mem_singleton.mp hfield
      exact ⟨rfl, hfallback⟩
  · split at hfield
    · obtain rfl := List.mem_singleton.mp hfield
      exact ⟨rfl, hdecimal⟩
    · contradiction

/-- The header of a message decodes to its line and leaves the rest. -/
theorem decodeHeader_encodeHeader {ver chk agt uid tim reqid fallback : Bytes} {hr : UInt32}
    (hshort : ∀ s ∈ [ver, chk, agt, uid, tim, reqid, fallback], Short s) {rest : Bytes}
    (hrest : ∀ op ∈ rest.head?, 0x10 ≤ op) :
    decodeHeader (encodeHeader ver chk agt uid tim reqid fallback hr ++ rest) =
      .ok (headerLine ver chk agt uid tim reqid fallback hr,
        (encodeHeader ver chk agt uid tim reqid fallback hr).length) := by
  have hfields := @short_headerFields _ _ _ _ _ _ _ hr hshort
  have hreads := @Lib.Fields.Reads.flatMap _ _ _ headerFormat _ _ _ id appendField _
    (fun result field hfield =>
      reads_headerField (hfields field hfield).1 (hfields field hfield).2 result) []
  have hread := hreads rest
  have hstop : Lib.Fields.read headerFormat rest
      (headerLine ver chk agt uid tim reqid fallback hr) =
      .ok (headerLine ver chk agt uid tim reqid fallback hr, rest) := by
    cases rest with
    | nil => rfl
    | cons op rest => exact Lib.Fields.read_stop _ (decide_eq_true (hrest op rfl)) rest _
  simp only [id, foldl_headerFields, hstop] at hread
  rw [encodeHeader_eq]
  generalize (headerFields ver chk agt uid tim reqid fallback hr).flatMap
    (fun f => encodeString f.1 f.2) = text at hread ⊢
  have hmagic : ¬ ((magic ++ [0x01] ++ text ++ rest).length < 5 ∨
      (magic ++ [0x01] ++ text ++ rest).take 4 ≠ magic) := by
    rintro (h | h)
    · simp [magic] at h
      omega
    · exact h rfl
  have hdrop : (magic ++ [0x01] ++ text ++ rest).drop 5 = text ++ rest := rfl
  have hlength : (magic ++ [0x01] ++ text ++ rest).length - rest.length =
      (magic ++ [0x01] ++ text).length := by
    rw [List.length_append, Nat.add_sub_cancel]
  unfold decodeHeader
  rw [if_neg hmagic, hdrop, hread]
  simp only [hlength]

/-! ## Statements -/

/-- A statement anywhere in a buffer. -/
theorem decodeStatement_encodeStatement {role : Bytes} {kvpairs : OrderedMap}
    {tools : List ToolCall} (h : ShortStatement role kvpairs tools) (before after : Bytes) :
    decodeStatement (before ++ encodeStatement role kvpairs tools ++ after) before.length =
      .ok ({ role := role, kvpairs := kvpairs, toolCalls := tools },
        before.length + (encodeStatement role kvpairs tools).length) := by
  have hreads := reads_fields (fits_statementFields h)
    (orderly_statementFields role kvpairs tools)
  have hread := hreads (Opcode.endStatement.code :: after)
  rw [foldl_statementFields, Lib.Fields.read_stop _ (by rfl)] at hread
  have htext : encodeStatement role kvpairs tools ++ after =
      (statementFields role kvpairs tools).flatMap Field.bytes ++
        Opcode.endStatement.code :: after := by
    rw [encodeStatement_eq, List.append_assoc]
    rfl
  rw [← htext] at hread
  have hlength : (encodeStatement role kvpairs tools ++ after).length - after.length =
      (encodeStatement role kvpairs tools).length := by
    rw [List.length_append, Nat.add_sub_cancel]
  unfold decodeStatement
  rw [List.append_assoc, List.drop_left, hread]
  simp only [List.drop_succ_cons, List.drop_zero, hlength]

/-- The bytes of statements behind one another. -/
def encodeStatements (stmts : List Statement) : Bytes :=
  stmts.flatMap fun stmt => encodeStatement stmt.role stmt.kvpairs stmt.toolCalls

theorem decodeStatements_encodeStatements {stmts : List Statement}
    (h : ∀ stmt ∈ stmts, ShortStatement stmt.role stmt.kvpairs stmt.toolCalls) (before : Bytes) :
    decodeStatements (before ++ encodeStatements stmts) stmts.length before.length =
      .ok (stmts, (before ++ encodeStatements stmts).length) := by
  induction stmts generalizing before with
  | nil => simp [decodeStatements, encodeStatements]
  | cons stmt stmts ih =>
      have hstep := decodeStatement_encodeStatement (h stmt List.mem_cons_self) before
        (encodeStatements stmts)
      have hrest := ih (fun s hs => h s (List.mem_cons_of_mem _ hs))
        (before ++ encodeStatement stmt.role stmt.kvpairs stmt.toolCalls)
      have htext : before ++ encodeStatements (stmt :: stmts) =
          before ++ encodeStatement stmt.role stmt.kvpairs stmt.toolCalls ++
            encodeStatements stmts := by
        rw [encodeStatements, List.flatMap_cons, List.append_assoc]
        rfl
      rw [List.length_append] at hrest
      rw [htext, List.length_cons, decodeStatements, hstep]
      simp only [bind, Except.bind]
      rw [hrest]

/-- The round trip of a message. -/
theorem decode_message {ver chk agt uid tim reqid fallback : Bytes} (hr : UInt32)
    (hheader : ∀ s ∈ [ver, chk, agt, uid, tim, reqid, fallback], Short s) {stmts : List Statement}
    (hstmts : ∀ stmt ∈ stmts, ShortStatement stmt.role stmt.kvpairs stmt.toolCalls) :
    let header := encodeHeader ver chk agt uid tim reqid fallback hr
    let buffer := header ++ encodeStatements stmts
    decodeHeader buffer =
        .ok (headerLine ver chk agt uid tim reqid fallback hr, header.length) ∧
      decodeStatements buffer stmts.length header.length = .ok (stmts, buffer.length) := by
  intro header buffer
  refine ⟨decodeHeader_encodeHeader hheader ?_, decodeStatements_encodeStatements hstmts header⟩
  intro op hop
  cases stmts with
  | nil => contradiction
  | cons stmt stmts =>
      obtain rfl : Opcode.role.code = op := Option.some.inj hop
      decide

/-- An empty key, a common key, an empty value and an empty method. -/
theorem decode_message_mixed :
    let stmt : Statement :=
      { role := ascii "CODER", kvpairs := (OrderedMap.empty.set [] (ascii "x")).set (ascii "tgt") [],
        toolCalls := [{ name := ascii "read", args := OrderedMap.empty.set (ascii "path") (ascii "a"),
                        method := some [] }] }
    let header := encodeHeader (ascii "2") [] (ascii "a") [] [] (ascii "r1") (ascii "json") 1
    let buffer := header ++ encodeStatements [stmt, stmt]
    decodeHeader buffer =
        .ok (ascii "VER:2 CHK: AGT:a UID: TIM: REQID:r1 FALLBACK:json HR:1", header.length) ∧
      decodeStatements buffer 2 header.length = .ok ([stmt, stmt], buffer.length) := by
  intro stmt header buffer
  have hstmt : ShortStatement stmt.role stmt.kvpairs stmt.toolCalls := by
    refine ⟨by decide, ?_, ?_⟩
    · intro entry hentry
      rcases List.mem_pair.mp hentry with rfl | rfl
      · exact ⟨by decide, by decide⟩
      · exact ⟨by decide, by decide⟩
    · intro tool htool
      obtain rfl := List.mem_singleton.mp htool
      refine ⟨by decide, ?_, ?_⟩
      · intro arg harg
        obtain rfl := List.mem_singleton.mp harg
        exact ⟨by decide, by decide⟩
      · intro method hmethod
        obtain rfl := Option.some.inj hmethod
        decide
  exact decode_message 1 (by decide) (by
    intro s hs
    rcases List.mem_pair.mp hs with rfl | rfl <;> exact hstmt)

end LlmTop.BinaryEncoder
