import LlmTop.BinaryRoundTrip

/-!
# Whatever decodes can be encoded again

The decoder accepts more than the encoder writes: fields in any order, a key
twice, lengths in more groups than they need, no role, no end marker.  What it
returns is still a statement the encoder writes and the decoder reads back, in
no more bytes than it was read from, but for the role and the marker that may
have been missing.
-/
namespace LlmTop.BinaryEncoder

variable {text rest key value : Bytes} {stmt stmt' : Statement}

/-! ## What a counted value was read from -/

theorem decodeVarint_length {len : Nat} (h : decodeVarint text = .ok (len, rest)) :
    len < 2 ^ 32 ∧ (encodeVarint len).length + rest.length ≤ text.length := by
  unfold decodeVarint at h
  split at h
  · contradiction
  · rename_i htext
    split at h
    · contradiction
    · rename_i len' rest' hdecode
      split at h
      · contradiction
      · cases h
        have hrange : len < 2 ^ 32 := by omega
        obtain ⟨byte, text, rfl⟩ := List.exists_cons_of_ne_nil (mt List.isEmpty_iff.mpr htext)
        have hadvances := Lib.Varint.decode_advances hdecode
        obtain ⟨value, hvalue, hbound⟩ := Lib.Varint.decode_consumed hdecode
        rw [Nat.mul_one, Nat.zero_add] at hvalue
        subst hvalue
        have hwritten := @Lib.Varint.encode_length_le 5 _ _ hbound (Nat.sub_pos_of_lt hadvances)
        refine ⟨hrange, ?_⟩
        rw [encodeVarint, Nat.mod_eq_of_lt hrange]
        omega

theorem decodeBlock_counts {underflow : Bytes} (h : decodeBlock underflow text = .ok (value, rest)) :
    Short value ∧ (counted value).length + rest.length ≤ text.length := by
  obtain ⟨⟨len, body⟩, hlen, h⟩ := bind_eq_ok.mp h
  dsimp only at h
  split at h
  · contradiction
  · cases h
    obtain ⟨hrange, hbytes⟩ := decodeVarint_length hlen
    have hvalue : (body.take len).length = len := List.length_take_of_le (by omega)
    refine ⟨Nat.lt_of_le_of_lt (Nat.le_of_eq hvalue) hrange, ?_⟩
    rw [counted, List.length_append, hvalue, List.length_drop]
    omega

theorem decodeString_counts (h : decodeString text = .ok (value, rest)) :
    Short value ∧ (counted value).length + rest.length + 1 ≤ text.length := by
  cases text with
  | nil => contradiction
  | cons op text =>
      obtain ⟨hshort, hbytes⟩ := decodeBlock_counts h
      exact ⟨hshort, Nat.succ_le_succ hbytes⟩

theorem decodeKvpair_counts (h : decodeKvpair text = .ok (key, value, rest)) :
    (Short key ∧ Short value) ∧
      (counted key).length + (counted value).length + rest.length + 1 ≤ text.length := by
  obtain ⟨⟨key', body⟩, hkey, h⟩ := bind_eq_ok.mp h
  obtain ⟨⟨value', rest'⟩, hvalue, h⟩ := bind_eq_ok.mp h
  cases h
  obtain ⟨hshort, hbytes⟩ := decodeBlock_counts hkey
  obtain ⟨hshort', hbytes'⟩ := decodeBlock_counts hvalue
  cases text with
  | nil => contradiction
  | cons op text =>
      refine ⟨⟨hshort, hshort'⟩, ?_⟩
      rw [List.drop_succ_cons, List.drop_zero] at hbytes
      rw [List.length_cons]
      omega

/-! ## Fields -/

theorem lookup_of_fieldKey {op : UInt8} (h : fieldKey op = some key) :
    ∃ op', fieldOpcodes.lookup key = some op' := by
  have hall := of_all_bytes
    (p := fun op => (fieldKey op).all fun key => (fieldOpcodes.lookup key).isSome)
    (by decide +kernel) op
  rw [h] at hall
  exact Option.isSome_iff_exists.mp hall

theorem entryHead_length_le (key : Bytes) : (entryHead key).length ≤ (counted key).length + 1 := by
  unfold entryHead
  cases fieldOpcodes.lookup key with
  | some op => exact Nat.succ_le_succ (Nat.zero_le _)
  | none => exact Nat.le_refl _

theorem Field.bytes_length (field : Field) :
    field.bytes.length = field.head.length + (counted field.value).length :=
  List.length_append

/-- A field of one string, behind one byte. -/
theorem Field.counts_of_string {field : Field} (hhead : field.head.length = 1)
    (h : decodeString text = .ok (field.value, rest)) :
    Short field.value ∧ field.bytes.length + rest.length ≤ text.length := by
  obtain ⟨hshort, hbytes⟩ := decodeString_counts h
  refine ⟨hshort, ?_⟩
  rw [Field.bytes_length, hhead]
  omega

/-- A decoded field is one the encoder has, and was no shorter than the encoder writes it. -/
theorem decodeField_field (h : decodeField text stmt = .ok (stmt', rest)) :
    ∃ field : Field, field.Fits ∧ field.Ready stmt ∧ field.apply stmt = stmt' ∧
      field.bytes.length + rest.length ≤ text.length := by
  unfold decodeField at h
  dsimp only at h
  split_ifs at h with hrole hname hmethod harg hkv
  · obtain ⟨⟨role, rest'⟩, hvalue, h⟩ := bind_eq_ok.mp h
    dsimp only at h
    cases h
    obtain ⟨hshort, hbytes⟩ := @Field.counts_of_string _ _ (.role role) rfl hvalue
    exact ⟨.role role, hshort, trivial, rfl, hbytes⟩
  · obtain ⟨⟨name, rest'⟩, hvalue, h⟩ := bind_eq_ok.mp h
    dsimp only at h
    cases h
    obtain ⟨hshort, hbytes⟩ := @Field.counts_of_string _ _ (.tool name) rfl hvalue
    exact ⟨.tool name, hshort, trivial, rfl, hbytes⟩
  · split at h
    · contradiction
    · rename_i call hcall
      obtain ⟨⟨method, rest'⟩, hvalue, h⟩ := bind_eq_ok.mp h
      dsimp only at h
      cases h
      obtain ⟨hshort, hbytes⟩ := @Field.counts_of_string _ _ (.method method) rfl hvalue
      refine ⟨.method method, hshort, ?_, ?_, hbytes⟩
      · exact List.ne_nil_of_mem (List.mem_of_getLast? hcall)
      · simp only [Field.apply, hcall]
  · split at h
    · contradiction
    · rename_i call hcall
      obtain ⟨⟨key, value, rest'⟩, hpair, h⟩ := bind_eq_ok.mp h
      dsimp only at h
      cases h
      obtain ⟨hshort, hbytes⟩ := decodeKvpair_counts hpair
      refine ⟨.arg key value, hshort, ?_, ?_, ?_⟩
      · exact List.ne_nil_of_mem (List.mem_of_getLast? hcall)
      · simp only [Field.apply, hcall]
      · rw [Field.bytes_length, Field.head, Field.value, List.length_cons]
        omega
  · obtain ⟨⟨key, value, rest'⟩, hpair, h⟩ := bind_eq_ok.mp h
    dsimp only at h
    cases h
    obtain ⟨hshort, hbytes⟩ := decodeKvpair_counts hpair
    refine ⟨.entry key value, hshort, trivial, rfl, ?_⟩
    have hhead := entryHead_length_le key
    rw [Field.bytes_length, Field.head, Field.value]
    omega
  · split at h
    · contradiction
    · rename_i key hkey
      obtain ⟨⟨value, rest'⟩, hvalue, h⟩ := bind_eq_ok.mp h
      dsimp only at h
      cases h
      obtain ⟨op, hop⟩ := lookup_of_fieldKey hkey
      have hhead : (Field.entry key value).head.length = 1 := by
        rw [Field.head, entryHead, hop, List.length_singleton]
      obtain ⟨hshort, hbytes⟩ := Field.counts_of_string hhead hvalue
      have hcommon : ∀ entry ∈ fieldOpcodes, Short entry.1 := by decide
      refine ⟨.entry key value, ⟨?_, hshort⟩, trivial, rfl, hbytes⟩
      obtain ⟨before, after, hsplit, -⟩ := List.lookup_eq_some_iff.mp hop
      exact hcommon (key, op) (by rw [hsplit]; simp)

/-! ## Statements -/

/-- The bytes of a role, when there is one. -/
def roleWritten (role : Bytes) : Nat := if role = [] then 0 else (encodeString .role role).length

theorem roleWritten_le (role : Bytes) : roleWritten role ≤ (encodeString .role role).length := by
  unfold roleWritten
  split
  · exact Nat.zero_le _
  · exact Nat.le_refl _

/-- The bytes of a statement without its end marker. -/
def written (stmt : Statement) : Nat :=
  roleWritten stmt.role + (stmt.kvpairs.data.flatMap encodeEntry).length +
    (stmt.toolCalls.flatMap encodeTool).length

theorem encodeStatement_length (stmt : Statement) :
    (encodeStatement stmt.role stmt.kvpairs stmt.toolCalls).length =
      written stmt + (if stmt.role = [] then 2 else 0) + 1 := by
  have hrole : stmt.role = [] → (encodeString .role stmt.role).length = 2 := fun h => by
    rw [h]
    rfl
  simp only [encodeStatement, written, roleWritten, List.length_append, List.length_singleton]
  split
  · rename_i h
    have := hrole h
    omega
  · omega

theorem shortMap_set {m : OrderedMap} (h : ShortMap m) (hkey : Short key) (hvalue : Short value) :
    ShortMap (m.set key value) := by
  intro entry hentry
  rcases OrderedMap.mem_set hentry with hentry | rfl
  · exact h entry hentry
  · exact ⟨hkey, hvalue⟩

/-- The last call gives way to another one. -/
theorem toolCalls_setBack {call : ToolCall} (h : stmt.toolCalls.getLast? = some call)
    (call' : ToolCall) :
    stmt.toolCalls = stmt.toolCalls.dropLast ++ [call] ∧
      (setBack stmt call').toolCalls = stmt.toolCalls.dropLast ++ [call'] := by
  refine ⟨?_, rfl⟩
  obtain ⟨calls, heq⟩ := List.getLast?_eq_some_iff.mp h
  rw [heq, List.dropLast_concat]

theorem Field.short_apply {field : Field} (hfits : field.Fits)
    (h : ShortStatement stmt.role stmt.kvpairs stmt.toolCalls) :
    ShortStatement (field.apply stmt).role (field.apply stmt).kvpairs
      (field.apply stmt).toolCalls := by
  obtain ⟨hrole, hkvpairs, htools⟩ := h
  have hback : ∀ {call call' : ToolCall}, stmt.toolCalls.getLast? = some call →
      (ShortTool call → ShortTool call') → ∀ tool ∈ (setBack stmt call').toolCalls, ShortTool tool := by
    intro call call' hcall hshort tool htool
    obtain ⟨heq, hset⟩ := toolCalls_setBack hcall call'
    rw [heq] at htools
    rw [hset] at htool
    rcases List.mem_append.mp htool with htool | htool
    · exact htools tool (List.mem_append_left _ htool)
    · obtain rfl := List.mem_singleton.mp htool
      exact hshort (htools call (by simp))
  cases field with
  | role value => exact ⟨hfits, hkvpairs, htools⟩
  | entry key value => exact ⟨hrole, shortMap_set hkvpairs hfits.1 hfits.2, htools⟩
  | tool value =>
      refine ⟨hrole, hkvpairs, fun tool htool => ?_⟩
      rcases List.mem_append.mp htool with htool | htool
      · exact htools tool htool
      · obtain rfl := List.mem_singleton.mp htool
        exact ⟨hfits, fun _ h => absurd h List.not_mem_nil, fun _ h => absurd h (Option.not_mem_none _)⟩
  | method value =>
      cases hcall : stmt.toolCalls.getLast? with
      | none =>
          simp only [Field.apply, hcall]
          exact ⟨hrole, hkvpairs, htools⟩
      | some call =>
          simp only [Field.apply, hcall]
          refine ⟨hrole, hkvpairs, hback hcall fun hshort => ⟨hshort.1, hshort.2.1, ?_⟩⟩
          intro method hmethod
          obtain rfl := Option.some.inj hmethod
          exact hfits
  | arg key value =>
      cases hcall : stmt.toolCalls.getLast? with
      | none =>
          simp only [Field.apply, hcall]
          exact ⟨hrole, hkvpairs, htools⟩
      | some call =>
          simp only [Field.apply, hcall]
          exact ⟨hrole, hkvpairs, hback hcall fun hshort =>
            ⟨hshort.1, shortMap_set hshort.2.1 hfits.1 hfits.2, hshort.2.2⟩⟩

theorem written_setBack {call : ToolCall} (hcall : stmt.toolCalls.getLast? = some call)
    {call' : ToolCall} {bytes : Nat} (h : (encodeTool call').length ≤ (encodeTool call).length + bytes) :
    written (setBack stmt call') ≤ written stmt + bytes := by
  obtain ⟨heq, hset⟩ := toolCalls_setBack hcall call'
  have hrole : (setBack stmt call').role = stmt.role := rfl
  have hkvpairs : (setBack stmt call').kvpairs = stmt.kvpairs := rfl
  rw [written, written, hset, hrole, hkvpairs]
  conv_rhs => rw [heq]
  simp only [List.flatMap_append, List.flatMap_singleton, List.length_append]
  omega

theorem encodeTool_length (tool : ToolCall) :
    (encodeTool tool).length = (encodeString .toolName tool.name).length +
      (tool.method.elim 0 fun method => (encodeString .toolMethod method).length) +
      (tool.args.data.flatMap fun arg => encodeKvpair .toolArg arg.1 arg.2).length := by
  rw [encodeTool, List.length_append, List.length_append]
  cases tool.method with
  | none => rfl
  | some method => rfl

/-- A field adds no more to what is written than its own bytes. -/
theorem Field.written_apply (field : Field) :
    written (field.apply stmt) ≤ written stmt + field.bytes.length := by
  cases field with
  | role value =>
      have hbytes : (Field.role value).bytes = encodeString .role value := rfl
      have hrole := roleWritten_le value
      rw [hbytes]
      simp only [written, Field.apply]
      omega
  | entry key value =>
      have hset := OrderedMap.flatMap_set_length encodeEntry stmt.kvpairs key value
      have hbytes := bytes_entry (key, value)
      dsimp only at hbytes
      rw [hbytes]
      simp only [written, Field.apply]
      omega
  | tool value =>
      have hbytes : (Field.tool value).bytes = encodeString .toolName value := rfl
      have hlength := encodeTool_length ⟨value, OrderedMap.empty, none⟩
      change _ = _ + 0 + 0 at hlength
      rw [hbytes]
      simp only [written, Field.apply, List.flatMap_append, List.flatMap_singleton,
        List.length_append, hlength]
      omega
  | method value =>
      cases hcall : stmt.toolCalls.getLast? with
      | none =>
          simp only [Field.apply, hcall]
          exact Nat.le_add_right _ _
      | some call =>
          have hbytes : (Field.method value).bytes = encodeString .toolMethod value := rfl
          simp only [Field.apply, hcall, hbytes]
          refine written_setBack hcall ?_
          simp only [encodeTool_length, Option.elim_some]
          omega
  | arg key value =>
      cases hcall : stmt.toolCalls.getLast? with
      | none =>
          simp only [Field.apply, hcall]
          exact Nat.le_add_right _ _
      | some call =>
          have hset := OrderedMap.flatMap_set_length (fun arg => encodeKvpair .toolArg arg.1 arg.2) call.args
            key value
          have hbytes := bytes_arg (key, value)
          dsimp only at hset hbytes
          simp only [Field.apply, hcall, hbytes]
          refine written_setBack hcall ?_
          simp only [encodeTool_length]
          omega

theorem decodeStatement_written {buffer : Bytes} {pos pos' : Nat}
    (h : decodeStatement buffer pos = .ok (stmt, pos')) :
    ShortStatement stmt.role stmt.kvpairs stmt.toolCalls ∧
      written stmt + (if pos' < buffer.length then 1 else 0) ≤ pos' - pos := by
  unfold decodeStatement at h
  split at h
  · contradiction
  · rename_i stmt' rest hread
    cases h
    have hkeeps := Lib.Fields.read_keeps statementFormat
      (p := fun stmt rest => ShortStatement stmt.role stmt.kvpairs stmt.toolCalls ∧
        written stmt + rest.length ≤ (buffer.drop pos).length)
      (fun {text rest stmt stmt'} hkept hfield => by
        obtain ⟨field, hfits, -, rfl, hbytes⟩ := decodeField_field hfield
        have hwritten := @Field.written_apply stmt field
        exact ⟨field.short_apply hfits hkept.1, by omega⟩)
      ⟨⟨by decide, fun _ h => absurd h List.not_mem_nil, fun _ h => absurd h List.not_mem_nil⟩,
        Nat.le_of_eq (Nat.zero_add _)⟩ hread
    refine ⟨hkeeps.1, ?_⟩
    have hwritten := hkeeps.2
    rw [List.length_drop] at hwritten ⊢
    rw [List.length_drop]
    split <;> omega

/-! ## Encoding again -/

theorem decodeStatement_reencodes {buffer : Bytes} {pos pos' : Nat}
    (h : decodeStatement buffer pos = .ok (stmt, pos')) :
    (encodeStatement stmt.role stmt.kvpairs stmt.toolCalls).length ≤
      pos' - pos + (if stmt.role = [] then 2 else 0) + (if pos' < buffer.length then 0 else 1) := by
  have hwritten := (decodeStatement_written h).2
  rw [encodeStatement_length]
  split at hwritten <;> rename_i hend <;> simp only [hend, if_true, if_false] <;> omega

theorem decodeStatement_le {buffer : Bytes} {pos pos' : Nat}
    (h : decodeStatement buffer pos = .ok (stmt, pos')) : pos ≤ pos' := by
  unfold decodeStatement at h
  split at h
  · contradiction
  · cases h
    exact Nat.le_add_right _ _

theorem decodeStatements_le {buffer : Bytes} {count pos pos' : Nat} {stmts : List Statement}
    (h : decodeStatements buffer count pos = .ok (stmts, pos')) : pos ≤ pos' := by
  induction count generalizing pos stmts with
  | zero =>
      cases h
      exact Nat.le_refl _
  | succ count ih =>
      obtain ⟨⟨stmt, middle⟩, hstmt, h⟩ := bind_eq_ok.mp h
      obtain ⟨⟨stmts, pos'⟩, hstmts, h⟩ := bind_eq_ok.mp h
      cases h
      exact Nat.le_trans (decodeStatement_le hstmt) (ih hstmts)

theorem decodeStatements_written {buffer : Bytes} {count pos pos' : Nat} {stmts : List Statement}
    (h : decodeStatements buffer count pos = .ok (stmts, pos')) :
    (∀ stmt ∈ stmts, ShortStatement stmt.role stmt.kvpairs stmt.toolCalls) ∧
      stmts.length = count ∧
      (encodeStatements stmts).length ≤ pos' - pos +
        2 * stmts.countP (fun stmt => stmt.role.isEmpty) +
          (if pos' < buffer.length then 0 else count) := by
  induction count generalizing pos stmts with
  | zero =>
      cases h
      exact ⟨fun _ h => absurd h List.not_mem_nil, rfl, Nat.zero_le _⟩
  | succ count ih =>
      obtain ⟨⟨stmt, middle⟩, hstmt, h⟩ := bind_eq_ok.mp h
      obtain ⟨⟨stmts, pos'⟩, hstmts, h⟩ := bind_eq_ok.mp h
      cases h
      obtain ⟨hshort, hlength, hbytes⟩ := ih hstmts
      refine ⟨?_, congrArg (· + 1) hlength, ?_⟩
      · intro s hs
        rcases List.mem_cons.mp hs with rfl | hs
        · exact (decodeStatement_written hstmt).1
        · exact hshort s hs
      · have hfirst := decodeStatement_reencodes hstmt
        have hforward := decodeStatement_le hstmt
        have hforward' := decodeStatements_le hstmts
        have hrole : stmt.role.isEmpty = true ↔ stmt.role = [] := List.isEmpty_iff
        rw [encodeStatements, List.flatMap_cons, List.length_append, List.countP_cons]
        change _ + (encodeStatements stmts).length ≤ _
        simp only [hrole]
        split_ifs at hfirst hbytes ⊢ <;> omega

/-- Statements read from any bytes: written again they decode to themselves, in no more bytes
than they were read from but for two where a role was missing and one where an end marker was. -/
theorem decoded_statements_reencode {buffer : Bytes} {count pos pos' : Nat}
    {stmts : List Statement} (h : decodeStatements buffer count pos = .ok (stmts, pos')) :
    (∀ before, decodeStatements (before ++ encodeStatements stmts) count before.length =
      .ok (stmts, (before ++ encodeStatements stmts).length)) ∧
    (encodeStatements stmts).length ≤ pos' - pos +
      2 * stmts.countP (fun stmt => stmt.role.isEmpty) +
        (if pos' < buffer.length then 0 else count) := by
  obtain ⟨hshort, rfl, hbytes⟩ := decodeStatements_written h
  exact ⟨decodeStatements_encodeStatements hshort, hbytes⟩

/-- A key twice, a length in two groups, no role and no end marker. -/
theorem decoded_statements_reencode_loose :
    let stmts := [{ Statement.empty with
      kvpairs := (OrderedMap.empty.set (ascii "tgt") (ascii "x")).set (ascii "tgt") (ascii "y") }]
    (∀ before, decodeStatements (before ++ encodeStatements stmts) 1 before.length =
      .ok (stmts, (before ++ encodeStatements stmts).length)) ∧
    (encodeStatements stmts).length ≤ 7 - 0 + 2 * 1 + 1 :=
  @decoded_statements_reencode [0x11, 0x81, 0x00, 0x78, 0x11, 0x01, 0x79] 1 0 7 _ rfl

end LlmTop.BinaryEncoder
