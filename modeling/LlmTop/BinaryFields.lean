import LlmTop.Binary

/-!
# Statements as fields

The bytes of a statement are the bytes of its fields and the end marker.  A
field is a head, which fixes what the field means, and a counted value.
-/
namespace LlmTop.BinaryEncoder

/-! ## Counted values -/

def Short (s : Bytes) : Prop := s.length < 2 ^ 32

instance (s : Bytes) : Decidable (Short s) := inferInstanceAs (Decidable (s.length < 2 ^ 32))

/-- A length and the bytes it counts. -/
def counted (value : Bytes) : Bytes := encodeVarint value.length ++ value

theorem encodeVarint_short {value : Bytes} (h : Short value) :
    encodeVarint value.length = Lib.Varint.encode 5 value.length := by
  rw [encodeVarint, Nat.mod_eq_of_lt h]

theorem short_lt_pow {value : Bytes} (h : Short value) : value.length < 128 ^ 5 :=
  Nat.lt_trans h (by decide)

theorem encodeVarint_ne_nil (length : Nat) : encodeVarint length ≠ [] :=
  Lib.Varint.encode_ne_nil 4 _

theorem decodeVarint_of_decode {text rest : Bytes} {value : Nat} (hne : text ≠ [])
    (hdecode : Lib.Varint.decode 5 1 0 text = some (value, rest)) (hvalue : value < 2 ^ 32) :
    decodeVarint text = .ok (value, rest) := by
  have hrange : ¬ 0xFFFFFFFF < value := by omega
  unfold decodeVarint
  rw [if_neg (by simpa using hne), hdecode]
  simp only [if_neg hrange]

/-- A whole counted value, whatever follows. -/
theorem decodeBlock_counted (underflow : Bytes) {value : Bytes} (h : Short value) (rest : Bytes) :
    decodeBlock underflow (counted value ++ rest) = .ok (value, rest) := by
  have hvarint : decodeVarint (counted value ++ rest) = .ok (value.length, value ++ rest) := by
    refine decodeVarint_of_decode ?_ ?_ h
    · simp [counted, encodeVarint_ne_nil]
    · rw [counted, List.append_assoc, encodeVarint_short h,
        Lib.Varint.decode_encode (short_lt_pow h), Nat.mul_one, Nat.zero_add]
  have hfits : ¬ (value ++ rest).length < value.length := by
    rw [List.length_append]
    omega
  unfold decodeBlock
  rw [hvarint]
  simp only [bind, Except.bind, if_neg hfits, List.take_left, List.drop_left]

/-! ## Fields -/

inductive Field where
  | role (value : Bytes)
  | entry (key value : Bytes)
  | tool (value : Bytes)
  | method (value : Bytes)
  | arg (key value : Bytes)

/-- Common keys have an opcode of their own. -/
def entryHead (key : Bytes) : Bytes :=
  match fieldOpcodes.lookup key with
  | some op => [op.code]
  | none => Opcode.kv.code :: counted key

def entryUnderflow (key : Bytes) : Bytes :=
  match fieldOpcodes.lookup key with
  | some _ => ascii "Invalid string length"
  | none => ascii "Value buffer underflow"

namespace Field

def value : Field → Bytes
  | role value | entry _ value | tool value | method value | arg _ value => value

/-- The bytes in front of the value's length. -/
def head : Field → Bytes
  | role _ => [Opcode.role.code]
  | entry key _ => entryHead key
  | tool _ => [Opcode.toolName.code]
  | method _ => [Opcode.toolMethod.code]
  | arg key _ => Opcode.toolArg.code :: counted key

def bytes (field : Field) : Bytes := field.head ++ counted field.value

/-- What the field adds to a statement. -/
def apply (stmt : Statement) : Field → Statement
  | role value => { stmt with role := value }
  | entry key value => { stmt with kvpairs := stmt.kvpairs.set key value }
  | tool value =>
      { stmt with
        toolCalls := stmt.toolCalls ++ [{ name := value, args := OrderedMap.empty, method := none }] }
  | method value =>
      match stmt.toolCalls.getLast? with
      | some call => setBack stmt { call with method := some value }
      | none => stmt
  | arg key value =>
      match stmt.toolCalls.getLast? with
      | some call => setBack stmt { call with args := call.args.set key value }
      | none => stmt

/-- Methods and arguments belong to a call in front of them. -/
def Ready (stmt : Statement) : Field → Prop
  | method _ | arg _ _ => stmt.toolCalls ≠ []
  | _ => True

/-- The field with another value. -/
def withValue : Field → Bytes → Field
  | role _, value => role value
  | entry key _, value => entry key value
  | tool _, value => tool value
  | method _, value => method value
  | arg key _, value => arg key value

/-- What the decoder says when the value is cut off. -/
def underflow : Field → Bytes
  | entry key _ => entryUnderflow key
  | arg _ _ => ascii "Value buffer underflow"
  | _ => ascii "Invalid string length"

def Fits : Field → Prop
  | entry key value | arg key value => Short key ∧ Short value
  | role value | tool value | method value => Short value

theorem Fits.value {field : Field} (h : field.Fits) : Short field.value := by
  cases field with
  | role value => exact h
  | entry key value => exact h.2
  | tool value => exact h
  | method value => exact h
  | arg key value => exact h.2

@[simp] theorem withValue_value (field : Field) : field.withValue field.value = field := by
  cases field <;> rfl

end Field

/-- The fields of a call. -/
def toolFields (tool : ToolCall) : List Field :=
  .tool tool.name :: (tool.method.toList.map .method ++
    tool.args.data.map fun arg => .arg arg.1 arg.2)

def statementFields (role : Bytes) (kvpairs : OrderedMap) (tools : List ToolCall) : List Field :=
  .role role :: (kvpairs.data.map (fun entry => .entry entry.1 entry.2) ++
    tools.flatMap toolFields)

theorem bytes_entry (entry : Bytes × Bytes) :
    (Field.entry entry.1 entry.2).bytes = encodeEntry entry := by
  change entryHead entry.1 ++ counted entry.2 = encodeEntry entry
  unfold entryHead encodeEntry
  cases fieldOpcodes.lookup entry.1 with
  | some op => rfl
  | none => simp [encodeGenericKvpair, encodeKvpair, counted]

theorem bytes_arg (arg : Bytes × Bytes) :
    (Field.arg arg.1 arg.2).bytes = encodeKvpair .toolArg arg.1 arg.2 := by
  simp [Field.bytes, Field.head, encodeKvpair, counted, Field.value]

theorem bytes_toolFields (tool : ToolCall) :
    (toolFields tool).flatMap Field.bytes = encodeTool tool := by
  have hargs : (tool.args.data.map fun arg => Field.arg arg.1 arg.2).flatMap Field.bytes =
      tool.args.data.flatMap fun arg => encodeKvpair .toolArg arg.1 arg.2 := by
    rw [List.flatMap_map]
    exact congrArg (List.flatMap · _) (funext bytes_arg)
  unfold toolFields encodeTool
  rw [List.flatMap_cons, List.flatMap_append, hargs]
  cases tool.method with
  | none => simp [Field.bytes, Field.head, Field.value, encodeString, counted]
  | some method => simp [Field.bytes, Field.head, Field.value, encodeString, counted]

/-- The encoder writes the fields in order and the end marker. -/
theorem encodeStatement_eq (role : Bytes) (kvpairs : OrderedMap) (tools : List ToolCall) :
    encodeStatement role kvpairs tools =
      (statementFields role kvpairs tools).flatMap Field.bytes ++ [Opcode.endStatement.code] := by
  have hentries : (kvpairs.data.map fun entry => Field.entry entry.1 entry.2).flatMap Field.bytes =
      kvpairs.data.flatMap encodeEntry := by
    rw [List.flatMap_map]
    exact congrArg (List.flatMap · _) (funext bytes_entry)
  have htools : (tools.flatMap toolFields).flatMap Field.bytes = tools.flatMap encodeTool := by
    rw [List.flatMap_assoc]
    exact congrArg (List.flatMap · _) (funext bytes_toolFields)
  have hrole : (Field.role role).bytes = encodeString .role role := rfl
  rw [statementFields, List.flatMap_cons, List.flatMap_append, hentries, htools, hrole,
    encodeStatement, List.append_assoc (encodeString .role role)]

/-! ## Reading a field -/

theorem opcode_of_lookup {key : Bytes} {op : Opcode} (h : fieldOpcodes.lookup key = some op) :
    fieldKey op.code = some key ∧ op.code ≠ Opcode.role.code ∧ op.code ≠ Opcode.toolName.code ∧
      op.code ≠ Opcode.toolMethod.code ∧ op.code ≠ Opcode.toolArg.code ∧
      op.code ≠ Opcode.kv.code ∧ op.code ≠ Opcode.endStatement.code := by
  have hmem : (key, op) ∈ fieldOpcodes := by
    obtain ⟨before, after, heq, -⟩ := List.lookup_eq_some_iff.mp h
    rw [heq]
    simp
  have hall : ∀ entry ∈ fieldOpcodes, fieldKey entry.2.code = some entry.1 ∧
      entry.2.code ≠ Opcode.role.code ∧ entry.2.code ≠ Opcode.toolName.code ∧
      entry.2.code ≠ Opcode.toolMethod.code ∧ entry.2.code ≠ Opcode.toolArg.code ∧
      entry.2.code ≠ Opcode.kv.code ∧ entry.2.code ≠ Opcode.endStatement.code := by decide
  exact hall _ hmem

theorem decodeField_opcode {op : UInt8} {key : Bytes} (tail : Bytes) (stmt : Statement)
    (h : fieldKey op = some key ∧ op ≠ Opcode.role.code ∧ op ≠ Opcode.toolName.code ∧
      op ≠ Opcode.toolMethod.code ∧ op ≠ Opcode.toolArg.code ∧ op ≠ Opcode.kv.code) :
    decodeField (op :: tail) stmt =
      (decodeBlock (ascii "Invalid string length") tail >>= fun r =>
        .ok ({ stmt with kvpairs := stmt.kvpairs.set key r.1 }, r.2)) := by
  obtain ⟨hkey, h1, h2, h3, h4, h5⟩ := h
  unfold decodeField
  simp only [List.headD_cons, if_neg h1, if_neg h2, if_neg h3, if_neg h4, if_neg h5, hkey]
  rfl

theorem decodeField_kv (tail : Bytes) (stmt : Statement) :
    decodeField (Opcode.kv.code :: tail) stmt =
      (decodeKvpair (Opcode.kv.code :: tail) >>= fun r =>
        .ok ({ stmt with kvpairs := stmt.kvpairs.set r.1 r.2.1 }, r.2.2)) := rfl

section LastCall

variable {stmt : Statement} {call : ToolCall} (hcall : stmt.toolCalls.getLast? = some call)
  (tail : Bytes)
include hcall

theorem decodeField_method :
    decodeField (Opcode.toolMethod.code :: tail) stmt =
      (decodeBlock (ascii "Invalid string length") tail >>= fun r =>
        .ok (setBack stmt { call with method := some r.1 }, r.2)) := by
  unfold decodeField
  rw [hcall]
  rfl

theorem decodeField_arg :
    decodeField (Opcode.toolArg.code :: tail) stmt =
      (decodeKvpair (Opcode.toolArg.code :: tail) >>= fun r =>
        .ok (setBack stmt { call with args := call.args.set r.1 r.2.1 }, r.2.2)) := by
  unfold decodeField
  rw [hcall]
  rfl

end LastCall

theorem decodeKvpair_counted (op : UInt8) {key : Bytes} (hkey : Short key) (tail : Bytes) :
    decodeKvpair (op :: (counted key ++ tail)) =
      (decodeBlock (ascii "Value buffer underflow") tail >>= fun r => .ok (key, r.1, r.2)) := by
  unfold decodeKvpair
  rw [List.drop_succ_cons, List.drop_zero, decodeBlock_counted _ hkey]
  rfl

/-- Behind its head a field is read as a counted value. -/
theorem decodeField_head {field : Field} (hfits : field.Fits) {stmt : Statement}
    (hready : field.Ready stmt) (tail : Bytes) :
    decodeField (field.head ++ tail) stmt =
      (decodeBlock field.underflow tail >>= fun r =>
        .ok ((field.withValue r.1).apply stmt, r.2)) := by
  cases field with
  | role value => rfl
  | entry key value =>
      change decodeField (entryHead key ++ tail) stmt =
        (decodeBlock (entryUnderflow key) tail >>= fun r =>
          .ok ({ stmt with kvpairs := stmt.kvpairs.set key r.1 }, r.2))
      unfold entryHead entryUnderflow
      cases hlookup : fieldOpcodes.lookup key with
      | some op =>
          obtain ⟨hkey, h1, h2, h3, h4, h5, -⟩ := opcode_of_lookup hlookup
          exact decodeField_opcode tail stmt ⟨hkey, h1, h2, h3, h4, h5⟩
      | none =>
          rw [List.cons_append, decodeField_kv, decodeKvpair_counted _ hfits.1, bind_assoc]
          rfl
  | tool value => rfl
  | method value =>
      have hcall := List.getLast?_eq_some_getLast hready
      simp only [Field.head, List.cons_append, List.nil_append, decodeField_method hcall,
        Field.withValue, Field.apply, hcall]
      rfl
  | arg key value =>
      have hcall := List.getLast?_eq_some_getLast hready
      simp only [Field.head, List.cons_append, decodeField_arg hcall, Field.withValue, Field.apply,
        hcall, decodeKvpair_counted _ hfits.1, bind_assoc]
      rfl

/-- The first byte of a field does not end the statement. -/
theorem Field.head_cons (field : Field) :
    ∃ op tail, field.head = op :: tail ∧ op ≠ Opcode.endStatement.code := by
  cases field with
  | role value => exact ⟨_, _, rfl, by decide⟩
  | entry key value =>
      change ∃ op tail, entryHead key = op :: tail ∧ _
      unfold entryHead
      cases hlookup : fieldOpcodes.lookup key with
      | some op => exact ⟨_, _, rfl, (opcode_of_lookup hlookup).2.2.2.2.2.2⟩
      | none => exact ⟨_, _, rfl, by decide⟩
  | tool value => exact ⟨_, _, rfl, by decide⟩
  | method value => exact ⟨_, _, rfl, by decide⟩
  | arg key value => exact ⟨_, _, rfl, by decide⟩

/-- One step: a field in front of any text is read off and applied. -/
theorem reads_field {field : Field} (hfits : field.Fits) {stmt : Statement}
    (hready : field.Ready stmt) :
    Lib.Fields.Reads statementFormat stmt field.bytes (field.apply stmt) := by
  intro rest
  obtain ⟨op, tail, hhead, hop⟩ := field.head_cons
  have hstops : statementFormat.stops op = false := beq_eq_false_iff_ne.mpr hop
  have hfield := decodeField_head hfits hready (counted field.value ++ rest)
  rw [decodeBlock_counted _ hfits.value] at hfield
  rw [Field.bytes, List.append_assoc]
  rw [hhead, List.cons_append] at hfield ⊢
  rw [Lib.Fields.read_field statementFormat hstops hfield, Field.withValue_value]

/-! ## Runs of fields -/

/-- Every method and argument has a call in front of it. -/
def Orderly (stmt : Statement) (fields : List Field) : Prop :=
  ∀ before field after, fields = before ++ field :: after →
    field.Ready (before.foldl Field.apply stmt)

theorem Orderly.nil (stmt : Statement) : Orderly stmt [] := by
  intro before field after h
  exact absurd h.symm (by simp)

theorem Orderly.cons {stmt : Statement} {field : Field} {fields : List Field}
    (hready : field.Ready stmt) (h : Orderly (field.apply stmt) fields) :
    Orderly stmt (field :: fields) := by
  rintro before field' after heq
  cases before with
  | nil =>
      obtain ⟨rfl, -⟩ := List.cons.inj heq
      exact hready
  | cons first before =>
      obtain ⟨rfl, rfl⟩ := List.cons.inj heq
      exact h before field' after rfl

theorem Orderly.append {stmt : Statement} {fields fields' : List Field} (h : Orderly stmt fields)
    (h' : Orderly (fields.foldl Field.apply stmt) fields') : Orderly stmt (fields ++ fields') := by
  induction fields generalizing stmt with
  | nil => exact h'
  | cons field fields ih =>
      refine Orderly.cons (h [] field fields rfl) (ih (fun before field' after heq => ?_) h')
      subst heq
      exact h (field :: before) field' after rfl

theorem Orderly.before {stmt : Statement} {before after : List Field}
    (h : Orderly stmt (before ++ after)) : Orderly stmt before := by
  rintro before' field after' rfl
  exact h before' field (after' ++ after) (by simp)

theorem orderly_of_free {fields : List Field} (h : ∀ field ∈ fields, ∀ stmt, field.Ready stmt)
    (stmt : Statement) : Orderly stmt fields := by
  rintro before field after rfl
  exact h field (by simp) _

theorem setBack_toolCalls (stmt : Statement) (call : ToolCall) :
    (setBack stmt call).toolCalls ≠ [] := by
  simp [setBack]

theorem Field.apply_toolCalls (field : Field) {stmt : Statement} (h : stmt.toolCalls ≠ []) :
    (field.apply stmt).toolCalls ≠ [] := by
  have hlast := List.getLast?_eq_some_getLast h
  cases field with
  | role value => exact h
  | entry key value => exact h
  | tool value => simp [Field.apply]
  | method value =>
      simp only [Field.apply, hlast]
      exact setBack_toolCalls _ _
  | arg key value =>
      simp only [Field.apply, hlast]
      exact setBack_toolCalls _ _

/-- Behind a call every field has its place. -/
theorem orderly_of_call (fields : List Field) {stmt : Statement} (h : stmt.toolCalls ≠ []) :
    Orderly stmt fields := by
  induction fields generalizing stmt with
  | nil => exact .nil stmt
  | cons field fields ih =>
      refine .cons ?_ (ih (field.apply_toolCalls h))
      cases field with
      | method value => exact h
      | arg key value => exact h
      | role value => trivial
      | entry key value => trivial
      | tool value => trivial

/-- The run: orderly fields are read off one by one. -/
theorem reads_fields {fields : List Field} (hfits : ∀ field ∈ fields, field.Fits)
    {stmt : Statement} (h : Orderly stmt fields) :
    Lib.Fields.Reads statementFormat stmt (fields.flatMap Field.bytes)
      (fields.foldl Field.apply stmt) := by
  induction fields generalizing stmt with
  | nil => exact .nil stmt
  | cons field fields ih =>
      rw [List.flatMap_cons, List.foldl_cons]
      refine (reads_field (hfits field List.mem_cons_self) (h [] field fields rfl)).append
        (ih (fun f hf => hfits f (List.mem_cons_of_mem _ hf)) fun before field' after heq => ?_)
      subst heq
      exact h (field :: before) field' after rfl

/-! ## The fields of a statement -/

theorem setBack_concat (stmt : Statement) (calls : List ToolCall) (call call' : ToolCall) :
    setBack { stmt with toolCalls := calls ++ [call] } call' =
      { stmt with toolCalls := calls ++ [call'] } := by
  rw [setBack, List.dropLast_concat]

/-- Entries put one by one into a map. -/
def setAll (m : OrderedMap) (entries : List (Bytes × Bytes)) : OrderedMap :=
  entries.foldl (fun m entry => m.set entry.1 entry.2) m

theorem data_setAll {m : OrderedMap} {entries : List (Bytes × Bytes)}
    (h : (keysOf (m.data ++ entries)).Nodup) : (setAll m entries).data = m.data ++ entries := by
  induction entries generalizing m with
  | nil => exact (List.append_nil _).symm
  | cons entry entries ih =>
      have hkeys :
          keysOf (m.data ++ entry :: entries) = keysOf m.data ++ entry.1 :: keysOf entries := by
        simp [keysOf]
      have hnew : entry.1 ∉ keysOf m.data := by
        rw [hkeys, List.nodup_append] at h
        exact fun hmem => h.2.2 _ hmem _ List.mem_cons_self rfl
      have hdata : (m.set entry.1 entry.2).data = m.data ++ [entry] := by
        change OrderedMap.assign m.data (m.index entry.1) entry.1 entry.2 = _
        rw [OrderedMap.index_eq_none.mpr hnew]
        rfl
      have hsplit : m.data ++ entry :: entries = m.data ++ [entry] ++ entries := by simp
      rw [setAll, List.foldl_cons]
      refine (ih ?_).trans ?_
      · rw [hdata, ← hsplit]
        exact h
      · rw [hdata, hsplit]

/-- A map is what its entries build up from nothing. -/
theorem setAll_data (m : OrderedMap) : setAll OrderedMap.empty m.data = m :=
  OrderedMap.ext (data_setAll (m := OrderedMap.empty) m.distinct)

theorem foldl_entries (stmt : Statement) (entries : List (Bytes × Bytes)) :
    (entries.map fun entry => Field.entry entry.1 entry.2).foldl Field.apply stmt =
      { stmt with kvpairs := setAll stmt.kvpairs entries } := by
  induction entries generalizing stmt with
  | nil => rfl
  | cons entry entries ih => rw [List.map_cons, List.foldl_cons, ih]; rfl

theorem foldl_args (stmt : Statement) (calls : List ToolCall) (call : ToolCall)
    (args : List (Bytes × Bytes)) :
    (args.map fun arg => Field.arg arg.1 arg.2).foldl Field.apply
        { stmt with toolCalls := calls ++ [call] } =
      { stmt with toolCalls := calls ++ [{ call with args := setAll call.args args }] } := by
  induction args generalizing call with
  | nil => rfl
  | cons arg args ih =>
      have hstep : (Field.arg arg.1 arg.2).apply { stmt with toolCalls := calls ++ [call] } =
          { stmt with
            toolCalls := calls ++ [{ call with args := call.args.set arg.1 arg.2 }] } := by
        simp only [Field.apply, List.getLast?_concat, setBack_concat]
      rw [List.map_cons, List.foldl_cons, hstep, ih]
      rfl

theorem foldl_toolFields (stmt : Statement) (calls : List ToolCall) (tool : ToolCall) :
    (toolFields tool).foldl Field.apply { stmt with toolCalls := calls } =
      { stmt with toolCalls := calls ++ [tool] } := by
  obtain ⟨name, args, method⟩ := tool
  have hname : (Field.tool name).apply { stmt with toolCalls := calls } =
      { stmt with
        toolCalls := calls ++ [{ name := name, args := OrderedMap.empty, method := none }] } := rfl
  have hmethod : ((method.toList.map Field.method).foldl Field.apply
      { stmt with
        toolCalls := calls ++ [{ name := name, args := OrderedMap.empty, method := none }] }) =
      { stmt with
        toolCalls := calls ++ [{ name := name, args := OrderedMap.empty, method := method }] } := by
    cases method with
    | none => rfl
    | some method =>
        simp only [Option.toList_some, List.map_cons, List.map_nil, List.foldl_cons, List.foldl_nil,
          Field.apply, List.getLast?_concat, setBack_concat]
  rw [toolFields, List.foldl_cons, List.foldl_append, hname, hmethod, foldl_args, setAll_data]

theorem foldl_tools (stmt : Statement) (tools : List ToolCall) :
    (tools.flatMap toolFields).foldl Field.apply stmt =
      { stmt with toolCalls := stmt.toolCalls ++ tools } := by
  induction tools generalizing stmt with
  | nil => simp
  | cons tool tools ih =>
      rw [List.flatMap_cons, List.foldl_append,
        show stmt = { stmt with toolCalls := stmt.toolCalls } from rfl, foldl_toolFields, ih]
      simp

/-- The fields of a statement build the statement. -/
theorem foldl_statementFields (role : Bytes) (kvpairs : OrderedMap) (tools : List ToolCall) :
    (statementFields role kvpairs tools).foldl Field.apply Statement.empty =
      { role := role, kvpairs := kvpairs, toolCalls := tools } := by
  rw [statementFields, List.foldl_cons, List.foldl_append, foldl_entries, foldl_tools]
  change ({ role := role, kvpairs := setAll OrderedMap.empty kvpairs.data, toolCalls := [] ++ tools } :
    Statement) = _
  rw [setAll_data, List.nil_append]

theorem orderly_statementFields (role : Bytes) (kvpairs : OrderedMap) (tools : List ToolCall) :
    Orderly Statement.empty (statementFields role kvpairs tools) := by
  refine .cons trivial (.append (orderly_of_free ?_ _) ?_)
  · intro field hfield stmt
    obtain ⟨entry, -, rfl⟩ := List.mem_map.mp hfield
    trivial
  · cases tools with
    | nil => exact .nil _
    | cons tool tools =>
        rw [List.flatMap_cons, toolFields, List.cons_append]
        exact .cons trivial (orderly_of_call _ (by simp [Field.apply]))

/-! ## Statements whose strings fit -/

def ShortMap (m : OrderedMap) : Prop := ∀ entry ∈ m.data, Short entry.1 ∧ Short entry.2

def ShortTool (tool : ToolCall) : Prop :=
  Short tool.name ∧ ShortMap tool.args ∧ ∀ method ∈ tool.method, Short method

/-- Every string of the statement is shorter than `2 ^ 32` bytes. -/
def ShortStatement (role : Bytes) (kvpairs : OrderedMap) (tools : List ToolCall) : Prop :=
  Short role ∧ ShortMap kvpairs ∧ ∀ tool ∈ tools, ShortTool tool

theorem fits_statementFields {role : Bytes} {kvpairs : OrderedMap} {tools : List ToolCall}
    (h : ShortStatement role kvpairs tools) :
    ∀ field ∈ statementFields role kvpairs tools, field.Fits := by
  intro field hfield
  simp only [statementFields, toolFields, List.mem_cons, List.mem_append, List.mem_map,
    List.mem_flatMap, Option.mem_toList] at hfield
  rcases hfield with rfl | ⟨entry, hentry, rfl⟩ | ⟨tool, htool, rfl | ⟨method, hmethod, rfl⟩ |
    ⟨arg, harg, rfl⟩⟩
  · exact h.1
  · exact h.2.1 entry hentry
  · exact (h.2.2 tool htool).1
  · exact (h.2.2 tool htool).2.2 method hmethod
  · exact (h.2.2 tool htool).2.1 arg harg

end LlmTop.BinaryEncoder
