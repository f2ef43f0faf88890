import LlmTop.Ast
import LlmTop.Decimals
import LlmTop.Lib.Fields
import LlmTop.Lib.Varint

/-!
# The binary encoding

Opcodes, length-prefixed strings, and the encoders and decoders of headers and
statements.  The decoders walk a buffer by position; between fields a position
is given by the text from there on.
-/
namespace LlmTop.BinaryEncoder

inductive Opcode where
  | version | checksum | agent | uid | timestamp | reqid | fallback | hr
  | role | target | action | goal | todo | context | capability | ttl
  | err | req | dep | fn | cls | var
  | toolName | toolArg | toolMethod | kv | endStatement

def Opcode.code : Opcode → UInt8
  | version => 0x01
  | checksum => 0x02
  | agent => 0x03
  | uid => 0x04
  | timestamp => 0x05
  | reqid => 0x06
  | fallback => 0x07
  | hr => 0x08
  | role => 0x10
  | target => 0x11
  | action => 0x12
  | goal => 0x13
  | todo => 0x14
  | context => 0x15
  | capability => 0x16
  | ttl => 0x17
  | err => 0x18
  | req => 0x19
  | dep => 0x1A
  | fn => 0x1B
  | cls => 0x1C
  | var => 0x1D
  | toolName => 0x20
  | toolArg => 0x21
  | toolMethod => 0x22
  | kv => 0x23
  | endStatement => 0x7E

/-! ## Encoding -/

/-- `encode_varint` of a length, cast to 32 bits by its callers. -/
def encodeVarint (length : Nat) : Bytes := Lib.Varint.encode 5 (length % 2 ^ 32)

def encodeString (op : Opcode) (value : Bytes) : Bytes :=
  op.code :: (encodeVarint value.length ++ value)

def encodeKvpair (op : Opcode) (key value : Bytes) : Bytes :=
  op.code :: (encodeVarint key.length ++ key ++ (encodeVarint value.length ++ value))

def encodeGenericKvpair (key value : Bytes) : Bytes := encodeKvpair .kv key value

/-- "LLMT". -/
def magic : Bytes := [0x4C, 0x4C, 0x4D, 0x54]

def encodeHeader (ver chk agt uid tim reqid fallback : Bytes) (hr : UInt32) : Bytes :=
  magic ++ [0x01] ++ encodeString .version ver ++ encodeString .checksum chk ++
    encodeString .agent agt ++ encodeString .uid uid ++ encodeString .timestamp tim ++
    encodeString .reqid reqid ++
    (if fallback.isEmpty then [] else encodeString .fallback fallback) ++
    (if 0 < hr then encodeString .hr (natDecimal hr.toNat) else [])

def fieldOpcodes : List (Bytes × Opcode) :=
  [(ascii "tgt", .target), (ascii "act", .action), (ascii "GL", .goal), (ascii "TD", .todo),
    (ascii "ctx", .context), (ascii "err", .err), (ascii "req", .req), (ascii "dep", .dep),
    (ascii "fn", .fn), (ascii "cls", .cls), (ascii "var", .var)]

def encodeEntry (entry : Bytes × Bytes) : Bytes :=
  match fieldOpcodes.lookup entry.1 with
  | some op => encodeString op entry.2
  | none => encodeGenericKvpair entry.1 entry.2

def encodeTool (tool : ToolCall) : Bytes :=
  encodeString .toolName tool.name ++
    (match tool.method with
      | some method => encodeString .toolMethod method
      | none => []) ++
    tool.args.data.flatMap fun arg => encodeKvpair .toolArg arg.1 arg.2

def encodeStatement (role : Bytes) (kvpairs : OrderedMap) (tools : List ToolCall) : Bytes :=
  encodeString .role role ++ kvpairs.data.flatMap encodeEntry ++ tools.flatMap encodeTool ++
    [Opcode.endStatement.code]

/-! ## Decoding -/

def decodeVarint (text : Bytes) : Except Bytes (Nat × Bytes) :=
  if text.isEmpty then .error (ascii "Buffer underflow reading varint")
  else
    match Lib.Varint.decode 5 1 0 text with
    | none => .error (ascii "Varint too long (max 5 bytes)")
    | some (value, rest) =>
        if 0xFFFFFFFF < value then .error (ascii "Varint exceeds 32-bit range")
        else .ok (value, rest)

/-- A length and as many bytes; `underflow` when the buffer holds fewer. -/
def decodeBlock (underflow : Bytes) (text : Bytes) : Except Bytes (Bytes × Bytes) := do
  let (len, text) ← decodeVarint text
  if text.length < len then .error underflow else .ok (text.take len, text.drop len)

def decodeString : Bytes → Except Bytes (Bytes × Bytes)
  | [] => .error (ascii "Buffer underflow")
  | _opcode :: text => decodeBlock (ascii "Invalid string length") text

/-- The key, the value and the text behind the pair. -/
def decodeKvpair (text : Bytes) : Except Bytes (Bytes × Bytes × Bytes) := do
  let (key, text) ← decodeBlock (ascii "Key buffer underflow") (text.drop 1)
  let (value, text) ← decodeBlock (ascii "Value buffer underflow") text
  .ok (key, value, text)

def headerLabel (op : UInt8) : Option Bytes :=
  if op = Opcode.version.code then some (ascii "VER:")
  else if op = Opcode.checksum.code then some (ascii "CHK:")
  else if op = Opcode.agent.code then some (ascii "AGT:")
  else if op = Opcode.uid.code then some (ascii "UID:")
  else if op = Opcode.timestamp.code then some (ascii "TIM:")
  else if op = Opcode.reqid.code then some (ascii "REQID:")
  else if op = Opcode.fallback.code then some (ascii "FALLBACK:")
  else if op = Opcode.hr.code then some (ascii "HR:")
  else none

def decodeHeaderField (text : Bytes) (result : Bytes) : Except Bytes (Bytes × Bytes) :=
  let result := if result.isEmpty then result else result ++ ascii " "
  match headerLabel (text.headD 0) with
  | none => .error (ascii "Unknown header opcode")
  | some label => do
      let (value, rest) ← decodeString text
      .ok (result ++ label ++ value, rest)

def fieldKey (op : UInt8) : Option Bytes :=
  if op = Opcode.target.code then some (ascii "tgt")
  else if op = Opcode.action.code then some (ascii "act")
  else if op = Opcode.goal.code then some (ascii "GL")
  else if op = Opcode.todo.code then some (ascii "TD")
  else if op = Opcode.context.code then some (ascii "ctx")
  else if op = Opcode.err.code then some (ascii "err")
  else if op = Opcode.req.code then some (ascii "req")
  else if op = Opcode.dep.code then some (ascii "dep")
  else if op = Opcode.fn.code then some (ascii "fn")
  else if op = Opcode.cls.code then some (ascii "cls")
  else if op = Opcode.var.code then some (ascii "var")
  else none

/-- The statement with its most recent call replaced. -/
def setBack (stmt : Statement) (call : ToolCall) : Statement :=
  { stmt with toolCalls := stmt.toolCalls.dropLast ++ [call] }

def decodeField (text : Bytes) (stmt : Statement) : Except Bytes (Statement × Bytes) :=
  let op := text.headD 0
  if op = Opcode.role.code then do
    let (role, rest) ← decodeString text
    .ok ({ stmt with role := role }, rest)
  else if op = Opcode.toolName.code then do
    let (name, rest) ← decodeString text
    let call : ToolCall := { name := name, args := OrderedMap.empty, method := none }
    .ok ({ stmt with toolCalls := stmt.toolCalls ++ [call] }, rest)
  else if op = Opcode.toolMethod.code then
    match stmt.toolCalls.getLast? with
    | none => .error (ascii "OP_TOOL_METHOD with no preceding tool call")
    | some call => do
        let (method, rest) ← decodeString text
        .ok (setBack stmt { call with method := some method }, rest)
  else if op = Opcode.toolArg.code then
    match stmt.toolCalls.getLast? with
    | none => .error (ascii "OP_TOOL_ARG with no preceding tool call")
    | some call => do
        let (key, value, rest) ← decodeKvpair text
        .ok (setBack stmt { call with args := call.args.set key value }, rest)
  else if op = Opcode.kv.code then do
    let (key, value, rest) ← decodeKvpair text
    .ok ({ stmt with kvpairs := stmt.kvpairs.set key value }, rest)
  else
    match fieldKey op with
    | none => .error (ascii "Unknown statement opcode: " ++ natDecimal op.toNat)
    | some key => do
        let (value, rest) ← decodeString text
        .ok ({ stmt with kvpairs := stmt.kvpairs.set key value }, rest)

/-! ## What the decoders consume -/

theorem decodeVarint_consumes {text rest : Bytes} {value : Nat}
    (h : decodeVarint text = .ok (value, rest)) : rest.length ≤ text.length := by
  unfold decodeVarint at h
  split at h
  · contradiction
  · split at h
    · contradiction
    · split at h
      · contradiction
      · obtain ⟨-, rfl⟩ := Prod.mk.inj (Except.ok.inj h)
        exact Lib.Varint.decode_length ‹_›

theorem bind_eq_ok {ε α β : Type} {m : Except ε α} {k : α → Except ε β} {b : β} :
    m >>= k = .ok b ↔ ∃ a, m = .ok a ∧ k a = .ok b := by
  cases m with
  | error fault => exact iff_of_false (fun h => nomatch h) fun ⟨_, h, _⟩ => nomatch h
  | ok a => simp [bind, Except.bind]

theorem decodeBlock_consumes {underflow text value rest : Bytes}
    (h : decodeBlock underflow text = .ok (value, rest)) : rest.length ≤ text.length := by
  obtain ⟨⟨len, body⟩, hlen, h⟩ := bind_eq_ok.mp h
  dsimp only at h
  split at h
  · contradiction
  · obtain ⟨-, rfl⟩ := Prod.mk.inj (Except.ok.inj h)
    rw [List.length_drop]
    exact Nat.le_trans (Nat.sub_le _ _) (decodeVarint_consumes hlen)

theorem decodeString_consumes {text value rest : Bytes}
    (h : decodeString text = .ok (value, rest)) : rest.length < text.length := by
  cases text with
  | nil => contradiction
  | cons op text => exact Nat.lt_succ_of_le (decodeBlock_consumes h)

theorem decodeKvpair_consumes {text key value rest : Bytes}
    (h : decodeKvpair text = .ok (key, value, rest)) : rest.length < text.length := by
  obtain ⟨⟨key', body⟩, hkey, h⟩ := bind_eq_ok.mp h
  obtain ⟨⟨value', rest'⟩, hvalue, h⟩ := bind_eq_ok.mp h
  obtain ⟨rfl, -, rfl⟩ : key' = key ∧ value' = value ∧ rest' = rest := by
    simpa using Except.ok.inj h
  have hbody := decodeBlock_consumes hkey
  have hrest := decodeBlock_consumes hvalue
  cases text with
  | nil => contradiction
  | cons op text => exact Nat.lt_succ_of_le (Nat.le_trans hrest hbody)

theorem decodeHeaderField_consumes {text rest result result' : Bytes}
    (h : decodeHeaderField text result = .ok (result', rest)) : rest.length < text.length := by
  unfold decodeHeaderField at h
  dsimp only at h
  split at h
  · contradiction
  · obtain ⟨⟨value, rest'⟩, hvalue, h⟩ := bind_eq_ok.mp h
    obtain ⟨-, rfl⟩ := Prod.mk.inj (Except.ok.inj h)
    exact decodeString_consumes hvalue

theorem decodeField_consumes {text rest : Bytes} {stmt stmt' : Statement}
    (h : decodeField text stmt = .ok (stmt', rest)) : rest.length < text.length := by
  have hstring : ∀ {next : Bytes × Bytes → Statement},
      (decodeString text >>= fun r => .ok (next r, r.2)) = Except.ok (stmt', rest) →
        rest.length < text.length := by
    intro next h
    obtain ⟨⟨value, rest'⟩, hvalue, h⟩ := bind_eq_ok.mp h
    obtain ⟨-, rfl⟩ := Prod.mk.inj (Except.ok.inj h)
    exact decodeString_consumes hvalue
  have hpair : ∀ {next : Bytes × Bytes × Bytes → Statement},
      (decodeKvpair text >>= fun r => .ok (next r, r.2.2)) = Except.ok (stmt', rest) →
        rest.length < text.length := by
    intro next h
    obtain ⟨⟨key, value, rest'⟩, hpair, h⟩ := bind_eq_ok.mp h
    obtain ⟨-, rfl⟩ := Prod.mk.inj (Except.ok.inj h)
    exact decodeKvpair_consumes hpair
  unfold decodeField at h
  dsimp only at h
  split_ifs at h with hrole hname hmethod harg hkv
  · exact hstring h
  · exact hstring h
  · split at h
    · contradiction
    · exact hstring h
  · split at h
    · contradiction
    · exact hpair h
  · exact hpair h
  · split at h
    · contradiction
    · exact hstring h

/-! ## Headers and statements -/

def headerFormat : Lib.Fields.Format UInt8 Bytes Bytes where
  stops := fun op => 0x10 ≤ op
  field := decodeHeaderField
  consumes := decodeHeaderField_consumes

def statementFormat : Lib.Fields.Format UInt8 Statement Bytes where
  stops := fun op => op == Opcode.endStatement.code
  field := decodeField
  consumes := decodeField_consumes

/-- The header line and the position behind the header. -/
def decodeHeader (buffer : Bytes) : Except Bytes (Bytes × Nat) :=
  if buffer.length < 5 ∨ buffer.take 4 ≠ magic then
    .error (ascii "Invalid binary format: missing magic bytes")
  else
    match Lib.Fields.read headerFormat (buffer.drop 5) [] with
    | .error fault => .error fault
    | .ok (result, rest) => .ok (result, buffer.length - rest.length)

/-- The statement at a position and the position behind it; an end marker is
consumed, the end of the buffer ends a statement as well. -/
def decodeStatement (buffer : Bytes) (pos : Nat) : Except Bytes (Statement × Nat) :=
  match Lib.Fields.read statementFormat (buffer.drop pos) Statement.empty with
  | .error fault => .error fault
  | .ok (stmt, rest) => .ok (stmt, pos + ((buffer.drop pos).length - (rest.drop 1).length))

/-- `count` statements, one behind the other. -/
def decodeStatements (buffer : Bytes) : Nat → Nat → Except Bytes (List Statement × Nat)
  | 0, pos => .ok ([], pos)
  | count + 1, pos => do
      let (stmt, pos) ← decodeStatement buffer pos
      let (stmts, pos) ← decodeStatements buffer count pos
      .ok (stmt :: stmts, pos)

end LlmTop.BinaryEncoder
