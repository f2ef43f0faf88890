import LlmTop.Binary
import LlmTop.Lib.Traced
import Mathlib.Data.Nat.Bitwise

/-!
# The decoders at their positions

The decoders once more, as they run: over a buffer with 64-bit positions, which
wrap, and with a log of every byte and every block of bytes they read.  They
refine the decoders over the text behind a position.
-/
namespace LlmTop.BinaryEncoder

open Lib.Traced

/-- A vector of bytes; its size is bounded by that of the address space. -/
structure Buffer where
  data : Bytes
  size_lt : data.length < 2 ^ 63

inductive Access where
  | byte (pos : UInt64)
  /-- The bytes of a decoded length. -/
  | block (pos : UInt64) (len : UInt32)

/-- The bytes read lie in a buffer of the given size. -/
def Access.Within (size : Nat) : Access → Prop
  | .byte pos => pos.toNat < size
  | .block pos len => pos.toNat + len.toNat ≤ size

abbrev Reader (α : Type) := Run Access Bytes α

namespace Buffer

variable (buffer : Buffer)

def size : UInt64 := UInt64.ofNat buffer.data.length

def byteAt (pos : UInt64) : Reader UInt8 := touch (.byte pos) (buffer.data.getD pos.toNat 0)

def blockAt (pos : UInt64) (len : UInt32) : Reader Bytes :=
  touch (.block pos len) ((buffer.data.drop pos.toNat).take len.toNat)

/-! ## Lengths, strings and pairs -/

/-- The loop of `decode_varint`; `groups` more bytes may be read. -/
def varintLoop : Nat → UInt64 → UInt64 → UInt64 → Reader (UInt64 × UInt64)
  | groups, pos, value, shift =>
      if pos < buffer.size then
        match groups with
        | 0 => raise (ascii "Varint too long (max 5 bytes)")
        | groups + 1 => do
            let byte ← buffer.byteAt pos
            let value := value ||| ((byte &&& 0x7F).toUInt64 <<< shift)
            if byte &&& 0x80 = 0 then pure (value, pos + 1)
            else varintLoop groups (pos + 1) value (shift + 7)
      else pure (value, pos)

def decodeVarint (pos : UInt64) : Reader (UInt32 × UInt64) :=
  if buffer.size ≤ pos then raise (ascii "Buffer underflow reading varint")
  else do
    let (value, pos) ← buffer.varintLoop 5 pos 0 0
    if 0xFFFFFFFF < value then raise (ascii "Varint exceeds 32-bit range")
    else pure (value.toUInt32, pos)

def decodeBlock (underflow : Bytes) (pos : UInt64) : Reader (Bytes × UInt64) := do
  let (len, pos) ← buffer.decodeVarint pos
  if buffer.size < pos + len.toUInt64 then raise underflow
  else do
    let value ← buffer.blockAt pos len
    pure (value, pos + len.toUInt64)

def decodeString (pos : UInt64) : Reader (Bytes × UInt64) :=
  if buffer.size ≤ pos then raise (ascii "Buffer underflow")
  else do
    let _opcode ← buffer.byteAt pos
    buffer.decodeBlock (ascii "Invalid string length") (pos + 1)

def decodeKvpair (pos : UInt64) : Reader (Bytes × Bytes × UInt64) := do
  let (key, pos) ← buffer.decodeBlock (ascii "Key buffer underflow") (pos + 1)
  let (value, pos) ← buffer.decodeBlock (ascii "Value buffer underflow") pos
  pure (key, value, pos)

/-! ## Headers -/

/-- Whether the bytes from a position on are not those wanted, left to right. -/
def differs : Bytes → UInt64 → Reader Bool
  | [], _ => pure false
  | wanted :: rest, pos => do
      let byte ← buffer.byteAt pos
      if byte ≠ wanted then pure true else differs rest (pos + 1)

def headerLoop : Nat → UInt64 → Bytes → Reader (Bytes × UInt64)
  | 0, _, _ => running
  | fuel + 1, pos, result =>
      if pos < buffer.size then do
        let op ← buffer.byteAt pos
        if 0x10 ≤ op then pure (result, pos)
        else
          let result := if result.isEmpty then result else result ++ ascii " "
          match headerLabel op with
          | none => raise (ascii "Unknown header opcode")
          | some label => do
              let (value, pos) ← buffer.decodeString pos
              headerLoop fuel pos (result ++ label ++ value)
      else pure (result, pos)

def magicMissing : Reader Bool :=
  if buffer.size < 5 then pure true else buffer.differs magic 0

/-- Whatever the position, it is set behind the magic bytes and the version. -/
def decodeHeader (_pos : UInt64) : Reader (Bytes × UInt64) := do
  let missing ← buffer.magicMissing
  if missing then raise (ascii "Invalid binary format: missing magic bytes")
  else buffer.headerLoop (buffer.data.length + 1) 5 []

/-! ## Statements -/

def decodeField (op : UInt8) (pos : UInt64) (stmt : Statement) : Reader (Statement × UInt64) :=
  if op = Opcode.role.code then do
    let (role, pos) ← buffer.decodeString pos
    pure ({ stmt with role := role }, pos)
  else if op = Opcode.toolName.code then do
    let (name, pos) ← buffer.decodeString pos
    let call : ToolCall := { name := name, args := OrderedMap.empty, method := none }
    pure ({ stmt with toolCalls := stmt.toolCalls ++ [call] }, pos)
  else if op = Opcode.toolMethod.code then
    match stmt.toolCalls.getLast? with
    | none => raise (ascii "OP_TOOL_METHOD with no preceding tool call")
    | some call => do
        let (method, pos) ← buffer.decodeString pos
        pure (setBack stmt { call with method := some method }, pos)
  else if op = Opcode.toolArg.code then
    match stmt.toolCalls.getLast? with
    | none => raise (ascii "OP_TOOL_ARG with no preceding tool call")
    | some call => do
        let (key, value, pos) ← buffer.decodeKvpair pos
        pure (setBack stmt { call with args := call.args.set key value }, pos)
  else if op = Opcode.kv.code then do
    let (key, value, pos) ← buffer.decodeKvpair pos
    pure ({ stmt with kvpairs := stmt.kvpairs.set key value }, pos)
  else
    match fieldKey op with
    | none => raise (ascii "Unknown statement opcode: " ++ natDecimal op.toNat)
    | some key => do
        let (value, pos) ← buffer.decodeString pos
        pure ({ stmt with kvpairs := stmt.kvpairs.set key value }, pos)

def statementLoop : Nat → UInt64 → Statement → Reader (Statement × UInt64)
  | 0, _, _ => running
  | fuel + 1, pos, stmt =>
      if pos < buffer.size then do
        let op ← buffer.byteAt pos
        if op == Opcode.endStatement.code then pure (stmt, pos + 1)
        else do
          let (stmt, pos) ← buffer.decodeField op pos stmt
          statementLoop fuel pos stmt
      else pure (stmt, pos)

def decodeStatement (pos : UInt64) : Reader (Statement × UInt64) :=
  buffer.statementLoop (buffer.data.length + 1) pos Statement.empty

/-- Statements up to the end of the buffer. -/
def statementsLoop : Nat → UInt64 → List Statement → Reader (List Statement × UInt64)
  | 0, _, _ => running
  | fuel + 1, pos, stmts =>
      if pos < buffer.size then do
        let (stmt, pos) ← buffer.decodeStatement pos
        statementsLoop fuel pos (stmts ++ [stmt])
      else pure (stmts, pos)

def decodeRest (pos : UInt64) : Reader (List Statement × UInt64) :=
  buffer.statementsLoop (buffer.data.length + 1) pos []

/-! ## Where a position stands -/

structure Stands (pos : UInt64) (text : Bytes) : Prop where
  drop : buffer.data.drop pos.toNat = text
  le : pos.toNat ≤ buffer.data.length

theorem size_toNat : buffer.size.toNat = buffer.data.length := by
  have hsize := buffer.size_lt
  unfold size
  rw [UInt64.toNat_ofNat']
  apply Nat.mod_eq_of_lt
  omega

variable {buffer} {pos : UInt64} {text : Bytes} {byte : UInt8}

theorem Stands.length (h : buffer.Stands pos text) :
    pos.toNat + text.length = buffer.data.length := by
  have hle := h.le
  rw [← h.drop, List.length_drop]
  omega

theorem Stands.lt_size (h : buffer.Stands pos (byte :: text)) : pos < buffer.size := by
  have hlength := h.length
  rw [List.length_cons] at hlength
  rw [UInt64.lt_iff_toNat_lt, size_toNat]
  omega

theorem Stands.not_lt_size (h : buffer.Stands pos []) : ¬ pos < buffer.size := by
  have hlength := h.length
  rw [List.length_nil] at hlength
  rw [UInt64.lt_iff_toNat_lt, size_toNat]
  omega

theorem Stands.skip (h : buffer.Stands pos text) {len : UInt32} (hlen : len.toNat ≤ text.length) :
    (pos + len.toUInt64).toNat = pos.toNat + len.toNat ∧
      buffer.Stands (pos + len.toUInt64) (text.drop len.toNat) := by
  have hsize := buffer.size_lt
  have hlength := h.length
  have hpos : (pos + len.toUInt64).toNat = pos.toNat + len.toNat := by
    rw [UInt64.toNat_add, UInt32.toNat_toUInt64]
    apply Nat.mod_eq_of_lt
    omega
  refine ⟨hpos, ?_, ?_⟩
  · rw [hpos, ← h.drop, List.drop_drop]
  · omega

theorem Stands.next (h : buffer.Stands pos (byte :: text)) :
    (pos + 1).toNat = pos.toNat + 1 ∧ buffer.Stands (pos + 1) text := by
  have hlen : (1 : UInt32).toNat ≤ (byte :: text).length := by simp
  exact h.skip hlen

theorem byteAt_refines (h : buffer.Stands pos (byte :: text)) :
    Refines (Access.Within buffer.data.length) Eq (buffer.byteAt pos) (.ok byte) := by
  apply refines_touch
  · have hlt := h.lt_size
    rwa [UInt64.lt_iff_toNat_lt, size_toNat] at hlt
  · have hget : (buffer.data.drop pos.toNat)[0]? = some byte := by rw [h.drop]; rfl
    rw [List.getElem?_drop, Nat.add_zero] at hget
    rw [List.getD_eq_getElem?_getD, hget, Option.getD_some]

theorem blockAt_refines (h : buffer.Stands pos text) {len : UInt32}
    (hlen : len.toNat ≤ text.length) :
    Refines (Access.Within buffer.data.length) Eq (buffer.blockAt pos len)
      (.ok (text.take len.toNat)) := by
  apply refines_touch
  · have hlength := h.length
    show pos.toNat + len.toNat ≤ buffer.data.length
    omega
  · rw [h.drop]

/-! ## Lengths -/

theorem low_bits (byte : UInt8) : (byte &&& 0x7F).toNat = byte.toNat % 128 := by
  rw [UInt8.toNat_and]
  exact Nat.and_two_pow_sub_one_eq_mod byte.toNat 7

theorem high_bit_clear (byte : UInt8) : byte &&& 0x80 = 0 ↔ byte.toNat < 128 := by
  have hbyte := byte.toNat_lt
  have hbit : (byte &&& 0x80).toNat = (byte.toNat.testBit 7).toNat * 2 ^ 7 := by
    rw [UInt8.toNat_and]
    exact Nat.and_two_pow byte.toNat 7
  rw [← UInt8.toNat_inj, hbit, Nat.testBit_eq_decide_div_mod_eq]
  by_cases h : byte.toNat < 128
  · rw [Nat.div_eq_of_lt h]
    simpa using h
  · have hdiv : byte.toNat / 2 ^ 7 = 1 := by omega
    rw [hdiv]
    simpa using h

/-- A group enters above the ones read before. -/
theorem group_toNat {value shift : UInt64} (hvalue : value.toNat < 2 ^ shift.toNat)
    (hshift : shift.toNat ≤ 28) :
    (value ||| ((byte &&& 0x7F).toUInt64 <<< shift)).toNat =
      value.toNat + byte.toNat % 128 * 2 ^ shift.toNat := by
  have hgroup : (byte.toNat % 128) <<< shift.toNat < 2 ^ 64 := by
    rw [Nat.shiftLeft_eq]
    calc byte.toNat % 128 * 2 ^ shift.toNat
        ≤ 128 * 2 ^ 28 := Nat.mul_le_mul (by omega) (Nat.pow_le_pow_right (by decide) hshift)
      _ < 2 ^ 64 := by decide
  rw [UInt64.toNat_or, UInt64.toNat_shiftLeft, UInt8.toNat_toUInt64, low_bits,
    Nat.mod_eq_of_lt (by omega : shift.toNat < 64), Nat.mod_eq_of_lt hgroup, Nat.or_comm,
    ← Nat.shiftLeft_add_eq_or_of_lt hvalue, Nat.shiftLeft_eq, Nat.add_comm]

/-- What a decoder leaves: the value, and the position in front of the text not yet read. -/
def Leaves (buffer : Buffer) {α β : Type} (value : α → β) (left : α × UInt64)
    (left' : β × Bytes) : Prop :=
  value left.1 = left'.1 ∧ buffer.Stands left.2 left'.2

def varintResult : Option (Nat × Bytes) → Except Bytes (Nat × Bytes)
  | none => .error (ascii "Varint too long (max 5 bytes)")
  | some result => .ok result

/-- The next group starts seven bits further up, and the one read fits below it. -/
theorem shift_next {groups : Nat} {shift : UInt64} (hshift : shift.toNat + 7 * (groups + 1) = 35) :
    (shift + 7).toNat = shift.toNat + 7 ∧ 128 * 2 ^ shift.toNat = 2 ^ (shift + 7).toNat := by
  have hnext : (shift + 7).toNat = shift.toNat + 7 := by
    rw [UInt64.toNat_add]
    apply Nat.mod_eq_of_lt
    show shift.toNat + 7 < 2 ^ 64
    omega
  exact ⟨hnext, by rw [hnext, Nat.pow_add, Nat.mul_comm]⟩

theorem group_lt {value scale : Nat} (hvalue : value < scale) (byte : UInt8) :
    value + byte.toNat % 128 * scale < 128 * scale := by
  have hlow : byte.toNat % 128 * scale ≤ 127 * scale := Nat.mul_le_mul_right _ (by omega)
  omega

theorem varintLoop_refines {groups : Nat} {value shift : UInt64} (h : buffer.Stands pos text)
    (hvalue : value.toNat < 2 ^ shift.toNat) (hshift : shift.toNat + 7 * groups = 35) :
    Refines (Access.Within buffer.data.length) (buffer.Leaves UInt64.toNat)
      (buffer.varintLoop groups pos value shift)
      (varintResult (Lib.Varint.decode groups (2 ^ shift.toNat) value.toNat text)) := by
  induction groups generalizing pos text value shift with
  | zero =>
      unfold varintLoop
      cases text with
      | nil =>
          rw [if_neg h.not_lt_size]
          exact refines_pure ⟨rfl, h⟩
      | cons byte text =>
          rw [if_pos h.lt_size]
          exact refines_raise _
  | succ groups ih =>
      unfold varintLoop
      cases text with
      | nil =>
          rw [if_neg h.not_lt_size]
          exact refines_pure ⟨rfl, h⟩
      | cons byte text =>
          rw [if_pos h.lt_size, Lib.Varint.decode]
          have hgroup : (value ||| ((byte &&& 0x7F).toUInt64 <<< shift)).toNat =
              value.toNat + byte.toNat % 128 * 2 ^ shift.toNat := group_toNat hvalue (by omega)
          apply refines_after (byteAt_refines h)
          dsimp only
          rw [← hgroup]
          by_cases hlast : byte.toNat < 128
          · rw [if_pos hlast, if_pos ((high_bit_clear byte).mpr hlast)]
            exact refines_pure ⟨rfl, h.next.2⟩
          · obtain ⟨hnext, hscale⟩ := shift_next hshift
            rw [if_neg hlast, if_neg fun hclear => hlast ((high_bit_clear byte).mp hclear), hscale]
            apply ih h.next.2
            · rw [hgroup, ← hscale]
              exact group_lt hvalue byte
            · omega

theorem decodeVarint_cons (byte : UInt8) (text : Bytes) :
    BinaryEncoder.decodeVarint (byte :: text) =
      varintResult (Lib.Varint.decode 5 1 0 (byte :: text)) >>= fun result =>
        if 0xFFFFFFFF < result.1 then .error (ascii "Varint exceeds 32-bit range")
        else .ok result := by
  unfold BinaryEncoder.decodeVarint
  cases Lib.Varint.decode 5 1 0 (byte :: text) <;> rfl

theorem decodeVarint_refines (h : buffer.Stands pos text) :
    Refines (Access.Within buffer.data.length) (buffer.Leaves UInt32.toNat)
      (buffer.decodeVarint pos) (BinaryEncoder.decodeVarint text) := by
  unfold decodeVarint
  cases text with
  | nil =>
      rw [if_pos (UInt64.not_lt.mp h.not_lt_size)]
      exact refines_raise _
  | cons byte text =>
      rw [if_neg (UInt64.not_le.mpr h.lt_size), decodeVarint_cons]
      apply refines_bind
      · have hloop : Refines _ _ (buffer.varintLoop 5 pos 0 0) _ :=
          varintLoop_refines h (by decide) rfl
        exact hloop
      · rintro ⟨value, pos'⟩ ⟨value', rest⟩ ⟨hvalue, hpos⟩
        dsimp only at hvalue hpos ⊢
        have hrange : 0xFFFFFFFF < value ↔ 0xFFFFFFFF < value' := by
          rw [UInt64.lt_iff_toNat_lt, hvalue]
          rfl
        by_cases hlarge : 0xFFFFFFFF < value'
        · rw [if_pos hlarge, if_pos (hrange.mpr hlarge)]
          exact refines_raise _
        · rw [if_neg hlarge, if_neg fun h => hlarge (hrange.mp h)]
          refine refines_pure ⟨?_, hpos⟩
          show value.toUInt32.toNat = value'
          rw [UInt64.toNat_toUInt32, hvalue]
          apply Nat.mod_eq_of_lt
          omega

/-! ## Strings and pairs -/

theorem decodeBlock_refines (underflow : Bytes) (h : buffer.Stands pos text) :
    Refines (Access.Within buffer.data.length) (buffer.Leaves id)
      (buffer.decodeBlock underflow pos) (BinaryEncoder.decodeBlock underflow text) := by
  apply refines_bind (decodeVarint_refines h)
  rintro ⟨len, pos'⟩ ⟨len', rest⟩ ⟨hlen, hpos⟩
  dsimp only at hlen hpos ⊢
  subst hlen
  have hsize := buffer.size_lt
  have hlength := hpos.length
  have hbound := len.toNat_lt
  have hover : buffer.size < pos' + len.toUInt64 ↔ rest.length < len.toNat := by
    rw [UInt64.lt_iff_toNat_lt, size_toNat, UInt64.toNat_add, UInt32.toNat_toUInt64,
      Nat.mod_eq_of_lt (by omega)]
    omega
  by_cases hunder : rest.length < len.toNat
  · rw [if_pos hunder, if_pos (hover.mpr hunder)]
    exact refines_raise _
  · rw [if_neg hunder, if_neg fun h => hunder (hover.mp h)]
    have hfits := Nat.le_of_not_lt hunder
    apply refines_after (blockAt_refines hpos hfits)
    exact refines_pure ⟨rfl, (hpos.skip hfits).2⟩

theorem decodeString_refines (h : buffer.Stands pos text) :
    Refines (Access.Within buffer.data.length) (buffer.Leaves id)
      (buffer.decodeString pos) (BinaryEncoder.decodeString text) := by
  unfold decodeString
  cases text with
  | nil =>
      rw [if_pos (UInt64.not_lt.mp h.not_lt_size)]
      exact refines_raise _
  | cons byte text =>
      rw [if_neg (UInt64.not_le.mpr h.lt_size)]
      apply refines_after (byteAt_refines h)
      exact decodeBlock_refines _ h.next.2

theorem decodeKvpair_refines (h : buffer.Stands pos (byte :: text)) :
    Refines (Access.Within buffer.data.length)
      (fun left left' => left.1 = left'.1 ∧ buffer.Leaves id left.2 left'.2)
      (buffer.decodeKvpair pos) (BinaryEncoder.decodeKvpair (byte :: text)) := by
  apply refines_bind (decodeBlock_refines _ h.next.2)
  rintro ⟨key, pos'⟩ ⟨key', rest⟩ ⟨hkey, hpos⟩
  apply refines_bind (decodeBlock_refines _ hpos)
  rintro ⟨value, pos''⟩ ⟨value', rest'⟩ ⟨hvalue, hpos'⟩
  exact refines_pure ⟨hkey, hvalue, hpos'⟩

/-! ## The loops -/

/-- A field with one string in it. -/
theorem stringField_refines (h : buffer.Stands pos (byte :: text)) (next : Bytes → Statement) :
    Refines (Access.Within buffer.data.length) (buffer.Leaves id)
      (buffer.decodeString pos >>= fun read => pure (next read.1, read.2))
      (BinaryEncoder.decodeString (byte :: text) >>= fun read => .ok (next read.1, read.2)) := by
  apply refines_bind (decodeString_refines h)
  rintro ⟨value, pos'⟩ ⟨value', rest⟩ ⟨rfl, hpos⟩
  exact refines_pure ⟨rfl, hpos⟩

/-- A field with a key and a value. -/
theorem pairField_refines (h : buffer.Stands pos (byte :: text)) (next : Bytes → Bytes → Statement) :
    Refines (Access.Within buffer.data.length) (buffer.Leaves id)
      (buffer.decodeKvpair pos >>= fun read => pure (next read.1 read.2.1, read.2.2))
      (BinaryEncoder.decodeKvpair (byte :: text) >>= fun read =>
        .ok (next read.1 read.2.1, read.2.2)) := by
  apply refines_bind (decodeKvpair_refines h)
  rintro ⟨key, value, pos'⟩ ⟨key', value', rest⟩ ⟨rfl, rfl, hpos⟩
  exact refines_pure ⟨rfl, hpos⟩

theorem decodeField_refines (h : buffer.Stands pos (byte :: text)) (stmt : Statement) :
    Refines (Access.Within buffer.data.length) (buffer.Leaves id)
      (buffer.decodeField byte pos stmt) (BinaryEncoder.decodeField (byte :: text) stmt) := by
  unfold decodeField BinaryEncoder.decodeField
  dsimp only [List.headD_cons]
  apply refines_ite
  · intro _
    exact stringField_refines h fun role => { stmt with role := role }
  intro _
  apply refines_ite
  · intro _
    exact stringField_refines h fun name =>
      { stmt with toolCalls := stmt.toolCalls ++ [⟨name, _, none⟩] }
  intro _
  apply refines_ite
  · intro _
    cases stmt.toolCalls.getLast? with
    | none => exact refines_raise _
    | some call =>
        exact stringField_refines h fun method => setBack stmt { call with method := some method }
  intro _
  apply refines_ite
  · intro _
    cases stmt.toolCalls.getLast? with
    | none => exact refines_raise _
    | some call =>
        exact pairField_refines h fun key value =>
          setBack stmt { call with args := call.args.set key value }
  intro _
  apply refines_ite
  · intro _
    exact pairField_refines h fun key value => { stmt with kvpairs := stmt.kvpairs.set key value }
  intro _
  cases fieldKey byte with
  | none => exact refines_raise _
  | some key => exact stringField_refines h fun value => { stmt with kvpairs := stmt.kvpairs.set key value }

theorem headerLoop_refines {fuel : Nat} (hfuel : text.length < fuel) (h : buffer.Stands pos text)
    (result : Bytes) :
    Refines (Access.Within buffer.data.length) (buffer.Leaves id)
      (buffer.headerLoop fuel pos result) (Lib.Fields.read headerFormat text result) := by
  induction fuel generalizing pos text result with
  | zero => contradiction
  | succ fuel ih =>
      unfold headerLoop
      cases text with
      | nil =>
          rw [if_neg h.not_lt_size]
          exact refines_pure ⟨rfl, h⟩
      | cons op text =>
          rw [if_pos h.lt_size]
          apply refines_after (byteAt_refines h)
          by_cases hstop : 0x10 ≤ op
          · rw [Lib.Fields.read_stop headerFormat (decide_eq_true hstop), if_pos hstop]
            exact refines_pure ⟨rfl, h⟩
          · rw [if_neg hstop, Lib.Fields.read_cons headerFormat (decide_eq_false hstop)]
            show Refines _ _ _ (decodeHeaderField (op :: text) result >>= _)
            unfold decodeHeaderField
            rw [List.headD_cons]
            cases headerLabel op with
            | none => exact refines_raise _
            | some label =>
                dsimp only
                rw [bind_assoc]
                apply refines_bind (decodeString_refines h).with_result
                rintro ⟨value, pos'⟩ ⟨value', rest⟩ ⟨⟨rfl, hpos⟩, hread⟩
                have hconsumes := decodeString_consumes hread
                exact ih (Nat.lt_of_lt_of_le hconsumes (Nat.le_of_lt_succ hfuel)) hpos _

/-- The end marker is consumed, the end of the buffer is not. -/
theorem statementLoop_refines {fuel : Nat} (hfuel : text.length < fuel)
    (h : buffer.Stands pos text) (stmt : Statement) :
    Refines (Access.Within buffer.data.length)
      (fun left left' => left.1 = left'.1 ∧ buffer.Stands left.2 (left'.2.drop 1))
      (buffer.statementLoop fuel pos stmt) (Lib.Fields.read statementFormat text stmt) := by
  induction fuel generalizing pos text stmt with
  | zero => contradiction
  | succ fuel ih =>
      unfold statementLoop
      cases text with
      | nil =>
          rw [if_neg h.not_lt_size]
          exact refines_pure ⟨rfl, h⟩
      | cons op text =>
          rw [if_pos h.lt_size]
          apply refines_after (byteAt_refines h)
          cases hstop : op == Opcode.endStatement.code with
          | true =>
              rw [Lib.Fields.read_stop statementFormat hstop, if_pos rfl]
              exact refines_pure ⟨rfl, h.next.2⟩
          | false =>
              rw [Lib.Fields.read_cons statementFormat hstop, if_neg Bool.false_ne_true]
              apply refines_bind (decodeField_refines h stmt).with_result
              rintro ⟨stmt', pos'⟩ ⟨stmt'', rest⟩ ⟨⟨rfl, hpos⟩, hread⟩
              have hconsumes := decodeField_consumes hread
              exact ih (Nat.lt_of_lt_of_le hconsumes (Nat.le_of_lt_succ hfuel)) hpos stmt'

/-! ## Headers and statements -/

theorem differs_refines {wanted : Bytes} (h : buffer.Stands pos text)
    (hlength : wanted.length ≤ text.length) :
    Refines (Access.Within buffer.data.length) Eq (buffer.differs wanted pos)
      (.ok (decide (text.take wanted.length ≠ wanted))) := by
  induction wanted generalizing pos text with
  | nil => exact refines_pure (by simp)
  | cons wanted rest ih =>
      cases text with
      | nil => contradiction
      | cons byte text =>
          unfold differs
          apply refines_after (byteAt_refines h)
          by_cases hbyte : byte = wanted
          · have hrest := ih h.next.2 (Nat.le_of_succ_le_succ hlength)
            rw [if_neg (not_not_intro hbyte)]
            subst hbyte
            simpa using hrest
          · rw [if_pos hbyte]
            exact refines_pure (by simp [hbyte])

theorem magicMissing_refines :
    Refines (Access.Within buffer.data.length) Eq buffer.magicMissing
      (.ok (decide (buffer.data.length < 5 ∨ buffer.data.take 4 ≠ magic))) := by
  have hsmall : buffer.size < 5 ↔ buffer.data.length < 5 := by
    rw [UInt64.lt_iff_toNat_lt, size_toNat]
    rfl
  unfold magicMissing
  by_cases h : buffer.data.length < 5
  · rw [if_pos (hsmall.mpr h), decide_eq_true (Or.inl h)]
    exact refines_pure rfl
  · have hstart : buffer.Stands 0 buffer.data := ⟨rfl, Nat.zero_le _⟩
    have hmagic : magic.length ≤ buffer.data.length := by
      have hlength : magic.length = 4 := rfl
      omega
    rw [if_neg fun hs => h (hsmall.mp hs)]
    simpa only [h, false_or] using! differs_refines hstart hmagic

theorem decodeHeader_eq {data : Bytes} (h : ¬ (data.length < 5 ∨ data.take 4 ≠ magic)) :
    BinaryEncoder.decodeHeader data = (Lib.Fields.read headerFormat (data.drop 5) []).map
      fun read => (read.1, data.length - read.2.length) := by
  unfold BinaryEncoder.decodeHeader
  rw [if_neg h]
  cases Lib.Fields.read headerFormat (data.drop 5) [] <;> rfl

theorem decodeStatement_eq (data : Bytes) (pos : Nat) :
    BinaryEncoder.decodeStatement data pos =
      (Lib.Fields.read statementFormat (data.drop pos) Statement.empty).map fun read =>
        (read.1, pos + ((data.drop pos).length - (read.2.drop 1).length)) := by
  unfold BinaryEncoder.decodeStatement
  cases Lib.Fields.read statementFormat (data.drop pos) Statement.empty <;> rfl

theorem decodeHeader_refines (start : UInt64) :
    Refines (Access.Within buffer.data.length)
      (fun left left' => left.1 = left'.1 ∧ left.2.toNat = left'.2)
      (buffer.decodeHeader start) (BinaryEncoder.decodeHeader buffer.data) := by
  unfold decodeHeader
  apply refines_after magicMissing_refines
  by_cases hmissing : buffer.data.length < 5 ∨ buffer.data.take 4 ≠ magic
  · unfold BinaryEncoder.decodeHeader
    rw [if_pos hmissing, if_pos (decide_eq_true hmissing)]
    exact refines_raise _
  · have hfive : 5 ≤ buffer.data.length := Nat.le_of_not_lt fun h => hmissing (Or.inl h)
    have hfuel : (buffer.data.drop 5).length < buffer.data.length + 1 := by
      rw [List.length_drop]
      omega
    rw [decodeHeader_eq hmissing, if_neg (by simpa using hmissing)]
    have hstart : buffer.Stands 5 (buffer.data.drop 5) := ⟨rfl, hfive⟩
    apply (headerLoop_refines hfuel hstart []).map
    rintro ⟨result, pos⟩ ⟨result', rest⟩ ⟨rfl, hpos⟩
    have hlength : pos.toNat + rest.length = buffer.data.length := hpos.length
    refine ⟨rfl, ?_⟩
    show pos.toNat = buffer.data.length - rest.length
    omega

theorem decodeStatement_refines (start : UInt64) :
    Refines (Access.Within buffer.data.length)
      (fun left left' => left.1 = left'.1 ∧ left.2.toNat = left'.2)
      (buffer.decodeStatement start) (BinaryEncoder.decodeStatement buffer.data start.toNat) := by
  unfold decodeStatement
  rw [decodeStatement_eq]
  by_cases hpast : buffer.data.length < start.toNat
  · have hstop : ¬ start < buffer.size := by
      rw [UInt64.lt_iff_toNat_lt, size_toNat]
      omega
    rw [List.drop_eq_nil_of_le (Nat.le_of_lt hpast)]
    unfold statementLoop
    rw [if_neg hstop]
    exact refines_pure ⟨rfl, rfl⟩
  · have hfuel : (buffer.data.drop start.toNat).length < buffer.data.length + 1 := by
      rw [List.length_drop]
      omega
    have hstart : buffer.Stands start (buffer.data.drop start.toNat) :=
      ⟨rfl, Nat.le_of_not_lt hpast⟩
    apply (statementLoop_refines hfuel hstart Statement.empty).with_result.map
    rintro ⟨stmt, pos⟩ ⟨stmt', rest⟩ ⟨⟨rfl, hpos⟩, hread⟩
    have hread' := Lib.Fields.read_length statementFormat hread
    have hdrop : (rest.drop 1).length ≤ rest.length := by
      rw [List.length_drop]
      omega
    have hlength : pos.toNat + (rest.drop 1).length = buffer.data.length := hpos.length
    have hlength' := hstart.length
    refine ⟨rfl, ?_⟩
    show pos.toNat =
      start.toNat + ((buffer.data.drop start.toNat).length - (rest.drop 1).length)
    omega

end Buffer
end LlmTop.BinaryEncoder
