import LlmTop.Lib.JsonReader
import LlmTop.Recovery
import Mathlib.Data.Nat.Digits.Lemmas

/-!
# What the JSON documents say

A reader of JSON takes back from the output of `toJson` and from the fallback
document what went into them, whatever bytes the strings hold.
-/
namespace LlmTop
open Lib

/-! ## Values -/

def OrderedMap.json (map : OrderedMap) : JsonReader.Value :=
  .object (map.data.map fun entry => (entry.1, .string entry.2))

def ToolCall.json (tc : ToolCall) : JsonReader.Value :=
  .object ([(ascii "tool", .string tc.name)] ++
    (tc.method.map fun method => (ascii "method", JsonReader.Value.string method)).toList ++
    [(ascii "args", tc.args.json)])

def Statement.json (stmt : Statement) : JsonReader.Value :=
  .object [(ascii "role", .string stmt.role), (ascii "kvpairs", stmt.kvpairs.json),
    (ascii "commands", .array (stmt.toolCalls.map ToolCall.json))]

def AST.json (ast : AST) : JsonReader.Value :=
  .object ([(ascii "version", .string ast.header.ver), (ascii "checksum", .string ast.header.chk),
      (ascii "agent", .string ast.header.agt), (ascii "uid", .string ast.header.uid),
      (ascii "time", .string ast.header.tim), (ascii "reqid", .string ast.header.reqid),
      (ascii "fallback", .string ast.header.fallback), (ascii "hr", .number ast.header.hr 0)] ++
    (if ast.diagnostic = [] then [] else [(ascii "diagnostic", .string ast.diagnostic)]) ++
    (if ast.recoveryAttempted then [(ascii "recovery_attempted", .bool true)] else []) ++
    [(ascii "statements", .array (ast.statements.map Statement.json))])

/-- A statement of the fallback document: its tool calls are only counted. -/
def Statement.recoveredJson (stmt : Statement) : JsonReader.Value :=
  .object [(ascii "role", .string stmt.role), (ascii "kvpairs", stmt.kvpairs.json),
    (ascii "tool_count", .number stmt.toolCalls.length 0)]

def fallbackJson (timestamp : Bytes) (ast : AST) (plan : RecoveryPlan) : JsonReader.Value :=
  .object [(ascii "type", .string (ascii "FALLBACK")), (ascii "timestamp", .string timestamp),
    (ascii "original_reqid", .string ast.header.reqid), (ascii "agent", .string ast.header.agt),
    (ascii "error_count", .number plan.errorsFound 0),
    (ascii "recovery_status", .string plan.action.status),
    (ascii "statements_recovered", .number plan.statementsRecovered 0),
    (ascii "statements_total", .number plan.statementsTotal 0),
    (ascii "diagnostic_messages", .array (plan.errorDetails.map .string)),
    (ascii "recovered_statements", .array (ast.statements.map Statement.recoveredJson)),
    (ascii "next_action", .string (ascii "Submit corrected payload with errors fixed")),
    (ascii "support_link", .string (ascii "https://example.com/docs/fallback-recovery"))]

/-! ## Strings and numbers -/

theorem spells_escapeByte (c : UInt8) : JsonReader.Spells (escapeByte c) [c] := by
  have hall := of_all_bytes (p := fun c =>
    let next := (escapeByte c).getD 1 0
    let x := (escapeByte c).getD 4 0
    let y := (escapeByte c).getD 5 0
    (escapeByte c == [c] && c != '"'.toUInt8 && c != '\\'.toUInt8 && !decide (c < 0x20)) ||
    (escapeByte c == ['\\'.toUInt8, next] && JsonReader.letterValue next == some c) ||
    (escapeByte c == ['\\'.toUInt8, 'u'.toUInt8, '0'.toUInt8, '0'.toUInt8, x, y] &&
      JsonReader.fourHex '0'.toUInt8 '0'.toUInt8 x y == some c.toNat && JsonReader.utf8Bytes c.toNat == [c]))
    (by decide +kernel) c
  simp only [Bool.or_eq_true, Bool.and_eq_true, beq_iff_eq, bne_iff_ne, Bool.not_eq_true',
    decide_eq_false_iff_not] at hall
  rcases hall with (⟨⟨⟨hself, hquote⟩, hback⟩, hcontrol⟩ | ⟨hpair, hletter⟩) |
    ⟨⟨hunicode, hhex⟩, hutf8⟩
  · rw [hself]
    exact JsonReader.spells_plain hquote hback hcontrol
  · rw [hpair]
    exact JsonReader.spells_letter hletter
  · have hplain : c.toNat < 0xD800 := Nat.lt_of_lt_of_le c.toNat_lt (by decide)
    have hspells := JsonReader.spells_unicode hhex hplain
    rw [hutf8] at hspells
    rw [hunicode]
    exact hspells

theorem spells_escapeJson (s : Bytes) : JsonReader.Spells (escapeJson s) s := by
  induction s with
  | nil => exact JsonReader.spells_nil
  | cons c cs ih => exact (spells_escapeByte c).append ih

/-- A byte that stands for itself in a string. -/
def isPlainByte (c : UInt8) : Bool := c != '"'.toUInt8 && c != '\\'.toUInt8 && !decide (c < 0x20)

theorem spells_self {text : Bytes} (h : text.all isPlainByte = true) : JsonReader.Spells text text := by
  induction text with
  | nil => exact JsonReader.spells_nil
  | cons c cs ih =>
      obtain ⟨hc, hcs⟩ := Bool.and_eq_true_iff.mp h
      unfold isPlainByte at hc
      simp only [Bool.and_eq_true, bne_iff_ne, Bool.not_eq_true', decide_eq_false_iff_not] at hc
      obtain ⟨⟨hquote, hback⟩, hcontrol⟩ := hc
      exact (JsonReader.spells_plain hquote hback hcontrol).append (ih hcs)

theorem reads_quoted {text s : Bytes} (h : JsonReader.Spells text s) (depth : Nat) :
    JsonReader.Reads (JsonReader.value (depth + 1)) (ascii "\"" ++ text ++ ascii "\"") (.string s) :=
  JsonReader.reads_string h depth

theorem reads_stringValue (s : Bytes) (depth : Nat) :
    JsonReader.Reads (JsonReader.value (depth + 1)) (stringValue s) (.string s) :=
  reads_quoted (spells_escapeJson s) depth

theorem isWhole_natDecimal (n : Nat) : JsonReader.IsWhole (natDecimal n) := by
  by_cases hzero : n = 0
  · rw [hzero]
    exact Or.inl rfl
  · have hdigits : Nat.digits 10 n ≠ [] := Nat.digits_ne_nil_iff_ne_zero.mpr hzero
    have hlast := Nat.getLast_digit_ne_zero 10 hzero
    have hlt := Nat.digits_lt_base (b := 10) (by decide) (List.getLast_mem hdigits)
    have hall : ∀ d < 10, d ≠ 0 → digitByte d ≠ '0'.toUInt8 := by decide
    obtain ⟨c, rest, hdecimal⟩ := List.exists_cons_of_ne_nil (natDecimal_ne_nil n)
    refine Or.inr ⟨c, rest, hdecimal, ?_, ?_⟩
    · have hhead : (natDecimal n).head? = some (digitByte ((Nat.digits 10 n).getLast hdigits)) := by
        rw [natDecimal, if_neg hzero, List.head?_map, List.head?_reverse,
          List.getLast?_eq_some_getLast hdigits]
        rfl
      rw [hdecimal] at hhead
      obtain rfl := Option.some.inj hhead
      exact hall _ hlt hlast
    · rw [← hdecimal]
      exact fun d hd => isDigit_of_mem_natDecimal hd

theorem reads_natDecimal (n depth : Nat) : JsonReader.Reads (JsonReader.value (depth + 1)) (natDecimal n) (.number n 0) := by
  have hvalue : JsonReader.digitsValue (natDecimal n) = n := digitsValue_natDecimal n
  have hreads := JsonReader.reads_natural (isWhole_natDecimal n) depth
  rwa [hvalue] at hreads

theorem reads_toDecimal (n : Int) (depth : Nat) :
    JsonReader.Reads (JsonReader.value (depth + 1)) (toDecimal n) (.number n 0) := by
  unfold toDecimal
  split
  · rename_i hneg
    have hvalue : JsonReader.digitsValue (natDecimal n.natAbs) = n.natAbs :=
      digitsValue_natDecimal n.natAbs
    have hreads := JsonReader.reads_negative (isWhole_natDecimal n.natAbs) depth
    have habs : -(n.natAbs : Int) = n := by omega
    rwa [hvalue, habs] at hreads
  · have hreads := reads_natDecimal n.natAbs depth
    rwa [Int.natAbs_of_nonneg (by omega)] at hreads

theorem isPlainByte_natDecimal {n : Nat} {c : UInt8} (h : c ∈ natDecimal n) : isPlainByte c = true := by
  have hall := of_all_bytes (p := fun c => !isDigit c || isPlainByte c) (by decide +kernel) c
  simpa [isDigit_of_mem_natDecimal h] using hall

/-! ## Members and items -/

theorem reads_memberText {depth : Nat} {name decoded text : Bytes} {v : JsonReader.Value}
    (hname : JsonReader.Spells name decoded) (h : JsonReader.Reads (JsonReader.value depth) text v) :
    JsonReader.Reads (JsonReader.member (JsonReader.value depth)) (memberText name text) (decoded, v) := by
  have hblank : JsonReader.Gap [' '.toUInt8] := by decide
  have hmember := JsonReader.reads_member hname JsonReader.gap_nil hblank h
  have htext : memberText name text = '"'.toUInt8 :: (name ++ '"'.toUInt8 ::
      ([] ++ ':'.toUInt8 :: ([' '.toUInt8] ++ text))) := by
    have hclose : ascii "\": " = ['"'.toUInt8, ':'.toUInt8, ' '.toUInt8] := rfl
    rw [memberText, hclose, List.append_assoc, List.append_assoc]
    rfl
  rwa [htext]

theorem items_entries (depth : Nat) (entry : Bytes × Bytes) (rest : List (Bytes × Bytes)) :
    JsonReader.Items '}'.toUInt8 (JsonReader.Reads (JsonReader.member (JsonReader.value (depth + 1))))
      (entriesText (entry :: rest) ++ ascii "\x7d")
      ((entry :: rest).map fun entry => (entry.1, .string entry.2)) := by
  have hentry := fun entry : Bytes × Bytes =>
    reads_memberText (spells_escapeJson entry.1) (reads_stringValue entry.2 depth)
  induction rest generalizing entry with
  | nil => exact .last JsonReader.gap_nil (hentry entry) JsonReader.gap_nil
  | cons next rest ih =>
      have hblank : JsonReader.Gap [' '.toUInt8] := by decide
      have hcomma : ascii ", " = [','.toUInt8, ' '.toUInt8] := rfl
      have hlater := (ih next).indent hblank
      have hitems := JsonReader.Items.more JsonReader.gap_nil (hentry entry) JsonReader.gap_nil hlater
      have hloop : entriesText (entry :: next :: rest) =
          entryText entry ++ ascii ", " ++ entriesText (next :: rest) := rfl
      rw [hloop, hcomma, List.append_assoc, List.append_assoc]
      exact hitems

theorem reads_mapText (map : OrderedMap) (depth : Nat) :
    JsonReader.Reads (JsonReader.value (depth + 2)) (mapText map) map.json := by
  have hbody : JsonReader.Body '}'.toUInt8
      (JsonReader.Reads (JsonReader.member (JsonReader.value (depth + 1))))
      (entriesText map.data ++ ascii "\x7d")
      (map.data.map fun entry => (entry.1, .string entry.2)) := by
    cases map.data with
    | nil => exact .empty JsonReader.gap_nil
    | cons entry rest => exact .items (items_entries depth entry rest)
  have hreads := JsonReader.reads_object hbody
  rw [mapText, List.append_assoc]
  exact hreads

section Lines

variable {ι α : Type} {close : UInt8} {item : Bytes → α → Prop} {text : ι → Bytes} {val : ι → α}

/-- Behind its indentation each item is what it stands for. -/
def IndentedItems (item : Bytes → α → Prop) (text : ι → Bytes) (val : ι → α) (xs : List ι) : Prop :=
  ∀ x ∈ xs, ∃ indent body, JsonReader.Gap indent ∧ text x = indent ++ body ∧ item body (val x)

theorem items_itemLines {x : ι} {xs : List ι} (h : IndentedItems item text val (x :: xs)) {gap : Bytes}
    (hgap : JsonReader.Gap gap) :
    JsonReader.Items close item (itemLines ((x :: xs).map text) ++ (gap ++ [close]))
      ((x :: xs).map val) := by
  have hnewline : JsonReader.Gap (ascii "\n") := by decide
  induction xs generalizing x with
  | nil =>
      obtain ⟨indent, body, hindent, htext, hbody⟩ := h x List.mem_cons_self
      have hitems : JsonReader.Items close item _ _ := .last hindent hbody (hnewline.append hgap)
      simp only [List.map_cons, List.map_nil, itemLines, htext, List.append_assoc] at hitems ⊢
      exact hitems
  | cons y xs ih =>
      obtain ⟨indent, body, hindent, htext, hbody⟩ := h x List.mem_cons_self
      have hlater := (ih fun z hz => h z (List.mem_cons_of_mem x hz)).indent hnewline
      have hitems : JsonReader.Items close item _ _ := .more hindent hbody JsonReader.gap_nil hlater
      have hcomma : ascii ",\n" = ','.toUInt8 :: ascii "\n" := rfl
      simp only [List.map_cons, itemLines, htext, hcomma, List.append_assoc, List.cons_append] at hitems ⊢
      exact hitems

theorem body_itemLines {xs : List ι} (h : IndentedItems item text val xs) {gap : Bytes}
    (hgap : JsonReader.Gap gap) :
    JsonReader.Body close item (ascii "\n" ++ (itemLines (xs.map text) ++ (gap ++ [close])))
      (xs.map val) := by
  have hnewline : JsonReader.Gap (ascii "\n") := by decide
  cases xs with
  | nil =>
      have hempty : JsonReader.Body close item _ _ := .empty (hnewline.append hgap)
      rw [List.append_assoc] at hempty
      exact hempty
  | cons x xs => exact .items ((items_itemLines h hgap).indent hnewline)

end Lines

theorem reads_itemArray {depth : Nat} {ι : Type} {text : ι → Bytes} {val : ι → JsonReader.Value}
    {xs : List ι} (h : IndentedItems (JsonReader.Reads (JsonReader.value depth)) text val xs)
    {gap : Bytes} (hgap : JsonReader.Gap gap) :
    JsonReader.Reads (JsonReader.value (depth + 1))
      (ascii "[\n" ++ itemLines (xs.map text) ++ (gap ++ ascii "]")) (.array (xs.map val)) := by
  have hreads := JsonReader.reads_array (body_itemLines h hgap)
  rw [List.append_assoc]
  exact hreads

/-! ## Objects with a line for each member -/

/-- A member as it is written and as it is read. -/
structure Field where
  name : String
  text : Bytes
  value : JsonReader.Value

def Field.line (indent : String) (f : Field) : Bytes := ascii indent ++ memberText (ascii f.name) f.text

def Field.member (f : Field) : Bytes × JsonReader.Value := (ascii f.name, f.value)

/-- The names that the documents use. -/
def fieldNames : List String :=
  ["version", "checksum", "agent", "uid", "time", "reqid", "fallback", "hr", "diagnostic",
    "recovery_attempted", "statements", "role", "kvpairs", "commands", "tool", "method", "args",
    "type", "timestamp", "original_reqid", "error_count", "recovery_status", "statements_recovered",
    "statements_total", "diagnostic_messages", "recovered_statements", "tool_count", "next_action",
    "support_link"]

theorem plain_fieldNames : ∀ name ∈ fieldNames, (ascii name).all isPlainByte = true := by decide

/-- The member is read back, under a name that needs no escapes. -/
structure Field.Sound (depth : Nat) (f : Field) : Prop where
  known : f.name ∈ fieldNames
  reads : JsonReader.Reads (JsonReader.value depth) f.text f.value

theorem Field.sound {depth : Nat} {name : String} {text : Bytes} {value : JsonReader.Value}
    (hname : name ∈ fieldNames) (h : JsonReader.Reads (JsonReader.value depth) text value) :
    Field.Sound depth ⟨name, text, value⟩ :=
  ⟨hname, h⟩

theorem reads_fields {depth : Nat} {fields : List Field} (h : ∀ f ∈ fields, f.Sound depth)
    {indent closing : String} (hindent : JsonReader.Gap (ascii indent))
    (hclosing : JsonReader.Gap (ascii closing)) :
    JsonReader.Reads (JsonReader.value (depth + 1))
      (ascii "\x7b\n" ++ itemLines (fields.map (Field.line indent)) ++ (ascii closing ++ ascii "\x7d"))
      (.object (fields.map Field.member)) := by
  have hitems : IndentedItems (JsonReader.Reads (JsonReader.member (JsonReader.value depth)))
      (Field.line indent) Field.member fields := by
    intro f hf
    have hname := spells_self (plain_fieldNames f.name (h f hf).known)
    exact ⟨ascii indent, _, hindent, rfl, reads_memberText hname (h f hf).reads⟩
  have hreads := JsonReader.reads_object (body_itemLines hitems hclosing)
  rw [List.append_assoc]
  exact hreads

theorem itemLines_cons (item : Bytes) {rest : List Bytes} (h : rest ≠ []) :
    itemLines (item :: rest) = item ++ ascii ",\n" ++ itemLines rest := by
  cases rest with
  | nil => exact absurd rfl h
  | cons next rest => rfl

/-- Lines with a comma behind each, and the last one. -/
theorem itemLines_fields (indent : String) (fields : List Field) (last : Field) :
    itemLines ((fields ++ [last]).map (Field.line indent)) =
      fields.flatMap (fun f => memberLine indent f.name f.text) ++
        (last.line indent ++ ascii "\n") := by
  induction fields with
  | nil => rfl
  | cons f fields ih =>
      rw [List.cons_append, List.map_cons, itemLines_cons _ (by simp), ih, List.flatMap_cons,
        List.append_assoc, memberLine, Field.line, List.append_assoc, List.append_assoc]
      simp only [List.append_assoc]

/-- An object with a comma behind each line but the last. -/
def linesText (indent closing : String) (fields : List Field) (last : Field) : Bytes :=
  ascii "\x7b\n" ++ fields.flatMap (fun f => memberLine indent f.name f.text) ++
    (last.line indent ++ (ascii "\n" ++ (ascii closing ++ ascii "\x7d")))

theorem reads_linesText {depth : Nat} {fields : List Field} {last : Field}
    (h : ∀ f ∈ fields ++ [last], f.Sound depth) {indent closing : String}
    (hindent : JsonReader.Gap (ascii indent)) (hclosing : JsonReader.Gap (ascii closing)) :
    JsonReader.Reads (JsonReader.value (depth + 1)) (linesText indent closing fields last)
      (.object ((fields ++ [last]).map Field.member)) := by
  have hreads := reads_fields h hindent hclosing
  rw [itemLines_fields] at hreads
  simp only [List.append_assoc] at hreads
  simpa only [linesText, List.append_assoc] using hreads

/-! ## Tool calls and statements -/

def ToolCall.fields (tc : ToolCall) : List Field :=
  ⟨"tool", stringValue tc.name, .string tc.name⟩ ::
    (tc.method.map fun method => (⟨"method", stringValue method, .string method⟩ : Field)).toList

def ToolCall.lastField (tc : ToolCall) : Field := ⟨"args", mapText tc.args, tc.args.json⟩

theorem commandText_eq (tc : ToolCall) :
    commandText tc =
      ascii "        " ++ linesText "          " "        " tc.fields tc.lastField := by
  have hopen : ascii "        \x7b\n" = ascii "        " ++ ascii "\x7b\n" := rfl
  have hclose : ascii "\n        \x7d" = ascii "\n" ++ (ascii "        " ++ ascii "\x7d") := rfl
  unfold commandText linesText ToolCall.fields ToolCall.lastField Field.line
  rw [hopen, hclose]
  cases tc.method <;> simp [List.append_assoc]

theorem json_toolCall (tc : ToolCall) :
    tc.json = .object ((tc.fields ++ [tc.lastField]).map Field.member) := by
  unfold ToolCall.json ToolCall.fields ToolCall.lastField
  cases tc.method <;> rfl

theorem reads_command (tc : ToolCall) (depth : Nat) :
    ∃ indent body, JsonReader.Gap indent ∧ commandText tc = indent ++ body ∧
      JsonReader.Reads (JsonReader.value (depth + 3)) body tc.json := by
  refine ⟨_, _, ?_, commandText_eq tc, ?_⟩
  · decide
  · rw [json_toolCall]
    refine reads_linesText ?_ (by decide) (by decide)
    have htool : Field.Sound (depth + 2) ⟨"tool", stringValue tc.name, .string tc.name⟩ :=
      Field.sound (by decide) (reads_stringValue tc.name (depth + 1))
    have hmethod : ∀ method, Field.Sound (depth + 2) ⟨"method", stringValue method, .string method⟩ :=
      fun method => Field.sound (by decide) (reads_stringValue method (depth + 1))
    have hargs : tc.lastField.Sound (depth + 2) :=
      Field.sound (by decide) (reads_mapText tc.args depth)
    unfold ToolCall.fields
    rw [List.forall_mem_append, List.forall_mem_cons, List.forall_mem_singleton]
    refine ⟨⟨htool, ?_⟩, hargs⟩
    cases tc.method with
    | none => exact List.forall_mem_nil _
    | some method => exact List.forall_mem_singleton.mpr (hmethod method)

/-- The two members with which every statement begins. -/
def Statement.fields (stmt : Statement) : List Field :=
  [⟨"role", stringValue stmt.role, .string stmt.role⟩, ⟨"kvpairs", mapText stmt.kvpairs, stmt.kvpairs.json⟩]

theorem Statement.sound_fields (stmt : Statement) (depth : Nat) :
    ∀ f ∈ stmt.fields, f.Sound (depth + 2) := by
  unfold Statement.fields
  rw [List.forall_mem_cons, List.forall_mem_singleton]
  exact ⟨Field.sound (by decide) (reads_stringValue stmt.role (depth + 1)),
    Field.sound (by decide) (reads_mapText stmt.kvpairs depth)⟩

def Statement.lastField (stmt : Statement) : Field :=
  ⟨"commands", ascii "[\n" ++ itemLines (stmt.toolCalls.map commandText) ++ (ascii "      " ++ ascii "]"),
    .array (stmt.toolCalls.map ToolCall.json)⟩

def Statement.countField (stmt : Statement) : Field :=
  ⟨"tool_count", natDecimal stmt.toolCalls.length, .number stmt.toolCalls.length 0⟩

theorem statementText_eq (stmt : Statement) :
    statementText stmt = ascii "    " ++ linesText "      " "    " stmt.fields stmt.lastField := by
  have hopen : ascii "    \x7b\n" = ascii "    " ++ ascii "\x7b\n" := rfl
  have hclose : ascii "\n    \x7d" = ascii "\n" ++ (ascii "    " ++ ascii "\x7d") := rfl
  have harray : ascii "      ]" = ascii "      " ++ ascii "]" := rfl
  unfold statementText linesText Statement.fields Statement.lastField Field.line
  rw [hopen, hclose, harray]
  simp [List.append_assoc]

theorem recoveredText_eq (stmt : Statement) :
    recoveredText stmt = ascii "    " ++ linesText "      " "    " stmt.fields stmt.countField := by
  have hopen : ascii "    \x7b\n" = ascii "    " ++ ascii "\x7b\n" := rfl
  have hclose : ascii "\n    \x7d" = ascii "\n" ++ (ascii "    " ++ ascii "\x7d") := rfl
  unfold recoveredText linesText Statement.fields Statement.countField Field.line
  rw [hopen, hclose]
  simp [List.append_assoc]

theorem reads_statement (stmt : Statement) (depth : Nat) :
    ∃ indent body, JsonReader.Gap indent ∧ statementText stmt = indent ++ body ∧
      JsonReader.Reads (JsonReader.value (depth + 5)) body stmt.json := by
  refine ⟨_, _, by decide, statementText_eq stmt, ?_⟩
  have hcommands : stmt.lastField.Sound (depth + 4) :=
    Field.sound (by decide) (reads_itemArray (fun tc _ => reads_command tc depth) (by decide))
  refine reads_linesText ?_ (by decide) (by decide)
  exact List.forall_mem_append.mpr
    ⟨stmt.sound_fields (depth + 2), List.forall_mem_singleton.mpr hcommands⟩

theorem reads_recovered (stmt : Statement) (depth : Nat) :
    ∃ indent body, JsonReader.Gap indent ∧ recoveredText stmt = indent ++ body ∧
      JsonReader.Reads (JsonReader.value (depth + 3)) body stmt.recoveredJson := by
  refine ⟨_, _, by decide, recoveredText_eq stmt, ?_⟩
  have hcount : stmt.countField.Sound (depth + 2) :=
    Field.sound (by decide) (reads_natDecimal _ (depth + 1))
  refine reads_linesText ?_ (by decide) (by decide)
  exact List.forall_mem_append.mpr
    ⟨stmt.sound_fields depth, List.forall_mem_singleton.mpr hcount⟩

/-! ## The documents -/

theorem length_linesText (indent closing : String) (fields : List Field) (last : Field) :
    7 ≤ (linesText indent closing fields last).length := by
  have hopen : (ascii "\x7b\n").length = 2 := rfl
  have hquote : (ascii "\"").length = 1 := rfl
  have hcolon : (ascii "\": ").length = 3 := rfl
  have hnewline : (ascii "\n").length = 1 := rfl
  simp only [linesText, Field.line, memberText, List.length_append, hopen, hquote, hcolon, hnewline]
  omega

/-- An object that ends in a newline is a text of its own. -/
theorem read_linesText {fields : List Field} {last : Field}
    (h : ∀ depth, ∀ f ∈ fields ++ [last], f.Sound (depth + 6)) {indent closing : String}
    (hindent : JsonReader.Gap (ascii indent)) (hclosing : JsonReader.Gap (ascii closing)) :
    JsonReader.read (linesText indent closing fields last ++ ascii "\n") =
      some (.object ((fields ++ [last]).map Field.member)) := by
  have hlength : 7 ≤ ([] ++ (linesText indent closing fields last ++ ascii "\n")).length :=
    Nat.le_trans (length_linesText indent closing fields last) (by simp)
  obtain ⟨depth, hdepth⟩ := Nat.exists_eq_add_of_le' hlength
  have hnewline : JsonReader.Gap (ascii "\n") := by decide
  have hreads := reads_linesText (h depth) hindent hclosing
  rw [← hdepth] at hreads
  exact JsonReader.read_eq JsonReader.gap_nil hnewline hreads

def AST.fields (ast : AST) : List Field :=
  [⟨"version", stringValue ast.header.ver, .string ast.header.ver⟩,
    ⟨"checksum", stringValue ast.header.chk, .string ast.header.chk⟩,
    ⟨"agent", stringValue ast.header.agt, .string ast.header.agt⟩,
    ⟨"uid", stringValue ast.header.uid, .string ast.header.uid⟩,
    ⟨"time", stringValue ast.header.tim, .string ast.header.tim⟩,
    ⟨"reqid", stringValue ast.header.reqid, .string ast.header.reqid⟩,
    ⟨"fallback", stringValue ast.header.fallback, .string ast.header.fallback⟩,
    ⟨"hr", toDecimal ast.header.hr, .number ast.header.hr 0⟩] ++
  (if ast.diagnostic.isEmpty then []
    else [⟨"diagnostic", stringValue ast.diagnostic, .string ast.diagnostic⟩]) ++
  (if ast.recoveryAttempted then [⟨"recovery_attempted", ascii "true", .bool true⟩] else [])

def AST.lastField (ast : AST) : Field :=
  ⟨"statements", ascii "[\n" ++ itemLines (ast.statements.map statementText) ++ (ascii "  " ++ ascii "]"),
    .array (ast.statements.map Statement.json)⟩

theorem toJson_eq (ast : AST) :
    toJson ast = linesText "  " "" ast.fields ast.lastField ++ ascii "\n" := by
  have hclose : ascii "\n\x7d\n" = ascii "\n" ++ (ascii "" ++ (ascii "\x7d" ++ ascii "\n")) := rfl
  have harray : ascii "  ]" = ascii "  " ++ ascii "]" := rfl
  unfold toJson linesText AST.fields AST.lastField Field.line
  rw [hclose, harray]
  cases ast.diagnostic.isEmpty <;> cases ast.recoveryAttempted <;> simp [List.append_assoc]

theorem json_ast (ast : AST) :
    ast.json = .object ((ast.fields ++ [ast.lastField]).map Field.member) := by
  unfold AST.json AST.fields AST.lastField
  cases hdiagnostic : ast.diagnostic <;> cases ast.recoveryAttempted <;> simp [Field.member]

theorem AST.sound_fields (ast : AST) (depth : Nat) :
    ∀ f ∈ ast.fields ++ [ast.lastField], f.Sound (depth + 6) := by
  have hstring : ∀ {name : String} (s : Bytes), name ∈ fieldNames →
      Field.Sound (depth + 6) ⟨name, stringValue s, .string s⟩ :=
    fun s hname => ⟨hname, reads_stringValue s (depth + 5)⟩
  have hhr : Field.Sound (depth + 6) ⟨"hr", toDecimal ast.header.hr, .number ast.header.hr 0⟩ :=
    Field.sound (by decide) (reads_toDecimal ast.header.hr (depth + 5))
  have hrecovery : Field.Sound (depth + 6) ⟨"recovery_attempted", ascii "true", .bool true⟩ :=
    Field.sound (by decide) (JsonReader.reads_true (depth + 5))
  have hstatements : ast.lastField.Sound (depth + 6) :=
    Field.sound (by decide) (reads_itemArray (fun stmt _ => reads_statement stmt depth) (by decide))
  unfold AST.fields
  simp only [List.forall_mem_append, List.forall_mem_cons]
  refine ⟨⟨⟨⟨?_, ?_, ?_, ?_, ?_, ?_, ?_, hhr, List.forall_mem_nil _⟩, ?_⟩, ?_⟩, hstatements,
    List.forall_mem_nil _⟩
  iterate 7 exact hstring _ (by decide)
  · split
    · exact List.forall_mem_nil _
    · exact List.forall_mem_singleton.mpr (hstring _ (by decide))
  · split
    · exact List.forall_mem_singleton.mpr hrecovery
    · exact List.forall_mem_nil _

/-- A text that is put between quotes as it is. -/
def quotedText (s : Bytes) : Bytes := ascii "\"" ++ s ++ ascii "\""

def fallbackFields (timestamp : Bytes) (ast : AST) (plan : RecoveryPlan) : List Field :=
  [⟨"type", quotedText (ascii "FALLBACK"), .string (ascii "FALLBACK")⟩,
    ⟨"timestamp", quotedText timestamp, .string timestamp⟩,
    ⟨"original_reqid", stringValue ast.header.reqid, .string ast.header.reqid⟩,
    ⟨"agent", stringValue ast.header.agt, .string ast.header.agt⟩,
    ⟨"error_count", toDecimal plan.errorsFound, .number plan.errorsFound 0⟩,
    ⟨"recovery_status", quotedText plan.action.status, .string plan.action.status⟩,
    ⟨"statements_recovered", toDecimal plan.statementsRecovered, .number plan.statementsRecovered 0⟩,
    ⟨"statements_total", toDecimal plan.statementsTotal, .number plan.statementsTotal 0⟩,
    ⟨"diagnostic_messages",
      ascii "[\n" ++ itemLines (plan.errorDetails.map fun detail => ascii "    " ++ stringValue detail) ++
        (ascii "  " ++ ascii "]"),
      .array (plan.errorDetails.map .string)⟩,
    ⟨"recovered_statements",
      ascii "[\n" ++ itemLines (ast.statements.map recoveredText) ++ (ascii "  " ++ ascii "]"),
      .array (ast.statements.map Statement.recoveredJson)⟩,
    ⟨"next_action", quotedText (ascii "Submit corrected payload with errors fixed"),
      .string (ascii "Submit corrected payload with errors fixed")⟩]

def supportField : Field :=
  ⟨"support_link", quotedText (ascii "https://example.com/docs/fallback-recovery"),
    .string (ascii "https://example.com/docs/fallback-recovery")⟩

theorem generateFallbackJson_eq (timestamp : Bytes) (ast : AST) (plan : RecoveryPlan) :
    generateFallbackJson timestamp ast plan =
      linesText "  " "" (fallbackFields timestamp ast plan) supportField ++ ascii "\n" := by
  have hclose : ascii "\n\x7d\n" = ascii "\n" ++ (ascii "" ++ (ascii "\x7d" ++ ascii "\n")) := rfl
  have harray : ascii "  ]" = ascii "  " ++ ascii "]" := rfl
  have htype : ascii "\"FALLBACK\"" = quotedText (ascii "FALLBACK") := rfl
  have haction : ascii "\"Submit corrected payload with errors fixed\"" =
      quotedText (ascii "Submit corrected payload with errors fixed") := rfl
  have hlink : ascii "\"https://example.com/docs/fallback-recovery\"" =
      quotedText (ascii "https://example.com/docs/fallback-recovery") := rfl
  unfold generateFallbackJson linesText fallbackFields supportField Field.line
  rw [hclose, harray, htype, haction, hlink, ← quotedText, ← quotedText]
  simp only [List.flatMap_cons, List.flatMap_nil, List.append_assoc, List.nil_append]

/-- The time is printed in digits, dashes, colons and two letters. -/
theorem isPlainByte_timestamp {tm : BrokenDownTime} {c : UInt8} (h : c ∈ getIsoTimestamp tm) :
    isPlainByte c = true := by
  have hmarks := List.all_eq_true.mp (by decide : (ascii "-0TZ:").all isPlainByte = true)
  have htwo : ∀ {n : Nat} {c : UInt8}, c ∈ twoDigits n → isPlainByte c = true := by
    intro n c hc
    unfold twoDigits at hc
    split at hc
    · rcases List.mem_append.mp hc with hc | hc
      · exact hmarks c ((by decide : ascii "0" ⊆ ascii "-0TZ:") hc)
      · exact isPlainByte_natDecimal hc
    · exact isPlainByte_natDecimal hc
  have hyear : ∀ {n : Int} {c : UInt8}, c ∈ toDecimal n → isPlainByte c = true := by
    intro n c hc
    unfold toDecimal at hc
    split at hc
    · rcases List.mem_cons.mp hc with rfl | hc
      · decide
      · exact isPlainByte_natDecimal hc
    · exact isPlainByte_natDecimal hc
  unfold getIsoTimestamp at h
  simp only [List.mem_append] at h
  rcases h with (((((((((((h | h) | h) | h) | h) | h) | h) | h) | h) | h) | h) | h)
  · exact hyear h
  · exact hmarks c ((by decide : ascii "-" ⊆ ascii "-0TZ:") h)
  · exact htwo h
  · exact hmarks c ((by decide : ascii "-" ⊆ ascii "-0TZ:") h)
  · exact htwo h
  · exact hmarks c ((by decide : ascii "T" ⊆ ascii "-0TZ:") h)
  · exact htwo h
  · exact hmarks c ((by decide : ascii ":" ⊆ ascii "-0TZ:") h)
  · exact htwo h
  · exact hmarks c ((by decide : ascii ":" ⊆ ascii "-0TZ:") h)
  · exact htwo h
  · exact hmarks c ((by decide : ascii "Z" ⊆ ascii "-0TZ:") h)

theorem sound_fallbackFields {timestamp : Bytes} (hclock : timestamp.all isPlainByte = true)
    (ast : AST) (plan : RecoveryPlan) (depth : Nat) :
    ∀ f ∈ fallbackFields timestamp ast plan ++ [supportField], f.Sound (depth + 6) := by
  have hstring : ∀ {name : String} (s : Bytes), name ∈ fieldNames →
      Field.Sound (depth + 6) ⟨name, stringValue s, .string s⟩ :=
    fun s hname => ⟨hname, reads_stringValue s (depth + 5)⟩
  have hquoted : ∀ {name : String} {s : Bytes}, name ∈ fieldNames →
      s.all isPlainByte = true →
      Field.Sound (depth + 6) ⟨name, quotedText s, .string s⟩ :=
    fun hname hs => ⟨hname, reads_quoted (spells_self hs) (depth + 5)⟩
  have hnumber : ∀ {name : String} (n : Int), name ∈ fieldNames →
      Field.Sound (depth + 6) ⟨name, toDecimal n, .number n 0⟩ :=
    fun n hname => ⟨hname, reads_toDecimal n (depth + 5)⟩
  have hstatus : plan.action.status.all isPlainByte = true := by
    cases plan.action <;> decide
  have hindent : JsonReader.Gap (ascii "    ") := by decide
  have hmessages : IndentedItems (JsonReader.Reads (JsonReader.value (depth + 5)))
      (fun detail => ascii "    " ++ stringValue detail) JsonReader.Value.string plan.errorDetails :=
    fun detail _ => ⟨_, _, hindent, rfl, reads_stringValue detail (depth + 4)⟩
  unfold fallbackFields supportField
  simp only [List.forall_mem_append, List.forall_mem_cons]
  refine ⟨⟨hquoted ?_ ?_, hquoted ?_ hclock, hstring _ ?_, hstring _ ?_, hnumber _ ?_,
    hquoted ?_ hstatus, hnumber _ ?_, hnumber _ ?_, ?messages, ?statements, hquoted ?_ ?_,
    List.forall_mem_nil _⟩, hquoted ?_ ?_, List.forall_mem_nil _⟩
  case messages => exact Field.sound (by decide) (reads_itemArray hmessages (by decide))
  case statements =>
    exact Field.sound (by decide) (reads_itemArray (fun stmt _ => reads_recovered stmt (depth + 2)) (by decide))
  all_goals decide

/-- Both documents are one JSON object, with the content that was put in and no
other, for every content. -/
theorem json_documents_read (ast : AST) :
    JsonReader.read (toJson ast) = some ast.json ∧
      ∀ (tm : BrokenDownTime) (plan : RecoveryPlan),
        JsonReader.read (generateFallbackJson (getIsoTimestamp tm) ast plan) =
          some (fallbackJson (getIsoTimestamp tm) ast plan) := by
  have hindent : JsonReader.Gap (ascii "  ") := by decide
  constructor
  · rw [toJson_eq, json_ast]
    exact read_linesText ast.sound_fields hindent JsonReader.gap_nil
  · intro tm plan
    have hclock := List.all_eq_true.mpr fun c => @isPlainByte_timestamp tm c
    rw [generateFallbackJson_eq]
    exact read_linesText (sound_fallbackFields hclock ast plan) hindent
      JsonReader.gap_nil

end LlmTop
