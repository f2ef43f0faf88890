import LlmTop.Authorization
import LlmTop.BinaryHeader
import LlmTop.ParsedSizes

/-!
# Frames sent in the binary form

A frame parsed from its text, encoded, decoded and evaluated is decided as it
is where it was parsed.  The frame's own text does not travel, so the receiver
cannot check its digest.
-/
namespace LlmTop
open BinaryEncoder

theorem short_of_mem_strings {maxSize : Nat} (hsize : maxSize < 2 ^ 32) {payload : Bytes} {ast : AST}
    (hparse : parse .strict maxSize payload = .ok ast) {s : Bytes} (hs : s ∈ ast.strings) :
    Short s := by
  obtain ⟨hclean, -, rfl⟩ := parse_strict_eq_ok.mp hparse
  have hextent := (extent_readFrame maxSize payload).2 hclean
  have hlength := (readFrame_of_clean hclean).1
  exact Nat.lt_of_le_of_lt ((length_le_extent hs).trans (hextent.trans hlength)) hsize

theorem mem_strings_of_entry {m : OrderedMap} {entry : Bytes × Bytes} (h : entry ∈ m.data) :
    entry.1 ∈ m.strings ∧ entry.2 ∈ m.strings :=
  ⟨List.mem_flatMap.mpr ⟨entry, h, List.mem_cons_self⟩,
    List.mem_flatMap.mpr ⟨entry, h, List.mem_cons_of_mem _ List.mem_cons_self⟩⟩

theorem shortMap_of_strings {m : OrderedMap} (h : ∀ s ∈ m.strings, Short s) : ShortMap m :=
  fun _ hentry => ⟨h _ (mem_strings_of_entry hentry).1, h _ (mem_strings_of_entry hentry).2⟩

theorem shortTool_of_strings {tool : ToolCall} (h : ∀ s ∈ tool.strings, Short s) : ShortTool tool := by
  refine ⟨h _ List.mem_cons_self, shortMap_of_strings fun s hs => ?_, fun method hmethod => ?_⟩
  · exact h s (List.mem_cons_of_mem _ (List.mem_append_left _ hs))
  · exact h method (List.mem_cons_of_mem _ (List.mem_append_right _ (Option.mem_toList.mpr hmethod)))

theorem shortStatement_of_strings {stmt : Statement} (h : ∀ s ∈ stmt.strings, Short s) :
    ShortStatement stmt.role stmt.kvpairs stmt.toolCalls := by
  refine ⟨h _ List.mem_cons_self, shortMap_of_strings fun s hs => ?_, fun tool htool => ?_⟩
  · exact h s (List.mem_cons_of_mem _ (List.mem_append_left _ hs))
  · refine shortTool_of_strings fun s hs => h s (List.mem_cons_of_mem _ (List.mem_append_right _ ?_))
    exact List.mem_flatMap.mpr ⟨tool, htool, hs⟩

/-- The decoded header line is parsed back to the header it was written from. -/
theorem parseHeader_headerWords {line : Bytes} {h : Header} (hread : h = readHeader (headerTokens line))
    (hcomplete : h.complete = true) (hpos : 0 ≤ h.hr)
    (hclosed : ∀ word ∈ (headerWords h).dropLast, leavesOpen ' '.toUInt8 word = false) :
    parseHeader (spaced ' '.toUInt8 (headerWords h)) .strict [] = .ok (h, []) := by
  have htokens : headerTokens (spaced ' '.toUInt8 (headerWords h)) = headerWords h :=
    lexSplit_spaced (by decide) (by decide) (solid_headerWords hread) hclosed
  obtain ⟨hsame, hfaults⟩ := readHeader_headerWords hpos (hr_range hread).2
  refine parseHeader_strict_eq_ok.mpr ?_
  rw [htokens, hsame]
  exact ⟨hfaults, hcomplete, rfl⟩

/-- Without the digest check `evaluate` sees the header and the statements only. -/
theorem LLMTOPMiddleware.evaluate_unchecked {m : LLMTOPMiddleware} (hoff : m.verifyChk = false)
    (clock : Clock) {ast ast' : AST} (hheader : ast'.header = ast.header)
    (hstatements : ast'.statements = ast.statements) (hdraft : ast'.healedDraft = ast.healedDraft)
    (acceptHealed : Bool) :
    m.evaluate clock ast' acceptHealed = m.evaluate clock ast acceptHealed := by
  have hgate : m.gateError clock ast' acceptHealed = m.gateError clock ast acceptHealed := by
    unfold gateError
    rw [hheader, hdraft, hoff, Bool.false_and, Bool.false_and]
  have hbatches : m.checkBatches clock ast' acceptHealed = m.checkBatches clock ast acceptHealed := by
    unfold checkBatches batchesOf
    rw [hheader, hstatements, hdraft]
  unfold evaluate
  rw [hgate, hbatches, hheader]

/-- The receiver's frame: what was decoded, and some text for it. -/
def received (header : Header) (statements : List Statement) (rawFrame : Bytes) : AST :=
  { header := header, statements := statements, rawFrame := rawFrame }

/-- Whatever the strict parser accepts and the binary header can carry goes over the wire
whole and is decided there as it would have been at home. -/
theorem decided_over_wire {maxSize : Nat} (hsize : maxSize < 2 ^ 32) {payload : Bytes} {ast : AST}
    (hparse : parse .strict maxSize payload = .ok ast) (hpos : 0 ≤ ast.header.hr)
    (hclosed : ∀ word ∈ (headerWords ast.header).dropLast, leavesOpen ' '.toUInt8 word = false) :
    let buffer := ast.header.encode ++ encodeStatements ast.statements
    ∃ line pos header statements, decodeHeader buffer = .ok (line, pos) ∧
      parseHeader line .strict [] = .ok (header, []) ∧
      decodeStatements buffer ast.statements.length pos = .ok (statements, buffer.length) ∧
      ∀ (m : LLMTOPMiddleware) (clock : Clock) (rawFrame : Bytes) (acceptHealed : Bool),
        m.verifyChk = false →
          m.evaluate clock (received header statements rawFrame) acceptHealed =
            m.evaluate clock ast acceptHealed := by
  intro buffer
  have hshort : ∀ s ∈ ast.strings, Short s := fun s => short_of_mem_strings hsize hparse
  obtain ⟨-, line, -, -, hread, hcomplete⟩ := header_of_parse hparse
  have hstatements : ∀ stmt ∈ ast.statements,
      ShortStatement stmt.role stmt.kvpairs stmt.toolCalls := by
    intro stmt hstmt
    refine shortStatement_of_strings fun s hs => hshort s (List.mem_append_right _ ?_)
    exact List.mem_flatMap.mpr ⟨stmt, List.mem_append_left _ hstmt, hs⟩
  have hfields : ∀ s ∈ [ast.header.ver, ast.header.chk, ast.header.agt, ast.header.uid,
      ast.header.tim, ast.header.reqid, ast.header.fallback], Short s :=
    fun s hs => hshort s (List.mem_append_left _ hs)
  have hfirst : ∀ op ∈ (encodeStatements ast.statements).head?, 0x10 ≤ op := by
    cases ast.statements with
    | nil => exact nofun
    | cons stmt stmts =>
        intro op hop
        obtain rfl : Opcode.role.code = op := Option.some.inj hop
        decide
  have hdecode := @decodeHeader_encodeHeader _ _ _ _ _ _ _ (UInt32.ofInt ast.header.hr) hfields _
    hfirst
  rw [headerLine_eq] at hdecode
  refine ⟨_, _, ast.header, ast.statements, hdecode,
    parseHeader_headerWords hread hcomplete hpos hclosed,
    decodeStatements_encodeStatements hstatements ast.header.encode, ?_⟩
  intro m clock rawFrame acceptHealed hoff
  have hdraft : ast.healedDraft = [] := by
    obtain ⟨hclean, -, rfl⟩ := parse_strict_eq_ok.mp hparse
    exact (readFrame_clean hclean).1
  refine m.evaluate_unchecked hoff clock ?_ ?_ ?_ acceptHealed
  · rfl
  · rfl
  · exact hdraft.symm

/-- A granted frame is granted at the other end. -/
theorem decided_over_wire_granted :
    ∃ ast line pos header statements, parse .strict 1048576 grantedFrame = .ok ast ∧
      decodeHeader (ast.header.encode ++ encodeStatements ast.statements) = .ok (line, pos) ∧
      parseHeader line .strict [] = .ok (header, []) ∧
      ((exampleMiddleware proxyGrants).evaluate (fun _ => 0) (received header statements [])
        false).1.authorized = true := by
  have hrun : (parse .strict 1048576 grantedFrame).toOption.any (fun ast =>
      ((exampleMiddleware proxyGrants).evaluate (fun _ => 0) ast false).1.authorized &&
        decide (0 ≤ ast.header.hr) &&
        (headerWords ast.header).dropLast.all fun word => !leavesOpen ' '.toUInt8 word) = true := by
    decide +kernel
  obtain ⟨ast, hparse, h⟩ := exists_of_parse_any hrun
  simp only [Bool.and_eq_true, decide_eq_true_eq, List.all_eq_true, Bool.not_eq_true'] at h
  obtain ⟨line, pos, header, statements, hheader, hback, -, hsame⟩ :=
    decided_over_wire (by decide) hparse h.1.2 h.2
  refine ⟨ast, line, pos, header, statements, hparse, hheader, hback, ?_⟩
  rw [hsame _ _ [] false rfl]
  exact h.1.1

end LlmTop
