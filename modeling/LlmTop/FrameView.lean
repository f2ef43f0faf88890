import LlmTop.Segments

/-!
# What the parser sees of a frame

The header text and the lines of the body that are not blank.  Frames with the
same view are read alike in both modes, down to the text of the fault.
-/
namespace LlmTop
open Lib.Faults

def frameView (payload : Bytes) : Option (Bytes × List Bytes) :=
  (frameParts payload).map fun parts => (parts.1, contentLines parts.2)

/-- The header text with every leading continuation, and the content left. -/
def foldContent (headerLine : Bytes) (content : List Bytes) : Bytes × List Bytes :=
  (headerLine ++ (content.takeWhile isHeaderContinuation).flatMap (ascii " " ++ ·),
    content.dropWhile isHeaderContinuation)

theorem trim_eq_trimLine {line : Bytes} (h : '\n'.toUInt8 ∉ line) : trim line = trimLine line := by
  apply Lib.Search.trimBoth_congr
  intro c hc
  have hne : (c == '\n'.toUInt8) = false := beq_eq_false_iff_ne.mpr fun heq => h (heq ▸ hc)
  simp only [isTrimmed, isBlank, hne, Bool.or_false]
  cases c == ' '.toUInt8 <;> cases c == '\t'.toUInt8 <;> cases c == '\r'.toUInt8 <;> rfl

theorem contentLines_cons (line : Bytes) (rest : List Bytes) :
    contentLines (line :: rest) =
      if (trimLine line).isEmpty then contentLines rest else trimLine line :: contentLines rest := by
  rw [contentLines, List.map_cons, List.filter_cons]
  cases (trimLine line).isEmpty <;> rfl

/-- The fold sees the body as its content. -/
theorem foldHeader_content {rest : List Bytes} (h : ∀ line ∈ rest, '\n'.toUInt8 ∉ line)
    (headerLine : Bytes) :
    ((foldHeader headerLine rest).1, contentLines (foldHeader headerLine rest).2) =
      foldContent headerLine (contentLines rest) := by
  induction rest generalizing headerLine with
  | nil => simp [foldHeader, foldContent, contentLines]
  | cons line rest ih =>
      have hrest := ih fun l hl => h l (List.mem_cons_of_mem line hl)
      unfold foldHeader
      dsimp only
      rw [contentLines_cons, trim_eq_trimLine (h line List.mem_cons_self)]
      split_ifs with hblank hcont
      · exact hrest headerLine
      · rw [hrest, foldContent, foldContent, List.takeWhile_cons_of_pos hcont,
          List.dropWhile_cons_of_pos hcont, List.flatMap_cons]
        simp only [List.append_assoc]
      · rw [contentLines_cons, if_neg hblank, foldContent, List.takeWhile_cons_of_neg hcont,
          List.dropWhile_cons_of_neg hcont, List.flatMap_nil, List.append_nil]

theorem newline_notMem_lines {payload line : Bytes} (h : line ∈ lines payload) :
    '\n'.toUInt8 ∉ line := by
  intro hc
  have hline := Lib.Split.delim_of_mem_splitTerminated h _ hc
  exact absurd hline (by decide)

theorem frameView_eq (payload : Bytes) :
    frameView payload =
      match lines payload with
      | [] => none
      | line :: rest => some (foldContent (trimLine line) (contentLines rest)) := by
  have hplain : ∀ line ∈ lines payload, '\n'.toUInt8 ∉ line := fun _ => newline_notMem_lines
  unfold frameView frameParts
  revert hplain
  cases lines payload with
  | nil => exact fun _ => rfl
  | cons line rest =>
      intro hplain
      rw [Option.map_some, trim_eq_trimLine (hplain line List.mem_cons_self)]
      apply congrArg some
      exact foldHeader_content (fun l hl => hplain l (List.mem_cons_of_mem line hl)) _

/-! ## The run over the content -/

/-- `parseBodyLine` on a line that is trimmed and not blank. -/
def parseContentLine (b : Body) (line : Bytes) : Parse Body := do
  let b := b.flush line
  let cur ← parseLine b.cur line
  pure { b with cur := cur }

theorem foldlM_parseBodyLine (bodyLines : List Bytes) (b : Body) :
    bodyLines.foldlM parseBodyLine b = (contentLines bodyLines).foldlM parseContentLine b := by
  induction bodyLines generalizing b with
  | nil => rfl
  | cons line rest ih =>
      rw [List.foldlM_cons, contentLines_cons, parseBodyLine]
      dsimp only
      split_ifs
      · rw [← ih b]
        rfl
      · rw [List.foldlM_cons]
        simp only [ih]
        rfl

/-- The outcome that a header text and a content have, whatever the frame. -/
def parseView (view : Bytes × List Bytes) (rawFrame : Bytes) : Parse AST := do
  let header ← parseHeader view.1
  let b ← view.2.foldlM parseContentLine {}
  pure {
    header := header
    statements := b.close.statements
    healedDraft := b.close.healedDraft
    recoveryAttempted := b.close.recoveryAttempted
    rawFrame := rawFrame }

theorem parseFrame_view {maxSize : Nat} {payload : Bytes} {view : Bytes × List Bytes}
    (hsize : payload.length ≤ maxSize) (hview : frameView payload = some view) :
    parseFrame maxSize payload = parseView view payload := by
  obtain ⟨parts, hparts, rfl⟩ := Option.map_eq_some_iff.mp hview
  rw [parseFrame_parts hsize hparts, parseView]
  simp only [foldlM_parseBodyLine]

theorem parseView_rawFrame (view : Bytes × List Bytes) (payload payload' : Bytes) (mode : Mode)
    (log : List Fault) :
    parseView view payload' mode log =
      (parseView view payload mode log).map
        fun out => ({ out.1 with rawFrame := payload' }, out.2) := by
  unfold parseView
  simp only [bind_apply]
  cases parseHeader view.1 mode log with
  | error fault => rfl
  | ok out =>
      dsimp only
      cases List.foldlM parseContentLine {} view.2 mode out.2 with
      | error fault => rfl
      | ok out => rfl

/-- Two frames with one view are one frame to the parser. -/
theorem parse_of_view {maxSize : Nat} {payload payload' : Bytes}
    (hview : frameView payload' = frameView payload) (hsize : payload.length ≤ maxSize)
    (hsize' : payload'.length ≤ maxSize) (mode : Mode) :
    parse mode maxSize payload' =
      (parse mode maxSize payload).map fun ast => { ast with rawFrame := payload' } := by
  have hframe : parseFrame maxSize payload' mode [] =
      (parseFrame maxSize payload mode []).map
        fun out => ({ out.1 with rawFrame := payload' }, out.2) := by
    cases hparts : frameView payload with
    | none =>
        rw [parseFrame_none hsize (Option.map_eq_none_iff.mp hparts),
          parseFrame_none hsize' (Option.map_eq_none_iff.mp (hview.trans hparts))]
        cases mode <;> rfl
    | some view =>
        rw [parseFrame_view hsize hparts, parseFrame_view hsize' (hview.trans hparts)]
        exact parseView_rawFrame view payload payload' mode []
  unfold parse
  rw [hframe]
  cases parseFrame maxSize payload mode [] with
  | error fault => rfl
  | ok out => rfl

end LlmTop
