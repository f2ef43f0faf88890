import LlmTop.Reading
import LlmTop.Lib.TextStream

/-!
# The stream under the parser

`parse` reads its lines from a stream: it looks one line ahead for header
continuations and goes back to a mark.  What it reads are the lines of the
payload, each once.
-/
namespace LlmTop
open Lib Lib.Faults

def isLineFeed (c : UInt8) : Bool := c == '\n'.toUInt8

/-- The loop over continuation lines: the header line, the last mark and the
stream where it stopped. -/
def foldLoop : Nat → Bytes → Option Nat → TextStream UInt8 →
    Bytes × Option Nat × TextStream UInt8
  | 0, headerLine, mark, stream => (headerLine, mark, stream)
  | fuel + 1, headerLine, mark, stream =>
      match stream.getline isLineFeed with
      | (none, stream) => (headerLine, mark, stream)
      | (some line, stream) =>
          let probe := trim line
          if probe.isEmpty then
            let (mark, stream) := stream.tellg
            foldLoop fuel headerLine mark stream
          else if isHeaderContinuation probe then
            let (mark, stream) := stream.tellg
            foldLoop fuel (headerLine ++ ascii " " ++ probe) mark stream
          else (headerLine, mark, stream)

/-- The header line, and the stream set back to the first line of the body. -/
def openFrame (payload : Bytes) : Option (Bytes × TextStream UInt8) :=
  match (⟨payload, 0, false, false⟩ : TextStream UInt8).getline isLineFeed with
  | (none, _) => none
  | (some line, stream) =>
      let (mark, stream) := stream.tellg
      let (headerLine, mark, stream) := foldLoop (payload.length + 1) (trim line) mark stream
      some (headerLine, stream.clear.seekg mark)

def bodyLoop : Nat → Body → TextStream UInt8 → Parse Body
  | 0, b, _ => pure b
  | fuel + 1, b, stream =>
      match stream.getline isLineFeed with
      | (none, _) => pure b
      | (some line, stream) => do
          let b ← parseBodyLine b line
          bodyLoop fuel b stream

def parseStream (maxSize : Nat) (payload : Bytes) : Parse AST := do
  if maxSize < payload.length then
    report .oversize
    pure {}
  else
    match openFrame payload with
    | none =>
        report .emptyPayload
        pure { rawFrame := payload }
    | some (headerLine, stream) =>
        let header ← parseHeader headerLine
        let b ← bodyLoop (payload.length + 1) {} stream
        let b := b.close
        pure {
          header := header
          statements := b.statements
          healedDraft := b.healedDraft
          recoveryAttempted := b.recoveryAttempted
          rawFrame := payload }

/-! ## What is read -/

/-- The lines that the body loop will read. -/
def unread (stream : TextStream UInt8) : List Bytes := stream.pending isLineFeed

theorem unread_start (payload : Bytes) : unread ⟨payload, 0, false, false⟩ = lines payload := rfl

/-- The next line of a stream that has one. -/
theorem getline_of_unread {stream : TextStream UInt8} {line : Bytes} {rest : List Bytes}
    (h : unread stream = line :: rest) :
    ∃ next, stream.getline isLineFeed = (some line, next) ∧ unread next = rest ∧
      next.text = stream.text := by
  obtain ⟨hhead, htail, htext⟩ := TextStream.getline_pending isLineFeed stream
  change stream.pending isLineFeed = line :: rest at h
  rw [h] at hhead htail
  exact ⟨_, Prod.ext hhead rfl, htail, htext⟩

theorem getline_of_read {stream : TextStream UInt8} (h : unread stream = []) :
    ∃ next, stream.getline isLineFeed = (none, next) ∧ next.text = stream.text := by
  obtain ⟨hhead, -, htext⟩ := TextStream.getline_pending isLineFeed stream
  change stream.pending isLineFeed = [] at h
  rw [h] at hhead
  exact ⟨_, Prod.ext hhead rfl, htext⟩

/-- From a mark on, the loop folds what `foldHeader` folds, and going back to
the last mark leaves the lines it did not fold. -/
theorem foldLoop_eq (fuel : Nat) (headerLine : Bytes) {marked : TextStream UInt8}
    (hpos : marked.pos ≤ marked.text.length) (hfuel : (unread marked).length < fuel) :
    let out := foldLoop fuel headerLine marked.tellg.1 marked.tellg.2
    (out.1, unread (out.2.2.clear.seekg out.2.1)) = foldHeader headerLine (unread marked) := by
  induction fuel generalizing headerLine marked with
  | zero => exact absurd hfuel (Nat.not_lt_zero _)
  | succ fuel ih =>
      have hsame : unread marked.tellg.2 = unread marked := TextStream.pending_tellg isLineFeed marked
      have htext := TextStream.text_tellg marked
      have hback : ∀ later : TextStream UInt8, later.text = marked.text →
          unread (later.clear.seekg marked.tellg.1) = unread marked := by
        intro later hlater
        exact TextStream.pending_seekg isLineFeed hlater hpos
      rw [foldLoop]
      cases hunread : unread marked with
      | nil =>
          obtain ⟨next, hnext, hlast⟩ := getline_of_read (hsame.trans hunread)
          rw [hnext]
          dsimp only
          rw [hback next (hlast.trans htext), hunread, foldHeader]
      | cons line rest =>
          obtain ⟨next, hnext, hrest, hlater⟩ := getline_of_unread (hsame.trans hunread)
          have hlong : (unread next).length < fuel := by
            rw [hunread, List.length_cons] at hfuel
            rw [hrest]
            omega
          have hinside : next.pos ≤ next.text.length := by
            have hread := TextStream.pos_getline isLineFeed (s := marked.tellg.2)
              (by rw [TextStream.pos_tellg, htext]; exact hpos)
            rw [hnext] at hread
            rwa [hlater]
          rw [hnext, foldHeader]
          dsimp only
          split_ifs
          · rw [← hrest]
            exact ih headerLine hinside hlong
          · rw [← hrest]
            exact ih _ hinside hlong
          · rw [hback next (hlater.trans htext), hunread]

/-- Behind the first line of a payload that has one. -/
theorem getline_first {payload line : Bytes} {rest : List Bytes} (hlines : lines payload = line :: rest) :
    ∃ next, (⟨payload, 0, false, false⟩ : TextStream UInt8).getline isLineFeed = (some line, next) ∧
      unread next = rest ∧ rest.length < payload.length ∧ next.pos ≤ next.text.length := by
  obtain ⟨next, hnext, hrest, htext⟩ := getline_of_unread ((unread_start payload).trans hlines)
  have hcard : (lines payload).length ≤ payload.length := Split.card_splitTerminated_le _ payload
  rw [hlines, List.length_cons] at hcard
  have hread := TextStream.pos_getline isLineFeed (s := ⟨payload, 0, false, false⟩) (Nat.zero_le _)
  rw [hnext, ← htext] at hread
  exact ⟨next, hnext, hrest, hcard, hread⟩

theorem openFrame_eq (payload : Bytes) :
    (openFrame payload).map (fun parts => (parts.1, unread parts.2)) = frameParts payload := by
  unfold openFrame frameParts
  cases hlines : lines payload with
  | nil =>
      obtain ⟨next, hnext, -⟩ := getline_of_read ((unread_start payload).trans hlines)
      rw [hnext]
      rfl
  | cons line rest =>
      obtain ⟨next, hnext, hrest, hfew, hinside⟩ := getline_first hlines
      have hfuel : (unread next).length < payload.length + 1 := by
        rw [hrest]
        exact Nat.lt_succ_of_lt hfew
      rw [hnext]
      dsimp only
      rw [Option.map_some, ← hrest]
      exact congrArg some (foldLoop_eq _ (trim line) hinside hfuel)

theorem bodyLoop_eq (fuel : Nat) (b : Body) {stream : TextStream UInt8}
    (hfuel : (unread stream).length < fuel) :
    bodyLoop fuel b stream = (unread stream).foldlM parseBodyLine b := by
  induction fuel generalizing b stream with
  | zero => exact absurd hfuel (Nat.not_lt_zero _)
  | succ fuel ih =>
      rw [bodyLoop]
      cases hunread : unread stream with
      | nil =>
          obtain ⟨next, hnext, -⟩ := getline_of_read hunread
          rw [hnext]
          rfl
      | cons line rest =>
          obtain ⟨next, hnext, hrest, -⟩ := getline_of_unread hunread
          have hlong : (unread next).length < fuel := by
            rw [hunread, List.length_cons] at hfuel
            rw [hrest]
            omega
          rw [hnext, List.foldlM_cons]
          apply congrArg (parseBodyLine b line >>= ·)
          funext b'
          rw [ih b' hlong, hrest]

/-- The body is what the fold leaves at the end. -/
theorem foldHeader_suffix (headerLine : Bytes) (rest : List Bytes) :
    (foldHeader headerLine rest).2 <:+ rest := by
  induction rest generalizing headerLine with
  | nil => exact List.suffix_refl []
  | cons line rest ih =>
      unfold foldHeader
      dsimp only
      split_ifs
      · exact (ih _).trans (List.suffix_cons line rest)
      · exact (ih _).trans (List.suffix_cons line rest)
      · exact List.suffix_refl _

theorem frameParts_suffix {payload : Bytes} {parts : Bytes × List Bytes}
    (h : frameParts payload = some parts) : parts.2 <:+ lines payload := by
  obtain ⟨line, rest, hlines, rfl⟩ := lines_of_frameParts h
  rw [hlines]
  exact (foldHeader_suffix (trim line) rest).trans (List.suffix_cons line rest)

/-- The loop over the body has fuel enough. -/
theorem length_body_lt {payload : Bytes} {parts : Bytes × List Bytes}
    (h : frameParts payload = some parts) : parts.2.length < payload.length + 1 :=
  Nat.lt_succ_of_le ((frameParts_suffix h).length_le.trans (Split.card_splitTerminated_le _ payload))

/-- The parser over the stream is the parser over the lines. -/
theorem parseStream_eq (maxSize : Nat) (payload : Bytes) :
    parseStream maxSize payload = parseFrame maxSize payload := by
  have hopen := openFrame_eq payload
  have hbody := @length_body_lt payload
  unfold parseStream parseFrame
  unfold frameParts at hopen hbody
  split
  · rfl
  · cases hlines : lines payload with
    | nil =>
        rw [hlines] at hopen
        rw [Option.map_eq_none_iff.mp hopen]
    | cons line rest =>
        rw [hlines] at hopen hbody
        obtain ⟨parts, hparts, hfold⟩ := Option.map_eq_some_iff.mp hopen
        have hfew : (unread parts.2).length < payload.length + 1 := hbody (congrArg some hfold.symm)
        rw [hparts]
        dsimp only
        rw [← hfold, bodyLoop_eq _ _ hfew]

end LlmTop
