import LlmTop.HeaderFolding
import LlmTop.StatementKeys

/-!
# A line in its place

The strict parse read off the view of a frame, piece by piece of its body, and
what is the same for every line that stands in one place of the body.
-/
namespace LlmTop
open Lib Lib.Faults

/-! ## Accepted views -/

/-- Nothing in the frame is objected to, and no required field is missing. -/
structure CleanView (view : Bytes × List Bytes) : Prop where
  header : tokensFaults (headerTokens view.1) = []
  complete : (readHeader (headerTokens view.1)).complete = true
  pieces : ∀ piece ∈ Split.pieces isRoleLine view.2,
    faultsAlong lineStatement lineFaults .empty piece = []

def viewAst (view : Bytes × List Bytes) (payload : Bytes) : AST where
  header := readHeader (headerTokens view.1)
  statements := (groupsOf view.2).map groupStatement
  rawFrame := payload

/-- A piece is read without a fault when each of its lines is and no key comes
twice. -/
theorem piece_clean_iff {piece : List Bytes} :
    faultsAlong lineStatement lineFaults .empty piece = [] ↔
      (∀ line ∈ piece, lineDrops line = false ∧ lineRepaired line = false) ∧
        (piece.flatMap lineKeys).Nodup := by
  have hsegment := @Segment.faults_eq_nil ⟨piece, false⟩
  unfold Segment.faults Segment.drops Segment.repaired at hsegment
  rw [hsegment, Bool.or_eq_false_iff, List.any_eq_false, List.any_eq_false]
  simp only [Bool.not_eq_true, Bool.not_eq_false', decide_eq_true_eq]
  constructor
  · rintro ⟨hdrops, hrepaired, hkeys⟩
    exact ⟨fun line hline => ⟨hdrops line hline, hrepaired line hline⟩, hkeys⟩
  · rintro ⟨hlines, hkeys⟩
    exact ⟨fun line hline => (hlines line hline).1, fun line hline => (hlines line hline).2, hkeys⟩

theorem readFrame_view {maxSize : Nat} {payload : Bytes} {view : Bytes × List Bytes}
    (hsize : payload.length ≤ maxSize) (hview : frameView payload = some view) :
    (readFrame maxSize payload).1.header = readHeader (headerTokens view.1) ∧
      (readFrame maxSize payload).1.rawFrame = payload ∧
      ((readFrame maxSize payload).2 = [] ↔ tokensFaults (headerTokens view.1) = [] ∧
        ∀ piece ∈ Split.pieces isRoleLine view.2,
          faultsAlong lineStatement lineFaults .empty piece = []) := by
  obtain ⟨parts, hparts, rfl⟩ := Option.map_eq_some_iff.mp hview
  rw [readFrame_parts hsize hparts]
  refine ⟨rfl, rfl, ?_⟩
  dsimp only
  rw [partsFaults, faultsAlong_bodyNext, log_run _ (Or.inr rfl), List.append_eq_nil_iff,
    List.append_eq_nil_iff, List.flatMap_eq_nil_iff, Split.pieces, List.forall_mem_cons]

theorem bodyContent_view {maxSize : Nat} {payload : Bytes} {view : Bytes × List Bytes}
    (hsize : payload.length ≤ maxSize) (hview : frameView payload = some view) :
    bodyContent maxSize payload = view.2 := by
  obtain ⟨parts, hparts, rfl⟩ := Option.map_eq_some_iff.mp hview
  exact bodyContent_parts hsize hparts

/-- What the strict parser accepts, and as what. -/
theorem parse_strict_view {maxSize : Nat} {payload : Bytes} {view : Bytes × List Bytes}
    (hsize : payload.length ≤ maxSize) (hview : frameView payload = some view) {ast : AST} :
    parse .strict maxSize payload = .ok ast ↔ CleanView view ∧ ast = viewAst view payload := by
  obtain ⟨hheader, hraw, hfaults⟩ := readFrame_view hsize hview
  rw [parse_strict_eq_ok, hfaults, hheader]
  have hast : (readFrame maxSize payload).2 = [] →
      (readFrame maxSize payload).1.header.complete = true →
        (readFrame maxSize payload).1 = viewAst view payload := by
    intro hclean hcomplete
    have hparse := parse_strict_eq_ok.mpr ⟨hclean, hcomplete, rfl⟩
    have hstatements := strict_statements hparse
    obtain ⟨hdraft, hrecovery⟩ := readFrame_clean hclean
    have hdiagnostic := readFrame_diagnostic maxSize payload
    rw [statementGroups, bodyContent_view hsize hview] at hstatements
    generalize (readFrame maxSize payload).1 = out at *
    obtain ⟨header, statements, healedDraft, diagnostic, recoveryAttempted, rawFrame⟩ := out
    simp only at hheader hraw hstatements hdraft hrecovery hdiagnostic
    rw [hheader, hraw, hstatements, hdraft, hrecovery, hdiagnostic]
    rfl
  constructor
  · rintro ⟨⟨htokens, hpieces⟩, hcomplete, rfl⟩
    refine ⟨⟨htokens, hcomplete, hpieces⟩, ?_⟩
    apply hast (hfaults.mpr ⟨htokens, hpieces⟩)
    rw [hheader, hcomplete]
  · rintro ⟨hclean, rfl⟩
    refine ⟨⟨hclean.header, hclean.pieces⟩, hclean.complete, ?_⟩
    symm
    apply hast (hfaults.mpr ⟨hclean.header, hclean.pieces⟩)
    rw [hheader, hclean.complete]

/-! ## Places -/

/-- Where a line stands in a frame: lines in front of it, the header with them,
blanks around it, and the lines behind it, if it is not the last. -/
structure Place where
  front : Bytes
  indent : Bytes
  trailing : Bytes
  back : Option Bytes
  blank : ∀ c ∈ indent ++ trailing, isBlank c = true

namespace Place

variable (place : Place)

def frame (line : Bytes) : Bytes :=
  place.front ++ '\n'.toUInt8 ::
    frameText [place.indent ++ (line ++ place.trailing)] place.back

/-- The content behind the line. -/
def after : List Bytes := contentLines (lines (place.back.getD []))

/-- The part of it that belongs to the statement of the line. -/
def rest : List Bytes := place.after.takeWhile (!isRoleLine ·)

end Place

/-- A line that the parser takes as it stands, and that opens no header line. -/
structure BodyLine (line : Bytes) : Prop where
  kept : Kept isBlank line
  newline : '\n'.toUInt8 ∉ line
  body : isHeaderContinuation line = false

theorem trimLine_padded {indent line trailing : Bytes} (hline : Kept isBlank line)
    (hblank : ∀ c ∈ indent ++ trailing, isBlank c = true) :
    trimLine (indent ++ (line ++ trailing)) = line := by
  obtain ⟨hindent, htrailing⟩ := List.forall_mem_append.mp hblank
  have hfront : indent.dropWhile isBlank = [] := List.dropWhile_eq_nil_iff.mpr hindent
  have hback : trailing.rdropWhile isBlank = [] := List.rdropWhile_eq_nil_iff.mpr htrailing
  rw [trimLine, Search.trimBoth_core indent trailing hline.head hline.last, hfront, hback,
    List.nil_append, List.append_nil]

theorem foldContent_stop {line : Bytes} (hline : isHeaderContinuation line = false)
    (headerLine : Bytes) (content after : List Bytes) :
    foldContent headerLine (content ++ line :: after) =
      ((foldContent headerLine content).1, (foldContent headerLine content).2 ++ line :: after) := by
  induction content generalizing headerLine with
  | nil =>
      have hnot : ¬isHeaderContinuation line = true := Bool.eq_false_iff.mp hline
      rw [List.nil_append, foldContent, List.takeWhile_cons_of_neg hnot, List.dropWhile_cons_of_neg hnot]
      rfl
  | cons first content ih =>
      unfold foldContent at ih ⊢
      by_cases hfirst : isHeaderContinuation first = true
      · have hrest := Prod.mk.inj (ih [])
        rw [List.nil_append, List.nil_append] at hrest
        rw [List.cons_append, List.takeWhile_cons_of_pos hfirst, List.takeWhile_cons_of_pos hfirst,
          List.dropWhile_cons_of_pos hfirst, List.dropWhile_cons_of_pos hfirst, List.flatMap_cons,
          List.flatMap_cons, hrest.1, hrest.2]
      · rw [List.cons_append, List.takeWhile_cons_of_neg hfirst, List.takeWhile_cons_of_neg hfirst,
          List.dropWhile_cons_of_neg hfirst, List.dropWhile_cons_of_neg hfirst]
        rfl

theorem contentLines_padded {indent line trailing : Bytes} (hline : Kept isBlank line)
    (hblank : ∀ c ∈ indent ++ trailing, isBlank c = true) :
    contentLines [indent ++ (line ++ trailing)] = [line] := by
  have hne : ¬line.isEmpty = true := by simpa using hline.ne_nil
  rw [contentLines_cons, trimLine_padded hline hblank, if_neg hne]
  rfl

/-- One header and one content around the place, whatever line stands there. -/
theorem Place.exists_view (place : Place) :
    ∃ header before, ∀ line, BodyLine line →
      frameView (place.frame line) = some (header, before ++ line :: place.after) := by
  obtain ⟨gap, -, hcut⟩ := @Split.splitTerminated_append_delim _ (· == '\n'.toUInt8) '\n'.toUInt8
    (by decide) place.front
  have hne : lines place.front ++ gap ≠ [] := by
    intro hnil
    have hlast := hcut []
    rw [Split.splitTerminated_nil, List.append_nil] at hlast
    have hempty := Split.splitTerminated_eq_nil.mp (hlast.trans hnil)
    exact absurd hempty (List.append_ne_nil_of_right_ne_nil _ (List.cons_ne_nil _ _))
  obtain ⟨first, more, hfirst⟩ := List.exists_cons_of_ne_nil hne
  refine ⟨(foldContent (trimLine first) (contentLines more)).1,
    (foldContent (trimLine first) (contentLines more)).2, ?_⟩
  intro line hline
  have hplain : '\n'.toUInt8 ∉ place.indent ++ (line ++ place.trailing) := by
    have hblank : '\n'.toUInt8 ∉ place.indent ++ place.trailing := by
      intro hc
      exact absurd (place.blank _ hc) (by decide)
    rw [List.mem_append, not_or] at hblank ⊢
    rw [List.mem_append, not_or]
    exact ⟨hblank.1, hline.newline, hblank.2⟩
  have hlines : lines (place.frame line) = first :: (more ++
      lines (frameText [place.indent ++ (line ++ place.trailing)] place.back)) := by
    rw [← List.cons_append, ← hfirst, List.append_assoc]
    exact hcut _
  have hcontent := contentLines_frameText (List.cons_ne_nil _ []) (List.forall_mem_singleton.mpr hplain)
    place.back
  rw [contentLines_padded hline.kept place.blank] at hcontent
  rw [frameView_eq, hlines]
  dsimp only
  rw [contentLines_append, hcontent, List.singleton_append, foldContent_stop hline.body]
  rfl

/-! ## Groups around a line -/

theorem groupsOf_eq (content : List Bytes) :
    groupsOf content = if contributes (Split.cutBefore isRoleLine content).1
      then Split.pieces isRoleLine content else (Split.cutBefore isRoleLine content).2 := rfl

/-- A role line ends the groups in front of it. -/
theorem groupsOf_role {line : Bytes} (hrole : isRoleLine line = true) (before after : List Bytes) :
    groupsOf (before ++ line :: after) = groupsOf before ++
      (line :: (Split.cutBefore isRoleLine after).1) :: (Split.cutBefore isRoleLine after).2 := by
  have hpieces := Split.pieces_start hrole before after
  obtain ⟨hlead, hgroups⟩ := List.cons.inj hpieces
  rw [groupsOf_eq, groupsOf_eq, hpieces, hlead, hgroups]
  split_ifs <;> rfl

theorem isRoleLine_of_tool {line : Bytes} (htool : isToolLine line = true) : isRoleLine line = false := by
  cases hrole : isRoleLine line with
  | false => rfl
  | true =>
      rw [isToolLine_of_role hrole] at htool
      contradiction

/-- A tool line joins the last group in front of it, or makes one of the lead. -/
theorem groupsOf_tool (before after : List Bytes) :
    ∃ front last, ∀ line, isToolLine line = true → groupsOf (before ++ line :: after) = front ++
      (last ++ line :: (Split.cutBefore isRoleLine after).1) :: (Split.cutBefore isRoleLine after).2 := by
  obtain ⟨front, last, hpieces⟩ := Split.pieces_inside isRoleLine before after
  cases front with
  | nil =>
      refine ⟨[], last, ?_⟩
      intro line htool
      have hline := hpieces line (isRoleLine_of_tool htool)
      obtain ⟨hlead, -⟩ := List.cons.inj hline
      have hcounts : contributes (last ++ line :: (Split.cutBefore isRoleLine after).1) = true := by
        simp [contributes, htool]
      rw [groupsOf_eq, hlead, if_pos hcounts, hline]
  | cons lead front =>
      by_cases hcounts : contributes lead = true
      · refine ⟨lead :: front, last, ?_⟩
        intro line htool
        have hline := hpieces line (isRoleLine_of_tool htool)
        obtain ⟨hlead, -⟩ := List.cons.inj hline
        rw [groupsOf_eq, hlead, if_pos hcounts, hline]
      · refine ⟨front, last, ?_⟩
        intro line htool
        have hline := hpieces line (isRoleLine_of_tool htool)
        obtain ⟨hlead, hgroups⟩ := List.cons.inj hline
        rw [groupsOf_eq, hlead, if_neg hcounts, hgroups]
        rfl

theorem groupStatement_tool {line : Bytes} (htool : isToolLine line = true) (front back : List Bytes) :
    groupStatement (front ++ line :: back) =
      { groupStatement (front ++ back) with
        toolCalls := groupCalls front ++ toolOf (closeQuote line) :: groupCalls back } := by
  have hrole : groupRole (front ++ line :: back) = groupRole (front ++ back) := by
    unfold groupRole
    rw [List.find?_append, List.find?_append, List.find?_cons_of_neg (by simp [isRoleLine_of_tool htool])]
  have hpairs : groupPairs (front ++ line :: back) = groupPairs (front ++ back) := by
    unfold groupPairs
    rw [List.filter_append, List.filter_append, List.filter_cons_of_neg (by simp [htool])]
  have hcalls : groupCalls (front ++ line :: back) =
      groupCalls front ++ toolOf (closeQuote line) :: groupCalls back := by
    unfold groupCalls
    rw [List.filter_append, List.filter_cons_of_pos htool, List.map_append, List.map_cons]
  unfold groupStatement
  rw [hrole, hpairs, hcalls]

theorem groupStatement_role {line : Bytes} (hrole : isRoleLine line = true) (back : List Bytes) :
    groupStatement (line :: back) =
      ⟨roleOf line, OrderedMap.ofPairs (groupPairs [line] ++ groupPairs back), groupCalls back⟩ := by
  have hpairs : groupPairs (line :: back) = groupPairs [line] ++ groupPairs back := by
    unfold groupPairs
    rw [← List.singleton_append, List.filter_append, List.flatMap_append, List.filterMap_append]
  have hcalls : groupCalls (line :: back) = groupCalls back := by
    unfold groupCalls
    rw [List.filter_cons_of_neg (by simp [isToolLine_of_role hrole])]
  unfold groupStatement
  rw [hpairs, hcalls, groupRole, List.find?_cons_of_pos hrole]
  rfl

/-- The keys of a role line and of the lines behind it. -/
theorem keysOf_groupPairs_cons (line : Bytes) (back : List Bytes) :
    keysOf (groupPairs [line] ++ groupPairs back) = lineKeys line ++ back.flatMap lineKeys := by
  have hline : keysOf (groupPairs [line]) = lineKeys line := by
    rw [keysOf_groupPairs, List.flatMap_singleton]
  unfold keysOf at hline ⊢
  rw [List.map_append, hline]
  exact congrArg (lineKeys line ++ ·) (keysOf_groupPairs back)

theorem nodup_keys_cons {line : Bytes} {back : List Bytes} (hline : (keysOf (groupPairs [line])).Nodup)
    (hback : (keysOf (groupPairs back)).Nodup)
    (hfresh : ∀ key ∈ keysOf (groupPairs [line]), ∀ other ∈ back, key ∉ lineKeys other) :
    (keysOf (groupPairs [line] ++ groupPairs back)).Nodup := by
  unfold keysOf at hline ⊢
  rw [List.map_append, List.nodup_append]
  refine ⟨hline, hback, ?_⟩
  intro key hkey other hother heq
  change other ∈ keysOf (groupPairs back) at hother
  rw [keysOf_groupPairs] at hother
  obtain ⟨l, hl, hmem⟩ := List.mem_flatMap.mp hother
  exact hfresh key hkey l hl (heq ▸ hmem)

/-! ## The line replaced -/

/-- A line that no statement objects to on its own account. -/
structure SoundLine (line : Bytes) : Prop where
  body : BodyLine line
  quotes : quoteOpen line = false
  drops : lineDrops line = false
  repaired : lineRepaired line = false

/-- A tool line has no keys: the other lines of its piece do not notice it. -/
theorem piece_clean_tool {line : Bytes} (htool : isToolLine line = true) (front back : List Bytes) :
    faultsAlong lineStatement lineFaults .empty (front ++ line :: back) = [] ↔
      (lineDrops line = false ∧ lineRepaired line = false) ∧
        faultsAlong lineStatement lineFaults .empty (front ++ back) = [] := by
  have hkeys : lineKeys line = [] := by
    rw [lineKeys, lineTokens_of_tool htool]
    rfl
  rw [piece_clean_iff, piece_clean_iff, List.forall_mem_append, List.forall_mem_cons,
    List.forall_mem_append, List.flatMap_append, List.flatMap_cons, hkeys, List.nil_append,
    List.flatMap_append]
  constructor
  · rintro ⟨⟨hfront, hline, hback⟩, hdistinct⟩
    exact ⟨hline, ⟨hfront, hback⟩, hdistinct⟩
  · rintro ⟨hline, ⟨hfront, hback⟩, hdistinct⟩
    exact ⟨⟨hfront, hline, hback⟩, hdistinct⟩

theorem piece_clean_cons (line : Bytes) (back : List Bytes) :
    faultsAlong lineStatement lineFaults .empty (line :: back) = [] ↔
      ((lineDrops line = false ∧ lineRepaired line = false) ∧
          ∀ other ∈ back, lineDrops other = false ∧ lineRepaired other = false) ∧
        (keysOf (groupPairs [line] ++ groupPairs back)).Nodup := by
  rw [piece_clean_iff, List.forall_mem_cons, List.flatMap_cons, keysOf_groupPairs_cons]

theorem statements_tool (before after : List Bytes) :
    ∃ (front : List Statement) (last : List Bytes), ∀ line : Bytes, SoundLine line →
      isToolLine line = true → (groupsOf (before ++ line :: after)).map groupStatement =
        front ++ { groupStatement (last ++ (Split.cutBefore isRoleLine after).1) with
          toolCalls := groupCalls last ++ toolOf line ::
            groupCalls (Split.cutBefore isRoleLine after).1 } ::
          (Split.cutBefore isRoleLine after).2.map groupStatement := by
  obtain ⟨front, last, hgroups⟩ := groupsOf_tool before after
  refine ⟨front.map groupStatement, last, fun line hline htool => ?_⟩
  rw [hgroups line htool, List.map_append, List.map_cons, groupStatement_tool htool,
    closeQuote_closed hline.quotes]

theorem statements_role {line : Bytes} (hrole : isRoleLine line = true) (before after : List Bytes) :
    (groupsOf (before ++ line :: after)).map groupStatement =
      (groupsOf before).map groupStatement ++
        ⟨roleOf line,
          OrderedMap.ofPairs (groupPairs [line] ++ groupPairs (Split.cutBefore isRoleLine after).1),
          groupCalls (Split.cutBefore isRoleLine after).1⟩ ::
        (Split.cutBefore isRoleLine after).2.map groupStatement := by
  rw [groupsOf_role hrole, List.map_append, List.map_cons, groupStatement_role hrole]

variable {place : Place} {maxSize : Nat} {bare line : Bytes} {ast : AST}

/-- A sound tool line in the place of another: its statement has the one call
for the other, and nothing else is changed. -/
theorem Place.replace_tool (hbare : SoundLine bare) (hline : SoundLine line)
    (htool : isToolLine bare = true) (htool' : isToolLine line = true)
    (hsize : (place.frame line).length ≤ maxSize)
    (h : parse .strict maxSize (place.frame bare) = .ok ast) :
    ∃ before stmt after calls later, ast.statements = before ++ stmt :: after ∧
      stmt.toolCalls = calls ++ toolOf bare :: later ∧
      parse .strict maxSize (place.frame line) = .ok { ast with
        rawFrame := place.frame line
        statements := before ++ { stmt with toolCalls := calls ++ toolOf line :: later } :: after } := by
  obtain ⟨header, before, hview⟩ := place.exists_view
  rw [parse_strict_view (header_of_parse h).1 (hview bare hbare.body)] at h
  obtain ⟨hclean, rfl⟩ := h
  obtain ⟨front, last, hstatements⟩ := statements_tool before place.after
  obtain ⟨lead, group, hpieces⟩ := Split.pieces_inside isRoleLine before place.after
  refine ⟨front, _, _, _, _, hstatements bare hbare htool, rfl, ?_⟩
  rw [parse_strict_view hsize (hview line hline.body)]
  refine ⟨⟨hclean.header, hclean.complete, ?_⟩, ?_⟩
  · have hbarePieces := hclean.pieces
    dsimp only at hbarePieces ⊢
    rw [hpieces bare (isRoleLine_of_tool htool), List.forall_mem_append, List.forall_mem_cons,
      piece_clean_tool htool] at hbarePieces
    rw [hpieces line (isRoleLine_of_tool htool'), List.forall_mem_append, List.forall_mem_cons,
      piece_clean_tool htool']
    obtain ⟨hlead, ⟨-, hothers⟩, hgroup⟩ := hbarePieces
    exact ⟨hlead, ⟨⟨hline.drops, hline.repaired⟩, hothers⟩, hgroup⟩
  · unfold viewAst
    dsimp only
    rw [hstatements line hline htool']

/-- A sound role line in the place of one without pairs: its statement has the
pairs of the line in front of its own. -/
theorem Place.replace_role (hbare : SoundLine bare) (hline : SoundLine line)
    (hrole : isRoleLine bare = true) (hrole' : isRoleLine line = true)
    (hnone : groupPairs [bare] = []) (hdistinct : (keysOf (groupPairs [line])).Nodup)
    (hfresh : ∀ key ∈ keysOf (groupPairs [line]), ∀ other ∈ place.rest, key ∉ lineKeys other)
    (hsize : (place.frame line).length ≤ maxSize)
    (h : parse .strict maxSize (place.frame bare) = .ok ast) :
    ∃ before stmt after kvpairs, ast.statements = before ++ stmt :: after ∧
      stmt.role = roleOf bare ∧ kvpairs.data = groupPairs [line] ++ stmt.kvpairs.data ∧
      parse .strict maxSize (place.frame line) = .ok { ast with
        rawFrame := place.frame line
        statements := before ++ { stmt with role := roleOf line, kvpairs := kvpairs } :: after } := by
  obtain ⟨header, before, hview⟩ := place.exists_view
  rw [parse_strict_view (header_of_parse h).1 (hview bare hbare.body)] at h
  obtain ⟨hclean, rfl⟩ := h
  have hrest : (Split.cutBefore isRoleLine place.after).1 = place.rest :=
    Split.cutBefore_fst isRoleLine place.after
  have hstatements {l : Bytes} (hl : isRoleLine l = true) := statements_role hl before place.after
  rw [hrest] at hstatements
  have hpieces := hclean.pieces
  dsimp only at hpieces
  rw [Split.pieces_start hrole, hrest, List.forall_mem_append, List.forall_mem_cons, piece_clean_cons,
    hnone, List.nil_append] at hpieces
  obtain ⟨hlead, ⟨⟨-, hothers⟩, hown⟩, hgroups⟩ := hpieces
  have hall := nodup_keys_cons hdistinct hown hfresh
  refine ⟨(groupsOf before).map groupStatement, _, _,
    OrderedMap.ofPairs (groupPairs [line] ++ groupPairs place.rest), hstatements hrole, rfl, ?_, ?_⟩
  · dsimp only
    rw [hnone, List.nil_append, OrderedMap.data_ofPairs hown, OrderedMap.data_ofPairs hall]
  · rw [parse_strict_view hsize (hview line hline.body)]
    refine ⟨⟨hclean.header, hclean.complete, ?_⟩, ?_⟩
    · dsimp only
      rw [Split.pieces_start hrole', hrest, List.forall_mem_append, List.forall_mem_cons,
        piece_clean_cons]
      exact ⟨hlead, ⟨⟨⟨hline.drops, hline.repaired⟩, hothers⟩, hall⟩, hgroups⟩
    · unfold viewAst
      dsimp only
      rw [hstatements hrole']

end LlmTop
