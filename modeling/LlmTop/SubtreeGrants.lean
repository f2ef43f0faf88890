import LlmTop.ScopeMatching

/-!
# What a path grant covers

A granted `action:path` against a requested `action:path`: the exact path, its
children or its subtree.
-/
namespace LlmTop

open Lib.Wildcard

def scopeOf (action path : Bytes) : Bytes := action ++ ':'.toUInt8 :: path

/-! ## Words without wildcards -/

theorem scopePart_literal {word : Bytes} (hword : '*'.toUInt8 ∉ word) :
    scopePart word = .key word := by
  have hrest : word ≠ doubleStar := by
    rintro rfl
    exact absurd hword (by decide)
  have hany : word ≠ star := by
    rintro rfl
    exact absurd hword (by decide)
  rw [scopePart, PatternPart.ofWord, if_neg hrest, if_neg hany]

theorem scopePart_of_mem {word : Bytes} {c : UInt8} (hc : c ∈ word) (hstar : c ≠ '*'.toUInt8) :
    scopePart word = .key word := by
  have hall : ∀ wild ∈ [star, doubleStar], ∀ d ∈ wild, d = '*'.toUInt8 := by decide +kernel
  have hrest : word ≠ doubleStar := fun h => hstar (hall doubleStar (by simp) c (h ▸ hc))
  have hany : word ≠ star := fun h => hstar (hall star (by simp) c (h ▸ hc))
  rw [scopePart, PatternPart.ofWord, if_neg hrest, if_neg hany]

theorem mem_pushSegment {segments : List Bytes} {seg word : Bytes}
    (h : word ∈ pushSegment segments seg) : word ∈ segments ∨ word = seg := by
  unfold pushSegment at h
  split_ifs at h
  · exact Or.inl h
  · exact Or.inl (List.mem_of_mem_dropLast h)
  · exact (List.mem_append.mp h).imp_right List.mem_singleton.mp
  · exact (List.mem_append.mp h).imp_right List.mem_singleton.mp

theorem length_foldl_pushSegment (pieces segments : List Bytes) :
    (pieces.foldl pushSegment segments).length ≤ segments.length + pieces.length := by
  have hpush : ∀ segments seg, (pushSegment segments seg).length ≤ segments.length + 1 := by
    intro segments seg
    unfold pushSegment
    split_ifs <;> simp
    omega
  induction pieces generalizing segments with
  | nil => exact Nat.le_refl _
  | cons piece pieces ih =>
      have hone := hpush segments piece
      have hrest := ih (pushSegment segments piece)
      rw [List.foldl_cons, List.length_cons]
      omega

theorem length_foldl_inits {pieces front : List Bytes} (h : front ∈ pieces.inits) :
    (front.foldl pushSegment []).length ≤ pieces.length := by
  have hlength := ((List.mem_inits _ _).mp h).length_le
  have hpushed := length_foldl_pushSegment front []
  rw [List.length_nil, Nat.zero_add] at hpushed
  exact hpushed.trans hlength

theorem mem_foldl_pushSegment {pieces segments : List Bytes} {word : Bytes}
    (h : word ∈ pieces.foldl pushSegment segments) : word ∈ segments ∨ word ∈ pieces := by
  induction pieces generalizing segments with
  | nil => exact Or.inl h
  | cons piece pieces ih =>
      rcases ih h with hword | hword
      · rcases mem_pushSegment hword with hword | rfl
        · exact Or.inl hword
        · exact Or.inr List.mem_cons_self
      · exact Or.inr (List.mem_cons_of_mem piece hword)

/-- The segments of a path are made of its bytes. -/
theorem mem_of_mem_segmentViews {s seg : Bytes} (h : seg ∈ segmentViews s) :
    ∀ c ∈ seg, c ∈ s := by
  rcases mem_foldl_pushSegment h with hempty | hpiece
  · exact absurd hempty List.not_mem_nil
  · exact Lib.Split.mem_of_mem_splitTerminated hpiece

theorem segmentViews_literal {s : Bytes} (hs : '*'.toUInt8 ∉ s) {seg : Bytes}
    (h : seg ∈ segmentViews s) : '*'.toUInt8 ∉ seg :=
  fun hstar => hs (mem_of_mem_segmentViews h _ hstar)

theorem map_scopePart_literal {words : List Bytes} (h : ∀ word ∈ words, '*'.toUInt8 ∉ word) :
    words.map scopePart = words.map .key :=
  List.map_congr_left fun word hword => scopePart_literal (h word hword)

/-- A path without wildcards in front of more parts: the same segments in front. -/
theorem covers_path {s : Bytes} (hs : '*'.toUInt8 ∉ s) (parts : List (PatternPart Bytes))
    (target : List Bytes) :
    covers segmentMatches ((segmentViews s).map scopePart ++ parts) target = true ↔
      ∃ back, target = segmentViews s ++ back ∧ covers segmentMatches parts back = true := by
  have hwords := fun seg => @segmentViews_literal s hs seg
  rw [map_scopePart_literal hwords]
  exact covers_literals fun seg hseg => fun _ => segmentMatches_literal (hwords seg hseg)

/-! ## The action in front -/

/-- Every word of a pattern matches itself. -/
theorem segmentMatches_self (word : Bytes) : segmentMatches word word = true := by
  by_cases hstar : '*'.toUInt8 ∈ word
  · obtain ⟨before, after, rfl, hbefore⟩ := List.eq_append_cons_of_mem hstar
    apply (segmentMatches_star hbefore).mpr
    exact ⟨['*'.toUInt8], by rw [List.append_assoc, List.singleton_append]⟩
  · exact (segmentMatches_literal hstar).mpr rfl

theorem segmentGrants_iff {granted requested : Bytes} :
    segmentGrants granted requested = true ↔
      (isAbsolute granted = isAbsolute requested ∧
        covers segmentMatches ((segmentViews granted).map scopePart)
          (segmentViews requested) = true) ∧
        Fits kMaxPathSegments granted ∧ Fits kMaxPathSegments requested := by
  rw [segmentGrants_eq, naiveSegment_eq, Bool.and_eq_true, Bool.and_eq_true, beq_iff_eq,
    decide_eq_true_eq]

theorem segmentGrants_self (word : Bytes) :
    segmentGrants word word = true ↔ Fits kMaxPathSegments word := by
  have hviews : covers segmentMatches ((segmentViews word).map scopePart)
      (segmentViews word) = true :=
    covers_self.mpr fun seg _ _ => segmentMatches_self seg
  rw [segmentGrants_iff, and_iff_right ⟨rfl, hviews⟩, and_self_iff]

/-- The colon segments of the action that are compared are not too deep. -/
def ActionFits (action : Bytes) : Prop :=
  ∀ word ∈ (colonSegments action).takeWhile (· ≠ doubleStar),
    word ≠ star → Fits kMaxPathSegments word

/-- Behind a common action only what follows it is compared, unless the action
has a `**` of its own. -/
theorem scopeMatches_scopeOf (action granted requested : Bytes) :
    scopeMatches (scopeOf action granted) (scopeOf action requested) = true ↔
      ActionFits action ∧ (doubleStar ∈ colonSegments action ∨
        covers segmentGrants ((colonSegments granted).map scopePart)
          (colonSegments requested) = true) := by
  obtain ⟨gap, hgap, hsplit⟩ :=
    Lib.Split.splitTerminated_append_delim (show isColon ':'.toUInt8 = true from rfl) action
  have hrest : .rest ∈ (colonSegments action).map scopePart ↔ doubleStar ∈ colonSegments action := by
    rw [List.mem_map]
    constructor
    · rintro ⟨word, hword, hpart⟩
      unfold scopePart PatternPart.ofWord at hpart
      split_ifs at hpart with heq
      exact heq ▸ hword
    · exact fun hmem => ⟨doubleStar, hmem, by decide⟩
  have hgapSelf : covers segmentGrants (gap.map scopePart ++ (colonSegments granted).map scopePart)
      (gap ++ colonSegments requested) =
        covers segmentGrants ((colonSegments granted).map scopePart) (colonSegments requested) := by
    rcases hgap with rfl | rfl
    · rfl
    · have hempty : scopePart [] = .key [] := by decide
      have hgrants : segmentGrants [] [] = true := (segmentGrants_self []).mpr (by decide)
      rw [List.map_singleton, hempty, List.singleton_append, List.singleton_append, covers, hgrants,
        Bool.true_and]
  have hsegments : ∀ rest, colonSegments (scopeOf action rest) =
      colonSegments action ++ (gap ++ colonSegments rest) := hsplit
  rw [scopeMatches_eq, hsegments, hsegments, List.map_append, List.map_append,
    covers_append (List.length_map ..), hgapSelf, hrest, ActionFits]
  simp only [← segmentGrants_self]
  exact and_congr_left fun _ => covers_self

/-- An action that is compared in full. -/
structure PlainAction (action : Bytes) : Prop where
  fits : ActionFits action
  no_rest : doubleStar ∉ colonSegments action

theorem fits_word {s : Bytes} (h : ∀ c ∈ s, isPathSeparator c = false) :
    Fits kMaxPathSegments s := by
  intro front hfront
  have hpieces : (Lib.Split.splitTerminated isPathSeparator s).length ≤ 1 := by
    cases s with
    | nil => exact Nat.zero_le 1
    | cons c cs => rw [Lib.Split.splitTerminated_word (List.cons_ne_nil c cs) h, List.length_singleton]
  exact (length_foldl_inits hfront).trans (hpieces.trans (by decide))

theorem plainAction_letters {action : Bytes} (h : ∀ c ∈ action, isLetter c = true) :
    PlainAction action where
  fits word hword _ := by
    refine fits_word fun c hc => ?_
    have hseg := (List.takeWhile_sublist _).subset hword
    have hletter := h c (Lib.Split.mem_of_mem_splitTerminated hseg c hc)
    have hall := of_all_bytes (p := fun c => !isLetter c || !isPathSeparator c) (by decide +kernel) c
    simpa [hletter] using hall
  no_rest hrest := by
    have hletter := h '*'.toUInt8 (Lib.Split.mem_of_mem_splitTerminated hrest _ (by decide))
    exact absurd hletter (by decide)

theorem colonSegments_path {path : Bytes} (hne : path ≠ []) (hpath : ':'.toUInt8 ∉ path) :
    colonSegments path = [path] := by
  refine Lib.Split.splitTerminated_word hne fun c hc => ?_
  exact beq_false_of_ne fun hcolon => hpath (hcolon ▸ hc)

/-- A granted path that is no wildcard of its own, against one requested path. -/
theorem scopeMatches_path {action granted requested : Bytes} (h : PlainAction action)
    (hgranted : colonSegments granted = [granted]) (hpart : scopePart granted = .key granted)
    (hrequested : colonSegments requested = [requested]) :
    scopeMatches (scopeOf action granted) (scopeOf action requested) = true ↔
      segmentGrants granted requested = true := by
  rw [scopeMatches_scopeOf, and_iff_right h.fits, or_iff_right h.no_rest, hgranted, hrequested,
    List.map_singleton, hpart]
  simp [covers]

/-! ## The three forms of a grant -/

section Grants

variable {action path requested : Bytes}

theorem normalizeSegments_append {cap : Nat} {d : UInt8} (hd : isPathSeparator d = true)
    (s rest : Bytes) :
    normalizeSegments (s ++ d :: rest) cap = (normalizeSegments s cap).bind fun out =>
      (Lib.Split.splitTerminated isPathSeparator rest).foldlM (pushView cap) out := by
  obtain ⟨gap, hgap, hsplit⟩ := Lib.Split.splitTerminated_append_delim hd s
  unfold normalizeSegments
  rw [hsplit, List.foldlM_append]
  refine congrArg _ (funext fun out => ?_)
  rcases hgap with rfl | rfl
  · rfl
  · rfl

/-- A wildcard word behind a path that leaves room for it. -/
theorem views_wildcard {word : Bytes} (hne : path ≠ []) (hfits : Fits 63 path)
    (hword : word = star ∨ word = doubleStar) :
    Fits kMaxPathSegments (path ++ '/'.toUInt8 :: word) ∧
      segmentViews (path ++ '/'.toUInt8 :: word) = segmentViews path ++ [word] ∧
      isAbsolute (path ++ '/'.toUInt8 :: word) = isAbsolute path := by
  have hpath : normalizeSegments path kMaxPathSegments = some (segmentViews path) :=
    normalizeSegments_eq_some.mpr ⟨hfits.mono (by decide), rfl⟩
  have hlength := hfits.length_le
  have hpush : (Lib.Split.splitTerminated isPathSeparator word).foldlM
      (pushView kMaxPathSegments) (segmentViews path) = some (segmentViews path ++ [word]) := by
    have hroom : ¬ kMaxPathSegments ≤ (segmentViews path).length := by
      unfold kMaxPathSegments
      omega
    have hsplit : Lib.Split.splitTerminated isPathSeparator word = [word] := by
      rcases hword with rfl | rfl <;> decide
    have hplain : (word ≠ [] ∧ word ≠ dot) ∧ word ≠ dotdot := by
      rcases hword with rfl | rfl <;> decide
    rw [hsplit, List.foldlM_cons, pushView, if_pos hplain.1,
      if_neg fun hup => hplain.2 hup.1, if_neg hroom]
    rfl
  have hviews : normalizeSegments (path ++ '/'.toUInt8 :: word) kMaxPathSegments =
      some (segmentViews path ++ [word]) := by
    rw [normalizeSegments_append rfl, hpath, Option.bind_some, hpush]
  obtain ⟨hfits', hviews'⟩ := normalizeSegments_eq_some.mp hviews
  refine ⟨hfits', hviews', ?_⟩
  cases path with
  | nil => exact absurd rfl hne
  | cons c cs => rfl

section Forms

variable (h : PlainAction action) (hrequested : colonSegments requested = [requested])
  (hpath : path ≠ []) (hcolon : ':'.toUInt8 ∉ path) (hstar : '*'.toUInt8 ∉ path)
  (hfits : Fits 63 path) (hfits' : Fits kMaxPathSegments requested)
include h hrequested hpath hcolon hstar hfits hfits'

/-- The path itself. -/
theorem scopeMatches_exact :
    scopeMatches (scopeOf action path) (scopeOf action requested) = true ↔
      isAbsolute path = isAbsolute requested ∧ segmentViews requested = segmentViews path := by
  have hcovers := covers_path hstar [] (segmentViews requested)
  rw [List.append_nil] at hcovers
  rw [scopeMatches_path h (colonSegments_path hpath hcolon) (scopePart_literal hstar) hrequested,
    segmentGrants_iff, and_iff_left ⟨hfits.mono (by decide), hfits'⟩, hcovers]
  apply and_congr_right
  intro _
  constructor
  · rintro ⟨back, heq, hback⟩
    rw [heq, List.isEmpty_iff.mp hback, List.append_nil]
  · intro heq
    exact ⟨[], by rw [heq, List.append_nil], rfl⟩

/-- A wildcard behind the path is held against what is left of the request. -/
theorem scopeMatches_wildcard {word : Bytes} (hword : word = star ∨ word = doubleStar) :
    scopeMatches (scopeOf action (path ++ '/'.toUInt8 :: word)) (scopeOf action requested) = true ↔
      isAbsolute path = isAbsolute requested ∧ ∃ back,
        segmentViews requested = segmentViews path ++ back ∧
          covers segmentMatches [scopePart word] back = true := by
  obtain ⟨hfitsWild, hviewsWild, habsWild⟩ := views_wildcard hpath hfits hword
  have hwordColon : ':'.toUInt8 ∉ '/'.toUInt8 :: word := by
    rcases hword with rfl | rfl <;> decide
  have hgranted : colonSegments (path ++ '/'.toUInt8 :: word) = [path ++ '/'.toUInt8 :: word] :=
    colonSegments_path (by simp) fun hmem => (List.mem_append.mp hmem).elim hcolon hwordColon
  have hpart : scopePart (path ++ '/'.toUInt8 :: word) = .key (path ++ '/'.toUInt8 :: word) :=
    scopePart_of_mem (c := '/'.toUInt8) (by simp) (by decide)
  rw [scopeMatches_path h hgranted hpart hrequested, segmentGrants_iff, habsWild, hviewsWild,
    List.map_append, List.map_singleton, covers_path hstar, and_iff_left ⟨hfitsWild, hfits'⟩]

end Forms

/-- What the three grants mean. -/
theorem subtree_grants (haction : ∀ c ∈ action, isLetter c = true)
    (hcolon : ':'.toUInt8 ∉ path) (hstar : '*'.toUInt8 ∉ path) (hviews : segmentViews path ≠ [])
    (hfits : Fits 63 path) (hne : requested ≠ []) (hrequested : ':'.toUInt8 ∉ requested)
    (hfits' : Fits 64 requested) :
    (scopeMatches (scopeOf action path) (scopeOf action requested) = true ↔
      isAbsolute path = isAbsolute requested ∧ segmentViews requested = segmentViews path) ∧
    (scopeMatches (scopeOf action (path ++ ascii "/*")) (scopeOf action requested) = true ↔
      isAbsolute path = isAbsolute requested ∧
        ∃ seg, segmentViews requested = segmentViews path ++ [seg]) ∧
    (scopeMatches (scopeOf action (path ++ ascii "/**")) (scopeOf action requested) = true ↔
      isAbsolute path = isAbsolute requested ∧ segmentViews path <+: segmentViews requested) := by
  have hplain := plainAction_letters haction
  have hpath : path ≠ [] := by
    rintro rfl
    exact hviews rfl
  have hsegments := colonSegments_path hne hrequested
  refine ⟨scopeMatches_exact hplain hsegments hpath hcolon hstar hfits hfits', ?_, ?_⟩
  · have hany : scopePart star = .any := by decide
    rw [show path ++ ascii "/*" = path ++ '/'.toUInt8 :: star from rfl,
      scopeMatches_wildcard hplain hsegments hpath hcolon hstar hfits hfits' (Or.inl rfl), hany]
    apply and_congr_right
    intro _
    simp only [covers_any]
    constructor
    · rintro ⟨back, heq, seg, rfl⟩
      exact ⟨seg, heq⟩
    · rintro ⟨seg, heq⟩
      exact ⟨[seg], heq, seg, rfl⟩
  · have hrest : scopePart doubleStar = .rest := by decide
    rw [show path ++ ascii "/**" = path ++ '/'.toUInt8 :: doubleStar from rfl,
      scopeMatches_wildcard hplain hsegments hpath hcolon hstar hfits hfits' (Or.inr rfl), hrest]
    apply and_congr_right
    intro _
    constructor
    · rintro ⟨back, heq, -⟩
      exact ⟨back, heq.symm⟩
    · rintro ⟨back, heq⟩
      exact ⟨back, heq.symm, rfl⟩

/-- Another spelling of a path inside the subtree. -/
theorem subtree_grants_spelling :
    scopeMatches (scopeOf (ascii "read") (ascii "src/" ++ ascii "/**"))
      (scopeOf (ascii "read") (ascii "src\\.//x/../a")) = true :=
  (subtree_grants (by decide +kernel) (by decide) (by decide) (by decide) (by decide) (by decide)
    (by decide) (by decide)).2.2.mpr ⟨by decide, by decide⟩

end Grants

end LlmTop
