import LlmTop.SubtreeGrants

/-!
# Paths that climb

Which granted patterns match a path whose first segment is `..`.
-/
namespace LlmTop

open Lib.Wildcard

/-- The path leaves the directory it starts in. -/
def Climbs (path : Bytes) : Prop := (segmentViews path).head? = some dotdot

instance (path : Bytes) : Decidable (Climbs path) :=
  inferInstanceAs (Decidable (_ = _))

/-- A granted path: one colon segment that is no wildcard as a whole, no `..`,
and no `**` in front. -/
structure PathPattern (path : Bytes) : Prop where
  no_colon : ':'.toUInt8 ∉ path
  ne_star : path ≠ star
  ne_doubleStar : path ≠ doubleStar
  nonempty : segmentViews path ≠ []
  no_climb : dotdot ∉ segmentViews path
  head : (segmentViews path).head? ≠ some doubleStar

/-- The patterns of one segment that match `..`. -/
def climbingWildcards : List Bytes := ["*", ".*", "..*", "*.", "*..", ".*."].map ascii

theorem segmentMatches_dotdot {p : Bytes} (hne : p ≠ dotdot) :
    segmentMatches p dotdot = true ↔ p ∈ climbingWildcards := by
  constructor
  · intro h
    by_cases hstar : '*'.toUInt8 ∈ p
    · obtain ⟨before, after, rfl, hbefore⟩ := List.eq_append_cons_of_mem hstar
      obtain ⟨middle, heq⟩ := (segmentMatches_star hbefore).mp h
      have hfront : before ∈ dotdot.inits :=
        (List.mem_inits _ _).mpr ⟨middle ++ after, by rw [heq, List.append_assoc]⟩
      have hback : after ∈ dotdot.tails := (List.mem_tails _ _).mpr ⟨before ++ middle, heq.symm⟩
      have hroom : before.length + after.length ≤ dotdot.length := by
        rw [heq, List.length_append, List.length_append]
        omega
      have hall : ∀ before ∈ dotdot.inits, ∀ after ∈ dotdot.tails,
          before.length + after.length ≤ dotdot.length →
            before ++ '*'.toUInt8 :: after ∈ climbingWildcards := by decide +kernel
      exact hall before hfront after hback hroom
    · exact absurd ((segmentMatches_literal hstar).mp h) hne
  · have hall : ∀ p ∈ climbingWildcards, segmentMatches p dotdot = true := by decide
    exact hall p

/-- Nothing pops a `..` at the bottom. -/
theorem head?_pushSegment {segments : List Bytes} (h : segments.head? = some dotdot) (seg : Bytes) :
    (pushSegment segments seg).head? = some dotdot := by
  obtain ⟨rest, rfl⟩ := List.head?_eq_some_iff.mp h
  unfold pushSegment
  split_ifs with hskip hup htop
  · rfl
  · cases rest with
    | nil => exact absurd rfl htop.2
    | cons next rest => rfl
  · rfl
  · rfl

/-- A colon at the end belongs to the last segment, which is not the climb. -/
theorem Climbs.of_colon {path : Bytes} {colon : UInt8} (hcolon : isColon colon = true)
    (h : Climbs (path ++ [colon])) : Climbs path := by
  obtain rfl : colon = ':'.toUInt8 := beq_iff_eq.mp hcolon
  obtain ⟨front, last, hconcat, hpath⟩ := Lib.Split.splitTerminated_concat
    (show isPathSeparator ':'.toUInt8 = false by decide) path
  have hpush : ∀ segments, pushSegment segments (last ++ [':'.toUInt8]) =
      segments ++ [last ++ [':'.toUInt8]] := by
    have hother : ∀ word ∈ [[], dot, dotdot], last ++ [':'.toUInt8] ≠ word := by
      intro word hword heq
      have hall : ∀ word ∈ [[], dot, dotdot], ':'.toUInt8 ∉ word := by decide
      exact hall word hword (heq ▸ by simp)
    intro segments
    unfold pushSegment
    rw [if_neg (not_or.mpr ⟨hother [] (by simp), hother dot (by simp)⟩),
      if_neg (hother dotdot (by simp))]
  have hfront : (front.foldl pushSegment []).head? = some dotdot := by
    unfold Climbs segmentViews at h
    rw [hconcat, List.foldl_append, List.foldl_cons, List.foldl_nil, hpush] at h
    cases hviews : front.foldl pushSegment [] with
    | nil =>
        rw [hviews] at h
        have hword := Option.some.inj h
        have hmem : ':'.toUInt8 ∈ dotdot := hword ▸ by simp
        exact absurd hmem (by decide)
    | cons seg segs => rwa [hviews] at h
  unfold Climbs segmentViews
  rcases hpath with hpath | ⟨hpath, -⟩
  · rw [hpath, List.foldl_append]
    exact head?_pushSegment hfront last
  · rwa [hpath]

theorem Climbs.of_colonSegments {path seg : Bytes} (h : Climbs path)
    (hseg : colonSegments path = [seg]) : Climbs seg := by
  rcases Lib.Split.splitTerminated_eq_singleton hseg with rfl | ⟨colon, hcolon, rfl⟩
  · exact h
  · exact h.of_colon hcolon

/-! ## A path that the pattern matches -/

/-- The path written from its normalized segments. -/
def pathOf (absolute : Bool) (segments : List Bytes) : Bytes :=
  (if absolute then ascii "/" else []) ++ joinSegments segments

theorem mem_pathOf {absolute : Bool} {segments : List Bytes} {c : UInt8}
    (h : c ∈ pathOf absolute segments) : c = '/'.toUInt8 ∨ ∃ seg ∈ segments, c ∈ seg := by
  have hjoin : ∀ {segments : List Bytes}, c ∈ joinSegments segments →
      c = '/'.toUInt8 ∨ ∃ seg ∈ segments, c ∈ seg := by
    intro segments hmem
    fun_induction joinSegments segments with
    | case1 => exact absurd hmem List.not_mem_nil
    | case2 seg => exact Or.inr ⟨seg, List.mem_singleton_self seg, hmem⟩
    | case3 seg rest hrest ih =>
        rcases List.mem_append.mp hmem with hmem | hmem
        · exact Or.inr ⟨seg, List.mem_cons_self, hmem⟩
        · rcases List.mem_cons.mp hmem with rfl | hmem
          · exact Or.inl rfl
          · exact (ih hmem).imp_right fun ⟨other, hother, hc⟩ =>
              ⟨other, List.mem_cons_of_mem seg hother, hc⟩
  rcases List.mem_append.mp h with h | h
  · cases absolute with
    | true => exact Or.inl (List.mem_singleton.mp h)
    | false => exact absurd h List.not_mem_nil
  · exact hjoin h

theorem colon_not_mem_pathOf {absolute : Bool} {segments : List Bytes}
    (h : ∀ seg ∈ segments, ':'.toUInt8 ∉ seg) : ':'.toUInt8 ∉ pathOf absolute segments := by
  intro hcolon
  rcases mem_pathOf hcolon with hslash | ⟨seg, hseg, hmem⟩
  · exact absurd hslash (by decide)
  · exact h seg hseg hmem

/-- One climb and names below it. -/
theorem normalSegments_climb {names : List Bytes}
    (h : ∀ name ∈ names, PlainSegment name ∧ name ≠ dotdot) : NormalSegments (dotdot :: names) := by
  have hup : PlainSegment dotdot := ⟨by decide, by decide, by decide +kernel, by decide⟩
  refine ⟨List.forall_mem_cons.mpr ⟨hup, fun name hname => (h name hname).1⟩, ?_⟩
  exact ⟨[dotdot], names, rfl, by simp, fun hmem => (h dotdot hmem).2 rfl⟩

section Paths

variable {segments : List Bytes} (hnormal : NormalSegments segments) (absolute : Bool)
include hnormal

theorem pieces_pathOf :
    Lib.Split.splitTerminated isPathSeparator (pathOf absolute segments) =
      (if absolute then [[]] else []) ++ segments := by
  have hback : '\\'.toUInt8 ∉ pathOf absolute segments := by
    intro hmem
    rcases List.mem_append.mp hmem with hmem | hmem
    · revert hmem
      cases absolute <;> decide
    · exact no_backslash_joinSegments hnormal.1 hmem
  rw [← splitTerminated_foldBackslashes, foldBackslashes_eq_self hback]
  cases absolute with
  | false => exact splitTerminated_joinSegments hnormal.1
  | true =>
      have hsplit : pathOf true segments = '/'.toUInt8 :: joinSegments segments := rfl
      rw [hsplit, Lib.Split.splitTerminated_delim _ (by decide), splitTerminated_joinSegments hnormal.1]
      rfl

theorem segmentViews_pathOf : segmentViews (pathOf absolute segments) = segments := by
  have hfold := foldl_pushSegment_of_normal segments [] hnormal
  rw [segmentViews, pieces_pathOf hnormal]
  cases absolute <;> exact hfold

theorem isAbsolute_pathOf : isAbsolute (pathOf absolute segments) = absolute := by
  cases absolute with
  | true => rfl
  | false =>
      have hpath : pathOf false segments = joinSegments segments := rfl
      rw [hpath, ← head?_normalize, normalizePathSegment_relative hnormal]
      exact beq_false_of_ne (head?_joinSegments hnormal.1)

theorem fits_pathOf {cap : Nat} (hcap : segments.length ≤ cap) :
    Fits cap (pathOf absolute segments) := by
  have hsegments : ∀ front ∈ segments.inits, (front.foldl pushSegment []).length ≤ cap :=
    fun front hfront => (length_foldl_inits hfront).trans hcap
  unfold Fits
  rw [pieces_pathOf hnormal]
  cases absolute with
  | false => exact hsegments
  | true =>
      rw [if_pos rfl, List.singleton_append, List.inits_cons, List.forall_mem_cons,
        List.forall_mem_map]
      exact ⟨Nat.zero_le cap, hsegments⟩

end Paths

/-- One segment for a part of a pattern: a letter for the wildcard. -/
def fillSegment : PatternPart Bytes → Bytes
  | .key k => k.replace '*'.toUInt8 'x'.toUInt8
  | _ => ascii "x"

theorem replace_star {before : Bytes} (hbefore : '*'.toUInt8 ∉ before) (after : Bytes) :
    (before ++ '*'.toUInt8 :: after).replace '*'.toUInt8 'x'.toUInt8 =
      before ++ ['x'.toUInt8] ++ after := by
  rw [List.replace_append_right hbefore, List.replace_cons_self, List.append_assoc]
  rfl

theorem segmentMatches_fill (k : Bytes) : segmentMatches k (fillSegment (.key k)) = true := by
  change segmentMatches k (k.replace '*'.toUInt8 'x'.toUInt8) = true
  by_cases hstar : '*'.toUInt8 ∈ k
  · obtain ⟨before, after, rfl, hbefore⟩ := List.eq_append_cons_of_mem hstar
    rw [replace_star hbefore]
    exact (segmentMatches_star hbefore).mpr ⟨['x'.toUInt8], rfl⟩
  · rw [List.replace_of_not_mem hstar]
    exact (segmentMatches_literal hstar).mpr rfl

theorem mem_replace {k : Bytes} {a b c : UInt8} (h : c ∈ k.replace a b) : c ∈ k ∨ c = b := by
  induction k with
  | nil => exact absurd h List.not_mem_nil
  | cons d k ih =>
      rw [List.replace_cons] at h
      split at h
      · exact (List.mem_cons.mp h).elim Or.inr fun h => Or.inl (List.mem_cons_of_mem d h)
      · rcases List.mem_cons.mp h with rfl | h
        · exact Or.inl List.mem_cons_self
        · exact (ih h).imp_left (List.mem_cons_of_mem d)

theorem fillSegment_ne {k word : Bytes} (hword : 'x'.toUInt8 ∉ word) (hk : k ≠ word) :
    fillSegment (.key k) ≠ word := by
  change k.replace '*'.toUInt8 'x'.toUInt8 ≠ word
  by_cases hstar : '*'.toUInt8 ∈ k
  · obtain ⟨before, after, rfl, hbefore⟩ := List.eq_append_cons_of_mem hstar
    rw [replace_star hbefore]
    exact fun heq => hword (heq ▸ by simp)
  · rwa [List.replace_of_not_mem hstar]

theorem plain_fillSegment {k : Bytes} (hk : PlainSegment k) :
    PlainSegment (fillSegment (.key k)) where
  nonempty := fillSegment_ne (by decide) hk.nonempty
  ne_dot := fillSegment_ne (by decide) hk.ne_dot
  no_slash c hc := by
    rcases mem_replace hc with hc | rfl
    · exact hk.no_slash c hc
    · decide
  no_backslash hc := (mem_replace hc).elim hk.no_backslash (by decide)

/-- A wildcard in front takes the `..`, the other parts are filled in. -/
theorem covers_climb {first : Bytes} (hwild : first ∈ climbingWildcards) (others : List Bytes) :
    covers segmentMatches ((first :: others).map scopePart)
      (dotdot :: (bound (others.map scopePart)).map fillSegment) = true := by
  have hothers : covers segmentMatches (others.map scopePart)
      ((bound (others.map scopePart)).map fillSegment) = true :=
    covers_fill fun k _ => segmentMatches_fill k
  have hall : ∀ p ∈ climbingWildcards, p ≠ doubleStar ∧ segmentMatches p dotdot = true := by
    decide
  obtain ⟨hrest, hglob⟩ := hall first hwild
  rw [List.map_cons, scopePart, covers_ofWord, if_neg hrest, ← scopePart]
  simp [hothers, hglob]

section Climbing

variable {action path : Bytes} (hpath : PathPattern path)
include hpath

theorem PathPattern.scopeMatches_iff {requested : Bytes} :
    scopeMatches (scopeOf action path) (scopeOf action requested) = true ↔
      ActionFits action ∧ (doubleStar ∈ colonSegments action ∨
        ∃ seg, colonSegments requested = [seg] ∧ segmentGrants path seg = true) := by
  have hne : path ≠ [] := fun hempty => hpath.nonempty (hempty ▸ rfl)
  have hpart : scopePart path = .key path := by
    rw [scopePart, PatternPart.ofWord, if_neg hpath.ne_doubleStar, if_neg hpath.ne_star]
  rw [scopeMatches_scopeOf, colonSegments_path hne hpath.no_colon, List.map_singleton, hpart]
  refine and_congr_right fun _ => or_congr_right ?_
  cases colonSegments requested with
  | nil => simp [covers]
  | cons seg others => cases others <;> simp [covers]

/-- A pattern whose first segment does not match `..` matches no path that climbs. -/
theorem climbing_refused (hfirst : ∀ first ∈ (segmentViews path).head?, first ∉ climbingWildcards)
    {seg : Bytes} (hclimbs : Climbs seg) : ¬ segmentGrants path seg = true := by
  intro hgrants
  obtain ⟨climbed, hviews⟩ := List.head?_eq_some_iff.mp hclimbs
  obtain ⟨⟨-, hcovers⟩, -⟩ := segmentGrants_iff.mp hgrants
  obtain ⟨first, others, hpattern⟩ := List.exists_cons_of_ne_nil hpath.nonempty
  have hup : first ≠ dotdot := fun heq => hpath.no_climb (by simp [hpattern, heq])
  have hrest : first ≠ doubleStar := fun heq => hpath.head (by rw [hpattern, heq]; rfl)
  have hnot := hfirst first (by rw [hpattern]; rfl)
  rw [hpattern, hviews, List.map_cons, scopePart, covers_ofWord, if_neg hrest] at hcovers
  dsimp only at hcovers
  split_ifs at hcovers with hany hglob
  · exact hnot (hany ▸ by decide)
  · exact hnot ((segmentMatches_dotdot hup).mp hglob)

/-- The segments that the pattern's own parts are filled in with. -/
theorem PathPattern.fill_plain {first : Bytes} {others : List Bytes}
    (hpattern : segmentViews path = first :: others) {name : Bytes}
    (hname : name ∈ (bound (others.map scopePart)).map fillSegment) :
    PlainSegment name ∧ name ≠ dotdot ∧ ':'.toUInt8 ∉ name := by
  have hletter : PlainSegment (ascii "x") :=
    ⟨by decide, by decide, by decide +kernel, by decide⟩
  obtain ⟨part, hpart, rfl⟩ := List.mem_map.mp hname
  obtain ⟨k, hk, rfl⟩ := List.mem_map.mp ((bound_sublist _).subset hpart)
  have hviews : k ∈ segmentViews path := hpattern ▸ List.mem_cons_of_mem first hk
  unfold scopePart PatternPart.ofWord at hpart ⊢
  split_ifs at hpart ⊢ with hrest hany
  · exact absurd hpart (rest_not_mem_bound _)
  · exact ⟨hletter, by decide, by decide⟩
  · refine ⟨plain_fillSegment ((segmentViews_normal path).1 k hviews), ?_, ?_⟩
    · exact fillSegment_ne (by decide) fun hup => hpath.no_climb (hup ▸ hviews)
    · intro hcolon
      rcases mem_replace hcolon with hcolon | hcolon
      · exact hpath.no_colon (mem_of_mem_segmentViews hviews _ hcolon)
      · exact absurd hcolon (by decide)

/-- A pattern that fits and whose first segment matches `..` matches a path that climbs. -/
theorem climbing_matched (hfits : Fits kMaxPathSegments path) {first : Bytes}
    (hfirst : (segmentViews path).head? = some first) (hwild : first ∈ climbingWildcards) :
    ∃ requested, Climbs requested ∧ colonSegments requested = [requested] ∧
      segmentGrants path requested = true := by
  obtain ⟨others, hpattern⟩ := List.head?_eq_some_iff.mp hfirst
  let names := (bound (others.map scopePart)).map fillSegment
  have hnames : ∀ name ∈ names, PlainSegment name ∧ name ≠ dotdot ∧ ':'.toUInt8 ∉ name :=
    fun name => hpath.fill_plain hpattern
  have hnormal : NormalSegments (dotdot :: names) :=
    normalSegments_climb fun name hname => ⟨(hnames name hname).1, (hnames name hname).2.1⟩
  have hlength : (dotdot :: names).length ≤ kMaxPathSegments := by
    have hviews := hfits.length_le
    have hbound := (bound_sublist (others.map scopePart)).length_le
    rw [hpattern, List.length_cons] at hviews
    rw [List.length_map] at hbound
    rw [List.length_cons, List.length_map]
    omega
  have hviews := segmentViews_pathOf hnormal (isAbsolute path)
  have hgrants : segmentGrants path (pathOf (isAbsolute path) (dotdot :: names)) = true := by
    rw [segmentGrants_iff, isAbsolute_pathOf hnormal, hviews, hpattern]
    exact ⟨⟨rfl, covers_climb hwild others⟩, hfits, fits_pathOf hnormal _ hlength⟩
  have hclimbs : Climbs (pathOf (isAbsolute path) (dotdot :: names)) := by
    rw [Climbs, hviews]
    rfl
  refine ⟨_, hclimbs, colonSegments_path ?_ (colon_not_mem_pathOf ?_), hgrants⟩
  · intro hempty
    rw [hempty] at hclimbs
    exact absurd hclimbs (by decide)
  · exact List.forall_mem_cons.mpr ⟨by decide, fun name hname => (hnames name hname).2.2⟩

/-- No path that climbs is granted, unless the pattern's first segment is a
wildcard that matches `..` or the action has a `**` of its own. -/
theorem climbing_refused_iff :
    (∀ requested, Climbs requested →
        scopeMatches (scopeOf action path) (scopeOf action requested) = false) ↔
      (ActionFits action → doubleStar ∉ colonSegments action ∧
        (Fits kMaxPathSegments path →
          ∀ first ∈ (segmentViews path).head?, first ∉ climbingWildcards)) := by
  simp only [← Bool.not_eq_true, hpath.scopeMatches_iff]
  constructor
  · intro hrefused haction
    refine ⟨fun hrest => ?_, fun hfits first hfirst hwild => ?_⟩
    · exact hrefused dotdot (by decide) ⟨haction, Or.inl hrest⟩
    · obtain ⟨requested, hclimbs, hsegments, hgrants⟩ :=
        climbing_matched hpath hfits hfirst hwild
      exact hrefused requested hclimbs ⟨haction, Or.inr ⟨requested, hsegments, hgrants⟩⟩
  · rintro hcond requested hclimbs ⟨haction, hrest | ⟨seg, hseg, hgrants⟩⟩
    · exact (hcond haction).1 hrest
    · have hfits := (segmentGrants_iff.mp hgrants).2.1
      exact climbing_refused hpath ((hcond haction).2 hfits) (hclimbs.of_colonSegments hseg) hgrants

end Climbing

/-- A `*` in front stands for the `..` of a path that climbs. -/
theorem wildcard_matches_climb :
    PathPattern (ascii "*/x") ∧ Climbs (ascii "../x") ∧
      scopeMatches (scopeOf (ascii "read") (ascii "*/x"))
        (scopeOf (ascii "read") (ascii "../x")) = true :=
  ⟨⟨by decide, by decide, by decide, by decide, by decide, by decide⟩, by decide, by decide⟩

theorem climbing_refused_src :
    scopeMatches (scopeOf (ascii "read") (ascii "src/*"))
      (scopeOf (ascii "read") (ascii "src/../../key")) = false :=
  (climbing_refused_iff ⟨by decide, by decide, by decide, by decide, by decide, by decide⟩).mpr
    (fun _ => ⟨by decide, fun _ => by decide⟩) (ascii "src/../../key") (by decide)

end LlmTop
