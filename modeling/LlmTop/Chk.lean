import LlmTop.Sha256

/-!
# The integrity field

`canonical_for_chk`, `compute_chk` and `stamp_chk`.  A frame that carries the
marker on line 1 is cut around the run of bytes behind it; the digest covers
exactly what is left.
-/
namespace LlmTop

def chkMarker : Bytes := ascii "CHK:sha256:"

/-- The bytes that end the value behind the marker. -/
def isValueEnd (c : UInt8) : Bool :=
  c == ' '.toUInt8 || c == '\r'.toUInt8 || c == '\n'.toUInt8

/-- Start and end of the value behind the first marker, when that marker stands
on line 1; the search that the two functions below share. -/
def chkRegion (frame : Bytes) : Option (Nat × Nat) :=
  match Lib.Search.findSub chkMarker frame with
  | none => none
  | some p =>
      if (Lib.Search.find '\n'.toUInt8 frame).any (· < p) then none
      else
        let start := p + chkMarker.length
        some (start, (Lib.Search.findIfFrom isValueEnd frame start).getD frame.length)

def canonicalForChk (frame : Bytes) : Bytes :=
  match chkRegion frame with
  | none => frame
  | some (start, stop) => frame.take start ++ frame.drop stop

def computeChk (frame : Bytes) : Bytes :=
  ascii "sha256:" ++ Sha256.hashHex (canonicalForChk frame)

def stampChk (frame : Bytes) : Bytes :=
  match chkRegion frame with
  | none => frame
  | some (start, stop) =>
      let frame := frame.take start ++ frame.drop stop
      let digest := Sha256.hashHex (canonicalForChk frame)
      frame.take start ++ digest ++ frame.drop start

example : canonicalForChk (ascii "VER:2 CHK:sha256:00ff AGT:a\nCHK:sha256:11 x") =
    ascii "VER:2 CHK:sha256: AGT:a\nCHK:sha256:11 x" := by
  decide

/-! ## Marked frames -/

/-- The frame has its first marker behind `pre`, on line 1, and the run behind
the marker is `value`. -/
structure Marked (frame pre value post : Bytes) : Prop where
  eq : frame = pre ++ (chkMarker ++ (value ++ post))
  first : ∀ j < pre.length, ¬ chkMarker <+: frame.drop j
  line : '\n'.toUInt8 ∉ pre
  run : ∀ c ∈ value, isValueEnd c = false
  stop : ∀ c ∈ post.head?, isValueEnd c = true

theorem findSub_of_marked {frame pre value post : Bytes} (h : Marked frame pre value post) :
    Lib.Search.findSub chkMarker frame = some pre.length := by
  refine Lib.Search.findSub_eq_some.mpr ⟨?_, ?_, h.first⟩
  · rw [h.eq, List.length_append]
    omega
  · rw [h.eq, List.drop_left]
    exact List.prefix_append _ _

theorem findIdx?_run {p : UInt8 → Bool} {run post : Bytes} (hrun : ∀ c ∈ run, p c = false)
    (hpost : ∀ c ∈ post.head?, p c = true) :
    ((run ++ post).findIdx? p).getD (run ++ post).length = run.length := by
  rw [List.findIdx?_append, List.findIdx?_eq_none_iff.mpr (by simpa using hrun)]
  cases post with
  | nil => simp
  | cons c cs => simp [List.findIdx?_cons, hpost c (by simp)]

theorem chkRegion_of_marked {frame pre value post : Bytes} (h : Marked frame pre value post) :
    chkRegion frame =
      some (pre.length + chkMarker.length, pre.length + chkMarker.length + value.length) := by
  have hline : (Lib.Search.find '\n'.toUInt8 frame).any (· < pre.length) = false := by
    rw [Option.any_eq_false]
    intro i hi
    obtain ⟨before, rest, heq, hnot, rfl⟩ := Lib.Search.find_eq_some.mp hi
    simp only [decide_eq_false_iff_not, Nat.not_lt]
    by_contra hlt
    have htake := congrArg (List.drop before.length) heq
    rw [h.eq, List.drop_left, List.drop_append_of_le_length (by omega)] at htake
    have hmem : '\n'.toUInt8 ∈ pre.drop before.length := by
      cases hdrop : pre.drop before.length with
      | nil =>
          have hlen := congrArg List.length hdrop
          rw [List.length_drop, List.length_nil] at hlen
          omega
      | cons c cs =>
          rw [hdrop, List.cons_append, List.cons.injEq] at htake
          simp [htake.1]
    exact h.line (List.mem_of_mem_drop hmem)
  have hdrop : frame.drop (pre.length + chkMarker.length) = value ++ post := by
    rw [h.eq, ← List.append_assoc, ← List.length_append, List.drop_left]
  have hlen : frame.length = pre.length + chkMarker.length + (value ++ post).length := by
    rw [h.eq, List.length_append, List.length_append]
    omega
  have hstop := findIdx?_run h.run h.stop
  simp only [chkRegion, findSub_of_marked h, hline, Bool.false_eq_true, if_false,
    Lib.Search.findIfFrom, hdrop, Option.some.injEq, Prod.mk.injEq, true_and]
  cases hidx : (value ++ post).findIdx? isValueEnd with
  | none =>
      rw [hidx, Option.getD_none] at hstop
      rw [Option.map_none, Option.getD_none, hlen, hstop]
  | some i =>
      rw [hidx, Option.getD_some] at hstop
      rw [Option.map_some, Option.getD_some, hstop]

theorem marked_of_chkRegion {frame : Bytes} {region : Nat × Nat}
    (h : chkRegion frame = some region) : ∃ pre value post, Marked frame pre value post := by
  unfold chkRegion at h
  split at h
  · contradiction
  · rename_i p hp
    obtain ⟨hle, ⟨rest, hrest⟩, hfirst⟩ := Lib.Search.findSub_eq_some.mp hp
    split at h
    · contradiction
    · rename_i hline
      have hlen : (frame.take p).length = p := List.length_take_of_le hle
      refine ⟨frame.take p, rest.takeWhile (! isValueEnd ·), rest.dropWhile (! isValueEnd ·),
        ⟨?_, by rwa [hlen], ?_, ?_, ?_⟩⟩
      · rw [List.takeWhile_append_dropWhile, hrest, List.take_append_drop]
      · intro hmem
        apply hline
        obtain ⟨before, after, hsplit, hnot⟩ := List.eq_append_cons_of_mem hmem
        have hframe : frame = before ++ '\n'.toUInt8 :: (after ++ frame.drop p) := by
          rw [← List.cons_append, ← List.append_assoc, ← hsplit, List.take_append_drop]
        have hlt : before.length < p := by
          have := congrArg List.length hsplit
          rw [hlen, List.length_append, List.length_cons] at this
          omega
        have hfind : Lib.Search.find '\n'.toUInt8 frame = some before.length := by
          rw [hframe]
          exact Lib.Search.find_append _ hnot
        rw [hfind, Option.any_some]
        exact decide_eq_true hlt
      · intro c hc
        simpa using List.mem_takeWhile_imp hc
      · intro c hc
        have hne : rest.dropWhile (! isValueEnd ·) ≠ [] := by
          intro hnil
          rw [hnil] at hc
          contradiction
        have hhead := List.head_dropWhile_not (! isValueEnd ·) hne
        rw [List.head?_eq_some_head hne, Option.mem_some_iff] at hc
        simpa [hc] using hhead

/-- Where the marker stands and what stands around its value is a matter of the
frame alone. -/
theorem Marked.unique {frame pre value post pre' value' post' : Bytes}
    (h : Marked frame pre value post) (h' : Marked frame pre' value' post') :
    pre = pre' ∧ value = value' ∧ post = post' := by
  have hpos : pre.length = pre'.length := by
    have hsub := findSub_of_marked h
    rw [findSub_of_marked h'] at hsub
    exact (Option.some.inj hsub).symm
  have hregion := chkRegion_of_marked h
  rw [chkRegion_of_marked h', hpos] at hregion
  have hvalue : value.length = value'.length := by
    have := (Prod.mk.inj (Option.some.inj hregion)).2
    omega
  have heq := h.eq.symm.trans h'.eq
  obtain ⟨hpre, hrest⟩ := List.append_inj heq hpos
  obtain ⟨hvalues, hposts⟩ := List.append_inj (List.append_cancel_left hrest) hvalue
  exact ⟨hpre, hvalues, hposts⟩

/-- Another value in the same place leaves the first marker where it is: an
earlier one would end inside `pre` and the marker, which both frames share. -/
theorem Marked.replace {frame pre value post : Bytes} (h : Marked frame pre value post)
    (value' : Bytes) (hvalue' : ∀ c ∈ value', isValueEnd c = false) :
    Marked (pre ++ (chkMarker ++ (value' ++ post))) pre value' post := by
  refine ⟨rfl, ?_, h.line, hvalue', h.stop⟩
  intro j hj hmarker
  apply h.first j hj
  rw [h.eq]
  rw [← List.append_assoc, List.drop_append_of_le_length (by simp; omega)] at hmarker ⊢
  have hlong : chkMarker.length ≤ ((pre ++ chkMarker).drop j).length := by
    rw [List.length_drop, List.length_append]
    omega
  exact List.IsPrefix.trans (List.prefix_of_prefix_length_le hmarker (List.prefix_append _ _) hlong)
    (List.prefix_append _ _)

theorem canonicalForChk_of_marked {frame pre value post : Bytes}
    (h : Marked frame pre value post) :
    canonicalForChk frame = pre ++ (chkMarker ++ post) := by
  have htake : frame.take (pre.length + chkMarker.length) = pre ++ chkMarker := by
    rw [h.eq, ← List.append_assoc, ← List.length_append, List.take_left]
  have hdrop : frame.drop (pre.length + chkMarker.length + value.length) = post := by
    rw [h.eq, ← List.append_assoc, ← List.append_assoc, ← List.length_append, ← List.length_append,
      List.drop_left]
  simp only [canonicalForChk, chkRegion_of_marked h, htake, hdrop, List.append_assoc]

theorem canonicalForChk_of_unmarked {frame : Bytes}
    (h : ¬ ∃ pre value post, Marked frame pre value post) : canonicalForChk frame = frame := by
  unfold canonicalForChk
  split
  · rfl
  · rename_i hregion
    exact absurd (marked_of_chkRegion hregion) h

theorem marked_canonicalForChk {frame pre value post : Bytes} (h : Marked frame pre value post) :
    Marked (canonicalForChk frame) pre [] post := by
  rw [canonicalForChk_of_marked h]
  exact h.replace [] (by simp)

/-- The digest input determines every byte of the frame except the value behind
the marker. -/
theorem canonicalForChk_eq_iff (f g : Bytes) :
    canonicalForChk f = canonicalForChk g ↔
      f = g ∨ ∃ pre value value' post,
        Marked f pre value post ∧ Marked g pre value' post := by
  constructor
  · intro heq
    by_cases hf : ∃ pre value post, Marked f pre value post
    · obtain ⟨pre, value, post, hf⟩ := hf
      by_cases hg : ∃ pre value post, Marked g pre value post
      · obtain ⟨pre', value', post', hg⟩ := hg
        have hblank := marked_canonicalForChk hf
        rw [heq] at hblank
        obtain ⟨rfl, -, rfl⟩ := hblank.unique (marked_canonicalForChk hg)
        exact Or.inr ⟨pre, value, value', post, hf, hg⟩
      · have hblank := marked_canonicalForChk hf
        rw [heq, canonicalForChk_of_unmarked hg] at hblank
        exact absurd ⟨pre, [], post, hblank⟩ hg
    · by_cases hg : ∃ pre value post, Marked g pre value post
      · obtain ⟨pre, value, post, hg⟩ := hg
        have hblank := marked_canonicalForChk hg
        rw [← heq, canonicalForChk_of_unmarked hf] at hblank
        exact absurd ⟨pre, [], post, hblank⟩ hf
      · rw [canonicalForChk_of_unmarked hf, canonicalForChk_of_unmarked hg] at heq
        exact Or.inl heq
  · rintro (rfl | ⟨pre, value, value', post, hf, hg⟩)
    · rfl
    · rw [canonicalForChk_of_marked hf, canonicalForChk_of_marked hg]

/-! ## Stamping -/

theorem stampChk_of_marked {frame pre value post : Bytes} (h : Marked frame pre value post) :
    stampChk frame =
      pre ++ (chkMarker ++ (Sha256.hashHex (canonicalForChk frame) ++ post)) := by
  have hblank := canonicalForChk_of_marked h
  have htake : (pre ++ (chkMarker ++ post)).take (pre.length + chkMarker.length) =
      pre ++ chkMarker := by
    rw [← List.append_assoc, ← List.length_append, List.take_left]
  have hdrop : (pre ++ (chkMarker ++ post)).drop (pre.length + chkMarker.length) = post := by
    rw [← List.append_assoc, ← List.length_append, List.drop_left]
  have hcut : frame.take (pre.length + chkMarker.length) ++
      frame.drop (pre.length + chkMarker.length + value.length) = pre ++ (chkMarker ++ post) := by
    rw [← hblank]
    simp only [canonicalForChk, chkRegion_of_marked h]
  have hidem : canonicalForChk (pre ++ (chkMarker ++ post)) = pre ++ (chkMarker ++ post) := by
    have hmarked := marked_canonicalForChk h
    rw [hblank] at hmarked
    exact canonicalForChk_of_marked hmarked
  simp only [stampChk, chkRegion_of_marked h, hcut, hidem, htake, hdrop, hblank,
    List.append_assoc]

theorem stampChk_of_unmarked {frame : Bytes}
    (h : ¬ ∃ pre value post, Marked frame pre value post) : stampChk frame = frame := by
  unfold stampChk
  split
  · rfl
  · rename_i hregion
    exact absurd (marked_of_chkRegion hregion) h

end LlmTop
