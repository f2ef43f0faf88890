import LlmTop.Bytes

/-!
# Path normalization

The segment stack of `normalize_path_segment`, the shape of what it leaves and
the root test that every resource goes through.
-/
namespace LlmTop

def isSlash (c : UInt8) : Bool := c == '/'.toUInt8

def dot : Bytes := ascii "."
def dotdot : Bytes := ascii ".."

/-- One segment against the stack: `..` cancels a name, never another `..`. -/
def pushSegment (segments : List Bytes) (seg : Bytes) : List Bytes :=
  if seg = [] ∨ seg = dot then segments
  else if seg = dotdot then
    if segments ≠ [] ∧ segments.getLast? ≠ some dotdot then segments.dropLast
    else segments ++ [seg]
  else segments ++ [seg]

def foldBackslashes (s : Bytes) : Bytes :=
  s.map fun c => if c = '\\'.toUInt8 then '/'.toUInt8 else c

def joinSegments : List Bytes → Bytes
  | [] => []
  | [seg] => seg
  | seg :: rest => seg ++ '/'.toUInt8 :: joinSegments rest

theorem joinSegments_cons_cons (seg next : Bytes) (others : List Bytes) :
    joinSegments (seg :: next :: others) =
      seg ++ '/'.toUInt8 :: joinSegments (next :: others) := rfl

def pathSegments (s : Bytes) : List Bytes :=
  (Lib.Split.splitTerminated isSlash s).foldl pushSegment []

def normalizePathSegment (pathStr : Bytes) : Bytes :=
  if pathStr.isEmpty then []
  else
    let s := foldBackslashes pathStr
    let res := if s.head? = some '/'.toUInt8 then ascii "/" else []
    res ++ joinSegments (pathSegments s)

def isLetter (c : UInt8) : Bool :=
  ('A'.toUInt8 ≤ c && c ≤ 'Z'.toUInt8) || ('a'.toUInt8 ≤ c && c ≤ 'z'.toUInt8)

def escapesRoot (normalized : Bytes) : Bool :=
  if normalized = dotdot ∨ (ascii "../").isPrefixOf normalized then true
  else if normalized.head? = some '/'.toUInt8 then true
  else
    match normalized with
    | drive :: colon :: _ => colon == ':'.toUInt8 && isLetter drive
    | _ => false

example : normalizePathSegment (ascii "src/./sub\\../auth.ts") = ascii "src/auth.ts" := by decide
example : normalizePathSegment (ascii "/../a//") = ascii "/../a" := by decide
example : escapesRoot (ascii "c:x") = true := by decide

/-! ## The shape of a normalized path -/

/-- What a segment of a normalized path looks like. -/
structure PlainSegment (seg : Bytes) : Prop where
  nonempty : seg ≠ []
  ne_dot : seg ≠ dot
  no_slash : ∀ c ∈ seg, isSlash c = false
  no_backslash : '\\'.toUInt8 ∉ seg

/-- A `..` stands only in front of everything else. -/
def ClimbsFirst (segments : List Bytes) : Prop :=
  ∃ climbs names, segments = climbs ++ names ∧ (∀ seg ∈ climbs, seg = dotdot) ∧ dotdot ∉ names

def NormalSegments (segments : List Bytes) : Prop :=
  (∀ seg ∈ segments, PlainSegment seg) ∧ ClimbsFirst segments

theorem normalSegments_nil : NormalSegments [] :=
  ⟨by simp, [], [], rfl, by simp, by simp⟩

private theorem climbsFirst_append_name {segments : List Bytes} {seg : Bytes}
    (h : ClimbsFirst segments) (hseg : seg ≠ dotdot) : ClimbsFirst (segments ++ [seg]) := by
  obtain ⟨climbs, names, rfl, hclimbs, hnames⟩ := h
  exact ⟨climbs, names ++ [seg], by simp, hclimbs, by simp [hnames, Ne.symm hseg]⟩

private theorem climbsFirst_dropLast {segments : List Bytes}
    (h : ClimbsFirst segments) : ClimbsFirst segments.dropLast := by
  obtain ⟨climbs, names, rfl, hclimbs, hnames⟩ := h
  cases hn : names with
  | nil =>
      subst hn
      refine ⟨climbs.dropLast, [], by simp, ?_, by simp⟩
      exact fun seg hseg => hclimbs seg (List.mem_of_mem_dropLast hseg)
  | cons name rest =>
      subst hn
      refine ⟨climbs, (name :: rest).dropLast, by rw [List.dropLast_append_cons], hclimbs, ?_⟩
      exact fun hmem => hnames (List.mem_of_mem_dropLast hmem)

/-- With a `..` on top, or nothing at all, the stack holds only `..`. -/
private theorem climbsFirst_append_climb {segments : List Bytes}
    (h : ClimbsFirst segments)
    (htop : ¬(segments ≠ [] ∧ segments.getLast? ≠ some dotdot)) :
    ClimbsFirst (segments ++ [dotdot]) := by
  obtain ⟨climbs, names, rfl, hclimbs, hnames⟩ := h
  have hempty : names = [] := by
    by_contra hne
    apply htop
    refine ⟨by simp [hne], ?_⟩
    rw [List.getLast?_append_of_ne_nil _ hne]
    intro hlast
    exact hnames (List.mem_of_getLast? hlast)
  subst hempty
  refine ⟨climbs ++ [dotdot], [], by simp, ?_, by simp⟩
  intro seg hseg
  rcases List.mem_append.mp hseg with hseg | hseg
  · exact hclimbs seg hseg
  · exact List.mem_singleton.mp hseg

theorem pushSegment_normal {segments : List Bytes} {seg : Bytes} (h : NormalSegments segments)
    (hslash : ∀ c ∈ seg, isSlash c = false) (hback : '\\'.toUInt8 ∉ seg) :
    NormalSegments (pushSegment segments seg) := by
  obtain ⟨hplain, hclimbs⟩ := h
  unfold pushSegment
  by_cases hskip : seg = [] ∨ seg = dot
  · rw [if_pos hskip]
    exact ⟨hplain, hclimbs⟩
  · rw [if_neg hskip]
    rw [not_or] at hskip
    have hseg : PlainSegment seg := ⟨hskip.1, hskip.2, hslash, hback⟩
    have hpush : ∀ other ∈ segments ++ [seg], PlainSegment other := by
      intro other hother
      rcases List.mem_append.mp hother with hother | hother
      · exact hplain other hother
      · exact List.mem_singleton.mp hother ▸ hseg
    by_cases hup : seg = dotdot
    · rw [if_pos hup]
      split
      · exact ⟨fun other hother => hplain other (List.mem_of_mem_dropLast hother),
          climbsFirst_dropLast hclimbs⟩
      · rename_i htop
        refine ⟨hpush, ?_⟩
        subst hup
        exact climbsFirst_append_climb hclimbs htop
    · rw [if_neg hup]
      exact ⟨hpush, climbsFirst_append_name hclimbs hup⟩

theorem foldl_pushSegment_normal (pieces : List Bytes) {segments : List Bytes}
    (h : NormalSegments segments) (hslash : ∀ seg ∈ pieces, ∀ c ∈ seg, isSlash c = false)
    (hback : ∀ seg ∈ pieces, '\\'.toUInt8 ∉ seg) :
    NormalSegments (pieces.foldl pushSegment segments) := by
  induction pieces generalizing segments with
  | nil => exact h
  | cons seg rest ih =>
      rw [List.foldl_cons]
      exact ih (pushSegment_normal h (hslash seg (by simp)) (hback seg (by simp)))
        (fun other hother => hslash other (by simp [hother]))
        (fun other hother => hback other (by simp [hother]))

theorem no_backslash_foldBackslashes (s : Bytes) : '\\'.toUInt8 ∉ foldBackslashes s := by
  intro h
  obtain ⟨c, -, hc⟩ := List.mem_map.mp h
  split at hc
  · exact absurd hc (by decide)
  · contradiction

theorem foldBackslashes_eq_self {s : Bytes} (h : '\\'.toUInt8 ∉ s) : foldBackslashes s = s := by
  unfold foldBackslashes
  refine (List.map_congr_left fun c hc => ?_).trans (List.map_id s)
  have hne : c ≠ '\\'.toUInt8 := fun hback => h (hback ▸ hc)
  rw [if_neg hne]
  rfl

theorem pathSegments_normal {s : Bytes} (h : '\\'.toUInt8 ∉ s) :
    NormalSegments (pathSegments s) :=
  foldl_pushSegment_normal _ normalSegments_nil
    (fun _ hseg => Lib.Split.delim_of_mem_splitTerminated hseg)
    (fun _ hseg hmem => h (Lib.Split.mem_of_mem_splitTerminated hseg _ hmem))

theorem splitTerminated_joinSegments {segments : List Bytes}
    (h : ∀ seg ∈ segments, PlainSegment seg) :
    Lib.Split.splitTerminated isSlash (joinSegments segments) = segments := by
  induction segments with
  | nil => rfl
  | cons seg rest ih =>
      have hseg := h seg (by simp)
      cases rest with
      | nil => exact Lib.Split.splitTerminated_word hseg.nonempty hseg.no_slash
      | cons next others =>
          rw [joinSegments_cons_cons, Lib.Split.splitTerminated_append _ hseg.no_slash (by decide),
            ih fun other hother => h other (by simp [hother])]

/-- A `..` inside a normal stack has only `..` below it, so nothing is popped. -/
private theorem top_of_climbsFirst {below above : List Bytes}
    (h : ClimbsFirst (below ++ dotdot :: above)) :
    ¬(below ≠ [] ∧ below.getLast? ≠ some dotdot) := by
  obtain ⟨climbs, names, heq, hclimbs, hnames⟩ := h
  rintro ⟨hne, hlast⟩
  have hlen : below.length < climbs.length := by
    by_contra hle
    have hdrop := congrArg (List.drop climbs.length) heq
    rw [List.drop_append_of_le_length (Nat.le_of_not_lt hle), List.drop_left] at hdrop
    exact hnames (hdrop ▸ by simp)
  have hbelow : ∀ seg ∈ below, seg = dotdot := by
    intro seg hseg
    have htake := congrArg (List.take below.length) heq
    rw [List.take_left, List.take_append_of_le_length (Nat.le_of_lt hlen)] at htake
    exact hclimbs seg (List.mem_of_mem_take (htake ▸ hseg))
  apply hlast
  rw [List.getLast?_eq_some_getLast hne]
  exact congrArg some (hbelow _ (List.getLast_mem hne))

theorem foldl_pushSegment_of_normal (segments below : List Bytes)
    (h : NormalSegments (below ++ segments)) :
    segments.foldl pushSegment below = below ++ segments := by
  induction segments generalizing below with
  | nil => simp
  | cons seg rest ih =>
      have hseg := h.1 seg (by simp)
      have hpush : pushSegment below seg = below ++ [seg] := by
        unfold pushSegment
        rw [if_neg (not_or.mpr ⟨hseg.nonempty, hseg.ne_dot⟩)]
        by_cases hup : seg = dotdot
        · rw [if_pos hup, if_neg (top_of_climbsFirst (hup ▸ h.2))]
        · rw [if_neg hup]
      rw [List.foldl_cons, hpush, ih (below ++ [seg]) (by simpa using h)]
      simp

theorem no_backslash_joinSegments {segments : List Bytes}
    (h : ∀ seg ∈ segments, PlainSegment seg) : '\\'.toUInt8 ∉ joinSegments segments := by
  induction segments with
  | nil => simp [joinSegments]
  | cons seg rest ih =>
      have hseg := (h seg (by simp)).no_backslash
      cases rest with
      | nil => exact hseg
      | cons next others =>
          rw [joinSegments_cons_cons, List.mem_append, List.mem_cons, not_or, not_or]
          exact ⟨hseg, by decide, ih fun other hother => h other (by simp [hother])⟩

theorem head?_joinSegments {segments : List Bytes} (h : ∀ seg ∈ segments, PlainSegment seg) :
    (joinSegments segments).head? ≠ some '/'.toUInt8 := by
  cases segments with
  | nil => simp [joinSegments]
  | cons seg rest =>
      have hseg := h seg (by simp)
      obtain ⟨c, cs, hc⟩ := List.exists_cons_of_ne_nil hseg.nonempty
      have hhead : (joinSegments (seg :: rest)).head? = some c := by
        cases rest <;> simp [joinSegments, hc]
      have hslash : isSlash c = false := hseg.no_slash c (by simp [hc])
      rw [hhead]
      intro hcontra
      rw [Option.some.inj hcontra] at hslash
      exact absurd hslash (by decide)

/-- The two forms of a normalized path: relative, or led by one slash. -/
theorem normalizePathSegment_eq (pathStr : Bytes) :
    ∃ segments, NormalSegments segments ∧
      (normalizePathSegment pathStr = joinSegments segments ∨
        normalizePathSegment pathStr = '/'.toUInt8 :: joinSegments segments) := by
  unfold normalizePathSegment
  by_cases hempty : pathStr.isEmpty
  · exact ⟨[], normalSegments_nil, Or.inl (by simp [hempty, joinSegments])⟩
  · refine ⟨pathSegments (foldBackslashes pathStr),
      pathSegments_normal (no_backslash_foldBackslashes pathStr), ?_⟩
    by_cases habs : (foldBackslashes pathStr).head? = some '/'.toUInt8
    · exact Or.inr (by simp [hempty, habs]; rfl)
    · exact Or.inl (by simp [hempty, habs])

theorem normalizePathSegment_relative {segments : List Bytes} (h : NormalSegments segments) :
    normalizePathSegment (joinSegments segments) = joinSegments segments := by
  unfold normalizePathSegment
  cases hjoin : (joinSegments segments).isEmpty with
  | true => simpa using (List.isEmpty_iff.mp hjoin).symm
  | false =>
      have hback := foldBackslashes_eq_self (no_backslash_joinSegments h.1)
      simp only [Bool.false_eq_true, if_false, hback, if_neg (head?_joinSegments h.1),
        List.nil_append]
      rw [pathSegments, splitTerminated_joinSegments h.1]
      exact congrArg joinSegments (foldl_pushSegment_of_normal segments [] h)

theorem normalizePathSegment_absolute {segments : List Bytes} (h : NormalSegments segments) :
    normalizePathSegment ('/'.toUInt8 :: joinSegments segments) =
      '/'.toUInt8 :: joinSegments segments := by
  have hmem : '\\'.toUInt8 ∉ '/'.toUInt8 :: joinSegments segments := by
    rw [List.mem_cons, not_or]
    exact ⟨by decide, no_backslash_joinSegments h.1⟩
  have hsplit : pathSegments ('/'.toUInt8 :: joinSegments segments) = segments := by
    rw [pathSegments, Lib.Split.splitTerminated_delim _ (by decide),
      splitTerminated_joinSegments h.1]
    exact foldl_pushSegment_of_normal segments [] h
  simp only [normalizePathSegment, List.isEmpty_cons, Bool.false_eq_true, if_false,
    foldBackslashes_eq_self hmem, List.head?_cons, if_true, hsplit]
  rfl

theorem normalizePathSegment_idem (pathStr : Bytes) :
    normalizePathSegment (normalizePathSegment pathStr) = normalizePathSegment pathStr := by
  obtain ⟨segments, hnormal, heq | heq⟩ := normalizePathSegment_eq pathStr
  · rw [heq, normalizePathSegment_relative hnormal]
  · rw [heq, normalizePathSegment_absolute hnormal]

end LlmTop
