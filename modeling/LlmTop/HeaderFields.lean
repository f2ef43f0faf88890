import LlmTop.ParserModes
import LlmTop.TokenLines

/-!
# Header fields by key

What one token does to the fields, and how much room the tokens of a header
take at least.
-/
namespace LlmTop
open Lib.Faults

/-! ## Fields by key -/

def fieldToken (key val : Bytes) : Bytes := key ++ ':'.toUInt8 :: val

def textKeys : List Bytes := ["VER", "CHK", "AGT", "UID", "TIM", "REQID", "FALLBACK"].map ascii

/-- The fields that are kept as text. -/
def Header.text (h : Header) (key : Bytes) : Bytes :=
  if key = ascii "VER" then h.ver
  else if key = ascii "CHK" then h.chk
  else if key = ascii "AGT" then h.agt
  else if key = ascii "UID" then h.uid
  else if key = ascii "TIM" then h.tim
  else if key = ascii "REQID" then h.reqid
  else if key = ascii "FALLBACK" then h.fallback
  else []

theorem text_setField {k : Bytes} (hk : k ∈ textKeys) (h : Header) (key val : Bytes) :
    (h.setField key val).text k = if k = key then val else h.text k := by
  by_cases heq : k = key
  · subst heq
    rw [if_pos rfl]
    simp only [textKeys, List.map_cons, List.map_nil, List.mem_cons, List.not_mem_nil,
      or_false] at hk
    rcases hk with rfl | rfl | rfl | rfl | rfl | rfl | rfl <;> rfl
  · have hne : ¬key = k := fun h => heq h.symm
    rw [if_neg heq]
    simp only [textKeys, List.map_cons, List.map_nil, List.mem_cons, List.not_mem_nil,
      or_false] at hk
    -- The branches of the other fields keep the one asked for.
    rcases hk with rfl | rfl | rfl | rfl | rfl | rfl | rfl
    · show (h.setField key val).ver = h.ver
      simp only [Header.setField, apply_ite Header.ver, if_neg hne, ite_self]
    · show (h.setField key val).chk = h.chk
      simp only [Header.setField, apply_ite Header.chk, if_neg hne, ite_self]
    · show (h.setField key val).agt = h.agt
      simp only [Header.setField, apply_ite Header.agt, if_neg hne, ite_self]
    · show (h.setField key val).uid = h.uid
      simp only [Header.setField, apply_ite Header.uid, if_neg hne, ite_self]
    · show (h.setField key val).tim = h.tim
      simp only [Header.setField, apply_ite Header.tim, if_neg hne, ite_self]
    · show (h.setField key val).reqid = h.reqid
      simp only [Header.setField, apply_ite Header.reqid, if_neg hne, ite_self]
    · show (h.setField key val).fallback = h.fallback
      simp only [Header.setField, apply_ite Header.fallback, if_neg hne, ite_self]

theorem hr_setField (h : Header) (key val : Bytes) :
    (h.setField key val).hr = if key = ascii "HR" then (stoi val).getD 0 else h.hr := by
  by_cases hhr : key = ascii "HR"
  · rw [if_pos hhr, hhr]
    rfl
  · simp only [Header.setField, apply_ite Header.hr, if_neg hhr, ite_self]

/-- The key of a token and what follows its colon. -/
def tokenParts (token : Bytes) : Option (Bytes × Bytes) :=
  (Lib.Search.find ':'.toUInt8 token).map fun colon => (token.take colon, token.drop (colon + 1))

theorem headerNext_eq (h : Header) (token : Bytes) :
    headerNext h token =
      match tokenParts token with
      | none => h
      | some (key, val) => h.setField key val := by
  unfold headerNext tokenParts
  cases Lib.Search.find ':'.toUInt8 token <;> rfl

theorem headerFaults_eq (token : Bytes) :
    headerFaults token =
      match tokenParts token with
      | none => [.malformedHeaderToken token]
      | some (key, val) => fieldFaults key val := by
  unfold headerFaults tokenParts
  cases Lib.Search.find ':'.toUInt8 token <;> rfl

theorem tokenParts_fieldToken {key : Bytes} (hkey : ':'.toUInt8 ∉ key) (val : Bytes) :
    tokenParts (fieldToken key val) = some (key, val) := by
  have hdrop : (key ++ ':'.toUInt8 :: val).drop (key.length + 1) = val := by simp
  rw [tokenParts, fieldToken, Lib.Search.find_append _ hkey, Option.map_some, List.take_left, hdrop]

theorem tokenParts_eq_none {token : Bytes} : tokenParts token = none ↔ ':'.toUInt8 ∉ token := by
  rw [tokenParts, Option.map_eq_none_iff, Lib.Search.find_eq_none]

theorem tokenParts_eq_some {token key val : Bytes} :
    tokenParts token = some (key, val) ↔ token = fieldToken key val ∧ ':'.toUInt8 ∉ key := by
  constructor
  · intro h
    obtain ⟨colon, hcolon, hparts⟩ := Option.map_eq_some_iff.mp h
    obtain ⟨before, rest, rfl, hbefore, rfl⟩ := Lib.Search.find_eq_some.mp hcolon
    obtain ⟨rfl, rfl⟩ := Prod.mk.inj hparts
    simp [fieldToken, hbefore]
  · rintro ⟨rfl, hkey⟩
    exact tokenParts_fieldToken hkey val

theorem colon_of_text {k : Bytes} (hk : k ∈ textKeys) : ':'.toUInt8 ∉ k := by
  have hall : ∀ k ∈ textKeys, ':'.toUInt8 ∉ k := by decide
  exact hall k hk

theorem text_headerNext {k : Bytes} (hk : k ∈ textKeys) (h : Header) (token : Bytes) :
    (headerNext h token).text k =
      match tokenParts token with
      | none => h.text k
      | some (key, val) => if k = key then val else h.text k := by
  rw [headerNext_eq]
  cases tokenParts token with
  | none => rfl
  | some parts => exact text_setField hk h parts.1 parts.2

/-- A field that a run of tokens fills comes from a token with its key. -/
theorem mem_of_text {k : Bytes} (hk : k ∈ textKeys) {tokens : List Bytes} {h : Header}
    (hempty : h.text k = []) (hne : (tokens.foldl headerNext h).text k ≠ []) :
    fieldToken k ((tokens.foldl headerNext h).text k) ∈ tokens := by
  induction tokens using List.reverseRecOn with
  | nil => exact absurd hempty hne
  | append_singleton tokens token ih =>
      rw [List.foldl_append, List.foldl_cons, List.foldl_nil, text_headerNext hk] at hne ⊢
      cases hparts : tokenParts token with
      | none =>
          rw [hparts] at hne
          exact List.mem_append_left _ (ih hne)
      | some parts =>
          obtain ⟨key, val⟩ := parts
          rw [hparts] at hne
          dsimp only at hne ⊢
          split_ifs at hne ⊢ with heq
          · rw [heq, ← (tokenParts_eq_some.mp hparts).1]
            exact List.mem_append_right _ List.mem_cons_self
          · exact List.mem_append_left _ (ih hne)

/-! ## Room -/

/-- The room a field takes in any line that fills it. -/
def fieldRoom (h : Header) (k : Bytes) : Nat :=
  if h.text k = [] then 0 else (fieldToken k (h.text k)).length + 1

def headerRoom (ks : List Bytes) (h : Header) : Nat := (ks.map (fieldRoom h)).sum

/-- The room a token takes, if it fills one of the fields. -/
def tokenRoom (ks : List Bytes) (token : Bytes) : Nat :=
  match tokenParts token with
  | none => 0
  | some (key, _) => if key ∈ ks then token.length + 1 else 0

theorem tokenRoom_le (ks : List Bytes) (token : Bytes) : tokenRoom ks token ≤ token.length + 1 := by
  unfold tokenRoom
  split
  · exact Nat.zero_le _
  · split
    · exact Nat.le_refl _
    · exact Nat.zero_le _

/-- A token leaves the room of the fields it does not name. -/
theorem headerRoom_untouched {ks : List Bytes} (hks : ∀ k ∈ ks, k ∈ textKeys) (h : Header)
    {token : Bytes} (hother : ∀ k ∈ ks, ∀ parts ∈ tokenParts token, k ≠ parts.1) :
    headerRoom ks (headerNext h token) = headerRoom ks h := by
  refine congrArg List.sum (List.map_congr_left fun k hk => ?_)
  have htext : (headerNext h token).text k = h.text k := by
    rw [text_headerNext (hks k hk)]
    cases hparts : tokenParts token with
    | none => rfl
    | some parts => exact if_neg (hother k hk parts hparts)
  rw [fieldRoom, htext, fieldRoom]

theorem fieldRoom_headerNext {key val token : Bytes} (hkey : key ∈ textKeys) (h : Header)
    (hparts : tokenParts token = some (key, val)) :
    fieldRoom (headerNext h token) key ≤ token.length + 1 := by
  have htext : (headerNext h token).text key = val := by
    rw [text_headerNext hkey, hparts]
    exact if_pos rfl
  rw [fieldRoom, htext, ← (tokenParts_eq_some.mp hparts).1]
  split
  · exact Nat.zero_le _
  · exact Nat.le_refl _

/-- A token makes no more room than it takes. -/
theorem headerRoom_next {ks : List Bytes} (hks : ∀ k ∈ ks, k ∈ textKeys) (hnodup : ks.Nodup)
    (h : Header) (token : Bytes) :
    headerRoom ks (headerNext h token) ≤ headerRoom ks h + tokenRoom ks token := by
  cases hparts : tokenParts token with
  | none =>
      have hother : ∀ k ∈ ks, ∀ parts ∈ tokenParts token, k ≠ parts.1 := by simp [hparts]
      have hsame := headerRoom_untouched hks h hother
      omega
  | some parts =>
      obtain ⟨key, val⟩ := parts
      have hsame : ∀ {ks' : List Bytes}, (∀ k ∈ ks', k ∈ textKeys) → key ∉ ks' →
          headerRoom ks' (headerNext h token) = headerRoom ks' h := by
        intro ks' hks' hnot
        refine headerRoom_untouched hks' h fun k hk parts hp => ?_
        rw [hparts] at hp
        obtain rfl := Option.some.inj hp
        rintro rfl
        exact hnot hk
      by_cases hkey : key ∈ ks
      · obtain ⟨front, back, rfl⟩ := List.append_of_mem hkey
        obtain ⟨-, hnodup, hdisjoint⟩ := List.nodup_append.mp hnodup
        have hfront := hsame (fun k hk => hks k (List.mem_append_left _ hk))
          fun hmem => hdisjoint key hmem key List.mem_cons_self rfl
        have hback := hsame
          (fun k hk => hks k (List.mem_append_right front (List.mem_cons_of_mem key hk)))
          (List.nodup_cons.mp hnodup).1
        have hroom : tokenRoom (front ++ key :: back) token = token.length + 1 := by
          rw [tokenRoom, hparts]
          exact if_pos hkey
        have hfield := fieldRoom_headerNext (hks key hkey) h hparts
        simp only [headerRoom, List.map_append, List.map_cons, List.sum_append,
          List.sum_cons] at hfront hback ⊢
        omega
      · have hother := hsame hks hkey
        omega

theorem headerRoom_run {ks : List Bytes} (hks : ∀ k ∈ ks, k ∈ textKeys) (hnodup : ks.Nodup)
    (tokens : List Bytes) (h : Header) :
    headerRoom ks (tokens.foldl headerNext h) ≤
      headerRoom ks h + (tokens.map (tokenRoom ks)).sum := by
  induction tokens generalizing h with
  | nil => exact Nat.le_add_right _ _
  | cons token tokens ih =>
      have hstep := headerRoom_next hks hnodup h token
      have hrest := ih (headerNext h token)
      rw [List.foldl_cons, List.map_cons, List.sum_cons]
      omega

theorem fieldRoom_of_ne {h : Header} {k : Bytes} (hne : h.text k ≠ []) :
    fieldRoom h k = (fieldToken k (h.text k)).length + 1 := if_neg hne

theorem sum_tokenRoom_le (ks : List Bytes) (tokens : List Bytes) :
    (tokens.map (tokenRoom ks)).sum ≤ lineLength tokens := by
  induction tokens with
  | nil => exact Nat.le_refl 0
  | cons token tokens ih =>
      have htoken := tokenRoom_le ks token
      rw [List.map_cons, List.sum_cons, lineLength_cons]
      omega

theorem headerRoom_empty (ks : List Bytes) : headerRoom ks {} = 0 := by
  have hempty : ∀ k, fieldRoom {} k = 0 := fun k => if_pos (by simp [Header.text])
  rw [headerRoom, funext hempty]
  simp

/-- Of two tokens with one key only one counts. -/
theorem headerRoom_twice {k : Bytes} (hk : k ∈ textKeys) (before l₁ l₂ : List Bytes)
    (val val' : Bytes) :
    headerRoom textKeys
        (readHeader (before ++ fieldToken k val :: (l₁ ++ fieldToken k val' :: l₂))) ≤
      fieldRoom (readHeader (before ++ fieldToken k val :: (l₁ ++ fieldToken k val' :: l₂))) k +
        lineLength before + lineLength l₁ + lineLength l₂ := by
  obtain ⟨front, back, hsplit⟩ := List.append_of_mem hk
  have hothers : ∀ k' ∈ front ++ back, k' ∈ textKeys := by
    intro k' hk'
    rw [hsplit]
    rcases List.mem_append.mp hk' with hk' | hk'
    · exact List.mem_append_left _ hk'
    · exact List.mem_append_right _ (List.mem_cons_of_mem k hk')
  have hnodup : (front ++ k :: back).Nodup := hsplit ▸ (by decide : textKeys.Nodup)
  obtain ⟨hfresh, hrest⟩ := List.nodup_cons.mp (List.perm_middle.nodup_iff.mp hnodup)
  have hnone : ∀ val, tokenRoom (front ++ back) (fieldToken k val) = 0 := by
    intro val
    rw [tokenRoom, tokenParts_fieldToken (colon_of_text hk)]
    exact if_neg hfresh
  have hrun := headerRoom_run hothers hrest
    (before ++ fieldToken k val :: (l₁ ++ fieldToken k val' :: l₂)) {}
  have hbefore := sum_tokenRoom_le (front ++ back) before
  have hl₁ := sum_tokenRoom_le (front ++ back) l₁
  have hl₂ := sum_tokenRoom_le (front ++ back) l₂
  rw [← readHeader, headerRoom_empty] at hrun
  generalize readHeader (before ++ fieldToken k val :: (l₁ ++ fieldToken k val' :: l₂)) = h at hrun ⊢
  rw [hsplit]
  simp only [headerRoom, List.map_append, List.map_cons, List.sum_append, List.sum_cons,
    hnone] at hrun ⊢
  omega

/-! ## Strict headers -/

/-- What strict mode accepts as a header. -/
theorem parseHeader_strict_eq_ok {line : Bytes} {h : Header} {log : List Fault} :
    parseHeader line .strict log = .ok (h, log) ↔
      tokensFaults (headerTokens line) = [] ∧ (readHeader (headerTokens line)).complete = true ∧
        h = readHeader (headerTokens line) := by
  have hrun : Emits ((headerTokens line).foldlM headerToken {}) (readHeader (headerTokens line))
      (tokensFaults (headerTokens line)) := emits_headerTokens _ {}
  rw [parseHeader_eq]
  by_cases hfaults : tokensFaults (headerTokens line) = []
  · rw [bind_ok (hrun.strict_clean hfaults log)]
    cases hcomplete : (readHeader (headerTokens line)).complete with
    | false =>
        rw [bind_error (requireFields_strict hcomplete log)]
        simp
    | true =>
        rw [bind_ok ((emits_requireFields hcomplete).strict_clean rfl log), pure_apply]
        simp only [Except.ok.injEq, Prod.mk.injEq, and_true, hfaults, true_and]
        exact eq_comm
  · obtain ⟨fault, hfault⟩ := hrun.strict_fault hfaults log
    rw [bind_error hfault]
    simp [hfaults]

theorem length_foldHeader (headerLine : Bytes) (rest : List Bytes) :
    (foldHeader headerLine rest).1.length ≤
      headerLine.length + (rest.map fun line => line.length + 1).sum := by
  induction rest generalizing headerLine with
  | nil => exact Nat.le_add_right _ _
  | cons line rest ih =>
      have htrim : (trim line).length ≤ line.length := (Lib.Search.trimBoth_infix _ line).length_le
      unfold foldHeader
      dsimp only
      rw [List.map_cons, List.sum_cons]
      split_ifs
      · have hrest := ih headerLine
        omega
      · have hrest := ih (headerLine ++ ascii " " ++ trim line)
        have hblank : (ascii " ").length = 1 := rfl
        rw [List.length_append, List.length_append, hblank] at hrest
        omega
      · exact Nat.le_add_right _ _

theorem length_header_le {payload : Bytes} {parts : Bytes × List Bytes}
    (h : frameParts payload = some parts) : parts.1.length ≤ payload.length := by
  obtain ⟨line, rest, hlines, rfl⟩ := lines_of_frameParts h
  have hpieces : ((lines payload).map fun l : Bytes => l.length + 1).sum ≤ payload.length + 1 :=
    Lib.Split.length_splitTerminated _ payload
  rw [hlines, List.map_cons, List.sum_cons] at hpieces
  have hfold := length_foldHeader (trim line) rest
  have htrim : (trim line).length ≤ line.length := (Lib.Search.trimBoth_infix _ line).length_le
  omega

/-- The header of an accepted frame is read from one line, no longer than the frame. -/
theorem header_of_parse {maxSize : Nat} {payload : Bytes} {ast : AST}
    (h : parse .strict maxSize payload = .ok ast) :
    payload.length ≤ maxSize ∧ ∃ line, line.length ≤ payload.length ∧
      tokensFaults (headerTokens line) = [] ∧ ast.header = readHeader (headerTokens line) ∧
      ast.header.complete = true := by
  obtain ⟨hclean, hcomplete, rfl⟩ := parse_strict_eq_ok.mp h
  obtain ⟨hsize, parts, hparts, hfaults, hread⟩ := readFrame_of_clean hclean
  rw [hread] at hcomplete ⊢
  exact ⟨hsize, parts.1, length_header_le hparts, (List.append_eq_nil_iff.mp hfaults).1, rfl, hcomplete⟩

end LlmTop
