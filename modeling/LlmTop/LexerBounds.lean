import LlmTop.CheckedParser
import LlmTop.LexerLaws

/-!
# Positions in tokens

Splitting, unquoting and the pieces of a token with their positions refine the
functions over lists of bytes.
-/
namespace LlmTop.Checked
open Lib Lib.Traced Lib.CheckedText

/-! ## Tokens -/

variable {text rest : Bytes} {pos : UInt64}

theorem refines_lexLoop (hs : Addressable text) (delim : UInt8) {fuel : Nat} (hfuel : rest.length < fuel)
    (h : Stands text pos rest) (s : LexState) :
    Refines Access.InRange Eq (lexLoop text delim fuel pos s) (.ok (rest.foldl (lexStep delim) s)) := by
  induction fuel generalizing pos rest s with
  | zero => contradiction
  | succ fuel ih =>
      unfold lexLoop
      cases rest with
      | nil =>
          rw [if_neg (h.not_lt_size hs)]
          exact refines_pure rfl
      | cons c rest =>
          rw [if_pos (h.lt_size hs)]
          apply refines_after (refines_elemAt h.elem)
          exact ih (Nat.lt_of_succ_lt_succ hfuel) (h.next hs).2 (lexStep delim s c)

theorem refines_lexSplit (hs : Addressable text) (delim : UInt8) :
    Refines Access.InRange Eq (lexSplit text delim) (.ok (LlmTop.lexSplit text delim)) := by
  apply refines_after (refines_lexLoop hs delim (Nat.lt_succ_self _) (stands_start text) {})
  exact refines_pure rfl

theorem unescape_pair (next : UInt8) (rest : Bytes) :
    unescape (backslash :: next :: rest) = unescaped backslash next ++ unescape rest := by
  rw [unescape, if_pos rfl]
  unfold unescaped
  split_ifs <;> rfl

theorem size_sub_one (hs : Addressable text) (hlength : 2 ≤ text.length) :
    (size text - 1).toNat = text.length - 1 := by
  rw [UInt64.toNat_sub, hs.toNat_size]
  show (2 ^ 64 - 1 + text.length) % 2 ^ 64 = text.length - 1
  unfold Addressable at hs
  omega

/-- The loop's test, in front of the closing quote and at it. -/
theorem lt_last_iff (hs : Addressable text) (hlength : 2 ≤ text.length) {last : UInt8}
    (h : Stands text pos (rest ++ [last])) : pos < size text - 1 ↔ rest ≠ [] := by
  have hend := h.length
  rw [List.length_append, List.length_singleton] at hend
  rw [UInt64.lt_iff_toNat_lt, size_sub_one hs hlength, ← List.length_pos_iff]
  omega

/-- In front of the closing quote: the loop stops there and unescapes what is left of the body. -/
theorem refines_unescapeLoop (hs : Addressable text) (hlength : 2 ≤ text.length) {last : UInt8} {fuel : Nat}
    (hfuel : rest.length < fuel) (h : Stands text pos (rest ++ [last])) (result : Bytes) :
    Refines Access.InRange Eq (unescapeLoop text fuel pos result)
      (.ok (result ++ unescape rest)) := by
  induction fuel generalizing pos rest result with
  | zero => contradiction
  | succ fuel ih =>
      have hloop := lt_last_iff hs hlength h
      unfold unescapeLoop
      cases rest with
      | nil =>
          rw [if_neg fun hlt => hloop.mp hlt rfl]
          exact refines_pure (List.append_nil result).symm
      | cons c rest =>
          have hnext := (h.next hs).2
          have hpair := lt_last_iff hs hlength hnext
          rw [if_pos (hloop.mpr (List.cons_ne_nil c rest))]
          apply refines_after (refines_elemAt h.elem)
          rw [List.length_cons] at hfuel
          by_cases hescape : c = backslash ∧ pos + 1 < size text - 1
          · rw [if_pos hescape]
            obtain ⟨next, rest, rfl⟩ := List.exists_cons_of_ne_nil (hpair.mp hescape.2)
            obtain ⟨rfl, -⟩ := hescape
            apply refines_after (refines_elemAt hnext.elem)
            rw [unescape_pair, ← List.append_assoc]
            apply ih _ (hnext.next hs).2
            rw [List.length_cons] at hfuel
            omega
          · rw [if_neg hescape]
            have hkept : unescape (c :: rest) = [c] ++ unescape rest := by
              by_cases hc : c = backslash
              · have hrest : rest = [] := not_not.mp fun hne => hescape ⟨hc, hpair.mpr hne⟩
                rw [hrest]
                rfl
              · exact unescape_plain hc rest
            rw [hkept, ← List.append_assoc]
            exact ih (by omega) hnext _

theorem exists_ends {s : Bytes} (h : 2 ≤ s.length) :
    ∃ front body back, s = front :: (body ++ [back]) := by
  obtain ⟨front, rest, rfl⟩ := List.exists_cons_of_length_pos (Nat.lt_of_succ_le (Nat.le_of_succ_le h))
  rcases List.eq_nil_or_concat rest with rfl | ⟨body, back, rfl⟩
  · rw [List.length_singleton] at h
    omega
  · exact ⟨front, body, back, by rw [List.concat_eq_append]⟩

theorem refines_unquoteAndUnescape (hs : Addressable text) :
    Refines Access.InRange Eq (unquoteAndUnescape text) (.ok (LlmTop.unquoteAndUnescape text)) := by
  unfold unquoteAndUnescape
  have hsmall : size text < 2 ↔ text.length < 2 := by
    rw [UInt64.lt_iff_toNat_lt, hs.toNat_size]
    rfl
  by_cases hshort : text.length < 2
  · rw [if_pos (hsmall.mpr hshort)]
    unfold LlmTop.unquoteAndUnescape
    rw [if_pos (Or.inl hshort)]
    exact refines_pure rfl
  · have hlength := Nat.le_of_not_lt hshort
    have hend := size_sub_one hs hlength
    rw [if_neg fun h => hshort (hsmall.mp h)]
    obtain ⟨front, body, back, rfl⟩ := exists_ends hlength
    rw [unquoteAndUnescape_ends]
    apply refines_after (refines_elemAt (stands_start _).elem)
    apply refines_ite_ok fun _ => refines_pure rfl
    intro hfront
    have hback : (front :: (body ++ [back]))[(size (front :: (body ++ [back])) - 1).toNat]? =
        some back := by
      rw [hend]
      simp
    apply refines_after (refines_elemAt hback)
    apply refines_ite_ok fun _ => refines_pure rfl
    intro _
    apply refines_unescapeLoop hs hlength _ ((stands_start _).next hs).2 []
    rw [List.length_cons, List.length_append]
    omega

theorem refines_bracketLoop (hs : Addressable text) {fuel : Nat} (hfuel : rest.length < fuel)
    (h : Stands text pos rest) (inQuotes inEscape : Bool) :
    Refines Access.InRange Eq (bracketLoop text fuel pos inQuotes inEscape)
      (.ok (position ((closingBracket inQuotes inEscape rest).map (pos.toNat + ·)))) := by
  induction fuel generalizing pos rest inQuotes inEscape with
  | zero => contradiction
  | succ fuel ih =>
      unfold bracketLoop
      cases rest with
      | nil =>
          rw [if_neg (h.not_lt_size hs)]
          exact refines_pure rfl
      | cons c rest =>
          have hnext := h.next hs
          have hlater : ∀ inQuotes inEscape : Bool,
              Refines Access.InRange Eq (bracketLoop text fuel (pos + 1) inQuotes inEscape)
                (.ok (position (((closingBracket inQuotes inEscape rest).map (· + 1)).map
                  (pos.toNat + ·)))) := by
            intro inQuotes inEscape
            have hrest := ih (Nat.lt_of_succ_lt_succ hfuel) hnext.2 inQuotes inEscape
            rw [hnext.1] at hrest
            have hshift : (pos.toNat + ·) ∘ (· + 1) = (pos.toNat + 1 + ·) := by
              funext i
              show pos.toNat + (i + 1) = pos.toNat + 1 + i
              omega
            rw [Option.map_map, hshift]
            exact hrest
          rw [if_pos (h.lt_size hs)]
          apply refines_after (refines_elemAt h.elem)
          unfold closingBracket
          split_ifs
          · exact hlater inQuotes false
          · exact hlater inQuotes true
          · exact hlater (!inQuotes) false
          · apply refines_pure
            show pos = UInt64.ofNat (pos.toNat + 0)
            rw [Nat.add_zero, UInt64.ofNat_toNat]
          · exact hlater inQuotes false

/-! ## Pieces of a token -/

theorem refines_substr_front {c : UInt8} {i : Nat} (h : (find c text).toNat = i) :
    Refines Access.InRange Eq (substr text 0 (find c text)) (.ok (text.take i)) := by
  rw [← h]
  exact refines_front _

theorem refines_substr_back (hs : Addressable text) {i : Nat} (hi : i < text.length)
    (h : (pos + 1).toNat = i + 1) :
    Refines Access.InRange Eq (substr text (pos + 1) npos) (.ok (text.drop (i + 1))) := by
  rw [← h]
  apply refines_back _ hs
  omega

theorem refines_methodAfter (hs : Addressable text) {found : Option Nat}
    (hfound : ∀ i, found = some i → i < text.length) :
    Refines Access.InRange Eq (methodAfter text (position found))
      (.ok (LlmTop.methodAfter text found)) := by
  cases found with
  | none => exact refines_pure rfl
  | some i =>
      have hi := hfound i rfl
      have hsmall : i < 2 ^ 64 - 1 := Nat.lt_trans hi hs
      unfold methodAfter
      rw [if_neg (position_ne_npos hsmall)]
      apply refines_after (refines_substr_back hs hi (position_succ hsmall))
      apply refines_after (refines_trim _ (hs.of_le (by rw [List.length_drop]; omega)))
      exact refines_pure rfl

theorem min_of_le {a b : UInt64} (h : a ≤ b) : min a b = a := if_pos h

theorem min_of_not_le {a b : UInt64} (h : ¬ a ≤ b) : min a b = b := if_neg h

/-- A search that fails loses against any other. -/
theorem position_minPos {i j : Option Nat} (hi : ∀ n ∈ i, n < 2 ^ 64 - 1)
    (hj : ∀ n ∈ j, n < 2 ^ 64 - 1) :
    position (minPos i j) = min (position i) (position j) := by
  have hlast : ∀ a : UInt64, a ≤ npos := by
    intro a
    have ha := a.toNat_lt
    rw [UInt64.le_iff_toNat_le, toNat_npos]
    omega
  have hbelow : ∀ {n : Nat}, n < 2 ^ 64 - 1 → ¬ npos ≤ position (some n) := by
    intro n hn
    rw [UInt64.le_iff_toNat_le, toNat_position hn, toNat_npos]
    omega
  cases i with
  | none =>
      cases j with
      | none => rfl
      | some n => exact (min_of_not_le (hbelow (hj n rfl))).symm
  | some m =>
      cases j with
      | none => exact (min_of_le (hlast _)).symm
      | some n =>
          have hle : position (some m) ≤ position (some n) ↔ m ≤ n := by
            rw [UInt64.le_iff_toNat_le, toNat_position (hi m rfl), toNat_position (hj n rfl)]
          show position (some (min m n)) = _
          by_cases h : m ≤ n
          · rw [Nat.min_eq_left h, min_of_le (hle.mpr h)]
          · rw [Nat.min_eq_right (Nat.le_of_not_le h), min_of_not_le (mt hle.mp h)]

theorem refines_bindingEquals (hs : Addressable text) :
    Refines Access.InRange Eq (bindingEquals text)
      (.ok (position ((Search.find '='.toUInt8 text).filter fun i =>
        isBareIdentifier (text.take i)))) := by
  unfold bindingEquals
  dsimp only
  rcases find_cases hs '='.toUInt8 with ⟨hnone, hpos⟩ | ⟨i, hsome, -, hne, hpos, -⟩
  · rw [hnone, if_pos hpos]
    exact refines_pure rfl
  · rw [if_neg hne]
    apply refines_after (refines_substr_front hpos)
    unfold find
    rw [hsome]
    by_cases hbare : isBareIdentifier (text.take i) = true
    · rw [if_pos hbare, Option.filter_some, if_pos hbare]
      exact refines_pure rfl
    · rw [if_neg hbare, Option.filter_some, if_neg hbare]
      exact refines_pure rfl

/-- The two pieces of a token around a separator. -/
theorem refines_pieces (hs : Addressable text) {sep : Option Nat} (hsep : ∀ n ∈ sep, n < text.length) :
    Refines Access.InRange Eq
      (if position sep = npos then pure none
      else do
        let key ← substr text 0 (position sep)
        let val ← substr text (position sep + 1) npos
        pure (some (key, val)))
      (.ok (sep.map fun i => (text.take i, text.drop (i + 1)))) := by
  cases sep with
  | none => exact refines_pure rfl
  | some i =>
      have hi := hsep i rfl
      have hsmall : i < 2 ^ 64 - 1 := Nat.lt_trans hi hs
      have hfront : Refines Access.InRange Eq (substr text 0 (position (some i)))
          (.ok (text.take (position (some i)).toNat)) := refines_front Raised.outOfRange
      rw [toNat_position hsmall] at hfront
      rw [if_neg (position_ne_npos hsmall)]
      apply refines_after hfront
      apply refines_after (refines_substr_back hs hi (position_succ hsmall))
      exact refines_pure rfl

theorem minPos_lt {i j : Option Nat} {bound : Nat} (hi : ∀ n ∈ i, n < bound)
    (hj : ∀ n ∈ j, n < bound) : ∀ n ∈ minPos i j, n < bound := by
  cases i with
  | none => exact hj
  | some m =>
      cases j with
      | none => exact hi
      | some k =>
          intro n hn
          obtain rfl := Option.some.inj hn
          exact Nat.lt_of_le_of_lt (Nat.min_le_left m k) (hi m rfl)

theorem refines_splitToken (hs : Addressable text) :
    Refines Access.InRange Eq (splitToken text) (.ok (LlmTop.splitToken text)) := by
  have hcolon : ∀ n ∈ Search.find ':'.toUInt8 text, n < text.length := fun n hn => find_lt hn
  have hequals : ∀ n ∈ (Search.find '='.toUInt8 text).filter fun i =>
      isBareIdentifier (text.take i), n < text.length :=
    fun n hn => find_lt (Option.mem_filter_iff.mp hn).1
  have hmin := position_minPos (fun n hn => Nat.lt_trans (hcolon n hn) hs)
    (fun n hn => Nat.lt_trans (hequals n hn) hs)
  have hpieces := refines_pieces hs (minPos_lt hcolon hequals)
  rw [hmin] at hpieces
  apply refines_after (refines_bindingEquals hs)
  exact hpieces

theorem refines_splitArg (hs : Addressable text) :
    Refines Access.InRange Eq (splitArg text) (.ok (LlmTop.splitArg text)) :=
  refines_pieces hs fun _ hn => find_lt hn

theorem isHeaderContinuation_cons {c : UInt8} (rest : Bytes) (hrole : c ≠ '['.toUInt8)
    (htool : c ≠ '!'.toUInt8) :
    LlmTop.isHeaderContinuation (c :: rest) =
      if (Search.find ' '.toUInt8 (c :: rest)).isSome then false
      else (Search.find ':'.toUInt8 (c :: rest)).any fun colon =>
        colon ≠ 0 && headerKeys.contains ((c :: rest).take colon) := by
  unfold LlmTop.isHeaderContinuation
  have hplain : ¬ ((c :: rest).isEmpty || (c :: rest).head? == some '['.toUInt8 ||
      (c :: rest).head? == some '!'.toUInt8) = true := by
    simp [hrole, htool]
  have hspace : ' '.toUInt8 ∈ c :: rest ↔ (Search.find ' '.toUInt8 (c :: rest)).isSome := by
    rw [Option.isSome_iff_ne_none, ne_eq, Search.find_eq_none, not_not]
  rw [if_neg hplain]
  simp only [hspace]
  cases Search.find ':'.toUInt8 (c :: rest) <;> rfl

theorem refines_isHeaderContinuation (hs : Addressable text) :
    Refines Access.InRange Eq (isHeaderContinuation text)
      (.ok (LlmTop.isHeaderContinuation text)) := by
  unfold isHeaderContinuation
  cases text with
  | nil => exact refines_pure rfl
  | cons c rest =>
      have hfirst : Refines Access.InRange Eq (elemAt (c :: rest) 0 : Run Access Raised UInt8)
          (.ok c) := refines_elemAt (stands_start (c :: rest)).elem
      rw [if_neg (by simp)]
      apply refines_after hfirst
      by_cases hrole : c = '['.toUInt8
      · rw [if_pos hrole]
        apply refines_pure
        simp [LlmTop.isHeaderContinuation, hrole]
      · rw [if_neg hrole]
        apply refines_after hfirst
        by_cases htool : c = '!'.toUInt8
        · rw [if_pos htool]
          apply refines_pure
          simp [LlmTop.isHeaderContinuation, htool]
        · rw [if_neg htool, isHeaderContinuation_cons rest hrole htool]
          rcases find_cases hs ' '.toUInt8 with ⟨hspace, hpos⟩ | ⟨i, hspace, -, hne, -, -⟩
          · rw [hspace, Option.isSome_none, if_neg Bool.false_ne_true, if_neg (not_not_intro hpos)]
            rcases find_cases hs ':'.toUInt8 with ⟨hcolon, hpos⟩ | ⟨i, hcolon, -, hne, hpos, -⟩
            · rw [hcolon, if_pos (Or.inl hpos)]
              exact refines_pure rfl
            · have hzero : find ':'.toUInt8 (c :: rest) = 0 ↔ i = 0 := by
                rw [← UInt64.toNat_inj, hpos]
                rfl
              rw [hcolon]
              by_cases hi : i = 0
              · rw [if_pos (Or.inr (hzero.mpr hi))]
                apply refines_pure
                simp [hi]
              · rw [if_neg (not_or.mpr ⟨hne, mt hzero.mp hi⟩)]
                apply refines_after (refines_substr_front hpos)
                apply refines_pure
                simp [hi]
          · rw [hspace, if_pos hne]
            exact refines_pure rfl

end LlmTop.Checked
