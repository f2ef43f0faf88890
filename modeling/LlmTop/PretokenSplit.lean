import LlmTop.PretokenMatch

/-!
# The split of a whole text

No pre-token ends inside a run of blanks that it did not begin, so every such
run before a word is met at its beginning.
-/
namespace LlmTop
namespace Cl100kTokenizer

open Lib.Backtrack Pattern

/-! ## What a pre-token looks like -/

/-- A pre-token has a blank at most in front, or is whitespace: a run of blanks,
or a run through its last line end. -/
inductive Shape : Bytes → Prop
  | word {c : UInt8} {piece : Bytes} (h : ∀ x ∈ piece, isBlank x = false) : Shape (c :: piece)
  | blanks {piece : Bytes} (hne : piece ≠ []) (h : ∀ x ∈ piece, isBlank x = true) : Shape piece
  | line {w : Bytes} {n : UInt8} (hw : ∀ x ∈ w, isSpace x = true) (hn : isNl n = true) :
      Shape (w ++ [n])

/-- The front of a text that a block takes. -/
def Takes (text : Bytes) (n : Nat) : Prop :=
  ∃ piece rest, text = piece ++ rest ∧ n = piece.length ∧ Shape piece

theorem isBlank_of_class {p : UInt8 → Bool} (hp : ∀ c, isSpace c = true → p c = false) {c : UInt8}
    (hc : p c = true) : isBlank c = false := by
  by_contra hblank
  have hspace := isSpace_of_isBlank (by simpa using hblank)
  rw [hp c hspace] at hc
  contradiction

theorem isBlank_of_isLetter {c : UInt8} (hc : isLetter c = true) : isBlank c = false :=
  isBlank_of_class (fun _ h => (classes_of_isSpace h).1) hc

theorem isBlank_of_isDigit {c : UInt8} (hc : isDigit c = true) : isBlank c = false :=
  isBlank_of_class (fun _ h => (classes_of_isSpace h).2.1) hc

theorem isBlank_of_isSymbol {c : UInt8} (hc : isSymbol c = true) : isBlank c = false :=
  isBlank_of_class (fun _ h => (classes_of_isSpace h).2.2.1) hc

theorem isBlank_of_isNl {c : UInt8} (hc : isNl c = true) : isBlank c = false := by
  rw [isBlank, hc, Bool.not_true, Bool.and_false]

/-- An optional first character and a run without blanks. -/
theorem takes_lead {text run rest : Bytes} {lead : Nat} (hlead : lead ≤ 1) (hne : text ≠ [])
    (hsplit : text.drop lead = run ++ rest) (hrunne : run ≠ [])
    (hrun : ∀ x ∈ run, isBlank x = false) : Takes text (lead + run.length) := by
  have hpos := List.length_pos_iff.mpr hne
  refine ⟨text.take lead ++ run, rest, ?_, ?_, ?_⟩
  · rw [List.append_assoc, ← hsplit, List.take_append_drop]
  · rw [List.length_append, List.length_take_of_le (by omega)]
  · obtain ⟨r, run, rfl⟩ := List.exists_cons_of_ne_nil hrunne
    obtain ⟨c, text, rfl⟩ := List.exists_cons_of_ne_nil hne
    rcases Nat.le_one_iff_eq_zero_or_eq_one.mp hlead with rfl | rfl
    · exact .word fun x hx => hrun x (List.mem_cons_of_mem r hx)
    · exact .word hrun

theorem takes_contraction {text : Bytes} {n : Nat} (h : contraction text = some n) :
    Takes text n := by
  have hletter : ∀ x : UInt8, isLetter (toLower x) = true → isBlank x = false := fun x hx =>
    isBlank_of_isLetter (isLetter_of_toLower hx)
  match text with
  | [] => exact absurd h.symm (Option.some_ne_none n)
  | [c] => exact absurd h.symm (Option.some_ne_none n)
  | c :: d :: rest =>
      rw [contraction] at h
      split at h
      · dsimp only at h
        split at h
        · rename_i hd
          obtain rfl := Option.some.inj h
          refine ⟨[c, d], rest, rfl, rfl, .word fun x hx => ?_⟩
          rw [List.mem_singleton.mp hx]
          apply hletter
          rcases hd with hd | hd | hd | hd <;> rw [hd] <;> decide
        · split at h
          · rename_i e more
            split at h
            · rename_i hde
              obtain rfl := Option.some.inj h
              refine ⟨[c, d, e], more, rfl, rfl, .word fun x hx => ?_⟩
              rcases List.mem_cons.mp hx with rfl | hx
              · apply hletter
                rcases hde with hde | hde | hde <;> rw [hde.1] <;> decide
              · rw [List.mem_singleton.mp hx]
                apply hletter
                rcases hde with hde | hde | hde <;> rw [hde.2] <;> decide
            · exact absurd h.symm (Option.some_ne_none n)
          · exact absurd h.symm (Option.some_ne_none n)
      · exact absurd h.symm (Option.some_ne_none n)

theorem takes_letters {text : Bytes} (hne : text ≠ []) {n : Nat} (h : letters text = some n) :
    Takes text n := by
  unfold letters at h
  dsimp only at h
  generalize hlead : (if (!isNl (text.headD 0) && !isLetter (text.headD 0) &&
    !isDigit (text.headD 0)) = true then 1 else 0) = lead at h
  have hle : lead ≤ 1 := by
    rw [← hlead]
    split <;> omega
  split at h
  · rename_i hrun
    obtain rfl := Option.some.inj h
    exact takes_lead hle hne List.takeWhile_append_dropWhile.symm (List.length_pos_iff.mp hrun)
      fun x hx => isBlank_of_isLetter (List.mem_takeWhile_imp hx)
  · contradiction

theorem takes_digits {text : Bytes} {n : Nat} (h : digits text = some n) : Takes text n := by
  unfold digits at h
  split at h
  · rename_i hc
    obtain rfl := Option.some.inj h
    obtain ⟨rest, hrest⟩ := (List.takeWhile_prefix isDigit).trans (List.take_prefix 3 text)
    cases text with
    | nil => exact absurd hc (by decide)
    | cons c text =>
        have hrunne : ((c :: text).take 3).takeWhile isDigit ≠ [] := by
          rw [List.take_succ_cons, List.takeWhile_cons, if_pos (show isDigit c = true from hc)]
          exact List.cons_ne_nil _ _
        rw [← Nat.zero_add (List.length _)]
        exact takes_lead (Nat.zero_le 1) (List.cons_ne_nil _ _) hrest.symm hrunne
          fun x hx => isBlank_of_isDigit (List.mem_takeWhile_imp hx)
  · contradiction

theorem takes_symbols {text : Bytes} (hne : text ≠ []) {n : Nat} (h : symbols text = some n) :
    Takes text n := by
  unfold symbols at h
  dsimp only at h
  generalize hlead : (if text.headD 0 = ' '.toUInt8 then 1 else 0) = lead at h
  have hle : lead ≤ 1 := by
    rw [← hlead]
    split <;> omega
  split at h
  · rename_i hrun
    obtain rfl := Option.some.inj h
    have hdrop : text.drop (lead + ((text.drop lead).takeWhile isSymbol).length) =
        (text.drop lead).dropWhile isSymbol := by
      rw [← List.drop_drop]
      exact (congrArg (List.drop _) (List.takeWhile_append_dropWhile (p := isSymbol)).symm).trans
        List.drop_left
    have hsplit : text.drop lead = ((text.drop lead).takeWhile isSymbol ++
        ((text.drop lead).dropWhile isSymbol).takeWhile isNl) ++
        ((text.drop lead).dropWhile isSymbol).dropWhile isNl := by
      rw [List.append_assoc, List.takeWhile_append_dropWhile, List.takeWhile_append_dropWhile]
    rw [hdrop, Nat.add_assoc, ← List.length_append]
    refine takes_lead hle hne hsplit ?_ fun x hx => ?_
    · exact List.append_ne_nil_of_left_ne_nil (List.length_pos_iff.mp hrun) _
    · rcases List.mem_append.mp hx with hx | hx
      · exact isBlank_of_isSymbol (List.mem_takeWhile_imp hx)
      · exact isBlank_of_isNl (List.mem_takeWhile_imp hx)
  · contradiction

theorem takes_wordPretoken {text : Bytes} (hne : text ≠ []) {n : Nat}
    (h : wordPretoken text = some n) : Takes text n := by
  simp only [wordPretoken, Option.or_eq_some_iff] at h
  rcases h with ((h | ⟨-, h⟩) | ⟨-, h⟩) | ⟨-, h⟩
  · exact takes_contraction h
  · exact takes_letters hne h
  · exact takes_digits h
  · exact takes_symbols hne h

theorem takes_nextPretoken {text : Bytes} (hne : text ≠ []) : Takes text (nextPretoken text) := by
  rw [nextPretoken_eq]
  cases hword : wordPretoken text with
  | some n => exact takes_wordPretoken hne hword
  | none =>
      obtain ⟨w, rest, rfl, hrest, hw⟩ := exists_run text
      have hwne : w ≠ [] := run_ne_nil hne hrest hword
      rcases blanks_or_line hw with hv | ⟨u, n, v, rfl, hu, hn, hv⟩
      · rw [spaces_blanks hv hrest hwne]
        exact ⟨w, rest, rfl, rfl, .blanks hwne hv⟩
      · rw [List.append_assoc, List.cons_append, spaces_line hv hrest hu hn]
        exact ⟨u ++ [n], v ++ rest, by simp, by simp, .line hu hn⟩

/-! ## Blanks before a word -/

/-- Whitespace at the front of the blanks and the word behind them is blank. -/
theorem isBlank_of_prefix {v z rest : Bytes} {x : UInt8} (hv : ∀ c ∈ v, isBlank c = true)
    (hx : isSpace x = false) (hz : z <+: v ++ x :: rest) (hspace : ∀ c ∈ z, isSpace c = true) :
    ∀ c ∈ z, isBlank c = true := by
  rcases List.prefix_or_prefix_of_prefix hz (List.prefix_append v (x :: rest)) with hzv | ⟨t, rfl⟩
  · exact fun c hc => hv c (hzv.subset hc)
  · rw [List.prefix_append_right_inj] at hz
    cases t with
    | nil => rwa [List.append_nil]
    | cons d t =>
        obtain ⟨rfl, -⟩ := List.cons_prefix_cons.mp hz
        rw [hspace d (by simp)] at hx
        contradiction

/-- A piece that is longer than `front` and one byte takes the next byte too. -/
theorem exists_behind {front piece behind tail : Bytes} {y b : UInt8}
    (h : (front ++ [y]) ++ b :: tail = piece ++ behind) (hlong : front.length + 1 < piece.length) :
    ∃ z, piece = (front ++ [y]) ++ b :: z ∧ b :: z <+: b :: tail := by
  rcases List.append_eq_append_iff.mp h with ⟨z, rfl, hz⟩ | ⟨z, hz, -⟩
  · cases z with
    | nil => simp at hlong
    | cons c z =>
        obtain ⟨rfl, htail⟩ := List.cons.inj hz
        exact ⟨z, rfl, behind, hz.symm⟩
  · have hcount := congrArg List.length hz
    simp only [List.length_append, List.length_singleton] at hcount
    omega

/-- No pre-token goes on behind the first blank of such a run. -/
theorem nextPretoken_le {front back : Bytes} {y : UInt8} (hy : isBlank y = false)
    (hback : GivesBack back) : nextPretoken (front ++ y :: back) ≤ front.length + 1 := by
  obtain ⟨v, x, rest, rfl, hlong, hv, hx⟩ := hback
  obtain ⟨piece, behind, hsplit, hlength, hshape⟩ :=
    takes_nextPretoken (show front ++ y :: (v ++ x :: rest) ≠ [] by simp)
  rw [hlength]
  by_contra hlt
  -- the piece reaches into the blanks
  obtain ⟨b, v, rfl⟩ := List.exists_cons_of_ne_nil (List.length_pos_iff.mp (by omega : 0 < v.length))
  have hb := hv b List.mem_cons_self
  have hcut : (front ++ [y]) ++ b :: (v ++ x :: rest) = piece ++ behind := by
    rw [← hsplit, List.append_assoc, List.singleton_append]
    rfl
  obtain ⟨z, rfl, hz⟩ := exists_behind hcut (Nat.not_le.mp hlt)
  have hy' : y ∈ (front ++ [y]) ++ b :: z := by simp
  have hb' : b ∈ ((front ++ [y]) ++ b :: z).tail := by cases front <;> simp
  generalize hwhole : (front ++ [y]) ++ b :: z = whole at *
  cases hshape with
  | word h =>
      rw [List.tail_cons] at hb'
      rw [h b hb'] at hb
      contradiction
  | blanks _ h =>
      rw [h y hy'] at hy
      contradiction
  | @line w n hw hn =>
      have hspace : ∀ c ∈ b :: z, isSpace c = true := by
        intro c hc
        have hmem : c ∈ w ++ [n] := by
          rw [← hwhole]
          exact List.mem_append_right _ hc
        rcases List.mem_append.mp hmem with hmem | hmem
        · exact hw c hmem
        · rw [List.mem_singleton.mp hmem]
          exact isSpace_of_isNl hn
      have hlast : n ∈ b :: z := by
        have hend := congrArg List.getLast? hwhole
        rw [List.getLast?_append_of_ne_nil _ (List.cons_ne_nil b z), List.getLast?_concat] at hend
        exact List.mem_of_getLast? hend
      have hblank := isBlank_of_prefix hv hx hz hspace n hlast
      rw [isBlank_of_isNl hn] at hblank
      contradiction

/-- Some run of two or more blanks stands before a word. -/
def Indents (text : Bytes) : Prop := ∃ front back, text = front ++ back ∧ GivesBack back

theorem indents_iff {text : Bytes} :
    Indents text ↔ ∃ a b x, [a, b, x] <:+: text ∧ isBlank a = true ∧ isBlank b = true ∧
      isSpace x = false := by
  constructor
  · rintro ⟨front, _, rfl, v, x, rest, rfl, hlong, hv, hx⟩
    cases v using List.reverseRecOn with
    | nil => exact absurd hlong (by decide)
    | append_singleton v b =>
        cases v using List.reverseRecOn with
        | nil => simp at hlong
        | append_singleton v a =>
            exact ⟨a, b, x, ⟨front ++ v, rest, by simp⟩, hv a (by simp), hv b (by simp), hx⟩
  · rintro ⟨a, b, x, ⟨front, rest, rfl⟩, ha, hb, hx⟩
    refine ⟨front, a :: b :: x :: rest, by simp, [a, b], x, rest, rfl, le_rfl, ?_, hx⟩
    intro c hc
    rcases List.mem_pair.mp hc with rfl | rfl
    · exact ha
    · exact hb

theorem GivesBack.indents {text : Bytes} (h : GivesBack text) : Indents text := ⟨[], text, rfl, h⟩

theorem Indents.of_drop {text : Bytes} {n : Nat} (h : Indents (text.drop n)) : Indents text := by
  obtain ⟨front, back, hsplit, hback⟩ := h
  refine ⟨text.take n ++ front, back, ?_, hback⟩
  rw [List.append_assoc, ← hsplit, List.take_append_drop]

/-- Such a run is either met at its beginning or left for later. -/
theorem Indents.later {text : Bytes} (h : Indents text) (hgives : ¬ GivesBack text) :
    Indents (text.drop (nextPretoken text)) := by
  obtain ⟨front, back, hsplit, hback⟩ := h
  induction front using List.reverseRecOn generalizing back with
  | nil => exact absurd (hsplit ▸ hback) hgives
  | append_singleton front y ih =>
      rw [List.append_assoc, List.singleton_append] at hsplit
      cases hy : isBlank y with
      | true =>
          obtain ⟨v, x, rest, rfl, hlong, hv, hx⟩ := hback
          refine ih (y :: (v ++ x :: rest)) hsplit ⟨y :: v, x, rest, rfl, ?_, ?_, hx⟩
          · exact Nat.le_succ_of_le hlong
          · intro c hc
            rcases List.mem_cons.mp hc with rfl | hc
            · exact hy
            · exact hv c hc
      | false =>
          have hle : nextPretoken (front ++ y :: back) ≤ front.length + 1 := nextPretoken_le hy hback
          rw [← hsplit] at hle
          refine ⟨(front ++ [y]).drop (nextPretoken text), back, ?_, hback⟩
          have hcut : text = (front ++ [y]) ++ back := by simp [hsplit]
          rw [← List.drop_append_of_le_length (by simpa using hle), ← hcut]

theorem Shape.ne_nil {piece : Bytes} (h : Shape piece) : piece ≠ [] := by
  cases h with
  | word _ => exact List.cons_ne_nil _ _
  | blanks hne _ => exact hne
  | line _ _ => simp

/-- A pre-token is not empty and ends in the text. -/
theorem nextPretoken_bounds {text : Bytes} (hne : text ≠ []) :
    1 ≤ nextPretoken text ∧ nextPretoken text ≤ text.length := by
  obtain ⟨piece, rest, rfl, hlength, hshape⟩ := takes_nextPretoken hne
  have hpos := List.length_pos_iff.mpr hshape.ne_nil
  rw [hlength, List.length_append]
  omega

theorem pretokenLoop_eq {text : Bytes} (h : ¬ Indents text) (fuel : Nat) :
    pretokenLoop fuel text = matchesFrom cl100kPattern fuel text := by
  induction fuel generalizing text with
  | zero => rfl
  | succ fuel ih =>
      cases text with
      | nil => rfl
      | cons c rest =>
          have hne := List.cons_ne_nil c rest
          have hfirst := first_of_not_givesBack hne fun hgives => h hgives.indents
          have hmax := max_eq_left (nextPretoken_bounds hne).1
          have hdrop : ¬ Indents ((c :: rest).drop (nextPretoken (c :: rest))) := fun hindents =>
            h hindents.of_drop
          have hlater := ih hdrop
          simp only [pretokenLoop, matchesFrom, hfirst, hmax, hlater]

theorem pretokenLoop_ne {text : Bytes} (h : Indents text) {fuel : Nat} (hfuel : text.length ≤ fuel) :
    pretokenLoop fuel text ≠ matchesFrom cl100kPattern fuel text := by
  induction fuel generalizing text with
  | zero =>
      obtain rfl := List.length_eq_zero_iff.mp (Nat.le_zero.mp hfuel)
      obtain ⟨front, back, hsplit, v, x, rest, rfl, -⟩ := h
      simp at hsplit
  | succ fuel ih =>
      cases text with
      | nil =>
          obtain ⟨front, back, hsplit, v, x, rest, rfl, -⟩ := h
          simp at hsplit
      | cons c rest =>
          have hne := List.cons_ne_nil c rest
          obtain ⟨hpos, hle⟩ := nextPretoken_bounds hne
          intro heq
          by_cases hgives : GivesBack (c :: rest)
          · obtain ⟨-, hlong, hfirst⟩ := first_of_givesBack hgives
            simp only [pretokenLoop, matchesFrom, hfirst] at heq
            have hlength := congrArg List.length (List.cons.inj heq).1
            rw [List.length_take_of_le hle, List.length_take_of_le (by omega)] at hlength
            omega
          · have hfirst := first_of_not_givesBack hne hgives
            have hmax := max_eq_left hpos
            simp only [pretokenLoop, matchesFrom, hfirst, hmax] at heq
            refine ih (h.later hgives) ?_ (List.cons.inj heq).2
            rw [List.length_drop]
            omega

theorem requireAscii_ok {text : Bytes} (h : ∀ c ∈ text, c < 0x80) : requireAscii text = .ok () := by
  have hnone : text.findIdx? (fun c => 0x80 ≤ c) = none := by
    rw [List.findIdx?_eq_none_iff]
    intro c hc
    exact decide_eq_false (UInt8.not_le.mpr (h c hc))
  rw [requireAscii, hnone]

/-- On ASCII the split is the pattern's, but for texts with a run of two or more
blanks before a word: the pattern leaves the last blank to the word. -/
theorem pretokens_eq_findAll_iff {text : Bytes} (hascii : ∀ c ∈ text, c < 0x80) :
    pretokens text = .ok (cl100kPattern.findAll text) ↔
      ∀ a b x, [a, b, x] <:+: text → isBlank a = true → isBlank b = true → isSpace x = true := by
  have hsplit : pretokens text = .ok (pretokenLoop text.length text) := by
    rw [pretokens, requireAscii_ok hascii]
    rfl
  rw [hsplit, Except.ok.injEq, findAll]
  constructor
  · intro heq a b x hmeets ha hb
    by_contra hx
    have hindents : Indents text :=
      indents_iff.mpr ⟨a, b, x, hmeets, ha, hb, by simpa using hx⟩
    exact pretokenLoop_ne hindents le_rfl heq
  · intro h
    apply pretokenLoop_eq
    intro hindents
    obtain ⟨a, b, x, hmeets, ha, hb, hx⟩ := indents_iff.mp hindents
    rw [h a b x hmeets ha hb] at hx
    contradiction

theorem pretokens_eq_findAll_word :
    pretokens (ascii "a b") = .ok (cl100kPattern.findAll (ascii "a b")) := by
  refine (pretokens_eq_findAll_iff (by decide +kernel)).mpr fun a b x hmeets ha _ => ?_
  obtain rfl : a = 'a'.toUInt8 := (List.cons.inj (hmeets.eq_of_length rfl)).1
  exact absurd ha (by decide)

/-- The pattern reads `a`, one space, and ` b`. -/
theorem pretokens_two_spaces :
    pretokens (ascii "a  b") = .ok [ascii "a", ascii "  ", ascii "b"] ∧
      cl100kPattern.findAll (ascii "a  b") = [ascii "a", ascii " ", ascii " b"] ∧
      pretokens (ascii "a  b") ≠ .ok (cl100kPattern.findAll (ascii "a  b")) := by
  have hcode : pretokens (ascii "a  b") = .ok [ascii "a", ascii "  ", ascii "b"] := rfl
  have hpattern : cl100kPattern.findAll (ascii "a  b") = [ascii "a", ascii " ", ascii " b"] := rfl
  refine ⟨hcode, hpattern, ?_⟩
  rw [hcode, hpattern]
  decide

end Cl100kTokenizer
end LlmTop
