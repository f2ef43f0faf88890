import LlmTop.Pretokens

/-!
# The split against the pattern

The hand-written blocks match what the alternatives of the pattern match, but
for the lookahead: behind it `\s+` gives its last character back, and the code
does not.
-/
namespace LlmTop
namespace Cl100kTokenizer

open Lib.Backtrack Pattern

/-- Whitespace that ends no line. -/
def isBlank (c : UInt8) : Bool := isSpace c && !isNl c

section Classes

variable {c : UInt8}

theorem isSpace_of_isBlank (h : isBlank c = true) : isSpace c = true :=
  (Bool.and_eq_true _ _ ▸ h).1

theorem not_isNl_of_isBlank (h : isBlank c = true) : isNl c = false := by
  simpa using (Bool.and_eq_true _ _ ▸ h : isSpace c = true ∧ (!isNl c) = true).2

theorem classes_of_isSpace (h : isSpace c = true) :
    isLetter c = false ∧ isDigit c = false ∧ isSymbol c = false ∧ c ≠ '\''.toUInt8 := by
  have hall := of_all_bytes (p := fun c => !isSpace c || (!isLetter c && !isDigit c &&
    !isSymbol c && c != '\''.toUInt8)) (by decide +kernel) c
  simpa [h, and_assoc] using hall

theorem isSpace_of_isNl (h : isNl c = true) : isSpace c = true := by
  have hall := of_all_bytes (p := fun c => !isNl c || isSpace c) (by decide +kernel) c
  simpa [h] using hall

theorem isLetter_of_toLower (h : isLetter (toLower c) = true) : isLetter c = true := by
  have hall := of_all_bytes (p := fun c => !isLetter (toLower c) || isLetter c) (by decide +kernel) c
  simpa [h] using hall

theorem toLower_quote : toLower c = '\''.toUInt8 ↔ c = '\''.toUInt8 := by
  have hall := of_all_bytes (p := fun c => (toLower c == '\''.toUInt8) == (c == '\''.toUInt8))
    (by decide +kernel) c
  rw [← beq_iff_eq, eq_of_beq hall, beq_iff_eq]

end Classes

/-! ## One block at a time -/

theorem first_caseless (word : String) (text : Bytes) :
    first (caseless word) text =
      if startsWith (fun a b => toLower a == toLower b) (ascii word) text then
        some (ascii word).length
      else none := first_literal

/-- The apostrophe has one case only. -/
theorem startsWith_quote (word : Bytes) {c : UInt8} (rest : Bytes) :
    startsWith (fun a b => toLower a == toLower b) ('\''.toUInt8 :: word) (c :: rest) =
      (c == '\''.toUInt8 && startsWith (fun a b => toLower a == toLower b) word rest) := by
  have hquote : (toLower '\''.toUInt8 == toLower c) = (c == '\''.toUInt8) := by
    rw [Bool.eq_iff_iff, beq_iff_eq, beq_iff_eq, ← toLower_quote (c := c)]
    exact eq_comm
  rw [startsWith, hquote]

theorem or_ite {a b : Prop} [Decidable a] [Decidable b] (n : Nat) :
    (if a then some n else none).or (if b then some n else none) = if a ∨ b then some n else none := by
  by_cases ha : a <;> simp [ha]

theorem first_contractionPattern (text : Bytes) :
    first contractionPattern text = contraction text := by
  have hs : ascii "'s" = ['\''.toUInt8, 's'.toUInt8] := by decide
  have ht : ascii "'t" = ['\''.toUInt8, 't'.toUInt8] := by decide
  have hre : ascii "'re" = ['\''.toUInt8, 'r'.toUInt8, 'e'.toUInt8] := by decide
  have hve : ascii "'ve" = ['\''.toUInt8, 'v'.toUInt8, 'e'.toUInt8] := by decide
  have hm : ascii "'m" = ['\''.toUInt8, 'm'.toUInt8] := by decide
  have hll : ascii "'ll" = ['\''.toUInt8, 'l'.toUInt8, 'l'.toUInt8] := by decide
  have hd : ascii "'d" = ['\''.toUInt8, 'd'.toUInt8] := by decide
  have hlower : toLower 's'.toUInt8 = 's'.toUInt8 ∧ toLower 't'.toUInt8 = 't'.toUInt8 ∧
      toLower 'r'.toUInt8 = 'r'.toUInt8 ∧ toLower 'v'.toUInt8 = 'v'.toUInt8 ∧
      toLower 'e'.toUInt8 = 'e'.toUInt8 ∧ toLower 'm'.toUInt8 = 'm'.toUInt8 ∧
      toLower 'l'.toUInt8 = 'l'.toUInt8 ∧ toLower 'd'.toUInt8 = 'd'.toUInt8 := by decide
  simp only [contractionPattern, first_alt, first_caseless, hs, ht, hre, hve, hm, hll, hd,
    List.length_cons, List.length_nil, Nat.zero_add, Nat.reduceAdd]
  match text with
  | [] => rfl
  | [c] => simp [startsWith, contraction]
  | c :: d :: rest =>
      simp only [startsWith_quote, contraction]
      by_cases hc : c = '\''.toUInt8
      · simp only [hc, if_true, beq_self_eq_true, Bool.true_and]
        generalize hx : toLower d = x
        by_cases hshort : x = 's'.toUInt8 ∨ x = 't'.toUInt8 ∨ x = 'm'.toUInt8 ∨ x = 'd'.toUInt8
        · rw [if_pos hshort]
          rcases hshort with rfl | rfl | rfl | rfl <;> cases rest <;>
            simp only [startsWith, hlower, hx] <;> rfl
        · rw [if_neg hshort]
          simp only [not_or, @eq_comm _ x] at hshort
          cases rest with
          | nil => simp [startsWith, hlower, hx, hshort]
          | cons e rest =>
              simp [startsWith, hlower, hx, hshort, or_ite, @eq_comm _ x, @eq_comm _ (toLower e)]
      · simp [hc]

theorem takeWhile_of_head {p : UInt8 → Bool} {c : UInt8} (hc : p c = false) (rest : Bytes) :
    ((c :: rest).takeWhile p).length = 0 := by
  rw [List.takeWhile_cons, hc]
  rfl

theorem first_lettersPattern {text : Bytes} (hne : text ≠ []) :
    first lettersPattern text = letters text := by
  obtain ⟨c, rest, rfl⟩ := List.exists_cons_of_ne_nil hne
  have hrun : ∀ {n : Nat} (lead : Nat), (if n = 0 then none else some n).map (lead + ·) =
      if 1 ≤ n then some (lead + n) else none := by
    intro n lead
    cases n <;> simp
  rw [lettersPattern, first_opt_seq, first_plus_one, first_plus_one, letters, List.headD_cons,
    Bool.not_or, Bool.not_or]
  by_cases hlead : (!isNl c && !isLetter c && !isDigit c) = true
  · have hc : isLetter c = false := by
      simp only [Bool.and_eq_true, Bool.not_eq_true'] at hlead
      exact hlead.1.2
    rw [if_pos hlead, if_pos hlead, takeWhile_of_head hc, hrun, if_pos rfl, Option.or_none]
    rfl
  · rw [if_neg hlead, if_neg hlead, List.drop_zero]
    have hzero := hrun (n := ((c :: rest).takeWhile isLetter).length) 0
    simpa using hzero

theorem first_digitsPattern (text : Bytes) : first digitsPattern text = digits text := by
  cases text with
  | nil => rfl
  | cons c rest =>
      rw [digitsPattern, first_one_seq, digits, List.headD_cons, List.take_succ_cons,
        List.takeWhile_cons]
      by_cases hc : isDigit c
      · rw [if_pos hc, if_pos hc, if_pos hc, first_opt]
        cases rest with
        | nil => rfl
        | cons d rest =>
            rw [first_one_seq, List.take_succ_cons, List.takeWhile_cons]
            by_cases hd : isDigit d
            · rw [if_pos hd, if_pos hd, first_opt]
              cases rest with
              | nil => rfl
              | cons e rest => by_cases he : isDigit e <;> simp [he]
            · rw [if_neg hd, if_neg hd]
              rfl
      · rw [if_neg hc, if_neg hc]

/-- Symbols and the line ends behind them. -/
theorem first_symbolRun (text : Bytes) :
    first (seq (plus (one isSymbol)) (star (one isNl))) text =
      let p := (text.takeWhile isSymbol).length
      if 1 ≤ p then some (p + ((text.drop p).takeWhile isNl).length) else none := by
  by_cases hrun : 1 ≤ (text.takeWhile isSymbol).length
  · dsimp only
    rw [if_pos hrun]
    refine first_seq_some ?_ first_star_one
    rw [first_plus_one, if_neg (Nat.ne_of_gt hrun)]
  · dsimp only
    rw [if_neg hrun]
    apply first_seq_none
    rw [first_plus_one, if_pos (by omega)]

theorem first_symbolsPattern {text : Bytes} (hne : text ≠ []) :
    first symbolsPattern text = symbols text := by
  obtain ⟨c, rest, rfl⟩ := List.exists_cons_of_ne_nil hne
  have hlead : ∀ lead : Nat, (first (seq (plus (one isSymbol)) (star (one isNl)))
      ((c :: rest).drop lead)).map (lead + ·) =
      let p := (((c :: rest).drop lead).takeWhile isSymbol).length
      if 1 ≤ p then some (lead + p + (((c :: rest).drop (lead + p)).takeWhile isNl).length)
      else none := by
    intro lead
    rw [first_symbolRun]
    dsimp only
    rw [List.drop_drop]
    split
    · rw [Option.map_some, Nat.add_assoc]
    · rfl
  rw [symbolsPattern, first_opt_seq, symbols, List.headD_cons]
  by_cases hc : c = ' '.toUInt8
  · have hsymbol : isSymbol c = false := by
      rw [hc]
      decide
    rw [if_pos (beq_iff_eq.mpr hc), if_pos hc, first_symbolRun (c :: rest)]
    dsimp only
    rw [takeWhile_of_head hsymbol, if_neg (by decide), Option.or_none]
    exact hlead 1
  · rw [if_neg (mt beq_iff_eq.mp hc), if_neg hc, ← hlead 0, List.drop_zero]
    simp

/-! ## Whitespace -/

theorem spaceRun_blanks {v : Bytes} (hv : ∀ c ∈ v, isBlank c = true) (rest : Bytes) (run : Nat)
    (lastNl : Option Nat) :
    spaceRun (v ++ rest) run lastNl = spaceRun rest (run + v.length) lastNl := by
  induction v generalizing run with
  | nil => rfl
  | cons c v ih =>
      have hc := hv c List.mem_cons_self
      rw [List.cons_append, spaceRun, if_pos (isSpace_of_isBlank hc), not_isNl_of_isBlank hc,
        if_neg Bool.false_ne_true, ih fun d hd => hv d (List.mem_cons_of_mem c hd), List.length_cons,
        Nat.add_assoc, Nat.add_comm 1]

theorem spaceRun_line {u : Bytes} (hu : ∀ c ∈ u, isSpace c = true) {n : UInt8} (hn : isNl n = true)
    (rest : Bytes) (run : Nat) (lastNl : Option Nat) :
    spaceRun (u ++ n :: rest) run lastNl =
      spaceRun rest (run + u.length + 1) (some (run + u.length)) := by
  induction u generalizing run lastNl with
  | nil => rw [List.nil_append, spaceRun, if_pos (isSpace_of_isNl hn), if_pos hn]; rfl
  | cons c u ih =>
      rw [List.cons_append, spaceRun, if_pos (hu c List.mem_cons_self),
        ih fun d hd => hu d (List.mem_cons_of_mem c hd), List.length_cons]
      simp only [Nat.add_assoc, Nat.add_comm 1]

theorem spaceRun_stop {rest : Bytes} (hrest : ∀ c ∈ rest.head?, isSpace c = false) (run : Nat)
    (lastNl : Option Nat) : spaceRun rest run lastNl = (run, lastNl) := by
  cases rest with
  | nil => rfl
  | cons c rest => rw [spaceRun, hrest c rfl, if_neg Bool.false_ne_true]

section Spaces

variable {u v rest : Bytes} (hv : ∀ c ∈ v, isBlank c = true)
  (hrest : ∀ c ∈ rest.head?, isSpace c = false)
include hv hrest

theorem takeWhile_blanks : (v ++ rest).takeWhile isSpace = v :=
  takeWhile_append_stop (fun c hc => isSpace_of_isBlank (hv c hc)) hrest

theorem spaces_blanks (hne : v ≠ []) : spaces (v ++ rest) = some v.length := by
  obtain ⟨c, w, rfl⟩ := List.exists_cons_of_ne_nil hne
  have hc := isSpace_of_isBlank (hv c List.mem_cons_self)
  rw [spaces, List.cons_append, List.headD_cons, if_pos hc, ← List.cons_append,
    spaceRun_blanks hv, spaceRun_stop hrest]
  simp

/-- Behind its last line end a whitespace run has none. -/
theorem takeWhile_isNl_drop {k : Nat} (hk : k ≤ v.length) :
    ((v ++ rest).drop k).takeWhile isNl = [] := by
  have hhead : ∀ c ∈ ((v ++ rest).drop k).head?, isNl c = false := by
    intro c hc
    rw [List.drop_append_of_le_length hk] at hc
    cases hdrop : v.drop k with
    | nil =>
        rw [hdrop, List.nil_append] at hc
        by_contra hnl
        have hspace := hrest c hc
        rw [isSpace_of_isNl (Bool.not_eq_false _ ▸ hnl)] at hspace
        contradiction
    | cons d w =>
        rw [hdrop, List.cons_append] at hc
        obtain rfl := Option.some.inj hc
        have hmem : d ∈ v := List.mem_of_mem_drop (by rw [hdrop]; exact List.mem_cons_self)
        exact not_isNl_of_isBlank (hv d hmem)
  exact @takeWhile_append_stop _ isNl [] _ nofun hhead

theorem first_nls_drop {k : Nat} (hk : k ≤ v.length) :
    first (plus (one isNl)) ((v ++ rest).drop k) = none := by
  rw [first_plus_one, takeWhile_isNl_drop hv hrest hk]
  rfl

/-- Without a line end the run is matched by `\s+`. -/
theorem first_spaces_blanks : first spacesPattern (v ++ rest) =
    (first (seq (plus (one isSpace)) (notAhead (one (!isSpace ·)))) (v ++ rest)).or
      (if v.length = 0 then none else some v.length) := by
  have hnone : first (seq (star (one isSpace)) (plus (one isNl))) (v ++ rest) = none := by
    rw [first_seq, lengths_star_one, takeWhile_blanks hv hrest, List.findSome?_eq_none_iff]
    intro k hk
    rw [List.mem_reverse, List.mem_range] at hk
    rw [first_nls_drop hv hrest (Nat.le_of_lt_succ hk)]
    rfl
  rw [spacesPattern, first_alt, hnone, Option.none_or, first_alt, first_plus_one,
    takeWhile_blanks hv hrest]

variable (hu : ∀ c ∈ u, isSpace c = true) {n : UInt8} (hn : isNl n = true)
include hu hn

theorem spaces_line : spaces (u ++ n :: (v ++ rest)) = some (u.length + 1) := by
  have hhead : isSpace ((u ++ n :: (v ++ rest)).headD 0) = true := by
    cases u with
    | nil => exact isSpace_of_isNl hn
    | cons c u => exact hu c List.mem_cons_self
  rw [spaces, if_pos hhead, spaceRun_line hu hn, spaceRun_blanks hv, spaceRun_stop hrest]
  simp

theorem first_spaces_line : first spacesPattern (u ++ n :: (v ++ rest)) = some (u.length + 1) := by
  have hrun : (u ++ n :: (v ++ rest)).takeWhile isSpace = u ++ n :: v := by
    rw [← List.cons_append, ← List.append_assoc]
    apply takeWhile_append_stop _ hrest
    intro c hc
    rcases List.mem_append.mp hc with hc | hc
    · exact hu c hc
    · rcases List.mem_cons.mp hc with rfl | hc
      · exact isSpace_of_isNl hn
      · exact isSpace_of_isBlank (hv c hc)
  have hline : first (seq (star (one isSpace)) (plus (one isNl))) (u ++ n :: (v ++ rest)) =
      some (u.length + 1) := by
    rw [first_seq, lengths_star_one, hrun]
    refine findSome?_down (l := u.length) (by rw [List.length_append, List.length_cons]; omega) ?_ ?_
    · have hnls := takeWhile_isNl_drop hv hrest (Nat.zero_le _)
      rw [List.drop_zero] at hnls
      rw [List.drop_left, first_plus_one, List.takeWhile_cons, if_pos hn, hnls]
      rfl
    · intro k hk hkn
      rw [List.length_append, List.length_cons] at hkn
      have hdrop : (u ++ n :: (v ++ rest)).drop k = (v ++ rest).drop (k - u.length - 1) := by
        rw [List.drop_append, List.drop_eq_nil_of_le (Nat.le_of_lt hk), List.nil_append]
        obtain ⟨d, hd⟩ := Nat.exists_eq_add_of_lt hk
        rw [hd, show u.length + d + 1 - u.length = d + 1 by omega, List.drop_succ_cons,
          Nat.add_sub_cancel]
      rw [hdrop, first_nls_drop hv hrest (by omega)]
      rfl
  rw [spacesPattern, first_alt, hline]
  rfl

end Spaces

/-! ## Where the lookahead matters -/

/-- Two or more blanks, then a character that is no whitespace: `\s+(?!\S)` gives
the last blank back. -/
def GivesBack (text : Bytes) : Prop :=
  ∃ v x rest, text = v ++ x :: rest ∧ 2 ≤ v.length ∧ (∀ c ∈ v, isBlank c = true) ∧ isSpace x = false

theorem first_notAhead_drop {v : Bytes} (hv : ∀ c ∈ v, isBlank c = true) {k : Nat}
    (hk : k < v.length) (rest : Bytes) :
    first (notAhead (one (!isSpace ·))) ((v ++ rest).drop k) = some 0 := by
  rw [first_notAhead_one, List.head?_drop, List.getElem?_append_left hk, List.getElem?_eq_getElem hk,
    Option.any_some, isSpace_of_isBlank (hv _ (List.getElem_mem hk))]
  rfl

theorem first_notAhead_stop {x : UInt8} (hx : isSpace x = false) (v rest : Bytes) :
    first (notAhead (one (!isSpace ·))) ((v ++ x :: rest).drop v.length) = none := by
  rw [List.drop_left, first_notAhead_one, List.head?_cons, Option.any_some, hx]
  rfl

theorem first_spaces_givesBack {v : Bytes} (hv : ∀ c ∈ v, isBlank c = true) (hlong : 2 ≤ v.length)
    {x : UInt8} (hx : isSpace x = false) (rest : Bytes) :
    first spacesPattern (v ++ x :: rest) = some (v.length - 1) := by
  have hstop : ∀ c ∈ (x :: rest).head?, isSpace c = false := fun c hc => by
    rwa [← Option.some.inj hc]
  obtain ⟨n, hn⟩ := Nat.exists_eq_add_of_le' hlong
  have hback : first (seq (plus (one isSpace)) (notAhead (one (!isSpace ·)))) (v ++ x :: rest) =
      some (n + 1) := by
    rw [first_seq, lengths_plus_one, takeWhile_blanks hv hstop, ← List.map_reverse,
      List.findSome?_map]
    refine findSome?_down (l := n) (by omega) ?_ ?_
    · rw [Function.comp_apply, first_notAhead_drop hv (by omega)]
      rfl
    · intro k hk hkn
      have hkv : k + 1 = v.length := by omega
      rw [Function.comp_apply, hkv, first_notAhead_stop hx]
      rfl
  rw [first_spaces_blanks hv hstop, hback, hn]
  rfl

/-- The blanks at the front of a text and what follows them. -/
theorem first_spaces_keeps {v rest : Bytes} (hv : ∀ c ∈ v, isBlank c = true) (hne : v ≠ [])
    (hrest : ∀ c ∈ rest.head?, isSpace c = false) (hkeep : ¬ GivesBack (v ++ rest)) :
    first spacesPattern (v ++ rest) = some v.length := by
  have hlength : v.length ≠ 0 := fun h => hne (List.length_eq_zero_iff.mp h)
  have hseven : (if v.length = 0 then none else some v.length) = some v.length := if_neg hlength
  rw [first_spaces_blanks hv hrest, hseven]
  cases rest with
  | nil =>
      rw [first_seq_some (n := v.length) (m := 0)]
      · rfl
      · rw [first_plus_one, takeWhile_blanks hv hrest, hseven]
      · rw [List.append_nil, List.drop_length, first_notAhead_one]
        rfl
  | cons x rest =>
      have hshort : v.length = 1 := by
        by_contra hne
        exact hkeep ⟨v, x, rest, rfl, by omega, hv, hrest x rfl⟩
      have hsix : first (seq (plus (one isSpace)) (notAhead (one (!isSpace ·)))) (v ++ x :: rest) =
          none := by
        have hstop := first_notAhead_stop (hrest x rfl) v rest
        rw [hshort] at hstop
        rw [first_seq, lengths_plus_one, takeWhile_blanks hv hrest, hshort]
        exact (List.findSome?_singleton).trans (by rw [hstop]; rfl)
      rw [hsix]
      rfl

/-- A whitespace run, cut at its last line end. -/
theorem blanks_or_line {w : Bytes} (hw : ∀ c ∈ w, isSpace c = true) :
    (∀ c ∈ w, isBlank c = true) ∨
      ∃ u n v, w = u ++ n :: v ∧ (∀ c ∈ u, isSpace c = true) ∧ isNl n = true ∧
        ∀ c ∈ v, isBlank c = true := by
  induction w using List.reverseRecOn with
  | nil => exact Or.inl nofun
  | append_singleton w c ih =>
      have hc := hw c (by simp)
      cases hnl : isNl c with
      | true =>
          exact Or.inr ⟨w, c, [], rfl, fun d hd => hw d (List.mem_append_left _ hd), hnl, nofun⟩
      | false =>
          have hblank : isBlank c = true := by rw [isBlank, hc, hnl]; rfl
          have hlast : ∀ {v : Bytes}, (∀ d ∈ v, isBlank d = true) →
              ∀ d ∈ v ++ [c], isBlank d = true := by
            intro v hv d hd
            rcases List.mem_append.mp hd with hd | hd
            · exact hv d hd
            · rwa [List.mem_singleton.mp hd]
          rcases ih fun d hd => hw d (List.mem_append_left _ hd) with hv | ⟨u, n, v, rfl, hu, hn, hv⟩
          · exact Or.inl (hlast hv)
          · exact Or.inr ⟨u, n, v ++ [c], by simp, hu, hn, hlast hv⟩

theorem exists_run (text : Bytes) :
    ∃ w rest, text = w ++ rest ∧ (∀ c ∈ rest.head?, isSpace c = false) ∧
      ∀ c ∈ w, isSpace c = true := by
  refine ⟨text.takeWhile isSpace, text.dropWhile isSpace, List.takeWhile_append_dropWhile.symm, ?_,
    fun c hc => List.mem_takeWhile_imp hc⟩
  intro c hc
  have hhead := List.head?_dropWhile_not isSpace text
  rw [hc] at hhead
  simpa using hhead

/-! ## The blocks together -/

/-- The first four blocks. -/
def wordPretoken (text : Bytes) : Option Nat :=
  (((contraction text).or (letters text)).or (digits text)).or (symbols text)

theorem nextPretoken_eq (text : Bytes) :
    nextPretoken text = ((wordPretoken text).or (spaces text)).getD 1 := rfl

theorem first_cl100kPattern {text : Bytes} (hne : text ≠ []) :
    first cl100kPattern text = (wordPretoken text).or (first spacesPattern text) := by
  rw [cl100kPattern, first_alt, first_alt, first_alt, first_alt, first_contractionPattern,
    first_lettersPattern hne, first_digitsPattern, first_symbolsPattern hne, wordPretoken]
  simp only [Option.or_assoc]

/-- What no block takes but the whitespace ones. -/
theorem isSpace_of_wordPretoken {c : UInt8} {rest : Bytes} (h : wordPretoken (c :: rest) = none) :
    isSpace c = true := by
  simp only [wordPretoken, Option.or_eq_none_iff] at h
  obtain ⟨⟨⟨-, hletters⟩, hdigits⟩, hsymbols⟩ := h
  have hletter : isLetter c = false := by
    by_contra hc
    have hc : isLetter c = true := by simpa using hc
    simp [letters, hc] at hletters
  have hdigit : isDigit c = false := by
    by_contra hc
    have hc : isDigit c = true := by simpa using hc
    simp [digits, hc] at hdigits
  by_contra hc
  have hc : isSpace c = false := by simpa using hc
  have hblank : c ≠ ' '.toUInt8 := by
    rintro rfl
    exact absurd hc (by decide)
  simp [symbols, hblank, isSymbol, hc, hletter, hdigit] at hsymbols

/-- Behind two blanks no word begins. -/
theorem wordPretoken_blanks {b c : UInt8} (hb : isBlank b = true) (hc : isBlank c = true)
    (rest : Bytes) : wordPretoken (b :: c :: rest) = none := by
  obtain ⟨hletter, hdigit, hsymbol, hquote⟩ := classes_of_isSpace (isSpace_of_isBlank hb)
  obtain ⟨hletter', -, hsymbol', -⟩ := classes_of_isSpace (isSpace_of_isBlank hc)
  have hsymbols : symbols (b :: c :: rest) = none := by
    rw [symbols, List.headD_cons]
    by_cases hspace : b = ' '.toUInt8
    · simp [hspace, hsymbol']
    · simp [hspace, hsymbol]
  simp [wordPretoken, contraction, letters, digits, hsymbols, hquote, hletter, hletter', hdigit,
    not_isNl_of_isBlank hb]

theorem run_ne_nil {w rest : Bytes} (hne : w ++ rest ≠ [])
    (hrest : ∀ c ∈ rest.head?, isSpace c = false) (hword : wordPretoken (w ++ rest) = none) :
    w ≠ [] := by
  rintro rfl
  cases rest with
  | nil => exact hne rfl
  | cons c rest =>
      have hspace := isSpace_of_wordPretoken hword
      rw [hrest c rfl] at hspace
      contradiction

/-- The two agree where the lookahead gives nothing back. -/
theorem first_of_not_givesBack {text : Bytes} (hne : text ≠ []) (h : ¬ GivesBack text) :
    first cl100kPattern text = some (nextPretoken text) := by
  rw [first_cl100kPattern hne, nextPretoken_eq]
  cases hword : wordPretoken text with
  | some n => rfl
  | none =>
      rw [Option.none_or, Option.none_or]
      obtain ⟨w, rest, rfl, hrest, hw⟩ := exists_run text
      have hwne : w ≠ [] := run_ne_nil hne hrest hword
      rcases blanks_or_line hw with hv | ⟨u, n, v, rfl, hu, hn, hv⟩
      · rw [first_spaces_keeps hv hwne hrest h, spaces_blanks hv hrest hwne]
        rfl
      · rw [List.append_assoc, List.cons_append, first_spaces_line hv hrest hu hn,
          spaces_line hv hrest hu hn]
        rfl

/-- Where it does, the code takes one character more. -/
theorem first_of_givesBack {text : Bytes} (h : GivesBack text) :
    nextPretoken text ≤ text.length ∧ 2 ≤ nextPretoken text ∧
      first cl100kPattern text = some (nextPretoken text - 1) := by
  obtain ⟨v, x, rest, rfl, hlong, hv, hx⟩ := h
  have hstop : ∀ c ∈ (x :: rest).head?, isSpace c = false := fun c hc => by
    rwa [← Option.some.inj hc]
  have hword : wordPretoken (v ++ x :: rest) = none := by
    match v, hlong with
    | b :: c :: v, _ => exact wordPretoken_blanks (hv b (by simp)) (hv c (by simp)) _
  have hne : v ≠ [] := List.length_pos_iff.mp (by omega)
  have hnext : nextPretoken (v ++ x :: rest) = v.length := by
    rw [nextPretoken_eq, hword, spaces_blanks hv hstop hne]
    rfl
  refine ⟨?_, ?_, ?_⟩
  · rw [hnext, List.length_append]
    omega
  · rw [hnext]
    exact hlong
  · rw [first_cl100kPattern (by simp), hword, Option.none_or, hnext,
      first_spaces_givesBack hv hlong hx]

end Cl100kTokenizer
end LlmTop
