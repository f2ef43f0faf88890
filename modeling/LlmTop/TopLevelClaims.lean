import LlmTop.Lib.Json
import LlmTop.QuoteScan
import LlmTop.TokenMint

/-!
# Claims of the top-level object

`top_level_raw` walks the payload byte by byte, with a depth, a string flag and
an escape flag of its own.  On JSON text it reads the members of the outer object,
whatever stands inside their values.
-/
namespace LlmTop
open Lib.Json

/-! ## Strings -/

theorem QuotedText.append {front back : Bytes} (hfront : QuotedText front) (hback : QuotedText back) :
    QuotedText (front ++ back) := by
  induction hfront with
  | nil => exact hback
  | escaped c _ ih => exact .escaped c ih
  | plain hslash hquote _ ih => exact .plain hslash hquote ih

theorem quotedText_plain {word : Bytes} (h : ∀ c ∈ word, c ≠ quote ∧ c ≠ backslash) :
    QuotedText word := by
  induction word with
  | nil => exact .nil
  | cons c word ih =>
      obtain ⟨hc, hword⟩ := List.forall_mem_cons.mp h
      exact .plain hc.2 hc.1 (ih hword)

theorem scalar_plain {c : UInt8} (h : isScalarByte c = true) :
    (c ≠ quote ∧ c ≠ backslash) ∧ (c ≠ openBrace ∧ c ≠ '['.toUInt8) ∧
      (c ≠ closeBrace ∧ c ≠ ']'.toUInt8) ∧ c ≠ ','.toUInt8 ∧ isSpace c = false := by
  have hall := of_all_bytes (p := fun c => !isScalarByte c || decide
    ((c ≠ quote ∧ c ≠ backslash) ∧ (c ≠ openBrace ∧ c ≠ '['.toUInt8) ∧
      (c ≠ closeBrace ∧ c ≠ ']'.toUInt8) ∧ c ≠ ','.toUInt8 ∧ isSpace c = false)) (by decide +kernel) c
  simpa [h] using hall

theorem quotedText_item (item : Item) : QuotedText item.text := by
  cases item with
  | unescaped c control plain => exact quotedText_plain fun b hb => plain_of_mem_unescaped plain hb
  | escaped e => exact .escaped e.letter .nil
  | unicode w x y z =>
      have hdigits : QuotedText [w.byte, x.byte, y.byte, z.byte] := by
        apply quotedText_plain
        intro c hc
        simp only [List.mem_cons, List.not_mem_nil, or_false] at hc
        rcases hc with rfl | rfl | rfl | rfl
        · exact (scalar_plain (scalar_byte w)).1
        · exact (scalar_plain (scalar_byte x)).1
        · exact (scalar_plain (scalar_byte y)).1
        · exact (scalar_plain (scalar_byte z)).1
      exact .escaped 'u'.toUInt8 hdigits

theorem quotedText_body (s : Str) : QuotedText s.body := by
  induction s with
  | nil => exact .nil
  | cons item s ih => exact (quotedText_item item).append ih

theorem passes_quotedText {text : Bytes} (h : QuotedText text) : Passes text := by
  induction h with
  | nil => exact fun _ => rfl
  | escaped c _ ih => exact (passes_pair c).append ih
  | plain hslash hquote _ ih => exact (passes_plain hquote hslash).append ih

theorem scanString_body (s : Str) (rest : Bytes) :
    scanString false (s.body ++ quote :: rest) = (s.body ++ [quote], rest) := by
  have hclose : scanString false (quote :: rest) = ([quote], rest) := rfl
  rw [passes_quotedText (quotedText_body s), hclose]

/-! ## Nested values -/

/-- Inside brackets the scan passes over the text and is back at its depth. -/
def Skipped (text : Bytes) : Prop :=
  ∀ depth : Int, 1 ≤ depth → ∀ rest, scanNested depth false false (text ++ rest) =
    (text ++ (scanNested depth false false rest).1, (scanNested depth false false rest).2)

theorem skipped_nil : Skipped [] := fun _ _ _ => rfl

theorem Skipped.append {front back : Bytes} (hfront : Skipped front) (hback : Skipped back) :
    Skipped (front ++ back) := by
  intro depth hdepth rest
  rw [List.append_assoc, hfront depth hdepth, hback depth hdepth, List.append_assoc]

theorem skipped_byte {c : UInt8} (hquote : c ≠ quote) (hopen : c ≠ openBrace ∧ c ≠ '['.toUInt8)
    (hclose : c ≠ closeBrace ∧ c ≠ ']'.toUInt8) : Skipped [c] := by
  intro depth _ rest
  have hquote' : c ≠ '"'.toUInt8 := hquote
  rw [List.singleton_append, scanNested]
  simp [hquote', hopen, hclose]

theorem skipped_bytes {word : Bytes} (h : ∀ c ∈ word, Skipped [c]) : Skipped word := by
  induction word with
  | nil => exact skipped_nil
  | cons c word ih =>
      obtain ⟨hc, hword⟩ := List.forall_mem_cons.mp h
      exact hc.append (ih hword)

theorem scanNested_pair (depth : Int) (c : UInt8) (rest : Bytes) :
    scanNested depth true false (backslash :: c :: rest) =
      (backslash :: c :: (scanNested depth true false rest).1, (scanNested depth true false rest).2) := by
  simp [scanNested, backslash]

theorem scanNested_plain {c : UInt8} (hslash : c ≠ backslash) (hquote : c ≠ quote) (depth : Int)
    (rest : Bytes) : scanNested depth true false (c :: rest) =
      (c :: (scanNested depth true false rest).1, (scanNested depth true false rest).2) := by
  have hslash' : c ≠ '\\'.toUInt8 := hslash
  have hquote' : c ≠ '"'.toUInt8 := hquote
  simp [scanNested, hslash', hquote']

theorem scanNested_quote (depth : Int) (inString : Bool) (rest : Bytes) :
    scanNested depth inString false (quote :: rest) =
      (quote :: (scanNested depth (!inString) false rest).1,
        (scanNested depth (!inString) false rest).2) := by
  have hslash : '"'.toUInt8 ≠ '\\'.toUInt8 := by decide
  have hclose : '"'.toUInt8 ≠ closeBrace ∧ '"'.toUInt8 ≠ ']'.toUInt8 := by decide
  cases inString <;> simp [scanNested, quote, hslash, hclose]

theorem scanNested_inside {text : Bytes} (h : QuotedText text) (depth : Int) (rest : Bytes) :
    scanNested depth true false (text ++ rest) =
      (text ++ (scanNested depth true false rest).1, (scanNested depth true false rest).2) := by
  induction h with
  | nil => rfl
  | escaped c _ ih => rw [List.cons_append, List.cons_append, scanNested_pair, ih]; rfl
  | plain hslash hquote _ ih => rw [List.cons_append, scanNested_plain hslash hquote, ih]; rfl

theorem skipped_string (s : Str) : Skipped s.text := by
  intro depth _ rest
  have hparts : ∀ later : Bytes, s.text ++ later = quote :: (s.body ++ quote :: later) := by
    intro later
    simp [Str.text, quote]
  rw [hparts, scanNested_quote, Bool.not_false, scanNested_inside (quotedText_body s), scanNested_quote,
    Bool.not_true, hparts]

/-- An opening bracket and the one that closes it. -/
def IsPair (opening closing : UInt8) : Prop :=
  (opening = '['.toUInt8 ∧ closing = ']'.toUInt8) ∨ (opening = openBrace ∧ closing = closeBrace)

theorem scanNested_opening {opening closing : UInt8} (h : IsPair opening closing) (depth : Int)
    (rest : Bytes) : scanNested depth false false (opening :: rest) =
      (opening :: (scanNested (depth + 1) false false rest).1,
        (scanNested (depth + 1) false false rest).2) := by
  have hbracket : '['.toUInt8 ≠ '"'.toUInt8 ∧ '['.toUInt8 ≠ closeBrace ∧ '['.toUInt8 ≠ ']'.toUInt8 := by
    decide
  have hbrace : openBrace ≠ '"'.toUInt8 ∧ openBrace ≠ closeBrace ∧ openBrace ≠ ']'.toUInt8 := by
    decide
  rcases h with ⟨rfl, -⟩ | ⟨rfl, -⟩
  · simp [scanNested, hbracket]
  · simp [scanNested, hbrace]

theorem scanNested_closing {opening closing : UInt8} (h : IsPair opening closing) (depth : Int)
    (rest : Bytes) : scanNested depth false false (closing :: rest) =
      if depth = 1 then ([closing], rest)
      else (closing :: (scanNested (depth - 1) false false rest).1,
        (scanNested (depth - 1) false false rest).2) := by
  have hbracket : ']'.toUInt8 ≠ '"'.toUInt8 ∧ ']'.toUInt8 ≠ openBrace ∧ ']'.toUInt8 ≠ '['.toUInt8 := by
    decide
  have hbrace : closeBrace ≠ '"'.toUInt8 ∧ closeBrace ≠ openBrace ∧ closeBrace ≠ '['.toUInt8 := by
    decide
  have hdepth : depth - 1 = 0 ↔ depth = 1 := by omega
  rcases h with ⟨-, rfl⟩ | ⟨-, rfl⟩
  · simp [scanNested, hbracket, hdepth]
  · simp [scanNested, hbrace, hdepth]

theorem Skipped.enclosed {inner : Bytes} (hinner : Skipped inner) {opening closing : UInt8}
    (h : IsPair opening closing) : Skipped (opening :: (inner ++ [closing])) := by
  intro depth hdepth rest
  have hdeeper : ¬depth + 1 = 1 := by omega
  have hback : depth + 1 - 1 = depth := by omega
  rw [List.cons_append, List.append_assoc, scanNested_opening h, hinner _ (by omega),
    List.singleton_append, scanNested_closing h, if_neg hdeeper, hback]
  simp

/-- The scan of a value ends at its own closing bracket. -/
theorem scanNested_value {inner : Bytes} (hinner : Skipped inner) {opening closing : UInt8}
    (h : IsPair opening closing) (rest : Bytes) :
    scanNested 0 false false (opening :: (inner ++ closing :: rest)) =
      (opening :: (inner ++ [closing]), rest) := by
  have hdepth : (0 : Int) + 1 = 1 := rfl
  rw [scanNested_opening h, hinner _ (by omega), scanNested_closing h, if_pos hdepth]

theorem skipped_scalar {word : Bytes} (h : ∀ c ∈ word, isScalarByte c = true) : Skipped word := by
  apply skipped_bytes
  intro c hc
  obtain ⟨hplain, hopen, hclose, -⟩ := scalar_plain (h c hc)
  exact skipped_byte hplain.1 hopen hclose

theorem isSpace_of_blank (gap : Blank) : ∀ c ∈ gap.text, isSpace c = true := by
  intro c hc
  rcases gap.blank c hc with rfl | rfl | rfl | rfl <;> decide

theorem skipped_blank (gap : Blank) : Skipped gap.text := by
  apply skipped_bytes
  intro c hc
  rcases gap.blank c hc with rfl | rfl | rfl | rfl
  · exact skipped_byte (by decide) (by decide) (by decide)
  · exact skipped_byte (by decide) (by decide) (by decide)
  · exact skipped_byte (by decide) (by decide) (by decide)
  · exact skipped_byte (by decide) (by decide) (by decide)

theorem Skipped.cons {c : UInt8} {rest : Bytes} (hc : Skipped [c]) (hrest : Skipped rest) :
    Skipped (c :: rest) := hc.append hrest

/-- The scan passes over every tree, nested to any depth. -/
theorem skipped_tree {kind : Kind} (tree : Tree kind) : Skipped tree.text := by
  have hcomma : Skipped [','.toUInt8] := skipped_byte (by decide) (by decide) (by decide)
  have hcolon : Skipped [':'.toUInt8] := skipped_byte (by decide) (by decide) (by decide)
  induction tree with
  | literal l => exact skipped_scalar (scalar_literal l)
  | number n => exact skipped_scalar (scalar_number n)
  | string s => exact skipped_string s
  | emptyArray gap => exact (skipped_blank gap).enclosed (Or.inl ⟨rfl, rfl⟩)
  | array items ih => exact ih.enclosed (Or.inl ⟨rfl, rfl⟩)
  | emptyObject gap => exact (skipped_blank gap).enclosed (Or.inr ⟨rfl, rfl⟩)
  | object items ih => exact ih.enclosed (Or.inr ⟨rfl, rfl⟩)
  | lastElement before item after ih =>
      exact (skipped_blank before).append (ih.append (skipped_blank after))
  | element before item after later ih ihlater =>
      exact (skipped_blank before).append (ih.append ((skipped_blank after).append (hcomma.cons ihlater)))
  | lastMember before name colon afterColon item after ih =>
      exact (skipped_blank before).append ((skipped_string name).append ((skipped_blank colon).append
        (hcolon.cons ((skipped_blank afterColon).append (ih.append (skipped_blank after))))))
  | member before name colon afterColon item after later ih ihlater =>
      exact (skipped_blank before).append ((skipped_string name).append ((skipped_blank colon).append
        (hcolon.cons ((skipped_blank afterColon).append (ih.append ((skipped_blank after).append
          (hcomma.cons ihlater)))))))

/-! ## Values -/

/-- What the walker takes for a value: a string with its quotes, else a text that
begins with no quote. -/
def Takes (value : Tree .value) (raw : Bytes) : Prop :=
  match value.string? with
  | some s => raw = s.text
  | none => raw.head? ≠ some quote

theorem tree_head (value : Tree .value) : ∃ c cs, value.text = c :: cs ∧ isSpace c = false := by
  have hscalar : ∀ word : Bytes, word ≠ [] → (∀ c ∈ word, isScalarByte c = true) →
      ∃ c cs, word = c :: cs ∧ isSpace c = false := by
    intro word hne hword
    obtain ⟨c, cs, rfl⟩ := List.exists_cons_of_ne_nil hne
    obtain ⟨-, -, -, -, hspace⟩ := scalar_plain (hword c List.mem_cons_self)
    exact ⟨c, cs, rfl, hspace⟩
  cases value with
  | literal l => exact hscalar _ (by cases l <;> decide) (scalar_literal l)
  | number n => exact hscalar _ (number_ne_nil n) (scalar_number n)
  | string s => exact ⟨_, _, rfl, by decide⟩
  | emptyArray gap => exact ⟨_, _, rfl, by decide⟩
  | array items => exact ⟨_, _, rfl, by decide⟩
  | emptyObject gap => exact ⟨_, _, rfl, by decide⟩
  | object items => exact ⟨_, _, rfl, by decide⟩

/-- A number or a literal is taken with the white space behind it. -/
theorem scanValue_scalar {word : Bytes} (hne : word ≠ []) (hword : ∀ c ∈ word, isScalarByte c = true)
    (after : Blank) {rest : Bytes} (hrest : EndsValue rest) :
    scanValue (word ++ (after.text ++ rest)) = (word ++ after.text, rest) ∧
      (word ++ after.text).head? ≠ some quote := by
  obtain ⟨d, ds, rfl, hd⟩ := hrest
  have hends : (d ≠ ','.toUInt8 && d ≠ closeBrace) = false := by
    rcases hd with rfl | rfl <;> decide
  have hinside : ∀ c ∈ word ++ after.text, (c ≠ ','.toUInt8 && c ≠ closeBrace) = true := by
    intro c hc
    rcases List.mem_append.mp hc with hc | hc
    · obtain ⟨-, -, hclose, hcomma, -⟩ := scalar_plain (hword c hc)
      simp [hcomma, hclose.1]
    · rcases after.blank c hc with rfl | rfl | rfl | rfl <;> decide
  have hspan : ((word ++ after.text) ++ d :: ds).span (fun c => c ≠ ','.toUInt8 && c ≠ closeBrace) =
      (word ++ after.text, d :: ds) := Lib.Search.span_append hinside hends ds
  obtain ⟨c, cs, rfl⟩ := List.exists_cons_of_ne_nil hne
  obtain ⟨hplain, hopen, -⟩ := scalar_plain (hword c List.mem_cons_self)
  have hquote : c ≠ '"'.toUInt8 := hplain.1
  constructor
  · rw [← List.append_assoc, ← hspan, List.cons_append, List.cons_append, scanValue, if_neg hquote,
      if_neg (not_or.mpr hopen)]
  · simpa using hplain.1

theorem scanValue_string (s : Str) (rest : Bytes) : scanValue (s.text ++ rest) = (s.text, rest) := by
  have hparts : s.text ++ rest = '"'.toUInt8 :: (s.body ++ quote :: rest) := by
    simp [Str.text, quote]
  rw [hparts, scanValue, if_pos rfl, scanString_body]
  rfl

theorem scanValue_nested {inner : Bytes} (hinner : Skipped inner) {opening closing : UInt8}
    (h : IsPair opening closing) (rest : Bytes) :
    scanValue (opening :: (inner ++ [closing]) ++ rest) = (opening :: (inner ++ [closing]), rest) ∧
      (opening :: (inner ++ [closing])).head? ≠ some quote := by
  have hparts : opening :: (inner ++ [closing]) ++ rest = opening :: (inner ++ closing :: rest) := by
    simp
  have hopen : opening ≠ '"'.toUInt8 ∧ (opening = openBrace ∨ opening = '['.toUInt8) := by
    rcases h with ⟨rfl, -⟩ | ⟨rfl, -⟩ <;> decide
  constructor
  · rw [hparts, scanValue, if_neg hopen.1, if_pos hopen.2, scanNested_value hinner h]
  · intro hquote
    exact hopen.1 (Option.some.inj hquote)

/-- The walker takes one value and stops in the white space behind it. -/
theorem scanValue_tree (value : Tree .value) (after : Blank) {rest : Bytes} (hrest : EndsValue rest) :
    ∃ raw gap, scanValue (value.text ++ (after.text ++ rest)) = (raw, gap ++ rest) ∧
      Takes value raw ∧ ∀ c ∈ gap, isSpace c = true := by
  have hgap := isSpace_of_blank after
  have hbracket : IsPair '['.toUInt8 ']'.toUInt8 := Or.inl ⟨rfl, rfl⟩
  have hbrace : IsPair openBrace closeBrace := Or.inr ⟨rfl, rfl⟩
  cases value with
  | literal l =>
      have hne : l.text ≠ [] := by cases l <;> decide
      obtain ⟨hscan, hhead⟩ := scanValue_scalar hne (scalar_literal l) after hrest
      exact ⟨_, [], hscan, hhead, by simp⟩
  | number n =>
      obtain ⟨hscan, hhead⟩ := scanValue_scalar (number_ne_nil n) (scalar_number n) after hrest
      exact ⟨_, [], hscan, hhead, by simp⟩
  | string s => exact ⟨_, _, scanValue_string s _, rfl, hgap⟩
  | emptyArray gap =>
      obtain ⟨hscan, hhead⟩ := scanValue_nested (skipped_blank gap) hbracket (after.text ++ rest)
      exact ⟨_, _, hscan, hhead, hgap⟩
  | array items =>
      obtain ⟨hscan, hhead⟩ := scanValue_nested (skipped_tree items) hbracket (after.text ++ rest)
      exact ⟨_, _, hscan, hhead, hgap⟩
  | emptyObject gap =>
      obtain ⟨hscan, hhead⟩ := scanValue_nested (skipped_blank gap) hbrace (after.text ++ rest)
      exact ⟨_, _, hscan, hhead, hgap⟩
  | object items =>
      obtain ⟨hscan, hhead⟩ := scanValue_nested (skipped_tree items) hbrace (after.text ++ rest)
      exact ⟨_, _, hscan, hhead, hgap⟩

/-! ## Members -/

theorem plainKey_verbatim {name : Str} (h : name.Verbatim) : PlainKey name.body := by
  have hplain : ∀ b ∈ name.body, b ≠ '"'.toUInt8 ∧ b ≠ '\\'.toUInt8 := by
    intro b hb
    obtain ⟨item, hitem, hb⟩ := List.mem_flatMap.mp hb
    obtain ⟨c, control, plain, rfl⟩ := h item hitem
    exact plain_of_mem_unescaped plain hb
  exact ⟨fun hmem => (hplain _ hmem).1 rfl, fun hmem => (hplain _ hmem).2 rfl⟩

theorem memberValue_tree {name : Str} (hname : name.Verbatim) (before colon afterColon : Blank)
    (value : Tree .value) (after : Blank) (key : Bytes) (fuel : Nat) {rest : Bytes}
    (hrest : EndsValue rest) :
    ∃ raw, Takes value raw ∧ memberValue key (fuel + 1) (before.text ++ (name.text ++ (colon.text ++
        ':'.toUInt8 :: (afterColon.text ++ (value.text ++ (after.text ++ rest)))))) =
      if name.body = key then raw else memberValue key fuel rest := by
  obtain ⟨raw, gap, hscan, htakes, hgap⟩ := scanValue_tree value after hrest
  have hstart : ∃ c cs, value.text ++ (after.text ++ rest) = c :: cs ∧ isSpace c = false := by
    obtain ⟨c, cs, hvalue, hspace⟩ := tree_head value
    rw [hvalue]
    exact ⟨c, _, rfl, hspace⟩
  have hparts : ∀ later : Bytes, name.text ++ later = '"'.toUInt8 :: (name.body ++ '"'.toUInt8 :: later) := by
    intro later
    simp [Str.text]
  refine ⟨raw, htakes, ?_⟩
  rw [memberValue_gap fun c hc => isGap_of_isSpace (isSpace_of_blank before c hc), hparts]
  exact memberValue_step (plainKey_verbatim hname) (isSpace_of_blank colon) (isSpace_of_blank afterColon)
    hstart hscan hgap key fuel

/-- The walker's result on the members: the first one under the key, if any. -/
inductive Reads (key : Bytes) : List (Str × Tree .value) → Bytes → Prop
  | absent : Reads key [] []
  | found {name : Str} {value : Tree .value} {later : List (Str × Tree .value)} {raw : Bytes}
      (hname : name.body = key) (h : Takes value raw) : Reads key ((name, value) :: later) raw
  | later {name : Str} {value : Tree .value} {later : List (Str × Tree .value)} {raw : Bytes}
      (hname : name.body ≠ key) (h : Reads key later raw) : Reads key ((name, value) :: later) raw

theorem memberValue_end (key : Bytes) (fuel : Nat) (rest : Bytes) :
    memberValue key fuel (closeBrace :: rest) = [] := by
  have hclose : (closeBrace :: rest).dropWhile (fun c => isSpace c || c == ','.toUInt8) =
      closeBrace :: rest := List.dropWhile_cons_of_neg (by decide)
  have hquote : closeBrace ≠ '"'.toUInt8 := by decide
  cases fuel with
  | zero => rfl
  | succ fuel =>
      rw [memberValue, hclose]
      exact if_pos hquote

theorem memberValue_members : (items : Tree .members) →
    (∀ entry ∈ items.entries, entry.1.Verbatim) → ∀ (key : Bytes) {fuel : Nat},
      items.entries.length ≤ fuel → ∀ rest : Bytes,
        Reads key items.entries (memberValue key fuel (items.text ++ closeBrace :: rest))
  | .lastMember before name colon afterColon value after, hplain, key, fuel, hfuel, rest => by
      have hroom : 0 < fuel := hfuel
      obtain ⟨fuel, rfl⟩ := Nat.exists_eq_add_one.mpr hroom
      obtain ⟨raw, htakes, hstep⟩ := memberValue_tree (hplain _ List.mem_cons_self) before colon afterColon
        value after key fuel ⟨closeBrace, rest, rfl, Or.inr rfl⟩
      simp only [Tree.text, Tree.entries, List.append_assoc, List.cons_append]
      rw [hstep]
      split_ifs with hname
      · exact .found hname htakes
      · rw [memberValue_end]
        exact .later hname .absent
  | .member before name colon afterColon value after later, hplain, key, fuel, hfuel, rest => by
      have hroom : later.entries.length + 1 ≤ fuel := hfuel
      obtain ⟨fuel, rfl⟩ := Nat.exists_eq_add_one.mpr (Nat.lt_of_lt_of_le (Nat.succ_pos _) hroom)
      obtain ⟨hfirst, hlater⟩ := List.forall_mem_cons.mp hplain
      obtain ⟨raw, htakes, hstep⟩ := memberValue_tree hfirst before colon afterColon value after key fuel
        ⟨','.toUInt8, later.text ++ closeBrace :: rest, rfl, Or.inl rfl⟩
      simp only [Tree.text, Tree.entries, List.append_assoc, List.cons_append]
      rw [hstep, memberValue_comma]
      split_ifs with hname
      · exact .found hname htakes
      · exact .later hname (memberValue_members later hlater key (Nat.le_of_succ_le_succ hroom) rest)

theorem length_entries : (items : Tree .members) → items.entries.length ≤ items.text.length
  | .lastMember before name colon afterColon value after => by
      simp only [Tree.entries, Tree.text, List.length_append, List.length_cons, List.length_nil]
      omega
  | .member before name colon afterColon value after later => by
      have hlater := length_entries later
      simp only [Tree.entries, Tree.text, List.length_append, List.length_cons]
      omega

/-- `top_level_raw` on JSON text reads the members of the outer object. -/
theorem topLevelRaw_object (before after : Blank) {value : Tree .value} {entries : List (Str × Tree .value)}
    (hvalue : value.members? = some entries) (hplain : ∀ entry ∈ entries, entry.1.Verbatim) (key : Bytes) :
    Reads key entries (topLevelRaw (before.text ++ (value.text ++ after.text)) key) := by
  have hopen : ∀ rest : Bytes, (before.text ++ openBrace :: rest).dropWhile (· ≠ openBrace) =
      openBrace :: rest := by
    intro rest
    rw [List.dropWhile_append_of_pos]
    · exact List.dropWhile_cons_of_neg (by simp)
    · intro c hc
      rcases before.blank c hc with rfl | rfl | rfl | rfl <;> decide
  cases value with
  | emptyObject gap =>
      obtain rfl : [] = entries := Option.some.inj hvalue
      have htext : before.text ++ ((Tree.emptyObject gap).text ++ after.text) =
          before.text ++ openBrace :: (gap.text ++ closeBrace :: after.text) := by
        simp [Tree.text, openBrace, closeBrace]
      rw [htext, topLevelRaw, hopen]
      dsimp only
      rw [memberValue_gap fun c hc => isGap_of_isSpace (isSpace_of_blank gap c hc), memberValue_end]
      exact .absent
  | object items =>
      obtain rfl : items.entries = entries := Option.some.inj hvalue
      have htext : before.text ++ ((Tree.object items).text ++ after.text) =
          before.text ++ openBrace :: (items.text ++ closeBrace :: after.text) := by
        simp [Tree.text, openBrace, closeBrace]
      have hfuel : items.entries.length ≤
          (before.text ++ openBrace :: (items.text ++ closeBrace :: after.text)).length := by
        have hentries := length_entries items
        simp only [List.length_append, List.length_cons]
        omega
      rw [htext, topLevelRaw, hopen]
      exact memberValue_members items hplain key hfuel after.text
  | literal l => contradiction
  | number n => contradiction
  | string s => contradiction
  | emptyArray gap => contradiction
  | array items => contradiction

theorem Reads.string {key raw : Bytes} {entries : List (Str × Tree .value)} (h : Reads key entries raw)
    (hdistinct : (entries.map fun entry => entry.1.body).Nodup) {name s : Str}
    (hmem : (name, Tree.string s) ∈ entries) (hname : name.body = key) : raw = s.text := by
  induction h with
  | absent => contradiction
  | found hfirst htakes =>
      rename_i first value later raw
      rw [List.map_cons, List.nodup_cons] at hdistinct
      rcases List.mem_cons.mp hmem with heq | hmem
      · obtain ⟨-, rfl⟩ := Prod.mk.inj heq
        exact htakes
      · exact absurd (List.mem_map.mpr ⟨_, hmem, hname.trans hfirst.symm⟩) hdistinct.1
  | later hfirst _ ih =>
      rw [List.map_cons, List.nodup_cons] at hdistinct
      rcases List.mem_cons.mp hmem with heq | hmem
      · obtain ⟨rfl, -⟩ := Prod.mk.inj heq
        exact absurd hname hfirst
      · exact ih hdistinct.2 hmem

theorem Reads.no_string {key raw : Bytes} {entries : List (Str × Tree .value)} (h : Reads key entries raw)
    (hnone : ∀ entry ∈ entries, entry.1.body = key → entry.2.string? = none) :
    raw.head? ≠ some quote := by
  induction h with
  | absent => exact nofun
  | found hfirst htakes =>
      have hvalue := hnone _ List.mem_cons_self hfirst
      unfold Takes at htakes
      rw [hvalue] at htakes
      exact htakes
  | later _ _ ih => exact ih fun entry hentry => hnone entry (List.mem_cons_of_mem _ hentry)

/-! ## Decoding -/

theorem unescapeClaim_word {word : Bytes} (h : ∀ c ∈ word, c ≠ '\\'.toUInt8) (rest : Bytes) :
    unescapeClaim (word ++ rest) = word ++ unescapeClaim rest := by
  induction word with
  | nil => rfl
  | cons c word ih =>
      obtain ⟨hc, hword⟩ := List.forall_mem_cons.mp h
      rw [List.cons_append, unescapeClaim_plain hc, ih hword, List.cons_append]

theorem fourHex_byte (w x y z : HexDigit) :
    fourHex w.byte x.byte y.byte z.byte = some (Item.codePoint w x y z) := by
  have hdigit : ∀ d : HexDigit, hexDigitValue d.byte = some d.value.val := by
    have hall : ∀ value : Fin 16, ∀ upper : Bool,
        hexDigitValue (HexDigit.byte ⟨value, upper⟩) = some value.val := by decide
    exact fun d => hall d.value d.upper
  rw [fourHex, hdigit, hdigit, hdigit, hdigit]
  rfl

/-- Up to three bytes: an escape names no character beyond them. -/
theorem encodeCodePoint_eq {cp : Nat} (hbound : cp < 0x10000) (h : ¬IsSurrogate cp) :
    encodeCodePoint cp = String.utf8EncodeChar (Char.ofNat cp) := by
  have hchar : (Char.ofNat cp).val.toNat = cp := toNat_ofNat hbound h
  have hsurrogate : ¬(0xD800 ≤ cp ∧ cp ≤ 0xDFFF) := h
  unfold encodeCodePoint String.utf8EncodeChar
  dsimp only
  rw [hchar, if_neg hsurrogate]
  by_cases hone : cp < 0x80
  · have hone' : cp ≤ 0x7F := by omega
    rw [if_pos hone, if_pos hone']
  have hone' : ¬cp ≤ 0x7F := by omega
  rw [if_neg hone, if_neg hone']
  have hmiddle : 0x80 + cp / 64 % 64 = cp / 64 % 0x40 + 0x80 := by omega
  have hlast : 0x80 + cp % 64 = cp % 0x40 + 0x80 := by omega
  by_cases htwo : cp < 0x800
  · have htwo' : cp ≤ 0x7FF := by omega
    have hlead : 0xC0 + cp / 64 = cp / 64 % 0x20 + 0xC0 := by omega
    rw [if_pos htwo, if_pos htwo', hlead, hlast]
  · have htwo' : ¬cp ≤ 0x7FF := by omega
    have hthree : cp ≤ 0xFFFF := by omega
    have hlead : 0xE0 + cp / 4096 = cp / 4096 % 0x10 + 0xE0 := by omega
    rw [if_neg htwo, if_neg htwo', if_pos hthree, hlead, hmiddle, hlast]

theorem unescapeClaim_item {item : Item} {c : Char} (h : item.char = some c) (rest : Bytes) :
    unescapeClaim (item.text ++ rest) = String.utf8EncodeChar c ++ unescapeClaim rest := by
  cases item with
  | unescaped c' control plain =>
      obtain rfl := Option.some.inj h
      exact unescapeClaim_word (fun b hb => (plain_of_mem_unescaped plain hb).2) rest
  | escaped e =>
      have hpair : e.letter ≠ 'u'.toUInt8 ∧ ∃ b, simpleEscape e.letter = some b ∧
          String.utf8EncodeChar e.char = [b] := by
        cases e <;> exact ⟨by decide, _, rfl, rfl⟩
      obtain ⟨hletter, b, hescape, hchar⟩ := hpair
      obtain rfl := Option.some.inj h
      rw [hchar]
      exact unescapeClaim_pair hletter hescape rest
  | unicode w x y z =>
      rw [Item.char] at h
      split_ifs at h with hsurrogate
      obtain rfl := Option.some.inj h
      rw [← encodeCodePoint_eq (codePoint_lt w x y z) hsurrogate]
      exact unescapeClaim_unicode (fourHex_byte w x y z) rest

theorem unescapeClaim_body {s : Str} {chars : List Char} (h : s.decode = some chars) :
    unescapeClaim s.body = utf8 chars := by
  induction s generalizing chars with
  | nil =>
      obtain rfl : [] = chars := Option.some.inj h
      rfl
  | cons item s ih =>
      unfold Str.decode at h
      rw [List.mapM_cons] at h
      obtain ⟨c, hc, h⟩ := Option.bind_eq_some_iff.mp h
      obtain ⟨cs, hcs, h⟩ := Option.bind_eq_some_iff.mp h
      obtain rfl : c :: cs = chars := Option.some.inj h
      have hbody : Str.body (item :: s) = item.text ++ Str.body s := rfl
      rw [hbody, unescapeClaim_item hc, ih hcs]
      rfl

theorem extractStringClaim_string {json key : Bytes} {s : Str} {chars : List Char}
    (hraw : topLevelRaw json key = s.text) (hdecode : s.decode = some chars) :
    extractStringClaim json key = utf8 chars := by
  have hlast : s.text.getLast? = some '"'.toUInt8 := by
    rw [Str.text, ← List.cons_append, List.getLast?_concat]
  have hbody : (s.text.drop 1).dropLast = s.body := List.dropLast_concat
  have hstring : ¬(s.text.length < 2 ∨ s.text.head? ≠ some '"'.toUInt8 ∨
      s.text.getLast? ≠ some '"'.toUInt8) := by
    rw [hlast]
    simp [Str.text]
  unfold extractStringClaim
  dsimp only
  rw [hraw, if_neg hstring, hbody, unescapeClaim_body hdecode]

theorem extractStringClaim_no_string {json key : Bytes}
    (hraw : (topLevelRaw json key).head? ≠ some quote) : extractStringClaim json key = [] := by
  unfold extractStringClaim
  exact if_pos (Or.inr (Or.inl hraw))

/-- String claims are read from the members of the outer object, and decoded;
whatever stands inside their values has no influence. -/
theorem string_claims_top_level (before after : Blank) {value : Tree .value}
    {entries : List (Str × Tree .value)} (hvalue : value.members? = some entries)
    (hplain : ∀ entry ∈ entries, entry.1.Verbatim)
    (hdistinct : (entries.map fun entry => entry.1.body).Nodup) (key : Bytes) :
    (∀ name s chars, (name, Tree.string s) ∈ entries → name.body = key → s.decode = some chars →
      extractStringClaim (before.text ++ (value.text ++ after.text)) key = utf8 chars) ∧
    ((∀ entry ∈ entries, entry.1.body = key → entry.2.string? = none) →
      extractStringClaim (before.text ++ (value.text ++ after.text)) key = []) := by
  have hreads := topLevelRaw_object before after hvalue hplain key
  constructor
  · intro name s chars hmem hname hdecode
    exact extractStringClaim_string (hreads.string hdistinct hmem hname) hdecode
  · intro hnone
    exact extractStringClaim_no_string (hreads.no_string hnone)

/-- A string in which every character is written out. -/
def written (chars : List Char) : Str :=
  chars.filterMap fun c =>
    if h : 0x20 ≤ c.toNat ∧ c ≠ '"' ∧ c ≠ '\\' then some (.unescaped c h.1 h.2) else none

theorem verbatim_written (chars : List Char) : (written chars).Verbatim := by
  intro item hitem
  obtain ⟨c, -, hc⟩ := List.mem_filterMap.mp hitem
  split_ifs at hc with h
  exact ⟨c, h.1, h.2, (Option.some.inj hc).symm⟩

/-- Members with the name `scope` in a nested object and in a string too. -/
def nestedScope : Tree .members :=
  .member .none (written "realm_access".toList) .none .none
    (.object (.lastMember .none (written "scope".toList) .none .none
      (.string (written "execute:**".toList ++ .escaped .quotationMark :: written ",\x7d".toList)) .none))
    ⟨ascii " ", by decide +kernel⟩ (.lastMember .none (written "scope".toList) .none .none
      (.string (.escaped .quotationMark :: written "scope: caf".toList ++
        [.unicode ⟨0, false⟩ ⟨0, false⟩ ⟨14, true⟩ ⟨9, false⟩, .escaped .lineFeed])) .none)

/-- Their object as it is written. -/
def nestedText : Bytes :=
  utf8 "\x7b\"realm_access\":\x7b\"scope\":\"execute:**\\\",\x7d\"\x7d ,".toList ++
    utf8 "\"scope\":\"\\\"scope: caf\\u00E9\\n\"\x7d".toList

theorem nested_scope_ignored :
    extractStringClaim nestedText (ascii "scope") = utf8 "\"scope: café\n".toList ∧
      extractStringClaim nestedText (ascii "realm_access") = [] := by
  have htext : Blank.none.text ++ ((Tree.object nestedScope).text ++ Blank.none.text) = nestedText := by
    decide +kernel
  have hplain : ∀ entry ∈ nestedScope.entries, entry.1.Verbatim := by
    intro entry hentry
    obtain rfl | rfl := List.mem_pair.mp hentry
    · exact verbatim_written _
    · exact verbatim_written _
  have hvalue : (Tree.object nestedScope).members? = some nestedScope.entries := rfl
  have hread := string_claims_top_level .none .none hvalue hplain (by decide +kernel)
  rw [htext] at hread
  constructor
  · exact (hread (ascii "scope")).1 _ _ _ (List.mem_cons_of_mem _ List.mem_cons_self) (by decide +kernel)
      (by decide +kernel)
  · apply (hread (ascii "realm_access")).2
    intro entry hentry hname
    obtain rfl | rfl := List.mem_pair.mp hentry
    · rfl
    · exact absurd hname (by decide +kernel)

end LlmTop
