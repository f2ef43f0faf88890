import LlmTop.HeaderFields
import LlmTop.LexerBounds

/-!
# Every position of the parser is in range

The parser with its positions refines the parser: it accesses strings in range
only, raises what the parser throws and nothing else, and ends.
-/
namespace LlmTop.Checked
open Lib Lib.Faults Lib.Traced Lib.CheckedText

variable {text : Bytes} {pos : UInt64}

/-! ## Computations with a mode and a log -/

/-- The computation is the one over the same mode and log; what it raises is what that throws. -/
def Follows {α : Type} (c : Parse α) (m : LlmTop.Parse α) : Prop :=
  ∀ mode log, Refines Access.InRange Eq (c mode log) ((m mode log).mapError Raised.runtimeError)

section
variable {α β : Type}

theorem follows_pure (a : α) : Follows (pure a) (pure a) := fun _ _ => refines_pure rfl

theorem mapError_bind (m : LlmTop.Parse α) (k : α → LlmTop.Parse β) (mode : Mode) (log : List Fault) :
    ((m >>= k) mode log).mapError Raised.runtimeError =
      (m mode log).mapError Raised.runtimeError >>= fun r =>
        (k r.1 mode r.2).mapError Raised.runtimeError := by
  rw [bind_apply]
  cases m mode log <;> rfl

theorem follows_bind {c : Parse α} {m : LlmTop.Parse α} {k : α → Parse β} {l : α → LlmTop.Parse β}
    (hc : Follows c m) (hk : ∀ a, Follows (k a) (l a)) : Follows (c >>= k) (m >>= l) := by
  intro mode log
  rw [mapError_bind]
  apply refines_bind (hc mode log)
  rintro ⟨a, log'⟩ b rfl
  exact hk a mode log'

/-- Whatever the mode and the log, what is returned meets `post`. -/
def Yields (post : α → Prop) (m : LlmTop.Parse α) : Prop :=
  ∀ {mode log a log'}, m mode log = .ok (a, log') → post a

theorem follows_bind_yields {post : α → Prop} {c : Parse α} {m : LlmTop.Parse α}
    {k : α → Parse β} {l : α → LlmTop.Parse β} (hc : Follows c m) (hm : Yields post m)
    (hk : ∀ a, post a → Follows (k a) (l a)) : Follows (c >>= k) (m >>= l) := by
  intro mode log
  rw [mapError_bind]
  apply refines_bind (hc mode log).with_result
  rintro ⟨a, log'⟩ b ⟨rfl, hresult⟩
  have hreturned : m mode log = .ok (a, log') := by
    cases hm : m mode log with
    | error fault =>
        rw [hm] at hresult
        contradiction
    | ok r =>
        rw [hm] at hresult
        exact congrArg Except.ok (Except.ok.inj hresult)
  exact hk a (hm hreturned) mode log'

/-- A step over strings in front of the rest. -/
theorem follows_lift {run : Run Access Raised α} {a : α} {k : α → Parse β} {m : LlmTop.Parse β}
    (hrun : Refines Access.InRange Eq run (.ok a)) (hk : Follows (k a) m) :
    Follows (lift run >>= k) m := by
  intro mode log
  have hlift : Refines Access.InRange Eq (lift run mode log) (.ok (a, log)) := by
    apply refines_after hrun
    exact refines_pure rfl
  exact refines_after hlift (hk mode log)

theorem follows_error (fault : Fault) : Follows (handleError fault) (report fault) := by
  intro mode log
  cases mode with
  | strict => exact refines_raise _
  | tolerant => exact refines_pure rfl

theorem follows_report {fault : Fault} {a b : α} (h : a = b) :
    Follows (do handleError fault; pure a) (do report fault; pure b) := by
  subst h
  exact follows_bind (follows_error fault) fun _ => follows_pure a

theorem follows_mode {k : Mode → Parse β} {l : Mode → LlmTop.Parse β}
    (h : ∀ mode, Follows (k mode) (l mode)) :
    Follows (currentMode >>= k) (Faults.currentMode >>= l) := by
  intro mode log
  exact refines_after (refines_pure rfl) (h mode mode log)

theorem follows_ite {c : Prop} [Decidable c] {p p' : Parse α} {m m' : LlmTop.Parse α}
    (hpos : c → Follows p m) (hneg : ¬c → Follows p' m') :
    Follows (if c then p else p') (if c then m else m') := by
  split
  · exact hpos ‹c›
  · exact hneg ‹¬c›

theorem follows_foldlM {σ : Type} {step : σ → α → Parse σ} {step' : σ → α → LlmTop.Parse σ}
    {xs : List α} (h : ∀ s, ∀ x ∈ xs, Follows (step s x) (step' s x)) (s : σ) :
    Follows (xs.foldlM step s) (xs.foldlM step' s) := by
  induction xs generalizing s with
  | nil => exact follows_pure s
  | cons x xs ih =>
      rw [List.foldlM_cons, List.foldlM_cons]
      apply follows_bind (h s x List.mem_cons_self)
      intro s'
      exact ih (fun s y hy => h s y (List.mem_cons_of_mem x hy)) s'

end

/-! ## The header -/

theorem addressable_token {delim : UInt8} {token : Bytes} (hs : Addressable text)
    (h : token ∈ LlmTop.lexSplit text delim) : Addressable token :=
  hs.of_le (infix_of_mem_lexSplit h).length_le

theorem follows_stoi (h : Header) (val : Bytes) :
    Follows
      (tryCatch
        (do
          let hr ← stoi val
          pure { h with hr := hr })
        (do
          handleError (.invalidHr val)
          pure { h with hr := 0 }))
      (match LlmTop.stoi val with
      | some hr => pure { h with hr := hr }
      | none => do
          report (.invalidHr val)
          pure { h with hr := 0 }) := by
  intro mode log
  unfold tryCatch stoi
  cases LlmTop.stoi val with
  | some hr => exact refines_pure rfl
  | none => exact follows_report rfl mode log

theorem follows_headerToken (hs : Addressable text) (h : Header) :
    Follows (headerToken h text) (LlmTop.headerToken h text) := by
  unfold headerToken LlmTop.headerToken
  dsimp only
  rcases find_cases hs ':'.toUInt8 with ⟨hnone, hpos⟩ | ⟨i, hsome, hi, hne, hpos, hsucc⟩
  · rw [hnone, if_pos hpos]
    exact follows_report rfl
  · rw [hsome, if_neg hne]
    apply follows_lift (refines_substr_front hpos)
    apply follows_lift (refines_substr_back hs hi hsucc)
    dsimp only
    iterate 7
      apply follows_ite (fun _ => follows_pure _)
      intro _
    apply follows_ite (fun _ => follows_stoi h _)
    intro _
    exact follows_report rfl

theorem follows_requireFields (h : Header) :
    Follows (requireFields h) (LlmTop.requireFields h) := by
  apply follows_mode
  intro mode
  apply follows_ite
  · intro _
    apply follows_ite (fun _ => follows_error _)
    exact fun _ => follows_pure _
  · exact fun _ => follows_pure _

theorem follows_parseHeader (hs : Addressable text) :
    Follows (parseHeader text) (LlmTop.parseHeader text) := by
  apply follows_lift (refines_lexSplit hs _)
  apply follows_bind
  · apply follows_foldlM
    intro h token htoken
    exact follows_headerToken (addressable_token hs htoken) h
  · intro h
    apply follows_bind (follows_requireFields h)
    exact fun _ => follows_pure h

/-! ## Pairs and calls -/

/-- The value of a token is what stands behind its separator. -/
theorem length_val_le {token : Bytes} {sep : Option Nat} {parts : Bytes × Bytes}
    (h : sep.map (fun i => (token.take i, token.drop (i + 1))) = some parts) :
    parts.2.length ≤ token.length := by
  obtain ⟨i, -, rfl⟩ := Option.map_eq_some_iff.mp h
  rw [List.length_drop]
  omega

theorem follows_putPair {split : Bytes → Run Access Raised (Option (Bytes × Bytes))}
    {split' : Bytes → Option (Bytes × Bytes)} (duplicate malformed : Bytes → Fault)
    (hs : Addressable text) (hsplit : Refines Access.InRange Eq (split text) (.ok (split' text)))
    (hlength : ∀ {parts : Bytes × Bytes}, split' text = some parts → parts.2.length ≤ text.length)
    (state : OrderedMap × Bool) :
    Follows (putPair split duplicate malformed state text)
      (LlmTop.putPair split' duplicate malformed state text) := by
  unfold LlmTop.putPair
  apply follows_lift hsplit
  cases hparts : split' text with
  | none => exact follows_report rfl
  | some parts =>
      obtain ⟨key, val⟩ := parts
      apply follows_lift (refines_unquoteAndUnescape (hs.of_le (hlength hparts)))
      apply follows_ite
      · exact fun _ => follows_report rfl
      · exact fun _ => follows_pure _

theorem follows_parseKVPairs (hs : Addressable text) (kvpairs : OrderedMap) (healed : Bool) :
    Follows (parseKVPairs text kvpairs healed) (LlmTop.parseKVPairs text kvpairs healed) := by
  apply follows_lift (refines_lexSplit hs _)
  apply follows_foldlM
  intro state token htoken
  have htoken := addressable_token hs htoken
  exact follows_putPair _ _ htoken (refines_splitToken htoken) length_val_le state

theorem refines_trimmed (hs : Addressable text) :
    Refines Access.InRange Eq (trim text) (.ok (LlmTop.trim text)) := refines_trim _ hs

theorem refines_trimLine (hs : Addressable text) :
    Refines Access.InRange Eq (trimLine text) (.ok (LlmTop.trimLine text)) := refines_eraseBoth _ hs

theorem length_substr_le (s : Bytes) (pos len : Nat) : (Search.substr s pos len).length ≤ s.length := by
  unfold Search.substr
  rw [List.length_take, List.length_drop]
  omega

theorem pred_toNat {i : Nat} (hpos : pos.toNat = i) (hi : 0 < i) : (pos - 1).toNat = i - 1 := by
  have hbound := pos.toNat_lt
  rw [UInt64.toNat_sub, hpos]
  show (2 ^ 64 - 1 + i) % 2 ^ 64 = i - 1
  omega

/-- Behind the first byte of a line that has one. -/
theorem refines_name (hne : text ≠ []) {i : Nat} (hcount : pos.toNat = i) :
    Refines Access.InRange Eq (substr text 1 pos) (.ok (Search.substr text 1 i)) := by
  rw [← hcount]
  apply refines_substr
  exact List.length_pos_iff.mpr hne

theorem pos_of_find {c d : UInt8} {i : Nat} (hhead : text.head? = some d) (hcd : c ≠ d)
    (h : Search.find c text = some i) : 0 < i := by
  obtain ⟨before, rest, rfl, -, rfl⟩ := Search.find_eq_some.mp h
  cases before with
  | nil => exact absurd (Option.some.inj hhead) hcd
  | cons b before => exact Nat.succ_pos _

theorem follows_args {tokens : List Bytes} (htokens : ∀ token ∈ tokens, Addressable token)
    (state : OrderedMap × Bool) :
    Follows (tokens.foldlM (putPair splitArg .duplicateArg .malformedArg) state)
      (tokens.foldlM parseArg state) := by
  apply follows_foldlM
  intro state token htoken
  have htoken := htokens token htoken
  exact follows_putPair _ _ htoken (refines_splitArg htoken) length_val_le state

/-- The text between the brackets, by its two positions. -/
theorem refines_between {start len : Nat} (hpos : pos.toNat = start) (hsucc : (pos + 1).toNat = start + 1)
    (hs : Addressable text) (hlen : start + 1 + len < text.length) :
    Refines Access.InRange Eq
      (substr text (pos + 1) (position (some (start + 1 + len)) - pos - 1))
      (.ok (Search.substr text (start + 1) len)) := by
  have hstop := toNat_position (Nat.lt_trans hlen hs)
  have hcount : (position (some (start + 1 + len)) - pos - 1).toNat = len := by
    have hbound := (position (some (start + 1 + len))).toNat_lt
    rw [UInt64.toNat_sub, UInt64.toNat_sub, hstop, hpos]
    show (2 ^ 64 - 1 + (2 ^ 64 - start + (start + 1 + len)) % 2 ^ 64) % 2 ^ 64 = len
    omega
  have hfront : (pos + 1).toNat ≤ text.length := by omega
  have hsubstr := refines_substr Raised.outOfRange hfront (position (some (start + 1 + len)) - pos - 1)
  rwa [hsucc, hcount] at hsubstr

/-- Without brackets the name ends at the marker, or with the line. -/
theorem toNat_nameCount (hs : Addressable text) (hhead : text.head? = some '!'.toUInt8) :
    (if find '>'.toUInt8 text ≠ npos then find '>'.toUInt8 text - 1 else size text - 1).toNat =
      (Search.find '>'.toUInt8 text).getD text.length - 1 := by
  rcases find_cases hs '>'.toUInt8 with ⟨hnone, hpos⟩ | ⟨i, hsome, -, hne, hpos, -⟩
  · have hne : text ≠ [] := by
      rintro rfl
      contradiction
    rw [hnone, if_neg (not_not_intro hpos), Option.getD_none]
    exact pred_toNat hs.toNat_size (List.length_pos_iff.mpr hne)
  · rw [hsome, if_pos hne, Option.getD_some]
    exact pred_toNat hpos (pos_of_find hhead (by decide) hsome)

theorem follows_parseToolCall (hs : Addressable text) (hhead : text.head? = some '!'.toUInt8)
    (healed : Bool) :
    Follows (parseToolCall text healed) (LlmTop.parseToolCall text healed) := by
  have hne : text ≠ [] := by
    rintro rfl
    contradiction
  have hpiece : ∀ pos len, Addressable (Search.substr text pos len) :=
    fun pos len => hs.of_le (length_substr_le text pos len)
  unfold parseToolCall LlmTop.parseToolCall
  dsimp only
  rcases find_cases hs '['.toUInt8 with ⟨hnone, hpos⟩ | ⟨start, hsome, hi, hfound, hpos, hsucc⟩
  · rw [hnone, if_neg (not_not_intro hpos)]
    apply follows_lift (refines_name hne (toNat_nameCount hs hhead))
    apply follows_lift (refines_trimmed (hpiece _ _))
    apply follows_lift (refines_methodAfter hs fun _ => find_lt)
    exact follows_pure _
  · rw [hsome, if_pos hfound]
    have hpred := pred_toNat hpos (pos_of_find hhead (by decide) hsome)
    apply follows_lift (refines_name hne hpred)
    have hstands : Stands text (find '['.toUInt8 text + 1) (text.drop (start + 1)) :=
      ⟨by rw [hsucc], by omega⟩
    apply follows_lift (refines_bracketLoop hs (by rw [List.length_drop]; omega) hstands false false)
    rw [hsucc]
    dsimp only
    cases hclose : closingBracket false false (text.drop (start + 1)) with
    | none =>
        rw [Option.map_none, if_neg (fun hfalse => hfalse rfl)]
        apply follows_bind (follows_error _)
        intro _
        apply follows_lift (refines_trimmed (hpiece _ _))
        exact follows_pure _
    | some len =>
        have hlen : start + 1 + len < text.length := by
          obtain ⟨args, later, htext, rfl, -⟩ := closingBracket_cut hclose
          have hlength := congrArg List.length htext
          rw [List.length_drop, List.length_append, List.length_cons] at hlength
          omega
        have hsmall := Nat.lt_trans hlen hs
        rw [Option.map_some, if_pos (position_ne_npos hsmall)]
        apply follows_lift (refines_between hpos hsucc hs hlen)
        have hargs := hpiece (start + 1) len
        apply follows_lift (refines_lexSplit hargs _)
        apply follows_bind (follows_args (fun _ htoken => addressable_token hargs htoken) _)
        rintro ⟨args, healed'⟩
        apply follows_lift (refines_trimmed (hpiece _ _))
        unfold findFrom
        rw [toNat_position hsmall]
        apply follows_lift (refines_methodAfter hs fun _ => findFrom_lt)
        exact follows_pure _

/-! ## Lines -/

theorem follows_healQuote (line : Bytes) (healed : Bool) :
    Follows (healQuote line healed) (LlmTop.healQuote line healed) := by
  apply follows_ite
  · intro _
    apply follows_mode
    intro mode
    cases mode with
    | tolerant => exact follows_report rfl
    | strict => exact follows_report rfl
  · exact fun _ => follows_pure _

theorem yields_healQuote (line : Bytes) (healed : Bool) :
    Yields (fun out => out.1 = line ∨ out.1 = line ++ [quote]) (LlmTop.healQuote line healed) := by
  intro mode log out log' h
  unfold LlmTop.healQuote at h
  split at h
  · cases mode with
    | tolerant =>
        cases h
        exact Or.inr rfl
    | strict => contradiction
  · cases h
    exact Or.inl rfl

theorem follows_healRole (hs : Addressable text) (healed : Bool) :
    Follows (healRole text healed) (LlmTop.healRole text healed) := by
  unfold healRole LlmTop.healRole roleOpen closeRole
  rcases find_cases hs ']'.toUInt8 with ⟨hnone, hpos⟩ | ⟨i, hsome, -, hne, -, -⟩
  · rw [hnone, if_pos hpos, Option.isNone_none, if_pos rfl]
    apply follows_mode
    intro mode
    cases mode with
    | strict => exact follows_pure _
    | tolerant =>
        dsimp only
        rcases find_cases hs ' '.toUInt8 with ⟨hspace, hpos⟩ | ⟨i, hspace, hi, hne, hpos, -⟩
        · rw [hspace, if_neg (not_not_intro hpos), Option.isSome_none, if_neg Bool.false_ne_true]
          exact follows_report rfl
        · have hinside : (find ' '.toUInt8 text).toNat ≤ text.length := by omega
          have hinsert := refines_insert Raised.outOfRange hinside [']'.toUInt8]
          rw [hpos] at hinsert
          rw [hspace, if_pos hne, Option.isSome_some, if_pos rfl]
          apply follows_lift hinsert
          exact follows_report rfl
  · rw [hsome, if_neg hne, Option.isNone_some, if_neg Bool.false_ne_true]
    exact follows_pure _

theorem yields_healRole (line : Bytes) (healed : Bool) :
    Yields (fun out => out.1 = line ∨ out.1 = closeRole line) (LlmTop.healRole line healed) := by
  intro mode log out log' h
  by_cases hopen : roleOpen line = true
  · cases mode with
    | tolerant =>
        rw [healRole_tolerant healed log hopen] at h
        cases h
        exact Or.inr rfl
    | strict =>
        unfold LlmTop.healRole at h
        rw [if_pos hopen] at h
        cases h
        exact Or.inl rfl
  · unfold LlmTop.healRole at h
    rw [if_neg hopen] at h
    cases h
    exact Or.inl rfl

theorem length_closeRole (line : Bytes) : (closeRole line).length = line.length + 1 := by
  unfold closeRole
  split
  · rename_i i hfind
    have hi := find_lt hfind
    simp only [List.length_append, List.length_take, List.length_drop, List.length_singleton]
    omega
  · rw [List.length_append, List.length_singleton]

theorem follows_parseRoleLine (hs : text.length + 1 < 2 ^ 64 - 1)
    (hhead : text.head? = some '['.toUInt8) (cur : Current) :
    Follows (parseRoleLine cur text) (LlmTop.parseRoleLine cur text) := by
  apply follows_bind_yields (follows_healRole (Nat.lt_of_succ_lt hs) _) (yields_healRole text _)
  rintro ⟨line, healed⟩ hline
  have hfits : Addressable line := by
    rcases hline with rfl | rfl
    · exact Nat.lt_of_succ_lt hs
    · unfold Addressable
      rwa [length_closeRole]
  have hhead' : line.head? = some '['.toUInt8 := by
    rcases hline with rfl | rfl
    · exact hhead
    · exact head?_closeRole hhead
  have hne : line ≠ [] := by
    rintro rfl
    contradiction
  dsimp only
  rcases find_cases hfits ']'.toUInt8 with ⟨hnone, hpos⟩ | ⟨stop, hsome, hi, hne', hpos, hsucc⟩
  · rw [hnone, if_pos hpos]
    exact follows_report rfl
  · rw [hsome, if_neg hne']
    have hpred := pred_toNat hpos (pos_of_find hhead' (by decide) hsome)
    apply follows_lift (refines_name hne hpred)
    apply follows_lift (refines_substr_back hfits hi hsucc)
    have hrest : Addressable (line.drop (stop + 1)) := hfits.of_le (by rw [List.length_drop]; omega)
    apply follows_bind (follows_parseKVPairs hrest _ _)
    exact fun _ => follows_pure _

theorem follows_parseLine (hs : text.length + 2 < 2 ^ 64 - 1) (hne : text ≠ []) (cur : Current) :
    Follows (parseLine cur text) (LlmTop.parseLine cur text) := by
  apply follows_bind_yields (follows_healQuote text _) (yields_healQuote text _)
  rintro ⟨line, healed⟩ hline
  have hlength : line.length + 1 < 2 ^ 64 - 1 := by
    rcases hline with rfl | rfl
    · exact Nat.lt_of_succ_lt hs
    · rwa [List.length_append]
  have hline : line ≠ [] := by
    rcases hline with rfl | rfl
    · exact hne
    · simp
  obtain ⟨c, later, rfl⟩ := List.exists_cons_of_ne_nil hline
  have hfirst : Refines Access.InRange Eq (elemAt (c :: later) 0 : Run Access Raised UInt8)
      (.ok c) := refines_elemAt (stands_start (c :: later)).elem
  have hfits : Addressable (c :: later) := Nat.lt_of_succ_lt hlength
  have hhead : ∀ d : UInt8, (c :: later).head? = some d ↔ c = d := by
    intro d
    simp
  dsimp only
  apply follows_lift hfirst
  simp only [hhead]
  by_cases hrole : c = '['.toUInt8
  · rw [if_pos hrole, if_pos hrole]
    exact follows_parseRoleLine hlength ((hhead _).mpr hrole) _
  · rw [if_neg hrole, if_neg hrole]
    apply follows_lift hfirst
    by_cases htool : c = '!'.toUInt8
    · rw [if_pos htool, if_pos htool]
      apply follows_bind (follows_parseToolCall hfits ((hhead _).mpr htool) _)
      exact fun _ => follows_pure _
    · rw [if_neg htool, if_neg htool]
      apply follows_bind (follows_parseKVPairs hfits _ _)
      exact fun _ => follows_pure _

/-! ## The frame -/

theorem length_trimBoth_le (p : UInt8 → Bool) (s : Bytes) : (Search.trimBoth p s).length ≤ s.length :=
  (Search.trimBoth_infix p s).length_le

theorem follows_parseBodyLine (hs : text.length + 2 < 2 ^ 64 - 1) (b : Body) :
    Follows (parseBodyLine b text) (LlmTop.parseBodyLine b text) := by
  have hfits : Addressable text := Nat.lt_of_le_of_lt (Nat.le_add_right _ 2) hs
  have hlength : (LlmTop.trimLine text).length + 2 < 2 ^ 64 - 1 := by
    have hle : (LlmTop.trimLine text).length ≤ text.length := length_trimBoth_le isBlank text
    omega
  unfold LlmTop.parseBodyLine
  apply follows_lift (refines_trimLine hfits)
  generalize LlmTop.trimLine text = line at hlength
  cases line with
  | nil => exact follows_pure b
  | cons c rest =>
      dsimp only [List.isEmpty_cons]
      rw [if_neg Bool.false_ne_true, if_neg Bool.false_ne_true]
      apply follows_lift (refines_elemAt (stands_start (c :: rest)).elem)
      have hflush : (if c = '['.toUInt8 ∧ b.cur.started = true then
          { b.pushCurrentStmt with cur := { hasRole := b.cur.hasRole } }
        else b) = b.flush (c :: rest) := by
        unfold Body.flush isRoleLine
        by_cases hrole : c = '['.toUInt8 <;> simp [hrole]
      rw [hflush]
      apply follows_bind (follows_parseLine hlength (List.cons_ne_nil c rest) _)
      exact fun _ => follows_pure _

/-- The lines to come can be healed twice and keep their positions. -/
def Bounded (stream : TextStream UInt8) : Prop := ∀ line ∈ unread stream, line.length < 2 ^ 63

theorem Bounded.next {stream next : TextStream UInt8} {line : Bytes} {rest : List Bytes}
    (h : Bounded stream) (hunread : unread stream = line :: rest) (hrest : unread next = rest) :
    line.length < 2 ^ 63 ∧ Bounded next := by
  unfold Bounded at h ⊢
  rw [hunread] at h
  rw [hrest]
  exact ⟨h line List.mem_cons_self, fun later hlater => h later (List.mem_cons_of_mem line hlater)⟩

theorem follows_bodyLoop (fuel : Nat) (b : Body) {stream : TextStream UInt8} (hs : Bounded stream)
    (hfuel : (unread stream).length < fuel) :
    Follows (bodyLoop fuel b stream) (LlmTop.bodyLoop fuel b stream) := by
  induction fuel generalizing b stream with
  | zero => exact absurd hfuel (Nat.not_lt_zero _)
  | succ fuel ih =>
      unfold bodyLoop LlmTop.bodyLoop
      cases hunread : unread stream with
      | nil =>
          obtain ⟨next, hnext, -⟩ := getline_of_read hunread
          rw [hnext]
          exact follows_pure b
      | cons line rest =>
          obtain ⟨next, hnext, hrest, -⟩ := getline_of_unread hunread
          obtain ⟨hline, hlater⟩ := hs.next hunread hrest
          rw [hnext]
          apply follows_bind (follows_parseBodyLine (by omega) b)
          intro b'
          apply ih b' hlater
          rw [hunread, List.length_cons] at hfuel
          rw [hrest]
          omega

theorem refines_foldLoop (fuel : Nat) (headerLine : Bytes) (mark : Option Nat)
    {stream : TextStream UInt8} (hs : Bounded stream) (hfuel : (unread stream).length < fuel) :
    Refines Access.InRange Eq (foldLoop fuel headerLine mark stream)
      (.ok (LlmTop.foldLoop fuel headerLine mark stream)) := by
  induction fuel generalizing headerLine mark stream with
  | zero => exact absurd hfuel (Nat.not_lt_zero _)
  | succ fuel ih =>
      unfold foldLoop LlmTop.foldLoop
      cases hunread : unread stream with
      | nil =>
          obtain ⟨next, hnext, -⟩ := getline_of_read hunread
          rw [hnext]
          exact refines_pure rfl
      | cons line rest =>
          obtain ⟨next, hnext, hrest, -⟩ := getline_of_unread hunread
          have hmarked : unread next.tellg.2 = rest :=
            (TextStream.pending_tellg isLineFeed next).trans hrest
          obtain ⟨hline, hlater⟩ := hs.next hunread hmarked
          have hfits : Addressable line := Nat.lt_trans hline (by decide)
          have hprobe : Addressable (LlmTop.trim line) := hfits.of_le (length_trimBoth_le _ line)
          have hless : (unread next.tellg.2).length < fuel := by
            rw [hunread, List.length_cons] at hfuel
            rw [hmarked]
            omega
          rw [hnext]
          apply refines_after (refines_trimmed hfits)
          dsimp only
          apply refines_ite_ok
          · exact fun _ => ih headerLine _ hlater hless
          · intro _
            apply refines_after (refines_isHeaderContinuation hprobe)
            apply refines_ite_ok
            · exact fun _ => ih _ _ hlater hless
            · exact fun _ => refines_pure rfl

/-- A string that can exist in an address space. -/
structure Payload where
  bytes : Bytes
  size_lt : bytes.length < 2 ^ 63

theorem Payload.line_lt (payload : Payload) {line : Bytes} (h : line ∈ lines payload.bytes) :
    line.length < 2 ^ 63 :=
  Nat.lt_of_le_of_lt (Split.infix_of_mem_splitTerminated h).length_le payload.size_lt

theorem Payload.addressable (payload : Payload) {s : Bytes} (h : s.length ≤ payload.bytes.length) :
    Addressable s := Nat.lt_trans (Nat.lt_of_le_of_lt h payload.size_lt) (by decide)

theorem follows_parseFrame (maxSize : Nat) (payload : Payload) :
    Follows (parseFrame maxSize payload.bytes) (LlmTop.parseFrame maxSize payload.bytes) := by
  rw [← parseStream_eq]
  unfold parseFrame parseStream openFrame
  apply follows_ite (fun _ => follows_report rfl)
  intro _
  cases hlines : lines payload.bytes with
  | nil =>
      obtain ⟨next, hnext, -⟩ := getline_of_read ((unread_start payload.bytes).trans hlines)
      rw [hnext]
      exact follows_report rfl
  | cons line rest =>
      obtain ⟨next, hnext, hrest, hfew, hinside⟩ := getline_first hlines
      have hmarked : unread next.tellg.2 = rest :=
        (TextStream.pending_tellg isLineFeed next).trans hrest
      have hfuel : rest.length < payload.bytes.length + 1 := Nat.lt_succ_of_lt hfew
      have hline : line ∈ lines payload.bytes := hlines ▸ List.mem_cons_self
      have hlater : Bounded next.tellg.2 := by
        unfold Bounded
        rw [hmarked]
        intro later hmem
        exact payload.line_lt (hlines ▸ List.mem_cons_of_mem line hmem)
      have hout := foldLoop_eq (payload.bytes.length + 1) (LlmTop.trim line) hinside (hrest ▸ hfuel)
      rw [hnext]
      dsimp only at hout ⊢
      apply follows_lift
        (refines_trimmed (payload.addressable (Split.infix_of_mem_splitTerminated hline).length_le))
      apply follows_lift (refines_foldLoop _ (LlmTop.trim line) next.tellg.1 hlater (hmarked ▸ hfuel))
      generalize LlmTop.foldLoop (payload.bytes.length + 1) (LlmTop.trim line) next.tellg.1
        next.tellg.2 = out at hout
      obtain ⟨headerLine, mark, stream⟩ := out
      have hparts : frameParts payload.bytes = some (headerLine, unread (stream.clear.seekg mark)) := by
        rw [frameParts, hlines, ← hrest]
        exact congrArg some hout.symm
      dsimp only
      apply follows_bind (follows_parseHeader (payload.addressable (length_header_le hparts)))
      intro header
      have hbody : Bounded (stream.clear.seekg mark) :=
        fun later hmem => payload.line_lt ((frameParts_suffix hparts).subset hmem)
      apply follows_bind (follows_bodyLoop _ {} hbody (length_body_lt hparts))
      exact fun _ => follows_pure _

/-- The checked parser and the parser: positions in range, and the same outcome. -/
theorem parse_refines (mode : Mode) (maxSize : Nat) (payload : Payload) :
    Refines Access.InRange Eq (parse mode maxSize payload.bytes)
      ((LlmTop.parseFrame maxSize payload.bytes mode []).mapError Raised.runtimeError >>= fun r =>
        .ok { r.1 with diagnostic := r.2.foldl appendDiagnostic [] }) := by
  apply refines_bind (follows_parseFrame maxSize payload mode [])
  rintro ⟨ast, log⟩ r rfl
  exact refines_pure rfl

/-- In tolerant mode every payload has its AST, whatever the size limit. -/
theorem tolerant_parse_total (maxSize : Nat) (payload : Payload) :
    ∃ ast, (parse .tolerant maxSize payload.bytes).outcome = .returned ast ∧
      LlmTop.parse .tolerant maxSize payload.bytes = .ok ast ∧
      ∀ access ∈ (parse .tolerant maxSize payload.bytes).events, access.InRange := by
  have hrefines := parse_refines .tolerant maxSize payload
  rw [parseFrame_tolerant, List.nil_append] at hrefines
  exact ⟨_, hrefines.outcome_of_ok, parse_tolerant maxSize payload.bytes, hrefines.allowed⟩

theorem tolerant_parse_total_stray :
    let payload : Payload := ⟨ascii "VER:2 AGT:\"a\n[A k:v\n!t[x", by decide⟩
    ∃ ast, (parse .tolerant 1048576 payload.bytes).outcome = .returned ast ∧
      LlmTop.parse .tolerant 1048576 payload.bytes = .ok ast ∧
      ∀ access ∈ (parse .tolerant 1048576 payload.bytes).events, access.InRange :=
  tolerant_parse_total 1048576 ⟨ascii "VER:2 AGT:\"a\n[A k:v\n!t[x", by decide⟩

end LlmTop.Checked
