import Mathlib.Data.List.Basic

/-!
# Streams of fields

A text is read field by field until a byte stops the stream or the text ends.
A field consumes at least its first byte and may fail.
-/
namespace LlmTop.Lib.Fields

variable {β σ ε : Type}

structure Format (β σ ε : Type) where
  stops : β → Bool
  /-- Reads the field at the head of a text into the state. -/
  field : List β → σ → Except ε (σ × List β)
  consumes : ∀ {text rest : List β} {s s' : σ}, field text s = .ok (s', rest) →
    rest.length < text.length

variable (f : Format β σ ε)

def readLoop : Nat → List β → σ → Except ε (σ × List β)
  | 0, text, s => .ok (s, text)
  | _ + 1, [], s => .ok (s, [])
  | fuel + 1, b :: text, s =>
      if f.stops b then .ok (s, b :: text)
      else
        match f.field (b :: text) s with
        | .error fault => .error fault
        | .ok (s, rest) => readLoop fuel rest s

/-- The state behind the last field, and the text from the stopping byte on. -/
def read (text : List β) (s : σ) : Except ε (σ × List β) := readLoop f text.length text s

/-- A read needs no more rounds than its text has bytes. -/
theorem readLoop_eq {fuel : Nat} {text : List β} (h : text.length ≤ fuel) (s : σ) :
    readLoop f fuel text s = read f text s := by
  unfold read
  induction hn : text.length using Nat.strongRecOn generalizing fuel text s with
  | ind n ih =>
      cases text with
      | nil =>
          subst hn
          cases fuel <;> rfl
      | cons b text =>
          subst hn
          obtain ⟨fuel, rfl⟩ : ∃ m, fuel = m + 1 := ⟨fuel - 1, by simp at h; omega⟩
          rw [List.length_cons, readLoop, readLoop]
          split
          · rfl
          · cases hfield : f.field (b :: text) s with
            | error fault => rfl
            | ok result =>
                obtain ⟨s', rest⟩ := result
                have hrest := f.consumes hfield
                rw [List.length_cons] at hrest h
                exact (ih rest.length hrest (by omega) s' rfl).trans
                  (ih rest.length hrest (by omega) s' rfl).symm

theorem read_stop {b : β} (hstop : f.stops b = true) (text : List β) (s : σ) :
    read f (b :: text) s = .ok (s, b :: text) := by
  rw [read, List.length_cons, readLoop, if_pos hstop]

theorem read_error {b : β} {text : List β} {s : σ} {fault : ε} (hgo : f.stops b = false)
    (hfield : f.field (b :: text) s = .error fault) : read f (b :: text) s = .error fault := by
  rw [read, List.length_cons, readLoop, hgo, hfield]
  rfl

theorem read_field {b : β} {text rest : List β} {s s' : σ} (hgo : f.stops b = false)
    (hfield : f.field (b :: text) s = .ok (s', rest)) :
    read f (b :: text) s = read f rest s' := by
  have hlength := f.consumes hfield
  rw [read, List.length_cons, readLoop, hgo, hfield]
  exact readLoop_eq f (Nat.le_of_lt_succ hlength) s'

theorem read_cons {b : β} {text : List β} {s : σ} (hgo : f.stops b = false) :
    read f (b :: text) s = f.field (b :: text) s >>= fun result => read f result.2 result.1 := by
  cases hfield : f.field (b :: text) s with
  | error fault => exact read_error f hgo hfield
  | ok result => exact read_field f hgo hfield

theorem read_length {text rest : List β} {s s' : σ} (h : read f text s = .ok (s', rest)) :
    rest.length ≤ text.length := by
  induction hn : text.length using Nat.strongRecOn generalizing text s with
  | ind n ih =>
      subst hn
      cases text with
      | nil =>
          cases h
          exact Nat.le_refl _
      | cons b text =>
          cases hstop : f.stops b with
          | true =>
              rw [read_stop f hstop] at h
              cases h
              exact Nat.le_refl _
          | false =>
              cases hfield : f.field (b :: text) s with
              | error fault =>
                  rw [read_error f hstop hfield] at h
                  contradiction
              | ok result =>
                  have hconsumes := f.consumes hfield
                  rw [read_field f hstop hfield] at h
                  exact Nat.le_trans (ih _ hconsumes h rfl) (Nat.le_of_lt hconsumes)

/-- What every field keeps holds of the state and the text behind the last one. -/
theorem read_keeps {p : σ → List β → Prop}
    (hstep : ∀ {text rest : List β} {s s' : σ}, p s text → f.field text s = .ok (s', rest) →
      p s' rest)
    {text rest : List β} {s s' : σ} (hstart : p s text) (h : read f text s = .ok (s', rest)) :
    p s' rest := by
  induction hn : text.length using Nat.strongRecOn generalizing text s with
  | ind n ih =>
      subst hn
      cases text with
      | nil =>
          cases h
          exact hstart
      | cons b text =>
          cases hstop : f.stops b with
          | true =>
              rw [read_stop f hstop] at h
              cases h
              exact hstart
          | false =>
              cases hfield : f.field (b :: text) s with
              | error fault =>
                  rw [read_error f hstop hfield] at h
                  contradiction
              | ok result =>
                  rw [read_field f hstop hfield] at h
                  exact ih _ (f.consumes hfield) (hstep hstart hfield) h rfl

/-- From a text that is not empty the byte that stops the stream or a field is behind. -/
theorem read_length_drop {text rest : List β} {s s' : σ} (htext : text ≠ [])
    (h : read f text s = .ok (s', rest)) : (rest.drop 1).length < text.length := by
  cases text with
  | nil => contradiction
  | cons b text =>
      cases hstop : f.stops b with
      | true =>
          rw [read_stop f hstop] at h
          cases h
          exact Nat.lt_succ_self _
      | false =>
          cases hfield : f.field (b :: text) s with
          | error fault =>
              rw [read_error f hstop hfield] at h
              contradiction
          | ok result =>
              have hconsumes := f.consumes hfield
              rw [read_field f hstop hfield] at h
              rw [List.length_drop]
              have hrest := read_length f h
              omega

/-! ## Texts that are read as a whole -/

/-- Whatever follows, the text is read off and leaves the state `s'`. -/
def Reads (s : σ) (text : List β) (s' : σ) : Prop :=
  ∀ rest, read f (text ++ rest) s = read f rest s'

variable {f}

theorem Reads.nil (s : σ) : Reads f s [] s := fun _ => rfl

theorem Reads.append {s s' s'' : σ} {text text' : List β} (h : Reads f s text s')
    (h' : Reads f s' text' s'') : Reads f s (text ++ text') s'' := fun rest => by
  rw [List.append_assoc, h, h']

theorem Reads.field {b : β} {text : List β} {s s' : σ} (hgo : f.stops b = false)
    (hfield : ∀ rest, f.field (b :: (text ++ rest)) s = .ok (s', rest)) :
    Reads f s (b :: text) s' := fun rest => read_field f hgo (hfield rest)

/-- A list of texts, each read off on its own. -/
theorem Reads.flatMap {γ τ : Type} {text : γ → List β} {embed : τ → σ} {next : τ → γ → τ}
    {items : List γ} (h : ∀ t, ∀ item ∈ items, Reads f (embed t) (text item) (embed (next t item)))
    (t : τ) : Reads f (embed t) (items.flatMap text) (embed (items.foldl next t)) := by
  induction items generalizing t with
  | nil => exact Reads.nil _
  | cons item items ih =>
      rw [List.flatMap_cons, List.foldl_cons]
      exact (h t item List.mem_cons_self).append
        (ih (fun t item hitem => h t item (List.mem_cons_of_mem _ hitem)) _)

theorem Reads.read_eq {s s' : σ} {text : List β} (h : Reads f s text s') :
    read f text s = .ok (s', []) := by
  have htext := h []
  rwa [List.append_nil] at htext

/-! ## Cut texts -/

/-- A text behind a prefix: the cut lies before, or at or behind its first byte. -/
theorem prefix_append {p text rest : List β} (h : p <+: text ++ rest) :
    (p <+: text ∧ p ≠ text) ∨ ∃ q, q <+: rest ∧ p = text ++ q := by
  rcases List.prefix_or_prefix_of_prefix h (List.prefix_append text rest) with hp | ⟨q, rfl⟩
  · by_cases heq : p = text
    · exact Or.inr ⟨[], List.nil_prefix, by rw [heq, List.append_nil]⟩
    · exact Or.inl ⟨hp, heq⟩
  · exact Or.inr ⟨q, (List.prefix_append_right_inj text).mp h, rfl⟩

/-- A cut through a list of texts falls between two of them or inside one. -/
theorem prefix_flatMap {γ : Type} {text : γ → List β} {items : List γ} {p : List β}
    (h : p <+: items.flatMap text) :
    (∃ before after, items = before ++ after ∧ p = before.flatMap text) ∨
      ∃ before item after q, items = before ++ item :: after ∧ q <+: text item ∧ q ≠ [] ∧
        q ≠ text item ∧ p = before.flatMap text ++ q := by
  induction items generalizing p with
  | nil => exact Or.inl ⟨[], [], rfl, List.prefix_nil.mp h⟩
  | cons item items ih =>
      rw [List.flatMap_cons] at h
      rcases prefix_append h with ⟨hp, hne⟩ | ⟨q, hq, rfl⟩
      · by_cases hnil : p = []
        · exact Or.inl ⟨[], item :: items, rfl, hnil⟩
        · exact Or.inr ⟨[], item, items, p, rfl, hp, hnil, hne, rfl⟩
      · rcases ih hq with
          ⟨before, after, rfl, rfl⟩ | ⟨before, item', after, q', rfl, hq', hnil, hne, rfl⟩
        · exact Or.inl ⟨item :: before, after, rfl, rfl⟩
        · refine Or.inr ⟨item :: before, item', after, q', rfl, hq', hnil, hne, ?_⟩
          rw [List.flatMap_cons, List.append_assoc]

end LlmTop.Lib.Fields
