import LlmTop.Lib.Split
import Mathlib.Data.List.TakeWhile
import Mathlib.Tactic.SplitIfs

/-!
# A text as an input stream

`std::istringstream` with its position and its state bits.  A stream is
described by what `getline` has still to deliver; `tellg` and `seekg` return to
an earlier such point, also when the stream had failed by then.
-/
namespace LlmTop.Lib

structure TextStream (α : Type) where
  text : List α
  pos : Nat := 0
  eof : Bool := false
  fail : Bool := false

namespace TextStream

variable {α : Type}

def good (s : TextStream α) : Bool := !s.eof && !s.fail

/-- `std::getline` with the stream as its own test: `none` when it has failed. -/
def getline (delim : α → Bool) (s : TextStream α) : Option (List α) × TextStream α :=
  if s.good then
    let rest := s.text.drop s.pos
    let line := rest.takeWhile (! delim ·)
    if line.length < rest.length then (some line, { s with pos := s.pos + line.length + 1 })
    else if rest.isEmpty then (none, { s with eof := true, fail := true })
    else (some line, { s with pos := s.text.length, eof := true })
  else (none, { s with fail := true })

/-- `none` is the position -1; asking a stream that is not good fails it. -/
def tellg (s : TextStream α) : Option Nat × TextStream α :=
  if s.good then (some s.pos, s) else (none, { s with fail := true })

def clear (s : TextStream α) : TextStream α := { s with eof := false, fail := false }

/-- Clears the end-of-file bit first; a position outside the text fails. -/
def seekg (s : TextStream α) (mark : Option Nat) : TextStream α :=
  match mark with
  | some pos =>
      if !s.fail && decide (pos ≤ s.text.length) then { s with pos := pos, eof := false }
      else { s with eof := false, fail := true }
  | none => { s with eof := false, fail := true }

/-- The lines that `getline` has still to deliver. -/
def pending (delim : α → Bool) (s : TextStream α) : List (List α) :=
  if s.good then Split.splitTerminated delim (s.text.drop s.pos) else []

variable (delim : α → Bool)

theorem pending_of_good {s : TextStream α} (h : s.good = true) :
    s.pending delim = Split.splitTerminated delim (s.text.drop s.pos) := if_pos h

theorem pending_of_not_good {s : TextStream α} (h : s.good = false) : s.pending delim = [] :=
  if_neg (Bool.eq_false_iff.mp h)

theorem splitTerminated_takeWhile (rest : List α) :
    Split.splitTerminated delim rest =
      if (rest.takeWhile (! delim ·)).length < rest.length then
        rest.takeWhile (! delim ·) ::
          Split.splitTerminated delim (rest.drop ((rest.takeWhile (! delim ·)).length + 1))
      else if rest.isEmpty then [] else [rest.takeWhile (! delim ·)] := by
  have hword : ∀ c ∈ rest.takeWhile (! delim ·), delim c = false := by
    intro c hc
    simpa using List.mem_takeWhile_imp hc
  have hsplit := List.takeWhile_append_dropWhile (p := (! delim ·)) (l := rest)
  cases hdrop : rest.dropWhile (! delim ·) with
  | nil =>
      rw [hdrop, List.append_nil] at hsplit
      rw [hsplit, if_neg (Nat.lt_irrefl _)]
      split
      · rename_i hempty
        rw [List.isEmpty_iff.mp hempty]
        rfl
      · rename_i hne
        rw [hsplit] at hword
        apply Split.splitTerminated_word
        · simpa using hne
        · exact hword
  | cons d later =>
      rw [hdrop] at hsplit
      have hd : delim d = true := by
        have hhead := List.head_dropWhile_not (! delim ·) (by rw [hdrop]; exact List.cons_ne_nil d later)
        simpa [hdrop] using hhead
      generalize rest.takeWhile (! delim ·) = line at hword hsplit ⊢
      have hlength : line.length < rest.length := by
        rw [← hsplit, List.length_append, List.length_cons]
        omega
      have hlater : rest.drop (line.length + 1) = later := by
        rw [← hsplit, ← List.drop_drop, List.drop_left]
        rfl
      rw [if_pos hlength, hlater, ← hsplit]
      exact Split.splitTerminated_append later hword hd

/-- One read delivers the next line and leaves the others. -/
theorem getline_pending (s : TextStream α) :
    (s.getline delim).1 = (s.pending delim).head? ∧
      (s.getline delim).2.pending delim = (s.pending delim).tail ∧
      (s.getline delim).2.text = s.text := by
  unfold getline pending
  cases hgood : s.good with
  | false => simp [good]
  | true =>
      have hbits : s.eof = false ∧ s.fail = false := by simpa [good] using hgood
      simp only [if_true]
      rw [splitTerminated_takeWhile delim (s.text.drop s.pos)]
      by_cases hline : ((s.text.drop s.pos).takeWhile (! delim ·)).length < (s.text.drop s.pos).length
      · rw [if_pos hline, if_pos hline]
        simp [good, hbits, List.drop_drop, Nat.add_assoc]
      · rw [if_neg hline, if_neg hline]
        cases (s.text.drop s.pos).isEmpty <;> simp [good]

theorem pending_tellg (s : TextStream α) : s.tellg.2.pending delim = s.pending delim := by
  unfold tellg
  cases hgood : s.good with
  | false =>
      rw [pending_of_not_good delim hgood]
      apply pending_of_not_good
      simp [good]
  | true => rw [if_pos rfl]

theorem text_tellg (s : TextStream α) : s.tellg.2.text = s.text := by
  unfold tellg
  split <;> rfl

/-- Back at a mark the stream delivers what it had to deliver there: a mark
taken at the end of the text is no position, and leads to a failed stream. -/
theorem pending_seekg {s t : TextStream α} (htext : t.text = s.text) (hpos : s.pos ≤ s.text.length) :
    (t.clear.seekg s.tellg.1).pending delim = s.pending delim := by
  unfold tellg
  cases hgood : s.good with
  | false =>
      rw [pending_of_not_good delim hgood]
      apply pending_of_not_good
      simp [seekg, good]
  | true =>
      have hseek : t.clear.seekg (some s.pos) = { t with pos := s.pos, eof := false, fail := false } := by
        simp [seekg, clear, htext, hpos]
      simp only [if_true]
      rw [pending_of_good delim hgood, hseek, pending_of_good delim rfl, htext]

theorem pos_getline {s : TextStream α} (h : s.pos ≤ s.text.length) :
    (s.getline delim).2.pos ≤ s.text.length := by
  unfold getline
  split
  · dsimp only
    split_ifs with hline
    · rw [List.length_drop] at hline
      dsimp only
      omega
    · exact h
    · exact Nat.le_refl _
  · exact h

theorem pos_tellg (s : TextStream α) : s.tellg.2.pos = s.pos := by
  unfold tellg
  split <;> rfl

end TextStream

end LlmTop.Lib
