import LlmTop.FrameView
import Mathlib.Data.List.Forall2

/-!
# Line endings

A frame and its form with `\r\n` at the end of every line are one frame.
-/
namespace LlmTop
open Lib.Faults

def carriageReturn : UInt8 := '\r'.toUInt8

/-- Every line feed as a carriage return and a line feed. -/
def crlf (payload : Bytes) : Bytes :=
  payload.flatMap fun c => if c = '\n'.toUInt8 then [carriageReturn, c] else [c]

/-- A line with or without a carriage return more at its end. -/
def SameLine (line line' : Bytes) : Prop := line' = line ∨ line' = line ++ [carriageReturn]

theorem SameLine.cons {line line' : Bytes} (h : SameLine line line') (c : UInt8) :
    SameLine (c :: line) (c :: line') := by
  rcases h with rfl | rfl
  · exact Or.inl rfl
  · exact Or.inr rfl

theorem SameLine.trimLine_eq {line line' : Bytes} (h : SameLine line line') :
    trimLine line' = trimLine line := by
  rcases h with rfl | rfl
  · rfl
  · apply Lib.Search.trimBoth_concat
    decide

theorem crlf_newline (rest : Bytes) :
    crlf ('\n'.toUInt8 :: rest) = carriageReturn :: '\n'.toUInt8 :: crlf rest := rfl

theorem crlf_other {c : UInt8} (hc : c ≠ '\n'.toUInt8) (rest : Bytes) :
    crlf (c :: rest) = c :: crlf rest := by
  rw [crlf, List.flatMap_cons, if_neg hc]
  rfl

theorem lines_newline (rest : Bytes) : lines ('\n'.toUInt8 :: rest) = [] :: lines rest :=
  Lib.Split.splitTerminated_delim rest (by decide)

theorem lines_other {c : UInt8} (hc : c ≠ '\n'.toUInt8) (rest : Bytes) :
    lines (c :: rest) =
      match lines rest with
      | [] => [[c]]
      | line :: later => (c :: line) :: later := by
  unfold lines
  rw [Lib.Split.splitTerminated, if_neg (by simpa using hc)]
  cases Lib.Split.splitTerminated (· == '\n'.toUInt8) rest <;> rfl

/-- The two forms have the same lines, up to the carriage returns. -/
theorem lines_crlf (payload : Bytes) :
    List.Forall₂ SameLine (lines payload) (lines (crlf payload)) := by
  induction payload with
  | nil => exact List.Forall₂.nil
  | cons c rest ih =>
      by_cases hc : c = '\n'.toUInt8
      · rw [hc, crlf_newline, lines_newline, lines_other (by decide), lines_newline]
        exact List.Forall₂.cons (Or.inr rfl) ih
      · rw [crlf_other hc, lines_other hc, lines_other hc]
        revert ih
        cases lines rest with
        | nil =>
            intro ih
            rw [List.forall₂_nil_left_iff.mp ih]
            exact List.Forall₂.cons (Or.inl rfl) List.Forall₂.nil
        | cons line later =>
            intro ih
            obtain ⟨line', later', hline, hlater, hlines⟩ := List.forall₂_cons_left_iff.mp ih
            rw [hlines]
            exact List.Forall₂.cons (hline.cons c) hlater

theorem contentLines_same {body body' : List Bytes} (h : List.Forall₂ SameLine body body') :
    contentLines body' = contentLines body := by
  induction h with
  | nil => rfl
  | cons hline _ ih => rw [contentLines_cons, contentLines_cons, hline.trimLine_eq, ih]

theorem frameView_crlf (payload : Bytes) : frameView (crlf payload) = frameView payload := by
  have hlines := lines_crlf payload
  rw [frameView_eq, frameView_eq]
  revert hlines
  cases lines payload with
  | nil =>
      intro hlines
      rw [List.forall₂_nil_left_iff.mp hlines]
  | cons line rest =>
      intro hlines
      obtain ⟨line', rest', hline, hrest, hcrlf⟩ := List.forall₂_cons_left_iff.mp hlines
      rw [hcrlf]
      dsimp only
      rw [hline.trimLine_eq, contentLines_same hrest]

theorem length_le_crlf (payload : Bytes) : payload.length ≤ (crlf payload).length := by
  induction payload with
  | nil => exact Nat.le_refl 0
  | cons c rest ih =>
      by_cases hc : c = '\n'.toUInt8
      · rw [hc, crlf_newline]
        simp only [List.length_cons]
        omega
      · rw [crlf_other hc]
        simp only [List.length_cons]
        omega

/-- Both modes read the two forms alike, also where they refuse: only the raw
frame differs.  The frame may hold carriage returns of its own. -/
theorem parse_crlf (mode : Mode) (maxSize : Nat) (payload : Bytes)
    (hsize : (crlf payload).length ≤ maxSize) :
    parse mode maxSize (crlf payload) =
      (parse mode maxSize payload).map fun ast => { ast with rawFrame := crlf payload } :=
  parse_of_view (frameView_crlf payload) ((length_le_crlf payload).trans hsize) hsize mode

/-- The minimal header ends at the field that keys replay protection. -/
theorem crlf_reqid_plain :
    (parse .strict 1048576 (crlf (ascii "VER:2 CHK:sha256:0 AGT:a REQID:r\n[A] k:v\n"))).toOption.any
      (fun ast => ast.header.reqid == ascii "r") = true := by
  rw [parse_crlf .strict 1048576 _ (by decide +kernel)]
  decide +kernel

end LlmTop
