import LlmTop.BinaryPositions

/-!
# What the decoders read, and how far they get

On any buffer and from any starting position they read inside the buffer, end,
and stand behind where they started or at its end.
-/
namespace LlmTop.BinaryEncoder

open Lib.Traced

namespace Buffer

variable {buffer : Buffer}

theorem decodeHeader_le {data result : Bytes} {pos : Nat}
    (h : BinaryEncoder.decodeHeader data = .ok (result, pos)) : pos ≤ data.length := by
  unfold BinaryEncoder.decodeHeader at h
  split at h
  · contradiction
  · split at h
    · contradiction
    · cases h
      exact Nat.sub_le _ _

theorem decodeStatement_advances {data : Bytes} {start pos : Nat} {stmt : Statement}
    (h : BinaryEncoder.decodeStatement data start = .ok (stmt, pos)) :
    pos ≤ max start data.length ∧ (start < data.length → start < pos) := by
  unfold BinaryEncoder.decodeStatement at h
  split at h
  · contradiction
  · rename_i stmt' rest hread
    cases h
    refine ⟨?_, fun hstart => ?_⟩
    · rw [List.length_drop]
      omega
    · have htext : data.drop start ≠ [] := by
        rw [ne_eq, List.drop_eq_nil_iff]
        omega
      have hless := Lib.Fields.read_length_drop statementFormat htext hread
      omega

/-- A run from a starting position that reads inside the buffer only: single bytes, and
blocks of a decoded length.  It returns or raises, and gets no further than the end. -/
structure InBounds (buffer : Buffer) {α : Type} (start : UInt64) (run : Reader (α × UInt64)) :
    Prop where
  byte : ∀ {pos : UInt64}, .byte pos ∈ run.events → pos.toNat < buffer.data.length
  block : ∀ {pos : UInt64} {len : UInt32}, .block pos len ∈ run.events →
    pos.toNat ≤ buffer.data.length ∧ len.toNat ≤ buffer.data.length - pos.toNat
  ends : run.outcome ≠ .running
  position : ∀ {value : α} {pos : UInt64}, run.outcome = .returned (value, pos) →
    pos.toNat ≤ max start.toNat buffer.data.length

theorem InBounds.of_meets {α : Type} {start : UInt64} {run : Reader (α × UInt64)}
    (h : Meets (Access.Within buffer.data.length)
      (fun left => left.2.toNat ≤ max start.toNat buffer.data.length) run) :
    buffer.InBounds start run where
  byte := fun hevent => h.allowed _ hevent
  block := fun hevent => by
    have hwithin := h.allowed _ hevent
    change _ + _ ≤ _ at hwithin
    omega
  ends := h.ends
  position := h.post

theorem decodeHeader_meets (start : UInt64) :
    Meets (Access.Within buffer.data.length) (fun left => left.2.toNat ≤ buffer.data.length)
      (buffer.decodeHeader start) := by
  apply (decodeHeader_refines start).meets
  rintro ⟨result, pos⟩ ⟨result', pos'⟩ hread ⟨-, hpos⟩
  exact Nat.le_trans (Nat.le_of_eq hpos) (decodeHeader_le hread)

theorem decodeStatement_meets (start : UInt64) :
    Meets (Access.Within buffer.data.length)
      (fun left => left.2.toNat ≤ max start.toNat buffer.data.length ∧
        (start.toNat < buffer.data.length → start.toNat < left.2.toNat))
      (buffer.decodeStatement start) := by
  apply (decodeStatement_refines start).meets
  rintro ⟨stmt, pos⟩ ⟨stmt', pos'⟩ hread ⟨-, hpos⟩
  dsimp only at hpos ⊢
  rw [hpos]
  exact decodeStatement_advances hread

/-- Each round of the loop advances, so the bytes left are enough fuel. -/
theorem statementsLoop_meets {fuel : Nat} {pos : UInt64}
    (hfuel : buffer.data.length - pos.toNat < fuel) (stmts : List Statement) :
    Meets (Access.Within buffer.data.length)
      (fun left => left.2.toNat ≤ max pos.toNat buffer.data.length)
      (buffer.statementsLoop fuel pos stmts) := by
  induction fuel generalizing pos stmts with
  | zero => contradiction
  | succ fuel ih =>
      unfold statementsLoop
      by_cases hinside : pos < buffer.size
      · rw [if_pos hinside]
        rw [UInt64.lt_iff_toNat_lt, size_toNat] at hinside
        apply meets_bind (decodeStatement_meets pos)
        rintro ⟨stmt, pos'⟩ ⟨hle, hadvance⟩
        dsimp only at hle hadvance ⊢
        have hpos := hadvance hinside
        have hleft : buffer.data.length - pos'.toNat < fuel := by omega
        have hrest := ih hleft (stmts ++ [stmt])
        refine ⟨hrest.allowed, hrest.ends, fun hreturned => ?_⟩
        have hend := hrest.post hreturned
        omega
      · rw [if_neg hinside]
        exact meets_pure (Nat.le_max_left _ _)

theorem decoders_in_bounds (buffer : Buffer) (start : UInt64) :
    buffer.InBounds start (buffer.decodeHeader start) ∧
      buffer.InBounds start (buffer.decodeStatement start) ∧
      (start < buffer.size → ∀ stmt pos,
        (buffer.decodeStatement start).outcome = .returned (stmt, pos) → start < pos) ∧
      buffer.InBounds start (buffer.decodeRest start) := by
  have hheader : Meets _ _ (buffer.decodeHeader start) := decodeHeader_meets start
  have hstatement : Meets _ _ (buffer.decodeStatement start) := decodeStatement_meets start
  refine ⟨.of_meets ⟨hheader.allowed, hheader.ends, fun h => ?_⟩,
    .of_meets ⟨hstatement.allowed, hstatement.ends, fun h => (hstatement.post h).1⟩, ?_,
    .of_meets (statementsLoop_meets (by omega) [])⟩
  · exact Nat.le_trans (hheader.post h) (Nat.le_max_right _ _)
  · intro hinside stmt pos hreturned
    rw [UInt64.lt_iff_toNat_lt, size_toNat] at hinside
    exact UInt64.lt_iff_toNat_lt.mpr ((hstatement.post hreturned).2 hinside)

/-- A role whose length reaches over the end. -/
theorem decoders_in_bounds_cut :
    let buffer : Buffer := ⟨[0x10, 0x05, 0x41], by decide⟩
    buffer.InBounds 0 (buffer.decodeHeader 0) ∧ buffer.InBounds 0 (buffer.decodeStatement 0) ∧
      ((0 : UInt64) < buffer.size → ∀ stmt pos,
        (buffer.decodeStatement 0).outcome = .returned (stmt, pos) → 0 < pos) ∧
      buffer.InBounds 0 (buffer.decodeRest 0) :=
  decoders_in_bounds ⟨[0x10, 0x05, 0x41], by decide⟩ 0

end Buffer
end LlmTop.BinaryEncoder
