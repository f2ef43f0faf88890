import LlmTop.HeaderFields
import Mathlib.Data.List.Nodup

/-!
# What strict mode asks of a header

`Grammar.md` wants each of six fields once and no field twice.  The parser asks
for four of the six and lets a later token replace an earlier one.
-/
namespace LlmTop
open Lib.Faults

def mandatoryKeys : List Bytes := ["VER", "CHK", "AGT", "UID", "TIM", "REQID"].map ascii

/-- The key/value pairs of the folded header, in order. -/
def headerPairs (payload : Bytes) : List (Bytes × Bytes) :=
  ((frameParts payload).map fun parts => (headerTokens parts.1).filterMap tokenParts).getD []

def withKey (key : Bytes) (pairs : List (Bytes × Bytes)) : List (Bytes × Bytes) :=
  pairs.filter fun pair => pair.1 == key

/-- Each mandatory field once and with a value, no field twice. -/
structure HeaderConforms (pairs : List (Bytes × Bytes)) : Prop where
  mandatory : ∀ key ∈ mandatoryKeys, ∃ val, val ≠ [] ∧ withKey key pairs = [(key, val)]
  single : ∀ key, (withKey key pairs).length ≤ 1

def Carries (key : Bytes) (pairs : List (Bytes × Bytes)) : Prop := ∃ val, val ≠ [] ∧ (key, val) ∈ pairs

/-! ## Pairs with one key -/

variable {pairs : List (Bytes × Bytes)}

theorem length_withKey (key : Bytes) :
    (withKey key pairs).length = (pairs.map Prod.fst).count key := by
  rw [withKey, ← List.countP_eq_length_filter, List.count, List.countP_map]
  rfl

theorem nodup_keys_iff : (pairs.map Prod.fst).Nodup ↔ ∀ key, (withKey key pairs).length ≤ 1 := by
  rw [List.nodup_iff_count]
  simp only [length_withKey]

theorem withKey_eq_singleton {key val : Bytes} (hmem : (key, val) ∈ pairs)
    (hsingle : (withKey key pairs).length ≤ 1) : withKey key pairs = [(key, val)] := by
  have hin : (key, val) ∈ withKey key pairs := by
    apply List.mem_filter.mpr
    exact ⟨hmem, beq_self_eq_true key⟩
  have hlength : (withKey key pairs).length = 1 := by
    have hpos := List.length_pos_of_mem hin
    omega
  obtain ⟨pair, hpair⟩ := List.length_eq_one_iff.mp hlength
  rw [hpair] at hin ⊢
  rw [List.mem_singleton.mp hin]

/-! ## Accepted headers -/

theorem frameParts_of_parse {maxSize : Nat} {payload : Bytes} {ast : AST}
    (h : parse .strict maxSize payload = .ok ast) :
    ∃ parts, frameParts payload = some parts ∧
      ast.header = readHeader (headerTokens parts.1) ∧ ast.header.complete = true := by
  obtain ⟨hclean, hcomplete, rfl⟩ := parse_strict_eq_ok.mp h
  obtain ⟨-, parts, hparts, -, hread⟩ := readFrame_of_clean hclean
  rw [hread] at hcomplete ⊢
  exact ⟨parts, hparts, rfl, hcomplete⟩

/-- The parser's own check finds a value for each of its four fields. -/
theorem carries_of_parse {maxSize : Nat} {payload : Bytes} {ast : AST}
    (h : parse .strict maxSize payload = .ok ast) {key : Bytes}
    (hkey : key ∈ ["VER", "CHK", "AGT", "REQID"].map ascii) : Carries key (headerPairs payload) := by
  obtain ⟨parts, hparts, hheader, hcomplete⟩ := frameParts_of_parse h
  have htext : key ∈ textKeys := by
    have hall : ∀ key ∈ ["VER", "CHK", "AGT", "REQID"].map ascii, key ∈ textKeys := by decide
    exact hall key hkey
  have hne : ast.header.text key ≠ [] := by
    simp only [Header.complete, Bool.not_eq_true', Bool.or_eq_false_iff,
      List.isEmpty_eq_false_iff] at hcomplete
    simp only [List.map_cons, List.map_nil, List.mem_cons, List.not_mem_nil, or_false] at hkey
    rcases hkey with rfl | rfl | rfl | rfl
    · exact hcomplete.1.1.1
    · exact hcomplete.1.1.2
    · exact hcomplete.1.2
    · exact hcomplete.2
  have hempty : ({} : Header).text key = [] := by
    unfold Header.text
    split_ifs <;> rfl
  refine ⟨ast.header.text key, hne, ?_⟩
  rw [hheader] at hne ⊢
  have hmem := mem_of_text htext hempty hne
  rw [headerPairs, hparts]
  apply List.mem_filterMap.mpr
  exact ⟨_, hmem, tokenParts_fieldToken (colon_of_text htext) _⟩

/-- An accepted header conforms exactly when no key is repeated and the two
fields that the parser does not ask for are there. -/
theorem header_conforms_iff {maxSize : Nat} {payload : Bytes} {ast : AST}
    (h : parse .strict maxSize payload = .ok ast) :
    HeaderConforms (headerPairs payload) ↔
      ((headerPairs payload).map Prod.fst).Nodup ∧ Carries (ascii "UID") (headerPairs payload) ∧
        Carries (ascii "TIM") (headerPairs payload) := by
  constructor
  · intro hconforms
    have hcarries : ∀ key ∈ mandatoryKeys, Carries key (headerPairs payload) := by
      intro key hkey
      obtain ⟨val, hne, hval⟩ := hconforms.mandatory key hkey
      have hmem : (key, val) ∈ withKey key (headerPairs payload) := by
        rw [hval]
        exact List.mem_cons_self
      exact ⟨val, hne, (List.mem_filter.mp hmem).1⟩
    exact ⟨nodup_keys_iff.mpr hconforms.single, hcarries _ (by decide), hcarries _ (by decide)⟩
  · rintro ⟨hnodup, huid, htim⟩
    have hsingle := nodup_keys_iff.mp hnodup
    have hcarries : ∀ key ∈ mandatoryKeys, Carries key (headerPairs payload) := by
      intro key hkey
      have hcases : key ∈ ["VER", "CHK", "AGT", "REQID"].map ascii ∨ key = ascii "UID" ∨
          key = ascii "TIM" := by
        have hall : ∀ key ∈ mandatoryKeys, key ∈ ["VER", "CHK", "AGT", "REQID"].map ascii ∨
            key = ascii "UID" ∨ key = ascii "TIM" := by decide
        exact hall key hkey
      rcases hcases with hkey | rfl | rfl
      · exact carries_of_parse h hkey
      · exact huid
      · exact htim
    apply HeaderConforms.mk _ hsingle
    intro key hkey
    obtain ⟨val, hne, hmem⟩ := hcarries key hkey
    exact ⟨val, hne, withKey_eq_singleton hmem (hsingle key)⟩

def conformingFrame : Bytes := ascii "VER:2 CHK:sha256:0 AGT:a UID:u\nTIM:t\nREQID:r\n[A] k:v"

theorem conforming_frame_conforms : HeaderConforms (headerPairs conformingFrame) := by
  have hparse : parse .strict 1048576 conformingFrame =
      .ok (readFrame 1048576 conformingFrame).1 :=
    parse_strict_eq_ok.mpr ⟨by decide +kernel, by decide +kernel, rfl⟩
  apply (header_conforms_iff hparse).mpr
  exact ⟨by decide +kernel, ⟨ascii "u", by decide, by decide +kernel⟩,
    ⟨ascii "t", by decide, by decide +kernel⟩⟩

/-- A continuation line replaces the agent of line 1, and there is no time. -/
def replacedAgentFrame : Bytes :=
  ascii "VER:2 CHK:sha256:0 AGT:lowpriv UID:u REQID:r\nAGT:root\n[A] k:v"

theorem replaced_agent_accepted :
    ∃ ast, parse .strict 1048576 replacedAgentFrame = .ok ast ∧ ast.header.agt = ascii "root" ∧
      ast.header.tim = [] ∧ ¬HeaderConforms (headerPairs replacedAgentFrame) := by
  have hparse : parse .strict 1048576 replacedAgentFrame =
      .ok (readFrame 1048576 replacedAgentFrame).1 :=
    parse_strict_eq_ok.mpr ⟨by decide +kernel, by decide +kernel, rfl⟩
  refine ⟨_, hparse, by decide +kernel, by decide +kernel, ?_⟩
  intro hconforms
  have hagents := hconforms.single (ascii "AGT")
  revert hagents
  decide +kernel

end LlmTop
