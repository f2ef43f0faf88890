import Mathlib.Algebra.GroupWithZero.Nat

/-!
# Cutting a sequence into pieces

`splitTerminated` is the piece sequence of the usual cursor loop: take up to
the next delimiter, step over it, stop at the end of the input.  A trailing
delimiter therefore opens no last empty piece.  `cutBefore` cuts a sequence in
front of every element that starts a group.
-/
namespace LlmTop.Lib.Split

variable {α : Type}

def splitTerminated (delim : α → Bool) : List α → List (List α)
  | [] => []
  | c :: cs =>
      if delim c then [] :: splitTerminated delim cs
      else
        match splitTerminated delim cs with
        | [] => [[c]]
        | piece :: pieces => (c :: piece) :: pieces

@[simp] theorem splitTerminated_nil (delim : α → Bool) : splitTerminated delim [] = [] := rfl

theorem splitTerminated_delim {delim : α → Bool} {c : α} (cs : List α) (h : delim c = true) :
    splitTerminated delim (c :: cs) = [] :: splitTerminated delim cs := by
  simp [splitTerminated, h]

/-- A nonempty delimiter-free word is one piece. -/
theorem splitTerminated_word {delim : α → Bool} {word : List α} (hne : word ≠ [])
    (hword : ∀ c ∈ word, delim c = false) : splitTerminated delim word = [word] := by
  induction word with
  | nil => exact absurd rfl hne
  | cons c cs ih =>
      have hc : delim c = false := hword c (by simp)
      cases cs with
      | nil => simp [splitTerminated, hc]
      | cons d ds =>
          have htail := ih (by simp) (fun e he => hword e (by simp [he]))
          rw [splitTerminated, if_neg (by simp [hc]), htail]

/-- Reading up to the first delimiter and stepping over it. -/
theorem splitTerminated_append {delim : α → Bool} {word : List α} {d : α} (rest : List α)
    (hword : ∀ c ∈ word, delim c = false) (hd : delim d = true) :
    splitTerminated delim (word ++ d :: rest) = word :: splitTerminated delim rest := by
  induction word with
  | nil => exact splitTerminated_delim rest hd
  | cons c cs ih =>
      have hc : delim c = false := hword c (by simp)
      have htail := ih (fun e he => hword e (by simp [he]))
      rw [List.cons_append, splitTerminated, if_neg (by simp [hc]), htail]

theorem splitTerminated_eq_nil {delim : α → Bool} {s : List α} :
    splitTerminated delim s = [] ↔ s = [] := by
  cases s with
  | nil => simp
  | cons c cs =>
      simp only [splitTerminated]
      split
      · simp
      · split <;> simp

theorem splitTerminated_map {β : Type} (delim : β → Bool) (f : α → β) (s : List α) :
    splitTerminated delim (s.map f) =
      (splitTerminated (fun c => delim (f c)) s).map (List.map f) := by
  induction s with
  | nil => rfl
  | cons c cs ih =>
      rw [List.map_cons, splitTerminated, splitTerminated, ih]
      split
      · rfl
      · cases splitTerminated (fun c => delim (f c)) cs <;> rfl

/-- Cutting at a delimiter in the middle; right behind another one, or at the
front, it closes an empty piece. -/
theorem splitTerminated_append_delim {delim : α → Bool} {d : α} (hd : delim d = true)
    (s : List α) :
    ∃ gap, (gap = [] ∨ gap = [[]]) ∧ ∀ rest, splitTerminated delim (s ++ d :: rest) =
      splitTerminated delim s ++ (gap ++ splitTerminated delim rest) := by
  induction s with
  | nil => exact ⟨[[]], Or.inr rfl, fun rest => splitTerminated_delim rest hd⟩
  | cons c cs ih =>
      obtain ⟨gap, hgap, hsplit⟩ := ih
      cases hcs : splitTerminated delim cs with
      | nil =>
          obtain rfl := splitTerminated_eq_nil.mp hcs
          by_cases hc : delim c = true
          · refine ⟨[[]], Or.inr rfl, fun rest => ?_⟩
            rw [List.cons_append, List.nil_append, splitTerminated_delim _ hc,
              splitTerminated_delim _ hc, splitTerminated_delim _ hd]
            rfl
          · refine ⟨[], Or.inl rfl, fun rest => ?_⟩
            rw [List.cons_append, List.nil_append, splitTerminated, if_neg hc,
              splitTerminated_delim _ hd, splitTerminated, if_neg hc]
            rfl
      | cons piece pieces =>
          refine ⟨gap, hgap, fun rest => ?_⟩
          rw [List.cons_append, splitTerminated, splitTerminated, hsplit, hcs]
          split <;> rfl

/-- One more element joins the last piece, or begins one behind a delimiter. -/
theorem splitTerminated_concat {delim : α → Bool} {c : α} (hc : delim c = false) (s : List α) :
    ∃ front last, splitTerminated delim (s ++ [c]) = front ++ [last ++ [c]] ∧
      (splitTerminated delim s = front ++ [last] ∨ splitTerminated delim s = front ∧ last = []) := by
  induction s with
  | nil => exact ⟨[], [], splitTerminated_word (by simp) (by simpa using hc), Or.inr ⟨rfl, rfl⟩⟩
  | cons b s ih =>
      obtain ⟨front, last, hconcat, hs⟩ := ih
      rw [List.cons_append, splitTerminated, splitTerminated, hconcat]
      split
      · refine ⟨[] :: front, last, rfl, ?_⟩
        rcases hs with hs | ⟨hs, hlast⟩
        · exact Or.inl (by rw [hs]; rfl)
        · exact Or.inr ⟨by rw [hs], hlast⟩
      · cases front with
        | nil =>
            refine ⟨[], b :: last, rfl, Or.inl ?_⟩
            rcases hs with hs | ⟨hs, hlast⟩
            · rw [hs]; rfl
            · rw [hs, hlast]; rfl
        | cons piece front =>
            refine ⟨(b :: piece) :: front, last, rfl, ?_⟩
            rcases hs with hs | ⟨hs, hlast⟩
            · exact Or.inl (by rw [hs]; rfl)
            · exact Or.inr ⟨by rw [hs], hlast⟩

/-- A single piece is the input, but for a delimiter at its end. -/
theorem splitTerminated_eq_singleton {delim : α → Bool} {s word : List α}
    (h : splitTerminated delim s = [word]) :
    s = word ∨ ∃ d, delim d = true ∧ s = word ++ [d] := by
  induction s generalizing word with
  | nil => exact absurd h (by simp [splitTerminated])
  | cons c cs ih =>
      rw [splitTerminated] at h
      split at h
      · rename_i hc
        obtain ⟨rfl, hrest⟩ := List.cons.inj h
        obtain rfl := splitTerminated_eq_nil.mp hrest
        exact Or.inr ⟨c, hc, rfl⟩
      · split at h
        · rename_i hrest
          obtain rfl := splitTerminated_eq_nil.mp hrest
          exact Or.inl (List.cons.inj h).1
        · rename_i piece pieces hrest
          obtain ⟨rfl, rfl⟩ := List.cons.inj h
          rcases ih hrest with rfl | ⟨d, hd, rfl⟩
          · exact Or.inl rfl
          · exact Or.inr ⟨d, hd, rfl⟩

/-- No piece contains a delimiter. -/
theorem delim_of_mem_splitTerminated {delim : α → Bool} {s piece : List α}
    (h : piece ∈ splitTerminated delim s) : ∀ c ∈ piece, delim c = false := by
  induction s generalizing piece with
  | nil => simp at h
  | cons c cs ih =>
      simp only [splitTerminated] at h
      split at h
      · rcases List.mem_cons.mp h with rfl | h
        · simp
        · exact ih h
      · rename_i hc
        have hc : delim c = false := by simpa using hc
        split at h
        · rename_i hnil
          obtain rfl := List.mem_singleton.mp h
          simpa using hc
        · rename_i first others hsplit
          rw [hsplit] at ih
          rcases List.mem_cons.mp h with rfl | h
          · intro e he
            rcases List.mem_cons.mp he with rfl | he
            · exact hc
            · exact ih (by simp) e he
          · exact ih (by simp [h])

theorem mem_of_mem_splitTerminated {delim : α → Bool} {s piece : List α}
    (h : piece ∈ splitTerminated delim s) : ∀ c ∈ piece, c ∈ s := by
  induction s generalizing piece with
  | nil => simp at h
  | cons c cs ih =>
      intro e he
      simp only [splitTerminated] at h
      split at h
      · rcases List.mem_cons.mp h with rfl | h
        · simp at he
        · exact List.mem_cons_of_mem c (ih h e he)
      · split at h
        · obtain rfl := List.mem_singleton.mp h
          exact List.mem_cons.mpr (Or.inl (List.mem_singleton.mp he))
        · rename_i first others hsplit
          rw [hsplit] at ih
          rcases List.mem_cons.mp h with rfl | h
          · rcases List.mem_cons.mp he with rfl | he
            · simp
            · exact List.mem_cons_of_mem c (ih (by simp) e he)
          · exact List.mem_cons_of_mem c (ih (by simp [h]) e he)

theorem infix_of_mem_splitTerminated {delim : α → Bool} {s piece : List α}
    (h : piece ∈ splitTerminated delim s) : piece <:+: s := by
  have hparts : ∀ s : List α, (∀ piece ∈ splitTerminated delim s, piece <:+: s) ∧
      ∀ piece ∈ (splitTerminated delim s).head?, piece <+: s := by
    intro s
    induction s with
    | nil => simp
    | cons c cs ih =>
        simp only [splitTerminated]
        split
        · refine ⟨fun piece hpiece => ?_, by simp⟩
          rcases List.mem_cons.mp hpiece with rfl | hpiece
          · simp
          · exact List.infix_cons (ih.1 piece hpiece)
        · split
          · rename_i hnil
            obtain rfl := splitTerminated_eq_nil.mp hnil
            simp
          · rename_i first others hsplit
            have hfirst : c :: first <+: c :: cs :=
              (List.prefix_cons_inj c).mpr (ih.2 first (by simp [hsplit]))
            refine ⟨fun piece hpiece => ?_, by simpa using hfirst⟩
            rcases List.mem_cons.mp hpiece with rfl | hpiece
            · exact hfirst.isInfix
            · exact List.infix_cons (ih.1 piece (by simp [hsplit, hpiece]))
  exact (hparts s).1 piece h

/-- The pieces and one delimiter for each fit into the input. -/
theorem length_splitTerminated (delim : α → Bool) (s : List α) :
    ((splitTerminated delim s).map fun piece => piece.length + 1).sum ≤ s.length + 1 := by
  induction s with
  | nil => exact Nat.zero_le 1
  | cons c cs ih =>
      simp only [splitTerminated]
      split
      · rw [List.map_cons, List.sum_cons, List.length_nil, List.length_cons]
        omega
      · split
        · simp
        · rename_i first others hsplit
          rw [hsplit, List.map_cons, List.sum_cons] at ih
          rw [List.map_cons, List.sum_cons, List.length_cons, List.length_cons]
          omega

/-- There are no more pieces than elements. -/
theorem card_splitTerminated_le (delim : α → Bool) (s : List α) :
    (splitTerminated delim s).length ≤ s.length := by
  induction s with
  | nil => exact Nat.le_refl 0
  | cons c cs ih =>
      simp only [splitTerminated]
      split
      · exact Nat.succ_le_succ ih
      · split
        · exact Nat.succ_le_succ (Nat.zero_le _)
        · rename_i first others hsplit
          rw [hsplit] at ih
          exact Nat.le_succ_of_le ih

/-- Elements before the first group, and the groups, each led by its starter. -/
def cutBefore (starts : α → Bool) : List α → List α × List (List α)
  | [] => ([], [])
  | x :: xs =>
      let (lead, groups) := cutBefore starts xs
      if starts x then ([], (x :: lead) :: groups) else (x :: lead, groups)

theorem cutBefore_lead (starts : α → Bool) (xs : List α) :
    ∀ x ∈ (cutBefore starts xs).1, starts x = false := by
  induction xs with
  | nil => simp [cutBefore]
  | cons x xs ih =>
      simp only [cutBefore]
      split
      · simp
      · rename_i hx
        simpa [hx] using ih

/-- Each group is its starter and elements that start nothing. -/
theorem cutBefore_group (starts : α → Bool) (xs : List α) :
    ∀ group ∈ (cutBefore starts xs).2, ∃ x rest, group = x :: rest ∧ starts x = true ∧
      ∀ y ∈ rest, starts y = false := by
  induction xs with
  | nil => simp [cutBefore]
  | cons x xs ih =>
      simp only [cutBefore]
      split
      · rename_i hx
        rw [List.forall_mem_cons]
        exact ⟨⟨x, _, rfl, hx, cutBefore_lead starts xs⟩, ih⟩
      · exact ih

/-- Cutting drops nothing. -/
theorem cutBefore_flatten (starts : α → Bool) (xs : List α) :
    (cutBefore starts xs).1 ++ (cutBefore starts xs).2.flatten = xs := by
  induction xs with
  | nil => rfl
  | cons x xs ih =>
      simp only [cutBefore]
      split
      · rw [List.flatten_cons, List.nil_append, List.cons_append, ih]
      · rw [List.cons_append, ih]

theorem cutBefore_fst (starts : α → Bool) (xs : List α) :
    (cutBefore starts xs).1 = xs.takeWhile (! starts ·) := by
  induction xs with
  | nil => rfl
  | cons x xs ih =>
      rw [cutBefore, List.takeWhile_cons, ← ih]
      cases starts x <;> rfl

/-- The lead and the groups. -/
def pieces (starts : α → Bool) (xs : List α) : List (List α) :=
  (cutBefore starts xs).1 :: (cutBefore starts xs).2

theorem pieces_cons (starts : α → Bool) (x : α) (xs : List α) :
    pieces starts (x :: xs) =
      if starts x then [] :: (x :: (cutBefore starts xs).1) :: (cutBefore starts xs).2
      else (x :: (cutBefore starts xs).1) :: (cutBefore starts xs).2 := by
  unfold pieces
  rw [cutBefore]
  cases starts x <;> rfl

/-- An element that starts a group ends the pieces in front of it. -/
theorem pieces_start {starts : α → Bool} {x : α} (hx : starts x = true) (before after : List α) :
    pieces starts (before ++ x :: after) = pieces starts before ++
      (x :: (cutBefore starts after).1) :: (cutBefore starts after).2 := by
  induction before with
  | nil =>
      rw [List.nil_append, pieces_cons, if_pos hx]
      rfl
  | cons y before ih =>
      obtain ⟨hlead, hgroups⟩ := List.cons.inj ih
      rw [List.cons_append, pieces_cons, pieces_cons, hlead, hgroups]
      cases starts y <;> rfl

/-- A further element in front: it joins the first piece, and cuts when it starts one. -/
theorem pieces_cons_of_eq {starts : α → Bool} {rest lead : List α} {groups : List (List α)}
    (h : pieces starts rest = lead :: groups) (y : α) :
    pieces starts (y :: rest) = (if starts y then [[]] else []) ++ (y :: lead) :: groups := by
  obtain ⟨hlead, hgroups⟩ := List.cons.inj h
  rw [pieces_cons, hlead, hgroups]
  cases starts y <;> rfl

/-- An element that starts none joins the last piece in front of it, whatever
it is. -/
theorem pieces_inside (starts : α → Bool) (before after : List α) :
    ∃ front last, ∀ x, starts x = false → pieces starts (before ++ x :: after) =
      front ++ (last ++ x :: (cutBefore starts after).1) :: (cutBefore starts after).2 := by
  induction before with
  | nil =>
      refine ⟨[], [], ?_⟩
      intro x hx
      rw [List.nil_append, pieces_cons, if_neg (Bool.eq_false_iff.mp hx)]
      rfl
  | cons y before ih =>
      obtain ⟨front, last, hpieces⟩ := ih
      cases front with
      | nil =>
          refine ⟨if starts y then [[]] else [], y :: last, ?_⟩
          intro x hx
          exact pieces_cons_of_eq (hpieces x hx) y
      | cons piece front =>
          refine ⟨(if starts y then [[]] else []) ++ (y :: piece) :: front, last, ?_⟩
          intro x hx
          rw [List.append_assoc]
          exact pieces_cons_of_eq (hpieces x hx) y

end LlmTop.Lib.Split
