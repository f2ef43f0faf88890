import Mathlib.Data.List.Infix

/-!
# Walking a tree of names

A place is the list of names on the way to it from the top.  A move goes into a
name, out of the last one, or nowhere; at the top there is nothing to go out of.
A trek keeps count of the moves out that found nothing.
-/
namespace LlmTop.Lib.Walk

inductive Move (α : Type) where
  | stay
  | up
  | down (name : α)

variable {α : Type}

def move (place : List α) : Move α → List α
  | .stay => place
  | .up => place.dropLast
  | .down name => place ++ [name]

def walk (start : List α) (moves : List (Move α)) : List α := moves.foldl move start

/-- The walk is below `root` all the way. -/
def Stays (root : List α) (moves : List (Move α)) : Prop :=
  ∀ front, front <+: moves → root <+: walk root front

theorem prefix_walk {root place : List α} {moves : List (Move α)} (hplace : root <+: place)
    (h : ∀ m ∈ moves, m ≠ .up) : root <+: walk place moves := by
  induction moves generalizing place with
  | nil => exact hplace
  | cons m moves ih =>
      have hrest : ∀ m' ∈ moves, m' ≠ .up := fun m' hm' => h m' (List.mem_cons_of_mem m hm')
      refine @ih (move place m) ?_ hrest
      cases m with
      | stay => exact hplace
      | up => exact absurd rfl (h .up List.mem_cons_self)
      | down name => exact hplace.trans (List.prefix_append place [name])

/-- Without a move up no walk leaves the place that it starts from. -/
theorem stays_of_no_up {moves : List (Move α)} (h : ∀ m ∈ moves, m ≠ .up) (root : List α) :
    Stays root moves :=
  fun _ hfront => prefix_walk (List.prefix_refl root) fun m hm => h m (hfront.subset hm)

/-! ## Counting the climbs -/

structure Trek (α : Type) where
  place : List α
  climbs : Nat
deriving DecidableEq, Repr

namespace Trek

def move (t : Trek α) : Move α → Trek α
  | .stay => t
  | .up =>
      if t.place.isEmpty then { t with climbs := t.climbs + 1 }
      else { t with place := t.place.dropLast }
  | .down name => { t with place := t.place ++ [name] }

def walk (start : Trek α) (moves : List (Move α)) : Trek α := moves.foldl move start

@[simp] theorem walk_nil (start : Trek α) : start.walk [] = start := rfl

@[simp] theorem walk_cons (start : Trek α) (m : Move α) (moves : List (Move α)) :
    start.walk (m :: moves) = (start.move m).walk moves := rfl

theorem walk_append (start : Trek α) (front back : List (Move α)) :
    start.walk (front ++ back) = (start.walk front).walk back := List.foldl_append

@[simp] theorem move_stay (t : Trek α) : t.move .stay = t := rfl

/-- A name that was entered is left again without a climb. -/
@[simp] theorem move_down_up (t : Trek α) (name : α) : (t.move (.down name)).move .up = t := by
  have hne : (t.place ++ [name]).isEmpty = false := by simp
  simp only [move, hne, Bool.false_eq_true, if_false, List.dropLast_concat]

end Trek

end LlmTop.Lib.Walk
