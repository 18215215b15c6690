import Mathlib.Data.List.Basic

/-!
Objects with a reference counter. The counter is right when it says how many owners the object
has; then the release that leaves no owner is the one that runs the finalizer, and since a
reference is only taken where there is one already, it is the last.
-/

namespace Rucux.Lib

/-- The counter, and how often the finalizer has run. -/
structure Cell where
  refs : Nat
  ended : Nat
  deriving DecidableEq

inductive Move (ι : Type) where
  | retain (i : ι)
  | release (i : ι)
  deriving DecidableEq

namespace Cell

def retain (c : Cell) : Cell := { c with refs := c.refs + 1 }

def release (c : Cell) : Cell :=
  ⟨c.refs - 1,if c.refs = 1 then c.ended + 1 else c.ended⟩

end Cell

section Moves
variable {ι : Type} [DecidableEq ι]

def Move.apply (cells : ι → Cell) : Move ι → ι → Cell
  | .retain i => Function.update cells i (cells i).retain
  | .release i => Function.update cells i (cells i).release

/-- How the number of owners of `i` goes along with a sequence of moves. It is positive before
each of the moves on `i`. -/
def Tally (i : ι) : Nat → List (Move ι) → Nat → Prop
  | a, [], b => b = a
  | a, .retain j :: ms, b => if j = i then 0 < a ∧ Tally i (a + 1) ms b else Tally i a ms b
  | a, .release j :: ms, b => if j = i then 0 < a ∧ Tally i (a - 1) ms b else Tally i a ms b

variable {i : ι} {a b k : Nat} {ms ms' : List (Move ι)}

theorem tally_retain (h : 0 < a) : Tally i a [.retain i] (a + 1) := by simp [Tally,h]

theorem tally_release (h : 0 < a) : Tally i a [.release i] (a - 1) := by simp [Tally,h]

theorem Tally.append {c : Nat} (h : Tally i a ms b) (h' : Tally i b ms' c) : Tally i a (ms ++ ms') c := by
  induction ms generalizing a with
  | nil =>
    obtain rfl : b = a := h
    exact h'
  | cons m ms ih =>
    cases m with
    | retain j =>
      by_cases hj : j = i
      · simp only [List.cons_append,Tally,if_pos hj] at h ⊢
        exact ⟨h.1,ih h.2⟩
      · simp only [List.cons_append,Tally,if_neg hj] at h ⊢
        exact ih h
    | release j =>
      by_cases hj : j = i
      · simp only [List.cons_append,Tally,if_pos hj] at h ⊢
        exact ⟨h.1,ih h.2⟩
      · simp only [List.cons_append,Tally,if_neg hj] at h ⊢
        exact ih h

end Moves
end Rucux.Lib
