import Mathlib.Data.List.Basic

/-! Machines whose choices all sit in their events. -/

namespace Rucux.Lib

structure Machine (σ ε : Type) where
  initial : σ
  step : σ → ε → σ

namespace Machine
variable {σ ε : Type}

def runFrom (m : Machine σ ε) (s : σ) (es : List ε) : σ := es.foldl m.step s

def run (m : Machine σ ε) (es : List ε) : σ := m.runFrom m.initial es

section
variable (m : Machine σ ε)

@[simp] theorem runFrom_nil (s : σ) : m.runFrom s [] = s := rfl

@[simp] theorem runFrom_cons (s : σ) (e : ε) (es : List ε) :
    m.runFrom s (e :: es) = m.runFrom (m.step s e) es := rfl

theorem runFrom_append (s : σ) (xs ys : List ε) :
    m.runFrom s (xs ++ ys) = m.runFrom (m.runFrom s xs) ys := List.foldl_append

theorem run_append (xs ys : List ε) :
    m.run (xs ++ ys) = m.runFrom (m.run xs) ys := m.runFrom_append m.initial xs ys

theorem run_concat (es : List ε) (e : ε) : m.run (es ++ [e]) = m.step (m.run es) e := by
  rw [run_append]; rfl

end

/-- Every step the run makes meets the condition `ok` on the state before it. -/
def Along (m : Machine σ ε) (ok : σ → ε → Prop) : σ → List ε → Prop
  | _, [] => True
  | s, e :: es => ok s e ∧ m.Along ok (m.step s e) es

instance decidableAlong (m : Machine σ ε) (ok : σ → ε → Prop) [∀ s e, Decidable (ok s e)] (s : σ) :
    (es : List ε) → Decidable (m.Along ok s es)
  | [] => .isTrue trivial
  | e :: es =>
    have := m.decidableAlong ok (m.step s e) es
    inferInstanceAs (Decidable (ok s e ∧ m.Along ok (m.step s e) es))

section
variable (m : Machine σ ε)

theorem along_append (ok : σ → ε → Prop) (s : σ) (xs ys : List ε) :
    m.Along ok s (xs ++ ys) ↔ m.Along ok s xs ∧ m.Along ok (m.runFrom s xs) ys := by
  induction xs generalizing s with
  | nil => simp [Along]
  | cons x xs ih => simp [Along,ih,and_assoc]

theorem along_of_forall {ok : σ → ε → Prop} (h : ∀ s e, ok s e) (s : σ) (es : List ε) : m.Along ok s es := by
  induction es generalizing s with
  | nil => trivial
  | cons e es ih => exact ⟨h s e,ih _⟩

/-- The invariant rule: what every permitted step keeps, every permitted run keeps. -/
theorem runFrom_invariant (ok : σ → ε → Prop) {I : σ → Prop} (hstep : ∀ s e, I s → ok s e → I (m.step s e))
    {s : σ} (hs : I s) (es : List ε) (hok : m.Along ok s es) : I (m.runFrom s es) := by
  induction es generalizing s with
  | nil => exact hs
  | cons e es ih => exact ih (hstep s e hs hok.1) hok.2

theorem run_invariant {I : σ → Prop} (h0 : I m.initial) (hstep : ∀ s e, I s → I (m.step s e)) (es : List ε) :
    I (m.run es) :=
  m.runFrom_invariant (fun _ _ => True) (fun s e h _ => hstep s e h) h0 es
    (m.along_of_forall (fun _ _ => trivial) _ es)

end

end Machine
end Rucux.Lib
