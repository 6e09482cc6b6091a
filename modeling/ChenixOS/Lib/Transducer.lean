import Mathlib.Data.List.Basic

/-!
# Transducers

A transducer reads one symbol at a time, keeps a state, and writes any number of symbols for each it
reads. What it writes for a text depends on the text only and not on how the text was cut into pieces
(`outputs_append`), so that a device that reads a stream may be described by its transducer.
-/

namespace ChenixOS.Transducer

variable {σ ι ο : Type} (step : σ → ι → σ × List ο)

/-- The state after a text. -/
def final : σ → List ι → σ
  | s, [] => s
  | s, x :: xs => final (step s x).1 xs

/-- What is written for a text. -/
def outputs : σ → List ι → List ο
  | _, [] => []
  | s, x :: xs => (step s x).2 ++ outputs (step s x).1 xs

@[simp] theorem final_nil (s : σ) : final step s [] = s := rfl

@[simp] theorem outputs_nil (s : σ) : outputs step s [] = [] := rfl

theorem final_append (s : σ) (xs ys : List ι) :
    final step s (xs ++ ys) = final step (final step s xs) ys := by
  induction xs generalizing s with
  | nil => rfl
  | cons x xs ih => exact ih (step s x).1

theorem outputs_append (s : σ) (xs ys : List ι) :
    outputs step s (xs ++ ys) = outputs step s xs ++ outputs step (final step s xs) ys := by
  induction xs generalizing s with
  | nil => rfl
  | cons x xs ih =>
    rw [List.cons_append, outputs, ih, outputs, final, List.append_assoc]

theorem final_snoc (s : σ) (xs : List ι) (x : ι) :
    final step s (xs ++ [x]) = (step (final step s xs) x).1 := by
  rw [final_append, final, final_nil]

theorem outputs_snoc (s : σ) (xs : List ι) (x : ι) :
    outputs step s (xs ++ [x]) = outputs step s xs ++ (step (final step s xs) x).2 := by
  rw [outputs_append, outputs, outputs_nil, List.append_nil]

end ChenixOS.Transducer
