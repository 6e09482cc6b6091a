import Mathlib.Logic.Function.Basic
import Mathlib.Data.Set.Basic

/-!
# Memory seen through a state

Code that keeps its data in memory is written once, over a `View`: how a machine state is read and
written as a memory of words. An access to an address that is not mapped faults.

`Simulates V D R` says that on the addresses of `D` the view behaves as a plain function from
addresses to words: when `R s c` holds, the state `s` shows the contents `c`, and a store in `D`
succeeds and shows as `Function.update`. What is proved about plain contents then holds of every
view that simulates them.
-/

namespace ChenixOS

/-- How a state is read and written as a memory of words. -/
structure View (σ : Type) where
  load : σ → Nat → Option Nat
  store : σ → Nat → Nat → Option σ

namespace View

variable {σ : Type}

/-- A state that is nothing but its words, all of them mapped. -/
def plain : View (Nat → Nat) where
  load m a := some (m a)
  store m a v := some (Function.update m a v)

/-- On `D`, the view behaves as the plain contents that `R` gives for each state. -/
structure Simulates (V : View σ) (D : Set Nat) (R : σ → (Nat → Nat) → Prop) : Prop where
  load : ∀ {s c a}, R s c → a ∈ D → V.load s a = some (c a)
  store : ∀ {s c a} (v : Nat), R s c → a ∈ D →
    ∃ s', V.store s a v = some s' ∧ R s' (Function.update c a v)

theorem plain_simulates : Simulates plain Set.univ (· = ·) where
  load h _ := by rw [h]; rfl
  store v h _ := ⟨_, rfl, by rw [h]⟩

end View

end ChenixOS
