import ChenixOS.Lib.Words
import Mathlib.Logic.Function.Basic

/-!
# Memory of bytes with addresses that wrap around

Addresses are taken modulo `m`. `load` and `store` access the little-endian word of `n` bytes at an address.
-/

namespace ChenixOS.ByteMemory

open Words

variable {m n a p v i : Nat} {mem mem' : Nat → UInt8}

def load (m : Nat) (mem : Nat → UInt8) (n a : Nat) : Nat := word (fun x => mem (x % m)) n a

def store (m : Nat) (mem : Nat → UInt8) : (n : Nat) → (a v : Nat) → Nat → UInt8
  | 0, _, _ => mem
  | n + 1, a, v => Function.update (store m mem n a v) ((a + n) % m) (byte v n)

@[simp] theorem load_one : load m mem 1 a = (mem (a % m)).toNat := by
  rw [load, word_succ]
  rfl

theorem load_congr (h : ∀ i < n, mem' ((a + i) % m) = mem ((a + i) % m)) : load m mem' n a = load m mem n a :=
  word_congr h

/-- A store changes nothing but its bytes. -/
theorem store_of_ne (h : ∀ i < n, p ≠ (a + i) % m) : store m mem n a v p = mem p := by
  induction n with
  | zero => rfl
  | succ n ih =>
    rw [store, Function.update_of_ne (h n (Nat.lt_succ_self n))]
    exact ih fun i hi => h i (Nat.lt_succ_of_lt hi)

/-- **A store puts the bytes of the value in place**, if they are in different places. -/
theorem store_of_mem (hi : i < n) (hn : n ≤ m) : store m mem n a v ((a + i) % m) = byte v i := by
  induction n with
  | zero => omega
  | succ n ih =>
    rcases Nat.lt_succ_iff_lt_or_eq.1 hi with hlt | rfl
    · have hne : (a + i) % m ≠ (a + n) % m := by
        intro heq
        have hdvd := Nat.sub_mod_eq_zero_of_mod_eq heq.symm
        rw [Nat.add_sub_add_left, Nat.mod_eq_of_lt (by omega)] at hdvd
        omega
      rw [store, Function.update_of_ne hne]
      exact ih hlt (by omega)
    · rw [store, Function.update_self]

end ChenixOS.ByteMemory
