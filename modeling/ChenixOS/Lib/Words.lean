import Mathlib.Algebra.Group.Nat.Defs

/-!
# Little-endian words

A memory gives the byte at each address. `word b n a` is the number whose `n` bytes, the least significant first,
are in `b` from `a` on; `byte v i` is byte `i` of the number `v`.

Main results: `word_of_bytes` and `byte_word`, that these are inverse to each other.
-/

namespace ChenixOS.Words

variable {b b' : Nat → UInt8} {a n v w i : Nat}

def word (b : Nat → UInt8) : (n a : Nat) → Nat
  | 0, _ => 0
  | n + 1, a => (b a).toNat + 256 * word b n (a + 1)

def byte (v i : Nat) : UInt8 := UInt8.ofNat (v / 256 ^ i)

theorem word_succ : word b (n + 1) a = (b a).toNat + 256 * word b n (a + 1) := rfl

theorem toNat_byte : (byte v i).toNat = v / 256 ^ i % 256 := UInt8.toNat_ofNat'

@[simp] theorem byte_zero : byte 0 i = 0 := by
  rw [byte, Nat.zero_div]
  rfl

theorem byte_succ : byte v (i + 1) = byte (v / 256) i := by
  rw [byte, byte, Nat.pow_succ', Nat.div_div_eq_div_mul]

/-- A word depends on its own bytes. -/
theorem word_congr (h : ∀ i < n, b' (a + i) = b (a + i)) : word b' n a = word b n a := by
  induction n generalizing a with
  | zero => rfl
  | succ n ih =>
    have hfirst : b' a = b a := h 0 (Nat.succ_pos n)
    rw [word_succ, word_succ, hfirst, ih fun i hi => ?_]
    rw [Nat.add_assoc, Nat.add_comm 1]
    exact h (i + 1) (Nat.succ_lt_succ hi)

/-- A word in a part of the memory. -/
theorem word_comp_add (p : Nat) : word (fun x => b (p + x)) n a = word b n (p + a) := by
  induction n generalizing a with
  | zero => rfl
  | succ n ih => rw [word_succ, word_succ, ih, Nat.add_assoc]

theorem word_lt : word b n a < 256 ^ n := by
  induction n generalizing a with
  | zero => exact Nat.one_pos
  | succ n ih =>
    have hrest := @ih (a + 1)
    have hfirst : (b a).toNat < 256 := UInt8.toNat_lt _
    rw [word_succ, Nat.pow_succ']
    omega

/-- **The word that the bytes of a number make.** -/
theorem word_of_bytes (h : ∀ i < n, b (a + i) = byte v i) : word b n a = v % 256 ^ n := by
  induction n generalizing a v with
  | zero => rw [Nat.pow_zero, Nat.mod_one]; rfl
  | succ n ih =>
    have hfirst : b a = byte v 0 := h 0 (Nat.succ_pos n)
    have hrest : word b n (a + 1) = v / 256 % 256 ^ n := ih fun i hi => by
      rw [Nat.add_assoc, Nat.add_comm 1, h (i + 1) (Nat.succ_lt_succ hi), byte_succ]
    rw [word_succ, hrest, hfirst, toNat_byte, Nat.pow_zero, Nat.div_one, Nat.pow_succ', Nat.mod_mul]

/-- **The bytes of a word.** -/
theorem byte_word (hi : i < n) : byte (word b n a) i = b (a + i) := by
  induction n generalizing a i with
  | zero => omega
  | succ n ih =>
    have hfirst : (b a).toNat < 256 := UInt8.toNat_lt _
    cases i with
    | zero =>
      refine UInt8.toNat_inj.1 ?_
      rw [toNat_byte, word_succ, Nat.pow_zero, Nat.div_one, Nat.add_mul_mod_self_left, Nat.mod_eq_of_lt hfirst]
      rfl
    | succ i =>
      have hdiv : word b (n + 1) a / 256 = word b n (a + 1) := by
        rw [word_succ]
        omega
      rw [byte_succ, hdiv, ih (Nat.lt_of_succ_lt_succ hi), Nat.add_assoc, Nat.add_comm 1]

/-! ## One byte of a word -/

/-- `v` with `b` as byte `i`. -/
def setByte (v i : Nat) (b : UInt8) : Nat := (v / 256 ^ i / 256 * 256 + b.toNat) * 256 ^ i + v % 256 ^ i

theorem setByte_div (b : UInt8) : setByte v i b / 256 ^ i = v / 256 ^ i / 256 * 256 + b.toNat := by
  have hpos : 0 < 256 ^ i := Nat.pow_pos (by decide)
  rw [setByte, Nat.mul_comm, Nat.mul_add_div hpos, Nat.div_eq_of_lt (Nat.mod_lt _ hpos), Nat.add_zero]

theorem byte_setByte_self (b : UInt8) : byte (setByte v i b) i = b := by
  have hb : b.toNat < 256 := UInt8.toNat_lt _
  refine UInt8.toNat_inj.1 ?_
  rw [toNat_byte, setByte_div]
  omega

/-- Below byte `i`, only what is below byte `i` counts. -/
theorem byte_add_mul {j : Nat} (h : j < i) : byte (w * 256 ^ i + v) j = byte v j := by
  obtain ⟨k, rfl⟩ := Nat.exists_eq_add_of_lt h
  have hpos : 0 < 256 ^ j := Nat.pow_pos (by decide)
  have hsplit : w * 256 ^ (j + k + 1) = 256 ^ j * (256 * (w * 256 ^ k)) := by
    rw [Nat.add_right_comm, Nat.pow_add, Nat.pow_succ, Nat.mul_left_comm, Nat.mul_assoc]
  refine UInt8.toNat_inj.1 ?_
  rw [toNat_byte, toNat_byte, hsplit, Nat.mul_add_div hpos, Nat.mul_add_mod]

theorem byte_setByte_of_ne {j : Nat} (b : UInt8) (h : j ≠ i) : byte (setByte v i b) j = byte v j := by
  rcases Nat.lt_or_gt_of_ne h with hlt | hgt
  · have hv : byte v j = byte (v / 256 ^ i * 256 ^ i + v % 256 ^ i) j := by
      rw [Nat.mul_comm, Nat.div_add_mod]
    rw [hv, setByte, byte_add_mul hlt, byte_add_mul hlt]
  · obtain ⟨k, rfl⟩ := Nat.exists_eq_add_of_lt hgt
    have hb : b.toNat < 256 := UInt8.toNat_lt _
    have hdiv : (v / 256 ^ i / 256 * 256 + b.toNat) / 256 = v / 256 ^ i / 256 := by omega
    rw [byte, byte, Nat.add_right_comm, Nat.pow_add, Nat.pow_succ, ← Nat.div_div_eq_div_mul, ← Nat.div_div_eq_div_mul, setByte_div, hdiv, ← Nat.div_div_eq_div_mul,
      ← Nat.div_div_eq_div_mul]

/-- A mask that clears the low `k` of `n` bits. -/
theorem and_clear {x k : Nat} (hx : x < 2 ^ n) (hk : k ≤ n) : x &&& (2 ^ n - 2 ^ k) = x / 2 ^ k * 2 ^ k := by
  have hmask : 2 ^ n - 2 ^ k = (2 ^ (n - k) - 1) * 2 ^ k := by
    rw [Nat.sub_mul, ← Nat.pow_add, Nat.sub_add_cancel hk, Nat.one_mul]
  refine Nat.eq_of_testBit_eq fun i => ?_
  rw [Nat.testBit_and, hmask, Nat.testBit_mul_two_pow, Nat.testBit_mul_two_pow, Nat.testBit_two_pow_sub_one,
    Nat.testBit_div_two_pow]
  by_cases hi : k ≤ i
  · rw [Nat.sub_add_cancel hi]
    by_cases hn : i < n
    · have hin : i - k < n - k := by omega
      simp [hi, hin]
    · have hout : x.testBit i = false :=
        Nat.testBit_lt_two_pow (Nat.lt_of_lt_of_le hx (Nat.pow_le_pow_right (by decide) (Nat.le_of_not_lt hn)))
      simp [hout]
  · simp [hi]

/-! ## Words as memory -/

/-- The bytes of a memory that is given by its aligned words. -/
def bytes (f : Nat → Nat) : Nat → UInt8 := fun x => byte (f (x / 8)) (x % 8)

theorem word_bytes {f : Nat → Nat} (h : n ≤ 8) (k : Nat) : word (bytes f) n (8 * k) = f k % 256 ^ n :=
  word_of_bytes fun i hi => by
    have hword : (8 * k + i) / 8 = k := by omega
    have hbyte : (8 * k + i) % 8 = i := by omega
    rw [bytes, hword, hbyte]

end ChenixOS.Words
