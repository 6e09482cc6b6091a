import Mathlib.Data.Nat.Digits.Lemmas

/-!
# Numerals

The numeral of a number in a base: its digits, the most significant first, and a single zero for zero. `value` reads
it back (`value_numeral`).
-/

namespace ChenixOS.Numerals

variable {b n k d : Nat} {ds es : List Nat}

def numeral (b n : Nat) : List Nat := if n = 0 then [0] else (Nat.digits b n).reverse

/-- The number of a list of digits. -/
def value (b : Nat) (ds : List Nat) : Nat := ds.foldl (fun v d => v * b + d) 0

theorem numeral_zero : numeral b 0 = [0] := rfl

theorem numeral_of_pos (hn : 0 < n) : numeral b n = (Nat.digits b n).reverse := if_neg (Nat.pos_iff_ne_zero.1 hn)

theorem numeral_of_lt (hn : n < b) : numeral b n = [n] := by
  rcases Nat.eq_zero_or_pos n with rfl | hpos
  · rfl
  · rw [numeral_of_pos hpos, Nat.digits_of_lt b n (Nat.pos_iff_ne_zero.1 hpos) hn]
    rfl

/-- **A numeral is that of the quotient, with the remainder behind it.** -/
theorem numeral_step (hb : 1 < b) (hn : b ≤ n) : numeral b n = numeral b (n / b) ++ [n % b] := by
  have hpos : 0 < n / b := Nat.div_pos hn (by omega)
  rw [numeral_of_pos (by omega : 0 < n), numeral_of_pos hpos, Nat.digits_def' hb (by omega), List.reverse_cons]

theorem numeral_ne_nil : numeral b n ≠ [] := by
  unfold numeral
  split_ifs with h
  · exact List.cons_ne_nil _ _
  · rw [Ne, List.reverse_eq_nil_iff]
    exact Nat.digits_ne_nil_iff_ne_zero.2 h

theorem lt_of_mem_numeral (hb : 1 < b) (hd : d ∈ numeral b n) : d < b := by
  unfold numeral at hd
  split_ifs at hd with h
  · rw [List.mem_singleton.1 hd]
    omega
  · exact Nat.digits_lt_base hb (List.mem_reverse.1 hd)

theorem length_numeral_le (hb : 1 < b) (hk : 0 < k) (hn : n < b ^ k) : (numeral b n).length ≤ k := by
  unfold numeral
  split_ifs with h
  · exact hk
  · rw [List.length_reverse]
    exact (Nat.digits_length_le_iff hb n).2 hn

/-! ## Reading a numeral -/

theorem value_append : value b (ds ++ [d]) = value b ds * b + d := by
  rw [value, List.foldl_append]
  rfl

theorem value_reverse : value b ds.reverse = Nat.ofDigits b ds := by
  induction ds with
  | nil => rfl
  | cons d ds ih =>
    rw [List.reverse_cons, value_append, ih, Nat.ofDigits_cons, Nat.add_comm, Nat.mul_comm]

/-- **The number of its numeral.** -/
theorem value_numeral : value b (numeral b n) = n := by
  unfold numeral
  split_ifs with h
  · simp [h, value]
  · rw [value_reverse, Nat.ofDigits_digits]

end ChenixOS.Numerals
