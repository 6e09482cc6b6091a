import ChenixOS.Lib.Buffer

/-!
# Writing texts into a buffer

A text is put into a buffer at a place that may be in front of the buffer or reach out of it; then the access fails,
whichever of its characters is written first. Texts that are put next to each other make up one text.
-/

namespace ChenixOS.Buffer

variable {α : Type} {size pos i n : Nat} {b : Nat → α} {s t : List α} {c z : α} {p : Int}

/-- The buffer with the text `s` at `pos`. -/
def put (b : Nat → α) (pos : Nat) (s : List α) : Nat → α :=
  fun i => if pos ≤ i then s[i - pos]?.getD (b i) else b i

theorem put_of_mem (hi : i < s.length) : put b pos s (pos + i) = s[i] := by
  rw [put, if_pos (Nat.le_add_right _ _), Nat.add_sub_cancel_left, List.getElem?_eq_getElem hi, Option.getD_some]

theorem put_of_lt (hi : i < pos) : put b pos s i = b i := if_neg (Nat.not_le.2 hi)

theorem put_of_ge (hi : pos + s.length ≤ i) : put b pos s i = b i := by
  rw [put, if_pos (by omega), List.getElem?_eq_none (by omega), Option.getD_none]

@[simp] theorem put_nil : put b pos [] = b := by
  funext i
  obtain hlt | hge := Nat.lt_or_ge i pos
  · exact put_of_lt hlt
  · exact put_of_ge hge

theorem put_singleton : put b pos [c] = Function.update b pos c := by
  funext i
  rcases Nat.lt_trichotomy i pos with hlt | rfl | hgt
  · rw [put_of_lt hlt, Function.update_of_ne (Nat.ne_of_lt hlt)]
  · have hmem := @put_of_mem _ i 0 b [c] Nat.one_pos
    rw [Function.update_self]
    exact hmem
  · rw [put_of_ge hgt, Function.update_of_ne (Nat.ne_of_gt hgt)]

/-- A text behind another one. -/
theorem put_append : put (put b pos s) (pos + s.length) t = put b pos (s ++ t) := by
  funext i
  obtain hlt | hge := Nat.lt_or_ge i pos
  · rw [put_of_lt (by omega), put_of_lt hlt, put_of_lt hlt]
  · obtain ⟨k, rfl⟩ := Nat.exists_eq_add_of_le hge
    by_cases hs : k < s.length
    · rw [put_of_lt (by omega), put_of_mem hs, put_of_mem (by rw [List.length_append]; omega),
        List.getElem_append_left hs]
    · obtain ⟨m, rfl⟩ := Nat.exists_eq_add_of_le (Nat.le_of_not_lt hs)
      by_cases ht : m < t.length
      · rw [← Nat.add_assoc, put_of_mem ht, Nat.add_assoc, put_of_mem (by rw [List.length_append]; omega),
          List.getElem_append_right (by omega)]
        simp
      · rw [put_of_ge (by omega), put_of_ge (by omega), put_of_ge (by rw [List.length_append]; omega)]

/-- A text in front of another one. -/
theorem put_put : put (put b (pos + s.length) t) pos s = put b pos (s ++ t) := by
  rw [← put_append]
  funext i
  obtain hlt | hge := Nat.lt_or_ge i pos
  · rw [put_of_lt hlt, put_of_lt (by omega), put_of_lt (by omega), put_of_lt hlt]
  · obtain ⟨k, rfl⟩ := Nat.exists_eq_add_of_le hge
    by_cases hs : k < s.length
    · rw [put_of_mem hs, put_of_lt (by omega), put_of_mem hs]
    · rw [put_of_ge (by omega)]
      obtain ⟨m, rfl⟩ := Nat.exists_eq_add_of_le (Nat.le_of_not_lt hs)
      rw [← Nat.add_assoc]
      by_cases ht : m < t.length
      · rw [put_of_mem ht, put_of_mem ht]
      · rw [put_of_ge (by omega), put_of_ge (by omega), put_of_ge (by omega)]

/-- A text with its terminator. -/
theorem Holds.put (hs : z ∉ s) : Holds z (Function.update (Buffer.put b pos s) (pos + s.length) z) pos s where
  chars i hi := by rw [Function.update_of_ne (by omega), put_of_mem hi]
  ends := Function.update_self _ _ _
  clean := hs

/-! ## Places that need not be in the buffer -/

def writeAt (size : Nat) (b : Nat → α) (p : Int) (c : α) : Option (Nat → α) :=
  if 0 ≤ p then write size b p.toNat c else none

theorem writeAt_of_mem (hp : 0 ≤ p) (hsize : p < size) :
    writeAt size b p c = some (Function.update b p.toNat c) := by
  rw [writeAt, if_pos hp, write_of_lt _ (by omega)]

theorem writeAt_of_not_mem (hp : p < 0 ∨ size ≤ p) : writeAt size b p c = none := by
  unfold writeAt
  split_ifs with hpos
  · exact write_of_ge _ (by omega)
  · rfl

/-- Write the characters of a text, if there are any. -/
def putAt (size : Nat) (p : Int) (s : List α) (b : Nat → α) : Option (Nat → α) :=
  if s = [] then some b
  else if 0 ≤ p ∧ p + s.length ≤ size then some (put b p.toNat s)
  else none

@[simp] theorem putAt_nil : putAt size p [] b = some b := if_pos rfl

theorem putAt_of_mem (hp : 0 ≤ p) (hsize : p + s.length ≤ size) : putAt size p s b = some (put b p.toNat s) := by
  unfold putAt
  split_ifs with hnil hin
  · rw [hnil, put_nil]
  · rfl
  · exact absurd ⟨hp, hsize⟩ hin

theorem putAt_of_not_mem (hs : s ≠ []) (hp : p < 0 ∨ size < p + s.length) : putAt size p s b = none := by
  unfold putAt
  rw [if_neg hs, if_neg]
  omega

theorem writeAt_eq_putAt : writeAt size b p c = putAt size p [c] b := by
  by_cases hin : 0 ≤ p ∧ p < size
  · rw [writeAt_of_mem hin.1 hin.2, putAt_of_mem hin.1 (by rw [List.length_singleton]; omega), put_singleton]
  · rw [writeAt_of_not_mem (by omega), putAt_of_not_mem (List.cons_ne_nil _ _) (by rw [List.length_singleton]; omega)]

/-- Texts that are put next to each other, the first one first. -/
theorem putAt_append : ((putAt size p s b).bind fun b => putAt size (p + s.length) t b) = putAt size p (s ++ t) b := by
  obtain rfl | hs := eq_or_ne s []
  · simp
  obtain rfl | ht := eq_or_ne t []
  · simp
  have hlen : (s ++ t).length = s.length + t.length := List.length_append
  have hpos : 0 < s.length := List.length_pos_iff.2 hs
  by_cases hin : 0 ≤ p ∧ p + s.length ≤ size
  · rw [putAt_of_mem hin.1 hin.2, Option.bind_some]
    by_cases hall : p + (s ++ t).length ≤ size
    · rw [putAt_of_mem (by omega) (by omega), putAt_of_mem hin.1 hall]
      have hnat : (p + s.length).toNat = p.toNat + s.length := by omega
      rw [hnat, put_append]
    · rw [putAt_of_not_mem ht (by omega), putAt_of_not_mem (by simp [hs]) (by omega)]
  · rw [putAt_of_not_mem hs (by omega), putAt_of_not_mem (by simp [hs]) (by omega)]
    rfl

/-- Texts that are put next to each other, the first one last. -/
theorem putAt_putAt : ((putAt size (p + s.length) t b).bind fun b => putAt size p s b) = putAt size p (s ++ t) b := by
  obtain rfl | hs := eq_or_ne s []
  · simp
  obtain rfl | ht := eq_or_ne t []
  · simp
  have hlen : (s ++ t).length = s.length + t.length := List.length_append
  have hpos : 0 < t.length := List.length_pos_iff.2 ht
  by_cases hin : 0 ≤ p + s.length ∧ p + s.length + t.length ≤ size
  · rw [putAt_of_mem hin.1 hin.2, Option.bind_some]
    by_cases hp : 0 ≤ p
    · rw [putAt_of_mem hp (by omega), putAt_of_mem hp (by omega)]
      have hnat : (p + s.length).toNat = p.toNat + s.length := by omega
      rw [hnat, put_put]
    · rw [putAt_of_not_mem hs (by omega), putAt_of_not_mem (by simp [hs]) (by omega)]
  · rw [putAt_of_not_mem ht (by omega), putAt_of_not_mem (by simp [hs]) (by omega)]
    rfl

end ChenixOS.Buffer
