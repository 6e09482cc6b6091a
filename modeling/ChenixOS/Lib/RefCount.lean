import Mathlib.Logic.Function.Basic
import Mathlib.Algebra.Group.Nat.Defs

/-!
# Reference counts

Objects that are made with one reference, take further ones, and are freed when the last one is given
back. `Inv` says that the counters are the numbers of users, however these are counted, and that an
object was freed exactly if it has no user left.
-/

namespace ChenixOS

/-- The counters of the objects made so far, and the objects that were freed, in order. -/
structure RefCounts where
  count : Nat → Nat
  next : Nat
  freed : List Nat

namespace RefCounts

/-- A new object, with one reference; it is `r.next`. -/
def new (r : RefCounts) : RefCounts :=
  { r with count := Function.update r.count r.next 1, next := r.next + 1 }

def addRef (r : RefCounts) (i : Nat) : RefCounts :=
  { r with count := Function.update r.count i (r.count i + 1) }

/-- A counter goes down; below zero the word wraps. -/
def dec (n : Nat) : Nat := if n = 0 then 2 ^ 64 - 1 else n - 1

/-- Give a reference back, and free the object if the counter is now zero. -/
def release (r : RefCounts) (i : Nat) : RefCounts :=
  let r := { r with count := Function.update r.count i (dec (r.count i)) }
  if r.count i = 0 then { r with freed := r.freed ++ [i] } else r

/-- The counters are the numbers of users, and an object was freed, once, exactly if it has none. -/
structure Inv (r : RefCounts) (uses : Nat → Nat) : Prop where
  count : ∀ i, i < r.next → r.count i = uses i
  bound : ∀ i, r.next ≤ i → uses i = 0
  freed : ∀ i, i ∈ r.freed ↔ i < r.next ∧ uses i = 0
  nodup : r.freed.Nodup

variable {r : RefCounts} {uses uses' : Nat → Nat} {i : Nat}

theorem Inv.lt_next (h : Inv r uses) (hi : 0 < uses i) : i < r.next := by
  by_contra hge
  have := h.bound i (Nat.le_of_not_lt hge)
  omega

theorem Inv.not_freed (h : Inv r uses) (hi : 0 < uses i) : i ∉ r.freed := by
  intro hmem
  have := ((h.freed i).1 hmem).2
  omega

theorem Inv.congr (h : Inv r uses) (heq : ∀ i, uses' i = uses i) : Inv r uses' := by
  obtain rfl : uses' = uses := funext heq
  exact h

theorem Inv.new (h : Inv r uses) (hself : uses' r.next = 1) (hrest : ∀ i ≠ r.next, uses' i = uses i) :
    Inv r.new uses' := by
  refine ⟨fun i hi => ?_, fun i hi => ?_, fun i => ?_, h.nodup⟩
  · by_cases hin : i = r.next
    · simp [RefCounts.new, hin, hself]
    · have hlt : i < r.next := by
        simp only [RefCounts.new] at hi
        omega
      simp [RefCounts.new, hin, hrest i hin, h.count i hlt]
  · have hi' : r.next + 1 ≤ i := hi
    rw [hrest i (by omega), h.bound i (by omega)]
  · simp only [RefCounts.new, h.freed i]
    by_cases hin : i = r.next
    · simp [hin, hself]
    · rw [hrest i hin]
      omega

theorem Inv.addRef (h : Inv r uses) (hi : 0 < uses i) (hself : uses' i = uses i + 1)
    (hrest : ∀ j ≠ i, uses' j = uses j) : Inv (r.addRef i) uses' := by
  have hlt := h.lt_next hi
  refine ⟨fun j hj => ?_, fun j hj => ?_, fun j => ?_, h.nodup⟩
  · by_cases hji : j = i
    · simp [RefCounts.addRef, hji, hself, h.count i hlt]
    · simp [RefCounts.addRef, hji, hrest j hji, h.count j hj]
  · have hj' : r.next ≤ j := hj
    rw [hrest j (by omega), h.bound j hj]
  · simp only [RefCounts.addRef, h.freed j]
    by_cases hji : j = i
    · subst hji
      omega
    · rw [hrest j hji]

/-- **Giving back a reference**: the object is freed by its last user. -/
theorem Inv.release (h : Inv r uses) (hself : uses i = uses' i + 1)
    (hrest : ∀ j ≠ i, uses' j = uses j) : Inv (r.release i) uses' := by
  have hlt : i < r.next := h.lt_next (by omega)
  have hdec : dec (r.count i) = uses' i := by
    rw [h.count i hlt, hself]
    simp [dec]
  have hcount : ∀ j, j < r.next → Function.update r.count i (uses' i) j = uses' j := by
    intro j hj
    by_cases hji : j = i
    · simp [hji]
    · simp [hji, hrest j hji, h.count j hj]
  have hbound : ∀ j, r.next ≤ j → uses' j = 0 := by
    intro j hj
    rw [hrest j (by omega), h.bound j hj]
  have hnot : i ∉ r.freed := h.not_freed (by omega)
  unfold RefCounts.release
  simp only [Function.update_self, hdec]
  split
  · rename_i hzero
    refine ⟨hcount, hbound, fun j => ?_, ?_⟩
    · simp only [List.mem_append, List.mem_singleton, h.freed j]
      by_cases hji : j = i
      · simp [hji, hlt, hzero]
      · simp [hji, hrest j hji]
    · apply List.nodup_append.2 ⟨h.nodup, by simp, ?_⟩
      intro j hj k hk hjk
      obtain rfl := List.mem_singleton.1 hk
      exact hnot (hjk ▸ hj)
  · rename_i hpos
    refine ⟨hcount, hbound, fun j => ?_, h.nodup⟩
    simp only [h.freed j]
    by_cases hji : j = i
    · subst hji
      omega
    · rw [hrest j hji]

/-- A user exchanges an object that has others for a new one. -/
theorem Inv.exchange (h : Inv r uses) (hdec : dec (r.count i) ≠ 0) (hold : uses i = uses' i + 1)
    (hnew : uses' r.next = 1) (hrest : ∀ j, j ≠ i → j ≠ r.next → uses' j = uses j) :
    Inv ({ r with count := Function.update r.count i (dec (r.count i)) } : RefCounts).new uses' := by
  have hne : i ≠ r.next := Nat.ne_of_lt (h.lt_next (by omega))
  have hrelease : Inv (r.release i) (Function.update uses' r.next 0) := by
    apply h.release
    · rw [Function.update_of_ne hne]
      exact hold
    · intro j hj
      by_cases hjn : j = r.next
      · rw [hjn, Function.update_self, h.bound _ (Nat.le_refl _)]
      · rw [Function.update_of_ne hjn]
        exact hrest j hj hjn
  have hkept : r.release i = { r with count := Function.update r.count i (dec (r.count i)) } := by
    simp [RefCounts.release, hdec]
  rw [hkept] at hrelease
  apply hrelease.new hnew
  intro j hj
  exact (Function.update_of_ne hj ..).symm

end RefCounts

end ChenixOS
