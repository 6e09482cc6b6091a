import Mathlib.Algebra.Order.Group.Nat
import Mathlib.Data.List.Basic

/-!
# Stacks of blocks

A stack that grows to lower addresses is the list of what it holds, from its lowest address on; `top` is the address
behind its last entry. Blocks that have been pushed stay where they are.

* `Holds top content p b`: the entries `b` are at the address `p`.
* `Tiles lo hi regions`: the regions, given by their addresses and sizes, fill the space from `lo` to `hi` in their
  order.
-/

namespace ChenixOS.Stack

variable {α : Type} {top p lo hi mid : Nat} {content b b' c : List α} {rs rs' : List (Nat × Nat)}

/-! ## Blocks -/

def Holds (top : Nat) (content : List α) (p : Nat) (b : List α) : Prop :=
  ∃ pre post, content = pre ++ (b ++ post) ∧ p + (b ++ post).length = top

/-- What is pushed later does not move what is there. -/
theorem Holds.push (h : Holds top content p b) (c : List α) : Holds top (c ++ content) p b := by
  obtain ⟨pre, post, rfl, hp⟩ := h
  exact ⟨c ++ pre, post, (List.append_assoc _ _ _).symm, hp⟩

/-- The block that was pushed last. -/
theorem Holds.last (h : (b ++ content).length ≤ top) : Holds top (b ++ content) (top - (b ++ content).length) b :=
  ⟨[], content, rfl, Nat.sub_add_cancel h⟩

theorem Holds.append (h : Holds top content p (b ++ b')) :
    Holds top content p b ∧ Holds top content (p + b.length) b' := by
  obtain ⟨pre, post, rfl, hp⟩ := h
  refine ⟨⟨pre, b' ++ post, by rw [List.append_assoc], ?_⟩, pre ++ b, post, by simp only [List.append_assoc], ?_⟩
  · rw [← hp, List.append_assoc]
  · rw [← hp, List.append_assoc, List.length_append, List.length_append, List.length_append, Nat.add_assoc]

/-- Where the entries of a block are. -/
theorem Holds.get (h : Holds top content p b) (hfit : content.length ≤ top) {i : Nat} (hi : i < b.length) (d : α) :
    top - content.length ≤ p + i ∧ p + i < top ∧ content.getD (p + i - (top - content.length)) d = b.getD i d := by
  obtain ⟨pre, post, rfl, hp⟩ := h
  simp only [List.length_append] at hp hfit ⊢
  have hindex : p + i - (top - (pre.length + (b.length + post.length))) = pre.length + i := by omega
  refine ⟨by omega, by omega, ?_⟩
  rw [hindex, List.getD_eq_getElem?_getD, List.getElem?_append_right (Nat.le_add_right _ _), Nat.add_sub_cancel_left,
    List.getElem?_append_left hi, List.getD_eq_getElem?_getD]

/-! ## Regions -/

def Tiles : Nat → Nat → List (Nat × Nat) → Prop
  | lo, hi, [] => lo = hi
  | lo, hi, r :: rs => r.1 = lo ∧ Tiles (lo + r.2) hi rs

theorem Tiles.append (h : Tiles lo mid rs) (h' : Tiles mid hi rs') : Tiles lo hi (rs ++ rs') := by
  induction rs generalizing lo with
  | nil =>
    obtain rfl : lo = mid := h
    exact h'
  | cons r rs ih => exact ⟨h.1, ih h.2⟩

theorem Tiles.le (h : Tiles lo hi rs) : ∀ r ∈ rs, lo ≤ r.1 := by
  induction rs generalizing lo with
  | nil => exact fun r hr => by cases hr
  | cons r rs ih =>
    refine List.forall_mem_cons.2 ⟨h.1.ge, fun t ht => ?_⟩
    exact (Nat.le_add_right _ _).trans (ih h.2 t ht)

/-- **Regions that fill a space do not overlap.** -/
theorem Tiles.pairwise (h : Tiles lo hi rs) : rs.Pairwise fun r t => r.1 + r.2 ≤ t.1 := by
  induction rs generalizing lo with
  | nil => exact List.Pairwise.nil
  | cons r rs ih =>
    refine List.pairwise_cons.2 ⟨fun t ht => ?_, ih h.2⟩
    rw [h.1]
    exact h.2.le t ht

end ChenixOS.Stack
