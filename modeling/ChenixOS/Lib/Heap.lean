import Mathlib.Algebra.BigOperators.Group.Finset.Basic
import Mathlib.Algebra.BigOperators.Intervals
import Mathlib.Algebra.Order.BigOperators.Group.Finset

/-!
# Heaps of objects

A heap maps addresses to the objects allocated there. It is finite — every address from `next`
on is free — so a weight on objects can be summed over it, which is what reference counting
needs: how many live objects point here?

Which address an allocation returns is the business of the allocator. `Allocator` keeps only
what clients may rely on: the address was free. Addresses may be reused after a `free`.
-/

namespace ChenixOS

/-- The objects of type `α` that are allocated, by address. -/
structure Heap (α : Type) where
  cell : Nat → Option α
  /-- An upper bound for the addresses in use. -/
  next : Nat
  bound : ∀ a, next ≤ a → cell a = none

/-- A policy for placing new objects: from the addresses in use and a bound for them, pick an
address that is free. -/
structure Allocator where
  pick : (Nat → Bool) → Nat → Nat
  fresh : ∀ (used : Nat → Bool) (bound : Nat),
    (∀ a, bound ≤ a → used a = false) → used (pick used bound) = false

/-- The allocator that never reuses an address. -/
def Allocator.bump : Allocator where
  pick _ bound := bound
  fresh _ bound h := h bound le_rfl

namespace Heap

variable {α : Type} {h : Heap α} {a b : Nat} {v : α}

theorem ext_cell {h h' : Heap α} (hc : h.cell = h'.cell) (hn : h.next = h'.next) : h = h' := by
  cases h
  cases h'
  cases hc
  cases hn
  rfl

def empty : Heap α := ⟨fun _ => none, 0, fun _ _ => rfl⟩

/-- Change the object at `a`, if there is one. -/
def modify (h : Heap α) (a : Nat) (f : α → α) : Heap α where
  cell b := if b = a then (h.cell a).map f else h.cell b
  next := h.next
  bound b hb := by
    split_ifs with hba
    · subst hba
      rw [h.bound b hb]
      rfl
    · exact h.bound b hb

/-- Put `v` at address `a`. -/
def store (h : Heap α) (a : Nat) (v : α) : Heap α where
  cell b := if b = a then some v else h.cell b
  next := max h.next (a + 1)
  bound b hb := by
    rw [if_neg (by omega)]
    exact h.bound b (by omega)

/-- Take the object at `a` out of the heap. -/
def free (h : Heap α) (a : Nat) : Heap α where
  cell b := if b = a then none else h.cell b
  next := h.next
  bound b hb := by
    split_ifs
    · rfl
    · exact h.bound b hb

/-- The address a new object gets. -/
def fresh (A : Allocator) (h : Heap α) : Nat := A.pick (fun a => (h.cell a).isSome) h.next

@[simp] theorem cell_empty (a : Nat) : (empty : Heap α).cell a = none := rfl

theorem cell_fresh (A : Allocator) (h : Heap α) : h.cell (h.fresh A) = none := by
  have hfree := A.fresh (fun a => (h.cell a).isSome) h.next fun a ha => by rw [h.bound a ha]; rfl
  simpa [fresh] using hfree

theorem ne_fresh (A : Allocator) (ha : h.cell a = some v) : a ≠ h.fresh A := by
  rintro rfl
  rw [cell_fresh] at ha
  cases ha

/-! ## What each operation does to a cell -/

@[simp] theorem cell_modify_self (h : Heap α) (a : Nat) (f : α → α) :
    (h.modify a f).cell a = (h.cell a).map f := if_pos rfl

@[simp] theorem cell_modify_ne (h : Heap α) (f : α → α) (hb : b ≠ a) :
    (h.modify a f).cell b = h.cell b := if_neg hb

@[simp] theorem cell_store_self (h : Heap α) (a : Nat) (v : α) :
    (h.store a v).cell a = some v := if_pos rfl

@[simp] theorem cell_store_ne (h : Heap α) (v : α) (hb : b ≠ a) :
    (h.store a v).cell b = h.cell b := if_neg hb

@[simp] theorem cell_free_self (h : Heap α) (a : Nat) : (h.free a).cell a = none := if_pos rfl

@[simp] theorem cell_free_ne (h : Heap α) (hb : b ≠ a) : (h.free a).cell b = h.cell b :=
  if_neg hb

theorem cell_free_eq_some : (h.free a).cell b = some v ↔ b ≠ a ∧ h.cell b = some v := by
  by_cases hb : b = a
  · subst hb
    simp
  · simp [hb]

theorem modify_modify (h : Heap α) (a : Nat) (f g : α → α) :
    (h.modify a f).modify a g = h.modify a (g ∘ f) := by
  refine ext_cell (funext fun b => ?_) rfl
  by_cases hb : b = a
  · subst hb
    simp
  · simp [hb]

/-- Changing an object into itself changes nothing. -/
theorem modify_eq_self {f : α → α} (hf : ∀ v, h.cell a = some v → f v = v) :
    h.modify a f = h := by
  refine ext_cell (funext fun b => ?_) rfl
  by_cases hb : b = a
  · subst hb
    cases hv : h.cell b with
    | none => simp [hv]
    | some v => simp [hv, hf v hv]
  · simp [hb]

theorem modify_congr {f g : α → α} (hfg : ∀ v, h.cell a = some v → f v = g v) :
    h.modify a f = h.modify a g := by
  refine ext_cell (funext fun b => ?_) rfl
  by_cases hb : b = a
  · subst hb
    cases hv : h.cell b with
    | none => simp [hv]
    | some v => simp [hv, hfg v hv]
  · simp [hb]

theorem modify_store (h : Heap α) (a : Nat) (v : α) (f : α → α) :
    (h.store a v).modify a f = h.store a (f v) := by
  refine ext_cell (funext fun b => ?_) rfl
  by_cases hb : b = a
  · subst hb
    simp
  · simp [hb]

theorem free_modify (h : Heap α) (a : Nat) (f : α → α) : (h.modify a f).free a = h.free a := by
  refine ext_cell (funext fun b => ?_) rfl
  by_cases hb : b = a
  · subst hb
    simp
  · simp [hb]

/-! ## Sums over a heap -/

/-- The total weight of the objects in the heap. -/
def sum (h : Heap α) (w : α → Nat) : Nat :=
  ∑ a ∈ Finset.range h.next, (h.cell a).elim 0 w

/-- The bound `next` plays no role in a sum: any larger one gives the same. -/
theorem sum_eq_range (h : Heap α) (w : α → Nat) {n : Nat} (hn : h.next ≤ n) :
    h.sum w = ∑ a ∈ Finset.range n, (h.cell a).elim 0 w := by
  refine Finset.sum_subset (Finset.range_mono hn) fun a _ ha => ?_
  rw [h.bound a (by simpa using ha)]
  rfl

theorem sum_congr {w w' : α → Nat} (hw : ∀ a v, h.cell a = some v → w v = w' v) :
    h.sum w = h.sum w' := by
  refine Finset.sum_congr rfl fun a _ => ?_
  cases hv : h.cell a with
  | none => rfl
  | some v => exact hw a v hv

/-- Two heaps that differ at `a` only have sums that differ by the weights there. -/
theorem sum_add_of_eq_off (h h' : Heap α) (a : Nat) (w : α → Nat)
    (hoff : ∀ b, b ≠ a → h'.cell b = h.cell b) :
    h'.sum w + (h.cell a).elim 0 w = h.sum w + (h'.cell a).elim 0 w := by
  set n := max (max h.next h'.next) (a + 1)
  have ha : a ∈ Finset.range n := by simp [n]
  rw [sum_eq_range h w (n := n) (by simp [n]), sum_eq_range h' w (n := n) (by simp [n]),
    ← Finset.add_sum_erase _ _ ha,
    ← Finset.add_sum_erase (Finset.range n) (fun a => (h.cell a).elim 0 w) ha]
  have hrest : ∑ b ∈ (Finset.range n).erase a, (h'.cell b).elim 0 w =
      ∑ b ∈ (Finset.range n).erase a, (h.cell b).elim 0 w :=
    Finset.sum_congr rfl fun b hb => by rw [hoff b (Finset.ne_of_mem_erase hb)]
  omega

theorem sum_modify (w : α → Nat) (f : α → α) (ha : h.cell a = some v) :
    (h.modify a f).sum w + w v = h.sum w + w (f v) := by
  simpa [ha] using sum_add_of_eq_off h (h.modify a f) a w fun b hb => by simp [hb]

theorem sum_modify_of_eq (w : α → Nat) (f : α → α) (hf : ∀ v, h.cell a = some v → w (f v) = w v) :
    (h.modify a f).sum w = h.sum w := by
  cases ha : h.cell a with
  | none => rw [modify_eq_self fun v hv => by rw [ha] at hv; cases hv]
  | some v =>
    have hsum := sum_modify w f ha
    rw [hf v ha] at hsum
    omega

theorem sum_store (w : α → Nat) (v : α) (ha : h.cell a = none) :
    (h.store a v).sum w = h.sum w + w v := by
  simpa [ha] using sum_add_of_eq_off h (h.store a v) a w fun b hb => by simp [hb]

theorem sum_free (w : α → Nat) (ha : h.cell a = some v) :
    (h.free a).sum w + w v = h.sum w := by
  simpa [ha] using sum_add_of_eq_off h (h.free a) a w fun b hb => by simp [hb]

/-- An object contributes its weight. -/
theorem le_sum (w : α → Nat) (ha : h.cell a = some v) : w v ≤ h.sum w := by
  have hfree := sum_free w ha
  omega

theorem sum_eq_zero {w : α → Nat} (hsum : h.sum w = 0) (ha : h.cell a = some v) : w v = 0 := by
  have hle := le_sum w ha
  omega

/-- A positive sum has a positive part. -/
theorem exists_of_sum_pos {w : α → Nat} (hpos : 0 < h.sum w) :
    ∃ a v, h.cell a = some v ∧ 0 < w v := by
  obtain ⟨a, -, ha⟩ := Finset.exists_ne_zero_of_sum_ne_zero (Nat.ne_of_gt hpos)
  cases hv : h.cell a with
  | none =>
    rw [hv] at ha
    exact absurd rfl ha
  | some v =>
    rw [hv] at ha
    exact ⟨a, v, hv, Nat.pos_of_ne_zero ha⟩

@[simp] theorem sum_empty (w : α → Nat) : (empty : Heap α).sum w = 0 := rfl

/-- The number of objects with a property. -/
def count (h : Heap α) (p : α → Bool) : Nat := h.sum fun v => if p v then 1 else 0

end Heap

end ChenixOS
