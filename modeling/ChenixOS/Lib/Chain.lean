import Mathlib.Data.Fintype.Pigeonhole
import Mathlib.Data.Set.Finite.Basic
import Mathlib.Order.Nat

/-!
# Chains of a partial function

`f` gives each element its successor, if it has one. The chain from an element ends, or it goes on for
ever. Where the successors come from a finite set, it goes on for ever exactly if some element stands
in it twice.
-/

namespace ChenixOS.Chain

variable {α : Type} (f : α → Option α) {a b : α} {i j k : Nat}

/-- What is reached from `a` in `k` steps. -/
def after : Nat → α → Option α
  | 0, a => some a
  | k + 1, a => (f a).bind (after k)

/-- Some element stands in the chain twice. -/
def Recurs (a : α) : Prop := ∃ i j b, i < j ∧ after f i a = some b ∧ after f j a = some b

variable {f}

@[simp] theorem after_zero : after f 0 a = some a := rfl

theorem after_succ : after f (k + 1) a = (f a).bind (after f k) := rfl

theorem after_add : after f (i + j) a = (after f i a).bind (after f j) := by
  induction i generalizing a with
  | zero => simp
  | succ i ih =>
    rw [Nat.succ_add, after_succ, after_succ]
    cases f a with
    | none => rfl
    | some b => exact ih

/-- A chain has no gaps. -/
theorem after_isSome_of_le (hle : i ≤ j) (h : (after f j a).isSome) : (after f i a).isSome := by
  obtain ⟨k, rfl⟩ := Nat.exists_eq_add_of_le hle
  rw [after_add] at h
  cases hi : after f i a with
  | none =>
    rw [hi] at h
    exact h
  | some b => rfl

/-- The last step of several. -/
theorem after_succ' : after f (k + 1) a = (after f k a).bind f := by
  rw [after_add]
  refine congrArg _ (funext fun b => ?_)
  rw [after_succ]
  cases f b <;> rfl

theorem after_mul (h : after f k b = some b) (n : Nat) : after f (n * k) b = some b := by
  induction n with
  | zero => simp
  | succ n ih =>
    rw [Nat.succ_mul, after_add, ih]
    exact h

/-- A chain in which an element recurs does not end. -/
theorem Recurs.isSome (h : Recurs f a) (k : Nat) : (after f k a).isSome := by
  obtain ⟨i, j, b, hlt, hi, hj⟩ := h
  obtain ⟨d, hd⟩ := Nat.exists_eq_add_of_lt hlt
  have hback : after f (d + 1) b = some b := by
    rw [hd, Nat.add_assoc, after_add, hi] at hj
    exact hj
  refine @after_isSome_of_le _ f a k (i + k * (d + 1)) ?_ ?_
  · exact Nat.le_trans (Nat.le_mul_of_pos_right k (Nat.succ_pos d)) (Nat.le_add_left ..)
  · rw [after_add, hi, Option.bind_some, after_mul hback]
    rfl

/-- **A chain in a finite set ends exactly if nothing recurs in it.** -/
theorem ends_iff {S : Set α} (hfin : S.Finite) (hmem : ∀ a b, f a = some b → b ∈ S) :
    (∃ k, after f k a = none) ↔ ¬Recurs f a := by
  constructor
  · rintro ⟨k, hk⟩ hrec
    have hsome := hrec.isSome k
    rw [hk] at hsome
    cases hsome
  · intro hrec
    by_contra hends
    have hsome : ∀ k, ∃ b ∈ S, after f (k + 1) a = some b := by
      intro k
      obtain ⟨b, hb⟩ := Option.ne_none_iff_exists'.1 fun h => hends ⟨k + 1, h⟩
      refine ⟨b, ?_, hb⟩
      rw [after_succ'] at hb
      obtain ⟨c, -, hc⟩ := Option.bind_eq_some_iff.1 hb
      exact hmem c b hc
    choose g hgS hg using hsome
    have := hfin.to_subtype
    obtain ⟨i, j, hne, heq⟩ := Finite.exists_ne_map_eq_of_infinite fun k => (⟨g k, hgS k⟩ : S)
    have heq' : g i = g j := congrArg Subtype.val heq
    rcases Nat.lt_or_gt_of_ne hne with hlt | hlt
    · exact hrec ⟨i + 1, j + 1, g i, Nat.succ_lt_succ hlt, hg i, heq' ▸ hg j⟩
    · exact hrec ⟨j + 1, i + 1, g i, Nat.succ_lt_succ hlt, heq' ▸ hg j, hg i⟩

end ChenixOS.Chain
