import Mathlib.Logic.Function.Basic
import Mathlib.Data.List.Nodup

/-!
# Custody

Items that pass between the lists and the hands of their owners. Every item has exactly one place: it
is in one list, once, or in one hand; and the owner of that place is live. The operations move items;
each keeps `Inv` if the owner it moves an item to is live.
-/

namespace ChenixOS

/-- The lists of the owners, and what each has in hand. -/
structure Custody (ω ι : Type) where
  lists : ω → List ι
  hands : ω → Option ι

/-- A place of an owner: the list or the hand. -/
inductive Place (ω : Type)
  | list (u : ω)
  | hand (u : ω)
  deriving DecidableEq

def Place.owner {ω : Type} : Place ω → ω
  | .list u | .hand u => u

namespace Custody

variable {ω ι : Type}

/-- The item is at the place. -/
def At (c : Custody ω ι) (i : ι) : Place ω → Prop
  | .list u => i ∈ c.lists u
  | .hand u => c.hands u = some i

/-- Every item has one place, of a live owner. -/
structure Inv (c : Custody ω ι) (items : List ι) (live : ω → Prop) : Prop where
  nodup : ∀ u, (c.lists u).Nodup
  unique : ∀ i p q, c.At i p → c.At i q → p = q
  live : ∀ i p, c.At i p → live p.owner
  item : ∀ i p, c.At i p → i ∈ items
  covered : ∀ i ∈ items, ∃ p, c.At i p

section

variable {c c' : Custody ω ι} {items items' : List ι} {live live' : ω → Prop}

/-- An item that is at one place is at no other. -/
theorem Inv.not_at {i : ι} {p q : Place ω} (h : Inv c items live) (hp : c.At i p) (hne : q ≠ p) :
    ¬ c.At i q :=
  fun hq => hne (h.unique i q p hq hp)

/-- Owners that have something stay live. -/
theorem Inv.live_congr (h : Inv c items live) (hlive : ∀ i p, c.At i p → live' p.owner) :
    Inv c items live' :=
  ⟨h.nodup, h.unique, hlive, h.item, h.covered⟩

/-- One item is put to a place, wherever it was before. -/
theorem Inv.move (h : Inv c items live) (i : ι) (q : Place ω) (hnodup : ∀ u, (c'.lists u).Nodup)
    (hself : ∀ p, c'.At i p ↔ p = q) (hrest : ∀ j p, j ≠ i → (c'.At j p ↔ c.At j p))
    (hlive : live q.owner) (hitem : i ∈ items) : Inv c' items live := by
  refine ⟨hnodup, fun j p r hp hr => ?_, fun j p hp => ?_, fun j p hp => ?_, fun j hj => ?_⟩
  · by_cases hji : j = i
    · subst hji
      rw [(hself p).1 hp, (hself r).1 hr]
    · exact h.unique j p r ((hrest j p hji).1 hp) ((hrest j r hji).1 hr)
  · by_cases hji : j = i
    · subst hji
      rw [(hself p).1 hp]
      exact hlive
    · exact h.live j p ((hrest j p hji).1 hp)
  · by_cases hji : j = i
    · rw [hji]
      exact hitem
    · exact h.item j p ((hrest j p hji).1 hp)
  · by_cases hji : j = i
    · subst hji
      exact ⟨q, (hself q).2 rfl⟩
    · obtain ⟨p, hp⟩ := h.covered j hj
      exact ⟨p, (hrest j p hji).2 hp⟩

/-- A new item is put to a place. -/
theorem Inv.add (h : Inv c items live) (i : ι) (q : Place ω) (hnodup : ∀ u, (c'.lists u).Nodup)
    (hself : ∀ p, c'.At i p ↔ p = q) (hrest : ∀ j p, j ≠ i → (c'.At j p ↔ c.At j p))
    (hlive : live q.owner) : Inv c' (items ++ [i]) live := by
  refine ⟨hnodup, fun j p r hp hr => ?_, fun j p hp => ?_, fun j p hp => ?_, fun j hj => ?_⟩
  · by_cases hji : j = i
    · subst hji
      rw [(hself p).1 hp, (hself r).1 hr]
    · exact h.unique j p r ((hrest j p hji).1 hp) ((hrest j r hji).1 hr)
  · by_cases hji : j = i
    · subst hji
      rw [(hself p).1 hp]
      exact hlive
    · exact h.live j p ((hrest j p hji).1 hp)
  · by_cases hji : j = i
    · simp [hji]
    · exact List.mem_append_left _ (h.item j p ((hrest j p hji).1 hp))
  · by_cases hji : j = i
    · subst hji
      exact ⟨q, (hself q).2 rfl⟩
    · obtain ⟨p, hp⟩ := h.covered j (by simpa [hji] using hj)
      exact ⟨p, (hrest j p hji).2 hp⟩

/-- An item is taken away. -/
theorem Inv.drop (h : Inv c items live) (i : ι) (hnodup : ∀ u, (c'.lists u).Nodup)
    (hself : ∀ p, ¬ c'.At i p) (hrest : ∀ j p, j ≠ i → (c'.At j p ↔ c.At j p))
    (hitems : ∀ j, j ∈ items' ↔ j ∈ items ∧ j ≠ i) : Inv c' items' live := by
  have hne : ∀ j p, c'.At j p → j ≠ i := by
    rintro j p hp rfl
    exact hself p hp
  refine ⟨hnodup, fun j p r hp hr => ?_, fun j p hp => ?_, fun j p hp => ?_, fun j hj => ?_⟩
  · have hji := hne j p hp
    exact h.unique j p r ((hrest j p hji).1 hp) ((hrest j r hji).1 hr)
  · exact h.live j p ((hrest j p (hne j p hp)).1 hp)
  · exact (hitems j).2 ⟨h.item j p ((hrest j p (hne j p hp)).1 hp), hne j p hp⟩
  · obtain ⟨hj, hji⟩ := (hitems j).1 hj
    obtain ⟨p, hp⟩ := h.covered j hj
    exact ⟨p, (hrest j p hji).2 hp⟩

end

/-! ## Operations -/

variable [DecidableEq ω] [DecidableEq ι]

/-- Put an item at the end of a list. -/
def push (c : Custody ω ι) (u : ω) (i : ι) : Custody ω ι :=
  { c with lists := Function.update c.lists u (c.lists u ++ [i]) }

/-- Take an item out of a list. -/
def erase (c : Custody ω ι) (u : ω) (i : ι) : Custody ω ι :=
  { c with lists := Function.update c.lists u ((c.lists u).erase i) }

/-- Change what an owner has in hand. -/
def setHand (c : Custody ω ι) (u : ω) (i : Option ι) : Custody ω ι :=
  { c with hands := Function.update c.hands u i }

section

variable {c : Custody ω ι} {items items' : List ι} {live : ω → Prop} {u v : ω} {i j : ι}

omit [DecidableEq ι] in
theorem at_push (p : Place ω) : (c.push u i).At j p ↔ c.At j p ∨ j = i ∧ p = .list u := by
  cases p with
  | list w =>
    by_cases hw : w = u
    · simp [push, At, hw]
    · simp [push, At, hw]
  | hand w => simp [push, At]

/-- Without duplicates, the item is not in the list any more. -/
theorem at_erase (hnodup : (c.lists u).Nodup) (p : Place ω) :
    (c.erase u i).At j p ↔ c.At j p ∧ ¬ (j = i ∧ p = .list u) := by
  cases p with
  | list w =>
    by_cases hw : w = u
    · subst hw
      simp [erase, At, hnodup.mem_erase_iff, and_comm]
    · simp [erase, At, hw]
  | hand w => simp [erase, At]

omit [DecidableEq ι] in
theorem at_setHand {o : Option ι} (p : Place ω) :
    (c.setHand u o).At j p ↔ if p = .hand u then o = some j else c.At j p := by
  cases p with
  | list w => simp [setHand, At]
  | hand w =>
    by_cases hw : w = u
    · simp [setHand, At, hw]
    · simp [setHand, At, hw]

theorem nodup_erase (h : ∀ w, (c.lists w).Nodup) (w : ω) : ((c.erase u i).lists w).Nodup := by
  by_cases hw : w = u
  · subst hw
    simpa [erase] using (h w).erase i
  · simpa [erase, hw] using h w

omit [DecidableEq ι] in
theorem nodup_push (h : ∀ w, (c.lists w).Nodup) (hi : i ∉ c.lists u) (w : ω) :
    ((c.push u i).lists w).Nodup := by
  by_cases hw : w = u
  · subst hw
    simp only [push, Function.update_self]
    apply List.nodup_append.2 ⟨h w, by simp, ?_⟩
    intro j hj k hk hjk
    obtain rfl := List.mem_singleton.1 hk
    exact hi (hjk ▸ hj)
  · simpa [push, hw] using h w

/-- **From a list into an empty hand.** -/
theorem Inv.take (h : Inv c items live) (hi : i ∈ c.lists u) (hhand : c.hands v = none)
    (hlive : live v) : Inv ((c.erase u i).setHand v (some i)) items live := by
  refine h.move i (.hand v) (nodup_erase h.nodup) (fun p => ?_) (fun j p hji => ?_) hlive
    (h.item i (.list u) hi)
  · rw [at_setHand, at_erase (h.nodup u)]
    by_cases hp : p = .hand v
    · simp [hp]
    · simp only [hp, if_false, iff_false, true_and]
      rintro ⟨hat, hnot⟩
      exact h.not_at (p := .list u) hi hnot hat
  · rw [at_setHand, at_erase (h.nodup u)]
    by_cases hp : p = .hand v
    · subst hp
      simp [At, hhand, Ne.symm hji]
    · simp [hp, hji]

omit [DecidableEq ι] in
/-- **From a hand to the end of a list.** -/
theorem Inv.put (h : Inv c items live) (hhand : c.hands v = some i) (hlive : live u) :
    Inv ((c.push u i).setHand v none) items live := by
  have hnot : i ∉ c.lists u := h.not_at (p := .hand v) (q := .list u) hhand (by simp)
  refine h.move i (.list u) (nodup_push h.nodup hnot) (fun p => ?_) (fun j p hji => ?_) hlive
    (h.item i (.hand v) hhand)
  · rw [at_setHand, at_push]
    by_cases hp : p = .hand v
    · simp [hp]
    · simp only [hp, if_false, true_and]
      exact or_iff_right (h.not_at (p := .hand v) hhand hp)
  · rw [at_setHand, at_push]
    by_cases hp : p = .hand v
    · subst hp
      simp [At, hhand, Ne.symm hji]
    · simp [hp, hji]

/-- **From a list to the end of another.** -/
theorem Inv.pass (h : Inv c items live) (hi : i ∈ c.lists u) (hlive : live v) :
    Inv ((c.erase u i).push v i) items live := by
  have hself : ∀ p, ((c.erase u i).push v i).At i p ↔ p = .list v := by
    intro p
    rw [at_push, at_erase (h.nodup u)]
    simp only [true_and]
    refine or_iff_right fun hp => ?_
    exact h.not_at (p := .list u) hi hp.2 hp.1
  refine h.move i (.list v) ?_ hself (fun j p hji => ?_) hlive (h.item i (.list u) hi)
  · apply nodup_push (nodup_erase h.nodup)
    by_cases hvu : v = u
    · subst hvu
      simp [erase, (h.nodup v).mem_erase_iff]
    · have hnot := h.not_at (p := .list u) (q := .list v) hi (by simpa using hvu)
      simpa [erase, hvu, At] using hnot
  · rw [at_push, at_erase (h.nodup u)]
    simp [hji]

omit [DecidableEq ι] in
/-- **A new item** at the end of a list. -/
theorem Inv.push_new (h : Inv c items live) (hi : i ∉ items) (hlive : live u) :
    Inv (c.push u i) (items ++ [i]) live := by
  have hnot : ∀ p, ¬ c.At i p := fun p hp => hi (h.item i p hp)
  refine h.add i (.list u) (nodup_push h.nodup (hnot (.list u))) (fun p => ?_) (fun j p hji => ?_) hlive
  · rw [at_push]
    simp [hnot p]
  · rw [at_push]
    simp [hji]

omit [DecidableEq ι] in
/-- **Out of a hand**, for good. -/
theorem Inv.drop_hand (h : Inv c items live) (hhand : c.hands v = some i)
    (hitems : ∀ j, j ∈ items' ↔ j ∈ items ∧ j ≠ i) : Inv (c.setHand v none) items' live := by
  refine h.drop i h.nodup (fun p => ?_) (fun j p hji => ?_) hitems
  · rw [at_setHand]
    by_cases hp : p = .hand v
    · simp [hp]
    · simpa [hp] using h.not_at (p := .hand v) hhand hp
  · rw [at_setHand]
    by_cases hp : p = .hand v
    · subst hp
      simp [At, hhand, Ne.symm hji]
    · simp [hp]

/-- **Out of a list**, for good. -/
theorem Inv.drop_list (h : Inv c items live) (hi : i ∈ c.lists u)
    (hitems : ∀ j, j ∈ items' ↔ j ∈ items ∧ j ≠ i) : Inv (c.erase u i) items' live := by
  refine h.drop i (nodup_erase h.nodup) (fun p => ?_) (fun j p hji => ?_) hitems
  · rw [at_erase (h.nodup u)]
    rintro ⟨hat, hnot⟩
    exact h.not_at (p := .list u) hi (by simpa using hnot) hat
  · rw [at_erase (h.nodup u)]
    simp [hji]

end

end Custody

end ChenixOS
