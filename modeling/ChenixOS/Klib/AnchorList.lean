import ChenixOS.Lib.Links
import Mathlib.Logic.Function.Basic

/-!
# `ktl::AnchorList`

The kernel's intrusive list (klib/AnchorList.h): the links of a node are a member of the node itself,
and the list only has the two ends. `Holds` says which nodes are in it; the operations then are those
of a list, as long as no node is put in twice.
-/

namespace ChenixOS

open Links

variable {ν : Type} [DecidableEq ν]

/-- The ends of the list and the anchors of the nodes; `none` is the null pointer. -/
structure AnchorList (ν : Type) where
  head : Option ν
  tail : Option ν
  next : ν → Option ν
  prev : ν → Option ν

namespace AnchorList

/-- A list without nodes, whatever the anchors hold. -/
def empty (next prev : ν → Option ν) : AnchorList ν := ⟨none, none, next, prev⟩

/-- `push_back`; appending to a list with a head and no tail follows a null pointer. -/
def pushBack (l : AnchorList ν) (t : ν) : Option (AnchorList ν) :=
  let next := Function.update l.next t none
  let prev := Function.update l.prev t l.tail
  match l.head, l.tail with
  | none, _ => some ⟨some t, some t, next, prev⟩
  | some h, some m => some ⟨some h, some t, Function.update next m (some t), prev⟩
  | some _, none => none

/-- `erase`, at an iterator. -/
def eraseAt (l : AnchorList ν) (t : ν) : AnchorList ν :=
  let l' := match l.prev t with
    | some p => { l with next := Function.update l.next p (l.next t) }
    | none => { l with head := l.next t }
  match l'.next t with
  | some n => { l' with prev := Function.update l'.prev n (l'.prev t) }
  | none => { l' with tail := l'.prev t }

/-- `pop_front`, which follows a null pointer on an empty list. -/
def popFront (l : AnchorList ν) : Option (AnchorList ν) := l.head.map l.eraseAt

/-- `pop_back`, which follows a null pointer on an empty list. -/
def popBack (l : AnchorList ν) : Option (AnchorList ν) := l.tail.map l.eraseAt

/-! ## The nodes of a list -/

/-- The null node's `next` is the head. -/
def nextOf (l : AnchorList ν) : Option ν → Option ν
  | none => l.head
  | some x => l.next x

/-- The null node's `prev` is the tail. -/
def prevOf (l : AnchorList ν) : Option ν → Option ν
  | none => l.tail
  | some x => l.prev x

/-- The nodes of a list, from head to tail. -/
def Holds (l : AnchorList ν) (xs : List ν) : Prop := Ring l.nextOf l.prevOf none (xs.map some)

variable {l : AnchorList ν} {xs ys : List ν} {t : ν}

omit [DecidableEq ν] in
theorem holds_empty (next prev : ν → Option ν) : (empty next prev).Holds [] := ring_nil rfl rfl

omit [DecidableEq ν] in
theorem Holds.nodup (h : l.Holds xs) : xs.Nodup :=
  (List.nodup_map_iff fun _ _ => Option.some.inj).1 (List.nodup_cons.1 (Ring.nodup h)).2

omit [DecidableEq ν] in
theorem Holds.head_eq (h : l.Holds xs) : l.head = xs.head? := by
  have := h.next_null
  cases xs with
  | nil => simpa [nextOf] using this
  | cons x xs => simpa [nextOf] using this

omit [DecidableEq ν] in
theorem Holds.tail_eq (h : l.Holds xs) : l.tail = xs.getLast? := by
  have hnull : l.tail = (none :: xs.map some).getLast (by simp) := h.prev_null
  rw [hnull]
  rcases xs.eq_nil_or_concat with rfl | ⟨ys, x, rfl⟩
  · rfl
  · simp

/-- **`push_back`** appends a node. -/
theorem pushBack_spec (h : l.Holds xs) (ht : t ∉ xs) :
    ∃ l', l.pushBack t = some l' ∧ l'.Holds (xs ++ [t]) := by
  have hhead := h.head_eq
  have htail := h.tail_eq
  have hnot : some t ∉ none :: xs.map some := by simp [ht]
  rcases xs.eq_nil_or_concat with rfl | ⟨ys, m, rfl⟩
  · refine ⟨⟨some t, some t, Function.update l.next t none, Function.update l.prev t l.tail⟩, ?_, ?_⟩
    · simp only [pushBack, hhead, List.head?_nil]
    · rw [Holds, List.map_append, List.map_singleton]
      refine Ring.link h hnot ?_ ?_ ?_ ?_ ?_ <;> simp [nextOf, prevOf, htail]
  · rw [List.concat_eq_append] at *
    obtain ⟨x, hx⟩ : ∃ x, (ys ++ [m]).head? = some x := by cases ys <;> simp
    rw [hx] at hhead
    rw [List.getLast?_concat] at htail
    refine ⟨⟨some x, some t, Function.update (Function.update l.next t none) m (some t),
      Function.update l.prev t l.tail⟩, ?_, ?_⟩
    · simp only [pushBack, hhead, htail]
    · have hmt : m ≠ t := by
        rintro rfl
        simp at ht
      rw [Holds, List.map_append, List.map_singleton]
      refine Ring.link h hnot ?_ ?_ ?_ ?_ ?_
      · intro y hy
        rcases List.mem_cons.1 hy with rfl | hy
        · simp [nextOf, prevOf, htail, hhead]
        · obtain ⟨z, hz, rfl⟩ := List.mem_map.1 hy
          have hzt : z ≠ t := fun e => ht (e ▸ hz)
          by_cases hzm : z = m
          · simp [nextOf, prevOf, htail, hzm]
          · simp [nextOf, prevOf, htail, hzm, hzt]
      · simp [nextOf, Function.update_of_ne hmt.symm]
      · intro y hy
        obtain ⟨z, hz, rfl⟩ := List.mem_map.1 hy
        have hzt : z ≠ t := fun e => ht (e ▸ hz)
        simp [prevOf, hzt]
      · rfl
      · simp [prevOf]

/-- The links of a list after `erase`. -/
theorem eraseAt_links (hprev : l.prev t ≠ some t) (y : Option ν) :
    (l.eraseAt t).nextOf y = (if y = l.prev t then l.next t else l.nextOf y) ∧
    (l.eraseAt t).prevOf y = (if y = l.next t then l.prev t else l.prevOf y) := by
  cases hp : l.prev t with
  | none =>
    cases hn : l.next t with
    | none => cases y <;> simp [eraseAt, nextOf, prevOf, hp, hn]
    | some n => cases y <;> simp [eraseAt, nextOf, prevOf, hp, hn, Function.update_apply]
  | some p =>
    have htp : t ≠ p := by
      rintro rfl
      exact hprev hp
    cases hn : l.next t with
    | none => cases y <;> simp [eraseAt, nextOf, prevOf, hp, hn, htp, Function.update_apply]
    | some n => cases y <;> simp [eraseAt, nextOf, prevOf, hp, hn, htp, Function.update_apply]

/-- **`erase`** takes a node out. -/
theorem eraseAt_spec (h : l.Holds (xs ++ t :: ys)) : (l.eraseAt t).Holds (xs ++ ys) := by
  have hring : Ring l.nextOf l.prevOf none (xs.map some ++ some t :: ys.map some) := by
    simpa [Holds] using h
  have hprev : l.prev t ≠ some t := by
    intro hself
    have hlast : l.prev t = (none :: xs.map some).getLast (by simp) := hring.around.1
    have hmem : some t ∈ none :: xs.map some := by
      rw [← hself, hlast]
      exact List.getLast_mem _
    have hnot := (List.nodup_append.1 h.nodup).2.2
    obtain ⟨x, hx, e⟩ : ∃ x ∈ xs, some x = some t := by simpa using hmem
    exact hnot x hx t (by simp) (Option.some.inj e)
  rw [Holds, List.map_append]
  exact Ring.unlink hring (fun y _ => (eraseAt_links hprev y).1) fun y _ => (eraseAt_links hprev y).2

/-- **`pop_front`** takes the first node out. -/
theorem popFront_spec (h : l.Holds (t :: xs)) : ∃ l', l.popFront = some l' ∧ l'.Holds xs := by
  have he : l.Holds ([] ++ t :: xs) := h
  exact ⟨l.eraseAt t, by rw [popFront, h.head_eq]; rfl, eraseAt_spec he⟩

end AnchorList

end ChenixOS
