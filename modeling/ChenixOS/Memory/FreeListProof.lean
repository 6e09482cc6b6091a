import ChenixOS.Memory.FreeList
import Mathlib.Data.Finset.Card
import Mathlib.Data.List.Find
import Mathlib.Data.Finset.Range
import Mathlib.Order.Interval.Set.Basic
import Mathlib.Data.Set.Lattice

/-!
# The free list keeps its books

First the links: `Listed N c head tail xs` says that the contents `c` hold a doubly linked list
with the nodes `xs`. Linking and unlinking keep it and write nothing but anchors of its nodes.

Then the segments: `Holds G N c head tail segs` says that the list describes the segments `segs`,
which do not overlap and come in multiples of the granule `G`. Marking a block used or free takes
its bytes out of the covered ones or adds them, and writes only to free memory.

All of it is for any view that shows plain contents on the headers of the allowed nodes `N`.
-/

namespace ChenixOS.FreeList

open Links

/-! ## Anchors -/

/-- `next`, with the head as the `next` of null. -/
def nextOf (c : Nat → Nat) (head x : Nat) : Nat := if x = 0 then head else c x

/-- `prev`, with the tail as the `prev` of null. -/
def prevOf (c : Nat → Nat) (tail x : Nat) : Nat := if x = 0 then tail else c (x + 8)

/-- The addresses of the header words of the nodes in `N`. -/
def headers (N : Set Nat) : Set Nat := {a | ∃ b ∈ N, a = b ∨ a = b + 8 ∨ a = b + 16 ∨ a = b + 24}

/-- The headers of two nodes do not overlap. -/
def Clear (x y : Nat) : Prop := x + 32 ≤ y ∨ y + 32 ≤ x

instance : Std.Symm Clear := ⟨fun _ _ h => h.symm⟩

/-- The contents hold a doubly linked list of the nodes `xs`, their headers apart. -/
structure Listed (N : Set Nat) (c : Nat → Nat) (head tail : Nat) (xs : List Nat) : Prop where
  ring : Ring (nextOf c head) (prevOf c tail) 0 xs
  node : ∀ x ∈ xs, x ∈ N ∧ x < wordSize
  apart : xs.Pairwise Clear

section Anchors

variable {σ : Type} {V : View σ} {R : σ → (Nat → Nat) → Prop} {N : Set Nat}
  {s : σ} {l : FreeList σ} {c : Nat → Nat} {head tail t x v : Nat} {xs ys : List Nat}

theorem Listed.ne_zero (h : Listed N c head tail xs) (hx : x ∈ xs) : x ≠ 0 := by
  rintro rfl
  exact (List.nodup_cons.1 h.ring.nodup).1 hx

/-- The nodes are different addresses, so a walk along them ends. -/
theorem Listed.length_lt (h : Listed N c head tail xs) : xs.length < walkLimit := by
  have hsub : (0 :: xs).toFinset ⊆ Finset.range wordSize := by
    intro x hx
    rw [List.mem_toFinset, List.mem_cons] at hx
    rw [Finset.mem_range]
    rcases hx with rfl | hx
    · decide
    · exact (h.node x hx).2
  have hcard := Finset.card_le_card hsub
  rw [List.toFinset_card_of_nodup h.ring.nodup, Finset.card_range] at hcard
  exact hcard

theorem Listed.head_eq (h : Listed N c head tail xs) : head = (xs ++ [0]).head (by simp) := by
  simpa [nextOf] using h.ring.next_null

theorem Listed.tail_eq (h : Listed N c head tail xs) : tail = (0 :: xs).getLast (by simp) := by
  simpa [prevOf] using h.ring.prev_null

theorem Listed.tail_mem (h : Listed N c head tail xs) (hx : xs ≠ []) : tail ∈ xs := by
  rw [h.tail_eq, List.getLast_cons hx]
  exact List.getLast_mem hx

theorem Listed.head_eq_zero_iff (h : Listed N c head tail xs) : head = 0 ↔ xs = [] := by
  rw [h.head_eq]
  cases xs with
  | nil => simp
  | cons x xs => simpa using h.ne_zero (x := x) (by simp)

/-- The links are read from nothing but the anchors. -/
theorem Listed.congr {c' : Nat → Nat} (h : Listed N c head tail xs)
    (hc : ∀ x ∈ xs, c' x = c x ∧ c' (x + 8) = c (x + 8)) : Listed N c' head tail xs := by
  refine ⟨h.ring.congr ?_ ?_, h.node, h.apart⟩
  · intro x hx
    unfold nextOf
    split
    · rfl
    · exact (hc x ((List.mem_cons.1 hx).resolve_left ‹_›)).1
  · intro x hx
    unfold prevOf
    split
    · rfl
    · exact (hc x ((List.mem_cons.1 hx).resolve_left ‹_›)).2

/-! ## Loads and stores of header words -/

section Fields

variable (hV : V.Simulates (headers N) R) (hR : R s c) (hx : x ∈ N)

include hV hR hx

theorem getNext_eq : getNext V s x = some (c x) :=
  hV.load hR ⟨x, hx, by simp⟩

theorem getPrev_eq : getPrev V s x = some (c (x + 8)) :=
  hV.load hR ⟨x, hx, by simp⟩

theorem getBase_eq : getBase V s x = some (c (x + 16)) :=
  hV.load hR ⟨x, hx, by simp⟩

theorem getSize_eq : getSize V s x = some (c (x + 24)) :=
  hV.load hR ⟨x, hx, by simp⟩

theorem setNext_eq (v : Nat) : ∃ s', setNext V s x v = some s' ∧ R s' (Function.update c x v) :=
  hV.store v hR ⟨x, hx, by simp⟩

theorem setPrev_eq (v : Nat) :
    ∃ s', setPrev V s x v = some s' ∧ R s' (Function.update c (x + 8) v) :=
  hV.store v hR ⟨x, hx, by simp⟩

theorem setBase_eq (v : Nat) :
    ∃ s', setBase V s x v = some s' ∧ R s' (Function.update c (x + 16) v) :=
  hV.store v hR ⟨x, hx, by simp⟩

theorem setSize_eq (v : Nat) :
    ∃ s', setSize V s x v = some s' ∧ R s' (Function.update c (x + 24) v) :=
  hV.store v hR ⟨x, hx, by simp⟩

end Fields

/-! ## Linking and unlinking -/

/-- Contents that differ in nothing but the anchors of the nodes `xs`. -/
def SameBut (xs : List Nat) (c c' : Nat → Nat) : Prop :=
  ∀ a, (∀ x ∈ xs, a ≠ x ∧ a ≠ x + 8) → c' a = c a

/-- Contents in which `t` was linked in behind the tail: the list has it as its last node. -/
theorem Listed.link_last {c' : Nat → Nat} (h : Listed N c head tail xs) (ht : t ∈ N)
    (hlt : t < wordSize) (h0 : t ≠ 0) (hap : ∀ x ∈ xs, Clear x t)
    (hc' : ∀ a, c' a = if a = tail ∧ xs ≠ [] then t else if a = t + 8 then tail
      else if a = t then 0 else c a) :
    Listed N c' (if xs = [] then t else head) t (xs ++ [t]) ∧ SameBut (xs ++ [t]) c c' := by
  have hne : ∀ x ∈ xs, x ≠ t ∧ x ≠ t + 8 ∧ x + 8 ≠ t ∧ x + 8 ≠ t + 8 := by
    intro x hx
    have := hap x hx
    unfold Clear at this
    omega
  have htail : prevOf c tail 0 = tail := rfl
  refine ⟨⟨h.ring.link ?_ ?_ ?_ ?_ ?_ ?_, ?_, ?_⟩, ?_⟩
  · rw [List.mem_cons, not_or]
    exact ⟨h0, fun hm => (hne t hm).1 rfl⟩
  · intro x hx
    rw [htail]
    rcases List.mem_cons.1 hx with rfl | hx
    · by_cases hxs : xs = []
      · have : tail = 0 := by rw [h.tail_eq]; simp [hxs]
        simp [nextOf, hxs, this]
      · have : 0 ≠ tail := (h.ne_zero (h.tail_mem hxs)).symm
        simp [nextOf, hxs, this]
    · have hxs : xs ≠ [] := List.ne_nil_of_mem hx
      obtain ⟨h1, h2, -⟩ := hne x hx
      simp [nextOf, h.ne_zero hx, hc', hxs, h1, h2]
  · have h1 : ¬ (t = tail ∧ xs ≠ []) := fun ⟨e, hxs⟩ => (hne _ (h.tail_mem hxs)).1 e.symm
    simp [nextOf, h0, hc', h1]
  · intro x hx
    obtain ⟨-, -, h3, h4⟩ := hne x hx
    have h1 : ¬ (x + 8 = tail ∧ xs ≠ []) := by
      rintro ⟨e, hxs⟩
      have hm := h.tail_mem hxs
      have hap := h.apart.forall hx hm (by omega)
      unfold Clear at hap
      omega
    have h4' : x ≠ t := by omega
    simp [prevOf, h.ne_zero hx, hc', h1, h3, h4']
  · simp [prevOf]
  · have h1 : ¬ (t + 8 = tail ∧ xs ≠ []) := fun ⟨e, hxs⟩ => (hne _ (h.tail_mem hxs)).2.1 e.symm
    simp [prevOf, h0, hc', h1]
  · intro x hx
    rw [List.mem_append, List.mem_singleton] at hx
    rcases hx with hx | rfl
    · exact h.node x hx
    · exact ⟨ht, hlt⟩
  · rw [List.pairwise_append]
    refine ⟨h.apart, by simp, ?_⟩
    intro x hx y hy
    rw [List.mem_singleton] at hy
    exact hy ▸ hap x hx
  · intro a ha
    have h1 : ¬ (a = tail ∧ xs ≠ []) :=
      fun ⟨e, hxs⟩ => (ha _ (List.mem_append_left _ (h.tail_mem hxs))).1 e
    obtain ⟨h2, h3⟩ := ha t (by simp)
    rw [hc', if_neg h1, if_neg h3, if_neg h2]

/-- Appending a node whose header is apart from the others. -/
theorem pushBack_spec (hV : V.Simulates (headers N) R) (hR : R l.mem c)
    (h : Listed N c l.head l.tail xs) (ht : t ∈ N) (hlt : t < wordSize) (h0 : t ≠ 0)
    (hap : ∀ x ∈ xs, Clear x t) :
    ∃ l' c', pushBack V l t = some l' ∧ R l'.mem c' ∧
      Listed N c' l'.head l'.tail (xs ++ [t]) ∧ SameBut (xs ++ [t]) c c' := by
  obtain ⟨s₁, hs₁, hR₁⟩ := setNext_eq hV hR ht 0
  obtain ⟨s₂, hs₂, hR₂⟩ := setPrev_eq hV hR₁ ht l.tail
  -- The tail is linked to the new node when there is one, and the head set when there is none.
  by_cases hx : xs = []
  · have hc : ∀ a, Function.update (Function.update c t 0) (t + 8) l.tail a =
        if a = l.tail ∧ xs ≠ [] then t else if a = t + 8 then l.tail else if a = t then 0 else c a := by
      intro a
      simp [hx, Function.update_apply]
    have hlink := h.link_last ht hlt h0 hap hc
    rw [if_pos hx] at hlink
    refine ⟨⟨s₂, t, t⟩, _, ?_, hR₂, hlink⟩
    simp [pushBack, hs₁, hs₂, h.head_eq_zero_iff.2 hx]
  · have htm := h.tail_mem hx
    obtain ⟨s₃, hs₃, hR₃⟩ := setNext_eq hV hR₂ (h.node _ htm).1 t
    have hc : ∀ a, Function.update (Function.update (Function.update c t 0) (t + 8) l.tail) l.tail t a =
        if a = l.tail ∧ xs ≠ [] then t else if a = t + 8 then l.tail else if a = t then 0 else c a := by
      intro a
      simp [hx, Function.update_apply]
    have hlink := h.link_last ht hlt h0 hap hc
    rw [if_neg hx] at hlink
    refine ⟨⟨s₃, l.head, t⟩, _, ?_, hR₃, hlink⟩
    simp [pushBack, hs₁, hs₂, hs₃, h.head_eq_zero_iff, hx]

/-- The nodes around a member, and that the other headers are apart from its own. -/
theorem Listed.neighbours (h : Listed N c head tail (xs ++ t :: ys)) :
    (c (t + 8) = 0 ∨ c (t + 8) ∈ xs) ∧ (c t = 0 ∨ c t ∈ ys) ∧ ∀ x ∈ xs ++ ys, Clear x t := by
  have htm : t ∈ xs ++ t :: ys := by simp
  have h0 : t ≠ 0 := h.ne_zero htm
  obtain ⟨hp, hq⟩ := h.ring.around
  simp only [prevOf, nextOf, h0, if_false] at hp hq
  refine ⟨?_, ?_, fun x hx => ?_⟩
  · have := List.getLast_mem (List.cons_ne_nil 0 xs)
    rwa [← hp, List.mem_cons] at this
  · have := List.head_mem (l := ys ++ [0]) (by simp)
    rw [← hq, List.mem_append, List.mem_singleton] at this
    exact this.symm
  · have hnd := List.nodup_middle.1 (List.nodup_cons.1 h.ring.nodup).2
    have hxm : x ∈ xs ++ t :: ys := by
      simp only [List.mem_append, List.mem_cons] at hx ⊢
      tauto
    refine h.apart.forall hxm htm ?_
    rintro rfl
    exact (List.nodup_cons.1 hnd).1 hx

/-- Unlinking a node joins its neighbours; its own header is left as it is. -/
theorem eraseAt_spec (hV : V.Simulates (headers N) R) (hR : R l.mem c)
    (h : Listed N c l.head l.tail (xs ++ t :: ys)) :
    ∃ l' c', eraseAt V l t = some l' ∧ R l'.mem c' ∧
      Listed N c' l'.head l'.tail (xs ++ ys) ∧ SameBut (xs ++ ys) c c' := by
  have htm : t ∈ xs ++ t :: ys := by simp
  have h0 : t ≠ 0 := h.ne_zero htm
  have hsub : ∀ x ∈ xs ++ ys, x ∈ xs ++ t :: ys := by
    intro x hx
    simp only [List.mem_append, List.mem_cons] at hx ⊢
    tauto
  obtain ⟨hpm, hqm, hclear⟩ := h.neighbours
  obtain ⟨p, hp'⟩ : ∃ p, c (t + 8) = p := ⟨_, rfl⟩
  obtain ⟨q, hq'⟩ : ∃ q, c t = q := ⟨_, rfl⟩
  rw [hp'] at hpm
  rw [hq'] at hqm
  have hpair : ∀ x ∈ xs ++ ys, ∀ y ∈ xs ++ ys, x ≠ y + 8 := by
    intro x hx y hy e
    have := h.apart.forall (hsub x hx) (hsub y hy) (by omega)
    unfold Clear at this
    omega
  -- What the four branches do, in one line each for the contents and the two ends.
  obtain ⟨l', c', hl', hR', hh, htl, hc'⟩ : ∃ l' c', eraseAt V l t = some l' ∧ R l'.mem c' ∧
      l'.head = (if p = 0 then q else l.head) ∧ l'.tail = (if q = 0 then p else l.tail) ∧
      ∀ a, c' a = if a = q + 8 ∧ q ≠ 0 then p else if a = p ∧ p ≠ 0 then q else c a := by
    have htN := (h.node t htm).1
    obtain ⟨l₁, c₁, hl₁, hR₁, hh₁, htl₁, hc₁⟩ : ∃ l₁ c₁,
        skipForward V l t = some l₁ ∧ R l₁.mem c₁ ∧
        l₁.head = (if p = 0 then q else l.head) ∧ l₁.tail = l.tail ∧
        ∀ a, c₁ a = if a = p ∧ p ≠ 0 then q else c a := by
      have hfwd : skipForward V l t = if p ≠ 0 then
          (setNext V l.mem p q).map fun mem => { l with mem := mem }
          else some { l with head := q } := by
        simp [skipForward, getPrev_eq hV hR htN, getNext_eq hV hR htN, hp', hq']
      by_cases hp0 : p = 0
      · exact ⟨{ l with head := q }, c, by simp [hfwd, hp0], hR, by simp [hp0], rfl,
          by simp [hp0]⟩
      · have hpx : p ∈ xs := hpm.resolve_left hp0
        obtain ⟨s₁, hs₁, hR₁⟩ := setNext_eq hV hR (h.node p (by simp [hpx])).1 q
        refine ⟨{ l with mem := s₁ }, _, by simp [hfwd, hp0, hs₁], hR₁, by simp [hp0], rfl, ?_⟩
        intro a
        simp [hp0, Function.update_apply]
    have ht8 : c₁ t = q ∧ c₁ (t + 8) = p := by
      have hpt : ¬ (t = p ∧ p ≠ 0) ∧ ¬ (t + 8 = p ∧ p ≠ 0) := by
        constructor <;> rintro ⟨e, hp0⟩ <;>
        · have := hclear p (by simp [hpm.resolve_left hp0])
          unfold Clear at this
          omega
      rw [hc₁, hc₁, if_neg hpt.1, if_neg hpt.2]
      exact ⟨hq', hp'⟩
    have hn₁ := getNext_eq hV hR₁ htN
    have hp₁ := getPrev_eq hV hR₁ htN
    rw [ht8.1] at hn₁
    rw [ht8.2] at hp₁
    by_cases hq0 : q = 0
    · refine ⟨{ l₁ with tail := p }, c₁, ?_, hR₁, hh₁, by simp [hq0], ?_⟩
      · simp [eraseAt, skipBackward, hl₁, hn₁, hp₁, hq0]
      · intro a
        rw [hc₁]
        simp [hq0]
    · have hqy : q ∈ ys := hqm.resolve_left hq0
      obtain ⟨s₂, hs₂, hR₂⟩ := setPrev_eq hV hR₁ (h.node q (by simp [hqy])).1 p
      refine ⟨{ l₁ with mem := s₂ }, _, ?_, hR₂, hh₁, by simp [hq0, htl₁], ?_⟩
      · simp [eraseAt, skipBackward, hl₁, hn₁, hp₁, hq0, hs₂]
      · intro a
        rw [Function.update_apply, hc₁]
        simp [hq0]
  refine ⟨l', c', hl', hR', ⟨h.ring.unlink ?_ ?_, fun x hx => h.node x (hsub x hx), ?_⟩, ?_⟩
  · intro x hx
    rcases List.mem_cons.1 hx with rfl | hx
    · by_cases hp0 : p = 0
      · simp [nextOf, prevOf, h0, hh, hp', hq', hp0]
      · simp [nextOf, prevOf, h0, hh, hp', hp0, Ne.symm hp0]
    · have hx0 := h.ne_zero (hsub x hx)
      have h1 : ¬ (x = q + 8 ∧ q ≠ 0) :=
        fun ⟨e, hq0⟩ => hpair x hx q (by simp [hqm.resolve_left hq0]) e
      simp only [nextOf, prevOf, h0, hx0, if_false, hp', hq', hc', h1]
      by_cases hxp : x = p
      · simp [hxp, hxp ▸ hx0]
      · simp [hxp]
  · intro x hx
    rcases List.mem_cons.1 hx with rfl | hx
    · by_cases hq0 : q = 0
      · simp [nextOf, prevOf, h0, htl, hp', hq', hq0]
      · simp [nextOf, prevOf, h0, htl, hq', hq0, Ne.symm hq0]
    · have hx0 := h.ne_zero (hsub x hx)
      have h1 : ¬ (x + 8 = p ∧ p ≠ 0) :=
        fun ⟨e, hp0⟩ => hpair p (by simp [hpm.resolve_left hp0]) x hx e.symm
      simp only [nextOf, prevOf, h0, hx0, if_false, hp', hq', hc', h1]
      by_cases hxq : x = q
      · simp [hxq, hxq ▸ hx0]
      · simp [hxq]
  · exact h.apart.sublist (by simp)
  · intro a ha
    have h1 : ¬ (a = q + 8 ∧ q ≠ 0) := fun ⟨e, hq0⟩ => (ha q (by simp [hqm.resolve_left hq0])).2 e
    have h2 : ¬ (a = p ∧ p ≠ 0) := fun ⟨e, hp0⟩ => (ha p (by simp [hpm.resolve_left hp0])).1 e
    rw [hc', if_neg h1, if_neg h2]

/-- A walk along the list finds its first node that passes the test. -/
theorem seek_spec (hV : V.Simulates (headers N) R) (hR : R l.mem c)
    (h : Listed N c l.head l.tail xs) {test : Nat → Option Bool} {p : Nat → Bool}
    (htest : ∀ x ∈ xs, test x = some (p x)) :
    seek V l test = some ((xs.find? p).getD 0) := by
  have hn : l.head = nextOf c l.head 0 := rfl
  unfold seek
  rw [hn]
  refine h.ring.seek ?_ htest h.length_lt
  intro x hx
  rw [getNext_eq hV hR (h.node x hx).1, nextOf, if_neg (h.ne_zero hx)]

/-- Searching for a node of the list before unlinking it changes nothing. -/
theorem erase_eq_eraseAt (hV : V.Simulates (headers N) R) (hR : R l.mem c)
    (h : Listed N c l.head l.tail (xs ++ t :: ys)) : erase V l t = eraseAt V l t := by
  have hs : seek V l (fun a => some (a == t)) = some t := by
    rw [seek_spec hV hR h (fun x _ => rfl)]
    have hmem : ((xs ++ t :: ys).find? (· == t)).isSome := by simp
    obtain ⟨y, hy⟩ := Option.isSome_iff_exists.1 hmem
    have : y = t := by simpa using List.find?_some hy
    rw [hy, this, Option.getD_some]
  simp [erase, hs, h.ne_zero (x := t) (by simp)]

theorem erase_spec (hV : V.Simulates (headers N) R) (hR : R l.mem c)
    (h : Listed N c l.head l.tail (xs ++ t :: ys)) :
    ∃ l' c', erase V l t = some l' ∧ R l'.mem c' ∧
      Listed N c' l'.head l'.tail (xs ++ ys) ∧ SameBut (xs ++ ys) c c' := by
  rw [erase_eq_eraseAt hV hR h]
  exact eraseAt_spec hV hR h

end Anchors

/-! ## Segments -/

/-- A block of memory. -/
structure Segment where
  base : Nat
  size : Nat
  deriving DecidableEq

/-- Two blocks do not overlap. -/
def Segment.Apart (g h : Segment) : Prop :=
  g.base + g.size ≤ h.base ∨ h.base + h.size ≤ g.base

instance : Std.Symm Segment.Apart := ⟨fun _ _ h => h.symm⟩

/-- The bytes of a list of blocks. -/
def covered (segs : List Segment) : Set Nat :=
  {b | ∃ g ∈ segs, g.base ≤ b ∧ b < g.base + g.size}

/-- A block that a free list with granule `G` and nodes in `N` may hold. -/
structure Segment.Fits (G : Nat) (N : Set Nat) (g : Segment) : Prop where
  node : g.base ∈ N
  pos : 0 < g.base
  size_pos : 0 < g.size
  granule : G ∣ g.size
  top : g.base + g.size ≤ wordSize

/-- **The invariant of a free list**: its nodes describe the segments `segs`, which do not
overlap. -/
structure Holds (G : Nat) (N : Set Nat) (c : Nat → Nat) (head tail : Nat) (segs : List Segment) :
    Prop where
  listed : Listed N c head tail (segs.map Segment.base)
  base : ∀ g ∈ segs, c (g.base + 16) = g.base
  size : ∀ g ∈ segs, c (g.base + 24) = g.size
  fits : ∀ g ∈ segs, g.Fits G N
  apart : segs.Pairwise Segment.Apart

section Segments

variable {σ : Type} {V : View σ} {R : σ → (Nat → Nat) → Prop} {G : Nat} {N : Set Nat}
  {s : σ} {l : FreeList σ} {c : Nat → Nat} {head tail : Nat} {g lo hi : Segment}
  {segs xs ys : List Segment} {n : Nat}

/-- There is room for a header in a segment. -/
theorem Segment.Fits.header (hG : 32 ≤ G) (h : g.Fits G N) : 32 ≤ g.size :=
  hG.trans (Nat.le_of_dvd h.size_pos h.granule)

theorem Segment.Fits.base_lt (h : g.Fits G N) : g.base < wordSize := by
  have := h.size_pos
  have := h.top
  omega

@[simp] theorem mem_covered {segs : List Segment} {b : Nat} :
    b ∈ covered segs ↔ ∃ g ∈ segs, g.base ≤ b ∧ b < g.base + g.size := Iff.rfl

/-- An anchor of a segment lies in free memory. -/
theorem anchor_mem_covered (hG : 32 ≤ G) (hf : ∀ g ∈ segs, g.Fits G N) {x a : Nat}
    (hx : x ∈ segs.map Segment.base) (ha : a = x ∨ a = x + 8) : a ∈ covered segs := by
  obtain ⟨g, hg, rfl⟩ := List.mem_map.1 hx
  have := (hf g hg).header hG
  exact ⟨g, hg, by omega⟩

/-- What differs in anchors of free segments only, agrees outside of free memory. -/
theorem SameBut.frame {c' : Nat → Nat} (hG : 32 ≤ G) (hf : ∀ g ∈ segs, g.Fits G N)
    (h : SameBut (segs.map Segment.base) c c') {a : Nat} (ha : a ∉ covered segs) : c' a = c a := by
  refine h a fun x hx => ⟨?_, ?_⟩
  · rintro rfl
    exact ha (anchor_mem_covered hG hf hx (.inl rfl))
  · rintro rfl
    exact ha (anchor_mem_covered hG hf hx (.inr rfl))

/-- The `base` and `size` words are no anchors. -/
theorem field_ne_anchor {x y : Nat} (h : x = y ∨ Clear x y) :
    (x + 16 ≠ y ∧ x + 16 ≠ y + 8) ∧ x + 24 ≠ y ∧ x + 24 ≠ y + 8 := by
  unfold Clear at h
  omega

/-- Segments are told apart by their base. -/
theorem Holds.eq_of_base (h : Holds G N c head tail segs) {k : Segment} (hg : g ∈ segs)
    (hk : k ∈ segs) (e : g.base = k.base) : g = k := by
  by_contra hne
  have hap := h.apart.forall hg hk hne
  have := (h.fits g hg).size_pos
  have := (h.fits k hk).size_pos
  unfold Segment.Apart at hap
  omega

/-- Links that changed in nothing but anchors describe the same segments. -/
theorem Holds.of_listed {c' : Nat → Nat} (hl : Listed N c' head tail (segs.map Segment.base))
    (hsame : SameBut (segs.map Segment.base) c c')
    (hbase : ∀ g ∈ segs, c (g.base + 16) = g.base) (hsize : ∀ g ∈ segs, c (g.base + 24) = g.size)
    (hfits : ∀ g ∈ segs, g.Fits G N) (hapart : segs.Pairwise Segment.Apart) :
    Holds G N c' head tail segs := by
  have hfar : ∀ g ∈ segs, ∀ x ∈ segs.map Segment.base, g.base = x ∨ Clear g.base x := by
    intro g hg x hx
    by_cases e : g.base = x
    · exact .inl e
    · exact .inr (hl.apart.forall (List.mem_map_of_mem hg) hx e)
  refine ⟨hl, ?_, ?_, hfits, hapart⟩
  · intro g hg
    rw [hsame _ fun x hx => (field_ne_anchor (hfar g hg x hx)).1, hbase g hg]
  · intro g hg
    rw [hsame _ fun x hx => (field_ne_anchor (hfar g hg x hx)).2, hsize g hg]

/-- A store to the `base` or `size` word of a header apart from the nodes, or of a node, keeps
the links. -/
theorem Listed.update_field {xs : List Nat} {x a v : Nat} (h : Listed N c head tail xs)
    (hx : ∀ y ∈ xs, x = y ∨ Clear x y) (ha : a = x + 16 ∨ a = x + 24) :
    Listed N (Function.update c a v) head tail xs := by
  refine h.congr fun y hy => ?_
  have hne := field_ne_anchor (hx y hy)
  have h1 : y ≠ a := by rcases ha with rfl | rfl <;> omega
  have h2 : y + 8 ≠ a := by rcases ha with rfl | rfl <;> omega
  rw [Function.update_of_ne h1, Function.update_of_ne h2]
  exact ⟨rfl, rfl⟩

/-- The list and its contents after the segment `hi` was merged into the segment `lo` below it. -/
structure Merges (G : Nat) (N : Set Nat) (c c' : Nat → Nat) (l' : FreeList σ) (lo hi : Segment)
    (segs segs' : List Segment) : Prop where
  holds : Holds G N c' l'.head l'.tail segs'
  merged : Segment.mk lo.base (lo.size + hi.size) ∈ segs'
  others : ∀ k ∈ segs', k = ⟨lo.base, lo.size + hi.size⟩ ∨ k ∈ segs ∧ k ≠ lo ∧ k ≠ hi
  shorter : segs'.length < segs.length
  covered_eq : covered segs' = covered segs
  frame : ∀ a, a ∉ covered segs → c' a = c a

/-- One round of `JoinAdjacent`: the lower of two adjacent segments takes the bytes of the upper
one, whose node is unlinked. -/
theorem merge_spec (hV : V.Simulates (headers N) R) (hG : 32 ≤ G) (hR : R l.mem c)
    (h : Holds G N c l.head l.tail segs) (hlo : lo ∈ segs) (hhi : hi ∈ segs)
    (hadj : lo.base + lo.size = hi.base) :
    ∃ s₁ l' c' segs', setSize V l.mem lo.base (lo.size + hi.size) = some s₁ ∧
      erase V { l with mem := s₁ } hi.base = some l' ∧
      eraseAt V { l with mem := s₁ } hi.base = some l' ∧ R l'.mem c' ∧
      Merges G N c c' l' lo hi segs segs' := by
  have hflo := h.fits lo hlo
  have hfhi := h.fits hi hhi
  have hne : lo ≠ hi := by
    rintro rfl
    have := hflo.size_pos
    omega
  obtain ⟨xs, ys, rfl⟩ := List.append_of_mem hhi
  have hlo' : lo ∈ xs ++ ys := by
    simp only [List.mem_append, List.mem_cons] at hlo ⊢
    tauto
  obtain ⟨us, vs, huv⟩ := List.append_of_mem hlo'
  have hap := (List.pairwise_middle fun h => h.symm).1 h.apart
  rw [List.pairwise_cons, huv, List.pairwise_middle fun h => h.symm, List.pairwise_cons] at hap
  obtain ⟨hhia, hloa, huvp⟩ := hap
  have hold : ∀ k ∈ us ++ vs, k ∈ xs ++ hi :: ys := by
    intro k hk
    have : k ∈ xs ++ ys := by
      rw [huv]
      simp only [List.mem_append, List.mem_cons] at hk ⊢
      tauto
    simp only [List.mem_append, List.mem_cons] at this ⊢
    tauto
  have hfar : ∀ x ∈ (xs ++ hi :: ys).map Segment.base, lo.base = x ∨ Clear lo.base x := by
    intro x hx
    by_cases e : lo.base = x
    · exact .inl e
    · exact .inr (h.listed.apart.forall (List.mem_map_of_mem hlo) hx e)
  obtain ⟨s₁, hs₁, hR₁⟩ := setSize_eq hV hR hflo.node (lo.size + hi.size)
  have hlisted : Listed N (Function.update c (lo.base + 24) (lo.size + hi.size)) l.head l.tail
      (xs.map Segment.base ++ hi.base :: ys.map Segment.base) := by
    simpa using h.listed.update_field hfar (.inr rfl)
  have herase := erase_eq_eraseAt (l := { l with mem := s₁ }) hV hR₁ hlisted
  obtain ⟨l', c', hl', hR', hlist, hsame⟩ := eraseAt_spec (l := { l with mem := s₁ }) hV hR₁ hlisted
  obtain ⟨g, hg⟩ : ∃ g : Segment, g = ⟨lo.base, lo.size + hi.size⟩ := ⟨_, rfl⟩
  have hgb : g.base = lo.base := by rw [hg]
  have hgs : g.size = lo.size + hi.size := by rw [hg]
  have hmap : xs.map Segment.base ++ ys.map Segment.base = (us ++ g :: vs).map Segment.base := by
    rw [← List.map_append, huv]
    simp [hgb]
  rw [hmap] at hlist hsame
  have hmem : ∀ k, k ∈ us ++ g :: vs ↔ k = g ∨ k ∈ us ++ vs := by
    intro k
    simp only [List.mem_append, List.mem_cons]
    tauto
  have hcov : covered (us ++ g :: vs) = covered (xs ++ hi :: ys) := by
    ext b
    have hall : ∀ k, k ∈ xs ++ hi :: ys ↔ k = hi ∨ k = lo ∨ k ∈ us ++ vs := by
      intro k
      have : k ∈ xs ++ hi :: ys ↔ k = hi ∨ k ∈ xs ++ ys := by
        simp only [List.mem_append, List.mem_cons]
        tauto
      rw [this, huv]
      simp only [List.mem_append, List.mem_cons]
      tauto
    simp only [mem_covered, hmem, hall]
    constructor
    · rintro ⟨k, rfl | hk, hb⟩
      · by_cases hlt : b < hi.base
        · exact ⟨lo, .inr (.inl rfl), by omega⟩
        · exact ⟨hi, .inl rfl, by omega⟩
      · exact ⟨k, .inr (.inr hk), hb⟩
    · rintro ⟨k, rfl | rfl | hk, hb⟩
      · exact ⟨g, .inl rfl, by omega⟩
      · exact ⟨g, .inl rfl, by omega⟩
      · exact ⟨k, .inr hk, hb⟩
  have hfits : ∀ k ∈ us ++ g :: vs, k.Fits G N := by
    intro k hk
    rcases (hmem k).1 hk with rfl | hk
    · refine ⟨hgb ▸ hflo.node, hgb ▸ hflo.pos, ?_, ?_, ?_⟩
      · have := hflo.size_pos
        omega
      · rw [hgs]
        exact Nat.dvd_add hflo.granule hfhi.granule
      · have := hfhi.top
        omega
    · exact h.fits k (hold k hk)
  refine ⟨s₁, l', c', us ++ g :: vs, hs₁, herase.trans hl', hl', hR', ?_, hg ▸ by simp, ?_, ?_, hcov, ?_⟩
  · refine Holds.of_listed hlist hsame ?_ ?_ hfits ?_
    · intro k hk
      rcases (hmem k).1 hk with rfl | hk
      · rw [Function.update_of_ne (by omega), hgb]
        exact h.base lo hlo
      · have hk' := hold k hk
        have := hloa k hk
        have := (h.fits k hk').header hG
        have := hflo.header hG
        unfold Segment.Apart at *
        rw [Function.update_of_ne (by omega)]
        exact h.base k hk'
    · intro k hk
      rcases (hmem k).1 hk with rfl | hk
      · rw [hgb, Function.update_self, hgs]
      · have hk' := hold k hk
        have := hloa k hk
        have := (h.fits k hk').header hG
        have := hflo.header hG
        unfold Segment.Apart at *
        rw [Function.update_of_ne (by omega)]
        exact h.size k hk'
    · rw [List.pairwise_middle fun h => h.symm, List.pairwise_cons]
      refine ⟨?_, huvp⟩
      intro k hk
      have h1 := hloa k hk
      have h2 := hhia k (by
        simp only [List.mem_append, List.mem_cons] at hk ⊢
        tauto)
      have := (h.fits k (hold k hk)).size_pos
      unfold Segment.Apart at *
      omega
  · intro k hk
    refine ((hmem k).1 hk).imp (hg ▸ ·) fun hk => ⟨hold k hk, ?_, ?_⟩
    · rintro rfl
      have := hloa k hk
      have := hflo.size_pos
      unfold Segment.Apart at *
      omega
    · rintro rfl
      have := hhia k (by
        simp only [List.mem_append, List.mem_cons] at hk ⊢
        tauto)
      have := hfhi.size_pos
      unfold Segment.Apart at *
      omega
  · have : (xs ++ ys).length = (us ++ lo :: vs).length := by rw [huv]
    simp only [List.length_append, List.length_cons] at this ⊢
    omega
  · intro a ha
    rw [hsame.frame hG hfits (hcov ▸ ha), Function.update_of_ne]
    rintro rfl
    have := hflo.header hG
    exact ha ⟨lo, hlo, by omega⟩

/-- The end of a segment, taken modulo the word size, is the base of another one only where the
two are adjacent: no segment starts at null. -/
theorem adjacent_of_mod {k : Segment} (hg : g.Fits G N) (hk : k.Fits G N)
    (e : k.base = (g.base + g.size) % wordSize) : g.base + g.size = k.base := by
  have := hg.top
  have := hk.pos
  rcases Nat.lt_or_ge (g.base + g.size) wordSize with hlt | hge
  · rw [Nat.mod_eq_of_lt hlt] at e
    exact e.symm
  · have hws : g.base + g.size = wordSize := by omega
    rw [hws, Nat.mod_self] at e
    omega

/-- The sum of two adjacent sizes is a word. -/
theorem size_add_lt (hlo : lo.Fits G N) (hhi : hi.Fits G N) (hadj : lo.base + lo.size = hi.base) :
    lo.size + hi.size < wordSize := by
  have := hlo.pos
  have := hhi.top
  omega

/-- What a change of the list may have done: the segments cover `cov`, and nothing outside of
`cov` was written. -/
structure Covers (G : Nat) (N : Set Nat) (c c' : Nat → Nat) (l' : FreeList σ) (cov : Set Nat)
    (segs' : List Segment) : Prop where
  holds : Holds G N c' l'.head l'.tail segs'
  covered_eq : covered segs' = cov
  frame : ∀ a, a ∉ cov → c' a = c a

/-- A merge, and what is done after it. -/
theorem Covers.trans {c₁ c' : Nat → Nat} {l₁ l' : FreeList σ} {segs₁ segs' : List Segment}
    (h : Covers G N c₁ c' l' (covered segs₁) segs') (hm : Merges G N c c₁ l₁ lo hi segs segs₁) :
    Covers G N c c' l' (covered segs) segs' where
  holds := h.holds
  covered_eq := h.covered_eq.trans hm.covered_eq
  frame a ha := by rw [h.frame a (hm.covered_eq ▸ ha), hm.frame a ha]

/-- `JoinAdjacent` ends, and covers the same bytes with fewer segments. -/
theorem joinAdjacentLoop_spec (hV : V.Simulates (headers N) R) (hG : 32 ≤ G) {fuel : Nat}
    (hfuel : segs.length < fuel) (hR : R l.mem c) (h : Holds G N c l.head l.tail segs)
    (hg : g ∈ segs) :
    ∃ l' c' segs', joinAdjacentLoop V fuel l g.base = some l' ∧ R l'.mem c' ∧
      Covers G N c c' l' (covered segs) segs' := by
  induction fuel generalizing l c segs g with
  | zero => omega
  | succ fuel ih =>
    have hfg := h.fits g hg
    obtain ⟨p, hp⟩ : ∃ p : Nat → Bool, p = fun x => c (x + 16) == (g.base + g.size) % wordSize ||
      (c (x + 16) + c (x + 24)) % wordSize == g.base := ⟨_, rfl⟩
    have hseek : seek V l (touches V l.mem g.base ((g.base + g.size) % wordSize)) =
        some (((segs.map Segment.base).find? p).getD 0) := by
      refine seek_spec hV hR h.listed ?_
      intro x hx
      have hxN := (h.listed.node x hx).1
      simp [touches, getBase_eq hV hR hxN, getSize_eq hV hR hxN, hp]
    have hbase := getBase_eq hV hR hfg.node
    have hsize := getSize_eq hV hR hfg.node
    rw [h.base g hg] at hbase
    rw [h.size g hg] at hsize
    rw [joinAdjacentLoop]
    simp only [hbase, hsize, hseek, Option.bind_eq_bind, Option.bind_some]
    cases hfind : (segs.map Segment.base).find? p with
    | none =>
      exact ⟨l, c, segs, by simp, hR, h, rfl, fun _ _ => rfl⟩
    | some x =>
      obtain ⟨k, hk, rfl⟩ := List.mem_map.1 (List.mem_of_find?_eq_some hfind)
      have hfk := h.fits k hk
      have hpk := List.find?_some hfind
      simp only [hp, h.base k hk, h.size k hk, Bool.or_eq_true, beq_iff_eq] at hpk
      have hkbase := getBase_eq hV hR hfk.node
      have hksize := getSize_eq hV hR hfk.node
      rw [h.base k hk] at hkbase
      rw [h.size k hk] at hksize
      simp only [Option.getD_some, hfk.pos.ne', if_false, hkbase, hksize, Option.bind_some]
      by_cases hend : k.base = (g.base + g.size) % wordSize
      · have hadj := adjacent_of_mod hfg hfk hend
        obtain ⟨s₁, l₁, c₁, segs₁, hs₁, hl₁, -, hR₁, hm⟩ := merge_spec hV hG hR h hg hk hadj
        have hlen := hm.shorter
        obtain ⟨l', c', segs', hl', hR', hc'⟩ := ih (by omega) hR₁ hm.holds hm.merged
        refine ⟨l', c', segs', ?_, hR', hc'.trans hm⟩
        rw [if_pos hend, Nat.mod_eq_of_lt (size_add_lt hfg hfk hadj), hs₁, Option.bind_some,
          hl₁, Option.bind_some, hl']
      · have hadj := adjacent_of_mod hfk hfg (hpk.resolve_left hend).symm
        obtain ⟨s₁, l₁, c₁, segs₁, hs₁, hl₁, -, hR₁, hm⟩ := merge_spec hV hG hR h hk hg hadj
        have hlen := hm.shorter
        obtain ⟨l', c', segs', hl', hR', hc'⟩ := ih (by omega) hR₁ hm.holds hm.merged
        refine ⟨l', c', segs', ?_, hR', hc'.trans hm⟩
        rw [if_neg hend, Nat.mod_eq_of_lt (size_add_lt hfk hfg hadj), hs₁, Option.bind_some,
          hl₁, Option.bind_some, hl']

theorem joinAdjacent_spec (hV : V.Simulates (headers N) R) (hG : 32 ≤ G) (hR : R l.mem c)
    (h : Holds G N c l.head l.tail segs) (hg : g ∈ segs) :
    ∃ l' c' segs', joinAdjacent V l g.base = some l' ∧ R l'.mem c' ∧
      Covers G N c c' l' (covered segs) segs' := by
  have hlen := h.listed.length_lt
  rw [List.length_map] at hlen
  exact joinAdjacentLoop_spec hV hG hlen hR h hg

/-- The contents after a block was given its header. -/
def withHeader (c : Nat → Nat) (g : Segment) : Nat → Nat :=
  Function.update (Function.update c (g.base + 16) g.base) (g.base + 24) g.size

/-- The header of a block apart from the segments is apart from their nodes, and giving it to the block
keeps the links. -/
theorem Holds.with_header (hG : 32 ≤ G) (h : Holds G N c head tail segs) (hg : g.Fits G N)
    (hap : ∀ k ∈ segs, g.Apart k) :
    (∀ x ∈ segs.map Segment.base, Clear x g.base) ∧
      Listed N (withHeader c g) head tail (segs.map Segment.base) := by
  have hclear : ∀ x ∈ segs.map Segment.base, Clear x g.base := by
    intro x hx
    obtain ⟨k, hk, rfl⟩ := List.mem_map.1 hx
    have := hap k hk
    have := (h.fits k hk).header hG
    have := hg.header hG
    unfold Segment.Apart at *
    unfold Clear
    omega
  have hfar : ∀ x ∈ segs.map Segment.base, g.base = x ∨ Clear g.base x :=
    fun x hx => .inr (hclear x hx).symm
  exact ⟨hclear, (h.listed.update_field hfar (.inl rfl)).update_field hfar (.inr rfl)⟩

/-- A block with its header whose node was linked in behind the others is the last segment. -/
theorem Holds.appended {c' : Nat → Nat} {l' : FreeList σ} (hG : 32 ≤ G)
    (h : Holds G N c head tail segs) (hg : g.Fits G N) (hap : ∀ k ∈ segs, g.Apart k)
    (hlist : Listed N c' l'.head l'.tail (segs.map Segment.base ++ [g.base]))
    (hsame : SameBut (segs.map Segment.base ++ [g.base]) (withHeader c g) c') :
    Covers G N c c' l' (covered (segs ++ [g])) (segs ++ [g]) := by
  have hclear := (h.with_header hG hg hap).1
  have hmap : segs.map Segment.base ++ [g.base] = (segs ++ [g]).map Segment.base := by simp
  rw [hmap] at hlist hsame
  have hfits : ∀ k ∈ segs ++ [g], k.Fits G N := by
    intro k hk
    rw [List.mem_append, List.mem_singleton] at hk
    rcases hk with hk | rfl
    · exact h.fits k hk
    · exact hg
  have hword : ∀ k ∈ segs, ∀ j, j < 32 → k.base + j ≠ g.base + 16 ∧ k.base + j ≠ g.base + 24 := by
    intro k hk j hj
    have := hclear k.base (List.mem_map_of_mem hk)
    unfold Clear at this
    omega
  refine ⟨?_, rfl, ?_⟩
  · refine Holds.of_listed hlist hsame ?_ ?_ hfits ?_
    · intro k hk
      rw [List.mem_append, List.mem_singleton] at hk
      unfold withHeader
      rcases hk with hk | rfl
      · obtain ⟨h1, h2⟩ := hword k hk 16 (by omega)
        rw [Function.update_of_ne h2, Function.update_of_ne h1, h.base k hk]
      · rw [Function.update_of_ne (by omega), Function.update_self]
    · intro k hk
      rw [List.mem_append, List.mem_singleton] at hk
      unfold withHeader
      rcases hk with hk | rfl
      · obtain ⟨h1, h2⟩ := hword k hk 24 (by omega)
        rw [Function.update_of_ne h2, Function.update_of_ne h1, h.size k hk]
      · rw [Function.update_self]
    · rw [List.pairwise_append]
      refine ⟨h.apart, by simp, ?_⟩
      intro k hk j hj
      rw [List.mem_singleton] at hj
      exact hj ▸ (hap k hk).symm
  · intro a ha
    have hh := hg.header hG
    have h1 : a ≠ g.base + 16 := by
      rintro rfl
      exact ha ⟨g, by simp, by omega⟩
    have h2 : a ≠ g.base + 24 := by
      rintro rfl
      exact ha ⟨g, by simp, by omega⟩
    rw [hsame.frame hG hfits ha, withHeader, Function.update_of_ne h2, Function.update_of_ne h1]

/-- Giving a header to a block apart from the segments and appending it. -/
theorem append_spec (hV : V.Simulates (headers N) R) (hG : 32 ≤ G) (hR : R l.mem c)
    (h : Holds G N c l.head l.tail segs) (hg : g.Fits G N) (hap : ∀ k ∈ segs, g.Apart k) :
    ∃ s₁ s₂ l' c', setBase V l.mem g.base g.base = some s₁ ∧
      setSize V s₁ g.base g.size = some s₂ ∧
      pushBack V { l with mem := s₂ } g.base = some l' ∧ R l'.mem c' ∧
      Covers G N c c' l' (covered (segs ++ [g])) (segs ++ [g]) := by
  obtain ⟨s₁, hs₁, hR₁⟩ := setBase_eq hV hR hg.node g.base
  obtain ⟨s₂, hs₂, hR₂⟩ := setSize_eq hV hR₁ hg.node g.size
  obtain ⟨hclear, hlist⟩ := h.with_header hG hg hap
  obtain ⟨l', c', hl', hR', hlist', hsame⟩ := pushBack_spec (l := { l with mem := s₂ }) hV hR₂
    hlist hg.node hg.base_lt hg.pos.ne' hclear
  exact ⟨s₁, s₂, l', c', hs₁, hs₂, hl', hR', h.appended hG hg hap hlist' hsame⟩

/-! ## The operations -/

theorem covered_append_singleton : covered (segs ++ [g]) =
    covered segs ∪ Set.Ico g.base (g.base + g.size) := by
  ext b
  simp only [mem_covered, List.mem_append, List.mem_singleton, Set.mem_union, Set.mem_Ico]
  constructor
  · rintro ⟨k, hk | rfl, hb⟩
    · exact .inl ⟨k, hk, hb⟩
    · exact .inr hb
  · rintro (⟨k, hk, hb⟩ | hb)
    · exact ⟨k, .inl hk, hb⟩
    · exact ⟨g, .inr rfl, hb⟩

/-- **`MarkFree`** adds the bytes of the block to the free ones. -/
theorem markFree_spec (hV : V.Simulates (headers N) R) (hG : 32 ≤ G) (hR : R l.mem c)
    (h : Holds G N c l.head l.tail segs) (hg : g.Fits G N) (hap : ∀ k ∈ segs, g.Apart k) :
    ∃ l' c' segs', markFree V l g.base g.size = some l' ∧ R l'.mem c' ∧
      Covers G N c c' l' (covered segs ∪ Set.Ico g.base (g.base + g.size)) segs' := by
  obtain ⟨s₁, s₂, l₁, c₁, hs₁, hs₂, hl₁, hR₁, hc₁⟩ := append_spec hV hG hR h hg hap
  obtain ⟨l', c', segs', hl', hR', hc'⟩ := joinAdjacent_spec hV hG hR₁ hc₁.holds
    (g := g) (by simp)
  refine ⟨l', c', segs', ?_, hR', hc'.holds, ?_, ?_⟩
  · simp [markFree, hs₁, hs₂, hl₁, hl']
  · rw [hc'.covered_eq, covered_append_singleton]
  · intro a ha
    rw [← covered_append_singleton] at ha
    rw [hc'.frame a ha, hc₁.frame a ha]

/-- **`FindFree`** gives the first segment with enough room, or null. -/
theorem findFree_spec (hV : V.Simulates (headers N) R) (hR : R l.mem c)
    (h : Holds G N c l.head l.tail segs) (n : Nat) :
    findFree V l n = some (((segs.find? fun g => n ≤ g.size).map Segment.base).getD 0) := by
  have hseek : findFree V l n =
      some (((segs.map Segment.base).find? fun x => decide (n ≤ c (x + 24))).getD 0) := by
    refine seek_spec hV hR h.listed ?_
    intro x hx
    simp [getSize_eq hV hR (h.listed.node x hx).1]
  rw [hseek, List.find?_map]
  rw [List.find?_congr fun g hg => by rw [Function.comp_apply, h.size g hg]]

/-- What is left of a segment whose first `n` bytes are taken. -/
def leftover (g : Segment) (n : Nat) : List Segment :=
  if n < g.size then [⟨g.base + n, g.size - n⟩] else []

/-- `MarkUsed` takes the segment off the list and appends what is left of it, which is then joined with its
neighbours. -/
theorem markUsed_eq (hV : V.Simulates (headers N) R) (hG : 32 ≤ G) (hR : R l.mem c)
    (h : Holds G N c l.head l.tail (xs ++ g :: ys)) (hn : 0 < n) (hle : n ≤ g.size)
    (hdvd : G ∣ n) (hnode : n < g.size → g.base + n ∈ N) :
    ∃ l' c', R l'.mem c' ∧
      Covers G N c c' l' (covered (xs ++ g :: ys) \ Set.Ico g.base (g.base + n)) (xs ++ ys ++ leftover g n) ∧
      markUsed V l g.base n = if n < g.size then joinAdjacent V l' (g.base + n) else some l' := by
  have hg : g ∈ xs ++ g :: ys := by simp
  have hfg := h.fits g hg
  have hh := hfg.header hG
  have hn32 : 32 ≤ n := hG.trans (Nat.le_of_dvd hn hdvd)
  have hlisted := h.listed
  rw [List.map_append, List.map_cons] at hlisted
  obtain ⟨l₁, c₁, hl₁, hR₁, hlist, hsame⟩ := erase_spec hV hR hlisted
  rw [← List.map_append] at hlist hsame
  have hap := (List.pairwise_middle fun h => h.symm).1 h.apart
  rw [List.pairwise_cons] at hap
  obtain ⟨hga, hxyp⟩ := hap
  have hold : ∀ k ∈ xs ++ ys, k ∈ xs ++ g :: ys := by
    intro k hk
    simp only [List.mem_append, List.mem_cons] at hk ⊢
    tauto
  have hfits : ∀ k ∈ xs ++ ys, k.Fits G N := fun k hk => h.fits k (hold k hk)
  have h₁ : Holds G N c₁ l₁.head l₁.tail (xs ++ ys) :=
    Holds.of_listed hlist hsame (fun k hk => h.base k (hold k hk))
      (fun k hk => h.size k (hold k hk)) hfits hxyp
  -- The header of the block itself has not been written.
  have hin : ∀ j, j < g.size → g.base + j ∉ covered (xs ++ ys) := by
    rintro j hj ⟨k, hk, hb⟩
    have := hga k hk
    unfold Segment.Apart at this
    omega
  have hbase : c₁ (g.base + 16) = g.base := by
    rw [hsame.frame hG hfits (hin 16 (by omega)), h.base g hg]
  have hsize : c₁ (g.base + 24) = g.size := by
    rw [hsame.frame hG hfits (hin 24 (by omega)), h.size g hg]
  have hsplit : ∀ b, b ∈ covered (xs ++ g :: ys) ↔
      b ∈ covered (xs ++ ys) ∨ (g.base ≤ b ∧ b < g.base + g.size) := by
    intro b
    simp only [mem_covered, List.mem_append, List.mem_cons]
    constructor
    · rintro ⟨k, hk | rfl | hk, hb⟩
      · exact .inl ⟨k, .inl hk, hb⟩
      · exact .inr hb
      · exact .inl ⟨k, .inr hk, hb⟩
    · rintro (⟨k, hk, hb⟩ | hb)
      · exact ⟨k, by tauto, hb⟩
      · exact ⟨g, by tauto, hb⟩
  have hout : ∀ b, b ∈ covered (xs ++ ys) → ¬ (g.base ≤ b ∧ b < g.base + g.size) := by
    rintro b ⟨k, hk, hb⟩
    have := hga k hk
    unfold Segment.Apart at this
    omega
  by_cases hlt : n < g.size
  · obtain ⟨k, hk⟩ : ∃ k : Segment, k = ⟨g.base + n, g.size - n⟩ := ⟨_, rfl⟩
    have hkb : k.base = g.base + n := by rw [hk]
    have hks : k.size = g.size - n := by rw [hk]
    have hkf : k.Fits G N := by
      have := hfg.top
      refine ⟨hkb ▸ hnode hlt, by omega, by omega, ?_, by omega⟩
      rw [hks]
      exact Nat.dvd_sub hfg.granule hdvd
    have hka : ∀ j ∈ xs ++ ys, k.Apart j := by
      intro j hj
      have := hga j hj
      unfold Segment.Apart at *
      omega
    obtain ⟨s₁, s₂, l₂, c₂, hs₁, hs₂, hl₂, hR₂, hc₂⟩ := append_spec hV hG hR₁ h₁ hkf hka
    have hcov : covered (xs ++ ys ++ [k]) =
        covered (xs ++ g :: ys) \ Set.Ico g.base (g.base + n) := by
      ext b
      rw [covered_append_singleton, Set.mem_union, Set.mem_sdiff, hsplit, Set.mem_Ico, Set.mem_Ico]
      have := hout b
      constructor
      · rintro (hb | hb)
        · exact ⟨.inl hb, by have := this hb; omega⟩
        · exact ⟨.inr (by omega), by omega⟩
      · rintro ⟨hb | hb, hnb⟩
        · exact .inl hb
        · exact .inr (by omega)
    have hleft : leftover g n = [k] := by rw [leftover, if_pos hlt, hk]
    rw [hleft]
    refine ⟨l₂, c₂, hR₂, ⟨hc₂.holds, hcov, fun a ha => ?_⟩, ?_⟩
    · rw [← hcov] at ha
      have ha' : a ∉ covered (xs ++ ys) := by
        intro hb
        rw [covered_append_singleton] at ha
        exact ha (.inl hb)
      rw [hc₂.frame a ha, hsame.frame hG hfits ha']
    · have hnew : (g.base + n) % wordSize = k.base := by
        rw [hkb, Nat.mod_eq_of_lt]
        have := hfg.top
        omega
      have hrest : (g.size + wordSize - n) % wordSize = k.size := by
        have hlt' := hfg.top
        have := hfg.pos
        have hsum : g.size + wordSize - n = k.size + wordSize := by omega
        rw [hsum, Nat.add_mod_right, Nat.mod_eq_of_lt (by omega)]
      obtain ⟨s₁', hs₁', hRs₁⟩ := setBase_eq hV hR₁ hkf.node k.base
      obtain rfl : s₁ = s₁' := by
        rw [hs₁] at hs₁'
        exact Option.some.inj hs₁'
      have hagain := getSize_eq hV hRs₁ hfg.node
      rw [Function.update_of_ne (by omega), hsize] at hagain
      rw [if_pos hlt, ← hkb]
      simp [markUsed, hl₁, getSize_eq hV hR₁ hfg.node, getBase_eq hV hR₁ hfg.node, hsize, hbase,
        hlt, hnew, hs₁, hagain, hrest, hs₂, hl₂]
  · have hcov : covered (xs ++ ys) = covered (xs ++ g :: ys) \ Set.Ico g.base (g.base + n) := by
      ext b
      rw [Set.mem_sdiff, hsplit, Set.mem_Ico]
      have := hout b
      constructor
      · intro hb
        exact ⟨.inl hb, by have := this hb; omega⟩
      · rintro ⟨hb | hb, hnb⟩
        · exact hb
        · omega
    have hleft : leftover g n = [] := if_neg hlt
    rw [hleft, List.append_nil]
    refine ⟨l₁, c₁, hR₁, ⟨h₁, hcov, fun a ha => hsame.frame hG hfits (hcov ▸ ha)⟩, ?_⟩
    simp [markUsed, hl₁, getSize_eq hV hR₁ hfg.node, hsize, hlt]

/-- **`MarkUsed`** takes the first `n` bytes of a segment out of the free ones. -/
theorem markUsed_spec (hV : V.Simulates (headers N) R) (hG : 32 ≤ G) (hR : R l.mem c)
    (h : Holds G N c l.head l.tail segs) (hg : g ∈ segs) (hn : 0 < n) (hle : n ≤ g.size)
    (hdvd : G ∣ n) (hnode : n < g.size → g.base + n ∈ N) :
    ∃ l' c' segs', markUsed V l g.base n = some l' ∧ R l'.mem c' ∧
      Covers G N c c' l' (covered segs \ Set.Ico g.base (g.base + n)) segs' := by
  obtain ⟨xs, ys, rfl⟩ := List.append_of_mem hg
  obtain ⟨l₁, c₁, hR₁, hc₁, hused⟩ := markUsed_eq hV hG hR h hn hle hdvd hnode
  by_cases hlt : n < g.size
  · rw [if_pos hlt] at hused
    obtain ⟨l', c', segs', hl', hR', hc'⟩ := joinAdjacent_spec hV hG hR₁ hc₁.holds
      (g := ⟨g.base + n, g.size - n⟩) (by simp [leftover, hlt])
    rw [hc₁.covered_eq] at hc'
    exact ⟨l', c', segs', hused.trans hl', hR', hc'.holds, hc'.covered_eq,
      fun a ha => by rw [hc'.frame a ha, hc₁.frame a ha]⟩
  · rw [if_neg hlt] at hused
    exact ⟨l₁, c₁, _, hused, hR₁, hc₁⟩

end Segments

end ChenixOS.FreeList
