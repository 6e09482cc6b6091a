import ChenixOS.Memory.FreeListProof

/-!
# The free list of the C library

`libs/libc/internal/FreeList.h`. The list of the kernel, with the same four words in front of each free
segment, but without an intrusive list behind it: `MarkUsed` puts the rest of a segment into the place of
the segment in the list, and nothing that was split is merged again.

**Coalesced.** `MarkFree` merges until no neighbour is left, and `MarkUsed` creates none, so no two free
segments are ever adjacent.
-/

namespace ChenixOS.Libc

open FreeList Links

section Model

variable {σ : Type} (V : View σ)

/-- The same statements as those of `erase` in the list of the kernel. -/
def removeNode (l : FreeList σ) (node : Nat) : Option (FreeList σ) := eraseAt V l node

def addNode (l : FreeList σ) (node : Nat) : Option (FreeList σ) :=
  if l.head = 0 then do
    let mem ← setPrev V l.mem node 0
    let mem ← setNext V mem node 0
    some { mem := mem, head := node, tail := node }
  else do
    let mem ← setNext V l.mem l.tail node
    let mem ← setPrev V mem node l.tail
    let mem ← setNext V mem node 0
    some { mem := mem, head := l.head, tail := node }

/-- Merge the segment at `cmp` with a neighbour, as long as it has one. -/
def joinAdjacentLoop : Nat → FreeList σ → Nat → Option (FreeList σ)
  | 0, _, _ => none
  | fuel + 1, l, cmp => do
    let start ← getBase V l.mem cmp
    let size ← getSize V l.mem cmp
    let «end» := (start + size) % wordSize
    let tmp ← seek V l (touches V l.mem start «end»)
    if tmp = 0 then
      some l
    else
      let base ← getBase V l.mem tmp
      let tmpSize ← getSize V l.mem tmp
      if base = «end» then
        let mem ← setSize V l.mem cmp ((size + tmpSize) % wordSize)
        let l ← removeNode V { l with mem := mem } tmp
        joinAdjacentLoop fuel l cmp
      else
        let mem ← setSize V l.mem tmp ((tmpSize + size) % wordSize)
        let l ← removeNode V { l with mem := mem } cmp
        joinAdjacentLoop fuel l tmp

def joinAdjacent (l : FreeList σ) (cmp : Nat) : Option (FreeList σ) :=
  joinAdjacentLoop V walkLimit l cmp

def markFree (l : FreeList σ) (base size : Nat) : Option (FreeList σ) := do
  let mem ← setBase V l.mem base base
  let mem ← setSize V mem base size
  let l ← addNode V { l with mem := mem } base
  joinAdjacent V l base

/-- In `MarkUsed`: the header of the rest of a segment, with the links of the segment. -/
def copyHeader (s : σ) (node newNode size : Nat) : Option σ := do
  let next ← getNext V s node
  let s ← setNext V s newNode next
  let prev ← getPrev V s node
  let s ← setPrev V s newNode prev
  let base ← getBase V s node
  let s ← setBase V s newNode ((base + size) % wordSize)
  let nodeSize ← getSize V s node
  setSize V s newNode ((nodeSize + wordSize - size) % wordSize)

/-- In `MarkUsed`: what comes before the node points at the new one. -/
def relinkForward (l : FreeList σ) (node newNode : Nat) : Option (FreeList σ) := do
  let prev ← getPrev V l.mem node
  if prev ≠ 0 then (setNext V l.mem prev newNode).map fun mem => { l with mem := mem }
  else some { l with head := newNode }

/-- In `MarkUsed`: what comes after the node points back at the new one. -/
def relinkBackward (l : FreeList σ) (node newNode : Nat) : Option (FreeList σ) := do
  let next ← getNext V l.mem node
  if next ≠ 0 then (setPrev V l.mem next newNode).map fun mem => { l with mem := mem }
  else some { l with tail := newNode }

def markUsed (l : FreeList σ) (base size : Nat) : Option (FreeList σ) := do
  let nodeSize ← getSize V l.mem base
  if size < nodeSize then
    let newNode := (base + size) % wordSize
    let mem ← copyHeader V l.mem base newNode size
    let l ← relinkForward V { l with mem := mem } base newNode
    relinkBackward V l base newNode
  else
    removeNode V l base

end Model

/-! ## Linking -/

section Anchors

variable {σ : Type} {V : View σ} {R : σ → (Nat → Nat) → Prop} {N : Set Nat}
  {l : FreeList σ} {c : Nat → Nat} {t x : Nat} {xs ys : List Nat}

/-- `AddNode` links the node in as the last one. -/
theorem addNode_spec (hV : V.Simulates (headers N) R) (hR : R l.mem c)
    (h : Listed N c l.head l.tail xs) (ht : t ∈ N) (hlt : t < wordSize) (h0 : t ≠ 0)
    (hap : ∀ x ∈ xs, Clear x t) :
    ∃ l' c', addNode V l t = some l' ∧ R l'.mem c' ∧
      Listed N c' l'.head l'.tail (xs ++ [t]) ∧ SameBut (xs ++ [t]) c c' := by
  by_cases hx : xs = []
  · have htail : l.tail = 0 := by rw [h.tail_eq]; simp [hx]
    obtain ⟨s₁, hs₁, hR₁⟩ := setPrev_eq hV hR ht 0
    obtain ⟨s₂, hs₂, hR₂⟩ := setNext_eq hV hR₁ ht 0
    have hc : ∀ a, Function.update (Function.update c (t + 8) 0) t 0 a =
        if a = l.tail ∧ xs ≠ [] then t else if a = t + 8 then l.tail else if a = t then 0 else c a := by
      intro a
      by_cases ha : a = t
      · simp [ha, hx]
      · simp [ha, hx, htail, Function.update_apply]
    have hlink := h.link_last ht hlt h0 hap hc
    rw [if_pos hx] at hlink
    refine ⟨⟨s₂, t, t⟩, _, ?_, hR₂, hlink⟩
    simp [addNode, hs₁, hs₂, h.head_eq_zero_iff.2 hx]
  · have htm := h.tail_mem hx
    have hne : l.tail ≠ t ∧ l.tail ≠ t + 8 := by
      have := hap _ htm
      unfold Clear at this
      omega
    obtain ⟨s₁, hs₁, hR₁⟩ := setNext_eq hV hR (h.node _ htm).1 t
    obtain ⟨s₂, hs₂, hR₂⟩ := setPrev_eq hV hR₁ ht l.tail
    obtain ⟨s₃, hs₃, hR₃⟩ := setNext_eq hV hR₂ ht 0
    have hc : ∀ a,
        Function.update (Function.update (Function.update c l.tail t) (t + 8) l.tail) t 0 a =
        if a = l.tail ∧ xs ≠ [] then t else if a = t + 8 then l.tail else if a = t then 0 else c a := by
      intro a
      by_cases ha : a = t
      · simp [ha, hne.1.symm]
      · by_cases ha8 : a = t + 8
        · simp [ha8, hne.2.symm]
        · simp [ha, ha8, hx, Function.update_apply]
    have hlink := h.link_last ht hlt h0 hap hc
    rw [if_neg hx] at hlink
    refine ⟨⟨s₃, l.head, t⟩, _, ?_, hR₃, hlink⟩
    simp [addNode, hs₁, hs₂, hs₃, h.head_eq_zero_iff, hx]

/-- The contents after the header of the node at `t` was copied for the rest `k` of its segment. -/
def splitHeader (c : Nat → Nat) (t : Nat) (k : Segment) : Nat → Nat :=
  withHeader (Function.update (Function.update c k.base (c t)) (k.base + 8) (c (t + 8))) k

theorem splitHeader_eq {k : Segment} {a : Nat} (h : a < k.base ∨ k.base + 32 ≤ a) :
    splitHeader c t k a = c a := by
  have h1 : a ≠ k.base + 24 := by omega
  have h2 : a ≠ k.base + 16 := by omega
  have h3 : a ≠ k.base + 8 := by omega
  have h4 : a ≠ k.base := by omega
  rw [splitHeader, withHeader, Function.update_of_ne h1, Function.update_of_ne h2,
    Function.update_of_ne h3, Function.update_of_ne h4]

/-- Copying the header to a node behind it. -/
theorem copyHeader_spec (hV : V.Simulates (headers N) R) {s : σ} (hR : R s c) (ht : t ∈ N) {k : Segment}
    (hk : k.base ∈ N) {size : Nat} (hclear : t + 32 ≤ k.base)
    (hbase : (c (t + 16) + size) % wordSize = k.base)
    (hsize : (c (t + 24) + wordSize - size) % wordSize = k.size) :
    ∃ s', copyHeader V s t k.base size = some s' ∧ R s' (splitHeader c t k) := by
  obtain ⟨s₁, hs₁, hR₁⟩ := setNext_eq hV hR hk (c t)
  obtain ⟨s₂, hs₂, hR₂⟩ := setPrev_eq hV hR₁ hk (c (t + 8))
  obtain ⟨s₃, hs₃, hR₃⟩ := setBase_eq hV hR₂ hk k.base
  obtain ⟨s₄, hs₄, hR₄⟩ := setSize_eq hV hR₃ hk k.size
  have hprev := getPrev_eq hV hR₁ ht
  have hbase' := getBase_eq hV hR₂ ht
  have hsize' := getSize_eq hV hR₃ ht
  -- the words of the old header lie below what was written
  rw [Function.update_of_ne (by omega)] at hprev
  rw [Function.update_of_ne (by omega), Function.update_of_ne (by omega)] at hbase'
  rw [Function.update_of_ne (by omega), Function.update_of_ne (by omega),
    Function.update_of_ne (by omega)] at hsize'
  refine ⟨s₄, ?_, hR₄⟩
  simp only [copyHeader, getNext_eq hV hR ht, hs₁, hprev, hs₂, hbase', hbase, hs₃, hsize', hsize, hs₄,
    Option.bind_eq_bind, Option.bind_some]

/-- Putting a node, with a copy of the links, into the place of another one. -/
theorem relink_spec (hV : V.Simulates (headers N) R) {k : Segment}
    (h : Listed N c l.head l.tail (xs ++ t :: ys)) (hR : R l.mem (splitHeader c t k))
    (hclear : t + 32 ≤ k.base) :
    ∃ l₁ l' c', relinkForward V l t k.base = some l₁ ∧ relinkBackward V l₁ t k.base = some l' ∧
      R l'.mem c' ∧
      l'.head = (if c (t + 8) = 0 then k.base else l.head) ∧
      l'.tail = (if c t = 0 then k.base else l.tail) ∧
      ∀ a, c' a = if a = c t + 8 ∧ c t ≠ 0 then k.base
        else if a = c (t + 8) ∧ c (t + 8) ≠ 0 then k.base else splitHeader c t k a := by
  have htm : t ∈ xs ++ t :: ys := by simp
  have htN := (h.node t htm).1
  obtain ⟨hpm, hqm, hfar⟩ := h.neighbours
  obtain ⟨p, hp⟩ : ∃ p, c (t + 8) = p := ⟨_, rfl⟩
  obtain ⟨q, hq⟩ : ∃ q, c t = q := ⟨_, rfl⟩
  rw [hp] at hpm
  rw [hq] at hqm
  rw [hp, hq]
  have hprev : getPrev V l.mem t = some p := by
    rw [getPrev_eq hV hR htN, splitHeader_eq (by omega), hp]
  obtain ⟨l₁, c₁, hl₁, hR₁, hh₁, ht₁, hc₁⟩ : ∃ l₁ c₁, relinkForward V l t k.base = some l₁ ∧
      R l₁.mem c₁ ∧ l₁.head = (if p = 0 then k.base else l.head) ∧ l₁.tail = l.tail ∧
      ∀ a, c₁ a = if a = p ∧ p ≠ 0 then k.base else splitHeader c t k a := by
    by_cases hp0 : p = 0
    · exact ⟨{ l with head := k.base }, _, by simp [relinkForward, hprev, hp0], hR, by simp [hp0], rfl,
        by simp [hp0]⟩
    · have hpx := hpm.resolve_left hp0
      obtain ⟨s₁, hs₁, hR₁⟩ := setNext_eq hV hR (h.node p (by simp [hpx])).1 k.base
      refine ⟨{ l with mem := s₁ }, _, by simp [relinkForward, hprev, hp0, hs₁], hR₁, by simp [hp0], rfl,
        fun a => ?_⟩
      simp [hp0, Function.update_apply]
  have hnext : getNext V l₁.mem t = some q := by
    have hne : ¬ (t = p ∧ p ≠ 0) := by
      rintro ⟨rfl, hp0⟩
      have := hfar t (by simp [hpm.resolve_left hp0])
      unfold Clear at this
      omega
    rw [getNext_eq hV hR₁ htN, hc₁, if_neg hne, splitHeader_eq (by omega), hq]
  by_cases hq0 : q = 0
  · refine ⟨l₁, { l₁ with tail := k.base }, c₁, hl₁, by simp [relinkBackward, hnext, hq0], hR₁, hh₁,
      by simp [hq0], fun a => ?_⟩
    rw [hc₁]
    simp [hq0]
  · have hqy := hqm.resolve_left hq0
    obtain ⟨s₂, hs₂, hR₂⟩ := setPrev_eq hV hR₁ (h.node q (by simp [hqy])).1 k.base
    refine ⟨l₁, { l₁ with mem := s₂ }, _, hl₁, by simp [relinkBackward, hnext, hq0, hs₂], hR₂, hh₁,
      by simp [hq0, ht₁], fun a => ?_⟩
    rw [Function.update_apply, hc₁]
    simp [hq0]

/-- The list after a node was put into the place of another one. -/
theorem listed_replace {k : Segment} {head tail head' tail' : Nat} {c' : Nat → Nat}
    (h : Listed N c head tail (xs ++ t :: ys)) (hk : k.base ∈ N) (hlt : k.base < wordSize)
    (hclear : t + 32 ≤ k.base) (hap : ∀ x ∈ xs ++ ys, Clear x k.base)
    (hhead : head' = if c (t + 8) = 0 then k.base else head)
    (htail : tail' = if c t = 0 then k.base else tail)
    (hc' : ∀ a, c' a = if a = c t + 8 ∧ c t ≠ 0 then k.base
      else if a = c (t + 8) ∧ c (t + 8) ≠ 0 then k.base else splitHeader c t k a) :
    Listed N c' head' tail' (xs ++ k.base :: ys) ∧
      SameBut (xs ++ k.base :: ys) (withHeader c k) c' := by
  have h0 : t ≠ 0 := h.ne_zero (by simp)
  obtain ⟨hpm, hqm, -⟩ := h.neighbours
  obtain ⟨p, hp⟩ : ∃ p, c (t + 8) = p := ⟨_, rfl⟩
  obtain ⟨q, hq⟩ : ∃ q, c t = q := ⟨_, rfl⟩
  rw [hp] at hpm hhead
  rw [hq] at hqm htail
  rw [hp, hq] at hc'
  have hold : ∀ x ∈ xs ++ ys, x ∈ xs ++ t :: ys := by
    intro x hx
    simp only [List.mem_append, List.mem_cons] at hx ⊢
    tauto
  have hpair : ∀ x ∈ xs ++ ys, ∀ y ∈ xs ++ ys, x ≠ y + 8 := by
    intro x hx y hy e
    have := h.apart.forall (hold x hx) (hold y hy) (by omega)
    unfold Clear at this
    omega
  have hpxy : p ≠ 0 → p ∈ xs ++ ys := fun hp0 => by simp [hpm.resolve_left hp0]
  have hqxy : q ≠ 0 → q ∈ xs ++ ys := fun hq0 => by simp [hqm.resolve_left hq0]
  have hword : ∀ j, j < 32 → ¬ (k.base + j = q + 8 ∧ q ≠ 0) ∧ ¬ (k.base + j = p ∧ p ≠ 0) := by
    intro j hj
    constructor
    · rintro ⟨e, hq0⟩
      have := hap q (hqxy hq0)
      unfold Clear at this
      omega
    · rintro ⟨e, hp0⟩
      have := hap p (hpxy hp0)
      unfold Clear at this
      omega
  have hk0 : k.base ≠ 0 := by omega
  have hkn : c' k.base = q := by
    have h1 := hword 0 (by omega)
    rw [Nat.add_zero] at h1
    rw [hc', if_neg h1.1, if_neg h1.2, splitHeader, withHeader]
    simp [hq]
  have hkp : c' (k.base + 8) = p := by
    have h1 := hword 8 (by omega)
    rw [hc', if_neg h1.1, if_neg h1.2, splitHeader, withHeader]
    simp [hp]
  have hsplit : ∀ x ∈ xs ++ ys, splitHeader c t k x = c x ∧ splitHeader c t k (x + 8) = c (x + 8) := by
    intro x hx
    have := hap x hx
    unfold Clear at this
    exact ⟨splitHeader_eq (by omega), splitHeader_eq (by omega)⟩
  refine ⟨⟨h.ring.replace ?_ ?_ ?_ ?_ ?_, ?_, ?_⟩, ?_⟩
  · rw [List.mem_cons, not_or]
    refine ⟨hk0, fun hm => ?_⟩
    have := hap k.base hm
    unfold Clear at this
    omega
  · intro x hx
    rcases List.mem_cons.1 hx with rfl | hx
    · by_cases hp0 : p = 0
      · simp [nextOf, prevOf, h0, hhead, hp, hp0]
      · simp [nextOf, prevOf, h0, hhead, hp, hp0, Ne.symm hp0]
    · have hx0 := h.ne_zero (hold x hx)
      have h1 : ¬ (x = q + 8 ∧ q ≠ 0) := fun he => hpair x hx q (hqxy he.2) he.1
      simp only [nextOf, prevOf, h0, hx0, if_false, hp, hc', h1, (hsplit x hx).1]
      by_cases hxp : x = p
      · simp [hxp, hxp ▸ hx0]
      · simp [hxp]
  · intro x hx
    rcases List.mem_cons.1 hx with rfl | hx
    · by_cases hq0 : q = 0
      · simp [nextOf, prevOf, h0, htail, hq, hq0]
      · simp [nextOf, prevOf, h0, htail, hq, hq0, Ne.symm hq0]
    · have hx0 := h.ne_zero (hold x hx)
      have h1 : ¬ (x + 8 = p ∧ p ≠ 0) := fun he => hpair p (hpxy he.2) x hx he.1.symm
      simp only [nextOf, prevOf, h0, hx0, if_false, hq, hc', h1, (hsplit x hx).2]
      by_cases hxq : x = q
      · simp [hxq, hxq ▸ hx0]
      · simp [hxq]
  · simp [nextOf, hk0, h0, hkn, hq]
  · simp [prevOf, hk0, h0, hkp, hp]
  · intro x hx
    have : x = k.base ∨ x ∈ xs ++ ys := by
      simp only [List.mem_append, List.mem_cons] at hx ⊢
      tauto
    obtain rfl | hx := this
    · exact ⟨hk, hlt⟩
    · exact h.node x (hold x hx)
  · rw [List.pairwise_middle fun h => h.symm, List.pairwise_cons]
    refine ⟨fun x hx => (hap x hx).symm, ?_⟩
    exact h.apart.sublist (by simp)
  · intro a ha
    have hak := ha k.base (by simp)
    have h1 : ¬ (a = q + 8 ∧ q ≠ 0) := by
      rintro ⟨e, hq0⟩
      exact (ha q (by simp [hqm.resolve_left hq0])).2 e
    have h2 : ¬ (a = p ∧ p ≠ 0) := by
      rintro ⟨e, hp0⟩
      exact (ha p (by simp [hpm.resolve_left hp0])).1 e
    rw [hc', if_neg h1, if_neg h2]
    simp [splitHeader, withHeader, Function.update_apply, hak.1, hak.2]

end Anchors

/-! ## Merging -/

/-- No two of the segments are adjacent. -/
def Coalesced (segs : List Segment) : Prop :=
  ∀ a ∈ segs, ∀ b ∈ segs, a.base + a.size ≠ b.base

/-- No two of the segments are adjacent, unless one of them is `g`. -/
def CoalescedBut (g : Segment) (segs : List Segment) : Prop :=
  ∀ a ∈ segs, ∀ b ∈ segs, a ≠ g → b ≠ g → a.base + a.size ≠ b.base

section Segments

variable {σ : Type} {V : View σ} {R : σ → (Nat → Nat) → Prop} {G : Nat} {N : Set Nat}
  {l l' : FreeList σ} {c c' : Nat → Nat} {g lo hi : Segment} {segs segs' xs ys : List Segment} {n : Nat}

theorem Coalesced.but (h : Coalesced segs) (g : Segment) : CoalescedBut g segs :=
  fun a ha b hb _ _ => h a ha b hb

/-- A segment that was appended is the only one with neighbours. -/
theorem coalescedBut_append (hco : Coalesced segs) : CoalescedBut g (segs ++ [g]) := by
  intro a ha b hb hag hbg
  have hold : ∀ k ∈ segs ++ [g], k ≠ g → k ∈ segs := fun k hk hne =>
    (List.mem_append.1 hk).resolve_right fun hk => hne (List.mem_singleton.1 hk)
  exact hco a (hold a ha hag) b (hold b hb hbg)

/-- The bytes of an interval that are all free are in one segment: the next one would be adjacent. -/
theorem Coalesced.interval (h : Coalesced segs) (hap : segs.Pairwise Segment.Apart) {lo hi : Nat}
    (hlt : lo < hi) (hfree : ∀ x, lo ≤ x → x < hi → x ∈ covered segs) :
    ∃ k ∈ segs, k.base ≤ lo ∧ hi ≤ k.base + k.size := by
  obtain ⟨k, hk, hlo, hhi⟩ := hfree lo le_rfl hlt
  refine ⟨k, hk, hlo, ?_⟩
  by_contra hend
  obtain ⟨j, hj, hjlo, hjhi⟩ := hfree (k.base + k.size) (by omega) (by omega)
  have hne : k ≠ j := by
    rintro rfl
    omega
  have hkj := hap.forall hk hj hne
  have hadj := h k hk j hj
  unfold Segment.Apart at hkj
  omega

/-- What is merged takes over from what it was merged of. -/
theorem coalescedBut_of_merges (hm : Merges G N c c' l' lo hi segs segs')
    (h : CoalescedBut lo segs ∨ CoalescedBut hi segs) :
    CoalescedBut ⟨lo.base, lo.size + hi.size⟩ segs' := by
  intro a ha b hb hag hbg
  obtain ⟨ha, halo, hahi⟩ := (hm.others a ha).resolve_left hag
  obtain ⟨hb, hblo, hbhi⟩ := (hm.others b hb).resolve_left hbg
  exact h.elim (fun h => h a ha b hb halo hblo) fun h => h a ha b hb hahi hbhi

/-- `JoinAdjacent` ends, and then no two segments are adjacent. -/
theorem joinAdjacentLoop_spec (hV : V.Simulates (headers N) R) (hG : 32 ≤ G) {fuel : Nat}
    (hfuel : segs.length < fuel) (hR : R l.mem c) (h : Holds G N c l.head l.tail segs)
    (hg : g ∈ segs) (hco : CoalescedBut g segs) :
    ∃ l' c' segs', joinAdjacentLoop V fuel l g.base = some l' ∧ R l'.mem c' ∧
      Covers G N c c' l' (covered segs) segs' ∧ Coalesced segs' := by
  induction fuel generalizing l c segs g with
  | zero => omega
  | succ fuel ih =>
    have hfg := h.fits g hg
    obtain ⟨p, hp⟩ : ∃ p : Nat → Bool, p = fun x => c (x + 16) == (g.base + g.size) % wordSize ||
      (c (x + 16) + c (x + 24)) % wordSize == g.base := ⟨_, rfl⟩
    have hseek : seek V l (touches V l.mem g.base ((g.base + g.size) % wordSize)) =
        some (((segs.map Segment.base).find? p).getD 0) := by
      refine seek_spec hV hR h.listed ?_
      intro x hx
      have hxN := (h.listed.node x hx).1
      simp [touches, getBase_eq hV hR hxN, getSize_eq hV hR hxN, hp]
    have hbase := getBase_eq hV hR hfg.node
    have hsize := getSize_eq hV hR hfg.node
    rw [h.base g hg] at hbase
    rw [h.size g hg] at hsize
    rw [joinAdjacentLoop]
    simp only [hbase, hsize, hseek, Option.bind_eq_bind, Option.bind_some]
    cases hfind : (segs.map Segment.base).find? p with
    | none =>
      refine ⟨l, c, segs, by simp, hR, ⟨h, rfl, fun _ _ => rfl⟩, fun a ha b hb hadj => ?_⟩
      -- a neighbour of `g` would have passed the test
      have htest : ∀ k ∈ segs, k.base ≠ (g.base + g.size) % wordSize ∧
          (k.base + k.size) % wordSize ≠ g.base := by
        intro k hk
        have := List.find?_eq_none.1 hfind k.base (List.mem_map_of_mem hk)
        simpa [hp, h.base k hk, h.size k hk] using this
      have hlt := (h.fits b hb).base_lt
      by_cases hag : a = g
      · refine (htest b hb).1 ?_
        rw [← hag, hadj, Nat.mod_eq_of_lt hlt]
      · by_cases hbg : b = g
        · refine (htest a ha).2 ?_
          rw [← hbg, hadj, Nat.mod_eq_of_lt hlt]
        · exact hco a ha b hb hag hbg hadj
    | some x =>
      obtain ⟨k, hk, rfl⟩ := List.mem_map.1 (List.mem_of_find?_eq_some hfind)
      have hfk := h.fits k hk
      have hpk := List.find?_some hfind
      simp only [hp, h.base k hk, h.size k hk, Bool.or_eq_true, beq_iff_eq] at hpk
      have hkbase := getBase_eq hV hR hfk.node
      have hksize := getSize_eq hV hR hfk.node
      rw [h.base k hk] at hkbase
      rw [h.size k hk] at hksize
      simp only [Option.getD_some, hfk.pos.ne', if_false, hkbase, hksize, Option.bind_some]
      by_cases hend : k.base = (g.base + g.size) % wordSize
      · have hadj := adjacent_of_mod hfg hfk hend
        obtain ⟨s₁, l₁, c₁, segs₁, hs₁, -, hl₁, hR₁, hm⟩ := merge_spec hV hG hR h hg hk hadj
        have hlen := hm.shorter
        obtain ⟨l', c', segs', hl', hR', hc', hdone⟩ :=
          ih (by omega) hR₁ hm.holds hm.merged (coalescedBut_of_merges hm (.inl hco))
        refine ⟨l', c', segs', ?_, hR', hc'.trans hm, hdone⟩
        rw [if_pos hend, Nat.mod_eq_of_lt (size_add_lt hfg hfk hadj), hs₁, Option.bind_some,
          removeNode, hl₁, Option.bind_some, hl']
      · have hadj := adjacent_of_mod hfk hfg (hpk.resolve_left hend).symm
        obtain ⟨s₁, l₁, c₁, segs₁, hs₁, -, hl₁, hR₁, hm⟩ := merge_spec hV hG hR h hk hg hadj
        have hlen := hm.shorter
        obtain ⟨l', c', segs', hl', hR', hc', hdone⟩ :=
          ih (by omega) hR₁ hm.holds hm.merged (coalescedBut_of_merges hm (.inr hco))
        refine ⟨l', c', segs', ?_, hR', hc'.trans hm, hdone⟩
        rw [if_neg hend, Nat.mod_eq_of_lt (size_add_lt hfk hfg hadj), hs₁, Option.bind_some,
          removeNode, hl₁, Option.bind_some, hl']

/-- **`MarkFree`** adds the bytes of the block to the free ones and leaves no neighbours. -/
theorem markFree_spec (hV : V.Simulates (headers N) R) (hG : 32 ≤ G) (hR : R l.mem c)
    (h : Holds G N c l.head l.tail segs) (hco : Coalesced segs) (hg : g.Fits G N)
    (hap : ∀ k ∈ segs, g.Apart k) :
    ∃ l' c' segs', markFree V l g.base g.size = some l' ∧ R l'.mem c' ∧
      Covers G N c c' l' (covered (segs ++ [g])) segs' ∧ Coalesced segs' := by
  obtain ⟨s₁, hs₁, hR₁⟩ := setBase_eq hV hR hg.node g.base
  obtain ⟨s₂, hs₂, hR₂⟩ := setSize_eq hV hR₁ hg.node g.size
  obtain ⟨hclear, hlist⟩ := h.with_header hG hg hap
  obtain ⟨l₁, c₁, hl₁, hR₁', hlist', hsame⟩ := addNode_spec (l := { l with mem := s₂ }) hV hR₂
    hlist hg.node hg.base_lt hg.pos.ne' hclear
  have hc₁ := h.appended hG hg hap hlist' hsame
  have hlen : (segs ++ [g]).length < walkLimit := by
    simpa using hc₁.holds.listed.length_lt
  obtain ⟨l', c', segs', hl', hR', hc', hdone⟩ :=
    joinAdjacentLoop_spec hV hG hlen hR₁' hc₁.holds (g := g) (by simp) (coalescedBut_append hco)
  refine ⟨l', c', segs', ?_, hR', ⟨hc'.holds, hc'.covered_eq, fun a ha => ?_⟩, hdone⟩
  · simp [markFree, joinAdjacent, hs₁, hs₂, hl₁, hl']
  · rw [hc'.frame a ha, hc₁.frame a ha]

/-- What is left of a list of segments when the first `n` bytes of `g` are taken. -/
def taken (xs : List Segment) (g : Segment) (ys : List Segment) (n : Nat) : List Segment :=
  if n < g.size then xs ++ ⟨g.base + n, g.size - n⟩ :: ys else xs ++ ys

/-- Taking the first bytes of a segment creates no neighbours: what is left of it ends where it ended. -/
theorem coalesced_taken (h : Coalesced (xs ++ g :: ys)) (hap : (xs ++ g :: ys).Pairwise Segment.Apart)
    (hpos : ∀ k ∈ xs ++ g :: ys, 0 < k.size) (hn : 0 < n) : Coalesced (taken xs g ys n) := by
  have hga : ∀ k ∈ xs ++ ys, g.Apart k :=
    (List.pairwise_cons.1 ((List.pairwise_middle fun h => h.symm).1 hap)).1
  have hmem : ∀ k, k ∈ xs ++ ys → k ∈ xs ++ g :: ys := by
    intro k hk
    simp only [List.mem_append, List.mem_cons] at hk ⊢
    tauto
  have hg : g ∈ xs ++ g :: ys := by simp
  unfold taken
  split
  · intro a ha b hb
    have hcases : ∀ k, k ∈ xs ++ ⟨g.base + n, g.size - n⟩ :: ys →
        k = ⟨g.base + n, g.size - n⟩ ∨ k ∈ xs ++ ys := by
      intro k hk
      simp only [List.mem_append, List.mem_cons] at hk ⊢
      tauto
    obtain rfl | ha := hcases a ha <;> obtain rfl | hb := hcases b hb
    · show g.base + n + (g.size - n) ≠ g.base + n
      omega
    · have := h g hg b (hmem b hb)
      show g.base + n + (g.size - n) ≠ b.base
      omega
    · have hk := hga a ha
      have := hpos a (hmem a ha)
      have := h a (hmem a ha) g hg
      unfold Segment.Apart at hk
      show a.base + a.size ≠ g.base + n
      omega
    · exact h a (hmem a ha) b (hmem b hb)
  · intro a ha b hb
    exact h a (hmem a ha) b (hmem b hb)

/-- **`MarkUsed`** takes the first `n` bytes of a segment and writes to none of them. -/
theorem markUsed_spec (hV : V.Simulates (headers N) R) (hG : 32 ≤ G) (hR : R l.mem c)
    (h : Holds G N c l.head l.tail (xs ++ g :: ys)) (hn : 0 < n) (hdvd : G ∣ n)
    (hnode : n < g.size → g.base + n ∈ N) :
    ∃ l' c', markUsed V l g.base n = some l' ∧ R l'.mem c' ∧
      Covers G N c c' l' (covered (taken xs g ys n)) (taken xs g ys n) := by
  have hg : g ∈ xs ++ g :: ys := by simp
  have hfg := h.fits g hg
  have hh := hfg.header hG
  have hn32 : 32 ≤ n := hG.trans (Nat.le_of_dvd hn hdvd)
  have hlisted := h.listed
  rw [List.map_append, List.map_cons] at hlisted
  obtain ⟨hga, hxyp⟩ := List.pairwise_cons.1 ((List.pairwise_middle fun h => h.symm).1 h.apart)
  have hold : ∀ k ∈ xs ++ ys, k ∈ xs ++ g :: ys := by
    intro k hk
    simp only [List.mem_append, List.mem_cons] at hk ⊢
    tauto
  have hsize := getSize_eq hV hR hfg.node
  rw [h.size g hg] at hsize
  by_cases hlt : n < g.size
  · obtain ⟨k, hk⟩ : ∃ k : Segment, k = ⟨g.base + n, g.size - n⟩ := ⟨_, rfl⟩
    have hkb : k.base = g.base + n := by rw [hk]
    have hks : k.size = g.size - n := by rw [hk]
    have htop := hfg.top
    have hkf : k.Fits G N :=
      ⟨hkb ▸ hnode hlt, by omega, by omega, hks ▸ Nat.dvd_sub hfg.granule hdvd, by omega⟩
    have hka : ∀ j ∈ xs ++ ys, k.Apart j := by
      intro j hj
      have := hga j hj
      unfold Segment.Apart at *
      omega
    have hap : ∀ x ∈ xs.map Segment.base ++ ys.map Segment.base, Clear x k.base := by
      intro x hx
      rw [← List.map_append] at hx
      obtain ⟨j, hj, rfl⟩ := List.mem_map.1 hx
      have := hka j hj
      have := (h.fits j (hold j hj)).header hG
      have := hkf.header hG
      unfold Segment.Apart at *
      unfold Clear
      omega
    have hnew : (g.base + n) % wordSize = k.base := by rw [hkb, Nat.mod_eq_of_lt (by omega)]
    have hrest : (g.size + wordSize - n) % wordSize = k.size := by
      have hpos := hfg.pos
      have hsum : g.size + wordSize - n = k.size + wordSize := by omega
      rw [hsum, Nat.add_mod_right, Nat.mod_eq_of_lt (by omega)]
    obtain ⟨s₁, hs₁, hR₁⟩ := copyHeader_spec hV hR hfg.node hkf.node (show g.base + 32 ≤ k.base by omega)
      (by rw [h.base g hg, hnew]) (by rw [h.size g hg, hrest])
    obtain ⟨l₁, l', c', hl₁, hl', hR', hhead, htail, hc'⟩ :=
      relink_spec (l := { l with mem := s₁ }) hV hlisted hR₁ (by omega)
    obtain ⟨hlist, hsame⟩ :=
      listed_replace hlisted hkf.node hkf.base_lt (by omega) hap hhead htail hc'
    have hmap : xs.map Segment.base ++ k.base :: ys.map Segment.base =
        (xs ++ k :: ys).map Segment.base := by simp
    rw [hmap] at hlist hsame
    have hmem : ∀ j, j ∈ xs ++ k :: ys → j = k ∨ j ∈ xs ++ ys := by
      intro j hj
      simp only [List.mem_append, List.mem_cons] at hj ⊢
      tauto
    have hfits : ∀ j ∈ xs ++ k :: ys, j.Fits G N := by
      intro j hj
      obtain rfl | hj := hmem j hj
      · exact hkf
      · exact h.fits j (hold j hj)
    have hfar : ∀ j ∈ xs ++ ys, ∀ i, i < 32 → withHeader c k (j.base + i) = c (j.base + i) := by
      intro j hj i hi
      have := hap j.base (by rw [← List.map_append]; exact List.mem_map_of_mem hj)
      unfold Clear at this
      rw [withHeader, Function.update_of_ne (by omega), Function.update_of_ne (by omega)]
    have htk : taken xs g ys n = xs ++ k :: ys := by rw [taken, if_pos hlt, hk]
    refine ⟨l', c', ?_, hR', htk ▸ ⟨?_, rfl, fun a ha => ?_⟩⟩
    · simp only [markUsed, hsize, if_pos hlt, hnew, hs₁, hl₁, hl', Option.bind_eq_bind, Option.bind_some]
    · refine Holds.of_listed hlist hsame (fun j hj => ?_) (fun j hj => ?_) hfits ?_
      · obtain rfl | hj := hmem j hj
        · rw [withHeader, Function.update_of_ne (by omega), Function.update_self]
        · rw [hfar j hj 16 (by omega), h.base j (hold j hj)]
      · obtain rfl | hj := hmem j hj
        · rw [withHeader, Function.update_self]
        · rw [hfar j hj 24 (by omega), h.size j (hold j hj)]
      · rw [List.pairwise_middle fun h => h.symm, List.pairwise_cons]
        exact ⟨hka, hxyp⟩
    · have hkh := hkf.header hG
      have hout : ∀ i, i < 32 → a ≠ k.base + i := by
        rintro i hi rfl
        exact ha ⟨k, by simp, by omega⟩
      rw [hsame.frame hG hfits ha, withHeader, Function.update_of_ne (hout 24 (by omega)),
        Function.update_of_ne (hout 16 (by omega))]
  · obtain ⟨l', c', hl', hR', hlist, hsame⟩ := eraseAt_spec hV hR hlisted
    rw [← List.map_append] at hlist hsame
    have hfits : ∀ k ∈ xs ++ ys, k.Fits G N := fun k hk => h.fits k (hold k hk)
    have htk : taken xs g ys n = xs ++ ys := by rw [taken, if_neg hlt]
    refine ⟨l', c', ?_, hR', htk ▸ ⟨?_, rfl, fun a ha => hsame.frame hG hfits ha⟩⟩
    · simp only [markUsed, hsize, if_neg hlt, removeNode, hl', Option.bind_eq_bind, Option.bind_some]
    · exact Holds.of_listed hlist hsame (fun k hk => h.base k (hold k hk))
        (fun k hk => h.size k (hold k hk)) hfits hxyp

end Segments

end ChenixOS.Libc
