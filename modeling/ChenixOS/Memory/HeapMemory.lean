import ChenixOS.Memory.ForkedPages
import ChenixOS.Memory.KernelHeap

/-!
# The memory of the kernel heap

The heap is the tree of frames below entry 510 of the PML4. Up to `g_HeapPos` its pages are mapped, and
from there on none is. Different addresses of the heap lie in different words of physical memory, and in
no page table and no free frame, so a store changes one word of the heap and nothing else.

`ReserveNew` maps the pages of a block of frames behind the end of the heap. The frames that are missing
for tables come from the pool.
-/

namespace ChenixOS.KernelHeap

open MemoryManager FreeList
open Radix (walk)

variable {s s' : State} {roots F F' : List Nat} {E a g i n u v x y : Nat} {c : Nat → Nat}

/-! ## Addresses of the heap -/

/-- The PML3 of the heap. -/
def heapRoot (s : State) : Nat := pmlGetAddr (s.myPML4 510)

theorem getPML4Index_heap (hlo : heapBase ≤ a) (hhi : a < highMemBase) : getPML4Index a = 510 := by
  have hmask : (0x1FF : Nat) = 2 ^ 9 - 1 := by decide
  unfold heapBase at hlo
  unfold highMemBase at hhi
  rw [getPML4Index, hmask, Nat.and_two_pow_sub_one_eq_mod, Nat.shiftRight_eq_div_pow]
  omega

/-- The heap is one entry of the PML4. -/
theorem heap_slot (hlo : heapBase ≤ a) (hhi : a < highMemBase) : a / 2 ^ 39 = 2 ^ 25 - 2 := by
  unfold heapBase at hlo
  unfold highMemBase at hhi
  omega

/-- Two addresses of the heap have one path just when they lie in one page. -/
theorem pathOf_heap (hu : heapBase ≤ u) (hu' : u < highMemBase) (hv : heapBase ≤ v)
    (hv' : v < highMemBase) : pathOf u = pathOf v ↔ u / 4096 = v / 4096 :=
  pathOf_eq_iff ((heap_slot hu hu').trans (heap_slot hv hv').symm)

/-- **The memory of a heap that ends at `E`**: the page tables are right, and the pages below `E` are
mapped, and only those. -/
structure Backed (s : State) (roots F : List Nat) (E : Nat) : Prop where
  inv : Inv s roots F
  root : heapRoot s ∈ roots
  present : pmlGetP (s.myPML4 510) ≠ 0
  mapped : ∀ a, heapBase ≤ a → a < E → ∃ x, frameOf s (heapRoot s) a = some x
  unmapped : ∀ a, E ≤ a → a < highMemBase → frameOf s (heapRoot s) a = none
  top : E ≤ highMemBase

theorem Backed.translate_eq (h : Backed s roots F E) (hlo : heapBase ≤ a) (hhi : a < highMemBase) :
    MemoryManager.translate s a = (frameOf s (heapRoot s) a).map (· + a % 4096) := by
  rw [MemoryManager.translate, getPML4Index_heap hlo hhi, if_neg h.present]
  rfl

theorem Backed.load_eq (h : Backed s roots F E) (hlo : heapBase ≤ a) (hhi : a < E)
    (hx : frameOf s (heapRoot s) a = some x) :
    heapView.load s a = some (s.mem (highMemBase + x + a % 4096)) := by
  have htop := h.top
  rw [Nat.add_assoc]
  simp only [heapView, h.translate_eq hlo (by omega), hx, Option.map_some]

/-- Different words of the heap are different words of physical memory. -/
theorem Backed.address_inj (h : Backed s roots F E) (hu : 8 ∣ u) (hulo : heapBase ≤ u) (huE : u < E)
    (hv : 8 ∣ v) (hvlo : heapBase ≤ v) (hvE : v < E) (hx : frameOf s (heapRoot s) u = some x)
    (hy : frameOf s (heapRoot s) v = some y) (heq : x + u % 4096 = y + v % 4096) : u = v := by
  have htop := h.top
  have hxf := (h.inv.frame x (frameOf_mem_refs h.root hx)).aligned
  have hyf := (h.inv.frame y (frameOf_mem_refs h.root hy)).aligned
  have hxy : x = y := by omega
  subst hxy
  have hpath : pathOf u = pathOf v := Radix.walk_inj (h.inv.tree_nodup h.root) (pathOf_lt u)
    (pathOf_lt v) (by simp [pathOf]) (by simp [pathOf]) hx hy
  rw [pathOf_heap hulo (by omega) hvlo (by omega)] at hpath
  omega

/-! ## Stores -/

/-- A store to a page concerns neither page tables nor free frames. -/
theorem store_page {r j w : Nat} (h : Inv s roots F) (hr : r ∈ roots) (hx : frameOf s r v = some x)
    (hj : j < 512) : Inv (s.store (highMemBase + x + 8 * j) w) roots F ∧
      SameTables s (s.store (highMemBase + x + 8 * j) w) roots := by
  have htables := UserWrite.sameTables (w := ⟨r, v, ⟨j, hj⟩, w⟩) h (fun _ _ _ _ _ _ => rfl) hr
  rw [UserWrite.apply, hx] at htables
  have hxr := frameOf_mem_refs hr hx
  have hrefs := refs_congr htables
  refine ⟨⟨⟨?_, ?_⟩, ?_⟩, htables⟩
  · rw [hrefs]
    exact h.nodup
  · rw [hrefs]
    exact h.frame
  · refine h.pool.congr (State.sameButMem_store _ _ _) fun a ha => ?_
    rw [State.mem_store, Function.update_of_ne]
    intro e
    exact not_mem_pages (h.frame x hxr) hj h.pool.frame (h.not_mem_free hxr) (e ▸ ha)

/-- The heap up to `E` has the contents `c`. -/
structure Shows (roots F : List Nat) (E : Nat) (s : State) (c : Nat → Nat) : Prop where
  backed : Backed s roots F E
  words : ∀ a, 8 ∣ a → heapBase ≤ a → a < E → heapView.load s a = some (c a)

theorem Shows.store (h : Shows roots F E s c) (ha : 8 ∣ a) (hlo : heapBase ≤ a) (hE : a < E) (v : Nat) :
    ∃ s', heapView.store s a v = some s' ∧ Shows roots F E s' (Function.update c a v) := by
  have hb := h.backed
  have htop := hb.top
  obtain ⟨x, hx⟩ := hb.mapped a hlo hE
  have hj : a % 4096 / 8 < 512 := by omega
  have haddr : highMemBase + (x + a % 4096) = highMemBase + x + 8 * (a % 4096 / 8) := by omega
  obtain ⟨hinv, hsame⟩ := store_page (w := v) hb.inv hb.root hx hj
  have hframe : ∀ u, frameOf (s.store (highMemBase + x + 8 * (a % 4096 / 8)) v) (heapRoot s) u =
      frameOf s (heapRoot s) u := fun u => hsame.frameOf_eq hb.root u
  have hroot : heapRoot (s.store (highMemBase + x + 8 * (a % 4096 / 8)) v) = heapRoot s := rfl
  have hb' : Backed (s.store (highMemBase + x + 8 * (a % 4096 / 8)) v) roots F E := by
    refine ⟨hinv, hb.root, hb.present, fun u hlo hhi => ?_, fun u hlo hhi => ?_, htop⟩
    · rw [hroot, hframe]
      exact hb.mapped u hlo hhi
    · rw [hroot, hframe]
      exact hb.unmapped u hlo hhi
  refine ⟨_, ?_, hb', fun u hu hulo huE => ?_⟩
  · simp only [heapView, hb.translate_eq hlo (by omega), hx, Option.map_some, haddr]
  · obtain ⟨y, hy⟩ := hb.mapped u hulo huE
    have hload := h.words u hu hulo huE
    rw [hb.load_eq hulo huE hy] at hload
    rw [hb'.load_eq hulo huE (by rw [hroot, hframe, hy]), State.mem_store]
    by_cases hua : u = a
    · subst hua
      obtain rfl := Option.some.inj (hx.symm.trans hy)
      have hsame : highMemBase + x + u % 4096 = highMemBase + x + 8 * (u % 4096 / 8) := by omega
      rw [hsame, Function.update_self, Function.update_self]
    · have hne : highMemBase + y + u % 4096 ≠ highMemBase + x + 8 * (a % 4096 / 8) := by
        intro e
        exact hua (hb.address_inj hu hulo huE ha hlo hE hy hx (by omega))
      rw [Function.update_of_ne hua, Function.update_of_ne hne]
      exact hload

/-! ## The nodes of the free list -/

/-- Where the nodes of the free list may be, in a heap that ends at `E`. -/
def nodes (E : Nat) : Set Nat := {b | 64 ∣ b ∧ heapBase ≤ b ∧ b + 64 ≤ E}

theorem header_word (ha : a ∈ headers (nodes E)) : 8 ∣ a ∧ heapBase ≤ a ∧ a < E := by
  obtain ⟨b, ⟨hdvd, hlo, hhi⟩, ha⟩ := ha
  omega

theorem heapView_simulates (roots F : List Nat) (E : Nat) :
    heapView.Simulates (headers (nodes E)) (Shows roots F E) where
  load h ha := h.words _ (header_word ha).1 (header_word ha).2.1 (header_word ha).2.2
  store v h ha := h.store (header_word ha).1 (header_word ha).2.1 (header_word ha).2.2 v

/-! ## Room -/

/-- The frames of the pages of the heap, and frames that are not in use, are different frames of the
512 GB: the heap never reaches the end of its slot. -/
theorem Backed.room (h : Backed s roots F E) (hlo : heapBase ≤ E) (hE : 4096 ∣ E) {G : List Nat}
    (hd : Distinct s.mem roots G) (hG : ∀ f ∈ G, Frame f) : E + 4096 * G.length ≤ highMemBase := by
  obtain ⟨k, hk⟩ : ∃ k, E = heapBase + 4096 * k := ⟨(E - heapBase) / 4096, by unfold heapBase at *; omega⟩
  have hpage : ∀ i : Nat, ∃ x, i < k → frameOf s (heapRoot s) (heapBase + 4096 * i) = some x := by
    intro i
    by_cases hi : i < k
    · obtain ⟨x, hx⟩ := h.mapped (heapBase + 4096 * i) (by omega) (by omega)
      exact ⟨x, fun _ => hx⟩
    · exact ⟨0, fun hlt => absurd hlt hi⟩
  choose p hp using hpage
  have hpr : ∀ i < k, p i ∈ refs s.mem roots := fun i hi => frameOf_mem_refs h.root (hp i hi)
  have hdvd : 8 ∣ heapBase := by decide
  have hnodup : ((List.range k).map p ++ G).Nodup := by
    refine List.nodup_append.2 ⟨List.Nodup.map_on (fun i hi j hj hij => ?_) List.nodup_range,
      (List.nodup_append.1 hd.nodup).1, fun x hx y hy e => ?_⟩
    · rw [List.mem_range] at hi hj
      have := h.address_inj (u := heapBase + 4096 * i) (v := heapBase + 4096 * j) (by omega) (by omega)
        (by omega) (by omega) (by omega) (by omega) (hp i hi) (hp j hj) (by unfold heapBase; omega)
      omega
    · obtain ⟨i, hi, rfl⟩ := List.mem_map.1 hx
      exact hd.not_mem_free (hpr i (List.mem_range.1 hi)) (e ▸ hy)
  have hframe : ∀ x ∈ (List.range k).map p ++ G, Frame x := by
    intro x hx
    rcases List.mem_append.1 hx with hx | hx
    · obtain ⟨i, hi, rfl⟩ := List.mem_map.1 hx
      exact h.inv.frame _ (hpr i (List.mem_range.1 hi))
    · exact hG x hx
  -- A frame is a page of the 2 ^ 27 of physical memory.
  have hcard : ((List.range k).map p ++ G).toFinset.card ≤ (Finset.range (2 ^ 27)).card := by
    refine Finset.card_le_card_of_injOn (· / 4096) (fun x hx => ?_) fun x hx y hy hxy => ?_
    · have := (hframe x (List.mem_toFinset.1 hx)).top
      rw [Finset.coe_range, Set.mem_Iio]
      show x / 4096 < 2 ^ 27
      omega
    · have := (hframe x (List.mem_toFinset.1 hx)).aligned
      have := (hframe y (List.mem_toFinset.1 hy)).aligned
      have hxy : x / 4096 = y / 4096 := hxy
      omega
  rw [List.toFinset_card_of_nodup hnodup, List.length_append, List.length_map, List.length_range,
    Finset.card_range] at hcard
  unfold heapBase at hk
  unfold highMemBase
  omega

/-! ## Mapping the pages of `ReserveNew` -/

/-- The addresses of `n` pages in a row. -/
def pagesFrom (v : Nat) : Nat → List Nat
  | 0 => []
  | n + 1 => v :: pagesFrom (v + 4096) n

theorem mem_pagesFrom (hu : u ∈ pagesFrom v n) : v ≤ u ∧ u < v + 4096 * n := by
  induction n generalizing v with
  | zero => simp [pagesFrom] at hu
  | succ n ih =>
    rcases List.mem_cons.1 hu with rfl | hu
    · omega
    · have := ih hu
      omega

/-- Another page of the heap has a path of its own. -/
theorem pathOf_not_mem_withPath {sh : Finset (List Nat)} (hlo : heapBase ≤ v)
    (hhi : v + 4096 * (n + 1) ≤ highMemBase) (hu : u ∈ pagesFrom (v + 4096) n) (hsh : pathOf u ∉ sh) :
    pathOf u ∉ withPath sh v := by
  have hub := mem_pagesFrom hu
  have hne : pathOf u ≠ pathOf v := by
    rw [Ne, pathOf_heap (by omega) (by omega) hlo (by omega)]
    omega
  rw [withPath, Finset.mem_insert, not_or]
  exact ⟨hne, pathOf_not_mem_withTables hsh⟩

/-- Each page that is added to a shape needs a path of its own. -/
theorem card_foldl_withPath {sh : Finset (List Nat)} (hlo : heapBase ≤ v)
    (hhi : v + 4096 * n ≤ highMemBase) (hsh : ∀ u ∈ pagesFrom v n, pathOf u ∉ sh) :
    sh.card + n ≤ ((pagesFrom v n).foldl withPath sh).card := by
  induction n generalizing v sh with
  | zero => exact le_rfl
  | succ n ih =>
    have hgrow : sh.card + 1 ≤ (withPath sh v).card := by
      rw [← Finset.card_insert_of_notMem (hsh v (by simp [pagesFrom]))]
      exact Finset.card_le_card (insert_subset_withPath sh v)
    have := ih (v := v + 4096) (by omega) (by omega) fun u hu =>
      pathOf_not_mem_withPath hlo hhi hu (hsh u (List.mem_cons_of_mem _ hu))
    rw [pagesFrom, List.foldl_cons]
    omega

theorem card_foldl_withPath_le (sh : Finset (List Nat)) (v n : Nat) :
    ((pagesFrom v n).foldl withPath sh).card ≤ sh.card + 3 * n := by
  induction n generalizing v sh with
  | zero => exact le_rfl
  | succ n ih =>
    have h₁ := card_withPath_le sh v
    have h₂ := ih (withPath sh v) (v + 4096)
    rw [pagesFrom, List.foldl_cons]
    omega

/-- The pages that are left need a frame each, so it is not their frames that the tables of the first one
take. -/
theorem card_withTables_le {sh : Finset (List Nat)} {k : Nat} (hlo : heapBase ≤ v)
    (hhi : v + 4096 * (n + 1) ≤ highMemBase) (hsh : ∀ u ∈ pagesFrom v (n + 1), pathOf u ∉ sh)
    (hk : ((pagesFrom v (n + 1)).foldl withPath sh).card ≤ k + (n + 1)) :
    (withTables sh v).card ≤ k := by
  have hv := card_withPath (hsh v (by simp [pagesFrom]))
  have hrest : (withPath sh v).card + n ≤ ((pagesFrom v (n + 1)).foldl withPath sh).card := by
    rw [pagesFrom, List.foldl_cons]
    refine card_foldl_withPath (Nat.le_add_right_of_le hlo) (by omega) fun u hu => ?_
    exact pathOf_not_mem_withPath hlo hhi hu (hsh u (List.mem_cons_of_mem _ hu))
  have := hrest.trans hk
  rw [hv, Nat.add_right_comm, ← Nat.add_assoc] at this
  exact Nat.le_of_add_le_add_right (Nat.le_of_add_le_add_right this)

/-- **One page more**: the frame `x` is mapped at the end of the heap. -/
theorem Shows.mapPage (h : Shows roots F E s c) (hx : Frame x) (hd : Distinct s.mem roots (x :: F))
    (hlo : heapBase ≤ E) (hE : 4096 ∣ E) (htop : E + 4096 ≤ highMemBase)
    (henough : ¬ Short s F (heapRoot s) (withTables (treeShape s.mem (heapRoot s)) E)) :
    ∃ s' F' c', mapKernelPage x E s = some s' ∧ Shows roots F' (E + 4096) s' c' ∧
      Grew s s' roots (x :: F) F' (heapRoot s) ∧
      treeShape s'.mem (heapRoot s) = withPath (treeShape s.mem (heapRoot s)) E ∧
      ∀ a < E, c' a = c a := by
  have hb := h.backed
  have hnone := hb.unmapped E le_rfl (by omega)
  obtain ⟨hshort, -⟩ | ⟨s', F', hmap, hinv, hgrew, hshape, hwalk, -⟩ :=
    mapAt_spec kernelEntry_names hb.inv hb.root hd hx hnone
  · exact absurd hshort henough
  · have hpml4 : heapRoot s' = heapRoot s := by rw [heapRoot, hgrew.myPML4, heapRoot]
    have hframe : ∀ u, frameOf s' (heapRoot s) u =
        if pathOf u = pathOf E then some x else frameOf s (heapRoot s) u :=
      fun u => hwalk _ (pathOf_lt u) rfl
    have hb' : Backed s' roots F' (E + 4096) := by
      refine ⟨hinv, hpml4 ▸ hb.root, ?_, fun u hulo huE => ?_, fun u huE hu => ?_, htop⟩
      · rw [hgrew.myPML4]
        exact hb.present
      · rw [hpml4, hframe]
        by_cases huE' : u < E
        · rw [if_neg]
          · exact hb.mapped u hulo huE'
          · rw [pathOf_heap hulo (by omega) hlo (by omega)]
            omega
        · rw [if_pos]
          · exact ⟨x, rfl⟩
          · rw [pathOf_heap hulo (by omega) hlo (by omega)]
            omega
      · rw [hpml4, hframe, if_neg]
        · exact hb.unmapped u (by omega) hu
        · rw [pathOf_heap (by omega) hu hlo (by omega)]
          omega
    refine ⟨s', F', fun a => if a < E then c a else (heapView.load s' a).getD 0, ?_,
      ⟨hb', fun a ha halo haE => ?_⟩, hgrew, hshape, fun a haE => if_pos haE⟩
    · rw [mapKernelPage_eq, getPML4Index_heap hlo (by omega)]
      have hroot := physToKernelPtr_root hb.inv.toDistinct hb.root
      rw [heapRoot] at hroot hmap
      rw [hroot, hmap]
    · by_cases haE' : a < E
      · obtain ⟨y, hy⟩ := hb.mapped a halo haE'
        have hload := h.words a ha halo haE'
        have hyr := frameOf_mem_refs hb.root hy
        have hsame := hgrew.other y (hb.inv.frame y hyr) (hd.not_mem_free hyr)
          (hb.inv.page_not_mem_tables hb.root hb.root hy (pathOf_lt a) rfl) (a % 4096 / 8) (by omega)
        have hword : 8 * (a % 4096 / 8) = a % 4096 := by omega
        rw [hword] at hsame
        rw [hb.load_eq halo haE' hy, ← hsame] at hload
        have hy' : frameOf s' (heapRoot s') a = some y := by
          rw [hpml4, hframe, if_neg, hy]
          rw [pathOf_heap halo (by omega) hlo (by omega)]
          omega
        rw [if_pos haE', hb'.load_eq halo haE hy', hload]
      · obtain ⟨y, hy⟩ := hb'.mapped a halo haE
        rw [if_neg haE', hb'.load_eq halo haE hy]
        rfl

/-- `n` frames in a row, from the frame `x` on. -/
theorem blockFrames_succ (x n : Nat) : blockFrames x (n + 1) = x :: blockFrames (x + 4096) n := by
  rw [blockFrames, blockFrames, List.range_succ_eq_map, List.map_cons, List.map_map]
  refine congrArg₂ List.cons (by omega) (List.map_congr_left fun i _ => ?_)
  show x + 4096 * (i + 1) = x + 4096 + 4096 * i
  omega

/-- **The pages of a block of frames**, one after the other, if there are as many free frames as tables
are missing. -/
theorem Shows.mapPages (h : Shows roots F (v + 4096 * i) s c)
    (hd : Distinct s.mem roots (blockFrames (g + 4096 * i) n ++ F))
    (hframe : ∀ f ∈ blockFrames (g + 4096 * i) n, Frame f) (hlo : heapBase ≤ v) (hv : 4096 ∣ v)
    (htop : v + 4096 * (i + n) ≤ highMemBase) (hint : i + n ≤ 2 ^ 19)
    (henough : ((pagesFrom (v + 4096 * i) n).foldl withPath (treeShape s.mem (heapRoot s))).card ≤
      F.length + n + (treeShape s.mem (heapRoot s)).card) :
    ∃ s' F' c', mapPages g v n i s = some s' ∧ Shows roots F' (v + 4096 * (i + n)) s' c' ∧
      s'.refused = s.refused ∧ s'.myPML4 = s.myPML4 ∧ ∀ a < v + 4096 * i, c' a = c a := by
  induction n generalizing i s F c with
  | zero => exact ⟨s, F, c, rfl, h, rfl, rfl, fun _ _ => rfl⟩
  | succ n ih =>
    revert henough
    have hb := h.backed
    have hnext : g + 4096 * i + 4096 = g + 4096 * (i + 1) := by omega
    have hend : v + 4096 * i + 4096 = v + 4096 * (i + 1) := by omega
    have hcount : i + 1 + n = i + (n + 1) := by omega
    rw [← hcount] at htop hint
    have hlo' : heapBase ≤ v + 4096 * i := by omega
    have htop' : v + 4096 * i + 4096 * (n + 1) ≤ highMemBase := by omega
    have hpage : v + 4096 * i + 4096 ≤ highMemBase := by
      rw [hend]
      exact (Nat.add_le_add_left (Nat.mul_le_mul_left _ (Nat.le_add_right ..)) v).trans htop
    have hsum : ∀ a q l p : Nat, a + q = l + 1 + p → a + n + q = l + (n + 1) + p := by omega
    have hhigh : highMemBase < wordSize := by decide
    have hvirt : (v + 4096 * i) % wordSize = v + 4096 * i := Nat.mod_eq_of_lt (by omega)
    have hint' : 4096 * i < 2 ^ 31 := by omega
    rw [blockFrames_succ, hnext] at hd hframe
    have hx := hframe (g + 4096 * i) (by simp)
    have hphys : (g + 4096 * i) % wordSize = g + 4096 * i := by
      have := hx.top
      exact Nat.mod_eq_of_lt (by unfold wordSize; omega)
    have hd₁ : Distinct s.mem roots ((g + 4096 * i) :: F) := by
      refine ⟨hd.nodup.sublist (.append_right (.cons_cons _ ?_) _), hd.frame⟩
      exact List.sublist_append_right _ _
    have hunmapped : ∀ u ∈ pagesFrom (v + 4096 * i) (n + 1), pathOf u ∉ treeShape s.mem (heapRoot s) := by
      intro u hu
      have hub := mem_pagesFrom hu
      rw [mem_treeShape]
      rintro ⟨-, y, hy⟩
      have hnone := hb.unmapped u hub.1 (by omega)
      rw [frameOf, hy] at hnone
      exact absurd hnone (by simp)
    intro henough
    have hlong : ¬ Short s F (heapRoot s) (withTables (treeShape s.mem (heapRoot s)) (v + 4096 * i)) := by
      rw [Short, Nat.not_lt]
      refine card_withTables_le hlo' htop' hunmapped ?_
      rw [Nat.add_right_comm]
      exact henough
    obtain ⟨s₁, F₁, c₁, hmap, hs₁, hgrew, hshape, hc₁⟩ := h.mapPage hx hd₁ hlo'
      (Nat.dvd_add hv (Nat.dvd_mul_right ..)) hpage hlong
    have hroot : heapRoot s₁ = heapRoot s := by rw [heapRoot, hgrew.myPML4, heapRoot]
    rw [hend] at hs₁
    have hd₂ : Distinct s₁.mem roots (blockFrames (g + 4096 * (i + 1)) n ++ F₁) := by
      refine ⟨?_, hs₁.backed.inv.frame⟩
      have hperm := hgrew.perm.append_left (blockFrames (g + 4096 * (i + 1)) n)
      rw [List.append_assoc, hperm.nodup_iff]
      have hmid : (blockFrames (g + 4096 * (i + 1)) n ++ ((g + 4096 * i) :: F ++ refs s.mem roots)).Perm
          ((g + 4096 * i) :: blockFrames (g + 4096 * (i + 1)) n ++ F ++ refs s.mem roots) := by
        rw [List.append_assoc, List.cons_append, List.cons_append]
        exact List.perm_middle
      exact hmid.nodup_iff.2 hd.nodup
    have henough₁ : ((pagesFrom (v + 4096 * (i + 1)) n).foldl withPath
        (treeShape s₁.mem (heapRoot s₁))).card ≤ F₁.length + n + (treeShape s₁.mem (heapRoot s₁)).card := by
      have hused := hgrew.count
      rw [List.length_cons] at hused
      rw [pagesFrom, List.foldl_cons, hend] at henough
      rw [hroot, hsum _ _ _ _ hused, hshape]
      exact henough
    obtain ⟨s', F', c', hrun, hs', hrefused, hpml4, hc'⟩ := ih hs₁ hd₂
      (fun f hf => hframe f (List.mem_cons_of_mem _ hf)) htop hint henough₁
    rw [hcount] at hs'
    refine ⟨s', F', c', ?_, hs', hrefused.trans hgrew.refused, hpml4.trans hgrew.myPML4, fun a ha => ?_⟩
    · rw [KernelHeap.mapPages, if_pos hint', hphys, hvirt, hmap]
      exact hrun
    · rw [hc' a (ha.trans (hend ▸ Nat.lt_add_of_pos_right (by decide))), hc₁ a ha]

end ChenixOS.KernelHeap
