import ChenixOS.Libc.Malloc

/-!
# The heap of a process is safe

**The books.** The free segments and the live blocks together are the reserved range, and no two of them
overlap: every byte from the start of the heap to `g_HeapPos` is in exactly one of them. No two free
segments are adjacent, so what `ReserveNew` adds is in one segment, and the second search of `malloc`
finds it.

**Theorem (`heap_safe`).** This holds in every state that is reached by calls of `malloc` for which the
rounded size is less than `2 ^ 31`, calls of `free`, and writes of the program into its blocks; and from
there every call of `malloc` of such a size returns a zeroed block and every other one does not.
-/

namespace ChenixOS.Libc

open FreeList Transitions

variable {E d n i : Nat} {c c' : Nat → Nat} {s : UserMem} {g b : Segment} {segs live xs ys : List Segment}

/-! ## The memory of the process -/

/-- Where the nodes of the free list may be, in a heap that ends at `E`. -/
def nodes (E : Nat) : Set Nat := {b | 64 ∣ b ∧ heapStart ≤ b ∧ b + 64 ≤ E}

/-- The heap is mapped up to `E`, and the memory has these contents. -/
structure Shows (E : Nat) (s : UserMem) (c : Nat → Nat) : Prop where
  words : s.words = c
  mapped : ∀ a, heapStart ≤ a → a < E → s.mapped (a / 4096) = true

theorem Shows.load (h : Shows E s c) {a : Nat} (ha : heapStart ≤ a) (haE : a < E) :
    userView.load s a = some (c a) :=
  (if_pos (h.mapped a ha haE)).trans (congrArg some (congrFun h.words a))

theorem Shows.store (h : Shows E s c) {a : Nat} (ha : heapStart ≤ a) (haE : a < E) (v : Nat) :
    ∃ s', userView.store s a v = some s' ∧ Shows E s' (Function.update c a v) :=
  ⟨{ s with words := Function.update s.words a v }, if_pos (h.mapped a ha haE), by rw [h.words],
    h.mapped⟩

theorem header_lt {a : Nat} (ha : a ∈ headers (nodes E)) : heapStart ≤ a ∧ a < E := by
  obtain ⟨b, ⟨-, hlo, hhi⟩, ha⟩ := ha
  omega

theorem userView_simulates (E : Nat) : userView.Simulates (headers (nodes E)) (Shows E) where
  load h ha := h.load (header_lt ha).1 (header_lt ha).2
  store v h ha := h.store (header_lt ha).1 (header_lt ha).2 v

/-- `memset` of less than `2 ^ 31` bytes clears the words and writes nothing else. -/
theorem clear_spec (hs : Shows E s c) (hlo : heapStart ≤ d) (hhi : d + 8 * (i + n) ≤ E)
    (hint : 8 * (i + n) < 2 ^ 31) :
    ∃ s' c', clear d n i s = some s' ∧ Shows E s' c' ∧
      (∀ j, i ≤ j → j < i + n → c' (d + 8 * j) = 0) ∧
      ∀ a, a < d + 8 * i ∨ d + 8 * (i + n) ≤ a → c' a = c a := by
  induction n generalizing i s c with
  | zero =>
    refine ⟨s, c, rfl, hs, fun j h₁ h₂ => ?_, fun _ _ => rfl⟩
    omega
  | succ n ih =>
    obtain ⟨s₁, hs₁, hR₁⟩ := hs.store (a := d + 8 * i) (by omega) (by omega) 0
    obtain ⟨s', c', hclear, hR', hzero, hkeep⟩ := ih hR₁ (i := i + 1) (by omega) (by omega)
    refine ⟨s', c', ?_, hR', fun j h₁ h₂ => ?_, fun a ha => ?_⟩
    · rw [clear, if_pos (by omega), hs₁]
      exact hclear
    · obtain rfl | hlt := Nat.eq_or_lt_of_le h₁
      · rw [hkeep _ (.inl (by omega)), Function.update_self]
      · exact hzero j hlt (by omega)
    · rw [hkeep a (by omega), Function.update_of_ne (by omega)]

/-- From `2 ^ 31` bytes on the counter of `memset` overflows. -/
theorem clear_none (hn : 0 < n) (hint : 2 ^ 31 ≤ 8 * (i + n)) : clear d n i s = none := by
  induction n generalizing i s with
  | zero => omega
  | succ n ih =>
    rw [clear]
    split
    · next hlt =>
      cases hs : userView.store s (d + 8 * i) 0 with
      | none => rfl
      | some s₁ => exact ih (by omega) (by omega)
    · rfl

/-! ## Blocks -/

theorem blockSize_eq (h : n + 79 < sizeTop) : blockSize n = (n + 79) / 64 * 64 := by
  exact Nat.mod_eq_of_lt (by omega)

/-- The size of a block is `n + 16`, rounded up to a multiple of 64. -/
theorem blockSize_bounds (h : n + 79 < sizeTop) :
    64 ∣ blockSize n ∧ n + 16 ≤ blockSize n ∧ blockSize n < n + 16 + 64 ∧ 64 ≤ blockSize n := by
  rw [blockSize_eq h]
  exact ⟨Nat.dvd_mul_left .., by omega, by omega, by omega⟩

/-- What is inside of a block that is apart from another one, is apart from it as well. -/
theorem apart_mono {a : Segment} (h : g.Apart b) (hlo : g.base ≤ a.base)
    (hhi : a.base + a.size ≤ g.base + g.size) : a.Apart b := by
  unfold Segment.Apart at *
  omega

/-- Blocks that have no byte in common are apart. -/
theorem apart_of_disjoint (hg : 0 < g.size) (hb : 0 < b.size)
    (h : ∀ x, g.base ≤ x → x < g.base + g.size → ¬ (b.base ≤ x ∧ x < b.base + b.size)) : g.Apart b := by
  unfold Segment.Apart
  by_contra hne
  have h₁ := h (max g.base b.base) (by omega) (by omega)
  omega

theorem not_mem_covered (h : ∀ k ∈ segs, g.Apart k) {x : Nat} (hlo : g.base ≤ x)
    (hhi : x < g.base + g.size) : x ∉ covered segs := by
  rintro ⟨k, hk, hx⟩
  have := h k hk
  unfold Segment.Apart at this
  omega

theorem covered_perm {segs' : List Segment} (h : segs.Perm segs') : covered segs = covered segs' := by
  ext x
  simp only [mem_covered, h.mem_iff]

theorem covered_append {segs' : List Segment} : covered (segs ++ segs') = covered segs ∪ covered segs' := by
  ext x
  simp only [mem_covered, List.mem_append, Set.mem_union]
  constructor
  · rintro ⟨k, hk | hk, hx⟩
    · exact .inl ⟨k, hk, hx⟩
    · exact .inr ⟨k, hk, hx⟩
  · rintro (⟨k, hk, hx⟩ | ⟨k, hk, hx⟩)
    · exact ⟨k, .inl hk, hx⟩
    · exact ⟨k, .inr hk, hx⟩

/-- A free list is read from nothing but the headers of its segments. -/
theorem holds_congr {N : Set Nat} {head tail : Nat} (h : Holds 64 N c head tail segs)
    (hc : ∀ k ∈ segs, ∀ j, j < 32 → c' (k.base + j) = c (k.base + j)) : Holds 64 N c' head tail segs := by
  refine ⟨h.listed.congr fun x hx => ?_, fun k hk => ?_, fun k hk => ?_, h.fits, h.apart⟩
  · obtain ⟨k, hk, rfl⟩ := List.mem_map.1 hx
    exact ⟨hc k hk 0 (by omega), hc k hk 8 (by omega)⟩
  · rw [hc k hk 16 (by omega), h.base k hk]
  · rw [hc k hk 24 (by omega), h.size k hk]

/-- A larger heap allows more nodes. -/
theorem holds_mono {E' head tail : Nat} (hE : E ≤ E') (h : Holds 64 (nodes E) c head tail segs) :
    Holds 64 (nodes E') c head tail segs := by
  have hsub : ∀ x ∈ nodes E, x ∈ nodes E' := fun x hx => ⟨hx.1, hx.2.1, hx.2.2.trans hE⟩
  refine ⟨⟨h.listed.ring, fun x hx => ?_, h.listed.apart⟩, h.base, h.size, fun k hk => ?_, h.apart⟩
  · exact ⟨hsub x (h.listed.node x hx).1, (h.listed.node x hx).2⟩
  · have hf := h.fits k hk
    exact ⟨hsub _ hf.node, hf.pos, hf.size_pos, hf.granule, hf.top⟩

/-! ## The books -/

/-- The free segments and the live blocks of a heap that ends at `E`. -/
structure Books (E : Nat) (c : Nat → Nat) (head tail : Nat) (segs live : List Segment) : Prop where
  /-- The list is well formed: a doubly linked list with the free segments, each described by its header. -/
  holds : Holds 64 (nodes E) c head tail segs
  coalesced : Coalesced segs
  apart : (segs ++ live).Pairwise Segment.Apart
  reserved : covered (segs ++ live) = Set.Ico heapStart E
  blocks : ∀ b ∈ live, 64 ∣ b.base ∧ 64 ∣ b.size ∧ 64 ≤ b.size
  header : ∀ b ∈ live, c b.base = b.size

/-- Where a block or a free segment is. -/
theorem Books.range {head tail : Nat} (h : Books E c head tail segs live) (hb : b ∈ segs ++ live)
    (hpos : 0 < b.size) : heapStart ≤ b.base ∧ b.base + b.size ≤ E := by
  have h₁ : b.base ∈ covered (segs ++ live) := ⟨b, hb, by omega⟩
  have h₂ : b.base + b.size - 1 ∈ covered (segs ++ live) := ⟨b, hb, by omega⟩
  rw [h.reserved] at h₁ h₂
  have := h₁.1
  have := h₂.2
  omega

theorem Books.block_range {head tail : Nat} (h : Books E c head tail segs live) (hb : b ∈ live) :
    heapStart ≤ b.base ∧ b.base + b.size ≤ E :=
  h.range (List.mem_append_right _ hb) (by have := (h.blocks b hb).2.2; omega)

/-- A live block shares no byte with the free segments. -/
theorem Books.block_apart {head tail : Nat} (h : Books E c head tail segs live) (hb : b ∈ live) :
    ∀ k ∈ segs, b.Apart k := fun k hk =>
  ((List.pairwise_append.1 h.apart).2.2 k hk b hb).symm

/-- After `MarkFree` of a block that belonged to nobody else the books are right again. -/
theorem books_of_covers {l' : FreeList UserMem} {segs' : List Segment}
    (hcov : Covers 64 (nodes E) c c' l' (covered (segs ++ [g])) segs') (hco : Coalesced segs')
    (hap : (segs ++ [g] ++ live).Pairwise Segment.Apart)
    (hres : covered (segs ++ [g] ++ live) = Set.Ico heapStart E)
    (hblocks : ∀ b ∈ live, 64 ∣ b.base ∧ 64 ∣ b.size ∧ 64 ≤ b.size)
    (hheader : ∀ b ∈ live, c b.base = b.size) : Books E c' l'.head l'.tail segs' live := by
  obtain ⟨-, hlive, hcross⟩ := List.pairwise_append.1 hap
  have hfar : ∀ b ∈ live, ∀ x, b.base ≤ x → x < b.base + b.size → x ∉ covered segs' := by
    intro b hb x hlo hhi
    rw [hcov.covered_eq]
    exact not_mem_covered (fun k hk => (hcross k hk b hb).symm) hlo hhi
  refine ⟨hcov.holds, hco, List.pairwise_append.2 ⟨hcov.holds.apart, hlive, fun k hk b hb => ?_⟩, ?_,
    hblocks, fun b hb => ?_⟩
  · have hpos := (hblocks b hb).2.2
    refine apart_of_disjoint (hcov.holds.fits k hk).size_pos (by omega) fun x hlo hhi hx => ?_
    exact hfar b hb x hx.1 hx.2 ⟨k, hk, hlo, hhi⟩
  · rw [← hres, covered_append, covered_append, hcov.covered_eq]
  · have hpos := (hblocks b hb).2.2
    rw [hcov.frame b.base (hcov.covered_eq ▸ hfar b hb b.base le_rfl (by omega)), hheader b hb]

/-- Cutting a block in two changes neither which bytes are covered nor what is apart. -/
theorem split_block {rest : List Segment} (hap : (g :: rest).Pairwise Segment.Apart) (hlt : n < g.size) :
    (Segment.mk g.base n :: Segment.mk (g.base + n) (g.size - n) :: rest).Pairwise Segment.Apart ∧
      covered (Segment.mk g.base n :: Segment.mk (g.base + n) (g.size - n) :: rest) =
        covered (g :: rest) := by
  obtain ⟨hga, hrest⟩ := List.pairwise_cons.1 hap
  refine ⟨List.pairwise_cons.2 ⟨fun k hk => ?_, List.pairwise_cons.2 ⟨fun k hk => ?_, hrest⟩⟩, ?_⟩
  · obtain rfl | hk := List.mem_cons.1 hk
    · exact .inl le_rfl
    · exact apart_mono (hga k hk) le_rfl (by show g.base + n ≤ _; omega)
  · refine apart_mono (hga k hk) (by show _ ≤ g.base + n; omega) ?_
    show g.base + n + (g.size - n) ≤ _
    omega
  · ext x
    simp only [mem_covered, List.mem_cons, exists_eq_or_imp]
    constructor
    · rintro (hx | hx | hx)
      · exact .inl (by omega)
      · exact .inl (by omega)
      · exact .inr hx
    · rintro (hx | hx)
      · by_cases hxn : x < g.base + n
        · exact .inl (by omega)
        · exact .inr (.inl (by omega))
      · exact .inr (.inr hx)

/-- The block that is taken, together with what is left. -/
theorem taken_block (hap : (xs ++ g :: ys ++ live).Pairwise Segment.Apart) (hle : n ≤ g.size) :
    (taken xs g ys n ++ (live ++ [Segment.mk g.base n])).Pairwise Segment.Apart ∧
      covered (taken xs g ys n ++ (live ++ [Segment.mk g.base n])) = covered (xs ++ g :: ys ++ live) := by
  have hfront : ∀ k, (xs ++ k :: ys ++ live).Perm (k :: (xs ++ ys ++ live)) := by
    intro k
    rw [List.append_assoc, List.cons_append, List.append_assoc]
    exact List.perm_middle
  have hlast : ∀ zs : List Segment, (zs ++ (live ++ [Segment.mk g.base n])).Perm
      (Segment.mk g.base n :: (zs ++ live)) := by
    intro zs
    rw [← List.append_assoc]
    exact List.perm_append_singleton _ _
  have hap' := ((hfront g).pairwise_iff fun h => h.symm).1 hap
  rw [covered_perm (hfront g)]
  unfold taken
  split
  · next hlt =>
    have hperm := (hlast (xs ++ Segment.mk (g.base + n) (g.size - n) :: ys)).trans
      ((hfront (Segment.mk (g.base + n) (g.size - n))).cons _)
    obtain ⟨hsplit, hcov⟩ := split_block hap' hlt
    exact ⟨(hperm.pairwise_iff fun h => h.symm).2 hsplit, (covered_perm hperm).trans hcov⟩
  · next hlt =>
    have hng : Segment.mk g.base n = g := by
      have hng : n = g.size := by omega
      rw [hng]
    have hperm := hlast (xs ++ ys)
    rw [hng] at hperm ⊢
    exact ⟨(hperm.pairwise_iff fun h => h.symm).2 hap', covered_perm hperm⟩

/-- After `MarkUsed`, with the size written into the block, the block is a live one. -/
theorem Books.take {head tail : Nat} {c₁ : Nat → Nat} {l' : FreeList UserMem}
    (h : Books E c head tail (xs ++ g :: ys) live) (hdvd : 64 ∣ n) (hn : 64 ≤ n) (hle : n ≤ g.size)
    (hcov : Covers 64 (nodes E) c c₁ l' (covered (taken xs g ys n)) (taken xs g ys n))
    (hsize : c' g.base = n) (hkeep : ∀ a, a < g.base ∨ g.base + n ≤ a → c' a = c₁ a) :
    Books E c' l'.head l'.tail (taken xs g ys n) (live ++ [Segment.mk g.base n]) := by
  have hfg := h.holds.fits g (by simp)
  obtain ⟨hap, hcov'⟩ := taken_block h.apart hle
  obtain ⟨-, hlive, hcross⟩ := List.pairwise_append.1 hap
  have hpos : ∀ k ∈ xs ++ g :: ys, 0 < k.size := fun k hk => (h.holds.fits k hk).size_pos
  refine ⟨holds_congr hcov.holds fun k hk j hj => hkeep _ ?_,
    coalesced_taken h.coalesced h.holds.apart hpos (by omega), hap, hcov'.trans h.reserved,
    fun b hb => ?_, fun b hb => ?_⟩
  · have hk32 := (hcov.holds.fits k hk).header (by omega)
    have hkb := hcross k hk (Segment.mk g.base n) (by simp)
    unfold Segment.Apart at hkb
    dsimp only at hkb
    omega
  · obtain hb | rfl := (List.mem_append.1 hb).imp_right List.mem_singleton.1
    · exact h.blocks b hb
    · exact ⟨hfg.node.1, hdvd, hn⟩
  · obtain hb' | rfl := (List.mem_append.1 hb).imp_right List.mem_singleton.1
    · have hbs := (h.blocks b hb').2.2
      have hbg := (List.pairwise_append.1 hlive).2.2 b hb' (Segment.mk g.base n) (by simp)
      have hfar : b.base ∉ covered (taken xs g ys n) :=
        not_mem_covered (fun k hk => (hcross k hk b hb).symm) le_rfl (by omega)
      unfold Segment.Apart at hbg
      dsimp only at hbg
      rw [hkeep b.base (by omega), hcov.frame b.base hfar, h.header b hb']
    · exact hsize

/-! ## The calls -/

/-- The invariant of a heap with these free segments and live blocks. -/
structure Sound (h : Heap) (segs live : List Segment) : Prop where
  books : Books h.heapPos h.list.mem.words h.list.head h.list.tail segs live
  mapped : ∀ a, heapStart ≤ a → a < h.heapPos → h.list.mem.mapped (a / 4096) = true
  page : 4096 ∣ h.heapPos
  low : heapStart ≤ h.heapPos
  top : h.heapPos ≤ userEnd

variable {h h' : Heap}

theorem Sound.shows (hs : Sound h segs live) : Shows h.heapPos h.list.mem h.list.mem.words :=
  ⟨rfl, hs.mapped⟩

/-- `FindFree` gives a segment with enough room, or there is none. -/
theorem findFree_ok (hs : Sound h segs live) (n : Nat) :
    (∃ g ∈ segs, n ≤ g.size ∧ findFree userView h.list n = some g.base ∧ g.base ≠ 0) ∨
      (∀ g ∈ segs, g.size < n) ∧ findFree userView h.list n = some 0 := by
  have hfind := findFree_spec (userView_simulates h.heapPos) hs.shows hs.books.holds n
  cases hg : segs.find? fun g => decide (n ≤ g.size) with
  | none =>
    refine .inr ⟨fun g hmem => ?_, by rw [hfind, hg]; rfl⟩
    simpa using List.find?_eq_none.1 hg g hmem
  | some g =>
    have hmem := List.mem_of_find?_eq_some hg
    refine .inl ⟨g, hmem, ?_, by rw [hfind, hg]; rfl, (hs.books.holds.fits g hmem).pos.ne'⟩
    simpa using List.find?_some hg

/-- `ReserveNew` adds pages, and afterwards there is a segment with enough room. -/
theorem reserveNew_ok (hs : Sound h segs live) (hn : 0 < n) (hwrap : n + 4095 < wordSize)
    (hgrant : h.heapPos + pagesFor n * 4096 ≤ userEnd) :
    ∃ h' segs', reserveNew n h = some h' ∧ Sound h' segs' live ∧ ∃ k ∈ segs', n ≤ k.size := by
  have hpages : pagesFor n = (n + 4095) / 4096 := by rw [pagesFor, Nat.mod_eq_of_lt hwrap]
  have hroom : n ≤ pagesFor n * 4096 := by rw [hpages]; omega
  have hpage := hs.page
  have hlow := hs.low
  obtain ⟨E, hE⟩ : ∃ E, E = h.heapPos + pagesFor n * 4096 := ⟨_, rfl⟩
  obtain ⟨g, hg⟩ : ∃ g : Segment, g = ⟨h.heapPos, pagesFor n * 4096⟩ := ⟨_, rfl⟩
  have hgb : g.base = h.heapPos := by rw [hg]
  have hgs : g.size = pagesFor n * 4096 := by rw [hg]
  have huser : userEnd < wordSize := by decide
  have hstart : 0 < heapStart := by decide
  have hshows : Shows E (allocPages h.heapPos (pagesFor n) h.list.mem) h.list.mem.words := by
    refine ⟨rfl, fun a ha haE => ?_⟩
    show (h.list.mem.mapped (a / 4096) || _) = true
    by_cases hold : a < h.heapPos
    · rw [hs.mapped a ha hold]
      rfl
    · rw [Bool.or_eq_true, decide_eq_true_eq]
      exact .inr (by omega)
  have hfit : g.Fits 64 (nodes E) := by
    refine ⟨⟨?_, ?_, ?_⟩, ?_, ?_, ?_, ?_⟩
    · rw [hgb]
      exact Nat.dvd_trans (by decide) hpage
    · rw [hgb]
      exact hlow
    · omega
    · omega
    · omega
    · rw [hgs]
      exact Nat.dvd_trans (by decide : 64 ∣ 4096) (Nat.dvd_mul_left ..)
    · omega
  have hholds := holds_mono (show h.heapPos ≤ E by omega) hs.books.holds
  have hfar : ∀ k ∈ segs ++ live, g.Apart k := by
    intro k hk
    have hpos : 0 < k.size := by
      obtain hk | hk := List.mem_append.1 hk
      · exact (hs.books.holds.fits k hk).size_pos
      · have := (hs.books.blocks k hk).2.2
        omega
    have := hs.books.range hk hpos
    unfold Segment.Apart
    omega
  obtain ⟨l', c', segs', hl', hR', hcov, hco⟩ := markFree_spec
    (l := { h.list with mem := allocPages h.heapPos (pagesFor n) h.list.mem })
    (userView_simulates E) (by decide) hshows hholds hs.books.coalesced hfit
    fun k hk => hfar k (List.mem_append_left _ hk)
  have hmove : (segs ++ [g] ++ live).Perm (g :: (segs ++ live)) := by
    rw [List.append_assoc, List.singleton_append]
    exact List.perm_middle
  have hap : (segs ++ [g] ++ live).Pairwise Segment.Apart :=
    (hmove.pairwise_iff fun h => h.symm).2 (List.pairwise_cons.2 ⟨hfar, hs.books.apart⟩)
  have hres : covered (segs ++ [g] ++ live) = Set.Ico heapStart E := by
    have hcons : covered ([g] ++ (segs ++ live)) = covered [g] ∪ covered (segs ++ live) :=
      covered_append
    rw [List.singleton_append] at hcons
    rw [covered_perm hmove, hcons, hs.books.reserved]
    ext x
    simp only [Set.mem_union, mem_covered, List.mem_singleton, exists_eq_left, Set.mem_Ico]
    omega
  have hbooks := books_of_covers hcov hco hap hres hs.books.blocks hs.books.header
  obtain ⟨k, hk, hklo, hkhi⟩ := hco.interval hcov.holds.apart (show h.heapPos < E by omega)
    fun x hlo hhi => by
      rw [hcov.covered_eq]
      exact ⟨g, by simp, by omega, by omega⟩
  refine ⟨⟨l', E⟩, segs', ?_, ⟨?_, ?_, ?_, ?_, ?_⟩, k, hk, by omega⟩
  · have hsize : pagesFor n * 4096 % wordSize = pagesFor n * 4096 := Nat.mod_eq_of_lt (by omega)
    have hend : (h.heapPos + pagesFor n * 4096) % wordSize = E := by
      rw [hE, Nat.mod_eq_of_lt (by omega)]
    rw [hgb, hgs] at hl'
    simp only [reserveNew, hsize, hl', hend, Option.bind_eq_bind, Option.bind_some]
  · show Books E l'.mem.words l'.head l'.tail segs' live
    rw [hR'.words]
    exact hbooks
  · exact hR'.mapped
  · show 4096 ∣ E
    rw [hE]
    exact Nat.dvd_add hpage (Nat.dvd_mul_left ..)
  · show heapStart ≤ E
    omega
  · show E ≤ userEnd
    omega

/-- The first half of `malloc` finds a segment with enough room. -/
theorem findOrReserve_ok (hs : Sound h segs live) (hn : 0 < n) (hwrap : n + 4095 < wordSize)
    (hgrant : findFree userView h.list n = some 0 → h.heapPos + pagesFor n * 4096 ≤ userEnd) :
    ∃ g h' segs', findOrReserve n h = some (g.base, h') ∧ Sound h' segs' live ∧ g ∈ segs' ∧
      n ≤ g.size := by
  obtain ⟨g, hg, hle, hfind, hne⟩ | ⟨-, hnone⟩ := findFree_ok hs n
  · refine ⟨g, h, segs, ?_, hs, hg, hle⟩
    simp only [findOrReserve, hfind, Option.bind_eq_bind, Option.bind_some, if_neg hne]
  · obtain ⟨h₁, segs₁, hres, hs₁, k, hk, hkn⟩ := reserveNew_ok hs hn hwrap (hgrant hnone)
    obtain ⟨g, hg, hle, hfind, -⟩ | ⟨hall, -⟩ := findFree_ok hs₁ n
    · refine ⟨g, h₁, segs₁, ?_, hs₁, hg, hle⟩
      simp only [findOrReserve, hnone, hres, hfind, Option.bind_eq_bind, Option.bind_some, if_pos]
    · have := hall k hk
      omega

/-- **`malloc`** of a small size returns a zeroed block that is live from then on. -/
theorem malloc_ok (hs : Sound h segs live) (hwrap : n + 79 < sizeTop) (hgrant : Granted n h)
    (hsmall : blockSize n < 2 ^ 31) :
    ∃ b h' segs', malloc n h = some (b + 16, h') ∧
      Sound h' segs' (live ++ [Segment.mk b (blockSize n)]) ∧
      ∀ a, 8 ∣ a → b + 16 ≤ a → a < b + blockSize n → h'.list.mem.words a = 0 := by
  obtain ⟨hdvd, -, -, hmin⟩ := blockSize_bounds hwrap
  have hword : 2 ^ 31 + 4095 < wordSize := by decide
  obtain ⟨g, h₁, segs₁, hfind, hs₁, hg, hle⟩ := findOrReserve_ok hs (by omega) (by omega) hgrant
  obtain ⟨xs, ys, rfl⟩ := List.append_of_mem hg
  have hfg := hs₁.books.holds.fits g hg
  obtain ⟨hg64, hglo, -⟩ := hfg.node
  have hrange := hs₁.books.range (List.mem_append_left _ hg) hfg.size_pos
  have htop := hs₁.top
  have huser : userEnd + 16 < wordSize := by decide
  obtain ⟨l', c₁, hl', hR₁, hcov⟩ := markUsed_spec (userView_simulates h₁.heapPos) (by decide) hs₁.shows
    hs₁.books.holds (n := blockSize n) (by omega) hdvd fun hlt => by
      refine ⟨Nat.dvd_add hg64 hdvd, by omega, ?_⟩
      have h64 : 64 ∣ g.size - blockSize n := Nat.dvd_sub hfg.granule hdvd
      have := Nat.le_of_dvd (by omega) h64
      omega
  have hwords : 8 * (0 + blockSize n / 8) = blockSize n := by
    rw [Nat.zero_add]
    exact Nat.mul_div_cancel' (Nat.dvd_trans (by decide) hdvd)
  obtain ⟨s₂, c₂, hs₂, hR₂, hzero, hkeep₂⟩ :=
    clear_spec (i := 0) (n := blockSize n / 8) hR₁ hglo (by omega) (by omega)
  obtain ⟨s₃, hs₃, hR₃⟩ := hR₂.store hglo (by omega) (blockSize n)
  have hkeep : ∀ a, a < g.base ∨ g.base + blockSize n ≤ a →
      Function.update c₂ g.base (blockSize n) a = c₁ a := by
    intro a ha
    rw [Function.update_of_ne (by omega), hkeep₂ a (by omega)]
  have hbooks := hs₁.books.take hdvd hmin hle hcov (Function.update_self ..) hkeep
  refine ⟨g.base, ⟨{ l' with mem := s₃ }, h₁.heapPos⟩, taken xs g ys (blockSize n), ?_,
    ⟨?_, hR₃.mapped, hs₁.page, hs₁.low, hs₁.top⟩, fun a ha hlo hhi => ?_⟩
  · have hret : (g.base + 16) % wordSize = g.base + 16 := Nat.mod_eq_of_lt (by omega)
    simp only [malloc, hfind, hl', memset, hs₂, hs₃, hret, Option.bind_eq_bind, Option.bind_some]
  · show Books h₁.heapPos s₃.words l'.head l'.tail _ _
    rw [hR₃.words]
    exact hbooks
  · show s₃.words a = 0
    have h8 : 8 ∣ a - g.base := Nat.dvd_sub ha (Nat.dvd_trans (by decide) hg64)
    obtain ⟨j, hj⟩ := h8
    have haj : a = g.base + 8 * j := by omega
    rw [hR₃.words, Function.update_of_ne (by omega), haj]
    exact hzero j (by omega) (by omega)

/-- `malloc` of any other size does not return: `memset` fails if nothing before it did. -/
theorem malloc_none (hbig : 2 ^ 31 ≤ blockSize n) : malloc n h = none := by
  have hdvd : 8 ∣ blockSize n := by
    refine Nat.dvd_trans (by decide : 8 ∣ 64) ?_
    exact (Nat.dvd_mod_iff (by decide)).2 (Nat.dvd_mul_left ..)
  have hwords : 8 * (0 + blockSize n / 8) = blockSize n := by
    rw [Nat.zero_add]
    exact Nat.mul_div_cancel' hdvd
  rw [malloc]
  cases findOrReserve (blockSize n) h with
  | none => rfl
  | some r =>
    obtain ⟨g, h₁⟩ := r
    show (markUsed userView h₁.list g (blockSize n) >>= _) = none
    cases markUsed userView h₁.list g (blockSize n) with
    | none => rfl
    | some list =>
      show (memset g (blockSize n) list.mem >>= _) = none
      rw [memset, clear_none (by omega) (by omega)]
      rfl

/-- **`free`** of a live block gives its bytes back to the free segments. -/
theorem free_ok (hs : Sound h segs live) {i : Nat} (hi : live[i]? = some b) :
    ∃ h' segs', free (b.base + 16) h = some h' ∧ Sound h' segs' (live.eraseIdx i) := by
  have hb : b ∈ live := List.mem_of_getElem? hi
  obtain ⟨hb64, hbs64, hbmin⟩ := hs.books.blocks b hb
  obtain ⟨hblo, hbhi⟩ := hs.books.block_range hb
  have htop := hs.top
  have huser : userEnd + 16 < wordSize := by decide
  have hstart : 0 < heapStart := by decide
  have hfit : b.Fits 64 (nodes h.heapPos) :=
    ⟨⟨hb64, hblo, by omega⟩, by omega, by omega, hbs64, by omega⟩
  obtain ⟨l', c', segs', hl', hR', hcov, hco⟩ := markFree_spec (userView_simulates h.heapPos)
    (by decide) hs.shows hs.books.holds hs.books.coalesced hfit (hs.books.block_apart hb)
  have hlt : i < live.length := (List.getElem?_eq_some_iff.1 hi).1
  have hib : live[i] = b := (List.getElem?_eq_some_iff.1 hi).2
  have hmove : (segs ++ [b] ++ live.eraseIdx i).Perm (segs ++ live) := by
    rw [List.append_assoc, List.singleton_append]
    exact List.Perm.append_left _ (hib ▸ List.getElem_cons_eraseIdx_perm hlt)
  have hsub : ∀ k ∈ live.eraseIdx i, k ∈ live := fun k hk => List.mem_of_mem_eraseIdx hk
  have hbooks := books_of_covers hcov hco ((hmove.pairwise_iff fun h => h.symm).2 hs.books.apart)
    ((covered_perm hmove).trans hs.books.reserved) (fun k hk => hs.books.blocks k (hsub k hk))
    fun k hk => hs.books.header k (hsub k hk)
  refine ⟨{ h with list := l' }, segs', ?_, ⟨?_, hR'.mapped, hs.page, hs.low, hs.top⟩⟩
  · have hback : (b.base + 16 + wordSize - 16) % wordSize = b.base := by
      have hsum : b.base + 16 + wordSize - 16 = b.base + wordSize := by omega
      rw [hsum, Nat.add_mod_right, Nat.mod_eq_of_lt (by omega)]
    have hload := hs.shows.load hblo (by omega : b.base < h.heapPos)
    rw [hs.books.header b hb] at hload
    rw [free, if_neg (by omega)]
    simp only [hback, hload, hl', Option.bind_eq_bind, Option.bind_some]
  · show Books h.heapPos l'.mem.words l'.head l'.tail _ _
    rw [hR'.words]
    exact hbooks

/-- What the program writes into its blocks, the heap does not read. -/
theorem write_ok (hs : Sound h segs live) {a v : Nat} (hb : b ∈ live) (hlo : b.base + 16 ≤ a)
    (hhi : a + 8 ≤ b.base + b.size) (ha : 8 ∣ a) :
    ∃ mem, userView.store h.list.mem a v = some mem ∧
      Sound { h with list := { h.list with mem := mem } } segs live := by
  obtain ⟨hblo, hbhi⟩ := hs.books.block_range hb
  obtain ⟨mem, hmem, hR⟩ := hs.shows.store (a := a) (by omega) (by omega) v
  refine ⟨mem, hmem, ⟨?_, hR.mapped, hs.page, hs.low, hs.top⟩⟩
  show Books h.heapPos mem.words h.list.head h.list.tail segs live
  rw [hR.words]
  have hbooks := hs.books
  refine ⟨holds_congr hbooks.holds fun k hk j hj => ?_, hbooks.coalesced, hbooks.apart, hbooks.reserved,
    hbooks.blocks, fun k hk => ?_⟩
  · have hk32 := (hbooks.holds.fits k hk).header (by omega)
    have := hbooks.block_apart hb k hk
    unfold Segment.Apart at this
    rw [Function.update_of_ne (by omega)]
  · rw [Function.update_of_ne, hbooks.header k hk]
    rintro rfl
    by_cases hkb : k = b
    · subst hkb
      omega
    · have hlive := (List.pairwise_append.1 hbooks.apart).2.1
      have := hlive.forall hk hb hkb
      have := (hbooks.blocks k hk).2.2
      unfold Segment.Apart at *
      omega

/-! ## Runs -/

/-- What holds between two calls. -/
def Inv (s : State) : Prop := ∃ segs, Sound s.heap segs s.live

theorem holds_nil (N : Set Nat) (c : Nat → Nat) : Holds 64 N c 0 0 [] := by
  refine ⟨⟨Links.ring_nil rfl rfl, ?_, .nil⟩, ?_, ?_, ?_, .nil⟩
  · intro x hx
    cases hx
  · intro k hk
    cases hk
  · intro k hk
    cases hk
  · intro k hk
    cases hk

theorem inv_initial (mem : UserMem) : Inv (initial mem) := by
  refine ⟨[], ⟨⟨holds_nil _ _, ?_, .nil, ?_, ?_, ?_⟩, ?_, ?_, le_rfl, ?_⟩⟩
  · intro k hk
    cases hk
  · ext x
    simp [initial]
  · intro b hb
    cases hb
  · intro b hb
    cases hb
  · intro a hlo hhi
    exact absurd hhi (Nat.not_lt.2 hlo)
  · show 4096 ∣ 0xFF000000
    decide
  · show 0xFF000000 ≤ 2 ^ 39
    decide

theorem Inv.step {s s' : State} {e : Event} (hs : Inv s) (he : Enabled s e) (hsmall : Small e)
    (hstep : step s e = some s') : Inv s' := by
  obtain ⟨segs, hs⟩ := hs
  cases e with
  | malloc n =>
    obtain ⟨b, h', segs', hmalloc, hs', -⟩ := malloc_ok hs he.1 he.2 hsmall
    rw [Libc.step, hmalloc] at hstep
    obtain rfl := Option.some.inj hstep
    exact ⟨segs', hs'⟩
  | free i =>
    obtain ⟨b, hi, hfree⟩ := Option.bind_eq_some_iff.1 hstep
    obtain ⟨h', segs', hok, hs'⟩ := free_ok hs hi
    rw [hok] at hfree
    obtain rfl := Option.some.inj hfree
    exact ⟨segs', hs'⟩
  | write a v =>
    obtain ⟨ha, -, b, hb, hlo, hhi⟩ := he
    obtain ⟨mem, hmem, hs'⟩ := write_ok hs (v := v) hb hlo hhi ha
    rw [Libc.step, hmem] at hstep
    obtain rfl := Option.some.inj hstep
    exact ⟨segs, hs'⟩

/-- **The heap of a process, for small blocks.** In every state that a run reaches the books are right;
`malloc` returns an aligned and zeroed block of `n` bytes and more if the rounded size is less than
`2 ^ 31`, and does not return otherwise; and every live block can be freed. -/
theorem heap_safe (mem : UserMem) {s : State}
    (h : Runs step (fun s e => Enabled s e ∧ Small e) (initial mem) s) :
    (∃ segs, Books s.heap.heapPos s.heap.list.mem.words s.heap.list.head s.heap.list.tail segs s.live) ∧
    (∀ n, n + 79 < sizeTop → Granted n s.heap →
      (Small (.malloc n) → ∃ p heap, malloc n s.heap = some (p, heap) ∧ 16 ∣ p ∧ 16 ≤ p ∧
        p + n ≤ p - 16 + blockSize n ∧
        ∀ a, 8 ∣ a → p ≤ a → a < p - 16 + blockSize n → heap.list.mem.words a = 0) ∧
      (¬ Small (.malloc n) → malloc n s.heap = none)) ∧
    ∀ b ∈ s.live, ∃ heap, free (b.base + 16) s.heap = some heap := by
  obtain ⟨segs, hs⟩ : Inv s :=
    h.inv (inv_initial mem) fun s e s' hi hok hstep => hi.step hok.1 hok.2 hstep
  refine ⟨⟨segs, hs.books⟩, fun n hwrap hgrant => ⟨fun hsmall => ?_, fun hbig => ?_⟩, fun b hb => ?_⟩
  · obtain ⟨b, h', segs', hmalloc, hs', hzero⟩ := malloc_ok hs hwrap hgrant hsmall
    obtain ⟨-, hroom, -⟩ := blockSize_bounds hwrap
    have hb := (hs'.books.blocks (Segment.mk b (blockSize n)) (by simp)).1
    have hback : b + 16 - 16 = b := Nat.add_sub_cancel ..
    refine ⟨b + 16, h', hmalloc, ?_, by omega, by omega, ?_⟩
    · exact Nat.dvd_add (Nat.dvd_trans (by decide) hb) (by decide)
    · rw [hback]
      exact hzero
  · exact malloc_none (Nat.le_of_not_lt hbig)
  · obtain ⟨i, hi⟩ := List.getElem?_of_mem hb
    obtain ⟨h', segs', hfree, -⟩ := free_ok hs hi
    exact ⟨h', hfree⟩

/-- A process of which no page is mapped yet. -/
def unmapped : UserMem := ⟨fun _ => 0, fun _ => false⟩

/-- The books after a first call of `malloc`. -/
theorem heap_safe_first : ∃ s : State, s.live.length = 1 ∧ ∃ segs,
    Books s.heap.heapPos s.heap.list.mem.words s.heap.list.head s.heap.list.tail segs s.live := by
  have hgrant : Granted 100 (initial unmapped).heap := fun _ => by decide
  obtain ⟨segs, hs⟩ := inv_initial unmapped
  obtain ⟨b, h', -, hmalloc, -⟩ := malloc_ok hs (by decide) hgrant (by decide)
  have hstep : step (initial unmapped) (.malloc 100) = some ⟨h', [Segment.mk b (blockSize 100)]⟩ := by
    rw [step, hmalloc]
    rfl
  have hrun : Runs step (fun s e => Enabled s e ∧ Small e) (initial unmapped) _ :=
    .head (e := .malloc 100) ⟨⟨by decide, hgrant⟩, show blockSize 100 < 2 ^ 31 by decide⟩ hstep (.refl _)
  exact ⟨_, rfl, (heap_safe unmapped hrun).1⟩

/-- A call of `malloc` with the size `2 ^ 31` does not return: the `int` that `memset` counts with does not
get that far. -/
theorem malloc_huge_fails : 2 ^ 31 + 79 < sizeTop ∧ Granted (2 ^ 31) (initial unmapped).heap ∧
    malloc (2 ^ 31) (initial unmapped).heap = none :=
  ⟨by decide, fun _ => by decide, malloc_none (by decide)⟩

end ChenixOS.Libc
