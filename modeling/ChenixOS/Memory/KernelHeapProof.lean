import ChenixOS.Lib.Transitions
import ChenixOS.Memory.Coalescing
import ChenixOS.Memory.HeapMemory

/-!
# The kernel heap is safe

Free segments and live blocks together are the range from `HeapBase` to `g_HeapPos`, and no two of them
overlap. No two free segments are adjacent, so the pages that `ReserveNew` adds end up in one segment, and
the second search of `Allocate` finds it.
-/

namespace ChenixOS.KernelHeap

open MemoryManager FreeList Transitions
open Libc (Coalesced)

variable {s s' : MemoryManager.State} {roots F F' : List Nat} {E a n : Nat} {c c' : Nat → Nat}
  {g b : Segment} {segs live : List Segment} {h h' : Heap}

/-! ## The invariant -/

/-- **The invariant**: the heap reads as `c`, the free segments are `segs` and the live blocks `live`. -/
structure Sound (h : Heap) (roots F : List Nat) (c : Nat → Nat) (segs live : List Segment) : Prop where
  shows : Shows roots F h.heapPos h.list.mem c
  /-- Free segments and live blocks do not overlap and make up the reserved range. -/
  accounts : Accounts 64 (nodes h.heapPos) c h.list.head h.list.tail segs live (Set.Ico heapBase h.heapPos)
  coalesced : Coalesced segs
  header : ∀ b ∈ live, c b.base = b.size
  page : 4096 ∣ h.heapPos
  low : heapBase ≤ h.heapPos

theorem Sound.top (hs : Sound h roots F c segs live) : h.heapPos ≤ highMemBase := hs.shows.backed.top

theorem Sound.fits_range (hs : Sound h roots F c segs live) (hb : b ∈ segs ∨ b ∈ live) :
    b.Fits 64 (nodes h.heapPos) ∧ b.base + b.size ≤ h.heapPos := by
  have hfit : b.Fits 64 (nodes h.heapPos) := hb.elim (hs.accounts.holds.fits b) (hs.accounts.fits b)
  have hpos := hfit.size_pos
  have hlast := hs.accounts.sub hb (show b.base + b.size - 1 ∈ _ from ⟨by omega, by omega⟩)
  exact ⟨hfit, by have := hlast.2; omega⟩

/-- Where a live block is. -/
theorem Sound.block_range (hs : Sound h roots F c segs live) (hb : b ∈ live) :
    64 ∣ b.base ∧ 64 ∣ b.size ∧ 64 ≤ b.size ∧ heapBase ≤ b.base ∧ b.base + b.size ≤ h.heapPos := by
  obtain ⟨hfit, htop⟩ := hs.fits_range (.inr hb)
  obtain ⟨hdvd, hlo, -⟩ := hfit.node
  exact ⟨hdvd, hfit.granule, Nat.le_of_dvd hfit.size_pos hfit.granule, hlo, htop⟩

/-- The word that `Free` and `GetSize` read. -/
theorem Sound.load_header (hs : Sound h roots F c segs live) (hb : b ∈ live) :
    heapView.load h.list.mem ((b.base + 64 + wordSize - 64) % wordSize) = some b.size := by
  obtain ⟨hdvd, -, hmin, hlo, hhi⟩ := hs.block_range hb
  have htop := hs.top
  have hword : highMemBase < wordSize := by decide
  have hsum : b.base + 64 + wordSize - 64 = b.base + wordSize := by omega
  have h8 : 8 ∣ b.base := Nat.dvd_trans (by decide) hdvd
  rw [hsum, Nat.add_mod_right, Nat.mod_eq_of_lt (by omega),
    hs.shows.words b.base h8 hlo (by omega), hs.header b hb]

/-! ## Growing -/

/-- The pages that a block of `size` bytes needs. -/
def heapPages (size : Nat) : Nat := (size + 4095) / 4096

/-- **What is assumed of `AllocatePages`**, when there is no free segment for `size` bytes: it has the
pages in a row, and all in all as many pages as are missing in the page tables. -/
def Granted (size : Nat) (h : Heap) : Prop :=
  findFree heapView h.list size = some 0 →
    ¬ NoRoom h.list.mem (heapPages size) ∧ ∀ F, MemoryManager.Pool h.list.mem F →
      ((pagesFrom h.heapPos (heapPages size)).foldl withPath
        (treeShape h.list.mem.mem (heapRoot h.list.mem))).card ≤
          F.length + (treeShape h.list.mem.mem (heapRoot h.list.mem)).card

/-- Taking pages from the pool changes nothing in the heap. -/
theorem Shows.moved (hs : Shows roots F E s c) {B : List Nat} (hperm : F.Perm (B ++ F'))
    (hmoved : Moved s s' F') : Shows roots F' E s' c ∧ Distinct s'.mem roots (B ++ F') ∧
      treeShape s'.mem (heapRoot s') = treeShape s.mem (heapRoot s) := by
  have hb := hs.backed
  have hd := hb.inv.toDistinct.perm hperm
  have hword : ∀ x ∈ refs s.mem roots, ∀ j < 512,
      s'.mem (highMemBase + x + 8 * j) = s.mem (highMemBase + x + 8 * j) := by
    intro x hx j hj
    refine hmoved.frame _ (not_mem_pages (hb.inv.frame x hx) hj hmoved.pool.frame fun hxF => ?_)
    exact hd.not_mem_free hx (List.mem_append_right _ hxF)
  have htables : SameTables s s' roots := fun r hr x hx => hword x (MemoryManager.tables_mem hr hx)
  have hrefs := refs_congr htables
  have hroot : heapRoot s' = heapRoot s := by rw [heapRoot, hmoved.myPML4, heapRoot]
  have hframe : ∀ u, frameOf s' (heapRoot s) u = frameOf s (heapRoot s) u := fun u =>
    htables.frameOf_eq hb.root u
  have hd' : Distinct s'.mem roots (B ++ F') := by
    refine ⟨?_, ?_⟩
    · rw [hrefs]
      exact hd.nodup
    · rw [hrefs]
      exact hd.frame
  have hb' : Backed s' roots F' E := by
    refine ⟨⟨⟨hd'.nodup.sublist ?_, hd'.frame⟩, hmoved.pool⟩, hroot ▸ hb.root, ?_, ?_, ?_, hb.top⟩
    · exact (List.sublist_append_right _ _).append_right _
    · rw [hmoved.myPML4]
      exact hb.present
    · intro u hlo hhi
      rw [hroot, hframe]
      exact hb.mapped u hlo hhi
    · intro u hlo hhi
      rw [hroot, hframe]
      exact hb.unmapped u hlo hhi
  refine ⟨⟨hb', fun u hu hlo hhi => ?_⟩, hd', ?_⟩
  · obtain ⟨x, hx⟩ := hb.mapped u hlo hhi
    have hload := hs.words u hu hlo hhi
    rw [hb.load_eq hlo hhi hx] at hload
    have hsame := hword x (frameOf_mem_refs hb.root hx) (u % 4096 / 8) (by omega)
    have hoff : 8 * (u % 4096 / 8) = u % 4096 := by omega
    rw [hoff] at hsame
    rw [hb'.load_eq hlo hhi (by rw [hroot, hframe, hx]), hsame]
    exact hload
  · rw [hroot]
    exact treeShape_congr (htables _ hb.root)

/-- `FindFree` gives a segment with enough room, or there is none. -/
theorem Sound.findFree (hs : Sound h roots F c segs live) (n : Nat) :
    (∃ g ∈ segs, n ≤ g.size ∧ findFree heapView h.list n = some g.base ∧ g.base ≠ 0) ∨
      (∀ g ∈ segs, g.size < n) ∧ findFree heapView h.list n = some 0 := by
  have hfind := findFree_spec (heapView_simulates roots F h.heapPos) hs.shows hs.accounts.holds n
  cases hg : segs.find? fun g => decide (n ≤ g.size) with
  | none =>
    refine .inr ⟨fun g hmem => ?_, by rw [hfind, hg]; rfl⟩
    simpa using List.find?_eq_none.1 hg g hmem
  | some g =>
    have hmem := List.mem_of_find?_eq_some hg
    refine .inl ⟨g, hmem, ?_, by rw [hfind, hg]; rfl, (hs.accounts.holds.fits g hmem).pos.ne'⟩
    simpa using List.find?_some hg

/-- The bytes of new pages are marked as free: they are in one segment. -/
theorem Sound.addPages (hs : Sound h roots F c segs live) {k : Nat} (hk : 0 < k)
    (hshows : Shows roots F' (h.heapPos + 4096 * k) s c') (hc : ∀ a < h.heapPos, c' a = c a) :
    ∃ l c₁ segs', markFree heapView { h.list with mem := s } h.heapPos (4096 * k) = some l ∧
      Sound ⟨l, h.heapPos + 4096 * k⟩ roots F' c₁ segs' live ∧ ∃ g ∈ segs', 4096 * k ≤ g.size := by
  have hpage := hs.page
  have hlow := hs.low
  have htop := hshows.backed.top
  have hword : highMemBase + 64 < wordSize := by decide
  have hbase : 0 < heapBase := by decide
  obtain ⟨b, hb⟩ : ∃ b : Segment, b = ⟨h.heapPos, 4096 * k⟩ := ⟨_, rfl⟩
  have hbb : b.base = h.heapPos := by rw [hb]
  have hbs : b.size = 4096 * k := by rw [hb]
  have hsub : nodes h.heapPos ⊆ nodes (h.heapPos + 4096 * k) := by
    rintro x ⟨hdvd, hlo, hhi⟩
    exact ⟨hdvd, hlo, by omega⟩
  have hfit : b.Fits 64 (nodes (h.heapPos + 4096 * k)) := by
    refine ⟨⟨?_, ?_, ?_⟩, ?_, ?_, ?_, ?_⟩
    · rw [hbb]
      exact Nat.dvd_trans (by decide) hpage
    · omega
    · omega
    · omega
    · omega
    · rw [hbs]
      exact Nat.dvd_trans (by decide : 64 ∣ 4096) (Nat.dvd_mul_right ..)
    · omega
  -- The pages are first taken to be a block that was handed out.
  have hacc := (hs.accounts.congr (by decide) fun a ha => hc a
    (hs.accounts.sub_free ha).2).extend hsub hfit fun x h1 h2 hx => absurd hx.2 (by omega)
  have hunion : Set.Ico heapBase h.heapPos ∪ Set.Ico b.base (b.base + b.size) =
      Set.Ico heapBase (h.heapPos + 4096 * k) := by
    ext x
    simp only [Set.mem_union, Set.mem_Ico]
    omega
  rw [hunion] at hacc
  obtain ⟨l, c₁, segs', hl, hR, hcov, hco⟩ := markFree_coalesces (l := { h.list with mem := s })
    (heapView_simulates roots F' _) (by decide) hshows hacc.holds hs.coalesced hfit
    fun j hj => (hacc.apart j hj b (by simp)).symm
  have hacc₁ := hacc.freed (by simp) hcov
  rw [List.erase_cons_head] at hacc₁
  obtain ⟨g, hg, hglo, hghi⟩ := hco.interval hcov.holds.apart
    (show h.heapPos < h.heapPos + 4096 * k by omega) fun x hlo hhi => by
      rw [hcov.covered_eq]
      exact .inr ⟨by omega, by omega⟩
  refine ⟨l, c₁, segs', by rw [← hl, hbb, hbs], ⟨hR, hacc₁, hco, fun j hj => ?_, ?_, ?_⟩, g, hg, by omega⟩
  · obtain ⟨-, -, hmin, -, hhi⟩ := hs.block_range hj
    rw [hcov.frame j.base, hc _ (by omega), hs.header j hj]
    rintro (hx | hx)
    · obtain ⟨i, hi, hxi⟩ := hx
      exact (hs.accounts.apart i hi j hj).not_mem hxi ⟨le_rfl, by omega⟩
    · have := hx.1
      omega
  · exact Nat.dvd_add hpage (Nat.dvd_mul_right ..)
  · show heapBase ≤ h.heapPos + 4096 * k
    omega

/-- **`ReserveNew`** adds pages, and afterwards there is a segment with enough room. -/
theorem Sound.reserveNew (hs : Sound h roots F c segs live) (hn : 0 < n) (hint : n ≤ 2 ^ 31)
    (hnone : FreeList.findFree heapView h.list n = some 0) (hgrant : Granted n h) :
    ∃ h' F' c' segs', KernelHeap.reserveNew n h = some h' ∧ Sound h' roots F' c' segs' live ∧
      ∃ g ∈ segs', n ≤ g.size := by
  obtain ⟨hroom, hmany⟩ := hgrant hnone
  obtain ⟨k, hk⟩ : ∃ k, heapPages n = k := ⟨_, rfl⟩
  rw [hk] at hroom hmany
  have hkdef : (n + 4095) / 4096 = k := hk
  have hword : wordSize = 2 ^ 64 := rfl
  have hpages : (n + 4095) % wordSize / 4096 = k := by rw [Nat.mod_eq_of_lt (by omega), hkdef]
  have hpool := hs.shows.backed.inv.pool
  obtain ⟨hbad, -⟩ | ⟨g, F₁, s₁, hperm, hal, hmoved, hrefused⟩ :=
    allocatePages_many hpool (n := k) (by omega) (by omega)
  · exact absurd hbad hroom
  · obtain ⟨hs₁, hd₁, hshape⟩ := hs.shows.moved hperm hmoved
    have hF : ∀ f ∈ blockFrames g k ++ F₁, Frame f := fun f hf => hpool.frame f (hperm.mem_iff.2 hf)
    have hlen := hperm.length_eq
    rw [List.length_append, length_blockFrames] at hlen
    have htop := hs₁.backed.room hs.low hs.page hd₁ hF
    rw [List.length_append, length_blockFrames] at htop
    have henough : ((pagesFrom (h.heapPos + 4096 * 0) k).foldl withPath
        (treeShape s₁.mem (heapRoot s₁))).card ≤ F₁.length + k + (treeShape s₁.mem (heapRoot s₁)).card := by
      rw [hshape, Nat.mul_zero, Nat.add_zero, Nat.add_comm F₁.length k, ← hlen]
      exact hmany F hpool
    obtain ⟨s₂, F₂, c₂, hmap, hs₂, -, -, hc₂⟩ := Shows.mapPages (v := h.heapPos) (i := 0) (n := k) (g := g)
      hs₁ hd₁
      (fun f hf => hF f (List.mem_append_left _ hf)) hs.low hs.page (by omega) (by omega) henough
    rw [Nat.zero_add] at hs₂
    obtain ⟨l, c', segs', hl, hs', j, hj, hjk⟩ := hs.addPages (by omega : 0 < k) hs₂ hc₂
    refine ⟨⟨l, h.heapPos + 4096 * k⟩, F₂, c', segs', ?_, hs', j, hj, by omega⟩
    have hhigh : highMemBase < wordSize := by decide
    have hsize : k * 4096 % wordSize = 4096 * k := by
      rw [Nat.mul_comm, Nat.mod_eq_of_lt (by omega)]
    have hend : (h.heapPos + k * 4096) % wordSize = h.heapPos + 4096 * k := by
      rw [Nat.mul_comm, Nat.mod_eq_of_lt (by omega)]
    simp only [KernelHeap.reserveNew, hpages, hal, hmap, hsize, hl, hend, Option.bind_eq_bind,
      Option.bind_some]

/-- The first half of `Allocate` finds a segment with enough room. -/
theorem Sound.findOrReserve (hs : Sound h roots F c segs live) (hn : 0 < n)
    (hfit : FreeList.findFree heapView h.list n ≠ some 0 ∨ n ≤ 2 ^ 31) (hgrant : Granted n h) :
    ∃ g h' F' c' segs', KernelHeap.findOrReserve n h = some (g.base, h') ∧
      Sound h' roots F' c' segs' live ∧ g ∈ segs' ∧ n ≤ g.size := by
  obtain ⟨g, hg, hle, hfind, hne⟩ | ⟨-, hnone⟩ := hs.findFree n
  · refine ⟨g, h, F, c, segs, ?_, hs, hg, hle⟩
    simp only [KernelHeap.findOrReserve, hfind, Option.bind_eq_bind, Option.bind_some, if_neg hne]
  · have hint := hfit.resolve_left fun hne => hne hnone
    obtain ⟨h₁, F₁, c₁, segs₁, hres, hs₁, k, hk, hkn⟩ := hs.reserveNew hn hint hnone hgrant
    obtain ⟨g, hg, hle, hfind, -⟩ | ⟨hall, -⟩ := hs₁.findFree n
    · refine ⟨g, h₁, F₁, c₁, segs₁, ?_, hs₁, hg, hle⟩
      simp only [KernelHeap.findOrReserve, hnone, hres, hfind, Option.bind_eq_bind, Option.bind_some,
        if_pos]
    · have := hall k hk
      omega

/-! ## The calls -/

/-- The size of a block for which the rounding does not wrap. -/
theorem blockSize_bounds (hwrap : (n + 63) / 64 * 64 + 64 < wordSize) :
    64 ∣ blockSize n ∧ n + 64 ≤ blockSize n ∧ blockSize n < n + 128 ∧
      blockSize n = (n + 63) / 64 * 64 + 64 := by
  have hn : blockSize n = (n + 63) / 64 * 64 + 64 := by
    rw [blockSize, Nat.mod_eq_of_lt (by omega : n + 63 < wordSize), Nat.mod_eq_of_lt hwrap]
  rw [hn]
  exact ⟨Nat.dvd_add (Nat.dvd_mul_left ..) (by decide), by omega, by omega, rfl⟩

/-- **`Allocate`** returns a block that is live from then on. -/
theorem Sound.allocate (hs : Sound h roots F c segs live) (hwrap : (n + 63) / 64 * 64 + 64 < wordSize)
    (hfit : FreeList.findFree heapView h.list (blockSize n) ≠ some 0 ∨ blockSize n ≤ 2 ^ 31)
    (hgrant : Granted (blockSize n) h) :
    ∃ b h' F' c' segs', KernelHeap.allocate n h = some (b + 64, h') ∧
      Sound h' roots F' c' segs' (Segment.mk b (blockSize n) :: live) := by
  obtain ⟨hdvd, hmin, -, -⟩ := blockSize_bounds hwrap
  obtain ⟨g, h₁, F₁, c₁, segs₁, hfind, hs₁, hg, hle⟩ := hs.findOrReserve (by omega) hfit hgrant
  obtain ⟨hfg, hgtop⟩ := hs₁.fits_range (.inl hg)
  obtain ⟨hg64, hglo, -⟩ := hfg.node
  have htop := hs₁.top
  have hhigh : highMemBase + 64 < wordSize := by decide
  obtain ⟨l', c₂, segs₂, hl', hR₂, hcov, hco⟩ := markUsed_coalesces
    (heapView_simulates roots F₁ h₁.heapPos) (by decide) hs₁.shows hs₁.accounts.holds hs₁.coalesced hg
    (by omega) hle hdvd fun hlt => by
      refine ⟨Nat.dvd_add hg64 hdvd, by omega, ?_⟩
      have := Nat.le_of_dvd (by omega) (Nat.dvd_sub hfg.granule hdvd)
      omega
  have hacc := hs₁.accounts.used hg (by omega) hle hdvd hcov
  have h8 : 8 ∣ g.base := Nat.dvd_trans (by decide) hg64
  obtain ⟨s₃, hs₃, hR₃⟩ := hR₂.store h8 hglo (by omega) (blockSize n)
  have hfree : g.base ∉ covered segs₂ := by
    rintro ⟨k, hk, hkg⟩
    exact (hacc.apart k hk _ (List.mem_cons_self ..)).not_mem hkg ⟨le_rfl, by dsimp only; omega⟩
  refine ⟨g.base, ⟨{ l' with mem := s₃ }, h₁.heapPos⟩, F₁, _, segs₂, ?_, ⟨hR₃,
    hacc.congr (by decide) fun a ha => ?_, hco, fun b hb => ?_, hs₁.page, hs₁.low⟩⟩
  · have hret : (g.base + 64) % wordSize = g.base + 64 := Nat.mod_eq_of_lt (by omega)
    simp only [KernelHeap.allocate, hfind, hl', hs₃, hret, Option.bind_eq_bind, Option.bind_some]
  · rw [Function.update_of_ne]
    rintro rfl
    exact hfree ha
  · rcases List.mem_cons.1 hb with rfl | hb
    · exact Function.update_self ..
    · obtain ⟨-, -, hbmin, -, -⟩ := hs₁.block_range hb
      have hap := (List.pairwise_cons.1 hacc.blocks_apart).1 b hb
      have hbne : b.base ≠ g.base := by
        unfold Segment.Apart at hap
        dsimp only at hap
        omega
      rw [Function.update_of_ne hbne, hcov.frame, hs₁.header b hb]
      rintro ⟨⟨k, hk, hkb⟩, -⟩
      exact (hs₁.accounts.apart k hk b hb).not_mem hkb ⟨le_rfl, by omega⟩

/-- **`Free`** of a live block gives its bytes back to the free segments. -/
theorem Sound.free (hs : Sound h roots F c segs live) (hb : b ∈ live) :
    ∃ h' c' segs', KernelHeap.free (b.base + 64) h = some h' ∧
      Sound h' roots F c' segs' (live.erase b) := by
  have hfit := hs.accounts.fits b hb
  obtain ⟨l', c', segs', hl', hR', hcov, hco⟩ := markFree_coalesces (heapView_simulates roots F h.heapPos)
    (by decide) hs.shows hs.accounts.holds hs.coalesced hfit fun k hk => (hs.accounts.apart k hk b hb).symm
  have hacc := hs.accounts.freed hb hcov
  refine ⟨{ h with list := l' }, c', segs', ?_, ⟨hR', hacc, hco, fun k hk => ?_, hs.page, hs.low⟩⟩
  · have hback : (b.base + 64 + wordSize - 64) % wordSize = b.base := by
      have := (hs.fits_range (.inr hb)).1.base_lt
      have hsum : b.base + 64 + wordSize - 64 = b.base + wordSize := by omega
      rw [hsum, Nat.add_mod_right, Nat.mod_eq_of_lt this]
    have hload := hs.load_header hb
    rw [hback] at hload
    rw [KernelHeap.free, if_neg (by omega)]
    simp only [hback, hload, hl', Option.bind_eq_bind, Option.bind_some]
  · have hkl := List.mem_of_mem_erase hk
    obtain ⟨-, -, hkmin, -, -⟩ := hs.block_range hkl
    rw [hcov.frame, hs.header k hkl]
    intro hx
    rw [← hcov.covered_eq] at hx
    obtain ⟨j, hj, hjk⟩ := hx
    exact (hacc.apart j hj k hk).not_mem hjk ⟨le_rfl, by omega⟩

/-- What is written into a live block, behind its header, the heap does not read. -/
theorem Sound.write (hs : Sound h roots F c segs live) (hb : b ∈ live) {mem : MemoryManager.State}
    (hR : Shows roots F h.heapPos mem c')
    (hkeep : ∀ a, a < b.base + 64 ∨ b.base + b.size ≤ a → c' a = c a) :
    Sound { h with list := { h.list with mem := mem } } roots F c' segs live := by
  refine ⟨hR, hs.accounts.congr (by decide) fun a ha => hkeep a ?_, hs.coalesced, fun k hk => ?_, hs.page,
    hs.low⟩
  · obtain ⟨g, hg, hga⟩ := ha
    have := hs.accounts.apart g hg b hb
    unfold Segment.Apart at this
    omega
  · rw [hkeep, hs.header k hk]
    by_cases hkb : k = b
    · exact .inl (by rw [hkb]; omega)
    · have := hs.accounts.blocks_apart.forall hk hb hkb
      have := (hs.block_range hk).2.2.1
      unfold Segment.Apart at *
      omega

/-- The counter of `ReserveNew` does not get past `2 ^ 19` pages. -/
theorem mapPages_none {g v i : Nat} (hi : i ≤ 2 ^ 19) (hn : 2 ^ 19 < i + n) : mapPages g v n i s = none := by
  induction n generalizing i s with
  | zero => omega
  | succ n ih =>
    rw [mapPages]
    by_cases hint : 4096 * i < 2 ^ 31
    · rw [if_pos hint]
      cases mapKernelPage ((g + 4096 * i) % wordSize) ((v + 4096 * i) % wordSize) s with
      | none => rfl
      | some s₁ => exact ih (by omega) (by omega)
    · rw [if_neg hint]

/-- `Allocate` does not return if the heap has to grow by more than `2 ^ 31` bytes. -/
theorem Sound.allocate_none (hs : Sound h roots F c segs live)
    (hnone : FreeList.findFree heapView h.list (blockSize n) = some 0) (hbig : 2 ^ 31 < blockSize n)
    (hgrant : Granted (blockSize n) h) : KernelHeap.allocate n h = none := by
  obtain ⟨k, hk⟩ : ∃ k, heapPages (blockSize n) = k := ⟨_, rfl⟩
  have hkdef : (blockSize n + 4095) / 4096 = k := hk
  obtain ⟨hroom, -⟩ := hgrant hnone
  rw [hk] at hroom
  have hpool := hs.shows.backed.inv.pool
  -- There are not that many bytes of memory.
  have hlt : k * 4096 < wordSize := by
    obtain ⟨segs', hholds, -⟩ := hpool.list
    by_contra hge
    refine hroom ⟨segs', hholds, fun g hg => ?_⟩
    have hfg := hholds.fits g hg
    have := hfg.pos
    have := hfg.top
    omega
  have hword : wordSize = 2 ^ 64 := rfl
  have hpages : (blockSize n + 4095) % wordSize / 4096 = k := by rw [Nat.mod_eq_of_lt (by omega), hkdef]
  obtain ⟨hbad, -⟩ | ⟨g, F₁, s₁, -, hal, -, -⟩ := allocatePages_many hpool (n := k) (by omega) hlt
  · exact absurd hbad hroom
  · have hmap : mapPages g h.heapPos k 0 s₁ = none := mapPages_none (by omega) (by omega)
    simp only [KernelHeap.allocate, KernelHeap.findOrReserve, hnone, KernelHeap.reserveNew, hpages, hal,
      hmap, Option.bind_eq_bind, Option.bind_some, Option.bind_none, if_true]

/-! ## Runs -/

/-- The heap, and the blocks that were returned and not yet freed, each with its header. The second field
is not in the source. -/
structure Usage where
  heap : Heap
  live : List Segment

/-- The list is empty, and `g_HeapPos` is `HeapBase`. -/
def fresh (s : MemoryManager.State) : Usage := ⟨⟨⟨s, 0, 0⟩, heapBase⟩, []⟩

inductive Event
  | allocate (n : Nat)
  /-- `Free` of a block, given with its header. -/
  | free (b : Segment)
  /-- The kernel writes the word at `a`. -/
  | write (a v : Nat)

def step (u : Usage) : Event → Option Usage
  | .allocate n => (allocate n u.heap).map fun (p, heap) => ⟨heap, ⟨p - 64, blockSize n⟩ :: u.live⟩
  | .free b => (free (b.base + 64) u.heap).map fun heap => ⟨heap, u.live.erase b⟩
  | .write a v => (heapView.store u.heap.list.mem a v).map fun mem =>
      ⟨{ u.heap with list := { u.heap.list with mem := mem } }, u.live⟩

/-- What the kernel may do: `Allocate` of a size that does not wrap, `Free` of a live block, and writing to
the usable bytes of a live block. -/
def Enabled (u : Usage) : Event → Prop
  | .allocate n => (n + 63) / 64 * 64 + 64 < wordSize ∧ Granted (blockSize n) u.heap
  | .free b => b ∈ u.live
  | .write a _ => 8 ∣ a ∧ ∃ b ∈ u.live, b.base + 64 ≤ a ∧ a + 8 ≤ b.base + b.size

/-- **The condition**: the heap does not have to grow by more than `2 ^ 31` bytes at once. -/
def GrowsLittle (u : Usage) : Event → Prop
  | .allocate n => FreeList.findFree heapView u.heap.list (blockSize n) ≠ some 0 ∨ blockSize n ≤ 2 ^ 31
  | _ => True

/-- What holds between two calls. -/
def Usage.Inv (u : Usage) (roots : List Nat) : Prop := ∃ F c segs, Sound u.heap roots F c segs u.live

theorem fresh_inv (hs : Backed s roots F heapBase) : (fresh s).Inv roots := by
  have hholds : Holds 64 (nodes heapBase) (fun _ => 0) 0 0 [] := by
    refine ⟨⟨Links.ring_nil rfl rfl, ?_, .nil⟩, ?_, ?_, ?_, .nil⟩ <;> simp
  refine ⟨F, fun _ => 0, [], ⟨hs, fun a _ hlo hhi => ?_⟩, ?_, ?_, ?_, ?_, le_rfl⟩
  · exact absurd hhi (Nat.not_lt.2 hlo)
  · have hacc := accounts_nil hholds
    rw [covered_nil, ← Set.Ico_self heapBase] at hacc
    exact hacc
  · simp [Coalesced]
  · simp [fresh]
  · show 4096 ∣ heapBase
    decide

theorem Usage.Inv.step {u u' : Usage} {e : Event} (hu : u.Inv roots) (he : Enabled u e)
    (hsmall : GrowsLittle u e) (hstep : KernelHeap.step u e = some u') : u'.Inv roots := by
  obtain ⟨F, c, segs, hs⟩ := hu
  cases e with
  | allocate n =>
    obtain ⟨b, h', F', c', segs', hrun, hs'⟩ := hs.allocate he.1 hsmall he.2
    rw [KernelHeap.step, hrun] at hstep
    obtain rfl := Option.some.inj hstep
    exact ⟨F', c', segs', hs'⟩
  | free b =>
    obtain ⟨h', c', segs', hrun, hs'⟩ := hs.free he
    rw [KernelHeap.step, hrun] at hstep
    obtain rfl := Option.some.inj hstep
    exact ⟨F, c', segs', hs'⟩
  | write a v =>
    obtain ⟨ha, b, hb, hlo, hhi⟩ := he
    obtain ⟨-, -, -, hblo, hbhi⟩ := hs.block_range hb
    obtain ⟨mem, hmem, hR⟩ := hs.shows.store ha (by omega) (by omega) v
    rw [KernelHeap.step, hmem] at hstep
    obtain rfl := Option.some.inj hstep
    exact ⟨F, _, segs, hs.write hb hR fun x hx => Function.update_of_ne (by omega) _ _⟩

/-- What holds in every state that a run reaches. -/
theorem run_inv (h₀ : Backed s roots F heapBase) {u : Usage}
    (hrun : Runs step (fun u e => Enabled u e ∧ GrowsLittle u e) (fresh s) u) : u.Inv roots :=
  hrun.inv (I := fun u => u.Inv roots) (fresh_inv h₀)
    fun _ _ _ hi hok hstep => hi.step hok.1 hok.2 hstep

/-- **The kernel heap is safe** while it grows by at most `2 ^ 31` bytes at once. In every state that a run
reaches,

* free segments and live blocks do not overlap and make up the bytes from `HeapBase` to `g_HeapPos`;
* each live block is aligned to 64 bytes, in that range, and its header gives its size;
* `Allocate` returns an aligned block of `n` bytes or more if the heap need not grow by more than `2 ^ 31`
  bytes, and does not return otherwise;
* every live block can be freed. -/
theorem kernel_heap_safe (h₀ : Backed s roots F heapBase) {u : Usage}
    (hrun : Runs step (fun u e => Enabled u e ∧ GrowsLittle u e) (fresh s) u) :
    (∃ c segs, (∀ a, 8 ∣ a → heapBase ≤ a → a < u.heap.heapPos →
        heapView.load u.heap.list.mem a = some (c a)) ∧
      Accounts 64 (nodes u.heap.heapPos) c u.heap.list.head u.heap.list.tail segs u.live
        (Set.Ico heapBase u.heap.heapPos)) ∧
    (∀ b ∈ u.live, 64 ∣ b.base ∧ heapBase ≤ b.base ∧ b.base + b.size ≤ u.heap.heapPos ∧
      getSize (b.base + 64) u.heap = some b.size) ∧
    (∀ n, Enabled u (.allocate n) →
      (GrowsLittle u (.allocate n) → ∃ p heap, allocate n u.heap = some (p, heap) ∧ 64 ∣ p ∧ 64 ≤ p ∧
        p + n ≤ p - 64 + blockSize n) ∧
      (¬ GrowsLittle u (.allocate n) → allocate n u.heap = none)) ∧
    ∀ b ∈ u.live, ∃ heap, free (b.base + 64) u.heap = some heap := by
  obtain ⟨F', c, segs, hs⟩ := run_inv h₀ hrun
  refine ⟨⟨c, segs, hs.shows.words, hs.accounts⟩, fun b hb => ?_, fun n he => ⟨fun hfit => ?_, fun hbig => ?_⟩,
    fun b hb => ?_⟩
  · obtain ⟨hdvd, -, -, hlo, hhi⟩ := hs.block_range hb
    refine ⟨hdvd, hlo, hhi, ?_⟩
    rw [KernelHeap.getSize, if_neg (by omega)]
    exact hs.load_header hb
  · obtain ⟨b, h', F₁, c', segs', hal, hs'⟩ := hs.allocate he.1 hfit he.2
    obtain ⟨hdvd, -⟩ := hs'.block_range (List.mem_cons_self ..)
    have hmin := (blockSize_bounds he.1).2.1
    exact ⟨b + 64, h', hal, Nat.dvd_add hdvd (by decide), by omega, by omega⟩
  · have hbig : ¬ (_ ∨ _) := hbig
    rw [not_or, not_not, Nat.not_le] at hbig
    exact hs.allocate_none hbig.1 hbig.2 he.2
  · obtain ⟨h', c', segs', hfree, -⟩ := hs.free hb
    exact ⟨h', hfree⟩

/-- A machine with `n` free frames and a frame for the PML3 of the heap, in which nothing is mapped. -/
def heapMachine (n : Nat) : MemoryManager.State :=
  { boot n (fun _ => 0) with
    myPML4 := fun i => if i = 510 then kernelEntry (4096 * (n + 1)) else 0 }

theorem heapMachine_backed (hn : 0 < n) (hle : n + 2 ≤ 2 ^ 27) :
    Backed (heapMachine n) [4096 * (n + 1)] (bootFrames n) heapBase ∧
      treeShape (heapMachine n).mem (4096 * (n + 1)) = ∅ := by
  have hframe : Frame (4096 * (n + 1)) := ⟨Nat.dvd_mul_right .., by omega, by omega⟩
  have hroot : heapRoot (heapMachine n) = 4096 * (n + 1) := kernelEntry_names.addr _ hframe
  have hempty : ∀ j < 512, child (heapMachine n).mem (4096 * (n + 1)) j = none := by
    intro j hj
    refine child_of_zero (boot_mem (n := n) fun k hk => ?_)
    omega
  have hpool := boot_pool (n := n) hn (by omega) fun _ => 0
  have hnot : 4096 * (n + 1) ∉ bootFrames n := by
    intro hm
    obtain ⟨i, hi, e⟩ := mem_bootFrames.1 hm
    omega
  have hrefs : refs (heapMachine n).mem [4096 * (n + 1)] = [4096 * (n + 1)] := by
    rw [refs, List.flatMap_singleton]
    exact Radix.nodes_of_empty hempty
  refine ⟨⟨⟨⟨?_, ?_⟩, ⟨hpool.nodup, hpool.frame, hpool.list⟩⟩, ?_, ?_, fun a hlo hhi => ?_, fun a hlo hhi => ?_,
    by decide⟩, Radix.shape_of_empty hempty⟩
  · rw [hrefs, List.nodup_append]
    refine ⟨hpool.nodup, List.nodup_singleton _, fun x hx y hy e => ?_⟩
    rw [List.mem_singleton] at hy
    exact hnot (by rw [← hy, ← e]; exact hx)
  · rw [hrefs]
    intro f hf
    rw [List.mem_singleton] at hf
    rw [hf]
    exact hframe
  · rw [hroot]
    exact List.mem_singleton.2 rfl
  · exact kernelEntry_names.present _ hframe
  · omega
  · rw [hroot, frameOf, pathOf, Radix.walk, hempty _ (getPML3Index_lt a)]
    rfl

/-- The first call of `Allocate` finds no segment, and all frames free. -/
theorem heapMachine_granted (hn : 0 < n) (hle : n + 2 ≤ 2 ^ 27) {size : Nat}
    (hsize : 3 * heapPages size ≤ n) : Granted size (fresh (heapMachine n)).heap := by
  intro _
  obtain ⟨hb, hshape⟩ := heapMachine_backed hn hle
  have hframe : Frame (4096 * (n + 1)) := ⟨Nat.dvd_mul_right .., by omega, by omega⟩
  have hroot : heapRoot (fresh (heapMachine n)).heap.list.mem = 4096 * (n + 1) :=
    kernelEntry_names.addr _ hframe
  refine ⟨?_, fun F hF => ?_⟩
  · rintro ⟨segs, hholds, hsmall⟩
    have hsegs := hholds.unique (boot_list hn (by omega) fun _ => 0)
    have := hsmall ⟨highMemBase + 4096, n * 4096⟩ (by rw [hsegs]; simp)
    dsimp only at this
    omega
  · have hlen : F.length = n := by
      have hpool := hb.inv.pool
      have hperm : F.Perm (bootFrames n) :=
        (List.perm_ext_iff_of_nodup hF.nodup hpool.nodup).2 fun f => hF.mem_iff hpool
      rw [hperm.length_eq, bootFrames, List.length_map, List.length_range]
    have hempty : treeShape (fresh (heapMachine n)).heap.list.mem.mem (4096 * (n + 1)) = ∅ := hshape
    have hcard := card_foldl_withPath_le ∅ heapBase (heapPages size)
    rw [Finset.card_empty] at hcard
    rw [hroot, hempty, hlen, Finset.card_empty]
    exact (hcard.trans (by omega)).trans (Nat.le_add_right ..)

/-- The books after a first call of `Allocate`. -/
theorem kernel_heap_safe_first : ∃ u : Usage, u.live.length = 1 ∧
    ∀ b ∈ u.live, getSize (b.base + 64) u.heap = some b.size := by
  obtain ⟨hb, -⟩ := heapMachine_backed (n := 3) (by omega) (by omega)
  have hgrant : Granted (blockSize 100) (fresh (heapMachine 3)).heap :=
    heapMachine_granted (by omega) (by omega) (by decide)
  have hsmall : blockSize 100 ≤ 2 ^ 31 := by decide
  obtain ⟨F, c, segs, hs⟩ := fresh_inv hb
  obtain ⟨b, h', F', c', segs', hal, -⟩ := hs.allocate (n := 100) (by decide) (.inr hsmall) hgrant
  have hstep : step (fresh (heapMachine 3)) (.allocate 100) = some ⟨h', [⟨b, blockSize 100⟩]⟩ := by
    rw [step, hal]
    rfl
  have hrun : Runs step (fun u e => Enabled u e ∧ GrowsLittle u e) (fresh (heapMachine 3)) _ :=
    .head (e := .allocate 100) ⟨⟨by decide, hgrant⟩, .inr hsmall⟩ hstep (.refl _)
  exact ⟨_, rfl, fun b hb' => ((kernel_heap_safe hb hrun).2.1 b hb').2.2.2⟩

/-- **A large block**: on a machine with 8 GB of free memory, `Allocate` of `2 ^ 31` bytes does not
return. -/
theorem allocate_huge_fails : ∃ roots F, Backed (heapMachine (2 ^ 21)) roots F heapBase ∧
    Enabled (fresh (heapMachine (2 ^ 21))) (.allocate (2 ^ 31)) ∧
    allocate (2 ^ 31) (fresh (heapMachine (2 ^ 21))).heap = none := by
  obtain ⟨hb, -⟩ := heapMachine_backed (n := 2 ^ 21) (by omega) (by omega)
  have hgrant : Granted (blockSize (2 ^ 31)) (fresh (heapMachine (2 ^ 21))).heap :=
    heapMachine_granted (by omega) (by omega) (by decide)
  obtain ⟨F, c, segs, hs⟩ := fresh_inv hb
  have hnone : FreeList.findFree heapView (fresh (heapMachine (2 ^ 21))).heap.list (blockSize (2 ^ 31)) =
      some 0 := rfl
  exact ⟨_, _, hb, ⟨by decide, hgrant⟩, hs.allocate_none hnone (by decide) hgrant⟩

end ChenixOS.KernelHeap
