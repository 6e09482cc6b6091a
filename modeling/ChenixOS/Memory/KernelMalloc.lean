import ChenixOS.Libc.Malloc
import ChenixOS.Memory.KernelHeapProof

/-!
# `kmalloc`, `krealloc` and `operator new`

The functions that the kernel calls for memory, `kmalloc.cpp` and `new.cpp`, over the kernel heap.

**Sizes.** `KernelHeap::Allocate` takes a size of 64 bits and `operator new` is given one, but `kmalloc`
takes a `size_t`, which is `unsigned int`: what arrives is the size modulo `2 ^ 32`.

**`krealloc`** compares the low 32 bits of the size in the header, which counts the header, with the size
that is asked for. Where they differ it allocates a block, clears the old one, copies and returns; the old
block is never freed.
-/

namespace ChenixOS.KernelHeap

open MemoryManager FreeList Transitions
open Libc (mixBytes)

variable {s : MemoryManager.State} {roots F : List Nat} {b : Segment} {u : Usage} {n size : Nat}

/-! ## The functions -/

/-- One more than the largest `size_t`. -/
def sizeTop : Nat := 2 ^ 32

/-- `kmalloc`; the block that is returned is live from then on. -/
def kmalloc (size : Nat) (u : Usage) : Option (Nat × Usage) :=
  (allocate size u.heap).map fun (p, heap) => (p, ⟨heap, ⟨p - 64, blockSize size⟩ :: u.live⟩)

/-- `operator new(long unsigned int)`. The argument of `kmalloc` is a `size_t`. -/
def operatorNew (size : Nat) (u : Usage) : Option (Nat × Usage) := kmalloc (size % sizeTop) u

/-- `operator new[]` -/
def operatorNewArray (size : Nat) (u : Usage) : Option (Nat × Usage) := operatorNew size u

/-- The words that `kmemset` sets to 0, from word `i` on; `n` counts the words that are left. -/
def clearWords (d : Nat) : Nat → Nat → MemoryManager.State → Option MemoryManager.State
  | 0, _, s => some s
  | n + 1, i, s => do
    let s ← heapView.store s ((d + 8 * i) % wordSize) 0
    clearWords d n (i + 1) s

/-- `kmemset(d, 0, size)`, for an address that is a multiple of 8. The last word may be cleared in part. -/
def kmemset (d size : Nat) (s : MemoryManager.State) : Option MemoryManager.State := do
  let s ← clearWords d (size / 8) 0 s
  if size % 8 = 0 then some s
  else do
    let old ← heapView.load s ((d + 8 * (size / 8)) % wordSize)
    heapView.store s ((d + 8 * (size / 8)) % wordSize) (mixBytes (size % 8) 0 old)

/-- `kmemcpyq(d, src, n)`, from word `i` on. -/
def kmemcpyq (d src : Nat) : Nat → Nat → MemoryManager.State → Option MemoryManager.State
  | 0, _, s => some s
  | n + 1, i, s => do
    let v ← heapView.load s ((src + 8 * i) % wordSize)
    let s ← heapView.store s ((d + 8 * i) % wordSize) v
    kmemcpyq d src n (i + 1) s

/-- `kmemcpy(d, src, size)`, for addresses that are multiples of 8. -/
def kmemcpy (d src size : Nat) (s : MemoryManager.State) : Option MemoryManager.State := do
  let s ← kmemcpyq d src (size / 8) 0 s
  if size % 8 = 0 then some s
  else do
    let new ← heapView.load s ((src + 8 * (size / 8)) % wordSize)
    let old ← heapView.load s ((d + 8 * (size / 8)) % wordSize)
    heapView.store s ((d + 8 * (size / 8)) % wordSize) (mixBytes (size % 8) new old)

/-- An `int` with these 32 bits, as a `uint64`. -/
def signExtend (bits : Nat) : Nat := if bits < 2 ^ 31 then bits else wordSize - sizeTop + bits

/-- `krealloc`. `int bsize` has the low 32 bits of what `GetSize` returns; it is compared with the
`size_t` as an `unsigned int`. -/
def krealloc (ptr size : Nat) (u : Usage) : Option (Nat × Usage) := do
  let stored ← getSize ptr u.heap
  let bsize := stored % sizeTop
  if bsize = size ∨ bsize = 0 ∨ size = 0 then some (ptr, u)
  else do
    let (result, u) ← kmalloc size u
    let mem ← kmemset ptr size u.heap.list.mem
    let mem ← kmemcpy result ptr (signExtend bsize) mem
    some (result, { u with heap := { u.heap with list := { u.heap.list with mem := mem } } })

/-! ## `operator new` -/

/-- The block at `p` is live, and its header says that it has `size` usable bytes or more. -/
def HasRoom (u : Usage) (p size : Nat) : Prop :=
  ∃ b ∈ u.live, p = b.base + 64 ∧ getSize p u.heap = some b.size ∧ size + 64 ≤ b.size

/-- **What `new` should do** with a size: it reaches `Allocate` as it is, the rounding there does not make
it smaller, and the block that is returned has as many usable bytes. It is assumed that `AllocatePages` has
the pages that are asked for. -/
def NewRight (new : Nat → Usage → Option (Nat × Usage)) (u : Usage) (size : Nat) : Prop :=
  size % sizeTop = size ∧ size + 64 ≤ blockSize size ∧
    (Enabled u (.allocate size) → ∀ p u', new size u = some (p, u') → HasRoom u' p size)

theorem sizeTop_wrap (hn : n < sizeTop) : (n + 63) / 64 * 64 + 64 < wordSize := by
  have htop : sizeTop = 2 ^ 32 := rfl
  have hword : wordSize = 2 ^ 64 := rfl
  omega

/-- A step of `kmalloc` is one of `Allocate`: what it returns is a new block, apart from the others. -/
theorem Usage.Inv.kmalloc (hu : u.Inv roots) (he : Enabled u (.allocate n)) :
    (GrowsLittle u (.allocate n) ∧ ∃ g u', KernelHeap.kmalloc n u = some (g + 64, u') ∧ u'.Inv roots ∧
      u'.live = ⟨g, blockSize n⟩ :: u.live ∧ getSize (g + 64) u'.heap = some (blockSize n) ∧
      ∀ b ∈ u.live, g ≠ b.base) ∨
    KernelHeap.kmalloc n u = none := by
  obtain ⟨F, c, segs, hs⟩ := hu
  by_cases hsmall : GrowsLittle u (.allocate n)
  · obtain ⟨g, h', F', c', segs', hal, hs'⟩ := hs.allocate he.1 hsmall he.2
    have hload := hs'.load_header (List.mem_cons_self ..)
    dsimp only at hload
    refine .inl ⟨hsmall, g, ⟨h', ⟨g, blockSize n⟩ :: u.live⟩, ?_, ⟨F', c', segs', hs'⟩, rfl, ?_, fun b hb => ?_⟩
    · rw [KernelHeap.kmalloc, hal]
      rfl
    · rw [KernelHeap.getSize, if_neg (by omega), hload]
    · have hap := (List.pairwise_cons.1 hs'.accounts.blocks_apart).1 b hb
      have hbmin := (hs.block_range hb).2.2.1
      have hmin := (blockSize_bounds he.1).2.1
      unfold Segment.Apart at hap
      dsimp only at hap
      omega
  · have hbig : ¬ (_ ∨ _) := hsmall
    rw [not_or, not_not, Nat.not_le] at hbig
    refine .inr ?_
    rw [KernelHeap.kmalloc, hs.allocate_none hbig.1 hbig.2 he.2]
    rfl

/-- For a size that fits into a `size_t`, the block has room for it. -/
theorem Usage.Inv.newRight (hu : u.Inv roots) (hsize : size < sizeTop) : NewRight operatorNew u size := by
  have hmod : size % sizeTop = size := Nat.mod_eq_of_lt hsize
  have hmin := (blockSize_bounds (sizeTop_wrap hsize)).2.1
  refine ⟨hmod, hmin, fun he p u' hrun => ?_⟩
  rw [operatorNew, hmod] at hrun
  obtain ⟨-, g, u₁, hg, -, hlive, hget, -⟩ | hnone := hu.kmalloc he
  · rw [hrun, Option.some.injEq, Prod.mk.injEq] at hg
    obtain ⟨rfl, rfl⟩ := hg
    exact ⟨⟨g, blockSize size⟩, by rw [hlive]; exact List.mem_cons_self .., rfl, hget, hmin⟩
  · rw [hnone] at hrun
    exact absurd hrun (by simp)

/-- A heap that is empty, with memory for one page. -/
theorem heapMachine_enabled (hle : blockSize n ≤ 4096) (hwrap : (n + 63) / 64 * 64 + 64 < wordSize) :
    Enabled (fresh (heapMachine 3)) (.allocate n) ∧ GrowsLittle (fresh (heapMachine 3)) (.allocate n) := by
  have hmin := (blockSize_bounds hwrap).2.1
  refine ⟨⟨hwrap, heapMachine_granted (by omega) (by omega) ?_⟩, .inr (by omega)⟩
  unfold heapPages
  omega

/-- The byte at an address of the heap. -/
def byteAt (s : MemoryManager.State) (a : Nat) : Option Nat :=
  (heapView.load s (a / 8 * 8)).map fun word => word / 256 ^ (a % 8) % 256

/-- **What `krealloc` should do** with the live block `b`: it returns a block with `n` usable bytes or
more, which begins with what the old block holds; it changes no other live block; and the old block is freed
just when another block is returned. -/
def ReallocRight (u : Usage) (b : Segment) (n : Nat) : Prop :=
  ∃ p u', krealloc (b.base + 64) n u = some (p, u') ∧ HasRoom u' p n ∧
    (∀ j < min n (b.size - 64), byteAt u'.heap.list.mem (p + j) =
      byteAt u.heap.list.mem (b.base + 64 + j)) ∧
    (∀ k ∈ u.live, k ≠ b → ∀ a, 8 ∣ a → k.base ≤ a → a < k.base + k.size →
      heapView.load u'.heap.list.mem a = heapView.load u.heap.list.mem a) ∧
    (b ∉ u'.live ↔ p ≠ b.base + 64)

/-- The block is returned as it is. -/
def Unmoved (b : Segment) (n : Nat) : Prop := b.size % sizeTop = n ∨ b.size % sizeTop = 0

theorem Usage.Inv.getSize (hu : u.Inv roots) (hb : b ∈ u.live) :
    KernelHeap.getSize (b.base + 64) u.heap = some b.size := by
  obtain ⟨F, c, segs, hs⟩ := hu
  rw [KernelHeap.getSize, if_neg (by omega)]
  exact hs.load_header hb

theorem krealloc_unmoved (hu : u.Inv roots) (hb : b ∈ u.live) (h : Unmoved b n) :
    krealloc (b.base + 64) n u = some (b.base + 64, u) := by
  rw [krealloc, hu.getSize hb, Option.bind_eq_bind, Option.bind_some]
  exact if_pos (h.imp_right .inl)

/-- **Another block** is taken in addition to the old one, which is never freed. -/
theorem krealloc_keeps_old (hu : u.Inv roots) (hb : b ∈ u.live) (hn : 0 < n) (h : ¬ Unmoved b n)
    (he : Enabled u (.allocate n)) {p : Nat} {u' : Usage}
    (hrun : krealloc (b.base + 64) n u = some (p, u')) : b ∈ u'.live ∧ p ≠ b.base + 64 := by
  have hmoved : ¬ (b.size % sizeTop = n ∨ b.size % sizeTop = 0 ∨ n = 0) := by
    unfold Unmoved at h
    omega
  rw [krealloc, hu.getSize hb, Option.bind_eq_bind, Option.bind_some] at hrun
  rw [if_neg hmoved] at hrun
  obtain ⟨-, g, u₁, hg, -, hlive, -, hne⟩ | hnone := hu.kmalloc he
  · rw [hg, Option.bind_eq_bind, Option.bind_some] at hrun
    obtain ⟨mem₁, -, hrun⟩ := Option.bind_eq_some_iff.1 hrun
    obtain ⟨mem₂, -, hrun⟩ := Option.bind_eq_some_iff.1 hrun
    obtain ⟨rfl, rfl⟩ := Prod.mk.inj (Option.some.inj hrun)
    refine ⟨?_, fun e => hne b hb (Nat.add_right_cancel e)⟩
    show b ∈ u₁.live
    rw [hlive]
    exact List.mem_cons_of_mem _ hb
  · rw [hnone] at hrun
    exact absurd hrun (by simp)

/-- **`krealloc` keeps its contract just for blocks that it returns as they are and that are large enough**:
the low 32 bits of the size in the header are 0 or the size that is asked for. (Where another block is
needed, the pages that are asked for are taken to be there.) So it does for no block of less than
`2 ^ 32` bytes. -/
theorem krealloc_right_iff (h₀ : Backed s roots F heapBase)
    (hrun : Runs step (fun u e => Enabled u e ∧ GrowsLittle u e) (fresh s) u) (hb : b ∈ u.live)
    (hn : 0 < n) (hgrant : ¬ Unmoved b n → Enabled u (.allocate n)) :
    (ReallocRight u b n ↔ Unmoved b n ∧ n + 64 ≤ b.size) ∧ (b.size < 2 ^ 32 → ¬ ReallocRight u b n) := by
  have hu := run_inv h₀ hrun
  have hiff : ReallocRight u b n ↔ Unmoved b n ∧ n + 64 ≤ b.size := by
    constructor
    · rintro ⟨p, u', hcall, ⟨k, hk, hpk, hget, hroom⟩, -, -, hfreed⟩
      by_cases h : Unmoved b n
      · rw [krealloc_unmoved hu hb h, Option.some.injEq, Prod.mk.injEq] at hcall
        obtain ⟨rfl, rfl⟩ := hcall
        rw [hu.getSize hb, Option.some.injEq] at hget
        exact ⟨h, hget ▸ hroom⟩
      · obtain ⟨hold, hne⟩ := krealloc_keeps_old hu hb hn h (hgrant h) hcall
        exact absurd hold (hfreed.2 hne)
    · rintro ⟨h, hroom⟩
      exact ⟨_, u, krealloc_unmoved hu hb h, ⟨b, hb, rfl, hu.getSize hb, hroom⟩, fun _ _ => rfl,
        fun _ _ _ _ _ _ _ => rfl, fun h => absurd hb h, fun h => absurd rfl h⟩
  refine ⟨hiff, fun hsmall h => ?_⟩
  obtain ⟨hsame, hroom⟩ := hiff.1 h
  unfold Unmoved sizeTop at hsame
  omega

/-- The first block of the kernel: 100 bytes, in 192 with the header. -/
theorem first_kernel_block : ∃ u g, Runs step (fun u e => Enabled u e ∧ GrowsLittle u e)
    (fresh (heapMachine 3)) u ∧ u.live = [Segment.mk g 192] := by
  obtain ⟨hb, -⟩ := heapMachine_backed (n := 3) (by omega) (by omega)
  obtain ⟨he, hsmall⟩ := heapMachine_enabled (n := 100) (by decide) (by decide)
  obtain ⟨F, c, segs, hs⟩ := fresh_inv hb
  obtain ⟨g, h', -, -, -, hal, -⟩ := hs.allocate he.1 hsmall he.2
  have hstep : step (fresh (heapMachine 3)) (.allocate 100) = some ⟨h', [Segment.mk g 192]⟩ := by
    rw [step, hal]
    rfl
  exact ⟨_, g, .head (e := .allocate 100) ⟨he, hsmall⟩ hstep (.refl _), rfl⟩

/-- Asked for 192 bytes, `krealloc` does nothing. -/
theorem krealloc_right_iff_first : ∃ u b, b ∈ u.live ∧ b.size = 192 ∧ ¬ ReallocRight u b 192 := by
  obtain ⟨u, g, hrun, hlive⟩ := first_kernel_block
  obtain ⟨h₀, -⟩ := heapMachine_backed (n := 3) (by omega) (by omega)
  have hb : Segment.mk g 192 ∈ u.live := by simp [hlive]
  have hsame : Unmoved (Segment.mk g 192) 192 := .inl (Nat.mod_eq_of_lt (by decide : 192 < sizeTop))
  exact ⟨u, _, hb, rfl, (krealloc_right_iff h₀ hrun hb (by decide) fun h => absurd hsame h).2
    (by decide : 192 < 2 ^ 32)⟩

/-- **A block that is too small**: asked for 192 bytes, `krealloc` returns the block of 128 that it was
given. -/
theorem krealloc_too_small : ∃ u b, b ∈ u.live ∧ getSize (b.base + 64) u.heap = some (128 + 64) ∧
    krealloc (b.base + 64) 192 u = some (b.base + 64, u) ∧ ¬ ReallocRight u b 192 := by
  obtain ⟨u, g, hrun, hlive⟩ := first_kernel_block
  obtain ⟨h₀, -⟩ := heapMachine_backed (n := 3) (by omega) (by omega)
  have hu := run_inv h₀ hrun
  have hb : Segment.mk g 192 ∈ u.live := by simp [hlive]
  have hsame : Unmoved (Segment.mk g 192) 192 := .inl (Nat.mod_eq_of_lt (by decide : 192 < sizeTop))
  have hcall := krealloc_unmoved hu hb hsame
  refine ⟨u, _, hb, hu.getSize hb, hcall, ?_⟩
  rintro ⟨p, u', hrun', ⟨k, -, -, hget, hroom⟩, -⟩
  rw [hcall, Option.some.injEq, Prod.mk.injEq] at hrun'
  obtain ⟨rfl, rfl⟩ := hrun'
  rw [hu.getSize hb, Option.some.injEq] at hget
  dsimp only at hget
  omega

end ChenixOS.KernelHeap
