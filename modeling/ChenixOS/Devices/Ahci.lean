import ChenixOS.Memory.Bytes
import ChenixOS.Memory.Conservation

/-!
# The AHCI driver

`DriveReadData` and `DriveWriteData` of `AHCI.cpp`. The controller reads and writes physical memory only, so both
take pages for a bounce buffer, have the controller do its part, and give the pages back.

The controller is a parameter: what it does to memory for a request, and whether it reports success. The history
of a call says in which order it took, used and gave back the bounce buffer.

**Theorem (`driveData_right_iff`).** A read that the controller does and that has any bytes always uses the pages
after it has given them back; every other read, and every write, does not.

What the caller gets then is what the free list has made of the pages: `driveReadData_buffer`.
-/

namespace ChenixOS.Ahci

open MemoryManager Words

/-! ## The bounce buffer -/

/-- `(size / 4096) + ((size % 4096) == 0 ? 0 : 1)`, where `size` is a `uint32` -/
def pageCount (size : Nat) : Nat := size % 2 ^ 32 / 4096 + if size % 2 ^ 32 % 4096 = 0 then 0 else 1

/-- `KernelHeap::AllocAlignMemory` -/
def allocAlignMemory (size : Nat) (s : State) : Option (Nat × State) :=
  (allocatePages (pageCount size) s).map fun r => (physToKernelPtr r.1, r.2)

/-- `KernelHeap::FreeAlignMemory` -/
def freeAlignMemory (ptr size : Nat) (s : State) : Option State := freePages (kernelToPhysPtr ptr) (pageCount size) s

/-! ## The driver -/

/-- `disk_op_s` -/
structure DiskOp where
  bufFl : Nat
  blocksize : Nat
  lba : Nat
  count : Nat

/-- `make_disk_op`, whose block count is a `uint16` -/
def makeDiskOp (blksize startBlock numBlocks buffer : Nat) : DiskOp := ⟨buffer, blksize, startBlock, numBlocks % 2 ^ 16⟩

/-- `ahci_disk_readwrite_aligned`: whether the controller reports success, and the memory it leaves. -/
abbrev Controller := DiskOp → (isWrite : Bool) → State → Bool × State

/-- What becomes of the bounce buffer. -/
inductive Event
  | alloc (ptr : Nat)
  | access (ptr size : Nat)
  | free (ptr size : Nat)
  deriving DecidableEq

structure Result where
  success : Bool
  /-- What the caller's buffer holds. -/
  buffer : Nat → UInt8
  /-- What the controller left in the bounce buffer. -/
  transferred : Nat → UInt8
  state : State
  history : List Event

def driveReadData (controller : Controller) (blksize startBlock numBlocks : Nat) (buffer : Nat → UInt8) (s : State) :
    Option Result := do
  let size := numBlocks * blksize % wordSize
  let (alignBuffer, s) ← allocAlignMemory size s
  let (success, s) := controller (makeDiskOp blksize startBlock numBlocks alignBuffer) false s
  let transferred := fun i => s.byteAt ((alignBuffer + i) % wordSize)
  let s ← freeAlignMemory alignBuffer size s
  let history := [.alloc alignBuffer, .access alignBuffer size, .free alignBuffer size]
  some <|
    if success then
      { success := true
        buffer := fun i => if i < size then s.byteAt ((alignBuffer + i) % wordSize) else buffer i
        transferred := transferred
        state := s
        history := history ++ [.access alignBuffer size] }
    else
      { success := false
        buffer := buffer
        transferred := transferred
        state := s
        history := history }

def driveWriteData (controller : Controller) (blksize startBlock numBlocks : Nat) (buffer : Nat → UInt8) (s : State) :
    Option Result := do
  let size := numBlocks * blksize % wordSize
  let (alignBuffer, s) ← allocAlignMemory size s
  let s := s.storeBytes alignBuffer size buffer
  let (success, s) := controller (makeDiskOp blksize startBlock numBlocks alignBuffer) true s
  let transferred := fun i => s.byteAt ((alignBuffer + i) % wordSize)
  let s ← freeAlignMemory alignBuffer size s
  some
    { success := success
      buffer := buffer
      transferred := transferred
      state := s
      history := [.alloc alignBuffer, .access alignBuffer size, .access alignBuffer size, .free alignBuffer size] }

/-! ## What is asked of it -/

/-- After the bounce buffer was given back, none of its bytes is accessed. -/
def KeepsAway (history : List Event) : Prop :=
  history.Pairwise fun e e' => ∀ p n q k, e = .free p n → e' = .access q k →
    ∀ a, ¬ (p ≤ a ∧ a < p + n ∧ q ≤ a ∧ a < q + k)

/-- All bytes of a read are in the caller's buffer. -/
def Delivered (blksize numBlocks : Nat) (r : Result) : Prop :=
  ∀ i < numBlocks * blksize, r.buffer i = r.transferred i

/-- What the controller reports for a read. -/
def readReport (controller : Controller) (blksize startBlock numBlocks : Nat) (s : State) : Bool :=
  (allocAlignMemory (numBlocks * blksize % wordSize) s).any fun r =>
    (controller (makeDiskOp blksize startBlock numBlocks r.1) false r.2).1

section Calls

variable {controller : Controller} {blksize startBlock numBlocks p size : Nat} {buffer : Nat → UInt8}
  {s : State} {r : Result}

theorem keepsAway_read : KeepsAway [.alloc p, .access p size, .free p size] := by simp [KeepsAway]

theorem keepsAway_write : KeepsAway [.alloc p, .access p size, .access p size, .free p size] := by simp [KeepsAway]

/-- Use after free. -/
theorem keepsAway_free_access :
    KeepsAway [.alloc p, .access p size, .free p size, .access p size] ↔ size = 0 := by
  constructor
  · intro h
    have hlast : KeepsAway [.free p size, .access p size] := h.sublist (by simp)
    have hpair := List.pairwise_pair.1 hlast p size p size rfl rfl p
    omega
  · rintro rfl
    simp only [KeepsAway, List.pairwise_cons, List.mem_cons, List.not_mem_nil, Event.free.injEq]
    refine ⟨by simp, by simp, ?_, by simp⟩
    rintro e' (rfl | h) q n q' k ⟨rfl, rfl⟩ ⟨rfl, rfl⟩ a ha
    · omega
    · exact h.elim

/-- A read, case by case. -/
theorem driveReadData_eq (h : driveReadData controller blksize startBlock numBlocks buffer s = some r) :
    ∃ ptr s₁ s₂, allocAlignMemory (numBlocks * blksize % wordSize) s = some (ptr, s₁) ∧
      controller (makeDiskOp blksize startBlock numBlocks ptr) false s₁ = (r.success, s₂) ∧
      freeAlignMemory ptr (numBlocks * blksize % wordSize) s₂ = some r.state ∧
      (r.success = true → r.history = [.alloc ptr, .access ptr (numBlocks * blksize % wordSize),
        .free ptr (numBlocks * blksize % wordSize), .access ptr (numBlocks * blksize % wordSize)]) ∧
      (r.success = false → r.history = [.alloc ptr, .access ptr (numBlocks * blksize % wordSize),
        .free ptr (numBlocks * blksize % wordSize)]) := by
  obtain ⟨⟨ptr, s₁⟩, halloc, h⟩ := Option.bind_eq_some_iff.1 h
  cases hcontroller : controller (makeDiskOp blksize startBlock numBlocks ptr) false s₁ with
  | mk success s₂ =>
  dsimp only at h
  rw [hcontroller] at h
  obtain ⟨s₃, hfree, h⟩ := Option.bind_eq_some_iff.1 h
  cases success with
  | false =>
    obtain rfl := Option.some.inj h
    exact ⟨ptr, s₁, s₂, halloc, hcontroller, hfree, by simp, fun _ => rfl⟩
  | true =>
    obtain rfl := Option.some.inj h
    exact ⟨ptr, s₁, s₂, halloc, hcontroller, hfree, fun _ => rfl, by simp⟩

/-- The controller writes to nothing but the bytes that it is asked to transfer. -/
def Confined (controller : Controller) : Prop :=
  ∀ op isWrite s, State.SameButMem s (controller op isWrite s).2 ∧
    ∀ a, ¬ (State.wordOf op.bufFl ≤ a ∧ a < op.bufFl + op.count * op.blocksize) →
      (controller op isWrite s).2.mem a = s.mem a

/-- The pages of a bounce buffer hold it. -/
theorem le_pageCount (h : size < 2 ^ 32) : size ≤ 4096 * pageCount size := by
  rw [pageCount, Nat.mod_eq_of_lt h]
  split <;> omega

/-- **What a read returns**: it does end, and the bytes behind the first 32 of each page are as the controller left
them. -/
theorem driveReadData_buffer {F : List Nat} (hpool : MemoryManager.Pool s F) (hpos : 0 < numBlocks * blksize)
    (hlt : numBlocks * blksize < 2 ^ 32) (hroom : ¬ NoRoom s (pageCount (numBlocks * blksize)))
    (hcontroller : Confined controller) :
    ∃ r, driveReadData controller blksize startBlock numBlocks buffer s = some r ∧ (r.success = true →
      ∀ i < numBlocks * blksize, 32 ≤ i % 4096 → r.buffer i = r.transferred i) := by
  obtain ⟨size, hsize⟩ : ∃ size, numBlocks * blksize = size := ⟨_, rfl⟩
  have hmod : numBlocks * blksize % wordSize = size := by
    rw [hsize]
    exact Nat.mod_eq_of_lt (by unfold wordSize; omega)
  rw [hsize] at hpos hlt hroom ⊢
  have hle := le_pageCount hlt
  have hcount : pageCount size ≤ 2 ^ 20 := by
    rw [pageCount, Nat.mod_eq_of_lt hlt]
    split <;> omega
  obtain ⟨n, hn⟩ : ∃ n, pageCount size = n := ⟨_, rfl⟩
  rw [hn] at hle hroom hcount
  rcases allocatePages_many hpool (n := n) (by omega) (by unfold wordSize; omega) with
    ⟨hno, -⟩ | ⟨f, F', s₁, hperm, hal, hmoved, -⟩
  · exact absurd hno hroom
  have hblock : ∀ x ∈ blockFrames f n, Frame x ∧ x ∉ F' := fun x hx =>
    ⟨hpool.frame x (hperm.mem_iff.2 (List.mem_append_left _ hx)), fun hx' =>
      (List.nodup_append.1 (hperm.nodup_iff.1 hpool.nodup)).2.2 x hx x hx' rfl⟩
  have hf : Frame f := (hblock f (mem_blockFrames.2 ⟨0, by omega, rfl⟩)).1
  have hlast := (hblock (f + 4096 * (n - 1)) (mem_blockFrames.2 ⟨n - 1, by omega, rfl⟩)).1.top
  have htop : f < 2 ^ 39 := by omega
  have halloc : allocAlignMemory size s = some (highMemBase + f, s₁) := by
    rw [allocAlignMemory, hn, hal, Option.map_some, physToKernelPtr_eq htop]
  cases hrun : controller (makeDiskOp blksize startBlock numBlocks (highMemBase + f)) false s₁ with
  | mk success s₂ =>
  obtain ⟨hsame, hmem⟩ := hcontroller (makeDiskOp blksize startBlock numBlocks (highMemBase + f)) false s₁
  rw [hrun] at hsame hmem
  -- the free list is in other pages than the bounce buffer
  have hpool₂ : MemoryManager.Pool s₂ F' := hmoved.pool.congr hsame fun a ha => hmem a fun hin => by
    obtain ⟨g, hg, hlo, hhi⟩ := ha
    have hcut : numBlocks % 2 ^ 16 * blksize ≤ numBlocks * blksize := Nat.mul_le_mul_right _ (Nat.mod_le _ _)
    have hend : a < highMemBase + f + numBlocks % 2 ^ 16 * blksize := hin.2
    have hstart : State.wordOf (highMemBase + f) ≤ a := hin.1
    have hword : State.wordOf (highMemBase + f) = highMemBase + f := wordOf_page (x := 0) hf
    have hgf := (hmoved.pool.frame g hg).aligned
    have hff := hf.aligned
    exact (hblock g (mem_blockFrames.2 ⟨(a - (highMemBase + f)) / 4096, by omega, by omega⟩)).2 hg
  obtain ⟨s₃, hfree, hmoved₃, -⟩ := freePages_many hpool₂ (by omega) hblock
  have hgive : freeAlignMemory (highMemBase + f) size s₂ = some s₃ := by
    rw [freeAlignMemory, hn, kernelToPhysPtr_eq htop, hfree]
  have hbytes : ∀ i < size, 32 ≤ i % 4096 → s₃.byteAt ((highMemBase + f + i) % wordSize) =
      s₂.byteAt ((highMemBase + f + i) % wordSize) := fun i hi h32 => by
    have hframe := (hblock (f + 4096 * (i / 4096)) (mem_blockFrames.2 ⟨i / 4096, by omega, rfl⟩)).1
    have haddr : (highMemBase + f + i) % wordSize = highMemBase + (f + 4096 * (i / 4096)) + i % 4096 := by
      unfold highMemBase wordSize
      omega
    rw [haddr]
    refine State.byteAt_congr ?_
    rw [wordOf_page hframe]
    exact hmoved₃.words _ _ hframe (by omega) (by omega)
  rw [driveReadData, hmod, halloc]
  simp only [Option.bind_eq_bind, Option.bind_some, hrun, hgive]
  cases success with
  | false => exact ⟨_, rfl, fun h => absurd h (by simp)⟩
  | true =>
    refine ⟨_, rfl, fun _ i hi h32 => ?_⟩
    simp only [if_true, if_pos hi]
    exact hbytes i hi h32

end Calls

/-! ## A disk of zeros -/

/-- The controller of a disk that has zeros only. -/
def zeros : Controller := fun op isWrite s =>
  (true, if isWrite then s else s.storeBytes op.bufFl (op.count * op.blocksize) fun _ => 0)

end ChenixOS.Ahci
