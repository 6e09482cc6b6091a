import ChenixOS.Memory.Mapping

/-!
# The kernel heap

`KernelHeap.cpp`: blocks with a header of 64 bytes, handed out from a free list in virtual memory.
When the list has no segment that is large enough, the heap is extended at `g_HeapPos` with pages
that are mapped for it.

The nodes of the list and the headers of blocks are in heap memory, which the kernel reaches
through the page tables of the running core. An access to an address that is not mapped faults, and
so the call does not return.
-/

namespace ChenixOS.KernelHeap

open MemoryManager

/-- `((uint64)510 << 39) | 0xFFFF000000000000` -/
def heapBase : Nat := 2 ^ 64 - 2 ^ 40

/-- Memory as the kernel sees it, through the page tables. -/
def heapView : View State where
  load s a := (translate s a).map fun p => s.mem (highMemBase + p)
  store s a v := (translate s a).map fun p => s.store (highMemBase + p) v

/-- `g_FreeList`, with the state of the memory manager, and `g_HeapPos`. -/
structure Heap where
  list : FreeList State
  heapPos : Nat

/-- The loop of `ReserveNew`, from page `i` on. The counter is an `int`, and so is `4096 * i`: from
`2 ^ 31` on the product is undefined. -/
def mapPages (g heapPos : Nat) : Nat → Nat → State → Option State
  | 0, _, s => some s
  | count + 1, i, s =>
    if 4096 * i < 2 ^ 31 then do
      let s ← mapKernelPage ((g + 4096 * i) % wordSize) ((heapPos + 4096 * i) % wordSize) s
      mapPages g heapPos count (i + 1) s
    else
      none

def reserveNew (size : Nat) (h : Heap) : Option Heap := do
  let size := (size + 4095) % wordSize / 4096
  let (g, s) ← allocatePages size h.list.mem
  let s ← mapPages g h.heapPos size 0 s
  let list ← FreeList.markFree heapView { h.list with mem := s } h.heapPos (size * 4096 % wordSize)
  some { list := list, heapPos := (h.heapPos + size * 4096) % wordSize }

/-- The size of a block with its header, `(size + 63) / 64 * 64 + 64`. -/
def blockSize (size : Nat) : Nat := ((size + 63) % wordSize / 64 * 64 + 64) % wordSize

/-- The segment that a block is taken from, on a heap that was extended if need be. -/
def findOrReserve (size : Nat) (h : Heap) : Option (Nat × Heap) := do
  let g ← FreeList.findFree heapView h.list size
  if g = 0 then
    let h ← reserveNew size h
    let g ← FreeList.findFree heapView h.list size
    some (g, h)
  else
    some (g, h)

def allocate (size : Nat) (h : Heap) : Option (Nat × Heap) := do
  let size := blockSize size
  let (g, h) ← findOrReserve size h
  let list ← FreeList.markUsed heapView h.list g size
  let mem ← heapView.store list.mem g size
  some ((g + 64) % wordSize, { h with list := { list with mem := mem } })

def free (block : Nat) (h : Heap) : Option Heap :=
  if block = 0 then some h
  else do
    let b := (block + wordSize - 64) % wordSize
    let size ← heapView.load h.list.mem b
    let list ← FreeList.markFree heapView h.list b size
    some { h with list := list }

def getSize (block : Nat) (h : Heap) : Option Nat :=
  if block = 0 then some 0 else heapView.load h.list.mem ((block + wordSize - 64) % wordSize)

end ChenixOS.KernelHeap
