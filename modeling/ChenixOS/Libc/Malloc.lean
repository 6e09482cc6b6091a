import ChenixOS.Libc.FreeList
import ChenixOS.Lib.Transitions

/-!
# The heap of a process

`libs/libc/stdlib/malloc.cpp`: blocks with a header of 16 bytes, handed out from a free list in the
memory of the process. When the list has no segment that is large enough, fresh pages are mapped at
`g_HeapPos`. An access to a page that is not mapped faults, and so the call does not return.
-/

namespace ChenixOS.Libc

/-- The memory of the process: its words, and which pages are mapped. -/
structure UserMem where
  words : Nat → Nat
  mapped : Nat → Bool

def userView : View UserMem where
  load s a := if s.mapped (a / 4096) then some (s.words a) else none
  store s a v :=
    if s.mapped (a / 4096) then some { s with words := Function.update s.words a v } else none

/-- `g_FreeList`, with the memory, and `g_HeapPos`. -/
structure Heap where
  list : FreeList UserMem
  heapPos : Nat

/-- The value that `g_HeapPos` starts with. -/
def heapStart : Nat := 0xFF000000

/-- The end of the addresses that `IsUserPtr` accepts: the first slot of the PML4. -/
def userEnd : Nat := 2 ^ 39

/-- The system call maps the requested pages. -/
def allocPages (addr numPages : Nat) (s : UserMem) : UserMem :=
  { s with mapped := fun p =>
      s.mapped p || decide (addr / 4096 ≤ p ∧ p < addr / 4096 + numPages) }

/-- The loop of `memset` with the value 0, a word at a time from word `i` on; `n` counts the words that
are left. The counter of the bytes is an `int`: it must not reach `2 ^ 31`. -/
def clear (d : Nat) : Nat → Nat → UserMem → Option UserMem
  | 0, _, s => some s
  | n + 1, i, s =>
    if 8 * i + 8 < 2 ^ 31 then do
      let s ← userView.store s (d + 8 * i) 0
      clear d n (i + 1) s
    else
      none

/-- `memset(d, 0, size)`, for a multiple of 8 bytes. -/
def memset (d size : Nat) (s : UserMem) : Option UserMem := clear d (size / 8) 0 s

/-- The pages that `ReserveNew` asks for. -/
def pagesFor (size : Nat) : Nat := (size + 4095) % wordSize / 4096

def reserveNew (size : Nat) (h : Heap) : Option Heap := do
  let size := pagesFor size
  let mem := allocPages h.heapPos size h.list.mem
  let list ← markFree userView { h.list with mem := mem } h.heapPos (size * 4096 % wordSize)
  some { list := list, heapPos := (h.heapPos + size * 4096) % wordSize }

/-- One more than the largest `size_t`, which is `unsigned int`. -/
def sizeTop : Nat := 2 ^ 32

/-- The size of a block with its header: `(size + sizeof(uint64) * 2 + 63) / 64 * 64` has 64 bits, and is
kept in a `size_t`. -/
def blockSize (size : Nat) : Nat := (size + 79) / 64 * 64 % sizeTop

/-- The segment that a block is taken from, on a heap that was extended if need be. -/
def findOrReserve (size : Nat) (h : Heap) : Option (Nat × Heap) := do
  let g ← FreeList.findFree userView h.list size
  if g = 0 then
    let h ← reserveNew size h
    let g ← FreeList.findFree userView h.list size
    some (g, h)
  else
    some (g, h)

def malloc (size : Nat) (h : Heap) : Option (Nat × Heap) := do
  let size := blockSize size
  let (g, h) ← findOrReserve size h
  let list ← markUsed userView h.list g size
  let mem ← memset g size list.mem
  let mem ← userView.store mem g size
  some ((g + 16) % wordSize, { h with list := { list with mem := mem } })

def free (block : Nat) (h : Heap) : Option Heap :=
  if block = 0 then some h
  else do
    let b := (block + wordSize - 16) % wordSize
    let size ← userView.load h.list.mem b
    let list ← markFree userView h.list b size
    some { h with list := list }

/-! ## `realloc` -/

/-- A word whose first `r` bytes, the low ones, are those of `new`, and the others those of `old`. -/
def mixBytes (r new old : Nat) : Nat := new % 256 ^ r + old / 256 ^ r * 256 ^ r

/-- The loop of `memcpy`, a word at a time from word `i` on; `n` counts the words that are left. -/
def copyWords (d src : Nat) : Nat → Nat → UserMem → Option UserMem
  | 0, _, s => some s
  | n + 1, i, s => do
    let v ← userView.load s (src + 8 * i)
    let s ← userView.store s (d + 8 * i) v
    copyWords d src n (i + 1) s

/-- `memcpy(d, src, size)`, for addresses that are multiples of 8. It reads the `size` bytes from `src` on;
the last word may be copied in part. -/
def memcpy (d src size : Nat) (s : UserMem) : Option UserMem := do
  let s ← copyWords d src (size / 8) 0 s
  if size % 8 = 0 then some s
  else do
    let new ← userView.load s (src + 8 * (size / 8))
    let old ← userView.load s (d + 8 * (size / 8))
    userView.store s (d + 8 * (size / 8)) (mixBytes (size % 8) new old)

/-- How many bytes `realloc` copies to the new block, from a block whose header says `srcSize`. -/
def copied (size srcSize : Nat) : Nat := if srcSize < size then srcSize else size

def realloc (ptr size : Nat) (h : Heap) : Option (Nat × Heap) :=
  if ptr = 0 then malloc size h
  else do
    let srcSize ← userView.load h.list.mem ((ptr + wordSize - 16) % wordSize)
    if size = srcSize then some (ptr, h)
    else do
      let (res, h) ← malloc size h
      let mem ← memcpy res ptr (copied size srcSize) h.list.mem
      some (res, { h with list := { h.list with mem := mem } })

/-! ## Runs -/

/-- The second field is not in the source: the blocks that were returned and not yet freed, each with its
header. -/
structure State where
  heap : Heap
  live : List FreeList.Segment

/-- The process starts with an empty list; of its memory nothing is assumed. -/
def initial (mem : UserMem) : State := ⟨⟨⟨mem, 0, 0⟩, heapStart⟩, []⟩

inductive Event
  | malloc (n : Nat)
  /-- `free` of the `i`-th of the live blocks. -/
  | free (i : Nat)
  /-- The program writes the word at `a`. -/
  | write (a v : Nat)

def step (s : State) : Event → Option State
  | .malloc n => (malloc n s.heap).map fun (p, heap) =>
      ⟨heap, s.live ++ [⟨p - 16, blockSize n⟩]⟩
  | .free i => s.live[i]?.bind fun b => (free (b.base + 16) s.heap).map fun heap =>
      ⟨heap, s.live.eraseIdx i⟩
  | .write a v => (userView.store s.heap.list.mem a v).map fun mem =>
      ⟨{ s.heap with list := { s.heap.list with mem := mem } }, s.live⟩

/-- The pages that a call of `malloc` asks for, if it asks for any, are in the address space: what is
assumed of `alloc_pages` can be met. -/
def Granted (n : Nat) (h : Heap) : Prop :=
  FreeList.findFree userView h.list (blockSize n) = some 0 →
    h.heapPos + pagesFor (blockSize n) * 4096 ≤ userEnd

/-- **The condition**: the rounded size of a block is less than `2 ^ 31`. -/
def Small : Event → Prop
  | .malloc n => blockSize n < 2 ^ 31
  | _ => True

/-- What the program may do: `malloc` of a size that does not wrap, `free` of a live block, and writing to
the usable bytes of a live block. -/
def Enabled (s : State) : Event → Prop
  | .malloc n => n + 79 < sizeTop ∧ Granted n s.heap
  | .free _ => True
  | .write a v => 8 ∣ a ∧ v < wordSize ∧ ∃ b ∈ s.live, b.base + 16 ≤ a ∧ a + 8 ≤ b.base + b.size

end ChenixOS.Libc
