import ChenixOS.Memory.FreeList

/-!
# The memory manager

Physical pages, the page tables of processes and of the kernel, and the system calls on them, as
`MemoryManager.cpp` has them.

All of physical memory is mapped from `g_HighMemBase` on, which the boot loader sets to the last
512 GB of the address space. `State.mem` gives the word at each kernel address: the free list,
the page tables and the contents of all pages live there. A core has one PML4, whose entry 0 is
the running process, entry 510 the kernel heap and entry 511 physical memory. Translation caches
and the message that makes other cores drop theirs have no counterpart here.
-/

namespace ChenixOS.MemoryManager

/-! ## Addresses -/

/-- `g_HighMemBase`, `((uint64)511 << 39) | 0xFFFF000000000000` -/
def highMemBase : Nat := 2 ^ 64 - 2 ^ 39

def physToKernelPtr (ptr : Nat) : Nat := (ptr + highMemBase) % wordSize

def kernelToPhysPtr (ptr : Nat) : Nat := (ptr + wordSize - highMemBase) % wordSize

/-- `PML_GET_P` -/
def pmlGetP (entry : Nat) : Nat := entry &&& 0x1

/-- `PML_GET_ADDR` -/
def pmlGetAddr (entry : Nat) : Nat := entry &&& 0x000FFFFFFFFFF000

/-- `PML_SET_P(1)` -/
def pmlSetP : Nat := 0x1

/-- `PML_SET_RW(1)` -/
def pmlSetRW : Nat := 0x2

/-- `PML_SET_US(1)` -/
def pmlSetUS : Nat := 0x4

/-- `GET_PML1_INDEX` -/
def getPML1Index (addr : Nat) : Nat := (addr >>> 12) &&& 0x1FF

/-- `GET_PML2_INDEX` -/
def getPML2Index (addr : Nat) : Nat := (addr >>> 21) &&& 0x1FF

/-- `GET_PML3_INDEX` -/
def getPML3Index (addr : Nat) : Nat := (addr >>> 30) &&& 0x1FF

/-- `GET_PML4_INDEX` -/
def getPML4Index (addr : Nat) : Nat := (addr >>> 39) &&& 0x1FF

/-- The entry of a user page or of a table above user pages. -/
def userEntry (phys : Nat) : Nat := phys ||| pmlSetP ||| pmlSetRW ||| pmlSetUS

/-- The entry of a kernel page or of a table above kernel pages. -/
def kernelEntry (phys : Nat) : Nat := phys ||| pmlSetP ||| pmlSetRW

/-- `IsUserPtr` -/
def isUserPtr (ptr : Nat) : Bool := getPML4Index ptr == 0

/-! ## State -/

structure State where
  /-- `g_FreeList`, with the word at each kernel address. -/
  list : FreeList (Nat → Nat)
  /-- The PML4 of the running core, `g_CorePageTables.Get()`. -/
  myPML4 : Nat → Nat
  /-- History: how many requests for pages have been refused. -/
  refused : Nat

namespace State

def mem (s : State) : Nat → Nat := s.list.mem

def store (s : State) (a v : Nat) : State :=
  { s with list := { s.list with mem := Function.update s.list.mem a v } }

/-- The address of entry `i` of a table. -/
def entryAt (table i : Nat) : Nat := (table + 8 * i) % wordSize

def entry (s : State) (table i : Nat) : Nat := s.mem (entryAt table i)

def setEntry (s : State) (table i v : Nat) : State := s.store (entryAt table i) v

/-- `for(int i = 0; i < 512; i++) table[i] = 0;` -/
def clearTable (s : State) (table : Nat) : State :=
  (List.range 512).foldl (fun s i => s.setEntry table i 0) s

/-- `kmemcpy(dest, src, 4096)` -/
def copyPage (s : State) (dest src : Nat) : State :=
  (List.range 512).foldl (fun s i => s.setEntry dest i (s.entry src i)) s

end State

/-! ## Physical pages -/

/-- `AllocatePages`. The physical address of `numPages` pages, or null. -/
def allocatePages (numPages : Nat) (s : State) : Option (Nat × State) :=
  (FreeList.take View.plain s.list (numPages * 4096 % wordSize)).map fun r =>
    if r.1 = 0 then (0, { s with refused := s.refused + 1 })
    else (kernelToPhysPtr r.1, { s with list := r.2 })

def freePages (pages numPages : Nat) (s : State) : Option State :=
  (FreeList.markFree View.plain s.list (physToKernelPtr pages) (numPages * 4096 % wordSize)).map
    fun l => { s with list := l }

/-! ## Page tables -/

/-- A loop over the present entries of a table, each read when its turn comes. -/
def forEntries (table : Nat) (body : Nat → Nat → State → Option State) (s : State) :
    Option State :=
  (List.range 512).foldlM (fun s i =>
    if pmlGetP (s.entry table i) = 0 then some s else body i (s.entry table i) s) s

/-- What `FreeProcessPML1` to `FreeProcessPML3` have in common: free what each present entry
names, then the table. -/
def freeProcessPML (freeBelow : Nat → State → Option State) (table : Nat) (s : State) :
    Option State := do
  let s ← forEntries table (fun _ entry => freeBelow (pmlGetAddr entry)) s
  freePages (kernelToPhysPtr table) 1 s

def freeProcessPML1 : Nat → State → Option State :=
  freeProcessPML fun page => freePages page 1

def freeProcessPML2 : Nat → State → Option State :=
  freeProcessPML fun pml1 => freeProcessPML1 (physToKernelPtr pml1)

def freeProcessPML3 : Nat → State → Option State :=
  freeProcessPML fun pml2 => freeProcessPML2 (physToKernelPtr pml2)

def createProcessMap (s : State) : Option (Nat × State) := do
  let (phys, s) ← allocatePages 1 s
  let pml3 := physToKernelPtr phys
  let s := s.clearTable pml3
  some (userEntry (kernelToPhysPtr pml3), s)

def freeProcessMap (pml4Entry : Nat) (s : State) : Option State :=
  freeProcessPML3 (physToKernelPtr (pmlGetAddr pml4Entry)) s

def switchProcessMap (pml4Entry : Nat) (s : State) : State :=
  { s with myPML4 := Function.update s.myPML4 0 pml4Entry }

/-- The table that entry `i` of a table names. Where the entry is not present, a page is allocated
and cleared for it first; `newEntry` makes the entry from its address. -/
def tableBelow (newEntry : Nat → Nat) (table i : Nat) (s : State) : Option (Nat × State) :=
  if pmlGetP (s.entry table i) = 0 then do
    let (phys, s) ← allocatePages 1 s
    let below := physToKernelPtr phys
    let s := s.clearTable below
    some (below, s.setEntry table i (newEntry (kernelToPhysPtr below)))
  else
    some (physToKernelPtr (pmlGetAddr (s.entry table i)), s)

/-- What the three functions that map a page begin with: down to the PML1 of an address. -/
def pml1For (newEntry : Nat → Nat) (pml3 virt : Nat) (s : State) : Option (Nat × State) := do
  let (pml2, s) ← tableBelow newEntry pml3 (getPML3Index virt) s
  tableBelow newEntry pml2 (getPML2Index virt) s

/-- `MapProcessPage(pml4Entry, phys, virt, invalidate)` -/
def mapProcessPageAt (pml4Entry phys virt : Nat) (s : State) : Option State := do
  let (pml1, s) ← pml1For userEntry (physToKernelPtr (pmlGetAddr pml4Entry)) virt s
  some (s.setEntry pml1 (getPML1Index virt) (userEntry phys))

/-- `MapProcessPage(pml4Entry, virt, invalidate)`: the kernel address of the page. -/
def mapProcessPage (pml4Entry virt : Nat) (s : State) : Option (Nat × State) := do
  let (pml1, s) ← pml1For userEntry (physToKernelPtr (pmlGetAddr pml4Entry)) virt s
  let pml1Entry := s.entry pml1 (getPML1Index virt)
  if pmlGetP pml1Entry = 0 then
    let (phys, s) ← allocatePages 1 s
    some (physToKernelPtr phys, s.setEntry pml1 (getPML1Index virt) (userEntry phys))
  else
    some (physToKernelPtr (pmlGetAddr pml1Entry), s)

/-- `MapKernelPage(phys, virt)` -/
def mapKernelPage (phys virt : Nat) (s : State) : Option State := do
  let pml3 := physToKernelPtr (pmlGetAddr (s.myPML4 (getPML4Index virt)))
  let (pml1, s) ← pml1For kernelEntry pml3 virt s
  some (s.setEntry pml1 (getPML1Index virt) (kernelEntry phys))

/-- `UnmapProcessPage(pml4Entry, virt)` -/
def unmapProcessPage (pml4Entry virt : Nat) (s : State) : State :=
  let pml3 := physToKernelPtr (pmlGetAddr pml4Entry)
  let pml2 := physToKernelPtr (pmlGetAddr (s.entry pml3 (getPML3Index virt)))
  let pml1 := physToKernelPtr (pmlGetAddr (s.entry pml2 (getPML2Index virt)))
  s.setEntry pml1 (getPML1Index virt) 0

/-- The innermost body of `ForkProcessMap`: a page of its own with the same contents. -/
def forkPage (newPML4Entry pml1Entry virt : Nat) (s : State) : Option State := do
  let (phys, s) ← allocatePages 1 s
  let dest := physToKernelPtr phys
  let src := physToKernelPtr (pmlGetAddr pml1Entry)
  let s := s.copyPage dest src
  mapProcessPageAt newPML4Entry (kernelToPhysPtr dest) virt s

def forkProcessMap (s : State) : Option (Nat × State) := do
  let (newPML4Entry, s) ← createProcessMap s
  let pml3 := physToKernelPtr (pmlGetAddr (s.myPML4 0))
  let s ← forEntries pml3 (fun i pml3Entry =>
    forEntries (physToKernelPtr (pmlGetAddr pml3Entry)) fun j pml2Entry =>
      forEntries (physToKernelPtr (pmlGetAddr pml2Entry)) fun k pml1Entry =>
        forkPage newPML4Entry pml1Entry ((k <<< 12) ||| (j <<< 21) ||| (i <<< 30))) s
  some (newPML4Entry, s)

/-! ## Queries -/

/-- `MmQueryMemory` -/
def mmQueryMemory (virt : Nat) (s : State) : Nat :=
  if getPML4Index virt = 0 then 0
  else
    let pml3 := physToKernelPtr (pmlGetAddr (s.myPML4 0))
    let pml2 := physToKernelPtr (pmlGetAddr (s.entry pml3 (getPML3Index virt)))
    let pml1 := physToKernelPtr (pmlGetAddr (s.entry pml2 (getPML2Index virt)))
    if s.entry pml1 (getPML1Index virt) ≠ 0 then 1 else 0

/-- `UserToKernelPtr` -/
def userToKernelPtr (virt : Nat) (s : State) : Nat :=
  let pml3 := physToKernelPtr (pmlGetAddr (s.myPML4 0))
  let pml3Entry := s.entry pml3 (getPML3Index virt)
  if pmlGetP pml3Entry = 0 then 0
  else
    let pml2 := physToKernelPtr (pmlGetAddr pml3Entry)
    let pml2Entry := s.entry pml2 (getPML2Index virt)
    if pmlGetP pml2Entry = 0 then 0
    else
      let pml1 := physToKernelPtr (pmlGetAddr pml2Entry)
      let pml1Entry := s.entry pml1 (getPML1Index virt)
      physToKernelPtr (pmlGetAddr pml1Entry ||| (virt &&& 0xFFF))

/-! ## System calls -/

/-- How a call of `syscall_alloc` or `syscall_free` ends: with `0`, with
`ErrorAddressNotPageAligned`, or not at all since `ThreadExit(1)` was called. -/
inductive Outcome
  | ok
  | addressNotPageAligned
  | threadExit
  deriving DecidableEq

/-- The loop of the two calls: `body` on each of the `count` pages from page `i` on, as long as
they are user addresses. -/
def forPages (body : Nat → State → Option State) (base : Nat) :
    Nat → Nat → State → Option (Outcome × State)
  | 0, _, s => some (.ok, s)
  | count + 1, i, s =>
    if isUserPtr ((base + i * 4096) % wordSize) then do
      let s ← body ((base + i * 4096) % wordSize) s
      forPages body base count (i + 1) s
    else
      some (.threadExit, s)

/-- `(uint64)base & 0xFFF != 0` compares before it masks: only the lowest bit of the base is
looked at. -/
def pageCall (body : Nat → State → Option State) (base numPages : Nat) (s : State) :
    Option (Outcome × State) :=
  if base &&& 1 ≠ 0 then some (.addressNotPageAligned, s) else forPages body base numPages 0 s

def syscallAlloc : Nat → Nat → State → Option (Outcome × State) :=
  pageCall fun virt s => (mapProcessPage (s.myPML4 0) virt s).map Prod.snd

def syscallFree : Nat → Nat → State → Option (Outcome × State) :=
  pageCall fun virt s => some (unmapProcessPage (s.myPML4 0) virt s)

end ChenixOS.MemoryManager
