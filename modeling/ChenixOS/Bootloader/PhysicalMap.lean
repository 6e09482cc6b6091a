import ChenixOS.Memory.MemoryManager

/-!
# The physical memory map

`physicalMap.cpp` of the boot loader. `CleanupMemMap` works on the array of memory descriptors that the
firmware returned: it keeps the usable ones, joins those that are adjacent and closes the gaps. `Build`
then links what is left into a list, each node of which is in the first bytes of the memory it describes.

The array is in memory that is not usable itself; here it is a list, and `count` is its length. The index
of the loops is a `uint64` that is decremented when an entry is to be looked at again, from 0 to
`2 ^ 64 - 1`. A loop that does not end within its fuel gives `none`.
-/

namespace ChenixOS.PhysicalMap

open MemoryManager (highMemBase)

/-! ## Descriptors -/

/-- `EFI_MEMORY_TYPE`, with the types that the boot loader does not name as numbers. -/
inductive EfiMemoryType
  | loaderCode
  | loaderData
  | bootServicesCode
  | bootServicesData
  | conventionalMemory
  | unusableMemory
  | other (type : Nat)
  deriving DecidableEq

/-- The types that can be used once the boot services have exited. -/
def EfiMemoryType.usable : EfiMemoryType → Bool
  | .loaderCode | .loaderData | .bootServicesCode | .bootServicesData | .conventionalMemory => true
  | .unusableMemory | .other _ => false

/-- `EFI_MEMORY_DESCRIPTOR` -/
structure Descriptor where
  type : EfiMemoryType
  physicalStart : Nat
  numberOfPages : Nat
  deriving DecidableEq

/-- `(uint64)-1`, as the start of what was joined with another segment or is not usable. -/
def gone : Nat := wordSize - 1

namespace Descriptor

/-- The body of the first loop. -/
def classify (seg : Descriptor) : Descriptor :=
  if seg.type.usable then { seg with type := .conventionalMemory }
  else { seg with type := .unusableMemory, physicalStart := gone }

def «end» (seg : Descriptor) : Nat := (seg.physicalStart + seg.numberOfPages * 4096) % wordSize

/-- What the loops of the second phase pass over. -/
def skipped (seg : Descriptor) : Bool := seg.type != .conventionalMemory || seg.physicalStart == gone

/-- Does `cmp` begin where `seg` ends, or end where it begins? -/
def touches (seg cmp : Descriptor) : Bool :=
  cmp.physicalStart == seg.end || cmp.end == seg.physicalStart

end Descriptor

/-! ## `CleanupMemMap` -/

/-- `s++` -/
def next (s : Nat) : Nat := (s + 1) % wordSize

/-- `s--` -/
def prev (s : Nat) : Nat := (s + wordSize - 1) % wordSize

/-- The first entry behind `s` that touches `seg`. -/
def findAdjacent (map : List Descriptor) (s : Nat) (seg : Descriptor) : Option Nat :=
  (List.range' (s + 1) (map.length - (s + 1))).find? fun c =>
    match map[c]? with
    | none => false
    | some cmp => !cmp.skipped && seg.touches cmp

/-- `seg`, with the pages of `cmp`. -/
def join (seg cmp : Descriptor) : Descriptor :=
  if cmp.physicalStart = seg.end then
    { seg with numberOfPages := (seg.numberOfPages + cmp.numberOfPages) % wordSize }
  else
    { seg with
      physicalStart := cmp.physicalStart
      numberOfPages := (seg.numberOfPages + cmp.numberOfPages) % wordSize }

/-- The body of the second loop: the array in which the entry `s` was joined with another one, or `none`
if it was not. -/
def joinAt (map : List Descriptor) (s : Nat) : Option (List Descriptor) := do
  let seg ← map[s]?
  if seg.skipped then none
  else
    let c ← findAdjacent map s seg
    let cmp ← map[c]?
    some ((map.set s (join seg cmp)).set c { cmp with physicalStart := gone })

/-- The second loop, from the entry `s` on. -/
def joinLoop : Nat → Nat → List Descriptor → Option (List Descriptor)
  | 0, _, _ => none
  | fuel + 1, s, map =>
    if s < map.length then
      match joinAt map s with
      | some map => joinLoop fuel (next (prev s)) map
      | none => joinLoop fuel (next s) map
    else
      some map

/-- `*dest = *src`, for the entries `m - 1` and `m`. -/
def copyDown (map : List Descriptor) (m : Nat) : List Descriptor :=
  match map[m]? with
  | none => map
  | some src => map.set (m - 1) src

/-- The entries behind `s` are moved down, and `count--`. -/
def removeAt (map : List Descriptor) (s : Nat) : List Descriptor :=
  ((List.range' (s + 1) (map.length - (s + 1))).foldl copyDown map).take (map.length - 1)

/-- The third loop, from the entry `s` on. -/
def removeLoop : Nat → Nat → List Descriptor → Option (List Descriptor)
  | 0, _, _ => none
  | fuel + 1, s, map =>
    match map[s]? with
    | none => some map
    | some seg =>
      if seg.physicalStart ≠ gone then removeLoop fuel (next s) map
      else removeLoop fuel (next (prev s)) (removeAt map s)

def cleanupMemMap (fuel : Nat) (map : List Descriptor) : Option (List Descriptor) := do
  let map ← joinLoop fuel 0 (map.map Descriptor.classify)
  removeLoop fuel 0 map

/-! ## `Build` -/

/-- `Paging::ConvertPtr` -/
def convertPtr (ptr : Nat) : Nat := (ptr + highMemBase) % wordSize

/-- The page tables of the boot loader: the first 512 GB of physical memory are mapped at 0 and at
`g_HighMemBase`, and nothing else is. -/
def physical (virt : Nat) : Option Nat :=
  if virt < 2 ^ 39 then some virt
  else if highMemBase ≤ virt then some (virt - highMemBase)
  else none

/-- Physical memory as the boot loader reaches it. -/
def bootView : View (Nat → Nat) where
  load m a := (physical a).map m
  store m a v := (physical a).map fun p => Function.update m p v

/-- `firstSegment` and `lastSegment`, with the memory. -/
structure SegmentList where
  first : Nat
  last : Nat
  mem : Nat → Nat

/-- A `PhysicalMapSegment` has `base`, `numPages`, `next` and `prev`, in this order. -/
def setSegment (seg : Nat) (desc : Descriptor) (prev : Nat) (mem : Nat → Nat) : Option (Nat → Nat) := do
  let mem ← bootView.store mem (seg + 24) prev
  let mem ← bootView.store mem seg desc.physicalStart
  let mem ← bootView.store mem (seg + 8) desc.numberOfPages
  bootView.store mem (seg + 16) 0

/-- The body of the loop of `Build`. -/
def link (list : SegmentList) (desc : Descriptor) : Option SegmentList :=
  if desc.type = .conventionalMemory then
    let seg := convertPtr desc.physicalStart
    if list.first = 0 then do
      let mem ← setSegment seg desc 0 list.mem
      some { first := seg, last := seg, mem := mem }
    else do
      let mem ← bootView.store list.mem (list.last + 16) seg
      let mem ← setSegment seg desc list.last mem
      some { first := list.first, last := seg, mem := mem }
  else
    some list

/-- `Build`: the first segment of the list, and the memory. -/
def build (fuel : Nat) (map : List Descriptor) (mem : Nat → Nat) : Option (Nat × (Nat → Nat)) := do
  let map ← cleanupMemMap fuel map
  let list ← map.foldlM link { first := 0, last := 0, mem := mem }
  some (list.first, list.mem)

end ChenixOS.PhysicalMap
