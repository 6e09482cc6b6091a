import ChenixOS.Elf.Format
import ChenixOS.Memory.Bytes
import ChenixOS.Memory.MemoryManager

/-!
# User programs

`ELFExecHandler::CheckAndPrepare` of `exec/elf/ELF.cpp` up to the stack: the check of the file, the loop over its
program headers, and the 16 pages of the stack.

A file is a buffer of `bufferSize` bytes. `none` stands for an access that must not be: a read outside of the buffer,
or a write through a null page pointer.
-/

namespace ChenixOS.ELF.Exec

open MemoryManager

/-! ## The buffer -/

structure Buffer where
  bytes : Nat → UInt8
  bufferSize : Nat

/-- `buffer[a]` -/
def Buffer.byte (buffer : Buffer) (a : Nat) : Option UInt8 :=
  if a < buffer.bufferSize then some (buffer.bytes a) else none

/-- The word of `n` bytes at `buffer + a`. -/
def Buffer.word (buffer : Buffer) (n a : Nat) : Option Nat :=
  if a + n ≤ buffer.bufferSize then some (Words.word buffer.bytes n a) else none

/-! ## Headers -/

/-- `ELFProgramInfo` -/
structure ELFProgramInfo where
  masterTLSAddress : Nat
  masterTLSSize : Nat
  argc : Int
  argv : Nat
  env : Nat
  deriving DecidableEq

/-- `ELFProgramInfo progInfo = { 0 };` -/
def ELFProgramInfo.zero : ELFProgramInfo := ⟨0, 0, 0, 0, 0⟩

/-- `0x7F`, `'E'`, `'L'`, `'F'` -/
def magic : List UInt8 := [0x7F, 0x45, 0x4C, 0x46]

/-- The comparison of `header->magic`, which ends with the first difference. -/
def checkMagic (buffer : Buffer) : (i : Nat) → List UInt8 → Option Bool
  | _, [] => some true
  | i, c :: cs => do
    let b ← buffer.byte i
    if b = c then checkMagic buffer (i + 1) cs else some false

/-- The types of segments that are loaded. -/
def isLoaded (type : Nat) : Prop := type = PT_LOAD ∨ type = PT_TLS

instance decidableIsLoaded (type : Nat) : Decidable (isLoaded type) := instDecidableOr

/-- `segList[s]`: of a segment that is not loaded only the type is read. -/
def readSegment (buffer : Buffer) (s : Nat) : Option (Option ElfSegmentHeader) := do
  let segment := segmentAt buffer.bytes s
  let type ← buffer.word 4 segment
  if isLoaded type then do
    let dataOffset ← buffer.word 8 (segment + 8)
    let virtualAddress ← buffer.word 8 (segment + 16)
    let dataSize ← buffer.word 8 (segment + 32)
    let virtualSize ← buffer.word 8 (segment + 40)
    some (some ⟨type, dataOffset, virtualAddress, dataSize, virtualSize⟩)
  else some none

/-! ## Segments -/

/-- `lastPage`, `lastPageBuffer` -/
structure Cache where
  lastPage : Nat
  lastPageBuffer : Nat
  deriving DecidableEq

def Cache.empty : Cache := ⟨0, 0⟩

/-- The body of the two loops: a byte goes to `addr`. -/
def putByte (pml4Entry addr : Nat) (value : Option UInt8) (st : Cache × State) : Option (Cache × State) := do
  let page := addr &&& 0xFFFFFFFFFFFFF000
  let offs := addr &&& 0xFFF
  let (cache, s) ←
    if page ≠ st.1.lastPage then (mapProcessPage pml4Entry page st.2).map fun r => (⟨page, r.1⟩, r.2) else some st
  let v ← value
  if cache.lastPageBuffer = 0 then none else some (cache, s.storeByte (cache.lastPageBuffer + offs) v)

/-- What is done with one segment that is loaded. -/
def loadSegment (buffer : Buffer) (pml4Entry : Nat) (segment : ElfSegmentHeader) (s : State) : Option State := do
  let dest := segment.virtualAddress
  let st ← (List.range segment.dataSize).foldlM (fun st i =>
    putByte pml4Entry ((dest + i) % wordSize) (buffer.byte ((segment.dataOffset + i) % wordSize)) st) (Cache.empty, s)
  let st ← (List.range' segment.dataSize (segment.virtualSize - segment.dataSize)).foldlM (fun st i =>
    putByte pml4Entry ((dest + i) % wordSize) (some 0) st) st
  some st.2

/-- One round of the loop over the program headers. -/
def loadHeader (buffer : Buffer) (pml4Entry : Nat) (st : ELFProgramInfo × State) (s : Nat) :
    Option (ELFProgramInfo × State) := do
  match ← readSegment buffer s with
  | none => some st
  | some segment =>
    let m ← loadSegment buffer pml4Entry segment st.2
    if segment.type = PT_TLS then
      some ({ st.1 with masterTLSAddress := segment.virtualAddress, masterTLSSize := segment.virtualSize }, m)
    else some (st.1, m)

/-- The check of the file and the loop over its program headers. -/
def loadImage (buffer : Buffer) (pml4Entry : Nat) (s : State) : Option (Option ELFProgramInfo × State) := do
  if ← checkMagic buffer 0 magic then do
    let _ ← buffer.word 8 32
    let phEntryCount ← buffer.word 2 56
    let (progInfo, s) ← (List.range phEntryCount).foldlM (loadHeader buffer pml4Entry) (ELFProgramInfo.zero, s)
    some (some progInfo, s)
  else some (none, s)

/-! ## The stack -/

def stackBase : Nat := 0x1000

/-- The pages of the stack, in a row in physical memory. -/
def mapStack (pml4Entry : Nat) (s : State) : Option (Nat × State) := do
  let (physStack, s) ← allocatePages 16 s
  let s ← (List.range 16).foldlM (fun s i =>
    mapProcessPageAt pml4Entry ((physStack + i * 4096) % wordSize) (stackBase + i * 4096) s) s
  some (physStack, s)

/-- What there is of a program before its arguments. -/
structure Image where
  progInfo : ELFProgramInfo
  entryPoint : Nat
  physStack : Nat

/-- `CheckAndPrepare` up to the arguments; the result is `none` where the file is none for it. -/
def prepareImage (buffer : Buffer) (pml4Entry : Nat) (s : State) : Option (Option Image × State) := do
  let (progInfo, s) ← loadImage buffer pml4Entry s
  match progInfo with
  | none => some (none, s)
  | some progInfo =>
    let entryPoint ← buffer.word 8 24
    let (physStack, s) ← mapStack pml4Entry s
    some (some ⟨progInfo, entryPoint, physStack⟩, s)

end ChenixOS.ELF.Exec
