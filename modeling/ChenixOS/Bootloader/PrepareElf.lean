import ChenixOS.Elf.Format
import Mathlib.Data.List.Basic
import Mathlib.Logic.Function.Basic

/-!
# Loading the kernel

`Bootloader/ELF.cpp`. `PrepareELF` copies the segments of a position-independent image to where it is to run, and
then, when it comes to the dynamic section, adds the address of the image to each word that the section's table
`DT_RELA` names.

The image on disk does not change; the memory of the process is a function on the 64-bit addresses. `none` stands for
a loop that has not ended after as many rounds as it is given, or a division by zero.
-/

namespace ChenixOS.ELF.Boot

open Words

abbrev Memory := Nat → UInt8

/-- `GetELFSize` -/
def getELFSize (file : Nat → UInt8) : Nat :=
  (segments file).foldl (fun size seg =>
    if seg.type = PT_LOAD then max size ((seg.virtualAddress + seg.virtualSize) % wordSize) else size) 0

/-! ## Segments -/

/-- `for(i = lo; i < hi; i++) dest[i] = src[i];` -/
def fill (dest lo hi : Nat) (src : Nat → UInt8) (m : Memory) : Memory :=
  (List.range' lo (hi - lo)).foldl (fun m i => Function.update m ((dest + i) % wordSize) (src i)) m

/-- The branch for `PT_LOAD`. -/
def loadSegment (file : Nat → UInt8) (processImg : Nat) (segment : ElfSegmentHeader) (m : Memory) : Memory :=
  let dest := (processImg + segment.virtualAddress) % wordSize
  fill dest segment.dataSize segment.virtualSize (fun _ => 0) (fill dest 0 segment.dataSize (segment.data file) m)

/-! ## Relocations -/

/-- The bytes of the image in memory, from `processImg` on. -/
def processBytes (processImg : Nat) (m : Memory) : Nat → UInt8 := fun x => m ((processImg + x) % wordSize)

/-- What the dynamic section says about the table of relocations. -/
structure Dynamic where
  relaAddr : Nat
  relaSize : Nat
  relaEntrySize : Nat
  deriving DecidableEq

/-- `sizeof(ElfRelA)` -/
def relaSizeof : Nat := 24

/-- The values before the loop. -/
def Dynamic.start : Dynamic := ⟨0, 0, relaSizeof⟩

/-- One entry of the section. -/
def Dynamic.read (info : Dynamic) (tag value : Nat) : Dynamic :=
  if tag = DT_RELA then { info with relaAddr := value }
  else if tag = DT_RELASZ then { info with relaSize := value }
  else if tag = DT_RELAENT then { info with relaEntrySize := value }
  else info

/-- The loop over the dynamic section. -/
def readDynamic (b : Nat → UInt8) : (fuel dyn : Nat) → Dynamic → Option Dynamic
  | 0, _, _ => none
  | fuel + 1, dyn, info =>
    if word b 8 dyn = DT_NULL then some info
    else readDynamic b fuel (dyn + 16) (info.read (word b 8 dyn) (word b 8 (dyn + 8)))

/-- `ElfRelA` -/
structure ElfRelA where
  address : Nat
  info : Nat
  addend : Nat
  deriving DecidableEq

/-- `relaList[i]` -/
def rela (b : Nat → UInt8) (relaAddr i : Nat) : ElfRelA where
  address := word b 8 (relaAddr + relaSizeof * i)
  info := word b 8 (relaAddr + relaSizeof * i + 8)
  addend := word b 8 (relaAddr + relaSizeof * i + 16)

/-- `relType` -/
def ElfRelA.relType (rel : ElfRelA) : Nat := rel.info % 2 ^ 32

/-- `*(unsigned long long*)target = finalAddend;` -/
def apply (processImg : Nat) (rel : ElfRelA) (m : Memory) : Memory :=
  fill ((processImg + rel.address) % wordSize) 0 8 (byte ((rel.addend + processImg) % wordSize)) m

/-- The loop over the relocations. Its counter has 32 bits. -/
def relocate (processImg relaAddr relaCount : Nat) : (fuel i : Nat) → Memory → Option (Bool × Memory)
  | 0, _, _ => none
  | fuel + 1, i, m =>
    if i < relaCount then
      let rel := rela (processBytes processImg m) relaAddr i
      if rel.relType = R_RELATIVE then
        relocate processImg relaAddr relaCount fuel ((i + 1) % 2 ^ 32) (apply processImg rel m)
      else some (false, m)
    else some (true, m)

/-- The branch for `PT_DYNAMIC`. -/
def applyDynamic (fuel processImg : Nat) (segment : ElfSegmentHeader) (m : Memory) : Option (Bool × Memory) := do
  let info ← readDynamic (processBytes processImg m) fuel segment.virtualAddress Dynamic.start
  if info.relaEntrySize = 0 then none
  else relocate processImg info.relaAddr (info.relaSize / info.relaEntrySize) fuel 0 m

/-! ## `PrepareELF` -/

/-- The loop over the program headers. -/
def prepareSegments (file : Nat → UInt8) (fuel processImg : Nat) :
    List ElfSegmentHeader → Memory → Option (Bool × Memory)
  | [], m => some (true, m)
  | segment :: segList, m =>
    if segment.type = PT_LOAD then
      prepareSegments file fuel processImg segList (loadSegment file processImg segment m)
    else if segment.type = PT_DYNAMIC then do
      let (ok, m) ← applyDynamic fuel processImg segment m
      if ok then prepareSegments file fuel processImg segList m else some (false, m)
    else prepareSegments file fuel processImg segList m

/-- `PrepareELF`: the entry point when it returns true, and the memory. -/
def prepareELF (fuel : Nat) (file : Nat → UInt8) (processImg : Nat) (m : Memory) : Option (Option Nat × Memory) := do
  let (ok, m) ← prepareSegments file fuel processImg (segments file) m
  some (if ok then some ((processImg + entryPoint file) % wordSize) else none, m)

end ChenixOS.ELF.Boot
