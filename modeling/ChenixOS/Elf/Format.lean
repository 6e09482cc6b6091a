import ChenixOS.Lib.Words
import ChenixOS.Memory.FreeList

/-!
# The ELF format

The structures of `Bootloader/ELF.h` and `exec/elf/ELFDefines.h`, which are the same, as functions of the bytes of a
file. Of the program headers only what the two loaders read is here.
-/

namespace ChenixOS.ELF

open Words

/-! ## Constants -/

def PT_LOAD : Nat := 1
def PT_DYNAMIC : Nat := 2
def PT_TLS : Nat := 7

def DT_NULL : Nat := 0
def DT_RELA : Nat := 7
def DT_RELASZ : Nat := 8
def DT_RELAENT : Nat := 9

def R_RELATIVE : Nat := 8

/-! ## Headers -/

/-- `sizeof(ELFHeader)` -/
def headerSizeof : Nat := 64

/-- `sizeof(ElfSegmentHeader)` -/
def segmentSizeof : Nat := 56

/-- `ELFHeader::entryPoint` -/
def entryPoint (file : Nat → UInt8) : Nat := word file 8 24

/-- `ELFHeader::phOffset` -/
def phOffset (file : Nat → UInt8) : Nat := word file 8 32

/-- `ELFHeader::phEntryCount` -/
def phEntryCount (file : Nat → UInt8) : Nat := word file 2 56

/-- `ElfSegmentHeader` -/
structure ElfSegmentHeader where
  type : Nat
  dataOffset : Nat
  virtualAddress : Nat
  dataSize : Nat
  virtualSize : Nat
  deriving DecidableEq

/-- `&segList[s]`, as an offset into the file -/
def segmentAt (file : Nat → UInt8) (s : Nat) : Nat := (phOffset file + segmentSizeof * s) % wordSize

/-- `segList[s]` -/
def segment (file : Nat → UInt8) (s : Nat) : ElfSegmentHeader where
  type := word file 4 (segmentAt file s)
  dataOffset := word file 8 (segmentAt file s + 8)
  virtualAddress := word file 8 (segmentAt file s + 16)
  dataSize := word file 8 (segmentAt file s + 32)
  virtualSize := word file 8 (segmentAt file s + 40)

/-- All program headers. -/
def segments (file : Nat → UInt8) : List ElfSegmentHeader := (List.range (phEntryCount file)).map (segment file)

namespace ElfSegmentHeader

/-- The part of the address space that a segment is loaded to. -/
def extent (seg : ElfSegmentHeader) : Nat := max seg.dataSize seg.virtualSize

/-- The segment covers the address `x`. -/
def Covers (seg : ElfSegmentHeader) (x : Nat) : Prop :=
  seg.virtualAddress ≤ x ∧ x < seg.virtualAddress + seg.extent

instance decidableCovers (seg : ElfSegmentHeader) (x : Nat) : Decidable (seg.Covers x) := instDecidableAnd

/-- `src[i]`, where `src` is the data of the segment -/
def data (file : Nat → UInt8) (seg : ElfSegmentHeader) (i : Nat) : UInt8 := file ((seg.dataOffset + i) % wordSize)

/-- What a segment has at `x`: its bytes in the file, and zeros behind them. -/
def content (file : Nat → UInt8) (seg : ElfSegmentHeader) (x : Nat) : UInt8 :=
  if x - seg.virtualAddress < seg.dataSize then seg.data file (x - seg.virtualAddress) else 0

end ElfSegmentHeader

end ChenixOS.ELF
