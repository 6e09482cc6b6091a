import ChenixOS.Fs.DirectoryMemory
import ChenixOS.Memory.FreeList

/-!
# The ext2 driver

`fs/ext2/ext2.cpp`. The driver reads its structures from a block device: the super block when it is created,
the inode of a node in `ReadNode`, and the data of a file in `ReadNodeData`. A directory is read whole, into
the list of entries that the VFS searches.

The device is a function that gives its bytes. So is an inode, as `directPointers` is also read beyond its
end: what is behind a structure in kernel memory is a parameter.
-/

namespace ChenixOS.Ext2

open Buffer
open VFS (NodeType Permissions RawDirectory Cell entrySizeof nodeIDOffset)

/-! ## Little-endian words -/

/-- The `uint16` at `a`. -/
def u16 (b : Nat → UInt8) (a : Nat) : Nat := (b a).toNat + 256 * (b (a + 1)).toNat

/-- The `uint32` at `a`. -/
def u32 (b : Nat → UInt8) (a : Nat) : Nat := u16 b a + 65536 * u16 b (a + 2)

/-! ## Structures -/

/-- `SuperBlock`, as far as the driver uses it. -/
structure SuperBlock where
  blockSizeShift : Nat
  inodesPerGroup : Nat
  inodeSize : Nat

/-- `INode`, as the bytes from its address on. -/
structure INode where
  bytes : Nat → UInt8

/-- `sizeof(INode)` -/
def inodeSizeof : Nat := 128

namespace INode

variable (inode : INode)

def typePermissions : Nat := u16 inode.bytes 0
def size : Nat := u32 inode.bytes 4
def hardlinkCount : Nat := u16 inode.bytes 26
def directPointers (i : Nat) : Nat := u32 inode.bytes (40 + 4 * i)
def indirectPointer : Nat := u32 inode.bytes 88
def doubleIndirectPointer : Nat := u32 inode.bytes 92
def tripleIndirectPointer : Nat := u32 inode.bytes 96
def sizeHigh : Nat := u32 inode.bytes 108

end INode

/-- `Ext2Driver`, with the bytes of its device. -/
structure Ext2Driver where
  image : Nat → UInt8
  sb : SuperBlock
  blockSize : Nat
  blockGroupDescTableOffset : Nat

namespace Ext2Driver

/-- The constructor. -/
def create (image : Nat → UInt8) : Ext2Driver :=
  let sb : SuperBlock :=
    { blockSizeShift := u32 image (1024 + 24)
      inodesPerGroup := u32 image (1024 + 40)
      inodeSize := u16 image (1024 + 88) }
  -- The shift is one of an `int`.
  let blockSize := ((1024#32 <<< sb.blockSizeShift).signExtend 64).toNat
  let blockAfterSuperBlock := if blockSize = 1024 then 2 else 1
  { image, sb, blockSize, blockGroupDescTableOffset := blockAfterSuperBlock * blockSize }

/-- `GetData` -/
def getData (d : Ext2Driver) (pos size : Nat) : List UInt8 :=
  (List.range size).map fun i => d.image (pos + i)

/-! ## `ReadNodeData` -/

/-- The local variables of `ReadNodeData`, what it has read into `buffer` and which entries of the indirect
table it has looked at. -/
structure Transfer where
  rem : Nat
  pos : Nat
  res : Nat
  buffer : List UInt8
  indirectBuffer : Option (Nat → UInt8)
  tableReads : List Nat

/-- What is found at `indirectBuffer` once the table is loaded: the table, and behind it `past`. -/
def table (d : Ext2Driver) (past : Nat → UInt8) (inode : INode) (a : Nat) : UInt8 :=
  if a < d.blockSize then d.image (inode.indirectPointer * d.blockSize + a) else past a

/-- `blockID` -/
def lookupBlock (d : Ext2Driver) (past : Nat → UInt8) (inode : INode) (blockIndex : Nat) (t : Transfer) :
    Nat × Transfer :=
  if blockIndex < 12 then (inode.directPointers blockIndex, t)
  else
    let indirectBuffer := t.indirectBuffer.getD (d.table past inode)
    (u32 indirectBuffer (4 * (blockIndex - 12)),
      { t with
        indirectBuffer := some indirectBuffer
        tableReads := t.tableReads ++ [blockIndex - 12] })

/-- The body of the loop. -/
def readBlock (d : Ext2Driver) (past : Nat → UInt8) (inode : INode) (t : Transfer) : Transfer :=
  let (blockID, t) := d.lookupBlock past inode (t.pos / d.blockSize) t
  let blockPos := blockID * d.blockSize
  let offset := t.pos % d.blockSize
  let leftInBlock := min (d.blockSize - offset) t.rem
  { t with
    buffer := t.buffer ++ d.getData (blockPos + offset) leftInBlock
    rem := t.rem - leftInBlock
    pos := (t.pos + leftInBlock) % wordSize
    res := (t.res + leftInBlock) % wordSize }

def readLoop (d : Ext2Driver) (past : Nat → UInt8) (inode : INode) : Nat → Transfer → Option Transfer
  | 0, _ => none
  | fuel + 1, t => if t.rem > 0 then readLoop d past inode fuel (d.readBlock past inode t) else some t

/-- The final variables; `res` is what is returned. -/
def readNodeData (fuel : Nat) (d : Ext2Driver) (past : Nat → UInt8) (inode : INode) (pos bufferSize : Nat) :
    Option Transfer :=
  let rem := min ((inode.size + wordSize - pos) % wordSize) bufferSize
  readLoop d past inode fuel { rem, pos, res := 0, buffer := [], indirectBuffer := none, tableReads := [] }

/-! ## `ReadNode` -/

/-- The inode with the number `id`, in memory in front of `past`. -/
def readINode (d : Ext2Driver) (past : Nat → UInt8) (id : Nat) : INode :=
  let index := (id + wordSize - 1) % wordSize
  let group := index / d.sb.inodesPerGroup
  let inodeTableBlock := u32 d.image (group * 32 + d.blockGroupDescTableOffset + 8)
  let relID := index % d.sb.inodesPerGroup
  let inodePos := inodeTableBlock * d.blockSize + relID * d.sb.inodeSize
  ⟨fun a => if a < inodeSizeof then d.image (inodePos + a) else past a⟩

/-- `GetData` into the name of the entry at `pos`, and the end of the name. -/
def readName (size : Nat) (entries : Nat → Cell) (pos : Nat) (name : List UInt8) : Option (Nat → Cell) :=
  if pos + name.length ≤ size then
    write size (paste entries pos name.length fun i => .char (Char.ofNat (name.getD i 0).toNat))
      (pos + name.length) (.char (Char.ofNat 0))
  else none

/-- A new entry of a directory, with the id and the name of a record. -/
def addRecord (junk : Nat → Cell) (dir : RawDirectory) (id : Nat) (name : List UInt8) : Option RawDirectory := do
  let (dir, k) ← dir.addEntry junk
  let entries ← VFS.RawDirectory.writeID dir.size dir.entries (k * entrySizeof + nodeIDOffset) id
  let entries ← readName dir.size entries (k * entrySizeof) name
  some { dir with entries }

/-- The loop that reads a directory, from `pos` on; `reads` are the places on the device where it has read a
record. It fails where it writes outside of the memory that the directory has. -/
def readEntries (d : Ext2Driver) (junk : Nat → Cell) (inode : INode) : (fuel pos : Nat) → RawDirectory →
    (reads : List Nat) → Option (RawDirectory × List Nat)
  | 0, _, _, _ => none
  | fuel + 1, pos, dir, reads =>
    if pos < inode.size then do
      let entryBlock := pos / d.blockSize
      let entryBlockPos := inode.directPointers entryBlock * d.blockSize
      let record := entryBlockPos + pos % d.blockSize
      let nameLengthLow := (d.image (record + 6)).toNat
      let dir ← addRecord junk dir (u32 d.image record) (d.getData (record + 8) nameLengthLow)
      readEntries d junk inode fuel (pos + u16 d.image (record + 4)) dir (reads ++ [record])
    else
      some (dir, reads)

end Ext2Driver

/-- The type in an inode; a node whose inode has another one keeps what `type` was. -/
def nodeType (typePermissions : Nat) : Option NodeType :=
  match typePermissions &&& 0xF000 with
  | 0x8000 => some .file
  | 0x4000 => some .directory
  | 0x2000 => some .deviceChar
  | 0x6000 => some .deviceBlock
  | 0x1000 => some .pipe
  | _ => none

/-- `Node`, as far as the driver sets it. -/
structure Node where
  id : Nat
  type : NodeType
  cachedDir : Option RawDirectory
  fileSize : Option Nat
  linkCount : Nat
  ownerUID : Nat
  ownerGID : Nat
  permissions : Permissions
  fsData : INode

/-- What `ReadNode` sets. -/
def Node.fill (node : Node) (id : Nat) (type : NodeType) (inode : INode) (cachedDir : Option RawDirectory) : Node :=
  { id, type, cachedDir
    fileSize := if type = .file then some inode.size else node.fileSize
    linkCount := inode.hardlinkCount
    ownerUID := 0
    ownerGID := 0
    permissions :=
      { node.permissions with
        ownerPermissions := VFS.Permissions.read ||| VFS.Permissions.execute
        groupPermissions := VFS.Permissions.read ||| VFS.Permissions.execute
        otherPermissions := VFS.Permissions.read ||| VFS.Permissions.execute }
    fsData := inode }

/-- `ReadNode`: the node, and where the records of a directory were read. -/
def Ext2Driver.readNode (fuel : Nat) (d : Ext2Driver) (past : Nat → UInt8) (junk : Nat → Cell) (id : Nat)
    (node : Node) : Option (Node × List Nat) :=
  let inode := d.readINode past id
  let type := (nodeType inode.typePermissions).getD node.type
  if type = .directory then do
    let (dir, reads) ← d.readEntries junk inode fuel 0 (VFS.RawDirectory.create junk 10) []
    some (node.fill id type inode (some dir), reads)
  else
    some (node.fill id type inode node.cachedDir, [])

end ChenixOS.Ext2
