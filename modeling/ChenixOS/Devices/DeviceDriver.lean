import Mathlib.Algebra.Group.Nat.Defs

/-!
# The block cache

`BlockDeviceDriver::GetData` and `SetData` (devices/DeviceDriver.cpp) read and write a block device
byte by byte through a vector of cached blocks. A block is read from the device when it is first
looked up and stays in the vector for ever: nothing is written back and nothing is removed.

The driver below is a parameter: `ScheduleOperation` is virtual, and it may fail at any time.
`RamDeviceDriver` is the instance that keeps its devices in memory.
-/

namespace ChenixOS.BlockDevice

/-- The bytes of a buffer, by offset. -/
abbrev Bytes := Nat → UInt8

def OK : Int := 0

def ErrorInvalidBuffer : Int := -7

/-- The difference of two 64-bit words. -/
def sub64 (a b : Nat) : Nat := (a + 2 ^ 64 - b % 2 ^ 64) % 2 ^ 64

def kmemcpy (dest : Bytes) (destOffs : Nat) (src : Bytes) (srcOffs count : Nat) : Bytes :=
  fun i => if destOffs ≤ i ∧ i < destOffs + count then src (srcOffs + (i - destOffs)) else dest i

/-- A copy from or to a user buffer stops at the first byte that is not accessible; `room` is the
number of bytes before it. -/
def kmemcpyUsersafe (room : Nat) (dest : Bytes) (destOffs : Nat) (src : Bytes)
    (srcOffs count : Nat) : Bool × Bytes :=
  (decide (count ≤ room), kmemcpy dest destOffs src srcOffs (min count room))

/-- The two calls. -/
inductive Op
  | get
  | set
  deriving DecidableEq

/-- What a driver does for the cache. -/
structure Driver where
  /-- `GetBlockSize` -/
  blockSize : Nat → Nat
  /-- `ScheduleOperation` for reading one block: the success flag, and what is in the buffer
  afterwards. -/
  scheduleOperation : (subID blockID : Nat) → Bytes → Bool × Bytes
  /-- What `new char[]` finds in the memory of the `n`-th block. -/
  garbage : (n : Nat) → Bytes

/-- `CachedBlock`. The flag `filled` is not in the source: it remembers whether the read that filled
the block succeeded. -/
structure CachedBlock where
  subID : Nat
  blockID : Nat
  refCount : Nat
  data : Bytes
  filled : Bool

def CachedBlock.key (cb : CachedBlock) : Nat × Nat := (cb.subID, cb.blockID)

/-- `m_Cache`. A pointer to a block is its place in the vector. -/
abbrev Cache := List CachedBlock

/-- The bytes of the block at a place of the vector. -/
def Cache.data (m : Cache) (cb : Nat) : Bytes :=
  match m[cb]? with
  | some block => block.data
  | none => fun _ => 0

/-- `GetCachedBlock`: whether the block was there, and where it is now. -/
def getCachedBlock (D : Driver) (subID blockID : Nat) (m : Cache) : Bool × Nat × Cache :=
  match m.findIdx? fun cb => cb.key = (subID, blockID) with
  | some cb => (true, cb, m.modify cb fun block => { block with refCount := block.refCount + 1 })
  | none => (false, m.length, m ++ [⟨subID, blockID, 1, D.garbage m.length, false⟩])

/-- `ReleaseCachedBlock` -/
def releaseCachedBlock (cb : Nat) (m : Cache) : Cache :=
  m.modify cb fun block => { block with refCount := sub64 block.refCount 1 }

/-- The block of a lookup, read from the device if it was not there, and the success flag of that
read. -/
def lookup (D : Driver) (subID blockID : Nat) (m : Cache) : Bool × Nat × Cache :=
  match getCachedBlock D subID blockID m with
  | (true, cb, m) => (true, cb, m)
  | (false, cb, m) =>
    let answer := D.scheduleOperation subID blockID (m.data cb)
    (answer.1, cb, m.modify cb fun block => { block with data := answer.2, filled := answer.1 })

/-- The loop of `GetData` over `n` more blocks; `offs` is how far `realBuffer` has advanced. -/
def getLoop (D : Driver) (subID room : Nat) :
    (n blockID pos bufferSize offs : Nat) → Bytes → Cache → Int × Bytes × Cache
  | 0, _, _, _, _, buffer, m => (OK, buffer, m)
  | n + 1, blockID, pos, bufferSize, offs, buffer, m =>
    let blockSize := D.blockSize subID
    let blockOffset := sub64 pos (blockID * blockSize)
    let copySize := min (sub64 blockSize blockOffset) bufferSize
    let (success, cb, m) := lookup D subID blockID m
    if success then
      let (copied, buffer) :=
        kmemcpyUsersafe (room - offs) buffer offs (m.data cb) blockOffset copySize
      let m := releaseCachedBlock cb m
      if copied then
        if bufferSize - copySize = 0 then (OK, buffer, m)
        else getLoop D subID room n ((blockID + 1) % 2 ^ 64) (pos + copySize) (bufferSize - copySize)
          (offs + copySize) buffer m
      else (ErrorInvalidBuffer, buffer, m)
    else (-1, buffer, m)

/-- **`BlockDeviceDriver::GetData`**, into a user buffer of which `room` bytes are accessible. -/
def getData (D : Driver) (subID pos bufferSize room : Nat) (buffer : Bytes) (m : Cache) :
    Int × Bytes × Cache :=
  let startBlock := pos / D.blockSize subID
  let endBlock := sub64 ((pos + bufferSize) % 2 ^ 64) 1 / D.blockSize subID
  let numBlocks := (sub64 endBlock startBlock + 1) % 2 ^ 64
  getLoop D subID room numBlocks startBlock pos bufferSize 0 buffer m

/-- The loop of `SetData` over `n` more blocks. The success flag of a read is not looked at. -/
def setLoop (D : Driver) (subID room : Nat) (buffer : Bytes) :
    (n blockID pos bufferSize offs : Nat) → Cache → Int × Cache
  | 0, _, _, _, _, m => (OK, m)
  | n + 1, blockID, pos, bufferSize, offs, m =>
    let (_, cb, m) := lookup D subID blockID m
    let blockOffset := sub64 pos (blockID * D.blockSize subID)
    let rem := min (sub64 (D.blockSize subID) blockOffset) bufferSize
    let (copied, data) :=
      kmemcpyUsersafe (room - offs) (m.data cb) blockOffset buffer offs rem
    let m := releaseCachedBlock cb (m.modify cb fun block => { block with data := data })
    if copied then
      setLoop D subID room buffer n ((blockID + 1) % 2 ^ 64) (pos + rem) (bufferSize - rem)
        (offs + rem) m
    else (ErrorInvalidBuffer, m)

/-- **`BlockDeviceDriver::SetData`**, from a user buffer of which `room` bytes are accessible. -/
def setData (D : Driver) (subID pos bufferSize room : Nat) (buffer : Bytes) (m : Cache) :
    Int × Cache :=
  let startBlock := pos / D.blockSize subID
  let endBlock := (pos + bufferSize) % 2 ^ 64 / D.blockSize subID
  let numBlocks := (sub64 endBlock startBlock + 1) % 2 ^ 64
  setLoop D subID room buffer numBlocks startBlock pos bufferSize 0 m

/-! ## Devices in memory -/

namespace RamDeviceDriver

/-- `RamDeviceDriver::DevInfo`, with the memory `buffer` points to. -/
structure DevInfo where
  buffer : Bytes
  blockSize : Nat
  numBlocks : Nat

/-- `RamDeviceDriver::ScheduleOperation`: the success flag, the device and the buffer after it. -/
def scheduleOperation (dev : DevInfo) (startBlock numBlocks : Nat) (write : Bool) (buffer : Bytes) :
    Bool × DevInfo × Bytes :=
  if (startBlock + numBlocks) % 2 ^ 64 > dev.numBlocks then (false, dev, buffer)
  else
    let offs := startBlock * dev.blockSize
    let size := dev.blockSize * numBlocks
    if write then (true, { dev with buffer := kmemcpy dev.buffer offs buffer 0 size }, buffer)
    else (true, dev, kmemcpy buffer 0 dev.buffer offs size)

/-- `RamDeviceDriver`, with the entries of `m_Devices`. The cache only ever reads. -/
def driver (devices : Nat → DevInfo) (garbage : Nat → Bytes) : Driver where
  blockSize subID := (devices subID).blockSize
  scheduleOperation subID blockID buffer :=
    let (success, _, buffer) := scheduleOperation (devices subID) blockID 1 false buffer
    (success, buffer)
  garbage := garbage

end RamDeviceDriver

end ChenixOS.BlockDevice
