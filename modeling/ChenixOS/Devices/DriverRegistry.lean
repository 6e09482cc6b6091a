import ChenixOS.Devices.DeviceDriver
import ChenixOS.Fs.Operations

/-!
# The device drivers

The drivers that the kernel constructs, the registry that hands out their ids (devices/DeviceDriver.cpp),
and what the file system does with the ids in a device node. Neither id is checked in one place: the file
system looks for the driver, and each driver looks for the device, or does not.

What goes wrong when nobody has looked is an outcome of its own, a `Hazard`. What the console prints is
left out.
-/

namespace ChenixOS.DeviceFiles

open BlockDevice VFS

/-- What an operation does instead of returning. -/
inductive Hazard
  /-- A null pointer to a driver is followed. -/
  | nullDriver
  /-- A vector of devices is read behind its end. -/
  | outOfRange
  | divisionByZero
  /-- The finish flag is waited for, and nobody has been asked to set it. -/
  | waits
  deriving DecidableEq, Repr

abbrev ErrorInvalidDevice : Int := -10

/-! ## Character devices -/

/-- `ConsoleInfo` -/
structure ConsoleInfo where
  foregroundTid : Nat
  inBufferReadPos : Nat
  inBufferWritePos : Nat
  inBuffer : Nat → UInt8

/-- The classes derived from `CharDeviceDriver`, with the globals that they use. -/
inductive CharDeviceDriver
  | vconsole (g_Consoles : List ConsoleInfo)
  | ps2 (g_Queue : Nat → UInt16) (g_ReadIndex g_WriteIndex : Nat)
  | pseudo
  /-- `noise` is what `GetRandomSec` will yield. -/
  | random (noise : Bytes)

namespace VConsoleDriver

/-- `VConsoleDriver::Read` on a console: the count, the buffer and the console. -/
def readConsole (cInfo : ConsoleInfo) (bufferSize : Nat) (buffer : Bytes) : Int × Bytes × ConsoleInfo :=
  let rem := min (sub64 cInfo.inBufferWritePos cInfo.inBufferReadPos) bufferSize
  (rem, kmemcpy buffer 0 (fun i => cInfo.inBuffer ((cInfo.inBufferReadPos + i) % 256)) 0 rem,
    { cInfo with inBufferReadPos := cInfo.inBufferReadPos + rem })

def COMMAND_SET_FOREGROUND : Int := 1

end VConsoleDriver

namespace PS2

def QUEUE_SIZE : Nat := 128

/-- The bytes of the queue from an index on. -/
def queueBytes (g_Queue : Nat → UInt16) (index : Nat) : Bytes := fun i =>
  let key := g_Queue ((index + i / 2) % QUEUE_SIZE)
  if i % 2 = 0 then key.toUInt8 else (key >>> 8).toUInt8

end PS2

namespace PseudoDeviceDriver

def DeviceZero : Nat := 0
def DeviceNull : Nat := 1
def DeviceDummy0 : Nat := 2
def DeviceDummy1 : Nat := 3

end PseudoDeviceDriver

open PseudoDeviceDriver in
/-- `Read`, into a buffer of which `room` bytes are accessible. -/
def CharDeviceDriver.read (D : CharDeviceDriver) (subID bufferSize room : Nat) (buffer : Bytes) :
    Int × Bytes × CharDeviceDriver :=
  match D with
  | vconsole g_Consoles =>
      match g_Consoles[subID]? with
      | none => (ErrorInvalidDevice, buffer, D)
      | some cInfo =>
          let (rem, buffer, cInfo) := VConsoleDriver.readConsole cInfo bufferSize buffer
          (rem, buffer, vconsole (g_Consoles.set subID cInfo))
  | ps2 g_Queue g_ReadIndex g_WriteIndex =>
      let rem := min (sub64 g_WriteIndex g_ReadIndex) (bufferSize / 2)
      (rem * 2, kmemcpy buffer 0 (PS2.queueBytes g_Queue g_ReadIndex) 0 (rem * 2),
        ps2 g_Queue (g_ReadIndex + rem) g_WriteIndex)
  | pseudo =>
      if subID = DeviceZero ∨ subID = DeviceDummy0 ∨ subID = DeviceDummy1 then
        let (ok, buffer) := kmemcpyUsersafe room buffer 0 (fun _ => 0) 0 bufferSize
        (if ok then bufferSize else ErrorInvalidBuffer, buffer, D)
      else if subID = DeviceNull then (0, buffer, D)
      else (ErrorInvalidDevice, buffer, D)
  | random noise =>
      if subID = 1 ∨ subID = 2 then
        let (ok, buffer) := kmemcpyUsersafe room buffer 0 (fun _ => 0) 0 bufferSize
        if ok then (bufferSize, kmemcpy buffer 0 noise 0 bufferSize, D)
        else (ErrorInvalidBuffer, buffer, D)
      else (ErrorInvalidDevice, buffer, D)

open PseudoDeviceDriver in
/-- `Write` -/
def CharDeviceDriver.write (D : CharDeviceDriver) (subID bufferSize : Nat) : Int :=
  match D with
  | vconsole g_Consoles => if subID ≥ g_Consoles.length then ErrorInvalidDevice else bufferSize
  | ps2 .. => 0
  | pseudo =>
      if subID = DeviceZero ∨ subID = DeviceDummy0 ∨ subID = DeviceDummy1 then bufferSize
      else if subID = DeviceNull then 0
      else ErrorInvalidDevice
  | random _ => if subID = 0 then bufferSize else ErrorInvalidDevice

/-- `DeviceCommand` -/
def CharDeviceDriver.deviceCommand (D : CharDeviceDriver) (subID : Nat) (command : Int) (arg : Nat) :
    Int × CharDeviceDriver :=
  match D with
  | vconsole g_Consoles =>
      if subID ≥ g_Consoles.length then (ErrorInvalidDevice, D)
      else if command = VConsoleDriver.COMMAND_SET_FOREGROUND then
        (OK, vconsole (g_Consoles.modify subID fun con => { con with foregroundTid := arg }))
      else (OK, D)
  | _ => (OK, D)

/-! ## Block devices -/

/-- `drive_s`, with what the controller answers to `DriveReadData`: the success flag and the buffer. The
controller always finishes. -/
structure Drive where
  blksize : Nat
  readData : (startBlock numBlocks : Nat) → Bytes → Bool × Bytes

/-- The classes derived from `BlockDeviceDriver`. The subIDs of the drives are their places in
`mDriveLists`. -/
inductive BlockDevices
  | ram (m_Devices : List RamDeviceDriver.DevInfo)
  | ahci (mDriveLists : List Drive)

namespace BlockDevices

/-- `GetBlockSize`. The ram driver does not look whether there is such a device. -/
def getBlockSize (D : BlockDevices) (subID : Nat) : Except Hazard Nat :=
  match D with
  | ram m_Devices =>
      match m_Devices[subID]? with
      | none => .error .outOfRange
      | some dev => .ok dev.blockSize
  | ahci mDriveLists =>
      match mDriveLists[subID]? with
      | none => .ok 0
      | some drive => .ok drive.blksize

/-- `ScheduleOperation` for reading one block: the success flag and the buffer, or `none` when the finish
flag stays as it is. -/
def scheduleOperation (D : BlockDevices) (subID blockID : Nat) (buffer : Bytes) :
    Except Hazard (Option (Bool × Bytes)) :=
  match D with
  | ram m_Devices =>
      match m_Devices[subID]? with
      | none => .error .outOfRange
      | some dev =>
          let (success, _, buffer) := RamDeviceDriver.scheduleOperation dev blockID 1 false buffer
          .ok (some (success, buffer))
  | ahci mDriveLists =>
      match mDriveLists[subID]? with
      | none => .ok none
      | some drive => .ok (some (drive.readData blockID 1 buffer))

/-- `DeviceCommand` -/
def deviceCommand (D : BlockDevices) : Int :=
  match D with
  | ram _ => OK
  -- `DriveIoctl` of the one disk driver refuses everything, as does a missing drive
  | ahci _ => -1

end BlockDevices

/-- `BlockDeviceDriver`. What `new char[]` finds in memory is `garbage`. -/
structure BlockDeviceDriver where
  devices : BlockDevices
  m_Cache : Cache
  garbage : Nat → Bytes

/-- A division, as the processor does it. -/
def div (a b : Nat) : Except Hazard Nat := if b = 0 then .error .divisionByZero else .ok (a / b)

namespace BlockDeviceDriver

variable (D : BlockDeviceDriver)

/-- The driver as the cache sees it when nothing goes wrong. -/
def driver : Driver where
  blockSize subID := (D.devices.getBlockSize subID).toOption.getD 0
  scheduleOperation subID blockID buffer :=
    ((D.devices.scheduleOperation subID blockID buffer).toOption.bind id).getD (false, buffer)
  garbage := D.garbage

/-- The block of a lookup: `ScheduleOperation`, and the wait for the finish flag. -/
def lookup (subID blockID : Nat) (m : Cache) : Except Hazard (Bool × Nat × Cache) :=
  match getCachedBlock D.driver subID blockID m with
  | (true, cb, m) => .ok (true, cb, m)
  | (false, cb, m) => do
      match ← D.devices.scheduleOperation subID blockID (m.data cb) with
      | none => .error .waits
      | some answer => .ok (answer.1, cb, m.modify cb fun block =>
          { block with data := answer.2, filled := answer.1 })

/-- The loop of `GetData`. -/
def getLoop (subID room : Nat) : (n blockID pos bufferSize offs : Nat) → Bytes → Cache →
    Except Hazard (Int × Bytes × Cache)
  | 0, _, _, _, _, buffer, m => .ok (OK, buffer, m)
  | n + 1, blockID, pos, bufferSize, offs, buffer, m => do
    let blockSize ← D.devices.getBlockSize subID
    let blockOffset := sub64 pos (blockID * blockSize)
    let copySize := min (sub64 blockSize blockOffset) bufferSize
    let (success, cb, m) ← D.lookup subID blockID m
    if success then
      let (copied, buffer) :=
        kmemcpyUsersafe (room - offs) buffer offs (m.data cb) blockOffset copySize
      let m := releaseCachedBlock cb m
      if copied then
        if bufferSize - copySize = 0 then .ok (OK, buffer, m)
        else
          getLoop subID room n ((blockID + 1) % 2 ^ 64) (pos + copySize) (bufferSize - copySize)
            (offs + copySize) buffer m
      else .ok (ErrorInvalidBuffer, buffer, m)
    else .ok (-1, buffer, m)

/-- `BlockDeviceDriver::GetData` -/
def getData (subID pos bufferSize room : Nat) (buffer : Bytes) :
    Except Hazard (Int × Bytes × Cache) := do
  let startBlock ← div pos (← D.devices.getBlockSize subID)
  let endBlock ← div (sub64 ((pos + bufferSize) % 2 ^ 64) 1) (← D.devices.getBlockSize subID)
  let numBlocks := (sub64 endBlock startBlock + 1) % 2 ^ 64
  D.getLoop subID room numBlocks startBlock pos bufferSize 0 buffer D.m_Cache

/-- The loop of `SetData`. -/
def setLoop (subID room : Nat) (buffer : Bytes) : (n blockID pos bufferSize offs : Nat) → Cache →
    Except Hazard (Int × Cache)
  | 0, _, _, _, _, m => .ok (OK, m)
  | n + 1, blockID, pos, bufferSize, offs, m => do
    let (_, cb, m) ← D.lookup subID blockID m
    let blockSize ← D.devices.getBlockSize subID
    let blockOffset := sub64 pos (blockID * blockSize)
    let rem := min (sub64 blockSize blockOffset) bufferSize
    let (copied, data) :=
      kmemcpyUsersafe (room - offs) (m.data cb) blockOffset buffer offs rem
    let m := releaseCachedBlock cb (m.modify cb fun block => { block with data := data })
    if copied then
      setLoop subID room buffer n ((blockID + 1) % 2 ^ 64) (pos + rem) (bufferSize - rem)
        (offs + rem) m
    else .ok (ErrorInvalidBuffer, m)

/-- `BlockDeviceDriver::SetData` -/
def setData (subID pos bufferSize room : Nat) (buffer : Bytes) : Except Hazard (Int × Cache) := do
  let startBlock ← div pos (← D.devices.getBlockSize subID)
  let endBlock ← div ((pos + bufferSize) % 2 ^ 64) (← D.devices.getBlockSize subID)
  let numBlocks := (sub64 endBlock startBlock + 1) % 2 ^ 64
  D.setLoop subID room buffer numBlocks startBlock pos bufferSize 0 D.m_Cache

end BlockDeviceDriver

/-! ## The registry -/

inductive DeviceDriver
  | char (driver : CharDeviceDriver)
  | block (driver : BlockDeviceDriver)

/-- `GetType` -/
def DeviceDriver.getType : DeviceDriver → DriverType
  | char _ => .char
  | block _ => .block

/-- `FSEntry`. The one file system that needs a device is Ext2. -/
structure FSEntry where
  id : Str
  needsDev : Bool

/-- The two registries. A driver stands beside its `m_ID`. -/
structure State where
  g_DriverIDCounter : Nat
  g_Drivers : List (Nat × DeviceDriver)
  g_FileSystems : List FSEntry

namespace State

def registerDriver (s : State) (driver : DeviceDriver) : State :=
  { s with
    g_DriverIDCounter := s.g_DriverIDCounter + 1
    g_Drivers := s.g_Drivers ++ [(s.g_DriverIDCounter, driver)] }

def getDriver (s : State) (id : Nat) : Option DeviceDriver :=
  (s.g_Drivers.find? fun entry => entry.1 = id).map Prod.snd

/-- The driver with this id is changed. -/
def updDriver (s : State) (id : Nat) (f : DeviceDriver → DeviceDriver) : State :=
  { s with g_Drivers := s.g_Drivers.map fun entry =>
      if entry.1 = id then (entry.1, f entry.2) else entry }

end State

/-- `RamDeviceDriver::AddDevice`, `DiskDeviceDriver::RegisterDrive` and `VConsoleDriver::AddConsole`. -/
inductive NewDevice
  | ram (dev : RamDeviceDriver.DevInfo)
  | drive (drive : Drive)
  | console (info : ConsoleInfo)

/-- The device gets the next number of its driver. -/
def NewDevice.addTo (dev : NewDevice) (driver : DeviceDriver) : DeviceDriver :=
  match dev, driver with
  | .ram dev, .block ⟨.ram m_Devices, m_Cache, garbage⟩ =>
      .block ⟨.ram (m_Devices ++ [dev]), m_Cache, garbage⟩
  | .drive d, .block ⟨.ahci mDriveLists, m_Cache, garbage⟩ =>
      .block ⟨.ahci (mDriveLists ++ [d]), m_Cache, garbage⟩
  | .console info, .char (.vconsole g_Consoles) => .char (.vconsole (g_Consoles ++ [info]))
  | _, driver => driver

/-! ## Device nodes -/

/-- A node that `CreateDeviceFile` has made. Its type and its ids are not written again; its owner, its
permissions and its counters are. -/
structure DeviceNode where
  node : Node
  block : Bool
  driverID : Nat
  subID : Nat
  type_eq : node.type = if block then .deviceBlock else .deviceChar
  info_eq : node.info = .device driverID subID

/-- The same device file, at another time. -/
def DeviceNode.Same (n n' : DeviceNode) : Prop :=
  n'.block = n.block ∧ n'.driverID = n.driverID ∧ n'.subID = n.subID

/-- The writes to the new node in `CreateDeviceFile`. The driver is not checked. -/
def createDeviceFile (s : State) (tInfo : ThreadInfo) (perms : Permissions) (driverID subID : Nat)
    (newNode : Node) : Except Hazard DeviceNode :=
  match s.getDriver driverID with
  | none => .error .nullDriver
  | some driver => .ok {
      node := initNode (if driver.getType = .block then .deviceBlock else .deviceChar)
        (.device driverID subID) perms tInfo newNode
      block := driver.getType = .block
      driverID
      subID
      type_eq := by simp [initNode]
      info_eq := rfl }

/-- `_Read` on a device node: the result, the buffer, and the drivers. -/
def _read (s : State) (n : DeviceNode) (pos bufferSize room : Nat) (buffer : Bytes) :
    Except Hazard (Int × Bytes × State) :=
  match n.block, s.getDriver n.driverID with
  | false, some (.char driver) =>
      let (res, buffer, driver) := driver.read n.subID bufferSize room buffer
      .ok (res, buffer, s.updDriver n.driverID fun _ => .char driver)
  | true, some (.block driver) => do
      let (error, buffer, m_Cache) ← driver.getData n.subID pos bufferSize room buffer
      .ok (if error ≠ 0 then error else bufferSize, buffer,
        s.updDriver n.driverID fun _ => .block { driver with m_Cache })
  | _, _ => .ok (0, buffer, s)

/-- `_Write` on a device node. -/
def _write (s : State) (n : DeviceNode) (pos bufferSize room : Nat) (buffer : Bytes) :
    Except Hazard (Int × State) :=
  match n.block, s.getDriver n.driverID with
  | false, some (.char driver) => .ok (driver.write n.subID bufferSize, s)
  | true, some (.block driver) => do
      let (error, m_Cache) ← driver.setData n.subID pos bufferSize room buffer
      .ok (if error ≠ 0 then error else bufferSize,
        s.updDriver n.driverID fun _ => .block { driver with m_Cache })
  | _, _ => .ok (0, s)

def deviceCommand (s : State) (n : DeviceNode) (command : Int) (arg : Nat) : Int × State :=
  match s.getDriver n.driverID with
  | none => (-6, s)
  | some (.char driver) =>
      let (res, driver) := driver.deviceCommand n.subID command arg
      (res, s.updDriver n.driverID fun _ => .char driver)
  | some (.block driver) => (driver.devices.deviceCommand, s)

/-- `sizeof(SuperBlock)` -/
def superBlockSizeof : Nat := 236

/-- `Ext2Driver::Ext2Driver` reads the super block, and does not look whether it could. -/
def ext2Driver (driver : BlockDeviceDriver) (subID : Nat) : Except Hazard BlockDeviceDriver := do
  let (_, _, m_Cache) ← driver.getData subID 1024 superBlockSizeof superBlockSizeof fun _ => 0
  .ok { driver with m_Cache }

/-- `Mount(mountPoint, fsID, driverID, devID)`; `mounted` is what mounting the new file system returns. -/
def mountDevice (s : State) (fsID : Str) (driverID devID : Nat) (mounted : Int) :
    Except Hazard (Int × State) :=
  match s.getDriver driverID with
  | none => .error .nullDriver
  | some (.char _) => .ok (-22, s)
  | some (.block driver) =>
      match s.g_FileSystems.find? fun entry => entry.id = fsID with
      | some ⟨_, true⟩ => do
          let driver ← ext2Driver driver devID
          .ok (mounted, s.updDriver driverID fun _ => .block driver)
      | _ => .ok (-9, s)

/-- The operations on a device node, from the node on: `tInfo` is the calling thread, `permissions` those
of the descriptor. -/
inductive Op
  | «open» (tInfo : ThreadInfo) (openMode : UInt64)
  | read (permissions : UInt8) (pos bufferSize room : Nat) (buffer : Bytes)
  | write (permissions : UInt8) (pos bufferSize room : Nat) (buffer : Bytes)
  | seek (mode : SeekMode) (offs : Nat)
  | command (permissions : UInt8) (command : Int) (arg : Nat)
  | mount (tInfo : ThreadInfo) (fsID : Str) (mounted : Int)

/-- `CheckPermissions` for one of the threads. -/
def DeviceNode.permits (n : DeviceNode) (tInfo : ThreadInfo) (reqPerms : UInt8) : Bool :=
  checkPermissions tInfo.uid tInfo.gid n.node reqPerms

/-- What an operation returns, and the drivers after it. -/
def Op.run (s : State) (n : DeviceNode) : Op → Except Hazard (Int × State)
  | «open» tInfo openMode =>
      if hasMode openMode openModeFailIfExist then .ok (-11, s)
      else if !n.permits tInfo (openMode &&& (openModeRead ||| openModeWrite)).toUInt8 then .ok (-5, s)
      else .ok (OK, s)
  | read permissions pos bufferSize room buffer =>
      if permissions &&& Permissions.read == 0 then .ok (-5, s)
      else do
        let (res, _, s) ← _read s n pos bufferSize room buffer
        .ok (res, s)
  | write permissions pos bufferSize room buffer =>
      if permissions &&& Permissions.write == 0 then .ok (-5, s)
      else _write s n pos bufferSize room buffer
  | seek mode offs =>
      -- the first word of the union is the id of the driver
      let offs := if mode = .end then n.driverID else offs
      .ok (if offs > n.driverID then -12 else OK, s)
  | .command permissions cmd arg =>
      if permissions &&& Permissions.write == 0 then .ok (-5, s)
      else .ok (deviceCommand s n cmd arg)
  | mount tInfo fsID mounted =>
      if !n.block then .ok (-22, s)
      else if !n.permits tInfo Permissions.read then .ok (-5, s)
      else mountDevice s fsID n.driverID n.subID mounted

/-! ## Runs -/

/-- What happens to the drivers: one is registered, a device is added to one, a file system is
registered, or an operation on a device node returns. No driver is ever unregistered. -/
inductive Step (s : State) : State → Prop
  | registerDriver (driver : DeviceDriver) : Step s (s.registerDriver driver)
  | addDevice (id : Nat) (dev : NewDevice) : Step s (s.updDriver id dev.addTo)
  | registerFileSystem (entry : FSEntry) :
      Step s { s with g_FileSystems := s.g_FileSystems ++ [entry] }
  | op {s' : State} (n : DeviceNode) (op : Op) (res : Int) (h : op.run s n = .ok (res, s')) : Step s s'

/-- Any number of steps. -/
def Later : State → State → Prop := Relation.ReflTransGen Step

/-- Before the first driver is constructed. -/
def blank : State := ⟨0, [], []⟩

end ChenixOS.DeviceFiles
