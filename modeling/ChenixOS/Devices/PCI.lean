import ChenixOS.Lib.ByteMemory
import ChenixOS.Lib.Loop
import ChenixOS.Memory.MemoryManager

/-!
# PCI devices

`PCI.cpp`: the configuration space of the functions, which is memory; the accessors by which drivers use it; and the
scan that finds the devices, decodes their base address registers and looks for their MSI capability.

The capability list is walked in the device's own memory, and the walk writes to it: so the walk is a loop that may
go on for ever, and the scan is given with a number of rounds for it.
-/

namespace ChenixOS.PCI

open ByteMemory Loop

/-- The configuration space as memory. -/
abbrev Memory := Nat → UInt8

/-- Addresses have 64 bits. -/
def addressSize : Nat := 2 ^ 64

structure Group where
  id : Nat
  baseAddr : Nat
  busStart : Nat
  busEnd : Nat

structure Device where
  group : Nat
  bus : Nat
  device : Nat
  function : Nat
  vendorID : Nat
  deviceID : Nat
  classCode : Nat
  subclassCode : Nat
  progIf : Nat
  numBARs : Nat
  BARs : Nat → Nat
  memBase : Nat
  msi : Option Nat

/-- `GetMemBase` -/
def getMemBase (group : Group) (bus device func : Nat) : Nat :=
  (group.baseAddr + bus * 2 ^ 20 + device * 2 ^ 15 + func * 2 ^ 12) % addressSize

/-! ## The accessors -/

/-- The pointer `(T*)GetMemBase(g, dev.bus, dev.device, dev.function) + reg` to a `T` of `size` bytes. -/
def configPtr (size : Nat) (g : Group) (dev : Device) (reg : Nat) : Nat :=
  getMemBase g dev.bus dev.device dev.function + size * reg

/-- The first of the groups with the identifier of the device's group. -/
def findGroup (groups : List Group) (dev : Device) : Option Group := groups.find? fun g => g.id == dev.group

/-- `ReadConfigByte` to `ReadConfigQWord`, for values of `size` bytes. -/
def readConfig (size : Nat) (groups : List Group) (mem : Memory) (dev : Device) (reg : Nat) : Nat :=
  match findGroup groups dev with
  | some g => load addressSize mem size (configPtr size g dev reg)
  | none => 0

def readConfigByte := readConfig 1
def readConfigWord := readConfig 2
def readConfigDWord := readConfig 4
def readConfigQWord := readConfig 8

/-- `WriteConfigByte` to `WriteConfigQWord`, for values of `size` bytes. -/
def writeConfig (size : Nat) (groups : List Group) (mem : Memory) (dev : Device) (reg val : Nat) : Memory :=
  match findGroup groups dev with
  | some g => store addressSize mem size (configPtr size g dev reg) val
  | none => mem

def writeConfigByte := writeConfig 1
def writeConfigWord := writeConfig 2
def writeConfigDWord := writeConfig 4
def writeConfigQWord := writeConfig 8

/-- `WriteConfigMask`; `~off` is taken in 16 bits, as the result is stored in 16 bits. -/
def writeConfigMask (groups : List Group) (mem : Memory) (dev : Device) (reg off on : Nat) : Memory :=
  let val := readConfigWord groups mem dev reg
  writeConfigWord groups mem dev reg ((val &&& (0xFFFF ^^^ off)) ||| on)

/-- `PCI_COMMAND` -/
def pciCommand : Nat := 0x04

/-- `PCI_COMMAND_MEMORY` -/
def pciCommandMemory : Nat := 0x2

/-- `PCI_COMMAND_MASTER` -/
def pciCommandMaster : Nat := 0x4

def enableBusMaster (groups : List Group) (mem : Memory) (dev : Device) : Memory :=
  writeConfigMask groups mem dev pciCommand 0 pciCommandMaster

def enableMemoryMaster (groups : List Group) (mem : Memory) (dev : Device) : Memory :=
  writeConfigMask groups mem dev pciCommand 0 pciCommandMemory

/-! ## The scan -/

/-- The `ReadConfigDWord` of the scan, which is given the group. -/
def Group.readConfigDWord (group : Group) (mem : Memory) (bus slot func offs : Nat) : Nat :=
  load addressSize mem 4 (getMemBase group bus slot func + offs)

/-- `dev.BARs[dev.numBARs] = bar; dev.numBARs++;` -/
def Device.pushBAR (dev : Device) (bar : Nat) : Device :=
  { dev with BARs := Function.update dev.BARs dev.numBARs bar, numBARs := dev.numBARs + 1 }

/-- The loop over the base address registers, with `fuel` rounds to go; `reg i` is the register at `0x10 + i * 4`. -/
def scanBARs (reg : Nat → Nat) : (fuel i : Nat) → Device → Device
  | 0, _, dev => dev
  | fuel + 1, i, dev =>
    if i < 6 then
      let bar := reg i
      if bar &&& 0x1 ≠ 0 then scanBARs reg fuel (i + 1) (dev.pushBAR (bar &&& 0xFFFFFFFC))
      else
        let type := (bar &&& 0x7) >>> 1
        if type = 0 then scanBARs reg fuel (i + 1) (dev.pushBAR (bar &&& 0xFFFFFFF0))
        else if type = 1 then
          let bar2 := reg (i + 1)
          -- the second register is passed over by an `i++` of the body
          scanBARs reg fuel (i + 2) (dev.pushBAR ((bar2 <<< 32) ||| (bar &&& 0xFFFFFFF0)))
        else scanBARs reg fuel (i + 1) dev
    else dev

/-- `CAP_MSI` -/
def capMSI : Nat := 0x05

/-- `MSI_CONTROL_64BIT` -/
def msiControl64Bit : Nat := 0x80

/-- The variables of the walk over the capability list. -/
structure CapWalk where
  mem : Memory
  capPtr : Nat
  msi : Option Nat

/-- What a capability at the address `cap` makes of the memory: the `addressHigh` of a 64-bit MSI capability is
cleared. -/
def clearAddressHigh (mem : Memory) (cap : Nat) : Memory :=
  if load addressSize mem 1 cap = capMSI ∧ load addressSize mem 2 (cap + 2) &&& msiControl64Bit ≠ 0 then
    store addressSize mem 4 (cap + 8) 0
  else mem

/-- One round of the walk over the capability list. -/
def capRound (memBase : Nat) (w : CapWalk) : Option (Round CapWalk (Memory × Option Nat)) :=
  let cap := memBase + w.capPtr
  let msi := if load addressSize w.mem 1 cap = capMSI then some cap else w.msi
  let mem := clearAddressHigh w.mem cap
  let capPtr := load addressSize mem 1 (cap + 1)
  if capPtr = 0 then some (.done (mem, msi)) else some (.next ⟨mem, capPtr, msi⟩)

/-- `CheckFunction`, with at most `fuel` rounds for the capability list: the memory that it leaves, and the device
if there is one. -/
def checkFunction (fuel : Nat) (group : Group) (bus device func : Nat) (mem : Memory) :
    Option (Memory × Option Device) :=
  let id := group.readConfigDWord mem bus device func 0
  if id &&& 0xFFFF = 0xFFFF then some (mem, none)
  else
    let classVal := group.readConfigDWord mem bus device func 0x08
    let dev : Device :=
      { group := group.id, bus, device, function := func
        vendorID := id &&& 0xFFFF
        deviceID := (id >>> 16) &&& 0xFFFF
        classCode := classVal >>> 24
        subclassCode := (classVal >>> 16) &&& 0xFF
        progIf := (classVal >>> 8) &&& 0xFF
        numBARs := 0
        BARs := fun _ => 0
        memBase := getMemBase group bus device func
        msi := none }
    let dev := scanBARs (fun i => group.readConfigDWord mem bus device func (0x10 + i * 4)) 6 0 dev
    let status := group.readConfigDWord mem bus device func 0x06 % 2 ^ 8
    if status &&& 0x10 ≠ 0 then
      let capPtr := group.readConfigDWord mem bus device func 0x34 % 2 ^ 8
      (run (capRound dev.memBase) fuel ⟨mem, capPtr, none⟩).map fun r => (r.1, some { dev with msi := r.2 })
    else some (mem, some dev)

/-- `g_Groups` and `g_Devices`, with the memory that the scan reads and writes. -/
structure State where
  mem : Memory
  groups : List Group
  devices : List Device

/-- `CheckFunction` with its `g_Devices.push_back`, and whether there is a device. -/
def State.checkFunction (fuel : Nat) (group : Group) (bus device func : Nat) (s : State) : Option (Bool × State) :=
  (PCI.checkFunction fuel group bus device func s.mem).map fun r =>
    match r.2 with
    | none => (false, { s with mem := r.1 })
    | some dev => (true, { s with mem := r.1, devices := s.devices ++ [dev] })

/-- `CheckDevice`; what it returns is not used. -/
def State.checkDevice (fuel : Nat) (group : Group) (bus device : Nat) (s : State) : Option State := do
  let (found, s) ← s.checkFunction fuel group bus device 0
  if !found then some s
  else
    let headerType := group.readConfigDWord s.mem bus device 0 0x0E
    if headerType &&& 0x80 ≠ 0 then
      (List.range' 1 7).foldlM (fun s i => (s.checkFunction fuel group bus device i).map Prod.snd) s
    else some s

/-- `CheckGroup` -/
def State.checkGroup (fuel : Nat) (group : Group) (s : State) : Option State :=
  (List.range' group.busStart (group.busEnd + 1 - group.busStart)).foldlM
    (fun s i => (List.range 32).foldlM (fun s j => s.checkDevice fuel group i j) s) s

/-- `ScanDevices`, for the groups that the `MCFG` table describes. -/
def State.scanDevices (fuel : Nat) (mcfg : List Group) (s : State) : Option State :=
  mcfg.foldlM (fun s group => State.checkGroup fuel group { s with groups := s.groups ++ [group] }) s

/-! ## Base address registers for drivers -/

/-- What `GetBARAddress` makes of a decoded register: the null pointer of an unused one. -/
def barPointer (bar : Nat) : Option Nat := if bar = 0 then none else some (MemoryManager.physToKernelPtr bar)

/-- `GetBARAddress` -/
def getBARAddress (dev : Device) (id : Nat) : Option Nat := barPointer (dev.BARs id)

/-! ## What the scan finds -/

variable {group : Group} {groups : List Group} {bus device func fuel : Nat} {mem mem' : Memory} {dev : Device}
  {s s' : State}

/-- A device stands in a group that is known, and `memBase` is where its configuration space is. -/
structure Scanned (groups : List Group) (dev : Device) : Prop where
  group : ∃ g ∈ groups, g.id = dev.group ∧ dev.memBase = getMemBase g dev.bus dev.device dev.function

/-- What the loop over the registers keeps. -/
theorem scanBARs_keeps (reg : Nat → Nat) (fuel i : Nat) (dev : Device) :
    ∃ n bars, scanBARs reg fuel i dev = { dev with numBARs := n, BARs := bars } := by
  induction fuel generalizing i dev with
  | zero => exact ⟨_, _, rfl⟩
  | succ fuel ih =>
    unfold scanBARs
    dsimp only
    split_ifs
    · obtain ⟨n, bars, h⟩ := ih (i + 1) (dev.pushBAR (reg i &&& 0xFFFFFFFC))
      exact ⟨n, bars, h⟩
    · obtain ⟨n, bars, h⟩ := ih (i + 1) (dev.pushBAR (reg i &&& 0xFFFFFFF0))
      exact ⟨n, bars, h⟩
    · obtain ⟨n, bars, h⟩ := ih (i + 2) (dev.pushBAR ((reg (i + 1) <<< 32) ||| (reg i &&& 0xFFFFFFF0)))
      exact ⟨n, bars, h⟩
    · exact ih (i + 1) dev
    · exact ⟨_, _, rfl⟩

/-- **All that `CheckFunction` can come to**: there is no device, or one with the decoded registers. -/
theorem checkFunction_cases {r : Memory × Option Device} (h : checkFunction fuel group bus device func mem = some r) :
    r = (mem, none) ∨ ∃ dev₀ dev, r.2 = some dev ∧ dev₀.numBARs = 0 ∧ (∀ i, dev₀.BARs i = 0) ∧
      dev.BARs = (scanBARs (fun i => group.readConfigDWord mem bus device func (0x10 + i * 4)) 6 0 dev₀).BARs ∧
      dev.group = group.id ∧ dev.bus = bus ∧ dev.device = device ∧ dev.function = func ∧
      dev.memBase = getMemBase group bus device func := by
  unfold checkFunction at h
  dsimp only at h
  split_ifs at h with hid hcap
  · exact .inl (Option.some.inj h).symm
  all_goals right
  · obtain ⟨r', -, rfl⟩ := Option.map_eq_some_iff.1 h
    refine ⟨_, _, rfl, rfl, fun _ => rfl, rfl, ?_⟩
    obtain ⟨n, bars, hdev⟩ := scanBARs_keeps (fun i => group.readConfigDWord mem bus device func (0x10 + i * 4)) 6 0 _
    rw [hdev]
    exact ⟨rfl, rfl, rfl, rfl, rfl⟩
  · obtain rfl := Option.some.inj h
    refine ⟨_, _, rfl, rfl, fun _ => rfl, rfl, ?_⟩
    obtain ⟨n, bars, hdev⟩ := scanBARs_keeps (fun i => group.readConfigDWord mem bus device func (0x10 + i * 4)) 6 0 _
    rw [hdev]
    exact ⟨rfl, rfl, rfl, rfl, rfl⟩

/-- Between the rounds of the scan: the groups stay, and every device that was found stands in one of them. -/
structure Found (groups : List Group) (s : State) : Prop where
  same : s.groups = groups
  devices : ∀ dev ∈ s.devices, Scanned groups dev

theorem Found.checkFunction {found : Bool} (h : Found groups s) (hg : group ∈ groups)
    (hcheck : s.checkFunction fuel group bus device func = some (found, s')) : Found groups s' := by
  obtain ⟨r, hr, heq⟩ := Option.map_eq_some_iff.1 hcheck
  rcases checkFunction_cases hr with rfl | ⟨dev₀, dev, hdev, -, -, -, hgroup, hbus, hdevice, hfunc, hbase⟩
  · cases heq
    exact ⟨h.same, h.devices⟩
  · rw [hdev] at heq
    cases heq
    refine ⟨h.same, fun d hd => ?_⟩
    rcases List.mem_append.1 hd with hd | hd
    · exact h.devices d hd
    · obtain rfl := List.mem_singleton.1 hd
      exact ⟨group, hg, hgroup.symm, by rw [hbase, hbus, hdevice, hfunc]⟩

theorem Found.checkDevice (h : Found groups s) (hg : group ∈ groups)
    (hcheck : s.checkDevice fuel group bus device = some s') : Found groups s' := by
  obtain ⟨⟨found, s₁⟩, hfirst, hrest⟩ := Option.bind_eq_some_iff.1 hcheck
  have h₁ := h.checkFunction hg hfirst
  dsimp only at hrest
  split_ifs at hrest
  · exact Option.some.inj hrest ▸ h₁
  · refine foldlM_inv h₁ (fun s i s' hs _ hi => ?_) hrest
    obtain ⟨r, hr, rfl⟩ := Option.map_eq_some_iff.1 hi
    exact hs.checkFunction hg hr
  · exact Option.some.inj hrest ▸ h₁

theorem Found.checkGroup (h : Found groups s) (hg : group ∈ groups) (hcheck : s.checkGroup fuel group = some s') :
    Found groups s' :=
  foldlM_inv h (fun _ _ _ hs _ hi => foldlM_inv hs (fun _ _ _ hs _ hj => hs.checkDevice hg hj) hi) hcheck

/-- **Every device that the scan finds stands in a known group**, and `memBase` is where it is. -/
theorem scanDevices_scanned {mcfg : List Group} (hnone : s.devices = [])
    (hscan : s.scanDevices fuel mcfg = some s') : ∀ dev ∈ s'.devices, Scanned s'.groups dev := by
  have hstart : ∀ dev ∈ s.devices, Scanned s.groups dev := by simp [hnone]
  refine foldlM_inv (I := fun s => ∀ dev ∈ s.devices, Scanned s.groups dev) hstart ?_ hscan
  intro s group s' hs _ hgroup
  have hmore : Found (s.groups ++ [group]) { s with groups := s.groups ++ [group] } :=
    ⟨rfl, fun dev hdev => by
      obtain ⟨g, hg, hid⟩ := (hs dev hdev).group
      exact ⟨g, List.mem_append_left _ hg, hid⟩⟩
  have h := hmore.checkGroup (List.mem_append_right _ (List.mem_singleton.2 rfl)) hgroup
  rw [h.same]
  exact h.devices

/-- The group of a machine with one segment. -/
def segment : Group := ⟨0, 0xB0000000, 0, 255⟩

end ChenixOS.PCI
