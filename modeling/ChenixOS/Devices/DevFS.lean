import ChenixOS.Fs.State
import ChenixOS.Lib.Transitions

/-!
# The file system of the devices

`devices/DevFS.cpp`. All instances share one list of devices and two directories: `g_CurrentDir` is the
one that lookups see, `g_NewDir` is a copy of it to which registrations add their entries. The next
`UpdateDir` or `ReadNode` of a root node destroys the first and puts the second in its place. A pointer
is an address of a heap of directories.

A lookup holds the `dirLock` of its root node from before `UpdateDir` until it is done with the directory
that `UpdateDir` has left in `cachedDir`; every mount of a `DevFS` has a root node of its own.
-/

namespace ChenixOS.DevFS

open VFS

structure DevReg where
  name : Str
  blockDev : Bool
  driverID : Nat
  devID : Nat
  index : Nat
deriving DecidableEq

/-- The union in `Node`, with `cachedDir` as the pointer that it is. -/
inductive NodeInfo
  | none
  | folder (cachedDir : Option Nat)
  | device (driverID subID : Nat)
deriving DecidableEq

/-- The fields of a node that `ReadNode` writes. -/
structure Node where
  id : Nat
  linkCount : Nat
  type : NodeType
  info : NodeInfo
  ownerUID : Nat
  ownerGID : Nat
  permissions : Permissions
deriving DecidableEq

def Node.cachedDir (node : Node) : Option Nat :=
  match node.info with
  | .folder dir => dir
  | _ => none

/-- The last field is not in the source: how many devices there were when the node was last updated. -/
structure State where
  g_Devices : List DevReg
  g_CurrentDir : Option Nat
  g_NewDir : Option Nat
  heap : Heap Directory
  nodes : Nat → Node
  dirLock : Nat → Bool
  seen : Nat → Nat

/-- The id of every root node. -/
def rootNode : Nat := 0xFFFF

variable (A : Allocator)

/-! ## Directories behind pointers -/

/-- `Directory::AddEntry` on the pointer `dir`, and the two writes to the new entry. A full directory is
replaced by a larger one. -/
def addEntry (dir : Nat) (name : Str) (nodeID : Nat) (heap : Heap Directory) :
    Except Stop (Nat × Heap Directory) :=
  match heap.cell dir with
  | none => .error .fault
  | some d => do
    let d' ← d.addEntry name nodeID
    if d.capacity > d.entries.length then
      .ok (dir, heap.store dir d')
    else
      .ok (heap.fresh A, (heap.store (heap.fresh A) d').free dir)

/-- `Directory::CopyTo`: these entries of the first directory are added to `dir`. -/
def copyTo : List DirectoryEntry → Nat → Heap Directory → Except Stop (Nat × Heap Directory)
  | [], dir, heap => .ok (dir, heap)
  | e :: entries, dir, heap => do
    let (dir, heap) ← addEntry A dir e.name e.nodeID heap
    copyTo entries dir heap

def destroy (dir : Option Nat) (heap : Heap Directory) : Except Stop (Heap Directory) :=
  match dir with
  | none => .ok heap
  | some a => if (heap.cell a).isSome then .ok (heap.free a) else .error .fault

/-! ## Registering -/

def checkAndCopyEntry (s : State) : Except Stop State :=
  match s.g_NewDir with
  | some _ => .ok s
  | none =>
    match s.g_CurrentDir.bind s.heap.cell with
    | none => .error .fault
    | some dir => do
      let newDir := s.heap.fresh A
      let (newDir, heap) ←
        copyTo A dir.entries newDir (s.heap.store newDir (Directory.create (dir.entries.length + 5)))
      .ok { s with g_NewDir := some newDir, heap }

/-- The common body of the two functions below. -/
def register (blockDev : Bool) (name : Str) (driverID devID : Nat) (s : State) : Except Stop State := do
  let s ← checkAndCopyEntry A s
  match s.g_NewDir with
  | none => .error .fault
  | some newDir => do
    let (newDir, heap) ← addEntry A newDir name (s.g_Devices.length + 1) s.heap
    .ok { s with
      g_NewDir := some newDir
      heap
      g_Devices := s.g_Devices ++ [⟨name, blockDev, driverID, devID, s.g_Devices.length⟩] }

def registerCharDevice (name : Str) (driverID devID : Nat) (s : State) : Except Stop State :=
  register A false name driverID devID s

def registerBlockDevice (name : Str) (driverID devID : Nat) (s : State) : Except Stop State :=
  register A true name driverID devID s

/-- `DevFS::DevFS` -/
def construct (s : State) : State :=
  { s with
    g_CurrentDir := some (s.heap.fresh A)
    heap := s.heap.store (s.heap.fresh A) (Directory.create 30) }

/-! ## Looking up -/

/-- The section of `g_Lock` that `UpdateDir` and `ReadNode` share. -/
def publish (s : State) : Except Stop State :=
  match s.g_NewDir with
  | none => .ok s
  | some newDir => do
    let heap ← destroy s.g_CurrentDir s.heap
    .ok { s with g_CurrentDir := some newDir, g_NewDir := none, heap }

def State.setNode (s : State) (n : Nat) (node : Node) : State :=
  { s with
    nodes := Function.update s.nodes n node
    seen := Function.update s.seen n s.g_Devices.length }

def updateDir (n : Nat) (s : State) : Except Stop State := do
  let s ← publish s
  .ok (s.setNode n { s.nodes n with info := .folder s.g_CurrentDir })

def readNode (id n : Nat) (s : State) : Except Stop State :=
  if id = rootNode then do
    let s ← publish s
    .ok (s.setNode n {
      type := .directory
      ownerUID := 0
      ownerGID := 0
      permissions := ⟨5, 5, 5, 0⟩
      id := rootNode
      linkCount := 1
      info := .folder s.g_CurrentDir })
  else
    -- `g_Devices[id - 1]` is not checked, and for the id 0 the index wraps
    match id with
    | 0 => .error .fault
    | i + 1 =>
      match s.g_Devices[i]? with
      | none => .error .fault
      | some dr => .ok (s.setNode n {
          type := if dr.blockDev then .deviceBlock else .deviceChar
          info := .device dr.driverID dr.devID
          ownerGID := 0
          ownerUID := 0
          permissions := ⟨1, 1, 1, 0⟩
          id
          linkCount := 1 })

/-! ## Runs -/

inductive Event
  | registerChar (name : Str) (driverID devID : Nat)
  | registerBlock (name : Str) (driverID devID : Nat)
  /-- A lookup begins: it takes the lock of its root node and calls `UpdateDir`. -/
  | lookup (n : Nat)
  /-- A lookup ends. -/
  | unlock (n : Nat)
  /-- `ReadNode` into a node that no lookup uses. -/
  | read (id n : Nat)
  /-- `new DevFS()` -/
  | construct

/-- The operation of an event. -/
def perform (s : State) : Event → Except Stop State
  | .registerChar name driverID devID => registerCharDevice A name driverID devID s
  | .registerBlock name driverID devID => registerBlockDevice A name driverID devID s
  | .lookup n => updateDir n { s with dirLock := Function.update s.dirLock n true }
  | .unlock n => .ok { s with dirLock := Function.update s.dirLock n false }
  | .read id n => readNode id n s
  | .construct => .ok (construct A s)

/-- Which events can come: names are shorter than the field for them, a lock is taken when it is free,
and `ReadNode` is given the id of the root or of a registered device. -/
def Enabled (s : State) : Event → Prop
  | .registerChar name _ _ | .registerBlock name _ _ => name.length < nameSizeof
  | .lookup n => s.dirLock n = false
  | .unlock _ => True
  | .read id n => s.dirLock n = false ∧ (id = rootNode ∨ 0 < id ∧ id ≤ s.g_Devices.length)
  | .construct => True

/-- Before the first `new DevFS()`, as the loader leaves the globals. -/
def blank : State where
  g_Devices := []
  g_CurrentDir := none
  g_NewDir := none
  heap := .empty
  nodes _ := ⟨0, 0, .directory, .none, 0, 0, ⟨0, 0, 0, 0⟩⟩
  dirLock _ := false
  seen _ := 0

/-- The state in which `InitThread` mounts the first instance. -/
def boot : State := construct A blank

/-! ## What a lookup should see -/

/-- The entries of a directory that lists these devices: each with its name and its number. -/
def listing (devices : List DevReg) : List DirectoryEntry :=
  devices.mapIdx fun i dev => ⟨dev.name, i + 1⟩

/-- The directory that the pointer of a node leads to. -/
def State.dirOf (s : State) (n : Nat) : Option Directory := (s.nodes n).cachedDir.bind s.heap.cell

/-- The node lists these devices: its directory was not destroyed and has an entry for each, in order. -/
def Lists (s : State) (n : Nat) (devices : List DevReg) : Prop :=
  (s.dirOf n).map Directory.entries = some (listing devices)

end ChenixOS.DevFS
