import ChenixOS.Lib.Heap
import ChenixOS.Fs.Path
import ChenixOS.Fs.PipeFS

/-!
# The objects of the file system

The structures of `fs/Node.h`, `fs/MountPoint.h`, `fs/Directory.h`, `fs/VFS.h` and of
`fs/tempfs/TempFS.cpp`, and the state that holds them. A pointer is an address of the heap for
its kind of object; following one that has been deleted is a `fault`. A lock is a flag: taking
one that is held is `block`.

A TempFS identifies a node by the address of its `TestNode`, so the ids that directory entries
hold are addresses of the heap `testNodes`.
-/

namespace ChenixOS.VFS

abbrev NodeRef := Nat
abbrev MountRef := Nat
abbrev DescRef := Nat
abbrev ThreadRef := Nat

/-! ## Permissions -/

structure Permissions where
  ownerPermissions : UInt8
  groupPermissions : UInt8
  otherPermissions : UInt8
  specialFlags : UInt8
  deriving DecidableEq, Repr

namespace Permissions

def read : UInt8 := 0x1
def write : UInt8 := 0x2
def execute : UInt8 := 0x4

end Permissions

/-! ## Directories -/

structure DirectoryEntry where
  name : Str
  nodeID : Nat
  deriving DecidableEq, Repr

/-- `sizeof(DirectoryEntry::name)` -/
abbrev nameSizeof : Nat := 50

structure Directory where
  capacity : Nat
  entries : List DirectoryEntry
  deriving DecidableEq, Repr

namespace Directory

def create (capacity : Nat) : Directory := ⟨capacity, []⟩

/-- `Directory::AddEntry` followed by the two writes to the new entry. The name is copied
without a look at its length. -/
def addEntry (dir : Directory) (name : Str) (nodeID : Nat) : Except Stop Directory :=
  if name.length < nameSizeof then
    .ok {
      capacity := if dir.capacity > dir.entries.length then dir.capacity else dir.capacity + 16
      entries := dir.entries ++ [⟨name, nodeID⟩] }
  else .error .overflow

def removeEntry (dir : Directory) (index : Nat) : Directory :=
  { dir with entries := dir.entries.eraseIdx index }

/-- The loop of `_AcquirePathRec` over a directory: the first entry that the path starts with,
and the path behind it. -/
def findEntry (path : Str) : List DirectoryEntry → Option (Nat × Str)
  | [] => none
  | e :: entries =>
      match pathWalk path e.name with
      | some rest => some (e.nodeID, rest)
      | none => findEntry path entries

example : findEntry ['a', '/', 'b'] [⟨['a'], 3⟩] = some (3, ['b']) := by simp [findEntry, pathWalk]

end Directory

/-! ## Nodes -/

/-- `Node::Type` -/
inductive NodeType
  | file
  | directory
  | deviceChar
  | deviceBlock
  | pipe
  | symlink
  deriving DecidableEq, Repr

/-- The union in `Node`. -/
inductive NodeInfo
  | none
  | folder (cachedDir : Directory)
  | file (fileSize : Nat)
  | device (driverID subID : Nat)
  | symlink (linkPath : Str)
  deriving DecidableEq, Repr

structure Node where
  id : Nat
  mp : MountRef
  refCount : Nat
  linkCount : Nat
  ready : Bool
  type : NodeType
  dirLock : Bool
  info : NodeInfo
  ownerUID : Nat
  ownerGID : Nat
  permissions : Permissions
  deriving DecidableEq, Repr

/-- The directory entries in a node. -/
def Node.entries (node : Node) : List DirectoryEntry :=
  match node.info with
  | .folder dir => dir.entries
  | _ => []

def checkPermissions (uid gid : Nat) (node : Node) (reqPerms : UInt8) : Bool :=
  if uid = 0 then true
  else if uid = node.ownerUID then
    node.permissions.ownerPermissions &&& reqPerms == reqPerms
  else if gid = node.ownerGID then
    node.permissions.groupPermissions &&& reqPerms == reqPerms
  else
    node.permissions.otherPermissions &&& reqPerms == reqPerms

/-! ## Mounts, descriptors and threads -/

/-- The file systems that are modelled: `TempFS` with its two members, and `PipeFS`. -/
inductive FileSystem
  | tempFS (rootNodeID : Nat) (mp : Option MountRef)
  | pipeFS (pipes : PipeFS.Pipes)

structure MountPoint where
  parent : Option MountRef
  path : Str
  fs : FileSystem
  /-- `sb.rootNode` -/
  rootNode : Nat
  childMountLock : Bool
  childMounts : List MountRef
  nodeCacheLock : Bool
  nodeCache : List NodeRef
  refCount : Nat

structure FileDescriptor where
  refCount : Nat
  node : NodeRef
  permissions : UInt8
  pos : Nat
  path : Str

/-- `TestNode`. The size of the file is the length of its data. -/
structure TestNode where
  type : NodeType
  dir : Option Directory
  linkRefCount : Nat
  uid : Nat
  gid : Nat
  perms : Permissions
  fileData : List UInt8

/-- What the file system reads of a thread. -/
structure ThreadInfo where
  uid : Nat
  gid : Nat
  cwd : Str

/-! ## The state -/

/-- `DeviceDriver::Type` -/
inductive DriverType
  | char
  | block
  deriving DecidableEq, Repr

/-- What the file system takes from the rest of the kernel. -/
structure Kernel where
  alloc : Allocator
  /-- The drivers in `DeviceDriverRegistry`. -/
  drivers : Nat → Option DriverType
  /-- What memory that was just allocated holds. -/
  uninit : Nat → UInt8

structure State where
  mounts : Heap MountPoint
  nodes : Heap Node
  descs : Heap FileDescriptor
  testNodes : Heap TestNode
  threads : ThreadRef → ThreadInfo
  /-- `g_RootMount` -/
  rootMount : MountRef
  /-- `g_PipeMount` -/
  pipeMount : MountRef
  /-- History: the ids of the TempFS nodes created, and of those destroyed, latest first. -/
  created : List Nat
  destroyed : List Nat

/-- The node at `n`, if there is one, is changed. -/
def State.updNode (s : State) (n : NodeRef) (f : Node → Node) : State :=
  { s with nodes := s.nodes.modify n f }

/-- The mount at `m`, if there is one, is changed. -/
def State.updMount (s : State) (m : MountRef) (f : MountPoint → MountPoint) : State :=
  { s with mounts := s.mounts.modify m f }

/-- The descriptor at `d`, if there is one, is changed. -/
def State.updDesc (s : State) (d : DescRef) (f : FileDescriptor → FileDescriptor) : State :=
  { s with descs := s.descs.modify d f }

/-- The `TestNode` at `id`, if there is one, is changed. -/
def State.updTestNode (s : State) (id : Nat) (f : TestNode → TestNode) : State :=
  { s with testNodes := s.testNodes.modify id f }

/-- An action of the kernel. -/
abbrev M := StateT State (Except Stop)

namespace M

variable {α β : Type}

def stop (e : Stop) : M α := fun _ => .error e

/-- A pure computation that may stop. -/
def lift (r : Except Stop α) : M α := fun s =>
  match r with
  | .ok a => .ok (a, s)
  | .error e => .error e

theorem bind_ok {m : M α} {k : α → M β} {s s' : State} {a : α} (h : m s = .ok (a, s')) :
    (m >>= k) s = k a s' := by
  show (m s >>= fun p => k p.1 p.2) = _
  rw [h]
  rfl

@[simp] theorem pure_run (a : α) (s : State) : (pure a : M α) s = .ok (a, s) := rfl
@[simp] theorem stop_run (e : Stop) (s : State) : (stop e : M α) s = .error e := rfl

end M

def getNode (n : NodeRef) : M Node := fun s =>
  match s.nodes.cell n with
  | some node => .ok (node, s)
  | none => .error .fault

def modifyNode (n : NodeRef) (f : Node → Node) : M Unit := fun s =>
  match s.nodes.cell n with
  | some _ => .ok ((), s.updNode n f)
  | none => .error .fault

def getMount (m : MountRef) : M MountPoint := fun s =>
  match s.mounts.cell m with
  | some mp => .ok (mp, s)
  | none => .error .fault

def modifyMount (m : MountRef) (f : MountPoint → MountPoint) : M Unit := fun s =>
  match s.mounts.cell m with
  | some _ => .ok ((), s.updMount m f)
  | none => .error .fault

def getDesc (d : DescRef) : M FileDescriptor := fun s =>
  match s.descs.cell d with
  | some desc => .ok (desc, s)
  | none => .error .fault

def modifyDesc (d : DescRef) (f : FileDescriptor → FileDescriptor) : M Unit := fun s =>
  match s.descs.cell d with
  | some _ => .ok ((), s.updDesc d f)
  | none => .error .fault

def getTestNode (id : Nat) : M TestNode := fun s =>
  match s.testNodes.cell id with
  | some node => .ok (node, s)
  | none => .error .fault

def modifyTestNode (id : Nat) (f : TestNode → TestNode) : M Unit := fun s =>
  match s.testNodes.cell id with
  | some _ => .ok ((), s.updTestNode id f)
  | none => .error .fault

def getThread (t : ThreadRef) : M ThreadInfo := fun s => .ok (s.threads t, s)

/-! ## Counters and locks -/

/-- `Inc` -/
def inc (n : Nat) : Nat := n + 1

/-- `Dec` on a 64-bit counter. -/
def dec (n : Nat) : Nat := if n = 0 then 2 ^ 64 - 1 else n - 1

def lockDir (n : NodeRef) : M Unit := do
  let node ← getNode n
  if node.dirLock then M.stop .block
  else modifyNode n fun node => { node with dirLock := true }

def unlockDir (n : NodeRef) : M Unit := modifyNode n fun node => { node with dirLock := false }

def lockNodeCache (m : MountRef) : M Unit := do
  let mp ← getMount m
  if mp.nodeCacheLock then M.stop .block
  else modifyMount m fun mp => { mp with nodeCacheLock := true }

def unlockNodeCache (m : MountRef) : M Unit :=
  modifyMount m fun mp => { mp with nodeCacheLock := false }

def lockChildMounts (m : MountRef) : M Unit := do
  let mp ← getMount m
  if mp.childMountLock then M.stop .block
  else modifyMount m fun mp => { mp with childMountLock := true }

def unlockChildMounts (m : MountRef) : M Unit :=
  modifyMount m fun mp => { mp with childMountLock := false }

end ChenixOS.VFS
