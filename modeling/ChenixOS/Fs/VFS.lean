import ChenixOS.Fs.FileSystem

/-!
# The virtual file system

`kernel/Kernel/fs/VFS.cpp`. An operation is a `Prog`: its atomic actions are the sections that
the code protects with a lock, together with the unlocked accesses next to them. The sections on
a directory are labelled, since what one of them finds is acted upon in a later one.

Errors are returned as in the source; the early returns are the `.error` branches, each with the
releases that the code makes there.
-/

namespace ChenixOS.VFS

/-- The sections whose order between threads matters. -/
inductive Label
  /-- A name is searched in a directory. -/
  | lookup (dir : NodeRef) (name : Str)
  /-- `Delete` looks whether a directory is empty. -/
  | checkEmpty (dir : NodeRef)
  | addEntry (dir : NodeRef) (name : Str)
  | removeEntry (dir : NodeRef) (name : Str)
  | other
  deriving DecidableEq, Repr

abbrev P (α : Type) := Prog State Label α

/-- An action that is not on a directory. -/
def step {α : Type} (m : M α) : P α := Prog.atomic .other m

/-- `if((error = ..) != OK) return error;` -/
def onOk {α β : Type} (r : Except Error α) (k : α → P (Except Error β)) : P (Except Error β) :=
  match r with
  | .error e => .ret (.error e)
  | .ok a => k a

/-- Return an error code. -/
def fail {α : Type} (e : Error) : P (Except Error α) := .ret (.error e)

variable (K : Kernel)

/-! ## Mounts -/

/-- The loop over `current->childMounts`. -/
def firstMatch (path : Str) : List MountRef → M (Option MountRef)
  | [] => pure none
  | c :: childMounts => do
      let mp ← getMount c
      if mountCmp path mp.path then pure (some c) else firstMatch path childMounts

/-- One round of `FindMountPoint`. -/
def findChild (path : Str) (current : MountRef) : M (Option MountRef) := do
  lockChildMounts current
  let mp ← getMount current
  match ← firstMatch path mp.childMounts with
  | some next => do
      modifyMount next fun mp => { mp with refCount := inc mp.refCount }
      unlockChildMounts current
      let s ← get
      if current ≠ s.rootMount then
        modifyMount current fun mp => { mp with refCount := dec mp.refCount }
      pure (some next)
  | none => do
      unlockChildMounts current
      pure none

/-- The loop of `FindMountPoint`. A child's path is longer than its parent's, so a path of
length `n` has at most `n + 1` rounds. -/
def findMountPointFrom (path : Str) : Nat → MountRef → P MountRef
  | 0, _ => Prog.diverge .other
  | fuel + 1, current => do
      match ← step (findChild path current) with
      | some next => findMountPointFrom path fuel next
      | none => .ret current

def findMountPoint (path : Str) : P MountRef := do
  let s ← step get
  findMountPointFrom path (path.length + 1) s.rootMount

def releaseMountPoint (m : MountRef) (decrement : Bool) : M Unit := do
  let s ← get
  if m ≠ s.rootMount ∧ decrement then
    modifyMount m fun mp => { mp with refCount := dec mp.refCount }

/-! ## Nodes -/

/-- `new Node()` with the fields that are given. -/
def newNode (id : Nat) (mp : MountRef) (refCount : Nat) (ready : Bool) : M NodeRef := fun s =>
  let n := s.nodes.fresh K.alloc
  .ok (n, { s with
    nodes := s.nodes.store n
      { id, mp, refCount, linkCount := 0, ready, type := .file, dirLock := false, info := .none
        ownerUID := 0, ownerGID := 0, permissions := ⟨0, 0, 0, 0⟩ } })

/-- The loop over `mp->nodeCache`. -/
def findCached (nodeID : Nat) : List NodeRef → M (Option NodeRef)
  | [] => pure none
  | n :: nodeCache => do
      let node ← getNode n
      if node.id = nodeID then pure (some n) else findCached nodeID nodeCache

/-- `AcquireNode`. A node that is not ready is waited for. -/
def acquireNode (m : MountRef) (nodeID : Nat) : M NodeRef := do
  lockNodeCache m
  let mp ← getMount m
  match ← findCached nodeID mp.nodeCache with
  | some n => do
      modifyNode n fun node => { node with refCount := inc node.refCount }
      unlockNodeCache m
      let node ← getNode n
      if node.ready then pure n else M.stop .block
  | none => do
      let n ← newNode K nodeID m 1 false
      modifyMount m fun mp => { mp with nodeCache := mp.nodeCache ++ [n] }
      unlockNodeCache m
      let node ← getNode n
      let node ← fsReadNode m nodeID node
      modifyNode n fun _ => { node with ready := true }
      pure n

def releaseNode (n : NodeRef) (decrement : Bool) : M Unit := do
  let node ← getNode n
  lockNodeCache node.mp
  if decrement then
    modifyNode n fun node => { node with refCount := dec node.refCount }
  let node ← getNode n
  if node.refCount = 0 ∧ node.linkCount = 0 then do
    modifyMount node.mp fun mp => { mp with nodeCache := mp.nodeCache.erase n }
    unlockNodeCache node.mp
    fsDestroyNode node.mp node.id
    fun s => .ok ((), { s with nodes := s.nodes.free n })
  else unlockNodeCache node.mp

/-- `CreateNode(mp, softRefs)` and the assignments to the new node that follow it. -/
def createNode (m : MountRef) (softRefs : Nat) (init : Node → Node) : M NodeRef := do
  let (id, ready) ← fsCreateNode K m
  let n ← newNode K id m softRefs ready
  lockNodeCache m
  modifyMount m fun mp => { mp with nodeCache := mp.nodeCache ++ [n] }
  unlockNodeCache m
  modifyNode n init
  pure n

def getNodeDir (n : NodeRef) : M Directory := do
  let node ← getNode n
  let _ ← getMount node.mp
  match node.info with
  | .folder dir => pure dir
  | _ => M.stop .fault

/-- `CheckPermissions(uid, gid, node, reqPerms)` -/
def permitted (tInfo : ThreadInfo) (n : NodeRef) (reqPerms : UInt8) : M Bool := do
  let node ← getNode n
  pure (checkPermissions tInfo.uid tInfo.gid node reqPerms)

/-- `node->type` -/
def nodeType (n : NodeRef) : M NodeType := do
  let node ← getNode n
  pure node.type

/-! ## Sections on a directory -/

/-- What a round of `_AcquirePathRec` finds in the current directory. -/
inductive Lookup
  | notADirectory
  | denied
  | found (nodeID : Nat) (rest : Str)
  | absent
  deriving DecidableEq, Repr

def lookup (tInfo : ThreadInfo) (n : NodeRef) (path : Str) : M Lookup := do
  let node ← getNode n
  if node.type ≠ .directory then pure .notADirectory
  else if !checkPermissions tInfo.uid tInfo.gid node Permissions.execute then pure .denied
  else do
    lockDir n
    let dir ← getNodeDir n
    unlockDir n
    match Directory.findEntry path dir.entries with
    | some (nodeID, rest) => pure (.found nodeID rest)
    | none => pure .absent

/-- The section of `Delete` on the node itself. -/
def folderNotEmpty (n : NodeRef) : M Bool := do
  let node ← getNode n
  if node.type = .directory then do
    lockDir n
    let dir ← getNodeDir n
    unlockDir n
    pure (dir.entries.length ≠ 0)
  else pure false

/-- Add an entry for `child` to the directory `n`. -/
def addEntry (n : NodeRef) (name : Str) (child : NodeRef) : M Unit := do
  lockDir n
  let dir ← getNodeDir n
  let node ← getNode child
  let dir ← M.lift (dir.addEntry name node.id)
  modifyNode n fun node => { node with info := .folder dir }
  unlockDir n

/-- The section of `Delete` on the parent. When the name is not there, it ends with the lock
held. -/
def removeEntry (n : NodeRef) (fileName : Str) : M Bool := do
  lockDir n
  let dir ← getNodeDir n
  match dir.entries.findIdx? fun e => e.name = fileName with
  | some i => do
      modifyNode n fun node => { node with info := .folder (dir.removeEntry i) }
      unlockDir n
      pure true
  | none => pure false

/-! ## Paths -/

/-- How `_AcquirePathRec` ends: with the nodes found and the path that is left, with a symbolic
link on the way, or with an error. -/
inductive Walk
  | ok (node parent : Option NodeRef) (path : Str)
  | symlink (node parent : NodeRef) (path : Str)
  | error (e : Error)

/-- The loop of `_AcquirePathRec`. Each round takes a name off the path. -/
def walk (tInfo : ThreadInfo) (m : MountRef) (fileHasToExist deleteMode : Bool) :
    Nat → NodeRef → Str → P Walk
  | 0, _, _ => Prog.diverge .other
  | fuel + 1, current, path => do
      match ← Prog.atomic (.lookup current (component path)) (lookup tInfo current path) with
      | .notADirectory => do
          step (releaseNode current true)
          .ret (.error .fileNotFound)
      | .denied => do
          step (releaseNode current true)
          .ret (.error .permissionDenied)
      | .found nodeID rest => do
          let next ← step (acquireNode K m nodeID)
          if deleteMode ∧ rest = [] then .ret (.ok (some next) (some current) rest)
          else do
            let type ← step (nodeType next)
            if type = .symlink then .ret (.symlink next current rest)
            else if rest = [] then .ret (.ok (some next) (some current) rest)
            else do
              step (releaseNode current true)
              walk tInfo m fileHasToExist deleteMode fuel next rest
      | .absent =>
          if fileHasToExist ∨ !isLastPathEntry path then do
            step (releaseNode current true)
            .ret (.error .fileNotFound)
          else .ret (.ok none (some current) path)

/-- `_AcquirePathRec` -/
def acquirePathRec (tInfo : ThreadInfo) (m : MountRef) (path : Str)
    (fileHasToExist deleteMode : Bool) : P Walk := do
  let root ← step do
    let mp ← getMount m
    acquireNode K m mp.rootNode
  if path = [] then .ret (.ok (some root) none path)
  else walk K tInfo m fileHasToExist deleteMode (path.length + 1) root path

/-- What `AcquirePath` hands out: the mount, the nodes, the path relative to the mount or what is
left of it, and the path buffer, which following a link rewrites. -/
structure Acquired where
  mp : MountRef
  node : Option NodeRef
  parent : Option NodeRef
  path : Str
  buffer : Str

/-- `outNode->infoSymlink.linkPath` -/
def readLink (n : NodeRef) : M Str := do
  let node ← getNode n
  match node.info with
  | .symlink linkPath => pure linkPath
  | _ => M.stop .fault

/-- What is in the buffer after a link was followed. -/
def splice (linkPath restPath : Str) : Str :=
  if restPath.length > 0 then linkPath ++ '/' :: restPath else linkPath

/-- `AcquirePath`, following at most `fuel` links; after that it counts as never returning. -/
def acquirePath (tInfo : ThreadInfo) (fileHasToExist deleteMode : Bool) :
    Nat → Str → P (Except Error Acquired)
  | 0, _ => Prog.diverge .other
  | fuel + 1, buffer => do
      let m ← findMountPoint buffer
      let mp ← step (getMount m)
      match ← acquirePathRec K tInfo m (advancePath buffer mp.path) fileHasToExist deleteMode with
      | .symlink node parent restPath => do
          let linkPath ← step (readLink node)
          step (releaseNode node true)
          step (releaseNode parent true)
          step (releaseMountPoint m true)
          if linkPath.length + restPath.length + 2 > 255 then fail .pathTooLong
          else acquirePath tInfo fileHasToExist deleteMode fuel (splice linkPath restPath)
      | .ok node parent path => .ret (.ok ⟨m, node, parent, path, buffer⟩)
      | .error e => do
          step (releaseMountPoint m true)
          fail e

/-- `PreparePath` into a buffer of `bufSize` bytes. -/
def prepare (bufSize : Nat) (t : ThreadRef) (userPath : Option Str) : M (Except Error Str) := do
  let tInfo ← getThread t
  M.lift (preparePath bufSize tInfo.cwd userPath)

end ChenixOS.VFS
