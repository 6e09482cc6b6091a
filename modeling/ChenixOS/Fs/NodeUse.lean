import ChenixOS.Lib.Holders
import ChenixOS.Fs.Operations

/-!
# What the operations do with nodes

The functions of `fs/VFS.cpp` once more, for any file systems and any other threads. A node is whatever
the file system makes of it: `ReadNode` may leave the link count at zero, as `ProcFS` does, and then the
release of the last reference destroys the node. What is kept of each function is which nodes it acquires,
creates, reads, writes and releases, in which order, and what decides about that. The rest of the kernel is
asked, and may give any answer; the counters of mounts, which no node is touched for, are left out, and of
the results only the error codes are kept. `Unmount` and `AddRef` touch no node.
-/

namespace ChenixOS.NodeUse

open VFS

/-- What `FindMountPoint` finds, with the fields that are read. -/
structure Mount where
  ref : MountRef
  path : Str
  /-- `sb.rootNode` -/
  rootNode : Nat

/-- Questions to the rest of the kernel. -/
inductive Ask
  /-- `tInfo->cwd` -/
  | cwd
  | findMountPoint (path : Str)
  /-- `DeviceDriverRegistry::GetDriver` -/
  | getDriver (driverID : Nat)
  /-- The fields of an open file. -/
  | desc
  /-- Whether the user's buffer can be written, what a driver or a file system returns, and the like. -/
  | result

abbrev Ask.Ans : Ask → Type
  | cwd => Str
  | findMountPoint _ => Mount
  | getDriver _ => Option DriverType
  | desc => FileDescriptor
  | result => Except Error Nat

/-- A program on nodes. `AcquireNode` is given a mount and an id. -/
abbrev NodeProg := Holders.Prog NodeRef (MountRef × Nat) Node Ask.Ans

namespace NodeProg

def ask (q : Ask) : NodeProg q.Ans := Holders.Prog.ask q .ret

def diverge {α : Type} : NodeProg α := Holders.Prog.diverge

end NodeProg

open NodeProg

/-! ## Nodes -/

def acquireNode (m : MountRef) (nodeID : Nat) : NodeProg NodeRef := .acquire (m, nodeID) .ret

/-- `CreateNode(mp, softRefs)`. The file system chooses the id. -/
def createNode (m : MountRef) (softRefs : Nat) : NodeProg NodeRef := .create (m, 0) softRefs .ret

/-- `ReleaseNode` -/
def releaseNode (n : NodeRef) (decrement : Bool) : NodeProg Unit := .release n decrement (.ret ())

/-- `if(parent != nullptr) ReleaseNode(parent);` -/
def releaseParent : Option NodeRef → NodeProg Unit
  | some parent => releaseNode parent true
  | none => .ret ()

def readNode (n : NodeRef) : NodeProg Node := .read n .ret

def writeNode (n : NodeRef) (f : Node → Node) : NodeProg Unit := .write n f (.ret ())

/-- `node->dirLock`: the word of the lock is not among the fields here, but the node is touched. -/
def lockDir (n : NodeRef) : NodeProg Unit := .read n fun _ => .ret ()

def unlockDir (n : NodeRef) : NodeProg Unit := .read n fun _ => .ret ()

/-- `GetNodeDir`. What `UpdateDir` does to the node, it does before. -/
def getNodeDir (n : NodeRef) : NodeProg (List DirectoryEntry) := .read n fun node => .ret node.entries

/-- `CheckPermissions`. For root the node is not looked at. -/
def checkPermissions (uid gid : Nat) (n : NodeRef) (reqPerms : UInt8) : NodeProg Bool :=
  if uid = 0 then .ret true else .read n fun node => .ret (VFS.checkPermissions uid gid node reqPerms)

/-- A call of the file system with the node. -/
def callFileSystem (n : NodeRef) : NodeProg (Except Error Nat) := do
  let _ ← readNode n
  ask .result

/-- The lines between `dirLock.Spinlock()` and `dirLock.Unlock()` of the functions that add an entry. -/
def addEntry (parentNode node : NodeRef) (update : Node → Node) : NodeProg Unit := do
  lockDir parentNode
  let _ ← getNodeDir parentNode
  writeNode parentNode update
  let _ ← readNode node
  unlockDir parentNode

/-! ## Paths -/

variable (uid gid : Nat)

/-- The result of a function that may return an error code. -/
abbrev Code (α : Type) := Except Error α

/-- `if((error = ..) != OK) return error;` -/
def onOk {α β : Type} (r : Code α) (k : α → NodeProg (Code β)) : NodeProg (Code β) :=
  match r with
  | .error e => .ret (.error e)
  | .ok a => k a

/-- `PreparePath`. What is behind a write past the end of the buffer is not modelled. -/
def prepare (bufSize : Nat) (path : Option Str) : NodeProg (Code Str) := do
  let cwd ← ask .cwd
  match preparePath bufSize cwd path with
  | .ok r => .ret r
  | .error _ => diverge

/-- The loop of `_AcquirePathRec`. -/
def walk (m : MountRef) (fileHasToExist deleteMode : Bool) : Nat → NodeRef → Str → NodeProg Walk
  | 0, _, _ => diverge
  | fuel + 1, currentNode, path => do
      let node ← readNode currentNode
      if node.type ≠ .directory then do
        releaseNode currentNode true
        .ret (.error .fileNotFound)
      else if !(← checkPermissions uid gid currentNode Permissions.execute) then do
        releaseNode currentNode true
        .ret (.error .permissionDenied)
      else do
        lockDir currentNode
        let dir ← getNodeDir currentNode
        unlockDir currentNode
        match Directory.findEntry path dir with
        | some (nid, rest) => do
            let next ← acquireNode m nid
            if deleteMode ∧ rest = [] then .ret (.ok (some next) (some currentNode) rest)
            else do
              let nextNode ← readNode next
              if nextNode.type = .symlink then .ret (.symlink next currentNode rest)
              else if rest = [] then .ret (.ok (some next) (some currentNode) rest)
              else do
                releaseNode currentNode true
                walk m fileHasToExist deleteMode fuel next rest
        | none =>
            if fileHasToExist ∨ !isLastPathEntry path then do
              releaseNode currentNode true
              .ret (.error .fileNotFound)
            else .ret (.ok none (some currentNode) path)

/-- `_AcquirePathRec` -/
def acquirePathRec (mp : Mount) (path : Str) (fileHasToExist deleteMode : Bool) : NodeProg Walk := do
  let currentNode ← acquireNode mp.ref mp.rootNode
  if path = [] then .ret (.ok (some currentNode) none path)
  else walk uid gid mp.ref fileHasToExist deleteMode (path.length + 1) currentNode path

/-- `infoSymlink.linkPath` -/
def linkPath (node : Node) : Str :=
  match node.info with
  | .symlink linkPath => linkPath
  | _ => []

/-- `AcquirePath`, following at most `fuel` links. -/
def acquirePath (fileHasToExist deleteMode : Bool) : Nat → Str → NodeProg (Code Acquired)
  | 0, _ => diverge
  | fuel + 1, buffer => do
      let mp ← ask (.findMountPoint buffer)
      match ← acquirePathRec uid gid mp (advancePath buffer mp.path) fileHasToExist deleteMode with
      | .symlink outNode outParent restPath => do
          let node ← readNode outNode
          releaseNode outNode true
          releaseNode outParent true
          if (linkPath node).length + restPath.length + 2 > 255 then .ret (.error .pathTooLong)
          else acquirePath fileHasToExist deleteMode fuel (splice (linkPath node) restPath)
      | .ok outNode outParent path => .ret (.ok ⟨mp.ref, outNode, outParent, path, buffer⟩)
      | .error e => .ret (.error e)

/-- `PreparePath` and `AcquirePath`, as every function begins. -/
def lookUp (fuel bufSize : Nat) (path : Option Str) (fileHasToExist deleteMode : Bool) :
    NodeProg (Code Acquired) := do
  onOk (← prepare bufSize path) fun cleanBuffer =>
    acquirePath uid gid fileHasToExist deleteMode fuel cleanBuffer

/-! ## The operations -/

variable (fuel : Nat)

/-- The body of `CreateFile`, `CreateFolder`, `CreateDeviceFile` and `CreateSymLink`; `init` is asked for
what is written into the new node, `update` is what the new entry makes of the parent. -/
def createAt (path : Option Str) (init : NodeProg (Node → Node)) (update : Node → Node) :
    NodeProg (Code Unit) := do
  onOk (← lookUp uid gid fuel 255 path false false) fun a =>
    match a.parent, a.node with
    | none, none => diverge
    | none, some fileNode => do
        releaseNode fileNode true
        .ret (.error .fileExists)
    | some parentNode, some fileNode => do
        releaseNode parentNode true
        releaseNode fileNode true
        .ret (.error .fileExists)
    | some parentNode, none => do
        if !(← checkPermissions uid gid parentNode Permissions.write) then do
          releaseNode parentNode true
          .ret (.error .permissionDenied)
        else do
          let newNode ← createNode a.mp 1
          let f ← init
          writeNode newNode f
          addEntry parentNode newNode update
          releaseNode parentNode true
          releaseNode newNode true
          .ret (.ok ())

/-- The assignments to a new node. -/
def initNode (type : NodeType) (info : NodeInfo) (permissions : Permissions) : Node → Node :=
  VFS.initNode type info permissions ⟨uid, gid, []⟩

def createFile (path : Option Str) (perms : Permissions) (update : Node → Node) : NodeProg (Code Unit) :=
  createAt uid gid fuel path (.ret (initNode uid gid .file (.file 0) perms)) update

def createFolder (path : Option Str) (perms : Permissions) (update : Node → Node) :
    NodeProg (Code Unit) :=
  createAt uid gid fuel path
    (.ret (initNode uid gid .directory (.folder (Directory.create 10)) perms)) update

def createDeviceFile (path : Option Str) (perms : Permissions) (driverID subID : Nat)
    (update : Node → Node) : NodeProg (Code Unit) :=
  createAt uid gid fuel path (do
    match ← ask (.getDriver driverID) with
    | none => diverge
    | some .block => .ret (initNode uid gid .deviceBlock (.device driverID subID) perms)
    | some .char => .ret (initNode uid gid .deviceChar (.device driverID subID) perms)) update

def createSymLink (path : Option Str) (permissions : Permissions) (linkPath : Str)
    (update : Node → Node) : NodeProg (Code Unit) :=
  createAt uid gid fuel path (.ret (initNode uid gid .symlink (.symlink linkPath) permissions)) update

/-- The end of `CreateHardLink`, when both paths were looked up. -/
def hardLink (link a : Acquired) (linkFileNode : NodeRef) (update : Node → Node) :
    NodeProg (Code Unit) :=
  match a.parent, a.node with
  | none, none => diverge
  | none, some fileNode => do
      releaseNode linkFileNode true
      releaseNode fileNode true
      .ret (.error .fileExists)
  | some parentNode, some fileNode => do
      releaseNode linkFileNode true
      releaseNode parentNode true
      releaseNode fileNode true
      .ret (.error .fileExists)
  | some parentNode, none => do
      if !(← checkPermissions uid gid parentNode Permissions.write) then do
        releaseNode linkFileNode true
        releaseNode parentNode true
        .ret (.error .permissionDenied)
      else if a.mp ≠ link.mp then do
        releaseNode linkFileNode true
        releaseNode parentNode true
        .ret (.error .hardlinkToDifferentFS)
      else do
        writeNode linkFileNode fun node => { node with linkCount := inc node.linkCount }
        addEntry parentNode linkFileNode update
        releaseNode parentNode true
        releaseNode linkFileNode true
        .ret (.ok ())

def createHardLink (path linkPath : Option Str) (update : Node → Node) : NodeProg (Code Unit) := do
  onOk (← lookUp uid gid fuel 255 linkPath true false) fun link =>
    match link.node with
    | none => diverge
    | some linkFileNode => do
        releaseParent link.parent
        let node ← readNode linkFileNode
        if node.type = .directory then do
          releaseNode linkFileNode true
          .ret (.error .hardlinkToFolder)
        else
          match ← lookUp uid gid fuel 255 path false false with
          | .error e => do
              releaseNode linkFileNode true
              .ret (.error e)
          | .ok a => hardLink uid gid link a linkFileNode update

/-- `CreatePipe`. Its two references go to the descriptors. -/
def createPipe (pipeMount : MountRef) : NodeProg (Code Unit) := do
  let pipeNode ← createNode pipeMount 2
  writeNode pipeNode fun node => { node with type := .pipe }
  .ret (.ok ())

/-- The loop of `Delete` over the directory of the parent. -/
def removeEntry (parentNode fileNode : NodeRef) (fileName : Str) (update : Node → Node) :
    NodeProg (Code Unit) := do
  lockDir parentNode
  let dir ← getNodeDir parentNode
  if dir.any fun e => e.name = fileName then do
    writeNode parentNode update
    unlockDir parentNode
    writeNode fileNode fun node => { node with linkCount := dec node.linkCount }
    releaseNode fileNode true
    releaseNode parentNode true
    .ret (.ok ())
  else .ret (.error .fileNotFound)

def delete (path : Option Str) (update : Node → Node) : NodeProg (Code Unit) := do
  onOk (← lookUp uid gid fuel 255 path true true) fun a =>
    match a.parent, a.node with
    | _, none => diverge
    | none, some fileNode => do
        releaseNode fileNode true
        .ret (.error .deleteMountPoint)
    | some parentNode, some fileNode => do
        if !(← checkPermissions uid gid parentNode Permissions.write) then do
          releaseNode parentNode true
          releaseNode fileNode true
          .ret (.error .permissionDenied)
        else do
          let node ← readNode fileNode
          if node.type = .directory then do
            lockDir fileNode
            let dir ← getNodeDir fileNode
            unlockDir fileNode
            if dir ≠ [] then do
              releaseNode fileNode true
              releaseNode parentNode true
              .ret (.error .folderNotEmpty)
            else removeEntry parentNode fileNode (getFileName a.buffer) update
          else removeEntry parentNode fileNode (getFileName a.buffer) update

/-- What `ChangeOwner` and `ChangePermissions` share. -/
def changeNode (path : Option Str) (f : Node → Node) : NodeProg (Code Unit) := do
  onOk (← lookUp uid gid fuel 255 path true false) fun a =>
    match a.node with
    | none => diverge
    | some fileNode => do
        releaseParent a.parent
        let node ← readNode fileNode
        if uid ≠ 0 ∧ uid ≠ node.ownerUID then do
          releaseNode fileNode true
          .ret (.error .permissionDenied)
        else do
          writeNode fileNode f
          releaseNode fileNode true
          .ret (.ok ())

def changeOwner (path : Option Str) (newUID newGID : Nat) : NodeProg (Code Unit) :=
  changeNode uid gid fuel path fun node => { node with ownerUID := newUID, ownerGID := newGID }

def changePermissions (path : Option Str) (permissions : Permissions) : NodeProg (Code Unit) :=
  changeNode uid gid fuel path fun node => { node with permissions }

def stat (path : Option Str) (followSymlink : Bool) : NodeProg (Code Unit) := do
  onOk (← lookUp uid gid fuel 255 path true (!followSymlink)) fun a =>
    match a.node with
    | none => diverge
    | some fileNode => do
        releaseParent a.parent
        let _ ← readNode fileNode
        releaseNode fileNode true
        .ret (.ok ())

def list (path : Option Str) : NodeProg (Code Unit) := do
  onOk (← lookUp uid gid fuel 255 path true false) fun a =>
    match a.node with
    | none => diverge
    | some node => do
        releaseParent a.parent
        let fields ← readNode node
        if fields.type ≠ .directory then do
          releaseNode node true
          .ret (.error .notAFolder)
        else if !(← checkPermissions uid gid node Permissions.read) then do
          releaseNode node true
          .ret (.error .permissionDenied)
        else do
          lockDir node
          let _ ← getNodeDir node
          let copied ← ask .result
          unlockDir node
          releaseNode node true
          .ret (copied.map fun _ => ())

/-- `Mount(mountPoint, fs)` -/
def mount (mountPoint : Option Str) : NodeProg (Code Unit) := do
  onOk (← lookUp uid gid fuel 255 mountPoint true false) fun a =>
    match a.node, a.parent with
    | none, _ => diverge
    | some fileNode, none => do
        releaseNode fileNode true
        .ret (.error .folderAlreadyMounted)
    | some fileNode, some folderNode => do
        releaseNode folderNode true
        let node ← readNode fileNode
        if node.type ≠ .directory then do
          releaseNode fileNode true
          .ret (.error .notAFolder)
        else if !(← checkPermissions uid gid fileNode Permissions.write) then do
          releaseNode fileNode true
          .ret (.error .permissionDenied)
        else do
          releaseNode fileNode true
          .ret (.ok ())

/-- `Mount(mountPoint, fsID, devFile)`; the last answer says whether the driver and the file system were
found. -/
def mountDevice (mountPoint devFile : Option Str) : NodeProg (Code Unit) := do
  onOk (← lookUp uid gid fuel 255 devFile true false) fun a =>
    match a.node with
    | none => diverge
    | some fileNode => do
        releaseParent a.parent
        let node ← readNode fileNode
        if node.type ≠ .deviceBlock then do
          releaseNode fileNode true
          .ret (.error .notABlockDevice)
        else if !(← checkPermissions uid gid fileNode Permissions.read) then do
          releaseNode fileNode true
          .ret (.error .permissionDenied)
        else do
          let _ ← readNode fileNode
          releaseNode fileNode true
          onOk (← ask .result) fun _ => mount uid gid fuel mountPoint

/-- `if((openMode & OpenMode_Clear) && fileNode->type == Node::TYPE_FILE)` -/
def clearFile (fileNode : NodeRef) (openMode : UInt64) : NodeProg Unit :=
  if hasMode openMode openModeClear then do
    let node ← readNode fileNode
    if node.type = .file then do
      let _ ← callFileSystem fileNode
      .ret ()
    else .ret ()
  else .ret ()

/-- The end of `Open`, from the node on. The reference goes to the descriptor. -/
def openNode (fileNode : NodeRef) (openMode : UInt64) : NodeProg (Code Unit) := do
  let reqPerms := (openMode &&& (openModeRead ||| openModeWrite)).toUInt8
  if !(← checkPermissions uid gid fileNode reqPerms) then do
    releaseNode fileNode true
    .ret (.error .permissionDenied)
  else do
    let node ← readNode fileNode
    if node.type = .directory then do
      releaseNode fileNode true
      .ret (.error .openFolder)
    else do
      clearFile fileNode openMode
      releaseNode fileNode false
      .ret (.ok ())

def «open» (path : Option Str) (openMode : UInt64) (update : Node → Node) : NodeProg (Code Unit) := do
  onOk (← lookUp uid gid fuel 255 path (!hasMode openMode openModeCreate) false) fun a =>
    match a.node, a.parent with
    | none, none => diverge
    | none, some folderNode => do
        if !(← checkPermissions uid gid folderNode Permissions.write) then do
          releaseNode folderNode true
          .ret (.error .permissionDenied)
        else do
          let fileNode ← createNode a.mp 1
          let folder ← readNode folderNode
          writeNode fileNode (initNode uid gid .file (.file 0) folder.permissions.ofFolder)
          addEntry folderNode fileNode update
          releaseNode folderNode true
          openNode uid gid fileNode openMode
    | some fileNode, folderNode =>
        if hasMode openMode openModeFailIfExist then do
          releaseParent folderNode
          releaseNode fileNode true
          .ret (.error .fileExists)
        else do
          releaseParent folderNode
          openNode uid gid fileNode openMode

/-- `Close`, on a descriptor that is not null. With the last reference to the descriptor its reference to
the node is the caller's. -/
def close : NodeProg (Code Unit) := do
  let desc ← ask .desc
  if dec desc.refCount = 0 then
    Holders.Prog.take desc.node (do
      let _ ← readNode desc.node
      releaseNode desc.node true
      .ret (.ok ()))
  else .ret (.ok ())

/-- What `Read` and `Write` share: the node of a descriptor is used, and stays the descriptor's. The file
system may write to the node. -/
def useDesc (reqPerms : UInt8) (update : Node → Node) : NodeProg (Code Unit) := do
  let desc ← ask .desc
  if desc.permissions &&& reqPerms == 0 then .ret (.error .permissionDenied)
  else do
    let node ← readNode desc.node
    match node.driver with
    | some _ => do
        let res ← ask .result
        .ret (res.map fun _ => ())
    | none => do
        let res ← callFileSystem desc.node
        writeNode desc.node update
        .ret (res.map fun _ => ())

def read (update : Node → Node) : NodeProg (Code Unit) := useDesc Permissions.read update

def write (update : Node → Node) : NodeProg (Code Unit) := useDesc Permissions.write update

/-- `DeviceCommand`; there is no node that is not a device and has a driver. -/
def deviceCommand : NodeProg (Code Unit) := do
  let desc ← ask .desc
  let node ← readNode desc.node
  match node.driver with
  | none => .ret (.error .notADevice)
  | some driverID =>
      if desc.permissions &&& Permissions.write == 0 then .ret (.error .permissionDenied)
      else do
        match ← ask (.getDriver driverID) with
        | none => .ret (.error .invalidFD)
        | some _ => do
            let _ ← readNode desc.node
            let res ← ask .result
            .ret (res.map fun _ => ())

def seek (mode : SeekMode) (offs : Nat) : NodeProg (Code Unit) := do
  let desc ← ask .desc
  let size ← ask .result
  let _ ← readNode desc.node
  let offs := if mode = .end then size.toOption.getD 0 else offs
  .ret (if offs > size.toOption.getD 0 then .error .seekOffsetOOB else .ok ())

/-- The end of `CD`. The permissions are checked on the node that was released. -/
def enter (a : Acquired) (node : NodeRef) : NodeProg (Code Unit) := do
  let fields ← readNode node
  releaseNode node true
  releaseParent a.parent
  if fields.type ≠ .directory then .ret (.error .notAFolder)
  else if !(← checkPermissions uid gid node Permissions.execute) then .ret (.error .permissionDenied)
  else .ret (.ok ())

def cd (path : Option Str) : NodeProg (Code Unit) := do
  onOk (← lookUp uid gid fuel 256 path true false) fun a =>
    match a.node with
    | none => diverge
    | some node => enter uid gid a node

/-! ## Calls -/

/-- A call, with what of its arguments is used here. An `update` is what the new entries of a directory
make of its node, or what the file system writes to it. -/
inductive Call
  | createFile (path : Option Str) (perms : Permissions) (update : Node → Node)
  | createFolder (path : Option Str) (perms : Permissions) (update : Node → Node)
  | createDeviceFile (path : Option Str) (perms : Permissions) (driverID subID : Nat)
      (update : Node → Node)
  | createSymLink (path : Option Str) (permissions : Permissions) (linkPath : Str)
      (update : Node → Node)
  | createHardLink (path linkPath : Option Str) (update : Node → Node)
  | createPipe (pipeMount : MountRef)
  | delete (path : Option Str) (update : Node → Node)
  | changeOwner (path : Option Str) (newUID newGID : Nat)
  | changePermissions (path : Option Str) (permissions : Permissions)
  | stat (path : Option Str) (followSymlink : Bool)
  | list (path : Option Str)
  | mount (mountPoint : Option Str)
  | mountDevice (mountPoint devFile : Option Str)
  | «open» (path : Option Str) (openMode : UInt64) (update : Node → Node)
  | close
  | read (update : Node → Node)
  | write (update : Node → Node)
  | deviceCommand
  | seek (mode : SeekMode) (offs : Nat)
  | cd (path : Option Str)

/-- The code that a call runs. -/
def Call.prog : Call → NodeProg (Code Unit)
  | createFile path perms update => NodeUse.createFile uid gid fuel path perms update
  | createFolder path perms update => NodeUse.createFolder uid gid fuel path perms update
  | createDeviceFile path perms driverID subID update =>
      NodeUse.createDeviceFile uid gid fuel path perms driverID subID update
  | createSymLink path permissions linkPath update =>
      NodeUse.createSymLink uid gid fuel path permissions linkPath update
  | createHardLink path linkPath update => NodeUse.createHardLink uid gid fuel path linkPath update
  | createPipe pipeMount => NodeUse.createPipe pipeMount
  | delete path update => NodeUse.delete uid gid fuel path update
  | changeOwner path newUID newGID => NodeUse.changeOwner uid gid fuel path newUID newGID
  | changePermissions path permissions => NodeUse.changePermissions uid gid fuel path permissions
  | stat path followSymlink => NodeUse.stat uid gid fuel path followSymlink
  | list path => NodeUse.list uid gid fuel path
  | mount mountPoint => NodeUse.mount uid gid fuel mountPoint
  | mountDevice mountPoint devFile => NodeUse.mountDevice uid gid fuel mountPoint devFile
  | «open» path openMode update => NodeUse.«open» uid gid fuel path openMode update
  | close => NodeUse.close
  | read update => NodeUse.read update
  | write update => NodeUse.write update
  | deviceCommand => NodeUse.deviceCommand
  | seek mode offs => NodeUse.seek mode offs
  | cd path => NodeUse.cd uid gid fuel path

def Call.isCD : Call → Bool
  | cd _ => true
  | _ => false

/-! ## File systems -/

/-- The mounted file systems: how `ReadNode` and `CreateNode` may leave a node, and what may happen to a
node in use, through the file system or through other threads. -/
structure FileSystems where
  readNode : MountRef × Nat → Node → Prop
  createNode : MountRef → Node → Prop
  meanwhile : Node → Node → Prop

/-- `ReleaseNode` keeps a node with links; `AcquireNode` finds a node by its id. -/
def FileSystems.world (F : FileSystems) : Holders.World (MountRef × Nat) Node where
  reads := F.readNode
  creates key := F.createNode key.1
  named key node := node.id = key.2
  meanwhile := F.meanwhile
  kept node := node.linkCount ≠ 0

/-- Whatever the path, the other threads and the rest of the kernel: the call touches no node that a
`ReleaseNode` of its own has destroyed. -/
def UsesNoDestroyed (F : FileSystems) (uid gid : Nat) (call : Call) : Prop :=
  ∀ fuel c, Holders.Begins F.world c → Holders.Safe F.world (call.prog uid gid fuel) c

/-- What has been seen to be a directory keeps its links. -/
def FileSystems.DirectoriesStay (F : FileSystems) : Prop :=
  ∀ node node', F.world.Seen node → node.type = .directory → F.world.Later node node' →
    node'.linkCount ≠ 0

/-- `procfs_handle_node(0, node)` on a new node, while these processes run. The link count stays as it
is. -/
def ProcFS.rootNode (pids : List DirectoryEntry) (mp : MountRef) : Node where
  id := 0
  mp := mp
  refCount := 1
  linkCount := 0
  ready := true
  type := .directory
  dirLock := false
  info := .folder ⟨pids.length, pids⟩
  ownerUID := 0
  ownerGID := 0
  permissions := ⟨Permissions.read ||| Permissions.execute, Permissions.read ||| Permissions.execute,
    Permissions.read ||| Permissions.execute, 0⟩

/-- A `ProcFS`, of which only the root is looked at. -/
def ProcFS.only : FileSystems where
  readNode key node := key.2 = 0 ∧ ∃ pids, node = ProcFS.rootNode pids key.1
  createNode _ _ := False
  meanwhile _ _ := False

end ChenixOS.NodeUse
