import ChenixOS.Fs.VFS

/-!
# The operations of the virtual file system

The functions that `fs/VFS.h` exports. `t` is the calling thread and `fuel` bounds the number of
links that each lookup follows.

`CreateFile`, `CreateFolder`, `CreateDeviceFile` and `CreateSymLink` differ only in what they
write into the new node, so they are instances of `createAt`.
-/

namespace ChenixOS.VFS

variable (K : Kernel)

/-! ## Creating entries -/

/-- The body that the four functions share; `init` writes the fields of the new node. -/
def createAt (t : ThreadRef) (fuel : Nat) (path : Option Str)
    (init : ThreadInfo → Except Stop (Node → Node)) : P (Except Error Unit) := do
  onOk (← step (prepare 255 t path)) fun cleanBuffer => do
    let tInfo ← step (getThread t)
    onOk (← acquirePath K tInfo false false fuel cleanBuffer) fun a =>
      match a.parent, a.node with
      | none, none => step (M.stop .nullptr)
      | none, some fileNode => do
          step (releaseNode fileNode true)
          step (releaseMountPoint a.mp true)
          fail .fileExists
      | some parentNode, some fileNode => do
          step (releaseNode parentNode true)
          step (releaseNode fileNode true)
          step (releaseMountPoint a.mp true)
          fail .fileExists
      | some parentNode, none => do
          if !(← step (permitted tInfo parentNode Permissions.write)) then do
            step (releaseNode parentNode true)
            step (releaseMountPoint a.mp true)
            fail .permissionDenied
          else do
            let newNode ← step do
              let init ← M.lift (init tInfo)
              createNode K a.mp 1 init
            Prog.atomic (.addEntry parentNode a.path) (addEntry parentNode a.path newNode)
            step (releaseNode parentNode true)
            step (releaseNode newNode true)
            step (releaseMountPoint a.mp true)
            .ret (.ok ())

/-- The assignments to a new node. -/
def initNode (type : NodeType) (info : NodeInfo) (permissions : Permissions) (tInfo : ThreadInfo) :
    Node → Node := fun node =>
  { node with
    linkCount := 1, type, info, ownerGID := tInfo.gid, ownerUID := tInfo.uid, permissions }

def createFile (t : ThreadRef) (fuel : Nat) (path : Option Str) (perms : Permissions) :
    P (Except Error Unit) :=
  createAt K t fuel path fun tInfo => .ok (initNode .file (.file 0) perms tInfo)

def createFolder (t : ThreadRef) (fuel : Nat) (path : Option Str) (perms : Permissions) :
    P (Except Error Unit) :=
  createAt K t fuel path fun tInfo =>
    .ok (initNode .directory (.folder (Directory.create 10)) perms tInfo)

/-- `CreateDeviceFile` does not look whether `GetDriver` found a driver. -/
def createDeviceFile (t : ThreadRef) (fuel : Nat) (path : Option Str) (perms : Permissions)
    (driverID subID : Nat) : P (Except Error Unit) :=
  createAt K t fuel path fun tInfo =>
    match K.drivers driverID with
    | none => .error .nullptr
    | some .block => .ok (initNode .deviceBlock (.device driverID subID) perms tInfo)
    | some .char => .ok (initNode .deviceChar (.device driverID subID) perms tInfo)

/-- `linkPath` is copied as it is. -/
def createSymLink (t : ThreadRef) (fuel : Nat) (path : Option Str) (permissions : Permissions)
    (linkPath : Str) : P (Except Error Unit) :=
  createAt K t fuel path fun tInfo => .ok (initNode .symlink (.symlink linkPath) permissions tInfo)

def createHardLink (t : ThreadRef) (fuel : Nat) (path : Option Str) (linkPath : Option Str) :
    P (Except Error Unit) := do
  onOk (← step (prepare 255 t linkPath)) fun cleanBuffer => do
    let tInfo ← step (getThread t)
    onOk (← acquirePath K tInfo true false fuel cleanBuffer) fun link =>
      match link.node with
      | none => step (M.stop .nullptr)
      | some linkFileNode => do
          if let some linkParentNode := link.parent then step (releaseNode linkParentNode true)
          if (← step (nodeType linkFileNode)) = .directory then do
            step (releaseNode linkFileNode true)
            step (releaseMountPoint link.mp true)
            fail .hardlinkToFolder
          else
            match ← step (prepare 255 t path) with
            | .error e => do
                step (releaseNode linkFileNode true)
                step (releaseMountPoint link.mp true)
                fail e
            | .ok cleanBuffer => do
                match ← acquirePath K tInfo false false fuel cleanBuffer with
                | .error e => do
                    step (releaseNode linkFileNode true)
                    step (releaseMountPoint link.mp true)
                    fail e
                | .ok a => do
                    match a.parent, a.node with
                    | none, none => step (M.stop .nullptr)
                    | none, some fileNode => do
                        step (releaseNode linkFileNode true)
                        step (releaseMountPoint link.mp true)
                        step (releaseNode fileNode true)
                        step (releaseMountPoint a.mp true)
                        fail .fileExists
                    | some parentNode, some fileNode => do
                        step (releaseNode linkFileNode true)
                        step (releaseMountPoint link.mp true)
                        step (releaseNode parentNode true)
                        step (releaseNode fileNode true)
                        step (releaseMountPoint a.mp true)
                        fail .fileExists
                    | some parentNode, none => do
                        if !(← step (permitted tInfo parentNode Permissions.write)) then do
                          step (releaseNode linkFileNode true)
                          step (releaseMountPoint link.mp true)
                          step (releaseNode parentNode true)
                          step (releaseMountPoint a.mp true)
                          fail .permissionDenied
                        else if a.mp ≠ link.mp then do
                          step (releaseNode linkFileNode true)
                          step (releaseMountPoint link.mp true)
                          step (releaseNode parentNode true)
                          step (releaseMountPoint a.mp true)
                          fail .hardlinkToDifferentFS
                        else do
                          step (modifyNode linkFileNode fun node =>
                            { node with linkCount := inc node.linkCount })
                          Prog.atomic (.addEntry parentNode a.path)
                            (addEntry parentNode a.path linkFileNode)
                          step (releaseNode parentNode true)
                          step (releaseMountPoint a.mp true)
                          step (releaseNode linkFileNode true)
                          step (releaseMountPoint link.mp true)
                          .ret (.ok ())

/-! ## Deleting entries -/

/-- `Delete`. Without the name in the parent it returns with that directory's lock held and
nothing released. -/
def delete (t : ThreadRef) (fuel : Nat) (path : Option Str) : P (Except Error Unit) := do
  onOk (← step (prepare 255 t path)) fun cleanBuffer => do
    let tInfo ← step (getThread t)
    onOk (← acquirePath K tInfo true true fuel cleanBuffer) fun a =>
      match a.parent, a.node with
      | _, none => step (M.stop .nullptr)
      | none, some fileNode => do
          step (releaseNode fileNode true)
          step (releaseMountPoint a.mp true)
          fail .deleteMountPoint
      | some parentNode, some fileNode => do
          if !(← step (permitted tInfo parentNode Permissions.write)) then do
            step (releaseNode parentNode true)
            step (releaseNode fileNode true)
            step (releaseMountPoint a.mp true)
            fail .permissionDenied
          else if ← Prog.atomic (.checkEmpty fileNode) (folderNotEmpty fileNode) then do
            step (releaseNode fileNode true)
            step (releaseNode parentNode true)
            step (releaseMountPoint a.mp true)
            fail .folderNotEmpty
          else do
            let fileName := getFileName a.buffer
            if ← Prog.atomic (.removeEntry parentNode fileName) (removeEntry parentNode fileName)
            then do
              step (modifyNode fileNode fun node => { node with linkCount := dec node.linkCount })
              step (releaseNode fileNode true)
              step (releaseNode parentNode true)
              step (releaseMountPoint a.mp true)
              .ret (.ok ())
            else fail .fileNotFound

/-! ## Attributes -/

/-- What `ChangeOwner` and `ChangePermissions` share: `f` is applied to the node at `path`, if
the thread is root or the owner. -/
def changeNode (t : ThreadRef) (fuel : Nat) (path : Option Str) (f : Node → Node) :
    P (Except Error Unit) := do
  onOk (← step (prepare 255 t path)) fun cleanBuffer => do
    let tInfo ← step (getThread t)
    onOk (← acquirePath K tInfo true false fuel cleanBuffer) fun a =>
      match a.node with
      | none => step (M.stop .nullptr)
      | some fileNode => do
          if let some folderNode := a.parent then step (releaseNode folderNode true)
          let node ← step (getNode fileNode)
          if tInfo.uid ≠ 0 ∧ tInfo.uid ≠ node.ownerUID then do
            step (releaseNode fileNode true)
            step (releaseMountPoint a.mp true)
            fail .permissionDenied
          else do
            step (modifyNode fileNode f)
            step (releaseNode fileNode true)
            step (releaseMountPoint a.mp true)
            .ret (.ok ())

def changeOwner (t : ThreadRef) (fuel : Nat) (path : Option Str) (newUID newGID : Nat) :
    P (Except Error Unit) :=
  changeNode K t fuel path fun node => { node with ownerUID := newUID, ownerGID := newGID }

def changePermissions (t : ThreadRef) (fuel : Nat) (path : Option Str)
    (permissions : Permissions) : P (Except Error Unit) :=
  changeNode K t fuel path fun node => { node with permissions }

/-- The union in `NodeStats`. -/
inductive StatsInfo
  | none
  | size (size : Nat)
  | linkPath (linkPath : Str)
  deriving DecidableEq, Repr

structure NodeStats where
  nodeID : Nat
  type : NodeType
  ownerGID : Nat
  ownerUID : Nat
  permissions : Permissions
  info : StatsInfo
  deriving DecidableEq, Repr

/-- The path of a link is copied without a look at its length. -/
def statsInfo (node : Node) : Except Stop StatsInfo :=
  match node.type, node.info with
  | .file, .file fileSize => .ok (.size fileSize)
  | .symlink, .symlink linkPath =>
      if linkPath.length < 255 then .ok (.linkPath linkPath) else .error .overflow
  | _, _ => .ok .none

/-- Fill in `outStats`. -/
def readStats (n : NodeRef) : M NodeStats := do
  let node ← getNode n
  let info ← M.lift (statsInfo node)
  pure {
    nodeID := node.id
    type := node.type
    ownerGID := node.ownerGID
    ownerUID := node.ownerUID
    permissions := node.permissions
    info }

def stat (t : ThreadRef) (fuel : Nat) (path : Option Str) (followSymlink : Bool) :
    P (Except Error NodeStats) := do
  onOk (← step (prepare 255 t path)) fun cleanBuffer => do
    let tInfo ← step (getThread t)
    onOk (← acquirePath K tInfo true (!followSymlink) fuel cleanBuffer) fun a =>
      match a.node with
      | none => step (M.stop .nullptr)
      | some fileNode => do
          if let some folderNode := a.parent then step (releaseNode folderNode true)
          let outStats ← step (readStats fileNode)
          step (releaseNode fileNode true)
          step (releaseMountPoint a.mp true)
          .ret (.ok outStats)

/-- The section of `List`: the names that are copied and the number of entries. The copy stops at
the first of the caller's entries that is not accessible. -/
def listEntries (n : NodeRef) (numEntries : Int) (valid : Nat → Bool) :
    M (Except Error (Int × List Str)) := do
  lockDir n
  let dir ← getNodeDir n
  let rem := if numEntries < 0 ∨ numEntries > dir.entries.length then dir.entries.length
    else numEntries.toNat
  unlockDir n
  if (List.range rem).all valid then
    pure (.ok (dir.entries.length, (dir.entries.take rem).map DirectoryEntry.name))
  else pure (.error .invalidBuffer)

def list (t : ThreadRef) (fuel : Nat) (path : Option Str) (numEntries : Int)
    (valid : Nat → Bool) : P (Except Error (Int × List Str)) := do
  onOk (← step (prepare 255 t path)) fun cleanBuffer => do
    let tInfo ← step (getThread t)
    onOk (← acquirePath K tInfo true false fuel cleanBuffer) fun a =>
      match a.node with
      | none => step (M.stop .nullptr)
      | some node => do
          if let some parentNode := a.parent then step (releaseNode parentNode true)
          if (← step (nodeType node)) ≠ .directory then do
            step (releaseNode node true)
            step (releaseMountPoint a.mp true)
            fail .notAFolder
          else if !(← step (permitted tInfo node Permissions.read)) then do
            step (releaseNode node true)
            step (releaseMountPoint a.mp true)
            fail .permissionDenied
          else do
            let out ← step (listEntries node numEntries valid)
            step (releaseNode node true)
            step (releaseMountPoint a.mp true)
            .ret out

/-! ## Descriptors -/

def openModeRead : UInt64 := 0x1
def openModeWrite : UInt64 := 0x2
def openModeCreate : UInt64 := 0x100
def openModeClear : UInt64 := 0x200
def openModeFailIfExist : UInt64 := 0x400

/-- The bit is set in the mode. -/
def hasMode (openMode bit : UInt64) : Bool := openMode &&& bit != 0

/-- Without the right to execute and without special flags. -/
def Permissions.ofFolder (p : Permissions) : Permissions where
  ownerPermissions := p.ownerPermissions &&& ~~~Permissions.execute
  groupPermissions := p.groupPermissions &&& ~~~Permissions.execute
  otherPermissions := p.otherPermissions &&& ~~~Permissions.execute
  specialFlags := 0

/-- `new FileDescriptor()` -/
def newDesc (desc : FileDescriptor) : M DescRef := fun s =>
  let d := s.descs.fresh K.alloc
  .ok (d, { s with descs := s.descs.store d desc })

/-- The end of `Open`, from the node on. -/
def openNode (tInfo : ThreadInfo) (mp : MountRef) (fileNode : NodeRef) (openMode : UInt64)
    (path : Str) : P (Except Error DescRef) := do
  let reqPerms := (openMode &&& (openModeRead ||| openModeWrite)).toUInt8
  if !(← step (permitted tInfo fileNode reqPerms)) then do
    step (releaseNode fileNode true)
    step (releaseMountPoint mp true)
    fail .permissionDenied
  else if (← step (nodeType fileNode)) = .directory then do
    step (releaseNode fileNode true)
    step (releaseMountPoint mp true)
    fail .openFolder
  else do
    if hasMode openMode openModeClear then
      step do
        let node ← getNode fileNode
        if node.type = .file then fsClearNodeData mp node.id
    step (releaseNode fileNode false)
    step (releaseMountPoint mp false)
    let d ← step (newDesc K
      { refCount := 1, node := fileNode, permissions := openMode.toUInt8, pos := 0, path })
    .ret (.ok d)

def «open» (t : ThreadRef) (fuel : Nat) (path : Option Str) (openMode : UInt64) :
    P (Except Error DescRef) := do
  onOk (← step (prepare 255 t path)) fun cleanBuffer => do
    let tInfo ← step (getThread t)
    onOk (← acquirePath K tInfo (!hasMode openMode openModeCreate) false fuel cleanBuffer) fun a =>
      match a.node, a.parent with
      | none, none => step (M.stop .nullptr)
      | none, some folderNode => do
          if !(← step (permitted tInfo folderNode Permissions.write)) then do
            step (releaseNode folderNode true)
            step (releaseMountPoint a.mp true)
            fail .permissionDenied
          else do
            let fileNode ← step do
              let folder ← getNode folderNode
              createNode K a.mp 1 (initNode .file (.file 0) folder.permissions.ofFolder tInfo)
            Prog.atomic (.addEntry folderNode a.path) (addEntry folderNode a.path fileNode)
            step (releaseNode folderNode true)
            openNode K tInfo a.mp fileNode openMode cleanBuffer
      | some fileNode, folderNode =>
          if hasMode openMode openModeFailIfExist then do
            if let some folderNode := folderNode then step (releaseNode folderNode true)
            step (releaseNode fileNode true)
            step (releaseMountPoint a.mp true)
            fail .fileExists
          else do
            if let some folderNode := folderNode then step (releaseNode folderNode true)
            openNode K tInfo a.mp fileNode openMode cleanBuffer

/-- The first lines of `Close`: the node and its mount, if this was the last reference. -/
def dropDesc (d : DescRef) : M (Option (NodeRef × MountRef)) := do
  modifyDesc d fun desc => { desc with refCount := dec desc.refCount }
  let desc ← getDesc d
  if desc.refCount = 0 then do
    let node ← getNode desc.node
    pure (some (desc.node, node.mp))
  else pure none

/-- `delete desc` -/
def deleteDesc (d : DescRef) : M Unit := fun s => .ok ((), { s with descs := s.descs.free d })

/-- `Close`; `none` is the null descriptor. -/
def close (desc : Option DescRef) : P (Except Error Unit) :=
  match desc with
  | none => fail .invalidFD
  | some d => do
      match ← step (dropDesc d) with
      | none => .ret (.ok ())
      | some (node, mp) => do
          step (releaseNode node true)
          step (releaseMountPoint mp true)
          step (deleteDesc d)
          .ret (.ok ())

def addRef (desc : Option DescRef) : P (Except Error Unit) :=
  match desc with
  | none => fail .invalidFD
  | some d => do
      step (modifyDesc d fun desc => { desc with refCount := inc desc.refCount })
      .ret (.ok ())

/-- `CreatePipe`. No reference is taken on the mount of the pipes. -/
def createPipe : P (DescRef × DescRef) := do
  let s ← step get
  let pipeNode ← step (createNode K s.pipeMount 2 fun node => { node with type := .pipe })
  let descRead ← step (newDesc K
    { refCount := 1, node := pipeNode, permissions := Permissions.read, pos := 0, path := [] })
  let descWrite ← step (newDesc K
    { refCount := 1, node := pipeNode, permissions := Permissions.write, pos := 0, path := [] })
  .ret (descRead, descWrite)

/-! ## Reading and writing -/

/-- The error code or count that a file system returns. -/
def retCode : PipeFS.Ret → Except Error Nat
  | .count n => .ok n
  | .invalidBuffer => .error .invalidBuffer

/-- The driver of a device. -/
def Node.driver (node : Node) : Option Nat :=
  match node.type, node.info with
  | .deviceChar, .device driverID _ | .deviceBlock, .device driverID _ => some driverID
  | _, _ => none

/-- `_Read`. `answer` is what the driver does when the node is a device; without a driver nothing
is read. -/
def readNodeData (n : NodeRef) (pos : Nat) (user : PipeFS.UserBuffer) (bufferSize : Nat)
    (answer : Except Error Nat × PipeFS.UserBuffer) : M (Except Error Nat × PipeFS.UserBuffer) := do
  let node ← getNode n
  match node.driver with
  | some driverID => pure (if (K.drivers driverID).isSome then answer else (.ok 0, user))
  | none => do
      let (ret, user) ← fsReadNodeData node.mp node.id pos user bufferSize
      pure (retCode ret, user)

/-- `_Write` -/
def writeNodeData (n : NodeRef) (pos : Nat) (user : PipeFS.UserBuffer) (bufferSize : Nat)
    (answer : Except Error Nat) : M (Except Error Nat) := do
  let node ← getNode n
  match node.driver with
  | some driverID => pure (if (K.drivers driverID).isSome then answer else .ok 0)
  | none => do
      let ret ← fsWriteNodeData K node.mp n node.id pos user bufferSize
      pure (retCode ret)

/-- `desc->pos.Write(pos + res)`, unless `res` is an error -/
def advancePos (d : DescRef) (pos : Nat) : Except Error Nat → M Unit
  | .ok n => modifyDesc d fun desc => { desc with pos := pos + n }
  | .error _ => pure ()

def read (desc : Option DescRef) (user : PipeFS.UserBuffer) (bufferSize : Nat)
    (answer : Except Error Nat × PipeFS.UserBuffer) :
    P (Except Error Nat × PipeFS.UserBuffer) :=
  match desc with
  | none => .ret (.error .invalidFD, user)
  | some d => do
      let desc ← step (getDesc d)
      if desc.permissions &&& Permissions.read == 0 then .ret (.error .permissionDenied, user)
      else do
        let (res, user) ← step (readNodeData K desc.node desc.pos user bufferSize answer)
        step (advancePos d desc.pos res)
        .ret (res, user)

def write (desc : Option DescRef) (user : PipeFS.UserBuffer) (bufferSize : Nat)
    (answer : Except Error Nat) : P (Except Error Nat) :=
  match desc with
  | none => fail .invalidFD
  | some d => do
      let desc ← step (getDesc d)
      if desc.permissions &&& Permissions.write == 0 then fail .permissionDenied
      else do
        let res ← step (writeNodeData K desc.node desc.pos user bufferSize answer)
        step (advancePos d desc.pos res)
        .ret res

/-- `SeekMode` -/
inductive SeekMode
  | set
  | rel
  | «end»
  deriving DecidableEq, Repr

/-- `node->infoFile.fileSize`: the first word of the union, whatever is in it. A pointer there
has no value that the model could give. -/
def fileSize (n : NodeRef) : M Nat := do
  let node ← getNode n
  match node.info with
  | .none => pure 0
  | .file fileSize => pure fileSize
  | .device driverID _ => pure driverID
  | _ => M.stop .fault

def seek (desc : Option DescRef) (mode : SeekMode) (offs : Nat) : P (Except Error Unit) :=
  match desc with
  | none => fail .invalidFD
  | some d => do
      let desc ← step (getDesc d)
      let size ← step (fileSize desc.node)
      let offs := if mode = .end then size else offs
      if offs > size then fail .seekOffsetOOB
      else do
        step (modifyDesc d fun desc => { desc with pos := offs })
        .ret (.ok ())

/-! ## Mounts and working directories -/

/-- `new MountPoint()` for the file system whose root is `rootNodeID`. It is told that it is
mounted at `mp`, its parent. -/
def newMountPoint (mp : MountRef) (path : Str) (rootNodeID : Nat) : M MountRef := fun s =>
  let newMP := s.mounts.fresh K.alloc
  .ok (newMP, { s with
    mounts := s.mounts.store newMP
      { parent := some mp, path, fs := .tempFS rootNodeID (some mp), rootNode := rootNodeID
        childMountLock := false, childMounts := [], nodeCacheLock := false, nodeCache := []
        refCount := 0 } })

/-- The part of `Mount` that links the new mount point into the tree. -/
def attach (mp : MountRef) (path : Str) (rootNodeID : Nat) : M Unit := do
  let newMP ← newMountPoint K mp path rootNodeID
  lockChildMounts mp
  modifyMount mp fun parent => { parent with childMounts := parent.childMounts ++ [newMP] }
  unlockChildMounts mp

/-- `Mount(mountPoint, "tempfs")` -/
def mount (t : ThreadRef) (fuel : Nat) (mountPoint : Option Str) : P (Except Error Unit) := do
  let rootNodeID ← step (TempFS.construct K)
  onOk (← step (prepare 255 t mountPoint)) fun cleanBuffer => do
    let tInfo ← step (getThread t)
    onOk (← acquirePath K tInfo true false fuel cleanBuffer) fun a =>
      match a.node, a.parent with
      | none, _ => step (M.stop .nullptr)
      | some fileNode, none => do
          step (releaseNode fileNode true)
          step (releaseMountPoint a.mp true)
          fail .folderAlreadyMounted
      | some fileNode, some folderNode => do
          step (releaseNode folderNode true)
          if (← step (nodeType fileNode)) ≠ .directory then do
            step (releaseNode fileNode true)
            step (releaseMountPoint a.mp true)
            fail .notAFolder
          else if !(← step (permitted tInfo fileNode Permissions.write)) then do
            step (releaseNode fileNode true)
            step (releaseMountPoint a.mp true)
            fail .permissionDenied
          else do
            step (releaseNode fileNode true)
            step (attach K a.mp a.buffer rootNodeID)
            step (releaseMountPoint a.mp false)
            .ret (.ok ())

/-- The section of `Unmount`: `mp` is taken out of the tree and deleted when this thread holds
its only reference. Nothing is given back to the parent. -/
def detach (m : MountRef) : M Bool := do
  let mp ← getMount m
  match mp.parent with
  | none => M.stop .nullptr
  | some parent => do
      lockChildMounts parent
      let mp ← getMount m
      if mp.refCount = 1 then do
        modifyMount parent fun mp => { mp with childMounts := mp.childMounts.erase m }
        unlockChildMounts parent
        fun s => .ok (true, { s with mounts := s.mounts.free m })
      else do
        unlockChildMounts parent
        pure false

def unmount (t : ThreadRef) (mountPoint : Option Str) : P (Except Error Unit) := do
  onOk (← step (prepare 255 t mountPoint)) fun cleanBuffer => do
    let m ← findMountPoint cleanBuffer
    let mp ← step (getMount m)
    let path := advancePath cleanBuffer mp.path
    let s ← step get
    if m = s.rootMount then do
      step (releaseMountPoint m true)
      fail .unmountRoot
    else if path ≠ [] then do
      step (releaseMountPoint m true)
      fail .notAMountPoint
    else if ← step (detach m) then .ret (.ok ())
    else do
      step (releaseMountPoint m true)
      fail .mountPointBusy

/-- `CD`. The permissions of the node are checked after it was released, and the buffer that
`AcquirePath` may have rewritten is stored. -/
def cd (t : ThreadRef) (fuel : Nat) (path : Option Str) : P (Except Error Unit) := do
  onOk (← step (prepare 256 t path)) fun pathBuffer => do
    let tInfo ← step (getThread t)
    onOk (← acquirePath K tInfo true false fuel pathBuffer) fun a =>
      match a.node with
      | none => step (M.stop .nullptr)
      | some node => do
          let type ← step (nodeType node)
          step (releaseNode node true)
          if let some parent := a.parent then step (releaseNode parent true)
          step (releaseMountPoint a.mp true)
          if type ≠ .directory then fail .notAFolder
          else if !(← step (permitted tInfo node Permissions.execute)) then fail .permissionDenied
          else do
            step fun s => .ok ((), { s with
              threads := fun t' => if t' = t then { s.threads t with cwd := a.buffer }
                else s.threads t' })
            .ret (.ok ())

end ChenixOS.VFS
