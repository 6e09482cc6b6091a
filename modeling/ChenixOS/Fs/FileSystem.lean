import ChenixOS.Fs.State

/-!
# File systems

The virtual functions of `fs/FileSystem.h` that the VFS calls, for `TempFS`
(`fs/tempfs/TempFS.cpp`) and `PipeFS` (`fs/pipefs/PipeFS.cpp`). A file system is reached through
the mount it is mounted at.
-/

namespace ChenixOS.VFS

variable (K : Kernel)

/-! ## TempFS -/

namespace TempFS

/-- The `TestNode` that the constructor makes for the root directory. -/
def rootTestNode : TestNode where
  type := .directory
  dir := some (Directory.create 10)
  linkRefCount := 1
  uid := 0
  gid := 0
  perms :=
    { ownerPermissions := Permissions.read ||| Permissions.write ||| Permissions.execute
      groupPermissions := Permissions.read ||| Permissions.execute
      otherPermissions := Permissions.read ||| Permissions.execute
      specialFlags := 0 }
  fileData := []

/-- `new TestNode()` -/
def newTestNode : TestNode where
  type := .file
  dir := none
  linkRefCount := 0
  uid := 0
  gid := 0
  perms := ⟨0, 0, 0, 0⟩
  fileData := []

/-- Allocate a `TestNode`. -/
def allocTestNode (node : TestNode) : M Nat := fun s =>
  let id := s.testNodes.fresh K.alloc
  .ok (id, { s with testNodes := s.testNodes.store id node, created := id :: s.created })

/-- `TempFS::TempFS`, returning `m_RootNodeID` -/
def construct : M Nat := allocTestNode K rootTestNode

/-- `TempFS::CreateNode`, returning the id of the new node -/
def createNode : M Nat := allocTestNode K newTestNode

def destroyNode (id : Nat) : M Unit := do
  let _ ← getTestNode id
  fun s => .ok ((), { s with testNodes := s.testNodes.free id, destroyed := id :: s.destroyed })

/-- `TempFS::ReadNode`. `m_MP` overwrites the mount that `AcquireNode` put into the node. -/
def readNode (m_MP : Option MountRef) (id : Nat) (node : Node) : M Node := do
  let refNode ← getTestNode id
  match m_MP with
  | none => M.stop .fault
  | some mp => pure { node with
      info := match refNode.dir with
        | some dir => .folder dir
        | none => .none
      mp
      id
      linkCount := refNode.linkRefCount
      type := refNode.type
      ownerGID := refNode.gid
      ownerUID := refNode.uid
      permissions := refNode.perms
      ready := true }

/-- The difference of two unsigned 64-bit numbers. -/
def sub64 (a b : Nat) : Nat := (a + 2 ^ 64 - b) % 2 ^ 64

/-- `TempFS::ReadNodeData`: how many bytes were read, or that the user's buffer is not
accessible. -/
def readNodeData (id pos : Nat) (user : PipeFS.UserBuffer) (bufferSize : Nat) :
    M (PipeFS.Ret × PipeFS.UserBuffer) := do
  let refNode ← getTestNode id
  let rem := sub64 refNode.fileData.length pos
  if rem = 0 then pure (.count 0, user)
  else
    let rem := if rem > bufferSize then bufferSize else rem
    if pos + rem > refNode.fileData.length then M.stop .fault
    else
      let k := PipeFS.copied user.valid 0 rem
      let user := { user with
        byte := Ring.overlay user.byte 0 k fun i => refNode.fileData.getD (pos + i) 0 }
      pure (if k = rem then .count rem else .invalidBuffer, user)

/-- The data of a file after `k` bytes of `user` were copied to position `pos`. -/
def patch (fileData : List UInt8) (pos k : Nat) (user : PipeFS.UserBuffer) : List UInt8 :=
  fileData.mapIdx fun i b => if pos ≤ i ∧ i < pos + k then user.byte (i - pos) else b

/-- The beginning of `TempFS::WriteNodeData`: a longer buffer, if the data does not fit. -/
def growNodeData (n : NodeRef) (id pos bufferSize : Nat) : M Unit := do
  let refNode ← getTestNode id
  let cap := sub64 refNode.fileData.length pos
  if cap < bufferSize then do
    let newData := refNode.fileData ++
      (List.range (pos + bufferSize - refNode.fileData.length)).map K.uninit
    modifyTestNode id fun node => { node with fileData := newData }
    modifyNode n fun node => { node with info := .file (pos + bufferSize) }

/-- `TempFS::WriteNodeData` -/
def writeNodeData (n : NodeRef) (id pos : Nat) (user : PipeFS.UserBuffer) (bufferSize : Nat) :
    M PipeFS.Ret := do
  growNodeData K n id pos bufferSize
  let refNode ← getTestNode id
  if pos + bufferSize > refNode.fileData.length ∧ 0 < bufferSize then M.stop .fault
  else do
    let k := PipeFS.copied user.valid 0 bufferSize
    modifyTestNode id fun node => { node with fileData := patch node.fileData pos k user }
    pure (if k = bufferSize then .count bufferSize else .invalidBuffer)

/-- `TempFS::ClearNodeData`. The size in the cached node is not touched. -/
def clearNodeData (id : Nat) : M Unit := modifyTestNode id fun node => { node with fileData := [] }

end TempFS

/-! ## The file system of a mount -/

/-- `mp->fs->CreateNode(node)`, returning `node->id` and `node->ready` -/
def fsCreateNode (m : MountRef) : M (Nat × Bool) := do
  let mp ← getMount m
  match mp.fs with
  | .tempFS _ _ => do
      let id ← TempFS.createNode K
      pure (id, true)
  | .pipeFS pipes => do
      modifyMount m fun mp => { mp with fs := .pipeFS (PipeFS.createNode pipes).2 }
      pure ((PipeFS.createNode pipes).1, false)

/-- `mp->fs->DestroyNode(node)` -/
def fsDestroyNode (m : MountRef) (id : Nat) : M Unit := do
  let mp ← getMount m
  match mp.fs with
  | .tempFS _ _ => TempFS.destroyNode id
  | .pipeFS pipes => do
      let pipes ← M.lift (PipeFS.destroyNode pipes id)
      modifyMount m fun mp => { mp with fs := .pipeFS pipes }

/-- `mp->fs->ReadNode(id, node)` -/
def fsReadNode (m : MountRef) (id : Nat) (node : Node) : M Node := do
  let mp ← getMount m
  match mp.fs with
  | .tempFS _ m_MP => TempFS.readNode m_MP id node
  | .pipeFS _ => pure node

/-- `mp->fs->ReadNodeData(node, pos, buffer, bufferSize)`. A read from an empty pipe waits. -/
def fsReadNodeData (m : MountRef) (id pos : Nat) (user : PipeFS.UserBuffer) (bufferSize : Nat) :
    M (PipeFS.Ret × PipeFS.UserBuffer) := do
  let mp ← getMount m
  match mp.fs with
  | .tempFS _ _ => TempFS.readNodeData id pos user bufferSize
  | .pipeFS pipes => do
      let (ret, pipes, user) ← M.lift (PipeFS.readPipe pipes id user bufferSize)
      modifyMount m fun mp => { mp with fs := .pipeFS pipes }
      if ret = .count 0 then M.stop .block else pure (ret, user)

/-- `mp->fs->WriteNodeData(node, pos, buffer, bufferSize)`. A write that does not fit into a
pipe waits for a reader. -/
def fsWriteNodeData (m : MountRef) (n : NodeRef) (id pos : Nat) (user : PipeFS.UserBuffer)
    (bufferSize : Nat) : M PipeFS.Ret := do
  let mp ← getMount m
  match mp.fs with
  | .tempFS _ _ => TempFS.writeNodeData K n id pos user bufferSize
  | .pipeFS pipes => do
      let (ret, pipes) ← M.lift (PipeFS.writePipe pipes id user bufferSize)
      modifyMount m fun mp => { mp with fs := .pipeFS pipes }
      if ret = .count bufferSize ∨ ret = .invalidBuffer then pure ret else M.stop .block

/-- `mp->fs->ClearNodeData(node)` -/
def fsClearNodeData (m : MountRef) (id : Nat) : M Unit := do
  let mp ← getMount m
  match mp.fs with
  | .tempFS _ _ => TempFS.clearNodeData id
  | .pipeFS _ => pure ()

end ChenixOS.VFS
