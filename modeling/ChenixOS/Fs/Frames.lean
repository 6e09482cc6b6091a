import ChenixOS.Fs.Runs
import ChenixOS.Lib.Walk

/-!
# What calls leave alone

An observation is `Blind` when it does not see locks, counters, entries, contents and descriptors. It is `Aloof`
when it looks neither at nodes, descriptors and files nor at what counters, locks and caches a mount has. Both
stay the same in most sections of the calls.
-/

namespace ChenixOS

namespace VFS

/-- What `Mount` and `Unmount` change of a mount. -/
structure Wire where
  parent : Option MountRef
  path : Str
  rootNode : Nat
  childMounts : List MountRef
  deriving DecidableEq

def MountPoint.wire (mp : MountPoint) : Wire := ⟨mp.parent, mp.path, mp.rootNode, mp.childMounts⟩

/-- How the mounts hang together. -/
structure Wiring where
  root : MountRef
  pipe : MountRef
  mount : MountRef → Option Wire

def State.wiring (s : State) : Wiring :=
  ⟨s.rootMount, s.pipeMount, fun m => (s.mounts.cell m).map MountPoint.wire⟩

variable {γ : Type} {s : State} {m : MountRef}

/-- `g` sees of a node or a `TestNode` its type and its links, and of a mount how it hangs together. -/
structure Blind (g : State → γ) : Prop where
  mount : ∀ m (f : MountPoint → MountPoint), (∀ mp, (f mp).wire = mp.wire) → Fixes g (modifyMount m f)
  node : ∀ n (f : Node → Node), (∀ node, (f node).type = node.type ∧ (f node).linkCount = node.linkCount) →
    Fixes g (modifyNode n f)
  test : ∀ id (f : TestNode → TestNode), (∀ tn, (f tn).type = tn.type ∧ (f tn).linkRefCount = tn.linkRefCount) →
    Fixes g (modifyTestNode id f)
  desc : ∀ d f, Fixes g (modifyDesc d f)
  newDesc : ∀ K desc, Fixes g (newDesc K desc)
  deleteDesc : ∀ d, Fixes g (deleteDesc d)

/-- `g` looks at no more than the wiring and the threads. -/
structure Aloof (g : State → γ) : Prop where
  congr : ∀ s s' : State, s'.wiring = s.wiring → s'.threads = s.threads → g s' = g s

theorem aloof_wiring : Aloof State.wiring := ⟨fun _ _ h _ => h⟩

theorem wiring_updMount {f : MountPoint → MountPoint} (hf : ∀ mp, (f mp).wire = mp.wire) :
    (s.updMount m f).wiring = s.wiring := by
  unfold State.wiring
  congr 1
  funext m'
  by_cases heq : m' = m
  · subst heq
    simp [Option.map_map, Function.comp_def, hf]
  · simp [heq]

end VFS

/-! ## Accesses -/

namespace Fixes

open VFS

variable {γ α : Type} {g : State → γ}

theorem getNode (n : NodeRef) : Fixes g (VFS.getNode n) := fun s b s' h => by
  obtain ⟨-, rfl⟩ := getNode_eq_ok h
  rfl

theorem getMount (m : MountRef) : Fixes g (VFS.getMount m) := fun s b s' h => by
  obtain ⟨-, rfl⟩ := getMount_eq_ok h
  rfl

theorem getDesc (d : DescRef) : Fixes g (VFS.getDesc d) := fun s b s' h => by
  obtain ⟨-, rfl⟩ := getDesc_eq_ok h
  rfl

theorem getTestNode (id : Nat) : Fixes g (VFS.getTestNode id) := fun s b s' h => by
  obtain ⟨-, rfl⟩ := getTestNode_eq_ok h
  rfl

theorem getThread (t : ThreadRef) : Fixes g (VFS.getThread t) := fun s b s' h => by
  cases h
  rfl

theorem get : Fixes g (MonadState.get : M State) := fun s b s' h => by
  cases h
  rfl

theorem lift (r : Except Stop α) : Fixes g (M.lift r) := fun s b s' h => by
  obtain ⟨-, rfl⟩ := lift_eq_ok h
  rfl

theorem stop (e : Stop) : Fixes g (M.stop e : M α) := Fixes.error fun _ => ⟨e, rfl⟩

theorem fsReadNode (m : MountRef) (id : Nat) (node : Node) : Fixes g (VFS.fsReadNode m id node) := by
  refine .bind (.getMount m) fun mp => ?_
  cases mp.fs with
  | tempFS r m_MP =>
    refine .bind (.getTestNode id) fun _ => ?_
    cases m_MP with
    | none => exact .stop _
    | some mp => exact .pure _
  | pipeFS pipes => exact .pure _

theorem firstMatch (path : Str) (childMounts : List MountRef) : Fixes g (VFS.firstMatch path childMounts) := by
  induction childMounts with
  | nil => exact .pure _
  | cons c childMounts ih => exact .bind (.getMount c) fun _ => .ite (.pure _) ih

theorem findCached (id : Nat) (cache : List NodeRef) : Fixes g (VFS.findCached id cache) := by
  induction cache with
  | nil => exact .pure _
  | cons n cache ih => exact .bind (.getNode n) fun _ => .ite (.pure _) ih

theorem getNodeDir (n : NodeRef) : Fixes g (VFS.getNodeDir n) := by
  refine .bind (.getNode n) fun node => .bind (.getMount _) fun _ => ?_
  cases node.info with
  | folder dir => exact .pure _
  | none | file fileSize | device driverID subID | symlink linkPath => exact .stop _

theorem permitted (tInfo : ThreadInfo) (n : NodeRef) (reqPerms : UInt8) :
    Fixes g (VFS.permitted tInfo n reqPerms) := .bind (.getNode n) fun _ => .pure _

theorem nodeType (n : NodeRef) : Fixes g (VFS.nodeType n) := .bind (.getNode n) fun _ => .pure _

theorem readLink (n : NodeRef) : Fixes g (VFS.readLink n) := by
  refine .bind (.getNode n) fun node => ?_
  cases node.info with
  | symlink linkPath => exact .pure _
  | none | file fileSize | device driverID subID | folder dir => exact .stop _

theorem prepare (bufSize : Nat) (t : ThreadRef) (userPath : Option Str) :
    Fixes g (VFS.prepare bufSize t userPath) := .bind (.getThread t) fun _ => .lift _

theorem readStats (n : NodeRef) : Fixes g (VFS.readStats n) :=
  .bind (.getNode n) fun _ => .bind (.lift _) fun _ => .pure _

theorem fileSize (n : NodeRef) : Fixes g (VFS.fileSize n) := by
  refine .bind (.getNode n) fun node => ?_
  cases node.info with
  | none | file fileSize | device driverID subID => exact .pure _
  | symlink linkPath | folder dir => exact .stop _

end Fixes

namespace VFS

variable {γ : Type} {g : State → γ} {K : Kernel}

namespace Blind

variable (hg : Blind g)
include hg

/-! ## Locks -/

theorem lockDir (n : NodeRef) : Fixes g (lockDir n) :=
  .bind (.getNode n) fun _ => .ite (.stop _) (hg.node n _ fun _ => ⟨rfl, rfl⟩)

theorem unlockDir (n : NodeRef) : Fixes g (unlockDir n) := hg.node n _ fun _ => ⟨rfl, rfl⟩

theorem lockNodeCache (m : MountRef) : Fixes g (lockNodeCache m) :=
  .bind (.getMount m) fun _ => .ite (.stop _) (hg.mount m _ fun _ => rfl)

theorem unlockNodeCache (m : MountRef) : Fixes g (unlockNodeCache m) :=
  hg.mount m _ fun _ => rfl

theorem lockChildMounts (m : MountRef) : Fixes g (lockChildMounts m) :=
  .bind (.getMount m) fun _ => .ite (.stop _) (hg.mount m _ fun _ => rfl)

theorem unlockChildMounts (m : MountRef) : Fixes g (unlockChildMounts m) :=
  hg.mount m _ fun _ => rfl

/-! ## Contents -/

theorem fsReadNodeData (m : MountRef) (id pos : Nat) (user : PipeFS.UserBuffer) (bufferSize : Nat) :
    Fixes g (fsReadNodeData m id pos user bufferSize) := by
  refine .bind (.getMount m) fun mp => ?_
  cases mp.fs with
  | tempFS r m_MP =>
    refine .bind (.getTestNode id) fun _ => .ite (.pure _) ?_
    exact .ite (.stop _) (.pure _)
  | pipeFS pipes =>
    refine .bind (.lift _) fun _ => .bind (hg.mount m _ fun _ => rfl) fun _ => ?_
    exact .ite (.stop _) (.pure _)

theorem growNodeData (n : NodeRef) (id pos bufferSize : Nat) :
    Fixes g (TempFS.growNodeData K n id pos bufferSize) :=
  .bind (.getTestNode id) fun _ =>
    .ite (.bind (hg.test id _ fun _ => ⟨rfl, rfl⟩) fun _ => hg.node n _ fun _ => ⟨rfl, rfl⟩) (.pure _)

theorem fsWriteNodeData (m : MountRef) (n : NodeRef) (id pos : Nat) (user : PipeFS.UserBuffer)
    (bufferSize : Nat) : Fixes g (fsWriteNodeData K m n id pos user bufferSize) := by
  refine .bind (.getMount m) fun mp => ?_
  cases mp.fs with
  | tempFS r m_MP =>
    refine .bind (hg.growNodeData n id pos bufferSize) fun _ => .bind (.getTestNode id) fun _ => ?_
    exact .ite (.stop _) (.bind (hg.test id _ fun _ => ⟨rfl, rfl⟩) fun _ => .pure _)
  | pipeFS pipes =>
    refine .bind (.lift _) fun _ => .bind (hg.mount m _ fun _ => rfl) fun _ => ?_
    exact .ite (.pure _) (.stop _)

theorem fsClearNodeData (m : MountRef) (id : Nat) : Fixes g (fsClearNodeData m id) := by
  refine .bind (.getMount m) fun mp => ?_
  cases mp.fs with
  | tempFS r m_MP => exact hg.test id _ fun _ => ⟨rfl, rfl⟩
  | pipeFS pipes => exact .pure _

theorem readNodeData (n : NodeRef) (pos : Nat) (user : PipeFS.UserBuffer) (bufferSize : Nat)
    (answer : Except Error Nat × PipeFS.UserBuffer) :
    Fixes g (readNodeData K n pos user bufferSize answer) := by
  refine .bind (.getNode n) fun node => ?_
  cases node.driver with
  | none => exact .bind (hg.fsReadNodeData _ _ _ _ _) fun _ => .pure _
  | some driverID => exact .pure _

theorem writeNodeData (n : NodeRef) (pos : Nat) (user : PipeFS.UserBuffer) (bufferSize : Nat)
    (answer : Except Error Nat) : Fixes g (writeNodeData K n pos user bufferSize answer) := by
  refine .bind (.getNode n) fun node => ?_
  cases node.driver with
  | none => exact .bind (hg.fsWriteNodeData _ _ _ _ _ _) fun _ => .pure _
  | some driverID => exact .pure _

/-! ## Mounts, directories and descriptors -/

theorem findChild (path : Str) (m : MountRef) : Fixes g (findChild path m) := by
  refine .bind (hg.lockChildMounts m) fun _ => .bind (.getMount m) fun mp =>
    .bind (.firstMatch path _) fun o => ?_
  cases o with
  | none => exact .bind (hg.unlockChildMounts m) fun _ => .pure _
  | some c =>
    refine .bind (hg.mount c _ fun _ => rfl) fun _ => .bind (hg.unlockChildMounts m) fun _ =>
      .bind .get fun s => ?_
    exact .ite (.bind (hg.mount m _ fun _ => rfl) fun _ => .pure _) (.pure _)

theorem releaseMountPoint (m : MountRef) (decrement : Bool) : Fixes g (releaseMountPoint m decrement) :=
  .bind .get fun _ => .ite (hg.mount m _ fun _ => rfl) (.pure _)

theorem lookup (tInfo : ThreadInfo) (n : NodeRef) (path : Str) : Fixes g (lookup tInfo n path) := by
  refine .bind (.getNode n) fun _ => .ite (.pure _) (.ite (.pure _) ?_)
  refine .bind (hg.lockDir n) fun _ => .bind (.getNodeDir n) fun dir =>
    .bind (hg.unlockDir n) fun _ => ?_
  cases Directory.findEntry path dir.entries with
  | none => exact .pure _
  | some p => exact .pure _

theorem folderNotEmpty (n : NodeRef) : Fixes g (folderNotEmpty n) :=
  .bind (.getNode n) fun _ => .ite (.bind (hg.lockDir n) fun _ => .bind (.getNodeDir n) fun _ =>
    .bind (hg.unlockDir n) fun _ => .pure _) (.pure _)

theorem listEntries (n : NodeRef) (numEntries : Int) (valid : Nat → Bool) :
    Fixes g (listEntries n numEntries valid) :=
  .bind (hg.lockDir n) fun _ => .bind (.getNodeDir n) fun _ => .bind (hg.unlockDir n) fun _ =>
    .ite (.pure _) (.pure _)

theorem addEntry (n : NodeRef) (name : Str) (child : NodeRef) : Fixes g (addEntry n name child) :=
  .bind (hg.lockDir n) fun _ => .bind (.getNodeDir n) fun _ => .bind (.getNode child) fun _ =>
    .bind (.lift _) fun _ => .bind (hg.node n _ fun _ => ⟨rfl, rfl⟩) fun _ => hg.unlockDir n

theorem removeEntry (n : NodeRef) (fileName : Str) : Fixes g (removeEntry n fileName) := by
  refine .bind (hg.lockDir n) fun _ => .bind (.getNodeDir n) fun dir => ?_
  cases dir.entries.findIdx? fun e => e.name = fileName with
  | none => exact .pure _
  | some i => exact .bind (hg.node n _ fun _ => ⟨rfl, rfl⟩) fun _ => .bind (hg.unlockDir n) fun _ => .pure _

theorem dropDesc (d : DescRef) : Fixes g (dropDesc d) :=
  .bind (hg.desc d _) fun _ => .bind (.getDesc d) fun _ =>
    .ite (.bind (.getNode _) fun _ => .pure _) (.pure _)

end Blind

namespace Aloof

variable (hg : Aloof g)
include hg

theorem modifyNode (n : NodeRef) (f : Node → Node) : Fixes g (modifyNode n f) := fun s b s' h => by
  obtain ⟨node, -, rfl⟩ := modifyNode_eq_ok h
  exact hg.congr _ _ rfl rfl

theorem blind : Blind g where
  mount m f hf s b s' h := by
    obtain rfl := modifyMount_eq_ok h
    exact hg.congr _ _ (wiring_updMount hf) rfl
  node n f _ := hg.modifyNode n f
  test id f _ s b s' h := by
    obtain rfl := modifyTestNode_eq_ok h
    exact hg.congr _ _ rfl rfl
  desc d f s b s' h := by
    obtain ⟨desc, -, rfl⟩ := modifyDesc_eq_ok h
    exact hg.congr _ _ rfl rfl
  newDesc K desc s b s' h := by
    cases h
    exact hg.congr _ _ rfl rfl
  deleteDesc d s b s' h := by
    cases h
    exact hg.congr _ _ rfl rfl

/-! ## Nodes that come and go -/

theorem allocTestNode (node : TestNode) : Fixes g (TempFS.allocTestNode K node) := fun s b s' h => by
  cases h
  exact hg.congr _ _ rfl rfl

theorem destroyNode (id : Nat) : Fixes g (TempFS.destroyNode id) :=
  .bind (.getTestNode id) fun _ s b s' h => by
    cases h
    exact hg.congr _ _ rfl rfl

theorem fsCreateNode (m : MountRef) : Fixes g (fsCreateNode K m) := by
  refine .bind (.getMount m) fun mp => ?_
  cases mp.fs with
  | tempFS r m_MP => exact .bind (hg.allocTestNode _) fun _ => .pure _
  | pipeFS pipes => exact .bind (hg.blind.mount m _ fun _ => rfl) fun _ => .pure _

theorem fsDestroyNode (m : MountRef) (id : Nat) : Fixes g (fsDestroyNode m id) := by
  refine .bind (.getMount m) fun mp => ?_
  cases mp.fs with
  | tempFS r m_MP => exact hg.destroyNode id
  | pipeFS pipes => exact .bind (.lift _) fun _ => hg.blind.mount m _ fun _ => rfl

theorem newNode (id : Nat) (m : MountRef) (refCount : Nat) (ready : Bool) :
    Fixes g (newNode K id m refCount ready) := fun s b s' h => by
  cases h
  exact hg.congr _ _ rfl rfl

theorem acquireNode (m : MountRef) (id : Nat) : Fixes g (acquireNode K m id) := by
  refine .bind (hg.blind.lockNodeCache m) fun _ => .bind (.getMount m) fun mp =>
    .bind (.findCached id _) fun o => ?_
  cases o with
  | some n =>
    refine .bind (hg.modifyNode n _) fun _ => .bind (hg.blind.unlockNodeCache m) fun _ =>
      .bind (.getNode n) fun _ => ?_
    exact .ite (.pure _) (.stop _)
  | none =>
    refine .bind (hg.newNode id m 1 false) fun n => .bind (hg.blind.mount m _ fun _ => rfl) fun _ =>
      .bind (hg.blind.unlockNodeCache m) fun _ => .bind (.getNode n) fun _ => ?_
    exact .bind (.fsReadNode m id _) fun _ => .bind (hg.modifyNode n _) fun _ => .pure _

theorem releaseNode (n : NodeRef) (decrement : Bool) : Fixes g (releaseNode n decrement) := by
  have hfree : ∀ node : Node, Fixes g (do
      let node ← VFS.getNode n
      if node.refCount = 0 ∧ node.linkCount = 0 then do
        VFS.modifyMount node.mp fun mp => { mp with nodeCache := mp.nodeCache.erase n }
        VFS.unlockNodeCache node.mp
        VFS.fsDestroyNode node.mp node.id
        fun s => .ok ((), { s with nodes := s.nodes.free n })
      else VFS.unlockNodeCache node.mp : M Unit) := by
    intro node
    refine .bind (.getNode n) fun node => .ite ?_ (hg.blind.unlockNodeCache _)
    refine .bind (hg.blind.mount _ _ fun _ => rfl) fun _ => .bind (hg.blind.unlockNodeCache _) fun _ =>
      .bind (hg.fsDestroyNode _ _) fun _ s b s' h => ?_
    cases h
    exact hg.congr _ _ rfl rfl
  refine .bind (.getNode n) fun node => .bind (hg.blind.lockNodeCache _) fun _ => ?_
  cases decrement with
  | true => exact .bind (hg.modifyNode n _) fun _ => hfree node
  | false => exact hfree node

theorem createNode (m : MountRef) (softRefs : Nat) (init : Node → Node) :
    Fixes g (createNode K m softRefs init) :=
  .bind (hg.fsCreateNode m) fun _ => .bind (hg.newNode _ _ _ _) fun n =>
    .bind (hg.blind.lockNodeCache m) fun _ => .bind (hg.blind.mount m _ fun _ => rfl) fun _ =>
    .bind (hg.blind.unlockNodeCache m) fun _ => .bind (hg.modifyNode n _) fun _ => .pure _

end Aloof

end VFS

end ChenixOS
