import ChenixOS.Fs.Operations

/-!
# What the actions compute

For each atomic action of the file system: its outcome in a state in which the objects it
touches exist and the locks it takes are free. A section that takes a lock and gives it back
leaves no trace of the lock.
-/

namespace ChenixOS.VFS

variable {K : Kernel} {s : State} {n : NodeRef} {m : MountRef} {d : DescRef} {id : Nat}
  {node : Node} {mp : MountPoint} {desc : FileDescriptor} {tn : TestNode}

/-! ## Updates -/

section Updates

variable (s) (n) (m) (f : Node → Node) (g : MountPoint → MountPoint)

@[simp] theorem updNode_nodes : (s.updNode n f).nodes = s.nodes.modify n f := rfl
@[simp] theorem updNode_mounts : (s.updNode n f).mounts = s.mounts := rfl
@[simp] theorem updNode_descs : (s.updNode n f).descs = s.descs := rfl
@[simp] theorem updNode_testNodes : (s.updNode n f).testNodes = s.testNodes := rfl
@[simp] theorem updNode_rootMount : (s.updNode n f).rootMount = s.rootMount := rfl
@[simp] theorem updNode_pipeMount : (s.updNode n f).pipeMount = s.pipeMount := rfl
@[simp] theorem updNode_created : (s.updNode n f).created = s.created := rfl
@[simp] theorem updNode_destroyed : (s.updNode n f).destroyed = s.destroyed := rfl

@[simp] theorem updMount_nodes : (s.updMount m g).nodes = s.nodes := rfl
@[simp] theorem updMount_mounts : (s.updMount m g).mounts = s.mounts.modify m g := rfl
@[simp] theorem updMount_descs : (s.updMount m g).descs = s.descs := rfl
@[simp] theorem updMount_testNodes : (s.updMount m g).testNodes = s.testNodes := rfl
@[simp] theorem updMount_rootMount : (s.updMount m g).rootMount = s.rootMount := rfl
@[simp] theorem updMount_pipeMount : (s.updMount m g).pipeMount = s.pipeMount := rfl
@[simp] theorem updMount_created : (s.updMount m g).created = s.created := rfl
@[simp] theorem updMount_destroyed : (s.updMount m g).destroyed = s.destroyed := rfl

theorem updNode_updNode (f' : Node → Node) :
    (s.updNode n f).updNode n f' = s.updNode n (f' ∘ f) := by
  unfold State.updNode
  rw [Heap.modify_modify]

theorem updMount_updMount (g' : MountPoint → MountPoint) :
    (s.updMount m g).updMount m g' = s.updMount m (g' ∘ g) := by
  unfold State.updMount
  rw [Heap.modify_modify]

/-- Updates of a node and of a mount commute. -/
theorem updNode_updMount :
    (s.updMount m g).updNode n f = (s.updNode n f).updMount m g := rfl

end Updates

theorem updNode_eq_self {f : Node → Node} (hn : s.nodes.cell n = some node)
    (hf : f node = node) : s.updNode n f = s := by
  unfold State.updNode
  rw [Heap.modify_eq_self fun v hv => by rw [hn] at hv; cases hv; exact hf]

theorem updMount_eq_self {g : MountPoint → MountPoint} (hm : s.mounts.cell m = some mp)
    (hg : g mp = mp) : s.updMount m g = s := by
  unfold State.updMount
  rw [Heap.modify_eq_self fun v hv => by rw [hm] at hv; cases hv; exact hg]

theorem updNode_congr {f f' : Node → Node} (hn : s.nodes.cell n = some node)
    (hf : f node = f' node) : s.updNode n f = s.updNode n f' := by
  have hcell : s.nodes.modify n f = s.nodes.modify n f' :=
    Heap.modify_congr fun v hv => by rw [hn] at hv; cases hv; exact hf
  unfold State.updNode
  rw [hcell]

theorem updMount_congr {g g' : MountPoint → MountPoint} (hm : s.mounts.cell m = some mp)
    (hg : g mp = g' mp) : s.updMount m g = s.updMount m g' := by
  have hcell : s.mounts.modify m g = s.mounts.modify m g' :=
    Heap.modify_congr fun v hv => by rw [hm] at hv; cases hv; exact hg
  unfold State.updMount
  rw [hcell]

/-! ## Accesses -/

theorem getNode_ok (h : s.nodes.cell n = some node) : getNode n s = .ok (node, s) := by
  simp [getNode, h]

theorem modifyNode_ok (h : s.nodes.cell n = some node) (f : Node → Node) :
    modifyNode n f s = .ok ((), s.updNode n f) := by
  simp [modifyNode, h]

theorem getMount_ok (h : s.mounts.cell m = some mp) : getMount m s = .ok (mp, s) := by
  simp [getMount, h]

theorem modifyMount_ok (h : s.mounts.cell m = some mp) (g : MountPoint → MountPoint) :
    modifyMount m g s = .ok ((), s.updMount m g) := by
  simp [modifyMount, h]

theorem getDesc_ok (h : s.descs.cell d = some desc) : getDesc d s = .ok (desc, s) := by
  simp [getDesc, h]

theorem modifyDesc_ok (h : s.descs.cell d = some desc) (f : FileDescriptor → FileDescriptor) :
    modifyDesc d f s = .ok ((), s.updDesc d f) := by
  simp [modifyDesc, h]

theorem getTestNode_ok (h : s.testNodes.cell id = some tn) :
    getTestNode id s = .ok (tn, s) := by
  simp [getTestNode, h]

theorem modifyTestNode_ok (h : s.testNodes.cell id = some tn) (f : TestNode → TestNode) :
    modifyTestNode id f s = .ok ((), s.updTestNode id f) := by
  simp [modifyTestNode, h]

theorem get_ok : (get : M State) s = .ok (s, s) := rfl

/-! ## Locks -/

theorem lockDir_ok (h : s.nodes.cell n = some node) (hl : node.dirLock = false) :
    lockDir n s = .ok ((), s.updNode n fun node => { node with dirLock := true }) := by
  unfold lockDir
  rw [M.bind_ok (getNode_ok h), hl]
  exact modifyNode_ok h _

theorem lockNodeCache_ok (h : s.mounts.cell m = some mp) (hl : mp.nodeCacheLock = false) :
    lockNodeCache m s = .ok ((), s.updMount m fun mp => { mp with nodeCacheLock := true }) := by
  unfold lockNodeCache
  rw [M.bind_ok (getMount_ok h), hl]
  exact modifyMount_ok h _

theorem lockChildMounts_ok (h : s.mounts.cell m = some mp) (hl : mp.childMountLock = false) :
    lockChildMounts m s =
      .ok ((), s.updMount m fun mp => { mp with childMountLock := true }) := by
  unfold lockChildMounts
  rw [M.bind_ok (getMount_ok h), hl]
  exact modifyMount_ok h _

/-! ## Sections on a directory -/

/-- The section that only reads the entries: the directory, with the lock taken and given back. -/
theorem readDir_ok {dir : Directory} (hn : s.nodes.cell n = some node)
    (hl : node.dirLock = false) (hm : s.mounts.cell node.mp = some mp)
    (hdir : node.info = .folder dir) {α : Type} (k : Directory → M α) :
    (do
      lockDir n
      let dir ← getNodeDir n
      unlockDir n
      k dir : M α) s = k dir s := by
  have hn' : (s.updNode n fun node => { node with dirLock := true }).nodes.cell n =
      some { node with dirLock := true } := by simp [hn]
  have hget : getNodeDir n (s.updNode n fun node => { node with dirLock := true }) =
      .ok (dir, s.updNode n fun node => { node with dirLock := true }) := by
    unfold getNodeDir
    rw [M.bind_ok (getNode_ok hn'), M.bind_ok (getMount_ok (by simpa using hm))]
    simp only [hdir]
    rfl
  have hback : (s.updNode n fun node => { node with dirLock := true }).updNode n
      (fun node => { node with dirLock := false }) = s := by
    rw [updNode_updNode]
    refine updNode_eq_self hn ?_
    cases node
    simp_all
  rw [M.bind_ok (lockDir_ok hn hl), M.bind_ok hget, unlockDir, M.bind_ok (modifyNode_ok hn' _),
    hback]

/-- What a round of `_AcquirePathRec` finds in a node. -/
def lookupIn (tInfo : ThreadInfo) (node : Node) (path : Str) : Lookup :=
  if node.type ≠ .directory then .notADirectory
  else if !checkPermissions tInfo.uid tInfo.gid node Permissions.execute then .denied
  else
    match Directory.findEntry path node.entries with
    | some (nodeID, rest) => .found nodeID rest
    | none => .absent

theorem lookup_ok (tInfo : ThreadInfo) (path : Str) (hn : s.nodes.cell n = some node)
    (hl : node.dirLock = false) (hm : s.mounts.cell node.mp = some mp)
    (hdir : node.type = .directory → ∃ dir, node.info = .folder dir) :
    lookup tInfo n path s = .ok (lookupIn tInfo node path, s) := by
  unfold lookup lookupIn
  rw [M.bind_ok (getNode_ok hn)]
  by_cases htype : node.type = .directory
  · obtain ⟨dir, hdir⟩ := hdir htype
    have hentries : node.entries = dir.entries := by simp [Node.entries, hdir]
    simp only [htype, ne_eq, not_true_eq_false, if_false]
    by_cases hperm : checkPermissions tInfo.uid tInfo.gid node Permissions.execute = true
    · simp only [hperm, Bool.not_true, Bool.false_eq_true, if_false]
      rw [readDir_ok hn hl hm hdir, hentries]
      cases Directory.findEntry path dir.entries <;> rfl
    · simp only [hperm, Bool.not_false, if_true]
      rfl
  · simp only [htype, ne_eq, not_false_eq_true, if_true]
    rfl

theorem folderNotEmpty_ok (hn : s.nodes.cell n = some node) (hl : node.dirLock = false)
    (hm : s.mounts.cell node.mp = some mp)
    (hdir : node.type = .directory → ∃ dir, node.info = .folder dir)
    (hfile : node.type ≠ .directory → node.entries = []) :
    folderNotEmpty n s = .ok (decide (node.entries ≠ []), s) := by
  unfold folderNotEmpty
  rw [M.bind_ok (getNode_ok hn)]
  by_cases htype : node.type = .directory
  · obtain ⟨dir, hdir⟩ := hdir htype
    have hentries : node.entries = dir.entries := by simp [Node.entries, hdir]
    rw [if_pos htype, readDir_ok hn hl hm hdir, hentries]
    simp [List.length_eq_zero_iff]
  · rw [if_neg htype, hfile htype]
    rfl

theorem getNodeDir_ok {dir : Directory} (hn : s.nodes.cell n = some node)
    (hm : s.mounts.cell node.mp = some mp) (hdir : node.info = .folder dir) :
    getNodeDir n s = .ok (dir, s) := by
  unfold getNodeDir
  rw [M.bind_ok (getNode_ok hn), M.bind_ok (getMount_ok hm)]
  simp only [hdir]
  rfl

/-- The new entry is in the directory, unless its name is too long. -/
theorem addEntry_eq {dir : Directory} {child : NodeRef} {c : Node} (name : Str)
    (hn : s.nodes.cell n = some node) (hl : node.dirLock = false)
    (hm : s.mounts.cell node.mp = some mp) (hdir : node.info = .folder dir)
    (hc : s.nodes.cell child = some c) :
    addEntry n name child s = (dir.addEntry name c.id >>= fun dir =>
      .ok ((), s.updNode n fun node => { node with info := .folder dir })) := by
  set s₁ := s.updNode n fun node => { node with dirLock := true } with hs₁
  have hn₁ : s₁.nodes.cell n = some { node with dirLock := true } := by simp [hs₁, hn]
  have hm₁ : s₁.mounts.cell node.mp = some mp := hm
  obtain ⟨c₁, hc₁, hid⟩ : ∃ c₁, s₁.nodes.cell child = some c₁ ∧ c₁.id = c.id := by
    by_cases hchild : child = n
    · subst hchild
      rw [hn, Option.some.injEq] at hc
      exact ⟨_, hn₁, by rw [← hc]⟩
    · exact ⟨c, by simp [hs₁, hchild, hc], rfl⟩
  unfold addEntry
  rw [M.bind_ok (lockDir_ok hn hl), M.bind_ok (getNodeDir_ok hn₁ hm₁ hdir),
    M.bind_ok (getNode_ok hc₁), hid]
  cases hadd : dir.addEntry name c.id with
  | error e => rfl
  | ok dir' =>
    have hn₂ : (s₁.updNode n fun node => { node with info := .folder dir' }).nodes.cell n =
        some { node with dirLock := true, info := .folder dir' } := by simp [hn₁]
    have hlift : M.lift (.ok dir') s₁ = .ok (dir', s₁) := rfl
    have hback : (s₁.updNode n fun node => { node with info := .folder dir' }).updNode n
        (fun node => { node with dirLock := false }) =
        s.updNode n fun node => { node with info := .folder dir' } := by
      rw [hs₁, updNode_updNode, updNode_updNode]
      refine updNode_congr hn ?_
      simp [hl]
    rw [M.bind_ok hlift, M.bind_ok (modifyNode_ok hn₁ _), unlockDir, modifyNode_ok hn₂, hback]
    rfl

theorem removeEntry_ok {dir : Directory} {fileName : Str} {i : Nat}
    (hn : s.nodes.cell n = some node) (hl : node.dirLock = false)
    (hm : s.mounts.cell node.mp = some mp) (hdir : node.info = .folder dir)
    (hi : dir.entries.findIdx? (fun e => e.name = fileName) = some i) :
    removeEntry n fileName s =
      .ok (true, s.updNode n fun node => { node with info := .folder (dir.removeEntry i) }) := by
  set s₁ := s.updNode n fun node => { node with dirLock := true } with hs₁
  have hn₁ : s₁.nodes.cell n = some { node with dirLock := true } := by simp [hs₁, hn]
  have hm₁ : s₁.mounts.cell node.mp = some mp := hm
  have hn₂ : (s₁.updNode n fun node =>
      { node with info := .folder (dir.removeEntry i) }).nodes.cell n =
      some { node with dirLock := true, info := .folder (dir.removeEntry i) } := by simp [hn₁]
  have hback : (s₁.updNode n fun node =>
      { node with info := .folder (dir.removeEntry i) }).updNode n
      (fun node => { node with dirLock := false }) =
      s.updNode n fun node => { node with info := .folder (dir.removeEntry i) } := by
    rw [hs₁, updNode_updNode, updNode_updNode]
    refine updNode_congr hn ?_
    simp [hl]
  unfold removeEntry
  rw [M.bind_ok (lockDir_ok hn hl), M.bind_ok (getNodeDir_ok hn₁ hm₁ hdir)]
  simp only [hi]
  rw [M.bind_ok (modifyNode_ok hn₁ _), unlockDir, M.bind_ok (modifyNode_ok hn₂ _), hback]
  rfl

/-! ## The node cache -/

theorem findCached_ok {cache : List NodeRef}
    (hlive : ∀ n ∈ cache, ∃ node, s.nodes.cell n = some node) :
    findCached id cache s =
      .ok (cache.find? fun n => (s.nodes.cell n).any fun node => node.id = id, s) := by
  induction cache with
  | nil => rfl
  | cons n cache ih =>
    obtain ⟨node, hn⟩ := hlive n List.mem_cons_self
    unfold findCached
    rw [M.bind_ok (getNode_ok hn), List.find?_cons]
    by_cases hid : node.id = id
    · simp [hn, hid]
    · simp only [hid, if_false, hn, Option.any_some, decide_false]
      exact ih fun n' hn' => hlive n' (List.mem_cons_of_mem n hn')

/-- `AcquireNode` of a node that is cached. -/
theorem acquireNode_hit (hm : s.mounts.cell m = some mp) (hl : mp.nodeCacheLock = false)
    (hlive : ∀ n ∈ mp.nodeCache, ∃ node, s.nodes.cell n = some node)
    (hfind : mp.nodeCache.find? (fun n => (s.nodes.cell n).any fun node => node.id = id) = some n)
    (hn : s.nodes.cell n = some node) (hready : node.ready = true) :
    acquireNode K m id s =
      .ok (n, s.updNode n fun node => { node with refCount := inc node.refCount }) := by
  set s₁ := s.updMount m fun mp => { mp with nodeCacheLock := true } with hs₁
  have hm₁ : s₁.mounts.cell m = some { mp with nodeCacheLock := true } := by simp [hs₁, hm]
  have hfind₁ : findCached id mp.nodeCache s₁ = .ok (some n, s₁) := by
    rw [findCached_ok (s := s₁) hlive]
    exact congrArg (fun o => Except.ok (o, s₁)) hfind
  set s₂ := s₁.updNode n fun node => { node with refCount := inc node.refCount } with hs₂
  have hm₂ : s₂.mounts.cell m = some { mp with nodeCacheLock := true } := hm₁
  have hback : s₂.updMount m (fun mp => { mp with nodeCacheLock := false }) =
      s.updNode n fun node => { node with refCount := inc node.refCount } := by
    rw [hs₂, hs₁, updNode_updMount, updMount_updMount]
    refine updMount_eq_self (by simpa using hm) ?_
    cases mp
    simp_all
  have hn₃ : (s.updNode n fun node => { node with refCount := inc node.refCount }).nodes.cell n =
      some { node with refCount := inc node.refCount } := by simp [hn]
  unfold acquireNode
  rw [M.bind_ok (lockNodeCache_ok hm hl), M.bind_ok (getMount_ok hm₁), M.bind_ok hfind₁]
  simp only
  rw [M.bind_ok (modifyNode_ok (s := s₁) hn _), unlockNodeCache, M.bind_ok (modifyMount_ok hm₂ _),
    hback, M.bind_ok (getNode_ok hn₃)]
  simp only [hready, if_true]
  rfl

/-- The node that `AcquireNode` makes for the root of a TempFS, which `TempFS::ReadNode` fills
in. -/
def rootNodeOf (id : Nat) (m_MP : MountRef) (refNode : TestNode) : Node where
  id
  mp := m_MP
  refCount := 1
  linkCount := refNode.linkRefCount
  ready := true
  type := refNode.type
  dirLock := false
  info := match refNode.dir with
    | some dir => .folder dir
    | none => .none
  ownerUID := refNode.uid
  ownerGID := refNode.gid
  permissions := refNode.perms

/-- A new node at the end of the cache of `m`. -/
def State.pushNode (s : State) (m : MountRef) (n : NodeRef) (node : Node) : State :=
  { s with nodes := s.nodes.store n node }.updMount m fun mp =>
    { mp with nodeCache := mp.nodeCache ++ [n] }

/-- `AcquireNode` of a node that is not cached. -/
theorem acquireNode_miss {r : Nat} {m_MP : MountRef} (hm : s.mounts.cell m = some mp)
    (hl : mp.nodeCacheLock = false)
    (hlive : ∀ n ∈ mp.nodeCache, ∃ node, s.nodes.cell n = some node)
    (hfind : mp.nodeCache.find? (fun n => (s.nodes.cell n).any fun node => node.id = id) = none)
    (hfs : mp.fs = .tempFS r (some m_MP)) (ht : s.testNodes.cell id = some tn) :
    acquireNode K m id s = .ok (s.nodes.fresh K.alloc,
      s.pushNode m (s.nodes.fresh K.alloc) (rootNodeOf id m_MP tn)) := by
  set n := s.nodes.fresh K.alloc with hn
  set s₁ := s.updMount m fun mp => { mp with nodeCacheLock := true } with hs₁
  have hm₁ : s₁.mounts.cell m = some { mp with nodeCacheLock := true } := by simp [hs₁, hm]
  have hfind₁ : findCached id mp.nodeCache s₁ = .ok (none, s₁) := by
    rw [findCached_ok (s := s₁) hlive]
    exact congrArg (fun o => Except.ok (o, s₁)) hfind
  set blank : Node :=
    { id, mp := m, refCount := 1, linkCount := 0, ready := false, type := .file, dirLock := false,
      info := .none, ownerUID := 0, ownerGID := 0, permissions := ⟨0, 0, 0, 0⟩ } with hblank
  have hnew : newNode K id m 1 false s₁ =
      .ok (n, { s₁ with nodes := s₁.nodes.store n blank }) := rfl
  -- after the lock was given back, the new node is at the end of the cache
  have hpush : (({ s₁ with nodes := s₁.nodes.store n blank } : State).updMount m
      fun mp => { mp with nodeCache := mp.nodeCache ++ [n] }).updMount m
      (fun mp => { mp with nodeCacheLock := false }) = s.pushNode m n blank := by
    rw [updMount_updMount]
    show (({ s with nodes := s.nodes.store n blank } : State).updMount m _).updMount m _ = _
    rw [updMount_updMount]
    refine updMount_congr hm ?_
    simp [hl]
  set s₂ := s.pushNode m n blank with hs₂
  have hm₂ : s₂.mounts.cell m = some { mp with nodeCache := mp.nodeCache ++ [n] } := by
    simp [hs₂, State.pushNode, hm]
  have hn₂ : s₂.nodes.cell n = some blank := by simp [hs₂, State.pushNode]
  have hread : fsReadNode m id blank s₂ = .ok (rootNodeOf id m_MP tn, s₂) := by
    unfold fsReadNode
    rw [M.bind_ok (getMount_ok hm₂)]
    simp only [hfs]
    unfold TempFS.readNode
    rw [M.bind_ok (getTestNode_ok (s := s₂) ht)]
    rfl
  have hfill : s₂.updNode n (fun _ => { rootNodeOf id m_MP tn with ready := true }) =
      s.pushNode m n (rootNodeOf id m_MP tn) := by
    simp only [hs₂, State.pushNode, State.updNode, State.updMount, Heap.modify_store]
    rfl
  unfold acquireNode
  rw [M.bind_ok (lockNodeCache_ok hm hl), M.bind_ok (getMount_ok hm₁), M.bind_ok hfind₁]
  simp only
  rw [M.bind_ok hnew, M.bind_ok (modifyMount_ok (s := { s₁ with nodes := s₁.nodes.store n blank }) hm₁ _),
    unlockNodeCache, M.bind_ok (modifyMount_ok (m := m) (by simp [hm₁]; rfl) _), hpush,
    M.bind_ok (getNode_ok hn₂), M.bind_ok hread, M.bind_ok (modifyNode_ok hn₂ _), hfill]
  rfl

/-- `new Node()` as `CreateNode` leaves it. -/
def blankNode (id : Nat) (m : MountRef) (refCount : Nat) (ready : Bool) : Node where
  id
  mp := m
  refCount
  linkCount := 0
  ready
  type := .file
  dirLock := false
  info := .none
  ownerUID := 0
  ownerGID := 0
  permissions := ⟨0, 0, 0, 0⟩

/-- `CreateNode` after the file system has chosen the id. -/
theorem pushNew_ok {softRefs : Nat} {ready : Bool} {init : Node → Node}
    (hm : s.mounts.cell m = some mp) (hl : mp.nodeCacheLock = false) :
    (do
      let n ← newNode K id m softRefs ready
      lockNodeCache m
      modifyMount m fun mp => { mp with nodeCache := mp.nodeCache ++ [n] }
      unlockNodeCache m
      modifyNode n init
      pure n : M NodeRef) s = .ok (s.nodes.fresh K.alloc,
        s.pushNode m (s.nodes.fresh K.alloc) (init (blankNode id m softRefs ready))) := by
  set n := s.nodes.fresh K.alloc
  set blank := blankNode id m softRefs ready
  set s₁ : State := { s with nodes := s.nodes.store n blank } with hs₁
  have hnew : newNode K id m softRefs ready s = .ok (n, s₁) := rfl
  have hm₁ : s₁.mounts.cell m = some mp := hm
  set s₂ := s₁.updMount m fun mp => { mp with nodeCacheLock := true } with hs₂
  have hm₂ : s₂.mounts.cell m = some { mp with nodeCacheLock := true } := by simp [hs₂, hm₁]
  set s₃ := s₂.updMount m fun mp => { mp with nodeCache := mp.nodeCache ++ [n] } with hs₃
  have hm₃ : s₃.mounts.cell m =
      some { mp with nodeCacheLock := true, nodeCache := mp.nodeCache ++ [n] } := by
    simp [hs₃, hm₂]
  have hback : s₃.updMount m (fun mp => { mp with nodeCacheLock := false }) =
      s.pushNode m n blank := by
    rw [hs₃, hs₂, updMount_updMount, updMount_updMount]
    refine updMount_congr hm₁ ?_
    simp [hl]
  have hn₄ : (s.pushNode m n blank).nodes.cell n = some blank := by simp [State.pushNode]
  have hfill : (s.pushNode m n blank).updNode n init = s.pushNode m n (init blank) := by
    simp only [State.pushNode, State.updNode, State.updMount, Heap.modify_store]
  rw [M.bind_ok hnew, M.bind_ok (lockNodeCache_ok hm₁ hl), M.bind_ok (modifyMount_ok hm₂ _),
    unlockNodeCache, M.bind_ok (modifyMount_ok hm₃ _), hback, M.bind_ok (modifyNode_ok hn₄ _), hfill]
  rfl

/-- The state in which a TempFS has made a new `TestNode`. -/
def State.addTestNode (s : State) (id : Nat) (tn : TestNode) : State :=
  { s with testNodes := s.testNodes.store id tn, created := id :: s.created }

/-- `CreateNode` on a TempFS. -/
theorem createNode_temp {softRefs r : Nat} {m_MP : Option MountRef} {init : Node → Node}
    (hm : s.mounts.cell m = some mp) (hl : mp.nodeCacheLock = false)
    (hfs : mp.fs = .tempFS r m_MP) :
    createNode K m softRefs init s = .ok (s.nodes.fresh K.alloc,
      (s.addTestNode (s.testNodes.fresh K.alloc) TempFS.newTestNode).pushNode m
        (s.nodes.fresh K.alloc)
        (init (blankNode (s.testNodes.fresh K.alloc) m softRefs true))) := by
  have hfs' : fsCreateNode K m s = .ok ((s.testNodes.fresh K.alloc, true),
      s.addTestNode (s.testNodes.fresh K.alloc) TempFS.newTestNode) := by
    unfold fsCreateNode
    rw [M.bind_ok (getMount_ok hm)]
    simp only [hfs]
    rfl
  unfold createNode
  rw [M.bind_ok hfs']
  exact pushNew_ok (s := s.addTestNode _ _) hm hl

/-- `CreateNode` on the file system of the pipes. -/
theorem createNode_pipe {softRefs : Nat} {pipes : PipeFS.Pipes} {init : Node → Node}
    (hm : s.mounts.cell m = some mp) (hl : mp.nodeCacheLock = false) (hfs : mp.fs = .pipeFS pipes) :
    createNode K m softRefs init s = .ok (s.nodes.fresh K.alloc,
      (s.updMount m fun mp => { mp with fs := .pipeFS (PipeFS.createNode pipes).2 }).pushNode m
        (s.nodes.fresh K.alloc)
        (init (blankNode (PipeFS.createNode pipes).1 m softRefs false))) := by
  have hfs' : fsCreateNode K m s = .ok (((PipeFS.createNode pipes).1, false),
      s.updMount m fun mp => { mp with fs := .pipeFS (PipeFS.createNode pipes).2 }) := by
    unfold fsCreateNode
    rw [M.bind_ok (getMount_ok hm)]
    simp only [hfs]
    rw [M.bind_ok (modifyMount_ok hm _)]
    rfl
  have hm' : (s.updMount m fun mp =>
      { mp with fs := .pipeFS (PipeFS.createNode pipes).2 }).mounts.cell m =
      some { mp with fs := .pipeFS (PipeFS.createNode pipes).2 } := by simp [hm]
  unfold createNode
  rw [M.bind_ok hfs']
  exact pushNew_ok hm' hl

/-! ## Releasing a node -/

/-- `ReleaseNode` of a node that is still referenced or linked. -/
theorem releaseNode_keep (hn : s.nodes.cell n = some node) (hm : s.mounts.cell node.mp = some mp)
    (hl : mp.nodeCacheLock = false) (hkeep : ¬ (dec node.refCount = 0 ∧ node.linkCount = 0)) :
    releaseNode n true s =
      .ok ((), s.updNode n fun node => { node with refCount := dec node.refCount }) := by
  set s₁ := s.updMount node.mp fun mp => { mp with nodeCacheLock := true } with hs₁
  have hn₁ : s₁.nodes.cell n = some node := hn
  set s₂ := s₁.updNode n fun node => { node with refCount := dec node.refCount } with hs₂
  have hn₂ : s₂.nodes.cell n = some { node with refCount := dec node.refCount } := by
    simp [hs₂, hn₁]
  have hm₂ : s₂.mounts.cell node.mp = some { mp with nodeCacheLock := true } := by
    simp [hs₂, hs₁, hm]
  have hback : s₂.updMount node.mp (fun mp => { mp with nodeCacheLock := false }) =
      s.updNode n fun node => { node with refCount := dec node.refCount } := by
    rw [hs₂, hs₁, updNode_updMount, updMount_updMount]
    refine updMount_eq_self (by simpa using hm) ?_
    cases mp
    simp_all
  unfold releaseNode
  rw [M.bind_ok (getNode_ok hn), M.bind_ok (lockNodeCache_ok hm hl)]
  simp only [if_true]
  rw [M.bind_ok (modifyNode_ok hn₁ _), M.bind_ok (getNode_ok hn₂), if_neg hkeep, unlockNodeCache,
    modifyMount_ok hm₂, hback]

/-- `ReleaseNode(node, false)` of a node that is still referenced or linked. -/
theorem releaseNode_false (hn : s.nodes.cell n = some node) (hm : s.mounts.cell node.mp = some mp)
    (hl : mp.nodeCacheLock = false) (hkeep : ¬ (node.refCount = 0 ∧ node.linkCount = 0)) :
    releaseNode n false s = .ok ((), s) := by
  set s₁ := s.updMount node.mp fun mp => { mp with nodeCacheLock := true } with hs₁
  have hn₁ : s₁.nodes.cell n = some node := hn
  have hm₁ : s₁.mounts.cell node.mp = some { mp with nodeCacheLock := true } := by simp [hs₁, hm]
  have hback : s₁.updMount node.mp (fun mp => { mp with nodeCacheLock := false }) = s := by
    rw [hs₁, updMount_updMount]
    refine updMount_eq_self hm ?_
    cases mp
    simp_all
  unfold releaseNode
  rw [M.bind_ok (getNode_ok hn), M.bind_ok (lockNodeCache_ok hm hl)]
  simp only [Bool.false_eq_true, if_false]
  rw [M.bind_ok (getNode_ok hn₁), if_neg hkeep, unlockNodeCache,
    modifyMount_ok hm₁, hback]

/-- The state without the node `n`, which was in the cache of `m`. -/
def State.dropNode (s : State) (m : MountRef) (n : NodeRef) : State :=
  { s with nodes := s.nodes.free n }.updMount m fun mp =>
    { mp with nodeCache := mp.nodeCache.erase n }

/-- `ReleaseNode` of the last reference to a node without links: the file system destroys it. -/
theorem releaseNode_last (hn : s.nodes.cell n = some node) (hm : s.mounts.cell node.mp = some mp)
    (hl : mp.nodeCacheLock = false) (href : dec node.refCount = 0) (hlink : node.linkCount = 0) :
    releaseNode n true s = (do
      fsDestroyNode node.mp node.id
      fun s => .ok ((), { s with nodes := s.nodes.free n }) : M Unit)
        ((s.updNode n fun node => { node with refCount := dec node.refCount }).updMount node.mp
          fun mp => { mp with nodeCache := mp.nodeCache.erase n }) := by
  set s₁ := s.updMount node.mp fun mp => { mp with nodeCacheLock := true } with hs₁
  have hn₁ : s₁.nodes.cell n = some node := hn
  set s₂ := s₁.updNode n fun node => { node with refCount := dec node.refCount } with hs₂
  have hn₂ : s₂.nodes.cell n = some { node with refCount := dec node.refCount } := by
    simp [hs₂, hn₁]
  have hm₂ : s₂.mounts.cell node.mp = some { mp with nodeCacheLock := true } := by
    simp [hs₂, hs₁, hm]
  set s₃ := s₂.updMount node.mp fun mp => { mp with nodeCache := mp.nodeCache.erase n } with hs₃
  have hm₃ : s₃.mounts.cell node.mp =
      some { mp with nodeCacheLock := true, nodeCache := mp.nodeCache.erase n } := by
    simp [hs₃, hm₂]
  have hback : s₃.updMount node.mp (fun mp => { mp with nodeCacheLock := false }) =
      (s.updNode n fun node => { node with refCount := dec node.refCount }).updMount node.mp
        fun mp => { mp with nodeCache := mp.nodeCache.erase n } := by
    rw [hs₃, hs₂, hs₁, updNode_updMount, updMount_updMount, updMount_updMount]
    refine updMount_congr (by simpa using hm) ?_
    simp [hl]
  unfold releaseNode
  rw [M.bind_ok (getNode_ok hn), M.bind_ok (lockNodeCache_ok hm hl)]
  simp only [if_true]
  rw [M.bind_ok (modifyNode_ok hn₁ _), M.bind_ok (getNode_ok hn₂), if_pos ⟨href, hlink⟩,
    M.bind_ok (modifyMount_ok hm₂ _), unlockNodeCache, M.bind_ok (modifyMount_ok hm₃ _), hback]

/-- `ReleaseNode` that destroys a node of a TempFS. -/
theorem releaseNode_destroy {r : Nat} {m_MP : Option MountRef} (hn : s.nodes.cell n = some node)
    (hm : s.mounts.cell node.mp = some mp) (hl : mp.nodeCacheLock = false)
    (href : dec node.refCount = 0) (hlink : node.linkCount = 0) (hfs : mp.fs = .tempFS r m_MP)
    (ht : s.testNodes.cell node.id = some tn) :
    releaseNode n true s = .ok ((),
      State.dropNode { s with
        testNodes := s.testNodes.free node.id, destroyed := node.id :: s.destroyed } node.mp n) := by
  rw [releaseNode_last hn hm hl href hlink]
  set s₁ := (s.updNode n fun node => { node with refCount := dec node.refCount }).updMount node.mp
    fun mp => { mp with nodeCache := mp.nodeCache.erase n } with hs₁
  have hm₁ : s₁.mounts.cell node.mp = some { mp with nodeCache := mp.nodeCache.erase n } := by
    simp [hs₁, hm]
  have hdestroy : fsDestroyNode node.mp node.id s₁ = .ok ((), { s₁ with
      testNodes := s₁.testNodes.free node.id, destroyed := node.id :: s₁.destroyed }) := by
    unfold fsDestroyNode
    rw [M.bind_ok (getMount_ok hm₁)]
    simp only [hfs]
    unfold TempFS.destroyNode
    rw [M.bind_ok (getTestNode_ok (s := s₁) ht)]
  rw [M.bind_ok hdestroy]
  simp only [hs₁, State.dropNode, State.updNode, State.updMount, Heap.free_modify]

/-- `ReleaseNode` that frees the slot of a pipe. -/
theorem releaseNode_destroy_pipe {pipes pipes' : PipeFS.Pipes} (hn : s.nodes.cell n = some node)
    (hm : s.mounts.cell node.mp = some mp) (hl : mp.nodeCacheLock = false)
    (href : dec node.refCount = 0) (hlink : node.linkCount = 0) (hfs : mp.fs = .pipeFS pipes)
    (ht : PipeFS.destroyNode pipes node.id = .ok pipes') :
    releaseNode n true s = .ok ((),
      (s.dropNode node.mp n).updMount node.mp fun mp => { mp with fs := .pipeFS pipes' }) := by
  rw [releaseNode_last hn hm hl href hlink]
  set s₁ := (s.updNode n fun node => { node with refCount := dec node.refCount }).updMount node.mp
    fun mp => { mp with nodeCache := mp.nodeCache.erase n } with hs₁
  have hm₁ : s₁.mounts.cell node.mp = some { mp with nodeCache := mp.nodeCache.erase n } := by
    simp [hs₁, hm]
  have hdestroy : fsDestroyNode node.mp node.id s₁ =
      .ok ((), s₁.updMount node.mp fun mp => { mp with fs := .pipeFS pipes' }) := by
    unfold fsDestroyNode
    rw [M.bind_ok (getMount_ok hm₁)]
    simp only [hfs, ht]
    rw [M.bind_ok (show M.lift (.ok pipes') s₁ = .ok (pipes', s₁) from rfl), modifyMount_ok hm₁]
  rw [M.bind_ok hdestroy]
  simp only [hs₁, State.dropNode, State.updNode, State.updMount, Heap.free_modify]

/-! ## Mounts -/

theorem firstMatch_ok {path : Str} {children : List MountRef}
    (hlive : ∀ c ∈ children, ∃ mp, s.mounts.cell c = some mp) :
    firstMatch path children s =
      .ok (children.find? fun c => (s.mounts.cell c).any fun mp => mountCmp path mp.path, s) := by
  induction children with
  | nil => rfl
  | cons c children ih =>
    obtain ⟨mp, hc⟩ := hlive c List.mem_cons_self
    unfold firstMatch
    rw [M.bind_ok (getMount_ok hc), List.find?_cons]
    by_cases hcmp : mountCmp path mp.path = true
    · simp [hc, hcmp]
    · simp only [hcmp, Bool.false_eq_true, if_false, hc, Option.any_some]
      exact ih fun c' hc' => hlive c' (List.mem_cons_of_mem c hc')

/-- The child of a mount that the search for a path descends to. -/
def State.childFor (s : State) (path : Str) (mp : MountPoint) : Option MountRef :=
  mp.childMounts.find? fun c => (s.mounts.cell c).any fun mp => mountCmp path mp.path

/-- The state after the search moved its reference from `m` to its child `next`. -/
def State.moveRef (s : State) (m next : MountRef) : State :=
  let s := s.updMount next fun mp => { mp with refCount := inc mp.refCount }
  if m ≠ s.rootMount then s.updMount m fun mp => { mp with refCount := dec mp.refCount } else s

/-- A lock on a list of children does not hide any mount. -/
theorem childFor_lock {path : Str} (hm : s.mounts.cell m = some mp) (b : Bool) :
    (s.updMount m fun mp => { mp with childMountLock := b }).childFor path
      { mp with childMountLock := true } = s.childFor path mp := by
  unfold State.childFor
  refine congrArg (fun p => List.find? p mp.childMounts) (funext fun c => ?_)
  by_cases hc : c = m
  · subst hc
    simp [hm]
  · simp [hc]

theorem findChild_none {path : Str} (hm : s.mounts.cell m = some mp)
    (hl : mp.childMountLock = false)
    (hlive : ∀ c ∈ mp.childMounts, ∃ cp, s.mounts.cell c = some cp)
    (hfind : s.childFor path mp = none) : findChild path m s = .ok (none, s) := by
  set s₁ := s.updMount m fun mp => { mp with childMountLock := true } with hs₁
  have hm₁ : s₁.mounts.cell m = some { mp with childMountLock := true } := by simp [hs₁, hm]
  have hlive₁ : ∀ c ∈ mp.childMounts, ∃ cp, s₁.mounts.cell c = some cp := by
    intro c hc
    obtain ⟨cp, hcp⟩ := hlive c hc
    by_cases hcm : c = m
    · exact ⟨_, by rw [hcm]; exact hm₁⟩
    · exact ⟨cp, by simp [hs₁, hcm, hcp]⟩
  have hfind₁ : firstMatch path mp.childMounts s₁ = .ok (none, s₁) := by
    rw [firstMatch_ok hlive₁]
    exact congrArg (fun o => Except.ok (o, s₁)) ((childFor_lock hm true).trans hfind)
  have hback : s₁.updMount m (fun mp => { mp with childMountLock := false }) = s := by
    rw [hs₁, updMount_updMount]
    refine updMount_eq_self hm ?_
    cases mp
    simp_all
  unfold findChild
  rw [M.bind_ok (lockChildMounts_ok hm hl), M.bind_ok (getMount_ok hm₁), M.bind_ok hfind₁]
  simp only
  rw [unlockChildMounts, M.bind_ok (modifyMount_ok hm₁ _), hback]
  rfl

theorem findChild_some {path : Str} {next : MountRef} {np : MountPoint}
    (hm : s.mounts.cell m = some mp) (hl : mp.childMountLock = false)
    (hlive : ∀ c ∈ mp.childMounts, ∃ cp, s.mounts.cell c = some cp)
    (hfind : s.childFor path mp = some next) (hnext : s.mounts.cell next = some np)
    (hne : next ≠ m) : findChild path m s = .ok (some next, s.moveRef m next) := by
  set s₁ := s.updMount m fun mp => { mp with childMountLock := true } with hs₁
  have hm₁ : s₁.mounts.cell m = some { mp with childMountLock := true } := by simp [hs₁, hm]
  have hlive₁ : ∀ c ∈ mp.childMounts, ∃ cp, s₁.mounts.cell c = some cp := by
    intro c hc
    obtain ⟨cp, hcp⟩ := hlive c hc
    by_cases hcm : c = m
    · exact ⟨_, by rw [hcm]; exact hm₁⟩
    · exact ⟨cp, by simp [hs₁, hcm, hcp]⟩
  have hfind₁ : firstMatch path mp.childMounts s₁ = .ok (some next, s₁) := by
    rw [firstMatch_ok hlive₁]
    exact congrArg (fun o => Except.ok (o, s₁)) ((childFor_lock hm true).trans hfind)
  have hnext₁ : s₁.mounts.cell next = some np := by simp [hs₁, hne, hnext]
  set s₂ := s₁.updMount next fun mp => { mp with refCount := inc mp.refCount } with hs₂
  have hm₂ : s₂.mounts.cell m = some { mp with childMountLock := true } := by
    simp [hs₂, Ne.symm hne, hm₁]
  set s₃ := s.updMount next fun mp => { mp with refCount := inc mp.refCount } with hs₃
  have hm₃ : s₃.mounts.cell m = some mp := by simp [hs₃, Ne.symm hne, hm]
  -- the increment is on another mount than the lock
  have hback : s₂.updMount m (fun mp => { mp with childMountLock := false }) = s₃ := by
    have hcell : ((s₂.updMount m fun mp => { mp with childMountLock := false }).mounts) =
        s₃.mounts := by
      refine Heap.ext_cell (funext fun a => ?_) rfl
      by_cases ham : a = m
      · subst ham
        simp only [updMount_mounts, Heap.cell_modify_self, hm₂, hm₃, Option.map_some,
          Option.some.injEq]
        cases mp
        simp_all
      · by_cases han : a = next
        · subst han
          simp [hs₂, hs₁, hs₃, ham]
        · simp [hs₂, hs₁, hs₃, ham, han]
    exact congrArg (fun h : Heap MountPoint => { s with mounts := h }) hcell
  unfold findChild
  rw [M.bind_ok (lockChildMounts_ok hm hl), M.bind_ok (getMount_ok hm₁), M.bind_ok hfind₁]
  simp only
  rw [M.bind_ok (modifyMount_ok hnext₁ _), unlockChildMounts, M.bind_ok (modifyMount_ok hm₂ _),
    hback, M.bind_ok get_ok]
  have hmove : s.moveRef m next = if m ≠ s₃.rootMount then
      s₃.updMount m fun mp => { mp with refCount := dec mp.refCount } else s₃ := rfl
  rw [hmove]
  by_cases hroot : m ≠ s₃.rootMount
  · rw [if_pos hroot, if_pos hroot, M.bind_ok (modifyMount_ok hm₃ _)]
    rfl
  · rw [if_neg hroot, if_neg hroot]
    rfl

theorem releaseMountPoint_root (hm : m = s.rootMount) (b : Bool) :
    releaseMountPoint m b s = .ok ((), s) := by
  unfold releaseMountPoint
  rw [M.bind_ok get_ok, if_neg fun h => h.1 hm]
  rfl

theorem releaseMountPoint_false (m : MountRef) (s : State) :
    releaseMountPoint m false s = .ok ((), s) := by
  unfold releaseMountPoint
  rw [M.bind_ok get_ok, if_neg fun h => Bool.false_ne_true h.2]
  rfl

theorem releaseMountPoint_dec (hroot : m ≠ s.rootMount) (hm : s.mounts.cell m = some mp) :
    releaseMountPoint m true s =
      .ok ((), s.updMount m fun mp => { mp with refCount := dec mp.refCount }) := by
  unfold releaseMountPoint
  rw [M.bind_ok get_ok, if_pos ⟨hroot, rfl⟩]
  exact modifyMount_ok hm _

/-- The mount that `Mount` makes below `m`. -/
def childMount (m : MountRef) (path : Str) (rootNodeID : Nat) : MountPoint where
  parent := some m
  path
  fs := .tempFS rootNodeID (some m)
  rootNode := rootNodeID
  childMountLock := false
  childMounts := []
  nodeCacheLock := false
  nodeCache := []
  refCount := 0

/-- The state with a new mount `c` below `m`. -/
def State.pushMount (s : State) (m c : MountRef) (path : Str) (rootNodeID : Nat) : State :=
  { s with mounts := s.mounts.store c (childMount m path rootNodeID) }.updMount m fun mp =>
    { mp with childMounts := mp.childMounts ++ [c] }

theorem attach_ok {path : Str} {rootNodeID : Nat} (hm : s.mounts.cell m = some mp)
    (hl : mp.childMountLock = false) :
    attach K m path rootNodeID s =
      .ok ((), s.pushMount m (s.mounts.fresh K.alloc) path rootNodeID) := by
  set c := s.mounts.fresh K.alloc with hc
  have hne : m ≠ c := Heap.ne_fresh K.alloc hm
  set s₁ : State := { s with mounts := s.mounts.store c (childMount m path rootNodeID) } with hs₁
  have hnew : newMountPoint K m path rootNodeID s = .ok (c, s₁) := rfl
  have hm₁ : s₁.mounts.cell m = some mp := by simp [hs₁, hne, hm]
  set s₂ := s₁.updMount m fun mp => { mp with childMountLock := true } with hs₂
  have hm₂ : s₂.mounts.cell m = some { mp with childMountLock := true } := by simp [hs₂, hm₁]
  set s₃ := s₂.updMount m fun mp => { mp with childMounts := mp.childMounts ++ [c] } with hs₃
  have hm₃ : s₃.mounts.cell m =
      some { mp with childMountLock := true, childMounts := mp.childMounts ++ [c] } := by
    simp [hs₃, hm₂]
  have hback : s₃.updMount m (fun mp => { mp with childMountLock := false }) =
      s.pushMount m c path rootNodeID := by
    rw [hs₃, hs₂, updMount_updMount, updMount_updMount]
    refine updMount_congr hm₁ ?_
    simp [hl]
  unfold attach
  rw [M.bind_ok hnew, M.bind_ok (lockChildMounts_ok hm₁ hl), M.bind_ok (modifyMount_ok hm₂ _),
    unlockChildMounts, modifyMount_ok hm₃, hback]

/-- The state without the mount `m`, which was a child of `p`. -/
def State.dropMount (s : State) (p m : MountRef) : State :=
  let s := s.updMount p fun mp => { mp with childMounts := mp.childMounts.erase m }
  { s with mounts := s.mounts.free m }

theorem detach_eq {p : MountRef} {pp : MountPoint} (hm : s.mounts.cell m = some mp)
    (hparent : mp.parent = some p) (hp : s.mounts.cell p = some pp)
    (hl : pp.childMountLock = false) (hne : m ≠ p) :
    detach m s = if mp.refCount = 1 then .ok (true, s.dropMount p m) else .ok (false, s) := by
  set s₁ := s.updMount p fun mp => { mp with childMountLock := true } with hs₁
  have hm₁ : s₁.mounts.cell m = some mp := by simp [hs₁, hne, hm]
  have hp₁ : s₁.mounts.cell p = some { pp with childMountLock := true } := by simp [hs₁, hp]
  unfold detach
  rw [M.bind_ok (getMount_ok hm)]
  simp only [hparent]
  rw [M.bind_ok (lockChildMounts_ok hp hl), M.bind_ok (getMount_ok hm₁)]
  by_cases href : mp.refCount = 1
  · set s₂ := s₁.updMount p fun mp => { mp with childMounts := mp.childMounts.erase m } with hs₂
    have hp₂ : s₂.mounts.cell p =
        some { pp with childMountLock := true, childMounts := pp.childMounts.erase m } := by
      simp [hs₂, hp₁]
    have hback : s₂.updMount p (fun mp => { mp with childMountLock := false }) =
        s.updMount p fun mp => { mp with childMounts := mp.childMounts.erase m } := by
      rw [hs₂, hs₁, updMount_updMount, updMount_updMount]
      refine updMount_congr hp ?_
      simp [hl]
    rw [if_pos href, if_pos href, M.bind_ok (modifyMount_ok hp₁ _), unlockChildMounts,
      M.bind_ok (modifyMount_ok hp₂ _), hback]
    rfl
  · have hback : s₁.updMount p (fun mp => { mp with childMountLock := false }) = s := by
      rw [hs₁, updMount_updMount]
      refine updMount_eq_self hp ?_
      cases pp
      simp_all
    rw [if_neg href, if_neg href, unlockChildMounts, M.bind_ok (modifyMount_ok hp₁ _), hback]
    rfl

end ChenixOS.VFS
