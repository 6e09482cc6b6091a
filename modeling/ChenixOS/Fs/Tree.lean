import ChenixOS.Fs.Runs
import Mathlib.Data.List.Find

/-!
# The tree that paths are looked up in

What a lookup reads of the state is the tree of mounts and, for each mount, its inodes by their
ids. `Tree` is this, without the counters, the locks and the cache: a directory that is not in
memory is the same inode as one that is. `Tree.resolve` resolves a path in it.

**Theorem (`acquirePath_run`).** Run alone, `AcquirePath` finds what `Tree.resolve` finds, and leaves
the tree as it is. It can put roots of mounts into a cache, so the state itself may change.
-/

namespace ChenixOS.VFS

/-- What a lookup reads of a node. -/
def Node.inode (node : Node) : Node :=
  { node with mp := 0, refCount := 0, linkCount := 0, ready := true, dirLock := false }

structure Tree where
  root : MountRef
  path : MountRef → Option Str
  children : MountRef → List MountRef
  /-- The ids of the roots. -/
  rootNode : MountRef → Option Nat
  node : MountRef → Nat → Option Node

/-- The node with this id in the cache of `m`. -/
def State.cached (s : State) (m : MountRef) (id : Nat) : Option Node :=
  (s.mounts.cell m).bind fun mp =>
    (mp.nodeCache.find? fun n => (s.nodes.cell n).any fun node => node.id = id).bind s.nodes.cell

/-- The root of `m` as it would be read. -/
def State.unread (s : State) (m : MountRef) (id : Nat) : Option Node :=
  (s.mounts.cell m).bind fun mp =>
    if mp.rootNode = id then (s.testNodes.cell id).map (rootNodeOf id 0) else none

def State.tree (s : State) : Tree where
  root := s.rootMount
  path m := (s.mounts.cell m).map MountPoint.path
  children m := (s.mounts.cell m).elim [] MountPoint.childMounts
  rootNode m := (s.mounts.cell m).map MountPoint.rootNode
  node m id := ((s.cached m id).or (s.unread m id)).map Node.inode

namespace Tree

variable (T : Tree)

/-! ## Lookup -/

/-- The child of `m` that the search for `path` descends to. -/
def childFor (path : Str) (m : MountRef) : Option MountRef :=
  (T.children m).find? fun c => (T.path c).any (mountCmp path)

/-- `FindMountPoint`, from `m` on. -/
def mountFrom (path : Str) : Nat → MountRef → Option MountRef
  | 0, _ => none
  | fuel + 1, m =>
      match T.childFor path m with
      | some c => mountFrom path fuel c
      | none => some m

def mountFor (path : Str) : Option MountRef := T.mountFrom path (path.length + 1) T.root

/-- How `_AcquirePathRec` ends, with ids instead of nodes. -/
inductive Found
  | ok (node parent : Option Nat) (path : Str)
  | symlink (node parent : Nat) (path : Str)
  | error (e : Error)
  deriving DecidableEq, Repr

/-- The loop of `_AcquirePathRec`. -/
def walk (tInfo : ThreadInfo) (m : MountRef) (fileHasToExist deleteMode : Bool) :
    Nat → Nat → Str → Option Found
  | 0, _, _ => none
  | fuel + 1, current, path => do
      let node ← T.node m current
      match lookupIn tInfo node path with
      | .notADirectory => some (.error .fileNotFound)
      | .denied => some (.error .permissionDenied)
      | .found id rest =>
          if deleteMode ∧ rest = [] then some (.ok (some id) (some current) rest)
          else do
            let next ← T.node m id
            if next.type = .symlink then some (.symlink id current rest)
            else if rest = [] then some (.ok (some id) (some current) rest)
            else walk tInfo m fileHasToExist deleteMode fuel id rest
      | .absent =>
          if fileHasToExist ∨ !isLastPathEntry path then some (.error .fileNotFound)
          else some (.ok none (some current) path)

/-- `_AcquirePathRec` -/
def walkFrom (tInfo : ThreadInfo) (m : MountRef) (path : Str) (fileHasToExist deleteMode : Bool) :
    Option Found := do
  let root ← T.rootNode m
  if path = [] then some (.ok (some root) none path)
  else T.walk tInfo m fileHasToExist deleteMode (path.length + 1) root path

/-- `AcquirePath` until it returns or follows a link: the mount that serves the path, and what is
found there. -/
def round (tInfo : ThreadInfo) (fileHasToExist deleteMode : Bool) (buffer : Str) :
    Option (MountRef × Found) := do
  let m ← T.mountFor buffer
  let mpPath ← T.path m
  let found ← T.walkFrom tInfo m (advancePath buffer mpPath) fileHasToExist deleteMode
  some (m, found)

/-- `outNode->infoSymlink.linkPath` -/
def linkPath (m : MountRef) (id : Nat) : Option Str := do
  let node ← T.node m id
  match node.info with
  | .symlink linkPath => some linkPath
  | _ => none

/-- What `AcquirePath` hands out, with ids instead of nodes. -/
structure Resolved where
  mp : MountRef
  node : Option Nat
  parent : Option Nat
  path : Str
  buffer : Str
  deriving DecidableEq, Repr

/-- A link together with the path behind it does not fit into the buffer. -/
def tooLong (linkPath rest : Str) : Prop := linkPath.length + rest.length + 2 > 255

instance (linkPath rest : Str) : Decidable (tooLong linkPath rest) :=
  inferInstanceAs (Decidable (linkPath.length + rest.length + 2 > 255))

/-- `AcquirePath`; `none` when it does not return. -/
def resolve (tInfo : ThreadInfo) (fileHasToExist deleteMode : Bool) :
    Nat → Str → Option (Except Error Resolved)
  | 0, _ => none
  | fuel + 1, buffer =>
      match T.round tInfo fileHasToExist deleteMode buffer with
      | none => none
      | some (m, .ok node parent path) => some (.ok ⟨m, node, parent, path, buffer⟩)
      | some (_, .error e) => some (.error e)
      | some (m, .symlink id _ rest) =>
          match T.linkPath m id with
          | none => none
          | some linkPath =>
              if tooLong linkPath rest then some (.error .pathTooLong)
              else resolve tInfo fileHasToExist deleteMode fuel (splice linkPath rest)

/-- The mounts that `AcquirePath` looks into. -/
def visits (tInfo : ThreadInfo) (fileHasToExist deleteMode : Bool) : Nat → Str → List MountRef
  | 0, _ => []
  | fuel + 1, buffer =>
      match T.round tInfo fileHasToExist deleteMode buffer with
      | none => []
      | some (m, .ok ..) | some (m, .error _) => [m]
      | some (m, .symlink id _ rest) =>
          match T.linkPath m id with
          | none => [m]
          | some linkPath =>
              if tooLong linkPath rest then [m]
              else m :: visits tInfo fileHasToExist deleteMode fuel (splice linkPath rest)

/-- The targets of the links that `AcquirePath` follows, each with the path behind it. -/
def follows (tInfo : ThreadInfo) (fileHasToExist deleteMode : Bool) : Nat → Str → List (Str × Str)
  | 0, _ => []
  | fuel + 1, buffer =>
      match T.round tInfo fileHasToExist deleteMode buffer with
      | some (m, .symlink id _ rest) =>
          match T.linkPath m id with
          | none => []
          | some linkPath =>
              if tooLong linkPath rest then []
              else (linkPath, rest) ::
                follows tInfo fileHasToExist deleteMode fuel (splice linkPath rest)
      | _ => []

end Tree

variable {K : Kernel} {H : Held} {s : State} {n : NodeRef} {m c : MountRef} {id fuel : Nat}
  {node : Node} {mp : MountPoint} {path : Str}

/-! ## What leaves the tree as it is -/

@[simp] theorem tree_root : s.tree.root = s.rootMount := rfl
@[simp] theorem tree_path : s.tree.path m = (s.mounts.cell m).map MountPoint.path := rfl
@[simp] theorem tree_rootNode : s.tree.rootNode m = (s.mounts.cell m).map MountPoint.rootNode := rfl

/-- Two states with the same mounts, but for their counters and locks, and the same inodes. -/
theorem tree_congr {s' : State} (hroot : s'.rootMount = s.rootMount)
    (hmounts : ∀ m, (s'.mounts.cell m).map MountPoint.skel = (s.mounts.cell m).map MountPoint.skel)
    (hnodes : ∀ n, (s'.nodes.cell n).map Node.inode = (s.nodes.cell n).map Node.inode)
    (htests : s'.testNodes = s.testNodes) : s'.tree = s.tree := by
  have hmap : ∀ {α : Type} (f : MountPoint → α), (∀ mp, f mp.skel = f mp) → ∀ m,
      (s'.mounts.cell m).map f = (s.mounts.cell m).map f := by
    intro α f hf m
    have h := congrArg (Option.map f) (hmounts m)
    simpa [Option.map_map, Function.comp_def, hf] using h
  have hid : ∀ n id, ((s'.nodes.cell n).any fun node => node.id = id) =
      (s.nodes.cell n).any fun node => node.id = id := by
    intro n id
    have h := congrArg (Option.map Node.id) (hnodes n)
    cases hn : s.nodes.cell n <;> cases hn' : s'.nodes.cell n <;> simp_all [Node.inode]
  have hcached : ∀ m id, (s'.cached m id).map Node.inode = (s.cached m id).map Node.inode := by
    intro m id
    unfold State.cached
    have hcache := hmap MountPoint.nodeCache (fun _ => rfl) m
    simp only [hid]
    cases hm : s.mounts.cell m with
    | none =>
      cases hm' : s'.mounts.cell m with
      | none => rfl
      | some mp' => simp [hm, hm'] at hcache
    | some mp =>
      cases hm' : s'.mounts.cell m with
      | none => simp [hm, hm'] at hcache
      | some mp' =>
        simp only [hm, hm', Option.map_some, Option.some.injEq] at hcache
        simp only [Option.bind_some, hcache]
        cases mp.nodeCache.find? fun n => (s.nodes.cell n).any fun node => node.id = id with
        | none => rfl
        | some n => exact hnodes n
  have hunread : ∀ m id, s'.unread m id = s.unread m id := by
    intro m id
    unfold State.unread
    have hr := hmap MountPoint.rootNode (fun _ => rfl) m
    cases hm : s.mounts.cell m with
    | none =>
      cases hm' : s'.mounts.cell m with
      | none => rfl
      | some mp' => simp [hm, hm'] at hr
    | some mp =>
      cases hm' : s'.mounts.cell m with
      | none => simp [hm, hm'] at hr
      | some mp' =>
        simp only [hm, hm', Option.map_some, Option.some.injEq] at hr
        simp only [Option.bind_some, hr, htests]
  unfold State.tree
  congr 1
  · funext m
    exact hmap MountPoint.path (fun _ => rfl) m
  · funext m
    have h := hmap MountPoint.childMounts (fun _ => rfl) m
    cases hm : s.mounts.cell m <;> cases hm' : s'.mounts.cell m <;> simp_all
  · funext m
    exact hmap MountPoint.rootNode (fun _ => rfl) m
  · funext m id
    rw [Option.map_or, Option.map_or, hcached, hunread]

/-- Counting a reference to a mount does not change the tree. -/
theorem tree_updMount {g : MountPoint → MountPoint} (hg : ∀ mp, (g mp).skel = mp.skel) :
    (s.updMount m g).tree = s.tree := by
  refine tree_congr rfl (fun m' => ?_) (fun _ => rfl) rfl
  by_cases heq : m' = m
  · subst heq
    simp [Option.map_map, Function.comp_def, hg]
  · simp [heq]

/-- Counting a reference to a node does not change the tree. -/
theorem tree_updNode {f : Node → Node} (hf : ∀ node, (f node).inode = node.inode) :
    (s.updNode n f).tree = s.tree := by
  refine tree_congr rfl (fun _ => rfl) (fun n' => ?_) rfl
  by_cases heq : n' = n
  · subst heq
    simp [Option.map_map, Function.comp_def, hf]
  · simp [heq]

/-- Reading the root of a mount does not change the tree. -/
theorem tree_pushRoot {tn : TestNode} {m_MP : MountRef} (hI : Inv H s)
    (hm : s.mounts.cell m = some mp) (hn : s.nodes.cell n = none)
    (ht : s.testNodes.cell mp.rootNode = some tn) :
    (s.pushNode m n (rootNodeOf mp.rootNode m_MP tn)).tree = s.tree := by
  set root := rootNodeOf mp.rootNode m_MP tn with hroot
  have hrid : root.id = mp.rootNode := rfl
  have hne : ∀ {m' mp'}, s.mounts.cell m' = some mp' → ∀ n' ∈ mp'.nodeCache, n' ≠ n := by
    rintro m' mp' hm' n' hn' rfl
    obtain ⟨node, hcell⟩ := hI.live hm' hn'
    rw [hn] at hcell
    cases hcell
  -- the new node does not hide those that were there
  have hfind : ∀ {m' mp'}, s.mounts.cell m' = some mp' → ∀ id, (mp'.nodeCache.find? fun n' =>
      ((s.pushNode m n root).nodes.cell n').any fun node => node.id = id) =
      mp'.nodeCache.find? fun n' => (s.nodes.cell n').any fun node => node.id = id := by
    intro m' mp' hm' id
    refine List.find?_congr fun n' hn' => ?_
    simp [State.pushNode, hne hm' n' hn']
  have hcell : ∀ {m' mp'}, s.mounts.cell m' = some mp' → ∀ id, ((mp'.nodeCache.find? fun n' =>
      (s.nodes.cell n').any fun node => node.id = id).bind (s.pushNode m n root).nodes.cell) =
      (mp'.nodeCache.find? fun n' => (s.nodes.cell n').any fun node => node.id = id).bind
        s.nodes.cell := by
    intro m' mp' hm' id
    cases hf : mp'.nodeCache.find? fun n' => (s.nodes.cell n').any fun node => node.id = id with
    | none => rfl
    | some n' => simp [State.pushNode, hne hm' n' (List.mem_of_find?_eq_some hf)]
  have hcached : ∀ m' id, (s.pushNode m n root).cached m' id =
      (s.cached m' id).or (if m' = m ∧ mp.rootNode = id then some root else none) := by
    intro m' id
    unfold State.cached
    by_cases heq : m' = m
    · subst heq
      have hm' : (s.pushNode m' n root).mounts.cell m' =
          some { mp with nodeCache := mp.nodeCache ++ [n] } := by simp [State.pushNode, hm]
      have hself : (s.pushNode m' n root).nodes.cell n = some root := by simp [State.pushNode]
      simp only [hm', hm, Option.bind_some, List.find?_append, hfind hm id, true_and]
      rw [← hcell hm id]
      cases hf : mp.nodeCache.find? fun n' => (s.nodes.cell n').any fun node => node.id = id with
      | none =>
        by_cases hid : mp.rootNode = id
        · simp [hself, hrid, hid]
        · simp [hself, hrid, hid]
      | some n' =>
        obtain ⟨node, hnode⟩ := hI.live hm (List.mem_of_find?_eq_some hf)
        have hnode' : (s.pushNode m' n root).nodes.cell n' = some node := by
          simp [State.pushNode, hne hm n' (List.mem_of_find?_eq_some hf), hnode]
        simp [hnode']
    · have hm' : (s.pushNode m n root).mounts.cell m' = s.mounts.cell m' := by
        simp [State.pushNode, heq]
      simp only [hm', heq, false_and, if_false, Option.or_none]
      cases hmc : s.mounts.cell m' with
      | none => rfl
      | some mp' =>
        simp only [Option.bind_some, hfind hmc id]
        exact hcell hmc id
  have hskel : ∀ {α : Type} (f : MountPoint → α),
      (∀ mp cache, f { mp with nodeCache := cache } = f mp) → ∀ m',
      ((s.pushNode m n root).mounts.cell m').map f = (s.mounts.cell m').map f := by
    intro α f hf m'
    by_cases heq : m' = m
    · subst heq
      simp [State.pushNode, hm, hf]
    · simp [State.pushNode, heq]
  have hunread : ∀ m' id, (s.pushNode m n root).unread m' id = s.unread m' id := by
    intro m' id
    unfold State.unread
    by_cases heq : m' = m
    · subst heq
      simp [State.pushNode, hm]
    · simp [State.pushNode, heq]
  unfold State.tree
  congr 1
  · funext m'
    exact hskel MountPoint.path (fun _ _ => rfl) m'
  · funext m'
    by_cases heq : m' = m
    · subst heq
      simp [State.pushNode, hm]
    · simp [State.pushNode, heq]
  · funext m'
    exact hskel MountPoint.rootNode (fun _ _ => rfl) m'
  · funext m' id
    rw [hcached, hunread]
    by_cases hid : m' = m ∧ mp.rootNode = id
    · obtain ⟨rfl, rfl⟩ := hid
      have hun : s.unread m' mp.rootNode = some (rootNodeOf mp.rootNode 0 tn) := by
        simp [State.unread, hm, ht]
      rw [hun]
      cases s.cached m' mp.rootNode with
      | none => simp [hroot, rootNodeOf, Node.inode]
      | some node => simp
    · simp [hid]

/-- A step whose outcome is known, and what follows it. -/
theorem run_step {α β : Type} {act : M α} (k : α → P β) {a : α} {s' : State}
    (h : act s = .ok (a, s')) : (step act >>= k).run s = (k a).run s' :=
  Prog.run_bind_of_ok k ((Prog.run_atomic _ _ _).trans h)

/-! ## Mounts -/

/-- With a reference to `m`. The one to the root is not counted. -/
def State.hold (s : State) (m : MountRef) : State :=
  if m = s.rootMount then s else s.updMount m fun mp => { mp with refCount := inc mp.refCount }

@[simp] theorem hold_root : s.hold s.rootMount = s := if_pos rfl

theorem hold_of_ne (h : m ≠ s.rootMount) :
    s.hold m = s.updMount m fun mp => { mp with refCount := inc mp.refCount } := if_neg h

@[simp] theorem hold_nodes : (s.hold m).nodes = s.nodes := by
  unfold State.hold
  split_ifs <;> rfl

@[simp] theorem hold_descs : (s.hold m).descs = s.descs := by
  unfold State.hold
  split_ifs <;> rfl

@[simp] theorem hold_threads : (s.hold m).threads = s.threads := by
  unfold State.hold
  split_ifs <;> rfl

@[simp] theorem hold_rootMount : (s.hold m).rootMount = s.rootMount := by
  unfold State.hold
  split_ifs <;> rfl

@[simp] theorem hold_pipeMount : (s.hold m).pipeMount = s.pipeMount := by
  unfold State.hold
  split_ifs <;> rfl

@[simp] theorem tree_hold : (s.hold m).tree = s.tree := by
  unfold State.hold
  split_ifs
  · rfl
  · exact tree_updMount fun _ => rfl

/-- The mount with the reference counted. -/
theorem cell_hold (hm : s.mounts.cell m = some mp) :
    ∃ mp', (s.hold m).mounts.cell m = some mp' ∧ mp'.skel = mp.skel := by
  by_cases hr : m = s.rootMount
  · exact ⟨mp, by rw [hr, hold_root, ← hr, hm], rfl⟩
  · exact ⟨{ mp with refCount := inc mp.refCount }, by simp [hold_of_ne hr, hm], rfl⟩

theorem Inv.hold (hI : Inv H s) (hm : s.mounts.cell m = some mp) (hp : m ≠ s.pipeMount) :
    Inv ({.mref m} + H) (s.hold m) := by
  by_cases hr : m = s.rootMount
  · subst hr
    rw [hold_root]
    exact hI.takeRoot
  · rw [hold_of_ne hr]
    exact hI.takeMount hm hr hp

/-- The search moves its reference from a mount to a child of it. -/
theorem hold_moveRef (hc : c ≠ s.rootMount) (hne : c ≠ m) : (s.hold m).moveRef m c = s.hold c := by
  have hmove : (s.hold m).moveRef m c = if m ≠ s.rootMount then
      ((s.hold m).updMount c fun mp => { mp with refCount := inc mp.refCount }).updMount m
        fun mp => { mp with refCount := dec mp.refCount }
      else (s.hold m).updMount c fun mp => { mp with refCount := inc mp.refCount } := by
    simp [State.moveRef]
  rw [hmove, hold_of_ne hc]
  by_cases hr : m = s.rootMount
  · subst hr
    simp
  · rw [if_pos hr, hold_of_ne hr]
    have hcells : (((s.updMount m fun mp => { mp with refCount := inc mp.refCount }).updMount c
        fun mp => { mp with refCount := inc mp.refCount }).updMount m
        fun mp => { mp with refCount := dec mp.refCount }).mounts =
        (s.updMount c fun mp => { mp with refCount := inc mp.refCount }).mounts := by
      refine Heap.ext_cell (funext fun a => ?_) rfl
      by_cases ham : a = m
      · subst ham
        simp [Ne.symm hne, Option.map_map, Function.comp_def, inc, dec]
      · by_cases hac : a = c
        · subst hac
          simp [ham]
        · simp [ham, hac]
    exact congrArg (fun h : Heap MountPoint => { s with mounts := h }) hcells

theorem childFor_tree (hm : s.mounts.cell m = some mp) :
    s.childFor path mp = s.tree.childFor path m := by
  unfold State.childFor Tree.childFor
  have hchildren : s.tree.children m = mp.childMounts := by simp [State.tree, hm]
  rw [hchildren]
  refine List.find?_congr fun c _ => ?_
  simp [Option.any_map]

/-- A child of a mount is a TempFS mount of its own. -/
theorem childFor_some (hI : Inv H s) (hm : s.mounts.cell m = some mp)
    (hfind : s.tree.childFor path m = some c) : c ≠ s.rootMount ∧ c ≠ s.pipeMount ∧ c ≠ m ∧
      ∃ cp, s.mounts.cell c = some cp ∧ cp.parent = some m ∧ mountCmp path cp.path = true := by
  rw [← childFor_tree hm] at hfind
  obtain ⟨skel, hcp, hcroot, hcpar⟩ :=
    (hI.mountOK hm).children c (List.mem_of_find?_eq_some hfind)
  obtain ⟨cp, hcell, rfl⟩ := cell_of_skel hcp.1
  refine ⟨hcroot, hcp.2, ?_, cp, hcell, hcpar, ?_⟩
  · obtain ⟨q, qp, hq, -, -, hqne⟩ := (hI.mountOK hcell).parent hcroot hcp.2
    have heq : q = m := Option.some.inj (hq.symm.trans hcpar)
    rw [← heq]
    exact hqne.symm
  · have hsat := List.find?_some hfind
    simpa [hcell] using hsat

theorem findChild_run (path : Str) (hI : Inv H s) (hm : s.mounts.cell m = some mp) (hp : m ≠ s.pipeMount) :
    findChild path m (s.hold m) = .ok (s.tree.childFor path m, match s.tree.childFor path m with
      | some c => s.hold c
      | none => s.hold m) := by
  have hI' := hI.hold hm hp
  obtain ⟨mp', hm', hskel⟩ := cell_hold hm
  have hok := hI'.mountOK hm'
  have hlive : ∀ c ∈ mp'.childMounts, ∃ cp, (s.hold m).mounts.cell c = some cp := by
    intro c hc
    obtain ⟨cp, hcp, -⟩ := hok.children c hc
    obtain ⟨cp₀, hcell, -⟩ := cell_of_skel hcp.1
    exact ⟨cp₀, hcell⟩
  have hfor : (s.hold m).childFor path mp' = s.tree.childFor path m := by
    rw [childFor_tree hm', tree_hold]
  cases hfind : s.tree.childFor path m with
  | none => exact findChild_none hm' hok.childMountLock hlive (hfor.trans hfind)
  | some c =>
    obtain ⟨hcroot, -, hne, -⟩ := childFor_some hI hm hfind
    obtain ⟨cp, hcell⟩ := hlive c (List.mem_of_find?_eq_some (hfor.trans hfind))
    rw [findChild_some hm' hok.childMountLock hlive (hfor.trans hfind) hcell hne,
      hold_moveRef hcroot hne]

/-- A mount that the search can end at. -/
structure Serving (s : State) (path : Str) (m : MountRef) (mp : MountPoint) : Prop where
  cell : s.mounts.cell m = some mp
  notPipe : m ≠ s.pipeMount
  path : m = s.rootMount ∨ mountCmp path mp.path = true

theorem findMountPointFrom_run (hI : Inv H s) (hm : Serving s path m mp) :
    match s.tree.mountFrom path k m with
    | some c => (findMountPointFrom path k m).run (s.hold m) = .ok (c, s.hold c) ∧
        ∃ cp, Serving s path c cp
    | none => (findMountPointFrom path k m).run (s.hold m) = .error .block := by
  induction k generalizing m mp with
  | zero => rfl
  | succ k ih =>
    have hrun := findChild_run path hI hm.cell hm.notPipe
    simp only [Tree.mountFrom, findMountPointFrom]
    cases hfind : s.tree.childFor path m with
    | none =>
      rw [hfind] at hrun
      refine ⟨?_, mp, hm⟩
      rw [run_step _ hrun]
      rfl
    | some c =>
      rw [hfind] at hrun
      obtain ⟨hcroot, hcp, hne, cp, hcell, -, hcmp⟩ := childFor_some hI hm.cell hfind
      have hrec := ih ⟨hcell, hcp, Or.inr hcmp⟩
      rw [run_step _ hrun]
      exact hrec

theorem findMountPoint_run (path : Str) (hI : Inv H s) :
    match s.tree.mountFor path with
    | some c => (findMountPoint path).run s = .ok (c, s.hold c) ∧ ∃ cp, Serving s path c cp
    | none => (findMountPoint path).run s = .error .block := by
  obtain ⟨skel, hskel, hp⟩ := hI.shape.root
  obtain ⟨mp, hm, -⟩ := cell_of_skel hskel
  have hrun := findMountPointFrom_run (k := path.length + 1) hI
    (⟨hm, hp, Or.inl rfl⟩ : Serving s path s.rootMount mp)
  unfold findMountPoint
  rw [run_step _ get_ok]
  rwa [hold_root] at hrun

end ChenixOS.VFS
