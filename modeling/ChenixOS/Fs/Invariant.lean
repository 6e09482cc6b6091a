import ChenixOS.Fs.Eval
import Mathlib.Algebra.BigOperators.Group.Multiset.Basic

/-!
# The invariant of the file system

Between two lock-protected sections the counters of the file system do not match the objects
that are there: a thread holds references that no descriptor shows, and link counts that no
directory entry shows. The invariant is therefore stated relative to what all threads hold
together, a multiset of tokens. A token is

* a share of a counter: `ref`, `mref`, `pref`, `link`, `fd`, or a `debt` to one;
* an object that nothing points to yet, or any more: `dying`, `own`;
* something the thread has seen and relies on: `sees`, `named`, `empty`, `isRoot`, `at`, and the
  knowledge that a `ref` carries.

When no call is in progress, no thread holds anything but the descriptors that are open, and
`Inv` says that the counters are exact.
-/

namespace ChenixOS.VFS

/-! ## Tokens -/

/-- What a thread knows about a node it holds a reference to. -/
inductive Known
  | nothing
  | type (type : NodeType)
  /-- The node is a directory without an entry of this name. -/
  | lacks (name : Str)
  deriving DecidableEq

inductive Tok
  /-- A reference to the node `n`, cached in `m`; `root` tells whether it is the root there. -/
  | ref (m : MountRef) (n : NodeRef) (root : Bool) (known : Known)
  /-- A reference to a mount. -/
  | mref (m : MountRef)
  /-- A reference to the mount of the pipes. -/
  | pref (m : MountRef)
  /-- A reference to the mount of the pipes that was not taken where it should have been. -/
  | debt (m : MountRef)
  /-- A unit of the link count of `n` without a directory entry. -/
  | link (n : NodeRef)
  /-- A reference to a descriptor. -/
  | fd (d : DescRef)
  /-- A descriptor that is being closed. -/
  | dying (d : DescRef)
  /-- A `TestNode` that no mount has; a `fresh` one is the root of a file system to be mounted. -/
  | own (id : Nat) (fresh : Bool)
  /-- The directory `dir`, cached in `m`, has an entry `name` for `id`. -/
  | sees (m : MountRef) (dir : NodeRef) (name : Str) (id : Nat)
  /-- The directory `dir` has an entry `name` for the node `n`. -/
  | named (dir : NodeRef) (name : Str) (n : NodeRef)
  /-- The node `n` has no entries. -/
  | empty (n : NodeRef)
  /-- The node `n` is the root of `m`. -/
  | isRoot (m : MountRef) (n : NodeRef)
  /-- The mount `m` is mounted at `path`. -/
  | at (m : MountRef) (path : Str)
  deriving DecidableEq

/-- What a token is counted for. -/
inductive Key
  | node (n : NodeRef)
  | link (n : NodeRef)
  | mount (m : MountRef)
  | debt (m : MountRef)
  | desc (d : DescRef)
  | closing (d : DescRef)
  | test (id : Nat)
  deriving DecidableEq

def Tok.key : Tok → Option Key
  | ref _ n _ _ => some (.node n)
  | mref m | pref m => some (.mount m)
  | debt m => some (.debt m)
  | link n => some (.link n)
  | fd d => some (.desc d)
  | dying d => some (.closing d)
  | own id _ => some (.test id)
  | sees .. | named .. | empty _ | isRoot .. | .at .. => none

example : (Tok.fd 0).key = some (.desc 0) := by simp [Tok.key]

namespace Tok

variable {t : Tok}

@[simp] theorem key_ref (m : MountRef) (n : NodeRef) (root : Bool) (known : Known) :
    (ref m n root known).key = some (.node n) := rfl
@[simp] theorem key_mref (m : MountRef) : (mref m).key = some (.mount m) := rfl
@[simp] theorem key_pref (m : MountRef) : (pref m).key = some (.mount m) := rfl
@[simp] theorem key_debt (m : MountRef) : (debt m).key = some (.debt m) := rfl
@[simp] theorem key_link (n : NodeRef) : (link n).key = some (.link n) := rfl
@[simp] theorem key_fd (d : DescRef) : (fd d).key = some (.desc d) := rfl
@[simp] theorem key_dying (d : DescRef) : (dying d).key = some (.closing d) := rfl
@[simp] theorem key_own (id : Nat) (fresh : Bool) : (own id fresh).key = some (.test id) := rfl
@[simp] theorem key_sees (m : MountRef) (dir : NodeRef) (name : Str) (id : Nat) :
    (sees m dir name id).key = none := rfl
@[simp] theorem key_named (dir : NodeRef) (name : Str) (n : NodeRef) :
    (named dir name n).key = none := rfl
@[simp] theorem key_empty (n : NodeRef) : (empty n).key = none := rfl
@[simp] theorem key_isRoot (m : MountRef) (n : NodeRef) : (isRoot m n).key = none := rfl
@[simp] theorem key_at (m : MountRef) (path : Str) : (Tok.at m path).key = none := rfl

theorem key_eq_node {n : NodeRef} (h : t.key = some (.node n)) :
    ∃ m root known, t = ref m n root known := by
  cases t <;> simp [key] at h ⊢
  exact h

theorem key_eq_mount {m : MountRef} (h : t.key = some (.mount m)) : t = mref m ∨ t = pref m := by
  cases t <;> simp [key] at h ⊢ <;> exact h

theorem key_eq_link {n : NodeRef} (h : t.key = some (.link n)) : t = link n := by
  cases t <;> simp [key] at h ⊢
  exact h

theorem key_eq_desc {d : DescRef} (h : t.key = some (.desc d)) : t = fd d := by
  cases t <;> simp [key] at h ⊢
  exact h

theorem key_eq_closing {d : DescRef} (h : t.key = some (.closing d)) : t = dying d := by
  cases t <;> simp [key] at h ⊢
  exact h

theorem key_eq_test {id : Nat} (h : t.key = some (.test id)) : ∃ fresh, t = own id fresh := by
  cases t <;> simp [key] at h ⊢
  exact h

end Tok

/-- What all threads hold together. -/
abbrev Held := Multiset Tok

theorem mem_head (t : Tok) (H : Held) : t ∈ {t} + H := by simp

theorem mem_tail {t t' : Tok} {H : Held} (h : t ∈ H) : t ∈ {t'} + H := by simp [h]

/-- How many tokens count for `k`. -/
def total (k : Key) (H : Held) : Nat := H.countP fun t => t.key = some k

@[simp] theorem total_zero (k : Key) : total k 0 = 0 := rfl

@[simp] theorem total_add (k : Key) (H H' : Held) :
    total k (H + H') = total k H + total k H' := by
  simp [total]

@[simp] theorem total_singleton (k : Key) (t : Tok) :
    total k {t} = if t.key = some k then 1 else 0 := by
  rw [total, ← Multiset.cons_zero, Multiset.countP_cons, Multiset.countP_zero, Nat.zero_add]

@[simp] theorem total_cons (k : Key) (t : Tok) (H : Held) :
    total k (t ::ₘ H) = (if t.key = some k then 1 else 0) + total k H := by
  rw [← Multiset.singleton_add, total_add, total_singleton]

theorem total_pos {k : Key} {H : Held} {t : Tok} (h : t ∈ H) (hk : t.key = some k) :
    0 < total k H :=
  Multiset.countP_pos.2 ⟨t, h, hk⟩

theorem exists_of_total_pos {k : Key} {H : Held} (h : 0 < total k H) :
    ∃ t ∈ H, t.key = some k :=
  Multiset.countP_pos.1 h

/-! ## What of the state matters -/

/-- A mount without its counter and without the contents of its file system. -/
def MountPoint.skel (mp : MountPoint) : MountPoint :=
  { mp with
    refCount := 0
    fs := match mp.fs with
      | .tempFS r m_MP => .tempFS r m_MP
      | .pipeFS _ => .pipeFS [] }

/-- The parts of the state that the counters and the contents of files do not touch. -/
structure View where
  skel : MountRef → Option MountPoint
  idOf : NodeRef → Option Nat
  typeOf : NodeRef → Option NodeType
  entriesOf : NodeRef → List DirectoryEntry
  tests : Nat → Option TestNode
  /-- The ids of the pipes, slot by slot. -/
  slots : List Nat
  root : MountRef
  pipe : MountRef

def FileSystem.slots : FileSystem → List Nat
  | .tempFS _ _ => []
  | .pipeFS pipes => pipes.map PipeFS.Pipe.id

def State.view (s : State) : View where
  skel m := (s.mounts.cell m).map MountPoint.skel
  idOf n := (s.nodes.cell n).map Node.id
  typeOf n := (s.nodes.cell n).map Node.type
  entriesOf n := (s.nodes.cell n).elim [] Node.entries
  tests id := (s.testNodes.cell id).map fun tn => { tn with fileData := [] }
  slots := (s.mounts.cell s.pipeMount).elim [] fun mp => mp.fs.slots
  root := s.rootMount
  pipe := s.pipeMount

example (s : State) : s.view.root = s.rootMount := by simp [State.view]

namespace View

variable (v : View)

/-- The TempFS mounts. -/
def Temp (m : MountRef) (mp : MountPoint) : Prop := v.skel m = some mp ∧ m ≠ v.pipe

/-- How many entries of the directories in `cache` name the node `id`. -/
def links (cache : List NodeRef) (id : Nat) : Nat :=
  (cache.map fun n => (v.entriesOf n).countP fun e => e.nodeID = id).sum

/-- The TempFS mount `m` has the `TestNode` `id`. -/
def Has (m : MountRef) (id : Nat) : Prop :=
  ∃ mp, v.Temp m mp ∧ (mp.rootNode = id ∨ ∃ n ∈ mp.nodeCache, v.idOf n = some id)

end View

/-- How many open descriptors there are for the nodes with `p`. -/
def openOn (descs : Heap FileDescriptor) (p : NodeRef → Bool) : Nat :=
  descs.sum fun desc => if desc.refCount ≠ 0 ∧ p desc.node then 1 else 0

/-- How many mounts have the parent `m`. -/
def childCount (mounts : Heap MountPoint) (m : MountRef) : Nat :=
  mounts.sum fun mp => if mp.parent = some m then 1 else 0

/-! ## Shape -/

/-- The `TestNode` of the root of a TempFS, as the constructor leaves it. -/
structure RootTest (tn : TestNode) : Prop where
  type : tn.type = .directory
  dir : ∃ dir, tn.dir = some dir ∧ dir.entries = []
  linkRefCount : tn.linkRefCount = 1

/-- A mount and its place in the tree. -/
structure MountOK (v : View) (m : MountRef) (mp : MountPoint) : Prop where
  childMountLock : mp.childMountLock = false
  nodeCacheLock : mp.nodeCacheLock = false
  nodup : mp.nodeCache.Nodup
  live : ∀ n ∈ mp.nodeCache, ∃ id, v.idOf n = some id
  children : ∀ c ∈ mp.childMounts, ∃ cp, v.Temp c cp ∧ c ≠ v.root ∧ cp.parent = some m
  childNodup : mp.childMounts.Nodup
  /-- A mount other than the root and the pipes hangs below its parent. -/
  parent : m ≠ v.root → m ≠ v.pipe →
    ∃ p pp, mp.parent = some p ∧ v.Temp p pp ∧ m ∈ pp.childMounts ∧ p ≠ m
  noParent : m = v.root ∨ m = v.pipe → mp.parent = none
  /-- The file system believes that it is mounted at the parent. -/
  fs : m ≠ v.pipe →
    ∃ m_MP, mp.fs = .tempFS mp.rootNode (some m_MP) ∧ (m = v.root → m_MP = m) ∧
      (m ≠ v.root → mp.parent = some m_MP)
  pipes : m = v.pipe → mp.fs = .pipeFS [] ∧ mp.childMounts = []
  rootTest : m ≠ v.pipe → ∃ tn, v.tests mp.rootNode = some tn ∧ RootTest tn
  path : m = v.root → mp.path = []

structure Shape (v : View) : Prop where
  root : ∃ mp, v.Temp v.root mp
  pipe : ∃ mp, v.skel v.pipe = some mp
  mount : ∀ m mp, v.skel m = some mp → MountOK v m mp
  /-- A node is in one cache. -/
  disjoint : ∀ m mp m' mp' n, v.skel m = some mp → v.skel m' = some mp' →
    n ∈ mp.nodeCache → n ∈ mp'.nodeCache → m = m'
  /-- An id belongs to one mount, and there to one node. -/
  has : ∀ m m' id, v.Has m id → v.Has m' id → m = m'
  inj : ∀ m mp n n' id, v.Temp m mp → n ∈ mp.nodeCache → n' ∈ mp.nodeCache →
    v.idOf n = some id → v.idOf n' = some id → n = n'
  alive : ∀ m id, v.Has m id → ∃ tn, v.tests id = some tn
  /-- A pipe knows the slot it is in. -/
  slots : v.slots = List.range v.slots.length

/-! ## Nodes, descriptors and tokens -/

/-- An entry of a directory that is cached in `mp`. -/
structure EntryOK (v : View) (mp : MountPoint) (e : DirectoryEntry) : Prop where
  ne_nil : e.name ≠ []
  noSlash : '/' ∉ e.name
  notRoot : e.nodeID ≠ mp.rootNode
  cached : ∃ n ∈ mp.nodeCache, v.idOf n = some e.nodeID

/-- A node in the cache of a TempFS mount. -/
structure TempNode (H : Held) (v : View) (m : MountRef) (mp : MountPoint) (n : NodeRef)
    (node : Node) : Prop where
  mp_eq : node.id ≠ mp.rootNode → node.mp = m
  mp_root : node.id = mp.rootNode → mp.fs = .tempFS mp.rootNode (some node.mp)
  ready : node.ready = true
  linkCount : node.linkCount = (if node.id = mp.rootNode then 1 else 0) +
    v.links mp.nodeCache node.id + total (.link n) H
  /-- What is not linked holds nothing. -/
  unlinked : node.linkCount = 0 → node.entries = []
  folder : node.type = .directory → ∃ dir, node.info = .folder dir
  isFolder : node.type ≠ .directory → node.entries = []
  symlink : node.type = .symlink → ∃ linkPath, node.info = .symlink linkPath
  rootType : node.id = mp.rootNode → node.type = .directory
  names : (node.entries.map DirectoryEntry.name).Nodup
  entry : ∀ e ∈ node.entries, EntryOK v mp e

/-- A node in the cache of the pipes. -/
structure PipeNode (v : View) (node : Node) : Prop where
  mp_eq : node.mp = v.pipe
  linkCount : node.linkCount = 0
  entries : node.entries = []
  slot : node.id < v.slots.length

structure NodeOK (H : Held) (v : View) (descs : Heap FileDescriptor) (m : MountRef)
    (mp : MountPoint) (n : NodeRef) (node : Node) : Prop where
  dirLock : node.dirLock = false
  refCount : node.refCount = openOn descs (fun n' => n' = n) + total (.node n) H
  /-- A node that is neither referenced nor linked is not kept. -/
  needed : 0 < node.refCount + node.linkCount
  temp : m ≠ v.pipe → TempNode H v m mp n node
  pipe : m = v.pipe → PipeNode v node

/-- A descriptor that is open names a cached node, not the root of a mount, and neither a directory
nor a link. -/
structure DescOK (H : Held) (v : View) (d : DescRef) (desc : FileDescriptor) : Prop where
  refCount : desc.refCount = total (.desc d) H
  closing : total (.closing d) H = if desc.refCount = 0 then 1 else 0
  cached : desc.refCount ≠ 0 → ∃ m mp, v.skel m = some mp ∧ desc.node ∈ mp.nodeCache ∧
    (m ≠ v.pipe → v.idOf desc.node ≠ some mp.rootNode)
  type : desc.refCount ≠ 0 →
    ∃ t, v.typeOf desc.node = some t ∧ t ≠ .directory ∧ t ≠ .symlink

def Known.Holds (v : View) (n : NodeRef) : Known → Prop
  | .nothing => True
  | .type t => v.typeOf n = some t
  | .lacks name => v.typeOf n = some .directory ∧ ∀ e ∈ v.entriesOf n, e.name ≠ name

/-- What a token promises. -/
def TokOK (v : View) (descs : Heap FileDescriptor) : Tok → Prop
  | .ref m n root known => ∃ mp, v.skel m = some mp ∧ n ∈ mp.nodeCache ∧
      (root = true ↔ m ≠ v.pipe ∧ v.idOf n = some mp.rootNode) ∧ known.Holds v n
  | .mref m => ∃ mp, v.Temp m mp
  | .pref m | .debt m => m = v.pipe
  | .link n => ∃ m mp, v.Temp m mp ∧ n ∈ mp.nodeCache
  | .fd d => ∃ desc, descs.cell d = some desc
  | .dying d => ∃ desc, descs.cell d = some desc ∧ desc.refCount = 0
  | .own id fresh => (∃ tn, v.tests id = some tn ∧ (fresh = true → RootTest tn)) ∧
      ∀ m, ¬ v.Has m id
  | .sees m dir name id => ∃ mp, v.Temp m mp ∧ dir ∈ mp.nodeCache ∧ ⟨name, id⟩ ∈ v.entriesOf dir
  | .named dir name n => ∃ m mp id, v.Temp m mp ∧ dir ∈ mp.nodeCache ∧ n ∈ mp.nodeCache ∧
      v.idOf n = some id ∧ ⟨name, id⟩ ∈ v.entriesOf dir
  | .empty n => v.entriesOf n = []
  | .isRoot m n => ∃ mp, v.Temp m mp ∧ n ∈ mp.nodeCache ∧ v.idOf n = some mp.rootNode
  | .at m path => ∃ mp, v.skel m = some mp ∧ mp.path = path

/-- Every `TestNode` belongs to a mount or is a token. -/
structure Owned (H : Held) (v : View) : Prop where
  once : ∀ id, total (.test id) H ≤ 1
  owner : ∀ id tn, v.tests id = some tn → (∃ m, v.Has m id) ∨ 0 < total (.test id) H

/-- Every `TestNode` was created once more often than destroyed while it is there, and as often
when it is not. -/
def History (s : State) : Prop :=
  ∀ id, s.created.count id = s.destroyed.count id + if (s.testNodes.cell id).isSome then 1 else 0

/-- The counter of a mount. That of the root stands still; that of the pipes, a 64-bit number, is
too low by the references that were not taken. -/
structure MountCount (H : Held) (s : State) (m : MountRef) (mp : MountPoint) : Prop where
  root : m = s.rootMount → mp.refCount = 2
  pipe : m = s.pipeMount →
    mp.refCount < 2 ^ 64 ∧ (mp.refCount + total (.debt m) H) % 2 ^ 64 =
      (openOn s.descs (fun n => n ∈ mp.nodeCache) + total (.mount m) H) % 2 ^ 64
  other : m ≠ s.rootMount → m ≠ s.pipeMount →
    mp.refCount = openOn s.descs (fun n => n ∈ mp.nodeCache) + childCount s.mounts m +
      total (.mount m) H

/-! ## The invariant -/

/-- **The invariant**, relative to the tokens `H` that the threads hold. -/
structure Inv (H : Held) (s : State) : Prop where
  shape : Shape s.view
  toks : ∀ t ∈ H, TokOK s.view s.descs t
  nodes : ∀ m mp n node, s.view.skel m = some mp → n ∈ mp.nodeCache →
    s.nodes.cell n = some node → NodeOK H s.view s.descs m mp n node
  mounts : ∀ m mp, s.mounts.cell m = some mp → MountCount H s m mp
  descs : ∀ d desc, s.descs.cell d = some desc → DescOK H s.view d desc
  owned : Owned H s.view
  history : History s

end ChenixOS.VFS
