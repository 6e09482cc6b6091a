import ChenixOS.Fs.Sections

/-!
# The links of directories

A new node begins with one link, and what is read into a node has the links that it was written with. So the
sections that neither add nor remove a link leave every directory with at most one.
-/

namespace ChenixOS

namespace VFS

variable {α β : Type} {K : Kernel} {s s' : State} {m : MountRef} {n : NodeRef} {id : Nat} {node : Node}

/-! ## Types and links -/

/-- The types of the nodes and of the `TestNode`s, with their links. -/
structure Kinds where
  node : NodeRef → Option (NodeType × Nat)
  test : Nat → Option (NodeType × Nat)

def State.kinds (s : State) : Kinds where
  node n := (s.nodes.cell n).map fun node => (node.type, node.linkCount)
  test id := (s.testNodes.cell id).map fun tn => (tn.type, tn.linkRefCount)

/-- Directories have at most one link each. -/
structure Kinds.Single (k : Kinds) : Prop where
  node : ∀ n links, k.node n = some (.directory, links) → links ≤ 1
  test : ∀ id links, k.test id = some (.directory, links) → links ≤ 1

/-- No directory gets a second link. -/
def KeepsSingle (s s' : State) : Prop := s.kinds.Single → s'.kinds.Single

theorem KeepsSingle.refl (s : State) : KeepsSingle s s := id

theorem KeepsSingle.trans (s₁ s₂ s₃ : State) (h : KeepsSingle s₁ s₂) (h' : KeepsSingle s₂ s₃) : KeepsSingle s₁ s₃ :=
  fun hs => h' (h hs)

/-- The section gives no directory a second link. -/
def Lone {β : Type} (act : M β) : Prop := ∀ s b s', act s = .ok (b, s') → KeepsSingle s s'

theorem lone_of_fixes {act : M β} (h : Fixes State.kinds act) : Lone act := by
  intro s b s' hrun hs
  rw [h s b s' hrun]
  exact hs

/-- One node is changed. -/
theorem single_updNode {f : Node → Node}
    (hf : ∀ node, s.nodes.cell n = some node → (f node).type = .directory → (f node).linkCount ≤ 1) :
    KeepsSingle s (s.updNode n f) := by
  intro hs
  refine ⟨fun n' links hn' => ?_, hs.test⟩
  by_cases heq : n' = n
  · subst heq
    have hcell : ((s.nodes.cell n').map f).map (fun node => (node.type, node.linkCount)) =
        some (.directory, links) := by simpa [State.kinds] using hn'
    obtain ⟨node', hmap, hkind⟩ := Option.map_eq_some_iff.1 hcell
    obtain ⟨node, hn, rfl⟩ := Option.map_eq_some_iff.1 hmap
    obtain ⟨htype, rfl⟩ := Prod.mk.inj hkind
    exact hf node hn htype
  · exact hs.node n' links (by simpa [State.kinds, heq] using hn')

theorem modifyMount_kinds (m : MountRef) (f : MountPoint → MountPoint) : Fixes State.kinds (modifyMount m f) :=
  fun s b s' h => by
    obtain rfl := modifyMount_eq_ok h
    rfl

theorem blind_kinds : Blind State.kinds where
  mount m f _ := modifyMount_kinds m f
  node n f hf s b s' h := by
    obtain ⟨node, -, rfl⟩ := modifyNode_eq_ok h
    unfold State.kinds
    congr 1
    funext n'
    by_cases heq : n' = n
    · subst heq
      simp [Option.map_map, Function.comp_def, hf]
    · simp [heq]
  test id f hf s b s' h := by
    obtain rfl := modifyTestNode_eq_ok h
    unfold State.kinds
    congr 1
    funext id'
    by_cases heq : id' = id
    · subst heq
      simp [State.updTestNode, Option.map_map, Function.comp_def, hf]
    · simp [State.updTestNode, heq]
  desc d f s b s' h := by
    obtain ⟨desc, -, rfl⟩ := modifyDesc_eq_ok h
    rfl
  newDesc K desc s b s' h := by
    cases h
    rfl
  deleteDesc d s b s' h := by
    cases h
    rfl

/-! ## Nodes that come and go -/

namespace Lone

theorem bind {act : M α} {k : α → M β} (h : Lone act) (hk : ∀ a, Lone (k a)) : Lone (act >>= k) := by
  intro s b s' hrun
  obtain ⟨a, s₁, hact, hrun₁⟩ := M.bind_eq_ok hrun
  exact KeepsSingle.trans _ _ _ (h s a s₁ hact) (hk a s₁ b s' hrun₁)

theorem ite {c : Prop} [Decidable c] {act act' : M α} (h : Lone act) (h' : Lone act') :
    Lone (if c then act else act') := by
  split_ifs
  · exact h
  · exact h'

/-- A new `TestNode` that is no directory, or has one link. -/
theorem allocTestNode {tn : TestNode} (htn : tn.type = .directory → tn.linkRefCount ≤ 1) :
    Lone (TempFS.allocTestNode K tn) := by
  intro s b s' hrun hs
  cases hrun
  refine ⟨hs.node, fun id links hid => ?_⟩
  by_cases heq : id = s.testNodes.fresh K.alloc
  · subst heq
    obtain ⟨htype, rfl⟩ : tn.type = .directory ∧ tn.linkRefCount = links := by simpa [State.kinds] using hid
    exact htn htype
  · exact hs.test id links (by simpa [State.kinds, heq] using hid)

theorem newNode (id : Nat) (m : MountRef) (refCount : Nat) (ready : Bool) : Lone (newNode K id m refCount ready) := by
  intro s b s' hrun hs
  cases hrun
  refine ⟨fun n links hn => ?_, hs.test⟩
  by_cases heq : n = s.nodes.fresh K.alloc
  · subst heq
    simp [State.kinds] at hn
  · exact hs.node n links (by simpa [State.kinds, heq] using hn)

theorem fsCreateNode (m : MountRef) : Lone (fsCreateNode K m) := by
  refine bind (lone_of_fixes (.getMount m)) fun mp => ?_
  cases mp.fs with
  | tempFS r m_MP =>
    have halloc : Lone (TempFS.createNode K) := allocTestNode fun htype => by cases htype
    exact halloc.bind fun _ => lone_of_fixes (.pure _)
  | pipeFS pipes => exact lone_of_fixes (.bind (modifyMount_kinds m _) fun _ => .pure _)

theorem fsDestroyNode (m : MountRef) (id : Nat) : Lone (fsDestroyNode m id) := by
  refine bind (lone_of_fixes (.getMount m)) fun mp => ?_
  cases mp.fs with
  | tempFS r m_MP =>
    refine bind (lone_of_fixes (.getTestNode id)) fun _ s b s' hrun hs => ?_
    cases hrun
    refine ⟨hs.node, fun id' links hid => hs.test id' links ?_⟩
    by_cases heq : id' = id
    · subst heq
      simp [State.kinds] at hid
    · simpa [State.kinds, heq] using hid
  | pipeFS pipes => exact lone_of_fixes (.bind (.lift _) fun _ => modifyMount_kinds m _)

theorem releaseNode (n : NodeRef) (decrement : Bool) : Lone (releaseNode n decrement) := by
  have hfree : Lone (do
      let node ← VFS.getNode n
      if node.refCount = 0 ∧ node.linkCount = 0 then do
        VFS.modifyMount node.mp fun mp => { mp with nodeCache := mp.nodeCache.erase n }
        VFS.unlockNodeCache node.mp
        VFS.fsDestroyNode node.mp node.id
        fun s => .ok ((), { s with nodes := s.nodes.free n })
      else VFS.unlockNodeCache node.mp : M Unit) := by
    refine bind (lone_of_fixes (.getNode n)) fun node => ite ?_ (lone_of_fixes (modifyMount_kinds _ _))
    refine bind (lone_of_fixes (modifyMount_kinds _ _)) fun _ => bind (lone_of_fixes (modifyMount_kinds _ _)) fun _ =>
      bind (fsDestroyNode _ _) fun _ s b s' hrun hs => ?_
    cases hrun
    refine ⟨fun n' links hn' => hs.node n' links ?_, hs.test⟩
    by_cases heq : n' = n
    · subst heq
      simp [State.kinds] at hn'
    · simpa [State.kinds, heq] using hn'
  refine bind (lone_of_fixes (.getNode n)) fun node => bind (lone_of_fixes (blind_kinds.lockNodeCache _)) fun _ => ?_
  cases decrement with
  | true => exact bind (lone_of_fixes (blind_kinds.node n _ fun _ => ⟨rfl, rfl⟩)) fun _ => hfree
  | false => exact hfree

/-- What is read into a node has the links of its `TestNode`. -/
theorem fsReadNode {node' : Node} (hs : s.kinds.Single) (hlink : node.type = .directory → node.linkCount ≤ 1)
    (hrun : VFS.fsReadNode m id node s = .ok (node', s')) : node'.type = .directory → node'.linkCount ≤ 1 := by
  obtain ⟨mp, s₁, hget, hrun₁⟩ := M.bind_eq_ok hrun
  obtain ⟨-, rfl⟩ := getMount_eq_ok hget
  cases hfs : mp.fs with
  | pipeFS pipes =>
    rw [hfs] at hrun₁
    cases hrun₁
    exact hlink
  | tempFS r m_MP =>
    rw [hfs] at hrun₁
    obtain ⟨tn, s₂, htest, hrun₂⟩ := M.bind_eq_ok hrun₁
    obtain ⟨htn, rfl⟩ := getTestNode_eq_ok htest
    cases m_MP with
    | none => cases hrun₂
    | some mp =>
      cases hrun₂
      intro htype
      exact hs.test id tn.linkRefCount (by simpa [State.kinds, htn] using htype)

theorem acquireNode (m : MountRef) (id : Nat) : Lone (acquireNode K m id) := by
  refine bind (lone_of_fixes (blind_kinds.lockNodeCache m)) fun _ => bind (lone_of_fixes (.getMount m)) fun mp =>
    bind (lone_of_fixes (.findCached id _)) fun o => ?_
  cases o with
  | some n =>
    exact lone_of_fixes (.bind (blind_kinds.node n _ fun _ => ⟨rfl, rfl⟩) fun _ =>
      .bind (modifyMount_kinds m _) fun _ => .bind (.getNode n) fun _ => .ite (.pure _) (.stop _))
  | none =>
    refine bind (newNode id m 1 false) fun n => bind (lone_of_fixes (modifyMount_kinds m _)) fun _ =>
      bind (lone_of_fixes (modifyMount_kinds m _)) fun _ s b s' hrun hs => ?_
    obtain ⟨node, s₁, hget, hrun₁⟩ := M.bind_eq_ok hrun
    obtain ⟨hn, rfl⟩ := getNode_eq_ok hget
    obtain ⟨node', s₂, hread, hrun₂⟩ := M.bind_eq_ok hrun₁
    obtain rfl : s₂ = s₁ := Fixes.fsReadNode (g := fun s : State => s) m id node _ _ _ hread
    have hnode : node.type = .directory → node.linkCount ≤ 1 :=
      fun htype => hs.node n node.linkCount (by simp [State.kinds, hn, htype])
    obtain ⟨_, s₃, hset, hrun₃⟩ := M.bind_eq_ok hrun₂
    obtain ⟨-, -, rfl⟩ := modifyNode_eq_ok hset
    cases hrun₃
    have hlink := fsReadNode hs hnode hread
    exact single_updNode (f := fun _ => { node' with ready := true }) (fun _ _ => hlink) hs

theorem createNode (m : MountRef) (softRefs : Nat) {init : Node → Node} (hinit : Begins init) :
    Lone (createNode K m softRefs init) := by
  refine bind (fsCreateNode m) fun p s b s' hrun hs => ?_
  obtain ⟨n, s₁, hnew, hrun₁⟩ := M.bind_eq_ok hrun
  have hs₁ := newNode p.1 m softRefs p.2 _ _ _ hnew hs
  have hblank : s₁.kinds.node n = some (.file, 0) := by
    cases hnew
    simp [State.kinds]
  obtain ⟨_, s₂, hlock, hrun₂⟩ := M.bind_eq_ok hrun₁
  obtain ⟨_, s₃, hpush, hrun₃⟩ := M.bind_eq_ok hrun₂
  obtain ⟨_, s₄, hunlock, hrun₄⟩ := M.bind_eq_ok hrun₃
  have hkinds : s₄.kinds = s₁.kinds :=
    ((modifyMount_kinds m _ _ _ _ hunlock).trans (modifyMount_kinds m _ _ _ _ hpush)).trans
      (blind_kinds.lockNodeCache m _ _ _ hlock)
  obtain ⟨_, s₅, hset, hrun₅⟩ := M.bind_eq_ok hrun₄
  obtain ⟨-, -, rfl⟩ := modifyNode_eq_ok hset
  cases hrun₅
  refine single_updNode (fun node hn _ => ?_) (hkinds ▸ hs₁)
  have hkind : (node.type, node.linkCount) = (.file, 0) := by
    rw [← hkinds] at hblank
    simpa [State.kinds, hn] using hblank
  exact hinit node (Prod.mk.inj hkind).2

theorem attach (m : MountRef) (path : Str) (id : Nat) : Lone (attach K m path id) := by
  have hnew : Fixes State.kinds (newMountPoint K m path id) := fun s b s' h => by
    cases h
    rfl
  exact lone_of_fixes (.bind hnew fun _ => .bind (blind_kinds.lockChildMounts m) fun _ => .bind (modifyMount_kinds m _)
    fun _ => modifyMount_kinds m _)

theorem detach (m : MountRef) : Lone (detach m) := by
  refine lone_of_fixes (.bind (.getMount m) fun mp => ?_)
  cases mp.parent with
  | none => exact .stop _
  | some parent =>
    refine .bind (blind_kinds.lockChildMounts parent) fun _ => .bind (.getMount m) fun mp => .ite ?_ ?_
    · refine .bind (modifyMount_kinds parent _) fun _ => .bind (modifyMount_kinds parent _) fun _ s b s' h => ?_
      cases h
      rfl
    · exact .bind (modifyMount_kinds parent _) fun _ => .pure _

end Lone

/-- **No section but those on links** gives a directory a second one. -/
theorem sections_lone : Sections K @Lone :=
  blind_kinds.sections lone_of_fixes Lone.bind (Lone.allocTestNode fun _ => le_rfl) Lone.acquireNode Lone.releaseNode
    fun m softRefs _ hinit => Lone.createNode m softRefs hinit

end VFS

end ChenixOS
