import ChenixOS.Fs.Invariant

/-!
# Counters and entries

Changes that leave all objects where they are: a counter of a node or of a mount moves together
with the tokens, or an entry is added to or removed from a directory.
-/

namespace ChenixOS.VFS

variable {K : Kernel} {H H' : Held} {s : State} {n : NodeRef} {m : MountRef} {d : DescRef}
  {id : Nat} {node : Node} {mp : MountPoint} {desc : FileDescriptor} {t : Tok}

/-! ## Reading the invariant -/

theorem skel_of_cell (hm : s.mounts.cell m = some mp) : s.view.skel m = some mp.skel := by
  simp [State.view, hm]

/-- The mount behind a skeleton. -/
theorem cell_of_skel (h : s.view.skel m = some mp) :
    ∃ mp₀, s.mounts.cell m = some mp₀ ∧ mp₀.skel = mp := by
  simpa [State.view] using h

theorem idOf_of_cell (hn : s.nodes.cell n = some node) : s.view.idOf n = some node.id := by
  simp [State.view, hn]

theorem typeOf_of_cell (hn : s.nodes.cell n = some node) : s.view.typeOf n = some node.type := by
  simp [State.view, hn]

theorem entriesOf_of_cell (hn : s.nodes.cell n = some node) :
    s.view.entriesOf n = node.entries := by
  simp [State.view, hn]

theorem cell_of_idOf (h : s.view.idOf n = some id) :
    ∃ node, s.nodes.cell n = some node ∧ node.id = id := by
  simpa [State.view] using h

@[simp] theorem skel_nodeCache (mp : MountPoint) : mp.skel.nodeCache = mp.nodeCache := rfl
@[simp] theorem skel_childMounts (mp : MountPoint) : mp.skel.childMounts = mp.childMounts := rfl
@[simp] theorem skel_rootNode (mp : MountPoint) : mp.skel.rootNode = mp.rootNode := rfl
@[simp] theorem skel_parent (mp : MountPoint) : mp.skel.parent = mp.parent := rfl
@[simp] theorem skel_path (mp : MountPoint) : mp.skel.path = mp.path := rfl
@[simp] theorem skel_nodeCacheLock (mp : MountPoint) :
    mp.skel.nodeCacheLock = mp.nodeCacheLock := rfl
@[simp] theorem skel_childMountLock (mp : MountPoint) :
    mp.skel.childMountLock = mp.childMountLock := rfl

theorem fs_of_skel {r : Nat} {m_MP : Option MountRef} (h : mp.skel.fs = .tempFS r m_MP) :
    mp.fs = .tempFS r m_MP := by
  unfold MountPoint.skel at h
  cases hfs : mp.fs with
  | tempFS r' m' => simpa [hfs] using h
  | pipeFS pipes => simp [hfs] at h

theorem pipes_of_skel (h : mp.skel.fs = .pipeFS []) : ∃ pipes, mp.fs = .pipeFS pipes := by
  unfold MountPoint.skel at h
  cases hfs : mp.fs with
  | tempFS r' m' => simp [hfs] at h
  | pipeFS pipes => exact ⟨pipes, rfl⟩

namespace Inv

theorem mountOK (h : Inv H s) (hm : s.mounts.cell m = some mp) : MountOK s.view m mp.skel :=
  h.shape.mount m _ (skel_of_cell hm)

/-- The nodes in a cache are there. -/
theorem live (h : Inv H s) (hm : s.mounts.cell m = some mp) (hn : n ∈ mp.nodeCache) :
    ∃ node, s.nodes.cell n = some node := by
  obtain ⟨id, hid⟩ := (h.mountOK hm).live n hn
  obtain ⟨node, hnode, -⟩ := cell_of_idOf hid
  exact ⟨node, hnode⟩

theorem nodeOK (h : Inv H s) (hm : s.mounts.cell m = some mp) (hn : n ∈ mp.nodeCache)
    (hnode : s.nodes.cell n = some node) : NodeOK H s.view s.descs m mp.skel n node :=
  h.nodes m _ n node (skel_of_cell hm) hn hnode

/-- The mount that a cached node believes to be in is there, and its locks are free. -/
theorem nodeMount (h : Inv H s) (hm : s.mounts.cell m = some mp) (hn : n ∈ mp.nodeCache)
    (hnode : s.nodes.cell n = some node) :
    ∃ mp', s.mounts.cell node.mp = some mp' ∧ mp'.nodeCacheLock = false := by
  have hok := h.nodeOK hm hn hnode
  have hmp := h.mountOK hm
  by_cases hpipe : m = s.view.pipe
  · rw [(hok.pipe hpipe).mp_eq, ← hpipe]
    exact ⟨mp, hm, hmp.nodeCacheLock⟩
  · have htemp := hok.temp hpipe
    by_cases hroot : node.id = mp.rootNode
    · have hfs := htemp.mp_root hroot
      obtain ⟨m_MP, hfs', hmroot, hmparent⟩ := hmp.fs hpipe
      rw [hfs] at hfs'
      obtain rfl : node.mp = m_MP := by simpa using hfs'
      by_cases hmr : m = s.view.root
      · rw [hmroot hmr]
        exact ⟨mp, hm, hmp.nodeCacheLock⟩
      · obtain ⟨p, pp, hp, hpp, -⟩ := hmp.parent hmr hpipe
        have hpeq : p = node.mp := Option.some.inj (hp.symm.trans (hmparent hmr))
        subst hpeq
        obtain ⟨pp₀, hcell, -⟩ := cell_of_skel hpp.1
        exact ⟨pp₀, hcell, (h.mountOK hcell).nodeCacheLock⟩
    · rw [htemp.mp_eq hroot]
      exact ⟨mp, hm, hmp.nodeCacheLock⟩

/-- A reference that a thread holds is to a cached node. -/
theorem ref_cached {root : Bool} {known : Known} (h : Inv H s)
    (ht : Tok.ref m n root known ∈ H) :
    ∃ mp node, s.mounts.cell m = some mp ∧ n ∈ mp.nodeCache ∧ s.nodes.cell n = some node ∧
      (root = true ↔ m ≠ s.pipeMount ∧ node.id = mp.rootNode) ∧ known.Holds s.view n := by
  obtain ⟨skel, hskel, hn, hroot, hknown⟩ := h.toks _ ht
  obtain ⟨mp, hm, rfl⟩ := cell_of_skel hskel
  obtain ⟨node, hnode⟩ := h.live hm hn
  refine ⟨mp, node, hm, hn, hnode, ?_, hknown⟩
  rw [hroot, idOf_of_cell hnode]
  simp [State.view]

/-- A reference that a thread holds is counted. -/
theorem refCount_pos {root : Bool} {known : Known} (h : Inv H s)
    (ht : Tok.ref m n root known ∈ H) (hnode : s.nodes.cell n = some node) :
    0 < node.refCount := by
  obtain ⟨mp, node', hm, hn, hnode', -⟩ := h.ref_cached ht
  rw [hnode, Option.some.injEq] at hnode'
  subst hnode'
  have hpos : 0 < total (.node n) H := total_pos ht rfl
  have heq := (h.nodeOK hm hn hnode).refCount
  omega

theorem root_ne_pipe (h : Inv H s) : s.rootMount ≠ s.pipeMount := by
  obtain ⟨mp, -, hp⟩ := h.shape.root
  exact hp

end Inv

/-! ## Tokens that count the same -/

theorem NodeOK.congr {v : View} {descs : Heap FileDescriptor} (h : NodeOK H v descs m mp n node)
    (hnode : total (.node n) H' = total (.node n) H)
    (hlink : total (.link n) H' = total (.link n) H) : NodeOK H' v descs m mp n node := by
  refine { h with refCount := by rw [hnode]; exact h.refCount, temp := fun hp => ?_ }
  have htemp := h.temp hp
  exact { htemp with linkCount := by rw [hlink]; exact htemp.linkCount }

theorem DescOK.congr {v : View} (h : DescOK H v d desc)
    (hdesc : total (.desc d) H' = total (.desc d) H)
    (hclosing : total (.closing d) H' = total (.closing d) H) : DescOK H' v d desc :=
  ⟨by rw [hdesc]; exact h.refCount, by rw [hclosing]; exact h.closing, h.cached, h.type⟩

theorem Owned.congr {v : View} (h : Owned H v)
    (htest : ∀ id, total (.test id) H' = total (.test id) H) : Owned H' v :=
  ⟨fun id => by rw [htest]; exact h.once id,
    fun id tn htn => by rw [htest]; exact h.owner id tn htn⟩

namespace MountCount

variable {s' : State}

/-- What the counter of a mount depends on. -/
theorem congr (h : MountCount H s m mp) (hr : s'.rootMount = s.rootMount)
    (hp : s'.pipeMount = s.pipeMount) (hdescs : s'.descs = s.descs)
    (hchild : childCount s'.mounts m = childCount s.mounts m)
    (hw : total (.mount m) H' = total (.mount m) H)
    (hdebt : total (.debt m) H' = total (.debt m) H) : MountCount H' s' m mp := by
  refine ⟨?_, ?_, ?_⟩
  · rw [hr]
    exact h.root
  · rw [hp, hw, hdebt, hdescs]
    exact h.pipe
  · rw [hr, hp, hw, hdescs, hchild]
    exact h.other

/-- The cache of a mount matters only as far as its nodes are open. -/
theorem recache {cache : List NodeRef} (h : MountCount H s m mp)
    (hopen : openOn s.descs (fun n => n ∈ cache) = openOn s.descs fun n => n ∈ mp.nodeCache) :
    MountCount H s m { mp with nodeCache := cache } where
  root := h.root
  pipe hp := by
    rw [hopen]
    exact h.pipe hp
  other hr hp := by
    rw [hopen]
    exact h.other hr hp

theorem ofRoot (hm : m = s.rootMount) (hne : s.rootMount ≠ s.pipeMount) (h : mp.refCount = 2) :
    MountCount H s m mp :=
  ⟨fun _ => h, fun hp => absurd (hm.symm.trans hp) hne, fun hr => absurd hm hr⟩

theorem ofOther (hr : m ≠ s.rootMount) (hp : m ≠ s.pipeMount)
    (h : mp.refCount = openOn s.descs (fun n => n ∈ mp.nodeCache) + childCount s.mounts m +
      total (.mount m) H) : MountCount H s m mp :=
  ⟨fun hr' => absurd hr' hr, fun hp' => absurd hp' hp, fun _ _ => h⟩

end MountCount

/-! ## Counters of nodes -/

/-- A change of a node that keeps its id, its type and its entries is not seen in the view. -/
theorem view_updNode {f : Node → Node} (hn : s.nodes.cell n = some node)
    (hid : (f node).id = node.id) (htype : (f node).type = node.type)
    (hentries : (f node).entries = node.entries) : (s.updNode n f).view = s.view := by
  have hcell : ∀ (β : Type) (g : Node → β), g (f node) = g node →
      ∀ n', ((s.updNode n f).nodes.cell n').map g = (s.nodes.cell n').map g := by
    intro β g hg n'
    by_cases hn' : n' = n
    · subst hn'
      simp [hn, hg]
    · simp [hn']
  unfold State.view
  congr 1
  · exact funext (hcell _ Node.id hid)
  · exact funext (hcell _ Node.type htype)
  · funext n'
    by_cases hn' : n' = n
    · subst hn'
      simp [hn, hentries]
    · simp [hn']

/-- **Counters of a node.** The node `n` changes, but not its id, type and entries; the tokens
change only as far as they are about `n`. -/
theorem Inv.touchNode {f : Node → Node} (h : Inv H s) (hn : s.nodes.cell n = some node)
    (hid : (f node).id = node.id) (htype : (f node).type = node.type)
    (hentries : (f node).entries = node.entries)
    (htoks : ∀ t ∈ H', TokOK s.view s.descs t)
    (hw : ∀ k, k ≠ .node n → k ≠ .link n → total k H' = total k H)
    (hok : ∀ m mp, s.view.skel m = some mp → n ∈ mp.nodeCache →
      NodeOK H s.view s.descs m mp n node → NodeOK H' s.view s.descs m mp n (f node)) :
    Inv H' (s.updNode n f) := by
  have hview := view_updNode hn hid htype hentries
  refine ⟨by rw [hview]; exact h.shape, by rw [hview]; exact htoks, ?_, ?_, ?_, ?_, h.history⟩
  · intro m mp n' node' hm hn' hnode'
    rw [hview] at hm ⊢
    by_cases heq : n' = n
    · subst heq
      obtain rfl : f node = node' := by simpa [hn] using hnode'
      exact hok m mp hm hn' (h.nodes m mp n' node hm hn' hn)
    · have hold := h.nodes m mp n' node' hm hn' (by simpa [heq] using hnode')
      exact hold.congr (hw _ (by simp [heq]) (by simp)) (hw _ (by simp) (by simp [heq]))
  · intro m mp hm
    exact (h.mounts m mp hm).congr rfl rfl rfl rfl (hw _ (by simp) (by simp))
      (hw _ (by simp) (by simp))
  · intro d desc hd
    rw [hview]
    exact (h.descs d desc hd).congr (hw _ (by simp) (by simp)) (hw _ (by simp) (by simp))
  · rw [hview]
    exact h.owned.congr fun id => hw _ (by simp) (by simp)

/-- What the tokens promise when one more is taken. -/
theorem Inv.toks_cons (h : Inv H s) (ht : TokOK s.view s.descs t) :
    ∀ t' ∈ {t} + H, TokOK s.view s.descs t' := by
  intro t' ht'
  rcases Multiset.mem_add.1 ht' with ht' | ht'
  · rw [Multiset.mem_singleton.1 ht']
    exact ht
  · exact h.toks t' ht'

theorem Inv.toks_tail (h : Inv ({t} + H) s) : ∀ t' ∈ H, TokOK s.view s.descs t' :=
  fun t' ht' => h.toks t' (mem_tail ht')

/-- A change of a node that no counter sees. -/
theorem Inv.setAttr {f : Node → Node} (h : Inv H s) (hn : s.nodes.cell n = some node)
    (hid : (f node).id = node.id) (htype : (f node).type = node.type)
    (hentries : (f node).entries = node.entries)
    (hok : ∀ m mp, NodeOK H s.view s.descs m mp n node →
      NodeOK H s.view s.descs m mp n (f node)) : Inv H (s.updNode n f) :=
  h.touchNode hn hid htype hentries h.toks (fun _ _ _ => rfl) fun m mp _ _ => hok m mp

/-- A reference to a node is taken. -/
theorem Inv.takeRef {root : Bool} {known : Known} (h : Inv H s)
    (hn : s.nodes.cell n = some node) (ht : TokOK s.view s.descs (.ref m n root known)) :
    Inv ({.ref m n root known} + H)
      (s.updNode n fun node => { node with refCount := inc node.refCount }) := by
  refine h.touchNode hn rfl rfl rfl (h.toks_cons ht) ?_ ?_
  · intro k hk _
    simp [Ne.symm hk]
  · intro m' mp hm' hmem hold
    refine ⟨hold.dirLock, ?_, by simp [inc], fun hp => ?_, fun hp => ?_⟩
    · rw [total_add, total_singleton]
      simp only [Tok.key, if_true, inc]
      have hold' := hold.refCount
      omega
    · have htemp := hold.temp hp
      exact { htemp with linkCount := by simpa using htemp.linkCount }
    · have hpipe := hold.pipe hp
      exact { hpipe with }

/-- A reference to a node that stays is given back. -/
theorem Inv.dropRef {root : Bool} {known : Known} (h : Inv ({.ref m n root known} + H) s)
    (hn : s.nodes.cell n = some node) (hkeep : ¬ (dec node.refCount = 0 ∧ node.linkCount = 0)) :
    Inv H (s.updNode n fun node => { node with refCount := dec node.refCount }) := by
  have hpos : 0 < node.refCount := h.refCount_pos (mem_head _ H) hn
  have hdec : dec node.refCount = node.refCount - 1 := if_neg (by omega)
  refine h.touchNode hn rfl rfl rfl h.toks_tail ?_ ?_
  · intro k hk _
    simp [Ne.symm hk]
  · intro m' mp hm' hmem hold
    have hcount := hold.refCount
    rw [total_add, total_singleton] at hcount
    simp only [Tok.key, if_true] at hcount
    refine ⟨hold.dirLock, by simp only [hdec]; omega, ?_, fun hp => ?_, fun hp => ?_⟩
    · show 0 < dec node.refCount + node.linkCount
      omega
    · have htemp := hold.temp hp
      exact { htemp with linkCount := by simpa using htemp.linkCount }
    · have hpipe := hold.pipe hp
      exact { hpipe with }

/-- A unit of the link count is taken. -/
theorem Inv.takeLink (h : Inv H s) (hn : s.nodes.cell n = some node)
    (ht : TokOK s.view s.descs (.link n)) :
    Inv ({.link n} + H)
      (s.updNode n fun node => { node with linkCount := inc node.linkCount }) := by
  obtain ⟨m, mp, hm, hmem⟩ := ht
  refine h.touchNode hn rfl rfl rfl (h.toks_cons ⟨m, mp, hm, hmem⟩) ?_ ?_
  · intro k _ hk
    simp [Ne.symm hk]
  · intro m' mp' hm' hmem' hold
    refine ⟨hold.dirLock, by simpa using hold.refCount, by simp [inc], ?_, ?_⟩
    · intro hp
      have htemp := hold.temp hp
      refine { htemp with linkCount := ?_, unlinked := fun hz => by simp [inc] at hz }
      have hcount := htemp.linkCount
      simp only [total_add, total_singleton, Tok.key, if_true, inc]
      omega
    · intro hp
      refine absurd ?_ hm.2
      rw [← hp]
      exact h.shape.disjoint m mp m' mp' n hm.1 hm' hmem hmem'

/-- A unit of the link count is given back; what has no links left must be empty. -/
theorem Inv.dropLink {root : Bool} {known : Known} (h : Inv ({.link n} + H) s)
    (hn : s.nodes.cell n = some node) (href : Tok.ref m n root known ∈ H)
    (hempty : node.entries = []) :
    Inv H (s.updNode n fun node => { node with linkCount := dec node.linkCount }) := by
  obtain ⟨m, mp, hm, hmem⟩ := h.toks (.link n) (mem_head _ H)
  have hpos : 0 < node.refCount := h.refCount_pos (mem_tail href) hn
  refine h.touchNode hn rfl rfl rfl h.toks_tail ?_ ?_
  · intro k _ hk
    simp [Ne.symm hk]
  · intro m' mp' hm' hmem' hold
    refine ⟨hold.dirLock, by simpa using hold.refCount, Nat.add_pos_left hpos _, ?_, ?_⟩
    · intro hp
      have htemp := hold.temp hp
      refine { htemp with linkCount := ?_, unlinked := fun _ => hempty }
      have hcount := htemp.linkCount
      simp only [total_add, total_singleton, Tok.key, if_true] at hcount
      have hdec : dec node.linkCount = node.linkCount - 1 := if_neg (by omega)
      simp only [hdec]
      omega
    · intro hp
      refine absurd ?_ hm.2
      rw [← hp]
      exact h.shape.disjoint m mp m' mp' n hm.1 hm' hmem hmem'

/-! ## Tokens -/

/-- **Tokens.** The state stays; the tokens change, but not what they count. -/
theorem Inv.retoken (h : Inv H s) (htoks : ∀ t ∈ H', TokOK s.view s.descs t)
    (hw : ∀ k, k ≠ .mount s.rootMount → total k H' = total k H) : Inv H' s := by
  refine ⟨h.shape, htoks, ?_, ?_, ?_, ?_, h.history⟩
  · intro m mp n node hm hn hnode
    exact (h.nodes m mp n node hm hn hnode).congr (hw _ (by simp)) (hw _ (by simp))
  · intro m mp hm
    by_cases hr : m = s.rootMount
    · exact .ofRoot hr h.root_ne_pipe ((h.mounts m mp hm).root hr)
    · exact (h.mounts m mp hm).congr rfl rfl rfl rfl (hw _ (by simp [hr])) (hw _ (by simp))
  · intro d desc hd
    exact (h.descs d desc hd).congr (hw _ (by simp)) (hw _ (by simp))
  · exact h.owned.congr fun id => hw _ (by simp)

/-- Something that was seen may be forgotten. -/
theorem Inv.forget (h : Inv ({t} + H) s) (ht : t.key = none) : Inv H s := by
  refine h.retoken h.toks_tail fun k _ => ?_
  simp [ht]

/-- What is so may be seen. -/
theorem Inv.learn (h : Inv H s) (ht : t.key = none) (hok : TokOK s.view s.descs t) :
    Inv ({t} + H) s := by
  refine h.retoken (h.toks_cons hok) fun k _ => ?_
  simp [ht]

/-- What a thread knows about a node it references may change. -/
theorem Inv.reknow {root : Bool} {known known' : Known}
    (h : Inv ({.ref m n root known} + H) s) (hknown : known'.Holds s.view n) :
    Inv ({.ref m n root known'} + H) s := by
  obtain ⟨mp, hm, hn, hroot, -⟩ := h.toks _ (mem_head _ H)
  refine h.retoken ?_ ?_
  · intro t ht
    rcases Multiset.mem_add.1 ht with ht | ht
    · rw [Multiset.mem_singleton.1 ht]
      exact ⟨mp, hm, hn, hroot, hknown⟩
    · exact h.toks_tail t ht
  · intro k _
    simp

/-- References to the root mount are not counted. -/
theorem Inv.takeRoot (h : Inv H s) : Inv ({.mref s.rootMount} + H) s := by
  refine h.retoken (h.toks_cons h.shape.root) fun k hk => ?_
  simp [Ne.symm hk]

theorem Inv.dropRoot (h : Inv ({.mref s.rootMount} + H) s) : Inv H s := by
  refine h.retoken h.toks_tail fun k hk => ?_
  simp [Ne.symm hk]

/-! ## Counters of mounts -/

/-- A change of a mount that keeps its skeleton and its slots is not seen. -/
theorem view_updMount {g : MountPoint → MountPoint} (hm : s.mounts.cell m = some mp)
    (hskel : (g mp).skel = mp.skel) (hpipes : (g mp).fs.slots = mp.fs.slots) :
    (s.updMount m g).view = s.view := by
  unfold State.view
  congr 1
  · funext m'
    by_cases hm' : m' = m
    · subst hm'
      simp [hm, hskel]
    · simp [hm']
  · by_cases hm' : s.pipeMount = m
    · simp [hm', hm, hpipes]
    · simp [hm']

theorem childCount_updMount {g : MountPoint → MountPoint} (hg : ∀ mp, (g mp).parent = mp.parent)
    (m' : MountRef) : childCount (s.updMount m g).mounts m' = childCount s.mounts m' := by
  refine Heap.sum_modify_of_eq _ _ fun mp _ => ?_
  rw [hg]

/-- **Counters of a mount.** Only the counter of `m` changes, and only tokens on `m`. -/
theorem Inv.touchMount {count : Nat → Nat} (h : Inv H s) (hm : s.mounts.cell m = some mp)
    (htoks : ∀ t ∈ H', TokOK s.view s.descs t)
    (hw : ∀ k, k ≠ .mount m → total k H' = total k H)
    (hcount : MountCount H' s m { mp with refCount := count mp.refCount }) :
    Inv H' (s.updMount m fun mp => { mp with refCount := count mp.refCount }) := by
  have hview : (s.updMount m fun mp => { mp with refCount := count mp.refCount }).view = s.view :=
    view_updMount hm rfl rfl
  refine ⟨by rw [hview]; exact h.shape, by rw [hview]; exact htoks, ?_, ?_, ?_, ?_, h.history⟩
  · intro m' mp' n node hm' hn hnode'
    rw [hview] at hm' ⊢
    exact (h.nodes m' mp' n node hm' hn hnode').congr (hw _ (by simp)) (hw _ (by simp))
  · intro m' mp' hm'
    have hchild : childCount (s.updMount m fun mp =>
        { mp with refCount := count mp.refCount }).mounts m' = childCount s.mounts m' := by
      refine childCount_updMount ?_ m'
      intro mp
      rfl
    by_cases heq : m' = m
    · subst heq
      obtain rfl : { mp with refCount := count mp.refCount } = mp' := by simpa [hm] using hm'
      exact hcount.congr rfl rfl rfl hchild rfl rfl
    · have hold := h.mounts m' mp' (by simpa [heq] using hm')
      exact hold.congr rfl rfl rfl hchild (hw _ (by simp [heq])) (hw _ (by simp))
  · intro d desc hd
    rw [hview]
    exact (h.descs d desc hd).congr (hw _ (by simp)) (hw _ (by simp))
  · rw [hview]
    exact h.owned.congr fun id => hw _ (by simp)

/-- A reference to a mount is taken. -/
theorem Inv.takeMount (h : Inv H s) (hm : s.mounts.cell m = some mp) (hr : m ≠ s.rootMount)
    (hp : m ≠ s.pipeMount) :
    Inv ({.mref m} + H) (s.updMount m fun mp => { mp with refCount := inc mp.refCount }) := by
  refine h.touchMount hm (h.toks_cons ⟨mp.skel, skel_of_cell hm, hp⟩) ?_ ?_
  · intro k hk
    simp [Ne.symm hk]
  · refine .ofOther hr hp ?_
    have hold := (h.mounts m mp hm).other hr hp
    simp only [total_add, total_singleton, Tok.key, if_true, inc]
    omega

/-- A reference to a mount is given back. -/
theorem Inv.dropMount (h : Inv ({.mref m} + H) s) (hm : s.mounts.cell m = some mp)
    (hr : m ≠ s.rootMount) :
    Inv H (s.updMount m fun mp => { mp with refCount := dec mp.refCount }) := by
  refine h.touchMount hm h.toks_tail ?_ ?_
  · intro k hk
    simp [Ne.symm hk]
  · obtain ⟨-, -, hp⟩ := h.toks _ (mem_head _ H)
    refine .ofOther hr hp ?_
    have hold := (h.mounts m mp hm).other hr hp
    simp only [total_add, total_singleton, Tok.key, if_true] at hold
    have hdec : dec mp.refCount = mp.refCount - 1 := if_neg (by omega)
    simp only [hdec]
    omega

/-- A reference to the mount of the pipes is given back. -/
theorem Inv.dropPipe (h : Inv ({.pref s.pipeMount} + H) s)
    (hm : s.mounts.cell s.pipeMount = some mp) :
    Inv H (s.updMount s.pipeMount fun mp => { mp with refCount := dec mp.refCount }) := by
  refine h.touchMount hm h.toks_tail ?_ ?_
  · intro k hk
    simp [Ne.symm hk]
  · obtain ⟨hlt, hmod⟩ := (h.mounts _ mp hm).pipe rfl
    refine ⟨fun hr => absurd hr.symm h.root_ne_pipe, fun _ => ?_, fun _ hp => absurd rfl hp⟩
    simp at hmod
    simp only [dec]
    split_ifs with hz
    · rw [hz] at hmod
      omega
    · omega

/-- A reference to the mount of the pipes may be owed. -/
theorem Inv.owePipe (h : Inv H s) :
    Inv ({.pref s.pipeMount} + ({.debt s.pipeMount} + H)) s := by
  refine ⟨h.shape, ?_, ?_, ?_, ?_, ?_, h.history⟩
  · intro t ht
    simp only [Multiset.mem_add, Multiset.mem_singleton] at ht
    rcases ht with rfl | rfl | ht
    · rfl
    · rfl
    · exact h.toks t ht
  · intro m mp n node hm hn hnode
    exact (h.nodes m mp n node hm hn hnode).congr (by simp) (by simp)
  · intro m mp hm
    have hold := h.mounts m mp hm
    refine ⟨hold.root, fun hp => ?_, fun hr hp => ?_⟩
    · obtain ⟨hlt, hmod⟩ := hold.pipe hp
      simp [hp] at hmod ⊢
      omega
    · have hother := hold.other hr hp
      simpa [Ne.symm hp] using hother
  · intro d desc hd
    exact (h.descs d desc hd).congr (by simp) (by simp)
  · exact h.owned.congr fun id => by simp

/-! ## Directory entries -/

/-- The view with other entries in the directory `n`. -/
def View.setEntries (v : View) (n : NodeRef) (entries : List DirectoryEntry) : View :=
  { v with entriesOf := Function.update v.entriesOf n entries }

theorem view_setEntries {dir : Directory} (hn : s.nodes.cell n = some node) :
    (s.updNode n fun node => { node with info := .folder dir }).view =
      s.view.setEntries n dir.entries := by
  unfold State.view View.setEntries
  congr 1
  · funext n'
    by_cases hn' : n' = n
    · subst hn'
      simp [hn]
    · simp [hn']
  · funext n'
    by_cases hn' : n' = n
    · subst hn'
      simp [hn]
    · simp [hn']
  · funext n'
    by_cases hn' : n' = n
    · subst hn'
      simp [hn, Node.entries]
    · simp [hn']

theorem Shape.setEntries {v : View} (h : Shape v) (entries : List DirectoryEntry) :
    Shape (v.setEntries n entries) where
  root := h.root
  pipe := h.pipe
  mount m mp hm := { h.mount m mp hm with }
  disjoint := h.disjoint
  has := h.has
  inj := h.inj
  alive := h.alive
  slots := h.slots

/-- The links from a cache with and without the change of one directory in it. -/
theorem links_setEntries {v : View} {cache : List NodeRef} (hnodup : cache.Nodup)
    (hn : n ∈ cache) (entries : List DirectoryEntry) (id : Nat) :
    (v.setEntries n entries).links cache id + (v.entriesOf n).countP (fun e => e.nodeID = id) =
      v.links cache id + entries.countP fun e => e.nodeID = id := by
  unfold View.links
  rw [← List.sum_map_erase (fun n' => ((v.setEntries n entries).entriesOf n').countP
      fun e => e.nodeID = id) hn,
    ← List.sum_map_erase (fun n' => (v.entriesOf n').countP fun e => e.nodeID = id) hn]
  have hrest : (cache.erase n).map (fun n' => ((v.setEntries n entries).entriesOf n').countP
      fun e => e.nodeID = id) =
      (cache.erase n).map fun n' => (v.entriesOf n').countP fun e => e.nodeID = id := by
    refine List.map_congr_left fun n' hn' => ?_
    have hne : n' ≠ n := (hnodup.mem_erase_iff.1 hn').1
    simp [View.setEntries, hne]
  have hself : (v.setEntries n entries).entriesOf n = entries := by simp [View.setEntries]
  rw [hrest, hself]
  omega

theorem links_setEntries_of_not_mem {v : View} {cache : List NodeRef} (hn : n ∉ cache)
    (entries : List DirectoryEntry) (id : Nat) :
    (v.setEntries n entries).links cache id = v.links cache id := by
  unfold View.links
  refine congrArg List.sum (List.map_congr_left fun n' hn' => ?_)
  have hne : n' ≠ n := fun h => hn (h ▸ hn')
  simp [View.setEntries, hne]

/-- **Entries.** The directory `n` of `m` gets other entries; each entry that comes or goes is
matched by a link token. -/
theorem Inv.changeEntries {dir : Directory} (h : Inv H s) (hm : s.mounts.cell m = some mp)
    (hp : m ≠ s.pipeMount) (hmem : n ∈ mp.nodeCache) (hn : s.nodes.cell n = some node)
    (htype : node.type = .directory)
    (htoks : ∀ t ∈ H', TokOK (s.view.setEntries n dir.entries) s.descs t)
    (hw : ∀ k, (∀ n', k ≠ .link n') → total k H' = total k H)
    (hlink : ∀ n' id, n' ∈ mp.nodeCache → s.view.idOf n' = some id →
      dir.entries.countP (fun e => e.nodeID = id) + total (.link n') H' =
        node.entries.countP (fun e => e.nodeID = id) + total (.link n') H)
    (hlink' : ∀ n', n' ∉ mp.nodeCache → total (.link n') H' = total (.link n') H)
    (hunlinked : node.linkCount = 0 → dir.entries = [])
    (hnames : (dir.entries.map DirectoryEntry.name).Nodup)
    (hentry : ∀ e ∈ dir.entries, EntryOK s.view mp.skel e) :
    Inv H' (s.updNode n fun node => { node with info := .folder dir }) := by
  have hview : (s.updNode n fun node => { node with info := .folder dir }).view =
      s.view.setEntries n dir.entries := view_setEntries hn
  have hskel := skel_of_cell hm
  refine ⟨by rw [hview]; exact h.shape.setEntries _, by rw [hview]; exact htoks, ?_, ?_, ?_, ?_,
    h.history⟩
  · intro m' mp' n' node' hm' hn' hnode'
    rw [hview] at hm' ⊢
    replace hm' : s.view.skel m' = some mp' := hm'
    -- in every cache, entries and link tokens together count as before
    have hcount : ∀ id, s.view.idOf n' = some id →
        (s.view.setEntries n dir.entries).links mp'.nodeCache id + total (.link n') H' =
          s.view.links mp'.nodeCache id + total (.link n') H := by
      intro id hid
      by_cases hmm : m' = m
      · subst hmm
        rw [hskel, Option.some.injEq] at hm'
        subst hm'
        have hlinks := links_setEntries (v := s.view) (h.shape.mount _ _ hskel).nodup hmem
          dir.entries id
        have htok := hlink n' id hn' hid
        rw [entriesOf_of_cell hn] at hlinks
        omega
      · have hnot : n ∉ mp'.nodeCache := fun hc =>
          hmm (h.shape.disjoint m' mp' m mp.skel n hm' hskel hc hmem)
        have hnot' : n' ∉ mp.nodeCache := fun hc =>
          hmm (h.shape.disjoint m' mp' m mp.skel n' hm' hskel hn' hc)
        rw [links_setEntries_of_not_mem hnot, hlink' n' hnot']
    by_cases heq : n' = n
    · subst heq
      obtain rfl : m' = m := h.shape.disjoint m' mp' m mp.skel n' hm' hskel hn' hmem
      rw [hskel, Option.some.injEq] at hm'
      subst hm'
      obtain rfl : { node with info := .folder dir } = node' := by simpa [hn] using hnode'
      have hok := h.nodes m' mp.skel n' node hskel hn' hn
      refine ⟨hok.dirLock, by rw [hw _ (by simp)]; exact hok.refCount, hok.needed, fun hp' => ?_,
        fun hp' => absurd hp' hp⟩
      have htemp := hok.temp hp'
      exact {
        mp_eq := htemp.mp_eq
        mp_root := htemp.mp_root
        ready := htemp.ready
        linkCount := by
          have hold := htemp.linkCount
          have hc := hcount node.id (idOf_of_cell hn)
          show node.linkCount = (if node.id = mp.skel.rootNode then 1 else 0) +
            (s.view.setEntries n' dir.entries).links mp.skel.nodeCache node.id + _
          omega
        unlinked := hunlinked
        folder := fun _ => ⟨dir, rfl⟩
        isFolder := fun hne => absurd htype hne
        symlink := fun hs => by rw [htype] at hs; cases hs
        rootType := htemp.rootType
        names := hnames
        entry := fun e he => { hentry e he with } }
    · have hnode'' : s.nodes.cell n' = some node' := by simpa [heq] using hnode'
      have hok := h.nodes m' mp' n' node' hm' hn' hnode''
      refine ⟨hok.dirLock, by rw [hw _ (by simp)]; exact hok.refCount, hok.needed, fun hp' => ?_, fun hp' => ?_⟩
      · have htemp := hok.temp hp'
        refine { htemp with linkCount := ?_, entry := fun e he => { htemp.entry e he with } }
        have hold := htemp.linkCount
        have hc := hcount node'.id (idOf_of_cell hnode'')
        omega
      · have hpipe := hok.pipe hp'
        exact { hpipe with }
  · intro m' mp' hm'
    exact (h.mounts m' mp' hm').congr rfl rfl rfl rfl (hw _ (by simp)) (hw _ (by simp))
  · intro d desc hd
    rw [hview]
    exact { (h.descs d desc hd).congr (hw _ (by simp)) (hw _ (by simp)) with }
  · rw [hview]
    exact { h.owned.congr fun id => hw _ (by simp) with }

/-- The token stays true when the entries of `n` change from `old` to `new`. -/
def Tok.Stable (n : NodeRef) (old new : List DirectoryEntry) : Tok → Prop
  | .ref _ n' _ (.lacks name) => n' = n → ∀ e ∈ new, e.name ≠ name
  | .sees _ dir name id => dir = n → ⟨name, id⟩ ∈ old → ⟨name, id⟩ ∈ new
  | .named dir name _ => dir = n → ∀ id, ⟨name, id⟩ ∈ old → ⟨name, id⟩ ∈ new
  | .empty n' => n' = n → new = []
  | _ => True

theorem TokOK.setEntries {v : View} {descs : Heap FileDescriptor} {new : List DirectoryEntry}
    (ht : TokOK v descs t) (hstable : t.Stable n (v.entriesOf n) new) :
    TokOK (v.setEntries n new) descs t := by
  have hentries : ∀ n', n' ≠ n → (v.setEntries n new).entriesOf n' = v.entriesOf n' := by
    intro n' hn'
    simp [View.setEntries, hn']
  have hself : (v.setEntries n new).entriesOf n = new := by simp [View.setEntries]
  cases t with
  | ref m n' root known =>
    obtain ⟨mp, hm, hmem, hroot, hknown⟩ := ht
    refine ⟨mp, hm, hmem, hroot, ?_⟩
    cases known with
    | nothing => trivial
    | type t => exact hknown
    | lacks name =>
      refine ⟨hknown.1, ?_⟩
      by_cases heq : n' = n
      · rw [heq, hself]
        exact hstable heq
      · rw [hentries n' heq]
        exact hknown.2
  | sees m dir name id =>
    obtain ⟨mp, hm, hmem, hentry⟩ := ht
    refine ⟨mp, hm, hmem, ?_⟩
    by_cases heq : dir = n
    · subst heq
      rw [hself]
      exact hstable rfl hentry
    · rwa [hentries dir heq]
  | named dir name c =>
    obtain ⟨m, mp, id, hm, hdir, hc, hid, hentry⟩ := ht
    refine ⟨m, mp, id, hm, hdir, hc, hid, ?_⟩
    by_cases heq : dir = n
    · subst heq
      rw [hself]
      exact hstable rfl id hentry
    · rwa [hentries dir heq]
  | empty n' =>
    by_cases heq : n' = n
    · subst heq
      show (v.setEntries n' new).entriesOf n' = []
      rw [hself]
      exact hstable rfl
    · show (v.setEntries n new).entriesOf n' = []
      rw [hentries n' heq]
      exact ht
  | mref m => exact ht
  | pref m => exact ht
  | debt m => exact ht
  | link n' => exact ht
  | fd d => exact ht
  | dying d => exact ht
  | own id fresh => exact ht
  | isRoot m n' => exact ht
  | «at» m path => exact ht

/-- An entry for a node of the same mount is added; the directory did not have the name, and it
is linked itself. -/
theorem Inv.addEntry {root known : _} {dir dir' : Directory} {name : Str} {c : NodeRef}
    {child : Node} (h : Inv ({.ref m n root (.lacks name)} + ({.link c} + H)) s)
    (href : Tok.ref m c false known ∈ H) (hn : s.nodes.cell n = some node)
    (hc : s.nodes.cell c = some child) (hdir : node.info = .folder dir)
    (hadd : dir'.entries = dir.entries ++ [⟨name, child.id⟩]) (hne : name ≠ [])
    (hslash : '/' ∉ name) (hlinked : node.linkCount ≠ 0) (hm : m ≠ s.pipeMount)
    (hlacks : ∀ m' root', Tok.ref m' n root' (.lacks name) ∉ H) (hempty : Tok.empty n ∉ H) :
    Inv ({.ref m n root .nothing} + H)
      (s.updNode n fun node => { node with info := .folder dir' }) := by
  obtain ⟨mp, node', hmp, hmem, hnode', -, hdirtype, hfree⟩ := h.ref_cached (mem_head _ _)
  rw [hn, Option.some.injEq] at hnode'
  subst hnode'
  obtain ⟨mp', child', hmp', hcmem, hchild', hcroot, -⟩ :=
    h.ref_cached (mem_tail (mem_tail href))
  rw [hmp, Option.some.injEq] at hmp'
  subst hmp'
  rw [hc, Option.some.injEq] at hchild'
  subst hchild'
  have hok := h.nodeOK hmp hmem hn
  have htemp := hok.temp hm
  have hentries : node.entries = dir.entries := by simp [Node.entries, hdir]
  rw [entriesOf_of_cell hn, hentries] at hfree
  rw [typeOf_of_cell hn, Option.some.injEq] at hdirtype
  have hnotroot : child.id ≠ mp.rootNode := fun hid => by simpa using hcroot.2 ⟨hm, hid⟩
  refine h.changeEntries hmp hm hmem hn hdirtype ?_ ?_ ?_ ?_ ?_ ?_ ?_
  · -- other threads rely neither on the absence of the name nor on emptiness
    intro t ht
    rcases Multiset.mem_add.1 ht with htok | htok
    · rw [Multiset.mem_singleton.1 htok]
      obtain ⟨mp', hmp', hmem', hroot', -⟩ := h.toks _ (mem_head _ _)
      exact ⟨mp', hmp', hmem', hroot', trivial⟩
    · refine (h.toks t (mem_tail (mem_tail htok))).setEntries ?_
      rw [entriesOf_of_cell hn, hentries, hadd]
      have hgrow : ∀ e, e ∈ dir.entries → e ∈ dir.entries ++ [⟨name, child.id⟩] :=
        fun e he => List.mem_append_left _ he
      cases t with
      | ref m' n' root' known' =>
        cases known' with
        | lacks name' =>
          intro heq e he
          subst heq
          rcases List.mem_append.1 he with he | he
          · obtain ⟨-, -, -, -, -, hold⟩ := h.toks _ (mem_tail (mem_tail htok))
            rw [entriesOf_of_cell hn, hentries] at hold
            exact hold e he
          · rw [List.mem_singleton.1 he]
            rintro rfl
            exact hlacks _ _ htok
        | nothing => trivial
        | type t => trivial
      | sees m' dir'' name' id => exact fun _ => hgrow _
      | named dir'' name' c' => exact fun _ _ => hgrow _
      | empty n' =>
        intro heq
        subst heq
        exact absurd htok hempty
      | mref m => trivial
      | pref m => trivial
      | debt m => trivial
      | link n' => trivial
      | fd d => trivial
      | dying d => trivial
      | own id fresh => trivial
      | isRoot m n' => trivial
      | «at» m path => trivial
  · intro k hk
    simp [Ne.symm (hk _)]
  · intro n' id hn' hid
    rw [hadd, hentries, List.countP_append]
    by_cases heq : n' = c
    · subst heq
      rw [idOf_of_cell hc, Option.some.injEq] at hid
      simp [hid]
      omega
    · have hneid : child.id ≠ id := fun hid' => heq (h.shape.inj m mp.skel n' c id
        ⟨skel_of_cell hmp, hm⟩ hn' hcmem hid (by rw [idOf_of_cell hc, hid']))
      simp [Ne.symm heq, hneid]
  · intro n' hn'
    have hnc : c ≠ n' := fun heq => hn' (heq ▸ hcmem)
    simp [hnc]
  · exact fun hz => absurd hz hlinked
  · rw [hadd, List.map_append, List.nodup_append]
    refine ⟨by rw [← hentries]; exact htemp.names, by simp, ?_⟩
    intro x hx y hy
    obtain ⟨e, he, rfl⟩ := List.mem_map.1 hx
    rw [List.mem_map] at hy
    obtain ⟨e', he', rfl⟩ := hy
    rw [List.mem_singleton.1 he']
    exact hfree e he
  · intro e he
    rw [hadd] at he
    rcases List.mem_append.1 he with he | he
    · exact htemp.entry e (by rw [hentries]; exact he)
    · rw [List.mem_singleton.1 he]
      exact ⟨hne, hslash, hnotroot, c, hcmem, idOf_of_cell hc⟩

/-- The entry for `c` is removed; its unit of the link count is left over. -/
theorem Inv.removeEntry {dir : Directory} {name : Str} {c : NodeRef} {i : Nat}
    (h : Inv ({.named n name c} + H) s) (hn : s.nodes.cell n = some node)
    (hdir : node.info = .folder dir)
    (hi : dir.entries.findIdx? (fun e => e.name = name) = some i)
    (hsees : ∀ m' id, Tok.sees m' n name id ∉ H) (hnamed : ∀ c', Tok.named n name c' ∉ H) :
    Inv ({.link c} + H)
      (s.updNode n fun node => { node with info := .folder (dir.removeEntry i) }) := by
  obtain ⟨m, skel, cid, htemp', hmem, hcmem, hcid, hentry⟩ := h.toks _ (mem_head _ _)
  obtain ⟨mp, hmp, rfl⟩ := cell_of_skel htemp'.1
  have hm : m ≠ s.pipeMount := htemp'.2
  have htemp := (h.nodeOK hmp hmem hn).temp hm
  have hentries : node.entries = dir.entries := by simp [Node.entries, hdir]
  rw [entriesOf_of_cell hn, hentries] at hentry
  have hnames := htemp.names
  rw [hentries] at hnames
  -- the entry found is the one the token is about
  obtain ⟨hlt, hat⟩ : ∃ hlt : i < dir.entries.length, dir.entries[i] = ⟨name, cid⟩ := by
    obtain ⟨hlt, hname, -⟩ := List.findIdx?_eq_some_iff_getElem.1 hi
    refine ⟨hlt, ?_⟩
    refine List.inj_on_of_nodup_map hnames (List.getElem_mem hlt) hentry ?_
    simpa using hname
  have hperm : dir.entries.Perm (⟨name, cid⟩ :: (dir.removeEntry i).entries) := by
    have := (List.getElem_cons_eraseIdx_perm hlt).symm
    rwa [hat] at this
  have hsub : ∀ e, e ∈ (dir.removeEntry i).entries → e ∈ dir.entries :=
    fun e he => hperm.symm.subset (List.mem_cons_of_mem _ he)
  have hkeep : ∀ e, e ∈ dir.entries → e.name ≠ name → e ∈ (dir.removeEntry i).entries := by
    intro e he hne
    rcases List.mem_cons.1 (hperm.subset he) with heq | he'
    · rw [heq] at hne
      exact absurd rfl hne
    · exact he'
  have htype : node.type = .directory := by
    by_contra hne
    rw [← hentries, htemp.isFolder hne] at hentry
    exact absurd hentry List.not_mem_nil
  refine h.changeEntries hmp hm hmem hn htype ?_ ?_ ?_ ?_ ?_ ?_ ?_
  · intro t ht
    rcases Multiset.mem_add.1 ht with htok | htok
    · rw [Multiset.mem_singleton.1 htok]
      exact ⟨m, mp.skel, htemp', hcmem⟩
    · refine (h.toks t (mem_tail htok)).setEntries ?_
      rw [entriesOf_of_cell hn, hentries]
      cases t with
      | ref m' n' root' known' =>
        cases known' with
        | lacks name' =>
          intro heq e he
          subst heq
          obtain ⟨-, -, -, -, -, hold⟩ := h.toks _ (mem_tail htok)
          rw [entriesOf_of_cell hn, hentries] at hold
          exact hold e (hsub e he)
        | nothing => trivial
        | type t => trivial
      | sees m' dir' name' id =>
        intro heq he
        subst heq
        refine hkeep _ he fun heq => ?_
        replace heq : name' = name := heq
        subst heq
        exact hsees _ _ htok
      | named dir' name' c' =>
        intro heq id he
        subst heq
        refine hkeep _ he fun heq => ?_
        replace heq : name' = name := heq
        subst heq
        exact hnamed _ htok
      | empty n' =>
        intro heq
        subst heq
        have hold : s.view.entriesOf n' = [] := h.toks _ (mem_tail htok)
        rw [entriesOf_of_cell hn, hentries] at hold
        rw [hold] at hentry
        exact absurd hentry List.not_mem_nil
      | mref m => trivial
      | pref m => trivial
      | debt m => trivial
      | link n' => trivial
      | fd d => trivial
      | dying d => trivial
      | own id fresh => trivial
      | isRoot m n' => trivial
      | «at» m path => trivial
  · intro k hk
    simp [Ne.symm (hk _)]
  · intro n' id hn' hid
    rw [hentries, hperm.countP_eq]
    by_cases heq : n' = c
    · subst heq
      rw [hcid, Option.some.injEq] at hid
      simp [hid]
      omega
    · have hneid : cid ≠ id := fun hid' => heq (h.shape.inj m mp.skel n' c id htemp' hn' hcmem
        hid (by rw [hcid, hid']))
      simp [Ne.symm heq, hneid]
  · intro n' hn'
    have hnc : c ≠ n' := fun heq => hn' (heq ▸ hcmem)
    simp [hnc]
  · intro hz
    have hnil := htemp.unlinked hz
    rw [hentries] at hnil
    rw [hnil] at hentry
    exact absurd hentry List.not_mem_nil
  · exact (List.Sublist.map _ (List.eraseIdx_sublist _ _)).nodup hnames
  · intro e he
    exact htemp.entry e (by rw [hentries]; exact hsub e he)

end ChenixOS.VFS
