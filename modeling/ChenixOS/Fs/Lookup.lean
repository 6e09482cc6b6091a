import ChenixOS.Fs.Tree

/-!
# Looking up a path

`FindMountPoint`, `_AcquirePathRec` and `AcquirePath`, run alone, compute what `Tree.mountFor`,
`Tree.walk` and `Tree.resolve` say. Along the way they take and give back references, and put the
roots of the mounts that they look into into memory; `Same` says that nothing else changes.

The induction is on the fuel. It carries the invariant with the references that the walk holds: the
directory it is in is linked, so it is still there after it was released.
-/

namespace ChenixOS.VFS

variable {K : Kernel} {H E f : Held} {s s' s'' : State} {n : NodeRef} {m : MountRef}
  {root : Bool} {known : Known} {id fuel : Nat} {node : Node} {mp : MountPoint} {path rest : Str}
  {ms ms' : List MountRef} {tInfo : ThreadInfo} {fileHasToExist deleteMode : Bool}

/-! ## What does not change -/

/-- Nothing changed but counters, and the caches of the mounts `ms`. -/
structure Same (ms : List MountRef) (s s' : State) : Prop where
  tree : s'.tree = s.tree
  threads : s'.threads = s.threads
  descs : s'.descs = s.descs
  testNodes : s'.testNodes = s.testNodes
  pipeMount : s'.pipeMount = s.pipeMount
  caches : ∀ m, m ∉ ms →
    (s'.mounts.cell m).map MountPoint.nodeCache = (s.mounts.cell m).map MountPoint.nodeCache
  ids : ∀ n id, s.view.idOf n = some id → s'.view.idOf n = some id

theorem Same.refl (ms : List MountRef) (s : State) : Same ms s s :=
  ⟨rfl, rfl, rfl, rfl, rfl, fun _ _ => rfl, fun _ _ h => h⟩

theorem Same.trans (h : Same ms s s') (h' : Same ms s' s'') : Same ms s s'' where
  tree := h'.tree.trans h.tree
  threads := h'.threads.trans h.threads
  descs := h'.descs.trans h.descs
  testNodes := h'.testNodes.trans h.testNodes
  pipeMount := h'.pipeMount.trans h.pipeMount
  caches m hm := (h'.caches m hm).trans (h.caches m hm)
  ids n id hid := h'.ids n id (h.ids n id hid)

theorem Same.mono (h : Same ms s s') (hsub : ms ⊆ ms') : Same ms' s s' :=
  { h with caches := fun m hm => h.caches m fun hmem => hm (hsub hmem) }

theorem same_updNode {g : Node → Node} (hg : ∀ node, (g node).inode = node.inode) :
    Same ms s (s.updNode n g) := by
  refine ⟨tree_updNode hg, rfl, rfl, rfl, rfl, fun _ _ => rfl, fun n' id hid => ?_⟩
  have hgid : ∀ node, (g node).id = node.id := fun node =>
    show (g node).inode.id = node.inode.id by rw [hg]
  by_cases heq : n' = n
  · subst heq
    simpa [State.view, Option.map_map, Function.comp_def, hgid] using hid
  · simpa [State.view, heq] using hid

theorem same_updMount {g : MountPoint → MountPoint} (hg : ∀ mp, (g mp).skel = mp.skel) :
    Same ms s (s.updMount m g) := by
  refine ⟨tree_updMount hg, rfl, rfl, rfl, rfl, fun m' _ => ?_, fun _ _ hid => hid⟩
  have hcache : ∀ mp, (g mp).nodeCache = mp.nodeCache := fun mp =>
    show (g mp).skel.nodeCache = mp.skel.nodeCache by rw [hg]
  by_cases heq : m' = m
  · subst heq
    simp [Option.map_map, Function.comp_def, hcache]
  · simp [heq]

theorem same_hold (ms : List MountRef) : Same ms s (s.hold m) := by
  unfold State.hold
  split_ifs
  · exact Same.refl ms s
  · exact same_updMount fun _ => rfl

/-! ## Nodes -/

@[simp] theorem lookupIn_inode : lookupIn tInfo node.inode path = lookupIn tInfo node path := rfl

@[simp] theorem type_inode : node.inode.type = node.type := rfl

@[simp] theorem info_inode : node.inode.info = node.info := rfl

theorem lookupIn_found (h : lookupIn tInfo node path = .found id rest) :
    ∃ e ∈ node.entries, e.nodeID = id ∧ pathWalk path e.name = some rest := by
  unfold lookupIn at h
  split_ifs at h
  cases hfind : Directory.findEntry path node.entries with
  | none => simp [hfind] at h
  | some p =>
    obtain ⟨id', rest'⟩ := p
    simp only [hfind, Lookup.found.injEq] at h
    obtain ⟨rfl, rfl⟩ := h
    exact findEntry_some hfind

/-- An inode of a node that is in memory. -/
theorem tree_node (hI : Inv H s) (hm : s.mounts.cell m = some mp) (hp : m ≠ s.pipeMount)
    (hmem : n ∈ mp.nodeCache) (hn : s.nodes.cell n = some node) :
    s.tree.node m node.id = some node.inode := by
  have hcached : s.cached m node.id = some node := by
    unfold State.cached
    rw [hm, Option.bind_some]
    cases hfind : mp.nodeCache.find? fun n => (s.nodes.cell n).any fun n' => n'.id = node.id with
    | none => exact absurd (idOf_of_cell hn) (find_cached hfind n hmem)
    | some n' =>
      obtain ⟨hmem', hid⟩ := find_cached hfind
      obtain rfl : n' = n := hI.shape.inj m mp.skel n' n node.id ⟨skel_of_cell hm, hp⟩ hmem' hmem hid
        (idOf_of_cell hn)
      exact hn
  simp [State.tree, hcached]

theorem TempRef.tree (href : TempRef H s m n root known mp node) (hI : Inv H s) :
    s.tree.node m node.id = some node.inode :=
  tree_node hI href.mount href.notPipe href.mem href.cell

theorem lookup_run (href : TempRef H s m n root known mp node) :
    lookup tInfo n path s = .ok (lookupIn tInfo node path, s) := by
  obtain ⟨mp', hm'⟩ := href.nodeMount
  exact lookup_ok tInfo path href.cell href.dirLock hm' href.temp.folder

/-- A node that is linked stays when it is released. -/
theorem releaseNode_run (ms : List MountRef) (hI : Inv ({.ref m n root known} + f) s)
    (href : TempRef H s m n root known mp node) (hlink : node.linkCount ≠ 0) :
    ∃ s', releaseNode n true s = .ok ((), s') ∧ Inv f s' ∧ Same ms s s' ∧
      ∀ n', s'.view.idOf n' = s.view.idOf n' := by
  obtain ⟨mp', hm', hl⟩ := hI.nodeMount href.mount href.mem href.cell
  have hrun := releaseNode_keep href.cell hm' hl fun h => hlink h.2
  have hinv := (does_releaseNode m n root known s f hI).of_ok hrun
  obtain ⟨g, hinv, -, rfl⟩ := hinv
  rw [zero_add] at hinv
  refine ⟨_, hrun, hinv, same_updNode fun _ => rfl, fun n' => ?_⟩
  by_cases heq : n' = n
  · subst heq
    simp [State.view, Option.map_map, Function.comp_def]
  · simp [State.view, heq]

/-- The node that an entry of a directory names. -/
theorem acquireNode_run (ms : List MountRef) {dir : NodeRef} {dnode : Node} {e : DirectoryEntry} (hI : Inv (f) s)
    (href : TempRef H s m dir root known mp dnode) (he : e ∈ dnode.entries) :
    ∃ n s', acquireNode K m e.nodeID s = .ok (n, s') ∧ Same ms s s' ∧
      Inv ({.ref m n false .nothing} + {.named dir e.name n} + f) s' ∧
      s'.view.idOf n = some e.nodeID ∧ ∀ n', s'.view.idOf n' = s.view.idOf n' := by
  have hok := hI.mountOK href.mount
  have hlive : ∀ n ∈ mp.nodeCache, ∃ node, s.nodes.cell n = some node := fun n => hI.live href.mount
  have hsees : TokOK s.view s.descs (.sees m dir e.name e.nodeID) := by
    refine ⟨mp.skel, ⟨skel_of_cell href.mount, href.notPipe⟩, href.mem, ?_⟩
    rw [entriesOf_of_cell href.cell]
    exact he
  cases hfind : mp.nodeCache.find? fun n => (s.nodes.cell n).any fun node => node.id = e.nodeID with
  | none =>
    obtain ⟨n, hn, hid⟩ := (href.temp.entry e he).cached
    exact absurd hid (find_cached hfind n hn)
  | some n =>
    obtain ⟨hmem, hid⟩ := find_cached hfind
    obtain ⟨node, hn⟩ := hlive n hmem
    have hready := ((hI.nodeOK href.mount hmem hn).temp href.notPipe).ready
    have hrun := acquireNode_hit (K := K) href.mount hok.nodeCacheLock hlive hfind hn hready
    obtain ⟨g, hinv, -, rfl⟩ :=
      (does_acquireNode m dir e.name e.nodeID s f (hI.learn rfl hsees)).of_ok hrun
    have hids : ∀ n', (s.updNode n fun node =>
        { node with refCount := inc node.refCount }).view.idOf n' = s.view.idOf n' := by
      intro n'
      by_cases heq : n' = n
      · subst heq
        simp [State.view, Option.map_map, Function.comp_def]
      · simp [State.view, heq]
    exact ⟨n, _, hrun, same_updNode fun _ => rfl, hinv, (hids n).trans hid, hids⟩

/-! ## The walk through the directories -/

/-- The outcome with ids is that of the code. -/
inductive Matches (v : View) : Tree.Found → Walk → Prop
  | ok {node parent : Option Nat} {n p : Option NodeRef} {path : Str}
      (hnode : n.map v.idOf = node.map some) (hparent : p.map v.idOf = parent.map some) :
      Matches v (.ok node parent path) (.ok n p path)
  | symlink {id parent : Nat} {n p : NodeRef} {path : Str} (hnode : v.idOf n = some id)
      (hparent : v.idOf p = some parent) : Matches v (.symlink id parent path) (.symlink n p path)
  | error (e : Error) : Matches v (.error e) (.error e)

/-- The walk gives up. -/
theorem walk_error_run (e : Error) (hI : Inv ({.mref m} + {.ref m n root known} + E + f) s)
    (href : TempRef H s m n root known mp node) (hlink : node.linkCount ≠ 0) :
    ∃ r s', (do
      step (releaseNode n true)
      .ret (.error e) : P Walk).run s = .ok (r, s') ∧ Same ms s s' ∧
      Matches s'.view (.error e) r := by
  have hperm : Inv ({.ref m n root known} + ({.mref m} + E + f)) s := hI.perm (by ac_rfl)
  obtain ⟨s', hrun, -, hsame, -⟩ := releaseNode_run ms hperm href hlink
  exact ⟨_, s', run_step _ hrun, hsame, .error e⟩

theorem walk_run (ms : List MountRef) (tInfo : ThreadInfo) (path : Str) (fileHasToExist deleteMode : Bool)
    (fuel : Nat) (hlinked : Linked root n E)
    (hI : Inv ({.mref m} + {.ref m n root known} + E + f) s) (hid : s.view.idOf n = some id) :
    match s.tree.walk tInfo m fileHasToExist deleteMode fuel id path with
    | some found => ∃ r s', (walk K tInfo m fileHasToExist deleteMode fuel n path).run s =
        .ok (r, s') ∧ Same ms s s' ∧ Matches s'.view found r
    | none => (walk K tInfo m fileHasToExist deleteMode fuel n path).run s = .error .block := by
  induction fuel generalizing n root known E f path s id with
  | zero => rfl
  | succ fuel ih =>
    have href : ∃ mp node, TempRef _ s m n root known mp node := hI.tempRef (by simp) (by simp)
    obtain ⟨mp, node, href⟩ := href
    obtain rfl : node.id = id := Option.some.inj ((idOf_of_cell href.cell).symm.trans hid)
    have hlink : node.linkCount ≠ 0 :=
      hI.linked_pos (E := E) (fun t ht => by simp [ht]) hlinked href
    have hlook : (Prog.atomic (.lookup n (component path)) (lookup tInfo n path) : P Lookup).run s =
        .ok (lookupIn tInfo node path, s) := (Prog.run_atomic _ _ _).trans (lookup_run href)
    unfold Tree.walk VFS.walk
    rw [href.tree hI, Prog.run_bind_of_ok _ hlook]
    simp only [Option.bind_eq_bind, Option.bind_some, lookupIn_inode]
    cases hfound : lookupIn tInfo node path with
    | notADirectory => exact walk_error_run _ hI href hlink
    | denied => exact walk_error_run _ hI href hlink
    | absent =>
      by_cases hlast : fileHasToExist = true ∨ (!isLastPathEntry path) = true
      · simp only [hlast, if_true]
        exact walk_error_run _ hI href hlink
      · simp only [hlast, if_false]
        exact ⟨_, s, rfl, Same.refl ms s, .ok rfl (by simp [hid])⟩
    | found id rest =>
      obtain ⟨e, he, rfl, -⟩ := lookupIn_found hfound
      obtain ⟨next, s₁, hacq, hsame₁, hI₁, hnext, hids₁⟩ := acquireNode_run (K := K) ms hI href he
      have hI₁' : Inv ({.mref m} + {.ref m next false .nothing} + {.named n e.name next} +
          ({.ref m n root known} + E + f)) s₁ := hI₁.perm (by ac_rfl)
      have href₁ : ∃ mp node, TempRef _ s₁ m next false .nothing mp node :=
        hI₁'.tempRef (by simp) (by simp)
      obtain ⟨mp₁, node₁, href₁⟩ := href₁
      have hid₁ : node₁.id = e.nodeID :=
        Option.some.inj ((idOf_of_cell href₁.cell).symm.trans hnext)
      have hcur : s₁.view.idOf n = some node.id := (hids₁ n).trans hid
      have htree : s.tree.node m e.nodeID = some node₁.inode := by
        rw [← hsame₁.tree, ← hid₁]
        exact href₁.tree hI₁'
      simp only [run_step _ hacq]
      by_cases hdel : deleteMode = true ∧ rest = []
      · simp only [hdel, and_self, if_true]
        exact ⟨_, s₁, rfl, hsame₁, .ok (by simp [hnext]) (by simp [hcur])⟩
      · have htype : nodeType next s₁ = .ok (node₁.type, s₁) := by
          unfold nodeType
          rw [M.bind_ok (getNode_ok href₁.cell)]
          rfl
        simp only [hdel, if_false, htree, Option.bind_some, run_step _ htype, type_inode]
        by_cases hsym : node₁.type = .symlink
        · simp only [hsym, if_true]
          exact ⟨_, s₁, rfl, hsame₁, .symlink hnext hcur⟩
        · simp only [hsym, if_false]
          by_cases hrest : rest = []
          · simp only [hrest, if_true]
            exact ⟨_, s₁, rfl, hsame₁, .ok (by simp [hnext]) (by simp [hcur])⟩
          · simp only [hrest, if_false]
            -- the directory is released, and the walk goes on in the next one
            have hcurI : Inv ({.ref m n root known} + ({.mref m} + {.ref m next false .nothing} +
                {.named n e.name next} + (E + f))) s₁ := hI₁.perm (by ac_rfl)
            have hrefc : ∃ mp node, TempRef _ s₁ m n root known mp node :=
              hcurI.tempRef (by simp) (by simp)
            obtain ⟨mpc, nodec, hrefc⟩ := hrefc
            have hlinkc : nodec.linkCount ≠ 0 :=
              hcurI.linked_pos (E := E) (fun t ht => by simp [ht]) hlinked hrefc
            obtain ⟨s₂, hrel, hI₂, hsame₂, hids₂⟩ := releaseNode_run ms hcurI hrefc hlinkc
            have hsame : Same ms s s₂ := hsame₁.trans hsame₂
            have hrec := ih rest (Or.inr ⟨n, e.name, rfl⟩) hI₂ ((hids₂ next).trans hnext)
            rw [hsame.tree] at hrec
            simp only [run_step _ hrel]
            cases hw : s.tree.walk tInfo m fileHasToExist deleteMode fuel e.nodeID rest with
            | none =>
              rw [hw] at hrec
              exact hrec
            | some found =>
              rw [hw] at hrec
              obtain ⟨r, s₃, hrun, hsame₃, hmatch⟩ := hrec
              exact ⟨r, s₃, hrun, hsame.trans hsame₃, hmatch⟩

/-! ## `_AcquirePathRec` -/

/-- The root of a mount, from the cache or read. -/
theorem acquireRoot_run (hI : Inv ({.mref m} + f) s) (hm : s.mounts.cell m = some mp)
    (hp : m ≠ s.pipeMount) :
    ∃ n s', (do
      let mp ← getMount m
      acquireNode K m mp.rootNode : M NodeRef) s = .ok (n, s') ∧ Same [m] s s' ∧
      Inv ({.mref m} + {.ref m n true .nothing} + f) s' ∧ s'.view.idOf n = some mp.rootNode := by
  have hok := hI.mountOK hm
  have hlive : ∀ n ∈ mp.nodeCache, ∃ node, s.nodes.cell n = some node := fun n => hI.live hm
  cases hfind : mp.nodeCache.find? fun n => (s.nodes.cell n).any fun node => node.id = mp.rootNode with
  | some n =>
    obtain ⟨hmem, hid⟩ := find_cached hfind
    obtain ⟨node, hn⟩ := hlive n hmem
    have hready := ((hI.nodeOK hm hmem hn).temp hp).ready
    have hrun : (do
        let mp ← getMount m
        acquireNode K m mp.rootNode : M NodeRef) s =
        .ok (n, s.updNode n fun node => { node with refCount := inc node.refCount }) := by
      rw [M.bind_ok (getMount_ok hm)]
      exact acquireNode_hit hm hok.nodeCacheLock hlive hfind hn hready
    obtain ⟨g, hinv, -, rfl⟩ := (does_acquireRoot m s f hI).of_ok hrun
    refine ⟨n, _, hrun, same_updNode fun _ => rfl, hinv, ?_⟩
    simpa [State.view, Option.map_map, Function.comp_def] using hid
  | none =>
    obtain ⟨m_MP, hfs, -, -⟩ := hok.fs hp
    obtain ⟨tn, htn, -⟩ := hok.rootTest hp
    obtain ⟨tn, hcell, -⟩ := Option.map_eq_some_iff.1 htn
    have hrun : (do
        let mp ← getMount m
        acquireNode K m mp.rootNode : M NodeRef) s = .ok (s.nodes.fresh K.alloc,
          s.pushNode m (s.nodes.fresh K.alloc) (rootNodeOf mp.rootNode m_MP tn)) := by
      rw [M.bind_ok (getMount_ok hm)]
      exact acquireNode_miss hm hok.nodeCacheLock hlive hfind (fs_of_skel hfs) hcell
    obtain ⟨g, hinv, -, rfl⟩ := (does_acquireRoot m s f hI).of_ok hrun
    refine ⟨_, _, hrun, ⟨?_, rfl, rfl, rfl, rfl, fun m' hm' => ?_, fun n' id hid => ?_⟩, hinv, ?_⟩
    · exact tree_pushRoot hI hm (Heap.cell_fresh K.alloc s.nodes) hcell
    · have hne : m' ≠ m := by simpa using hm'
      simp [State.pushNode, hne]
    · obtain ⟨node, hn', rfl⟩ := cell_of_idOf hid
      have hne := Heap.ne_fresh K.alloc hn'
      simp [State.view, State.pushNode, hne, hn']
    · simp [State.view, State.pushNode, rootNodeOf]

theorem acquirePathRec_run (tInfo : ThreadInfo) (path : Str) (fileHasToExist deleteMode : Bool) (hI : Inv ({.mref m} + f) s) (hm : s.mounts.cell m = some mp)
    (hp : m ≠ s.pipeMount) :
    match s.tree.walkFrom tInfo m path fileHasToExist deleteMode with
    | some found => ∃ r s', (acquirePathRec K tInfo m path fileHasToExist deleteMode).run s =
        .ok (r, s') ∧ Same [m] s s' ∧ Matches s'.view found r
    | none => (acquirePathRec K tInfo m path fileHasToExist deleteMode).run s = .error .block := by
  obtain ⟨n, s₁, hroot, hsame, hI₁, hid⟩ := acquireRoot_run (K := K) hI hm hp
  have htree : s.tree.rootNode m = some mp.rootNode := by simp [hm]
  unfold Tree.walkFrom acquirePathRec
  rw [htree]
  simp only [Option.bind_eq_bind, Option.bind_some, run_step _ hroot]
  by_cases hpath : path = []
  · simp only [hpath, if_true]
    exact ⟨_, s₁, rfl, hsame, .ok (by simp [hid]) rfl⟩
  · simp only [hpath, if_false]
    have hI₁' : Inv ({.mref m} + {.ref m n true .nothing} + 0 + f) s₁ := by
      rwa [add_zero]
    have hwalk := walk_run (K := K) [m] tInfo path fileHasToExist deleteMode (path.length + 1)
      (Or.inl ⟨rfl, rfl⟩) hI₁' hid
    rw [hsame.tree] at hwalk
    cases hw : s.tree.walk tInfo m fileHasToExist deleteMode (path.length + 1) mp.rootNode path with
    | none =>
      rw [hw] at hwalk
      exact hwalk
    | some found =>
      rw [hw] at hwalk
      obtain ⟨r, s₂, hrun, hsame₂, hmatch⟩ := hwalk
      exact ⟨r, s₂, hrun, hsame.trans hsame₂, hmatch⟩

/-! ## `AcquirePath` -/

/-- A directory with an entry is linked. -/
theorem TempRef.linked_of_named {dir c : NodeRef} {name : Str} (hI : Inv H s)
    (href : TempRef H s m dir root known mp node) (hnamed : Tok.named dir name c ∈ H) :
    node.linkCount ≠ 0 := by
  obtain ⟨_, _, id, -, -, -, -, hentry⟩ := hI.toks _ hnamed
  intro hzero
  rw [entriesOf_of_cell href.cell, href.temp.unlinked hzero] at hentry
  cases hentry

theorem releaseMountPoint_run (ms : List MountRef) (hI : Inv ({.mref m} + f) s) :
    ∃ s', releaseMountPoint m true s = .ok ((), s') ∧ Inv f s' ∧ Same ms s s' ∧
      s'.view.idOf = s.view.idOf := by
  obtain ⟨mp, hm, hp⟩ := hI.mref_cell (mem_head _ f)
  by_cases hroot : m = s.rootMount
  · have hrun := releaseMountPoint_root hroot true
    obtain ⟨g, hinv, -, rfl⟩ := (does_releaseMountPoint m s f hI).of_ok hrun
    rw [zero_add] at hinv
    exact ⟨s, hrun, hinv, Same.refl ms s, rfl⟩
  · have hrun := releaseMountPoint_dec hroot hm
    obtain ⟨g, hinv, -, rfl⟩ := (does_releaseMountPoint m s f hI).of_ok hrun
    rw [zero_add] at hinv
    exact ⟨_, hrun, hinv, same_updMount fun _ => rfl, rfl⟩

/-- What `AcquirePath` hands out is what was resolved. -/
inductive Hands (v : View) : Except Error Tree.Resolved → Except Error Acquired → Prop
  | ok {m : MountRef} {node parent : Option Nat} {n p : Option NodeRef} {path buffer : Str}
      (hnode : n.map v.idOf = node.map some) (hparent : p.map v.idOf = parent.map some) :
      Hands v (.ok ⟨m, node, parent, path, buffer⟩) (.ok ⟨m, n, p, path, buffer⟩)
  | error (e : Error) : Hands v (.error e) (.error e)

/-- The directory of a name is given back. -/
theorem releaseParent_run (ms : List MountRef) {dir : NodeRef} {name : Str}
    (hI : Inv ({.ref m dir root known} + ({.mref m} + {.named dir name n} + f)) s) :
    ∃ s', releaseNode dir true s = .ok ((), s') ∧ Inv ({.mref m} + {.named dir name n} + f) s' ∧
      Same ms s s' ∧ ∀ n', s'.view.idOf n' = s.view.idOf n' := by
  have href : ∃ mp node, TempRef _ s m dir root known mp node := hI.tempRef (by simp) (by simp)
  obtain ⟨mp, node, href⟩ := href
  have hlink := href.linked_of_named hI (show Tok.named dir name n ∈ _ by simp)
  exact releaseNode_run ms hI href hlink

/-- A link is followed: its target is read, and everything is given back. -/
theorem followLink_run (ms : List MountRef) {dir : NodeRef} {name : Str} (hI : Inv ({.ref m n false (.type .symlink)} +
      ({.ref m dir root known} + ({.mref m} + {.named dir name n})) + f) s)
    (hid : s.view.idOf n = some id) :
    ∃ linkPath s₁ s₂ s₃, s.tree.linkPath m id = some linkPath ∧ readLink n s = .ok (linkPath, s) ∧
      releaseNode n true s = .ok ((), s₁) ∧ releaseNode dir true s₁ = .ok ((), s₂) ∧
      releaseMountPoint m true s₂ = .ok ((), s₃) ∧ Inv f s₃ ∧ Same ms s s₃ := by
  have href : ∃ mp node, TempRef _ s m n false (.type .symlink) mp node :=
    hI.tempRef (by simp) (by simp)
  obtain ⟨mp, node, href⟩ := href
  obtain rfl : node.id = id := Option.some.inj ((idOf_of_cell href.cell).symm.trans hid)
  have htype : node.type = .symlink :=
    Option.some.inj ((typeOf_of_cell href.cell).symm.trans href.known)
  obtain ⟨linkPath, hinfo⟩ := href.temp.symlink htype
  have hlink : node.linkCount ≠ 0 :=
    hI.linked_pos (E := {.named dir name n}) (fun t ht => by rw [Multiset.mem_singleton.1 ht]; simp)
      (Or.inr ⟨dir, name, rfl⟩) href
  have hI₀ : Inv ({.ref m n false (.type .symlink)} + ({.ref m dir root known} +
      ({.mref m} + {.named dir name n} + f))) s := hI.perm (by ac_rfl)
  obtain ⟨s₁, hrel₁, hI₁, hsame₁, -⟩ := releaseNode_run ms hI₀ href hlink
  obtain ⟨s₂, hrel₂, hI₂, hsame₂, -⟩ := @releaseParent_run f s₁ n m root known ms dir name hI₁
  have hI₂' : Inv ({.mref m} + ({.named dir name n} + f)) s₂ := hI₂.perm (by ac_rfl)
  obtain ⟨s₃, hrel₃, hI₃, hsame₃, -⟩ := releaseMountPoint_run ms hI₂'
  refine ⟨linkPath, s₁, s₂, s₃, ?_, ?_, hrel₁, hrel₂, hrel₃, hI₃.forget rfl, ?_⟩
  · simp [Tree.linkPath, href.tree hI, hinfo]
  · unfold readLink
    rw [M.bind_ok (getNode_ok href.cell)]
    simp only [hinfo]
    rfl
  · exact (hsame₁.trans hsame₂).trans hsame₃

/-- **`AcquirePath` resolves the path in the tree.** -/
theorem acquirePath_run {buffer : Str} (hI : Inv f s)
    (hbuf : deleteMode = true → NoTrailing buffer) :
    match s.tree.resolve tInfo fileHasToExist deleteMode fuel buffer with
    | some res => ∃ a s' g, (acquirePath K tInfo fileHasToExist deleteMode fuel buffer).run s =
        .ok (a, s') ∧ Same (s.tree.visits tInfo fileHasToExist deleteMode fuel buffer) s s' ∧
        Hands s'.view res a ∧ Inv (g + f) s' ∧ AcquiredOK deleteMode a g
    | none => (acquirePath K tInfo fileHasToExist deleteMode fuel buffer).run s =
        .error .block := by
  induction fuel generalizing buffer s with
  | zero => rfl
  | succ fuel ih =>
    have hfind := findMountPoint_run buffer hI
    unfold acquirePath Tree.resolve Tree.visits Tree.round
    cases hfor : s.tree.mountFor buffer with
    | none =>
      rw [hfor] at hfind
      simp only [Option.bind_eq_bind, Option.bind_none]
      rw [Prog.run_bind, hfind]
    | some m =>
      rw [hfor] at hfind
      obtain ⟨hfind, mp, hserve⟩ := hfind
      have hI₁ := hI.hold hserve.cell hserve.notPipe
      obtain ⟨mp₁, hm₁, hskel⟩ := cell_hold hserve.cell
      have hpath : mp₁.path = mp.path := show mp₁.skel.path = mp.skel.path by rw [hskel]
      have htpath : s.tree.path m = some mp.path := by simp [hserve.cell]
      have hprefix : mp.path = [] ∨ mountCmp buffer mp.path = true := by
        rcases hserve.path with hr | hcmp
        · exact Or.inl ((hI.mountOK hserve.cell).path hr)
        · exact Or.inr hcmp
      have hwalk := acquirePathRec_run (K := K) tInfo (advancePath buffer mp.path) fileHasToExist deleteMode
        hI₁ hm₁ (by simpa using hserve.notPipe)
      have hsafe := safe_acquirePathRec (K := K) tInfo m fileHasToExist deleteMode hbuf
        (advancePath_tail hprefix)
      simp only [Option.bind_eq_bind, Option.bind_some, htpath]
      rw [Prog.run_bind_of_ok _ hfind, run_step _ (getMount_ok hm₁), hpath]
      rw [tree_hold] at hwalk
      cases hfound : s.tree.walkFrom tInfo m (advancePath buffer mp.path) fileHasToExist deleteMode with
      | none =>
        rw [hfound] at hwalk
        simp only [Option.bind_none]
        rw [Prog.run_bind, hwalk]
      | some found =>
        rw [hfound] at hwalk
        obtain ⟨r, s₂, hrun, hsame₂, hmatch⟩ := hwalk
        obtain ⟨g, hI₂, hwalked⟩ := (hsafe.run_ends hI₁ fun _ => trivial).of_ok hrun
        have hsame : Same [m] s s₂ := (same_hold [m]).trans hsame₂
        simp only [Option.bind_some]
        rw [Prog.run_bind_of_ok _ hrun]
        cases hmatch with
        | error e =>
          cases hwalked with
          | error e =>
            obtain ⟨s₃, hrel, hI₃, hsame₃, -⟩ := releaseMountPoint_run [m] hI₂
            refine ⟨_, s₃, 0, run_step _ hrel, hsame.trans hsame₃, .error e, ?_,
              .error e⟩
            rwa [zero_add]
        | ok hnode hparent =>
          refine ⟨_, s₂, g, rfl, hsame, .ok hnode hparent, hI₂, ?_⟩
          cases hwalked with
          | root n path => exact .root
          | node hdelete htype => exact .node hdelete htype
          | absent hlinked hne hslash => exact .absent hlinked hne hslash
        | @symlink id pid n dir rest hnode hparent =>
          cases hwalked with
          | symlink hdelete hrest =>
            obtain ⟨linkPath, s₃, s₄, s₅, htarget, hread, hrel₃, hrel₄, hrel₅, hI₅, hsame₅⟩ :=
              followLink_run [m] hI₂ hnode
            rw [hsame.tree] at htarget
            have hsame' : Same [m] s s₅ := hsame.trans hsame₅
            simp only [htarget, run_step _ hread, run_step _ hrel₃, run_step _ hrel₄,
              run_step _ hrel₅]
            by_cases hlong : Tree.tooLong linkPath rest
            · have hlong' : linkPath.length + rest.length + 2 > 255 := hlong
              simp only [hlong, hlong', if_true]
              refine ⟨_, s₅, 0, rfl, hsame', .error _, ?_, .error _⟩
              rwa [zero_add]
            · have hlong' : ¬ linkPath.length + rest.length + 2 > 255 := hlong
              simp only [hlong, hlong', if_false]
              have hbuf' : deleteMode = true → NoTrailing (splice linkPath rest) := fun hmode =>
                noTrailing_splice (hbuf hmode) (hrest (hdelete hmode)) (hdelete hmode)
              have hrec := ih hI₅ hbuf'
              rw [hsame'.tree] at hrec
              cases hres : s.tree.resolve tInfo fileHasToExist deleteMode fuel (splice linkPath rest) with
              | none =>
                rw [hres] at hrec
                exact hrec
              | some res =>
                rw [hres] at hrec
                obtain ⟨a, s₆, g', hrun₆, hsame₆, hhands, hI₆, hacq⟩ := hrec
                refine ⟨a, s₆, g', hrun₆, ?_, hhands, hI₆, hacq⟩
                exact (hsame'.mono (by simp)).trans (hsame₆.mono (List.subset_cons_self m _))

end ChenixOS.VFS
