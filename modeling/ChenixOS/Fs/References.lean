import ChenixOS.Fs.ComponentWalk

/-!
# References to nodes and mounts

Between two calls the counters are exact: a cached node counts the descriptors that are open on it,
and a mount counts at least the descriptors that are open on its nodes and the mounts below it.

**Theorem (`unmount_safe`).** So an `Unmount` that succeeds takes away a mount that no descriptor and no
other mount refers to.
-/

namespace ChenixOS.VFS

variable {K : Kernel} {user : ThreadRef → Nat × Nat} {L : Held} {s s' : State} {n : NodeRef}
  {m p : MountRef} {t : ThreadRef} {node : Node} {mp pp : MountPoint} {mountPoint : Option Str}

/-! ## Unmount -/

theorem prepare_eq_ok {bufSize : Nat} {path : Option Str} {r : Except Error Str}
    (h : prepare bufSize t path s = .ok (r, s')) :
    s' = s ∧ preparePath bufSize (s.threads t).cwd path = .ok r := by
  unfold prepare at h
  rw [M.bind_ok (show getThread t s = .ok (s.threads t, s) from rfl)] at h
  obtain ⟨hr, hs⟩ := lift_eq_ok h
  exact ⟨hs, hr⟩

/-- A reference to a mount that is taken away leaves no trace. -/
theorem dropMount_hold (hne : m ≠ s.rootMount) : (s.hold m).dropMount p m = s.dropMount p m := by
  have hcells : ((s.hold m).dropMount p m).mounts = (s.dropMount p m).mounts := by
    rw [hold_of_ne hne]
    refine Heap.ext_cell (funext fun a => ?_) rfl
    by_cases ham : a = m
    · subst ham
      simp [State.dropMount]
    · by_cases hap : a = p
      · subst hap
        simp [State.dropMount, ham]
      · simp [State.dropMount, ham, hap]
  have hrest : ∀ s₀ : State, s₀.dropMount p m = { s₀ with mounts := (s₀.dropMount p m).mounts } :=
    fun _ => rfl
  rw [hrest (s.hold m), hrest s, hcells, hold_of_ne hne]
  rfl

/-- What an `Unmount` that succeeds does: `m` is at the path, nobody refers to it, and it is taken out
of the list of its parent. -/
structure Unmounts (s : State) (buffer : Str) (m p : MountRef) (mp pp : MountPoint) (s' : State) :
    Prop where
  found : s.tree.mountFor buffer = some m
  cell : s.mounts.cell m = some mp
  path : advancePath buffer mp.path = []
  notRoot : m ≠ s.rootMount
  notPipe : m ≠ s.pipeMount
  parent : mp.parent = some p
  parentCell : s.mounts.cell p = some pp
  parentNe : p ≠ m
  refCount : mp.refCount = 0
  state : s' = s.dropMount p m

theorem unmount_eq_ok (hI : Inv L s) (hrun : (unmount t mountPoint).run s = .ok (.ok (), s')) :
    ∃ buffer m p mp pp, preparePath 255 (s.threads t).cwd mountPoint = .ok (.ok buffer) ∧
      Unmounts s buffer m p mp pp s' := by
  unfold unmount at hrun
  obtain ⟨r, s₁, hprep, hrest⟩ := run_step_ok hrun
  obtain ⟨rfl, hpath⟩ := prepare_eq_ok hprep
  cases r with
  | error e => cases hrest
  | ok buffer =>
    simp only [onOk] at hrest
    obtain ⟨m, s₂, hfind, hrest₂⟩ := Prog.run_bind_ok.1 hrest
    have hserve := findMountPoint_run buffer hI
    cases hfor : s₁.tree.mountFor buffer with
    | none =>
      rw [hfor] at hserve
      rw [hserve] at hfind
      cases hfind
    | some m' =>
      rw [hfor] at hserve
      obtain ⟨hfind', mp, hm⟩ := hserve
      obtain ⟨rfl, rfl⟩ : m' = m ∧ s₁.hold m' = s₂ := by
        rw [hfind'] at hfind
        cases hfind
        exact ⟨rfl, rfl⟩
      obtain ⟨mp₂, s₃, hget, hrest₃⟩ := run_step_ok hrest₂
      obtain ⟨hm₂, rfl⟩ := getMount_eq_ok hget
      obtain ⟨s₄, s₅, hstate, hrest₄⟩ := run_step_ok hrest₃
      cases hstate
      rw [hold_rootMount] at hrest₄
      split_ifs at hrest₄ with hroot hadv
      · obtain ⟨_, _, -, hend⟩ := run_step_ok hrest₄
        cases hend
      · obtain ⟨_, _, -, hend⟩ := run_step_ok hrest₄
        cases hend
      · replace hadv : advancePath buffer mp₂.path = [] := not_not.1 hadv
        have hmp₂ : mp₂ = { mp with refCount := inc mp.refCount } := by
          simpa [hold_of_ne hroot, hm.cell] using hm₂.symm
        obtain ⟨b, s₆, hdetach, hrest₅⟩ := run_step_ok hrest₄
        have hI₂ := hI.hold hm.cell hm.notPipe
        obtain ⟨p, skel, hpar, hp, -, hpne⟩ :=
          (hI₂.mountOK hm₂).parent (by simpa [State.view] using hroot)
            (by simpa [State.view] using hm.notPipe)
        obtain ⟨pp, hpcell, rfl⟩ := cell_of_skel hp.1
        have hplock := (hI₂.mountOK hpcell).childMountLock
        have hpar₂ : mp₂.parent = some p := hpar
        rw [detach_eq hm₂ hpar₂ hpcell hplock (Ne.symm hpne)] at hdetach
        have hpcell' : s₁.mounts.cell p = some pp := by
          simpa [hold_of_ne hroot, hpne] using hpcell
        split_ifs at hdetach with href
        · cases hdetach
          cases hrest₅
          refine ⟨buffer, m', p, mp, pp, hpath, hfor, hm.cell, ?_, hroot, hm.notPipe, ?_, hpcell',
            hpne, ?_, dropMount_hold hroot⟩
          · simpa [hmp₂] using hadv
          · simpa [hmp₂] using hpar₂
          · simpa [hmp₂, inc] using href
        · cases hdetach
          simp only [Bool.false_eq_true, if_false] at hrest₅
          obtain ⟨_, _, -, hend⟩ := run_step_ok hrest₅
          cases hend

/-! ## Between two calls -/

/-- How many descriptors there are on the nodes with `q`. -/
def State.descsOn (s : State) (q : NodeRef → Bool) : Nat :=
  s.descs.sum fun desc => if q desc.node then 1 else 0

/-- Between two calls every descriptor that is there is open. -/
theorem Rest.desc_open (h : Rest L s) {d : DescRef} {desc : FileDescriptor}
    (hd : s.descs.cell d = some desc) : desc.refCount ≠ 0 :=
  h.inv.open_of_mem (h.mem_fd (by rw [hd]; rfl)) hd

theorem Rest.openOn (h : Rest L s) (q : NodeRef → Bool) : openOn s.descs q = s.descsOn q :=
  Heap.sum_congr fun d desc hd => by simp [h.desc_open hd]

/-- What holds of every mount between two calls. -/
structure MountSafe (s : State) (m : MountRef) (mp : MountPoint) : Prop where
  nodeCacheLock : mp.nodeCacheLock = false
  childMountLock : mp.childMountLock = false
  /-- A cached node counts the descriptors on it. -/
  node : ∀ n ∈ mp.nodeCache, ∃ node, s.nodes.cell n = some node ∧ node.dirLock = false ∧
    node.refCount = s.descsOn fun n' => n' = n
  /-- A mount counts the descriptors on its nodes and the mounts below it. -/
  refCount : m ≠ s.rootMount → m ≠ s.pipeMount →
    (s.descsOn fun n => n ∈ mp.nodeCache) + childCount s.mounts m ≤ mp.refCount
  parent : ∀ p, mp.parent = some p → ∃ pp, s.mounts.cell p = some pp
  child : ∀ c ∈ mp.childMounts, ∃ cp, s.mounts.cell c = some cp

/-- A descriptor refers to a cached node, and its node to a mount that is there. -/
structure DescSafe (s : State) (desc : FileDescriptor) : Prop where
  cached : ∃ m mp, s.mounts.cell m = some mp ∧ desc.node ∈ mp.nodeCache
  mount : ∃ node mp, s.nodes.cell desc.node = some node ∧ s.mounts.cell node.mp = some mp

theorem Rest.mountSafe (h : Rest L s) (hm : s.mounts.cell m = some mp) : MountSafe s m mp := by
  have hok := h.inv.mountOK hm
  refine ⟨hok.nodeCacheLock, hok.childMountLock, fun n hn => ?_, fun hr hp => ?_, fun p hpar => ?_,
    fun c hc => ?_⟩
  · obtain ⟨node, hcell⟩ := h.inv.live hm hn
    have hnode := h.inv.nodeOK hm hn hcell
    refine ⟨node, hcell, hnode.dirLock, ?_⟩
    rw [hnode.refCount, h.openOn, h.total_node, Nat.add_zero]
  · have hcount := (h.inv.mounts m mp hm).other hr hp
    rw [h.openOn] at hcount
    omega
  · by_cases hr : m = s.rootMount ∨ m = s.pipeMount
    · have hnone := hok.noParent hr
      have hnone' : mp.parent = none := hnone
      rw [hpar] at hnone'
      cases hnone'
    · obtain ⟨hr, hp⟩ := not_or.1 hr
      obtain ⟨q, qp, hq, htemp, -⟩ := hok.parent hr hp
      obtain rfl : q = p := Option.some.inj (hq.symm.trans hpar)
      obtain ⟨pp, hcell, -⟩ := cell_of_skel htemp.1
      exact ⟨pp, hcell⟩
  · obtain ⟨cp, htemp, -⟩ := hok.children c hc
    obtain ⟨cp, hcell, -⟩ := cell_of_skel htemp.1
    exact ⟨cp, hcell⟩

theorem Rest.descSafe (h : Rest L s) {d : DescRef} {desc : FileDescriptor}
    (hd : s.descs.cell d = some desc) : DescSafe s desc := by
  obtain ⟨m, skel, hskel, hmem, -⟩ := (h.inv.descs d desc hd).cached (h.desc_open hd)
  obtain ⟨mp, hm, rfl⟩ := cell_of_skel hskel
  obtain ⟨node, hn⟩ := h.inv.live hm hmem
  obtain ⟨mp', hm', -⟩ := h.inv.nodeMount hm hmem hn
  exact ⟨⟨m, mp, hm, hmem⟩, node, mp', hn, hm'⟩

/-- A mount that nothing refers to has no descriptor on its nodes and no mount below it. -/
theorem Rest.unused_of_refCount (h : Rest L s) (hm : s.mounts.cell m = some mp)
    (hr : m ≠ s.rootMount) (hp : m ≠ s.pipeMount) (hzero : mp.refCount = 0) :
    (∀ d desc, s.descs.cell d = some desc → desc.node ∉ mp.nodeCache) ∧
      ∀ m' mp', s.mounts.cell m' = some mp' → mp'.parent ≠ some m := by
  have hle := (h.mountSafe hm).refCount hr hp
  rw [hzero] at hle
  have hdescs : (s.descsOn fun n => n ∈ mp.nodeCache) = 0 := by omega
  have hchildren : childCount s.mounts m = 0 := by omega
  constructor
  · intro d desc hd hmem
    have hz := Heap.sum_eq_zero hdescs hd
    simp [hmem] at hz
  · intro m' mp' hm' hpar
    have hz := Heap.sum_eq_zero hchildren hm'
    simp [hpar] at hz

/-- A file system mounted at `a`, with an open file in it. -/
def mountedCalls : List Call :=
  let perms : Permissions := ⟨7, 7, 7, 0⟩
  [.createFolder 0 (some ['a']) perms, .mount 0 (some ['a']), .open 0 (some ['a', '/', 'f']) 0x101]

end ChenixOS.VFS
