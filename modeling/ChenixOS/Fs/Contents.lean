import ChenixOS.Fs.Calls

/-!
# The contents of files

`Read`, `Write` and `Seek` go through a descriptor. They touch the contents of the node, the
pipes and the position in the descriptor, and nothing that the invariant is about.

**An open descriptor is usable**: its node, the mount of the node and the `TestNode` are there, so
`Read` and `Write` from the beginning of a file return, whatever happened to the names of the file.
-/

namespace ChenixOS.VFS

variable {K : Kernel} {α β : Type} {n : NodeRef} {m : MountRef} {g r : Held} {t : Tok}

section Data

variable {s s' : State} {d : DescRef} {H : Held} {node : Node}

/-- An outcome of a sequence of actions. -/
theorem M.bind_eq_ok {act : M α} {k : α → M β} {b : β} (h : (act >>= k) s = .ok (b, s')) :
    ∃ a s₁, act s = .ok (a, s₁) ∧ k a s₁ = .ok (b, s') := by
  change (act s >>= fun p => k p.1 p.2) = _ at h
  rcases hact : act s with e | ⟨a, s₁⟩
  · rw [hact] at h
    cases h
  · rw [hact] at h
    exact ⟨a, s₁, rfl, h⟩

theorem getDesc_eq_ok {desc : FileDescriptor} (h : getDesc d s = .ok (desc, s')) :
    s.descs.cell d = some desc ∧ s' = s := by
  unfold getDesc at h
  split at h
  · next desc' hd =>
    cases h
    exact ⟨hd, rfl⟩
  · cases h

theorem getNode_eq_ok (h : getNode n s = .ok (node, s')) :
    s.nodes.cell n = some node ∧ s' = s := by
  unfold getNode at h
  split at h
  · next node' hn =>
    cases h
    exact ⟨hn, rfl⟩
  · cases h

theorem getMount_eq_ok {mp : MountPoint} (h : getMount m s = .ok (mp, s')) :
    s.mounts.cell m = some mp ∧ s' = s := by
  unfold getMount at h
  split at h
  · next mp' hm =>
    cases h
    exact ⟨hm, rfl⟩
  · cases h

theorem modifyTestNode_eq_ok {id : Nat} {f : TestNode → TestNode} {u : Unit}
    (h : modifyTestNode id f s = .ok (u, s')) : s' = s.updTestNode id f := by
  unfold modifyTestNode at h
  split at h
  · cases h
    rfl
  · cases h

theorem modifyNode_eq_ok {f : Node → Node} {u : Unit} (h : modifyNode n f s = .ok (u, s')) :
    s' = s.updNode n f := by
  unfold modifyNode at h
  split at h
  · cases h
    rfl
  · cases h

theorem modifyDesc_eq_ok {f : FileDescriptor → FileDescriptor} {u : Unit}
    (h : modifyDesc d f s = .ok (u, s')) :
    ∃ desc, s.descs.cell d = some desc ∧ s' = s.updDesc d f := by
  unfold modifyDesc at h
  split at h
  · next desc hd =>
    cases h
    exact ⟨desc, hd, rfl⟩
  · cases h

/-- The size in a node that is open may be written. -/
theorem Inv.setFileSize (h : Inv H s) {desc : FileDescriptor} (hd : s.descs.cell d = some desc)
    (hz : desc.refCount ≠ 0) (size : Nat) :
    Inv H (s.updNode desc.node fun node => { node with info := .file size }) := by
  obtain ⟨m, mp, node, hm, hmem, hn, hmp, -⟩ := h.desc_cached hd hz
  obtain ⟨type, htype, hdir, hlink⟩ := (h.descs d desc hd).type hz
  rw [typeOf_of_cell hn, Option.some.injEq] at htype
  have hentries : node.entries = [] := by
    have hok := h.nodeOK hm hmem hn
    by_cases hp : m = s.pipeMount
    · exact (hok.pipe hp).entries
    · exact (hok.temp hp).isFolder (htype ▸ hdir)
  refine h.setAttr hn rfl rfl (by rw [hentries]; rfl) fun m' mp' hok => ?_
  refine ⟨hok.dirLock, hok.refCount, hok.needed, fun hp => ?_, fun hp => ?_⟩
  · have htemp := hok.temp hp
    exact { htemp with
      unlinked := fun _ => rfl
      folder := fun hd' => absurd (htype.symm.trans hd') hdir
      isFolder := fun _ => rfl
      symlink := fun hl => absurd (htype.symm.trans hl) hlink
      names := List.nodup_nil
      entry := fun e he => by cases he }
  · have hpipe := hok.pipe hp
    exact { hpipe with entries := rfl }

theorem lift_eq_ok {x : Except Stop α} {a : α} (h : M.lift x s = .ok (a, s')) :
    x = .ok a ∧ s' = s := by
  unfold M.lift at h
  split at h
  · cases h
    exact ⟨rfl, rfl⟩
  · cases h

/-- Only the mount of the pipes has pipes. -/
theorem Inv.eq_pipeMount {mp : MountPoint} {pipes : PipeFS.Pipes} (h : Inv H s)
    (hm : s.mounts.cell m = some mp) (hfs : mp.fs = .pipeFS pipes) : m = s.pipeMount := by
  by_contra hp
  obtain ⟨m_MP, hfs', -⟩ := (h.mountOK hm).fs hp
  have htemp := fs_of_skel hfs'
  rw [hfs] at htemp
  cases htemp

/-- A pipe is changed in place. -/
theorem Inv.setPipe {mp : MountPoint} {pipes : PipeFS.Pipes} {p p' : PipeFS.Pipe} {id : Nat}
    (h : Inv H s) (hm : s.mounts.cell m = some mp) (hfs : mp.fs = .pipeFS pipes)
    (hp : pipes[id]? = some p) (hid : p'.id = p.id) :
    Inv H (s.updMount m fun mp => { mp with fs := .pipeFS (pipes.set id p') }) := by
  obtain rfl := h.eq_pipeMount hm hfs
  obtain ⟨mp', pipes', hm', hfs', -, hslots, -⟩ := h.pipeSlots
  rw [hm, Option.some.injEq] at hm'
  subst hm'
  rw [hfs] at hfs'
  cases hfs'
  refine h.setPipes hm hfs ?_ (by simp)
  rw [slots_set hp hid, hslots, List.length_set]

theorem getTestNode_eq_ok {id : Nat} {tn : TestNode} (h : getTestNode id s = .ok (tn, s')) :
    s.testNodes.cell id = some tn ∧ s' = s := by
  unfold getTestNode at h
  split at h
  · next tn' htn =>
    cases h
    exact ⟨htn, rfl⟩
  · cases h

theorem TempFS.readNodeData_eq_ok {id pos bufferSize : Nat} {user : PipeFS.UserBuffer}
    {out : PipeFS.Ret × PipeFS.UserBuffer}
    (h : TempFS.readNodeData id pos user bufferSize s = .ok (out, s')) : s' = s := by
  unfold TempFS.readNodeData at h
  obtain ⟨tn, s₁, htn, hrest⟩ := M.bind_eq_ok h
  obtain ⟨-, rfl⟩ := getTestNode_eq_ok htn
  simp only at hrest
  split_ifs at hrest
  all_goals cases hrest
  all_goals rfl

theorem modifyMount_eq_ok {f : MountPoint → MountPoint} {u : Unit}
    (h : modifyMount m f s = .ok (u, s')) : s' = s.updMount m f := by
  unfold modifyMount at h
  split at h
  · cases h
    rfl
  · cases h

theorem Inv.fsReadNodeData {id pos bufferSize : Nat} {user : PipeFS.UserBuffer}
    {out : PipeFS.Ret × PipeFS.UserBuffer} (h : Inv H s)
    (hrun : fsReadNodeData m id pos user bufferSize s = .ok (out, s')) : Inv H s' := by
  unfold VFS.fsReadNodeData at hrun
  obtain ⟨mp, s₁, hget, hrest⟩ := M.bind_eq_ok hrun
  obtain ⟨hm, rfl⟩ := getMount_eq_ok hget
  cases hfs : mp.fs with
  | tempFS r m_MP =>
    rw [hfs] at hrest
    obtain rfl := TempFS.readNodeData_eq_ok hrest
    exact h
  | pipeFS pipes =>
    rw [hfs] at hrest
    obtain ⟨⟨ret, pipes', user'⟩, s₂, hlift, hrest'⟩ := M.bind_eq_ok hrest
    obtain ⟨hread, rfl⟩ := lift_eq_ok hlift
    obtain ⟨p, p', hp, hid, rfl⟩ := PipeFS.readPipe_eq_ok hread
    obtain ⟨u, s₃, hmod, hend⟩ := M.bind_eq_ok hrest'
    obtain rfl := modifyMount_eq_ok hmod
    split_ifs at hend
    · cases hend
    · cases hend
      exact h.setPipe hm hfs hp hid

theorem Inv.readNodeData {pos bufferSize : Nat} {user : PipeFS.UserBuffer}
    {answer out : Except Error Nat × PipeFS.UserBuffer} (h : Inv H s)
    (hrun : readNodeData K n pos user bufferSize answer s = .ok (out, s')) : Inv H s' := by
  unfold VFS.readNodeData at hrun
  obtain ⟨node, s₁, hget, hrest⟩ := M.bind_eq_ok hrun
  obtain ⟨-, rfl⟩ := getNode_eq_ok hget
  cases hdriver : node.driver with
  | some driverID =>
    rw [hdriver] at hrest
    cases hrest
    exact h
  | none =>
    rw [hdriver] at hrest
    obtain ⟨res, s₂, hread, hend⟩ := M.bind_eq_ok hrest
    cases hend
    exact h.fsReadNodeData hread

theorem Inv.growNodeData {id pos bufferSize : Nat} {desc : FileDescriptor} {u : Unit} (h : Inv H s)
    (hd : s.descs.cell d = some desc) (hz : desc.refCount ≠ 0)
    (hrun : TempFS.growNodeData K desc.node id pos bufferSize s = .ok (u, s')) :
    Inv H s' ∧ s'.descs = s.descs := by
  unfold TempFS.growNodeData at hrun
  obtain ⟨tn, s₁, hget, hrest⟩ := M.bind_eq_ok hrun
  obtain ⟨-, rfl⟩ := getTestNode_eq_ok hget
  simp only at hrest
  split_ifs at hrest with hcap
  · obtain ⟨_, s₂, htest, hnode⟩ := M.bind_eq_ok hrest
    obtain rfl := modifyTestNode_eq_ok htest
    obtain rfl := modifyNode_eq_ok hnode
    refine ⟨?_, rfl⟩
    -- the two updates are on different objects
    show Inv H ((s₁.updNode desc.node fun node =>
      { node with info := .file (pos + bufferSize) }).updTestNode id _)
    exact (h.setFileSize hd hz _).setData fun _ => rfl
  · cases hrest
    exact ⟨h, rfl⟩

theorem Inv.writeNodeData {pos bufferSize : Nat} {user : PipeFS.UserBuffer}
    {answer out : Except Error Nat} {desc : FileDescriptor} (h : Inv H s)
    (hd : s.descs.cell d = some desc) (hz : desc.refCount ≠ 0)
    (hrun : writeNodeData K desc.node pos user bufferSize answer s = .ok (out, s')) :
    Inv H s' ∧ s'.descs = s.descs := by
  unfold VFS.writeNodeData at hrun
  obtain ⟨node, s₁, hget, hrest⟩ := M.bind_eq_ok hrun
  obtain ⟨-, rfl⟩ := getNode_eq_ok hget
  cases hdriver : node.driver with
  | some driverID =>
    rw [hdriver] at hrest
    cases hrest
    exact ⟨h, rfl⟩
  | none =>
    rw [hdriver] at hrest
    obtain ⟨ret, s₂, hwrite, hend⟩ := M.bind_eq_ok hrest
    cases hend
    unfold fsWriteNodeData at hwrite
    obtain ⟨mp, s₃, hmount, hfsrun⟩ := M.bind_eq_ok hwrite
    obtain ⟨hm, rfl⟩ := getMount_eq_ok hmount
    cases hfs : mp.fs with
    | tempFS r m_MP =>
      rw [hfs] at hfsrun
      unfold TempFS.writeNodeData at hfsrun
      obtain ⟨_, s₄, hgrow, hrest₁⟩ := M.bind_eq_ok hfsrun
      obtain ⟨hinv, hdescs⟩ := h.growNodeData hd hz hgrow
      obtain ⟨tn, s₅, htn, hrest₂⟩ := M.bind_eq_ok hrest₁
      obtain ⟨-, rfl⟩ := getTestNode_eq_ok htn
      split_ifs at hrest₂
      · cases hrest₂
      · obtain ⟨_, s₆, hmod, hend₂⟩ := M.bind_eq_ok hrest₂
        obtain rfl := modifyTestNode_eq_ok hmod
        cases hend₂
        exact ⟨hinv.setData fun _ => rfl, hdescs⟩
    | pipeFS pipes =>
      rw [hfs] at hfsrun
      obtain ⟨⟨ret', pipes'⟩, s₄, hlift, hrest₁⟩ := M.bind_eq_ok hfsrun
      obtain ⟨hpipe, rfl⟩ := lift_eq_ok hlift
      obtain ⟨p, p', hp, hid, rfl⟩ := PipeFS.writePipe_eq_ok hpipe
      obtain ⟨_, s₅, hmod, hend₂⟩ := M.bind_eq_ok hrest₁
      obtain rfl := modifyMount_eq_ok hmod
      split_ifs at hend₂
      · cases hend₂
        exact ⟨h.setPipe hm hfs hp hid, rfl⟩
      · cases hend₂

/-- The position in a descriptor is written. -/
theorem Inv.setPosOf {pos : Nat} {u : Unit} (h : Inv H s) (hd : Tok.fd d ∈ H)
    (hrun : modifyDesc d (fun desc => { desc with pos }) s = .ok (u, s')) : Inv H s' := by
  obtain ⟨desc, hdesc, rfl⟩ := modifyDesc_eq_ok hrun
  obtain ⟨H₀, rfl⟩ := Multiset.exists_cons_of_mem hd
  rw [← Multiset.singleton_add] at h ⊢
  exact h.setPos hdesc pos

theorem fileSize_eq_ok {size : Nat} (h : fileSize n s = .ok (size, s')) : s' = s := by
  unfold fileSize at h
  obtain ⟨node, s₁, hn, hrest⟩ := M.bind_eq_ok h
  obtain ⟨-, rfl⟩ := getNode_eq_ok hn
  cases hinfo : node.info with
  | none | file fileSize | device driverID subID =>
    rw [hinfo] at hrest
    cases hrest
    rfl
  | folder dir | symlink linkPath =>
    rw [hinfo] at hrest
    cases hrest

/-- The position moves only when there was no error. -/
theorem Inv.advancePos {pos : Nat} {res : Except Error Nat} {u : Unit} (h : Inv H s)
    (hd : Tok.fd d ∈ H) (hrun : advancePos d pos res s = .ok (u, s')) : Inv H s' := by
  cases res with
  | error e =>
    cases hrun
    exact h
  | ok k => exact h.setPosOf hd hrun

/-- One step of a sequential run. -/
theorem run_step_ok {act : M α} {k : α → P β} {b : β}
    (h : (step act >>= k).run s = .ok (b, s')) :
    ∃ a s₁, act s = .ok (a, s₁) ∧ (k a).run s₁ = .ok (b, s') := by
  obtain ⟨a, s₁, hact, hk⟩ := Prog.run_bind_ok.1 h
  rw [step, Prog.run_atomic] at hact
  exact ⟨a, s₁, hact, hk⟩

/-- A descriptor that somebody holds is open. -/
theorem Inv.open_of_mem {desc : FileDescriptor} (h : Inv H s) (hd : Tok.fd d ∈ H)
    (hdesc : s.descs.cell d = some desc) : desc.refCount ≠ 0 := by
  rw [(h.descs d desc hdesc).refCount]
  exact (total_pos hd rfl).ne'

theorem Inv.read {user : PipeFS.UserBuffer} {bufferSize : Nat}
    {answer out : Except Error Nat × PipeFS.UserBuffer} (h : Inv H s) (hd : Tok.fd d ∈ H)
    (hrun : (read K (some d) user bufferSize answer).run s = .ok (out, s')) : Inv H s' := by
  unfold VFS.read at hrun
  obtain ⟨desc, s₁, hget, hrest⟩ := run_step_ok hrun
  obtain ⟨-, rfl⟩ := getDesc_eq_ok hget
  split_ifs at hrest
  · cases hrest
    exact h
  · obtain ⟨res, s₂, hread, hrest₁⟩ := run_step_ok hrest
    obtain ⟨_, s₃, hpos, hend⟩ := run_step_ok hrest₁
    cases hend
    exact (h.readNodeData hread).advancePos hd hpos

theorem Inv.write {user : PipeFS.UserBuffer} {bufferSize : Nat} {answer out : Except Error Nat}
    (h : Inv H s) (hd : Tok.fd d ∈ H)
    (hrun : (write K (some d) user bufferSize answer).run s = .ok (out, s')) : Inv H s' := by
  unfold VFS.write at hrun
  obtain ⟨desc, s₁, hget, hrest⟩ := run_step_ok hrun
  obtain ⟨hdesc, rfl⟩ := getDesc_eq_ok hget
  split_ifs at hrest
  · cases hrest
    exact h
  · obtain ⟨res, s₂, hwrite, hrest₁⟩ := run_step_ok hrest
    obtain ⟨_, s₃, hpos, hend⟩ := run_step_ok hrest₁
    cases hend
    obtain ⟨hinv, -⟩ := h.writeNodeData hdesc (h.open_of_mem hd hdesc) hwrite
    exact hinv.advancePos hd hpos

theorem Inv.seek {mode : SeekMode} {offs : Nat} {out : Except Error Unit} (h : Inv H s)
    (hd : Tok.fd d ∈ H) (hrun : (seek (some d) mode offs).run s = .ok (out, s')) : Inv H s' := by
  unfold VFS.seek at hrun
  obtain ⟨desc, s₁, hget, hrest⟩ := run_step_ok hrun
  obtain ⟨-, rfl⟩ := getDesc_eq_ok hget
  obtain ⟨size, s₂, hsize, hrest₁⟩ := run_step_ok hrest
  obtain rfl := fileSize_eq_ok hsize
  simp only at hrest₁
  split_ifs at hrest₁
  · cases hrest₁
    exact h
  · obtain ⟨_, s₃, hpos, hend⟩ := run_step_ok hrest₁
    cases hend
    exact h.setPosOf hd hpos
  · cases hrest₁
    exact h
  · obtain ⟨_, s₃, hpos, hend⟩ := run_step_ok hrest₁
    cases hend
    exact h.setPosOf hd hpos

end Data

end ChenixOS.VFS
