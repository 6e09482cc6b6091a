import ChenixOS.Fs.Tree

/-!
# The position of a descriptor

`Seek` compares the offset with `node->infoFile.fileSize` for every node. For a node that is not a
regular file this is the first word of a union in which another member is stored, so here the word that
is read is a parameter. `SEEK_REL` is treated as `SEEK_SET`.
-/

namespace ChenixOS.VFS

variable {s s' : State} {d : DescRef} {desc : FileDescriptor} {node : Node}

/-- The first word of the union. `pointer` gives the address of a directory or of a link's text. -/
def NodeInfo.word (pointer : NodeInfo → Nat) : NodeInfo → Nat
  | .none => 0
  | .file fileSize => fileSize
  | .device driverID _ => driverID
  | .folder dir => pointer (.folder dir)
  | .symlink linkPath => pointer (.symlink linkPath)

/-- `node->infoFile.fileSize`, as the word that is stored there. -/
def fileSizeWord (word : NodeInfo → Nat) (n : NodeRef) : M Nat := do
  let node ← getNode n
  pure (word node.info)

/-- `Seek`, with the word that is read as the file size. -/
def seekWord (word : NodeInfo → Nat) (desc : Option DescRef) (mode : SeekMode) (offs : Nat) :
    P (Except Error Unit) :=
  match desc with
  | none => fail .invalidFD
  | some d => do
      let desc ← step (getDesc d)
      let size ← step (fileSizeWord word desc.node)
      let offs := if mode = .end then size else offs
      if offs > size then fail .seekOffsetOOB
      else do
        step (modifyDesc d fun desc => { desc with pos := offs })
        .ret (.ok ())

/-- Where the position goes, and what is returned, if the new position is to be `target`. -/
def seekTo (d : DescRef) (size target : Nat) (s : State) : Except Error Unit × State :=
  if target ≤ size then (.ok (), s.updDesc d fun desc => { desc with pos := target })
  else (.error .seekOffsetOOB, s)

/-- **What `Seek` does**: it goes to the offset, or to the end. -/
theorem run_seekWord (word : NodeInfo → Nat) (mode : SeekMode) (offs : Nat)
    (hd : s.descs.cell d = some desc) (hn : s.nodes.cell desc.node = some node) :
    (seekWord word (some d) mode offs).run s =
      .ok (seekTo d (word node.info) (if mode = .end then word node.info else offs) s) := by
  have hword : fileSizeWord word desc.node s = .ok (word node.info, s) := by
    rw [fileSizeWord, M.bind_ok (getNode_ok hn)]
    rfl
  unfold seekWord
  simp only
  rw [run_step _ (getDesc_ok hd), run_step _ hword]
  generalize (if mode = .end then word node.info else offs) = target
  by_cases htarget : target ≤ word node.info
  · rw [if_neg (by omega), run_step _ (modifyDesc_ok hd _), seekTo, if_pos htarget]
    rfl
  · rw [if_pos (by omega), seekTo, if_neg htarget]
    rfl

/-- Where the word is not a pointer, this is `Seek`. -/
theorem seekWord_eq_seek {pointer : NodeInfo → Nat} {mode : SeekMode} {offs : Nat}
    (hd : s.descs.cell d = some desc) (hn : s.nodes.cell desc.node = some node)
    (hfolder : ∀ dir, node.info ≠ .folder dir) (hsymlink : ∀ linkPath, node.info ≠ .symlink linkPath) :
    (seekWord (NodeInfo.word pointer) (some d) mode offs).run s = (seek (some d) mode offs).run s := by
  have hget := getDesc_ok hd
  have hword : fileSizeWord (NodeInfo.word pointer) desc.node s = fileSize desc.node s := by
    rw [fileSizeWord, fileSize, M.bind_ok (getNode_ok hn), M.bind_ok (getNode_ok hn)]
    cases hinfo : node.info with
    | none | file | device => rfl
    | folder dir => exact absurd hinfo (hfolder dir)
    | symlink linkPath => exact absurd hinfo (hsymlink linkPath)
  obtain ⟨size, hsize⟩ : ∃ size, fileSize desc.node s = .ok (size, s) := by
    rw [← hword, fileSizeWord, M.bind_ok (getNode_ok hn)]
    exact ⟨_, rfl⟩
  unfold seekWord seek
  simp only
  rw [run_step _ hget, run_step _ hget, run_step _ (hword.trans hsize), run_step _ hsize]

/-! ## What a seek is to do -/

/-- Where a seek in a file of `size` bytes is to go, by 64-bit arithmetic. -/
def SeekMode.target (size pos : Nat) (offs : UInt64) : SeekMode → Nat
  | .set => offs.toNat
  | .rel => (UInt64.ofNat pos + offs).toNat
  | .end => size

/-- The reply and the new position. -/
def seekOutcome (word : NodeInfo → Nat) (d : DescRef) (mode : SeekMode) (offs : UInt64) (s : State) :
    Except Stop (Except Error Unit × Option Nat) :=
  ((seekWord word (some d) mode offs.toNat).run s).map fun p => (p.1, (p.2.descs.cell d).map (·.pos))

/-- A seek in a regular file goes to its target if the file reaches that far, and changes nothing
otherwise; for another node what comes of it is the same whatever word is stored in the union. -/
structure SeekMeets (word : NodeInfo → Nat) (s : State) (d : DescRef) (desc : FileDescriptor) (node : Node)
    (mode : SeekMode) (offs : UInt64) : Prop where
  file : node.type = .file → (seekWord word (some d) mode offs.toNat).run s =
    .ok (seekTo d (word node.info) (mode.target (word node.info) desc.pos offs) s)
  other : node.type ≠ .file → ∀ word₁ word₂ : NodeInfo → Nat,
    seekOutcome word₁ d mode offs s = seekOutcome word₂ d mode offs s

/-- A relative seek is from the beginning, or both the offset and the target are behind the end; in a
node that is not a file, the seek is to the beginning. -/
def SeekHolds (size pos : Nat) (type : NodeType) (mode : SeekMode) (offs : UInt64) : Prop :=
  if type = .file then
    mode = .rel → UInt64.ofNat pos = 0 ∨ size < offs.toNat ∧ size < (UInt64.ofNat pos + offs).toNat
  else mode ≠ .end ∧ offs = 0

/-- Different targets that the file does not both end before give different outcomes. -/
theorem seekTo_inj {size target target' : Nat} (hd : s.descs.cell d = some desc)
    (h : seekTo d size target s = seekTo d size target' s) :
    target = target' ∨ size < target ∧ size < target' := by
  unfold seekTo at h
  split at h <;> split at h
  · left
    have hpos := congrArg (fun p => (p.2.descs.cell d).map (·.pos)) h
    simpa [State.updDesc, hd] using hpos
  · cases congrArg (·.1) h
  · cases congrArg (·.1) h
  · omega

theorem seekOutcome_eq (word : NodeInfo → Nat) (mode : SeekMode) (offs : UInt64)
    (hd : s.descs.cell d = some desc) (hn : s.nodes.cell desc.node = some node) :
    seekOutcome word d mode offs s =
      let target := if mode = .end then word node.info else offs.toNat
      .ok (if target ≤ word node.info then (.ok (), some target) else (.error .seekOffsetOOB, some desc.pos)) := by
  unfold seekOutcome
  rw [run_seekWord word mode _ hd hn]
  generalize (if mode = .end then word node.info else offs.toNat) = target
  unfold seekTo
  by_cases htarget : target ≤ word node.info
  · simp [Except.map, State.updDesc, hd, htarget]
  · simp [Except.map, hd, htarget]

/-- **`Seek`** does what is meant exactly if the seek is not relative, or from the beginning, or out of
the file anyway, and in a node that is not a file exactly if it goes to the beginning. -/
theorem seek_semantics (word : NodeInfo → Nat) (s : State) (d : DescRef) (desc : FileDescriptor) (node : Node)
    (hd : s.descs.cell d = some desc) (hn : s.nodes.cell desc.node = some node) (mode : SeekMode)
    (offs : UInt64) :
    SeekMeets word s d desc node mode offs ↔ SeekHolds (word node.info) desc.pos node.type mode offs := by
  by_cases htype : node.type = .file
  · rw [SeekHolds, if_pos htype]
    refine ⟨fun h hrel => ?_, fun h => ⟨fun _ => ?_, fun hne => absurd htype hne⟩⟩
    · have hrun := h.file htype
      rw [run_seekWord word mode _ hd hn, Except.ok.injEq] at hrun
      subst hrel
      rcases seekTo_inj hd hrun with heq | hout
      · left
        have hsum : offs = UInt64.ofNat desc.pos + offs := UInt64.toNat_inj.1 heq
        calc UInt64.ofNat desc.pos = UInt64.ofNat desc.pos + offs - offs := (UInt64.add_sub_cancel _ _).symm
          _ = 0 := by rw [← hsum, UInt64.sub_self]
      · exact .inr hout
    · rw [run_seekWord word mode _ hd hn]
      cases mode with
      | set | «end» => rfl
      | rel =>
        rcases h rfl with hzero | ⟨hoffs, hsum⟩
        · simp [SeekMode.target, hzero]
        · rw [if_neg (by simp), SeekMode.target, seekTo, seekTo, if_neg (Nat.not_le.2 hoffs),
            if_neg (Nat.not_le.2 hsum)]
  · rw [SeekHolds, if_neg htype]
    refine ⟨fun h => ?_, fun ⟨hmode, hoffs⟩ => ⟨fun hfile => absurd hfile htype, fun _ word₁ word₂ => ?_⟩⟩
    · -- Words that tell the two outcomes apart.
      have hsame := h.other htype (fun _ => 0) (fun _ => if mode = .end then 1 else offs.toNat)
      rw [seekOutcome_eq _ mode offs hd hn, seekOutcome_eq _ mode offs hd hn] at hsame
      by_cases hmode : mode = .end
      · simp [hmode] at hsame
      · simp only [hmode, if_false, Nat.le_refl, if_true, Nat.le_zero] at hsame
        have hzero : offs.toNat = 0 := by
          by_contra hpos
          rw [if_neg hpos] at hsame
          cases hsame
        exact ⟨hmode, UInt64.toNat_inj.1 hzero⟩
    · rw [seekOutcome_eq _ mode offs hd hn, seekOutcome_eq _ mode offs hd hn]
      simp [hmode, hoffs]

/-- One block device driver. -/
def Kernel.oneDisk : Kernel := { Kernel.plain with drivers := fun id => if id = 5 then some .block else none }

/-- A file of ten bytes with the position at 2, and a device file, both open. -/
def seekCalls : List Call :=
  let perms : Permissions := ⟨7, 7, 7, 0⟩
  [.open 0 (some ['f']) 0x107, .write (some 0) ⟨fun _ => true, fun _ => 7⟩ 10 (.ok 0), .seek (some 0) .set 2,
    .createDeviceFile 0 (some ['d']) perms 5 0, .open 0 (some ['d']) 0x7]

theorem exists_seekCalls : ∃ s file fileNode disk diskNode,
    Reachable .oneDisk (fun _ => (0, 0)) s ∧
    s.descs.cell 0 = some file ∧ s.nodes.cell file.node = some fileNode ∧ fileNode.type = .file ∧
    fileNode.info = .file 10 ∧ file.pos = 2 ∧
    s.descs.cell 1 = some disk ∧ s.nodes.cell disk.node = some diskNode ∧ diskNode.type = .deviceBlock ∧
    diskNode.info = .device 5 0 := by
  have hplay : ((play .oneDisk 1 seekCalls (State.init .oneDisk fun _ => (0, 0))).any fun p =>
      ((p.2.descs.cell 0).any fun file => (p.2.nodes.cell file.node).any fun node =>
        node.type = .file ∧ node.info = .file 10 ∧ file.pos = 2) ∧
      ((p.2.descs.cell 1).any fun disk => (p.2.nodes.cell disk.node).any fun node =>
        node.type = .deviceBlock ∧ node.info = .device 5 0)) = true := by decide +kernel
  obtain ⟨⟨replies, s⟩, hs, hany⟩ := Option.any_eq_true .. |>.1 hplay
  obtain ⟨hfile, hdisk⟩ := of_decide_eq_true hany
  obtain ⟨file, hd, hfile⟩ := Option.any_eq_true .. |>.1 hfile
  obtain ⟨fileNode, hn, hfile⟩ := Option.any_eq_true .. |>.1 hfile
  obtain ⟨disk, hd', hdisk⟩ := Option.any_eq_true .. |>.1 hdisk
  obtain ⟨diskNode, hn', hdisk⟩ := Option.any_eq_true .. |>.1 hdisk
  obtain ⟨htype, hinfo, hpos⟩ := of_decide_eq_true hfile
  obtain ⟨htype', hinfo'⟩ := of_decide_eq_true hdisk
  exact ⟨s, file, fileNode, disk, diskNode, run_of_play hs, hd, hn, htype, hinfo, hpos, hd', hn', htype', hinfo'⟩

/-- An absolute seek in the file. -/
theorem seek_semantics_set : ∃ s desc node, Reachable .oneDisk (fun _ => (0, 0)) s ∧
    SeekMeets (NodeInfo.word fun _ => 0) s 0 desc node .set 3 := by
  obtain ⟨s, file, fileNode, -, -, hreach, hd, hn, htype, -⟩ := exists_seekCalls
  refine ⟨s, file, fileNode, hreach, (seek_semantics _ s 0 file fileNode hd hn .set 3).2 ?_⟩
  rw [SeekHolds, if_pos htype]
  exact fun h => by cases h

/-- A relative seek from 2 by 3 goes to 3. A seek in the device file to block 8 depends on the id of the
driver. -/
theorem seek_relative_wrong : ∃ s file fileNode disk diskNode, Reachable .oneDisk (fun _ => (0, 0)) s ∧
    s.descs.cell 0 = some file ∧ s.nodes.cell file.node = some fileNode ∧
    s.descs.cell 1 = some disk ∧ s.nodes.cell disk.node = some diskNode ∧
    ¬ SeekMeets (NodeInfo.word fun _ => 0) s 0 file fileNode .rel 3 ∧
    ¬ SeekMeets (NodeInfo.word fun _ => 0) s 1 disk diskNode .set 4096 := by
  obtain ⟨s, file, fileNode, disk, diskNode, hreach, hd, hn, htype, hinfo, hpos, hd', hn', htype', -⟩ :=
    exists_seekCalls
  refine ⟨s, file, fileNode, disk, diskNode, hreach, hd, hn, hd', hn', fun h => ?_, fun h => ?_⟩
  · have hrun := h.file htype
    rw [run_seekWord _ .rel _ hd hn, Except.ok.injEq, hinfo, hpos] at hrun
    rcases seekTo_inj hd hrun with heq | ⟨hout, -⟩
    · exact absurd heq (by decide)
    · exact absurd hout (by decide)
  · have hsame := h.other (by simp [htype']) (fun _ => 5) (fun _ => 4096)
    rw [seekOutcome_eq _ .set 4096 hd' hn', seekOutcome_eq _ .set 4096 hd' hn'] at hsame
    exact absurd hsame (by simp)

end ChenixOS.VFS
