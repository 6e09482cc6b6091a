import ChenixOS.Fs.Entries

/-!
# `Open` that fails

`Open` makes the file before it looks whether the caller may open it. The owner of a new file is the caller,
and its permissions are those of the folder without the right to execute; where they do not grant what the
mode asks for, the call is refused and the file stays.

**Theorem (`open_atomic`).** In every reachable state, an `Open` that returns an error leaves the tree as it
was, exactly if it `LeavesFile` not.
-/

namespace ChenixOS.VFS

variable {K : Kernel} {user : ThreadRef → Nat × Nat} {H H' L E f : Held} {s s' : State} {m : MountRef}
  {n : NodeRef} {root : Bool} {known : Known} {node : Node} {mp : MountPoint} {tInfo : ThreadInfo}
  {t : ThreadRef} {path : Option Str} {openMode : UInt64} {e : Error} {ms : List MountRef}

/-- The same entries, nodes, permissions, link counts and contents. -/
structure Unchanged (s s' : State) : Prop where
  tree : s'.tree = s.tree
  files : s'.testNodes = s.testNodes
  links : ∀ m, m ≠ s.pipeMount → ∀ id, s'.linkCount m id = s.linkCount m id

/-- What `Open` asks of the permissions. -/
def reqPerms (openMode : UInt64) : UInt8 := (openMode &&& (openModeRead ||| openModeWrite)).toUInt8

/-- `Open` makes the file and refuses to open it: the path has a folder that the caller may write to but no
file, the name fits into an entry, and the rights of a new file there are not enough for its owner. -/
structure LeavesFile (s : State) (t : ThreadRef) (path : Option Str) (openMode : UInt64) (fuel : Nat)
    (buffer : Str) (r : Tree.Resolved) (folder : Nat) (inode : Node) : Prop where
  prepared : preparePath 255 (s.threads t).cwd path = .ok (.ok buffer)
  resolved : s.tree.resolve (s.threads t) (!hasMode openMode openModeCreate) false fuel buffer = some (.ok r)
  missing : r.node = none
  parent : r.parent = some folder
  folder : s.tree.node r.mp folder = some inode
  writable : checkPermissions (s.threads t).uid (s.threads t).gid inode Permissions.write = true
  fits : r.path.length < nameSizeof
  user : (s.threads t).uid ≠ 0
  refused : inode.permissions.ofFolder.ownerPermissions &&& reqPerms openMode ≠ reqPerms openMode

/-! ## What is given back -/

/-- Between two calls nobody holds a unit of a link count. -/
theorem Rest.noLink (h : Rest L s) (n : NodeRef) : total (.link n) L = 0 := by
  refine Multiset.countP_eq_zero.2 fun t ht hkey => ?_
  obtain rfl := Tok.key_eq_link hkey
  exact h.idle _ ht

theorem Same.unchanged (h : Same ms s s') (hI : Inv H s) (hI' : Inv H' s') (hH : ∀ n, total (.link n) H = 0)
    (hH' : ∀ n, total (.link n) H' = 0) : Unchanged s s' where
  tree := h.tree
  files := h.testNodes
  links m hm id := by
    rw [linkCount_eq hI hH hm, linkCount_eq hI' hH' (by rwa [h.pipeMount]), h.tree]

/-- The end of `Open` changes nothing when it fails. -/
theorem openNode_error {buffer : Str} (ms : List MountRef) (hI : Inv ({.ref m n root known} + ({.mref m} + f)) s)
    (hn : s.nodes.cell n = some node) (hlink : node.linkCount ≠ 0)
    (hrun : (openNode K tInfo m n openMode buffer).run s = .ok (.error e, s')) :
    Same ms s s' ∧ Inv f s' ∧
      (checkPermissions tInfo.uid tInfo.gid node (reqPerms openMode) = false ∨ node.type = .directory) := by
  have hleave : ∀ e', (do step (releaseNode n true)
                          step (releaseMountPoint m true)
                          fail e' : P (Except Error DescRef)).run s = .ok (.error e, s') →
      Same ms s s' ∧ Inv f s' := by
    intro e' hrun'
    obtain ⟨s₁, hrun₁, hsame, hI₁⟩ := leave_run (α := DescRef) ms e' hI hn hlink
    rw [hrun₁] at hrun'
    cases hrun'
    exact ⟨hsame, hI₁⟩
  unfold openNode at hrun
  rw [run_step _ (permitted_run hn _)] at hrun
  cases hperm : checkPermissions tInfo.uid tInfo.gid node (reqPerms openMode) with
  | false =>
    rw [if_pos (by simpa [reqPerms] using hperm)] at hrun
    obtain ⟨hsame, hI'⟩ := hleave _ hrun
    exact ⟨hsame, hI', Or.inl rfl⟩
  | true =>
    rw [if_neg (by simpa [reqPerms] using hperm), run_step _ (nodeType_run hn)] at hrun
    by_cases htype : node.type = .directory
    · rw [if_pos htype] at hrun
      obtain ⟨hsame, hI'⟩ := hleave _ hrun
      exact ⟨hsame, hI', Or.inr htype⟩
    · rw [if_neg htype] at hrun
      -- what follows returns a descriptor
      have hopens : ∀ s₁, (do
          step (releaseNode n false)
          step (releaseMountPoint m false)
          let d ← step (newDesc K
            { refCount := 1, node := n, permissions := openMode.toUInt8, pos := 0, path := buffer })
          .ret (.ok d) : P (Except Error DescRef)).run s₁ ≠ .ok (.error e, s') := by
        intro s₁ hrun₁
        obtain ⟨_, s₂, -, hrun₂⟩ := run_step_ok hrun₁
        obtain ⟨_, s₃, -, hrun₃⟩ := run_step_ok hrun₂
        obtain ⟨d, s₄, -, hrun₄⟩ := run_step_ok hrun₃
        cases hrun₄
      split_ifs at hrun with hclear
      · obtain ⟨_, s₁, -, hrun₁⟩ := run_step_ok hrun
        exact absurd hrun₁ (hopens s₁)
      · exact absurd hrun (hopens s)

/-! ## Failing -/

/-- The file that `Open` makes in the folder `node`. -/
def openInit (tInfo : ThreadInfo) (node : Node) : Node → Node :=
  initNode .file (.file 0) node.permissions.ofFolder tInfo

theorem inits_openInit (tInfo : ThreadInfo) (node : Node) : Inits .file (.ok (openInit tInfo node)) :=
  inits_initNode _ (by simp) (by simp) (by simp) tInfo

/-- The owner of a new file may do what the permissions of its folder leave to the owner. -/
theorem refused_openInit (new : Node) :
    checkPermissions tInfo.uid tInfo.gid (openInit tInfo node new) (reqPerms openMode) = false ↔ tInfo.uid ≠ 0 ∧
      node.permissions.ofFolder.ownerPermissions &&& reqPerms openMode ≠ reqPerms openMode := by
  unfold checkPermissions openInit initNode
  by_cases hroot : tInfo.uid = 0
  · simp [hroot]
  · simp [hroot]

/-- The step in which `Open` makes the file. -/
theorem createIn_run (tInfo : ThreadInfo) (hn : s.nodes.cell n = some node) : (do
      let folder ← getNode n
      createNode K m 1 (initNode .file (.file 0) folder.permissions.ofFolder tInfo) : M NodeRef) s =
        createNode K m 1 (openInit tInfo node) s :=
  M.bind_ok (getNode_ok hn)

/-- A path that has a node: whatever fails, everything is given back. -/
theorem existing_error {buffer : Str} (hI : Inv ({.ref m n root known} + ({.mref m} + (E + f))) s)
    (hlinked : Linked root n E) (hrun : (if hasMode openMode openModeFailIfExist then (do
        step (releaseNode n true)
        step (releaseMountPoint m true)
        fail .fileExists)
      else openNode K tInfo m n openMode buffer).run s = .ok (.error e, s')) : Same ms s s' := by
  have href : ∃ mp node, TempRef _ s m n root known mp node := hI.tempRef (by simp) (by simp)
  obtain ⟨mp, node, href⟩ := href
  have hlink : node.linkCount ≠ 0 := hI.linked_pos (fun t ht => by simp [ht]) hlinked href
  split_ifs at hrun with hexist
  · obtain ⟨s₁, hrun₁, hsame, -⟩ := leave_run (α := DescRef) ms .fileExists hI href.cell hlink
    rw [hrun₁] at hrun
    cases hrun
    exact hsame
  · exact (openNode_error ms hI href.cell hlink hrun).1

theorem open_fails (hrest : Rest L s)
    (hrun : («open» K t fuel path openMode).run s = .ok (.error e, s')) :
    (∃ ms, Same ms s s') ∨ ∃ buffer r folder inode, LeavesFile s t path openMode fuel buffer r folder inode := by
  unfold «open» at hrun
  obtain ⟨e', ms, -, hsame⟩ | ⟨buffer, r, a, g, s₁, hprep, hres, hsame, hands, hI, hOK, hrun⟩ :=
    resolve_run_ok hrest.inv hrun
  · exact Or.inl ⟨ms, hsame⟩
  · cases hOK with
    | @root m n path' buffer' =>
      have hI₁ : Inv ({.ref m n true .nothing} + ({.mref m} + (0 + L))) s₁ := by
        rw [zero_add]
        exact hI.perm (by ac_rfl)
      have hfail : Same [] s₁ s' := existing_error hI₁ (Or.inl ⟨rfl, rfl⟩) hrun
      exact Or.inl ⟨_, hsame.trans (hfail.mono (List.nil_subset _))⟩
    | @node m n dir root known known' name path' buffer' hdelete htype =>
      replace hI : Inv ({.ref m dir root known'} + ({.mref m} + {.named dir name n} +
          ({.ref m n false known} + L))) s₁ := hI.perm (by ac_rfl)
      obtain ⟨s₂, hrel, hI₂, hsame₂, -⟩ := releaseParent_run [] hI
      replace hI₂ : Inv ({.ref m n false known} + ({.mref m} + ({.named dir name n} + L))) s₂ :=
        hI₂.perm (by ac_rfl)
      have hfail : Same [] s₂ s' := by
        refine @existing_error K _ L s₂ s' m n false known (s.threads t) openMode e [] buffer hI₂
          (Or.inr ⟨dir, name, rfl⟩) ?_
        dsimp only at hrun
        split_ifs at hrun ⊢ with hexist
        · rwa [run_step _ hrel] at hrun
        · rwa [run_step _ hrel] at hrun
      exact Or.inl ⟨_, hsame.trans ((hsame₂.trans hfail).mono (List.nil_subset _))⟩
    | @absent m dir root path' buffer' E hlinked hne hslash =>
      replace hI : Inv ({.ref m dir root (.lacks path')} + ({.mref m} + (E + L))) s₁ := hI.perm (by ac_rfl)
      have href : ∃ mp node, TempRef _ s₁ m dir root (.lacks path') mp node := hI.tempRef (by simp) (by simp)
      obtain ⟨mp, node, href⟩ := href
      have hlink : node.linkCount ≠ 0 := hI.linked_pos (fun t ht => by simp [ht]) hlinked href
      dsimp only at hrun
      rw [run_step _ (permitted_run href.cell _)] at hrun
      cases hperm : checkPermissions (s.threads t).uid (s.threads t).gid node Permissions.write with
      | false =>
        rw [hperm, if_pos (by rfl)] at hrun
        obtain ⟨s₂, hrun₂, hsame₂, -⟩ :=
          leave_run (α := DescRef) [] .permissionDenied hI href.cell hlink
        rw [hrun₂] at hrun
        cases hrun
        exact Or.inl ⟨_, hsame.trans (hsame₂.mono (List.nil_subset _))⟩
      | true =>
        rw [hperm, if_neg (by simp)] at hrun
        obtain ⟨c, s₂, hcreate, hadd⟩ :=
          create_run (K := K) (inits_openInit (s.threads t) node) hI hlinked href.cell hne hslash hrest.noConflict
        rw [run_step _ ((createIn_run _ href.cell).trans hcreate)] at hrun
        split_ifs at hadd with hfits
        · obtain ⟨s₃, s₄, id, hadd, hrel, hmade⟩ := hadd
          have hlinkc : (openInit (s.threads t) node (blankNode id m 1 true)).linkCount ≠ 0 := Nat.one_ne_zero
          rw [Prog.run_bind_of_ok _ ((Prog.run_atomic _ _ _).trans hadd), run_step _ hrel] at hrun
          obtain ⟨-, -, hdenied | hdir⟩ :=
            openNode_error [] hmade.inv hmade.cell hlinkc hrun
          · obtain ⟨huser, hrefused⟩ := (refused_openInit _).1 hdenied
            obtain ⟨hmp, hnone, hparent, hpath⟩ := hands_absent hands (idOf_of_cell href.cell)
            have hfolder : s.tree.node r.mp node.id = some node.inode := by
              rw [hmp, ← hsame.tree]
              exact href.tree hI
            exact Or.inr ⟨buffer, r, node.id, node.inode, hprep, hres, hnone, hparent, hfolder, hperm, hpath ▸ hfits,
              huser, hrefused⟩
          · cases hdir
        · rw [Prog.run_bind, Prog.run_atomic, hadd] at hrun
          cases hrun

theorem open_leaves {buffer : Str} {r : Tree.Resolved} {folder : Nat} {inode : Node} (hrest : Rest L s)
    (h : LeavesFile s t path openMode fuel buffer r folder inode) :
    ∃ s', («open» K t fuel path openMode).run s = .ok (.error .permissionDenied, s') ∧
      s'.testNodes ≠ s.testNodes := by
  have hprep : prepare 255 t path s = .ok (.ok buffer, s) := by
    unfold prepare
    rw [M.bind_ok (show getThread t s = .ok (s.threads t, s) from rfl), h.prepared]
    rfl
  have hthread : getThread t s = .ok (s.threads t, s) := rfl
  have hres := @acquirePath_run K L s fuel (s.threads t) (!hasMode openMode openModeCreate) false buffer hrest.inv
    fun _ => preparePath_noTrailing h.prepared
  rw [h.resolved] at hres
  obtain ⟨a, s₁, g, hacq, hsame, hands, hI, hOK⟩ := hres
  generalize hr : Except.ok r = res at hands
  cases hands with
  | error e => cases hr
  | @ok m node' parent' n p path' buffer' hnode hparent =>
    obtain rfl := Except.ok.inj hr
    have hnone : node' = none := h.missing
    have hsome : parent' = some folder := h.parent
    subst hnone hsome
    cases hOK with
    | root => cases hnode
    | node => cases hnode
    | @absent _ dir root _ _ E hlinked hne hslash =>
      replace hI : Inv ({.ref m dir root (.lacks path')} + ({.mref m} + (E + L))) s₁ := hI.perm (by ac_rfl)
      have href : ∃ mp node, TempRef _ s₁ m dir root (.lacks path') mp node := hI.tempRef (by simp) (by simp)
      obtain ⟨mp, node, href⟩ := href
      have hid : node.id = folder := by
        rw [Option.map_some, idOf_of_cell href.cell] at hparent
        exact Option.some.inj (Option.some.inj hparent)
      have hinode : inode = node.inode := by
        have htree := href.tree hI
        rw [hsame.tree, hid] at htree
        exact Option.some.inj (h.folder.symm.trans htree)
      subst hinode
      have hwritable : checkPermissions (s.threads t).uid (s.threads t).gid node Permissions.write = true :=
        h.writable
      obtain ⟨c, s₂, hcreate, hadd⟩ :=
        create_run (K := K) (inits_openInit (s.threads t) node) hI hlinked href.cell hne hslash hrest.noConflict
      rw [if_pos h.fits] at hadd
      obtain ⟨s₃, s₄, id, hadd, hrel, hmade⟩ := hadd
      have hdenied : checkPermissions (s.threads t).uid (s.threads t).gid
          (openInit (s.threads t) node (blankNode id m 1 true)) (reqPerms openMode) = false :=
        (refused_openInit _).2 ⟨h.user, h.refused⟩
      obtain ⟨s₅, hleave, hsame₅, -⟩ :=
        leave_run (α := DescRef) [] .permissionDenied hmade.inv hmade.cell Nat.one_ne_zero
      refine ⟨s₅, ?_, fun hfiles => ?_⟩
      · unfold «open»
        rw [run_step _ hprep, onOk, run_step _ hthread, Prog.run_bind_of_ok _ hacq, onOk]
        dsimp only
        rw [run_step _ (permitted_run href.cell _), hwritable, if_neg (by simp),
          run_step _ ((createIn_run _ href.cell).trans hcreate),
          Prog.run_bind_of_ok _ ((Prog.run_atomic _ _ _).trans hadd), run_step _ hrel]
        unfold openNode
        rw [run_step _ (permitted_run hmade.cell _), if_pos (by simpa [reqPerms] using hdenied)]
        exact hleave
      · have hmem := hmade.test
        rw [← hsame₅.testNodes, hfiles, ← hsame.testNodes, hmade.fresh] at hmem
        cases hmem

end ChenixOS.VFS
