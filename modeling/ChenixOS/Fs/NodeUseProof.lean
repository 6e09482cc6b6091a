import ChenixOS.Fs.NodeUse

/-!
# Nodes are used while they are held

Every operation but `CD` touches a node only while it holds a reference to it, and so no release of its own
can have destroyed it, whatever the file systems are. `CD` checks the permissions of the node after both of
its releases. That is harmless for root, for whom the check does not look at the node, and if the node
survives; and a node survives if nothing that looks like a directory has, or gets meanwhile, the link count
zero.
-/

namespace ChenixOS.NodeUse

open VFS Holders NodeProg

variable {α β : Type} {g : Multiset NodeRef} {n : NodeRef} {uid gid : Nat}
  {R : β → Multiset NodeRef → Prop}

/-! ## Rules -/

section Rules

variable {k : Unit → NodeProg β}

theorem disciplined_ite {c : Prop} [Decidable c] {p q : NodeProg β} (hp : Disciplined p g R)
    (hq : Disciplined q g R) : Disciplined (if c then p else q) g R := by
  split_ifs
  · exact hp
  · exact hq

theorem disciplined_release (h : Disciplined (k ()) g R) :
    Disciplined (releaseNode n true >>= k) (n ::ₘ g) R := ⟨g, rfl, h⟩

/-- The second of the references that are held. -/
theorem disciplined_release_second {m : NodeRef} (h : Disciplined (k ()) (m ::ₘ g) R) :
    Disciplined (releaseNode n true >>= k) (m ::ₘ n ::ₘ g) R := ⟨m ::ₘ g, Multiset.cons_swap m n g, h⟩

theorem disciplined_keep (hn : n ∈ g) (h : Disciplined (k ()) g R) :
    Disciplined (releaseNode n false >>= k) g R := ⟨hn, h⟩

theorem disciplined_read {k : Node → NodeProg β} (hn : n ∈ g) (h : ∀ node, Disciplined (k node) g R) :
    Disciplined (readNode n >>= k) g R := ⟨hn, h⟩

theorem disciplined_write {f : Node → Node} (hn : n ∈ g) (h : Disciplined (k ()) g R) :
    Disciplined (writeNode n f >>= k) g R := ⟨hn, h⟩

theorem disciplined_lock (hn : n ∈ g) (h : Disciplined (k ()) g R) :
    Disciplined (lockDir n >>= k) g R := ⟨hn, fun _ => h⟩

theorem disciplined_unlock (hn : n ∈ g) (h : Disciplined (k ()) g R) :
    Disciplined (unlockDir n >>= k) g R := ⟨hn, fun _ => h⟩

theorem disciplined_dir {k : List DirectoryEntry → NodeProg β} (hn : n ∈ g)
    (h : ∀ dir, Disciplined (k dir) g R) : Disciplined (getNodeDir n >>= k) g R :=
  ⟨hn, fun _ => h _⟩

theorem disciplined_acquire {m : MountRef} {nodeID : Nat} {k : NodeRef → NodeProg β}
    (h : ∀ n, Disciplined (k n) (n ::ₘ g) R) : Disciplined (acquireNode m nodeID >>= k) g R := h

theorem disciplined_create {m : MountRef} {k : NodeRef → NodeProg β}
    (h : ∀ n, Disciplined (k n) (n ::ₘ g) R) : Disciplined (createNode m 1 >>= k) g R := by
  intro n
  rw [Multiset.replicate_one, Multiset.singleton_add]
  exact h n

theorem disciplined_ask {q : Ask} {k : q.Ans → NodeProg β} (h : ∀ a, Disciplined (k a) g R) :
    Disciplined (ask q >>= k) g R := h

theorem disciplined_permissions {reqPerms : UInt8} {k : Bool → NodeProg β} (hn : n ∈ g)
    (h : ∀ b, Disciplined (k b) g R) :
    Disciplined (checkPermissions uid gid n reqPerms >>= k) g R := by
  unfold checkPermissions
  split_ifs
  · exact h true
  · exact ⟨hn, fun node => h _⟩

theorem disciplined_addEntry {parentNode : NodeRef} {update : Node → Node} (hp : parentNode ∈ g)
    (hn : n ∈ g) (h : Disciplined (k ()) g R) :
    Disciplined (addEntry parentNode n update >>= k) g R :=
  ⟨hp, fun _ => ⟨hp, fun _ => ⟨hp, hn, fun _ => ⟨hp, fun _ => h⟩⟩⟩⟩

end Rules

/-! ## Paths -/

/-- What is held after a lookup. -/
def held : Option NodeRef → Option NodeRef → Multiset NodeRef → Multiset NodeRef
  | some node, some parent, g => node ::ₘ parent ::ₘ g
  | some n, none, g | none, some n, g => n ::ₘ g
  | none, none, g => g

theorem mem_held (node : NodeRef) (parent : Option NodeRef) : node ∈ held (some node) parent g := by
  cases parent <;> exact Multiset.mem_cons_self _ _

theorem disciplined_releaseParent {parent : Option NodeRef} {k : Unit → NodeProg β}
    (h : Disciplined (k ()) (n ::ₘ g) R) :
    Disciplined (releaseParent parent >>= k) (held (some n) parent g) R := by
  cases parent with
  | none => exact h
  | some parent => exact disciplined_release_second h

theorem disciplined_prepare (bufSize : Nat) (path : Option Str) :
    Disciplined (prepare bufSize path) g fun _ g' => g' = g := by
  refine disciplined_ask fun cwd => ?_
  cases preparePath bufSize cwd path with
  | error e => trivial
  | ok r => rfl

def Walk.Holds (g : Multiset NodeRef) : Walk → Multiset NodeRef → Prop
  | .ok node parent _, g' => g' = held node parent g
  | .symlink node parent _, g' => g' = node ::ₘ parent ::ₘ g
  | .error _, g' => g' = g

theorem disciplined_walk (m : MountRef) (fileHasToExist deleteMode : Bool) (fuel : Nat)
    (currentNode : NodeRef) (path : Str) :
    Disciplined (walk uid gid m fileHasToExist deleteMode fuel currentNode path) (currentNode ::ₘ g)
      (Walk.Holds g) := by
  induction fuel generalizing currentNode path with
  | zero => trivial
  | succ fuel ih =>
    have hcur : currentNode ∈ currentNode ::ₘ g := Multiset.mem_cons_self _ _
    refine disciplined_read hcur fun node => disciplined_ite (disciplined_release rfl) ?_
    refine disciplined_permissions hcur fun b => disciplined_ite (disciplined_release rfl) ?_
    refine disciplined_lock hcur (disciplined_dir hcur fun dir => disciplined_unlock hcur ?_)
    cases Directory.findEntry path dir with
    | none => exact disciplined_ite (disciplined_release rfl) rfl
    | some e =>
      refine disciplined_acquire fun next => disciplined_ite rfl ?_
      refine disciplined_read (Multiset.mem_cons_self _ _) fun nextNode => ?_
      refine disciplined_ite rfl (disciplined_ite rfl ?_)
      exact disciplined_release_second (ih next e.2)

theorem disciplined_acquirePathRec (mp : Mount) (path : Str) (fileHasToExist deleteMode : Bool) :
    Disciplined (acquirePathRec uid gid mp path fileHasToExist deleteMode) g (Walk.Holds g) :=
  disciplined_acquire fun currentNode =>
    disciplined_ite rfl (disciplined_walk _ _ _ _ currentNode path)

/-- A function has failed and holds what it held before, or it has looked up the nodes. -/
def LookedUp (g : Multiset NodeRef) : Code Acquired → Multiset NodeRef → Prop
  | .ok a, g' => g' = held a.node a.parent g
  | .error _, g' => g' = g

theorem disciplined_acquirePath (fileHasToExist deleteMode : Bool) (fuel : Nat) (buffer : Str) :
    Disciplined (acquirePath uid gid fileHasToExist deleteMode fuel buffer) g (LookedUp g) := by
  induction fuel generalizing buffer with
  | zero => trivial
  | succ fuel ih =>
    refine disciplined_ask fun mp => Disciplined.bind ?_
    refine (disciplined_acquirePathRec mp _ fileHasToExist deleteMode).mono fun r g' hr => ?_
    cases r with
    | ok node parent path => exact hr
    | error e => exact hr
    | symlink node parent rest =>
      obtain rfl := hr
      refine disciplined_read (Multiset.mem_cons_self _ _) fun fields => ?_
      exact disciplined_release (disciplined_release (disciplined_ite rfl (ih _)))

theorem disciplined_lookUp (fuel bufSize : Nat) (path : Option Str) (fileHasToExist deleteMode : Bool) :
    Disciplined (lookUp uid gid fuel bufSize path fileHasToExist deleteMode) g (LookedUp g) := by
  refine Disciplined.bind ((disciplined_prepare bufSize path).mono fun r g' hr => ?_)
  obtain rfl := hr
  cases r with
  | error e => rfl
  | ok cleanBuffer => exact disciplined_acquirePath fileHasToExist deleteMode fuel cleanBuffer

/-! ## The operations -/

section Operations

variable {a : Acquired} {fuel : Nat} {update : Node → Node}

/-- Whatever a program ends with, and whatever it then holds. -/
abbrev Any : β → Multiset NodeRef → Prop := fun _ _ => True

theorem disciplined_onLookUp {bufSize : Nat} {path : Option Str} {fileHasToExist deleteMode : Bool}
    {k : Acquired → NodeProg (Code Unit)} (h : ∀ a, Disciplined (k a) (held a.node a.parent g) Any) :
    Disciplined (do onOk (← lookUp uid gid fuel bufSize path fileHasToExist deleteMode) k) g Any := by
  refine Disciplined.bind ((disciplined_lookUp fuel bufSize path _ _).mono fun r g' hr => ?_)
  cases r with
  | error e => trivial
  | ok a =>
    obtain rfl := hr
    exact h a

theorem mem_first : n ∈ n ::ₘ g := Multiset.mem_cons_self n g

theorem mem_second {m : NodeRef} : n ∈ m ::ₘ n ::ₘ g := Multiset.mem_cons_of_mem mem_first

/-- The functions that create a node, when what they ask for it touches none. -/
theorem disciplined_createAt {path : Option Str} {init : NodeProg (Node → Node)}
    (hinit : ∀ g, Disciplined init g fun _ g' => g' = g) :
    Disciplined (createAt uid gid fuel path init update) g Any := by
  refine disciplined_onLookUp fun a => ?_
  rcases a with ⟨mp, _ | fileNode, _ | parentNode, path', buffer⟩
  · trivial
  · refine disciplined_permissions mem_first fun b => disciplined_ite (disciplined_release trivial) ?_
    refine disciplined_create fun newNode => Disciplined.bind ((hinit _).mono fun f g' hg => ?_)
    obtain rfl := hg
    refine disciplined_write mem_first (disciplined_addEntry mem_second mem_first ?_)
    exact disciplined_release_second (disciplined_release trivial)
  · exact disciplined_release trivial
  · exact disciplined_release_second (disciplined_release trivial)

theorem disciplined_createDeviceFile {path : Option Str} {perms : Permissions} {driverID subID : Nat} :
    Disciplined (createDeviceFile uid gid fuel path perms driverID subID update) g Any := by
  refine disciplined_createAt fun g => disciplined_ask fun driver => ?_
  rcases driver with _ | _ | _
  · trivial
  · rfl
  · rfl

theorem disciplined_hardLink {link : Acquired} {linkFileNode : NodeRef} :
    Disciplined (hardLink uid gid link a linkFileNode update)
      (held a.node a.parent (linkFileNode ::ₘ g)) Any := by
  rcases a with ⟨mp, _ | fileNode, _ | parentNode, path', buffer⟩
  · trivial
  · refine disciplined_permissions mem_first fun b => disciplined_ite ?_ (disciplined_ite ?_ ?_)
    · exact disciplined_release_second (disciplined_release trivial)
    · exact disciplined_release_second (disciplined_release trivial)
    · refine disciplined_write mem_second (disciplined_addEntry mem_first mem_second ?_)
      exact disciplined_release (disciplined_release trivial)
  · exact disciplined_release_second (disciplined_release trivial)
  · refine ⟨fileNode ::ₘ parentNode ::ₘ g, ?_, ?_⟩
    · simp [held, Multiset.cons_swap]
    · exact disciplined_release_second (disciplined_release trivial)

theorem disciplined_createHardLink {path linkPath : Option Str} :
    Disciplined (createHardLink uid gid fuel path linkPath update) g Any := by
  refine disciplined_onLookUp fun link => ?_
  rcases link with ⟨mp, _ | linkFileNode, parent, path', buffer⟩
  · trivial
  · refine disciplined_releaseParent (disciplined_read mem_first fun node => ?_)
    refine disciplined_ite (disciplined_release trivial) (Disciplined.bind ?_)
    refine (disciplined_lookUp fuel 255 path false false).mono fun r g' hr => ?_
    cases r with
    | error e =>
      obtain rfl := hr
      exact disciplined_release trivial
    | ok a =>
      obtain rfl := hr
      exact disciplined_hardLink

theorem disciplined_removeEntry {parentNode fileNode : NodeRef} {fileName : Str} :
    Disciplined (removeEntry parentNode fileNode fileName update) (fileNode ::ₘ parentNode ::ₘ g) Any := by
  refine disciplined_lock mem_second (disciplined_dir mem_second fun dir => ?_)
  refine disciplined_ite (disciplined_write mem_second (disciplined_unlock mem_second ?_)) trivial
  exact disciplined_write mem_first (disciplined_release (disciplined_release trivial))

theorem disciplined_delete {path : Option Str} :
    Disciplined (delete uid gid fuel path update) g Any := by
  refine disciplined_onLookUp fun a => ?_
  rcases a with ⟨mp, _ | fileNode, _ | parentNode, path', buffer⟩
  · trivial
  · trivial
  · exact disciplined_release trivial
  · refine disciplined_permissions mem_second fun b => disciplined_ite ?_ ?_
    · exact disciplined_release_second (disciplined_release trivial)
    · refine disciplined_read mem_first fun node => disciplined_ite ?_ disciplined_removeEntry
      refine disciplined_lock mem_first (disciplined_dir mem_first fun dir => ?_)
      refine disciplined_unlock mem_first (disciplined_ite ?_ disciplined_removeEntry)
      exact disciplined_release (disciplined_release trivial)

theorem disciplined_changeNode {path : Option Str} {f : Node → Node} :
    Disciplined (changeNode uid gid fuel path f) g Any := by
  refine disciplined_onLookUp fun a => ?_
  rcases a with ⟨mp, _ | fileNode, parent, path', buffer⟩
  · trivial
  · refine disciplined_releaseParent (disciplined_read mem_first fun node => ?_)
    refine disciplined_ite (disciplined_release trivial) (disciplined_write mem_first ?_)
    exact disciplined_release trivial

theorem disciplined_stat {path : Option Str} {followSymlink : Bool} :
    Disciplined (stat uid gid fuel path followSymlink) g Any := by
  refine disciplined_onLookUp fun a => ?_
  rcases a with ⟨mp, _ | fileNode, parent, path', buffer⟩
  · trivial
  · exact disciplined_releaseParent (disciplined_read mem_first fun node => disciplined_release trivial)

theorem disciplined_list {path : Option Str} : Disciplined (list uid gid fuel path) g Any := by
  refine disciplined_onLookUp fun a => ?_
  rcases a with ⟨mp, _ | node, parent, path', buffer⟩
  · trivial
  · refine disciplined_releaseParent (disciplined_read mem_first fun fields => ?_)
    refine disciplined_ite (disciplined_release trivial) (disciplined_permissions mem_first fun b => ?_)
    refine disciplined_ite (disciplined_release trivial) (disciplined_lock mem_first ?_)
    refine disciplined_dir mem_first fun dir => disciplined_ask fun copied => ?_
    exact disciplined_unlock mem_first (disciplined_release trivial)

theorem disciplined_mount {mountPoint : Option Str} :
    Disciplined (mount uid gid fuel mountPoint) g Any := by
  refine disciplined_onLookUp fun a => ?_
  rcases a with ⟨mp, _ | fileNode, _ | folderNode, path', buffer⟩
  · trivial
  · trivial
  · exact disciplined_release trivial
  · refine disciplined_release_second (disciplined_read mem_first fun node => ?_)
    refine disciplined_ite (disciplined_release trivial) (disciplined_permissions mem_first fun b => ?_)
    exact disciplined_ite (disciplined_release trivial) (disciplined_release trivial)

theorem disciplined_mountDevice {mountPoint devFile : Option Str} :
    Disciplined (mountDevice uid gid fuel mountPoint devFile) g Any := by
  refine disciplined_onLookUp fun a => ?_
  rcases a with ⟨mp, _ | fileNode, parent, path', buffer⟩
  · trivial
  · refine disciplined_releaseParent (disciplined_read mem_first fun node => ?_)
    refine disciplined_ite (disciplined_release trivial) (disciplined_permissions mem_first fun b => ?_)
    refine disciplined_ite (disciplined_release trivial) (disciplined_read mem_first fun node => ?_)
    refine disciplined_release (disciplined_ask fun found => ?_)
    cases found with
    | error e => trivial
    | ok m => exact disciplined_mount

theorem disciplined_clearFile {fileNode : NodeRef} {openMode : UInt64} :
    Disciplined (clearFile fileNode openMode) (fileNode ::ₘ g) fun _ g' => g' = fileNode ::ₘ g := by
  refine disciplined_ite (disciplined_read mem_first fun node => disciplined_ite ?_ rfl) rfl
  exact disciplined_read mem_first fun node => disciplined_ask fun res => rfl

theorem disciplined_openNode {fileNode : NodeRef} {openMode : UInt64} :
    Disciplined (openNode uid gid fileNode openMode) (fileNode ::ₘ g) Any := by
  refine disciplined_permissions mem_first fun b => disciplined_ite (disciplined_release trivial) ?_
  refine disciplined_read mem_first fun node => disciplined_ite (disciplined_release trivial) ?_
  refine Disciplined.bind (disciplined_clearFile.mono fun _ g' hg => ?_)
  obtain rfl := hg
  exact disciplined_keep mem_first trivial

theorem disciplined_open {path : Option Str} {openMode : UInt64} :
    Disciplined («open» uid gid fuel path openMode update) g Any := by
  refine disciplined_onLookUp fun a => ?_
  rcases a with ⟨mp, _ | fileNode, parent, path', buffer⟩
  · rcases parent with _ | folderNode
    · trivial
    · refine disciplined_permissions mem_first fun b => disciplined_ite (disciplined_release trivial) ?_
      refine disciplined_create fun fileNode => disciplined_read mem_second fun folder => ?_
      refine disciplined_write mem_first (disciplined_addEntry mem_second mem_first ?_)
      exact disciplined_release_second disciplined_openNode
  · refine disciplined_ite (disciplined_releaseParent (disciplined_release trivial)) ?_
    exact disciplined_releaseParent disciplined_openNode

theorem disciplined_close : Disciplined close g Any := by
  refine disciplined_ask fun desc => disciplined_ite ?_ trivial
  exact disciplined_read mem_first fun node => disciplined_release trivial

end Operations

/-! ## Nothing is written by a lookup -/

theorem readOnly_walk (m : MountRef) (fileHasToExist deleteMode : Bool) (fuel : Nat)
    (currentNode : NodeRef) (path : Str) :
    ReadOnly (walk uid gid m fileHasToExist deleteMode fuel currentNode path) := by
  have hite : ∀ {c : Prop} [Decidable c] {p q : NodeProg Walk}, ReadOnly p → ReadOnly q →
      ReadOnly (if c then p else q) := by
    intro c _ p q hp hq
    split_ifs
    · exact hp
    · exact hq
  induction fuel generalizing currentNode path with
  | zero => trivial
  | succ fuel ih =>
    refine fun node => hite trivial (ReadOnly.bind ?_ fun b => hite trivial ?_)
    · unfold checkPermissions
      split_ifs
      · trivial
      · exact fun node => trivial
    · refine fun _ node _ => ?_
      cases Directory.findEntry path node.entries with
      | none => exact hite trivial trivial
      | some e =>
        exact fun next => hite trivial fun nextNode => hite trivial (hite trivial (ih next e.2))

theorem readOnly_acquirePathRec (mp : Mount) (path : Str) (fileHasToExist deleteMode : Bool) :
    ReadOnly (acquirePathRec uid gid mp path fileHasToExist deleteMode) := by
  intro currentNode
  show ReadOnly (if _ then _ else _)
  split_ifs
  · trivial
  · exact readOnly_walk _ _ _ _ _ _

theorem readOnly_acquirePath (fileHasToExist deleteMode : Bool) (fuel : Nat) (buffer : Str) :
    ReadOnly (acquirePath uid gid fileHasToExist deleteMode fuel buffer) := by
  induction fuel generalizing buffer with
  | zero => trivial
  | succ fuel ih =>
    refine ReadOnly.bind (fun _ => trivial) fun mp => ?_
    refine ReadOnly.bind (readOnly_acquirePathRec mp _ _ _) fun r => ?_
    cases r with
    | ok node parent path => trivial
    | error e => trivial
    | symlink node parent rest =>
      intro fields
      show ReadOnly (if _ then _ else _)
      split_ifs
      · trivial
      · exact ih _

theorem readOnly_lookUp (fuel bufSize : Nat) (path : Option Str) (fileHasToExist deleteMode : Bool) :
    ReadOnly (lookUp uid gid fuel bufSize path fileHasToExist deleteMode) := by
  refine ReadOnly.bind (fun cwd => ?_) fun r => ?_
  · simp only [Holders.Prog.bind]
    cases preparePath bufSize cwd path <;> trivial
  · cases r with
    | error e => trivial
    | ok cleanBuffer => exact readOnly_acquirePath _ _ _ _

/-! ## Every operation but `CD` -/

theorem quiet_read (reqPerms : UInt8) (update : Node → Node) : Quiet (useDesc reqPerms update) := by
  intro desc
  show Quiet (if _ then _ else _)
  split_ifs
  · trivial
  · intro node
    simp only [Holders.Prog.bind]
    cases node.driver with
    | some driverID => exact fun res => trivial
    | none => exact fun node res => trivial

theorem quiet_deviceCommand : Quiet deviceCommand := by
  intro desc node
  simp only [Holders.Prog.bind]
  cases node.driver with
  | none => trivial
  | some driverID =>
    show Quiet (if _ then _ else _)
    split_ifs
    · trivial
    · intro driver
      cases driver with
      | none => trivial
      | some type => exact fun node res => trivial

/-- **No operation but `CD` touches a node that it has destroyed.** -/
theorem usesNoDestroyed_of_not_cd (F : FileSystems) (uid gid : Nat) {call : Call}
    (hcall : call.isCD = false) : UsesNoDestroyed F uid gid call := by
  intro fuel c hc
  have hret : ∀ f : Node → Node, ∀ g : Multiset NodeRef,
      Disciplined (.ret f : NodeProg (Node → Node)) g fun _ g' => g' = g := fun _ _ => rfl
  cases call with
  | createFile path perms update => exact (disciplined_createAt (hret _)).safe hc
  | createFolder path perms update => exact (disciplined_createAt (hret _)).safe hc
  | createDeviceFile path perms driverID subID update => exact disciplined_createDeviceFile.safe hc
  | createSymLink path permissions linkPath update => exact (disciplined_createAt (hret _)).safe hc
  | createHardLink path linkPath update => exact disciplined_createHardLink.safe hc
  | createPipe pipeMount =>
    exact Quiet.safe (p := createPipe pipeMount) (fun _ => trivial) hc.dead
  | delete path update => exact disciplined_delete.safe hc
  | changeOwner path newUID newGID => exact disciplined_changeNode.safe hc
  | changePermissions path permissions => exact disciplined_changeNode.safe hc
  | stat path followSymlink => exact disciplined_stat.safe hc
  | list path => exact disciplined_list.safe hc
  | mount mountPoint => exact disciplined_mount.safe hc
  | mountDevice mountPoint devFile => exact disciplined_mountDevice.safe hc
  | «open» path openMode update => exact disciplined_open.safe hc
  | close => exact disciplined_close.safe hc
  | read update => exact (quiet_read _ update).safe hc.dead
  | write update => exact (quiet_read _ update).safe hc.dead
  | deviceCommand => exact quiet_deviceCommand.safe hc.dead
  | seek mode offs => exact Quiet.safe (p := seek mode offs) (fun _ _ _ => trivial) hc.dead
  | cd path => cases hcall

/-! ## `CD` -/

section CD

variable {F : FileSystems} {a : Acquired} {node : NodeRef} {c : Config NodeRef Node}

/-- What is left of `CD` after its releases, when the node is not looked at again. -/
theorem disciplined_enter {parent : Option NodeRef} {q : NodeProg (Code Unit)}
    (hq : Disciplined q g Any) :
    Disciplined (releaseNode node true >>= fun _ => releaseParent parent >>= fun _ => q)
      (held (some node) parent g) Any := by
  cases parent with
  | none => exact disciplined_release hq
  | some parent => exact disciplined_release (disciplined_release hq)

theorem disciplined_cd_root {fuel : Nat} {path : Option Str} :
    Disciplined (cd 0 gid fuel path) g Any := by
  refine disciplined_onLookUp fun a => ?_
  rcases a with ⟨mp, _ | node, parent, path', buffer⟩
  · trivial
  · refine disciplined_read (mem_held node parent) fun fields => ?_
    refine disciplined_enter ?_
    refine disciplined_ite trivial ?_
    rw [checkPermissions, if_pos rfl]
    trivial

/-- The release of a node that is kept leaves it alone. -/
theorem released_of_kept {o : Node} (h : o.linkCount ≠ 0) :
    c.released F.world node true o = c.lose node 1 := by
  have hkept : F.world.kept o = true := by simpa [FileSystems.world] using h
  simp [Config.released, hkept]

/-- The permissions of a node that was not destroyed can be checked. -/
theorem wp_check (hdead : ¬ c.dead node) (reqPerms : UInt8) {k : Bool → NodeProg (Code Unit)}
    (hk : ∀ b c, wp F.world (k b) (fun _ _ => True) c) :
    wp F.world (checkPermissions uid gid node reqPerms >>= k) (fun _ _ => True) c := by
  unfold checkPermissions
  split_ifs
  · exact hk true c
  · exact ⟨hdead, fun c₁ _ o _ => hk _ c₁⟩

theorem wp_enter (hstay : F.DirectoriesStay) (hnode : a.node = some node)
    (hc : Holders.Holds c (held a.node a.parent 0)) (hseen : AllSeen F.world c) :
    wp F.world (enter uid gid a node) (fun _ _ => True) c := by
  rw [hnode] at hc
  have hmem : node ∈ held (some node) a.parent 0 := mem_held node a.parent
  refine ⟨hc.dead node hmem, fun c₁ ho₁ fields hfields => ?_⟩
  have hc₁ := hc.others ho₁
  by_cases htype : fields.type = .directory
  · have hseen₁ : F.world.Seen fields :=
      hseen.others (fun r hpos => hc.live r (Multiset.count_pos.1 (by rwa [← hc.own]))) ho₁ node
        fields hfields
    refine ⟨hc₁.dead node hmem, fun c₂ ho₂ o₂ hobj₂ => ?_⟩
    have hc₂ := hc₁.others ho₂
    obtain ⟨o, ho, hlater₂, -⟩ := ho₂.held node fields (hc₁.own_pos hmem) hfields
    obtain rfl : o = o₂ := Option.some.inj (ho.symm.trans hobj₂)
    rw [released_of_kept (hstay fields o hseen₁ htype hlater₂)]
    have hcheck : ∀ {c₃ : Config NodeRef Node}, ¬ c₃.dead node →
        wp F.world (if fields.type ≠ .directory then .ret (.error .notAFolder)
          else do
            let permitted ← checkPermissions uid gid node Permissions.execute
            if !permitted then .ret (.error .permissionDenied) else .ret (.ok ()) :
          NodeProg (Code Unit)) (fun _ _ => True) c₃ := by
      intro c₃ hdead
      rw [if_neg (not_not.2 htype)]
      refine wp_check hdead _ fun b c => ?_
      cases b <;> trivial
    have hdead₂ : ¬ (c₂.lose node 1).dead node := hc₂.dead node hmem
    cases hparent : a.parent with
    | none => exact hcheck hdead₂
    | some parent =>
      rw [hparent] at hc₂
      have hc₂' : Holders.Holds (c₂.lose node 1) (parent ::ₘ 0) := hc₂.lose
      refine ⟨hc₂'.dead parent mem_first, fun c₃ ho₃ o₃ hobj₃ => hcheck ?_⟩
      by_cases hsame : parent = node
      · -- the node is its own parent, and is still held
        subst hsame
        obtain ⟨o', ho', hlater₃, -⟩ := ho₃.held parent o (hc₂'.own_pos mem_first) hobj₂
        obtain rfl : o' = o₃ := Option.some.inj (ho'.symm.trans hobj₃)
        rw [released_of_kept (hstay fields o' hseen₁ htype (hlater₂.trans hlater₃))]
        exact (hc₂'.others ho₃).dead parent mem_first
      · have hdead₃ : ¬ c₃.dead node := by
          rw [ho₃.dead]
          exact hdead₂
        unfold Config.released
        dsimp only
        split_ifs
        · rintro (heq | hdead)
          · exact hsame heq.symm
          · exact hdead₃ hdead
        · exact hdead₃
  · have hrest : Disciplined (releaseNode node true >>= fun _ => releaseParent a.parent >>= fun _ =>
        (if fields.type ≠ .directory then .ret (.error .notAFolder)
          else do
            let permitted ← checkPermissions uid gid node Permissions.execute
            if !permitted then .ret (.error .permissionDenied) else .ret (.ok ()) :
          NodeProg (Code Unit))) (held (some node) a.parent 0) Any := by
      refine disciplined_enter ?_
      rw [if_pos htype]
      trivial
    exact wp_mono (hrest.wp (P := False) hc₁ False.elim) fun _ _ _ => trivial

/-- **`CD` is safe where directories keep their links.** -/
theorem cd_safe (hstay : F.DirectoriesStay) (uid gid : Nat) (path : Option Str) :
    UsesNoDestroyed F uid gid (.cd path) := by
  intro fuel c hc
  refine safe_iff_wp.2 (wp_bind (wp_mono ((disciplined_lookUp fuel 256 path true false).wp (P := True)
    hc.holds fun _ => ⟨readOnly_lookUp _ _ _ _ _, hc.seen⟩) ?_))
  rintro r c' ⟨g', hr, hc', hseen⟩
  cases r with
  | error e => trivial
  | ok a =>
    obtain rfl := hr
    simp only [onOk]
    cases hnode : a.node with
    | none => trivial
    | some node => exact wp_enter hstay hnode hc' (hseen trivial)

/-- **Elsewhere a thread other than root can make it touch what it has destroyed.** -/
theorem not_cd_safe (hstay : ¬ F.DirectoriesStay) (huid : uid ≠ 0) (gid : Nat) :
    ¬ UsesNoDestroyed F uid gid (.cd (some ['/', 'p', 'r', 'o', 'c'])) := by
  intro h
  unfold FileSystems.DirectoriesStay at hstay
  push Not at hstay
  obtain ⟨fields, fields', hseen, htype, hlater, hzero⟩ := hstay
  -- the node is in the cache, and nobody holds it
  let c₀ : Config NodeRef Node :=
    { obj := fun n => if n = 0 then some fields else none, refs := fun _ => 0, own := fun _ => 0
      dead := fun _ => False }
  have hbegins : Begins F.world c₀ := by
    refine ⟨fun _ => rfl, fun _ => id, fun n node hnode => ?_⟩
    obtain ⟨-, rfl⟩ : n = 0 ∧ fields = node := by simpa [c₀] using hnode
    exact hseen
  let c₁ := c₀.acquired 0
  have hfound : Acquires F.world (1, fields.id) c₀ 0 c₁ := .cached rfl rfl
  -- its link count becomes zero
  let c₂ : Config NodeRef Node := { c₁ with obj := fun n => if n = 0 then some fields' else none }
  have hothers : Others F.world c₁ c₂ := by
    refine ⟨rfl, rfl, fun n node _ hnode => ?_, fun n node' hown hnode' => ?_⟩
    · obtain ⟨rfl, rfl⟩ : n = 0 ∧ fields = node := by simpa [c₁, c₀, Config.acquired, Config.gain] using hnode
      exact ⟨fields', rfl, hlater, id⟩
    · obtain ⟨rfl, rfl⟩ : n = 0 ∧ fields' = node' := by simpa [c₂] using hnode'
      exact .inl ⟨fields, rfl, hlater⟩
  have hwp := safe_iff_wp.1 (h 1 c₀ hbegins)
  have hbuffer := hwp c₀ (.refl _ _) []
  have hmount := hbuffer c₀ (.refl _ _) ⟨1, ['p', 'r', 'o', 'c'], fields.id⟩
  have hacquire := hmount c₀ (.refl _ _) 0 c₁ hfound
  have hread := hacquire.2 c₁ (.refl _ _) fields rfl
  have hrest : wp F.world (if fields.type ≠ .directory then .ret (.error .notAFolder)
      else do
        let permitted ← checkPermissions uid gid 0 Permissions.execute
        if !permitted then .ret (.error .permissionDenied) else .ret (.ok ()) :
      NodeProg (Code Unit)) (fun _ _ => True) (c₂.released F.world 0 true fields') :=
    hread.2 c₂ hothers fields' rfl
  rw [if_neg (not_not.2 htype), checkPermissions, if_neg huid] at hrest
  refine hrest.1 ?_
  have hlast : (c₂.lose 0 1).refs 0 = 0 ∧ F.world.kept fields' = false := by
    refine ⟨rfl, ?_⟩
    simp [FileSystems.world, hzero]
  rw [Config.released]
  simp only [Bool.toNat_true]
  rw [if_pos hlast]
  exact .inl rfl

/-- **Which operations may touch a node that they have destroyed.** None but `CD`, and `CD` only for a
thread other than root, where a directory does not keep its links. -/
theorem nodes_used_while_held (F : FileSystems) (uid gid : Nat) :
    (∀ call : Call, call.isCD = false → UsesNoDestroyed F uid gid call) ∧
      ((∀ path, UsesNoDestroyed F uid gid (.cd path)) ↔ uid = 0 ∨ F.DirectoriesStay) := by
  refine ⟨fun call => usesNoDestroyed_of_not_cd F uid gid, fun h => ?_, ?_⟩
  · by_contra hnot
    rw [not_or] at hnot
    exact not_cd_safe hnot.2 hnot.1 gid (h _)
  · rintro (rfl | hstay) path
    · exact fun fuel c hc => disciplined_cd_root.safe hc
    · exact cd_safe hstay uid gid path

/-- The root of a `ProcFS` has no links: it is destroyed when `CD` releases it. -/
theorem cd_procFS : ¬ UsesNoDestroyed ProcFS.only 1000 1000 (.cd (some ['/', 'p', 'r', 'o', 'c'])) := by
  refine not_cd_safe (fun h => ?_) (by decide) 1000
  exact h (ProcFS.rootNode [] 1) (ProcFS.rootNode [] 1) ⟨(1, 0), _, .inl ⟨rfl, [], rfl⟩, .refl⟩ rfl .refl
    rfl

end CD

end ChenixOS.NodeUse
