import ChenixOS.Fs.Frames

/-!
# The sections of a call

`Sections K Φ` says that the sections which change neither the links of a node nor a mount's place nor a thread
have `Φ`. The code of a call `Walks` over these and its own others, on all ways or on those on which it fails.
-/

namespace ChenixOS

namespace VFS

/-- A new node gets at most one link. -/
def Begins (init : Node → Node) : Prop := ∀ node, node.linkCount = 0 → (init node).linkCount ≤ 1

theorem begins_initNode (type : NodeType) (info : NodeInfo) (permissions : Permissions) (tInfo : ThreadInfo) :
    Begins (initNode type info permissions tInfo) := fun _ _ => le_rfl

/-- Every section that changes neither links nor mounts nor threads has `Φ`. -/
structure Sections (K : Kernel) (Φ : ∀ {β : Type}, M β → Prop) : Prop where
  /-- The section only reads. -/
  reads : ∀ {β : Type} {act : M β}, Fixes (fun s : State => s) act → Φ act
  /-- It reads before it does anything else. -/
  first : ∀ {β γ : Type} {act : M β} {k : β → M γ}, Fixes (fun s : State => s) act → (∀ b, Φ (k b)) → Φ (act >>= k)
  findChild : ∀ path m, Φ (findChild path m)
  releaseMountPoint : ∀ m decrement, Φ (releaseMountPoint m decrement)
  acquireNode : ∀ m id, Φ (acquireNode K m id)
  releaseNode : ∀ n decrement, Φ (releaseNode n decrement)
  lookup : ∀ tInfo n path, Φ (lookup tInfo n path)
  folderNotEmpty : ∀ n, Φ (folderNotEmpty n)
  listEntries : ∀ n numEntries valid, Φ (listEntries n numEntries valid)
  /-- The owner or the permissions are changed. -/
  attributes : ∀ n (f : Node → Node), (∀ node, (f node).type = node.type ∧ (f node).linkCount = node.linkCount) →
    Φ (modifyNode n f)
  clear : ∀ m id, Φ (fsClearNodeData m id)
  newDesc : ∀ desc, Φ (newDesc K desc)
  deleteDesc : ∀ d, Φ (deleteDesc d)
  dropDesc : ∀ d, Φ (dropDesc d)
  modifyDesc : ∀ d f, Φ (modifyDesc d f)
  construct : Φ (TempFS.construct K)
  createNode : ∀ m refCount init, Begins init → Φ (createNode K m refCount init)
  addEntry : ∀ n name c, Φ (addEntry n name c)
  removeEntry : ∀ n name, Φ (removeEntry n name)
  readNodeData : ∀ n pos user bufferSize answer, Φ (readNodeData K n pos user bufferSize answer)
  writeNodeData : ∀ n pos user bufferSize answer, Φ (writeNodeData K n pos user bufferSize answer)

end VFS

namespace Prog.Walks

open VFS

variable {Φ : ∀ {β : Type}, M β → Prop} {α β : Type}

theorem step {S : β → Prop} {m : M α} {k : α → P β} (hm : Φ m) (hk : ∀ a, (k a).Walks Φ S) :
    (VFS.step m >>= k).Walks Φ S := .bind (.atomic hm) hk

theorem onOk {S : Except Error β → Prop} {r : Except Error α} {k : α → P (Except Error β)}
    (hk : ∀ a, (k a).Walks Φ S) : (VFS.onOk r k).Walks Φ S := by
  cases r with
  | error e => exact .ret _
  | ok a => exact hk a

end Prog.Walks

namespace VFS

variable {K : Kernel} {Φ : ∀ {β : Type}, M β → Prop} {α β γ : Type} {R : α → Prop} {S : β → Prop} {g : State → γ}
  {s s' : State}

/-- What holds of the sections that an observation does not see holds of all, once it holds of those that make a
node or take one away. -/
theorem Blind.sections (hg : Blind g) (hΦ : ∀ {β : Type} {act : M β}, Fixes g act → Φ act)
    (hbind : ∀ {β γ : Type} {act : M β} {k : β → M γ}, Φ act → (∀ b, Φ (k b)) → Φ (act >>= k))
    (hconstruct : Φ (TempFS.construct K)) (hacquire : ∀ m id, Φ (acquireNode K m id))
    (hrelease : ∀ n decrement, Φ (releaseNode n decrement))
    (hcreate : ∀ m refCount init, Begins init → Φ (createNode K m refCount init)) : Sections K Φ := by
  have hread : ∀ {β : Type} {act : M β}, Fixes (fun s : State => s) act → Φ act :=
    fun hact => hΦ fun s b s' hrun => congrArg g (hact s b s' hrun)
  exact {
    reads := hread
    first := fun hact hk => hbind (hread hact) hk
    findChild := fun path m => hΦ (hg.findChild path m)
    releaseMountPoint := fun m decrement => hΦ (hg.releaseMountPoint m decrement)
    acquireNode := hacquire
    releaseNode := hrelease
    lookup := fun tInfo n path => hΦ (hg.lookup tInfo n path)
    folderNotEmpty := fun n => hΦ (hg.folderNotEmpty n)
    listEntries := fun n numEntries valid => hΦ (hg.listEntries n numEntries valid)
    attributes := fun n f hf => hΦ (hg.node n f hf)
    clear := fun m id => hΦ (hg.fsClearNodeData m id)
    newDesc := fun desc => hΦ (hg.newDesc K desc)
    deleteDesc := fun d => hΦ (hg.deleteDesc d)
    dropDesc := fun d => hΦ (hg.dropDesc d)
    modifyDesc := fun d f => hΦ (hg.desc d f)
    construct := hconstruct
    createNode := hcreate
    addEntry := fun n name c => hΦ (hg.addEntry n name c)
    removeEntry := fun n name => hΦ (hg.removeEntry n name)
    readNodeData := fun n pos user bufferSize answer => hΦ (hg.readNodeData n pos user bufferSize answer)
    writeNodeData := fun n pos user bufferSize answer => hΦ (hg.writeNodeData n pos user bufferSize answer) }

theorem Aloof.sections (hg : Aloof g) : Sections K (Fixes g) :=
  hg.blind.sections id .bind (hg.allocTestNode _) hg.acquireNode hg.releaseNode
    fun m refCount init _ => hg.createNode m refCount init

namespace Sections

variable (h : Sections K Φ)
include h

/-! ## Steps -/

theorem get {k : State → P β} (hk : ∀ a, (k a).Walks Φ S) :
    (VFS.step (MonadState.get : M State) >>= k).Walks Φ S := .step (h.reads .get) hk

theorem stop {e : Stop} : (VFS.step (M.stop e : M α)).Walks Φ R := .atomic (h.reads (.stop e))

theorem permitted {k : Bool → P β} (tInfo : ThreadInfo) (n : NodeRef) (req : UInt8)
    (hk : ∀ a, (k a).Walks Φ S) : (VFS.step (VFS.permitted tInfo n req) >>= k).Walks Φ S :=
  .step (h.reads (.permitted tInfo n req)) hk

theorem nodeType {k : NodeType → P β} (n : NodeRef) (hk : ∀ a, (k a).Walks Φ S) :
    (VFS.step (VFS.nodeType n) >>= k).Walks Φ S := .step (h.reads (.nodeType n)) hk

theorem release {k : Unit → P β} (n : NodeRef) (decrement : Bool) (hk : ∀ a, (k a).Walks Φ S) :
    (VFS.step (VFS.releaseNode n decrement) >>= k).Walks Φ S := .step (h.releaseNode n decrement) hk

/-- A node and its mount are given back. -/
theorem leave {k : P β} (n : NodeRef) (m : MountRef) (hk : k.Walks Φ S) :
    (do VFS.step (VFS.releaseNode n true)
        VFS.step (VFS.releaseMountPoint m true)
        k).Walks Φ S :=
  h.release n true fun _ => .step (h.releaseMountPoint m true) fun _ => hk

/-- A directory is given back if there is one. -/
theorem leaveParent (parent : Option NodeRef) {k : P β} (hk : k.Walks Φ S) :
    (do if let some folderNode := parent then VFS.step (VFS.releaseNode folderNode true)
        k).Walks Φ S := by
  cases parent with
  | none => exact hk
  | some folderNode => exact h.release folderNode true fun _ => hk

/-! ## Paths -/

theorem findMountPoint (path : Str) : (findMountPoint path).Walks Φ fun _ => True := by
  have hfrom : ∀ fuel m, (findMountPointFrom path fuel m).Walks Φ fun _ => True := by
    intro fuel
    induction fuel with
    | zero => exact fun _ => .diverge _
    | succ fuel ih =>
      intro m
      refine .step (h.findChild path m) fun o => ?_
      cases o with
      | none => exact .ret _
      | some c => exact ih c
  exact h.get fun s => hfrom _ _

variable {tInfo : ThreadInfo} {fileHasToExist deleteMode : Bool}

theorem walk (m : MountRef) (fuel : Nat) (n : NodeRef) (path : Str) :
    (walk K tInfo m fileHasToExist deleteMode fuel n path).Walks Φ fun _ => True := by
  induction fuel generalizing n path with
  | zero => exact .diverge _
  | succ fuel ih =>
    refine .bind (.atomic (h.lookup tInfo n path)) fun l => ?_
    cases l with
    | notADirectory | denied => exact h.release n true fun _ => .ret _
    | absent => exact .ite (h.release n true fun _ => .ret _) (.ret _)
    | found id rest =>
      refine .step (h.acquireNode m id) fun next => .ite (.ret _) (h.nodeType next fun type => ?_)
      exact .ite (.ret _) (.ite (.ret _) (h.release n true fun _ => ih next rest))

theorem acquirePathRec (m : MountRef) (path : Str) :
    (acquirePathRec K tInfo m path fileHasToExist deleteMode).Walks Φ fun _ => True :=
  .step (h.first (.getMount m) fun _ => h.acquireNode m _) fun root => .ite (.ret _) (h.walk m _ root path)

theorem acquirePath (fuel : Nat) (buffer : Str) :
    (acquirePath K tInfo fileHasToExist deleteMode fuel buffer).Walks Φ fun _ => True := by
  induction fuel generalizing buffer with
  | zero => exact .diverge _
  | succ fuel ih =>
    refine .bind (h.findMountPoint buffer) fun m => .step (h.reads (.getMount m)) fun mp =>
      .bind (h.acquirePathRec m _) fun w => ?_
    cases w with
    | ok node parent path => exact .ret _
    | error e => exact .step (h.releaseMountPoint m true) fun _ => .ret _
    | symlink node parent rest =>
      refine .step (h.reads (.readLink node)) fun linkPath => h.release node true fun _ =>
        h.release parent true fun _ => .step (h.releaseMountPoint m true) fun _ => ?_
      exact .ite (.ret _) (ih _)

/-- A path that is prepared and acquired, and what is done with it. -/
theorem onPath {S : Except Error β → Prop} {bufSize : Nat} {t : ThreadRef} {fuel : Nat} {path : Option Str}
    {k : Str → ThreadInfo → Acquired → P (Except Error β)} (hk : ∀ buffer tInfo a, (k buffer tInfo a).Walks Φ S) :
    (do VFS.onOk (← VFS.step (VFS.prepare bufSize t path)) fun cleanBuffer => do
          let tInfo ← VFS.step (VFS.getThread t)
          VFS.onOk (← VFS.acquirePath K tInfo fileHasToExist deleteMode fuel cleanBuffer) fun a =>
            k cleanBuffer tInfo a : P (Except Error β)).Walks Φ S :=
  .step (h.reads (.prepare _ _ _)) fun _ => .onOk fun buffer => .step (h.reads (.getThread t)) fun tInfo =>
    .bind (h.acquirePath fuel buffer) fun _ => .onOk fun a => hk buffer tInfo a

/-! ## Calls that change no entries -/

theorem changeNode {S : Except Error Unit → Prop} (t : ThreadRef) (fuel : Nat) (path : Option Str) (f : Node → Node)
    (hf : ∀ node, (f node).type = node.type ∧ (f node).linkCount = node.linkCount) :
    (changeNode K t fuel path f).Walks Φ S := by
  refine h.onPath fun buffer tInfo a => ?_
  cases a.node with
  | none => exact h.stop
  | some fileNode =>
    refine h.leaveParent a.parent (.step (h.reads (.getNode fileNode)) fun node => .ite ?_ ?_)
    · exact h.leave fileNode a.mp (.ret _)
    · exact .step (h.attributes fileNode f hf) fun _ => h.leave fileNode a.mp (.ret _)

theorem changeOwner {S : Except Error Unit → Prop} (t : ThreadRef) (fuel : Nat) (path : Option Str)
    (newUID newGID : Nat) : (changeOwner K t fuel path newUID newGID).Walks Φ S :=
  h.changeNode t fuel path (fun node => { node with ownerUID := newUID, ownerGID := newGID }) fun _ => ⟨rfl, rfl⟩

theorem changePermissions {S : Except Error Unit → Prop} (t : ThreadRef) (fuel : Nat) (path : Option Str)
    (permissions : Permissions) : (changePermissions K t fuel path permissions).Walks Φ S :=
  h.changeNode t fuel path (fun node => { node with permissions }) fun _ => ⟨rfl, rfl⟩

theorem stat {S : Except Error NodeStats → Prop} (t : ThreadRef) (fuel : Nat) (path : Option Str)
    (followSymlink : Bool) : (stat K t fuel path followSymlink).Walks Φ S := by
  refine h.onPath fun buffer tInfo a => ?_
  cases a.node with
  | none => exact h.stop
  | some fileNode =>
    exact h.leaveParent a.parent (.step (h.reads (.readStats fileNode)) fun _ => h.leave fileNode a.mp (.ret _))

theorem list {S : Except Error (Int × List Str) → Prop} (t : ThreadRef) (fuel : Nat) (path : Option Str)
    (numEntries : Int) (valid : Nat → Bool) : (list K t fuel path numEntries valid).Walks Φ S := by
  refine h.onPath fun buffer tInfo a => ?_
  cases a.node with
  | none => exact h.stop
  | some node =>
    refine h.leaveParent a.parent (h.nodeType node fun _ => .ite (h.leave node a.mp (.ret _)) ?_)
    refine h.permitted tInfo node _ fun _ => .ite (h.leave node a.mp (.ret _)) ?_
    exact .step (h.listEntries node numEntries valid) fun _ => h.leave node a.mp (.ret _)

theorem close {S : Except Error Unit → Prop} (desc : Option DescRef) : (close desc).Walks Φ S := by
  cases desc with
  | none => exact .ret _
  | some d =>
    refine .step (h.dropDesc d) fun o => ?_
    cases o with
    | none => exact .ret _
    | some p => exact h.leave p.1 p.2 (.step (h.deleteDesc d) fun _ => .ret _)

theorem addRef {S : Except Error Unit → Prop} (desc : Option DescRef) : (addRef desc).Walks Φ S := by
  cases desc with
  | none => exact .ret _
  | some d => exact .step (h.modifyDesc d _) fun _ => .ret _

theorem createPipe {S : DescRef × DescRef → Prop} : (createPipe K).Walks Φ S :=
  h.get fun _ => .step (h.createNode _ _ _ fun _ hlink => hlink.le.trans (Nat.zero_le 1)) fun _ =>
    .step (h.newDesc _) fun _ => .step (h.newDesc _) fun _ => .ret _

theorem mount {S : Except Error Unit → Prop} (t : ThreadRef) (fuel : Nat) (mountPoint : Option Str)
    (hattach : ∀ m path id, Φ (attach K m path id)) : (mount K t fuel mountPoint).Walks Φ S := by
  refine .step h.construct fun id => h.onPath fun buffer tInfo a => ?_
  cases a.node with
  | none => exact h.stop
  | some fileNode =>
    cases a.parent with
    | none => exact h.leave fileNode a.mp (.ret _)
    | some folderNode =>
      refine h.release folderNode true fun _ => h.nodeType fileNode fun _ =>
        .ite (h.leave fileNode a.mp (.ret _)) ?_
      refine h.permitted tInfo fileNode _ fun _ => .ite (h.leave fileNode a.mp (.ret _)) ?_
      exact h.release fileNode true fun _ => .step (hattach a.mp a.buffer id) fun _ =>
        .step (h.releaseMountPoint a.mp false) fun _ => .ret _

theorem cd {S : Except Error Unit → Prop} (t : ThreadRef) (fuel : Nat) (path : Option Str)
    (hthread : ∀ cwd, Φ (fun s => .ok ((), { s with
      threads := fun t' => if t' = t then { s.threads t with cwd } else s.threads t' }) : M Unit)) :
    (cd K t fuel path).Walks Φ S := by
  refine h.onPath fun buffer tInfo a => ?_
  cases a.node with
  | none => exact h.stop
  | some node =>
    refine h.nodeType node fun type => h.release node true fun _ =>
      h.leaveParent a.parent (.step (h.releaseMountPoint a.mp true) fun _ => .ite (.ret _) ?_)
    exact h.permitted tInfo node _ fun _ => .ite (.ret _) (.step (hthread a.buffer) fun _ => .ret _)

theorem unmount {S : Except Error Unit → Prop} (t : ThreadRef) (mountPoint : Option Str)
    (hdetach : ∀ m, Φ (detach m)) : (unmount t mountPoint).Walks Φ S := by
  refine .step (h.reads (.prepare _ _ _)) fun _ => .onOk fun buffer => .bind (h.findMountPoint buffer) fun m =>
    .step (h.reads (.getMount m)) fun mp => h.get fun s => ?_
  have hrefuse : ∀ e, (do
      VFS.step (VFS.releaseMountPoint m true)
      fail e : P (Except Error Unit)).Walks Φ S := fun e => .step (h.releaseMountPoint m true) fun _ => .ret _
  refine .ite (hrefuse _) (.ite (hrefuse _) (.step (hdetach m) fun _ => ?_))
  split_ifs
  · exact .ret _
  · exact hrefuse _

/-! ## Descriptors -/

theorem advancePos (d : DescRef) (pos : Nat) (res : Except Error Nat) : Φ (advancePos d pos res) := by
  cases res with
  | ok n => exact h.modifyDesc d _
  | error e => exact h.reads (.pure _)

theorem read {S : Except Error Nat × PipeFS.UserBuffer → Prop} (desc : Option DescRef) (user : PipeFS.UserBuffer)
    (bufferSize : Nat) (answer : Except Error Nat × PipeFS.UserBuffer) :
    (read K desc user bufferSize answer).Walks Φ S := by
  cases desc with
  | none => exact .ret _
  | some d =>
    refine .step (h.reads (.getDesc d)) fun desc => .ite (.ret _) ?_
    exact .step (h.readNodeData _ _ _ _ _) fun _ => .step (h.advancePos d _ _) fun _ => .ret _

theorem write {S : Except Error Nat → Prop} (desc : Option DescRef) (user : PipeFS.UserBuffer) (bufferSize : Nat)
    (answer : Except Error Nat) : (write K desc user bufferSize answer).Walks Φ S := by
  cases desc with
  | none => exact .ret _
  | some d =>
    refine .step (h.reads (.getDesc d)) fun desc => .ite (.ret _) ?_
    exact .step (h.writeNodeData _ _ _ _ _) fun _ => .step (h.advancePos d _ _) fun _ => .ret _

theorem seek {S : Except Error Unit → Prop} (desc : Option DescRef) (mode : SeekMode) (offs : Nat) :
    (seek desc mode offs).Walks Φ S := by
  cases desc with
  | none => exact .ret _
  | some d =>
    refine .step (h.reads (.getDesc d)) fun desc => .step (h.reads (.fileSize _)) fun size => .ite (.ret _) ?_
    exact .step (h.modifyDesc d _) fun _ => .ret _

/-! ## Calls that change entries -/

/-- The calls that make a node. -/
theorem createAt {S : Except Error Unit → Prop} {init : ThreadInfo → Except Stop (Node → Node)} (t : ThreadRef)
    (fuel : Nat) (path : Option Str)
    (hinit : ∀ tInfo f, init tInfo = .ok f → Begins f) :
    (createAt K t fuel path init).Walks Φ S := by
  refine h.onPath fun buffer tInfo a => ?_
  cases a.parent with
  | none =>
    cases a.node with
    | none => exact h.stop
    | some fileNode => exact h.leave fileNode a.mp (.ret _)
  | some parentNode =>
    cases a.node with
    | some fileNode => exact h.release parentNode true fun _ => h.leave fileNode a.mp (.ret _)
    | none =>
      refine h.permitted tInfo parentNode _ fun _ => .ite (h.leave parentNode a.mp (.ret _)) ?_
      have hmake : Φ (do
          let init ← M.lift (init tInfo)
          VFS.createNode K a.mp 1 init) := by
        cases hi : init tInfo with
        | error e => exact h.reads (Fixes.error fun _ => ⟨e, rfl⟩)
        | ok f => exact h.createNode a.mp 1 f (hinit tInfo f hi)
      refine .step hmake fun newNode => ?_
      exact .bind (.atomic (h.addEntry parentNode a.path newNode)) fun _ => h.release parentNode true fun _ =>
        h.leave newNode a.mp (.ret _)

theorem createHardLink {S : Except Error Unit → Prop} (t : ThreadRef) (fuel : Nat) (path linkPath : Option Str)
    (hinc : (∀ n, Φ (modifyNode n fun node => { node with linkCount := inc node.linkCount })) ∨ ¬ S (.ok ())) :
    (createHardLink K t fuel path linkPath).Walks Φ S := by
  refine h.onPath fun buffer tInfo link => ?_
  cases link.node with
  | none => exact h.stop
  | some linkFileNode =>
    refine h.leaveParent link.parent (h.nodeType linkFileNode fun type => .ite ?_ ?_)
    · exact h.leave linkFileNode link.mp (.ret _)
    · refine .step (h.reads (.prepare _ _ _)) fun r => ?_
      cases r with
      | error e => exact h.leave linkFileNode link.mp (.ret _)
      | ok cleanBuffer =>
        refine .bind (h.acquirePath fuel cleanBuffer) fun r => ?_
        cases r with
        | error e => exact h.leave linkFileNode link.mp (.ret _)
        | ok a =>
          cases ha : a.parent with
          | none =>
            cases hn : a.node with
            | none =>
              simp only [ha, hn]
              exact h.stop
            | some fileNode =>
              simp only [ha, hn]
              exact h.leave linkFileNode link.mp (h.leave fileNode a.mp (.ret _))
          | some parentNode =>
            cases hn : a.node with
            | some fileNode =>
              simp only [ha, hn]
              exact h.leave linkFileNode link.mp
                (h.release parentNode true fun _ => h.leave fileNode a.mp (.ret _))
            | none =>
              simp only [ha, hn]
              have hrefuse : ∀ e, (do
                  VFS.step (VFS.releaseNode linkFileNode true)
                  VFS.step (VFS.releaseMountPoint link.mp true)
                  VFS.step (VFS.releaseNode parentNode true)
                  VFS.step (VFS.releaseMountPoint a.mp true)
                  fail e : P (Except Error Unit)).Walks Φ S := fun e =>
                h.leave linkFileNode link.mp (h.leave parentNode a.mp (.ret _))
              refine h.permitted tInfo parentNode _ fun _ => .ite (hrefuse _) (.ite (hrefuse _) ?_)
              rcases hinc with hinc | hfail
              · exact .step (hinc linkFileNode) fun _ => .bind (.atomic (h.addEntry parentNode a.path linkFileNode))
                  fun _ => h.leave parentNode a.mp (h.leave linkFileNode link.mp (.ret _))
              · exact .never (.bind fun _ => .bind fun _ => .bind fun _ => .bind fun _ => .bind fun _ =>
                  .bind fun _ => .ret hfail)

theorem delete {S : Except Error Unit → Prop} (t : ThreadRef) (fuel : Nat) (path : Option Str)
    (hdec : (∀ n, Φ (modifyNode n fun node => { node with linkCount := dec node.linkCount })) ∨ ¬ S (.ok ())) :
    (delete K t fuel path).Walks Φ S := by
  refine h.onPath fun buffer tInfo a => ?_
  cases a.node with
  | none => exact h.stop
  | some fileNode =>
    cases a.parent with
    | none => exact h.leave fileNode a.mp (.ret _)
    | some parentNode =>
      refine h.permitted tInfo parentNode _ fun _ => .ite ?_ ?_
      · exact h.release parentNode true fun _ => h.leave fileNode a.mp (.ret _)
      · refine .bind (.atomic (h.folderNotEmpty fileNode)) fun _ => .ite ?_ ?_
        · exact h.release fileNode true fun _ => h.leave parentNode a.mp (.ret _)
        · refine .bind (.atomic (h.removeEntry _ _)) fun found => ?_
          cases found with
          | false => exact .ret _
          | true =>
            rcases hdec with hdec | hfail
            · exact .step (hdec fileNode) fun _ => h.release fileNode true fun _ => h.leave parentNode a.mp (.ret _)
            · exact .never (.bind fun _ => .bind fun _ => .bind fun _ => .bind fun _ => .ret hfail)

theorem openNode {S : Except Error DescRef → Prop} (m : MountRef) (fileNode : NodeRef) (openMode : UInt64)
    (path : Str) : (openNode K tInfo m fileNode openMode path).Walks Φ S := by
  refine h.permitted tInfo fileNode _ fun _ => .ite (h.leave fileNode m (.ret _)) ?_
  refine h.nodeType fileNode fun _ => .ite (h.leave fileNode m (.ret _)) ?_
  have hend : (do
      VFS.step (VFS.releaseNode fileNode false)
      VFS.step (VFS.releaseMountPoint m false)
      let d ← VFS.step (VFS.newDesc K
        { refCount := 1, node := fileNode, permissions := openMode.toUInt8, pos := 0, path })
      .ret (.ok d) : P (Except Error DescRef)).Walks Φ S :=
    h.release fileNode false fun _ => .step (h.releaseMountPoint m false) fun _ => .step (h.newDesc _) fun _ => .ret _
  refine .ite (.step (h.first (.getNode fileNode) fun node => ?_) fun _ => hend) hend
  split_ifs
  · exact h.clear m node.id
  · exact h.reads (.pure _)

theorem «open» {S : Except Error DescRef → Prop} (t : ThreadRef) (fuel : Nat) (path : Option Str)
    (openMode : UInt64) :
    («open» K t fuel path openMode).Walks Φ S := by
  refine h.onPath fun buffer tInfo a => ?_
  cases a.node with
  | some fileNode =>
    refine .ite ?_ ?_
    · exact h.leaveParent a.parent (h.leave fileNode a.mp (.ret _))
    · exact h.leaveParent a.parent (h.openNode a.mp fileNode openMode buffer)
  | none =>
    cases a.parent with
    | none => exact h.stop
    | some folderNode =>
      refine h.permitted tInfo folderNode _ fun _ => .ite (h.leave folderNode a.mp (.ret _)) ?_
      refine .step (h.first (.getNode folderNode) fun folder => h.createNode a.mp 1 _ (begins_initNode _ _ _ _))
        fun fileNode => .bind (.atomic (h.addEntry folderNode a.path fileNode)) fun _ => ?_
      exact h.release folderNode true fun _ => h.openNode a.mp fileNode openMode buffer

/-! ## Every call -/

theorem prog {c : Call} {R : Reply → Prop} (fuel : Nat)
    (hinc : (∃ t path linkPath, c = .createHardLink t path linkPath) →
      (∀ n, Φ (modifyNode n fun node => { node with linkCount := inc node.linkCount })) ∨ ¬ R (.code (.ok ())))
    (hdec : (∃ t path, c = .delete t path) →
      (∀ n, Φ (modifyNode n fun node => { node with linkCount := dec node.linkCount })) ∨ ¬ R (.code (.ok ())))
    (hattach : (∃ t path, c = .mount t path) → ∀ m path id, Φ (attach K m path id))
    (hdetach : (∃ t path, c = .unmount t path) → ∀ m, Φ (detach m))
    (hthread : ∀ t cwd, Φ (fun s => .ok ((), { s with
      threads := fun t' => if t' = t then { s.threads t with cwd } else s.threads t' }) : M Unit)) :
    (c.prog K fuel).Walks Φ R := by
  cases c with
  | createFile t path perms | createFolder t path perms | createSymLink t path perms linkPath =>
    refine .map (h.createAt t fuel path fun tInfo f hf => ?_)
    cases hf
    exact begins_initNode _ _ _ _
  | createDeviceFile t path perms driverID subID =>
    refine .map (h.createAt t fuel path fun tInfo f hf => ?_)
    split at hf
    · cases hf
    · cases hf
      exact begins_initNode _ _ _ _
    · cases hf
      exact begins_initNode _ _ _ _
  | createHardLink t path linkPath =>
    exact .map (h.createHardLink t fuel path linkPath (hinc ⟨t, path, linkPath, rfl⟩))
  | createPipe => exact .map h.createPipe
  | delete t path => exact .map (h.delete t fuel path (hdec ⟨t, path, rfl⟩))
  | changeOwner t path newUID newGID => exact .map (h.changeOwner t fuel path newUID newGID)
  | changePermissions t path perms => exact .map (h.changePermissions t fuel path perms)
  | stat t path followSymlink => exact .map (h.stat t fuel path followSymlink)
  | list t path numEntries valid => exact .map (h.list t fuel path numEntries valid)
  | mount t path => exact .map (h.mount t fuel path (hattach ⟨t, path, rfl⟩))
  | unmount t path => exact .map (h.unmount t path (hdetach ⟨t, path, rfl⟩))
  | «open» t path openMode => exact .map (h.open t fuel path openMode)
  | close desc => exact .map (h.close desc)
  | addRef desc => exact .map (h.addRef desc)
  | read desc user bufferSize answer => exact .map (h.read desc user bufferSize answer)
  | write desc user bufferSize answer => exact .map (h.write desc user bufferSize answer)
  | seek desc mode offs => exact .map (h.seek desc mode offs)
  | cd t path => exact .map (h.cd t fuel path (hthread t))

end Sections

/-- **Only `Mount` and `Unmount` change how the mounts hang together.** -/
theorem Step.wiring {c : Call} {res : Reply} (h : Step K s c res s') (hmount : ∀ t path, c ≠ .mount t path)
    (hunmount : ∀ t path, c ≠ .unmount t path) : s'.wiring = s.wiring := by
  obtain ⟨-, fuel, hrun⟩ := h
  have hg := aloof_wiring
  have hwalk : (c.prog K fuel).Walks (Fixes State.wiring) fun _ => True := by
    refine hg.sections.prog fuel (fun _ => Or.inl fun n => hg.modifyNode n _)
      (fun _ => Or.inl fun n => hg.modifyNode n _) (fun ⟨t, path, hc⟩ => absurd hc (hmount t path))
      (fun ⟨t, path, hc⟩ => absurd hc (hunmount t path)) fun t cwd s b s' hthread => ?_
    cases hthread
    rfl
  exact hwalk.run_fixes hrun trivial

end VFS

end ChenixOS
