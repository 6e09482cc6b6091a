import ChenixOS.Fs.Resolution

/-!
# The operations give back what they take

For each function that `fs/VFS.h` exports: what its thread holds when it returns, on every one of
its paths. Nothing but descriptors is held then, with three exceptions that the code leaves behind:
a failed `Mount` leaks the file system it made, `Unmount` leaks its reference to the parent, and
`CreatePipe` owes two references to the mount of the pipes.

The operations on directories are safe next to other threads as long as no section conflicts with
what another call has found (`Conflict`).
-/

namespace ChenixOS.VFS

variable {K : Kernel} {α β : Type} {C : Label → Held → Prop} {n : NodeRef} {m : MountRef}
  {root : Bool} {known : Known} {path : Str} {g r : Held} {t : Tok}

/-- Nothing is held. -/
def Nothing (_ : α) (g : Held) : Prop := g = 0

/-! ## The beginning of every operation -/

/-- An operation prepares its path and resolves it; `k` is what it does with the result. -/
theorem safe_resolve {bufSize fuel : Nat} {fileHasToExist deleteMode : Bool} (t : ThreadRef)
    (path : Option Str) {k : Str → ThreadInfo → Acquired → P (Except Error β)}
    {Q : Except Error β → Held → Prop} (herr : ∀ e, Q (.error e) r)
    (hk : ∀ buffer tInfo a g, AcquiredOK deleteMode (.ok a) g →
      Safe Inv owes C (k buffer tInfo a) (g + r) Q) :
    Safe Inv owes C (do
      onOk (← step (prepare bufSize t path)) fun buffer => do
        let tInfo ← step (getThread t)
        onOk (← acquirePath K tInfo fileHasToExist deleteMode fuel buffer) fun a =>
          k buffer tInfo a) r Q := by
  rw [← zero_add r]
  refine safe_step (does_prepare bufSize t path) fun prep g' hg' => ?_
  obtain ⟨rfl, hbuf⟩ := hg'
  cases prep with
  | error e =>
    rw [zero_add]
    exact Safe.ret (herr e)
  | ok buffer =>
    refine safe_step (does_getThread t) fun tInfo g' hg' => ?_
    subst hg'
    have hacq := safe_acquirePath (K := K) tInfo fileHasToExist fuel buffer
      fun _ : deleteMode = true => hbuf buffer rfl
    refine safe_call hacq fun res g' hres => ?_
    cases res with
    | error e =>
      cases hres
      rw [zero_add]
      exact Safe.ret (herr e)
    | ok a => exact hk buffer tInfo a g' hres

/-! ## Creating entries -/

section Create

/-- What a create function writes into its node makes a node of the given type. -/
def Inits (type : NodeType) (init : Except Stop (Node → Node)) : Prop :=
  init ≠ .error .fault ∧ ∀ f, init = .ok f → ∀ m id,
    NewNode m id (f (blankNode id m 1 true)) ∧ (f (blankNode id m 1 true)).type = type

theorem safe_createAt {type : NodeType} (t : ThreadRef) (fuel : Nat) (path : Option Str)
    {init : ThreadInfo → Except Stop (Node → Node)} (hinit : ∀ tInfo, Inits type (init tInfo)) :
    Safe Inv owes (Pool.NoConflict owes Conflict) (createAt K t fuel path init) 0 Nothing := by
  unfold createAt
  refine safe_resolve t path (fun e => rfl) fun buffer tInfo a g ha => ?_
  rw [add_zero]
  cases ha with
  | @root m n path buffer =>
    refine Safe.perm (r := {.ref m n true .nothing} + ({.mref m} + 0)) ?_ (by ac_rfl)
    exact safe_releaseNode (safe_releaseMountPoint (Safe.ret rfl))
  | @node m n dir root known known' name path buffer =>
    refine Safe.perm (r := {.named dir name n} + ({.ref m dir root known'} +
      ({.ref m n false known} + ({.mref m} + 0)))) ?_ (by ac_rfl)
    exact Safe.drop (by simp) (safe_releaseNode (safe_releaseNode (safe_releaseMountPoint
      (Safe.ret rfl))))
  | @absent m dir root path buffer E hlinked hne hslash =>
    refine safe_step (does_permitted tInfo _ m dir root _) fun ok g' hg' => ?_
    obtain ⟨rfl, -⟩ := hg'
    by_cases hok : (!ok) = true
    · rw [if_pos hok]
      refine Safe.perm (r := E + ({.ref m dir root (.lacks path)} + ({.mref m} + 0))) ?_ (by ac_rfl)
      exact Safe.drop hlinked.key (safe_releaseNode (safe_releaseMountPoint (Safe.ret rfl)))
    · rw [if_neg hok]
      refine Safe.perm (r := {.mref m} + ({.ref m dir root (.lacks path)} + E)) ?_ (by ac_rfl)
      refine safe_step (does_createNode m (init tInfo) (fun f hf id => (hinit tInfo).2 f hf m id)
        (hinit tInfo).1) fun n g' hg' => ?_
      subst hg'
      refine Safe.bind (Safe.perm (safe_addEntry (r := 0) m hne hslash hlinked (by simp [Pool.NoConflict]))
        (by ac_rfl)) fun _ g' hg' => ?_
      subst hg'
      refine Safe.perm (r := {.ref m dir root .nothing} + ({.ref m n false (.type type)} +
        ({.mref m} + 0))) ?_ (by ac_rfl)
      exact safe_releaseNode (safe_releaseNode (safe_releaseMountPoint (Safe.ret rfl)))

theorem inits_initNode {info : NodeInfo} {type : NodeType} (permissions : Permissions)
    (hentries : ∀ dir, info = .folder dir → dir.entries = [])
    (hdir : type = .directory → ∃ dir, info = .folder dir)
    (hsymlink : type = .symlink → ∃ linkPath, info = .symlink linkPath) (tInfo : ThreadInfo) :
    Inits type (.ok (initNode type info permissions tInfo)) := by
  refine ⟨by simp, fun f hf m id => ?_⟩
  cases hf
  exact ⟨newNode_initNode permissions tInfo m id hentries hdir hsymlink, rfl⟩

theorem safe_createFile (t : ThreadRef) (fuel : Nat) (path : Option Str) (perms : Permissions) :
    Safe Inv owes (Pool.NoConflict owes Conflict) (createFile K t fuel path perms) 0 Nothing :=
  safe_createAt t fuel path (inits_initNode perms (by simp) (by simp) (by simp))

theorem safe_createFolder (t : ThreadRef) (fuel : Nat) (path : Option Str) (perms : Permissions) :
    Safe Inv owes (Pool.NoConflict owes Conflict) (createFolder K t fuel path perms) 0 Nothing :=
  safe_createAt t fuel path
    (inits_initNode perms (by simp [Directory.create]) (fun _ => ⟨_, rfl⟩) (by simp))

theorem safe_createSymLink (t : ThreadRef) (fuel : Nat) (path : Option Str) (perms : Permissions)
    (linkPath : Str) :
    Safe Inv owes (Pool.NoConflict owes Conflict) (createSymLink K t fuel path perms linkPath) 0
      Nothing :=
  safe_createAt t fuel path (inits_initNode perms (by simp) (by simp) (fun _ => ⟨_, rfl⟩))

theorem safe_createDeviceFile (t : ThreadRef) (fuel : Nat) (path : Option Str)
    (perms : Permissions) (driverID subID : Nat) :
    Safe Inv owes (Pool.NoConflict owes Conflict)
      (createDeviceFile K t fuel path perms driverID subID) 0 Nothing := by
  unfold createDeviceFile
  rcases K.drivers driverID with _ | _ | _
  · exact safe_createAt t fuel path fun _ => (⟨by simp, by simp⟩ : Inits .file _)
  · exact safe_createAt t fuel path (inits_initNode perms (by simp) (by simp) (by simp))
  · exact safe_createAt t fuel path (inits_initNode perms (by simp) (by simp) (by simp))

/-- The end of `CreateHardLink`, with the parent of the new name in hand: the link count goes up
before the entry is there. -/
theorem safe_addLink {type : NodeType} {dir : NodeRef} {E : Held} {m : MountRef} {path : Str}
    (hlinked : Linked root dir E) (hne : path ≠ []) (hslash : '/' ∉ path) :
    Safe Inv owes (Pool.NoConflict owes Conflict) (do
      step (modifyNode n fun node => { node with linkCount := inc node.linkCount })
      Prog.atomic (.addEntry dir path) (addEntry dir path n)
      step (releaseNode dir true)
      step (releaseMountPoint m true)
      step (releaseNode n true)
      step (releaseMountPoint m true)
      .ret (.ok () : Except Error Unit))
      ({.ref m dir root (.lacks path)} + ({.mref m} + E) +
        ({.ref m n false (.type type)} + {.mref m})) Nothing := by
  refine Safe.perm (r := {.mref m} + {.ref m n false (.type type)} +
    ({.ref m dir root (.lacks path)} + (E + {.mref m}))) ?_ (by ac_rfl)
  refine safe_step (does_addLink m n false _) fun _ g' hg' => ?_
  subst hg'
  refine Safe.bind (Safe.perm (safe_addEntry (r := {.mref m}) m hne hslash hlinked
    (by simp [Pool.NoConflict])) (by ac_rfl)) fun _ g' hg' => ?_
  subst hg'
  refine Safe.perm (r := {.ref m dir root .nothing} + ({.mref m} +
    ({.ref m n false (.type type)} + ({.mref m} + 0)))) ?_ (by ac_rfl)
  exact safe_releaseNode (safe_releaseMountPoint (safe_releaseNode (safe_releaseMountPoint
    (Safe.ret rfl))))

theorem safe_createHardLink (t : ThreadRef) (fuel : Nat) (path linkPath : Option Str) :
    Safe Inv owes (Pool.NoConflict owes Conflict) (createHardLink K t fuel path linkPath) 0
      Nothing := by
  unfold createHardLink
  refine safe_resolve t linkPath (fun e => rfl) fun buffer tInfo a g ha => ?_
  rw [add_zero]
  cases ha with
  | absent =>
    intro s f _ _
    trivial
  | @root m n path' buffer' =>
    refine safe_step (does_nodeType m n true .nothing) fun type g' hg' => ?_
    obtain ⟨rfl, -, hdir⟩ := hg'
    rw [if_pos (hdir rfl)]
    refine Safe.perm (r := {.ref m n true (.type type)} + ({.mref m} + 0)) ?_ (by ac_rfl)
    exact safe_releaseNode (safe_releaseMountPoint (Safe.ret rfl))
  | @node m n dir root known known' name path' buffer' =>
    refine Safe.perm (r := {.named dir name n} + ({.ref m dir root known'} +
      ({.ref m n false known} + {.mref m}))) ?_ (by ac_rfl)
    refine Safe.drop (by simp) (safe_releaseNode ?_)
    refine safe_step (does_nodeType m n false known) fun type g' hg' => ?_
    obtain ⟨rfl, -, -⟩ := hg'
    have hgive : ∀ e, Safe Inv owes (Pool.NoConflict owes Conflict) (do
        step (releaseNode n true)
        step (releaseMountPoint m true)
        fail e) ({.ref m n false (.type type)} + {.mref m}) (Nothing (α := Except Error Unit)) := by
      intro e
      refine Safe.perm (r := {.ref m n false (.type type)} + ({.mref m} + 0)) ?_ (by ac_rfl)
      exact safe_releaseNode (safe_releaseMountPoint (Safe.ret rfl))
    by_cases hdir : type = .directory
    · rw [if_pos hdir]
      exact hgive _
    · rw [if_neg hdir]
      refine Safe.perm (r := 0 + ({.ref m n false (.type type)} + {.mref m})) ?_ (by ac_rfl)
      refine safe_step (does_prepare 255 t path) fun prep g' hg' => ?_
      obtain ⟨rfl, hbuf⟩ := hg'
      cases prep with
      | error e =>
        rw [zero_add]
        exact hgive e
      | ok cleanBuffer =>
        have hacq := safe_acquirePath (K := K) tInfo false fuel cleanBuffer
          fun _ : false = true => hbuf cleanBuffer rfl
        refine safe_call hacq fun res g' hres => ?_
        cases hres with
        | error e =>
          rw [zero_add]
          exact hgive e
        | @root m₂ n₂ path₂ buffer₂ =>
          refine Safe.perm (r := {.ref m n false (.type type)} + ({.mref m} +
            ({.ref m₂ n₂ true .nothing} + ({.mref m₂} + 0)))) ?_ (by ac_rfl)
          exact safe_releaseNode (safe_releaseMountPoint (safe_releaseNode (safe_releaseMountPoint
            (Safe.ret rfl))))
        | @node m₂ n₂ dir₂ root₂ known₂ known₂' name₂ path₂ buffer₂ =>
          refine Safe.perm (r := {.named dir₂ name₂ n₂} + ({.ref m n false (.type type)} +
            ({.mref m} + ({.ref m₂ dir₂ root₂ known₂'} + ({.ref m₂ n₂ false known₂} +
              ({.mref m₂} + 0)))))) ?_ (by ac_rfl)
          exact Safe.drop (by simp) (safe_releaseNode (safe_releaseMountPoint (safe_releaseNode
            (safe_releaseNode (safe_releaseMountPoint (Safe.ret rfl))))))
        | @absent m₂ dir₂ root₂ path₂ buffer₂ E hlinked hne hslash =>
          have hback : ∀ e, Safe Inv owes (Pool.NoConflict owes Conflict) (do
              step (releaseNode n true)
              step (releaseMountPoint m true)
              step (releaseNode dir₂ true)
              step (releaseMountPoint m₂ true)
              fail e) ({.ref m₂ dir₂ root₂ (.lacks path₂)} + ({.mref m₂} + E) +
                ({.ref m n false (.type type)} + {.mref m})) (Nothing (α := Except Error Unit)) := by
            intro e
            refine Safe.perm (r := E + ({.ref m n false (.type type)} + ({.mref m} +
              ({.ref m₂ dir₂ root₂ (.lacks path₂)} + ({.mref m₂} + 0))))) ?_ (by ac_rfl)
            exact Safe.drop hlinked.key (safe_releaseNode (safe_releaseMountPoint (safe_releaseNode
              (safe_releaseMountPoint (Safe.ret rfl)))))
          rw [add_assoc]
          refine safe_step (does_permitted tInfo _ m₂ dir₂ root₂ _) fun ok g' hg' => ?_
          obtain ⟨rfl, -⟩ := hg'
          rw [← add_assoc]
          by_cases hok : (!ok) = true
          · rw [if_pos hok]
            exact hback _
          · rw [if_neg hok]
            by_cases hmp : m₂ ≠ m
            · rw [if_pos hmp]
              exact hback _
            · rw [if_neg hmp]
              obtain rfl : m₂ = m := not_not.1 hmp
              exact safe_addLink hlinked hne hslash

end Create

/-! ## Deleting entries -/

/-- `Delete` takes the link from the entry that it removes; the branch that returns with the lock
held is not reached. -/
theorem safe_delete (t : ThreadRef) (fuel : Nat) (path : Option Str) :
    Safe Inv owes (Pool.NoConflict owes Conflict) (delete K t fuel path) 0 Nothing := by
  unfold delete
  refine safe_resolve t path (fun e => rfl) fun buffer tInfo a g ha => ?_
  rw [add_zero]
  cases ha with
  | absent =>
    intro s f _ _
    trivial
  | @root m n path' buffer' =>
    refine Safe.perm (r := {.ref m n true .nothing} + ({.mref m} + 0)) ?_ (by ac_rfl)
    exact safe_releaseNode (safe_releaseMountPoint (Safe.ret rfl))
  | @node m n dir root known known' name path' buffer' hdelete =>
    obtain ⟨rfl, rfl⟩ := hdelete rfl
    refine Safe.perm (r := {.ref m dir root known'} + ({.ref m n false .nothing} +
      ({.mref m} + {.named dir (getFileName buffer') n}))) ?_ (by ac_rfl)
    refine safe_step (does_permitted tInfo _ m dir root known') fun ok g' hg' => ?_
    obtain ⟨rfl, -⟩ := hg'
    by_cases hok : (!ok) = true
    · rw [if_pos hok]
      refine Safe.perm (r := {.named dir (getFileName buffer') n} + ({.ref m dir root known'} +
        ({.ref m n false .nothing} + ({.mref m} + 0)))) ?_ (by ac_rfl)
      exact Safe.drop (by simp) (safe_releaseNode (safe_releaseNode (safe_releaseMountPoint
        (Safe.ret rfl))))
    · rw [if_neg hok]
      refine Safe.perm (r := {.mref m} + {.ref m n false .nothing} +
        ({.ref m dir root known'} + {.named dir (getFileName buffer') n})) ?_ (by ac_rfl)
      refine safe_call (safe_folderNotEmpty m n false .nothing) fun b g' hg' => ?_
      cases b with
      | true =>
        rw [if_pos rfl] at hg' ⊢
        subst hg'
        refine Safe.perm (r := {.named dir (getFileName buffer') n} + ({.ref m n false .nothing} +
          ({.ref m dir root known'} + ({.mref m} + 0)))) ?_ (by ac_rfl)
        exact Safe.drop (by simp) (safe_releaseNode (safe_releaseNode (safe_releaseMountPoint
          (Safe.ret rfl))))
      | false =>
        rw [if_neg (by simp)] at hg' ⊢
        subst hg'
        have hfree : Pool.NoConflict owes Conflict (.removeEntry dir (getFileName buffer'))
            ({.ref m n false .nothing} + {.empty n}) := by
          intro l' hl' hc
          obtain rfl : l' = .checkEmpty n := by simpa using hl'
          cases hc
        have hremove := safe_removeEntry m dir n root known' (getFileName buffer') hfree
        refine Safe.bind (Safe.perm hremove (by ac_rfl)) fun b g' hg' => ?_
        obtain ⟨rfl, rfl⟩ := hg'
        rw [if_pos rfl]
        refine Safe.perm (r := {.link n} + ({.ref m n false .nothing} + {.empty n}) +
          ({.ref m dir root known'} + {.mref m})) ?_ (by ac_rfl)
        refine safe_step (does_dropLink m n false .nothing) fun _ g' hg' => ?_
        subst hg'
        refine Safe.perm (r := {.ref m n false .nothing} + ({.ref m dir root known'} +
          ({.mref m} + 0))) ?_ (by ac_rfl)
        exact safe_releaseNode (safe_releaseNode (safe_releaseMountPoint (Safe.ret rfl)))

/-! ## Attributes -/

/-- An operation on the node itself releases the parent first. -/
theorem safe_onNode {deleteMode : Bool} {a : Acquired} {k : NodeRef → P (Except Error β)}
    {Q : Except Error β → Held → Prop} (ha : AcquiredOK deleteMode (.ok a) g)
    (hk : ∀ n root known, (deleteMode = false → root = true ∨ ∃ t, known = .type t ∧ t ≠ .symlink) →
      Safe Inv owes C (k n) ({.ref a.mp n root known} + ({.mref a.mp} + r)) Q) :
    Safe Inv owes C (match a.node with
      | none => step (M.stop .nullptr)
      | some n => do
          if let some parent := a.parent then step (releaseNode parent true)
          k n) (g + r) Q := by
  cases ha with
  | absent =>
    intro s f _ _
    trivial
  | @root m n path buffer =>
    rw [add_assoc]
    exact hk n true .nothing fun _ => Or.inl rfl
  | @node m n dir root known known' name path buffer hdelete htype =>
    refine Safe.perm (r := {.named dir name n} + ({.ref m dir root known'} +
      ({.ref m n false known} + ({.mref m} + r)))) ?_ (by ac_rfl)
    exact Safe.drop (by simp) (safe_releaseNode (hk n false known fun hmode => Or.inr (htype hmode)))

/-- The node and its mount are released. -/
theorem safe_finish {Q : α → Held → Prop} {a : α} (hQ : Q a r) :
    Safe Inv owes C (do
      step (releaseNode n true)
      step (releaseMountPoint m true)
      .ret a) ({.ref m n root known} + ({.mref m} + r)) Q :=
  safe_releaseNode (safe_releaseMountPoint (Safe.ret hQ))

theorem safe_changeNode (t : ThreadRef) (fuel : Nat) (path : Option Str) {f : Node → Node}
    (hf : ∀ node, ∃ uid gid permissions,
      f node = { node with ownerUID := uid, ownerGID := gid, permissions }) :
    Safe Inv owes C (changeNode K t fuel path f) 0 Nothing := by
  unfold changeNode
  refine safe_resolve t path (fun e => rfl) fun buffer tInfo a g ha => ?_
  refine safe_onNode ha fun n root known _ => ?_
  refine safe_step (does_getNode a.mp n root known) fun node g' hg' => ?_
  obtain ⟨rfl, -⟩ := hg'
  by_cases hown : tInfo.uid ≠ 0 ∧ tInfo.uid ≠ node.ownerUID
  · rw [if_pos hown]
    exact safe_finish rfl
  · rw [if_neg hown]
    refine safe_step (does_setAttr a.mp n root known hf) fun _ g' hg' => ?_
    subst hg'
    exact safe_finish rfl

theorem safe_changeOwner (t : ThreadRef) (fuel : Nat) (path : Option Str) (newUID newGID : Nat) :
    Safe Inv owes C (changeOwner K t fuel path newUID newGID) 0 Nothing :=
  safe_changeNode t fuel path fun _ => ⟨_, _, _, rfl⟩

theorem safe_changePermissions (t : ThreadRef) (fuel : Nat) (path : Option Str)
    (permissions : Permissions) :
    Safe Inv owes C (changePermissions K t fuel path permissions) 0 Nothing :=
  safe_changeNode t fuel path fun _ => ⟨_, _, _, rfl⟩

theorem safe_stat (t : ThreadRef) (fuel : Nat) (path : Option Str) (followSymlink : Bool) :
    Safe Inv owes C (stat K t fuel path followSymlink) 0 Nothing := by
  unfold stat
  refine safe_resolve t path (fun e => rfl) fun buffer tInfo a g ha => ?_
  refine safe_onNode ha fun n root known _ => ?_
  refine Safe.perm (r := {.mref a.mp} + {.ref a.mp n root known} + 0) ?_ (by ac_rfl)
  refine safe_step (does_readStats a.mp n root known) fun stats g' hg' => ?_
  obtain ⟨rfl, -⟩ := hg'
  refine Safe.perm (r := {.ref a.mp n root known} + ({.mref a.mp} + 0)) ?_ (by ac_rfl)
  exact safe_finish rfl

theorem safe_list (t : ThreadRef) (fuel : Nat) (path : Option Str) (numEntries : Int)
    (valid : Nat → Bool) : Safe Inv owes C (list K t fuel path numEntries valid) 0 Nothing := by
  unfold list
  refine safe_resolve t path (fun e => rfl) fun buffer tInfo a g ha => ?_
  refine safe_onNode ha fun n root known _ => ?_
  refine safe_step (does_nodeType a.mp n root known) fun type g' hg' => ?_
  obtain ⟨rfl, -, -⟩ := hg'
  by_cases hdir : type ≠ .directory
  · rw [if_pos hdir]
    exact safe_finish rfl
  · rw [if_neg hdir]
    obtain rfl : type = .directory := not_not.1 hdir
    refine safe_step (does_permitted tInfo _ a.mp n root _) fun ok g' hg' => ?_
    obtain ⟨rfl, -⟩ := hg'
    by_cases hok : (!ok) = true
    · rw [if_pos hok]
      exact safe_finish rfl
    · rw [if_neg hok]
      refine Safe.perm (r := {.mref a.mp} + {.ref a.mp n root (.type .directory)} + 0) ?_
        (by ac_rfl)
      refine safe_step (does_listEntries a.mp n root numEntries valid) fun out g' hg' => ?_
      obtain ⟨rfl, -⟩ := hg'
      refine Safe.perm (r := {.ref a.mp n root (.type .directory)} + ({.mref a.mp} + 0)) ?_
        (by ac_rfl)
      exact safe_finish rfl

/-! ## Descriptors -/

/-- `Open` hands out a descriptor or nothing. -/
def Opened : Except Error DescRef → Held → Prop
  | .error _, g => g = 0
  | .ok d, g => g = {.fd d}

/-- The references to the node and to the mount go into the descriptor. -/
theorem safe_openNode (tInfo : ThreadInfo) (m : MountRef) (n : NodeRef) (openMode : UInt64)
    (path : Str) (hknown : root = true ∨ ∃ t, known = .type t ∧ t ≠ .symlink) :
    Safe Inv owes C (openNode K tInfo m n openMode path)
      ({.ref m n root known} + ({.mref m} + 0)) Opened := by
  unfold openNode
  refine safe_step (does_permitted tInfo _ m n root known) fun ok g' hg' => ?_
  obtain ⟨rfl, -⟩ := hg'
  by_cases hok : (!ok) = true
  · rw [if_pos hok]
    exact safe_finish rfl
  · rw [if_neg hok]
    refine safe_step (does_nodeType m n root known) fun type g' hg' => ?_
    obtain ⟨rfl, hsame, hroot⟩ := hg'
    by_cases hdir : type = .directory
    · rw [if_pos hdir]
      exact safe_finish rfl
    · rw [if_neg hdir]
      obtain rfl : root = false := Bool.eq_false_iff.2 fun hr => hdir (hroot hr)
      obtain ⟨t, rfl, hsymlink⟩ := hknown.resolve_left (by simp)
      obtain rfl := hsame t rfl
      have hend : Safe Inv owes C (do
          step (releaseNode n false)
          step (releaseMountPoint m false)
          let d ← step (newDesc K
            { refCount := 1, node := n, permissions := openMode.toUInt8, pos := 0, path })
          .ret (.ok d : Except Error DescRef))
          ({.ref m n false (.type type)} + ({.mref m} + 0)) Opened := by
        refine safe_step (does_keepNode m n false _) fun _ g' hg' => ?_
        subst hg'
        refine Safe.perm (r := 0 + ({.ref m n false (.type type)} + {.mref m})) ?_ (by ac_rfl)
        refine safe_step (does_keepMountPoint m) fun _ g' hg' => ?_
        subst hg'
        refine Safe.perm (r := {.ref m n false (.type type)} + {.mref m} + 0) ?_ (by ac_rfl)
        refine safe_step (does_newDesc m n hdir hsymlink (by rfl) (by rfl) (Or.inl rfl))
          fun d g' hg' => ?_
        subst hg'
        exact Safe.ret (add_zero _)
      by_cases hclear : hasMode openMode openModeClear = true
      · rw [if_pos hclear]
        refine Safe.perm (r := {.mref m} + {.ref m n false (.type type)} + 0) ?_ (by ac_rfl)
        refine safe_step (does_clear m n false _) fun _ g' hg' => ?_
        subst hg'
        exact Safe.perm hend (by ac_rfl)
      · rw [if_neg hclear]
        exact hend

/-- The step in which `Open` makes a file, with the permissions of the folder. -/
theorem does_createIn (tInfo : ThreadInfo) (m : MountRef) (dir : NodeRef) (root : Bool)
    (known : Known) : Does (do
      let folder ← getNode dir
      createNode K m 1 (initNode .file (.file 0) folder.permissions.ofFolder tInfo))
      ({.mref m} + {.ref m dir root known}) fun n g =>
        g = {.mref m} + ({.ref m n false (.type .file)} + {.link n}) + {.ref m dir root known} := by
  intro s f hI
  have href : ∃ mp node, TempRef _ s m dir root known mp node := hI.tempRef (by simp) (by simp)
  obtain ⟨mp, folder, href⟩ := href
  rw [M.bind_ok (getNode_ok href.cell)]
  have hinit : Inits .file (.ok (initNode .file (.file 0) folder.permissions.ofFolder tInfo)) :=
    inits_initNode _ (by simp) (by simp) (by simp) tInfo
  have hcreate := does_createNode (K := K) m _ (fun f hf id => hinit.2 f hf m id) hinit.1 s
    ({.ref m dir root known} + f) (hI.perm (by ac_rfl))
  refine hcreate.mono fun n s' => ?_
  rintro ⟨g', hI', howes, rfl⟩
  exact ⟨_, hI'.perm (by ac_rfl), by simp, rfl⟩

theorem safe_open (t : ThreadRef) (fuel : Nat) (path : Option Str) (openMode : UInt64) :
    Safe Inv owes (Pool.NoConflict owes Conflict) («open» K t fuel path openMode) 0 Opened := by
  unfold «open»
  refine safe_resolve t path (fun e => rfl) fun buffer tInfo a g ha => ?_
  cases ha with
  | @root m n path' buffer' =>
    rw [add_assoc]
    dsimp only
    by_cases hexist : hasMode openMode openModeFailIfExist = true
    · rw [if_pos hexist]
      exact safe_finish rfl
    · rw [if_neg hexist]
      exact safe_openNode tInfo m n openMode buffer (Or.inl rfl)
  | @node m n dir root known known' name path' buffer' _ htype =>
    refine Safe.perm (r := {.named dir name n} + ({.ref m dir root known'} +
      ({.ref m n false known} + ({.mref m} + 0)))) ?_ (by ac_rfl)
    dsimp only
    by_cases hexist : hasMode openMode openModeFailIfExist = true
    · rw [if_pos hexist]
      exact Safe.drop (by simp) (safe_releaseNode (safe_finish rfl))
    · rw [if_neg hexist]
      exact Safe.drop (by simp) (safe_releaseNode
        (safe_openNode tInfo m n openMode buffer (Or.inr (htype rfl))))
  | @absent m dir root path' buffer' E hlinked hne hslash =>
    rw [add_zero]
    refine safe_step (does_permitted tInfo _ m dir root _) fun ok g' hg' => ?_
    obtain ⟨rfl, -⟩ := hg'
    by_cases hok : (!ok) = true
    · rw [if_pos hok]
      refine Safe.perm (r := E + ({.ref m dir root (.lacks path')} + ({.mref m} + 0))) ?_ (by ac_rfl)
      exact Safe.drop hlinked.key (safe_finish rfl)
    · rw [if_neg hok]
      refine Safe.perm (r := {.mref m} + {.ref m dir root (.lacks path')} + E) ?_ (by ac_rfl)
      refine safe_step (does_createIn tInfo m dir root _) fun n g' hg' => ?_
      subst hg'
      refine Safe.bind (Safe.perm (safe_addEntry (r := 0) m hne hslash hlinked
        (by simp [Pool.NoConflict])) (by ac_rfl)) fun _ g' hg' => ?_
      subst hg'
      refine Safe.perm (r := {.ref m dir root .nothing} + ({.ref m n false (.type .file)} +
        ({.mref m} + 0))) ?_ (by ac_rfl)
      exact safe_releaseNode (safe_openNode tInfo m n openMode buffer
        (Or.inr ⟨.file, rfl, by simp⟩))

theorem safe_close (d : DescRef) : Safe Inv owes C (close (some d)) {.fd d} Nothing := by
  unfold close
  refine Safe.perm (r := {.fd d} + 0) ?_ (by ac_rfl)
  refine safe_step (does_dropDesc d) fun o g' hg' => ?_
  cases o with
  | none =>
    subst hg'
    exact Safe.ret rfl
  | some p =>
    obtain ⟨n, m⟩ := p
    obtain ⟨t, ht, rfl⟩ := hg'
    refine Safe.perm (r := {.ref m n false .nothing} + ({t} + ({.dying d} + 0))) ?_ (by ac_rfl)
    refine safe_releaseNode ?_
    refine safe_step (does_releaseShare m ht) fun _ g' hg' => ?_
    subst hg'
    rw [zero_add]
    refine safe_step (does_deleteDesc d) fun _ g' hg' => ?_
    subst hg'
    exact Safe.ret rfl

/-- The null descriptor. -/
theorem safe_close_none : Safe Inv owes C (close none) 0 Nothing := Safe.ret rfl

theorem safe_addRef (d : DescRef) :
    Safe Inv owes C (addRef (some d)) {.fd d} fun _ g => g = {.fd d} + {.fd d} := by
  unfold addRef
  refine Safe.bind (does_addRef d).safe.weaken fun _ g' hg' => ?_
  exact Safe.ret hg'

/-- `CreatePipe` hands out two descriptors, whose references to the mount of the pipes it owes. -/
theorem safe_createPipe : Safe Inv owes C (createPipe K) 0 fun p g =>
    ∃ m, g = {.fd p.1} + {.fd p.2} + ({.debt m} + {.debt m}) := by
  unfold createPipe
  refine Safe.bind does_get_pipe.safe.weaken fun s g' hg' => ?_
  subst hg'
  set m := s.pipeMount
  refine Safe.perm (r := {.pref m} + ({.pref m} + ({.debt m} + {.debt m}))) ?_ (by ac_rfl)
  refine safe_step (does_createPipe m) fun n g' hg' => ?_
  subst hg'
  refine Safe.perm (r := {.ref m n false (.type .pipe)} + {.pref m} +
    ({.ref m n false (.type .pipe)} + {.pref m} + ({.debt m} + {.debt m}))) ?_ (by ac_rfl)
  refine safe_step (does_newDesc m n (by simp) (by simp) (by rfl) (by rfl) (Or.inr rfl))
    fun d g' hg' => ?_
  subst hg'
  refine Safe.perm (r := {.ref m n false (.type .pipe)} + {.pref m} +
    ({.fd d} + ({.debt m} + {.debt m}))) ?_ (by ac_rfl)
  refine safe_step (does_newDesc m n (by simp) (by simp) (by rfl) (by rfl) (Or.inr rfl))
    fun d' g' hg' => ?_
  subst hg'
  exact Safe.ret ⟨m, by ac_rfl⟩

/-! ## Mounts and working directories -/

/-- A `Mount` that fails leaks the file system. -/
def Mounted : Except Error Unit → Held → Prop
  | .ok _, g => g = 0
  | .error _, g => ∃ id, g = {.own id true}

theorem safe_mount (t : ThreadRef) (fuel : Nat) (mountPoint : Option Str) :
    Safe Inv owes C (mount K t fuel mountPoint) 0 Mounted := by
  unfold mount
  refine Safe.bind does_construct.safe.weaken fun id g' hg' => ?_
  subst hg'
  refine safe_resolve t mountPoint (fun e => ⟨id, rfl⟩) fun buffer tInfo a g ha => ?_
  cases ha with
  | absent =>
    intro s f _ _
    trivial
  | @root m n path buffer' =>
    rw [add_assoc]
    exact safe_finish ⟨id, rfl⟩
  | @node m n dir root known known' name path buffer' =>
    refine Safe.perm (r := {.named dir name n} + ({.ref m dir root known'} +
      ({.ref m n false known} + ({.mref m} + {.own id true})))) ?_ (by ac_rfl)
    refine Safe.drop (by simp) (safe_releaseNode ?_)
    refine safe_step (does_nodeType m n false known) fun type g' hg' => ?_
    obtain ⟨rfl, -, -⟩ := hg'
    by_cases hdir : type ≠ .directory
    · rw [if_pos hdir]
      exact safe_finish ⟨id, rfl⟩
    · rw [if_neg hdir]
      refine safe_step (does_permitted tInfo _ m n false _) fun ok g' hg' => ?_
      obtain ⟨rfl, -⟩ := hg'
      by_cases hok : (!ok) = true
      · rw [if_pos hok]
        exact safe_finish ⟨id, rfl⟩
      · rw [if_neg hok]
        refine safe_releaseNode ?_
        refine Safe.bind (does_attach m buffer' id).safe.weaken fun _ g' hg' => ?_
        subst hg'
        refine Safe.bind (does_keepMountPoint m).safe.weaken fun _ g' hg' => ?_
        exact Safe.ret hg'

/-- An `Unmount` that succeeds leaks the reference to the parent and the nodes of the file
system. -/
def Unmounted : Except Error Unit → Held → Prop
  | .ok _, g => ∃ p ids, g = {.mref p} + orphans ids
  | .error _, g => g = 0

theorem safe_unmount (t : ThreadRef) (mountPoint : Option Str) :
    Safe Inv owes Quiet (unmount t mountPoint) 0 Unmounted := by
  unfold unmount
  refine Safe.perm (r := 0 + 0) ?_ (by ac_rfl)
  refine safe_step (does_prepare 255 t mountPoint) fun prep g' hg' => ?_
  obtain ⟨rfl, -⟩ := hg'
  cases prep with
  | error e => exact Safe.ret rfl
  | ok buffer =>
    refine safe_call (safe_findMountPoint buffer) fun m g' hg' => ?_
    obtain ⟨p, -, rfl⟩ := hg'
    refine safe_step (does_getMount m p) fun mp g' hg' => ?_
    obtain ⟨-, rfl⟩ := hg'
    refine Safe.perm (r := 0 + {.mref m}) ?_ (by ac_rfl)
    refine safe_step does_get fun s g' hg' => ?_
    subst hg'
    have hgive : ∀ e, Safe Inv owes Quiet (do
        step (releaseMountPoint m true)
        fail e) {.mref m} Unmounted := by
      intro e
      refine Safe.perm (r := {.mref m} + 0) ?_ (by ac_rfl)
      exact safe_releaseMountPoint (Safe.ret rfl)
    rw [zero_add]
    by_cases hroot : m = s.rootMount
    · rw [if_pos hroot]
      exact hgive _
    · rw [if_neg hroot]
      by_cases hpath : advancePath buffer mp.path ≠ []
      · rw [if_pos hpath]
        exact hgive _
      · rw [if_neg hpath]
        refine Safe.bind (safe_detach m) fun b g' hg' => ?_
        cases b with
        | true => exact Safe.ret hg'
        | false =>
          subst hg'
          exact hgive _

/-- `CD` looks at the permissions of a node after releasing it. The node is still there: it is the
root of a mount, or its name is still in the directory. -/
theorem safe_cd (t : ThreadRef) (fuel : Nat) (path : Option Str) :
    Safe Inv owes C (cd K t fuel path) 0 Nothing := by
  unfold cd
  refine safe_resolve t path (fun e => rfl) fun buffer tInfo a g ha => ?_
  rw [add_zero]
  -- the end, once the node is known to be linked
  have hend : ∀ n tok, ((∃ m, tok = Tok.isRoot m n) ∨ ∃ dir name, tok = Tok.named dir name n) →
      Safe Inv owes C (do
        if !(← step (permitted tInfo n Permissions.execute)) then fail .permissionDenied
        else do
          step fun s => .ok ((), { s with
            threads := fun t' => if t' = t then { s.threads t with cwd := a.buffer }
              else s.threads t' })
          .ret (.ok () : Except Error Unit)) {tok} Nothing := by
    intro n tok htok
    refine Safe.bind (does_permitted_linked tInfo _ n htok).safe.weaken fun ok g' hg' => ?_
    subst hg'
    by_cases hok : (!ok) = true
    · rw [if_pos hok]
      exact Safe.ret rfl
    · rw [if_neg hok]
      refine Safe.bind (does_setThreads fun s t' => if t' = t then
        { s.threads t with cwd := a.buffer } else s.threads t').safe.weaken fun _ g' hg' => ?_
      exact Safe.ret hg'
  cases ha with
  | absent =>
    intro s f _ _
    trivial
  | @root m n path' buffer' =>
    refine safe_step (does_nodeType_root m n .nothing) fun type g' hg' => ?_
    obtain ⟨rfl, rfl⟩ := hg'
    refine Safe.perm (r := {.ref m n true (.type .directory)} + ({.mref m} + {.isRoot m n})) ?_
      (by ac_rfl)
    refine safe_releaseNode (safe_releaseMountPoint ?_)
    exact hend n _ (Or.inl ⟨m, rfl⟩)
  | @node m n dir root known known' name path' buffer' =>
    refine safe_step (does_nodeType m n false known) fun type g' hg' => ?_
    obtain ⟨rfl, -, -⟩ := hg'
    by_cases hdir : type = .directory
    · subst hdir
      refine safe_releaseNode (safe_releaseNode (safe_releaseMountPoint ?_))
      exact hend n _ (Or.inr ⟨dir, name, rfl⟩)
    · refine Safe.perm (r := {.named dir name n} + ({.ref m n false (.type type)} +
        ({.ref m dir root known'} + ({.mref m} + 0)))) ?_ (by ac_rfl)
      refine Safe.drop (by simp) (safe_releaseNode (safe_releaseNode (safe_releaseMountPoint ?_)))
      rw [if_pos hdir]
      exact Safe.ret rfl

end ChenixOS.VFS
