import ChenixOS.Fs.Contents

/-!
# Sequential runs

A `Call` is a call of one of the functions that `fs/VFS.h` exports, with its arguments; `Step` is
one such call, run alone until it returns. `Init` makes the first state.

Between two calls nobody holds anything but descriptors and what earlier calls have leaked: the
tokens are `Idle`. `Step.inv` says how a call changes them.
-/

namespace ChenixOS.VFS

/-! ## The first state -/

/-- `new MountPoint()` as `Init` fills it in for the root. -/
def rootMountPoint (mp : MountRef) (rootNodeID : Nat) : MountPoint where
  parent := none
  path := []
  fs := .tempFS rootNodeID (some mp)
  rootNode := rootNodeID
  childMountLock := false
  childMounts := []
  nodeCacheLock := false
  nodeCache := []
  refCount := 2

/-- `new MountPoint()` as `Init` fills it in for the pipes. -/
def pipeMountPoint : MountPoint where
  parent := none
  path := []
  fs := .pipeFS []
  rootNode := 0
  childMountLock := false
  childMounts := []
  nodeCacheLock := false
  nodeCache := []
  refCount := 0

/-- A kernel without drivers that never uses an address again. -/
def Kernel.plain : Kernel where
  alloc := .bump
  drivers _ := none
  uninit _ := 0

/-- `Init`, with a TempFS as the root. The threads begin at the root. -/
def State.init (K : Kernel) (user : ThreadRef → Nat × Nat) : State :=
  let rootNodeID := (Heap.empty : Heap TestNode).fresh K.alloc
  let mp := (Heap.empty : Heap MountPoint).fresh K.alloc
  let mounts := Heap.empty.store mp (rootMountPoint mp rootNodeID)
  let pipeMount := mounts.fresh K.alloc
  { mounts := mounts.store pipeMount pipeMountPoint
    nodes := .empty
    descs := .empty
    testNodes := Heap.empty.store rootNodeID TempFS.rootTestNode
    threads := fun t => { uid := (user t).1, gid := (user t).2, cwd := [] }
    rootMount := mp
    pipeMount
    created := [rootNodeID]
    destroyed := [] }

section Init

variable (K : Kernel) (user : ThreadRef → Nat × Nat)

theorem init_root_ne_pipe : (State.init K user).rootMount ≠ (State.init K user).pipeMount :=
  Heap.ne_fresh K.alloc (Heap.cell_store_self _ _ _)

theorem init_cell_root : ∃ id, (State.init K user).mounts.cell (State.init K user).rootMount =
      some (rootMountPoint (State.init K user).rootMount id) ∧
    (State.init K user).testNodes.cell id = some TempFS.rootTestNode ∧
    (∀ id', id' ≠ id → (State.init K user).testNodes.cell id' = none) ∧
    (State.init K user).created = [id] := by
  refine ⟨_, ?_, Heap.cell_store_self _ _ _, fun id' hid' => ?_, rfl⟩
  · exact (Heap.cell_store_ne _ _ (init_root_ne_pipe K user)).trans (Heap.cell_store_self _ _ _)
  · exact (Heap.cell_store_ne _ _ hid').trans (Heap.cell_empty _)

theorem init_cell_pipe :
    (State.init K user).mounts.cell (State.init K user).pipeMount = some pipeMountPoint :=
  Heap.cell_store_self _ _ _

theorem init_cell_other {m : MountRef} (hr : m ≠ (State.init K user).rootMount)
    (hp : m ≠ (State.init K user).pipeMount) : (State.init K user).mounts.cell m = none :=
  (Heap.cell_store_ne _ _ hp).trans ((Heap.cell_store_ne _ _ hr).trans (Heap.cell_empty _))

/-- The mounts of the first state. -/
theorem init_skel {m : MountRef} {mp : MountPoint} (h : (State.init K user).view.skel m = some mp) :
    m = (State.init K user).rootMount ∧
        (∃ id, mp = (rootMountPoint m id).skel ∧
          (State.init K user).testNodes.cell id = some TempFS.rootTestNode) ∨
      m = (State.init K user).pipeMount ∧ mp = pipeMountPoint.skel := by
  obtain ⟨mp₀, hm, rfl⟩ := cell_of_skel h
  by_cases hr : m = (State.init K user).rootMount
  · obtain ⟨id, hcell, htest, -⟩ := init_cell_root K user
    rw [hr, hcell, Option.some.injEq] at hm
    subst hm
    exact Or.inl ⟨hr, id, by rw [hr], htest⟩
  · by_cases hp : m = (State.init K user).pipeMount
    · rw [hp, init_cell_pipe, Option.some.injEq] at hm
      subst hm
      exact Or.inr ⟨hp, rfl⟩
    · rw [init_cell_other K user hr hp] at hm
      cases hm

/-- Nothing is cached yet. -/
theorem init_nodeCache {m : MountRef} {mp : MountPoint}
    (h : (State.init K user).view.skel m = some mp) : mp.nodeCache = [] := by
  rcases init_skel K user h with ⟨-, id, rfl, -⟩ | ⟨-, rfl⟩
  · rfl
  · rfl

/-- The only `TestNode` that a mount has is that of the root. -/
theorem init_has {m : MountRef} {id : Nat} (h : (State.init K user).view.Has m id) :
    m = (State.init K user).rootMount ∧
      (State.init K user).testNodes.cell id = some TempFS.rootTestNode := by
  obtain ⟨mp, ⟨hm, hpipe⟩, hid⟩ := h
  rw [init_nodeCache K user hm] at hid
  rcases init_skel K user hm with ⟨hr, id', rfl, htest⟩ | ⟨hp, -⟩
  · refine ⟨hr, ?_⟩
    rcases hid with rfl | ⟨n, hn, -⟩
    · exact htest
    · cases hn
  · exact absurd hp hpipe

theorem tests_init {id : Nat} (h : (State.init K user).testNodes.cell id = some TempFS.rootTestNode) :
    ∃ tn, (State.init K user).view.tests id = some tn ∧ RootTest tn := by
  refine ⟨_, congrArg (Option.map _) h, ?_⟩
  exact ⟨rfl, ⟨_, rfl, rfl⟩, rfl⟩

theorem shape_init : Shape (State.init K user).view := by
  obtain ⟨id, hroot, htest, -, -⟩ := init_cell_root K user
  refine ⟨⟨_, skel_of_cell hroot, init_root_ne_pipe K user⟩,
    ⟨_, skel_of_cell (init_cell_pipe K user)⟩, ?_, ?_, ?_, ?_, ?_, ?_⟩
  · intro m mp hm
    rcases init_skel K user hm with ⟨rfl, id', rfl, htest'⟩ | ⟨rfl, rfl⟩
    · exact {
        childMountLock := rfl
        nodeCacheLock := rfl
        nodup := List.nodup_nil
        live := by simp [rootMountPoint, MountPoint.skel]
        children := by simp [rootMountPoint, MountPoint.skel]
        childNodup := List.nodup_nil
        parent := fun h _ => absurd rfl h
        noParent := fun _ => rfl
        fs := fun _ => ⟨_, rfl, fun _ => rfl, fun h => absurd rfl h⟩
        pipes := fun h => absurd h (init_root_ne_pipe K user)
        rootTest := fun _ => tests_init K user htest'
        path := fun _ => rfl }
    · exact {
        childMountLock := rfl
        nodeCacheLock := rfl
        nodup := List.nodup_nil
        live := by simp [pipeMountPoint, MountPoint.skel]
        children := by simp [pipeMountPoint, MountPoint.skel]
        childNodup := List.nodup_nil
        parent := fun _ h => absurd rfl h
        noParent := fun _ => rfl
        fs := fun h => absurd rfl h
        pipes := fun _ => ⟨rfl, rfl⟩
        rootTest := fun h => absurd rfl h
        path := fun _ => rfl }
  · intro m mp m' mp' n hm hm' hn
    rw [init_nodeCache K user hm] at hn
    cases hn
  · intro m m' id' h h'
    rw [(init_has K user h).1, (init_has K user h').1]
  · intro m mp n n' id' hm hn
    rw [init_nodeCache K user hm.1] at hn
    cases hn
  · intro m id' h
    obtain ⟨tn, htn, -⟩ := tests_init K user (init_has K user h).2
    exact ⟨tn, htn⟩
  · have hslots : (State.init K user).view.slots = [] := by
      simp [State.view, init_cell_pipe K user, pipeMountPoint, FileSystem.slots]
    rw [hslots]
    rfl

/-- **The first state satisfies the invariant.** -/
theorem inv_init : Inv 0 (State.init K user) := by
  obtain ⟨id, hroot, htest, hother, hcreated⟩ := init_cell_root K user
  refine ⟨shape_init K user, by simp, ?_, ?_, ?_, ⟨by simp, ?_⟩, ?_⟩
  · intro m mp n node hm hn
    rw [init_nodeCache K user hm] at hn
    cases hn
  · intro m mp hm
    rcases init_skel K user (skel_of_cell hm) with ⟨rfl, -⟩ | ⟨rfl, -⟩
    · refine .ofRoot rfl (init_root_ne_pipe K user) ?_
      rw [hroot, Option.some.injEq] at hm
      rw [← hm]
      rfl
    · rw [init_cell_pipe, Option.some.injEq] at hm
      subst hm
      exact ⟨fun h => absurd h.symm (init_root_ne_pipe K user),
        fun _ => ⟨by simp [pipeMountPoint], rfl⟩, fun _ h => absurd rfl h⟩
  · intro d desc hd
    cases hd
  · intro id' tn' htn'
    left
    obtain rfl : id' = id := by
      by_contra hne
      simp [State.view, hother id' hne] at htn'
    exact ⟨_, _, ⟨skel_of_cell hroot, init_root_ne_pipe K user⟩, Or.inl rfl⟩
  · intro id'
    rw [hcreated]
    have hdestroyed : (State.init K user).destroyed = [] := rfl
    rw [hdestroyed]
    by_cases heq : id' = id
    · simp [heq, htest]
    · simp [hother id' heq, Ne.symm heq]

end Init

/-! ## Calls -/

/-- A call, with its arguments. `t` is the calling thread. -/
inductive Call
  | createFile (t : ThreadRef) (path : Option Str) (perms : Permissions)
  | createFolder (t : ThreadRef) (path : Option Str) (perms : Permissions)
  | createDeviceFile (t : ThreadRef) (path : Option Str) (perms : Permissions) (driverID subID : Nat)
  | createSymLink (t : ThreadRef) (path : Option Str) (perms : Permissions) (linkPath : Str)
  | createHardLink (t : ThreadRef) (path linkPath : Option Str)
  | createPipe
  | delete (t : ThreadRef) (path : Option Str)
  | changeOwner (t : ThreadRef) (path : Option Str) (newUID newGID : Nat)
  | changePermissions (t : ThreadRef) (path : Option Str) (perms : Permissions)
  | stat (t : ThreadRef) (path : Option Str) (followSymlink : Bool)
  | list (t : ThreadRef) (path : Option Str) (numEntries : Int) (valid : Nat → Bool)
  | mount (t : ThreadRef) (mountPoint : Option Str)
  | unmount (t : ThreadRef) (mountPoint : Option Str)
  | «open» (t : ThreadRef) (path : Option Str) (openMode : UInt64)
  | close (desc : Option DescRef)
  | addRef (desc : Option DescRef)
  | read (desc : Option DescRef) (user : PipeFS.UserBuffer) (bufferSize : Nat)
      (answer : Except Error Nat × PipeFS.UserBuffer)
  | write (desc : Option DescRef) (user : PipeFS.UserBuffer) (bufferSize : Nat)
      (answer : Except Error Nat)
  | seek (desc : Option DescRef) (mode : SeekMode) (offs : Nat)
  | cd (t : ThreadRef) (path : Option Str)

/-- What a call returns. -/
inductive Reply
  | code (res : Except Error Unit)
  | desc (res : Except Error DescRef)
  | pipe (descRead descWrite : DescRef)
  | stats (res : Except Error NodeStats)
  | names (res : Except Error (Int × List Str))
  | data (res : Except Error Nat × PipeFS.UserBuffer)
  | count (res : Except Error Nat)

/-- The code that a call runs. -/
def Call.prog (K : Kernel) (fuel : Nat) : Call → P Reply
  | createFile t path perms => .code <$> VFS.createFile K t fuel path perms
  | createFolder t path perms => .code <$> VFS.createFolder K t fuel path perms
  | createDeviceFile t path perms driverID subID =>
      .code <$> VFS.createDeviceFile K t fuel path perms driverID subID
  | createSymLink t path perms linkPath => .code <$> VFS.createSymLink K t fuel path perms linkPath
  | createHardLink t path linkPath => .code <$> VFS.createHardLink K t fuel path linkPath
  | createPipe => (fun p => .pipe p.1 p.2) <$> VFS.createPipe K
  | delete t path => .code <$> VFS.delete K t fuel path
  | changeOwner t path newUID newGID => .code <$> VFS.changeOwner K t fuel path newUID newGID
  | changePermissions t path perms => .code <$> VFS.changePermissions K t fuel path perms
  | stat t path followSymlink => .stats <$> VFS.stat K t fuel path followSymlink
  | list t path numEntries valid => .names <$> VFS.list K t fuel path numEntries valid
  | mount t mountPoint => .code <$> VFS.mount K t fuel mountPoint
  | unmount t mountPoint => .code <$> VFS.unmount t mountPoint
  | «open» t path openMode => .desc <$> VFS.«open» K t fuel path openMode
  | close desc => .code <$> VFS.close desc
  | addRef desc => .code <$> VFS.addRef desc
  | read desc user bufferSize answer => .data <$> VFS.read K desc user bufferSize answer
  | write desc user bufferSize answer => .count <$> VFS.write K desc user bufferSize answer
  | seek desc mode offs => .code <$> VFS.seek desc mode offs
  | cd t path => .code <$> VFS.cd K t fuel path

/-- The descriptor that a call is given. -/
def Call.desc : Call → Option DescRef
  | close desc | addRef desc | read desc .. | write desc .. | seek desc .. => desc
  | _ => none

/-- The call is run alone and returns. A descriptor it is given is one that exists. -/
def Step (K : Kernel) (s : State) (c : Call) (res : Reply) (s' : State) : Prop :=
  (∀ d, c.desc = some d → (s.descs.cell d).isSome) ∧
    ∃ fuel, (c.prog K fuel).run s = .ok (res, s')

/-- Calls one after the other, each of them allowed by `A` in the state that it finds. -/
def Run (K : Kernel) (A : State → Call → Prop) : State → State → Prop :=
  Relation.ReflTransGen fun s s' => ∃ c res, A s c ∧ Step K s c res s'

/-- A state that any calls lead to. -/
def Reachable (K : Kernel) (user : ThreadRef → Nat × Nat) (s : State) : Prop :=
  Run K (fun _ _ => True) (State.init K user) s

/-! ## Between two calls -/

/-- How a call changes the tokens that are there between calls. -/
def Leaves (c : Call) (res : Reply) (L L' : Held) : Prop :=
  match c with
  | .open .. =>
      match res with
      | .desc (.ok d) => L' = {.fd d} + L
      | _ => L' = L
  | .close (some d) => L = {.fd d} + L'
  | .addRef (some d) => L' = {.fd d} + L
  | .createPipe => ∃ d d' m, res = .pipe d d' ∧
      L' = {.fd d} + {.fd d'} + ({.debt m} + {.debt m}) + L
  | .mount .. =>
      match res with
      | .code (.error _) => ∃ id, L' = {.own id true} + L
      | _ => L' = L
  | .unmount .. =>
      match res with
      | .code (.ok _) => ∃ p ids, L' = {.mref p} + orphans ids + L
      | _ => L' = L
  | _ => L' = L

/-- The invariant between two calls. -/
structure Rest (L : Held) (s : State) : Prop where
  inv : Inv L s
  idle : ∀ t ∈ L, t.Idle

section Rest

variable {K : Kernel} {α : Type} {L g : Held} {s s' : State} {res : Reply} {c : Call} {d : DescRef}

theorem Rest.not_owes (h : Rest L s) (l : Label) : ¬ owes L l := by
  rintro ⟨t, ht, hl⟩
  have hidle := h.idle t ht
  cases t <;> simp [Tok.Idle] at hidle hl

/-- A call that is safe when nobody interferes. -/
theorem Rest.call {C : Label → Held → Prop} {p : P α} {Q : α → Held → Prop} {f : α → Reply}
    (h : Rest (g + L) s) (hC : ∀ l, C l L) (hsafe : Safe Inv owes C p g Q)
    (hrun : (f <$> p).run s = .ok (res, s')) :
    ∃ a g', res = f a ∧ Inv (g' + L) s' ∧ Q a g' := by
  obtain ⟨a, hp, rfl⟩ := Prog.run_map_ok.1 hrun
  obtain ⟨g', hI, hQ⟩ := (hsafe.run_ends h.inv hC).of_ok hp
  exact ⟨a, g', rfl, hI, hQ⟩

theorem Rest.noConflict (h : Rest L s) (l : Label) : Pool.NoConflict owes Conflict l L :=
  fun l' hl' => absurd hl' (h.not_owes l')

/-- A call that leaves nothing. -/
theorem Rest.nothing {C : Label → Held → Prop} {p : P α} {f : α → Reply} (h : Rest L s)
    (hC : ∀ l, C l L) (hsafe : Safe Inv owes C p 0 Nothing)
    (hrun : (f <$> p).run s = .ok (res, s')) : Rest L s' := by
  have hzero : Rest (0 + L) s := by rwa [zero_add]
  obtain ⟨a, g', -, hI, rfl⟩ := hzero.call hC hsafe hrun
  exact ⟨by rwa [zero_add] at hI, h.idle⟩

/-- A descriptor that exists is held by somebody. -/
theorem Rest.exists_fd (h : Rest L s) (hd : (s.descs.cell d).isSome) : ∃ L₀, L = {.fd d} + L₀ := by
  obtain ⟨desc, hdesc⟩ := Option.isSome_iff_exists.1 hd
  have hok := h.inv.descs d desc hdesc
  have hclosing : total (.closing d) L = 0 := by
    refine Multiset.countP_eq_zero.2 fun t ht hkey => ?_
    obtain rfl := Tok.key_eq_closing hkey
    exact h.idle _ ht
  have hpos : 0 < total (.desc d) L := by
    have hcount := hok.closing
    rw [hclosing] at hcount
    split_ifs at hcount with hz
    have := hok.refCount
    omega
  obtain ⟨t, ht, hkey⟩ := exists_of_total_pos hpos
  obtain rfl := Tok.key_eq_desc hkey
  obtain ⟨L₀, rfl⟩ := Multiset.exists_cons_of_mem ht
  exact ⟨L₀, (Multiset.singleton_add _ _).symm⟩

theorem rest_init (K : Kernel) (user : ThreadRef → Nat × Nat) : Rest 0 (State.init K user) :=
  ⟨inv_init K user, by simp⟩

/-- A null descriptor is refused. -/
theorem Rest.null {f : α → Reply} {a : α} (h : Rest L s)
    (hrun : (f <$> (Prog.ret a : P α)).run s = .ok (res, s')) : Rest L s' := by
  cases hrun
  exact h

/-- A call on the contents of a file. -/
theorem Rest.contents {p : P α} {f : α → Reply} (h : Rest L s)
    (hp : ∀ a, p.run s = .ok (a, s') → Inv L s') (hrun : (f <$> p).run s = .ok (res, s')) :
    Rest L s' := by
  obtain ⟨a, ha, -⟩ := Prog.run_map_ok.1 hrun
  exact ⟨hp a ha, h.idle⟩

theorem Rest.mem_fd (h : Rest L s) (hd : (s.descs.cell d).isSome) : Tok.fd d ∈ L := by
  obtain ⟨L₀, rfl⟩ := h.exists_fd hd
  simp

/-- **What a call does.** It finds the counters exact, whatever earlier calls have leaked, and
leaves them so. -/
theorem Step.rest (h : Rest L s) (hstep : Step K s c res s') :
    ∃ L', Rest L' s' ∧ Leaves c res L L' := by
  obtain ⟨hvalid, fuel, hrun⟩ := hstep
  have hzero : Rest (0 + L) s := by rwa [zero_add]
  cases c with
  | createFile t path perms =>
    exact ⟨L, h.nothing h.noConflict (safe_createFile t fuel path perms) hrun, rfl⟩
  | createFolder t path perms =>
    exact ⟨L, h.nothing h.noConflict (safe_createFolder t fuel path perms) hrun, rfl⟩
  | createDeviceFile t path perms driverID subID =>
    exact ⟨L, h.nothing h.noConflict (safe_createDeviceFile t fuel path perms driverID subID) hrun,
      rfl⟩
  | createSymLink t path perms linkPath =>
    exact ⟨L, h.nothing h.noConflict (safe_createSymLink t fuel path perms linkPath) hrun, rfl⟩
  | createHardLink t path linkPath =>
    exact ⟨L, h.nothing h.noConflict (safe_createHardLink t fuel path linkPath) hrun, rfl⟩
  | delete t path =>
    exact ⟨L, h.nothing h.noConflict (safe_delete t fuel path) hrun, rfl⟩
  | changeOwner t path newUID newGID =>
    exact ⟨L, h.nothing h.noConflict (safe_changeOwner t fuel path newUID newGID) hrun, rfl⟩
  | changePermissions t path perms =>
    exact ⟨L, h.nothing h.noConflict (safe_changePermissions t fuel path perms) hrun, rfl⟩
  | stat t path followSymlink =>
    exact ⟨L, h.nothing h.noConflict (safe_stat t fuel path followSymlink) hrun, rfl⟩
  | list t path numEntries valid =>
    exact ⟨L, h.nothing h.noConflict (safe_list t fuel path numEntries valid) hrun, rfl⟩
  | cd t path =>
    exact ⟨L, h.nothing h.noConflict (safe_cd t fuel path) hrun, rfl⟩
  | createPipe =>
    obtain ⟨p, g', rfl, hI, m, rfl⟩ := hzero.call h.noConflict safe_createPipe hrun
    refine ⟨_, ⟨hI, fun t ht => ?_⟩, p.1, p.2, m, rfl, rfl⟩
    simp only [Multiset.mem_add, Multiset.mem_singleton] at ht
    rcases ht with ((rfl | rfl) | rfl | rfl) | ht
    · trivial
    · trivial
    · trivial
    · trivial
    · exact h.idle t ht
  | mount t mountPoint =>
    obtain ⟨r, g', rfl, hI, hQ⟩ := hzero.call h.noConflict (safe_mount t fuel mountPoint) hrun
    cases r with
    | error e =>
      obtain ⟨id, rfl⟩ := hQ
      refine ⟨_, ⟨hI, fun t ht => ?_⟩, id, rfl⟩
      rcases Multiset.mem_add.1 ht with ht | ht
      · rw [Multiset.mem_singleton.1 ht]
        trivial
      · exact h.idle t ht
    | ok u =>
      obtain rfl : g' = 0 := hQ
      rw [zero_add] at hI
      exact ⟨L, ⟨hI, h.idle⟩, rfl⟩
  | unmount t mountPoint =>
    obtain ⟨r, g', rfl, hI, hQ⟩ := hzero.call (fun _ => h.idle) (safe_unmount t mountPoint) hrun
    cases r with
    | error e =>
      obtain rfl : g' = 0 := hQ
      rw [zero_add] at hI
      exact ⟨L, ⟨hI, h.idle⟩, rfl⟩
    | ok u =>
      obtain ⟨p, ids, rfl⟩ := hQ
      refine ⟨_, ⟨hI, fun t ht => ?_⟩, p, ids, rfl⟩
      simp only [Multiset.mem_add, Multiset.mem_singleton] at ht
      rcases ht with (rfl | ht) | ht
      · trivial
      · obtain ⟨id, -, rfl⟩ := mem_orphans ht
        trivial
      · exact h.idle t ht
  | «open» t path openMode =>
    obtain ⟨r, g', rfl, hI, hQ⟩ := hzero.call h.noConflict (safe_open t fuel path openMode) hrun
    cases r with
    | error e =>
      obtain rfl : g' = 0 := hQ
      rw [zero_add] at hI
      exact ⟨L, ⟨hI, h.idle⟩, rfl⟩
    | ok d =>
      obtain rfl : g' = {.fd d} := hQ
      refine ⟨_, ⟨hI, fun t ht => ?_⟩, rfl⟩
      rcases Multiset.mem_add.1 ht with ht | ht
      · rw [Multiset.mem_singleton.1 ht]
        trivial
      · exact h.idle t ht
  | close desc =>
    cases desc with
    | none => exact ⟨L, h.null hrun, rfl⟩
    | some d =>
      obtain ⟨L₀, rfl⟩ := h.exists_fd (hvalid d rfl)
      obtain ⟨r, g', rfl, hI, rfl⟩ := h.call (fun _ => trivial) (safe_close (C := Anyone) d) hrun
      rw [zero_add] at hI
      exact ⟨L₀, ⟨hI, fun t ht => h.idle t (mem_tail ht)⟩, rfl⟩
  | addRef desc =>
    cases desc with
    | none => exact ⟨L, h.null hrun, rfl⟩
    | some d =>
      obtain ⟨L₀, rfl⟩ := h.exists_fd (hvalid d rfl)
      obtain ⟨r, g', rfl, hI, rfl⟩ := h.call (fun _ => trivial) (safe_addRef (C := Anyone) d) hrun
      rw [add_assoc] at hI
      refine ⟨_, ⟨hI, fun t ht => ?_⟩, rfl⟩
      rcases Multiset.mem_add.1 ht with ht | ht
      · rw [Multiset.mem_singleton.1 ht]
        trivial
      · exact h.idle t ht
  | read desc user bufferSize answer =>
    cases desc with
    | none => exact ⟨L, h.null hrun, rfl⟩
    | some d =>
      exact ⟨L, h.contents (fun _ ha => h.inv.read (h.mem_fd (hvalid d rfl)) ha) hrun, rfl⟩
  | write desc user bufferSize answer =>
    cases desc with
    | none => exact ⟨L, h.null hrun, rfl⟩
    | some d =>
      exact ⟨L, h.contents (fun _ ha => h.inv.write (h.mem_fd (hvalid d rfl)) ha) hrun, rfl⟩
  | seek desc mode offs =>
    cases desc with
    | none => exact ⟨L, h.null hrun, rfl⟩
    | some d =>
      exact ⟨L, h.contents (fun _ ha => h.inv.seek (h.mem_fd (hvalid d rfl)) ha) hrun, rfl⟩

/-- **Every reachable state satisfies the invariant.** -/
theorem Run.rest {A : State → Call → Prop} (h : Rest L s) (hrun : Run K A s s') :
    ∃ L', Rest L' s' := by
  induction hrun with
  | refl => exact ⟨L, h⟩
  | tail _ hstep ih =>
    obtain ⟨L₁, h₁⟩ := ih
    obtain ⟨c, res, -, hstep⟩ := hstep
    obtain ⟨L₂, h₂, -⟩ := hstep.rest h₁
    exact ⟨L₂, h₂⟩

end Rest

/-! ## Runs that are computed -/

/-- The calls one after the other, each following at most `fuel` links; `none` if one of them is given
a descriptor that is not there, or does not return. -/
def play (K : Kernel) (fuel : Nat) : List Call → State → Option (List Reply × State)
  | [], s => some ([], s)
  | c :: calls, s =>
      if c.desc.all fun d => (s.descs.cell d).isSome then
        match (c.prog K fuel).run s with
        | .ok (res, s') => (play K fuel calls s').map fun p => (res :: p.1, p.2)
        | .error _ => none
      else none

theorem run_of_play_of {K : Kernel} {A : State → Call → Prop} {fuel : Nat} {calls : List Call} {s s' : State}
    {replies : List Reply} (hA : ∀ c ∈ calls, ∀ s, A s c) (h : play K fuel calls s = some (replies, s')) :
    Run K A s s' := by
  induction calls generalizing s replies with
  | nil =>
    cases h
    exact .refl
  | cons c calls ih =>
    unfold play at h
    split_ifs at h with hvalid
    cases hrun : (c.prog K fuel).run s with
    | error e =>
      rw [hrun] at h
      cases h
    | ok p =>
      obtain ⟨res, s₁⟩ := p
      simp only [hrun, Option.map_eq_some_iff] at h
      obtain ⟨⟨replies', s₂⟩, hplay, heq⟩ := h
      cases heq
      have hrest := ih (fun c' hc' => hA c' (List.mem_cons_of_mem c hc')) hplay
      refine Relation.ReflTransGen.head ⟨c, res, hA c List.mem_cons_self s, fun d hd => ?_, fuel, hrun⟩ hrest
      simpa [hd] using hvalid

theorem run_of_play {K : Kernel} {fuel : Nat} {calls : List Call} {s s' : State} {replies : List Reply}
    (h : play K fuel calls s = some (replies, s')) : Run K (fun _ _ => True) s s' :=
  run_of_play_of (fun _ _ _ => trivial) h

end ChenixOS.VFS
