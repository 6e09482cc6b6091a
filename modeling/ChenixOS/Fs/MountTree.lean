import ChenixOS.Fs.Sections
import ChenixOS.Fs.References

/-!
# How the mounts hang together

`Mount` hangs a mount below the one that serves its path, and `Unmount` takes one out; no other call
changes the `Wiring`. So in every reachable state the mounts are `Nested`: the path of a mount is that of
its parent with something behind it, and the search of `FindMountPoint` ends.
-/

namespace ChenixOS.VFS

variable {K : Kernel} {user : ThreadRef → Nat × Nat} {L : Held} {s s' : State} {m p c : MountRef}
  {mp pp : MountPoint} {t : ThreadRef} {fuel : Nat} {T T' : Tree} {tInfo : ThreadInfo}
  {fileHasToExist deleteMode : Bool} {path buffer : Str}

/-! ## What is resolved -/

/-- What `AcquirePath` hands out comes from its last round. -/
theorem resolve_ok {r : Tree.Resolved} (h : T.resolve tInfo fileHasToExist deleteMode fuel buffer = some (.ok r)) :
    T.mountFor r.buffer = some r.mp ∧ ∃ q, T.path r.mp = some q ∧
      T.walkFrom tInfo r.mp (advancePath r.buffer q) fileHasToExist deleteMode =
        some (.ok r.node r.parent r.path) := by
  induction fuel generalizing buffer with
  | zero => cases h
  | succ fuel ih =>
    unfold Tree.resolve at h
    cases hround : T.round tInfo fileHasToExist deleteMode buffer with
    | none =>
      rw [hround] at h
      cases h
    | some found =>
      rw [hround] at h
      obtain ⟨m, found⟩ := found
      unfold Tree.round at hround
      obtain ⟨m', hfor, hround⟩ := Option.bind_eq_some_iff.1 hround
      obtain ⟨q, hq, hround⟩ := Option.bind_eq_some_iff.1 hround
      obtain ⟨found', hwalk, hround⟩ := Option.bind_eq_some_iff.1 hround
      obtain ⟨rfl, rfl⟩ : m' = m ∧ found' = found := by simpa using hround
      cases found' with
      | error e => cases h
      | ok node parent path =>
        cases h
        exact ⟨hfor, q, hq, hwalk⟩
      | symlink id pid rest =>
        cases hlink : T.linkPath m' id with
        | none =>
          simp only [hlink] at h
          cases h
        | some linkPath =>
          simp only [hlink] at h
          split_ifs at h with hlong
          · cases h
          · exact ih h

/-- A node with a parent is not the root of its mount. -/
theorem advancePath_ne_nil {node parent : Option Nat} {m : MountRef}
    (h : T.walkFrom tInfo m path fileHasToExist deleteMode = some (.ok node parent buffer))
    (hparent : parent ≠ none) : path ≠ [] := by
  rintro rfl
  unfold Tree.walkFrom at h
  obtain ⟨root, -, h⟩ := Option.bind_eq_some_iff.1 h
  rw [if_pos rfl] at h
  cases h
  exact hparent rfl

/-- What `AcquirePath` hands out was resolved in the tree. -/
theorem acquirePath_resolved {a : Acquired} (hI : Inv L s)
    (hrun : (acquirePath K tInfo fileHasToExist false fuel buffer).run s = .ok (.ok a, s')) :
    ∃ r : Tree.Resolved, s.tree.resolve tInfo fileHasToExist false fuel buffer = some (.ok r) ∧ r.mp = a.mp ∧
      r.buffer = a.buffer ∧ (a.parent ≠ none → r.parent ≠ none) := by
  have hresolve := @acquirePath_run K L s fuel tInfo fileHasToExist false buffer hI fun h => by cases h
  cases hres : s.tree.resolve tInfo fileHasToExist false fuel buffer with
  | none =>
    rw [hres] at hresolve
    rw [hresolve] at hrun
    cases hrun
  | some res =>
    rw [hres] at hresolve
    obtain ⟨a', s₁, g, hrun', -, hhands, -⟩ := hresolve
    obtain ⟨rfl, rfl⟩ : a' = .ok a ∧ s₁ = s' := by
      rw [hrun'] at hrun
      cases hrun
      exact ⟨rfl, rfl⟩
    cases hhands with
    | @ok m node parent n p path buffer' hnode hparent =>
      refine ⟨_, rfl, rfl, rfl, fun hne hnone => hne (Option.map_eq_none_iff.1 (hparent.trans ?_))⟩
      exact congrArg (Option.map some) hnone

/-- The mount that serves a path that was resolved. -/
theorem resolve_serving {r : Tree.Resolved} (hI : Inv L s)
    (hres : s.tree.resolve tInfo fileHasToExist deleteMode fuel buffer = some (.ok r)) :
    ∃ mp, Serving s r.buffer r.mp mp ∧ (r.parent ≠ none → advancePath r.buffer mp.path ≠ []) := by
  obtain ⟨hfor, q, hq, hwalk⟩ := resolve_ok hres
  have hfind := findMountPoint_run r.buffer hI
  rw [hfor] at hfind
  obtain ⟨-, mp, hserve⟩ := hfind
  obtain rfl : mp.path = q := by simpa [hserve.cell] using hq
  exact ⟨mp, hserve, advancePath_ne_nil hwalk⟩

/-! ## The tree and the `TestNode`s -/

/-- Two trees with the same mounts search for a path alike. -/
theorem mountFor_congr (hroot : T'.root = T.root) (hpath : T'.path = T.path) (hchildren : T'.children = T.children)
    (path : Str) : T'.mountFor path = T.mountFor path := by
  have hfrom : ∀ fuel m, T'.mountFrom path fuel m = T.mountFrom path fuel m := by
    intro fuel
    induction fuel with
    | zero => exact fun _ => rfl
    | succ fuel ih =>
      intro m
      have hchild : T'.childFor path m = T.childFor path m := by rw [Tree.childFor, Tree.childFor, hpath, hchildren]
      rw [Tree.mountFrom, Tree.mountFrom, hchild]
      cases T.childFor path m with
      | none => rfl
      | some c => exact ih c
  rw [Tree.mountFor, Tree.mountFor, hroot, hfrom]

/-- What is resolved depends on the inodes of the mounts that serve paths. -/
theorem resolve_congr (hroot : T'.root = T.root) (hpath : T'.path = T.path) (hchildren : T'.children = T.children)
    (hrootNode : T'.rootNode = T.rootNode) (hnode : ∀ path m, T.mountFor path = some m → T'.node m = T.node m) :
    T'.resolve tInfo fileHasToExist deleteMode fuel buffer = T.resolve tInfo fileHasToExist deleteMode fuel buffer := by
  have hwalk : ∀ m, T'.node m = T.node m → ∀ fuel id path, T'.walk tInfo m fileHasToExist deleteMode fuel id path =
      T.walk tInfo m fileHasToExist deleteMode fuel id path := by
    intro m hm fuel
    induction fuel with
    | zero => exact fun _ _ => rfl
    | succ fuel ih =>
      intro id path
      simp only [Tree.walk, hm, ih]
  have hround : ∀ buffer, T'.round tInfo fileHasToExist deleteMode buffer = T.round tInfo fileHasToExist deleteMode buffer := by
    intro buffer
    rw [Tree.round, Tree.round, mountFor_congr hroot hpath hchildren]
    cases hfor : T.mountFor buffer with
    | none => rfl
    | some m =>
      simp only [Option.bind_eq_bind, Option.bind_some, hpath, Tree.walkFrom, hrootNode, hwalk m (hnode _ _ hfor)]
  induction fuel generalizing buffer with
  | zero => rfl
  | succ fuel ih =>
    rw [Tree.resolve, Tree.resolve, hround]
    cases hfound : T.round tInfo fileHasToExist deleteMode buffer with
    | none => rfl
    | some found =>
      obtain ⟨m, found⟩ := found
      cases found with
      | ok node parent path => rfl
      | error e => rfl
      | symlink id pid rest =>
        obtain ⟨m', hfor, hround'⟩ := Option.bind_eq_some_iff.1 hfound
        obtain ⟨q, -, hround'⟩ := Option.bind_eq_some_iff.1 hround'
        obtain ⟨found', -, hround'⟩ := Option.bind_eq_some_iff.1 hround'
        obtain rfl : m' = m := (Prod.mk.inj (Option.some.inj hround')).1
        have hlink : T'.linkPath m' id = T.linkPath m' id := by rw [Tree.linkPath, Tree.linkPath, hnode _ _ hfor]
        simp only [hlink, ih]

theorem construct_threads {id : Nat} (h : TempFS.construct K s = .ok (id, s')) : s'.threads = s.threads := by
  cases h
  rfl

/-- A `TestNode` that no mount has is not seen. -/
theorem resolve_construct {id : Nat} (hI : Inv L s) (h : TempFS.construct K s = .ok (id, s')) :
    s'.tree.resolve tInfo fileHasToExist deleteMode fuel buffer =
      s.tree.resolve tInfo fileHasToExist deleteMode fuel buffer := by
  cases h
  refine resolve_congr rfl rfl rfl rfl fun path m hfor => funext fun id => ?_
  have hserve := findMountPoint_run path hI
  rw [hfor] at hserve
  obtain ⟨-, mp, hm⟩ := hserve
  obtain ⟨tn, htn, -⟩ := (hI.mountOK hm.cell).rootTest hm.notPipe
  obtain ⟨tn₀, hcell, -⟩ := Option.map_eq_some_iff.1 htn
  have hne : mp.rootNode ≠ s.testNodes.fresh K.alloc := Heap.ne_fresh K.alloc hcell
  have hunread : ∀ s₁ : State, s₁.mounts = s.mounts →
      s₁.testNodes = s.testNodes.store (s.testNodes.fresh K.alloc) TempFS.rootTestNode →
      s₁.unread m id = s.unread m id := by
    intro s₁ hmounts htests
    unfold State.unread
    rw [hmounts, hm.cell, Option.bind_some, Option.bind_some, htests]
    split_ifs with hid
    · rw [← hid, Heap.cell_store_ne _ _ hne]
    · rfl
  exact congrArg (fun o => ((s.cached m id).or o).map Node.inode) (hunread _ rfl rfl)

/-! ## `Mount` -/

/-- With a mount `c` below `p`. -/
def Wiring.attach (w : Wiring) (p c : MountRef) (path : Str) (rootNodeID : Nat) : Wiring :=
  { w with
    mount m := if m = c then some ⟨some p, path, rootNodeID, []⟩
      else if m = p then (w.mount m).map fun x => { x with childMounts := x.childMounts ++ [c] }
      else w.mount m }

theorem attach_mount_self {w : Wiring} {id : Nat} :
    (w.attach p c path id).mount c = some ⟨some p, path, id, []⟩ := if_pos rfl

theorem wiring_mount (hm : s.mounts.cell m = some mp) : s.wiring.mount m = some mp.wire := by
  simp [State.wiring, hm]

theorem wiring_pushMount {id : Nat} (hne : p ≠ c) :
    (s.pushMount p c path id).wiring = s.wiring.attach p c path id := by
  unfold State.wiring Wiring.attach State.pushMount
  congr 1
  funext m
  by_cases hc : m = c
  · subst hc
    simp [Ne.symm hne, childMount, MountPoint.wire]
  · by_cases hp : m = p
    · subst hp
      simp [hc, Option.map_map, Function.comp_def, MountPoint.wire]
    · simp [hc, hp]

theorem attach_eq_ok {id : Nat} (hm : s.mounts.cell m = some mp) (h : attach K m path id s = .ok ((), s')) :
    s' = s.pushMount m (s.mounts.fresh K.alloc) path id := by
  cases hl : mp.childMountLock with
  | false =>
    rw [attach_ok hm hl] at h
    cases h
    rfl
  | true =>
    set s₁ : State := { s with mounts := s.mounts.store (s.mounts.fresh K.alloc) (childMount m path id) } with hs₁
    have hm₁ : s₁.mounts.cell m = some mp := by simp [hs₁, Heap.ne_fresh K.alloc hm, hm]
    have hlock : lockChildMounts m s₁ = .error .block := by
      unfold lockChildMounts
      rw [M.bind_ok (getMount_ok hm₁), if_pos hl]
      rfl
    unfold attach at h
    rw [M.bind_ok (show newMountPoint K m path id s = .ok (s.mounts.fresh K.alloc, s₁) from rfl)] at h
    change (lockChildMounts m s₁ >>= _) = _ at h
    rw [hlock] at h
    cases h

/-- The new mount hangs below the one that serves its path, and there is something of the path left. -/
structure Attaches (w : Wiring) (p c : MountRef) (path : Str) (id : Nat) (w' : Wiring) : Prop where
  fresh : w.mount c = none
  parent : ∃ x, w.mount p = some x ∧ advancePath path x.path ≠ [] ∧
    (p = w.root ∨ mountCmp path x.path = true)
  notPipe : p ≠ w.pipe
  eq : w' = w.attach p c path id

theorem mount_wiring {mountPoint : Option Str} {res : Except Error Unit} (hI : Inv L s)
    (hrun : (mount K t fuel mountPoint).run s = .ok (res, s')) :
    s'.wiring = s.wiring ∨ ∃ buffer r c id, preparePath 255 (s.threads t).cwd mountPoint = .ok (.ok buffer) ∧
      s.tree.resolve (s.threads t) true false fuel buffer = some (.ok r) ∧
      Attaches s.wiring r.mp c r.buffer id s'.wiring := by
  have hg := aloof_wiring
  have hsections : Sections K (Fixes State.wiring) := hg.sections
  unfold mount at hrun
  obtain ⟨id, s₁, hcon, hrest⟩ := run_step_ok hrun
  have hw₁ : s₁.wiring = s.wiring := hg.allocTestNode _ _ _ _ hcon
  obtain ⟨g₁, hI₁, -, rfl⟩ := (does_construct s L (by rwa [zero_add])).of_ok hcon
  obtain ⟨r, s₂, hprep, hrest⟩ := run_step_ok hrest
  obtain ⟨rfl, hpath⟩ := prepare_eq_ok hprep
  cases r with
  | error e =>
    cases hrest
    exact Or.inl hw₁
  | ok buffer =>
    simp only [onOk] at hrest
    obtain ⟨tInfo, s₃, hthread, hrest⟩ := run_step_ok hrest
    cases hthread
    obtain ⟨r, s₄, hacq, hrest⟩ := Prog.run_bind_ok.1 hrest
    have hw₄ : s₄.wiring = s.wiring := ((hsections.acquirePath fuel buffer).run_fixes hacq trivial).trans hw₁
    cases r with
    | error e =>
      cases hrest
      exact Or.inl hw₄
    | ok a =>
      have hleave : ∀ {n : NodeRef} {e : Error} {s₅ : State}, s₅.wiring = s.wiring →
          (do step (releaseNode n true)
              step (releaseMountPoint a.mp true)
              fail e : P (Except Error Unit)).run s₅ = .ok (res, s') → s'.wiring = s.wiring :=
        fun hw hrun =>
          ((hsections.leave (S := fun _ => True) _ _ (.ret _)).run_fixes hrun trivial).trans hw
      cases hnode : a.node with
      | none =>
        simp only [hnode] at hrest
        cases hrest
      | some fileNode =>
        cases hparent : a.parent with
        | none =>
          simp only [hnode, hparent] at hrest
          exact Or.inl (hleave hw₄ hrest)
        | some folderNode =>
          simp only [hnode, hparent] at hrest
          obtain ⟨_, s₅, hrel, hrest⟩ := run_step_ok hrest
          obtain ⟨type, s₆, htype, hrest⟩ := run_step_ok hrest
          have hw₆ : s₆.wiring = s.wiring :=
            ((Fixes.nodeType _ _ _ _ htype).trans (hg.releaseNode _ _ _ _ _ hrel)).trans hw₄
          split_ifs at hrest with hdir
          · exact Or.inl (hleave hw₆ hrest)
          · obtain ⟨ok, s₇, hperm, hrest⟩ := run_step_ok hrest
            have hw₇ : s₇.wiring = s.wiring := (Fixes.permitted _ _ _ _ _ _ hperm).trans hw₆
            split_ifs at hrest with hok
            · exact Or.inl (hleave hw₇ hrest)
            · obtain ⟨_, s₈, hrel₈, hrest⟩ := run_step_ok hrest
              obtain ⟨_, s₉, hattach, hrest⟩ := run_step_ok hrest
              obtain ⟨_, s₁₀, hkeep, hrest⟩ := run_step_ok hrest
              cases hrest
              have hw₈ : s₈.wiring = s.wiring := (hg.releaseNode _ _ _ _ _ hrel₈).trans hw₇
              obtain ⟨r, hres, hrmp, hrbuffer, hrparent⟩ := acquirePath_resolved hI₁ hacq
              obtain ⟨mp, hserve, hleft⟩ := resolve_serving hI₁ hres
              rw [hrmp, hrbuffer] at hserve
              rw [hrbuffer] at hleft
              have hp : s.wiring.mount a.mp = some mp.wire := hw₁ ▸ wiring_mount hserve.cell
              obtain ⟨mp₈, hm₈, -⟩ := Option.map_eq_some_iff.1 (show _ = some mp.wire from hw₈ ▸ hp)
              obtain rfl := attach_eq_ok hm₈ hattach
              have hfresh : s₈.wiring.mount (s₈.mounts.fresh K.alloc) = none := by
                simp [State.wiring, Heap.cell_fresh K.alloc s₈.mounts]
              have hthreads : s₂.threads = s.threads := construct_threads hcon
              rw [hthreads] at hpath hres
              rw [resolve_construct hI hcon] at hres
              refine Or.inr ⟨buffer, r, s₈.mounts.fresh K.alloc, id, hpath, hres, ?_⟩
              rw [hrmp, hrbuffer]
              refine ⟨hw₈ ▸ hfresh, ⟨mp.wire, hp, ?_, ?_⟩, ?_, ?_⟩
              · exact hleft (hrparent (by rw [hparent]; exact Option.some_ne_none _))
              · have hroot : s₂.rootMount = s.rootMount := congrArg Wiring.root hw₁
                exact hserve.path.imp_left fun h => h.trans hroot
              · have hpipe : s₂.pipeMount = s.pipeMount := congrArg Wiring.pipe hw₁
                exact fun h => hserve.notPipe (h.trans hpipe.symm)
              · rw [hg.blind.releaseMountPoint _ _ _ _ _ hkeep, wiring_pushMount (Heap.ne_fresh K.alloc hm₈), hw₈]

/-! ## `Unmount` -/

/-- Without the mount `m`, a child of `p`. -/
def Wiring.detach (w : Wiring) (p m : MountRef) : Wiring :=
  { w with
    mount m' := if m' = m then none
      else if m' = p then (w.mount m').map fun x => { x with childMounts := x.childMounts.erase m }
      else w.mount m' }

theorem wiring_dropMount : (s.dropMount p m).wiring = s.wiring.detach p m := by
  unfold State.wiring Wiring.detach State.dropMount
  congr 1
  funext m'
  by_cases hm : m' = m
  · subst hm
    simp
  · by_cases hp : m' = p
    · subst hp
      simp [hm, Option.map_map, Function.comp_def, MountPoint.wire]
    · simp [hm, hp]

theorem detach_false (h : detach m s = .ok (false, s')) : s'.wiring = s.wiring := by
  have hg := aloof_wiring
  unfold detach at h
  obtain ⟨mp, s₁, hget, h₁⟩ := M.bind_eq_ok h
  obtain ⟨-, rfl⟩ := getMount_eq_ok hget
  cases hparent : mp.parent with
  | none =>
    rw [hparent] at h₁
    cases h₁
  | some parent =>
    rw [hparent] at h₁
    obtain ⟨_, s₂, hlock, h₂⟩ := M.bind_eq_ok h₁
    obtain ⟨mp', s₃, hget', h₃⟩ := M.bind_eq_ok h₂
    obtain ⟨-, rfl⟩ := getMount_eq_ok hget'
    split_ifs at h₃ with href
    · obtain ⟨_, s₄, -, h₄⟩ := M.bind_eq_ok h₃
      obtain ⟨_, s₅, -, h₅⟩ := M.bind_eq_ok h₄
      cases h₅
    · obtain ⟨_, s₄, hunlock, h₄⟩ := M.bind_eq_ok h₃
      cases h₄
      exact (hg.blind.unlockChildMounts _ _ _ _ hunlock).trans (hg.blind.lockChildMounts _ _ _ _ hlock)

theorem unmount_wiring {mountPoint : Option Str} {res : Except Error Unit} (hI : Inv L s)
    (hrun : (unmount t mountPoint).run s = .ok (res, s')) :
    s'.wiring = s.wiring ∨ ∃ buffer m p mp pp, Unmounts s buffer m p mp pp s' := by
  have hg := aloof_wiring
  have hsections : Sections .plain (Fixes State.wiring) := hg.sections
  cases res with
  | ok u =>
    obtain ⟨buffer, m, p, mp, pp, -, hun⟩ := unmount_eq_ok hI hrun
    exact Or.inr ⟨buffer, m, p, mp, pp, hun⟩
  | error e =>
    left
    unfold unmount at hrun
    obtain ⟨r, s₁, hprep, hrest⟩ := run_step_ok hrun
    obtain ⟨rfl, -⟩ := prepare_eq_ok hprep
    cases r with
    | error e =>
      cases hrest
      rfl
    | ok buffer =>
      simp only [onOk] at hrest
      obtain ⟨m, s₂, hfind, hrest₂⟩ := Prog.run_bind_ok.1 hrest
      have hw₂ := (hsections.findMountPoint buffer).run_fixes hfind trivial
      obtain ⟨mp, s₃, hget, hrest₃⟩ := run_step_ok hrest₂
      obtain ⟨hm, rfl⟩ := getMount_eq_ok hget
      obtain ⟨s₄, s₅, hstate, hrest₄⟩ := run_step_ok hrest₃
      cases hstate
      have hleave : ∀ {e' : Error} {s₆ : State}, s₆.wiring = s₁.wiring →
          (do step (releaseMountPoint m true)
              fail e' : P (Except Error Unit)).run s₆ = .ok (.error e, s') → s'.wiring = s₁.wiring :=
        fun hw hrun => ((Prog.Walks.step (S := fun _ => True) (hg.blind.releaseMountPoint m true)
          fun _ => .ret _).run_fixes hrun trivial).trans hw
      split_ifs at hrest₄ with hroot hadv
      · exact hleave hw₂ hrest₄
      · exact hleave hw₂ hrest₄
      · obtain ⟨b, s₆, hdetach, hrest₅⟩ := run_step_ok hrest₄
        cases b with
        | true => cases hrest₅
        | false => exact hleave ((detach_false hdetach).trans hw₂) hrest₅

/-! ## Nested mounts -/

/-- The path of a mount is that of its parent with something behind it. -/
def Wiring.Nested (w : Wiring) : Prop :=
  ∀ m x c y, w.mount m = some x → c ∈ x.childMounts → w.mount c = some y →
    x.path.length < y.path.length ∧ (m = w.root ∨ mountCmp y.path x.path = true)

/-- Whatever hangs below a mount is a mount. -/
def Wiring.Live (w : Wiring) : Prop :=
  ∀ m x c, w.mount m = some x → c ∈ x.childMounts → ∃ y, w.mount c = some y

theorem length_lt_of_advancePath {mount : Str} (h : advancePath path mount ≠ []) :
    mount.length < path.length := by
  by_contra hle
  refine h ?_
  unfold advancePath
  rw [List.drop_eq_nil_of_le (Nat.le_of_not_lt hle)]
  rfl

theorem Attaches.nested {w w' : Wiring} {id : Nat} (h : Attaches w p c path id w') (hlive : w.Live)
    (hN : w.Nested) : w'.Nested := by
  obtain ⟨hfresh, ⟨x₀, hx₀, hleft, hserve⟩, -, rfl⟩ := h
  have hpc : p ≠ c := by
    rintro rfl
    rw [hfresh] at hx₀
    cases hx₀
  -- the paths of the mounts that were there stay
  have hold : ∀ m y, m ≠ c → (w.attach p c path id).mount m = some y →
      ∃ y₀, w.mount m = some y₀ ∧ y.path = y₀.path ∧
        (y.childMounts = y₀.childMounts ∨ m = p ∧ y.childMounts = y₀.childMounts ++ [c]) := by
    intro m y hne hy
    simp only [Wiring.attach, if_neg hne] at hy
    split_ifs at hy with hp
    · obtain ⟨y₀, hy₀, rfl⟩ := Option.map_eq_some_iff.1 hy
      exact ⟨y₀, hy₀, rfl, Or.inr ⟨hp, rfl⟩⟩
    · exact ⟨y, hy, rfl, Or.inl rfl⟩
  intro m x c' y hm hc' hy
  by_cases hmc : m = c
  · subst hmc
    obtain rfl := Option.some.inj (attach_mount_self.symm.trans hm)
    cases hc'
  · obtain ⟨x₁, hx₁, hpath, hchildren⟩ := hold m x hmc hm
    have hcold : c' ∈ x₁.childMounts → x.path.length < y.path.length ∧
        (m = w.root ∨ mountCmp y.path x.path = true) := by
      intro hmem
      obtain ⟨y₁, hy₁⟩ := hlive m x₁ c' hx₁ hmem
      have hne : c' ≠ c := by
        rintro rfl
        rw [hfresh] at hy₁
        cases hy₁
      obtain ⟨y₂, hy₂, hpath₂, -⟩ := hold c' y hne hy
      rw [hpath, hpath₂]
      exact hN m x₁ c' y₂ hx₁ hmem hy₂
    rcases hchildren with heq | ⟨rfl, heq⟩
    · exact hcold (heq ▸ hc')
    · rw [heq] at hc'
      rcases List.mem_append.1 hc' with hmem | hmem
      · exact hcold hmem
      · obtain rfl := List.mem_singleton.1 hmem
        obtain rfl := Option.some.inj (attach_mount_self.symm.trans hy)
        obtain rfl : x₁ = x₀ := Option.some.inj (hx₁.symm.trans hx₀)
        rw [hpath]
        exact ⟨length_lt_of_advancePath hleft, hserve⟩

theorem Wiring.Nested.detach {w : Wiring} (hN : w.Nested) : (w.detach p m).Nested := by
  have hold : ∀ m' y, (w.detach p m).mount m' = some y →
      ∃ y₀, w.mount m' = some y₀ ∧ y.path = y₀.path ∧ y.childMounts ⊆ y₀.childMounts := by
    intro m' y hy
    simp only [Wiring.detach] at hy
    split_ifs at hy with hm hp
    · obtain ⟨y₀, hy₀, rfl⟩ := Option.map_eq_some_iff.1 hy
      exact ⟨y₀, hy₀, rfl, List.erase_subset⟩
    · exact ⟨y, hy, rfl, List.Subset.refl _⟩
  intro m' x c y hm' hc hy
  obtain ⟨x₀, hx₀, hpath, hsub⟩ := hold m' x hm'
  obtain ⟨y₀, hy₀, hpath', -⟩ := hold c y hy
  rw [hpath, hpath']
  exact hN m' x₀ c y₀ hx₀ (hsub hc) hy₀

theorem Inv.live_wiring (hI : Inv L s) : s.wiring.Live := by
  intro m x c hm hc
  obtain ⟨mp, hcell, rfl⟩ := Option.map_eq_some_iff.1 hm
  obtain ⟨skel, hcp, -⟩ := (hI.mountOK hcell).children c hc
  obtain ⟨cp, hcell', rfl⟩ := cell_of_skel hcp.1
  exact ⟨cp.wire, wiring_mount hcell'⟩

theorem Step.nested {call : Call} {res : Reply} (hI : Inv L s) (hN : s.wiring.Nested)
    (h : Step K s call res s') : s'.wiring.Nested := by
  by_cases hmount : ∃ t path, call = .mount t path
  · obtain ⟨t, path, rfl⟩ := hmount
    obtain ⟨-, fuel, hrun⟩ := h
    obtain ⟨r, hrun, -⟩ := Prog.run_map_ok.1 hrun
    rcases mount_wiring hI hrun with heq | ⟨buffer, r, c, id, -, -, hattach⟩
    · rwa [heq]
    · exact hattach.nested hI.live_wiring hN
  · by_cases hunmount : ∃ t path, call = .unmount t path
    · obtain ⟨t, path, rfl⟩ := hunmount
      obtain ⟨-, fuel, hrun⟩ := h
      obtain ⟨r, hrun, -⟩ := Prog.run_map_ok.1 hrun
      rcases unmount_wiring hI hrun with heq | ⟨buffer, m, p, mp, pp, hun⟩
      · rwa [heq]
      · rw [hun.state, wiring_dropMount]
        exact hN.detach
    · rw [h.wiring (fun t path he => hmount ⟨t, path, he⟩) fun t path he => hunmount ⟨t, path, he⟩]
      exact hN

/-- **In every reachable state the mounts are nested.** -/
theorem Reachable.nested (h : Reachable K user s) : s.wiring.Nested := by
  induction h with
  | refl =>
    intro m x c y hm hc
    obtain ⟨mp, hcell, rfl⟩ := Option.map_eq_some_iff.1 hm
    have hskel := skel_of_cell hcell
    rcases init_skel K user hskel with ⟨-, id, heq, -⟩ | ⟨-, heq⟩
    · have hnil : mp.childMounts = [] := congrArg MountPoint.childMounts heq
      rw [show mp.wire.childMounts = [] from hnil] at hc
      cases hc
    · have hnil : mp.childMounts = [] := congrArg MountPoint.childMounts heq
      rw [show mp.wire.childMounts = [] from hnil] at hc
      cases hc
  | tail hprev hstep ih =>
    obtain ⟨call, res, -, hstep⟩ := hstep
    obtain ⟨L, hrest⟩ := Reachable.rest hprev
    exact hstep.nested hrest.inv ih

/-- The search goes down at most as often as the path has characters. -/
theorem mountFrom_isSome (hI : Inv L s) (hN : s.wiring.Nested) (hm : Serving s path m mp)
    (hfuel : path.length < fuel + mp.path.length) : (s.tree.mountFrom path fuel m).isSome := by
  induction fuel generalizing m mp with
  | zero =>
    have hle : mp.path.length ≤ path.length := by
      rcases hm.path with hr | hcmp
      · have hnil : mp.path = [] := (hI.mountOK hm.cell).path hr
        simp [hnil]
      · rcases mountCmp_iff.1 hcmp with rfl | ⟨rest, rfl⟩
        · exact le_rfl
        · simp
    omega
  | succ fuel ih =>
    unfold Tree.mountFrom
    cases hfind : s.tree.childFor path m with
    | none => rfl
    | some c =>
      obtain ⟨-, hcp, -, cp, hcell, -, hcmp⟩ := childFor_some hI hm.cell hfind
      have hmem : c ∈ mp.wire.childMounts := by
        rw [← childFor_tree hm.cell] at hfind
        exact List.mem_of_find?_eq_some hfind
      obtain ⟨hlt, -⟩ := hN m _ c _ (wiring_mount hm.cell) hmem (wiring_mount hcell)
      have hlt' : mp.path.length < cp.path.length := hlt
      exact ih ⟨hcell, hcp, Or.inr hcmp⟩ (by omega)

/-- **`FindMountPoint` ends.** -/
theorem mountFor_isSome (hI : Inv L s) (hN : s.wiring.Nested) (path : Str) : (s.tree.mountFor path).isSome := by
  obtain ⟨skel, hskel, hp⟩ := hI.shape.root
  obtain ⟨mp, hm, -⟩ := cell_of_skel hskel
  exact mountFrom_isSome hI hN ⟨hm, hp, Or.inl rfl⟩ (by omega)

end ChenixOS.VFS
