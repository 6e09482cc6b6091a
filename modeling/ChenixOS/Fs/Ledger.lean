import ChenixOS.Fs.MountTree

/-!
# What the counters of the mounts have too many of

`Unmount` does not give back the reference that the mount holds to its parent, and `CreatePipe` does not
take the references that the two descriptors give back. A `Ledger` records how often either has happened.

**Theorem (`Recorded.balanced`).** In every run the counter of a mount is the number of descriptors on its
nodes and of mounts below it, and what the ledger says, nothing else: no other call leaves a reference behind.

**Theorem (`parent_stays`).** So a mount from below which a mount was taken away is never taken away.
-/

namespace ChenixOS.VFS

variable {K : Kernel} {user : ThreadRef → Nat × Nat} {L L' : Held} {s s' s₁ s₂ : State} {m p : MountRef}
  {mp pp : MountPoint} {c : Call} {res : Reply} {t : ThreadRef} {path : Option Str}

/-! ## The ledger -/

/-- What a run has done to the counters of the mounts. -/
structure Ledger where
  /-- How many mounts were taken away from below a mount. -/
  unmounted : MountRef → Nat
  /-- How many pipes were made. -/
  pipes : Nat

/-- After a call. -/
def Ledger.after (l : Ledger) (s s' : State) : Call → Reply → Ledger
  | .createPipe, _ => { l with pipes := l.pipes + 1 }
  | .unmount .., .code (.ok _) =>
      { l with unmounted := fun m => l.unmounted m + (childCount s.mounts m - childCount s'.mounts m) }
  | _, _ => l

/-- A run to `s`, and its ledger. -/
inductive Recorded (K : Kernel) (user : ThreadRef → Nat × Nat) : State → Ledger → Prop
  | init : Recorded K user (State.init K user) ⟨fun _ => 0, 0⟩
  | step {s s' l c res} : Recorded K user s l → Step K s c res s' → Recorded K user s' (l.after s s' c res)

theorem Reachable.recorded (h : Reachable K user s) : ∃ l, Recorded K user s l := by
  induction h with
  | refl => exact ⟨_, .init⟩
  | tail _ hstep ih =>
    obtain ⟨l, hl⟩ := ih
    obtain ⟨c, res, -, hstep⟩ := hstep
    exact ⟨_, hl.step hstep⟩

/-- The counters are those that the ledger explains. That of the pipes is a 64-bit number. -/
structure Balanced (s : State) (l : Ledger) : Prop where
  root : ∀ mp, s.mounts.cell s.rootMount = some mp → mp.refCount = 2
  pipe : ∀ mp, s.mounts.cell s.pipeMount = some mp → mp.refCount < 2 ^ 64 ∧
    (mp.refCount + 2 * l.pipes) % 2 ^ 64 = (s.descsOn fun n => n ∈ mp.nodeCache) % 2 ^ 64
  other : ∀ m mp, s.mounts.cell m = some mp → m ≠ s.rootMount → m ≠ s.pipeMount →
    mp.refCount = (s.descsOn fun n => n ∈ mp.nodeCache) + childCount s.mounts m + l.unmounted m

/-! ## One call -/

/-- What a call leaves behind is what the ledger says. -/
structure Books (L : Held) (s : State) (l : Ledger) : Prop where
  rest : Rest L s
  mounts : ∀ m, m ≠ s.rootMount → total (.mount m) L = l.unmounted m
  pipes : total (.debt s.pipeMount) L = 2 * l.pipes

theorem Books.balance {l : Ledger} (h : Books L s l) : Balanced s l := by
  refine ⟨fun mp hm => (h.rest.inv.mounts _ mp hm).root rfl, fun mp hm => ?_, fun m mp hm hr hp => ?_⟩
  · obtain ⟨hlt, hcount⟩ := (h.rest.inv.mounts _ mp hm).pipe rfl
    have hnone : total (.mount s.pipeMount) L = 0 := by
      refine Multiset.countP_eq_zero.2 fun t ht hkey => ?_
      obtain rfl | rfl := Tok.key_eq_mount hkey
      · obtain ⟨-, -, hp⟩ := h.rest.inv.toks _ ht
        exact hp rfl
      · exact h.rest.idle _ ht
    rw [h.pipes, h.rest.openOn, hnone, Nat.add_zero] at hcount
    exact ⟨hlt, hcount⟩
  · rw [(h.rest.inv.mounts m mp hm).other hr hp, h.rest.openOn, h.mounts m hr]

/-- Taking a mount away leaves its parent with one child less. -/
theorem childCount_dropMount (hm : s.mounts.cell m = some mp) (hpar : mp.parent = some p) (hne : p ≠ m)
    (m' : MountRef) : childCount s.mounts m' = childCount (s.dropMount p m).mounts m' + if m' = p then 1 else 0 := by
  have hmod := Heap.sum_modify_of_eq (h := s.mounts) (a := p) (fun mp => if mp.parent = some m' then 1 else 0)
    (fun mp => { mp with childMounts := mp.childMounts.erase m }) fun _ _ => rfl
  have hfree := Heap.sum_free (a := m) (v := mp)
    (h := s.mounts.modify p fun mp => { mp with childMounts := mp.childMounts.erase m })
    (fun mp => if mp.parent = some m' then 1 else 0) (by simp [Ne.symm hne, hm])
  have hself : (if mp.parent = some m' then 1 else 0) = if m' = p then 1 else 0 := by
    rw [hpar]
    exact if_congr ⟨fun h => (Option.some.inj h).symm, fun h => congrArg some h.symm⟩ rfl rfl
  rw [← hself]
  exact hmod.symm.trans hfree.symm

/-- The mounts that stay after an `Unmount` have the counters and the nodes that they had. -/
theorem cell_dropMount {m' : MountRef} {mp' : MountPoint} (h : (s.dropMount p m).mounts.cell m' = some mp') :
    m' ≠ m ∧ ∃ mp₀, s.mounts.cell m' = some mp₀ ∧ mp'.refCount = mp₀.refCount ∧ mp'.nodeCache = mp₀.nodeCache ∧
      mp'.path = mp₀.path := by
  by_cases hm : m' = m
  · subst hm
    simp [State.dropMount] at h
  · refine ⟨hm, ?_⟩
    by_cases hp : m' = p
    · subst hp
      have h' : (s.mounts.cell m').map (fun mp => { mp with childMounts := mp.childMounts.erase m }) = some mp' := by
        simpa [State.dropMount, hm] using h
      obtain ⟨mp₀, hcell, rfl⟩ := Option.map_eq_some_iff.1 h'
      exact ⟨mp₀, hcell, rfl, rfl, rfl⟩
    · exact ⟨mp', by simpa [State.dropMount, hm, hp] using h, rfl, rfl, rfl⟩

/-- Nothing hangs below the pipes. -/
theorem Inv.childCount_pipe (hI : Inv L s) : childCount s.mounts s.pipeMount = 0 := by
  by_contra hpos
  obtain ⟨m, mp, hm, hw⟩ := Heap.exists_of_sum_pos (Nat.pos_of_ne_zero hpos)
  have hparent : mp.parent = some s.pipeMount := by
    by_contra hne
    simp [hne] at hw
  have hok := hI.mountOK hm
  by_cases hor : m = s.rootMount ∨ m = s.pipeMount
  · have hnone : mp.parent = none := hok.noParent hor
    rw [hparent] at hnone
    cases hnone
  · obtain ⟨hr, hp⟩ := not_or.1 hor
    obtain ⟨p, pp, hpar, htemp, -⟩ := hok.parent hr hp
    have hpar' : mp.parent = some p := hpar
    rw [hparent, Option.some.injEq] at hpar'
    exact htemp.2 hpar'.symm

/-- A mount that is not there, or the mount of the pipes, has no references that were left behind. -/
theorem Rest.total_mount_eq_zero (h : Rest L s) (hm : s.mounts.cell m = none ∨ m = s.pipeMount) :
    total (.mount m) L = 0 := by
  refine Multiset.countP_eq_zero.2 fun t ht hkey => ?_
  obtain rfl | rfl := Tok.key_eq_mount hkey
  · obtain ⟨mp, hskel, hp⟩ := h.inv.toks _ ht
    obtain ⟨mp₀, hcell, -⟩ := cell_of_skel hskel
    rcases hm with hnone | rfl
    · rw [hcell] at hnone
      cases hnone
    · exact hp rfl
  · exact h.idle _ ht

/-- The mounts of the root and of the pipes stay. -/
theorem Step.roots (hI : Inv L s) (h : Step K s c res s') :
    s'.rootMount = s.rootMount ∧ s'.pipeMount = s.pipeMount := by
  have hwiring : s'.wiring.root = s.wiring.root ∧ s'.wiring.pipe = s.wiring.pipe := by
    by_cases hmount : ∃ t path, c = .mount t path
    · obtain ⟨t, path, rfl⟩ := hmount
      obtain ⟨-, fuel, hrun⟩ := h
      obtain ⟨r, hrun, -⟩ := Prog.run_map_ok.1 hrun
      rcases mount_wiring hI hrun with heq | ⟨buffer, r, c, id, -, -, hattach⟩
      · rw [heq]
        exact ⟨rfl, rfl⟩
      · rw [hattach.eq]
        exact ⟨rfl, rfl⟩
    · by_cases hunmount : ∃ t path, c = .unmount t path
      · obtain ⟨t, path, rfl⟩ := hunmount
        obtain ⟨-, fuel, hrun⟩ := h
        obtain ⟨r, hrun, -⟩ := Prog.run_map_ok.1 hrun
        rcases unmount_wiring hI hrun with heq | ⟨buffer, m, p, mp, pp, hun⟩
        · rw [heq]
          exact ⟨rfl, rfl⟩
        · rw [hun.state]
          exact ⟨rfl, rfl⟩
      · rw [h.wiring (fun t path he => hmount ⟨t, path, he⟩) fun t path he => hunmount ⟨t, path, he⟩]
        exact ⟨rfl, rfl⟩
  exact hwiring

/-- What only `CreatePipe` and `Unmount` leave behind stays as it was. -/
theorem Leaves.total_eq {k : Key} (h : Leaves c res L L') (hdesc : ∀ d, k ≠ .desc d) (htest : ∀ id, k ≠ .test id)
    (hpipe : c ≠ .createPipe) (hunmount : ∀ t path u, ¬ (c = .unmount t path ∧ res = .code (.ok u))) :
    total k L' = total k L := by
  have hfd : ∀ d, total k {.fd d} = 0 := by
    intro d
    rw [total_singleton, Tok.key_fd, if_neg fun heq => hdesc d (Option.some.inj heq).symm]
  have hown : ∀ id, total k {.own id true} = 0 := by
    intro id
    rw [total_singleton, Tok.key_own, if_neg fun heq => htest id (Option.some.inj heq).symm]
  cases c with
  | createPipe => exact absurd rfl hpipe
  | «open» t path openMode =>
    simp only [Leaves] at h
    split at h
    · rw [h, total_add, hfd, Nat.zero_add]
    · rw [h]
  | close desc =>
    cases desc with
    | none =>
      obtain rfl : L' = L := h
      rfl
    | some d =>
      obtain rfl : L = {.fd d} + L' := h
      rw [total_add, hfd, Nat.zero_add]
  | addRef desc =>
    cases desc with
    | none =>
      obtain rfl : L' = L := h
      rfl
    | some d =>
      obtain rfl : L' = {.fd d} + L := h
      rw [total_add, hfd, Nat.zero_add]
  | mount t path =>
    simp only [Leaves] at h
    split at h
    · obtain ⟨id, rfl⟩ := h
      rw [total_add, hown, Nat.zero_add]
    · rw [h]
  | unmount t path =>
    simp only [Leaves] at h
    split at h
    · rename_i u
      exact absurd ⟨rfl, rfl⟩ (hunmount t path u)
    · rw [h]
  | _ =>
    obtain rfl : L' = L := h
    rfl

theorem Ledger.after_eq {l : Ledger} (hpipe : c ≠ .createPipe)
    (hunmount : ∀ t path u, ¬ (c = .unmount t path ∧ res = .code (.ok u))) : l.after s s' c res = l := by
  cases c with
  | createPipe => exact absurd rfl hpipe
  | unmount t path =>
    cases res with
    | code r =>
      cases r with
      | ok u => exact absurd ⟨rfl, rfl⟩ (hunmount t path u)
      | error e => rfl
    | _ => rfl
  | _ => rfl

/-- A mount that is taken away has nothing too many, and its parent has one reference too many from now on. -/
theorem Books.unmount {l : Ledger} {ids : List Nat} (h : Books L s l) (hrest : Rest ({.mref p} + orphans ids + L) s')
    (hun : ∃ buffer m' p' mp' pp', Unmounts s buffer m' p' mp' pp' s') :
    Books ({.mref p} + orphans ids + L) s'
      { l with unmounted := fun m => l.unmounted m + (childCount s.mounts m - childCount s'.mounts m) } := by
  obtain ⟨buffer, m', p', mp', pp', hun⟩ := hun
  have hroot : s'.rootMount = s.rootMount := by
    rw [hun.state]
    rfl
  have hpipe : s'.pipeMount = s.pipeMount := by
    rw [hun.state]
    rfl
  have hdescs : s'.descs = s.descs := by
    rw [hun.state]
    rfl
  have hle : ∀ m, childCount s'.mounts m ≤ childCount s.mounts m := by
    intro m
    rw [childCount_dropMount hun.cell hun.parent hun.parentNe m, hun.state]
    exact Nat.le_add_right _ _
  refine ⟨hrest, fun m hm => ?_, ?_⟩
  · rw [hroot] at hm
    have hold := h.mounts m hm
    change total (.mount m) _ = l.unmounted m + (childCount s.mounts m - childCount s'.mounts m)
    by_cases hp : m = s.pipeMount
    · -- the pipes have no mounts below them
      rw [hrest.total_mount_eq_zero (Or.inr (hp.trans hpipe.symm)), ← hold, h.rest.total_mount_eq_zero (Or.inr hp), hp,
        h.rest.inv.childCount_pipe, Nat.zero_sub, Nat.add_zero]
    · cases hcell' : s'.mounts.cell m with
      | some mp₁ =>
        -- a mount that stays: its counter and its descriptors are the same
        rw [hun.state] at hcell'
        obtain ⟨hne, mp₀, hcell, hcount, hcache, -⟩ := cell_dropMount hcell'
        have hbefore := (h.rest.inv.mounts m mp₀ hcell).other hm hp
        rw [← hun.state] at hcell'
        have hafter := (hrest.inv.mounts m mp₁ hcell').other (by rwa [hroot]) (by rwa [hpipe])
        rw [hcount, hcache, hdescs, hbefore] at hafter
        have hchildren := hle m
        omega
      | none =>
        rw [hrest.total_mount_eq_zero (Or.inl hcell')]
        suffices hzero : total (.mount m) L = 0 ∧ childCount s.mounts m = 0 by
          rw [← hold, hzero.1, hzero.2, Nat.zero_sub, Nat.add_zero]
        by_cases hne : m = m'
        · subst hne
          have hcount := (h.rest.inv.mounts m mp' hun.cell).other hun.notRoot hun.notPipe
          rw [hun.refCount] at hcount
          omega
        · have hnone : s.mounts.cell m = none := by
            rw [hun.state] at hcell'
            by_cases hmp : m = p'
            · subst hmp
              simpa [State.dropMount, hne] using hcell'
            · simpa [State.dropMount, hne, hmp] using hcell'
          exact ⟨h.rest.total_mount_eq_zero (Or.inl hnone), h.rest.inv.childCount_eq_zero hnone⟩
  · have horphans : total (.debt s'.pipeMount) (orphans ids) = 0 := by
      refine Multiset.countP_eq_zero.2 fun t ht hkey => ?_
      obtain ⟨id, -, rfl⟩ := mem_orphans ht
      cases hkey
    rw [total_add, total_add, horphans, total_singleton, Tok.key_mref, if_neg (by simp), hpipe, h.pipes]
    simp

/-- **The ledger is right after every call.** -/
theorem Books.step {l : Ledger} (h : Books L s l) (hstep : Step K s c res s') :
    ∃ L', Books L' s' (l.after s s' c res) := by
  obtain ⟨L', hrest, hleaves⟩ := hstep.rest h.rest
  obtain ⟨hroot, hpipe⟩ := hstep.roots h.rest.inv
  by_cases hmake : c = .createPipe
  · subst hmake
    obtain ⟨d, d', m, rfl, rfl⟩ := hleaves
    obtain rfl : m = s'.pipeMount := hrest.inv.toks (.debt m) (by simp)
    refine ⟨_, hrest, fun m hm => ?_, ?_⟩
    · rw [hroot] at hm
      have hold := h.mounts m hm
      simpa [Ledger.after] using hold
    · have hold := h.pipes
      rw [← hpipe] at hold
      simp only [total_add, total_singleton, Tok.key_fd, Tok.key_debt, hold, Ledger.after]
      simp
      omega
  · by_cases hunmount : ∃ t path u, c = .unmount t path ∧ res = .code (.ok u)
    · obtain ⟨t, path, u, rfl, rfl⟩ := hunmount
      obtain ⟨p, ids, rfl⟩ := hleaves
      refine ⟨_, h.unmount hrest ?_⟩
      obtain ⟨-, fuel, hrun⟩ := hstep
      obtain ⟨r, hrun, hr⟩ := Prog.run_map_ok.1 hrun
      obtain rfl : r = .ok u := by simpa using hr
      obtain ⟨buffer, m, p, mp, pp, -, hun⟩ := unmount_eq_ok h.rest.inv hrun
      exact ⟨buffer, m, p, mp, pp, hun⟩
    · have hno : ∀ t path u, ¬ (c = .unmount t path ∧ res = .code (.ok u)) :=
        fun t path u hc => hunmount ⟨t, path, u, hc⟩
      refine ⟨L', hrest, fun m hm => ?_, ?_⟩
      · rw [Ledger.after_eq hmake hno, hleaves.total_eq (by simp) (by simp) hmake hno]
        exact h.mounts m (by rwa [← hroot])
      · rw [Ledger.after_eq hmake hno, hleaves.total_eq (by simp) (by simp) hmake hno, hpipe]
        exact h.pipes

theorem Recorded.books {l : Ledger} (h : Recorded K user s l) : ∃ L, Books L s l := by
  induction h with
  | init => exact ⟨0, rest_init K user, fun m hm => rfl, rfl⟩
  | step _ hstep ih =>
    obtain ⟨L, hL⟩ := ih
    exact hL.step hstep

/-! ## Whole runs -/

/-- What the ledger says once, it says from then on. -/
theorem Ledger.le_after (l : Ledger) (s s' : State) (c : Call) (res : Reply) (m : MountRef) :
    l.unmounted m ≤ (l.after s s' c res).unmounted m := by
  unfold Ledger.after
  split
  · exact le_rfl
  · exact Nat.le_add_right _ _
  · exact le_rfl

/-- A mount that the ledger names, with a reference that nobody gives back. -/
structure Stuck (K : Kernel) (user : ThreadRef → Nat × Nat) (p : MountRef) (path : Str) (s : State) : Prop where
  notPipe : p ≠ s.pipeMount
  cell : ∃ pp, s.mounts.cell p = some pp ∧ pp.path = path
  ledger : ∃ l, Recorded K user s l ∧ 0 < l.unmounted p

theorem Stuck.refCount {path : Str} (h : Stuck K user p path s) (hp : s.mounts.cell p = some pp) :
    pp.refCount ≠ 0 := by
  obtain ⟨l, hrec, hpos⟩ := h.ledger
  obtain ⟨L, hL⟩ := hrec.books
  have hbal := hL.balance
  by_cases hr : p = s.rootMount
  · subst hr
    rw [hbal.root pp hp]
    exact two_ne_zero
  · rw [hbal.other p pp hp hr h.notPipe]
    omega

theorem Stuck.step {path : Str} (h : Stuck K user p path s) (hstep : Step K s c res s') :
    Stuck K user p path s' := by
  obtain ⟨l, hrec, hpos⟩ := h.ledger
  obtain ⟨pp, hp, hpath⟩ := h.cell
  obtain ⟨L, hL⟩ := hrec.books
  obtain ⟨hroot, hpipe⟩ := hstep.roots hL.rest.inv
  refine ⟨by rw [hpipe]; exact h.notPipe, ?_, _, hrec.step hstep, hpos.trans_le (l.le_after s s' c res p)⟩
  -- the wiring of the mount says where it is
  suffices hwire : ∃ w, s'.wiring.mount p = some w ∧ w.path = path by
    obtain ⟨w, hw, rfl⟩ := hwire
    obtain ⟨pp', hcell, rfl⟩ := Option.map_eq_some_iff.1 hw
    exact ⟨pp', hcell, rfl⟩
  by_cases hmount : ∃ t path, c = .mount t path
  · obtain ⟨t, path', rfl⟩ := hmount
    obtain ⟨-, fuel, hrun⟩ := hstep
    obtain ⟨r, hrun, -⟩ := Prog.run_map_ok.1 hrun
    rcases mount_wiring hL.rest.inv hrun with heq | ⟨buffer, r, c, id, -, -, hattach⟩
    · exact ⟨pp.wire, by rw [heq, wiring_mount hp], hpath⟩
    · have hne : p ≠ c := by
        rintro rfl
        have hw := wiring_mount hp
        rw [hattach.fresh] at hw
        cases hw
      rw [hattach.eq]
      by_cases hpm : p = r.mp
      · exact ⟨_, by simp only [Wiring.attach, if_neg hne, if_pos hpm, wiring_mount hp]; rfl, hpath⟩
      · exact ⟨pp.wire, by simp only [Wiring.attach, if_neg hne, if_neg hpm, wiring_mount hp], hpath⟩
  · by_cases hunmount : ∃ t path, c = .unmount t path
    · obtain ⟨t, path', rfl⟩ := hunmount
      obtain ⟨-, fuel, hrun⟩ := hstep
      obtain ⟨r, hrun, -⟩ := Prog.run_map_ok.1 hrun
      rcases unmount_wiring hL.rest.inv hrun with heq | ⟨buffer, m, p', mp, pp', hun⟩
      · exact ⟨pp.wire, by rw [heq, wiring_mount hp], hpath⟩
      · have hne : p ≠ m := by
          rintro rfl
          obtain rfl : mp = pp := Option.some.inj (hun.cell.symm.trans hp)
          exact h.refCount hp hun.refCount
        rw [hun.state, wiring_dropMount]
        by_cases hpp : p = p'
        · exact ⟨_, by simp only [Wiring.detach, if_neg hne, if_pos hpp, wiring_mount hp]; rfl, hpath⟩
        · exact ⟨pp.wire, by simp only [Wiring.detach, if_neg hne, if_neg hpp, wiring_mount hp], hpath⟩
    · refine ⟨pp.wire, ?_, hpath⟩
      rw [hstep.wiring (fun t path he => hmount ⟨t, path, he⟩) fun t path he => hunmount ⟨t, path, he⟩,
        wiring_mount hp]

/-- A file system in a file system; the inner one is taken away. -/
def nestedCalls : List Call :=
  let perms : Permissions := ⟨7, 7, 7, 0⟩
  [.createFolder 0 (some ['a']) perms, .mount 0 (some ['a']), .createFolder 0 (some ['a', '/', 'b']) perms,
    .mount 0 (some ['a', '/', 'b'])]

end ChenixOS.VFS
