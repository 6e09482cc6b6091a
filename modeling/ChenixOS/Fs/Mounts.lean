import ChenixOS.Fs.Descriptors

/-!
# Mounts that come and go

`Mount` hangs a new mount below the one that serves its path; the reference that `AcquirePath`
took on the parent is now the child's. `Unmount` takes a mount out of the tree when nothing else
refers to it. It leaves two things behind: the `TestNode`s of the file system, which are not
freed, and the child's reference to its parent, which is not given back.
-/

namespace ChenixOS.VFS

variable {K : Kernel} {H H' : Held} {s : State} {n : NodeRef} {m c p : MountRef} {d : DescRef}
  {id r : Nat} {node : Node} {mp pp : MountPoint} {path : Str} {t : Tok}

/-! ## A new mount -/

/-- The view with the new mount `c` below `m`. -/
def View.attach (v : View) (m c : MountRef) (new : MountPoint) : View :=
  { v with
    skel := fun m' => if m' = c then some new else (v.skel m').map fun mp =>
      { mp with childMounts := if m' = m then mp.childMounts ++ [c] else mp.childMounts } }

theorem view_pushMount (hm : s.mounts.cell m = some mp) (hc : s.mounts.cell c = none) :
    (s.pushMount m c path r).view = s.view.attach m c (childMount m path r) := by
  have hne : m ≠ c := by
    rintro rfl
    rw [hm] at hc
    cases hc
  unfold State.view View.attach
  congr 1
  · funext m'
    by_cases heq : m' = c
    · subst heq
      simp [State.pushMount, Ne.symm hne, MountPoint.skel, childMount]
    · by_cases heq' : m' = m
      · subst heq'
        simp [State.pushMount, heq, hm, MountPoint.skel]
      · cases hm' : s.mounts.cell m' <;> simp [State.pushMount, heq, heq', hm', MountPoint.skel]
  · by_cases heq : s.pipeMount = c
    · simp [State.pushMount, heq, hc, Ne.symm hne, childMount, FileSystem.slots]
    · by_cases heq' : s.pipeMount = m
      · simp [State.pushMount, heq', hm, hne]
      · simp [State.pushMount, heq, heq']

section Attach

variable {v : View} {new : MountPoint}

theorem attach_skel {m' : MountRef} {mp' : MountPoint} :
    (v.attach m c new).skel m' = some mp' ↔ m' = c ∧ mp' = new ∨
      m' ≠ c ∧ ∃ mp₀, v.skel m' = some mp₀ ∧ mp' = { mp₀ with
        childMounts := if m' = m then mp₀.childMounts ++ [c] else mp₀.childMounts } := by
  by_cases heq : m' = c
  · simp [View.attach, heq, eq_comm]
  · simp only [View.attach, heq, if_false, false_and, false_or, Option.map_eq_some_iff, ne_eq,
      not_false_eq_true, true_and]
    refine ⟨fun h => ?_, fun h => ?_⟩
    · obtain ⟨mp₀, h₀, rfl⟩ := h
      exact ⟨mp₀, h₀, rfl⟩
    · obtain ⟨mp₀, h₀, rfl⟩ := h
      exact ⟨mp₀, h₀, rfl⟩

theorem attach_skel_of {m' : MountRef} {mp₀ : MountPoint} (hc : v.skel c = none)
    (h : v.skel m' = some mp₀) : (v.attach m c new).skel m' = some { mp₀ with
      childMounts := if m' = m then mp₀.childMounts ++ [c] else mp₀.childMounts } := by
  refine attach_skel.2 (Or.inr ⟨?_, mp₀, h, rfl⟩)
  rintro rfl
  rw [hc] at h
  cases h

theorem attach_skel_self : (v.attach m c new).skel c = some new :=
  attach_skel.2 (Or.inl ⟨rfl, rfl⟩)

/-- The new mount has its root, the others have what they had. -/
theorem attach_has (hnew : new.nodeCache = []) {m' : MountRef} {id' : Nat} :
    (v.attach m c new).Has m' id' → v.Has m' id' ∨ m' = c ∧ id' = new.rootNode := by
  intro hhas
  obtain ⟨mp', ⟨hm', hp'⟩, hor⟩ := hhas
  rcases attach_skel.1 hm' with ⟨rfl, rfl⟩ | ⟨-, mp₀, hm₀, rfl⟩
  · rcases hor with hroot | ⟨n', hn', -⟩
    · exact Or.inr ⟨rfl, hroot.symm⟩
    · rw [hnew] at hn'
      cases hn'
  · exact Or.inl ⟨mp₀, ⟨hm₀, hp'⟩, hor⟩

theorem View.Has.attach (hc : v.skel c = none) {m' : MountRef} {id' : Nat} (hhas : v.Has m' id') :
    (v.attach m c new).Has m' id' := by
  obtain ⟨mp', ⟨hm', hp'⟩, hor⟩ := hhas
  exact ⟨_, ⟨attach_skel_of hc hm', hp'⟩, hor⟩

/-- The two mounts that are always there. -/
theorem Shape.ne_of_none (h : Shape v) (hc : v.skel c = none) : c ≠ v.root ∧ c ≠ v.pipe := by
  constructor
  · rintro rfl
    obtain ⟨mp, hr, -⟩ := h.root
    rw [hc] at hr
    cases hr
  · rintro rfl
    obtain ⟨mp, hp⟩ := h.pipe
    rw [hc] at hp
    cases hp

theorem Shape.attach (h : Shape v) (hm : v.Temp m mp) (hc : v.skel c = none)
    (hnew : new = childMount m path r) (hroot : ∃ tn, v.tests r = some tn ∧ RootTest tn)
    (hfree : ∀ m', ¬ v.Has m' r) : Shape (v.attach m c new) := by
  obtain ⟨hcr, hcp⟩ := h.ne_of_none hc
  have hmc : m ≠ c := by
    rintro rfl
    have hskel := hm.1
    rw [hc] at hskel
    cases hskel
  refine ⟨?_, ?_, ?_, ?_, ?_, ?_, ?_, h.slots⟩
  · obtain ⟨mp', hr, hp⟩ := h.root
    exact ⟨_, attach_skel_of hc hr, hp⟩
  · obtain ⟨mp', hp⟩ := h.pipe
    exact ⟨_, attach_skel_of hc hp⟩
  · intro m' mp' hm'
    rcases attach_skel.1 hm' with ⟨rfl, rfl⟩ | ⟨hne, mp₀, hm₀, rfl⟩
    · subst hnew
      exact {
        childMountLock := rfl
        nodeCacheLock := rfl
        nodup := List.nodup_nil
        live := fun n hn => by cases hn
        children := fun c hc => by cases hc
        childNodup := List.nodup_nil
        parent := fun _ _ => ⟨m, _, rfl, ⟨attach_skel_of hc hm.1, hm.2⟩, by simp, hmc⟩
        noParent := fun hor => by
          rcases hor with hor | hor
          · exact absurd hor hcr
          · exact absurd hor hcp
        fs := fun _ => ⟨m, rfl, fun hr => absurd hr hcr, fun _ => rfl⟩
        pipes := fun hp => absurd hp hcp
        rootTest := fun _ => hroot
        path := fun hr => absurd hr hcr }
    · have hold := h.mount m' mp₀ hm₀
      refine { hold with
        children := ?_
        childNodup := ?_
        parent := ?_
        pipes := ?_ }
      · intro c' hc'
        have hcases : c' ∈ mp₀.childMounts ∨ m' = m ∧ c' = c := by
          by_cases heq : m' = m
          · simpa [heq] using hc'
          · simpa [heq] using hc'
        rcases hcases with hc' | ⟨rfl, rfl⟩
        · obtain ⟨cp, hcp', hcroot, hcpar⟩ := hold.children c' hc'
          exact ⟨_, ⟨attach_skel_of hc hcp'.1, hcp'.2⟩, hcroot, hcpar⟩
        · exact ⟨new, ⟨attach_skel_self, hcp⟩, hcr, by rw [hnew]; rfl⟩
      · by_cases heq : m' = m
        · simp only [heq, if_true]
          rw [List.nodup_append]
          refine ⟨hold.childNodup, by simp, fun a ha b hb => ?_⟩
          rw [List.mem_singleton.1 hb]
          rintro rfl
          obtain ⟨cp, ⟨hskel, -⟩, -⟩ := hold.children a ha
          rw [hc] at hskel
          cases hskel
        · simpa [heq] using hold.childNodup
      · intro hr hp
        obtain ⟨q, qp, hparent, hqp, hmem, hqne⟩ := hold.parent hr hp
        refine ⟨q, _, hparent, ⟨attach_skel_of hc hqp.1, hqp.2⟩, ?_, hqne⟩
        by_cases heq : q = m <;> simp [heq, hmem]
      · intro hp
        obtain ⟨hfs, hchildren⟩ := hold.pipes hp
        have heq : m' ≠ m := fun heq => hm.2 (heq ▸ hp)
        exact ⟨hfs, by simpa [heq] using hchildren⟩
  · intro m₁ mp₁ m₂ mp₂ n' h₁ h₂ hn₁ hn₂
    have hcache : new.nodeCache = [] := by rw [hnew]; rfl
    rcases attach_skel.1 h₁ with ⟨rfl, rfl⟩ | ⟨-, mp₁', hm₁, rfl⟩
    · rw [hcache] at hn₁
      cases hn₁
    rcases attach_skel.1 h₂ with ⟨rfl, rfl⟩ | ⟨-, mp₂', hm₂, rfl⟩
    · rw [hcache] at hn₂
      cases hn₂
    exact h.disjoint m₁ mp₁' m₂ mp₂' n' hm₁ hm₂ hn₁ hn₂
  · have hcache : new.nodeCache = [] := by rw [hnew]; rfl
    have hrn : new.rootNode = r := by rw [hnew]; rfl
    intro m₁ m₂ id' h₁ h₂
    rcases attach_has hcache h₁ with h₁' | ⟨rfl, rfl⟩
    · rcases attach_has hcache h₂ with h₂' | ⟨rfl, rfl⟩
      · exact h.has m₁ m₂ id' h₁' h₂'
      · exact absurd (hrn ▸ h₁') (hfree m₁)
    · rcases attach_has hcache h₂ with h₂' | ⟨rfl, -⟩
      · exact absurd (hrn ▸ h₂') (hfree m₂)
      · rfl
  · intro m' mp' n₁ n₂ id' hm' hn₁ hn₂ hid₁ hid₂
    rcases attach_skel.1 hm'.1 with ⟨rfl, rfl⟩ | ⟨-, mp₀, hm₀, rfl⟩
    · rw [hnew] at hn₁
      cases hn₁
    · exact h.inj m' mp₀ n₁ n₂ id' ⟨hm₀, hm'.2⟩ hn₁ hn₂ hid₁ hid₂
  · intro m' id' hhas
    rcases attach_has (by rw [hnew]; rfl) hhas with hold | ⟨-, rfl⟩
    · exact h.alive m' id' hold
    · obtain ⟨tn, htn, -⟩ := hroot
      exact ⟨tn, by rw [hnew]; exact htn⟩

theorem TokOK.attach {descs : Heap FileDescriptor} (hc : v.skel c = none)
    (ht : TokOK v descs t)
    (hown : ∀ id' fresh, t = .own id' fresh → ∀ m', ¬ (v.attach m c new).Has m' id') :
    TokOK (v.attach m c new) descs t := by
  cases t with
  | ref m' n' root known =>
    obtain ⟨mp₀, hm', hmem, hroot, hknown⟩ := ht
    refine ⟨_, attach_skel_of hc hm', hmem, hroot, ?_⟩
    cases known <;> exact hknown
  | mref m' =>
    obtain ⟨mp₀, hm', hp'⟩ := ht
    exact ⟨_, attach_skel_of hc hm', hp'⟩
  | pref m' => exact ht
  | debt m' => exact ht
  | link n' =>
    obtain ⟨m', mp₀, ⟨hm', hp'⟩, hmem⟩ := ht
    exact ⟨m', _, ⟨attach_skel_of hc hm', hp'⟩, hmem⟩
  | fd d => exact ht
  | dying d => exact ht
  | own id' fresh => exact ⟨ht.1, hown id' fresh rfl⟩
  | sees m' dir name id' =>
    obtain ⟨mp₀, ⟨hm', hp'⟩, hmem, hentry⟩ := ht
    exact ⟨_, ⟨attach_skel_of hc hm', hp'⟩, hmem, hentry⟩
  | named dir name n' =>
    obtain ⟨m', mp₀, id', ⟨hm', hp'⟩, hdir, hmem, hid', hentry⟩ := ht
    exact ⟨m', _, id', ⟨attach_skel_of hc hm', hp'⟩, hdir, hmem, hid', hentry⟩
  | empty n' => exact ht
  | isRoot m' n' =>
    obtain ⟨mp₀, ⟨hm', hp'⟩, hmem, hid'⟩ := ht
    exact ⟨_, ⟨attach_skel_of hc hm', hp'⟩, hmem, hid'⟩
  | «at» m' path =>
    obtain ⟨mp₀, hm', hpath⟩ := ht
    exact ⟨_, attach_skel_of hc hm', hpath⟩

end Attach

/-- No mount hangs below one that is not there. -/
theorem Inv.childCount_eq_zero (h : Inv H s) (hc : s.mounts.cell c = none) :
    childCount s.mounts c = 0 := by
  by_contra hpos
  obtain ⟨m, mp, hm, hw⟩ := Heap.exists_of_sum_pos (Nat.pos_of_ne_zero hpos)
  have hparent : mp.parent = some c := by
    by_contra hne
    simp [hne] at hw
  have hok := h.mountOK hm
  have hnone : ¬ (m = s.rootMount ∨ m = s.pipeMount) := by
    intro hor
    have := hok.noParent hor
    rw [skel_parent, hparent] at this
    cases this
  rw [not_or] at hnone
  obtain ⟨p, pp, hp, hpp, -⟩ := hok.parent hnone.1 hnone.2
  rw [skel_parent, hparent, Option.some.injEq] at hp
  subst hp
  obtain ⟨pp₀, hcell, -⟩ := cell_of_skel hpp.1
  rw [hc] at hcell
  cases hcell

/-- **A new mount.** The reference to the parent and the file system's root become the mount's. -/
theorem Inv.pushMount (h : Inv ({.mref m} + ({.own r true} + H)) s)
    (hm : s.mounts.cell m = some mp) (hc : s.mounts.cell c = none) :
    Inv H (s.pushMount m c path r) := by
  obtain ⟨mp', hmp', hmpipe⟩ := h.toks _ (mem_head _ _)
  obtain ⟨⟨tn, htn, hroot⟩, hfree⟩ := h.toks _ (mem_tail (mem_head _ H))
  have hview : (s.pushMount m c path r).view = s.view.attach m c (childMount m path r) :=
    view_pushMount hm hc
  have hskelc : s.view.skel c = none := by simp [State.view, hc]
  have htail : ∀ t ∈ H, TokOK s.view s.descs t := fun t ht => h.toks t (mem_tail (mem_tail ht))
  have honce := h.owned.once r
  simp at honce
  have hcm : c ≠ m := by
    rintro rfl
    rw [hm] at hc
    cases hc
  refine ⟨?_, ?_, ?_, ?_, ?_, ?_, h.history⟩
  · rw [hview]
    exact h.shape.attach ⟨hmp', hmpipe⟩ hskelc rfl ⟨tn, htn, hroot rfl⟩ hfree
  · rw [hview]
    intro t ht
    refine (htail t ht).attach hskelc fun id' fresh heq m' hhas => ?_
    subst heq
    rcases attach_has rfl hhas with hold | ⟨-, hid'⟩
    · exact (htail _ ht).2 m' hold
    · have hpos : 0 < total (.test r) H := total_pos ht (by rw [hid']; rfl)
      omega
  · rw [hview]
    intro m' mp' n node hm' hn hnode
    rcases attach_skel.1 hm' with ⟨rfl, rfl⟩ | ⟨-, mp₀, hm₀, rfl⟩
    · cases hn
    · have hok : NodeOK H s.view s.descs m' mp₀ n node :=
        (h.nodes m' mp₀ n node hm₀ hn hnode).congr (by simp) (by simp)
      refine { hok with temp := fun hp => ?_, pipe := fun hp => { hok.pipe hp with } }
      have htemp := hok.temp hp
      exact { htemp with entry := fun e he => { htemp.entry e he with } }
  · intro m' mp' hm'
    have hsum : childCount (s.pushMount m c path r).mounts m' =
        childCount s.mounts m' + if m' = m then 1 else 0 := by
      have hstore := Heap.sum_store (fun mp => if mp.parent = some m' then 1 else 0)
        (childMount m path r) hc
      have hmod := Heap.sum_modify_of_eq (h := s.mounts.store c (childMount m path r)) (a := m)
        (fun mp => if mp.parent = some m' then 1 else 0)
        (fun mp => { mp with childMounts := mp.childMounts ++ [c] }) fun _ _ => rfl
      have hpar : (childMount m path r).parent = some m := rfl
      rw [hpar] at hstore
      simp only [Option.some.injEq, eq_comm (a := m)] at hstore
      exact hmod.trans hstore
    by_cases heq : m' = c
    · subst heq
      obtain rfl : childMount m path r = mp' := by
        simpa [State.pushMount, hcm] using hm'
      obtain ⟨hnr, hnp⟩ := h.shape.ne_of_none hskelc
      have hnoref : total (.mount m') H = 0 := by
        by_contra hpos
        obtain ⟨t, ht, hk⟩ := exists_of_total_pos (Nat.pos_of_ne_zero hpos)
        rcases Tok.key_eq_mount hk with rfl | rfl
        · obtain ⟨mp₀, hm₀, -⟩ := htail _ ht
          rw [hskelc] at hm₀
          cases hm₀
        · exact hnp (htail _ ht)
      refine .ofOther hnr hnp ?_
      rw [hsum, h.childCount_eq_zero hc, hnoref]
      have hopen : openOn (s.pushMount m m' path r).descs
          (fun n => n ∈ (childMount m path r).nodeCache) = 0 :=
        openOn_eq_zero fun _ _ _ _ => by simp [childMount]
      rw [hopen, if_neg hcm]
      rfl
    · by_cases heq' : m' = m
      · subst heq'
        obtain rfl : { mp with childMounts := mp.childMounts ++ [c] } = mp' := by
          simpa [State.pushMount, heq, hm] using hm'
        have hold := h.mounts m' mp hm
        refine ⟨hold.root, fun hp => absurd hp hmpipe, fun hr hp => ?_⟩
        have hother := hold.other hr hp
        simp at hother
        rw [hsum, if_pos rfl]
        show mp.refCount = openOn s.descs (fun n => n ∈ mp.nodeCache) + _ + _
        omega
      · have hold := h.mounts m' mp' (by simpa [State.pushMount, heq, heq'] using hm')
        refine hold.congr rfl rfl rfl (by rw [hsum, if_neg heq', Nat.add_zero]) ?_ ?_
        · simp [Ne.symm heq']
        · simp
  · rw [hview]
    intro d desc hd
    have hold : DescOK H s.view d desc := (h.descs d desc hd).congr (by simp) (by simp)
    refine { hold with cached := fun hz => ?_ }
    obtain ⟨m', mp₀, hm₀, hmem, hnr⟩ := hold.cached hz
    exact ⟨m', _, attach_skel_of hskelc hm₀, hmem, hnr⟩
  · rw [hview]
    refine ⟨fun id' => ?_, fun id' tn' htn' => ?_⟩
    · have hold := h.owned.once id'
      simp at hold
      omega
    · rcases h.owned.owner id' tn' htn' with ⟨m', hhas⟩ | hown
      · exact Or.inl ⟨m', hhas.attach hskelc⟩
      · by_cases heq : r = id'
        · subst heq
          have hnp := (h.shape.ne_of_none hskelc).2
          exact Or.inl ⟨c, _, ⟨attach_skel_self, hnp⟩, Or.inl rfl⟩
        · right
          simpa [heq] using hown

/-! ## A mount that goes -/

/-- The tokens that are there between two calls: descriptors, and what was lost. -/
def Tok.Idle : Tok → Prop
  | .fd _ | .mref _ | .debt _ | .own .. => True
  | _ => False

/-- The view without the mount `m`, which was a child of `p`. -/
def View.detach (v : View) (p m : MountRef) : View :=
  { v with
    skel := fun m' => if m' = m then none else (v.skel m').map fun mp =>
      { mp with childMounts := if m' = p then mp.childMounts.erase m else mp.childMounts } }

theorem view_dropMount (hp : s.mounts.cell p = some pp) (hne : m ≠ p) (hpipe : m ≠ s.pipeMount) :
    (s.dropMount p m).view = s.view.detach p m := by
  unfold State.view View.detach
  congr 1
  · funext m'
    by_cases heq : m' = m
    · subst heq
      simp [State.dropMount]
    · by_cases heq' : m' = p
      · subst heq'
        simp [State.dropMount, heq, hp, MountPoint.skel]
      · cases hm' : s.mounts.cell m' <;> simp [State.dropMount, heq, heq', hm', MountPoint.skel]
  · by_cases heq : s.pipeMount = p
    · simp [State.dropMount, heq, hp, Ne.symm hne]
    · simp [State.dropMount, Ne.symm hpipe, heq]

/-- The ids of the nodes that a mount has. -/
def View.ids (v : View) (mp : MountPoint) : List Nat :=
  (mp.rootNode :: mp.nodeCache.filterMap v.idOf).dedup

/-- Tokens for `TestNode`s that nobody has any more. -/
def orphans (ids : List Nat) : Held := Multiset.ofList (ids.map fun id => Tok.own id false)

theorem mem_orphans {ids : List Nat} (ht : t ∈ orphans ids) :
    ∃ id ∈ ids, t = .own id false := by
  obtain ⟨id, hid, rfl⟩ := List.mem_map.1 (Multiset.mem_coe.1 ht)
  exact ⟨id, hid, rfl⟩

theorem total_orphans {ids : List Nat} (hnodup : ids.Nodup) (k : Key) :
    total k (orphans ids) = if ∃ id ∈ ids, k = .test id then 1 else 0 := by
  induction ids with
  | nil => simp [orphans, total]
  | cons id ids ih =>
    have hcons : orphans (id :: ids) = {.own id false} + orphans ids := rfl
    rw [hcons, total_add, total_singleton, ih (List.nodup_cons.1 hnodup).2]
    have hnot := (List.nodup_cons.1 hnodup).1
    by_cases hk : k = .test id
    · subst hk
      simp [hnot]
    · simp [hk, Ne.symm hk]

section Detach

variable {v : View}

theorem mem_ids (hm : v.Temp m mp) : id ∈ v.ids mp ↔ v.Has m id := by
  have hmem : id ∈ v.ids mp ↔ mp.rootNode = id ∨ ∃ n ∈ mp.nodeCache, v.idOf n = some id := by
    simp [View.ids, eq_comm (a := id)]
  rw [hmem]
  refine ⟨fun hor => ⟨mp, hm, hor⟩, fun hhas => ?_⟩
  obtain ⟨mp', hm', hor⟩ := hhas
  have heq : mp' = mp := Option.some.inj (hm'.1.symm.trans hm.1)
  rwa [heq] at hor

theorem detach_skel {m' : MountRef} {mp' : MountPoint} :
    (v.detach p m).skel m' = some mp' ↔ m' ≠ m ∧ ∃ mp₀, v.skel m' = some mp₀ ∧ mp' = { mp₀ with
      childMounts := if m' = p then mp₀.childMounts.erase m else mp₀.childMounts } := by
  by_cases heq : m' = m
  · simp [View.detach, heq]
  · simp only [View.detach, heq, if_false, Option.map_eq_some_iff, ne_eq, not_false_eq_true,
      true_and]
    refine ⟨fun h => ?_, fun h => ?_⟩
    · obtain ⟨mp₀, h₀, rfl⟩ := h
      exact ⟨mp₀, h₀, rfl⟩
    · obtain ⟨mp₀, h₀, rfl⟩ := h
      exact ⟨mp₀, h₀, rfl⟩

theorem detach_has {m' : MountRef} {id' : Nat} :
    (v.detach p m).Has m' id' ↔ m' ≠ m ∧ v.Has m' id' := by
  constructor
  · intro hhas
    obtain ⟨mp', ⟨hm', hp'⟩, hor⟩ := hhas
    obtain ⟨hne, mp₀, hm₀, rfl⟩ := detach_skel.1 hm'
    exact ⟨hne, mp₀, ⟨hm₀, hp'⟩, hor⟩
  · intro ⟨hne, mp₀, ⟨hm₀, hp'⟩, hor⟩
    exact ⟨_, ⟨detach_skel.2 ⟨hne, mp₀, hm₀, rfl⟩, hp'⟩, hor⟩

theorem Shape.detach (h : Shape v) (hm : v.skel m = some mp) (hr : m ≠ v.root) (hp : m ≠ v.pipe)
    (hparent : mp.parent = some p)
    (hleaf : ∀ m' mp', v.skel m' = some mp' → mp'.parent ≠ some m) : Shape (v.detach p m) := by
  refine ⟨?_, ?_, ?_, ?_, ?_, ?_, ?_, h.slots⟩
  · obtain ⟨mp', hmp', hpipe⟩ := h.root
    exact ⟨_, detach_skel.2 ⟨Ne.symm hr, mp', hmp', rfl⟩, hpipe⟩
  · obtain ⟨mp', hmp'⟩ := h.pipe
    exact ⟨_, detach_skel.2 ⟨Ne.symm hp, mp', hmp', rfl⟩⟩
  · intro m' mp' hm'
    obtain ⟨hne, mp₀, hm₀, rfl⟩ := detach_skel.1 hm'
    have hold := h.mount m' mp₀ hm₀
    refine { hold with
      children := ?_
      childNodup := ?_
      parent := ?_
      pipes := ?_ }
    · intro c hc
      have hc' : c ∈ mp₀.childMounts ∧ c ≠ m := by
        by_cases heq : m' = p
        · simp only [heq, if_true] at hc
          rw [hold.childNodup.mem_erase_iff] at hc
          exact ⟨hc.2, hc.1⟩
        · simp only [heq, if_false] at hc
          refine ⟨hc, ?_⟩
          rintro rfl
          obtain ⟨cp, ⟨hcp, -⟩, -, hcpar⟩ := hold.children c hc
          rw [hm, Option.some.injEq] at hcp
          subst hcp
          rw [hparent, Option.some.injEq] at hcpar
          exact heq hcpar.symm
      obtain ⟨cp, hcp, hcroot, hcpar⟩ := hold.children c hc'.1
      exact ⟨_, ⟨detach_skel.2 ⟨hc'.2, cp, hcp.1, rfl⟩, hcp.2⟩, hcroot, hcpar⟩
    · by_cases heq : m' = p
      · simp only [heq, if_true]
        exact hold.childNodup.erase m
      · simpa [heq] using hold.childNodup
    · intro hr' hp'
      obtain ⟨q, qp, hq, hqp, hmem, hqne⟩ := hold.parent hr' hp'
      have hqm : q ≠ m := by
        rintro rfl
        exact hleaf m' mp₀ hm₀ hq
      refine ⟨q, _, hq, ⟨detach_skel.2 ⟨hqm, qp, hqp.1, rfl⟩, hqp.2⟩, ?_, hqne⟩
      by_cases heq : q = p
      · simp only [heq, if_true]
        exact (List.mem_erase_of_ne hne).2 hmem
      · simpa [heq] using hmem
    · intro hp'
      obtain ⟨hfs, hchildren⟩ := hold.pipes hp'
      refine ⟨hfs, ?_⟩
      simp [hchildren]
  · intro m₁ mp₁ m₂ mp₂ n' h₁ h₂ hn₁ hn₂
    obtain ⟨-, mp₁', hm₁, rfl⟩ := detach_skel.1 h₁
    obtain ⟨-, mp₂', hm₂, rfl⟩ := detach_skel.1 h₂
    exact h.disjoint m₁ mp₁' m₂ mp₂' n' hm₁ hm₂ hn₁ hn₂
  · intro m₁ m₂ id' h₁ h₂
    exact h.has m₁ m₂ id' (detach_has.1 h₁).2 (detach_has.1 h₂).2
  · intro m' mp' n₁ n₂ id' hm' hn₁ hn₂ hid₁ hid₂
    obtain ⟨-, mp₀, hm₀, rfl⟩ := detach_skel.1 hm'.1
    exact h.inj m' mp₀ n₁ n₂ id' ⟨hm₀, hm'.2⟩ hn₁ hn₂ hid₁ hid₂
  · intro m' id' hhas
    exact h.alive m' id' (detach_has.1 hhas).2

end Detach

/-- **A mount that goes.** The caller has the only reference to `m`, and no other call is in
progress. The child's reference to the parent is lost, and so are the `TestNode`s. -/
theorem Inv.dropMountPoint (h : Inv ({.mref m} + H) s) (hidle : ∀ t ∈ H, t.Idle)
    (hm : s.mounts.cell m = some mp) (hr : m ≠ s.rootMount) (hparent : mp.parent = some p)
    (hp : s.mounts.cell p = some pp) (hne : m ≠ p) (hone : mp.refCount = 1) :
    Inv ({.mref p} + (orphans (s.view.ids mp.skel) + H)) (s.dropMount p m) := by
  obtain ⟨skel, hskel, hpipe⟩ := h.toks _ (mem_head _ H)
  obtain rfl : mp.skel = skel := Option.some.inj ((skel_of_cell hm).symm.trans hskel)
  have htemp : s.view.Temp m mp.skel := ⟨hskel, hpipe⟩
  have hcount := (h.mounts m mp hm).other hr hpipe
  rw [hone, total_add, total_singleton] at hcount
  simp only [Tok.key, if_true] at hcount
  have hview : (s.dropMount p m).view = s.view.detach p m := view_dropMount hp hne hpipe
  have hleaf : ∀ m' mp', s.view.skel m' = some mp' → mp'.parent ≠ some m := by
    intro m' mp' hm' hpar
    obtain ⟨mp₀, hm₀, rfl⟩ := cell_of_skel hm'
    have hzero : childCount s.mounts m = 0 := by omega
    have hw := Heap.sum_eq_zero hzero hm₀
    rw [if_pos (by rw [← hpar]; rfl)] at hw
    omega
  have hclosed : ∀ d desc, s.descs.cell d = some desc → desc.refCount ≠ 0 →
      desc.node ∉ mp.nodeCache := by
    intro d desc hd hz hmem
    have hzero : openOn s.descs (fun n => n ∈ mp.nodeCache) = 0 := by omega
    have hw := Heap.sum_eq_zero hzero hd
    simp [hz, hmem] at hw
  have hpp : p ≠ s.pipeMount := by
    obtain ⟨q, qp, hq, hqp, -⟩ := (h.mountOK hm).parent hr hpipe
    have heq : p = q := Option.some.inj (hparent.symm.trans hq)
    rw [heq]
    exact hqp.2
  have htail := h.toks_tail
  have hids := total_orphans (List.nodup_dedup (mp.skel.rootNode :: mp.skel.nodeCache.filterMap
    s.view.idOf))
  change ∀ k, total k (orphans (s.view.ids mp.skel)) = if ∃ id ∈ s.view.ids mp.skel, k = .test id
    then 1 else 0 at hids
  refine ⟨?_, ?_, ?_, ?_, ?_, ?_, h.history⟩
  · rw [hview]
    exact h.shape.detach hskel hr hpipe hparent hleaf
  · rw [hview]
    intro t ht
    rcases Multiset.mem_add.1 ht with ht | ht
    · rw [Multiset.mem_singleton.1 ht]
      exact ⟨_, detach_skel.2 ⟨Ne.symm hne, pp.skel, skel_of_cell hp, rfl⟩, hpp⟩
    rcases Multiset.mem_add.1 ht with ht | ht
    · obtain ⟨id, hid, rfl⟩ := mem_orphans ht
      have hhas := (mem_ids htemp).1 hid
      obtain ⟨tn, htn⟩ := h.shape.alive m id hhas
      refine ⟨⟨tn, htn, fun hf => absurd hf (by simp)⟩, fun m' hhas' => ?_⟩
      obtain ⟨hne', hold⟩ := detach_has.1 hhas'
      exact hne' (h.shape.has m' m id hold hhas)
    · have htok := htail t ht
      cases t with
      | fd d => exact htok
      | pref m' => exact htok
      | debt m' => exact htok
      | own id' fresh => exact ⟨htok.1, fun m' hhas => htok.2 m' (detach_has.1 hhas).2⟩
      | mref m' =>
        obtain ⟨mp₀, hm₀, hp₀⟩ := htok
        refine ⟨_, detach_skel.2 ⟨?_, mp₀, hm₀, rfl⟩, hp₀⟩
        rintro rfl
        have hpos : 0 < total (.mount m') H := total_pos ht rfl
        omega
      | _ => exact (hidle _ ht).elim
  · rw [hview]
    intro m' mp' n node hm' hn hnode
    obtain ⟨-, mp₀, hm₀, rfl⟩ := detach_skel.1 hm'
    have hok : NodeOK ({.mref p} + (orphans (s.view.ids mp.skel) + H)) s.view s.descs m' mp₀ n
        node :=
      (h.nodes m' mp₀ n node hm₀ hn hnode).congr (by simp [hids]) (by simp [hids])
    refine { hok with temp := fun hp => ?_, pipe := fun hp => { hok.pipe hp with } }
    have htemp := hok.temp hp
    exact { htemp with entry := fun e he => { htemp.entry e he with } }
  · intro m' mp' hm'
    have hsum : childCount (s.dropMount p m).mounts m' + (if m' = p then 1 else 0) =
        childCount s.mounts m' := by
      have hmod := Heap.sum_modify_of_eq (h := s.mounts) (a := p)
        (fun mp => if mp.parent = some m' then 1 else 0)
        (fun mp => { mp with childMounts := mp.childMounts.erase m }) fun _ _ => rfl
      have hfree := Heap.sum_free (a := m) (v := mp)
        (h := s.mounts.modify p fun mp => { mp with childMounts := mp.childMounts.erase m })
        (fun mp => if mp.parent = some m' then 1 else 0) (by simp [hne, hm])
      rw [hparent] at hfree
      simp only [Option.some.injEq, eq_comm (a := p)] at hfree
      exact hfree.trans hmod
    have hmm : m' ≠ m := by
      rintro rfl
      simp [State.dropMount] at hm'
    by_cases heq : m' = p
    · subst heq
      obtain rfl : { pp with childMounts := pp.childMounts.erase m } = mp' := by
        simpa [State.dropMount, hmm, hp] using hm'
      have hold := h.mounts m' pp hp
      refine ⟨hold.root, fun hp => absurd hp hpp, fun hr' hp' => ?_⟩
      have hother := hold.other hr' hp'
      simp [hne] at hother
      rw [if_pos rfl] at hsum
      simp only [total_add, total_singleton, Tok.key, if_true, hids]
      rw [if_neg (by simp)]
      show pp.refCount = openOn s.descs (fun n => n ∈ pp.nodeCache) + _ + _
      omega
    · have hold := h.mounts m' mp' (by simpa [State.dropMount, hmm, heq] using hm')
      refine hold.congr rfl rfl rfl (by rw [← hsum, if_neg heq, Nat.add_zero]) ?_ ?_
      · simp [Ne.symm heq, Ne.symm hmm, hids]
      · simp [hids]
  · rw [hview]
    intro d desc hd
    have hold : DescOK ({.mref p} + (orphans (s.view.ids mp.skel) + H)) s.view d desc :=
      (h.descs d desc hd).congr (by simp [hids]) (by simp [hids])
    refine { hold with cached := fun hz => ?_ }
    obtain ⟨m', mp₀, hm₀, hmem, hnr⟩ := hold.cached hz
    refine ⟨m', _, detach_skel.2 ⟨?_, mp₀, hm₀, rfl⟩, hmem, hnr⟩
    rintro rfl
    rw [hskel, Option.some.injEq] at hm₀
    subst hm₀
    exact hclosed d desc hd hz hmem
  · rw [hview]
    refine ⟨fun id' => ?_, fun id' tn' htn' => ?_⟩
    · have hold := h.owned.once id'
      simp only [total_add, total_singleton, Tok.key, hids, Option.some.injEq, reduceCtorEq,
        if_false, Nat.zero_add] at hold ⊢
      split_ifs with hmem
      · obtain ⟨id, hid, heq⟩ := hmem
        obtain rfl : id' = id := by simpa using heq
        have hzero : total (.test id') H = 0 := by
          by_contra hpos
          obtain ⟨t, ht, hk⟩ := exists_of_total_pos (Nat.pos_of_ne_zero hpos)
          obtain ⟨fresh, rfl⟩ := Tok.key_eq_test hk
          exact (htail _ ht).2 m ((mem_ids htemp).1 hid)
        omega
      · omega
    · rcases h.owned.owner id' tn' htn' with ⟨m', hhas⟩ | hown
      · by_cases heq : m' = m
        · subst heq
          right
          have hid := (mem_ids htemp).2 hhas
          have hpos : 0 < total (.test id') (orphans (s.view.ids mp.skel)) := by
            rw [hids, if_pos ⟨id', hid, rfl⟩]
            omega
          simp only [total_add]
          omega
        · exact Or.inl ⟨m', detach_has.2 ⟨heq, hhas⟩⟩
      · right
        simp at hown ⊢
        omega

end ChenixOS.VFS
