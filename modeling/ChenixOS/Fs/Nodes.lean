import ChenixOS.Fs.Preservation

/-!
# Nodes that come and go

A node enters the cache of its mount when it is created, or when the root of a mount is looked up
for the first time; it leaves the cache when `ReleaseNode` finds it without references and
links. The descriptors follow the nodes they are for.
-/

namespace ChenixOS.VFS

variable {K : Kernel} {H H' : Held} {s : State} {n : NodeRef} {m : MountRef} {d : DescRef}
  {id : Nat} {node : Node} {mp : MountPoint} {desc : FileDescriptor} {t : Tok}

/-! ## New nodes -/

/-- The view with a new `TestNode`. -/
def View.addTest (v : View) (id : Nat) (tn : TestNode) : View :=
  { v with tests := Function.update v.tests id (some { tn with fileData := [] }) }

@[simp] theorem addTestNode_descs (s : State) (id : Nat) (tn : TestNode) :
    (s.addTestNode id tn).descs = s.descs := rfl
@[simp] theorem addTestNode_mounts (s : State) (id : Nat) (tn : TestNode) :
    (s.addTestNode id tn).mounts = s.mounts := rfl
@[simp] theorem links_addTest (v : View) (id : Nat) (tn : TestNode) :
    (v.addTest id tn).links = v.links := rfl

theorem view_addTestNode (tn : TestNode) :
    (s.addTestNode id tn).view = s.view.addTest id tn := by
  unfold State.view State.addTestNode View.addTest
  congr 1
  funext id'
  by_cases hid : id' = id
  · subst hid
    simp
  · simp [hid]

theorem tests_fresh (K : Kernel) (s : State) : s.view.tests (s.testNodes.fresh K.alloc) = none := by
  simp [State.view, Heap.cell_fresh]

/-- `TempFS` makes a `TestNode` that no mount has yet. -/
theorem Inv.addTestNode (h : Inv H s) (K : Kernel) {tn : TestNode} {fresh : Bool}
    (hfresh : fresh = true → RootTest tn) :
    Inv ({.own (s.testNodes.fresh K.alloc) fresh} + H)
      (s.addTestNode (s.testNodes.fresh K.alloc) tn) := by
  set id := s.testNodes.fresh K.alloc with hid
  have hnone : s.view.tests id = none := tests_fresh K s
  have hview : (s.addTestNode id tn).view = s.view.addTest id tn := view_addTestNode tn
  have htests : ∀ id' tn', s.view.tests id' = some tn' →
      (s.view.addTest id tn).tests id' = some tn' := by
    intro id' tn' hid'
    have hne : id' ≠ id := by
      rintro rfl
      rw [hnone] at hid'
      cases hid'
    simpa [View.addTest, hne] using hid'
  have hnothas : ∀ m, ¬ s.view.Has m id := by
    intro m hhas
    obtain ⟨tn', htn'⟩ := h.shape.alive m id hhas
    rw [hnone] at htn'
    cases htn'
  have hnoown : total (.test id) H = 0 := by
    by_contra hpos
    obtain ⟨t, ht, hw⟩ := exists_of_total_pos (Nat.pos_of_ne_zero hpos)
    obtain ⟨fresh', rfl⟩ := Tok.key_eq_test hw
    obtain ⟨⟨tn', htn', -⟩, -⟩ := h.toks _ ht
    rw [hnone] at htn'
    cases htn'
  refine ⟨?_, ?_, ?_, ?_, ?_, ?_, ?_⟩
  · rw [hview]
    refine ⟨h.shape.root, h.shape.pipe, fun m mp hm => ?_, h.shape.disjoint, h.shape.has,
      h.shape.inj, fun m id' hhas => ?_, h.shape.slots⟩
    · have hold := h.shape.mount m mp hm
      refine { hold with rootTest := fun hp => ?_ }
      obtain ⟨tn', htn', hroot⟩ := hold.rootTest hp
      exact ⟨tn', htests _ _ htn', hroot⟩
    · obtain ⟨tn', htn'⟩ := h.shape.alive m id' hhas
      exact ⟨tn', htests _ _ htn'⟩
  · rw [hview]
    intro t ht
    rcases Multiset.mem_add.1 ht with htok | htok
    · rw [Multiset.mem_singleton.1 htok]
      refine ⟨⟨{ tn with fileData := [] }, by simp [View.addTest], fun hf => ?_⟩, hnothas⟩
      have hroot := hfresh hf
      exact ⟨hroot.type, hroot.dir, hroot.linkRefCount⟩
    · have hold := h.toks t htok
      cases t with
      | own id' fresh' =>
        obtain ⟨⟨tn', htn', hroot⟩, hnot⟩ := hold
        exact ⟨⟨tn', htests _ _ htn', hroot⟩, hnot⟩
      | _ => exact hold
  · rw [hview]
    intro m mp n node hm hn hnode
    have hold := h.nodes m mp n node hm hn hnode
    refine { hold with
      refCount := by simpa using hold.refCount
      temp := fun hp => ?_
      pipe := fun hp => { hold.pipe hp with } }
    have htemp := hold.temp hp
    exact { htemp with
      linkCount := by simpa using htemp.linkCount
      entry := fun e he => { htemp.entry e he with } }
  · intro m mp hm
    exact (h.mounts m mp hm).congr rfl rfl rfl rfl (by simp) (by simp)
  · rw [hview]
    intro d desc hd
    exact { (h.descs d desc hd).congr (by simp) (by simp) with }
  · rw [hview]
    refine ⟨fun id' => ?_, fun id' tn' htn' => ?_⟩
    · by_cases heq : id = id'
      · subst heq
        simp [hnoown]
      · simpa [heq] using h.owned.once id'
    · by_cases heq : id = id'
      · subst heq
        right
        simp
      · have htn'' : s.view.tests id' = some tn' := by
          simpa [View.addTest, Ne.symm heq] using htn'
        rcases h.owned.owner id' tn' htn'' with hhas | hown
        · exact Or.inl hhas
        · right
          simpa [heq] using hown
  · intro id'
    have hold := h.history id'
    by_cases heq : id = id'
    · subst heq
      have hcell : s.testNodes.cell id = none := Heap.cell_fresh K.alloc s.testNodes
      simp only [hcell, Option.isSome_none] at hold
      simpa [State.addTestNode] using hold
    · simpa [State.addTestNode, heq, Ne.symm heq] using hold

/-- A mount with one more node in its cache. -/
def MountPoint.push (mp : MountPoint) (n : NodeRef) : MountPoint :=
  { mp with nodeCache := mp.nodeCache ++ [n] }

/-- The view with a new node in the cache of `m`. -/
def View.push (v : View) (m : MountRef) (n : NodeRef) (id : Nat) (type : NodeType) : View :=
  { v with
    skel := fun m' => if m' = m then (v.skel m).map (MountPoint.push · n) else v.skel m'
    idOf := Function.update v.idOf n (some id)
    typeOf := Function.update v.typeOf n (some type) }

theorem view_pushNode (hm : s.mounts.cell m = some mp) (hn : s.nodes.cell n = none)
    (hentries : node.entries = []) :
    (s.pushNode m n node).view = s.view.push m n node.id node.type := by
  unfold State.view State.pushNode View.push
  congr 1
  · funext m'
    by_cases heq : m' = m
    · subst heq
      simp [hm, MountPoint.push, MountPoint.skel]
    · simp [heq]
  · funext n'
    by_cases heq : n' = n
    · subst heq
      simp
    · simp [heq]
  · funext n'
    by_cases heq : n' = n
    · subst heq
      simp
    · simp [heq]
  · funext n'
    by_cases heq : n' = n
    · subst heq
      simp [hn, hentries]
    · simp [heq]
  · by_cases heq : s.pipeMount = m
    · simp [heq, hm]
    · simp [heq]

section Push

variable {v : View} {type : NodeType}

/-- The mounts after a push: as before, but for the cache of `m`. -/
theorem push_skel {m' : MountRef} {mp' : MountPoint} :
    (v.push m n id type).skel m' = some mp' ↔
      ∃ mp₀, v.skel m' = some mp₀ ∧ mp' = if m' = m then mp₀.push n else mp₀ := by
  by_cases heq : m' = m
  · subst heq
    simp [View.push, eq_comm]
  · simp only [View.push, heq, if_false]
    refine ⟨fun h => ⟨mp', h, rfl⟩, ?_⟩
    intro ⟨mp₀, h, hmp'⟩
    rw [h, hmp']

theorem push_skel_of {m' : MountRef} {mp₀ : MountPoint} (h : v.skel m' = some mp₀) :
    (v.push m n id type).skel m' = some (if m' = m then mp₀.push n else mp₀) :=
  push_skel.2 ⟨mp₀, h, rfl⟩

/-- A push keeps everything about a mount but its cache, which grows by `n` at `m`. -/
theorem push_fields (mp₀ : MountPoint) (m' m : MountRef) (n : NodeRef) :
    let mp' := if m' = m then mp₀.push n else mp₀
    mp'.parent = mp₀.parent ∧ mp'.childMounts = mp₀.childMounts ∧ mp'.rootNode = mp₀.rootNode ∧
      mp'.fs = mp₀.fs ∧ mp'.childMountLock = mp₀.childMountLock ∧
      mp'.nodeCacheLock = mp₀.nodeCacheLock ∧
      mp'.nodeCache = mp₀.nodeCache ++ if m' = m then [n] else [] := by
  by_cases heq : m' = m
  · simp [heq, MountPoint.push]
  · simp [heq]

theorem push_path (mp₀ : MountPoint) (m' m : MountRef) (n : NodeRef) :
    (if m' = m then mp₀.push n else mp₀).path = mp₀.path := by
  split_ifs <;> rfl

theorem mem_push {mp₀ : MountPoint} {m' : MountRef} {n' : NodeRef} :
    n' ∈ (if m' = m then mp₀.push n else mp₀).nodeCache ↔ n' ∈ mp₀.nodeCache ∨ m' = m ∧ n' = n := by
  by_cases heq : m' = m
  · simp [heq, MountPoint.push]
  · simp [heq]

theorem push_idOf {n' : NodeRef} (hne : n' ≠ n) : (v.push m n id type).idOf n' = v.idOf n' := by
  simp [View.push, hne]

theorem push_idOf_self : (v.push m n id type).idOf n = some id := by simp [View.push]

/-- A TempFS mount has after the push what it had before, and the new id at `m`. -/
theorem push_has (h : Shape v) (hn : v.idOf n = none) {m' : MountRef} {id' : Nat} :
    (v.push m n id type).Has m' id' → v.Has m' id' ∨ m' = m ∧ id' = id := by
  intro hhas
  obtain ⟨mp', ⟨hm', hp'⟩, hor⟩ := hhas
  obtain ⟨mp₀, hmp₀, rfl⟩ := push_skel.1 hm'
  rcases hor with hroot | ⟨n', hn', hid'⟩
  · rw [(push_fields mp₀ m' m n).2.2.1] at hroot
    exact Or.inl ⟨mp₀, ⟨hmp₀, hp'⟩, Or.inl hroot⟩
  · rcases mem_push.1 hn' with hold | ⟨rfl, rfl⟩
    · have hne : n' ≠ n := by
        rintro rfl
        obtain ⟨id₀, hid₀⟩ := (h.mount m' mp₀ hmp₀).live n' hold
        rw [hn] at hid₀
        cases hid₀
      rw [push_idOf hne] at hid'
      exact Or.inl ⟨mp₀, ⟨hmp₀, hp'⟩, Or.inr ⟨n', hold, hid'⟩⟩
    · rw [push_idOf_self, Option.some.injEq] at hid'
      exact Or.inr ⟨rfl, hid'.symm⟩

/-- What a mount had it still has. -/
theorem View.Has.push (hn : v.idOf n = none) {m' : MountRef} {id' : Nat} (hhas : v.Has m' id') :
    (v.push m n id type).Has m' id' := by
  obtain ⟨mp', hm', hor⟩ := hhas
  refine ⟨_, ⟨push_skel_of hm'.1, hm'.2⟩, ?_⟩
  rcases hor with hroot | ⟨n', hn', hid'⟩
  · left
    rw [(push_fields mp' m' m n).2.2.1]
    exact hroot
  · right
    refine ⟨n', mem_push.2 (Or.inl hn'), ?_⟩
    rw [push_idOf]
    · exact hid'
    · rintro rfl
      rw [hn] at hid'
      cases hid'

theorem Shape.push (h : Shape v) (hm : v.skel m = some mp) (hn : v.idOf n = none)
    (hkey : m ≠ v.pipe → (∀ n' ∈ mp.nodeCache, v.idOf n' ≠ some id) ∧
      (∀ m', v.Has m' id → m' = m) ∧ ∃ tn, v.tests id = some tn) :
    Shape (v.push m n id type) := by
  have hnew : ∀ m' mp₀, v.skel m' = some mp₀ → n ∉ mp₀.nodeCache := by
    intro m' mp₀ hm' hmem
    obtain ⟨id₀, hid₀⟩ := (h.mount m' mp₀ hm').live n hmem
    rw [hn] at hid₀
    cases hid₀
  have hneq : ∀ m' mp₀ n', v.skel m' = some mp₀ → n' ∈ mp₀.nodeCache → n' ≠ n :=
    fun m' mp₀ n' hm' hn' heq => hnew m' mp₀ hm' (heq ▸ hn')
  refine ⟨?_, ?_, ?_, ?_, ?_, ?_, ?_, h.slots⟩
  · obtain ⟨mp₀, hr, hp⟩ := h.root
    exact ⟨_, push_skel_of hr, hp⟩
  · obtain ⟨mp₀, hp⟩ := h.pipe
    exact ⟨_, push_skel_of hp⟩
  · intro m' mp' hm'
    obtain ⟨mp₀, hmp₀, rfl⟩ := push_skel.1 hm'
    have hold := h.mount m' mp₀ hmp₀
    obtain ⟨hpar, hchild, hroot, hfs, hcl, hnl, hcache⟩ := push_fields mp₀ m' m n
    refine {
      childMountLock := by rw [hcl]; exact hold.childMountLock
      nodeCacheLock := by rw [hnl]; exact hold.nodeCacheLock
      nodup := ?_
      live := ?_
      children := ?_
      childNodup := by rw [hchild]; exact hold.childNodup
      parent := ?_
      noParent := by rw [hpar]; exact hold.noParent
      fs := by rw [hroot, hfs, hpar]; exact hold.fs
      pipes := by rw [hfs, hchild]; exact hold.pipes
      rootTest := by rw [hroot]; exact hold.rootTest
      path := by rw [push_path]; exact hold.path }
    · rw [hcache]
      split_ifs
      · rw [List.nodup_append]
        refine ⟨hold.nodup, by simp, fun a ha b hb => ?_⟩
        rw [List.mem_singleton.1 hb]
        exact hneq m' mp₀ a hmp₀ ha
      · simpa using hold.nodup
    · intro n' hn'
      rcases mem_push.1 hn' with hn' | ⟨-, rfl⟩
      · rw [push_idOf (hneq m' mp₀ n' hmp₀ hn')]
        exact hold.live n' hn'
      · exact ⟨id, push_idOf_self⟩
    · intro c hc
      rw [hchild] at hc
      obtain ⟨cp, ⟨hcp, hcpipe⟩, hcroot, hcpar⟩ := hold.children c hc
      refine ⟨_, ⟨push_skel_of hcp, hcpipe⟩, hcroot, ?_⟩
      rw [(push_fields cp c m n).1]
      exact hcpar
    · intro hr hp
      obtain ⟨p, pp, hparent, ⟨hpp, hppipe⟩, hmem, hne⟩ := hold.parent hr hp
      refine ⟨p, _, by rw [hpar]; exact hparent, ⟨push_skel_of hpp, hppipe⟩, ?_, hne⟩
      rw [(push_fields pp p m n).2.1]
      exact hmem
  · intro m₁ mp₁ m₂ mp₂ n' h₁ h₂ hn₁ hn₂
    obtain ⟨mp₁', hmp₁, rfl⟩ := push_skel.1 h₁
    obtain ⟨mp₂', hmp₂, rfl⟩ := push_skel.1 h₂
    rcases mem_push.1 hn₁ with hold₁ | ⟨rfl, rfl⟩
    · rcases mem_push.1 hn₂ with hold₂ | ⟨rfl, rfl⟩
      · exact h.disjoint _ _ _ _ n' hmp₁ hmp₂ hold₁ hold₂
      · exact absurd hold₁ (hnew _ _ hmp₁)
    · rcases mem_push.1 hn₂ with hold₂ | ⟨rfl, -⟩
      · exact absurd hold₂ (hnew _ _ hmp₂)
      · rfl
  · intro m₁ m₂ id' h₁ h₂
    rcases push_has h hn h₁ with h₁' | ⟨rfl, rfl⟩
    · rcases push_has h hn h₂ with h₂' | ⟨rfl, rfl⟩
      · exact h.has m₁ m₂ id' h₁' h₂'
      · exact (hkey h₂.choose_spec.1.2).2.1 m₁ h₁'
    · rcases push_has h hn h₂ with h₂' | ⟨rfl, -⟩
      · exact ((hkey h₁.choose_spec.1.2).2.1 m₂ h₂').symm
      · rfl
  · intro m' mp' n₁ n₂ id' hm' hn₁ hn₂ hid₁ hid₂
    obtain ⟨mp₀, hmp₀, rfl⟩ := push_skel.1 hm'.1
    rcases mem_push.1 hn₁ with hold₁ | ⟨rfl, rfl⟩
    · rw [push_idOf (hneq _ _ _ hmp₀ hold₁)] at hid₁
      rcases mem_push.1 hn₂ with hold₂ | ⟨rfl, rfl⟩
      · rw [push_idOf (hneq _ _ _ hmp₀ hold₂)] at hid₂
        exact h.inj m' mp₀ n₁ n₂ id' ⟨hmp₀, hm'.2⟩ hold₁ hold₂ hid₁ hid₂
      · rw [push_idOf_self] at hid₂
        rw [hm, Option.some.injEq] at hmp₀
        subst hmp₀
        exact absurd (hid₁.trans hid₂.symm) ((hkey hm'.2).1 n₁ hold₁)
    · rw [push_idOf_self] at hid₁
      rcases mem_push.1 hn₂ with hold₂ | ⟨-, rfl⟩
      · rw [push_idOf (hneq _ _ _ hmp₀ hold₂)] at hid₂
        rw [hm, Option.some.injEq] at hmp₀
        subst hmp₀
        exact absurd (hid₂.trans hid₁.symm) ((hkey hm'.2).1 n₂ hold₂)
      · rfl
  · intro m' id' hhas
    rcases push_has h hn hhas with hold | ⟨rfl, rfl⟩
    · exact h.alive m' id' hold
    · exact (hkey hhas.choose_spec.1.2).2.2

theorem links_push (h : v.entriesOf n = []) (cache : List NodeRef) (m' : MountRef) (id' : Nat) :
    (v.push m n id type).links (cache ++ if m' = m then [n] else []) id' = v.links cache id' := by
  unfold View.links
  show (List.map (fun n => (v.entriesOf n).countP _) _).sum = _
  split_ifs <;> simp [h]

theorem TokOK.push {descs : Heap FileDescriptor} (h : Shape v) (hn : v.idOf n = none)
    (ht : TokOK v descs t)
    (hown : ∀ id' fresh, t = .own id' fresh → ∀ m', ¬ (v.push m n id type).Has m' id') :
    TokOK (v.push m n id type) descs t := by
  have hne : ∀ m' mp₀ n', v.skel m' = some mp₀ → n' ∈ mp₀.nodeCache → n' ≠ n := by
    rintro m' mp₀ n' hm' hmem rfl
    obtain ⟨id₀, hid₀⟩ := (h.mount m' mp₀ hm').live n' hmem
    rw [hn] at hid₀
    cases hid₀
  have htype : ∀ n', n' ≠ n → (v.push m n id type).typeOf n' = v.typeOf n' := by
    intro n' hn'
    simp [View.push, hn']
  cases t with
  | ref m' n' root known =>
    obtain ⟨mp₀, hm', hmem, hroot, hknown⟩ := ht
    have hnn := hne m' mp₀ n' hm' hmem
    refine ⟨_, push_skel_of hm', mem_push.2 (Or.inl hmem), ?_, ?_⟩
    · rw [push_idOf hnn, (push_fields mp₀ m' m n).2.2.1]
      exact hroot
    · cases known with
      | nothing => trivial
      | type t => exact (htype n' hnn).trans hknown
      | lacks name => exact ⟨(htype n' hnn).trans hknown.1, hknown.2⟩
  | pref m' => exact ht
  | debt m' => exact ht
  | mref m' =>
    obtain ⟨mp₀, hm', hp'⟩ := ht
    exact ⟨_, push_skel_of hm', hp'⟩
  | link n' =>
    obtain ⟨m', mp₀, ⟨hm', hp'⟩, hmem⟩ := ht
    exact ⟨m', _, ⟨push_skel_of hm', hp'⟩, mem_push.2 (Or.inl hmem)⟩
  | fd d => exact ht
  | dying d => exact ht
  | own id' fresh => exact ⟨ht.1, hown id' fresh rfl⟩
  | sees m' dir name id' =>
    obtain ⟨mp₀, ⟨hm', hp'⟩, hmem, hentry⟩ := ht
    exact ⟨_, ⟨push_skel_of hm', hp'⟩, mem_push.2 (Or.inl hmem), hentry⟩
  | named dir name c =>
    obtain ⟨m', mp₀, id', ⟨hm', hp'⟩, hdir, hc, hid', hentry⟩ := ht
    refine ⟨m', _, id', ⟨push_skel_of hm', hp'⟩, mem_push.2 (Or.inl hdir), mem_push.2 (Or.inl hc),
      ?_, hentry⟩
    rw [push_idOf (hne m' mp₀ c hm' hc)]
    exact hid'
  | empty n' => exact ht
  | isRoot m' n' =>
    obtain ⟨mp₀, ⟨hm', hp'⟩, hmem, hid'⟩ := ht
    refine ⟨_, ⟨push_skel_of hm', hp'⟩, mem_push.2 (Or.inl hmem), ?_⟩
    rw [push_idOf (hne m' mp₀ n' hm' hmem), (push_fields mp₀ m' m n).2.2.1]
    exact hid'
  | «at» m' path =>
    obtain ⟨mp₀, hm', hpath⟩ := ht
    exact ⟨_, push_skel_of hm', by rw [push_path]; exact hpath⟩

end Push

theorem openOn_congr {descs : Heap FileDescriptor} {p q : NodeRef → Bool}
    (h : ∀ d desc, descs.cell d = some desc → desc.refCount ≠ 0 → p desc.node = q desc.node) :
    openOn descs p = openOn descs q := by
  refine Heap.sum_congr fun d desc hd => ?_
  by_cases hz : desc.refCount = 0
  · simp [hz]
  · simp [hz, h d desc hd hz]

theorem openOn_eq_zero {descs : Heap FileDescriptor} {p : NodeRef → Bool}
    (h : ∀ d desc, descs.cell d = some desc → desc.refCount ≠ 0 → p desc.node = false) :
    openOn descs p = 0 := by
  have hzero : descs.sum (fun _ => 0) = 0 := by
    unfold Heap.sum
    refine Finset.sum_eq_zero fun a _ => ?_
    cases descs.cell a <;> rfl
  rw [← hzero]
  refine Heap.sum_congr fun d desc hd => ?_
  by_cases hz : desc.refCount = 0
  · simp [hz]
  · simp [hz, h d desc hd hz]

/-- No descriptor is open for a node that is not there. -/
theorem Inv.not_open (h : Inv H s) (hn : s.nodes.cell n = none) :
    ∀ d desc, s.descs.cell d = some desc → desc.refCount ≠ 0 → desc.node ≠ n := by
  rintro d desc hd hz rfl
  obtain ⟨m, skel, hm, hmem, -⟩ := (h.descs d desc hd).cached hz
  obtain ⟨mp, hmp, rfl⟩ := cell_of_skel hm
  obtain ⟨node, hnode⟩ := h.live hmp hmem
  rw [hn] at hnode
  cases hnode

/-- **A new node** in the cache of `m`. -/
theorem Inv.pushNode (h : Inv H s) (hm : s.mounts.cell m = some mp) (hn : s.nodes.cell n = none)
    (hentries : node.entries = [])
    (hkey : m ≠ s.pipeMount → (∀ n' ∈ mp.nodeCache, s.view.idOf n' ≠ some node.id) ∧
      (∀ m', s.view.Has m' node.id → m' = m) ∧ ∃ tn, s.view.tests node.id = some tn)
    (htoks : ∀ t ∈ H', TokOK (s.view.push m n node.id node.type) s.descs t)
    (hw : ∀ k, k ≠ .node n → k ≠ .link n → (∀ id, k ≠ .test id) → total k H' = total k H)
    (howned : Owned H' (s.view.push m n node.id node.type))
    (hok : NodeOK H' (s.view.push m n node.id node.type) s.descs m (mp.skel.push n) n node) :
    Inv H' (s.pushNode m n node) := by
  have hview := view_pushNode hm hn hentries
  have hidOf : s.view.idOf n = none := by simp [State.view, hn]
  have hnil : s.view.entriesOf n = [] := by simp [State.view, hn]
  have hskel := skel_of_cell hm
  have hne : ∀ m' mp₀ n', s.view.skel m' = some mp₀ → n' ∈ mp₀.nodeCache → n' ≠ n := by
    rintro m' mp₀ n' hm' hmem rfl
    obtain ⟨id₀, hid₀⟩ := (h.shape.mount m' mp₀ hm').live n' hmem
    rw [hidOf] at hid₀
    cases hid₀
  refine ⟨by rw [hview]; exact h.shape.push hskel hidOf hkey, by rw [hview]; exact htoks,
    ?_, ?_, ?_, by rw [hview]; exact howned, h.history⟩
  · intro m' mp' n' node' hm' hn' hnode'
    rw [hview] at hm' ⊢
    obtain ⟨mp₀, hmp₀, rfl⟩ := push_skel.1 hm'
    rcases mem_push.1 hn' with hold | ⟨rfl, rfl⟩
    · have hnn := hne m' mp₀ n' hmp₀ hold
      have hnode'' : s.nodes.cell n' = some node' := by simpa [State.pushNode, hnn] using hnode'
      have hok' := h.nodes m' mp₀ n' node' hmp₀ hold hnode''
      obtain ⟨-, -, hroot, hfs, -, -, hcache⟩ := push_fields mp₀ m' m n
      refine ⟨hok'.dirLock, by rw [hw _ (by simp [hnn]) (by simp) (by simp)]; exact hok'.refCount, hok'.needed, fun hp => ?_,
        fun hp => { hok'.pipe hp with }⟩
      have htemp := hok'.temp hp
      refine { htemp with
        mp_eq := by rw [hroot]; exact htemp.mp_eq
        mp_root := by rw [hroot, hfs]; exact htemp.mp_root
        linkCount := ?_
        rootType := by rw [hroot]; exact htemp.rootType
        entry := fun e he => ?_ }
      · rw [hroot, hcache, links_push hnil, hw _ (by simp) (by simp [hnn]) (by simp)]
        exact htemp.linkCount
      · have hentry := htemp.entry e he
        obtain ⟨n'', hn'', hid''⟩ := hentry.cached
        refine { hentry with
          notRoot := by rw [hroot]; exact hentry.notRoot
          cached := ⟨n'', mem_push.2 (Or.inl hn''), ?_⟩ }
        rw [push_idOf (hne m' mp₀ n'' hmp₀ hn'')]
        exact hid''
    · obtain rfl : node = node' := by simpa [State.pushNode] using hnode'
      rw [hskel, Option.some.injEq] at hmp₀
      subst hmp₀
      rw [if_pos rfl]
      exact hok
  · intro m' mp' hm'
    have hchild : childCount (s.pushNode m n node).mounts m' = childCount s.mounts m' := by
      refine Heap.sum_modify_of_eq _ _ fun mp _ => rfl
    by_cases heq : m' = m
    · subst heq
      obtain rfl : { mp with nodeCache := mp.nodeCache ++ [n] } = mp' := by
        simpa [State.pushNode, hm] using hm'
      have hopen : openOn s.descs (fun n' => n' ∈ mp.nodeCache ++ [n]) =
          openOn s.descs fun n' => n' ∈ mp.nodeCache := by
        refine openOn_congr fun d desc hd hz => ?_
        simp [h.not_open hn d desc hd hz]
      exact ((h.mounts m' mp hm).recache hopen).congr rfl rfl rfl hchild
        (hw _ (by simp) (by simp) (by simp)) (hw _ (by simp) (by simp) (by simp))
    · exact (h.mounts m' mp' (by simpa [State.pushNode, heq] using hm')).congr rfl rfl rfl hchild
        (hw _ (by simp) (by simp) (by simp)) (hw _ (by simp) (by simp) (by simp))
  · intro d desc hd
    have hold := (h.descs d desc hd).congr (hw (.desc d) (by simp) (by simp) (by simp))
      (hw (.closing d) (by simp) (by simp) (by simp))
    rw [hview]
    refine ⟨hold.refCount, hold.closing, fun hz => ?_, fun hz => ?_⟩
    · obtain ⟨m', mp₀, hm', hmem, hnotroot⟩ := hold.cached hz
      refine ⟨m', _, push_skel_of hm', mem_push.2 (Or.inl hmem), fun hp => ?_⟩
      rw [push_idOf (hne m' mp₀ desc.node hm' hmem), (push_fields mp₀ m' m n).2.2.1]
      exact hnotroot hp
    · obtain ⟨m', mp₀, hm', hmem, -⟩ := hold.cached hz
      have hnn := hne m' mp₀ desc.node hm' hmem
      simpa [View.push, hnn] using hold.type hz

/-- A node as the create functions leave it: linked once and referenced once. -/
structure NewNode (m : MountRef) (id : Nat) (node : Node) : Prop where
  id : node.id = id
  mp : node.mp = m
  refCount : node.refCount = 1
  linkCount : node.linkCount = 1
  ready : node.ready = true
  dirLock : node.dirLock = false
  entries : node.entries = []
  folder : node.type = .directory → ∃ dir, node.info = .folder dir
  symlink : node.type = .symlink → ∃ linkPath, node.info = .symlink linkPath

/-- No entry names a `TestNode` that no mount has. -/
theorem Inv.links_eq_zero (h : Inv H s) (hm : s.mounts.cell m = some mp) (hp : m ≠ s.pipeMount)
    (hid : ∀ n ∈ mp.nodeCache, s.view.idOf n ≠ some id) : s.view.links mp.nodeCache id = 0 := by
  refine List.sum_eq_zero fun x hx => ?_
  obtain ⟨n, hn, rfl⟩ := List.mem_map.1 hx
  refine List.countP_eq_zero.2 fun e he => ?_
  obtain ⟨node, hnode⟩ := h.live hm hn
  rw [entriesOf_of_cell hnode] at he
  obtain ⟨n', hn', hid'⟩ := (((h.nodeOK hm hn hnode).temp hp).entry e he).cached
  intro heq
  rw [decide_eq_true_eq] at heq
  exact hid n' hn' (heq ▸ hid')

/-- Tokens on `n` do not exist before the node does. -/
theorem Inv.total_fresh (h : Inv H s) (hn : s.nodes.cell n = none) :
    total (.node n) H = 0 ∧ total (.link n) H = 0 := by
  have hcached : ∀ m skel, s.view.skel m = some skel → n ∉ skel.nodeCache := by
    intro m skel hm hmem
    obtain ⟨mp, hmp, rfl⟩ := cell_of_skel hm
    obtain ⟨node, hnode⟩ := h.live hmp hmem
    rw [hn] at hnode
    cases hnode
  constructor
  · by_contra hpos
    obtain ⟨t, ht, hw⟩ := exists_of_total_pos (Nat.pos_of_ne_zero hpos)
    obtain ⟨m, root, known, rfl⟩ := Tok.key_eq_node hw
    obtain ⟨skel, hm, hmem, -⟩ := h.toks _ ht
    exact hcached m skel hm hmem
  · by_contra hpos
    obtain ⟨t, ht, hw⟩ := exists_of_total_pos (Nat.pos_of_ne_zero hpos)
    obtain rfl := Tok.key_eq_link hw
    obtain ⟨m, skel, hm, hmem⟩ := h.toks _ ht
    exact hcached m skel hm.1 hmem

/-- A new node for a `TestNode` that no mount has. -/
theorem Inv.pushTemp {fresh : Bool} (h : Inv ({.own id fresh} + H) s)
    (hm : s.mounts.cell m = some mp) (hp : m ≠ s.pipeMount) (hn : s.nodes.cell n = none)
    (hnew : NewNode m id node) :
    Inv ({.ref m n false .nothing} + ({.link n} + H)) (s.pushNode m n node) := by
  obtain ⟨⟨tn, htn, -⟩, hnothas⟩ := h.toks _ (mem_head _ H)
  have hskel := skel_of_cell hm
  have hidOf : s.view.idOf n = none := by simp [State.view, hn]
  have hroot : id ≠ mp.rootNode := fun heq =>
    hnothas m ⟨mp.skel, ⟨hskel, hp⟩, Or.inl heq.symm⟩
  have hcache : ∀ n' ∈ mp.nodeCache, s.view.idOf n' ≠ some id := fun n' hn' heq =>
    hnothas m ⟨mp.skel, ⟨hskel, hp⟩, Or.inr ⟨n', hn', heq⟩⟩
  have hpush : (s.view.push m n node.id node.type).skel m = some (mp.skel.push n) := by
    rw [push_skel_of hskel, if_pos rfl]
  have hmem : n ∈ (mp.skel.push n).nodeCache := by simp [MountPoint.push]
  obtain ⟨hfreshNode, hfreshLink⟩ := h.total_fresh hn
  replace hfreshNode : total (.node n) H = 0 := by simpa using hfreshNode
  replace hfreshLink : total (.link n) H = 0 := by simpa using hfreshLink
  have honce := h.owned.once id
  simp only [total_add, total_singleton, Tok.key, if_true] at honce
  refine h.pushNode hm hn hnew.entries ?_ ?_ ?_ ?_ ?_
  · intro _
    rw [hnew.id]
    exact ⟨hcache, fun m' hhas => absurd hhas (hnothas m'), tn, htn⟩
  · intro t ht
    rcases Multiset.mem_add.1 ht with htok | htok
    · rw [Multiset.mem_singleton.1 htok]
      refine ⟨_, hpush, hmem, ?_, trivial⟩
      rw [push_idOf_self, hnew.id]
      simp [MountPoint.push, hroot]
    rcases Multiset.mem_add.1 htok with htok | htok
    · rw [Multiset.mem_singleton.1 htok]
      exact ⟨m, _, ⟨hpush, hp⟩, hmem⟩
    · refine (h.toks t (mem_tail htok)).push h.shape hidOf fun id' fresh' heq m' hhas => ?_
      subst heq
      rcases push_has h.shape hidOf hhas with hold | ⟨-, hid'⟩
      · exact (h.toks _ (mem_tail htok)).2 m' hold
      · have hpos : 0 < total (.test id') H := total_pos htok rfl
        rw [hid', hnew.id] at hpos
        omega
  · intro k hnode hlink htest
    simp [Ne.symm hnode, Ne.symm hlink, Ne.symm (htest _)]
  · refine ⟨fun id' => ?_, fun id' tn' htn' => ?_⟩
    · have hold := h.owned.once id'
      simp at hold ⊢
      omega
    · rcases h.owned.owner id' tn' htn' with ⟨m', hhas⟩ | hown
      · exact Or.inl ⟨m', hhas.push hidOf⟩
      · by_cases heq : id = id'
        · left
          subst heq
          refine ⟨m, _, ⟨hpush, hp⟩, Or.inr ⟨n, hmem, ?_⟩⟩
          rw [push_idOf_self, hnew.id]
        · right
          simpa [heq] using hown
  · have hopen : openOn s.descs (fun n' => n' = n) = 0 :=
      openOn_eq_zero fun d desc hd hz => by simp [h.not_open hn d desc hd hz]
    refine ⟨hnew.dirLock, ?_, by rw [hnew.refCount]; omega, fun _ => ?_, fun hp' => absurd hp' hp⟩
    · rw [hnew.refCount, hopen]
      simp [hfreshNode]
    · refine {
        mp_eq := fun _ => hnew.mp
        mp_root := fun heq => absurd (hnew.id.symm.trans heq) hroot
        ready := hnew.ready
        linkCount := ?_
        unlinked := fun _ => hnew.entries
        folder := hnew.folder
        isFolder := fun _ => hnew.entries
        symlink := hnew.symlink
        rootType := fun heq => absurd (hnew.id.symm.trans heq) hroot
        names := by rw [hnew.entries]; exact List.nodup_nil
        entry := fun e he => by rw [hnew.entries] at he; cases he }
      have hlinks : (s.view.push m n node.id node.type).links (mp.skel.push n).nodeCache
          node.id = 0 := by
        have hnil : s.view.entriesOf n = [] := by simp [State.view, hn]
        have hsame : (s.view.push m n node.id node.type).links
            (mp.nodeCache ++ if m = m then [n] else []) node.id =
              s.view.links mp.nodeCache node.id := links_push hnil mp.nodeCache m node.id
        have hzero : s.view.links mp.nodeCache node.id = 0 :=
          h.links_eq_zero hm hp (by rw [hnew.id]; exact hcache)
        rw [if_pos rfl] at hsame
        exact hsame.trans hzero
      have hne : ¬ node.id = (mp.skel.push n).rootNode := by rw [hnew.id]; exact hroot
      rw [hnew.linkCount, hlinks, if_neg hne]
      simp [hfreshLink]

/-- The root of a mount is cached when it is first looked up. -/
theorem Inv.pushRoot {m_MP : MountRef} {tn : TestNode} (h : Inv H s)
    (hm : s.mounts.cell m = some mp) (hp : m ≠ s.pipeMount) (hn : s.nodes.cell n = none)
    (hcache : ∀ n' ∈ mp.nodeCache, s.view.idOf n' ≠ some mp.rootNode)
    (hfs : mp.fs = .tempFS mp.rootNode (some m_MP)) (hroot : RootTest tn) :
    Inv ({.ref m n true .nothing} + H) (s.pushNode m n (rootNodeOf mp.rootNode m_MP tn)) := by
  obtain ⟨dir, hdir, hempty⟩ := hroot.dir
  set node := rootNodeOf mp.rootNode m_MP tn with hnode
  have hinfo : node.info = .folder dir := by simp [hnode, rootNodeOf, hdir]
  have hentries : node.entries = [] := by simp [Node.entries, hinfo, hempty]
  have hskel := skel_of_cell hm
  have hidOf : s.view.idOf n = none := by simp [State.view, hn]
  have hhas : s.view.Has m mp.rootNode := ⟨mp.skel, ⟨hskel, hp⟩, Or.inl rfl⟩
  have hpush : (s.view.push m n node.id node.type).skel m = some (mp.skel.push n) := by
    rw [push_skel_of hskel, if_pos rfl]
  have hmem : n ∈ (mp.skel.push n).nodeCache := by simp [MountPoint.push]
  obtain ⟨hfreshNode, hfreshLink⟩ := h.total_fresh hn
  refine h.pushNode hm hn hentries ?_ ?_ ?_ ?_ ?_
  · intro _
    exact ⟨hcache, fun m' hhas' => h.shape.has m' m _ hhas' hhas, h.shape.alive m _ hhas⟩
  · intro t ht
    rcases Multiset.mem_add.1 ht with htok | htok
    · rw [Multiset.mem_singleton.1 htok]
      refine ⟨_, hpush, hmem, ?_, trivial⟩
      rw [push_idOf_self]
      exact ⟨fun _ => ⟨hp, rfl⟩, fun _ => rfl⟩
    · refine (h.toks t htok).push h.shape hidOf fun id' fresh heq m' hhas' => ?_
      subst heq
      have hnot := (h.toks _ htok).2
      rcases push_has h.shape hidOf hhas' with hold | ⟨rfl, rfl⟩
      · exact hnot m' hold
      · exact hnot m' hhas
  · intro k hnode _ _
    simp [Ne.symm hnode]
  · refine ⟨fun id' => by simpa using h.owned.once id', fun id' tn' htn' => ?_⟩
    rcases h.owned.owner id' tn' htn' with ⟨m', hhas'⟩ | hown
    · exact Or.inl ⟨m', hhas'.push hidOf⟩
    · right
      simpa using hown
  · have hopen : openOn s.descs (fun n' => n' = n) = 0 :=
      openOn_eq_zero fun d desc hd hz => by simp [h.not_open hn d desc hd hz]
    have hlinks : (s.view.push m n node.id node.type).links (mp.skel.push n).nodeCache
        mp.rootNode = 0 := by
      have hnil : s.view.entriesOf n = [] := by simp [State.view, hn]
      have hsame : (s.view.push m n node.id node.type).links
          (mp.nodeCache ++ if m = m then [n] else []) mp.rootNode =
            s.view.links mp.nodeCache mp.rootNode := links_push hnil mp.nodeCache m mp.rootNode
      rw [if_pos rfl] at hsame
      exact hsame.trans (h.links_eq_zero hm hp hcache)
    refine ⟨rfl, ?_, by simp [hnode, rootNodeOf], fun _ => ?_, fun hp' => absurd hp' hp⟩
    · rw [hopen]
      simp [hfreshNode, hnode, rootNodeOf]
    · exact {
        mp_eq := fun hne => absurd rfl hne
        mp_root := fun _ => by simp [MountPoint.push, MountPoint.skel, hfs, hnode, rootNodeOf]
        ready := rfl
        linkCount := by
          show tn.linkRefCount = (if mp.rootNode = mp.rootNode then 1 else 0) +
            (s.view.push m n node.id node.type).links (mp.skel.push n).nodeCache mp.rootNode +
              total (.link n) ({.ref m n true .nothing} + H)
          rw [hlinks, hroot.linkRefCount]
          simp [hfreshLink]
        unlinked := fun _ => hentries
        folder := fun _ => ⟨dir, hinfo⟩
        isFolder := fun _ => hentries
        symlink := fun hs => by
          have htype : node.type = .directory := hroot.type
          rw [htype] at hs
          cases hs
        rootType := fun _ => hroot.type
        names := by rw [hentries]; exact List.nodup_nil
        entry := fun e he => by rw [hentries] at he; cases he }

/-! ## Nodes that leave -/

/-- The view without the node `n` of `m` and without the `TestNode` `id`, if there is one. -/
def View.drop (v : View) (m : MountRef) (n : NodeRef) (id : Option Nat) : View :=
  { v with
    skel := fun m' => if m' = m then
      (v.skel m).map fun mp => { mp with nodeCache := mp.nodeCache.erase n } else v.skel m'
    idOf := Function.update v.idOf n none
    typeOf := Function.update v.typeOf n none
    tests := fun id' => if some id' = id then none else v.tests id' }

/-- What `ReleaseNode` needs of a node to let it go. -/
structure Unused (H : Held) (s : State) (m : MountRef) (mp : MountPoint) (n : NodeRef)
    (node : Node) : Prop where
  mountCell : s.mounts.cell m = some mp
  mem : n ∈ mp.nodeCache
  nodeCell : s.nodes.cell n = some node
  notOpen : openOn s.descs (fun n' => n' = n) = 0
  noRef : total (.node n) H = 0
  entries : node.entries = []
  temp : m ≠ s.pipeMount → node.id ≠ mp.rootNode ∧ s.view.links mp.nodeCache node.id = 0 ∧
    total (.link n) H = 0

/-- The last reference to a node without links is given back. -/
theorem Inv.unused {root : Bool} {known : Known} (h : Inv ({.ref m n root known} + H) s)
    (hm : s.mounts.cell m = some mp) (hmem : n ∈ mp.nodeCache) (hn : s.nodes.cell n = some node)
    (href : dec node.refCount = 0) (hlink : node.linkCount = 0) : Unused H s m mp n node := by
  have hok := h.nodeOK hm hmem hn
  have hpos : 0 < node.refCount := h.refCount_pos (mem_head _ H) hn
  have hone : node.refCount = 1 := by
    unfold dec at href
    rw [if_neg (by omega)] at href
    omega
  have hcount := hok.refCount
  rw [hone, total_add, total_singleton] at hcount
  simp only [Tok.key, if_true] at hcount
  refine ⟨hm, hmem, hn, by omega, by omega, ?_, fun hp => ?_⟩
  · by_cases hp : m = s.pipeMount
    · exact (hok.pipe hp).entries
    · exact (hok.temp hp).unlinked hlink
  · have hl := (hok.temp hp).linkCount
    rw [hlink] at hl
    simp at hl
    refine ⟨fun heq => ?_, by omega, by omega⟩
    simp only [heq, if_true] at hl
    omega

/-- No entry of a mount names a node that has no links. -/
theorem Unused.not_named (hu : Unused H s m mp n node) (hp : m ≠ s.pipeMount) {n' : NodeRef}
    (hn' : n' ∈ mp.nodeCache) {e : DirectoryEntry} (he : e ∈ s.view.entriesOf n') :
    e.nodeID ≠ node.id := by
  intro heq
  have hzero := (hu.temp hp).2.1
  have hmem : (s.view.entriesOf n').countP (fun e => e.nodeID = node.id) ∈
      mp.nodeCache.map fun n => (s.view.entriesOf n).countP fun e => e.nodeID = node.id :=
    List.mem_map.2 ⟨n', hn', rfl⟩
  have hle := List.single_le_sum (fun _ _ => Nat.zero_le _) _ hmem
  have hpos : 0 < (s.view.entriesOf n').countP fun e => e.nodeID = node.id :=
    List.countP_pos_iff.2 ⟨e, he, by simpa using heq⟩
  unfold View.links at hzero
  omega

section Drop

variable {v : View} {o : Option Nat}

theorem drop_skel {m' : MountRef} {mp' : MountPoint} :
    (v.drop m n o).skel m' = some mp' ↔ ∃ mp₀, v.skel m' = some mp₀ ∧
      mp' = if m' = m then { mp₀ with nodeCache := mp₀.nodeCache.erase n } else mp₀ := by
  by_cases heq : m' = m
  · subst heq
    simp [View.drop, eq_comm]
  · simp only [View.drop, heq, if_false]
    refine ⟨fun h => ⟨mp', h, rfl⟩, ?_⟩
    intro ⟨mp₀, h, hmp'⟩
    rw [h, hmp']

theorem drop_skel_of {m' : MountRef} {mp₀ : MountPoint} (h : v.skel m' = some mp₀) :
    (v.drop m n o).skel m' =
      some (if m' = m then { mp₀ with nodeCache := mp₀.nodeCache.erase n } else mp₀) :=
  drop_skel.2 ⟨mp₀, h, rfl⟩

/-- Dropping keeps everything about a mount but its cache. -/
theorem drop_fields (mp₀ : MountPoint) (m' m : MountRef) (n : NodeRef) :
    let mp' := if m' = m then { mp₀ with nodeCache := mp₀.nodeCache.erase n } else mp₀
    mp'.parent = mp₀.parent ∧ mp'.childMounts = mp₀.childMounts ∧ mp'.rootNode = mp₀.rootNode ∧
      mp'.fs = mp₀.fs ∧ mp'.childMountLock = mp₀.childMountLock ∧
      mp'.nodeCacheLock = mp₀.nodeCacheLock := by
  by_cases heq : m' = m
  · simp [heq]
  · simp [heq]

theorem drop_path (mp₀ : MountPoint) (m' m : MountRef) (n : NodeRef) :
    (if m' = m then { mp₀ with nodeCache := mp₀.nodeCache.erase n } else mp₀).path = mp₀.path := by
  split_ifs <;> rfl

/-- The caches after the drop: without `n`. -/
theorem mem_drop (h : Shape v) {mp₀ : MountPoint} (hm : v.skel m = some mp) (hn : n ∈ mp.nodeCache)
    {m' : MountRef} (hm' : v.skel m' = some mp₀) {n' : NodeRef} :
    n' ∈ (if m' = m then { mp₀ with nodeCache := mp₀.nodeCache.erase n } else mp₀).nodeCache ↔
      n' ∈ mp₀.nodeCache ∧ n' ≠ n := by
  by_cases heq : m' = m
  · subst heq
    simp only [if_true]
    rw [(h.mount m' mp₀ hm').nodup.mem_erase_iff]
    exact And.comm
  · simp only [heq, if_false]
    refine ⟨fun hmem => ⟨hmem, ?_⟩, And.left⟩
    rintro rfl
    exact heq (h.disjoint m' mp₀ m mp n' hm' hm hmem hn)

theorem drop_idOf {n' : NodeRef} (hne : n' ≠ n) : (v.drop m n o).idOf n' = v.idOf n' := by
  simp [View.drop, hne]

/-- What a mount has after the drop it had before, and it is not the node that left. -/
theorem View.Has.of_drop (h : Shape v) (hm : v.skel m = some mp) (hn : n ∈ mp.nodeCache)
    (hid : v.idOf n = some id) (hroot : m ≠ v.pipe → id ≠ mp.rootNode) {m' : MountRef} {id' : Nat}
    (hhas : (v.drop m n o).Has m' id') : v.Has m' id' ∧ (m' = m → id' ≠ id) := by
  obtain ⟨mp', ⟨hm', hp'⟩, hor⟩ := hhas
  obtain ⟨mp₀, hmp₀, rfl⟩ := drop_skel.1 hm'
  rcases hor with hr | ⟨n', hn', hid'⟩
  · rw [(drop_fields mp₀ m' m n).2.2.1] at hr
    refine ⟨⟨mp₀, ⟨hmp₀, hp'⟩, Or.inl hr⟩, ?_⟩
    rintro rfl rfl
    rw [hm, Option.some.injEq] at hmp₀
    subst hmp₀
    exact hroot hp' hr.symm
  · obtain ⟨hmem, hne⟩ := (mem_drop h hm hn hmp₀).1 hn'
    rw [drop_idOf hne] at hid'
    refine ⟨⟨mp₀, ⟨hmp₀, hp'⟩, Or.inr ⟨n', hmem, hid'⟩⟩, ?_⟩
    rintro rfl rfl
    rw [hm, Option.some.injEq] at hmp₀
    subst hmp₀
    exact hne (h.inj m' mp n' n id' ⟨hm, hp'⟩ hmem hn hid' hid)

/-- What a mount had, but for the node that left, it still has. -/
theorem View.Has.drop (h : Shape v) (hm : v.skel m = some mp) (hn : n ∈ mp.nodeCache)
    (hid : v.idOf n = some id) {m' : MountRef} {id' : Nat} (hhas : v.Has m' id')
    (hne : id' ≠ id) : (v.drop m n o).Has m' id' := by
  obtain ⟨mp₀, ⟨hmp₀, hp'⟩, hor⟩ := hhas
  refine ⟨_, ⟨drop_skel_of hmp₀, hp'⟩, ?_⟩
  rcases hor with hr | ⟨n', hn', hid'⟩
  · left
    rw [(drop_fields mp₀ m' m n).2.2.1]
    exact hr
  · right
    have hnn : n' ≠ n := by
      rintro rfl
      rw [hid, Option.some.injEq] at hid'
      exact hne hid'.symm
    exact ⟨n', (mem_drop h hm hn hmp₀).2 ⟨hn', hnn⟩, by rw [drop_idOf hnn]; exact hid'⟩

/-- The tests of what mounts have survive. -/
theorem tests_drop {m' : MountRef} {id' : Nat} (ho : ∀ i, o = some i → m ≠ v.pipe ∧ i = id)
    (h : Shape v) (hm : v.skel m = some mp) (hn : n ∈ mp.nodeCache) (hid : v.idOf n = some id)
    (hhas : v.Has m' id') (hne : m' = m → id' ≠ id) : (v.drop m n o).tests id' = v.tests id' := by
  show (if some id' = o then none else v.tests id') = v.tests id'
  refine if_neg fun heq => ?_
  obtain ⟨hp, rfl⟩ := ho id' heq.symm
  have hmm : m' = m := h.has m' m id' hhas ⟨mp, ⟨hm, hp⟩, Or.inr ⟨n, hn, hid⟩⟩
  exact hne hmm rfl

theorem Shape.drop (h : Shape v) (hm : v.skel m = some mp) (hn : n ∈ mp.nodeCache)
    (hid : v.idOf n = some id) (hroot : m ≠ v.pipe → id ≠ mp.rootNode)
    (ho : ∀ i, o = some i → m ≠ v.pipe ∧ i = id) : Shape (v.drop m n o) := by
  refine ⟨?_, ?_, ?_, ?_, ?_, ?_, ?_, h.slots⟩
  · obtain ⟨mp₀, hr, hp⟩ := h.root
    exact ⟨_, drop_skel_of hr, hp⟩
  · obtain ⟨mp₀, hp⟩ := h.pipe
    exact ⟨_, drop_skel_of hp⟩
  · intro m' mp' hm'
    obtain ⟨mp₀, hmp₀, rfl⟩ := drop_skel.1 hm'
    have hold := h.mount m' mp₀ hmp₀
    obtain ⟨hpar, hchild, hr, hfs, hcl, hnl⟩ := drop_fields mp₀ m' m n
    refine {
      childMountLock := by rw [hcl]; exact hold.childMountLock
      nodeCacheLock := by rw [hnl]; exact hold.nodeCacheLock
      nodup := ?_
      live := ?_
      children := ?_
      childNodup := by rw [hchild]; exact hold.childNodup
      parent := ?_
      noParent := by rw [hpar]; exact hold.noParent
      fs := by rw [hr, hfs, hpar]; exact hold.fs
      pipes := by rw [hfs, hchild]; exact hold.pipes
      rootTest := ?_
      path := by rw [drop_path]; exact hold.path }
    · split_ifs
      · exact hold.nodup.erase n
      · exact hold.nodup
    · intro n' hn'
      obtain ⟨hmem, hne⟩ := (mem_drop h hm hn hmp₀).1 hn'
      rw [drop_idOf hne]
      exact hold.live n' hmem
    · intro c hc
      rw [hchild] at hc
      obtain ⟨cp, ⟨hcp, hcpipe⟩, hcroot, hcpar⟩ := hold.children c hc
      refine ⟨_, ⟨drop_skel_of hcp, hcpipe⟩, hcroot, ?_⟩
      rw [(drop_fields cp c m n).1]
      exact hcpar
    · intro hmr hmp
      obtain ⟨p, pp, hparent, ⟨hpp, hppipe⟩, hmem, hne⟩ := hold.parent hmr hmp
      refine ⟨p, _, by rw [hpar]; exact hparent, ⟨drop_skel_of hpp, hppipe⟩, ?_, hne⟩
      rw [(drop_fields pp p m n).2.1]
      exact hmem
    · intro hp'
      rw [hr]
      obtain ⟨tn, htn, hrt⟩ := hold.rootTest hp'
      refine ⟨tn, ?_, hrt⟩
      rw [tests_drop ho h hm hn hid ⟨mp₀, ⟨hmp₀, hp'⟩, Or.inl rfl⟩]
      · exact htn
      · rintro rfl
        rw [hm, Option.some.injEq] at hmp₀
        subst hmp₀
        exact Ne.symm (hroot hp')
  · intro m₁ mp₁ m₂ mp₂ n' h₁ h₂ hn₁ hn₂
    obtain ⟨mp₁', hmp₁, rfl⟩ := drop_skel.1 h₁
    obtain ⟨mp₂', hmp₂, rfl⟩ := drop_skel.1 h₂
    exact h.disjoint _ _ _ _ n' hmp₁ hmp₂ ((mem_drop h hm hn hmp₁).1 hn₁).1
      ((mem_drop h hm hn hmp₂).1 hn₂).1
  · intro m₁ m₂ id' h₁ h₂
    exact h.has m₁ m₂ id' (h₁.of_drop h hm hn hid hroot).1 (h₂.of_drop h hm hn hid hroot).1
  · intro m' mp' n₁ n₂ id' hm' hn₁ hn₂ hid₁ hid₂
    obtain ⟨mp₀, hmp₀, rfl⟩ := drop_skel.1 hm'.1
    obtain ⟨hmem₁, hne₁⟩ := (mem_drop h hm hn hmp₀).1 hn₁
    obtain ⟨hmem₂, hne₂⟩ := (mem_drop h hm hn hmp₀).1 hn₂
    rw [drop_idOf hne₁] at hid₁
    rw [drop_idOf hne₂] at hid₂
    exact h.inj m' mp₀ n₁ n₂ id' ⟨hmp₀, hm'.2⟩ hmem₁ hmem₂ hid₁ hid₂
  · intro m' id' hhas
    obtain ⟨hold, hne⟩ := hhas.of_drop h hm hn hid hroot
    rw [tests_drop ho h hm hn hid hold hne]
    exact h.alive m' id' hold

end Drop

/-- The `TestNode` of a node that is destroyed is deleted. -/
def State.dropTest (s : State) : Option Nat → State
  | none => s
  | some id =>
      { s with testNodes := s.testNodes.free id, destroyed := id :: s.destroyed }

@[simp] theorem dropTest_mounts (s : State) (o : Option Nat) : (s.dropTest o).mounts = s.mounts := by
  cases o <;> rfl
@[simp] theorem dropTest_nodes (s : State) (o : Option Nat) : (s.dropTest o).nodes = s.nodes := by
  cases o <;> rfl
@[simp] theorem dropTest_descs (s : State) (o : Option Nat) : (s.dropTest o).descs = s.descs := by
  cases o <;> rfl
@[simp] theorem dropTest_rootMount (s : State) (o : Option Nat) :
    (s.dropTest o).rootMount = s.rootMount := by
  cases o <;> rfl
@[simp] theorem dropTest_pipeMount (s : State) (o : Option Nat) :
    (s.dropTest o).pipeMount = s.pipeMount := by
  cases o <;> rfl

theorem view_dropNode (hm : s.mounts.cell m = some mp) (hn : s.nodes.cell n = some node)
    (hentries : node.entries = []) (o : Option Nat) :
    ((s.dropTest o).dropNode m n).view = s.view.drop m n o := by
  unfold State.view State.dropNode View.drop
  congr 1
  · funext m'
    by_cases heq : m' = m
    · subst heq
      simp [hm, MountPoint.skel]
    · simp [heq]
  · funext n'
    by_cases heq : n' = n
    · subst heq
      simp
    · simp [heq]
  · funext n'
    by_cases heq : n' = n
    · subst heq
      simp
    · simp [heq]
  · funext n'
    by_cases heq : n' = n
    · subst heq
      simp [hn, hentries]
    · simp [heq]
  · funext id'
    cases o with
    | none => simp [State.dropTest]
    | some id =>
      by_cases heq : id' = id
      · subst heq
        simp [State.dropTest]
      · simp [State.dropTest, heq]
  · by_cases heq : s.pipeMount = m
    · simp [heq, hm]
    · simp [heq]
  · simp
  · simp

/-- The tokens of the others survive a node that nobody uses. -/
theorem TokOK.drop {o : Option Nat} (h : Shape s.view) (hu : Unused H s m mp n node)
    (ho : ∀ i, o = some i → m ≠ s.pipeMount ∧ i = node.id) (ht : t ∈ H)
    (hok : TokOK s.view s.descs t) : TokOK (s.view.drop m n o) s.descs t := by
  have hskel := skel_of_cell hu.mountCell
  have hid := idOf_of_cell hu.nodeCell
  have hnil : s.view.entriesOf n = [] := (entriesOf_of_cell hu.nodeCell).trans hu.entries
  have hcache : ∀ {m' : MountRef} {mp₀ : MountPoint}, s.view.skel m' = some mp₀ →
      ∀ {n' : NodeRef}, n' ∈ mp₀.nodeCache → n' ≠ n →
      n' ∈ (if m' = m then { mp₀ with nodeCache := mp₀.nodeCache.erase n } else mp₀).nodeCache :=
    fun hm' _ hmem hne => (mem_drop h hskel hu.mem hm').2 ⟨hmem, hne⟩
  have hrootNode : ∀ (m' : MountRef) (mp₀ : MountPoint),
      (if m' = m then { mp₀ with nodeCache := mp₀.nodeCache.erase n } else mp₀).rootNode =
        mp₀.rootNode := fun m' mp₀ => (drop_fields mp₀ m' m n).2.2.1
  cases t with
  | ref m' n' root known =>
    have hne : n' ≠ n := by
      rintro rfl
      have hpos : 0 < total (.node n') H := total_pos ht rfl
      rw [hu.noRef] at hpos
      omega
    obtain ⟨mp₀, hm', hmem, hroot, hknown⟩ := hok
    refine ⟨_, drop_skel_of hm', hcache hm' hmem hne, ?_, ?_⟩
    · rw [drop_idOf hne, hrootNode]
      exact hroot
    · have htype : (s.view.drop m n o).typeOf n' = s.view.typeOf n' := by simp [View.drop, hne]
      cases known with
      | nothing => trivial
      | type t => exact htype.trans hknown
      | lacks name => exact ⟨htype.trans hknown.1, hknown.2⟩
  | pref m' => exact hok
  | debt m' => exact hok
  | mref m' =>
    obtain ⟨mp₀, hm', hp'⟩ := hok
    exact ⟨_, drop_skel_of hm', hp'⟩
  | link n' =>
    obtain ⟨m', mp₀, ⟨hm', hp'⟩, hmem⟩ := hok
    have hne : n' ≠ n := by
      rintro rfl
      have hmm : m' = m := h.disjoint m' mp₀ m mp.skel n' hm' hskel hmem hu.mem
      have hpos : 0 < total (.link n') H := total_pos ht rfl
      rw [(hu.temp (hmm ▸ hp')).2.2] at hpos
      omega
    exact ⟨m', _, ⟨drop_skel_of hm', hp'⟩, hcache hm' hmem hne⟩
  | fd d => exact hok
  | dying d => exact hok
  | own id' fresh =>
    obtain ⟨⟨tn, htn, hrt⟩, hnot⟩ := hok
    refine ⟨⟨tn, ?_, hrt⟩, fun m' hhas => hnot m' (hhas.of_drop h hskel hu.mem hid ?_).1⟩
    · show (if some id' = o then none else s.view.tests id') = some tn
      rw [if_neg]
      · exact htn
      · intro heq
        obtain ⟨hp, rfl⟩ := ho id' heq.symm
        exact hnot m ⟨mp.skel, ⟨hskel, hp⟩, Or.inr ⟨n, hu.mem, hid⟩⟩
    · exact fun hp => (hu.temp hp).1
  | sees m' dir name id' =>
    obtain ⟨mp₀, ⟨hm', hp'⟩, hmem, hentry⟩ := hok
    have hne : dir ≠ n := by
      rintro rfl
      rw [hnil] at hentry
      cases hentry
    exact ⟨_, ⟨drop_skel_of hm', hp'⟩, hcache hm' hmem hne, hentry⟩
  | named dir name c =>
    obtain ⟨m', mp₀, id', ⟨hm', hp'⟩, hdir, hc, hid', hentry⟩ := hok
    have hne : dir ≠ n := by
      rintro rfl
      rw [hnil] at hentry
      cases hentry
    have hcn : c ≠ n := by
      rintro rfl
      have hmm : m' = m := h.disjoint m' mp₀ m mp.skel c hm' hskel hc hu.mem
      subst hmm
      rw [hskel, Option.some.injEq] at hm'
      subst hm'
      rw [hid, Option.some.injEq] at hid'
      exact hu.not_named hp' hdir hentry hid'.symm
    refine ⟨m', _, id', ⟨drop_skel_of hm', hp'⟩, hcache hm' hdir hne, hcache hm' hc hcn, ?_, hentry⟩
    rw [drop_idOf hcn]
    exact hid'
  | empty n' => exact hok
  | isRoot m' n' =>
    obtain ⟨mp₀, ⟨hm', hp'⟩, hmem, hid'⟩ := hok
    have hne : n' ≠ n := by
      rintro rfl
      have hmm : m' = m := h.disjoint m' mp₀ m mp.skel n' hm' hskel hmem hu.mem
      subst hmm
      rw [hskel, Option.some.injEq] at hm'
      subst hm'
      rw [hid, Option.some.injEq] at hid'
      exact (hu.temp hp').1 hid'
    refine ⟨_, ⟨drop_skel_of hm', hp'⟩, hcache hm' hmem hne, ?_⟩
    rw [drop_idOf hne, hrootNode]
    exact hid'
  | «at» m' path =>
    obtain ⟨mp₀, hm', hpath⟩ := hok
    exact ⟨_, drop_skel_of hm', by rw [drop_path]; exact hpath⟩

/-- **A node that nobody uses leaves**, and its `TestNode` with it. -/
theorem Inv.dropNode {root : Bool} {known : Known} (h : Inv ({.ref m n root known} + H) s)
    (hu : Unused H s m mp n node) {o : Option Nat}
    (ho : o = if m = s.pipeMount then none else some node.id) :
    Inv H ((s.dropTest o).dropNode m n) := by
  have ho' : ∀ i, o = some i → m ≠ s.pipeMount ∧ i = node.id := by
    intro i hi
    rw [ho] at hi
    split_ifs at hi with hp
    exact ⟨hp, (Option.some.inj hi).symm⟩
  have hview := view_dropNode hu.mountCell hu.nodeCell hu.entries o
  have hskel := skel_of_cell hu.mountCell
  have hid := idOf_of_cell hu.nodeCell
  have hroot : m ≠ s.pipeMount → node.id ≠ mp.rootNode := fun hp => (hu.temp hp).1
  have hnil : s.view.entriesOf n = [] := (entriesOf_of_cell hu.nodeCell).trans hu.entries
  have hnotOpen : ∀ d desc, s.descs.cell d = some desc → desc.refCount ≠ 0 → desc.node ≠ n := by
    rintro d desc hd hz rfl
    have hsum := Heap.sum_eq_zero hu.notOpen hd
    simp [hz] at hsum
  refine ⟨by rw [hview]; exact h.shape.drop hskel hu.mem hid hroot ho', ?_, ?_, ?_, ?_, ?_, ?_⟩
  · rw [hview]
    intro t ht
    have hdescs : ((s.dropTest o).dropNode m n).descs = s.descs := by simp [State.dropNode]
    rw [hdescs]
    exact TokOK.drop h.shape hu ho' ht (h.toks_tail t ht)
  · intro m' mp' n' node' hm' hn' hnode'
    rw [hview] at hm' ⊢
    obtain ⟨mp₀, hmp₀, rfl⟩ := drop_skel.1 hm'
    obtain ⟨hmem, hne⟩ := (mem_drop h.shape hskel hu.mem hmp₀).1 hn'
    have hnode'' : s.nodes.cell n' = some node' := by simpa [State.dropNode, hne] using hnode'
    have hok := h.nodes m' mp₀ n' node' hmp₀ hmem hnode''
    obtain ⟨-, -, hr, hfs, -, -⟩ := drop_fields mp₀ m' m n
    refine ⟨hok.dirLock, ?_, hok.needed, fun hp => ?_, fun hp => { hok.pipe hp with }⟩
    · have hcount := hok.refCount
      rw [total_add, total_singleton] at hcount
      simpa [State.dropNode, Ne.symm hne] using hcount
    · have htemp := hok.temp hp
      refine { htemp with
        mp_eq := by rw [hr]; exact htemp.mp_eq
        mp_root := by rw [hr, hfs]; exact htemp.mp_root
        linkCount := ?_
        rootType := by rw [hr]; exact htemp.rootType
        entry := fun e he => ?_ }
      · have hlinks : (s.view.drop m n o).links
            (if m' = m then { mp₀ with nodeCache := mp₀.nodeCache.erase n } else mp₀).nodeCache
              node'.id = s.view.links mp₀.nodeCache node'.id := by
          unfold View.links
          show (List.map (fun n => (s.view.entriesOf n).countP _) _).sum = _
          split_ifs with heq
          · subst heq
            rw [hskel, Option.some.injEq] at hmp₀
            subst hmp₀
            have hsplit := List.sum_map_erase
              (fun n => (s.view.entriesOf n).countP fun e => e.nodeID = node'.id) hu.mem
            rw [hnil, List.countP_nil, Nat.zero_add] at hsplit
            exact hsplit
          · rfl
        rw [hr, hlinks]
        simpa using htemp.linkCount
      · have hentry := htemp.entry e he
        obtain ⟨n'', hn'', hid''⟩ := hentry.cached
        have hne'' : n'' ≠ n := by
          rintro rfl
          have hmm : m' = m := h.shape.disjoint m' mp₀ m mp.skel n'' hmp₀ hskel hn'' hu.mem
          subst hmm
          rw [hskel, Option.some.injEq] at hmp₀
          subst hmp₀
          rw [hid, Option.some.injEq] at hid''
          exact hu.not_named hp hmem (by rw [entriesOf_of_cell hnode'']; exact he) hid''.symm
        refine { hentry with
          notRoot := by rw [hr]; exact hentry.notRoot
          cached := ⟨n'', (mem_drop h.shape hskel hu.mem hmp₀).2 ⟨hn'', hne''⟩, ?_⟩ }
        rw [drop_idOf hne'']
        exact hid''
  · intro m' mp' hm'
    have hchild : childCount ((s.dropTest o).dropNode m n).mounts m' = childCount s.mounts m' := by
      simp only [State.dropNode, updMount_mounts, dropTest_mounts]
      exact Heap.sum_modify_of_eq _ _ fun mp _ => rfl
    have hdescs : ((s.dropTest o).dropNode m n).descs = s.descs := by simp [State.dropNode]
    have hr : ((s.dropTest o).dropNode m n).rootMount = s.rootMount := by simp [State.dropNode]
    have hp : ((s.dropTest o).dropNode m n).pipeMount = s.pipeMount := by simp [State.dropNode]
    have hw : total (.mount m') H = total (.mount m') ({.ref m n root known} + H) := by
      simp
    have hdebt : total (.debt m') H = total (.debt m') ({.ref m n root known} + H) := by
      simp
    by_cases heq : m' = m
    · subst heq
      obtain rfl : { mp with nodeCache := mp.nodeCache.erase n } = mp' := by
        simpa [State.dropNode, hu.mountCell] using hm'
      have hopen : openOn s.descs (fun n' => n' ∈ mp.nodeCache.erase n) =
          openOn s.descs fun n' => n' ∈ mp.nodeCache := by
        refine openOn_congr fun d desc hd hz => ?_
        have hne := hnotOpen d desc hd hz
        simp [List.mem_erase_of_ne hne]
      exact ((h.mounts m' mp hu.mountCell).recache hopen).congr hr hp hdescs hchild hw hdebt
    · have hold := h.mounts m' mp' (by simpa [State.dropNode, heq] using hm')
      exact hold.congr hr hp hdescs hchild hw hdebt
  · intro d desc hd
    have hd' : s.descs.cell d = some desc := by simpa [State.dropNode] using hd
    have hold := h.descs d desc hd'
    rw [hview]
    refine ⟨by simpa using hold.refCount, by simpa using hold.closing,
      fun hz => ?_, fun hz => ?_⟩
    · obtain ⟨m', mp₀, hm', hmem, hnotroot⟩ := hold.cached hz
      have hne := hnotOpen d desc hd' hz
      refine ⟨m', _, drop_skel_of hm', (mem_drop h.shape hskel hu.mem hm').2 ⟨hmem, hne⟩,
        fun hp => ?_⟩
      rw [drop_idOf hne, (drop_fields mp₀ m' m n).2.2.1]
      exact hnotroot hp
    · have hne := hnotOpen d desc hd' hz
      simpa [View.drop, hne] using hold.type hz
  · rw [hview]
    refine ⟨fun id' => by simpa using h.owned.once id', fun id' tn htn => ?_⟩
    have hnone : some id' ≠ o := by
      intro heq
      simp [View.drop, heq] at htn
    have htn' : s.view.tests id' = some tn := by simpa [View.drop, hnone] using htn
    rcases h.owned.owner id' tn htn' with ⟨m', hhas⟩ | hown
    · left
      by_cases heq : id' = node.id
      · -- only the pipes can have a node whose number is that of some `TestNode`
        have hpipe : m = s.pipeMount := by
          by_contra hp
          rw [ho, if_neg hp, heq] at hnone
          exact hnone rfl
        obtain ⟨mp₀, ⟨hm', hp'⟩, hor⟩ := hhas
        refine ⟨m', _, ⟨drop_skel_of hm', hp'⟩, ?_⟩
        have hmm : m' ≠ m := fun hmm => hp' (hmm.trans hpipe)
        rw [if_neg hmm]
        rcases hor with hor | ⟨n', hn', hid'⟩
        · exact Or.inl hor
        · refine Or.inr ⟨n', hn', ?_⟩
          rw [drop_idOf]
          · exact hid'
          · rintro rfl
            exact hmm (h.shape.disjoint m' mp₀ m mp.skel n' hm' hskel hn' hu.mem)
      · exact ⟨m', hhas.drop h.shape hskel hu.mem hid heq⟩
    · right
      simpa using hown
  · intro id'
    have hold := h.history id'
    cases o with
    | none => exact hold
    | some i =>
      obtain ⟨hp, rfl⟩ := ho' i rfl
      by_cases heq : node.id = id'
      · subst heq
        obtain ⟨tn, htn⟩ := h.shape.alive m node.id ⟨mp.skel, ⟨hskel, hp⟩, Or.inr ⟨n, hu.mem, hid⟩⟩
        have hcell : (s.testNodes.cell node.id).isSome := by
          simp only [State.view, Option.map_eq_some_iff] at htn
          obtain ⟨tn', htn', -⟩ := htn
          simp [htn']
        simpa [State.dropNode, State.dropTest, hcell] using hold
      · simpa [State.dropNode, State.dropTest, heq, Ne.symm heq] using hold

end ChenixOS.VFS
