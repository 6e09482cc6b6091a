import ChenixOS.Fs.Nodes

/-!
# Descriptors, pipes and the contents of files

A descriptor stands for a reference to its node and for one to the mount. `Open` turns the
references of its thread into a descriptor, the last `Close` turns them back. `CreatePipe` takes no
reference to its mount, so that the descriptors it makes are owed one each.
-/

namespace ChenixOS.VFS

variable {K : Kernel} {H H' : Held} {s : State} {n : NodeRef} {m : MountRef} {d : DescRef}
  {id : Nat} {node : Node} {mp : MountPoint} {desc : FileDescriptor} {t : Tok}

/-! ## Descriptors -/

/-- The reference to the mount that a descriptor stands for. -/
def mountShare (pipe m : MountRef) : Tok := if m = pipe then .pref m else .mref m

@[simp] theorem mountShare_key (pipe m : MountRef) :
    (mountShare pipe m).key = some (.mount m) := by
  unfold mountShare
  split_ifs <;> rfl

/-- **Descriptors.** The descriptors and the tokens change; together they count as before. -/
theorem Inv.changeDescs {descs : Heap FileDescriptor} (h : Inv H s)
    (htoks : ∀ t ∈ H', TokOK s.view descs t)
    (hnode : ∀ m mp n, s.view.skel m = some mp → n ∈ mp.nodeCache →
      openOn descs (fun n' => n' = n) + total (.node n) H' =
        openOn s.descs (fun n' => n' = n) + total (.node n) H)
    (hmount : ∀ m mp, s.mounts.cell m = some mp → m ≠ s.rootMount →
      openOn descs (fun n => n ∈ mp.nodeCache) + total (.mount m) H' =
        openOn s.descs (fun n => n ∈ mp.nodeCache) + total (.mount m) H)
    (hdebt : ∀ m, total (.debt m) H' = total (.debt m) H)
    (hlink : ∀ n, total (.link n) H' = total (.link n) H)
    (htest : ∀ id, total (.test id) H' = total (.test id) H)
    (hdescs : ∀ d desc, descs.cell d = some desc → DescOK H' s.view d desc) :
    Inv H' { s with descs } := by
  refine ⟨h.shape, htoks, ?_, ?_, hdescs, h.owned.congr htest, h.history⟩
  · intro m mp n node hm hn hcell
    have hok := h.nodes m mp n node hm hn hcell
    have hcount := hnode m mp n hm hn
    refine { hok with refCount := ?_, temp := fun hp => ?_ }
    · rw [hok.refCount, ← hcount]
    · have htemp := hok.temp hp
      exact { htemp with linkCount := by rw [hlink]; exact htemp.linkCount }
  · intro m mp hm
    have hold := h.mounts m mp hm
    refine ⟨hold.root, fun hp => ?_, fun hr hp => ?_⟩
    · have hr : m ≠ s.rootMount := fun hr => h.root_ne_pipe (hr.symm.trans hp)
      show _ ∧ _ = (openOn descs (fun n => n ∈ mp.nodeCache) + total (.mount m) H') % 2 ^ 64
      rw [hmount m mp hm hr, hdebt]
      exact hold.pipe hp
    · have hcount := hmount m mp hm hr
      have hother := hold.other hr hp
      show mp.refCount = openOn descs _ + childCount s.mounts m + _
      omega

theorem openOn_store (descs : Heap FileDescriptor) (p : NodeRef → Bool)
    (hd : descs.cell d = none) : openOn (descs.store d desc) p =
      openOn descs p + if desc.refCount ≠ 0 ∧ p desc.node then 1 else 0 :=
  Heap.sum_store _ desc hd

/-- A descriptor that is not there has no tokens. -/
theorem Inv.total_desc (h : Inv H s) (hd : s.descs.cell d = none) :
    total (.desc d) H = 0 ∧ total (.closing d) H = 0 := by
  constructor
  · by_contra hpos
    obtain ⟨t, ht, hk⟩ := exists_of_total_pos (Nat.pos_of_ne_zero hpos)
    obtain rfl := Tok.key_eq_desc hk
    obtain ⟨desc, hdesc⟩ := h.toks _ ht
    rw [hd] at hdesc
    cases hdesc
  · by_contra hpos
    obtain ⟨t, ht, hk⟩ := exists_of_total_pos (Nat.pos_of_ne_zero hpos)
    obtain rfl := Tok.key_eq_closing hk
    obtain ⟨desc, hdesc, -⟩ := h.toks _ ht
    rw [hd] at hdesc
    cases hdesc

/-- What tokens promise does not depend on the descriptors but for their own. -/
theorem TokOK.changeDescs {v : View} {descs descs' : Heap FileDescriptor} (ht : TokOK v descs t)
    (hfd : ∀ d, t = .fd d → ∃ desc, descs'.cell d = some desc)
    (hdying : ∀ d, t = .dying d → ∃ desc, descs'.cell d = some desc ∧ desc.refCount = 0) :
    TokOK v descs' t := by
  cases t with
  | fd d => exact hfd d rfl
  | dying d => exact hdying d rfl
  | _ => exact ht

/-- The references of a thread become a descriptor. -/
theorem Inv.newDesc {type : NodeType}
    (h : Inv ({.ref m n false (.type type)} + ({mountShare s.pipeMount m} + H)) s)
    (hdir : type ≠ .directory) (hsymlink : type ≠ .symlink)
    (hd : s.descs.cell d = none) (hone : desc.refCount = 1) (hn : desc.node = n) :
    Inv ({.fd d} + H) { s with descs := s.descs.store d desc } := by
  obtain ⟨mp, hm, hmem, hroot, htype⟩ := h.toks _ (mem_head _ _)
  have htail : ∀ t ∈ H, TokOK s.view s.descs t := by
    intro t ht
    exact h.toks_tail t (Multiset.mem_add.2 (Or.inr ht))
  obtain ⟨hdesc, hclosing⟩ := h.total_desc hd
  replace hdesc : total (.desc d) H = 0 := by
    simp only [total_add] at hdesc
    omega
  replace hclosing : total (.closing d) H = 0 := by
    simp only [total_add] at hclosing
    omega
  refine h.changeDescs ?_ ?_ ?_ ?_ ?_ ?_ ?_
  · intro t ht
    rcases Multiset.mem_add.1 ht with htok | htok
    · rw [Multiset.mem_singleton.1 htok]
      exact ⟨desc, Heap.cell_store_self _ _ _⟩
    · refine (htail t htok).changeDescs ?_ ?_
      · rintro d' rfl
        obtain ⟨desc', hdesc'⟩ := htail _ htok
        refine ⟨desc', ?_⟩
        rw [Heap.cell_store_ne]
        · exact hdesc'
        · rintro rfl
          rw [hd] at hdesc'
          cases hdesc'
      · rintro d' rfl
        obtain ⟨desc', hdesc', hz⟩ := htail _ htok
        refine ⟨desc', ?_, hz⟩
        rw [Heap.cell_store_ne]
        · exact hdesc'
        · rintro rfl
          rw [hd] at hdesc'
          cases hdesc'
  · intro m' mp' n' hm' hn'
    rw [openOn_store _ _ hd, hone, hn]
    by_cases heq : n = n'
    · simp [heq]
      omega
    · simp [heq]
  · intro m' mp' hm' hr
    rw [openOn_store _ _ hd, hone, hn]
    by_cases heq : m = m'
    · subst heq
      obtain ⟨mp₀, hm₀, rfl⟩ := cell_of_skel hm
      rw [hm', Option.some.injEq] at hm₀
      subst hm₀
      simp [show n ∈ mp'.nodeCache from hmem]
      omega
    · have hnot : n ∉ mp'.nodeCache := fun hc =>
        heq (h.shape.disjoint m mp m' mp'.skel n hm (skel_of_cell hm') hmem hc)
      simp [hnot, heq]
  · simp
  · simp
  · simp
  · intro d' desc' hd'
    by_cases heq : d' = d
    · subst heq
      obtain rfl : desc = desc' := by simpa using hd'
      refine ⟨by simp [hone, hdesc], by simp [hone, hclosing], fun _ => ?_,
        fun _ => ⟨type, hn ▸ htype, hdir, hsymlink⟩⟩
      refine ⟨m, mp, hm, hn ▸ hmem, fun hp hid => ?_⟩
      rw [hn] at hid
      simpa using hroot.2 ⟨hp, hid⟩
    · have hold := h.descs d' desc' (by simpa [heq] using hd')
      exact hold.congr (by simp [Ne.symm heq]) (by simp)

theorem openOn_modify {descs : Heap FileDescriptor} (hd : descs.cell d = some desc)
    (f : FileDescriptor → FileDescriptor) (p : NodeRef → Bool) :
    openOn (descs.modify d f) p + (if desc.refCount ≠ 0 ∧ p desc.node then 1 else 0) =
      openOn descs p + if (f desc).refCount ≠ 0 ∧ p (f desc).node then 1 else 0 :=
  Heap.sum_modify _ f hd

/-- A descriptor that is not being closed has no token that says so. -/
theorem Inv.not_dying (h : Inv H s) (hd : s.descs.cell d = some desc) (hz : desc.refCount ≠ 0) :
    Tok.dying d ∉ H := by
  intro htok
  obtain ⟨desc', hd', hz'⟩ := h.toks _ htok
  rw [hd, Option.some.injEq] at hd'
  exact hz (hd' ▸ hz')

theorem TokOK.updDesc {v : View} {f : FileDescriptor → FileDescriptor}
    (ht : TokOK v s.descs t) (hd : s.descs.cell d = some desc) (hne : t ≠ .dying d) :
    TokOK v (s.updDesc d f).descs t := by
  refine ht.changeDescs ?_ ?_
  · rintro d' rfl
    obtain ⟨desc', hd'⟩ := ht
    by_cases heq : d' = d
    · exact ⟨f desc, by simp [State.updDesc, heq, hd]⟩
    · exact ⟨desc', by simpa [State.updDesc, heq] using hd'⟩
  · rintro d' rfl
    obtain ⟨desc', hd', hz⟩ := ht
    have heq : d' ≠ d := fun heq => hne (by rw [heq])
    exact ⟨desc', by simpa [State.updDesc, heq] using hd', hz⟩

/-- The counter of an open descriptor, or its position, changes. -/
theorem Inv.touchDesc {f : FileDescriptor → FileDescriptor} (h : Inv H s)
    (hd : s.descs.cell d = some desc) (hn : (f desc).node = desc.node)
    (hz : desc.refCount ≠ 0) (hz' : (f desc).refCount ≠ 0)
    (htoks : ∀ t ∈ H', TokOK s.view s.descs t)
    (hw : ∀ k, k ≠ .desc d → total k H' = total k H)
    (hcount : (f desc).refCount = total (.desc d) H') : Inv H' (s.updDesc d f) := by
  have hopen : ∀ p, openOn (s.descs.modify d f) p = openOn s.descs p := by
    intro p
    have hsum := openOn_modify hd f p
    rw [hn] at hsum
    simp only [ne_eq, hz, hz', not_false_eq_true, true_and] at hsum
    omega
  have hdying : Tok.dying d ∉ H' := by
    intro htok
    obtain ⟨desc', hd', hzero⟩ := htoks _ htok
    rw [hd, Option.some.injEq] at hd'
    exact hz (hd' ▸ hzero)
  refine h.changeDescs ?_ ?_ ?_ (fun m => hw _ (by simp)) (fun n => hw _ (by simp))
    (fun id => hw _ (by simp)) ?_
  · intro t ht
    exact (htoks t ht).updDesc hd fun heq => hdying (heq ▸ ht)
  · intro m mp n _ _
    rw [hopen, hw _ (by simp)]
  · intro m mp _ _
    rw [hopen, hw _ (by simp)]
  · intro d' desc' hd'
    by_cases heq : d' = d
    · subst heq
      obtain rfl : f desc = desc' := by simpa [hd] using hd'
      have hold := h.descs d' desc hd
      refine ⟨hcount, ?_, fun _ => ?_, fun _ => ?_⟩
      · rw [hw _ (by simp), hold.closing, if_neg hz, if_neg hz']
      · rw [hn]
        exact hold.cached hz
      · rw [hn]
        exact hold.type hz
    · have hold := h.descs d' desc' (by simpa [heq] using hd')
      exact hold.congr (hw _ (by simp [heq])) (hw _ (by simp))

/-- Between calls, descriptors are open. -/
theorem Inv.fd_open (h : Inv ({.fd d} + H) s) (hd : s.descs.cell d = some desc) :
    desc.refCount = 1 + total (.desc d) H := by
  rw [(h.descs d desc hd).refCount]
  simp

/-- `desc->pos` -/
theorem Inv.setPos (h : Inv ({.fd d} + H) s) (hd : s.descs.cell d = some desc) (pos : Nat) :
    Inv ({.fd d} + H) (s.updDesc d fun desc => { desc with pos }) := by
  have hcount := h.fd_open hd
  have hz : desc.refCount ≠ 0 := by omega
  exact h.touchDesc hd rfl hz hz h.toks (fun _ _ => rfl) (h.descs d desc hd).refCount

/-- `AddRef` -/
theorem Inv.addDescRef (h : Inv ({.fd d} + H) s) (hd : s.descs.cell d = some desc) :
    Inv ({.fd d} + ({.fd d} + H))
      (s.updDesc d fun desc => { desc with refCount := inc desc.refCount }) := by
  have hcount := h.fd_open hd
  refine h.touchDesc hd rfl (by omega) (by simp [inc]) (h.toks_cons ⟨desc, hd⟩) ?_ ?_
  · intro k hk
    simp [Ne.symm hk]
  · simp only [total_add, total_singleton, Tok.key, if_true, inc]
    omega

/-- A reference to a descriptor that stays open is given back. -/
theorem Inv.dropDescRef (h : Inv ({.fd d} + H) s) (hd : s.descs.cell d = some desc)
    (hmore : dec desc.refCount ≠ 0) :
    Inv H (s.updDesc d fun desc => { desc with refCount := dec desc.refCount }) := by
  have hcount := h.fd_open hd
  have hdec : dec desc.refCount = desc.refCount - 1 := if_neg (by omega)
  refine h.touchDesc hd rfl (by omega) hmore h.toks_tail ?_ ?_
  · intro k hk
    simp [Ne.symm hk]
  · simp only [hdec]
    omega

/-- The node that an open descriptor is for. -/
theorem Inv.desc_cached (h : Inv H s) (hd : s.descs.cell d = some desc) (hz : desc.refCount ≠ 0) :
    ∃ m mp node, s.mounts.cell m = some mp ∧ desc.node ∈ mp.nodeCache ∧
      s.nodes.cell desc.node = some node ∧ node.mp = m ∧
      (m ≠ s.pipeMount → node.id ≠ mp.rootNode) := by
  obtain ⟨m, skel, hskel, hmem, hroot⟩ := (h.descs d desc hd).cached hz
  obtain ⟨mp, hm, rfl⟩ := cell_of_skel hskel
  obtain ⟨node, hn⟩ := h.live hm hmem
  have hok := h.nodeOK hm hmem hn
  have hnotroot : m ≠ s.pipeMount → node.id ≠ mp.rootNode := by
    intro hp hid
    refine hroot hp ?_
    rw [idOf_of_cell hn, hid]
    rfl
  refine ⟨m, mp, node, hm, hmem, hn, ?_, hnotroot⟩
  by_cases hp : m = s.pipeMount
  · rw [(hok.pipe hp).mp_eq]
    exact hp.symm
  · exact (hok.temp hp).mp_eq (hnotroot hp)

/-- The last reference to a descriptor is given back: its references to the node and to the mount
are the thread's. -/
theorem Inv.closeDesc (h : Inv ({.fd d} + H) s) (hd : s.descs.cell d = some desc)
    (hlast : dec desc.refCount = 0) (hm : s.mounts.cell m = some mp)
    (hmem : desc.node ∈ mp.nodeCache) :
    Inv ({.ref m desc.node false .nothing} + ({mountShare s.pipeMount m} + ({.dying d} + H)))
      (s.updDesc d fun desc => { desc with refCount := dec desc.refCount }) := by
  have hcount := h.fd_open hd
  have hone : desc.refCount = 1 := by
    unfold dec at hlast
    rw [if_neg (by omega)] at hlast
    omega
  have hz : desc.refCount ≠ 0 := by omega
  have hskel := skel_of_cell hm
  have hsum := fun p => openOn_modify hd
    (fun desc => { desc with refCount := dec desc.refCount }) p
  simp only [hlast, ne_eq, not_true_eq_false, false_and, if_false, hz, not_false_eq_true,
    true_and] at hsum
  have hdesc : total (.desc d) H = 0 := by omega
  have hclosing : total (.closing d) H = 0 := by
    have hold := (h.descs d desc hd).closing
    rw [if_neg hz] at hold
    simpa using hold
  refine h.changeDescs ?_ ?_ ?_ ?_ ?_ ?_ ?_
  · intro t ht
    rcases Multiset.mem_add.1 ht with htok | htok
    · rw [Multiset.mem_singleton.1 htok]
      obtain ⟨m', mp', hm', hmem', hroot⟩ := (h.descs d desc hd).cached hz
      have heq : m' = m := h.shape.disjoint m' mp' m mp.skel _ hm' hskel hmem' hmem
      subst heq
      rw [hm', Option.some.injEq] at hskel
      subst hskel
      refine ⟨mp.skel, hm', hmem, ⟨fun hf => absurd hf (by simp), fun hr => ?_⟩, trivial⟩
      exact absurd hr.2 (hroot hr.1)
    rcases Multiset.mem_add.1 htok with htok | htok
    · rw [Multiset.mem_singleton.1 htok]
      unfold mountShare
      split_ifs with hp
      · exact hp
      · exact ⟨mp.skel, hskel, hp⟩
    rcases Multiset.mem_add.1 htok with htok | htok
    · rw [Multiset.mem_singleton.1 htok]
      exact ⟨_, by simp [hd]; rfl, hlast⟩
    · refine (h.toks_tail t htok).updDesc hd fun heq => ?_
      exact h.not_dying hd hz (mem_tail (heq ▸ htok))
  · intro m' mp' n hm' hn
    have hs := hsum fun n' => n' = n
    by_cases heq : desc.node = n
    · simp [heq] at hs ⊢
      omega
    · simp [heq] at hs ⊢
      omega
  · intro m' mp' hm' hr
    have hs := hsum fun n' => n' ∈ mp'.nodeCache
    by_cases heq : m = m'
    · subst heq
      rw [hm, Option.some.injEq] at hm'
      subst hm'
      simp [hmem] at hs ⊢
      omega
    · have hnot : desc.node ∉ mp'.nodeCache := fun hc =>
        heq (h.shape.disjoint m mp.skel m' mp'.skel _ hskel (skel_of_cell hm') hmem hc)
      simp [hnot, heq] at hs ⊢
      omega
  · simp
  · simp
  · simp
  · intro d' desc' hd'
    by_cases heq : d' = d
    · subst heq
      obtain rfl : { desc with refCount := dec desc.refCount } = desc' := by
        simpa [hd] using hd'
      refine ⟨?_, ?_, fun hz' => absurd hlast hz', fun hz' => absurd hlast hz'⟩
      · simp [hdesc, hlast]
      · simp [hclosing, hlast]
    · have hold := h.descs d' desc' (by simpa [heq] using hd')
      exact hold.congr (by simp [Ne.symm heq]) (by simp [Ne.symm heq])

/-- `delete desc` -/
theorem Inv.deleteDesc (h : Inv ({.dying d} + H) s) :
    Inv H { s with descs := s.descs.free d } := by
  obtain ⟨desc, hd, hz⟩ := h.toks _ (mem_head _ H)
  have hold := h.descs d desc hd
  have hdesc : total (.desc d) H = 0 := by
    have hcount := hold.refCount
    rw [hz] at hcount
    simp at hcount
    omega
  have hclosing : total (.closing d) H = 0 := by
    have hcount := hold.closing
    rw [if_pos hz] at hcount
    simp at hcount
    omega
  have hopen : ∀ p, openOn (s.descs.free d) p = openOn s.descs p := by
    intro p
    have hsum := Heap.sum_free (fun desc => if desc.refCount ≠ 0 ∧ p desc.node then 1 else 0) hd
    simp only [hz, ne_eq, not_true_eq_false, false_and, if_false] at hsum
    exact hsum
  refine h.changeDescs ?_ ?_ ?_ ?_ ?_ ?_ ?_
  · intro t ht
    refine (h.toks_tail t ht).changeDescs ?_ ?_
    · rintro d' rfl
      have hne : d' ≠ d := by
        rintro rfl
        have hpos : 0 < total (.desc d') H := total_pos ht rfl
        omega
      obtain ⟨desc', hd'⟩ := h.toks_tail _ ht
      exact ⟨desc', by rw [Heap.cell_free_ne _ hne]; exact hd'⟩
    · rintro d' rfl
      have hne : d' ≠ d := by
        rintro rfl
        have hpos : 0 < total (.closing d') H := total_pos ht rfl
        omega
      obtain ⟨desc', hd', hz'⟩ := h.toks_tail _ ht
      exact ⟨desc', by rw [Heap.cell_free_ne _ hne]; exact hd', hz'⟩
  · intro m mp n _ _
    simp [hopen]
  · intro m mp _ _
    simp [hopen]
  · simp
  · simp
  · simp
  · intro d' desc' hd'
    obtain ⟨hne, hd''⟩ := Heap.cell_free_eq_some.1 hd'
    exact (h.descs d' desc' hd'').congr (by simp) (by simp [Ne.symm hne])

/-! ## Pipes -/

section Pipes

variable {pipes : PipeFS.Pipes}

/-- The vector of pipes after a slot was changed, but not its id. -/
theorem slots_set {p p' : PipeFS.Pipe} (hp : pipes[id]? = some p) (hid : p'.id = p.id) :
    (pipes.set id p').map PipeFS.Pipe.id = pipes.map PipeFS.Pipe.id := by
  refine List.ext_getElem? fun i => ?_
  rw [List.getElem?_map, List.getElem?_map, List.getElem?_set]
  split_ifs with heq hlt
  · subst heq
    simp [hp, hid]
  · rw [List.getElem?_eq_none (by omega)]
  · rfl

theorem slots_recycle {id : Nat} {pipes' : PipeFS.Pipes}
    (h : PipeFS.recycle pipes = some (id, pipes')) :
    pipes'.map PipeFS.Pipe.id = pipes.map PipeFS.Pipe.id ∧ id ∈ pipes.map PipeFS.Pipe.id := by
  induction pipes generalizing pipes' with
  | nil => cases h
  | cons p pipes ih =>
    unfold PipeFS.recycle at h
    split_ifs at h with hfree
    · simp only [Option.some.injEq, Prod.mk.injEq] at h
      obtain ⟨rfl, rfl⟩ := h
      simp
    · obtain ⟨⟨id', pipes''⟩, hrec, heq⟩ := Option.map_eq_some_iff.1 h
      simp only [Prod.mk.injEq] at heq
      obtain ⟨rfl, rfl⟩ := heq
      obtain ⟨hsame, hmem⟩ := ih hrec
      exact ⟨by simp [hsame], by simp [hmem]⟩

/-- `PipeFS::CreateNode` hands out the number of a slot. -/
theorem slots_createNode (h : pipes.map PipeFS.Pipe.id = List.range pipes.length) :
    (PipeFS.createNode pipes).2.map PipeFS.Pipe.id =
        List.range (PipeFS.createNode pipes).2.length ∧
      pipes.length ≤ (PipeFS.createNode pipes).2.length ∧
      (PipeFS.createNode pipes).1 < (PipeFS.createNode pipes).2.length := by
  unfold PipeFS.createNode
  cases hrec : PipeFS.recycle pipes with
  | none => simp [h, List.range_succ]
  | some r =>
    obtain ⟨id, pipes'⟩ := r
    obtain ⟨hsame, hmem⟩ := slots_recycle hrec
    have hlen : pipes'.length = pipes.length := by simpa using congrArg List.length hsame
    rw [h] at hmem
    simp only [hlen, hsame, h, le_refl, true_and]
    simpa using hmem

/-- The mount of the pipes has a vector of pipes. -/
theorem Inv.pipeSlots (h : Inv H s) : ∃ mp pipes, s.mounts.cell s.pipeMount = some mp ∧
    mp.fs = .pipeFS pipes ∧ mp.nodeCacheLock = false ∧
    pipes.map PipeFS.Pipe.id = List.range pipes.length ∧ s.view.slots.length = pipes.length := by
  obtain ⟨skel, hskel⟩ := h.shape.pipe
  obtain ⟨mp, hm, rfl⟩ := cell_of_skel hskel
  replace hm : s.mounts.cell s.pipeMount = some mp := hm
  have hok := h.mountOK hm
  obtain ⟨pipes, hpipes⟩ := pipes_of_skel (hok.pipes rfl).1
  have hslots := h.shape.slots
  have hview : s.view.slots = pipes.map PipeFS.Pipe.id := by
    simp [State.view, hm, hpipes, FileSystem.slots]
  rw [hview, List.length_map] at hslots
  exact ⟨mp, pipes, hm, hpipes, hok.nodeCacheLock, hslots, by rw [hview, List.length_map]⟩

/-- The pipes change; a slot once there stays. -/
theorem Inv.setPipes {pipes' : PipeFS.Pipes} (h : Inv H s)
    (hm : s.mounts.cell s.pipeMount = some mp) (hfs : mp.fs = .pipeFS pipes)
    (hslots : pipes'.map PipeFS.Pipe.id = List.range pipes'.length)
    (hlen : pipes.length ≤ pipes'.length) :
    Inv H (s.updMount s.pipeMount fun mp => { mp with fs := .pipeFS pipes' }) := by
  have hskel : MountPoint.skel { mp with fs := .pipeFS pipes' } = mp.skel := by
    simp [MountPoint.skel, hfs]
  have hview : (s.updMount s.pipeMount fun mp => { mp with fs := .pipeFS pipes' }).view =
      { s.view with slots := pipes'.map PipeFS.Pipe.id } := by
    unfold State.view
    congr 1
    · funext m'
      by_cases heq : m' = s.pipeMount
      · subst heq
        simp [hm, hskel]
      · simp [heq]
    · simp [hm, FileSystem.slots]
  have hold : s.view.slots.length = pipes.length := by
    simp [State.view, hm, hfs, FileSystem.slots]
  refine ⟨?_, ?_, ?_, ?_, ?_, ?_, h.history⟩
  · rw [hview]
    exact ⟨h.shape.root, h.shape.pipe, fun m mp hm => { h.shape.mount m mp hm with },
      h.shape.disjoint, h.shape.has, h.shape.inj, h.shape.alive, by simpa using hslots⟩
  · rw [hview]
    intro t ht
    have htok := h.toks t ht
    cases t with
    | ref m n root known =>
      obtain ⟨mp', hm', hmem, hroot, hknown⟩ := htok
      refine ⟨mp', hm', hmem, hroot, ?_⟩
      cases known <;> exact hknown
    | _ => exact htok
  · rw [hview]
    intro m mp' n node hm' hn hnode
    have hok := h.nodes m mp' n node hm' hn hnode
    refine { hok with temp := fun hp => ?_, pipe := fun hp => ?_ }
    · have htemp := hok.temp hp
      exact { htemp with entry := fun e he => { htemp.entry e he with } }
    · have hpipe := hok.pipe hp
      have hslot := hpipe.slot
      refine { hpipe with slot := ?_ }
      show node.id < (pipes'.map PipeFS.Pipe.id).length
      rw [List.length_map]
      omega
  · intro m' mp' hm'
    have hchild : childCount (s.updMount s.pipeMount fun mp =>
        { mp with fs := .pipeFS pipes' }).mounts m' = childCount s.mounts m' := by
      refine childCount_updMount ?_ m'
      intro mp
      rfl
    by_cases heq : m' = s.pipeMount
    · subst heq
      obtain rfl : { mp with fs := .pipeFS pipes' } = mp' := by simpa [hm] using hm'
      have hmp := h.mounts _ mp hm
      exact MountCount.congr (s := s) ⟨hmp.root, hmp.pipe, hmp.other⟩ rfl rfl rfl hchild rfl rfl
    · exact (h.mounts m' mp' (by simpa [heq] using hm')).congr rfl rfl rfl hchild rfl rfl
  · rw [hview]
    intro d desc hd
    exact { h.descs d desc hd with }
  · rw [hview]
    exact { h.owned with }

/-- `CreatePipe` makes a node with two references. -/
theorem Inv.pushPipe (h : Inv H s) (hm : s.mounts.cell s.pipeMount = some mp)
    (hn : s.nodes.cell n = none) (hslot : id < s.view.slots.length) :
    Inv ({.ref s.pipeMount n false (.type .pipe)} +
        ({.ref s.pipeMount n false (.type .pipe)} + H))
      (s.pushNode s.pipeMount n { blankNode id s.pipeMount 2 false with type := .pipe }) := by
  have hskel := skel_of_cell hm
  have hidOf : s.view.idOf n = none := by simp [State.view, hn]
  set node : Node := { blankNode id s.pipeMount 2 false with type := .pipe } with hnode
  have hpush : (s.view.push s.pipeMount n node.id node.type).skel s.pipeMount =
      some (mp.skel.push n) := by
    rw [push_skel_of hskel, if_pos rfl]
  have hmem : n ∈ (mp.skel.push n).nodeCache := by simp [MountPoint.push]
  obtain ⟨hfreshNode, -⟩ := h.total_fresh hn
  have htok : TokOK (s.view.push s.pipeMount n node.id node.type) s.descs
      (.ref s.pipeMount n false (.type .pipe)) := by
    refine ⟨_, hpush, hmem, ⟨fun hf => absurd hf (by simp), fun hr => absurd rfl hr.1⟩, ?_⟩
    simp [Known.Holds, View.push, hnode]
  refine h.pushNode hm hn rfl (fun hp => absurd rfl hp) ?_ ?_ ?_ ?_
  · intro t ht
    rcases Multiset.mem_add.1 ht with ht | ht
    · rw [Multiset.mem_singleton.1 ht]
      exact htok
    rcases Multiset.mem_add.1 ht with ht | ht
    · rw [Multiset.mem_singleton.1 ht]
      exact htok
    · refine (h.toks t ht).push h.shape hidOf fun id' fresh heq m' hhas => ?_
      subst heq
      rcases push_has h.shape hidOf hhas with hold | ⟨rfl, rfl⟩
      · exact (h.toks _ ht).2 m' hold
      · exact hhas.choose_spec.1.2 rfl
  · intro k hk _ _
    simp [Ne.symm hk]
  · refine ⟨fun id' => by simpa using h.owned.once id', fun id' tn' htn' => ?_⟩
    rcases h.owned.owner id' tn' htn' with ⟨m', hhas⟩ | hown
    · exact Or.inl ⟨m', hhas.push hidOf⟩
    · right
      simpa using hown
  · have hopen : openOn s.descs (fun n' => n' = n) = 0 :=
      openOn_eq_zero fun d desc hd hz => by simp [h.not_open hn d desc hd hz]
    refine ⟨rfl, ?_, by simp [hnode, blankNode], fun hp => absurd rfl hp, fun _ => ?_⟩
    · rw [hopen]
      simp [hfreshNode, hnode, blankNode]
    · exact ⟨rfl, rfl, rfl, hslot⟩

end Pipes

/-! ## Contents of files, and threads -/

/-- The contents of files are not seen. -/
theorem view_updTestNode {f : TestNode → TestNode}
    (hf : ∀ tn, { f tn with fileData := [] } = { tn with fileData := [] }) :
    (s.updTestNode id f).view = s.view := by
  unfold State.view
  congr 1
  funext id'
  by_cases heq : id' = id
  · subst heq
    cases htn : s.testNodes.cell id' with
    | none => simp [State.updTestNode, htn]
    | some tn => simp [State.updTestNode, htn, hf]
  · simp [State.updTestNode, heq]

theorem Inv.setData {f : TestNode → TestNode} (h : Inv H s)
    (hf : ∀ tn, { f tn with fileData := [] } = { tn with fileData := [] }) :
    Inv H (s.updTestNode id f) := by
  have hview : (s.updTestNode id f).view = s.view := view_updTestNode hf
  refine ⟨by rw [hview]; exact h.shape, by rw [hview]; exact h.toks, by rw [hview]; exact h.nodes,
    fun m mp hm => (h.mounts m mp hm).congr rfl rfl rfl rfl rfl rfl, by rw [hview]; exact h.descs,
    by rw [hview]; exact h.owned, fun id' => ?_⟩
  have hold := h.history id'
  by_cases heq : id' = id
  · subst heq
    simpa [State.updTestNode] using hold
  · simpa [State.updTestNode, heq] using hold

/-- The threads are not seen. -/
theorem Inv.setThreads (h : Inv H s) (threads : ThreadRef → ThreadInfo) :
    Inv H { s with threads } :=
  ⟨h.shape, h.toks, h.nodes, fun m mp hm => (h.mounts m mp hm).congr rfl rfl rfl rfl rfl rfl, h.descs,
    h.owned, h.history⟩

end ChenixOS.VFS
