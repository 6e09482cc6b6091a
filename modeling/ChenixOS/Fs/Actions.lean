import ChenixOS.Fs.Mounts
import ChenixOS.Fs.PathProof

/-!
# What an action does to the tokens

One lemma for each atomic action of the VFS: which tokens its thread must own, and which it owns
afterwards. The tokens of the other threads, `f` in `Does`, are kept by every action but two.
Adding and removing a directory entry are harmless only while no other thread relies on what was
found in that directory; `Conflict` says which sections exclude each other.
-/

namespace ChenixOS.VFS

variable {K : Kernel} {α β : Type} {s : State} {n : NodeRef} {m : MountRef} {d : DescRef}
  {id : Nat} {root : Bool} {known : Known} {path name : Str} {t : Tok} {l : Label}

/-! ## Conflicts -/

/-- The section whose outcome a token records. -/
def Tok.Owes : Tok → Label → Prop
  | ref _ n _ (.lacks name), l => l = .lookup n name
  | sees _ dir name _, l => l = .lookup dir name
  | named dir name _, l => l = .lookup dir name
  | empty n, l => l = .checkEmpty n
  | _, _ => False

section Owes

variable {l : Label}

@[simp] theorem owes_nothing {root : Bool} : ¬ (Tok.ref m n root .nothing).Owes l := fun h => h
@[simp] theorem owes_type {root : Bool} {type : NodeType} :
    ¬ (Tok.ref m n root (.type type)).Owes l := fun h => h
@[simp] theorem owes_lacks {root : Bool} :
    (Tok.ref m n root (.lacks name)).Owes l ↔ l = .lookup n name := Iff.rfl
@[simp] theorem owes_mref : ¬ (Tok.mref m).Owes l := fun h => h
@[simp] theorem owes_pref : ¬ (Tok.pref m).Owes l := fun h => h
@[simp] theorem owes_debt : ¬ (Tok.debt m).Owes l := fun h => h
@[simp] theorem owes_link : ¬ (Tok.link n).Owes l := fun h => h
@[simp] theorem owes_fd : ¬ (Tok.fd d).Owes l := fun h => h
@[simp] theorem owes_dying : ¬ (Tok.dying d).Owes l := fun h => h
@[simp] theorem owes_own {fresh : Bool} : ¬ (Tok.own id fresh).Owes l := fun h => h
@[simp] theorem owes_sees : (Tok.sees m n name id).Owes l ↔ l = .lookup n name := Iff.rfl
@[simp] theorem owes_named {c : NodeRef} : (Tok.named n name c).Owes l ↔ l = .lookup n name := Iff.rfl
@[simp] theorem owes_empty : (Tok.empty n).Owes l ↔ l = .checkEmpty n := Iff.rfl
@[simp] theorem owes_isRoot : ¬ (Tok.isRoot m n).Owes l := fun h => h
@[simp] theorem owes_at : ¬ (Tok.at m path).Owes l := fun h => h

end Owes

def owes (g : Held) (l : Label) : Prop := ∃ t ∈ g, t.Owes l

@[simp] theorem not_owes_zero : ¬ owes 0 l := by
  intro ⟨t, ht, _⟩
  cases ht

@[simp] theorem owes_add {g g' : Held} : owes (g + g') l ↔ owes g l ∨ owes g' l := by
  unfold owes
  simp only [Multiset.mem_add]
  grind

@[simp] theorem owes_singleton : owes {t} l ↔ t.Owes l := by
  simp [owes]

@[simp] theorem owes_cons {g : Held} : owes (t ::ₘ g) l ↔ t.Owes l ∨ owes g l := by
  simp [owes]

/-- The first section may make wrong what the second one found. -/
inductive Conflict : Label → Label → Prop
  | addLookup (dir : NodeRef) (name : Str) : Conflict (.addEntry dir name) (.lookup dir name)
  | addEmpty (dir : NodeRef) (name : Str) : Conflict (.addEntry dir name) (.checkEmpty dir)
  | removeLookup (dir : NodeRef) (name : Str) : Conflict (.removeEntry dir name) (.lookup dir name)

/-! ## Actions that anyone may do at any time -/

/-- The action exchanges the tokens `g` of its thread for some that satisfy `Q`, whatever the
others hold, and its thread relies on nothing new. -/
def Does (m : M α) (g : Held) (Q : α → Held → Prop) : Prop :=
  ∀ s f, Inv (g + f) s → Ends (m s) fun a s' =>
    ∃ g', Inv (g' + f) s' ∧ (∀ l, owes g' l → owes g l) ∧ Q a g'

theorem Does.safe {m : M α} {g : Held} {Q : α → Held → Prop} (h : Does m g Q) :
    Safe Inv owes Anyone (step m) g Q := by
  intro s f hI _
  refine (h s f hI).mono fun a s' => ?_
  rintro ⟨g', hI', howes, hQ⟩
  exact ⟨g', hI', fun l hl => Or.inl (howes l hl), hQ⟩

/-- An action that only reads what does not need a token. -/
theorem does_read {m : M α} (h : ∀ s, Ends (m s) fun _ s' => s' = s) :
    Does m 0 fun _ g => g = 0 := by
  intro s f hI
  refine (h s).mono fun a s' hs' => ?_
  exact ⟨0, hs' ▸ hI, fun _ hl => hl, rfl⟩

theorem does_get : Does (get : M State) 0 fun _ g => g = 0 := does_read fun _ => rfl

theorem does_getThread (t : ThreadRef) : Does (getThread t) 0 fun _ g => g = 0 :=
  does_read fun _ => rfl

theorem does_prepare (bufSize : Nat) (t : ThreadRef) (userPath : Option Str) :
    Does (prepare bufSize t userPath) 0 fun r g =>
      g = 0 ∧ ∀ buffer, r = .ok buffer → NoTrailing buffer := by
  intro s f hI
  unfold prepare
  rw [M.bind_ok (show getThread t s = .ok (s.threads t, s) from rfl)]
  unfold M.lift
  cases hprep : preparePath bufSize (s.threads t).cwd userPath with
  | ok r =>
    refine ⟨0, hI, fun _ hl => hl, rfl, fun buffer hbuf => ?_⟩
    subst hbuf
    exact preparePath_noTrailing hprep
  | error e =>
    obtain rfl := preparePath_error hprep
    trivial

/-! ## Mounts -/

/-- Tokens have no order. -/
theorem Inv.perm {H H' : Held} (h : Inv H s) (heq : H = H') : Inv H' s := heq ▸ h

/-- Several things that were seen may be forgotten. -/
theorem Inv.forgetAll {E H : Held} (h : Inv (E + H) s) (hE : ∀ t ∈ E, t.key = none) :
    Inv H s := by
  refine h.retoken (fun t ht => h.toks t (Multiset.mem_add.2 (Or.inr ht))) fun k _ => ?_
  have hzero : total k E = 0 := Multiset.countP_eq_zero.2 fun t ht => by simp [hE t ht]
  rw [total_add, hzero, Nat.zero_add]

/-- A mount that a thread references. -/
theorem Inv.mref_cell {H : Held} (h : Inv H s) (ht : Tok.mref m ∈ H) :
    ∃ mp, s.mounts.cell m = some mp ∧ m ≠ s.pipeMount := by
  obtain ⟨skel, hskel, hp⟩ := h.toks _ ht
  obtain ⟨mp, hm, -⟩ := cell_of_skel hskel
  exact ⟨mp, hm, hp⟩

/-- The search for a mount begins at the root. -/
theorem does_get_root :
    Does (get : M State) 0 fun s g => g = {.mref s.rootMount} + {.at s.rootMount []} := by
  intro s f hI
  obtain ⟨mp, hm, hp⟩ := hI.shape.root
  refine ⟨{.mref s.rootMount} + {.at s.rootMount []}, ?_, by simp, rfl⟩
  rw [zero_add] at hI
  rw [add_assoc]
  have hpath : mp.path = [] := (hI.shape.mount _ mp hm).path rfl
  exact (hI.learn (t := .at s.rootMount []) rfl ⟨mp, hm, hpath⟩).takeRoot

theorem does_findChild (path : Str) (m : MountRef) (p : Str) :
    Does (findChild path m) ({.mref m} + {.at m p}) fun o g => match o with
      | some next => ∃ p, mountCmp path p = true ∧ g = {.mref next} + {.at next p}
      | none => g = {.mref m} + {.at m p} := by
  intro s f hat
  have hI : Inv ({.mref m} + f) s := by
    have hperm : Inv ({.at m p} + ({.mref m} + f)) s := hat.perm (by ac_rfl)
    exact hperm.forget rfl
  obtain ⟨mp, hm, hp⟩ := hI.mref_cell (mem_head _ f)
  have hok := hI.mountOK hm
  have hlive : ∀ c ∈ mp.childMounts, ∃ cp, s.mounts.cell c = some cp := by
    intro c hc
    obtain ⟨cp, hcp, -⟩ := hok.children c hc
    obtain ⟨cp₀, hcell, -⟩ := cell_of_skel hcp.1
    exact ⟨cp₀, hcell⟩
  cases hfind : s.childFor path mp with
  | none =>
    rw [findChild_none hm hok.childMountLock hlive hfind]
    exact ⟨_, hat, fun _ hl => hl, rfl⟩
  | some next =>
    obtain ⟨cp, hcp, hcroot, hcpar⟩ := hok.children next (List.mem_of_find?_eq_some hfind)
    obtain ⟨np, hnext, rfl⟩ := cell_of_skel hcp.1
    have hcmp : mountCmp path np.path = true := by
      have hsat := List.find?_some hfind
      simpa [hnext] using hsat
    have hne : next ≠ m := by
      obtain ⟨q, qp, hq, -, -, hqne⟩ := (hI.mountOK hnext).parent hcroot hcp.2
      have heq : q = m := Option.some.inj (hq.symm.trans hcpar)
      rw [← heq]
      exact hqne.symm
    rw [findChild_some hm hok.childMountLock hlive hfind hnext hne]
    refine ⟨{.mref next} + {.at next np.path}, ?_, by simp, np.path, hcmp, rfl⟩
    have htake : Inv ({.mref m} + ({.mref next} + ({.at next np.path} + f)))
        (s.updMount next fun mp => { mp with refCount := inc mp.refCount }) := by
      have hat : Inv ({.at next np.path} + ({.mref m} + f)) s :=
        hI.learn (t := .at next np.path) rfl ⟨np.skel, skel_of_cell hnext, rfl⟩
      exact (hat.takeMount hnext hcroot hcp.2).perm (by ac_rfl)
    rw [add_assoc]
    by_cases hroot : m = s.rootMount
    · subst hroot
      have hmove : s.moveRef s.rootMount next =
          s.updMount next fun mp => { mp with refCount := inc mp.refCount } := by
        simp [State.moveRef]
      rw [hmove]
      exact htake.dropRoot
    · have hmove : s.moveRef m next =
          (s.updMount next fun mp => { mp with refCount := inc mp.refCount }).updMount m
            fun mp => { mp with refCount := dec mp.refCount } := by
        simp [State.moveRef, hroot]
      rw [hmove]
      exact htake.dropMount (m := m) (by simp [Ne.symm hne, hm]; rfl) hroot

theorem does_getMount (m : MountRef) (p : Str) :
    Does (getMount m) ({.mref m} + {.at m p}) fun mp g => mp.path = p ∧ g = {.mref m} := by
  intro s f hI
  rw [add_assoc] at hI
  obtain ⟨mp, hm, -⟩ := hI.mref_cell (mem_head _ _)
  obtain ⟨skel, hskel, hpath⟩ := hI.toks _ (mem_tail (mem_head _ f))
  obtain rfl : mp.skel = skel := Option.some.inj ((skel_of_cell hm).symm.trans hskel)
  rw [getMount_ok hm]
  refine ⟨{.mref m}, ?_, by simp, hpath, rfl⟩
  rw [add_left_comm] at hI
  exact hI.forget rfl

theorem does_releaseMountPoint (m : MountRef) :
    Does (releaseMountPoint m true) {.mref m} fun _ g => g = 0 := by
  intro s f hI
  refine Ends.mono (P := fun _ s' => Inv f s') ?_ fun _ s' h' => ⟨0, by rwa [zero_add], by simp, rfl⟩
  by_cases hroot : m = s.rootMount
  · rw [releaseMountPoint_root hroot]
    subst hroot
    exact hI.dropRoot
  · obtain ⟨mp, hm, -⟩ := hI.mref_cell (mem_head _ f)
    rw [releaseMountPoint_dec hroot hm]
    exact hI.dropMount hm hroot

/-- The reference to the mount that the last `Close` of a descriptor gives back. -/
theorem does_releaseMountPoint_pipe (m : MountRef) :
    Does (releaseMountPoint m true) {.pref m} fun _ g => g = 0 := by
  intro s f hI
  obtain rfl : m = s.pipeMount := hI.toks _ (mem_head _ f)
  obtain ⟨mp, -, hm, -⟩ := hI.pipeSlots
  rw [releaseMountPoint_dec (Ne.symm hI.root_ne_pipe) hm]
  refine ⟨0, ?_, by simp, rfl⟩
  rw [zero_add]
  exact hI.dropPipe hm

theorem does_keepMountPoint (m : MountRef) :
    Does (releaseMountPoint m false) 0 fun _ g => g = 0 :=
  does_read fun s => by
    rw [releaseMountPoint_false]
    rfl

/-! ## Nodes -/

/-- The search in a cache finds the node with the id, if there is one. -/
theorem find_cached {cache : List NodeRef} {o : Option NodeRef}
    (h : cache.find? (fun n => (s.nodes.cell n).any fun node => node.id = id) = o) :
    match o with
    | some n => n ∈ cache ∧ s.view.idOf n = some id
    | none => ∀ n ∈ cache, s.view.idOf n ≠ some id := by
  cases o with
  | some n =>
    refine ⟨List.mem_of_find?_eq_some h, ?_⟩
    have hsat := List.find?_some h
    cases hn : s.nodes.cell n with
    | none => simp [hn] at hsat
    | some node =>
      rw [idOf_of_cell hn]
      simpa [hn] using hsat
  | none =>
    intro n hn hid
    obtain ⟨node, hcell, rfl⟩ := cell_of_idOf hid
    have hall := List.find?_eq_none.1 h n hn
    simp [hcell] at hall

theorem does_acquireRoot (m : MountRef) : Does (do
      let mp ← getMount m
      acquireNode K m mp.rootNode) {.mref m}
    fun n g => g = {.mref m} + {.ref m n true .nothing} := by
  intro s f hI
  obtain ⟨mp, hm, hp⟩ := hI.mref_cell (mem_head _ f)
  have hok := hI.mountOK hm
  have hlive : ∀ n ∈ mp.nodeCache, ∃ node, s.nodes.cell n = some node := fun n => hI.live hm
  rw [M.bind_ok (getMount_ok hm)]
  cases hfind : mp.nodeCache.find? fun n => (s.nodes.cell n).any fun node => node.id = mp.rootNode with
  | some n =>
    obtain ⟨hmem, hid⟩ := find_cached hfind
    obtain ⟨node, hn⟩ := hlive n hmem
    have hready := ((hI.nodeOK hm hmem hn).temp hp).ready
    rw [acquireNode_hit hm hok.nodeCacheLock hlive hfind hn hready]
    refine ⟨_, ?_, by simp, rfl⟩
    have htok : TokOK s.view s.descs (.ref m n true .nothing) :=
      ⟨mp.skel, skel_of_cell hm, hmem, ⟨fun _ => ⟨hp, hid⟩, fun _ => rfl⟩, trivial⟩
    exact (hI.takeRef hn htok).perm (by ac_rfl)
  | none =>
    have hnot := find_cached hfind
    obtain ⟨m_MP, hfs, -, -⟩ := hok.fs hp
    obtain ⟨tn, htn, hroot⟩ := hok.rootTest hp
    obtain ⟨tn₀, hcell, rfl⟩ := Option.map_eq_some_iff.1 htn
    rw [acquireNode_miss hm hok.nodeCacheLock hlive hfind (fs_of_skel hfs) hcell]
    refine ⟨_, ?_, by simp, rfl⟩
    have hroot₀ : RootTest tn₀ := ⟨hroot.type, hroot.dir, hroot.linkRefCount⟩
    have hpush := hI.pushRoot hm hp (Heap.cell_fresh K.alloc s.nodes) hnot (fs_of_skel hfs) hroot₀
    exact hpush.perm (by ac_rfl)

theorem does_acquireNode (m : MountRef) (dir : NodeRef) (name : Str) (id : Nat) :
    Does (acquireNode K m id) {.sees m dir name id}
      fun n g => g = {.ref m n false .nothing} + {.named dir name n} := by
  intro s f hI
  obtain ⟨skel, htemp, hdir, hentry⟩ := hI.toks _ (mem_head _ f)
  obtain ⟨mp, hm, rfl⟩ := cell_of_skel htemp.1
  have hp : m ≠ s.pipeMount := htemp.2
  have hok := hI.mountOK hm
  have hlive : ∀ n ∈ mp.nodeCache, ∃ node, s.nodes.cell n = some node := fun n => hI.live hm
  obtain ⟨dnode, hdnode⟩ := hlive dir hdir
  rw [entriesOf_of_cell hdnode] at hentry
  have heok := ((hI.nodeOK hm hdir hdnode).temp hp).entry _ hentry
  cases hfind : mp.nodeCache.find? fun n => (s.nodes.cell n).any fun node => node.id = id with
  | none =>
    obtain ⟨n, hn, hid⟩ := heok.cached
    exact absurd hid (find_cached hfind n hn)
  | some n =>
    obtain ⟨hmem, hid⟩ := find_cached hfind
    obtain ⟨node, hn⟩ := hlive n hmem
    have hready := ((hI.nodeOK hm hmem hn).temp hp).ready
    rw [acquireNode_hit hm hok.nodeCacheLock hlive hfind hn hready]
    refine ⟨_, ?_, by simp, rfl⟩
    have htok : TokOK s.view s.descs (.ref m n false .nothing) := by
      refine ⟨mp.skel, skel_of_cell hm, hmem, ⟨fun hf => absurd hf (by simp), fun hr => ?_⟩, trivial⟩
      have heq : id = mp.skel.rootNode := Option.some.inj (hid.symm.trans hr.2)
      exact absurd heq heok.notRoot
    have hnamed : TokOK s.view s.descs (.named dir name n) := by
      refine ⟨m, mp.skel, id, htemp, hdir, hmem, hid, ?_⟩
      rw [entriesOf_of_cell hdnode]
      exact hentry
    have hlearn : Inv ({.named dir name n} + f) s := (hI.forget rfl).learn rfl hnamed
    exact (hlearn.takeRef hn htok).perm (by ac_rfl)

theorem does_releaseNode (m : MountRef) (n : NodeRef) (root : Bool) (known : Known) :
    Does (releaseNode n true) {.ref m n root known} fun _ g => g = 0 := by
  intro s f hI
  refine Ends.mono (P := fun _ s' => Inv f s') ?_ fun _ s' h' => ⟨0, by rwa [zero_add], by simp, rfl⟩
  obtain ⟨mp, node, hm, hmem, hn, -, -⟩ := hI.ref_cached (mem_head _ f)
  obtain ⟨mp', hm', hl⟩ := hI.nodeMount hm hmem hn
  by_cases hkeep : dec node.refCount = 0 ∧ node.linkCount = 0
  · have hu := hI.unused hm hmem hn hkeep.1 hkeep.2
    have hok := hI.nodeOK hm hmem hn
    by_cases hp : m = s.pipeMount
    · have hmp : node.mp = s.pipeMount := (hok.pipe hp).mp_eq
      obtain ⟨mp₀, pipes, hm₀, hfs, hl₀, hslots, hlen⟩ := hI.pipeSlots
      have hslot : node.id < pipes.length := hlen ▸ (hok.pipe hp).slot
      have hat : pipes[node.id]? = some pipes[node.id] := List.getElem?_eq_getElem hslot
      have hdestroy : PipeFS.destroyNode pipes node.id =
          .ok (pipes.set node.id { pipes[node.id] with free := true }) := by
        simp [PipeFS.destroyNode, hat]
      have hset : (pipes.set node.id { pipes[node.id] with free := true }).map PipeFS.Pipe.id =
          pipes.map PipeFS.Pipe.id := slots_set hat rfl
      have hcell : s.mounts.cell node.mp = some mp₀ := by
        rw [hmp]
        exact hm₀
      rw [releaseNode_destroy_pipe hn hcell hl₀ hkeep.1 hkeep.2 hfs hdestroy, hmp]
      have hdrop := hI.dropNode hu (o := none) (by rw [if_pos hp])
      rw [hp] at hdrop
      have hcell' : (s.dropNode s.pipeMount n).mounts.cell s.pipeMount =
          some { mp₀ with nodeCache := mp₀.nodeCache.erase n } := by
        simp [State.dropNode, hm₀]
      refine Inv.setPipes (s := s.dropNode s.pipeMount n) hdrop hcell' hfs ?_ ?_
      · rw [hset, List.length_set]
        exact hslots
      · rw [List.length_set]
    · have htemp := hok.temp hp
      have hmp : node.mp = m := htemp.mp_eq (hu.temp hp).1
      obtain ⟨m_MP, hfs, -, -⟩ := (hI.mountOK hm).fs hp
      obtain ⟨tn, htn⟩ := hI.shape.alive m node.id
        ⟨mp.skel, ⟨skel_of_cell hm, hp⟩, Or.inr ⟨n, hmem, idOf_of_cell hn⟩⟩
      obtain ⟨tn₀, hcell, -⟩ := Option.map_eq_some_iff.1 htn
      rw [hmp, hm, Option.some.injEq] at hm'
      subst hm'
      rw [releaseNode_destroy hn (by rw [hmp]; exact hm) hl hkeep.1 hkeep.2 (fs_of_skel hfs) hcell,
        hmp]
      exact hI.dropNode hu (o := some node.id) (by rw [if_neg hp])
  · rw [releaseNode_keep hn hm' hl hkeep]
    exact hI.dropRef hn hkeep

theorem does_keepNode (m : MountRef) (n : NodeRef) (root : Bool) (known : Known) :
    Does (releaseNode n false) {.ref m n root known} fun _ g => g = {.ref m n root known} := by
  intro s f hI
  obtain ⟨mp, node, hm, hmem, hn, -, -⟩ := hI.ref_cached (mem_head _ f)
  obtain ⟨mp', hm', hl⟩ := hI.nodeMount hm hmem hn
  have hpos := hI.refCount_pos (mem_head _ f) hn
  rw [releaseNode_false hn hm' hl (by omega)]
  exact ⟨_, hI, fun _ hl => hl, rfl⟩

/-- An action that reads a node the thread references. -/
theorem does_readNode {m' : M α} {R : α → Prop} (m : MountRef) (n : NodeRef) (root : Bool)
    (known : Known) (h : ∀ (H : Held) (s : State) (mp : MountPoint) (node : Node), Inv H s →
      s.mounts.cell m = some mp → n ∈ mp.nodeCache → s.nodes.cell n = some node →
      known.Holds s.view n → Ends (m' s) fun a s' => s' = s ∧ R a) :
    Does m' {.ref m n root known} fun a g => g = {.ref m n root known} ∧ R a := by
  intro s f hI
  obtain ⟨mp, node, hm, hmem, hn, -, hknown⟩ := hI.ref_cached (mem_head _ f)
  refine (h _ s mp node hI hm hmem hn hknown).mono fun a s' => ?_
  rintro ⟨rfl, hR⟩
  exact ⟨_, hI, fun _ hl => hl, rfl, hR⟩

theorem does_getNode (m : MountRef) (n : NodeRef) (root : Bool) (known : Known) :
    Does (getNode n) {.ref m n root known} fun _ g => g = {.ref m n root known} ∧ True := by
  refine does_readNode m n root known fun H s mp node _ _ _ hn _ => ?_
  rw [getNode_ok hn]
  exact ⟨rfl, trivial⟩

theorem does_permitted (tInfo : ThreadInfo) (perms : UInt8) (m : MountRef) (n : NodeRef)
    (root : Bool) (known : Known) : Does (permitted tInfo n perms) {.ref m n root known}
      fun _ g => g = {.ref m n root known} ∧ True := by
  refine does_readNode m n root known fun H s mp node _ _ _ hn _ => ?_
  unfold permitted
  rw [M.bind_ok (getNode_ok hn)]
  exact ⟨rfl, trivial⟩

/-- `node->type`; what is learnt does not change. -/
theorem does_nodeType (m : MountRef) (n : NodeRef) (root : Bool) (known : Known) :
    Does (nodeType n) {.ref m n root known} fun t g => g = {.ref m n root (.type t)} ∧
      (∀ t', known = .type t' → t = t') ∧ (root = true → t = .directory) := by
  intro s f hI
  obtain ⟨mp, node, hm, hmem, hn, hroot, hknown⟩ := hI.ref_cached (mem_head _ f)
  unfold nodeType
  rw [M.bind_ok (getNode_ok hn)]
  have htype : (Known.type node.type).Holds s.view n := typeOf_of_cell hn
  refine ⟨_, hI.reknow htype, by simp, rfl, ?_, fun hr => ?_⟩
  · rintro t' rfl
    exact Option.some.inj ((typeOf_of_cell hn).symm.trans hknown)
  · obtain ⟨hp, hid⟩ := hroot.1 hr
    exact ((hI.nodeOK hm hmem hn).temp hp).rootType hid

/-! ## Nodes of a TempFS -/

/-- A reference to a node of a TempFS mount that the thread also references. -/
structure TempRef (H : Held) (s : State) (m : MountRef) (n : NodeRef) (root : Bool) (known : Known)
    (mp : MountPoint) (node : Node) : Prop where
  mount : s.mounts.cell m = some mp
  notPipe : m ≠ s.pipeMount
  mem : n ∈ mp.nodeCache
  cell : s.nodes.cell n = some node
  temp : TempNode H s.view m mp.skel n node
  dirLock : node.dirLock = false
  nodeMount : ∃ mp', s.mounts.cell node.mp = some mp'
  root : root = true ↔ node.id = mp.rootNode
  known : known.Holds s.view n

theorem Inv.tempRef {H : Held} (h : Inv H s) (hm : Tok.mref m ∈ H)
    (ht : Tok.ref m n root known ∈ H) : ∃ mp node, TempRef H s m n root known mp node := by
  obtain ⟨mp, node, hcell, hmem, hn, hroot, hknown⟩ := h.ref_cached ht
  obtain ⟨-, -, hp⟩ := h.mref_cell hm
  have hok := h.nodeOK hcell hmem hn
  obtain ⟨mp', hm', -⟩ := h.nodeMount hcell hmem hn
  refine ⟨mp, node, hcell, hp, hmem, hn, hok.temp hp, hok.dirLock, ⟨mp', hm'⟩, ?_, hknown⟩
  rw [hroot]
  exact ⟨fun hr => hr.2, fun hid => ⟨hp, hid⟩⟩

/-- An action that reads a node of a TempFS mount. -/
theorem does_readTemp {m' : M α} {R : α → Prop} (m : MountRef) (n : NodeRef) (root : Bool)
    (known : Known) (h : ∀ (H : Held) (s : State) (mp : MountPoint) (node : Node),
      TempRef H s m n root known mp node → Ends (m' s) fun a s' => s' = s ∧ R a) :
    Does m' ({.mref m} + {.ref m n root known}) fun a g =>
      g = {.mref m} + {.ref m n root known} ∧ R a := by
  intro s f hI
  have href : ∃ mp node, TempRef _ s m n root known mp node := hI.tempRef (by simp) (by simp)
  obtain ⟨mp, node, href⟩ := href
  refine (h _ s mp node href).mono fun a s' => ?_
  rintro ⟨rfl, hR⟩
  exact ⟨_, hI, fun _ hl => hl, rfl, hR⟩

theorem does_readLink (m : MountRef) (n : NodeRef) (root : Bool) :
    Does (readLink n) ({.mref m} + {.ref m n root (.type .symlink)}) fun _ g =>
      g = {.mref m} + {.ref m n root (.type .symlink)} ∧ True := by
  refine does_readTemp m n root _ fun H s mp node href => ?_
  have htype : node.type = .symlink :=
    Option.some.inj ((typeOf_of_cell href.cell).symm.trans href.known)
  obtain ⟨linkPath, hinfo⟩ := href.temp.symlink htype
  unfold readLink
  rw [M.bind_ok (getNode_ok href.cell)]
  simp only [hinfo]
  exact ⟨rfl, trivial⟩

theorem statsInfo_error {node : Node} {e : Stop} (h : statsInfo node = .error e) :
    e = .overflow := by
  unfold statsInfo at h
  split at h
  · cases h
  · split_ifs at h
    cases h
    rfl
  · cases h

theorem does_readStats (m : MountRef) (n : NodeRef) (root : Bool) (known : Known) :
    Does (readStats n) ({.mref m} + {.ref m n root known}) fun _ g =>
      g = {.mref m} + {.ref m n root known} ∧ True := by
  refine does_readTemp m n root known fun H s mp node href => ?_
  unfold readStats
  rw [M.bind_ok (getNode_ok href.cell)]
  cases hinfo : statsInfo node with
  | ok info => exact ⟨rfl, trivial⟩
  | error e =>
    obtain rfl := statsInfo_error hinfo
    trivial

theorem does_listEntries (m : MountRef) (n : NodeRef) (root : Bool) (numEntries : Int)
    (valid : Nat → Bool) :
    Does (listEntries n numEntries valid) ({.mref m} + {.ref m n root (.type .directory)}) fun _ g =>
      g = {.mref m} + {.ref m n root (.type .directory)} ∧ True := by
  refine does_readTemp m n root _ fun H s mp node href => ?_
  have htype : node.type = .directory :=
    Option.some.inj ((typeOf_of_cell href.cell).symm.trans href.known)
  obtain ⟨dir, hdir⟩ := href.temp.folder htype
  obtain ⟨mp', hm'⟩ := href.nodeMount
  unfold listEntries
  rw [readDir_ok href.cell href.dirLock hm' hdir]
  split_ifs <;> exact ⟨rfl, trivial⟩

/-! ## Sections on a directory -/

/-- What a lookup leaves its thread with. -/
def LookedUp (m : MountRef) (n : NodeRef) (root : Bool) (known : Known) (path : Str) :
    Lookup → Held → Prop
  | .notADirectory, g | .denied, g => g = {.mref m} + {.ref m n root known}
  | .found id rest, g => pathWalk path (component path) = some rest ∧ component path ≠ [] ∧
      g = {.mref m} + {.ref m n root known} + {.sees m n (component path) id}
  | .absent, g => g = {.mref m} + {.ref m n root (.lacks (component path))}

theorem safe_lookup (tInfo : ThreadInfo) (m : MountRef) (n : NodeRef) (root : Bool) (known : Known)
    (path : Str) :
    Safe Inv owes Anyone (Prog.atomic (.lookup n (component path)) (lookup tInfo n path))
      ({.mref m} + {.ref m n root known}) (LookedUp m n root known path) := by
  refine Safe.atomic fun s f hI _ => ?_
  have href : ∃ mp node, TempRef _ s m n root known mp node := hI.tempRef (by simp) (by simp)
  obtain ⟨mp, node, href⟩ := href
  obtain ⟨mp', hm'⟩ := href.nodeMount
  rw [lookup_ok tInfo path href.cell href.dirLock hm' href.temp.folder]
  unfold lookupIn
  split_ifs with htype hperm
  · exact ⟨_, hI, fun _ hl => Or.inl hl, rfl⟩
  · exact ⟨_, hI, fun _ hl => Or.inl hl, rfl⟩
  · replace htype : node.type = .directory := not_not.1 htype
    cases hfind : Directory.findEntry path node.entries with
    | some p =>
      obtain ⟨id, rest⟩ := p
      obtain ⟨e, he, rfl, hwalk⟩ := findEntry_some hfind
      have heok := href.temp.entry e he
      have hcomp := pathWalk_component hwalk heok.noSlash
      have hsees : TokOK s.view s.descs (.sees m n (component path) e.nodeID) := by
        refine ⟨mp.skel, ⟨skel_of_cell href.mount, href.notPipe⟩, href.mem, ?_⟩
        rw [entriesOf_of_cell href.cell, hcomp]
        exact he
      refine ⟨{.mref m} + {.ref m n root known} + {.sees m n (component path) e.nodeID}, ?_, ?_, ?_⟩
      · exact (hI.learn rfl hsees).perm (by ac_rfl)
      · intro l' hl'
        rcases owes_add.1 hl' with hl' | hl'
        · exact Or.inl hl'
        · exact Or.inr (by simpa using hl')
      · refine ⟨hcomp ▸ hwalk, ?_, rfl⟩
        rw [hcomp]
        exact heok.ne_nil
    | none =>
      have hlacks : (Known.lacks (component path)).Holds s.view n := by
        refine ⟨by rw [typeOf_of_cell href.cell, htype], fun e he hname => ?_⟩
        rw [entriesOf_of_cell href.cell] at he
        obtain ⟨rest, hrest⟩ := exists_pathWalk path
        have hnone := findEntry_none hfind e he
        rw [hname, hrest] at hnone
        cases hnone
      show Ends (.ok (Lookup.absent, s)) _
      refine ⟨{.mref m} + {.ref m n root (.lacks (component path))}, ?_, ?_, ?_⟩
      · have hperm : Inv ({.ref m n root known} + ({.mref m} + f)) s := hI.perm (by ac_rfl)
        exact (hperm.reknow hlacks).perm (by ac_rfl)
      · intro l' hl'
        right
        simpa using hl'
      · rfl

/-- What `Delete` finds in the node itself. -/
theorem safe_folderNotEmpty (m : MountRef) (n : NodeRef) (root : Bool) (known : Known) :
    Safe Inv owes Anyone (Prog.atomic (.checkEmpty n) (folderNotEmpty n))
      ({.mref m} + {.ref m n root known}) fun b g =>
        if b then g = {.mref m} + {.ref m n root known}
        else g = {.mref m} + {.ref m n root known} + {.empty n} := by
  refine Safe.atomic fun s f hI _ => ?_
  have href : ∃ mp node, TempRef _ s m n root known mp node := hI.tempRef (by simp) (by simp)
  obtain ⟨mp, node, href⟩ := href
  obtain ⟨mp', hm'⟩ := href.nodeMount
  rw [folderNotEmpty_ok href.cell href.dirLock hm' href.temp.folder href.temp.isFolder]
  by_cases hentries : node.entries = []
  · refine ⟨{.mref m} + {.ref m n root known} + {.empty n}, ?_, ?_, by simp [hentries]⟩
    · have hempty : TokOK s.view s.descs (.empty n) := by
        show s.view.entriesOf n = []
        rw [entriesOf_of_cell href.cell, hentries]
      exact (hI.learn rfl hempty).perm (by ac_rfl)
    · intro l' hl'
      rcases owes_add.1 hl' with hl' | hl'
      · exact Or.inl hl'
      · exact Or.inr (by simpa using hl')
  · exact ⟨_, hI, fun _ hl => Or.inl hl, by simp [hentries]⟩

/-- What shows that the directory `n` is linked: it is the root, or something names it. -/
def Linked (root : Bool) (n : NodeRef) (E : Held) : Prop :=
  root = true ∧ E = 0 ∨ ∃ dir name, E = {.named dir name n}

theorem Linked.key {E : Held} (h : Linked root n E) : ∀ t ∈ E, t.key = none := by
  rcases h with ⟨-, rfl⟩ | ⟨dir, name, rfl⟩
  · simp
  · simp

/-- What is linked has a link count. -/
theorem Inv.linked_pos {H E : Held} {mp : MountPoint} {node : Node} (h : Inv H s)
    (hE : ∀ t ∈ E, t ∈ H) (hlinked : Linked root n E)
    (href : TempRef H s m n root known mp node) : node.linkCount ≠ 0 := by
  have hcount := href.temp.linkCount
  rcases hlinked with ⟨hroot, -⟩ | ⟨dir, name, rfl⟩
  · have hid : node.id = mp.skel.rootNode := href.root.1 hroot
    rw [if_pos hid] at hcount
    omega
  · obtain ⟨m', mp', id, htemp, hdir, hmem, hid, hentry⟩ := 
      h.toks (.named dir name n) (hE _ (by simp))
    obtain rfl : m' = m :=
      h.shape.disjoint m' mp' m mp.skel n htemp.1 (skel_of_cell href.mount) hmem href.mem
    obtain rfl : mp.skel = mp' :=
      Option.some.inj ((skel_of_cell href.mount).symm.trans htemp.1)
    obtain rfl : node.id = id := Option.some.inj ((idOf_of_cell href.cell).symm.trans hid)
    have hpos : 0 < s.view.links mp.skel.nodeCache node.id := by
      refine List.sum_pos_iff_exists_pos_nat.2 ⟨_, List.mem_map_of_mem hdir, ?_⟩
      exact List.countP_pos_iff.2 ⟨_, hentry, by simp⟩
    omega

theorem addEntry_entries {dir dir' : Directory} (h : dir.addEntry name id = .ok dir') :
    dir'.entries = dir.entries ++ [⟨name, id⟩] := by
  unfold Directory.addEntry at h
  split_ifs at h
  all_goals
    cases h
    rfl

theorem addEntry_error {dir : Directory} {e : Stop} (h : dir.addEntry name id = .error e) :
    e = .overflow := by
  unfold Directory.addEntry at h
  split_ifs at h
  cases h
  rfl

/-- Nobody relies on the directory not having the name, or on its being empty. -/
theorem not_mem_of_noConflict_add {f : Held}
    (h : Pool.NoConflict owes Conflict (.addEntry n name) f) :
    (∀ m' root', Tok.ref m' n root' (.lacks name) ∉ f) ∧ Tok.empty n ∉ f :=
  ⟨fun _ _ ht => h _ ⟨_, ht, rfl⟩ (.addLookup n name), fun ht => h _ ⟨_, ht, rfl⟩ (.addEmpty n name)⟩

/-- Nobody relies on what the name was found to be. -/
theorem not_mem_of_noConflict_remove {f : Held}
    (h : Pool.NoConflict owes Conflict (.removeEntry n name) f) :
    (∀ m' id, Tok.sees m' n name id ∉ f) ∧ ∀ c, Tok.named n name c ∉ f :=
  ⟨fun _ _ ht => h _ ⟨_, ht, rfl⟩ (.removeLookup n name),
    fun _ ht => h _ ⟨_, ht, rfl⟩ (.removeLookup n name)⟩

/-- **Adding an entry.** The thread found that the name is not there; the directory is linked; and
nobody else relies on the name not being there or on the directory being empty. -/
theorem safe_addEntry {E r : Held} {c : NodeRef} {type : NodeType} (m : MountRef)
    (hne : name ≠ []) (hslash : '/' ∉ name) (hlinked : Linked root n E)
    (hr : Pool.NoConflict owes Conflict (.addEntry n name) r) :
    Safe Inv owes (Pool.NoConflict owes Conflict)
      (Prog.atomic (.addEntry n name) (addEntry n name c))
      ({.mref m} + ({.ref m n root (.lacks name)} +
        ({.link c} + ({.ref m c false (.type type)} + (E + r))))) fun _ g =>
        g = {.mref m} + ({.ref m n root .nothing} + ({.ref m c false (.type type)} + r)) := by
  refine Safe.atomic fun s f hI hC => ?_
  have href : ∃ mp node, TempRef _ s m n root (.lacks name) mp node :=
    hI.tempRef (by simp) (by simp)
  have hchild : ∃ mp node, TempRef _ s m c false (.type type) mp node :=
    hI.tempRef (by simp) (by simp)
  obtain ⟨mp, node, href⟩ := href
  obtain ⟨mp', child, hchild⟩ := hchild
  obtain ⟨nmp, hnmp⟩ := href.nodeMount
  have htype : node.type = .directory :=
    Option.some.inj ((typeOf_of_cell href.cell).symm.trans href.known.1)
  obtain ⟨dir, hdir⟩ := href.temp.folder htype
  have hpos : node.linkCount ≠ 0 := hI.linked_pos (fun t ht => by simp [ht]) hlinked href
  rw [addEntry_eq _ href.cell href.dirLock hnmp hdir hchild.cell]
  cases hadd : dir.addEntry name child.id with
  | error e =>
    obtain rfl := addEntry_error hadd
    trivial
  | ok dir' =>
    refine ⟨{.mref m} + ({.ref m n root .nothing} + ({.ref m c false (.type type)} + r)), ?_, ?_,
      rfl⟩
    · obtain ⟨hlacks, hempty⟩ := not_mem_of_noConflict_add hC
      obtain ⟨hlacks', hempty'⟩ := not_mem_of_noConflict_add hr
      have hall : Inv (E + ({.ref m n root (.lacks name)} +
          ({.link c} + ({.mref m} + ({.ref m c false (.type type)} + (r + f)))))) s :=
        hI.perm (by ac_rfl)
      have hmem : Tok.ref m c false (.type type) ∈
          ({.mref m} + ({.ref m c false (.type type)} + (r + f)) : Held) := by simp
      refine ((hall.forgetAll hlinked.key).addEntry hmem href.cell hchild.cell hdir
        (addEntry_entries hadd) hne hslash hpos href.notPipe ?_ ?_).perm (by ac_rfl)
      · intro m' root'
        simp [hlacks, hlacks']
      · simp [hempty, hempty']
    · intro l' hl'
      left
      simp only [owes_add, owes_singleton, owes_mref, owes_nothing, owes_type, owes_lacks, owes_link,
        false_or] at hl' ⊢
      exact Or.inr (Or.inr hl')

/-- **Removing an entry.** The thread knows which node the name stands for, and nobody else relies
on the name. -/
theorem safe_removeEntry {r : Held} (m : MountRef) (n c : NodeRef) (root : Bool) (known : Known)
    (name : Str) (hr : Pool.NoConflict owes Conflict (.removeEntry n name) r) :
    Safe Inv owes (Pool.NoConflict owes Conflict)
      (Prog.atomic (.removeEntry n name) (removeEntry n name))
      ({.named n name c} + ({.mref m} + ({.ref m n root known} + r))) fun b g =>
        b = true ∧ g = {.link c} + ({.mref m} + ({.ref m n root known} + r)) := by
  refine Safe.atomic fun s f hI hC => ?_
  have href : ∃ mp node, TempRef _ s m n root known mp node := hI.tempRef (by simp) (by simp)
  obtain ⟨mp, node, href⟩ := href
  obtain ⟨nmp, hnmp⟩ := href.nodeMount
  -- the entry that the token is about is there
  obtain ⟨-, -, id, -, -, -, -, hentry⟩ := hI.toks (.named n name c) (by simp)
  rw [entriesOf_of_cell href.cell] at hentry
  have htype : node.type = .directory := by
    by_contra hne
    rw [href.temp.isFolder hne] at hentry
    cases hentry
  obtain ⟨dir, hdir⟩ := href.temp.folder htype
  have hentries : node.entries = dir.entries := by simp [Node.entries, hdir]
  rw [hentries] at hentry
  obtain ⟨i, hi⟩ : ∃ i, dir.entries.findIdx? (fun e => e.name = name) = some i := by
    refine Option.isSome_iff_exists.1 ?_
    rw [List.findIdx?_isSome, List.any_eq_true]
    exact ⟨_, hentry, by simp⟩
  rw [removeEntry_ok href.cell href.dirLock hnmp hdir hi]
  refine ⟨{.link c} + ({.mref m} + ({.ref m n root known} + r)), ?_, ?_, rfl, rfl⟩
  · obtain ⟨hsees, hnamed⟩ := not_mem_of_noConflict_remove hC
    obtain ⟨hsees', hnamed'⟩ := not_mem_of_noConflict_remove hr
    have hall : Inv ({.named n name c} + ({.mref m} + ({.ref m n root known} + (r + f)))) s :=
      hI.perm (by ac_rfl)
    refine (hall.removeEntry href.cell hdir hi ?_ ?_).perm (by ac_rfl)
    · intro m' id'
      simp [hsees, hsees']
    · intro c'
      simp [hnamed, hnamed']
  · intro l' hl'
    left
    simp only [owes_add, owes_singleton, owes_mref, owes_link, owes_named, false_or] at hl' ⊢
    exact Or.inr hl'

/-! ## Making and changing nodes -/

/-- The step in which a create function makes its node. -/
theorem does_createNode {type : NodeType} (m : MountRef) (init : Except Stop (Node → Node))
    (hok : ∀ f, init = .ok f → ∀ id, NewNode m id (f (blankNode id m 1 true)) ∧
      (f (blankNode id m 1 true)).type = type)
    (herr : init ≠ .error .fault) :
    Does (do
      let init ← M.lift init
      createNode K m 1 init) {.mref m} fun n g =>
        g = {.mref m} + ({.ref m n false (.type type)} + {.link n}) := by
  intro s f hI
  cases init with
  | error e =>
    cases e with
    | fault => exact absurd rfl herr
    | nullptr => trivial
    | overflow => trivial
    | block => trivial
  | ok init =>
    obtain ⟨mp, hm, hp⟩ := hI.mref_cell (mem_head _ f)
    have hmok := hI.mountOK hm
    obtain ⟨m_MP, hfs, -, -⟩ := hmok.fs hp
    rw [M.bind_ok (show M.lift (.ok init) s = .ok (init, s) from rfl),
      createNode_temp hm hmok.nodeCacheLock (fs_of_skel hfs)]
    set id := s.testNodes.fresh K.alloc
    set n := s.nodes.fresh K.alloc
    obtain ⟨hnew, htype⟩ := hok init rfl id
    refine ⟨_, ?_, by simp, rfl⟩
    have htest : Inv ({.own id false} + ({.mref m} + f)) (s.addTestNode id TempFS.newTestNode) :=
      hI.addTestNode K fun hf => absurd hf (by simp)
    have hpush := htest.pushTemp (m := m) (n := n) hm hp (Heap.cell_fresh K.alloc s.nodes) hnew
    have hknown : (Known.type type).Holds
        ((s.addTestNode id TempFS.newTestNode).pushNode m n (init (blankNode id m 1 true))).view n := by
      have hcell : ((s.addTestNode id TempFS.newTestNode).pushNode m n
          (init (blankNode id m 1 true))).nodes.cell n = some (init (blankNode id m 1 true)) := by
        simp [State.pushNode]
      show _ = some type
      rw [typeOf_of_cell hcell, htype]
    exact (hpush.reknow hknown).perm (by ac_rfl)

/-- The nodes that the create functions make. -/
theorem newNode_initNode {info : NodeInfo} {type : NodeType} (permissions : Permissions)
    (tInfo : ThreadInfo) (m : MountRef) (id : Nat)
    (hentries : ∀ dir, info = .folder dir → dir.entries = [])
    (hdir : type = .directory → ∃ dir, info = .folder dir)
    (hsymlink : type = .symlink → ∃ linkPath, info = .symlink linkPath) :
    NewNode m id (initNode type info permissions tInfo (blankNode id m 1 true)) := by
  refine ⟨rfl, rfl, rfl, rfl, rfl, rfl, ?_, hdir, hsymlink⟩
  cases info with
  | folder dir => exact hentries dir rfl
  | none => rfl
  | file fileSize => rfl
  | device driverID subID => rfl
  | symlink linkPath => rfl

theorem does_addLink (m : MountRef) (n : NodeRef) (root : Bool) (known : Known) :
    Does (modifyNode n fun node => { node with linkCount := inc node.linkCount })
      ({.mref m} + {.ref m n root known}) fun _ g =>
        g = {.mref m} + ({.ref m n root known} + {.link n}) := by
  intro s f hI
  have href : ∃ mp node, TempRef _ s m n root known mp node := hI.tempRef (by simp) (by simp)
  obtain ⟨mp, node, href⟩ := href
  rw [modifyNode_ok href.cell]
  refine ⟨_, ?_, by simp, rfl⟩
  have htok : TokOK s.view s.descs (.link n) :=
    ⟨m, mp.skel, ⟨skel_of_cell href.mount, href.notPipe⟩, href.mem⟩
  exact (hI.takeLink href.cell htok).perm (by ac_rfl)

theorem does_dropLink (m : MountRef) (n : NodeRef) (root : Bool) (known : Known) :
    Does (modifyNode n fun node => { node with linkCount := dec node.linkCount })
      ({.link n} + ({.ref m n root known} + {.empty n})) fun _ g => g = {.ref m n root known} := by
  intro s f hI
  have hmem : Tok.ref m n root known ∈ ({.ref m n root known} + f : Held) := by simp
  obtain ⟨mp, node, hm, -, hn, -, -⟩ := hI.ref_cached (m := m) (n := n) (by simp; tauto)
  have hempty : s.view.entriesOf n = [] := hI.toks (.empty n) (by simp)
  rw [entriesOf_of_cell hn] at hempty
  rw [modifyNode_ok hn]
  refine ⟨_, ?_, by simp; tauto, rfl⟩
  have hall : Inv ({.empty n} + ({.link n} + ({.ref m n root known} + f))) s :=
    hI.perm (by ac_rfl)
  exact (hall.forget rfl).dropLink hn hmem hempty

/-- `ChangeOwner` and `ChangePermissions` write attributes only. -/
theorem does_setAttr {f : Node → Node} (m : MountRef) (n : NodeRef) (root : Bool) (known : Known)
    (hf : ∀ node, ∃ uid gid permissions,
      f node = { node with ownerUID := uid, ownerGID := gid, permissions }) :
    Does (modifyNode n f) {.ref m n root known} fun _ g => g = {.ref m n root known} := by
  intro s r hI
  obtain ⟨mp, node, hm, -, hn, -, -⟩ := hI.ref_cached (mem_head _ r)
  rw [modifyNode_ok hn]
  refine ⟨_, ?_, fun _ hl => hl, rfl⟩
  obtain ⟨uid, gid, permissions, heq⟩ := hf node
  refine hI.setAttr hn (by rw [heq]) (by rw [heq]) (by rw [heq]; rfl) fun m' mp' hok => ?_
  rw [heq]
  refine ⟨hok.dirLock, hok.refCount, hok.needed, fun hp => ?_, fun hp => ?_⟩
  · have htemp := hok.temp hp
    exact { htemp with }
  · have hpipe := hok.pipe hp
    exact { hpipe with }

/-- The step of `Open` that clears a file. -/
theorem does_clear (m : MountRef) (n : NodeRef) (root : Bool) (known : Known) :
    Does (do
      let node ← getNode n
      if node.type = .file then fsClearNodeData m node.id)
      ({.mref m} + {.ref m n root known}) fun _ g => g = {.mref m} + {.ref m n root known} := by
  intro s f hI
  have href : ∃ mp node, TempRef _ s m n root known mp node := hI.tempRef (by simp) (by simp)
  obtain ⟨mp, node, href⟩ := href
  rw [M.bind_ok (getNode_ok href.cell)]
  split_ifs with htype
  · obtain ⟨m_MP, hfs, -, -⟩ := (hI.mountOK href.mount).fs href.notPipe
    obtain ⟨tn, htn⟩ := hI.shape.alive m node.id
      ⟨mp.skel, ⟨skel_of_cell href.mount, href.notPipe⟩, Or.inr ⟨n, href.mem, idOf_of_cell href.cell⟩⟩
    obtain ⟨tn₀, hcell, -⟩ := Option.map_eq_some_iff.1 htn
    unfold fsClearNodeData
    rw [M.bind_ok (getMount_ok href.mount)]
    simp only [fs_of_skel hfs]
    unfold TempFS.clearNodeData
    rw [modifyTestNode_ok hcell]
    exact ⟨_, hI.setData fun _ => rfl, fun _ hl => hl, rfl⟩
  · exact ⟨_, hI, fun _ hl => hl, rfl⟩

/-! ## Descriptors -/

/-- The last step of `Open`: the thread's references become a descriptor. -/
theorem does_newDesc {desc : FileDescriptor} {type : NodeType} (m : MountRef) (n : NodeRef)
    (hdir : type ≠ .directory) (hsymlink : type ≠ .symlink) (hone : desc.refCount = 1)
    (hn : desc.node = n) (hshare : t = .mref m ∨ t = .pref m) :
    Does (newDesc K desc) ({.ref m n false (.type type)} + {t}) fun d g => g = {.fd d} := by
  intro s f hI
  unfold newDesc
  refine ⟨_, ?_, by simp, rfl⟩
  have ht : TokOK s.view s.descs t := hI.toks t (by simp)
  have heq : t = mountShare s.pipeMount m := by
    unfold mountShare
    rcases hshare with rfl | rfl
    · obtain ⟨mp, -, hp⟩ := ht
      replace hp : m ≠ s.pipeMount := hp
      rw [if_neg hp]
    · replace ht : m = s.pipeMount := ht
      rw [if_pos ht]
  subst heq
  rw [add_assoc] at hI
  exact hI.newDesc hdir hsymlink (Heap.cell_fresh K.alloc s.descs) hone hn

theorem does_dropDesc (d : DescRef) : Does (dropDesc d) {.fd d} fun o g => match o with
    | none => g = 0
    | some (n, m) => ∃ t, (t = .mref m ∨ t = .pref m) ∧
        g = {.ref m n false .nothing} + ({t} + {.dying d}) := by
  intro s f hI
  obtain ⟨desc, hd⟩ := hI.toks (.fd d) (mem_head _ f)
  have hcount := hI.fd_open hd
  have hd' : (s.updDesc d fun desc => { desc with refCount := dec desc.refCount }).descs.cell d =
      some { desc with refCount := dec desc.refCount } := by
    simp [State.updDesc, hd]
  unfold dropDesc
  rw [M.bind_ok (modifyDesc_ok hd _), M.bind_ok (getDesc_ok hd')]
  split_ifs with hlast
  · obtain ⟨m, mp, node, hm, hmem, hn, rfl, -⟩ := hI.desc_cached hd (by omega)
    rw [M.bind_ok (getNode_ok (s := s.updDesc d _) hn)]
    refine ⟨{.ref node.mp desc.node false .nothing} + ({mountShare s.pipeMount node.mp} + {.dying d}),
      ?_, ?_, mountShare s.pipeMount node.mp, ?_, rfl⟩
    · exact (hI.closeDesc hd hlast hm hmem).perm (by ac_rfl)
    · unfold mountShare
      split_ifs <;> simp
    · unfold mountShare
      split_ifs <;> simp
  · refine ⟨0, ?_, by simp, rfl⟩
    rw [zero_add]
    exact hI.dropDescRef hd hlast

theorem does_deleteDesc (d : DescRef) : Does (deleteDesc d) {.dying d} fun _ g => g = 0 := by
  intro s f hI
  refine ⟨0, ?_, by simp, rfl⟩
  rw [zero_add]
  exact hI.deleteDesc

theorem does_addRef (d : DescRef) :
    Does (modifyDesc d fun desc => { desc with refCount := inc desc.refCount }) {.fd d} fun _ g =>
      g = {.fd d} + {.fd d} := by
  intro s f hI
  obtain ⟨desc, hd⟩ := hI.toks (.fd d) (mem_head _ f)
  rw [modifyDesc_ok hd]
  exact ⟨_, (hI.addDescRef hd).perm (by ac_rfl), by simp, rfl⟩

/-- The reference to the mount that the last `Close` of a descriptor gives back. -/
theorem does_releaseShare (m : MountRef) (ht : t = .mref m ∨ t = .pref m) :
    Does (releaseMountPoint m true) {t} fun _ g => g = 0 := by
  rcases ht with rfl | rfl
  · exact does_releaseMountPoint m
  · exact does_releaseMountPoint_pipe m

/-! ## Pipes -/

/-- `CreatePipe` does not take the two references to the mount that its descriptors will give
back. -/
theorem does_get_pipe : Does (get : M State) 0 fun s g =>
    g = {.pref s.pipeMount} + {.debt s.pipeMount} + ({.pref s.pipeMount} + {.debt s.pipeMount}) := by
  intro s f hI
  rw [zero_add] at hI
  refine ⟨_, ?_, by simp, rfl⟩
  exact hI.owePipe.owePipe.perm (by ac_rfl)

theorem does_createPipe (m : MountRef) :
    Does (createNode K m 2 fun node => { node with type := .pipe }) {.pref m} fun n g =>
      g = {.pref m} + ({.ref m n false (.type .pipe)} + {.ref m n false (.type .pipe)}) := by
  intro s f hI
  obtain rfl : m = s.pipeMount := hI.toks (.pref m) (mem_head _ f)
  obtain ⟨mp, pipes, hm, hfs, hl, hslots, hlen⟩ := hI.pipeSlots
  rw [createNode_pipe hm hl hfs]
  refine ⟨_, ?_, by simp, rfl⟩
  obtain ⟨hslots', hle, hid⟩ := slots_createNode hslots
  have hset := hI.setPipes hm hfs hslots' hle
  set s₁ := s.updMount s.pipeMount fun mp => { mp with fs := .pipeFS (PipeFS.createNode pipes).2 }
    with hs₁
  have hm₁ : s₁.mounts.cell s₁.pipeMount =
      some { mp with fs := .pipeFS (PipeFS.createNode pipes).2 } := by simp [hs₁, hm]
  have hslot : (PipeFS.createNode pipes).1 < s₁.view.slots.length := by
    have hview : s₁.view.slots = (PipeFS.createNode pipes).2.map PipeFS.Pipe.id := by
      simp only [State.view, hm₁, Option.elim_some, FileSystem.slots]
    rw [hview, List.length_map]
    exact hid
  exact (hset.pushPipe hm₁ (Heap.cell_fresh K.alloc s.nodes) hslot).perm (by ac_rfl)

/-! ## Mounting -/

theorem does_construct : Does (TempFS.construct K) 0 fun id g => g = {.own id true} := by
  intro s f hI
  rw [zero_add] at hI
  refine ⟨_, ?_, by simp, rfl⟩
  have hroot : RootTest TempFS.rootTestNode := ⟨rfl, ⟨_, rfl, rfl⟩, rfl⟩
  exact hI.addTestNode K fun _ => hroot

theorem does_attach (m : MountRef) (path : Str) (r : Nat) :
    Does (attach K m path r) ({.mref m} + {.own r true}) fun _ g => g = 0 := by
  intro s f hI
  rw [add_assoc] at hI
  obtain ⟨mp, hm, -⟩ := hI.mref_cell (mem_head _ _)
  rw [attach_ok hm (hI.mountOK hm).childMountLock]
  refine ⟨0, ?_, by simp, rfl⟩
  rw [zero_add]
  exact hI.pushMount hm (Heap.cell_fresh K.alloc s.mounts)

/-- Only the tokens that are there between two calls. -/
def Quiet (_ : Label) (f : Held) : Prop := ∀ t ∈ f, t.Idle

/-- The section of `Unmount`, while no other call is in progress. The reference to the parent is
lost, and so are the nodes of the file system. -/
theorem safe_detach (m : MountRef) :
    Safe Inv owes Quiet (step (detach m)) {.mref m} fun b g =>
      if b then ∃ p ids, g = {.mref p} + orphans ids else g = {.mref m} := by
  refine Safe.atomic fun s f hI hQ => ?_
  obtain ⟨mp, hm, hpipe⟩ := hI.mref_cell (mem_head _ f)
  have hok := hI.mountOK hm
  by_cases hroot : m = s.rootMount
  · have hnone : mp.parent = none := hok.noParent (Or.inl hroot)
    unfold detach
    rw [M.bind_ok (getMount_ok hm)]
    simp only [hnone]
    trivial
  · obtain ⟨p, skel, hparent, hp, -, hne⟩ := hok.parent hroot hpipe
    obtain ⟨pp, hpp, rfl⟩ := cell_of_skel hp.1
    rw [detach_eq hm hparent hpp (hI.mountOK hpp).childMountLock hne.symm]
    split_ifs with hone
    · refine ⟨{.mref p} + orphans (s.view.ids mp.skel), ?_, ?_, p, _, rfl⟩
      · rw [add_assoc]
        exact hI.dropMountPoint hQ hm hroot hparent hpp hne.symm hone
      · intro l' hl'
        rcases owes_add.1 hl' with hl' | ⟨t, ht, hl'⟩
        · simp at hl'
        · obtain ⟨id, -, rfl⟩ := mem_orphans ht
          simp at hl'
    · exact ⟨_, hI, fun _ hl => Or.inl hl, rfl⟩

/-! ## Nodes that are no longer referenced -/

/-- The root of a mount that the thread references. -/
theorem does_nodeType_root (m : MountRef) (n : NodeRef) (known : Known) :
    Does (nodeType n) {.ref m n true known} fun t g =>
      t = .directory ∧ g = {.ref m n true (.type t)} + {.isRoot m n} := by
  intro s f hI
  obtain ⟨mp, node, hm, hmem, hn, hroot, -⟩ := hI.ref_cached (mem_head _ f)
  obtain ⟨hp, hid⟩ := hroot.1 rfl
  unfold nodeType
  rw [M.bind_ok (getNode_ok hn)]
  have htype : (Known.type node.type).Holds s.view n := typeOf_of_cell hn
  have hisRoot : TokOK s.view s.descs (.isRoot m n) := by
    refine ⟨mp.skel, ⟨skel_of_cell hm, hp⟩, hmem, ?_⟩
    rw [idOf_of_cell hn, hid]
    rfl
  refine ⟨_, ?_, by simp, ((hI.nodeOK hm hmem hn).temp hp).rootType hid, rfl⟩
  exact ((hI.reknow htype).learn rfl hisRoot).perm (by ac_rfl)

/-- `CD` looks at a node that it has released: what is linked, or the root of a mount, is still
there. -/
theorem does_permitted_linked (tInfo : ThreadInfo) (perms : UInt8) (n : NodeRef)
    (ht : (∃ m, t = .isRoot m n) ∨ ∃ dir name, t = .named dir name n) :
    Does (permitted tInfo n perms) {t} fun _ g => g = 0 := by
  intro s f hI
  have hid : ∃ id, s.view.idOf n = some id := by
    rcases ht with ⟨m, rfl⟩ | ⟨dir, name, rfl⟩
    · obtain ⟨mp, -, -, hid⟩ := hI.toks (.isRoot m n) (mem_head _ f)
      exact ⟨_, hid⟩
    · obtain ⟨-, -, id, -, -, -, hid, -⟩ := hI.toks (.named dir name n) (mem_head _ f)
      exact ⟨id, hid⟩
  obtain ⟨id, hid⟩ := hid
  obtain ⟨node, hn, -⟩ := cell_of_idOf hid
  have hkey : t.key = none := by
    rcases ht with ⟨m, rfl⟩ | ⟨dir, name, rfl⟩ <;> rfl
  unfold permitted
  rw [M.bind_ok (getNode_ok hn)]
  refine ⟨0, ?_, by simp, rfl⟩
  rw [zero_add]
  exact hI.forget hkey

theorem does_setThreads (threads : State → ThreadRef → ThreadInfo) :
    Does (fun s => .ok ((), { s with threads := threads s })) 0 fun _ g => g = 0 := by
  intro s f hI
  exact ⟨0, hI.setThreads (threads s), by simp, rfl⟩

end ChenixOS.VFS
