import ChenixOS.Fs.LinkCounts
import ChenixOS.Fs.References

/-!
# The entries of the directories

`State.dirs` gives the entries of every directory by its mount and its id. `AddEntry` and `RemoveEntry`
change them at one directory; making, releasing and destroying nodes does not change them.
-/

namespace ChenixOS.VFS

variable {K : Kernel} {H H' L E f : Held} {s s' : State} {m m' : MountRef} {mp : MountPoint} {n n' : NodeRef}
  {id id' : Nat} {root : Bool} {known : Known} {node : Node} {ms : List MountRef} {es : List DirectoryEntry}
  {tInfo : ThreadInfo} {t : ThreadRef} {path : Option Str}

/-- The entries of a directory of a TempFS, by its mount and its id. -/
def State.dirs (s : State) (d : MountRef × Nat) : List DirectoryEntry :=
  if d.1 = s.pipeMount then [] else ((s.tree.node d.1 d.2).map Node.entries).getD []

/-- A cached directory `id` of the mount `m` has the entries `es`. -/
def View.Lists (v : View) (m : MountRef) (id : Nat) (es : List DirectoryEntry) : Prop :=
  ∃ mp n, v.Temp m mp ∧ n ∈ mp.nodeCache ∧ v.idOf n = some id ∧ v.entriesOf n = es

theorem Inv.dirs_eq (hI : Inv H s) (h : s.view.Lists m id es) : s.dirs (m, id) = es := by
  obtain ⟨mp, n, ⟨hskel, hp⟩, hmem, hid, rfl⟩ := h
  obtain ⟨mp, hm, rfl⟩ := cell_of_skel hskel
  obtain ⟨node, hn, rfl⟩ := cell_of_idOf hid
  have hp' : m ≠ s.pipeMount := hp
  rw [State.dirs, if_neg hp', tree_node hI hm hp' hmem hn, entriesOf_of_cell hn]
  rfl

theorem Inv.dirs_eq_iff (hI : Inv H s) (hne : es ≠ []) : s.dirs (m, id) = es ↔ s.view.Lists m id es := by
  refine ⟨fun h => ?_, hI.dirs_eq⟩
  unfold State.dirs at h
  split_ifs at h with hp
  · exact absurd h.symm hne
  · cases hnode : s.tree.node m id with
    | none =>
      rw [hnode] at h
      exact absurd h.symm hne
    | some inode =>
      rw [hnode] at h
      obtain ⟨mp, hm⟩ : ∃ mp, s.mounts.cell m = some mp := by
        cases hm : s.mounts.cell m with
        | none => simp [State.tree, State.cached, State.unread, hm] at hnode
        | some mp => exact ⟨mp, rfl⟩
      rcases tree_node_cases hI hm hp hnode with ⟨n, node, hmem, hn, rfl, rfl⟩ | hempty
      · exact ⟨mp.skel, n, ⟨skel_of_cell hm, hp⟩, hmem, idOf_of_cell hn, (entriesOf_of_cell hn).trans h⟩
      · exact absurd (h.symm.trans hempty) hne

theorem dirs_congr_at (hI : Inv H s) (hI' : Inv H' s')
    (h : ∀ es, es ≠ [] → (s'.view.Lists m id es ↔ s.view.Lists m id es)) : s'.dirs (m, id) = s.dirs (m, id) := by
  by_cases hempty : s'.dirs (m, id) = []
  · by_contra hne
    have hne' : s.dirs (m, id) ≠ [] := fun h => hne (hempty.trans h.symm)
    exact hne ((hI'.dirs_eq_iff hne').2 ((h _ hne').2 ((hI.dirs_eq_iff hne').1 rfl)))
  · exact ((hI.dirs_eq_iff hempty).2 ((h _ hempty).1 ((hI'.dirs_eq_iff hempty).1 rfl))).symm

/-- Two states with the same directories that are not empty. -/
theorem dirs_congr (hI : Inv H s) (hI' : Inv H' s')
    (h : ∀ m id es, es ≠ [] → (s'.view.Lists m id es ↔ s.view.Lists m id es)) : s'.dirs = s.dirs :=
  funext fun d => dirs_congr_at hI hI' (h d.1 d.2)

theorem Same.dirs (h : Same ms s s') : s'.dirs = s.dirs := by
  funext d
  simp only [State.dirs, h.tree, h.pipeMount]

/-- Counters do not matter. -/
theorem dirs_of_view (hI : Inv H s) (hI' : Inv H' s') (h : s'.view = s.view) : s'.dirs = s.dirs :=
  dirs_congr hI hI' fun m id es _ => by rw [h]

/-- A new node has no entries yet. -/
theorem dirs_pushNode {tn : TestNode} (hI : Inv H s)
    (hI' : Inv H' ((s.addTestNode id tn).pushNode m n node)) (hm : s.mounts.cell m = some mp)
    (hn : s.nodes.cell n = none) (hentries : node.entries = []) :
    ((s.addTestNode id tn).pushNode m n node).dirs = s.dirs := by
  refine dirs_congr hI hI' fun m' id' es hne => ?_
  rw [view_pushNode (s := s.addTestNode id tn) hm hn hentries, view_addTestNode]
  have hnew : s.view.entriesOf n = [] := by simp [State.view, hn]
  have hskel : s.view.skel m = some mp.skel := skel_of_cell hm
  constructor
  · rintro ⟨mp', n', ⟨hskel', hp⟩, hmem, hid, rfl⟩
    have hnn : n' ≠ n := by
      rintro rfl
      exact hne hnew
    have hid' : s.view.idOf n' = some id' := by
      rw [← hid]
      exact (Function.update_of_ne hnn _ _).symm
    simp only [View.push, View.addTest] at hskel'
    split_ifs at hskel' with hmm
    · subst hmm
      rw [hskel, Option.map_some, Option.some.injEq] at hskel'
      subst hskel'
      exact ⟨mp.skel, n', ⟨hskel, hp⟩, by simpa [MountPoint.push, hnn] using hmem, hid', rfl⟩
    · exact ⟨mp', n', ⟨hskel', hp⟩, hmem, hid', rfl⟩
  · rintro ⟨mp', n', ⟨hskel', hp⟩, hmem, hid, rfl⟩
    have hnn : n' ≠ n := by
      rintro rfl
      exact hne hnew
    have hid' : Function.update s.view.idOf n (some node.id) n' = some id' := by
      rwa [Function.update_of_ne hnn]
    by_cases hmm : m' = m
    · subst hmm
      obtain rfl : mp.skel = mp' := Option.some.inj (hskel.symm.trans hskel')
      refine ⟨mp.skel.push n, n', ⟨?_, hp⟩, List.mem_append_left [n] hmem, hid', rfl⟩
      simp [View.push, View.addTest, hskel]
    · refine ⟨mp', n', ⟨?_, hp⟩, hmem, hid', rfl⟩
      simp [View.push, View.addTest, hmm, hskel']

/-- A node that is destroyed has no entries. -/
theorem dirs_of_drop {o : Option Nat} (hI : Inv H s) (hI' : Inv H' s') (hview : s'.view = s.view.drop m n o)
    (hempty : s.view.entriesOf n = []) : s'.dirs = s.dirs := by
  refine dirs_congr hI hI' fun m' id' es hne => ?_
  rw [hview]
  have hkeep : ∀ (mp : MountPoint) n', n' ≠ n → (n' ∈ mp.nodeCache.erase n ↔ n' ∈ mp.nodeCache) :=
    fun mp n' hnn => List.mem_erase_of_ne hnn
  constructor
  · rintro ⟨mp', n', ⟨hskel', hp⟩, hmem, hid, rfl⟩
    have hnn : n' ≠ n := by
      rintro rfl
      exact hne hempty
    have hid' : s.view.idOf n' = some id' := by
      rw [← hid]
      exact (Function.update_of_ne hnn _ _).symm
    simp only [View.drop] at hskel'
    split_ifs at hskel' with hmm
    · subst hmm
      obtain ⟨mp, hskel, rfl⟩ := Option.map_eq_some_iff.1 hskel'
      exact ⟨mp, n', ⟨hskel, hp⟩, (hkeep mp n' hnn).1 hmem, hid', rfl⟩
    · exact ⟨mp', n', ⟨hskel', hp⟩, hmem, hid', rfl⟩
  · rintro ⟨mp', n', ⟨hskel', hp⟩, hmem, hid, rfl⟩
    have hnn : n' ≠ n := by
      rintro rfl
      exact hne hempty
    have hid' : Function.update s.view.idOf n none n' = some id' := by
      rwa [Function.update_of_ne hnn]
    by_cases hmm : m' = m
    · subst hmm
      refine ⟨{ mp' with nodeCache := mp'.nodeCache.erase n }, n', ⟨?_, hp⟩, (hkeep mp' n' hnn).2 hmem, hid', rfl⟩
      simp [View.drop, hskel']
    · refine ⟨mp', n', ⟨?_, hp⟩, hmem, hid', rfl⟩
      simp [View.drop, hmm, hskel']

/-- Writing a directory changes its entries and no others. -/
theorem dirs_setEntries {dir : Directory} (hI : Inv H s)
    (hI' : Inv H' (s.updNode n fun node => { node with info := .folder dir }))
    (href : TempRef H s m n root known mp node) :
    (s.updNode n fun node => { node with info := .folder dir }).dirs =
      Function.update s.dirs (m, node.id) dir.entries := by
  set s' := s.updNode n fun node => { node with info := .folder dir } with hs'
  have hview : s'.view = s.view.setEntries n dir.entries := view_setEntries href.cell
  have hlists : ∀ m' id' es, (m', id') ≠ (m, node.id) →
      (s'.view.Lists m' id' es ↔ s.view.Lists m' id' es) := by
    intro m' id' es hne
    rw [hview]
    have hother : ∀ mp' n', s.view.Temp m' mp' → n' ∈ mp'.nodeCache → s.view.idOf n' = some id' → n' ≠ n := by
      rintro mp' n' ⟨hskel', -⟩ hmem hid rfl
      refine hne (Prod.ext ?_ ?_)
      · exact hI.shape.disjoint m' mp' m mp.skel n' hskel' (skel_of_cell href.mount) hmem href.mem
      · exact Option.some.inj (hid.symm.trans (idOf_of_cell href.cell))
    constructor
    · rintro ⟨mp', n', htemp, hmem, hid, rfl⟩
      exact ⟨mp', n', htemp, hmem, hid, (Function.update_of_ne (hother mp' n' htemp hmem hid) _ _).symm⟩
    · rintro ⟨mp', n', htemp, hmem, hid, rfl⟩
      exact ⟨mp', n', htemp, hmem, hid, Function.update_of_ne (hother mp' n' htemp hmem hid) _ _⟩
  funext ⟨m', id'⟩
  by_cases heq : (m', id') = (m, node.id)
  · rw [heq, Function.update_self]
    refine hI'.dirs_eq ?_
    rw [hview]
    exact ⟨mp.skel, n, ⟨skel_of_cell href.mount, href.notPipe⟩, href.mem, idOf_of_cell href.cell,
      Function.update_self _ _ _⟩
  · rw [Function.update_of_ne heq]
    exact dirs_congr_at hI hI' fun es _ => hlists m' id' es heq

/-! ## Steps -/

theorem releaseNode_dirs (hI : Inv ({.ref m n root known} + ({.mref m} + f)) s)
    (hrun : releaseNode n true s = .ok ((), s')) : Inv ({.mref m} + f) s' ∧ s'.dirs = s.dirs := by
  obtain ⟨g, hI', -, rfl⟩ := (does_releaseNode m n root known s _ hI).of_ok hrun
  rw [zero_add] at hI'
  refine ⟨hI', ?_⟩
  have href : ∃ mp node, TempRef _ s m n root known mp node := hI.tempRef (by simp) (by simp)
  obtain ⟨mp, node, href⟩ := href
  obtain ⟨mp', hm', hl⟩ := hI.nodeMount href.mount href.mem href.cell
  by_cases hkeep : dec node.refCount = 0 ∧ node.linkCount = 0
  · have hempty : s.view.entriesOf n = [] := by
      rw [entriesOf_of_cell href.cell, href.temp.unlinked hkeep.2]
    have hroot : node.id ≠ mp.skel.rootNode := by
      intro hid
      have hcount := href.temp.linkCount
      rw [if_pos hid, hkeep.2] at hcount
      omega
    have hmp : node.mp = m := href.temp.mp_eq hroot
    obtain ⟨m_MP, hfs, -, -⟩ := (hI.mountOK href.mount).fs href.notPipe
    obtain ⟨tn, htn⟩ := hI.shape.alive m node.id
      ⟨mp.skel, ⟨skel_of_cell href.mount, href.notPipe⟩, Or.inr ⟨n, href.mem, idOf_of_cell href.cell⟩⟩
    obtain ⟨tn₀, hcell, -⟩ := Option.map_eq_some_iff.1 htn
    rw [hmp, href.mount, Option.some.injEq] at hm'
    subst hm'
    rw [releaseNode_destroy href.cell (by rw [hmp]; exact href.mount) hl hkeep.1 hkeep.2 (fs_of_skel hfs) hcell,
      hmp] at hrun
    cases hrun
    exact dirs_of_drop hI hI' (view_dropNode href.mount href.cell (href.temp.unlinked hkeep.2) (some node.id)) hempty
  · rw [releaseNode_keep href.cell hm' hl hkeep] at hrun
    cases hrun
    exact dirs_of_view hI hI' (view_updNode href.cell rfl rfl rfl)

/-! ## The beginning of a call -/

/-- A call that returns has failed to resolve its path, or goes on with what the path leads to. -/
theorem resolve_run_ok {α : Type} {bufSize fuel : Nat} {fileHasToExist deleteMode : Bool}
    {k : Str → ThreadInfo → Acquired → P (Except Error α)} {res : Except Error α} (hI : Inv L s)
    (hrun : (do
      onOk (← step (prepare bufSize t path)) fun buffer => do
        let tInfo ← step (getThread t)
        onOk (← acquirePath K tInfo fileHasToExist deleteMode fuel buffer) fun a =>
          k buffer tInfo a : P (Except Error α)).run s = .ok (res, s')) :
    (∃ e ms, res = .error e ∧ Same ms s s') ∨
      ∃ buffer r a g s₁, preparePath bufSize (s.threads t).cwd path = .ok (.ok buffer) ∧
        s.tree.resolve (s.threads t) fileHasToExist deleteMode fuel buffer = some (.ok r) ∧
        Same (s.tree.visits (s.threads t) fileHasToExist deleteMode fuel buffer) s s₁ ∧
        Hands s₁.view (.ok r) (.ok a) ∧ Inv (g + L) s₁ ∧ AcquiredOK deleteMode (.ok a) g ∧
        (k buffer (s.threads t) a).run s₁ = .ok (res, s') := by
  obtain ⟨prep, s₀, hprep, hrun⟩ := run_step_ok hrun
  obtain ⟨rfl, hprep⟩ := prepare_eq_ok hprep
  cases prep with
  | error e =>
    cases hrun
    exact Or.inl ⟨e, [], rfl, Same.refl [] _⟩
  | ok buffer =>
    have hthread : getThread t s₀ = .ok (s₀.threads t, s₀) := rfl
    rw [onOk, run_step _ hthread] at hrun
    have hres := @acquirePath_run K L s₀ fuel (s₀.threads t) fileHasToExist deleteMode buffer hI fun _ =>
      preparePath_noTrailing hprep
    obtain ⟨a, s₁, hacq, hrun⟩ := Prog.run_bind_ok.1 hrun
    cases hresolve : s₀.tree.resolve (s₀.threads t) fileHasToExist deleteMode fuel buffer with
    | none =>
      rw [hresolve, hacq] at hres
      cases hres
    | some r =>
      rw [hresolve] at hres
      obtain ⟨a', s₁', g, hacq', hsame, hands, hI₁, hOK⟩ := hres
      cases hacq.symm.trans hacq'
      cases hands with
      | error e =>
        cases hrun
        exact Or.inl ⟨e, _, rfl, hsame⟩
      | ok hnode hparent =>
        exact Or.inr ⟨buffer, _, _, g, s₁, hprep, hresolve, hsame, .ok hnode hparent, hI₁, hOK, hrun⟩

/-- The ids behind the references that `AcquirePath` hands out for a name that is missing. -/
theorem hands_absent {v : View} {r : Tree.Resolved} {dir : NodeRef} {name buffer : Str}
    (h : Hands v (.ok r) (.ok ⟨m, none, some dir, name, buffer⟩)) (hid : v.idOf dir = some node.id) :
    r.mp = m ∧ r.node = none ∧ r.parent = some node.id ∧ r.path = name := by
  generalize hr : Except.ok r = res at h
  cases h with
  | @ok _ node' parent' _ _ _ _ hnode hparent =>
    obtain rfl := Except.ok.inj hr
    refine ⟨rfl, ?_, ?_, rfl⟩
    · cases node' with
      | none => rfl
      | some id => cases hnode
    · rw [Option.map_some, hid] at hparent
      cases parent' with
      | none => cases hparent
      | some id => exact congrArg some (Option.some.inj (Option.some.inj hparent)).symm

/-- The id behind the reference to a node. -/
theorem hands_node {v : View} {r : Tree.Resolved} {parent : Option NodeRef} {name buffer : Str}
    (h : Hands v (.ok r) (.ok ⟨m, some n, parent, name, buffer⟩)) :
    r.mp = m ∧ r.path = name ∧ r.buffer = buffer ∧ (∃ id, r.node = some id ∧ v.idOf n = some id) ∧
      parent.map v.idOf = r.parent.map some := by
  generalize hr : Except.ok r = res at h
  cases h with
  | @ok _ node' parent' _ _ _ _ hnode hparent =>
    obtain rfl := Except.ok.inj hr
    refine ⟨rfl, rfl, rfl, ?_, hparent⟩
    cases node' with
    | none => cases hnode
    | some id => exact ⟨id, rfl, Option.some.inj hnode⟩

/-- A linked node and its mount are given back. -/
theorem giveBack_run {α : Type} (ms : List MountRef) (r : Except Error α) (hI : Inv ({.ref m n root known} + ({.mref m} + f)) s)
    (hn : s.nodes.cell n = some node) (hlink : node.linkCount ≠ 0) :
    ∃ s', (do step (releaseNode n true)
              step (releaseMountPoint m true)
              .ret r : P (Except Error α)).run s = .ok (r, s') ∧ Same ms s s' ∧ Inv f s' := by
  have href : ∃ mp node, TempRef _ s m n root known mp node := hI.tempRef (by simp) (by simp)
  obtain ⟨mp, node', href⟩ := href
  obtain rfl : node' = node := Option.some.inj (href.cell.symm.trans hn)
  obtain ⟨s₁, hrel₁, hI₁, hsame₁, -⟩ := releaseNode_run ms hI href hlink
  obtain ⟨s₂, hrel₂, hI₂, hsame₂, -⟩ := releaseMountPoint_run ms hI₁
  refine ⟨s₂, ?_, hsame₁.trans hsame₂, hI₂⟩
  rw [run_step _ hrel₁, run_step _ hrel₂]
  rfl

theorem leave_run {α : Type} (ms : List MountRef) (e : Error) (hI : Inv ({.ref m n root known} + ({.mref m} + f)) s)
    (hn : s.nodes.cell n = some node) (hlink : node.linkCount ≠ 0) :
    ∃ s', (do step (releaseNode n true)
              step (releaseMountPoint m true)
              fail e : P (Except Error α)).run s = .ok (.error e, s') ∧ Same ms s s' ∧ Inv f s' :=
  giveBack_run ms (.error e) hI hn hlink

theorem permitted_run (hn : s.nodes.cell n = some node) (req : UInt8) :
    permitted tInfo n req s = .ok (checkPermissions tInfo.uid tInfo.gid node req, s) := by
  unfold permitted
  rw [M.bind_ok (getNode_ok hn)]
  rfl

theorem nodeType_run (hn : s.nodes.cell n = some node) : nodeType n s = .ok (node.type, s) := by
  unfold nodeType
  rw [M.bind_ok (getNode_ok hn)]
  rfl

/-! ## The new node -/

/-- The folder `dir` has a new entry for the new node `child`, which the thread has a reference to. -/
structure Made (s s' : State) (m : MountRef) (dir : Nat) (name : Str) (c : NodeRef) (type : NodeType)
    (child : Node) (f : Held) : Prop where
  inv : Inv ({.ref m c false (.type type)} + ({.mref m} + f)) s'
  cell : s'.nodes.cell c = some child
  init : NewNode m child.id child
  fresh : s.testNodes.cell child.id = none
  test : (s'.testNodes.cell child.id).isSome
  dirs : s'.dirs = Function.update s.dirs (m, dir) (s.dirs (m, dir) ++ [⟨name, child.id⟩])

/-- Adding an entry for a node that it counts, to a folder that does not have the name. -/
theorem addEntry_run {type : NodeType} {c : NodeRef} {child : Node} {name : Str}
    (hI : Inv ({.ref m n root (.lacks name)} + ({.ref m c false (.type type)} + ({.link c} + ({.mref m} + (E + f))))) s)
    (hlinked : Linked root n E) (hn : s.nodes.cell n = some node) (hc : s.nodes.cell c = some child) (hcn : n ≠ c)
    (hne : name ≠ []) (hslash : '/' ∉ name) (hconf : ∀ l, Pool.NoConflict owes Conflict l f) :
    if name.length < nameSizeof then
      ∃ s₁ s₂, addEntry n name c s = .ok ((), s₁) ∧ releaseNode n true s₁ = .ok ((), s₂) ∧
        Inv ({.ref m c false (.type type)} + ({.mref m} + f)) s₂ ∧ s₂.nodes.cell c = some child ∧
        s₂.testNodes = s.testNodes ∧
        s₂.dirs = Function.update s.dirs (m, node.id) (s.dirs (m, node.id) ++ [⟨name, child.id⟩])
    else addEntry n name c s = .error .overflow := by
  have href : ∃ mp node, TempRef _ s m n root (.lacks name) mp node := hI.tempRef (by simp) (by simp)
  obtain ⟨mp, node', href⟩ := href
  obtain rfl : node' = node := Option.some.inj (href.cell.symm.trans hn)
  have hlink : node'.linkCount ≠ 0 := hI.linked_pos (fun t ht => by simp [ht]) hlinked href
  obtain ⟨nmp, hnmp⟩ := href.nodeMount
  have hdirtype : node'.type = .directory :=
    Option.some.inj ((typeOf_of_cell href.cell).symm.trans href.known.1)
  obtain ⟨dir, hdir⟩ := href.temp.folder hdirtype
  have hentries : s.dirs (m, node'.id) = dir.entries := by
    refine hI.dirs_eq ⟨mp.skel, n, ⟨skel_of_cell href.mount, href.notPipe⟩, href.mem, idOf_of_cell hn, ?_⟩
    simp [entriesOf_of_cell hn, Node.entries, hdir]
  have hadd := addEntry_eq name hn href.dirLock hnmp hdir hc
  split_ifs with hfits
  · obtain ⟨dir', hdir'⟩ : ∃ dir', dir.addEntry name child.id = .ok dir' := by
      unfold Directory.addEntry
      rw [if_pos hfits]
      exact ⟨_, rfl⟩
    rw [hdir'] at hadd
    set s₁ := s.updNode n fun node => { node with info := .folder dir' } with hs₁
    have hrun : (Prog.atomic (.addEntry n name) (addEntry n name c) : P Unit).run s = .ok ((), s₁) :=
      (Prog.run_atomic _ _ _).trans hadd
    have hnone : Pool.NoConflict owes Conflict (.addEntry n name) 0 := by simp [Pool.NoConflict]
    have hI₀ : Inv ({.mref m} + ({.ref m n root (.lacks name)} +
        ({.link c} + ({.ref m c false (.type type)} + (E + 0)))) + f) s := by
      rw [add_zero]
      exact hI.perm (by ac_rfl)
    obtain ⟨g, hI₁, rfl⟩ :=
      ((safe_addEntry (r := 0) m hne hslash hlinked hnone).run_ends hI₀ hconf).of_ok hrun
    have hdirs₁ := dirs_setEntries hI hI₁ href
    have hn₁ : s₁.nodes.cell n = some { node' with info := .folder dir' } := by simp [hs₁, hn]
    have href₁ : ∃ mp node, TempRef _ s₁ m n root .nothing mp node := hI₁.tempRef (by simp) (by simp)
    obtain ⟨mp₁, node₁, href₁⟩ := href₁
    obtain rfl : node₁ = _ := Option.some.inj (href₁.cell.symm.trans hn₁)
    obtain ⟨nmp₁, hnmp₁, hl₁⟩ := hI₁.nodeMount href₁.mount href₁.mem href₁.cell
    have hrel := releaseNode_keep hn₁ hnmp₁ hl₁ fun h => hlink h.2
    replace hI₁ : Inv ({.ref m n root .nothing} + ({.mref m} + ({.ref m c false (.type type)} + f))) s₁ := by
      rw [add_zero] at hI₁
      exact hI₁.perm (by ac_rfl)
    obtain ⟨hI₂, hdirs₂⟩ := releaseNode_dirs hI₁ hrel
    refine ⟨s₁, _, hadd, hrel, hI₂.perm (by ac_rfl), ?_, rfl, ?_⟩
    · simp [hs₁, hcn.symm, hc]
    · rw [hdirs₂, hdirs₁, hentries, addEntry_entries hdir']
  · unfold Directory.addEntry at hadd
    rw [if_neg hfits] at hadd
    exact hadd

/-- Making a node and an entry for it, in a folder that does not have the name. -/
theorem create_run {type : NodeType} {init : Node → Node} {name : Str} (hinit : Inits type (.ok init))
    (hI : Inv ({.ref m n root (.lacks name)} + ({.mref m} + (E + f))) s) (hlinked : Linked root n E)
    (hn : s.nodes.cell n = some node) (hne : name ≠ []) (hslash : '/' ∉ name)
    (hconf : ∀ l, Pool.NoConflict owes Conflict l f) :
    ∃ c s₁, createNode K m 1 init s = .ok (c, s₁) ∧
      if name.length < nameSizeof then
        ∃ s₂ s₃ id, addEntry n name c s₁ = .ok ((), s₂) ∧ releaseNode n true s₂ = .ok ((), s₃) ∧
          Made s s₃ m node.id name c type (init (blankNode id m 1 true)) f
      else addEntry n name c s₁ = .error .overflow := by
  have href : ∃ mp node, TempRef _ s m n root (.lacks name) mp node := hI.tempRef (by simp) (by simp)
  obtain ⟨mp, node', href⟩ := href
  obtain rfl : node' = node := Option.some.inj (href.cell.symm.trans hn)
  obtain ⟨r, m_MP, hfs⟩ : ∃ r m_MP, mp.fs = .tempFS r m_MP := by
    obtain ⟨m_MP, hfs, -, -⟩ := (hI.mountOK href.mount).fs href.notPipe
    exact ⟨_, _, fs_of_skel hfs⟩
  set tid := s.testNodes.fresh K.alloc with htid
  set c := s.nodes.fresh K.alloc with hc
  set child := init (blankNode tid m 1 true) with hchild
  obtain ⟨hnew, htype⟩ := hinit.2 init rfl m tid
  set s₁ := (s.addTestNode tid TempFS.newTestNode).pushNode m c child with hs₁
  have hrun : createNode K m 1 init s = .ok (c, s₁) :=
    createNode_temp href.mount (hI.mountOK href.mount).nodeCacheLock hfs
  have hcreate := does_createNode (K := K) m (.ok init) (fun f hf id => hinit.2 f hf m id) hinit.1 s
    ({.ref m n root (.lacks name)} + (E + f)) (hI.perm (by ac_rfl))
  obtain ⟨g, hI₁, -, rfl⟩ := hcreate.of_ok hrun
  replace hI₁ : Inv ({.ref m n root (.lacks name)} +
      ({.ref m c false (.type type)} + ({.link c} + ({.mref m} + (E + f))))) s₁ := hI₁.perm (by ac_rfl)
  have hcfresh : s.nodes.cell c = none := hc ▸ Heap.cell_fresh K.alloc s.nodes
  have hcn : n ≠ c := by
    rintro rfl
    rw [hn] at hcfresh
    cases hcfresh
  have hdirs₁ : s₁.dirs = s.dirs := dirs_pushNode hI hI₁ href.mount hcfresh hnew.entries
  have hn₁ : s₁.nodes.cell n = some node' := by simp [hs₁, State.pushNode, State.addTestNode, hcn, hn]
  have hc₁ : s₁.nodes.cell c = some child := by simp [hs₁, State.pushNode]
  have hadd := addEntry_run hI₁ hlinked hn₁ hc₁ hcn hne hslash hconf
  refine ⟨c, s₁, hrun, ?_⟩
  split_ifs at hadd ⊢ with hfits
  · obtain ⟨s₂, s₃, hadd, hrel, hI₃, hc₃, htests, hdirs⟩ := hadd
    refine ⟨s₂, s₃, tid, hadd, hrel, hI₃, hc₃, ?_, ?_, ?_, ?_⟩
    · rw [hnew.id]
      exact hnew
    · rw [hnew.id]
      exact Heap.cell_fresh K.alloc s.testNodes
    · rw [hnew.id, htests]
      simp [hs₁, State.pushNode, State.addTestNode]
    · rw [hdirs, hdirs₁]
  · exact hadd

end ChenixOS.VFS
