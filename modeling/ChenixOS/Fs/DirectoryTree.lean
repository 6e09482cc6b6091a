import ChenixOS.Fs.DirectoryLinks
import ChenixOS.Fs.DirectoryRuns
import ChenixOS.Fs.FailedOpen
import ChenixOS.Lib.Leads

/-!
# The tree of directories

`CreateHardLink` refuses a directory, `Delete` takes a link away that there is, and no other call changes the
links of a node.

**Theorem (`Step.single`).** No call gives a directory a second link.

**Theorem (`directory_path`).** So the directories of a mount form a tree: one path of names leads to each of
them, in every reachable state.
-/

namespace ChenixOS

namespace VFS

variable {α β : Type} {K : Kernel} {user : ThreadRef → Nat × Nat} {L f : Held} {s s' s₁ : State} {m : MountRef}
  {n : NodeRef} {id : Nat} {node : Node} {root : Bool} {known : Known} {t : ThreadRef} {fuel : Nat}
  {path linkPath : Option Str} {fileHasToExist deleteMode : Bool} {R : α → Prop}

/-! ## Calls -/

theorem walks_single {p : P α} {a : α} (hw : p.Walks @Lone R) (hrun : p.run s = .ok (a, s')) (ha : R a) :
    KeepsSingle s s' :=
  hw.run_rel KeepsSingle.refl KeepsSingle.trans (fun _ hm => hm) hrun ha

theorem acquirePath_single {buffer : Str} {tInfo : ThreadInfo} {r : Except Error Acquired} (hI : Inv L s)
    (hbuf : deleteMode = true → NoTrailing buffer)
    (hrun : (acquirePath K tInfo fileHasToExist deleteMode fuel buffer).run s = .ok (r, s₁)) :
    KeepsSingle s s₁ ∧ ∃ g, Inv (g + L) s₁ ∧ AcquiredOK deleteMode r g := by
  have hsafe := safe_acquirePath (K := K) tInfo fileHasToExist fuel buffer hbuf
  have hI₀ : Inv (0 + L) s := by rwa [zero_add]
  exact ⟨walks_single (sections_lone.acquirePath fuel buffer) hrun trivial,
    (hsafe.run_ends hI₀ fun _ => trivial).of_ok hrun⟩

/-- A call that succeeds goes on with what its path leads to. -/
theorem resolve_single {bufSize : Nat} {k : Str → ThreadInfo → Acquired → P (Except Error β)} {b : β} (hI : Inv L s)
    (hrun : (do
      onOk (← step (prepare bufSize t path)) fun buffer => do
        let tInfo ← step (getThread t)
        onOk (← acquirePath K tInfo fileHasToExist deleteMode fuel buffer) fun a =>
          k buffer tInfo a : P (Except Error β)).run s = .ok (.ok b, s')) :
    ∃ buffer a g s₁, KeepsSingle s s₁ ∧ Inv (g + L) s₁ ∧ AcquiredOK deleteMode (.ok a) g ∧
      (k buffer (s.threads t) a).run s₁ = .ok (.ok b, s') := by
  obtain ⟨prep, s₀, hprep, hrun₀⟩ := run_step_ok hrun
  obtain ⟨rfl, hprep⟩ := prepare_eq_ok hprep
  cases prep with
  | error e => cases hrun₀
  | ok buffer =>
    have hthread : getThread t s₀ = .ok (s₀.threads t, s₀) := rfl
    rw [onOk, run_step _ hthread] at hrun₀
    obtain ⟨r, s₁, hacq, hrun₁⟩ := Prog.run_bind_ok.1 hrun₀
    obtain ⟨hsingle, g, hI₁, hOK⟩ := acquirePath_single hI (fun _ => preparePath_noTrailing hprep) hacq
    cases r with
    | error e => cases hrun₁
    | ok a => exact ⟨buffer, a, g, s₁, hsingle, hI₁, hOK, hrun₁⟩

theorem releaseNode_single (hI : Inv ({.ref m n root known} + f) s) (hrun : releaseNode n true s = .ok ((), s')) :
    Inv f s' ∧ KeepsSingle s s' := by
  obtain ⟨g, hI', -, rfl⟩ := (does_releaseNode m n root known s _ hI).of_ok hrun
  rw [zero_add] at hI'
  exact ⟨hI', Lone.releaseNode n true _ _ _ hrun⟩

/-- The end of `CreateHardLink`. -/
theorem addLink_single {dir : NodeRef} {name : Str} (hn : s.nodes.cell n = some node) (htype : node.type ≠ .directory)
    (hrun : (do
      step (modifyNode n fun node => { node with linkCount := inc node.linkCount })
      Prog.atomic (.addEntry dir name) (addEntry dir name n)
      step (releaseNode dir true)
      step (releaseMountPoint m true)
      step (releaseNode n true)
      step (releaseMountPoint m true)
      .ret (.ok ()) : P (Except Error Unit)).run s = .ok (.ok (), s')) : KeepsSingle s s' := by
  have hsections : Sections .plain @Lone := sections_lone
  obtain ⟨⟨⟩, s₁, hlink, hrun₁⟩ := run_step_ok hrun
  rw [modifyNode_ok hn] at hlink
  cases hlink
  refine KeepsSingle.trans _ _ _ (single_updNode fun node' hn' hdir => ?_)
    (walks_single (R := fun _ => True) ?_ hrun₁ trivial)
  · obtain rfl : node = node' := Option.some.inj (hn.symm.trans hn')
    exact absurd hdir htype
  · exact .bind (.atomic (lone_of_fixes (blind_kinds.addEntry dir name n))) fun _ =>
      hsections.leave dir m (hsections.leave n m (.ret _))

/-- **`CreateHardLink` refuses a directory.** -/
theorem createHardLink_single (hI : Inv L s)
    (hrun : (createHardLink K t fuel path linkPath).run s = .ok (.ok (), s')) : KeepsSingle s s' := by
  unfold createHardLink at hrun
  obtain ⟨buffer, a, g, s₁, hsingle, hI, hOK, hrun₁⟩ := resolve_single hI hrun
  refine KeepsSingle.trans _ _ _ hsingle ?_
  cases hOK with
  | absent =>
    obtain ⟨_, _, h, -⟩ := run_step_ok hrun₁
    cases h
  | @root m n path' buffer' =>
    have href : ∃ mp node, TempRef _ s₁ m n true .nothing mp node := hI.tempRef (by simp) (by simp)
    obtain ⟨mp, node, href⟩ := href
    have htype : node.type = .directory := href.temp.rootType (href.root.1 rfl)
    dsimp only at hrun₁
    rw [run_step _ (nodeType_run href.cell), if_pos htype] at hrun₁
    exact absurd hrun₁ (fails_step (fun _ => fails_step fun _ => fails_fail _) _ _ _)
  | @node m n dir root known known' name path' buffer' _ _ =>
    replace hI : Inv ({.ref m dir root known'} + ({.mref m} + {.named dir name n} +
        ({.ref m n false known} + L))) s₁ := hI.perm (by ac_rfl)
    dsimp only at hrun₁
    obtain ⟨_, s₂, hrel, hrun₂⟩ := run_step_ok hrun₁
    obtain ⟨hI₂, hsingle₂⟩ := releaseNode_single hI hrel
    refine KeepsSingle.trans _ _ _ hsingle₂ ?_
    replace hI₂ : Inv ({.ref m n false known} + ({.mref m} + L)) s₂ := by
      have hforget : Inv ({.named dir name n} + ({.ref m n false known} + ({.mref m} + L))) s₂ :=
        hI₂.perm (by ac_rfl)
      exact hforget.forget rfl
    have href : ∃ mp node, TempRef _ s₂ m n false known mp node := hI₂.tempRef (by simp) (by simp)
    obtain ⟨mp, node, href⟩ := href
    rw [run_step _ (nodeType_run href.cell)] at hrun₂
    split_ifs at hrun₂ with htype
    · exact absurd hrun₂ (fails_step (fun _ => fails_step fun _ => fails_fail _) _ _ _)
    · -- what the node is stays known while the other path is resolved
      obtain ⟨g, hI₃, -, rfl, -⟩ := (does_nodeType m n false known s₂ _ hI₂).of_ok (nodeType_run href.cell)
      obtain ⟨prep, s₃, hprep, hrun₃⟩ := run_step_ok hrun₂
      obtain ⟨rfl, hprep⟩ := prepare_eq_ok hprep
      cases prep with
      | error e => exact absurd hrun₃ (fails_step (fun _ => fails_step fun _ => fails_fail _) _ _ _)
      | ok buffer₂ =>
        obtain ⟨r, s₄, hacq, hrun₄⟩ := Prog.run_bind_ok.1 hrun₃
        obtain ⟨hsingle₄, g₂, hI₄, hOK₂⟩ := acquirePath_single hI₃ (fun h => by cases h) hacq
        refine KeepsSingle.trans _ _ _ hsingle₄ ?_
        cases hOK₂ with
        | error e => exact absurd hrun₄ (fails_step (fun _ => fails_step fun _ => fails_fail _) _ _ _)
        | root => exact absurd hrun₄ (fails_step (fun _ => fails_step fun _ => fails_step fun _ => fails_step fun _ =>
            fails_fail _) _ _ _)
        | node => exact absurd hrun₄ (fails_step (fun _ => fails_step fun _ => fails_step fun _ => fails_step fun _ =>
            fails_step fun _ => fails_fail _) _ _ _)
        | @absent m₂ dir₂ root₂ path₂ _ E hlinked hne hslash =>
          have hrefd : ∃ mp node, TempRef _ s₄ m₂ dir₂ root₂ (.lacks path₂) mp node :=
            hI₄.tempRef (by simp) (by simp)
          obtain ⟨mpd, dnode, hrefd⟩ := hrefd
          dsimp only at hrun₄
          rw [run_step _ (permitted_run hrefd.cell _)] at hrun₄
          split_ifs at hrun₄ with hperm hmp
          · exact absurd hrun₄ (fails_step (fun _ => fails_step fun _ => fails_step fun _ => fails_step fun _ =>
              fails_fail _) _ _ _)
          · exact absurd hrun₄ (fails_step (fun _ => fails_step fun _ => fails_step fun _ => fails_step fun _ =>
              fails_fail _) _ _ _)
          · obtain rfl : m₂ = m := not_not.1 hmp
            have href₄ : ∃ mp node', TempRef _ s₄ m₂ n false (.type node.type) mp node' :=
              hI₄.tempRef (by simp) (by simp)
            obtain ⟨mp₄, node₄, href₄⟩ := href₄
            have htype₄ : node₄.type = node.type := Option.some.inj ((typeOf_of_cell href₄.cell).symm.trans href₄.known)
            exact addLink_single href₄.cell (htype₄ ▸ htype) hrun₄

/-- `Delete` takes a link away that there is. -/
theorem delete_single (hrest : Rest L s) (hrun : (delete K t fuel path).run s = .ok (.ok (), s')) :
    KeepsSingle s s' := by
  unfold delete at hrun
  obtain ⟨buffer, a, g, s₁, hsingle, hI, hOK, hrun₁⟩ := resolve_single hrest.inv hrun
  refine KeepsSingle.trans _ _ _ hsingle ?_
  cases hOK with
  | absent =>
    obtain ⟨_, _, h, -⟩ := run_step_ok hrun₁
    cases h
  | root => exact absurd hrun₁ (fails_step (fun _ => fails_step fun _ => fails_fail _) _ _ _)
  | @node m n dir root known known' name path' buffer' hdelete _ =>
    obtain ⟨rfl, rfl⟩ := hdelete rfl
    replace hI : Inv ({.mref m} + {.ref m n false .nothing} +
        ({.ref m dir root known'} + {.named dir (getFileName buffer') n} + L)) s₁ := hI.perm (by ac_rfl)
    have hrefn : ∃ mp node, TempRef _ s₁ m n false .nothing mp node := hI.tempRef (by simp) (by simp)
    have hrefd : ∃ mp node, TempRef _ s₁ m dir root known' mp node := hI.tempRef (by simp) (by simp)
    obtain ⟨mp, node, hrefn⟩ := hrefn
    obtain ⟨mpd, dnode, hrefd⟩ := hrefd
    obtain ⟨mp', hm'⟩ := hrefn.nodeMount
    dsimp only at hrun₁
    rw [run_step _ (permitted_run hrefd.cell _)] at hrun₁
    split_ifs at hrun₁ with hperm
    · exact absurd hrun₁ (fails_step (fun _ => fails_step fun _ => fails_step fun _ => fails_fail _) _ _ _)
    · have hempty : (Prog.atomic (.checkEmpty n) (folderNotEmpty n) : P Bool).run s₁ =
          .ok (decide (node.entries ≠ []), s₁) :=
        (Prog.run_atomic _ _ _).trans
          (folderNotEmpty_ok hrefn.cell hrefn.dirLock hm' hrefn.temp.folder hrefn.temp.isFolder)
      obtain ⟨g, hI₁, hg⟩ := ((safe_folderNotEmpty m n false .nothing).run_ends hI fun _ => trivial).of_ok hempty
      rw [Prog.run_bind_of_ok _ hempty] at hrun₁
      split_ifs at hrun₁ hg with hentries
      · exact absurd hrun₁ (fails_step (fun _ => fails_step fun _ => fails_step fun _ => fails_fail _) _ _ _)
      · subst hg
        replace hI₁ : Inv ({.named dir (getFileName buffer') n} + ({.mref m} + ({.ref m dir root known'} +
            ({.ref m n false .nothing} + {.empty n}))) + L) s₁ := hI₁.perm (by ac_rfl)
        have hfree : Pool.NoConflict owes Conflict (.removeEntry dir (getFileName buffer'))
            ({.ref m n false .nothing} + {.empty n}) := by
          intro l' hl' hc
          obtain rfl : l' = .checkEmpty n := by simpa using hl'
          cases hc
        obtain ⟨s₂, index, hremove, hI₂, -, -⟩ :=
          removeEntry_run hI₁ hrefd.cell hrefn.cell hfree hrest.noConflict
        refine KeepsSingle.trans _ _ _ (lone_of_fixes (blind_kinds.removeEntry dir _) _ _ _ hremove) ?_
        rw [Prog.run_bind_of_ok _ ((Prog.run_atomic _ _ _).trans hremove), if_pos rfl] at hrun₁
        -- the entry that was removed still counts
        have href₂ : ∃ mp node, TempRef _ s₂ m n false .nothing mp node := hI₂.tempRef (by simp) (by simp)
        obtain ⟨mp₂, node₂, href₂⟩ := href₂
        have hpos : 0 < node₂.linkCount := by
          have hcount := href₂.temp.linkCount
          have htotal := total_pos (k := .link n) (t := .link n) (H := {.link n} + ({.mref m} +
            ({.ref m dir root known'} + ({.ref m n false .nothing} + {.empty n}))) + L) (by simp) rfl
          omega
        obtain ⟨⟨⟩, s₃, hdrop, hrun₂⟩ := run_step_ok hrun₁
        rw [modifyNode_ok href₂.cell] at hdrop
        cases hdrop
        have hsections : Sections K @Lone := sections_lone
        refine KeepsSingle.trans _ _ _ (fun hs => ?_)
          (walks_single (R := fun _ => True)
            (hsections.release n true fun _ => hsections.leave dir m (.ret _)) hrun₂ trivial)
        refine single_updNode (fun node' hn' hdir => ?_) hs
        obtain rfl : node₂ = node' := Option.some.inj (href₂.cell.symm.trans hn')
        have hle : node₂.linkCount ≤ 1 := hs.node n _ (by
          have htype : node₂.type = .directory := hdir
          simp [State.kinds, href₂.cell, htype])
        show dec node₂.linkCount ≤ 1
        rw [dec, if_neg hpos.ne']
        exact (Nat.sub_le _ 1).trans hle

/-- **No call gives a directory a second link.** -/
theorem Step.single {c : Call} {res : Reply} (hrest : Rest L s) (h : Step K s c res s') : KeepsSingle s s' := by
  obtain ⟨-, fuel, hrun⟩ := h
  have hwalk : ∀ R : Reply → Prop,
      ((∃ t path linkPath, c = .createHardLink t path linkPath) ∨ (∃ t path, c = .delete t path) →
        ¬ R (.code (.ok ()))) → R res → KeepsSingle s s' := by
    intro R hR hres
    refine walks_single (sections_lone.prog fuel (fun hc => Or.inr (hR (Or.inl hc))) (fun hc => Or.inr (hR (Or.inr hc)))
      (fun _ => Lone.attach) (fun _ => Lone.detach) fun t cwd => lone_of_fixes fun s u s' hthread => ?_) hrun hres
    cases hthread
    rfl
  by_cases hlinks : (∃ t path linkPath, c = .createHardLink t path linkPath) ∨ ∃ t path, c = .delete t path
  · by_cases hok : res = .code (.ok ())
    · -- a hard link or a deletion that succeeds adds a link to a file or takes one away
      rcases hlinks with ⟨t, path, linkPath, rfl⟩ | ⟨t, path, rfl⟩
      · obtain ⟨r, hrun, hr⟩ := Prog.run_map_ok.1 hrun
        obtain rfl : r = .ok () := Reply.code.inj (hr.trans hok)
        exact createHardLink_single hrest.inv hrun
      · obtain ⟨r, hrun, hr⟩ := Prog.run_map_ok.1 hrun
        obtain rfl : r = .ok () := Reply.code.inj (hr.trans hok)
        exact delete_single hrest hrun
    · exact hwalk (· ≠ .code (.ok ())) (fun _ h => h rfl) hok
  · exact hwalk (fun _ => True) (fun h => absurd h hlinks) trivial

/-! ## Runs -/

theorem single_init (K : Kernel) (user : ThreadRef → Nat × Nat) : (State.init K user).kinds.Single := by
  refine ⟨fun n links hn => ?_, fun id links hid => ?_⟩
  · simp [State.kinds, State.init] at hn
  · by_cases heq : id = (Heap.empty : Heap TestNode).fresh K.alloc
    · subst heq
      obtain rfl : TempFS.rootTestNode.linkRefCount = links := by
        simpa [State.kinds, State.init, TempFS.rootTestNode] using hid
      exact le_rfl
    · simp [State.kinds, State.init, heq] at hid

theorem Reachable.single (h : Reachable K user s) : s.kinds.Single := by
  induction h with
  | refl => exact single_init K user
  | tail hrun hstep ih =>
    obtain ⟨L, hrest⟩ := Reachable.rest hrun
    obtain ⟨c, res, -, hstep⟩ := hstep
    exact hstep.single hrest ih

/-- The directories of a mount. -/
def Tree.IsDir (T : Tree) (m : MountRef) (id : Nat) : Prop :=
  ∃ inode, T.node m id = some inode ∧ inode.type = .directory

/-- The entry `x` of the directory `a` is for the node `b`. -/
def Tree.Entry (T : Tree) (m : MountRef) (a : Nat) (x : Str) (b : Nat) : Prop := (a, x) ∈ T.names m b

/-- A directory of the tree has at most one link. -/
theorem Kinds.Single.links_le {links : Nat} (hs : s.kinds.Single) (hdir : s.tree.IsDir m id)
    (hlink : s.linkCount m id = some links) : links ≤ 1 := by
  obtain ⟨inode, hnode, htype⟩ := hdir
  obtain ⟨node, hor, rfl⟩ := Option.map_eq_some_iff.1 hlink
  have hinode : (some node).map Node.inode = some inode := hor ▸ hnode
  obtain rfl := Option.some.inj hinode
  have htype' : node.type = .directory := htype
  rcases Option.or_eq_some_iff.1 hor with hcached | ⟨-, hunread⟩
  · obtain ⟨mp, hm, hfind⟩ := Option.bind_eq_some_iff.1 hcached
    obtain ⟨n, -, hn⟩ := Option.bind_eq_some_iff.1 hfind
    exact hs.node n _ (by simp [State.kinds, hn, htype'])
  · obtain ⟨mp, hm, hread⟩ := Option.bind_eq_some_iff.1 hunread
    split_ifs at hread
    obtain ⟨tn, htn, rfl⟩ := Option.map_eq_some_iff.1 hread
    have htype₂ : tn.type = .directory := htype'
    exact hs.test id _ (by simp [State.kinds, htn, htype₂, rootNodeOf])

/-- A directory has at most one name. -/
theorem Reachable.oneName (h : Reachable K user s) (hp : m ≠ s.pipeMount) (hdir : s.tree.IsDir m id) :
    (s.tree.names m id).ncard ≤ 1 := by
  obtain ⟨L, hrest⟩ := h.rest
  obtain ⟨inode, hnode, htype⟩ := hdir
  have hlink := linkCount_eq hrest.inv hrest.noLink hp id
  rw [hnode, Option.map_some] at hlink
  exact (Nat.le_add_left _ _).trans (h.single.links_le ⟨inode, hnode, htype⟩ hlink)

/-- What has an entry is a directory. -/
theorem Inv.entry_isDir (hI : Inv L s) (hp : m ≠ s.pipeMount) {a b : Nat} {x : Str} (h : s.tree.Entry m a x b) :
    s.tree.IsDir m a ∧ ∃ mp n node, s.mounts.cell m = some mp ∧ TempNode L s.view m mp.skel n node ∧
      s.tree.node m a = some node.inode := by
  obtain ⟨inode, e, hnode, he, -, -⟩ := h
  have hmount : ∃ mp, s.mounts.cell m = some mp := by
    cases hm : s.mounts.cell m with
    | none => simp [State.tree, State.cached, State.unread, hm] at hnode
    | some mp => exact ⟨mp, rfl⟩
  obtain ⟨mp, hm⟩ := hmount
  rcases tree_node_cases hI hm hp hnode with ⟨n, node, hmem, hn, rfl, rfl⟩ | hempty
  · have htemp := (hI.nodeOK hm hmem hn).temp hp
    refine ⟨⟨node.inode, hnode, ?_⟩, mp, n, node, hm, htemp, hnode⟩
    by_contra hne
    have hentries : node.entries = [] := htemp.isFolder hne
    rw [show node.inode.entries = node.entries from rfl, hentries] at he
    cases he
  · rw [hempty] at he
    cases he

/-- **The entries of a mount branch at its directories.** -/
theorem Reachable.branching {r : Nat} (h : Reachable K user s) (hp : m ≠ s.pipeMount)
    (hr : s.tree.rootNode m = some r) : Branching (s.tree.Entry m) r (s.tree.IsDir m) := by
  obtain ⟨L, hrest⟩ := h.rest
  refine ⟨fun a x b c hb hc => ?_, fun a x b hb => (hrest.inv.entry_isDir hp hb).1, fun a x a' x' b hdir hb hb' => ?_,
    fun a x hroot => ?_⟩
  · -- the names of a directory are different
    obtain ⟨-, mp, n, node, -, htemp, hnode⟩ := hrest.inv.entry_isDir hp hb
    obtain ⟨inode, e, hnode₁, he, hname, rfl⟩ := hb
    obtain ⟨inode', e', hnode₂, he', hname', rfl⟩ := hc
    obtain rfl := Option.some.inj (hnode.symm.trans hnode₁)
    obtain rfl := Option.some.inj (hnode.symm.trans hnode₂)
    rw [List.inj_on_of_nodup_map htemp.names he he' (hname.trans hname'.symm)]
  · have heq := (Set.ncard_le_one (names_finite hrest.inv hp b)).1 (h.oneName hp hdir) _ hb _ hb'
    exact Prod.mk.inj heq
  · -- no entry is for the root
    obtain ⟨-, mp, n, node, hm, htemp, hnode⟩ := hrest.inv.entry_isDir hp hroot
    obtain ⟨inode, e, hnode', he, -, hid⟩ := hroot
    obtain rfl := Option.some.inj (hnode.symm.trans hnode')
    have hr' : mp.rootNode = r := by simpa [hm] using hr
    exact (htemp.entry e he).notRoot (hid.trans hr'.symm)

/-- The names that are looked up are the names of entries. -/
theorem Tree.follow_leads {T : Tree} {tInfo : ThreadInfo} {current : Nat} {names : List Str} {parent : Option Nat}
    {rest : Str} (h : T.follow tInfo m fileHasToExist deleteMode current names = some (.ok (some id) parent rest)) :
    Leads (T.Entry m) current names id := by
  induction names generalizing current with
  | nil =>
    cases h
    exact .root
  | cons name names ih =>
    unfold follow at h
    cases hnode : T.node m current with
    | none =>
      rw [hnode] at h
      cases h
    | some node =>
      cases hfind : node.entries.find? fun e => e.name = name with
      | none =>
        simp only [hnode, hfind] at h
        split_ifs at h <;> cases h
      | some e =>
        have hname : e.name = name := by simpa using List.find?_some hfind
        have hentry : T.Entry m current name e.nodeID := ⟨node, e, hnode, List.mem_of_find?_eq_some hfind, hname, rfl⟩
        cases hnext : T.node m e.nodeID with
        | none =>
          simp only [hnode, hfind, hnext] at h
          split_ifs at h <;> cases h
        | some next =>
          simp only [hnode, hfind, hnext] at h
          split_ifs at h with htype hperm hsym hlast
          · cases h
          · cases h
          · cases h
          · subst hlast
            cases h
            exact .cons hentry .root
          · exact .cons hentry (ih h)

end VFS

end ChenixOS
