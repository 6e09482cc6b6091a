import ChenixOS.Fs.FailedOpen

/-!
# The calls that make and delete names

What a successful call does to the entries of the directories: it appends the last name of its path to
the directory that the path leads to, or removes it from there, and changes no other directory.
-/

namespace ChenixOS.VFS

variable {K : Kernel} {user : ThreadRef → Nat × Nat} {H L E f : Held} {s s' : State} {m : MountRef}
  {n : NodeRef} {root : Bool} {known : Known} {node : Node} {mp : MountPoint} {t : ThreadRef} {fuel : Nat}
  {path linkPath : Option Str} {openMode : UInt64} {α β : Type} {fileHasToExist deleteMode : Bool}

/-! ## Programs that return an error -/

def Fails (p : P (Except Error β)) : Prop := ∀ s b s', p.run s ≠ .ok (.ok b, s')

theorem fails_fail (e : Error) : Fails (fail e : P (Except Error β)) := by
  intro s b s' h
  cases h

theorem fails_step {act : M α} {k : α → P (Except Error β)} (hk : ∀ a, Fails (k a)) : Fails (step act >>= k) := by
  intro s b s' h
  obtain ⟨a, s₁, -, h⟩ := run_step_ok h
  exact hk a s₁ b s' h

theorem fails_stop {act : M (Except Error β)} (hact : ∀ s, ∃ e, act s = .error e) : Fails (step act) := by
  intro s b s' h
  obtain ⟨e, he⟩ := hact s
  rw [step, Prog.run_atomic, he] at h
  cases h

/-! ## What the path leads to -/

/-- The path of the call leads to `r`. -/
def Resolves (s : State) (t : ThreadRef) (path : Option Str) (fileHasToExist deleteMode : Bool)
    (r : Tree.Resolved) : Prop :=
  ∃ fuel buffer, preparePath 255 (s.threads t).cwd path = .ok (.ok buffer) ∧
    s.tree.resolve (s.threads t) fileHasToExist deleteMode fuel buffer = some (.ok r)

/-- The entry for `id`, under the last name of the path, is the last one in its folder. -/
structure Enters (s s' : State) (t : ThreadRef) (path : Option Str) (fileHasToExist : Bool) (r : Tree.Resolved)
    (folder id : Nat) : Prop where
  resolves : Resolves s t path fileHasToExist false r
  missing : r.node = none
  parent : r.parent = some folder
  fits : r.path.length < nameSizeof
  dirs : s'.dirs = Function.update s.dirs (r.mp, folder) (s.dirs (r.mp, folder) ++ [⟨r.path, id⟩])

/-- The node `id` of the mount `m` was made by the call. -/
structure IsNew (s s' : State) (m : MountRef) (id : Nat) (type : NodeType) : Prop where
  fresh : s.testNodes.cell id = none
  node : ∃ inode, s'.tree.node m id = some inode ∧ inode.type = type

/-! ## Creating -/

theorem Made.enters {s₁ s₄ : State} {c : NodeRef} {type : NodeType} {child : Node} {r : Tree.Resolved}
    {folder : Nat} {ms : List MountRef} (h : Made s₁ s₄ r.mp folder r.path c type child f)
    (hsame : Same ms s s₁) (hdirs : s'.dirs = s₄.dirs)
    (hnode : ∀ inode, s₄.tree.node r.mp child.id = some inode →
      ∃ inode', s'.tree.node r.mp child.id = some inode' ∧ inode'.type = inode.type)
    (hres : Resolves s t path fileHasToExist false r) (hmissing : r.node = none) (hparent : r.parent = some folder)
    (hfits : r.path.length < nameSizeof) :
    Enters s s' t path fileHasToExist r folder child.id ∧ IsNew s s' r.mp child.id type := by
  have href : ∃ mp node, TempRef _ s₄ r.mp c false (.type type) mp node := h.inv.tempRef (by simp) (by simp)
  obtain ⟨mp, node, href⟩ := href
  obtain rfl : node = child := Option.some.inj (href.cell.symm.trans h.cell)
  obtain ⟨inode, hinode, htype⟩ := hnode _ (href.tree h.inv)
  refine ⟨⟨hres, hmissing, hparent, hfits, ?_⟩, ?_, inode, hinode, ?_⟩
  · rw [hdirs, h.dirs, hsame.dirs]
  · rw [← hsame.testNodes]
    exact h.fresh
  · rw [htype]
    exact Option.some.inj ((typeOf_of_cell href.cell).symm.trans href.known)

/-- The type of a node is seen. -/
theorem Made.type_of_view {s₁ s₄ : State} {c : NodeRef} {type : NodeType} {child : Node} {folder : Nat} {name : Str}
    (h : Made s₁ s₄ m folder name c type child f) (hI : Inv H s') (hview : s'.view = s₄.view) (inode : Node)
    (hinode : s₄.tree.node m child.id = some inode) :
    ∃ inode', s'.tree.node m child.id = some inode' ∧ inode'.type = inode.type := by
  have href : ∃ mp node, TempRef _ s₄ m c false (.type type) mp node := h.inv.tempRef (by simp) (by simp)
  obtain ⟨mp, node, href⟩ := href
  obtain rfl : node = child := Option.some.inj (href.cell.symm.trans h.cell)
  obtain rfl : node.inode = inode := Option.some.inj ((href.tree h.inv).symm.trans hinode)
  have hpipe : s'.pipeMount = s₄.pipeMount := congrArg View.pipe hview
  have hskel : s'.view.skel m = some mp.skel := by rw [hview]; exact skel_of_cell href.mount
  have hidOf : s'.view.idOf c = some node.id := by rw [hview]; exact idOf_of_cell href.cell
  obtain ⟨mp', hm', hskel'⟩ := cell_of_skel hskel
  obtain ⟨node', hn', hid'⟩ := cell_of_idOf hidOf
  have hcache : mp'.nodeCache = mp.nodeCache := show mp'.skel.nodeCache = mp.skel.nodeCache by rw [hskel']
  have htree := tree_node hI hm' (by rw [hpipe]; exact href.notPipe) (by rw [hcache]; exact href.mem) hn'
  rw [hid'] at htree
  refine ⟨_, htree, ?_⟩
  have htype : s'.view.typeOf c = some node.type := by rw [hview]; exact typeOf_of_cell href.cell
  exact Option.some.inj ((typeOf_of_cell hn').symm.trans htype)

theorem createAt_enters {type : NodeType} {init : ThreadInfo → Except Stop (Node → Node)} (hrest : Rest L s)
    (hinit : ∀ tInfo, Inits type (init tInfo))
    (hrun : (createAt K t fuel path init).run s = .ok (.ok (), s')) :
    ∃ r folder id, Enters s s' t path false r folder id ∧ IsNew s s' r.mp id type := by
  unfold createAt at hrun
  obtain ⟨e, ms, he, -⟩ | ⟨buffer, r, a, g, s₁, hprep, hres, hsame, hands, hI, hOK, hrun⟩ :=
    resolve_run_ok hrest.inv hrun
  · cases he
  · cases hOK with
    | root => exact absurd hrun (fails_step (fun _ => fails_step fun _ => fails_fail _) _ _ _)
    | node => exact absurd hrun (fails_step (fun _ => fails_step fun _ => fails_step fun _ => fails_fail _) _ _ _)
    | @absent m dir root path' buffer' E hlinked hne hslash =>
      replace hI : Inv ({.ref m dir root (.lacks path')} + ({.mref m} + (E + L))) s₁ := hI.perm (by ac_rfl)
      have href : ∃ mp node, TempRef _ s₁ m dir root (.lacks path') mp node := hI.tempRef (by simp) (by simp)
      obtain ⟨mp, node, href⟩ := href
      dsimp only at hrun
      rw [run_step _ (permitted_run href.cell _)] at hrun
      split_ifs at hrun with hperm
      · exact absurd hrun (fails_step (fun _ => fails_step fun _ => fails_fail _) _ _ _)
      · obtain ⟨f₀, hf₀⟩ : ∃ f₀, init (s.threads t) = .ok f₀ := by
          cases hi : init (s.threads t) with
          | ok f₀ => exact ⟨f₀, rfl⟩
          | error e =>
            rw [hi] at hrun
            obtain ⟨c, s₂, hcreate, -⟩ := run_step_ok hrun
            cases hcreate
        have hinit₀ : Inits type (.ok f₀) := hf₀ ▸ hinit (s.threads t)
        obtain ⟨c, s₂, hcreate, hadd⟩ :=
          create_run (K := K) hinit₀ hI hlinked href.cell hne hslash hrest.noConflict
        have hmake : (do
            let init ← M.lift (.ok f₀)
            createNode K m 1 init : M NodeRef) s₁ = .ok (c, s₂) := hcreate
        rw [hf₀, run_step _ hmake] at hrun
        split_ifs at hadd with hfits
        · obtain ⟨s₃, s₄, id, hadd, hrel, hmade⟩ := hadd
          rw [Prog.run_bind_of_ok _ ((Prog.run_atomic _ _ _).trans hadd), run_step _ hrel] at hrun
          have hcount : (f₀ (blankNode id m 1 true)).linkCount ≠ 0 := by
            rw [hmade.init.linkCount]
            exact Nat.one_ne_zero
          obtain ⟨s₅, hgive, hsame₅, -⟩ := giveBack_run [] (.ok ()) hmade.inv hmade.cell hcount
          rw [hgive] at hrun
          cases hrun
          obtain ⟨rfl, hnone, hparent, rfl⟩ := hands_absent hands (idOf_of_cell href.cell)
          refine ⟨r, node.id, _, hmade.enters hsame hsame₅.dirs (fun inode hinode => ⟨inode, ?_, rfl⟩)
            ⟨_, _, hprep, hres⟩ hnone hparent hfits⟩
          rw [hsame₅.tree, hinode]
        · rw [Prog.run_bind, Prog.run_atomic, hadd] at hrun
          cases hrun

/-- The end of `CreateHardLink`. -/
theorem addLink_run {type : NodeType} {dir : NodeRef} {dnode : Node} {name : Str}
    (hI : Inv ({.ref m dir root (.lacks name)} + ({.ref m n false (.type type)} + ({.mref m} + (E + ({.mref m} + f))))) s)
    (hlinked : Linked root dir E) (hd : s.nodes.cell dir = some dnode) (hn : s.nodes.cell n = some node)
    (htype : type ≠ .directory) (hne : name ≠ []) (hslash : '/' ∉ name) (hconf : ∀ l, Pool.NoConflict owes Conflict l f)
    (hrun : (do
      step (modifyNode n fun node => { node with linkCount := inc node.linkCount })
      Prog.atomic (.addEntry dir name) (addEntry dir name n)
      step (releaseNode dir true)
      step (releaseMountPoint m true)
      step (releaseNode n true)
      step (releaseMountPoint m true)
      .ret (.ok ()) : P (Except Error Unit)).run s = .ok (.ok (), s')) :
    name.length < nameSizeof ∧
      s'.dirs = Function.update s.dirs (m, dnode.id) (s.dirs (m, dnode.id) ++ [⟨name, node.id⟩]) := by
  set s₁ := s.updNode n fun node => { node with linkCount := inc node.linkCount } with hs₁
  have hlink : modifyNode n (fun node => { node with linkCount := inc node.linkCount }) s = .ok ((), s₁) :=
    modifyNode_ok hn _
  have hI₀ : Inv ({.mref m} + {.ref m n false (.type type)} +
      ({.ref m dir root (.lacks name)} + (E + ({.mref m} + f)))) s := hI.perm (by ac_rfl)
  obtain ⟨g, hI₁, -, rfl⟩ := (does_addLink m n false (.type type) s _ hI₀).of_ok hlink
  replace hI₁ : Inv ({.ref m dir root (.lacks name)} + ({.ref m n false (.type type)} +
      ({.link n} + ({.mref m} + (E + ({.mref m} + f)))))) s₁ := hI₁.perm (by ac_rfl)
  have hdirs₁ : s₁.dirs = s.dirs := dirs_of_view hI hI₁ (view_updNode hn rfl rfl rfl)
  have hdn : dir ≠ n := by
    rintro rfl
    have hrefd : ∃ mp node, TempRef _ s m dir root (.lacks name) mp node := hI.tempRef (by simp) (by simp)
    have hrefn : ∃ mp node, TempRef _ s m dir false (.type type) mp node := hI.tempRef (by simp) (by simp)
    obtain ⟨_, _, hrefd⟩ := hrefd
    obtain ⟨_, _, hrefn⟩ := hrefn
    exact htype (Option.some.inj (hrefn.known.symm.trans hrefd.known.1))
  have hd₁ : s₁.nodes.cell dir = some dnode := by simp [hs₁, hdn, hd]
  have hn₁ : s₁.nodes.cell n = some { node with linkCount := inc node.linkCount } := by simp [hs₁, hn]
  have hconf' : ∀ l, Pool.NoConflict owes Conflict l ({.mref m} + f) := by
    intro l l' hl'
    simp only [owes_add, owes_singleton, owes_mref, false_or] at hl'
    exact hconf l l' hl'
  have hadd := addEntry_run hI₁ hlinked hd₁ hn₁ hdn hne hslash hconf'
  rw [run_step _ hlink] at hrun
  split_ifs at hadd with hfits
  · obtain ⟨s₂, s₃, hadd, hrel, hI₃, -, -, hdirs₃⟩ := hadd
    rw [Prog.run_bind_of_ok _ ((Prog.run_atomic _ _ _).trans hadd), run_step _ hrel] at hrun
    replace hI₃ : Inv ({.mref m} + ({.ref m n false (.type type)} + ({.mref m} + f))) s₃ := hI₃.perm (by ac_rfl)
    obtain ⟨s₄, hrel₄, hI₄, hsame₄, -⟩ := releaseMountPoint_run [] hI₃
    rw [run_step _ hrel₄] at hrun
    obtain ⟨⟨⟩, s₅, hrel₅, hrun⟩ := run_step_ok hrun
    obtain ⟨hI₅, hdirs₅⟩ := releaseNode_dirs hI₄ hrel₅
    obtain ⟨s₆, hrel₆, -, hsame₆, -⟩ := releaseMountPoint_run [] hI₅
    rw [run_step _ hrel₆] at hrun
    cases hrun
    refine ⟨hfits, ?_⟩
    rw [hsame₆.dirs, hdirs₅, hsame₄.dirs, hdirs₃, hdirs₁]
  · rw [Prog.run_bind, Prog.run_atomic, hadd] at hrun
    cases hrun

/-- The path of a call that goes on after another path was resolved. -/
theorem resolveNext_run_ok {k : Str → Acquired → P (Except Error β)} {kerr : Error → P (Except Error β)} {b : β}
    {ms : List MountRef} {s₁ : State} (hI : Inv f s₁) (hsame : Same ms s s₁)
    (hrun : (do
      match ← step (prepare 255 t path) with
      | .error e => kerr e
      | .ok buffer => do
          match ← acquirePath K (s.threads t) fileHasToExist deleteMode fuel buffer with
          | .error e => kerr e
          | .ok a => k buffer a : P (Except Error β)).run s₁ = .ok (.ok b, s'))
    (hkerr : ∀ e, Fails (kerr e)) :
    ∃ buffer r a g s₂ ms', preparePath 255 (s.threads t).cwd path = .ok (.ok buffer) ∧
      s.tree.resolve (s.threads t) fileHasToExist deleteMode fuel buffer = some (.ok r) ∧ Same ms' s₁ s₂ ∧
      Hands s₂.view (.ok r) (.ok a) ∧ Inv (g + f) s₂ ∧ AcquiredOK deleteMode (.ok a) g ∧
      (k buffer a).run s₂ = .ok (.ok b, s') := by
  obtain ⟨prep, s₀, hprep, hrun⟩ := run_step_ok hrun
  obtain ⟨rfl, hprep⟩ := prepare_eq_ok hprep
  rw [hsame.threads] at hprep
  cases prep with
  | error e => exact absurd hrun (hkerr e _ _ _)
  | ok buffer =>
    have hres := @acquirePath_run K f s₀ fuel (s.threads t) fileHasToExist deleteMode buffer hI fun _ =>
      preparePath_noTrailing hprep
    obtain ⟨a, s₂, hacq, hrun⟩ := Prog.run_bind_ok.1 hrun
    rw [hsame.tree] at hres
    cases hresolve : s.tree.resolve (s.threads t) fileHasToExist deleteMode fuel buffer with
    | none =>
      rw [hresolve, hacq] at hres
      cases hres
    | some r =>
      rw [hresolve] at hres
      obtain ⟨a', s₂', g, hacq', hsame', hands, hI₂, hOK⟩ := hres
      cases hacq.symm.trans hacq'
      cases hands with
      | error e => exact absurd hrun (hkerr e _ _ _)
      | ok hnode hparent =>
        exact ⟨buffer, _, _, g, s₂, _, hprep, hresolve, hsame', .ok hnode hparent, hI₂, hOK, hrun⟩

theorem createHardLink_enters (hrest : Rest L s)
    (hrun : (createHardLink K t fuel path linkPath).run s = .ok (.ok (), s')) :
    ∃ r folder id rl, Enters s s' t path false r folder id ∧ Resolves s t linkPath true false rl ∧ rl.mp = r.mp ∧
      rl.node = some id := by
  unfold createHardLink at hrun
  obtain ⟨e, ms, he, -⟩ | ⟨buffer, rl, a, g, s₁, hprep, hres, hsame, hands, hI, hOK, hrun⟩ :=
    resolve_run_ok hrest.inv hrun
  · cases he
  · cases hOK with
    | absent =>
      obtain ⟨_, _, h, -⟩ := run_step_ok hrun
      cases h
    | @root m n path' buffer' =>
      have href : ∃ mp node, TempRef _ s₁ m n true .nothing mp node := hI.tempRef (by simp) (by simp)
      obtain ⟨mp, node, href⟩ := href
      have htype : node.type = .directory := href.temp.rootType (href.root.1 rfl)
      dsimp only at hrun
      rw [run_step _ (nodeType_run href.cell), if_pos htype] at hrun
      exact absurd hrun (fails_step (fun _ => fails_step fun _ => fails_fail _) _ _ _)
    | @node m n dir root known known' name path' buffer' _ _ =>
      replace hI : Inv ({.ref m dir root known'} + ({.mref m} + {.named dir name n} +
          ({.ref m n false known} + L))) s₁ := hI.perm (by ac_rfl)
      obtain ⟨s₂, hrel, hI₂, hsame₂, hids₂⟩ := releaseParent_run [] hI
      replace hI₂ : Inv ({.ref m n false known} + ({.mref m} + L)) s₂ := by
        have hforget : Inv ({.named dir name n} + ({.ref m n false known} + ({.mref m} + L))) s₂ :=
          hI₂.perm (by ac_rfl)
        exact hforget.forget rfl
      have href : ∃ mp node, TempRef _ s₂ m n false known mp node := hI₂.tempRef (by simp) (by simp)
      obtain ⟨mp, node, href⟩ := href
      dsimp only at hrun
      rw [run_step _ hrel, run_step _ (nodeType_run href.cell)] at hrun
      split_ifs at hrun with htype
      · exact absurd hrun (fails_step (fun _ => fails_step fun _ => fails_fail _) _ _ _)
      · obtain ⟨g, hI₃, -, rfl, -⟩ := (does_nodeType m n false known s₂ _ hI₂).of_ok (nodeType_run href.cell)
        obtain ⟨buffer₂, r, a₂, g₂, s₃, ms, hprep₂, hres₂, hsame₃, hands₂, hI₄, hOK₂, hrun⟩ :=
          resolveNext_run_ok hI₃ (hsame.trans (hsame₂.mono (List.nil_subset _))) hrun fun e =>
            fails_step fun _ => fails_step fun _ => fails_fail e
        cases hOK₂ with
        | root => exact absurd hrun (fails_step (fun _ => fails_step fun _ => fails_step fun _ => fails_step fun _ =>
            fails_fail _) _ _ _)
        | node => exact absurd hrun (fails_step (fun _ => fails_step fun _ => fails_step fun _ => fails_step fun _ =>
            fails_step fun _ => fails_fail _) _ _ _)
        | @absent m₂ dir₂ root₂ path₂ _ E hlinked hne hslash =>
          replace hI₄ : Inv ({.ref m₂ dir₂ root₂ (.lacks path₂)} + ({.ref m n false (.type node.type)} +
              ({.mref m₂} + (E + ({.mref m} + L))))) s₃ := hI₄.perm (by ac_rfl)
          have hrefd : ∃ mp node, TempRef _ s₃ m₂ dir₂ root₂ (.lacks path₂) mp node :=
            hI₄.tempRef (by simp) (by simp)
          have hrefn : ∃ mp node', TempRef _ s₃ m n false (.type node.type) mp node' :=
            hI₄.tempRef (by simp) (by simp)
          obtain ⟨mpd, dnode, hrefd⟩ := hrefd
          obtain ⟨mpn, node', hrefn⟩ := hrefn
          dsimp only at hrun
          rw [run_step _ (permitted_run hrefd.cell _)] at hrun
          split_ifs at hrun with hperm hmp
          · exact absurd hrun (fails_step (fun _ => fails_step fun _ => fails_step fun _ => fails_step fun _ =>
              fails_fail _) _ _ _)
          · exact absurd hrun (fails_step (fun _ => fails_step fun _ => fails_step fun _ => fails_step fun _ =>
              fails_fail _) _ _ _)
          · obtain rfl : m₂ = m := not_not.1 hmp
            obtain ⟨hfits, hdirs⟩ :=
              addLink_run hI₄ hlinked hrefd.cell hrefn.cell htype hne hslash hrest.noConflict hrun
            obtain ⟨rfl, hnone, hparent, rfl⟩ := hands_absent hands₂ (idOf_of_cell hrefd.cell)
            have hid : rl.mp = r.mp ∧ rl.node = some node'.id := by
              obtain ⟨hmp', -, -, ⟨id, hnode, hid⟩, -⟩ := hands_node hands
              have hid₃ := hsame₃.ids n id ((hids₂ n).trans hid)
              rw [idOf_of_cell hrefn.cell] at hid₃
              exact ⟨hmp', hnode.trans hid₃.symm⟩
            refine ⟨r, dnode.id, node'.id, rl, ⟨⟨_, _, hprep₂, hres₂⟩, hnone, hparent, hfits, ?_⟩,
              ⟨_, _, hprep, hres⟩, hid⟩
            rw [hdirs, hsame₃.dirs, hsame₂.dirs, hsame.dirs]

/-- The end of `Open` that succeeds changes no tree. -/
theorem openNode_view {buffer : Str} {d : DescRef} {tInfo : ThreadInfo}
    (hI : Inv ({.ref m n root known} + ({.mref m} + f)) s)
    (hrun : (openNode K tInfo m n openMode buffer).run s = .ok (.ok d, s')) : s'.view = s.view := by
  have href : ∃ mp node, TempRef _ s m n root known mp node := hI.tempRef (by simp) (by simp)
  obtain ⟨mp, node, href⟩ := href
  -- what is left when all checks have passed
  have hends : ∀ s₁, Inv ({.ref m n root known} + ({.mref m} + f)) s₁ → (do
      step (releaseNode n false)
      step (releaseMountPoint m false)
      let d ← step (newDesc K
        { refCount := 1, node := n, permissions := openMode.toUInt8, pos := 0, path := buffer })
      .ret (.ok d) : P (Except Error DescRef)).run s₁ = .ok (.ok d, s') → s'.view = s₁.view := by
    intro s₁ hI₁ hrun₁
    have href₁ : ∃ mp node, TempRef _ s₁ m n root known mp node := hI₁.tempRef (by simp) (by simp)
    obtain ⟨mp₁, node₁, href₁⟩ := href₁
    obtain ⟨mp', hm', hl⟩ := hI₁.nodeMount href₁.mount href₁.mem href₁.cell
    have hpos := hI₁.refCount_pos (mem_head _ _) href₁.cell
    have hkeep := releaseNode_false href₁.cell hm' hl fun h => Nat.ne_of_gt hpos h.1
    rw [run_step _ hkeep, run_step _ (releaseMountPoint_false m s₁)] at hrun₁
    obtain ⟨d', s₂, hdesc, hrun₂⟩ := run_step_ok hrun₁
    cases hdesc
    cases hrun₂
    rfl
  unfold openNode at hrun
  rw [run_step _ (permitted_run href.cell _)] at hrun
  by_cases hperm : (!checkPermissions tInfo.uid tInfo.gid node
      (openMode &&& (openModeRead ||| openModeWrite)).toUInt8) = true
  · rw [if_pos hperm] at hrun
    exact absurd hrun (fails_step (fun _ => fails_step fun _ => fails_fail _) _ _ _)
  · rw [if_neg hperm, run_step _ (nodeType_run href.cell)] at hrun
    by_cases htype : node.type = .directory
    · rw [if_pos htype] at hrun
      exact absurd hrun (fails_step (fun _ => fails_step fun _ => fails_fail _) _ _ _)
    · rw [if_neg htype] at hrun
      by_cases hclear : hasMode openMode openModeClear = true
      · rw [if_pos hclear] at hrun
        obtain ⟨_, s₁, hact, hrun₁⟩ := run_step_ok hrun
        have hI₀ : Inv ({.mref m} + {.ref m n root known} + f) s := hI.perm (by ac_rfl)
        obtain ⟨g, hI₁, -, rfl⟩ := (does_clear m n root known s f hI₀).of_ok hact
        rw [hends s₁ (hI₁.perm (by ac_rfl)) hrun₁]
        rw [M.bind_ok (getNode_ok href.cell)] at hact
        split_ifs at hact
        · obtain ⟨m_MP, hfs, -, -⟩ := (hI.mountOK href.mount).fs href.notPipe
          unfold fsClearNodeData at hact
          rw [M.bind_ok (getMount_ok href.mount)] at hact
          simp only [fs_of_skel hfs] at hact
          obtain rfl := modifyTestNode_eq_ok hact
          exact view_updTestNode fun _ => rfl
        · cases hact
          rfl
      · rw [if_neg hclear] at hrun
        exact hends s hI hrun

/-- `Open` makes a file, or leaves the entries as they are. -/
theorem open_enters {d : DescRef} (hrest : Rest L s) (hrest' : Rest H s')
    (hrun : («open» K t fuel path openMode).run s = .ok (.ok d, s')) :
    s'.dirs = s.dirs ∨ ∃ r folder id, Enters s s' t path (!hasMode openMode openModeCreate) r folder id ∧
      IsNew s s' r.mp id .file := by
  unfold «open» at hrun
  obtain ⟨e', ms, he, -⟩ | ⟨buffer, r, a, g, s₁, hprep, hres, hsame, hands, hI, hOK, hrun⟩ :=
    resolve_run_ok hrest.inv hrun
  · cases he
  · cases hOK with
    | @root m n path' buffer' =>
      have hI₁ : Inv ({.ref m n true .nothing} + ({.mref m} + L)) s₁ := hI.perm (by ac_rfl)
      dsimp only at hrun
      split_ifs at hrun with hexist
      · exact absurd hrun (fails_step (fun _ => fails_step fun _ => fails_fail _) _ _ _)
      · left
        rw [dirs_of_view hI₁ hrest'.inv (openNode_view hI₁ hrun), hsame.dirs]
    | @node m n dir root known known' name path' buffer' hdelete htype =>
      replace hI : Inv ({.ref m dir root known'} + ({.mref m} + {.named dir name n} +
          ({.ref m n false known} + L))) s₁ := hI.perm (by ac_rfl)
      obtain ⟨s₂, hrel, hI₂, hsame₂, -⟩ := releaseParent_run [] hI
      replace hI₂ : Inv ({.ref m n false known} + ({.mref m} + ({.named dir name n} + L))) s₂ :=
        hI₂.perm (by ac_rfl)
      dsimp only at hrun
      split_ifs at hrun with hexist
      · exact absurd hrun (fails_step (fun _ => fails_step fun _ => fails_step fun _ => fails_fail _) _ _ _)
      · left
        rw [run_step _ hrel] at hrun
        rw [dirs_of_view hI₂ hrest'.inv (openNode_view hI₂ hrun), hsame₂.dirs, hsame.dirs]
    | @absent m dir root path' buffer' E hlinked hne hslash =>
      replace hI : Inv ({.ref m dir root (.lacks path')} + ({.mref m} + (E + L))) s₁ := hI.perm (by ac_rfl)
      have href : ∃ mp node, TempRef _ s₁ m dir root (.lacks path') mp node := hI.tempRef (by simp) (by simp)
      obtain ⟨mp, node, href⟩ := href
      dsimp only at hrun
      rw [run_step _ (permitted_run href.cell _)] at hrun
      split_ifs at hrun with hperm
      · exact absurd hrun (fails_step (fun _ => fails_step fun _ => fails_fail _) _ _ _)
      · obtain ⟨c, s₂, hcreate, hadd⟩ :=
          create_run (K := K) (inits_openInit (s.threads t) node) hI hlinked href.cell hne hslash hrest.noConflict
        rw [run_step _ ((createIn_run _ href.cell).trans hcreate)] at hrun
        split_ifs at hadd with hfits
        · obtain ⟨s₃, s₄, id, hadd, hrel, hmade⟩ := hadd
          rw [Prog.run_bind_of_ok _ ((Prog.run_atomic _ _ _).trans hadd), run_step _ hrel] at hrun
          obtain ⟨rfl, hnone, hparent, rfl⟩ := hands_absent hands (idOf_of_cell href.cell)
          have hview := openNode_view hmade.inv hrun
          exact Or.inr ⟨r, node.id, _, hmade.enters hsame (dirs_of_view hmade.inv hrest'.inv hview)
            (hmade.type_of_view hrest'.inv hview) ⟨_, _, hprep, hres⟩ hnone hparent hfits⟩
        · rw [Prog.run_bind, Prog.run_atomic, hadd] at hrun
          cases hrun

/-! ## Deleting -/

/-- The entry with the last name of the path is taken out of its folder. -/
structure Removes (s s' : State) (t : ThreadRef) (path : Option Str) (r : Tree.Resolved)
    (folder id index : Nat) : Prop where
  resolves : Resolves s t path true true r
  node : r.node = some id
  parent : r.parent = some folder
  entry : (s.dirs (r.mp, folder))[index]? = some ⟨getFileName r.buffer, id⟩
  dirs : s'.dirs = Function.update s.dirs (r.mp, folder) ((s.dirs (r.mp, folder)).eraseIdx index)

/-- Removing the entry of a name. -/
theorem removeEntry_run {c : NodeRef} {child : Node} {name : Str}
    (hI : Inv ({.named n name c} + ({.mref m} + ({.ref m n root known} + E))  + f) s)
    (hn : s.nodes.cell n = some node) (hc : s.nodes.cell c = some child)
    (hE : Pool.NoConflict owes Conflict (.removeEntry n name) E) (hconf : ∀ l, Pool.NoConflict owes Conflict l f) :
    ∃ s₁ i, removeEntry n name s = .ok (true, s₁) ∧
      Inv ({.link c} + ({.mref m} + ({.ref m n root known} + E)) + f) s₁ ∧
      (s.dirs (m, node.id))[i]? = some ⟨name, child.id⟩ ∧
      s₁.dirs = Function.update s.dirs (m, node.id) ((s.dirs (m, node.id)).eraseIdx i) := by
  have href : ∃ mp node, TempRef _ s m n root known mp node := hI.tempRef (by simp) (by simp)
  obtain ⟨mp, node', href⟩ := href
  obtain rfl : node' = node := Option.some.inj (href.cell.symm.trans hn)
  obtain ⟨nmp, hnmp⟩ := href.nodeMount
  obtain ⟨-, -, id, -, -, -, hid, hentry⟩ := hI.toks (.named n name c) (by simp)
  obtain rfl : child.id = id := Option.some.inj ((idOf_of_cell hc).symm.trans hid)
  rw [entriesOf_of_cell hn] at hentry
  have htype : node'.type = .directory := by
    by_contra hne
    rw [href.temp.isFolder hne] at hentry
    cases hentry
  obtain ⟨dir, hdir⟩ := href.temp.folder htype
  have hentries : node'.entries = dir.entries := by simp [Node.entries, hdir]
  have hdirs : s.dirs (m, node'.id) = dir.entries := by
    refine hI.dirs_eq ⟨mp.skel, n, ⟨skel_of_cell href.mount, href.notPipe⟩, href.mem, idOf_of_cell hn, ?_⟩
    rw [entriesOf_of_cell hn, hentries]
  rw [hentries] at hentry
  obtain ⟨i, hi⟩ : ∃ i, dir.entries.findIdx? (fun e => e.name = name) = some i := by
    refine Option.isSome_iff_exists.1 ?_
    rw [List.findIdx?_isSome, List.any_eq_true]
    exact ⟨_, hentry, by simp⟩
  have hrun := removeEntry_ok href.cell href.dirLock hnmp hdir hi
  set s₁ := s.updNode n fun node => { node with info := .folder (dir.removeEntry i) } with hs₁
  have hatomic : (Prog.atomic (.removeEntry n name) (removeEntry n name) : P Bool).run s = .ok (true, s₁) :=
    (Prog.run_atomic _ _ _).trans hrun
  obtain ⟨g, hI₁, -, rfl⟩ := ((safe_removeEntry m n c root known name hE).run_ends hI hconf).of_ok hatomic
  -- the names of a directory are different, so the entry found is that of the node
  obtain ⟨hlt, hname, -⟩ := List.findIdx?_eq_some_iff_getElem.1 hi
  have hsame : dir.entries[i] = ⟨name, child.id⟩ := by
    have hnames := href.temp.names
    rw [hentries] at hnames
    exact List.inj_on_of_nodup_map hnames (List.getElem_mem hlt) hentry (by simpa using hname)
  refine ⟨s₁, i, hrun, hI₁, ?_, ?_⟩
  · rw [hdirs, List.getElem?_eq_getElem hlt, hsame]
  · rw [hs₁, dirs_setEntries hI hI₁ href, hdirs]
    rfl

theorem delete_removes (hrest : Rest L s) (hrun : (delete K t fuel path).run s = .ok (.ok (), s')) :
    ∃ r folder id index, Removes s s' t path r folder id index := by
  unfold delete at hrun
  obtain ⟨e, ms, he, -⟩ | ⟨buffer, r, a, g, s₁, hprep, hres, hsame, hands, hI, hOK, hrun⟩ :=
    resolve_run_ok hrest.inv hrun
  · cases he
  · cases hOK with
    | absent =>
      obtain ⟨_, _, h, -⟩ := run_step_ok hrun
      cases h
    | root => exact absurd hrun (fails_step (fun _ => fails_step fun _ => fails_fail _) _ _ _)
    | @node m n dir root known known' name path' buffer' hdelete _ =>
      obtain ⟨rfl, rfl⟩ := hdelete rfl
      replace hI : Inv ({.mref m} + {.ref m n false .nothing} +
          ({.ref m dir root known'} + {.named dir (getFileName buffer') n} + L)) s₁ := hI.perm (by ac_rfl)
      have hrefn : ∃ mp node, TempRef _ s₁ m n false .nothing mp node := hI.tempRef (by simp) (by simp)
      have hrefd : ∃ mp node, TempRef _ s₁ m dir root known' mp node := hI.tempRef (by simp) (by simp)
      obtain ⟨mp, node, hrefn⟩ := hrefn
      obtain ⟨mpd, dnode, hrefd⟩ := hrefd
      obtain ⟨mp', hm'⟩ := hrefn.nodeMount
      dsimp only at hrun
      rw [run_step _ (permitted_run hrefd.cell _)] at hrun
      split_ifs at hrun with hperm
      · exact absurd hrun (fails_step (fun _ => fails_step fun _ => fails_step fun _ => fails_fail _) _ _ _)
      · have hempty : (Prog.atomic (.checkEmpty n) (folderNotEmpty n) : P Bool).run s₁ =
            .ok (decide (node.entries ≠ []), s₁) :=
          (Prog.run_atomic _ _ _).trans
            (folderNotEmpty_ok hrefn.cell hrefn.dirLock hm' hrefn.temp.folder hrefn.temp.isFolder)
        obtain ⟨g, hI₁, hg⟩ := ((safe_folderNotEmpty m n false .nothing).run_ends hI fun _ => trivial).of_ok hempty
        rw [Prog.run_bind_of_ok _ hempty] at hrun
        split_ifs at hrun hg with hentries
        · exact absurd hrun (fails_step (fun _ => fails_step fun _ => fails_step fun _ => fails_fail _) _ _ _)
        · subst hg
          replace hI₁ : Inv ({.named dir (getFileName buffer') n} + ({.mref m} + ({.ref m dir root known'} +
              ({.ref m n false .nothing} + {.empty n}))) + L) s₁ := hI₁.perm (by ac_rfl)
          have hfree : Pool.NoConflict owes Conflict (.removeEntry dir (getFileName buffer'))
              ({.ref m n false .nothing} + {.empty n}) := by
            intro l' hl' hc
            obtain rfl : l' = .checkEmpty n := by simpa using hl'
            cases hc
          obtain ⟨s₂, index, hremove, hI₂, hentry, hdirs₂⟩ :=
            removeEntry_run hI₁ hrefd.cell hrefn.cell hfree hrest.noConflict
          rw [Prog.run_bind_of_ok _ ((Prog.run_atomic _ _ _).trans hremove), if_pos rfl] at hrun
          replace hI₂ : Inv ({.link n} + ({.ref m n false .nothing} + {.empty n}) +
              ({.ref m dir root known'} + ({.mref m} + L))) s₂ := hI₂.perm (by ac_rfl)
          obtain ⟨_, s₃, hdrop, hrun⟩ := run_step_ok hrun
          obtain ⟨g, hI₃, -, rfl⟩ := (does_dropLink m n false .nothing s₂ _ hI₂).of_ok hdrop
          have hdirs₃ : s₃.dirs = s₂.dirs := by
            obtain ⟨mp₂, node₂, hm₂, -, hn₂, -, -⟩ := hI₂.ref_cached (show Tok.ref m n false .nothing ∈ _ by simp)
            rw [modifyNode_ok hn₂] at hdrop
            cases hdrop
            exact dirs_of_view hI₂ hI₃ (view_updNode hn₂ rfl rfl rfl)
          replace hI₃ : Inv ({.ref m n false .nothing} + ({.mref m} + ({.ref m dir root known'} + L))) s₃ :=
            hI₃.perm (by ac_rfl)
          obtain ⟨_, s₄, hrel₄, hrun⟩ := run_step_ok hrun
          obtain ⟨hI₄, hdirs₄⟩ := releaseNode_dirs hI₃ hrel₄
          replace hI₄ : Inv ({.ref m dir root known'} + ({.mref m} + L)) s₄ := hI₄.perm (by ac_rfl)
          obtain ⟨_, s₅, hrel₅, hrun⟩ := run_step_ok hrun
          obtain ⟨hI₅, hdirs₅⟩ := releaseNode_dirs hI₄ hrel₅
          obtain ⟨s₆, hrel₆, -, hsame₆, -⟩ := releaseMountPoint_run [] hI₅
          rw [run_step _ hrel₆] at hrun
          cases hrun
          obtain ⟨rfl, -, rfl, ⟨id, hnode, hid⟩, hparent⟩ := hands_node hands
          obtain rfl : node.id = id := Option.some.inj ((idOf_of_cell hrefn.cell).symm.trans hid)
          have hfolder : r.parent = some dnode.id := by
            rw [Option.map_some, idOf_of_cell hrefd.cell] at hparent
            cases hp : r.parent with
            | none =>
              rw [hp] at hparent
              cases hparent
            | some id =>
              rw [hp] at hparent
              exact congrArg some (Option.some.inj (Option.some.inj hparent)).symm
          refine ⟨r, dnode.id, node.id, index, ⟨_, _, hprep, hres⟩, hnode, hfolder, ?_, ?_⟩
          · rw [← hsame.dirs]
            exact hentry
          · rw [hsame₆.dirs, hdirs₅, hdirs₄, hdirs₃, hdirs₂, hsame.dirs]

end ChenixOS.VFS
