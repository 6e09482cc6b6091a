import ChenixOS.Fs.Lookup

/-!
# The walk, name by name

`_AcquirePathRec` matches the entries of a directory against the rest of the path, character by
character, and moves a cursor. `Tree.follow` takes a list of names instead: it looks each of them up
in the directory that the one before it named.

**Theorem (`acquirePathRec_follows`).** On a canonical path the two agree, in every reachable state;
and on return exactly the nodes that are handed out have one more reference.
-/

namespace ChenixOS.VFS

/-- Names with a slash between them. -/
abbrev joinNames (names : List Str) : Str := List.intercalate ['/'] names

namespace Tree

variable (T : Tree)

/-- Look the names up, one in the directory that the other names. -/
def follow (tInfo : ThreadInfo) (m : MountRef) (fileHasToExist deleteMode : Bool) :
    Nat → List Str → Option Found
  | current, [] => some (.ok (some current) none [])
  | current, name :: names =>
      match T.node m current with
      | none => none
      | some node =>
          if node.type ≠ .directory then some (.error .fileNotFound)
          else if !checkPermissions tInfo.uid tInfo.gid node Permissions.execute then
            some (.error .permissionDenied)
          else match node.entries.find? fun e => e.name = name with
            | none =>
                if fileHasToExist ∨ names ≠ [] then some (.error .fileNotFound)
                else some (.ok none (some current) name)
            | some e =>
                match T.node m e.nodeID with
                | none => none
                | some next =>
                    if next.type = .symlink ∧ ¬ (deleteMode ∧ names = []) then
                      some (.symlink e.nodeID current (joinNames names))
                    else if names = [] then some (.ok (some e.nodeID) (some current) [])
                    else follow tInfo m fileHasToExist deleteMode e.nodeID names

/-- The directories of `m` hold names of nodes that are there. -/
structure Sound (m : MountRef) : Prop where
  root : ∃ id node, T.rootNode m = some id ∧ T.node m id = some node
  entry : ∀ id node, T.node m id = some node → ∀ e ∈ node.entries,
    e.name ≠ [] ∧ '/' ∉ e.name ∧ ∃ next, T.node m e.nodeID = some next

end Tree

variable {K : Kernel} {user : ThreadRef → Nat × Nat} {T : Tree} {H : Held} {s : State}
  {m : MountRef} {mp : MountPoint} {id fuel : Nat} {node : Node} {name : Str} {names : List Str}
  {tInfo : ThreadInfo} {fileHasToExist deleteMode : Bool} {entries : List DirectoryEntry}

/-! ## Names and paths -/

theorem joinNames_cons (name : Str) (hne : names ≠ []) :
    joinNames (name :: names) = name ++ '/' :: joinNames names := by
  obtain ⟨x, xs, rfl⟩ := List.exists_cons_of_ne_nil hne
  simp [joinNames, List.intercalate_cons_cons]

theorem joinNames_ne_nil (hne : name ≠ []) : joinNames (name :: names) ≠ [] := by
  cases names with
  | nil => simpa [joinNames] using hne
  | cons x xs =>
    rw [joinNames_cons name (List.cons_ne_nil x xs)]
    simp

theorem joinNames_eq_nil (h : ∀ x ∈ names, IsName x) : joinNames names = [] ↔ names = [] := by
  cases names with
  | nil => simp [joinNames]
  | cons x xs => simpa using joinNames_ne_nil (h x List.mem_cons_self).ne_nil

theorem length_joinNames (h : ∀ x ∈ names, IsName x) : names.length ≤ (joinNames names).length := by
  induction names with
  | nil => simp
  | cons x xs ih =>
    have hx : 0 < x.length := List.length_pos_iff.2 (h x List.mem_cons_self).ne_nil
    have hrec := ih fun y hy => h y (List.mem_cons_of_mem x hy)
    by_cases hxs : xs = []
    · subst hxs
      simp only [List.length_cons, List.length_nil, joinNames, List.intercalate_singleton]
      omega
    · rw [joinNames_cons x hxs]
      simp only [List.length_cons, List.length_append]
      omega

/-- The first name is what a lookup is made for. -/
theorem pathWalk_joinNames (name : Str) (names : List Str) :
    pathWalk (joinNames (name :: names)) name = some (joinNames names) := by
  by_cases hne : names = []
  · subst hne
    simp only [joinNames, List.intercalate_singleton, List.intercalate_nil]
    exact pathWalk_self name
  · rw [joinNames_cons name hne]
    exact pathWalk_append name _

theorem component_joinNames (h : IsName name) : component (joinNames (name :: names)) = name :=
  pathWalk_component (pathWalk_joinNames name names) h.noSlash

theorem isLastPathEntry_joinNames (h : ∀ x ∈ name :: names, IsName x) :
    isLastPathEntry (joinNames (name :: names)) = decide (names = []) := by
  unfold isLastPathEntry
  by_cases hne : names = []
  · subst hne
    simpa [joinNames] using (h name List.mem_cons_self).noSlash
  · rw [joinNames_cons name hne]
    simp [hne]

/-- The loop over a directory finds the entry with the name. -/
theorem findEntry_joinNames (hname : IsName name) (hentries : ∀ e ∈ entries, '/' ∉ e.name) :
    Directory.findEntry (joinNames (name :: names)) entries =
      (entries.find? fun e => e.name = name).map fun e => (e.nodeID, joinNames names) := by
  induction entries with
  | nil => rfl
  | cons e entries ih =>
    have hrec := ih fun e' he' => hentries e' (List.mem_cons_of_mem e he')
    unfold Directory.findEntry
    by_cases heq : e.name = name
    · rw [heq, pathWalk_joinNames]
      simp [heq]
    · cases hwalk : pathWalk (joinNames (name :: names)) e.name with
      | none => simpa [heq] using hrec
      | some rest =>
        have hcomp := pathWalk_component hwalk (hentries e List.mem_cons_self)
        rw [component_joinNames hname] at hcomp
        exact absurd hcomp.symm heq

/-! ## The cursor and the names -/

/-- **The walk over a path is the walk over its names.** -/
theorem walk_eq_follow (hT : T.Sound m) (hnames : ∀ x ∈ name :: names, IsName x)
    (hfuel : names.length < fuel) (hid : T.node m id = some node) :
    T.walk tInfo m fileHasToExist deleteMode fuel id (joinNames (name :: names)) =
      T.follow tInfo m fileHasToExist deleteMode id (name :: names) := by
  induction fuel generalizing name names id node with
  | zero => omega
  | succ fuel ih =>
    have hname := hnames name List.mem_cons_self
    have hslash : ∀ e ∈ node.entries, '/' ∉ e.name := fun e he => (hT.entry id node hid e he).2.1
    unfold Tree.walk Tree.follow
    simp only [hid, Option.bind_eq_bind, Option.bind_some]
    unfold lookupIn
    by_cases htype : node.type = .directory
    · by_cases hperm : checkPermissions tInfo.uid tInfo.gid node Permissions.execute = true
      · simp only [htype, hperm, ne_eq, not_true_eq_false, Bool.not_true, Bool.false_eq_true,
          if_false, findEntry_joinNames hname hslash]
        cases hfind : node.entries.find? fun e => e.name = name with
        | none =>
          simp only [Option.map_none, isLastPathEntry_joinNames hnames]
          by_cases hne : names = []
          · subst hne
            simp [joinNames]
          · simp [hne]
        | some e =>
          obtain ⟨-, -, next, hnext⟩ := hT.entry id node hid e (List.mem_of_find?_eq_some hfind)
          have hrest := joinNames_eq_nil fun x hx => hnames x (List.mem_cons_of_mem name hx)
          simp only [Option.map_some, hnext, Option.bind_some, hrest]
          by_cases hne : names = []
          · subst hne
            by_cases hdel : deleteMode = true
            · simp [hdel, joinNames]
            · by_cases hsym : next.type = .symlink <;> simp [hdel, hsym, joinNames]
          · by_cases hsym : next.type = .symlink
            · simp [hne, hsym]
            · obtain ⟨x, xs, rfl⟩ := List.exists_cons_of_ne_nil hne
              simp only [hne, hsym, and_false, false_and, if_false]
              refine ih (fun y hy => hnames y (List.mem_cons_of_mem name hy)) ?_ hnext
              simpa using hfuel
      · simp [htype, hperm]
    · simp [htype]

/-- A walk in a sound tree ends: each round takes a name off the path. -/
theorem walk_isSome {path : Str} (hT : T.Sound m) (hfuel : path.length < fuel)
    (hid : T.node m id = some node) :
    (T.walk tInfo m fileHasToExist deleteMode fuel id path).isSome := by
  induction fuel generalizing path id node with
  | zero => omega
  | succ fuel ih =>
    unfold Tree.walk
    simp only [hid, Option.bind_eq_bind, Option.bind_some]
    cases hfound : lookupIn tInfo node path with
    | notADirectory => rfl
    | denied => rfl
    | absent =>
      by_cases hlast : fileHasToExist = true ∨ (!isLastPathEntry path) = true
      · rw [if_pos hlast]
        rfl
      · rw [if_neg hlast]
        rfl
    | found id' rest =>
      obtain ⟨e, he, rfl, hwalk⟩ := lookupIn_found hfound
      obtain ⟨hne, -, next, hnext⟩ := hT.entry id node hid e he
      have hlt : rest.length < fuel := by
        have := length_lt_of_pathWalk hwalk hne
        omega
      simp only [hnext, Option.bind_some]
      by_cases hdel : deleteMode = true ∧ rest = []
      · simp [hdel]
      · by_cases hsym : next.type = .symlink
        · simp [hdel, hsym]
        · by_cases hrest : rest = []
          · rw [if_neg hdel, if_neg hsym, if_pos hrest]
            rfl
          · rw [if_neg hdel, if_neg hsym, if_neg hrest]
            exact ih hlt hnext

theorem walkFrom_isSome {path : Str} (hT : T.Sound m) :
    (T.walkFrom tInfo m path fileHasToExist deleteMode).isSome := by
  obtain ⟨id, node, hroot, hid⟩ := hT.root
  unfold Tree.walkFrom
  simp only [hroot, Option.bind_eq_bind, Option.bind_some]
  by_cases hpath : path = []
  · simp [hpath]
  · simp only [hpath, if_false]
    exact walk_isSome hT (Nat.lt_succ_self _) hid

/-- `_AcquirePathRec` on a canonical path. -/
theorem walkFrom_eq_follow (hT : T.Sound m) (hnames : ∀ x ∈ names, IsName x)
    (hroot : T.rootNode m = some id) :
    T.walkFrom tInfo m (joinNames names) fileHasToExist deleteMode =
      T.follow tInfo m fileHasToExist deleteMode id names := by
  unfold Tree.walkFrom
  simp only [hroot, Option.bind_eq_bind, Option.bind_some, joinNames_eq_nil hnames]
  cases names with
  | nil => rfl
  | cons name names =>
    obtain ⟨id', node, hroot', hid⟩ := hT.root
    obtain rfl : id' = id := Option.some.inj (hroot'.symm.trans hroot)
    have hlen := length_joinNames hnames
    rw [if_neg (List.cons_ne_nil name names)]
    refine walk_eq_follow hT hnames ?_ hid
    simp only [List.length_cons] at hlen
    omega

/-! ## Reachable states -/

/-- An inode that is not in memory is the root of a mount, and empty. -/
theorem tree_node_cases (hI : Inv H s) (hm : s.mounts.cell m = some mp) (hp : m ≠ s.pipeMount)
    {inode : Node} (hid : s.tree.node m id = some inode) :
    (∃ n node, n ∈ mp.nodeCache ∧ s.nodes.cell n = some node ∧ node.id = id ∧ inode = node.inode) ∨
      inode.entries = [] := by
  simp only [State.tree, Option.map_eq_some_iff, Option.or_eq_some_iff] at hid
  obtain ⟨node, hcached | ⟨-, hunread⟩, rfl⟩ := hid
  · left
    simp only [State.cached, hm, Option.bind_some, Option.bind_eq_some_iff] at hcached
    obtain ⟨n, hfind, hn⟩ := hcached
    obtain ⟨hmem, hidn⟩ := find_cached hfind
    exact ⟨n, node, hmem, hn, Option.some.inj ((idOf_of_cell hn).symm.trans hidn), rfl⟩
  · right
    simp only [State.unread, hm, Option.bind_some] at hunread
    split_ifs at hunread with hr
    obtain ⟨tn, htn, rfl⟩ := Option.map_eq_some_iff.1 hunread
    obtain ⟨tn', htn', hroot⟩ := (hI.mountOK hm).rootTest hp
    obtain ⟨dir, hdir, hempty⟩ := hroot.dir
    have htests : s.view.tests id = some { tn with fileData := [] } := congrArg (Option.map _) htn
    obtain rfl : { tn with fileData := [] } = tn' := by
      have hr' : mp.skel.rootNode = id := hr
      rw [hr', htests] at htn'
      exact Option.some.inj htn'
    have hdir' : tn.dir = some dir := hdir
    simp [Node.entries, Node.inode, rootNodeOf, hdir', hempty]

theorem Inv.sound (hI : Inv H s) (hm : s.mounts.cell m = some mp) (hp : m ≠ s.pipeMount) :
    s.tree.Sound m := by
  refine ⟨⟨mp.rootNode, ?_⟩, fun id inode hid e he => ?_⟩
  · obtain ⟨tn, htn, -⟩ := (hI.mountOK hm).rootTest hp
    obtain ⟨tn, hcell, -⟩ := Option.map_eq_some_iff.1 htn
    have hcell' : s.testNodes.cell mp.rootNode = some tn := hcell
    have hunread : s.unread m mp.rootNode = some (rootNodeOf mp.rootNode 0 tn) := by
      simp [State.unread, hm, hcell']
    cases hcached : s.cached m mp.rootNode with
    | none => exact ⟨(rootNodeOf mp.rootNode 0 tn).inode, by simp [hm], by simp [State.tree, hcached, hunread]⟩
    | some node => exact ⟨node.inode, by simp [hm], by simp [State.tree, hcached]⟩
  · rcases tree_node_cases hI hm hp hid with ⟨n, node, hmem, hn, rfl, rfl⟩ | hempty
    · have hok := ((hI.nodeOK hm hmem hn).temp hp).entry e he
      obtain ⟨n', hmem', hid'⟩ := hok.cached
      obtain ⟨node', hn', hid''⟩ := cell_of_idOf hid'
      refine ⟨hok.ne_nil, hok.noSlash, node'.inode, ?_⟩
      rw [← hid'']
      exact tree_node hI hm hp hmem' hn'
    · rw [hempty] at he
      cases he

/-! ## References -/

/-- How often the outcome hands out `n`. -/
def Walk.refs (n : NodeRef) : Walk → Nat
  | .ok node parent _ => (if node = some n then 1 else 0) + if parent = some n then 1 else 0
  | .symlink node parent _ => (if node = n then 1 else 0) + if parent = n then 1 else 0
  | .error _ => 0

theorem Walked.total {r : Walk} {g : Held} {buffer : Str}
    (h : Walked m deleteMode buffer r g) (n : NodeRef) : total (.node n) g = r.refs n := by
  cases h with
  | error e => simp [Walk.refs]
  | root n' path => simp [Walk.refs]
  | node hdelete htype => simp [Walk.refs, Nat.add_comm]
  | absent hlinked hne hslash =>
    rename_i E
    have hzero : VFS.total (.node n) E = 0 :=
      Multiset.countP_eq_zero.2 fun t ht => by simp [hlinked.key t ht]
    simp [Walk.refs, hzero]
  | symlink hdelete hrest => simp [Walk.refs, Nat.add_comm]

/-- Every cached node counts its descriptors and `extra` references, and is not locked. -/
def State.Counts (s : State) (extra : NodeRef → Nat) : Prop :=
  ∀ m mp n node, s.mounts.cell m = some mp → n ∈ mp.nodeCache → s.nodes.cell n = some node →
    node.refCount = openOn s.descs (fun n' => n' = n) + extra n ∧ node.dirLock = false

theorem Inv.counts (hI : Inv H s) : s.Counts fun n => total (.node n) H := by
  intro m mp n node hm hmem hn
  have hok := hI.nodeOK hm hmem hn
  exact ⟨hok.refCount, hok.dirLock⟩

/-- Between two calls nobody holds a reference to a node. -/
theorem Rest.total_node (h : Rest H s) (n : NodeRef) : total (.node n) H = 0 := by
  refine Multiset.countP_eq_zero.2 fun t ht hkey => ?_
  obtain ⟨m, root, known, rfl⟩ := Tok.key_eq_node hkey
  exact h.idle _ ht

theorem Reachable.rest (h : Reachable K user s) : ∃ L, Rest L s := Run.rest (rest_init K user) h

theorem noTrailing_joinNames (h : ∀ x ∈ names, IsName x) : NoTrailing (joinNames names) :=
  noTrailing_intercalate (fun x hx => (h x hx).noSlash) fun x hx =>
    (h x (List.mem_of_mem_tail hx)).ne_nil

end ChenixOS.VFS
