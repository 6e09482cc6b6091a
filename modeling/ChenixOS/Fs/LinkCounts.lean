import ChenixOS.Fs.ComponentWalk
import Mathlib.Data.Set.Card

/-!
# Link counts

The link count of a node is the number of names that it has in the tree, and one more for the root of a
mount. So two states with the same tree have the same link counts.
-/

namespace ChenixOS.VFS

variable {H H' L : Held} {s s' : State} {m : MountRef} {mp : MountPoint} {n : NodeRef} {node : Node} {id : Nat}

/-- The names of the node `id`, each with the directory that it stands in. -/
def Tree.names (T : Tree) (m : MountRef) (id : Nat) : Set (Nat × Str) :=
  { p | ∃ inode e, T.node m p.1 = some inode ∧ e ∈ inode.entries ∧ e.name = p.2 ∧ e.nodeID = id }

/-- The link count of a node, or the one it would be read with. -/
def State.linkCount (s : State) (m : MountRef) (id : Nat) : Option Nat :=
  ((s.cached m id).or (s.unread m id)).map Node.linkCount

/-- The names of `id` in the directory `n`. -/
def namesIn (s : State) (id : Nat) (n : NodeRef) : List (Nat × Str) :=
  ((s.view.entriesOf n).filter fun e => e.nodeID = id).map fun e => ((s.view.idOf n).getD 0, e.name)

theorem mem_namesIn (hn : s.nodes.cell n = some node) {p : Nat × Str} :
    p ∈ namesIn s id n ↔ p.1 = node.id ∧ ∃ e ∈ node.entries, e.name = p.2 ∧ e.nodeID = id := by
  simp only [namesIn, entriesOf_of_cell hn, idOf_of_cell hn, List.mem_map, List.mem_filter, decide_eq_true_eq,
    Option.getD_some]
  constructor
  · rintro ⟨e, ⟨he, hid⟩, rfl⟩
    exact ⟨rfl, e, he, rfl, hid⟩
  · rintro ⟨hp, e, he, hname, hid⟩
    exact ⟨e, ⟨he, hid⟩, Prod.ext hp.symm hname⟩

/-- The names of a node, collected from the cache. -/
theorem names_eq (hI : Inv H s) (hm : s.mounts.cell m = some mp) (hp : m ≠ s.pipeMount) (id : Nat) :
    s.tree.names m id = ↑(mp.nodeCache.flatMap (namesIn s id)).toFinset := by
  ext p
  rw [List.coe_toFinset, Set.mem_ofPred_eq, List.mem_flatMap]
  constructor
  · rintro ⟨inode, e, hnode, he, hname, hid⟩
    rcases tree_node_cases hI hm hp hnode with ⟨n, node, hmem, hcell, hpid, rfl⟩ | hempty
    · exact ⟨n, hmem, (mem_namesIn hcell).2 ⟨hpid.symm, e, he, hname, hid⟩⟩
    · rw [hempty] at he
      cases he
  · rintro ⟨n, hmem, hpmem⟩
    obtain ⟨node, hcell⟩ := hI.live hm hmem
    obtain ⟨hpid, e, he, hname, hid⟩ := (mem_namesIn hcell).1 hpmem
    refine ⟨node.inode, e, ?_, he, hname, hid⟩
    rw [hpid]
    exact tree_node hI hm hp hmem hcell

/-- **The entries for a node are its names.** -/
theorem links_eq_ncard (hI : Inv H s) (hm : s.mounts.cell m = some mp) (hp : m ≠ s.pipeMount) (id : Nat) :
    s.view.links mp.nodeCache id = (s.tree.names m id).ncard := by
  have hlength : s.view.links mp.nodeCache id = (mp.nodeCache.flatMap (namesIn s id)).length := by
    simp [View.links, List.length_flatMap, namesIn, List.countP_eq_length_filter]
  have hnodup : (mp.nodeCache.flatMap (namesIn s id)).Nodup := by
    refine List.nodup_flatMap.2 ⟨fun n hn => ?_, ?_⟩
    · obtain ⟨node, hcell⟩ := hI.live hm hn
      have hnames := ((hI.nodeOK hm hn hcell).temp hp).names
      have hsub : ((node.entries.filter fun e => e.nodeID = id).map DirectoryEntry.name).Nodup :=
        hnames.sublist ((List.filter_sublist).map _)
      rw [namesIn, entriesOf_of_cell hcell]
      refine List.Nodup.of_map Prod.snd ?_
      simpa [Function.comp_def] using hsub
    · refine (hI.mountOK hm).nodup.imp_of_mem fun {n n'} hn hn' hne => ?_
      obtain ⟨node, hcell⟩ := hI.live hm hn
      obtain ⟨node', hcell'⟩ := hI.live hm hn'
      intro p hmem hmem'
      obtain ⟨hid, -⟩ := (mem_namesIn hcell).1 hmem
      obtain ⟨hid', -⟩ := (mem_namesIn hcell').1 hmem'
      refine hne (hI.shape.inj m mp.skel n n' node.id ⟨skel_of_cell hm, hp⟩ hn hn' (idOf_of_cell hcell) ?_)
      rw [idOf_of_cell hcell', ← hid', hid]
  rw [hlength, names_eq hI hm hp, Set.ncard_coe_finset, List.toFinset_card_of_nodup hnodup]

theorem names_finite (hI : Inv H s) (hp : m ≠ s.pipeMount) (id : Nat) : (s.tree.names m id).Finite := by
  cases hm : s.mounts.cell m with
  | none =>
    have hempty : s.tree.names m id = ∅ := Set.eq_empty_iff_forall_notMem.2 fun p hmem => by
      obtain ⟨inode, e, hnode, -⟩ := hmem
      simp [State.tree, State.cached, State.unread, hm] at hnode
    exact hempty ▸ Set.finite_empty
  | some mp =>
    rw [names_eq hI hm hp]
    exact Finset.finite_toSet _

/-- **The tree determines the link counts**, as long as nobody holds a unit of one. -/
theorem linkCount_eq (hI : Inv H s) (hH : ∀ n, total (.link n) H = 0) (hp : m ≠ s.pipeMount) (id : Nat) :
    s.linkCount m id = (s.tree.node m id).map fun _ =>
      (if s.tree.rootNode m = some id then 1 else 0) + (s.tree.names m id).ncard := by
  cases hm : s.mounts.cell m with
  | none => simp [State.linkCount, State.tree, State.cached, State.unread, hm]
  | some mp =>
    rw [← links_eq_ncard hI hm hp]
    cases hcached : s.cached m id with
    | some node =>
      have hfind : ∃ n, n ∈ mp.nodeCache ∧ s.nodes.cell n = some node ∧ node.id = id := by
        simp only [State.cached, hm, Option.bind_some, Option.bind_eq_some_iff] at hcached
        obtain ⟨n, hfind, hn⟩ := hcached
        obtain ⟨hmem, hidn⟩ := find_cached hfind
        exact ⟨n, hmem, hn, Option.some.inj ((idOf_of_cell hn).symm.trans hidn)⟩
      obtain ⟨n, hmem, hn, rfl⟩ := hfind
      have hcount := ((hI.nodeOK hm hmem hn).temp hp).linkCount
      rw [hH n, Nat.add_zero] at hcount
      have hroot : (if s.tree.rootNode m = some node.id then 1 else 0) =
          if node.id = mp.skel.rootNode then 1 else 0 := by
        have hiff : s.tree.rootNode m = some node.id ↔ node.id = mp.skel.rootNode := by
          simp [hm, eq_comm, MountPoint.skel]
        exact if_congr hiff rfl rfl
      rw [hroot]
      simp [State.linkCount, State.tree, hcached, hcount, MountPoint.skel]
    | none =>
      cases hunread : s.unread m id with
      | none => simp [State.linkCount, State.tree, hcached, hunread]
      | some node =>
        -- the root of a mount, which is not in memory, has no name
        simp only [State.unread, hm, Option.bind_some] at hunread
        split_ifs at hunread with hr
        subst hr
        obtain ⟨tn, htn, rfl⟩ := Option.map_eq_some_iff.1 hunread
        obtain ⟨tn', htn', hroot⟩ := (hI.mountOK hm).rootTest hp
        have htests : s.view.tests mp.rootNode = some { tn with fileData := [] } := congrArg (Option.map _) htn
        obtain rfl := Option.some.inj (htn'.symm.trans htests)
        have hcount : tn.linkRefCount = 1 := hroot.linkRefCount
        have hzero : s.view.links mp.nodeCache mp.rootNode = 0 := by
          refine List.sum_eq_zero fun x hx => ?_
          obtain ⟨n, hn, rfl⟩ := List.mem_map.1 hx
          obtain ⟨node, hcell⟩ := hI.live hm hn
          rw [entriesOf_of_cell hcell, List.countP_eq_zero]
          intro e he hid
          exact (((hI.nodeOK hm hn hcell).temp hp).entry e he).notRoot (of_decide_eq_true hid)
        simp [State.linkCount, State.tree, State.unread, hcached, hm, htn, hzero, rootNodeOf, hcount]

end ChenixOS.VFS
