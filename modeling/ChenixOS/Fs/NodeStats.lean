import ChenixOS.Fs.DirectoryMemory
import ChenixOS.Fs.Seek

/-!
# The bytes that `Stat` copies to the user

`syscall_stat` and `syscall_statl` have a `NodeStats` on the kernel's stack, let `Stat` fill it in and copy
all of its 296 bytes to the user. `Stat` writes the members that the node has; the gaps between the members
and the rest of the union stay what they were, and the text of a link is copied without a look at its
length.

* `rawStats`: what `Stat` does to these bytes.
* `Written`: the bytes that it writes; all others are those of the stack.
-/

namespace ChenixOS.VFS

open Buffer RawDirectory

variable {K : Kernel} {s s' : State} {t : ThreadRef} {fuel : Nat} {path : Option Str} {followSymlink : Bool}
  {node : Node} {tmp tmp' b b' : Nat → Cell} {o : Nat}

/-! ## Layout -/

/-- `sizeof(NodeStats)`: two members are followed by four bytes each that are not used, and so is the
path by one. -/
abbrev statsSizeof : Nat := 296

def typeOffset : Nat := 8
def ownerGIDOffset : Nat := 16
def ownerUIDOffset : Nat := 24
def permissionsOffset : Nat := 32

/-- Where the union begins. -/
def linkPathOffset : Nat := 40

/-- `sizeof(NodeStats::linkPath)` -/
def linkPathSizeof : Nat := 255

/-- The number of an enumerator of `Node::Type`. -/
def NodeType.number : NodeType → Nat
  | .file => 0
  | .directory => 1
  | .deviceChar => 2
  | .deviceBlock => 3
  | .pipe => 4
  | .symlink => 5

/-- The bytes of a `Permissions`. -/
def Permissions.cell (perms : Permissions) (i : Nat) : Cell :=
  .part ([perms.ownerPermissions, perms.groupPermissions, perms.otherPermissions, perms.specialFlags].getD i 0).toNat 0

/-! ## The code -/

/-- The members before the union. -/
def writeMembers (node : Node) (tmp : Nat → Cell) : Nat → Cell :=
  let b := paste tmp 0 8 (.part node.id)
  let b := paste b typeOffset 4 (.part node.type.number)
  let b := paste b ownerGIDOffset 8 (.part node.ownerGID)
  let b := paste b ownerUIDOffset 8 (.part node.ownerUID)
  paste b permissionsOffset 4 node.permissions.cell

/-- `Stat` on the bytes of `outStats`; a character that is not in `linkPath` gives `none`. -/
def rawStats (word : NodeInfo → Nat) (node : Node) (tmp : Nat → Cell) : Option (Nat → Cell) :=
  let b := writeMembers node tmp
  match node.type, node.info with
  | .file, info => some (paste b linkPathOffset 8 (.part (word info)))
  | .symlink, .symlink linkPath => kstrcpy (linkPathOffset + linkPathSizeof) linkPathOffset linkPath b
  | _, _ => some b

/-- `Stat`, with what it does with the node. -/
def statBy {α : Type} (K : Kernel) (read : NodeRef → M α) (t : ThreadRef) (fuel : Nat) (path : Option Str)
    (followSymlink : Bool) : P (Except Error α) := do
  onOk (← step (prepare 255 t path)) fun cleanBuffer => do
    let tInfo ← step (getThread t)
    onOk (← acquirePath K tInfo true (!followSymlink) fuel cleanBuffer) fun a =>
      match a.node with
      | none => step (M.stop .nullptr)
      | some fileNode => do
          if let some folderNode := a.parent then step (releaseNode folderNode true)
          let outStats ← step (read fileNode)
          step (releaseNode fileNode true)
          step (releaseMountPoint a.mp true)
          .ret (.ok outStats)

theorem stat_eq_statBy : stat K t fuel path followSymlink = statBy K readStats t fuel path followSymlink := rfl

/-- `Stat`, on the bytes of `tmp`. -/
def statRaw (word : NodeInfo → Nat) (K : Kernel) (tmp : Nat → Cell) :
    ThreadRef → Nat → Option Str → Bool → P (Except Error (Nat → Cell)) :=
  statBy K fun n => do
    let node ← getNode n
    M.lift <| match rawStats word node tmp with
      | some b => .ok b
      | none => .error .overflow

/-- The bytes that the system calls copy: all of them. -/
def copiedStats (b : Nat → Cell) : List Cell := (List.range statsSizeof).map b

/-- `Stat` comes to this node. -/
def StatReaches (K : Kernel) (s : State) (t : ThreadRef) (fuel : Nat) (path : Option Str)
    (followSymlink : Bool) (node : Node) (s' : State) : Prop :=
  (statBy K getNode t fuel path followSymlink).run s = .ok (.ok node, s')

/-- What is done with the node, in the middle of the call, decides nothing else. -/
theorem run_read {α : Type} {n : NodeRef} {k : P Unit} (g : Node → Except Stop α)
    (h : ((do let outStats ← step (getNode n); k; .ret (.ok outStats)) : P (Except Error Node)).run s =
      .ok (.ok node, s')) :
    ((do
      let outStats ← step (do let node ← getNode n; M.lift (g node))
      k
      .ret (.ok outStats)) : P (Except Error α)).run s = (g node).map fun a => (.ok a, s') := by
  obtain ⟨node', s₁, hnode, h⟩ := run_step_ok h
  obtain ⟨u, s₂, hk, hend⟩ := Prog.run_bind_ok.1 h
  cases hend
  obtain ⟨hcell, rfl⟩ := getNode_eq_ok hnode
  cases hg : g node with
  | ok a =>
    have hread : (do let node ← getNode n; M.lift (g node) : M α) s₁ = .ok (a, s₁) := by
      rw [M.bind_ok hnode, hg]
      rfl
    rw [run_step _ hread, Prog.run_bind_of_ok _ hk]
    rfl
  | error e =>
    have hread : (do let node ← getNode n; M.lift (g node) : M α) s₁ = .error e := by
      rw [M.bind_ok hnode, hg]
      rfl
    rw [Prog.run_bind, step, Prog.run_atomic, hread]
    rfl

/-- **What is done with the node** does not decide which node it is. -/
theorem StatReaches.run {α : Type} (h : StatReaches K s t fuel path followSymlink node s')
    (g : Node → Except Stop α) :
    (statBy K (fun n => do let node ← getNode n; M.lift (g node)) t fuel path followSymlink).run s =
      (g node).map fun a => (.ok a, s') := by
  unfold StatReaches statBy at h
  obtain ⟨cleaned, s₁, hprepare, h⟩ := run_step_ok h
  unfold statBy
  rw [run_step _ hprepare]
  cases cleaned with
  | error e => cases h
  | ok cleanBuffer =>
    obtain ⟨tInfo, s₂, hthread, h⟩ := run_step_ok h
    obtain ⟨acquired, s₃, hacquire, h⟩ := Prog.run_bind_ok.1 h
    simp only [onOk]
    rw [run_step _ hthread, Prog.run_bind_of_ok _ hacquire]
    cases acquired with
    | error e => cases h
    | ok a =>
      obtain ⟨m, fileNode, folderNode, restPath, buffer⟩ := a
      cases fileNode with
      | none =>
        simp only [onOk] at h
        rw [step, Prog.run_atomic] at h
        cases h
      | some n =>
        cases folderNode with
        | none => exact run_read (k := do step (releaseNode n true); step (releaseMountPoint m true)) g h
        | some folder =>
          obtain ⟨u, s₄, hrelease, h⟩ := run_step_ok h
          simp only
          rw [run_step _ hrelease]
          exact run_read (k := do step (releaseNode n true); step (releaseMountPoint m true)) g h

/-! ## The bytes -/

/-- The text of a link fits into `linkPath`. -/
def FitsLinkPath (node : Node) : Prop :=
  ∀ linkPath, node.type = .symlink → node.info = .symlink linkPath → linkPath.length < linkPathSizeof

/-- How many bytes of the union `Stat` writes. -/
def unionWritten (node : Node) : Nat :=
  match node.type, node.info with
  | .file, _ => 8
  | .symlink, .symlink linkPath => linkPath.length + 1
  | _, _ => 0

/-- The bytes that `Stat` writes. -/
def Written (node : Node) (o : Nat) : Prop :=
  o < typeOffset + 4 ∨ ownerGIDOffset ≤ o ∧ o < permissionsOffset + 4 ∨
    linkPathOffset ≤ o ∧ o < linkPathOffset + unionWritten node

/-- The members before the union. -/
theorem writeMembers_keep (h : ¬ (o < typeOffset + 4 ∨ ownerGIDOffset ≤ o ∧ o < permissionsOffset + 4)) :
    writeMembers node tmp o = tmp o := by
  simp only [typeOffset, ownerGIDOffset, permissionsOffset] at h
  simp only [writeMembers, paste, typeOffset, ownerGIDOffset, ownerUIDOffset, permissionsOffset]
  repeat rw [if_neg (by omega)]

theorem writeMembers_agree (h : o < typeOffset + 4 ∨ ownerGIDOffset ≤ o ∧ o < permissionsOffset + 4) :
    writeMembers node tmp o = writeMembers node tmp' o := by
  simp only [typeOffset, ownerGIDOffset, permissionsOffset] at h
  simp only [writeMembers, paste, typeOffset, ownerGIDOffset, ownerUIDOffset, permissionsOffset]
  split_ifs <;> first | rfl | omega

/-- What `Stat` does to the union: the bytes it writes there are determined, and the others are kept. -/
inductive WritesUnion (word : NodeInfo → Nat) (node : Node) (m b : Nat → Cell) : Prop
  | size (htype : node.type = .file) (hb : b = paste m linkPathOffset 8 (.part (word node.info)))
  | link (linkPath : Str) (htype : node.type = .symlink) (hinfo : node.info = .symlink linkPath)
    (hchars : ∀ k (hk : k < linkPath.length), b (linkPathOffset + k) = .char linkPath[k])
    (hend : b (linkPathOffset + linkPath.length) = .char (Char.ofNat 0))
    (hkeep : ∀ k, k < linkPathOffset ∨ linkPathOffset + linkPath.length < k → b k = m k)
  | none (hzero : unionWritten node = 0) (hb : b = m)

/-- **`Stat`** stays in the union exactly if the text of the link fits. -/
theorem rawStats_cases (word : NodeInfo → Nat) (node : Node) (tmp : Nat → Cell) :
    (∃ b, rawStats word node tmp = some b ∧ FitsLinkPath node ∧
      WritesUnion word node (writeMembers node tmp) b) ∨
    (rawStats word node tmp = none ∧ ¬ FitsLinkPath node) := by
  obtain ⟨id, mp, refCount, linkCount, ready, type, dirLock, info, uid, gid, perms⟩ := node
  cases type with
  | file => exact .inl ⟨_, rfl, (fun l htype => by cases htype), .size rfl rfl⟩
  | directory | deviceChar | deviceBlock | pipe =>
    exact .inl ⟨_, rfl, (fun l htype => by cases htype), .none rfl rfl⟩
  | symlink =>
    cases info with
    | none | folder | file | device => exact .inl ⟨_, rfl, (fun l _ hinfo => by cases hinfo), .none rfl rfl⟩
    | symlink linkPath =>
      by_cases hfits : linkPath.length < linkPathSizeof
      · obtain ⟨b, hcpy, hchars, hend, hkeep⟩ := @kstrcpy_ok
          (writeMembers ⟨id, mp, refCount, linkCount, ready, .symlink, dirLock, .symlink linkPath, uid, gid, perms⟩ tmp)
          (linkPathOffset + linkPathSizeof) linkPathOffset linkPath (by omega)
        exact .inl ⟨b, hcpy, (fun l _ hinfo => by cases hinfo; exact hfits),
          .link linkPath rfl rfl hchars hend hkeep⟩
      · exact .inr ⟨kstrcpy_none (by omega), fun h => hfits (h linkPath rfl rfl)⟩

theorem WritesUnion.keep {word : NodeInfo → Nat} {m : Nat → Cell} (h : WritesUnion word node m b)
    (ho : ¬ (linkPathOffset ≤ o ∧ o < linkPathOffset + unionWritten node)) : b o = m o := by
  cases h with
  | size htype hb =>
    simp only [unionWritten, htype] at ho
    rw [hb, paste, if_neg ho]
  | link linkPath htype hinfo _ _ hkeep =>
    simp only [unionWritten, htype, hinfo] at ho
    exact hkeep o (by omega)
  | none _ hb => rw [hb]

theorem WritesUnion.agree {word : NodeInfo → Nat} {m m' : Nat → Cell} (h : WritesUnion word node m b)
    (h' : WritesUnion word node m' b') (hlo : linkPathOffset ≤ o)
    (hhi : o < linkPathOffset + unionWritten node) : b o = b' o := by
  obtain ⟨k, rfl⟩ := Nat.exists_eq_add_of_le hlo
  cases h with
  | size htype hb =>
    cases h' with
    | size _ hb' =>
      simp only [unionWritten, htype] at hhi
      rw [hb, hb', paste_of_mem (by omega), paste_of_mem (by omega)]
    | link _ htype' => simp [htype] at htype'
    | none hzero => simp [unionWritten, htype] at hzero
  | link linkPath htype hinfo hchars hend _ =>
    cases h' with
    | size htype' => simp [htype] at htype'
    | link linkPath' _ hinfo' hchars' hend' =>
      rw [hinfo] at hinfo'
      cases hinfo'
      simp only [unionWritten, htype, hinfo] at hhi
      obtain hlt | rfl := Nat.lt_or_eq_of_le (show k ≤ linkPath.length by omega)
      · rw [hchars k hlt, hchars' k hlt]
      · rw [hend, hend']
    | none hzero => simp [unionWritten, htype, hinfo] at hzero
  | none hzero =>
    rw [hzero] at hhi
    omega

/-- **The bytes**: those that are written are determined by the node, the others by the stack. -/
theorem rawStats_byte {word : NodeInfo → Nat} (h : rawStats word node tmp = some b)
    (h' : rawStats word node tmp' = some b') :
    (Written node o → b o = b' o) ∧ (¬ Written node o → b o = tmp o) := by
  obtain ⟨b₁, h₁, -, hunion⟩ | ⟨hnone, -⟩ := rawStats_cases word node tmp
  · obtain ⟨b₂, h₂, -, hunion'⟩ | ⟨hnone, -⟩ := rawStats_cases word node tmp'
    · obtain rfl : b₁ = b := by simpa [h₁] using h
      obtain rfl : b₂ = b' := by simpa [h₂] using h'
      by_cases hin : linkPathOffset ≤ o ∧ o < linkPathOffset + unionWritten node
      · exact ⟨fun _ => hunion.agree hunion' hin.1 hin.2, fun hnot => absurd (.inr (.inr hin)) hnot⟩
      · rw [hunion.keep hin, hunion'.keep hin]
        refine ⟨fun hwritten => ?_, fun hnot => writeMembers_keep fun hmem => hnot ?_⟩
        · rcases hwritten with hmem | hmem | hmem
          · exact writeMembers_agree (.inl hmem)
          · exact writeMembers_agree (.inr hmem)
          · exact absurd hmem hin
        · rcases hmem with hmem | hmem
          · exact .inl hmem
          · exact .inr (.inl hmem)
    · rw [hnone] at h'
      cases h'
  · rw [hnone] at h
    cases h

/-! ## The system calls -/

variable {word : NodeInfo → Nat}

/-- The call on the bytes of `tmp`. -/
theorem StatReaches.run_statRaw (h : StatReaches K s t fuel path followSymlink node s') (tmp : Nat → Cell) :
    (statRaw word K tmp t fuel path followSymlink).run s =
      match rawStats word node tmp with
      | some b => .ok (.ok b, s')
      | none => .error .overflow := by
  have hrun := h.run fun node => match rawStats word node tmp with
    | some b => .ok b
    | none => .error .overflow
  refine Eq.trans hrun ?_
  cases rawStats word node tmp <;> rfl

/-- Nothing is written outside of `linkPath`. -/
def StatBounded (word : NodeInfo → Nat) (K : Kernel) (s : State) (t : ThreadRef) (fuel : Nat)
    (path : Option Str) (followSymlink : Bool) : Prop :=
  ∀ tmp, (statRaw word K tmp t fuel path followSymlink).run s ≠ .error .overflow

/-- What is copied to the user does not depend on what was on the stack. -/
def StatDetermined (word : NodeInfo → Nat) (K : Kernel) (s : State) (t : ThreadRef) (fuel : Nat)
    (path : Option Str) (followSymlink : Bool) : Prop :=
  ∀ tmp tmp' b b' s₁ s₂, (statRaw word K tmp t fuel path followSymlink).run s = .ok (.ok b, s₁) →
    (statRaw word K tmp' t fuel path followSymlink).run s = .ok (.ok b', s₂) →
      copiedStats b = copiedStats b'

/-- **The output of `Stat`** is in bounds exactly if the text of a link has less than 255 characters, and
is determined by the node for no node: the gaps of `NodeStats` are copied as well. -/
theorem stat_output (word : NodeInfo → Nat) (K : Kernel) (s s' : State) (t : ThreadRef) (fuel : Nat)
    (path : Option Str) (followSymlink : Bool) (node : Node)
    (h : StatReaches K s t fuel path followSymlink node s') :
    (StatBounded word K s t fuel path followSymlink ↔ FitsLinkPath node) ∧
      ¬ (StatBounded word K s t fuel path followSymlink ∧
        StatDetermined word K s t fuel path followSymlink) := by
  have hbounded : StatBounded word K s t fuel path followSymlink ↔ FitsLinkPath node := by
    constructor
    · intro hbounded
      have hrun := hbounded fun _ => .part 0 0
      rw [h.run_statRaw] at hrun
      obtain ⟨b, -, hfits, -⟩ | ⟨hnone, -⟩ := rawStats_cases word node fun _ => .part 0 0
      · exact hfits
      · rw [hnone] at hrun
        exact absurd rfl hrun
    · intro hfits tmp hrun
      rw [h.run_statRaw] at hrun
      obtain ⟨b, hb, -⟩ | ⟨-, hnot⟩ := rawStats_cases word node tmp
      · rw [hb] at hrun
        cases hrun
      · exact hnot hfits
  refine ⟨hbounded, fun ⟨hb, hdetermined⟩ => ?_⟩
  have hfits := hbounded.1 hb
  -- Two stacks that differ in the gap behind the type.
  obtain ⟨b₁, h₁, -⟩ | ⟨-, hnot⟩ := rawStats_cases word node fun _ => .part 0 0
  · obtain ⟨b₂, h₂, -⟩ | ⟨-, hnot⟩ := rawStats_cases word node fun _ => .part 1 0
    · have hgap : ¬ Written node 12 := by
        simp [Written, typeOffset, ownerGIDOffset, permissionsOffset, linkPathOffset]
      have hsame := hdetermined (fun _ => .part 0 0) (fun _ => .part 1 0) b₁ b₂ s' s'
        (by rw [h.run_statRaw, h₁]) (by rw [h.run_statRaw, h₂])
      have hbyte : b₁ 12 = b₂ 12 := by
        have hget := congrArg (fun l => l[12]?) hsame
        simpa [copiedStats, statsSizeof] using hget
      rw [(rawStats_byte h₁ h₂).2 hgap, (rawStats_byte h₂ h₁).2 hgap] at hbyte
      cases hbyte
    · exact hnot hfits
  · exact hnot hfits

/-- A file, and a link with a text of 255 characters. -/
def statCalls : List Call :=
  let perms : Permissions := ⟨7, 7, 7, 0⟩
  [.createFile 0 (some ['f']) perms, .createSymLink 0 (some ['l']) perms (List.replicate 255 'a')]

theorem eq_ok_of_toOption {ε α : Type} {r : Except ε α} {a : α} (h : r.toOption = some a) : r = .ok a := by
  cases r with
  | error e => cases h
  | ok a' =>
    obtain rfl : a' = a := Option.some.inj h
    rfl

theorem exists_statCalls : ∃ s file s₁ link s₂, Reachable .plain (fun _ => (0, 0)) s ∧
    StatReaches .plain s 0 1 (some ['f']) true file s₁ ∧ StatReaches .plain s 0 1 (some ['l']) false link s₂ ∧
    file.type = .file ∧ link.type = .symlink ∧ link.info = .symlink (List.replicate 255 'a') := by
  have hplay : ((play .plain 1 statCalls (State.init .plain fun _ => (0, 0))).any fun p =>
      (((statBy .plain getNode 0 1 (some ['f']) true).run p.2).toOption.any fun q =>
        q.1.toOption.any fun node => node.type = .file) ∧
      (((statBy .plain getNode 0 1 (some ['l']) false).run p.2).toOption.any fun q =>
        q.1.toOption.any fun node =>
          node.type = .symlink ∧ node.info = .symlink (List.replicate 255 'a'))) = true := by
    decide +kernel
  obtain ⟨⟨replies, s⟩, hs, hany⟩ := Option.any_eq_true .. |>.1 hplay
  obtain ⟨hfile, hlink⟩ := of_decide_eq_true hany
  obtain ⟨⟨res, s₁⟩, hrun, hfile⟩ := Option.any_eq_true .. |>.1 hfile
  obtain ⟨file, hres, htype⟩ := Option.any_eq_true .. |>.1 hfile
  obtain ⟨⟨res', s₂⟩, hrun', hlink⟩ := Option.any_eq_true .. |>.1 hlink
  obtain ⟨link, hres', hlink⟩ := Option.any_eq_true .. |>.1 hlink
  obtain rfl := eq_ok_of_toOption hres
  obtain rfl := eq_ok_of_toOption hres'
  obtain ⟨htype', hinfo⟩ := of_decide_eq_true hlink
  exact ⟨s, file, s₁, link, s₂, run_of_play hs, eq_ok_of_toOption hrun, eq_ok_of_toOption hrun',
    of_decide_eq_true htype, htype', hinfo⟩

theorem stat_output_file : ∃ s s₁ file, StatReaches .plain s 0 1 (some ['f']) true file s₁ ∧
    ¬ (StatBounded (NodeInfo.word fun _ => 0) .plain s 0 1 (some ['f']) true ∧
      StatDetermined (NodeInfo.word fun _ => 0) .plain s 0 1 (some ['f']) true) := by
  obtain ⟨s, file, s₁, -, -, -, hreaches, -⟩ := exists_statCalls
  exact ⟨s, s₁, file, hreaches, (stat_output _ .plain s s₁ 0 1 (some ['f']) true file hreaches).2⟩

/-- The type of a regular file is followed by four bytes of the stack. A link's text of 255 characters,
which `CreateSymLink` takes, is followed by an end that is not in `linkPath`. -/
theorem stat_leaks : ∃ s, Reachable .plain (fun _ => (0, 0)) s ∧
    (∃ b b' s₁, (statRaw (NodeInfo.word fun _ => 0) .plain (fun _ => .part 0 0) 0 1 (some ['f']) true).run s =
        .ok (.ok b, s₁) ∧
      (statRaw (NodeInfo.word fun _ => 0) .plain (fun _ => .part 1 0) 0 1 (some ['f']) true).run s =
        .ok (.ok b', s₁) ∧ copiedStats b ≠ copiedStats b') ∧
    (statRaw (NodeInfo.word fun _ => 0) .plain (fun _ => .part 0 0) 0 1 (some ['l']) false).run s =
      .error .overflow := by
  obtain ⟨s, file, s₁, link, s₂, hreach, hfile, hlink, htype, htype', hinfo⟩ := exists_statCalls
  refine ⟨s, hreach, ?_, ?_⟩
  · have hraw : ∀ tmp, rawStats (NodeInfo.word fun _ => 0) file tmp =
        some (paste (writeMembers file tmp) linkPathOffset 8 (.part (NodeInfo.word (fun _ => 0) file.info))) := by
      intro tmp
      simp [rawStats, htype]
    refine ⟨_, _, s₁, by rw [hfile.run_statRaw, hraw], by rw [hfile.run_statRaw, hraw], fun hsame => ?_⟩
    have hgap : ¬ Written file 12 := by
      simp [Written, typeOffset, ownerGIDOffset, permissionsOffset, linkPathOffset]
    have hbyte := congrArg (fun l => l[12]?) hsame
    simp only [copiedStats, statsSizeof, List.getElem?_map] at hbyte
    rw [List.getElem?_range (by decide), Option.map_some, Option.map_some, Option.some.injEq,
      (rawStats_byte (hraw _) (hraw fun _ => .part 1 0)).2 hgap,
      (rawStats_byte (hraw _) (hraw fun _ => .part 0 0)).2 hgap] at hbyte
    cases hbyte
  · have hraw : rawStats (NodeInfo.word fun _ => 0) link (fun _ => .part 0 0) = none := by
      simp only [rawStats, htype', hinfo]
      refine kstrcpy_none ?_
      rw [List.length_replicate]
      exact Nat.le_refl _
    rw [hlink.run_statRaw, hraw]

end ChenixOS.VFS
