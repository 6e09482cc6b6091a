import ChenixOS.Fs.Actions

/-!
# Path resolution

What `FindMountPoint`, `_AcquirePathRec` and `AcquirePath` leave a thread with. Every program here
is safe whatever the other threads do.

`AcquirePath` ends in one of four ways (`AcquiredOK`): with an error and nothing, with the root of
a mount, with a node and the directory that names it, or with a directory in which the last name
is not there.
-/

namespace ChenixOS.VFS

variable {K : Kernel} {α β : Type} {C : Label → Held → Prop} {n : NodeRef} {m : MountRef}
  {root : Bool} {known : Known} {path : Str} {g r : Held} {t : Tok}

/-! ## Programs, step by step -/

/-- The next step uses `g` of what the thread holds. -/
theorem safe_step {act : M α} {k : α → P β} {R : α → Held → Prop} {Q : β → Held → Prop}
    (h : Does act g R) (hk : ∀ a g', R a g' → Safe Inv owes C (k a) (g' + r) Q) :
    Safe Inv owes C (step act >>= k) (g + r) Q :=
  Safe.seq (fun _ _ _ => owes_add) h.safe rfl hk

/-- A program that is safe whatever the others do, and what follows it. -/
theorem safe_call {p : P α} {k : α → P β} {R : α → Held → Prop} {Q : β → Held → Prop}
    (h : Safe Inv owes Anyone p g R) (hk : ∀ a g', R a g' → Safe Inv owes C (k a) (g' + r) Q) :
    Safe Inv owes C (p >>= k) (g + r) Q :=
  Safe.seq (fun _ _ _ => owes_add) h rfl hk

theorem Safe.perm {p : P α} {Q : α → Held → Prop} (h : Safe Inv owes C p r Q) (hg : g = r) :
    Safe Inv owes C p g Q := hg ▸ h

/-- What was seen may be forgotten before a step. -/
theorem Safe.drop {act : M α} {k : α → P β} {Q : β → Held → Prop} {E : Held}
    (hE : ∀ t ∈ E, t.key = none) (h : Safe Inv owes C (step act >>= k) r Q) :
    Safe Inv owes C (step act >>= k) (E + r) Q := by
  intro s f hI hC
  rw [add_assoc] at hI
  refine (h s f (hI.forgetAll hE) hC).mono fun b s' => ?_
  rintro ⟨g', hI', howes, hk⟩
  refine ⟨g', hI', fun l' hl' => ?_, hk⟩
  rcases howes l' hl' with hl' | hl'
  · exact Or.inl (owes_add.2 (Or.inr hl'))
  · exact Or.inr hl'

theorem safe_releaseNode {k : P α} {Q : α → Held → Prop} (h : Safe Inv owes C k r Q) :
    Safe Inv owes C (step (releaseNode n true) >>= fun _ => k) ({.ref m n root known} + r) Q := by
  refine safe_step (does_releaseNode m n root known) fun _ g' hg' => ?_
  rwa [hg', zero_add]

theorem safe_releaseMountPoint {k : P α} {Q : α → Held → Prop} (h : Safe Inv owes C k r Q) :
    Safe Inv owes C (step (releaseMountPoint m true) >>= fun _ => k) ({.mref m} + r) Q := by
  refine safe_step (does_releaseMountPoint m) fun _ g' hg' => ?_
  rwa [hg', zero_add]

/-! ## Mounts -/

/-- A mount whose path begins the given one. -/
def Serves (path : Str) (m : MountRef) (g : Held) : Prop :=
  ∃ p, (p = [] ∨ mountCmp path p = true) ∧ g = {.mref m} + {.at m p}

theorem safe_findMountPointFrom {p : Str} (hp : p = [] ∨ mountCmp path p = true) (fuel : Nat)
    (m : MountRef) : Safe Inv owes Anyone (findMountPointFrom path fuel m)
      ({.mref m} + {.at m p}) (Serves path) := by
  induction fuel generalizing m p with
  | zero => exact Safe.diverge _ _ _
  | succ fuel ih =>
    unfold findMountPointFrom
    refine Safe.bind (does_findChild path m p).safe fun o g' hg' => ?_
    cases o with
    | some next =>
      obtain ⟨p', hp', rfl⟩ := hg'
      exact ih (Or.inr hp') next
    | none =>
      subst hg'
      exact Safe.ret ⟨p, hp, rfl⟩

theorem safe_findMountPoint (path : Str) :
    Safe Inv owes Anyone (findMountPoint path) 0 (Serves path) := by
  unfold findMountPoint
  refine Safe.bind does_get_root.safe fun s g' hg' => ?_
  subst hg'
  exact safe_findMountPointFrom (Or.inl rfl) _ s.rootMount

/-! ## Directories -/

/-- How the walk through the directories of the mount `m` ends. -/
inductive Walked (m : MountRef) (deleteMode : Bool) (buffer : Str) : Walk → Held → Prop
  | error (e : Error) : Walked m deleteMode buffer (.error e) {.mref m}
  | root (n : NodeRef) (path : Str) :
      Walked m deleteMode buffer (.ok (some n) none path) ({.ref m n true .nothing} + {.mref m})
  | node {n dir : NodeRef} {root : Bool} {known known' : Known} {name path : Str}
      (hdelete : deleteMode = true → known = .nothing ∧ name = getFileName buffer)
      (htype : deleteMode = false → ∃ t, known = .type t ∧ t ≠ .symlink) :
      Walked m deleteMode buffer (.ok (some n) (some dir) path)
        ({.ref m n false known} + ({.ref m dir root known'} + ({.mref m} + {.named dir name n})))
  | absent {dir : NodeRef} {root : Bool} {path : Str} {E : Held} (hlinked : Linked root dir E)
      (hne : path ≠ []) (hslash : '/' ∉ path) :
      Walked m deleteMode buffer (.ok none (some dir) path)
        ({.ref m dir root (.lacks path)} + ({.mref m} + E))
  | symlink {n dir : NodeRef} {root : Bool} {known : Known} {name rest : Str}
      (hdelete : deleteMode = true → rest ≠ []) (hrest : rest ≠ [] → TailOf buffer rest) :
      Walked m deleteMode buffer (.symlink n dir rest)
        ({.ref m n false (.type .symlink)} +
          ({.ref m dir root known} + ({.mref m} + {.named dir name n})))

/-- The walk gives up: the directory it is in is released. -/
theorem safe_walk_error {deleteMode : Bool} {buffer : Str} {current : NodeRef} {E : Held}
    (hE : ∀ t ∈ E, t.key = none) (e : Error) :
    Safe Inv owes Anyone (do
      step (releaseNode current true)
      .ret (.error e)) ({.mref m} + {.ref m current root known} + E)
      (Walked m deleteMode buffer) := by
  refine Safe.perm (r := E + ({.ref m current root known} + {.mref m})) ?_ (by ac_rfl)
  exact Safe.drop hE (safe_releaseNode (Safe.ret (.error e)))

theorem safe_walk {buffer : Str} {deleteMode : Bool} (tInfo : ThreadInfo) (m : MountRef)
    (fileHasToExist : Bool) (hbuf : deleteMode = true → NoTrailing buffer) (fuel : Nat)
    (current : NodeRef) {E : Held} (hlinked : Linked root current E) (path : Str)
    (htail : TailOf buffer path) (hne : path ≠ []) :
    Safe Inv owes Anyone (walk K tInfo m fileHasToExist deleteMode fuel current path)
      ({.mref m} + {.ref m current root known} + E) (Walked m deleteMode buffer) := by
  induction fuel generalizing current path root known E with
  | zero => exact Safe.diverge _ _ _
  | succ fuel ih =>
    unfold walk
    refine safe_call (safe_lookup tInfo m current root known path) fun o g' hg' => ?_
    cases o with
    | notADirectory =>
      obtain rfl : g' = _ := hg'
      exact safe_walk_error hlinked.key _
    | denied =>
      obtain rfl : g' = _ := hg'
      exact safe_walk_error hlinked.key _
    | absent =>
      obtain rfl : g' = _ := hg'
      by_cases hlast : fileHasToExist = true ∨ (!isLastPathEntry path) = true
      · simp only [hlast, if_true]
        exact safe_walk_error hlinked.key _
      · simp only [hlast, if_false]
        have hslash : '/' ∉ path := by
          have hnot := (not_or.1 hlast).2
          simpa [isLastPathEntry] using hnot
        rw [component_eq_self hslash]
        refine Safe.perm (r := {.ref m current root (.lacks path)} + ({.mref m} + E)) ?_ (by ac_rfl)
        exact Safe.ret (.absent hlinked hne hslash)
    | found id rest =>
      obtain ⟨hwalk, hcomp, rfl⟩ := hg'
      -- What shows that `current` is linked is no longer needed.
      refine Safe.perm (r := E + ({.sees m current (component path) id} +
        ({.mref m} + {.ref m current root known}))) ?_ (by ac_rfl)
      refine Safe.drop hlinked.key ?_
      refine safe_step (does_acquireNode m current (component path) id) fun next g' hg' => ?_
      subst hg'
      by_cases hdel : deleteMode = true ∧ rest = []
      · rw [if_pos hdel]
        obtain ⟨hmode, rfl⟩ := hdel
        have hname := htail.last (hbuf hmode) hwalk (slash_not_mem_component path)
        refine Safe.perm (r := {.ref m next false .nothing} + ({.ref m current root known} +
          ({.mref m} + {.named current (component path) next}))) ?_ (by ac_rfl)
        exact Safe.ret (.node (fun _ => ⟨rfl, hname.symm⟩) fun hf => by simp [hmode] at hf)
      · rw [if_neg hdel]
        refine Safe.perm (r := {.ref m next false .nothing} + ({.ref m current root known} +
          ({.mref m} + {.named current (component path) next}))) ?_ (by ac_rfl)
        refine safe_step (does_nodeType m next false .nothing) fun type g' hg' => ?_
        obtain ⟨rfl, -, -⟩ := hg'
        by_cases hlink : type = .symlink
        · rw [if_pos hlink]
          subst hlink
          refine Safe.ret (.symlink (fun hmode hrest => hdel ⟨hmode, hrest⟩) fun hrest => ?_)
          exact htail.pathWalk hwalk hrest
        · rw [if_neg hlink]
          by_cases hrest : rest = []
          · rw [if_pos hrest]
            refine Safe.ret (.node (fun hmode => absurd ⟨hmode, hrest⟩ hdel) fun _ => ?_)
            exact ⟨type, rfl, hlink⟩
          · rw [if_neg hrest]
            refine Safe.perm (r := {.ref m current root known} +
              ({.mref m} + {.ref m next false (.type type)} +
                {.named current (component path) next})) ?_ (by ac_rfl)
            refine safe_releaseNode ?_
            exact ih next (Or.inr ⟨current, component path, rfl⟩) rest (htail.pathWalk hwalk hrest)
              hrest

theorem safe_acquirePathRec {buffer : Str} (tInfo : ThreadInfo) (m : MountRef)
    (fileHasToExist deleteMode : Bool) (hbuf : deleteMode = true → NoTrailing buffer)
    (htail : path = [] ∨ TailOf buffer path) :
    Safe Inv owes Anyone (acquirePathRec K tInfo m path fileHasToExist deleteMode) {.mref m}
      (Walked m deleteMode buffer) := by
  unfold acquirePathRec
  refine Safe.bind (does_acquireRoot m).safe fun n g' hg' => ?_
  subst hg'
  by_cases hpath : path = []
  · rw [if_pos hpath, add_comm]
    exact Safe.ret (.root n path)
  · rw [if_neg hpath]
    refine Safe.perm (r := {.mref m} + {.ref m n true .nothing} + 0) ?_ (by ac_rfl)
    exact safe_walk tInfo m fileHasToExist hbuf _ n (Or.inl ⟨rfl, rfl⟩) path
      (htail.resolve_left hpath) hpath

/-! ## Whole paths -/

/-- What `AcquirePath` leaves its thread with. -/
inductive AcquiredOK (deleteMode : Bool) : Except Error Acquired → Held → Prop
  | error (e : Error) : AcquiredOK deleteMode (.error e) 0
  | root {m : MountRef} {n : NodeRef} {path buffer : Str} :
      AcquiredOK deleteMode (.ok ⟨m, some n, none, path, buffer⟩)
        ({.ref m n true .nothing} + {.mref m})
  | node {m : MountRef} {n dir : NodeRef} {root : Bool} {known known' : Known}
      {name path buffer : Str}
      (hdelete : deleteMode = true → known = .nothing ∧ name = getFileName buffer)
      (htype : deleteMode = false → ∃ t, known = .type t ∧ t ≠ .symlink) :
      AcquiredOK deleteMode (.ok ⟨m, some n, some dir, path, buffer⟩)
        ({.ref m n false known} + ({.ref m dir root known'} + ({.mref m} + {.named dir name n})))
  | absent {m : MountRef} {dir : NodeRef} {root : Bool} {path buffer : Str} {E : Held}
      (hlinked : Linked root dir E) (hne : path ≠ []) (hslash : '/' ∉ path) :
      AcquiredOK deleteMode (.ok ⟨m, none, some dir, path, buffer⟩)
        ({.ref m dir root (.lacks path)} + ({.mref m} + E))

/-- What is behind a link keeps the end of the path. -/
theorem noTrailing_splice {buffer linkPath rest : Str} (h : NoTrailing buffer)
    (hrest : TailOf buffer rest) (hne : rest ≠ []) : NoTrailing (splice linkPath rest) := by
  obtain ⟨pre, rfl, -⟩ := hrest
  have hnt : NoTrailing rest := h.of_append
  have hpos : rest.length > 0 := List.length_pos_iff.2 hne
  unfold splice
  rw [if_pos hpos]
  have hcons : linkPath ++ '/' :: rest = (linkPath ++ ['/']) ++ rest := by simp
  rw [hcons]
  exact hnt.append hne

/-- **Resolving a path.** -/
theorem safe_acquirePath {deleteMode : Bool} (tInfo : ThreadInfo) (fileHasToExist : Bool)
    (fuel : Nat) (buffer : Str) (hbuf : deleteMode = true → NoTrailing buffer) :
    Safe Inv owes Anyone (acquirePath K tInfo fileHasToExist deleteMode fuel buffer) 0
      (AcquiredOK deleteMode) := by
  induction fuel generalizing buffer with
  | zero => exact Safe.diverge _ _ _
  | succ fuel ih =>
    unfold acquirePath
    refine Safe.bind (safe_findMountPoint buffer) fun m g' hg' => ?_
    obtain ⟨p, hp, rfl⟩ := hg'
    refine Safe.bind (does_getMount m p).safe fun mp g' hg' => ?_
    obtain ⟨rfl, rfl⟩ := hg'
    refine Safe.bind (safe_acquirePathRec tInfo m fileHasToExist deleteMode hbuf (advancePath_tail hp))
      fun w g' hw => ?_
    cases hw with
    | error e =>
      refine Safe.perm (r := {.mref m} + 0) ?_ (by ac_rfl)
      exact safe_releaseMountPoint (Safe.ret (.error e))
    | root n path => exact Safe.ret .root
    | node hdelete htype => exact Safe.ret (.node hdelete htype)
    | absent hlinked hne hslash => exact Safe.ret (.absent hlinked hne hslash)
    | @symlink n dir root known name rest hdelete hrest =>
      refine Safe.perm (r := {.mref m} + {.ref m n false (.type .symlink)} +
        ({.ref m dir root known} + {.named dir name n})) ?_ (by ac_rfl)
      refine safe_step (does_readLink m n false) fun linkPath g' hg' => ?_
      obtain ⟨rfl, -⟩ := hg'
      refine Safe.perm (r := {.named dir name n} + ({.ref m n false (.type .symlink)} +
        ({.ref m dir root known} + ({.mref m} + 0)))) ?_ (by ac_rfl)
      refine Safe.drop (by simp) (safe_releaseNode (safe_releaseNode (safe_releaseMountPoint ?_)))
      split_ifs with hlong
      · exact Safe.ret (.error _)
      · refine ih _ fun hmode => ?_
        exact noTrailing_splice (hbuf hmode) (hrest (hdelete hmode)) (hdelete hmode)

end ChenixOS.VFS
