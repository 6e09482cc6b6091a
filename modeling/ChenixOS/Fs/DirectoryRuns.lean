import ChenixOS.Fs.DirectoryMemory
import ChenixOS.Fs.EntryCalls

/-!
# Directories over whole runs

`Edits` says which directories a successful call changes, and how. Run on the directories in memory, the
changes leave what the tree has.

**Theorem (`directories_intact`).** In every run of calls that make and delete names, every directory holds
its list of entries after each call; and one more entry leaves it so exactly if the name fits.
-/

namespace ChenixOS.VFS

variable {K : Kernel} {user : ThreadRef → Nat × Nat} {L H : Held} {s s' : State} {c : Call} {res : Reply} {id : Nat}
  {m : MountRef}

/-! ## Changes of directories -/

/-- A directory, by its mount and its id. -/
abbrev Place := MountRef × Nat

inductive Edit
  | create
  | add (name : Str) (id : Nat)
  | remove (index : Nat)

namespace Edit

def apply : Edit → List DirectoryEntry → List DirectoryEntry
  | create, _ => []
  | add name id, es => es ++ [⟨name, id⟩]
  | remove index, es => es.eraseIdx index

/-- The change in memory; `CreateFolder` makes directories with room for 10 entries. -/
def raw (junk : Nat → Cell) : Edit → RawDirectory → Option RawDirectory
  | create, _ => some (.create junk 10)
  | add name id, dir => dir.add junk name id
  | remove index, dir => dir.removeEntry index

/-- There is an entry to remove, and a new name fits. -/
def Fits : Edit → List DirectoryEntry → Prop
  | create, _ => True
  | add name _, _ => name.length < nameSizeof
  | remove index, es => index < es.length

theorem raw_holds {e : Edit} {es : List DirectoryEntry} {dir : RawDirectory} (junk : Nat → Cell)
    (h : dir.Holds es) (hfits : e.Fits es) : ∃ dir', e.raw junk dir = some dir' ∧ dir'.Holds (e.apply es) := by
  cases e with
  | create => exact ⟨_, rfl, RawDirectory.holds_create junk 10⟩
  | add name id => exact (RawDirectory.add_holds_iff h).2 hfits
  | remove index => exact RawDirectory.removeEntry_holds h hfits

end Edit

/-- The lists of all directories after the changes. -/
def replay : List (Place × Edit) → (Place → List DirectoryEntry) → Place → List DirectoryEntry
  | [], dirs => dirs
  | (d, e) :: edits, dirs => replay edits (Function.update dirs d (e.apply (dirs d)))

/-- All directories in memory. -/
abbrev Memory := Place → RawDirectory

/-- The changes in memory, with any contents of new memory. -/
def Replays : List (Place × Edit) → Memory → Memory → Prop
  | [], mem, mem' => mem' = mem
  | (d, e) :: edits, mem, mem' =>
      ∃ junk dir, e.raw junk (mem d) = some dir ∧ Replays edits (Function.update mem d dir) mem'

/-- All changes fit, one after the other. -/
def AllFit : List (Place × Edit) → (Place → List DirectoryEntry) → Prop
  | [], _ => True
  | (d, e) :: edits, dirs => e.Fits (dirs d) ∧ AllFit edits (Function.update dirs d (e.apply (dirs d)))

theorem update_holds {mem : Memory} {dirs : Place → List DirectoryEntry} {d : Place} {dir : RawDirectory}
    {es : List DirectoryEntry} (h : ∀ d, (mem d).Holds (dirs d)) (hdir : dir.Holds es) (d' : Place) :
    (Function.update mem d dir d').Holds (Function.update dirs d es d') := by
  by_cases heq : d' = d
  · subst heq
    simpa using hdir
  · simpa [heq] using h d'

/-- Whatever new memory contains, the changes end, and every directory holds its list. -/
theorem Replays.holds {edits : List (Place × Edit)} {mem mem' : Memory} {dirs : Place → List DirectoryEntry}
    (h : ∀ d, (mem d).Holds (dirs d)) (hfit : AllFit edits dirs) (hrun : Replays edits mem mem') :
    ∀ d, (mem' d).Holds (replay edits dirs d) := by
  induction edits generalizing mem dirs with
  | nil =>
    subst hrun
    exact h
  | cons p edits ih =>
    obtain ⟨junk, dir, hraw, hrest⟩ := hrun
    obtain ⟨dir', hraw', hholds⟩ := Edit.raw_holds junk (h p.1) hfit.1
    obtain rfl : dir' = dir := Option.some.inj (hraw'.symm.trans hraw)
    exact ih (update_holds h hholds) hfit.2 hrest

theorem exists_replays {edits : List (Place × Edit)} {mem : Memory} {dirs : Place → List DirectoryEntry}
    (h : ∀ d, (mem d).Holds (dirs d)) (hfit : AllFit edits dirs) : ∃ mem', Replays edits mem mem' := by
  induction edits generalizing mem dirs with
  | nil => exact ⟨mem, rfl⟩
  | cons p edits ih =>
    obtain ⟨dir, hraw, hholds⟩ := Edit.raw_holds (fun _ => .part 0 0) (h p.1) hfit.1
    obtain ⟨mem', hrest⟩ := ih (update_holds h hholds) hfit.2
    exact ⟨mem', _, dir, hraw, hrest⟩

/-! ## The changes of a call -/

/-- The calls that make and delete names. -/
def Call.IsEntryCall : Call → Prop
  | createFile .. | createFolder .. | createSymLink .. | createDeviceFile .. | createHardLink .. | «open» .. |
    delete .. => True
  | _ => False

/-- The call returns `OK`, or a descriptor. -/
def Reply.IsOk : Reply → Prop
  | code (.ok _) | desc (.ok _) => True
  | _ => False

/-- What a successful call does to the directories. -/
inductive Edits (s s' : State) : Call → List (Place × Edit) → Prop
  | createFile {t path perms r folder id} (h : Enters s s' t path false r folder id)
      (hnew : IsNew s s' r.mp id .file) :
      Edits s s' (.createFile t path perms) [((r.mp, folder), .add r.path id)]
  | createFolder {t path perms r folder id} (h : Enters s s' t path false r folder id)
      (hnew : IsNew s s' r.mp id .directory) :
      Edits s s' (.createFolder t path perms) [((r.mp, id), .create), ((r.mp, folder), .add r.path id)]
  | createSymLink {t path perms linkPath r folder id} (h : Enters s s' t path false r folder id)
      (hnew : IsNew s s' r.mp id .symlink) :
      Edits s s' (.createSymLink t path perms linkPath) [((r.mp, folder), .add r.path id)]
  | createDeviceFile {t path perms driverID subID r folder id type} (h : Enters s s' t path false r folder id)
      (htype : type = .deviceBlock ∨ type = .deviceChar) (hnew : IsNew s s' r.mp id type) :
      Edits s s' (.createDeviceFile t path perms driverID subID) [((r.mp, folder), .add r.path id)]
  | createHardLink {t path linkPath r folder id rl} (h : Enters s s' t path false r folder id)
      (hlink : Resolves s t linkPath true false rl) (hmp : rl.mp = r.mp) (hnode : rl.node = some id) :
      Edits s s' (.createHardLink t path linkPath) [((r.mp, folder), .add r.path id)]
  | openNew {t path openMode r folder id}
      (h : Enters s s' t path (!hasMode openMode openModeCreate) r folder id)
      (hnew : IsNew s s' r.mp id .file) :
      Edits s s' (.open t path openMode) [((r.mp, folder), .add r.path id)]
  | openOld {t path openMode} (h : s'.dirs = s.dirs) : Edits s s' (.open t path openMode) []
  | delete {t path r folder id index} (h : Removes s s' t path r folder id index) :
      Edits s s' (.delete t path) [((r.mp, folder), .remove index)]

/-- A node that is not there yet has no entries. -/
theorem dirs_of_fresh (hI : Inv H s) (hid : s.testNodes.cell id = none) : s.dirs (m, id) = [] := by
  by_contra hne
  obtain ⟨mp, n, htemp, hmem, hidn, -⟩ := (hI.dirs_eq_iff hne).1 rfl
  obtain ⟨tn, htn⟩ := hI.shape.alive m id ⟨mp, htemp, Or.inr ⟨n, hmem, hidn⟩⟩
  obtain ⟨tn₀, hcell, -⟩ := Option.map_eq_some_iff.1 htn
  rw [hid] at hcell
  cases hcell

/-- The changes fit, and lead to the entries after the call. -/
theorem Edits.replay_eq {edits : List (Place × Edit)} (hI : Inv H s) (h : Edits s s' c edits) :
    AllFit edits s.dirs ∧ s'.dirs = replay edits s.dirs := by
  cases h with
  | createFile h hnew => exact ⟨⟨h.fits, trivial⟩, h.dirs⟩
  | @createFolder t path perms r folder id h hnew =>
    have hempty : Function.update s.dirs (r.mp, id) (Edit.create.apply (s.dirs (r.mp, id))) = s.dirs := by
      rw [Function.update_eq_self_iff]
      exact (dirs_of_fresh hI hnew.fresh).symm
    refine ⟨⟨trivial, h.fits, trivial⟩, ?_⟩
    rw [replay, hempty]
    exact h.dirs
  | createSymLink h hnew => exact ⟨⟨h.fits, trivial⟩, h.dirs⟩
  | createDeviceFile h htype hnew => exact ⟨⟨h.fits, trivial⟩, h.dirs⟩
  | createHardLink h hlink hmp hnode => exact ⟨⟨h.fits, trivial⟩, h.dirs⟩
  | openNew h hnew => exact ⟨⟨h.fits, trivial⟩, h.dirs⟩
  | openOld h => exact ⟨trivial, h⟩
  | delete h =>
    obtain ⟨hlt, -⟩ := List.getElem?_eq_some_iff.1 h.entry
    exact ⟨⟨hlt, trivial⟩, h.dirs⟩

theorem code_run_ok {p : P (Except Error Unit)} (hrun : (Reply.code <$> p).run s = .ok (res, s')) (hres : res.IsOk) :
    p.run s = .ok (.ok (), s') := by
  obtain ⟨a, ha, rfl⟩ := Prog.run_map_ok.1 hrun
  cases a with
  | error e => cases hres
  | ok => exact ha

/-- **Every successful call changes the directories in one of these ways.** -/
theorem Step.edits (h : Rest L s) (hstep : Step K s c res s') (hc : c.IsEntryCall) (hres : res.IsOk) :
    ∃ edits, Edits s s' c edits := by
  obtain ⟨L', hrest', -⟩ := hstep.rest h
  obtain ⟨-, fuel, hrun⟩ := hstep
  cases c with
  | createFile t path perms =>
    obtain ⟨r, folder, id, henters, hnew⟩ :=
      createAt_enters h (inits_initNode perms (by simp) (by simp) (by simp)) (code_run_ok hrun hres)
    exact ⟨_, .createFile henters hnew⟩
  | createFolder t path perms =>
    obtain ⟨r, folder, id, henters, hnew⟩ :=
      createAt_enters h (inits_initNode perms (by simp [Directory.create]) (fun _ => ⟨_, rfl⟩) (by simp))
        (code_run_ok hrun hres)
    exact ⟨_, .createFolder henters hnew⟩
  | createSymLink t path perms linkPath =>
    obtain ⟨r, folder, id, henters, hnew⟩ :=
      createAt_enters h (inits_initNode perms (by simp) (by simp) fun _ => ⟨_, rfl⟩) (code_run_ok hrun hres)
    exact ⟨_, .createSymLink henters hnew⟩
  | createDeviceFile t path perms driverID subID =>
    have hrun' := code_run_ok hrun hres
    unfold createDeviceFile at hrun'
    rcases hdriver : K.drivers driverID with _ | _ | _
    · simp only [hdriver] at hrun'
      have hinits : ∀ tInfo : ThreadInfo, Inits .deviceBlock (.error .nullptr) := fun _ => ⟨by simp, by simp⟩
      obtain ⟨r, folder, id, henters, hnew⟩ := createAt_enters h hinits hrun'
      exact ⟨_, .createDeviceFile henters (Or.inl rfl) hnew⟩
    · simp only [hdriver] at hrun'
      obtain ⟨r, folder, id, henters, hnew⟩ :=
        createAt_enters h (inits_initNode perms (by simp) (by simp) (by simp)) hrun'
      exact ⟨_, .createDeviceFile henters (by simp) hnew⟩
    · simp only [hdriver] at hrun'
      obtain ⟨r, folder, id, henters, hnew⟩ :=
        createAt_enters h (inits_initNode perms (by simp) (by simp) (by simp)) hrun'
      exact ⟨_, .createDeviceFile henters (by simp) hnew⟩
  | createHardLink t path linkPath =>
    obtain ⟨r, folder, id, rl, henters, hlink, hmp, hnode⟩ := createHardLink_enters h (code_run_ok hrun hres)
    exact ⟨_, .createHardLink henters hlink hmp hnode⟩
  | «open» t path openMode =>
    obtain ⟨a, ha, rfl⟩ := Prog.run_map_ok.1 hrun
    cases a with
    | error e => cases hres
    | ok d =>
      obtain hdirs | ⟨r, folder, id, henters, hnew⟩ := open_enters h hrest' ha
      · exact ⟨_, .openOld hdirs⟩
      · exact ⟨_, .openNew henters hnew⟩
  | delete t path =>
    obtain ⟨r, folder, id, index, hremoves⟩ := delete_removes h (code_run_ok hrun hres)
    exact ⟨_, .delete hremoves⟩
  | _ => cases hc

/-! ## Runs -/

/-- One successful call, with the directories in memory. -/
def EntryStep (K : Kernel) (p q : State × Memory) : Prop :=
  ∃ c res edits, c.IsEntryCall ∧ res.IsOk ∧ Step K p.1 c res q.1 ∧ Edits p.1 q.1 c edits ∧ Replays edits p.2 q.2

/-- Every directory in memory holds its entries. -/
def Intact (p : State × Memory) : Prop := ∀ d, (p.2 d).Holds (p.1.dirs d)

theorem EntryStep.intact {p q : State × Memory} (h : Rest L p.1) (hp : Intact p) (hstep : EntryStep K p q) :
    (∃ L', Rest L' q.1) ∧ Intact q := by
  obtain ⟨c, res, edits, -, -, hcall, hedits, hmem⟩ := hstep
  obtain ⟨L', hrest', -⟩ := hcall.rest h
  obtain ⟨hfit, hdirs⟩ := hedits.replay_eq h.inv
  refine ⟨⟨L', hrest'⟩, fun d => ?_⟩
  rw [hdirs]
  exact hmem.holds hp hfit d

/-- **Directories stay intact** in every run, as long as the names fit: the lists that the calls make are in
memory, a call that succeeds has such an effect, and one more name keeps its directory intact exactly if
it fits. -/
theorem directories_intact {mem mem' : Memory} (h : Reachable K user s) (hmem : Intact (s, mem))
    (hrun : Relation.ReflTransGen (EntryStep K) (s, mem) (s', mem')) :
    Intact (s', mem') ∧
      (∀ c res s'', c.IsEntryCall → res.IsOk → Step K s' c res s'' →
        ∃ edits mem'', Edits s' s'' c edits ∧ s''.dirs = replay edits s'.dirs ∧ Replays edits mem' mem'') ∧
      ∀ d name id junk, (∃ dir, (mem' d).add junk name id = some dir ∧ dir.Holds (s'.dirs d ++ [⟨name, id⟩])) ↔
        name.length < nameSizeof := by
  obtain ⟨L, hrest⟩ := h.rest
  have hboth : (∃ L', Rest L' s') ∧ Intact (s', mem') := by
    generalize hq : (s', mem') = q at hrun
    induction hrun generalizing s' mem' with
    | refl =>
      obtain ⟨rfl, rfl⟩ := Prod.mk.inj hq
      exact ⟨⟨L, hrest⟩, hmem⟩
    | @tail p q hpath hstep ih =>
      obtain ⟨⟨L', hrest'⟩, hp⟩ := @ih p.1 p.2 rfl
      subst hq
      exact hstep.intact hrest' hp
  obtain ⟨⟨L', hrest'⟩, hintact⟩ := hboth
  refine ⟨hintact, fun c res s'' hc hres hstep => ?_, fun d name id junk => RawDirectory.add_holds_iff (hintact d)⟩
  obtain ⟨edits, hedits⟩ := hstep.edits hrest' hc hres
  obtain ⟨hfit, hdirs⟩ := hedits.replay_eq hrest'.inv
  obtain ⟨mem'', hreplays⟩ := exists_replays hintact hfit
  exact ⟨edits, mem'', hedits, hdirs, hreplays⟩

/-- The first directory has no entries. -/
theorem dirs_init (K : Kernel) (user : ThreadRef → Nat × Nat) (d : Place) : (State.init K user).dirs d = [] := by
  by_contra hne
  have hI := (rest_init K user).inv
  obtain ⟨mp, n, ⟨hskel, -⟩, hmem, -, -⟩ := (hI.dirs_eq_iff hne).1 rfl
  obtain ⟨node, hn⟩ : ∃ node, (State.init K user).nodes.cell n = some node := by
    obtain ⟨mp, hm, rfl⟩ := cell_of_skel hskel
    exact hI.live hm hmem
  cases hn

/-- A file is made in the root directory. -/
theorem directories_intact_file : ∃ (s' : State) (mem' : Memory) (d : Place),
    Relation.ReflTransGen (EntryStep .plain) (State.init .plain fun _ => (0, 0), fun _ => .create (fun _ => .part 0 0) 10)
      (s', mem') ∧ (s'.dirs d).map DirectoryEntry.name = [['a']] ∧ Intact (s', mem') := by
  set s := State.init .plain fun _ => (0, 0) with hs
  set mem : Memory := fun _ => .create (fun _ => .part 0 0) 10 with hmem
  have hintact : Intact (s, mem) := fun d => by
    rw [hs, dirs_init]
    exact RawDirectory.holds_create _ 10
  have hrest : Rest 0 s := rest_init _ _
  have hplay : (((createFile .plain 0 1 (some ['a']) ⟨7, 7, 7, 0⟩).run
      (State.init .plain fun _ => (0, 0))).toOption.any fun q => q.1 = .ok () ∧
        (q.2.dirs (q.2.rootMount, 0)).map DirectoryEntry.name = [['a']]) = true := by decide +kernel
  obtain ⟨⟨res, s'⟩, hopt, hres⟩ := Option.any_eq_true .. |>.1 hplay
  obtain ⟨rfl, hnames⟩ := of_decide_eq_true hres
  have hcreate : (createFile .plain 0 1 (some ['a']) ⟨7, 7, 7, 0⟩).run s = .ok (.ok (), s') := by
    cases hrun : (createFile .plain 0 1 (some ['a']) ⟨7, 7, 7, 0⟩).run s with
    | error e =>
      rw [hrun] at hopt
      cases hopt
    | ok q =>
      rw [hrun] at hopt
      exact congrArg Except.ok (Option.some.inj hopt)
  have hstep : Step .plain s (.createFile 0 (some ['a']) ⟨7, 7, 7, 0⟩) (.code (.ok ())) s' :=
    ⟨fun d hd => (by cases hd), 1, Prog.run_map_ok.2 ⟨_, hcreate, rfl⟩⟩
  obtain ⟨edits, hedits⟩ := hstep.edits hrest trivial trivial
  obtain ⟨mem', hreplays⟩ := exists_replays hintact (hedits.replay_eq hrest.inv).1
  have hrun : Relation.ReflTransGen (EntryStep .plain) (s, mem) (s', mem') :=
    .single ⟨.createFile 0 (some ['a']) ⟨7, 7, 7, 0⟩, .code (.ok ()), edits, trivial, trivial, hstep, hedits, hreplays⟩
  exact ⟨s', mem', (s'.rootMount, 0), hrun, hnames, (directories_intact .refl hintact hrun).1⟩

/-- `PreparePath` accepts a name of 64 characters, and there is no intact directory with it: in the last
free place, its end is written beyond the allocated memory. -/
theorem long_name_overruns : ∃ name, preparePath 255 [] (some ('/' :: name)) = .ok (.ok name) ∧
    (createFile .plain 0 1 (some name) ⟨7, 7, 7, 0⟩).run (State.init .plain fun _ => (0, 0)) = .error .overflow ∧
    (∀ (junk : Nat → Cell) (id : Nat),
      ¬ ∃ dir, (RawDirectory.create junk 10).add junk name id = some dir ∧ dir.Holds [⟨name, id⟩]) ∧
    ∀ (junk : Nat → Cell) (es : List DirectoryEntry) (id : Nat) (dir : RawDirectory),
      dir.capacity = 10 → es.length = 9 → dir.Holds es → dir.add junk name id = none := by
  refine ⟨List.replicate 64 'a', by decide +kernel, ?_, fun junk id h => ?_, fun junk es id dir hcap hlen h => ?_⟩
  · have hrun : ((createFile .plain 0 1 (some (List.replicate 64 'a')) ⟨7, 7, 7, 0⟩).run
        (State.init .plain fun _ => (0, 0))).map (fun _ => ()) = .error .overflow := by decide +kernel
    cases h : (createFile .plain 0 1 (some (List.replicate 64 'a')) ⟨7, 7, 7, 0⟩).run
        (State.init .plain fun _ => (0, 0)) with
    | error e =>
      rw [h] at hrun
      exact congrArg Except.error (Except.error.inj hrun)
    | ok q =>
      rw [h] at hrun
      cases hrun
  · have hfits := (RawDirectory.add_holds_iff (RawDirectory.holds_create junk 10)).1 h
    exact absurd hfits (by decide)
  · exact RawDirectory.add_none h (by rw [hlen, hcap]) (by decide)

end ChenixOS.VFS
