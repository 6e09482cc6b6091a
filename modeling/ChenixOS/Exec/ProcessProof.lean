import ChenixOS.Exec.ELFArgumentsProof
import ChenixOS.Exec.Process
import Mathlib.Order.Lattice.Nat

/-!
# Calls of `exec`

**Theorem (`arguments_inBounds_iff`).** The copies of the arguments stay in their arrays, and what is pushed of them in
the pages of the stack, exactly if they fit or a page fault ends the thread before.

**Theorem (`doExec_unchanged_iff`).** A call that fails leaves the thread and the heap as they were unless it is the
file that is refused: by then the thread has its new name, and the copies of the arguments are not freed.
-/

namespace ChenixOS.Process

open MemoryManager ELF.Exec

variable {K : Kernel} {user : UserMemory} {room src k n i count command argv env buffer e : Nat} {argc : Int}
  {live live' : Finset Nat} {image : Buffer} {s : State} {roots F : List Nat} {w : World}

/-! ## Copies from user memory -/

/-- A page fault comes while the copy is in the block. -/
def Faults (user : UserMemory) (room src k count : Nat) : Prop :=
  ∃ j < count, k + j ≤ room ∧ user ((src + (k + j)) % wordSize) = none

theorem kmemcpyUsersafe_cases (hk : k ≤ room) :
    Faults user room src k count ∧ kmemcpyUsersafe user room src k count = some false ∨
    ¬ Faults user room src k count ∧ k + count ≤ room ∧ kmemcpyUsersafe user room src k count = some true ∨
    ¬ Faults user room src k count ∧ room < k + count ∧ kmemcpyUsersafe user room src k count = none := by
  induction count generalizing k with
  | zero => exact .inr (.inl ⟨fun ⟨j, hj, _⟩ => absurd hj (Nat.not_lt_zero j), hk, rfl⟩)
  | succ count ih =>
    rw [kmemcpyUsersafe]
    cases hbyte : user ((src + k) % wordSize) with
    | none => exact .inl ⟨⟨0, Nat.succ_pos _, hk, hbyte⟩, rfl⟩
    | some b =>
      -- a fault at byte `k` is excluded, so faults are those of the rest
      have hfaults : Faults user room src k (count + 1) ↔ Faults user room src (k + 1) count := by
        constructor
        · rintro ⟨j, hj, hroom, hnone⟩
          cases j with
          | zero => rw [Nat.add_zero, hbyte] at hnone; cases hnone
          | succ j =>
            have hshift : k + 1 + j = k + (j + 1) := by omega
            exact ⟨j, by omega, by omega, by rw [hshift]; exact hnone⟩
        · rintro ⟨j, hj, hroom, hnone⟩
          have hshift : k + 1 + j = k + (j + 1) := by omega
          exact ⟨j + 1, by omega, by omega, by rw [← hshift]; exact hnone⟩
      rw [hfaults]
      by_cases hlt : k < room
      · have hsum : k + (count + 1) = k + 1 + count := by omega
        simp only [if_pos hlt, hsum]
        exact ih hlt
      · refine .inr (.inr ⟨?_, by omega, if_neg hlt⟩)
        rintro ⟨j, -, hroom, -⟩
        omega

theorem countEnv_le {m : Nat} (h : countEnv user env n i = some m) : m ≤ i + n := by
  induction n generalizing i with
  | zero =>
    obtain ⟨p, -, hp⟩ := Option.bind_eq_some_iff.1 h
    exact (Option.some.inj hp).ge
  | succ n ih =>
    obtain ⟨p, -, hp⟩ := Option.bind_eq_some_iff.1 h
    split at hp
    · obtain rfl := Option.some.inj hp
      omega
    · have hle := ih hp
      omega

theorem envCount_le {m : Nat} (h : envCount user env = some m) : m ≤ 128 := by
  unfold envCount at h
  split at h
  · obtain rfl := Option.some.inj h
    omega
  · exact (countEnv_le h).trans_eq (Nat.zero_add _)

/-- The strings that are copied. -/
theorem copyStrings_fst (K : Kernel) (user : UserMemory) (argv n i : Nat) (live : Finset Nat) :
    (copyStrings K user argv n i live).1.map (·.map Prod.fst) = (List.range' i n).mapM (readString user argv) := by
  induction n generalizing i live with
  | zero => rfl
  | succ n ih =>
    rw [copyStrings, List.range'_succ, List.mapM_cons]
    cases hstr : readString user argv i with
    | none => rfl
    | some str =>
      have hrest := ih (i + 1) (insert (K.alloc 256 live) live)
      simp only [Option.bind_eq_bind, Option.bind_some]
      rw [← hrest]
      cases (copyStrings K user argv n (i + 1) (insert (K.alloc 256 live) live)).1 <;> rfl

/-- No block is freed by the copies. -/
theorem copyStrings_sub (K : Kernel) (user : UserMemory) (argv n i : Nat) (live : Finset Nat) :
    live ⊆ (copyStrings K user argv n i live).2 := by
  induction n generalizing i live with
  | zero => exact Finset.Subset.refl _
  | succ n ih =>
    rw [copyStrings]
    cases readString user argv i with
    | none => exact Finset.subset_insert _ _
    | some str => exact (Finset.subset_insert _ _).trans (ih _ _)

/-- **The arguments and the environment in user memory**, if they can be read. -/
def readArguments (user : UserMemory) (argc : Int) (argv env : Nat) : Option (List CString × List CString) := do
  let args ← (List.range argc.toNat).mapM (readString user argv)
  let n ← envCount user env
  let envs ← (List.range n).mapM (readString user env)
  some (args, envs)

/-- What is copied is what can be read, and the array for it is a new block. -/
theorem copyArguments_read (K : Kernel) (env buffer : Nat) (live : Finset Nat)
    (hcopy : kmemcpyUsersafe user (arrayRoom argc) argv 0 (argvBytes argc) = some true) :
    ∃ c live', copyArguments K user argc argv env buffer live = some (c, live') ∧
      c.map (fun c => (c.args.map Prod.fst, c.envs.map Prod.fst)) = readArguments user argc argv env ∧
      live ⊆ live' ∧ K.alloc (arrayRoom argc) live ∈ live' := by
  obtain ⟨a, ha⟩ : ∃ a, K.alloc (arrayRoom argc) live = a := ⟨_, rfl⟩
  obtain ⟨⟨args, live₁⟩, hargs⟩ : ∃ r, copyStrings K user argv argc.toNat 0 (insert a live) = r := ⟨_, rfl⟩
  have hstrings := copyStrings_fst K user argv argc.toNat 0 (insert a live)
  have hsub := copyStrings_sub K user argv argc.toNat 0 (insert a live)
  rw [hargs] at hstrings hsub
  rw [← List.range_eq_range'] at hstrings
  have hlive : live ⊆ live₁ := (Finset.subset_insert _ _).trans hsub
  have ha₁ : a ∈ live₁ := hsub (Finset.mem_insert_self _ _)
  rw [copyArguments, readArguments, ← hstrings, ha]
  simp only [Option.bind_eq_bind, hcopy, Option.bind_some, if_true, hargs]
  cases args with
  | none => exact ⟨none, live₁, rfl, rfl, hlive, ha₁⟩
  | some args =>
    cases hcount : envCount user env with
    | none => exact ⟨none, live₁, rfl, rfl, hlive, ha₁⟩
    | some m =>
      have hfits : ArrayFits m := by
        by_contra hno
        have hbig := not_arrayFits hno
        have hsmall := envCount_le hcount
        omega
      obtain ⟨b, hb⟩ : ∃ b, K.alloc (arrayRoom (max m 1)) live₁ = b := ⟨_, rfl⟩
      obtain ⟨⟨envs, live₂⟩, henvs⟩ : ∃ r, copyStrings K user env m 0 (insert b live₁) = r := ⟨_, rfl⟩
      have hstrings₂ := copyStrings_fst K user env m 0 (insert b live₁)
      have hsub₂ := copyStrings_sub K user env m 0 (insert b live₁)
      rw [henvs] at hstrings₂ hsub₂
      rw [← List.range_eq_range'] at hstrings₂
      have hlive₂ : live₁ ⊆ live₂ := (Finset.subset_insert _ _).trans hsub₂
      simp only [if_pos hfits, hb, henvs]
      cases envs with
      | none => exact ⟨none, live₂, rfl, by simp [← hstrings₂], hlive.trans hlive₂, hlive₂ ha₁⟩
      | some envs => exact ⟨_, live₂, rfl, by simp [← hstrings₂], hlive.trans hlive₂, hlive₂ ha₁⟩

/-! ## A process and a file -/

theorem sup_succ_not_mem (live : Finset Nat) : live.sup id + 1 ∉ live := fun hmem =>
  Nat.not_succ_le_self _ (Finset.le_sup (f := id) hmem)

/-- A file system with one file, which has the bytes `bytes`, and a heap that counts upwards. -/
def oneFile (bytes : Nat → UInt8) (size : Nat) : Kernel where
  alloc _ live := live.sup id + 1
  stat live := (.ok ⟨0, 0, ⟨5, 5, 5, 0⟩, size⟩, live)
  openFile live := (.ok ⟨live.sup id + 1, [0x61]⟩, insert (live.sup id + 1) live)
  read _ _ live := (bytes, live)
  close file live := live.erase file.block
  alloc_fresh _ live := sup_succ_not_mem live
  stat_keeps _ := Finset.Subset.refl _
  open_keeps _ := Finset.subset_insert _ _
  read_keeps _ _ _ := Finset.Subset.refl _
  close_keeps live file hopen live' b hb hor := by
    obtain rfl := Except.ok.inj hopen
    refine Finset.mem_erase.2 ⟨fun heq => ?_, hb⟩
    rcases hor with hmem | hnew
    · have hblock : b = live.sup id + 1 := heq
      exact sup_succ_not_mem live (hblock ▸ hmem)
    · exact hnew (heq ▸ Finset.mem_insert_self _ _)

/-- The memory of a process with pointers at `0x100000`, each of them to an empty string at `0x200000`. -/
def emptyStrings (x : Nat) : Option UInt8 :=
  if x < 0x300000 then some (if x % 8 = 2 then 0x20 else 0) else none

def firstWorld : World := ⟨⟨[0x69], [0x69], 0, 0, ⟨1, 0⟩, []⟩, {7}, boot 25 fun _ => 0⟩

/-- For which values of an `int` the block is large enough. -/
theorem argvBytes_le_arrayRoom_iff (hlow : -2 ^ 31 ≤ argc) (hhigh : argc < 2 ^ 31) :
    argvBytes argc ≤ arrayRoom argc ↔ 0 ≤ argc ∧ argc < 2 ^ 29 := by
  unfold argvBytes arrayRoom KernelHeap.blockSize KernelHeap.sizeTop wordSize
  split <;> omega

theorem readWord_of_bytes {a v : Nat} (h : ∀ i < n, user ((a + i) % wordSize) = some (Words.byte v i)) :
    readWord user n a = some (v % 256 ^ n) := by
  induction n generalizing a v with
  | zero => rw [Nat.pow_zero, Nat.mod_one]; rfl
  | succ n ih =>
    have hfirst : user (a % wordSize) = some (Words.byte v 0) := h 0 (Nat.succ_pos n)
    have hrest : readWord user n (a + 1) = some (v / 256 % 256 ^ n) := ih fun i hi => by
      rw [Nat.add_assoc, Nat.add_comm 1, h (i + 1) (Nat.succ_lt_succ hi), Words.byte_succ]
    rw [readWord, hfirst, hrest]
    simp only [Option.bind_eq_bind, Option.bind_some]
    rw [Words.toNat_byte, Nat.pow_zero, Nat.div_one, Nat.pow_succ', Nat.mod_mul]

theorem readString_emptyStrings (hi : i < 8192) : readString emptyStrings 0x100000 i = some CString.nil := by
  have hbytes : ∀ k < 8, Words.byte 0x200000 k = if k = 2 then 0x20 else 0 := by decide
  have hword : readWord emptyStrings 8 (0x100000 + 8 * i) = some (0x200000 % 256 ^ 8) := by
    refine readWord_of_bytes fun k hk => ?_
    have hmod : (0x100000 + 8 * i + k) % wordSize = 0x100000 + 8 * i + k :=
      Nat.mod_eq_of_lt (by unfold wordSize; omega)
    have hindex : (0x100000 + 8 * i + k) % 8 = k := by omega
    rw [hmod, emptyStrings, if_pos (by omega), hindex, hbytes k hk]
  rw [readString, hword]
  rfl

theorem mapM_replicate {f : Nat → Option CString} {a : CString} {l : List Nat} (h : ∀ i ∈ l, f i = some a) :
    l.mapM f = some (List.replicate l.length a) := by
  induction l with
  | nil => rfl
  | cons i l ih =>
    rw [List.mapM_cons, h i List.mem_cons_self, ih fun j hj => h j (List.mem_cons_of_mem _ hj)]
    rfl

theorem readArguments_emptyStrings (hn : n ≤ 8192) :
    readArguments emptyStrings n 0x100000 0 = some (List.replicate n CString.nil, []) := by
  have hargs := @mapM_replicate (readString emptyStrings 0x100000) CString.nil (List.range n) fun i hi =>
    readString_emptyStrings (Nat.lt_of_lt_of_le (List.mem_range.1 hi) hn)
  rw [List.length_range] at hargs
  rw [readArguments, Int.toNat_natCast, hargs]
  rfl

theorem size_emptyStrings (n : Nat) : argumentsSize (List.replicate n CString.nil) [] = 48 + 9 * n := by
  have hlen : ((List.replicate n CString.nil).flatMap CString.bytes).length = n := by
    rw [List.length_flatMap, List.map_replicate, List.sum_replicate]
    exact Nat.mul_one n
  unfold argumentsSize
  rw [hlen, List.length_replicate, List.length_nil, List.flatMap_nil, List.length_nil]
  omega

theorem copy_emptyStrings (hn : n ≤ 8192) :
    kmemcpyUsersafe emptyStrings (arrayRoom n) 0x100000 0 (argvBytes n) = some true := by
  have hroom : argvBytes (n : Int) ≤ arrayRoom (n : Int) :=
    (argvBytes_le_arrayRoom_iff (by omega) (by omega)).2 ⟨by omega, by omega⟩
  rcases @kmemcpyUsersafe_cases emptyStrings (arrayRoom n) 0x100000 0 (argvBytes n) (Nat.zero_le _) with
    ⟨⟨j, hj, -, hnone⟩, -⟩ | ⟨-, -, hcopy⟩ | ⟨-, hbig, -⟩
  · have hbytes : argvBytes n ≤ 65536 := by
      unfold argvBytes wordSize
      omega
    have hmod : (0x100000 + (0 + j)) % wordSize = 0x100000 + j :=
      (congrArg (· % wordSize) (by omega)).trans (Nat.mod_eq_of_lt (by unfold wordSize; omega))
    rw [hmod, emptyStrings, if_pos (by omega)] at hnone
    cases hnone
  · exact hcopy
  · omega

/-! ## Bounds -/

/-- No access to the arrays and to the new stack is out of bounds: the copies are made, or the thread ends before, and
then `CheckAndPrepare` pushes them for the process at `e`. -/
def ArgumentsInBounds (K : Kernel) (user : UserMemory) (argc : Int) (argv env buffer : Nat) (live : Finset Nat)
    (image : Buffer) (e : Nat) (s : State) : Prop :=
  ∃ c live', copyArguments K user argc argv env buffer live = some (c, live') ∧
    ∀ c' ∈ c, (prepare image e (c'.args.map Prod.fst) (c'.envs.map Prod.fst) s).isSome = true

/-- **The arguments fit**: the array of pointers is as large as its block, and what can be read is not larger than the
stack; or the pointers cannot be read. -/
def ArgumentsFit (user : UserMemory) (argc : Int) (argv env : Nat) : Prop :=
  Faults user (arrayRoom argc) argv 0 (argvBytes argc) ∨
    argvBytes argc ≤ arrayRoom argc ∧ ∀ strings, readArguments user argc argv env = some strings →
      argumentsSize strings.1 strings.2 ≤ 65536

theorem prepare_isSome_iff (h : Inv s roots F) (hr : pmlGetAddr e ∈ roots) (hs : Startable image e s F)
    (args envs : List CString) : (prepare image e args envs s).isSome = true ↔ argumentsSize args envs ≤ 65536 := by
  rw [prepare]
  rcases checkAndPrepare_fits h hr hs args envs with ⟨hbig, hrun⟩ | ⟨hfit, res, hrun, -⟩
  · rw [hrun]
    exact iff_of_false (by simp) (by omega)
  · rw [hrun]
    exact iff_of_true rfl hfit

/-- What is read and pushed in bounds is not larger than the stack. -/
theorem ArgumentsInBounds.size (h : Inv s roots F) (hr : pmlGetAddr e ∈ roots) (hs : Startable image e s F)
    (hcopy : kmemcpyUsersafe user (arrayRoom argc) argv 0 (argvBytes argc) = some true)
    (hin : ArgumentsInBounds K user argc argv env buffer live image e s) {strings : List CString × List CString}
    (hstrings : readArguments user argc argv env = some strings) : argumentsSize strings.1 strings.2 ≤ 65536 := by
  obtain ⟨c, live', hrun, hread, -, -⟩ := copyArguments_read K env buffer live hcopy
  obtain ⟨c', live'', hrun', hall⟩ := hin
  rw [hrun] at hrun'
  obtain ⟨rfl, rfl⟩ := Prod.mk.inj (Option.some.inj hrun')
  rw [← hread] at hstrings
  obtain ⟨c', hc, rfl⟩ := Option.map_eq_some_iff.1 hstrings
  exact (prepare_isSome_iff h hr hs _ _).1 (hall c' hc)

/-- **When the arguments stay in bounds.** -/
theorem arguments_inBounds_iff (h : Inv s roots F) (hr : pmlGetAddr e ∈ roots) (hs : Startable image e s F)
    (K : Kernel) (user : UserMemory) (argc : Int) (argv env buffer : Nat) (live : Finset Nat) :
    ArgumentsInBounds K user argc argv env buffer live image e s ↔ ArgumentsFit user argc argv env := by
  rcases @kmemcpyUsersafe_cases user (arrayRoom argc) argv 0 (argvBytes argc) (Nat.zero_le _) with
    ⟨hfault, hcopy⟩ | ⟨hno, hroom, hcopy⟩ | ⟨hno, hbig, hcopy⟩
  · refine iff_of_true ⟨none, live.erase buffer, ?_, fun _ hc => by cases hc⟩ (Or.inl hfault)
    rw [copyArguments, hcopy]
    rfl
  · obtain ⟨c, live', hrun, hread, -, -⟩ := copyArguments_read K env buffer live hcopy
    rw [Nat.zero_add] at hroom
    constructor
    · exact fun hin => Or.inr ⟨hroom, fun strings hstrings => hin.size h hr hs hcopy hstrings⟩
    · rintro (hfault | ⟨-, hfits⟩)
      · exact absurd hfault hno
      · refine ⟨c, live', hrun, fun c' hc => (prepare_isSome_iff h hr hs _ _).2 (hfits (_, _) ?_)⟩
        rw [← hread, hc]
        rfl
  · refine iff_of_false ?_ ?_
    · rintro ⟨c, live', hrun, -⟩
      rw [copyArguments, hcopy] at hrun
      cases hrun
    · rintro (hfault | ⟨hroom, -⟩)
      · exact hno hfault
      · omega

theorem arguments_inBounds_emptyStrings : ∃ e s, createProcessMap (boot 25 fun _ => 0) = some (e, s) ∧
    ArgumentsInBounds (oneFile userFile.bytes 184) emptyStrings 2 0x100000 0 9 {7, 9} userFile e s := by
  obtain ⟨e, s, F, hcreate, hinv, hs⟩ := startable_userFile
  have hread : readArguments emptyStrings 2 0x100000 0 = some (List.replicate 2 CString.nil, []) :=
    readArguments_emptyStrings (n := 2) (by decide)
  have hroom : argvBytes 2 ≤ arrayRoom 2 := by decide
  refine ⟨e, s, hcreate, (arguments_inBounds_iff hinv List.mem_cons_self hs (oneFile userFile.bytes 184) emptyStrings 2
    0x100000 0 9 {7, 9}).2 (Or.inr ⟨hroom, fun strings hstrings => ?_⟩)⟩
  rw [hread] at hstrings
  rw [← Option.some.inj hstrings, size_emptyStrings]
  decide

/-- **Arguments that do not fit**: 8192 empty strings. -/
theorem arguments_outOfBounds : ∃ e s, createProcessMap (boot 25 fun _ => 0) = some (e, s) ∧
    ¬ ArgumentsInBounds (oneFile userFile.bytes 184) emptyStrings 8192 0x100000 0 9 {7, 9} userFile e s := by
  obtain ⟨e, s, F, hcreate, hinv, hs⟩ := startable_userFile
  refine ⟨e, s, hcreate, fun hin => ?_⟩
  have hsize := hin.size hinv List.mem_cons_self hs (copy_emptyStrings (n := 8192) le_rfl)
    (readArguments_emptyStrings (n := 8192) le_rfl)
  rw [size_emptyStrings] at hsize
  exact absurd hsize (by decide)

/-! ## Calls that fail -/

theorem loadImage_none_iff {s₁ : State} :
    loadImage image e s = some (none, s₁) ↔ checkMagic image 0 magic = some false ∧ s₁ = s := by
  rw [loadImage]
  cases hmagic : checkMagic image 0 magic with
  | none => simp
  | some b =>
    cases b with
    | false => simp [eq_comm]
    | true =>
      refine iff_of_false (fun h => ?_) (by simp)
      simp only [Option.bind_eq_bind, Option.bind_some, if_true] at h
      obtain ⟨_, _, h⟩ := Option.bind_eq_some_iff.1 h
      obtain ⟨_, _, h⟩ := Option.bind_eq_some_iff.1 h
      obtain ⟨_, _, h⟩ := Option.bind_eq_some_iff.1 h
      cases (Prod.mk.inj (Option.some.inj h)).1

/-- The file is refused for its first bytes, and nothing is done then. -/
theorem prepare_none_iff {args envs : List CString} {s₁ : State} :
    prepare image e args envs s = some (none, s₁) ↔ checkMagic image 0 magic = some false ∧ s₁ = s := by
  rw [prepare, checkAndPrepare, prepareImage]
  simp only [Option.bind_eq_bind, Option.bind_eq_some_iff]
  constructor
  · rintro ⟨⟨img, s₂⟩, ⟨⟨progInfo, s₃⟩, hload, himg⟩, h⟩
    cases img with
    | some img =>
      obtain ⟨_, _, h⟩ := Option.bind_eq_some_iff.1 h
      cases (Prod.mk.inj (Option.some.inj h)).1
    | none =>
      obtain ⟨-, rfl⟩ := Prod.mk.inj (Option.some.inj h)
      cases progInfo with
      | some progInfo =>
        obtain ⟨_, _, himg⟩ := Option.bind_eq_some_iff.1 himg
        obtain ⟨_, _, himg⟩ := Option.bind_eq_some_iff.1 himg
        cases (Prod.mk.inj (Option.some.inj himg)).1
      | none =>
        obtain ⟨-, rfl⟩ := Prod.mk.inj (Option.some.inj himg)
        exact loadImage_none_iff.1 hload
  · rintro ⟨hmagic, rfl⟩
    exact ⟨(none, s₁), ⟨(none, s₁), loadImage_none_iff.2 ⟨hmagic, rfl⟩, rfl⟩, rfl⟩

/-- The thread and the live blocks of the heap. -/
def Unchanged (w w' : World) : Prop := w'.thread = w.thread ∧ w'.live = w.live

/-- An error before the file is read, and the heap then. -/
def earlyError (K : Kernel) (w : World) : Option (Int × Finset Nat) :=
  match K.stat w.live with
  | (.error error, live) => some (error, live)
  | (.ok stats, live) =>
    if mayExecute w.thread stats then
      match K.openFile live with
      | (.error error, live) => some (error, live)
      | (.ok _, _) => none
    else some (ErrorPermissionDenied, live)

/-- The bytes of the file. -/
def fileImage (K : Kernel) (stats : NodeStats) (file : FileDescriptor) (live : Finset Nat) : Buffer :=
  ⟨(K.read file stats.size (insert (K.alloc stats.size live) live)).1, stats.size⟩

/-- **A file that is opened and then refused**, while the arguments can be read and there is memory for a process. -/
structure Refused (K : Kernel) (user : UserMemory) (command : Nat) (argc : Int) (argv env : Nat) (w : World)
    (stats : NodeStats) (live₁ : Finset Nat) (file : FileDescriptor) (live₂ : Finset Nat) : Prop where
  stat : K.stat w.live = (.ok stats, live₁)
  may : mayExecute w.thread stats
  openFile : K.openFile live₁ = (.ok file, live₂)
  name : (kstrncpy user 255 command).isSome = true
  pointers : kmemcpyUsersafe user (arrayRoom argc) argv 0 (argvBytes argc) = some true
  strings : (readArguments user argc argv env).isSome = true
  notELF : checkMagic (fileImage K stats file live₂) 0 magic = some false
  memory : ∃ e m m', createProcessMap w.memory = some (e, m) ∧ freeProcessMap e m = some m'

/-- **A file that is refused leaves blocks behind.** -/
theorem Refused.leaks {stats : NodeStats} {live₁ live₂ : Finset Nat} {file : FileDescriptor}
    (h : Refused K user command argc argv env w stats live₁ file live₂) : ∃ name w',
      kstrncpy user 255 command = some name ∧
      loadFile K user command argc argv env stats file { w with live := live₂ } =
        some (.returned ErrorInvalidPath, w') ∧
      w'.thread = { w.thread with name := name, exePath := file.path.take 255 } ∧ w'.live ≠ w.live := by
  obtain ⟨name, hname⟩ := Option.isSome_iff_exists.1 h.name
  obtain ⟨buffer, hbuffer⟩ : ∃ buffer, K.alloc stats.size live₂ = buffer := ⟨_, rfl⟩
  obtain ⟨⟨bytes, live₃⟩, hread⟩ : ∃ r, K.read file stats.size (insert buffer live₂) = r := ⟨_, rfl⟩
  obtain ⟨c, live₄, hcopy, hstrings, hsub, halloc⟩ :=
    copyArguments_read K env buffer (K.close file live₃) h.pointers
  obtain ⟨a, ha⟩ : ∃ a, K.alloc (arrayRoom argc) (K.close file live₃) = a := ⟨_, rfl⟩
  obtain ⟨strings, hread'⟩ := Option.isSome_iff_exists.1 h.strings
  rw [hread'] at hstrings
  obtain ⟨copied, rfl, -⟩ := Option.map_eq_some_iff.1 hstrings
  obtain ⟨e, m, m', hcreate, hfree⟩ := h.memory
  have hmagic : checkMagic ⟨bytes, stats.size⟩ 0 magic = some false := by
    have hmagic := h.notELF
    rw [fileImage, hbuffer, hread] at hmagic
    exact hmagic
  have hprepare : prepare ⟨bytes, stats.size⟩ e (copied.args.map Prod.fst) (copied.envs.map Prod.fst) m =
      some (none, m) := prepare_none_iff.2 ⟨hmagic, rfl⟩
  have hlive₁ : w.live ⊆ live₁ := by
    have hkeeps := K.stat_keeps w.live
    rwa [h.stat] at hkeeps
  have hlive₂ : live₁ ⊆ live₂ := by
    have hkeeps := K.open_keeps live₁
    rwa [h.openFile] at hkeeps
  have hlive₃ : insert buffer live₂ ⊆ live₃ := by
    have hkeeps := K.read_keeps file stats.size (insert buffer live₂)
    rwa [hread] at hkeeps
  have hfile : (K.openFile live₁).1 = .ok file := by rw [h.openFile]
  have hclose := K.close_keeps live₁ file hfile live₃
  rw [h.openFile] at hclose
  have hbuffer₃ : buffer ∈ K.close file live₃ :=
    hclose buffer (hlive₃ (Finset.mem_insert_self _ _)) (Or.inr (hbuffer ▸ K.alloc_fresh stats.size live₂))
  have hfresh : a ∉ K.close file live₃ := ha ▸ K.alloc_fresh _ _
  have hleak : a ∈ live₄.erase buffer :=
    Finset.mem_erase.2 ⟨fun heq => hfresh (heq ▸ hbuffer₃), ha ▸ halloc⟩
  have hnew : a ∉ w.live := fun hmem =>
    hfresh (hclose a (hlive₃ (Finset.mem_insert_of_mem (hlive₂ (hlive₁ hmem)))) (Or.inl (hlive₁ hmem)))
  refine ⟨name, ⟨{ w.thread with name := name, exePath := file.path.take 255 }, live₄.erase buffer, m'⟩, hname, ?_,
    rfl, fun heq => hnew (heq ▸ hleak)⟩
  rw [loadFile]
  simp only [hbuffer, hread, hname, hcopy, Option.bind_eq_bind, Option.bind_some, startImage, hcreate, hprepare, hfree]

/-- What is copied was there to be copied. -/
theorem copyArguments_some {c : Copied} (h : copyArguments K user argc argv env buffer live = some (some c, live')) :
    kmemcpyUsersafe user (arrayRoom argc) argv 0 (argvBytes argc) = some true ∧
      (readArguments user argc argv env).isSome = true := by
  have hcopy : kmemcpyUsersafe user (arrayRoom argc) argv 0 (argvBytes argc) = some true := by
    rw [copyArguments] at h
    obtain ⟨b, hb, h⟩ := Option.bind_eq_some_iff.1 h
    cases b with
    | true => exact hb
    | false => cases (Prod.mk.inj (Option.some.inj h)).1
  obtain ⟨c', live'', hrun, hread, -, -⟩ := copyArguments_read K env buffer live hcopy
  rw [h] at hrun
  obtain ⟨rfl, rfl⟩ := Prod.mk.inj (Option.some.inj hrun)
  exact ⟨hcopy, by rw [← hread]; rfl⟩

/-- A call that comes to the file returns only if it is refused. -/
theorem loadFile_returned {stats : NodeStats} {live₁ live₂ : Finset Nat} {file : FileDescriptor} {error : Int}
    {w' : World} (hstat : K.stat w.live = (.ok stats, live₁)) (hmay : mayExecute w.thread stats)
    (hopen : K.openFile live₁ = (.ok file, live₂))
    (hrun : loadFile K user command argc argv env stats file { w with live := live₂ } = some (.returned error, w')) :
    Refused K user command argc argv env w stats live₁ file live₂ := by
  rw [loadFile] at hrun
  dsimp only at hrun
  cases hname : kstrncpy user 255 command with
  | none =>
    rw [hname] at hrun
    cases (Prod.mk.inj (Option.some.inj hrun)).1
  | some name =>
    rw [hname] at hrun
    obtain ⟨⟨c, live₄⟩, hcopy, hrun⟩ := Option.bind_eq_some_iff.1 hrun
    cases c with
    | none => cases (Prod.mk.inj (Option.some.inj hrun)).1
    | some c =>
      obtain ⟨hpointers, hstrings⟩ := copyArguments_some hcopy
      obtain ⟨⟨e, m⟩, hcreate, hrun⟩ := Option.bind_eq_some_iff.1 hrun
      obtain ⟨⟨regs, m₁⟩, hprepare, hend⟩ := Option.bind_eq_some_iff.1 hrun
      cases regs with
      | some regs =>
        obtain ⟨_, _, hend⟩ := Option.bind_eq_some_iff.1 hend
        cases (Prod.mk.inj (Option.some.inj hend)).1
      | none =>
        obtain ⟨hmagic, rfl⟩ := prepare_none_iff.1 hprepare
        obtain ⟨m', hfree, -⟩ := Option.bind_eq_some_iff.1 hend
        exact ⟨hstat, hmay, hopen, by rw [hname]; rfl, hpointers, hstrings, hmagic, e, m₁, m', hcreate, hfree⟩

/-- The pointers are those of user space. -/
def UserPointers (command argv env : Nat) : Prop :=
  isUserPtr command = true ∧ isUserPtr argv = true ∧ (env ≠ 0 → isUserPtr env = true)

/-- A call with such pointers, up to the read of the file. -/
theorem doExec_cases (huser : UserPointers command argv env) :
    (∃ error live, earlyError K w = some (error, live) ∧
      doExec K user command argc argv env w = some (.returned error, { w with live := live })) ∨
    earlyError K w = none ∧ ∃ stats live₁ file live₂, K.stat w.live = (.ok stats, live₁) ∧ mayExecute w.thread stats ∧
      K.openFile live₁ = (.ok file, live₂) ∧
      doExec K user command argc argv env w =
        loadFile K user command argc argv env stats file { w with live := live₂ } := by
  have hcheck : (!isUserPtr command || !isUserPtr argv || (env != 0 && !isUserPtr env)) = false := by
    obtain ⟨hcommand, hargv, henv⟩ := huser
    by_cases hnull : env = 0
    · simp [hcommand, hargv, hnull]
    · simp [hcommand, hargv, henv hnull]
  unfold earlyError doExec
  rw [hcheck]
  rcases hstat : K.stat w.live with ⟨error | stats, live₁⟩
  · exact .inl ⟨error, live₁, rfl, rfl⟩
  · by_cases hmay : mayExecute w.thread stats
    · rcases hopen : K.openFile live₁ with ⟨error | file, live₂⟩
      · exact .inl ⟨error, live₂, by simp [hmay, hopen], by simp [hmay, hopen]⟩
      · exact .inr ⟨by simp [hmay, hopen], stats, live₁, file, live₂, rfl, hmay, hopen, by simp [hmay, hopen]⟩
    · exact .inl ⟨ErrorPermissionDenied, live₁, by simp [hmay], by simp [hmay]⟩

theorem Refused.no_earlyError {stats : NodeStats} {live₁ live₂ : Finset Nat} {file : FileDescriptor}
    (h : Refused K user command argc argv env w stats live₁ file live₂) : earlyError K w = none := by
  rw [earlyError, h.stat]
  simp only [if_pos h.may, h.openFile]

/-- The file `####` is refused, for a thread with the name `i` and one block on the heap. -/
theorem refused_hashes : Refused (oneFile (fun _ => 0x23) 4) emptyStrings 0x200000 2 0x100000 0 firstWorld
    ⟨0, 0, ⟨5, 5, 5, 0⟩, 4⟩ {7} ⟨8, [0x61]⟩ {8, 7} where
  stat := rfl
  may := .inl rfl
  openFile := rfl
  name := by decide +kernel
  pointers := by decide +kernel
  strings := by
    have hread : readArguments emptyStrings 2 0x100000 0 = some (List.replicate 2 CString.nil, []) :=
      readArguments_emptyStrings (n := 2) (by decide)
    rw [hread]
    rfl
  notELF := by decide +kernel
  memory := by
    obtain ⟨e, m, F, hcreate, hinv, -⟩ := boot_create (n := 24) (by decide) fun _ => 0
    obtain ⟨m', _, hfree, -⟩ := freeProcessMap_spec hinv List.mem_cons_self
    exact ⟨e, m, m', hcreate, hfree⟩

end ChenixOS.Process
