import Mathlib.Data.List.Nodup
import Mathlib.Order.Bounds.Defs
import Mathlib.Logic.Function.Basic

/-!
# Tables of file descriptors

The descriptors of a process (task/Scheduler.cpp) are a vector of slots that is kept in the order of their ids.
A closed descriptor stays in the vector as a slot with `sysDesc` zero, and a new one is put where there is a
gap in the ids.

**Numbering.** The ids of a table stay in order and not negative in every run exactly if no copy puts a slot
with a negative id into it, and a new descriptor gets the smallest id that is not open exactly if no closed
slot comes before the first gap (`descriptors_numbered`).

**Copies.** `ThreadReplaceFileDescriptor` finds both slots by pointers and then may insert a slot, which moves
what the pointers refer to. A copy is right as long as it inserts nothing before the source or does not insert
(`descriptor_copied`).
-/

namespace ChenixOS.FileDescriptors

/-! ## The vector -/

structure ThreadFileDescriptor where
  id : Int
  sysDesc : Nat
  deriving DecidableEq, Repr

/-- `std::vector<ThreadFileDescriptor>` -/
structure Fds where
  slots : List ThreadFileDescriptor
  capacity : Nat

/-- There is room for one more slot. -/
def Fds.HasRoom (fds : Fds) : Prop := fds.slots.length < fds.capacity

instance (fds : Fds) : Decidable fds.HasRoom := inferInstanceAs (Decidable (_ < _))

/-- `insert` shifts the later slots or, without room, moves all of them into a new block, whose capacity the
library chooses. -/
def Fds.insert (grow : Nat → Nat) (fds : Fds) (i : Nat) (fd : ThreadFileDescriptor) : Fds :=
  ⟨fds.slots.take i ++ fd :: fds.slots.drop i, if fds.HasRoom then fds.capacity else grow fds.slots.length⟩

/-- `sysDesc`, through a pointer to the slot at an index. -/
def Fds.sysDesc (fds : Fds) (i : Nat) : Nat := (fds.slots[i]?.map ThreadFileDescriptor.sysDesc).getD 0

def Fds.setSysDesc (fds : Fds) (i sysDesc : Nat) : Fds :=
  { fds with slots := fds.slots.modify i fun fd => { fd with sysDesc } }

/-- A table, and the `refCount` of each `FileDescriptor`; that of a deleted one is zero. -/
structure State where
  fds : Fds
  refs : Nat → Nat

/-- `VFS::AddRef` -/
def addRef (desc : Nat) (refs : Nat → Nat) : Nat → Nat :=
  if desc = 0 then refs else Function.update refs desc (refs desc + 1)

/-- `VFS::Close` -/
def close (desc : Nat) (refs : Nat → Nat) : Nat → Nat :=
  if desc = 0 then refs else Function.update refs desc (refs desc - 1)

inductive Code
  | ok
  | errorInvalidFD
  deriving DecidableEq, Repr

/-! ## The functions -/

/-- The loop of `FindFreeFD`, after a slot with id `lastFD`: the index and the id of the new slot. -/
def freeIndex : Int → List ThreadFileDescriptor → Nat × Int
  | lastFD, [] => (0, lastFD + 1)
  | lastFD, a :: slots =>
      if a.id ≠ lastFD + 1 then (0, lastFD + 1)
      else ((freeIndex a.id slots).1 + 1, (freeIndex a.id slots).2)

/-- `FindFreeFD`: the index of the new slot. -/
def findFreeFD (grow : Nat → Nat) (fds : Fds) : Nat × Fds :=
  let free := freeIndex (-1) fds.slots
  (free.1, fds.insert grow free.1 ⟨free.2, 0⟩)

def threadAddFileDescriptor (grow : Nat → Nat) (sysDesc : Nat) (s : State) : Int × State :=
  let fd := findFreeFD grow s.fds
  let fds := fd.2.setSysDesc fd.1 sysDesc
  ((fds.slots[fd.1]?.map ThreadFileDescriptor.id).getD 0, { s with fds })

/-- The last slot with an id: the loop goes on after the first one. -/
def lastIndex (id : Int) : List ThreadFileDescriptor → Option Nat
  | [] => none
  | fd :: slots =>
    match lastIndex id slots with
    | some i => some (i + 1)
    | none => if fd.id = id then some 0 else none

/-- The end of `ThreadReplaceFileDescriptor`: `newSysDesc` is what `newFD->sysDesc` reads. -/
def assign (oldFD newSysDesc : Nat) (s : State) : State :=
  if s.fds.sysDesc oldFD = 0 then ⟨s.fds.setSysDesc oldFD newSysDesc, addRef newSysDesc s.refs⟩
  else if s.fds.sysDesc oldFD = newSysDesc then s
  else ⟨s.fds.setSysDesc oldFD newSysDesc, addRef newSysDesc (close (s.fds.sysDesc oldFD) s.refs)⟩

/-- `newFD` keeps pointing to the place where the slot was: after an insertion another slot may be there, and
after a reallocation, `stale`. -/
def threadReplaceFileDescriptor (grow : Nat → Nat) (stale : Nat) (oldPDesc newPDesc : Int) (s : State) :
    Code × State :=
  if oldPDesc = newPDesc then (.ok, s)
  else
    match lastIndex newPDesc s.fds.slots with
    | none => (.errorInvalidFD, s)
    | some newFD =>
      if s.fds.sysDesc newFD = 0 then (.errorInvalidFD, s)
      else
        match lastIndex oldPDesc s.fds.slots with
        | some oldFD => (.ok, assign oldFD (s.fds.sysDesc newFD) s)
        | none =>
          let a := s.fds.slots.findIdx fun fd => oldPDesc < fd.id
          let fds := s.fds.insert grow a ⟨oldPDesc, 0⟩
          (.ok, assign a (if s.fds.HasRoom then fds.sysDesc newFD else stale) { s with fds })

def threadCloseFileDescriptor (desc : Int) (s : State) : Code × State :=
  match s.fds.slots.findIdx? fun fd => fd.id = desc with
  | none => (.errorInvalidFD, s)
  | some a =>
    if s.fds.sysDesc a = 0 then (.errorInvalidFD, s)
    else (.ok, ⟨s.fds.setSysDesc a 0, close (s.fds.sysDesc a) s.refs⟩)

/-- `ThreadGetSystemFileDescriptor`: zero if the id is not open. -/
def getSysDesc (slots : List ThreadFileDescriptor) (desc : Int) : Nat :=
  match slots.find? fun fd => fd.id = desc with
  | none => 0
  | some fd => fd.sysDesc

/-! ## Slots -/

variable {slots xs ys : List ThreadFileDescriptor} {fds : Fds} {fd : ThreadFileDescriptor} {grow : Nat → Nat}
  {id dst src : Int} {d : Nat} {s s' : State}

theorem Fds.slots_insert (h : fds.slots = xs ++ ys) :
    (fds.insert grow xs.length fd).slots = xs ++ fd :: ys := by
  unfold Fds.insert
  rw [h, List.take_left, List.drop_left]

theorem Fds.sysDesc_eq (h : fds.slots = xs ++ fd :: ys) : fds.sysDesc xs.length = fd.sysDesc := by
  unfold Fds.sysDesc
  rw [h]
  simp

theorem Fds.slots_setSysDesc (h : fds.slots = xs ++ fd :: ys) :
    (fds.setSysDesc xs.length d).slots = xs ++ { fd with sysDesc := d } :: ys := by
  unfold Fds.setSysDesc
  rw [h, List.modify_eq_take_drop, List.take_left, List.drop_left]
  rfl

/-- The ids of a table are different. -/
def Distinct (slots : List ThreadFileDescriptor) : Prop := (slots.map ThreadFileDescriptor.id).Nodup

theorem Distinct.middle (h : Distinct (xs ++ fd :: ys)) : ∀ k ∈ xs ++ ys, k.id ≠ fd.id := by
  unfold Distinct at h
  rw [List.map_append, List.map_cons, List.nodup_middle, List.nodup_cons, ← List.map_append] at h
  rintro k hk e
  exact h.1 (List.mem_map.2 ⟨k, hk, e⟩)

/-- What is looked up where one slot has a known place. -/
theorem getSysDesc_middle (h : ∀ k ∈ xs ++ ys, k.id ≠ fd.id) :
    getSysDesc (xs ++ fd :: ys) id = if id = fd.id then fd.sysDesc else getSysDesc (xs ++ ys) id := by
  unfold getSysDesc
  by_cases hid : id = fd.id
  · subst hid
    have hxs : (xs.find? fun k => decide (k.id = fd.id)) = none :=
      List.find?_eq_none.2 fun k hk => by simpa using h k (List.mem_append_left _ hk)
    rw [List.find?_append, hxs]
    simp
  · rw [if_neg hid, List.find?_append, List.find?_append, List.find?_cons_of_neg]
    simpa using Ne.symm hid

theorem getSysDesc_of_not_mem (h : ∀ k ∈ slots, k.id ≠ id) : getSysDesc slots id = 0 := by
  have hnone : (slots.find? fun k => decide (k.id = id)) = none :=
    List.find?_eq_none.2 fun k hk => by simpa using h k hk
  unfold getSysDesc
  rw [hnone]

theorem getSysDesc_of_mem (h : Distinct slots) (hfd : fd ∈ slots) : getSysDesc slots fd.id = fd.sysDesc := by
  obtain ⟨xs, ys, rfl⟩ := List.append_of_mem hfd
  rw [getSysDesc_middle h.middle, if_pos rfl]

theorem lastIndex_eq_none : lastIndex id slots = none ↔ ∀ k ∈ slots, k.id ≠ id := by
  induction slots with
  | nil => simp [lastIndex]
  | cons fd slots ih =>
    rw [List.forall_mem_cons, ← ih]
    cases hrest : lastIndex id slots <;> simp [lastIndex, hrest]

theorem lastIndex_eq_some {i : Nat} (h : lastIndex id slots = some i) :
    ∃ xs fd ys, slots = xs ++ fd :: ys ∧ xs.length = i ∧ fd.id = id := by
  induction slots generalizing i with
  | nil => cases h
  | cons fd slots ih =>
    unfold lastIndex at h
    cases hrest : lastIndex id slots with
    | none =>
      rw [hrest] at h
      dsimp only at h
      split_ifs at h with hid
      cases h
      exact ⟨[], fd, slots, rfl, rfl, hid⟩
    | some j =>
      rw [hrest] at h
      cases h
      obtain ⟨xs, fd', ys, rfl, rfl, hid⟩ := ih hrest
      exact ⟨fd :: xs, fd', ys, rfl, rfl, hid⟩

/-! ## Copies -/

/-- **A copy**: the id `dst` refers to what `src` refers to, the references are counted, and nothing else
changes. -/
structure Copied (s s' : State) (dst src : Int) : Prop where
  ids : ∀ id, getSysDesc s'.fds.slots id = getSysDesc s.fds.slots (if id = dst then src else id)
  same : getSysDesc s.fds.slots dst = getSysDesc s.fds.slots src → s'.refs = s.refs
  grown : getSysDesc s.fds.slots dst ≠ getSysDesc s.fds.slots src →
    s'.refs (getSysDesc s.fds.slots src) = s.refs (getSysDesc s.fds.slots src) + 1
  lost : getSysDesc s.fds.slots dst ≠ getSysDesc s.fds.slots src → getSysDesc s.fds.slots dst ≠ 0 →
    s'.refs (getSysDesc s.fds.slots dst) = s.refs (getSysDesc s.fds.slots dst) - 1
  others : ∀ d, d ≠ getSysDesc s.fds.slots src → d ≠ getSysDesc s.fds.slots dst → s'.refs d = s.refs d

/-- The end of the function, at a slot with a known place. -/
theorem assign_copied (hslots : s.fds.slots = xs ++ fd :: ys) (hids : Distinct s.fds.slots)
    (hd : getSysDesc s.fds.slots src = d) (hopen : d ≠ 0) :
    Copied s (assign xs.length d s) fd.id src := by
  have hmiddle := Distinct.middle (hslots ▸ hids)
  have hget : ∀ id, getSysDesc s.fds.slots id = if id = fd.id then fd.sysDesc else getSysDesc (xs ++ ys) id :=
    fun id => by rw [hslots, getSysDesc_middle hmiddle]
  have hold : getSysDesc s.fds.slots fd.id = fd.sysDesc := by rw [hget, if_pos rfl]
  have hset : ∀ id, getSysDesc (s.fds.setSysDesc xs.length d).slots id =
      getSysDesc s.fds.slots (if id = fd.id then src else id) := by
    intro id
    have hnew : getSysDesc (xs ++ { fd with sysDesc := d } :: ys) id =
        if id = fd.id then d else getSysDesc (xs ++ ys) id := getSysDesc_middle hmiddle
    rw [Fds.slots_setSysDesc hslots, hnew]
    by_cases hid : id = fd.id
    · rw [if_pos hid, if_pos hid, hd]
    · rw [if_neg hid, if_neg hid, hget, if_neg hid]
  unfold assign
  rw [Fds.sysDesc_eq hslots]
  by_cases hclosed : fd.sysDesc = 0
  · rw [if_pos hclosed]
    refine ⟨hset, fun e => ?_, fun _ => ?_, fun _ hne => ?_, fun d' hne _ => ?_⟩
    · rw [hold, hd, hclosed] at e
      exact absurd e.symm hopen
    · simp [addRef, hopen, hd]
    · exact absurd (hold.trans hclosed) hne
    · rw [hd] at hne
      simp [addRef, hopen, hne]
  · rw [if_neg hclosed]
    by_cases hsame : fd.sysDesc = d
    · rw [if_pos hsame]
      refine ⟨fun id => ?_, fun _ => rfl, fun hne => ?_, fun hne _ => ?_, fun _ _ _ => rfl⟩
      · by_cases hid : id = fd.id
        · rw [if_pos hid, hid, hold, hd, hsame]
        · rw [if_neg hid]
      · exact absurd (by rw [hold, hd, hsame]) hne
      · exact absurd (by rw [hold, hd, hsame]) hne
    · rw [if_neg hsame]
      refine ⟨hset, fun e => ?_, fun _ => ?_, fun _ _ => ?_, fun d' hne hne' => ?_⟩
      · rw [hold, hd] at e
        exact absurd e hsame
      · rw [hd]
        simp [addRef, close, hopen, hclosed, Ne.symm hsame]
      · rw [hold]
        simp [addRef, close, hopen, hclosed, hsame]
      · rw [hd] at hne
        rw [hold] at hne'
        simp [addRef, close, hopen, hclosed, hne, hne']

theorem Copied.of_eq {s₁ : State} (h : Copied s₁ s' dst src)
    (hget : ∀ id, getSysDesc s₁.fds.slots id = getSysDesc s.fds.slots id) (hrefs : s₁.refs = s.refs) :
    Copied s s' dst src := by
  obtain ⟨hids, hsame, hgrown, hlost, hothers⟩ := h
  simp only [hget, hrefs] at hids hsame hgrown hlost hothers
  exact ⟨hids, hsame, hgrown, hlost, hothers⟩

/-- Where a new slot comes: before the first one with a greater id. -/
theorem exists_split (id : Int) (slots : List ThreadFileDescriptor) :
    ∃ us vs, slots = us ++ vs ∧ us = slots.takeWhile (fun fd => ¬ id < fd.id) ∧
      slots.findIdx (fun fd => id < fd.id) = us.length ∧ (∀ k ∈ us, k.id ≤ id) ∧
      ∀ v ∈ vs.head?, id < v.id := by
  induction slots with
  | nil => exact ⟨[], [], rfl, rfl, rfl, by simp, by simp⟩
  | cons fd slots ih =>
    by_cases hlt : id < fd.id
    · refine ⟨[], fd :: slots, rfl, ?_, ?_, by simp, by simpa using hlt⟩
      · rw [List.takeWhile_cons_of_neg (by simpa using hlt)]
      · rw [List.findIdx_cons, decide_eq_true hlt]
        rfl
    · obtain ⟨us, vs, rfl, hus, hidx, hbelow, habove⟩ := ih
      refine ⟨fd :: us, vs, rfl, ?_, ?_, fun k hk => ?_, habove⟩
      · rw [List.takeWhile_cons_of_pos (by simpa using hlt), ← hus]
      · rw [List.findIdx_cons, decide_eq_false hlt, hidx]
        rfl
      · obtain rfl | hk := List.mem_cons.1 hk
        · omega
        · exact hbelow k hk

/-- The slot of an open descriptor. -/
theorem exists_slot (hids : Distinct slots) (hopen : getSysDesc slots src ≠ 0) :
    ∃ xs fd ys, slots = xs ++ fd :: ys ∧ lastIndex src slots = some xs.length ∧ fd.id = src ∧
      fd.sysDesc = getSysDesc slots src := by
  cases hindex : lastIndex src slots with
  | none => exact absurd (getSysDesc_of_not_mem (lastIndex_eq_none.1 hindex)) hopen
  | some i =>
    obtain ⟨xs, fd, ys, hslots, rfl, rfl⟩ := lastIndex_eq_some hindex
    refine ⟨xs, fd, ys, hslots, rfl, rfl, ?_⟩
    rw [getSysDesc_of_mem hids (by simp [hslots])]

/-- **`ThreadReplaceFileDescriptor`** does nothing where both ids are the same, fails where the source is not
open, and copies the source where the destination has a slot, or gets one behind that of the source with
room for it. -/
theorem descriptor_copied (grow : Nat → Nat) (stale : Nat) (hids : Distinct s.fds.slots) :
    threadReplaceFileDescriptor grow stale dst dst s = (.ok, s) ∧
      (dst ≠ src → getSysDesc s.fds.slots src = 0 →
        threadReplaceFileDescriptor grow stale dst src s = (.errorInvalidFD, s)) ∧
      (dst ≠ src → getSysDesc s.fds.slots src ≠ 0 →
        ((∃ fd ∈ s.fds.slots, fd.id = dst) ∨
          s.fds.HasRoom ∧ ∃ fd ∈ s.fds.slots.takeWhile fun fd => ¬ dst < fd.id, fd.id = src) →
        ∃ s', threadReplaceFileDescriptor grow stale dst src s = (.ok, s') ∧ Copied s s' dst src) := by
  refine ⟨if_pos rfl, fun hne hclosed => ?_, fun hne hopen hplace => ?_⟩
  · unfold threadReplaceFileDescriptor
    rw [if_neg hne]
    cases hindex : lastIndex src s.fds.slots with
    | none => rfl
    | some i =>
      obtain ⟨xs, fd, ys, hslots, rfl, rfl⟩ := lastIndex_eq_some hindex
      have hzero : fd.sysDesc = 0 := by rw [← getSysDesc_of_mem hids (by simp [hslots]), hclosed]
      have hread : s.fds.sysDesc xs.length = 0 := (Fds.sysDesc_eq hslots).trans hzero
      simp only [hread, if_true]
  · obtain ⟨xs, fd, ys, hslots, hindex, rfl, hfd⟩ := exists_slot hids hopen
    have hread : s.fds.sysDesc xs.length = fd.sysDesc := Fds.sysDesc_eq hslots
    rw [← hfd] at hopen
    unfold threadReplaceFileDescriptor
    rw [if_neg hne, hindex]
    simp only [hread, hopen, if_false]
    cases hdst : lastIndex dst s.fds.slots with
    | some i =>
      obtain ⟨us, old, vs, hslots', rfl, rfl⟩ := lastIndex_eq_some hdst
      exact ⟨_, rfl, assign_copied hslots' hids hfd.symm hopen⟩
    | none =>
      have hnew := lastIndex_eq_none.1 hdst
      obtain ⟨hroom, src', hsrc', hid⟩ := hplace.resolve_left fun ⟨k, hk, hid⟩ => hnew k hk hid
      obtain ⟨us, vs, hsplit, hus, ha, -⟩ := exists_split dst s.fds.slots
      rw [← hus] at hsrc'
      -- the slot of the source comes before the new one, so the pointer still refers to it
      obtain ⟨zs, rfl⟩ : ∃ zs, us = xs ++ fd :: zs := by
        have hmiddle := Distinct.middle (hslots ▸ hids)
        obtain ⟨zs, rfl, hzs⟩ | ⟨zs, rfl, hzs⟩ := List.append_eq_append_iff.1 (hsplit.symm.trans hslots)
        · exact absurd hid (hmiddle src' (by simp [hsrc']))
        · cases zs with
          | nil =>
            rw [List.append_nil] at hsrc'
            exact absurd hid (hmiddle src' (by simp [hsrc']))
          | cons z zs =>
            obtain ⟨rfl, -⟩ := List.cons.inj hzs
            exact ⟨zs, rfl⟩
      have hinserted : (s.fds.insert grow (xs ++ fd :: zs).length ⟨dst, 0⟩).slots =
          xs ++ fd :: zs ++ ⟨dst, 0⟩ :: vs := Fds.slots_insert hsplit
      have hread' : (s.fds.insert grow (xs ++ fd :: zs).length ⟨dst, 0⟩).sysDesc xs.length = fd.sysDesc :=
        Fds.sysDesc_eq (by rw [hinserted, List.append_assoc, List.cons_append])
      simp only [ha, hroom, if_true, hread']
      have hmiddle : ∀ k ∈ (xs ++ fd :: zs) ++ vs, k.id ≠ dst := hsplit ▸ hnew
      have hget : ∀ id, getSysDesc (s.fds.insert grow (xs ++ fd :: zs).length ⟨dst, 0⟩).slots id =
          getSysDesc s.fds.slots id := by
        intro id
        rw [hinserted, getSysDesc_middle hmiddle, hsplit]
        split_ifs with hid
        · rw [hid, getSysDesc_of_not_mem hmiddle]
        · rfl
      have hids' : Distinct (s.fds.insert grow (xs ++ fd :: zs).length ⟨dst, 0⟩).slots := by
        unfold Distinct at hids ⊢
        rw [hinserted, List.map_append, List.map_cons, List.nodup_middle, ← List.map_append, ← hsplit]
        refine List.nodup_cons.2 ⟨fun hmem => ?_, hids⟩
        obtain ⟨k, hk, e⟩ := List.mem_map.1 hmem
        exact hnew k hk e
      have hcopied := @assign_copied (xs ++ fd :: zs) vs ⟨dst, 0⟩ fd.id fd.sysDesc
        ⟨s.fds.insert grow (xs ++ fd :: zs).length ⟨dst, 0⟩, s.refs⟩ hinserted hids'
        ((hget fd.id).trans hfd.symm) hopen
      exact ⟨_, rfl, hcopied.of_eq hget rfl⟩

/-- Standard output, at the descriptor opened last. -/
def stdoutTable : State := ⟨⟨[⟨0, 5⟩, ⟨1, 6⟩, ⟨2, 7⟩, ⟨3, 8⟩], 4⟩, fun _ => 1⟩

theorem descriptor_copied_stdout : ∃ s', threadReplaceFileDescriptor (· + 1) 0 1 3 stdoutTable = (.ok, s') ∧
    getSysDesc s'.fds.slots 1 = 8 ∧ s'.refs 8 = 2 ∧ s'.refs 6 = 0 := by
  have hids : Distinct stdoutTable.fds.slots := by
    unfold Distinct
    decide
  have hcopy := (@descriptor_copied 1 3 stdoutTable (· + 1) 0 hids).2.2
  obtain ⟨s', hrun, hcopied⟩ := hcopy (by decide) (by decide) (.inl ⟨⟨1, 6⟩, by decide, rfl⟩)
  exact ⟨s', hrun, hcopied.ids 1, hcopied.grown (by decide), hcopied.lost (by decide) (by decide)⟩

/-- Copying a closed descriptor to itself succeeds; and where the new slot comes before that of the source,
the copy is made of another slot, or with a full vector of whatever is in the old block. -/
theorem copy_reads_other_slot :
    (∀ s : State, threadReplaceFileDescriptor (· + 1) 0 7 7 s = (.ok, s)) ∧
      (∃ s', threadReplaceFileDescriptor (· + 1) 0 1 3 ⟨⟨[⟨0, 5⟩, ⟨2, 6⟩, ⟨3, 8⟩], 4⟩, fun _ => 1⟩ = (.ok, s') ∧
        getSysDesc s'.fds.slots 1 = 6 ∧ getSysDesc s'.fds.slots 3 = 8 ∧ s'.refs 8 = 1) ∧
      ∀ stale, ∃ s', threadReplaceFileDescriptor (· + 1) stale 1 0 ⟨⟨[⟨0, 5⟩], 1⟩, fun _ => 1⟩ = (.ok, s') ∧
        getSysDesc s'.fds.slots 1 = stale := by
  refine ⟨fun s => if_pos rfl, ⟨_, rfl, by decide, by decide, by decide⟩, fun stale => ⟨_, rfl, rfl⟩⟩

/-! ## Numbering -/

/-- **The invariant of a table**: the ids are in order, and none is negative. -/
structure Ordered (slots : List ThreadFileDescriptor) : Prop where
  sorted : (slots.map ThreadFileDescriptor.id).Pairwise (· < ·)
  nonneg : ∀ fd ∈ slots, 0 ≤ fd.id

theorem Ordered.distinct (h : Ordered slots) : Distinct slots := h.sorted.imp fun hlt => Int.ne_of_lt hlt

theorem Ordered.congr {slots' : List ThreadFileDescriptor} (h : Ordered slots)
    (hids : slots'.map ThreadFileDescriptor.id = slots.map ThreadFileDescriptor.id) : Ordered slots' := by
  refine ⟨hids ▸ h.sorted, fun fd hfd => ?_⟩
  have hmem : fd.id ∈ slots.map ThreadFileDescriptor.id := hids ▸ List.mem_map_of_mem hfd
  obtain ⟨fd', hfd', hid⟩ := List.mem_map.1 hmem
  exact hid ▸ h.nonneg fd' hfd'

/-- A slot between those with smaller and those with greater ids. -/
theorem ordered_middle : Ordered (xs ++ fd :: ys) ↔
    Ordered (xs ++ ys) ∧ 0 ≤ fd.id ∧ (∀ k ∈ xs, k.id < fd.id) ∧ ∀ k ∈ ys, fd.id < k.id := by
  constructor
  · rintro ⟨hsorted, hnonneg⟩
    rw [List.map_append, List.map_cons, List.pairwise_append, List.pairwise_cons] at hsorted
    obtain ⟨hxs, ⟨hfd, hys⟩, hcross⟩ := hsorted
    refine ⟨⟨?_, fun k hk => hnonneg k ?_⟩, hnonneg fd (by simp), fun k hk => ?_, fun k hk => ?_⟩
    · rw [List.map_append, List.pairwise_append]
      exact ⟨hxs, hys, fun a ha b hb => hcross a ha b (List.mem_cons_of_mem _ hb)⟩
    · simp only [List.mem_append, List.mem_cons] at hk ⊢
      tauto
    · exact hcross k.id (List.mem_map_of_mem hk) fd.id List.mem_cons_self
    · exact hfd k.id (List.mem_map_of_mem hk)
  · rintro ⟨⟨hsorted, hnonneg⟩, hpos, hbelow, habove⟩
    rw [List.map_append, List.pairwise_append] at hsorted
    obtain ⟨hxs, hys, hcross⟩ := hsorted
    refine ⟨?_, fun k hk => ?_⟩
    · rw [List.map_append, List.map_cons, List.pairwise_append, List.pairwise_cons]
      refine ⟨hxs, ⟨fun b hb => ?_, hys⟩, fun a ha b hb => ?_⟩
      · obtain ⟨k, hk, rfl⟩ := List.mem_map.1 hb
        exact habove k hk
      · obtain rfl | hb := List.mem_cons.1 hb
        · obtain ⟨k, hk, rfl⟩ := List.mem_map.1 ha
          exact hbelow k hk
        · exact hcross a ha b hb
    · obtain hk | hk := List.mem_append.1 hk
      · exact hnonneg k (List.mem_append_left _ hk)
      · obtain rfl | hk := List.mem_cons.1 hk
        · exact hpos
        · exact hnonneg k (List.mem_append_right _ hk)

/-- **The first gap**: the slots before it have the next ids, those behind it greater ones. -/
theorem freeIndex_spec {lastFD : Int} (hsorted : (slots.map ThreadFileDescriptor.id).Pairwise (· < ·))
    (hlt : ∀ fd ∈ slots, lastFD < fd.id) :
    ∃ xs ys, slots = xs ++ ys ∧ freeIndex lastFD slots = (xs.length, lastFD + 1 + xs.length) ∧
      (∀ i (hi : i < xs.length), xs[i].id = lastFD + 1 + i) ∧
      ∀ fd ∈ ys, lastFD + 1 + xs.length < fd.id := by
  induction slots generalizing lastFD with
  | nil => exact ⟨[], [], rfl, by simp [freeIndex], by simp, by simp⟩
  | cons fd slots ih =>
    rw [List.map_cons, List.pairwise_cons] at hsorted
    obtain ⟨hfirst, hsorted⟩ := hsorted
    have hfd := hlt fd List.mem_cons_self
    have hrest : ∀ k ∈ slots, fd.id < k.id := fun k hk => hfirst k.id (List.mem_map_of_mem hk)
    by_cases hgap : fd.id ≠ lastFD + 1
    · refine ⟨[], fd :: slots, rfl, by simp [freeIndex, hgap], by simp, fun k hk => ?_⟩
      obtain rfl | hk := List.mem_cons.1 hk
      · simp only [List.length_nil]
        omega
      · have := hrest k hk
        simp only [List.length_nil]
        omega
    · rw [not_not] at hgap
      obtain ⟨xs, ys, rfl, hfree, hids, habove⟩ := ih hsorted hrest
      refine ⟨fd :: xs, ys, rfl, ?_, fun i hi => ?_, fun k hk => ?_⟩
      · rw [freeIndex, if_neg (not_not.2 hgap), hfree, List.length_cons, hgap]
        simp only [Prod.mk.injEq, true_and]
        omega
      · cases i with
        | zero => simpa using hgap
        | succ i =>
          have := hids i (by simpa using hi)
          simp only [List.getElem_cons_succ]
          omega
      · have := habove k hk
        rw [List.length_cons]
        omega

/-- The slots of a table around its first gap. -/
theorem Ordered.gap (h : Ordered slots) : ∃ xs ys, slots = xs ++ ys ∧
    freeIndex (-1) slots = (xs.length, (xs.length : Int)) ∧ (∀ i (hi : i < xs.length), xs[i].id = i) ∧
    ∀ fd ∈ ys, (xs.length : Int) < fd.id := by
  have hlt : ∀ fd ∈ slots, -1 < fd.id := fun fd hfd => Int.lt_of_lt_of_le (by decide) (h.nonneg fd hfd)
  obtain ⟨xs, ys, hslots, hfree, hids, habove⟩ := freeIndex_spec h.sorted hlt
  simp only [Int.reduceNeg, Int.reduceAdd, Int.zero_add] at hfree hids habove
  exact ⟨xs, ys, hslots, hfree, hids, habove⟩

/-- **The new slot** keeps the order, and its id is the one that is returned. -/
theorem Ordered.add (h : Ordered s.fds.slots) (grow : Nat → Nat) (d : Nat) :
    Ordered (threadAddFileDescriptor grow d s).2.fds.slots ∧
      (threadAddFileDescriptor grow d s).1 = (freeIndex (-1) s.fds.slots).2 := by
  obtain ⟨xs, ys, hslots, hfree, hids, habove⟩ := h.gap
  have hbelow : ∀ k ∈ xs, k.id < xs.length := by
    intro k hk
    obtain ⟨i, hi, rfl⟩ := List.getElem_of_mem hk
    rw [hids i hi]
    omega
  have hinserted : (s.fds.insert grow xs.length ⟨xs.length, 0⟩).slots = xs ++ ⟨xs.length, 0⟩ :: ys :=
    Fds.slots_insert hslots
  have hset : ((s.fds.insert grow xs.length ⟨xs.length, 0⟩).setSysDesc xs.length d).slots =
      xs ++ ⟨xs.length, d⟩ :: ys := Fds.slots_setSysDesc hinserted
  simp only [threadAddFileDescriptor, findFreeFD, hfree, hset]
  refine ⟨ordered_middle.2 ⟨hslots ▸ h, Int.natCast_nonneg _, hbelow, habove⟩, ?_⟩
  simp

/-- No closed slot comes before the first gap: those before it have their index as id. -/
def NoHole (slots : List ThreadFileDescriptor) : Prop :=
  ∀ i (hi : i < slots.length), slots[i].id = i → slots[i].sysDesc ≠ 0

/-- **A new descriptor** gets the smallest id that is not open exactly if there is no hole. -/
theorem Ordered.isLeast_iff (h : Ordered slots) :
    IsLeast {id : Int | 0 ≤ id ∧ getSysDesc slots id = 0} (freeIndex (-1) slots).2 ↔ NoHole slots := by
  obtain ⟨xs, ys, rfl, hfree, hids, habove⟩ := h.gap
  have hget : ∀ i (hi : i < xs.length), getSysDesc (xs ++ ys) i = xs[i].sysDesc := by
    intro i hi
    rw [← hids i hi]
    exact getSysDesc_of_mem h.distinct (List.mem_append_left _ (List.getElem_mem hi))
  rw [hfree]
  constructor
  · rintro ⟨-, hleast⟩ i hi hid hclosed
    have hxs : i < xs.length := by
      by_contra hge
      -- behind the gap the ids are greater than the indices
      have hsorted := h.sorted
      rw [List.map_append, List.pairwise_append] at hsorted
      have hgreater : ∀ (j : Nat) (hj : j < ys.length), (xs.length + j : Int) < ys[j].id := by
        intro j
        induction j with
        | zero =>
          intro hj
          have := habove ys[0] (List.getElem_mem hj)
          omega
        | succ j ih =>
          intro hj
          have hbefore := ih (by omega)
          have hnext := List.pairwise_iff_getElem.1 hsorted.2.1 j (j + 1) (by simpa using by omega)
            (by simpa using hj) (by omega)
          simp only [List.getElem_map] at hnext
          omega
      rw [List.length_append] at hi
      have := hgreater (i - xs.length) (by omega)
      rw [List.getElem_append_right (by omega)] at hid
      omega
    rw [List.getElem_append_left hxs] at hclosed
    have hle := hleast ⟨Int.natCast_nonneg i, (hget i hxs).trans hclosed⟩
    dsimp only at hle
    omega
  · intro hopen
    refine ⟨⟨Int.natCast_nonneg _, getSysDesc_of_not_mem fun k hk e => ?_⟩, fun id hid => ?_⟩
    · obtain hk | hk := List.mem_append.1 hk
      · obtain ⟨i, hi, rfl⟩ := List.getElem_of_mem hk
        have := hids i hi
        omega
      · have := habove k hk
        omega
    · obtain ⟨hnonneg, hclosed⟩ := hid
      by_contra hlt
      obtain ⟨i, rfl⟩ := Int.eq_ofNat_of_zero_le hnonneg
      have hi : i < xs.length := by omega
      refine hopen i (by rw [List.length_append]; omega) ?_ ?_
      · rw [List.getElem_append_left hi, hids i hi]
      · rw [List.getElem_append_left hi, ← hget i hi]
        exact hclosed

/-! ## Runs -/

/-- A call; `stale` is what `ThreadReplaceFileDescriptor` reads through a pointer into a block that was
freed. -/
inductive Op
  | add (sysDesc : Nat)
  | replace (stale : Nat) (oldPDesc newPDesc : Int)
  | close (desc : Int)

def Op.next (grow : Nat → Nat) (s : State) : Op → State
  | .add sysDesc => (threadAddFileDescriptor grow sysDesc s).2
  | .replace stale oldPDesc newPDesc => (threadReplaceFileDescriptor grow stale oldPDesc newPDesc s).2
  | .close desc => (threadCloseFileDescriptor desc s).2

/-- Runs on a table, with the states and calls on the way. -/
inductive Run (grow : Nat → Nat) : State → List (State × Op) → Prop
  | nil {s : State} : Ordered s.fds.slots → Run grow s []
  | step {s : State} {steps : List (State × Op)} (op : Op) :
      Run grow s steps → Run grow (op.next grow s) (steps ++ [(s, op)])

/-- **The numbering**: in a table whose ids are in order, a new descriptor gets the smallest id that is not
open. -/
structure Numbered (grow : Nat → Nat) (s : State) (op : Op) : Prop where
  ordered : Ordered s.fds.slots
  least : ∀ sysDesc, op = .add sysDesc →
    IsLeast {id : Int | 0 ≤ id ∧ getSysDesc s.fds.slots id = 0} (threadAddFileDescriptor grow sysDesc s).1

/-- The copy needs a new slot. -/
def Inserts (s : State) (oldPDesc newPDesc : Int) : Prop :=
  oldPDesc ≠ newPDesc ∧ getSysDesc s.fds.slots newPDesc ≠ 0 ∧ ∀ fd ∈ s.fds.slots, fd.id ≠ oldPDesc

/-- A new descriptor comes where there is no hole, and a copy puts no slot with a negative id into the
table. -/
def Meets (s : State) : Op → Prop
  | .add _ => NoHole s.fds.slots
  | .replace _ oldPDesc newPDesc => Inserts s oldPDesc newPDesc → 0 ≤ oldPDesc
  | .close _ => True

theorem ids_setSysDesc (fds : Fds) (i d : Nat) :
    (fds.setSysDesc i d).slots.map ThreadFileDescriptor.id = fds.slots.map ThreadFileDescriptor.id := by
  unfold Fds.setSysDesc
  by_cases hi : i < fds.slots.length
  · obtain ⟨xs, fd, ys, hslots, -, hmodify⟩ := List.exists_of_modify (fun fd => { fd with sysDesc := d }) hi
    rw [hmodify, hslots]
    simp
  · rw [List.modify_eq_self (by omega)]

theorem ids_assign (i d : Nat) (s : State) :
    (assign i d s).fds.slots.map ThreadFileDescriptor.id = s.fds.slots.map ThreadFileDescriptor.id := by
  unfold assign
  split_ifs
  · exact ids_setSysDesc ..
  · rfl
  · exact ids_setSysDesc ..

theorem ids_close (desc : Int) (s : State) :
    (threadCloseFileDescriptor desc s).2.fds.slots.map ThreadFileDescriptor.id =
      s.fds.slots.map ThreadFileDescriptor.id := by
  unfold threadCloseFileDescriptor
  split
  · rfl
  · split_ifs
    · rfl
    · exact ids_setSysDesc ..

/-- The ids after a copy: those before, or a new one among them. -/
theorem ids_replace (grow : Nat → Nat) (stale : Nat) (hids : Distinct s.fds.slots) :
    (¬ Inserts s dst src ∧
        (threadReplaceFileDescriptor grow stale dst src s).2.fds.slots.map ThreadFileDescriptor.id =
          s.fds.slots.map ThreadFileDescriptor.id) ∨
      Inserts s dst src ∧ ∃ us vs, s.fds.slots = us ++ vs ∧ (∀ k ∈ us, k.id ≤ dst) ∧
        (∀ v ∈ vs.head?, dst < v.id) ∧
        (threadReplaceFileDescriptor grow stale dst src s).2.fds.slots.map ThreadFileDescriptor.id =
          (us ++ ⟨dst, 0⟩ :: vs).map ThreadFileDescriptor.id := by
  unfold threadReplaceFileDescriptor
  by_cases hne : dst = src
  · left
    rw [if_pos hne]
    exact ⟨fun h => h.1 hne, rfl⟩
  rw [if_neg hne]
  cases hindex : lastIndex src s.fds.slots with
  | none => exact .inl ⟨fun h => h.2.1 (getSysDesc_of_not_mem (lastIndex_eq_none.1 hindex)), rfl⟩
  | some i =>
    obtain ⟨xs, fd, ys, hslots, rfl, rfl⟩ := lastIndex_eq_some hindex
    have hread : s.fds.sysDesc xs.length = fd.sysDesc := Fds.sysDesc_eq hslots
    have hget : getSysDesc s.fds.slots fd.id = fd.sysDesc := getSysDesc_of_mem hids (by simp [hslots])
    by_cases hclosed : fd.sysDesc = 0
    · left
      simp only [hread, hclosed, if_true]
      exact ⟨fun h => h.2.1 (hget.trans hclosed), trivial⟩
    · simp only [hread, hclosed, if_false]
      cases hdst : lastIndex dst s.fds.slots with
      | some j =>
        refine .inl ⟨fun h => ?_, ids_assign ..⟩
        obtain ⟨us, old, vs, hslots', -, hid⟩ := lastIndex_eq_some hdst
        exact h.2.2 old (by simp [hslots']) hid
      | none =>
        right
        obtain ⟨us, vs, hsplit, -, ha, hbelow, habove⟩ := exists_split dst s.fds.slots
        refine ⟨⟨hne, hget ▸ hclosed, lastIndex_eq_none.1 hdst⟩, us, vs, hsplit, hbelow, habove, ?_⟩
        simp only [ids_assign, ha]
        rw [Fds.slots_insert hsplit]

/-- **Each copy** keeps the order exactly if it puts no negative id into the table. -/
theorem ordered_replace (grow : Nat → Nat) (stale : Nat) (h : Ordered s.fds.slots) :
    Ordered (threadReplaceFileDescriptor grow stale dst src s).2.fds.slots ↔
      Meets s (.replace stale dst src) := by
  obtain ⟨hkeeps, hsame⟩ | ⟨hinserts, us, vs, hsplit, hus, hvs, hids⟩ := ids_replace grow stale h.distinct
  · exact ⟨fun _ hinserts => absurd hinserts hkeeps, fun _ => h.congr hsame⟩
  · have hbelow : ∀ k ∈ us, k.id < dst := fun k hk =>
      Int.lt_iff_le_and_ne.2 ⟨hus k hk, hinserts.2.2 k (by simp [hsplit, hk])⟩
    have habove : ∀ k ∈ vs, dst < k.id := by
      cases vs with
      | nil => simp
      | cons v vs =>
        have hv := hvs v rfl
        rw [hsplit] at h
        obtain ⟨-, -, -, hrest⟩ := ordered_middle.1 h
        intro k hk
        obtain rfl | hk := List.mem_cons.1 hk
        · exact hv
        · exact Int.lt_trans hv (hrest k hk)
    have hmiddle : Ordered (us ++ ⟨dst, 0⟩ :: vs) ↔ 0 ≤ dst := by
      rw [ordered_middle, ← hsplit]
      exact ⟨fun hall => hall.2.1, fun hnonneg => ⟨h, hnonneg, hbelow, habove⟩⟩
    exact ⟨fun hord _ => hmiddle.1 (hord.congr hids.symm), fun hmeets => (hmiddle.2 (hmeets hinserts)).congr hids⟩

/-- Each step keeps the order exactly if it puts no negative id into the table. -/
theorem Op.ordered (op : Op) (grow : Nat → Nat) (h : Ordered s.fds.slots) (hmeets : Meets s op) :
    Ordered (op.next grow s).fds.slots := by
  cases op with
  | add d => exact (h.add grow d).1
  | replace stale dst src => exact (ordered_replace grow stale h).2 hmeets
  | close desc => exact h.congr (ids_close desc s)

theorem numbered_iff (op : Op) (h : Ordered s.fds.slots) (hnext : Ordered (op.next grow s).fds.slots) :
    Numbered grow s op ↔ Meets s op := by
  cases op with
  | add d =>
    have hleast := h.isLeast_iff
    rw [← (h.add grow d).2] at hleast
    refine ⟨fun hnum => hleast.1 (hnum.least d rfl), fun hmeets => ⟨h, fun d' e => ?_⟩⟩
    cases e
    exact hleast.2 hmeets
  | replace stale dst src =>
    exact ⟨fun _ => (ordered_replace grow stale h).1 hnext, fun _ => ⟨h, fun d e => by cases e⟩⟩
  | close desc => exact ⟨fun _ => trivial, fun _ => ⟨h, fun d e => by cases e⟩⟩

/-- Each run whose steps meet the condition. -/
theorem Run.ordered {steps : List (State × Op)} (h : Run grow s steps) (hmeets : ∀ x ∈ steps, Meets x.1 x.2) :
    Ordered s.fds.slots ∧ ∀ x ∈ steps, Numbered grow x.1 x.2 := by
  induction h with
  | nil hord => exact ⟨hord, by simp⟩
  | @step s steps op hrun ih =>
    obtain ⟨hord, hsteps⟩ := ih fun x hx => hmeets x (List.mem_append_left _ hx)
    have hop := hmeets (s, op) (by simp)
    have hnext := op.ordered grow hord hop
    refine ⟨hnext, fun x hx => ?_⟩
    obtain hx | hx := List.mem_append.1 hx
    · exact hsteps x hx
    · obtain rfl := List.mem_singleton.1 hx
      exact (numbered_iff op hord hnext).2 hop

/-- **Descriptor numbering**: in every run, the ids are in order and not negative in every state and each new
descriptor gets the smallest id that is not open, exactly if every step meets the condition. -/
theorem descriptors_numbered {steps : List (State × Op)} (h : Run grow s steps) :
    (Ordered s.fds.slots ∧ ∀ x ∈ steps, Numbered grow x.1 x.2) ↔ ∀ x ∈ steps, Meets x.1 x.2 := by
  refine ⟨fun hnum => ?_, h.ordered⟩
  induction h with
  | nil => simp
  | @step s steps op hrun ih =>
    obtain ⟨hnext, hsteps⟩ := hnum
    have hop := hsteps (s, op) (by simp)
    have hbefore := ih ⟨hop.ordered, fun x hx => hsteps x (List.mem_append_left _ hx)⟩
    intro x hx
    obtain hx | hx := List.mem_append.1 hx
    · exact hbefore x hx
    · obtain rfl := List.mem_singleton.1 hx
      exact (numbered_iff op hop.ordered hnext).1 hop

/-- An empty table. -/
def emptyTable : State := ⟨⟨[], 0⟩, fun _ => 1⟩

theorem ordered_empty : Ordered emptyTable.fds.slots := ⟨.nil, by simp [emptyTable]⟩

/-- Two descriptors are added, and the second one is copied to a third id. -/
theorem descriptors_numbered_copy : ∃ s steps, Run (· + 1) s steps ∧ steps.length = 3 ∧
    s.fds.slots = [⟨0, 5⟩, ⟨1, 6⟩, ⟨7, 6⟩] ∧ Ordered s.fds.slots := by
  have hrun := (((@Run.nil (· + 1) _ ordered_empty).step (.add 5)).step (.add 6)).step (.replace 6 7 1)
  refine ⟨_, _, hrun, rfl, rfl, ((descriptors_numbered hrun).2 fun x hx => ?_).1⟩
  simp only [List.nil_append, List.cons_append, List.mem_cons, List.not_mem_nil, or_false] at hx
  obtain rfl | rfl | rfl := hx
  · exact fun i hi => absurd hi (Nat.not_lt_zero i)
  · intro i hi hid
    obtain rfl : i = 0 := Nat.lt_one_iff.1 hi
    exact Nat.succ_ne_zero 4
  · exact fun _ => by decide

/-- The first descriptor is closed, and the next one is not the first again. And after a copy to a negative
id, two slots get the same id. -/
theorem closed_not_reused :
    (∃ s steps, Run (· + 1) s steps ∧ s.fds.slots = [⟨0, 0⟩, ⟨1, 6⟩] ∧
      (threadAddFileDescriptor (· + 1) 7 s).1 = 2) ∧
    ∃ s steps, Run (· + 1) s steps ∧ s.fds.slots = [⟨0, 7⟩, ⟨-5, 5⟩, ⟨0, 5⟩] := by
  have hstart := @Run.nil (· + 1) _ ordered_empty
  exact ⟨⟨_, _, ((hstart.step (.add 5)).step (.add 6)).step (.close 0), rfl, rfl⟩,
    ⟨_, _, ((hstart.step (.add 5)).step (.replace 5 (-5) 0)).step (.add 7), rfl⟩⟩

end ChenixOS.FileDescriptors
