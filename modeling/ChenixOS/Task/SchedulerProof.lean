import ChenixOS.Task.Scheduler
import Mathlib.Data.List.Nodup

/-!
# Lists and running threads

What holds of the active list and the running thread in every run of the core, whatever is called.
-/

namespace ChenixOS.Scheduler

variable {s s' : State} {t u : Nat} {f : ThreadInfo → ThreadInfo}

/-! ## Changing one record -/

/-- A field that a change of one record keeps, it keeps everywhere. -/
theorem modify_keeps {α : Type} (g : ThreadInfo → α) (h : g (f (s.threads t)) = g (s.threads t))
    (u : Nat) : g ((s.modify t f).threads u) = g (s.threads u) := by
  by_cases hut : u = t
  · subst hut
    simpa using h
  · simp [hut]

theorem modify_modify {g : ThreadInfo → ThreadInfo} :
    (s.modify t f).modify t g = s.modify t fun i => g (f i) := by
  simp [State.modify]

@[simp] theorem modify_self : (s.modify t f).threads t = f (s.threads t) := by simp

@[simp] theorem modify_of_ne (h : u ≠ t) : (s.modify t f).threads u = s.threads u := by simp [h]

/-! ## `FindNextThread` -/

/-- **`FindNextThread`** returns the first ready thread and moves it to the back of the list, or
returns the idle thread. -/
theorem findNextThread_cases (s : State) :
    (∃ t pre suf, s.activeList = pre ++ t :: suf ∧ (s.threads t).state = .ready ∧
      (∀ u ∈ pre, (s.threads u).state ≠ .ready) ∧
      findNextThread s = (t, { s with
        activeList := pre ++ suf ++ [t]
        selected := s.selected ++ [t] })) ∨
    ((∀ u ∈ s.activeList, (s.threads u).state ≠ .ready) ∧
      findNextThread s = (idleThread, { s with selected := s.selected ++ [idleThread] })) := by
  unfold findNextThread
  cases hfind : s.activeList.find? fun t => (s.threads t).state = .ready with
  | none =>
    refine .inr ⟨fun u hu => ?_, rfl⟩
    simpa using List.find?_eq_none.1 hfind u hu
  | some t =>
    obtain ⟨hready, pre, suf, hlist, hpre⟩ := List.find?_eq_some_iff_append.1 hfind
    have hnot : t ∉ pre := fun hmem => by simpa [hready] using hpre t hmem
    have herase : s.activeList.erase t = pre ++ suf := by
      rw [hlist, List.erase_append_right _ hnot, List.erase_cons_head]
    refine .inl ⟨t, pre, suf, hlist, by simpa using hready, by simpa using hpre, ?_⟩
    simp only [herase]

/-- Everything but the list and the log is kept. -/
theorem findNextThread_frame (s : State) : (findNextThread s).2 = { s with
    activeList := (findNextThread s).2.activeList
    selected := s.selected ++ [(findNextThread s).1] } := by
  unfold findNextThread
  split <;> rfl

@[simp] theorem findNextThread_threads : (findNextThread s).2.threads = s.threads := by
  unfold findNextThread
  split <;> rfl

@[simp] theorem findNextThread_nextTid : (findNextThread s).2.nextTid = s.nextTid := by
  unfold findNextThread
  split <;> rfl

@[simp] theorem findNextThread_current : (findNextThread s).2.current = s.current := by
  unfold findNextThread
  split <;> rfl

/-- The list is reordered. -/
theorem findNextThread_perm : (findNextThread s).2.activeList.Perm s.activeList := by
  obtain ⟨t, pre, suf, hlist, -, -, hfind⟩ | ⟨-, hfind⟩ := findNextThread_cases s
  · rw [hfind, hlist]
    simp only [List.append_assoc]
    apply List.Perm.append_left
    exact List.perm_append_singleton t suf
  · rw [hfind]

/-! ## `UpdateEvents` -/

/-- The thread is neither FINISHED nor EXITED. -/
def ThreadInfo.alive (i : ThreadInfo) : Bool :=
  match i.state with
  | .finished | .exited => false
  | _ => true

def ThreadInfo.pending (i : ThreadInfo) : Bool := i.killPending || i.abortPending

/-- What `UpdateEvents` does to a thread of the active list, from `s` to `s'`. -/
inductive Updated (dur : Nat) (s s' : State) (t : Nat) : Prop
  | exited (hstate : (s.threads t).state = .exited) (hnew : s'.threads t = s.threads t)
  | finished (hstate : (s.threads t).state = .finished)
    (hnew : s'.threads t = { s.threads t with state := .exited })
  | ready (hstate : (s.threads t).state = .ready)
    (hnew : s'.threads t = (s.threads t).deliver (t = s.current))
  | queueLock (hstate : (s.threads t).state = .queueLock) (hnew : s'.threads t = s.threads t)
  | interrupted (hstate : (s.threads t).state = .sleep ∨ (s.threads t).state = .join)
    (hpending : (s.threads t).pending)
    (hnew : s'.threads t = { s.threads t with state := .ready, rax := ErrorInterrupted })
  | awoke (hstate : (s.threads t).state = .sleep) (hpending : ¬ (s.threads t).pending)
    (hnew : s'.threads t = { s.threads t with state := .ready, rax := OK })
  | sleeps (hstate : (s.threads t).state = .sleep) (hpending : ¬ (s.threads t).pending)
    (hnew : s'.threads t = { s.threads t with arg := (s.threads t).arg - dur })
  | joined (hstate : (s.threads t).state = .join) (hpending : ¬ (s.threads t).pending)
    (hexited : (s'.threads (s.threads t).arg).state = .exited)
    (hnew : s'.threads t = { s.threads t with state := .ready, rax := OK })
  | waits (hstate : (s.threads t).state = .join) (hpending : ¬ (s.threads t).pending)
    (hnot : (s.threads (s.threads t).arg).state ≠ .exited) (hnew : s'.threads t = s.threads t)

section

variable {d : Nat} {l : List Nat}

/-- A pass over one thread changes that thread's record, and takes it out of the list if it was
finished. -/
theorem updateEvent_frame (d : Nat) (s : State) (t : Nat) :
    updateEvent d s t = { s with
      threads := Function.update s.threads t ((updateEvent d s t).threads t)
      activeList := if (s.threads t).state = .finished then s.activeList.erase t
        else s.activeList } := by
  cases hstate : (s.threads t).state <;> simp [updateEvent, hstate, State.modify]
  · split <;> [skip; split] <;> simp
  · split <;> [skip; split] <;> simp

theorem updateEvent_of_ne (h : u ≠ t) : (updateEvent d s t).threads u = s.threads u := by
  rw [updateEvent_frame]
  simp [h]

theorem updateEvent_updated : Updated d s (updateEvent d s t) t := by
  cases hstate : (s.threads t).state with
  | ready => exact .ready hstate (by simp [updateEvent, hstate])
  | queueLock => exact .queueLock hstate (by simp [updateEvent, hstate])
  | finished => exact .finished hstate (by simp [updateEvent, hstate])
  | exited => exact .exited hstate (by simp [updateEvent, hstate])
  | sleep =>
    by_cases hpending : (s.threads t).pending
    · have hflags : (s.threads t).killPending = true ∨ (s.threads t).abortPending = true := by
        simpa [ThreadInfo.pending] using hpending
      exact .interrupted (.inl hstate) hpending (by simp [updateEvent, hstate, hflags])
    · have hflags : (s.threads t).killPending = false ∧ (s.threads t).abortPending = false := by
        simpa [ThreadInfo.pending] using hpending
      by_cases harg : (s.threads t).arg ≤ d
      · exact .awoke hstate hpending (by simp [updateEvent, hstate, hflags, harg])
      · exact .sleeps hstate hpending (by simp [updateEvent, hstate, hflags, harg])
  | join =>
    by_cases hpending : (s.threads t).pending
    · have hflags : (s.threads t).killPending = true ∨ (s.threads t).abortPending = true := by
        simpa [ThreadInfo.pending] using hpending
      exact .interrupted (.inr hstate) hpending (by simp [updateEvent, hstate, hflags])
    · have hflags : (s.threads t).killPending = false ∧ (s.threads t).abortPending = false := by
        simpa [ThreadInfo.pending] using hpending
      by_cases harg : (s.threads (s.threads t).arg).state = .exited
      · have hne : (s.threads t).arg ≠ t := by
          intro e
          rw [e, hstate] at harg
          cases harg
        refine .joined hstate hpending ?_ (by simp [updateEvent, hstate, hflags, harg, OK])
        rw [updateEvent_of_ne hne]
        exact harg
      · exact .waits hstate hpending harg (by simp [updateEvent, hstate, hflags, harg])

/-- A thread that has exited stays so. -/
theorem updateEvent_exited (h : (s.threads u).state = .exited) :
    ((updateEvent d s t).threads u).state = .exited := by
  by_cases hut : u = t
  · subst hut
    simp [updateEvent, h]
  · rw [updateEvent_of_ne hut]
    exact h

theorem foldl_updateEvent_exited (l : List Nat) (h : (s.threads u).state = .exited) :
    ((l.foldl (updateEvent d) s).threads u).state = .exited := by
  induction l generalizing s with
  | nil => exact h
  | cons t l ih => exact ih (updateEvent_exited h)

theorem foldl_updateEvent_of_not_mem (h : u ∉ l) :
    (l.foldl (updateEvent d) s).threads u = s.threads u := by
  induction l generalizing s with
  | nil => rfl
  | cons t l ih =>
    obtain ⟨hut, hul⟩ : u ≠ t ∧ u ∉ l := by simpa using h
    rw [List.foldl_cons, ih hul, updateEvent_of_ne hut]

/-- The pass over the list, thread by thread. -/
theorem foldl_updateEvent_updated (hnodup : l.Nodup) (hu : u ∈ l) :
    Updated d s (l.foldl (updateEvent d) s) u := by
  induction l generalizing s with
  | nil => cases hu
  | cons t l ih =>
    obtain ⟨htl, hl⟩ := List.nodup_cons.1 hnodup
    rw [List.foldl_cons]
    by_cases hut : u = t
    · subst hut
      have hlast := foldl_updateEvent_of_not_mem (s := updateEvent d s u) (d := d) htl
      cases updateEvent_updated (d := d) (s := s) (t := u) with
      | exited hstate hnew => exact .exited hstate (hlast.trans hnew)
      | finished hstate hnew => exact .finished hstate (hlast.trans hnew)
      | ready hstate hnew => exact .ready hstate (hlast.trans hnew)
      | queueLock hstate hnew => exact .queueLock hstate (hlast.trans hnew)
      | interrupted hstate hpending hnew => exact .interrupted hstate hpending (hlast.trans hnew)
      | awoke hstate hpending hnew => exact .awoke hstate hpending (hlast.trans hnew)
      | sleeps hstate hpending hnew => exact .sleeps hstate hpending (hlast.trans hnew)
      | joined hstate hpending hexited hnew =>
        exact .joined hstate hpending (foldl_updateEvent_exited l hexited) (hlast.trans hnew)
      | waits hstate hpending hnot hnew => exact .waits hstate hpending hnot (hlast.trans hnew)
    · have hul : u ∈ l := by simpa [hut] using hu
      have hold := updateEvent_of_ne (d := d) (s := s) hut
      have hcurrent : (updateEvent d s t).current = s.current := by rw [updateEvent_frame]
      have hrest := ih (s := updateEvent d s t) hl hul
      cases hrest with
      | exited hstate hnew => rw [hold] at hstate hnew; exact .exited hstate hnew
      | finished hstate hnew => rw [hold] at hstate hnew; exact .finished hstate hnew
      | ready hstate hnew => rw [hold, hcurrent] at *; exact .ready hstate hnew
      | queueLock hstate hnew => rw [hold] at hstate hnew; exact .queueLock hstate hnew
      | interrupted hstate hpending hnew =>
        rw [hold] at hstate hpending hnew
        exact .interrupted hstate hpending hnew
      | awoke hstate hpending hnew =>
        rw [hold] at hstate hpending hnew
        exact .awoke hstate hpending hnew
      | sleeps hstate hpending hnew =>
        rw [hold] at hstate hpending hnew
        exact .sleeps hstate hpending hnew
      | joined hstate hpending hexited hnew =>
        rw [hold] at hstate hpending hexited hnew
        exact .joined hstate hpending hexited hnew
      | waits hstate hpending hnot hnew =>
        rw [hold] at hstate hpending hnot hnew
        exact .waits hstate hpending (fun h => hnot (updateEvent_exited h)) hnew

theorem foldl_updateEvent_frame (l : List Nat) (s : State) :
    l.foldl (updateEvent d) s = { s with
      threads := (l.foldl (updateEvent d) s).threads
      activeList := (l.foldl (updateEvent d) s).activeList } := by
  induction l generalizing s with
  | nil => rfl
  | cons t l ih =>
    rw [List.foldl_cons, ih, updateEvent_frame]

/-- The finished threads of the list are taken out. -/
theorem foldl_updateEvent_activeList (hl : l.Nodup) (hactive : s.activeList.Nodup) :
    (l.foldl (updateEvent d) s).activeList =
      s.activeList.filter fun u => u ∉ l ∨ (s.threads u).state ≠ .finished := by
  induction l generalizing s with
  | nil => simp
  | cons t l ih =>
    obtain ⟨htl, hl⟩ := List.nodup_cons.1 hl
    have hlist : (updateEvent d s t).activeList =
        s.activeList.filter fun u => u ≠ t ∨ (s.threads t).state ≠ .finished := by
      rw [updateEvent_frame]
      by_cases hfin : (s.threads t).state = .finished
      · simp only [hfin, if_true, not_true, or_false, ne_eq]
        rw [hactive.erase_eq_filter t]
        apply List.filter_congr
        intro u _
        rw [Bool.eq_iff_iff]
        simp
      · simp [hfin]
    have hnodup : (updateEvent d s t).activeList.Nodup := by
      rw [hlist]
      exact hactive.filter _
    rw [List.foldl_cons, ih hl hnodup, hlist, List.filter_filter]
    apply List.filter_congr
    intro u _
    by_cases hut : u = t
    · subst hut
      simp [htl]
    · simp [hut, updateEvent_of_ne hut]

/-- **`UpdateEvents`**: everything but the records and the list is kept. -/
theorem updateEvents_frame (d : Nat) (s : State) :
    updateEvents d s = { s with
      threads := (updateEvents d s).threads
      activeList := (updateEvents d s).activeList } :=
  foldl_updateEvent_frame _ _

theorem updateEvents_activeList (h : s.activeList.Nodup) :
    (updateEvents d s).activeList =
      s.activeList.filter fun u => (s.threads u).state ≠ .finished := by
  rw [updateEvents, foldl_updateEvent_activeList h h]
  apply List.filter_congr
  intro u hu
  simp [hu]

theorem updateEvents_updated (h : s.activeList.Nodup) (ht : t ∈ s.activeList) :
    Updated d s (updateEvents d s) t :=
  foldl_updateEvent_updated h ht

theorem updateEvents_of_not_mem (ht : t ∉ s.activeList) :
    (updateEvents d s).threads t = s.threads t :=
  foldl_updateEvent_of_not_mem ht

end

/-- A delivery changes the flags, the mode and the place. -/
theorem deliver_frame (c : Bool) (i : ThreadInfo) :
    i.deliver c = { i with
      killPending := (i.deliver c).killPending
      abortPending := (i.deliver c).abortPending
      userMode := (i.deliver c).userMode
      pc := (i.deliver c).pc } := by
  obtain ⟨_, _, _, _, killPending, rip, abortPending, _, _, _, _, _, userMode, _, _, _⟩ := i
  cases userMode <;> cases c <;> cases killPending <;> cases abortPending <;>
    cases hr : rip != 0 <;> simp [ThreadInfo.deliver, hr]

/-- The place changes only to `ThreadExit(1)`, for a thread in user mode that is not running. -/
theorem deliver_pc (c : Bool) (i : ThreadInfo) :
    (i.deliver c).pc = i.pc ∨
      i.userMode = true ∧ c = false ∧ (i.deliver c).pc = .killLoop (.thread 1) := by
  cases hu : i.userMode <;> cases c <;> cases hk : i.killPending <;> cases ha : i.abortPending <;>
    cases hr : i.killHandlerRip != 0 <;> simp [ThreadInfo.deliver, hu, hk, ha, hr]

/-! ## The active list -/

/-- The main thread of a thread is its own main thread, and not the idle thread. -/
structure Mains (main : Nat → Nat) (n : Nat) : Prop where
  main_main : ∀ t, main (main t) = main t
  not_idle : ∀ t, t ≠ idleThread → main t ≠ idleThread
  lt : ∀ t, t < n → main t < n
  fresh : ∀ t, n ≤ t → main t = t

/-- What holds of the lists and the states between any two writes of the running thread. -/
structure Lists (s : State) : Prop where
  tids : 2 ≤ s.nextTid
  mains : Mains (fun t => (s.threads t).mainThread) s.nextTid
  nodup : s.activeList.Nodup
  listed : ∀ t ∈ s.activeList, t ≠ idleThread ∧ t < s.nextTid
  idle : (s.threads idleThread).state = .ready
  blocked : ∀ t, (s.threads t).state = .sleep ∨ (s.threads t).state = .join ∨
    (s.threads t).state = .queueLock → t ∈ s.activeList
  place : ∀ t, (s.threads t).state = .join → (s.threads t).pc = .joining (s.threads t).arg ∨
    ∃ k, (s.threads t).pc = .killJoin (s.threads t).arg k

/-- The running thread is ready, and in the active list unless it is the idle thread. -/
structure Running (s : State) : Prop where
  ready : (s.threads s.current).state = .ready
  listed : s.current = idleThread ∨ s.current ∈ s.activeList

theorem lists_initial : Lists initial := by
  refine ⟨Nat.le_refl 2, ⟨fun _ => rfl, fun _ h => h, fun _ h => h, fun _ _ => rfl⟩,
    by simp [initial], ?_, rfl, ?_, ?_⟩
  · simp [initial, idleThread, initThread]
  · intro t ht
    simp [initial, newThread] at ht
  · intro t ht
    simp [initial, newThread] at ht

theorem Lists.of_perm (h : Lists s) (hthreads : s'.threads = s.threads)
    (hnext : s'.nextTid = s.nextTid) (hlist : s'.activeList.Perm s.activeList) : Lists s' := by
  refine ⟨hnext ▸ h.tids, ?_, hlist.nodup_iff.2 h.nodup, fun t ht => ?_, hthreads ▸ h.idle,
    fun t ht => ?_, fun t ht => ?_⟩
  · rw [hthreads, hnext]
    exact h.mains
  · rw [hnext]
    exact h.listed t (hlist.mem_iff.1 ht)
  · rw [hthreads] at ht
    exact hlist.mem_iff.2 (h.blocked t ht)
  · rw [hthreads] at ht ⊢
    exact h.place t ht

/-- A change of one record, when the record fits the lists afterwards. -/
theorem Lists.modify (h : Lists s)
    (hmain : (f (s.threads t)).mainThread = (s.threads t).mainThread)
    (hidle : t = idleThread → (f (s.threads t)).state = .ready)
    (hblocked : (f (s.threads t)).state = .sleep ∨ (f (s.threads t)).state = .join ∨
      (f (s.threads t)).state = .queueLock → t ∈ s.activeList)
    (hplace : (f (s.threads t)).state = .join →
      (f (s.threads t)).pc = .joining (f (s.threads t)).arg ∨
        ∃ k, (f (s.threads t)).pc = .killJoin (f (s.threads t)).arg k) :
    Lists (s.modify t f) := by
  refine ⟨h.tids, ?_, h.nodup, h.listed, ?_, fun u hu => ?_, fun u hu => ?_⟩
  · rw [funext (modify_keeps ThreadInfo.mainThread hmain)]
    exact h.mains
  · by_cases ht : idleThread = t
    · rw [← ht, modify_self, ht]
      exact hidle ht.symm
    · rw [modify_of_ne ht]
      exact h.idle
  · by_cases hut : u = t
    · subst hut
      exact hblocked (by simpa using hu)
    · exact h.blocked u (by simpa [hut] using hu)
  · by_cases hut : u = t
    · subst hut
      simpa using hplace (by simpa using hu)
    · simpa [hut] using h.place u (by simpa [hut] using hu)

/-- A change of one record that keeps the state, its argument and the place. -/
theorem Lists.modify_same (h : Lists s)
    (hmain : (f (s.threads t)).mainThread = (s.threads t).mainThread)
    (hstate : (f (s.threads t)).state = (s.threads t).state)
    (harg : (f (s.threads t)).arg = (s.threads t).arg)
    (hpc : (f (s.threads t)).pc = (s.threads t).pc) : Lists (s.modify t f) := by
  apply h.modify hmain
  · intro ht
    rw [hstate, ht]
    exact h.idle
  · rw [hstate]
    exact h.blocked t
  · rw [hstate, harg, hpc]
    exact h.place t

/-- A change of the record of a ready thread that leaves it ready. -/
theorem Lists.modify_ready (h : Lists s)
    (hmain : (f (s.threads t)).mainThread = (s.threads t).mainThread)
    (hstate : (f (s.threads t)).state = .ready) : Lists (s.modify t f) := by
  apply h.modify hmain
  · exact fun _ => hstate
  · simp [hstate]
  · simp [hstate]

theorem Running.modify (h : Running s)
    (hstate : t = s.current → (f (s.threads t)).state = .ready) : Running (s.modify t f) := by
  refine ⟨?_, h.listed⟩
  show ((s.modify t f).threads s.current).state = .ready
  by_cases ht : s.current = t
  · rw [ht, modify_self]
    exact hstate ht.symm
  · rw [modify_of_ne ht]
    exact h.ready

/-! ## Switches -/

theorem Lists.findNextThread (h : Lists s) : Lists (findNextThread s).2 :=
  h.of_perm findNextThread_threads findNextThread_nextTid findNextThread_perm

/-- The thread that is selected is ready, and in the list unless it is the idle thread. -/
theorem findNextThread_running (h : Lists s) :
    (s.threads (findNextThread s).1).state = .ready ∧
      ((findNextThread s).1 = idleThread ∨ (findNextThread s).1 ∈ (findNextThread s).2.activeList) := by
  obtain ⟨t, pre, suf, -, hready, -, hfind⟩ | ⟨-, hfind⟩ := findNextThread_cases s
  · rw [hfind]
    exact ⟨hready, .inr (by simp)⟩
  · rw [hfind]
    exact ⟨h.idle, .inl rfl⟩

/-- Go on with the selected thread, after a change of the old one that keeps its state, argument and
place. -/
theorem Lists.goOn (h : Lists s) (hmain : ∀ i, (f i).mainThread = i.mainThread)
    (hstate : ∀ i, (f i).state = i.state) (harg : ∀ i, (f i).arg = i.arg)
    (hpc : ∀ i, (f i).pc = i.pc) :
    let s' := { (Scheduler.findNextThread s).2.modify t f with current := (Scheduler.findNextThread s).1 }
    Lists s' ∧ Running s' := by
  have hlists := h.findNextThread.modify_same (t := t) (f := f) (hmain _) (hstate _) (harg _)
    (hpc _)
  obtain ⟨hready, hlisted⟩ := findNextThread_running h
  refine ⟨⟨hlists.tids, hlists.mains, hlists.nodup, hlists.listed, hlists.idle, hlists.blocked, hlists.place⟩,
    ?_, hlisted⟩
  have hkeep := modify_keeps (s := (Scheduler.findNextThread s).2) (t := t) (f := f) ThreadInfo.state
    (hstate _) (Scheduler.findNextThread s).1
  show (((Scheduler.findNextThread s).2.modify t f).threads (Scheduler.findNextThread s).1).state = _
  rw [hkeep, findNextThread_threads]
  exact hready

theorem Lists.switchThread (h : Lists s) : Lists (switchThread s) ∧ Running (switchThread s) :=
  h.goOn (fun _ => rfl) (fun _ => rfl) (fun _ => rfl) (fun _ => rfl)

/-- **`ThreadYield`** ends with a ready thread, whatever the caller's state is. -/
theorem Lists.threadYield (h : Lists s) : Lists (threadYield s) ∧ Running (threadYield s) := by
  unfold Scheduler.threadYield
  split
  · rename_i hself
    obtain ⟨hready, hlisted⟩ := findNextThread_running h
    refine ⟨h.findNextThread, ?_, ?_⟩
    · rw [findNextThread_current, findNextThread_threads, ← hself]
      exact hready
    · rw [findNextThread_current, ← hself]
      exact hlisted
  · exact h.switchThread

/-- **`ThreadBlock`** -/
theorem Lists.threadBlock {type : ThreadState} {arg : Nat} {pc : Pc} (h : Lists s) (hrun : Running s)
    (hcurrent : s.current ≠ idleThread)
    (hplace : type = .join → pc = .joining arg ∨ ∃ k, pc = .killJoin arg k) :
    Lists (threadBlock type arg pc s) ∧ Running (threadBlock type arg pc s) := by
  apply Lists.switchThread
  apply h.modify rfl
  · exact fun he => absurd he hcurrent
  · exact fun _ => hrun.listed.resolve_left hcurrent
  · exact hplace

theorem updateEvents_mainThread {d : Nat} (h : s.activeList.Nodup) (t : Nat) :
    ((updateEvents d s).threads t).mainThread = (s.threads t).mainThread := by
  by_cases hmem : t ∈ s.activeList
  · cases updateEvents_updated (d := d) h hmem with
    | ready hstate hnew => rw [hnew, deliver_frame]
    | exited _ hnew | finished _ hnew | queueLock _ hnew | interrupted _ _ hnew | awoke _ _ hnew
    | sleeps _ _ hnew | joined _ _ _ hnew | waits _ _ _ hnew => rw [hnew]
  · rw [updateEvents_of_not_mem hmem]

theorem updateEvents_exited {d : Nat} (h : (s.threads t).state = .exited) :
    ((updateEvents d s).threads t).state = .exited :=
  foldl_updateEvent_exited _ h

section

variable {d : Nat}

theorem Updated.queued (h : Updated d s s' t) : (s'.threads t).queued = (s.threads t).queued := by
  cases h with
  | ready hstate hnew => rw [hnew, deliver_frame]
  | exited _ hnew | finished _ hnew | queueLock _ hnew | interrupted _ _ hnew | awoke _ _ hnew
  | sleeps _ _ hnew | joined _ _ _ hnew | waits _ _ _ hnew => rw [hnew]

theorem Updated.pc (h : Updated d s s' t) : (s'.threads t).pc = (s.threads t).pc ∨
    (s.threads t).state = .ready ∧ (s.threads t).userMode = true ∧ t ≠ s.current ∧
      (s'.threads t).pc = .killLoop (.thread 1) := by
  cases h with
  | ready hstate hnew =>
    rw [hnew]
    refine (deliver_pc _ _).imp_right fun hd => ⟨hstate, hd.1, ?_, hd.2.2⟩
    simpa using hd.2.1
  | exited _ hnew | finished _ hnew | queueLock _ hnew | interrupted _ _ hnew | awoke _ _ hnew
  | sleeps _ _ hnew | joined _ _ _ hnew | waits _ _ _ hnew => rw [hnew]; exact .inl rfl

/-- A finished thread becomes exited; no other thread does. -/
theorem Updated.exited_iff (h : Updated d s s' t) : (s'.threads t).state = .exited ↔
    (s.threads t).state = .finished ∨ (s.threads t).state = .exited := by
  cases h with
  | ready hstate hnew =>
    rw [hnew, deliver_frame]
    simp [hstate]
  | exited hstate hnew => simp [hnew, hstate]
  | finished hstate hnew => simp [hnew, hstate]
  | queueLock hstate hnew => simp [hnew, hstate]
  | interrupted hstate _ hnew => rcases hstate with e | e <;> simp [hnew, e]
  | awoke hstate _ hnew => simp [hnew, hstate]
  | sleeps hstate _ hnew => simp [hnew, hstate]
  | joined hstate _ _ hnew => simp [hnew, hstate]
  | waits hstate _ _ hnew => simp [hnew, hstate]

end

/-- **`UpdateEvents`** keeps the lists. -/
theorem Lists.updateEvents {d : Nat} (h : Lists s) : Lists (updateEvents d s) := by
  have hlist := updateEvents_activeList (d := d) h.nodup
  have hidle : idleThread ∉ s.activeList := fun hmem => (h.listed _ hmem).1 rfl
  have hframe := updateEvents_frame d s
  refine ⟨?_, ?_, ?_, fun t ht => ?_, ?_, fun t ht => ?_, fun t ht => ?_⟩
  · rw [hframe]
    exact h.tids
  · rw [funext fun t => updateEvents_mainThread h.nodup t, hframe]
    exact h.mains
  · rw [hlist]
    exact h.nodup.filter _
  · rw [hlist] at ht
    rw [hframe]
    exact h.listed t (List.mem_filter.1 ht).1
  · rw [updateEvents_of_not_mem hidle]
    exact h.idle
  · by_cases hmem : t ∈ s.activeList
    · rw [hlist, List.mem_filter]
      refine ⟨hmem, ?_⟩
      cases updateEvents_updated (d := d) h.nodup hmem with
      | exited hstate hnew => simp [hstate]
      | finished hstate hnew => simp [hnew] at ht
      | ready hstate hnew => simp [hstate]
      | queueLock hstate hnew => simp [hstate]
      | interrupted hstate hpending hnew => rcases hstate with e | e <;> simp [e]
      | awoke hstate hpending hnew => simp [hstate]
      | sleeps hstate hpending hnew => simp [hstate]
      | joined hstate hpending hexited hnew => simp [hstate]
      | waits hstate hpending hnot hnew => simp [hstate]
    · rw [updateEvents_of_not_mem hmem] at ht
      exact absurd (h.blocked t ht) hmem
  · by_cases hmem : t ∈ s.activeList
    · cases updateEvents_updated (d := d) h.nodup hmem with
      | exited hstate hnew => rw [hnew, hstate] at ht; cases ht
      | finished hstate hnew => rw [hnew] at ht; cases ht
      | ready hstate hnew =>
        rw [hnew, deliver_frame] at ht
        rw [show (s.threads t).state = .join from ht] at hstate
        cases hstate
      | queueLock hstate hnew => rw [hnew, hstate] at ht; cases ht
      | interrupted hstate hpending hnew => rw [hnew] at ht; cases ht
      | awoke hstate hpending hnew => rw [hnew] at ht; cases ht
      | sleeps hstate hpending hnew =>
        rw [hnew] at ht
        rw [show (s.threads t).state = .join from ht] at hstate
        cases hstate
      | joined hstate hpending hexited hnew => rw [hnew] at ht; cases ht
      | waits hstate hpending hnot hnew =>
        rw [hnew]
        exact h.place t hstate
    · rw [updateEvents_of_not_mem hmem] at ht ⊢
      exact h.place t ht

theorem Lists.tick {d : Nat} {b : Bool} (h : Lists s) (hrun : Running s) :
    Lists (tick d b s) ∧ Running (tick d b s) := by
  unfold Scheduler.tick
  split
  · exact ⟨h, hrun⟩
  · exact h.updateEvents.goOn (fun _ => rfl) (fun _ => rfl) (fun _ => rfl) (fun _ => rfl)

/-! ## New threads -/

/-- A new record, at the end of both lists. -/
def State.addThread (s : State) (i : ThreadInfo) (memSpaces fdTables : RefCounts) : State :=
  { s with
    threads := Function.update s.threads s.nextTid i
    memSpaces := memSpaces
    fdTables := fdTables
    activeList := s.activeList ++ [s.nextTid]
    globalList := s.globalList ++ [s.nextTid]
    nextTid := s.nextTid + 1 }

theorem createKernelThread_eq (s : State) : createKernelThread s =
    (s.addThread (newThread s.nextTid 0 s.memSpaces.next s.fdTables.next false)
      s.memSpaces.new s.fdTables.new).pushChild initThread s.nextTid := rfl

theorem cloneThread_eq (sub mem fd : Bool) (s : State) : cloneThread sub mem fd s =
    (s.addThread (newThread
      (if sub then (s.threads s.current).mainThread else s.nextTid) (s.threads s.current).uid
      (shareOrNew mem (s.threads s.current).memSpace s.memSpaces).1
      (shareOrNew fd (s.threads s.current).fds s.fdTables).1 true)
      (shareOrNew mem (s.threads s.current).memSpace s.memSpaces).2
      (shareOrNew fd (s.threads s.current).fds s.fdTables).2).pushChild
        (s.threads s.current).mainThread s.nextTid := rfl

/-- A new thread is the main thread of a new process, or one of a thread that exists. -/
theorem Mains.addThread {main : Nat → Nat} {n m : Nat} (h : Mains main n) (hn : 0 < n)
    (hm : m = n ∨ ∃ t < n, t ≠ idleThread ∧ m = main t) : Mains (Function.update main n m) (n + 1) := by
  have hlt : m ≤ n := by
    rcases hm with rfl | ⟨t, ht, -, rfl⟩
    · exact Nat.le_refl m
    · exact Nat.le_of_lt (h.lt t ht)
  have hself : Function.update main n m m = m := by
    rcases hm with rfl | ⟨t, ht, -, rfl⟩
    · simp
    · rw [Function.update_of_ne (Nat.ne_of_lt (h.lt t ht)), h.main_main]
  have hzero : m ≠ idleThread := by
    rcases hm with rfl | ⟨t, -, ht, rfl⟩
    · exact Nat.ne_of_gt hn
    · exact h.not_idle t ht
  refine ⟨fun t => ?_, fun t ht => ?_, fun t ht => ?_, fun t ht => ?_⟩
  · by_cases htn : t = n
    · rw [htn, Function.update_self, hself]
    · rw [Function.update_of_ne htn]
      have hmn : main t ≠ n := by
        rcases Nat.lt_or_ge t n with hlt | hge
        · exact Nat.ne_of_lt (h.lt t hlt)
        · rw [h.fresh t hge]
          exact htn
      rw [Function.update_of_ne hmn, h.main_main]
  · by_cases htn : t = n
    · rw [htn, Function.update_self]
      exact hzero
    · rw [Function.update_of_ne htn]
      exact h.not_idle t ht
  · by_cases htn : t = n
    · rw [htn, Function.update_self]
      exact Nat.lt_succ_of_le hlt
    · rw [Function.update_of_ne htn]
      exact Nat.lt_succ_of_lt (h.lt t (by omega))
  · rw [Function.update_of_ne (by omega)]
    exact h.fresh t (by omega)

theorem Lists.addThread {i : ThreadInfo} {r₁ r₂ : RefCounts} (h : Lists s) (hready : i.state = .ready)
    (hmain : i.mainThread = s.nextTid ∨
      ∃ t < s.nextTid, t ≠ idleThread ∧ i.mainThread = (s.threads t).mainThread) :
    Lists (s.addThread i r₁ r₂) := by
  have htids := h.tids
  refine ⟨Nat.le_succ_of_le htids, ?_, ?_, fun t ht => ?_, ?_, fun t ht => ?_, fun t ht => ?_⟩
  · have hfun : (fun t => ((s.addThread i r₁ r₂).threads t).mainThread) =
        Function.update (fun t => (s.threads t).mainThread) s.nextTid i.mainThread := by
      funext t
      by_cases ht : t = s.nextTid
      · simp [State.addThread, ht]
      · simp [State.addThread, ht]
    rw [hfun]
    exact h.mains.addThread (by omega) hmain
  · apply List.nodup_append.2 ⟨h.nodup, by simp, ?_⟩
    intro t ht u hu htu
    obtain rfl := List.mem_singleton.1 hu
    exact absurd (h.listed t ht).2 (by omega)
  · rcases List.mem_append.1 ht with ht | ht
    · have := h.listed t ht
      exact ⟨this.1, Nat.lt_succ_of_lt this.2⟩
    · obtain rfl := List.mem_singleton.1 ht
      refine ⟨?_, Nat.lt_succ_self _⟩
      show s.nextTid ≠ 0
      omega
  · have hne : idleThread ≠ s.nextTid := by
      show 0 ≠ s.nextTid
      omega
    simp only [State.addThread, Function.update_of_ne hne]
    exact h.idle
  · by_cases hnew : t = s.nextTid
    · simp [State.addThread, hnew, hready] at ht
    · simp only [State.addThread, Function.update_of_ne hnew] at ht ⊢
      exact List.mem_append_left _ (h.blocked t ht)
  · by_cases hnew : t = s.nextTid
    · simp [State.addThread, hnew, hready] at ht
    · simp only [State.addThread, Function.update_of_ne hnew] at ht ⊢
      exact h.place t ht

theorem Running.addThread {i : ThreadInfo} {r₁ r₂ : RefCounts} (h : Running s)
    (hready : i.state = .ready) : Running (s.addThread i r₁ r₂) := by
  refine ⟨?_, h.listed.imp_right fun hmem => List.mem_append_left _ hmem⟩
  show (Function.update s.threads s.nextTid i s.current).state = .ready
  by_cases hnew : s.current = s.nextTid
  · simp [hnew, hready]
  · simp only [Function.update_of_ne hnew]
    exact h.ready

/-! ## Every step -/

/-- What holds of the lists and of the running thread between two steps. -/
structure Base (s : State) : Prop where
  lists : Lists s
  running : Running s

theorem base_initial : Base initial := ⟨lists_initial, rfl, .inl rfl⟩

theorem Base.current_lt (h : Base s) : s.current < s.nextTid := by
  rcases h.running.listed with e | hmem
  · have := h.lists.tids
    rw [e]
    show 0 < s.nextTid
    omega
  · exact (h.lists.listed _ hmem).2

theorem Base.current_mem (h : Base s) (hcurrent : s.current ≠ idleThread) :
    s.current ∈ s.activeList :=
  h.running.listed.resolve_left hcurrent

theorem Base.modify_same (h : Base s)
    (hmain : (f (s.threads t)).mainThread = (s.threads t).mainThread)
    (hstate : (f (s.threads t)).state = (s.threads t).state)
    (harg : (f (s.threads t)).arg = (s.threads t).arg)
    (hpc : (f (s.threads t)).pc = (s.threads t).pc) : Base (s.modify t f) := by
  refine ⟨h.lists.modify_same hmain hstate harg hpc, h.running.modify fun ht => ?_⟩
  rw [hstate, ht]
  exact h.running.ready

theorem Base.modify_ready (h : Base s)
    (hmain : (f (s.threads t)).mainThread = (s.threads t).mainThread)
    (hstate : (f (s.threads t)).state = .ready) : Base (s.modify t f) :=
  ⟨h.lists.modify_ready hmain hstate, h.running.modify fun _ => hstate⟩

/-- A change of the running thread's record that keeps its state. -/
theorem Base.modify_current (h : Base s)
    (hmain : (f (s.threads s.current)).mainThread = (s.threads s.current).mainThread)
    (hstate : (f (s.threads s.current)).state = (s.threads s.current).state) :
    Base (s.modify s.current f) :=
  h.modify_ready hmain (hstate.trans h.running.ready)

/-- A change outside of the records, the active list, the running thread and the counter. -/
theorem Base.congr (h : Base s) (hthreads : s'.threads = s.threads)
    (hactive : s'.activeList = s.activeList) (hcurrent : s'.current = s.current)
    (hnext : s'.nextTid = s.nextTid) : Base s' := by
  refine ⟨h.lists.of_perm hthreads hnext (by rw [hactive]), ?_, ?_⟩
  · rw [hthreads, hcurrent]
    exact h.running.ready
  · rw [hcurrent, hactive]
    exact h.running.listed

theorem Base.addThread {i : ThreadInfo} {r₁ r₂ : RefCounts} (h : Base s) (hready : i.state = .ready)
    (hmain : i.mainThread = s.nextTid ∨
      ∃ t < s.nextTid, t ≠ idleThread ∧ i.mainThread = (s.threads t).mainThread) :
    Base (s.addThread i r₁ r₂) :=
  ⟨h.lists.addThread hready hmain, h.running.addThread hready⟩

theorem Base.requestExit {tid : Nat} (h : Base s)
    (hf : ∀ i, (f i).mainThread = i.mainThread ∧ (f i).state = i.state ∧ (f i).arg = i.arg ∧
      (f i).pc = i.pc) :
    Base (requestExit tid f s).2 := by
  unfold Scheduler.requestExit
  dsimp only
  split
  · split
    · exact h
    · exact h.modify_same (hf _).1 (hf _).2.1 (hf _).2.2.1 (hf _).2.2.2
  · exact h

theorem Base.enterExit {k : Exit} (h : Base s) : Base (enterExit k s) := h.modify_current rfl rfl

theorem Base.threadExec (h : Base s) : Base (threadExec s) := by
  have hown : Base (s.modify s.current fun i => { i with stickyCount := 0, userMode := true }) :=
    h.modify_current rfl rfl
  unfold Scheduler.threadExec
  dsimp only
  split
  · exact hown.congr rfl rfl rfl rfl
  · exact (hown.modify_current (f := fun i => { i with memSpace := s.memSpaces.next }) rfl rfl).congr rfl rfl rfl rfl

theorem Base.threadCheckFlags (h : Base s) : Base (threadCheckFlags s) := by
  have hflag : Base (s.modify s.current fun i => { i with killPending := false }) :=
    h.modify_current rfl rfl
  unfold Scheduler.threadCheckFlags
  dsimp only
  split
  · split
    · split
      · exact hflag.enterExit
      · exact hflag
    · exact hflag.enterExit
  · split
    · exact h.enterExit
    · exact h

theorem Base.finishExit {target : Nat} {code : UInt64} (h : Base s) (htarget : target ≠ idleThread) :
    Base (finishExit target code s) := by
  have hown : Base (s.modify s.current fun i =>
      { i with stickyCount := i.stickyCount + 1, pc := .run }) := h.modify_current rfl rfl
  unfold Scheduler.finishExit
  dsimp only
  have hrefs : Lists { s.modify s.current fun i =>
      { i with stickyCount := i.stickyCount + 1, pc := .run } with
      fdTables := s.fdTables.release (s.threads target).fds
      memSpaces := s.memSpaces.release (s.threads target).memSpace } :=
    hown.lists.of_perm rfl rfl (List.Perm.refl _)
  have hfinished := hrefs.modify (t := target)
    (f := fun i => { i with exitCode := code, state := .finished }) rfl (fun e => absurd e htarget)
    (by simp) (by simp)
  obtain ⟨hlists, hrunning⟩ := hfinished.threadYield
  exact ⟨hlists, hrunning⟩

theorem Base.killLoop {k : Exit} (h : Base s) : Base (killLoop k s) := by
  unfold Scheduler.killLoop
  dsimp only
  split
  · exact h.modify_current rfl rfl
  · rename_i child _
    have hpop := h.modify_same (t := s.target s.current k)
      (f := fun i => { i with childThreads := i.childThreads.dropLast }) rfl rfl rfl rfl
    have habort := hpop.modify_same (t := child) (f := fun i => { i with abortPending := true })
      rfl rfl rfl rfl
    exact habort.modify_current rfl rfl

theorem Base.pushChild {child : Nat} (h : Base s) : Base (s.pushChild t child) :=
  h.modify_same rfl rfl rfl rfl

theorem Base.eraseChild {child : Nat} (h : Base s) : Base (s.eraseChild t child) :=
  h.modify_same rfl rfl rfl rfl

theorem Base.threadBlock {type : ThreadState} {arg : Nat} {pc : Pc} (h : Base s)
    (hcurrent : s.current ≠ idleThread)
    (hplace : type = .join → pc = .joining arg ∨ ∃ k, pc = .killJoin arg k) :
    Base (threadBlock type arg pc s) := by
  obtain ⟨hlists, hrunning⟩ := h.lists.threadBlock h.running hcurrent hplace
  exact ⟨hlists, hrunning⟩

theorem Base.act (h : Base s) (hcurrent : s.current ≠ idleThread) (hact : act s = some s') :
    Base s' := by
  unfold Scheduler.act at hact
  dsimp only at hact
  cases hpc : (s.threads s.current).pc with
  | run => simp [hpc] at hact
  | sleeping | waiting =>
    obtain rfl : _ = s' := by simpa [hpc] using hact
    exact h.modify_current rfl rfl
  | popped child =>
    obtain rfl : _ = s' := by simpa [hpc] using hact
    exact h.threadBlock hcurrent fun _ => .inl rfl
  | joining child =>
    simp only [hpc] at hact
    split at hact
    · obtain rfl := Option.some.inj hact
      have hdelete : Base (s.delete child) := h.congr rfl rfl rfl rfl
      exact hdelete.modify_current rfl rfl
    · obtain rfl := Option.some.inj hact
      exact h.pushChild.modify_current rfl rfl
  | killLoop k =>
    obtain rfl : _ = s' := by simpa [hpc] using hact
    exact h.killLoop
  | killing child k =>
    obtain rfl : _ = s' := by simpa [hpc] using hact
    exact h.threadBlock hcurrent fun _ => .inr ⟨k, rfl⟩
  | killJoin child k =>
    obtain rfl : _ = s' := by simpa only [hpc, Option.some.injEq] using hact
    split
    · have hjoined : Base { s with joined := s.joined ++ [child] } := h.congr rfl rfl rfl rfl
      exact hjoined.modify_current rfl rfl
    · exact h.pushChild.modify_current rfl rfl
  | finish k =>
    cases k with
    | thread code =>
      obtain rfl : _ = s' := by simpa [hpc] using hact
      exact h.finishExit hcurrent
    | caller code => simp [hpc] at hact
    | main code =>
      obtain rfl : _ = s' := by simpa [hpc] using hact
      exact h.finishExit (h.lists.mains.not_idle _ hcurrent)

/-- A step is a tick, or the running thread going on inside of a call, or calling. -/
theorem step_cases {e : Event} (h : step s e = some s') :
    (∃ d b, e = .tick d b ∧ (b = true → (s.threads s.current).pc = .run) ∧ s' = tick d b s) ∨
    (e = .act ∧ s.current ≠ idleThread ∧ act s = some s') ∨
    (s.current ≠ idleThread ∧ (s.threads s.current).pc = .run ∧ call s e = some s') := by
  cases e with
  | tick d b =>
    simp only [step] at h
    split at h
    · cases h
    · rename_i hmode
      exact .inl ⟨d, b, rfl, by simpa using hmode, (Option.some.inj h).symm⟩
  | act =>
    simp only [step] at h
    split at h
    · cases h
    · rename_i hcurrent
      exact .inr (.inl ⟨rfl, hcurrent, h⟩)
  | _ =>
    simp only [step] at h
    split at h
    · rename_i hc
      exact .inr (.inr ⟨hc.1, hc.2, h⟩)
    · cases h

theorem Base.call {e : Event} (h : Base s) (hcurrent : s.current ≠ idleThread)
    (hcall : call s e = some s') : Base s' := by
  cases e with
  | tick d b => cases hcall
  | act => cases hcall
  | createKernelThread =>
    obtain rfl := Option.some.inj hcall
    rw [createKernelThread_eq]
    exact (h.addThread rfl (.inl rfl)).pushChild
  | cloneThread sub mem fd =>
    obtain rfl := Option.some.inj hcall
    rw [cloneThread_eq]
    refine (h.addThread rfl ?_).pushChild
    cases sub
    · exact .inl rfl
    · exact .inr ⟨s.current, h.current_lt, hcurrent, rfl⟩
  | threadYield =>
    obtain rfl := Option.some.inj hcall
    obtain ⟨hlists, hrunning⟩ := h.lists.threadYield
    exact ⟨hlists, hrunning⟩
  | threadSleep ticks =>
    obtain rfl := Option.some.inj hcall
    exact h.threadBlock hcurrent nofun
  | lockWait =>
    obtain rfl := Option.some.inj hcall
    exact (h.modify_current rfl rfl).threadBlock hcurrent nofun
  | unlockWake w =>
    simp only [Scheduler.call] at hcall
    split at hcall
    · obtain rfl := Option.some.inj hcall
      exact h.modify_ready rfl rfl
    · cases hcall
  | threadDetach tid =>
    obtain rfl := Option.some.inj hcall
    unfold threadDetach
    dsimp only
    split
    · split
      · exact h
      · exact h.eraseChild.pushChild
    · exact h
  | threadJoin tid =>
    obtain rfl := Option.some.inj hcall
    unfold threadJoin
    dsimp only
    split
    · have herase : Base (s.eraseChild (s.threads s.current).mainThread tid) := h.eraseChild
      exact herase.modify_current (f := fun i => { i with pc := .popped tid }) rfl rfl
    · exact h
  | threadTryJoin tid =>
    obtain rfl := Option.some.inj hcall
    unfold threadTryJoin
    dsimp only
    split
    · split
      · exact h.eraseChild.congr rfl rfl rfl rfl
      · exact h
    · exact h
  | threadKill tid =>
    obtain rfl := Option.some.inj hcall
    exact h.requestExit fun _ => ⟨rfl, rfl, rfl, rfl⟩
  | threadAbort tid =>
    obtain rfl := Option.some.inj hcall
    exact h.requestExit fun _ => ⟨rfl, rfl, rfl, rfl⟩
  | handleKill rip =>
    obtain rfl := Option.some.inj hcall
    exact h.modify_current rfl rfl
  | setUser uid =>
    obtain rfl := Option.some.inj hcall
    exact h.modify_current rfl rfl
  | threadExec =>
    obtain rfl := Option.some.inj hcall
    exact h.threadExec
  | threadCheckFlags =>
    obtain rfl := Option.some.inj hcall
    exact h.threadCheckFlags
  | threadExit code =>
    obtain rfl := Option.some.inj hcall
    exact h.enterExit
  | processDoExit code =>
    obtain rfl := Option.some.inj hcall
    exact h.enterExit

/-- **Every step** keeps the lists and goes on with a ready thread. -/
theorem Base.step {e : Event} (h : Base s) (hstep : step s e = some s') : Base s' := by
  obtain ⟨d, b, -, -, rfl⟩ | ⟨-, hcurrent, hact⟩ | ⟨hcurrent, -, hcall⟩ := step_cases hstep
  · obtain ⟨hlists, hrunning⟩ := h.lists.tick (d := d) (b := b) h.running
    exact ⟨hlists, hrunning⟩
  · exact h.act hcurrent hact
  · exact h.call hcurrent hcall

end ChenixOS.Scheduler
