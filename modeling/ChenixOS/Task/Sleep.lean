import ChenixOS.Task.SchedulerProof

/-!
# Sleep

`ThreadSleep` and `Tick` with the time-stamp counter (task/Scheduler.cpp). The counter is a 64-bit word;
the model's `now` is the number of ticks that it counts the low bits of. `UpdateEvents` charges a
sleeping thread the whole interval since the last tick of the core, also what was before the thread
blocked: the sleep is as long as asked only if it begins exactly at a tick and the product does not wrap.

* `Moved`: what a step that is not a tick does to the state of a thread.
* `Queued`: a thread in the queue of a `QueueLock` does not sleep, so no lock wakes a sleeping thread.
* `SleepsOn`: what is left of a sleep, kept by every step.
-/

namespace ChenixOS.Scheduler

open Transitions

variable {s s' s'' : State} {t u : Nat} {f : ThreadInfo → ThreadInfo}

/-! ## Steps between two ticks -/

/-- The fields that decide when a thread is made ready. -/
def ThreadInfo.wait (i : ThreadInfo) : ThreadState × Nat × Bool := (i.state, i.arg, i.queued)

/-- What a step between two ticks does to a thread. -/
inductive Moved (s s' : State) (u : Nat) : Prop
  | same (hwait : (s'.threads u).wait = (s.threads u).wait)
  | made (hfresh : s.nextTid ≤ u) (hwait : (s'.threads u).wait = (.ready, 0, false))
  | blocked (hcurrent : u = s.current)
    (hqueued : (s'.threads u).queued = true → (s.threads u).queued = true ∨
      (s'.threads u).state = .queueLock)
  | woken (hold : (s.threads u).queued = true) (hqueued : (s'.threads u).queued = false)
  | finished (hstate : (s'.threads u).state = .finished)
    (hqueued : (s'.threads u).queued = (s.threads u).queued)

/-- A change of other fields can come after the step. -/
theorem Moved.before (h : Moved s s' u) (hwait : (s''.threads u).wait = (s'.threads u).wait) :
    Moved s s'' u := by
  have hstate : (s''.threads u).state = (s'.threads u).state := congrArg (·.1) hwait
  have hqueued : (s''.threads u).queued = (s'.threads u).queued := congrArg (·.2.2) hwait
  cases h with
  | same h => exact .same (hwait.trans h)
  | made hfresh h => exact .made hfresh (hwait.trans h)
  | blocked he h => exact .blocked he (by rwa [hqueued, hstate])
  | woken hold h => exact .woken hold (hqueued.trans h)
  | finished h hq => exact .finished (hstate.trans h) (hqueued.trans hq)

theorem Moved.modify (h : Moved s s' u) (hwait : (f (s'.threads t)).wait = (s'.threads t).wait) :
    Moved s (s'.modify t f) u :=
  h.before (modify_keeps ThreadInfo.wait hwait u)

theorem moved_refl (s : State) (u : Nat) : Moved s s u := .same rfl

theorem moved_modify (hwait : (f (s.threads t)).wait = (s.threads t).wait) :
    Moved s (s.modify t f) u :=
  (moved_refl s u).modify hwait

/-- A switch changes the mode of the thread it leaves. -/
theorem switchThread_keeps {α : Type} (g : ThreadInfo → α) (hg : ∀ i, g { i with userMode := false } = g i)
    (s : State) (u : Nat) : g ((switchThread s).threads u) = g (s.threads u) := by
  have hkeep := @modify_keeps (findNextThread s).2 s.current (fun i => { i with userMode := false })
    _ g (hg _) u
  rw [findNextThread_threads] at hkeep
  exact hkeep

theorem switchThread_wait (s : State) (u : Nat) :
    ((switchThread s).threads u).wait = (s.threads u).wait :=
  switchThread_keeps ThreadInfo.wait (fun _ => rfl) s u

theorem threadYield_wait (s : State) (u : Nat) :
    ((threadYield s).threads u).wait = (s.threads u).wait := by
  unfold threadYield
  split
  · rw [findNextThread_threads]
  · exact switchThread_wait s u

/-- **`ThreadBlock`** changes the state of the running thread. -/
theorem moved_threadBlock {type : ThreadState} {arg : Nat} {pc : Pc} (s : State) (u : Nat) :
    Moved s (threadBlock type arg pc s) u := by
  have hblock : Moved s (s.modify s.current fun i => { i with arg := arg, state := type, pc := pc }) u := by
    by_cases hu : u = s.current
    · refine .blocked hu fun hqueued => .inl ?_
      rw [hu, modify_self] at hqueued
      rw [hu]
      exact hqueued
    · exact .same (by rw [modify_of_ne hu])
  exact hblock.before (switchThread_wait _ u)

theorem moved_addThread {main : Nat} {uid : UInt64} {memSpace fds : Nat} {userMode : Bool} {r₁ r₂ : RefCounts} :
    Moved s (s.addThread (newThread main uid memSpace fds userMode) r₁ r₂) u := by
  by_cases hu : u = s.nextTid
  · refine .made (Nat.le_of_eq hu.symm) ?_
    simp [State.addThread, hu, newThread, ThreadInfo.wait]
  · exact .same (by simp [State.addThread, hu])

theorem moved_enterExit {k : Exit} : Moved s (enterExit k s) u := moved_modify rfl

theorem moved_requestExit {tid : Nat} (hf : ∀ i, (f i).wait = i.wait) :
    Moved s (requestExit tid f s).2 u := by
  unfold requestExit
  dsimp only
  split
  · split
    · exact moved_refl s u
    · exact moved_modify (hf _)
  · exact moved_refl s u

theorem moved_threadExec : Moved s (threadExec s) u := by
  have hown : Moved s (s.modify s.current fun i => { i with stickyCount := 0, userMode := true }) u :=
    moved_modify rfl
  unfold threadExec
  dsimp only
  split
  · exact hown.before rfl
  · have hspace := hown.modify (t := s.current) (f := fun i => { i with memSpace := s.memSpaces.next }) rfl
    exact hspace.before rfl

theorem moved_threadCheckFlags : Moved s (threadCheckFlags s) u := by
  have hflag : Moved s (s.modify s.current fun i => { i with killPending := false }) u := moved_modify rfl
  unfold threadCheckFlags
  dsimp only
  split
  · split
    · split
      · exact hflag.modify rfl
      · exact hflag
    · exact hflag.modify rfl
  · split
    · exact moved_enterExit
    · exact moved_refl s u

theorem moved_killLoop {k : Exit} : Moved s (killLoop k s) u := by
  unfold killLoop
  dsimp only
  split
  · exact moved_modify rfl
  · rename_i child _
    have hpop : Moved s (s.modify (s.target s.current k) fun i =>
      { i with childThreads := i.childThreads.dropLast }) u := moved_modify rfl
    have habort := hpop.modify (t := child) (f := fun i => { i with abortPending := true }) rfl
    exact habort.modify rfl

/-- `ThreadExit` and `ProcessDoExit` finish their target. -/
theorem moved_finishExit {target : Nat} {code : UInt64} : Moved s (finishExit target code s) u := by
  have hown : Moved s (s.modify s.current fun i =>
      { i with stickyCount := i.stickyCount + 1, pc := .run }) u := moved_modify rfl
  unfold finishExit
  dsimp only
  refine Moved.before ?_ (threadYield_wait _ u)
  by_cases hu : u = target
  · subst hu
    refine .finished ?_ ?_
    · rw [modify_self]
    · rw [modify_self]
      exact @modify_keeps s s.current (fun i => { i with stickyCount := i.stickyCount + 1, pc := .run })
        _ ThreadInfo.queued rfl u
  · apply hown.before
    rw [modify_of_ne hu]

theorem moved_pushChild {child : Nat} : Moved s (s.pushChild t child) u := moved_modify rfl

theorem moved_eraseChild {child : Nat} : Moved s (s.eraseChild t child) u := moved_modify rfl

theorem moved_act (hact : act s = some s') : Moved s s' u := by
  unfold act at hact
  dsimp only at hact
  cases hpc : (s.threads s.current).pc with
  | run => simp [hpc] at hact
  | sleeping | waiting =>
    obtain rfl : _ = s' := by simpa [hpc] using hact
    exact moved_modify rfl
  | popped child | killing child k =>
    obtain rfl : _ = s' := by simpa [hpc] using hact
    exact moved_threadBlock s u
  | joining child =>
    simp only [hpc] at hact
    split at hact
    · obtain rfl := Option.some.inj hact
      have hdelete : Moved s (s.delete child) u := .same rfl
      exact hdelete.modify rfl
    · obtain rfl := Option.some.inj hact
      exact moved_pushChild.modify rfl
  | killLoop k =>
    obtain rfl : _ = s' := by simpa [hpc] using hact
    exact moved_killLoop
  | killJoin child k =>
    obtain rfl : _ = s' := by simpa only [hpc, Option.some.injEq] using hact
    split
    · have hjoined : Moved s { s with joined := s.joined ++ [child] } u := .same rfl
      exact hjoined.modify rfl
    · exact moved_pushChild.modify rfl
  | finish k =>
    cases k with
    | caller code => simp [hpc] at hact
    | thread code | main code =>
      obtain rfl : _ = s' := by simpa [hpc] using hact
      exact moved_finishExit

theorem moved_call {e : Event} (hcall : call s e = some s') : Moved s s' u := by
  cases e with
  | tick d b => cases hcall
  | act => cases hcall
  | createKernelThread =>
    obtain rfl := Option.some.inj hcall
    rw [createKernelThread_eq]
    exact moved_addThread.modify rfl
  | cloneThread sub mem fd =>
    obtain rfl := Option.some.inj hcall
    rw [cloneThread_eq]
    exact moved_addThread.modify rfl
  | threadYield =>
    obtain rfl := Option.some.inj hcall
    exact .same (threadYield_wait s u)
  | threadSleep ticks =>
    obtain rfl := Option.some.inj hcall
    exact moved_threadBlock s u
  | lockWait =>
    obtain rfl := Option.some.inj hcall
    by_cases hu : u = s.current
    · refine .blocked hu fun _ => .inr ?_
      have hstate : ((threadBlock .queueLock 0 .waiting
          (s.modify s.current fun i => { i with queued := true })).threads u).wait = (.queueLock, 0, true) := by
        rw [threadBlock, switchThread_wait]
        simp [hu, ThreadInfo.wait]
      exact congrArg (·.1) hstate
    · refine .same ?_
      rw [threadBlock, switchThread_wait]
      simp [hu]
  | unlockWake w =>
    simp only [call] at hcall
    split at hcall
    · rename_i hqueued
      obtain rfl := Option.some.inj hcall
      by_cases hu : u = w
      · exact .woken (hu ▸ hqueued) (by simp [hu])
      · exact .same (by rw [modify_of_ne hu])
    · cases hcall
  | threadDetach tid =>
    obtain rfl := Option.some.inj hcall
    unfold threadDetach
    dsimp only
    split
    · split
      · exact moved_refl s u
      · have herase : Moved s (s.eraseChild (s.threads s.current).mainThread tid) u := moved_eraseChild
        exact herase.modify (t := initThread)
          (f := fun i => { i with childThreads := i.childThreads ++ [tid] }) rfl
    · exact moved_refl s u
  | threadJoin tid =>
    obtain rfl := Option.some.inj hcall
    unfold threadJoin
    dsimp only
    split
    · have herase : Moved s (s.eraseChild (s.threads s.current).mainThread tid) u := moved_eraseChild
      exact herase.modify (t := s.current) (f := fun i => { i with pc := .popped tid }) rfl
    · exact moved_refl s u
  | threadTryJoin tid =>
    obtain rfl := Option.some.inj hcall
    unfold threadTryJoin
    dsimp only
    split
    · split
      · exact moved_eraseChild.before rfl
      · exact moved_refl s u
    · exact moved_refl s u
  | threadKill tid =>
    obtain rfl := Option.some.inj hcall
    exact moved_requestExit fun _ => rfl
  | threadAbort tid =>
    obtain rfl := Option.some.inj hcall
    exact moved_requestExit fun _ => rfl
  | handleKill rip =>
    obtain rfl := Option.some.inj hcall
    exact moved_modify rfl
  | setUser uid =>
    obtain rfl := Option.some.inj hcall
    exact moved_modify rfl
  | threadExec =>
    obtain rfl := Option.some.inj hcall
    exact moved_threadExec
  | threadCheckFlags =>
    obtain rfl := Option.some.inj hcall
    exact moved_threadCheckFlags
  | threadExit code | processDoExit code =>
    obtain rfl := Option.some.inj hcall
    exact moved_enterExit

/-- A step that is not a tick. -/
theorem moved_step {e : Event} (hnot : ∀ d b, e ≠ .tick d b) (hstep : step s e = some s') :
    Moved s s' u := by
  obtain ⟨d, b, he, -, -⟩ | ⟨-, -, hact⟩ | ⟨-, -, hcall⟩ := step_cases hstep
  · exact absurd he (hnot d b)
  · exact moved_act hact
  · exact moved_call hcall

/-! ## Queues -/

/-- A thread with an entry in a queue waits there, or its process has exited. -/
def Queued (s : State) : Prop := ∀ u, (s.threads u).queued = true →
  (s.threads u).state = .queueLock ∨ (s.threads u).alive = false

theorem queued_initial : Queued initial := by
  intro u hu
  simp [initial, newThread] at hu

theorem Queued.moved (h : Queued s) (hbase : Base s) (hmoved : ∀ u, Moved s s' u) : Queued s' := by
  intro u hu
  cases hmoved u with
  | same hwait =>
    have hstate : (s'.threads u).state = (s.threads u).state := congrArg (·.1) hwait
    have hqueued : (s'.threads u).queued = (s.threads u).queued := congrArg (·.2.2) hwait
    rw [hqueued] at hu
    simpa [ThreadInfo.alive, hstate] using h u hu
  | made _ hwait =>
    have hqueued : (s'.threads u).queued = false := congrArg (·.2.2) hwait
    rw [hqueued] at hu
    cases hu
  | blocked hcurrent hqueued =>
    rcases hqueued hu with hold | hstate
    · have hready := hbase.running.ready
      rw [← hcurrent] at hready
      simpa [ThreadInfo.alive, hready] using h u hold
    · exact .inl hstate
  | woken _ hqueued =>
    rw [hqueued] at hu
    cases hu
  | finished hstate _ => exact .inr (by simp [ThreadInfo.alive, hstate])

theorem tick_wait {d : Nat} {b : Bool} (hsticky : (s.threads s.current).stickyCount = 0) (u : Nat) :
    ((tick d b s).threads u).wait = ((updateEvents d s).threads u).wait := by
  have hkeep := @modify_keeps (findNextThread (updateEvents d s)).2 s.current
    (fun i => { i with userMode := b }) _ ThreadInfo.wait rfl u
  rw [findNextThread_threads] at hkeep
  simp only [tick, hsticky, ne_eq, not_true_eq_false, if_false]
  exact hkeep

theorem tick_sticky {d : Nat} {b : Bool} (hsticky : (s.threads s.current).stickyCount ≠ 0) :
    tick d b s = s := by
  simp [tick, hsticky]

theorem Queued.tick {d : Nat} {b : Bool} (h : Queued s) (hbase : Base s) : Queued (tick d b s) := by
  by_cases hsticky : (s.threads s.current).stickyCount = 0
  · intro u hu
    have hwait := @tick_wait s d b hsticky u
    have hstate : ((Scheduler.tick d b s).threads u).state = ((updateEvents d s).threads u).state :=
      congrArg (·.1) hwait
    have hqueued : ((Scheduler.tick d b s).threads u).queued = ((updateEvents d s).threads u).queued :=
      congrArg (·.2.2) hwait
    rw [hqueued] at hu
    simp only [ThreadInfo.alive, hstate]
    by_cases hmem : u ∈ s.activeList
    · have hupdated := @updateEvents_updated s u d hbase.lists.nodup hmem
      rw [hupdated.queued] at hu
      have hold := h u hu
      cases hupdated with
      | exited hstate hnew => simp [hnew, hstate]
      | finished hstate hnew => simp [hnew]
      | ready hstate hnew => simp [ThreadInfo.alive, hstate] at hold
      | queueLock hstate hnew => simp [hnew, hstate]
      | interrupted hstate _ hnew => rcases hstate with e | e <;> simp [ThreadInfo.alive, e] at hold
      | awoke hstate _ hnew | sleeps hstate _ hnew | joined hstate _ _ hnew | waits hstate _ _ hnew =>
        simp [ThreadInfo.alive, hstate] at hold
    · rw [updateEvents_of_not_mem hmem] at hu ⊢
      exact h u hu
  · rwa [tick_sticky hsticky]

theorem Queued.step {e : Event} (h : Queued s) (hbase : Base s) (hstep : step s e = some s') :
    Queued s' := by
  obtain ⟨d, b, -, -, rfl⟩ | ⟨-, -, hact⟩ | ⟨-, -, hcall⟩ := step_cases hstep
  · exact h.tick hbase
  · exact h.moved hbase fun _ => moved_act hact
  · exact h.moved hbase fun _ => moved_call hcall

/-! ## The counter of threads -/

@[simp] theorem switchThread_nextTid : (switchThread s).nextTid = s.nextTid := findNextThread_nextTid

@[simp] theorem threadBlock_nextTid {type : ThreadState} {arg : Nat} {pc : Pc} :
    (threadBlock type arg pc s).nextTid = s.nextTid := switchThread_nextTid

@[simp] theorem threadYield_nextTid : (threadYield s).nextTid = s.nextTid := by
  unfold threadYield
  split <;> simp

theorem act_nextTid (hact : act s = some s') : s'.nextTid = s.nextTid := by
  unfold act at hact
  dsimp only at hact
  cases hpc : (s.threads s.current).pc with
  | run => simp [hpc] at hact
  | sleeping | waiting =>
    obtain rfl : _ = s' := by simpa [hpc] using hact
    rfl
  | popped child | killing child k =>
    obtain rfl : _ = s' := by simpa [hpc] using hact
    exact threadBlock_nextTid
  | joining child =>
    simp only [hpc] at hact
    split at hact <;> (obtain rfl := Option.some.inj hact; rfl)
  | killLoop k =>
    obtain rfl : _ = s' := by simpa [hpc] using hact
    unfold killLoop
    dsimp only
    split <;> rfl
  | killJoin child k =>
    obtain rfl : _ = s' := by simpa only [hpc, Option.some.injEq] using hact
    split <;> rfl
  | finish k =>
    cases k with
    | caller code => simp [hpc] at hact
    | thread code | main code =>
      obtain rfl : _ = s' := by simpa [hpc] using hact
      exact threadYield_nextTid

theorem call_nextTid {e : Event} (hcall : call s e = some s') : s.nextTid ≤ s'.nextTid := by
  cases e <;> simp only [call, Option.some.injEq, reduceCtorEq] at hcall
  case unlockWake w =>
    split at hcall
    · obtain rfl := Option.some.inj hcall
      exact Nat.le_refl _
    · cases hcall
  all_goals subst hcall
  case createKernelThread | cloneThread => exact Nat.le_succ _
  case threadYield | threadSleep | lockWait => simp
  case handleKill | setUser | threadExit | processDoExit => exact Nat.le_refl _
  all_goals
    simp only [threadDetach, threadJoin, threadTryJoin, threadKill, threadAbort, requestExit,
      threadExec, threadCheckFlags, enterExit]
    (repeat' split) <;> exact Nat.le_refl _

theorem step_nextTid {e : Event} (hstep : step s e = some s') : s.nextTid ≤ s'.nextTid := by
  obtain ⟨d, b, -, -, rfl⟩ | ⟨-, -, hact⟩ | ⟨-, -, hcall⟩ := step_cases hstep
  · unfold tick
    split
    · exact Nat.le_refl _
    · have hupdate : (updateEvents d s).nextTid = s.nextTid := by rw [updateEvents_frame]
      simp [hupdate]
  · exact Nat.le_of_eq (act_nextTid hact).symm
  · exact call_nextTid hcall

/-! ## The time -/

/-- `Time::GetTSC` after so many ticks of the counter. -/
def getTSC (time : Nat) : UInt64 := UInt64.ofNat time

/-- A core; `now` is the time of its last step. -/
structure Clocked where
  core : State
  lastTSC : UInt64
  now : Nat

/-- A step of the core; those that use the counter have no length of their own. -/
inductive Action
  | tick (userMode : Bool)
  | threadSleep (ms : UInt64)
  | other (e : Event)

/-- The events that do not use the counter. -/
def Event.untimed : Event → Bool
  | .tick _ _ | .threadSleep _ => false
  | _ => true

/-- A step at a time that is not before the last one. `UpdateEvents` reads the counter, unless `Tick`
returns at once; `ThreadSleep` does not. -/
def Clocked.step (ticksPerMilli : UInt64) (c : Clocked) : Nat × Action → Option Clocked
  | (time, action) =>
    if time < c.now then none
    else match action with
      | .tick userMode =>
        (Scheduler.step c.core (.tick (getTSC time - c.lastTSC).toNat userMode)).map fun core =>
          { core := core
            lastTSC := if (c.core.threads c.core.current).stickyCount ≠ 0 then c.lastTSC else getTSC time
            now := time }
      | .threadSleep ms =>
        (Scheduler.step c.core (.threadSleep (ms * ticksPerMilli).toNat)).map fun core =>
          { c with core := core, now := time }
      | .other e =>
        if e.untimed then (Scheduler.step c.core e).map fun core => { c with core := core, now := time }
        else none

/-- A timed step is a step of the core. -/
theorem Clocked.step_cases {ticksPerMilli : UInt64} {c c' : Clocked} {time : Nat} {a : Action}
    (h : c.step ticksPerMilli (time, a) = some c') : c.now ≤ time ∧ c'.now = time ∧
      ((∃ b, a = .tick b ∧ Scheduler.step c.core (.tick (getTSC time - c.lastTSC).toNat b) = some c'.core ∧
          c'.lastTSC = if (c.core.threads c.core.current).stickyCount ≠ 0 then c.lastTSC else getTSC time) ∨
        c'.lastTSC = c.lastTSC ∧ ∃ e, (∀ d b, e ≠ .tick d b) ∧ Scheduler.step c.core e = some c'.core) := by
  simp only [Clocked.step] at h
  split at h
  · cases h
  · rename_i htime
    refine ⟨Nat.le_of_not_lt htime, ?_⟩
    cases a with
    | tick b =>
      obtain ⟨core, hstep, rfl⟩ := Option.map_eq_some_iff.1 h
      exact ⟨rfl, .inl ⟨b, rfl, hstep, rfl⟩⟩
    | threadSleep ms =>
      obtain ⟨core, hstep, rfl⟩ := Option.map_eq_some_iff.1 h
      exact ⟨rfl, .inr ⟨rfl, _, by simp, hstep⟩⟩
    | other e =>
      simp only at h
      split at h
      · rename_i huntimed
        obtain ⟨core, hstep, rfl⟩ := Option.map_eq_some_iff.1 h
        refine ⟨rfl, .inr ⟨rfl, e, ?_, hstep⟩⟩
        rintro d b rfl
        cases huntimed
      · cases h

/-- What is charged is at most the time since the last tick. -/
theorem charged_le {last time : Nat} (h : last ≤ time) :
    (getTSC time - getTSC last).toNat ≤ time - last := by
  obtain ⟨x, rfl⟩ := Nat.exists_eq_add_of_le h
  have hsub : getTSC (last + x) - getTSC last = UInt64.ofNat x := by
    rw [getTSC, getTSC, UInt64.ofNat_add, UInt64.add_comm, UInt64.add_sub_cancel]
  rw [hsub, UInt64.toNat_ofNat', Nat.add_sub_cancel_left]
  exact Nat.mod_le _ _

/-! ## A sleep -/

/-- The pass of `UpdateEvents` over a sleeping thread. -/
theorem updateEvents_sleep {d : Nat} (hnodup : s.activeList.Nodup) (hmem : t ∈ s.activeList)
    (hstate : (s.threads t).state = .sleep) (hpending : ¬ (s.threads t).pending) :
    (updateEvents d s).threads t =
      if (s.threads t).arg ≤ d then { s.threads t with state := .ready, rax := OK }
      else { s.threads t with arg := (s.threads t).arg - d } := by
  obtain ⟨pre, suf, hlist⟩ := List.append_of_mem hmem
  rw [hlist] at hnodup
  have hpre : t ∉ pre := fun h => (List.nodup_append.1 hnodup).2.2 t h t (by simp) rfl
  have hsuf : t ∉ suf := (List.nodup_cons.1 (List.nodup_append.1 hnodup).2.1).1
  have hflags : (s.threads t).killPending = false ∧ (s.threads t).abortPending = false := by
    simpa [ThreadInfo.pending] using hpending
  rw [updateEvents, hlist, List.foldl_append, List.foldl_cons, foldl_updateEvent_of_not_mem hsuf]
  -- The threads before it in the list leave its record alone.
  have hold : (pre.foldl (updateEvent d) s).threads t = s.threads t := foldl_updateEvent_of_not_mem hpre
  generalize pre.foldl (updateEvent d) s = s₁ at hold
  split
  · rename_i harg
    simp [updateEvent, hold, hstate, hflags, harg]
  · rename_i harg
    simp [updateEvent, hold, hstate, hflags, harg]

/-- A thread that has not been made ready since it began to sleep until `goal`: the ticks that are left
count from the time of the last tick of the core. -/
inductive Rests (t goal : Nat) (c : Clocked) : Prop
  | dead (hfree : (c.core.threads t).queued = false) (hdead : (c.core.threads t).alive = false)
  | asleep (hfree : (c.core.threads t).queued = false) (hstate : (c.core.threads t).state = .sleep)
    (last : Nat) (hlast : last ≤ c.now) (htsc : c.lastTSC = getTSC last)
    (hgoal : goal ≤ last + (c.core.threads t).arg)

/-- What holds from the start of a sleep on, while nobody kills the thread. -/
structure SleepsOn (t goal : Nat) (c : Clocked) : Prop where
  base : Base c.core
  queued : Queued c.core
  made : t < c.core.nextTid
  rests : goal ≤ c.now ∨ Rests t goal c

variable {ticksPerMilli : UInt64} {c c' : Clocked} {time goal : Nat} {a : Action}

/-- Nothing but a tick ends a rest. -/
theorem Rests.moved (h : Rests t goal c) (hbase : Base c.core) (hmade : t < c.core.nextTid)
    (hmoved : Moved c.core c'.core t) (hnow : c.now ≤ c'.now) (htsc : c'.lastTSC = c.lastTSC) :
    Rests t goal c' := by
  have hfree : (c.core.threads t).queued = false := by
    cases h with
    | dead hfree _ => exact hfree
    | asleep hfree => exact hfree
  cases hmoved with
  | same hwait =>
    have hstate : (c'.core.threads t).state = (c.core.threads t).state := congrArg (·.1) hwait
    have harg : (c'.core.threads t).arg = (c.core.threads t).arg := congrArg (·.2.1) hwait
    have hqueued : (c'.core.threads t).queued = (c.core.threads t).queued := congrArg (·.2.2) hwait
    cases h with
    | dead _ hdead => exact .dead (hqueued.trans hfree) (by simpa [ThreadInfo.alive, hstate] using hdead)
    | asleep _ hsleep last hlast hold hgoal =>
      exact .asleep (hqueued.trans hfree) (hstate.trans hsleep) last (Nat.le_trans hlast hnow)
        (htsc.trans hold) (harg ▸ hgoal)
  | made hfresh => exact absurd hfresh (Nat.not_le_of_lt hmade)
  | blocked hcurrent =>
    -- The running thread is ready, so it does not rest.
    have hready := hbase.running.ready
    rw [← hcurrent] at hready
    cases h with
    | dead _ hdead => simp [ThreadInfo.alive, hready] at hdead
    | asleep _ hsleep => simp [hready] at hsleep
  | woken hold => simp [hfree] at hold
  | finished hstate hqueued =>
    exact .dead (hqueued.trans hfree) (by simp [ThreadInfo.alive, hstate])

/-- A tick ends a rest at the goal at the earliest. -/
theorem Rests.tick {b : Bool} (h : Rests t goal c) (hbase : Base c.core)
    (hpending : ¬ (c.core.threads t).pending) (htime : c.now ≤ time) (hnow : c'.now = time)
    (hcore : c'.core = tick (getTSC time - c.lastTSC).toNat b c.core)
    (htsc : c'.lastTSC = if (c.core.threads c.core.current).stickyCount ≠ 0 then c.lastTSC else getTSC time) :
    goal ≤ time ∨ Rests t goal c' := by
  by_cases hsticky : (c.core.threads c.core.current).stickyCount = 0
  · have hwait := @tick_wait c.core (getTSC time - c.lastTSC).toNat b hsticky t
    rw [← hcore] at hwait
    have hstate := congrArg (·.1) hwait
    have harg := congrArg (·.2.1) hwait
    have hqueued := congrArg (·.2.2) hwait
    simp only [ThreadInfo.wait] at hstate harg hqueued
    cases h with
    | dead hfree hdead =>
      refine .inr (.dead ?_ ?_)
      · by_cases hmem : t ∈ c.core.activeList
        · rw [hqueued, (updateEvents_updated hbase.lists.nodup hmem).queued, hfree]
        · rw [hqueued, updateEvents_of_not_mem hmem, hfree]
      · simp only [ThreadInfo.alive, hstate]
        by_cases hmem : t ∈ c.core.activeList
        · cases @updateEvents_updated c.core t (getTSC time - c.lastTSC).toNat hbase.lists.nodup hmem with
          | exited hold hnew => simp [hnew, hold]
          | finished hold hnew => simp [hnew]
          | interrupted hold _ hnew => rcases hold with e | e <;> simp [ThreadInfo.alive, e] at hdead
          | ready hold hnew | queueLock hold hnew | awoke hold _ hnew | sleeps hold _ hnew
          | joined hold _ _ hnew | waits hold _ _ hnew => simp [ThreadInfo.alive, hold] at hdead
        · rw [updateEvents_of_not_mem hmem]
          exact hdead
    | asleep hfree hsleep last hlast hold hgoal =>
      have hmem := hbase.lists.blocked t (.inl hsleep)
      have hcharged := charged_le (Nat.le_trans hlast htime)
      rw [← hold] at hcharged
      have hupdate := @updateEvents_sleep c.core t (getTSC time - c.lastTSC).toNat hbase.lists.nodup
        hmem hsleep hpending
      split at hupdate
      · exact .inl (by omega)
      · refine .inr (.asleep ?_ ?_ time (Nat.le_of_eq hnow.symm) ?_ ?_)
        · rw [hqueued, hupdate, ← hfree]
        · rw [hstate, hupdate, ← hsleep]
        · simpa [hsticky] using htsc
        · rw [harg, hupdate]
          show goal ≤ time + ((c.core.threads t).arg - _)
          omega
  · rw [tick_sticky hsticky] at hcore
    rw [if_pos hsticky] at htsc
    refine .inr ?_
    cases h with
    | dead hfree hdead => exact .dead (by rw [hcore, hfree]) (by rw [hcore, hdead])
    | asleep hfree hsleep last hlast hold hgoal =>
      exact .asleep (by rw [hcore, hfree]) (by rw [hcore, hsleep]) last
        (hnow ▸ Nat.le_trans hlast htime) (htsc.trans hold) (by rw [hcore]; exact hgoal)

/-- **One step** keeps the sleep on. -/
theorem SleepsOn.step (h : SleepsOn t goal c) (hpending : ¬ (c.core.threads t).pending)
    (hstep : c.step ticksPerMilli (time, a) = some c') : SleepsOn t goal c' := by
  obtain ⟨htime, hnow, hkind⟩ := Clocked.step_cases hstep
  rcases hkind with ⟨b, -, hs, htsc⟩ | ⟨htsc, e, hnot, hs⟩
  · refine ⟨h.base.step hs, h.queued.step h.base hs, Nat.lt_of_lt_of_le h.made (step_nextTid hs), ?_⟩
    have hcore : c'.core = tick (getTSC time - c.lastTSC).toNat b c.core := by
      obtain ⟨d, b', he, -, hcore⟩ | ⟨he, -, -⟩ | ⟨-, -, hcall⟩ := Scheduler.step_cases hs
      · cases he
        exact hcore
      · cases he
      · cases hcall
    rw [hnow]
    rcases h.rests with hgoal | hrests
    · exact .inl (Nat.le_trans hgoal htime)
    · exact hrests.tick h.base hpending htime hnow hcore htsc
  · refine ⟨h.base.step hs, h.queued.step h.base hs, Nat.lt_of_lt_of_le h.made (step_nextTid hs), ?_⟩
    rcases h.rests with hgoal | hrests
    · exact .inl (by omega)
    · exact .inr (hrests.moved h.base h.made (moved_step hnot hs) (by omega) htsc)

/-- A core at the start, whatever the counter says. -/
def Clocked.Started (c : Clocked) : Prop := c.core = initial

theorem base_queued_of_run (hstart : c.Started)
    (run : Runs (Clocked.step ticksPerMilli) (fun _ _ => True) c c') : Base c'.core ∧ Queued c'.core := by
  refine run.inv (I := fun c => Base c.core ∧ Queued c.core) ⟨?_, ?_⟩ ?_
  · rw [hstart]
    exact base_initial
  · rw [hstart]
    exact queued_initial
  · rintro c₁ ⟨time, a⟩ c₂ ⟨hbase, hqueued⟩ - hstep
    obtain ⟨-, -, ⟨b, -, hs, -⟩ | ⟨-, e, -, hs⟩⟩ := Clocked.step_cases hstep
    · exact ⟨hbase.step hs, hqueued.step hbase hs⟩
    · exact ⟨hbase.step hs, hqueued.step hbase hs⟩

/-- From here on the thread is not ready before `goal`, unless a kill or an abort is pending. -/
def SleepsUntil (ticksPerMilli : UInt64) (c : Clocked) (t goal : Nat) : Prop :=
  ∀ c', Runs (Clocked.step ticksPerMilli) (fun c _ => ¬ (c.core.threads t).pending) c c' →
    (c'.core.threads t).state = .ready → goal ≤ c'.now

/-- A sleep of no ticks at all, or one whose product does not wrap and that begins exactly at the last
tick of the core. -/
def Exact (ticksPerMilli : UInt64) (c : Clocked) (time : Nat) (ms : UInt64) : Prop :=
  ms.toNat * ticksPerMilli.toNat = 0 ∨
    ms.toNat * ticksPerMilli.toNat < 2 ^ 64 ∧ c.lastTSC = getTSC time

theorem SleepsOn.sleepsUntil (h : SleepsOn t goal c) : SleepsUntil ticksPerMilli c t goal := by
  intro c' run hready
  have hrun := run.inv (I := SleepsOn t goal) h fun c₁ e c₂ hon hpending hstep => hon.step hpending hstep
  rcases hrun.rests with hgoal | hrests
  · exact hgoal
  · cases hrests with
    | dead _ hdead => simp [ThreadInfo.alive, hready] at hdead
    | asleep _ hsleep => simp [hready] at hsleep

theorem threadSleep_eq {ms : UInt64} (h : c.step ticksPerMilli (time, .threadSleep ms) = some c') :
    c.now ≤ time ∧ c.core.current ≠ idleThread ∧
      c' = { c with
        core := threadBlock .sleep (ms * ticksPerMilli).toNat .sleeping c.core
        now := time } := by
  simp only [Clocked.step] at h
  split at h
  · cases h
  · rename_i htime
    obtain ⟨core, hstep, rfl⟩ := Option.map_eq_some_iff.1 h
    obtain ⟨d, b, he, -⟩ | ⟨he, -⟩ | ⟨hcurrent, -, hcall⟩ := Scheduler.step_cases hstep
    · cases he
    · cases he
    · obtain rfl := Option.some.inj hcall
      exact ⟨Nat.le_of_not_lt htime, hcurrent, rfl⟩

/-- **The caller** of `ThreadSleep` sleeps, and nothing else of it decides when it is made ready. -/
theorem threadBlock_asleep {arg : Nat} {pc : Pc} (hbase : Base s) (hqueued : Queued s) :
    ((threadBlock .sleep arg pc s).threads s.current).wait = (.sleep, arg, false) := by
  have hfree : (s.threads s.current).queued = false := by
    have hready := hbase.running.ready
    by_contra hq
    have hold := hqueued s.current (by simpa using hq)
    simp [ThreadInfo.alive, hready] at hold
  rw [threadBlock, switchThread_wait, modify_self]
  simp [ThreadInfo.wait, hfree]

/-- The charge of a tick after `x` more ticks of the counter. -/
theorem charged_add {lastTSC : UInt64} {x : Nat}
    (h : (getTSC time - lastTSC).toNat + x < 2 ^ 64) :
    (getTSC (time + x) - lastTSC).toNat = (getTSC time - lastTSC).toNat + x := by
  have hsum : getTSC (time + x) - lastTSC = (getTSC time - lastTSC) + UInt64.ofNat x := by
    rw [getTSC, getTSC, UInt64.ofNat_add, UInt64.sub_eq_add_neg, UInt64.sub_eq_add_neg,
      UInt64.add_assoc, UInt64.add_comm (UInt64.ofNat x), UInt64.add_assoc]
  have hx : (UInt64.ofNat x).toNat = x := by
    rw [UInt64.toNat_ofNat']
    exact Nat.mod_eq_of_lt (by omega)
  rw [hsum, UInt64.toNat_add, hx]
  exact Nat.mod_eq_of_lt h

/-- If the sleep is not exact, the tick that uses it up comes too early. -/
theorem early_tick {ms : UInt64} (h : ¬ Exact ticksPerMilli c time ms) :
    ∃ x, x < ms.toNat * ticksPerMilli.toNat ∧
      (ms * ticksPerMilli).toNat ≤ (getTSC (time + x) - c.lastTSC).toNat := by
  obtain ⟨hpos, hinexact⟩ := not_or.1 h
  have hmul := UInt64.toNat_mul ms ticksPerMilli
  have hsmall := (ms * ticksPerMilli).toNat_lt
  refine ⟨(ms * ticksPerMilli).toNat - (getTSC time - c.lastTSC).toNat, ?_, ?_⟩
  · by_cases hwrap : ms.toNat * ticksPerMilli.toNat < 2 ^ 64
    · -- The interval before the call is charged, and it is not empty.
      have hgap : 0 < (getTSC time - c.lastTSC).toNat := by
        rw [Nat.pos_iff_ne_zero]
        intro hzero
        have heq : getTSC time - c.lastTSC = 0 := UInt64.toNat_inj.1 hzero
        have hsum : getTSC time - c.lastTSC + c.lastTSC = 0 + c.lastTSC := by rw [heq]
        rw [UInt64.sub_add_cancel, UInt64.zero_add] at hsum
        exact hinexact ⟨hwrap, hsum.symm⟩
      rw [Nat.mod_eq_of_lt hwrap] at hmul
      omega
    · omega
  · have hlt := (getTSC time - c.lastTSC).toNat_lt
    rw [charged_add (by omega)]
    omega

/-- **`ThreadSleep`** lasts at least as long as asked exactly if the sleep is exact: the interval since
the last tick of the core is charged whole, and the product wraps. -/
theorem sleep_at_least (ticksPerMilli : UInt64) (c₀ c c' : Clocked) (hstart : c₀.Started)
    (run : Runs (Clocked.step ticksPerMilli) (fun _ _ => True) c₀ c) (time : Nat) (ms : UInt64)
    (hsleep : c.step ticksPerMilli (time, .threadSleep ms) = some c') :
    (Exact ticksPerMilli c time ms → SleepsUntil ticksPerMilli c' c.core.current
      (time + ms.toNat * ticksPerMilli.toNat)) ∧
    ((c.core.threads c.core.current).pending = false →
      (c'.core.threads c'.core.current).stickyCount = 0 →
      SleepsUntil ticksPerMilli c' c.core.current (time + ms.toNat * ticksPerMilli.toNat) →
        Exact ticksPerMilli c time ms) := by
  obtain ⟨hbase, hqueued⟩ := base_queued_of_run hstart run
  obtain ⟨htime, hcurrent, hc'⟩ := threadSleep_eq hsleep
  have hbase' : Base c'.core := by
    rw [hc']
    exact hbase.threadBlock hcurrent (by simp)
  have hwait : (c'.core.threads c.core.current).wait = (.sleep, (ms * ticksPerMilli).toNat, false) := by
    rw [hc']
    exact threadBlock_asleep hbase hqueued
  have hstate : (c'.core.threads c.core.current).state = .sleep := congrArg (·.1) hwait
  have harg : (c'.core.threads c.core.current).arg = (ms * ticksPerMilli).toNat := congrArg (·.2.1) hwait
  have hfree : (c'.core.threads c.core.current).queued = false := congrArg (·.2.2) hwait
  have hmem := hbase'.lists.blocked _ (.inl hstate)
  refine ⟨fun hexact => ?_, fun hpending hsticky huntil => ?_⟩
  · apply SleepsOn.sleepsUntil
    refine ⟨hbase', ?_, (hbase'.lists.listed _ hmem).2, ?_⟩
    · rw [hc']
      exact hqueued.moved hbase (moved_threadBlock c.core)
    · rcases hexact with hzero | ⟨hlt, htsc⟩
      · left
        rw [hc', hzero]
        exact Nat.le_refl _
      · refine .inr (.asleep hfree hstate time ?_ ?_ ?_)
        · exact Nat.le_of_eq (by rw [hc'])
        · rw [hc', htsc]
        · exact Nat.le_of_eq (by rw [harg, UInt64.toNat_mul, Nat.mod_eq_of_lt hlt])
  · by_contra hinexact
    obtain ⟨x, hx, hcharged⟩ := early_tick hinexact
    have hnot : ¬ (c'.core.threads c.core.current).pending := by
      rw [hc', threadBlock, switchThread_keeps ThreadInfo.pending (fun _ => rfl), modify_self]
      simpa [ThreadInfo.pending] using hpending
    have hnow : c'.now = time := by rw [hc']
    have htsc : c'.lastTSC = c.lastTSC := by rw [hc']
    have htick : c'.step ticksPerMilli (time + x, .tick false) = some
        { core := tick (getTSC (time + x) - c'.lastTSC).toNat false c'.core
          lastTSC := getTSC (time + x)
          now := time + x } := by
      simp [Clocked.step, Scheduler.step, hsticky, hnow]
    have hwoken := @updateEvents_sleep c'.core c.core.current (getTSC (time + x) - c'.lastTSC).toNat
      hbase'.lists.nodup hmem hstate hnot
    rw [if_pos (by rw [harg, htsc]; exact hcharged)] at hwoken
    have hready := congrArg (·.1) (@tick_wait c'.core (getTSC (time + x) - c'.lastTSC).toNat false
      hsticky c.core.current)
    simp only [ThreadInfo.wait, hwoken] at hready
    have hlate := huntil _ (.head hnot htick (.refl _)) hready
    exact absurd hlate (by simp only; omega)

/-- The core at the start, with the counter at zero. -/
def atZero : Clocked := ⟨initial, 0, 0⟩

/-- The init thread sleeps 3 ms right after the tick that selected it. -/
theorem sleep_at_least_at_tick : ∃ c c', Clocked.step 1000 c (5, .threadSleep 3) = some c' ∧
    SleepsUntil 1000 c' c.core.current 3005 := by
  have hrun : ((exec (Clocked.step 1000) [(5, .tick false)] atZero).bind fun c =>
      (Clocked.step 1000 c (5, .threadSleep 3)).map fun _ => c.lastTSC) = some 5 := by decide
  obtain ⟨c, hc, hrun⟩ := Option.bind_eq_some_iff.1 hrun
  obtain ⟨c', hsleep, htsc⟩ := Option.map_eq_some_iff.1 hrun
  refine ⟨c, c', hsleep, ?_⟩
  exact (sleep_at_least 1000 atZero c c' rfl (runs_of_exec _ hc) 5 3 hsleep).1 (.inr ⟨by decide, htsc⟩)

/-- The init thread asks for 10 ticks at time 10, ten ticks after the last tick of the core, and is made
ready at time 11; asked for `2 ^ 63` ms of two ticks each, it is made ready at once. -/
theorem sleep_too_short : ∃ c c' d d',
    Runs (Clocked.step 10) (fun _ _ => True) atZero c ∧
    Clocked.step 10 c (10, .threadSleep 1) = some c' ∧
    ¬ SleepsUntil 10 c' c.core.current (10 + 1 * 10) ∧
    Runs (Clocked.step 2) (fun _ _ => True) atZero d ∧
    Clocked.step 2 d (0, .threadSleep 0x8000000000000000) = some d' ∧
    ¬ SleepsUntil 2 d' d.core.current (0 + 2 ^ 63 * 2) := by
  have hshort : ((exec (Clocked.step 10) [(0, .tick false)] atZero).bind fun c =>
      (Clocked.step 10 c (10, .threadSleep 1)).bind fun c' =>
        (Clocked.step 10 c' (11, .tick false)).map fun c'' =>
          ((c'.core.threads c.core.current).pending, (c''.core.threads c.core.current).state, c''.now)) =
      some (false, .ready, 11) := by decide
  have hwrap : ((exec (Clocked.step 2) [(0, .tick false)] atZero).bind fun c =>
      (Clocked.step 2 c (0, .threadSleep 0x8000000000000000)).bind fun c' =>
        (Clocked.step 2 c' (0, .tick false)).map fun c'' =>
          ((c'.core.threads c.core.current).pending, (c''.core.threads c.core.current).state, c''.now)) =
      some (false, .ready, 0) := by decide
  obtain ⟨c, hc, hshort⟩ := Option.bind_eq_some_iff.1 hshort
  obtain ⟨c', hsleep, hshort⟩ := Option.bind_eq_some_iff.1 hshort
  obtain ⟨c'', htick, hshort⟩ := Option.map_eq_some_iff.1 hshort
  obtain ⟨d, hd, hwrap⟩ := Option.bind_eq_some_iff.1 hwrap
  obtain ⟨d', hsleep', hwrap⟩ := Option.bind_eq_some_iff.1 hwrap
  obtain ⟨d'', htick', hwrap⟩ := Option.map_eq_some_iff.1 hwrap
  simp only [Prod.mk.injEq] at hshort hwrap
  refine ⟨c, c', d, d', runs_of_exec _ hc, hsleep, fun huntil => ?_, runs_of_exec _ hd, hsleep',
    fun huntil => ?_⟩
  · have hlate := huntil c'' (.head (by simp [hshort.1]) htick (.refl _)) hshort.2.1
    rw [hshort.2.2] at hlate
    omega
  · generalize hgoal : 0 + 2 ^ 63 * 2 = goal at huntil
    have hlate := huntil d'' (.head (by simp [hwrap.1]) htick' (.refl _)) hwrap.2.1
    rw [hwrap.2.2] at hlate
    omega

end ChenixOS.Scheduler
