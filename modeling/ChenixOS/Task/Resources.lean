import ChenixOS.Task.SchedulerProof

/-!
# Memory spaces and descriptor tables of exiting threads

`ThreadExit` gives back the references of the caller, `ProcessDoExit` those of the caller's main thread,
which it also finishes. As long as that thread is alive, the reference counts are the numbers of
threads that are not finished, and an object is freed when the last of them exits.
-/

namespace ChenixOS.Scheduler

open Transitions

variable {s s' : State} {t u n : Nat} {f : ThreadInfo → ThreadInfo} {g : ThreadInfo → Nat}

/-- The thread is alive and refers to the object `i`. -/
def refersTo (g : ThreadInfo → Nat) (info : ThreadInfo) (i : Nat) : Bool :=
  info.alive && decide (g info = i)

/-- The number of threads that are alive and refer to `i` by the field `g`. -/
def users (g : ThreadInfo → Nat) (threads : Nat → ThreadInfo) (n i : Nat) : Nat :=
  (List.range n).countP fun t => refersTo g (threads t) i

/-! ## Counting -/

section

variable {threads threads' : Nat → ThreadInfo}

theorem users_succ (i : Nat) : users g threads (n + 1) i =
    users g threads n i + if refersTo g (threads n) i then 1 else 0 := by
  simp [users, List.range_succ, List.countP_append, List.countP_cons]

theorem users_congr (h : ∀ t < n, ∀ i, refersTo g (threads' t) i = refersTo g (threads t) i) (i : Nat) :
    users g threads' n i = users g threads n i := by
  apply List.countP_congr
  intro t ht
  rw [h t (List.mem_range.1 ht) i]

/-- **A change of one record**: the thread counts as it does afterwards, and no more as before. -/
theorem users_update (info : ThreadInfo) (ht : t < n) (i : Nat) :
    users g (Function.update threads t info) n i + (if refersTo g (threads t) i then 1 else 0) =
      users g threads n i + if refersTo g info i then 1 else 0 := by
  induction n with
  | zero => omega
  | succ n ih =>
    rw [users_succ, users_succ]
    by_cases htn : t = n
    · subst htn
      have hrest : users g (Function.update threads t info) t i = users g threads t i := by
        apply users_congr
        intro u hu j
        rw [Function.update_of_ne (Nat.ne_of_lt hu)]
      rw [hrest, Function.update_self]
      omega
    · have := ih (by omega)
      rw [Function.update_of_ne (Ne.symm htn)]
      omega

/-- A thread that stays alive and exchanges its object. -/
theorem users_exchange (info : ThreadInfo) (ht : t < n) (halive : (threads t).alive = true)
    (halive' : info.alive = true) (i : Nat) :
    users g (Function.update threads t info) n i + (if g (threads t) = i then 1 else 0) =
      users g threads n i + if g info = i then 1 else 0 := by
  have hupdate : users g (Function.update threads t info) n i +
      (if refersTo g (threads t) i then 1 else 0) =
        users g threads n i + if refersTo g info i then 1 else 0 := users_update info ht i
  simpa [refersTo, halive, halive'] using hupdate

theorem users_pos (ht : t < n) (halive : (threads t).alive = true) :
    0 < users g threads n (g (threads t)) := by
  apply List.countP_pos_iff.2
  exact ⟨t, List.mem_range.2 ht, by simp [refersTo, halive]⟩

end

/-! ## The counters -/

/-- The counters are the numbers of users, and a thread in a queue is blocked in it. -/
structure Counted (s : State) : Prop where
  memSpaces : s.memSpaces.Inv (users ThreadInfo.memSpace s.threads s.nextTid)
  fdTables : s.fdTables.Inv (users ThreadInfo.fds s.threads s.nextTid)
  queued : ∀ t, (s.threads t).queued = true → (s.threads t).state = .queueLock

theorem counted_initial : Counted initial := by
  have husers : ∀ g : ThreadInfo → Nat, (∀ t, g (initial.threads t) = t) →
      (⟨fun i => if i < 2 then 1 else 0, 2, []⟩ : RefCounts).Inv (users g initial.threads 2) := by
    intro g hg
    have hcount : ∀ i, users g initial.threads 2 i = if i < 2 then 1 else 0 := by
      intro i
      have halive : ∀ t, (initial.threads t).alive = true := fun _ => rfl
      simp only [users, refersTo, halive, hg]
      match i with
      | 0 => rfl
      | 1 => rfl
      | i + 2 => simp [List.range_succ]
    refine ⟨fun i hi => (hcount i).symm, fun i hi => ?_, fun i => ?_, List.nodup_nil⟩
    · rw [hcount, if_neg (Nat.not_lt.2 hi)]
    · rw [hcount]
      split <;> simp_all
  exact ⟨husers _ fun _ => rfl, husers _ fun _ => rfl, nofun⟩

theorem refersTo_congr {i i' : ThreadInfo} (halive : i'.alive = i.alive) (hg : g i' = g i) (j : Nat) :
    refersTo g i' j = refersTo g i j := by
  simp [refersTo, halive, hg]

theorem Counted.congr (h : Counted s) (hnext : s'.nextTid = s.nextTid)
    (hmemSpaces : s'.memSpaces = s.memSpaces) (hfdTables : s'.fdTables = s.fdTables)
    (halive : ∀ t, (s'.threads t).alive = (s.threads t).alive)
    (hmem : ∀ t, (s'.threads t).memSpace = (s.threads t).memSpace)
    (hfds : ∀ t, (s'.threads t).fds = (s.threads t).fds)
    (hqueued : ∀ t, (s'.threads t).queued = true → (s'.threads t).state = .queueLock) :
    Counted s' := by
  refine ⟨?_, ?_, hqueued⟩
  · rw [hmemSpaces, hnext]
    exact h.memSpaces.congr (users_congr fun t _ => refersTo_congr (halive t) (hmem t))
  · rw [hfdTables, hnext]
    exact h.fdTables.congr (users_congr fun t _ => refersTo_congr (halive t) (hfds t))

/-- A change of one record that leaves the thread alive, or not, and keeps its objects. -/
theorem Counted.modify (h : Counted s) (halive : (f (s.threads t)).alive = (s.threads t).alive)
    (hmem : (f (s.threads t)).memSpace = (s.threads t).memSpace)
    (hfds : (f (s.threads t)).fds = (s.threads t).fds)
    (hqueued : (f (s.threads t)).queued = true → (f (s.threads t)).state = .queueLock) :
    Counted (s.modify t f) := by
  refine h.congr rfl rfl rfl ?_ ?_ ?_ fun u hu => ?_
  · exact modify_keeps ThreadInfo.alive halive
  · exact modify_keeps ThreadInfo.memSpace hmem
  · exact modify_keeps ThreadInfo.fds hfds
  by_cases hut : u = t
  · subst hut
    rw [modify_self] at hu ⊢
    exact hqueued hu
  · rw [modify_of_ne hut] at hu ⊢
    exact h.queued u hu

theorem alive_of_state {i i' : ThreadInfo} (h : i'.state = i.state) : i'.alive = i.alive := by
  simp [ThreadInfo.alive, h]

/-- A change of one record that keeps what is counted and the queue mark. -/
theorem Counted.modify_same (h : Counted s) (hstate : (f (s.threads t)).state = (s.threads t).state)
    (hmem : (f (s.threads t)).memSpace = (s.threads t).memSpace)
    (hfds : (f (s.threads t)).fds = (s.threads t).fds)
    (hqueued : (f (s.threads t)).queued = (s.threads t).queued) : Counted (s.modify t f) := by
  apply h.modify (alive_of_state hstate) hmem hfds
  rw [hqueued, hstate]
  exact h.queued t

theorem Counted.not_queued (h : Counted s) (hready : (s.threads t).state = .ready) :
    (s.threads t).queued = false := by
  by_contra hq
  have := h.queued t (by simpa using hq)
  rw [hready] at this
  cases this

/-! ## Switches -/

theorem Counted.goOn (h : Counted s) (hstate : ∀ i, (f i).state = i.state)
    (hmem : ∀ i, (f i).memSpace = i.memSpace) (hfds : ∀ i, (f i).fds = i.fds)
    (hqueued : ∀ i, (f i).queued = i.queued) :
    Counted { (findNextThread s).2.modify t f with current := (findNextThread s).1 } := by
  have hnext : Counted (findNextThread s).2 := by
    apply h.congr findNextThread_nextTid
    · rw [findNextThread_frame]
    · rw [findNextThread_frame]
    · simp
    · simp
    · simp
    · rw [findNextThread_threads]
      exact h.queued
  have hmodify := hnext.modify_same (t := t) (f := f) (hstate _) (hmem _) (hfds _) (hqueued _)
  exact hmodify.congr rfl rfl rfl (fun _ => rfl) (fun _ => rfl) (fun _ => rfl) hmodify.queued

theorem Counted.switchThread (h : Counted s) : Counted (switchThread s) :=
  h.goOn (fun _ => rfl) (fun _ => rfl) (fun _ => rfl) (fun _ => rfl)

theorem Counted.threadYield (h : Counted s) : Counted (threadYield s) := by
  unfold Scheduler.threadYield
  split
  · apply h.congr findNextThread_nextTid
    · rw [findNextThread_frame]
    · rw [findNextThread_frame]
    · simp
    · simp
    · simp
    · rw [findNextThread_threads]
      exact h.queued
  · exact h.switchThread

theorem Counted.threadBlock {type : ThreadState} {arg : Nat} {pc : Pc} (h : Counted s) (hbase : Base s)
    (htype : type ≠ .finished ∧ type ≠ .exited)
    (hqueued : (s.threads s.current).queued = true → type = .queueLock) : Counted (threadBlock type arg pc s) := by
  apply Counted.switchThread
  apply h.modify
  · cases type <;> simp_all [ThreadInfo.alive, hbase.running.ready]
  · rfl
  · rfl
  · exact hqueued

theorem Updated.counted {d : Nat} (h : Updated d s s' t) :
    (s'.threads t).alive = (s.threads t).alive ∧ (s'.threads t).memSpace = (s.threads t).memSpace ∧
      (s'.threads t).fds = (s.threads t).fds ∧
      ((s.threads t).state = .queueLock → (s'.threads t).state = .queueLock) := by
  cases h with
  | ready hstate hnew =>
    rw [hnew, deliver_frame]
    simp [ThreadInfo.alive, hstate]
  | exited hstate hnew | finished hstate hnew | queueLock hstate hnew =>
    simp [hnew, hstate, ThreadInfo.alive]
  | interrupted hstate hpending hnew =>
    rcases hstate with hstate | hstate <;> simp [hnew, hstate, ThreadInfo.alive]
  | awoke hstate _ hnew | sleeps hstate _ hnew | joined hstate _ _ hnew | waits hstate _ _ hnew =>
    simp [hnew, hstate, ThreadInfo.alive]

theorem Counted.updateEvents {d : Nat} (h : Counted s) (hlists : Lists s) :
    Counted (updateEvents d s) := by
  have hall : ∀ t, ((Scheduler.updateEvents d s).threads t).alive = (s.threads t).alive ∧
      ((Scheduler.updateEvents d s).threads t).memSpace = (s.threads t).memSpace ∧
      ((Scheduler.updateEvents d s).threads t).fds = (s.threads t).fds ∧
      (((Scheduler.updateEvents d s).threads t).queued = true →
        ((Scheduler.updateEvents d s).threads t).state = .queueLock) := by
    intro t
    by_cases hmem : t ∈ s.activeList
    · have hup := updateEvents_updated (d := d) hlists.nodup hmem
      obtain ⟨halive, hspace, hfds, hlock⟩ := hup.counted
      refine ⟨halive, hspace, hfds, fun hq => hlock (h.queued t ?_)⟩
      rw [← hup.queued]
      exact hq
    · rw [updateEvents_of_not_mem hmem]
      exact ⟨rfl, rfl, rfl, h.queued t⟩
  apply h.congr
  · rw [updateEvents_frame]
  · rw [updateEvents_frame]
  · rw [updateEvents_frame]
  · exact fun t => (hall t).1
  · exact fun t => (hall t).2.1
  · exact fun t => (hall t).2.2.1
  · exact fun t => (hall t).2.2.2

theorem Counted.tick {d : Nat} {b : Bool} (h : Counted s) (hlists : Lists s) :
    Counted (tick d b s) := by
  unfold Scheduler.tick
  split
  · exact h
  · exact (h.updateEvents hlists).goOn (fun _ => rfl) (fun _ => rfl) (fun _ => rfl) (fun _ => rfl)

/-! ## New threads -/

theorem shareOrNew_inv {share : Bool} {own : Nat} {r : RefCounts} {uses uses' : Nat → Nat}
    (h : r.Inv uses) (hown : 0 < uses own)
    (huses : ∀ i, uses' i = uses i + if (shareOrNew share own r).1 = i then 1 else 0) :
    (shareOrNew share own r).2.Inv uses' := by
  cases share with
  | true =>
    have hown' : ∀ i, uses' i = uses i + if own = i then 1 else 0 := huses
    apply h.addRef hown
    · simp [hown']
    · intro j hj
      simp [hown', Ne.symm hj]
  | false =>
    have hnext : ∀ i, uses' i = uses i + if r.next = i then 1 else 0 := huses
    apply h.new
    · simp [hnext, h.bound r.next (Nat.le_refl _)]
    · intro j hj
      simp [hnext, Ne.symm hj]

/-- One more thread, which is alive. -/
theorem users_addThread {i : ThreadInfo} {r₁ r₂ : RefCounts} (halive : i.alive = true) (j : Nat) :
    users g (s.addThread i r₁ r₂).threads (s.addThread i r₁ r₂).nextTid j =
      users g s.threads s.nextTid j + if g i = j then 1 else 0 := by
  show users g (Function.update s.threads s.nextTid i) (s.nextTid + 1) j = _
  have hrest : users g (Function.update s.threads s.nextTid i) s.nextTid j =
      users g s.threads s.nextTid j := by
    apply users_congr
    intro t ht k
    rw [Function.update_of_ne (Nat.ne_of_lt ht)]
  rw [users_succ, hrest]
  simp [refersTo, halive]

theorem Counted.addThread {i : ThreadInfo} {r₁ r₂ : RefCounts} (h : Counted s)
    (halive : i.alive = true) (hqueued : i.queued = false)
    (hmem : ∀ uses, (∀ j, uses j = users ThreadInfo.memSpace s.threads s.nextTid j +
      if i.memSpace = j then 1 else 0) → r₁.Inv uses)
    (hfds : ∀ uses, (∀ j, uses j = users ThreadInfo.fds s.threads s.nextTid j +
      if i.fds = j then 1 else 0) → r₂.Inv uses) : Counted (s.addThread i r₁ r₂) := by
  refine ⟨hmem _ (users_addThread halive), hfds _ (users_addThread halive), fun t ht => ?_⟩
  by_cases hnew : t = s.nextTid
  · simp [State.addThread, hnew, hqueued] at ht
  · simp only [State.addThread, Function.update_of_ne hnew] at ht ⊢
    exact h.queued t ht

/-- A new object for the new thread. -/
theorem new_inv {r : RefCounts} {uses uses' : Nat → Nat} (h : r.Inv uses)
    (huses : ∀ i, uses' i = uses i + if r.next = i then 1 else 0) : r.new.Inv uses' := by
  apply h.new
  · simp [huses, h.bound r.next (Nat.le_refl _)]
  · intro j hj
    simp [huses, Ne.symm hj]

theorem Counted.pushChild {child : Nat} (h : Counted s) : Counted (s.pushChild t child) :=
  h.modify_same rfl rfl rfl rfl

theorem Counted.eraseChild {child : Nat} (h : Counted s) : Counted (s.eraseChild t child) :=
  h.modify_same rfl rfl rfl rfl

theorem Base.alive (h : Base s) : (s.threads s.current).alive = true := by
  simp [ThreadInfo.alive, h.running.ready]

theorem Counted.createKernelThread (h : Counted s) : Counted (createKernelThread s) := by
  rw [createKernelThread_eq]
  apply Counted.pushChild
  apply h.addThread rfl rfl
  · exact fun _ huses => new_inv h.memSpaces huses
  · exact fun _ huses => new_inv h.fdTables huses

theorem Counted.cloneThread {sub mem fd : Bool} (h : Counted s) (hbase : Base s) :
    Counted (cloneThread sub mem fd s) := by
  rw [cloneThread_eq]
  apply Counted.pushChild
  apply h.addThread rfl rfl
  · exact fun _ huses => shareOrNew_inv h.memSpaces (users_pos hbase.current_lt hbase.alive) huses
  · exact fun _ huses => shareOrNew_inv h.fdTables (users_pos hbase.current_lt hbase.alive) huses

/-! ## `ThreadExec` -/

theorem threadExec_eq (s : State) : threadExec s =
    if RefCounts.dec (s.memSpaces.count (s.threads s.current).memSpace) = 0 then
      { s.modify s.current fun i => { i with stickyCount := 0, userMode := true } with
        memSpaces := { s.memSpaces with
          count := Function.update s.memSpaces.count (s.threads s.current).memSpace 1 } }
    else
      { s.modify s.current fun i =>
          { i with stickyCount := 0, userMode := true, memSpace := s.memSpaces.next } with
        memSpaces := ({ s.memSpaces with
          count := Function.update s.memSpaces.count (s.threads s.current).memSpace
            (RefCounts.dec (s.memSpaces.count (s.threads s.current).memSpace)) } : RefCounts).new } := by
  simp [threadExec, State.modify]

/-- **`ThreadExec`**: the last user of a memory space keeps it, another one leaves it. -/
theorem Counted.threadExec (h : Counted s) (hbase : Base s) : Counted (threadExec s) := by
  have hlt := hbase.current_lt
  have halive := hbase.alive
  have hpos := users_pos (g := ThreadInfo.memSpace) hlt halive
  have hnext := h.memSpaces.lt_next hpos
  rw [threadExec_eq]
  split
  · rename_i hzero
    have hone : s.memSpaces.count (s.threads s.current).memSpace = 1 := by
      rw [h.memSpaces.count _ hnext] at hzero ⊢
      unfold RefCounts.dec at hzero
      split at hzero <;> omega
    have hsame : Function.update s.memSpaces.count (s.threads s.current).memSpace 1 =
        s.memSpaces.count := by
      rw [← hone, Function.update_eq_self]
    have hown : Counted (s.modify s.current fun i => { i with stickyCount := 0, userMode := true }) :=
      h.modify_same rfl rfl rfl rfl
    rw [hsame]
    exact hown.congr rfl rfl rfl (fun _ => rfl) (fun _ => rfl) (fun _ => rfl) hown.queued
  · rename_i hdec
    have hmoved := users_exchange (g := ThreadInfo.memSpace)
      { s.threads s.current with stickyCount := 0, userMode := true, memSpace := s.memSpaces.next }
      hlt halive halive
    refine ⟨h.memSpaces.exchange hdec ?_ ?_ fun j hj hjn => ?_, ?_, fun t ht => ?_⟩
    · have := hmoved (s.threads s.current).memSpace
      simpa [State.modify, Nat.ne_of_gt hnext] using this.symm
    · have := hmoved s.memSpaces.next
      simpa [State.modify, Nat.ne_of_lt hnext, h.memSpaces.bound _ (Nat.le_refl _)] using this
    · have := hmoved j
      simpa [State.modify, Ne.symm hj, Ne.symm hjn] using this
    · apply h.fdTables.congr
      apply users_congr
      intro t _
      have hkeep : ∀ u, _ := modify_keeps (s := s) (t := s.current)
        (f := fun i => { i with stickyCount := 0, userMode := true, memSpace := s.memSpaces.next })
        (fun i => (i.alive, i.fds)) rfl
      obtain ⟨ha, hf⟩ := Prod.mk.inj (hkeep t)
      exact refersTo_congr ha hf
    · have hkeep : ∀ u, _ := modify_keeps (s := s) (t := s.current)
        (f := fun i => { i with stickyCount := 0, userMode := true, memSpace := s.memSpaces.next })
        (fun i => (i.queued, i.state)) rfl
      obtain ⟨hq, hs⟩ := Prod.mk.inj (hkeep t)
      rw [hs]
      exact h.queued t (hq ▸ ht)

/-! ## Exits -/

/-- A thread that is alive gives its object back and is not alive any more. -/
theorem release_inv {r : RefCounts} {threads : Nat → ThreadInfo} {info : ThreadInfo}
    (h : r.Inv (users g threads n)) (ht : t < n) (halive : (threads t).alive = true)
    (hdead : info.alive = false) :
    (r.release (g (threads t))).Inv (users g (Function.update threads t info) n) := by
  have hupdate : ∀ i, users g (Function.update threads t info) n i +
      (if refersTo g (threads t) i then 1 else 0) =
        users g threads n i + if refersTo g info i then 1 else 0 := users_update info ht
  simp only [refersTo, halive, hdead, Bool.true_and, Bool.false_and, decide_eq_true_eq,
    Bool.false_eq_true, if_false, Nat.add_zero] at hupdate
  apply h.release
  · rw [← hupdate, if_pos rfl]
  · intro j hj
    rw [← hupdate, if_neg (Ne.symm hj), Nat.add_zero]

theorem Counted.finish {code : UInt64} (h : Counted s) (ht : t < s.nextTid)
    (halive : (s.threads t).alive = true) (hqueued : (s.threads t).queued = false) :
    Counted ({ s with
      fdTables := s.fdTables.release (s.threads t).fds
      memSpaces := s.memSpaces.release (s.threads t).memSpace }.modify t fun i =>
        { i with exitCode := code, state := .finished }) := by
  refine ⟨release_inv h.memSpaces ht halive rfl, release_inv h.fdTables ht halive rfl, fun u hu => ?_⟩
  by_cases hut : u = t
  · subst hut
    simp [hqueued] at hu
  · rw [modify_of_ne hut] at hu ⊢
    exact h.queued u hu

/-- **The end of `ThreadExit` and `ProcessDoExit`**, for a target that is alive. -/
theorem Counted.finishExit {target : Nat} {code : UInt64} (h : Counted s) (ht : target < s.nextTid)
    (halive : (s.threads target).alive = true) (hqueued : (s.threads target).queued = false) :
    Counted (finishExit target code s) := by
  have hown : Counted (s.modify s.current fun i =>
      { i with stickyCount := i.stickyCount + 1, pc := .run }) := h.modify_same rfl rfl rfl rfl
  have hkeep : ∀ u, _ := modify_keeps (s := s) (t := s.current)
    (f := fun i => { i with stickyCount := i.stickyCount + 1, pc := .run })
    (fun i => (i.alive, i.queued, i.fds, i.memSpace)) rfl
  obtain ⟨ha, hq, hf, hm⟩ : _ ∧ _ ∧ _ ∧ _ := by simpa only [Prod.mk.injEq] using hkeep target
  unfold Scheduler.finishExit
  dsimp only
  apply Counted.threadYield
  rw [← hf, ← hm]
  exact hown.finish ht (ha.trans halive) (hq.trans hqueued)

/-! ## Every step -/

/-- **The condition**: when `ProcessDoExit` gives back the references of the main thread, that thread is
alive, and not in the queue of a lock. -/
def MainAlive (s : State) (e : Event) : Prop :=
  ∀ code, e = .act → (s.threads s.current).pc = .finish (.main code) →
    (s.threads (s.threads s.current).mainThread).alive = true ∧
      (s.threads (s.threads s.current).mainThread).queued = false

theorem Counted.act (h : Counted s) (hbase : Base s) (hok : MainAlive s .act)
    (hact : act s = some s') : Counted s' := by
  have hnot := h.not_queued hbase.running.ready
  unfold Scheduler.act at hact
  dsimp only at hact
  cases hpc : (s.threads s.current).pc with
  | run => simp [hpc] at hact
  | sleeping | waiting =>
    obtain rfl : _ = s' := by simpa [hpc] using hact
    exact h.modify_same rfl rfl rfl rfl
  | popped child =>
    obtain rfl : _ = s' := by simpa [hpc] using hact
    exact h.threadBlock hbase (by simp) (by simp [hnot])
  | joining child =>
    simp only [hpc] at hact
    split at hact
    · obtain rfl := Option.some.inj hact
      have hdelete : Counted (s.delete child) :=
        h.congr rfl rfl rfl (fun _ => rfl) (fun _ => rfl) (fun _ => rfl) h.queued
      exact hdelete.modify_same rfl rfl rfl rfl
    · obtain rfl := Option.some.inj hact
      exact h.pushChild.modify_same rfl rfl rfl rfl
  | killLoop k =>
    obtain rfl : _ = s' := by simpa [hpc] using hact
    unfold Scheduler.killLoop
    dsimp only
    split
    · exact h.modify_same rfl rfl rfl rfl
    · rename_i child _
      have hpop := h.modify_same (t := s.target s.current k)
        (f := fun i => { i with childThreads := i.childThreads.dropLast }) rfl rfl rfl rfl
      have habort := hpop.modify_same (t := child) (f := fun i => { i with abortPending := true })
        rfl rfl rfl rfl
      exact habort.modify_same rfl rfl rfl rfl
  | killing child k =>
    obtain rfl : _ = s' := by simpa [hpc] using hact
    exact h.threadBlock hbase (by simp) (by simp [hnot])
  | killJoin child k =>
    obtain rfl : _ = s' := by simpa only [hpc, Option.some.injEq] using hact
    split
    · have hjoined : Counted { s with joined := s.joined ++ [child] } :=
        h.congr rfl rfl rfl (fun _ => rfl) (fun _ => rfl) (fun _ => rfl) h.queued
      exact hjoined.modify_same rfl rfl rfl rfl
    · exact h.pushChild.modify_same rfl rfl rfl rfl
  | finish k =>
    cases k with
    | thread code =>
      obtain rfl : _ = s' := by simpa [hpc] using hact
      exact h.finishExit hbase.current_lt hbase.alive hnot
    | caller code => simp [hpc] at hact
    | main code =>
      obtain rfl : _ = s' := by simpa [hpc] using hact
      obtain ⟨halive, hqueued⟩ := hok code rfl hpc
      exact h.finishExit (hbase.lists.mains.lt _ hbase.current_lt) halive hqueued

theorem Counted.requestExit {tid : Nat} (h : Counted s)
    (hf : ∀ i, (f i).state = i.state ∧ (f i).memSpace = i.memSpace ∧ (f i).fds = i.fds ∧
      (f i).queued = i.queued) : Counted (requestExit tid f s).2 := by
  unfold Scheduler.requestExit
  dsimp only
  split
  · split
    · exact h
    · exact h.modify_same (hf _).1 (hf _).2.1 (hf _).2.2.1 (hf _).2.2.2
  · exact h

theorem Counted.threadCheckFlags (h : Counted s) : Counted (threadCheckFlags s) := by
  have hflag : Counted (s.modify s.current fun i => { i with killPending := false }) :=
    h.modify_same rfl rfl rfl rfl
  unfold Scheduler.threadCheckFlags
  dsimp only
  split
  · split
    · split
      · exact hflag.modify_same rfl rfl rfl rfl
      · exact hflag
    · exact hflag.modify_same rfl rfl rfl rfl
  · split
    · exact h.modify_same rfl rfl rfl rfl
    · exact h

theorem Counted.call {e : Event} (h : Counted s) (hbase : Base s) (hcall : call s e = some s') :
    Counted s' := by
  have hnot := h.not_queued hbase.running.ready
  cases e with
  | tick d b => cases hcall
  | act => cases hcall
  | createKernelThread =>
    obtain rfl := Option.some.inj hcall
    exact h.createKernelThread
  | cloneThread sub mem fd =>
    obtain rfl := Option.some.inj hcall
    exact h.cloneThread hbase
  | threadYield =>
    obtain rfl := Option.some.inj hcall
    exact h.threadYield
  | threadSleep ticks =>
    obtain rfl := Option.some.inj hcall
    exact h.threadBlock hbase (by simp) (by simp [hnot])
  | lockWait =>
    obtain rfl := Option.some.inj hcall
    apply Counted.switchThread
    rw [State.modify_current, modify_modify]
    apply h.modify
    · simp [ThreadInfo.alive, hbase.running.ready]
    · rfl
    · rfl
    · exact fun _ => rfl
  | unlockWake w =>
    simp only [Scheduler.call] at hcall
    split at hcall
    · rename_i hqueued
      obtain rfl := Option.some.inj hcall
      apply h.modify
      · simp [ThreadInfo.alive, h.queued w hqueued]
      · rfl
      · rfl
      · simp
    · cases hcall
  | threadDetach tid =>
    obtain rfl := Option.some.inj hcall
    unfold threadDetach
    dsimp only
    split
    · split
      · exact h
      · exact h.eraseChild.pushChild
    · exact h
  | threadJoin tid =>
    obtain rfl := Option.some.inj hcall
    unfold threadJoin
    dsimp only
    split
    · have herase : Counted (s.eraseChild (s.threads s.current).mainThread tid) := h.eraseChild
      exact herase.modify_same (f := fun i => { i with pc := .popped tid }) rfl rfl rfl rfl
    · exact h
  | threadTryJoin tid =>
    obtain rfl := Option.some.inj hcall
    unfold threadTryJoin
    dsimp only
    split
    · split
      · have herase : Counted (s.eraseChild (s.threads s.current).mainThread tid) := h.eraseChild
        exact herase.congr rfl rfl rfl (fun _ => rfl) (fun _ => rfl) (fun _ => rfl) herase.queued
      · exact h
    · exact h
  | threadKill tid | threadAbort tid =>
    obtain rfl := Option.some.inj hcall
    exact h.requestExit fun _ => ⟨rfl, rfl, rfl, rfl⟩
  | handleKill rip | setUser uid | threadExit code | processDoExit code =>
    obtain rfl := Option.some.inj hcall
    exact h.modify_same rfl rfl rfl rfl
  | threadExec =>
    obtain rfl := Option.some.inj hcall
    exact h.threadExec hbase
  | threadCheckFlags =>
    obtain rfl := Option.some.inj hcall
    exact h.threadCheckFlags

/-- **Every step** whose main thread is alive keeps the counts. -/
theorem Counted.step {e : Event} (h : Counted s) (hbase : Base s) (hok : MainAlive s e)
    (hstep : step s e = some s') : Counted s' := by
  obtain ⟨d, b, -, -, rfl⟩ | ⟨rfl, -, hact⟩ | ⟨-, -, hcall⟩ := step_cases hstep
  · exact h.tick hbase.lists
  · exact h.act hbase hok hact
  · exact h.call hbase hcall

/-- The accounts of a kind of object: every counter is the number of threads that are alive and refer to
the object, it was freed, once, exactly if there is none, and no thread that is alive refers to a freed
one. -/
def Accounted (g : ThreadInfo → Nat) (r : RefCounts) (s : State) : Prop :=
  (∀ i < r.next, r.count i = users g s.threads s.nextTid i ∧
    (i ∈ r.freed ↔ users g s.threads s.nextTid i = 0)) ∧
  r.freed.Nodup ∧
  ∀ t < s.nextTid, (s.threads t).alive = true → g (s.threads t) ∉ r.freed

theorem accounted_of_inv {r : RefCounts} (h : r.Inv (users g s.threads s.nextTid)) :
    Accounted g r s := by
  refine ⟨fun i hi => ⟨h.count i hi, ?_⟩, h.nodup, fun t ht halive => ?_⟩
  · rw [h.freed i]
    exact and_iff_right hi
  · exact h.not_freed (users_pos ht halive)

/-- **References of exiting threads.** In every run in which `ProcessDoExit` only finishes main threads
that are alive, memory spaces and descriptor tables are accounted for. -/
theorem exits_accounted (s : State) (run : Runs step MainAlive initial s) :
    Accounted ThreadInfo.memSpace s.memSpaces s ∧ Accounted ThreadInfo.fds s.fdTables s := by
  have hinv : Base s ∧ Counted s := by
    refine run.inv (I := fun s => Base s ∧ Counted s) ⟨base_initial, counted_initial⟩ ?_
    rintro s e s' ⟨hbase, hcounted⟩ hok hstep
    exact ⟨hbase.step hstep, hcounted.step hbase hok hstep⟩
  exact ⟨accounted_of_inv hinv.2.memSpaces, accounted_of_inv hinv.2.fdTables⟩

/-- The condition as a test. -/
def mainAlive (s : State) : Event → Bool
  | .act => match (s.threads s.current).pc with
    | .finish (.main _) => (s.threads (s.threads s.current).mainThread).alive &&
        !(s.threads (s.threads s.current).mainThread).queued
    | _ => true
  | _ => true

theorem mainAlive_sound (s : State) (e : Event) (h : mainAlive s e = true) : MainAlive s e := by
  rintro code rfl hpc
  simpa [mainAlive, hpc] using h

/-- Thread 2 becomes a process and makes the subthread 3, which shares everything; it joins 3, and the
init thread yields to 3. -/
def joinedSubthread : List Event :=
  [.tick 0 false, .createKernelThread, .threadYield, .threadYield, .threadExec,
    .cloneThread true true true, .threadJoin 3, .act, .threadYield]

/-- `ProcessDoExit` by the running subthread, and the way back to it. -/
def exitProcess : List Event := [.processDoExit 0, .act, .act, .act, .threadYield]

/-- After the subthread's exit the main thread is finished, and the memory space has one user left. -/
theorem exits_accounted_subthread : ∃ s, Runs step MainAlive initial s ∧
    (s.threads 2).state = .finished ∧ s.memSpaces.count 2 = 1 ∧
    users ThreadInfo.memSpace s.threads s.nextTid 2 = 1 := by
  have hrun : (exec (fun s e => if mainAlive s e then step s e else none)
      (joinedSubthread ++ exitProcess) initial).map
        (fun s => ((s.threads 2).state, s.memSpaces.count 2, s.memSpaces.next)) =
      some (.finished, 1, 3) := by decide +kernel
  obtain ⟨s, hs, hproj⟩ := Option.map_eq_some_iff.1 hrun
  simp only [Prod.mk.injEq] at hproj
  obtain ⟨hstate, hcount, hnext⟩ := hproj
  have hruns : Runs step MainAlive initial s := runs_of_checks mainAlive_sound _ hs
  have haccounts := (exits_accounted s hruns).1.1 2 (by rw [hnext]; decide)
  exact ⟨s, hruns, hstate, hcount, by rw [← haccounts.1, hcount]⟩

/-- When the subthread calls `ProcessDoExit` again, the references of the finished main thread are given
back once more, and the memory space that the running subthread uses is freed. -/
theorem second_exit_frees_used_space : ∃ s, Runs step (fun _ _ => True) initial s ∧
    s.current = 3 ∧ (s.threads 3).state = .ready ∧ (s.threads 3).memSpace ∈ s.memSpaces.freed ∧
    (s.threads 3).fds ∈ s.fdTables.freed := by
  have hrun : (exec step (joinedSubthread ++ exitProcess ++ exitProcess) initial).map
      (fun s => (s.current, (s.threads 3).state, decide ((s.threads 3).memSpace ∈ s.memSpaces.freed),
        decide ((s.threads 3).fds ∈ s.fdTables.freed))) = some (3, .ready, true, true) := by
    decide +kernel
  obtain ⟨s, hs, hproj⟩ := Option.map_eq_some_iff.1 hrun
  simp only [Prod.mk.injEq, decide_eq_true_eq] at hproj
  exact ⟨s, runs_of_exec _ hs, hproj⟩

end ChenixOS.Scheduler
