import ChenixOS.Task.SchedulerProof

/-!
# Children

A thread is in the list of its parent's main thread, or of the init thread, or a thread that joins it has
taken it out of such a list. In every run children are younger than the thread whose list they are in or
were taken from.
-/

namespace ChenixOS.Scheduler

variable {s s' : State} {t u : Nat} {f : ThreadInfo → ThreadInfo}

/-- The child that a thread has taken out of a list, and the thread of that list. -/
def Pc.held (t main : Nat) : Pc → Option (Nat × Nat)
  | .popped child | .joining child => some (child, main)
  | .killing child k | .killJoin child k => some (child, k.target t main)
  | _ => none

def State.held (s : State) (t : Nat) : Option (Nat × Nat) :=
  (s.threads t).pc.held t (s.threads t).mainThread

structure Family (s : State) : Prop where
  listed : ∀ t, ∀ c ∈ (s.threads t).childThreads, t < c ∧ c < s.nextTid
  held : ∀ t c p, s.held t = some (c, p) → p < c ∧ c < s.nextTid
  fresh : ∀ t, s.nextTid ≤ t → (s.threads t).pc = .run ∧ (s.threads t).childThreads = []

theorem family_initial : Family initial := ⟨nofun, nofun, fun _ _ => ⟨rfl, rfl⟩⟩

theorem Family.congr (h : Family s) (hnext : s'.nextTid = s.nextTid)
    (hmain : ∀ t, (s'.threads t).mainThread = (s.threads t).mainThread)
    (hchildren : ∀ t, (s'.threads t).childThreads = (s.threads t).childThreads)
    (hpc : ∀ t, (s'.threads t).pc = (s.threads t).pc ∨
      t < s.nextTid ∧ (s'.threads t).pc.held t (s.threads t).mainThread = none) : Family s' := by
  refine ⟨fun t c hc => ?_, fun t c p hheld => ?_, fun t ht => ?_⟩
  · rw [hchildren] at hc
    rw [hnext]
    exact h.listed t c hc
  · rw [State.held, hmain] at hheld
    rw [hnext]
    rcases hpc t with hsame | ⟨-, hnone⟩
    · rw [hsame] at hheld
      exact h.held t c p hheld
    · rw [hnone] at hheld
      cases hheld
  · rw [hnext] at ht
    rw [hchildren]
    rcases hpc t with hsame | ⟨hlt, -⟩
    · rw [hsame]
      exact h.fresh t ht
    · omega

theorem Family.modify (h : Family s) (ht : t < s.nextTid)
    (hmain : (f (s.threads t)).mainThread = (s.threads t).mainThread)
    (hchildren : ∀ c ∈ (f (s.threads t)).childThreads, t < c ∧ c < s.nextTid)
    (hheld : ∀ c p, (f (s.threads t)).pc.held t (s.threads t).mainThread = some (c, p) →
      p < c ∧ c < s.nextTid) : Family (s.modify t f) := by
  refine ⟨fun u c hc => ?_, fun u c p hu => ?_, fun u hu => ?_⟩
  · by_cases hut : u = t
    · subst hut
      rw [modify_self] at hc
      exact hchildren c hc
    · rw [modify_of_ne hut] at hc
      exact h.listed u c hc
  · by_cases hut : u = t
    · subst hut
      rw [State.held, modify_self, hmain] at hu
      exact hheld c p hu
    · rw [State.held, modify_of_ne hut] at hu
      exact h.held u c p hu
  · have hu' : s.nextTid ≤ u := hu
    rw [modify_of_ne (by omega)]
    exact h.fresh u hu

/-- A change of one record that keeps family and place. -/
theorem Family.modify_same (h : Family s)
    (hmain : (f (s.threads t)).mainThread = (s.threads t).mainThread)
    (hchildren : (f (s.threads t)).childThreads = (s.threads t).childThreads)
    (hpc : (f (s.threads t)).pc = (s.threads t).pc) : Family (s.modify t f) :=
  h.congr rfl (modify_keeps ThreadInfo.mainThread hmain)
    (modify_keeps ThreadInfo.childThreads hchildren) fun u => .inl (modify_keeps ThreadInfo.pc hpc u)

/-- A change of one record to a place that holds no child. -/
theorem Family.modify_free (h : Family s) (ht : t < s.nextTid)
    (hmain : (f (s.threads t)).mainThread = (s.threads t).mainThread)
    (hchildren : (f (s.threads t)).childThreads = (s.threads t).childThreads)
    (hheld : (f (s.threads t)).pc.held t (s.threads t).mainThread = none) : Family (s.modify t f) := by
  apply h.modify ht hmain
  · rw [hchildren]
    exact h.listed t
  · rw [hheld]
    exact nofun

theorem Family.pushChild {child : Nat} (h : Family s) (ht : t < s.nextTid) (hlt : t < child)
    (hchild : child < s.nextTid) : Family (s.pushChild t child) := by
  apply h.modify ht rfl
  · intro c hc
    rcases List.mem_append.1 hc with hc | hc
    · exact h.listed t c hc
    · obtain rfl := List.mem_singleton.1 hc
      exact ⟨hlt, hchild⟩
  · exact h.held t

theorem Family.eraseChild {child : Nat} (h : Family s) (ht : t < s.nextTid) :
    Family (s.eraseChild t child) := by
  apply h.modify ht rfl
  · exact fun c hc => h.listed t c (List.mem_of_mem_erase hc)
  · exact h.held t

theorem Family.addThread {i : ThreadInfo} {r₁ r₂ : RefCounts} (h : Family s) (hpc : i.pc = .run)
    (hchildren : i.childThreads = []) : Family (s.addThread i r₁ r₂) := by
  have hself : (s.addThread i r₁ r₂).threads s.nextTid = i := by simp [State.addThread]
  have hold : ∀ u, u ≠ s.nextTid → (s.addThread i r₁ r₂).threads u = s.threads u := by
    intro u hu
    simp [State.addThread, hu]
  have hnext : (s.addThread i r₁ r₂).nextTid = s.nextTid + 1 := rfl
  refine ⟨fun u c hc => ?_, fun u c p hu => ?_, fun u hu => ?_⟩
  · rw [hnext]
    by_cases hu : u = s.nextTid
    · rw [hu, hself, hchildren] at hc
      cases hc
    · rw [hold u hu] at hc
      have := h.listed u c hc
      omega
  · rw [hnext]
    by_cases hun : u = s.nextTid
    · rw [State.held, hun, hself, hpc] at hu
      cases hu
    · rw [State.held, hold u hun] at hu
      have := h.held u c p hu
      omega
  · rw [hnext] at hu
    rw [hold u (by omega)]
    exact h.fresh u (by omega)

/-! ## Switches -/

theorem Family.goOn (h : Family s) (hmain : ∀ i, (f i).mainThread = i.mainThread)
    (hchildren : ∀ i, (f i).childThreads = i.childThreads) (hpc : ∀ i, (f i).pc = i.pc) :
    Family { (findNextThread s).2.modify t f with current := (findNextThread s).1 } := by
  have hnext : Family (findNextThread s).2 := by
    apply h.congr findNextThread_nextTid
    · simp
    · simp
    · simp
  have hmodify := hnext.modify_same (t := t) (f := f) (hmain _) (hchildren _) (hpc _)
  exact hmodify.congr rfl (fun _ => rfl) (fun _ => rfl) fun _ => .inl rfl

theorem Family.switchThread (h : Family s) : Family (switchThread s) :=
  h.goOn (fun _ => rfl) (fun _ => rfl) (fun _ => rfl)

theorem Family.threadYield (h : Family s) : Family (threadYield s) := by
  unfold Scheduler.threadYield
  split
  · apply h.congr findNextThread_nextTid
    · simp
    · simp
    · simp
  · exact h.switchThread

theorem Updated.childThreads {d : Nat} (h : Updated d s s' t) :
    (s'.threads t).childThreads = (s.threads t).childThreads := by
  cases h with
  | ready hstate hnew => rw [hnew, deliver_frame]
  | exited _ hnew | finished _ hnew | queueLock _ hnew | interrupted _ _ hnew | awoke _ _ hnew
  | sleeps _ _ hnew | joined _ _ _ hnew | waits _ _ _ hnew => rw [hnew]

theorem updateEvents_childThreads {d : Nat} (h : s.activeList.Nodup) (t : Nat) :
    ((updateEvents d s).threads t).childThreads = (s.threads t).childThreads := by
  by_cases hmem : t ∈ s.activeList
  · exact (updateEvents_updated h hmem).childThreads
  · rw [updateEvents_of_not_mem hmem]

/-- `UpdateEvents` changes the place only of a thread that is to exit. -/
theorem updateEvents_pc {d : Nat} (h : Lists s) (t : Nat) :
    ((updateEvents d s).threads t).pc = (s.threads t).pc ∨
      t ∈ s.activeList ∧ (s.threads t).state = .ready ∧ (s.threads t).userMode = true ∧
        t ≠ s.current ∧ ((updateEvents d s).threads t).pc = .killLoop (.thread 1) := by
  by_cases hmem : t ∈ s.activeList
  · exact (updateEvents_updated h.nodup hmem).pc.imp_right fun hpc => ⟨hmem, hpc⟩
  · rw [updateEvents_of_not_mem hmem]
    exact .inl rfl

theorem Family.updateEvents {d : Nat} (h : Family s) (hlists : Lists s) :
    Family (updateEvents d s) := by
  apply h.congr
  · rw [updateEvents_frame]
  · exact updateEvents_mainThread hlists.nodup
  · exact updateEvents_childThreads hlists.nodup
  · intro t
    refine (updateEvents_pc hlists t).imp_right fun hpc => ⟨(hlists.listed t hpc.1).2, ?_⟩
    rw [hpc.2.2.2.2]
    rfl

theorem Family.tick {d : Nat} {b : Bool} (h : Family s) (hlists : Lists s) : Family (tick d b s) := by
  unfold Scheduler.tick
  split
  · exact h
  · exact (h.updateEvents hlists).goOn (fun _ => rfl) (fun _ => rfl) (fun _ => rfl)

theorem Family.threadBlock {type : ThreadState} {arg : Nat} {pc : Pc} (h : Family s) (hbase : Base s)
    (hheld : ∀ c p, pc.held s.current (s.threads s.current).mainThread = some (c, p) →
      p < c ∧ c < s.nextTid) : Family (threadBlock type arg pc s) := by
  apply Family.switchThread
  exact h.modify hbase.current_lt rfl (h.listed s.current) hheld

/-! ## Every step -/

theorem Base.target_lt (h : Base s) (k : Exit) : s.target s.current k < s.nextTid := by
  cases k with
  | thread _ | caller _ => exact h.current_lt
  | main _ => exact h.lists.mains.lt _ h.current_lt

theorem Base.init_lt (h : Base s) : initThread < s.nextTid := h.lists.tids

/-- A child of a thread that is not idle is younger than the init thread. -/
theorem Family.init_lt {c : Nat} (h : Family s) (ht : t ≠ idleThread)
    (hc : c ∈ (s.threads t).childThreads) : initThread < c := by
  have hlt := (h.listed t c hc).1
  have hpos : 0 < t := Nat.pos_of_ne_zero ht
  show 1 < c
  omega

theorem Family.killLoop {k : Exit} (h : Family s) (hbase : Base s) : Family (killLoop k s) := by
  unfold Scheduler.killLoop
  dsimp only
  split
  · exact h.modify_free hbase.current_lt rfl rfl (by cases k <;> rfl)
  · rename_i child hlast
    have hchild := h.listed _ child (List.mem_of_getLast? hlast)
    have hpop := h.modify (t := s.target s.current k)
      (f := fun i => { i with childThreads := i.childThreads.dropLast }) (hbase.target_lt k) rfl
      (fun c hc => h.listed _ c ((List.dropLast_sublist _).subset hc)) (h.held _)
    have habort := hpop.modify_same (t := child) (f := fun i => { i with abortPending := true })
      rfl rfl rfl
    refine habort.modify hbase.current_lt rfl (habort.listed s.current) fun c p hheld => ?_
    have hmain : (((s.modify (s.target s.current k) fun i =>
        { i with childThreads := i.childThreads.dropLast }).modify child fun i =>
          { i with abortPending := true }).threads s.current).mainThread =
        (s.threads s.current).mainThread :=
      (modify_keeps ThreadInfo.mainThread rfl _).trans (modify_keeps ThreadInfo.mainThread rfl _)
    rw [State.modify_current, State.modify_current, hmain] at hheld
    obtain ⟨rfl, rfl⟩ := Prod.mk.inj (Option.some.inj hheld)
    exact hchild

theorem Family.finishExit {target : Nat} {code : UInt64} (h : Family s) (hbase : Base s) :
    Family (finishExit target code s) := by
  have hown : Family (s.modify s.current fun i =>
      { i with stickyCount := i.stickyCount + 1, pc := .run }) :=
    h.modify_free hbase.current_lt rfl rfl rfl
  unfold Scheduler.finishExit
  dsimp only
  apply Family.threadYield
  have hrefs : Family { s.modify s.current fun i =>
      { i with stickyCount := i.stickyCount + 1, pc := .run } with
      fdTables := s.fdTables.release (s.threads target).fds
      memSpaces := s.memSpaces.release (s.threads target).memSpace } :=
    hown.congr rfl (fun _ => rfl) (fun _ => rfl) fun _ => .inl rfl
  exact hrefs.modify_same rfl rfl rfl

theorem Family.act (h : Family s) (hbase : Base s) (hact : act s = some s') : Family s' := by
  have hlt := hbase.current_lt
  unfold Scheduler.act at hact
  dsimp only at hact
  cases hpc : (s.threads s.current).pc with
  | run => simp [hpc] at hact
  | sleeping | waiting =>
    obtain rfl : _ = s' := by simpa [hpc] using hact
    exact h.modify_free hlt rfl rfl rfl
  | popped child =>
    obtain rfl : _ = s' := by simpa [hpc] using hact
    refine h.threadBlock hbase fun c p hheld => h.held s.current c p ?_
    rw [State.held, hpc]
    exact hheld
  | joining child =>
    have hheld := h.held s.current child (s.threads s.current).mainThread (by rw [State.held, hpc]; rfl)
    simp only [hpc] at hact
    split at hact
    · obtain rfl := Option.some.inj hact
      have hdelete : Family (s.delete child) :=
        h.congr rfl (fun _ => rfl) (fun _ => rfl) fun _ => .inl rfl
      exact hdelete.modify_free hlt rfl rfl rfl
    · obtain rfl := Option.some.inj hact
      have hpush := h.pushChild (hbase.lists.mains.lt _ hlt) hheld.1 hheld.2
      exact hpush.modify_free hlt rfl rfl rfl
  | killLoop k =>
    obtain rfl : _ = s' := by simpa [hpc] using hact
    exact h.killLoop hbase
  | killing child k =>
    obtain rfl : _ = s' := by simpa [hpc] using hact
    refine h.threadBlock hbase fun c p hheld => h.held s.current c p ?_
    rw [State.held, hpc]
    exact hheld
  | killJoin child k =>
    have hheld := h.held s.current child (s.target s.current k) (by rw [State.held, hpc]; rfl)
    obtain rfl : _ = s' := by simpa only [hpc, Option.some.injEq] using hact
    split
    · have hjoined : Family { s with joined := s.joined ++ [child] } :=
        h.congr rfl (fun _ => rfl) (fun _ => rfl) fun _ => .inl rfl
      exact hjoined.modify_free hlt rfl rfl rfl
    · have hpush := h.pushChild (hbase.target_lt k) hheld.1 hheld.2
      exact hpush.modify_free hlt rfl rfl rfl
  | finish k =>
    cases k with
    | thread code =>
      obtain rfl : _ = s' := by simpa [hpc] using hact
      exact h.finishExit hbase
    | caller code => simp [hpc] at hact
    | main code =>
      obtain rfl : _ = s' := by simpa [hpc] using hact
      exact h.finishExit hbase

theorem Family.requestExit {tid : Nat} (h : Family s)
    (hf : ∀ i, (f i).mainThread = i.mainThread ∧ (f i).childThreads = i.childThreads ∧
      (f i).pc = i.pc) : Family (requestExit tid f s).2 := by
  unfold Scheduler.requestExit
  dsimp only
  split
  · split
    · exact h
    · exact h.modify_same (hf _).1 (hf _).2.1 (hf _).2.2
  · exact h

theorem Family.call {e : Event} (h : Family s) (hbase : Base s) (hcurrent : s.current ≠ idleThread)
    (hcall : call s e = some s') : Family s' := by
  have hlt := hbase.current_lt
  have hmain := hbase.lists.mains.lt _ hlt
  cases e with
  | tick d b => cases hcall
  | act => cases hcall
  | createKernelThread =>
    obtain rfl := Option.some.inj hcall
    rw [createKernelThread_eq]
    exact (h.addThread rfl rfl).pushChild (Nat.lt_succ_of_lt hbase.init_lt) hbase.init_lt
      (Nat.lt_succ_self _)
  | cloneThread sub mem fd =>
    obtain rfl := Option.some.inj hcall
    rw [cloneThread_eq]
    exact (h.addThread rfl rfl).pushChild (Nat.lt_succ_of_lt hmain) hmain (Nat.lt_succ_self _)
  | threadYield =>
    obtain rfl := Option.some.inj hcall
    exact h.threadYield
  | threadSleep ticks =>
    obtain rfl := Option.some.inj hcall
    exact h.threadBlock hbase nofun
  | lockWait =>
    obtain rfl := Option.some.inj hcall
    have hqueued : Family (s.modify s.current fun i => { i with queued := true }) :=
      h.modify_same rfl rfl rfl
    exact hqueued.threadBlock (hbase.modify_current rfl rfl) nofun
  | unlockWake w =>
    simp only [Scheduler.call] at hcall
    split at hcall
    · obtain rfl := Option.some.inj hcall
      exact h.modify_same rfl rfl rfl
    · cases hcall
  | threadDetach tid =>
    obtain rfl := Option.some.inj hcall
    unfold threadDetach
    dsimp only
    split
    · rename_i hmem
      split
      · exact h
      · have hidle := hbase.lists.mains.not_idle _ hcurrent
        exact (h.eraseChild hmain).pushChild hbase.init_lt (h.init_lt hidle hmem) (h.listed _ _ hmem).2
    · exact h
  | threadJoin tid =>
    obtain rfl := Option.some.inj hcall
    unfold threadJoin
    dsimp only
    split
    · rename_i hmem
      have herase : Family (s.eraseChild (s.threads s.current).mainThread tid) := h.eraseChild hmain
      refine herase.modify (f := fun i => { i with pc := .popped tid }) hlt rfl
        (herase.listed s.current) fun c p hheld => ?_
      have hsame : ((s.eraseChild (s.threads s.current).mainThread tid).threads s.current).mainThread =
          (s.threads s.current).mainThread := modify_keeps ThreadInfo.mainThread rfl _
      rw [hsame] at hheld
      obtain ⟨rfl, rfl⟩ := Prod.mk.inj (Option.some.inj hheld)
      exact h.listed _ _ hmem
    · exact h
  | threadTryJoin tid =>
    obtain rfl := Option.some.inj hcall
    unfold threadTryJoin
    dsimp only
    split
    · split
      · have herase : Family (s.eraseChild (s.threads s.current).mainThread tid) := h.eraseChild hmain
        exact herase.congr rfl (fun _ => rfl) (fun _ => rfl) fun _ => .inl rfl
      · exact h
    · exact h
  | threadKill tid | threadAbort tid =>
    obtain rfl := Option.some.inj hcall
    exact h.requestExit fun _ => ⟨rfl, rfl, rfl⟩
  | handleKill rip | setUser uid =>
    obtain rfl := Option.some.inj hcall
    exact h.modify_same rfl rfl rfl
  | threadExit code | processDoExit code =>
    obtain rfl := Option.some.inj hcall
    exact h.modify_free hlt rfl rfl rfl
  | threadExec =>
    obtain rfl := Option.some.inj hcall
    have hown : Family (s.modify s.current fun i => { i with stickyCount := 0, userMode := true }) :=
      h.modify_same rfl rfl rfl
    unfold threadExec
    dsimp only
    split
    · exact hown.congr rfl (fun _ => rfl) (fun _ => rfl) fun _ => .inl rfl
    · have hspace := hown.modify_same (t := s.current)
        (f := fun i => { i with memSpace := s.memSpaces.next }) rfl rfl rfl
      exact hspace.congr rfl (fun _ => rfl) (fun _ => rfl) fun _ => .inl rfl
  | threadCheckFlags =>
    obtain rfl := Option.some.inj hcall
    have hflag : Family (s.modify s.current fun i => { i with killPending := false }) :=
      h.modify_same rfl rfl rfl
    unfold threadCheckFlags
    dsimp only
    split
    · split
      · split
        · exact hflag.modify_free hlt rfl rfl rfl
        · exact hflag
      · exact hflag.modify_free hlt rfl rfl rfl
    · split
      · exact h.modify_free hlt rfl rfl rfl
      · exact h

/-- **Every step** keeps children younger. -/
theorem Family.step {e : Event} (h : Family s) (hbase : Base s) (hstep : step s e = some s') :
    Family s' := by
  obtain ⟨d, b, -, -, rfl⟩ | ⟨-, -, hact⟩ | ⟨hcurrent, -, hcall⟩ := step_cases hstep
  · exact h.tick hbase.lists
  · exact h.act hbase hact
  · exact h.call hbase hcurrent hcall

/-! ## A run with a child -/

/-- Thread 2 becomes a process and makes the subthread 3, which runs. -/
def runningSubthread : List Event :=
  [.tick 0 false, .createKernelThread, .threadYield, .threadYield, .threadExec,
    .cloneThread true true true, .threadYield, .threadYield, .threadYield]

/-- The subthread exits, and the init thread runs. -/
def exitedSubthread : List Event := runningSubthread ++ [.threadExit 0, .act, .act]

end ChenixOS.Scheduler
