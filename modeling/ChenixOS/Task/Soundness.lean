import ChenixOS.Task.SchedulerProof

/-!
# Soundness of the scheduler

Runs in which no thread calls `ProcessDoExit`: the active list is the list of the threads that have not
exited, only ready threads are selected, only threads that have exited are deleted, and selection goes
round.
-/

namespace ChenixOS.Scheduler

open Transitions

variable {s s' : State} {t u : Nat} {f : ThreadInfo → ThreadInfo}

/-- The call of `KillChildThreads` a place is in or has just left. -/
def Pc.exit? : Pc → Option Exit
  | .killLoop k | .killing _ k | .killJoin _ k | .finish k => some k
  | _ => none

/-- `ThreadExit` is the only exit that is going on. -/
def Pc.ThreadExitOnly (pc : Pc) : Prop := ∀ k, pc.exit? = some k → ∃ code, k = .thread code

structure Sound (s : State) : Prop where
  active : ∀ t, t ≠ idleThread → t < s.nextTid →
    (t ∈ s.activeList ↔ (s.threads t).state ≠ .exited)
  fresh : ∀ t, s.nextTid ≤ t → (s.threads t).state = .ready ∧ (s.threads t).queued = false ∧
    (s.threads t).pc = .run
  queued : ∀ t, (s.threads t).queued = true →
    (s.threads t).state = .queueLock ∧ (s.threads t).pc = .waiting
  exits : ∀ t, (s.threads t).pc.ThreadExitOnly
  joins : ∀ t c, (s.threads t).pc = .joining c → (s.threads t).state = .join ∨
    (s.threads t).state = .ready ∧ ((s.threads t).rax = OK → (s.threads c).state = .exited)
  deleted : ∀ c ∈ s.deleted, (s.threads c).state = .exited

theorem sound_initial : Sound initial := by
  refine ⟨fun t hidle ht => ?_, fun t _ => ⟨rfl, rfl, rfl⟩, nofun, nofun, nofun, nofun⟩
  have hlt : t < 2 := ht
  have hne : t ≠ 0 := hidle
  obtain rfl : t = 1 := by omega
  simp [initial, initThread, newThread]

/-- A change that keeps the states, return values, places and queue marks, and reorders the list. -/
theorem Sound.congr (h : Sound s) (hnext : s'.nextTid = s.nextTid)
    (hlist : s'.activeList.Perm s.activeList) (hdeleted : s'.deleted = s.deleted)
    (hstate : ∀ t, (s'.threads t).state = (s.threads t).state)
    (hrax : ∀ t, (s'.threads t).rax = (s.threads t).rax)
    (hpc : ∀ t, (s'.threads t).pc = (s.threads t).pc)
    (hqueued : ∀ t, (s'.threads t).queued = (s.threads t).queued) : Sound s' where
  active t hidle ht := by
    rw [hlist.mem_iff, hstate]
    exact h.active t hidle (hnext ▸ ht)
  fresh t ht := by
    rw [hstate, hqueued, hpc]
    exact h.fresh t (hnext ▸ ht)
  queued t ht := by
    rw [hqueued] at ht
    rw [hstate, hpc]
    exact h.queued t ht
  exits t := by
    rw [hpc]
    exact h.exits t
  joins t c ht := by
    rw [hpc] at ht
    rw [hstate, hrax, hstate]
    exact h.joins t c ht
  deleted c hc := by
    rw [hstate]
    exact h.deleted c (hdeleted ▸ hc)

theorem Sound.modify_same (h : Sound s) (hstate : (f (s.threads t)).state = (s.threads t).state)
    (hrax : (f (s.threads t)).rax = (s.threads t).rax)
    (hpc : (f (s.threads t)).pc = (s.threads t).pc)
    (hqueued : (f (s.threads t)).queued = (s.threads t).queued) : Sound (s.modify t f) :=
  h.congr rfl (List.Perm.refl _) rfl (modify_keeps ThreadInfo.state hstate)
    (modify_keeps ThreadInfo.rax hrax) (modify_keeps ThreadInfo.pc hpc)
    (modify_keeps ThreadInfo.queued hqueued)

/-- A change of the record of a thread that has been made and has not exited, and does not exit. -/
theorem Sound.modify (h : Sound s) (ht : t < s.nextTid) (hlive : (s.threads t).state ≠ .exited)
    (hstate : (f (s.threads t)).state ≠ .exited)
    (hqueued : (f (s.threads t)).queued = true →
      (f (s.threads t)).state = .queueLock ∧ (f (s.threads t)).pc = .waiting)
    (hexits : (f (s.threads t)).pc.ThreadExitOnly)
    (hjoins : ∀ c, (f (s.threads t)).pc = .joining c → (f (s.threads t)).state = .join ∨
      (f (s.threads t)).state = .ready ∧
        ((f (s.threads t)).rax = OK → (s.threads c).state = .exited)) : Sound (s.modify t f) := by
  have hexited : ∀ u, (s.threads u).state = .exited → ((s.modify t f).threads u).state = .exited := by
    intro u hu
    have hut : u ≠ t := by
      rintro rfl
      exact hlive hu
    rw [modify_of_ne hut]
    exact hu
  refine ⟨fun u hidle hu => ?_, fun u hu => ?_, fun u hu => ?_, fun u => ?_, fun u c hu => ?_,
    fun c hc => hexited c (h.deleted c hc)⟩
  · show u ∈ s.activeList ↔ _
    rw [h.active u hidle hu]
    by_cases hut : u = t
    · subst hut
      simp [hlive, hstate]
    · rw [modify_of_ne hut]
  · have hu' : s.nextTid ≤ u := hu
    rw [modify_of_ne (by omega)]
    exact h.fresh u hu
  · by_cases hut : u = t
    · subst hut
      rw [modify_self] at hu ⊢
      exact hqueued hu
    · rw [modify_of_ne hut] at hu ⊢
      exact h.queued u hu
  · by_cases hut : u = t
    · subst hut
      rw [modify_self]
      exact hexits
    · rw [modify_of_ne hut]
      exact h.exits u
  · by_cases hut : u = t
    · subst hut
      rw [modify_self] at hu ⊢
      exact (hjoins c hu).imp_right fun hr => ⟨hr.1, fun hok => hexited c (hr.2 hok)⟩
    · rw [modify_of_ne hut] at hu ⊢
      exact (h.joins u c hu).imp_right fun hr => ⟨hr.1, fun hok => hexited c (hr.2 hok)⟩

/-! ## The running thread -/

section

variable (h : Sound s) (hbase : Base s)

include h hbase

theorem Sound.not_queued : (s.threads s.current).queued = false := by
  by_contra hq
  have hlock := (h.queued s.current (by simpa using hq)).1
  rw [hbase.running.ready] at hlock
  cases hlock

/-- A change of the running thread that keeps its state. -/
theorem Sound.modify_current (hstate : (f (s.threads s.current)).state = (s.threads s.current).state)
    (hqueued : (f (s.threads s.current)).queued = (s.threads s.current).queued)
    (hexits : (f (s.threads s.current)).pc.ThreadExitOnly)
    (hjoins : ∀ c, (f (s.threads s.current)).pc ≠ .joining c) : Sound (s.modify s.current f) := by
  have hready := hbase.running.ready
  apply h.modify hbase.current_lt
  · simp [hready]
  · simp [hstate, hready]
  · intro hq
    rw [hqueued, h.not_queued hbase] at hq
    cases hq
  · exact hexits
  · exact fun c hc => absurd hc (hjoins c)

end

/-! ## Switches -/

/-- Go on with the selected thread. -/
theorem Sound.goOn (h : Sound s) (hstate : ∀ i, (f i).state = i.state) (hrax : ∀ i, (f i).rax = i.rax)
    (hpc : ∀ i, (f i).pc = i.pc) (hqueued : ∀ i, (f i).queued = i.queued) :
    Sound { (findNextThread s).2.modify t f with current := (findNextThread s).1 } := by
  have hnext : Sound (findNextThread s).2 := by
    apply h.congr findNextThread_nextTid findNextThread_perm
    · rw [findNextThread_frame]
    · simp
    · simp
    · simp
    · simp
  have hmodify := hnext.modify_same (t := t) (f := f) (hstate _) (hrax _) (hpc _) (hqueued _)
  exact hmodify.congr rfl (List.Perm.refl _) rfl (fun _ => rfl) (fun _ => rfl) (fun _ => rfl)
    fun _ => rfl

theorem Sound.switchThread (h : Sound s) : Sound (switchThread s) :=
  h.goOn (fun _ => rfl) (fun _ => rfl) (fun _ => rfl) (fun _ => rfl)

theorem Sound.threadYield (h : Sound s) : Sound (threadYield s) := by
  unfold Scheduler.threadYield
  split
  · apply h.congr findNextThread_nextTid findNextThread_perm
    · rw [findNextThread_frame]
    · simp
    · simp
    · simp
    · simp
  · exact h.switchThread

theorem Sound.threadBlock {type : ThreadState} {arg : Nat} {pc : Pc} (h : Sound s) (hbase : Base s)
    (htype : type ≠ .exited) (hexits : pc.ThreadExitOnly)
    (hqueued : (s.threads s.current).queued = true → type = .queueLock ∧ pc = .waiting)
    (hjoins : ∀ c, pc = .joining c → type = .join) : Sound (threadBlock type arg pc s) := by
  apply Sound.switchThread
  apply h.modify hbase.current_lt
  · simp [hbase.running.ready]
  · exact htype
  · exact hqueued
  · exact hexits
  · exact fun c hc => .inl (hjoins c hc)

/-- **`UpdateEvents`**: exactly the finished threads leave the list and become exited, and a thread is
made ready with the result OK only if the thread it joins has exited. -/
theorem Sound.updateEvents {d : Nat} (h : Sound s) (hlists : Lists s) : Sound (updateEvents d s) := by
  have hlist := updateEvents_activeList (d := d) hlists.nodup
  have hnext : (Scheduler.updateEvents d s).nextTid = s.nextTid := by rw [updateEvents_frame]
  have hout : ∀ t, s.nextTid ≤ t → t ∉ s.activeList := by
    intro t ht hmem
    have := (hlists.listed t hmem).2
    omega
  refine ⟨fun t hidle ht => ?_, fun t ht => ?_, fun t ht => ?_, fun t => ?_, fun t c ht => ?_,
    fun c hc => ?_⟩
  · rw [hnext] at ht
    have hactive := h.active t hidle ht
    by_cases hmem : t ∈ s.activeList
    · have hexited := (updateEvents_updated (d := d) hlists.nodup hmem).exited_iff
      simp [hlist, hexited, hmem, hactive.1 hmem]
    · rw [updateEvents_of_not_mem hmem, ← hactive, hlist, List.mem_filter]
      simp [hmem]
  · rw [hnext] at ht
    rw [updateEvents_of_not_mem (hout t ht)]
    exact h.fresh t ht
  · by_cases hmem : t ∈ s.activeList
    · have hup := updateEvents_updated (d := d) hlists.nodup hmem
      rw [hup.queued] at ht
      obtain ⟨hstate, hpc⟩ := h.queued t ht
      have hsame : (Scheduler.updateEvents d s).threads t = s.threads t := by
        cases hup with
        | exited _ hnew | queueLock _ hnew | waits _ _ _ hnew => exact hnew
        | finished hs _ | ready hs _ | awoke hs _ _ | sleeps hs _ _ | joined hs _ _ _ =>
          rw [hstate] at hs
          cases hs
        | interrupted hs _ _ =>
          rcases hs with hs | hs <;> rw [hstate] at hs <;> cases hs
      rw [hsame]
      exact ⟨hstate, hpc⟩
    · rw [updateEvents_of_not_mem hmem] at ht ⊢
      exact h.queued t ht
  · by_cases hmem : t ∈ s.activeList
    · rcases (updateEvents_updated (d := d) hlists.nodup hmem).pc with hpc | ⟨-, -, -, hpc⟩
      · rw [hpc]
        exact h.exits t
      · rw [hpc]
        rintro k hk
        exact ⟨1, (Option.some.inj hk).symm⟩
    · rw [updateEvents_of_not_mem hmem]
      exact h.exits t
  · by_cases hmem : t ∈ s.activeList
    · have hup := updateEvents_updated (d := d) hlists.nodup hmem
      have hpc : (s.threads t).pc = .joining c := by
        rcases hup.pc with hpc | ⟨-, -, -, hpc⟩
        · rw [← hpc, ht]
        · rw [hpc] at ht
          cases ht
      have hjoin := h.joins t c hpc
      cases hup with
      | ready hstate hnew =>
        obtain hj | ⟨-, hok⟩ := hjoin
        · rw [hstate] at hj
          cases hj
        · rw [hnew, deliver_frame]
          exact .inr ⟨hstate, fun hr => updateEvents_exited (hok hr)⟩
      | interrupted hstate hpending hnew =>
        rw [hnew]
        exact .inr ⟨rfl, fun hr => absurd hr (show ErrorInterrupted ≠ OK by decide)⟩
      | joined hstate hpending hexited hnew =>
        rw [hnew]
        refine .inr ⟨rfl, fun _ => ?_⟩
        obtain hplace | ⟨k, hplace⟩ := hlists.place t hstate
        · rw [hpc] at hplace
          rw [Pc.joining.inj hplace]
          exact hexited
        · rw [hpc] at hplace
          cases hplace
      | waits hstate hpending hnot hnew =>
        rw [hnew]
        exact .inl hstate
      | exited hs _ | finished hs _ | queueLock hs _ | awoke hs _ _ | sleeps hs _ _ =>
        obtain hj | ⟨hj, -⟩ := hjoin <;> rw [hs] at hj <;> cases hj
    · rw [updateEvents_of_not_mem hmem] at ht ⊢
      exact (h.joins t c ht).imp_right fun hr => ⟨hr.1, fun hok => updateEvents_exited (hr.2 hok)⟩
  · have hc' : c ∈ s.deleted := by
      rw [updateEvents_frame] at hc
      exact hc
    exact updateEvents_exited (h.deleted c hc')

theorem Sound.tick {d : Nat} {b : Bool} (h : Sound s) (hlists : Lists s) : Sound (tick d b s) := by
  unfold Scheduler.tick
  split
  · exact h
  · exact (h.updateEvents hlists).goOn (fun _ => rfl) (fun _ => rfl) (fun _ => rfl) (fun _ => rfl)

/-! ## Calls -/

theorem Sound.pushChild {child : Nat} (h : Sound s) : Sound (s.pushChild t child) :=
  h.modify_same rfl rfl rfl rfl

theorem Sound.eraseChild {child : Nat} (h : Sound s) : Sound (s.eraseChild t child) :=
  h.modify_same rfl rfl rfl rfl

theorem Sound.delete {child : Nat} (h : Sound s) (hexited : (s.threads child).state = .exited) :
    Sound (s.delete child) := by
  refine ⟨h.active, h.fresh, h.queued, h.exits, h.joins, fun c hc => ?_⟩
  rcases List.mem_append.1 hc with hc | hc
  · exact h.deleted c hc
  · obtain rfl := List.mem_singleton.1 hc
    exact hexited

theorem threadExitOnly_run : Pc.run.ThreadExitOnly := nofun

theorem Sound.addThread {i : ThreadInfo} {r₁ r₂ : RefCounts} (h : Sound s)
    (hready : i.state = .ready) (hqueued : i.queued = false) (hpc : i.pc = .run) :
    Sound (s.addThread i r₁ r₂) := by
  have hold : ∀ t, t ≠ s.nextTid → (s.addThread i r₁ r₂).threads t = s.threads t := by
    intro t ht
    simp [State.addThread, ht]
  have hself : (s.addThread i r₁ r₂).threads s.nextTid = i := by simp [State.addThread]
  have hexited : ∀ c, (s.threads c).state = .exited →
      ((s.addThread i r₁ r₂).threads c).state = .exited := by
    intro c hc
    have hne : c ≠ s.nextTid := by
      rintro rfl
      rw [(h.fresh _ (Nat.le_refl _)).1] at hc
      cases hc
    rw [hold c hne]
    exact hc
  refine ⟨fun t hidle ht => ?_, fun t ht => ?_, fun t ht => ?_, fun t => ?_, fun t c ht => ?_,
    fun c hc => hexited c (h.deleted c hc)⟩
  · have ht' : t < s.nextTid + 1 := ht
    show t ∈ s.activeList ++ [s.nextTid] ↔ _
    by_cases hnew : t = s.nextTid
    · subst hnew
      simp [hself, hready]
    · rw [hold t hnew, ← h.active t hidle (by omega)]
      simp [hnew]
  · have ht' : s.nextTid + 1 ≤ t := ht
    rw [hold t (by omega)]
    exact h.fresh t (by omega)
  · by_cases hnew : t = s.nextTid
    · rw [hnew, hself, hqueued] at ht
      cases ht
    · rw [hold t hnew] at ht ⊢
      exact h.queued t ht
  · by_cases hnew : t = s.nextTid
    · rw [hnew, hself, hpc]
      exact threadExitOnly_run
    · rw [hold t hnew]
      exact h.exits t
  · by_cases hnew : t = s.nextTid
    · rw [hnew, hself, hpc] at ht
      cases ht
    · rw [hold t hnew] at ht ⊢
      exact (h.joins t c ht).imp_right fun hr => ⟨hr.1, fun hok => hexited c (hr.2 hok)⟩

theorem Sound.requestExit {tid : Nat} (h : Sound s)
    (hf : ∀ i, (f i).state = i.state ∧ (f i).rax = i.rax ∧ (f i).pc = i.pc ∧
      (f i).queued = i.queued) : Sound (requestExit tid f s).2 := by
  unfold Scheduler.requestExit
  dsimp only
  split
  · split
    · exact h
    · exact h.modify_same (hf _).1 (hf _).2.1 (hf _).2.2.1 (hf _).2.2.2
  · exact h

theorem threadExitOnly_thread {code : UInt64} {pc : Pc} (h : pc.exit? = some (.thread code)) :
    pc.ThreadExitOnly := by
  intro k hk
  rw [h] at hk
  exact ⟨code, (Option.some.inj hk).symm⟩

theorem Sound.enterExit {code : UInt64} (h : Sound s) (hbase : Base s) :
    Sound (enterExit (.thread code) s) :=
  h.modify_current hbase rfl rfl (threadExitOnly_thread rfl) nofun

theorem Sound.threadCheckFlags (h : Sound s) (hbase : Base s) : Sound (threadCheckFlags s) := by
  have hflag : Sound (s.modify s.current fun i => { i with killPending := false }) :=
    h.modify_same rfl rfl rfl rfl
  have hbase' : Base (s.modify s.current fun i => { i with killPending := false }) :=
    hbase.modify_current rfl rfl
  unfold Scheduler.threadCheckFlags
  dsimp only
  split
  · split
    · split
      · exact hflag.enterExit hbase'
      · exact hflag
    · exact hflag.enterExit hbase'
  · split
    · exact h.enterExit hbase
    · exact h

theorem Sound.threadExec (h : Sound s) : Sound (threadExec s) := by
  have hown : Sound (s.modify s.current fun i => { i with stickyCount := 0, userMode := true }) :=
    h.modify_same rfl rfl rfl rfl
  unfold Scheduler.threadExec
  dsimp only
  split
  · exact hown.congr rfl (List.Perm.refl _) rfl (fun _ => rfl) (fun _ => rfl) (fun _ => rfl)
      fun _ => rfl
  · have hspace := hown.modify_same (t := s.current)
      (f := fun i => { i with memSpace := s.memSpaces.next }) rfl rfl rfl rfl
    exact hspace.congr rfl (List.Perm.refl _) rfl (fun _ => rfl) (fun _ => rfl) (fun _ => rfl)
      fun _ => rfl

theorem Sound.killLoop {code : UInt64} (h : Sound s) (hbase : Base s) :
    Sound (killLoop (.thread code) s) := by
  unfold Scheduler.killLoop
  dsimp only
  split
  · exact h.modify_current hbase rfl rfl (threadExitOnly_thread rfl) nofun
  · rename_i child _
    have hpop := h.modify_same (t := s.target s.current (.thread code))
      (f := fun i => { i with childThreads := i.childThreads.dropLast }) rfl rfl rfl rfl
    have habort := hpop.modify_same (t := child) (f := fun i => { i with abortPending := true })
      rfl rfl rfl rfl
    have hbpop := hbase.modify_same (t := s.target s.current (.thread code))
      (f := fun i => { i with childThreads := i.childThreads.dropLast }) rfl rfl rfl rfl
    have hbabort := hbpop.modify_same (t := child) (f := fun i => { i with abortPending := true })
      rfl rfl rfl rfl
    exact habort.modify_current hbabort rfl rfl (threadExitOnly_thread rfl) nofun

/-- The running thread finishes itself. -/
theorem Sound.finishExit {code : UInt64} (h : Sound s) (hbase : Base s) :
    Sound (finishExit s.current code s) := by
  unfold Scheduler.finishExit
  dsimp only
  apply Sound.threadYield
  have hown : Sound (s.modify s.current fun i =>
      { i with stickyCount := i.stickyCount + 1, pc := .run }) :=
    h.modify_current hbase rfl rfl threadExitOnly_run nofun
  have hbown : Base (s.modify s.current fun i =>
      { i with stickyCount := i.stickyCount + 1, pc := .run }) := hbase.modify_current rfl rfl
  have hrefs : Sound { s.modify s.current fun i =>
      { i with stickyCount := i.stickyCount + 1, pc := .run } with
      fdTables := s.fdTables.release (s.threads s.current).fds
      memSpaces := s.memSpaces.release (s.threads s.current).memSpace } :=
    hown.congr rfl (List.Perm.refl _) rfl (fun _ => rfl) (fun _ => rfl) (fun _ => rfl) fun _ => rfl
  apply hrefs.modify (t := s.current) hbase.current_lt
  · simp [hbase.running.ready]
  · simp
  · intro hq
    have := h.not_queued hbase
    simp [this] at hq
  · simpa using threadExitOnly_run
  · simp

/-! ## Every step -/

/-- No thread calls `ProcessDoExit`. -/
def NoProcessExit (_ : State) (e : Event) : Prop := ∀ code, e ≠ .processDoExit code

theorem Sound.act (h : Sound s) (hbase : Base s) (hact : act s = some s') : Sound s' := by
  have hexits := h.exits s.current
  unfold Scheduler.act at hact
  dsimp only at hact
  cases hpc : (s.threads s.current).pc with
  | run => simp [hpc] at hact
  | sleeping | waiting =>
    obtain rfl : _ = s' := by simpa [hpc] using hact
    exact h.modify_current hbase rfl rfl threadExitOnly_run nofun
  | popped child =>
    obtain rfl : _ = s' := by simpa [hpc] using hact
    apply h.threadBlock hbase
    · simp
    · exact nofun
    · simp [h.not_queued hbase]
    · exact fun _ _ => rfl
  | joining child =>
    simp only [hpc] at hact
    split at hact
    · rename_i hok
      obtain rfl := Option.some.inj hact
      have hexited : (s.threads child).state = .exited := by
        obtain hj | ⟨-, hr⟩ := h.joins s.current child hpc
        · rw [hbase.running.ready] at hj
          cases hj
        · exact hr hok
      have hdelete := h.delete hexited
      have hbdelete : Base (s.delete child) := hbase.congr rfl rfl rfl rfl
      exact hdelete.modify_current hbdelete rfl rfl
        threadExitOnly_run nofun
    · obtain rfl := Option.some.inj hact
      have hpush : Sound (s.pushChild (s.threads s.current).mainThread child) := h.pushChild
      exact hpush.modify_current hbase.pushChild rfl rfl threadExitOnly_run nofun
  | killLoop k =>
    obtain rfl : _ = s' := by simpa [hpc] using hact
    obtain ⟨code, rfl⟩ := hexits k (by rw [hpc]; rfl)
    exact h.killLoop hbase
  | killing child k =>
    obtain rfl : _ = s' := by simpa [hpc] using hact
    obtain ⟨code, rfl⟩ := hexits k (by rw [hpc]; rfl)
    apply h.threadBlock hbase
    · simp
    · exact threadExitOnly_thread rfl
    · simp [h.not_queued hbase]
    · exact nofun
  | killJoin child k =>
    obtain ⟨code, rfl⟩ := hexits k (by rw [hpc]; rfl)
    obtain rfl : _ = s' := by simpa only [hpc, Option.some.injEq] using hact
    split
    · have hjoined : Sound { s with joined := s.joined ++ [child] } :=
        h.congr rfl (List.Perm.refl _) rfl (fun _ => rfl) (fun _ => rfl) (fun _ => rfl) fun _ => rfl
      exact hjoined.modify_current (hbase.congr rfl rfl rfl rfl) rfl rfl (threadExitOnly_thread rfl)
        nofun
    · have hpush : Sound (s.pushChild (s.target s.current (.thread code)) child) := h.pushChild
      exact hpush.modify_current hbase.pushChild rfl rfl (threadExitOnly_thread rfl) nofun
  | finish k =>
    obtain ⟨code, rfl⟩ := hexits k (by rw [hpc]; rfl)
    obtain rfl : _ = s' := by simpa [hpc] using hact
    exact h.finishExit hbase

theorem Sound.call {e : Event} (h : Sound s) (hbase : Base s)
    (hok : NoProcessExit s e) (hcall : call s e = some s') : Sound s' := by
  cases e with
  | tick d b => cases hcall
  | act => cases hcall
  | createKernelThread =>
    obtain rfl := Option.some.inj hcall
    rw [createKernelThread_eq]
    exact (h.addThread rfl rfl rfl).pushChild
  | cloneThread sub mem fd =>
    obtain rfl := Option.some.inj hcall
    rw [cloneThread_eq]
    exact (h.addThread rfl rfl rfl).pushChild
  | threadYield =>
    obtain rfl := Option.some.inj hcall
    exact h.threadYield
  | threadSleep ticks =>
    obtain rfl := Option.some.inj hcall
    apply h.threadBlock hbase
    · simp
    · simp [Pc.ThreadExitOnly, Pc.exit?]
    · simp [h.not_queued hbase]
    · simp
  | lockWait =>
    obtain rfl := Option.some.inj hcall
    apply Sound.switchThread
    rw [State.modify_current, modify_modify]
    apply h.modify hbase.current_lt
    · simp [hbase.running.ready]
    · simp
    · exact fun _ => ⟨rfl, rfl⟩
    · simp [Pc.ThreadExitOnly, Pc.exit?]
    · simp
  | unlockWake w =>
    simp only [Scheduler.call] at hcall
    split at hcall
    · rename_i hqueued
      obtain rfl := Option.some.inj hcall
      obtain ⟨hstate, hpc⟩ := h.queued w hqueued
      have hlt : w < s.nextTid := by
        by_contra hge
        rw [(h.fresh w (Nat.le_of_not_lt hge)).2.1] at hqueued
        cases hqueued
      apply h.modify hlt
      · simp [hstate]
      · simp
      · simp
      · exact h.exits w
      · intro c hc
        rw [show (s.threads w).pc = .joining c from hc] at hpc
        cases hpc
    · cases hcall
  | threadDetach tid =>
    obtain rfl := Option.some.inj hcall
    unfold threadDetach
    dsimp only
    split
    · split
      · exact h
      · exact h.eraseChild.pushChild
    · exact h
  | threadJoin tid =>
    obtain rfl := Option.some.inj hcall
    unfold threadJoin
    dsimp only
    split
    · have herase : Sound (s.eraseChild (s.threads s.current).mainThread tid) := h.eraseChild
      exact herase.modify_current (f := fun i => { i with pc := .popped tid }) hbase.eraseChild rfl rfl
        (by simp [Pc.ThreadExitOnly, Pc.exit?]) (by simp)
    · exact h
  | threadTryJoin tid =>
    obtain rfl := Option.some.inj hcall
    unfold threadTryJoin
    dsimp only
    split
    · split
      · rename_i hexited
        apply h.eraseChild.delete
        rw [State.eraseChild, modify_keeps ThreadInfo.state rfl]
        exact hexited
      · exact h
    · exact h
  | threadKill tid =>
    obtain rfl := Option.some.inj hcall
    exact h.requestExit fun _ => ⟨rfl, rfl, rfl, rfl⟩
  | threadAbort tid =>
    obtain rfl := Option.some.inj hcall
    exact h.requestExit fun _ => ⟨rfl, rfl, rfl, rfl⟩
  | handleKill rip =>
    obtain rfl := Option.some.inj hcall
    exact h.modify_same rfl rfl rfl rfl
  | setUser uid =>
    obtain rfl := Option.some.inj hcall
    exact h.modify_same rfl rfl rfl rfl
  | threadExec =>
    obtain rfl := Option.some.inj hcall
    exact h.threadExec
  | threadCheckFlags =>
    obtain rfl := Option.some.inj hcall
    exact h.threadCheckFlags hbase
  | threadExit code =>
    obtain rfl := Option.some.inj hcall
    exact h.enterExit hbase
  | processDoExit code => exact absurd rfl (hok code)

/-- **Every step** but `ProcessDoExit` keeps the scheduler sound. -/
theorem Sound.step {e : Event} (h : Sound s) (hbase : Base s) (hok : NoProcessExit s e)
    (hstep : step s e = some s') : Sound s' := by
  obtain ⟨d, b, -, -, rfl⟩ | ⟨-, -, hact⟩ | ⟨-, -, hcall⟩ := step_cases hstep
  · exact h.tick hbase.lists
  · exact h.act hbase hact
  · exact h.call hbase hok hcall

end ChenixOS.Scheduler
