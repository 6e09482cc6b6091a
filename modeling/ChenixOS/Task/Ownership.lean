import ChenixOS.Lib.Custody
import ChenixOS.Task.Children
import ChenixOS.Task.Resources
import ChenixOS.Task.Soundness

/-!
# Who owns a thread

Every thread of the global list but the init thread is in the list of children of one live thread, or
one thread that joins it has taken it out of such a list. `ThreadJoin` and `ThreadTryJoin` take a thread
they have joined out of the global list and delete it; `KillChildThreads` does not, and a thread that
exits leaves the children behind that it did not join.

**The condition.** No `KillChildThreads` completes a join, a thread finishes with an empty list of
children, and children are only put into the lists of live threads.
-/

namespace ChenixOS.Scheduler

open Transitions

variable {s s' : State} {t u : Nat} {f : ThreadInfo → ThreadInfo}

/-- The child a thread is joining. -/
def Pc.child : Pc → Option Nat
  | .popped child | .joining child | .killing child _ | .killJoin child _ => some child
  | _ => none

/-- The threads' lists of children, and the children they are joining. -/
def State.custody (s : State) : Custody Nat Nat :=
  ⟨fun u => (s.threads u).childThreads, fun u => (s.threads u).pc.child⟩

/-- The threads of the global list but the init thread. -/
def State.items (s : State) : List Nat := s.globalList.filter (· ≠ initThread)

def State.live (s : State) (u : Nat) : Prop := (s.threads u).alive = true

/-- **The condition.** -/
structure OwnerOk (s : State) (e : Event) : Prop where
  noProcessExit : ∀ code, e ≠ .processDoExit code
  killed : ∀ c k, e = .act → (s.threads s.current).pc = .killJoin c k → (s.threads s.current).rax ≠ OK
  finish : ∀ k, e = .act → (s.threads s.current).pc = .finish k →
    (s.threads s.current).childThreads = []
  init : e = .createKernelThread ∨ (∃ tid, e = .threadDetach tid) → s.live initThread
  clone : ∀ sub mem fd, e = .cloneThread sub mem fd → s.live (s.threads s.current).mainThread
  putBack : ∀ c, e = .act → (s.threads s.current).pc = .joining c → (s.threads s.current).rax ≠ OK →
    s.live (s.threads s.current).mainThread

/-! ## The saved mode -/

/-- A thread that was interrupted in user mode is in its program. -/
def UserRun (s : State) : Prop :=
  ∀ t, t ≠ s.current → (s.threads t).userMode = true → (s.threads t).pc = .run

theorem deliver_user (c : Bool) (i : ThreadInfo) (h : (i.deliver c).userMode = true) :
    i.userMode = true ∧ (i.deliver c).pc = i.pc := by
  cases hu : i.userMode <;> cases c <;> cases hk : i.killPending <;> cases ha : i.abortPending <;>
    cases hr : i.killHandlerRip != 0 <;> simp_all [ThreadInfo.deliver]

theorem Updated.user {d : Nat} (h : Updated d s s' t) (huser : (s'.threads t).userMode = true) :
    (s.threads t).userMode = true ∧ (s'.threads t).pc = (s.threads t).pc := by
  cases h with
  | ready _ hnew =>
    rw [hnew] at huser ⊢
    exact deliver_user _ _ huser
  | exited _ hnew | finished _ hnew | queueLock _ hnew | interrupted _ _ hnew | awoke _ _ hnew
  | sleeps _ _ hnew | joined _ _ _ hnew | waits _ _ _ hnew =>
    rw [hnew] at huser ⊢
    exact ⟨huser, rfl⟩

theorem UserRun.updateEvents {d : Nat} (h : UserRun s) (hlists : Lists s) :
    UserRun (updateEvents d s) := by
  have hcurrent : (Scheduler.updateEvents d s).current = s.current := by rw [updateEvents_frame]
  intro t ht huser
  rw [hcurrent] at ht
  by_cases hmem : t ∈ s.activeList
  · obtain ⟨hold, hpc⟩ := (updateEvents_updated (d := d) hlists.nodup hmem).user huser
    rw [hpc]
    exact h t ht hold
  · rw [updateEvents_of_not_mem hmem] at huser ⊢
    exact h t ht huser

/-- A change of the running thread's record. -/
theorem UserRun.modify_current (h : UserRun s) : UserRun (s.modify s.current f) := by
  intro t ht huser
  have hne : t ≠ s.current := ht
  rw [modify_of_ne hne] at huser ⊢
  exact h t hne huser

/-- A change of one record that keeps mode and place. -/
theorem UserRun.modify_same (h : UserRun s)
    (hmode : (f (s.threads t)).userMode = (s.threads t).userMode)
    (hpc : (f (s.threads t)).pc = (s.threads t).pc) : UserRun (s.modify t f) := by
  intro u hu huser
  rw [modify_keeps ThreadInfo.userMode hmode] at huser
  rw [modify_keeps ThreadInfo.pc hpc]
  exact h u hu huser

theorem UserRun.congr (h : UserRun s) (hthreads : s'.threads = s.threads)
    (hcurrent : s'.current = s.current) : UserRun s' := by
  intro t
  rw [hthreads, hcurrent]
  exact h t

/-- Save the mode of the running thread and go on with another. -/
theorem UserRun.goOn {b : Bool} (h : UserRun s) (hmode : b = true → (s.threads s.current).pc = .run) :
    UserRun { (findNextThread s).2.modify s.current fun i => { i with userMode := b } with
      current := (findNextThread s).1 } := by
  intro t _ huser
  show ((((findNextThread s).2.modify s.current fun i => { i with userMode := b })).threads t).pc = .run
  have huser' : (((findNextThread s).2.modify s.current fun i =>
      { i with userMode := b }).threads t).userMode = true := huser
  by_cases ht : t = s.current
  · subst ht
    rw [modify_self] at huser' ⊢
    show ((findNextThread s).2.threads s.current).pc = .run
    rw [findNextThread_threads]
    exact hmode huser'
  · rw [modify_of_ne ht, findNextThread_threads] at huser' ⊢
    exact h t ht huser'

theorem UserRun.switchThread (h : UserRun s) : UserRun (switchThread s) := h.goOn nofun

theorem UserRun.threadYield (h : UserRun s) : UserRun (threadYield s) := by
  unfold Scheduler.threadYield
  split
  · exact h.congr findNextThread_threads findNextThread_current
  · exact h.switchThread

theorem UserRun.tick {d : Nat} {b : Bool} (h : UserRun s) (hlists : Lists s)
    (hmode : b = true → (s.threads s.current).pc = .run) : UserRun (tick d b s) := by
  unfold Scheduler.tick
  split
  · exact h
  · have hcurrent : (Scheduler.updateEvents d s).current = s.current := by rw [updateEvents_frame]
    have hgo := (h.updateEvents (d := d) hlists).goOn (b := b) (by
      rw [hcurrent]
      intro hb
      rcases updateEvents_pc (d := d) hlists s.current with hpc | ⟨-, -, -, hne, -⟩
      · rw [hpc]
        exact hmode hb
      · exact absurd rfl hne)
    rw [hcurrent] at hgo
    exact hgo

theorem UserRun.addThread {i : ThreadInfo} {r₁ r₂ : RefCounts} (h : UserRun s) (hpc : i.pc = .run) :
    UserRun (s.addThread i r₁ r₂) := by
  intro t ht huser
  show (Function.update s.threads s.nextTid i t).pc = .run
  have huser' : (Function.update s.threads s.nextTid i t).userMode = true := huser
  by_cases hnew : t = s.nextTid
  · rw [hnew, Function.update_self]
    exact hpc
  · rw [Function.update_of_ne hnew] at huser' ⊢
    exact h t ht huser'

theorem UserRun.pushChild {child : Nat} (h : UserRun s) : UserRun (s.pushChild t child) :=
  h.modify_same rfl rfl

theorem UserRun.eraseChild {child : Nat} (h : UserRun s) : UserRun (s.eraseChild t child) :=
  h.modify_same rfl rfl

theorem UserRun.requestExit {tid : Nat} (h : UserRun s)
    (hf : ∀ i, (f i).userMode = i.userMode ∧ (f i).pc = i.pc) : UserRun (requestExit tid f s).2 := by
  unfold Scheduler.requestExit
  dsimp only
  split
  · split
    · exact h
    · exact h.modify_same (hf _).1 (hf _).2
  · exact h

theorem UserRun.enterExit {k : Exit} (h : UserRun s) : UserRun (enterExit k s) := h.modify_current

theorem UserRun.threadExec (h : UserRun s) : UserRun (threadExec s) := by
  have hown : UserRun (s.modify s.current fun i => { i with stickyCount := 0, userMode := true }) :=
    h.modify_current
  unfold Scheduler.threadExec
  dsimp only
  split
  · exact hown.congr rfl rfl
  · have hspace := hown.modify_same (t := s.current)
      (f := fun i => { i with memSpace := s.memSpaces.next }) rfl rfl
    exact hspace.congr rfl rfl

theorem UserRun.threadCheckFlags (h : UserRun s) : UserRun (threadCheckFlags s) := by
  have hflag : UserRun (s.modify s.current fun i => { i with killPending := false }) :=
    h.modify_current
  unfold Scheduler.threadCheckFlags
  dsimp only
  split
  · split
    · split
      · exact hflag.enterExit
      · exact hflag
    · exact hflag.enterExit
  · split
    · exact h.enterExit
    · exact h

theorem UserRun.threadBlock {type : ThreadState} {arg : Nat} {pc : Pc} (h : UserRun s) :
    UserRun (threadBlock type arg pc s) := by
  apply UserRun.switchThread
  exact h.modify_current

theorem UserRun.killLoop {k : Exit} (h : UserRun s) : UserRun (killLoop k s) := by
  unfold Scheduler.killLoop
  dsimp only
  split
  · exact h.modify_current
  · rename_i child _
    have hpop := h.modify_same (t := s.target s.current k)
      (f := fun i => { i with childThreads := i.childThreads.dropLast }) rfl rfl
    have habort := hpop.modify_same (t := child) (f := fun i => { i with abortPending := true }) rfl rfl
    exact habort.modify_current

theorem UserRun.finishExit {target : Nat} {code : UInt64} (h : UserRun s) :
    UserRun (finishExit target code s) := by
  have hown : UserRun (s.modify s.current fun i =>
      { i with stickyCount := i.stickyCount + 1, pc := .run }) := h.modify_current
  unfold Scheduler.finishExit
  dsimp only
  apply UserRun.threadYield
  have hrefs : UserRun { s.modify s.current fun i =>
      { i with stickyCount := i.stickyCount + 1, pc := .run } with
      fdTables := s.fdTables.release (s.threads target).fds
      memSpaces := s.memSpaces.release (s.threads target).memSpace } := hown.congr rfl rfl
  exact hrefs.modify_same rfl rfl

theorem UserRun.act (h : UserRun s) (hact : act s = some s') : UserRun s' := by
  unfold Scheduler.act at hact
  dsimp only at hact
  cases hpc : (s.threads s.current).pc with
  | run => simp [hpc] at hact
  | sleeping | waiting =>
    obtain rfl : _ = s' := by simpa [hpc] using hact
    exact h.modify_current
  | popped child =>
    obtain rfl : _ = s' := by simpa [hpc] using hact
    exact h.threadBlock
  | joining child =>
    simp only [hpc] at hact
    split at hact
    · obtain rfl := Option.some.inj hact
      have hdelete : UserRun (s.delete child) := h.congr rfl rfl
      exact hdelete.modify_current
    · obtain rfl := Option.some.inj hact
      exact h.pushChild.modify_current
  | killLoop k =>
    obtain rfl : _ = s' := by simpa [hpc] using hact
    exact h.killLoop
  | killing child k =>
    obtain rfl : _ = s' := by simpa [hpc] using hact
    exact h.threadBlock
  | killJoin child k =>
    obtain rfl : _ = s' := by simpa only [hpc, Option.some.injEq] using hact
    split
    · have hjoined : UserRun { s with joined := s.joined ++ [child] } := h.congr rfl rfl
      exact hjoined.modify_current
    · exact h.pushChild.modify_current
  | finish k =>
    cases k with
    | thread code =>
      obtain rfl : _ = s' := by simpa [hpc] using hact
      exact h.finishExit
    | caller code => simp [hpc] at hact
    | main code =>
      obtain rfl : _ = s' := by simpa [hpc] using hact
      exact h.finishExit

theorem UserRun.call {e : Event} (h : UserRun s) (hcall : call s e = some s') : UserRun s' := by
  cases e with
  | tick d b => cases hcall
  | act => cases hcall
  | createKernelThread =>
    obtain rfl := Option.some.inj hcall
    rw [createKernelThread_eq]
    exact (h.addThread rfl).pushChild
  | cloneThread sub mem fd =>
    obtain rfl := Option.some.inj hcall
    rw [cloneThread_eq]
    exact (h.addThread rfl).pushChild
  | threadYield =>
    obtain rfl := Option.some.inj hcall
    exact h.threadYield
  | threadSleep ticks =>
    obtain rfl := Option.some.inj hcall
    exact h.threadBlock
  | lockWait =>
    obtain rfl := Option.some.inj hcall
    exact h.modify_current.threadBlock
  | unlockWake w =>
    simp only [Scheduler.call] at hcall
    split at hcall
    · obtain rfl := Option.some.inj hcall
      exact h.modify_same rfl rfl
    · cases hcall
  | threadDetach tid =>
    obtain rfl := Option.some.inj hcall
    unfold threadDetach
    dsimp only
    split
    · split
      · exact h
      · exact h.eraseChild.pushChild
    · exact h
  | threadJoin tid =>
    obtain rfl := Option.some.inj hcall
    unfold threadJoin
    dsimp only
    split
    · have herase : UserRun (s.eraseChild (s.threads s.current).mainThread tid) := h.eraseChild
      exact herase.modify_current (f := fun i => { i with pc := .popped tid })
    · exact h
  | threadTryJoin tid =>
    obtain rfl := Option.some.inj hcall
    unfold threadTryJoin
    dsimp only
    split
    · split
      · have herase : UserRun (s.eraseChild (s.threads s.current).mainThread tid) := h.eraseChild
        exact herase.congr rfl rfl
      · exact h
    · exact h
  | threadKill tid | threadAbort tid =>
    obtain rfl := Option.some.inj hcall
    exact h.requestExit fun _ => ⟨rfl, rfl⟩
  | handleKill rip | setUser uid =>
    obtain rfl := Option.some.inj hcall
    exact h.modify_current
  | threadExec =>
    obtain rfl := Option.some.inj hcall
    exact h.threadExec
  | threadCheckFlags =>
    obtain rfl := Option.some.inj hcall
    exact h.threadCheckFlags
  | threadExit code | processDoExit code =>
    obtain rfl := Option.some.inj hcall
    exact h.enterExit

theorem UserRun.step {e : Event} (h : UserRun s) (hlists : Lists s) (hstep : step s e = some s') :
    UserRun s' := by
  obtain ⟨d, b, -, hmode, rfl⟩ | ⟨-, -, hact⟩ | ⟨-, -, hcall⟩ := step_cases hstep
  · exact h.tick hlists hmode
  · exact h.act hact
  · exact h.call hcall

/-! ## Owners -/

/-- Every thread but the init thread has one place with a live owner, and a thread is deleted once, when
it is joined. -/
structure Owned (s : State) : Prop where
  custody : s.custody.Inv s.items s.live
  global : s.globalList.Nodup
  bound : ∀ t ∈ s.globalList, t < s.nextTid
  joined : s.joined = s.deleted
  deleted : s.deleted.Nodup
  gone : ∀ t ∈ s.deleted, t ∉ s.globalList ∧ t < s.nextTid

theorem owned_initial : Owned initial where
  custody := ⟨fun _ => List.nodup_nil, nofun, nofun, nofun, nofun⟩
  global := List.nodup_singleton _
  bound := by
    intro t ht
    rw [List.mem_singleton.1 ht]
    decide
  joined := rfl
  deleted := List.nodup_nil
  gone := nofun

theorem mem_items : t ∈ s.items ↔ t ∈ s.globalList ∧ t ≠ initThread := by
  simp [State.items]

/-- Nothing is created or deleted, and what is moved is moved to live threads. -/
theorem Owned.of_custody (h : Owned s) (hcustody : s'.custody.Inv s.items s'.live)
    (hglobal : s'.globalList = s.globalList) (hnext : s'.nextTid = s.nextTid)
    (hjoined : s'.joined = s.joined) (hdeleted : s'.deleted = s.deleted) : Owned s' where
  custody := by
    rw [State.items, hglobal]
    exact hcustody
  global := by
    rw [hglobal]
    exact h.global
  bound := by
    rw [hglobal, hnext]
    exact h.bound
  joined := by
    rw [hjoined, hdeleted]
    exact h.joined
  deleted := by
    rw [hdeleted]
    exact h.deleted
  gone := by
    rw [hdeleted, hglobal, hnext]
    exact h.gone

theorem custody_congr (hchildren : ∀ t, (s'.threads t).childThreads = (s.threads t).childThreads)
    (hchild : ∀ t, (s'.threads t).pc.child = (s.threads t).pc.child) : s'.custody = s.custody := by
  unfold State.custody
  simp only [hchildren, hchild]

theorem live_congr (halive : ∀ t, (s'.threads t).alive = (s.threads t).alive) : s'.live = s.live := by
  funext t
  rw [State.live, halive]
  rfl

/-- Nothing is moved. -/
theorem Owned.congr (h : Owned s) (hglobal : s'.globalList = s.globalList)
    (hnext : s'.nextTid = s.nextTid) (hjoined : s'.joined = s.joined)
    (hdeleted : s'.deleted = s.deleted)
    (hchildren : ∀ t, (s'.threads t).childThreads = (s.threads t).childThreads)
    (hchild : ∀ t, (s'.threads t).pc.child = (s.threads t).pc.child)
    (halive : ∀ t, (s'.threads t).alive = (s.threads t).alive) : Owned s' := by
  refine h.of_custody ?_ hglobal hnext hjoined hdeleted
  rw [custody_congr hchildren hchild, live_congr halive]
  exact h.custody

theorem Owned.modify_same (h : Owned s)
    (hchildren : (f (s.threads t)).childThreads = (s.threads t).childThreads)
    (hchild : (f (s.threads t)).pc.child = (s.threads t).pc.child)
    (halive : (f (s.threads t)).alive = (s.threads t).alive) : Owned (s.modify t f) :=
  h.congr rfl rfl rfl rfl (modify_keeps ThreadInfo.childThreads hchildren)
    (modify_keeps (fun i => i.pc.child) hchild) (modify_keeps ThreadInfo.alive halive)

/-! ## Moves -/

theorem custody_pushChild (s : State) (t c : Nat) : (s.pushChild t c).custody = s.custody.push t c := by
  simp only [State.custody, State.pushChild, Custody.push]
  congr 1
  · funext u
    by_cases hu : u = t
    · simp [hu]
    · simp [hu]
  · funext u
    exact modify_keeps (fun i => i.pc.child) rfl u

theorem custody_eraseChild (s : State) (t c : Nat) :
    (s.eraseChild t c).custody = s.custody.erase t c := by
  simp only [State.custody, State.eraseChild, Custody.erase]
  congr 1
  · funext u
    by_cases hu : u = t
    · simp [hu]
    · simp [hu]
  · funext u
    exact modify_keeps (fun i => i.pc.child) rfl u

theorem custody_setPc (hchildren : (f (s.threads t)).childThreads = (s.threads t).childThreads) :
    (s.modify t f).custody = s.custody.setHand t (f (s.threads t)).pc.child := by
  simp only [State.custody, Custody.setHand]
  congr 1
  · funext u
    exact modify_keeps ThreadInfo.childThreads hchildren u
  · funext u
    by_cases hu : u = t
    · simp [hu]
    · simp [hu]

theorem live_modify (hstate : (f (s.threads t)).state = (s.threads t).state) :
    (s.modify t f).live = s.live :=
  live_congr (modify_keeps ThreadInfo.alive (alive_of_state hstate))

theorem live_pushChild (s : State) (t c : Nat) : (s.pushChild t c).live = s.live := live_modify rfl

theorem live_eraseChild (s : State) (t c : Nat) : (s.eraseChild t c).live = s.live := live_modify rfl

/-- A joined thread is taken out of the global list. -/
theorem Owned.delete {c : Nat} (h : Owned s) (hc : c ∈ s.items)
    (hcustody : s'.custody.Inv s'.items s'.live) (hglobal : s'.globalList = s.globalList.erase c)
    (hnext : s'.nextTid = s.nextTid) (hjoined : s'.joined = s.joined ++ [c])
    (hdeleted : s'.deleted = s.deleted ++ [c]) : Owned s' where
  custody := hcustody
  global := by
    rw [hglobal]
    exact h.global.erase c
  bound := by
    rw [hglobal, hnext]
    exact fun t ht => h.bound t (List.mem_of_mem_erase ht)
  joined := by
    rw [hjoined, hdeleted, h.joined]
  deleted := by
    rw [hdeleted]
    apply List.nodup_append.2 ⟨h.deleted, by simp, ?_⟩
    intro t ht u hu htu
    obtain rfl := List.mem_singleton.1 hu
    exact (h.gone t ht).1 (htu ▸ (mem_items.1 hc).1)
  gone := by
    intro t ht
    rw [hglobal, hnext, h.global.mem_erase_iff]
    rw [hdeleted] at ht
    rcases List.mem_append.1 ht with ht | ht
    · exact ⟨fun hmem => (h.gone t ht).1 hmem.2, (h.gone t ht).2⟩
    · obtain rfl := List.mem_singleton.1 ht
      exact ⟨fun hmem => hmem.1 rfl, h.bound t (mem_items.1 hc).1⟩

theorem mem_items_erase {c : Nat} (h : Owned s) (hglobal : s'.globalList = s.globalList.erase c)
    (j : Nat) : j ∈ s'.items ↔ j ∈ s.items ∧ j ≠ c := by
  rw [mem_items, mem_items, hglobal, h.global.mem_erase_iff]
  tauto

/-- A new thread is put to the end of the list of a live thread. -/
theorem Owned.addThread {i : ThreadInfo} {r₁ r₂ : RefCounts} (h : Owned s) (hfamily : Family s)
    (htids : 2 ≤ s.nextTid) (hpc : i.pc = .run) (hchildren : i.childThreads = [])
    (ht : t < s.nextTid) (hlive : s.live t) :
    Owned ((s.addThread i r₁ r₂).pushChild t s.nextTid) := by
  have hself : (s.addThread i r₁ r₂).threads s.nextTid = i := by simp [State.addThread]
  have hold : ∀ u, u ≠ s.nextTid → (s.addThread i r₁ r₂).threads u = s.threads u := by
    intro u hu
    simp [State.addThread, hu]
  obtain ⟨hfreshPc, hfreshChildren⟩ := hfamily.fresh s.nextTid (Nat.le_refl _)
  -- the new thread has nothing, as its record had before
  have hcustody : (s.addThread i r₁ r₂).custody = s.custody := by
    apply custody_congr
    · intro u
      by_cases hu : u = s.nextTid
      · rw [hu, hself, hchildren, hfreshChildren]
      · rw [hold u hu]
    · intro u
      by_cases hu : u = s.nextTid
      · rw [hu, hself, hpc, hfreshPc]
      · rw [hold u hu]
  have howner : ∀ j p, s.custody.At j p → p.owner ≠ s.nextTid := by
    rintro j (u | u) hat rfl
    · have hmem : j ∈ (s.threads s.nextTid).childThreads := hat
      rw [hfreshChildren] at hmem
      cases hmem
    · have hhand : (s.threads s.nextTid).pc.child = some j := hat
      rw [hfreshPc] at hhand
      cases hhand
  have hlive' : ∀ u, u ≠ s.nextTid → s.live u → (s.addThread i r₁ r₂).live u := by
    intro u hu halive
    rw [State.live, hold u hu]
    exact halive
  have hnew : s.nextTid ∉ s.items := fun hmem =>
    Nat.lt_irrefl _ (h.bound _ (mem_items.1 hmem).1)
  have hitems : ((s.addThread i r₁ r₂).pushChild t s.nextTid).items = s.items ++ [s.nextTid] := by
    have hne : s.nextTid ≠ initThread := by
      show s.nextTid ≠ 1
      omega
    show (s.globalList ++ [s.nextTid]).filter (· ≠ initThread) = _
    simp [State.items, hne]
  refine ⟨?_, ?_, fun u hu => ?_, h.joined, h.deleted, fun u hu => ?_⟩
  · rw [custody_pushChild, live_pushChild, hitems, hcustody]
    apply Custody.Inv.push_new
    · exact h.custody.live_congr fun j p hat => hlive' _ (howner j p hat) (h.custody.live j p hat)
    · exact hnew
    · exact hlive' t (Nat.ne_of_lt ht) hlive
  · show (s.globalList ++ [s.nextTid]).Nodup
    apply List.nodup_append.2 ⟨h.global, by simp, ?_⟩
    intro u hu v hv huv
    obtain rfl := List.mem_singleton.1 hv
    exact absurd (h.bound u hu) (by omega)
  · have hu' : u ∈ s.globalList ++ [s.nextTid] := hu
    show u < s.nextTid + 1
    rcases List.mem_append.1 hu' with hu | hu
    · exact Nat.lt_succ_of_lt (h.bound u hu)
    · rw [List.mem_singleton.1 hu]
      exact Nat.lt_succ_self _
  · have hgone := h.gone u hu
    show u ∉ s.globalList ++ [s.nextTid] ∧ u < s.nextTid + 1
    refine ⟨fun hmem => ?_, Nat.lt_succ_of_lt hgone.2⟩
    rcases List.mem_append.1 hmem with hmem | hmem
    · exact hgone.1 hmem
    · exact absurd hgone.2 (by rw [List.mem_singleton.1 hmem]; omega)

/-! ## Switches -/

theorem Owned.goOn (h : Owned s) (hchildren : ∀ i, (f i).childThreads = i.childThreads)
    (hpc : ∀ i, (f i).pc = i.pc) (hstate : ∀ i, (f i).state = i.state) :
    Owned { (findNextThread s).2.modify t f with current := (findNextThread s).1 } := by
  have hnext : Owned (findNextThread s).2 := by
    rw [findNextThread_frame]
    exact h.congr rfl rfl rfl rfl (fun _ => rfl) (fun _ => rfl) (fun _ => rfl)
  have hmodify := hnext.modify_same (t := t) (f := f) (hchildren _) (by rw [hpc])
    (alive_of_state (hstate _))
  exact hmodify.congr rfl rfl rfl rfl (fun _ => rfl) (fun _ => rfl) (fun _ => rfl)

theorem Owned.switchThread (h : Owned s) : Owned (switchThread s) :=
  h.goOn (fun _ => rfl) (fun _ => rfl) (fun _ => rfl)

theorem Owned.threadYield (h : Owned s) : Owned (threadYield s) := by
  unfold Scheduler.threadYield
  split
  · rw [findNextThread_frame]
    exact h.congr rfl rfl rfl rfl (fun _ => rfl) (fun _ => rfl) (fun _ => rfl)
  · exact h.switchThread

/-- Only a thread that joins nothing is sent to `ThreadExit`. -/
theorem Owned.updateEvents {d : Nat} (h : Owned s) (hlists : Lists s) (huser : UserRun s) :
    Owned (updateEvents d s) := by
  refine h.congr ?_ ?_ ?_ ?_ (updateEvents_childThreads hlists.nodup) (fun t => ?_) (fun t => ?_)
  · rw [updateEvents_frame]
  · rw [updateEvents_frame]
  · rw [updateEvents_frame]
  · rw [updateEvents_frame]
  · rcases updateEvents_pc (d := d) hlists t with hpc | ⟨-, -, hmode, hne, hpc⟩
    · rw [hpc]
    · rw [hpc, huser t hne hmode]
      rfl
  · by_cases hmem : t ∈ s.activeList
    · exact (updateEvents_updated hlists.nodup hmem).counted.1
    · rw [updateEvents_of_not_mem hmem]

theorem Owned.tick {d : Nat} {b : Bool} (h : Owned s) (hlists : Lists s) (huser : UserRun s) :
    Owned (tick d b s) := by
  unfold Scheduler.tick
  split
  · exact h
  · exact (h.updateEvents hlists huser).goOn (fun _ => rfl) (fun _ => rfl) (fun _ => rfl)

/-- The running thread blocks with the child it has. -/
theorem Owned.threadBlock {type : ThreadState} {arg : Nat} {pc : Pc} (h : Owned s) (hbase : Base s)
    (hchild : pc.child = (s.threads s.current).pc.child)
    (htype : type = .sleep ∨ type = .join ∨ type = .queueLock) : Owned (threadBlock type arg pc s) := by
  apply Owned.switchThread
  refine h.modify_same rfl hchild ?_
  rw [hbase.alive]
  rcases htype with rfl | rfl | rfl <;> rfl

/-! ## Calls -/

/-- The running thread changes its place with nothing in hand. -/
theorem Owned.setPc (h : Owned s) (hbefore : (s.threads s.current).pc.child = none)
    (hchildren : (f (s.threads s.current)).childThreads = (s.threads s.current).childThreads)
    (hstate : (f (s.threads s.current)).state = (s.threads s.current).state)
    (hafter : (f (s.threads s.current)).pc.child = none) : Owned (s.modify s.current f) :=
  h.modify_same hchildren (hafter.trans hbefore.symm) (alive_of_state hstate)

theorem Owned.requestExit {tid : Nat} (h : Owned s)
    (hf : ∀ i, (f i).childThreads = i.childThreads ∧ (f i).pc = i.pc ∧ (f i).state = i.state) :
    Owned (requestExit tid f s).2 := by
  unfold Scheduler.requestExit
  dsimp only
  split
  · split
    · exact h
    · exact h.modify_same (hf _).1 (by rw [(hf _).2.1]) (alive_of_state (hf _).2.2)
  · exact h

theorem Owned.threadExec (h : Owned s) : Owned (threadExec s) := by
  have hown : Owned (s.modify s.current fun i => { i with stickyCount := 0, userMode := true }) :=
    h.modify_same rfl rfl rfl
  unfold Scheduler.threadExec
  dsimp only
  split
  · exact hown.congr rfl rfl rfl rfl (fun _ => rfl) (fun _ => rfl) (fun _ => rfl)
  · have hspace := hown.modify_same (t := s.current)
      (f := fun i => { i with memSpace := s.memSpaces.next }) rfl rfl rfl
    exact hspace.congr rfl rfl rfl rfl (fun _ => rfl) (fun _ => rfl) (fun _ => rfl)

theorem Owned.enterExit {k : Exit} (h : Owned s) (hpc : (s.threads s.current).pc = .run) :
    Owned (enterExit k s) :=
  h.setPc (by rw [hpc]; rfl) rfl rfl rfl

theorem Owned.threadCheckFlags (h : Owned s) (hpc : (s.threads s.current).pc = .run) :
    Owned (threadCheckFlags s) := by
  have hflag : Owned (s.modify s.current fun i => { i with killPending := false }) :=
    h.modify_same rfl rfl rfl
  have hpc' : ((s.modify s.current fun i => { i with killPending := false }).threads s.current).pc =
      .run := by rw [modify_self]; exact hpc
  unfold Scheduler.threadCheckFlags
  dsimp only
  split
  · split
    · split
      · exact hflag.enterExit hpc'
      · exact hflag
    · exact hflag.enterExit hpc'
  · split
    · exact h.enterExit hpc
    · exact h

/-- A list to another list. -/
theorem Owned.threadDetach {tid : Nat} (h : Owned s) (hlive : s.live initThread) :
    Owned (threadDetach tid s).2 := by
  unfold Scheduler.threadDetach
  dsimp only
  split
  · rename_i hmem
    split
    · exact h
    · refine h.of_custody ?_ rfl rfl rfl rfl
      rw [custody_pushChild, custody_eraseChild, live_pushChild, live_eraseChild]
      exact h.custody.pass hmem hlive
  · exact h

/-- A list to the hand of the running thread. -/
theorem Owned.threadJoin {tid : Nat} (h : Owned s) (hbase : Base s)
    (hpc : (s.threads s.current).pc = .run) : Owned (threadJoin tid s).2 := by
  unfold Scheduler.threadJoin
  dsimp only
  split
  · rename_i hmem
    refine h.of_custody ?_ rfl rfl rfl rfl
    rw [custody_setPc (f := fun i => { i with pc := .popped tid }) rfl, custody_eraseChild,
      live_modify (f := fun i => { i with pc := .popped tid }) rfl, live_eraseChild]
    refine h.custody.take hmem ?_ hbase.alive
    show (s.threads s.current).pc.child = none
    rw [hpc]
    rfl
  · exact h

theorem Owned.threadTryJoin {tid : Nat} (h : Owned s) : Owned (threadTryJoin tid s).2 := by
  unfold Scheduler.threadTryJoin
  dsimp only
  split
  · rename_i hmem
    split
    · have hitem := h.custody.item tid (.list _) hmem
      refine h.delete hitem ?_ rfl rfl rfl rfl
      have hcustody : ((s.eraseChild (s.threads s.current).mainThread tid).delete tid).custody =
          s.custody.erase (s.threads s.current).mainThread tid := custody_eraseChild s _ _
      have hlive : ((s.eraseChild (s.threads s.current).mainThread tid).delete tid).live = s.live :=
        live_eraseChild s _ _
      rw [hcustody, hlive]
      exact h.custody.drop_list hmem (mem_items_erase h rfl)
    · exact h
  · exact h

/-! ## Inside of the calls -/

theorem dropLast_eq_erase {l : List Nat} {c : Nat} (hnodup : l.Nodup) (hlast : l.getLast? = some c) :
    l.dropLast = l.erase c := by
  have hsplit : l = l.dropLast ++ [c] := (List.dropLast_append_getLast? c hlast).symm
  have hnot : c ∉ l.dropLast := by
    intro hmem
    rw [hsplit] at hnodup
    exact (List.nodup_append.1 hnodup).2.2 c hmem c (by simp) rfl
  conv_rhs => rw [hsplit]
  rw [List.erase_append_right _ hnot, List.erase_cons_head, List.append_nil]

/-- The last child goes to the hand of the running thread. -/
theorem Owned.killLoop {code : UInt64} (h : Owned s) (hbase : Base s)
    (hpc : (s.threads s.current).pc = .killLoop (.thread code)) :
    Owned (killLoop (.thread code) s) := by
  have hbefore : (s.threads s.current).pc.child = none := by
    rw [hpc]
    rfl
  unfold Scheduler.killLoop
  dsimp only
  have htarget : s.target s.current (.thread code) = s.current := rfl
  rw [htarget]
  split
  · exact h.setPc hbefore rfl rfl rfl
  · rename_i child hlast
    have hmem := List.mem_of_getLast? hlast
    have hpop : (s.modify s.current fun i => { i with childThreads := i.childThreads.dropLast }) =
        s.eraseChild s.current child := by
      have hdrop := dropLast_eq_erase (h.custody.nodup s.current) hlast
      simp only [State.eraseChild, State.modify]
      congr 3
    rw [hpop]
    have habort : ((s.eraseChild s.current child).modify child fun i =>
        { i with abortPending := true }).custody = s.custody.erase s.current child := by
      rw [← custody_eraseChild]
      exact custody_congr (modify_keeps ThreadInfo.childThreads rfl)
        (modify_keeps (fun i => i.pc.child) rfl)
    refine h.of_custody ?_ rfl rfl rfl rfl
    rw [custody_setPc rfl, habort, live_modify rfl, live_modify rfl, live_eraseChild]
    exact h.custody.take hmem hbefore hbase.alive

/-- A thread that owns nothing may stop to be live. -/
theorem Owned.modify_free (h : Owned s) (hempty : (s.threads t).childThreads = [])
    (hnone : (s.threads t).pc.child = none)
    (hchildren : (f (s.threads t)).childThreads = (s.threads t).childThreads)
    (hchild : (f (s.threads t)).pc.child = (s.threads t).pc.child) : Owned (s.modify t f) := by
  refine h.of_custody ?_ rfl rfl rfl rfl
  rw [custody_congr (modify_keeps ThreadInfo.childThreads hchildren)
    (modify_keeps (fun i => i.pc.child) hchild)]
  apply h.custody.live_congr
  intro j p hat
  have hne : p.owner ≠ t := by
    rintro rfl
    cases p with
    | list u =>
      have hmem : j ∈ (s.threads u).childThreads := hat
      rw [show (s.threads u).childThreads = [] from hempty] at hmem
      cases hmem
    | hand u =>
      have hhand : (s.threads u).pc.child = some j := hat
      rw [show (s.threads u).pc.child = none from hnone] at hhand
      cases hhand
  rw [State.live, modify_of_ne hne]
  exact h.custody.live j p hat

theorem Owned.finishExit {code : UInt64} (h : Owned s)
    (hempty : (s.threads s.current).childThreads = [])
    (hnone : (s.threads s.current).pc.child = none) : Owned (finishExit s.current code s) := by
  have hown : Owned (s.modify s.current fun i =>
      { i with stickyCount := i.stickyCount + 1, pc := .run }) := h.setPc hnone rfl rfl rfl
  unfold Scheduler.finishExit
  dsimp only
  apply Owned.threadYield
  have hrefs : Owned { s.modify s.current fun i =>
      { i with stickyCount := i.stickyCount + 1, pc := .run } with
      fdTables := s.fdTables.release (s.threads s.current).fds
      memSpaces := s.memSpaces.release (s.threads s.current).memSpace } :=
    hown.congr rfl rfl rfl rfl (fun _ => rfl) (fun _ => rfl) (fun _ => rfl)
  refine hrefs.modify_free ?_ ?_ rfl rfl
  · simp [hempty]
  · simp [Pc.child]

theorem Owned.act (h : Owned s) (hbase : Base s) (hsound : Sound s) (hok : OwnerOk s .act)
    (hact : act s = some s') : Owned s' := by
  have hexits := hsound.exits s.current
  unfold Scheduler.act at hact
  dsimp only at hact
  cases hpc : (s.threads s.current).pc with
  | run => simp [hpc] at hact
  | sleeping | waiting =>
    obtain rfl : _ = s' := by simpa [hpc] using hact
    exact h.setPc (by rw [hpc]; rfl) rfl rfl rfl
  | popped child =>
    obtain rfl : _ = s' := by simpa [hpc] using hact
    exact h.threadBlock hbase (by rw [hpc]; rfl) (.inr (.inl rfl))
  | joining child =>
    have hhand : s.custody.hands s.current = some child := by
      show (s.threads s.current).pc.child = _
      rw [hpc]
      rfl
    simp only [hpc] at hact
    split at hact
    · obtain rfl := Option.some.inj hact
      have hitem := h.custody.item child (.hand s.current) hhand
      refine h.delete hitem ?_ rfl rfl rfl rfl
      have hcustody : (return_ (s.delete child)).custody = s.custody.setHand s.current none :=
        custody_setPc (s := s.delete child) rfl
      have hlive : (return_ (s.delete child)).live = s.live := live_modify (s := s.delete child) rfl
      rw [hcustody, hlive]
      exact h.custody.drop_hand hhand (mem_items_erase h rfl)
    · rename_i hrax
      obtain rfl := Option.some.inj hact
      refine h.of_custody ?_ rfl rfl rfl rfl
      rw [return_, custody_setPc rfl, custody_pushChild, live_modify rfl, live_pushChild]
      exact h.custody.put hhand (hok.putBack child rfl hpc hrax)
  | killLoop k =>
    obtain rfl : _ = s' := by simpa [hpc] using hact
    obtain ⟨code, rfl⟩ := hexits k (by rw [hpc]; rfl)
    exact h.killLoop hbase hpc
  | killing child k =>
    obtain rfl : _ = s' := by simpa [hpc] using hact
    exact h.threadBlock hbase (by rw [hpc]; rfl) (.inr (.inl rfl))
  | killJoin child k =>
    have hhand : s.custody.hands s.current = some child := by
      show (s.threads s.current).pc.child = _
      rw [hpc]
      rfl
    have hrax := hok.killed child k rfl hpc
    obtain ⟨code, rfl⟩ := hexits k (by rw [hpc]; rfl)
    obtain rfl : _ = s' := by simpa only [hpc, hrax, if_false, Option.some.injEq] using hact
    refine h.of_custody ?_ rfl rfl rfl rfl
    rw [custody_setPc rfl, custody_pushChild, live_modify rfl, live_pushChild]
    exact h.custody.put hhand hbase.alive
  | finish k =>
    obtain ⟨code, rfl⟩ := hexits k (by rw [hpc]; rfl)
    obtain rfl : _ = s' := by simpa [hpc] using hact
    exact h.finishExit (hok.finish _ rfl hpc) (by rw [hpc]; rfl)

theorem Owned.call {e : Event} (h : Owned s) (hbase : Base s) (hfamily : Family s) (hsound : Sound s)
    (hpc : (s.threads s.current).pc = .run) (hok : OwnerOk s e) (hcall : call s e = some s') :
    Owned s' := by
  have hnone : (s.threads s.current).pc.child = none := by
    rw [hpc]
    rfl
  cases e with
  | tick d b => cases hcall
  | act => cases hcall
  | createKernelThread =>
    obtain rfl := Option.some.inj hcall
    rw [createKernelThread_eq]
    exact h.addThread hfamily hbase.lists.tids rfl rfl hbase.init_lt (hok.init (.inl rfl))
  | cloneThread sub mem fd =>
    obtain rfl := Option.some.inj hcall
    rw [cloneThread_eq]
    exact h.addThread hfamily hbase.lists.tids rfl rfl (hbase.lists.mains.lt _ hbase.current_lt)
      (hok.clone sub mem fd rfl)
  | threadYield =>
    obtain rfl := Option.some.inj hcall
    exact h.threadYield
  | threadSleep ticks =>
    obtain rfl := Option.some.inj hcall
    exact h.threadBlock hbase hnone.symm (.inl rfl)
  | lockWait =>
    obtain rfl := Option.some.inj hcall
    have hqueued : Owned (s.modify s.current fun i => { i with queued := true }) :=
      h.modify_same rfl rfl rfl
    refine hqueued.threadBlock (hbase.modify_current rfl rfl) ?_ (.inr (.inr rfl))
    rw [State.modify_current, modify_self]
    exact hnone.symm
  | unlockWake w =>
    simp only [Scheduler.call] at hcall
    split at hcall
    · rename_i hqueued
      obtain rfl := Option.some.inj hcall
      refine h.modify_same rfl rfl ?_
      simp [ThreadInfo.alive, (hsound.queued w hqueued).1]
    · cases hcall
  | threadDetach tid =>
    obtain rfl := Option.some.inj hcall
    exact h.threadDetach (hok.init (.inr ⟨tid, rfl⟩))
  | threadJoin tid =>
    obtain rfl := Option.some.inj hcall
    exact h.threadJoin hbase hpc
  | threadTryJoin tid =>
    obtain rfl := Option.some.inj hcall
    exact h.threadTryJoin
  | threadKill tid | threadAbort tid =>
    obtain rfl := Option.some.inj hcall
    exact h.requestExit fun _ => ⟨rfl, rfl, rfl⟩
  | handleKill rip | setUser uid =>
    obtain rfl := Option.some.inj hcall
    exact h.modify_same rfl rfl rfl
  | threadExec =>
    obtain rfl := Option.some.inj hcall
    exact h.threadExec
  | threadCheckFlags =>
    obtain rfl := Option.some.inj hcall
    exact h.threadCheckFlags hpc
  | threadExit code =>
    obtain rfl := Option.some.inj hcall
    exact h.enterExit hpc
  | processDoExit code => exact absurd rfl (hok.noProcessExit code)

theorem Owned.step {e : Event} (h : Owned s) (hbase : Base s) (hfamily : Family s) (hsound : Sound s)
    (huser : UserRun s) (hok : OwnerOk s e) (hstep : step s e = some s') : Owned s' := by
  obtain ⟨d, b, -, -, rfl⟩ | ⟨rfl, -, hact⟩ | ⟨-, hpc, hcall⟩ := step_cases hstep
  · exact h.tick hbase.lists huser
  · exact h.act hbase hsound hok hact
  · exact h.call hbase hfamily hsound hpc hok hcall

/-! ## Every run -/

/-- The thread is in the list of one live thread, once, and in no hand; or one live thread is joining it,
and it is in no list. -/
def HasOwner (s : State) (t : Nat) : Prop :=
  (∃ u, s.live u ∧ (s.threads u).childThreads.count t = 1 ∧
      (∀ v, t ∈ (s.threads v).childThreads → v = u) ∧ ∀ v, (s.threads v).pc.child ≠ some t) ∨
    ∃ u, s.live u ∧ (s.threads u).pc.child = some t ∧
      (∀ v, (s.threads v).pc.child = some t → v = u) ∧ ∀ v, t ∉ (s.threads v).childThreads

theorem Owned.hasOwner (h : Owned s) (ht : t ∈ s.globalList) (hinit : t ≠ initThread) : HasOwner s t := by
  obtain ⟨p, hp⟩ := h.custody.covered t (mem_items.2 ⟨ht, hinit⟩)
  have hlive := h.custody.live t p hp
  cases p with
  | list u =>
    refine .inl ⟨u, hlive, List.count_eq_one_of_mem (h.custody.nodup u) hp, fun v hv => ?_, fun v hv => ?_⟩
    · have hplace := h.custody.unique t (.list v) (.list u) hv hp
      exact Place.list.inj hplace
    · have hplace := h.custody.unique t (.hand v) (.list u) hv hp
      cases hplace
  | hand u =>
    refine .inr ⟨u, hlive, hp, fun v hv => ?_, fun v hv => ?_⟩
    · have hplace := h.custody.unique t (.hand v) (.hand u) hv hp
      exact Place.hand.inj hplace
    · have hplace := h.custody.unique t (.list v) (.hand u) hv hp
      cases hplace

/-- **Threads are owned.** In every state of a run that keeps to the condition, every thread of the
global list but the init thread has one live owner; and every thread whose join was completed is out of
the global list and was deleted once. -/
theorem threads_owned (s : State) (run : Runs step OwnerOk initial s) :
    (∀ t ∈ s.globalList, t ≠ initThread → HasOwner s t) ∧
      ∀ t ∈ s.joined, t ∉ s.globalList ∧ s.deleted.count t = 1 := by
  have hinv : Base s ∧ Family s ∧ Sound s ∧ UserRun s ∧ Owned s := by
    refine run.inv (I := fun s => Base s ∧ Family s ∧ Sound s ∧ UserRun s ∧ Owned s)
      ⟨base_initial, family_initial, sound_initial, nofun, owned_initial⟩ ?_
    rintro s e s' ⟨hbase, hfamily, hsound, huser, howned⟩ hok hstep
    exact ⟨hbase.step hstep, hfamily.step hbase hstep, hsound.step hbase hok.noProcessExit hstep,
      huser.step hbase.lists hstep, howned.step hbase hfamily hsound huser hok hstep⟩
  obtain ⟨-, -, -, -, howned⟩ := hinv
  refine ⟨fun t ht hinit => howned.hasOwner ht hinit, fun t ht => ?_⟩
  rw [howned.joined] at ht
  exact ⟨(howned.gone t ht).1, List.count_eq_one_of_mem howned.deleted ht⟩

/-- The condition as a test. -/
def ownerOk (s : State) : Event → Bool
  | .processDoExit _ => false
  | .createKernelThread | .threadDetach _ => (s.threads initThread).alive
  | .cloneThread _ _ _ => (s.threads (s.threads s.current).mainThread).alive
  | .act => match (s.threads s.current).pc with
    | .killJoin _ _ => decide ((s.threads s.current).rax ≠ OK)
    | .finish _ => (s.threads s.current).childThreads.isEmpty
    | .joining _ => decide ((s.threads s.current).rax = OK) ||
        (s.threads (s.threads s.current).mainThread).alive
    | _ => true
  | _ => true

theorem ownerOk_sound (s : State) (e : Event) (h : ownerOk s e = true) : OwnerOk s e where
  noProcessExit code he := by
    subst he
    cases h
  killed c k he hpc := by
    subst he
    simpa [ownerOk, hpc] using h
  finish k he hpc := by
    subst he
    simpa [ownerOk, hpc] using h
  init he := by
    obtain rfl | ⟨tid, rfl⟩ := he <;> exact h
  clone sub mem fd he := by
    subst he
    exact h
  putBack c he hpc hrax := by
    subst he
    simpa [ownerOk, hpc, hrax, State.live] using h

/-- Thread 2 joins its child, which has exited. -/
theorem threads_owned_joined : ∃ s, Runs step OwnerOk initial s ∧ HasOwner s 2 ∧
    3 ∉ s.globalList ∧ s.deleted.count 3 = 1 := by
  have hrun : (exec (fun s e => if ownerOk s e then step s e else none)
      (exitedSubthread ++ [.tick 0 false, .threadJoin 3, .act, .tick 0 false, .act])
        initial).map (fun s => (s.globalList, s.joined)) = some ([1, 2], [3]) := by decide +kernel
  obtain ⟨s, hs, hproj⟩ := Option.map_eq_some_iff.1 hrun
  simp only [Prod.mk.injEq] at hproj
  obtain ⟨hglobal, hjoined⟩ := hproj
  have hruns : Runs step OwnerOk initial s := runs_of_checks ownerOk_sound _ hs
  obtain ⟨howner, hgone⟩ := threads_owned s hruns
  exact ⟨s, hruns, howner 2 (by simp [hglobal]) (by decide), hgone 3 (by simp [hjoined])⟩

theorem not_hasOwner (hlist : ∀ u, t ∉ (s.threads u).childThreads)
    (hhand : ∀ u, (s.threads u).pc.child ≠ some t) : ¬ HasOwner s t := by
  rintro (⟨u, -, hcount, -⟩ | ⟨u, -, hchild, -⟩)
  · rw [List.count_eq_zero_of_not_mem (hlist u)] at hcount
    cases hcount
  · exact hhand u hchild

/-- Thread 2 exits and joins its child, which has exited: the child stays in the global list, is not
deleted, and has no owner. -/
theorem joined_by_exit_stays : ∃ s, Runs step (fun _ _ => True) initial s ∧
    (s.threads 3).state = .exited ∧ 3 ∈ s.joined ∧ 3 ∈ s.globalList ∧ 3 ∉ s.deleted ∧
    ¬ HasOwner s 3 := by
  have hrun : (exec step
      (exitedSubthread ++ [.tick 0 false, .threadExit 0, .act, .act, .tick 0 false, .act])
        initial).map (fun s => ((s.threads 3).state, [s.joined, s.globalList, s.deleted], s.nextTid,
          (List.range 4).all fun u =>
            3 ∉ (s.threads u).childThreads && decide ((s.threads u).pc.child ≠ some 3))) =
      some (.exited, [[3], [1, 2, 3], []], 4, true) := by decide +kernel
  obtain ⟨s, hs, hproj⟩ := Option.map_eq_some_iff.1 hrun
  simp only [Prod.mk.injEq, List.cons.injEq, and_true, List.all_eq_true, List.mem_range,
    Bool.and_eq_true, decide_eq_true_eq] at hproj
  obtain ⟨hexited, ⟨hjoined, hglobal, hdeleted⟩, hnext, howners⟩ := hproj
  have hruns : Runs step (fun _ _ => True) initial s := runs_of_exec _ hs
  have hfamily : Family s := by
    refine (hruns.inv (I := fun s => Base s ∧ Family s) ⟨base_initial, family_initial⟩ ?_).2
    rintro s e s' ⟨hbase, hfamily⟩ - hstep
    exact ⟨hbase.step hstep, hfamily.step hbase hstep⟩
  refine ⟨s, hruns, hexited, by simp [hjoined], by simp [hglobal], by simp [hdeleted],
    not_hasOwner (fun u => ?_) (fun u => ?_)⟩
  · rcases Nat.lt_or_ge u 4 with hu | hu
    · exact (howners u hu).1
    · simp [(hfamily.fresh u (hnext ▸ hu)).2]
  · rcases Nat.lt_or_ge u 4 with hu | hu
    · exact (howners u hu).2
    · simp [(hfamily.fresh u (hnext ▸ hu)).1, Pc.child]

end ChenixOS.Scheduler
