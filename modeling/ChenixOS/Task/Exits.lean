import ChenixOS.Task.Children

/-!
# Joins of exiting threads

`KillChildThreads` takes the last child out of the list, aborts it, blocks until it has exited, and puts
it back if the block was interrupted. A block is interrupted by any pending kill or abort of the exiting
thread itself, and nothing clears these any more once it is exiting. If a thread starts to exit with
both flags clear and they stay so, every block ends with the child's exit.

Since children are younger, no thread finds itself in its own list; but a subthread that calls
`ProcessDoExit` may find itself in the list of its main thread.
-/

namespace ChenixOS.Scheduler

open Transitions

variable {s s' : State} {t u : Nat} {f : ThreadInfo → ThreadInfo}

/-- The place is inside of `KillChildThreads`. -/
def Pc.inKill : Pc → Bool
  | .killLoop _ | .killing _ _ | .killJoin _ _ => true
  | _ => false

/-- The place is inside of the `KillChildThreads` of a `ProcessDoExit`. -/
def Pc.inProcessExit : Pc → Bool
  | .killLoop (.caller _) | .killing _ (.caller _) | .killJoin _ (.caller _)
  | .killLoop (.main _) | .killing _ (.main _) | .killJoin _ (.main _) => true
  | _ => false

/-- **The condition**: a thread enters `KillChildThreads` with no kill or abort pending; no kill or abort
is requested of a thread inside of it; and no thread inside of `ProcessDoExit` is in the list of its
main thread when it calls, or is put back there by an interrupted join. -/
structure ExitOk (s : State) (e : Event) : Prop where
  threadExit : ∀ code, e = .threadExit code → (s.threads s.current).pending = false
  processDoExit : ∀ code, e = .processDoExit code → (s.threads s.current).pending = false ∧
    s.current ∉ (s.threads (s.threads s.current).mainThread).childThreads
  checkFlags : e = .threadCheckFlags → (s.threads s.current).abortPending = false
  request : ∀ tid, e = .threadKill tid ∨ e = .threadAbort tid → (s.threads tid).pc.inKill = false
  kill : ∀ k child, e = .act → (s.threads s.current).pc = .killLoop k →
    (s.threads (s.target s.current k)).childThreads.getLast? = some child →
    (s.threads child).pc.inKill = false
  putBack : ∀ child, e = .act → (s.threads s.current).pc = .joining child →
    (s.threads s.current).rax ≠ OK → (s.threads child).pc.inProcessExit = false

/-! ## The flags of exiting threads -/

/-- An exiting thread has no kill or abort pending, and the join it comes back from was not
interrupted. -/
structure ThreadInfo.ExitClear (i : ThreadInfo) : Prop where
  flags : i.pc.inKill = true → i.pending = false
  result : ∀ c k, i.pc = .killJoin c k → i.state = .ready → i.rax = OK

def Clear (s : State) : Prop := ∀ t, (s.threads t).ExitClear

theorem exitClear_of_not_inKill {i : ThreadInfo} (h : i.pc.inKill = false) : i.ExitClear := by
  constructor
  · simp [h]
  · intro c k hpc
    simp [hpc, Pc.inKill] at h

/-- The flags, the place, the state and the return value are kept. -/
theorem ThreadInfo.ExitClear.congr {i i' : ThreadInfo} (h : i.ExitClear)
    (hpending : i'.pending = i.pending) (hpc : i'.pc = i.pc) (hstate : i'.state = i.state)
    (hrax : i'.rax = i.rax) : i'.ExitClear := by
  constructor
  · rw [hpc, hpending]
    exact h.flags
  · rw [hpc, hstate, hrax]
    exact h.result

theorem ThreadInfo.ExitClear.deliver {i : ThreadInfo} (h : i.ExitClear) (c : Bool) :
    (i.deliver c).ExitClear := by
  have hpending : (i.deliver c).pc.inKill = true → (i.deliver c).pending = false := by
    intro hin
    by_cases hp : i.pending = true
    · have hout : i.pc.inKill = false := by
        by_contra hk
        have := h.flags (by simpa using hk)
        simp [hp] at this
      cases hu : i.userMode <;> cases c <;> cases hk : i.killPending <;> cases ha : i.abortPending <;>
        cases hr : i.killHandlerRip != 0 <;>
        simp_all [ThreadInfo.deliver, ThreadInfo.pending]
    · have hclear : i.killPending = false ∧ i.abortPending = false := by
        simpa [ThreadInfo.pending] using hp
      simp [ThreadInfo.deliver, ThreadInfo.pending, hclear]
  refine ⟨hpending, fun d k hpc hready => ?_⟩
  have hsame : i.pc = .killJoin d k := by
    rcases deliver_pc c i with hkeep | ⟨-, -, hloop⟩
    · rw [← hkeep, hpc]
    · rw [hloop] at hpc
      cases hpc
  rw [deliver_frame] at hready ⊢
  exact h.result d k hsame hready

theorem Clear.modify (h : Clear s) (hclear : (f (s.threads t)).ExitClear) : Clear (s.modify t f) := by
  intro u
  by_cases hut : u = t
  · subst hut
    rw [modify_self]
    exact hclear
  · rw [modify_of_ne hut]
    exact h u

/-- A change of one record that keeps what matters here. -/
theorem Clear.modify_same (h : Clear s) (hpending : (f (s.threads t)).pending = (s.threads t).pending)
    (hpc : (f (s.threads t)).pc = (s.threads t).pc)
    (hstate : (f (s.threads t)).state = (s.threads t).state)
    (hrax : (f (s.threads t)).rax = (s.threads t).rax) : Clear (s.modify t f) :=
  h.modify ((h t).congr hpending hpc hstate hrax)

theorem Updated.exitClear {d : Nat} (h : Updated d s s' t) (hclear : (s.threads t).ExitClear) :
    (s'.threads t).ExitClear := by
  cases h with
  | ready hstate hnew =>
    rw [hnew]
    exact hclear.deliver _
  | exited _ hnew | queueLock _ hnew | waits _ _ _ hnew =>
    rw [hnew]
    exact hclear
  | finished _ hnew =>
    rw [hnew]
    exact ⟨hclear.flags, nofun⟩
  | interrupted _ hpending hnew =>
    rw [hnew]
    apply exitClear_of_not_inKill
    by_contra hk
    have := hclear.flags (by simpa using hk)
    simp [hpending] at this
  | awoke _ _ hnew | joined _ _ _ hnew =>
    rw [hnew]
    exact ⟨hclear.flags, fun _ _ _ _ => rfl⟩
  | sleeps hstate _ hnew =>
    rw [hnew]
    exact ⟨hclear.flags, hclear.result⟩

theorem Clear.updateEvents {d : Nat} (h : Clear s) (hlists : Lists s) : Clear (updateEvents d s) := by
  intro t
  by_cases hmem : t ∈ s.activeList
  · exact (updateEvents_updated hlists.nodup hmem).exitClear (h t)
  · rw [updateEvents_of_not_mem hmem]
    exact h t

theorem Clear.goOn (h : Clear s) (hpending : ∀ i, (f i).pending = i.pending) (hpc : ∀ i, (f i).pc = i.pc)
    (hstate : ∀ i, (f i).state = i.state) (hrax : ∀ i, (f i).rax = i.rax) :
    Clear { (findNextThread s).2.modify t f with current := (findNextThread s).1 } := by
  have hnext : Clear (findNextThread s).2 := by
    intro u
    rw [findNextThread_threads]
    exact h u
  exact hnext.modify_same (t := t) (f := f) (hpending _) (hpc _) (hstate _) (hrax _)

theorem Clear.switchThread (h : Clear s) : Clear (switchThread s) :=
  h.goOn (fun _ => rfl) (fun _ => rfl) (fun _ => rfl) (fun _ => rfl)

theorem Clear.threadYield (h : Clear s) : Clear (threadYield s) := by
  unfold Scheduler.threadYield
  split
  · intro u
    rw [findNextThread_threads]
    exact h u
  · exact h.switchThread

theorem Clear.tick {d : Nat} {b : Bool} (h : Clear s) (hlists : Lists s) : Clear (tick d b s) := by
  unfold Scheduler.tick
  split
  · exact h
  · exact (h.updateEvents hlists).goOn (fun _ => rfl) (fun _ => rfl) (fun _ => rfl) (fun _ => rfl)

theorem Clear.threadBlock {type : ThreadState} {arg : Nat} {pc : Pc} (h : Clear s)
    (hpending : pc.inKill = true → (s.threads s.current).pending = false) (htype : type ≠ .ready) :
    Clear (threadBlock type arg pc s) := by
  apply Clear.switchThread
  apply h.modify
  exact ⟨hpending, fun _ _ _ hready => absurd hready htype⟩

/-- A place outside of `KillChildThreads` for one thread. -/
theorem Clear.modify_out (h : Clear s) (hout : (f (s.threads t)).pc.inKill = false) :
    Clear (s.modify t f) :=
  h.modify (exitClear_of_not_inKill hout)

theorem Clear.enterExit {k : Exit} (h : Clear s) (hpending : (s.threads s.current).pending = false) :
    Clear (enterExit k s) :=
  h.modify ⟨fun _ => hpending, nofun⟩

theorem Clear.threadCheckFlags (h : Clear s) (hpc : (s.threads s.current).pc = .run)
    (hclear : (s.threads s.current).abortPending = false) : Clear (threadCheckFlags s) := by
  have hflag : Clear (s.modify s.current fun i => { i with killPending := false }) :=
    h.modify_out (by simp [hpc, Pc.inKill])
  unfold Scheduler.threadCheckFlags
  simp only [hclear, Bool.false_eq_true, if_false]
  split
  · split
    · exact hflag
    · apply hflag.enterExit
      simp [ThreadInfo.pending, hclear]
  · exact h

theorem Clear.requestExit {tid : Nat} (h : Clear s) (hout : (s.threads tid).pc.inKill = false)
    (hf : ∀ i, (f i).pc = i.pc) : Clear (requestExit tid f s).2 := by
  unfold Scheduler.requestExit
  dsimp only
  split
  · split
    · exact h
    · apply h.modify_out
      rw [hf]
      exact hout
  · exact h

theorem Clear.killLoop {k : Exit} (h : Clear s) (hpc : (s.threads s.current).pc = .killLoop k)
    (hok : ExitOk s .act) : Clear (killLoop k s) := by
  have hpending := (h s.current).flags (by rw [hpc]; rfl)
  unfold Scheduler.killLoop
  dsimp only
  split
  · apply h.modify
    exact ⟨fun _ => hpending, by cases k <;> exact nofun⟩
  · rename_i child hchild
    have hout := hok.kill k child rfl hpc hchild
    have hne : s.current ≠ child := by
      intro e
      rw [← e, hpc] at hout
      cases hout
    have hpop := h.modify_same (t := s.target s.current k)
      (f := fun i => { i with childThreads := i.childThreads.dropLast }) rfl rfl rfl rfl
    have hkeep := modify_keeps (s := s) (t := s.target s.current k)
      (f := fun i => { i with childThreads := i.childThreads.dropLast })
      (fun i => (i.pc, i.pending)) rfl
    have habort := hpop.modify_out (t := child) (f := fun i => { i with abortPending := true }) (by
      show ((s.modify _ _).threads child).pc.inKill = false
      rw [(Prod.mk.inj (hkeep child)).1]
      exact hout)
    apply habort.modify
    refine ⟨fun _ => ?_, nofun⟩
    show (ThreadInfo.pending (((s.modify _ _).modify child _).threads s.current)) = false
    rw [modify_of_ne hne, (Prod.mk.inj (hkeep s.current)).2]
    exact hpending

theorem Clear.addThread {i : ThreadInfo} {r₁ r₂ : RefCounts} (h : Clear s) (hpc : i.pc = .run) :
    Clear (s.addThread i r₁ r₂) := by
  intro u
  show (Function.update s.threads s.nextTid i u).ExitClear
  by_cases hu : u = s.nextTid
  · rw [hu, Function.update_self]
    exact exitClear_of_not_inKill (by rw [hpc]; rfl)
  · rw [Function.update_of_ne hu]
    exact h u

theorem Clear.pushChild {child : Nat} (h : Clear s) : Clear (s.pushChild t child) :=
  h.modify_same rfl rfl rfl rfl

theorem Clear.eraseChild {child : Nat} (h : Clear s) : Clear (s.eraseChild t child) :=
  h.modify_same rfl rfl rfl rfl

theorem Clear.act (h : Clear s) (hok : ExitOk s .act) (hact : act s = some s') : Clear s' := by
  unfold Scheduler.act at hact
  dsimp only at hact
  cases hpc : (s.threads s.current).pc with
  | run => simp [hpc] at hact
  | sleeping | waiting =>
    obtain rfl : _ = s' := by simpa [hpc] using hact
    exact h.modify_out rfl
  | popped child =>
    obtain rfl : _ = s' := by simpa [hpc] using hact
    exact h.threadBlock nofun (by simp)
  | joining child =>
    simp only [hpc] at hact
    split at hact
    · obtain rfl := Option.some.inj hact
      have hdelete : Clear (s.delete child) := h
      exact hdelete.modify_out rfl
    · obtain rfl := Option.some.inj hact
      exact h.pushChild.modify_out rfl
  | killLoop k =>
    obtain rfl : _ = s' := by simpa [hpc] using hact
    exact h.killLoop hpc hok
  | killing child k =>
    obtain rfl : _ = s' := by simpa [hpc] using hact
    exact h.threadBlock (fun _ => (h s.current).flags (by rw [hpc]; rfl)) (by simp)
  | killJoin child k =>
    have hpending := (h s.current).flags (by rw [hpc]; rfl)
    obtain rfl : _ = s' := by simpa only [hpc, Option.some.injEq] using hact
    split
    · have hjoined : Clear { s with joined := s.joined ++ [child] } := h
      exact hjoined.modify ⟨fun _ => hpending, nofun⟩
    · have hpush : Clear (s.pushChild (s.target s.current k) child) := h.pushChild
      refine hpush.modify ⟨fun _ => ?_, nofun⟩
      exact (modify_keeps (s := s) (t := s.target s.current k)
        (f := fun i => { i with childThreads := i.childThreads ++ [child] })
        ThreadInfo.pending rfl s.current).trans hpending
  | finish k =>
    have hfinish : ∀ target code, Clear (finishExit target code s) := by
      intro target code
      have hown : Clear (s.modify s.current fun i =>
          { i with stickyCount := i.stickyCount + 1, pc := .run }) := h.modify_out rfl
      unfold finishExit
      dsimp only
      apply Clear.threadYield
      exact Clear.modify hown ⟨(hown target).flags, nofun⟩
    cases k with
    | thread code =>
      obtain rfl : _ = s' := by simpa [hpc] using hact
      exact hfinish _ _
    | caller code => simp [hpc] at hact
    | main code =>
      obtain rfl : _ = s' := by simpa [hpc] using hact
      exact hfinish _ _

theorem Clear.call {e : Event} (h : Clear s) (hpc : (s.threads s.current).pc = .run)
    (hok : ExitOk s e) (hcall : call s e = some s') : Clear s' := by
  have hout : (s.threads s.current).pc.inKill = false := by rw [hpc]; rfl
  cases e with
  | tick d b => cases hcall
  | act => cases hcall
  | createKernelThread =>
    obtain rfl := Option.some.inj hcall
    rw [createKernelThread_eq]
    exact (h.addThread rfl).pushChild
  | cloneThread sub mem fd =>
    obtain rfl := Option.some.inj hcall
    rw [cloneThread_eq]
    exact (h.addThread rfl).pushChild
  | threadYield =>
    obtain rfl := Option.some.inj hcall
    exact h.threadYield
  | threadSleep ticks =>
    obtain rfl := Option.some.inj hcall
    exact h.threadBlock nofun (by simp)
  | lockWait =>
    obtain rfl := Option.some.inj hcall
    have hqueued : Clear (s.modify s.current fun i => { i with queued := true }) := h.modify_out hout
    exact hqueued.threadBlock nofun (by simp)
  | unlockWake w =>
    simp only [Scheduler.call] at hcall
    split at hcall
    · obtain rfl := Option.some.inj hcall
      exact h.modify ⟨(h w).flags, fun _ _ _ _ => rfl⟩
    · cases hcall
  | threadDetach tid =>
    obtain rfl := Option.some.inj hcall
    unfold threadDetach
    dsimp only
    split
    · split
      · exact h
      · exact h.eraseChild.pushChild
    · exact h
  | threadJoin tid =>
    obtain rfl := Option.some.inj hcall
    unfold threadJoin
    dsimp only
    split
    · have herase : Clear (s.eraseChild (s.threads s.current).mainThread tid) := h.eraseChild
      exact herase.modify_out (f := fun i => { i with pc := .popped tid }) rfl
    · exact h
  | threadTryJoin tid =>
    obtain rfl := Option.some.inj hcall
    unfold threadTryJoin
    dsimp only
    split
    · split
      · have herase : Clear (s.eraseChild (s.threads s.current).mainThread tid) := h.eraseChild
        exact herase
      · exact h
    · exact h
  | threadKill tid =>
    obtain rfl := Option.some.inj hcall
    exact h.requestExit (hok.request tid (.inl rfl)) fun _ => rfl
  | threadAbort tid =>
    obtain rfl := Option.some.inj hcall
    exact h.requestExit (hok.request tid (.inr rfl)) fun _ => rfl
  | handleKill rip | setUser uid =>
    obtain rfl := Option.some.inj hcall
    exact h.modify_out hout
  | threadExec =>
    obtain rfl := Option.some.inj hcall
    have hown : Clear (s.modify s.current fun i => { i with stickyCount := 0, userMode := true }) :=
      h.modify_out hout
    unfold threadExec
    dsimp only
    split
    · exact hown
    · exact hown.modify_out (t := s.current) (f := fun i => { i with memSpace := s.memSpaces.next })
        (by simpa using hout)
  | threadCheckFlags =>
    obtain rfl := Option.some.inj hcall
    exact h.threadCheckFlags hpc (hok.checkFlags rfl)
  | threadExit code =>
    obtain rfl := Option.some.inj hcall
    exact h.enterExit (hok.threadExit code rfl)
  | processDoExit code =>
    obtain rfl := Option.some.inj hcall
    exact h.enterExit (hok.processDoExit code rfl).1

theorem Clear.step {e : Event} (h : Clear s) (hbase : Base s) (hok : ExitOk s e)
    (hstep : step s e = some s') : Clear s' := by
  obtain ⟨d, b, -, -, rfl⟩ | ⟨rfl, -, hact⟩ | ⟨-, hpc, hcall⟩ := step_cases hstep
  · exact h.tick hbase.lists
  · exact h.act hok hact
  · exact h.call hpc hok hcall

/-! ## The thread itself among the children -/

/-- No thread inside of `ProcessDoExit` is in the list of its main thread, and no thread inside of
`KillChildThreads` holds itself. -/
structure NotOwn (s : State) : Prop where
  listed : ∀ t, (s.threads t).pc.inProcessExit = true →
    t ∉ (s.threads (s.threads t).mainThread).childThreads
  held : ∀ t c k, (s.threads t).pc = .killing c k ∨ (s.threads t).pc = .killJoin c k → c ≠ t

theorem NotOwn.congr (h : NotOwn s) (hmain : ∀ t, (s'.threads t).mainThread = (s.threads t).mainThread)
    (hchildren : ∀ t, (s'.threads t).childThreads = (s.threads t).childThreads)
    (hpc : ∀ t, (s'.threads t).pc = (s.threads t).pc ∨ (s'.threads t).pc = .killLoop (.thread 1)) :
    NotOwn s' := by
  refine ⟨fun t ht => ?_, fun t c k ht => ?_⟩
  · rw [hmain, hchildren]
    rcases hpc t with hsame | hloop
    · rw [hsame] at ht
      exact h.listed t ht
    · rw [hloop] at ht
      cases ht
  · rcases hpc t with hsame | hloop
    · rw [hsame] at ht
      exact h.held t c k ht
    · rw [hloop] at ht
      rcases ht with ht | ht <;> cases ht

theorem NotOwn.modify_same (h : NotOwn s)
    (hmain : (f (s.threads t)).mainThread = (s.threads t).mainThread)
    (hchildren : (f (s.threads t)).childThreads = (s.threads t).childThreads)
    (hpc : (f (s.threads t)).pc = (s.threads t).pc) : NotOwn (s.modify t f) :=
  h.congr (modify_keeps ThreadInfo.mainThread hmain) (modify_keeps ThreadInfo.childThreads hchildren)
    fun u => .inl (modify_keeps ThreadInfo.pc hpc u)

/-- One thread goes to another place. -/
theorem NotOwn.setPc (h : NotOwn s) (hmain : (f (s.threads t)).mainThread = (s.threads t).mainThread)
    (hchildren : (f (s.threads t)).childThreads = (s.threads t).childThreads)
    (hlisted : (f (s.threads t)).pc.inProcessExit = true →
      t ∉ (s.threads (s.threads t).mainThread).childThreads)
    (hheld : ∀ c k, (f (s.threads t)).pc = .killing c k ∨ (f (s.threads t)).pc = .killJoin c k →
      c ≠ t) : NotOwn (s.modify t f) := by
  refine ⟨fun u hu => ?_, fun u c k hu => ?_⟩
  · rw [modify_keeps ThreadInfo.mainThread hmain, modify_keeps ThreadInfo.childThreads hchildren]
    by_cases hut : u = t
    · subst hut
      rw [modify_self] at hu
      exact hlisted hu
    · rw [modify_of_ne hut] at hu
      exact h.listed u hu
  · by_cases hut : u = t
    · subst hut
      rw [modify_self] at hu
      exact hheld c k hu
    · rw [modify_of_ne hut] at hu
      exact h.held u c k hu

/-- One thread's list changes. -/
theorem NotOwn.setChildren (h : NotOwn s)
    (hmain : (f (s.threads t)).mainThread = (s.threads t).mainThread)
    (hpc : (f (s.threads t)).pc = (s.threads t).pc)
    (hchildren : ∀ c ∈ (f (s.threads t)).childThreads, c ∈ (s.threads t).childThreads ∨
      ((s.threads c).mainThread = t → (s.threads c).pc.inProcessExit = false)) :
    NotOwn (s.modify t f) := by
  refine ⟨fun u hu hmem => ?_, fun u c k hu => ?_⟩
  · rw [modify_keeps ThreadInfo.pc hpc] at hu
    rw [modify_keeps ThreadInfo.mainThread hmain] at hmem
    by_cases hut : (s.threads u).mainThread = t
    · rw [hut, modify_self] at hmem
      rcases hchildren u hmem with hold | hout
      · exact h.listed u hu (hut ▸ hold)
      · rw [hout hut] at hu
        cases hu
    · rw [modify_of_ne hut] at hmem
      exact h.listed u hu hmem
  · rw [modify_keeps ThreadInfo.pc hpc] at hu
    exact h.held u c k hu

theorem NotOwn.pushChild {child : Nat} (h : NotOwn s)
    (hout : (s.threads child).mainThread = t → (s.threads child).pc.inProcessExit = false) :
    NotOwn (s.pushChild t child) := by
  apply h.setChildren rfl rfl
  intro c hc
  rcases List.mem_append.1 hc with hc | hc
  · exact .inl hc
  · obtain rfl := List.mem_singleton.1 hc
    exact .inr hout

theorem NotOwn.eraseChild {child : Nat} (h : NotOwn s) : NotOwn (s.eraseChild t child) :=
  h.setChildren rfl rfl fun _ hc => .inl (List.mem_of_mem_erase hc)

/-- One thread goes to a place outside of `KillChildThreads`, or to the head of its loop in
`ThreadExit`. -/
theorem NotOwn.setPc_out (h : NotOwn s) (hmain : (f (s.threads t)).mainThread = (s.threads t).mainThread)
    (hchildren : (f (s.threads t)).childThreads = (s.threads t).childThreads)
    (hout : (f (s.threads t)).pc.inProcessExit = false)
    (hheld : ∀ c k, (f (s.threads t)).pc ≠ .killing c k ∧ (f (s.threads t)).pc ≠ .killJoin c k) :
    NotOwn (s.modify t f) := by
  apply h.setPc hmain hchildren
  · simp [hout]
  · rintro c k (hpc | hpc)
    · exact absurd hpc (hheld c k).1
    · exact absurd hpc (hheld c k).2

theorem NotOwn.goOn (h : NotOwn s) (hmain : ∀ i, (f i).mainThread = i.mainThread)
    (hchildren : ∀ i, (f i).childThreads = i.childThreads) (hpc : ∀ i, (f i).pc = i.pc) :
    NotOwn { (findNextThread s).2.modify t f with current := (findNextThread s).1 } := by
  have hnext : NotOwn (findNextThread s).2 := by
    apply h.congr
    · simp
    · simp
    · simp
  have hmodify := hnext.modify_same (t := t) (f := f) (hmain _) (hchildren _) (hpc _)
  exact ⟨hmodify.listed, hmodify.held⟩

theorem NotOwn.switchThread (h : NotOwn s) : NotOwn (switchThread s) :=
  h.goOn (fun _ => rfl) (fun _ => rfl) (fun _ => rfl)

theorem NotOwn.threadYield (h : NotOwn s) : NotOwn (threadYield s) := by
  unfold Scheduler.threadYield
  split
  · apply h.congr
    · simp
    · simp
    · simp
  · exact h.switchThread

theorem NotOwn.tick {d : Nat} {b : Bool} (h : NotOwn s) (hlists : Lists s) : NotOwn (tick d b s) := by
  unfold Scheduler.tick
  split
  · exact h
  · have hevents : NotOwn (updateEvents d s) := by
      apply h.congr
      · exact updateEvents_mainThread hlists.nodup
      · exact updateEvents_childThreads hlists.nodup
      · exact fun t => (updateEvents_pc hlists t).imp_right fun hpc => hpc.2.2.2.2
    exact hevents.goOn (fun _ => rfl) (fun _ => rfl) (fun _ => rfl)

theorem NotOwn.addThread {i : ThreadInfo} {r₁ r₂ : RefCounts} (h : NotOwn s) (hbase : Base s)
    (hfamily : Family s) (hpc : i.pc = .run) : NotOwn (s.addThread i r₁ r₂) := by
  have hself : (s.addThread i r₁ r₂).threads s.nextTid = i := by simp [State.addThread]
  have hold : ∀ u, u ≠ s.nextTid → (s.addThread i r₁ r₂).threads u = s.threads u := by
    intro u hu
    simp [State.addThread, hu]
  refine ⟨fun u hu => ?_, fun u c k hu => ?_⟩
  · by_cases hun : u = s.nextTid
    · rw [hun, hself, hpc] at hu
      cases hu
    · rw [hold u hun] at hu ⊢
      have hlt : u < s.nextTid := by
        by_contra hge
        rw [(hfamily.fresh u (Nat.le_of_not_lt hge)).1] at hu
        cases hu
      rw [hold _ (Nat.ne_of_lt (hbase.lists.mains.lt u hlt))]
      exact h.listed u hu
  · by_cases hun : u = s.nextTid
    · rw [hun, hself, hpc] at hu
      rcases hu with hu | hu <;> cases hu
    · rw [hold u hun] at hu
      exact h.held u c k hu

/-- A child that `KillChildThreads` finds is not the running thread. -/
theorem NotOwn.child_ne {k : Exit} {child : Nat} (h : NotOwn s) (hfamily : Family s)
    (hpc : (s.threads s.current).pc = .killLoop k)
    (hchild : child ∈ (s.threads (s.target s.current k)).childThreads) : child ≠ s.current := by
  cases k with
  | thread _ | caller _ => exact Nat.ne_of_gt (hfamily.listed s.current child hchild).1
  | main code =>
    rintro rfl
    exact h.listed s.current (by rw [hpc]; rfl) hchild

theorem NotOwn.killLoop {k : Exit} (h : NotOwn s) (hfamily : Family s)
    (hpc : (s.threads s.current).pc = .killLoop k) : NotOwn (killLoop k s) := by
  have hlisted := h.listed s.current
  rw [hpc] at hlisted
  unfold Scheduler.killLoop
  dsimp only
  split
  · apply h.setPc rfl rfl
    · cases k with
      | thread code => exact nofun
      | caller code => exact fun _ => hlisted rfl
      | main code => exact nofun
    · cases k <;> rintro c k (hc | hc) <;> cases hc
  · rename_i child hlast
    have hne := h.child_ne hfamily hpc (List.mem_of_getLast? hlast)
    have hpop := h.setChildren (t := s.target s.current k)
      (f := fun i => { i with childThreads := i.childThreads.dropLast }) rfl rfl
      fun c hc => .inl ((List.dropLast_sublist _).subset hc)
    have habort := hpop.modify_same (t := child) (f := fun i => { i with abortPending := true })
      rfl rfl rfl
    -- the place of the running thread has not changed yet
    have hkeep : (((s.modify (s.target s.current k) fun i =>
        { i with childThreads := i.childThreads.dropLast }).modify child fun i =>
          { i with abortPending := true }).threads s.current).pc = .killLoop k :=
      ((modify_keeps ThreadInfo.pc rfl _).trans (modify_keeps ThreadInfo.pc rfl _)).trans hpc
    have hown := habort.listed s.current
    rw [hkeep] at hown
    refine habort.setPc rfl rfl (fun hin => hown ?_) fun c k' hc => ?_
    · cases k <;> exact hin
    · rcases hc with hc | hc
      · obtain ⟨rfl, rfl⟩ := Pc.killing.inj hc
        exact hne
      · cases hc

theorem NotOwn.act (h : NotOwn s) (hbase : Base s) (hfamily : Family s) (hclear : Clear s)
    (hok : ExitOk s .act) (hact : act s = some s') : NotOwn s' := by
  have hlisted := h.listed s.current
  have hheld := h.held s.current
  unfold Scheduler.act at hact
  dsimp only at hact
  cases hpc : (s.threads s.current).pc with
  | run => simp [hpc] at hact
  | sleeping | waiting =>
    obtain rfl : _ = s' := by simpa [hpc] using hact
    exact h.setPc_out rfl rfl rfl fun _ _ => ⟨nofun, nofun⟩
  | popped child =>
    obtain rfl : _ = s' := by simpa [hpc] using hact
    exact NotOwn.switchThread (h.setPc_out rfl rfl rfl fun _ _ => ⟨nofun, nofun⟩)
  | joining child =>
    simp only [hpc] at hact
    split at hact
    · obtain rfl := Option.some.inj hact
      have hdelete : NotOwn (s.delete child) := ⟨h.listed, h.held⟩
      exact hdelete.setPc_out rfl rfl rfl fun _ _ => ⟨nofun, nofun⟩
    · rename_i hrax
      obtain rfl := Option.some.inj hact
      have hpush := h.pushChild (t := (s.threads s.current).mainThread)
        fun _ => hok.putBack child rfl hpc hrax
      exact hpush.setPc_out rfl rfl rfl fun _ _ => ⟨nofun, nofun⟩
  | killLoop k =>
    obtain rfl : _ = s' := by simpa [hpc] using hact
    exact h.killLoop hfamily hpc
  | killing child k =>
    obtain rfl : _ = s' := by simpa [hpc] using hact
    rw [hpc] at hlisted hheld
    apply NotOwn.switchThread
    refine h.setPc rfl rfl (fun hin => hlisted ?_) fun c k' hc => ?_
    · cases k <;> exact hin
    · rcases hc with hc | hc
      · cases hc
      · obtain ⟨rfl, rfl⟩ := Pc.killJoin.inj hc
        exact hheld child k (.inl rfl)
  | killJoin child k =>
    have hrax := (hclear s.current).result child k hpc hbase.running.ready
    obtain rfl : _ = s' := by simpa only [hpc, hrax, if_true, Option.some.injEq] using hact
    rw [hpc] at hlisted
    have hjoined : NotOwn { s with joined := s.joined ++ [child] } := ⟨h.listed, h.held⟩
    refine hjoined.setPc rfl rfl (fun hin => hlisted ?_) fun c k' hc => ?_
    · cases k <;> exact hin
    · rcases hc with hc | hc <;> cases hc
  | finish k =>
    have hfinish : ∀ target code, NotOwn (finishExit target code s) := by
      intro target code
      have hown : NotOwn (s.modify s.current fun i =>
          { i with stickyCount := i.stickyCount + 1, pc := .run }) :=
        h.setPc_out rfl rfl rfl fun _ _ => ⟨nofun, nofun⟩
      have hrefs : NotOwn { s.modify s.current fun i =>
          { i with stickyCount := i.stickyCount + 1, pc := .run } with
          fdTables := s.fdTables.release (s.threads target).fds
          memSpaces := s.memSpaces.release (s.threads target).memSpace } := ⟨hown.listed, hown.held⟩
      exact NotOwn.threadYield (hrefs.modify_same rfl rfl rfl)
    cases k with
    | thread code =>
      obtain rfl : _ = s' := by simpa [hpc] using hact
      exact hfinish _ _
    | caller code => simp [hpc] at hact
    | main code =>
      obtain rfl : _ = s' := by simpa [hpc] using hact
      exact hfinish _ _

theorem NotOwn.requestExit {tid : Nat} (h : NotOwn s)
    (hf : ∀ i, (f i).mainThread = i.mainThread ∧ (f i).childThreads = i.childThreads ∧
      (f i).pc = i.pc) : NotOwn (requestExit tid f s).2 := by
  unfold Scheduler.requestExit
  dsimp only
  split
  · split
    · exact h
    · exact h.modify_same (hf _).1 (hf _).2.1 (hf _).2.2
  · exact h

theorem NotOwn.enterExit {code : UInt64} (h : NotOwn s) : NotOwn (enterExit (.thread code) s) :=
  h.setPc_out rfl rfl rfl fun _ _ => ⟨nofun, nofun⟩

theorem NotOwn.call {e : Event} (h : NotOwn s) (hbase : Base s) (hfamily : Family s)
    (hcurrent : s.current ≠ idleThread) (hok : ExitOk s e) (hcall : call s e = some s') :
    NotOwn s' := by
  cases e with
  | tick d b => cases hcall
  | act => cases hcall
  | createKernelThread =>
    obtain rfl := Option.some.inj hcall
    rw [createKernelThread_eq]
    apply (h.addThread hbase hfamily rfl).pushChild
    simp [State.addThread, newThread, Pc.inProcessExit]
  | cloneThread sub mem fd =>
    obtain rfl := Option.some.inj hcall
    rw [cloneThread_eq]
    apply (h.addThread hbase hfamily rfl).pushChild
    simp [State.addThread, newThread, Pc.inProcessExit]
  | threadYield =>
    obtain rfl := Option.some.inj hcall
    exact h.threadYield
  | threadSleep ticks =>
    obtain rfl := Option.some.inj hcall
    exact NotOwn.switchThread (h.setPc_out rfl rfl rfl fun _ _ => by simp)
  | lockWait =>
    obtain rfl := Option.some.inj hcall
    have hqueued : NotOwn (s.modify s.current fun i => { i with queued := true }) :=
      h.modify_same rfl rfl rfl
    exact NotOwn.switchThread (hqueued.setPc_out rfl rfl rfl fun _ _ => by simp)
  | unlockWake w =>
    simp only [Scheduler.call] at hcall
    split at hcall
    · obtain rfl := Option.some.inj hcall
      exact h.modify_same rfl rfl rfl
    · cases hcall
  | threadDetach tid =>
    obtain rfl := Option.some.inj hcall
    unfold threadDetach
    dsimp only
    split
    · rename_i hmem
      split
      · exact h
      · rename_i hself
        -- a detached thread is its own main thread, and not the init thread
        have hinit := hfamily.init_lt (hbase.lists.mains.not_idle _ hcurrent) hmem
        have herase : NotOwn (s.eraseChild (s.threads s.current).mainThread tid) := h.eraseChild
        refine herase.pushChild fun hmain => ?_
        rw [State.eraseChild, modify_keeps ThreadInfo.mainThread rfl] at hmain
        rw [not_not.1 hself] at hmain
        omega
    · exact h
  | threadJoin tid =>
    obtain rfl := Option.some.inj hcall
    unfold threadJoin
    dsimp only
    split
    · have herase : NotOwn (s.eraseChild (s.threads s.current).mainThread tid) := h.eraseChild
      exact herase.setPc_out (f := fun i => { i with pc := .popped tid }) rfl rfl rfl
        fun _ _ => by simp
    · exact h
  | threadTryJoin tid =>
    obtain rfl := Option.some.inj hcall
    unfold threadTryJoin
    dsimp only
    split
    · split
      · have herase : NotOwn (s.eraseChild (s.threads s.current).mainThread tid) := h.eraseChild
        exact ⟨herase.listed, herase.held⟩
      · exact h
    · exact h
  | threadKill tid | threadAbort tid =>
    obtain rfl := Option.some.inj hcall
    exact h.requestExit fun _ => ⟨rfl, rfl, rfl⟩
  | handleKill rip | setUser uid =>
    obtain rfl := Option.some.inj hcall
    exact h.modify_same rfl rfl rfl
  | threadExec =>
    obtain rfl := Option.some.inj hcall
    have hown : NotOwn (s.modify s.current fun i => { i with stickyCount := 0, userMode := true }) :=
      h.modify_same rfl rfl rfl
    unfold threadExec
    dsimp only
    split
    · exact ⟨hown.listed, hown.held⟩
    · have hspace := hown.modify_same (t := s.current)
        (f := fun i => { i with memSpace := s.memSpaces.next }) rfl rfl rfl
      exact ⟨hspace.listed, hspace.held⟩
  | threadCheckFlags =>
    obtain rfl := Option.some.inj hcall
    have hflag : NotOwn (s.modify s.current fun i => { i with killPending := false }) :=
      h.modify_same rfl rfl rfl
    unfold threadCheckFlags
    dsimp only
    split
    · split
      · split
        · exact hflag.enterExit
        · exact hflag
      · exact hflag.enterExit
    · split
      · exact h.enterExit
      · exact h
  | threadExit code =>
    obtain rfl := Option.some.inj hcall
    exact h.enterExit
  | processDoExit code =>
    obtain rfl := Option.some.inj hcall
    refine h.setPc rfl rfl (fun _ => (hok.processDoExit code rfl).2) fun c k hc => ?_
    rcases hc with hc | hc <;> cases hc

theorem NotOwn.step {e : Event} (h : NotOwn s) (hbase : Base s) (hfamily : Family s) (hclear : Clear s)
    (hok : ExitOk s e) (hstep : step s e = some s') : NotOwn s' := by
  obtain ⟨d, b, -, -, rfl⟩ | ⟨rfl, -, hact⟩ | ⟨hcurrent, -, hcall⟩ := step_cases hstep
  · exact h.tick hbase.lists
  · exact h.act hbase hfamily hclear hok hact
  · exact h.call hbase hfamily hcurrent hok hcall

/-! ## Joins complete -/

/-- The children that a call of `KillChildThreads` has still to join: those in the list, and the one
that is being joined. -/
def State.remaining (s : State) (t : Nat) (k : Exit) : Nat :=
  (s.threads (s.target t k)).childThreads.length +
    match (s.threads t).pc with
    | .killing _ _ | .killJoin _ _ => 1
    | _ => 0

/-- A blocked exiting thread whose child has exited is woken with OK. -/
theorem updateEvents_joined {c : Nat} {k : Exit} {d : Nat} (hlists : Lists s) (hclear : Clear s)
    (hpc : (s.threads t).pc = .killJoin c k) (hstate : (s.threads t).state = .join)
    (hexited : (s.threads c).state = .exited) :
    ((updateEvents d s).threads t).state = .ready ∧ ((updateEvents d s).threads t).rax = OK := by
  have hmem := hlists.blocked t (.inr (.inl hstate))
  have hpending := (hclear t).flags (by rw [hpc]; rfl)
  have harg : (s.threads t).arg = c := by
    obtain hplace | ⟨k', hplace⟩ := hlists.place t hstate
    · rw [hpc] at hplace
      cases hplace
    · rw [hpc] at hplace
      exact (Pc.killJoin.inj hplace).1.symm
  cases updateEvents_updated (d := d) hlists.nodup hmem with
  | joined _ _ _ hnew => rw [hnew]; exact ⟨rfl, rfl⟩
  | waits _ _ hnot _ =>
    rw [harg] at hnot
    exact absurd hexited hnot
  | interrupted _ hp _ =>
    rw [hpending] at hp
    cases hp
  | exited hs _ | finished hs _ | ready hs _ | queueLock hs _ | awoke hs _ _ | sleeps hs _ _ =>
    rw [hstate] at hs
    cases hs

/-- The thread that comes back from the join goes on without the child. -/
theorem act_reduces {c : Nat} {k : Exit} (hbase : Base s) (hclear : Clear s)
    (hpc : (s.threads s.current).pc = .killJoin c k) (hact : act s = some s') :
    (s'.threads s.current).pc = .killLoop k ∧ s'.remaining s.current k < s.remaining s.current k := by
  have hrax := (hclear s.current).result c k hpc hbase.running.ready
  unfold act at hact
  obtain rfl : _ = s' := by simpa only [hpc, hrax, if_true, Option.some.injEq] using hact
  have hpc' : (({ s with joined := s.joined ++ [c] }.modify s.current fun i =>
      { i with pc := .killLoop k }).threads s.current).pc = .killLoop k := by rw [modify_self]
  refine ⟨hpc', ?_⟩
  have hchildren : ∀ u, (({ s with joined := s.joined ++ [c] }.modify s.current fun i =>
      { i with pc := .killLoop k }).threads u).childThreads = (s.threads u).childThreads :=
    modify_keeps ThreadInfo.childThreads rfl
  have htarget : ({ s with joined := s.joined ++ [c] }.modify s.current fun i =>
      { i with pc := .killLoop k }).target s.current k = s.target s.current k := by
    unfold State.target
    rw [modify_keeps ThreadInfo.mainThread rfl]
  unfold State.remaining
  rw [hpc', htarget, hchildren, hpc]
  exact Nat.lt_succ_self _

/-- **Exits complete their joins.** In every state of a run that keeps to the condition: an exiting thread
that is blocked on a child that has exited is woken by the next `UpdateEvents` with the result OK; when
it goes on, it has one child less to join; and no thread inside of `KillChildThreads` joins itself. -/
theorem exit_completes_joins (s : State) (run : Runs step ExitOk initial s) :
    (∀ (t c : Nat) (k : Exit) (d : Nat), (s.threads t).pc = .killJoin c k →
      (s.threads t).state = .join → (s.threads c).state = .exited →
      ((updateEvents d s).threads t).state = .ready ∧ ((updateEvents d s).threads t).rax = OK) ∧
    (∀ (c : Nat) (k : Exit) (s' : State), (s.threads s.current).pc = .killJoin c k →
      step s .act = some s' → (s'.threads s.current).pc = .killLoop k ∧
        s'.remaining s.current k < s.remaining s.current k) ∧
    ∀ (t c : Nat) (k : Exit),
      (s.threads t).pc = .killing c k ∨ (s.threads t).pc = .killJoin c k → c ≠ t := by
  have hinv : Base s ∧ Family s ∧ Clear s ∧ NotOwn s := by
    refine run.inv (I := fun s => Base s ∧ Family s ∧ Clear s ∧ NotOwn s) ⟨base_initial,
      family_initial, fun _ => exitClear_of_not_inKill rfl, nofun, ?_⟩ ?_
    · rintro t c k (h | h) <;> cases h
    · rintro s e s' ⟨hbase, hfamily, hclear, hown⟩ hok hstep
      exact ⟨hbase.step hstep, hfamily.step hbase hstep, hclear.step hbase hok hstep,
        hown.step hbase hfamily hclear hok hstep⟩
  obtain ⟨hbase, hfamily, hclear, hown⟩ := hinv
  refine ⟨fun t c k d => updateEvents_joined hbase.lists hclear, fun c k s' hpc hstep => ?_, hown.held⟩
  obtain ⟨d, b, he, -, -⟩ | ⟨-, -, hact⟩ | ⟨-, hrun, -⟩ := step_cases hstep
  · cases he
  · exact act_reduces hbase hclear hpc hact
  · rw [hpc] at hrun
    cases hrun

/-- The condition as a test. -/
def exitOk (s : State) : Event → Bool
  | .threadExit _ => !(s.threads s.current).pending
  | .processDoExit _ => !(s.threads s.current).pending &&
      decide (s.current ∉ (s.threads (s.threads s.current).mainThread).childThreads)
  | .threadCheckFlags => !(s.threads s.current).abortPending
  | .threadKill tid | .threadAbort tid => !(s.threads tid).pc.inKill
  | .act => match (s.threads s.current).pc with
    | .killLoop k => match (s.threads (s.target s.current k)).childThreads.getLast? with
      | some child => !(s.threads child).pc.inKill
      | none => true
    | .joining child => decide ((s.threads s.current).rax = OK) ||
        !(s.threads child).pc.inProcessExit
    | _ => true
  | _ => true

theorem exitOk_sound (s : State) (e : Event) (h : exitOk s e = true) : ExitOk s e where
  threadExit code he := by
    subst he
    simpa [exitOk] using h
  processDoExit code he := by
    subst he
    simpa [exitOk] using h
  checkFlags he := by
    subst he
    simpa [exitOk] using h
  request tid he := by
    rcases he with rfl | rfl <;> simpa [exitOk] using h
  kill k child he hpc hlast := by
    subst he
    simpa [exitOk, hpc, hlast] using h
  putBack child he hpc hrax := by
    subst he
    simpa [exitOk, hpc, hrax] using h

/-- Thread 2 exits with nothing pending and blocks on its child, which has exited. -/
theorem exit_completes_joins_child : ∃ s, Runs step ExitOk initial s ∧
    (s.threads 2).pc = .killJoin 3 (.thread 0) ∧
    ((updateEvents 0 s).threads 2).state = .ready ∧ ((updateEvents 0 s).threads 2).rax = OK := by
  have hrun : (exec (fun s e => if exitOk s e then step s e else none)
      (exitedSubthread ++ [.tick 0 false, .threadExit 0, .act, .act]) initial).map
        (fun s => ((s.threads 2).pc, (s.threads 2).state, (s.threads 3).state)) =
      some (.killJoin 3 (.thread 0), .join, .exited) := by decide +kernel
  obtain ⟨s, hs, hproj⟩ := Option.map_eq_some_iff.1 hrun
  simp only [Prod.mk.injEq] at hproj
  obtain ⟨hpc, hstate, hexited⟩ := hproj
  have hruns : Runs step ExitOk initial s := runs_of_checks exitOk_sound _ hs
  have hjoined := (exit_completes_joins s hruns).1 2 3 (.thread 0) 0 hpc hstate hexited
  exact ⟨s, hruns, hpc, hjoined.1, hjoined.2⟩

/-- A thread that exits with an abort pending, as at the end of a system call, is interrupted although
its child has exited; and a subthread that calls `ProcessDoExit` blocks on itself. -/
theorem aborted_exit_interrupted :
    (∃ s, Runs step (fun _ _ => True) initial s ∧
      (s.threads 2).pc = .killJoin 3 (.thread 1) ∧ (s.threads 2).state = .join ∧
      (s.threads 3).state = .exited ∧ ((updateEvents 0 s).threads 2).rax = ErrorInterrupted) ∧
    ∃ s, Runs step (fun _ _ => True) initial s ∧
      (s.threads 3).pc = .killJoin 3 (.main 0) ∧ (s.threads 3).state = .join ∧
      (s.threads 3).arg = 3 := by
  constructor
  · have hrun : (exec step (exitedSubthread ++
        [.threadAbort 2, .tick 0 false, .threadCheckFlags, .act, .act]) initial).map
          (fun s => ((s.threads 2).pc, (s.threads 2).state, (s.threads 3).state,
            ((updateEvents 0 s).threads 2).rax)) =
        some (.killJoin 3 (.thread 1), .join, .exited, ErrorInterrupted) := by decide +kernel
    obtain ⟨s, hs, hproj⟩ := Option.map_eq_some_iff.1 hrun
    simp only [Prod.mk.injEq] at hproj
    exact ⟨s, runs_of_exec _ hs, hproj⟩
  · have hrun : (exec step (runningSubthread ++ [.processDoExit 0, .act, .act, .act]) initial).map
        (fun s => ((s.threads 3).pc, (s.threads 3).state, (s.threads 3).arg)) =
        some (.killJoin 3 (.main 0), .join, 3) := by decide +kernel
    obtain ⟨s, hs, hproj⟩ := Option.map_eq_some_iff.1 hrun
    simp only [Prod.mk.injEq] at hproj
    exact ⟨s, runs_of_exec _ hs, hproj⟩

end ChenixOS.Scheduler
