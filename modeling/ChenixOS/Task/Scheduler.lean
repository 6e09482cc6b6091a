import ChenixOS.Lib.RefCount
import ChenixOS.Lib.Transitions
import ChenixOS.Task.Thread
import Mathlib.Tactic.Simps.Basic

/-!
# The scheduler of one core

Threads, their states and the calls that change them (task/Scheduler.cpp), on one core. A thread is
named by its tid. An event is what the running thread does up to the next point where the timer may
interrupt it, or the timer's tick.

**Places.** A call that blocks is cut at `ThreadBlock`: the thread's `pc` says what it goes on with when
it is selected again. `KillChildThreads` is a loop over such blocks.

**Registers.** Of the saved registers, the model has the privilege level of `cs`, the return value in
`rax`, and `rip` as the `pc`. The saved registers of the running thread are those of its last switch:
what `UpdateEvents` does to them is overwritten when `Tick` saves the thread.
-/

namespace ChenixOS.Scheduler

/-- The idle thread. -/
def idleThread : Nat := 0

/-- `g_InitThread` -/
def initThread : Nat := 1

def ErrorThreadNotFound : Int := -100
def ErrorDetachSubThread : Int := -101
def ErrorThreadNotExited : Int := -102
def ErrorPermissionDenied : Int := -5

/-- Whose call of `KillChildThreads` it is. -/
inductive Exit
  /-- `ThreadExit(code)`, on the caller. -/
  | thread (code : UInt64)
  /-- `ProcessDoExit(code)`, on the caller. -/
  | caller (code : UInt64)
  /-- `ProcessDoExit(code)`, on the caller's main thread. -/
  | main (code : UInt64)
  deriving DecidableEq

/-- Where a thread goes on. -/
inductive Pc
  /-- In its own program, or at the end of a call. -/
  | run
  /-- In `ThreadBlock(SLEEP, ..)`. -/
  | sleeping
  /-- In `ThreadBlock(QUEUE_LOCK, 0)`. -/
  | waiting
  /-- In `ThreadJoin`, with the child out of the list, before `ThreadBlock`. -/
  | popped (child : Nat)
  /-- In `ThreadJoin`, in `ThreadBlock`. -/
  | joining (child : Nat)
  /-- In `KillChildThreads`, at the head of the loop. -/
  | killLoop (k : Exit)
  /-- In `KillChildThreads`, with the child out of the list, before `ThreadBlock`. -/
  | killing (child : Nat) (k : Exit)
  /-- In `KillChildThreads`, in `ThreadBlock`. -/
  | killJoin (child : Nat) (k : Exit)
  /-- After `KillChildThreads`. -/
  | finish (k : Exit)
  deriving DecidableEq

structure ThreadInfo where
  mainThread : Nat
  childThreads : List Nat
  uid : UInt64
  exitCode : UInt64
  killPending : Bool
  killHandlerRip : UInt64
  abortPending : Bool
  memSpace : Nat
  fds : Nat
  state : ThreadState
  arg : Nat
  stickyCount : Nat
  /-- The privilege level in the saved `cs`. -/
  userMode : Bool
  /-- The saved return value of `ThreadBlock`. -/
  rax : UInt64
  /-- The thread has an entry in the queue of a `QueueLock`. -/
  queued : Bool
  pc : Pc

/-- The last three fields are not in the source: the threads that were deleted, those whose join was
completed, and those that `FindNextThread` returned, each in order. -/
structure State where
  threads : Nat → ThreadInfo
  activeList : List Nat
  globalList : List Nat
  current : Nat
  nextTid : Nat
  memSpaces : RefCounts
  fdTables : RefCounts
  deleted : List Nat
  joined : List Nat
  selected : List Nat

/-- What `CreateKernelThread` and `CloneThread` fill in the same way. -/
def newThread (mainThread : Nat) (uid : UInt64) (memSpace fds : Nat) (userMode : Bool) : ThreadInfo where
  mainThread := mainThread
  childThreads := []
  uid := uid
  exitCode := 0
  killPending := false
  killHandlerRip := 0
  abortPending := false
  memSpace := memSpace
  fds := fds
  state := .ready
  arg := 0
  stickyCount := 0
  userMode := userMode
  rax := 0
  queued := false
  pc := .run

/-- After `MakeMeIdleThread` and `CreateInitKernelThread`: every thread, memory space and descriptor
table is named by its number of creation. -/
def initial : State where
  threads t := newThread t 0 t t false
  activeList := [initThread]
  globalList := [initThread]
  current := idleThread
  nextTid := 2
  memSpaces := ⟨fun i => if i < 2 then 1 else 0, 2, []⟩
  fdTables := ⟨fun i => if i < 2 then 1 else 0, 2, []⟩
  deleted := []
  joined := []
  selected := []

/-- Change the record of one thread. -/
@[simps]
def State.modify (s : State) (t : Nat) (f : ThreadInfo → ThreadInfo) : State :=
  { s with threads := Function.update s.threads t (f (s.threads t)) }

/-- `childThreads.push_back` -/
def State.pushChild (s : State) (t child : Nat) : State :=
  s.modify t fun i => { i with childThreads := i.childThreads ++ [child] }

/-- `childThreads.erase` -/
def State.eraseChild (s : State) (t child : Nat) : State :=
  s.modify t fun i => { i with childThreads := i.childThreads.erase child }

/-! ## Switching -/

/-- What `UpdateEvents` does to a thread in state READY, by its saved registers; `current` says that
these are overwritten afterwards. -/
def ThreadInfo.deliver (current : Bool) (i : ThreadInfo) : ThreadInfo :=
  let toExit (i : ThreadInfo) : ThreadInfo :=
    if current then i else { i with userMode := false, pc := .killLoop (.thread 1) }
  if i.userMode then
    let i := if i.killPending then
        let i := { i with killPending := false }
        if i.killHandlerRip != 0 then i else toExit i
      else i
    if i.abortPending then toExit { i with abortPending := false } else i
  else i

/-- The body of the loop of `UpdateEvents`. -/
def updateEvent (dur : Nat) (s : State) (t : Nat) : State :=
  let i := s.threads t
  match i.state with
  | .exited => s
  | .finished =>
    { s.modify t fun i => { i with state := .exited } with activeList := s.activeList.erase t }
  | .ready => s.modify t (ThreadInfo.deliver (t = s.current))
  | .queueLock => s
  | .sleep =>
    if i.killPending || i.abortPending then
      s.modify t fun i => { i with state := .ready, rax := ErrorInterrupted }
    else if i.arg ≤ dur then s.modify t fun i => { i with state := .ready, rax := OK }
    else s.modify t fun i => { i with arg := i.arg - dur }
  | .join =>
    if i.killPending || i.abortPending then
      s.modify t fun i => { i with state := .ready, rax := ErrorInterrupted }
    else if (s.threads i.arg).state = .exited then
      s.modify t fun i => { i with state := .ready, rax := 0 }
    else s

/-- `UpdateEvents`; the iterator is moved on before a thread is erased. -/
def updateEvents (dur : Nat) (s : State) : State := s.activeList.foldl (updateEvent dur) s

/-- `FindNextThread`: the first ready thread, which moves to the back, or the idle thread. -/
def findNextThread (s : State) : Nat × State :=
  match s.activeList.find? fun t => (s.threads t).state = .ready with
  | some t => (t, { s with
      activeList := s.activeList.erase t ++ [t]
      selected := s.selected ++ [t] })
  | none => (idleThread, { s with selected := s.selected ++ [idleThread] })

/-- The second half of `ThreadBlock` and `ThreadYield`: save the running thread in kernel mode and go
on with the next one. -/
def switchThread (s : State) : State :=
  let next := findNextThread s
  { next.2.modify s.current fun i => { i with userMode := false } with current := next.1 }

/-- `ThreadBlock`; the running thread is to go on at `pc`. -/
def threadBlock (type : ThreadState) (arg : Nat) (pc : Pc) (s : State) : State :=
  switchThread (s.modify s.current fun i => { i with arg := arg, state := type, pc := pc })

/-- `ThreadYield` -/
def threadYield (s : State) : State :=
  if (findNextThread s).1 = s.current then (findNextThread s).2 else switchThread s

/-- `Tick`; `userMode` is the privilege level in which the running thread was interrupted. -/
def tick (dur : Nat) (userMode : Bool) (s : State) : State :=
  if (s.threads s.current).stickyCount ≠ 0 then s
  else
    let next := findNextThread (updateEvents dur s)
    { next.2.modify s.current fun i => { i with userMode := userMode } with current := next.1 }

/-! ## Calls of the running thread -/

/-- The end of a call that returns to the program. -/
def return_ (s : State) : State := s.modify s.current fun i => { i with pc := .run }

/-- `CreateKernelThread` -/
def createKernelThread (s : State) : State :=
  let t := s.nextTid
  let s' := { s with
    threads := Function.update s.threads t (newThread t 0 s.memSpaces.next s.fdTables.next false)
    memSpaces := s.memSpaces.new
    fdTables := s.fdTables.new
    activeList := s.activeList ++ [t]
    globalList := s.globalList ++ [t]
    nextTid := t + 1 }
  s'.pushChild initThread t

/-- The object of a clone: the caller's, with one more reference, or a new one. -/
def shareOrNew (share : Bool) (own : Nat) (r : RefCounts) : Nat × RefCounts :=
  if share then (own, r.addRef own) else (r.next, r.new)

/-- `CloneThread` -/
def cloneThread (subthread shareMemSpace shareFDs : Bool) (s : State) : State :=
  let i := s.threads s.current
  let t := s.nextTid
  let memSpace := shareOrNew shareMemSpace i.memSpace s.memSpaces
  let fds := shareOrNew shareFDs i.fds s.fdTables
  let s' := { s with
    threads := Function.update s.threads t
      (newThread (if subthread then i.mainThread else t) i.uid memSpace.1 fds.1 true)
    memSpaces := memSpace.2
    fdTables := fds.2
    activeList := s.activeList ++ [t]
    globalList := s.globalList ++ [t]
    nextTid := t + 1 }
  s'.pushChild i.mainThread t

/-- `ThreadDetach` -/
def threadDetach (tid : Nat) (s : State) : Int × State :=
  let mainThread := (s.threads s.current).mainThread
  if tid ∈ (s.threads mainThread).childThreads then
    if (s.threads tid).mainThread ≠ tid then (ErrorDetachSubThread, s)
    else (0, (s.eraseChild mainThread tid).pushChild initThread tid)
  else (ErrorThreadNotFound, s)

/-- `ThreadJoin`, up to `ThreadBlock`; `none` if it goes on to block. -/
def threadJoin (tid : Nat) (s : State) : Option Int × State :=
  let mainThread := (s.threads s.current).mainThread
  if tid ∈ (s.threads mainThread).childThreads then
    (none, (s.eraseChild mainThread tid).modify s.current fun i => { i with pc := .popped tid })
  else (some ErrorThreadNotFound, s)

/-- Take a joined thread out of the global list and delete it. -/
def State.delete (s : State) (t : Nat) : State :=
  { s with
    globalList := s.globalList.erase t
    deleted := s.deleted ++ [t]
    joined := s.joined ++ [t] }

/-- `ThreadTryJoin` -/
def threadTryJoin (tid : Nat) (s : State) : Int × State :=
  let mainThread := (s.threads s.current).mainThread
  if tid ∈ (s.threads mainThread).childThreads then
    if (s.threads tid).state = .exited then (0, (s.eraseChild mainThread tid).delete tid)
    else (ErrorThreadNotExited, s)
  else (ErrorThreadNotFound, s)

/-- The search and the test of `ThreadKillSig` and `ThreadAbort`, and the flag they set. -/
def requestExit (tid : Nat) (set : ThreadInfo → ThreadInfo) (s : State) : Int × State :=
  let uid := (s.threads s.current).uid
  if tid ∈ s.globalList then
    if uid ≠ 0 ∧ uid ≠ (s.threads tid).uid then (ErrorPermissionDenied, s)
    else (0, s.modify tid set)
  else (ErrorThreadNotFound, s)

/-- `ThreadKillSig` -/
def threadKill (tid : Nat) : State → Int × State :=
  requestExit tid fun i => { i with killPending := true }

/-- `ThreadAbort` -/
def threadAbort (tid : Nat) : State → Int × State :=
  requestExit tid fun i => { i with abortPending := true }

/-- `ThreadExec`: the last user of a memory space keeps its record, another one gets a new one. The
thread goes on in user mode, and its sticky count is reset. -/
def threadExec (s : State) : State :=
  let own := (s.threads s.current).memSpace
  let count := RefCounts.dec (s.memSpaces.count own)
  let s := s.modify s.current fun i => { i with stickyCount := 0, userMode := true }
  if count = 0 then
    { s with memSpaces := { s.memSpaces with count := Function.update s.memSpaces.count own 1 } }
  else
    let memSpaces := { s.memSpaces with count := Function.update s.memSpaces.count own count }
    { s.modify s.current fun i => { i with memSpace := s.memSpaces.next } with
      memSpaces := memSpaces.new }

/-- The running thread enters `KillChildThreads`. -/
def enterExit (k : Exit) (s : State) : State :=
  s.modify s.current fun i => { i with pc := .killLoop k }

/-- `ThreadCheckFlags`, at the end of a system call. With a handler the thread goes on in its program;
`ThreadExit` does not return. -/
def threadCheckFlags (s : State) : State :=
  let i := s.threads s.current
  if i.killPending then
    let s := s.modify s.current fun i => { i with killPending := false }
    if i.killHandlerRip != 0 then
      if i.abortPending then enterExit (.thread 1) s else s
    else enterExit (.thread 1) s
  else if i.abortPending then enterExit (.thread 1) s
  else s

/-! ## Inside of the calls -/

/-- The thread whose children a call of `KillChildThreads` kills. -/
def Exit.target (caller main : Nat) : Exit → Nat
  | .thread _ | .caller _ => caller
  | .main _ => main

def State.target (s : State) (t : Nat) (k : Exit) : Nat := k.target t (s.threads t).mainThread

/-- The head of the loop of `KillChildThreads`. -/
def killLoop (k : Exit) (s : State) : State :=
  let target := s.target s.current k
  match (s.threads target).childThreads.getLast? with
  | none =>
    s.modify s.current fun i => { i with
      pc := match k with
        | .thread code => .finish (.thread code)
        | .caller code => .killLoop (.main code)
        | .main code => .finish (.main code) }
  | some child =>
    let s := s.modify target fun i => { i with childThreads := i.childThreads.dropLast }
    let s := s.modify child fun i => { i with abortPending := true }
    s.modify s.current fun i => { i with pc := .killing child k }

/-- The end of `ThreadExit` and `ProcessDoExit`: give back the references of the target, which is
finished, and yield. `ProcessDoExit` leaves the caller sticky. -/
def finishExit (target : Nat) (code : UInt64) (s : State) : State :=
  let i := s.threads target
  let s := s.modify s.current fun i => { i with stickyCount := i.stickyCount + 1, pc := .run }
  threadYield ({ s with
    fdTables := s.fdTables.release i.fds
    memSpaces := s.memSpaces.release i.memSpace }.modify target fun i =>
      { i with exitCode := code, state := .finished })

/-- The running thread goes on inside of a call. -/
def act (s : State) : Option State :=
  let i := s.threads s.current
  match i.pc with
  | .run => none
  | .sleeping | .waiting => some (return_ s)
  | .popped child => some (threadBlock .join child (.joining child) s)
  | .joining child =>
    if i.rax = OK then some (return_ (s.delete child))
    else some (return_ (s.pushChild i.mainThread child))
  | .killLoop k => some (killLoop k s)
  | .killing child k => some (threadBlock .join child (.killJoin child k) s)
  | .killJoin child k =>
    let s' := if i.rax = OK then { s with joined := s.joined ++ [child] }
      else s.pushChild (s.target s.current k) child
    some (s'.modify s.current fun i => { i with pc := .killLoop k })
  | .finish (.thread code) => some (finishExit s.current code s)
  | .finish (.main code) => some (finishExit i.mainThread code s)
  | .finish (.caller _) => none

/-! ## Steps -/

inductive Event
  | tick (dur : Nat) (userMode : Bool)
  | createKernelThread
  | cloneThread (subthread shareMemSpace shareFDs : Bool)
  | threadYield
  | threadSleep (ticks : Nat)
  /-- `QueueLock::Lock`, when it has to wait. -/
  | lockWait
  /-- `QueueLock::Unlock`, when `w` is the first in the queue. -/
  | unlockWake (w : Nat)
  | threadDetach (tid : Nat)
  | threadJoin (tid : Nat)
  | threadTryJoin (tid : Nat)
  | threadKill (tid : Nat)
  | threadAbort (tid : Nat)
  /-- `syscall_handle_kill` -/
  | handleKill (rip : UInt64)
  | setUser (uid : UInt64)
  | threadExec
  | threadCheckFlags
  | threadExit (code : UInt64)
  | processDoExit (code : UInt64)
  /-- The thread goes on inside of a call. -/
  | act

/-- A call by the program of the running thread. -/
def call (s : State) : Event → Option State
  | .createKernelThread => some (createKernelThread s)
  | .cloneThread sub mem fds => some (cloneThread sub mem fds s)
  | .threadYield => some (threadYield s)
  | .threadSleep ticks => some (threadBlock .sleep ticks .sleeping s)
  | .lockWait =>
    some (threadBlock .queueLock 0 .waiting (s.modify s.current fun i => { i with queued := true }))
  | .unlockWake w =>
    if (s.threads w).queued then
      some (s.modify w fun i => { i with queued := false, rax := 0, state := .ready })
    else none
  | .threadDetach tid => some (threadDetach tid s).2
  | .threadJoin tid => some (threadJoin tid s).2
  | .threadTryJoin tid => some (threadTryJoin tid s).2
  | .threadKill tid => some (threadKill tid s).2
  | .threadAbort tid => some (threadAbort tid s).2
  | .handleKill rip => some (s.modify s.current fun i => { i with killHandlerRip := rip })
  | .setUser uid => some (s.modify s.current fun i => { i with uid := uid })
  | .threadExec => some (threadExec s)
  | .threadCheckFlags => some (threadCheckFlags s)
  | .threadExit code => some (enterExit (.thread code) s)
  | .processDoExit code => some (enterExit (.caller code) s)
  | .tick _ _ | .act => none

/-- One step of the core. The idle thread calls nothing; only a program runs in user mode. -/
def step (s : State) (e : Event) : Option State :=
  let pc := (s.threads s.current).pc
  match e with
  | .tick dur userMode => if userMode && pc ≠ .run then none else some (tick dur userMode s)
  | .act => if s.current = idleThread then none else act s
  | e => if s.current ≠ idleThread ∧ pc = .run then call s e else none

end ChenixOS.Scheduler
