import ChenixOS.Lib.Transitions
import ChenixOS.Task.Thread

/-!
# Kill handlers

A thread with a kill handler (task/Scheduler.cpp, syscalls/SyscallHandler.asm). A kill is delivered by
`UpdateEvents`, to the saved registers of a thread in user mode, or by `ThreadCheckFlags`, to the frame
of a system call that returns. Both save the registers they interrupt in `killHandlerReturnState`, which
`syscall_finish_kill` resumes.

**Where it goes wrong.** There is one `killHandlerReturnState`: a kill that is delivered while a handler
runs overwrites it. `UpdateEvents` also delivers to the running thread, whose saved registers are old. And
`SyscallEntry` pushes `rdi` and `rbx` in the other order than `SyscallState` has them, so a delivery at
the return of a system call saves `rdi` in the place of `rbx`.
-/

namespace ChenixOS.Scheduler.KillHandler

open Transitions

/-! ## System calls -/

/-- `SyscallState` -/
structure SyscallState where
  userrip : UInt64
  userrsp : UInt64
  userrbp : UInt64
  userflags : UInt64
  userrdi : UInt64
  userrbx : UInt64
  userr12 : UInt64
  userr13 : UInt64
  userr14 : UInt64
  userr15 : UInt64

/-- `SyscallEntry`: the words it pushes, `r15`, `r14`, `r13`, `r12`, `rdi`, `rbx`, `r11`, `rbp`, `r10`,
`rcx`, read as a `SyscallState` from the last one on. The instruction has put `rip` into `rcx` and the
flags into `r11`; `r10` is the stack pointer. -/
def syscallEntry (u : Registers) : SyscallState where
  userrip := u .rip
  userrsp := u .userrsp
  userrbp := u .rbp
  userflags := u .rflags
  -- `rdi` is pushed before `rbx`
  userrdi := u .rbx
  userrbx := u .rdi
  userr12 := u .r12
  userr13 := u .r13
  userr14 := u .r14
  userr15 := u .r15

/-- The end of `SyscallEntry`: the words are popped into `rcx`, `r10`, `rbp`, `r11`, `rbx`, `rdi`, `r12`,
`r13`, `r14`, `r15`. The other registers are as the call has left them. -/
def syscallExit (state : SyscallState) (retVal : UInt64) (rest : Registers) : Registers
  | .rip | .rcx => state.userrip
  | .userrsp | .r10 => state.userrsp
  | .rbp => state.userrbp
  | .rflags | .r11 => state.userflags
  | .rbx => state.userrdi
  | .rdi => state.userrbx
  | .r12 => state.userr12
  | .r13 => state.userr13
  | .r14 => state.userr14
  | .r15 => state.userr15
  | .rax => retVal
  | .cs => GDT.UserCode
  | .ss => GDT.UserData
  | r => rest r

/-- The registers that `SetupKillHandlerFromSyscall` saves. -/
def returnState (state : SyscallState) (retVal : UInt64) : Registers
  | .ds => GDT.UserData
  | .r15 => state.userr15
  | .r14 => state.userr14
  | .r13 => state.userr13
  | .r12 => state.userr12
  | .rbp => state.userrbp
  | .rbx => state.userrbx
  | .rax => retVal
  | .rip => state.userrip
  | .cs => GDT.UserCode
  | .rflags => state.userflags
  | .userrsp => state.userrsp
  | .ss => GDT.UserData
  | _ => 0

/-- `SetupKillHandlerFromSyscall`; `none` if it calls `ThreadExit`, which does not return. -/
def setupKillHandlerFromSyscall (t : KillState) (state : SyscallState) (retVal : UInt64) :
    Option (KillState × SyscallState) :=
  if t.killHandlerRip != 0 then
    some ({ t with killHandlerReturnState := returnState state retVal },
      { state with
        userrip := t.killHandlerRip
        userrsp := t.killHandlerRsp
        userrdi := t.killHandlerSignum })
  else none

/-- `ThreadCheckFlags` -/
def threadCheckFlags (t : KillState) (state : SyscallState) (retVal : UInt64) :
    Option (KillState × SyscallState) := do
  let (t, state) ← if t.killPending then
      setupKillHandlerFromSyscall { t with killPending := false } state retVal
    else some (t, state)
  if t.abortPending then none else some (t, state)

/-! ## The thread -/

/-- Where the thread is, with the registers of its program. -/
inductive Place
  /-- It runs its program. -/
  | user (u : Registers)
  /-- It was interrupted in its program. -/
  | preempted (u : Registers)
  /-- It runs in a system call. -/
  | syscall (u : Registers)
  /-- It was interrupted in a system call, or blocks there. -/
  | suspended (u : Registers)

/-- What a delivery has interrupted. -/
inductive Context
  | tick (u : Registers)
  /-- The registers at the system call, and its result. -/
  | syscall (u : Registers) (result : UInt64)

/-- The last field is not in the source: what was interrupted by the deliveries whose handlers have not
finished, the last one first. -/
structure State where
  thread : KillState
  place : Place
  contexts : List Context

inductive Event
  /-- `ThreadKillSig`, by any thread. -/
  | threadKillSig (signum : UInt64)
  /-- The program runs. -/
  | program (u : Registers)
  /-- `Tick`; `regs` are the registers of a thread that it interrupts in the kernel, or the result with
  which it wakes a thread that blocks; `next` says that the thread is selected. -/
  | tick (regs : Registers) (next : Bool)
  /-- Another thread yields or blocks, and the thread is selected. -/
  | select
  /-- `ThreadBlock` or `ThreadYield` in a system call. -/
  | block (regs : Registers)
  /-- `SyscallEntry` -/
  | syscallEntry
  /-- The return of a system call. -/
  | syscallReturn (retVal : UInt64) (rest : Registers)
  /-- `syscall_finish_kill` -/
  | finishKill

/-- `UpdateEvents` sets up the kill handler. -/
def delivers (t : KillState) : Bool := !kernelMode t.registers && t.killPending

/-- `Tick`. A thread that runs is saved after `UpdateEvents`. -/
def tick (threadExit : UInt64) (regs : Registers) (next : Bool) (s : State) : Option State :=
  let t := deliver threadExit s.thread
  match s.place with
  | .user u => some { s with
      thread := { t with registers := u }
      place := if next then .user u else .preempted u }
  | .preempted u => some { s with
      thread := t
      place := if next then .user t.registers else .preempted t.registers
      contexts := if delivers s.thread then .tick u :: s.contexts else s.contexts }
  | .syscall u =>
    if kernelMode regs then
      some { s with
        thread := { t with registers := regs }
        place := if next then .syscall u else .suspended u }
    else none
  | .suspended u => some { s with
      thread := { t with registers := Function.update t.registers .rax (regs .rax) }
      place := if next then .syscall u else .suspended u }

def step (threadExit : UInt64) (s : State) : Event → Option State
  | .threadKillSig signum => some { s with
      thread := { s.thread with killPending := true, killHandlerSignum := signum } }
  | .program u =>
    match s.place with
    | .user _ => some { s with place := .user u }
    | _ => none
  | .tick regs next => tick threadExit regs next s
  | .select =>
    match s.place with
    | .preempted _ => some { s with place := .user s.thread.registers }
    | .suspended u => some { s with place := .syscall u }
    | _ => none
  | .block regs =>
    match s.place with
    | .syscall u =>
      if kernelMode regs then
        some { s with thread := { s.thread with registers := regs }, place := .suspended u }
      else none
    | _ => none
  | .syscallEntry =>
    match s.place with
    | .user u => some { s with place := .syscall u }
    | _ => none
  | .syscallReturn retVal rest =>
    match s.place with
    | .syscall u => (threadCheckFlags s.thread (syscallEntry u) retVal).map fun (t, state) =>
        { thread := t
          place := .user (syscallExit state retVal rest)
          contexts := if s.thread.killPending then .syscall u retVal :: s.contexts else s.contexts }
    | _ => none
  | .finishKill =>
    match s.place with
    | .syscall _ => some {
        thread := { s.thread with registers := s.thread.killHandlerReturnState }
        place := .user s.thread.killHandlerReturnState
        contexts := s.contexts.tail }
    | _ => none

/-- The thread runs its program, with a kill handler, and no handler is running. -/
structure Start (s : State) : Prop where
  runs : ∃ u, s.place = .user u
  handler : s.thread.killHandlerRip ≠ 0
  abort : s.thread.abortPending = false
  contexts : s.contexts = []

/-! ## What is resumed -/

/-- The registers that a function keeps. -/
def calleeSaved : List Reg := [.rbx, .rbp, .r12, .r13, .r14, .r15]

/-- A program that goes on with the registers `r` goes on where it was interrupted. -/
def Context.Resumed : Context → Registers → Prop
  | .tick u, r => r = u
  | .syscall u result, r =>
    r .rax = result ∧ ∀ x ∈ calleeSaved ++ [.rip, .userrsp, .rflags], r x = u x

/-- **The condition.** No kill is delivered while a handler runs; and one that is delivered at the return
of a system call finds `rbx` and `rdi` equal. -/
structure KillOk (s : State) (e : Event) : Prop where
  tick : ∀ regs next, e = .tick regs next → delivers s.thread = true → s.contexts = []
  syscallReturn : ∀ retVal rest u, e = .syscallReturn retVal rest → s.place = .syscall u →
    s.thread.killPending = true → s.contexts = [] ∧ u .rbx = u .rdi

structure Inv (s : State) : Prop where
  handler : s.thread.killHandlerRip ≠ 0
  abort : s.thread.abortPending = false
  saved : ∀ u, s.place = .preempted u → s.thread.registers = u
  kernel : ∀ u, s.place = .suspended u → kernelMode s.thread.registers = true
  slot : ∀ c ∈ s.contexts, c.Resumed s.thread.killHandlerReturnState

variable {threadExit : UInt64} {s s' : State}

theorem Start.inv (h : Start s) : Inv s where
  handler := h.handler
  abort := h.abort
  saved u hu := by
    obtain ⟨v, hv⟩ := h.runs
    rw [hv] at hu
    cases hu
  kernel u hu := by
    obtain ⟨v, hv⟩ := h.runs
    rw [hv] at hu
    cases hu
  slot c hc := by
    rw [h.contexts] at hc
    cases hc

/-- **`UpdateEvents`** on a thread with a handler and no abort. -/
theorem deliver_cases (threadExit : UInt64) {t : KillState} (hhandler : t.killHandlerRip ≠ 0)
    (habort : t.abortPending = false) :
    delivers t = false ∧ deliver threadExit t = t ∨
    delivers t = true ∧ deliver threadExit t = { t with
      killPending := false
      killHandlerReturnState := t.registers
      registers := handlerRegisters t } := by
  cases hk : kernelMode t.registers <;> cases hp : t.killPending
  · exact .inl ⟨by simp [delivers, hp], by simp [deliver, hk, hp, habort]⟩
  · refine .inr ⟨by simp [delivers, hk, hp], ?_⟩
    simp only [deliver, hk, hp, setupKillHandlerFromTick, bne_iff_ne, ne_eq, hhandler, not_false_iff,
      if_true, habort, Bool.false_eq_true, if_false]
    rfl
  · exact .inl ⟨by simp [delivers, hk], by simp [deliver, hk]⟩
  · exact .inl ⟨by simp [delivers, hk], by simp [deliver, hk]⟩

theorem kernelMode_rax {regs : Registers} {v : UInt64} :
    kernelMode (Function.update regs .rax v) = kernelMode regs := by
  simp [kernelMode, Function.update_of_ne]

/-- What the slot holds is kept if nothing is delivered, or if no handler runs. -/
theorem Inv.slot_deliver (threadExit : UInt64) (h : Inv s)
    (hok : delivers s.thread = true → s.contexts = []) :
    ∀ c ∈ s.contexts, c.Resumed (deliver threadExit s.thread).killHandlerReturnState := by
  intro c hc
  rcases deliver_cases threadExit h.handler h.abort with ⟨-, hsame⟩ | ⟨hd, -⟩
  · rw [hsame]
    exact h.slot c hc
  · rw [hok hd] at hc
    cases hc

theorem Inv.deliver_handler (h : Inv s) : (deliver threadExit s.thread).killHandlerRip ≠ 0 := by
  rcases deliver_cases threadExit h.handler h.abort with ⟨-, he⟩ | ⟨-, he⟩ <;> rw [he] <;>
    exact h.handler

theorem Inv.deliver_abort (h : Inv s) : (deliver threadExit s.thread).abortPending = false := by
  rcases deliver_cases threadExit h.handler h.abort with ⟨-, he⟩ | ⟨-, he⟩ <;> rw [he] <;>
    exact h.abort

theorem Inv.tick {regs : Registers} {next : Bool} (h : Inv s)
    (hok : delivers s.thread = true → s.contexts = []) (htick : tick threadExit regs next s = some s') :
    Inv s' := by
  have hslot := h.slot_deliver threadExit hok
  unfold KillHandler.tick at htick
  dsimp only at htick
  cases hplace : s.place with
  | user u =>
    simp only [hplace] at htick
    obtain rfl := Option.some.inj htick
    refine ⟨h.deliver_handler, h.deliver_abort, fun v hv => ?_, fun v hv => ?_, hslot⟩
    · cases next
      · exact Place.preempted.inj hv
      · cases hv
    · cases next <;> cases hv
  | preempted u =>
    simp only [hplace] at htick
    obtain rfl := Option.some.inj htick
    refine ⟨h.deliver_handler, h.deliver_abort, fun v hv => ?_, fun v hv => ?_, ?_⟩
    · cases next
      · exact Place.preempted.inj hv
      · cases hv
    · cases next <;> cases hv
    · -- the registers that are saved are those of the program
      show ∀ c ∈ if delivers s.thread then .tick u :: s.contexts else s.contexts, _
      rcases deliver_cases threadExit h.handler h.abort with ⟨hd, -⟩ | ⟨hd, he⟩
      · simpa only [hd, Bool.false_eq_true, if_false] using hslot
      · rw [if_pos hd, hok hd, he]
        intro c hc
        obtain rfl := List.mem_singleton.1 hc
        exact h.saved u hplace
  | syscall u =>
    simp only [hplace] at htick
    split at htick
    · rename_i hmode
      obtain rfl := Option.some.inj htick
      refine ⟨h.deliver_handler, h.deliver_abort, fun v hv => ?_, fun v hv => hmode, hslot⟩
      cases next <;> cases hv
    · cases htick
  | suspended u =>
    simp only [hplace] at htick
    obtain rfl := Option.some.inj htick
    refine ⟨h.deliver_handler, h.deliver_abort, fun v hv => ?_, fun v hv => ?_, hslot⟩
    · cases next <;> cases hv
    · -- nothing is delivered to a thread in the kernel
      have hkernel := h.kernel u hplace
      rcases deliver_cases threadExit h.handler h.abort with ⟨-, he⟩ | ⟨hd, -⟩
      · rw [he]
        exact kernelMode_rax.trans hkernel
      · simp [delivers, hkernel] at hd

/-- A delivery at the return of a system call saves the registers of the program, but for `rbx`. -/
theorem returnState_resumed {u : Registers} {retVal : UInt64} (h : u .rbx = u .rdi) :
    (Context.syscall u retVal).Resumed (returnState (syscallEntry u) retVal) := by
  refine ⟨rfl, fun x hx => ?_⟩
  simp only [calleeSaved, List.cons_append, List.nil_append, List.mem_cons, List.not_mem_nil,
    or_false] at hx
  rcases hx with rfl | rfl | rfl | rfl | rfl | rfl | rfl | rfl | rfl
  · exact h.symm
  all_goals rfl

/-- **`ThreadCheckFlags`** on a thread with a handler and no abort. -/
theorem threadCheckFlags_eq {t : KillState} {state : SyscallState} {retVal : UInt64}
    (hhandler : t.killHandlerRip ≠ 0) (habort : t.abortPending = false) :
    threadCheckFlags t state retVal =
      if t.killPending then
        some ({ t with killPending := false, killHandlerReturnState := returnState state retVal },
          { state with
            userrip := t.killHandlerRip
            userrsp := t.killHandlerRsp
            userrdi := t.killHandlerSignum })
      else some (t, state) := by
  cases hp : t.killPending
  · simp [threadCheckFlags, hp, habort]
  · simp [threadCheckFlags, setupKillHandlerFromSyscall, hp, habort, hhandler]

theorem Inv.syscallReturn {retVal : UInt64} {rest : Registers} (h : Inv s)
    (hok : KillOk s (.syscallReturn retVal rest))
    (hstep : step threadExit s (.syscallReturn retVal rest) = some s') : Inv s' := by
  unfold step at hstep
  cases hplace : s.place with
  | syscall u =>
    simp only [hplace, threadCheckFlags_eq h.handler h.abort] at hstep
    cases hp : s.thread.killPending with
    | false =>
      obtain rfl : _ = s' := by simpa [hp] using hstep
      refine ⟨h.handler, h.abort, nofun, nofun, h.slot⟩
    | true =>
      obtain ⟨hempty, hregs⟩ := hok.syscallReturn retVal rest u rfl hplace hp
      obtain rfl : _ = s' := by simpa [hp, hempty] using hstep
      refine ⟨h.handler, h.abort, nofun, nofun, fun c hc => ?_⟩
      obtain rfl := List.mem_singleton.1 hc
      exact returnState_resumed hregs
  | user u | preempted u | suspended u =>
    simp only [hplace] at hstep
    cases hstep

theorem Inv.step {e : Event} (h : Inv s) (hok : KillOk s e) (hstep : step threadExit s e = some s') :
    Inv s' := by
  cases e with
  | threadKillSig signum =>
    obtain rfl := Option.some.inj hstep
    exact ⟨h.handler, h.abort, h.saved, h.kernel, h.slot⟩
  | tick regs next => exact h.tick (hok.tick regs next rfl) hstep
  | syscallReturn retVal rest => exact h.syscallReturn hok hstep
  | program v =>
    unfold KillHandler.step at hstep
    cases hplace : s.place <;> simp only [hplace] at hstep <;> cases hstep
    exact ⟨h.handler, h.abort, nofun, nofun, h.slot⟩
  | select =>
    unfold KillHandler.step at hstep
    cases hplace : s.place <;> simp only [hplace] at hstep <;> cases hstep <;>
      exact ⟨h.handler, h.abort, nofun, nofun, h.slot⟩
  | block regs =>
    unfold KillHandler.step at hstep
    cases hplace : s.place <;> simp only [hplace] at hstep <;> try cases hstep
    split at hstep
    · rename_i hmode
      obtain rfl := Option.some.inj hstep
      exact ⟨h.handler, h.abort, nofun, fun _ _ => hmode, h.slot⟩
    · cases hstep
  | syscallEntry =>
    unfold KillHandler.step at hstep
    cases hplace : s.place <;> simp only [hplace] at hstep <;> cases hstep
    exact ⟨h.handler, h.abort, nofun, nofun, h.slot⟩
  | finishKill =>
    unfold KillHandler.step at hstep
    cases hplace : s.place <;> simp only [hplace] at hstep <;> cases hstep
    exact ⟨h.handler, h.abort, nofun, nofun, fun c hc => h.slot c (List.mem_of_mem_tail hc)⟩

/-- **Handlers return to what they interrupted.** In every run that keeps to the condition, the
`syscall_finish_kill` that ends the handler of a delivery resumes the program where that delivery has
interrupted it. -/
theorem finishKill_resumes (threadExit : UInt64) (s₀ s : State) (start : Start s₀)
    (run : Runs (step threadExit) KillOk s₀ s) (c : Context) (cs : List Context) (s' : State)
    (hc : s.contexts = c :: cs) (hstep : step threadExit s .finishKill = some s') :
    ∃ r, s'.place = .user r ∧ c.Resumed r ∧ s'.contexts = cs := by
  have hinv : Inv s := run.inv start.inv fun _ _ _ h hok hs => h.step hok hs
  unfold step at hstep
  cases hplace : s.place <;> simp only [hplace] at hstep <;> cases hstep
  exact ⟨_, rfl, hinv.slot c (by simp [hc]), by simp [hc]⟩

/-- The condition as a test. -/
def killOk (s : State) : Event → Bool
  | .tick _ _ => !delivers s.thread || s.contexts.isEmpty
  | .syscallReturn _ _ => !s.thread.killPending || s.contexts.isEmpty &&
      match s.place with
      | .syscall u => decide (u .rbx = u .rdi)
      | _ => true
  | _ => true

theorem killOk_sound (s : State) (e : Event) (h : killOk s e = true) : KillOk s e where
  tick regs next he hd := by
    subst he
    simpa [killOk, hd] using h
  syscallReturn retVal rest u he hplace hp := by
    subst he
    simpa [killOk, hp, hplace] using h

/-- A program with different values in `rbx` and `rdi`. -/
def program : Registers
  | .rip => 0x400000
  | .rbx => 7
  | .rdi => 205
  | .cs => GDT.UserCode
  | _ => 0

/-- The program runs, with a handler. -/
def started : State where
  thread := {
    registers := program
    killPending := false
    killHandlerRip := 0x500000
    killHandlerRsp := 0x600000
    killHandlerSignum := 0
    killHandlerReturnState := program
    abortPending := false
    kernelStack := 0 }
  place := .user program
  contexts := []

theorem start_started : Start started := ⟨⟨program, rfl⟩, by decide, rfl, rfl⟩

/-- The program is interrupted, a kill is delivered, and the handler runs to its end. -/
theorem finishKill_resumes_program : ∃ s s', Runs (step 0) KillOk started s ∧
    s.contexts = [.tick program] ∧ step 0 s .finishKill = some s' ∧ s'.place = .user program := by
  obtain ⟨s, hs, hc, s', hstep⟩ : ∃ s, exec (fun s e => if killOk s e then step 0 s e else none)
      [.tick program false, .threadKillSig 9, .tick program true, .syscallEntry] started = some s ∧
      s.contexts = [.tick program] ∧ ∃ s', step 0 s .finishKill = some s' := ⟨_, rfl, rfl, _, rfl⟩
  have hruns : Runs (step 0) KillOk started s := runs_of_checks killOk_sound _ hs
  obtain ⟨r, hplace, hr, -⟩ := finishKill_resumes 0 started s start_started hruns _ _ s' hc hstep
  refine ⟨s, s', hruns, hc, hstep, ?_⟩
  rw [hplace, show r = program from hr]

/-- A kill that is delivered at the return of a system call resumes the program with `rdi` in `rbx`; and
when a kill is delivered in a handler, the end of the first handler resumes the handler. -/
theorem finishKill_elsewhere :
    (∃ s s' r, Runs (step 0) (fun _ _ => True) started s ∧ s.contexts = [.syscall program 0] ∧
      step 0 s .finishKill = some s' ∧ s'.place = .user r ∧ r .rbx = program .rdi ∧
      ¬ (Context.syscall program 0).Resumed r) ∧
    ∃ s s' r, Runs (step 0) (fun _ _ => True) started s ∧ s.contexts = [.tick program] ∧
      step 0 s .finishKill = some s' ∧ s'.place = .user r ∧ r .rip = started.thread.killHandlerRip ∧
      ¬ (Context.tick program).Resumed r := by
  constructor
  · obtain ⟨s, hs, hc, s', r, hstep, hplace, hrbx⟩ : ∃ s, exec (step 0)
        [.syscallEntry, .threadKillSig 9, .syscallReturn 0 program, .syscallEntry] started = some s ∧
        s.contexts = [.syscall program 0] ∧ ∃ s' r, step 0 s .finishKill = some s' ∧
          s'.place = .user r ∧ r .rbx = program .rdi := ⟨_, rfl, rfl, _, _, rfl, rfl, rfl⟩
    refine ⟨s, s', r, runs_of_exec _ hs, hc, hstep, hplace, hrbx, fun hr => ?_⟩
    have hkept := hr.2 .rbx (by decide)
    rw [hrbx] at hkept
    exact absurd hkept (by decide)
  · obtain ⟨s, hs, hc, s', r, hstep, hplace, hrip⟩ : ∃ s, exec (step 0)
        [.tick program false, .threadKillSig 9, .tick program true, .tick program false,
          .threadKillSig 9, .tick program true, .syscallEntry, .finishKill, .syscallEntry] started =
            some s ∧
        s.contexts = [.tick program] ∧ ∃ s' r, step 0 s .finishKill = some s' ∧
          s'.place = .user r ∧ r .rip = started.thread.killHandlerRip :=
      ⟨_, rfl, rfl, _, _, rfl, rfl, rfl⟩
    refine ⟨s, s', r, runs_of_exec _ hs, hc, hstep, hplace, hrip, fun hr => ?_⟩
    rw [show r = program from hr] at hrip
    exact absurd hrip (by decide)

end ChenixOS.Scheduler.KillHandler
