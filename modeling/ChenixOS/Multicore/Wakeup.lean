import ChenixOS.Multicore.QueueLock
import ChenixOS.Task.Thread

/-!
# `QueueLock` on several cores

`Lock` and `Unlock` one shared write at a time. A thread that has to wait puts its entry into the
queue, releases `m_Lock`, and only then writes its own blocked state and saves its registers; an
`Unlock` on another core may take the entry out of the queue at any point of that.

**The condition.** `Unlock` writes READY into a waiter that has already written QUEUE_LOCK. In a run
where every `Unlock` meets it, a thread that was woken stays ready until it returns from `Lock`. The
return value is safe in every run, since `SwitchThread` does not save `rax`.
-/

namespace ChenixOS.QueueLock.Wakeup

open Transitions Scheduler

/-- The next write of a thread. Inside of `Lock` and `Unlock` the sticky count of the thread keeps its
core from switching, until it is asleep. -/
inductive Pc
  | outside
  /-- In `Lock`, with `m_Lock` held, at the test of `m_Count`. -/
  | locking
  | enqueuing
  | enqueued
  /-- In `ThreadBlock`, before `state.arg = 0`. -/
  | blockArg
  /-- In `ThreadBlock`, before `state.type = QUEUE_LOCK`. -/
  | blockType
  | findNext
  /-- In `SwitchThread`, with these registers still to be saved. -/
  | saving (rest : List Reg)
  | asleep
  /-- In `Unlock`, with `m_Lock` held, at the test of `m_Queue`. -/
  | unlocking
  /-- The entry of `w` is out of the queue. -/
  | popped (w : Nat)
  /-- `w` has its return value. -/
  | returned (w : Nat)
  /-- Only `m_Lock.Unlock()` is left. -/
  | leaving

/-- The registers `SwitchThread` saves, in its order. -/
def savedRegisters : List Reg :=
  [.rip, .ds, .cs, .ss, .userrsp, .rflags, .r15, .r14, .r13, .r12, .rbp, .rbx]

/-- The last field is not in the source: which threads were marked READY by `Unlock` and have not yet
returned from `Lock`. -/
structure State where
  m_Lock : Bool
  m_Count : Nat
  m_Queue : AnchorList Nat
  type : Nat → QueueLock.ThreadState
  arg : Nat → UInt64
  info : Nat → KillState
  pc : Nat → Pc
  woken : Nat → Bool

def initial (count : Nat) (anchors : Nat → Option Nat) (info : Nat → KillState) : State where
  m_Lock := false
  m_Count := count
  m_Queue := .empty anchors anchors
  type _ := .ready
  arg _ := 0
  info := info
  pc _ := .outside
  woken _ := false

inductive Event
  /-- `Lock`, up to and including `m_Lock.Spinlock()`. -/
  | lock (t : Nat)
  /-- `Unlock`, up to and including `m_Lock.Spinlock()`. -/
  | unlock (t : Nat)
  /-- The next write of a thread; `v` is what the register that it saves holds. -/
  | next (t : Nat) (v : UInt64)
  /-- `UpdateEvents` comes to the thread. -/
  | update (t : Nat)
  | kill (t : Nat) (signum : UInt64)
  | abort (t : Nat)

/-- `m_Lock.Spinlock()`, when it succeeds. -/
def spinlock (t : Nat) (pc : Pc) (s : State) : Option State :=
  match s.pc t, s.m_Lock with
  | .outside, false => some { s with m_Lock := true, pc := Function.update s.pc t pc }
  | _, _ => none

def setRegister (t : Nat) (r : Reg) (v : UInt64) (info : Nat → KillState) : Nat → KillState :=
  Function.update info t { info t with registers := Function.update (info t).registers r v }

/-- The next write of thread `t`. -/
def next (t : Nat) (v : UInt64) (s : State) : Option State :=
  match s.pc t with
  | .outside => none
  | .locking =>
    if 0 < s.m_Count then
      some { s with m_Count := s.m_Count - 1, pc := Function.update s.pc t .leaving }
    else
      some { s with pc := Function.update s.pc t .enqueuing }
  | .enqueuing =>
    (s.m_Queue.pushBack t).map fun queue =>
      { s with m_Queue := queue, pc := Function.update s.pc t .enqueued }
  | .enqueued => some { s with m_Lock := false, pc := Function.update s.pc t .blockArg }
  | .blockArg => some { s with
      arg := Function.update s.arg t 0
      pc := Function.update s.pc t .blockType }
  | .blockType => some { s with
      type := Function.update s.type t .queueLock
      pc := Function.update s.pc t .findNext }
  | .findNext => some { s with pc := Function.update s.pc t (.saving savedRegisters) }
  | .saving [] => some { s with pc := Function.update s.pc t .asleep }
  | .saving (r :: rest) => some { s with
      info := setRegister t r v s.info
      pc := Function.update s.pc t (.saving rest) }
  | .asleep =>
    if s.type t = .ready then some { s with
      pc := Function.update s.pc t .outside
      woken := Function.update s.woken t false }
    else none
  | .unlocking =>
    match s.m_Queue.head with
    | none => some { s with
        m_Count := (s.m_Count + 1) % 2 ^ 64
        pc := Function.update s.pc t .leaving }
    | some w => s.m_Queue.popFront.map fun queue =>
        { s with m_Queue := queue, pc := Function.update s.pc t (.popped w) }
  | .popped w => some { s with
      info := setRegister w .rax 0 s.info
      pc := Function.update s.pc t (.returned w) }
  | .returned w => some { s with
      type := Function.update s.type w .ready
      pc := Function.update s.pc t .leaving
      woken := Function.update s.woken w true }
  | .leaving => some { s with m_Lock := false, pc := Function.update s.pc t .outside }

/-- `UpdateEvents` at a thread that is not inside of the two functions; it leaves a thread in state
QUEUE_LOCK alone. -/
def update (threadExit : UInt64) (t : Nat) (s : State) : Option State :=
  match s.pc t, s.type t with
  | .outside, .ready | .asleep, .ready =>
    some { s with info := Function.update s.info t (deliver threadExit (s.info t)) }
  | .outside, .queueLock | .asleep, .queueLock => some s
  | _, _ => none

def step (threadExit : UInt64) (s : State) : Event → Option State
  | .lock t => spinlock t .locking s
  | .unlock t => spinlock t .unlocking s
  | .next t v => next t v s
  | .update t => update threadExit t s
  | .kill t signum => some { s with
      info := Function.update s.info t
        { s.info t with killPending := true, killHandlerSignum := signum } }
  | .abort t => some { s with
      info := Function.update s.info t { s.info t with abortPending := true } }

/-- The thread has written QUEUE_LOCK into its own state and has not returned from `Lock`. -/
def Pc.Blocked : Pc → Prop
  | .findNext | .saving _ | .asleep => True
  | _ => False

/-- **The condition**: when `Unlock` writes READY into a thread, that thread has written QUEUE_LOCK. -/
def AfterBlock (s : State) (e : Event) : Prop :=
  ∀ t v w, e = .next t v → s.pc t = .returned w → (s.pc w).Blocked

/-! ## What a step writes -/

/-- The places of a thread that say something about the registers. -/
def Pc.Plain : Pc → Prop
  | .saving rest => rest = savedRegisters
  | .returned _ => False
  | _ => True

/-- What a step does to the states, the return values and the places of the threads. -/
inductive Change (s : State) (e : Event) (s' : State) : Prop
  /-- A thread goes on; the saved return values and the states stay. -/
  | go (t : Nat) (pc : Pc) (hplain : pc.Plain) (hblocked : (s.pc t).Blocked → pc.Blocked)
    (hpc : s'.pc = Function.update s.pc t pc) (htype : s'.type = s.type)
    (hrax : ∀ u, (s'.info u).registers .rax = (s.info u).registers .rax)
    (hwoken : s'.woken = s.woken)
  /-- Nothing of this changes. -/
  | stay (hpc : s'.pc = s.pc) (htype : s'.type = s.type)
    (hrax : ∀ u, (s'.info u).registers .rax = (s.info u).registers .rax)
    (hwoken : s'.woken = s.woken)
  | block (t : Nat) (hat : s.pc t = .blockType)
    (hs : s' = { s with
      type := Function.update s.type t .queueLock
      pc := Function.update s.pc t .findNext })
  | save (t : Nat) (v : UInt64) (r : Reg) (rest : List Reg) (hat : s.pc t = .saving (r :: rest))
    (hs : s' = { s with
      info := setRegister t r v s.info
      pc := Function.update s.pc t (.saving rest) })
  | resume (t : Nat) (hat : s.pc t = .asleep)
    (hs : s' = { s with
      pc := Function.update s.pc t .outside
      woken := Function.update s.woken t false })
  | «return» (t w : Nat) (hat : s.pc t = .popped w)
    (hs : s' = { s with
      info := setRegister w .rax 0 s.info
      pc := Function.update s.pc t (.returned w) })
  | mark (t w : Nat) (v : UInt64) (he : e = .next t v) (hat : s.pc t = .returned w)
    (hs : s' = { s with
      type := Function.update s.type w .ready
      pc := Function.update s.pc t .leaving
      woken := Function.update s.woken w true })

section

variable {s s' : State} {e : Event} {t : Nat} {v : UInt64}

theorem change_spinlock {pc : Pc} (h : spinlock t pc s = some s') (hplain : pc.Plain) :
    Change s e s' := by
  unfold spinlock at h
  split at h
  · rename_i hat _
    obtain rfl := Option.some.inj h
    exact .go t pc hplain (by simp [hat, Pc.Blocked]) rfl rfl (fun _ => rfl) rfl
  · cases h

theorem change_next (h : next t v s = some s') : Change s (.next t v) s' := by
  unfold next at h
  cases hat : s.pc t with
  | outside => simp [hat] at h
  | locking =>
    simp only [hat] at h
    split at h
    · obtain rfl := Option.some.inj h
      exact .go t .leaving trivial (by simp [hat, Pc.Blocked]) rfl rfl (fun _ => rfl) rfl
    · obtain rfl := Option.some.inj h
      exact .go t .enqueuing trivial (by simp [hat, Pc.Blocked]) rfl rfl (fun _ => rfl) rfl
  | enqueuing =>
    simp only [hat] at h
    obtain ⟨queue, -, rfl⟩ := Option.map_eq_some_iff.1 h
    exact .go t .enqueued trivial (by simp [hat, Pc.Blocked]) rfl rfl (fun _ => rfl) rfl
  | enqueued =>
    obtain rfl : _ = s' := by simpa [hat] using h
    exact .go t .blockArg trivial (by simp [hat, Pc.Blocked]) rfl rfl (fun _ => rfl) rfl
  | blockArg =>
    obtain rfl : _ = s' := by simpa [hat] using h
    exact .go t .blockType trivial (by simp [hat, Pc.Blocked]) rfl rfl (fun _ => rfl) rfl
  | blockType =>
    obtain rfl : _ = s' := by simpa [hat] using h
    exact .block t hat rfl
  | findNext =>
    obtain rfl : _ = s' := by simpa [hat] using h
    exact .go t (.saving savedRegisters) rfl (fun _ => trivial) rfl rfl (fun _ => rfl) rfl
  | saving rest =>
    cases rest with
    | nil =>
      obtain rfl : _ = s' := by simpa [hat] using h
      exact .go t .asleep trivial (fun _ => trivial) rfl rfl (fun _ => rfl) rfl
    | cons r rest =>
      obtain rfl : _ = s' := by simpa [hat] using h
      exact .save t v r rest hat rfl
  | asleep =>
    simp only [hat] at h
    split at h
    · obtain rfl := Option.some.inj h
      exact .resume t hat rfl
    · cases h
  | unlocking =>
    simp only [hat] at h
    split at h
    · obtain rfl := Option.some.inj h
      exact .go t .leaving trivial (by simp [hat, Pc.Blocked]) rfl rfl (fun _ => rfl) rfl
    · rename_i w _
      obtain ⟨queue, -, rfl⟩ := Option.map_eq_some_iff.1 h
      exact .go t (.popped w) trivial (by simp [hat, Pc.Blocked]) rfl rfl (fun _ => rfl) rfl
  | popped w =>
    obtain rfl : _ = s' := by simpa [hat] using h
    exact .return t w hat rfl
  | returned w =>
    obtain rfl : _ = s' := by simpa [hat] using h
    exact .mark t w v rfl hat rfl
  | leaving =>
    obtain rfl : _ = s' := by simpa [hat] using h
    exact .go t .outside trivial (by simp [hat, Pc.Blocked]) rfl rfl (fun _ => rfl) rfl

/-- A change of one thread's kill flags or registers that keeps its return value. -/
theorem change_info {k : KillState} (hrax : k.registers .rax = (s.info t).registers .rax) :
    Change s e { s with info := Function.update s.info t k } := by
  refine .stay rfl rfl (fun u => ?_) rfl
  by_cases hut : u = t
  · subst hut
    simp [hrax]
  · simp [hut]

/-- **The changes of a step.** -/
theorem change_step {threadExit : UInt64} (h : step threadExit s e = some s') :
    Change s e s' := by
  cases e with
  | lock t => exact change_spinlock h trivial
  | unlock t => exact change_spinlock h trivial
  | next t v => exact change_next h
  | update t =>
    simp only [step, update] at h
    split at h
    · obtain rfl := Option.some.inj h
      exact change_info deliver_rax
    · obtain rfl := Option.some.inj h
      exact change_info deliver_rax
    · obtain rfl := Option.some.inj h
      exact .stay rfl rfl (fun _ => rfl) rfl
    · obtain rfl := Option.some.inj h
      exact .stay rfl rfl (fun _ => rfl) rfl
    · cases h
  | kill t signum =>
    obtain rfl := Option.some.inj h
    exact change_info rfl
  | abort t =>
    obtain rfl := Option.some.inj h
    exact change_info rfl

end

/-! ## The return value -/

@[simp] theorem setRegister_rax {t u : Nat} {r : Reg} {v : UInt64} {info : Nat → KillState}
    (hr : r ≠ .rax) : (setRegister t r v info u).registers .rax = (info u).registers .rax := by
  unfold setRegister
  by_cases hut : u = t
  · subst hut
    simp [Function.update_of_ne hr.symm]
  · simp [hut]

/-- Writing 0 keeps a return value that is 0. -/
theorem setRegister_rax_zero {w u : Nat} {info : Nat → KillState}
    (h : u ≠ w → (info u).registers .rax = 0) :
    (setRegister w .rax 0 info u).registers .rax = 0 := by
  unfold setRegister
  by_cases huw : u = w
  · subst huw
    simp
  · simpa [huw] using h huw

/-- No thread is about to save `rax`, and a thread that has been given its return value has it. -/
structure Returns (s : State) : Prop where
  saving : ∀ t rest, s.pc t = .saving rest → .rax ∉ rest
  returned : ∀ t w, s.pc t = .returned w → (s.info w).registers .rax = 0
  woken : ∀ w, s.woken w → (s.info w).registers .rax = 0

theorem Returns.step {s s' : State} {e : Event} (h : Returns s) (hchange : Change s e s') :
    Returns s' := by
  cases hchange with
  | go t pc hplain hblocked hpc htype hrax hwoken =>
    refine ⟨fun u rest hu => ?_, fun u w hu => ?_, fun w hw => ?_⟩
    · rw [hpc] at hu
      by_cases hut : u = t
      · subst hut
        rw [Function.update_self] at hu
        subst hu
        rw [show rest = savedRegisters from hplain]
        decide
      · exact h.saving u rest (by simpa [hut] using hu)
    · rw [hpc] at hu
      by_cases hut : u = t
      · subst hut
        rw [Function.update_self] at hu
        subst hu
        exact hplain.elim
      · rw [hrax]
        exact h.returned u w (by simpa [hut] using hu)
    · rw [hrax]
      exact h.woken w (hwoken ▸ hw)
  | stay hpc htype hrax hwoken =>
    refine ⟨fun u rest hu => h.saving u rest (hpc ▸ hu), fun u w hu => ?_, fun w hw => ?_⟩
    · rw [hrax]
      exact h.returned u w (hpc ▸ hu)
    · rw [hrax]
      exact h.woken w (hwoken ▸ hw)
  | block t hat hs =>
    subst hs
    refine ⟨fun u rest hu => ?_, fun u w hu => ?_, h.woken⟩
    · by_cases hut : u = t
      · simp [hut] at hu
      · exact h.saving u rest (by simpa [hut] using hu)
    · by_cases hut : u = t
      · simp [hut] at hu
      · exact h.returned u w (by simpa [hut] using hu)
  | save t v r rest hat hs =>
    subst hs
    have hnot := h.saving t (r :: rest) hat
    have hr : r ≠ .rax := by
      rintro rfl
      exact hnot (by simp)
    refine ⟨fun u rest' hu => ?_, fun u w hu => ?_, fun w hw => ?_⟩
    · by_cases hut : u = t
      · obtain rfl : rest = rest' := by simpa [hut] using hu
        exact fun hmem => hnot (List.mem_cons_of_mem _ hmem)
      · exact h.saving u rest' (by simpa [hut] using hu)
    · by_cases hut : u = t
      · simp [hut] at hu
      · simpa [hr] using h.returned u w (by simpa [hut] using hu)
    · simpa [hr] using h.woken w hw
  | resume t hat hs =>
    subst hs
    refine ⟨fun u rest hu => ?_, fun u w hu => ?_, fun w hw => ?_⟩
    · by_cases hut : u = t
      · simp [hut] at hu
      · exact h.saving u rest (by simpa [hut] using hu)
    · by_cases hut : u = t
      · simp [hut] at hu
      · exact h.returned u w (by simpa [hut] using hu)
    · by_cases hwt : w = t
      · simp [hwt] at hw
      · exact h.woken w (by simpa [hwt] using hw)
  | «return» t w hat hs =>
    subst hs
    refine ⟨fun u rest hu => ?_, fun u x hu => ?_, fun x hx => ?_⟩
    · by_cases hut : u = t
      · simp [hut] at hu
      · exact h.saving u rest (by simpa [hut] using hu)
    · by_cases hut : u = t
      · obtain rfl : w = x := by simpa [hut] using hu
        exact setRegister_rax_zero fun hne => absurd rfl hne
      · exact setRegister_rax_zero fun _ => h.returned u x (by simpa [hut] using hu)
    · exact setRegister_rax_zero fun _ => h.woken x hx
  | mark t w v he hat hs =>
    subst hs
    refine ⟨fun u rest hu => ?_, fun u x hu => ?_, fun x hx => ?_⟩
    · by_cases hut : u = t
      · simp [hut] at hu
      · exact h.saving u rest (by simpa [hut] using hu)
    · by_cases hut : u = t
      · simp [hut] at hu
      · exact h.returned u x (by simpa [hut] using hu)
    · by_cases hxw : x = w
      · subst hxw
        exact h.returned t x hat
      · exact h.woken x (by simpa [hxw] using hx)

/-! ## The state of a woken thread -/

/-- A thread that was woken is ready, and past the write of its own blocked state. -/
def Awake (s : State) : Prop := ∀ w, s.woken w → s.type w = .ready ∧ (s.pc w).Blocked

theorem Awake.step {s s' : State} {e : Event} (h : Awake s) (hchange : Change s e s')
    (hafter : AfterBlock s e) : Awake s' := by
  cases hchange with
  | go t pc hplain hblocked hpc htype hrax hwoken =>
    intro w hw
    obtain ⟨hready, hb⟩ := h w (hwoken ▸ hw)
    rw [htype, hpc]
    refine ⟨hready, ?_⟩
    by_cases hwt : w = t
    · subst hwt
      simpa using hblocked hb
    · simpa [hwt] using hb
  | stay hpc htype hrax hwoken =>
    intro w hw
    rw [htype, hpc]
    exact h w (hwoken ▸ hw)
  | block t hat hs =>
    subst hs
    intro w hw
    obtain ⟨hready, hb⟩ := h w hw
    have hwt : w ≠ t := by
      rintro rfl
      simp [hat, Pc.Blocked] at hb
    simpa [hwt] using ⟨hready, hb⟩
  | save t v r rest hat hs =>
    subst hs
    intro w hw
    obtain ⟨hready, hb⟩ := h w hw
    refine ⟨hready, ?_⟩
    by_cases hwt : w = t
    · simp [hwt, Pc.Blocked]
    · simpa [hwt] using hb
  | resume t hat hs =>
    subst hs
    intro w hw
    by_cases hwt : w = t
    · simp [hwt] at hw
    · simpa [hwt] using h w (by simpa [hwt] using hw)
  | «return» t w hat hs =>
    subst hs
    intro x hx
    obtain ⟨hready, hb⟩ := h x hx
    have hxt : x ≠ t := by
      rintro rfl
      simp [hat, Pc.Blocked] at hb
    simpa [hxt] using ⟨hready, hb⟩
  | mark t w v he hat hs =>
    subst hs
    have hbw := hafter t v w he hat
    have hwt : w ≠ t := by
      rintro rfl
      simp [hat, Pc.Blocked] at hbw
    intro x hx
    by_cases hxw : x = w
    · subst hxw
      simpa [hwt] using hbw
    · obtain ⟨hready, hb⟩ := h x (by simpa [hxw] using hx)
      have hxt : x ≠ t := by
        rintro rfl
        simp [hat, Pc.Blocked] at hb
      simpa [hxt, hxw] using ⟨hready, hb⟩

/-- **No lost wake-up.** In every run, a thread that `Unlock` has marked READY keeps the return value
it was given until it returns from `Lock`; and if every `Unlock` in the run marks a thread that has
already written QUEUE_LOCK, it also stays ready. -/
theorem woken_stays_ready (threadExit : UInt64) (count : Nat) (anchors : Nat → Option Nat)
    (info : Nat → KillState) (s : State) :
    (Runs (step threadExit) (fun _ _ => True) (initial count anchors info) s →
      ∀ w, s.woken w → (s.info w).registers .rax = OK) ∧
    (Runs (step threadExit) AfterBlock (initial count anchors info) s →
      ∀ w, s.woken w → s.type w = .ready) := by
  constructor
  · intro run
    have hreturns : Returns s := by
      apply run.inv
      · exact ⟨nofun, nofun, nofun⟩
      · exact fun _ _ _ h _ hstep => h.step (change_step hstep)
    exact hreturns.woken
  · intro run w hw
    have hawake : Awake s := by
      apply run.inv
      · exact nofun
      · exact fun _ _ _ h hok hstep => h.step (change_step hstep) hok
    exact (hawake w hw).1

/-- A thread's record that has no handler and no kill pending. -/
def quietThread : KillState := ⟨fun _ => 0, false, 0, 0, 0, fun _ => 0, false, 0⟩

/-- The condition as a test. -/
def afterBlock (s : State) : Event → Bool
  | .next t _ => match s.pc t with
    | .returned w => match s.pc w with
      | .findNext | .saving _ | .asleep => true
      | _ => false
    | _ => true
  | _ => true

theorem afterBlock_sound (s : State) (e : Event) (h : afterBlock s e = true) : AfterBlock s e := by
  rintro t v w rfl hat
  simp only [afterBlock, hat] at h
  unfold Pc.Blocked
  split at h <;> simp_all

/-- Thread 1 waits for thread 0 and writes its blocked state before thread 0 unlocks. -/
def wakeup : List Event :=
  [.lock 0, .next 0 0, .next 0 0, .lock 1, .next 1 0, .next 1 0, .next 1 0, .next 1 0, .next 1 0,
    .unlock 0, .next 0 0, .next 0 0, .next 0 0, .next 1 0, .next 1 7]

theorem woken_stays_ready_wakeup : ∃ s,
    Runs (step 0) AfterBlock (initial 1 (fun _ => none) fun _ => quietThread) s ∧
      s.woken 1 ∧ s.type 1 = .ready ∧ (s.info 1).registers .rax = OK := by
  have hrun : (exec (fun s e => if afterBlock s e then step 0 s e else none) wakeup
      (initial 1 (fun _ => none) fun _ => quietThread)).map (fun s => s.woken 1) = some true := by
    decide
  obtain ⟨s, hs, hwoken⟩ := Option.map_eq_some_iff.1 hrun
  have hguarded := runs_of_checks afterBlock_sound wakeup hs
  have hany : Runs (step 0) (fun _ _ => True) (initial 1 (fun _ => none) fun _ => quietThread) s :=
    hguarded.mono fun _ _ _ => trivial
  obtain ⟨hrax, hready⟩ := woken_stays_ready 0 1 (fun _ => none) (fun _ => quietThread) s
  exact ⟨s, hguarded, hwoken, hready hguarded 1 hwoken, hrax hany 1 hwoken⟩

/-- Thread 1 is put into the queue and releases `m_Lock`; thread 0 unlocks and marks it READY; then
thread 1 writes its blocked state. -/
def lostWakeup : List Event :=
  [.lock 0, .next 0 0, .next 0 0, .lock 1, .next 1 0, .next 1 0, .next 1 0,
    .unlock 0, .next 0 0, .next 0 0, .next 0 0, .next 1 0, .next 1 0]

/-- The wake-up is lost: the thread was taken out of the queue and marked READY, and is in state
QUEUE_LOCK. -/
theorem unlock_before_block_lost : ∃ s,
    Runs (step 0) (fun _ _ => True) (initial 1 (fun _ => none) fun _ => quietThread) s ∧
      s.woken 1 ∧ s.type 1 = .queueLock ∧ s.m_Queue.head = none := by
  have hrun : (exec (step 0) lostWakeup (initial 1 (fun _ => none) fun _ => quietThread)).map
      (fun s => (s.woken 1, s.type 1, s.m_Queue.head)) = some (true, .queueLock, none) := by
    decide
  obtain ⟨s, hs, hproj⟩ := Option.map_eq_some_iff.1 hrun
  simp only [Prod.mk.injEq] at hproj
  exact ⟨s, runs_of_exec _ hs, hproj⟩

end ChenixOS.QueueLock.Wakeup
