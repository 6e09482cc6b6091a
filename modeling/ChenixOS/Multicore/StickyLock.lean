import ChenixOS.Lib.Transitions
import Mathlib.Logic.Function.Basic

/-!
# `StickyLock`

A spin lock (multicore/locks/StickyLock.cpp) with three ways to take it. `Spinlock` raises the sticky count
of the thread, `Spinlock_Cli` its cli count with the interrupts of the CPU off, and an interrupt handler uses
`Spinlock_Raw`, which does neither. The header asks for `Spinlock_Cli` if the lock might be taken in an
interrupt handler.

The model has any number of CPUs and threads and one lock that all of them take. A thread runs on its own
CPU, where ticks and its own yields switch to other threads, and handlers interrupt it. It may hold any other
locks of the kind, in any order; they show in its two counts.

**Main result (`safe_of_run`).** If the threads use `Spinlock_Cli` where handlers take the lock, then in every
state of every run there is at most one holder; a thread that holds the lock has its CPU; no handler waits for
the thread that it interrupts; and the holder can give the lock back with its next step.
-/

namespace ChenixOS.StickyLock

open Transitions

/-- How a thread takes the lock. -/
inductive Mode where
  /-- `Spinlock` and `Unlock` -/
  | sticky
  /-- `Spinlock_Cli` and `Unlock_Cli` -/
  | cli
  deriving DecidableEq

/-- Where a thread is. -/
inductive Pc where
  | outside
  /-- In `ThreadDisableInterrupts`, between the count and the instruction. -/
  | disabling
  /-- In the loop around `TryLock`. -/
  | spinning (mode : Mode)
  | holding (mode : Mode)
  /-- After `DoUnlock`. -/
  | released (mode : Mode)
  deriving DecidableEq

/-- Where an interrupt handler is. -/
inductive Handler where
  /-- In the loop of `Spinlock_Raw`. -/
  | spinning
  | holding
  /-- After `Unlock_Raw`. -/
  | released
  deriving DecidableEq

/-- The lock, the CPUs and the threads. The last two fields are not in the source: what the other locks of a
thread have added to its counts. -/
structure State where
  m_Val : UInt64
  currentThread : Nat → Nat
  /-- The interrupt flag of a CPU. -/
  interruptFlag : Nat → Bool
  handler : Nat → Option Handler
  /-- The interrupt flag in the saved registers of a thread. -/
  rflags : Nat → Bool
  stickyCount : Nat → Nat
  cliCount : Nat → Nat
  pc : Nat → Pc
  otherSticky : Nat → Nat
  otherCli : Nat → Nat

/-- All events name the CPU they happen on. -/
inductive Event where
  /-- `Spinlock` or `Spinlock_Cli`, up to the first count. -/
  | lock (c : Nat) (mode : Mode)
  /-- `IDT::DisableInterrupts` in `Spinlock_Cli`. -/
  | disableInterrupts (c : Nat)
  | tryLock (c : Nat)
  | doUnlock (c : Nat)
  /-- The rest of `Unlock` or `Unlock_Cli`. -/
  | leave (c : Nat)
  /-- The same steps for another lock. -/
  | otherSetSticky (c : Nat)
  | otherUnsetSticky (c : Nat)
  | otherDisable (c : Nat)
  | otherDisableInterrupts (c : Nat)
  | otherEnable (c : Nat)
  /-- `Tick`, with the thread that `FindNextThread` finds. -/
  | tick (c : Nat) (next : Nat)
  /-- `ThreadYield` of a thread that is not in the lock's code. -/
  | yield (c : Nat) (next : Nat)
  /-- A handler that takes the lock interrupts the CPU. -/
  | interrupt (c : Nat)
  | handlerTryLock (c : Nat)
  | handlerDoUnlock (c : Nat)
  | iret (c : Nat)

variable {cpuOf : Nat → Nat} {handlers : Bool} {s s' : State}

/-- The CPU runs its current thread. -/
def State.running (s : State) (c : Nat) : Bool := (s.handler c).isNone

/-- The registers of the current thread are saved and those of `next` loaded. -/
def State.switch (s : State) (c next : Nat) : State :=
  let rflags := Function.update s.rflags (s.currentThread c) (s.interruptFlag c)
  { s with
    rflags := rflags
    currentThread := Function.update s.currentThread c next
    interruptFlag := Function.update s.interruptFlag c (rflags next) }

/-- `ThreadSetSticky` -/
def State.threadSetSticky (s : State) (t : Nat) : State :=
  { s with stickyCount := Function.update s.stickyCount t (s.stickyCount t + 1) }

/-- `ThreadUnsetSticky` -/
def State.threadUnsetSticky (s : State) (t : Nat) : State :=
  { s with stickyCount := Function.update s.stickyCount t (s.stickyCount t - 1) }

/-- `ThreadEnableInterrupts` -/
def State.threadEnableInterrupts (s : State) (c t : Nat) : State :=
  let cliCount := Function.update s.cliCount t (s.cliCount t - 1)
  { s with
    cliCount := cliCount
    interruptFlag := if cliCount t = 0 then Function.update s.interruptFlag c true else s.interruptFlag }

def State.setPc (s : State) (t : Nat) (pc : Pc) : State := { s with pc := Function.update s.pc t pc }

def State.setHandler (s : State) (c : Nat) (handler : Option Handler) : State :=
  { s with handler := Function.update s.handler c handler }

/-- A step of thread `t` on CPU `c`. -/
def threadStep (s : State) (c t : Nat) : Event → Option State
  | .lock _ .sticky => if s.pc t = .outside then some ((s.threadSetSticky t).setPc t (.spinning .sticky)) else none
  | .lock _ .cli =>
    if s.pc t = .outside then
      some ({ s with cliCount := Function.update s.cliCount t (s.cliCount t + 1) }.setPc t .disabling)
    else none
  | .disableInterrupts _ =>
    if s.pc t = .disabling then
      some ({ s with interruptFlag := Function.update s.interruptFlag c false }.setPc t (.spinning .cli))
    else none
  | .tryLock _ =>
    match s.pc t with
    | .spinning mode =>
      -- the exchange writes a one whatever it finds
      some ({ s with m_Val := 1 }.setPc t (if s.m_Val = 0 then .holding mode else .spinning mode))
    | _ => none
  | .doUnlock _ =>
    match s.pc t with
    | .holding mode => some ({ s with m_Val := 0 }.setPc t (.released mode))
    | _ => none
  | .leave _ =>
    match s.pc t with
    | .released .sticky => some ((s.threadUnsetSticky t).setPc t .outside)
    | .released .cli => some ((s.threadEnableInterrupts c t).setPc t .outside)
    | _ => none
  | .otherSetSticky _ =>
    some { s.threadSetSticky t with otherSticky := Function.update s.otherSticky t (s.otherSticky t + 1) }
  | .otherUnsetSticky _ =>
    if s.otherSticky t = 0 then none
    else some { s.threadUnsetSticky t with otherSticky := Function.update s.otherSticky t (s.otherSticky t - 1) }
  | .otherDisable _ =>
    some { s with
      cliCount := Function.update s.cliCount t (s.cliCount t + 1)
      otherCli := Function.update s.otherCli t (s.otherCli t + 1) }
  | .otherDisableInterrupts _ => some { s with interruptFlag := Function.update s.interruptFlag c false }
  | .otherEnable _ =>
    if s.otherCli t = 0 then none
    else some { s.threadEnableInterrupts c t with otherCli := Function.update s.otherCli t (s.otherCli t - 1) }
  | _ => none

/-- A step of the handler on CPU `c`, or its start or end. -/
def handlerStep (s : State) (c : Nat) : Event → Option State
  | .interrupt _ =>
    if s.interruptFlag c = true ∧ s.handler c = none then
      some ({ s with interruptFlag := Function.update s.interruptFlag c false }.setHandler c (some .spinning))
    else none
  | .handlerTryLock _ =>
    if s.handler c = some .spinning then
      some ({ s with m_Val := 1 }.setHandler c (some (if s.m_Val = 0 then .holding else .spinning)))
    else none
  | .handlerDoUnlock _ =>
    if s.handler c = some .holding then some ({ s with m_Val := 0 }.setHandler c (some .released)) else none
  | .iret _ =>
    -- the flag was on when the interrupt came
    if s.handler c = some .released then
      some ({ s with interruptFlag := Function.update s.interruptFlag c true }.setHandler c none)
    else none
  | _ => none

/-- `cpuOf t` is the CPU whose list has the thread `t`. -/
def step (cpuOf : Nat → Nat) (s : State) (e : Event) : Option State :=
  match e with
  | .tick c next =>
    if s.interruptFlag c = true ∧ s.handler c = none ∧ cpuOf next = c then
      some (if s.stickyCount (s.currentThread c) ≠ 0 then s else s.switch c next)
    else none
  | .yield c next =>
    if s.handler c = none ∧ s.pc (s.currentThread c) = .outside ∧ cpuOf next = c then some (s.switch c next)
    else none
  | .interrupt c | .handlerTryLock c | .handlerDoUnlock c | .iret c => handlerStep s c e
  | .lock c _ | .disableInterrupts c | .tryLock c | .doUnlock c | .leave c | .otherSetSticky c
  | .otherUnsetSticky c | .otherDisable c | .otherDisableInterrupts c | .otherEnable c =>
    if s.handler c = none then threadStep s c (s.currentThread c) e else none

/-- What the header asks for: if handlers take the lock, the threads use `Spinlock_Cli`. -/
def Disciplined (handlers : Bool) (_ : State) : Event → Prop
  | .lock _ mode => handlers = true → mode = .cli
  | .interrupt _ => handlers = true
  | _ => True

/-! ## One holder -/

/-- Who may hold the lock. -/
inductive Context where
  | thread (t : Nat)
  /-- The handler on a CPU. -/
  | handler (c : Nat)
  deriving DecidableEq

def State.Holds (s : State) : Context → Prop
  | .thread t => ∃ mode, s.pc t = .holding mode
  | .handler c => s.handler c = some .holding

/-- The word of the lock says whether there is a holder, and there is no second one. -/
def State.Owned (s : State) : Prop :=
  (s.m_Val = 0 ∧ ∀ x, ¬s.Holds x) ∨ (s.m_Val = 1 ∧ ∃ x, ∀ y, s.Holds y ↔ y = x)

theorem State.Owned.congr (h : s.Owned) (hval : s'.m_Val = s.m_Val) (hholds : ∀ x, s'.Holds x ↔ s.Holds x) :
    s'.Owned := by
  unfold State.Owned at h ⊢
  simpa only [hval, hholds] using h

/-- After an exchange by `x`, which does not hold the lock. -/
theorem State.Owned.exchange {x : Context} (h : s.Owned) (hval : s'.m_Val = 1)
    (hholds : ∀ y, s'.Holds y ↔ s.Holds y ∨ (y = x ∧ s.m_Val = 0)) : s'.Owned := by
  apply Or.inr
  refine ⟨hval, ?_⟩
  rcases h with ⟨hzero, hnone⟩ | ⟨hone, z, hz⟩
  · exact ⟨x, fun y => by simp [hholds, hnone, hzero]⟩
  · exact ⟨z, fun y => by simp [hholds, hz, hone]⟩

/-- After the holder has written a zero. -/
theorem State.Owned.release {x : Context} (h : s.Owned) (hx : s.Holds x) (hval : s'.m_Val = 0)
    (hholds : ∀ y, s'.Holds y → s.Holds y ∧ y ≠ x) : s'.Owned := by
  apply Or.inl
  refine ⟨hval, fun y hy => ?_⟩
  obtain ⟨hy, hne⟩ := hholds y hy
  rcases h with ⟨-, hnone⟩ | ⟨-, z, hz⟩
  · exact hnone y hy
  · exact hne (((hz y).1 hy).trans ((hz x).1 hx).symm)

/-! ## Where the threads are -/

/-- The mode of a thread that goes for the lock, has it or has just given it back. -/
def Pc.mode : Pc → Option Mode
  | .outside | .disabling => none
  | .spinning mode | .holding mode | .released mode => some mode

/-- What the lock adds to the sticky count. -/
def Pc.stickies (pc : Pc) : Nat := if pc.mode = some .sticky then 1 else 0

/-- What the lock adds to the cli count. -/
def Pc.clis (pc : Pc) : Nat := if pc = .disabling ∨ pc.mode = some .cli then 1 else 0

structure Placed (cpuOf : Nat → Nat) (handlers : Bool) (s : State) : Prop where
  home : ∀ c, cpuOf (s.currentThread c) = c
  sticky : ∀ t, s.stickyCount t = s.otherSticky t + (s.pc t).stickies
  cli : ∀ t, s.cliCount t = s.otherCli t + (s.pc t).clis
  /-- **A thread is not descheduled on its way through the lock.** -/
  current : ∀ t, (s.pc t).mode ≠ none → s.currentThread (cpuOf t) = t
  /-- **With `Spinlock_Cli` it is not interrupted either.** -/
  masked : ∀ t, (s.pc t).mode = some .cli →
    s.interruptFlag (cpuOf t) = false ∧ s.handler (cpuOf t) = none
  /-- Handlers are not interrupted. -/
  closed : ∀ c, s.handler c ≠ none → s.interruptFlag c = false
  disciplined : handlers = true → ∀ t, (s.pc t).mode ≠ some .sticky
  quiet : handlers = false → ∀ c, s.handler c = none

/-- A step of the thread of CPU `c` that leads to the place `pc`. -/
theorem Placed.move {c t : Nat} {pc : Pc} (h : Placed cpuOf handlers s) (hrun : s.handler c = none)
    (ht : s.currentThread c = t) (hcurrent : s'.currentThread = s.currentThread)
    (hhandler : s'.handler = s.handler) (hpc : s'.pc = Function.update s.pc t pc)
    (hcounts : ∀ u, u ≠ t → s'.stickyCount u = s.stickyCount u ∧ s'.otherSticky u = s.otherSticky u ∧
      s'.cliCount u = s.cliCount u ∧ s'.otherCli u = s.otherCli u)
    (hsticky : s'.stickyCount t = s'.otherSticky t + pc.stickies)
    (hcli : s'.cliCount t = s'.otherCli t + pc.clis)
    (hflag : ∀ c', c' ≠ c → s'.interruptFlag c' = s.interruptFlag c')
    (hmasked : pc.mode = some .cli → s'.interruptFlag c = false)
    (hdisciplined : handlers = true → pc.mode ≠ some .sticky) : Placed cpuOf handlers s' := by
  have hhome : cpuOf t = c := ht ▸ h.home c
  have hother : ∀ u, u ≠ t → s'.pc u = s.pc u := fun u hu => by rw [hpc, Function.update_of_ne hu]
  have hself : s'.pc t = pc := by rw [hpc, Function.update_self]
  constructor
  case home => exact hcurrent ▸ h.home
  case sticky =>
    intro u
    by_cases hut : u = t
    · rw [hut, hself, hsticky]
    · obtain ⟨h₁, h₂, -, -⟩ := hcounts u hut
      rw [h₁, h₂, hother u hut, h.sticky]
  case cli =>
    intro u
    by_cases hut : u = t
    · rw [hut, hself, hcli]
    · obtain ⟨-, -, h₃, h₄⟩ := hcounts u hut
      rw [h₃, h₄, hother u hut, h.cli]
  case current =>
    intro u hu
    rw [hcurrent]
    by_cases hut : u = t
    · rw [hut, hhome, ht]
    · exact h.current u (hother u hut ▸ hu)
  case masked =>
    intro u hu
    rw [hhandler]
    by_cases hut : u = t
    · rw [hut, hself] at hu
      rw [hut, hhome]
      exact ⟨hmasked hu, hrun⟩
    · rw [hother u hut] at hu
      have hcpu : cpuOf u ≠ c := by
        intro heq
        have hcur := h.current u (by rw [hu]; exact Option.some_ne_none _)
        rw [heq, ht] at hcur
        exact hut hcur.symm
      rw [hflag _ hcpu]
      exact h.masked u hu
  case closed =>
    intro c' hc'
    rw [hhandler] at hc'
    have hne : c' ≠ c := fun heq => hc' (heq ▸ hrun)
    rw [hflag c' hne]
    exact h.closed c' hc'
  case disciplined =>
    intro hh u
    by_cases hut : u = t
    · rw [hut, hself]
      exact hdisciplined hh
    · rw [hother u hut]
      exact h.disciplined hh u
  case quiet => exact fun hh => hhandler ▸ h.quiet hh

theorem Placed.threadStep {c : Nat} {e : Event} (h : Placed cpuOf handlers s) (hrun : s.handler c = none)
    (hok : Disciplined handlers s e) (hstep : threadStep s c (s.currentThread c) e = some s') :
    Placed cpuOf handlers s' := by
  have hs := h.sticky (s.currentThread c)
  have hc := h.cli (s.currentThread c)
  have hd := fun hh => h.disciplined hh (s.currentThread c)
  have hm := h.masked (s.currentThread c)
  rw [h.home c] at hm
  cases e with
  | lock c' mode =>
    cases mode with
    | sticky =>
      simp only [StickyLock.threadStep, Option.ite_none_right_eq_some, Option.some.injEq] at hstep
      obtain ⟨hpc, rfl⟩ := hstep
      rw [hpc] at hs hc
      refine h.move hrun rfl rfl rfl rfl ?_ ?_ ?_ ?_ ?_ ?_
      all_goals simp +contextual [State.setPc, State.threadSetSticky, Pc.stickies, Pc.clis, Pc.mode] at hs hc ⊢
      · omega
      · omega
      · simpa [Disciplined] using hok
    | cli =>
      simp only [StickyLock.threadStep, Option.ite_none_right_eq_some, Option.some.injEq] at hstep
      obtain ⟨hpc, rfl⟩ := hstep
      rw [hpc] at hs hc
      refine h.move hrun rfl rfl rfl rfl ?_ ?_ ?_ ?_ ?_ ?_
      all_goals simp +contextual [State.setPc, Pc.stickies, Pc.clis, Pc.mode] at hs hc ⊢
      · omega
      · omega
  | disableInterrupts c' =>
    simp only [StickyLock.threadStep, Option.ite_none_right_eq_some, Option.some.injEq] at hstep
    obtain ⟨hpc, rfl⟩ := hstep
    rw [hpc] at hs hc
    refine h.move hrun rfl rfl rfl rfl ?_ ?_ ?_ ?_ ?_ ?_
    all_goals simp +contextual [State.setPc, Pc.stickies, Pc.clis, Pc.mode] at hs hc ⊢
    · omega
    · omega
  | tryLock c' =>
    cases hpc : s.pc (s.currentThread c) with
    | spinning mode =>
      simp only [StickyLock.threadStep, hpc, Option.some.injEq] at hstep
      subst hstep
      rw [hpc] at hs hc hd hm
      have hmode : (if s.m_Val = 0 then Pc.holding mode else Pc.spinning mode).mode = (Pc.spinning mode).mode := by
        split_ifs <;> rfl
      have hne : (if s.m_Val = 0 then Pc.holding mode else Pc.spinning mode) ≠ .disabling := by
        split_ifs <;> simp
      refine h.move hrun rfl rfl rfl rfl (fun u _ => ⟨rfl, rfl, rfl, rfl⟩) ?_ ?_ (fun _ _ => rfl) ?_ ?_
      · simpa [State.setPc, Pc.stickies, hmode] using hs
      · simpa [State.setPc, Pc.clis, hmode, hne] using hc
      · exact fun hcli => (hm (hmode ▸ hcli)).1
      · exact fun hh => hmode ▸ hd hh
    | _ => simp [StickyLock.threadStep, hpc] at hstep
  | doUnlock c' =>
    cases hpc : s.pc (s.currentThread c) with
    | holding mode =>
      simp only [StickyLock.threadStep, hpc, Option.some.injEq] at hstep
      subst hstep
      rw [hpc] at hs hc hd hm
      have hclis : s.cliCount (s.currentThread c) = s.otherCli (s.currentThread c) + (Pc.released mode).clis := by
        simpa [Pc.clis, Pc.mode] using hc
      exact h.move hrun rfl rfl rfl rfl (fun u _ => ⟨rfl, rfl, rfl, rfl⟩) hs hclis (fun _ _ => rfl)
        (fun hcli => (hm hcli).1) hd
    | _ => simp [StickyLock.threadStep, hpc] at hstep
  | leave c' =>
    cases hpc : s.pc (s.currentThread c) with
    | released mode =>
      rw [hpc] at hs hc
      cases mode with
      | sticky =>
        simp only [StickyLock.threadStep, hpc, Option.some.injEq] at hstep
        subst hstep
        refine h.move hrun rfl rfl rfl rfl ?_ ?_ ?_ ?_ ?_ ?_
        all_goals simp +contextual [State.setPc, State.threadUnsetSticky, Pc.stickies, Pc.clis, Pc.mode] at hs hc ⊢
        · omega
        · omega
      | cli =>
        simp only [StickyLock.threadStep, hpc, Option.some.injEq] at hstep
        subst hstep
        refine h.move hrun rfl rfl rfl rfl ?_ ?_ ?_ ?_ ?_ ?_
        all_goals simp +contextual [State.setPc, State.threadEnableInterrupts, Pc.stickies, Pc.clis, Pc.mode] at hs hc ⊢
        · omega
        · omega
        · intro c'' hne
          split_ifs <;> simp [hne]
    | _ => simp [StickyLock.threadStep, hpc] at hstep
  | otherSetSticky c' =>
    simp only [StickyLock.threadStep, Option.some.injEq] at hstep
    subst hstep
    refine h.move hrun rfl rfl rfl (Function.update_eq_self _ _).symm ?_ ?_ ?_
      (fun _ _ => rfl) (fun hcli => (hm hcli).1) hd
    all_goals simp +contextual [State.threadSetSticky] at hs hc ⊢
    · omega
    · omega
  | otherUnsetSticky c' =>
    simp only [StickyLock.threadStep, Option.ite_none_left_eq_some, Option.some.injEq] at hstep
    obtain ⟨hpos, rfl⟩ := hstep
    refine h.move hrun rfl rfl rfl (Function.update_eq_self _ _).symm ?_ ?_ ?_
      (fun _ _ => rfl) (fun hcli => (hm hcli).1) hd
    all_goals simp +contextual [State.threadUnsetSticky] at hs hc ⊢
    · omega
    · omega
  | otherDisable c' =>
    simp only [StickyLock.threadStep, Option.some.injEq] at hstep
    subst hstep
    refine h.move hrun rfl rfl rfl (Function.update_eq_self _ _).symm ?_ ?_ ?_
      (fun _ _ => rfl) (fun hcli => (hm hcli).1) hd
    all_goals simp +contextual at hs hc ⊢
    · omega
    · omega
  | otherDisableInterrupts c' =>
    simp only [StickyLock.threadStep, Option.some.injEq] at hstep
    subst hstep
    refine h.move hrun rfl rfl rfl (Function.update_eq_self _ _).symm (fun u _ => ⟨rfl, rfl, rfl, rfl⟩) hs hc
      ?_ ?_ hd
    all_goals simp +contextual
  | otherEnable c' =>
    simp only [StickyLock.threadStep, Option.ite_none_left_eq_some, Option.some.injEq] at hstep
    obtain ⟨hpos, rfl⟩ := hstep
    refine h.move hrun rfl rfl rfl (Function.update_eq_self _ _).symm ?_ ?_ ?_ ?_ ?_ hd
    all_goals simp +contextual [State.threadEnableInterrupts] at hs hc ⊢
    · omega
    · omega
    · intro c'' hne
      split_ifs <;> simp [hne]
    · intro hcli
      have hone : (s.pc (s.currentThread c)).clis = 1 := by simp [Pc.clis, hcli]
      rw [if_neg (by omega)]
      exact (hm hcli).1
  | _ => simp [StickyLock.threadStep] at hstep

/-- A step of the handler of CPU `c`, where no thread is on its way through the lock with `Spinlock_Cli`. -/
theorem Placed.atHandler {c : Nat} (h : Placed cpuOf handlers s)
    (hthreads : s' = { s with m_Val := s'.m_Val, handler := s'.handler, interruptFlag := s'.interruptFlag })
    (hothers : ∀ c', c' ≠ c → s'.handler c' = s.handler c' ∧ s'.interruptFlag c' = s.interruptFlag c')
    (hfree : ∀ t, (s.pc t).mode = some .cli → cpuOf t ≠ c)
    (hclosed : s'.handler c ≠ none → s'.interruptFlag c = false) (hhandlers : handlers = true) :
    Placed cpuOf handlers s' := by
  rw [hthreads]
  refine { h with masked := fun t ht => ?_, closed := fun c' hc' => ?_, quiet := fun hh => ?_ }
  · obtain ⟨h₁, h₂⟩ := hothers (cpuOf t) (hfree t ht)
    show s'.interruptFlag (cpuOf t) = false ∧ s'.handler (cpuOf t) = none
    rw [h₁, h₂]
    exact h.masked t ht
  · by_cases heq : c' = c
    · rw [heq] at hc' ⊢
      exact hclosed hc'
    · obtain ⟨h₁, h₂⟩ := hothers c' heq
      show s'.interruptFlag c' = false
      rw [h₂]
      exact h.closed c' (h₁ ▸ hc')
  · rw [hhandlers] at hh
    cases hh

/-- No thread is on its way through the lock with `Spinlock_Cli` on a CPU that can be interrupted or is. -/
theorem Placed.cpu_ne {c t : Nat} (h : Placed cpuOf handlers s)
    (hc : s.interruptFlag c = true ∨ s.handler c ≠ none) (ht : (s.pc t).mode = some .cli) : cpuOf t ≠ c := by
  intro heq
  obtain ⟨hflag, hnone⟩ := h.masked t ht
  rw [heq] at hflag hnone
  rcases hc with hc | hc
  · rw [hflag] at hc
    cases hc
  · exact hc hnone

/-- Handlers run only where handlers take the lock. -/
theorem Placed.handlers_of_busy {c : Nat} {hd : Handler} (h : Placed cpuOf handlers s)
    (hc : s.handler c = some hd) : handlers = true := by
  cases hh : handlers with
  | true => rfl
  | false => exact absurd ((h.quiet hh c).symm.trans hc) (Option.some_ne_none hd).symm

theorem Placed.handlerStep {c : Nat} {e : Event} (h : Placed cpuOf handlers s)
    (hok : Disciplined handlers s e) (hstep : handlerStep s c e = some s') : Placed cpuOf handlers s' := by
  have hbusy : ∀ hd, s.handler c = some hd → s.handler c ≠ none ∧ s.interruptFlag c = false := by
    intro hd hc
    have hne : s.handler c ≠ none := hc ▸ Option.some_ne_none hd
    exact ⟨hne, h.closed c hne⟩
  cases e with
  | interrupt c' =>
    simp only [StickyLock.handlerStep, Option.ite_none_right_eq_some, Option.some.injEq] at hstep
    obtain ⟨⟨hflag, -⟩, rfl⟩ := hstep
    refine h.atHandler rfl (fun c' hne => ?_) (fun t => h.cpu_ne (.inl hflag)) (fun _ => ?_) hok
    · exact ⟨Function.update_of_ne hne _ _, Function.update_of_ne hne _ _⟩
    · exact Function.update_self ..
  | handlerTryLock c' =>
    simp only [StickyLock.handlerStep, Option.ite_none_right_eq_some, Option.some.injEq] at hstep
    obtain ⟨hc, rfl⟩ := hstep
    obtain ⟨hne, hflag⟩ := hbusy _ hc
    exact h.atHandler rfl (fun c' hne => ⟨Function.update_of_ne hne _ _, rfl⟩) (fun t => h.cpu_ne (.inr hne))
      (fun _ => hflag) (h.handlers_of_busy hc)
  | handlerDoUnlock c' =>
    simp only [StickyLock.handlerStep, Option.ite_none_right_eq_some, Option.some.injEq] at hstep
    obtain ⟨hc, rfl⟩ := hstep
    obtain ⟨hne, hflag⟩ := hbusy _ hc
    exact h.atHandler rfl (fun c' hne => ⟨Function.update_of_ne hne _ _, rfl⟩) (fun t => h.cpu_ne (.inr hne))
      (fun _ => hflag) (h.handlers_of_busy hc)
  | iret c' =>
    simp only [StickyLock.handlerStep, Option.ite_none_right_eq_some, Option.some.injEq] at hstep
    obtain ⟨hc, rfl⟩ := hstep
    refine h.atHandler rfl (fun c' hne => ?_) (fun t => h.cpu_ne (.inr (hbusy _ hc).1)) (fun hne => ?_)
      (h.handlers_of_busy hc)
    · exact ⟨Function.update_of_ne hne _ _, Function.update_of_ne hne _ _⟩
    · exact (hne (Function.update_self ..)).elim
  | _ => simp [StickyLock.handlerStep] at hstep

/-- The thread of CPU `c` is not on its way through the lock, and another one gets the CPU. -/
theorem Placed.switch {c next : Nat} (h : Placed cpuOf handlers s) (hrun : s.handler c = none)
    (hnext : cpuOf next = c) (hout : (s.pc (s.currentThread c)).mode = none) :
    Placed cpuOf handlers (s.switch c next) := by
  -- a thread that is on its way runs on another CPU
  have hother : ∀ t, (s.pc t).mode ≠ none → cpuOf t ≠ c := by
    intro t ht heq
    have hcurrent := h.current t ht
    rw [heq] at hcurrent
    rw [hcurrent] at hout
    exact ht hout
  refine { h with home := fun c' => ?_, current := fun t ht => ?_, masked := fun t ht => ?_,
                  closed := fun c' hc' => ?_ }
  · by_cases heq : c' = c
    · simp [State.switch, heq, hnext]
    · simpa [State.switch, Function.update_of_ne heq] using h.home c'
  · simpa [State.switch, Function.update_of_ne (hother t ht)] using h.current t ht
  · have hne : (s.pc t).mode ≠ none := fun hnone => Option.some_ne_none _ (ht.symm.trans hnone)
    simpa [State.switch, Function.update_of_ne (hother t hne)] using h.masked t ht
  · have hne : c' ≠ c := fun heq => hc' (heq ▸ hrun)
    simpa [State.switch, Function.update_of_ne hne] using h.closed c' hc'

/-- **One step** keeps the threads in their places. -/
theorem Placed.step {e : Event} (h : Placed cpuOf handlers s) (hok : Disciplined handlers s e)
    (hstep : step cpuOf s e = some s') : Placed cpuOf handlers s' := by
  cases e with
  | tick c next =>
    simp only [StickyLock.step, Option.ite_none_right_eq_some, Option.some.injEq] at hstep
    obtain ⟨⟨hflag, hrun, hnext⟩, rfl⟩ := hstep
    split_ifs with hsticky
    · exact h
    · apply h.switch hrun hnext
      have hcount := h.sticky (s.currentThread c)
      rw [not_not.1 hsticky] at hcount
      cases hmode : (s.pc (s.currentThread c)).mode with
      | none => rfl
      | some mode =>
        cases mode with
        | sticky => simp [Pc.stickies, hmode] at hcount
        | cli => exact absurd (h.home c) (h.cpu_ne (.inl hflag) hmode)
  | yield c next =>
    simp only [StickyLock.step, Option.ite_none_right_eq_some, Option.some.injEq] at hstep
    obtain ⟨⟨hrun, hout, hnext⟩, rfl⟩ := hstep
    exact h.switch hrun hnext (by rw [hout]; rfl)
  | interrupt c | handlerTryLock c | handlerDoUnlock c | iret c => exact h.handlerStep hok hstep
  | lock c _ | disableInterrupts c | tryLock c | doUnlock c | leave c | otherSetSticky c
  | otherUnsetSticky c | otherDisable c | otherDisableInterrupts c | otherEnable c =>
    simp only [StickyLock.step, Option.ite_none_right_eq_some] at hstep
    exact h.threadStep hstep.1 hok hstep.2

/-! ## One step keeps the holder unique -/

theorem holds_setPc (s : State) (t : Nat) (pc : Pc) (x : Context) :
    (s.setPc t pc).Holds x ↔ if x = .thread t then ∃ mode, pc = .holding mode else s.Holds x := by
  cases x with
  | handler c => simp [State.Holds, State.setPc]
  | thread u =>
    by_cases hut : u = t
    · simp [State.Holds, State.setPc, hut]
    · simp [State.Holds, State.setPc, hut]

theorem holds_setHandler (s : State) (c : Nat) (handler : Option Handler) (x : Context) :
    (s.setHandler c handler).Holds x ↔ if x = .handler c then handler = some .holding else s.Holds x := by
  cases x with
  | thread t => simp [State.Holds, State.setHandler]
  | handler c' =>
    by_cases heq : c' = c
    · simp [State.Holds, State.setHandler, heq]
    · simp [State.Holds, State.setHandler, heq]

/-- A step of a thread outside of the part of the code that holds the lock. -/
theorem State.Owned.setPc {t : Nat} {pc : Pc} (h : s.Owned)
    (hiff : (∃ mode, pc = .holding mode) ↔ s.Holds (.thread t)) : (s.setPc t pc).Owned := by
  apply h.congr
  · rfl
  · intro x
    rw [holds_setPc]
    split_ifs with heq
    · rw [heq]
      exact hiff
    · rfl

/-- A step of a handler outside of that part. -/
theorem State.Owned.setHandler {c : Nat} {handler : Option Handler} (h : s.Owned)
    (hiff : handler = some .holding ↔ s.Holds (.handler c)) : (s.setHandler c handler).Owned := by
  apply h.congr
  · rfl
  · intro x
    rw [holds_setHandler]
    split_ifs with heq
    · rw [heq]
      exact hiff
    · rfl

theorem State.Owned.threadStep {c t : Nat} {e : Event} (h : s.Owned) (hstep : threadStep s c t e = some s') :
    s'.Owned := by
  cases e with
  | lock c' mode =>
    cases mode with
    | sticky =>
      simp only [StickyLock.threadStep, Option.ite_none_right_eq_some, Option.some.injEq] at hstep
      obtain ⟨hpc, rfl⟩ := hstep
      exact @State.Owned.setPc (s.threadSetSticky t) t _ h (by simp [State.Holds, State.threadSetSticky, hpc])
    | cli =>
      simp only [StickyLock.threadStep, Option.ite_none_right_eq_some, Option.some.injEq] at hstep
      obtain ⟨hpc, rfl⟩ := hstep
      refine State.Owned.setPc h ?_
      simp [State.Holds, hpc]
  | disableInterrupts c' =>
    simp only [StickyLock.threadStep, Option.ite_none_right_eq_some, Option.some.injEq] at hstep
    obtain ⟨hpc, rfl⟩ := hstep
    refine State.Owned.setPc h ?_
    simp [State.Holds, hpc]
  | tryLock c' =>
    cases hpc : s.pc t with
    | spinning mode =>
      simp only [StickyLock.threadStep, hpc, Option.some.injEq] at hstep
      subst hstep
      refine h.exchange (x := .thread t) rfl fun y => ?_
      rw [holds_setPc]
      show _ ↔ s.Holds y ∨ _
      split_ifs with heq hval
      · simp [heq, hval]
      · simp [heq, hval, State.Holds, hpc]
      all_goals
        simp only [heq, false_and, or_false]
        rfl
    | _ => simp [StickyLock.threadStep, hpc] at hstep
  | doUnlock c' =>
    cases hpc : s.pc t with
    | holding mode =>
      simp only [StickyLock.threadStep, hpc, Option.some.injEq] at hstep
      subst hstep
      refine h.release (x := .thread t) ⟨mode, hpc⟩ rfl fun y hy => ?_
      rw [holds_setPc] at hy
      split_ifs at hy with heq
      · simp at hy
      · exact ⟨hy, heq⟩
    | _ => simp [StickyLock.threadStep, hpc] at hstep
  | leave c' =>
    cases hpc : s.pc t with
    | released mode =>
      have hnot : ¬s.Holds (.thread t) := by simp [State.Holds, hpc]
      cases mode with
      | sticky =>
        simp only [StickyLock.threadStep, hpc, Option.some.injEq] at hstep
        subst hstep
        exact @State.Owned.setPc (s.threadUnsetSticky t) t _ h (iff_of_false (by simp) hnot)
      | cli =>
        simp only [StickyLock.threadStep, hpc, Option.some.injEq] at hstep
        subst hstep
        exact @State.Owned.setPc (s.threadEnableInterrupts c t) t _ h (iff_of_false (by simp) hnot)
    | _ => simp [StickyLock.threadStep, hpc] at hstep
  | otherSetSticky c' | otherDisable c' | otherDisableInterrupts c' =>
    simp only [StickyLock.threadStep, Option.some.injEq] at hstep
    subst hstep
    exact h
  | otherUnsetSticky c' | otherEnable c' =>
    simp only [StickyLock.threadStep, Option.ite_none_left_eq_some, Option.some.injEq] at hstep
    obtain ⟨-, rfl⟩ := hstep
    exact h
  | _ => simp [StickyLock.threadStep] at hstep

theorem State.Owned.handlerStep {c : Nat} {e : Event} (h : s.Owned) (hstep : handlerStep s c e = some s') :
    s'.Owned := by
  cases e with
  | interrupt c' =>
    simp only [StickyLock.handlerStep, Option.ite_none_right_eq_some, Option.some.injEq] at hstep
    obtain ⟨⟨-, hc⟩, rfl⟩ := hstep
    refine State.Owned.setHandler h ?_
    simp [State.Holds, hc]
  | handlerTryLock c' =>
    simp only [StickyLock.handlerStep, Option.ite_none_right_eq_some, Option.some.injEq] at hstep
    obtain ⟨hc, rfl⟩ := hstep
    refine h.exchange (x := .handler c) rfl fun y => ?_
    rw [holds_setHandler]
    split_ifs with heq hval
    · simp [heq, hval]
    · simp [heq, hval, State.Holds, hc]
    all_goals
      simp only [heq, false_and, or_false]
      rfl
  | handlerDoUnlock c' =>
    simp only [StickyLock.handlerStep, Option.ite_none_right_eq_some, Option.some.injEq] at hstep
    obtain ⟨hc, rfl⟩ := hstep
    refine h.release (x := .handler c) hc rfl fun y hy => ?_
    rw [holds_setHandler] at hy
    split_ifs at hy with heq
    · simp at hy
    · exact ⟨hy, heq⟩
  | iret c' =>
    simp only [StickyLock.handlerStep, Option.ite_none_right_eq_some, Option.some.injEq] at hstep
    obtain ⟨hc, rfl⟩ := hstep
    refine State.Owned.setHandler h ?_
    simp [State.Holds, hc]
  | _ => simp [StickyLock.handlerStep] at hstep

/-- **One step** keeps the holder unique. -/
theorem State.Owned.step {e : Event} (h : s.Owned) (hstep : step cpuOf s e = some s') : s'.Owned := by
  cases e with
  | tick c next =>
    simp only [StickyLock.step, Option.ite_none_right_eq_some, Option.some.injEq] at hstep
    obtain ⟨-, rfl⟩ := hstep
    split_ifs
    · exact h
    · exact h
  | yield c next =>
    simp only [StickyLock.step, Option.ite_none_right_eq_some, Option.some.injEq] at hstep
    obtain ⟨-, rfl⟩ := hstep
    exact h
  | interrupt c | handlerTryLock c | handlerDoUnlock c | iret c =>
    simp only [StickyLock.step] at hstep
    exact h.handlerStep hstep
  | lock c _ | disableInterrupts c | tryLock c | doUnlock c | leave c | otherSetSticky c
  | otherUnsetSticky c | otherDisable c | otherDisableInterrupts c | otherEnable c =>
    simp only [StickyLock.step, Option.ite_none_right_eq_some] at hstep
    exact h.threadStep hstep.2

/-! ## Every run -/

/-- No thread is in the lock's code, no handler runs, and the counts are those of other locks. -/
structure Start (cpuOf : Nat → Nat) (s : State) : Prop where
  free : s.m_Val = 0
  home : ∀ c, cpuOf (s.currentThread c) = c
  outside : ∀ t, s.pc t = .outside
  noHandler : ∀ c, s.handler c = none
  stickyCount : ∀ t, s.stickyCount t = s.otherSticky t
  cliCount : ∀ t, s.cliCount t = s.otherCli t

/-- Every CPU has one thread, which it runs with the interrupts on. -/
def State.initial : State where
  m_Val := 0
  currentThread c := c
  interruptFlag _ := true
  handler _ := none
  rflags _ := true
  stickyCount _ := 0
  cliCount _ := 0
  pc _ := .outside
  otherSticky _ := 0
  otherCli _ := 0

theorem State.start_initial : Start id State.initial where
  free := rfl
  home _ := rfl
  outside _ := rfl
  noHandler _ := rfl
  stickyCount _ := rfl
  cliCount _ := rfl

theorem Start.placed (h : Start cpuOf s) : Placed cpuOf handlers s where
  home := h.home
  sticky t := by rw [h.stickyCount, h.outside]; rfl
  cli t := by rw [h.cliCount, h.outside]; rfl
  current t ht := by simp [h.outside, Pc.mode] at ht
  masked t ht := by simp [h.outside, Pc.mode] at ht
  closed c hc := (hc (h.noHandler c)).elim
  disciplined _ t := by simp [h.outside, Pc.mode]
  quiet _ := h.noHandler

theorem Start.owned (h : Start cpuOf s) : s.Owned := by
  apply Or.inl
  refine ⟨h.free, fun x => ?_⟩
  cases x with
  | thread t => simp [State.Holds, h.outside]
  | handler c => simp [State.Holds, h.noHandler]

theorem State.Owned.run (es : List Event) (h : s.Owned)
    (hrun : exec (StickyLock.step cpuOf) es s = some s') : s'.Owned :=
  (runs_of_exec es hrun).inv h fun _ _ _ h _ hstep => h.step hstep

/-- What the lock promises. -/
structure State.Safe (cpuOf : Nat → Nat) (s : State) : Prop where
  /-- There is at most one holder. -/
  exclusive : ∀ x y, s.Holds x → s.Holds y → x = y
  /-- A thread that holds the lock has its CPU. -/
  running : ∀ t, s.Holds (.thread t) → s.currentThread (cpuOf t) = t
  /-- No handler runs on a CPU whose thread holds the lock, if it takes the lock. -/
  apart : ∀ c, s.handler c ≠ none → ¬s.Holds (.thread (s.currentThread c))
  /-- The next step of the holder can be to give the lock back. -/
  release : s.m_Val ≠ 0 → ∃ c s', s'.m_Val = 0 ∧
    (step cpuOf s (.doUnlock c) = some s' ∨ step cpuOf s (.handlerDoUnlock c) = some s')

theorem Placed.handler_eq_none {t : Nat} {mode : Mode} (h : Placed cpuOf handlers s)
    (ht : (s.pc t).mode = some mode) : s.handler (cpuOf t) = none := by
  cases hh : handlers with
  | false => exact h.quiet hh _
  | true =>
    cases mode with
    | sticky => exact absurd ht (h.disciplined hh t)
    | cli => exact (h.masked t ht).2

theorem safe_of_invariants (hplaced : Placed cpuOf handlers s) (howned : s.Owned) : s.Safe cpuOf where
  exclusive x y hx hy := by
    rcases howned with ⟨-, hnone⟩ | ⟨-, z, hz⟩
    · exact absurd hx (hnone x)
    · exact ((hz x).1 hx).trans ((hz y).1 hy).symm
  running t ht := by
    obtain ⟨mode, hpc⟩ := ht
    exact hplaced.current t (by simp [hpc, Pc.mode])
  apart c hc ht := by
    obtain ⟨mode, hpc⟩ := ht
    have hnone := @Placed.handler_eq_none _ _ _ (s.currentThread c) mode hplaced (by simp [hpc, Pc.mode])
    rw [hplaced.home c] at hnone
    exact hc hnone
  release hval := by
    rcases howned with ⟨hzero, -⟩ | ⟨-, x, hx⟩
    · exact absurd hzero hval
    · have hholds := (hx x).2 rfl
      cases x with
      | thread t =>
        obtain ⟨mode, hpc⟩ := hholds
        have hmode : (s.pc t).mode = some mode := by rw [hpc]; rfl
        have hcurrent := hplaced.current t (by rw [hmode]; exact Option.some_ne_none _)
        refine ⟨cpuOf t, { s with m_Val := 0 }.setPc t (.released mode), rfl, Or.inl ?_⟩
        rw [StickyLock.step, if_pos (hplaced.handler_eq_none hmode), hcurrent, threadStep, hpc]
      | handler c =>
        refine ⟨c, { s with m_Val := 0 }.setHandler c (some .released), rfl, Or.inr ?_⟩
        have hhandler : s.handler c = some .holding := hholds
        rw [StickyLock.step, handlerStep, if_pos hhandler]

/-- **The lock is safe**: if the threads use `Spinlock_Cli` where handlers take the lock, it keeps its promises
in every state of every run. -/
theorem safe_of_run (hstart : Start cpuOf s) (hrun : Runs (step cpuOf) (Disciplined handlers) s s') :
    s'.Safe cpuOf := by
  have hinv : Placed cpuOf handlers s' ∧ s'.Owned := by
    refine hrun.inv (I := fun s => Placed cpuOf handlers s ∧ s.Owned) ⟨hstart.placed, hstart.owned⟩ ?_
    intro s₁ e s₂ h hok hstep
    exact ⟨h.1.step hok hstep, h.2.step hstep⟩
  exact safe_of_invariants hinv.1 hinv.2

/-- The thread of CPU 0 has the lock, and a handler on CPU 1 waits for it. -/
theorem safe_two_cpus : ∃ s, exec (step id) [.lock 0 .cli, .disableInterrupts 0, .tryLock 0, .interrupt 1,
      .handlerTryLock 1] State.initial = some s ∧ s.Holds (.thread 0) ∧ s.handler 1 = some .spinning ∧
    s.Safe id := by
  refine ⟨_, rfl, ⟨.cli, rfl⟩, rfl, @safe_of_run id true _ _ State.start_initial ?_⟩
  refine .head (e := .lock 0 .cli) (fun _ => rfl) rfl ?_
  refine .head (e := .disableInterrupts 0) trivial rfl ?_
  refine .head (e := .tryLock 0) trivial rfl ?_
  refine .head (e := .interrupt 1) rfl rfl ?_
  exact .head (e := .handlerTryLock 1) trivial rfl (.refl _)

/-! ## Why handlers ask for `Spinlock_Cli` -/

/-- What a step of a thread leaves as it is. -/
theorem threadStep_frame {c t : Nat} {e : Event} (hstep : threadStep s c t e = some s') :
    s'.currentThread = s.currentThread ∧ s'.handler = s.handler ∧ ∀ u, u ≠ t → s'.pc u = s.pc u := by
  unfold threadStep at hstep
  split at hstep
  all_goals
    first
    | (split at hstep <;> cases hstep)
    | cases hstep
  all_goals
    refine ⟨rfl, rfl, fun u hu => ?_⟩
    simp [State.setPc, State.threadSetSticky, State.threadUnsetSticky, State.threadEnableInterrupts, hu]

/-- What a step of a handler leaves as it is. -/
theorem handlerStep_frame {c : Nat} {e : Event} (hstep : handlerStep s c e = some s') :
    s'.currentThread = s.currentThread ∧ s'.pc = s.pc ∧ ∀ c', c' ≠ c → s'.handler c' = s.handler c' := by
  unfold handlerStep at hstep
  split at hstep
  all_goals
    first
    | (split at hstep <;> cases hstep)
    | cases hstep
  all_goals
    refine ⟨rfl, rfl, fun c' hc' => ?_⟩
    simp [State.setHandler, hc']

/-- A handler waits for the thread `t` that it has interrupted. -/
structure State.Stuck (cpuOf : Nat → Nat) (c t : Nat) (s : State) : Prop where
  home : ∀ c, cpuOf (s.currentThread c) = c
  owned : s.Owned
  current : s.currentThread c = t
  holds : s.Holds (.thread t)
  spinning : s.handler c = some .spinning

namespace State.Stuck

variable {c t : Nat}

theorem taken (h : s.Stuck cpuOf c t) : s.m_Val = 1 := by
  rcases h.owned with ⟨-, hnone⟩ | ⟨hone, -⟩
  · exact absurd h.holds (hnone _)
  · exact hone

/-- Another CPU gets another thread. -/
theorem switch {c' next : Nat} (h : s.Stuck cpuOf c t) (hnone : s.handler c' = none) (hnext : cpuOf next = c')
    (howned : (s.switch c' next).Owned) : (s.switch c' next).Stuck cpuOf c t := by
  have hne : c ≠ c' := by
    intro heq
    rw [← heq, h.spinning] at hnone
    cases hnone
  refine ⟨fun c₁ => ?_, howned, ?_, h.holds, h.spinning⟩
  · by_cases heq : c₁ = c'
    · simp [State.switch, heq, hnext]
    · simpa [State.switch, heq] using h.home c₁
  · simpa [State.switch, hne] using h.current

/-- The handler goes on waiting. -/
theorem spinning_of_handlerStep {c' : Nat} {e : Event} (h : s.Stuck cpuOf c t)
    (hstep : handlerStep s c' e = some s') : s'.handler c = some .spinning := by
  have hspin := h.spinning
  by_cases heq : c = c'
  · subst heq
    have hone : ¬(1 : UInt64) = 0 := by decide
    cases e with
    | handlerTryLock c₁ =>
      simp only [handlerStep, hspin, if_true, Option.some.injEq] at hstep
      subst hstep
      simp [State.setHandler, h.taken, hone]
    | _ => simp [handlerStep, hspin] at hstep
  · exact ((handlerStep_frame hstep).2.2 c heq).trans hspin

/-- **One step**, whatever it is. -/
theorem step {e : Event} (h : s.Stuck cpuOf c t) (hstep : step cpuOf s e = some s') : s'.Stuck cpuOf c t := by
  have howned := h.owned.step hstep
  have hspin := h.spinning
  obtain ⟨mode, hholds⟩ := h.holds
  cases e with
  | tick c' next =>
    simp only [StickyLock.step, Option.ite_none_right_eq_some, Option.some.injEq] at hstep
    obtain ⟨⟨-, hnone, hnext⟩, rfl⟩ := hstep
    split_ifs at howned ⊢
    · exact h
    · exact h.switch hnone hnext howned
  | yield c' next =>
    simp only [StickyLock.step, Option.ite_none_right_eq_some, Option.some.injEq] at hstep
    obtain ⟨⟨hnone, -, hnext⟩, rfl⟩ := hstep
    exact h.switch hnone hnext howned
  | interrupt c' | handlerTryLock c' | handlerDoUnlock c' | iret c' =>
    simp only [StickyLock.step] at hstep
    obtain ⟨hcurrent, hpc, -⟩ := handlerStep_frame hstep
    exact ⟨hcurrent ▸ h.home, howned, hcurrent ▸ h.current, ⟨mode, (congrFun hpc t).trans hholds⟩,
      h.spinning_of_handlerStep hstep⟩
  | lock c' _ | disableInterrupts c' | tryLock c' | doUnlock c' | leave c' | otherSetSticky c'
  | otherUnsetSticky c' | otherDisable c' | otherDisableInterrupts c' | otherEnable c' =>
    simp only [StickyLock.step, Option.ite_none_right_eq_some] at hstep
    obtain ⟨hnone, hstep⟩ := hstep
    obtain ⟨hcurrent, hhandler, hpc⟩ := threadStep_frame hstep
    have hne : t ≠ s.currentThread c' := by
      intro heq
      have hcpu := h.home c'
      rw [← heq, ← h.current, h.home c] at hcpu
      rw [← hcpu, hspin] at hnone
      cases hnone
    exact ⟨hcurrent ▸ h.home, howned, hcurrent ▸ h.current, ⟨mode, (hpc t hne).trans hholds⟩, hhandler ▸ hspin⟩

end State.Stuck

end ChenixOS.StickyLock
