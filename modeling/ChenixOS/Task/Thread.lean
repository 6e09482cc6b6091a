import Mathlib.Logic.Function.Basic

/-!
# Threads: saved registers and kills

What a thread's record (task/Thread.h) holds of its registers, and what `UpdateEvents` does to the
saved registers of a thread that has a kill or an abort pending (task/Scheduler.cpp).
-/

namespace ChenixOS.Scheduler

/-- `IDT::Registers`, in the order of its fields. -/
inductive Reg
  | ds
  | r15 | r14 | r13 | r12 | r11 | r10 | r9 | r8
  | rdi | rsi | rbp | rbx | rdx | rcx | rax
  | intNumber | errorCode
  | rip | cs | rflags | userrsp | ss
  deriving DecidableEq

abbrev Registers := Reg → UInt64

/-- `ThreadState::Type` -/
inductive ThreadState
  | ready
  | sleep
  | queueLock
  | join
  | finished
  | exited
  deriving DecidableEq

namespace GDT

def KernelCode : UInt64 := 0x08
def KernelData : UInt64 := 0x10
def UserCode : UInt64 := 0x23
def UserData : UInt64 := 0x1B

end GDT

def OK : UInt64 := 0

/-- -200, as an unsigned word. -/
def ErrorInterrupted : UInt64 := 0xFFFFFFFFFFFFFF38

/-- The fields of `ThreadInfo` that a kill reads and writes. -/
structure KillState where
  registers : Registers
  killPending : Bool
  killHandlerRip : UInt64
  killHandlerRsp : UInt64
  killHandlerSignum : UInt64
  killHandlerReturnState : Registers
  abortPending : Bool
  kernelStack : UInt64

/-- The test of the privilege level in `cs`. -/
def kernelMode (regs : Registers) : Bool := regs .cs &&& 0x3 == 0

/-- The registers of a thread that is to call `ThreadExit(1)`, at the address `threadExit`. -/
def exitRegisters (threadExit kernelStack : UInt64) (regs : Registers) : Registers
  | .cs => GDT.KernelCode
  | .ds => GDT.KernelData
  | .ss => GDT.KernelData
  | .rip => threadExit
  | .userrsp => kernelStack
  | .rdi => 1
  | r => regs r

/-- The registers of a thread that is to enter its kill handler. -/
def handlerRegisters (t : KillState) : Registers
  | .rip => t.killHandlerRip
  | .userrsp => t.killHandlerRsp
  | .rdi => t.killHandlerSignum
  | r => t.registers r

/-- `SetupKillHandlerFromTick` -/
def setupKillHandlerFromTick (threadExit : UInt64) (t : KillState) : KillState :=
  if t.killHandlerRip != 0 then
    { t with killHandlerReturnState := t.registers, registers := handlerRegisters t }
  else
    { t with registers := exitRegisters threadExit t.kernelStack t.registers }

/-- The branch of `UpdateEvents` for a thread in state READY. The mode is tested before the kill is
delivered, so an abort then also overrides a handler. -/
def deliver (threadExit : UInt64) (t : KillState) : KillState :=
  if kernelMode t.registers then t
  else
    let t := if t.killPending then
        setupKillHandlerFromTick threadExit { t with killPending := false }
      else t
    if t.abortPending then
      { t with
        abortPending := false
        registers := exitRegisters threadExit t.kernelStack t.registers }
    else t

section

variable {threadExit : UInt64} {t : KillState}

@[simp] theorem handlerRegisters_rax : handlerRegisters t .rax = t.registers .rax := rfl

@[simp] theorem exitRegisters_rax {kernelStack : UInt64} {regs : Registers} :
    exitRegisters threadExit kernelStack regs .rax = regs .rax := rfl

/-- A delivery does not touch the return value of a call. -/
theorem deliver_rax : (deliver threadExit t).registers .rax = t.registers .rax := by
  cases hk : kernelMode t.registers <;> cases hp : t.killPending <;>
    cases ha : t.abortPending <;> cases hr : t.killHandlerRip != 0 <;>
    simp [deliver, setupKillHandlerFromTick, hk, hp, ha, hr]

end

end ChenixOS.Scheduler
