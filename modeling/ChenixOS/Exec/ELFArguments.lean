import ChenixOS.Exec.ELF
import ChenixOS.Memory.KernelMalloc
import ChenixOS.Task.Thread

/-!
# The arguments of a program

`ELFExecHandler::CheckAndPrepare` of `exec/elf/ELF.cpp` from the stack on: the strings of the arguments and of the
environment, the arrays of pointers to them, the `ELFProgramInfo` and the registers.

`none` stands for an access that must not be here too: outside of an array, or outside of the pages of the stack.
-/

namespace ChenixOS.ELF.Exec

open MemoryManager

/-! ## Strings and arrays -/

/-- A string, up to its NUL. -/
structure CString where
  chars : List UInt8
  noNul : 0 ∉ chars

def CString.nil : CString := ⟨[], List.not_mem_nil⟩

def CString.cons (b : UInt8) (h : b ≠ 0) (a : CString) : CString :=
  ⟨b :: a.chars, List.not_mem_cons_of_ne_of_not_mem h.symm a.noNul⟩

/-- The `kstrlen + 1` bytes of a string. -/
def CString.bytes (a : CString) : List UInt8 := a.chars ++ [0]

/-- What `new char*[n]` makes room for, in bytes. Where `n` is below 0 the compiler asks for the largest size there is;
`kmalloc` takes its size modulo `2 ^ 32`. -/
def arrayRoom (n : Int) : Nat :=
  KernelHeap.blockSize ((if n < 0 then wordSize - 1 else (8 * n).toNat) % KernelHeap.sizeTop) - 64

/-- The `n` entries of a new array are in its block. -/
def ArrayFits (n : Nat) : Prop := 8 * n ≤ arrayRoom n

instance decidableArrayFits (n : Nat) : Decidable (ArrayFits n) := Nat.decLe _ _

/-- The bytes of a pointer. -/
def pointerBytes (p : Nat) : List UInt8 := (List.range 8).map (Words.byte p)

/-- `*(ELFProgramInfo*)`: `argc` is followed by four bytes that are not used. -/
def ELFProgramInfo.bytes (info : ELFProgramInfo) : List UInt8 :=
  [info.masterTLSAddress, info.masterTLSSize, (info.argc % 2 ^ 32).toNat, info.argv, info.env].flatMap pointerBytes

/-! ## The stack -/

/-- `virtStack`, and `argSize` or, after the arguments, `argSize + envSize`. -/
structure Cursor where
  virtStack : Nat
  size : Nat

/-- `stackBase + 16 * 4096 - size` -/
def Cursor.user (c : Cursor) : Nat := stackBase + 16 * 4096 - c.size

/-- Bytes are stored below the cursor. The pages of the stack begin at `bottom`. -/
def push (bottom : Nat) (b : List UInt8) (st : Cursor × State) : Option (Cursor × State) :=
  if bottom + b.length ≤ st.1.virtStack then
    some (⟨st.1.virtStack - b.length, st.1.size + b.length⟩,
      st.2.storeBytes (st.1.virtStack - b.length) b.length fun i => b.getD i 0)
  else none

/-- The strings of the arguments, from the last on, and then the pointers to them. -/
def pushArgv (bottom : Nat) (argv : List CString) (st : Cursor × State) : Option (Cursor × State) := do
  if ArrayFits argv.length then do
    let (userArgv, st) ← argv.foldrM (fun a (userArgv, st) => do
      let st ← push bottom a.bytes st
      some (st.1.user :: userArgv, st)) (([] : List Nat), st)
    userArgv.foldrM (fun p st => push bottom (pointerBytes p) st) st
  else none

/-- The strings of the environment, from the first on, and then the pointers to them and a null pointer. -/
def pushEnv (bottom : Nat) (env : List CString) (st : Cursor × State) : Option (Cursor × State) := do
  if ArrayFits (env.length + 1) then do
    let (userEnv, st) ← env.foldlM (fun (userEnv, st) a => do
      let st ← push bottom a.bytes st
      some (userEnv ++ [st.1.user], st)) (([] : List Nat), st)
    let st ← userEnv.foldlM (fun st p => push bottom (pointerBytes p) st) st
    push bottom (pointerBytes 0) st
  else none

open Scheduler (Registers)

/-- The registers a program begins with; `info` is where its `ELFProgramInfo` is. -/
def startRegisters (entryPoint info : Nat) : Registers
  | .cs => Scheduler.GDT.UserCode
  | .ds => Scheduler.GDT.UserData
  | .ss => Scheduler.GDT.UserData
  | .rflags => 0x200
  | .rip => UInt64.ofNat entryPoint
  | .userrsp => UInt64.ofNat info
  | .rdi => UInt64.ofNat info
  | _ => 0

/-- `CheckAndPrepare` after the image of the program. -/
def pushArguments (image : Image) (argv env : List CString) (s : State) : Option (Registers × State) := do
  let bottom := physToKernelPtr image.physStack
  let st ← pushArgv bottom argv (⟨bottom + 16 * 4096, 0⟩, s)
  let userArgv := st.1.user
  let st ← pushEnv bottom env st
  let progInfo := { image.progInfo with argc := argv.length, argv := userArgv, env := st.1.user }
  let st ← push bottom progInfo.bytes st
  some (startRegisters image.entryPoint st.1.user, st.2)

/-- `ELFExecHandler::CheckAndPrepare`; the result is `none` where the file is none for it. -/
def checkAndPrepare (buffer : Buffer) (pml4Entry : Nat) (argv env : List CString) (s : State) :
    Option (Option Registers × State) := do
  let (image, s) ← prepareImage buffer pml4Entry s
  match image with
  | none => some (none, s)
  | some image =>
    let (regs, s) ← pushArguments image argv env s
    some (some regs, s)

end ChenixOS.ELF.Exec
