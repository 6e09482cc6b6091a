import ChenixOS.Exec.ELFArguments
import ChenixOS.Fs.State
import Mathlib.Data.Finset.Insert

/-!
# `exec`

`DoExec` of `exec/Process.cpp` with `ExecHandlerRegistry::Prepare` and `ThreadExec`.

What it calls of the file system is given by its results and by what it does to the heap of the kernel, of which only
the blocks that are live are here: the file system may add nodes to its cache, and it frees what it has allocated
itself. `none` stands for an access that must not be: outside of an array, a buffer or the pages of the new stack, or
through a null page pointer.
-/

namespace ChenixOS.Process

open MemoryManager ELF.Exec
open Scheduler (Registers)

/-! ## User memory -/

/-- The bytes of the process; where there is none, an access is a page fault. -/
abbrev UserMemory := Nat → Option UInt8

/-- `kmemcpy_usersafe(dest, src, count)` from byte `k` on, to a block of `room` bytes. A page fault ends it with
`false`. -/
def kmemcpyUsersafe (user : UserMemory) (room src : Nat) : (k count : Nat) → Option Bool
  | _, 0 => some true
  | k, count + 1 =>
    match user ((src + k) % wordSize) with
    | none => some false
    | some _ => if k < room then kmemcpyUsersafe user room src (k + 1) count else none

/-- `kpathcpy_usersafe`: a string, if its NUL is among the first `n` bytes and there is no page fault. -/
def kpathcpyUsersafe (user : UserMemory) : (n src : Nat) → Option CString
  | 0, _ => none
  | n + 1, src => do
    let b ← user (src % wordSize)
    if h : b = 0 then some CString.nil
    else do
      let rest ← kpathcpyUsersafe user n (src + 1)
      some (CString.cons b h rest)

/-- `kstrncpy(dst, src, n)` from user memory: the bytes up to the NUL, at most `n`. -/
def kstrncpy (user : UserMemory) : (n src : Nat) → Option (List UInt8)
  | 0, _ => some []
  | n + 1, src => do
    let b ← user (src % wordSize)
    if b = 0 then some []
    else do
      let rest ← kstrncpy user n (src + 1)
      some (b :: rest)

/-- The word of `n` bytes at `a`. -/
def readWord (user : UserMemory) : (n a : Nat) → Option Nat
  | 0, _ => some 0
  | n + 1, a => do
    let b ← user (a % wordSize)
    let w ← readWord user n (a + 1)
    some (b.toNat + 256 * w)

/-- The string at `argv[i]`. -/
def readString (user : UserMemory) (argv i : Nat) : Option CString := do
  let p ← readWord user 8 (argv + 8 * i)
  kpathcpyUsersafe user 255 p

/-- `for(; env[i] != nullptr && i < 128; i++) {}`; `n` rounds are left. -/
def countEnv (user : UserMemory) (env : Nat) : (n i : Nat) → Option Nat
  | 0, i => do
    let _ ← readWord user 8 (env + 8 * i)
    some i
  | n + 1, i => do
    let p ← readWord user 8 (env + 8 * i)
    if p = 0 then some i else countEnv user env n (i + 1)

/-! ## The kernel -/

/-- What `DoExec` reads of a `NodeStats`. -/
structure NodeStats where
  ownerUID : Nat
  ownerGID : Nat
  permissions : VFS.Permissions
  size : Nat

/-- A `FileDescriptor`: its block on the heap, and `path`. -/
structure FileDescriptor where
  block : Nat
  path : List UInt8

/-- What `DoExec` calls, for one command: the heap gives blocks that are not live, and the file system leaves the
blocks of others alone. -/
structure Kernel where
  alloc : Nat → Finset Nat → Nat
  stat : Finset Nat → Except Int NodeStats × Finset Nat
  openFile : Finset Nat → Except Int FileDescriptor × Finset Nat
  read : FileDescriptor → Nat → Finset Nat → (Nat → UInt8) × Finset Nat
  close : FileDescriptor → Finset Nat → Finset Nat
  alloc_fresh : ∀ size live, alloc size live ∉ live
  stat_keeps : ∀ live, live ⊆ (stat live).2
  open_keeps : ∀ live, live ⊆ (openFile live).2
  read_keeps : ∀ file size live, live ⊆ (read file size live).2
  close_keeps : ∀ live file, (openFile live).1 = .ok file → ∀ live', ∀ b ∈ live', b ∈ live ∨ b ∉ (openFile live).2 →
    b ∈ close file live'

/-- `ThreadMemSpace` -/
structure MemSpace where
  refCount : Nat
  pml4Entry : Nat
  deriving DecidableEq

/-- What there is of a `ThreadInfo`. -/
structure Thread where
  name : List UInt8
  exePath : List UInt8
  uid : Nat
  gid : Nat
  memSpace : MemSpace
  fds : List (Int × Nat)
  deriving DecidableEq

/-- The current thread, the live blocks of the heap, and the page tables. -/
structure World where
  thread : Thread
  live : Finset Nat
  memory : State

/-- How `DoExec` ends: it returns, the thread ends, or the program runs. -/
inductive Outcome
  | returned (error : Int)
  | threadExit
  | running (regs : Registers)

def ErrorPermissionDenied : Int := -5
def ErrorInvalidPath : Int := -8

/-! ## Copies of the arguments -/

/-- `new char[256]` for each of `n` strings, from `argv[i]` on, and a copy of the string. -/
def copyStrings (K : Kernel) (user : UserMemory) (argv : Nat) :
    (n i : Nat) → Finset Nat → Option (List (CString × Nat)) × Finset Nat
  | 0, _, live => (some [], live)
  | n + 1, i, live =>
    let a := K.alloc 256 live
    match readString user argv i with
    | none => (none, insert a live)
    | some str =>
      let r := copyStrings K user argv n (i + 1) (insert a live)
      (r.1.map ((str, a) :: ·), r.2)

/-- `envPtrCount`; it is 0 where `env` is null. -/
def envCount (user : UserMemory) (env : Nat) : Option Nat := if env = 0 then some 0 else countEnv user env 128 0

/-- `argPtrBuffer` and `envPtrBuffer`, their blocks, and the strings with theirs. -/
structure Copied where
  argPtrBuffer : Nat
  args : List (CString × Nat)
  envPtrBuffer : Nat
  envs : List (CString × Nat)

/-- The bytes that `argv` has according to `argc`. -/
def argvBytes (argc : Int) : Nat := (8 * argc % wordSize).toNat

/-- The copies of the arguments and of the environment. The result is `none` where the thread ends, and the blocks are
those that are live then; `buffer` is the block of the file. -/
def copyArguments (K : Kernel) (user : UserMemory) (argc : Int) (argv env buffer : Nat) (live : Finset Nat) :
    Option (Option Copied × Finset Nat) := do
  let argPtrBuffer := K.alloc (arrayRoom argc) live
  if ← kmemcpyUsersafe user (arrayRoom argc) argv 0 (argvBytes argc) then
    match copyStrings K user argv argc.toNat 0 (insert argPtrBuffer live) with
    | (none, live) => some (none, live)
    | (some args, live) =>
      match envCount user env with
      | none => some (none, live)
      | some envPtrCount =>
        if ArrayFits envPtrCount then
          let envPtrBuffer := K.alloc (arrayRoom (max envPtrCount 1)) live
          match copyStrings K user env envPtrCount 0 (insert envPtrBuffer live) with
          | (none, live) => some (none, live)
          | (some envs, live) => some (some ⟨argPtrBuffer, args, envPtrBuffer, envs⟩, live)
        else none
  else some (none, live.erase buffer)

/-! ## The call -/

/-- The check of the permission to execute. -/
def mayExecute (thread : Thread) (stats : NodeStats) : Prop :=
  thread.uid = 0 ∨
    (if stats.ownerUID = thread.uid then stats.permissions.ownerPermissions
      else if stats.ownerGID = thread.gid then stats.permissions.groupPermissions
      else stats.permissions.otherPermissions) &&& VFS.Permissions.execute ≠ 0

instance decidableMayExecute (thread : Thread) (stats : NodeStats) : Decidable (mayExecute thread stats) :=
  instDecidableOr

/-- `Permissions::SetUID` -/
def setUIDFlag : UInt8 := 0x1

/-- `ExecHandlerRegistry::Prepare`, with the one handler there is. -/
def prepare (buffer : Buffer) (pml4Entry : Nat) (argv env : List CString) (memory : State) :
    Option (Option Registers × State) := checkAndPrepare buffer pml4Entry argv env memory

/-- `ThreadExec` -/
def threadExec (K : Kernel) (pml4Entry : Nat) (w : World) : Option World := do
  if w.thread.memSpace.refCount = 1 then do
    let memory ←
      if w.thread.memSpace.pml4Entry ≠ 0 then freeProcessMap w.thread.memSpace.pml4Entry w.memory else some w.memory
    some { w with
      thread := { w.thread with memSpace := ⟨1, pml4Entry⟩ }
      memory := switchProcessMap pml4Entry memory }
  else
    some { w with
      thread := { w.thread with memSpace := ⟨1, pml4Entry⟩ }
      live := insert (K.alloc 16 w.live) w.live
      memory := switchProcessMap pml4Entry w.memory }

/-- From `CreateProcessMap` on; `buffer` is the block of the file and `image` are its bytes. -/
def startImage (K : Kernel) (stats : NodeStats) (buffer : Nat) (image : Buffer) (c : Copied) (w : World) :
    Option (Outcome × World) := do
  let (pml4Entry, memory) ← createProcessMap w.memory
  let (regs, memory) ← prepare image pml4Entry (c.args.map Prod.fst) (c.envs.map Prod.fst) memory
  match regs with
  | none =>
    let memory ← freeProcessMap pml4Entry memory
    some (.returned ErrorInvalidPath, { w with live := w.live.erase buffer, memory := memory })
  | some regs =>
    let blocks := buffer :: c.args.map Prod.snd ++ c.argPtrBuffer :: c.envs.map Prod.snd ++ [c.envPtrBuffer]
    let thread :=
      if stats.permissions.specialFlags &&& setUIDFlag ≠ 0 then
        { w.thread with uid := stats.ownerUID, gid := stats.ownerGID }
      else w.thread
    let w ← threadExec K pml4Entry ⟨thread, blocks.foldl Finset.erase w.live, memory⟩
    some (.running regs, w)

/-- From the read of the file on. -/
def loadFile (K : Kernel) (user : UserMemory) (command : Nat) (argc : Int) (argv env : Nat) (stats : NodeStats)
    (file : FileDescriptor) (w : World) : Option (Outcome × World) := do
  let buffer := K.alloc stats.size w.live
  let (bytes, live) := K.read file stats.size (insert buffer w.live)
  match kstrncpy user 255 command with
  | none => some (.threadExit, { w with live := live })
  | some name =>
    let thread := { w.thread with name := name, exePath := file.path.take 255 }
    match ← copyArguments K user argc argv env buffer (K.close file live) with
    | (none, live) => some (.threadExit, { w with thread := thread, live := live })
    | (some c, live) => startImage K stats buffer ⟨bytes, stats.size⟩ c { w with thread := thread, live := live }

/-- `DoExec` -/
def doExec (K : Kernel) (user : UserMemory) (command : Nat) (argc : Int) (argv env : Nat) (w : World) :
    Option (Outcome × World) :=
  if !isUserPtr command || !isUserPtr argv || (env != 0 && !isUserPtr env) then some (.threadExit, w)
  else
    match K.stat w.live with
    | (.error error, live) => some (.returned error, { w with live := live })
    | (.ok stats, live) =>
      if mayExecute w.thread stats then
        match K.openFile live with
        | (.error error, live) => some (.returned error, { w with live := live })
        | (.ok file, live) => loadFile K user command argc argv env stats file { w with live := live }
      else some (.returned ErrorPermissionDenied, { w with live := live })

end ChenixOS.Process
