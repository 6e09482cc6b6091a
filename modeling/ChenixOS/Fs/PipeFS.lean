import ChenixOS.Lib.Prog
import ChenixOS.Lib.Ring

/-!
# Pipes

`kernel/Kernel/fs/pipefs/PipeFS.cpp`: a pipe is a circular buffer of 4096 bytes with a read and
a write position, and the pipes of the file system sit in a vector whose slots are recycled.

`_Read` and `_Write` hold the lock of the pipe from beginning to end, so each is one step. They
copy from or to user memory, which may turn out to be inaccessible at any byte; the copy then
stops there. An access outside `Pipe::buffer` is a `fault`.
-/

namespace ChenixOS.PipeFS

/-- `sizeof(Pipe::buffer)` -/
abbrev bufferSizeof : Nat := 4096

structure Pipe where
  id : Nat
  free : Bool
  readPos : Nat
  writePos : Nat
  /-- `char buffer[4096]`; addresses from 4096 on are not part of it. -/
  buffer : Nat → UInt8

/-- The buffer a user passes: which of its bytes can be accessed, and their contents. -/
structure UserBuffer where
  valid : Nat → Bool
  byte : Nat → UInt8

/-- How many of the `n` bytes from `off` on are copied before the first inaccessible one. -/
def copied (valid : Nat → Bool) (off : Nat) : Nat → Nat
  | 0 => 0
  | n + 1 => if valid off then copied valid (off + 1) n + 1 else 0

/-- `kmemcpy_usersafe(p->buffer + pos, user + off, n)` -/
def copyFromUser (buffer : Nat → UInt8) (pos : Nat) (user : UserBuffer) (off n : Nat) :
    Except Stop (Bool × (Nat → UInt8)) :=
  if pos + n > bufferSizeof then .error .fault
  else
    let k := copied user.valid off n
    .ok (k = n, Ring.overlay buffer pos k fun i => user.byte (off + i))

/-- `kmemcpy_usersafe(user + off, p->buffer + pos, n)` -/
def copyToUser (user : UserBuffer) (off : Nat) (buffer : Nat → UInt8) (pos n : Nat) :
    Except Stop (Bool × UserBuffer) :=
  if pos + n > bufferSizeof then .error .fault
  else
    let k := copied user.valid off n
    .ok (k = n, { user with byte := Ring.overlay user.byte off k fun i => buffer (pos + i) })

/-- What `_Read` and `_Write` return. -/
inductive Ret
  | count (n : Nat)
  | invalidBuffer
  deriving DecidableEq, Repr

/-- `_Read(p, buffer, bufferSize)` -/
def Pipe.read (p : Pipe) (user : UserBuffer) (bufferSize : Nat) :
    Except Stop (Ret × Pipe × UserBuffer) :=
  if p.readPos = p.writePos then .ok (.count 0, p, user)
  else if p.readPos < p.writePos then do
    let rem := p.writePos - p.readPos
    let rem := if rem > bufferSize then bufferSize else rem
    let (ok, user) ← copyToUser user 0 p.buffer p.readPos rem
    if !ok then .ok (.invalidBuffer, p, user)
    else .ok (.count rem, { p with readPos := p.readPos + rem }, user)
  else do
    let remA := bufferSizeof - p.readPos
    let remB := p.writePos
    let (remA, remB) :=
      if remA > bufferSize then (bufferSize, 0)
      else if remA + remB > bufferSize then (remA, bufferSize - remA)
      else (remA, remB)
    let (ok, user) ← copyToUser user 0 p.buffer p.readPos remA
    if !ok then .ok (.invalidBuffer, p, user)
    else do
      let (ok, user) ← copyToUser user remA p.buffer 0 remB
      if !ok then .ok (.invalidBuffer, p, user)
      else .ok (.count (remA + remB),
        { p with readPos := (p.readPos + (remA + remB)) % bufferSizeof }, user)

/-- `_Write(p, buffer, bufferSize)` -/
def Pipe.write (p : Pipe) (user : UserBuffer) (bufferSize : Nat) : Except Stop (Ret × Pipe) :=
  if p.writePos < p.readPos then do
    let rem := p.readPos - p.writePos - 1
    let rem := if rem > bufferSize then bufferSize else rem
    let (ok, buffer) ← copyFromUser p.buffer p.writePos user 0 rem
    if !ok then .ok (.invalidBuffer, { p with buffer })
    else .ok (.count rem, { p with buffer, writePos := p.writePos + rem })
  else if p.readPos > 0 then do
    let remA := bufferSizeof - p.writePos
    let remB := p.readPos - 1
    let (remA, remB) :=
      if remA > bufferSize then (bufferSize, 0)
      else if remA + remB > bufferSize then (remA, bufferSize - remA)
      else (remA, remB)
    let (ok, buffer) ← copyFromUser p.buffer p.writePos user 0 remA
    if !ok then .ok (.invalidBuffer, { p with buffer })
    else do
      let (ok, buffer) ← copyFromUser buffer 0 user remA remB
      if !ok then .ok (.invalidBuffer, { p with buffer })
      else .ok (.count (remA + remB),
        { p with buffer, writePos := (p.writePos + (remA + remB)) % bufferSizeof })
  else do
    let rem := bufferSizeof - p.writePos - 1
    let rem := if rem > bufferSize then bufferSize else rem
    let (ok, buffer) ← copyFromUser p.buffer p.writePos user 0 rem
    if !ok then .ok (.invalidBuffer, { p with buffer })
    else .ok (.count rem, { p with buffer, writePos := p.writePos + rem })

/-- Reading does not change which slot a pipe is in. -/
theorem Pipe.read_id {p p' : Pipe} {user user' : UserBuffer} {n : Nat} {ret : Ret}
    (h : p.read user n = .ok (ret, p', user')) : p'.id = p.id := by
  unfold Pipe.read at h
  simp only [bind, Except.bind] at h
  repeat' split at h
  all_goals cases h
  all_goals rfl

/-- Writing does not change which slot a pipe is in. -/
theorem Pipe.write_id {p p' : Pipe} {user : UserBuffer} {n : Nat} {ret : Ret}
    (h : p.write user n = .ok (ret, p')) : p'.id = p.id := by
  unfold Pipe.write at h
  simp only [bind, Except.bind] at h
  repeat' split at h
  all_goals cases h
  all_goals rfl

/-! ## The file system -/

/-- `std::vector<Pipe*> m_Pipes` -/
abbrev Pipes := List Pipe

/-- The loop of `CreateNode` over the vector: the first free slot, emptied and taken. -/
def recycle : Pipes → Option (Nat × Pipes)
  | [] => none
  | p :: pipes =>
      if p.free then
        some (p.id, { p with free := false, readPos := 0, writePos := 0 } :: pipes)
      else (recycle pipes).map fun (id, pipes) => (id, p :: pipes)

/-- `PipeFS::CreateNode`: the `id` the new node gets, and the vector afterwards. -/
def createNode (pipes : Pipes) : Nat × Pipes :=
  match recycle pipes with
  | some r => r
  | none => (pipes.length, pipes ++ [⟨pipes.length, false, 0, 0, fun _ => 0⟩])

/-- `PipeFS::DestroyNode` -/
def destroyNode (pipes : Pipes) (id : Nat) : Except Stop Pipes :=
  match pipes[id]? with
  | none => .error .fault
  | some p => .ok (pipes.set id { p with free := true })

/-- `_Read(m_Pipes[id], ..)`, one round of `PipeFS::ReadNodeData` -/
def readPipe (pipes : Pipes) (id : Nat) (user : UserBuffer) (bufferSize : Nat) :
    Except Stop (Ret × Pipes × UserBuffer) :=
  match pipes[id]? with
  | none => .error .fault
  | some p => do
      let (ret, p, user) ← p.read user bufferSize
      .ok (ret, pipes.set id p, user)

/-- `_Write(m_Pipes[id], ..)`, one round of `PipeFS::WriteNodeData` -/
def writePipe (pipes : Pipes) (id : Nat) (user : UserBuffer) (bufferSize : Nat) :
    Except Stop (Ret × Pipes) :=
  match pipes[id]? with
  | none => .error .fault
  | some p => do
      let (ret, p) ← p.write user bufferSize
      .ok (ret, pipes.set id p)

/-- Reading changes the pipe in its slot. -/
theorem readPipe_eq_ok {pipes pipes' : Pipes} {id bufferSize : Nat} {user user' : UserBuffer}
    {ret : Ret} (h : readPipe pipes id user bufferSize = .ok (ret, pipes', user')) :
    ∃ p p', pipes[id]? = some p ∧ p'.id = p.id ∧ pipes' = pipes.set id p' := by
  unfold readPipe at h
  split at h
  · cases h
  · next p hp =>
    cases hread : p.read user bufferSize with
    | error e =>
      rw [hread] at h
      cases h
    | ok out =>
      obtain ⟨ret', p', user''⟩ := out
      rw [hread] at h
      cases h
      exact ⟨p, p', hp, Pipe.read_id hread, rfl⟩

/-- Writing changes the pipe in its slot. -/
theorem writePipe_eq_ok {pipes pipes' : Pipes} {id bufferSize : Nat} {user : UserBuffer}
    {ret : Ret} (h : writePipe pipes id user bufferSize = .ok (ret, pipes')) :
    ∃ p p', pipes[id]? = some p ∧ p'.id = p.id ∧ pipes' = pipes.set id p' := by
  unfold writePipe at h
  split at h
  · cases h
  · next p hp =>
    cases hwrite : p.write user bufferSize with
    | error e =>
      rw [hwrite] at h
      cases h
    | ok out =>
      obtain ⟨ret', p'⟩ := out
      rw [hwrite] at h
      cases h
      exact ⟨p, p', hp, Pipe.write_id hwrite, rfl⟩

end ChenixOS.PipeFS
