import ChenixOS.Lib.Buffer
import ChenixOS.Fs.Path

/-!
# Preparing a path in its buffer

`PreparePath` of `fs/VFS.cpp` with the functions that it calls, as the passes over one buffer that they
are. All of them are over the size of the buffer, and an access to an index outside of it gives `none`,
as a use of more than the 128 slots of the stack of `NormalizePath` does.
-/

namespace ChenixOS.VFS.PathBuffer

open Buffer

/-- The characters from the start of the buffer on. -/
abbrev Buf := Nat → Char

/-- `'\0'` -/
def nul : Char := Char.ofNat 0

variable (size : Nat)

/-! ## `klib` -/

def kstrlen (b : Buf) (pos : Nat) : Option Nat :=
  count size (fun c => decide (c ≠ nul)) b pos (size + 1) 0

/-- `kstrcmp(&b[pos], s) == 0` -/
def kstrcmpEq (b : Buf) (pos : Nat) : Str → Option Bool
  | [] => do
    let c ← read size b pos
    some (decide (c = nul))
  | a :: s => do
    let c ← read size b pos
    if c = a then kstrcmpEq b (pos + 1) s else some false

/-- `kmemcpy` from one place of the buffer to another: quad words first, then the bytes that are left. -/
def kmemcpy (dst src n : Nat) (b : Buf) : Option Buf := do
  let b ← copyBlocks size 8 (n / 8) dst src b
  copyBlocks size 1 (n % 8) (dst + n / 8 * 8) (src + n / 8 * 8) b

def kmemmove (dst src n : Nat) (b : Buf) : Option Buf :=
  if dst = src then some b
  else if dst < src then kmemcpy size dst src n b
  else copyDown size dst src n b

/-- `kmemcpy` of a string that is not in the buffer. -/
def kmemcpyFrom (dst : Nat) : Str → Buf → Option Buf
  | [], b => some b
  | c :: s, b => do
    let b ← write size b dst c
    kmemcpyFrom (dst + 1) s b

/-- The loop of `_kpathcpy_usersafe`, with `rcx` rounds to go; a page fault at `src i` is `none` there. The
result is `none` when the function returns false. -/
def kpathcpyLoop (src : Nat → Option Char) : Nat → Nat → Buf → Option (Option Buf)
  | 0, _, _ => some none
  | rcx + 1, i, b =>
    match src i with
    | none => some none
    | some c => do
      let b ← write size b i c
      if c = nul then some (some b) else kpathcpyLoop src rcx (i + 1) b

def kpathcpyUsersafe (src : Nat → Option Char) (b : Buf) : Option (Option Buf) :=
  kpathcpyLoop size src 255 0 b

/-! ## `VFS` -/

def prepareRelativePath (cwd : Str) (b : Buf) : Option (Except Error Buf) := do
  let lengthA ← kstrlen size b 0
  let lengthB := cwd.length
  if lengthB = 0 then some (.ok b)
  else if lengthA + lengthB + 2 > 256 then some (.error .pathTooLong)
  else do
    let b ← kmemmove size (lengthB + 1) 0 lengthA b
    let b ← kmemcpyFrom size 0 cwd b
    let b ← write size b lengthB '/'
    let b ← write size b (lengthA + lengthB + 1) nul
    some (.ok b)

def prepareAbsolutePath (b : Buf) : Option Buf := do
  let numSlashes ← count size (fun c => decide (c = '/')) b 0 (size + 1) 0
  let length ← kstrlen size b 0
  kmemcpy size 0 numSlashes (length + 1) b

/-- The loop of `PreparePath` over the slashes, from index `i` on with `n` characters to go. -/
def squeezeLoop : Nat → Nat → Nat → Bool → Buf → Option (Nat × Bool × Buf)
  | 0, _, writePos, lastWasSlash, b => some (writePos, lastWasSlash, b)
  | n + 1, i, writePos, lastWasSlash, b => do
    let c ← read size b i
    if c = '/' then
      if lastWasSlash then squeezeLoop n (i + 1) writePos true b
      else do
        let b ← write size b writePos '/'
        squeezeLoop n (i + 1) (writePos + 1) true b
    else do
      let b ← write size b writePos c
      squeezeLoop n (i + 1) (writePos + 1) false b

/-- `stack[stackSize++] = dir`, on a stack of 128 pointers. -/
def push (stack : List Nat) (dir : Nat) : Option (List Nat) :=
  if stack.length < 128 then some (stack ++ [dir]) else none

/-- The first loop of `NormalizePath`, from index `i` on. A character outside of the buffer ends it, so
there are at most as many rounds as it has characters. -/
def splitLoop : Nat → Nat → List Nat → Nat → Buf → Option (List Nat × Buf)
  | 0, _, _, _, _ => none
  | fuel + 1, i, stack, currentDir, b => do
    let c ← read size b i
    if c = nul then do
      let stack ← push stack currentDir
      some (stack, b)
    else if c = '/' then do
      let b ← write size b i nul
      let stack ← push stack currentDir
      splitLoop fuel (i + 1) stack (i + 1) b
    else
      splitLoop fuel (i + 1) stack currentDir b

/-- The second loop: `done` is the stack below the index `i`, topmost first, and `todo` is what lies from
`i` on. -/
def dotsLoop (b : Buf) : List Nat → List Nat → Option (List Nat)
  | done, [] => some done.reverse
  | done, dir :: todo => do
    if ← kstrcmpEq size b dir ['.'] then dotsLoop b done todo
    else if ← kstrcmpEq size b dir ['.', '.'] then
      match done with
      | [] => dotsLoop b [] todo
      | _ :: done => dotsLoop b done todo
    else dotsLoop b (dir :: done) todo

/-- The third loop; `first` tells whether `i` is 0. -/
def joinLoop : List Nat → Bool → Nat → Buf → Option (Nat × Buf)
  | [], _, pos, b => some (pos, b)
  | dir :: stack, first, pos, b => do
    let l ← kstrlen size b dir
    if first then do
      let b ← kmemcpy size pos dir l b
      joinLoop stack false (pos + l) b
    else do
      let b ← write size b pos '/'
      let b ← kmemcpy size (pos + 1) dir l b
      joinLoop stack false (pos + 1 + l) b

def normalizePath (b : Buf) : Option Buf := do
  let (stack, b) ← splitLoop size (size + 1) 0 [] 0 b
  let stack ← dotsLoop size b [] stack
  let (pos, b) ← joinLoop size stack true 0 b
  write size b pos nul

/-- The part of `PreparePath` behind the two cases, for an absolute path without leading slash. -/
def canonicalize (b : Buf) : Option Buf := do
  let length ← kstrlen size b 0
  let (writePos, lastWasSlash, b) ← squeezeLoop size length 0 0 false b
  let b ← if lastWasSlash then write size b (writePos - 1) nul else write size b writePos nul
  normalizePath size b

def preparePath (cwd : Str) (userPath : Nat → Option Char) (b : Buf) : Option (Except Error Buf) := do
  match ← kpathcpyUsersafe size userPath b with
  | none => some (.error .invalidBuffer)
  | some b => do
    let c ← read size b 0
    if c ≠ '/' then
      match ← prepareRelativePath size cwd b with
      | .error e => some (.error e)
      | .ok b => (canonicalize size b).map .ok
    else do
      let b ← prepareAbsolutePath size b
      (canonicalize size b).map .ok

end ChenixOS.VFS.PathBuffer
