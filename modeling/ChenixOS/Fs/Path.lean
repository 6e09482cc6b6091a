import ChenixOS.Lib.Prog
import Mathlib.Data.List.Infix

/-!
# Path strings

The string functions of `kernel/Kernel/fs/VFS.cpp`. A C string is the list of its characters
before the terminator; a path buffer holds such a string, and the functions that rewrite a
buffer in place return the string they leave in it.

* `preparePath` turns what the user passed into the form `dir/dir2/file`;
* `mountCmp`, `advancePath` match a path against the path of a mount;
* `pathWalk`, `isLastPathEntry`, `getFileName` take a path apart at its slashes.
-/

namespace ChenixOS.VFS

/-- A C string, without its terminator. -/
abbrev Str := List Char

/-- The error codes of `klib/errno.h` that the file system returns. -/
inductive Error
  | fileNotFound
  | permissionDenied
  | invalidFD
  | invalidBuffer
  | invalidFileSystem
  | fileExists
  | seekOffsetOOB
  | pathTooLong
  | hardlinkToFolder
  | hardlinkToDifferentFS
  | deleteMountPoint
  | folderNotEmpty
  | notAFolder
  | folderAlreadyMounted
  | notABlockDevice
  | notAMountPoint
  | unmountRoot
  | mountPointBusy
  | openFolder
  | notADevice
  deriving DecidableEq, Repr

/-! ## Preparing a path -/

def isPathRelative (path : Str) : Bool := path.head? != some '/'

/-- Put the thread's `cwd` in front. The sum is tested against 256, whatever the size of the
buffer; in a smaller buffer the terminator may land behind its end. -/
def prepareRelativePath (bufSize : Nat) (cwd path : Str) : Except Stop (Except Error Str) :=
  if cwd.length = 0 then .ok (.ok path)
  else if path.length + cwd.length + 2 > 256 then .ok (.error .pathTooLong)
  else if path.length + cwd.length + 2 > bufSize then .error .overflow
  else .ok (.ok (cwd ++ '/' :: path))

def prepareAbsolutePath (path : Str) : Str := path.dropWhile (· = '/')

/-- The loop of `preparePath` that writes one slash for each run of them. It returns what was
written and whether that ends in a slash. -/
def squeezeSlashes (lastWasSlash : Bool) : Str → Str × Bool
  | [] => ([], lastWasSlash)
  | c :: cs =>
      if c = '/' then
        let (out, last) := squeezeSlashes true cs
        if lastWasSlash then (out, last) else ('/' :: out, last)
      else
        let (out, last) := squeezeSlashes false cs
        (c :: out, last)

/-- The middle loop of `normalizePath`: `done` is the stack below the index `i`, topmost
first, and `todo` is what lies from `i` on. -/
def normalizeStack : List Str → List Str → List Str
  | done, [] => done.reverse
  | done, dir :: todo =>
      if dir = ['.'] then normalizeStack done todo
      else if dir = ['.', '.'] then
        match done with
        | [] => normalizeStack [] todo
        | _ :: done => normalizeStack done todo
      else normalizeStack (dir :: done) todo

def normalizePath (path : Str) : Str :=
  List.intercalate ['/'] (normalizeStack [] (path.splitOn '/'))

/-- Copy a path from user memory (`none`: not readable) into a buffer. At most 255 bytes are
copied, the terminator included. -/
def kpathcpyUsersafe : Option Str → Option Str
  | none => none
  | some path => if path.length < 255 then some path else none

/-- What `PreparePath` leaves in a buffer of `bufSize` bytes. -/
def preparePath (bufSize : Nat) (cwd : Str) (userPath : Option Str) :
    Except Stop (Except Error Str) :=
  match kpathcpyUsersafe userPath with
  | none => .ok (.error .invalidBuffer)
  | some path => do
      let absolute ← if isPathRelative path then prepareRelativePath bufSize cwd path
        else .ok (.ok (prepareAbsolutePath path))
      match absolute with
      | .error e => .ok (.error e)
      | .ok path =>
          let (out, lastWasSlash) := squeezeSlashes false path
          .ok (.ok (normalizePath (if lastWasSlash then out.dropLast else out)))

/-- `preparePath` stops only where the terminator lands behind the end of the buffer. -/
theorem preparePath_error {bufSize : Nat} {cwd : Str} {userPath : Option Str} {e : Stop}
    (h : preparePath bufSize cwd userPath = .error e) : e = .overflow := by
  unfold preparePath at h
  cases hcpy : kpathcpyUsersafe userPath with
  | none =>
    rw [hcpy] at h
    cases h
  | some path =>
    simp only [hcpy] at h
    split_ifs at h with hrel
    · unfold prepareRelativePath at h
      split_ifs at h
      · cases h
      · cases h
      · cases h
        rfl
      · cases h
    · cases h

/-! ## Matching a path against a mount -/

def mountCmp : Str → Str → Bool
  | path, [] => path.head? = none ∨ path.head? = some '/'
  | [], _ :: _ => false
  | p :: path, m :: mount => if m ≠ p then false else mountCmp path mount

def skipSlash : Str → Str
  | '/' :: path => path
  | path => path

def advancePath (path mp : Str) : Str := skipSlash (path.drop mp.length)

/-! ## Walking a path -/

/-- Take the name of a directory entry off the front of a path. -/
def pathWalk : Str → Str → Option Str
  | [], [] => some []
  | '/' :: path, [] => some path
  | _ :: _, [] => none
  | [], _ :: _ => none
  | p :: path, e :: entry => if e ≠ p then none else pathWalk path entry

def isLastPathEntry (path : Str) : Bool := '/' ∉ path

/-- What follows the last slash. -/
def getFileName : Str → Str
  | [] => []
  | c :: path =>
      if '/' ∈ path then getFileName path
      else if c = '/' then path
      else c :: path

/-- The first component of a path: the name a lookup in a directory is made for. -/
def component (path : Str) : Str := path.takeWhile (· ≠ '/')

end ChenixOS.VFS
