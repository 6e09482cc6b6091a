import Mathlib.Logic.Function.Basic

/-!
# Streams

The streams of the C library (libs/libc/stdio/file.c) keep one buffer for both directions: `nw` characters
that are still to be written, or `nr` that have been read ahead.

What the kernel answers to a `read` or a `write` is not known: `answers` gives a number for each call, negative
for an error, else a bound on the bytes that this call moves. `malloc` either gives the buffer or not.
-/

namespace ChenixOS.Stream

/-- `EOF` -/
def eof : Int := -1

/-- `_IONBF`, `_IOLBF` and `_IOFBF` -/
inductive BufMode where
  | nbf
  | lbf
  | fbf
  deriving DecidableEq

/-- What is behind a file descriptor. -/
structure Fd where
  /-- All that has been written to it. -/
  written : List UInt8
  /-- What is left to be read. -/
  unread : List UInt8
  answers : Nat → Int
  /-- The number of calls so far. -/
  calls : Nat

/-- `write`, with its result. -/
def Fd.write (fd : Fd) (bytes : List UInt8) : Int × Fd :=
  let n := fd.answers fd.calls
  if n < 0 then (n, { fd with calls := fd.calls + 1 })
  else
    let n := min n.toNat bytes.length
    (n, { fd with written := fd.written ++ bytes.take n, calls := fd.calls + 1 })

/-- `read` of at most `count` bytes, with its result. -/
def Fd.read (fd : Fd) (count : Nat) : Int × List UInt8 × Fd :=
  let n := fd.answers fd.calls
  if n < 0 then (n, [], { fd with calls := fd.calls + 1 })
  else
    let bytes := fd.unread.take (min n.toNat count)
    (bytes.length, bytes, { fd with unread := fd.unread.drop (min n.toNat count), calls := fd.calls + 1 })

/-- `struct _FILE`, with its descriptor. `buf` is the content of the buffer, if there is one, and `ptr` a position
in it; `memory` is what `malloc` would answer. -/
structure File where
  fd : Fd
  memory : Bool
  flagError : Bool
  flagEof : Bool
  bufmode : BufMode
  bufsize : Nat
  nr : Int
  nw : Nat
  ptr : Nat
  hasBuf : Bool
  buf : Nat → UInt8

/-- A stream that has just been opened. -/
def File.fresh (fd : Fd) (bufmode : BufMode) (bufsize : Nat) : File where
  fd := fd
  memory := true
  flagError := false
  flagEof := false
  bufmode := bufmode
  bufsize := bufsize
  nr := 0
  nw := 0
  ptr := 0
  hasBuf := false
  buf _ := 0

/-- The characters from `pos` on. -/
def File.slice (s : File) (pos n : Nat) : List UInt8 := (List.range n).map fun i => s.buf (pos + i)

/-! ## Writing -/

/-- The loop of `fflush`, with `p` as a position in the buffer: whether `res` is `EOF`, if it is left in `fuel`
rounds. -/
def flushLoop : Nat → File → Nat → Option (Bool × File)
  | 0, s, _ => if s.nw > 0 then none else some (false, s)
  | fuel + 1, s, p =>
    if s.nw > 0 then
      let r := s.fd.write (s.slice p s.nw)
      if r.1 < 0 then some (true, { s with fd := r.2, flagError := true })
      else
        let n := min r.1.toNat s.nw
        flushLoop fuel { s with fd := r.2, nw := s.nw - n } (p + n)
    else some (false, s)

/-- `fflush` -/
def fflush (fuel : Nat) (s : File) : Option (Bool × File) :=
  (flushLoop fuel s 0).map fun r => (r.1, { r.2 with ptr := 0, nw := 0, nr := 0 })

/-- The condition of `fputc` for a flush. -/
def File.flushes (s : File) (c : UInt8) : Bool :=
  s.nw ≥ s.bufsize || (s.bufmode = .lbf && c = 10) || s.bufmode = .nbf

/-- `fputc` for a character `c`, with its result. `lseek` is the call of that name. -/
def fputc (lseek : Int → Int → Fd → Fd) (fuel : Nat) (c : UInt8) (s : File) : Option (Int × File) :=
  if s.hasBuf = false ∧ s.memory = false then some (eof, s)
  else
    let s := if s.hasBuf = false then { s with hasBuf := true, nr := 0, nw := 0, ptr := 0 } else s
    let s :=
      if s.nr > 0 then
        -- the offset is `SEEK_CUR` and the mode the number of characters
        { s with fd := lseek 1 (-s.nr) s.fd, nr := 0, nw := 0, ptr := 0 }
      else s
    let s := { s with buf := Function.update s.buf s.ptr c, ptr := s.ptr + 1, nw := s.nw + 1 }
    if s.flushes c then
      -- if it fails, `c` becomes `EOF`, and the result `(unsigned char)c`
      (fflush fuel s).map fun r => (if r.1 then 255 else c.toNat, r.2)
    else some (c.toNat, s)

/-- The inner loop of `fwrite`: whether it comes to the end. -/
def fwriteItem (lseek : Int → Int → Fd → Fd) (fuel : Nat) : List UInt8 → File → Option (Bool × File)
  | [], s => some (true, s)
  | c :: cs, s =>
    (fputc lseek fuel c s).bind fun r => if r.1 = eof then some (false, r.2) else fwriteItem lseek fuel cs r.2

/-- `fwrite` of a number of items, with its result. -/
def fwrite (lseek : Int → Int → Fd → Fd) (fuel : Nat) : List (List UInt8) → File → Option (Nat × File)
  | [], s => some (0, s)
  | item :: items, s =>
    (fwriteItem lseek fuel item s).bind fun r =>
      if r.1 then (fwrite lseek fuel items r.2).map fun r' => (r'.1 + 1, r'.2) else some (0, r.2)

/-! ## Reading -/

/-- `_fillbuf` -/
def fillbuf (s : File) : Int × File :=
  if s.hasBuf = false ∧ s.memory = false then (eof, s)
  else
    let r := s.fd.read s.bufsize
    let s :=
      { s with
        hasBuf := true
        fd := r.2.2
        buf := fun i => r.2.1.getD i (s.buf i)
        ptr := 0
        nr := r.1 - 1 }
    if s.nr < 0 then
      let s := if s.nr = -1 then { s with flagEof := true } else { s with flagError := true }
      (eof, { s with nr := 0, nw := 0 })
    else ((s.buf s.ptr).toNat, { s with ptr := s.ptr + 1 })

/-- `fgetc` -/
def fgetc (fuel : Nat) (s : File) : Option (Int × File) :=
  (if s.nw > 0 then (fflush fuel s).map Prod.snd else some s).map fun s =>
    let s := { s with nr := s.nr - 1 }
    if s.nr ≥ 0 then ((s.buf s.ptr).toNat, { s with ptr := s.ptr + 1 }) else fillbuf s

/-- The loop of `fgets` for `room` more characters: what it stores and does not take back.
`EOF`, as a `char`, is the byte 255. -/
def fgetsLoop (fuel : Nat) : Nat → File → Option (List UInt8 × File)
  | 0, s => some ([], s)
  | room + 1, s =>
    (fgetc fuel s).bind fun r =>
      let c : UInt8 := UInt8.ofInt r.1
      if c = 255 ∨ c = 10 then some ([], r.2)
      else (fgetsLoop fuel room r.2).map fun r' => (c :: r'.1, r'.2)

/-- `fgets`: the string, or none for `NULL`. -/
def fgets (fuel size : Nat) (s : File) : Option (Option (List UInt8) × File) :=
  (fgetsLoop fuel (size - 1) s).map fun r => (if r.1 = [] then none else some r.1, r.2)

end ChenixOS.Stream
