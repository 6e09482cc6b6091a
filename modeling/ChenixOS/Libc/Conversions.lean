import ChenixOS.Klib.Itoa
import ChenixOS.Lib.Texts
import Mathlib.Data.Nat.Digits.Lemmas

/-!
# The conversions of `vsnprintf`

The functions behind `libs/libc/stdio/vsnprintf.c` that convert numbers and strings and align them, with the string
functions that they call. A pointer is a place in the buffer of the caller, `none` for `NULL`; a write outside of this
buffer gives `none`. What a function returns is a `size_t`.
-/

namespace ChenixOS.Stdio

open Buffer Itoa

variable (bound : Nat)

/-- A `size_t` of an integer. -/
def sizeT (x : Int) : Nat := (x % 2 ^ 64).toNat

def abs (i : Int) : Int := if i < 0 then int32 (-i) else i

/-! ## The string functions -/

/-- `n` times the same character. -/
def fill (p : Int) (c : UInt8) (n : Nat) (b : Nat → UInt8) : Option (Nat → UInt8) :=
  if n = 0 then some b
  else if 0 ≤ p ∧ p + n ≤ bound then some (paste b p.toNat n fun _ => c)
  else none

/-- The index is an `int`: behind `2 ^ 31` characters it is negative, and not less than `n` as a `size_t`, unless `n`
is near to `2 ^ 64`. -/
def memset (p : Int) (c : Int) (n : Nat) (b : Nat → UInt8) : Option (Nat → UInt8) := do
  let b ← fill bound p (toChar c) (min n (2 ^ 31)) b
  if n ≤ 2 ^ 64 - 2 ^ 31 then some b else fill bound (p - 2 ^ 31) (toChar c) (n - (2 ^ 64 - 2 ^ 31)) b

/-- `memcpy` of no more characters than the string has. -/
def memcpy (p : Int) (string : List UInt8) (n : Nat) (b : Nat → UInt8) : Option (Nat → UInt8) :=
  putAt bound p (string.take n) b

def strncpy (p : Int) (string : List UInt8) (n : Nat) (b : Nat → UInt8) : Option (Nat → UInt8) := do
  let b ← putAt bound p (string.take n) b
  fill bound (p + (string.take n).length) 0 (n - string.length) b

/-! ## Numbers -/

/-- `for (digits = 0; integer_copy > 0; digits++)`; an `unsigned long` has at most 64 digits. -/
def countDigits (base : Nat) : Nat → Nat → Nat
  | 0, _ => 0
  | fuel + 1, integer => if 0 < integer then countDigits base fuel (integer / base) + 1 else 0

def remainderChar (uppercase : Bool) (remainder : Nat) : UInt8 :=
  if remainder ≤ 9 then UInt8.ofNat (remainder + 48)
  else if uppercase then UInt8.ofNat (remainder - 10 + 65)
  else UInt8.ofNat (remainder - 10 + 97)

/-- `for (b = digits - 1; integer != 0 && b >= 0; b--)` -/
def putDigits (buffer : Int) (base : Nat) (uppercase : Bool) : Nat → Nat → (Nat → UInt8) → Option (Nat → UInt8)
  | 0, _, str => some str
  | b + 1, integer, str =>
    if integer = 0 then some str
    else do
      let str ← writeAt bound str (buffer + b) (remainderChar uppercase (integer % base))
      putDigits buffer base uppercase b (integer / base) str

def uimaxtoa (integer : UInt64) (buffer : Option Int) (base : Nat) (uppercase : Bool) (size : Nat)
    (str : Nat → UInt8) : Option (Nat × (Nat → UInt8)) :=
  let digits := countDigits base 64 integer.toNat
  match buffer with
  | none => some (if integer = 0 then 1 else digits, str)
  | some buffer =>
    if integer = 0 then do
      let str ← writeAt bound str buffer 48
      some (1, str)
    else do
      let digits := if 0 < size ∧ size < digits then size else digits
      let str ← putDigits bound buffer base uppercase digits integer.toNat str
      some (digits, str)

def imaxtoa (integer : Int64) (buffer : Option Int) (base : Nat) (uppercase : Bool) (size : Nat)
    (str : Nat → UInt8) : Option (Nat × (Nat → UInt8)) :=
  if 0 ≤ integer then uimaxtoa bound integer.toUInt64 buffer base uppercase size str
  else
    match buffer with
    | none => do
      let (n, str) ← uimaxtoa bound (-integer).toUInt64 none base uppercase size str
      some (n + 1, str)
    | some buffer => do
      let str ← writeAt bound str buffer 45
      if size = 1 then some (1, str)
      else do
        let (n, str) ← uimaxtoa bound (-integer).toUInt64 (some (buffer + 1)) base uppercase (sizeT (size - 1)) str
        some (n + 1, str)

def simaxtoa (integer : Int64) (buffer : Option Int) (base : Nat) (uppercase : Bool) (size : Nat)
    (str : Nat → UInt8) : Option (Nat × (Nat → UInt8)) :=
  match buffer with
  | none => do
    let integer := if 0 ≤ integer then integer else -integer
    let (n, str) ← uimaxtoa bound integer.toUInt64 none base uppercase size str
    some (n + 1, str)
  | some buffer => do
    let str ← writeAt bound str buffer (if 0 ≤ integer then 43 else 45)
    if size = 1 then some (1, str)
    else do
      let integer := if 0 ≤ integer then integer else -integer
      let (n, str) ← uimaxtoa bound integer.toUInt64 (some (buffer + 1)) base uppercase (sizeT (size - 1)) str
      some (n + 1, str)

/-- The two tests that bring a width down to what `max` allows. -/
def limit (width max : Int) : Int :=
  let width := if 0 < width ∧ 0 < max ∧ max < width then max else width
  if width < 0 ∧ -max < 0 ∧ width < -max then -max else width

/-- The three functions that align a number differ in what they convert it with. -/
def maxtoaFill (toa : Option Int → Nat → (Nat → UInt8) → Option (Nat × (Nat → UInt8))) (buffer width filler max : Int)
    (str : Nat → UInt8) : Option (Nat × (Nat → UInt8)) :=
  if max < 0 then some (0, str)
  else do
    let (sizeI, str) ← toa none 0 str
    let width := limit width max
    if sizeT (abs width) < sizeI then toa (some buffer) (sizeT (abs width)) str
    else if width = 0 ∧ 0 < max then toa (some buffer) (sizeT max) str
    else if width = 0 then toa (some buffer) (sizeT (abs width)) str
    else
      let sizeF := sizeT (abs width - sizeI)
      if width < 0 then do
        let (_, str) ← toa (some buffer) 0 str
        let str ← memset bound (buffer + sizeI) filler sizeF str
        some (sizeT (abs width), str)
      else do
        let str ← memset bound buffer filler sizeF str
        let (_, str) ← toa (some (buffer + sizeF)) 0 str
        some (sizeT (abs width), str)

def uimaxtoaFill (integer : UInt64) (buffer : Int) (base : Nat) (uppercase : Bool) (width filler max : Int)
    (str : Nat → UInt8) : Option (Nat × (Nat → UInt8)) :=
  maxtoaFill bound (fun buffer => uimaxtoa bound integer buffer base uppercase) buffer width filler max str

def imaxtoaFill (integer : Int64) (buffer : Int) (base : Nat) (uppercase : Bool) (width filler max : Int)
    (str : Nat → UInt8) : Option (Nat × (Nat → UInt8)) :=
  maxtoaFill bound (fun buffer => imaxtoa bound integer buffer base uppercase) buffer width filler max str

def simaxtoaFill (integer : Int64) (buffer : Int) (base : Nat) (uppercase : Bool) (width filler max : Int)
    (str : Nat → UInt8) : Option (Nat × (Nat → UInt8)) :=
  maxtoaFill bound (fun buffer => simaxtoa bound integer buffer base uppercase) buffer width filler max str

/-! ## Strings -/

def strtostrFill (string : List UInt8) (buffer width filler max : Int) (str : Nat → UInt8) :
    Option (Nat × (Nat → UInt8)) :=
  if max < 0 then some (0, str)
  else
    let sizeS := string.length
    let width := limit width max
    if width ≠ 0 ∧ sizeT (abs width) < sizeS then do
      let str ← memcpy bound buffer string (sizeT (abs width)) str
      let str ← writeAt bound str (buffer + width) 0
      some (sizeT width, str)
    else if width = 0 ∧ 0 < max ∧ sizeT max < sizeS then do
      let str ← memcpy bound buffer string (sizeT max) str
      let str ← writeAt bound str (buffer + max) 0
      some (sizeT max, str)
    else if width = 0 ∧ 0 < max ∧ sizeS < sizeT max then do
      let str ← memcpy bound buffer string sizeS str
      let str ← writeAt bound str (buffer + sizeS) 0
      some (sizeS, str)
    else do
      let sizeF := sizeT (abs width - sizeS)
      let str ← (if 0 ≤ width then do
          let str ← memset bound buffer filler sizeF str
          strncpy bound (buffer + sizeF) string sizeS str
        else do
          let str ← strncpy bound buffer string sizeS str
          memset bound (buffer + sizeS) filler sizeF str)
      let str ← writeAt bound str (buffer + abs width) 0
      some (sizeT (abs width), str)

end ChenixOS.Stdio
