import ChenixOS.Libc.Conversions
import ChenixOS.Lib.Loop

/-!
# `vsnprintf`

The state machine of `libs/libc/stdio/vsnprintf.c` over the characters of a format. All conversions share the flags,
the two buffers for digits and the count of the room that remains, next to the index of the output.

An access outside of `str`, `format` or one of the buffers for digits gives `none`.
-/

namespace ChenixOS.Stdio

open Buffer Itoa Loop

/-- An argument, as it is taken by `va_arg`: its word, and the string it points to. -/
structure Arg where
  word : UInt64
  string : {s : List UInt8 // 0 ∉ s}

inductive Specifier
  | none
  | flags
  | width
  | precision
  | type

structure Flags where
  plus : Bool
  minus : Bool
  space : Bool
  alternate : Bool
  zero : Bool
deriving DecidableEq

structure State where
  f : Nat
  s : Int
  remain : Int
  specifier : Specifier
  flags : Flags
  widthStr : List UInt8
  precisionStr : List UInt8
  /-- The arguments that were taken. -/
  arg : Nat
  str : Nat → UInt8

def start (size : Nat) (str : Nat → UInt8) : State where
  f := 0
  s := 0
  remain := int32 (size - 1)
  specifier := .none
  flags := ⟨false, false, false, false, false⟩
  widthStr := []
  precisionStr := []
  arg := 0
  str := str

/-! ## Reading the format -/

/-- `format[f]`; behind `2 ^ 31` characters the index is negative. -/
def formatAt (format : List UInt8) (f : Nat) : Option UInt8 :=
  if f < 2 ^ 31 then (format ++ [0])[f]? else none

def isDigit (c : UInt8) : Bool := decide (48 ≤ c ∧ c ≤ 57)

/-- The `switch` over the flags. -/
def setFlag (flags : Flags) (c : UInt8) : Option Flags :=
  if c = 43 then some { flags with plus := true }
  else if c = 45 then some { flags with minus := true }
  else if c = 32 then some { flags with space := true }
  else if c = 35 then some { flags with alternate := true }
  else if c = 48 then some { flags with zero := true }
  else none

/-- The loop over the digits of a width or a precision, with room for `room` more of them. -/
def scanDigits (format : List UInt8) : Nat → Nat → List UInt8 → Option (Nat × List UInt8)
  | 0, f, ds => do
    let _ ← formatAt format f
    some (f, ds)
  | room + 1, f, ds => do
    let c ← formatAt format f
    if isDigit c then scanDigits format room (f + 1) (ds ++ [c]) else some (f, ds)

def isSpace (c : UInt8) : Bool := decide (c = 32 ∨ c = 10 ∨ c = 12 ∨ c = 13 ∨ c = 9 ∨ c = 118)

/-- `num = (num << 3)+(num << 1); num += (str[i] - '0');` -/
def digitStep (num : Int) (c : UInt8) : Int := int32 (int32 (int32 (num * 8) + int32 (num * 2)) + (c.toNat - 48))

def atoi (str : List UInt8) : Int :=
  let str := str.dropWhile isSpace
  let (sign, str) := match str with
    | c :: rest => if c = 43 then ((1 : Int), rest) else if c = 45 then (-1, rest) else (1, c :: rest)
    | [] => (1, [])
  let num := (str.takeWhile isDigit).foldl digitStep 0
  if sign = -1 then int32 (-num) else num

/-! ## The conversions -/

inductive Conversion
  | pointer
  | unsigned (base : Nat) (uppercase : Bool) (hbase : 2 ≤ base)
  | signed
  | string
  | character
  | unknown

/-- The `switch` over the character of a conversion, but for `'h'`. -/
def conversion (c : UInt8) : Conversion :=
  if c = 112 then .pointer
  else if c = 120 then .unsigned 16 false (by decide)
  else if c = 88 then .unsigned 16 true (by decide)
  else if c = 100 ∨ c = 105 then .signed
  else if c = 117 then .unsigned 10 false (by decide)
  else if c = 115 then .string
  else if c = 99 then .character
  else .unknown

/-- The `switch` behind `"hh"`. -/
def charConversion (c : UInt8) : Conversion :=
  if c = 100 ∨ c = 105 then .signed
  else if c = 117 then .unsigned 10 false (by decide)
  else if c = 111 then .unsigned 8 false (by decide)
  else if c = 120 then .unsigned 16 false (by decide)
  else if c = 88 then .unsigned 16 true (by decide)
  else if c = 98 then .unsigned 2 false (by decide)
  else .unknown

/-- `switch (format[f++])`, with the ones inside of it. -/
def readConversion (format : List UInt8) (f : Nat) : Option (Conversion × Nat) := do
  let c ← formatAt format f
  if c = 104 then do
    let c ← formatAt format (f + 1)
    if c = 104 then do
      let c ← formatAt format (f + 2)
      some (charConversion c, f + 3)
    else some (.unknown, f + 2)
  else some (conversion c, f + 1)

def Flags.filler (flags : Flags) : Int :=
  let filler := if flags.zero then 48 else 32
  let filler := if flags.space then 32 else filler
  if flags.minus then 32 else filler

def Flags.alignment (flags : Flags) (width : Int) : Int := if flags.minus then int32 (-width) else width

/-- `s += n; remain -= n;` for a conversion that returned `n`. -/
def State.advance (st : State) (n : Nat) (str : Nat → UInt8) : State :=
  { st with s := int32 (st.s + int32 n), remain := int32 (st.remain - int32 n), arg := st.arg + 1, str := str }

/-- What a conversion does with its argument. -/
def convert (size : Nat) (ap : Nat → Arg) (st : State) (conv : Conversion) : Option State :=
  let alignment := st.flags.alignment (atoi st.widthStr)
  let filler := st.flags.filler
  let arg := ap st.arg
  match conv with
  | .pointer => do
    let (n, str) ← uimaxtoaFill size arg.word st.s 16 false 16 48 st.remain st.str
    some (st.advance n str)
  | .unsigned base uppercase _ => do
    let (n, str) ← uimaxtoaFill size arg.word st.s base uppercase alignment filler st.remain st.str
    some (st.advance n str)
  | .signed => do
    let (n, str) ← (if st.flags.plus then simaxtoaFill size arg.word.toInt64 st.s 10 false alignment filler st.remain st.str
      else imaxtoaFill size arg.word.toInt64 st.s 10 false alignment filler st.remain st.str)
    some (st.advance n str)
  | .string => do
    let (n, str) ← strtostrFill size arg.string.val st.s alignment 32 st.remain st.str
    some (st.advance n str)
  | .character => do
    let str ← writeAt size st.str st.s arg.word.toUInt8
    some { st with s := int32 (st.s + 1), arg := st.arg + 1, str := str }
  | .unknown => some st

/-! ## The loop -/

/-- `str_size` -/
def strSize (size : Nat) : Nat := if size > 256 then 256 else size

/-- The `switch` over the state; `c` is `format[f]`. -/
def State.round (size : Nat) (format : List UInt8) (ap : Nat → Arg) (c : UInt8) (st : State) : Option State :=
  match st.specifier with
  | .none =>
    if c ≠ 37 then do
      let str ← writeAt size st.str st.s c
      some { st with f := st.f + 1, s := int32 (st.s + 1), remain := int32 (st.remain - 1), str := str }
    else do
      let d ← formatAt format (st.f + 1)
      if d = 37 then do
        let str ← writeAt size st.str st.s 37
        some { st with f := st.f + 2, s := int32 (st.s + 1), remain := int32 (st.remain - 1), str := str }
      else some { st with f := st.f + 1, specifier := .flags }
  | .flags =>
    match setFlag st.flags c with
    | some flags => some { st with f := st.f + 1, flags := flags }
    | none => some { st with specifier := .width }
  | .width => do
    let (f, widthStr) ← scanDigits format (strSize size) st.f []
    -- `width_str[w] = '\0';`
    if widthStr.length < strSize size then do
      let c ← formatAt format f
      if c = 46 then some { st with f := f + 1, widthStr := widthStr, specifier := .precision }
      else some { st with f := f, widthStr := widthStr, specifier := .type }
    else none
  | .precision => do
    let (f, precisionStr) ← scanDigits format (strSize size) st.f []
    if precisionStr.length < strSize size then
      some { st with f := f, precisionStr := precisionStr, specifier := .type }
    else none
  | .type => do
    let (conv, f) ← readConversion format st.f
    let st ← convert size ap st conv
    some { st with f := f, specifier := .none }

/-- `while (format[f] != 0 && s < (size-1))`, and what follows the loop: `s` and `str`. -/
def loopRound (size : Nat) (format : List UInt8) (ap : Nat → Arg) (st : State) :
    Option (Round State (Int × (Nat → UInt8))) := do
  let c ← formatAt format st.f
  if c ≠ 0 ∧ sizeT st.s < size - 1 then do
    let st ← st.round size format ap c
    some (.next st)
  else do
    let str ← writeAt size st.str st.s 0
    some (.done (st.s, str))

/-- `vsnprintf` returns `n` and leaves `str'` in the buffer. -/
def Vsnprintf (size : Nat) (format : List UInt8) (ap : Nat → Arg) (str : Nat → UInt8) (n : Int) (str' : Nat → UInt8) :
    Prop := Returns (loopRound size format ap) (start size str) (n, str')

end ChenixOS.Stdio
