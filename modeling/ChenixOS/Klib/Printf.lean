import ChenixOS.Klib.PrintInt
import Mathlib.Algebra.Order.BigOperators.Group.List
import Mathlib.Algebra.Order.Group.Nat

/-!
# The formatters

`_kvprintf`, `_kfvprintf` and `_kvsprintf` (klib/stdio.cpp, klib/kfprintf.cpp, klib/ksprintf.cpp): the loop over the
format, and what each does with a character and a conversion. **Theorem (`formatLoops_iff`).** All of them stay inside
of the format under the same condition.

A string that is cut to its precision is written up to there by `kfprintf` and as a whole by `sprintf`.
**Theorem (`kfprintf_sprintf_iff`).** They agree exactly if there is none.
-/

namespace ChenixOS.Printf

open Numerals Buffer Loop Itoa Klib

variable {ω : Type} {fmt s t : List UInt8} {n : Nat} {c : UInt8}

/-! ## Conversions -/

inductive Digits where
  | decimal
  | octal
  | hexLower
  | hexUpper
deriving DecidableEq

namespace Digits

/-- The tables `s_Digits`. -/
def chars : Digits → List UInt8
  | decimal => decimalDigits
  | octal => [48, 49, 50, 51, 52, 53, 54, 55]
  | hexLower => [48, 49, 50, 51, 52, 53, 54, 55, 56, 57, 97, 98, 99, 100, 101, 102]
  | hexUpper => [48, 49, 50, 51, 52, 53, 54, 55, 56, 57, 65, 66, 67, 68, 69, 70]

def base : Digits → Nat
  | decimal => 10
  | octal => 8
  | hexLower => 16
  | hexUpper => 16

theorem length_chars : (digits : Digits) → digits.chars.length = digits.base
  | decimal | octal | hexLower | hexUpper => rfl

theorem two_le (digits : Digits) : 2 ≤ digits.chars.length := by cases digits <;> decide

theorem clean (digits : Digits) : 0 ∉ digits.chars := by cases digits <;> decide

end Digits

/-- What a format asks for: a character of its own, or a conversion with its arguments. -/
inductive Call where
  | lit (c : UInt8)
  | centered (str : Nat → UInt8) (padding : Nat)
  | char (val : UInt8) (fmt : Format)
  | int64 (val : Int) (digits : Digits) (fmt : Format)
  | uint64 (val : Nat) (digits : Digits) (fmt : Format)
  | string (str : Nat → UInt8) (fmt : Format)
  | nothing

section Arguments

variable (mem : UInt64 → UInt8) (args : Nat → UInt64)

/-- The bytes from an address on. -/
def stringAt (a : UInt64) : Nat → UInt8 := fun i => mem (a + UInt64.ofNat i)

/-- `if(outFormat.argWidth)`; `next` is the next argument. -/
def starWidth (fmt : Format) (next : Nat) : Format × Nat :=
  if fmt.argWidth then ({ fmt with minWidth := int32 (args next).toNat }, next + 1) else (fmt, next)

/-- `if(outFormat.argPrecision)` -/
def starPrecision (fmt : Format) (next : Nat) : Format × Nat :=
  if fmt.argPrecision then ({ fmt with precision := int32 (args next).toNat }, next + 1) else (fmt, next)

def starArgs (fmt : Format) (next : Nat) : Format × Nat :=
  let (fmt, next) := starWidth args fmt next
  starPrecision args fmt next

/-- The chain of conversions, which klib/stdio.cpp has one more in. -/
def conversion (fmt : Format) (f : UInt8) (next : Nat) : Call × Nat :=
  if f = 83 then (.centered (stringAt mem (args next)) (args (next + 1)).toNat, next + 2)
  else if f = 99 then (.char (args next).toUInt8 fmt, next + 1)
  else if f = 100 ∨ f = 105 then (.int64 (int64 (args next).toNat) .decimal fmt, next + 1)
  else if f = 111 then (.int64 (int64 (args next).toNat) .octal fmt, next + 1)
  else if f = 115 then (.string (stringAt mem (args next)) fmt, next + 1)
  else if f = 117 then (.uint64 (args next).toNat .decimal fmt, next + 1)
  else if f = 120 then (.uint64 (args next).toNat .hexLower fmt, next + 1)
  else if f = 88 ∨ f = 112 then (.uint64 (args next).toNat .hexUpper fmt, next + 1)
  else if f = 110 then (.nothing, next)
  else if f = 37 then (.lit 37, next)
  else (.nothing, next)

def readConversion (fmt : Format) (f : UInt8) (next : Nat) : Call × Nat :=
  let (fmt, next) := starArgs args fmt next
  conversion mem args fmt f next

end Arguments

/-! ## Printing -/

/-- What a precision leaves of the length of a string. -/
def cutLength (length : Int) (fmt : Format) : Int :=
  if fmt.precision < length ∧ fmt.precision ≠ 0 then fmt.precision else length

def printStringPaddedPrecision (ch : Channel ω) (str : Nat → UInt8) (length : Int) (fmt : Format) (o : ω) : Option ω :=
  printStringPadded ch str (cutLength length fmt) fmt o

def leftPadding (length padding : Nat) : Int := int32 ((padding - length : Int) / 2)

def rightPadding (length padding : Nat) : Int := int32 (padding - length - leftPadding length padding)

def printStringCentered (ch : Channel ω) (str : Nat → UInt8) (length padding : Nat) (o : ω) : Option ω :=
  if padding < length then ch.string str length o
  else do
    let o ← printPadding ch (leftPadding length padding) false o
    let o ← ch.string str length o
    printPadding ch (rightPadding length padding) false o

/-- `char buf[2] = { c, 0 };` -/
def charString (c : UInt8) : Nat → UInt8 := fun i => if i = 0 then c else 0

def printChar (ch : Channel ω) (c : UInt8) (fmt : Format) (o : ω) : Option ω :=
  printStringPadded ch (charString c) 1 fmt o

/-- klib/kfprintf.cpp and klib/ksprintf.cpp. -/
def printCall (ch : Channel ω) : Call → ω → Option ω
  | .lit c, o => ch.char c o
  | .centered str padding, o => do
    let l ← kstrlen (2 ^ 31) str 0
    printStringCentered ch str l padding o
  | .char val fmt, o => printChar ch val fmt o
  | .int64 val digits fmt, o => printInt64Base ch val digits.chars digits.base fmt o
  | .uint64 val digits fmt, o => printUInt64Base ch val digits.chars digits.base fmt o
  | .string str fmt, o => do
    let l ← kstrlen (2 ^ 31) str 0
    printStringPaddedPrecision ch str l fmt o
  | .nothing, o => some o

/-- `PrintStringMaxLength` of klib/stdio.cpp, in the place of `PrintString`. -/
def terminalMaxLength (color : Nat) : Channel (List TerminalCall) :=
  { terminal color with
    string := fun str length out =>
      some (out ++ ((slice str 0 length.toNat).takeWhile fun c => decide (c ≠ 0)).map (terminalCall color)) }

/-- `PrintStringCentered` of klib/stdio.cpp puts the characters of the string to the terminal as they are. -/
def terminalCentered (color : Nat) (str : Nat → UInt8) (padding : Nat) (out : List TerminalCall) :
    Option (List TerminalCall) := do
  let len ← kstrlen (2 ^ 31) str 0
  if padding < len then (terminal color).string str len out
  else
    let out ← printPadding (terminal color) (leftPadding len padding) false out
    printPadding (terminal color) (rightPadding len padding) false
      (out ++ (slice str 0 len).map fun c => .putChar c color)

/-- klib/stdio.cpp. -/
def printTerminal (color : Nat) : Call → List TerminalCall → Option (List TerminalCall)
  | .centered str padding, out => terminalCentered color str padding out
  | .string str fmt, out => do
    let l ← kstrlen (2 ^ 31) str 0
    printStringPaddedPrecision (terminalMaxLength color) str l fmt out
  | call, out => printCall (terminal color) call out

/-! ## The loops -/

/-- Behind the index in the format: the next argument, and what was printed if no access went out of bounds. -/
def printRound (print : Call → ω → Option ω) (mem : UInt64 → UInt8) (args : Nat → UInt64) (format : List UInt8) :
    Nat × Nat × Option ω → Option (Round (Nat × Nat × Option ω) (Nat × Option ω)) :=
  formatRound (fun c a => (a.1, a.2.bind (print (.lit c))))
    (fun fmt f a => ((readConversion mem args fmt f a.1).2, a.2.bind (print (readConversion mem args fmt f a.1).1)))
    format

/-- `_kfvprintf` -/
def kfvprintfRound (mem : UInt64 → UInt8) (args : Nat → UInt64) (format : List UInt8) :
    Nat × Nat × Option (List UInt8) → Option (Round (Nat × Nat × Option (List UInt8)) (Nat × Option (List UInt8))) :=
  printRound (printCall file) mem args format

/-- `_kvsprintf` -/
def kvsprintfRound (new : StringBuffer → Nat → UInt8) (mem : UInt64 → UInt8) (args : Nat → UInt64)
    (format : List UInt8) :
    Nat × Nat × Option StringBuffer → Option (Round (Nat × Nat × Option StringBuffer) (Nat × Option StringBuffer)) :=
  printRound (printCall (stringBuffer new)) mem args format

/-- The state of `_kvprintf`, with the color, which `%C` sets. -/
structure Kvprintf where
  color : Nat
  next : Nat
  out : Option (List TerminalCall)

def kvprintfLit (c : UInt8) (a : Kvprintf) : Kvprintf :=
  { a with out := a.out.map fun out => out ++ [terminalCall a.color c] }

def kvprintfConv (mem : UInt64 → UInt8) (args : Nat → UInt64) (fmt : Format) (f : UInt8) (a : Kvprintf) : Kvprintf :=
  let (fmt, next) := starArgs args fmt a.next
  if f = 67 then
    let r := (args next).toNat % 256
    let g := (args (next + 1)).toNat % 256
    let b := (args (next + 2)).toNat % 256
    { a with color := r <<< 16 ||| g <<< 8 ||| b, next := next + 3 }
  else
    let (call, next) := conversion mem args fmt f next
    { a with next, out := a.out.bind (printTerminal a.color call) }

/-- `_kvprintf` -/
def kvprintfRound (mem : UInt64 → UInt8) (args : Nat → UInt64) (format : List UInt8) :
    Nat × Kvprintf → Option (Round (Nat × Kvprintf) Kvprintf) :=
  formatRound kvprintfLit (kvprintfConv mem args) format

theorem printRound_iff (h0 : 0 ∉ fmt) (print : Call → ω → Option ω) (mem : UInt64 → UInt8) (args : Nat → UInt64)
    (a : Nat × Option ω) : (∃ b, Returns (printRound print mem args (fmt ++ [0])) (0, a) b) ↔
      fmt.length < 2 ^ 32 ∧ Complete fmt := by
  rw [printRound]
  exact formatLoop_iff h0

/-- **The loops of the three formatters** read nothing behind the terminator and stop exactly if the format has less
than 2³² characters and no conversion in it is cut off, whatever the arguments are. -/
theorem formatLoops_iff (h0 : 0 ∉ fmt) (mem : UInt64 → UInt8) (args : Nat → UInt64) :
    (∀ a, (∃ b, Returns (kvprintfRound mem args (fmt ++ [0])) (0, a) b) ↔ fmt.length < 2 ^ 32 ∧ Complete fmt) ∧
      (∀ a, (∃ b, Returns (kfvprintfRound mem args (fmt ++ [0])) (0, a) b) ↔ fmt.length < 2 ^ 32 ∧ Complete fmt) ∧
      ∀ new a, (∃ b, Returns (kvsprintfRound new mem args (fmt ++ [0])) (0, a) b) ↔
        fmt.length < 2 ^ 32 ∧ Complete fmt :=
  ⟨fun _ => formatLoop_iff h0, fun a => printRound_iff h0 (printCall file) mem args a,
    fun new a => printRound_iff h0 (printCall (stringBuffer new)) mem args a⟩

/-- `%5d` -/
theorem formatLoops_iff_width :
    ∃ b, Returns (kvprintfRound (fun _ => 0) (fun _ => 0) ([37, 53, 100] ++ [0])) (0, ⟨0, 0, some []⟩) b :=
  ((formatLoops_iff (by decide) (fun _ => 0) fun _ => 0).1 ⟨0, 0, some []⟩).2 ⟨by decide, .conv rfl .nil⟩

/-- Behind a `'%'` at its end the loop leaves the format. -/
theorem formatLoops_percent : ¬∀ (fmt : List UInt8) (mem : UInt64 → UInt8) (args : Nat → UInt64) (a : Kvprintf),
    0 ∉ fmt → ∃ b, Returns (kvprintfRound mem args (fmt ++ [0])) (0, a) b := by
  intro h
  have hpercent : ¬Complete [37] := by
    intro hcomplete
    cases hcomplete with
    | char hc _ => exact hc rfl
    | conv hrest _ => cases hrest
  exact hpercent ((formatLoop_iff (by decide)).1 (h [37] (fun _ => 0) (fun _ => 0) ⟨0, 0, some []⟩ (by decide))).2

/-! ## The calls of a format -/

section Calls

variable (mem : UInt64 → UInt8) (args : Nat → UInt64)

/-- What the items of a format ask for, each conversion with the next arguments. -/
def calls : List Item → Nat → List Call
  | [], _ => []
  | .lit c :: items, next => .lit c :: calls items next
  | .conv fmt f :: items, next =>
    (readConversion mem args fmt f next).1 :: calls items (readConversion mem args fmt f next).2

def printCalls (print : Call → ω → Option ω) (calls : List Call) (o : ω) : Option ω :=
  calls.foldlM (fun o call => print call o) o

theorem foldl_perform (print : Call → ω → Option ω) (items : List Item) (next : Nat) (o : Option ω) :
    (items.foldl (perform (fun c a => (a.1, a.2.bind (print (.lit c)))) fun fmt f a =>
      ((readConversion mem args fmt f a.1).2, a.2.bind (print (readConversion mem args fmt f a.1).1))) (next, o)).2 =
      o.bind (printCalls print (calls mem args items next)) := by
  induction items generalizing next o with
  | nil => cases o <;> rfl
  | cons item items ih =>
    rw [List.foldl_cons]
    cases item with
    | lit c =>
      rw [perform, ih, calls]
      cases o <;> rfl
    | conv fmt f =>
      rw [perform, ih, calls]
      cases o <;> rfl

/-- **A complete format is printed call by call.** -/
theorem printRound_returns {items : List Item} (hitems : Items fmt items) (h0 : 0 ∉ fmt) (hlen : fmt.length < 2 ^ 32)
    (print : Call → ω → Option ω) (o : ω) {b : Nat × Option ω}
    (h : Returns (printRound print mem args (fmt ++ [0])) (0, 0, some o) b) :
    b.2 = printCalls print (calls mem args items 0) o := by
  have hret : Returns (printRound print mem args (fmt ++ [0])) (0, 0, some o) _ :=
    returns_of_items hitems at_zero h0 hlen
  rw [h.unique hret, foldl_perform]
  rfl

end Calls

/-! ## The texts of the calls -/

/-- The string that an argument points to. -/
def argString (str : Nat → UInt8) : List UInt8 := slice str 0 ((kstrlen (2 ^ 31) str 0).getD 0)

/-- A string in the middle of a width, as the calls give it: behind the width as an `int`. -/
def centered (s : List UInt8) (padding : Nat) : List UInt8 :=
  if padding < s.length then s
  else List.replicate (leftPadding s.length padding).toNat 32 ++
    (s ++ List.replicate (rightPadding s.length padding).toNat 32)

/-- What a call is to print. -/
def Call.text : Call → List UInt8
  | .lit c => [c]
  | .centered str padding => Printf.centered (argString str) padding
  | .char val fmt => padded fmt [val]
  | .int64 val digits fmt => padded fmt (numberText (decide (val < 0)) val.natAbs digits.chars fmt)
  | .uint64 val digits fmt => padded fmt (numberText false val digits.chars fmt)
  | .string str fmt => padded fmt (argString str)
  | .nothing => []

/-- A C string that an `int` can count. -/
def IsString (str : Nat → UInt8) : Prop := ∃ s, Holds 0 str 0 s ∧ s.length < 2 ^ 31

/-- The calls that can be printed: the strings have an end, and the numbers fit their buffer. -/
def Call.Printable : Call → Prop
  | .centered str _ => IsString str
  | .int64 val digits fmt =>
    val ≠ -2 ^ 63 ∧ (numberText (decide (val < 0)) val.natAbs digits.chars fmt).length ≤ 127
  | .uint64 val digits fmt => (numberText false val digits.chars fmt).length ≤ 127
  | .string str _ => IsString str
  | _ => True

/-- No string is cut to a precision. -/
def Call.Whole : Call → Prop
  | .string str fmt => fmt.precision = 0 ∨ (argString str).length ≤ fmt.precision
  | _ => True

/-- The numbers of a call are values of their types. -/
def Call.WellTyped : Call → Prop
  | .char _ fmt => fmt.Ints
  | .int64 val _ fmt => (-2 ^ 63 ≤ val ∧ val < 2 ^ 63) ∧ fmt.Ints
  | .uint64 val _ fmt => val < 2 ^ 64 ∧ fmt.Ints
  | .string _ fmt => fmt.Ints
  | _ => True

/-- No NUL is printed by its own. -/
def Call.NoNul : Call → Prop
  | .lit c => c ≠ 0
  | .char val _ => val ≠ 0
  | _ => True

theorem int64_mem (x : Int) : -2 ^ 63 ≤ int64 x ∧ int64 x < 2 ^ 63 := by
  unfold int64
  omega

section WellTyped

variable {f : Format} (mem : UInt64 → UInt8) (args : Nat → UInt64)

theorem starWidth_ints (h : f.Ints) (next : Nat) : (starWidth args f next).1.Ints := by
  rw [starWidth, apply_ite Prod.fst]
  split_ifs
  · exact h.withWidth (int32_mem _)
  · exact h

theorem starPrecision_ints (h : f.Ints) (next : Nat) : (starPrecision args f next).1.Ints := by
  rw [starPrecision, apply_ite Prod.fst]
  split_ifs
  · exact h.withPrecision (int32_mem _)
  · exact h

theorem starArgs_ints (h : f.Ints) (next : Nat) : (starArgs args f next).1.Ints :=
  starPrecision_ints args (starWidth_ints args h next) _

theorem conversion_wellTyped (h : f.Ints) (c : UInt8) (next : Nat) : (conversion mem args f c next).1.WellTyped := by
  have hint (a : UInt64) : (-2 ^ 63 ≤ int64 a.toNat ∧ int64 a.toNat < 2 ^ 63) ∧ f.Ints := ⟨int64_mem _, h⟩
  have huint (a : UInt64) : a.toNat < 2 ^ 64 ∧ f.Ints := ⟨a.toNat_lt, h⟩
  unfold conversion
  split_ifs
  · trivial
  · exact h
  · exact hint _
  · exact hint _
  · exact h
  · exact huint _
  · exact huint _
  · exact huint _
  · trivial
  · trivial
  · trivial

theorem calls_wellTyped {items : List Item} (hitems : Items fmt items) (next : Nat) :
    ∀ call ∈ calls mem args items next, call.WellTyped := by
  induction hitems generalizing next with
  | nil => exact fun _ h => absurd h List.not_mem_nil
  | char _ _ ih =>
    intro call hcall
    rcases List.mem_cons.1 hcall with rfl | hrest
    · trivial
    · exact ih _ call hrest
  | conv _ hparse _ ih =>
    intro call hcall
    rcases List.mem_cons.1 hcall with rfl | hrest
    · exact conversion_wellTyped mem args (starArgs_ints args (parseConversion_ints hparse) next) _ _
    · exact ih _ call hrest

end WellTyped

/-! ## Calls that both formatters print -/

theorem IsString.holds {str : Nat → UInt8} (h : IsString str) :
    kstrlen (2 ^ 31) str 0 = some (argString str).length ∧ Holds 0 str 0 (argString str) := by
  obtain ⟨s, hs, hlen⟩ := h
  have hcount : kstrlen (2 ^ 31) str 0 = some s.length := kstrlen_eq hs (by rwa [Nat.zero_add]) hlen
  have harg : argString str = s := by rw [argString, hcount, Option.getD_some, (holds_iff_slice.1 hs).1]
  rw [harg]
  exact ⟨hcount, hs⟩

theorem isString_of_kstrlen {str : Nat → UInt8} {l : Nat} (h : kstrlen (2 ^ 31) str 0 = some l) : IsString str := by
  obtain ⟨⟨-, hlt⟩, hpass, hend⟩ := count_spec h
  refine ⟨slice str 0 l, holds_iff_slice.2 ⟨by rw [length_slice], ?_, fun hzero => ?_⟩, ?_⟩
  · simpa using hend
  · obtain ⟨i, hi, hchar⟩ := List.mem_map.1 hzero
    have hne := hpass i (Nat.zero_le i) (List.mem_range.1 hi)
    rw [hchar] at hne
    exact absurd hne (by decide)
  · rw [length_slice]
    omega

theorem holds_charString (hc : c ≠ 0) : Holds 0 (charString c) 0 [c] := .singleton rfl rfl hc

theorem holds_number (digits : Digits) (neg : Bool) (n : Nat) (f : Format) :
    Holds 0 (bufferString (numberText neg n digits.chars f)) 0 (numberText neg n digits.chars f) :=
  holds_bufferString (zero_notMem_numberText neg digits.two_le digits.clean)

/-- What a number comes to. -/
theorem printCall_int64 {ch : Channel ω} {o : ω} {val : Int} {digits : Digits} {f : Format}
    (hval : -2 ^ 63 ≤ val ∧ val < 2 ^ 63) :
    printCall ch (.int64 val digits f) o =
      if val ≠ -2 ^ 63 ∧ (numberText (decide (val < 0)) val.natAbs digits.chars f).length ≤ 127 then
        printStringPadded ch (bufferString (numberText (decide (val < 0)) val.natAbs digits.chars f))
          (numberText (decide (val < 0)) val.natAbs digits.chars f).length f o
      else none := by
  rw [printCall, ← digits.length_chars]
  exact printInt64Base_eq digits.two_le hval.1 hval.2

theorem printCall_uint64 {ch : Channel ω} {o : ω} {val : Nat} {digits : Digits} {f : Format} (hval : val < 2 ^ 64) :
    printCall ch (.uint64 val digits f) o =
      if (numberText false val digits.chars f).length ≤ 127 then
        printStringPadded ch (bufferString (numberText false val digits.chars f))
          (numberText false val digits.chars f).length f o
      else none := by
  rw [printCall, ← digits.length_chars]
  exact printUInt64Base_eq digits.two_le hval

section Writes

variable {ch : Channel ω} {R : ω → List UInt8 → Prop} {o : ω} (hw : ch.Writes R)

include hw

theorem printStringCentered_writes {str : Nat → UInt8} {padding : Nat} (ho : R o t) (hs : Holds 0 str 0 s)
    (hint : (t ++ centered s padding).length < 2 ^ 31) :
    ∃ o', printStringCentered ch str s.length padding o = some o' ∧ R o' (t ++ centered s padding) := by
  rw [printStringCentered]
  unfold centered at hint ⊢
  split_ifs at hint ⊢ with hlt
  · exact hw.string ho hs hint
  · rw [← List.append_assoc, ← List.append_assoc] at hint ⊢
    have hint₂ := length_left_lt hint
    have hint₁ := length_left_lt hint₂
    obtain ⟨o₁, hleft, h₁⟩ := printTimes_writes hw ho (by decide) (by decide) hint₁
    obtain ⟨o₂, hstring, h₂⟩ := hw.string h₁ hs hint₂
    obtain ⟨o₃, hright, h₃⟩ := printTimes_writes hw h₂ (by decide) (by decide) hint
    refine ⟨o₃, ?_, h₃⟩
    rw [printPadding, if_neg Bool.false_ne_true, hleft, Option.bind_eq_bind, Option.bind_some, hstring,
      Option.bind_some, printPadding, if_neg Bool.false_ne_true, hright]

/-- **A call prints its text**, on a channel that takes every character, if it cuts no string. -/
theorem printCall_writes (hchar : ∀ {o t c}, R o t → c ≠ 0 → (t ++ [c]).length < 2 ^ 31 →
      ∃ o', ch.char c o = some o' ∧ R o' (t ++ [c])) {call : Call} (ho : R o t) (hprint : call.Printable)
    (hwhole : call.Whole) (htyped : call.WellTyped) (hnul : call.NoNul) (hint : (t ++ call.text).length < 2 ^ 31) :
    ∃ o', printCall ch call o = some o' ∧ R o' (t ++ call.text) := by
  have hpad {f : Format} {str : Nat → UInt8} {s : List UInt8} (hs : Holds 0 str 0 s) (hf : f.Ints)
      (hint : (t ++ padded f s).length < 2 ^ 31) :
      ∃ o', printStringPadded ch str s.length f o = some o' ∧ R o' (t ++ padded f s) :=
    printStringPadded_writes hw ho hs hf.minWidth.2 hint
  cases call with
  | lit c => exact hchar ho hnul hint
  | centered str padding =>
    obtain ⟨hlen, hs⟩ := hprint.holds
    rw [printCall, hlen, Option.bind_eq_bind, Option.bind_some]
    exact printStringCentered_writes hw ho hs hint
  | char val f => exact hpad (holds_charString hnul) htyped hint
  | int64 val digits f =>
    rw [printCall_int64 htyped.1]
    split_ifs with hfits
    · exact hpad (holds_number ..) htyped.2 hint
    · exact absurd hprint hfits
  | uint64 val digits f =>
    rw [printCall_uint64 htyped.1]
    split_ifs with hfits
    · exact hpad (holds_number ..) htyped.2 hint
    · exact absurd hprint hfits
  | string str f =>
    obtain ⟨hlen, hs⟩ := hprint.holds
    have hcut : cutLength (argString str).length f = (argString str).length :=
      if_neg fun h => by have : f.precision = 0 ∨ _ ≤ f.precision := hwhole; omega
    rw [printCall, hlen, Option.bind_eq_bind, Option.bind_some, printStringPaddedPrecision, hcut]
    exact hpad hs htyped hint
  | nothing => exact ⟨o, rfl, by rwa [Call.text, List.append_nil]⟩

theorem printCalls_writes (hchar : ∀ {o t c}, R o t → c ≠ 0 → (t ++ [c]).length < 2 ^ 31 →
      ∃ o', ch.char c o = some o' ∧ R o' (t ++ [c])) {calls : List Call} (ho : R o t)
    (hcalls : ∀ call ∈ calls, call.Printable ∧ call.Whole ∧ call.WellTyped ∧ call.NoNul)
    (hint : (t ++ calls.flatMap Call.text).length < 2 ^ 31) :
    ∃ o', printCalls (printCall ch) calls o = some o' ∧ R o' (t ++ calls.flatMap Call.text) := by
  induction calls generalizing o t with
  | nil => exact ⟨o, rfl, by rwa [List.flatMap_nil, List.append_nil]⟩
  | cons call calls ih =>
    rw [List.flatMap_cons, ← List.append_assoc] at hint ⊢
    obtain ⟨hprint, hwhole, htyped, hnul⟩ := hcalls call List.mem_cons_self
    obtain ⟨o₁, hcall, h₁⟩ := printCall_writes hw hchar ho hprint hwhole htyped hnul (length_left_lt hint)
    obtain ⟨o₂, hrest, h₂⟩ := ih h₁ (fun call hcall => hcalls call (List.mem_cons_of_mem _ hcall)) hint
    exact ⟨o₂, by rw [printCalls, List.foldlM_cons, hcall]; exact hrest, h₂⟩

end Writes

/-! ## Counting what is printed -/

/-- A channel whose state `o` has taken `k` bytes if `R o k`: it takes `width` bytes for a string of which it is given
a length. -/
structure Channel.Counts (ch : Channel ω) (R : ω → Nat → Prop) (width : Nat → Int → Nat) : Prop where
  string {o o' : ω} {k : Nat} {l : Int} {s : List UInt8} {str : Nat → UInt8} : R o k → Holds 0 str 0 s →
    ch.string str l o = some o' → R o' (k + width s.length l)
  char {o o' : ω} {k : Nat} {c : UInt8} : R o k → c ≠ 0 → ch.char c o = some o' → R o' (k + 1)

def paddingBytes (fmt : Format) (length : Int) : Nat :=
  if length < fmt.minWidth then (int32 (fmt.minWidth - length)).toNat else 0

/-- The bytes that a call takes. -/
def Call.bytes (width : Nat → Int → Nat) : Call → Nat
  | .lit _ => 1
  | .centered str padding =>
    let n := (argString str).length
    if padding < n then width n n else (leftPadding n padding).toNat + width n n + (rightPadding n padding).toNat
  | .char _ fmt => paddingBytes fmt 1 + width 1 1
  | .int64 val digits fmt =>
    let n := (numberText (decide (val < 0)) val.natAbs digits.chars fmt).length
    paddingBytes fmt n + width n n
  | .uint64 val digits fmt =>
    let n := (numberText false val digits.chars fmt).length
    paddingBytes fmt n + width n n
  | .string str fmt =>
    let n := (argString str).length
    paddingBytes fmt (cutLength n fmt) + width n (cutLength n fmt)
  | .nothing => 0

section Counts

variable {ch : Channel ω} {R : ω → Nat → Prop} {width : Nat → Int → Nat} {o o' : ω} {k : Nat}
  (hc : ch.Counts R width)

include hc

theorem printTimes_counts (ho : R o k) (hne : c ≠ 0) (h : printTimes ch c n o = some o') : R o' (k + n) := by
  induction n generalizing o k with
  | zero =>
    cases h
    exact ho
  | succ n ih =>
    rw [printTimes] at h
    obtain ⟨o₁, hchar, hrest⟩ := Option.bind_eq_some_iff.1 h
    rw [Nat.add_comm n 1, ← Nat.add_assoc]
    exact ih (hc.char ho hne hchar) hrest

theorem printPadding_counts {length : Int} {zeros : Bool} (ho : R o k) (h : printPadding ch length zeros o = some o') :
    R o' (k + length.toNat) :=
  printTimes_counts hc ho (by split_ifs <;> decide) h

theorem printStringPadded_counts {f : Format} {str : Nat → UInt8} {l : Int} (ho : R o k) (hs : Holds 0 str 0 s)
    (h : printStringPadded ch str l f o = some o') : R o' (k + (paddingBytes f l + width s.length l)) := by
  rw [printStringPadded] at h
  unfold paddingBytes
  split_ifs at h ⊢
  · obtain ⟨o₁, hstring, hpad⟩ := Option.bind_eq_some_iff.1 h
    rw [Nat.add_comm (Int.toNat _), ← Nat.add_assoc]
    exact printPadding_counts hc (hc.string ho hs hstring) hpad
  · obtain ⟨o₁, hpad, hstring⟩ := Option.bind_eq_some_iff.1 h
    rw [← Nat.add_assoc]
    exact hc.string (printPadding_counts hc ho hpad) hs hstring
  · rw [Nat.zero_add]
    exact hc.string ho hs h

/-- **A call that is printed** can be, and takes its bytes. -/
theorem printCall_counts {call : Call} (ho : R o k) (htyped : call.WellTyped) (hnul : call.NoNul)
    (h : printCall ch call o = some o') : call.Printable ∧ R o' (k + call.bytes width) := by
  cases call with
  | lit c => exact ⟨trivial, hc.char ho hnul h⟩
  | centered str padding =>
    obtain ⟨l, hl, h⟩ := Option.bind_eq_some_iff.1 h
    have hstring := isString_of_kstrlen hl
    obtain ⟨hlen, hs⟩ := hstring.holds
    rw [hlen] at hl
    cases hl
    refine ⟨hstring, ?_⟩
    rw [printStringCentered] at h
    rw [Call.bytes]
    split_ifs at h ⊢
    · exact hc.string ho hs h
    · obtain ⟨o₁, hleft, h⟩ := Option.bind_eq_some_iff.1 h
      obtain ⟨o₂, hmiddle, hright⟩ := Option.bind_eq_some_iff.1 h
      rw [← Nat.add_assoc, ← Nat.add_assoc]
      exact printPadding_counts hc (hc.string (printPadding_counts hc ho hleft) hs hmiddle) hright
  | char val f => exact ⟨trivial, printStringPadded_counts hc ho (holds_charString hnul) h⟩
  | int64 val digits f =>
    rw [printCall_int64 htyped.1] at h
    split_ifs at h with hfits
    exact ⟨hfits, printStringPadded_counts hc ho (holds_number ..) h⟩
  | uint64 val digits f =>
    rw [printCall_uint64 htyped.1] at h
    split_ifs at h with hfits
    exact ⟨hfits, printStringPadded_counts hc ho (holds_number ..) h⟩
  | string str f =>
    obtain ⟨l, hl, h⟩ := Option.bind_eq_some_iff.1 h
    have hstring := isString_of_kstrlen hl
    obtain ⟨hlen, hs⟩ := hstring.holds
    rw [hlen] at hl
    cases hl
    exact ⟨hstring, printStringPadded_counts hc ho hs h⟩
  | nothing =>
    cases h
    exact ⟨trivial, ho⟩

theorem printCalls_counts {calls : List Call} (ho : R o k) (hcalls : ∀ call ∈ calls, call.WellTyped ∧ call.NoNul)
    (h : printCalls (printCall ch) calls o = some o') :
    (∀ call ∈ calls, call.Printable) ∧ R o' (k + (calls.map (Call.bytes width)).sum) := by
  induction calls generalizing o k with
  | nil =>
    cases h
    exact ⟨fun _ h => absurd h List.not_mem_nil, ho⟩
  | cons call calls ih =>
    rw [printCalls, List.foldlM_cons] at h
    obtain ⟨o₁, hcall, hrest⟩ := Option.bind_eq_some_iff.1 h
    obtain ⟨htyped, hnul⟩ := hcalls call List.mem_cons_self
    obtain ⟨hprint, h₁⟩ := printCall_counts hc ho htyped hnul hcall
    obtain ⟨hprints, h₂⟩ := ih h₁ (fun call hcall => hcalls call (List.mem_cons_of_mem _ hcall)) hrest
    rw [List.map_cons, List.sum_cons, ← Nat.add_assoc]
    exact ⟨List.forall_mem_cons.2 ⟨hprint, hprints⟩, h₂⟩

end Counts

/-! ## The two formatters -/

/-- The bytes that `VFS::Write` is given, and those that `append` takes. -/
def fileWidth (_ : Nat) (l : Int) : Nat := (l % 2 ^ 64).toNat

def bufferWidth (n : Nat) (_ : Int) : Nat := n

theorem file_counts : file.Counts (fun out k => out.length = k) fileWidth where
  string := by
    rintro out _ _ l s str rfl _ h
    cases h
    rw [List.length_append, length_slice]
    rfl
  char := by
    rintro out _ _ c rfl _ h
    cases h
    exact List.length_append

theorem stringBuffer_counts (new : StringBuffer → Nat → UInt8) :
    (stringBuffer new).Counts (fun sb k => ∃ t, sb.Has t ∧ t.length = k) bufferWidth where
  string := by
    rintro sb sb' _ l s str ⟨t, ht, rfl⟩ hs h
    exact ⟨t ++ s, ht.of_append hs h, List.length_append⟩
  char := by
    rintro sb sb' _ c ⟨t, ht, rfl⟩ hne h
    exact ⟨t ++ [c], ht.of_append (holds_charString hne) h, List.length_append⟩

theorem fileWidth_natCast (hn : n < 2 ^ 31) : fileWidth n n = n := by
  unfold fileWidth
  omega

theorem paddingBytes_natCast {f : Format} (hf : f.Ints) : paddingBytes f n = (f.minWidth - n).toNat := by
  have hmax := hf.minWidth.2
  unfold paddingBytes
  split_ifs with hlt
  · rw [int32_of_lt (by omega) (by omega)]
  · omega

theorem IsString.length_lt {str : Nat → UInt8} (h : IsString str) : (argString str).length < 2 ^ 31 :=
  (kstrlen_some h.holds.2 h.holds.1).2

/-- **A call that cuts no string** takes the bytes of its text, from either formatter. -/
theorem bytes_of_whole {width : Nat → Int → Nat} (hwidth : ∀ n : Nat, n < 2 ^ 31 → width n n = n) {call : Call}
    (hprint : call.Printable) (hwhole : call.Whole) (htyped : call.WellTyped) :
    call.bytes width = call.text.length := by
  have hpad {f : Format} {s : List UInt8} (hf : f.Ints) (hs : s.length < 2 ^ 31) :
      paddingBytes f s.length + width s.length s.length = (padded f s).length := by
    rw [paddingBytes_natCast hf, hwidth _ hs, length_padded, Nat.add_comm]
  cases call with
  | lit c => rfl
  | centered str padding =>
    rw [Call.bytes, Call.text, centered, hwidth _ hprint.length_lt]
    split_ifs
    · rfl
    · simp only [List.length_append, List.length_replicate, Nat.add_assoc]
  | char val f => exact hpad (s := [val]) htyped (show 1 < 2 ^ 31 by decide)
  | int64 val digits f => exact hpad htyped.2 (Nat.lt_of_le_of_lt hprint.2 (by decide))
  | uint64 val digits f => exact hpad htyped.2 (Nat.lt_of_le_of_lt hprint (by decide))
  | string str f =>
    have hcut : cutLength (argString str).length f = (argString str).length :=
      if_neg fun h => by have : f.precision = 0 ∨ _ ≤ f.precision := hwhole; omega
    rw [Call.bytes, Call.text, hcut]
    exact hpad htyped hprint.length_lt
  | nothing => rfl

/-- **A string that is cut** takes fewer bytes in the file than in the buffer, or more than an `int` can count. -/
theorem bytes_of_cut {call : Call} (hprint : call.Printable) (hcut : ¬call.Whole) (htyped : call.WellTyped) :
    call.bytes fileWidth < call.bytes bufferWidth ∨ 2 ^ 31 ≤ call.bytes fileWidth := by
  cases call with
  | string str f =>
    have hprec : f.precision ≠ 0 ∧ f.precision < (argString str).length := by
      constructor
      · exact fun h => hcut (.inl h)
      · exact Int.lt_of_not_ge fun h => hcut (.inr h)
    have hlen := hprint.length_lt
    have hmin : -2 ^ 31 ≤ f.precision := (show f.Ints from htyped).precision.1
    rw [Call.bytes, Call.bytes, cutLength, if_pos ⟨hprec.2, hprec.1⟩]
    unfold fileWidth bufferWidth
    generalize paddingBytes f f.precision = k
    omega
  | lit _ | centered _ _ | char _ _ | int64 _ _ _ | uint64 _ _ _ | nothing => exact absurd trivial hcut

/-- **Equal numbers of bytes** in the file and in the buffer, which an `int` can count, leave no cut string. -/
theorem whole_of_sum {calls : List Call} (hprint : ∀ call ∈ calls, call.Printable)
    (htyped : ∀ call ∈ calls, call.WellTyped)
    (hsum : (calls.map (Call.bytes fileWidth)).sum = (calls.map (Call.bytes bufferWidth)).sum)
    (hint : (calls.map (Call.bytes fileWidth)).sum < 2 ^ 31) :
    (∀ call ∈ calls, call.Whole) ∧
      (calls.flatMap Call.text).length = (calls.map (Call.bytes fileWidth)).sum := by
  have hequal {call : Call} (hcall : call ∈ calls) (hwhole : call.Whole) {width : Nat → Int → Nat}
      (hwidth : ∀ n : Nat, n < 2 ^ 31 → width n n = n) : call.bytes width = call.text.length :=
    bytes_of_whole hwidth (hprint call hcall) hwhole (htyped call hcall)
  have hcut {call : Call} (hcall : call ∈ calls) (hcut : ¬call.Whole) :
      call.bytes fileWidth < call.bytes bufferWidth := by
    have hle : call.bytes fileWidth ≤ (calls.map (Call.bytes fileWidth)).sum :=
      List.le_sum_of_mem (List.mem_map_of_mem hcall)
    exact (bytes_of_cut (hprint call hcall) hcut (htyped call hcall)).resolve_right (by omega)
  have hwhole : ∀ call ∈ calls, call.Whole := by
    by_contra hnot
    push Not at hnot
    obtain ⟨call, hcall, hnot⟩ := hnot
    refine Nat.ne_of_lt (List.sum_lt_sum _ _ (fun call hcall => ?_) ⟨call, hcall, hcut hcall hnot⟩) hsum
    by_cases hw : call.Whole
    · rw [hequal hcall hw fun _ => fileWidth_natCast, hequal hcall hw fun _ _ => rfl]
    · exact Nat.le_of_lt (hcut hcall hw)
  refine ⟨hwhole, ?_⟩
  rw [List.length_flatMap]
  exact congrArg List.sum (List.map_congr_left fun call hcall =>
    (hequal hcall (hwhole call hcall) fun _ => fileWidth_natCast).symm)

section Agreement

variable (new : StringBuffer → Nat → UInt8) (fresh : Nat → UInt8) (mem : UInt64 → UInt8) (args : Nat → UInt64)

/-- The bytes that `kfprintf` writes. -/
def KfprintfPrints (fmt out : List UInt8) : Prop :=
  ∃ next, Returns (kfvprintfRound mem args (fmt ++ [0])) (0, 0, some []) (next, some out)

/-- The string that `sprintf` makes: a new `StringBuffer`, `vformat`, `c_str` and `count`. -/
def SprintfPrints (fmt out : List UInt8) : Prop :=
  ∃ next sb, Returns (kvsprintfRound new mem args (fmt ++ [0])) (0, 0, some (.construct fresh)) (next, some sb) ∧
    sb.count.map (slice sb.cStr 0) = some out

variable {new fresh mem args}

theorem printRound_returns_iff {items : List Item} (hitems : Items fmt items) (h0 : 0 ∉ fmt)
    (print : Call → ω → Option ω) (o o' : ω) :
    (∃ next, Returns (printRound print mem args (fmt ++ [0])) (0, 0, some o) (next, some o')) ↔
      fmt.length < 2 ^ 32 ∧ printCalls print (calls mem args items 0) o = some o' := by
  constructor
  · rintro ⟨next, hret⟩
    have hlen := ((printRound_iff h0 print mem args (0, some o)).1 ⟨_, hret⟩).1
    exact ⟨hlen, (printRound_returns mem args hitems h0 hlen print o hret).symm⟩
  · rintro ⟨hlen, hprint⟩
    obtain ⟨⟨next, out⟩, hret⟩ :=
      (printRound_iff h0 print mem args (0, some o)).2 ⟨hlen, exists_items_iff.1 ⟨items, hitems⟩⟩
    have hout : out = _ := printRound_returns mem args hitems h0 hlen print o hret
    rw [hprint] at hout
    exact ⟨next, hout ▸ hret⟩

section

variable {items : List Item} (hitems : Items fmt items) (h0 : 0 ∉ fmt)
  (hnul : ∀ call ∈ calls mem args items 0, call.NoNul)

include hitems h0 hnul

theorem calls_of_agree {out : List UInt8} (hkf : KfprintfPrints mem args fmt out)
    (hsp : SprintfPrints new fresh mem args fmt out) :
    fmt.length < 2 ^ 32 ∧ (∀ call ∈ calls mem args items 0, call.Printable ∧ call.Whole) ∧
      ((calls mem args items 0).flatMap Call.text).length < 2 ^ 31 := by
  have htyped := calls_wellTyped mem args hitems 0
  have hcalls : ∀ call ∈ calls mem args items 0, call.WellTyped ∧ call.NoNul :=
    fun call hcall => ⟨htyped call hcall, hnul call hcall⟩
  obtain ⟨next, sb, hsp, hstr⟩ := hsp
  obtain ⟨hlen, hkf⟩ := (printRound_returns_iff hitems h0 (printCall file) [] out).1 hkf
  obtain ⟨-, hsp⟩ :=
    (printRound_returns_iff hitems h0 (printCall (stringBuffer new)) (.construct fresh) sb).1 ⟨next, hsp⟩
  obtain ⟨hprints, hout⟩ := printCalls_counts file_counts (k := 0) rfl hcalls hkf
  obtain ⟨-, t, ht, htlen⟩ := printCalls_counts (stringBuffer_counts new) (k := 0)
    ⟨[], StringBuffer.has_construct, rfl⟩ hcalls hsp
  obtain ⟨n, hcount, rfl⟩ := Option.map_eq_some_iff.1 hstr
  obtain ⟨rfl, hint⟩ := ht.length_of_count hcount
  rw [Nat.zero_add, length_slice] at hout
  rw [Nat.zero_add] at htlen
  obtain ⟨hwhole, htext⟩ := whole_of_sum hprints htyped (hout.symm.trans htlen) (hout ▸ hint)
  exact ⟨hlen, fun call hcall => ⟨hprints call hcall, hwhole call hcall⟩, by rw [htext, ← hout]; exact hint⟩

theorem agree_of_calls (hlen : fmt.length < 2 ^ 32)
    (hcalls : ∀ call ∈ calls mem args items 0, call.Printable ∧ call.Whole)
    (hint : ((calls mem args items 0).flatMap Call.text).length < 2 ^ 31) :
    ∃ out, KfprintfPrints mem args fmt out ∧ SprintfPrints new fresh mem args fmt out := by
  have htyped := calls_wellTyped mem args hitems 0
  have hall : ∀ call ∈ calls mem args items 0, call.Printable ∧ call.Whole ∧ call.WellTyped ∧ call.NoNul :=
    fun call hcall => ⟨(hcalls call hcall).1, (hcalls call hcall).2, htyped call hcall, hnul call hcall⟩
  obtain ⟨out, hkf, hout⟩ := printCalls_writes (file_writes [])
    (fun ho _ _ => ⟨_, rfl, by rw [ho, List.append_assoc]⟩) (t := []) rfl hall hint
  obtain ⟨sb, hsp, hhas⟩ := printCalls_writes (stringBuffer_writes new)
    (fun ho hc hint => ho.putc _ hc (by rwa [List.length_append] at hint)) StringBuffer.has_construct hall hint
  rw [List.nil_append] at hout hhas
  obtain ⟨next, hret⟩ := (printRound_returns_iff hitems h0 (printCall file) [] out).2 ⟨hlen, hkf⟩
  obtain ⟨next', hret'⟩ :=
    (printRound_returns_iff hitems h0 (printCall (stringBuffer new)) (.construct fresh) sb).2 ⟨hlen, hsp⟩
  refine ⟨out, ⟨next, hret⟩, next', sb, hret', ?_⟩
  rw [hhas.count hint, Option.map_some, hout]
  exact congrArg some (holds_iff_slice.1 hhas.holds).1

/-- **The two formatters agree** on a format exactly if its length fits the index, every call can be printed and cuts
no string, and what is printed can be counted by an `int`. -/
theorem kfprintf_sprintf_iff :
    (∃ out, KfprintfPrints mem args fmt out ∧ SprintfPrints new fresh mem args fmt out) ↔
      fmt.length < 2 ^ 32 ∧ (∀ call ∈ calls mem args items 0, call.Printable ∧ call.Whole) ∧
        ((calls mem args items 0).flatMap Call.text).length < 2 ^ 31 := by
  constructor
  · rintro ⟨out, hkf, hsp⟩
    exact calls_of_agree hitems h0 hnul hkf hsp
  · rintro ⟨hlen, hcalls, hint⟩
    exact agree_of_calls hitems h0 hnul hlen hcalls hint

end

/-- `%5d` of 42. -/
theorem kfprintf_sprintf_iff_width : ∃ out, KfprintfPrints (fun _ => 0) (fun _ => 42) [37, 53, 100] out ∧
    SprintfPrints (fun _ _ => 7) (fun _ => 7) (fun _ => 0) (fun _ => 42) [37, 53, 100] out := by
  have hitems : Items [37, 53, 100] [.conv { Format.zero with minWidth := 5 } 100] :=
    .conv (by decide) (by decide) .nil
  have hcalls : calls (fun _ => 0) (fun _ => 42) [.conv { Format.zero with minWidth := 5 } 100] 0 =
      [.int64 (int64 (42 : UInt64).toNat) .decimal { Format.zero with minWidth := 5 }] := by
    simp [calls, readConversion, starArgs, starWidth, starPrecision, conversion, Format.zero]
  refine (kfprintf_sprintf_iff hitems (by decide) ?_).2 ⟨by decide, ?_, ?_⟩
  · rw [hcalls]
    exact List.forall_mem_singleton.2 trivial
  · rw [hcalls]
    exact List.forall_mem_singleton.2 ⟨⟨by decide, by decide⟩, trivial⟩
  · rw [hcalls]
    decide

/-- `%.2s` of three characters is two of them in the file and all of them in the string. -/
theorem kfprintf_sprintf_cut : ¬∀ (new : StringBuffer → Nat → UInt8) (fresh : Nat → UInt8) (mem : UInt64 → UInt8)
    (args : Nat → UInt64) (fmt : List UInt8) (items : List Item), Items fmt items → 0 ∉ fmt →
    (∀ call ∈ calls mem args items 0, call.NoNul) →
    ∃ out, KfprintfPrints mem args fmt out ∧ SprintfPrints new fresh mem args fmt out := by
  intro h
  have hitems : Items [37, 46, 50, 115] [.conv { Format.zero with precision := 2 } 115] :=
    .conv (by decide) (by decide) .nil
  have hcalls : calls (fun a => if a < 3 then 97 else 0) (fun _ => 0)
      [.conv { Format.zero with precision := 2 } 115] 0 =
      [.string (stringAt (fun a => if a < 3 then 97 else 0) 0) { Format.zero with precision := 2 }] := by
    simp [calls, readConversion, starArgs, starWidth, starPrecision, conversion, Format.zero]
  have hnul : ∀ call ∈ calls (fun a => if a < 3 then 97 else 0) (fun _ => 0)
      [.conv { Format.zero with precision := 2 } 115] 0, call.NoNul := by
    rw [hcalls]
    exact List.forall_mem_singleton.2 trivial
  obtain ⟨out, hkf, hsp⟩ := h (fun _ _ => 0) (fun _ => 0) _ _ _ _ hitems (by decide) hnul
  have hwhole := (calls_of_agree hitems (by decide) hnul hkf hsp).2.1
  rw [hcalls] at hwhole
  have hcut := (hwhole _ List.mem_cons_self).2
  have hlen : (argString (stringAt (fun a => if a < 3 then 97 else 0) 0)).length = 3 := by decide
  rcases hcut with hzero | hle
  · exact absurd hzero (by decide)
  · rw [hlen] at hle
    exact absurd hle (by decide)

end Agreement

end ChenixOS.Printf
