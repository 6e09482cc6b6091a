import Mathlib.Data.List.Basic

/-!
# From scan codes to characters

What the interrupt handler of the keyboard makes of a scan code, and what the thread of the console makes
of a key. Both read one symbol at a time and keep a few flags: the handler whether the last scan code was
`0xE0`, the thread which of the modifier keys are down.
-/

namespace ChenixOS.Console

/-! ## Keys

A `PS2::Key` has 16 bits. The keys that stand for characters have the code of the character. -/

abbrev Key := UInt16

def key0 : Key := 48
def key9 : Key := 57
def keyA : Key := 97
def keyC : Key := 99
def keyZ : Key := 122

def keyCtrlLeft : Key := 0x0100
def keyCtrlRight : Key := 0x0101
def keyShiftLeft : Key := 0x0102
def keyShiftRight : Key := 0x0103

def keyUp : Key := 0x0200
def keyDown : Key := 0x0201

/-- `KEY_RELEASED`, the bit of a key that was let go. -/
def keyReleased : Key := 0x8000

/-- `g_ScanMap`, less the zeros at its end. -/
def scanMap : List Key :=
  [0, 0,
    49, 50, 51, 52, 53, 54, 55, 56, 57, 48,
    0, 39, 8, 9,
    113, 119, 101, 114, 116, 122, 117, 105, 111, 112,
    117, 43, 10, 0,
    97, 115, 100, 102, 103, 104, 106, 107, 108,
    111, 97, 0, 0, 0,
    121, 120, 99, 118, 98, 110, 109, 44, 46, 45,
    0, 0, 0,
    32]

/-! ## The interrupt handler -/

/-- The key that `KeyHandler` writes because of the scan code before. -/
def afterE0 (scan : UInt8) : List Key :=
  if scan = 0x48 then [keyUp]
  else if scan = 0x50 then [keyDown]
  else []

/-- The key that `KeyHandler` writes for the scan code itself. -/
def plain (scan : UInt8) : List Key :=
  if scan = 0x2A then [keyShiftLeft]
  else if scan = 0x36 then [keyShiftRight]
  else if scan = 0xAA then [keyShiftLeft ||| keyReleased]
  else if scan = 0xB6 then [keyShiftRight ||| keyReleased]
  else if scan = 0x1D then [keyCtrlLeft]
  else if scan = 0x9D then [keyCtrlLeft ||| keyReleased]
  else if scan = 0xE0 then []
  else
    let key : Key := if scan &&& 0x80 ≠ 0 then keyReleased else 0
    let scan := if scan &&& 0x80 ≠ 0 then scan &&& 0x7F else scan
    let k := scanMap.getD scan.toNat 0
    if k = 0 then [] else [key ||| k]

/-- `KeyHandler`: the new `g_E0Key`, and the keys it writes. -/
def keyHandler (g_E0Key : Bool) (scan : UInt8) : Bool × List Key :=
  (scan = 0xE0, (if g_E0Key then afterE0 scan else []) ++ plain scan)

/-! ## The console's thread -/

/-- Which of the modifier keys are down. -/
structure Modifiers where
  leftShift : Bool
  rightShift : Bool
  leftCtrl : Bool
  rightCtrl : Bool

/-- No key is down. -/
def Modifiers.none : Modifiers := ⟨false, false, false, false⟩

/-- What a key may lead to. -/
inductive Effect where
  | writeChar (c : UInt8)
  /-- `ThreadKill` of the foreground thread, if there is one. -/
  | kill
  /-- `ThreadAbort` of the foreground thread, if there is one. -/
  | abort
  deriving DecidableEq

/-- The cases of the switch with a shift key down. -/
def shiftedCases : List (Key × UInt8) :=
  [(48, 61), (49, 33), (50, 34), (52, 36), (53, 37), (54, 38), (55, 47), (56, 40), (57, 41),
    (39, 96), (8, 8), (9, 9), (10, 10), (43, 42), (45, 95), (44, 59), (46, 58), (32, 32)]

/-- The cases of the switch with no modifier down. -/
def plainCases : List (Key × UInt8) :=
  [(39, 39), (8, 8), (9, 9), (10, 10), (43, 43), (45, 45), (44, 44), (46, 46), (32, 32)]

/-- The character of a key when a shift key is down. -/
def shiftedChar (key : Key) : Option UInt8 :=
  if keyA ≤ key ∧ key ≤ keyZ then some (65 + (key - keyA).toUInt8)
  else shiftedCases.lookup key

/-- The character of a key when no modifier is down. -/
def plainChar (key : Key) : Option UInt8 :=
  if key0 ≤ key ∧ key ≤ key9 then some (48 + (key - key0).toUInt8)
  else if keyA ≤ key ∧ key ≤ keyZ then some (97 + (key - keyA).toUInt8)
  else plainCases.lookup key

/-- A round of `VConsoleThread`, from the key that it has read on. -/
def handleKey (con : Modifiers) (key : Key) : Modifiers × Option Effect :=
  if key = keyShiftLeft then ({ con with leftShift := true }, none)
  else if key = (keyShiftLeft ||| keyReleased) then ({ con with leftShift := false }, none)
  else if key = keyShiftRight then ({ con with rightShift := true }, none)
  else if key = (keyShiftRight ||| keyReleased) then ({ con with rightShift := false }, none)
  else if key = keyCtrlLeft then ({ con with leftCtrl := true }, none)
  else if key = (keyCtrlLeft ||| keyReleased) then ({ con with leftCtrl := false }, none)
  else if key = keyCtrlRight then ({ con with rightCtrl := true }, none)
  else if key = (keyCtrlRight ||| keyReleased) then ({ con with rightCtrl := false }, none)
  else if key = keyUp then (con, some (.writeChar 1))
  else if key = keyDown then (con, some (.writeChar 2))
  else if con.leftCtrl ∧ key = keyC then (con, some .kill)
  else if con.leftCtrl ∧ key = keyA then (con, some .abort)
  else if key &&& keyReleased ≠ 0 then (con, none)
  else if con.leftShift ∨ con.rightShift then (con, (shiftedChar key).map .writeChar)
  else if con.leftCtrl ∨ con.rightCtrl then (con, none)
  else (con, (plainChar key).map .writeChar)

/-- The characters among the effects. -/
def textOf (effects : List Effect) : List UInt8 :=
  effects.filterMap fun effect =>
    match effect with
    | .writeChar c => some c
    | .kill | .abort => none

@[simp] theorem textOf_append (xs ys : List Effect) : textOf (xs ++ ys) = textOf xs ++ textOf ys :=
  List.filterMap_append

end ChenixOS.Console
