import ChenixOS.Terminal.Terminal
import Mathlib.Data.List.Infix

/-!
# What the terminal is to show

The terminal is to show a grid of character cells: a character is written at the cursor, which moves on, wraps at
the right edge and scrolls the grid up by a row at the bottom; the cell at the cursor holds a `_`. The text area
of the video buffer is to be the picture of this grid, with and without double buffering.

`Blt` copies the columns of a line from its beginning on instead of from the margin on, so scrolling leaves the
last columns of the text area as they were: it shows the grid exactly where it would not change them.
-/

namespace ChenixOS.Terminal

open Raster

/-! ## The grid -/

/-- A character in its color. -/
structure Cell where
  char : UInt8
  color : UInt32

namespace Cell

def blank : Cell := ⟨0x20, 0⟩

def cursor : Cell := ⟨0x5F, 0xFFFFFFFF⟩

def pixel (font : Font) (c : Cell) (a l : Nat) : UInt32 := charPixel font c.char c.color a l

/-- A black character cannot be seen. -/
@[simp] theorem pixel_blank (font : Font) (a l : Nat) : blank.pixel font a l = 0 := ite_self _

end Cell

/-- A grid of cells and its cursor. -/
structure Grid where
  cells : Nat → Nat → Cell
  x : Nat
  y : Nat

namespace Grid

variable (S : Geometry)

def empty : Grid := ⟨fun _ _ => .blank, 0, 0⟩

/-- Write a cell at the cursor. -/
def write (g : Grid) (c : Cell) : Grid :=
  { g with cells := fun x y => if x = g.x ∧ y = g.y then c else g.cells x y }

/-- The rows move up and an empty one follows. -/
def scroll (g : Grid) : Grid :=
  { g with cells := fun x y => if y + 1 < S.charsPerCol then g.cells x (y + 1) else .blank }

/-- In the last cell, moving the cursor on scrolls the grid. -/
def AtEnd (g : Grid) : Prop := g.x + 1 = S.charsPerRow ∧ g.y + 1 = S.charsPerCol

instance (g : Grid) : Decidable (g.AtEnd S) := inferInstanceAs (Decidable (_ ∧ _))

def advance (g : Grid) : Grid :=
  if g.AtEnd S then { g.scroll S with x := 0 }
  else if g.x + 1 = S.charsPerRow then { g with x := 0, y := g.y + 1 }
  else { g with x := g.x + 1 }

/-- Move the cursor back by a cell. -/
def back (g : Grid) : Grid :=
  if g.x = 0 then { g with x := S.charsPerRow - 1, y := g.y - 1 } else { g with x := g.x - 1 }

variable {S}

/-- The grid as an operation that moves the cursor on has it before that. -/
def typed (inverted : Bool) (g : Grid) : Op S → Option Grid
  | .putChar c color => some (g.write ⟨c, if inverted then invert color else color⟩)
  | .newLine => some { g.write .blank with x := S.charsPerRow - 1 }
  | _ => none

def step (inverted : Bool) (g : Grid) : Op S → Grid
  | .putChar c color => ((g.write ⟨c, if inverted then invert color else color⟩).advance S).write .cursor
  | .newLine => (advance S { g.write .blank with x := S.charsPerRow - 1 }).write .cursor
  | .removeChar => if g.x = 0 ∧ g.y = 0 then g.write .blank else ((g.write .blank).back S).write .cursor
  | .setCursor x y => write { g.write .blank with x := x, y := y } .cursor

def run (inverted : Bool) (g : Grid) (ops : List (Op S)) : Grid := ops.foldl (step inverted) g

end Grid

/-! ## Pictures -/

/-- A picture of the text area gives the pixel in column `a` of line `l` of each cell. -/
abbrev Picture := Nat → Nat → Nat → Nat → UInt32

/-- The picture with another cell. -/
def Picture.over (F : Picture) (x y : Nat) (f : Nat → Nat → UInt32) : Picture :=
  fun x' y' a l => if x' = x ∧ y' = y then f a l else F x' y' a l

def Grid.picture (font : Font) (g : Grid) : Picture := fun x y a l => (g.cells x y).pixel font a l

/-- A pixel of the text area. -/
structure InText (S : Geometry) (x y a l : Nat) : Prop where
  x : x < S.charsPerRow
  y : y < S.charsPerCol
  a : a < charWidth
  l : l < charHeight

def textPixel (S : Geometry) (b : Pixels) : Picture :=
  fun x y a l => b (offset S.scanline (x * charWidth + margin + a) (y * charHeight + margin + l))

/-- The text area of a buffer, its rows taken in the order that `row` gives, is the picture. -/
def Reads (S : Geometry) (b : Pixels) (row : Nat → Nat) (F : Picture) : Prop :=
  ∀ x y a l, InText S x y a l → textPixel S b x (row y) a l = F x y a l

/-- Where the rows of the text lie in a ring that begins at `line`. -/
def ringRow (S : Geometry) (line y : Nat) : Nat := (line + y) % S.charsPerCol

/-- The terminal shows the grid. -/
def Shows (S : Geometry) (font : Font) (g : Grid) (tInfo : TerminalInfo) : Prop :=
  Reads S tInfo.vBuffer id (g.picture font)

/-- Two terminals show the same text. -/
def SameText (S : Geometry) (tInfo tInfo' : TerminalInfo) : Prop :=
  Reads S tInfo'.vBuffer id (textPixel S tInfo.vBuffer)

/-- A column that `Blt` copies. -/
def Copied (S : Geometry) (x a : Nat) : Prop := x * charWidth + margin + a < S.charsPerRow * charWidth

instance (S : Geometry) (x a : Nat) : Decidable (Copied S x a) := inferInstanceAs (Decidable (_ < _))

/-- Scrolling changes nothing in the columns that `Blt` does not copy, in the first `k` rows and without the cell
of the cursor, which is drawn anew. -/
def Still (S : Geometry) (font : Font) (k : Nat) (g : Grid) : Prop :=
  ∀ x y a l, InText S x y a l → ¬Copied S x a → y < k → ¬(x = 0 ∧ y + 1 = S.charsPerCol) →
    (g.scroll S).picture font x y a l = g.picture font x y a l

/-- The operation does not scroll, or scrolling changes nothing where `Blt` does not copy. -/
def Undisturbed (S : Geometry) (font : Font) (inverted : Bool) (k : Nat) (g : Grid) (op : Op S) : Prop :=
  ∀ g', g.typed inverted op = some g' → g'.AtEnd S → Still S font k g'

def TerminalInfo.run {S : Geometry} (font : Font) (tInfo : TerminalInfo) (ops : List (Op S)) : TerminalInfo :=
  ops.foldl (TerminalInfo.step font) tInfo

end ChenixOS.Terminal
