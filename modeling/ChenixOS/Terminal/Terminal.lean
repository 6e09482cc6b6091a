import ChenixOS.Lib.Raster

/-!
# The terminal

The console of the kernel draws its text into the video buffer, a character of 8 by 16 pixels for each cell of the
text area, which lies behind a margin at all sides of the screen. The character at the cursor is a `_`.

Without double buffering the lines of the video buffer itself move up when the text scrolls. With it, what is
drawn is drawn to a second buffer as well, whose rows are a ring that begins at `bBufferLine`; scrolling clears
the oldest row, makes the next one the first and copies both parts of the ring to the video buffer.

Coordinates are those of a screen and of the text area on it, all of them far from the bounds of an `int`, so they
are natural numbers here. A buffer is a function from the index of a pixel.
-/

namespace ChenixOS.Terminal

open Raster

/-- `g_Margin` -/
def margin : Nat := 25

/-- `g_CharWidth` -/
def charWidth : Nat := 8

/-- `g_CharHeight` -/
def charHeight : Nat := 16

abbrev Pixels := Nat → UInt32

/-- The lines of the glyphs: `font c y` is the byte `g_FontData[(uint64)c * charHeight + y]`. -/
abbrev Font := UInt8 → Nat → UInt8

structure TerminalInfo where
  vBuffer : Pixels
  screenWidth : Nat
  screenHeight : Nat
  screenScanlineWidth : Nat
  invertColors : Bool
  cursorX : Nat
  cursorY : Nat
  screenCharsPerRow : Nat
  screenCharsPerCol : Nat
  bBuffer : Option Pixels
  bBufferLine : Nat

/-- `bBufferLine` keeps what it was. -/
def initTerminalInfo (tInfo : TerminalInfo) (videoBuffer : Pixels) (width height scanline : Nat)
    (invertColors : Bool) : TerminalInfo :=
  { tInfo with
    cursorX := 0
    cursorY := 0
    screenCharsPerRow := (width - margin * 2) / charWidth
    screenCharsPerCol := (height - margin * 2) / charHeight
    screenWidth := width
    screenHeight := height
    screenScanlineWidth := scanline
    vBuffer := videoBuffer
    invertColors := invertColors
    bBuffer := none }

/-- `pages` is what the allocated pages hold. -/
def enableDoubleBuffering (tInfo : TerminalInfo) (pages : Pixels) : TerminalInfo :=
  { tInfo with
    bBuffer := some (Buffer.paste pages 0 (tInfo.screenScanlineWidth * tInfo.screenHeight) tInfo.vBuffer)
    bBufferLine := 0 }

/-! ## Drawing -/

/-- The source is a function of the destination: the two may be one buffer. The columns to copy from and to are
parameters that nothing reads. -/
def blt (dest : Pixels) (src : Pixels → Pixels) (_srcX srcY _dstX dstY width height srcScan dstScan : Nat) :
    Pixels :=
  (List.range height).foldl (fun dest y =>
    Buffer.paste dest ((dstY + y) * dstScan) width fun i => src dest ((srcY + y) * srcScan + i)) dest

def fill (dest : Pixels) (pxl : UInt32) (x y w h dstScan : Nat) : Pixels :=
  draw dest x y w h dstScan fun _ _ => pxl

/-- The pixel that a character has in column `x` of its line `y`. -/
def charPixel (font : Font) (c : UInt8) (color : UInt32) (x y : Nat) : UInt32 :=
  if (font c y).toNat.testBit (charWidth - 1 - x) then color else 0

/-- `_RenderChar` -/
def renderCharV (font : Font) (tInfo : TerminalInfo) (c : UInt8) (xPos yPos : Nat) (color : UInt32) :
    TerminalInfo :=
  { tInfo with
    vBuffer := draw tInfo.vBuffer (xPos * charWidth + margin) (yPos * charHeight + margin) charWidth charHeight
      tInfo.screenScanlineWidth (charPixel font c color) }

/-- `_RenderCharBB`, given the second buffer. -/
def renderCharBB (font : Font) (tInfo : TerminalInfo) (bBuffer : Pixels) (c : UInt8) (xPos yPos : Nat)
    (color : UInt32) : TerminalInfo :=
  let yy := (tInfo.bBufferLine + yPos) % tInfo.screenCharsPerCol * charHeight + margin
  let bBuffer := draw bBuffer (xPos * charWidth + margin) yy charWidth charHeight tInfo.screenScanlineWidth
    (charPixel font c color)
  renderCharV font { tInfo with bBuffer := some bBuffer } c xPos yPos color

def renderChar (font : Font) (tInfo : TerminalInfo) (c : UInt8) (xPos yPos : Nat) (color : UInt32) :
    TerminalInfo :=
  match tInfo.bBuffer with
  | none => renderCharV font tInfo c xPos yPos color
  | some bBuffer => renderCharBB font tInfo bBuffer c xPos yPos color

/-! ## The cursor -/

/-- What both variants do to the cursor. -/
def moveCursor (scroll : TerminalInfo → TerminalInfo) (tInfo : TerminalInfo) : TerminalInfo :=
  if tInfo.cursorX + 1 = tInfo.screenCharsPerRow then
    if tInfo.cursorY + 1 = tInfo.screenCharsPerCol then
      scroll { tInfo with cursorX := 0, cursorY := tInfo.screenCharsPerCol - 1 }
    else { tInfo with cursorX := 0, cursorY := tInfo.cursorY + 1 }
  else { tInfo with cursorX := tInfo.cursorX + 1 }

/-- The lines of the video buffer move up. -/
def scrollV (tInfo : TerminalInfo) : TerminalInfo :=
  let vBuffer := blt tInfo.vBuffer (fun vBuffer => vBuffer) margin (margin + charHeight) margin margin
    (tInfo.screenCharsPerRow * charWidth) ((tInfo.screenCharsPerCol - 1) * charHeight)
    tInfo.screenScanlineWidth tInfo.screenScanlineWidth
  { tInfo with
    vBuffer := fill vBuffer 0 margin (margin + (tInfo.screenCharsPerCol - 1) * charHeight)
      (tInfo.screenCharsPerRow * charWidth) charHeight tInfo.screenScanlineWidth }

/-- The ring turns by one row and is copied to the video buffer. -/
def scrollBB (bBuffer : Pixels) (tInfo : TerminalInfo) : TerminalInfo :=
  let bBufferLine := (tInfo.bBufferLine + 1) % tInfo.screenCharsPerCol
  let fillYY := margin + (bBufferLine + tInfo.screenCharsPerCol - 1) % tInfo.screenCharsPerCol * charHeight
  let bBuffer := fill bBuffer 0 margin fillYY (tInfo.screenCharsPerRow * charWidth) charHeight
    tInfo.screenScanlineWidth
  let yyA := margin
  let heightA := (tInfo.screenCharsPerCol - bBufferLine) * charHeight
  let yyB := yyA + heightA
  let heightB := tInfo.screenCharsPerCol * charHeight - heightA
  let vBuffer := blt tInfo.vBuffer (fun _ => bBuffer) margin (bBufferLine * charHeight + margin) margin yyA
    (tInfo.screenCharsPerRow * charWidth) heightA tInfo.screenScanlineWidth tInfo.screenScanlineWidth
  let vBuffer := blt vBuffer (fun _ => bBuffer) margin margin margin yyB
    (tInfo.screenCharsPerRow * charWidth) heightB tInfo.screenScanlineWidth tInfo.screenScanlineWidth
  { tInfo with vBuffer := vBuffer, bBuffer := some bBuffer, bBufferLine := bBufferLine }

/-- `_AdvanceCursor` -/
def advanceCursorV (font : Font) (tInfo : TerminalInfo) : TerminalInfo :=
  let tInfo := moveCursor scrollV tInfo
  renderChar font tInfo 0x5F tInfo.cursorX tInfo.cursorY 0xFFFFFFFF

/-- `_AdvanceCursorBB`, given the second buffer. -/
def advanceCursorBB (bBuffer : Pixels) (tInfo : TerminalInfo) : TerminalInfo := moveCursor (scrollBB bBuffer) tInfo

def advanceCursor (font : Font) (tInfo : TerminalInfo) : TerminalInfo :=
  match tInfo.bBuffer with
  | none => advanceCursorV font tInfo
  | some bBuffer => advanceCursorBB bBuffer tInfo

/-! ## The operations -/

/-- What `PutChar` makes of a color where the colors are inverted: red and blue change places. -/
def invert (color : UInt32) : UInt32 :=
  let r := color >>> 16 &&& 0xFF
  let g := color >>> 8 &&& 0xFF
  let b := color &&& 0xFF
  b <<< 16 ||| g <<< 8 ||| r

def setCursor (font : Font) (tInfo : TerminalInfo) (x y : Nat) : TerminalInfo :=
  let tInfo := renderChar font tInfo 0x20 tInfo.cursorX tInfo.cursorY 0
  let tInfo := { tInfo with cursorX := x, cursorY := y }
  renderChar font tInfo 0x5F tInfo.cursorX tInfo.cursorY 0xFFFFFFFF

def putChar (font : Font) (tInfo : TerminalInfo) (c : UInt8) (color : UInt32) : TerminalInfo :=
  let color := if tInfo.invertColors then invert color else color
  let tInfo := renderChar font tInfo c tInfo.cursorX tInfo.cursorY color
  let tInfo := advanceCursor font tInfo
  renderChar font tInfo 0x5F tInfo.cursorX tInfo.cursorY 0xFFFFFFFF

/-- In the first cell of the text area the cursor stays, and is not drawn again. -/
def removeChar (font : Font) (tInfo : TerminalInfo) : TerminalInfo :=
  let tInfo := renderChar font tInfo 0x20 tInfo.cursorX tInfo.cursorY 0
  if tInfo.cursorX = 0 then
    if 0 < tInfo.cursorY then
      let tInfo := { tInfo with cursorX := tInfo.screenCharsPerRow - 1, cursorY := tInfo.cursorY - 1 }
      renderChar font tInfo 0x5F tInfo.cursorX tInfo.cursorY 0xFFFFFFFF
    else tInfo
  else
    let tInfo := { tInfo with cursorX := tInfo.cursorX - 1 }
    renderChar font tInfo 0x5F tInfo.cursorX tInfo.cursorY 0xFFFFFFFF

def newLine (font : Font) (tInfo : TerminalInfo) : TerminalInfo :=
  let tInfo := renderChar font tInfo 0x20 tInfo.cursorX tInfo.cursorY 0
  let tInfo := advanceCursor font { tInfo with cursorX := tInfo.screenCharsPerRow - 1 }
  renderChar font tInfo 0x5F tInfo.cursorX tInfo.cursorY 0xFFFFFFFF

def clear (tInfo : TerminalInfo) : TerminalInfo :=
  { tInfo with
    vBuffer := fill tInfo.vBuffer 0 margin margin (tInfo.screenCharsPerRow * charWidth)
      (tInfo.screenCharsPerCol * charHeight) tInfo.screenScanlineWidth }

/-! ## Screens -/

/-- A screen with at least one row and one column of text, whose lines fit the buffer's. -/
structure Geometry where
  width : Nat
  height : Nat
  scanline : Nat
  columns : margin * 2 + charWidth ≤ width
  rows : margin * 2 + charHeight ≤ height
  fits : width ≤ scanline

namespace Geometry

variable (S : Geometry)

/-- The characters of a row. -/
def charsPerRow : Nat := (S.width - margin * 2) / charWidth

/-- The rows of the text area. -/
def charsPerCol : Nat := (S.height - margin * 2) / charHeight

theorem charsPerRow_pos : 0 < S.charsPerRow := by
  have := S.columns
  unfold charsPerRow
  exact Nat.div_pos (by omega) (by decide)

theorem charsPerCol_pos : 0 < S.charsPerCol := by
  have := S.rows
  unfold charsPerCol
  exact Nat.div_pos (by omega) (by decide)

/-- The text area lies inside of the lines. -/
theorem text_le : S.charsPerRow * charWidth + margin ≤ S.scanline := by
  have hfits := S.fits
  have hcolumns := S.columns
  have hdiv : S.charsPerRow * charWidth ≤ S.width - margin * 2 := Nat.div_mul_le_self _ _
  omega

theorem rows_le : S.charsPerCol * charHeight + margin ≤ S.height := by
  have hrows := S.rows
  have hdiv : S.charsPerCol * charHeight ≤ S.height - margin * 2 := Nat.div_mul_le_self _ _
  omega

end Geometry

/-- The operations, the cursor being set to cells of the text area only. -/
inductive Op (S : Geometry)
  | putChar (c : UInt8) (color : UInt32)
  | newLine
  | removeChar
  | setCursor (x : Fin S.charsPerRow) (y : Fin S.charsPerCol)

variable {S : Geometry}

def TerminalInfo.step (font : Font) (tInfo : TerminalInfo) : Op S → TerminalInfo
  | .putChar c color => Terminal.putChar font tInfo c color
  | .newLine => Terminal.newLine font tInfo
  | .removeChar => Terminal.removeChar font tInfo
  | .setCursor x y => Terminal.setCursor font tInfo x y

/-- The cleared screen. -/
def plain (S : Geometry) (tInfo : TerminalInfo) (videoBuffer : Pixels) (invertColors : Bool) : TerminalInfo :=
  clear (initTerminalInfo tInfo videoBuffer S.width S.height S.scanline invertColors)

/-- The cleared screen, with double buffering. -/
def buffered (S : Geometry) (tInfo : TerminalInfo) (videoBuffer : Pixels) (invertColors : Bool) (pages : Pixels) :
    TerminalInfo :=
  enableDoubleBuffering (plain S tInfo videoBuffer invertColors) pages

end ChenixOS.Terminal
