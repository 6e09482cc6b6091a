import ChenixOS.Terminal.Screen
import ChenixOS.Lib.Ring
import ChenixOS.Lib.Transitions

/-!
# What the terminal shows

**The main result**, `shown_iff`: with and without double buffering the terminal shows the grid after each
operation, exactly if every operation that scrolls finds the last columns of the text area such that scrolling
does not change them. The second buffer holds the grid in any case (`Display.ring`): only what scrolling copies
to the video buffer is too narrow.
-/

namespace ChenixOS.Terminal

open Raster

variable {S : Geometry} {font : Font} {b c : Pixels} {row : Nat → Nat} {F G : Picture} {g : Grid}
  {x y a l X Y k : Nat}

/-! ## Pictures in buffers -/

theorem InText.lt_scanline (h : InText S x y a l) : x * charWidth + margin + a < S.scanline := by
  have hx : (x + 1) * charWidth ≤ S.charsPerRow * charWidth := Nat.mul_le_mul_right _ h.x
  have ha := h.a
  have htext := S.text_le
  rw [Nat.succ_mul] at hx
  omega

theorem cell_le (hX : X < S.charsPerRow) : X * charWidth + margin + charWidth ≤ S.scanline := by
  have hx : (X + 1) * charWidth ≤ S.charsPerRow * charWidth := Nat.mul_le_mul_right _ hX
  have htext := S.text_le
  rw [Nat.succ_mul] at hx
  omega

/-- A buffer has one picture. -/
theorem Reads.iff (h : Reads S b row F) : Reads S b row G ↔ ∀ x y a l, InText S x y a l → F x y a l = G x y a l := by
  constructor
  · intro h' x y a l hin
    rw [← h x y a l hin, h' x y a l hin]
  · intro heq x y a l hin
    rw [h x y a l hin, heq x y a l hin]

/-- Drawing a character. -/
theorem Reads.draw {f : Nat → Nat → UInt32} (h : Reads S b row F) (hX : X < S.charsPerRow)
    (hrow : ∀ y, y < S.charsPerCol → row y = row Y → y = Y) :
    Reads S (Raster.draw b (X * charWidth + margin) (row Y * charHeight + margin) charWidth charHeight S.scanline f)
      row (F.over X Y f) := by
  intro x y a l hin
  have hcol := hin.lt_scanline
  have hcell := cell_le hX
  have ha := hin.a
  have hl := hin.l
  unfold textPixel Picture.over
  by_cases hsame : x = X ∧ y = Y
  · obtain ⟨rfl, rfl⟩ := hsame
    rw [if_pos ⟨rfl, rfl⟩, draw_of_mem hcol hcell (by omega) (by omega), Nat.add_sub_cancel_left,
      Nat.add_sub_cancel_left]
  · have hout : ¬(x = X ∧ row y = row Y) := fun hmem => hsame ⟨hmem.1, hrow y hin.y hmem.2⟩
    rw [if_neg hsame, draw_of_not_mem hcol hcell, ← h x y a l hin, textPixel]
    simp only [charWidth, charHeight] at *
    omega

theorem Grid.write_picture (g : Grid) (c : Cell) :
    (g.write c).picture font = (g.picture font).over g.x g.y (c.pixel font) := by
  funext x y a l
  unfold picture write Picture.over
  by_cases hsame : x = g.x ∧ y = g.y
  · simp only [hsame, and_self, if_true]
  · simp only [hsame, if_false]

theorem Grid.scroll_picture (g : Grid) :
    (g.scroll S).picture font x y a l = if y + 1 < S.charsPerCol then g.picture font x (y + 1) a l else 0 := by
  unfold picture scroll
  by_cases hy : y + 1 < S.charsPerCol
  · simp only [hy, if_true]
  · simp only [hy, if_false, Cell.pixel_blank]

/-! ## Copying and filling -/

theorem blt_eq_copyLines {src : Pixels → Pixels} {srcX srcY dstX dstY width height scan : Nat} :
    blt b src srcX srcY dstX dstY width height scan scan = copyLines b src srcY dstY width height scan := by
  unfold blt copyLines lines
  congr 1
  funext dest y
  congr 1
  · exact (Nat.zero_add _).symm
  · funext i
    exact congrArg (src dest) (Nat.add_comm _ _)

/-- Without double buffering the rows move up, in the columns that `Blt` copies; the last one is cleared. -/
theorem textPixel_scrollV {tInfo : TerminalInfo} (hscan : tInfo.screenScanlineWidth = S.scanline)
    (hcols : tInfo.screenCharsPerRow = S.charsPerRow) (hrows : tInfo.screenCharsPerCol = S.charsPerCol)
    (hin : InText S x y a l) :
    textPixel S (scrollV tInfo).vBuffer x y a l =
      if y + 1 = S.charsPerCol then 0
      else if Copied S x a then
        textPixel S tInfo.vBuffer x (y + 1) a l
      else textPixel S tInfo.vBuffer x y a l := by
  obtain ⟨hx, hy, ha, hl⟩ := hin
  have htext := S.text_le
  unfold textPixel scrollV fill
  dsimp only
  rw [hscan, hcols, hrows, blt_eq_copyLines]
  by_cases hlast : y + 1 = S.charsPerCol
  · rw [if_pos hlast]
    simp only [charWidth, charHeight, margin] at *
    rw [draw_of_mem (by omega) (by omega) (by omega) (by omega)]
  · rw [if_neg hlast]
    by_cases hcol : Copied S x a
    · rw [if_pos hcol]
      simp only [Copied, charWidth, charHeight, margin] at *
      have hline : 25 + 16 + (y * 16 + 25 + l - 25) = (y + 1) * 16 + 25 + l := by omega
      rw [draw_of_not_mem (by omega) (by omega) (by omega),
        copyLines_self_of_mem hcol (by omega) (by omega) (by omega), hline]
    · rw [if_neg hcol]
      simp only [Copied, charWidth, charHeight, margin] at *
      rw [draw_of_not_mem (by omega) (by omega) (by omega), copyLines_of_not_mem (by omega) (by omega) (by omega)]

/-- The two copies together take each row of the text area from the ring. -/
theorem copyLines_ring {line : Nat} (hline : line < S.charsPerCol) (hin : InText S x y a l) :
    textPixel S
        (copyLines
          (copyLines b (fun _ => c) (line * charHeight + margin) margin (S.charsPerRow * charWidth)
            ((S.charsPerCol - line) * charHeight) S.scanline)
          (fun _ => c) margin (margin + (S.charsPerCol - line) * charHeight) (S.charsPerRow * charWidth)
          (S.charsPerCol * charHeight - (S.charsPerCol - line) * charHeight) S.scanline)
        x y a l =
      if Copied S x a then textPixel S c x (ringRow S line y) a l else textPixel S b x y a l := by
  obtain ⟨hx, hy, ha, hl⟩ := hin
  have htext := S.text_le
  unfold textPixel ringRow
  by_cases hcol : Copied S x a
  · rw [if_pos hcol]
    rcases Nat.lt_or_ge (line + y) S.charsPerCol with hlow | hhigh
    · rw [Ring.add_mod_of_lt hlow]
      simp only [Copied, charWidth, charHeight, margin] at *
      have hfrom : line * 16 + 25 + (y * 16 + 25 + l - 25) = (line + y) * 16 + 25 + l := by omega
      rw [copyLines_of_not_mem (by omega) (by omega) (by omega), copyLines_of_mem hcol (by omega) (by omega), hfrom]
    · rw [Ring.add_mod_of_ge hhigh (by omega)]
      simp only [Copied, charWidth, charHeight, margin] at *
      have hfrom : 25 + (y * 16 + 25 + l - (25 + (S.charsPerCol - line) * 16)) =
          (line + y - S.charsPerCol) * 16 + 25 + l := by omega
      rw [copyLines_of_mem hcol (by omega) (by omega), hfrom]
  · rw [if_neg hcol]
    simp only [Copied, charWidth, charHeight, margin] at *
    rw [copyLines_of_not_mem (by omega) (by omega) (by omega), copyLines_of_not_mem (by omega) (by omega) (by omega)]

/-- **The ring is scrolled as a whole**: its next row is the first, and the one before it is cleared. -/
theorem Reads.turn {line next : Nat} (hnext : next = (line + 1) % S.charsPerCol)
    (h : Reads S b (ringRow S line) (g.picture font)) :
    Reads S
      (fill b 0 margin (margin + (next + S.charsPerCol - 1) % S.charsPerCol * charHeight)
        (S.charsPerRow * charWidth) charHeight S.scanline)
      (ringRow S next) ((g.scroll S).picture font) := by
  rintro x y a l ⟨hx, hy, ha, hl⟩
  have hlt : next < S.charsPerCol := hnext ▸ Nat.mod_lt _ S.charsPerCol_pos
  have hrow : ringRow S next y = ringRow S line (y + 1) := by
    unfold ringRow
    rw [hnext, Nat.mod_add_mod, Nat.add_right_comm, Nat.add_assoc]
  have hfilled : (next + S.charsPerCol - 1) % S.charsPerCol = ringRow S next (S.charsPerCol - 1) := by
    rw [ringRow, Nat.add_sub_assoc S.charsPerCol_pos]
  have htext := S.text_le
  rw [hfilled, Grid.scroll_picture]
  unfold fill
  by_cases hlast : y + 1 < S.charsPerCol
  · have hother : ringRow S next y ≠ ringRow S next (S.charsPerCol - 1) := by
      intro heq
      have hsame := Ring.add_mod_inj hlt hy (by omega) heq
      omega
    rw [if_pos hlast, ← h x (y + 1) a l ⟨hx, hlast, ha, hl⟩, ← hrow]
    unfold textPixel
    simp only [charWidth, charHeight, margin] at *
    rw [draw_of_not_mem (by omega) (by omega) (by omega)]
  · have hsame : y = S.charsPerCol - 1 := by omega
    rw [if_neg hlast, hsame]
    unfold textPixel
    simp only [charWidth, charHeight, margin] at *
    rw [draw_of_mem (by omega) (by omega) (by omega) (by omega)]

/-! ## The terminal and the grid -/

/-- The terminal is set up for the screen. -/
structure Fits (S : Geometry) (inverted : Bool) (tInfo : TerminalInfo) : Prop where
  scan : tInfo.screenScanlineWidth = S.scanline
  cols : tInfo.screenCharsPerRow = S.charsPerRow
  rows : tInfo.screenCharsPerCol = S.charsPerCol
  inverted : tInfo.invertColors = inverted

/-- The terminal works on the grid `g`, and its video buffer shows `F`. -/
structure Display (S : Geometry) (font : Font) (inverted doubled : Bool) (g : Grid) (F : Picture)
    (tInfo : TerminalInfo) : Prop where
  fits : Fits S inverted tInfo
  cursor : tInfo.cursorX = g.x ∧ tInfo.cursorY = g.y
  inside : g.x < S.charsPerRow ∧ g.y < S.charsPerCol
  doubled : tInfo.bBuffer.isSome = doubled
  /-- The ring holds the grid, whatever the video buffer shows. -/
  ring : ∀ b, tInfo.bBuffer = some b →
    tInfo.bBufferLine < S.charsPerCol ∧ Reads S b (ringRow S tInfo.bBufferLine) (g.picture font)
  shown : Reads S tInfo.vBuffer id F

/-- The rows at the top in which scrolling leaves the other columns: without double buffering the last row is
cleared in all of them. -/
def staleRows (S : Geometry) (doubled : Bool) : Nat := if doubled then S.charsPerCol else S.charsPerCol - 1

/-- What is shown when the grid was scrolled. -/
def Grid.scrolled (S : Geometry) (font : Font) (k : Nat) (g : Grid) : Picture := fun x y a l =>
  if Copied S x a ∨ k ≤ y then (g.scroll S).picture font x y a l else g.picture font x y a l

/-- What is shown when the cursor was moved on. -/
def Grid.advanced (S : Geometry) (font : Font) (k : Nat) (g : Grid) : Picture :=
  if g.AtEnd S then g.scrolled S font k else g.picture font

section

variable {inverted doubled : Bool} {tInfo : TerminalInfo}

/-- **A character is drawn** to the video buffer and to the row of the ring that is shown there. -/
theorem Display.renderChar (h : Display S font inverted doubled g F tInfo) (c : Cell) :
    Display S font inverted doubled (g.write c) (F.over g.x g.y (c.pixel font))
      (renderChar font tInfo c.char tInfo.cursorX tInfo.cursorY c.color) := by
  obtain ⟨⟨hscan, hcols, hrows, hinv⟩, ⟨hcx, hcy⟩, ⟨hx, hy⟩, hdoubled, hring, hshown⟩ := h
  have hv := hshown.draw (f := c.pixel font) (Y := g.y) hx fun y _ heq => heq
  rw [← hscan, ← hcx, id, ← hcy] at hv
  unfold Terminal.renderChar
  cases hb : tInfo.bBuffer with
  | none =>
    rw [hb] at hdoubled
    refine ⟨⟨hscan, hcols, hrows, hinv⟩, ⟨hcx, hcy⟩, ⟨hx, hy⟩, ?_, ?_, ?_⟩
    · rw [← hdoubled, renderCharV, hb]
    · intro b hsome
      rw [renderCharV, hb] at hsome
      cases hsome
    · rw [← hcx, ← hcy]
      exact hv
  | some b =>
    obtain ⟨hline, hreads⟩ := hring b hb
    rw [hb] at hdoubled
    have hbb := hreads.draw (f := c.pixel font) (Y := g.y) hx fun y hy' heq => Ring.add_mod_inj hline hy' hy heq
    refine ⟨⟨hscan, hcols, hrows, hinv⟩, ⟨hcx, hcy⟩, ⟨hx, hy⟩, hdoubled, ?_, ?_⟩
    · intro b' hsome
      obtain rfl : _ = b' := Option.some.inj hsome
      rw [Grid.write_picture]
      dsimp only [renderCharBB, renderCharV]
      rw [hscan, hrows, hcx, hcy]
      exact ⟨hline, hbb⟩
    · rw [← hcx, ← hcy]
      exact hv

theorem Display.write (h : Display S font inverted doubled g (g.picture font) tInfo) (c : Cell) :
    Display S font inverted doubled (g.write c) ((g.write c).picture font)
      (Terminal.renderChar font tInfo c.char tInfo.cursorX tInfo.cursorY c.color) := by
  rw [Grid.write_picture]
  exact h.renderChar c

/-- The character at the cursor is erased. -/
theorem Display.erase (h : Display S font inverted doubled g (g.picture font) tInfo) :
    Display S font inverted doubled (g.write .blank) ((g.write .blank).picture font)
      (Terminal.renderChar font tInfo 0x20 tInfo.cursorX tInfo.cursorY 0) :=
  h.write .blank

/-- Moving the cursor draws nothing. -/
theorem Display.move (h : Display S font inverted doubled g F tInfo) (hX : X < S.charsPerRow)
    (hY : Y < S.charsPerCol) :
    Display S font inverted doubled { g with x := X, y := Y } F { tInfo with cursorX := X, cursorY := Y } where
  fits := ⟨h.fits.scan, h.fits.cols, h.fits.rows, h.fits.inverted⟩
  cursor := ⟨rfl, rfl⟩
  inside := ⟨hX, hY⟩
  doubled := h.doubled
  ring := h.ring
  shown := h.shown

/-- Moving the cursor inside of its row. -/
theorem Display.moveX (h : Display S font inverted doubled g F tInfo) (hX : X < S.charsPerRow) :
    Display S font inverted doubled { g with x := X } F { tInfo with cursorX := X } where
  fits := ⟨h.fits.scan, h.fits.cols, h.fits.rows, h.fits.inverted⟩
  cursor := ⟨rfl, h.cursor.2⟩
  inside := ⟨hX, h.inside.2⟩
  doubled := h.doubled
  ring := h.ring
  shown := h.shown

theorem Display.scrollV (h : Display S font inverted doubled g (g.picture font) tInfo) (hb : tInfo.bBuffer = none) :
    Display S font inverted doubled (g.scroll S) (g.scrolled S font (staleRows S doubled)) (scrollV tInfo) where
  fits := ⟨h.fits.scan, h.fits.cols, h.fits.rows, h.fits.inverted⟩
  cursor := h.cursor
  inside := h.inside
  doubled := h.doubled
  ring b hsome := by
    rw [Terminal.scrollV, hb] at hsome
    cases hsome
  shown x y a l hin := by
    have hdoubled : doubled = false := by rw [← h.doubled, hb, Option.isSome_none]
    have hy := hin.y
    rw [id, textPixel_scrollV h.fits.scan h.fits.cols h.fits.rows hin, Grid.scrolled, Grid.scroll_picture,
      staleRows, hdoubled]
    have hpix := h.shown x y a l hin
    rw [id] at hpix
    by_cases hlast : y + 1 = S.charsPerCol
    · rw [if_pos hlast, if_pos (Or.inr (by simp; omega)), if_neg (by omega)]
    · have hpix' := h.shown x (y + 1) a l ⟨hin.x, by omega, hin.a, hin.l⟩
      rw [id] at hpix'
      rw [if_neg hlast, if_pos (by omega : y + 1 < S.charsPerCol), hpix, hpix']
      refine if_congr ?_ rfl rfl
      simp
      omega

theorem Display.scrollBB (h : Display S font inverted doubled g (g.picture font) tInfo)
    (hb : tInfo.bBuffer = some b) :
    Display S font inverted doubled (g.scroll S) (g.scrolled S font (staleRows S doubled)) (scrollBB b tInfo) := by
  obtain ⟨⟨hscan, hcols, hrows, hinv⟩, hcursor, hinside, hdoubled, hring, hshown⟩ := h
  obtain ⟨-, hreads⟩ := hring b hb
  have hturn := hreads.turn rfl
  have hline : (tInfo.bBufferLine + 1) % S.charsPerCol < S.charsPerCol := Nat.mod_lt _ S.charsPerCol_pos
  unfold Terminal.scrollBB
  rw [hscan, hcols, hrows]
  generalize (tInfo.bBufferLine + 1) % S.charsPerCol = line at hturn hline
  dsimp only
  generalize fill b 0 _ _ _ _ _ = c at hturn
  refine ⟨⟨rfl, rfl, rfl, hinv⟩, hcursor, hinside, ?_, ?_, ?_⟩
  · rw [← hdoubled, hb, Option.isSome_some, Option.isSome_some]
  · intro b' hsome
    obtain rfl : c = b' := Option.some.inj hsome
    exact ⟨hline, hturn⟩
  · intro x y a l hin
    have hd : doubled = true := by rw [← hdoubled, hb, Option.isSome_some]
    have hpix := hshown x y a l hin
    rw [id] at hpix
    rw [id, blt_eq_copyLines, blt_eq_copyLines, copyLines_ring hline hin, hturn x y a l hin, hpix, Grid.scrolled,
      staleRows, hd]
    refine if_congr ?_ rfl rfl
    have hy := hin.y
    simp
    omega

/-- The cursor moves on. -/
theorem Display.moveCursor {σ : TerminalInfo → TerminalInfo}
    (h : Display S font inverted doubled g (g.picture font) tInfo)
    (hscroll : ∀ tInfo', tInfo'.bBuffer = tInfo.bBuffer → ∀ g',
      Display S font inverted doubled g' (g'.picture font) tInfo' →
        Display S font inverted doubled (g'.scroll S) (g'.scrolled S font (staleRows S doubled)) (σ tInfo')) :
    Display S font inverted doubled (g.advance S) (g.advanced S font (staleRows S doubled)) (moveCursor σ tInfo) := by
  obtain ⟨hcx, hcy⟩ := h.cursor
  obtain ⟨hx, hy⟩ := h.inside
  have hwrap : tInfo.cursorX + 1 = tInfo.screenCharsPerRow ↔ g.x + 1 = S.charsPerRow := by rw [hcx, h.fits.cols]
  have hbottom : tInfo.cursorY + 1 = tInfo.screenCharsPerCol ↔ g.y + 1 = S.charsPerCol := by
    rw [hcy, h.fits.rows]
  unfold Terminal.moveCursor Grid.advance Grid.advanced
  by_cases hlastX : g.x + 1 = S.charsPerRow
  · rw [if_pos (hwrap.2 hlastX)]
    by_cases hlastY : g.y + 1 = S.charsPerCol
    · have hend : g.AtEnd S := ⟨hlastX, hlastY⟩
      have hstay : tInfo.screenCharsPerCol - 1 = g.y := by rw [h.fits.rows, ← hlastY, Nat.add_sub_cancel]
      rw [if_pos (hbottom.2 hlastY), if_pos hend, if_pos hend, hstay]
      exact hscroll { tInfo with cursorX := 0, cursorY := g.y } rfl { g with x := 0 } (h.move S.charsPerRow_pos hy)
    · have hend : ¬g.AtEnd S := fun hend => hlastY hend.2
      rw [if_neg (hbottom.not.2 hlastY), if_neg hend, if_neg hend, if_pos hlastX, hcy]
      exact h.move S.charsPerRow_pos (by omega)
  · have hend : ¬g.AtEnd S := fun hend => hlastX hend.1
    rw [if_neg (hwrap.not.2 hlastX), if_neg hend, if_neg hend, if_neg hlastX, hcx]
    exact h.moveX (by omega)

theorem Grid.write_write (g : Grid) (c : Cell) : (g.write c).write c = g.write c := by
  unfold write
  dsimp only
  congr 1
  funext x y
  by_cases hsame : x = g.x ∧ y = g.y
  · rw [if_pos hsame, if_pos hsame]
  · rw [if_neg hsame]

theorem Picture.over_over {f : Nat → Nat → UInt32} : Picture.over (F.over X Y f) X Y f = F.over X Y f := by
  funext x y a l
  unfold Picture.over
  by_cases hsame : x = X ∧ y = Y
  · rw [if_pos hsame, if_pos hsame]
  · rw [if_neg hsame]

/-- **The cursor moves on and is drawn**, without double buffering twice. -/
theorem Display.advanceCursor (h : Display S font inverted doubled g (g.picture font) tInfo) :
    Display S font inverted doubled ((g.advance S).write .cursor)
      ((g.advanced S font (staleRows S doubled)).over (g.advance S).x (g.advance S).y (Cell.cursor.pixel font))
      (Terminal.renderChar font (advanceCursor font tInfo) 0x5F (advanceCursor font tInfo).cursorX
        (advanceCursor font tInfo).cursorY 0xFFFFFFFF) := by
  unfold Terminal.advanceCursor
  cases hb : tInfo.bBuffer with
  | none =>
    have hmove := h.moveCursor fun tInfo' hb' g' h' => h'.scrollV (hb'.trans hb)
    have htwice := (hmove.renderChar .cursor).renderChar .cursor
    rw [Grid.write_write] at htwice
    have hover := Picture.over_over (F := g.advanced S font (staleRows S doubled)) (X := (g.advance S).x)
      (Y := (g.advance S).y) (f := Cell.cursor.pixel font)
    rw [← hover]
    exact htwice
  | some b =>
    have hmove := h.moveCursor fun tInfo' hb' g' h' => h'.scrollBB (hb'.trans hb)
    exact hmove.renderChar .cursor

/-! ## What is shown -/

theorem Display.shows_iff (h : Display S font inverted doubled g F tInfo) :
    Shows S font g tInfo ↔ ∀ x y a l, InText S x y a l → F x y a l = g.picture font x y a l :=
  h.shown.iff

theorem Grid.advance_of_atEnd (h : g.AtEnd S) : g.advance S = ⟨(g.scroll S).cells, 0, g.y⟩ := if_pos h

theorem Grid.advance_picture (h : ¬g.AtEnd S) : (g.advance S).picture font = g.picture font := by
  unfold advance
  rw [if_neg h]
  by_cases hx : g.x + 1 = S.charsPerRow
  · rw [if_pos hx]
    rfl
  · rw [if_neg hx]
    rfl

/-- **What is shown when the cursor was moved on and drawn** is the grid, exactly if scrolling would not change
what `Blt` left. -/
theorem Grid.advanced_over_iff (g : Grid) :
    (∀ x y a l, InText S x y a l →
      (g.advanced S font k).over (g.advance S).x (g.advance S).y (Cell.cursor.pixel font) x y a l =
        ((g.advance S).write .cursor).picture font x y a l) ↔
    (g.AtEnd S → Still S font k g) := by
  rw [write_picture]
  unfold Picture.over advanced
  by_cases hend : g.AtEnd S
  · have hcursor : ∀ x y, x = 0 ∧ y = g.y ↔ x = 0 ∧ y + 1 = S.charsPerCol := by
      have := hend.2
      omega
    have hpicture : (⟨(g.scroll S).cells, 0, g.y⟩ : Grid).picture font = (g.scroll S).picture font := rfl
    rw [if_pos hend, advance_of_atEnd hend, hpicture]
    unfold scrolled
    constructor
    · intro h _ x y a l hin hcop hk hother
      have hpix := h x y a l hin
      have hplace := (hcursor x y).not.2 hother
      rw [if_neg hplace, if_neg hplace, if_neg (not_or.2 ⟨hcop, by omega⟩)] at hpix
      exact hpix.symm
    · intro h x y a l hin
      by_cases hplace : x = 0 ∧ y = g.y
      · rw [if_pos hplace, if_pos hplace]
      · rw [if_neg hplace, if_neg hplace]
        refine ite_eq_left_iff.2 fun hleft => ?_
        obtain ⟨hcop, hk⟩ := not_or.1 hleft
        exact (h hend x y a l hin hcop (by omega) ((hcursor x y).not.1 hplace)).symm
  · rw [if_neg hend, advance_picture hend]
    exact iff_of_true (fun _ _ _ _ _ => rfl) fun h => absurd h hend

/-! ## Steps and runs -/

theorem Display.putChar (h : Display S font inverted doubled g (g.picture font) tInfo) {ch : UInt8} {color : UInt32}
    {g' : Grid} (hg : g' = g.write ⟨ch, if inverted then invert color else color⟩) :
    Display S font inverted doubled ((g'.advance S).write .cursor)
      ((g'.advanced S font (staleRows S doubled)).over (g'.advance S).x (g'.advance S).y (Cell.cursor.pixel font))
      (putChar font tInfo ch color) := by
  have hwrite := h.write ⟨ch, if inverted then invert color else color⟩
  rw [← hg] at hwrite
  unfold Terminal.putChar
  rw [h.fits.inverted]
  exact hwrite.advanceCursor

theorem Display.newLine (h : Display S font inverted doubled g (g.picture font) tInfo) {g' : Grid}
    (hg : g' = { g.write .blank with x := S.charsPerRow - 1 }) :
    Display S font inverted doubled ((g'.advance S).write .cursor)
      ((g'.advanced S font (staleRows S doubled)).over (g'.advance S).x (g'.advance S).y (Cell.cursor.pixel font))
      (newLine font tInfo) := by
  have herase := h.erase
  unfold Terminal.newLine
  generalize Terminal.renderChar font tInfo 0x20 tInfo.cursorX tInfo.cursorY 0 = tInfo' at herase ⊢
  have hlast : tInfo'.screenCharsPerRow - 1 = S.charsPerRow - 1 := by rw [herase.fits.cols]
  have hmove := herase.moveX (Nat.sub_lt S.charsPerRow_pos Nat.one_pos)
  rw [hg]
  dsimp only
  rw [hlast]
  exact hmove.advanceCursor

theorem Display.setCursor (h : Display S font inverted doubled g (g.picture font) tInfo) (hX : X < S.charsPerRow)
    (hY : Y < S.charsPerCol) {g' : Grid} (hg : g' = Grid.write { g.write .blank with x := X, y := Y } .cursor) :
    Display S font inverted doubled g' (g'.picture font) (setCursor font tInfo X Y) := by
  rw [hg]
  exact (h.erase.move hX hY).write .cursor

theorem Display.removeChar (h : Display S font inverted doubled g (g.picture font) tInfo) :
    Display S font inverted doubled (g.step inverted (Op.removeChar : Op S))
      ((g.step inverted (Op.removeChar : Op S)).picture font) (removeChar font tInfo) := by
  have herase := h.erase
  unfold Terminal.removeChar Grid.step Grid.back
  generalize Terminal.renderChar font tInfo 0x20 tInfo.cursorX tInfo.cursorY 0 = tInfo' at herase ⊢
  obtain ⟨hcx, hcy⟩ := herase.cursor
  obtain ⟨hx, hy⟩ := herase.inside
  have hlast : tInfo'.screenCharsPerRow - 1 = S.charsPerRow - 1 := by rw [herase.fits.cols]
  dsimp only
  change tInfo'.cursorX = g.x at hcx
  change tInfo'.cursorY = g.y at hcy
  change g.x < S.charsPerRow at hx
  change g.y < S.charsPerCol at hy
  by_cases hfirst : g.x = 0
  · have hfirst' : (g.write .blank).x = 0 := hfirst
    rw [if_pos (hcx.trans hfirst)]
    by_cases htop : g.y = 0
    · have hstay : ¬0 < tInfo'.cursorY := by omega
      rw [if_neg hstay, if_pos ⟨hfirst, htop⟩]
      exact herase
    · have hup : 0 < tInfo'.cursorY := by omega
      have horigin : ¬(g.x = 0 ∧ g.y = 0) := fun hboth => htop hboth.2
      have hmove := herase.move (X := S.charsPerRow - 1) (Y := g.y - 1) (by omega) (by omega)
      rw [if_pos hup, if_neg horigin, if_pos hfirst', hlast, hcy]
      exact hmove.write .cursor
  · have hfirst' : ¬(g.write .blank).x = 0 := hfirst
    have horigin : ¬(g.x = 0 ∧ g.y = 0) := fun hboth => hfirst hboth.1
    have hmove := herase.moveX (X := g.x - 1) (by omega)
    rw [hcx, if_neg hfirst, if_neg horigin, if_neg hfirst']
    exact hmove.write .cursor

/-! ## Steps and runs -/

/-- An operation that moves the cursor on. -/
theorem Display.step_typed (h : Display S font inverted doubled g (g.picture font) tInfo) {op : Op S} {g' : Grid}
    (hg : g.typed inverted op = some g') :
    Display S font inverted doubled (g.step inverted op)
      ((g'.advanced S font (staleRows S doubled)).over (g'.advance S).x (g'.advance S).y (Cell.cursor.pixel font))
      (tInfo.step font op) ∧ g.step inverted op = (g'.advance S).write .cursor := by
  cases op with
  | putChar c color =>
    cases hg
    exact ⟨h.putChar rfl, rfl⟩
  | newLine =>
    cases hg
    exact ⟨h.newLine rfl, rfl⟩
  | removeChar => cases hg
  | setCursor x y => cases hg

/-- The others never scroll. -/
theorem Display.step_untyped (h : Display S font inverted doubled g (g.picture font) tInfo) {op : Op S}
    (hg : g.typed inverted op = none) :
    Display S font inverted doubled (g.step inverted op) ((g.step inverted op).picture font) (tInfo.step font op) := by
  cases op with
  | putChar c color => cases hg
  | newLine => cases hg
  | removeChar => exact h.removeChar
  | setCursor x y => exact h.setCursor x.isLt y.isLt rfl

/-- **One operation**: the terminal works on the grid, and shows it exactly if the operation is undisturbed. -/
theorem Display.step (h : Display S font inverted doubled g (g.picture font) tInfo) (op : Op S) :
    (∃ F, Display S font inverted doubled (g.step inverted op) F (tInfo.step font op)) ∧
      (Shows S font (g.step inverted op) (tInfo.step font op) ↔
        Undisturbed S font inverted (staleRows S doubled) g op) := by
  unfold Undisturbed
  cases hg : g.typed inverted op with
  | none =>
    have hstep := h.step_untyped hg
    exact ⟨⟨_, hstep⟩, iff_of_true hstep.shown fun g' hsome => by cases hsome⟩
  | some g' =>
    obtain ⟨hstep, heq⟩ := h.step_typed hg
    refine ⟨⟨_, hstep⟩, hstep.shows_iff.trans ?_⟩
    rw [heq, Grid.advanced_over_iff]
    exact ⟨fun hstill g'' hsome => Option.some.inj hsome ▸ hstill, fun hall => hall g' rfl⟩

theorem Display.step_shows (h : Display S font inverted doubled g (g.picture font) tInfo) {op : Op S}
    (hshows : Shows S font (g.step inverted op) (tInfo.step font op)) :
    Display S font inverted doubled (g.step inverted op) ((g.step inverted op).picture font) (tInfo.step font op) := by
  obtain ⟨F, hstep⟩ := (h.step op).1
  exact { hstep with shown := hshows }

end

/-! ## The start -/

section

variable {inverted : Bool} {tInfo : TerminalInfo} {videoBuffer pages : Pixels}

/-- The text area is empty. -/
theorem display_plain :
    Display S font inverted false .empty (Grid.empty.picture font) (plain S tInfo videoBuffer inverted) where
  fits := ⟨rfl, rfl, rfl, rfl⟩
  cursor := ⟨rfl, rfl⟩
  inside := ⟨S.charsPerRow_pos, S.charsPerCol_pos⟩
  doubled := rfl
  ring b hsome := by cases hsome
  shown x y a l hin := by
    obtain ⟨hx, hy, ha, hl⟩ := hin
    have htext := S.text_le
    have hblank : Grid.empty.picture font x y a l = 0 := Cell.pixel_blank font a l
    have hvideo : (plain S tInfo videoBuffer inverted).vBuffer =
        fill videoBuffer 0 margin margin (S.charsPerRow * charWidth) (S.charsPerCol * charHeight) S.scanline := rfl
    rw [id, hblank, textPixel, hvideo, fill]
    simp only [charWidth, charHeight, margin] at *
    rw [draw_of_mem (by omega) (by omega) (by omega) (by omega)]

/-- The text area lies in the part of the buffer that is copied. -/
theorem InText.offset_lt (h : InText S x y a l) :
    offset S.scanline (x * charWidth + margin + a) (y * charHeight + margin + l) < S.scanline * S.height := by
  have hcol := h.lt_scanline
  have hrows := S.rows_le
  have hy : (y + 1) * charHeight ≤ S.charsPerCol * charHeight := Nat.mul_le_mul_right _ h.y
  have hl := h.l
  rw [Nat.succ_mul] at hy
  have hline : (y * charHeight + margin + l + 1) * S.scanline ≤ S.height * S.scanline :=
    Nat.mul_le_mul_right _ (by omega)
  rw [Nat.succ_mul, Nat.mul_comm S.height] at hline
  unfold offset
  omega

/-- The ring begins with the first row. -/
theorem display_buffered :
    Display S font inverted true .empty (Grid.empty.picture font)
      (buffered S tInfo videoBuffer inverted pages) := by
  have hplain : Display S font inverted false .empty (Grid.empty.picture font)
      (plain S tInfo videoBuffer inverted) := display_plain
  refine ⟨⟨rfl, rfl, rfl, rfl⟩, ⟨rfl, rfl⟩, hplain.inside, rfl, ?_, hplain.shown⟩
  intro b hsome
  obtain rfl : _ = b := Option.some.inj hsome
  refine ⟨S.charsPerCol_pos, fun x y a l hin => ?_⟩
  have hrow : ringRow S 0 y = y := by rw [ringRow, Nat.zero_add, Nat.mod_eq_of_lt hin.y]
  have hcopied : ∀ i, i < S.scanline * S.height →
      Buffer.paste pages 0 (S.scanline * S.height) (plain S tInfo videoBuffer inverted).vBuffer i =
        (plain S tInfo videoBuffer inverted).vBuffer i := by
    intro i hi
    rw [Buffer.paste, if_pos (by omega), Nat.sub_zero]
  change textPixel S _ x (ringRow S 0 y) a l = _
  rw [hrow, ← hplain.shown x y a l hin]
  exact hcopied _ hin.offset_lt

end

/-! ## Runs -/

theorem staleRows_le (doubled : Bool) : staleRows S doubled ≤ S.charsPerCol := by
  unfold staleRows
  cases doubled <;> simp

theorem Still.mono {k' : Nat} (h : Still S font k g) (hle : k' ≤ k) : Still S font k' g :=
  fun x y a l hin hcop hk => h x y a l hin hcop (by omega)

theorem Undisturbed.mono {inverted : Bool} {op : Op S} {k' : Nat} (h : Undisturbed S font inverted k g op)
    (hle : k' ≤ k) : Undisturbed S font inverted k' g op :=
  fun g' hg hend => (h g' hg hend).mono hle

theorem TerminalInfo.run_snoc (tInfo : TerminalInfo) (ops : List (Op S)) (op : Op S) :
    tInfo.run font (ops ++ [op]) = (tInfo.run font ops).step font op := by
  simp [run]

theorem Grid.run_snoc {inverted : Bool} (g : Grid) (ops : List (Op S)) (op : Op S) :
    g.run inverted (ops ++ [op]) = (g.run inverted ops).step inverted op := by
  simp [run]

theorem sameText_iff {tInfo tInfo' : TerminalInfo} (h : Shows S font g tInfo) :
    SameText S tInfo tInfo' ↔ Shows S font g tInfo' := by
  unfold SameText Shows
  constructor
  · intro hsame x y a l hin
    rw [hsame x y a l hin]
    exact h x y a l hin
  · intro hshows x y a l hin
    rw [hshows x y a l hin]
    exact (h x y a l hin).symm

/-- One terminal shows the grid after each operation exactly if each operation is undisturbed. -/
theorem Display.shows_run_iff {inverted doubled : Bool} {tInfo : TerminalInfo}
    (h : Display S font inverted doubled g (g.picture font) tInfo) (ops : List (Op S)) :
    (∀ done, done <+: ops → Shows S font (g.run inverted done) (tInfo.run font done)) ↔
      ∀ done op, done ++ [op] <+: ops →
        Undisturbed S font inverted (staleRows S doubled) (g.run inverted done) op := by
  let follows (done : List (Op S)) : Prop :=
    Display S font inverted doubled (g.run inverted done) ((g.run inverted done).picture font) (tInfo.run font done)
  have hstart : follows [] := h
  refine Transitions.forall_prefix_iff hstart (fun done hdone => hdone.shown) ?_ ?_ ops
  · intro done op hdone
    rw [TerminalInfo.run_snoc, Grid.run_snoc]
    exact (hdone.step op).2
  · intro done op hdone hop
    have hshows := (hdone.step op).2.2 hop
    have hstep := hdone.step_shows hshows
    rw [← TerminalInfo.run_snoc, ← Grid.run_snoc] at hstep
    exact hstep

/-- **Double buffering and scrolling in place show the same**, the grid, after each operation, exactly if every
operation that scrolls finds the last columns of the text area such that scrolling does not change them. -/
theorem shown_iff (S : Geometry) (font : Font) (inverted : Bool) (tInfo : TerminalInfo) (videoBuffer pages : Pixels)
    (ops : List (Op S)) :
    (∀ done, done <+: ops →
      SameText S ((plain S tInfo videoBuffer inverted).run font done)
        ((buffered S tInfo videoBuffer inverted pages).run font done) ∧
      Shows S font (Grid.empty.run inverted done) ((plain S tInfo videoBuffer inverted).run font done)) ↔
    ∀ done op, done ++ [op] <+: ops →
      Undisturbed S font inverted S.charsPerCol (Grid.empty.run inverted done) op := by
  have hplain : Display S font inverted false .empty (Grid.empty.picture font)
      (plain S tInfo videoBuffer inverted) := display_plain
  have hbuffered : Display S font inverted true .empty (Grid.empty.picture font)
      (buffered S tInfo videoBuffer inverted pages) := display_buffered
  have hplain_iff := hplain.shows_run_iff ops
  have hbuffered_iff := hbuffered.shows_run_iff ops
  constructor
  · intro hall
    exact hbuffered_iff.1 fun done hpre => (sameText_iff (hall done hpre).2).1 (hall done hpre).1
  · intro hops done hpre
    have hshows := hplain_iff.2 (fun done op hpre' => (hops done op hpre').mono (staleRows_le false)) done hpre
    exact ⟨(sameText_iff hshows).2 (hbuffered_iff.2 hops done hpre), hshows⟩

/-- Text that keeps clear of the last four columns is scrolled as it should be. -/
theorem Still.of_blank (h : ∀ x y, S.charsPerRow ≤ x + 4 → g.cells x y = .blank) : Still S font k g := by
  intro x y a l hin hcop _ _
  have hlast : S.charsPerRow ≤ x + 4 := by
    have ha := hin.a
    simp only [Copied, charWidth, margin] at hcop ha
    omega
  rw [Grid.scroll_picture]
  unfold Grid.picture
  rw [h x y hlast, h x (y + 1) hlast, Cell.pixel_blank, ite_self]

/-! ## The defect on a small screen -/

/-- The glyphs of `A`, `B` and `_`. -/
def glyphs : Font := fun c y =>
  if c = 0x41 then [0, 0, 60, 66, 66, 66, 66, 126, 66, 66, 66, 66].getD y 0
  else if c = 0x42 then [0, 0, 124, 66, 66, 66, 124, 66, 66, 66, 66, 124].getD y 0
  else if c = 0x5F then [0, 0, 0, 0, 0, 0, 0, 0, 0, 0, 0, 0, 0, 126].getD y 0
  else 0

/-- Two columns and two rows. -/
def smallScreen : Geometry := ⟨66, 82, 66, by decide, by decide, by decide⟩

/-- A terminal that was not initialized. -/
def blankInfo : TerminalInfo := ⟨fun _ => 0, 0, 0, 0, false, 0, 0, 0, 0, none, 0⟩

/-- `AABB`, which fills the rows. -/
def fourLetters : List (Op smallScreen) :=
  [.putChar 0x41 0xFFFFFF, .putChar 0x41 0xFFFFFF, .putChar 0x42 0xFFFFFF, .putChar 0x42 0xFFFFFF]

/-- The last letter scrolls `BB` up and leaves `AA` on the screen; with double buffering the last letter, too,
stays where it was. -/
theorem scroll_leaves_columns :
    ¬SameText smallScreen ((plain smallScreen blankInfo (fun _ => 0) false).run glyphs fourLetters)
      ((buffered smallScreen blankInfo (fun _ => 0) false fun _ => 0).run glyphs fourLetters) ∧
    ¬Shows smallScreen glyphs (Grid.empty.run false fourLetters)
      ((plain smallScreen blankInfo (fun _ => 0) false).run glyphs fourLetters) := by
  constructor
  · intro hsame
    have hpix := hsame 1 1 1 2 ⟨by decide, by decide, by decide, by decide⟩
    revert hpix
    decide +kernel
  · intro hshows
    have hpix := hshows 0 0 1 2 ⟨by decide, by decide, by decide, by decide⟩
    revert hpix
    decide +kernel

end ChenixOS.Terminal
