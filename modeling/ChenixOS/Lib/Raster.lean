import ChenixOS.Lib.Buffer

/-!
# Rectangles in a frame buffer

A frame buffer holds the pixels of a screen line after line, `scan` pixels for each line. Drawing a rectangle
writes its pixels one by one; copying one copies a part of each line. Both are loops over lines, and both write
to a line only what the rectangle has there: a pixel of the result is found in the round of its line.
-/

namespace ChenixOS.Raster

variable {α : Type} {scan x y w h p q : Nat} {b : Nat → α}

/-- Where the pixel in column `x` of line `y` lies. -/
def offset (scan x y : Nat) : Nat := x + y * scan

/-- A part of a line holds the pixels of this line in its columns, and no others. -/
theorem offset_mem_iff (hx : p < scan) (hw : x + w ≤ scan) :
    (offset scan x y ≤ offset scan p q ∧ offset scan p q < offset scan x y + w) ↔
      q = y ∧ x ≤ p ∧ p < x + w := by
  unfold offset
  rcases Nat.lt_trichotomy q y with hlt | rfl | hgt
  · have hline : (q + 1) * scan ≤ y * scan := Nat.mul_le_mul_right scan hlt
    rw [Nat.succ_mul] at hline
    omega
  · omega
  · have hline : (y + 1) * scan ≤ q * scan := Nat.mul_le_mul_right scan hgt
    rw [Nat.succ_mul] at hline
    omega

/-! ## Loops over lines -/

/-- The first `h` rounds of a loop that writes `w` pixels of each line from line `y` on, in the columns from `x`
on. What a round writes may depend on the buffer it finds. -/
def lines (scan x y w : Nat) (f : Nat → (Nat → α) → Nat → α) (h : Nat) (b : Nat → α) : Nat → α :=
  (List.range h).foldl (fun b k => Buffer.paste b (offset scan x (y + k)) w (f k b)) b

theorem lines_succ {f : Nat → (Nat → α) → Nat → α} :
    lines scan x y w f (h + 1) b =
      Buffer.paste (lines scan x y w f h b) (offset scan x (y + h)) w (f h (lines scan x y w f h b)) := by
  simp [lines, List.range_succ]

theorem lines_of_not_mem {f : Nat → (Nat → α) → Nat → α} (hx : p < scan) (hw : x + w ≤ scan)
    (hout : ¬((x ≤ p ∧ p < x + w) ∧ y ≤ q ∧ q < y + h)) :
    lines scan x y w f h b (offset scan p q) = b (offset scan p q) := by
  induction h with
  | zero => rfl
  | succ h ih =>
    have hline := (offset_mem_iff (y := y + h) (q := q) hx hw).not.2 (by omega)
    rw [lines_succ, Buffer.paste, if_neg hline, ih (by omega)]

/-- **A pixel of the rectangle is what the round of its line wrote.** -/
theorem lines_of_mem {f : Nat → (Nat → α) → Nat → α} (hx : p < scan) (hw : x + w ≤ scan)
    (hcol : x ≤ p ∧ p < x + w) (hrow : y ≤ q ∧ q < y + h) :
    lines scan x y w f h b (offset scan p q) =
      f (q - y) (lines scan x y w f (q - y) b) (p - x) := by
  induction h with
  | zero => omega
  | succ h ih =>
    rw [lines_succ, Buffer.paste]
    by_cases hlast : q = y + h
    · subst hlast
      have hline := (offset_mem_iff (y := y + h) hx hw).2 ⟨rfl, hcol⟩
      have hpos : offset scan p (y + h) - offset scan x (y + h) = p - x := by
        unfold offset
        omega
      rw [if_pos hline, hpos, Nat.add_sub_cancel_left]
    · have hline := (offset_mem_iff (y := y + h) (q := q) hx hw).not.2 fun hmem => hlast hmem.1
      rw [if_neg hline, ih (by omega)]

/-! ## Drawing -/

/-- Write the pixels `f` of a rectangle of `w` columns and `h` lines. -/
def draw (b : Nat → α) (x y w h scan : Nat) (f : Nat → Nat → α) : Nat → α :=
  (List.range h).foldl (fun b yy =>
    (List.range w).foldl (fun b xx => Function.update b (offset scan (x + xx) (y + yy)) (f xx yy)) b) b

theorem foldl_update_eq_paste {pos : Nat} {f : Nat → α} :
    (List.range w).foldl (fun b i => Function.update b (pos + i) (f i)) b = Buffer.paste b pos w f := by
  induction w with
  | zero => simp
  | succ w ih =>
    rw [List.range_succ, List.foldl_append, ih]
    funext i
    by_cases hi : i = pos + w
    · subst hi
      simp [Buffer.paste_of_mem]
    · rw [List.foldl_cons, List.foldl_nil, Function.update_of_ne hi]
      unfold Buffer.paste
      exact if_congr (by omega) rfl rfl

theorem draw_eq_lines {f : Nat → Nat → α} :
    draw b x y w h scan f = lines scan x y w (fun yy _ xx => f xx yy) h b := by
  unfold draw lines
  congr 1
  funext b yy
  rw [← foldl_update_eq_paste]
  congr 1
  funext b xx
  rw [offset, offset, Nat.add_right_comm]

theorem draw_of_mem {f : Nat → Nat → α} (hx : p < scan) (hw : x + w ≤ scan) (hcol : x ≤ p ∧ p < x + w)
    (hrow : y ≤ q ∧ q < y + h) : draw b x y w h scan f (offset scan p q) = f (p - x) (q - y) := by
  rw [draw_eq_lines, lines_of_mem hx hw hcol hrow]

theorem draw_of_not_mem {f : Nat → Nat → α} (hx : p < scan) (hw : x + w ≤ scan)
    (hout : ¬((x ≤ p ∧ p < x + w) ∧ y ≤ q ∧ q < y + h)) :
    draw b x y w h scan f (offset scan p q) = b (offset scan p q) := by
  rw [draw_eq_lines, lines_of_not_mem hx hw hout]

/-! ## Copying -/

/-- Copy the first `w` pixels of `h` lines, from the lines of `src` at `srcY` on to those at `dstY` on. The source
is a function of the destination, so that it may be the destination itself. -/
def copyLines (b : Nat → α) (src : (Nat → α) → Nat → α) (srcY dstY w h scan : Nat) : Nat → α :=
  lines scan 0 dstY w (fun k b i => src b (offset scan i (srcY + k))) h b

variable {src : (Nat → α) → Nat → α} {srcY dstY : Nat}

theorem copyLines_of_not_mem (hx : p < scan) (hw : w ≤ scan)
    (hout : ¬(p < w ∧ dstY ≤ q ∧ q < dstY + h)) :
    copyLines b src srcY dstY w h scan (offset scan p q) = b (offset scan p q) :=
  lines_of_not_mem hx (by omega) (by omega)

/-- Copying from another buffer. -/
theorem copyLines_of_mem {c : Nat → α} (hx : p < w) (hw : w ≤ scan) (hrow : dstY ≤ q ∧ q < dstY + h) :
    copyLines b (fun _ => c) srcY dstY w h scan (offset scan p q) = c (offset scan p (srcY + (q - dstY))) :=
  lines_of_mem (by omega) (by omega) (by omega) hrow

/-- **Copying lines upwards inside of a buffer** moves them even where source and destination overlap. -/
theorem copyLines_self_of_mem (hx : p < w) (hw : w ≤ scan) (hle : dstY ≤ srcY)
    (hrow : dstY ≤ q ∧ q < dstY + h) :
    copyLines b (fun b => b) srcY dstY w h scan (offset scan p q) =
      b (offset scan p (srcY + (q - dstY))) := by
  have hround := lines_of_mem (f := fun k b i => b (offset scan i (srcY + k))) (b := b) (x := 0) (w := w)
    (by omega : p < scan) (by omega) (by omega) hrow
  rw [copyLines, hround]
  exact lines_of_not_mem (by omega) (by omega) (by omega)

end ChenixOS.Raster
