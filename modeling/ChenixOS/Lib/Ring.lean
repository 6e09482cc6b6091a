import Mathlib.Data.List.Basic
import Mathlib.Logic.Function.Basic

/-!
# Circular buffers

A circular buffer is a function on addresses of which the addresses below `cap` are used. The
`window` of length `len` at `start` lists the cells met when walking `len` steps from `start`
and wrapping at `cap`. A queue kept in such a buffer is a window; taking from its front and
appending at its end split and join windows.
-/

namespace ChenixOS.Ring

variable {α : Type} {cap : Nat}

/-- The `len` cells from `start` on, wrapping around at `cap`. -/
def window (cap : Nat) (buf : Nat → α) (start len : Nat) : List α :=
  (List.range len).map fun i => buf ((start + i) % cap)

/-- `buf` with the `n` cells from `pos` on replaced by `src`. -/
def overlay (buf : Nat → α) (pos n : Nat) (src : Nat → α) : Nat → α :=
  fun j => if pos ≤ j ∧ j < pos + n then src (j - pos) else buf j

@[simp] theorem length_window (buf : Nat → α) (start len : Nat) :
    (window cap buf start len).length = len := by
  simp [window]

theorem window_congr {buf buf' : Nat → α} {start len : Nat}
    (h : ∀ i, i < len → buf ((start + i) % cap) = buf' ((start + i) % cap)) :
    window cap buf start len = window cap buf' start len :=
  List.map_congr_left fun i hi => h i (List.mem_range.1 hi)

/-- A walk may be started at any address that wraps to the same cell. -/
theorem window_mod (buf : Nat → α) (start len : Nat) :
    window cap buf (start % cap) len = window cap buf start len :=
  List.map_congr_left fun i _ => by rw [Nat.mod_add_mod]

@[simp] theorem window_one (buf : Nat → α) (start : Nat) :
    window cap buf start 1 = [buf (start % cap)] := by
  simp [window]

/-- Walking `k + len` steps is walking `k` steps, then `len` from where that led. -/
theorem window_add (buf : Nat → α) (start k len : Nat) :
    window cap buf start (k + len) =
      window cap buf start k ++ window cap buf ((start + k) % cap) len := by
  unfold window
  rw [List.range_add, List.map_append, List.map_map]
  congr 1
  refine List.map_congr_left fun i _ => ?_
  rw [Function.comp_apply, Nat.mod_add_mod, Nat.add_assoc]

theorem take_window (buf : Nat → α) (start : Nat) {k len : Nat} (h : k ≤ len) :
    (window cap buf start len).take k = window cap buf start k := by
  obtain ⟨r, rfl⟩ := Nat.exists_eq_add_of_le h
  rw [window_add, List.take_left' (length_window buf start k)]

theorem drop_window (buf : Nat → α) (start : Nat) {k len : Nat} (h : k ≤ len) :
    (window cap buf start len).drop k = window cap buf ((start + k) % cap) (len - k) := by
  obtain ⟨r, rfl⟩ := Nat.exists_eq_add_of_le h
  rw [window_add, List.drop_left' (length_window buf start k), Nat.add_sub_cancel_left]

/-- A window whose cells are given by `src`, step by step. -/
theorem window_eq_map {buf : Nat → α} {start len : Nat} {src : Nat → α}
    (h : ∀ i, i < len → buf ((start + i) % cap) = src i) :
    window cap buf start len = (List.range len).map src :=
  List.map_congr_left fun i hi => h i (List.mem_range.1 hi)

theorem overlay_of_mem {buf : Nat → α} {pos n : Nat} {src : Nat → α} {j : Nat}
    (h₁ : pos ≤ j) (h₂ : j < pos + n) : overlay buf pos n src j = src (j - pos) :=
  if_pos ⟨h₁, h₂⟩

theorem overlay_of_not_mem {buf : Nat → α} {pos n : Nat} {src : Nat → α} {j : Nat}
    (h : j < pos ∨ pos + n ≤ j) : overlay buf pos n src j = buf j :=
  if_neg (by omega)

@[simp] theorem overlay_zero (buf : Nat → α) (pos : Nat) (src : Nat → α) :
    overlay buf pos 0 src = buf := by
  funext j
  exact overlay_of_not_mem (by omega)

/-- One step of a walk that started below `cap` and went around at most once. -/
theorem add_mod_of_lt {start i : Nat} (h : start + i < cap) : (start + i) % cap = start + i :=
  Nat.mod_eq_of_lt h

theorem add_mod_of_ge {start i : Nat} (h₁ : cap ≤ start + i) (h₂ : start + i < cap + cap) :
    (start + i) % cap = start + i - cap := by
  rw [Nat.mod_eq_sub_mod h₁, Nat.mod_eq_of_lt (by omega)]

/-- The cells met in one turn are different. -/
theorem add_mod_inj {start i j : Nat} (hs : start < cap) (hi : i < cap) (hj : j < cap)
    (h : (start + i) % cap = (start + j) % cap) : i = j := by
  rcases Nat.lt_or_ge (start + i) cap with hlt | hge
  · rw [add_mod_of_lt hlt] at h
    rcases Nat.lt_or_ge (start + j) cap with hlt' | hge'
    · rw [add_mod_of_lt hlt'] at h
      omega
    · rw [add_mod_of_ge hge' (by omega)] at h
      omega
  · rw [add_mod_of_ge hge (by omega)] at h
    rcases Nat.lt_or_ge (start + j) cap with hlt' | hge'
    · rw [add_mod_of_lt hlt'] at h
      omega
    · rw [add_mod_of_ge hge' (by omega)] at h
      omega

/-- A walk of at least one step begins at its first cell. -/
theorem window_succ (buf : Nat → α) (start len : Nat) :
    window cap buf start (len + 1) = buf (start % cap) :: window cap buf (start + 1) len := by
  rw [Nat.add_comm len 1, window_add, window_one, List.singleton_append, window_mod]

/-- A write to the cell behind a window that is shorter than the buffer. -/
theorem window_update (buf : Nat → α) (start : Nat) {len : Nat} (a : α) (h : len < cap) :
    window cap (Function.update buf ((start + len) % cap) a) start (len + 1) =
      window cap buf start len ++ [a] := by
  rw [window_add, window_one, Nat.mod_mod, Function.update_self]
  congr 1
  apply window_congr
  intro i hi
  apply Function.update_of_ne
  rw [← Nat.mod_add_mod, ← Nat.mod_add_mod start]
  intro heq
  have hpos : 0 < cap := Nat.zero_lt_of_lt h
  exact absurd (add_mod_inj (Nat.mod_lt _ hpos) (Nat.lt_trans hi h) h heq) (Nat.ne_of_lt hi)

end ChenixOS.Ring
