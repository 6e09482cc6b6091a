import ChenixOS.Lib.Ring
import Mathlib.Algebra.Group.Nat.Defs
import Mathlib.Logic.Function.Basic

/-!
# Queues with running counters

A circular buffer of `cap` cells whose ends are two 64-bit counters that are only ever increased: the
next cell to write is `write % cap`, the next one to read `read % cap`, and `write - read` cells are
unread. A write to a full queue is dropped.

**The counters may wrap around** as long as `cap` divides 2⁶⁴: the unread cells are then the same list
as those of a queue that is not bounded by its counters (`content_put`, `content_get`).
-/

namespace ChenixOS.Counted

variable {α : Type} {cap : UInt64}

/-- A queue with at most `cap` unread cells. -/
structure Queue (α : Type) (cap : UInt64) where
  cells : Nat → α
  read : UInt64
  write : UInt64
  le : write - read ≤ cap

/-- The unread cells, the oldest first. -/
def Queue.content (q : Queue α cap) : List α :=
  Ring.window cap.toNat q.cells q.read.toNat (q.write - q.read).toNat

@[simp] theorem length_content (q : Queue α cap) : q.content.length = (q.write - q.read).toNat :=
  Ring.length_window q.cells q.read.toNat _

theorem length_content_le (q : Queue α cap) : q.content.length ≤ cap.toNat := by
  rw [length_content]
  exact UInt64.le_iff_toNat_le.1 q.le

/-- The empty queue. -/
def Queue.empty [Inhabited α] : Queue α cap :=
  { cells := fun _ => default, read := 0, write := 0, le := UInt64.zero_le }

@[simp] theorem content_empty [Inhabited α] : (Queue.empty : Queue α cap).content = [] := by
  simp [Queue.content, Queue.empty, Ring.window]

theorem toNat_succ_sub {r w : UInt64} (h : w - r < cap) :
    (w + 1 - r).toNat = (w - r).toNat + 1 := by
  have hlt : (w - r).toNat < cap.toNat := UInt64.lt_iff_toNat_lt.1 h
  have hcap : cap.toNat < 2 ^ 64 := cap.toNat_lt
  have heq : w + 1 - r = w - r + 1 := by grind
  rw [heq, UInt64.toNat_add]
  exact Nat.mod_eq_of_lt (by simp; omega)

theorem toNat_sub_add {r w n : UInt64} (h : n ≤ w - r) :
    (w - (r + n)).toNat = (w - r).toNat - n.toNat := by
  have heq : w - (r + n) = w - r - n := by grind
  rw [heq, UInt64.toNat_sub_of_le _ _ h]

/-- Append a cell, unless the queue is full. -/
def Queue.put (q : Queue α cap) (a : α) : Queue α cap :=
  if h : q.write - q.read < cap then
    { cells := Function.update q.cells (q.write % cap).toNat a
      read := q.read
      write := q.write + 1
      le := by
        rw [UInt64.le_iff_toNat_le, toNat_succ_sub h]
        exact UInt64.lt_iff_toNat_lt.1 h }
  else q

/-- The number of cells a request for `n` cells is given. -/
def Queue.given (q : Queue α cap) (n : UInt64) : UInt64 :=
  if q.write - q.read > n then n else q.write - q.read

theorem given_le (q : Queue α cap) (n : UInt64) : q.given n ≤ q.write - q.read := by
  unfold Queue.given
  split_ifs with h
  · exact UInt64.le_of_lt h
  · exact UInt64.le_refl _

theorem toNat_given (q : Queue α cap) (n : UInt64) :
    (q.given n).toNat = min n.toNat (q.write - q.read).toNat := by
  unfold Queue.given
  split_ifs with h
  · exact (Nat.min_eq_left (Nat.le_of_lt (UInt64.lt_iff_toNat_lt.1 h))).symm
  · exact (Nat.min_eq_right (UInt64.le_iff_toNat_le.1 (UInt64.not_lt.1 h))).symm

/-- Take the `n` oldest cells, or all of them. -/
def Queue.get (q : Queue α cap) (n : UInt64) : List α × Queue α cap :=
  ((List.range (q.given n).toNat).map fun i => q.cells ((q.read + UInt64.ofNat i) % cap).toNat,
    { q with
      read := q.read + q.given n
      le := by
        rw [UInt64.le_iff_toNat_le, toNat_sub_add (given_le q n)]
        exact Nat.le_trans (Nat.sub_le _ _) (UInt64.le_iff_toNat_le.1 q.le) })

section Wrapping

variable (hcap : cap.toNat ∣ 2 ^ 64)

include hcap in
/-- The cell of a counter that has wrapped around. -/
theorem cell_add (r : UInt64) (i : Nat) :
    ((r + UInt64.ofNat i) % cap).toNat = (r.toNat + i) % cap.toNat := by
  rw [UInt64.toNat_mod, UInt64.toNat_add, UInt64.toNat_ofNat', Nat.mod_mod_of_dvd _ hcap, Nat.add_mod,
    Nat.mod_mod_of_dvd _ hcap, ← Nat.add_mod]

include hcap in
theorem cell_write (q : Queue α cap) :
    (q.write % cap).toNat = (q.read.toNat + (q.write - q.read).toNat) % cap.toNat := by
  rw [← cell_add hcap, UInt64.ofNat_toNat]
  congr 2
  grind

include hcap in
/-- **Putting appends**, unless `cap` cells are unread. -/
theorem content_put (q : Queue α cap) (a : α) :
    (q.put a).content = if q.content.length < cap.toNat then q.content ++ [a] else q.content := by
  rw [length_content]
  unfold Queue.put
  by_cases h : q.write - q.read < cap
  · have hlt : (q.write - q.read).toNat < cap.toNat := UInt64.lt_iff_toNat_lt.1 h
    rw [dif_pos h, if_pos hlt]
    simp only [Queue.content, toNat_succ_sub h]
    rw [cell_write hcap, Ring.window_update _ _ _ hlt]
  · rw [dif_neg h, if_neg fun hlt => h (UInt64.lt_iff_toNat_lt.2 hlt)]

include hcap in
/-- **Getting takes the oldest cells.** -/
theorem get_fst (q : Queue α cap) (n : UInt64) : (q.get n).1 = q.content.take n.toNat := by
  have htake : q.content.take n.toNat = q.content.take (q.given n).toNat := by
    rw [toNat_given, ← length_content q, Nat.min_comm, List.take_eq_take_min, Nat.min_comm]
  rw [htake, Queue.content, Ring.take_window _ _ (UInt64.le_iff_toNat_le.1 (given_le q n))]
  apply List.map_congr_left
  intro i _
  rw [cell_add hcap]

include hcap in
/-- **Getting leaves the other cells.** -/
theorem content_get (q : Queue α cap) (n : UInt64) :
    (q.get n).2.content = q.content.drop n.toNat := by
  have hdrop : q.content.drop n.toNat = q.content.drop (q.given n).toNat := by
    rw [toNat_given, ← length_content q]
    rcases Nat.le_total n.toNat q.content.length with hle | hle
    · rw [Nat.min_eq_left hle]
    · rw [Nat.min_eq_right hle, List.drop_eq_nil_of_le hle, List.drop_length]
  rw [hdrop]
  simp only [Queue.content, Queue.get, toNat_sub_add (given_le q n)]
  rw [Ring.drop_window _ _ (UInt64.le_iff_toNat_le.1 (given_le q n))]
  rw [← Ring.window_mod, UInt64.toNat_add, Nat.mod_mod_of_dvd _ hcap]

end Wrapping

end ChenixOS.Counted
