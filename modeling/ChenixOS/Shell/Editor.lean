import ChenixOS.Shell.Shell
import Mathlib.Data.List.Destutter

/-!
# What the line editor is for

The user edits a line, enters it as a command, and recalls earlier commands. The history holds the commands that
were entered, without immediate repetitions, and of these the last 1024.
-/

namespace ChenixOS.Shell

/-- The commands of a log that the history is to hold. -/
def recent (log : List (List UInt8)) : List (List UInt8) :=
  (log.destutter (· ≠ ·)).drop ((log.destutter (· ≠ ·)).length - historyRows)

structure Editor where
  line : List UInt8
  /-- All commands that were entered. -/
  log : List (List UInt8)
  /-- How many commands before the line the recalled one is, 0 if none is. -/
  recalled : Nat
  killed : Bool

namespace Editor

def start : Editor := ⟨[], [], 0, false⟩

variable (ed : Editor)

def held : List (List UInt8) := recent ed.log

/-- A line without a word is a command, too, but stays in the line. -/
def enter : Editor :=
  if ed.line = [] then { ed with recalled := 0 }
  else { ed with
    log := ed.log ++ [ed.line]
    line := if ed.line.all fun c => decide (c = space) then ed.line else []
    recalled := 0 }

def fetch (k : Nat) : Editor :=
  { ed with line := ed.held.getD (ed.held.length - k) [], recalled := k }

def input (c : UInt8) : Editor :=
  if c = 8 then { ed with line := ed.line.dropLast, recalled := 0 }
  else if c = 10 then ed.enter
  else if c = 1 then if ed.recalled < ed.held.length then ed.fetch (ed.recalled + 1) else ed
  else if c = 2 then
    if ed.recalled > 1 then ed.fetch (ed.recalled - 1)
    else if ed.recalled = 1 then { ed with line := [], recalled := 0 }
    else ed
  else { ed with line := ed.line ++ [c], recalled := 0 }

def step : Event → Editor
  | .kill => { ed with killed := true }
  | .round c =>
    if ed.killed then { ed with line := [], recalled := 0, killed := false }
    else
      match c with
      | none => ed
      | some c => ed.input c

def run (es : List Event) : Editor := es.foldl step start

end Editor

/-- What is promised of the shell while it runs: the index of the line is in the buffer and at the end of a string,
and the history holds the commands. -/
structure Sound (s : Shell) (ed : Editor) : Prop where
  index : s.cmdBufferIndex ≤ 127
  ends : s.cmdBuffer s.cmdBufferIndex = 0
  min : s.historyMinIndex + ed.held.length = 1024
  rows : ∀ i (h : i < ed.held.length), Buffer.Holds 0 s.history (row (s.historyMinIndex + i)) ed.held[i]

/-- The shell did not leave its arrays, and keeps its promise if it still runs. -/
def Kept (es : List Event) : Prop :=
  ∃ s, Shell.run es = some s ∧ (s.exited = false → Sound s (Editor.run es))

/-- An event that the shell is prepared for. A character that is typed needs room, and the end of the string has to
follow it already; a command that is not a repetition needs a row. -/
def Prepared (s : Shell) : Event → Prop
  | .kill => True
  | .round none => True
  | .round (some c) =>
    s.exited = false → s.killed = false →
      if c.val = 10 then
        s.cmdBufferIndex = 0 ∨ 0 < s.historyMinIndex ∨
          ∀ i, i ≤ s.cmdBufferIndex → s.history (row 1023 + i) = s.cmdBuffer i
      else if c.val = 8 ∨ c.val = 1 ∨ c.val = 2 then True
      else s.cmdBufferIndex < 127 ∧ s.cmdBuffer (s.cmdBufferIndex + 1) = 0

/-! ## The commands that are held -/

variable {log : List (List UInt8)} {line : List UInt8}

theorem destutter'_concat {α : Type} [DecidableEq α] (a b : α) (l : List α) :
    (l ++ [a]).destutter' (· ≠ ·) b =
      if (b :: l).getLast? = some a then l.destutter' (· ≠ ·) b else l.destutter' (· ≠ ·) b ++ [a] := by
  induction l generalizing b with
  | nil =>
    by_cases hab : b = a
    · simp [hab]
    · simp [hab]
  | cons c l ih =>
    rw [List.cons_append]
    by_cases hbc : b = c
    · subst hbc
      rw [List.destutter'_cons_neg _ (by simp), List.destutter'_cons_neg _ (by simp), ih, List.getLast?_cons_cons]
    · rw [List.destutter'_cons_pos _ hbc, List.destutter'_cons_pos _ hbc, ih, List.getLast?_cons_cons]
      split
      · rfl
      · rfl

/-- An entered command is kept unless it repeats the one before it. -/
theorem destutter_concat {α : Type} [DecidableEq α] (a : α) (l : List α) :
    (l ++ [a]).destutter (· ≠ ·) =
      if l.getLast? = some a then l.destutter (· ≠ ·) else l.destutter (· ≠ ·) ++ [a] := by
  cases l with
  | nil => simp
  | cons b l => exact destutter'_concat a b l

theorem getLast?_destutter {α : Type} [DecidableEq α] (l : List α) : (l.destutter (· ≠ ·)).getLast? = l.getLast? := by
  induction l using List.reverseRecOn with
  | nil => rfl
  | append_singleton l a ih =>
    rw [destutter_concat]
    split
    · next hlast => rw [ih, hlast, List.getLast?_concat]
    · rw [List.getLast?_concat, List.getLast?_concat]

theorem length_recent : (recent log).length ≤ historyRows := by
  unfold recent
  rw [List.length_drop]
  omega

theorem recent_of_last (h : log.getLast? = some line) : recent (log ++ [line]) = recent log := by
  unfold recent
  rw [destutter_concat, if_pos h]

/-- A command that is not a repetition follows the others, as long as there is room. -/
theorem recent_concat (h : log.getLast? ≠ some line) (hroom : (recent log).length < historyRows) :
    recent (log ++ [line]) = recent log ++ [line] := by
  unfold recent at hroom ⊢
  rw [List.length_drop] at hroom
  have hall : (log.destutter (· ≠ ·)).length - historyRows = 0 := by omega
  have hall' : (log.destutter (· ≠ ·) ++ [line]).length - historyRows = 0 := by
    rw [List.length_append, List.length_singleton]
    omega
  rw [destutter_concat, if_neg h, hall, hall', List.drop_zero, List.drop_zero]

theorem getLast?_recent : (recent log).getLast? = log.getLast? := by
  unfold recent
  rw [List.getLast?_drop, getLast?_destutter]
  split
  · next hle =>
    have hempty : (log.destutter (· ≠ ·)).length = 0 := by
      have := show 0 < historyRows by decide
      omega
    have hnil := (List.destutter_eq_nil _).1 (List.length_eq_zero_iff.1 hempty)
    rw [hnil]
    rfl
  · rfl

end ChenixOS.Shell
