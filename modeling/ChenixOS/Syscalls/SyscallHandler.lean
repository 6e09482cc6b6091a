import ChenixOS.Memory.FreeList
import Mathlib.Data.List.Find

/-!
# The table of system calls

`syscalls/SyscallHandler.cpp`. The linker collects the pairs that `SYSCALL_REGISTER` makes, of a function and a
number, in an array; `Init` writes each function into the slot of its number. `SyscallDispatcher` calls what is in
the slot of a number that a user program has chosen.

**Theorem (`dispatch_right_iff`).** The function that was registered under the number is called, or the thread
ends, exactly if the number is below 1024 or there is nothing, or a null word, where its slot would be. The number
is not compared with the length of the table: beyond it, what is found in memory is called.
-/

namespace ChenixOS.SyscallHandler

/-- The number of elements of `g_Functions`. -/
def numFunctions : Nat := 1024

/-- The word at each address where there is memory. -/
abbrev Memory := Nat → Option Nat

/-- An element of the array that the linker makes. -/
structure SyscallEntry where
  func : Nat
  number : Nat
  deriving DecidableEq

/-- What a system call is given besides its number. -/
structure Arguments where
  arg1 : Nat
  arg2 : Nat
  arg3 : Nat
  arg4 : Nat
  state : Nat
  deriving DecidableEq

/-- `&g_Functions[func]` -/
def slot (g_Functions func : Nat) : Nat := (g_Functions + 8 * func) % wordSize

def init (g_Functions : Nat) (arr : List SyscallEntry) (mem : Memory) : Memory :=
  arr.foldl (fun mem e => Function.update mem (slot g_Functions e.number) (some e.func)) mem

inductive Outcome
  /-- The function at this address is called. -/
  | call (func : Nat) (arguments : Arguments)
  /-- `Scheduler::ThreadExit` -/
  | threadExit (code : Nat)
  deriving DecidableEq

/-- Where there is no memory, the handler of the page fault ends the thread. -/
def syscallDispatcher (g_Functions : Nat) (mem : Memory) (func : Nat) (arguments : Arguments) : Outcome :=
  match mem (slot g_Functions func) with
  | none => .threadExit 1
  | some f => if f ≠ 0 then .call f arguments else .threadExit 1

/-! ## What is asked of it -/

/-- The function that `Init` has left under a number: the last one that was registered under it. -/
def registered (arr : List SyscallEntry) (number : Nat) : Option Nat :=
  (arr.reverse.find? fun e => e.number = number).map SyscallEntry.func

/-- The function of this number is called, or the thread ends. -/
def Right (arr : List SyscallEntry) (func : Nat) (arguments : Arguments) : Outcome → Prop
  | .call f arguments' => registered arr func = some f ∧ arguments' = arguments
  | .threadExit _ => True

/-- The table before `Init`. -/
def Empty (g_Functions : Nat) (mem : Memory) : Prop := ∀ i < numFunctions, mem (slot g_Functions i) = some 0

variable {g_Functions func i j : Nat} {arr : List SyscallEntry} {mem : Memory} {e : SyscallEntry}
  {arguments : Arguments}

theorem slot_inj (hi : i < numFunctions) (hj : j < numFunctions) (h : slot g_Functions i = slot g_Functions j) :
    i = j := by
  unfold slot wordSize at h
  unfold numFunctions at hi hj
  omega

theorem registered_append : registered (arr ++ [e]) func = if e.number = func then some e.func else registered arr func := by
  unfold registered
  rw [List.reverse_append, List.reverse_singleton, List.singleton_append, List.find?_cons]
  by_cases h : e.number = func
  · simp [h]
  · simp [h]

/-- A slot of the table holds what was registered under its number, or is null. -/
theorem init_slot (hmem : Empty g_Functions mem) (harr : ∀ e ∈ arr, e.number < numFunctions)
    (hfunc : func < numFunctions) :
    init g_Functions arr mem (slot g_Functions func) = some ((registered arr func).getD 0) := by
  induction arr using List.reverseRecOn with
  | nil => exact hmem func hfunc
  | append_singleton arr e ih =>
    have hrest := ih fun e' he' => harr e' (List.mem_append_left _ he')
    have he : e.number < numFunctions := harr e (List.mem_append_right _ List.mem_cons_self)
    have hstep : init g_Functions (arr ++ [e]) mem =
        Function.update (init g_Functions arr mem) (slot g_Functions e.number) (some e.func) :=
      List.foldl_append
    rw [hstep, registered_append]
    by_cases hnumber : e.number = func
    · rw [hnumber, Function.update_self, if_pos rfl]
      rfl
    · have hne : slot g_Functions func ≠ slot g_Functions e.number := fun h =>
        hnumber (slot_inj hfunc he h).symm
      rw [Function.update_of_ne hne, if_neg hnumber, hrest]

/-- Nothing is registered under a number beyond the table. -/
theorem registered_eq_none (harr : ∀ e ∈ arr, e.number < numFunctions) (hfunc : numFunctions ≤ func) :
    registered arr func = none := by
  unfold registered
  rw [Option.map_eq_none_iff, List.find?_eq_none]
  intro e he hnumber
  have hlt := harr e (List.mem_reverse.1 he)
  rw [of_decide_eq_true hnumber] at hlt
  omega

/-- **When the dispatcher does what it should**, for every number and whatever is in memory. -/
theorem dispatch_right_iff (g_Functions func : Nat) (arr : List SyscallEntry) (mem : Memory) (arguments : Arguments)
    (hmem : Empty g_Functions mem) (harr : ∀ e ∈ arr, e.number < numFunctions) :
    Right arr func arguments (syscallDispatcher g_Functions (init g_Functions arr mem) func arguments) ↔
      func < numFunctions ∨ ∀ f, init g_Functions arr mem (slot g_Functions func) = some f → f = 0 := by
  unfold syscallDispatcher
  by_cases hfunc : func < numFunctions
  · refine iff_of_true ?_ (Or.inl hfunc)
    rw [init_slot hmem harr hfunc]
    cases hregistered : registered arr func with
    | none => exact trivial
    | some f =>
      dsimp only [Option.getD_some]
      by_cases hf : f = 0
      · rw [if_neg (not_not.2 hf)]
        trivial
      · rw [if_pos hf]
        exact ⟨hregistered, rfl⟩
  · rw [or_iff_right hfunc]
    cases hword : init g_Functions arr mem (slot g_Functions func) with
    | none => simp [Right]
    | some f =>
      dsimp only
      by_cases hf : f = 0
      · rw [if_neg (not_not.2 hf)]
        exact iff_of_true trivial fun f' h => (Option.some.inj h).symm.trans hf
      · rw [if_pos hf]
        refine iff_of_false ?_ fun h => hf (h f rfl)
        rintro ⟨h, -⟩
        rw [registered_eq_none harr (Nat.le_of_not_lt hfunc)] at h
        cases h

/-- Two functions in the table at 4096, and no memory behind it. -/
def small : Memory := fun a => if 4096 ≤ a ∧ a < 4096 + 8 * numFunctions then some 0 else none

theorem small_empty : Empty 4096 small := by
  intro i hi
  unfold slot small numFunctions wordSize at *
  rw [Nat.mod_eq_of_lt (by omega), if_pos (by omega)]

theorem dispatch_right_iff_small :
    Right [⟨0x8000, 3⟩, ⟨0x9000, 5⟩] 5 ⟨1, 2, 3, 4, 0⟩
      (syscallDispatcher 4096 (init 4096 [⟨0x8000, 3⟩, ⟨0x9000, 5⟩] small) 5 ⟨1, 2, 3, 4, 0⟩) := by
  refine (dispatch_right_iff 4096 5 _ small _ small_empty fun e he => ?_).2 (Or.inl (by decide))
  simp only [List.mem_cons, List.not_mem_nil, or_false] at he
  rcases he with rfl | rfl
  · decide
  · decide

/-- The word behind the table is called. -/
theorem dispatch_beyond_table : ∃ mem, Empty 4096 mem ∧
    syscallDispatcher 4096 (init 4096 [⟨0x8000, 3⟩] mem) 1024 ⟨1, 2, 3, 4, 0⟩ = .call 7 ⟨1, 2, 3, 4, 0⟩ ∧
    ¬ Right [⟨0x8000, 3⟩] 1024 ⟨1, 2, 3, 4, 0⟩
      (syscallDispatcher 4096 (init 4096 [⟨0x8000, 3⟩] mem) 1024 ⟨1, 2, 3, 4, 0⟩) := by
  refine ⟨fun a => if a = 4096 + 8192 then some 7 else some 0, fun i hi => ?_, ?_, ?_⟩
  · unfold slot numFunctions wordSize at *
    dsimp only
    rw [Nat.mod_eq_of_lt (by omega), if_neg (by omega)]
  · decide
  · have hcall : syscallDispatcher 4096 (init 4096 [⟨0x8000, 3⟩] fun a => if a = 4096 + 8192 then some 7 else some 0)
        1024 ⟨1, 2, 3, 4, 0⟩ = .call 7 ⟨1, 2, 3, 4, 0⟩ := by decide
    rw [hcall]
    rintro ⟨h, -⟩
    cases h

end ChenixOS.SyscallHandler
