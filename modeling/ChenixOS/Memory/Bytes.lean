import ChenixOS.Lib.Words
import ChenixOS.Memory.Pages

/-!
# The bytes of physical memory

`State.mem` gives the word at each aligned kernel address. A byte is a part of such a word, and a store of a byte
changes that word alone.
-/

namespace ChenixOS.MemoryManager

open Words

namespace State

variable {s s' : State} {a x n i : Nat}

/-- The aligned word that the byte at `a` is in. -/
def wordOf (a : Nat) : Nat := a - a % 8

/-- `*(uint8*)a` -/
def byteAt (s : State) (a : Nat) : UInt8 := byte (s.mem (wordOf a)) (a % 8)

/-- `*(uint8*)a = v;` -/
def storeByte (s : State) (a : Nat) (v : UInt8) : State := s.store (wordOf a) (setByte (s.mem (wordOf a)) (a % 8) v)

/-- `for(i = 0; i < n; i++) ((uint8*)a)[i] = v(i);` -/
def storeBytes (s : State) (a n : Nat) (v : Nat → UInt8) : State :=
  (List.range n).foldl (fun s i => s.storeByte ((a + i) % wordSize) (v i)) s

theorem wordOf_add (a : Nat) : wordOf a + a % 8 = a := Nat.sub_add_cancel (Nat.mod_le a 8)

@[simp] theorem myPML4_storeByte (s : State) (a : Nat) (v : UInt8) : (s.storeByte a v).myPML4 = s.myPML4 := rfl

@[simp] theorem refused_storeByte (s : State) (a : Nat) (v : UInt8) : (s.storeByte a v).refused = s.refused := rfl

theorem sameButMem_storeByte (s : State) (a : Nat) (v : UInt8) : SameButMem s (s.storeByte a v) :=
  sameButMem_store _ _ _

/-- Other words are not changed. -/
theorem mem_storeByte (v : UInt8) (hx : x ≠ wordOf a) : (s.storeByte a v).mem x = s.mem x := by
  rw [storeByte, mem_store, Function.update_of_ne hx]

/-- **The bytes after a store.** -/
theorem byteAt_storeByte (v : UInt8) : (s.storeByte a v).byteAt x = if x = a then v else s.byteAt x := by
  unfold byteAt
  by_cases hword : wordOf x = wordOf a
  · rw [storeByte, mem_store, hword, Function.update_self]
    have hx := wordOf_add x
    have ha := wordOf_add a
    by_cases hxa : x = a
    · rw [if_pos hxa, hxa, byte_setByte_self]
    · rw [if_neg hxa, byte_setByte_of_ne v (by omega)]
  · rw [mem_storeByte v hword, if_neg fun hxa => hword (congrArg wordOf hxa)]

theorem storeBytes_succ (s : State) (a n : Nat) (v : Nat → UInt8) :
    s.storeBytes a (n + 1) v = (s.storeBytes a n v).storeByte ((a + n) % wordSize) (v n) := by
  simp only [storeBytes, List.range_succ, List.foldl_append, List.foldl_cons, List.foldl_nil]

/-- Words outside of the bytes that are stored. -/
theorem mem_storeBytes {v : Nat → UInt8} (h : a + n ≤ wordSize) (hx : ∀ i < n, x ≠ wordOf (a + i)) :
    (s.storeBytes a n v).mem x = s.mem x := by
  induction n with
  | zero => rfl
  | succ n ih =>
    have hlt : (a + n) % wordSize = a + n := Nat.mod_eq_of_lt (by omega)
    rw [storeBytes_succ, hlt, mem_storeByte _ (hx n (Nat.lt_succ_self n))]
    exact ih (by omega) fun i hi => hx i (Nat.lt_succ_of_lt hi)

/-- **The bytes after a row of stores.** -/
theorem byteAt_storeBytes {v : Nat → UInt8} (h : a + n ≤ wordSize) :
    (s.storeBytes a n v).byteAt x = if a ≤ x ∧ x < a + n then v (x - a) else s.byteAt x := by
  induction n with
  | zero =>
    rw [if_neg (by omega)]
    rfl
  | succ n ih =>
    have hlt : (a + n) % wordSize = a + n := Nat.mod_eq_of_lt (by omega)
    rw [storeBytes_succ, hlt, byteAt_storeByte, ih (by omega)]
    by_cases hx : x = a + n
    · subst hx
      rw [if_pos rfl, if_pos (by omega), Nat.add_sub_cancel_left]
    · rw [if_neg hx]
      exact if_congr (by omega) rfl rfl

theorem byteAt_congr (h : s'.mem (wordOf a) = s.mem (wordOf a)) : s'.byteAt a = s.byteAt a := by
  rw [byteAt, byteAt, h]

/-- A word from its bytes. -/
theorem word_byteAt (s : State) (a : Nat) (h : 8 ∣ a) : word s.byteAt 8 a = s.mem a % wordSize := by
  have hbytes : ∀ i < 8, s.byteAt (a + i) = byte (s.mem a) i := fun i hi => by
    have hword : wordOf (a + i) = a := by
      unfold wordOf
      omega
    have hoffset : (a + i) % 8 = i := by omega
    rw [byteAt, hword, hoffset]
  exact word_of_bytes hbytes

end State

/-- The word of a byte in a page. -/
theorem wordOf_page {f x : Nat} (hf : Frame f) :
    State.wordOf (highMemBase + f + x) = highMemBase + f + 8 * (x / 8) := by
  have haligned := hf.aligned
  unfold State.wordOf highMemBase
  omega

end ChenixOS.MemoryManager
