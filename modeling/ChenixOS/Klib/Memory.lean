import ChenixOS.Lib.Buffer

/-!
# `klib/memory.cpp`

`kmemcpy` copies quad words and then the bytes that are left, upwards; `kmemmove` copies downwards where the
destination lies above the source. A step of `rep movsq` or `rep movsb` loads a block and stores it.

Memory is a function from addresses, which are natural numbers: the regions that are given to these functions do
not reach beyond the end of the address space. What is stored may be bytes or the characters of a path.
-/

namespace ChenixOS.Memory

open Buffer

variable {α : Type} {m : Nat → α} {dest src size : Nat}

/-- `rep movsb` -/
def kmemcpyb (dest src size : Nat) (m : Nat → α) : Nat → α := moveBlocks 1 size dest src m

/-- `rep movsq` -/
def kmemcpyq (dest src count : Nat) (m : Nat → α) : Nat → α := moveBlocks 8 count dest src m

def kmemcpy (dest src size : Nat) (m : Nat → α) : Nat → α :=
  let numq := size >>> 3
  let m := kmemcpyq dest src numq m
  let rem := size &&& 0x7
  kmemcpyb (dest + numq <<< 3) (src + numq <<< 3) rem m

def kmemmove (dest src size : Nat) (m : Nat → α) : Nat → α :=
  if dest = src then m
  else if dest < src then kmemcpy dest src size m
  else moveDown dest src size m

theorem kmemcpy_eq_blocks :
    kmemcpy dest src size m =
      moveBlocks 1 (size % 8) (dest + size / 8 * 8) (src + size / 8 * 8) (moveBlocks 8 (size / 8) dest src m) := by
  have hquads : size >>> 3 = size / 8 := Nat.shiftRight_eq_div_pow size 3
  have hbytes : size &&& 0x7 = size % 8 := Nat.and_two_pow_sub_one_eq_mod size 3
  have hoffset : (size / 8) <<< 3 = size / 8 * 8 := Nat.shiftLeft_eq _ _
  unfold kmemcpy kmemcpyb kmemcpyq
  rw [hquads, hbytes]
  dsimp only
  rw [hoffset]

/-- **`kmemcpy`** moves what was at the source, if the destination is not above it or does not overlap it. -/
theorem kmemcpy_eq (h : dest ≤ src ∨ src + size ≤ dest) :
    kmemcpy dest src size m = paste m dest size fun i => m (src + i) := by
  have hsize : size / 8 * 8 + size % 8 * 1 = size := by omega
  have hsource : ∀ i, i < size % 8 * 1 →
      paste m dest (size / 8 * 8) (fun i => m (src + i)) (src + size / 8 * 8 + i) = m (src + (size / 8 * 8 + i)) := by
    intro i hi
    rw [Nat.add_assoc src]
    rcases h with hlow | hapart
    · exact paste_of_ge (by omega)
    · exact paste_of_lt (by omega)
  rw [kmemcpy_eq_blocks, moveBlocks_eq (by omega), moveBlocks_eq (by omega), paste_congr hsource, paste_paste, hsize]

/-- **`kmemmove`** moves what was at the source in any case. -/
theorem kmemmove_eq : kmemmove dest src size m = paste m dest size fun i => m (src + i) := by
  unfold kmemmove
  by_cases hsame : dest = src
  · rw [if_pos hsame, hsame]
    exact paste_self.symm
  · rw [if_neg hsame]
    by_cases hbelow : dest < src
    · rw [if_pos hbelow]
      exact kmemcpy_eq (Or.inl (Nat.le_of_lt hbelow))
    · rw [if_neg hbelow]
      exact moveDown_eq (by omega)

end ChenixOS.Memory
