import ChenixOS.Lib.Buffer

/-!
# String functions between two buffers

A string is copied and compared character by character up to its terminator. The functions get the number of
rounds they may take; a string that ends inside of its buffer is handled within the size of this buffer.
-/

namespace ChenixOS.Buffer

variable {α : Type} [DecidableEq α] {size size' : Nat} {z : α} {b c : Nat → α} {s t : List α} {dst src i fuel : Nat}

/-- Copy the characters from `src + i` on, with their terminator. -/
def copyString (z : α) (size dst size' src : Nat) (c : Nat → α) : Nat → Nat → (Nat → α) → Option (Nat → α)
  | 0, _, _ => none
  | fuel + 1, i, b => do
    let x ← read size' c (src + i)
    let b ← write size b (dst + i) x
    if x = z then some b else copyString z size dst size' src c fuel (i + 1) b

omit [DecidableEq α] in
theorem paste_succ {f : Nat → α} : Function.update (paste b dst i f) (dst + i) (f i) = paste b dst (i + 1) f := by
  have hadjacent := @paste_paste _ b 1 i dst f
  rw [← hadjacent]
  funext j
  by_cases hj : j = dst + i
  · subst hj
    rw [Function.update_self]
    have hlast := @paste_of_mem _ (paste b dst i f) 0 1 (dst + i) (fun k => f (i + k)) Nat.one_pos
    exact hlast.symm
  · rw [Function.update_of_ne hj]
    exact (if_neg (by omega)).symm

theorem copyString_from (h : Holds z c src s) (hsrc : src + s.length < size') (hdst : dst + s.length < size)
    (hi : i ≤ s.length) (hfuel : s.length < i + fuel) :
    copyString z size dst size' src c fuel i (paste b dst i fun k => c (src + k)) =
      some (paste b dst (s.length + 1) fun k => c (src + k)) := by
  induction fuel generalizing i with
  | zero => omega
  | succ fuel ih =>
    rw [copyString, read_of_lt (by omega)]
    simp only [Option.bind_eq_bind, Option.bind_some]
    rw [write_of_lt _ (by omega), Option.bind_some, paste_succ (f := fun k => c (src + k))]
    obtain rfl | hlt := Nat.eq_or_lt_of_le hi
    · rw [if_pos h.ends]
    · rw [if_neg (h.ne_end hlt)]
      exact ih hlt (by omega)

/-- **Copying a string** pastes it with its terminator. -/
theorem copyString_eq (h : Holds z c src s) (hsrc : src + s.length < size') (hdst : dst + s.length < size) :
    copyString z size dst size' src c size' 0 b = some (paste b dst (s.length + 1) fun k => c (src + k)) := by
  have hfrom := copyString_from (b := b) h hsrc hdst (Nat.zero_le _) (show s.length < 0 + size' by omega)
  rw [paste_zero] at hfrom
  exact hfrom

/-- Compare the strings at `dst` and `src`. -/
def sameString (z : α) (size : Nat) (b : Nat → α) (size' : Nat) (c : Nat → α) : Nat → Nat → Nat → Option Bool
  | 0, _, _ => none
  | fuel + 1, dst, src => do
    let x ← read size b dst
    let y ← read size' c src
    if x = y then if x = z then some true else sameString z size b size' c fuel (dst + 1) (src + 1)
    else some false

/-- **Comparing two strings.** -/
theorem sameString_eq (hb : Holds z b dst s) (hc : Holds z c src t) (hdst : dst + s.length < size)
    (hsrc : src + t.length < size') (hfuel : s.length < fuel) :
    sameString z size b size' c fuel dst src = some (decide (s = t)) := by
  induction fuel generalizing dst src s t with
  | zero => omega
  | succ fuel ih =>
    rw [sameString, read_of_lt (by omega), read_of_lt (by omega)]
    simp only [Option.bind_eq_bind, Option.bind_some]
    cases s with
    | nil =>
      have hx : b dst = z := hb.ends
      cases t with
      | nil =>
        have hy : c src = z := hc.ends
        rw [hx, hy, if_pos rfl, if_pos rfl]
        rfl
      | cons y t =>
        have hne := hc.ne_end (i := 0) (by simp)
        rw [hx, if_neg fun heq => hne heq.symm]
        rfl
    | cons x s =>
      have hx : b dst = x := hb.chars 0 (by simp)
      have hxz : x ≠ z := fun heq => hb.clean (by simp [heq])
      cases t with
      | nil =>
        have hy : c src = z := hc.ends
        rw [hx, hy, if_neg hxz]
        rfl
      | cons y t =>
        have hy : c src = y := hc.chars 0 (by simp)
        rw [List.length_cons] at hdst hsrc hfuel
        rw [hx, hy]
        by_cases hxy : x = y
        · have hb' : Holds z b (dst + 1) s := hb.drop (n := 1) (by simp)
          have hc' : Holds z c (src + 1) t := hc.drop (n := 1) (by simp)
          rw [if_pos hxy, if_neg hxz, ih hb' hc' (by omega) (by omega) (by omega)]
          simp [hxy]
        · rw [if_neg hxy]
          simp [hxy]

end ChenixOS.Buffer
