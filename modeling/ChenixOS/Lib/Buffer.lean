import Mathlib.Data.List.Basic
import Mathlib.Logic.Function.Basic
import Mathlib.Order.Nat

/-!
# Buffers and the strings in them

A buffer is a function on indices of which only those below `size` may be used; an access to another one
gives `none`. A string in a buffer is a list of characters followed by the terminator `z`.

Copying inside of a buffer goes in blocks of `w` characters, upwards or downwards. Upwards to a lower
place, or downwards to a higher one, it moves the characters even where source and destination overlap.
-/

namespace ChenixOS.Buffer

variable {α : Type} {size : Nat} {b b' : Nat → α} {z : α} {s t : List α} {i j n pos dst src w : Nat}

/-! ## Access -/

def read (size : Nat) (b : Nat → α) (i : Nat) : Option α := if i < size then some (b i) else none

def write (size : Nat) (b : Nat → α) (i : Nat) (c : α) : Option (Nat → α) :=
  if i < size then some (Function.update b i c) else none

theorem read_of_lt (h : i < size) : read size b i = some (b i) := if_pos h

theorem write_of_lt (c : α) (h : i < size) : write size b i c = some (Function.update b i c) := if_pos h

theorem write_of_ge (c : α) (h : size ≤ i) : write size b i c = none := if_neg (Nat.not_lt.2 h)

/-- The number of characters from `pos` on that pass the test, counted from `n` on. -/
def count (size : Nat) (test : α → Bool) (b : Nat → α) (pos : Nat) : Nat → Nat → Option Nat
  | 0, _ => none
  | fuel + 1, n => do
    let c ← read size b (pos + n)
    if test c then count size test b pos fuel (n + 1) else some n

/-- Counting stops at the first character that fails the test, if it is in the buffer. -/
theorem count_eq {test : α → Bool} {fuel : Nat} (hle : n ≤ j) (hpass : ∀ i, n ≤ i → i < j → test (b (pos + i)))
    (hfail : test (b (pos + j)) = false) (hlt : pos + j < size) (hfuel : j < n + fuel) :
    count size test b pos fuel n = some j := by
  induction fuel generalizing n with
  | zero => omega
  | succ fuel ih =>
    rw [count, read_of_lt (by omega)]
    obtain rfl | hnj := Nat.eq_or_lt_of_le hle
    · simp [hfail]
    · have hrest := ih hnj (fun i h₁ h₂ => hpass i (by omega) h₂) (by omega)
      simp [hpass n le_rfl hnj, hrest]

/-- What was counted passes the test, and what follows it does not. -/
theorem count_spec {test : α → Bool} {fuel : Nat} (h : count size test b pos fuel n = some j) :
    (n ≤ j ∧ j < n + fuel) ∧ (∀ i, n ≤ i → i < j → test (b (pos + i)) = true) ∧ test (b (pos + j)) = false := by
  induction fuel generalizing n with
  | zero => cases h
  | succ fuel ih =>
    obtain ⟨c, hc, hrest⟩ := Option.bind_eq_some_iff.1 h
    unfold read at hc
    split_ifs at hc
    cases hc
    cases htest : test (b (pos + n)) with
    | false =>
      rw [htest] at hrest
      cases hrest
      exact ⟨⟨le_rfl, by omega⟩, fun i h₁ h₂ => by omega, htest⟩
    | true =>
      rw [htest] at hrest
      obtain ⟨⟨hle, hlt⟩, hpass, hfail⟩ := ih hrest
      refine ⟨⟨by omega, by omega⟩, fun i h₁ h₂ => ?_, hfail⟩
      obtain rfl | hni := Nat.eq_or_lt_of_le h₁
      · exact htest
      · exact hpass i hni h₂

/-! ## Strings -/

/-- At `pos` the buffer holds the string `s`. -/
structure Holds (z : α) (b : Nat → α) (pos : Nat) (s : List α) : Prop where
  chars : ∀ i (h : i < s.length), b (pos + i) = s[i]
  ends : b (pos + s.length) = z
  clean : z ∉ s

/-- The same characters at another place. -/
theorem Holds.shift (h : Holds z b src s) (hb : ∀ i, i ≤ s.length → b' (dst + i) = b (src + i)) :
    Holds z b' dst s where
  chars i hi := by rw [hb i (Nat.le_of_lt hi), h.chars i hi]
  ends := by rw [hb _ le_rfl, h.ends]
  clean := h.clean

theorem Holds.congr (h : Holds z b pos s) (hb : ∀ i, i ≤ s.length → b' (pos + i) = b (pos + i)) :
    Holds z b' pos s := h.shift hb

theorem Holds.nil (h : b pos = z) : Holds z b pos [] where
  chars i hi := absurd hi (Nat.not_lt_zero i)
  ends := h
  clean := List.not_mem_nil

theorem Holds.singleton {c : α} (h : b pos = c) (hend : b (pos + 1) = z) (hc : c ≠ z) : Holds z b pos [c] where
  chars i hi := by
    obtain rfl : i = 0 := Nat.lt_one_iff.1 hi
    exact h
  ends := hend
  clean hz := hc (List.mem_singleton.1 hz).symm

theorem Holds.ne_end (h : Holds z b pos s) (hi : i < s.length) : b (pos + i) ≠ z := by
  rw [h.chars i hi]
  rintro rfl
  exact h.clean (List.getElem_mem hi)

/-- A buffer holds one string at a place. -/
theorem Holds.unique (h : Holds z b pos s) (h' : Holds z b pos t) : s = t := by
  have hlen : s.length = t.length := by
    rcases Nat.lt_trichotomy s.length t.length with hlt | heq | hlt
    · exact absurd h.ends (h'.ne_end hlt)
    · exact heq
    · exact absurd h'.ends (h.ne_end hlt)
  refine List.ext_getElem hlen fun i h₁ h₂ => ?_
  rw [← h.chars i h₁, h'.chars i h₂]

/-- What is left of a string behind some of its characters. -/
theorem Holds.drop (h : Holds z b pos s) (hn : n ≤ s.length) : Holds z b (pos + n) (s.drop n) where
  chars i hi := by
    rw [List.length_drop] at hi
    rw [Nat.add_assoc, h.chars (n + i) (by omega), List.getElem_drop]
  ends := by
    rw [List.length_drop, Nat.add_assoc, Nat.add_sub_cancel' hn, h.ends]
  clean hz := h.clean (List.mem_of_mem_drop hz)

/-- A string that is cut at one of its characters. -/
theorem Holds.take (h : Holds z b pos s) (hn : n ≤ s.length) :
    Holds z (Function.update b (pos + n) z) pos (s.take n) where
  chars i hi := by
    rw [List.length_take] at hi
    rw [Function.update_of_ne (by omega), h.chars i (by omega), List.getElem_take]
  ends := by rw [List.length_take, Nat.min_eq_left hn, Function.update_self]
  clean hz := h.clean (List.mem_of_mem_take hz)

/-- A character put over the end of a string, where another terminator follows. -/
theorem Holds.concat {c : α} (h : Holds z b pos s) (hend : b (pos + s.length + 1) = z) (hc : c ≠ z) :
    Holds z (Function.update b (pos + s.length) c) pos (s ++ [c]) where
  chars i hi := by
    rw [List.length_append, List.length_singleton] at hi
    obtain hlt | rfl := Nat.lt_succ_iff_lt_or_eq.1 hi
    · rw [Function.update_of_ne (by omega), h.chars i hlt, List.getElem_append_left hlt]
    · rw [Function.update_self, List.getElem_concat_length rfl]
  ends := by
    rw [List.length_append, List.length_singleton, ← Nat.add_assoc, Function.update_of_ne (by omega), hend]
  clean hz := by
    rcases List.mem_append.1 hz with hz | hz
    · exact h.clean hz
    · exact hc (List.mem_singleton.1 hz).symm

/-- The string is counted to its end. -/
theorem Holds.count_length [DecidableEq α] (h : Holds z b pos s) (hlt : pos + s.length < size) :
    count size (fun c => decide (c ≠ z)) b pos (size + 1) 0 = some s.length := by
  refine count_eq (Nat.zero_le _) (fun i _ hi => ?_) ?_ hlt (by omega)
  · simpa using h.ne_end hi
  · simpa using h.ends

/-- The characters from `pos` to `pos + n`. -/
def slice (b : Nat → α) (pos n : Nat) : List α := (List.range n).map fun i => b (pos + i)

@[simp] theorem length_slice : (slice b pos n).length = n := by simp [slice]

@[simp] theorem slice_zero : slice b pos 0 = [] := rfl

theorem slice_succ : slice b pos (n + 1) = slice b pos n ++ [b (pos + n)] := by
  simp [slice, List.range_succ]

theorem slice_congr (h : ∀ i, i < n → b' (pos + i) = b (pos + i)) : slice b' pos n = slice b pos n :=
  List.map_congr_left fun i hi => h i (List.mem_range.1 hi)

theorem slice_add : slice b pos (n + j) = slice b pos n ++ slice b (pos + n) j := by
  simp [slice, List.range_add, Function.comp_def, Nat.add_assoc]

theorem slice_eq_iff : slice b pos s.length = s ↔ ∀ i (h : i < s.length), b (pos + i) = s[i] := by
  constructor
  · intro h i hi
    have := List.getElem_of_eq h.symm hi
    simpa [slice] using this.symm
  · intro h
    refine List.ext_getElem (by simp) fun i h₁ h₂ => ?_
    simp [slice, h i h₂]

theorem holds_iff_slice : Holds z b pos s ↔ slice b pos s.length = s ∧ b (pos + s.length) = z ∧ z ∉ s :=
  ⟨fun h => ⟨slice_eq_iff.2 h.chars, h.ends, h.clean⟩, fun h => ⟨slice_eq_iff.1 h.1, h.2.1, h.2.2⟩⟩

/-! ## Copying -/

/-- The buffer with `n` characters from `dst` on given by `src`. -/
def paste (b : Nat → α) (dst n : Nat) (src : Nat → α) : Nat → α :=
  fun i => if dst ≤ i ∧ i < dst + n then src (i - dst) else b i

theorem paste_of_mem {f : Nat → α} (hi : i < n) : paste b dst n f (dst + i) = f i := by
  rw [paste, if_pos (by omega), Nat.add_sub_cancel_left]

theorem paste_of_lt {f : Nat → α} (hi : i < dst) : paste b dst n f i = b i := if_neg (by omega)

theorem paste_of_ge {f : Nat → α} (hi : dst + n ≤ i) : paste b dst n f i = b i := if_neg (by omega)

@[simp] theorem paste_zero {f : Nat → α} : paste b dst 0 f = b :=
  funext fun i => if_neg (by omega)

theorem paste_congr {f g : Nat → α} (h : ∀ i, i < n → f i = g i) : paste b dst n f = paste b dst n g := by
  funext i
  by_cases hi : dst ≤ i ∧ i < dst + n
  · rw [paste, paste, if_pos hi, if_pos hi, h _ (by omega)]
  · rw [paste, paste, if_neg hi, if_neg hi]

theorem paste_self : paste b dst n (fun i => b (dst + i)) = b := by
  funext i
  by_cases hi : dst ≤ i ∧ i < dst + n
  · rw [paste, if_pos hi, Nat.add_sub_cancel' hi.1]
  · rw [paste, if_neg hi]

/-- **A string pasted over the end of another one.** -/
theorem Holds.paste {f : Nat → α} (h : Holds z b pos t) (hf : Holds z f 0 s) :
    Holds z (paste b (pos + t.length) (s.length + 1) f) pos (t ++ s) where
  chars i hi := by
    rcases Nat.lt_or_ge i t.length with hlt | hge
    · rw [paste_of_lt (by omega), List.getElem_append_left hlt, h.chars i hlt]
    · obtain ⟨k, rfl⟩ := Nat.exists_eq_add_of_le hge
      rw [List.length_append] at hi
      have hk : k < s.length := by omega
      have hchar := hf.chars k hk
      rw [Nat.zero_add] at hchar
      rw [← Nat.add_assoc, paste_of_mem (by omega), List.getElem_append_right hge, hchar]
      simp
  ends := by
    rw [List.length_append, ← Nat.add_assoc, paste_of_mem (by omega), ← hf.ends, Nat.zero_add]
  clean hz := (List.mem_append.1 hz).elim h.clean hf.clean

/-- A string pasted with its terminator. -/
theorem Holds.pasted {f : Nat → α} (h : Holds z f src s) :
    Holds z (Buffer.paste b dst (s.length + 1) fun i => f (src + i)) dst s :=
  h.shift fun _ hi => paste_of_mem (Nat.lt_succ_of_le hi)

/-- Two adjacent parts of a source, pasted one after the other. -/
theorem paste_paste {f : Nat → α} :
    paste (paste b dst n f) (dst + n) j (fun i => f (n + i)) = paste b dst (n + j) f := by
  funext i
  by_cases hlo : i < dst
  · rw [paste_of_lt (by omega), paste_of_lt hlo, paste_of_lt hlo]
  · obtain ⟨k, rfl⟩ := Nat.exists_eq_add_of_le (Nat.le_of_not_lt hlo)
    by_cases hk : k < n
    · rw [paste_of_lt (by omega), paste_of_mem hk, paste_of_mem (by omega)]
    · obtain ⟨m, rfl⟩ := Nat.exists_eq_add_of_le (Nat.le_of_not_lt hk)
      by_cases hm : m < j
      · rw [← Nat.add_assoc, paste_of_mem hm, Nat.add_assoc, paste_of_mem (by omega)]
      · rw [paste_of_ge (by omega), paste_of_ge (by omega), paste_of_ge (by omega)]

/-- What was pasted below a source does not change it. -/
theorem source_paste {f : Nat → α} (hle : dst ≤ src) :
    (fun i => paste b dst n f (src + n + i)) = fun i => b (src + (n + i)) :=
  funext fun i => by rw [paste_of_ge (by omega), Nat.add_assoc]

/-- Copy `n` blocks of `w` characters, upwards; each is read before it is written. -/
def copyBlocks (size w : Nat) : Nat → Nat → Nat → (Nat → α) → Option (Nat → α)
  | 0, _, _, b => some b
  | n + 1, dst, src, b =>
    if dst + w ≤ size ∧ src + w ≤ size then
      copyBlocks size w n (dst + w) (src + w) (paste b dst w fun i => b (src + i))
    else none

/-- Copying upwards to a lower place moves the characters. -/
theorem copyBlocks_eq (hle : dst ≤ src) (hsize : src + n * w ≤ size) :
    copyBlocks size w n dst src b = some (paste b dst (n * w) fun i => b (src + i)) := by
  induction n generalizing dst src b with
  | zero => simp [copyBlocks]
  | succ n ih =>
    rw [Nat.succ_mul] at hsize ⊢
    rw [copyBlocks, if_pos (by omega), ih (by omega) (by omega)]
    rw [source_paste hle, paste_paste, Nat.add_comm w]

theorem copyBlocks_none (hle : dst ≤ src) (hn : 0 < n) (hsize : size < src + n * w) :
    copyBlocks size w n dst src b = none := by
  induction n generalizing dst src b with
  | zero => omega
  | succ n ih =>
    rw [Nat.succ_mul] at hsize
    rw [copyBlocks]
    split
    · next hin =>
      obtain rfl | hpos := Nat.eq_zero_or_pos n
      · omega
      · exact ih (by omega) hpos (by omega)
    · rfl

/-- Copy `n` characters one by one, downwards. -/
def copyDown (size : Nat) (dst src : Nat) : Nat → (Nat → α) → Option (Nat → α)
  | 0, b => some b
  | n + 1, b => do
    let c ← read size b (src + n)
    let b ← write size b (dst + n) c
    copyDown size dst src n b

/-- Copying downwards to a higher place moves the characters. -/
theorem copyDown_eq (hle : src ≤ dst) (hsize : dst + n ≤ size) :
    copyDown size dst src n b = some (paste b dst n fun i => b (src + i)) := by
  induction n generalizing b with
  | zero => simp [copyDown]
  | succ n ih =>
    rw [copyDown, read_of_lt (by omega)]
    simp only [Option.bind_eq_bind, Option.bind_some]
    rw [write_of_lt _ (by omega), Option.bind_some, ih (by omega)]
    refine congrArg some (funext fun i => ?_)
    by_cases hlo : i < dst
    · rw [paste_of_lt hlo, paste_of_lt hlo, Function.update_of_ne (by omega)]
    · obtain ⟨k, rfl⟩ := Nat.exists_eq_add_of_le (Nat.le_of_not_lt hlo)
      rcases Nat.lt_trichotomy k n with hk | rfl | hk
      · rw [paste_of_mem hk, paste_of_mem (by omega), Function.update_of_ne (by omega)]
      · rw [paste_of_ge le_rfl, Function.update_self, paste_of_mem (by omega)]
      · rw [paste_of_ge (by omega), paste_of_ge (by omega), Function.update_of_ne (by omega)]

/-! ## Copying without bounds -/

/-- Copy `n` blocks of `w` characters, upwards; each is read before it is written. -/
def moveBlocks (w : Nat) : Nat → Nat → Nat → (Nat → α) → Nat → α
  | 0, _, _, b => b
  | n + 1, dst, src, b => moveBlocks w n (dst + w) (src + w) (paste b dst w fun i => b (src + i))

/-- Copy `n` characters one by one, downwards. -/
def moveDown (dst src : Nat) : Nat → (Nat → α) → Nat → α
  | 0, b => b
  | n + 1, b => moveDown dst src n (Function.update b (dst + n) (b (src + n)))

/-- Within the buffer the bounds make no difference. -/
theorem copyBlocks_eq_moveBlocks (hdst : dst + n * w ≤ size) (hsrc : src + n * w ≤ size) :
    copyBlocks size w n dst src b = some (moveBlocks w n dst src b) := by
  induction n generalizing dst src b with
  | zero => rfl
  | succ n ih =>
    rw [Nat.succ_mul] at hdst hsrc
    rw [copyBlocks, if_pos (by omega), ih (by omega) (by omega), moveBlocks]

theorem copyDown_eq_moveDown (hdst : dst + n ≤ size) (hsrc : src + n ≤ size) :
    copyDown size dst src n b = some (moveDown dst src n b) := by
  induction n generalizing b with
  | zero => rfl
  | succ n ih =>
    rw [copyDown, read_of_lt (by omega), moveDown]
    simp only [Option.bind_eq_bind, Option.bind_some]
    rw [write_of_lt _ (by omega), Option.bind_some, ih (by omega) (by omega)]

/-- **Blocks copied upwards** are moved, to a lower place or to one that does not overlap: no block is written
over one that is still to be read. -/
theorem moveBlocks_eq (h : dst ≤ src ∨ src + n * w ≤ dst) :
    moveBlocks w n dst src b = paste b dst (n * w) fun i => b (src + i) := by
  induction n generalizing dst src b with
  | zero => simp [moveBlocks]
  | succ n ih =>
    rw [Nat.succ_mul] at h ⊢
    have hsource : ∀ i, i < n * w → paste b dst w (fun i => b (src + i)) (src + w + i) = b (src + (w + i)) := by
      intro i hi
      rw [Nat.add_assoc src]
      rcases h with hlow | hapart
      · exact paste_of_ge (by omega)
      · exact paste_of_lt (by omega)
    rw [moveBlocks, ih (by omega), paste_congr hsource, Nat.add_comm (n * w)]
    exact @paste_paste _ b (n * w) w dst fun i => b (src + i)

theorem moveDown_eq (h : src ≤ dst) : moveDown dst src n b = paste b dst n fun i => b (src + i) := by
  have hcopy := copyDown_eq (b := b) (n := n) h (Nat.le_refl (dst + n))
  rw [copyDown_eq_moveDown (Nat.le_refl _) (by omega)] at hcopy
  exact Option.some.inj hcopy

end ChenixOS.Buffer
