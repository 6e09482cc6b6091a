import ChenixOS.Klib.Itoa
import ChenixOS.Lib.Transitions

/-!
# `StringBuffer`

The kernel's growing string (include/stl/stringbuffer.h): a block of `capacity` bytes with a string in it, the length
of which is counted anew at every call. **Theorem (`run_concat`).** As long as no string of the buffer is appended to
itself, no negative number is appended and the length fits an `int`, the buffer holds the concatenation of what was
appended. `to_string` copies the characters alone, so its copy is a string **exactly** if the new block ends with a
zero by chance.
-/

namespace ChenixOS

open Buffer Transitions

variable {size pos : Nat} {bytes fresh : Nat → UInt8} {s t : List UInt8}

/-! ## C strings -/

namespace Klib

/-- The index runs through the values of an `int`. -/
def kstrlen (size : Nat) (a : Nat → UInt8) (pos : Nat) : Option Nat :=
  count size (fun c => decide (c ≠ 0)) a pos (2 ^ 31) 0

theorem kstrlen_eq (h : Holds 0 bytes pos s) (hlt : pos + s.length < size) (hint : s.length < 2 ^ 31) :
    kstrlen size bytes pos = some s.length :=
  count_eq (Nat.zero_le _) (fun i _ hi => by simpa using h.ne_end hi) (by simpa using h.ends) hlt (by omega)

theorem kstrlen_some {n : Nat} (h : Holds 0 bytes pos s) (hlen : kstrlen size bytes pos = some n) :
    s.length = n ∧ n < 2 ^ 31 := by
  obtain ⟨⟨-, hlt⟩, hpass, hend⟩ := count_spec hlen
  rw [decide_eq_false_iff_not, Ne, Decidable.not_not] at hend
  refine ⟨?_, by omega⟩
  rcases Nat.lt_trichotomy s.length n with hsn | rfl | hns
  · have hne := hpass s.length (Nat.zero_le _) hsn
    rw [h.ends] at hne
    exact absurd hne (by decide)
  · rfl
  · exact absurd hend (h.ne_end hns)

end Klib

open Klib

/-- What `new char[size]` gives; the block comes with what was in that memory before. -/
structure Block where
  size : Nat
  bytes : Nat → UInt8

structure StringBuffer where
  buffer : Block
  capacity : Nat

/-- Where a string to be appended is: elsewhere in memory, or in the buffer itself. -/
inductive Source where
  | outside (bytes : Nat → UInt8)
  | inside (pos : Nat)

namespace Block

/-- `kmemcpy` from memory that does not overlap the block. -/
def copyFrom (b : Block) (dst n : Nat) (src : Nat → UInt8) : Option Block :=
  if dst + n ≤ b.size then some { b with bytes := paste b.bytes dst n src } else none

/-- `kmemcpy` from one place of the block to another: quad words first, then the bytes that are left. -/
def copyWithin (b : Block) (dst src n : Nat) : Option Block := do
  let bytes ← copyBlocks b.size 8 (n / 8) dst src b.bytes
  let bytes ← copyBlocks b.size 1 (n % 8) (dst + n / 8 * 8) (src + n / 8 * 8) bytes
  some { b with bytes }

end Block

namespace StringBuffer

/-! ## The code -/

def construct (fresh : Nat → UInt8) : StringBuffer := ⟨⟨10, Function.update fresh 0 0⟩, 10⟩

def count (sb : StringBuffer) : Option Nat := kstrlen sb.buffer.size sb.buffer.bytes 0

def cStr (sb : StringBuffer) : Nat → UInt8 := sb.buffer.bytes

/-- `strlen(buffer) + 1` is an `int`. -/
def resize (sb : StringBuffer) (newCapacity : Nat) (fresh : Nat → UInt8) : Option StringBuffer := do
  let len ← sb.count
  if len + 1 < 2 ^ 31 ∧ len + 1 ≤ sb.buffer.size then
    let newBuffer ← Block.copyFrom ⟨newCapacity, fresh⟩ 0 (len + 1) sb.buffer.bytes
    some ⟨newBuffer, newCapacity⟩
  else none

def strlen (sb : StringBuffer) : Source → Option Nat
  | .outside bytes => kstrlen (2 ^ 31) bytes 0
  | .inside pos => kstrlen sb.buffer.size sb.buffer.bytes pos

/-- The growth of `append`. -/
def grow (sb : StringBuffer) (grows : Bool) (len : Nat) (fresh : Nat → UInt8) : Option StringBuffer :=
  if grows then sb.resize (if sb.capacity = 0 then 1 else sb.capacity + len + 2) fresh else some sb

/-- The `memcpy` of `append`; a string of the buffer itself is in the block that the growth gave back, if there was
one. -/
def copyIn (sb : StringBuffer) (grows : Bool) (dst n : Nat) : Source → Option Block
  | .outside bytes => sb.buffer.copyFrom dst n bytes
  | .inside pos => if grows then none else sb.buffer.copyWithin dst pos n

def append (sb : StringBuffer) (str : Source) (fresh : Nat → UInt8) : Option StringBuffer := do
  let len ← sb.strlen str
  let count ← sb.count
  let grows := decide (sb.capacity < len + count + 1)
  let sb ← sb.grow grows len fresh
  let count ← sb.count
  let buffer ← sb.copyIn grows count (len + 1) str
  some { sb with buffer }

def putc (sb : StringBuffer) (ch : UInt8) (fresh : Nat → UInt8) : Option StringBuffer :=
  sb.append (.outside fun i => if i = 0 then ch else 0) fresh

/-- `append(int)`; `buf` is what was on the stack. -/
def appendInt (sb : StringBuffer) (num : Int) (buf fresh : Nat → UInt8) : Option StringBuffer := do
  let str ← Itoa.itoa num buf 10
  sb.append (.outside str) fresh

/-- `copy`, of another buffer or of the buffer itself. -/
def copy (sb : StringBuffer) (src : Option StringBuffer) (fresh : Nat → UInt8) : Option StringBuffer :=
  match src with
  | some src => sb.append (.outside src.cStr) fresh
  | none => sb.append (.inside 0) fresh

/-- `to_string`, with the block that it is given. -/
def toString (sb : StringBuffer) (fresh : Nat → UInt8) : Option Block := do
  let len ← sb.count
  if len + 1 < 2 ^ 31 then Block.copyFrom ⟨len + 1, fresh⟩ 0 len sb.buffer.bytes else none

/-! ## What a buffer holds -/

/-- The buffer holds the string `t`, and room for it. -/
structure Has (sb : StringBuffer) (t : List UInt8) : Prop where
  holds : Holds 0 sb.buffer.bytes 0 t
  fits : t.length < sb.capacity
  size : sb.buffer.size = sb.capacity

variable {sb : StringBuffer} {n : Nat}

theorem has_construct : (construct fresh).Has [] where
  holds := .nil (Function.update_self 0 0 fresh)
  fits := Nat.zero_lt_succ 9
  size := rfl

theorem Has.count (h : sb.Has t) (hint : t.length < 2 ^ 31) : sb.count = some t.length :=
  kstrlen_eq h.holds (by rw [Nat.zero_add, h.size]; exact h.fits) hint

theorem Has.resize (fresh : Nat → UInt8) (h : sb.Has t) {newCapacity : Nat} (hint : t.length + 1 < 2 ^ 31)
    (hfits : t.length < newCapacity) :
    ∃ sb', sb.resize newCapacity fresh = some sb' ∧ sb'.capacity = newCapacity ∧ sb'.Has t := by
  have hsize : t.length + 1 ≤ sb.buffer.size := h.size ▸ h.fits
  have hroom : 0 + (t.length + 1) ≤ newCapacity := by omega
  refine ⟨⟨⟨newCapacity, paste fresh 0 (t.length + 1) sb.buffer.bytes⟩, newCapacity⟩, ?_, rfl, ?_, hfits, rfl⟩
  · rw [StringBuffer.resize, h.count (by omega), Option.bind_eq_bind, Option.bind_some, if_pos ⟨hint, hsize⟩,
      Block.copyFrom, if_pos hroom]
    rfl
  · refine h.holds.congr fun i hi => ?_
    dsimp only
    rw [paste_of_mem (by omega), Nat.zero_add]

/-- Behind the growth there is room for the string. -/
theorem Has.grow (fresh : Nat → UInt8) (h : sb.Has t)
    (hint : sb.capacity < s.length + t.length + 1 → t.length + 1 < 2 ^ 31) :
    ∃ sb', sb.grow (decide (sb.capacity < s.length + t.length + 1)) s.length fresh = some sb' ∧
      t.length + s.length < sb'.capacity ∧ sb'.Has t := by
  have hfits := h.fits
  by_cases hgrows : sb.capacity < s.length + t.length + 1
  · have hcap : (if sb.capacity = 0 then 1 else sb.capacity + s.length + 2) = sb.capacity + s.length + 2 :=
      if_neg (by omega)
    obtain ⟨sb', hresize, hnew, hhas⟩ := h.resize fresh (hint hgrows)
      (by omega : t.length < sb.capacity + s.length + 2)
    exact ⟨sb', by rw [StringBuffer.grow, if_pos (decide_eq_true hgrows), hcap, hresize], by omega, hhas⟩
  · exact ⟨sb, by rw [StringBuffer.grow, decide_eq_false hgrows]; rfl, by omega, h⟩

theorem append_eq {sb₁ : StringBuffer} {str : Source} {len n n₁ : Nat} {b : Block} (hlen : sb.strlen str = some len)
    (hcount : sb.count = some n) (hgrow : sb.grow (decide (sb.capacity < len + n + 1)) len fresh = some sb₁)
    (hcount₁ : sb₁.count = some n₁)
    (hcopy : sb₁.copyIn (decide (sb.capacity < len + n + 1)) n₁ (len + 1) str = some b) :
    sb.append str fresh = some { sb₁ with buffer := b } := by
  simp only [append, hlen, hcount, hgrow, hcount₁, hcopy, Option.bind_eq_bind, Option.bind_some]

/-- **A string from elsewhere is put behind the one in the buffer**, after a growth or without one. -/
theorem Has.append_of (fresh : Nat → UInt8) (h : sb.Has t) (hs : Holds 0 bytes 0 s) (ht : t.length < 2 ^ 31)
    (hslen : s.length < 2 ^ 31) (hint : sb.capacity < s.length + t.length + 1 → t.length + 1 < 2 ^ 31) :
    ∃ sb', sb.append (.outside bytes) fresh = some sb' ∧ sb'.Has (t ++ s) := by
  have hlen : sb.strlen (.outside bytes) = some s.length := kstrlen_eq hs (by omega) (by omega)
  obtain ⟨sb₁, hgrow, hroom, hhas⟩ := h.grow fresh hint
  have hcopy : sb₁.copyIn (decide (sb.capacity < s.length + t.length + 1)) t.length (s.length + 1) (.outside bytes) =
      some ⟨sb₁.buffer.size, paste sb₁.buffer.bytes t.length (s.length + 1) bytes⟩ :=
    if_pos (by rw [hhas.size]; omega)
  refine ⟨_, append_eq hlen (h.count (by omega)) hgrow (hhas.count (by omega)) hcopy, ?_, ?_, hhas.size⟩
  · have hholds := hhas.holds.paste hs
    rw [Nat.zero_add] at hholds
    exact hholds
  · rw [List.length_append]
    exact hroom

theorem Has.append (fresh : Nat → UInt8) (h : sb.Has t) (hs : Holds 0 bytes 0 s)
    (hint : t.length + s.length < 2 ^ 31) :
    ∃ sb', sb.append (.outside bytes) fresh = some sb' ∧ sb'.Has (t ++ s) :=
  h.append_of fresh hs (by omega) (by omega) fun hgrows => by
    have hfits := h.fits
    omega

/-- What was counted is the length of the buffer's text. -/
theorem Has.length_of_count (h : sb.Has t) (hcount : sb.count = some n) : t.length = n ∧ t.length < 2 ^ 31 := by
  obtain ⟨hlen, hlt⟩ := kstrlen_some h.holds hcount
  exact ⟨hlen, by omega⟩

/-- **Whenever a string is appended** it is behind the text, also where that cannot be counted any more. -/
theorem Has.of_append {sb' : StringBuffer} (h : sb.Has t) (hs : Holds 0 bytes 0 s)
    (happend : sb.append (.outside bytes) fresh = some sb') : sb'.Has (t ++ s) := by
  have happ := happend
  rw [StringBuffer.append] at happ
  obtain ⟨len, hlen, happ⟩ := Option.bind_eq_some_iff.1 happ
  obtain ⟨n, hcount, happ⟩ := Option.bind_eq_some_iff.1 happ
  obtain ⟨sb₁, hgrow, -⟩ := Option.bind_eq_some_iff.1 happ
  obtain ⟨hslen, hs31⟩ := kstrlen_some hs hlen
  obtain ⟨hn, ht⟩ := h.length_of_count hcount
  subst hslen hn
  have hint : sb.capacity < s.length + t.length + 1 → t.length + 1 < 2 ^ 31 := by
    intro hgrows
    by_contra hge
    rw [StringBuffer.grow, if_pos (decide_eq_true hgrows), StringBuffer.resize, hcount, Option.bind_eq_bind,
      Option.bind_some, if_neg fun hroom => hge hroom.1] at hgrow
    cases hgrow
  obtain ⟨sb₂, happend₂, hhas⟩ := h.append_of fresh hs ht (by omega) hint
  rw [happend] at happend₂
  cases happend₂
  exact hhas

/-- The empty string at the end of the buffer. -/
theorem Has.append_end (fresh : Nat → UInt8) (h : sb.Has t) (hint : t.length < 2 ^ 31) :
    ∃ sb', sb.append (.inside t.length) fresh = some sb' ∧ sb'.Has t := by
  have hend : sb.buffer.bytes t.length = 0 := Nat.zero_add t.length ▸ h.holds.ends
  have hroom : t.length + 1 ≤ sb.buffer.size := h.size ▸ h.fits
  have hlen : sb.strlen (.inside t.length) = some [].length :=
    kstrlen_eq (.nil hend) hroom (by decide)
  have hgrows : decide (sb.capacity < ([] : List UInt8).length + t.length + 1) = false :=
    decide_eq_false (by rw [← h.size, List.length_nil]; omega)
  have hcopy : sb.copyIn (decide (sb.capacity < ([] : List UInt8).length + t.length + 1)) t.length
      (([] : List UInt8).length + 1) (.inside t.length) = some sb.buffer := by
    rw [hgrows, copyIn, if_neg Bool.false_ne_true, Block.copyWithin, copyBlocks_eq le_rfl (by simp; omega),
      Option.bind_eq_bind, Option.bind_some, paste_self, copyBlocks_eq le_rfl (by simp; omega), Option.bind_some,
      paste_self]
  refine ⟨sb, append_eq hlen (h.count hint) ?_ (h.count hint) hcopy, h⟩
  rw [hgrows]
  rfl

theorem Has.putc {ch : UInt8} (fresh : Nat → UInt8) (h : sb.Has t) (hch : ch ≠ 0) (hint : t.length + 1 < 2 ^ 31) :
    ∃ sb', sb.putc ch fresh = some sb' ∧ sb'.Has (t ++ [ch]) :=
  h.append fresh (.singleton rfl rfl hch) hint

/-- **A number that is not negative** is appended as its decimal text. -/
theorem Has.appendInt {num : Int} (buf fresh : Nat → UInt8) (h : sb.Has t) (hnum : 0 ≤ num) (hmax : num < 2 ^ 31)
    (hint : t.length + (Itoa.text 10 num).length < 2 ^ 31) :
    ∃ sb', sb.appendInt num buf fresh = some sb' ∧ sb'.Has (t ++ Itoa.text 10 num) := by
  obtain ⟨n, rfl⟩ := Int.eq_ofNat_of_zero_le hnum
  obtain ⟨str, hstr, hholds⟩ := Itoa.itoa_decimal buf (by omega : n < 2 ^ 31)
  obtain ⟨sb', happend, hhas⟩ := h.append fresh hholds hint
  exact ⟨sb', by rw [StringBuffer.appendInt, hstr, Option.bind_eq_bind, Option.bind_some, happend], hhas⟩

/-- The copy is a string exactly if the byte behind its characters was a zero. -/
theorem Has.toString_iff (h : sb.Has t) (hint : t.length + 1 < 2 ^ 31) :
    (∃ copy, sb.toString fresh = some copy ∧ copy.size = t.length + 1 ∧ Holds 0 copy.bytes 0 t) ↔
      fresh t.length = 0 := by
  have hroom : 0 + t.length ≤ t.length + 1 := by omega
  have hcopy : sb.toString fresh = some ⟨t.length + 1, paste fresh 0 t.length sb.buffer.bytes⟩ := by
    rw [StringBuffer.toString, h.count (by omega), Option.bind_eq_bind, Option.bind_some, if_pos hint]
    exact if_pos hroom
  have hend : paste fresh 0 t.length sb.buffer.bytes (0 + t.length) = fresh t.length := by
    rw [paste_of_ge le_rfl, Nat.zero_add]
  rw [hcopy]
  constructor
  · rintro ⟨_, hsome, -, hholds⟩
    cases hsome
    exact hend.symm.trans hholds.ends
  · intro hzero
    refine ⟨_, rfl, rfl, fun i hi => ?_, hend.trans hzero, h.holds.clean⟩
    dsimp only
    rw [paste_of_mem hi, ← h.holds.chars i hi, Nat.zero_add]

/-! ## Runs -/

/-- The calls; `fresh` is the memory that `new` gives, `buf` what was on the stack. -/
inductive Call where
  | append (str : Source) (fresh : Nat → UInt8)
  | putc (ch : UInt8) (fresh : Nat → UInt8)
  | appendInt (num : Int) (buf fresh : Nat → UInt8)
  | copy (src : Option StringBuffer) (fresh : Nat → UInt8)

def step (sb : StringBuffer) : Call → Option StringBuffer
  | .append str fresh => sb.append str fresh
  | .putc ch fresh => sb.putc ch fresh
  | .appendInt num buf fresh => sb.appendInt num buf fresh
  | .copy src fresh => sb.copy src fresh

/-- The text that a call is to append to the text `t`. -/
inductive Appends (t : List UInt8) : Call → List UInt8 → Prop where
  | outside {bytes fresh : Nat → UInt8} {s : List UInt8} : Holds 0 bytes 0 s →
      Appends t (.append (.outside bytes) fresh) s
  | inside {pos : Nat} {fresh : Nat → UInt8} : pos ≤ t.length → Appends t (.append (.inside pos) fresh) (t.drop pos)
  | putc {ch : UInt8} {fresh : Nat → UInt8} : ch ≠ 0 → Appends t (.putc ch fresh) [ch]
  | appendInt {num : Int} {buf fresh : Nat → UInt8} : -2 ^ 31 ≤ num → num < 2 ^ 31 →
      Appends t (.appendInt num buf fresh) (Itoa.text 10 num)
  | copy {src : StringBuffer} {fresh : Nat → UInt8} {s : List UInt8} : src.Has s → Appends t (.copy (some src) fresh) s
  | copySelf {fresh : Nat → UInt8} : Appends t (.copy none fresh) t

/-- The calls that keep to what `append` can do: no text of the buffer itself, no negative number, and no more
characters than an `int` counts. -/
def Safe (t : List UInt8) (call : Call) (s : List UInt8) : Prop :=
  t.length + s.length + 1 < 2 ^ 31 ∧
    match call with
    | .append (.inside _) _ => s = []
    | .copy none _ => s = []
    | .appendInt num _ _ => 0 ≤ num
    | _ => True

/-- The calls, each of them allowed by `ok`, and the concatenation of their texts. -/
inductive Concat (ok : List UInt8 → Call → List UInt8 → Prop) : List Call → List UInt8 → Prop where
  | nil : Concat ok [] []
  | snoc {calls : List Call} {call : Call} {s t : List UInt8} : Concat ok calls t → Appends t call s → ok t call s →
      Concat ok (calls ++ [call]) (t ++ s)

/-- **A call appends its text.** -/
theorem Has.step {call : Call} (h : sb.Has t) (happ : Appends t call s) (hsafe : Safe t call s) :
    ∃ sb', sb.step call = some sb' ∧ sb'.Has (t ++ s) := by
  obtain ⟨hint, hcall⟩ := hsafe
  cases happ with
  | outside hs => exact h.append _ hs (by omega)
  | @inside pos _ hpos =>
    obtain rfl : pos = t.length := Nat.le_antisymm hpos (List.drop_eq_nil_iff.1 hcall)
    rw [List.drop_length, List.append_nil]
    exact h.append_end _ (by omega)
  | putc hch => exact h.putc _ hch (by rw [List.length_singleton] at hint; omega)
  | appendInt _ hmax => exact h.appendInt _ _ hcall hmax (by omega)
  | copy hsrc => exact h.append _ hsrc.holds (by omega)
  | copySelf =>
    cases hcall
    exact h.append_end _ (by decide)

/-- **Every run of safe calls** leaves the concatenation of the texts in the buffer, with room for it; and the copy
that `to_string` makes is the same string exactly if the new block has a zero behind the characters already. -/
theorem run_concat {calls : List Call} {t : List UInt8} (h : Concat Safe calls t) :
    ∃ sb, exec step calls (construct fresh) = some sb ∧ sb.Has t ∧ sb.count = some t.length ∧
      ∀ fresh', (∃ copy, sb.toString fresh' = some copy ∧ copy.size = t.length + 1 ∧ Holds 0 copy.bytes 0 t) ↔
        fresh' t.length = 0 := by
  have hrun : ∃ sb, exec step calls (construct fresh) = some sb ∧ sb.Has t ∧ t.length + 1 < 2 ^ 31 := by
    induction h with
    | nil => exact ⟨_, rfl, has_construct, by decide⟩
    | snoc _ happ hsafe ih =>
      obtain ⟨sb, hexec, hhas, -⟩ := ih
      obtain ⟨sb', hstep, hhas'⟩ := hhas.step happ hsafe
      exact ⟨sb', (exec_snoc _ hexec).trans hstep, hhas', by rw [List.length_append]; exact hsafe.1⟩
  obtain ⟨sb, hexec, hhas, hint⟩ := hrun
  exact ⟨sb, hexec, hhas, hhas.count (by omega), fun _ => hhas.toString_iff hint⟩

/-- A text that makes the buffer grow, and a number behind it. -/
theorem run_concat_grown : ∃ sb, exec step [.putc 112 fun _ => 7, .appendInt 42 (fun _ => 0) fun _ => 7]
    (construct fun _ => 7) = some sb ∧ sb.Has [112, 52, 50] ∧ sb.count = some 3 ∧
      ∀ fresh', (∃ copy, sb.toString fresh' = some copy ∧ copy.size = 4 ∧ Holds 0 copy.bytes 0 [112, 52, 50]) ↔
        fresh' 3 = 0 :=
  run_concat (.snoc (.snoc .nil (.putc (by decide)) ⟨by decide, trivial⟩)
    (.appendInt (by decide) (by decide)) ⟨by decide, by decide⟩)

/-- The copy of an empty buffer is whatever byte the new block has. -/
theorem toString_unterminated : ¬∀ (fresh : Nat → UInt8) (calls : List Call) (t : List UInt8),
    Concat (fun _ _ _ => True) calls t → ∃ sb, exec step calls (construct fresh) = some sb ∧ sb.Has t ∧
      sb.count = some t.length ∧
      ∀ fresh', ∃ copy, sb.toString fresh' = some copy ∧ copy.size = t.length + 1 ∧ Holds 0 copy.bytes 0 t := by
  intro h
  obtain ⟨sb, hexec, hhas, -, hcopy⟩ := h (fun _ => 0) [] [] .nil
  exact absurd ((hhas.toString_iff (by decide)).1 (hcopy fun _ => 120)) (by decide)

end StringBuffer

end ChenixOS
