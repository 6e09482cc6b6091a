import ChenixOS.Klib.Format
import ChenixOS.Klib.StringBuffer

/-!
# Printing numbers

`PrintStringPadded`, `PrintInt64Base` and `PrintUInt64Base`, of which klib/stdio.cpp, klib/ksprintf.cpp and
klib/kfprintf.cpp each have a copy that differs in where it prints to (`Channel`). The digits are written backwards into
128 bytes, after a negation that the least `int64` does not survive. **Theorem (`printInts_iff`).** A number is printed
as it should be exactly if it is not that one and its text with the sign has at most 127 characters.
-/

namespace ChenixOS.Printf

open Numerals Buffer Loop Itoa Klib

variable {ω : Type} {fmt : Format} {s t : List UInt8} {str : Nat → UInt8} {c : UInt8} {n : Nat}

/-! ## Channels -/

/-- Where a formatter prints to: `PrintString`, with the length it is given, and what it prints one character with. -/
structure Channel (ω : Type) where
  string : (Nat → UInt8) → Int → ω → Option ω
  char : UInt8 → ω → Option ω

/-- The calls of the terminal. -/
inductive TerminalCall where
  | putChar (c : UInt8) (color : Nat)
  | newLine
deriving DecidableEq

/-- The loop body of `PrintString` in klib/stdio.cpp. -/
def terminalCall (color : Nat) (c : UInt8) : TerminalCall := if c = 10 then .newLine else .putChar c color

/-- klib/stdio.cpp prints up to the end of the string. -/
def terminal (color : Nat) : Channel (List TerminalCall) where
  string str _ out := do
    let len ← kstrlen (2 ^ 31) str 0
    some (out ++ (slice str 0 len).map (terminalCall color))
  char c out := some (out ++ [.putChar c color])

/-- klib/kfprintf.cpp gives the length to `VFS::Write`, as a `uint64`. -/
def file : Channel (List UInt8) where
  string str l out := some (out ++ slice str 0 (l % 2 ^ 64).toNat)
  char c out := some (out ++ [c])

/-- klib/ksprintf.cpp appends the string as a whole; `new` says what is in the memory that a growth is given. -/
def stringBuffer (new : StringBuffer → Nat → UInt8) : Channel StringBuffer where
  string str _ sb := sb.append (.outside str) (new sb)
  char c sb := sb.putc c (new sb)

variable {ch : Channel ω} {R : ω → List UInt8 → Prop} {o : ω}

/-- A channel whose state `o` holds the text `t` if `R o t` puts strings and characters behind it, up to the length
that an `int` can count. -/
structure Channel.Writes (ch : Channel ω) (R : ω → List UInt8 → Prop) : Prop where
  string {o : ω} {s t : List UInt8} {str : Nat → UInt8} : R o t → Holds 0 str 0 s → (t ++ s).length < 2 ^ 31 →
    ∃ o', ch.string str s.length o = some o' ∧ R o' (t ++ s)
  char {o : ω} {t : List UInt8} {c : UInt8} : R o t → c ≠ 0 → c ≠ 10 → (t ++ [c]).length < 2 ^ 31 →
    ∃ o', ch.char c o = some o' ∧ R o' (t ++ [c])

theorem terminal_writes (color : Nat) (out₀ : List TerminalCall) :
    (terminal color).Writes fun out t => out = out₀ ++ t.map (terminalCall color) where
  string := by
    rintro _ s t str rfl hs hint
    have hlen : s.length < 2 ^ 31 := Nat.lt_of_le_of_lt (by simp) hint
    have hcount : kstrlen (2 ^ 31) str 0 = some s.length := kstrlen_eq hs (by rwa [Nat.zero_add]) hlen
    refine ⟨_, ?_, rfl⟩
    simp only [terminal, hcount, Option.bind_eq_bind, Option.bind_some, (holds_iff_slice.1 hs).1, List.map_append,
      List.append_assoc]
  char := by
    rintro _ t c rfl _ hc _
    refine ⟨_, ?_, rfl⟩
    simp [terminal, terminalCall, hc]

theorem file_writes (out₀ : List UInt8) : file.Writes fun out t => out = out₀ ++ t where
  string := by
    rintro _ s t str rfl hs hint
    have hlen : s.length < 2 ^ 31 := Nat.lt_of_le_of_lt (by simp) hint
    have hnat : ((s.length : Int) % 2 ^ 64).toNat = s.length := by omega
    exact ⟨_, by simp only [file, hnat, (holds_iff_slice.1 hs).1], List.append_assoc ..⟩
  char := by
    rintro _ t c rfl _ _ _
    exact ⟨_, rfl, List.append_assoc ..⟩

theorem stringBuffer_writes (new : StringBuffer → Nat → UInt8) : (stringBuffer new).Writes StringBuffer.Has where
  string h hs hint := h.append _ hs (by rwa [List.length_append] at hint)
  char h hc _ hint := h.putc _ hc (by rwa [List.length_append] at hint)

/-! ## Padding -/

theorem length_left_lt (h : (s ++ t).length < n) : s.length < n := by
  rw [List.length_append] at h
  omega

def printTimes (ch : Channel ω) (c : UInt8) : Nat → ω → Option ω
  | 0, o => some o
  | n + 1, o => do
    let o ← ch.char c o
    printTimes ch c n o

/-- `for(int i = 0; i < length; i++)` -/
def printPadding (ch : Channel ω) (length : Int) (padWithZeroes : Bool) (o : ω) : Option ω :=
  printTimes ch (if padWithZeroes then 48 else 32) length.toNat o

def printStringPadded (ch : Channel ω) (str : Nat → UInt8) (length : Int) (fmt : Format) (o : ω) : Option ω :=
  if length < fmt.minWidth then
    if fmt.leftJustify then do
      let o ← ch.string str length o
      printPadding ch (int32 (fmt.minWidth - length)) false o
    else do
      let o ← printPadding ch (int32 (fmt.minWidth - length)) fmt.leftPadWithZeroes o
      ch.string str length o
  else ch.string str length o

/-- A text padded to the width: behind it with spaces, or before it with spaces or zeros. -/
def padded (fmt : Format) (s : List UInt8) : List UInt8 :=
  if fmt.leftJustify then s ++ List.replicate (fmt.minWidth - s.length).toNat 32
  else List.replicate (fmt.minWidth - s.length).toNat (if fmt.leftPadWithZeroes then 48 else 32) ++ s

theorem printTimes_writes (hw : ch.Writes R) (h : R o t) (hc : c ≠ 0) (hnl : c ≠ 10)
    (hint : (t ++ List.replicate n c).length < 2 ^ 31) :
    ∃ o', printTimes ch c n o = some o' ∧ R o' (t ++ List.replicate n c) := by
  induction n generalizing o t with
  | zero => exact ⟨o, rfl, by rwa [List.replicate_zero, List.append_nil]⟩
  | succ n ih =>
    rw [List.replicate_succ, List.append_cons] at hint ⊢
    obtain ⟨o₁, hchar, h₁⟩ := hw.char h hc hnl (length_left_lt hint)
    obtain ⟨o₂, hrest, h₂⟩ := ih h₁ hint
    exact ⟨o₂, by rw [printTimes, hchar, Option.bind_eq_bind, Option.bind_some, hrest], h₂⟩

theorem int32_of_lt {x : Int} (hlo : 0 ≤ x) (hhi : x < 2 ^ 31) : int32 x = x := by
  unfold int32
  omega

theorem length_padded : (padded fmt s).length = s.length + (fmt.minWidth - s.length).toNat := by
  unfold padded
  split_ifs <;> simp [Nat.add_comm]

theorem padded_of_le (hle : fmt.minWidth ≤ s.length) : padded fmt s = s := by
  unfold padded
  rw [Int.toNat_of_nonpos (by omega)]
  split_ifs <;> simp

theorem printPadding_writes (hw : ch.Writes R) (h : R o t) (length : Int) (zeros : Bool) (hmax : length < 2 ^ 31)
    (hint : (t ++ List.replicate length.toNat (if zeros then 48 else 32)).length < 2 ^ 31) (hpos : 0 ≤ length) :
    ∃ o', printPadding ch (int32 length) zeros o = some o' ∧
      R o' (t ++ List.replicate length.toNat (if zeros then 48 else 32)) := by
  rw [printPadding, int32_of_lt hpos hmax]
  refine printTimes_writes hw h ?_ ?_ hint <;> split_ifs <;> decide

/-- **A string is printed padded.** -/
theorem printStringPadded_writes (hw : ch.Writes R) (h : R o t) (hs : Holds 0 str 0 s) (hmin : fmt.minWidth < 2 ^ 31)
    (hint : (t ++ padded fmt s).length < 2 ^ 31) :
    ∃ o', printStringPadded ch str s.length fmt o = some o' ∧ R o' (t ++ padded fmt s) := by
  rw [printStringPadded]
  by_cases hlt : (s.length : Int) < fmt.minWidth
  · rw [if_pos hlt]
    by_cases hleft : fmt.leftJustify
    · rw [padded, if_pos hleft, ← List.append_assoc] at hint
      rw [padded, if_pos hleft, if_pos hleft, ← List.append_assoc]
      obtain ⟨o₁, hstring, h₁⟩ := hw.string h hs (length_left_lt hint)
      obtain ⟨o₂, hpad, h₂⟩ := printPadding_writes hw h₁ (fmt.minWidth - s.length) false (by omega) hint
        (by omega)
      exact ⟨o₂, by rw [hstring, Option.bind_eq_bind, Option.bind_some, hpad], h₂⟩
    · rw [padded, if_neg hleft, ← List.append_assoc] at hint
      rw [padded, if_neg hleft, if_neg hleft, ← List.append_assoc]
      obtain ⟨o₁, hpad, h₁⟩ := printPadding_writes hw h (fmt.minWidth - s.length) fmt.leftPadWithZeroes (by omega)
        (length_left_lt hint) (by omega)
      obtain ⟨o₂, hstring, h₂⟩ := hw.string h₁ hs hint
      exact ⟨o₂, by rw [hpad, Option.bind_eq_bind, Option.bind_some, hstring], h₂⟩
  · rw [if_neg hlt]
    rw [padded_of_le (by omega)] at hint ⊢
    exact hw.string h hs hint

/-! ## Numbers -/

/-- An `int64` after an operation whose result need not fit. -/
def int64 (x : Int) : Int := (x + 2 ^ 63) % 2 ^ 64 - 2 ^ 63

/-- `*buffer = c; buffer--;`, where `text` is what stands between `buffer` and the terminator in the last of the 128
bytes. -/
def push (c : UInt8) (text : List UInt8) : Option (List UInt8) := if text.length < 127 then some (c :: text) else none

/-- `digits[idx]` -/
def digit (digits : List UInt8) (idx : Int) : Option UInt8 := if 0 ≤ idx then digits[idx.toNat]? else none

/-- `do { } while(val != 0)` -/
def numberRound (digits : List UInt8) (base : Int) :
    Int × List UInt8 → Option (Round (Int × List UInt8) (List UInt8))
  | (val, text) =>
    match (digit digits (val.tmod base)).bind fun c => push c text with
    | none => none
    | some text =>
      let val := val.tdiv base
      some (if val = 0 then .done text else .next (val, text))

/-- `for(int i = length; i < fmt.precision; i++)` -/
def pushZeros (digits : List UInt8) : Nat → List UInt8 → Option (List UInt8)
  | 0, text => some text
  | n + 1, text => do
    let c ← digit digits 0
    let text ← push c text
    pushZeros digits n text

def pushSign (neg : Bool) (fmt : Format) (text : List UInt8) : Option (List UInt8) :=
  if neg then push 45 text
  else if fmt.forceSign then push 43 text
  else if fmt.spaceIfNoSign then push 32 text
  else some text

/-- What is written to the buffer; the 64 bits of a number are at most 64 digits. -/
def numberChars (neg : Bool) (val : Int) (digits : List UInt8) (base : Int) (fmt : Format) : Option (List UInt8) := do
  let text ← run (numberRound digits base) 64 (val, [])
  let text ← pushZeros digits (fmt.precision - text.length).toNat text
  pushSign neg fmt text

/-- `buffer + 1` -/
def bufferString (text : List UInt8) : Nat → UInt8 := fun i => (text ++ [0]).getD i 0

def printInt64Base (ch : Channel ω) (val : Int) (digits : List UInt8) (base : Int) (fmt : Format) (o : ω) :
    Option ω := do
  let neg := decide (val < 0)
  let text ← numberChars neg (if neg then int64 (-val) else val) digits base fmt
  printStringPadded ch (bufferString text) text.length fmt o

def printUInt64Base (ch : Channel ω) (val : Nat) (digits : List UInt8) (base : Int) (fmt : Format) (o : ω) :
    Option ω := do
  let text ← numberChars false val digits base fmt
  printStringPadded ch (bufferString text) text.length fmt o

/-! ## The text of a number -/

def signText (neg : Bool) (fmt : Format) : List UInt8 :=
  if neg then [45] else if fmt.forceSign then [43] else if fmt.spaceIfNoSign then [32] else []

/-- The sign or the space that the flags ask for, and the numeral with zeros before it up to the precision. -/
def numberText (neg : Bool) (n : Nat) (digits : List UInt8) (fmt : Format) : List UInt8 :=
  let ds := (numeral digits.length n).map fun d => digits.getD d 0
  signText neg fmt ++ (List.replicate (fmt.precision - ds.length).toNat (digits.getD 0 0) ++ ds)

variable {digits text : List UInt8} {fuel : Nat}

theorem push_of_lt (h : text.length < 127) : push c text = some (c :: text) := if_pos h

theorem push_of_ge (h : 127 ≤ text.length) : push c text = none := if_neg (Nat.not_lt.2 h)

theorem digit_natCast (hn : n < digits.length) : digit digits n = some (digits.getD n 0) := by
  rw [digit, if_pos (by omega), Int.toNat_natCast, List.getD_eq_getElem?_getD,
    List.getElem?_eq_getElem hn, Option.getD_some]

/-- **The digits are those of the numeral.** -/
theorem run_numberRound (hb : 2 ≤ digits.length) (hn : n < digits.length ^ fuel) (hfuel : 0 < fuel)
    (hroom : text.length + fuel ≤ 127) :
    run (numberRound digits digits.length) fuel (n, text) =
      some ((numeral digits.length n).map (fun d => digits.getD d 0) ++ text) := by
  induction fuel generalizing n text with
  | zero => omega
  | succ fuel ih =>
    have hmod : n % digits.length < digits.length := Nat.mod_lt _ (by omega)
    rw [run, numberRound, ← Int.ofNat_tmod, ← Int.ofNat_tdiv, digit_natCast hmod, Option.bind_some,
      push_of_lt (by omega)]
    dsimp only
    rcases Nat.lt_or_ge n digits.length with hlt | hge
    · rw [Nat.div_eq_of_lt hlt, Nat.mod_eq_of_lt hlt, numeral_of_lt hlt, if_pos (Int.natCast_zero)]
      rfl
    · have hpos : 0 < n / digits.length := Nat.div_pos hge (by omega)
      have hquot : n / digits.length < digits.length ^ fuel :=
        Nat.div_lt_of_lt_mul (by rwa [Nat.mul_comm, ← Nat.pow_succ])
      have hfuel' : 0 < fuel := Nat.pos_of_ne_zero fun h => by subst h; rw [Nat.pow_zero] at hquot; omega
      rw [if_neg (by omega), numeral_step (by omega) hge, List.map_append, List.append_assoc]
      dsimp only
      rw [ih hquot hfuel' (by rw [List.length_cons]; omega)]
      rfl

/-- The remainders of a negative number are no indices, and not all of them are zero. -/
theorem run_numberRound_neg (hb : 2 ≤ digits.length) (hn : 0 < n) :
    run (numberRound digits digits.length) fuel (-n, text) = none := by
  induction fuel generalizing n text with
  | zero => rfl
  | succ fuel ih =>
    rw [run, numberRound, Int.neg_tmod, Int.neg_tdiv, ← Int.ofNat_tmod, ← Int.ofNat_tdiv]
    rcases Nat.eq_zero_or_pos (n % digits.length) with hmod | hmod
    · have hquot : 0 < n / digits.length :=
        Nat.div_pos (Nat.le_of_dvd hn (Nat.dvd_of_mod_eq_zero hmod)) (by omega)
      have hne : ¬-((n / digits.length : Nat) : Int) = 0 := by
        generalize n / digits.length = m at hquot
        omega
      rw [hmod, Int.natCast_zero, Int.neg_zero]
      cases (digit digits 0).bind fun c => push c text with
      | none => rfl
      | some text' =>
        dsimp only
        rw [if_neg hne]
        exact ih hquot
    · have hneg : ¬(0 : Int) ≤ -(n % digits.length : Nat) := by omega
      rw [digit, if_neg hneg]
      rfl

theorem pushZeros_eq (hd : 0 < digits.length) :
    pushZeros digits n text =
      if n = 0 ∨ text.length + n ≤ 127 then some (List.replicate n (digits.getD 0 0) ++ text) else none := by
  induction n generalizing text with
  | zero => rw [if_pos (.inl rfl)]; rfl
  | succ n ih =>
    rw [pushZeros, show digit digits 0 = some (digits.getD 0 0) from digit_natCast hd, Option.bind_eq_bind,
      Option.bind_some]
    rcases Nat.lt_or_ge text.length 127 with hlt | hge
    · rw [push_of_lt hlt, Option.bind_eq_bind, Option.bind_some, ih, List.length_cons, List.replicate_succ',
        List.append_assoc, List.singleton_append]
      exact if_congr (by omega) rfl rfl
    · rw [push_of_ge hge, if_neg (by omega)]
      rfl

theorem pushSign_eq (neg : Bool) (h : text.length ≤ 127) :
    pushSign neg fmt text =
      if (signText neg fmt ++ text).length ≤ 127 then some (signText neg fmt ++ text) else none := by
  have hpush (c : UInt8) : push c text = if ([c] ++ text).length ≤ 127 then some ([c] ++ text) else none :=
    if_congr (by simp) rfl rfl
  unfold pushSign signText
  split_ifs with h₁ h₂ h₃ h₄ <;> simp_all

/-- **The buffer takes the text of a number**, if it has the room. -/
theorem numberChars_eq (neg : Bool) (hb : 2 ≤ digits.length) (hn : n < 2 ^ 64) :
    numberChars neg n digits digits.length fmt =
      if (numberText neg n digits fmt).length ≤ 127 then some (numberText neg n digits fmt) else none := by
  have hpow : n < digits.length ^ 64 := Nat.lt_of_lt_of_le hn (Nat.pow_le_pow_left hb 64)
  have hlen : ((numeral digits.length n).map fun d => digits.getD d 0).length ≤ 64 := by
    rw [List.length_map]
    exact length_numeral_le hb (by decide) hpow
  rw [numberChars, run_numberRound hb hpow (by decide) (by decide), List.append_nil, Option.bind_eq_bind,
    Option.bind_some, pushZeros_eq (by omega), numberText]
  generalize (numeral digits.length n).map (fun d => digits.getD d 0) = ds at hlen ⊢
  generalize hk : (fmt.precision - ds.length).toNat = k
  have htext : (List.replicate k (digits.getD 0 0) ++ ds).length = k + ds.length := by simp
  by_cases hroom : ds.length + k ≤ 127
  · rw [if_pos (.inr hroom), Option.bind_some, pushSign_eq neg (by omega)]
  · rw [if_neg (by omega), if_neg (by rw [List.length_append, htext]; omega)]
    rfl

theorem numberChars_neg (neg : Bool) (hb : 2 ≤ digits.length) (hn : 0 < n) :
    numberChars neg (-n) digits digits.length fmt = none := by
  rw [numberChars, run_numberRound_neg hb hn]
  rfl

theorem getD_ne_zero (hclean : 0 ∉ digits) (hn : n < digits.length) : digits.getD n 0 ≠ 0 := by
  rw [List.getD_eq_getElem?_getD, List.getElem?_eq_getElem hn, Option.getD_some]
  intro h
  exact hclean (h ▸ List.getElem_mem hn)

theorem zero_notMem_numberText (neg : Bool) (hb : 2 ≤ digits.length) (hclean : 0 ∉ digits) :
    0 ∉ numberText neg n digits fmt := by
  intro h
  rcases List.mem_append.1 h with hsign | h
  · unfold signText at hsign
    split_ifs at hsign <;> simp at hsign
  · rcases List.mem_append.1 h with hzeros | hdigits
    · exact getD_ne_zero hclean (by omega) (List.mem_replicate.1 hzeros).2.symm
    · obtain ⟨d, hd, hzero⟩ := List.mem_map.1 hdigits
      exact getD_ne_zero hclean (lt_of_mem_numeral hb hd) hzero

theorem holds_bufferString (h : 0 ∉ text) : Holds 0 (bufferString text) 0 text where
  chars i hi := by simp [bufferString, List.getElem?_append_left hi, List.getElem?_eq_getElem hi]
  ends := by simp [bufferString]
  clean := h

/-- A result of printing: the text is behind the one that was there. -/
def Printed (R : ω → List UInt8 → Prop) (t s : List UInt8) (r : Option ω) : Prop := ∃ o, r = some o ∧ R o (t ++ s)

theorem not_printed_none : ¬Printed R t s none := by
  rintro ⟨_, h, -⟩
  cases h

/-- What the printing of a signed number comes to. -/
theorem printInt64Base_eq {val : Int} (hb : 2 ≤ digits.length) (hlo : -2 ^ 63 ≤ val) (hhi : val < 2 ^ 63) :
    printInt64Base ch val digits digits.length fmt o =
      if val ≠ -2 ^ 63 ∧ (numberText (decide (val < 0)) val.natAbs digits fmt).length ≤ 127 then
        printStringPadded ch (bufferString (numberText (decide (val < 0)) val.natAbs digits fmt))
          (numberText (decide (val < 0)) val.natAbs digits fmt).length fmt o
      else none := by
  rw [printInt64Base, Option.bind_eq_bind]
  by_cases hmost : val = -2 ^ 63
  · have hval : (if decide (val < 0) then int64 (-val) else val) = -((2 ^ 63 : Nat) : Int) := by
      rw [hmost]
      rfl
    rw [hval, numberChars_neg _ hb (by decide), if_neg fun h => h.1 hmost]
    rfl
  · have hval : (if decide (val < 0) then int64 (-val) else val) = (val.natAbs : Int) := by
      unfold int64
      split_ifs with hneg
      · rw [decide_eq_true_eq] at hneg
        omega
      · rw [decide_eq_true_eq] at hneg
        omega
    rw [hval, numberChars_eq _ hb (by omega)]
    by_cases hfits : (numberText (decide (val < 0)) val.natAbs digits fmt).length ≤ 127
    · rw [if_pos hfits, if_pos ⟨hmost, hfits⟩, Option.bind_some]
    · rw [if_neg hfits, if_neg fun h => hfits h.2]
      rfl

theorem printUInt64Base_eq {val : Nat} (hb : 2 ≤ digits.length) (hval : val < 2 ^ 64) :
    printUInt64Base ch val digits digits.length fmt o =
      if (numberText false val digits fmt).length ≤ 127 then
        printStringPadded ch (bufferString (numberText false val digits fmt))
          (numberText false val digits fmt).length fmt o
      else none := by
  rw [printUInt64Base, Option.bind_eq_bind, numberChars_eq false hb hval]
  split_ifs <;> rfl

/-- **A text that was written to the buffer** is printed, if `P` says that it was. -/
theorem printed_iff {P : Prop} [Decidable P] (hw : ch.Writes R) (ho : R o t) (htext : 0 ∉ text)
    (hfits : P → text.length ≤ 127) (hroom : t.length + max 127 fmt.minWidth.toNat < 2 ^ 31) :
    Printed R t (padded fmt text)
      (if P then printStringPadded ch (bufferString text) text.length fmt o else none) ↔ P := by
  split_ifs with hP
  · have hint : (t ++ padded fmt text).length < 2 ^ 31 := by
      have hle := hfits hP
      rw [List.length_append, length_padded]
      omega
    exact iff_of_true (printStringPadded_writes hw ho (holds_bufferString htext) (by omega) hint) hP
  · exact iff_of_false not_printed_none hP

/-! ## The copies -/

/-- The three formatters; klib/stdio.cpp and klib/kfprintf.cpp print behind what is already there. -/
inductive Copy where
  | stdio (color : Nat) (out₀ : List TerminalCall)
  | kfprintf (out₀ : List UInt8)
  | ksprintf (new : StringBuffer → Nat → UInt8)

namespace Copy

def State : Copy → Type
  | stdio _ _ => List TerminalCall
  | kfprintf _ => List UInt8
  | ksprintf _ => StringBuffer

def channel : (copy : Copy) → Channel copy.State
  | stdio color _ => terminal color
  | kfprintf _ => file
  | ksprintf new => stringBuffer new

/-- The text that was printed: on the terminal, to the file, into the buffer. -/
def Shows : (copy : Copy) → copy.State → List UInt8 → Prop
  | stdio color out₀, out, t => out = out₀ ++ t.map (terminalCall color)
  | kfprintf out₀, out, t => out = out₀ ++ t
  | ksprintf _, sb, t => sb.Has t

theorem writes : (copy : Copy) → copy.channel.Writes copy.Shows
  | stdio color out₀ => terminal_writes color out₀
  | kfprintf out₀ => file_writes out₀
  | ksprintf new => stringBuffer_writes new

end Copy

def decimalDigits : List UInt8 := [48, 49, 50, 51, 52, 53, 54, 55, 56, 57]

/-- **Numbers are printed by each formatter**, with a table of digits for any base, exactly if the text with its sign
and precision fits the buffer and the number is not the least `int64`. -/
theorem printInts_iff (copy : Copy) {o : copy.State} (ho : copy.Shows o t) (hb : 2 ≤ digits.length)
    (hclean : 0 ∉ digits) (hroom : t.length + max 127 fmt.minWidth.toNat < 2 ^ 31) :
    (∀ val : Int, -2 ^ 63 ≤ val → val < 2 ^ 63 →
      (Printed copy.Shows t (padded fmt (numberText (decide (val < 0)) val.natAbs digits fmt))
          (printInt64Base copy.channel val digits digits.length fmt o) ↔
        val ≠ -2 ^ 63 ∧ (numberText (decide (val < 0)) val.natAbs digits fmt).length ≤ 127)) ∧
      ∀ val : Nat, val < 2 ^ 64 →
        (Printed copy.Shows t (padded fmt (numberText false val digits fmt))
            (printUInt64Base copy.channel val digits digits.length fmt o) ↔
          (numberText false val digits fmt).length ≤ 127) := by
  refine ⟨fun val hlo hhi => ?_, fun val hval => ?_⟩
  · rw [printInt64Base_eq hb hlo hhi]
    exact printed_iff copy.writes ho (zero_notMem_numberText _ hb hclean) And.right hroom
  · rw [printUInt64Base_eq hb hval]
    exact printed_iff copy.writes ho (zero_notMem_numberText _ hb hclean) id hroom

/-- `%+.3d` of 42, into a file. -/
theorem printInts_iff_signed : Printed (Copy.kfprintf []).Shows [] [43, 48, 52, 50]
    (printInt64Base file 42 decimalDigits 10 { Format.zero with forceSign := true, precision := 3 } []) :=
  ((@printInts_iff { Format.zero with forceSign := true, precision := 3 } [] decimalDigits (.kfprintf []) [] rfl
    (by decide) (by decide) (by decide)).1 42 (by decide) (by decide)).2 (by decide)

/-- The least `int64` is printed with an index before the digits. -/
theorem printInt64Base_least : ¬∀ (copy : Copy) (o : copy.State) (fmt : Format) (val : Int), copy.Shows o [] →
    fmt.minWidth < 2 ^ 31 → -2 ^ 63 ≤ val → val < 2 ^ 63 →
    Printed copy.Shows [] (padded fmt (numberText (decide (val < 0)) val.natAbs decimalDigits fmt))
      (printInt64Base copy.channel val decimalDigits 10 fmt o) := by
  intro h
  obtain ⟨o, hprint, -⟩ := h (.kfprintf []) [] .zero (-2 ^ 63) rfl (by decide) (by decide) (by decide)
  have hnone : printInt64Base file (-2 ^ 63) decimalDigits 10 .zero [] = none := by decide
  exact absurd (hnone.symm.trans hprint) (by simp)

end ChenixOS.Printf
