import ChenixOS.Lib.Buffer
import ChenixOS.Lib.Loop
import ChenixOS.Lib.Numerals

/-!
# `itoa`

The kernel's conversion of an `int` to text (klib/string.cpp). The digits come out of the divisions the least
significant first, and only those of base 10 are turned round; the sign, for base 10 alone, is put behind the digits
and stays there. So the text is that of the number (`text`, which `parse` reads back) **exactly** for the numbers that
are not negative, in base 10 or with a numeral that reads the same from both sides.
-/

namespace ChenixOS.Itoa

open Numerals Buffer Loop

variable {base v i n len fuel : Nat} {value : Int} {str str' : Nat → UInt8}

/-! ## The code -/

/-- An `int` after an operation whose result need not fit. -/
def int32 (x : Int) : Int := (x + 2 ^ 31) % 2 ^ 32 - 2 ^ 31

/-- A `char` of an `int`. -/
def toChar (x : Int) : UInt8 := UInt8.ofNat (x % 256).toNat

/-- `(rem > 9) ? (rem - 10) + 'a' : rem + '0'` -/
def remChar (rem : Int) : UInt8 := toChar (if 9 < rem then (rem - 10) + 97 else rem + 48)

def reverse (str : Nat → UInt8) (len : Nat) : Nat → UInt8 :=
  (List.range (len / 2)).foldl (fun str i =>
    let temp := str i
    let str := Function.update str i (str (len - i - 1))
    Function.update str (len - i - 1) temp) str

/-- `while (value)`; `i` and `str` are what the loop is left with. -/
def digitRound (base : Int) :
    Int × Nat × (Nat → UInt8) → Option (Round (Int × Nat × (Nat → UInt8)) (Nat × (Nat → UInt8)))
  | (value, i, str) =>
    if value = 0 then some (.done (i, str))
    else
      let rem := value.tmod base
      some (.next (value.tdiv base, i + 1, Function.update str i (remChar rem)))

def itoa (value : Int) (str : Nat → UInt8) (base : Int) : Option (Nat → UInt8) :=
  let isNegative := decide (value < 0 ∧ base = 10)
  let value := if isNegative then int32 (-value) else value
  if value = 0 then
    let str := Function.update (Function.update str 0 48) 1 0
    some (if isNegative then Function.update (Function.update str 1 45) 2 0 else str)
  else
    -- an `int` has at most 32 digits
    match run (digitRound base) 33 (value, 0, str) with
    | none => none
    | some (i, str) =>
      let str := if isNegative then Function.update str i 45 else str
      let i := if isNegative then i + 1 else i
      let str := Function.update str i 0
      some (if base = 10 then reverse str (if isNegative then i - 1 else i) else str)

/-! ## The text of a number -/

def digitChar (d : Nat) : UInt8 := if 9 < d then UInt8.ofNat (d - 10 + 97) else UInt8.ofNat (d + 48)

def digitValue (c : UInt8) : Nat := if 97 ≤ c then c.toNat - 97 + 10 else c.toNat - 48

/-- The numeral of a number, the most significant digit first, behind `'-'` if it is negative. -/
def text (base : Nat) (value : Int) : List UInt8 :=
  (if value < 0 then [45] else []) ++ (numeral base value.natAbs).map digitChar

def parse (base : Nat) : List UInt8 → Int
  | [] => 0
  | c :: s => if c = 45 then -(Numerals.value base (s.map digitValue) : Int)
    else Numerals.value base ((c :: s).map digitValue)

/-- What is to be known of the characters of the digits. -/
theorem digitChar_facts (hd : n < 36) :
    digitValue (digitChar n) = n ∧ digitChar n ≠ 0 ∧ digitChar n ≠ 45 ∧ remChar n = digitChar n := by
  have hall : ∀ d ∈ List.range 36,
      digitValue (digitChar d) = d ∧ digitChar d ≠ 0 ∧ digitChar d ≠ 45 ∧ remChar d = digitChar d := by decide
  exact hall n (List.mem_range.2 hd)

theorem map_digitValue {ds : List Nat} (hds : ∀ d ∈ ds, d < 36) : (ds.map digitChar).map digitValue = ds := by
  calc (ds.map digitChar).map digitValue = ds.map (digitValue ∘ digitChar) := List.map_map
    _ = ds.map id := List.map_congr_left fun d hd => (digitChar_facts (hds d hd)).1
    _ = ds := List.map_id ds

section Text

variable (hb : 2 ≤ base) (hbase : base ≤ 36)

include hb hbase

theorem lt_of_mem_numeral {d : Nat} (hd : d ∈ numeral base n) : d < 36 :=
  Nat.lt_of_lt_of_le (Numerals.lt_of_mem_numeral hb hd) hbase

/-- **A text parses to its number.** -/
theorem parse_text : parse base (text base value) = value := by
  have hval : (Numerals.value base (((numeral base value.natAbs).map digitChar).map digitValue) : Int) =
      value.natAbs := by
    rw [map_digitValue fun d hd => lt_of_mem_numeral hb hbase hd, value_numeral]
  unfold text
  split_ifs with hneg
  · rw [List.singleton_append, parse, if_pos rfl, hval]
    omega
  · rw [List.nil_append]
    cases hs : numeral base value.natAbs with
    | nil => exact absurd hs numeral_ne_nil
    | cons d ds =>
      have hd : digitChar d ≠ 45 :=
        (digitChar_facts (lt_of_mem_numeral hb hbase (hs ▸ List.mem_cons_self))).2.2.1
      rw [hs, List.map_cons] at hval
      rw [List.map_cons, parse, if_neg hd, hval]
      omega

theorem zero_notMem_text : (0 : UInt8) ∉ text base value := by
  intro h
  rcases List.mem_append.1 h with hsign | hdigit
  · split_ifs at hsign
    · exact absurd (List.mem_singleton.1 hsign) (by decide)
    · exact List.not_mem_nil hsign
  · obtain ⟨d, hd, hzero⟩ := List.mem_map.1 hdigit
    exact (digitChar_facts (lt_of_mem_numeral hb hbase hd)).2.1 hzero

end Text

/-! ## What the code gives -/

/-- What the divisions leave, the least significant first; the remainders have the sign of the number. -/
def digitChars (base : Nat) (value : Int) : List UInt8 :=
  (Nat.digits base value.natAbs).map fun (d : Nat) => remChar (if value < 0 then -d else d)

theorem length_digitChars : (digitChars base value).length = (Nat.digits base value.natAbs).length := by
  rw [digitChars, List.length_map]

theorem digitChars_natCast : digitChars base (n : Int) = (Nat.digits base n).map fun (d : Nat) => remChar d := by
  rw [digitChars, Int.natAbs_natCast]
  simp only [if_neg (show ¬(n : Int) < 0 by omega)]

theorem digitChars_neg : digitChars base (-n : Int) = (Nat.digits base n).map fun (d : Nat) => remChar (-d) := by
  rcases Nat.eq_zero_or_pos n with rfl | hn
  · simp [digitChars]
  · rw [digitChars, Int.natAbs_neg, Int.natAbs_natCast]
    simp only [if_pos (show (-n : Int) < 0 by omega)]

theorem digitChars_step (hb : 2 ≤ base) (hne : value ≠ 0) :
    digitChars base value = remChar (value.tmod base) :: digitChars base (value.tdiv base) := by
  obtain ⟨n, rfl | rfl⟩ := value.eq_nat_or_neg
  · rw [digitChars_natCast, Nat.digits_def' hb (by omega), List.map_cons, ← Int.ofNat_tmod, ← Int.ofNat_tdiv,
      digitChars_natCast]
  · rw [digitChars_neg, Nat.digits_def' hb (by omega), List.map_cons, Int.neg_tmod, Int.neg_tdiv, ← Int.ofNat_tmod,
      ← Int.ofNat_tdiv, digitChars_neg]

/-- **The loop writes the digits.** -/
theorem run_digitRound (str : Nat → UInt8) (hb : 2 ≤ base) (hfuel : (digitChars base value).length < fuel) :
    ∃ str', run (digitRound base) fuel (value, i, str) = some (i + (digitChars base value).length, str') ∧
      slice str' i (digitChars base value).length = digitChars base value ∧ ∀ j < i, str' j = str j := by
  induction fuel generalizing value i str with
  | zero => omega
  | succ fuel ih =>
    rcases eq_or_ne value 0 with rfl | hne
    · exact ⟨str, by simp [run, digitRound, digitChars], by simp [digitChars], fun _ _ => rfl⟩
    · rw [digitChars_step hb hne, List.length_cons] at hfuel ⊢
      obtain ⟨str', hrun, hslice, hkeep⟩ := @ih (i + 1) (value.tdiv base)
        (Function.update str i (remChar (value.tmod base))) (by omega)
      refine ⟨str', ?_, ?_, fun j hj => ?_⟩
      · rw [run, digitRound, if_neg hne]
        dsimp only
        rw [hrun, Nat.add_right_comm, Nat.add_assoc]
      · rw [Nat.add_comm, slice_add, hslice, slice_succ, slice_zero, hkeep _ (by omega), Nat.add_zero,
          Function.update_self, List.nil_append, List.singleton_append]
      · rw [hkeep j (by omega), Function.update_of_ne (by omega)]

/-- `k` exchanges have turned round `k` characters on each side. -/
theorem foldl_swap {k : Nat} (hk : k ≤ len / 2) : (List.range k).foldl (fun str i =>
      let temp := str i
      let str := Function.update str i (str (len - i - 1))
      Function.update str (len - i - 1) temp) str =
    fun i => if i < k ∨ len - k ≤ i ∧ i < len then str (len - i - 1) else str i := by
  induction k with
  | zero =>
    funext i
    rw [if_neg (by omega)]
    rfl
  | succ k ih =>
    rw [List.range_succ, List.foldl_append, ih (by omega)]
    funext i
    simp only [List.foldl_cons, List.foldl_nil, Function.update_apply]
    grind

theorem reverse_apply : reverse str len i = if i < len then str (len - i - 1) else str i := by
  rw [reverse, foldl_swap le_rfl]
  dsimp only
  split_ifs with h₁ h₂ h₂
  · rfl
  · omega
  · rw [show len - i - 1 = i by omega]
  · rfl

/-- The characters of a reversed part, in the other order. -/
theorem slice_reverse : slice (reverse str len) 0 len = (slice str 0 len).reverse := by
  refine List.ext_getElem (by simp) fun i h₁ h₂ => ?_
  have hi : i < len := by simpa using h₁
  simp [slice, reverse_apply, if_pos hi, Nat.sub_right_comm len 1 i]

theorem length_digits_lt (hb : 2 ≤ base) (hlo : -2 ^ 31 ≤ value) (hhi : value < 2 ^ 31) :
    (Nat.digits base value.natAbs).length < 33 := by
  have hpow : 2 ^ 32 ≤ base ^ 32 := Nat.pow_le_pow_left hb 32
  exact Nat.lt_succ_of_le ((Nat.digits_length_le_iff hb _).2 (by omega))

theorem natAbs_int32_neg (hlo : -2 ^ 31 ≤ value) (hhi : value < 2 ^ 31) :
    (int32 (-value)).natAbs = value.natAbs := by
  unfold int32
  omega

/-- **The loop of `itoa`** has enough rounds. -/
theorem run_itoa (str : Nat → UInt8) (hb : 2 ≤ base) (hlo : -2 ^ 31 ≤ value) (hhi : value < 2 ^ 31) :
    ∃ str', run (digitRound base) 33 (value, 0, str) = some ((Nat.digits base value.natAbs).length, str') ∧
      slice str' 0 (Nat.digits base value.natAbs).length = digitChars base value := by
  obtain ⟨str', hrun, hslice, -⟩ := run_digitRound (i := 0) str hb
    (length_digitChars ▸ length_digits_lt hb hlo hhi)
  rw [length_digitChars] at hrun hslice
  rw [Nat.zero_add] at hrun
  exact ⟨str', hrun, hslice⟩

/-- **A negative number**: what stands behind its digits is a sign or the end. -/
theorem itoa_neg (str : Nat → UInt8) (hb : 2 ≤ base) (hlo : -2 ^ 31 ≤ value) (hneg : value < 0) :
    ∃ str', itoa value str base = some str' ∧
      str' (Nat.digits base value.natAbs).length = if base = 10 then 45 else 0 := by
  have hbase : (base : Int) = 10 ↔ base = 10 := by omega
  by_cases hten : base = 10
  · have hdec : decide (value < 0 ∧ (base : Int) = 10) = true := decide_eq_true ⟨hneg, hbase.2 hten⟩
    have habs := natAbs_int32_neg hlo (by omega)
    obtain ⟨str', hrun, -⟩ := run_itoa str hb (by unfold int32; omega : -2 ^ 31 ≤ int32 (-value))
      (by unfold int32; omega)
    rw [habs] at hrun
    generalize (Nat.digits base value.natAbs).length = n at hrun ⊢
    refine ⟨reverse (Function.update (Function.update str' n 45) (n + 1) 0) (n + 1 - 1), ?_, ?_⟩
    · rw [itoa, hdec]
      dsimp only
      rw [if_pos rfl, if_neg (by omega), hrun]
      simp only [if_true, if_pos (hbase.2 hten)]
    · rw [if_pos hten, reverse_apply, if_neg (by omega), Function.update_of_ne (by omega), Function.update_self]
  · have hdec : decide (value < 0 ∧ (base : Int) = 10) = false := decide_eq_false fun h => hten (hbase.1 h.2)
    obtain ⟨str', hrun, -⟩ := run_itoa str hb hlo (by omega)
    refine ⟨Function.update str' _ 0, ?_, by rw [if_neg hten, Function.update_self]⟩
    rw [itoa, hdec]
    dsimp only
    rw [if_neg Bool.false_ne_true, if_neg (by omega), hrun]
    simp only [Bool.false_eq_true, if_false, if_neg (mt hbase.1 hten)]

theorem digitChars_numeral (hb : 2 ≤ base) (hbase : base ≤ 36) (hn : 0 < n) :
    digitChars base n = (numeral base n).reverse.map digitChar := by
  rw [digitChars_natCast, numeral_of_pos hn, List.reverse_reverse]
  exact List.map_congr_left fun d hd =>
    (digitChar_facts (Nat.lt_of_lt_of_le (Nat.digits_lt_base hb hd) hbase)).2.2.2

/-- **A number that is not negative**: its numeral, turned round in base 10 alone. -/
theorem itoa_natCast (str : Nat → UInt8) (hb : 2 ≤ base) (hbase : base ≤ 36) (hn : n < 2 ^ 31) :
    ∃ str', itoa n str base = some str' ∧
      slice str' 0 (numeral base n).length =
        (if base = 10 then numeral base n else (numeral base n).reverse).map digitChar ∧
      str' (numeral base n).length = 0 := by
  have hdec : decide ((n : Int) < 0 ∧ (base : Int) = 10) = false := decide_eq_false fun h => by omega
  have hten : (base : Int) = 10 ↔ base = 10 := by omega
  rcases Nat.eq_zero_or_pos n with rfl | hpos
  · refine ⟨Function.update (Function.update str 0 48) 1 0, ?_, ?_, Function.update_self ..⟩
    · rw [itoa, hdec]
      rfl
    · rw [numeral_zero, List.reverse_singleton, ite_self]
      rfl
  · have hchars := digitChars_numeral hb hbase hpos
    have hlen : (Nat.digits base n).length = (numeral base n).length := by
      rw [numeral_of_pos hpos, List.length_reverse]
    obtain ⟨str', hrun, hslice⟩ := run_itoa str hb (by omega : -2 ^ 31 ≤ (n : Int)) (by omega)
    rw [Int.natAbs_natCast, hlen] at hrun hslice
    have hend : slice (Function.update str' (numeral base n).length 0) 0 (numeral base n).length =
        (numeral base n).reverse.map digitChar := by
      rw [← hchars, ← hslice]
      exact slice_congr fun i hi => Function.update_of_ne (by omega) ..
    generalize hk : (numeral base n).length = k at hrun hend ⊢
    refine ⟨if (base : Int) = 10 then reverse (Function.update str' k 0) k else Function.update str' k 0,
      ?_, ?_, ?_⟩
    · rw [itoa, hdec]
      dsimp only
      rw [if_neg Bool.false_ne_true, if_neg (by omega), hrun]
      rfl
    · split_ifs with h₁ h₂ h₂
      · rw [slice_reverse, hend, ← List.map_reverse, List.reverse_reverse]
      · exact absurd (hten.1 h₁) h₂
      · exact absurd (hten.2 h₂) h₁
      · exact hend
    · split_ifs
      · rw [reverse_apply, if_neg (by omega), Function.update_self]
      · exact Function.update_self ..

/-! ## When the text is that of the number -/

/-- The buffer holds the text of the number, which parses to it. -/
def HoldsNumber (base : Nat) (value : Int) (str : Nat → UInt8) : Prop :=
  ∃ s, Holds 0 str 0 s ∧ s = text base value ∧ parse base s = value

theorem holdsNumber_iff (hb : 2 ≤ base) (hbase : base ≤ 36) :
    HoldsNumber base value str ↔
      slice str 0 (text base value).length = text base value ∧ str (text base value).length = 0 := by
  constructor
  · rintro ⟨s, hs, rfl, -⟩
    exact ⟨(holds_iff_slice.1 hs).1, Nat.zero_add (text base value).length ▸ hs.ends⟩
  · rintro ⟨hslice, hend⟩
    refine ⟨_, holds_iff_slice.2 ⟨hslice, ?_, zero_notMem_text hb hbase⟩, rfl, parse_text hb hbase⟩
    rw [Nat.zero_add, hend]

theorem text_natCast : text base n = (numeral base n).map digitChar := by
  rw [text, if_neg (by omega), Int.natAbs_natCast, List.nil_append]

/-- The decimal text of a number that is not negative. -/
theorem itoa_decimal (str : Nat → UInt8) (hn : n < 2 ^ 31) :
    ∃ str', itoa n str 10 = some str' ∧ Holds 0 str' 0 (text 10 n) := by
  obtain ⟨str', hrun, hslice, hend⟩ := @itoa_natCast 10 n str (by decide) (by decide) hn
  refine ⟨str', hrun, holds_iff_slice.2 ⟨?_, ?_, zero_notMem_text (by decide) (by decide)⟩⟩
  · rw [text_natCast, List.length_map, hslice, if_pos rfl]
  · rw [text_natCast, List.length_map, Nat.zero_add, hend]

/-- Behind as many characters as a negative number has digits, its text has the last of them. -/
theorem not_holdsNumber_of_neg (hb : 2 ≤ base) (hbase : base ≤ 36) (hneg : value < 0)
    (hstr : str (Nat.digits base value.natAbs).length = if base = 10 then 45 else 0) :
    ¬HoldsNumber base value str := by
  rintro ⟨s, hs, rfl, -⟩
  have hnum : (numeral base value.natAbs).length = (Nat.digits base value.natAbs).length := by
    rw [numeral_of_pos (by omega), List.length_reverse]
  have hpos : 0 < (Nat.digits base value.natAbs).length :=
    hnum ▸ List.length_pos_of_ne_nil numeral_ne_nil
  have hlast := hs.chars (Nat.digits base value.natAbs).length (by simp [text, hneg, hnum])
  rw [Nat.zero_add, hstr] at hlast
  have hmem : (if base = 10 then 45 else 0) ∈ (numeral base value.natAbs).map digitChar := by
    rw [hlast]
    simp only [text, if_pos hneg]
    rw [List.getElem_append_right hpos]
    exact List.getElem_mem _
  obtain ⟨d, hd, hchar⟩ := List.mem_map.1 hmem
  obtain ⟨-, hzero, hminus, -⟩ := digitChar_facts (lt_of_mem_numeral hb hbase hd)
  split_ifs at hchar
  · exact hminus hchar
  · exact hzero hchar

theorem digitChar_injOn {ds es : List Nat} (hds : ∀ d ∈ ds, d < 36) (hes : ∀ d ∈ es, d < 36)
    (h : ds.map digitChar = es.map digitChar) : ds = es := by
  rw [← map_digitValue hds, h, map_digitValue hes]

/-- **The text of a number comes out exactly** if it is not negative, and the base is 10 or its numeral in the base
reads the same from both sides. -/
theorem itoa_iff (hb : 2 ≤ base) (hbase : base ≤ 36) (hlo : -2 ^ 31 ≤ value) (hhi : value < 2 ^ 31) :
    (∃ str', itoa value str base = some str' ∧ HoldsNumber base value str') ↔
      0 ≤ value ∧ (base = 10 ∨ (numeral base value.natAbs).reverse = numeral base value.natAbs) := by
  rcases Int.lt_or_le value 0 with hneg | hpos
  · obtain ⟨str', hrun, hchar⟩ := itoa_neg str hb hlo hneg
    refine ⟨?_, fun h => by omega⟩
    rintro ⟨_, hrun', hnumber⟩
    rw [hrun] at hrun'
    cases hrun'
    exact absurd hnumber (not_holdsNumber_of_neg hb hbase hneg hchar)
  · obtain ⟨n, rfl⟩ := Int.eq_ofNat_of_zero_le hpos
    obtain ⟨str', hrun, hslice, hend⟩ := itoa_natCast str hb hbase (by omega : n < 2 ^ 31)
    rw [Int.natAbs_natCast]
    have hholds : HoldsNumber base n str' ↔
        (if base = 10 then numeral base n else (numeral base n).reverse) = numeral base n := by
      rw [holdsNumber_iff hb hbase, text_natCast, List.length_map, hslice]
      constructor
      · rintro ⟨heq, -⟩
        refine digitChar_injOn (fun d hd => ?_) (fun d hd => lt_of_mem_numeral hb hbase hd) heq
        split_ifs at hd
        · exact lt_of_mem_numeral hb hbase hd
        · exact lt_of_mem_numeral hb hbase (List.mem_reverse.1 hd)
      · intro heq
        rw [heq]
        exact ⟨rfl, hend⟩
    constructor
    · rintro ⟨_, hrun', hnumber⟩
      rw [hrun] at hrun'
      cases hrun'
      have heq := hholds.1 hnumber
      refine ⟨hpos, ?_⟩
      split_ifs at heq with hten
      · exact .inl hten
      · exact .inr heq
    · rintro ⟨-, hcond⟩
      refine ⟨str', hrun, hholds.2 ?_⟩
      split_ifs with hten
      · rfl
      · exact hcond.resolve_left hten

theorem itoa_iff_answer :
    ∃ str', itoa 42 (fun _ => 0) (10 : Nat) = some str' ∧ HoldsNumber 10 42 str' :=
  (itoa_iff (by decide) (by decide) (by decide) (by decide)).2 ⟨by decide, .inl rfl⟩

/-- The sign of -5 is left behind its digit. -/
theorem itoa_minus_five :
    ¬∀ (base : Nat) (value : Int) (str : Nat → UInt8), 2 ≤ base → base ≤ 36 → -2 ^ 31 ≤ value → value < 2 ^ 31 →
      ∃ str', itoa value str base = some str' ∧ HoldsNumber base value str' := by
  intro h
  obtain ⟨str', hrun, s, hs, rfl, -⟩ := h 10 (-5) (fun _ => 0) (by decide) (by decide) (by decide) (by decide)
  have hfirst : (itoa (-5) (fun _ => 0) (10 : Nat)).map (fun str => str 0) = some 53 := by decide
  have hminus := hs.chars 0 (by decide)
  rw [hrun] at hfirst
  rw [Option.map_some, Option.some.injEq, ← Nat.zero_add 0, hminus] at hfirst
  exact absurd hfirst (by decide)

end ChenixOS.Itoa
