import ChenixOS.Libc.Conversions

/-!
# What the conversions write

A number is converted to its text, which is then aligned. **Theorem (`maxtoaFill_eq`).** The text that is written is
`alignedText`: a width that is less than the text cuts the digits in front.
-/

namespace ChenixOS.Stdio

open Buffer Itoa Numerals

variable {bound base n m size fuel : Nat} {uppercase : Bool} {str : Nat → UInt8} {p : Int}

/-! ## Texts of numbers -/

/-- The digits of a number, the most significant one first. -/
def digitsText (base : Nat) (uppercase : Bool) (n : Nat) : List UInt8 := (numeral base n).map (remainderChar uppercase)

/-- The last `n` digits of a number. -/
def lastDigits (base : Nat) (uppercase : Bool) : Nat → Nat → List UInt8
  | 0, _ => []
  | n + 1, m => lastDigits base uppercase n (m / base) ++ [remainderChar uppercase (m % base)]

@[simp] theorem length_lastDigits : (lastDigits base uppercase n m).length = n := by
  induction n generalizing m with
  | zero => rfl
  | succ n ih => rw [lastDigits, List.length_append, ih, List.length_singleton]

theorem length_digitsText (hm : 0 < m) : (digitsText base uppercase m).length = (Nat.digits base m).length := by
  rw [digitsText, List.length_map, numeral_of_pos hm, List.length_reverse]

theorem length_digitsText_pos : 0 < (digitsText base uppercase m).length := by
  rw [digitsText, List.length_map]
  exact List.length_pos_iff.2 numeral_ne_nil

section Digits

variable (hb : 2 ≤ base)

include hb

theorem countDigits_eq (hm : m < 2 ^ fuel) : countDigits base fuel m = (Nat.digits base m).length := by
  induction fuel generalizing m with
  | zero =>
    obtain rfl : m = 0 := by simpa using hm
    rw [Nat.digits_zero]
    rfl
  | succ fuel ih =>
    rw [countDigits]
    split_ifs with hpos
    · have hdiv : m / base < 2 ^ fuel := by
        rw [Nat.div_lt_iff_lt_mul (by omega)]
        calc m < 2 ^ (fuel + 1) := hm
          _ = 2 ^ fuel * 2 := Nat.pow_succ 2 fuel
          _ ≤ 2 ^ fuel * base := Nat.mul_le_mul_left _ hb
      rw [ih hdiv, Nat.digits_def' hb hpos, List.length_cons]
    · obtain rfl : m = 0 := by omega
      rw [Nat.digits_zero]
      rfl

/-- **The loop over the digits** writes the last ones of a number that has so many. -/
theorem putDigits_eq (hn : n ≤ (Nat.digits base m).length) :
    putDigits bound p base uppercase n m str = putAt bound p (lastDigits base uppercase n m) str := by
  induction n generalizing m str with
  | zero => rw [putDigits, lastDigits, putAt_nil]
  | succ n ih =>
    have hpos : 0 < m := by
      rcases Nat.eq_zero_or_pos m with rfl | hpos
      · simp at hn
      · exact hpos
    rw [Nat.digits_def' hb hpos, List.length_cons] at hn
    have hrest := fun str => @ih (m / base) str (by omega)
    rw [putDigits, if_neg (Nat.pos_iff_ne_zero.1 hpos), lastDigits, writeAt_eq_putAt]
    simp only [hrest, Option.bind_eq_bind]
    have happend := @putAt_putAt _ bound str (lastDigits base uppercase n (m / base))
      [remainderChar uppercase (m % base)] p
    rw [length_lastDigits] at happend
    exact happend

theorem lastDigits_eq (hn : n ≤ (Nat.digits base m).length) :
    lastDigits base uppercase n m = ((Nat.digits base m).take n).reverse.map (remainderChar uppercase) := by
  induction n generalizing m with
  | zero => rfl
  | succ n ih =>
    have hpos : 0 < m := by
      rcases Nat.eq_zero_or_pos m with rfl | hpos
      · simp at hn
      · exact hpos
    rw [Nat.digits_def' hb hpos, List.length_cons] at hn
    rw [lastDigits, ih (by omega), Nat.digits_def' hb hpos, List.take_succ_cons, List.reverse_cons, List.map_append]
    rfl

/-- The last digits are what is left of all digits. -/
theorem lastDigits_eq_drop (hm : 0 < m) (hn : n ≤ (digitsText base uppercase m).length) :
    lastDigits base uppercase n m = (digitsText base uppercase m).drop ((digitsText base uppercase m).length - n) := by
  rw [length_digitsText hm] at hn ⊢
  rw [lastDigits_eq hb hn, digitsText, numeral_of_pos hm, ← List.map_drop, List.reverse_take]

/-- An `unsigned long` has at most 64 digits. -/
theorem length_digitsText_le (integer : UInt64) : (digitsText base uppercase integer.toNat).length ≤ 64 := by
  rw [digitsText, List.length_map]
  refine length_numeral_le hb (by decide) ?_
  calc integer.toNat < 2 ^ 64 := integer.toNat_lt
    _ ≤ base ^ 64 := Nat.pow_le_pow_left hb 64

/-- **`uimaxtoa`** writes the last digits, all of them if `size` is 0. -/
theorem uimaxtoa_eq (integer : UInt64) {t : List UInt8} (ht : digitsText base uppercase integer.toNat = t) :
    uimaxtoa bound integer none base uppercase size str = some (t.length, str) ∧
      uimaxtoa bound integer (some p) base uppercase size str =
        (putAt bound p (t.drop (t.length - if 0 < size ∧ size < t.length then size else t.length)) str).map
          fun str => (if 0 < size ∧ size < t.length then size else t.length, str) := by
  subst ht
  obtain rfl | hne := eq_or_ne integer 0
  · have hlen : (digitsText base uppercase (0 : UInt64).toNat) = [48] := by cases uppercase <;> rfl
    rw [hlen]
    refine ⟨by simp [uimaxtoa], ?_⟩
    have hsize : ¬(0 < size ∧ size < 1) := by omega
    simp only [uimaxtoa, if_true, List.length_singleton, if_neg hsize, Nat.sub_self, List.drop_zero, writeAt_eq_putAt]
    rw [Option.map_eq_bind]
    rfl
  · have hpos : 0 < integer.toNat := by
      refine Nat.pos_of_ne_zero fun hzero => hne (UInt64.toNat_inj.1 ?_)
      rw [hzero]
      rfl
    have hcount : countDigits base 64 integer.toNat = (digitsText base uppercase integer.toNat).length := by
      rw [countDigits_eq hb integer.toNat_lt, length_digitsText hpos]
    have hle : (if 0 < size ∧ size < (digitsText base uppercase integer.toNat).length then size
        else (digitsText base uppercase integer.toNat).length) ≤ (digitsText base uppercase integer.toNat).length := by
      split_ifs <;> omega
    refine ⟨by simp only [uimaxtoa, if_neg hne, hcount], ?_⟩
    simp only [uimaxtoa, if_neg hne, hcount]
    rw [putDigits_eq hb (by rw [← @length_digitsText base _ uppercase hpos]; exact hle),
      lastDigits_eq_drop hb hpos hle, Option.map_eq_bind]
    rfl

/-- A sign, and the digits behind it if there is room for more than the sign. -/
theorem sign_digits_eq (integer : UInt64) (c : UInt8) {t : List UInt8} (ht : digitsText base uppercase integer.toNat = t)
    (hsize : size ≤ t.length) :
    (do
      let str ← writeAt bound str p c
      if size = 1 then some (1, str)
      else do
        let (n, str) ← uimaxtoa bound integer (some (p + 1)) base uppercase (sizeT (size - 1)) str
        some (n + 1, str)) =
      (putAt bound p ([c] ++ t.drop (t.length + 1 - if 0 < size then size else t.length + 1)) str).map
        fun str => (if 0 < size then size else t.length + 1, str) := by
  have hlen : t.length ≤ 64 := ht ▸ length_digitsText_le hb integer
  rw [← putAt_append, writeAt_eq_putAt, List.length_singleton]
  cases hsign : putAt bound p [c] str with
  | none => rfl
  | some str' =>
    rw [Option.bind_eq_bind, Option.bind_some, Option.bind_some]
    dsimp only
    by_cases hone : size = 1
    · rw [if_pos hone, if_pos (by omega), hone, Nat.add_sub_cancel, List.drop_length, putAt_nil]
      rfl
    · rw [if_neg hone, (uimaxtoa_eq hb integer ht).2]
      have hk : (if 0 < sizeT (size - 1) ∧ sizeT (size - 1) < t.length then sizeT (size - 1) else t.length) + 1 =
          if 0 < size then size else t.length + 1 := by
        unfold sizeT
        split_ifs <;> omega
      generalize (if 0 < sizeT (size - 1) ∧ sizeT (size - 1) < t.length then sizeT (size - 1) else t.length) = k at *
      rw [← hk, Nat.add_sub_add_right]
      cases putAt bound (p + 1) (t.drop (t.length - k)) str' with
      | none => rfl
      | some str'' => rfl

end Digits

/-! ## Converting -/

/-- A function converts to a sign and digits, of which it can leave out the first ones. -/
structure Converts (bound : Nat) (toa : Option Int → Nat → (Nat → UInt8) → Option (Nat × (Nat → UInt8)))
    (sign digits : List UInt8) : Prop where
  length : ∀ str, toa none 0 str = some ((sign ++ digits).length, str)
  whole : ∀ p str, toa (some p) 0 str =
    (putAt bound p (sign ++ digits) str).map fun str => ((sign ++ digits).length, str)
  cut : ∀ p str k, 0 < k → k < (sign ++ digits).length → toa (some p) k str =
    (putAt bound p (sign ++ digits.drop ((sign ++ digits).length - k)) str).map fun str => (k, str)
  pos : 0 < digits.length
  sign_le : sign.length ≤ 1
  le : (sign ++ digits).length ≤ 65

theorem Converts.ne_nil {toa : Option Int → Nat → (Nat → UInt8) → Option (Nat × (Nat → UInt8))}
    {sign digits : List UInt8} (h : Converts bound toa sign digits) : sign ++ digits ≠ [] := fun hnil =>
  List.length_pos_iff.1 h.pos (List.append_eq_nil_iff.1 hnil).2

theorem uimaxtoa_converts (hb : 2 ≤ base) (integer : UInt64) :
    Converts bound (fun buffer => uimaxtoa bound integer buffer base uppercase) []
      (digitsText base uppercase integer.toNat) where
  length str := (uimaxtoa_eq (p := 0) hb integer rfl).1
  whole p str := by
    rw [(uimaxtoa_eq hb integer rfl).2, if_neg (by omega), Nat.sub_self, List.drop_zero]
    rfl
  cut p str k hk hlt := by
    rw [(uimaxtoa_eq hb integer rfl).2, if_pos ⟨hk, hlt⟩]
    rfl
  pos := length_digitsText_pos
  sign_le := Nat.zero_le _
  le := Nat.le_succ_of_le (length_digitsText_le hb integer)

/-- The value of an unsigned number that stands for the size of a signed one. -/
theorem toNat_of_nonneg {v : Int64} (hv : 0 ≤ v) : v.toUInt64.toNat = v.toInt.natAbs := by
  have hpos : 0 ≤ v.toBitVec.toInt := by
    have hle := Int64.le_iff_toInt_le.1 hv
    exact hle
  have hlt := v.toBitVec.isLt
  have hnat : v.toUInt64.toNat = v.toBitVec.toNat := rfl
  have hint : v.toInt = v.toBitVec.toInt := rfl
  rw [hnat, hint]
  rw [BitVec.toInt_eq_toNat_cond] at hpos ⊢
  split_ifs at hpos ⊢ <;> omega

theorem toNat_of_neg {v : Int64} (hv : ¬0 ≤ v) : (-v).toUInt64.toNat = v.toInt.natAbs := by
  have hneg : ¬0 ≤ v.toBitVec.toInt := fun hle => hv (Int64.le_iff_toInt_le.2 hle)
  have hlt := v.toBitVec.isLt
  have hnat : (-v).toUInt64.toNat = (-v.toBitVec).toNat := rfl
  have hint : v.toInt = v.toBitVec.toInt := rfl
  rw [hnat, hint, BitVec.toNat_neg]
  rw [BitVec.toInt_eq_toNat_cond] at hneg ⊢
  split_ifs at hneg ⊢ <;> omega

/-- The sign of a number, `'+'` only if it is asked for. -/
def signText (plus : Bool) (v : Int64) : List UInt8 := if 0 ≤ v then if plus then [43] else [] else [45]

/-- What follows from a sign that is written in front of the digits. -/
theorem converts_of_sign {toa : Option Int → Nat → (Nat → UInt8) → Option (Nat × (Nat → UInt8))} {c : UInt8}
    {t : List UInt8} (hlen : 0 < t.length ∧ t.length ≤ 64) (hlength : ∀ str, toa none 0 str = some (t.length + 1, str))
    (hwrite : ∀ p str size, size ≤ t.length → toa (some p) size str =
      (putAt bound p ([c] ++ t.drop (t.length + 1 - if 0 < size then size else t.length + 1)) str).map
        fun str => (if 0 < size then size else t.length + 1, str)) : Converts bound toa [c] t where
  length str := by rw [hlength, List.length_append, List.length_singleton, Nat.add_comm]
  whole p str := by
    rw [hwrite p str 0 (Nat.zero_le _), if_neg (Nat.lt_irrefl 0), Nat.sub_self, List.drop_zero, List.length_append,
      List.length_singleton, Nat.add_comm]
  cut p str k hk hlt := by
    rw [List.length_append, List.length_singleton] at hlt ⊢
    rw [hwrite p str k (by omega), if_pos hk, Nat.add_comm 1]
  pos := hlen.1
  sign_le := Nat.le_refl 1
  le := by
    rw [List.length_append, List.length_singleton]
    omega

theorem imaxtoa_converts (hb : 2 ≤ base) (v : Int64) :
    Converts bound (fun buffer => imaxtoa bound v buffer base uppercase) (signText false v)
      (digitsText base uppercase v.toInt.natAbs) := by
  unfold imaxtoa signText
  by_cases hv : 0 ≤ v
  · simp only [if_pos hv, Bool.false_eq_true, if_false]
    rw [← toNat_of_nonneg hv]
    exact uimaxtoa_converts hb v.toUInt64
  · simp only [if_neg hv]
    rw [← toNat_of_neg hv]
    refine converts_of_sign ⟨length_digitsText_pos, length_digitsText_le hb _⟩ (fun str => ?_) fun p str size hsize => ?_
    · dsimp only
      rw [(uimaxtoa_eq (p := 0) hb _ rfl).1]
      rfl
    · exact sign_digits_eq hb _ 45 rfl hsize

theorem simaxtoa_converts (hb : 2 ≤ base) (v : Int64) :
    Converts bound (fun buffer => simaxtoa bound v buffer base uppercase) (signText true v)
      (digitsText base uppercase v.toInt.natAbs) := by
  have hsign : signText true v = [if 0 ≤ v then 43 else 45] := by
    unfold signText
    rw [if_pos rfl]
    split_ifs <;> rfl
  have habs : (if 0 ≤ v then v else -v).toUInt64.toNat = v.toInt.natAbs := by
    split_ifs with hv
    · exact toNat_of_nonneg hv
    · exact toNat_of_neg hv
  unfold simaxtoa
  rw [hsign, ← habs]
  refine converts_of_sign ⟨length_digitsText_pos, length_digitsText_le hb _⟩ (fun str => ?_) fun p str size hsize => ?_
  · dsimp only
    rw [(uimaxtoa_eq (p := 0) hb _ rfl).1]
    rfl
  · exact sign_digits_eq hb _ _ rfl hsize

/-! ## Aligning -/

variable {toa : Option Int → Nat → (Nat → UInt8) → Option (Nat × (Nat → UInt8))} {sign digits : List UInt8}
  {w width filler max c : Int}

theorem paste_eq_put {c : UInt8} {pos : Nat} : paste str pos n (fun _ => c) = put str pos (List.replicate n c) := by
  funext i
  obtain hlt | hge := Nat.lt_or_ge i pos
  · rw [paste_of_lt hlt, put_of_lt hlt]
  · obtain ⟨k, rfl⟩ := Nat.exists_eq_add_of_le hge
    by_cases hk : k < n
    · rw [paste_of_mem hk, put_of_mem (by rwa [List.length_replicate]), List.getElem_replicate]
    · rw [paste_of_ge (by omega), put_of_ge (by rw [List.length_replicate]; omega)]

theorem fill_eq {c : UInt8} : fill bound p c n str = putAt bound p (List.replicate n c) str := by
  unfold fill putAt
  simp only [paste_eq_put, List.replicate_eq_nil_iff, List.length_replicate]

theorem memset_eq (hn : n ≤ 2 ^ 31) :
    memset bound p c n str = putAt bound p (List.replicate n (toChar c)) str := by
  have hle : n ≤ 2 ^ 64 - 2 ^ 31 := by omega
  unfold memset
  rw [Nat.min_eq_left hn, fill_eq]
  simp only [if_pos hle]
  cases putAt bound p (List.replicate n (toChar c)) str with
  | none => rfl
  | some str' => rfl

theorem sizeT_natCast (hn : n < 2 ^ 64) : sizeT n = n := by
  unfold sizeT
  omega

theorem abs_of_natAbs (hw : w.natAbs < 2 ^ 31) : abs w = w.natAbs := by
  unfold abs int32
  split_ifs <;> omega

theorem sizeT_abs (hw : w.natAbs < 2 ^ 31) : sizeT (abs w) = w.natAbs := by
  rw [abs_of_natAbs hw, sizeT_natCast (by omega)]

/-- A sign and digits in a field of the width `w`, on its left if `w` is negative. -/
def alignedText (sign digits : List UInt8) (filler : UInt8) (w : Int) : List UInt8 :=
  if w = 0 then sign ++ digits
  else if w.natAbs < (sign ++ digits).length then sign ++ digits.drop ((sign ++ digits).length - w.natAbs)
  else if w < 0 then sign ++ digits ++ List.replicate (w.natAbs - (sign ++ digits).length) filler
  else List.replicate (w.natAbs - (sign ++ digits).length) filler ++ (sign ++ digits)

theorem length_alignedText {filler : UInt8} (hsign : sign.length ≤ 1) :
    (alignedText sign digits filler w).length = if w = 0 then (sign ++ digits).length else w.natAbs := by
  unfold alignedText
  split_ifs with hzero hcut hneg
  · rfl
  · rw [List.length_append] at hcut ⊢
    rw [List.length_append, List.length_drop]
    omega
  · rw [List.length_append, List.length_replicate]
    omega
  · rw [List.length_append, List.length_replicate]
    omega

/-- **Aligning a number**, in a width that is not the least `int`. -/
theorem maxtoaFill_eq (h : Converts bound toa sign digits) (hmax : 0 ≤ max)
    (hw : (limit width max).natAbs < 2 ^ 31) :
    maxtoaFill bound toa p width filler max str =
      (putAt bound p (alignedText sign digits (toChar filler) (limit width max)) str).map
        fun str => ((alignedText sign digits (toChar filler) (limit width max)).length, str) := by
  have hlen := h.le
  have hpos := List.length_pos_iff.2 h.ne_nil
  rw [length_alignedText h.sign_le]
  unfold maxtoaFill alignedText
  rw [if_neg (Int.not_lt.2 hmax), h.length]
  simp only [Option.bind_eq_bind, Option.bind_some, sizeT_abs hw]
  generalize limit width max = w at hw ⊢
  obtain rfl | hne := eq_or_ne w 0
  · rw [Int.natAbs_zero, if_pos hpos, if_pos rfl, h.whole, if_pos rfl]
  have hwpos : 0 < w.natAbs := by omega
  rw [if_neg hne, if_neg hne, if_neg hne]
  by_cases hcut : w.natAbs < (sign ++ digits).length
  · rw [if_pos hcut, if_pos hcut, h.cut p str _ hwpos hcut]
  obtain ⟨k, hk⟩ : ∃ k, w.natAbs = (sign ++ digits).length + k := Nat.exists_eq_add_of_le (Nat.le_of_not_lt hcut)
  have hfill : sizeT (abs w - (sign ++ digits).length) = k := by
    rw [abs_of_natAbs hw]
    unfold sizeT
    omega
  have hset : ∀ p str, memset bound p filler k str = putAt bound p (List.replicate k (toChar filler)) str :=
    fun p str => memset_eq (by omega)
  have hwhole := h.whole
  rw [if_neg hcut, if_neg hcut, if_neg fun hzero => hne hzero.1, hfill, hk, Nat.add_sub_cancel_left]
  generalize sign ++ digits = t at *
  simp only [hset, hwhole]
  by_cases hleft : w < 0
  · rw [if_pos hleft, if_pos hleft, ← putAt_append]
    cases putAt bound p t str with
    | none => rfl
    | some str' =>
      simp only [Option.bind_some, Option.map_eq_bind]
      rfl
  · have happend := @putAt_append _ bound str (List.replicate k (toChar filler)) t p
    rw [List.length_replicate] at happend
    rw [if_neg hleft, if_neg hleft, ← happend]
    cases putAt bound p (List.replicate k (toChar filler)) str with
    | none => rfl
    | some str' =>
      simp only [Option.bind_some, Option.map_eq_bind]
      cases putAt bound (p + k) t str' with
      | none => rfl
      | some str'' => rfl

/-- In a width that is the least `int`, what is returned is its size as a `size_t`. -/
theorem maxtoaFill_min (h : Converts bound toa sign digits) (hmax : 0 ≤ max) (hw : limit width max = -2 ^ 31)
    {str' : Nat → UInt8} (hfill : maxtoaFill bound toa p width filler max str = some (n, str')) :
    n = 2 ^ 64 - 2 ^ 31 := by
  have hlen := h.le
  have habs : sizeT (abs (-2 ^ 31)) = 2 ^ 64 - 2 ^ 31 := by decide
  unfold maxtoaFill at hfill
  rw [if_neg (Int.not_lt.2 hmax), h.length] at hfill
  simp only [Option.bind_eq_bind, Option.bind_some, hw, habs] at hfill
  rw [if_neg (by omega), if_neg (by omega), if_neg (by omega), if_pos (by decide)] at hfill
  obtain ⟨x, -, hfill⟩ := Option.bind_eq_some_iff.1 hfill
  obtain ⟨y, -, hfill⟩ := Option.bind_eq_some_iff.1 hfill
  simp only [Option.some.injEq, Prod.mk.injEq] at hfill
  exact hfill.1.symm

/-- In front of the buffer nothing can be written. -/
theorem maxtoaFill_neg (h : Converts bound toa sign digits) (hmax : 0 ≤ max) (hp : p < 0)
    (hw : -2 ^ 31 ≤ limit width max ∧ limit width max < 2 ^ 31) :
    maxtoaFill bound toa p width filler max str = none := by
  have hlen := h.le
  have hne := List.length_pos_iff.2 h.ne_nil
  by_cases hmin : limit width max = -2 ^ 31
  · have habs : sizeT (abs (-2 ^ 31)) = 2 ^ 64 - 2 ^ 31 := by decide
    unfold maxtoaFill
    rw [if_neg (Int.not_lt.2 hmax), h.length]
    simp only [Option.bind_eq_bind, Option.bind_some, hmin, habs]
    rw [if_neg (by omega), if_neg (by omega), if_neg (by omega), if_pos (by decide), h.whole,
      putAt_of_not_mem h.ne_nil (Or.inl hp)]
    rfl
  · rw [maxtoaFill_eq h hmax (by omega), putAt_of_not_mem (fun hnil => ?_) (Or.inl hp)]
    · rfl
    · have hlength := @length_alignedText sign digits (limit width max) (toChar filler) h.sign_le
      rw [hnil, List.length_nil] at hlength
      split_ifs at hlength <;> omega

/-! ## Strings -/

variable {string : List UInt8} {s : Nat}

/-- What a string adds to the index: as much as its field, or its length; it goes back if the field is on the left
and too short. -/
def stringCount (length : Nat) (w max : Int) : Int :=
  if w = 0 then min length max else if w < 0 ∧ w.natAbs < length then w else w.natAbs

/-- The room that a string needs at the index `s` of a buffer. Without a width it must not be as long as the room
that is counted. -/
def StringFits (bound s length : Nat) (w max : Int) : Prop :=
  if w < 0 ∧ w.natAbs < length then w.natAbs + s ≤ bound ∧ w.natAbs ≤ s
  else s + stringCount length w max < bound ∧ s + stringCount length w max < 2 ^ 31 ∧
    (w = 0 → if max = 0 then length = 0 else (length : Int) ≠ max)

theorem int32_of_mem {x : Int} (hx : -2 ^ 31 ≤ x ∧ x < 2 ^ 31) : int32 x = x := by
  unfold int32
  omega

theorem int32_sizeT (x : Int) : int32 (sizeT x) = int32 x := by
  unfold sizeT int32
  omega

/-- All characters of a string. -/
theorem strncpy_length : strncpy bound p string string.length str = putAt bound p string str := by
  unfold strncpy
  simp only [List.take_length, Nat.sub_self, fill_eq, List.replicate_zero, putAt_nil]
  cases putAt bound p string str with
  | none => rfl
  | some str' => rfl

/-- A text, and a terminator at `e`. -/
theorem putAt_end {t : List UInt8} {e : Int} {k : Nat} (hs : s < bound) :
    (((putAt bound s t str).bind fun str => (writeAt bound str e 0).bind fun str => some (k, str)).isSome = true ↔
      s + t.length ≤ bound ∧ 0 ≤ e ∧ e < bound) ∧
    ∀ n str', ((putAt bound s t str).bind fun str => (writeAt bound str e 0).bind fun str => some (k, str)) =
      some (n, str') → n = k := by
  by_cases hin : s + t.length ≤ bound
  · rw [putAt_of_mem (by omega) (by omega), Option.bind_some]
    by_cases he : 0 ≤ e ∧ e < bound
    · rw [writeAt_of_mem he.1 he.2, Option.bind_some]
      refine ⟨iff_of_true rfl ⟨hin, he⟩, fun n str' h => ?_⟩
      cases h
      rfl
    · rw [writeAt_of_not_mem (by omega), Option.bind_none]
      exact ⟨iff_of_false Bool.false_ne_true fun h => he h.2, fun n str' h => by cases h⟩
  · have ht : t ≠ [] := by
      rintro rfl
      rw [List.length_nil] at hin
      omega
    rw [putAt_of_not_mem ht (by omega), Option.bind_none]
    exact ⟨iff_of_false Bool.false_ne_true fun h => hin h.1, fun n str' h => by cases h⟩

/-- **A string without a width.** -/
theorem strtostrFill_zero (hmax : 0 ≤ max ∧ max < 2 ^ 31) (hw : limit width max = 0) (hs : s < bound)
    (hbound : bound < 2 ^ 64) :
    ((strtostrFill bound string s width filler max str).isSome = true ↔
      s + stringCount string.length 0 max < bound ∧
        if max = 0 then string.length = 0 else (string.length : Int) ≠ max) ∧
    ∀ n str', strtostrFill bound string s width filler max str = some (n, str') →
      int32 n = stringCount string.length 0 max := by
  have hT : sizeT max = max.toNat := by
    unfold sizeT
    omega
  have hcount : stringCount string.length 0 max = min (string.length : Int) max := if_pos rfl
  unfold strtostrFill
  rw [if_neg (Int.not_lt.2 hmax.1), hcount]
  simp only [hw, ne_eq, not_true_eq_false, false_and, if_false, true_and, hT, Option.bind_eq_bind]
  by_cases hlong : 0 < max ∧ max.toNat < string.length
  · have htake : (string.take max.toNat).length = max.toNat := by
      rw [List.length_take]
      omega
    obtain ⟨hsome, hn⟩ := @putAt_end bound str s (string.take max.toNat) (s + max) max.toNat hs
    rw [if_pos hlong]
    refine ⟨hsome.trans ?_, fun n str' h => ?_⟩
    · rw [htake, if_neg (by omega)]
      omega
    · rw [hn n str' h, int32_of_mem (by omega)]
      omega
  rw [if_neg hlong]
  by_cases hshort : 0 < max ∧ string.length < max.toNat
  · have htake : string.take string.length = string := List.take_length
    obtain ⟨hsome, hn⟩ := @putAt_end bound str s string (s + string.length) string.length hs
    rw [if_pos hshort]
    simp only [memcpy, htake]
    refine ⟨hsome.trans ?_, fun n str' h => ?_⟩
    · rw [if_neg (by omega)]
      omega
    · rw [hn n str' h, int32_of_mem (by omega)]
      omega
  rw [if_neg hshort, if_pos (Int.le_refl 0)]
  have habs : abs 0 = 0 := rfl
  simp only [habs, strncpy_length]
  obtain hnil | hpos := Nat.eq_zero_or_pos string.length
  · obtain rfl : string = [] := List.length_eq_zero_iff.1 hnil
    have hzero : sizeT (0 - (0 : Nat)) = 0 := rfl
    obtain ⟨hsome, hn⟩ := @putAt_end bound str s [] (s + 0) (sizeT 0) hs
    simp only [List.length_nil, hzero, memset_eq (Nat.zero_le _), List.replicate_zero, putAt_nil, Option.bind_some]
      at hsome hn ⊢
    have hmax0 : max = 0 := by omega
    rw [if_pos hmax0]
    refine ⟨hsome.trans ⟨fun h => ⟨by omega, trivial⟩, fun h => ⟨by omega, by omega, by omega⟩⟩, fun n str' h => ?_⟩
    · rw [hn n str' h, show int32 (sizeT 0) = 0 from rfl]
      omega
  · -- the length is taken from 0 and wraps
    have hfar : ∀ str, putAt bound (s + sizeT (0 - string.length)) string str = none := fun str =>
      putAt_of_not_mem (List.length_pos_iff.1 hpos) (by unfold sizeT; omega)
    have hnone : ((memset bound s filler (sizeT (0 - string.length)) str).bind fun str =>
        putAt bound (s + sizeT (0 - string.length)) string str) = none := by
      cases memset bound s filler (sizeT (0 - string.length)) str with
      | none => rfl
      | some str' => exact hfar str'
    rw [hnone, Option.bind_none]
    refine ⟨iff_of_false Bool.false_ne_true fun h => ?_, fun n str' h => by cases h⟩
    split_ifs at h <;> omega

/-- **A string in a field.** -/
theorem strtostrFill_width (hmax : 0 ≤ max) (hw : limit width max = w) (hne : w ≠ 0)
    (hw31 : -2 ^ 31 ≤ w ∧ w < 2 ^ 31) (hs : s < bound) (hs31 : s < 2 ^ 31) :
    ((strtostrFill bound string s width filler max str).isSome = true ↔
      w ≠ -2 ^ 31 ∧ if w < 0 ∧ w.natAbs < string.length then w.natAbs + s ≤ bound ∧ w.natAbs ≤ s
        else s + w.natAbs < bound) ∧
    ∀ n str', strtostrFill bound string s width filler max str = some (n, str') →
      int32 n = stringCount string.length w max := by
  unfold strtostrFill stringCount
  rw [if_neg (Int.not_lt.2 hmax), if_neg hne]
  simp only [hw, ne_eq, hne, not_false_eq_true, false_and, if_false, true_and, Option.bind_eq_bind, strncpy_length]
  by_cases hmin : w = -2 ^ 31
  · have habs : abs (-2 ^ 31) = -2 ^ 31 := by decide
    have hneg : ∀ str : Nat → UInt8, writeAt bound str ((s : Int) + -2 ^ 31) 0 = none := fun str =>
      writeAt_of_not_mem (by omega)
    have hbind : ∀ (x : Option (Nat → UInt8)) (k : Nat), (x.bind fun str =>
        (writeAt bound str ((s : Int) + -2 ^ 31) 0).bind fun str => some (k, str)) = none := by
      intro x k
      cases x with
      | none => rfl
      | some str => rw [Option.bind_some, hneg, Option.bind_none]
    rw [hmin, habs]
    split_ifs
    all_goals
      rw [hbind]
      exact ⟨iff_of_false Bool.false_ne_true fun h => h.1 rfl, fun n str' h => by cases h⟩
  have hw' : w.natAbs < 2 ^ 31 := by omega
  rw [sizeT_abs hw', abs_of_natAbs hw']
  by_cases hlong : w.natAbs < string.length
  · have htake : (string.take w.natAbs).length = w.natAbs := by
      rw [List.length_take]
      omega
    obtain ⟨hsome, hn⟩ := @putAt_end bound str s (string.take w.natAbs) (s + w) (sizeT w) hs
    rw [if_pos hlong]
    refine ⟨hsome.trans ?_, fun n str' h => ?_⟩
    · rw [htake]
      split_ifs <;> omega
    · rw [hn n str' h, int32_sizeT, int32_of_mem hw31]
      split_ifs <;> omega
  have hcount : ¬(w < 0 ∧ w.natAbs < string.length) := fun h => hlong h.2
  have hsizeF : sizeT (w.natAbs - string.length) = w.natAbs - string.length := by
    unfold sizeT
    omega
  rw [if_neg hlong, if_neg hcount, if_neg hcount, hsizeF]
  obtain ⟨k, hk⟩ := Nat.exists_eq_add_of_le (Nat.le_of_not_lt hlong)
  have hset : ∀ p str, memset bound p filler k str = putAt bound p (List.replicate k (toChar filler)) str :=
    fun p str => memset_eq (by omega)
  rw [hk, Nat.add_sub_cancel_left]
  simp only [hset]
  have hint : ∀ n : Nat, n = string.length + k → int32 n = (string.length + k : Nat) := by
    rintro n rfl
    exact int32_of_mem (by omega)
  by_cases hright : 0 ≤ w
  · have happend := @putAt_append _ bound str (List.replicate k (toChar filler)) string s
    obtain ⟨hsome, hn⟩ := @putAt_end bound str s (List.replicate k (toChar filler) ++ string)
      (s + (string.length + k : Nat)) (string.length + k) hs
    rw [List.length_replicate] at happend
    rw [List.length_append, List.length_replicate, ← happend] at hsome
    rw [← happend] at hn
    rw [if_pos hright]
    refine ⟨hsome.trans ?_, fun n str' h => hint n (hn n str' h)⟩
    omega
  · have happend := @putAt_append _ bound str string (List.replicate k (toChar filler)) s
    obtain ⟨hsome, hn⟩ := @putAt_end bound str s (string ++ List.replicate k (toChar filler))
      (s + (string.length + k : Nat)) (string.length + k) hs
    rw [List.length_append, List.length_replicate, ← happend] at hsome
    rw [← happend] at hn
    rw [if_neg hright]
    refine ⟨hsome.trans ?_, fun n str' h => hint n (hn n str' h)⟩
    omega

/-- **A string** is written exactly if it fits, where the index does not get too large for an `int`. -/
theorem strtostrFill_spec (hmax : 0 ≤ max ∧ max < 2 ^ 31) (hw : limit width max = w)
    (hw31 : -2 ^ 31 ≤ w ∧ w < 2 ^ 31) (hs : s < bound) (hs31 : s < 2 ^ 31) (hbound : bound < 2 ^ 64) :
    ((strtostrFill bound string s width filler max str).isSome = true ∧ s + stringCount string.length w max < 2 ^ 31 ↔
      StringFits bound s string.length w max) ∧
    ∀ n str', strtostrFill bound string s width filler max str = some (n, str') →
      int32 n = stringCount string.length w max := by
  unfold StringFits
  obtain rfl | hne := eq_or_ne w 0
  · obtain ⟨hsome, hn⟩ := @strtostrFill_zero bound str width filler max string s hmax hw hs hbound
    have hback : ¬((0 : Int) < 0 ∧ (0 : Int).natAbs < string.length) := fun h => Int.lt_irrefl 0 h.1
    refine ⟨?_, hn⟩
    rw [hsome, if_neg hback]
    constructor
    · rintro ⟨⟨hlt, hlen⟩, h31⟩
      exact ⟨hlt, h31, fun _ => hlen⟩
    · rintro ⟨hlt, h31, hlen⟩
      exact ⟨⟨hlt, hlen rfl⟩, h31⟩
  · obtain ⟨hsome, hn⟩ := @strtostrFill_width bound str w width filler max string s hmax.1 hw hne hw31 hs hs31
    refine ⟨?_, hn⟩
    rw [hsome]
    unfold stringCount
    rw [if_neg hne]
    by_cases hback : w < 0 ∧ w.natAbs < string.length
    · rw [if_pos hback, if_pos hback, if_pos hback]
      constructor
      · rintro ⟨⟨-, hfits⟩, -⟩
        exact hfits
      · rintro ⟨hle, hstart⟩
        exact ⟨⟨by omega, hle, hstart⟩, by omega⟩
    · rw [if_neg hback, if_neg hback, if_neg hback]
      constructor
      · rintro ⟨⟨-, hlt⟩, h31⟩
        exact ⟨by omega, h31, fun h => absurd h hne⟩
      · rintro ⟨hlt, h31, -⟩
        exact ⟨⟨by omega, by omega⟩, h31⟩

theorem sizeT_abs_pos (hne : w ≠ 0) (hw31 : -2 ^ 31 ≤ w ∧ w < 2 ^ 31) : 0 < sizeT (abs w) := by
  unfold sizeT abs int32
  split_ifs <;> omega

theorem memset_neg (hp : p < 0) (hn : 0 < n) : memset bound p c n str = none := by
  unfold memset
  rw [fill_eq, putAt_of_not_mem (by simpa using Nat.pos_iff_ne_zero.1 hn) (Or.inl hp)]
  rfl

/-- In front of the buffer no string can be written, not even an empty one. -/
theorem strtostrFill_neg (hmax : 0 ≤ max ∧ max < 2 ^ 31) (hw31 : -2 ^ 31 ≤ limit width max ∧ limit width max < 2 ^ 31)
    (hp : p < 0) : strtostrFill bound string p width filler max str = none := by
  have hput : ∀ {t : List UInt8} (str : Nat → UInt8), t ≠ [] → putAt bound p t str = none := fun str ht =>
    putAt_of_not_mem ht (Or.inl hp)
  have htake : ∀ {k : Nat}, 0 < k → k < string.length → string.take k ≠ [] := by
    intro k hk hlt hnil
    have hlen := congrArg List.length hnil
    rw [List.length_take, List.length_nil] at hlen
    omega
  have hT : sizeT max = max.toNat := by
    unfold sizeT
    omega
  unfold strtostrFill memcpy
  rw [if_neg (Int.not_lt.2 hmax.1)]
  simp only [hT, strncpy_length, Option.bind_eq_bind]
  generalize limit width max = w at hw31
  split_ifs with hcut hlong hshort hright
  · rw [hput str (htake (sizeT_abs_pos hcut.1 hw31) hcut.2)]
    rfl
  · rw [hput str (htake (by omega) hlong.2.2)]
    rfl
  · obtain rfl | hne := eq_or_ne string []
    · rw [List.take_nil, putAt_nil, Option.bind_some, List.length_nil,
        writeAt_of_not_mem (by omega)]
      rfl
    · rw [List.take_length, hput str hne]
      rfl
  · obtain hF | hF := Nat.eq_zero_or_pos (sizeT (abs w - string.length))
    · rw [hF, memset_eq (Nat.zero_le _), List.replicate_zero, putAt_nil, Option.bind_some]
      obtain rfl | hne := eq_or_ne string []
      · have hw0 : w = 0 := by
          by_contra hne
          have hpos := sizeT_abs_pos hne hw31
          rw [List.length_nil, Int.natCast_zero, Int.sub_zero] at hF
          omega
        have habs : abs 0 = 0 := rfl
        rw [hw0, habs, Int.add_zero, putAt_nil, Option.bind_some, writeAt_of_not_mem (Or.inl hp)]
        rfl
      · rw [Int.natCast_zero, Int.add_zero, hput str hne]
        rfl
    · rw [memset_neg hp hF]
      rfl
  · obtain rfl | hne := eq_or_ne string []
    · have hpos := sizeT_abs_pos (w := w) (by omega) hw31
      rw [putAt_nil, List.length_nil, Int.natCast_zero, Int.sub_zero, Int.add_zero, Option.bind_some,
        memset_neg hp hpos]
      rfl
    · rw [hput str hne]
      rfl

end ChenixOS.Stdio
