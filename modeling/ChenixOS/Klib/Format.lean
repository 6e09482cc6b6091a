import ChenixOS.Klib.Itoa
import ChenixOS.Lib.Loop

/-!
# Format strings

The parsers of conversions and the loop over a format that klib/stdio.cpp, klib/ksprintf.cpp and klib/kfprintf.cpp
each have a copy of. A pointer into the format is what is left of its bytes, the terminator included; to read at the
end of them is to leave the string.

The character of the conversion is taken for one whatever it is, and so is the one behind a `'.'`; the loop goes on
behind it. **Theorem (`formatLoop_iff`).** The loop stays inside of the format and stops exactly if its index can count
the format's characters and every conversion is complete (`Complete`).
-/

namespace ChenixOS.Printf

open Loop Itoa

variable {α σ : Type} {fmt s t : List UInt8} {i n : Nat} {c : UInt8} {p : UInt8 → Bool}

/-! ## The parsers -/

structure Format where
  leftJustify : Bool
  forceSign : Bool
  spaceIfNoSign : Bool
  leftPadWithZeroes : Bool
  argWidth : Bool
  minWidth : Int
  argPrecision : Bool
  precision : Int
deriving DecidableEq

/-- `Format outFormat = { 0 }` -/
def Format.zero : Format := ⟨false, false, false, false, false, 0, false, 0⟩

/-- A loop over the characters that `step` takes, with an `int` for their index. -/
def scan (step : α → UInt8 → Option α) : List UInt8 → α → Nat → Option (List UInt8 × α)
  | [], _, _ => none
  | c :: str, a, i =>
    match step a c with
    | none => some (c :: str, a)
    | some a => if i + 1 < 2 ^ 31 then scan step str a (i + 1) else none

def isDigit (c : UInt8) : Bool := decide (48 ≤ c ∧ c ≤ 57)

/-- `res *= 10; res += str[i] - '0';` -/
def digitStep (res : Int) (c : UInt8) : Option Int :=
  if isDigit c then some (int32 (int32 (res * 10) + (c.toNat - 48))) else none

def stoui (str : List UInt8) : Option (List UInt8 × Int) := scan digitStep str 0 0

/-- The `switch` over the flags. -/
def flagStep (flags : Format) (c : UInt8) : Option Format :=
  if c = 45 then some { flags with leftJustify := true }
  else if c = 43 then some { flags with forceSign := true }
  else if c = 32 then some { flags with spaceIfNoSign := true }
  else if c = 48 then some { flags with leftPadWithZeroes := true }
  else none

def parseFlags (fmt : List UInt8) (flags : Format) : Option (List UInt8 × Format) := scan flagStep fmt flags 0

def parseWidth : List UInt8 → Format → Option (List UInt8 × Format)
  | [], _ => none
  | c :: fmt, flags =>
    if c = 42 then some (fmt, { flags with argWidth := true })
    else if isDigit c then do
      let (fmt, width) ← stoui (c :: fmt)
      some (fmt, { flags with minWidth := width })
    else some (c :: fmt, flags)

/-- Behind the `'.'`; what is neither a number nor `'*'` is passed over, whatever it is. -/
def parsePrecisionValue : List UInt8 → Format → Option (List UInt8 × Format)
  | [], _ => none
  | c :: fmt, flags =>
    if isDigit c then do
      let (fmt, prec) ← stoui (c :: fmt)
      some (fmt, { flags with precision := prec })
    else if c = 42 then some (fmt, { flags with argPrecision := true })
    else some (fmt, flags)

def parsePrecision : List UInt8 → Format → Option (List UInt8 × Format)
  | [], _ => none
  | c :: fmt, flags => if c = 46 then parsePrecisionValue fmt flags else some (c :: fmt, flags)

/-- What stands behind a `'%'`: the format, the character of the conversion, and `tmp` behind it. -/
def parseConversion (fmt : List UInt8) : Option (Format × UInt8 × List UInt8) := do
  let (tmp, outFormat) ← parseFlags fmt .zero
  let (tmp, outFormat) ← parseWidth tmp outFormat
  let (tmp, outFormat) ← parsePrecision tmp outFormat
  match tmp with
  | [] => none
  | f :: tmp => some (outFormat, f, tmp)

/-! ## The loop -/

/-- One round: `lit` is what is done with a character, `conv` what is done with a conversion. `i` is a `uint32`. -/
def formatRound (lit : UInt8 → σ → σ) (conv : Format → UInt8 → σ → σ) (format : List UInt8) :
    Nat × σ → Option (Round (Nat × σ) σ)
  | (i, a) =>
    match format.drop i with
    | [] => none
    | c :: _ =>
      if c = 0 then some (.done a)
      else if c = 37 then
        let i := (i + 1) % 2 ^ 32
        match parseConversion (format.drop i) with
        | none => none
        | some (outFormat, f, tmp) =>
          some (.next ((i + ((format.drop i).length - tmp.length)) % 2 ^ 32, conv outFormat f a))
      else some (.next ((i + 1) % 2 ^ 32, lit c a))

/-! ## Complete conversions -/

def isFlag (c : UInt8) : Bool := decide (c = 45 ∨ c = 43 ∨ c = 32 ∨ c = 48)

/-- The text behind the characters that `p` takes, if an `int` can count them. -/
def scanRest (p : UInt8 → Bool) (s : List UInt8) : Option (List UInt8) :=
  if (s.takeWhile p).length < 2 ^ 31 then some (s.dropWhile p) else none

/-- The text behind a width: `'*'` or a number, which may be missing. -/
def widthRest : List UInt8 → Option (List UInt8)
  | [] => some []
  | c :: s => if c = 42 then some s else scanRest isDigit (c :: s)

/-- The text behind a precision: behind its `'.'` stand a number or one character of any other kind. -/
def precisionRest : List UInt8 → Option (List UInt8)
  | [] => some []
  | c :: s =>
    if c = 46 then
      match s with
      | [] => none
      | d :: s => if isDigit d then scanRest isDigit (d :: s) else some s
    else some (c :: s)

/-- The text behind a conversion, if there is a character left for it. -/
def conversionRest (s : List UInt8) : Option (List UInt8) := do
  let s ← scanRest isFlag s
  let s ← widthRest s
  let s ← precisionRest s
  match s with
  | [] => none
  | _ :: s => some s

/-- No conversion is cut off by the end of the format. -/
inductive Complete : List UInt8 → Prop where
  | nil : Complete []
  | char {c : UInt8} {s : List UInt8} : c ≠ 37 → Complete s → Complete (c :: s)
  | conv {s s' : List UInt8} : conversionRest s = some s' → Complete s' → Complete (37 :: s)

/-! ## The parsers over a text with its terminator -/

/-- A parser comes to the text `s'` behind what it takes, or fails. -/
def Parses (o : Option (List UInt8 × α)) : Option (List UInt8) → Prop
  | some s' => ∃ a, o = some (s' ++ [0], a)
  | none => o = none

/-- A parser whose result is stored. -/
theorem Parses.map {β : Type} {f : α → β} {o : Option (List UInt8 × α)} {r : Option (List UInt8)} (h : Parses o r) :
    Parses (o.bind fun x => some (x.1, f x.2)) r := by
  cases r with
  | none =>
    rw [show o = none from h]
    rfl
  | some s' =>
    obtain ⟨a, rfl⟩ := h
    exact ⟨f a, rfl⟩

/-- **The loops over flags and digits.** -/
theorem scan_append {step : α → UInt8 → Option α} (hp : ∀ a c, (step a c).isSome = p c) (h0 : p 0 = false) (a : α)
    (hi : i < 2 ^ 31) :
    Parses (scan step (s ++ [0]) a i) (if i + (s.takeWhile p).length < 2 ^ 31 then some (s.dropWhile p) else none) := by
  have hstop {a : α} {c : UInt8} (hc : p c = false) : step a c = none :=
    Option.not_isSome_iff_eq_none.1 (by rw [hp, hc]; exact Bool.false_ne_true)
  induction s generalizing a i with
  | nil =>
    rw [List.nil_append, scan, hstop h0, List.takeWhile_nil, List.length_nil, if_pos (by omega)]
    exact ⟨a, rfl⟩
  | cons c s ih =>
    rw [List.cons_append, scan, List.takeWhile_cons, List.dropWhile_cons]
    cases hc : p c with
    | false =>
      rw [hstop hc]
      simp only [Bool.false_eq_true, if_false, List.length_nil, Nat.add_zero, if_pos hi]
      exact ⟨a, rfl⟩
    | true =>
      obtain ⟨a', ha'⟩ := Option.isSome_iff_exists.1 ((hp a c).trans hc)
      rw [ha']
      simp only [if_true, List.length_cons]
      by_cases hnext : i + 1 < 2 ^ 31
      · rw [if_pos hnext, ← Nat.add_assoc, Nat.add_right_comm]
        exact ih a' hnext
      · rw [if_neg hnext, if_neg (by omega)]
        rfl

theorem scanRest_append {step : α → UInt8 → Option α} (hp : ∀ a c, (step a c).isSome = p c) (h0 : p 0 = false)
    (a : α) : Parses (scan step (s ++ [0]) a 0) (scanRest p s) := by
  have hscan := scan_append (s := s) hp h0 a (by decide : 0 < 2 ^ 31)
  rw [Nat.zero_add] at hscan
  exact hscan

theorem digitStep_isSome (res : Int) (c : UInt8) : (digitStep res c).isSome = isDigit c := by
  unfold digitStep
  split_ifs with hc
  · rw [hc]
    rfl
  · rw [Bool.eq_false_iff.2 hc]
    rfl

theorem flagStep_isSome (flags : Format) (c : UInt8) : (flagStep flags c).isSome = isFlag c := by
  unfold flagStep isFlag
  split_ifs <;> simp [*]

theorem stoui_append : Parses (stoui (s ++ [0])) (scanRest isDigit s) :=
  scanRest_append digitStep_isSome (by decide) 0

theorem parseFlags_append (flags : Format) : Parses (parseFlags (s ++ [0]) flags) (scanRest isFlag s) :=
  scanRest_append flagStep_isSome (by decide) flags

theorem scanRest_of_false (hc : p c = false) : scanRest p (c :: s) = some (c :: s) := by
  simp [scanRest, hc]

theorem parseWidth_append (flags : Format) : Parses (parseWidth (s ++ [0]) flags) (widthRest s) := by
  cases s with
  | nil => exact ⟨_, rfl⟩
  | cons c s =>
    rw [List.cons_append, parseWidth, widthRest]
    by_cases hstar : c = 42
    · rw [if_pos hstar, if_pos hstar]
      exact ⟨_, rfl⟩
    · rw [if_neg hstar, if_neg hstar]
      cases hc : isDigit c with
      | false =>
        rw [if_neg Bool.false_ne_true, scanRest_of_false hc]
        exact ⟨_, rfl⟩
      | true =>
        rw [if_pos rfl]
        exact (stoui_append (s := c :: s)).map (f := fun width => { flags with minWidth := width })

theorem parsePrecisionValue_append (flags : Format) : Parses (parsePrecisionValue (c :: s ++ [0]) flags)
    (if isDigit c then scanRest isDigit (c :: s) else some s) := by
  rw [List.cons_append, parsePrecisionValue]
  cases hc : isDigit c with
  | true =>
    rw [if_pos rfl, if_pos rfl]
    exact (stoui_append (s := c :: s)).map (f := fun prec => { flags with precision := prec })
  | false =>
    rw [if_neg Bool.false_ne_true, if_neg Bool.false_ne_true]
    split_ifs <;> exact ⟨_, rfl⟩

/-- Behind a `'.'` at the end of the text the parser leaves the string. -/
theorem parsePrecision_dot (flags : Format) : parsePrecision ([46] ++ [0]) flags = some ([], flags) := rfl

theorem parsePrecision_append (hne : s ≠ [46]) (flags : Format) :
    Parses (parsePrecision (s ++ [0]) flags) (precisionRest s) := by
  cases s with
  | nil => exact ⟨_, rfl⟩
  | cons c s =>
    rw [List.cons_append, parsePrecision, precisionRest.eq_def]
    dsimp only
    by_cases hdot : c = 46
    · rw [if_pos hdot, if_pos hdot]
      cases s with
      | nil => exact absurd (by rw [hdot]) hne
      | cons d s => exact parsePrecisionValue_append flags
    · rw [if_neg hdot, if_neg hdot]
      exact ⟨_, rfl⟩

/-- **A conversion is taken up to its character**; if there is none, the parser fails or passes the terminator. -/
theorem parseConversion_append (s : List UInt8) :
    (∃ t, conversionRest s = some t ∧ ∃ outFormat f, parseConversion (s ++ [0]) = some (outFormat, f, t ++ [0])) ∨
      conversionRest s = none ∧
        (parseConversion (s ++ [0]) = none ∨ ∃ outFormat f, parseConversion (s ++ [0]) = some (outFormat, f, [])) := by
  simp only [conversionRest, parseConversion, Option.bind_eq_bind]
  have hflags := parseFlags_append (s := s) .zero
  cases h₁ : scanRest isFlag s with
  | none =>
    rw [h₁] at hflags
    exact .inr ⟨rfl, .inl (by rw [show parseFlags _ _ = none from hflags]; rfl)⟩
  | some s₁ =>
    rw [h₁] at hflags
    obtain ⟨a₁, hflags⟩ := hflags
    rw [hflags, Option.bind_some, Option.bind_some]
    have hwidth := parseWidth_append (s := s₁) a₁
    cases h₂ : widthRest s₁ with
    | none =>
      rw [h₂] at hwidth
      exact .inr ⟨rfl, .inl (by dsimp only; rw [show parseWidth _ _ = none from hwidth]; rfl)⟩
    | some s₂ =>
      rw [h₂] at hwidth
      obtain ⟨a₂, hwidth⟩ := hwidth
      dsimp only
      rw [hwidth, Option.bind_some, Option.bind_some]
      by_cases hdot : s₂ = [46]
      · rw [hdot]
        exact .inr ⟨rfl, .inl rfl⟩
      · have hprec := parsePrecision_append hdot a₂
        cases h₃ : precisionRest s₂ with
        | none =>
          rw [h₃] at hprec
          exact .inr ⟨rfl, .inl (by dsimp only; rw [show parsePrecision _ _ = none from hprec]; rfl)⟩
        | some s₃ =>
          rw [h₃] at hprec
          obtain ⟨a₃, hprec⟩ := hprec
          dsimp only
          rw [hprec]
          cases s₃ with
          | nil => exact .inr ⟨rfl, .inr ⟨a₃, 0, rfl⟩⟩
          | cons f s₃ => exact .inl ⟨s₃, rfl, a₃, f, rfl⟩

theorem scanRest_suffix (h : scanRest p s = some t) : t <:+ s := by
  unfold scanRest at h
  split_ifs at h
  cases h
  exact List.dropWhile_suffix p

theorem widthRest_suffix (h : widthRest s = some t) : t <:+ s := by
  cases s with
  | nil => cases h; exact List.suffix_rfl
  | cons c s =>
    rw [widthRest] at h
    split_ifs at h
    · cases h
      exact List.suffix_cons c t
    · exact scanRest_suffix h

theorem precisionRest_suffix (h : precisionRest s = some t) : t <:+ s := by
  rw [precisionRest.eq_def] at h
  split at h
  · cases h
    exact List.suffix_rfl
  · split_ifs at h
    · split at h
      · cases h
      · split_ifs at h
        · exact (scanRest_suffix h).trans (List.suffix_cons _ _)
        · cases h
          exact (List.suffix_cons _ _).trans (List.suffix_cons _ _)
    · cases h
      exact List.suffix_rfl

/-- What is left of the text is a part of it. -/
theorem conversionRest_suffix (h : conversionRest s = some t) : t <:+ s := by
  simp only [conversionRest, Option.bind_eq_bind] at h
  obtain ⟨s₁, hflags, h⟩ := Option.bind_eq_some_iff.1 h
  obtain ⟨s₂, hwidth, h⟩ := Option.bind_eq_some_iff.1 h
  obtain ⟨s₃, hprec, h⟩ := Option.bind_eq_some_iff.1 h
  have hsuffix := (precisionRest_suffix hprec).trans ((widthRest_suffix hwidth).trans (scanRest_suffix hflags))
  cases s₃ with
  | nil => cases h
  | cons f s₃ =>
    cases h
    exact (List.suffix_cons f t).trans hsuffix

/-! ## The numbers of a format -/

/-- Width and precision are values of an `int`. -/
structure Format.Ints (fmt : Format) : Prop where
  minWidth : -2 ^ 31 ≤ fmt.minWidth ∧ fmt.minWidth < 2 ^ 31
  precision : -2 ^ 31 ≤ fmt.precision ∧ fmt.precision < 2 ^ 31

theorem Format.Ints.withWidth {f : Format} (h : f.Ints) {x : Int} (hx : -2 ^ 31 ≤ x ∧ x < 2 ^ 31) :
    ({ f with minWidth := x } : Format).Ints where
  minWidth := hx
  precision := h.precision

theorem Format.Ints.withPrecision {f : Format} (h : f.Ints) {x : Int} (hx : -2 ^ 31 ≤ x ∧ x < 2 ^ 31) :
    ({ f with precision := x } : Format).Ints where
  minWidth := h.minWidth
  precision := hx

theorem int32_mem (x : Int) : -2 ^ 31 ≤ int32 x ∧ int32 x < 2 ^ 31 := by
  unfold int32
  omega

/-- What every step of a scan keeps holds of its result. -/
theorem scan_inv {step : α → UInt8 → Option α} {I : α → Prop} {a b : α}
    (hstep : ∀ a c b, I a → step a c = some b → I b) (ha : I a) (h : scan step s a i = some (t, b)) : I b := by
  induction s generalizing a i with
  | nil => cases h
  | cons c s ih =>
    rw [scan] at h
    split at h
    · cases h
      exact ha
    · next a' hc =>
      split_ifs at h
      exact ih (hstep a c a' ha hc) h

theorem stoui_int {x : Int} (h : stoui s = some (t, x)) : -2 ^ 31 ≤ x ∧ x < 2 ^ 31 := by
  refine scan_inv (I := fun x => -2 ^ 31 ≤ x ∧ x < 2 ^ 31) (fun a c b _ hb => ?_) (by decide) h
  unfold digitStep at hb
  split_ifs at hb
  cases hb
  exact int32_mem _

theorem parseFlags_ints {f f' : Format} (hf : f.Ints) (h : parseFlags s f = some (t, f')) : f'.Ints := by
  refine scan_inv (I := Format.Ints) (fun a c b ha hb => ?_) hf h
  unfold flagStep at hb
  split_ifs at hb <;> cases hb <;> exact ⟨ha.minWidth, ha.precision⟩

theorem parseWidth_ints {f f' : Format} (hf : f.Ints) (h : parseWidth s f = some (t, f')) : f'.Ints := by
  cases s with
  | nil => cases h
  | cons c s =>
    rw [parseWidth] at h
    split_ifs at h
    · cases h
      exact ⟨hf.minWidth, hf.precision⟩
    · obtain ⟨⟨t', x⟩, hx, hrest⟩ := Option.bind_eq_some_iff.1 h
      cases hrest
      exact hf.withWidth (stoui_int hx)
    · cases h
      exact hf

theorem parsePrecision_ints {f f' : Format} (hf : f.Ints) (h : parsePrecision s f = some (t, f')) : f'.Ints := by
  cases s with
  | nil => cases h
  | cons c s =>
    rw [parsePrecision] at h
    split_ifs at h
    · cases s with
      | nil => cases h
      | cons d s =>
        rw [parsePrecisionValue] at h
        split_ifs at h
        · obtain ⟨⟨t', x⟩, hx, hrest⟩ := Option.bind_eq_some_iff.1 h
          cases hrest
          exact hf.withPrecision (stoui_int hx)
        · cases h
          exact ⟨hf.minWidth, hf.precision⟩
        · cases h
          exact hf
    · cases h
      exact hf

theorem parseConversion_ints {f : Format} (h : parseConversion s = some (f, c, t)) : f.Ints := by
  simp only [parseConversion, Option.bind_eq_bind] at h
  obtain ⟨⟨s₁, f₁⟩, hflags, h⟩ := Option.bind_eq_some_iff.1 h
  obtain ⟨⟨s₂, f₂⟩, hwidth, h⟩ := Option.bind_eq_some_iff.1 h
  obtain ⟨⟨s₃, f₃⟩, hprec, h⟩ := Option.bind_eq_some_iff.1 h
  have hzero : Format.zero.Ints := ⟨by decide, by decide⟩
  cases s₃ with
  | nil => cases h
  | cons d s₃ =>
    cases h
    exact parsePrecision_ints (parseWidth_ints (parseFlags_ints hzero hflags) hwidth) hprec

/-! ## The loop over a format -/

/-- The items of a text: characters, and conversions as the parser gives them. -/
inductive Item where
  | lit (c : UInt8)
  | conv (outFormat : Format) (f : UInt8)

inductive Items : List UInt8 → List Item → Prop where
  | nil : Items [] []
  | char {c : UInt8} {s : List UInt8} {items : List Item} : c ≠ 37 → Items s items → Items (c :: s) (.lit c :: items)
  | conv {s t : List UInt8} {outFormat : Format} {f : UInt8} {items : List Item} : conversionRest s = some t →
      parseConversion (s ++ [0]) = some (outFormat, f, t ++ [0]) → Items t items →
      Items (37 :: s) (.conv outFormat f :: items)

/-- A text has items exactly if its conversions are complete. -/
theorem exists_items_iff : (∃ items, Items s items) ↔ Complete s := by
  constructor
  · rintro ⟨items, h⟩
    induction h with
    | nil => exact .nil
    | char hc _ ih => exact .char hc ih
    | conv hrest _ _ ih => exact .conv hrest ih
  · intro h
    induction h with
    | nil => exact ⟨_, .nil⟩
    | char hc _ ih =>
      obtain ⟨items, hitems⟩ := ih
      exact ⟨_, .char hc hitems⟩
    | @conv s t hrest _ ih =>
      obtain ⟨items, hitems⟩ := ih
      rcases parseConversion_append s with ⟨t', hrest', outFormat, f, hparse⟩ | ⟨hnone, -⟩
      · rw [hrest] at hrest'
        cases hrest'
        exact ⟨_, .conv hrest hparse hitems⟩
      · rw [hrest] at hnone
        cases hnone

section Loop

variable {lit : UInt8 → σ → σ} {conv : Format → UInt8 → σ → σ} {a : σ}

def perform (lit : UInt8 → σ → σ) (conv : Format → UInt8 → σ → σ) (a : σ) : Item → σ
  | .lit c => lit c a
  | .conv outFormat f => conv outFormat f a

/-- `&format[i]` is at the text `s`. -/
def At (fmt : List UInt8) (i : Nat) (s : List UInt8) : Prop := i + s.length = fmt.length ∧ fmt.drop i = s

theorem At.drop (h : At fmt i s) : (fmt ++ [0]).drop i = s ++ [0] := by
  rw [List.drop_append_of_le_length (Nat.le.intro h.1), h.2]

theorem at_zero : At fmt 0 fmt := ⟨Nat.zero_add _, rfl⟩

theorem at_suffix (h : s <:+ fmt) : At fmt (fmt.length - s.length) s :=
  ⟨Nat.sub_add_cancel h.length_le, List.suffix_iff_eq_drop.1 h |>.symm⟩

theorem At.suffix (h : At fmt i s) : s <:+ fmt := h.2 ▸ List.drop_suffix i fmt

theorem At.tail (h : At fmt i (c :: s)) : At fmt (i + 1) s := by
  refine ⟨?_, ?_⟩
  · rw [← h.1, List.length_cons]
    omega
  · rw [← List.drop_drop, h.2]
    rfl

theorem At.lt (h : At fmt i (c :: s)) : i < fmt.length := by
  rw [← h.1, List.length_cons]
  omega

theorem At.ne_zero (h : At fmt i (c :: s)) (h0 : 0 ∉ fmt) : c ≠ 0 := by
  rintro rfl
  exact h0 (h.suffix.subset List.mem_cons_self)

/-- At the end of the format the loop is left. -/
theorem formatRound_nil (h : At fmt i []) : formatRound lit conv (fmt ++ [0]) (i, a) = some (.done a) := by
  rw [formatRound, h.drop]
  rfl

theorem formatRound_char (h : At fmt i (c :: s)) (h0 : 0 ∉ fmt) (hc : c ≠ 37) :
    formatRound lit conv (fmt ++ [0]) (i, a) = some (.next ((i + 1) % 2 ^ 32, lit c a)) := by
  rw [formatRound, h.drop]
  dsimp only [List.cons_append]
  rw [if_neg (h.ne_zero h0), if_neg hc]

/-- A conversion: the loop goes on where the parser left the format. -/
theorem formatRound_conv (h : At fmt i (37 :: s)) (hlen : fmt.length < 2 ^ 32) :
    formatRound lit conv (fmt ++ [0]) (i, a) = (parseConversion (s ++ [0])).map fun x =>
      .next ((i + 1 + ((s ++ [0]).length - x.2.2.length)) % 2 ^ 32, conv x.1 x.2.1 a) := by
  have hnext : (i + 1) % 2 ^ 32 = i + 1 := Nat.mod_eq_of_lt (by have := h.lt; omega)
  rw [formatRound, h.drop]
  dsimp only [List.cons_append]
  rw [if_neg (by decide), if_pos rfl, hnext, h.tail.drop]
  cases parseConversion (s ++ [0]) <;> rfl

/-- `i += (uint64)tmp - (uint64)&format[i]` -/
theorem At.behind (h : At fmt i (c :: s)) (hlen : fmt.length < 2 ^ 32) (hrest : conversionRest s = some t) :
    At fmt ((i + 1 + ((s ++ [0]).length - (t ++ [0]).length)) % 2 ^ 32) t := by
  have hsuffix : t <:+ s := conversionRest_suffix hrest
  have hpos : (i + 1 + ((s ++ [0]).length - (t ++ [0]).length)) % 2 ^ 32 = fmt.length - t.length := by
    have hle := hsuffix.length_le
    have hlength := h.tail.1
    simp only [List.length_append, List.length_singleton]
    omega
  rw [hpos]
  exact at_suffix (hsuffix.trans h.tail.suffix)

/-- **The loop over a format whose conversions are complete** goes through its items. -/
theorem returns_of_items {items : List Item} (h : Items s items) (hat : At fmt i s) (h0 : 0 ∉ fmt)
    (hlen : fmt.length < 2 ^ 32) :
    Returns (formatRound lit conv (fmt ++ [0])) (i, a) (items.foldl (perform lit conv) a) := by
  induction h generalizing i a with
  | nil => exact .done (formatRound_nil hat)
  | char hc _ ih =>
    have hnext := Nat.mod_eq_of_lt (by have := hat.lt; omega : i + 1 < 2 ^ 32)
    refine .next (formatRound_char hat h0 hc) ?_
    rw [hnext]
    exact ih hat.tail
  | conv hrest hparse _ ih =>
    refine .next (by rw [formatRound_conv hat hlen, hparse]; rfl) ?_
    exact ih (hat.behind hlen hrest)

/-- Before the terminator no round leaves the loop, and `i` stays a `uint32`. -/
theorem formatRound_of_lt (h0 : 0 ∉ fmt) (hi : i < fmt.length) {r : Round (Nat × σ) σ}
    (h : formatRound lit conv (fmt ++ [0]) (i, a) = some r) : ∃ i' a', r = .next (i', a') ∧ i' < 2 ^ 32 := by
  have hat := at_suffix (List.drop_suffix i fmt)
  rw [List.length_drop, Nat.sub_sub_self (Nat.le_of_lt hi)] at hat
  rw [List.drop_eq_getElem_cons hi] at hat
  rw [formatRound, hat.drop] at h
  dsimp only [List.cons_append] at h
  rw [if_neg (hat.ne_zero h0)] at h
  split_ifs at h
  · split at h
    · cases h
    · cases h
      exact ⟨_, _, rfl, Nat.mod_lt _ (by decide)⟩
  · cases h
    exact ⟨_, _, rfl, Nat.mod_lt _ (by decide)⟩

/-- A format that `i` cannot count is gone through for ever. -/
theorem not_returns_of_long {b : σ} (h0 : 0 ∉ fmt) (hlen : 2 ^ 32 ≤ fmt.length) :
    ¬Returns (formatRound lit conv (fmt ++ [0])) (0, a) b := by
  refine not_returns_of_inv (I := fun x => x.1 < 2 ^ 32) (fun x r hx hbody => ?_) (Nat.two_pow_pos 32)
  obtain ⟨i', a', rfl, hi'⟩ := formatRound_of_lt h0 (Nat.lt_of_lt_of_le hx hlen) hbody
  exact ⟨_, rfl, hi'⟩

/-- **From a conversion that is cut off** the loop passes the terminator, or comes back to the start if the index ends
there. -/
theorem not_returns_of_incomplete {b : σ} (h0 : 0 ∉ fmt) (hlen : fmt.length < 2 ^ 32) (hfmt : ¬Complete fmt) :
    ¬Returns (formatRound lit conv (fmt ++ [0])) (0, a) b := by
  refine not_returns_of_inv (I := fun x => x.1 = fmt.length + 1 ∨ ∃ s, At fmt x.1 s ∧ ¬Complete s) ?_
    (.inr ⟨fmt, at_zero, hfmt⟩)
  rintro ⟨i, a⟩ r (rfl | ⟨s, hat, hs⟩) hbody
  · have hend : (fmt ++ [0]).drop (fmt.length + 1) = [] := List.drop_eq_nil_of_le (by simp)
    rw [formatRound, hend] at hbody
    cases hbody
  · cases s with
    | nil => exact absurd .nil hs
    | cons c s =>
      by_cases hc : c = 37
      · subst hc
        rw [formatRound_conv hat hlen] at hbody
        rcases parseConversion_append s with ⟨t, hrest, outFormat, f, hparse⟩ | ⟨-, hparse | ⟨outFormat, f, hparse⟩⟩
        · rw [hparse] at hbody
          cases hbody
          exact ⟨_, rfl, .inr ⟨t, hat.behind hlen hrest, fun ht => hs (.conv hrest ht)⟩⟩
        · rw [hparse] at hbody
          cases hbody
        · have hpos : i + 1 + ((s ++ [0]).length - ([] : List UInt8).length) = fmt.length + 1 := by
            have hlength := hat.tail.1
            simp only [List.length_append, List.length_singleton, List.length_nil]
            omega
          rw [hparse] at hbody
          cases hbody
          refine ⟨_, rfl, ?_⟩
          dsimp only
          rw [hpos]
          rcases Nat.lt_or_ge (fmt.length + 1) (2 ^ 32) with hlt | hge
          · exact .inl (Nat.mod_eq_of_lt hlt)
          · have hzero : (fmt.length + 1) % 2 ^ 32 = 0 := by
              rw [show fmt.length + 1 = 2 ^ 32 by omega, Nat.mod_self]
            exact .inr ⟨fmt, by rw [hzero]; exact at_zero, hfmt⟩
      · have hnext := Nat.mod_eq_of_lt (by have := hat.lt; omega : i + 1 < 2 ^ 32)
        rw [formatRound_char hat h0 hc, hnext] at hbody
        cases hbody
        exact ⟨_, rfl, .inr ⟨s, hat.tail, fun hrest => hs (.char hc hrest)⟩⟩

/-- **The loop stays inside of the format and stops** exactly if its index can count the characters and every
conversion is complete, whatever is done with the characters and the conversions. -/
theorem formatLoop_iff (h0 : 0 ∉ fmt) : (∃ b, Returns (formatRound lit conv (fmt ++ [0])) (0, a) b) ↔
    fmt.length < 2 ^ 32 ∧ Complete fmt := by
  constructor
  · rintro ⟨b, hret⟩
    have hlen : fmt.length < 2 ^ 32 := Nat.lt_of_not_le fun hlen => not_returns_of_long h0 hlen hret
    exact ⟨hlen, Classical.not_not.1 fun hfmt => not_returns_of_incomplete h0 hlen hfmt hret⟩
  · rintro ⟨hlen, hfmt⟩
    obtain ⟨items, hitems⟩ := exists_items_iff.2 hfmt
    exact ⟨_, returns_of_items hitems at_zero h0 hlen⟩

end Loop

end ChenixOS.Printf
