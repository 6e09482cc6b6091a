import ChenixOS.Libc.Pieces

/-!
# The fields of `vsnprintf`

What a conversion writes, and how far it moves the index (`taken`). **A conversion either fits, or the index leaves the
buffer** (`convert_fits`), and from there the loop is not left (`not_returns_of_lost`).
-/

namespace ChenixOS.Stdio

open Buffer Itoa Loop

/-! ## What a conversion takes -/

/-- A number that is to be written, and how it is aligned. -/
structure Field where
  sign : List UInt8
  digits : List UInt8
  width : Int
  filler : Int

/-- The field of a conversion of a number. -/
def field (flags : Flags) (width : List UInt8) (word : UInt64) : Conversion → Option Field
  | .pointer => some ⟨[], digitsText 16 false word.toNat, 16, 48⟩
  | .unsigned base uppercase _ =>
    some ⟨[], digitsText base uppercase word.toNat, flags.alignment (atoi width), flags.filler⟩
  | .signed => some ⟨signText flags.plus word.toInt64, digitsText 10 false word.toInt64.toInt.natAbs,
      flags.alignment (atoi width), flags.filler⟩
  | .string => none
  | .character => none
  | .unknown => none

def Field.text (F : Field) (remain : Int) : List UInt8 :=
  alignedText F.sign F.digits (toChar F.filler) (limit F.width remain)

/-- What a conversion adds to the index. -/
def taken (flags : Flags) (width : List UInt8) (arg : Arg) (remain : Int) (conv : Conversion) : Int :=
  match field flags width arg.word conv with
  | some F => if remain < 0 then 0 else (F.text remain).length
  | none =>
    match conv with
    | .string =>
      if remain < 0 then 0
      else stringCount arg.string.val.length (limit (flags.alignment (atoi width)) remain) remain
    | .character => 1
    | _ => 0

/-- What a conversion writes, but for a string, which may be written in front of the index too. -/
def written (flags : Flags) (width : List UInt8) (arg : Arg) (remain : Int) (conv : Conversion) : List UInt8 :=
  match field flags width arg.word conv with
  | some F => if remain < 0 then [] else F.text remain
  | none =>
    match conv with
    | .character => [arg.word.toUInt8]
    | _ => []

/-- The characters that a conversion writes without counting them. -/
def Conversion.chars : Conversion → Nat
  | .character => 1
  | _ => 0

def Conversion.args : Conversion → Nat
  | .unknown => 0
  | _ => 1

/-- A conversion fits at the index `s`. -/
def ConversionFits (size s : Nat) (flags : Flags) (width : List UInt8) (arg : Arg) (remain : Int) (conv : Conversion) :
    Prop :=
  match field flags width arg.word conv with
  | some F => 0 ≤ remain → s + (F.text remain).length < size ∧ s + (F.text remain).length < 2 ^ 31
  | none =>
    match conv with
    | .string =>
      0 ≤ remain → StringFits size s arg.string.val.length (limit (flags.alignment (atoi width)) remain) remain
    | .character => s + 1 < 2 ^ 31
    | _ => True

/-! ## Numbers of the type `int` -/

variable {size : Nat} {format : List UInt8} {ap : Nat → Arg} {st st' : State} {c : UInt8} {arg : Arg}
  {x y width max : Int} {F : Field} {flags : Flags} {w : List UInt8} {conv : Conversion} {t : Int × (Nat → UInt8)}

theorem int32_int32_add (x y : Int) : int32 (int32 x + y) = int32 (x + y) := by
  unfold int32
  omega

theorem int32_mem (x : Int) : -2 ^ 31 ≤ int32 x ∧ int32 x < 2 ^ 31 := by
  unfold int32
  omega

theorem digitStep_mem (x : Int) (c : UInt8) : -2 ^ 31 ≤ digitStep x c ∧ digitStep x c < 2 ^ 31 := int32_mem _

theorem foldl_digitStep_mem {ds : List UInt8} (hx : -2 ^ 31 ≤ x ∧ x < 2 ^ 31) :
    -2 ^ 31 ≤ ds.foldl digitStep x ∧ ds.foldl digitStep x < 2 ^ 31 := by
  induction ds generalizing x with
  | nil => exact hx
  | cons d ds ih => exact ih (digitStep_mem x d)

theorem atoi_mem (str : List UInt8) : -2 ^ 31 ≤ atoi str ∧ atoi str < 2 ^ 31 := by
  unfold atoi
  dsimp only
  split_ifs
  · exact int32_mem _
  · exact foldl_digitStep_mem (by decide)

theorem alignment_mem (flags : Flags) (hx : -2 ^ 31 ≤ x ∧ x < 2 ^ 31) : -2 ^ 31 ≤ flags.alignment x ∧ flags.alignment x < 2 ^ 31 := by
  unfold Flags.alignment
  split_ifs
  · exact int32_mem _
  · exact hx

theorem limit_mem (hw : -2 ^ 31 ≤ width ∧ width < 2 ^ 31) (hmax : -2 ^ 31 ≤ max ∧ max < 2 ^ 31) :
    -2 ^ 31 ≤ limit width max ∧ limit width max < 2 ^ 31 := by
  unfold limit
  dsimp only
  split_ifs <;> omega

theorem field_width_mem {word : UInt64} (hF : field flags w word conv = some F) :
    -2 ^ 31 ≤ F.width ∧ F.width < 2 ^ 31 := by
  have halign := alignment_mem flags (atoi_mem w)
  cases conv <;> cases hF
  · show -2 ^ 31 ≤ (16 : Int) ∧ (16 : Int) < 2 ^ 31
    decide
  · exact halign
  · exact halign

/-! ## Conversions -/

/-- The index moves behind what is written. -/
theorem taken_eq (hconv : conv ≠ .string) : taken flags w arg x conv = (written flags w arg x conv).length := by
  unfold taken written
  cases field flags w arg.word conv with
  | some F =>
    dsimp only
    split_ifs
    · rfl
    · rfl
  | none =>
    cases conv with
    | string => exact absurd rfl hconv
    | _ => rfl

/-- **A conversion of a number** aligns what it converts. -/
theorem convert_field (size : Nat) (hF : field st.flags st.widthStr (ap st.arg).word conv = some F) :
    ∃ toa, Converts size toa F.sign F.digits ∧ convert size ap st conv =
      (maxtoaFill size toa st.s F.width F.filler st.remain st.str).map fun x => st.advance x.1 x.2 := by
  cases conv with
  | pointer =>
    cases hF
    refine ⟨_, uimaxtoa_converts (by decide) (ap st.arg).word, ?_⟩
    rw [Option.map_eq_bind]
    rfl
  | unsigned base uppercase hbase =>
    cases hF
    refine ⟨_, uimaxtoa_converts hbase (ap st.arg).word, ?_⟩
    rw [Option.map_eq_bind]
    rfl
  | signed =>
    cases hF
    dsimp only [convert]
    cases st.flags.plus with
    | true =>
      refine ⟨_, simaxtoa_converts (by decide) (ap st.arg).word.toInt64, ?_⟩
      rw [Option.map_eq_bind]
      rfl
    | false =>
      refine ⟨_, imaxtoa_converts (by decide) (ap st.arg).word.toInt64, ?_⟩
      rw [Option.map_eq_bind]
      rfl
  | string => cases hF
  | character => cases hF
  | unknown => cases hF

/-- What is known of the state in which a conversion is performed. -/
structure Ready (size : Nat) (st : State) (s : Nat) : Prop where
  index : st.s = s
  lt : s + 1 < size
  lt31 : s < 2 ^ 31
  lt64 : size < 2 ^ 64
  remain : -2 ^ 31 ≤ st.remain ∧ st.remain < 2 ^ 31

/-- Where the index left the buffer, the terminator cannot be written any more. -/
structure Lost (size : Nat) (st : State) : Prop where
  out : st.s < 0 ∨ size ≤ st.s
  mem : -2 ^ 31 ≤ st.s ∧ st.s < 2 ^ 31
  remain : -2 ^ 31 ≤ st.remain ∧ st.remain < 2 ^ 31

/-- What a conversion leads to that fits. -/
structure Converted (size : Nat) (st st' : State) (n : Int) (text : List UInt8) (conv : Conversion) : Prop where
  s : st'.s = st.s + n
  str : conv ≠ .string → st'.str = put st.str st.s.toNat text
  mem : 0 ≤ st.s + n ∧ st.s + n < size ∧ st.s + n < 2 ^ 31
  remain : st'.remain = int32 (st.remain - n + conv.chars)
  flags : st'.flags = st.flags
  arg : st'.arg = st.arg + conv.args

variable {s n : Nat} {k : Int} {str : Nat → UInt8} {text : List UInt8}

theorem advance_converted (hs : st.s = s) (hk : int32 n = k) (hmem : 0 ≤ s + k ∧ s + k < size ∧ s + k < 2 ^ 31)
    (hstr : conv ≠ .string → str = put st.str st.s.toNat text) (hchars : conv.chars = 0) (hargs : conv.args = 1) :
    Converted size st (st.advance n str) k text conv where
  s := by
    rw [State.advance, hk, int32_of_mem (by omega)]
  str := hstr
  mem := by rwa [hs]
  remain := by
    rw [State.advance, hk, hchars, Int.natCast_zero, Int.add_zero]
  flags := rfl
  arg := by rw [hargs, State.advance]

theorem advance_lost (hs : st.s = s) (hk : int32 n = k)
    (hout : (s + k < 0 ∧ -2 ^ 31 ≤ s + k) ∨ (2 ^ 31 ≤ s + k ∧ s + k < 2 ^ 32) ∨ (size ≤ s + k ∧ s + k < 2 ^ 31)) :
    Lost size (st.advance n str) := by
  have hs' : (st.advance n str).s = int32 (s + k) := by rw [State.advance, hk, hs]
  refine ⟨?_, hs' ▸ int32_mem _, int32_mem _⟩
  rw [hs']
  unfold int32
  omega

/-- A number is counted, and takes an argument. -/
theorem field_counts {word : UInt64} (hF : field flags w word conv = some F) : conv.chars = 0 ∧ conv.args = 1 := by
  cases conv with
  | character => cases hF
  | unknown => cases hF
  | _ => exact ⟨rfl, rfl⟩

/-- A number either fits, or the index leaves the buffer. -/
theorem convert_field_fits (hready : Ready size st s)
    (hF : field st.flags st.widthStr (ap st.arg).word conv = some F) :
    (ConversionFits size s st.flags st.widthStr (ap st.arg) st.remain conv → ∃ st', convert size ap st conv = some st' ∧
      Converted size st st' (taken st.flags st.widthStr (ap st.arg) st.remain conv)
        (written st.flags st.widthStr (ap st.arg) st.remain conv) conv) ∧
    (¬ConversionFits size s st.flags st.widthStr (ap st.arg) st.remain conv →
      ∀ st', convert size ap st conv = some st' → Lost size st') := by
  obtain ⟨toa, hconv, hconvert⟩ := convert_field size hF
  have hs := hready.index
  have hlt := hready.lt
  have hlt31 := hready.lt31
  have hw31 := limit_mem (field_width_mem hF) hready.remain
  obtain ⟨hchars, hargs⟩ := field_counts hF
  unfold ConversionFits taken written
  rw [hF, hconvert, hs]
  dsimp only
  by_cases hneg : st.remain < 0
  · have hfill : maxtoaFill size toa s F.width F.filler st.remain st.str = some (0, st.str) := if_pos hneg
    rw [hfill, if_pos hneg, if_pos hneg]
    refine ⟨fun _ => ⟨st.advance 0 st.str, rfl, ?_⟩, fun hnot => absurd (fun hpos => absurd hneg (Int.not_lt.2 hpos)) hnot⟩
    exact advance_converted hs (k := 0) (by decide) (by omega) (fun _ => put_nil.symm) hchars hargs
  rw [if_neg hneg, if_neg hneg]
  have hpos : 0 ≤ st.remain := Int.not_lt.1 hneg
  have hlen : (F.text st.remain).length =
      if limit F.width st.remain = 0 then (F.sign ++ F.digits).length else (limit F.width st.remain).natAbs :=
    length_alignedText hconv.sign_le
  have hle := hconv.le
  have hmin : limit F.width st.remain = -2 ^ 31 → ∀ n str',
      maxtoaFill size toa s F.width F.filler st.remain st.str = some (n, str') → n = 2 ^ 64 - 2 ^ 31 :=
    fun hw _ _ => maxtoaFill_min hconv hpos hw
  have heq : (limit F.width st.remain).natAbs < 2 ^ 31 → maxtoaFill size toa s F.width F.filler st.remain st.str =
      (putAt size s (F.text st.remain) st.str).map fun str => ((F.text st.remain).length, str) :=
    maxtoaFill_eq hconv hpos
  generalize F.text st.remain = text at hlen heq ⊢
  generalize limit F.width st.remain = w' at hlen heq hmin hw31
  generalize (F.sign ++ F.digits).length = len at hlen hle
  by_cases hleast : w' = -2 ^ 31
  · have h31 : text.length = 2 ^ 31 := by
      rw [hlen, if_neg (by omega)]
      omega
    refine ⟨fun hfits => absurd (hfits hpos).2 (by omega), fun _ st' hst' => ?_⟩
    obtain ⟨⟨n, str'⟩, hfill, hst'⟩ := Option.map_eq_some_iff.1 hst'
    obtain rfl := hst'
    have hn := hmin hleast n str' hfill
    exact advance_lost hs (k := -2 ^ 31) (by unfold int32; omega) (by omega)
  · have hlen31 : text.length < 2 ^ 31 := by
      rw [hlen]
      split_ifs <;> omega
    rw [heq (by omega)]
    constructor
    · intro hfits
      obtain ⟨hroom, h31⟩ := hfits hpos
      rw [putAt_of_mem (by omega) (by omega)]
      exact ⟨st.advance text.length (put st.str (s : Int).toNat text), rfl,
        advance_converted hs (int32_of_mem (by omega)) (by omega) (fun _ => by rw [hs]) hchars hargs⟩
    · intro hnot st' hst'
      obtain ⟨⟨n, str'⟩, hput, rfl⟩ := Option.map_eq_some_iff.1 hst'
      obtain ⟨str'', hstr, hpair⟩ := Option.map_eq_some_iff.1 hput
      cases hpair
      have hin : s + text.length ≤ size := by
        by_contra hout
        have hne : text ≠ [] := by
          rintro rfl
          rw [List.length_nil] at hout
          omega
        rw [putAt_of_not_mem hne (by omega)] at hstr
        cases hstr
      have hnot' : ¬(s + text.length < size ∧ s + text.length < 2 ^ 31) := fun h => hnot fun _ => h
      exact advance_lost hs (int32_of_mem (by omega)) (by omega)

theorem stringCount_le (length : Nat) (hmax : max < 2 ^ 31) (hw : -2 ^ 31 ≤ width) (hw31 : width < 2 ^ 31) :
    stringCount length width max ≤ 2 ^ 31 := by
  unfold stringCount
  split_ifs <;> omega

theorem stringCount_fits {length : Nat} (hs : s + 1 < size) (hs31 : s < 2 ^ 31) (hmax : 0 ≤ max)
    (hfits : StringFits size s length width max) :
    0 ≤ s + stringCount length width max ∧ s + stringCount length width max < size ∧
      s + stringCount length width max < 2 ^ 31 := by
  unfold StringFits at hfits
  by_cases hback : width < 0 ∧ width.natAbs < length
  · rw [if_pos hback] at hfits
    have hcount : stringCount length width max = width := by
      unfold stringCount
      rw [if_neg (by omega), if_pos hback]
    omega
  · rw [if_neg hback] at hfits
    have hpos : 0 ≤ stringCount length width max := by
      unfold stringCount
      rw [if_neg hback]
      split_ifs <;> omega
    omega

theorem convert_string_fits (hready : Ready size st s) :
    (ConversionFits size s st.flags st.widthStr (ap st.arg) st.remain .string →
      ∃ st', convert size ap st .string = some st' ∧
        Converted size st st' (taken st.flags st.widthStr (ap st.arg) st.remain .string) [] .string) ∧
    (¬ConversionFits size s st.flags st.widthStr (ap st.arg) st.remain .string →
      ∀ st', convert size ap st .string = some st' → Lost size st') := by
  have hs := hready.index
  have hlt := hready.lt
  have hlt31 := hready.lt31
  have hlt64 := hready.lt64
  have hremain := hready.remain
  have hw31 := limit_mem (alignment_mem st.flags (atoi_mem st.widthStr)) hremain
  have hconvert : convert size ap st .string = (strtostrFill size (ap st.arg).string.val st.s
      (st.flags.alignment (atoi st.widthStr)) 32 st.remain st.str).map fun x => st.advance x.1 x.2 := by
    rw [Option.map_eq_bind]
    rfl
  unfold ConversionFits taken
  rw [hconvert, hs]
  dsimp only [field]
  generalize (ap st.arg).string.val = string
  by_cases hneg : st.remain < 0
  · have hfill : strtostrFill size string s (st.flags.alignment (atoi st.widthStr)) 32 st.remain st.str =
        some (0, st.str) := if_pos hneg
    rw [hfill, if_pos hneg]
    refine ⟨fun _ => ⟨st.advance 0 st.str, rfl, ?_⟩, fun hnot => absurd (fun hpos => absurd hneg (Int.not_lt.2 hpos)) hnot⟩
    exact advance_converted hs (k := 0) (by decide) (by omega) (fun h => absurd rfl h) rfl rfl
  have hpos : 0 ≤ st.remain := Int.not_lt.1 hneg
  obtain ⟨hiff, hcount⟩ := @strtostrFill_spec size st.str _ (st.flags.alignment (atoi st.widthStr)) 32 st.remain string s
    ⟨hpos, hremain.2⟩ rfl hw31 (by omega) hlt31 hlt64
  rw [if_neg hneg]
  constructor
  · intro hfits
    obtain ⟨hsome, -⟩ := hiff.2 (hfits hpos)
    obtain ⟨⟨n, str'⟩, hfill⟩ := Option.isSome_iff_exists.1 hsome
    rw [hfill]
    refine ⟨st.advance n str', rfl, ?_⟩
    exact advance_converted hs (hcount n str' hfill) (stringCount_fits hlt hlt31 hpos (hfits hpos))
      (fun h => absurd rfl h) rfl rfl
  · intro hnot st' hst'
    obtain ⟨⟨n, str'⟩, hfill, rfl⟩ := Option.map_eq_some_iff.1 hst'
    have hle := stringCount_le string.length hremain.2 hw31.1 hw31.2
    have hlarge : ¬(s + stringCount string.length (limit (st.flags.alignment (atoi st.widthStr)) st.remain) st.remain <
        2 ^ 31) := fun h => hnot fun _ => hiff.1 ⟨by rw [hfill]; rfl, h⟩
    exact advance_lost hs (hcount n str' hfill) (by omega)

/-- **A conversion either fits, or the index leaves the buffer**, if no access does. -/
theorem convert_fits (ap : Nat → Arg) (hready : Ready size st s) (conv : Conversion) :
    (ConversionFits size s st.flags st.widthStr (ap st.arg) st.remain conv → ∃ st', convert size ap st conv = some st' ∧
      Converted size st st' (taken st.flags st.widthStr (ap st.arg) st.remain conv)
        (written st.flags st.widthStr (ap st.arg) st.remain conv) conv) ∧
    (¬ConversionFits size s st.flags st.widthStr (ap st.arg) st.remain conv →
      ∀ st', convert size ap st conv = some st' → Lost size st') := by
  have hs := hready.index
  have hlt := hready.lt
  have hlt31 := hready.lt31
  have hremain := hready.remain
  cases hF : field st.flags st.widthStr (ap st.arg).word conv with
  | some F => exact convert_field_fits hready hF
  | none =>
    match conv with
    | .string => exact convert_string_fits hready
    | .character =>
      have hwrite : convert size ap st .character = some { st with
          s := int32 (st.s + 1), arg := st.arg + 1,
          str := Function.update st.str st.s.toNat (ap st.arg).word.toUInt8 } := by
        dsimp only [convert]
        rw [writeAt_of_mem (by omega) (by omega)]
        rfl
      have htaken : taken st.flags st.widthStr (ap st.arg) st.remain .character = 1 := rfl
      rw [hwrite, htaken]
      constructor
      · intro hfits
        have h31 : s + 1 < 2 ^ 31 := hfits
        refine ⟨_, rfl, { s := ?_, str := fun _ => put_singleton.symm, mem := by omega, remain := ?_, flags := rfl, arg := rfl }⟩
        · exact int32_of_mem (by omega)
        · show st.remain = int32 (st.remain - 1 + (1 : Nat))
          rw [int32_of_mem (by omega)]
          omega
      · intro hnot st' hst'
        have h31 : ¬s + 1 < 2 ^ 31 := hnot
        cases hst'
        refine ⟨?_, int32_mem _, hremain⟩
        dsimp only
        rw [hs]
        unfold int32
        omega
    | .unknown =>
      refine ⟨fun _ => ⟨st, rfl,
          { s := ?_, str := fun _ => put_nil.symm, mem := ?_, remain := ?_, flags := rfl, arg := rfl }⟩,
        fun hnot => absurd trivial hnot⟩
      · exact (Int.add_zero _).symm
      · show 0 ≤ st.s + 0 ∧ st.s + 0 < size ∧ st.s + 0 < 2 ^ 31
        omega
      · show st.remain = int32 (st.remain - 0 + (0 : Nat))
        rw [int32_of_mem (by omega)]
        omega

/-! ## Behind and in front of the buffer -/

/-- The index is in front of the buffer. -/
structure InFront (st : State) : Prop where
  neg : st.s < 0
  mem : -2 ^ 31 ≤ st.s
  remain : -2 ^ 31 ≤ st.remain ∧ st.remain < 2 ^ 31

theorem advance_zero (hfront : InFront st) : InFront (st.advance 0 str) := by
  have hzero : int32 (0 : Nat) = 0 := by decide
  have hneg := hfront.neg
  have hs : int32 (st.s + 0) = st.s := by
    rw [Int.add_zero]
    exact int32_of_mem ⟨hfront.mem, by omega⟩
  have hremain : int32 (st.remain - 0) = st.remain := by
    rw [Int.sub_zero]
    exact int32_of_mem hfront.remain
  have hs' : (st.advance 0 str).s = st.s := by rw [State.advance, hzero, hs]
  have hremain' : (st.advance 0 str).remain = st.remain := by rw [State.advance, hzero, hremain]
  exact ⟨hs' ▸ hfront.neg, hs' ▸ hfront.mem, hremain' ▸ hfront.remain⟩

/-- There a conversion fails, or writes nothing. -/
theorem convert_inFront (hfront : InFront st) (hconvert : convert size ap st conv = some st') : InFront st' := by
  have hneg := hfront.neg
  cases hF : field st.flags st.widthStr (ap st.arg).word conv with
  | some F =>
    obtain ⟨toa, hconv, heq⟩ := convert_field size hF
    rw [heq] at hconvert
    obtain ⟨⟨n, str'⟩, hfill, rfl⟩ := Option.map_eq_some_iff.1 hconvert
    by_cases hremain : st.remain < 0
    · rw [maxtoaFill, if_pos hremain] at hfill
      cases hfill
      exact advance_zero hfront
    · have hw31 := limit_mem (field_width_mem hF) hfront.remain
      rw [maxtoaFill_neg hconv (Int.not_lt.1 hremain) hneg hw31] at hfill
      cases hfill
  | none =>
    match conv with
    | .string =>
      obtain ⟨⟨n, str'⟩, hfill, hst'⟩ := Option.bind_eq_some_iff.1 hconvert
      obtain rfl := Option.some.inj hst'
      by_cases hremain : st.remain < 0
      · rw [strtostrFill, if_pos hremain] at hfill
        cases hfill
        exact advance_zero hfront
      · have hw31 := limit_mem (alignment_mem st.flags (atoi_mem st.widthStr)) hfront.remain
        rw [strtostrFill_neg ⟨Int.not_lt.1 hremain, hfront.remain.2⟩ hw31 hneg] at hfill
        cases hfill
    | .character =>
      dsimp only [convert] at hconvert
      rw [writeAt_of_not_mem (Or.inl hneg)] at hconvert
      cases hconvert
    | .unknown =>
      cases hconvert
      exact hfront

theorem round_inFront (hfront : InFront st) (hround : st.round size format ap c = some st') : InFront st' := by
  have hkeep : ∀ {st' : State}, st'.s = st.s → st'.remain = st.remain → InFront st' := fun hs hremain =>
    ⟨hs ▸ hfront.neg, hs ▸ hfront.mem, hremain ▸ hfront.remain⟩
  have hwrite : ∀ c, writeAt size st.str st.s c = none := fun c => writeAt_of_not_mem (Or.inl hfront.neg)
  unfold State.round at hround
  cases hspec : st.specifier with
  | none =>
    simp only [hspec, hwrite, Option.bind_eq_bind, Option.bind_none] at hround
    split_ifs at hround
    obtain ⟨d, -, hround⟩ := Option.bind_eq_some_iff.1 hround
    split_ifs at hround
    cases hround
    exact hkeep rfl rfl
  | flags =>
    simp only [hspec] at hround
    split at hround
    · cases hround
      exact hkeep rfl rfl
    · cases hround
      exact hkeep rfl rfl
  | width =>
    simp only [hspec] at hround
    obtain ⟨⟨f, ds⟩, -, hround⟩ := Option.bind_eq_some_iff.1 hround
    dsimp only at hround
    split_ifs at hround
    obtain ⟨d, -, hround⟩ := Option.bind_eq_some_iff.1 hround
    split_ifs at hround <;> cases hround <;> exact hkeep rfl rfl
  | precision =>
    simp only [hspec] at hround
    obtain ⟨⟨f, ds⟩, -, hround⟩ := Option.bind_eq_some_iff.1 hround
    dsimp only at hround
    split_ifs at hround
    cases hround
    exact hkeep rfl rfl
  | type =>
    simp only [hspec] at hround
    obtain ⟨⟨conv, f⟩, -, hround⟩ := Option.bind_eq_some_iff.1 hround
    obtain ⟨st₁, hconvert, hround⟩ := Option.bind_eq_some_iff.1 hround
    cases hround
    have hst₁ := convert_inFront hfront hconvert
    exact ⟨hst₁.neg, hst₁.mem, hst₁.remain⟩

theorem not_returns_inFront (hfront : InFront st) : ¬Returns (loopRound size format ap) st t := by
  refine not_returns_of_inv (I := InFront) (fun st r hst hbody => ?_) hfront
  obtain ⟨c, -, hbody⟩ := Option.bind_eq_some_iff.1 hbody
  split_ifs at hbody
  · obtain ⟨st', hround, hbody⟩ := Option.bind_eq_some_iff.1 hbody
    cases hbody
    exact ⟨st', rfl, round_inFront hst hround⟩
  · rw [writeAt_of_not_mem (Or.inl hst.neg)] at hbody
    cases hbody

/-- **From an index out of the buffer** the loop is not left. -/
theorem not_returns_of_lost (hlost : Lost size st) : ¬Returns (loopRound size format ap) st t := by
  obtain ⟨hneg | hge, ⟨hmem, h31⟩, hremain⟩ := hlost
  · exact not_returns_inFront ⟨hneg, hmem, hremain⟩
  · refine not_returns_of_none ?_
    unfold loopRound
    have hT : ¬sizeT st.s < size - 1 := by
      unfold sizeT
      omega
    cases formatAt format st.f with
    | none => rfl
    | some c =>
      simp only [Option.bind_eq_bind, Option.bind_some]
      rw [if_neg fun h => hT h.2, writeAt_of_not_mem (Or.inr hge)]
      rfl

end ChenixOS.Stdio
