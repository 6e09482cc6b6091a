import ChenixOS.Libc.Fields

/-!
# The buffer of `vsnprintf`

**The main result**, `respects_iff`: a call stays in its buffers and in the format, and leaves a string in `str`,
exactly if every piece of the format that is reached fits (`Fits`). What can go wrong: a number without a width is
written whatever room there is; the characters of `%c` are not counted, so that a field behind them may be too wide; a
string without a width is as long as the room; a field on the left is too short for its string near the beginning; the
digits of a width or a precision fill their buffer; or the format ends behind `"%h"`.
-/

namespace ChenixOS.Stdio

open Buffer Itoa Loop
open Printf (At at_zero)

/-! ## What the pieces take -/

/-- How far a call has come. -/
structure Progress where
  f : Nat
  s : Nat
  /-- The characters of `%c`, for which the count of the room is not adjusted. -/
  chars : Nat
  flags : Flags
  arg : Nat

namespace Progress

def start : Progress := ⟨0, 0, 0, ⟨false, false, false, false, false⟩, 0⟩

variable (size : Nat) (ap : Nat → Arg) (g : Progress)

/-- The room as the code counts it. -/
def remain : Int := int32 (size - 1 - g.s + g.chars)

def next : Piece × Nat → Progress
  | (.char _, n) => { g with f := g.f + n, s := g.s + 1 }
  | (.percent, n) => { g with f := g.f + n, s := g.s + 1 }
  | (.conv spec conv, n) =>
    let flags := g.flags.with spec.flags
    { f := g.f + n
      s := (g.s + taken flags spec.width (ap g.arg) (g.remain size) conv).toNat
      chars := g.chars + conv.chars
      flags := flags
      arg := g.arg + conv.args }
  | (.cutOff _, n) => { g with f := g.f + n }
  | (.overrun, n) => { g with f := g.f + n }

/-- What a piece writes, but for a string. -/
def written : Piece × Nat → List UInt8
  | (.char c, _) => [c]
  | (.percent, _) => [37]
  | (.conv spec conv, _) => Stdio.written (g.flags.with spec.flags) spec.width (ap g.arg) (g.remain size) conv
  | (.cutOff _, _) => []
  | (.overrun, _) => []

end Progress

/-- The conversion of a string, which may be written in front of the index. -/
def Piece.isString : Piece → Prop
  | .conv _ type => type = .string
  | _ => False

def PieceFits (size : Nat) (ap : Nat → Arg) (g : Progress) : Piece × Nat → Prop
  | (.char _, n) => g.f + n < 2 ^ 31 ∧ g.s + 1 < 2 ^ 31
  | (.percent, n) => g.f + n < 2 ^ 31 ∧ g.s + 1 < 2 ^ 31
  | (.conv spec conv, n) => spec.Fits size (g.f + n) ∧
      ConversionFits size g.s (g.flags.with spec.flags) spec.width (ap g.arg) (g.remain size) conv
  | (.cutOff spec, n) => spec.Fits size (g.f + n)
  | (.overrun, _) => False

/-- Every piece fits that is reached: the loop stops where there is room for no more than the terminator. -/
def Fits (size : Nat) (ap : Nat → Arg) : List (Piece × Nat) → Progress → Prop
  | [], _ => True
  | p :: ps, g => g.s < size - 1 → PieceFits size ap g p ∧ Fits size ap ps (g.next size ap p)

/-- The call returns the length of the string that it leaves in `str`, which is less than `size`. -/
def Respects (size : Nat) (format : List UInt8) (ap : Nat → Arg) (str : Nat → UInt8) : Prop :=
  ∃ n str', Vsnprintf size format ap str n str' ∧ 0 ≤ n ∧ n < size ∧ str' n.toNat = 0

/-! ## Pieces -/

variable {size m : Nat} {format rest fmt : List UInt8} {ap : Nat → Arg} {st : State} {g : Progress} {c : UInt8}
  {conv : Conversion} {t : Int × (Nat → UInt8)} {str : Nat → UInt8}

/-- Between two pieces: the state of the code, and how far the call has come. -/
structure Stands (size : Nat) (format : List UInt8) (st : State) (g : Progress) (rest : List UInt8) : Prop where
  text : At format st.f rest
  f : st.f = g.f
  f31 : st.f < 2 ^ 31
  s : st.s = g.s
  lt : g.s < size
  lt31 : g.s < 2 ^ 31
  remain : st.remain = g.remain size
  more : rest ≠ [] → st.specifier = .none ∧ st.flags = g.flags ∧ st.arg = g.arg

theorem remain_mem : -2 ^ 31 ≤ g.remain size ∧ g.remain size < 2 ^ 31 := int32_mem _

theorem Stands.sizeT (hst : Stands size format st g rest) (hroom : g.s < size - 1) : sizeT st.s < size - 1 := by
  have hs := hst.s
  have hlt31 := hst.lt31
  unfold Stdio.sizeT
  omega

/-- A character that is written as it is. -/
theorem char_stands (hst : Stands size format st g rest) (hroom : g.s < size - 1) {fmt : List UInt8}
    (htext : At format (st.f + m) fmt) (hmore : st.specifier = .none ∧ st.flags = g.flags ∧ st.arg = g.arg) :
    let st' : State := { st with
      f := st.f + m, s := int32 (st.s + 1), remain := int32 (st.remain - 1),
      str := Function.update st.str st.s.toNat c }
    (g.f + m < 2 ^ 31 ∧ g.s + 1 < 2 ^ 31 → Stands size format st' { g with f := g.f + m, s := g.s + 1 } fmt) ∧
    (¬(g.f + m < 2 ^ 31 ∧ g.s + 1 < 2 ^ 31) → ∀ t, ¬Returns (loopRound size format ap) st' t) := by
  have hs := hst.s
  have hlt31 := hst.lt31
  have hremain := hst.remain
  constructor
  · rintro ⟨hf, hs31⟩
    refine { text := htext, f := by rw [hst.f], f31 := hst.f ▸ hf, s := ?_, lt := ?_, lt31 := hs31, remain := ?_,
             more := fun _ => hmore }
    · dsimp only
      rw [int32_of_mem (by omega)]
      omega
    · show g.s + 1 < size
      omega
    · dsimp only
      rw [hremain]
      unfold Progress.remain
      dsimp only
      rw [show int32 (size - 1 - g.s + g.chars) - 1 = int32 (size - 1 - g.s + g.chars) + -1 by omega, int32_int32_add]
      congr 1
      omega
  · intro hnot t
    by_cases hf : g.f + m < 2 ^ 31
    · refine not_returns_of_lost ⟨?_, int32_mem _, int32_mem _⟩
      dsimp only
      unfold int32
      omega
    · refine not_returns_of_none (loopRound_of_ge ?_)
      have := hst.f
      dsimp only
      omega

/-- One piece: where the call stands behind it if it fits, and that the loop fails if it does not. -/
def Step (size : Nat) (format : List UInt8) (ap : Nat → Arg) (st : State) (g : Progress) (p : Piece × Nat)
    (rest : List UInt8) : Prop :=
  (PieceFits size ap g p → ∃ st', Stands size format st' (g.next size ap p) rest ∧
    (¬p.1.isString → st'.str = put st.str g.s (g.written size ap p)) ∧
    ∀ t, Returns (loopRound size format ap) st t ↔ Returns (loopRound size format ap) st' t) ∧
  (¬PieceFits size ap g p → ∀ t, ¬Returns (loopRound size format ap) st t)

section Step

variable (h0 : 0 ∉ format) (hroom : g.s < size - 1)

include h0 hroom

theorem char_step (hst : Stands size format st g (c :: fmt)) (hc : c ≠ 37) :
    Step size format ap st g (.char c, 1) fmt := by
  obtain ⟨hspec, hmore⟩ := hst.more (List.cons_ne_nil c fmt)
  have hs := hst.s
  obtain ⟨hfits, hnot⟩ := @char_stands size 1 format (c :: fmt) ap st g c hst hroom fmt hst.text.tail ⟨hspec, hmore⟩
  have hf := hst.f31
  have hnext : loopRound size format ap st = some (.next { st with
      f := st.f + 1, s := int32 (st.s + 1), remain := int32 (st.remain - 1),
      str := Function.update st.str st.s.toNat c }) := by
    rw [loopRound_cons hst.text hf h0 (hst.sizeT hroom)]
    simp only [State.round, hspec, ne_eq, hc, not_false_eq_true, if_true]
    rw [writeAt_of_mem (by omega) (by omega)]
    rfl
  refine ⟨fun h => ⟨_, hfits h, fun _ => ?_, fun t => returns_of_next hnext⟩, fun h t hret => ?_⟩
  · rw [hs]
    exact put_singleton.symm
  · exact hnot h t ((returns_of_next hnext).1 hret)

theorem percent_step (hst : Stands size format st g (37 :: 37 :: fmt)) :
    Step size format ap st g (.percent, 2) fmt := by
  obtain ⟨hspec, hmore⟩ := hst.more (List.cons_ne_nil _ _)
  have hs := hst.s
  have hf := hst.f31
  have heq := hst.f
  by_cases hf₁ : st.f + 1 < 2 ^ 31
  · obtain ⟨hfits, hnot⟩ :=
      @char_stands size 2 format _ ap st g 37 hst hroom fmt hst.text.tail.tail ⟨hspec, hmore⟩
    have hnext : loopRound size format ap st = some (.next { st with
        f := st.f + 2, s := int32 (st.s + 1), remain := int32 (st.remain - 1),
        str := Function.update st.str st.s.toNat 37 }) := by
      rw [loopRound_cons hst.text hf h0 (hst.sizeT hroom)]
      simp only [State.round, hspec, ne_eq, not_true_eq_false, if_false]
      rw [formatAt_cons hst.text.tail hf₁, Option.bind_eq_bind, Option.bind_some, if_pos rfl,
        writeAt_of_mem (by omega) (by omega)]
      rfl
    refine ⟨fun h => ⟨_, hfits h, fun _ => ?_, fun t => returns_of_next hnext⟩, fun h t hret => ?_⟩
    · rw [hs]
      exact put_singleton.symm
    · exact hnot h t ((returns_of_next hnext).1 hret)
  · have hnone : loopRound size format ap st = none := by
      rw [loopRound_cons hst.text hf h0 (hst.sizeT hroom)]
      simp only [State.round, hspec, ne_eq, not_true_eq_false, if_false]
      rw [formatAt_of_ge (by omega)]
      rfl
    refine ⟨fun h => ?_, fun _ t => not_returns_of_none hnone⟩
    have hlt : g.f + 2 < 2 ^ 31 := h.1
    omega

/-- The `'%'` and what follows it up to the character of the conversion. -/
theorem percent_reads (ap : Nat → Arg) (hst : Stands size format st g (37 :: fmt)) (hhead : fmt.head? ≠ some 37) :
    ∃ st', Passes (loopRound size format ap) ((readSpec fmt).1.Fits size st'.f) st st' ∧
      Reads format st st' (readSpec fmt).1 (readSpec fmt).2 := by
  obtain ⟨hspec, hmore⟩ := hst.more (List.cons_ne_nil _ _)
  have hf := hst.f31
  have hlt := hst.lt
  have hsize : 0 < strSize size := by
    unfold strSize
    split_ifs <;> omega
  have hs := hst.sizeT hroom
  have hpercent : Passes (loopRound size format ap) (st.f + 1 < 2 ^ 31) st
      { st with f := st.f + 1, specifier := .flags } := by
    by_cases hf₁ : st.f + 1 < 2 ^ 31
    · refine (passes_of_next ?_).iff (iff_of_true trivial hf₁)
      rw [loopRound_cons hst.text hf h0 hs]
      simp only [State.round, hspec, ne_eq, not_true_eq_false, if_false]
      cases fmt with
      | nil =>
        rw [formatAt_nil hst.text.tail hf₁]
        rfl
      | cons d fmt =>
        have hd : d ≠ 37 := fun h => hhead (congrArg some h)
        rw [formatAt_cons hst.text.tail hf₁, Option.bind_eq_bind, Option.bind_some, if_neg hd]
        rfl
    · refine (passes_of_none ?_).iff (iff_of_false id hf₁)
      rw [loopRound_cons hst.text hf h0 hs]
      simp only [State.round, hspec, ne_eq, not_true_eq_false, if_false]
      rw [formatAt_of_ge (by omega)]
      rfl
  obtain ⟨st', hpasses, hreads⟩ := spec_passes ap { st with f := st.f + 1, specifier := .flags } h0 rfl
    hst.text.tail hs hsize
  refine ⟨st', (hpercent.trans fun _ => hpasses).iff ⟨And.right, fun h => ⟨?_, h⟩⟩, ?_⟩
  · have hlen := hreads.text.1
    have hlen' := hst.text.tail.1
    have hle := length_readSpec fmt
    have hf' := h.2.2
    omega
  · exact ⟨hreads.text, hreads.s, hreads.remain, hreads.arg, hreads.str, hreads.type⟩

omit h0 hroom in
theorem readType_cases (spec : Spec) (text : List UInt8) :
    (text = [] ∧ readType spec text = (.cutOff spec, [])) ∨
      text ≠ [] ∧ ((∃ conv rest, readType spec text = (.conv spec conv, rest)) ∨ readType spec text = (.overrun, [])) := by
  fun_cases readType spec text <;> simp

/-- The round at the character of a conversion. -/
theorem type_round (hs : st.s = g.s) (hlt31 : g.s < 2 ^ 31) (hat : At format st.f (c :: rest)) (hf : st.f < 2 ^ 31)
    (hspec : st.specifier = .type) :
    loopRound size format ap st = (readConversion format st.f).bind fun x =>
      (convert size ap st x.1).bind fun st' => some (.next { st' with f := x.2, specifier := .none }) := by
  have hT : sizeT st.s < size - 1 := by
    unfold sizeT
    omega
  rw [loopRound_cons hat hf h0 hT]
  simp only [State.round, hspec, Option.bind_eq_bind]
  cases readConversion format st.f with
  | none => rfl
  | some x =>
    simp only [Option.bind_some]
    cases convert size ap st x.1 with
    | none => rfl
    | some st' => rfl

omit hroom in
/-- The round of a conversion that is complete. -/
theorem complete_step (ap : Nat → Arg) {spec : Spec} {text : List UInt8} (hready : Ready size st g.s) (hat : At format st.f text)
    (hne : text ≠ []) (htype : readType spec text = (.conv spec conv, rest)) (hspec : st.specifier = .type)
    (hf : st.f < 2 ^ 31) :
    ∃ k, text.length = rest.length + k ∧ At format (st.f + k) rest ∧
      (st.f + k < 2 ^ 31 ∧ ConversionFits size g.s st.flags st.widthStr (ap st.arg) st.remain conv →
        ∃ st', Converted size st st' (taken st.flags st.widthStr (ap st.arg) st.remain conv)
            (written st.flags st.widthStr (ap st.arg) st.remain conv) conv ∧
          ∀ t, Returns (loopRound size format ap) st t ↔
            Returns (loopRound size format ap) { st' with f := st.f + k, specifier := .none } t) ∧
      (¬(st.f + k < 2 ^ 31 ∧ ConversionFits size g.s st.flags st.widthStr (ap st.arg) st.remain conv) →
        ∀ t, ¬Returns (loopRound size format ap) st t) := by
  obtain ⟨k, hk, hbehind, hread, hnone⟩ := readConversion_eq hat htype
  obtain ⟨hfits, hlost⟩ := convert_fits ap hready conv
  have hround : loopRound size format ap st = (readConversion format st.f).bind fun x =>
      (convert size ap st x.1).bind fun st' => some (.next { st' with f := x.2, specifier := .none }) := by
    cases text with
    | nil => exact absurd rfl hne
    | cons c text =>
      have hlt := hready.lt
      exact type_round h0 (by omega) hready.index hready.lt31 hat hf hspec
  refine ⟨k, hk, hbehind, fun ⟨hf', hfits'⟩ => ?_, fun hnot t => ?_⟩
  · obtain ⟨st', hconvert, hst'⟩ := hfits hfits'
    refine ⟨st', hst', fun t => returns_of_next ?_⟩
    rw [hround, hread (by omega), Option.bind_some, hconvert]
    rfl
  · by_cases hf' : st.f + k ≤ 2 ^ 31
    · rw [hread hf', Option.bind_some] at hround
      cases hconvert : convert size ap st conv with
      | none =>
        rw [hconvert] at hround
        exact not_returns_of_none hround
      | some st' =>
        rw [hconvert, Option.bind_some] at hround
        rw [returns_of_next hround]
        by_cases hconv : ConversionFits size g.s st.flags st.widthStr (ap st.arg) st.remain conv
        · have hge : ¬st.f + k < 2 ^ 31 := fun h => hnot ⟨h, hconv⟩
          exact not_returns_of_none (loopRound_of_ge (Nat.not_lt.1 hge))
        · have hst' := hlost hconv st' hconvert
          exact not_returns_of_lost ⟨hst'.out, hst'.mem, hst'.remain⟩
    · rw [hnone (by omega)] at hround
      exact not_returns_of_none hround

/-- **A conversion.** -/
theorem conv_step (hst : Stands size format st g (37 :: fmt)) (hhead : fmt.head? ≠ some 37) (hlt64 : size < 2 ^ 64) :
    Step size format ap st g ((readType (readSpec fmt).1 (readSpec fmt).2).1,
      fmt.length + 1 - (readType (readSpec fmt).1 (readSpec fmt).2).2.length)
      (readType (readSpec fmt).1 (readSpec fmt).2).2 := by
  obtain ⟨-, hflags, harg⟩ := hst.more (List.cons_ne_nil _ _)
  obtain ⟨st₂, hpasses, hreads⟩ := percent_reads h0 hroom ap hst hhead
  have hs := hst.s
  have hlt31 := hst.lt31
  have hf := hst.f
  have hlen := hst.text.1
  have hlen₂ := hreads.text.1
  have hle := length_readSpec fmt
  rw [List.length_cons] at hlen
  generalize (readSpec fmt).1 = spec at *
  generalize (readSpec fmt).2 = text at *
  have hs₂ : st₂.s = g.s := hreads.s.trans hs
  rcases readType_cases spec text with ⟨rfl, htype⟩ | ⟨hne, ⟨conv, rest, htype⟩ | htype⟩
  · rw [htype]
    have hf₂ : st₂.f = g.f + (fmt.length + 1) := by
      rw [List.length_nil] at hlen₂
      omega
    rw [hf₂] at hpasses
    refine ⟨fun hfits => ⟨st₂, ?_, fun _ => hreads.str.trans put_nil.symm, hpasses.goes hfits⟩, hpasses.stuck⟩
    exact { text := hreads.text, f := hf₂, f31 := hf₂ ▸ hfits.2.2, s := hs₂, lt := hst.lt, lt31 := hlt31,
            remain := hreads.remain.trans hst.remain, more := fun h => absurd rfl h }
  · obtain ⟨hspec, hflags₂, hwidth₂⟩ := hreads.type hne
    have harg₂ := hreads.arg.trans harg
    have hremain₂ := hreads.remain.trans hst.remain
    have hflags₂' : st₂.flags = g.flags.with spec.flags := by rw [hflags₂, hflags]
    have hready : Ready size st₂ g.s := ⟨hs₂, by omega, hlt31, hlt64, hremain₂ ▸ remain_mem⟩
    rw [htype]
    dsimp only
    have hsplit : PieceFits size ap g (.conv spec conv, fmt.length + 1 - rest.length) ↔
        spec.Fits size (g.f + (fmt.length + 1 - rest.length)) ∧
          ConversionFits size g.s st₂.flags st₂.widthStr (ap st₂.arg) st₂.remain conv := by
      rw [hflags₂', hwidth₂, harg₂, hremain₂]
      rfl
    by_cases hspec₂ : spec.Fits size st₂.f
    · obtain ⟨k, hk, hbehind, hgoes, hstuck⟩ := complete_step h0 ap hready hreads.text hne htype hspec hspec₂.2.2
      have hf₂ : g.f + (fmt.length + 1 - rest.length) = st₂.f + k := by omega
      rw [hf₂] at hsplit
      constructor
      · intro hfits
        obtain ⟨hspec', hconv⟩ := hsplit.1 hfits
        obtain ⟨st', hst', hreturns⟩ := hgoes ⟨hspec'.2.2, hconv⟩
        have hstr : conv ≠ .string → st'.str =
            put st.str g.s (g.written size ap (.conv spec conv, fmt.length + 1 - rest.length)) := by
          intro hstring
          rw [hst'.str hstring, hs₂, hreads.str, hflags₂', hwidth₂, harg₂, hremain₂]
          rfl
        refine ⟨{ st' with f := st₂.f + k, specifier := .none }, ?_, hstr, fun t =>
          (hpasses.goes hspec₂ t).trans (hreturns t)⟩
        have hmem := hst'.mem
        rw [hs₂] at hmem
        have htaken : taken (g.flags.with spec.flags) spec.width (ap g.arg) (g.remain size) conv =
            taken st₂.flags st₂.widthStr (ap st₂.arg) st₂.remain conv := by
          rw [hflags₂', hwidth₂, harg₂, hremain₂]
        have hnext : g.next size ap (.conv spec conv, fmt.length + 1 - rest.length) =
            { f := g.f + (fmt.length + 1 - rest.length)
              s := (g.s + taken st₂.flags st₂.widthStr (ap st₂.arg) st₂.remain conv).toNat
              chars := g.chars + conv.chars
              flags := st₂.flags
              arg := g.arg + conv.args } := by
          rw [← htaken, hflags₂']
          rfl
        have hs' := hst'.s
        have hremain' := hst'.remain
        rw [hs₂] at hs'
        rw [hnext]
        generalize taken st₂.flags st₂.widthStr (ap st₂.arg) st₂.remain conv = n at *
        rw [hremain₂] at hremain'
        refine { text := hbehind, f := hf₂.symm, f31 := hspec'.2.2, s := ?_, lt := ?_, lt31 := ?_, remain := ?_,
                 more := fun _ => ⟨rfl, hst'.flags, ?_⟩ }
        · dsimp only
          rw [hs']
          omega
        · dsimp only
          omega
        · dsimp only
          omega
        · dsimp only
          rw [hremain']
          unfold Progress.remain
          dsimp only
          rw [show int32 (size - 1 - g.s + g.chars) - n + conv.chars =
            int32 (size - 1 - g.s + g.chars) + (conv.chars - n) by omega, int32_int32_add]
          congr 1
          omega
        · dsimp only
          rw [hst'.arg, harg₂]
      · intro hnot t hret
        refine hstuck (fun h => hnot (hsplit.2 ⟨⟨hspec₂.1, hspec₂.2.1, h.1⟩, h.2⟩)) t ((hpasses.goes hspec₂ t).1 hret)
    · refine ⟨fun hfits => ?_, fun _ => hpasses.stuck hspec₂⟩
      obtain ⟨⟨hw, hp, hf'⟩, -⟩ := hsplit.1 hfits
      have hle' := length_readType spec text
      rw [htype] at hle'
      dsimp only at hle'
      exact absurd ⟨hw, hp, by omega⟩ hspec₂
  · obtain ⟨hspec, -, -⟩ := hreads.type hne
    rw [htype]
    refine ⟨fun hfits => hfits.elim, fun _ t hret => ?_⟩
    by_cases hspec₂ : spec.Fits size st₂.f
    · rw [hpasses.goes hspec₂ t] at hret
      have hround : loopRound size format ap st₂ = (readConversion format st₂.f).bind fun x =>
          (convert size ap st₂ x.1).bind fun st' => some (.next { st' with f := x.2, specifier := .none }) := by
        cases text with
        | nil => exact absurd rfl hne
        | cons c text => exact type_round h0 hroom hs₂ hlt31 hreads.text hspec₂.2.2 hspec
      cases hread : readConversion format st₂.f with
      | none =>
        rw [hread] at hround
        exact not_returns_of_none hround hret
      | some x =>
        obtain ⟨conv, f'⟩ := x
        obtain ⟨rfl, hf'⟩ := readConversion_overrun hreads.text htype hread
        rw [hread, Option.bind_some] at hround
        rw [returns_of_next hround] at hret
        generalize hst₃ : ({ st₂ with f := f', specifier := .none } : State) = st₃ at hret
        have hbehind : Passes (loopRound size format ap) False st₃ st₂ := passes_behind (by rw [← hst₃]; exact hf')
        exact hbehind.stuck id t hret
    · exact hpasses.stuck hspec₂ t hret

end Step

/-- **One piece of the format**: the call goes on behind it, exactly if it fits. -/
theorem piece_step (ap : Nat → Arg) (h0 : 0 ∉ format) (hroom : g.s < size - 1) (hlt64 : size < 2 ^ 64)
    (hst : Stands size format st g (c :: fmt)) :
    Step size format ap st g ((readPiece c fmt).1, fmt.length + 1 - (readPiece c fmt).2.length) (readPiece c fmt).2 := by
  by_cases hc : c = 37
  · subst hc
    by_cases hhead : fmt.head? = some 37
    · obtain ⟨fmt, rfl⟩ : ∃ rest, fmt = 37 :: rest := by
        cases fmt with
        | nil => cases hhead
        | cons d rest => exact ⟨rest, by rw [Option.some.inj hhead]⟩
      have hpiece : readPiece 37 (37 :: fmt) = (.percent, fmt) := rfl
      have hlen : (37 :: fmt).length + 1 - fmt.length = 2 := by
        rw [List.length_cons]
        omega
      rw [hpiece, hlen]
      exact percent_step h0 hroom hst
    · have hpiece : readPiece 37 fmt = readType (readSpec fmt).1 (readSpec fmt).2 := by
        unfold readPiece
        rw [if_neg (by decide), if_neg hhead]
      rw [hpiece]
      exact conv_step h0 hroom hst hhead hlt64
  · have hpiece : readPiece c fmt = (.char c, fmt) := if_pos hc
    rw [hpiece, Nat.add_sub_cancel_left]
    exact char_step h0 hroom hst hc

/-- At the end, or where the room is used up, the call returns. -/
theorem returns_end (hst : Stands size format st g rest) (hend : rest = [] ∨ ¬g.s < size - 1) :
    Returns (loopRound size format ap) st (g.s, Function.update st.str g.s 0) := by
  have hs := hst.s
  have hlt := hst.lt
  obtain ⟨c, hc, hcond⟩ : ∃ c, formatAt format st.f = some c ∧ ¬(c ≠ 0 ∧ sizeT st.s < size - 1) := by
    cases hrest : rest with
    | nil => exact ⟨0, formatAt_nil (hrest ▸ hst.text) hst.f31, fun h => h.1 rfl⟩
    | cons c rest' =>
      refine ⟨c, formatAt_cons (hrest ▸ hst.text) hst.f31, fun h => ?_⟩
      have hfull := hend.resolve_left fun hnil => by rw [hrest] at hnil; cases hnil
      have hlt31 := hst.lt31
      have hT := h.2
      unfold sizeT at hT
      omega
  refine .done ?_
  rw [loopRound_end hc hcond, writeAt_of_mem (by omega) (by omega), hs]
  rfl

/-- **The loop is left**, exactly if the pieces fit that are still to come. -/
theorem returns_iff_fits (h0 : 0 ∉ format) (hlt64 : size < 2 ^ 64) (hst : Stands size format st g rest) :
    (∃ t, Returns (loopRound size format ap) st t) ↔ Fits size ap (pieces rest) g := by
  induction rest using pieces.induct generalizing st g with
  | case1 =>
    rw [pieces, Fits]
    exact iff_of_true ⟨_, returns_end hst (Or.inl rfl)⟩ trivial
  | case2 c fmt hle ih =>
    rw [pieces, Fits]
    by_cases hroom : g.s < size - 1
    · obtain ⟨hfits, hnot⟩ := piece_step ap h0 hroom hlt64 hst
      constructor
      · rintro ⟨t, hret⟩ -
        have hpiece := Classical.not_not.1 fun hpiece => hnot hpiece t hret
        obtain ⟨st', hst', -, hreturns⟩ := hfits hpiece
        exact ⟨hpiece, (ih hst').1 ⟨t, (hreturns t).1 hret⟩⟩
      · intro hall
        obtain ⟨hpiece, hrest⟩ := hall hroom
        obtain ⟨st', hst', -, hreturns⟩ := hfits hpiece
        obtain ⟨t, hret⟩ := (ih hst').2 hrest
        exact ⟨t, (hreturns t).2 hret⟩
    · exact iff_of_true ⟨_, returns_end hst (Or.inr hroom)⟩ fun h => absurd h hroom

/-! ## Calls -/

/-- The loop is left with the terminator behind the text. -/
theorem terminated_of_returns (hret : Returns (loopRound size format ap) st t) :
    0 ≤ t.1 ∧ t.1 < size ∧ t.2 t.1.toNat = 0 := by
  induction hret with
  | next _ _ ih => exact ih
  | @done st t hbody =>
    obtain ⟨c, -, hbody⟩ := Option.bind_eq_some_iff.1 hbody
    split_ifs at hbody
    · obtain ⟨st', -, hbody⟩ := Option.bind_eq_some_iff.1 hbody
      cases hbody
    · obtain ⟨str', hwrite, hbody⟩ := Option.bind_eq_some_iff.1 hbody
      cases hbody
      by_cases hmem : st.s < 0 ∨ size ≤ st.s
      · rw [writeAt_of_not_mem hmem] at hwrite
        cases hwrite
      · rw [writeAt_of_mem (by omega) (by omega)] at hwrite
        cases hwrite
        exact ⟨by omega, by omega, Function.update_self ..⟩

theorem stands_start (h1 : 1 ≤ size) : Stands size format (start size str) Progress.start format where
  text := at_zero
  f := rfl
  f31 := Nat.two_pow_pos 31
  s := rfl
  lt := h1
  lt31 := Nat.two_pow_pos 31
  remain := by
    show int32 (size - 1) = int32 (size - 1 - (0 : Nat) + (0 : Nat))
    congr 1
    omega
  more _ := ⟨rfl, rfl, rfl⟩

/-- **Main theorem.** A call respects its buffer, exactly if the pieces of its format fit. -/
theorem respects_iff (h1 : 1 ≤ size) (hlt64 : size < 2 ^ 64) (h0 : 0 ∉ format) :
    Respects size format ap str ↔ Fits size ap (pieces format) Progress.start := by
  have hst := @stands_start size format str h1
  rw [← returns_iff_fits h0 hlt64 hst]
  constructor
  · rintro ⟨n, str', hret, -⟩
    exact ⟨(n, str'), hret⟩
  · rintro ⟨t, hret⟩
    exact ⟨t.1, t.2, hret, terminated_of_returns hret⟩

theorem zero_not_mem_nil : (0 : UInt8) ∉ ([] : List UInt8) := List.not_mem_nil

/-- Arguments that are all the same number. -/
def numbers (word : UInt64) : Nat → Arg := fun _ => ⟨word, ⟨[], zero_not_mem_nil⟩⟩

/-- `snprintf(str, 4, "%d", 12345)` writes five digits. -/
theorem not_respects_12345 : ¬Respects 4 [37, 100] (numbers 12345) fun _ => 0 := by
  rintro ⟨n, str', hret, -⟩
  have hfails : fails (loopRound 4 [37, 100] (numbers 12345)) 5 (start 4 fun _ => 0) = true := by decide +kernel
  exact not_returns_of_fails hfails hret

theorem pieces_d : pieces [37, 100] = [(.conv ⟨[], [], []⟩ .signed, 2)] := by
  simp [pieces, readPiece, readSpec, readType, isFlag, isDigit, readPrecision, conversion]

theorem respects_12345 : Respects 8 [37, 100] (numbers 12345) fun _ => 0 := by
  refine (respects_iff (by decide) (by decide) (by decide)).2 ?_
  rw [pieces_d]
  intro _
  exact ⟨⟨⟨by decide, by decide, by decide⟩, fun _ => ⟨by decide +kernel, by decide +kernel⟩⟩, trivial⟩

end ChenixOS.Stdio
