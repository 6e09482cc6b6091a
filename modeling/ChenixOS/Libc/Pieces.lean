import ChenixOS.Klib.Format
import ChenixOS.Libc.Alignment
import ChenixOS.Libc.Vsnprintf

/-!
# The pieces of a format

A format is a list of pieces: characters, `"%%"`, and conversions, of which the last one may be cut off by the end of
the format. The rounds of the loop that belong to a conversion read it up to its character (`spec_passes`), if its
digits have room and the index stays an `int`; otherwise the loop fails.
-/

namespace ChenixOS.Stdio

open Buffer Itoa Loop
open Printf (At)

/-! ## Pieces -/

/-- What stands between the `'%'` and the character of a conversion. -/
structure Spec where
  flags : List UInt8
  width : List UInt8
  precision : List UInt8

inductive Piece
  | char (c : UInt8)
  | percent
  | conv (spec : Spec) (conv : Conversion)
  /-- The format ends inside of the conversion. -/
  | cutOff (spec : Spec)
  /-- The format ends behind a `'h'`, which the code does not notice. -/
  | overrun

def isFlag (c : UInt8) : Bool := decide (c = 43 ∨ c = 45 ∨ c = 32 ∨ c = 35 ∨ c = 48)

/-- The precision, if there is one, and what follows it. -/
def readPrecision : List UInt8 → List UInt8 × List UInt8
  | [] => ([], [])
  | c :: format => if c = 46 then (format.takeWhile isDigit, format.dropWhile isDigit) else ([], c :: format)

/-- The text behind a `'%'`, up to the character of the conversion. -/
def readSpec (format : List UInt8) : Spec × List UInt8 :=
  let behind := (format.dropWhile isFlag).dropWhile isDigit
  (⟨format.takeWhile isFlag, (format.dropWhile isFlag).takeWhile isDigit, (readPrecision behind).1⟩,
    (readPrecision behind).2)

/-- The conversion that a text begins with. -/
def readType (spec : Spec) : List UInt8 → Piece × List UInt8
  | [] => (.cutOff spec, [])
  | [c] => if c = 104 then (.overrun, []) else (.conv spec (conversion c), [])
  | c :: d :: format =>
    if c ≠ 104 then (.conv spec (conversion c), d :: format)
    else if d ≠ 104 then (.conv spec .unknown, format)
    else
      match format with
      | [] => (.overrun, [])
      | e :: format => (.conv spec (charConversion e), format)

def readPiece (c : UInt8) (format : List UInt8) : Piece × List UInt8 :=
  if c ≠ 37 then (.char c, format)
  else if format.head? = some 37 then (.percent, format.tail)
  else readType (readSpec format).1 (readSpec format).2

theorem length_readPrecision (format : List UInt8) : (readPrecision format).2.length ≤ format.length := by
  cases format with
  | nil => exact Nat.le_refl _
  | cons c format =>
    rw [readPrecision]
    split_ifs
    · exact Nat.le_succ_of_le (List.dropWhile_suffix _).length_le
    · exact Nat.le_refl _

theorem length_readSpec (format : List UInt8) : (readSpec format).2.length ≤ format.length := by
  have hflags := (List.dropWhile_suffix isFlag (l := format)).length_le
  have hwidth := (List.dropWhile_suffix isDigit (l := format.dropWhile isFlag)).length_le
  have hprecision := length_readPrecision ((format.dropWhile isFlag).dropWhile isDigit)
  exact hprecision.trans (hwidth.trans hflags)

theorem length_readType (spec : Spec) (format : List UInt8) : (readType spec format).2.length ≤ format.length := by
  fun_cases readType spec format <;> simp <;> omega

/-- A piece takes the character that it begins with. -/
theorem length_readPiece (c : UInt8) (format : List UInt8) : (readPiece c format).2.length ≤ format.length := by
  unfold readPiece
  split_ifs
  · exact Nat.le_refl _
  · rw [List.length_tail]
    exact Nat.sub_le _ _
  · exact (length_readType _ _).trans (length_readSpec _)

/-- The pieces of a format, with their lengths. -/
def pieces : List UInt8 → List (Piece × Nat)
  | [] => []
  | c :: format =>
    have := length_readPiece c format
    ((readPiece c format).1, format.length + 1 - (readPiece c format).2.length) :: pieces (readPiece c format).2
termination_by format => format.length

/-! ## One round -/

variable {size f room : Nat} {format rest ds acc fl : List UInt8} {ap : Nat → Arg} {st st' : State} {c : UInt8}

theorem formatAt_cons (hat : At format f (c :: rest)) (hf : f < 2 ^ 31) : formatAt format f = some c := by
  rw [formatAt, if_pos hf, ← List.head?_drop, hat.drop]
  rfl

theorem formatAt_nil (hat : At format f []) (hf : f < 2 ^ 31) : formatAt format f = some 0 := by
  rw [formatAt, if_pos hf, ← List.head?_drop, hat.drop]
  rfl

theorem formatAt_of_ge (hf : 2 ^ 31 ≤ f) : formatAt format f = none := if_neg (Nat.not_lt.2 hf)

theorem formatAt_lt (h : formatAt format f = some c) : f < 2 ^ 31 := by
  by_contra hge
  rw [formatAt_of_ge (by omega)] at h
  cases h

theorem at_append (hat : At format f (ds ++ rest)) : At format (f + ds.length) rest := by
  induction ds generalizing f with
  | nil => exact hat
  | cons d ds ih =>
    have htail := ih hat.tail
    rwa [List.length_cons, Nat.add_comm ds.length, ← Nat.add_assoc]

theorem loopRound_cons (hat : At format st.f (c :: rest)) (hf : st.f < 2 ^ 31) (h0 : 0 ∉ format)
    (hs : sizeT st.s < size - 1) :
    loopRound size format ap st = (st.round size format ap c).map .next := by
  rw [loopRound, formatAt_cons hat hf]
  simp only [Option.bind_eq_bind, Option.bind_some]
  rw [if_pos ⟨hat.ne_zero h0, hs⟩, Option.map_eq_bind]
  rfl

theorem loopRound_of_ge (hf : 2 ^ 31 ≤ st.f) : loopRound size format ap st = none := by
  rw [loopRound, formatAt_of_ge hf]
  rfl

/-- At the end of the format, or where the room is used up, the loop is left. -/
theorem loopRound_end (hc : formatAt format st.f = some c) (hend : ¬(c ≠ 0 ∧ sizeT st.s < size - 1)) :
    loopRound size format ap st = (writeAt size st.str st.s 0).map fun str => .done (st.s, str) := by
  rw [loopRound, hc]
  simp only [Option.bind_eq_bind, Option.bind_some]
  rw [if_neg hend, Option.map_eq_bind]
  rfl

/-- Behind `2 ^ 31` characters the loop fails. -/
theorem passes_of_ge (hf : 2 ^ 31 ≤ st.f) : Passes (loopRound size format ap) False st st' :=
  passes_of_none (loopRound_of_ge hf)

theorem passes_self : Passes (loopRound size format ap) (st.f < 2 ^ 31) st st := by
  by_cases hf : st.f < 2 ^ 31
  · exact passes_refl.iff (iff_of_true trivial hf)
  · exact (passes_of_ge (by omega)).iff (iff_of_false id hf)

/-! ## Reading a conversion -/

theorem setFlag_isSome (flags : Flags) (c : UInt8) : (setFlag flags c).isSome = isFlag c := by
  unfold setFlag isFlag
  split_ifs <;> simp [*]

/-- The flags that are added to the ones before. -/
def Flags.with (flags : Flags) (fl : List UInt8) : Flags := fl.foldl (fun flags c => (setFlag flags c).getD flags) flags

theorem Flags.with_append (flags : Flags) (fl fl' : List UInt8) : flags.with (fl ++ fl') = (flags.with fl).with fl' :=
  List.foldl_append

/-- What follows digits is no digit. -/
def Ends (p : UInt8 → Bool) (rest : List UInt8) : Prop := ∀ c ∈ rest.head?, p c = false

theorem formatAt_ends (hat : At format f rest) (hf : f < 2 ^ 31) (hends : Ends isDigit rest) :
    ∃ c, formatAt format f = some c ∧ isDigit c = false := by
  cases rest with
  | nil => exact ⟨0, formatAt_nil hat hf, by decide⟩
  | cons c rest => exact ⟨c, formatAt_cons hat hf, hends c rfl⟩

/-- **The loop over digits** takes them all, if there is room for more and the index does not get too large. -/
theorem scanDigits_eq (hat : At format f (ds ++ rest)) (hds : ∀ d ∈ ds, isDigit d = true) (hends : Ends isDigit rest)
    (hroom : ds.length < room) (hf : f + ds.length < 2 ^ 31) :
    scanDigits format room f acc = some (f + ds.length, acc ++ ds) := by
  induction ds generalizing f room acc with
  | nil =>
    obtain ⟨c, hc, hnot⟩ := formatAt_ends hat hf hends
    obtain ⟨room, rfl⟩ := Nat.exists_eq_succ_of_ne_zero (Nat.ne_of_gt hroom)
    rw [scanDigits, hc, List.append_nil]
    simp only [Option.bind_eq_bind, Option.bind_some, hnot, Bool.false_eq_true, if_false]
    rfl
  | cons d ds ih =>
    rw [List.length_cons] at hroom hf ⊢
    obtain ⟨room, rfl⟩ := Nat.exists_eq_succ_of_ne_zero (Nat.ne_of_gt (Nat.zero_lt_of_lt hroom))
    have hd := hds d List.mem_cons_self
    have hrest := @ih (f + 1) room (acc ++ [d]) hat.tail (fun d hd => hds d (List.mem_cons_of_mem _ hd))
      (Nat.lt_of_succ_lt_succ hroom) (by omega)
    rw [scanDigits, formatAt_cons hat (by omega)]
    simp only [Option.bind_eq_bind, Option.bind_some, hd, if_true, hrest]
    rw [Nat.add_assoc, Nat.add_comm 1, List.append_assoc]
    rfl

/-- With too many digits it fails, or takes as many as there is room for. -/
theorem scanDigits_long (hat : At format f (ds ++ rest)) (hds : ∀ d ∈ ds, isDigit d = true)
    (hlong : room ≤ ds.length ∨ 2 ^ 31 ≤ f + ds.length) {f' : Nat} {ds' : List UInt8}
    (hscan : scanDigits format room f acc = some (f', ds')) : acc.length + room ≤ ds'.length := by
  induction room generalizing f ds acc with
  | zero =>
    rw [scanDigits] at hscan
    obtain ⟨c, -, hscan⟩ := Option.bind_eq_some_iff.1 hscan
    cases hscan
    exact Nat.le_refl _
  | succ room ih =>
    rw [scanDigits] at hscan
    obtain ⟨c, hc, hscan⟩ := Option.bind_eq_some_iff.1 hscan
    have hf := formatAt_lt hc
    cases ds with
    | nil =>
      rw [List.length_nil] at hlong
      omega
    | cons d ds =>
      rw [List.length_cons] at hlong
      obtain rfl : d = c := Option.some.inj ((formatAt_cons hat hf).symm.trans hc)
      rw [if_pos (hds d List.mem_cons_self)] at hscan
      have hlen := ih hat.tail (fun d hd => hds d (List.mem_cons_of_mem _ hd)) (by omega) hscan
      rw [List.length_append, List.length_singleton] at hlen
      omega

section Reading

variable (ap) (st) (h0 : 0 ∉ format)

include h0

/-- The rounds over the flags. -/
theorem flags_passes (hspec : st.specifier = .flags) (hat : At format st.f (fl ++ rest))
    (hfl : ∀ d ∈ fl, isFlag d = true) (hs : sizeT st.s < size - 1) :
    Passes (loopRound size format ap) (st.f + fl.length < 2 ^ 31) st
      { st with f := st.f + fl.length, flags := st.flags.with fl } := by
  induction fl generalizing st with
  | nil => exact passes_self
  | cons d fl ih =>
    by_cases hf : st.f < 2 ^ 31
    · obtain ⟨flags, hflags⟩ : ∃ flags, setFlag st.flags d = some flags :=
        Option.isSome_iff_exists.1 (by rw [setFlag_isSome, hfl d List.mem_cons_self])
      have hnext : loopRound size format ap st = some (.next { st with f := st.f + 1, flags := flags }) := by
        rw [loopRound_cons hat hf h0 hs]
        simp only [State.round, hspec, hflags]
        rfl
      have hrest := @ih { st with f := st.f + 1, flags := flags } hspec hat.tail
        (fun d hd => hfl d (List.mem_cons_of_mem _ hd)) hs
      have hwith : st.flags.with (d :: fl) = flags.with fl := by
        rw [Flags.with, List.foldl_cons, hflags]
        rfl
      have hlen : st.f + (d :: fl).length = st.f + 1 + fl.length := by
        rw [List.length_cons]
        omega
      rw [hwith, hlen]
      exact hrest.of_next hnext
    · refine (passes_of_ge (by omega)).iff (iff_of_false id ?_)
      omega

/-- The round behind the flags. -/
theorem toWidth_passes (hspec : st.specifier = .flags) (hat : At format st.f (c :: rest)) (hc : isFlag c = false)
    (hs : sizeT st.s < size - 1) :
    Passes (loopRound size format ap) (st.f < 2 ^ 31) st { st with specifier := .width } := by
  by_cases hf : st.f < 2 ^ 31
  · have hnone : setFlag st.flags c = none := Option.not_isSome_iff_eq_none.1 (by rw [setFlag_isSome, hc]; decide)
    refine (passes_of_next ?_).iff (iff_of_true trivial hf)
    rw [loopRound_cons hat hf h0 hs]
    simp only [State.round, hspec, hnone]
    rfl
  · exact (passes_of_ge (by omega)).iff (iff_of_false id hf)

omit h0 in
/-- What is left of a `match` over a scan that fails or finds too many digits. -/
theorem scan_none {α : Type} {k : Nat × List UInt8 → Option α} (hat : At format f (ds ++ rest))
    (hds : ∀ d ∈ ds, isDigit d = true) (hlong : ¬(ds.length < strSize size ∧ f + ds.length < 2 ^ 31)) :
    ((scanDigits format (strSize size) f []).bind fun x => if x.2.length < strSize size then k x else none) = none := by
  cases hscan : scanDigits format (strSize size) f [] with
  | none => rfl
  | some x =>
    obtain ⟨f', ds'⟩ := x
    have hlen := scanDigits_long hat hds (by omega) hscan
    rw [List.length_nil] at hlen
    rw [Option.bind_some]
    exact if_neg (by dsimp only; omega)

/-- The character that a text begins with, in a round that is not at its end. -/
theorem loopRound_text {text : List UInt8} (hat : At format st.f text) (hne : text ≠ []) (hf : st.f < 2 ^ 31)
    (hs : sizeT st.s < size - 1) :
    ∃ c, loopRound size format ap st = (st.round size format ap c).map .next := by
  cases text with
  | nil => exact absurd rfl hne
  | cons c text => exact ⟨c, loopRound_cons hat hf h0 hs⟩

/-- The round over the width. -/
theorem width_passes (hspec : st.specifier = .width) (hat : At format st.f (ds ++ rest)) (hne : ds ++ rest ≠ [])
    (hds : ∀ d ∈ ds, isDigit d = true) (hends : Ends isDigit rest) (hs : sizeT st.s < size - 1) :
    Passes (loopRound size format ap) (ds.length < strSize size ∧ st.f + ds.length < 2 ^ 31) st
      (if rest.head? = some 46 then { st with f := st.f + ds.length + 1, widthStr := ds, specifier := .precision }
        else { st with f := st.f + ds.length, widthStr := ds, specifier := .type }) := by
  by_cases hf : st.f < 2 ^ 31
  · obtain ⟨c, hround⟩ := loopRound_text ap st h0 hat hne hf hs
    simp only [State.round, hspec, Option.bind_eq_bind] at hround
    by_cases hok : ds.length < strSize size ∧ st.f + ds.length < 2 ^ 31
    · refine (passes_of_next ?_).iff (iff_of_true trivial hok)
      rw [hround, scanDigits_eq hat hds hends hok.1 hok.2, Option.bind_some]
      dsimp only
      rw [List.nil_append, if_pos hok.1]
      have hrest := at_append hat
      cases rest with
      | nil =>
        rw [formatAt_nil hrest hok.2]
        rfl
      | cons d rest =>
        rw [formatAt_cons hrest hok.2, Option.bind_some]
        simp only [List.head?_cons, Option.some.injEq]
        split_ifs <;> rfl
    · refine (passes_of_none ?_).iff (iff_of_false id hok)
      rw [hround]
      rw [scan_none hat hds hok]
      rfl
  · exact (passes_of_ge (by omega)).iff (iff_of_false id (by omega))

/-- The round over the precision. -/
theorem precision_passes (hspec : st.specifier = .precision) (hat : At format st.f (ds ++ rest)) (hne : ds ++ rest ≠ [])
    (hds : ∀ d ∈ ds, isDigit d = true) (hends : Ends isDigit rest) (hs : sizeT st.s < size - 1) :
    Passes (loopRound size format ap) (ds.length < strSize size ∧ st.f + ds.length < 2 ^ 31) st
      { st with f := st.f + ds.length, precisionStr := ds, specifier := .type } := by
  by_cases hf : st.f < 2 ^ 31
  · obtain ⟨c, hround⟩ := loopRound_text ap st h0 hat hne hf hs
    simp only [State.round, hspec, Option.bind_eq_bind] at hround
    by_cases hok : ds.length < strSize size ∧ st.f + ds.length < 2 ^ 31
    · refine (passes_of_next ?_).iff (iff_of_true trivial hok)
      rw [hround, scanDigits_eq hat hds hends hok.1 hok.2, Option.bind_some]
      dsimp only
      rw [List.nil_append, if_pos hok.1]
      rfl
    · refine (passes_of_none ?_).iff (iff_of_false id hok)
      rw [hround, scan_none hat hds hok]
      rfl
  · exact (passes_of_ge (by omega)).iff (iff_of_false id (by omega))

/-- What the rounds up to the character of a conversion do to the state: they leave the output alone. -/
structure Reads (format : List UInt8) (st st' : State) (spec : Spec) (rest : List UInt8) : Prop where
  text : At format st'.f rest
  s : st'.s = st.s
  remain : st'.remain = st.remain
  arg : st'.arg = st.arg
  str : st'.str = st.str
  type : rest ≠ [] → st'.specifier = .type ∧ st'.flags = st.flags.with spec.flags ∧ st'.widthStr = spec.width

/-- The digits of a conversion have room, and the index stays an `int`. -/
def Spec.Fits (spec : Spec) (size f : Nat) : Prop :=
  spec.width.length < strSize size ∧ spec.precision.length < strSize size ∧ f < 2 ^ 31

omit h0 in
theorem ends_dropWhile {p : UInt8 → Bool} {text : List UInt8} : Ends p (text.dropWhile p) := by
  intro c hc
  have hnot := List.head?_dropWhile_not p text
  rw [Option.mem_def.1 hc] at hnot
  exact Bool.eq_false_of_not_eq_true (by simpa using hnot)

omit h0 in
theorem mem_takeWhile {p : UInt8 → Bool} {text : List UInt8} : ∀ d ∈ text.takeWhile p, p d = true :=
  List.all_eq_true.1 List.all_takeWhile

theorem precision_reads (hspec : st.specifier = .precision) (hat : At format st.f rest) (hs : sizeT st.s < size - 1)
    (hsize : 0 < strSize size) :
    ∃ st', Passes (loopRound size format ap)
        ((rest.takeWhile isDigit).length < strSize size ∧ st.f + (rest.takeWhile isDigit).length < 2 ^ 31) st st' ∧
      Reads format st st' ⟨[], st.widthStr, rest.takeWhile isDigit⟩ (rest.dropWhile isDigit) := by
  by_cases hne : rest = []
  · subst hne
    refine ⟨st, passes_self.iff ⟨fun hf => ⟨hsize, hf⟩, And.right⟩, ⟨hat, rfl, rfl, rfl, rfl, fun h => absurd rfl h⟩⟩
  · have hsplit : rest.takeWhile isDigit ++ rest.dropWhile isDigit = rest := List.takeWhile_append_dropWhile
    have hat' : At format st.f (rest.takeWhile isDigit ++ rest.dropWhile isDigit) := hsplit.symm ▸ hat
    refine ⟨_, precision_passes ap st h0 hspec hat' (hsplit.symm ▸ hne) mem_takeWhile ends_dropWhile hs, ?_⟩
    exact ⟨at_append hat', rfl, rfl, rfl, rfl, fun _ => ⟨rfl, rfl, rfl⟩⟩

theorem width_reads (hspec : st.specifier = .width) (hat : At format st.f rest) (hne : rest ≠ [])
    (hs : sizeT st.s < size - 1) (hsize : 0 < strSize size) :
    ∃ st', Passes (loopRound size format ap)
        ((rest.takeWhile isDigit).length < strSize size ∧
          (readPrecision (rest.dropWhile isDigit)).1.length < strSize size ∧ st'.f < 2 ^ 31) st st' ∧
      Reads format st st' ⟨[], rest.takeWhile isDigit, (readPrecision (rest.dropWhile isDigit)).1⟩
        (readPrecision (rest.dropWhile isDigit)).2 := by
  have hsplit : rest.takeWhile isDigit ++ rest.dropWhile isDigit = rest := List.takeWhile_append_dropWhile
  have hat' : At format st.f (rest.takeWhile isDigit ++ rest.dropWhile isDigit) := hsplit.symm ▸ hat
  have hpasses := width_passes ap st h0 hspec hat' (hsplit.symm ▸ hne) mem_takeWhile ends_dropWhile hs
  have hbehind := at_append hat'
  generalize rest.takeWhile isDigit = ds at *
  cases hrest : rest.dropWhile isDigit with
  | nil =>
    rw [hrest] at hpasses hbehind
    exact ⟨_, hpasses.iff ⟨fun h => ⟨h.1, hsize, h.2⟩, fun h => ⟨h.1, h.2.2⟩⟩,
      ⟨hbehind, rfl, rfl, rfl, rfl, fun h => absurd rfl h⟩⟩
  | cons c behind =>
    rw [hrest] at hpasses hbehind
    by_cases hdot : c = 46
    · subst hdot
      obtain ⟨st', hpasses', hreads⟩ := precision_reads ap
        { st with f := st.f + ds.length + 1, widthStr := ds, specifier := .precision } h0 rfl hbehind.tail hs hsize
      have hf : st'.f = st.f + ds.length + 1 + (behind.takeWhile isDigit).length := by
        have hlen := hreads.text.1
        have hlen' := hbehind.tail.1
        have hlen'' := congrArg List.length (List.takeWhile_append_dropWhile (p := isDigit) (l := behind))
        rw [List.length_append] at hlen''
        omega
      rw [List.head?_cons, if_pos rfl] at hpasses
      rw [readPrecision, if_pos rfl]
      refine ⟨st', (hpasses.trans fun _ => hpasses').iff ?_, ?_⟩
      · dsimp only
        rw [hf]
        omega
      · exact ⟨hreads.text, hreads.s, hreads.remain, hreads.arg, hreads.str, hreads.type⟩
    · have hhead : (c :: behind).head? ≠ some 46 := fun h => hdot (Option.some.inj h)
      rw [if_neg hhead] at hpasses
      rw [readPrecision, if_neg hdot]
      exact ⟨_, hpasses.iff ⟨fun h => ⟨h.1, hsize, h.2⟩, fun h => ⟨h.1, h.2.2⟩⟩,
        ⟨hbehind, rfl, rfl, rfl, rfl, fun _ => ⟨rfl, rfl, rfl⟩⟩⟩

/-- **A conversion is read** up to its character. -/
theorem spec_passes (hspec : st.specifier = .flags) (hat : At format st.f rest) (hs : sizeT st.s < size - 1)
    (hsize : 0 < strSize size) :
    ∃ st', Passes (loopRound size format ap) ((readSpec rest).1.Fits size st'.f) st st' ∧
      Reads format st st' (readSpec rest).1 (readSpec rest).2 := by
  have hsplit : rest.takeWhile isFlag ++ rest.dropWhile isFlag = rest := List.takeWhile_append_dropWhile
  have hat' : At format st.f (rest.takeWhile isFlag ++ rest.dropWhile isFlag) := hsplit.symm ▸ hat
  have hpasses := flags_passes ap st h0 hspec hat' mem_takeWhile hs
  have hbehind := at_append hat'
  have hends : Ends isFlag (rest.dropWhile isFlag) := ends_dropWhile
  unfold readSpec Spec.Fits
  dsimp only
  generalize rest.takeWhile isFlag = fl at *
  cases hrest : rest.dropWhile isFlag with
  | nil =>
    rw [hrest] at hbehind
    exact ⟨_, hpasses.iff ⟨fun h => ⟨hsize, hsize, h⟩, fun h => h.2.2⟩,
      ⟨hbehind, rfl, rfl, rfl, rfl, fun h => absurd rfl h⟩⟩
  | cons c behind =>
    rw [hrest] at hbehind hends
    have hwidth := toWidth_passes ap { st with f := st.f + fl.length, flags := st.flags.with fl } h0
      hspec hbehind (hends c rfl) hs
    obtain ⟨st', hpasses', hreads⟩ := width_reads ap
      { st with f := st.f + fl.length, flags := st.flags.with fl, specifier := .width } h0
      rfl hbehind (List.cons_ne_nil c behind) hs hsize
    refine ⟨st', (hpasses.trans fun _ => hwidth.trans fun _ => hpasses').iff ?_, ?_⟩
    · have hle : st.f + fl.length ≤ st'.f := by
        have hlen := hreads.text.1
        have hlen' := hbehind.1
        have hprecision := length_readPrecision ((c :: behind).dropWhile isDigit)
        have hdigits := (List.dropWhile_suffix isDigit (l := c :: behind)).length_le
        omega
      dsimp only
      omega
    · exact ⟨hreads.text, hreads.s, hreads.remain, hreads.arg, hreads.str, hreads.type⟩

end Reading

/-! ## The character of a conversion -/

variable {spec : Spec} {conv : Conversion} {text : List UInt8}

/-- **A conversion that is complete** is taken with its character. -/
theorem readConversion_eq (hat : At format f text) (htype : readType spec text = (.conv spec conv, rest)) :
    ∃ k, text.length = rest.length + k ∧ At format (f + k) rest ∧
      (f + k ≤ 2 ^ 31 → readConversion format f = some (conv, f + k)) ∧
      (2 ^ 31 < f + k → readConversion format f = none) := by
  revert htype
  fun_cases readType spec text with
  | case1 => intro htype; cases htype
  | case2 => intro htype; cases htype
  | case3 c hc =>
    intro htype
    cases htype
    refine ⟨1, rfl, hat.tail, fun hf => ?_, fun hf => ?_⟩
    · rw [readConversion, formatAt_cons hat (by omega)]
      simp only [Option.bind_eq_bind, Option.bind_some, if_neg hc]
    · rw [readConversion, formatAt_of_ge (by omega)]
      rfl
  | case4 c d behind hc =>
    intro htype
    cases htype
    refine ⟨1, rfl, hat.tail, fun hf => ?_, fun hf => ?_⟩
    · rw [readConversion, formatAt_cons hat (by omega)]
      simp only [Option.bind_eq_bind, Option.bind_some, if_neg hc]
    · rw [readConversion, formatAt_of_ge (by omega)]
      rfl
  | case5 c d behind hc hd =>
    intro htype
    cases htype
    obtain rfl : c = 104 := not_ne_iff.1 hc
    refine ⟨2, rfl, hat.tail.tail, fun hf => ?_, fun hf => ?_⟩
    · rw [readConversion, formatAt_cons hat (by omega)]
      simp only [Option.bind_eq_bind, Option.bind_some, if_true]
      rw [formatAt_cons hat.tail (by omega), Option.bind_some, if_neg hd]
    · unfold readConversion
      by_cases hf₀ : f < 2 ^ 31
      · rw [formatAt_cons hat hf₀]
        simp only [Option.bind_eq_bind, Option.bind_some, if_true]
        rw [formatAt_of_ge (by omega), Option.bind_none]
      · rw [formatAt_of_ge (by omega)]
        rfl
  | case6 c d hc hd =>
    intro htype
    cases htype
  | case7 c d hc hd e behind =>
    intro htype
    cases htype
    obtain rfl : c = 104 := not_ne_iff.1 hc
    obtain rfl : d = 104 := not_ne_iff.1 hd
    refine ⟨3, rfl, hat.tail.tail.tail, fun hf => ?_, fun hf => ?_⟩
    · rw [readConversion, formatAt_cons hat (by omega)]
      simp only [Option.bind_eq_bind, Option.bind_some, if_true]
      rw [formatAt_cons hat.tail (by omega), Option.bind_some, if_pos rfl, formatAt_cons hat.tail.tail (by omega),
        Option.bind_some]
    · unfold readConversion
      by_cases hf₀ : f < 2 ^ 31
      · rw [formatAt_cons hat hf₀]
        simp only [Option.bind_eq_bind, Option.bind_some, if_true]
        by_cases hf₁ : f + 1 < 2 ^ 31
        · rw [formatAt_cons hat.tail hf₁, Option.bind_some, if_pos rfl, formatAt_of_ge (by omega), Option.bind_none]
        · rw [formatAt_of_ge (by omega), Option.bind_none]
      · rw [formatAt_of_ge (by omega)]
        rfl

/-- At the end of a format behind a `'h'` the index gets behind the end. -/
theorem readConversion_overrun (hat : At format f text) (htype : readType spec text = (.overrun, rest)) {f' : Nat}
    (hread : readConversion format f = some (conv, f')) : conv = .unknown ∧ format.length < f' := by
  have hlen := hat.1
  unfold readConversion at hread
  obtain ⟨c', hc', hread⟩ := Option.bind_eq_some_iff.1 hread
  have hf₀ := formatAt_lt hc'
  revert htype
  fun_cases readType spec text with
  | case1 => intro htype; cases htype
  | case2 =>
    intro _
    obtain rfl := Option.some.inj ((formatAt_cons hat hf₀).symm.trans hc')
    rw [if_pos rfl] at hread
    obtain ⟨d', hd', hread⟩ := Option.bind_eq_some_iff.1 hread
    obtain rfl := Option.some.inj ((formatAt_nil hat.tail (formatAt_lt hd')).symm.trans hd')
    rw [if_neg (by decide)] at hread
    cases hread
    rw [List.length_singleton] at hlen
    exact ⟨rfl, by omega⟩
  | case3 => intro htype; cases htype
  | case4 => intro htype; cases htype
  | case5 => intro htype; cases htype
  | case6 c d hc hd =>
    intro _
    obtain rfl : c = 104 := not_ne_iff.1 hc
    obtain rfl : d = 104 := not_ne_iff.1 hd
    obtain rfl := Option.some.inj ((formatAt_cons hat hf₀).symm.trans hc')
    rw [if_pos rfl] at hread
    obtain ⟨d', hd', hread⟩ := Option.bind_eq_some_iff.1 hread
    obtain rfl := Option.some.inj ((formatAt_cons hat.tail (formatAt_lt hd')).symm.trans hd')
    rw [if_pos rfl] at hread
    obtain ⟨e', he', hread⟩ := Option.bind_eq_some_iff.1 hread
    obtain rfl := Option.some.inj ((formatAt_nil hat.tail.tail (formatAt_lt he')).symm.trans he')
    cases hread
    rw [List.length_cons, List.length_singleton] at hlen
    exact ⟨rfl, by omega⟩
  | case7 => intro htype; cases htype

/-- Behind the end of the format the loop fails. -/
theorem passes_behind (hf : format.length < st.f) : Passes (loopRound size format ap) False st st' := by
  refine passes_of_none ?_
  have hnone : formatAt format st.f = none := by
    unfold formatAt
    split_ifs
    · rw [List.getElem?_eq_none]
      rw [List.length_append, List.length_singleton]
      omega
    · rfl
  rw [loopRound, hnone]
  rfl

end ChenixOS.Stdio
