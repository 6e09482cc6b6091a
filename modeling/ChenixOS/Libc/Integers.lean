import ChenixOS.Libc.Agreement
import ChenixOS.Libc.Directives
import ChenixOS.Libc.Printed

/-!
# Conversions of integers, one behind the other

**The main result**, `whole_iff`: in a format of conversions of integers, each one prints its whole numeral, just as in
a call of its own, exactly if it is undisturbed: its width is not less than the number, and the flags of the conversions
in front of it, which are never reset, change neither its sign nor its filler.
-/

namespace ChenixOS.Stdio

open Itoa Numerals

/-! ## Numbers -/

/-- The numeral of an argument, with its sign if it is negative. -/
def Conversion.numeral (word : UInt64) : Conversion → List UInt8
  | .pointer => digitsText 16 false word.toNat
  | .unsigned base uppercase _ => digitsText base uppercase word.toNat
  | .signed => signText false word.toInt64 ++ digitsText 10 false word.toInt64.toInt.natAbs
  | .string => []
  | .character => []
  | .unknown => []

/-- The base of a numeral. -/
def Conversion.base : Conversion → Nat
  | .unsigned base _ _ => base
  | _ => 16

variable {size : Nat} {ap : Nat → Arg} {str : Nat → UInt8} {flags flags' : Flags} {w out : List UInt8} {word : UInt64}
  {conv : Conversion} {F F' : Field} {base n : Nat} {uppercase plus plus' : Bool} {v : Int64} {d : Directive}
  {ds : List Directive}

theorem digitsText_clean (hb : 2 ≤ base) (h16 : base ≤ 16) :
    ∀ x ∈ digitsText base uppercase n, x ≠ 32 ∧ x ≠ 43 ∧ x ≠ 45 := by
  have hall : ∀ up, ∀ r < 16, remainderChar up r ≠ 32 ∧ remainderChar up r ≠ 43 ∧ remainderChar up r ≠ 45 := by decide
  intro x hx
  obtain ⟨r, hr, rfl⟩ := List.mem_map.1 hx
  have hlt := lt_of_mem_numeral hb hr
  exact hall uppercase r (by omega)

theorem digitsText_ne_nil : digitsText base uppercase n ≠ [] := List.length_pos_iff.1 length_digitsText_pos

theorem signText_cases : signText plus v = signText plus' v ∨
    signText plus v = [43] ∧ signText plus' v = [] ∨ signText plus v = [] ∧ signText plus' v = [43] := by
  unfold signText
  cases plus <;> cases plus' <;> split_ifs <;> simp_all

theorem signText_mem : signText plus v = [] ∨ signText plus v = [43] ∨ signText plus v = [45] := by
  unfold signText
  split_ifs <;> simp

/-- The numeral of a number is in what is written with a sign. -/
theorem signText_part {s : List UInt8} : signText false v ++ s <:+: signText plus v ++ s := by
  cases plus with
  | false => exact List.infix_refl _
  | true =>
    by_cases hv : 0 ≤ v
    · have hnone : signText false v = [] := if_pos hv
      rw [hnone]
      exact (List.suffix_append _ _).isInfix
    · have hminus : signText false v = signText true v := by
        rw [signText, signText, if_neg hv, if_neg hv]
      rw [hminus]

theorem filler_mem : flags.filler = 32 ∨ flags.filler = 48 := by
  unfold Flags.filler
  dsimp only
  split_ifs <;> simp

theorem filler_minus (hminus : flags.minus = true) : flags.filler = 32 := by
  unfold Flags.filler
  exact if_pos hminus

theorem alignment_zero {x : Int} (hx : -2 ^ 31 ≤ x ∧ x < 2 ^ 31) : flags.alignment x = 0 ↔ x = 0 := by
  unfold Flags.alignment int32
  split_ifs <;> omega

theorem alignment_side {x : Int} :
    flags.alignment x = flags'.alignment x ∨ flags.filler = 32 ∨ flags'.filler = 32 := by
  by_cases hminus : flags.minus = true
  · exact Or.inr (Or.inl (filler_minus hminus))
  · by_cases hminus' : flags'.minus = true
    · exact Or.inr (Or.inr (filler_minus hminus'))
    · refine Or.inl ?_
      unfold Flags.alignment
      rw [if_neg hminus, if_neg hminus']

/-- **The fields of a number** under different flags. -/
theorem field_alike (hF : field flags w word conv = some F) (hF' : field flags' w word conv = some F')
    (hbase : conv.base ≤ 16) :
    Alike F F' ∧ F.digits <:+: conv.numeral word ∧ conv.numeral word <:+: F'.sign ++ F.digits := by
  have hzero := (@alignment_zero flags _ (atoi_mem w)).trans (@alignment_zero flags' _ (atoi_mem w)).symm
  have hside := @alignment_side flags flags' (atoi w)
  cases conv with
  | pointer =>
    cases hF
    cases hF'
    exact ⟨⟨rfl, digitsText_ne_nil, digitsText_clean (by decide) (by decide), Or.inl rfl, Or.inl rfl,
      ⟨Or.inr rfl, Or.inr rfl⟩, Iff.rfl, Or.inl rfl⟩, List.infix_refl _, List.infix_refl _⟩
  | unsigned base uppercase hb =>
    cases hF
    cases hF'
    exact ⟨⟨rfl, digitsText_ne_nil, digitsText_clean hb hbase, Or.inl rfl, Or.inl rfl, ⟨filler_mem, filler_mem⟩,
      hzero, hside⟩, List.infix_refl _, List.infix_refl _⟩
  | signed =>
    cases hF
    cases hF'
    exact ⟨⟨rfl, digitsText_ne_nil, digitsText_clean (by decide) (by decide), signText_cases, signText_mem,
      ⟨filler_mem, filler_mem⟩, hzero, hside⟩, (List.suffix_append _ _).isInfix, signText_part⟩
  | string => cases hF
  | character => cases hF
  | unknown => cases hF

/-! ## Directives one behind the other -/

def Flags.empty : Flags := ⟨false, false, false, false, false⟩

namespace Directive

theorem conv_facts : d.conv.base ≤ 16 ∧ (field flags w word d.conv).isSome = true := by
  have hmem := d.type_mem
  unfold Directive.conv
  simp only [List.mem_cons, List.not_mem_nil, or_false] at hmem
  rcases hmem with h | h | h | h | h | h <;> rw [h] <;> exact ⟨by decide, rfl⟩

variable (d)

/-- The field of a directive behind others, of which all flags are still set. -/
def fieldBehind (ds : List Directive) (word : UInt64) : Field :=
  (field (Flags.empty.with (ds.flatMap Directive.flags ++ d.flags)) d.width word d.conv).get conv_facts.2

def numeral (word : UInt64) : List UInt8 := d.conv.numeral word

end Directive

/-- The room at the index `s`, as the code counts it. -/
def room (size s : Nat) : Int := int32 (size - 1 - s)

/-- What a directive writes in a call of its own. -/
def Directive.own (size : Nat) (d : Directive) (word : UInt64) : List UInt8 :=
  (d.fieldBehind [] word).text (room size 0)

def owns (size : Nat) (ap : Nat → Arg) (ds : List Directive) : List UInt8 :=
  ds.zipIdx.flatMap fun x => x.1.own size (ap x.2).word

/-- Every directive prints what it prints in a call of its own, behind what the ones in front of it print, and this has
the whole numeral of its argument in it. -/
def Whole (size : Nat) (ds : List Directive) (ap : Nat → Arg) (str : Nat → UInt8) : Prop :=
  ∀ pre d post, ds = pre ++ d :: post → ∃ text out,
    Prints size (render pre) ap str text ∧ Prints size (render (pre ++ [d])) ap str (text ++ out) ∧
    Prints size (render [d]) (fun i => ap (pre.length + i)) str out ∧ d.numeral (ap pre.length).word <:+: out

/-- The directives in front of another one leave it as it is on its own. -/
structure Undisturbed (size : Nat) (ap : Nat → Arg) (pre : List Directive) (d : Directive) : Prop where
  digits : d.spec.Fits size (render (pre ++ [d])).length
  room : 0 ≤ room size 0 ∧ 0 ≤ room size (owns size ap pre).length
  fits : (owns size ap (pre ++ [d])).length < size ∧ (owns size ap (pre ++ [d])).length < 2 ^ 31
  agrees : (d.fieldBehind pre (ap pre.length).word).Agrees (d.fieldBehind [] (ap pre.length).word)
    (Stdio.room size (owns size ap pre).length) (Stdio.room size 0)

theorem field_eq : field (Flags.empty.with (ds.flatMap Directive.flags ++ d.flags)) d.width word d.conv =
    some (d.fieldBehind ds word) := (Option.some_get _).symm

theorem owns_concat : owns size ap (ds ++ [d]) = owns size ap ds ++ d.own size (ap ds.length).word := by
  rw [owns, List.zipIdx_append, List.flatMap_append, Nat.zero_add]
  simp [owns]

theorem render_concat : render (ds ++ [d]) = render ds ++ d.text := by
  simp [render]

/-- How far a call has come behind directives. -/
theorem after_render (size : Nat) (ap : Nat → Arg) (ds : List Directive) :
    let g := Progress.start.after size ap (ds.map Directive.piece)
    g.f = (render ds).length ∧ g.chars = 0 ∧ g.flags = Flags.empty.with (ds.flatMap Directive.flags) ∧
      g.arg = ds.length := by
  induction ds using List.reverseRecOn with
  | nil => exact ⟨rfl, rfl, rfl, rfl⟩
  | append_singleton ds d ih =>
    obtain ⟨hf, hchars, hflags, harg⟩ := ih
    obtain ⟨hchars', hargs'⟩ := field_counts (@field_eq 0 d ds)
    rw [List.map_append, List.map_singleton, Progress.after_concat, render_concat, List.flatMap_append,
      List.length_append, List.length_append, List.flatMap_singleton, Flags.with_append]
    dsimp only at hf hchars hflags harg ⊢
    refine ⟨congrArg (· + d.text.length) hf, ?_, congrArg (Flags.with · d.flags) hflags, ?_⟩
    · show _ + d.conv.chars = 0
      rw [hchars', hchars]
    · show _ + d.conv.args = ds.length + 1
      rw [hargs', harg]

/-- What a directive writes behind others, if it is reached. -/
def Directive.output (size : Nat) (s : Nat) (F : Field) : List UInt8 :=
  if s < size - 1 then if room size s < 0 then [] else F.text (room size s) else []

section Behind

variable (size : Nat) (ap : Nat → Arg) (ds : List Directive) (d : Directive)

/-- One more directive. -/
theorem behind_piece :
    let g := Progress.start.after size ap (ds.map Directive.piece)
    let F := d.fieldBehind ds (ap ds.length).word
    printed size ap [d.piece] g = Directive.output size g.s F ∧
      (Fits size ap [d.piece] g ↔ (g.s < size - 1 → d.spec.Fits size (render (ds ++ [d])).length ∧
        (0 ≤ room size g.s → g.s + (F.text (room size g.s)).length < size ∧
          g.s + (F.text (room size g.s)).length < 2 ^ 31))) := by
  obtain ⟨hf, hchars, hflags, harg⟩ := after_render size ap ds
  have hfield := @field_eq (ap ds.length).word d ds
  dsimp only at hf hchars hflags harg ⊢
  generalize Progress.start.after size ap (ds.map Directive.piece) = g at hf hchars hflags harg ⊢
  have hroom : g.remain size = room size g.s := by
    unfold Progress.remain room
    rw [hchars, Int.natCast_zero, Int.add_zero]
  have hwith : g.flags.with d.flags = Flags.empty.with (ds.flatMap Directive.flags ++ d.flags) := by
    rw [hflags, Flags.with_append]
  have hwritten : g.written size ap d.piece =
      if room size g.s < 0 then [] else (d.fieldBehind ds (ap ds.length).word).text (room size g.s) := by
    show written (g.flags.with d.flags) d.width (ap g.arg) (g.remain size) d.conv = _
    unfold written
    rw [hwith, harg, hroom, hfield]
  have hpiece : PieceFits size ap g d.piece ↔ d.spec.Fits size (render (ds ++ [d])).length ∧ (0 ≤ room size g.s →
      g.s + ((d.fieldBehind ds (ap ds.length).word).text (room size g.s)).length < size ∧
        g.s + ((d.fieldBehind ds (ap ds.length).word).text (room size g.s)).length < 2 ^ 31) := by
    show d.spec.Fits size (g.f + d.text.length) ∧
      ConversionFits size g.s (g.flags.with d.flags) d.width (ap g.arg) (g.remain size) d.conv ↔ _
    unfold ConversionFits
    rw [hwith, harg, hroom, hfield, hf, render_concat, List.length_append]
  refine ⟨?_, ?_⟩
  · rw [printed, printed, hwritten, List.append_nil]
    rfl
  · rw [Fits, hpiece]
    exact ⟨fun h hs => (h hs).1, fun h hs => ⟨h hs, trivial⟩⟩

end Behind

/-! ## Calls -/

theorem not_isString : ∀ p ∈ ds.map Directive.piece, ¬p.1.isString := by
  intro p hp hstring
  obtain ⟨d, -, rfl⟩ := List.mem_map.1 hp
  have hconv : d.conv = .string := hstring
  have hsome := (@Directive.conv_facts Flags.empty [] 0 d).2
  rw [hconv] at hsome
  cases hsome

section Calls

variable (h1 : 1 ≤ size) (hlt64 : size < 2 ^ 64)

include h1 hlt64

theorem prints_render : Prints size (render ds) ap str out ↔
    Fits size ap (ds.map Directive.piece) Progress.start ∧
      out = printed size ap (ds.map Directive.piece) Progress.start := by
  have hiff := @prints_iff size (render ds) out ap str h1 hlt64 zero_not_mem_render
  rw [pieces_render] at hiff
  exact hiff not_isString

/-- A call with one more directive. -/
theorem prints_concat : Prints size (render (ds ++ [d])) ap str out ↔
    Fits size ap (ds.map Directive.piece) Progress.start ∧
      Fits size ap [d.piece] (Progress.start.after size ap (ds.map Directive.piece)) ∧
      out = printed size ap (ds.map Directive.piece) Progress.start ++
        Directive.output size (Progress.start.after size ap (ds.map Directive.piece)).s
          (d.fieldBehind ds (ap ds.length).word) := by
  rw [prints_render h1 hlt64, List.map_append, List.map_singleton, fits_append not_isString,
    printed_append not_isString, (behind_piece size ap ds d).1, and_assoc]

/-- A call of one directive. -/
theorem prints_single : Prints size (render [d]) ap str out ↔
    Fits size ap [d.piece] Progress.start ∧ out = Directive.output size 0 (d.fieldBehind [] (ap 0).word) := by
  have hconcat := @prints_concat size ap str out d [] h1 hlt64
  rw [List.nil_append] at hconcat
  rw [hconcat]
  exact ⟨fun h => h.2, fun h => ⟨trivial, h⟩⟩

end Calls

/-- What is known behind directives that are undisturbed. -/
structure Held (size : Nat) (ap : Nat → Arg) (ds : List Directive) : Prop where
  fits : Fits size ap (ds.map Directive.piece) Progress.start
  s : (Progress.start.after size ap (ds.map Directive.piece)).s = (owns size ap ds).length

theorem output_of_reached {s : Nat} (hs : s < size - 1) (hroom : 0 ≤ room size s) :
    Directive.output size s F = F.text (room size s) := by
  rw [Directive.output, if_pos hs, if_neg (Int.not_lt.2 hroom)]

theorem reached_of_output {s : Nat} (hne : Directive.output size s F ≠ []) : s < size - 1 ∧ 0 ≤ room size s := by
  unfold Directive.output at hne
  split_ifs at hne with hs hroom
  · exact absurd rfl hne
  · exact ⟨hs, Int.not_lt.1 hroom⟩
  · exact absurd rfl hne

theorem Directive.agrees_iff {r r' : Int} :
    (d.fieldBehind ds word).text r = (d.fieldBehind [] word).text r' ∧ d.numeral word <:+: (d.fieldBehind [] word).text r' ↔
      (d.fieldBehind ds word).Agrees (d.fieldBehind [] word) r r' := by
  obtain ⟨halike, hdigits, hnumeral⟩ := field_alike (@field_eq word d ds) (@field_eq word d [])
    (@Directive.conv_facts Flags.empty [] 0 d).1
  exact halike.text_eq_iff hdigits hnumeral

theorem Directive.numeral_ne_nil : d.numeral word ≠ [] := by
  obtain ⟨halike, hdigits, -⟩ := field_alike (@field_eq word d []) (@field_eq word d [])
    (@Directive.conv_facts Flags.empty [] 0 d).1
  intro hnil
  have hpart : _ <:+: d.numeral word := hdigits
  rw [hnil] at hpart
  exact halike.ne_nil (List.infix_nil.1 hpart)

theorem length_owns_concat : (owns size ap (ds ++ [d])).length =
    (owns size ap ds).length + ((d.fieldBehind [] (ap ds.length).word).text (room size 0)).length := by
  rw [owns_concat, List.length_append]
  rfl

namespace Undisturbed

variable (h : Undisturbed size ap ds d)

include h

theorem text_eq : (d.fieldBehind ds (ap ds.length).word).text (Stdio.room size (owns size ap ds).length) =
    (d.fieldBehind [] (ap ds.length).word).text (Stdio.room size 0) := (Directive.agrees_iff.2 h.agrees).1

theorem numeral_part :
    d.numeral (ap ds.length).word <:+: (d.fieldBehind [] (ap ds.length).word).text (Stdio.room size 0) :=
  (Directive.agrees_iff.2 h.agrees).2

/-- It is reached. -/
theorem reached : (owns size ap ds).length < size - 1 := by
  have hlen := h.fits.1
  have hpos := (List.length_pos_iff.2 Directive.numeral_ne_nil).trans_le h.numeral_part.length_le
  rw [length_owns_concat] at hlen
  omega

/-- It fits behind the other ones. -/
theorem piece_fits (hheld : Held size ap ds) :
    Fits size ap [d.piece] (Progress.start.after size ap (ds.map Directive.piece)) := by
  refine (behind_piece size ap ds d).2.2 fun _ => ⟨h.digits, fun _ => ?_⟩
  rw [hheld.s, h.text_eq, ← length_owns_concat]
  exact h.fits

theorem held (hheld : Held size ap ds) : Held size ap (ds ++ [d]) where
  fits := by
    rw [List.map_append, fits_append not_isString]
    exact ⟨hheld.fits, h.piece_fits hheld⟩
  s := by
    have hs := hheld.s
    have hwritten := (behind_piece size ap ds d).1
    have hplain := not_isString d.piece (List.mem_map_of_mem (List.mem_singleton_self d))
    rw [printed, hs, if_pos h.reached, printed, List.append_nil, output_of_reached h.reached h.room.2,
      h.text_eq] at hwritten
    rw [List.map_append, List.map_singleton, Progress.after_concat, next_s hplain, hwritten, hs, length_owns_concat]

end Undisturbed

/-- **One directive** is whole and on its own, exactly if it is undisturbed. -/
theorem stage_iff (h1 : 1 ≤ size) (hlt64 : size < 2 ^ 64) (hheld : Held size ap ds) :
    (∃ text out, Prints size (render ds) ap str text ∧ Prints size (render (ds ++ [d])) ap str (text ++ out) ∧
      Prints size (render [d]) (fun i => ap (ds.length + i)) str out ∧ d.numeral (ap ds.length).word <:+: out) ↔
    Undisturbed size ap ds d := by
  have hs := hheld.s
  constructor
  · rintro ⟨text, out, htext₁, htext₂, hout, hpart⟩
    obtain ⟨-, rfl⟩ := (prints_render h1 hlt64).1 htext₁
    obtain ⟨-, hfits, happend⟩ := (prints_concat h1 hlt64).1 htext₂
    obtain ⟨-, hout⟩ := (prints_single h1 hlt64).1 hout
    have heq := List.append_cancel_left happend
    rw [hs] at heq
    have hne : out ≠ [] := by
      rintro rfl
      exact Directive.numeral_ne_nil (List.infix_nil.1 hpart)
    obtain ⟨hs₀, hroom₀⟩ := reached_of_output (hout ▸ hne)
    obtain ⟨hs', hroom⟩ := reached_of_output (heq ▸ hne)
    rw [output_of_reached hs₀ hroom₀] at hout
    rw [output_of_reached hs' hroom] at heq
    have hsame : (d.fieldBehind ds (ap ds.length).word).text (room size (owns size ap ds).length) =
        (d.fieldBehind [] (ap ds.length).word).text (room size 0) := heq.symm.trans hout
    obtain ⟨hspec, hfits'⟩ := (behind_piece size ap ds d).2.1 hfits (hs ▸ hs')
    have hlen := hfits' (hs ▸ hroom)
    rw [hs, hsame, ← length_owns_concat] at hlen
    exact ⟨hspec, ⟨hroom₀, hroom⟩, hlen, Directive.agrees_iff.1 ⟨hsame, hout ▸ hpart⟩⟩
  · intro h
    have hreached := h.reached
    have hfits := h.fits
    rw [length_owns_concat] at hfits
    -- in a call of its own the directive ends earlier
    have hspec : d.spec.Fits size (render ([] ++ [d])).length := by
      obtain ⟨hw, hp, hf⟩ := h.digits
      rw [render_concat, List.length_append] at hf ⊢
      exact ⟨hw, hp, (Nat.add_le_add_right (Nat.zero_le _) _).trans_lt hf⟩
    refine ⟨_, (d.fieldBehind [] (ap ds.length).word).text (room size 0), (prints_render h1 hlt64).2 ⟨hheld.fits, rfl⟩,
      (prints_concat h1 hlt64).2 ⟨hheld.fits, h.piece_fits hheld, ?_⟩,
      (prints_single h1 hlt64).2 ⟨(behind_piece size _ [] d).2.2 fun _ => ⟨hspec, fun _ => ?_⟩, ?_⟩, h.numeral_part⟩
    · rw [hs, output_of_reached hreached h.room.2, h.text_eq]
    · show 0 + ((d.fieldBehind [] (ap ds.length).word).text (room size 0)).length < size ∧
        0 + ((d.fieldBehind [] (ap ds.length).word).text (room size 0)).length < 2 ^ 31
      omega
    · rw [output_of_reached (by omega) h.room.1]
      rfl

/-- Directives that are undisturbed, one after the other. -/
theorem held_of_undisturbed
    (hall : ∀ pre d post, ds = pre ++ d :: post → Held size ap pre → Undisturbed size ap pre d) :
    ∀ pre post, ds = pre ++ post → Held size ap pre := by
  intro pre
  induction pre using List.reverseRecOn with
  | nil => exact fun _ _ => ⟨trivial, rfl⟩
  | append_singleton pre d ih =>
    intro post hds
    have hsplit : ds = pre ++ d :: post := by rw [hds, List.append_assoc, List.singleton_append]
    have hheld := ih _ hsplit
    exact (hall pre d post hsplit hheld).held hheld

/-- **Main theorem.** Integers are printed whole and on their own, exactly if no directive is disturbed by the ones in
front of it. -/
theorem whole_iff (h1 : 1 ≤ size) (hlt64 : size < 2 ^ 64) :
    Whole size ds ap str ↔ ∀ pre d post, ds = pre ++ d :: post → Undisturbed size ap pre d := by
  constructor
  · intro hwhole
    have hstage : ∀ pre d post, ds = pre ++ d :: post → Held size ap pre → Undisturbed size ap pre d :=
      fun pre d post hds hheld => (stage_iff h1 hlt64 hheld).1 (hwhole pre d post hds)
    intro pre d post hds
    exact hstage pre d post hds (held_of_undisturbed hstage pre _ hds)
  · intro hall pre d post hds
    have hheld := held_of_undisturbed (fun pre d post hds _ => hall pre d post hds) pre _ hds
    exact (stage_iff h1 hlt64 hheld).2 (hall pre d post hds)

/-- `"%2d"` -/
def narrow : Directive where
  flags := []
  width := [50]
  precision := none
  type := 100
  flags_mem := List.forall_mem_nil _
  width_mem := List.forall_mem_singleton.2 rfl
  width_head := by decide
  precision_mem := List.forall_mem_nil _
  type_mem := by decide

/-- `"%2d"` prints 45 for 12345. -/
theorem not_whole_narrow : ¬Whole 16 [narrow] (numbers 12345) fun _ => 0 := by
  intro hwhole
  obtain ⟨text, out, -, -, hout, hpart⟩ := hwhole [] narrow [] rfl
  have htext : Directive.output 16 0 (narrow.fieldBehind [] 12345) = [52, 53] := by decide +kernel
  have hnumeral : (narrow.numeral 12345).length = 5 := by decide +kernel
  obtain rfl := ((prints_single (by decide) (by decide)).1 hout).2.trans htext
  have hle := hpart.length_le
  rw [List.length_nil] at hle
  exact absurd (hnumeral.symm.trans_le hle) (by decide)

theorem undisturbed_narrow : Undisturbed 16 (numbers 45) [] narrow where
  digits := ⟨by decide, by decide, by decide +kernel⟩
  room := by decide
  fits := by decide +kernel
  agrees := ⟨rfl, by decide +kernel, rfl, fun _ => ⟨rfl, rfl⟩⟩

theorem whole_narrow : Whole 16 [narrow] (numbers 45) fun _ => 0 := by
  refine (whole_iff (by decide) (by decide)).2 fun pre d post hds => ?_
  cases pre with
  | nil =>
    obtain ⟨rfl, -⟩ := List.cons.inj hds
    exact undisturbed_narrow
  | cons e pre => simp at hds

end ChenixOS.Stdio
