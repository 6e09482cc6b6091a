import ChenixOS.Libc.VsnprintfProof

/-!
# What `vsnprintf` prints

**The main result**, `prints_iff`: a call prints what the pieces of its format write, one behind the other. It holds
without the conversion of strings, which may write over what is in front of them.
-/

namespace ChenixOS.Stdio

open Buffer Itoa Loop

/-- The call returns the length of a text, which it leaves in `str`. -/
def Prints (size : Nat) (format : List UInt8) (ap : Nat → Arg) (str : Nat → UInt8) (out : List UInt8) : Prop :=
  ∃ str', Vsnprintf size format ap str out.length str' ∧ ∀ i (h : i < out.length), str' i = out[i]

/-- The text of the pieces that are reached. -/
def printed (size : Nat) (ap : Nat → Arg) : List (Piece × Nat) → Progress → List UInt8
  | [], _ => []
  | p :: ps, g => if g.s < size - 1 then g.written size ap p ++ printed size ap ps (g.next size ap p) else []

/-- How far a call has come behind some pieces. -/
def Progress.after (size : Nat) (ap : Nat → Arg) (g : Progress) (ps : List (Piece × Nat)) : Progress :=
  ps.foldl (fun g p => g.next size ap p) g

variable {size : Nat} {format rest out : List UInt8} {ap : Nat → Arg} {st : State} {g : Progress}
  {str : Nat → UInt8} {p : Piece × Nat} {ps qs : List (Piece × Nat)}

theorem next_s (hp : ¬p.1.isString) : (g.next size ap p).s = g.s + (g.written size ap p).length := by
  obtain ⟨piece, n⟩ := p
  cases piece with
  | char c => rfl
  | percent => rfl
  | conv spec conv =>
    have htaken := @taken_eq (ap g.arg) (g.remain size) (g.flags.with spec.flags) spec.width conv hp
    have hlen : g.written size ap (.conv spec conv, n) =
        written (g.flags.with spec.flags) spec.width (ap g.arg) (g.remain size) conv := rfl
    rw [hlen]
    show (g.s + taken (g.flags.with spec.flags) spec.width (ap g.arg) (g.remain size) conv).toNat = _
    rw [htaken]
    exact Int.toNat_natCast (g.s + _)
  | cutOff spec => rfl
  | overrun => rfl

theorem Progress.after_concat : g.after size ap (ps ++ [p]) = (g.after size ap ps).next size ap p := List.foldl_concat ..

/-! ## Pieces one behind the other -/

theorem printed_of_full (hfull : ¬g.s < size - 1) : printed size ap ps g = [] := by
  cases ps with
  | nil => rfl
  | cons p ps => exact if_neg hfull

theorem fits_of_full (hfull : ¬g.s < size - 1) : Fits size ap ps g := by
  cases ps with
  | nil => trivial
  | cons p ps => exact fun hroom => absurd hroom hfull

section Append

variable (hps : ∀ p ∈ ps, ¬p.1.isString)

include hps

theorem le_after : g.s ≤ (g.after size ap ps).s := by
  induction ps generalizing g with
  | nil => exact Nat.le_refl _
  | cons p ps ih =>
    have hnext := @next_s size ap g p (hps p List.mem_cons_self)
    have hrest := @ih (g.next size ap p) fun p hp => hps p (List.mem_cons_of_mem _ hp)
    calc g.s ≤ (g.next size ap p).s := hnext ▸ Nat.le_add_right _ _
      _ ≤ (g.after size ap (p :: ps)).s := hrest

theorem printed_append :
    printed size ap (ps ++ qs) g = printed size ap ps g ++ printed size ap qs (g.after size ap ps) := by
  induction ps generalizing g with
  | nil => rfl
  | cons p ps ih =>
    by_cases hroom : g.s < size - 1
    · rw [List.cons_append, printed, printed, if_pos hroom, if_pos hroom, List.append_assoc,
        ih fun p hp => hps p (List.mem_cons_of_mem _ hp)]
      rfl
    · have hle := @le_after size ap g (p :: ps) hps
      rw [printed_of_full hroom, printed_of_full hroom, printed_of_full (by omega), List.append_nil]

theorem fits_append :
    Fits size ap (ps ++ qs) g ↔ Fits size ap ps g ∧ Fits size ap qs (g.after size ap ps) := by
  induction ps generalizing g with
  | nil => exact ⟨fun h => ⟨trivial, h⟩, And.right⟩
  | cons p ps ih =>
    by_cases hroom : g.s < size - 1
    · have hrest := @ih (g.next size ap p) fun p hp => hps p (List.mem_cons_of_mem _ hp)
      constructor
      · intro h
        obtain ⟨hp, hall⟩ := h hroom
        obtain ⟨hps', hqs⟩ := hrest.1 hall
        exact ⟨fun _ => ⟨hp, hps'⟩, hqs⟩
      · rintro ⟨h, hqs⟩ -
        obtain ⟨hp, hps'⟩ := h hroom
        exact ⟨hp, hrest.2 ⟨hps', hqs⟩⟩
    · have hle := @le_after size ap g (p :: ps) hps
      exact iff_of_true (fits_of_full hroom) ⟨fits_of_full hroom, fits_of_full (by omega)⟩

end Append

/-! ## Calls -/

/-- **The loop is left** with the text of the pieces behind what was there. -/
theorem returns_printed (h0 : 0 ∉ format) (hlt64 : size < 2 ^ 64) (hst : Stands size format st g rest)
    (hps : ∀ p ∈ pieces rest, ¬p.1.isString) (hfits : Fits size ap (pieces rest) g) :
    Returns (loopRound size format ap) st ((g.s + (printed size ap (pieces rest) g).length : Nat),
      Function.update (put st.str g.s (printed size ap (pieces rest) g))
        (g.s + (printed size ap (pieces rest) g).length) 0) := by
  induction rest using pieces.induct generalizing st g with
  | case1 =>
    rw [pieces, printed, put_nil]
    exact returns_end hst (Or.inl rfl)
  | case2 c fmt hle ih =>
    rw [pieces] at hps hfits ⊢
    by_cases hroom : g.s < size - 1
    · obtain ⟨hpiece, hrest⟩ := hfits hroom
      obtain ⟨st', hst', hstr, hreturns⟩ := (piece_step ap h0 hroom hlt64 hst).1 hpiece
      have hplain := hps _ List.mem_cons_self
      have hret := ih hst' (fun p hp => hps p (List.mem_cons_of_mem _ hp)) hrest
      rw [hreturns, printed, if_pos hroom]
      rw [hstr hplain, next_s hplain, put_append] at hret
      rw [List.length_append, ← Nat.add_assoc]
      exact hret
    · rw [printed_of_full hroom, put_nil]
      exact returns_end hst (Or.inr hroom)

/-- **Main theorem.** A call prints the text of its pieces, if they fit. -/
theorem prints_iff (h1 : 1 ≤ size) (hlt64 : size < 2 ^ 64) (h0 : 0 ∉ format)
    (hps : ∀ p ∈ pieces format, ¬p.1.isString) :
    Prints size format ap str out ↔
      Fits size ap (pieces format) Progress.start ∧ out = printed size ap (pieces format) Progress.start := by
  have hst := @stands_start size format str h1
  have hprinted := @returns_printed size format format ap _ _ h0 hlt64 hst hps
  generalize printed size ap (pieces format) Progress.start = text at hprinted ⊢
  have hstart : Progress.start.s = 0 := rfl
  have hput : ∀ i (h : i < text.length), Function.update (put str 0 text) (0 + text.length) 0 i = text[i] := by
    intro i hi
    have hmem := @put_of_mem _ 0 i str text hi
    rw [Nat.zero_add] at hmem
    rw [Function.update_of_ne (by omega), hmem]
  rw [hstart, Nat.zero_add] at hprinted
  rw [Nat.zero_add] at hput
  constructor
  · rintro ⟨str', hret, hout⟩
    have hfits := (returns_iff_fits h0 hlt64 hst).1 ⟨_, hret⟩
    obtain ⟨hlen, hstr⟩ := Prod.ext_iff.1 (Returns.unique hret (hprinted hfits))
    have hlen' : out.length = text.length := Int.ofNat_inj.1 hlen
    refine ⟨hfits, List.ext_getElem hlen' fun i hi hi' => ?_⟩
    rw [← hout i hi, ← hput i hi']
    exact congrFun hstr i
  · rintro ⟨hfits, rfl⟩
    exact ⟨_, hprinted hfits, hput⟩

end ChenixOS.Stdio
