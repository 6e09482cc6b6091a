import ChenixOS.Libc.Fields

/-!
# Fields of one number

A flag may change the sign of a number and how it is aligned, but not its digits. **The main result**, `text_eq_iff`:
two fields of one number have the same text, with all of its digits, exactly if their signs agree, no width is less than
the number, and they are aligned alike where there is filler.
-/

namespace ChenixOS.Stdio

open Itoa

/-- Two fields of one number. -/
structure Alike (F F' : Field) : Prop where
  digits : F'.digits = F.digits
  ne_nil : F.digits ≠ []
  clean : ∀ x ∈ F.digits, x ≠ 32 ∧ x ≠ 43 ∧ x ≠ 45
  sign : F.sign = F'.sign ∨ F.sign = [43] ∧ F'.sign = [] ∨ F.sign = [] ∧ F'.sign = [43]
  signs : F.sign = [] ∨ F.sign = [43] ∨ F.sign = [45]
  fillers : (F.filler = 32 ∨ F.filler = 48) ∧ (F'.filler = 32 ∨ F'.filler = 48)
  zero : F.width = 0 ↔ F'.width = 0
  /-- Where the sides differ, one of the fields has the flag for the left one, and no zeros. -/
  side : F.width = F'.width ∨ F.filler = 32 ∨ F'.filler = 32

/-- The sign of `F` is that of `F'`, its width in the room `r` is not less than the number, and as wide as that of `F'`
in the room `r'`, and what fills it up is the same, on the same side. -/
structure Field.Agrees (F F' : Field) (r r' : Int) : Prop where
  sign : F.sign = F'.sign
  whole : limit F.width r = 0 ∨ (F.sign ++ F.digits).length ≤ (limit F.width r).natAbs
  width : (limit F.width r).natAbs = (limit F'.width r').natAbs
  filler : (F.sign ++ F.digits).length < (limit F.width r).natAbs →
    limit F.width r = limit F'.width r' ∧ F.filler = F'.filler

variable {sign sign' digits : List UInt8} {c c' : UInt8} {n m : Nat} {w w' r r' : Int} {F F' : Field}

/-! ## Texts -/

theorem head_ne {x : UInt8} {s t : List UInt8} (hne : digits ≠ []) (hx : x ∉ digits) : x :: s ≠ digits ++ t := by
  cases digits with
  | nil => exact absurd rfl hne
  | cons d digits =>
    intro heq
    obtain rfl := (List.cons.inj heq).1
    exact hx List.mem_cons_self

/-- **A width that is less than a number** cuts digits. -/
theorem le_of_part (hsign : sign.length ≤ 1) (hclean : ∀ x ∈ sign, x ∉ digits)
    (hpart : digits <:+: alignedText sign digits c w) : w = 0 ∨ (sign ++ digits).length ≤ w.natAbs := by
  by_contra hnot
  obtain ⟨hzero, hlt⟩ := not_or.1 hnot
  have hlt' := Nat.not_le.1 hlt
  have hlen := @length_alignedText sign digits w c hsign
  have hle := hpart.length_le
  rw [if_neg hzero] at hlen
  rw [List.length_append] at hlt'
  have heq := hpart.eq_of_length_le (by omega)
  rw [alignedText, if_neg hzero, if_pos (Nat.not_le.1 hlt)] at heq
  cases sign with
  | nil =>
    rw [List.length_nil] at hlt'
    omega
  | cons x sign =>
    have hx := hclean x List.mem_cons_self
    rw [heq] at hx
    exact hx (List.mem_append_left _ List.mem_cons_self)

theorem alignedText_zero : alignedText sign digits c 0 = sign ++ digits := if_pos rfl

theorem alignedText_left (hw : w < 0) (hle : (sign ++ digits).length ≤ w.natAbs) :
    alignedText sign digits c w =
      sign ++ digits ++ List.replicate (w.natAbs - (sign ++ digits).length) c := by
  rw [alignedText, if_neg (Int.ne_of_lt hw), if_neg (Nat.not_lt.2 hle), if_pos hw]

theorem alignedText_right (hw : 0 < w) (hle : (sign ++ digits).length ≤ w.natAbs) :
    alignedText sign digits c w =
      List.replicate (w.natAbs - (sign ++ digits).length) c ++ (sign ++ digits) := by
  rw [alignedText, if_neg (Int.ne_of_gt hw), if_neg (Nat.not_lt.2 hle), if_neg (Int.not_lt.2 hw.le)]

/-- A number that is as wide as its field. -/
theorem alignedText_of_eq (hw : w.natAbs = (sign ++ digits).length) : alignedText sign digits c w = sign ++ digits := by
  rcases Int.lt_trichotomy w 0 with hneg | rfl | hpos
  · rw [alignedText_left hneg hw.ge, hw, Nat.sub_self, List.replicate_zero, List.append_nil]
  · exact alignedText_zero
  · rw [alignedText_right hpos hw.ge, hw, Nat.sub_self, List.replicate_zero, List.nil_append]

/-- All of the number is in a text that is not cut. -/
theorem infix_alignedText (hle : w = 0 ∨ (sign ++ digits).length ≤ w.natAbs) :
    sign ++ digits <:+: alignedText sign digits c w := by
  rcases Int.lt_trichotomy w 0 with hneg | rfl | hpos
  · rw [alignedText_left hneg (hle.resolve_left hneg.ne)]
    exact (List.prefix_append _ _).isInfix
  · rw [alignedText_zero]
  · rw [alignedText_right hpos (hle.resolve_left hpos.ne')]
    exact (List.suffix_append _ _).isInfix

section Texts

variable (hne : digits ≠ []) (hclean : ∀ x ∈ digits, x ≠ 32 ∧ x ≠ 43 ∧ x ≠ 45)
  (hsign : sign = sign' ∨ sign = [43] ∧ sign' = [] ∨ sign = [] ∧ sign' = [43])

theorem replicate_inj (h : List.replicate n c = List.replicate m c') : n = m ∧ (0 < n → c = c') := by
  have hlen := congrArg List.length h
  rw [List.length_replicate, List.length_replicate] at hlen
  refine ⟨hlen, fun hpos => ?_⟩
  obtain ⟨n, rfl⟩ := Nat.exists_eq_succ_of_ne_zero (Nat.pos_iff_ne_zero.1 hpos)
  rw [← hlen] at h
  exact (List.cons.inj h).1

include hsign in
/-- Both on the right. -/
theorem right_right (hc : c ≠ 43) (hc' : c' ≠ 43)
    (h : List.replicate n c ++ (sign ++ digits) = List.replicate m c' ++ (sign' ++ digits)) :
    sign = sign' ∧ (0 < n → c = c') := by
  rw [← List.append_assoc, ← List.append_assoc] at h
  have heq := List.append_cancel_right h
  have hplus : ∀ {k : Nat} {x : UInt8}, x ≠ 43 → ∀ s : List UInt8, s ++ [43] ≠ List.replicate k x ++ [] := by
    intro k x hx s hs
    have hmem : (43 : UInt8) ∈ List.replicate k x ++ [] := hs ▸ List.mem_append_right s List.mem_cons_self
    rw [List.append_nil] at hmem
    exact hx (List.eq_of_mem_replicate hmem).symm
  obtain rfl | ⟨rfl, rfl⟩ | ⟨rfl, rfl⟩ := hsign
  · exact ⟨rfl, (replicate_inj (List.append_cancel_right heq)).2⟩
  · exact absurd heq (hplus hc' _)
  · exact absurd heq.symm (hplus hc _)

include hne hclean hsign

/-- What begins with a sign does not begin with a digit. -/
theorem sign_eq {s t : List UInt8} (h : sign ++ digits ++ s = sign' ++ digits ++ t) : sign = sign' := by
  have hplus : (43 : UInt8) ∉ digits := fun hmem => (hclean 43 hmem).2.1 rfl
  obtain heq | ⟨rfl, rfl⟩ | ⟨rfl, rfl⟩ := hsign
  · exact heq
  · exact absurd h (head_ne hne hplus)
  · exact absurd h.symm (head_ne hne hplus)

/-- Both on the left. -/
theorem left_left (h : sign ++ digits ++ List.replicate n c = sign' ++ digits ++ List.replicate m c') :
    sign = sign' ∧ (0 < n → c = c') := by
  obtain rfl := sign_eq hne hclean hsign h
  exact ⟨rfl, (replicate_inj (List.append_cancel_left h)).2⟩

/-- On different sides. -/
theorem right_left (hsigns : sign = [] ∨ sign = [43] ∨ sign = [45]) (hc : c = 32 ∨ c' = 32) (hc43 : c ≠ 43)
    (h : List.replicate n c ++ (sign ++ digits) = sign' ++ digits ++ List.replicate m c') : sign = sign' ∧ n = 0 := by
  have hlen := congrArg List.length h
  simp only [List.length_append, List.length_replicate] at hlen
  by_cases h32 : c = 32
  · subst h32
    cases n with
    | zero =>
      have heq : sign ++ digits ++ [] = sign' ++ digits ++ List.replicate m c' := by
        rw [List.append_nil]
        exact h
      exact ⟨sign_eq hne hclean hsign heq, rfl⟩
    | succ n =>
      have hspace : (32 : UInt8) ∉ sign' ++ digits := by
        intro hmem
        rcases List.mem_append.1 hmem with hmem | hmem
        · obtain rfl | ⟨rfl, rfl⟩ | ⟨rfl, rfl⟩ := hsign
          · rcases hsigns with rfl | rfl | rfl <;> simp at hmem
          · cases hmem
          · simp at hmem
        · exact (hclean 32 hmem).1 rfl
      exact absurd h (head_ne (List.append_ne_nil_of_right_ne_nil _ hne) hspace)
  · obtain rfl := hc.resolve_left h32
    have hm : m = 0 := by
      by_contra hm
      obtain ⟨m, rfl⟩ := Nat.exists_eq_succ_of_ne_zero hm
      have hlast := congrArg List.getLast? h
      rw [← List.append_assoc, List.getLast?_append_of_ne_nil _ hne, List.replicate_succ', ← List.append_assoc,
        List.getLast?_concat] at hlast
      exact (hclean 32 (List.mem_of_getLast? hlast)).1 rfl
    subst hm
    rw [List.replicate_zero, List.append_nil, ← List.append_assoc] at h
    have heq := List.append_cancel_right h
    obtain rfl | ⟨rfl, rfl⟩ | ⟨rfl, rfl⟩ := hsign
    · exact ⟨rfl, by omega⟩
    · simp at heq
    · rw [List.append_nil] at heq
      have hmem : (43 : UInt8) ∈ List.replicate n c := heq ▸ List.mem_cons_self
      exact absurd (List.eq_of_mem_replicate hmem).symm hc43

end Texts

/-! ## Fields -/

theorem limit_sign : (limit w r = 0 ↔ w = 0) ∧ (0 < limit w r ↔ 0 < w) := by
  unfold limit
  dsimp only
  split_ifs <;> omega

theorem toChar_filler {filler filler' : Int} (hc : filler = 32 ∨ filler = 48) (hc' : filler' = 32 ∨ filler' = 48) :
    (toChar filler = toChar filler' ↔ filler = filler') ∧ toChar filler ≠ 43 ∧ (filler = 32 → toChar filler = 32) := by
  rcases hc with rfl | rfl <;> rcases hc' with rfl | rfl <;> decide

namespace Alike

variable (h : Alike F F')

include h

theorem length_sign : F.sign.length ≤ 1 ∧ F'.sign.length ≤ 1 := by
  have hlen : F.sign.length ≤ 1 := by
    rcases h.signs with heq | heq | heq <;> rw [heq] <;> decide
  rcases h.sign with heq | ⟨-, heq⟩ | ⟨-, heq⟩
  · exact ⟨hlen, heq ▸ hlen⟩
  · exact ⟨hlen, by rw [heq]; decide⟩
  · exact ⟨hlen, by rw [heq]; decide⟩

theorem sign_clean : ∀ x ∈ F'.sign, x ∉ F'.digits := by
  intro x hx hmem
  rw [h.digits] at hmem
  obtain ⟨-, h43, h45⟩ := h.clean x hmem
  have hx' : x = 43 ∨ x = 45 := by
    rcases h.sign with heq | ⟨-, heq⟩ | ⟨-, heq⟩
    · rw [← heq] at hx
      rcases h.signs with heq | heq | heq <;> rw [heq] at hx <;> simp at hx <;> simp [hx]
    · rw [heq] at hx
      cases hx
    · rw [heq] at hx
      exact Or.inl (List.mem_singleton.1 hx)
  exact hx'.elim h43 h45

theorem sign_symm : F'.sign = F.sign ∨ F'.sign = [43] ∧ F.sign = [] ∨ F'.sign = [] ∧ F.sign = [43] := by
  rcases h.sign with heq | ⟨heq, heq'⟩ | ⟨heq, heq'⟩
  · exact Or.inl heq.symm
  · exact Or.inr (Or.inr ⟨heq', heq⟩)
  · exact Or.inr (Or.inl ⟨heq', heq⟩)

theorem signs' : F'.sign = [] ∨ F'.sign = [43] ∨ F'.sign = [45] := by
  rcases h.sign with heq | ⟨-, heq⟩ | ⟨-, heq⟩
  · exact heq ▸ h.signs
  · exact Or.inl heq
  · exact Or.inr (Or.inl heq)

/-- A `'+'` more than the other field has does not cut a digit. -/
theorem le_of_text_eq (hw' : w'.natAbs = w.natAbs) (hle' : (F'.sign ++ F.digits).length ≤ w.natAbs)
    (heq : alignedText F.sign F.digits c w = alignedText F'.sign F.digits c' w') :
    (F.sign ++ F.digits).length ≤ w.natAbs := by
  by_contra hcut
  have hplus : (43 : UInt8) ∉ F.digits := fun hmem => (h.clean 43 hmem).2.1 rfl
  obtain hsame | ⟨hsign, hsign'⟩ | ⟨hsign, hsign'⟩ := h.sign
  · exact hcut (hsame ▸ hle')
  · rw [hsign, List.length_append, List.length_singleton] at hcut
    rw [hsign', List.nil_append] at hle'
    rw [hsign, hsign'] at heq
    have hpos := List.length_pos_iff.2 h.ne_nil
    have hw : w ≠ 0 := fun hzero => by
      rw [hzero] at hle'
      exact absurd hle' (Nat.not_le.2 hpos)
    have hexact : w'.natAbs = ([] ++ F.digits).length := by
      rw [List.nil_append]
      omega
    rw [alignedText_of_eq hexact, alignedText, if_neg hw,
      if_pos (by rw [List.length_append, List.length_singleton]; omega)] at heq
    exact head_ne h.ne_nil hplus (heq.trans (List.append_nil _).symm)
  · rw [hsign, List.nil_append] at hcut
    rw [hsign', List.length_append] at hle'
    omega

/-- **Two fields of a width that is not 0** with the same text. -/
theorem agree (hw : w ≠ 0) (hw' : w'.natAbs = w.natAbs) (hle' : (F'.sign ++ F.digits).length ≤ w.natAbs)
    (hside : (0 < w ↔ 0 < w') ∨ toChar F.filler = 32 ∨ toChar F'.filler = 32)
    (heq : alignedText F.sign F.digits (toChar F.filler) w = alignedText F'.sign F.digits (toChar F'.filler) w') :
    F.sign = F'.sign ∧ (F.sign ++ F.digits).length ≤ w.natAbs ∧
      ((F.sign ++ F.digits).length < w.natAbs → w = w' ∧ F.filler = F'.filler) := by
  obtain ⟨hc, hc43, -⟩ := toChar_filler h.fillers.1 h.fillers.2
  have hc43' := (toChar_filler h.fillers.2 h.fillers.1).2.1
  have hclean := h.clean
  have hne := h.ne_nil
  have hsign := h.sign
  have hle := h.le_of_text_eq hw' hle' heq
  have hzero : w.natAbs ≠ 0 := fun hzero => hw (Int.natAbs_eq_zero.1 hzero)
  by_cases hpos : 0 < w
  · rw [alignedText_right hpos hle] at heq
    by_cases hpos' : 0 < w'
    · rw [alignedText_right hpos' (hw'.symm ▸ hle')] at heq
      obtain ⟨hsign', hfiller⟩ := right_right hsign hc43 hc43' heq
      exact ⟨hsign', hle, fun hlt => ⟨by omega, hc.1 (hfiller (Nat.sub_pos_of_lt hlt))⟩⟩
    · rw [alignedText_left (by omega) (hw'.symm ▸ hle')] at heq
      have hc32 := hside.resolve_left fun hiff => hpos' (hiff.1 hpos)
      obtain ⟨hsign', hnone⟩ := right_left hne hclean hsign h.signs hc32 hc43 heq
      exact ⟨hsign', hle, fun hlt => by omega⟩
  · rw [alignedText_left (by omega) hle] at heq
    by_cases hpos' : 0 < w'
    · rw [alignedText_right hpos' (hw'.symm ▸ hle')] at heq
      have hc32 := hside.resolve_left fun hiff => hpos (hiff.2 hpos')
      obtain ⟨hsign', hnone⟩ := right_left hne hclean h.sign_symm h.signs' hc32.symm hc43' heq.symm
      rw [hsign'] at hnone
      exact ⟨hsign'.symm, hle, fun hlt => by omega⟩
    · rw [alignedText_left (by omega) (hw'.symm ▸ hle')] at heq
      obtain ⟨hsign', hfiller⟩ := left_left hne hclean hsign heq
      exact ⟨hsign', hle, fun hlt => ⟨by omega, hc.1 (hfiller (Nat.sub_pos_of_lt hlt))⟩⟩

/-- **Two fields of one number** have the same text with all of its digits. -/
theorem text_eq_iff {numeral : List UInt8} (hdigits : F.digits <:+: numeral)
    (hnumeral : numeral <:+: F'.sign ++ F.digits) :
    F.text r = F'.text r' ∧ numeral <:+: F'.text r' ↔ F.Agrees F' r r' := by
  have hagrees : F.Agrees F' r r' ↔ F.sign = F'.sign ∧
      (limit F.width r = 0 ∨ (F.sign ++ F.digits).length ≤ (limit F.width r).natAbs) ∧
      (limit F.width r).natAbs = (limit F'.width r').natAbs ∧
      ((F.sign ++ F.digits).length < (limit F.width r).natAbs →
        limit F.width r = limit F'.width r' ∧ F.filler = F'.filler) :=
    ⟨fun ⟨hsign, hle, hwidth, hpad⟩ => ⟨hsign, hle, hwidth, hpad⟩,
      fun ⟨hsign, hle, hwidth, hpad⟩ => ⟨hsign, hle, hwidth, hpad⟩⟩
  rw [hagrees]
  have hzero : limit F.width r = 0 ↔ limit F'.width r' = 0 := limit_sign.1.trans (h.zero.trans limit_sign.1.symm)
  have hside : (0 < limit F.width r ↔ 0 < limit F'.width r') ∨ toChar F.filler = 32 ∨ toChar F'.filler = 32 := by
    rcases h.side with hwidth | hfiller | hfiller
    · exact Or.inl (limit_sign.2.trans (hwidth ▸ limit_sign.2.symm))
    · exact Or.inr (Or.inl (by rw [hfiller]; decide))
    · exact Or.inr (Or.inr (by rw [hfiller]; decide))
  have hlen := @length_alignedText F.sign F.digits (limit F.width r) (toChar F.filler) h.length_sign.1
  have hlen' := @length_alignedText F'.sign F.digits (limit F'.width r') (toChar F'.filler) h.length_sign.2
  have hclean := h.sign_clean
  unfold Field.text
  rw [h.digits] at hclean ⊢
  generalize limit F.width r = w at *
  generalize limit F'.width r' = w' at *
  constructor
  · rintro ⟨heq, hpart⟩
    have hle' := le_of_part h.length_sign.2 hclean (hdigits.trans hpart)
    have hlength := congrArg List.length heq
    rw [hlen, hlen'] at hlength
    by_cases hw : w = 0
    · have hw' := hzero.1 hw
      rw [hw, hw', alignedText_zero, alignedText_zero] at heq
      exact ⟨List.append_cancel_right heq, Or.inl hw, by rw [hw, hw'], fun hlt => by rw [hw] at hlt; cases hlt⟩
    · have hw' := mt hzero.2 hw
      rw [if_neg hw, if_neg hw'] at hlength
      obtain ⟨hsign, hle, hpad⟩ := h.agree hw hlength.symm (hlength ▸ hle'.resolve_left hw') hside heq
      exact ⟨hsign, Or.inr hle, hlength, hpad⟩
  · rintro ⟨hsign, hle, hwidth, hpad⟩
    have hle' : w' = 0 ∨ (F'.sign ++ F.digits).length ≤ w'.natAbs := by
      rw [← hzero, ← hwidth, ← hsign]
      exact hle
    refine ⟨?_, hnumeral.trans (infix_alignedText hle')⟩
    rcases hle with hw | hle
    · rw [hw, hzero.1 hw, alignedText_zero, alignedText_zero, hsign]
    · obtain hlt | heq := Nat.lt_or_eq_of_le hle
      · obtain ⟨rfl, hfiller⟩ := hpad hlt
        rw [hsign, hfiller]
      · rw [alignedText_of_eq heq.symm, alignedText_of_eq (by rw [← hwidth, ← hsign, heq]), hsign]

end Alike

end ChenixOS.Stdio
