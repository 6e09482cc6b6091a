import ChenixOS.Libc.Pieces

/-!
# Formats of conversions of integers

A directive is a conversion of an integer as it is written in a format. **The pieces of directives** that stand one
behind the other are their conversions (`pieces_render`).
-/

namespace ChenixOS.Stdio

open Itoa

/-! ## Directives -/

/-- A conversion of an integer as it is written in a format. -/
structure Directive where
  flags : List UInt8
  width : List UInt8
  precision : Option (List UInt8)
  type : UInt8
  flags_mem : ∀ c ∈ flags, isFlag c = true
  width_mem : ∀ c ∈ width, isDigit c = true
  /-- A zero in front is a flag. -/
  width_head : width.head? ≠ some 48
  precision_mem : ∀ c ∈ precision.getD [], isDigit c = true
  /-- One of `diuxXp`. -/
  type_mem : type ∈ [100, 105, 117, 120, 88, 112]

namespace Directive

variable (d : Directive)

def spec : Spec := ⟨d.flags, d.width, d.precision.getD []⟩

def precisionText : List UInt8 := match d.precision with
  | none => []
  | some ds => 46 :: ds

def text : List UInt8 := 37 :: (d.flags ++ (d.width ++ (d.precisionText ++ [d.type])))

def conv : Conversion := conversion d.type

def piece : Piece × Nat := (.conv d.spec d.conv, d.text.length)

end Directive

def render (ds : List Directive) : List UInt8 := ds.flatMap Directive.text

variable {p : UInt8 → Bool} {s rest : List UInt8} {d : Directive} {ds : List Directive}

theorem takeWhile_of_ends (hends : Ends p rest) : rest.takeWhile p = [] ∧ rest.dropWhile p = rest := by
  cases rest with
  | nil => exact ⟨rfl, rfl⟩
  | cons c rest =>
    have hc := hends c rfl
    exact ⟨List.takeWhile_cons_of_neg (by simp [hc]), List.dropWhile_cons_of_neg (by simp [hc])⟩

/-- What is taken, and what is left, where the characters of a kind end. -/
theorem takeWhile_append (hs : ∀ c ∈ s, p c = true) (hends : Ends p rest) :
    (s ++ rest).takeWhile p = s ∧ (s ++ rest).dropWhile p = rest := by
  rw [List.takeWhile_append_of_pos hs, List.dropWhile_append_of_pos hs, (takeWhile_of_ends hends).1,
    (takeWhile_of_ends hends).2]
  exact ⟨List.append_nil s, rfl⟩

/-- The character of a conversion is neither a flag nor a digit nor a dot. -/
theorem type_facts : isFlag d.type = false ∧ isDigit d.type = false ∧ d.type ≠ 46 ∧ d.type ≠ 104 ∧ d.type ≠ 0 := by
  have hmem := d.type_mem
  simp only [List.mem_cons, List.not_mem_nil, or_false] at hmem
  rcases hmem with h | h | h | h | h | h <;> rw [h] <;> decide

theorem ends_precision :
    Ends isDigit (d.precisionText ++ (d.type :: rest)) ∧ Ends isFlag (d.precisionText ++ (d.type :: rest)) := by
  obtain ⟨hflag, hdigit, -⟩ := @type_facts d
  unfold Directive.precisionText
  cases d.precision with
  | none => exact ⟨fun c hc => Option.some.inj hc ▸ hdigit, fun c hc => Option.some.inj hc ▸ hflag⟩
  | some ds =>
    have hdot : isDigit 46 = false ∧ isFlag 46 = false := by decide
    exact ⟨fun c hc => Option.some.inj hc ▸ hdot.1, fun c hc => Option.some.inj hc ▸ hdot.2⟩

theorem ends_width : Ends isFlag (d.width ++ (d.precisionText ++ (d.type :: rest))) := by
  intro c hc
  cases hwidth : d.width with
  | nil =>
    rw [hwidth, List.nil_append] at hc
    exact ends_precision.2 c hc
  | cons x width =>
    rw [hwidth, List.cons_append] at hc
    obtain rfl : x = c := Option.some.inj hc
    have hdigit := d.width_mem x (hwidth ▸ List.mem_cons_self)
    have hhead := d.width_head
    rw [hwidth, List.head?_cons] at hhead
    have h48 : x ≠ 48 := fun h => hhead (congrArg some h)
    simp only [isDigit, decide_eq_true_eq] at hdigit
    simp only [isFlag, decide_eq_false_iff_not]
    rintro (rfl | rfl | rfl | rfl | rfl)
    · exact absurd hdigit (by decide)
    · exact absurd hdigit (by decide)
    · exact absurd hdigit (by decide)
    · exact absurd hdigit (by decide)
    · exact h48 rfl

/-- **A directive is read** as it was written. -/
theorem readSpec_text :
    readSpec (d.flags ++ (d.width ++ (d.precisionText ++ (d.type :: rest)))) = (d.spec, d.type :: rest) := by
  obtain ⟨hflags, hbehind⟩ := @takeWhile_append isFlag d.flags _ d.flags_mem (@ends_width rest d)
  obtain ⟨hwidth, hbehind'⟩ := @takeWhile_append isDigit d.width _ d.width_mem (@ends_precision rest d).1
  have hprecision : readPrecision (d.precisionText ++ (d.type :: rest)) = (d.precision.getD [], d.type :: rest) := by
    obtain ⟨-, hdigit, hdot, -⟩ := @type_facts d
    have hmem := d.precision_mem
    unfold Directive.precisionText
    cases hprec : d.precision with
    | none => exact if_neg hdot
    | some ds =>
      rw [hprec] at hmem
      have htake := @takeWhile_append isDigit ds (d.type :: rest) hmem fun c hc => Option.some.inj hc ▸ hdigit
      show readPrecision (46 :: (ds ++ d.type :: rest)) = _
      rw [readPrecision, if_pos rfl, htake.1, htake.2]
      rfl
  unfold readSpec
  rw [hflags, hbehind, hwidth, hbehind']
  dsimp only
  rw [hprecision]
  rfl

theorem head_text : (d.flags ++ (d.width ++ (d.precisionText ++ (d.type :: rest)))).head? ≠ some 37 := by
  intro hhead
  have hpercent : isFlag 37 = false ∧ isDigit 37 = false := by decide
  cases hflags : d.flags with
  | cons c flags =>
    rw [hflags] at hhead
    obtain rfl : c = 37 := Option.some.inj hhead
    have hflag := d.flags_mem 37 (hflags ▸ List.mem_cons_self)
    rw [hpercent.1] at hflag
    cases hflag
  | nil =>
    rw [hflags, List.nil_append] at hhead
    cases hwidth : d.width with
    | cons c width =>
      rw [hwidth] at hhead
      obtain rfl : c = 37 := Option.some.inj hhead
      have hdigit := d.width_mem 37 (hwidth ▸ List.mem_cons_self)
      rw [hpercent.2] at hdigit
      cases hdigit
    | nil =>
      rw [hwidth, List.nil_append] at hhead
      have hmem := d.type_mem
      unfold Directive.precisionText at hhead
      cases hprec : d.precision with
      | none =>
        rw [hprec] at hhead
        rw [Option.some.inj hhead] at hmem
        exact absurd hmem (by decide)
      | some ds =>
        rw [hprec] at hhead
        exact absurd (Option.some.inj hhead) (by decide)

theorem readPiece_text :
    readPiece 37 (d.flags ++ (d.width ++ (d.precisionText ++ (d.type :: rest)))) = (.conv d.spec d.conv, rest) := by
  obtain ⟨-, -, -, htype, -⟩ := @type_facts d
  unfold readPiece
  rw [if_neg (by decide), if_neg head_text, readSpec_text]
  cases rest with
  | nil => exact if_neg htype
  | cons c rest => exact if_pos htype

theorem text_append : d.text ++ rest = 37 :: (d.flags ++ (d.width ++ (d.precisionText ++ (d.type :: rest)))) := by
  simp [Directive.text]

/-- **The pieces of directives.** -/
theorem pieces_render : pieces (render ds) = ds.map Directive.piece := by
  induction ds with
  | nil => rw [render, List.flatMap_nil, pieces, List.map_nil]
  | cons d ds ih =>
    have htext : render (d :: ds) = d.text ++ render ds := rfl
    have hlen := congrArg List.length (@text_append (render ds) d)
    rw [List.length_append, List.length_cons] at hlen
    rw [htext, text_append, pieces, readPiece_text, ih, ← hlen, Nat.add_sub_cancel]
    rfl

theorem zero_not_mem_text : 0 ∉ d.text := by
  have hflag : ∀ c : UInt8, isFlag c = true → c ≠ 0 := by
    rintro c hc rfl
    exact absurd hc (by decide)
  have hdigit : ∀ c : UInt8, isDigit c = true → c ≠ 0 := by
    rintro c hc rfl
    exact absurd hc (by decide)
  intro hmem
  have hprec : 0 ∉ d.precisionText := by
    unfold Directive.precisionText
    have hds := d.precision_mem
    cases hprec : d.precision with
    | none => exact List.not_mem_nil
    | some ds =>
      rw [hprec] at hds
      rintro (_ | ⟨_, hzero⟩)
      exact hdigit 0 (hds 0 hzero) rfl
  simp only [Directive.text, List.mem_cons, List.mem_append, List.not_mem_nil, or_false] at hmem
  rcases hmem with hmem | hmem | hmem | hmem | hmem
  · exact absurd hmem (by decide)
  · exact hflag 0 (d.flags_mem 0 hmem) rfl
  · exact hdigit 0 (d.width_mem 0 hmem) rfl
  · exact hprec hmem
  · exact (@type_facts d).2.2.2.2 hmem.symm

theorem zero_not_mem_render : 0 ∉ render ds := by
  rw [render, List.mem_flatMap]
  rintro ⟨d, -, hmem⟩
  exact zero_not_mem_text hmem

end ChenixOS.Stdio
