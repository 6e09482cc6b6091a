import ChenixOS.Bootloader.PrepareElf
import Mathlib.Data.Nat.Find

/-!
# The relocated image

A well-formed image has disjoint segments, then one dynamic section; the section and the table of relocations are
in the segments, and the words that are relocated touch neither each other nor those two.

**Theorem (`prepareELF_right_iff`).** `PrepareELF` returns, true if all relocations are relative and else false, and
where it returns true each byte of a segment is as in the file, but for the relocated words, which are the addend
plus the address of the image, exactly if the table has fewer than 2 ^ 32 entries or one of the first 2 ^ 32 is not
relative. The loop counts in 32 bits, so that it never gets to the end of a longer table.

The invariant of the loop over the segments is that the ones it has passed are loaded; that of the loop over the
relocations, that the first ones are done and nothing else has changed, so that the table can still be read.
-/

namespace ChenixOS.ELF.Boot

open Words

variable {file src : Nat → UInt8} {m m' : Memory} {seg dynamic : ElfSegmentHeader} {segs : List ElfSegmentHeader}
  {dest lo hi processImg fuel i j k n x : Nat}

/-! ## Well-formed images -/

/-- The segments that are loaded. -/
def loads (file : Nat → UInt8) : List ElfSegmentHeader := (segments file).filter fun seg => seg.type = PT_LOAD

/-- The byte of the image at `x`, as it is in the file. -/
def loaded (file : Nat → UInt8) (x : Nat) : UInt8 :=
  match (loads file).find? fun seg => seg.Covers x with
  | some seg => seg.content file x
  | none => 0

/-- `n` bytes from `x` on are in segments. -/
def Inside (file : Nat → UInt8) (x n : Nat) : Prop := ∀ i < n, ∃ seg ∈ loads file, seg.Covers (x + i)

/-- The first `n` entries of the dynamic section. -/
def dynamicInfo (file : Nat → UInt8) (dynamic : ElfSegmentHeader) (n : Nat) : Dynamic :=
  (List.range n).foldl (fun info k => info.read (word (loaded file) 8 (dynamic.virtualAddress + 16 * k))
    (word (loaded file) 8 (dynamic.virtualAddress + 16 * k + 8))) Dynamic.start

/-- The number of relocations. -/
def relaCount (file : Nat → UInt8) (dynamic : ElfSegmentHeader) (n : Nat) : Nat :=
  (dynamicInfo file dynamic n).relaSize / relaSizeof

/-- A relocation, as it is in the file. -/
def relocation (file : Nat → UInt8) (dynamic : ElfSegmentHeader) (n i : Nat) : ElfRelA :=
  rela (loaded file) (dynamicInfo file dynamic n).relaAddr i

/-- The `n` bytes from `x` on and the `k` bytes from `y` on have none in common. -/
def Apart (x n y k : Nat) : Prop := x + n ≤ y ∨ y + k ≤ x

/-- **A well-formed image** with the dynamic section `dynamic` of `n` entries. -/
structure WellFormed (file : Nat → UInt8) (dynamic : ElfSegmentHeader) (n : Nat) : Prop where
  disjoint : (loads file).Pairwise fun s t => ∀ x, s.Covers x → ¬ t.Covers x
  order : ∃ pre post, segments file = pre ++ dynamic :: post ∧ (∀ s ∈ pre, s.type ≠ PT_DYNAMIC) ∧
    ∀ s ∈ post, s.type ≠ PT_LOAD ∧ s.type ≠ PT_DYNAMIC
  type : dynamic.type = PT_DYNAMIC
  tags : ∀ k < n, word (loaded file) 8 (dynamic.virtualAddress + 16 * k) ≠ DT_NULL
  last : word (loaded file) 8 (dynamic.virtualAddress + 16 * n) = DT_NULL
  sectionInside : Inside file dynamic.virtualAddress (16 * n + 16)
  entrySize : (dynamicInfo file dynamic n).relaEntrySize = relaSizeof
  tableInside : Inside file (dynamicInfo file dynamic n).relaAddr (dynamicInfo file dynamic n).relaSize
  slots : ∀ i < relaCount file dynamic n, ∀ j < i,
    Apart (relocation file dynamic n i).address 8 (relocation file dynamic n j).address 8
  slotSection : ∀ i < relaCount file dynamic n,
    Apart (relocation file dynamic n i).address 8 dynamic.virtualAddress (16 * n + 16)
  slotTable : ∀ i < relaCount file dynamic n, Apart (relocation file dynamic n i).address 8
    (dynamicInfo file dynamic n).relaAddr (dynamicInfo file dynamic n).relaSize

/-- At `processImg` there is room for the image below the end of the address space. -/
structure Fits (file : Nat → UInt8) (dynamic : ElfSegmentHeader) (n processImg : Nat) : Prop where
  load : ∀ seg ∈ loads file, processImg + seg.virtualAddress + seg.extent < wordSize
  slot : ∀ i < relaCount file dynamic n, processImg + (relocation file dynamic n i).address + 8 < wordSize

/-- The size of the image grows with each segment. -/
theorem le_foldl_size (size : Nat) : size ≤ segs.foldl (fun size seg =>
    if seg.type = PT_LOAD then max size ((seg.virtualAddress + seg.virtualSize) % wordSize) else size) size := by
  induction segs generalizing size with
  | nil => exact le_rfl
  | cons seg segs ih =>
    refine le_trans ?_ (ih _)
    dsimp only
    by_cases hload : seg.type = PT_LOAD
    · rw [if_pos hload]
      exact Nat.le_max_left ..
    · rw [if_neg hload]

/-- The segments end below `GetELFSize`. -/
theorem le_getELFSize (hseg : seg ∈ loads file) (hend : seg.virtualAddress + seg.virtualSize < wordSize) :
    seg.virtualAddress + seg.virtualSize ≤ getELFSize file := by
  have hmem := List.mem_filter.1 hseg
  have hload : seg.type = PT_LOAD := by simpa using hmem.2
  obtain ⟨pre, post, hsegments⟩ := List.append_of_mem hmem.1
  rw [getELFSize, hsegments, List.foldl_append, List.foldl_cons, if_pos hload, Nat.mod_eq_of_lt hend]
  exact le_trans (Nat.le_max_right ..) (le_foldl_size _)

/-! ## What is asked of it -/

/-- `x` is in a word that is relocated. -/
def InSlot (file : Nat → UInt8) (dynamic : ElfSegmentHeader) (n x : Nat) : Prop :=
  ∃ i < relaCount file dynamic n,
    (relocation file dynamic n i).address ≤ x ∧ x < (relocation file dynamic n i).address + 8

/-- Every relocation is relative. -/
def AllRelative (file : Nat → UInt8) (dynamic : ElfSegmentHeader) (n : Nat) : Prop :=
  ∀ i < relaCount file dynamic n, (relocation file dynamic n i).relType = R_RELATIVE

/-- **The image is relocated** to `processImg`. -/
structure Relocated (file : Nat → UInt8) (dynamic : ElfSegmentHeader) (n processImg : Nat) (m : Memory) : Prop where
  bytes : ∀ seg ∈ loads file, ∀ x, seg.Covers x → ¬ InSlot file dynamic n x →
    m (processImg + x) = seg.content file x
  words : ∀ i < relaCount file dynamic n, word m 8 (processImg + (relocation file dynamic n i).address) =
    ((relocation file dynamic n i).addend + processImg) % wordSize

/-- What `PrepareELF` returns, the entry point if it is true, and the memory that it leaves: true exactly if all
relocations are relative, and then the image is relocated. -/
structure Prepared (file : Nat → UInt8) (dynamic : ElfSegmentHeader) (n processImg : Nat) (entry : Option Nat)
    (m : Memory) : Prop where
  true_iff : entry.isSome ↔ AllRelative file dynamic n
  relocated : entry.isSome → Relocated file dynamic n processImg m

/-- Two copies of the image differ in the relocated words, by the difference of their addresses. -/
structure Differ (file : Nat → UInt8) (dynamic : ElfSegmentHeader) (n processImg₁ : Nat) (m₁ : Memory)
    (processImg₂ : Nat) (m₂ : Memory) : Prop where
  bytes : ∀ seg ∈ loads file, ∀ x, seg.Covers x → ¬ InSlot file dynamic n x →
    m₁ (processImg₁ + x) = m₂ (processImg₂ + x)
  words : ∀ i < relaCount file dynamic n,
    (word m₁ 8 (processImg₁ + (relocation file dynamic n i).address) + processImg₂) % wordSize =
      (word m₂ 8 (processImg₂ + (relocation file dynamic n i).address) + processImg₁) % wordSize

/-! ## Filling memory -/

/-- What a loop of byte stores leaves. -/
theorem foldl_fill (h : dest + (lo + k) ≤ wordSize) (a : Nat) :
    (List.range' lo k).foldl (fun m i => Function.update m ((dest + i) % wordSize) (src i)) m a =
      if dest + lo ≤ a ∧ a < dest + (lo + k) then src (a - dest) else m a := by
  induction k generalizing lo m with
  | zero =>
    rw [if_neg (by omega)]
    rfl
  | succ k ih =>
    rw [List.range'_succ, List.foldl_cons, ih (by omega), Nat.mod_eq_of_lt (by omega)]
    by_cases ha : a = dest + lo
    · subst ha
      rw [if_neg (by omega), if_pos (by omega), Function.update_self, Nat.add_sub_cancel_left]
    · rw [Function.update_of_ne ha]
      exact if_congr (by omega) rfl rfl

theorem fill_apply (h : dest + hi ≤ wordSize) (hle : lo ≤ hi) (a : Nat) :
    fill dest lo hi src m a = if dest + lo ≤ a ∧ a < dest + hi then src (a - dest) else m a := by
  have heq : lo + (hi - lo) = hi := Nat.add_sub_cancel' hle
  rw [fill, foldl_fill (by omega), heq]

/-- A loop that has nothing to do. -/
theorem fill_of_le (h : hi ≤ lo) : fill dest lo hi src m = m := by
  rw [fill, Nat.sub_eq_zero_of_le h]
  rfl

/-- **A segment in memory.** -/
theorem loadSegment_apply (h : processImg + seg.virtualAddress + seg.extent < wordSize) (x : Nat) :
    loadSegment file processImg seg m (processImg + x) =
      if seg.Covers x then seg.content file x else m (processImg + x) := by
  have hdata : seg.dataSize ≤ seg.extent := Nat.le_max_left ..
  have hsize : seg.virtualSize ≤ seg.extent := Nat.le_max_right ..
  have hdest : (processImg + seg.virtualAddress) % wordSize = processImg + seg.virtualAddress :=
    Nat.mod_eq_of_lt (by omega)
  have hcovers : seg.Covers x ↔ seg.virtualAddress ≤ x ∧ x < seg.virtualAddress + seg.extent := Iff.rfl
  have hsub : processImg + x - (processImg + seg.virtualAddress) = x - seg.virtualAddress := by omega
  rw [loadSegment, hdest]
  rcases Nat.le_total seg.dataSize seg.virtualSize with hle | hle
  · have hextent : seg.extent = seg.virtualSize := Nat.max_eq_right hle
    rw [fill_apply (by omega) hle, fill_apply (by omega) (Nat.zero_le _), hsub]
    by_cases hx : seg.Covers x
    · rw [if_pos hx, ElfSegmentHeader.content]
      rw [hcovers] at hx
      by_cases hfile : x - seg.virtualAddress < seg.dataSize
      · rw [if_neg (by omega), if_pos (by omega), if_pos hfile]
      · rw [if_pos (by omega), if_neg hfile]
    · rw [if_neg hx]
      rw [hcovers] at hx
      rw [if_neg (by omega), if_neg (by omega)]
  · have hextent : seg.extent = seg.dataSize := Nat.max_eq_left hle
    rw [fill_of_le hle, fill_apply (by omega) (Nat.zero_le _), hsub]
    by_cases hx : seg.Covers x
    · rw [if_pos hx, ElfSegmentHeader.content]
      rw [hcovers] at hx
      rw [if_pos (by omega), if_pos (by omega)]
    · rw [if_neg hx]
      rw [hcovers] at hx
      rw [if_neg (by omega)]

/-! ## The segments -/

/-- Segments loaded one after the other. -/
def loadAll (file : Nat → UInt8) (processImg : Nat) (segs : List ElfSegmentHeader) (m : Memory) : Memory :=
  segs.foldl (fun m seg => loadSegment file processImg seg m) m

theorem loadAll_of_not_covers (hfit : ∀ seg ∈ segs, processImg + seg.virtualAddress + seg.extent < wordSize)
    (hx : ∀ seg ∈ segs, ¬ seg.Covers x) : loadAll file processImg segs m (processImg + x) = m (processImg + x) := by
  induction segs generalizing m with
  | nil => rfl
  | cons seg segs ih =>
    have hrest := @ih (loadSegment file processImg seg m) (fun s hs => hfit s (List.mem_cons_of_mem _ hs))
      fun s hs => hx s (List.mem_cons_of_mem _ hs)
    have hhead := @loadSegment_apply file m seg processImg (hfit seg List.mem_cons_self) x
    rw [if_neg (hx seg List.mem_cons_self)] at hhead
    exact hrest.trans hhead

/-- **Disjoint segments are all there in the end.** -/
theorem loadAll_apply (hfit : ∀ seg ∈ segs, processImg + seg.virtualAddress + seg.extent < wordSize)
    (hdisjoint : segs.Pairwise fun s t => ∀ x, s.Covers x → ¬ t.Covers x) (hseg : seg ∈ segs) (hx : seg.Covers x) :
    loadAll file processImg segs m (processImg + x) = seg.content file x := by
  induction segs generalizing m with
  | nil => cases hseg
  | cons s segs ih =>
    obtain ⟨hs, hrest⟩ := List.pairwise_cons.1 hdisjoint
    have hfit' := fun t ht => hfit t (List.mem_cons_of_mem s ht)
    rcases List.mem_cons.1 hseg with rfl | hmem
    · have hkeep := @loadAll_of_not_covers file (loadSegment file processImg seg m) segs processImg x hfit'
        fun t ht => hs t ht x hx
      have hhead := @loadSegment_apply file m seg processImg (hfit seg List.mem_cons_self) x
      rw [if_pos hx] at hhead
      exact hkeep.trans hhead
    · exact @ih (loadSegment file processImg s m) hfit' hrest hmem

/-- The loop over headers none of which is dynamic. -/
theorem prepareSegments_loads (hsegs : ∀ s ∈ segs, s.type ≠ PT_DYNAMIC) (rest : List ElfSegmentHeader) (m : Memory) :
    prepareSegments file fuel processImg (segs ++ rest) m = prepareSegments file fuel processImg rest
      (loadAll file processImg (segs.filter fun seg => seg.type = PT_LOAD) m) := by
  induction segs generalizing m with
  | nil => rfl
  | cons seg segs ih =>
    have hrest := ih fun s hs => hsegs s (List.mem_cons_of_mem _ hs)
    rw [List.cons_append, prepareSegments]
    by_cases hload : seg.type = PT_LOAD
    · rw [if_pos hload, hrest, List.filter_cons_of_pos (by simpa using hload)]
      rfl
    · rw [if_neg hload, if_neg (hsegs seg List.mem_cons_self), hrest,
        List.filter_cons_of_neg (by simpa using hload)]

/-- The image as it is in the file is in memory. -/
def Agrees (file : Nat → UInt8) (processImg : Nat) (m : Memory) : Prop :=
  ∀ seg ∈ loads file, ∀ x, seg.Covers x → m (processImg + x) = seg.content file x

section WellFormed

variable (hwf : WellFormed file dynamic n)
include hwf

theorem loaded_eq (hseg : seg ∈ loads file) (hx : seg.Covers x) : loaded file x = seg.content file x := by
  unfold loaded
  cases hfind : (loads file).find? fun seg => seg.Covers x with
  | none => exact absurd (decide_eq_true hx) (List.find?_eq_none.1 hfind seg hseg)
  | some seg' =>
    have hx' : seg'.Covers x := by simpa using List.find?_some hfind
    have hseg' := List.mem_of_find?_eq_some hfind
    by_cases heq : seg' = seg
    · rw [heq]
    · obtain ⟨i, hi, rfl⟩ := List.mem_iff_getElem.1 hseg'
      obtain ⟨j, hj, rfl⟩ := List.mem_iff_getElem.1 hseg
      have hpair := List.pairwise_iff_getElem.1 hwf.disjoint
      rcases Nat.lt_trichotomy i j with hij | rfl | hij
      · exact absurd hx (hpair i j hi hj hij x hx')
      · exact absurd rfl heq
      · exact absurd hx' (hpair j i hj hi hij x hx)

/-- The bytes of a part of the image that is in segments. -/
theorem Agrees.bytes (h : Agrees file processImg m) (hfit : Fits file dynamic n processImg) (hin : Inside file x k)
    (hi : i < k) : processBytes processImg m (x + i) = loaded file (x + i) := by
  obtain ⟨seg, hseg, hx⟩ := hin i hi
  have hlt := hfit.load seg hseg
  have hcovers := hx.2
  rw [processBytes, Nat.mod_eq_of_lt (by omega), h seg hseg _ hx, loaded_eq hwf hseg hx]

/-! ## The dynamic section -/

omit hwf in
theorem dynamicInfo_succ : dynamicInfo file dynamic (n + 1) = (dynamicInfo file dynamic n).read
    (word (loaded file) 8 (dynamic.virtualAddress + 16 * n))
    (word (loaded file) 8 (dynamic.virtualAddress + 16 * n + 8)) := by
  simp only [dynamicInfo, List.range_succ, List.foldl_append, List.foldl_cons, List.foldl_nil]

/-- **The section is read to its end.** -/
theorem readDynamic_eq {b : Nat → UInt8}
    (hb : ∀ i < 16 * n + 16, b (dynamic.virtualAddress + i) = loaded file (dynamic.virtualAddress + i))
    (hk : k ≤ n) (hfuel : n - k < fuel) :
    readDynamic b fuel (dynamic.virtualAddress + 16 * k) (dynamicInfo file dynamic k) =
      some (dynamicInfo file dynamic n) := by
  have hword : ∀ j, j + 8 ≤ 16 * n + 16 →
      word b 8 (dynamic.virtualAddress + j) = word (loaded file) 8 (dynamic.virtualAddress + j) := fun j hj =>
    word_congr fun i hi => by
      rw [Nat.add_assoc]
      exact hb (j + i) (by omega)
  induction fuel generalizing k with
  | zero => omega
  | succ fuel ih =>
    have htag := hword (16 * k) (by omega)
    have hvalue := hword (16 * k + 8) (by omega)
    rw [← Nat.add_assoc] at hvalue
    rw [readDynamic, htag]
    by_cases hkn : k = n
    · subst hkn
      rw [if_pos hwf.last]
    · have hnext : dynamic.virtualAddress + 16 * k + 16 = dynamic.virtualAddress + 16 * (k + 1) := by omega
      rw [if_neg (hwf.tags k (by omega)), hvalue, ← dynamicInfo_succ, hnext]
      exact ih (by omega) (by omega)

/-! ## The relocations -/

omit hwf in
/-- **A relocated word.** -/
theorem apply_apply {rel : ElfRelA} (h : processImg + rel.address + 8 < wordSize) (a : Nat) :
    apply processImg rel m a = if processImg + rel.address ≤ a ∧ a < processImg + rel.address + 8 then
      byte ((rel.addend + processImg) % wordSize) (a - (processImg + rel.address)) else m a := by
  rw [apply, Nat.mod_eq_of_lt (a := processImg + rel.address) (by omega), fill_apply (by omega) (Nat.zero_le 8)]
  rfl

/-- The bytes of the table are as they were. -/
def TableKept (file : Nat → UInt8) (dynamic : ElfSegmentHeader) (n processImg : Nat) (m : Memory) : Prop :=
  ∀ i < (dynamicInfo file dynamic n).relaSize,
    processBytes processImg m ((dynamicInfo file dynamic n).relaAddr + i) =
      loaded file ((dynamicInfo file dynamic n).relaAddr + i)

omit hwf in
theorem lt_relaCount (hi : i < relaCount file dynamic n) :
    relaSizeof * i + 24 ≤ (dynamicInfo file dynamic n).relaSize := by
  unfold relaCount relaSizeof at *
  omega

omit hwf in
/-- The relocation that the loop reads. -/
theorem TableKept.rela_eq (h : TableKept file dynamic n processImg m) (hi : i < relaCount file dynamic n) :
    rela (processBytes processImg m) (dynamicInfo file dynamic n).relaAddr i = relocation file dynamic n i := by
  have hsize := lt_relaCount hi
  have hword : ∀ j, j + 8 ≤ 24 → word (processBytes processImg m) 8
        ((dynamicInfo file dynamic n).relaAddr + relaSizeof * i + j) =
      word (loaded file) 8 ((dynamicInfo file dynamic n).relaAddr + relaSizeof * i + j) := fun j hj =>
    word_congr fun r hr => by
      rw [Nat.add_assoc, Nat.add_assoc]
      exact h (relaSizeof * i + (j + r)) (by omega)
  have hfirst := hword 0 (by omega)
  rw [Nat.add_zero] at hfirst
  rw [relocation, rela, rela, hfirst, hword 8 (by omega), hword 16 (by omega)]

/-- A relocation does not touch the table. -/
theorem TableKept.apply (hfit : Fits file dynamic n processImg) (h : TableKept file dynamic n processImg m)
    (hi : i < relaCount file dynamic n) :
    TableKept file dynamic n processImg (apply processImg (relocation file dynamic n i) m) := by
  intro j hj
  obtain ⟨seg, hseg, hx⟩ := hwf.tableInside j hj
  have hlt := hfit.load seg hseg
  have hcovers := hx.2
  have hapart := hwf.slotTable i hi
  unfold Apart at hapart
  rw [← h j hj, processBytes, processBytes, Nat.mod_eq_of_lt (by omega), apply_apply (hfit.slot i hi),
    if_neg (by omega)]

omit hwf in
/-- **One round of the loop.** -/
theorem relocate_step (h : TableKept file dynamic n processImg m) (hi : i < relaCount file dynamic n) :
    relocate processImg (dynamicInfo file dynamic n).relaAddr (relaCount file dynamic n) (fuel + 1) i m =
      if (relocation file dynamic n i).relType = R_RELATIVE then
        relocate processImg (dynamicInfo file dynamic n).relaAddr (relaCount file dynamic n) fuel ((i + 1) % 2 ^ 32)
          (apply processImg (relocation file dynamic n i) m)
      else some (false, m) := by
  rw [relocate, if_pos hi, h.rela_eq hi]

/-- The first `k` relocations. -/
def applied (file : Nat → UInt8) (dynamic : ElfSegmentHeader) (n processImg k : Nat) (m : Memory) : Memory :=
  (List.range k).foldl (fun m i => apply processImg (relocation file dynamic n i) m) m

omit hwf in
theorem applied_succ : applied file dynamic n processImg (k + 1) m =
    apply processImg (relocation file dynamic n k) (applied file dynamic n processImg k m) := by
  simp only [applied, List.range_succ, List.foldl_append, List.foldl_cons, List.foldl_nil]

theorem TableKept.applied (hfit : Fits file dynamic n processImg) (h : TableKept file dynamic n processImg m)
    (hk : k ≤ relaCount file dynamic n) :
    TableKept file dynamic n processImg (applied file dynamic n processImg k m) := by
  induction k with
  | zero => exact h
  | succ k ih =>
    rw [applied_succ]
    exact TableKept.apply hwf hfit (ih (Nat.le_of_succ_le hk)) hk

/-- **The loop up to round `k`**, as long as all relocations are relative. -/
theorem relocate_applied (hfit : Fits file dynamic n processImg) (h : TableKept file dynamic n processImg m)
    (hk : k ≤ relaCount file dynamic n) (hlt : k < 2 ^ 32)
    (hrel : ∀ i < k, (relocation file dynamic n i).relType = R_RELATIVE) :
    relocate processImg (dynamicInfo file dynamic n).relaAddr (relaCount file dynamic n) (fuel + k) 0 m =
      relocate processImg (dynamicInfo file dynamic n).relaAddr (relaCount file dynamic n) fuel k
        (applied file dynamic n processImg k m) := by
  induction k generalizing fuel with
  | zero => rfl
  | succ k ih =>
    have hprev := @ih (fuel + 1) (by omega) (by omega) fun i hi => hrel i (by omega)
    have hstep := @relocate_step _ _ _ _ fuel _ _ (TableKept.applied hwf hfit h (Nat.le_of_succ_le hk)) hk
    rw [if_pos (hrel k (Nat.lt_succ_self k)), Nat.mod_eq_of_lt hlt, ← applied_succ] at hstep
    rw [← Nat.add_assoc, Nat.add_right_comm, hprev, hstep]

/-- **A table with 2 ^ 32 entries is begun again and again.** -/
theorem relocate_never (hfit : Fits file dynamic n processImg) (h : TableKept file dynamic n processImg m)
    (hcount : 2 ^ 32 ≤ relaCount file dynamic n)
    (hrel : ∀ i < 2 ^ 32, (relocation file dynamic n i).relType = R_RELATIVE) (hi : i < 2 ^ 32) :
    relocate processImg (dynamicInfo file dynamic n).relaAddr (relaCount file dynamic n) fuel i m = none := by
  induction fuel generalizing i m with
  | zero => rfl
  | succ fuel ih =>
    have hlt : i < relaCount file dynamic n := Nat.lt_of_lt_of_le hi hcount
    rw [relocate_step h hlt, if_pos (hrel i hi)]
    exact ih (TableKept.apply hwf hfit h hlt) (Nat.mod_lt _ (by decide))

omit hwf in
/-- What is in no relocated word stays. -/
theorem applied_other (hfit : Fits file dynamic n processImg) (hk : k ≤ relaCount file dynamic n) {a : Nat}
    (ha : ∀ i < k, a < processImg + (relocation file dynamic n i).address ∨
      processImg + (relocation file dynamic n i).address + 8 ≤ a) :
    applied file dynamic n processImg k m a = m a := by
  induction k with
  | zero => rfl
  | succ k ih =>
    have hout := ha k (Nat.lt_succ_self k)
    rw [applied_succ, apply_apply (hfit.slot k hk), if_neg (by omega)]
    exact ih (Nat.le_of_succ_le hk) fun i hi => ha i (Nat.lt_succ_of_lt hi)

/-- What is in a relocated word. -/
theorem applied_slot (hfit : Fits file dynamic n processImg) (hk : k ≤ relaCount file dynamic n) (hi : i < k)
    (hj : j < 8) : applied file dynamic n processImg k m (processImg + (relocation file dynamic n i).address + j) =
      byte (((relocation file dynamic n i).addend + processImg) % wordSize) j := by
  induction k with
  | zero => omega
  | succ k ih =>
    rw [applied_succ, apply_apply (hfit.slot k hk)]
    obtain rfl | hlt := Nat.eq_or_lt_of_le (Nat.le_of_lt_succ hi)
    · rw [if_pos (by omega), Nat.add_sub_cancel_left]
    · have hapart := hwf.slots k hk i hlt
      unfold Apart at hapart
      rw [if_neg (by omega)]
      exact ih (Nat.le_of_succ_le hk) hlt

/-- **The image after all relocations.** -/
theorem relocated_applied (hfit : Fits file dynamic n processImg) (h : Agrees file processImg m) :
    Relocated file dynamic n processImg
      (applied file dynamic n processImg (relaCount file dynamic n) m) := by
  refine ⟨fun seg hseg x hx hslot => ?_, fun i hi => ?_⟩
  · rw [applied_other hfit le_rfl fun i hi => ?_]
    · exact h seg hseg x hx
    · by_contra hin
      exact hslot ⟨i, hi, by omega, by omega⟩
  · rw [word_of_bytes fun j hj => applied_slot hwf hfit le_rfl hi hj]
    exact Nat.mod_eq_of_lt (Nat.mod_lt _ (by decide))

/-! ## `PrepareELF` -/

/-- The segments before the dynamic section are all that is loaded. -/
theorem prepareELF_eq (hfit : Fits file dynamic n processImg) (m : Memory) : ∃ m₁, Agrees file processImg m₁ ∧
    TableKept file dynamic n processImg m₁ ∧ ∀ fuel > n, prepareELF fuel file processImg m =
      (relocate processImg (dynamicInfo file dynamic n).relaAddr (relaCount file dynamic n) fuel 0 m₁).map fun r =>
        (if r.1 then some ((processImg + entryPoint file) % wordSize) else none, r.2) := by
  obtain ⟨pre, post, hsegments, hpre, hpost⟩ := hwf.order
  have hnone : (post.filter fun seg => seg.type = PT_LOAD) = [] :=
    List.filter_eq_nil_iff.2 fun s hs => by simpa using (hpost s hs).1
  have hdynamic : dynamic.type ≠ PT_LOAD := by
    rw [hwf.type]
    decide
  have hloads : loads file = pre.filter fun seg => seg.type = PT_LOAD := by
    rw [loads, hsegments, List.filter_append, List.filter_cons_of_neg (by simpa using hdynamic), hnone,
      List.append_nil]
  have hagrees : Agrees file processImg (loadAll file processImg (loads file) m) := fun seg hseg x hx =>
    loadAll_apply hfit.load hwf.disjoint hseg hx
  refine ⟨_, hagrees, fun i hi => hagrees.bytes hwf hfit hwf.tableInside hi, fun fuel hfuel => ?_⟩
  have hread := readDynamic_eq hwf (b := processBytes processImg (loadAll file processImg (loads file) m))
    (fun i hi => hagrees.bytes hwf hfit hwf.sectionInside hi) (Nat.zero_le n) hfuel
  have hrest : ∀ m', prepareSegments file fuel processImg post m' = some (true, m') := fun m' => by
    have hend := @prepareSegments_loads file _ processImg fuel (fun s hs => (hpost s hs).2) [] m'
    rw [List.append_nil, hnone] at hend
    exact hend
  have hentry : (dynamicInfo file dynamic n).relaEntrySize ≠ 0 := by
    rw [hwf.entrySize]
    decide
  have hstart : dynamicInfo file dynamic 0 = Dynamic.start := rfl
  rw [Nat.mul_zero, Nat.add_zero, hstart] at hread
  have happly : applyDynamic fuel processImg dynamic (loadAll file processImg (loads file) m) =
      relocate processImg (dynamicInfo file dynamic n).relaAddr (relaCount file dynamic n) fuel 0
        (loadAll file processImg (loads file) m) := by
    rw [applyDynamic, hread]
    simp only [Option.bind_eq_bind, Option.bind_some]
    rw [if_neg hentry, hwf.entrySize, relaCount]
  rw [prepareELF, hsegments, prepareSegments_loads hpre, ← hloads, prepareSegments, if_neg hdynamic,
    if_pos hwf.type, happly]
  cases relocate processImg (dynamicInfo file dynamic n).relaAddr (relaCount file dynamic n) fuel 0
      (loadAll file processImg (loads file) m) with
  | none => rfl
  | some r =>
    obtain ⟨ok, m'⟩ := r
    cases ok with
    | false => rfl
    | true => simp only [Option.bind_eq_bind, Option.bind_some, if_true, hrest, Option.map_some]

/-- The loop over the relocations where it ends. -/
theorem relocate_ends (hfit : Fits file dynamic n processImg) (h : TableKept file dynamic n processImg m)
    (hcount : relaCount file dynamic n < 2 ^ 32 ∨
      ∃ i < 2 ^ 32, i < relaCount file dynamic n ∧ (relocation file dynamic n i).relType ≠ R_RELATIVE) :
    ∃ enough ok m', (∀ fuel ≥ enough, relocate processImg (dynamicInfo file dynamic n).relaAddr
        (relaCount file dynamic n) fuel 0 m = some (ok, m')) ∧
      (ok = true ↔ AllRelative file dynamic n) ∧
      (ok = true → m' = applied file dynamic n processImg (relaCount file dynamic n) m) := by
  by_cases hall : ∃ i < 2 ^ 32, i < relaCount file dynamic n ∧ (relocation file dynamic n i).relType ≠ R_RELATIVE
  · classical
    -- the first relocation that is not relative
    have hfind := Nat.find_spec hall
    have hmin := fun {i} => Nat.find_min hall (m := i)
    generalize Nat.find hall = k at hfind hmin
    obtain ⟨hlt, hk, hrel⟩ := hfind
    refine ⟨k + 1, false, applied file dynamic n processImg k m, fun fuel hfuel => ?_, ?_, by simp⟩
    · obtain ⟨d, rfl⟩ := Nat.exists_eq_add_of_le hfuel
      have hrun := @relocate_applied _ _ _ _ (d + 1) _ _ hwf hfit h (Nat.le_of_lt hk) hlt fun i hi => by
        by_contra hne
        exact hmin hi ⟨by omega, by omega, hne⟩
      have hfuel' : k + 1 + d = d + 1 + k := by omega
      rw [hfuel', hrun, relocate_step (TableKept.applied hwf hfit h (Nat.le_of_lt hk)) hk, if_neg hrel]
    · refine iff_of_false (by simp) fun hall' => hrel (hall' k hk)
  · have hsmall : relaCount file dynamic n < 2 ^ 32 := hcount.resolve_right hall
    have hrel : AllRelative file dynamic n := fun i hi => by
      by_contra hne
      exact hall ⟨i, by omega, hi, hne⟩
    refine ⟨relaCount file dynamic n + 1, true, _, fun fuel hfuel => ?_, iff_of_true rfl hrel, fun _ => rfl⟩
    obtain ⟨d, rfl⟩ := Nat.exists_eq_add_of_le hfuel
    have hfuel' : relaCount file dynamic n + 1 + d = d + 1 + relaCount file dynamic n := by omega
    rw [hfuel', relocate_applied hwf hfit h le_rfl hsmall hrel, relocate, if_neg (Nat.lt_irrefl _)]

/-- **Every image is prepared** that has a short enough table. -/
theorem prepareELF_ends (hfit : Fits file dynamic n processImg) (m : Memory)
    (hcount : relaCount file dynamic n < 2 ^ 32 ∨
      ∃ i < 2 ^ 32, i < relaCount file dynamic n ∧ (relocation file dynamic n i).relType ≠ R_RELATIVE) :
    ∃ enough entry m', (∀ fuel ≥ enough, prepareELF fuel file processImg m = some (entry, m')) ∧
      Prepared file dynamic n processImg entry m' := by
  obtain ⟨m₁, hagrees, htable, hrun⟩ := prepareELF_eq hwf hfit m
  obtain ⟨enough, ok, m', hends, hok, hm'⟩ := relocate_ends hwf hfit htable hcount
  refine ⟨max enough (n + 1), if ok then some ((processImg + entryPoint file) % wordSize) else none, m',
    fun fuel hfuel => ?_, ?_⟩
  · rw [hrun fuel (by omega), hends fuel (by omega)]
    rfl
  · cases ok with
    | false => exact ⟨iff_of_false (by simp) fun h => absurd (hok.2 h) (by simp), fun h => absurd h (by simp)⟩
    | true =>
      refine ⟨iff_of_true rfl (hok.1 rfl), fun _ => ?_⟩
      rw [hm' rfl]
      exact relocated_applied hwf hfit hagrees

/-- A table that is too long. -/
theorem prepareELF_never (hfit : Fits file dynamic n processImg) (m : Memory)
    (hcount : ¬ (relaCount file dynamic n < 2 ^ 32 ∨
      ∃ i < 2 ^ 32, i < relaCount file dynamic n ∧ (relocation file dynamic n i).relType ≠ R_RELATIVE)) :
    ∀ fuel > n, prepareELF fuel file processImg m = none := by
  intro fuel hfuel
  obtain ⟨m₁, -, htable, hrun⟩ := prepareELF_eq hwf hfit m
  rw [not_or, Nat.not_lt] at hcount
  obtain ⟨hle, hall⟩ := hcount
  have hrel : ∀ i < 2 ^ 32, (relocation file dynamic n i).relType = R_RELATIVE := fun i hi => by
    by_contra hne
    exact hall ⟨i, hi, by omega, hne⟩
  rw [hrun fuel hfuel, relocate_never hwf hfit htable hle hrel (by decide)]
  rfl

end WellFormed

/-- Two relocated images. -/
theorem Relocated.differ {processImg₁ processImg₂ : Nat} {m₁ m₂ : Memory}
    (h₁ : Relocated file dynamic n processImg₁ m₁) (h₂ : Relocated file dynamic n processImg₂ m₂) :
    Differ file dynamic n processImg₁ m₁ processImg₂ m₂ := by
  refine ⟨fun seg hseg x hx hslot => ?_, fun i hi => ?_⟩
  · rw [h₁.bytes seg hseg x hx hslot, h₂.bytes seg hseg x hx hslot]
  · rw [h₁.words i hi, h₂.words i hi, Nat.mod_add_mod, Nat.mod_add_mod, Nat.add_right_comm]

/-- **When an image is prepared as it should be**, at any two addresses. -/
theorem prepareELF_right_iff {processImg₁ processImg₂ : Nat} (hwf : WellFormed file dynamic n)
    (h₁ : Fits file dynamic n processImg₁) (h₂ : Fits file dynamic n processImg₂) (m₁ m₂ : Memory) :
    (∃ enough entry₁ m₁' entry₂ m₂',
      (∀ fuel ≥ enough, prepareELF fuel file processImg₁ m₁ = some (entry₁, m₁') ∧
        prepareELF fuel file processImg₂ m₂ = some (entry₂, m₂')) ∧
      Prepared file dynamic n processImg₁ entry₁ m₁' ∧ Prepared file dynamic n processImg₂ entry₂ m₂' ∧
      (entry₁.isSome → entry₂.isSome → Differ file dynamic n processImg₁ m₁' processImg₂ m₂')) ↔
    relaCount file dynamic n < 2 ^ 32 ∨
      ∃ i < 2 ^ 32, i < relaCount file dynamic n ∧ (relocation file dynamic n i).relType ≠ R_RELATIVE := by
  constructor
  · rintro ⟨enough, entry₁, m₁', entry₂, m₂', hrun, -⟩
    by_contra hcount
    have hnone := prepareELF_never hwf h₁ m₁ hcount (max enough (n + 1)) (by omega)
    rw [(hrun _ (Nat.le_max_left ..)).1] at hnone
    cases hnone
  · intro hcount
    obtain ⟨enough₁, entry₁, m₁', hrun₁, hprepared₁⟩ := prepareELF_ends hwf h₁ m₁ hcount
    obtain ⟨enough₂, entry₂, m₂', hrun₂, hprepared₂⟩ := prepareELF_ends hwf h₂ m₂ hcount
    refine ⟨max enough₁ enough₂, entry₁, m₁', entry₂, m₂', fun fuel hfuel => ?_, hprepared₁, hprepared₂,
      fun he₁ he₂ => (hprepared₁.relocated he₁).differ (hprepared₂.relocated he₂)⟩
    exact ⟨hrun₁ fuel (by omega), hrun₂ fuel (by omega)⟩

/-! ## An image with `N` relocations

One segment with everything, the dynamic section at 0, the table at 64 and the relocated words behind it.
-/

/-- The 64-bit words of the file. -/
def exampleWord (N k : Nat) : Nat :=
  if 520 ≤ k then
    if (k - 520) % 3 = 0 then 64 + 24 * N + 8 * ((k - 520) / 3) else if (k - 520) % 3 = 1 then R_RELATIVE else 0
  else match k with
    | 4 => 64
    | 7 => 2
    | 8 => PT_LOAD
    | 9 => 4096
    | 12 => 64 + 32 * N
    | 13 => 64 + 32 * N
    | 15 => PT_DYNAMIC
    | 16 => 4096
    | 19 => 48
    | 20 => 48
    | 512 => DT_RELA
    | 513 => 64
    | 514 => DT_RELASZ
    | 515 => 24 * N
    | _ => 0

def exampleFile (N : Nat) : Nat → UInt8 := bytes (exampleWord N)

def exampleLoad (N : Nat) : ElfSegmentHeader := ⟨PT_LOAD, 4096, 0, 64 + 32 * N, 64 + 32 * N⟩

def exampleDynamic : ElfSegmentHeader := ⟨PT_DYNAMIC, 4096, 0, 48, 48⟩

section Example

variable {N : Nat}

theorem segments_example (hN : N ≤ 2 ^ 32) : segments (exampleFile N) = [exampleLoad N, exampleDynamic] := by
  have hcount : phEntryCount (exampleFile N) = 2 := word_bytes (by decide) 7
  have hoffset : phOffset (exampleFile N) = 64 := word_bytes (by decide) 4
  have hsize : (64 + 32 * N) % 256 ^ 8 = 64 + 32 * N := Nat.mod_eq_of_lt (by omega)
  have hload : segment (exampleFile N) 0 = exampleLoad N := by
    have hat : segmentAt (exampleFile N) 0 = 8 * 8 := by rw [segmentAt, hoffset]; decide
    have htype : word (exampleFile N) 4 (8 * 8) = PT_LOAD := word_bytes (by decide) 8
    have hdata : word (exampleFile N) 8 (8 * 9) = 4096 := word_bytes (by decide) 9
    have haddress : word (exampleFile N) 8 (8 * 10) = 0 := word_bytes (by decide) 10
    have hdataSize : word (exampleFile N) 8 (8 * 12) = (64 + 32 * N) % 256 ^ 8 := word_bytes (by decide) 12
    have hvirtualSize : word (exampleFile N) 8 (8 * 13) = (64 + 32 * N) % 256 ^ 8 := word_bytes (by decide) 13
    rw [segment, hat, htype, hdata, haddress, hdataSize, hvirtualSize, hsize, exampleLoad]
  have hdynamic : segment (exampleFile N) 1 = exampleDynamic := by
    have hat : segmentAt (exampleFile N) 1 = 8 * 15 := by rw [segmentAt, hoffset]; decide
    have htype : word (exampleFile N) 4 (8 * 15) = PT_DYNAMIC := word_bytes (by decide) 15
    have hdata : word (exampleFile N) 8 (8 * 16) = 4096 := word_bytes (by decide) 16
    have haddress : word (exampleFile N) 8 (8 * 17) = 0 := word_bytes (by decide) 17
    have hdataSize : word (exampleFile N) 8 (8 * 19) = 48 := word_bytes (by decide) 19
    have hvirtualSize : word (exampleFile N) 8 (8 * 20) = 48 := word_bytes (by decide) 20
    rw [segment, hat, htype, hdata, haddress, hdataSize, hvirtualSize, exampleDynamic]
  have hrange : List.range 2 = [0, 1] := rfl
  rw [segments, hcount, hrange, List.map_cons, List.map_cons, List.map_nil, hload, hdynamic]

theorem loads_example (hN : N ≤ 2 ^ 32) : loads (exampleFile N) = [exampleLoad N] := by
  rw [loads, segments_example hN]
  rfl

theorem covers_example : (exampleLoad N).Covers x ↔ x < 64 + 32 * N := by
  simp [ElfSegmentHeader.Covers, ElfSegmentHeader.extent, exampleLoad]

theorem inside_example (hN : N ≤ 2 ^ 32) (h : x + k ≤ 64 + 32 * N) : Inside (exampleFile N) x k := fun i hi =>
  ⟨exampleLoad N, by rw [loads_example hN]; exact List.mem_cons_self, covers_example.2 (by omega)⟩

/-- The words of the image. -/
theorem word_loaded_example (hN : N ≤ 2 ^ 32) (hk : 8 * k + 8 ≤ 64 + 32 * N) :
    word (loaded (exampleFile N)) 8 (8 * k) = exampleWord N (512 + k) % 256 ^ 8 := by
  have hbytes : word (exampleFile N) 8 (8 * (512 + k)) = exampleWord N (512 + k) % 256 ^ 8 :=
    word_bytes le_rfl (512 + k)
  have hsame : word (loaded (exampleFile N)) 8 (8 * k) = word (exampleFile N) 8 (8 * (512 + k)) := by
    refine word_of_bytes (fun i hi => ?_) |>.trans (Nat.mod_eq_of_lt word_lt)
    have hcovers : (exampleLoad N).Covers (8 * k + i) := covers_example.2 (by omega)
    have hfile : (4096 + (8 * k + i)) % wordSize = 8 * (512 + k) + i := by
      rw [Nat.mod_eq_of_lt (by unfold wordSize; omega)]
      omega
    have hsub : 8 * k + i - (exampleLoad N).virtualAddress = 8 * k + i := rfl
    have hdata : (exampleLoad N).dataSize = 64 + 32 * N := rfl
    rw [byte_word hi, loaded, loads_example hN, List.find?_cons_of_pos (by simpa using hcovers)]
    simp only [ElfSegmentHeader.content, hsub]
    rw [hdata, if_pos (by omega), ElfSegmentHeader.data, ← hfile]
    rfl
  rw [hsame, hbytes]

theorem dynamicInfo_example (hN : N ≤ 2 ^ 32) : dynamicInfo (exampleFile N) exampleDynamic 2 = ⟨64, 24 * N, 24⟩ := by
  have hword : ∀ k < 8, word (loaded (exampleFile N)) 8 (8 * k) = exampleWord N (512 + k) % 256 ^ 8 := fun k hk =>
    word_loaded_example hN (by omega)
  have hsize : 24 * N % 256 ^ 8 = 24 * N := Nat.mod_eq_of_lt (by omega)
  have h₀ : word (loaded (exampleFile N)) 8 0 = DT_RELA := hword 0 (by decide)
  have h₁ : word (loaded (exampleFile N)) 8 8 = 64 := hword 1 (by decide)
  have h₂ : word (loaded (exampleFile N)) 8 16 = DT_RELASZ := hword 2 (by decide)
  have h₃ : word (loaded (exampleFile N)) 8 24 = 24 * N := (hword 3 (by decide)).trans hsize
  have hrange : List.range 2 = [0, 1] := rfl
  have haddress : exampleDynamic.virtualAddress = 0 := rfl
  simp only [dynamicInfo, hrange, List.foldl_cons, List.foldl_nil, haddress, Nat.mul_zero, Nat.mul_one, Nat.zero_add,
    h₀, h₁, h₂, h₃]
  rfl

theorem relaCount_example (hN : N ≤ 2 ^ 32) : relaCount (exampleFile N) exampleDynamic 2 = N := by
  rw [relaCount, dynamicInfo_example hN]
  exact Nat.mul_div_cancel_left N (by decide)

theorem relocation_example (hN : N ≤ 2 ^ 32) (hi : i < N) :
    relocation (exampleFile N) exampleDynamic 2 i = ⟨64 + 24 * N + 8 * i, R_RELATIVE, 0⟩ := by
  have hword : ∀ j < 3, word (loaded (exampleFile N)) 8 (8 * (8 + 3 * i + j)) =
      exampleWord N (512 + (8 + 3 * i + j)) % 256 ^ 8 := fun j hj => word_loaded_example hN (by omega)
  have hsize : (64 + 24 * N + 8 * i) % 256 ^ 8 = 64 + 24 * N + 8 * i := Nat.mod_eq_of_lt (by omega)
  have hentry : ∀ j < 3, exampleWord N (512 + (8 + 3 * i + j)) =
      if j = 0 then 64 + 24 * N + 8 * i else if j = 1 then R_RELATIVE else 0 := fun j hj => by
    have hdiv : (512 + (8 + 3 * i + j) - 520) / 3 = i := by omega
    have hmod : (512 + (8 + 3 * i + j) - 520) % 3 = j := by omega
    unfold exampleWord
    rw [if_pos (by omega), hdiv, hmod]
  have hat : ∀ j, 64 + relaSizeof * i + 8 * j = 8 * (8 + 3 * i + j) := fun j => by
    unfold relaSizeof
    omega
  have h₀ := (hword 0 (by decide)).trans (congrArg (· % 256 ^ 8) (hentry 0 (by decide)))
  have h₁ := (hword 1 (by decide)).trans (congrArg (· % 256 ^ 8) (hentry 1 (by decide)))
  have h₂ := (hword 2 (by decide)).trans (congrArg (· % 256 ^ 8) (hentry 2 (by decide)))
  rw [← hat] at h₀ h₁ h₂
  have hfirst : word (loaded (exampleFile N)) 8 (64 + relaSizeof * i) = 64 + 24 * N + 8 * i := h₀.trans hsize
  have hsecond : word (loaded (exampleFile N)) 8 (64 + relaSizeof * i + 8) = R_RELATIVE := h₁
  have hthird : word (loaded (exampleFile N)) 8 (64 + relaSizeof * i + 16) = 0 := h₂
  rw [relocation, dynamicInfo_example hN, rela, hfirst, hsecond, hthird]

theorem wellFormed_example (hN : N ≤ 2 ^ 32) : WellFormed (exampleFile N) exampleDynamic 2 := by
  have hinfo := dynamicInfo_example hN
  have hcount := relaCount_example hN
  have hword : ∀ k < 8, word (loaded (exampleFile N)) 8 (8 * k) = exampleWord N (512 + k) % 256 ^ 8 := fun k hk =>
    word_loaded_example hN (by omega)
  have htags : ∀ k < 2, word (loaded (exampleFile N)) 8 (0 + 16 * k) ≠ DT_NULL := fun k hk => by
    have heven : 0 + 16 * k = 8 * (2 * k) := by omega
    rw [heven, hword _ (by omega)]
    match k with
    | 0 =>
      have hrela : exampleWord N (512 + 2 * 0) = DT_RELA := rfl
      rw [hrela]
      decide
    | 1 =>
      have hsize : exampleWord N (512 + 2 * 1) = DT_RELASZ := rfl
      rw [hsize]
      decide
  constructor
  case disjoint =>
    rw [loads_example hN]
    exact List.pairwise_singleton ..
  case order => exact ⟨[exampleLoad N], [], segments_example hN, by simp [exampleLoad, PT_LOAD, PT_DYNAMIC], by simp⟩
  case type => rfl
  case tags => exact htags
  case last => exact hword 4 (by decide)
  case sectionInside => exact inside_example hN (by simp only [exampleDynamic]; omega)
  case entrySize => rw [hinfo]; rfl
  case tableInside => exact inside_example hN (by rw [hinfo]; dsimp only; omega)
  case slots =>
    intro i hi j hj
    rw [hcount] at hi
    rw [relocation_example hN hi, relocation_example hN (Nat.lt_trans hj hi)]
    simp only [Apart]
    omega
  case slotSection =>
    intro i hi
    rw [hcount] at hi
    rw [relocation_example hN hi]
    simp only [Apart, exampleDynamic]
    omega
  case slotTable =>
    intro i hi
    rw [hcount] at hi
    rw [relocation_example hN hi, hinfo]
    simp only [Apart]
    omega

theorem fits_example (hN : N ≤ 2 ^ 32) (h : processImg < 2 ^ 48) :
    Fits (exampleFile N) exampleDynamic 2 processImg := by
  constructor
  case load =>
    intro seg hseg
    rw [loads_example hN] at hseg
    obtain rfl := List.mem_singleton.1 hseg
    have hextent : (exampleLoad N).extent = 64 + 32 * N := Nat.max_self _
    have haddress : (exampleLoad N).virtualAddress = 0 := rfl
    rw [hextent, haddress]
    unfold wordSize
    omega
  case slot =>
    intro i hi
    rw [relaCount_example hN] at hi
    rw [relocation_example hN hi]
    unfold wordSize
    dsimp only
    omega

end Example

/-- An image with two relocations is relocated to 1 MiB and to 2 MiB. -/
theorem prepareELF_right_iff_two :
    (∃ enough entry₁ m₁' entry₂ m₂',
      (∀ fuel ≥ enough, prepareELF fuel (exampleFile 2) (2 ^ 20) (fun _ => 0) = some (entry₁, m₁') ∧
        prepareELF fuel (exampleFile 2) (2 ^ 21) (fun _ => 0) = some (entry₂, m₂')) ∧
      Prepared (exampleFile 2) exampleDynamic 2 (2 ^ 20) entry₁ m₁' ∧
      Prepared (exampleFile 2) exampleDynamic 2 (2 ^ 21) entry₂ m₂' ∧
      (entry₁.isSome → entry₂.isSome → Differ (exampleFile 2) exampleDynamic 2 (2 ^ 20) m₁' (2 ^ 21) m₂')) :=
  (prepareELF_right_iff (wellFormed_example (by decide)) (fits_example (by decide) (by decide))
    (fits_example (by decide) (by decide)) _ _).2 (Or.inl (by rw [relaCount_example (by decide)]; decide))

/-- An image with 2 ^ 32 relative relocations: `PrepareELF` does not return. -/
theorem prepareELF_hangs : WellFormed (exampleFile (2 ^ 32)) exampleDynamic 2 ∧
    Fits (exampleFile (2 ^ 32)) exampleDynamic 2 (2 ^ 20) ∧ AllRelative (exampleFile (2 ^ 32)) exampleDynamic 2 ∧
    ∀ m, ¬ ∃ enough entry m', ∀ fuel ≥ enough,
      prepareELF fuel (exampleFile (2 ^ 32)) (2 ^ 20) m = some (entry, m') := by
  have hwf : WellFormed (exampleFile (2 ^ 32)) exampleDynamic 2 := wellFormed_example le_rfl
  have hfit : Fits (exampleFile (2 ^ 32)) exampleDynamic 2 (2 ^ 20) := fits_example le_rfl (by decide)
  have hcount : relaCount (exampleFile (2 ^ 32)) exampleDynamic 2 = 2 ^ 32 := relaCount_example le_rfl
  have hall : AllRelative (exampleFile (2 ^ 32)) exampleDynamic 2 := fun i hi => by
    rw [relocation_example le_rfl (hcount ▸ hi)]
    rfl
  refine ⟨hwf, hfit, hall, fun m => ?_⟩
  rintro ⟨enough, entry, m', hrun⟩
  have hnever := prepareELF_never hwf hfit m (by
    rw [hcount]
    rintro (hlt | ⟨i, hi, hlt, hrel⟩)
    · omega
    · exact hrel (hall i (hcount.symm ▸ hlt))) (max enough 3) (by omega)
  rw [hrun _ (Nat.le_max_left ..)] at hnever
  cases hnever

end ChenixOS.ELF.Boot
