import ChenixOS.Bootloader.PhysicalMap
import ChenixOS.Memory.Coalescing

/-!
# The physical memory map is complete

**Joining.** An entry that was joined with another one has the bytes of both, and begins and ends where one
of them began or ended. So what was not adjacent to either is not adjacent to it, and the entries that the
loop has left behind stay without neighbours although only later ones are searched. Each join leaves one
live entry less, so the loop ends although it looks at some entries again.

**Theorem (`build_links_memory`).** Unless usable memory is at both ends of the 64-bit address space, where
an end wraps to 0, `CleanupMemMap` ends with disjoint segments that have no neighbours and make up the
usable memory. Where that lies in the 512 GB that the boot loader maps, `Build` returns the list of them.
-/

namespace ChenixOS.PhysicalMap

open FreeList (Segment covered)
open MemoryManager (highMemBase)

variable {map map' : List Descriptor} {U : Set Nat} {a b d e seg cmp : Descriptor} {i j s c x : Nat}

/-! ## Segments -/

namespace Descriptor

/-- The memory that a descriptor describes. -/
def segment (d : Descriptor) : Segment := ⟨d.physicalStart, d.numberOfPages * 4096⟩

/-- A descriptor of whole pages in the address space. -/
structure Fits (d : Descriptor) : Prop where
  aligned : 4096 ∣ d.physicalStart
  pos : 0 < d.numberOfPages
  top : d.physicalStart + d.numberOfPages * 4096 ≤ wordSize

end Descriptor

/-- One ends where the other begins. -/
def Adjacent (a b : Descriptor) : Prop :=
  a.physicalStart + a.numberOfPages * 4096 = b.physicalStart ∨
    b.physicalStart + b.numberOfPages * 4096 = a.physicalStart

/-- The memory of some descriptors. -/
def memoryOf (map : List Descriptor) : Set Nat := covered (map.map Descriptor.segment)

theorem mem_memoryOf : x ∈ memoryOf map ↔
    ∃ d ∈ map, d.physicalStart ≤ x ∧ x < d.physicalStart + d.numberOfPages * 4096 := by
  simp [memoryOf, covered, Descriptor.segment]

/-- **What the firmware returns**: descriptors of whole pages that do not overlap. -/
structure WellFormed (map : List Descriptor) : Prop where
  fits : ∀ d ∈ map, d.Fits
  apart : (map.map Descriptor.segment).Pairwise Segment.Apart
  length : map.length < wordSize

/-- The usable memory. -/
def usableMemory (map : List Descriptor) : Set Nat := memoryOf (map.filter fun d => d.type.usable)

/-- No usable memory at one of the ends of the address space, where the end of a segment wraps to 0. -/
def NoWrap (U : Set Nat) : Prop := ¬ (0 ∈ U ∧ wordSize - 1 ∈ U)

/-! ## Joining two segments -/

/-- In memory that does not wrap, the test finds just the adjacent segments. -/
theorem touches_iff (hU : NoWrap U) (ha : a.Fits) (hb : b.Fits)
    (haU : ∀ x, a.physicalStart ≤ x → x < a.physicalStart + a.numberOfPages * 4096 → x ∈ U)
    (hbU : ∀ x, b.physicalStart ≤ x → x < b.physicalStart + b.numberOfPages * 4096 → x ∈ U) :
    (b.physicalStart = a.end ↔ a.physicalStart + a.numberOfPages * 4096 = b.physicalStart) := by
  have hpa := ha.pos
  have hpb := hb.pos
  have hta := ha.top
  have htb := hb.top
  unfold Descriptor.end
  by_cases hend : a.physicalStart + a.numberOfPages * 4096 = wordSize
  · have hlast : wordSize - 1 ∈ U := haU _ (by omega) (by omega)
    rw [hend, Nat.mod_self]
    constructor
    · intro h0
      exact absurd ⟨hbU 0 (by omega) (by omega), hlast⟩ hU
    · intro h
      omega
  · rw [Nat.mod_eq_of_lt (by omega)]
    exact ⟨Eq.symm, Eq.symm⟩

/-- `a` is made of the adjacent segments `seg` and `cmp`. -/
def Spans (a seg cmp : Descriptor) : Prop :=
  seg.physicalStart + seg.numberOfPages * 4096 = cmp.physicalStart ∧
    a.physicalStart = seg.physicalStart ∧
    a.physicalStart + a.numberOfPages * 4096 = cmp.physicalStart + cmp.numberOfPages * 4096 ∨
  cmp.physicalStart + cmp.numberOfPages * 4096 = seg.physicalStart ∧
    a.physicalStart = cmp.physicalStart ∧
    a.physicalStart + a.numberOfPages * 4096 = seg.physicalStart + seg.numberOfPages * 4096

/-- What is apart from both is apart from what is made of them. -/
theorem Spans.apart (h : Spans a seg cmp) (he : 0 < e.numberOfPages)
    (hs : seg.segment.Apart e.segment) (hc : cmp.segment.Apart e.segment) : a.segment.Apart e.segment := by
  unfold Spans at h
  unfold Segment.Apart Descriptor.segment at *
  dsimp only at *
  omega

/-- What is adjacent to neither is not adjacent to what is made of them. -/
theorem Spans.not_adjacent (h : Spans a seg cmp) (hs : ¬ Adjacent d seg) (hc : ¬ Adjacent d cmp) :
    ¬ Adjacent d a := by
  unfold Spans at h
  unfold Adjacent at *
  omega

theorem Spans.mem_iff (h : Spans a seg cmp) : a.physicalStart ≤ x ∧ x < a.physicalStart + a.numberOfPages * 4096 ↔
    (seg.physicalStart ≤ x ∧ x < seg.physicalStart + seg.numberOfPages * 4096) ∨
      (cmp.physicalStart ≤ x ∧ x < cmp.physicalStart + cmp.numberOfPages * 4096) := by
  unfold Spans at h
  omega

/-- **Two adjacent segments joined** have the memory of both, and begin and end where one of them did. -/
theorem join_spec (hU : NoWrap U) (ha : seg.Fits) (hb : cmp.Fits)
    (haU : ∀ x, seg.physicalStart ≤ x → x < seg.physicalStart + seg.numberOfPages * 4096 → x ∈ U)
    (hbU : ∀ x, cmp.physicalStart ≤ x → x < cmp.physicalStart + cmp.numberOfPages * 4096 → x ∈ U)
    (htouch : seg.touches cmp = true) : (join seg cmp).Fits ∧ (join seg cmp).type = seg.type ∧
      Spans (join seg cmp) seg cmp := by
  have hpa := ha.pos
  have hta := ha.top
  have htb := hb.top
  have hword : wordSize = 2 ^ 64 := rfl
  rw [Descriptor.touches, Bool.or_eq_true, beq_iff_eq, beq_iff_eq] at htouch
  have hafter := touches_iff hU ha hb haU hbU
  have hbefore := touches_iff hU hb ha hbU haU
  unfold join
  by_cases h : cmp.physicalStart = seg.end
  · have hadj := hafter.1 h
    have hsum : (seg.numberOfPages + cmp.numberOfPages) % wordSize =
        seg.numberOfPages + cmp.numberOfPages := Nat.mod_eq_of_lt (by omega)
    have hend : seg.physicalStart + (seg.numberOfPages + cmp.numberOfPages) * 4096 =
        cmp.physicalStart + cmp.numberOfPages * 4096 := by
      rw [Nat.add_mul, ← Nat.add_assoc, hadj]
    rw [if_pos h, hsum]
    exact ⟨⟨ha.aligned, Nat.add_pos_left hpa _, hend.trans_le htb⟩, rfl, .inl ⟨hadj, rfl, hend⟩⟩
  · have hadj := hbefore.1 (htouch.resolve_left h).symm
    have hsum : (seg.numberOfPages + cmp.numberOfPages) % wordSize =
        seg.numberOfPages + cmp.numberOfPages := Nat.mod_eq_of_lt (by omega)
    have hend : cmp.physicalStart + (seg.numberOfPages + cmp.numberOfPages) * 4096 =
        seg.physicalStart + seg.numberOfPages * 4096 := by
      rw [Nat.add_comm seg.numberOfPages, Nat.add_mul, ← Nat.add_assoc, hadj]
    rw [if_neg h, hsum]
    exact ⟨⟨hb.aligned, Nat.add_pos_left hpa _, hend.trans_le hta⟩, rfl, .inr ⟨hadj, rfl, hend⟩⟩

/-! ## The second loop -/

/-- The entry `i` is one that the loop does not pass over. -/
def LiveAt (map : List Descriptor) (i : Nat) (d : Descriptor) : Prop := map[i]? = some d ∧ d.skipped = false

/-- **The invariant of the second loop**, before the entry `s`: the live entries do not overlap and make up
the memory `U`, and those before `s` have no neighbour at all. -/
structure Joined (U : Set Nat) (map : List Descriptor) (s : Nat) : Prop where
  fits : ∀ i d, LiveAt map i d → d.Fits
  apart : ∀ i j d e, LiveAt map i d → LiveAt map j e → i ≠ j → d.segment.Apart e.segment
  cover : ∀ x, x ∈ U ↔
    ∃ i d, LiveAt map i d ∧ d.physicalStart ≤ x ∧ x < d.physicalStart + d.numberOfPages * 4096
  dead : ∀ d ∈ map, d.skipped = true → d.physicalStart = gone
  done : ∀ i j d e, i < s → LiveAt map i d → LiveAt map j e → i ≠ j → ¬ Adjacent d e

theorem skipped_eq_false : d.skipped = false ↔ d.type = .conventionalMemory ∧ d.physicalStart ≠ gone := by
  simp [Descriptor.skipped]

/-- No segment of whole pages begins at `(uint64)-1`. -/
theorem Descriptor.Fits.not_gone (h : d.Fits) : d.physicalStart ≠ gone := by
  have := h.aligned
  have hgone : gone = 2 ^ 64 - 1 := rfl
  omega

theorem Joined.memory (h : Joined U map s) (hd : LiveAt map i d) :
    ∀ x, d.physicalStart ≤ x → x < d.physicalStart + d.numberOfPages * 4096 → x ∈ U :=
  fun x hlo hhi => (h.cover x).2 ⟨i, d, hd, hlo, hhi⟩

/-- The live entries after a join: the joined one is at `s`, and that at `c` is gone. -/
theorem liveAt_join (hs : LiveAt map s seg) (hc : map[c]? = some cmp) (hsc : s ≠ c)
    (hjoin : (join seg cmp).skipped = false) :
    LiveAt ((map.set s (join seg cmp)).set c { cmp with physicalStart := gone }) i d ↔
      i = s ∧ d = join seg cmp ∨ i ≠ s ∧ i ≠ c ∧ LiveAt map i d := by
  have hslt := (List.getElem?_eq_some_iff.1 hs.1).1
  have hclt := (List.getElem?_eq_some_iff.1 hc).1
  rw [LiveAt, List.getElem?_set, List.getElem?_set, List.length_set]
  by_cases hic : c = i
  · subst hic
    rw [if_pos rfl, if_pos hclt]
    constructor
    · rintro ⟨he, hlive⟩
      obtain rfl := Option.some.inj he
      exact absurd rfl (skipped_eq_false.1 hlive).2
    · rintro (⟨rfl, -⟩ | ⟨-, hne, -⟩)
      · exact absurd rfl hsc
      · exact absurd rfl hne
  · rw [if_neg hic]
    by_cases his : s = i
    · subst his
      rw [if_pos rfl, if_pos hslt, Option.some.injEq]
      constructor
      · rintro ⟨rfl, -⟩
        exact .inl ⟨rfl, rfl⟩
      · rintro (⟨-, rfl⟩ | ⟨hne, -⟩)
        · exact ⟨rfl, hjoin⟩
        · exact absurd rfl hne
    · rw [if_neg his]
      constructor
      · exact fun h => .inr ⟨fun e => his e.symm, fun e => hic e.symm, h⟩
      · rintro (⟨rfl, -⟩ | ⟨-, -, h⟩)
        · exact absurd rfl his
        · exact h

/-- **A join keeps the invariant.** -/
theorem Joined.merge (hU : NoWrap U) (h : Joined U map s) (hs : LiveAt map s seg) (hc : LiveAt map c cmp)
    (hsc : s < c) (htouch : seg.touches cmp = true) :
    Joined U ((map.set s (join seg cmp)).set c { cmp with physicalStart := gone }) s := by
  obtain ⟨hfits, htype, hspans⟩ := join_spec hU (h.fits s seg hs) (h.fits c cmp hc) (h.memory hs)
    (h.memory hc) htouch
  have hjoin : (join seg cmp).skipped = false :=
    skipped_eq_false.2 ⟨htype.trans (skipped_eq_false.1 hs.2).1, hfits.not_gone⟩
  have hlive := fun i d => liveAt_join (i := i) (d := d) hs hc.1 (by omega) hjoin
  have hold : ∀ j e, j ≠ s → j ≠ c → LiveAt map j e → (join seg cmp).segment.Apart e.segment :=
    fun j e hjs hjc he => hspans.apart (h.fits j e he).pos (h.apart s j seg e hs he hjs.symm)
      (h.apart c j cmp e hc he hjc.symm)
  refine ⟨fun i d hd => ?_, fun i j d e hd he hij => ?_, fun x => ?_, fun d hd hdead => ?_,
    fun i j d e his hd he hij => ?_⟩
  · obtain ⟨-, rfl⟩ | ⟨-, -, hd⟩ := (hlive i d).1 hd
    · exact hfits
    · exact h.fits i d hd
  · obtain ⟨rfl, rfl⟩ | ⟨his, hic, hd⟩ := (hlive i d).1 hd <;>
      obtain ⟨hjs, rfl⟩ | ⟨hjs, hjc, he⟩ := (hlive j e).1 he
    · exact absurd hjs.symm hij
    · exact hold j e hjs hjc he
    · exact (hold i d his hic hd).symm
    · exact h.apart i j d e hd he hij
  · rw [h.cover]
    constructor
    · rintro ⟨i, d, hd, hlo, hhi⟩
      by_cases his : i = s
      · obtain rfl := Option.some.inj ((his ▸ hd.1).symm.trans hs.1)
        exact ⟨s, _, (hlive s _).2 (.inl ⟨rfl, rfl⟩), hspans.mem_iff.2 (.inl ⟨hlo, hhi⟩)⟩
      · by_cases hic : i = c
        · obtain rfl := Option.some.inj ((hic ▸ hd.1).symm.trans hc.1)
          exact ⟨s, _, (hlive s _).2 (.inl ⟨rfl, rfl⟩), hspans.mem_iff.2 (.inr ⟨hlo, hhi⟩)⟩
        · exact ⟨i, d, (hlive i d).2 (.inr ⟨his, hic, hd⟩), hlo, hhi⟩
    · rintro ⟨i, d, hd, hx⟩
      obtain ⟨-, rfl⟩ | ⟨-, -, hd⟩ := (hlive i d).1 hd
      · exact (hspans.mem_iff.1 hx).elim (fun hx => ⟨s, seg, hs, hx⟩) fun hx => ⟨c, cmp, hc, hx⟩
      · exact ⟨i, d, hd, hx⟩
  · obtain hd | rfl := List.mem_or_eq_of_mem_set hd
    · obtain hd | rfl := List.mem_or_eq_of_mem_set hd
      · exact h.dead d hd hdead
      · exact absurd hdead (by simp [hjoin])
    · rfl
  · -- Entries before `s` were adjacent neither to `seg` nor to `cmp`.
    obtain ⟨rfl, -⟩ | ⟨-, hic, hd⟩ := (hlive i d).1 hd
    · omega
    · obtain ⟨-, rfl⟩ | ⟨-, -, he⟩ := (hlive j e).1 he
      · exact hspans.not_adjacent (h.done i s d seg his hd hs (by omega)) (h.done i c d cmp his hd hc hic)
      · exact h.done i j d e his hd he hij

/-- An entry without a neighbour behind it has none. -/
theorem Joined.skip (hU : NoWrap U) (h : Joined U map s) (hnone : joinAt map s = none) :
    Joined U map (s + 1) := by
  refine ⟨h.fits, h.apart, h.cover, h.dead, fun i j d e hi hd he hij => ?_⟩
  by_cases hold : i < s
  · exact h.done i j d e hold hd he hij
  · obtain rfl : i = s := by omega
    by_cases hji : j < i
    · exact fun hadj => h.done j i e d hji he hd hij.symm hadj.symm
    · rw [joinAt, hd.1, Option.bind_eq_bind, Option.bind_some, if_neg (by simp [hd.2])] at hnone
      have hjlt := (List.getElem?_eq_some_iff.1 he.1).1
      have hfind : findAdjacent map i d = none := by
        cases hc : findAdjacent map i d with
        | none => rfl
        | some c =>
          rw [hc, Option.bind_eq_bind, Option.bind_some, Option.bind_eq_none_iff] at hnone
          have hcs := List.find?_some hc
          cases hmc : map[c]? with
          | none => simp [hmc] at hcs
          | some cmp => exact absurd (hnone cmp hmc) (by simp)
      have hj := List.find?_eq_none.1 hfind j (by rw [List.mem_range'_1]; omega)
      rw [he.1] at hj
      simp only [he.2, Bool.not_false, Bool.true_and, Bool.not_eq_true] at hj
      rw [Descriptor.touches, Bool.or_eq_false_iff, beq_eq_false_iff_ne, beq_eq_false_iff_ne] at hj
      have hafter := touches_iff hU (h.fits i d hd) (h.fits j e he) (h.memory hd) (h.memory he)
      have hbefore := touches_iff hU (h.fits j e he) (h.fits i d hd) (h.memory he) (h.memory hd)
      rintro (hadj | hadj)
      · exact hj.1 (hafter.2 hadj)
      · exact hj.2 (hbefore.2 hadj).symm

/-- What a join is. -/
theorem joinAt_eq_some (hjoin : joinAt map s = some map') : ∃ seg c cmp, LiveAt map s seg ∧
    LiveAt map c cmp ∧ s < c ∧ seg.touches cmp = true ∧
    map' = (map.set s (join seg cmp)).set c { cmp with physicalStart := gone } := by
  obtain ⟨seg, hseg, hjoin⟩ := Option.bind_eq_some_iff.1 hjoin
  by_cases hskip : seg.skipped = true
  · rw [if_pos hskip] at hjoin
    exact absurd hjoin (by simp)
  · rw [if_neg hskip] at hjoin
    obtain ⟨c, hc, hjoin⟩ := Option.bind_eq_some_iff.1 hjoin
    obtain ⟨cmp, hcmp, hjoin⟩ := Option.bind_eq_some_iff.1 hjoin
    have hrange := List.mem_range'_1.1 (List.mem_of_find?_eq_some hc)
    have htest := List.find?_some hc
    rw [hcmp] at htest
    simp only [Bool.and_eq_true, Bool.not_eq_true'] at htest
    exact ⟨seg, c, cmp, ⟨hseg, by simpa using hskip⟩, ⟨hcmp, htest.1⟩, by omega, htest.2,
      (Option.some.inj hjoin).symm⟩

/-! ### The loop ends -/

/-- How many entries are live. -/
def liveCount (map : List Descriptor) : Nat := map.countP fun d => !d.skipped

/-- A live entry replaced by another one. -/
theorem liveCount_set (hs : LiveAt map s seg) (hd : d.skipped = false) :
    liveCount (map.set s d) = liveCount map := by
  obtain ⟨hlt, hget⟩ := List.getElem?_eq_some_iff.1 hs.1
  have hpos : 0 < map.countP fun d => !d.skipped :=
    List.countP_pos_iff.2 ⟨seg, List.mem_of_getElem hget, by simp [hs.2]⟩
  rw [liveCount, List.countP_set hlt, hget, hs.2, hd, liveCount]
  exact Nat.sub_add_cancel hpos

/-- A live entry that is gone. -/
theorem liveCount_gone (hs : LiveAt map s seg) (hd : d.skipped = true) :
    liveCount (map.set s d) + 1 = liveCount map := by
  obtain ⟨hlt, hget⟩ := List.getElem?_eq_some_iff.1 hs.1
  have hpos : 0 < map.countP fun d => !d.skipped :=
    List.countP_pos_iff.2 ⟨seg, List.mem_of_getElem hget, by simp [hs.2]⟩
  rw [liveCount, List.countP_set hlt, hget, hs.2, hd, liveCount]
  exact Nat.sub_add_cancel hpos

theorem skipped_gone : ({ d with physicalStart := gone } : Descriptor).skipped = true := by
  simp [Descriptor.skipped]

/-- The index is decremented and incremented again. -/
theorem next_prev (h : s < wordSize) : next (prev s) = s := by
  have hword : wordSize = 2 ^ 64 := rfl
  rw [hword] at h
  unfold next prev
  rw [hword]
  omega

theorem next_eq (h : s + 1 < wordSize) : next s = s + 1 := Nat.mod_eq_of_lt h

/-- **The second loop ends**, and leaves live entries without neighbours. -/
theorem joinLoop_spec (hU : NoWrap U) {n : Nat} (hn : n = liveCount map + (map.length - s))
    (hlen : map.length < wordSize) (hs : s ≤ map.length) (h : Joined U map s) :
    ∃ map', map'.length = map.length ∧ Joined U map' map'.length ∧
      ∀ fuel > n, joinLoop fuel s map = some map' := by
  induction n using Nat.strong_induction_on generalizing map s with
  | _ n ih =>
    by_cases hlt : s < map.length
    · cases hjoin : joinAt map s with
      | some m =>
        obtain ⟨seg, c, cmp, hseg, hcmp, hsc, htouch, rfl⟩ := joinAt_eq_some hjoin
        have hm := h.merge hU hseg hcmp hsc htouch
        obtain ⟨hfits, htype, -⟩ := join_spec hU (h.fits s seg hseg) (h.fits c cmp hcmp) (h.memory hseg)
          (h.memory hcmp) htouch
        have hlive : (join seg cmp).skipped = false :=
          skipped_eq_false.2 ⟨htype.trans (skipped_eq_false.1 hseg.2).1, hfits.not_gone⟩
        have hcmp' : LiveAt (map.set s (join seg cmp)) c cmp := by
          rw [LiveAt, List.getElem?_set_ne hsc.ne]
          exact hcmp
        have hcount := liveCount_gone hcmp' (skipped_gone (d := cmp))
        rw [liveCount_set hseg hlive] at hcount
        obtain ⟨map', hlength, hfinal, hrun⟩ := ih _ (by simp only [List.length_set]; omega) rfl
          (by simpa using hlen) (by simpa using hs) hm
        refine ⟨map', hlength.trans (by simp), hfinal, fun fuel hfuel => ?_⟩
        cases fuel with
        | zero => omega
        | succ fuel =>
          rw [joinLoop, if_pos hlt, hjoin]
          simp only [next_prev (hlt.trans hlen)]
          exact hrun fuel (by simp only [List.length_set]; omega)
      | none =>
        obtain ⟨map', hlength, hfinal, hrun⟩ := ih _ (by omega) rfl hlen hlt (h.skip hU hjoin)
        refine ⟨map', hlength, hfinal, fun fuel hfuel => ?_⟩
        cases fuel with
        | zero => omega
        | succ fuel =>
          rw [joinLoop, if_pos hlt, hjoin]
          simp only [next_eq (Nat.lt_of_le_of_lt hlt hlen)]
          exact hrun fuel (by omega)
    · obtain rfl : s = map.length := by omega
      refine ⟨map, rfl, h, fun fuel hfuel => ?_⟩
      cases fuel with
      | zero => omega
      | succ fuel => rw [joinLoop, if_neg hlt]

/-! ## The third loop -/

/-- The entries behind one that is removed move down. -/
theorem foldl_copyDown (xs ys : List Descriptor) (y : Descriptor) :
    ((List.range' (xs.length + 1) ys.length).foldl copyDown (xs ++ y :: ys)).take (xs.length + ys.length) =
      xs ++ ys := by
  induction ys generalizing xs y with
  | nil => simp
  | cons z zs ih =>
    have hcopy : copyDown (xs ++ y :: z :: zs) (xs.length + 1) = (xs ++ [z]) ++ z :: zs := by
      simp [copyDown]
    have hz := ih (xs ++ [z]) z
    simp only [List.length_append, List.length_singleton, List.append_assoc, List.singleton_append] at hz
    rw [List.length_cons, List.range'_succ, List.foldl_cons, hcopy, ← Nat.add_assoc, Nat.add_right_comm]
    simpa using hz

theorem removeAt_append (xs ys : List Descriptor) (y : Descriptor) :
    removeAt (xs ++ y :: ys) xs.length = xs ++ ys := by
  have hlen : (xs ++ y :: ys).length = xs.length + ys.length + 1 := by simp [Nat.add_assoc]
  rw [removeAt, hlen, Nat.add_sub_cancel, Nat.add_right_comm, Nat.add_sub_cancel_left]
  exact foldl_copyDown xs ys y

/-- **The third loop** leaves the entries that are not gone, in order. -/
theorem removeLoop_spec {xs ys : List Descriptor} (hlen : (xs ++ ys).length < wordSize) {fuel : Nat}
    (hfuel : ys.length < fuel) :
    removeLoop fuel xs.length (xs ++ ys) = some (xs ++ ys.filter fun d => d.physicalStart ≠ gone) := by
  induction ys generalizing xs fuel with
  | nil =>
    cases fuel with
    | zero => exact absurd hfuel (Nat.not_lt_zero _)
    | succ fuel => simp [removeLoop]
  | cons y ys ih =>
    cases fuel with
    | zero => exact absurd hfuel (Nat.not_lt_zero _)
    | succ fuel =>
      have hget : (xs ++ y :: ys)[xs.length]? = some y := by simp
      rw [List.length_append, List.length_cons] at hlen
      rw [List.length_cons] at hfuel
      simp only [removeLoop, hget]
      by_cases hy : y.physicalStart = gone
      · rw [if_neg (by simp [hy]), removeAt_append, next_prev (by omega),
          ih (by rw [List.length_append]; omega) (by omega), List.filter_cons_of_neg (by simp [hy])]
      · have happ : xs ++ y :: ys = (xs ++ [y]) ++ ys := by simp
        have hlength : (xs ++ [y]).length = xs.length + 1 := by simp
        rw [if_pos hy, next_eq (by omega), happ, ← hlength,
          ih (by simp only [List.length_append, List.length_singleton]; omega) (by omega),
          List.filter_cons_of_pos (by simp [hy])]
        simp

/-! ## `CleanupMemMap` -/

/-- After the first loop, the live entries are the usable ones. -/
theorem liveAt_classify (hmap : WellFormed map) : LiveAt (map.map Descriptor.classify) i d ↔
    ∃ a, map[i]? = some a ∧ a.type.usable = true ∧ d = { a with type := .conventionalMemory } := by
  rw [LiveAt, List.getElem?_map]
  cases ha : map[i]? with
  | none => simp
  | some a =>
    have hfits := (hmap.fits a (List.mem_of_getElem? ha)).not_gone
    rw [Option.map_some, Option.some.injEq, Descriptor.classify]
    by_cases husable : a.type.usable = true
    · rw [if_pos husable]
      constructor
      · exact fun h => ⟨a, rfl, husable, h.1.symm⟩
      · rintro ⟨b, hb, -, rfl⟩
        obtain rfl := Option.some.inj hb
        exact ⟨rfl, skipped_eq_false.2 ⟨rfl, hfits⟩⟩
    · rw [if_neg husable]
      constructor
      · rintro ⟨rfl, hlive⟩
        exact absurd (skipped_eq_false.1 hlive).2 (by simp)
      · rintro ⟨b, hb, hbu, -⟩
        obtain rfl := Option.some.inj hb
        exact absurd hbu husable

/-- The invariant of the second loop holds before it. -/
theorem joined_classify (hmap : WellFormed map) :
    Joined (usableMemory map) (map.map Descriptor.classify) 0 := by
  refine ⟨fun i d hd => ?_, fun i j d e hd he hij => ?_, fun x => ?_, fun d hd hdead => ?_,
    fun i j d e hi => absurd hi (Nat.not_lt_zero i)⟩
  · obtain ⟨a, ha, -, rfl⟩ := (liveAt_classify hmap).1 hd
    have hfits := hmap.fits a (List.mem_of_getElem? ha)
    exact ⟨hfits.aligned, hfits.pos, hfits.top⟩
  · obtain ⟨a, ha, -, rfl⟩ := (liveAt_classify hmap).1 hd
    obtain ⟨b, hb, -, rfl⟩ := (liveAt_classify hmap).1 he
    obtain ⟨hilt, rfl⟩ := List.getElem?_eq_some_iff.1 ha
    obtain ⟨hjlt, rfl⟩ := List.getElem?_eq_some_iff.1 hb
    have hapart := List.pairwise_iff_getElem.1 (List.pairwise_map.1 hmap.apart)
    obtain hlt | hlt := Nat.lt_or_gt_of_ne hij
    · exact hapart i j hilt hjlt hlt
    · exact (hapart j i hjlt hilt hlt).symm
  · rw [usableMemory, mem_memoryOf]
    constructor
    · rintro ⟨a, ha, hx⟩
      rw [List.mem_filter] at ha
      obtain ⟨i, hi⟩ := List.mem_iff_getElem?.1 ha.1
      exact ⟨i, _, (liveAt_classify hmap).2 ⟨a, hi, ha.2, rfl⟩, hx⟩
    · rintro ⟨i, d, hd, hx⟩
      obtain ⟨a, ha, husable, rfl⟩ := (liveAt_classify hmap).1 hd
      exact ⟨a, List.mem_filter.2 ⟨List.mem_of_getElem? ha, husable⟩, hx⟩
  · obtain ⟨a, ha, rfl⟩ := List.mem_map.1 hd
    by_cases husable : a.type.usable = true
    · rw [Descriptor.classify, if_pos husable] at hdead
      have hlive := (skipped_eq_false (d := { a with type := .conventionalMemory })).2
        ⟨rfl, (hmap.fits a ha).not_gone⟩
      exact absurd hdead (by simp [hlive])
    · rw [Descriptor.classify, if_neg husable]

/-- **What `CleanupMemMap` leaves of `map`**: conventional segments that do not overlap, have no neighbours
and make up the usable memory. -/
structure Clean (map left : List Descriptor) : Prop where
  conventional : ∀ d ∈ left, d.type = .conventionalMemory ∧ d.Fits
  apart : left.Pairwise fun a b => a.segment.Apart b.segment ∧ ¬ Adjacent a b
  memory : memoryOf left = usableMemory map

/-- The entries that are not gone, once no live one has a neighbour. -/
theorem Joined.clean (h : Joined (usableMemory map) map' map'.length) :
    Clean map (map'.filter fun d => d.physicalStart ≠ gone) := by
  have hlive : ∀ {i d}, map'[i]? = some d → d.physicalStart ≠ gone → LiveAt map' i d := by
    intro i d hd hne
    refine ⟨hd, ?_⟩
    cases hskip : d.skipped with
    | false => rfl
    | true => exact absurd (h.dead d (List.mem_of_getElem? hd) hskip) hne
  have hmem : ∀ {d}, d ∈ map'.filter (fun d => d.physicalStart ≠ gone) ↔ ∃ i, LiveAt map' i d := by
    intro d
    rw [List.mem_filter]
    constructor
    · rintro ⟨hd, hne⟩
      obtain ⟨i, hi⟩ := List.mem_iff_getElem?.1 hd
      exact ⟨i, hlive hi (by simpa using hne)⟩
    · rintro ⟨i, hd⟩
      exact ⟨List.mem_of_getElem? hd.1, by simpa using (skipped_eq_false.1 hd.2).2⟩
  refine ⟨fun d hd => ?_, ?_, ?_⟩
  · obtain ⟨i, hi⟩ := hmem.1 hd
    exact ⟨(skipped_eq_false.1 hi.2).1, h.fits i d hi⟩
  · rw [List.pairwise_filter, List.pairwise_iff_getElem]
    intro i j hi hj hij hnei hnej
    have hdi := hlive (List.getElem?_eq_getElem hi) (by simpa using hnei)
    have hdj := hlive (List.getElem?_eq_getElem hj) (by simpa using hnej)
    exact ⟨h.apart i j _ _ hdi hdj hij.ne, h.done i j _ _ hi hdi hdj hij.ne⟩
  · ext x
    rw [mem_memoryOf, h.cover]
    constructor
    · rintro ⟨d, hd, hx⟩
      obtain ⟨i, hi⟩ := hmem.1 hd
      exact ⟨i, d, hi, hx⟩
    · rintro ⟨i, d, hd, hx⟩
      exact ⟨d, hmem.2 ⟨i, hd⟩, hx⟩

/-- **`CleanupMemMap` ends** with the usable memory in segments without neighbours. -/
theorem cleanupMemMap_spec (hmap : WellFormed map) (hU : NoWrap (usableMemory map)) :
    ∃ left enough, Clean map left ∧ ∀ fuel ≥ enough, cleanupMemMap fuel map = some left := by
  have hlength : (map.map Descriptor.classify).length = map.length := List.length_map _
  obtain ⟨map', hsame, hjoined, hrun⟩ := joinLoop_spec hU rfl (hlength.trans_lt hmap.length)
    (Nat.zero_le _) (joined_classify hmap)
  refine ⟨map'.filter fun d => d.physicalStart ≠ gone,
    liveCount (map.map Descriptor.classify) + map'.length + 1, hjoined.clean, fun fuel hfuel => ?_⟩
  have hremove := @removeLoop_spec [] map' (by simpa [hsame] using hmap.length) fuel (by omega)
  rw [cleanupMemMap, hrun fuel (by rw [← hsame]; omega), Option.bind_eq_bind, Option.bind_some]
  exact hremove

/-! ## `Build` -/

/-- The list at `node` has the segments `ds`, in order; the one before it is `prev`. -/
def Linked (mem : Nat → Nat) : Nat → Nat → List Descriptor → Prop
  | _, node, [] => node = 0
  | prev, node, d :: ds =>
    convertPtr d.physicalStart = node ∧
      bootView.load mem node = some d.physicalStart ∧
      bootView.load mem (node + 8) = some d.numberOfPages ∧
      bootView.load mem (node + 24) = some prev ∧
      ∃ next, bootView.load mem (node + 16) = some next ∧ Linked mem node next ds

/-- A segment whose node the boot loader can reach. -/
structure Reached (d : Descriptor) : Prop where
  aligned : 4096 ∣ d.physicalStart
  low : d.physicalStart < 2 ^ 39

theorem Reached.convertPtr (h : Reached d) : convertPtr d.physicalStart = highMemBase + d.physicalStart := by
  have hbase : highMemBase = 2 ^ 64 - 2 ^ 39 := rfl
  have hlow := h.low
  rw [PhysicalMap.convertPtr, Nat.mod_eq_of_lt (by rw [hbase]; unfold wordSize; omega), Nat.add_comm]

theorem Reached.physical (h : Reached d) {k : Nat} :
    physical (PhysicalMap.convertPtr d.physicalStart + k) = some (d.physicalStart + k) := by
  have hbase : highMemBase = 2 ^ 64 - 2 ^ 39 := rfl
  rw [h.convertPtr, PhysicalMap.physical, if_neg (by omega), if_pos (by omega), Nat.add_assoc,
    Nat.add_sub_cancel_left]

theorem Reached.physical_node (h : Reached d) :
    PhysicalMap.physical (PhysicalMap.convertPtr d.physicalStart) = some d.physicalStart := by
  have hphys := h.physical (k := 0)
  rwa [Nat.add_zero, Nat.add_zero] at hphys

theorem Reached.load (h : Reached d) {mem : Nat → Nat} {k : Nat} :
    bootView.load mem (PhysicalMap.convertPtr d.physicalStart + k) = some (mem (d.physicalStart + k)) := by
  simp [bootView, h.physical]

theorem Reached.store (h : Reached d) {mem : Nat → Nat} {k v : Nat} :
    bootView.store mem (PhysicalMap.convertPtr d.physicalStart + k) v =
      some (Function.update mem (d.physicalStart + k) v) := by
  simp [bootView, h.physical]

theorem Reached.load_node (h : Reached d) {mem : Nat → Nat} :
    bootView.load mem (PhysicalMap.convertPtr d.physicalStart) = some (mem d.physicalStart) := by
  simp [bootView, h.physical_node]

/-- **One node**: its four words, and nothing else. -/
theorem setSegment_spec (h : Reached d) (prev : Nat) (mem : Nat → Nat) :
    ∃ mem', setSegment (convertPtr d.physicalStart) d prev mem = some mem' ∧
      Linked mem' prev (convertPtr d.physicalStart) [d] ∧
      ∀ x, x < d.physicalStart ∨ d.physicalStart + 32 ≤ x → mem' x = mem x := by
  have hbase : ∀ m v, bootView.store m (PhysicalMap.convertPtr d.physicalStart) v =
      some (Function.update m d.physicalStart v) := by
    intro m v
    simp [bootView, h.physical_node]
  have hset : setSegment (PhysicalMap.convertPtr d.physicalStart) d prev mem = some
      (Function.update (Function.update (Function.update (Function.update mem (d.physicalStart + 24) prev)
        d.physicalStart d.physicalStart) (d.physicalStart + 8) d.numberOfPages) (d.physicalStart + 16) 0) := by
    simp only [setSegment, h.store, hbase, Option.bind_eq_bind, Option.bind_some]
  refine ⟨_, hset, ⟨rfl, ?_, ?_, ?_, 0, ?_, rfl⟩, fun x hx => ?_⟩
  · rw [h.load_node, Function.update_of_ne (by omega), Function.update_of_ne (by omega), Function.update_self]
  · rw [h.load, Function.update_of_ne (by omega), Function.update_self]
  · rw [h.load, Function.update_of_ne (by omega), Function.update_of_ne (by omega),
      Function.update_of_ne (by omega), Function.update_self]
  · rw [h.load, Function.update_self]
  · rw [Function.update_of_ne (by omega), Function.update_of_ne (by omega),
      Function.update_of_ne (by omega), Function.update_of_ne (by omega)]

/-- The start of the list has a node if there is a segment. -/
theorem Linked.node_eq {mem : Nat → Nat} {prev node : Nat} {xs : List Descriptor}
    (h : Linked mem prev node (xs ++ [e])) (hreach : ∀ x ∈ xs ++ [e], Reached x) : node ≠ 0 := by
  have hpos : ∀ d, Reached d → convertPtr d.physicalStart ≠ 0 := by
    intro d hd
    have hbase : highMemBase = 2 ^ 64 - 2 ^ 39 := rfl
    rw [hd.convertPtr, hbase]
    omega
  cases xs with
  | nil => exact h.1 ▸ hpos e (hreach e (by simp))
  | cons x xs => exact h.1 ▸ hpos x (hreach x (by simp))

/-- **A node at the end of the list**: the last one is linked to it, and the others stay. -/
theorem Linked.snoc {mem mem' : Nat → Nat} {prev node : Nat} {xs : List Descriptor}
    (h : Linked mem prev node (xs ++ [e])) (hreach : ∀ x ∈ xs ++ [e], Reached x)
    (hothers : ∀ x ∈ xs, ∀ k < 32, mem' (x.physicalStart + k) = mem (x.physicalStart + k))
    (hlast : ∀ k < 32, k ≠ 16 → mem' (e.physicalStart + k) = mem (e.physicalStart + k))
    (hnext : mem' (e.physicalStart + 16) = convertPtr d.physicalStart)
    (hd : Linked mem' (convertPtr e.physicalStart) (convertPtr d.physicalStart) [d]) :
    Linked mem' prev node (xs ++ [e] ++ [d]) := by
  induction xs generalizing prev node with
  | nil =>
    obtain ⟨rfl, hbase, hpages, hprev, -⟩ := h
    have he := hreach e (by simp)
    have hload : ∀ k < 32, k ≠ 16 → bootView.load mem' (convertPtr e.physicalStart + k) =
        bootView.load mem (convertPtr e.physicalStart + k) := by
      intro k hk hk16
      rw [he.load, he.load, hlast k hk hk16]
    have hbase' : bootView.load mem' (convertPtr e.physicalStart) = some e.physicalStart := by
      rw [← hbase, he.load_node, he.load_node]
      exact congrArg some (hlast 0 (by omega) (by omega))
    exact ⟨rfl, hbase', (hload 8 (by omega) (by omega)).trans hpages,
      (hload 24 (by omega) (by omega)).trans hprev, _, he.load.trans (congrArg some hnext), hd⟩
  | cons x xs ih =>
    obtain ⟨rfl, hbase, hpages, hprev, next, hnext', htail⟩ := h
    have hx := hreach x (by simp)
    have hload : ∀ k < 32, bootView.load mem' (convertPtr x.physicalStart + k) =
        bootView.load mem (convertPtr x.physicalStart + k) := by
      intro k hk
      rw [hx.load, hx.load, hothers x List.mem_cons_self k hk]
    have hbase' : bootView.load mem' (convertPtr x.physicalStart) = some x.physicalStart := by
      rw [← hbase, hx.load_node, hx.load_node]
      exact congrArg some (hothers x List.mem_cons_self 0 (by omega))
    have htail' := ih htail (fun y hy => hreach y (List.mem_cons_of_mem _ hy))
      (fun y hy => hothers y (List.mem_cons_of_mem _ hy))
    exact ⟨rfl, hbase', (hload 8 (by omega)).trans hpages, (hload 24 (by omega)).trans hprev, next,
      (hload 16 (by omega)).trans hnext', htail'⟩

/-- Nodes of different segments have no word in common. -/
theorem Reached.apart (hd : Reached d) (he : Reached e) (hne : e.physicalStart ≠ d.physicalStart) {k : Nat}
    (hk : k < 32) : e.physicalStart + k < d.physicalStart ∨ d.physicalStart + 32 ≤ e.physicalStart + k := by
  have hda := hd.aligned
  have hea := he.aligned
  omega

/-- **The invariant of the loop of `Build`**, which began with `mem`: the segments `xs` are linked. -/
structure Linking (mem : Nat → Nat) (list : SegmentList) (xs : List Descriptor) : Prop where
  linked : Linked list.mem 0 list.first xs
  last : ∀ ys e, xs = ys ++ [e] → list.last = convertPtr e.physicalStart
  frame : ∀ x, (∀ d ∈ xs, x < d.physicalStart ∨ d.physicalStart + 32 ≤ x) → list.mem x = mem x

/-- **A node behind the last one**, linked to it. -/
theorem append_node {mem : Nat → Nat} {first : Nat} {ys : List Descriptor}
    (h : Linked mem 0 first (ys ++ [e])) (hd : Reached d) (hreach : ∀ x ∈ ys ++ [e], Reached x)
    (hne : (ys ++ [e] ++ [d]).Pairwise fun a b => a.physicalStart ≠ b.physicalStart) :
    ∃ mem', setSegment (convertPtr d.physicalStart) d (convertPtr e.physicalStart)
        (Function.update mem (e.physicalStart + 16) (convertPtr d.physicalStart)) = some mem' ∧
      Linked mem' 0 first (ys ++ [e] ++ [d]) ∧
      ∀ x, x < d.physicalStart ∨ d.physicalStart + 32 ≤ x → x ≠ e.physicalStart + 16 → mem' x = mem x := by
  obtain ⟨hxs, -, hxd⟩ := List.pairwise_append.1 hne
  have he := hreach e (by simp)
  have hed : e.physicalStart ≠ d.physicalStart := hxd e (by simp) d (by simp)
  obtain ⟨mem', hset, hnode, hframe⟩ := setSegment_spec hd (convertPtr e.physicalStart)
    (Function.update mem (e.physicalStart + 16) (convertPtr d.physicalStart))
  -- Of the words that are not in the new node, only the `next` of the last one changes.
  have hword : ∀ x, x < d.physicalStart ∨ d.physicalStart + 32 ≤ x → x ≠ e.physicalStart + 16 →
      mem' x = mem x := by
    intro x hx hxe
    rw [hframe x hx, Function.update_of_ne hxe]
  refine ⟨mem', hset, h.snoc hreach (fun x hx k hk => ?_) (fun k hk hk16 => ?_) ?_ hnode, hword⟩
  · have hxr := hreach x (List.mem_append_left _ hx)
    have hxe : x.physicalStart ≠ e.physicalStart := (List.pairwise_append.1 hxs).2.2 x hx e (by simp)
    have happ := he.apart hxr hxe hk
    exact hword _ (hd.apart hxr (hxd x (List.mem_append_left _ hx) d (by simp)) hk) (by omega)
  · exact hword _ (hd.apart he hed hk) (by omega)
  · rw [hframe (e.physicalStart + 16) (hd.apart he hed (by omega)), Function.update_self]

theorem link_first {last : Nat} {mem mem' : Nat → Nat} (htype : d.type = .conventionalMemory)
    (hset : setSegment (convertPtr d.physicalStart) d 0 mem = some mem') :
    link ⟨0, last, mem⟩ d = some ⟨convertPtr d.physicalStart, convertPtr d.physicalStart, mem'⟩ := by
  rw [link, if_pos htype]
  dsimp only
  rw [if_pos rfl, hset, Option.bind_eq_bind, Option.bind_some]

theorem link_next {first last : Nat} {mem mem₁ mem' : Nat → Nat} (htype : d.type = .conventionalMemory)
    (hfirst : first ≠ 0) (hstore : bootView.store mem (last + 16) (convertPtr d.physicalStart) = some mem₁)
    (hset : setSegment (convertPtr d.physicalStart) d last mem₁ = some mem') :
    link ⟨first, last, mem⟩ d = some ⟨first, convertPtr d.physicalStart, mem'⟩ := by
  rw [link, if_pos htype]
  dsimp only
  rw [if_neg hfirst, hstore, Option.bind_eq_bind, Option.bind_some, hset, Option.bind_some]

/-- **One segment more.** -/
theorem link_spec {mem : Nat → Nat} {list : SegmentList} {xs : List Descriptor} (h : Linking mem list xs)
    (hd : Reached d) (htype : d.type = .conventionalMemory) (hreach : ∀ x ∈ xs, Reached x)
    (hne : (xs ++ [d]).Pairwise fun a b => a.physicalStart ≠ b.physicalStart) :
    ∃ list', link list d = some list' ∧ Linking mem list' (xs ++ [d]) := by
  obtain ⟨first, last, m⟩ := list
  obtain ⟨hlinked, hlast, hframe⟩ := h
  dsimp only at hlinked hlast hframe
  have hlast' : ∀ zs b, xs ++ [d] = zs ++ [b] → convertPtr d.physicalStart = convertPtr b.physicalStart := by
    intro zs b hzs
    rw [List.singleton_inj.1 (List.append_inj' hzs rfl).2]
  obtain rfl | ⟨ys, e, rfl⟩ := xs.eq_nil_or_concat'
  · rw [Linked] at hlinked
    subst hlinked
    obtain ⟨mem', hset, hnode, hsame⟩ := setSegment_spec hd 0 m
    exact ⟨_, link_first htype hset, hnode, hlast',
      fun x hx => (hsame x (hx d (by simp))).trans (hframe x (by simp))⟩
  · have hfirst := hlinked.node_eq hreach
    obtain ⟨mem', hset, hnode, hsame⟩ := append_node hlinked hd hreach hne
    have hstore : bootView.store m (convertPtr e.physicalStart + 16) (convertPtr d.physicalStart) =
        some (Function.update m (e.physicalStart + 16) (convertPtr d.physicalStart)) :=
      (hreach e (by simp)).store
    rw [← hlast ys e rfl] at hset hstore
    refine ⟨_, link_next htype hfirst hstore hset, hnode, hlast', fun x hx => ?_⟩
    have hxe := hx e (by simp)
    exact (hsame x (hx d (by simp)) (by omega)).trans
      (hframe x fun b hb => hx b (List.mem_append_left _ hb))

/-- **The loop of `Build`** links all segments, in order. -/
theorem foldlM_link {mem : Nat → Nat} {list : SegmentList} {xs ys : List Descriptor}
    (h : Linking mem list xs) (hreach : ∀ x ∈ xs ++ ys, Reached x)
    (htype : ∀ d ∈ ys, d.type = .conventionalMemory)
    (hne : (xs ++ ys).Pairwise fun a b => a.physicalStart ≠ b.physicalStart) :
    ∃ list', ys.foldlM link list = some list' ∧ Linking mem list' (xs ++ ys) := by
  induction ys generalizing xs list with
  | nil => exact ⟨list, rfl, by simpa using h⟩
  | cons d ys ih =>
    have happ : xs ++ d :: ys = (xs ++ [d]) ++ ys := by simp
    rw [happ] at hreach hne
    obtain ⟨list', hlink, h'⟩ := link_spec h (hreach d (by simp)) (htype d List.mem_cons_self)
      (fun x hx => hreach x (by simp [hx])) (List.pairwise_append.1 hne).1
    obtain ⟨final, hfold, hfinal⟩ := ih h' hreach (fun x hx => htype x (List.mem_cons_of_mem _ hx)) hne
    refine ⟨final, ?_, happ ▸ hfinal⟩
    rw [List.foldlM_cons, hlink, Option.bind_eq_bind, Option.bind_some, hfold]

/-- **Boot memory.** `CleanupMemMap` ends and leaves the usable memory in segments that do not overlap and
have no neighbours. `Build` returns the list of these in order, if the boot loader has mapped all of them,
and changes no memory but that of the nodes. -/
theorem build_links_memory (hmap : WellFormed map) (hU : NoWrap (usableMemory map)) :
    ∃ left enough, Clean map left ∧ (∀ fuel ≥ enough, cleanupMemMap fuel map = some left) ∧
      ((∀ x ∈ usableMemory map, x < 2 ^ 39) → ∀ mem, ∃ first mem',
        (∀ fuel ≥ enough, build fuel map mem = some (first, mem')) ∧ Linked mem' 0 first left ∧
          ∀ x, (∀ d ∈ left, x < d.physicalStart ∨ d.physicalStart + 32 ≤ x) → mem' x = mem x) := by
  obtain ⟨left, enough, hclean, hrun⟩ := cleanupMemMap_spec hmap hU
  refine ⟨left, enough, hclean, hrun, fun hlow mem => ?_⟩
  have hreach : ∀ d ∈ left, Reached d := by
    intro d hd
    have hfits := (hclean.conventional d hd).2
    have hpos := hfits.pos
    refine ⟨hfits.aligned, hlow _ ?_⟩
    rw [← hclean.memory, mem_memoryOf]
    exact ⟨d, hd, le_rfl, by omega⟩
  have hne : left.Pairwise fun a b => a.physicalStart ≠ b.physicalStart := by
    refine hclean.apart.imp_of_mem fun {a b} ha hb hab heq => ?_
    have hapos := (hclean.conventional a ha).2.pos
    have hbpos := (hclean.conventional b hb).2.pos
    have hapart := hab.1
    unfold Segment.Apart Descriptor.segment at hapart
    dsimp only at hapart
    omega
  have hstart : Linking mem { first := 0, last := 0, mem := mem } [] :=
    ⟨rfl, fun ys e h => absurd h (by simp), fun _ _ => rfl⟩
  obtain ⟨list, hfold, hlist⟩ := foldlM_link hstart (by simpa using hreach)
    (fun d hd => (hclean.conventional d hd).1) (by simpa using hne)
  rw [List.nil_append] at hlist
  refine ⟨list.first, list.mem, fun fuel hfuel => ?_, hlist.linked, hlist.frame⟩
  rw [build, hrun fuel hfuel, Option.bind_eq_bind, Option.bind_some, hfold, Option.bind_eq_bind,
    Option.bind_some]

/-- Three usable segments in a row and a reserved one, out of order. -/
def fourSegments : List Descriptor :=
  [⟨.conventionalMemory, 8192, 1⟩, ⟨.other 0, 20480, 1⟩, ⟨.bootServicesData, 4096, 1⟩, ⟨.loaderCode, 12288, 2⟩]

/-- The first memory map of a boot. -/
theorem build_links_memory_four : ∃ left enough, Clean fourSegments left ∧
    (∀ fuel ≥ enough, cleanupMemMap fuel fourSegments = some left) ∧
    ∃ first mem', (∀ fuel ≥ enough, build fuel fourSegments (fun _ => 0) = some (first, mem')) ∧
      Linked mem' 0 first left := by
  have hfits : WellFormed fourSegments := by
    refine ⟨?_, ?_, by decide⟩
    · intro d hd
      simp only [fourSegments, List.mem_cons, List.not_mem_nil, or_false] at hd
      obtain rfl | rfl | rfl | rfl := hd <;> exact ⟨by decide, by decide, by decide⟩
    · unfold Segment.Apart
      decide
  have hlow : ∀ x ∈ usableMemory fourSegments, x < 20480 := by
    intro x hx
    obtain ⟨d, hd, -, hlt⟩ := mem_memoryOf.1 hx
    have htop : ∀ d ∈ fourSegments.filter (fun d => d.type.usable),
        d.physicalStart + d.numberOfPages * 4096 ≤ 20480 := by decide
    exact hlt.trans_le (htop d hd)
  have hwrap : NoWrap (usableMemory fourSegments) := by
    intro h
    exact absurd (hlow _ h.2) (by decide)
  obtain ⟨left, enough, hclean, hrun, hbuild⟩ := build_links_memory hfits hwrap
  obtain ⟨first, mem', hrun', hlinked, -⟩ := hbuild (fun x hx => (hlow x hx).trans (by decide)) fun _ => 0
  exact ⟨left, enough, hclean, hrun, first, mem', hrun', hlinked⟩

/-- **What is not mapped is not linked, and an end that wraps joins what is not adjacent.** A segment at
1 TB faults in `Build`; the first and the last page of the address space become one segment that ends
beyond it. -/
theorem build_high_fails :
    (WellFormed [⟨.conventionalMemory, 2 ^ 40, 1⟩] ∧
      ∀ fuel mem, build fuel [⟨.conventionalMemory, 2 ^ 40, 1⟩] mem = none) ∧
    WellFormed [⟨.conventionalMemory, 0, 1⟩, ⟨.conventionalMemory, wordSize - 4096, 1⟩] ∧
      ∃ left, cleanupMemMap 9 [⟨.conventionalMemory, 0, 1⟩, ⟨.conventionalMemory, wordSize - 4096, 1⟩] =
        some left ∧ ¬ Clean [⟨.conventionalMemory, 0, 1⟩, ⟨.conventionalMemory, wordSize - 4096, 1⟩] left := by
  have hword : wordSize = 2 ^ 64 := rfl
  refine ⟨⟨⟨?_, by simp, by decide⟩, fun fuel mem => ?_⟩, ⟨?_, ?_, by decide⟩,
    [⟨.conventionalMemory, wordSize - 4096, 2⟩], by decide +kernel, fun h => ?_⟩
  · intro d hd
    obtain rfl := List.mem_singleton.1 hd
    exact ⟨by decide, by decide, by decide⟩
  · match fuel with
    | 0 => rfl
    | 1 => rfl
    | fuel + 2 => rfl
  · intro d hd
    simp only [List.mem_cons, List.not_mem_nil, or_false] at hd
    obtain rfl | rfl := hd <;> exact ⟨by decide, by decide, by decide⟩
  · unfold Segment.Apart
    decide
  · have htop := (h.conventional _ (List.mem_singleton.2 rfl)).2.top
    exact absurd htop (by decide)

end ChenixOS.PhysicalMap
