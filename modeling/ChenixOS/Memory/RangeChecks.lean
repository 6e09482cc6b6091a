import ChenixOS.Memory.FreeCalls

/-!
# The checks of `syscall_alloc` and `syscall_free`

Both calls begin with `if((uint64)base & 0xFFF != 0)`. In C the comparison comes first, so that the
base is masked with 1: an address that is not aligned is turned away when it is odd, and otherwise
the call goes on with the pages that the addresses `base + i * 4096` lie in.
-/

namespace ChenixOS.MemoryManager

open Radix (walk)

variable {s s' : State} {roots F vs : List Nat} {r u v base numPages i count : Nat}
  {body : Nat → State → Option State} {o : Outcome}

/-! ## What the calls should do -/

/-- Every page of the range is a user address, and the range does not wrap around. -/
def UserRange (base numPages : Nat) : Prop :=
  base + numPages * 4096 ≤ wordSize ∧ ∀ i < numPages, isUserPtr (base + i * 4096)

/-- The address `v` lies in a page of the range. -/
def InRange (base numPages v : Nat) : Prop := ∃ i < numPages, pathOf v = pathOf (base + i * 4096)

/-- `syscall_alloc` turns away a base that is not aligned; of a range of user addresses it maps
exactly the pages, in addition to those that were mapped. -/
structure AllocRight (s : State) (base numPages : Nat) : Prop where
  rejected : base % 4096 ≠ 0 → syscallAlloc base numPages s = some (.addressNotPageAligned, s)
  mapped : base % 4096 = 0 → UserRange base numPages →
    ∃ s', syscallAlloc base numPages s = some (.ok, s') ∧ ∀ v,
      (∀ x, frameOf s (pmlGetAddr (s.myPML4 0)) v = some x →
        frameOf s' (pmlGetAddr (s.myPML4 0)) v = some x) ∧
      (Mapped s' (pmlGetAddr (s.myPML4 0)) v ↔
        Mapped s (pmlGetAddr (s.myPML4 0)) v ∨ InRange base numPages v)

/-- `syscall_free` turns away a base that is not aligned; of a range of user addresses it unmaps
exactly the pages. -/
structure FreeRight (s : State) (base numPages : Nat) : Prop where
  rejected : base % 4096 ≠ 0 → syscallFree base numPages s = some (.addressNotPageAligned, s)
  unmapped : base % 4096 = 0 → UserRange base numPages →
    ∃ s', syscallFree base numPages s = some (.ok, s') ∧ ∀ v,
      (InRange base numPages v → frameOf s' (pmlGetAddr (s.myPML4 0)) v = none) ∧
      (¬ InRange base numPages v → frameOf s' (pmlGetAddr (s.myPML4 0)) v =
        frameOf s (pmlGetAddr (s.myPML4 0)) v)

/-! ## The check -/

theorem forPages_ne_rejected (body : Nat → State → Option State) (base count i : Nat) (s s' : State) :
    forPages body base count i s ≠ some (.addressNotPageAligned, s') := by
  induction count generalizing i s with
  | zero => simp [forPages]
  | succ count ih =>
    rw [forPages]
    split
    · rw [Ne, Option.bind_eq_bind, Option.bind_eq_some_iff]
      rintro ⟨s₁, -, h⟩
      exact ih _ _ h
    · simp

theorem and_one (base : Nat) : base &&& 1 = base % 2 := Nat.and_one_is_mod base

/-- A call is turned away exactly when its base is odd. -/
theorem pageCall_rejected_iff :
    pageCall body base numPages s = some (.addressNotPageAligned, s) ↔ base % 2 = 1 := by
  rw [pageCall, and_one]
  rcases Nat.mod_two_eq_zero_or_one base with h | h
  · rw [h, if_neg (by simp)]
    exact iff_of_false (forPages_ne_rejected body base numPages 0 s s) (by omega)
  · rw [h, if_pos (by simp)]
    exact iff_of_true rfl rfl

theorem even_of_aligned (h : base % 4096 = 0) : base % 2 = 0 := by omega

/-! ## The pages of a range -/

theorem UserRange.addr (h : UserRange base numPages) (hi : i < numPages) :
    (base + i * 4096) % wordSize = base + i * 4096 := by
  have := h.1
  exact Nat.mod_eq_of_lt (by omega)

/-- The loop over a range of user addresses gets to its end. -/
theorem forPages_of_user (h : ∀ j, i ≤ j → j < i + count →
    isUserPtr ((base + j * 4096) % wordSize)) : forPages body base count i s =
      ((visited base count i).foldlM (fun s v => body v s) s).map fun s => (Outcome.ok, s) := by
  induction count generalizing i s with
  | zero => rfl
  | succ count ih =>
    have hu := h i le_rfl (by omega)
    rw [forPages, visited, if_pos hu, if_pos hu, List.foldlM_cons]
    cases hb : body ((base + i * 4096) % wordSize) s with
    | none => rfl
    | some s' =>
      simp only [Option.bind_eq_bind, Option.bind_some]
      exact ih fun j hj hlt => h j (by omega) (by omega)

theorem UserRange.call (h : UserRange base numPages) (ha : base % 4096 = 0) :
    pageCall body base numPages s = ((callPages base numPages).foldlM (fun s v => body v s) s).map
      fun s => (Outcome.ok, s) := by
  have heven : ¬ (base &&& 1 ≠ 0) := by
    rw [and_one, even_of_aligned ha]
    simp
  rw [pageCall, callPages, if_neg heven, if_neg heven]
  refine forPages_of_user fun j _ hj => ?_
  rw [h.addr (by omega)]
  exact h.2 j (by omega)

theorem mem_visited (h : UserRange base numPages) (hi : i + count = numPages) :
    v ∈ visited base count i ↔ ∃ j, i ≤ j ∧ j < numPages ∧ v = base + j * 4096 := by
  induction count generalizing i with
  | zero =>
    simp only [visited, List.not_mem_nil, false_iff]
    rintro ⟨j, hij, hj, -⟩
    omega
  | succ count ih =>
    have haddr := h.addr (i := i) (by omega)
    have hu := h.2 i (by omega)
    rw [visited, haddr, if_pos hu, List.mem_cons, ih (by omega)]
    constructor
    · rintro (rfl | ⟨j, hij, hj, rfl⟩)
      · exact ⟨i, le_rfl, by omega, rfl⟩
      · exact ⟨j, by omega, hj, rfl⟩
    · rintro ⟨j, hij, hj, rfl⟩
      rcases Nat.eq_or_lt_of_le hij with rfl | hlt
      · exact .inl rfl
      · exact .inr ⟨j, hlt, hj, rfl⟩

/-- The pages of a call on a range of user addresses are those of the range. -/
theorem UserRange.inRange_iff (h : UserRange base numPages) (ha : base % 4096 = 0) :
    InRange base numPages v ↔ ∃ u ∈ callPages base numPages, pathOf v = pathOf u := by
  have heven : ¬ (base &&& 1 ≠ 0) := by
    rw [and_one, even_of_aligned ha]
    simp
  rw [callPages, if_neg heven]
  simp only [mem_visited h (Nat.zero_add numPages)]
  constructor
  · rintro ⟨i, hi, hv⟩
    exact ⟨_, ⟨i, Nat.zero_le i, hi, rfl⟩, hv⟩
  · rintro ⟨u, ⟨i, -, hi, rfl⟩, hv⟩
    exact ⟨i, hi, hv⟩

theorem UserRange.outside_iff (h : UserRange base numPages) (ha : base % 4096 = 0) :
    Outside (callPages base numPages) v ↔ ¬ InRange base numPages v := by
  rw [h.inRange_iff ha]
  exact ⟨fun ho ⟨u, hu, huv⟩ => ho u hu huv, fun hn u hu huv => hn ⟨u, hu, huv⟩⟩

/-! ## When the calls are right -/

/-- The pages of a shape to which the paths of some addresses were added. -/
theorem pathOf_mem_foldl_withPath {D : Finset (List Nat)} :
    pathOf v ∈ vs.foldl withPath D ↔ pathOf v ∈ D ∨ ∃ u ∈ vs, pathOf v = pathOf u := by
  induction vs generalizing D with
  | nil => simp
  | cons w vs ih =>
    have hw : pathOf v ∈ withPath D w ↔ pathOf v = pathOf w ∨ pathOf v ∈ D := by
      simp [withPath, withTables, pathOf]
    rw [List.foldl_cons, ih, hw]
    simp only [List.mem_cons, exists_eq_or_imp]
    tauto

/-- As many frames are free as are missing on the paths of the pages of a call. -/
def Enough (s : State) (F : List Nat) (base numPages : Nat) : Prop :=
  ¬ Short s F (pmlGetAddr (s.myPML4 0))
    ((callPages base numPages).foldl withPath (treeShape s.mem (pmlGetAddr (s.myPML4 0))))

theorem AllocRight.aligned_or_odd (h : AllocRight s base numPages) : base % 4096 = 0 ∨ base % 2 = 1 :=
  or_iff_not_imp_left.2 fun ha => pageCall_rejected_iff.1 (h.rejected ha)

theorem FreeRight.aligned_or_odd (h : FreeRight s base numPages) : base % 4096 = 0 ∨ base % 2 = 1 :=
  or_iff_not_imp_left.2 fun ha => pageCall_rejected_iff.1 (h.rejected ha)

section Calls

variable (h : Inv s roots F) (hr : pmlGetAddr (s.myPML4 0) ∈ roots)

include h hr

theorem syscallAlloc_right (hb : base % 4096 = 0 ∨ base % 2 = 1)
    (henough : base % 4096 = 0 → UserRange base numPages → Enough s F base numPages) :
    AllocRight s base numPages := by
  refine ⟨fun ha => pageCall_rejected_iff.2 (hb.resolve_left ha), fun ha hu => ?_⟩
  rcases foldlM_map_spec h hr (callPages base numPages) with ⟨hshort, -⟩ | ⟨s', hrun, -, hall⟩
  · exact absurd hshort (henough ha hu)
  · refine ⟨s', ?_, fun v => ⟨fun x hx => hall.kept _ (pathOf_lt v) rfl x hx, ?_⟩⟩
    · rw [syscallAlloc, hu.call ha, hrun]
      rfl
    · rw [mapped_iff_shape hall.shape, pathOf_mem_foldl_withPath, hu.inRange_iff ha,
        mapped_iff_shape rfl]

theorem syscallFree_right_iff : FreeRight s base numPages ↔ base % 2 = 1 ∨ base % 4096 = 0 ∧
    (UserRange base numPages → AtTurns (callPages base numPages) s fun s₁ v =>
      ¬ HasTable s₁ (pmlGetAddr (s.myPML4 0)) v → ∀ u, ¬ InRange base numPages u →
      Mapped s₁ (pmlGetAddr (s.myPML4 0)) u →
      ¬ Reads s₁ (pmlGetAddr (s.myPML4 0)) u (clearedWord s₁ (s.myPML4 0) v)) := by
  have hd := h.toDistinct
  have hrun : ∀ {base numPages}, UserRange base numPages → base % 4096 = 0 →
      syscallFree base numPages s = some (.ok, unmapPages (callPages base numPages) s) := by
    intro base numPages hu ha
    rw [syscallFree, hu.call ha]
    exact congrArg _ List.foldlM_pure
  constructor
  · intro hright
    rw [or_iff_not_imp_left]
    intro hodd
    have ha := hright.aligned_or_odd.resolve_right hodd
    refine ⟨ha, fun hu => ?_⟩
    obtain ⟨s', hs', hpages⟩ := hright.unmapped ha hu
    rw [hrun hu ha, Option.some.injEq, Prod.mk.injEq] at hs'
    obtain rfl := hs'.2
    simp only [← hu.outside_iff ha]
    exact (unmapPages_kept_iff hd hr).1 fun u ho => (hpages u).2 ((hu.outside_iff ha).1 ho)
  · rintro (hodd | ⟨ha, hturns⟩)
    · exact ⟨fun _ => pageCall_rejected_iff.2 hodd,
        fun ha => absurd (even_of_aligned ha) (by omega)⟩
    · refine ⟨fun hn => absurd ha hn, fun _ hu => ⟨_, hrun hu ha, fun v => ⟨fun hv => ?_, ?_⟩⟩⟩
      · obtain ⟨u, hmem, huv⟩ := (hu.inRange_iff ha).1 hv
        rw [frameOf, huv]
        exact unmapPages_removed hd hr hmem
      · have hkept := hturns hu
        simp only [← hu.outside_iff ha] at hkept ⊢
        exact fun hv => (unmapPages_kept_iff hd hr).2 hkept v hv

end Calls

end ChenixOS.MemoryManager
