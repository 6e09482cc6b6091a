import ChenixOS.Memory.Unmapping

/-!
# Mapping one page

`MapProcessPage` may have to make two tables on the way to the page that is asked for. They come
from the pool, and are cleared before an entry names them, so a new table leads to no page: of all
pages of all processes, only the one that is mapped is seen to change.
-/

namespace ChenixOS.MemoryManager

open Radix (walk)

variable {s s' : State} {roots F F' : List Nat} {r r' x f e virt u v : Nat}

/-! ## Pages -/

/-- The frame at which the tree at `r` has the page of an address. -/
def frameOf (s : State) (r v : Nat) : Option Nat := walk (child s.mem) r (pathOf v)

/-- The 4096 bytes of a frame are as they were. -/
def SameFrame (s s' : State) (f : Nat) : Prop :=
  ∀ j < 512, s'.mem (highMemBase + f + 8 * j) = s.mem (highMemBase + f + 8 * j)

/-- Two addresses below one entry of a PML4 have one path just when they lie in one page. -/
theorem pathOf_eq_iff (huv : u / 2 ^ 39 = v / 2 ^ 39) :
    pathOf u = pathOf v ↔ u / 4096 = v / 4096 := by
  have hmask : (0x1FF : Nat) = 2 ^ 9 - 1 := by decide
  simp only [pathOf, getPML1Index, getPML2Index, getPML3Index, hmask, Nat.and_two_pow_sub_one_eq_mod,
    Nat.shiftRight_eq_div_pow, List.cons.injEq, and_true]
  omega

theorem frameOf_mem_refs (hr : r ∈ roots) (hx : frameOf s r v = some x) : x ∈ refs s.mem roots :=
  walk_mem_refs hr hx (pathOf_lt v) (by simp [pathOf])

/-- A tree that has grown leaves the pages of all trees as they were. -/
theorem Grew.sameFrame (h : Inv s roots F) (hg : Grew s s' roots F F' r) (hr : r ∈ roots)
    (hr' : r' ∈ roots) (hx : frameOf s r' v = some x) : SameFrame s s' x := by
  intro j hj
  have hxr := frameOf_mem_refs hr' hx
  exact hg.other x (h.frame x hxr) (h.not_mem_free hxr)
    (h.toDistinct.page_not_mem_tables hr' hr hx (pathOf_lt v) rfl) j hj

/-- The other trees map what they mapped. -/
theorem Grew.frameOf_other (h : Inv s roots F) (hg : Grew s s' roots F F' r) (hr : r ∈ roots)
    (hr' : r' ∈ roots) (hne : r' ≠ r) (v : Nat) : frameOf s' r' v = frameOf s r' v :=
  Radix.walk_congr (fun y hy j hj => child_congr (hg.same_other h hr hr' hne y hy j hj))
    (pathOf_lt v) (by simp [pathOf])

/-! ## A page that is mapped already -/

theorem tableBelow_of_present {newEntry : Nat → Nat} {table i : Nat}
    (hp : pmlGetP (s.entry table i) ≠ 0) :
    tableBelow newEntry table i s = some (physToKernelPtr (pmlGetAddr (s.entry table i)), s) := by
  rw [tableBelow, if_neg hp]

/-- **Mapping a page again** only looks up its frame. -/
theorem mapProcessPage_of_mapped (h : Inv s roots F) (hr : pmlGetAddr e ∈ roots)
    (hx : frameOf s (pmlGetAddr e) virt = some x) :
    mapProcessPage e virt s = some (physToKernelPtr x, s) := by
  have hmapped : Mapped s (pmlGetAddr e) virt := ⟨x, hx⟩
  obtain ⟨t, hw⟩ := hmapped.hasTable
  obtain ⟨t₂, hroot, hp₃, h₂, hp₂, h₁⟩ := table_addresses h.toDistinct hr hw
  have hi := getPML1Index_lt virt
  have htf := h.frame t (walk_mem_refs hr hw (by simp [getPML3Index_lt, getPML2Index_lt]) (by simp))
  rw [frameOf, walk_pathOf hw] at hx
  have hp₁ : pmlGetP (s.entry (highMemBase + t) (getPML1Index virt)) ≠ 0 := by
    rw [Ne, ← child_eq_none_iff htf hi, hx]
    simp
  have hpml1 : pml1For userEntry (highMemBase + pmlGetAddr e) virt s =
      some (highMemBase + t, s) := by
    rw [pml1For, tableBelow_of_present hp₃, h₂]
    simp only [Option.bind_eq_bind, Option.bind_some]
    rw [tableBelow_of_present hp₂, h₁]
  rw [mapProcessPage, hroot, hpml1]
  simp only [Option.bind_eq_bind, Option.bind_some, hp₁, if_false, addr_of_child htf hi hx]

/-! ## The page that is mapped, and the others -/

/-- **Mapping a page affects only that page.** Where as many frames are free as are missing on the
path of the address, `MapProcessPage` returns the kernel address of a frame `f`, and afterwards

* the page is `f`; every other page of this tree, and all pages of the other trees, are the frames
  that they were;
* the contents of all pages that were mapped are as they were;
* if the page was mapped, `f` is its frame and nothing has changed;
* if it was not, `f` was free and is now referenced by one entry alone;
* a second call returns the same address and changes nothing. -/
theorem mapProcessPage_affects_page (h : Inv s roots F) (hr : pmlGetAddr e ∈ roots)
    (henough : ¬ Short s F (pmlGetAddr e) (withPath (treeShape s.mem (pmlGetAddr e)) virt)) :
    ∃ f s' F', mapProcessPage e virt s = some (physToKernelPtr f, s') ∧ Inv s' roots F' ∧
      frameOf s' (pmlGetAddr e) virt = some f ∧
      (∀ r ∈ roots, ∀ u, ¬ (r = pmlGetAddr e ∧ pathOf u = pathOf virt) →
        frameOf s' r u = frameOf s r u) ∧
      (∀ r ∈ roots, ∀ u x, frameOf s r u = some x → SameFrame s s' x) ∧
      (∀ x, frameOf s (pmlGetAddr e) virt = some x → f = x ∧ s' = s) ∧
      (frameOf s (pmlGetAddr e) virt = none → f ∈ F ∧ (refs s'.mem roots).count f = 1) ∧
      mapProcessPage e virt s' = some (physToKernelPtr f, s') := by
  rcases mapProcessPage_spec h hr virt
    with ⟨hshort, -⟩ | ⟨f, s', F', hrun, hinv, hgrew, -, hwalk, hf⟩
  · exact absurd hshort henough
  · have hpage : frameOf s' (pmlGetAddr e) virt = some f := by
      rw [frameOf, hwalk _ (pathOf_lt virt) rfl, if_pos rfl]
    have hfr := frameOf_mem_refs hr hpage
    have hptr : physToKernelPtr f = highMemBase + f := by
      have := (hinv.frame f hfr).top
      exact physToKernelPtr_eq (by omega)
    refine ⟨f, s', F', by rw [hrun, hptr], hinv, hpage, ?_, ?_, ?_, ?_, ?_⟩
    · intro r hr' u hne
      by_cases hre : r = pmlGetAddr e
      · subst hre
        rw [frameOf, hwalk _ (pathOf_lt u) rfl, if_neg fun hu => hne ⟨rfl, hu⟩, frameOf]
      · exact hgrew.frameOf_other h hr hr' hre u
    · exact fun r hr' u x hx => hgrew.sameFrame h hr hr' hx
    · intro x hx
      have hsame := mapProcessPage_of_mapped h hr hx
      rw [hrun, Option.some.injEq, Prod.mk.injEq] at hsame
      refine ⟨?_, hsame.2⟩
      rw [hsame.2, hx, Option.some.injEq] at hpage
      exact hpage.symm
    · intro hnone
      rcases hf with hf | ⟨-, hfF, -⟩
      · rw [frameOf, hf] at hnone
        exact absurd hnone (by simp)
      · exact ⟨hfF, List.count_eq_one_of_mem (List.nodup_append.1 hinv.nodup).2.1 hfr⟩
    · exact mapProcessPage_of_mapped hinv hr hpage

/-- A process that has just been started maps its page 0. -/
theorem mapProcessPage_affects_page_boot : ∃ e s F f s',
    Inv s [pmlGetAddr e] F ∧ mapProcessPage e 0 s = some (physToKernelPtr f, s') ∧ f ∈ F ∧
    (refs s'.mem [pmlGetAddr e]).count f = 1 ∧
    mapProcessPage e 0 s' = some (physToKernelPtr f, s') := by
  obtain ⟨e, s, F, -, -, hholds, -, hlen, hshape⟩ := boot_process (n := 3) (by omega) fun _ => 0
  have h : Inv (switchProcessMap e s) [pmlGetAddr e] F := hholds.switch
  rw [myPML4_switch] at hshape
  have henough : ¬ Short (switchProcessMap e s) F (pmlGetAddr e)
      (withPath (treeShape (switchProcessMap e s).mem (pmlGetAddr e)) 0) := by
    have hcard : (withPath (∅ : Finset (List Nat)) 0).card = 3 := by decide
    rw [Short, hshape, hcard]
    simp [hlen]
  obtain ⟨f, s', F', hrun, -, -, -, -, -, hnew, hagain⟩ :=
    mapProcessPage_affects_page h (by simp) henough
  have hnone : frameOf (switchProcessMap e s) (pmlGetAddr e) 0 = none := by
    rw [frameOf, Option.eq_none_iff_forall_ne_some]
    intro x hx
    have hmapped : Mapped (switchProcessMap e s) (pmlGetAddr e) 0 := ⟨x, hx⟩
    rw [mapped_iff_shape hshape] at hmapped
    exact absurd hmapped (by simp)
  exact ⟨e, _, F, f, s', h, hrun, (hnew hnone).1, (hnew hnone).2, hagain⟩

end ChenixOS.MemoryManager
