import ChenixOS.Memory.Bytes
import ChenixOS.Memory.ForkedPages

/-!
# The bytes of an address space

What the kernel does to an address space that it fills: it maps pages, and stores bytes in the pages that are
mapped. Neither is seen anywhere else; `Confined` is what both have in common, and what every sequence of them has.

**Theorem (`storeByte_mapped`).** A store to a mapped page keeps the invariant of the page tables and changes one
byte of one address space.
-/

namespace ChenixOS.MemoryManager

open Radix (walk)

variable {s s' s'' : State} {roots F F' F'' : List Nat} {r r' x a e f o u v virt : Nat} {w b : UInt8}

/-- The byte at an address, where the tree at `r` has a page for it. -/
def userByte (s : State) (r x : Nat) : Option UInt8 :=
  (frameOf s r x).map fun f => s.byteAt (highMemBase + f + x % 4096)

/-! ## Places -/

/-- The path of an address leaves out the bits that are the index into the PML4, and all above. -/
theorem pathOf_eq_iff_mod : pathOf u = pathOf v ↔ u / 4096 % 2 ^ 27 = v / 4096 % 2 ^ 27 := by
  have hmask : (0x1FF : Nat) = 2 ^ 9 - 1 := by decide
  simp only [pathOf, getPML1Index, getPML2Index, getPML3Index, hmask, Nat.and_two_pow_sub_one_eq_mod,
    Nat.shiftRight_eq_div_pow, List.cons.injEq, and_true]
  omega

/-- Two addresses that name the same byte of an address space. -/
theorem place_eq_iff : pathOf u = pathOf v ∧ u % 4096 = v % 4096 ↔ u % 2 ^ 39 = v % 2 ^ 39 := by
  rw [pathOf_eq_iff_mod]
  omega

/-! ## Bytes of frames -/

theorem SameFrame.byteAt (h : SameFrame s s' f) (hf : Frame f) (ho : o < 4096) :
    s'.byteAt (highMemBase + f + o) = s.byteAt (highMemBase + f + o) := by
  refine State.byteAt_congr ?_
  rw [wordOf_page hf]
  exact h (o / 8) (by omega)

/-- A store to one frame leaves the others as they were. -/
theorem sameFrame_storeByte (hx : Frame x) (hf : Frame f) (ho : o < 4096) (hne : x ≠ f) :
    SameFrame s (s.storeByte (highMemBase + f + o) w) x := fun j hj => by
  rw [State.mem_storeByte]
  rw [wordOf_page hf]
  exact word_ne hx hf hj (by omega) fun h => hne h.1

/-! ## One address space -/

/-- Nothing but the address space at `r` and frames that were free has changed. -/
structure Confined (s s' : State) (F F' : List Nat) (r : Nat) : Prop where
  sub : ∀ x ∈ F', x ∈ F
  myPML4 : s'.myPML4 = s.myPML4
  refused : s'.refused = s.refused
  count : F'.length + (treeShape s'.mem r).card = F.length + (treeShape s.mem r).card
  nodes : ∀ x ∈ tree s'.mem r, x ∈ tree s.mem r ∨ x ∈ F
  other : ∀ x, Frame x → x ∉ F → x ∉ tree s.mem r → SameFrame s s' x

theorem Confined.refl (s : State) (F : List Nat) (r : Nat) : Confined s s F F r :=
  ⟨fun _ h => h, rfl, rfl, rfl, fun _ h => .inl h, fun _ _ _ _ _ _ => rfl⟩

theorem Confined.trans (h₁ : Confined s s' F F' r) (h₂ : Confined s' s'' F' F'' r) : Confined s s'' F F'' r where
  sub x hx := h₁.sub x (h₂.sub x hx)
  myPML4 := h₂.myPML4.trans h₁.myPML4
  refused := h₂.refused.trans h₁.refused
  count := h₂.count.trans h₁.count
  nodes x hx := by
    rcases h₂.nodes x hx with hx | hx
    · exact h₁.nodes x hx
    · exact .inr (h₁.sub x hx)
  other x hx hF ht j hj := by
    have ht' : x ∉ tree s'.mem r := fun hm => (h₁.nodes x hm).elim ht hF
    rw [h₂.other x hx (fun hm => hF (h₁.sub x hm)) ht' j hj, h₁.other x hx hF ht j hj]

/-- A request that was too large before is too large after. -/
theorem Confined.short_iff (h : Confined s s' F F' r) {target : Finset (List Nat)} :
    Short s' F' r target ↔ Short s F r target := by
  rw [Short, Short, h.count]

/-- The other trees are as they were. -/
theorem Confined.tree_other (h : Inv s roots F) (hc : Confined s s' F F' r) (hr : r ∈ roots) (hr' : r' ∈ roots)
    (hne : r' ≠ r) : tree s'.mem r' = tree s.mem r' ∧ ∀ x ∈ tree s.mem r', SameFrame s s' x := by
  have hsame : ∀ x ∈ tree s.mem r', SameFrame s s' x := fun x hx =>
    hc.other x (h.frame x (mem_refs hr' hx)) (h.not_mem_free (mem_refs hr' hx))
      (h.toDistinct.trees_apart hr' hr hne x hx)
  exact ⟨tree_congr fun x hx j hj => hsame x (Radix.tables_sublist.subset hx) j hj, hsame⟩

/-- Pages that are mapped are no change to others. -/
theorem Grew.confined (h : Inv s roots F) (h' : Inv s' roots F') (hg : Grew s s' roots F F' r) (hr : r ∈ roots) :
    Confined s s' F F' r where
  sub := hg.sub
  myPML4 := hg.myPML4
  refused := hg.refused
  count := hg.count
  nodes x hx := by
    have hall := hg.perm.mem_iff.1 (List.mem_append_right F' (mem_refs hr hx))
    rcases List.mem_append.1 hall with hF | hrefs
    · exact .inr hF
    · obtain ⟨r', hr', hx'⟩ := List.mem_flatMap.1 hrefs
      by_cases hne : r' = r
      · exact .inl (hne ▸ hx')
      · -- the frame would be in two trees
        have htree : tree s'.mem r' = tree s.mem r' := tree_congr (hg.same_other h hr hr' hne)
        exact absurd (htree.symm ▸ hx') (h'.toDistinct.trees_apart hr hr' (Ne.symm hne) x hx)
  other x hx hF ht := hg.other x hx hF fun hm => ht (Radix.tables_sublist.subset hm)

theorem Grew.userByte (h : Inv s roots F) (hg : Grew s s' roots F F' r) (hr : r ∈ roots)
    (hf : frameOf s r x = some f) (hf' : frameOf s' r x = some f) : userByte s' r x = userByte s r x := by
  have hsame := hg.sameFrame h hr hr hf
  have hframe := h.frame f (frameOf_mem_refs hr hf)
  rw [MemoryManager.userByte, MemoryManager.userByte, hf, hf', Option.map_some, Option.map_some,
    hsame.byteAt hframe (Nat.mod_lt _ (by decide))]

/-- **A page is mapped**, or there are too few frames for it. -/
theorem mapProcessPage_confined (h : Inv s roots F) (hr : pmlGetAddr e ∈ roots) (virt : Nat) :
    (Short s F (pmlGetAddr e) (withPath (treeShape s.mem (pmlGetAddr e)) virt) ∧
      ∀ p s', mapProcessPage e virt s = some (p, s') → s.refused < s'.refused) ∨
    ∃ f s' F', ¬ Short s F (pmlGetAddr e) (withPath (treeShape s.mem (pmlGetAddr e)) virt) ∧
      mapProcessPage e virt s = some (highMemBase + f, s') ∧ Inv s' roots F' ∧
      Confined s s' F F' (pmlGetAddr e) ∧
      treeShape s'.mem (pmlGetAddr e) = withPath (treeShape s.mem (pmlGetAddr e)) virt ∧
      frameOf s' (pmlGetAddr e) virt = some f ∧
      ∀ x w, userByte s (pmlGetAddr e) x = some w → userByte s' (pmlGetAddr e) x = some w := by
  rcases mapProcessPage_spec h hr virt with hshort | ⟨f, s', F', hrun, hinv, hgrew, hshape, hwalk, hf⟩
  · exact .inl hshort
  · have henough : ¬ Short s F (pmlGetAddr e) (withPath (treeShape s.mem (pmlGetAddr e)) virt) := by
      have hcount := hgrew.count
      rw [hshape] at hcount
      unfold Short
      omega
    have hpage : frameOf s' (pmlGetAddr e) virt = some f := by
      rw [frameOf, hwalk _ (pathOf_lt virt) rfl, if_pos rfl]
    refine .inr ⟨f, s', F', henough, hrun, hinv, hgrew.confined h hinv hr, hshape, hpage, fun x w hx => ?_⟩
    obtain ⟨g, hg, -⟩ := Option.map_eq_some_iff.1 hx
    have hg' : frameOf s' (pmlGetAddr e) x = some g := by
      rw [frameOf, hwalk _ (pathOf_lt x) rfl]
      split
      · -- the page was mapped before
        rename_i hpath
        rw [frameOf, hpath] at hg
        rcases hf with hf | ⟨hnone, -⟩
        · rw [← hf, hg]
        · rw [hnone] at hg
          cases hg
      · exact hg
    rw [hgrew.userByte h hr hg hg', hx]

/-! ## A store to a page -/

/-- **A store to a mapped page.** -/
theorem storeByte_mapped (h : Inv s roots F) (hr : r ∈ roots) (hf : frameOf s r a = some f) (ho : o < 4096) :
    Inv (s.storeByte (highMemBase + f + o) w) roots F ∧
    Confined s (s.storeByte (highMemBase + f + o) w) F F r ∧
    (∀ r' ∈ roots, ∀ x, frameOf (s.storeByte (highMemBase + f + o) w) r' x = frameOf s r' x) ∧
    treeShape (s.storeByte (highMemBase + f + o) w).mem r = treeShape s.mem r ∧
    ∀ x, userByte (s.storeByte (highMemBase + f + o) w) r x =
      if pathOf x = pathOf a ∧ x % 4096 = o then some w else userByte s r x := by
  have hfr := frameOf_mem_refs hr hf
  have hframe := h.frame f hfr
  have hfF := h.not_mem_free hfr
  have hother : ∀ x, Frame x → x ≠ f → SameFrame s (s.storeByte (highMemBase + f + o) w) x := fun x hx hne =>
    sameFrame_storeByte hx hframe ho hne
  have htables : ∀ r' ∈ roots, ∀ x ∈ treeTables s.mem r', SameFrame s (s.storeByte (highMemBase + f + o) w) x :=
    fun r' hr' x hx => hother x (h.frame x (tables_mem hr' hx)) fun hxf =>
      h.toDistinct.page_not_mem_tables hr hr' hf (pathOf_lt a) rfl (hxf ▸ hx)
  have hsame : ∀ r' ∈ roots, ∀ x, frameOf (s.storeByte (highMemBase + f + o) w) r' x = frameOf s r' x :=
    fun r' hr' x => SameTables.frameOf_eq (fun r hr y hy j hj => htables r hr y hy j hj) hr' x
  have hrefs : refs (s.storeByte (highMemBase + f + o) w).mem roots = refs s.mem roots := refs_congr htables
  have hpool : Pool (s.storeByte (highMemBase + f + o) w) F :=
    h.pool.congr (State.sameButMem_storeByte _ _ _) fun b hb => State.mem_storeByte _ fun heq => by
      obtain ⟨g, hg, hlo, hhi⟩ := hb
      rw [wordOf_page hframe] at heq
      have hgf := (h.pool.frame g hg).aligned
      have hff := hframe.aligned
      have hgf' : g = f := by omega
      exact hfF (hgf' ▸ hg)
  refine ⟨⟨⟨by rw [hrefs]; exact h.nodup, by rw [hrefs]; exact h.frame⟩, hpool⟩, ?_, hsame, ?_, fun x => ?_⟩
  · have htree : tree (s.storeByte (highMemBase + f + o) w).mem r = tree s.mem r := tree_congr (htables r hr)
    have hshape : treeShape (s.storeByte (highMemBase + f + o) w).mem r = treeShape s.mem r :=
      treeShape_congr (htables r hr)
    refine ⟨fun _ hx => hx, rfl, rfl, by rw [hshape], fun x hx => .inl (htree ▸ hx), fun x hx _ ht => ?_⟩
    exact hother x hx fun hxf => ht (hxf ▸ Radix.mem_nodes_of_walk hf (pathOf_lt a) (by simp [pathOf]))
  · exact treeShape_congr (htables r hr)
  · rw [userByte, userByte, hsame r hr x]
    cases hx : frameOf s r x with
    | none =>
      have hplace : ¬ (pathOf x = pathOf a ∧ x % 4096 = o) := fun hplace => by
        rw [frameOf, hplace.1, ← frameOf, hf] at hx
        cases hx
      rw [if_neg hplace]
      rfl
    | some g =>
      have hg := h.frame g (frameOf_mem_refs hr hx)
      rw [Option.map_some, Option.map_some, State.byteAt_storeByte]
      by_cases hplace : pathOf x = pathOf a ∧ x % 4096 = o
      · have hgf : g = f := by
          rw [frameOf, hplace.1, ← frameOf, hf] at hx
          exact (Option.some.inj hx).symm
        rw [if_pos hplace, hgf, hplace.2, if_pos rfl]
      · rw [if_neg hplace, if_neg]
        intro heq
        have hga := hg.aligned
        have hfa := hframe.aligned
        have hgf : g = f := by omega
        subst hgf
        refine hplace ⟨?_, by omega⟩
        exact Radix.walk_inj (h.toDistinct.tree_nodup hr) (pathOf_lt x) (pathOf_lt a) (by simp [pathOf])
          (by simp [pathOf]) hx hf

/-! ## A new address space -/

/-- A machine with `n + 1` free frames, one of which has become the PML3 of a process. -/
theorem boot_create {n : Nat} (hle : n + 1 < 2 ^ 27) (rest : Nat → Nat) : ∃ e s F,
    createProcessMap (boot (n + 1) rest) = some (e, s) ∧ Inv s [pmlGetAddr e] F ∧ F.length = n ∧
      treeShape s.mem (pmlGetAddr e) = ∅ := by
  have hstart := boot_holds (n := n + 1) (by omega) hle rest
  have hlen₀ : (bootFrames (n + 1)).length = n + 1 := by simp [bootFrames]
  rcases createProcessMap_made hstart with ⟨hF, -⟩ | ⟨f, F, s, hrun, hmade, hlen, hempty⟩
  · rw [hF] at hlen₀
    exact absurd hlen₀ (by simp)
  · have haddr := userEntry_names.addr f (hstart.pool.frame f hmade.root)
    refine ⟨userEntry f, s, F, hrun, ?_, by omega, ?_⟩
    · rw [haddr]
      exact hmade.inv
    · rw [haddr]
      exact treeShape_of_empty hempty

end ChenixOS.MemoryManager
