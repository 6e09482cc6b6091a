import ChenixOS.Memory.Conservation

/-!
# Unmapping pages

`UnmapProcessPage` clears the entry of a page in its PML1. It looks at no entry on the way: where a
table is missing, it goes on from physical page 0. Where the PML1 is there, the page is no longer
referenced afterwards, and nothing else changes: no frame becomes free.
-/

namespace ChenixOS.MemoryManager

open Radix (walk)

variable {s s' : State} {roots F F' : List Nat} {r t f e virt v : Nat}

/-! ## One page -/

/-- The tables of an address are there. -/
def HasTable (s : State) (r virt : Nat) : Prop :=
  ∃ t, walk (child s.mem) r [getPML3Index virt, getPML2Index virt] = some t

/-- The page of an address is there. -/
def Mapped (s : State) (r virt : Nat) : Prop := ∃ f, walk (child s.mem) r (pathOf virt) = some f

theorem Mapped.hasTable (h : Mapped s r virt) : HasTable s r virt := by
  obtain ⟨f, hf⟩ := h
  obtain ⟨t₂, h₂, hf⟩ := Option.bind_eq_some_iff.1 hf
  obtain ⟨t₁, h₁, hf⟩ := Option.bind_eq_some_iff.1 hf
  exact ⟨t₁, by simp [walk, h₂, h₁]⟩

theorem hasTable_iff_shape {D : Finset (List Nat)} (h : treeShape s.mem r = D) :
    HasTable s r v ↔ [getPML3Index v, getPML2Index v] ∈ D := by
  rw [← h, mem_treeShape, HasTable]
  simp [getPML3Index_lt, getPML2Index_lt]

theorem mapped_iff_shape {D : Finset (List Nat)} (h : treeShape s.mem r = D) :
    Mapped s r v ↔ pathOf v ∈ D := by
  rw [← h, mem_treeShape, Mapped]
  simp [pathOf, getPML3Index_lt, getPML2Index_lt, getPML1Index_lt]

/-- The tables on the path of an address, one after the other. -/
theorem walk_tables (hw : walk (child s.mem) r [getPML3Index virt, getPML2Index virt] = some t) :
    ∃ t₂, child s.mem r (getPML3Index virt) = some t₂ ∧
      child s.mem t₂ (getPML2Index virt) = some t := by
  obtain ⟨t₂, h₂, hw⟩ := Option.bind_eq_some_iff.1 hw
  obtain ⟨t₁, h₁, hw⟩ := Option.bind_eq_some_iff.1 hw
  obtain rfl := Option.some.inj hw
  exact ⟨t₂, h₂, h₁⟩

/-- Reading along the path of an address, the entries are those of its tables. -/
theorem table_addresses (h : Distinct s.mem roots F) (hr : r ∈ roots)
    (hw : walk (child s.mem) r [getPML3Index virt, getPML2Index virt] = some t) :
    ∃ t₂, physToKernelPtr r = highMemBase + r ∧
      pmlGetP (s.entry (highMemBase + r) (getPML3Index virt)) ≠ 0 ∧
      physToKernelPtr (pmlGetAddr (s.entry (highMemBase + r) (getPML3Index virt))) =
        highMemBase + t₂ ∧
      pmlGetP (s.entry (highMemBase + t₂) (getPML2Index virt)) ≠ 0 ∧
      physToKernelPtr (pmlGetAddr (s.entry (highMemBase + t₂) (getPML2Index virt))) =
        highMemBase + t := by
  obtain ⟨t₂, h₂, h₁⟩ := walk_tables hw
  have hi₃ := getPML3Index_lt virt
  have hi₂ := getPML2Index_lt virt
  have hrf := root_frame h hr
  have hw₂ : walk (child s.mem) r [getPML3Index virt] = some t₂ := by simp [walk, h₂]
  have ht₂f := h.frame t₂ (walk_mem_refs hr hw₂ (by simp [hi₃]) (by simp))
  have htf := h.frame t (walk_mem_refs hr hw (by simp [hi₃, hi₂]) (by simp))
  have htop₂ := ht₂f.top
  have htop := htf.top
  refine ⟨t₂, physToKernelPtr_root h hr, ?_, ?_, ?_, ?_⟩
  · rw [Ne, ← child_eq_none_iff hrf hi₃, h₂]
    simp
  · rw [addr_of_child hrf hi₃ h₂, physToKernelPtr_eq (by omega)]
  · rw [Ne, ← child_eq_none_iff ht₂f hi₂, h₁]
    simp
  · rw [addr_of_child ht₂f hi₂ h₁, physToKernelPtr_eq (by omega)]

theorem unmapProcessPage_eq (h : Inv s roots F) (hr : pmlGetAddr e ∈ roots)
    (hw : walk (child s.mem) (pmlGetAddr e) [getPML3Index virt, getPML2Index virt] = some t) :
    unmapProcessPage e virt s = s.setEntry (highMemBase + t) (getPML1Index virt) 0 := by
  obtain ⟨t₂, hroot, -, h₂, -, h₁⟩ := table_addresses h.toDistinct hr hw
  rw [unmapProcessPage]
  simp only [hroot, h₂, h₁]

/-- **A page that was unmapped**: it is no longer referenced, no frame became free. -/
structure Unmapped (s s' : State) (roots F : List Nat) (r virt : Nat) : Prop where
  inv : Inv s' roots F
  refs : (refs s.mem roots).Perm
    (refs s'.mem roots ++ (walk (child s.mem) r (pathOf virt)).toList)
  myPML4 : s'.myPML4 = s.myPML4
  refused : s'.refused = s.refused
  walk : ∀ q, (∀ k ∈ q, k < 512) → q.length ≤ 3 → Radix.walk (child s'.mem) r q =
    if q = pathOf virt then none else Radix.walk (child s.mem) r q
  other : ∀ r' ∈ roots, r' ≠ r → ∀ x ∈ treeTables s.mem r', ∀ j < 512,
    s'.mem (highMemBase + x + 8 * j) = s.mem (highMemBase + x + 8 * j)
  clean : Clean s.mem r → Clean s'.mem r

theorem unmapProcessPage_spec (h : Inv s roots F) (hr : pmlGetAddr e ∈ roots)
    (ht : HasTable s (pmlGetAddr e) virt) :
    Unmapped s (unmapProcessPage e virt s) roots F (pmlGetAddr e) virt := by
  obtain ⟨t, hw⟩ := ht
  rw [unmapProcessPage_eq h hr hw]
  obtain ⟨r, hre⟩ : ∃ r, pmlGetAddr e = r := ⟨_, rfl⟩
  rw [hre] at hr hw ⊢
  have hi := getPML1Index_lt virt
  have hks : ∀ k ∈ [getPML3Index virt, getPML2Index virt], k < 512 := by
    simp [getPML3Index_lt, getPML2Index_lt]
  have htr := walk_mem_refs hr hw hks (by simp)
  have htf := h.frame t htr
  have htable : t ∈ treeTables s.mem r := Radix.mem_tables_of_walk hw hks (by simp)
  obtain ⟨s', hs'⟩ : ∃ s', s' = s.setEntry (highMemBase + t) (getPML1Index virt) 0 := ⟨_, rfl⟩
  have hmem : s'.mem = Function.update s.mem (highMemBase + t + 8 * getPML1Index virt) 0 := by
    rw [hs', mem_setEntry htf hi]
  rw [← hs']
  -- Only one word has changed.
  have hword : ∀ x, Frame x → ∀ j < 512, ¬ (x = t ∧ j = getPML1Index virt) →
      s'.mem (highMemBase + x + 8 * j) = s.mem (highMemBase + x + 8 * j) := by
    intro x hx j hj hne
    rw [hmem, Function.update_of_ne (word_ne hx htf hj hi hne)]
  have hnone : child s'.mem t (getPML1Index virt) = none :=
    child_of_zero (by rw [hmem, Function.update_self])
  have hheight : [getPML3Index virt, getPML2Index virt].length + 1 + 0 = 3 := rfl
  have hnd : (Radix.tables 512 (child s.mem)
      ([getPML3Index virt, getPML2Index virt].length + 1 + 0) r).Nodup := by
    rw [hheight]
    exact h.toDistinct.tables_nodup hr
  have hsame : ∀ x ∈ Radix.tables 512 (child s.mem)
      ([getPML3Index virt, getPML2Index virt].length + 1 + 0) r, ∀ j < 512,
      ¬ (x = t ∧ j = getPML1Index virt) → child s'.mem x j = child s.mem x j := by
    rw [hheight]
    exact fun x hx j hj hne => child_congr (hword x (h.frame x (tables_mem hr hx)) j hj hne)
  have hother : ∀ r' ∈ roots, r' ≠ r → ∀ x ∈ treeTables s.mem r', ∀ j < 512,
      s'.mem (highMemBase + x + 8 * j) = s.mem (highMemBase + x + 8 * j) := by
    intro r' hr' hne x hx j hj
    refine hword x (h.frame x (tables_mem hr' hx)) j hj ?_
    rintro ⟨rfl, -⟩
    exact h.toDistinct.tables_apart hr' hr hne x hx htable
  have hrefs : (refs s.mem roots).Perm
      (refs s'.mem roots ++ (walk (child s.mem) r (pathOf virt)).toList) := by
    have hp := Radix.collect_change (m := 0) hnd hw hks hi hsame fun x => [x]
    rw [hheight, hnone, Option.elim_none, List.append_nil] at hp
    have hlost : (child s.mem t (getPML1Index virt)).elim []
        (Radix.collect 512 (child s.mem) (fun x => [x]) 0) =
        (walk (child s.mem) r (pathOf virt)).toList := by
      rw [walk_pathOf hw]
      cases child s.mem t (getPML1Index virt) <;> rfl
    rw [hlost] at hp
    have hall := refs_change (X := []) (Y := (walk (child s.mem) r (pathOf virt)).toList)
      h.toDistinct.roots_nodup hr (fun r' hr' hne => tree_congr (hother r' hr' hne))
      (by rw [List.append_nil]; exact hp)
    rw [List.append_nil] at hall
    exact hall.symm
  have hpool : Pool s' F := by
    refine h.pool.congr (hs' ▸ State.sameButMem_store _ _ _) fun a ha => ?_
    rw [hmem, Function.update_of_ne]
    rintro rfl
    exact not_mem_pages htf hi h.pool.frame (h.not_mem_free htr) ha
  have htables : ∀ x ∈ treeTables s'.mem r, x ∈ treeTables s.mem r := by
    have hp := Radix.collect_change (m := 0) hnd hw hks hi hsame fun _ => []
    rw [hheight, hnone, Option.elim_none, List.append_nil] at hp
    exact fun x hx => hp.mem_iff.1 (List.mem_append_left _ hx)
  refine ⟨⟨⟨?_, ?_⟩, hpool⟩, hrefs, by rw [hs', myPML4_setEntry], by rw [hs', refused_setEntry], ?_,
    hother, ?_⟩
  · have hp := hrefs.append_left F
    rw [← List.append_assoc] at hp
    exact (List.nodup_append.1 (hp.nodup_iff.1 h.nodup)).1
  · intro x hx
    exact h.frame x (hrefs.mem_iff.2 (List.mem_append_left _ hx))
  · intro q hq hlen
    rw [Radix.walk_change (m := 0) hnd hw hks hsame hq (by rw [hheight]; exact hlen), hnone]
    by_cases hpre : [getPML3Index virt, getPML2Index virt] ++ [getPML1Index virt] <+: q
    · have hqe : q = pathOf virt := (hpre.eq_of_length_le hlen).symm
      rw [if_pos hpre, if_pos hqe]
      rfl
    · rw [if_neg hpre, if_neg]
      rintro rfl
      exact hpre (List.prefix_refl _)
  · intro hclean x hx j hj hc
    by_cases hxj : x = t ∧ j = getPML1Index virt
    · rw [hxj.1, hxj.2, hmem, Function.update_self]
    · have hx' := htables x hx
      have hsame' := hword x (h.frame x (tables_mem hr hx')) j hj hxj
      rw [child_congr hsame'] at hc
      rw [hsame', hclean x hx' j hj hc]

/-! ## Pages of a call -/

/-- The pages that a call gets to: it stops at the first that is no user address. -/
def visited (base : Nat) : Nat → Nat → List Nat
  | 0, _ => []
  | count + 1, i =>
    if isUserPtr ((base + i * 4096) % wordSize) then
      (base + i * 4096) % wordSize :: visited base count (i + 1)
    else []

/-- The pages that `syscall_alloc` or `syscall_free` works on. -/
def callPages (base numPages : Nat) : List Nat :=
  if base &&& 1 ≠ 0 then [] else visited base numPages 0

theorem forPages_eq (body : Nat → State → Option State) (base count i : Nat) (s : State) :
    (forPages body base count i s).map Prod.snd =
      (visited base count i).foldlM (fun s v => body v s) s := by
  induction count generalizing i s with
  | zero => rfl
  | succ count ih =>
    rw [forPages, visited]
    by_cases hu : isUserPtr ((base + i * 4096) % wordSize)
    · rw [if_pos hu, if_pos hu, List.foldlM_cons]
      cases hb : body ((base + i * 4096) % wordSize) s with
      | none => rfl
      | some s' =>
        simp only [Option.bind_eq_bind, Option.bind_some]
        exact ih (i + 1) s'
    · rw [if_neg hu, if_neg hu]
      rfl

/-- A call is its body on one page after the other. -/
theorem pageCall_eq (body : Nat → State → Option State) (base numPages : Nat) (s : State) :
    (pageCall body base numPages s).map Prod.snd =
      (callPages base numPages).foldlM (fun s v => body v s) s := by
  rw [pageCall, callPages]
  by_cases hb : base &&& 1 ≠ 0
  · rw [if_pos hb, if_pos hb]
    rfl
  · rw [if_neg hb, if_neg hb]
    exact forPages_eq body base numPages 0 s

theorem mapProcessPage_refused_le {p : Nat} (h : mapProcessPage e virt s = some (p, s')) :
    s.refused ≤ s'.refused := by
  obtain ⟨⟨pml1, s₁⟩, h₁, h⟩ := Option.bind_eq_some_iff.1 h
  refine (pml1For_refused_le h₁).trans ?_
  dsimp only at h
  split at h
  · obtain ⟨⟨phys, s₂⟩, hal, h⟩ := Option.bind_eq_some_iff.1 h
    obtain ⟨-, rfl⟩ := Prod.mk.inj (Option.some.inj h)
    rw [refused_setEntry]
    exact allocatePages_refused_le hal
  · obtain ⟨-, rfl⟩ := Prod.mk.inj (Option.some.inj h)
    exact le_rfl

theorem foldlM_map_refused_le {vs : List Nat}
    (h : vs.foldlM (fun s v => (mapProcessPage (s.myPML4 0) v s).map Prod.snd) s = some s') :
    s.refused ≤ s'.refused := by
  induction vs generalizing s with
  | nil =>
    obtain rfl := Option.some.inj h
    exact le_rfl
  | cons v vs ih =>
    obtain ⟨s₁, h₁, h⟩ := Option.bind_eq_some_iff.1 h
    obtain ⟨⟨p, s₁⟩, hmap, rfl⟩ := Option.map_eq_some_iff.1 h₁
    exact (mapProcessPage_refused_le hmap).trans (ih h)

/-- **What `syscall_alloc` does** to the tree at `r`: pages that were mapped stay, and a page that
is new is a frame that was free, with the contents it had. -/
structure Allocated (s s' : State) (roots F : List Nat) (r : Nat) (vs : List Nat) : Prop where
  grew : ∃ F', Inv s' roots F' ∧ Grew s s' roots F F' r
  shape : treeShape s'.mem r = vs.foldl withPath (treeShape s.mem r)
  kept : ∀ q, (∀ k ∈ q, k < 512) → q.length = 3 → ∀ f, walk (child s.mem) r q = some f →
    walk (child s'.mem) r q = some f
  fresh : ∀ q, (∀ k ∈ q, k < 512) → q.length = 3 → walk (child s.mem) r q = none →
    ∀ f, walk (child s'.mem) r q = some f → f ∈ F ∧ ∀ j, 4 ≤ j → j < 512 →
      s'.mem (highMemBase + f + 8 * j) = s.mem (highMemBase + f + 8 * j)

theorem Allocated.refl (h : Inv s roots F) : Allocated s s roots F r [] := by
  refine ⟨⟨F, h, .refl _ _ _ _⟩, rfl, fun _ _ _ _ hf => hf, fun q _ _ hnone f hf => ?_⟩
  rw [hnone] at hf
  exact absurd hf (by simp)

/-- One page, then the others. -/
theorem Allocated.cons {s₁ : State} {F₁ vs : List Nat} (h : Inv s₁ roots F₁) (hr : r ∈ roots)
    (hg : Grew s s₁ roots F F₁ r)
    (hshape : treeShape s₁.mem r = withPath (treeShape s.mem r) v)
    (hwalk : ∀ q, (∀ k ∈ q, k < 512) → q.length = 3 → walk (child s₁.mem) r q =
      if q = pathOf v then some f else walk (child s.mem) r q)
    (hf : walk (child s.mem) r (pathOf v) = some f ∨
      walk (child s.mem) r (pathOf v) = none ∧ f ∈ F ∧ f ∉ F₁ ∧ ∀ j, 4 ≤ j → j < 512 →
        s₁.mem (highMemBase + f + 8 * j) = s.mem (highMemBase + f + 8 * j))
    (hrest : Allocated s₁ s' roots F₁ r vs) : Allocated s s' roots F r (v :: vs) := by
  obtain ⟨F', hinv', hg'⟩ := hrest.grew
  refine ⟨⟨F', hinv', hg.trans hg'⟩, by rw [hrest.shape, hshape, List.foldl_cons], ?_, ?_⟩
  · intro q hq hlen g hgq
    refine hrest.kept q hq hlen g ?_
    rw [hwalk q hq hlen]
    split
    · rename_i hqv
      rw [hqv] at hgq
      rcases hf with hf | ⟨hf, -⟩
      · rw [← hf, hgq]
      · rw [hf] at hgq
        exact absurd hgq (by simp)
    · exact hgq
  · intro q hq hlen hnone g hgq
    by_cases hqv : q = pathOf v
    · have hq₁ := hwalk q hq hlen
      rw [if_pos hqv] at hq₁
      have hgf := hrest.kept q hq hlen f hq₁
      rw [hgq, Option.some.injEq] at hgf
      subst hgf
      rw [hqv] at hnone
      rcases hf with hf | ⟨-, hgF, hgF₁, hwords⟩
      · rw [hf] at hnone
        exact absurd hnone (by simp)
      · -- The page stays as it is while further pages are mapped: it is no table.
        have hgr := walk_mem_refs hr hq₁ hq hlen.le
        have hleaf : g ∉ treeTables s₁.mem r :=
          Radix.leaf_not_mem_tables (h.toDistinct.tree_nodup hr) hq₁ hq hlen
        refine ⟨hgF, fun j h4 hj => ?_⟩
        rw [hg'.other g (h.frame g hgr) hgF₁ hleaf j hj, hwords j h4 hj]
    · have hq₁ := hwalk q hq hlen
      rw [if_neg hqv, hnone] at hq₁
      obtain ⟨hgF₁, hwords⟩ := hrest.fresh q hq hlen hq₁ g hgq
      exact ⟨hg.sub g hgF₁, fun j h4 hj => (hwords j h4 hj).trans (hg.rest g hgF₁ j h4 hj)⟩

/-- **The pages of `syscall_alloc`**, one after the other. -/
theorem foldlM_map_spec (h : Inv s roots F) (hr : pmlGetAddr (s.myPML4 0) ∈ roots)
    (vs : List Nat) :
    Attempt (Short s F (pmlGetAddr (s.myPML4 0))
        (vs.foldl withPath (treeShape s.mem (pmlGetAddr (s.myPML4 0))))) s
      (vs.foldlM (fun s v => (mapProcessPage (s.myPML4 0) v s).map Prod.snd) s) fun s' =>
        Allocated s s' roots F (pmlGetAddr (s.myPML4 0)) vs := by
  induction vs generalizing s F with
  | nil => exact .inr ⟨s, rfl, rfl, .refl h⟩
  | cons v vs ih =>
    have hmono : ∀ (vs : List Nat) (D : Finset (List Nat)), D ⊆ vs.foldl withPath D := by
      intro vs
      induction vs with
      | nil => exact fun D => Finset.Subset.refl D
      | cons v vs ih => exact fun D => (subset_withPath D v).trans (ih _)
    rw [List.foldlM_cons, List.foldl_cons]
    rcases mapProcessPage_spec h hr v
      with ⟨hshort, hbad⟩ | ⟨f, s₁, F₁, hrun, hinv, hgrew, hshape, hwalk, hf⟩
    · refine .inl ⟨hshort.mono (hmono vs _), fun s' hs' => ?_⟩
      obtain ⟨s₁, h₁, hs'⟩ := Option.bind_eq_some_iff.1 hs'
      obtain ⟨⟨p, s₁⟩, hmap, rfl⟩ := Option.map_eq_some_iff.1 h₁
      exact (hbad p s₁ hmap).trans_le (foldlM_map_refused_le hs')
    · rw [hrun]
      have hpml4 := hgrew.myPML4
      have hrest := ih hinv (by rw [hpml4]; exact hr)
      rw [hpml4, hshape] at hrest
      simp only [Option.map_some, Option.bind_eq_bind, Option.bind_some]
      rcases hrest with ⟨hshort, hbad⟩ | ⟨s', hrun', href, hall⟩
      · exact .inl ⟨hgrew.short hshort, fun s' hs' => hgrew.refused ▸ hbad s' hs'⟩
      · exact .inr ⟨s', hrun', href.trans hgrew.refused, hall.cons hinv hr hgrew hshape hwalk hf⟩

theorem Unmapped.hasTable (h : Unmapped s s' roots F r virt) (ht : HasTable s r v) :
    HasTable s' r v := by
  obtain ⟨t, hw⟩ := ht
  refine ⟨t, ?_⟩
  rw [h.walk _ (by simp [getPML3Index_lt, getPML2Index_lt]) (by simp), if_neg (by simp [pathOf])]
  exact hw

theorem Unmapped.mapped_iff (h : Unmapped s s' roots F r virt) (hv : ¬ Mapped s r virt) :
    Mapped s' r v ↔ Mapped s r v := by
  unfold Mapped
  rw [h.walk _ (pathOf_lt v) (by simp [pathOf])]
  split
  · rename_i heq
    rw [heq]
    exact iff_of_false (by simp) hv
  · exact Iff.rfl

/-- **The pages of `syscall_free`**, one after the other, where their tables are there: the frames
of those that were mapped are lost, neither free nor referenced. -/
theorem foldlM_unmap_spec (h : Inv s roots F) (hr : pmlGetAddr (s.myPML4 0) ∈ roots)
    (vs : List Nat) (ht : ∀ v ∈ vs, HasTable s (pmlGetAddr (s.myPML4 0)) v) :
    ∃ s' lost, vs.foldlM (fun s v => some (unmapProcessPage (s.myPML4 0) v s)) s = some s' ∧
      Inv s' roots F ∧ (refs s.mem roots).Perm (refs s'.mem roots ++ lost) ∧
      s'.myPML4 = s.myPML4 ∧ s'.refused = s.refused ∧
      (lost = [] ↔ ∀ v ∈ vs, ¬ Mapped s (pmlGetAddr (s.myPML4 0)) v) := by
  induction vs generalizing s with
  | nil => exact ⟨s, [], rfl, h, by simp, rfl, rfl, by simp⟩
  | cons v vs ih =>
    have hun := unmapProcessPage_spec h hr (ht v (by simp))
    have hpml4 := hun.myPML4
    obtain ⟨s', lost, hrun, hinv, hperm, hpml4', href, hlost⟩ := ih hun.inv (by rw [hpml4]; exact hr)
      (by rw [hpml4]; exact fun v' hv' => hun.hasTable (ht v' (List.mem_cons_of_mem _ hv')))
    rw [hpml4] at hlost
    refine ⟨s', lost ++ (walk (child s.mem) (pmlGetAddr (s.myPML4 0)) (pathOf v)).toList, ?_, hinv,
      ?_, hpml4'.trans hpml4, href.trans hun.refused, ?_⟩
    · rw [List.foldlM_cons]
      exact hrun
    · rw [← List.append_assoc]
      exact hun.refs.trans (hperm.append_right _)
    · by_cases hm : Mapped s (pmlGetAddr (s.myPML4 0)) v
      · obtain ⟨f, hf⟩ := id hm
        simp [hf, hm]
      · have hnone : walk (child s.mem) (pmlGetAddr (s.myPML4 0)) (pathOf v) = none := by
          rw [Option.eq_none_iff_forall_ne_some]
          exact fun f hf => hm ⟨f, hf⟩
        rw [hnone, Option.toList_none, List.append_nil, hlost]
        simp only [hun.mapped_iff hm, List.mem_cons, forall_eq_or_imp, hm, not_false_eq_true,
          true_and]

/-! ## Runs of calls -/

/-- What processes do to their own memory, and the switch from one to another. -/
inductive Call
  | alloc (base numPages : Nat)
  | free (base numPages : Nat)
  | «switch» (pml4Entry : Nat)

namespace Call

def run : Call → State → Option State
  | alloc base numPages, s => (syscallAlloc base numPages s).map Prod.snd
  | free base numPages, s => (syscallFree base numPages s).map Prod.snd
  | «switch» e, s => some (switchProcessMap e s)

/-- A call by a process that is live, or a switch to one. A page that is freed has its PML1. -/
def Allowed : Call → World → Prop
  | alloc _ _, w => w.state.myPML4 0 ∈ w.maps
  | free base numPages, w => w.state.myPML4 0 ∈ w.maps ∧
      ∀ v ∈ callPages base numPages, HasTable w.state (pmlGetAddr (w.state.myPML4 0)) v
  | «switch» e, w => e ∈ w.maps

/-- The call frees no page that is mapped. -/
def Idle : Call → World → Prop
  | alloc _ _, _ => True
  | free base numPages, w =>
      ∀ v ∈ callPages base numPages, ¬ Mapped w.state (pmlGetAddr (w.state.myPML4 0)) v
  | «switch» _, _ => True

end Call

/-- A call whose requests for pages are all satisfied. -/
structure CallStep (w : World) (call : Call) (w' : World) : Prop where
  allowed : call.Allowed w
  maps : w'.maps = w.maps
  run : call.run w.state = some w'.state
  served : w'.state.refused = w.state.refused

/-- A run of calls, with the state before each. -/
inductive CallRun : World → List (World × Call) → World → Prop
  | nil (w : World) : CallRun w [] w
  | snoc {w w' w'' : World} {calls : List (World × Call)} {call : Call} :
      CallRun w calls w' → CallStep w' call w'' → CallRun w (calls ++ [(w', call)]) w''

/-- A call makes no frames, and it loses some just when it frees a page that is mapped. -/
theorem CallStep.frames {w w' : World} {call : Call} (h : w.Holds F) (hstep : CallStep w call w') :
    ∃ F' lost, w'.Holds F' ∧ (w.frames F).Perm (w'.frames F' ++ lost) ∧
      (lost = [] ↔ call.Idle w) := by
  obtain ⟨s', maps'⟩ := w'
  obtain rfl : maps' = w.maps := hstep.maps
  have hrun := hstep.run
  have hserved := hstep.served
  have hallowed := hstep.allowed
  cases call with
  | alloc base numPages =>
    have hr : pmlGetAddr (w.state.myPML4 0) ∈ w.pml3s := List.mem_map_of_mem hallowed
    rw [Call.run, syscallAlloc, pageCall_eq] at hrun
    rcases foldlM_map_spec h hr (callPages base numPages)
      with ⟨-, hbad⟩ | ⟨s₁, hrun₁, -, hall⟩
    · have := hbad s' hrun
      dsimp only at hserved
      omega
    · rw [hrun] at hrun₁
      obtain rfl := Option.some.inj hrun₁
      obtain ⟨F', hinv, hgrew⟩ := hall.grew
      refine ⟨F', [], hinv, ?_, by simp [Call.Idle]⟩
      rw [List.append_nil]
      exact hgrew.perm.symm
  | free base numPages =>
    have hr : pmlGetAddr (w.state.myPML4 0) ∈ w.pml3s := List.mem_map_of_mem hallowed.1
    rw [Call.run, syscallFree, pageCall_eq] at hrun
    obtain ⟨s₁, lost, hrun₁, hinv, hperm, -, -, hlost⟩ :=
      foldlM_unmap_spec h hr (callPages base numPages) hallowed.2
    rw [hrun] at hrun₁
    obtain rfl := Option.some.inj hrun₁
    refine ⟨F, lost, hinv, ?_, hlost⟩
    exact (hperm.append_left F).trans (by rw [← List.append_assoc]; exact .refl _)
  | «switch» e =>
    obtain rfl := Option.some.inj hrun
    refine ⟨F, [], ⟨⟨h.nodup, h.frame⟩, h.pool.nodup, h.pool.frame, h.pool.list⟩, ?_,
      by simp [Call.Idle]⟩
    rw [List.append_nil]
    exact .refl _

/-- **Alloc and free conserve frames exactly as long as nothing is freed.** In every run of
`syscall_alloc` and `syscall_free`, by any of the live processes and with every request for a page
satisfied, the invariant of page tables holds, and the number of frames that are free or referenced
is the one from the start if and only if no call freed a page that was mapped. -/
theorem alloc_free_conserve_iff {w w' : World} {calls : List (World × Call)} {F : List Nat}
    (hstart : w.Holds F) (hrun : CallRun w calls w') :
    ∃ F', w'.Holds F' ∧ (w'.frames F').length ≤ (w.frames F).length ∧
      ((w'.frames F').length = (w.frames F).length ↔ ∀ c ∈ calls, c.2.Idle c.1) := by
  induction hrun with
  | nil => exact ⟨F, hstart, le_rfl, by simp⟩
  | snoc _ hstep ih =>
    obtain ⟨F₁, h₁, hle, hiff⟩ := ih
    obtain ⟨F₂, lost, h₂, hperm, hlost⟩ := hstep.frames h₁
    have hlen := hperm.length_eq
    rw [List.length_append] at hlen
    have hzero : lost = [] ↔ lost.length = 0 := List.length_eq_zero_iff.symm
    refine ⟨F₂, h₂, by omega, ?_⟩
    simp only [List.mem_append, List.mem_singleton, or_imp, forall_and, forall_eq]
    rw [← hiff, ← hlost, hzero]
    omega

/-! ## A page allocated and freed -/

/-- Switching changes neither page tables nor the pool. -/
theorem World.Holds.switch {maps : List Nat} (h : World.Holds ⟨s, maps⟩ F) :
    World.Holds ⟨switchProcessMap e s, maps⟩ F :=
  ⟨⟨h.nodup, h.frame⟩, h.pool.nodup, h.pool.frame, h.pool.list⟩

theorem myPML4_switch (e : Nat) (s : State) : (switchProcessMap e s).myPML4 0 = e := by
  simp [switchProcessMap]

/-- A machine with `n + 1` free frames on which one process was started. -/
theorem boot_process {n : Nat} (hle : n + 1 < 2 ^ 27) (rest : Nat → Nat) : ∃ e s F,
    Step ⟨boot (n + 1) rest, []⟩ .create ⟨s, [e]⟩ ∧
    Step ⟨s, [e]⟩ (.switch e) ⟨switchProcessMap e s, [e]⟩ ∧ World.Holds ⟨s, [e]⟩ F ∧
    (∀ x ∈ F, x ∈ bootFrames (n + 1)) ∧ F.length = n ∧
    treeShape (switchProcessMap e s).mem (pmlGetAddr ((switchProcessMap e s).myPML4 0)) = ∅ := by
  have hstart := boot_holds (n := n + 1) (by omega) hle rest
  have hlen₀ : (bootFrames (n + 1)).length = n + 1 := by simp [bootFrames]
  rcases createProcessMap_made hstart with ⟨hF, -⟩ | ⟨f, F, s, hrun, hmade, hlen, hempty⟩
  · rw [hF] at hlen₀
    exact absurd hlen₀ (by simp)
  · have hf := hstart.pool.frame f hmade.root
    have hinv : Inv s [pmlGetAddr (userEntry f)] F := by
      rw [userEntry_names.addr f hf]
      exact hmade.inv
    refine ⟨userEntry f, s, F, ⟨trivial, by rw [Op.apply, hrun]; rfl, hmade.refused⟩,
      ⟨List.mem_singleton.2 rfl, rfl, rfl⟩, hinv, hmade.sub, by omega, ?_⟩
    rw [myPML4_switch, userEntry_names.addr f hf]
    exact treeShape_of_empty hempty

/-- A process that has just been started allocates its page 0. -/
theorem CallStep.first_page {maps : List Nat} (h : World.Holds ⟨s, maps⟩ F)
    (hlive : s.myPML4 0 ∈ maps) (hlen : F.length = 3)
    (hshape : treeShape s.mem (pmlGetAddr (s.myPML4 0)) = ∅) :
    ∃ s', CallStep ⟨s, maps⟩ (.alloc 0 1) ⟨s', maps⟩ ∧ s'.myPML4 = s.myPML4 ∧
      Allocated s s' (World.pml3s ⟨s, maps⟩) F (pmlGetAddr (s.myPML4 0)) [0] ∧
      Mapped s' (pmlGetAddr (s.myPML4 0)) 0 := by
  have hr : pmlGetAddr (s.myPML4 0) ∈ World.pml3s ⟨s, maps⟩ := List.mem_map_of_mem hlive
  have hpages : callPages 0 1 = [0] := by decide
  have hspec := foldlM_map_spec h hr (callPages 0 1)
  rw [hpages] at hspec
  rcases hspec with ⟨hshort, -⟩ | ⟨s', hrun', href, hall⟩
  · have hcard : (List.foldl withPath (∅ : Finset (List Nat)) [0]).card = 3 := by decide
    rw [Short, hshape, hcard] at hshort
    simp [hlen] at hshort
  · obtain ⟨F', hinv, hgrew⟩ := hall.grew
    have hshape' := hall.shape
    rw [hshape] at hshape'
    refine ⟨s', ⟨hlive, rfl, ?_, href⟩, hgrew.myPML4, hall,
      (mapped_iff_shape hshape').2 (by decide)⟩
    rw [Call.run, syscallAlloc, pageCall_eq, hpages]
    exact hrun'

/-- Allocating a page on a machine with four frames loses none. -/
theorem alloc_free_conserve_iff_boot : ∃ w w' F F', w.Holds F ∧ w'.Holds F' ∧
    CallRun w [(w, .alloc 0 1)] w' ∧ (w'.frames F').length = (w.frames F).length := by
  obtain ⟨e, s, F, -, -, hholds, -, hlen, hshape⟩ := boot_process (n := 3) (by omega) fun _ => 0
  obtain ⟨s', hstep, -⟩ := CallStep.first_page (hholds.switch (e := e)) (by simp [myPML4_switch])
    hlen hshape
  have hrun : CallRun _ [(_, .alloc 0 1)] _ := .snoc (.nil _) hstep
  obtain ⟨F', hholds', -, hiff⟩ := alloc_free_conserve_iff hholds.switch hrun
  exact ⟨_, _, F, F', hholds.switch, hholds', hrun, hiff.2 (by simp [Call.Idle])⟩

/-- **A page that is allocated and freed is lost**: on a machine with four frames, fewer are free or
referenced afterwards. -/
theorem alloc_free_loses_frame : ∃ w w₁ w₂ F F₂, w.Holds F ∧ w₂.Holds F₂ ∧
    CallRun w [(w, .alloc 0 1), (w₁, .free 0 1)] w₂ ∧
    (w₂.frames F₂).length < (w.frames F).length := by
  obtain ⟨e, s, F, -, -, hholds₀, -, hlen, hshape⟩ := boot_process (n := 3) (by omega) fun _ => 0
  have hholds := hholds₀.switch (e := e)
  have hmem : (switchProcessMap e s).myPML4 0 ∈ [e] := by simp [myPML4_switch]
  obtain ⟨s₁, hstep, hpml4, -, hmapped⟩ := CallStep.first_page hholds hmem hlen hshape
  rw [← hpml4] at hmapped hmem
  obtain ⟨F₁, lost₁, hholds₁, hperm₁, -⟩ := hstep.frames hholds
  have hpages : callPages 0 1 = [0] := by decide
  have htables : ∀ v ∈ callPages 0 1, HasTable s₁ (pmlGetAddr (s₁.myPML4 0)) v := by
    rw [hpages]
    simpa using hmapped.hasTable
  obtain ⟨s₂, -, hrun₂, -, -, -, href₂, -⟩ :=
    foldlM_unmap_spec hholds₁ (List.mem_map_of_mem hmem) (callPages 0 1) htables
  have hstep₂ : CallStep ⟨s₁, [e]⟩ (.free 0 1) ⟨s₂, [e]⟩ := by
    refine ⟨⟨hmem, htables⟩, rfl, ?_, href₂⟩
    rw [Call.run, syscallFree, pageCall_eq]
    exact hrun₂
  obtain ⟨F₂, lost₂, hholds₂, hperm₂, hlost₂⟩ := hstep₂.frames hholds₁
  refine ⟨_, _, _, F, F₂, hholds, hholds₂, .snoc (.snoc (.nil _) hstep) hstep₂, ?_⟩
  have hne : lost₂ ≠ [] := by
    rw [Ne, hlost₂, Call.Idle, hpages]
    simpa using hmapped
  have := List.length_pos_iff.2 hne
  have h₁ := hperm₁.length_eq
  have h₂ := hperm₂.length_eq
  rw [List.length_append] at h₁ h₂
  omega

end ChenixOS.MemoryManager
