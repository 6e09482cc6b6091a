import ChenixOS.Memory.PageTables

/-!
# Mapping pages

What the functions that map pages do to the trees of frames. Each request for a page either finds
the pool empty and is refused, or moves a frame from the pool into the tree that is being extended.
So there are two cases for every function: the pool holds too few frames for what is missing along
the path of the address, and then some request is refused; or the path is completed, and nothing
else changes.
-/

namespace ChenixOS.MemoryManager

open Radix (walk)

variable {s s' : State} {roots F F' ks : List Nat} {r t f i p virt : Nat} {newEntry : Nat → Nat}

/-! ## Refused requests are never forgotten -/

-- Proved by cases, not by `rfl`: as rewriting steps the kernel need not unfold the states.
@[simp] theorem refused_setEntry (s : State) (table i v : Nat) :
    (s.setEntry table i v).refused = s.refused := by
  cases s
  rfl

@[simp] theorem myPML4_setEntry (s : State) (table i v : Nat) :
    (s.setEntry table i v).myPML4 = s.myPML4 := by
  cases s
  rfl

theorem refused_foldl_setEntry (val : State → Nat → Nat) (table : Nat) (is : List Nat) (s : State) :
    (is.foldl (fun s i => s.setEntry table i (val s i)) s).refused = s.refused := by
  induction is generalizing s with
  | nil => rfl
  | cons i is ih => rw [List.foldl_cons, ih, refused_setEntry]

@[simp] theorem refused_clearTable (s : State) (table : Nat) :
    (s.clearTable table).refused = s.refused :=
  refused_foldl_setEntry (fun _ _ => 0) table _ s

@[simp] theorem refused_copyPage (s : State) (dest src : Nat) :
    (s.copyPage dest src).refused = s.refused :=
  refused_foldl_setEntry (fun s i => s.entry src i) dest _ s

theorem allocatePages_refused_le {k : Nat} (h : allocatePages k s = some (p, s')) :
    s.refused ≤ s'.refused := by
  rw [allocatePages, Option.map_eq_some_iff] at h
  obtain ⟨⟨q, l⟩, -, h⟩ := h
  by_cases hq : q = 0
  · rw [if_pos hq, Prod.mk.injEq] at h
    rw [← h.2]
    exact Nat.le_succ _
  · rw [if_neg hq, Prod.mk.injEq] at h
    rw [← h.2]

theorem tableBelow_refused_le (h : tableBelow newEntry t i s = some (p, s')) :
    s.refused ≤ s'.refused := by
  unfold tableBelow at h
  split at h
  · obtain ⟨⟨phys, s₁⟩, hal, h⟩ := Option.bind_eq_some_iff.1 h
    obtain ⟨-, rfl⟩ := Prod.mk.inj (Option.some.inj h)
    simpa using allocatePages_refused_le hal
  · obtain ⟨-, rfl⟩ := Prod.mk.inj (Option.some.inj h)
    exact le_rfl

theorem pml1For_refused_le (h : pml1For newEntry t virt s = some (p, s')) :
    s.refused ≤ s'.refused := by
  obtain ⟨⟨pml2, s₁⟩, h₁, h₂⟩ := Option.bind_eq_some_iff.1 h
  exact (tableBelow_refused_le h₁).trans (tableBelow_refused_le h₂)

theorem mapProcessPageAt_refused_le {e phys : Nat} (h : mapProcessPageAt e phys virt s = some s') :
    s.refused ≤ s'.refused := by
  obtain ⟨⟨pml1, s₁⟩, h₁, h₂⟩ := Option.bind_eq_some_iff.1 h
  obtain rfl := Option.some.inj h₂
  simpa using pml1For_refused_le h₁

/-! ## Indices -/

theorem getPML1Index_lt (virt : Nat) : getPML1Index virt < 512 := by
  unfold getPML1Index
  exact Nat.lt_of_le_of_lt Nat.and_le_right (by decide)

theorem getPML2Index_lt (virt : Nat) : getPML2Index virt < 512 := by
  unfold getPML2Index
  exact Nat.lt_of_le_of_lt Nat.and_le_right (by decide)

theorem getPML3Index_lt (virt : Nat) : getPML3Index virt < 512 := by
  unfold getPML3Index
  exact Nat.lt_of_le_of_lt Nat.and_le_right (by decide)

/-- The path of an address through the tables of a process. -/
def pathOf (virt : Nat) : List Nat := [getPML3Index virt, getPML2Index virt, getPML1Index virt]

theorem pathOf_lt (virt : Nat) : ∀ k ∈ pathOf virt, k < 512 := by
  simp [pathOf, getPML1Index_lt, getPML2Index_lt, getPML3Index_lt]

/-- The physical address at which the hardware finds an address, through all four levels. -/
def translate (s : State) (v : Nat) : Option Nat :=
  if pmlGetP (s.myPML4 (getPML4Index v)) = 0 then none
  else (walk (child s.mem) (pmlGetAddr (s.myPML4 (getPML4Index v))) (pathOf v)).map (· + v % 4096)

/-- A shape with the tables on the path of an address. -/
def withTables (sh : Finset (List Nat)) (virt : Nat) : Finset (List Nat) :=
  insert [getPML3Index virt, getPML2Index virt] (insert [getPML3Index virt] sh)

/-- A shape with the whole path of an address. -/
def withPath (sh : Finset (List Nat)) (virt : Nat) : Finset (List Nat) :=
  insert (pathOf virt) (withTables sh virt)

/-! ## One table -/

/-- An entry is present when it names a frame. -/
theorem child_eq_none_iff (hf : Frame t) (hi : i < 512) :
    child s.mem t i = none ↔ pmlGetP (s.entry (highMemBase + t) i) = 0 := by
  rw [entry_eq hf hi, child]
  split <;> simp_all

theorem addr_of_child (hf : Frame t) (hi : i < 512) (hc : child s.mem t i = some f) :
    pmlGetAddr (s.entry (highMemBase + t) i) = f := by
  rw [entry_eq hf hi]
  rw [child] at hc
  split at hc
  · exact absurd hc (by simp)
  · exact Option.some.inj hc

theorem child_of_entry (hnew : Names newEntry) (hf : Frame f)
    (he : s.mem (highMemBase + t + 8 * i) = newEntry f) : child s.mem t i = some f := by
  rw [child, he, if_neg (hnew.present f hf), hnew.addr f hf]

/-- A frame `f` with any contents, not in use, is named by the entry `i` of the table `t`. -/
theorem fills_of_setEntry {n : Nat} (hnew : Names newEntry) (h : Distinct s.mem roots (f :: F'))
    (hpool : Pool s F') (hf : Frame f) (ht : t ∈ refs s.mem roots) (hi : i < 512)
    (hempty : 0 < n → ∀ j < 512, s.mem (highMemBase + f + 8 * j) = 0) :
    Fills s (s.setEntry (highMemBase + t) i (newEntry f)) F' t i f n := by
  have htf := h.frame t ht
  have htF := h.not_mem_free ht
  have hmem := mem_setEntry (s := s) htf hi (newEntry f)
  have hne : ∀ x, Frame x → ∀ j < 512, ¬ (x = t ∧ j = i) →
      (s.setEntry (highMemBase + t) i (newEntry f)).mem (highMemBase + x + 8 * j) =
        s.mem (highMemBase + x + 8 * j) := by
    intro x hx j hj hne
    rw [hmem, Function.update_of_ne (word_ne hx htf hj hi hne)]
  refine ⟨?_, by simp, by simp, ?_, ?_, fun x hx _ => hne x hx, ?_⟩
  · refine hpool.congr (State.sameButMem_store _ _ _) fun a ha => ?_
    rw [hmem, Function.update_of_ne]
    rintro rfl
    exact not_mem_pages htf hi hpool.frame (fun hx => htF (List.mem_cons_of_mem _ hx)) ha
  · refine child_of_entry hnew hf ?_
    rw [hmem, Function.update_self]
  · intro hn j hj
    rw [hne f hf j hj fun e => htF (by simp [e.1]), hempty hn j hj]
  · intro x hx j _ hj
    exact hne x (hpool.frame x hx) j hj fun e => htF (by simp [← e.1, hx])

/-- A state in which a frame was taken from the pool and something written to it. -/
structure Taken (s s' : State) (F F' : List Nat) (f : Nat) : Prop where
  free : F.Perm (f :: F')
  pool : Pool s' F'
  myPML4 : s'.myPML4 = s.myPML4
  refused : s'.refused = s.refused
  same : ∀ x, Frame x → x ∉ f :: F' → ∀ j < 512,
    s'.mem (highMemBase + x + 8 * j) = s.mem (highMemBase + x + 8 * j)
  rest : ∀ x ∈ F', ∀ j, 4 ≤ j → j < 512 →
    s'.mem (highMemBase + x + 8 * j) = s.mem (highMemBase + x + 8 * j)

/-- Taking a frame and writing to it leaves the pool of the others. -/
theorem Moved.taken {s₁ s₂ : State} (hpool : Pool s F) (hperm : F.Perm (f :: F'))
    (hmoved : Moved s s₁ F') (hrefused : s₁.refused = s.refused)
    (hsame : State.SameButMem s₁ s₂) (hpage : ∀ a, a ∉ pages [f] → s₂.mem a = s₁.mem a) :
    Taken s s₂ F F' f := by
  have hf := hpool.frame f (hperm.mem_iff.2 (by simp))
  have hfF' : f ∉ F' := (List.nodup_cons.1 (hperm.nodup_iff.1 hpool.nodup)).1
  have hframe : ∀ x ∈ F', Frame x := hmoved.pool.frame
  have hword : ∀ x, Frame x → x ≠ f → ∀ j < 512,
      s₂.mem (highMemBase + x + 8 * j) = s₁.mem (highMemBase + x + 8 * j) := by
    intro x hx hxf j hj
    exact hpage _ (not_mem_pages hx hj (by simpa using hf) (by simpa using hxf))
  refine ⟨hperm, ?_, ?_, ?_, ?_, ?_⟩
  · refine hmoved.pool.congr hsame fun a ha => hpage a ?_
    rintro ⟨g, hg, hlo, hhi⟩
    rw [List.mem_singleton] at hg
    subst hg
    obtain ⟨k, hk, hlo', hhi'⟩ := ha
    have := hf.aligned
    have := (hframe k hk).aligned
    have : k ≠ g := by
      rintro rfl
      exact hfF' hk
    omega
  · rw [hsame.myPML4, hmoved.myPML4]
  · rw [hsame.refused, hrefused]
  · intro x hx hxF j hj
    rw [List.mem_cons, not_or] at hxF
    rw [hword x hx hxF.1 j hj, hmoved.frame _ (not_mem_pages hx hj hframe hxF.2)]
  · intro x hx j h4 hj
    rw [hword x (hframe x hx) (fun e => hfF' (e ▸ hx)) j hj, hmoved.words x j (hframe x hx) h4 hj]

/-- Taking a frame changes no tree. -/
theorem Taken.refs_eq (h : Inv s roots F) (ht : Taken s s' F F' f) :
    ∀ r ∈ roots, ∀ x ∈ treeTables s.mem r, ∀ j < 512,
      s'.mem (highMemBase + x + 8 * j) = s.mem (highMemBase + x + 8 * j) := by
  intro r hr x hx j hj
  have hxr := tables_mem hr hx
  exact ht.same x (h.frame x hxr) (fun hm => h.not_mem_free hxr (ht.free.mem_iff.2 hm)) j hj

theorem Taken.distinct (h : Inv s roots F) (ht : Taken s s' F F' f) :
    Distinct s'.mem roots (f :: F') := by
  have hd := h.toDistinct.perm ht.free
  constructor
  · rw [refs_congr (ht.refs_eq h)]
    exact hd.nodup
  · rw [refs_congr (ht.refs_eq h)]
    exact hd.frame

/-- A frame is taken, written to, and named by an empty entry. -/
theorem Taken.fills {s₂ : State} {n : Nat} (ht : Taken s s' F F' f)
    (hfill : Fills s' s₂ F' t i f n) : Fills s s₂ F' t i f n where
  pool := hfill.pool
  myPML4 := hfill.myPML4.trans ht.myPML4
  refused := hfill.refused.trans ht.refused
  entry := hfill.entry
  zero := hfill.zero
  same x hx hxF j hj hne := (hfill.same x hx hxF j hj hne).trans (ht.same x hx hxF j hj)
  rest x hx j h4 hj := (hfill.rest x hx j h4 hj).trans (ht.rest x hx j h4 hj)

theorem tableBelow_of_absent {table phys : Nat} {s₁ : State}
    (hp : pmlGetP (s.entry table i) = 0) (hal : allocatePages 1 s = some (phys, s₁)) :
    tableBelow newEntry table i s = some (physToKernelPtr phys,
      (s₁.clearTable (physToKernelPtr phys)).setEntry table i
        (newEntry (kernelToPhysPtr (physToKernelPtr phys)))) := by
  rw [tableBelow, if_pos hp, hal]
  simp only [Option.bind_eq_bind, Option.bind_some]

theorem physToKernelPtr_zero : physToKernelPtr 0 = highMemBase := by decide

/-- **The table below an entry**: it is there, or made from a free frame, or the request for one is
refused. -/
theorem tableBelow_spec (hnew : Names newEntry) (h : Inv s roots F) (hr : r ∈ roots)
    (hw : walk (child s.mem) r ks = some t) (hks : ∀ k ∈ ks, k < 512) (hlen : ks.length ≤ 1)
    (hi : i < 512) :
    (F = [] ∧ ks ++ [i] ∉ treeShape s.mem r ∧
      ∃ s', tableBelow newEntry (highMemBase + t) i s = some (highMemBase, s') ∧
        s.refused < s'.refused) ∨
    ∃ t' s' F', tableBelow newEntry (highMemBase + t) i s = some (highMemBase + t', s') ∧
      Inv s' roots F' ∧ Grew s s' roots F F' r ∧
      treeShape s'.mem r = insert (ks ++ [i]) (treeShape s.mem r) ∧
      walk (child s'.mem) r (ks ++ [i]) = some t' ∧
      ∀ q, (∀ k ∈ q, k < 512) → q.length = 3 →
        walk (child s'.mem) r q = walk (child s.mem) r q := by
  have ht := walk_mem_refs hr hw hks (by omega)
  have htf := h.frame t ht
  have hq : ∀ k ∈ ks ++ [i], k < 512 := by
    intro k hk
    rcases List.mem_append.1 hk with hk | hk
    · exact hks k hk
    · rw [List.mem_singleton] at hk
      omega
  have hql : (ks ++ [i]).length ≤ 3 := by
    simp only [List.length_append, List.length_cons, List.length_nil]
    omega
  cases hc : child s.mem t i with
  | some t' =>
    right
    have hwalk : walk (child s.mem) r (ks ++ [i]) = some t' := by
      simp [Radix.walk_append, hw, walk, hc]
    have htf' := h.frame t' (walk_mem_refs hr hwalk hq hql)
    have hp : pmlGetP (s.entry (highMemBase + t) i) ≠ 0 := by
      intro e
      rw [(child_eq_none_iff htf hi).2 e] at hc
      exact absurd hc (by simp)
    refine ⟨t', s, F, ?_, h, Grew.refl s roots F r, ?_, hwalk, fun _ _ _ => rfl⟩
    · have := htf'.top
      rw [tableBelow, if_neg hp, addr_of_child htf hi hc, physToKernelPtr_eq (by omega)]
    · rw [Finset.insert_eq_of_mem]
      rw [mem_treeShape]
      exact ⟨⟨by simp, hql, hq⟩, t', hwalk⟩
  | none =>
    have hp := (child_eq_none_iff htf hi).1 hc
    rcases allocatePages_spec h.pool with ⟨hF, hal⟩ | ⟨f, F', s₁, hperm, hal, hmoved, hrefused⟩
    · left
      refine ⟨hF, ?_, ?_⟩
      · rw [mem_treeShape]
        rintro ⟨-, x, hx⟩
        simp [Radix.walk_append, hw, walk, hc] at hx
      · have hres : tableBelow newEntry (highMemBase + t) i s = _ := tableBelow_of_absent hp hal
        rw [physToKernelPtr_zero] at hres
        refine ⟨_, hres, ?_⟩
        rw [refused_setEntry, refused_clearTable]
        exact Nat.lt_succ_self _
    · right
      have hf := h.pool.frame f (hperm.mem_iff.2 (by simp))
      have hft := hf.top
      obtain ⟨hsame, hzero, hpage⟩ := State.clearTable_spec (s := s₁) hf
      have htaken := Moved.taken h.pool hperm hmoved hrefused hsame hpage
      have ht' : t ∈ refs (s₁.clearTable (highMemBase + f)).mem roots := by
        rw [refs_congr (htaken.refs_eq h)]
        exact ht
      have hfill := htaken.fills (fills_of_setEntry (n := 2 - ks.length) hnew (htaken.distinct h)
        htaken.pool hf ht' hi fun _ => hzero)
      have hfilled := (h.toDistinct.perm hperm).fill hr hw hks (by omega) hi hc hfill hf
      refine ⟨f, _, F', ?_, hfilled.inv,
        hfilled.grew hperm hfill (Radix.mem_tables_of_walk hw hks (by omega)), hfilled.shape, ?_, ?_⟩
      · rw [tableBelow_of_absent hp hal, physToKernelPtr_eq (by omega : f < 2 ^ 39),
          kernelToPhysPtr_eq (by omega : f < 2 ^ 39)]
      · rw [hfilled.walk _ hq hql, if_pos (List.prefix_refl _)]
        simp
      · intro q hqlt hqlen
        rw [hfilled.walk q hqlt (by omega)]
        split
        · rename_i hpre
          obtain ⟨rest, rfl⟩ := hpre
          cases rest with
          | nil =>
            simp only [List.append_nil, List.length_append, List.length_cons,
              List.length_nil] at hqlen
            omega
          | cons j rest =>
            have hj : j < 512 := hqlt j (by simp)
            simp [Radix.walk_append, hw, walk, hc, hfill.empty (by omega) j hj]
        · rfl

/-! ## The tables of an address -/

/-- Too few free frames for the paths that are missing in the tree at `r`. -/
def Short (s : State) (F : List Nat) (r : Nat) (target : Finset (List Nat)) : Prop :=
  F.length + (treeShape s.mem r).card < target.card

theorem Grew.short {target : Finset (List Nat)} (h : Grew s s' roots F F' r)
    (hs : Short s' F' r target) : Short s F r target := by
  have := h.count
  unfold Short at hs ⊢
  omega

theorem short_of_nil {q : List Nat} {target : Finset (List Nat)} (hF : F = [])
    (hq : q ∉ treeShape s.mem r) (hsub : insert q (treeShape s.mem r) ⊆ target) :
    Short s F r target := by
  have := Finset.card_le_card hsub
  rw [Finset.card_insert_of_notMem hq] at this
  unfold Short
  rw [hF, List.length_nil]
  omega

/-- **Down to the PML1 of an address**: all tables on its path are there, and no page was mapped
or unmapped. -/
theorem pml1For_spec (hnew : Names newEntry) (h : Inv s roots F) (hr : r ∈ roots) (virt : Nat) :
    (Short s F r (withTables (treeShape s.mem r) virt) ∧
      ∀ p s', pml1For newEntry (highMemBase + r) virt s = some (p, s') →
        s.refused < s'.refused) ∨
    ∃ t s' F', pml1For newEntry (highMemBase + r) virt s = some (highMemBase + t, s') ∧
      Inv s' roots F' ∧ Grew s s' roots F F' r ∧
      treeShape s'.mem r = withTables (treeShape s.mem r) virt ∧
      walk (child s'.mem) r [getPML3Index virt, getPML2Index virt] = some t ∧
      ∀ q, (∀ k ∈ q, k < 512) → q.length = 3 →
        walk (child s'.mem) r q = walk (child s.mem) r q := by
  have hroot : walk (child s.mem) r [] = some r := Radix.walk_nil
  rcases tableBelow_spec hnew h hr hroot (by simp) (by simp) (getPML3Index_lt virt)
    with ⟨hF, hq, s₁, hrun, hlt⟩ | ⟨t₂, s₁, F₁, hrun, hinv₁, hgrew₁, hshape₁, hwalk₁, hleaf₁⟩
  · left
    refine ⟨short_of_nil hF hq (Finset.subset_insert _ _), ?_⟩
    intro p s' hp
    rw [pml1For, hrun] at hp
    exact hlt.trans_le (tableBelow_refused_le hp)
  · rcases tableBelow_spec hnew hinv₁ hr hwalk₁ (by simp [getPML3Index_lt]) (by simp)
        (getPML2Index_lt virt)
      with ⟨hF, hq, s₂, hrun₂, hlt⟩ | ⟨t₁, s₂, F₂, hrun₂, hinv₂, hgrew₂, hshape₂, hwalk₂, hleaf₂⟩
    · left
      refine ⟨hgrew₁.short (short_of_nil hF hq ?_), ?_⟩
      · rw [hshape₁]
        exact Finset.Subset.refl _
      · intro p s' hp
        rw [pml1For, hrun] at hp
        have hp' : tableBelow newEntry (highMemBase + t₂) (getPML2Index virt) s₁ = some (p, s') := hp
        rw [hrun₂, Option.some.injEq, Prod.mk.injEq] at hp'
        rw [← hgrew₁.refused, ← hp'.2]
        exact hlt
    · right
      refine ⟨t₁, s₂, F₂, ?_, hinv₂, hgrew₁.trans hgrew₂, ?_, hwalk₂, ?_⟩
      · rw [pml1For, hrun]
        exact hrun₂
      · rw [hshape₂, hshape₁]
        rfl
      · intro q hq hql
        rw [hleaf₂ q hq hql, hleaf₁ q hq hql]

/-! ## Pages -/

/-- Mapping a given frame: `MapProcessPage` with a physical address, and `MapKernelPage`. -/
def mapAt (newEntry : Nat → Nat) (pml3 phys virt : Nat) (s : State) : Option State :=
  (pml1For newEntry pml3 virt s).map fun r =>
    r.2.setEntry r.1 (getPML1Index virt) (newEntry phys)

theorem mapProcessPageAt_eq (e phys virt : Nat) (s : State) : mapProcessPageAt e phys virt s =
    mapAt userEntry (physToKernelPtr (pmlGetAddr e)) phys virt s := by
  rw [mapProcessPageAt, mapAt]
  cases pml1For userEntry (physToKernelPtr (pmlGetAddr e)) virt s <;> rfl

theorem mapKernelPage_eq (phys virt : Nat) (s : State) : mapKernelPage phys virt s =
    mapAt kernelEntry (physToKernelPtr (pmlGetAddr (s.myPML4 (getPML4Index virt)))) phys virt s := by
  rw [mapKernelPage, mapAt]
  cases pml1For kernelEntry (physToKernelPtr (pmlGetAddr (s.myPML4 (getPML4Index virt)))) virt s
    <;> rfl

theorem Short.mono {target target' : Finset (List Nat)} (h : Short s F r target)
    (hsub : target ⊆ target') : Short s F r target' := by
  have := Finset.card_le_card hsub
  unfold Short at h ⊢
  omega

theorem root_frame (h : Distinct s.mem roots F) (hr : r ∈ roots) : Frame r :=
  h.frame r (root_mem_refs hr)

theorem physToKernelPtr_root (h : Distinct s.mem roots F) (hr : r ∈ roots) :
    physToKernelPtr r = highMemBase + r := by
  have := (root_frame h hr).top
  exact physToKernelPtr_eq (by omega)

/-- A walk along the tables of an address and on to its page. -/
theorem walk_pathOf (hw : walk (child s.mem) r [getPML3Index virt, getPML2Index virt] = some t) :
    walk (child s.mem) r (pathOf virt) = child s.mem t (getPML1Index virt) := by
  have hsplit : pathOf virt = [getPML3Index virt, getPML2Index virt] ++ [getPML1Index virt] := rfl
  rw [hsplit, Radix.walk_append, hw]
  simp [walk]

/-- `Filled.grew` for the entry of a page. -/
theorem grew_of_pathOf {n : Nat} (hperm : F.Perm (f :: F'))
    (hd : Filled s s' roots F' r f (pathOf virt))
    (hfill : Fills s s' F' t (getPML1Index virt) f n) (ht : t ∈ treeTables s.mem r) :
    Grew s s' roots F F' r :=
  have hd : Filled s s' roots F' r f
      ([getPML3Index virt, getPML2Index virt] ++ [getPML1Index virt]) := hd
  hd.grew hperm hfill ht

/-- The walks of the whole height after a page was mapped. -/
theorem walk_page (h : Filled s s' roots F' r f (pathOf virt)) {q : List Nat}
    (hq : ∀ k ∈ q, k < 512) (hql : q.length = 3) : walk (child s'.mem) r q =
      if q = pathOf virt then some f else walk (child s.mem) r q := by
  rw [h.walk q hq (by omega)]
  by_cases e : q = pathOf virt
  · rw [if_pos e, if_pos (e ▸ List.prefix_refl _), e]
    simp
  · rw [if_neg e, if_neg]
    intro hpre
    exact e (hpre.eq_of_length (by rw [hql]; rfl)).symm

/-- **Mapping a frame that is held** at an address without a page. -/
theorem mapAt_spec (hnew : Names newEntry) (h : Inv s roots F) (hr : r ∈ roots)
    (hd : Distinct s.mem roots (f :: F)) (hf : Frame f)
    (hnone : walk (child s.mem) r (pathOf virt) = none) :
    (Short s F r (withTables (treeShape s.mem r) virt) ∧
      ∀ s', mapAt newEntry (highMemBase + r) f virt s = some s' → s.refused < s'.refused) ∨
    ∃ s' F', mapAt newEntry (highMemBase + r) f virt s = some s' ∧
      Inv s' roots F' ∧ Grew s s' roots (f :: F) F' r ∧
      treeShape s'.mem r = withPath (treeShape s.mem r) virt ∧
      (∀ q, (∀ k ∈ q, k < 512) → q.length = 3 → walk (child s'.mem) r q =
        if q = pathOf virt then some f else walk (child s.mem) r q) ∧
      ∀ j < 512, s'.mem (highMemBase + f + 8 * j) = s.mem (highMemBase + f + 8 * j) := by
  have hfF : f ∉ F := (List.nodup_cons.1 (List.nodup_append.1 hd.nodup).1).1
  have hft : f ∉ treeTables s.mem r := fun hx => hd.not_mem_free (tables_mem hr hx) (by simp)
  rcases pml1For_spec hnew h hr virt
    with ⟨hshort, hbad⟩ | ⟨t, s₁, F₁, hrun, hinv₁, hgrew, hshape, hwalk, hleaf⟩
  · left
    refine ⟨hshort, ?_⟩
    intro s' hs'
    rw [mapAt, Option.map_eq_some_iff] at hs'
    obtain ⟨⟨p, s₁⟩, hp, rfl⟩ := hs'
    rw [refused_setEntry]
    exact hbad p s₁ hp
  · right
    have hi := getPML1Index_lt virt
    have hks : ∀ k ∈ [getPML3Index virt, getPML2Index virt], k < 512 := by
      simp [getPML3Index_lt, getPML2Index_lt]
    have hnone₁ : child s₁.mem t (getPML1Index virt) = none := by
      rw [← walk_pathOf hwalk, hleaf _ (pathOf_lt virt) rfl, hnone]
    have hd₁ : Distinct s₁.mem roots (f :: F₁) := by
      refine ⟨?_, hinv₁.frame⟩
      have := ((hgrew.perm.cons f).nodup_iff).2 hd.nodup
      exact this
    have ht := walk_mem_refs hr hwalk hks (by simp)
    have hfill := fills_of_setEntry (n := 0) hnew hd₁ hinv₁.pool hf ht hi (by simp)
    have hfilled : Filled s₁ _ roots F₁ r f (pathOf virt) :=
      hd₁.fill hr hwalk hks rfl hi hnone₁ hfill hf
    have htable : t ∈ treeTables s₁.mem r := Radix.mem_tables_of_walk hwalk hks (by simp)
    have hgrew₂ := grew_of_pathOf (.refl _) hfilled hfill htable
    refine ⟨_, F₁, ?_, hfilled.inv, (hgrew.hold hf hfF hft).trans hgrew₂, ?_, ?_, ?_⟩
    · rw [mapAt, hrun]
      rfl
    · rw [hfilled.shape, hshape]
      rfl
    · intro q hq hql
      rw [walk_page hfilled hq hql, hleaf q hq hql]
    · intro j hj
      have htF : t ≠ f := by
        rintro rfl
        exact hd₁.not_mem_free ht (by simp)
      rw [mem_setEntry (hinv₁.frame t ht) hi, Function.update_of_ne
        (word_ne hf (hinv₁.frame t ht) hj hi fun e => htF e.1.symm), hgrew.other f hf hfF hft j hj]

/-- **`MapProcessPage`** completes the path of the address; where there was no page, it is a frame
that was free, with the contents it had. -/
theorem mapProcessPage_spec {e : Nat} (h : Inv s roots F) (hr : pmlGetAddr e ∈ roots) (virt : Nat) :
    (Short s F (pmlGetAddr e) (withPath (treeShape s.mem (pmlGetAddr e)) virt) ∧
      ∀ p s', mapProcessPage e virt s = some (p, s') → s.refused < s'.refused) ∨
    ∃ f s' F', mapProcessPage e virt s = some (highMemBase + f, s') ∧
      Inv s' roots F' ∧ Grew s s' roots F F' (pmlGetAddr e) ∧
      treeShape s'.mem (pmlGetAddr e) = withPath (treeShape s.mem (pmlGetAddr e)) virt ∧
      (∀ q, (∀ k ∈ q, k < 512) → q.length = 3 → walk (child s'.mem) (pmlGetAddr e) q =
        if q = pathOf virt then some f else walk (child s.mem) (pmlGetAddr e) q) ∧
      (walk (child s.mem) (pmlGetAddr e) (pathOf virt) = some f ∨
        walk (child s.mem) (pmlGetAddr e) (pathOf virt) = none ∧ f ∈ F ∧ f ∉ F' ∧
          ∀ j, 4 ≤ j → j < 512 →
            s'.mem (highMemBase + f + 8 * j) = s.mem (highMemBase + f + 8 * j)) := by
  obtain ⟨r, hre⟩ : ∃ r, pmlGetAddr e = r := ⟨_, rfl⟩
  rw [hre] at hr ⊢
  have hi := getPML1Index_lt virt
  have hks : ∀ k ∈ [getPML3Index virt, getPML2Index virt], k < 512 := by
    simp [getPML3Index_lt, getPML2Index_lt]
  have hroot := physToKernelPtr_root h.toDistinct hr
  rcases pml1For_spec userEntry_names h hr virt
    with ⟨hshort, hbad⟩ | ⟨t, s₁, F₁, hrun, hinv₁, hgrew, hshape, hwalk, hleaf⟩
  · left
    refine ⟨hshort.mono (Finset.subset_insert _ _), ?_⟩
    intro p s' hs'
    rw [mapProcessPage, hre, hroot] at hs'
    obtain ⟨⟨q, s₁⟩, hq, hs'⟩ := Option.bind_eq_some_iff.1 hs'
    refine (hbad q s₁ hq).trans_le ?_
    dsimp only at hs'
    split at hs'
    · obtain ⟨⟨phys, s₂⟩, hal, hs'⟩ := Option.bind_eq_some_iff.1 hs'
      simp only [Option.some.injEq, Prod.mk.injEq] at hs'
      rw [← hs'.2, refused_setEntry]
      exact allocatePages_refused_le hal
    · simp only [Option.some.injEq, Prod.mk.injEq] at hs'
      rw [← hs'.2]
  · have ht := walk_mem_refs hr hwalk hks (by simp)
    have htf := hinv₁.frame t ht
    cases hc : child s₁.mem t (getPML1Index virt) with
    | some f =>
      right
      have hp : pmlGetP (s₁.entry (highMemBase + t) (getPML1Index virt)) ≠ 0 := by
        intro e
        rw [(child_eq_none_iff htf hi).2 e] at hc
        exact absurd hc (by simp)
      have hwalk₁ : walk (child s₁.mem) r (pathOf virt) = some f := by
        rw [walk_pathOf hwalk, hc]
      have hwalk₀ := hleaf _ (pathOf_lt virt) rfl
      have hff := hinv₁.frame f (walk_mem_refs hr hwalk₁ (pathOf_lt virt) (by simp [pathOf]))
      refine ⟨f, s₁, F₁, ?_, hinv₁, hgrew, ?_, ?_, ?_⟩
      · have := hff.top
        rw [mapProcessPage, hre, hroot, hrun]
        simp only [Option.bind_eq_bind, Option.bind_some, hp, if_false, addr_of_child htf hi hc,
          physToKernelPtr_eq (by omega : f < 2 ^ 39)]
      · rw [hshape, withPath, Finset.insert_eq_of_mem]
        rw [← hshape, mem_treeShape]
        exact ⟨⟨by simp [pathOf], by simp [pathOf], pathOf_lt virt⟩, f, hwalk₁⟩
      · intro q hq hql
        rw [hleaf q hq hql]
        split
        · rename_i e
          rw [e, ← hwalk₀, hwalk₁]
        · rfl
      · left
        rw [← hwalk₀, hwalk₁]
    | none =>
      have hp := (child_eq_none_iff htf hi).1 hc
      have hpath : pathOf virt ∉ treeShape s₁.mem r := by
        rw [mem_treeShape]
        rintro ⟨-, x, hx⟩
        rw [walk_pathOf hwalk, hc] at hx
        exact absurd hx (by simp)
      rcases allocatePages_spec hinv₁.pool
        with ⟨hF, hal⟩ | ⟨f, F₂, s₂, hperm, hal, hmoved, hrefused⟩
      · left
        refine ⟨hgrew.short (short_of_nil hF hpath ?_), ?_⟩
        · rw [hshape]
          exact Finset.Subset.refl _
        · intro p s' hs'
          rw [mapProcessPage, hre, hroot, hrun] at hs'
          simp only [Option.bind_eq_bind, Option.bind_some, hp, if_true, hal, Option.some.injEq,
            Prod.mk.injEq] at hs'
          rw [← hs'.2, refused_setEntry, ← hgrew.refused]
          exact Nat.lt_succ_self _
      · right
        have hfF : f ∈ F₁ := hperm.mem_iff.2 (by simp)
        have hf := hinv₁.pool.frame f hfF
        have htaken := Moved.taken hinv₁.pool hperm hmoved hrefused (State.SameButMem.refl s₂)
          fun _ _ => rfl
        have ht₂ : t ∈ refs s₂.mem roots := by
          rw [refs_congr (htaken.refs_eq hinv₁)]
          exact ht
        have hfill := htaken.fills (fills_of_setEntry (n := 0) userEntry_names
          (htaken.distinct hinv₁) htaken.pool hf ht₂ hi (by simp))
        have hfilled : Filled s₁ _ roots F₂ r f (pathOf virt) :=
          (hinv₁.toDistinct.perm hperm).fill hr hwalk hks rfl hi hc hfill hf
        have htable : t ∈ treeTables s₁.mem r := Radix.mem_tables_of_walk hwalk hks (by simp)
        have hgrew₂ := grew_of_pathOf hperm hfilled hfill htable
        refine ⟨f, _, F₂, ?_, hfilled.inv, hgrew.trans hgrew₂, ?_, ?_, ?_⟩
        · have := hf.top
          rw [mapProcessPage, hre, hroot, hrun]
          simp only [Option.bind_eq_bind, Option.bind_some, hp, if_true, hal,
            physToKernelPtr_eq (by omega : f < 2 ^ 39)]
        · rw [hfilled.shape, hshape]
          rfl
        · intro q hq hql
          rw [walk_page hfilled hq hql, hleaf q hq hql]
        · right
          refine ⟨?_, hgrew.sub f hfF, ?_, ?_⟩
          · rw [← hleaf _ (pathOf_lt virt) rfl, walk_pathOf hwalk, hc]
          · exact (List.nodup_cons.1 (hperm.nodup_iff.1 hinv₁.pool.nodup)).1
          · intro j h4 hj
            have htf' : t ≠ f := by
              rintro rfl
              exact hinv₁.not_mem_free ht hfF
            rw [mem_setEntry htf hi, Function.update_of_ne
              (word_ne hf htf hj hi fun e => htf' e.1.symm), hmoved.words f j hf h4 hj,
              hgrew.rest f hfF j h4 hj]

end ChenixOS.MemoryManager
