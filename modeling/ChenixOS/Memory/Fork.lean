import ChenixOS.Memory.Processes

/-!
# Forking an address space

`ForkProcessMap` visits the pages of the running process in the order of their addresses and maps a
copy of each into a new tree. The three nested loops are one walk through the leaves of the source
tree, numbered by `rank`: between two rounds, the new tree has exactly the pages whose rank has
been passed, and the tables above them.
-/

namespace ChenixOS.MemoryManager

open Radix (walk)

variable {s s' s₀ : State} {roots F F' F₀ : List Nat} {r f i j k n e virt : Nat}
  {L D : Finset (List Nat)} {q : List Nat}

/-! ## Paths of pages -/

/-- The paths of the pages of a tree. Never to be evaluated: there are `2 ^ 27` candidates. -/
@[irreducible] def leaves (m : Nat → Nat) (r : Nat) : Finset (List Nat) :=
  (treeShape m r).filter fun q => q.length = 3

theorem mem_leaves {m : Nat → Nat} : q ∈ leaves m r ↔
    (q.length = 3 ∧ ∀ k ∈ q, k < 512) ∧ ∃ x, walk (child m) r q = some x := by
  unfold leaves
  rw [Finset.mem_filter, mem_treeShape]
  constructor
  · rintro ⟨⟨⟨-, -, hlt⟩, hx⟩, hlen⟩
    exact ⟨⟨hlen, hlt⟩, hx⟩
  · rintro ⟨⟨hlen, hlt⟩, hx⟩
    refine ⟨⟨⟨?_, by omega, hlt⟩, hx⟩, hlen⟩
    rintro rfl
    exact absurd hlen (by simp)

theorem leaves_congr {m m' : Nat → Nat} (h : ∀ x ∈ treeTables m r, ∀ j < 512,
    m' (highMemBase + x + 8 * j) = m (highMemBase + x + 8 * j)) : leaves m' r = leaves m r := by
  ext q
  rw [mem_leaves, mem_leaves]
  refine and_congr_right fun hq => ?_
  rw [Radix.walk_congr (fun x hx j hj => child_congr (h x hx j hj)) hq.2 hq.1.le]

/-- Paths of pages, with the paths of the tables above them. -/
def closed (D : Finset (List Nat)) : Finset (List Nat) :=
  D.biUnion fun q => {q.take 1, q.take 2, q}

theorem mem_closed {x : List Nat} :
    x ∈ closed D ↔ ∃ q ∈ D, x = q.take 1 ∨ x = q.take 2 ∨ x = q := by
  simp [closed]

theorem closed_mono {D' : Finset (List Nat)} (h : D ⊆ D') : closed D ⊆ closed D' :=
  Finset.biUnion_subset_biUnion_of_subset_left _ h

/-- A page is in the closure only when it is one of the pages. -/
theorem mem_of_mem_closed (hD : ∀ q ∈ D, q.length = 3) (hq : q.length = 3) (h : q ∈ closed D) :
    q ∈ D := by
  obtain ⟨p, hp, rfl | rfl | rfl⟩ := mem_closed.1 h
  · simp [hD p hp] at hq
  · simp [hD p hp] at hq
  · exact hp

theorem withPath_closed (D : Finset (List Nat)) (virt : Nat) :
    withPath (closed D) virt = closed (insert (pathOf virt) D) := by
  rw [closed, closed, Finset.biUnion_insert]
  ext x
  simp only [withPath, withTables, pathOf, Finset.mem_insert, Finset.mem_union,
    Finset.mem_singleton, List.take_succ_cons, List.take_zero]
  tauto

theorem insert_subset_withPath (D : Finset (List Nat)) (virt : Nat) :
    insert (pathOf virt) D ⊆ withPath D virt := by
  intro q hq
  simp only [withPath, withTables, Finset.mem_insert] at hq ⊢
  tauto

/-- Tables are at the ends of shorter paths. -/
theorem pathOf_not_mem_withTables {u : Nat} (h : pathOf u ∉ D) : pathOf u ∉ withTables D virt := by
  simp only [withTables, Finset.mem_insert, not_or]
  exact ⟨by simp [pathOf], by simp [pathOf], h⟩

theorem card_withPath (h : pathOf virt ∉ D) :
    (withPath D virt).card = (withTables D virt).card + 1 :=
  Finset.card_insert_of_notMem (pathOf_not_mem_withTables h)

/-- A page needs two tables and a frame at most. -/
theorem card_withPath_le (D : Finset (List Nat)) (virt : Nat) : (withPath D virt).card ≤ D.card + 3 := by
  have h₁ := Finset.card_insert_le [getPML3Index virt] D
  have h₂ := Finset.card_insert_le [getPML3Index virt, getPML2Index virt]
    (insert [getPML3Index virt] D)
  have h₃ := Finset.card_insert_le (pathOf virt) (withTables D virt)
  exact h₃.trans (Nat.succ_le_succ (h₂.trans (Nat.succ_le_succ h₁)))

/-- The number of a path among all paths of pages. -/
def rank (q : List Nat) : Nat := q.foldl (fun n k => 512 * n + k) 0

/-- The paths with a smaller number than `n`. -/
def passed (L : Finset (List Nat)) (n : Nat) : Finset (List Nat) := L.filter fun q => rank q < n

theorem passed_zero (L : Finset (List Nat)) : passed L 0 = ∅ := by
  simp [passed]

/-- Nothing to do between `n` and `n'`. -/
theorem passed_skip {n' : Nat} (hle : n ≤ n') (h : ∀ q ∈ L, rank q < n' → rank q < n) :
    passed L n' = passed L n := by
  refine Finset.filter_congr fun q hq => ⟨h q hq, fun hlt => ?_⟩
  omega

/-- The path of number `n` is passed next. -/
theorem passed_succ (hL : ∀ q ∈ L, q.length = 3 ∧ ∀ k ∈ q, k < 512) (hq : [i, j, k] ∈ L) :
    passed L (rank [i, j, k] + 1) = insert [i, j, k] (passed L (rank [i, j, k])) := by
  ext p
  simp only [passed, Finset.mem_filter, Finset.mem_insert]
  constructor
  · rintro ⟨hp, hlt⟩
    rcases Nat.lt_or_ge (rank p) (rank [i, j, k]) with h | h
    · exact .inr ⟨hp, h⟩
    · left
      obtain ⟨hlen, hpk⟩ := hL p hp
      obtain ⟨a, b, c, rfl⟩ := List.length_eq_three.1 hlen
      obtain ⟨-, hqk⟩ := hL _ hq
      simp only [List.mem_cons, List.not_mem_nil, or_false, forall_eq_or_imp, forall_eq] at hpk hqk
      simp only [rank, List.foldl_cons, List.foldl_nil] at h hlt
      have : a = i ∧ b = j ∧ c = k := by omega
      simp [this]
  · rintro (rfl | ⟨hp, hlt⟩)
    · exact ⟨hq, by omega⟩
    · exact ⟨hp, by omega⟩

/-- The address that the loops compute from their counters has them as its path. -/
theorem pathOf_counters (hi : i < 512) (hj : j < 512) (hk : k < 512) :
    pathOf ((k <<< 12) ||| (j <<< 21) ||| (i <<< 30)) = [i, j, k] := by
  have h1 : (k <<< 12) ||| (j <<< 21) = j * 2 ^ 21 + k * 2 ^ 12 := by
    rw [Nat.shiftLeft_eq, Nat.shiftLeft_eq, Nat.or_comm, Nat.mul_comm j]
    exact (Nat.two_pow_add_eq_or_of_lt (by omega) j).symm
  have h2 : (j * 2 ^ 21 + k * 2 ^ 12) ||| (i <<< 30) = i * 2 ^ 30 + (j * 2 ^ 21 + k * 2 ^ 12) := by
    rw [Nat.shiftLeft_eq, Nat.or_comm, Nat.mul_comm i]
    exact (Nat.two_pow_add_eq_or_of_lt (by omega) i).symm
  have hmask : (0x1FF : Nat) = 2 ^ 9 - 1 := by decide
  rw [h1, h2]
  simp only [pathOf, getPML1Index, getPML2Index, getPML3Index, hmask, Nat.and_two_pow_sub_one_eq_mod,
    Nat.shiftRight_eq_div_pow, List.cons.injEq, and_true]
  omega

/-! ## One page -/

theorem forkPage_refused_le {src : Nat} (h : forkPage e src virt s = some s') :
    s.refused ≤ s'.refused := by
  obtain ⟨⟨phys, s₁⟩, hal, h⟩ := Option.bind_eq_some_iff.1 h
  have := mapProcessPageAt_refused_le h
  rw [refused_copyPage] at this
  exact (allocatePages_refused_le hal).trans this

/-- A frame is taken, written to, and then mapped. -/
theorem Taken.grew {s₂ : State} {F'' : List Nat} (h : Inv s roots F) (hr : r ∈ roots)
    (ht : Taken s s' F F' f) (hg : Grew s' s₂ roots (f :: F') F'' r) (hf : f ∉ F'') :
    Grew s s₂ roots F F'' r := by
  have hsame := ht.refs_eq h
  have hshape := treeShape_congr (hsame r hr)
  have htables := treeTables_congr (hsame r hr)
  refine ⟨?_, fun x hx => ht.free.mem_iff.2 (hg.sub x hx), hg.myPML4.trans ht.myPML4,
    hg.refused.trans ht.refused, ?_, ?_, ?_, ?_, ?_⟩
  · have hp := hg.perm
    rw [refs_congr hsame] at hp
    exact hp.trans (ht.free.symm.append_right _)
  · have hc := hg.count
    rw [hshape] at hc
    rw [hc, ht.free.length_eq]
  · intro x hx
    have ht' := hg.tables x hx
    rw [htables, ← ht.free.mem_iff] at ht'
    exact ht'
  · intro x hx hxF hxt j hj
    have hxF' : x ∉ f :: F' := fun hm => hxF (ht.free.mem_iff.2 hm)
    rw [← htables] at hxt
    rw [hg.other x hx hxF' hxt j hj, ht.same x hx hxF' j hj]
  · intro x hx j h4 hj
    have hxf : x ∈ F' := by
      rcases List.mem_cons.1 (hg.sub x hx) with rfl | hx'
      · exact absurd hx hf
      · exact hx'
    rw [hg.rest x hx j h4 hj, ht.rest x hxf j h4 hj]
  · exact fun hclean => hg.clean (clean_congr (hsame r hr) hclean)

/-- **The innermost body of the loops**: a copy of a page, mapped where the new tree has none. -/
theorem forkPage_spec (src : Nat) (h : Inv s roots F) (hr : pmlGetAddr e ∈ roots)
    (hnot : pathOf virt ∉ treeShape s.mem (pmlGetAddr e)) :
    Attempt (Short s F (pmlGetAddr e) (withPath (treeShape s.mem (pmlGetAddr e)) virt)) s
      (forkPage e src virt s) fun s' => ∃ f F', Inv s' roots F' ∧
        Grew s s' roots F F' (pmlGetAddr e) ∧
        treeShape s'.mem (pmlGetAddr e) = withPath (treeShape s.mem (pmlGetAddr e)) virt ∧
        (∀ q, (∀ k ∈ q, k < 512) → q.length = 3 → walk (child s'.mem) (pmlGetAddr e) q =
          if q = pathOf virt then some f else walk (child s.mem) (pmlGetAddr e) q) ∧
        (Frame (pmlGetAddr src) → pmlGetAddr src ∉ F → ∀ j < 512,
          s'.mem (highMemBase + f + 8 * j) = s.mem (highMemBase + pmlGetAddr src + 8 * j)) := by
  obtain ⟨r, hre⟩ : ∃ r, pmlGetAddr e = r := ⟨_, rfl⟩
  rw [hre] at hr hnot ⊢
  have hroot := physToKernelPtr_root h.toDistinct hr
  rcases allocatePages_spec h.pool with ⟨hF, hal⟩ | ⟨f, F₁, s₁, hperm, hal, hmoved, hrefused⟩
  · refine .inl ⟨short_of_nil hF hnot (insert_subset_withPath _ virt), ?_⟩
    intro s' hs'
    obtain ⟨⟨phys, s₁⟩, hal', hmap⟩ := Option.bind_eq_some_iff.1 hs'
    have hle := mapProcessPageAt_refused_le hmap
    rw [hal, Option.some.injEq, Prod.mk.injEq] at hal'
    rw [refused_copyPage, ← hal'.2] at hle
    exact Nat.lt_of_lt_of_le (Nat.lt_succ_self _) hle
  · have hf := h.pool.frame f (hperm.mem_iff.2 (by simp))
    have hft := hf.top
    obtain ⟨from', hfrom⟩ : ∃ a, a = physToKernelPtr (pmlGetAddr src) := ⟨_, rfl⟩
    obtain ⟨hsame, hpage⟩ := @State.copyPage_spec s₁ f from' hf
    have htaken := Moved.taken h.pool hperm hmoved hrefused hsame hpage
    obtain ⟨s₂, hs₂⟩ : ∃ s₂, s₂ = s₁.copyPage (highMemBase + f) from' := ⟨_, rfl⟩
    rw [← hs₂] at htaken
    rw [hfrom] at hs₂
    have hd := htaken.distinct h
    have hsame₂ := htaken.refs_eq h
    have hshape₂ := treeShape_congr (hsame₂ r hr)
    have hinv₂ : Inv s₂ roots F₁ := by
      refine ⟨⟨?_, hd.frame⟩, htaken.pool⟩
      have := hd.nodup
      rw [List.cons_append, List.nodup_cons] at this
      exact this.2
    have hnone : walk (child s₂.mem) r (pathOf virt) = none := by
      rw [Option.eq_none_iff_forall_ne_some]
      intro x hx
      refine hnot ?_
      rw [← hshape₂, mem_treeShape]
      exact ⟨⟨by simp [pathOf], by simp [pathOf], pathOf_lt virt⟩, x, hx⟩
    have hrun : forkPage e src virt s = mapAt userEntry (highMemBase + r) f virt s₂ := by
      rw [forkPage, hal]
      simp only [Option.bind_eq_bind, Option.bind_some, mapProcessPageAt_eq, hre, hroot,
        physToKernelPtr_eq (by omega : f < 2 ^ 39), kernelToPhysPtr_eq (by omega : f < 2 ^ 39), hs₂]
    rw [hrun]
    rcases mapAt_spec userEntry_names hinv₂ hr hd hf hnone
      with ⟨hshort, hbad⟩ | ⟨s₃, F₃, hrun₃, hinv₃, hgrew, hshape₃, hwalk, hwords⟩
    · rw [hshape₂] at hshort
      refine .inl ⟨?_, fun s' hs' => htaken.refused ▸ hbad s' hs'⟩
      -- The frame that is held is one of those the whole path needs.
      have hcard := card_withPath hnot
      have hlen := hperm.length_eq
      rw [List.length_cons] at hlen
      unfold Short at hshort ⊢
      rw [hshape₂] at hshort
      omega
    · refine .inr ⟨s₃, hrun₃, hgrew.refused.trans htaken.refused, f, F₃, hinv₃, ?_, ?_, ?_, ?_⟩
      · refine htaken.grew h hr hgrew fun hmem => ?_
        have hmapped := hwalk (pathOf virt) (pathOf_lt virt) rfl
        rw [if_pos rfl] at hmapped
        exact hinv₃.not_mem_free (walk_mem_refs hr hmapped (pathOf_lt virt) (by simp [pathOf])) hmem
      · rw [hshape₃, hshape₂]
      · intro q hq hlen
        rw [hwalk q hq hlen, Radix.walk_congr (fun x hx j hj => child_congr (hsame₂ r hr x hx j hj))
          hq hlen.le]
      · intro hx hxF j hj
        have hne : f ≠ pmlGetAddr src := fun heq => hxF (heq ▸ hperm.mem_iff.2 (by simp))
        have hxF₁ : pmlGetAddr src ∉ F₁ :=
          fun hm => hxF (hperm.mem_iff.2 (List.mem_cons_of_mem _ hm))
        have hxt := hx.top
        rw [hwords j hj, hs₂, physToKernelPtr_eq (by omega : pmlGetAddr src < 2 ^ 39),
          State.copyPage_words hf hx hne j hj,
          hmoved.frame _ (not_mem_pages hx hj hmoved.pool.frame hxF₁)]

/-! ## The loops -/

/-- The new tree at `f` has the pages of `L` with a smaller number than `n`, and the tables above
them; nothing else happened since `s₀`. -/
def Copied (s₀ : State) (roots F₀ : List Nat) (f : Nat) (L : Finset (List Nat)) (n : Nat)
    (s : State) : Prop :=
  ∃ F, Inv s roots F ∧ Grew s₀ s roots F₀ F f ∧ treeShape s.mem f = closed (passed L n)

theorem Copied.skip {n' : Nat} (h : Copied s₀ roots F₀ f L n s) (hle : n ≤ n')
    (hL : ∀ q ∈ L, rank q < n' → rank q < n) : Copied s₀ roots F₀ f L n' s := by
  rw [Copied, passed_skip hle hL]
  exact h

/-- What the loops have done before the page of number `n`: the pages with a smaller number are in
the new tree at `f`, each with the words of the page that the source at `r` has there. -/
structure CopiedPages (s₀ : State) (roots F₀ : List Nat) (r f n : Nat) (s : State) : Prop where
  copied : Copied s₀ roots F₀ f (leaves s₀.mem r) n s
  words : ∀ q ∈ passed (leaves s₀.mem r) n, ∀ x, walk (child s₀.mem) r q = some x →
    ∃ g, walk (child s.mem) f q = some g ∧
      ∀ j < 512, s.mem (highMemBase + g + 8 * j) = s₀.mem (highMemBase + x + 8 * j)

theorem CopiedPages.skip {n' : Nat} (h : CopiedPages s₀ roots F₀ r f n s) (hle : n ≤ n')
    (hL : ∀ q ∈ leaves s₀.mem r, rank q < n' → rank q < n) :
    CopiedPages s₀ roots F₀ r f n' s := by
  refine ⟨h.copied.skip hle hL, ?_⟩
  rw [passed_skip hle hL]
  exact h.words

theorem mem_leaves_iff {m : Nat → Nat} : q ∈ leaves m r ↔ ∃ a b c t₂ t₁ x, q = [a, b, c] ∧
    (a < 512 ∧ b < 512 ∧ c < 512) ∧
    child m r a = some t₂ ∧ child m t₂ b = some t₁ ∧ child m t₁ c = some x := by
  rw [mem_leaves]
  constructor
  · rintro ⟨⟨hlen, hlt⟩, x, hx⟩
    obtain ⟨a, b, c, rfl⟩ := List.length_eq_three.1 hlen
    obtain ⟨t₂, h₂, hx⟩ := Option.bind_eq_some_iff.1 hx
    obtain ⟨t₁, h₁, hx⟩ := Option.bind_eq_some_iff.1 hx
    obtain ⟨x', h₀, hx⟩ := Option.bind_eq_some_iff.1 hx
    exact ⟨a, b, c, t₂, t₁, x', rfl, ⟨hlt a (by simp), hlt b (by simp), hlt c (by simp)⟩, h₂, h₁, h₀⟩
  · rintro ⟨a, b, c, t₂, t₁, x, rfl, ⟨ha, hb, hc⟩, h₂, h₁, h₀⟩
    refine ⟨⟨rfl, by simp [ha, hb, hc]⟩, x, ?_⟩
    simp [walk, h₂, h₁, h₀]

section Loops

variable (hinv : Inv s₀ roots F₀) (hsrc : r ∈ roots) (hnew : pmlGetAddr e ∈ roots)
  (hne : r ≠ pmlGetAddr e)

include hinv hsrc hnew

/-- The pages of the source have the words that they had. -/
theorem Copied.sourcePage {x : Nat} (h : Copied s₀ roots F₀ (pmlGetAddr e) L n s)
    (hw : walk (child s₀.mem) r q = some x) (hq : ∀ k ∈ q, k < 512) (hlen : q.length = 3) :
    Frame x ∧ x ∉ F₀ ∧ ∀ j < 512,
      s.mem (highMemBase + x + 8 * j) = s₀.mem (highMemBase + x + 8 * j) := by
  obtain ⟨F, -, hgrew, -⟩ := h
  have hxr := walk_mem_refs hsrc hw hq hlen.le
  have hxF := hinv.not_mem_free hxr
  have hleaf := hinv.toDistinct.page_not_mem_tables hsrc hnew hw hq hlen
  exact ⟨hinv.frame x hxr, hxF, hgrew.other x (hinv.frame x hxr) hxF hleaf⟩

/-- **A round of the loops**, for the page with the path `[i, j, k]`. -/
theorem CopiedPages.page {src : Nat}
    (h : CopiedPages s₀ roots F₀ r (pmlGetAddr e) (rank [i, j, k]) s)
    (hq : [i, j, k] ∈ leaves s₀.mem r) (hsrcPage : walk (child s₀.mem) r [i, j, k] =
      some (pmlGetAddr src)) :
    Attempt (Short s₀ F₀ (pmlGetAddr e) (closed (leaves s₀.mem r))) s
      (forkPage e src ((k <<< 12) ||| (j <<< 21) ||| (i <<< 30)) s)
      (CopiedPages s₀ roots F₀ r (pmlGetAddr e) (rank [i, j, k] + 1)) := by
  have hL : ∀ q ∈ leaves s₀.mem r, q.length = 3 ∧ ∀ k ∈ q, k < 512 :=
    fun q hq => (mem_leaves.1 hq).1
  have hlt := (hL _ hq).2
  obtain ⟨hxf, hxF₀, hsource⟩ := h.copied.sourcePage hinv hsrc hnew hsrcPage hlt rfl
  obtain ⟨F, hinv', hgrew, hshape⟩ := h.copied
  have hpath := pathOf_counters (hlt i (by simp)) (hlt j (by simp)) (hlt k (by simp))
  have hnot : pathOf ((k <<< 12) ||| (j <<< 21) ||| (i <<< 30)) ∉
      treeShape s.mem (pmlGetAddr e) := by
    rw [hshape, hpath]
    intro hmem
    have := mem_of_mem_closed (fun q hq => (hL q (Finset.mem_filter.1 hq).1).1) rfl hmem
    exact absurd (Finset.mem_filter.1 this).2 (lt_irrefl _)
  have hnext : withPath (treeShape s.mem (pmlGetAddr e)) ((k <<< 12) ||| (j <<< 21) ||| (i <<< 30)) =
      closed (passed (leaves s₀.mem r) (rank [i, j, k] + 1)) := by
    rw [hshape, withPath_closed, hpath, passed_succ hL hq]
  rcases forkPage_spec src hinv' hnew hnot
    with ⟨hshort, hbad⟩ | ⟨s', hrun, href, g, F', hinv'', hgrew', hshape', hwalk, hwords⟩
  · refine .inl ⟨hgrew.short (hshort.mono ?_), hbad⟩
    rw [hnext]
    exact closed_mono (Finset.filter_subset _ _)
  · refine .inr ⟨s', hrun, href, ⟨F', hinv'', hgrew.trans hgrew', hshape'.trans hnext⟩, ?_⟩
    rw [hpath] at hwalk
    intro p hp x hx
    rw [passed_succ hL hq, Finset.mem_insert] at hp
    rcases hp with rfl | hp
    · -- The page of this round.
      rw [hsrcPage, Option.some.injEq] at hx
      subst hx
      refine ⟨g, by rw [hwalk _ hlt rfl, if_pos rfl], fun w hw => ?_⟩
      rw [hwords hxf (fun hm => hxF₀ (hgrew.sub _ hm)) w hw, hsource w hw]
    · -- A page of an earlier round is in use and no table, so it is not written to.
      obtain ⟨hpL, hprank⟩ := Finset.mem_filter.1 hp
      obtain ⟨hplen, hplt⟩ := hL p hpL
      obtain ⟨y, hy, hsame⟩ := h.words p hp x hx
      have hpne : p ≠ [i, j, k] := by
        rintro rfl
        exact lt_irrefl _ hprank
      have hyr := walk_mem_refs hnew hy hplt hplen.le
      refine ⟨y, by rw [hwalk p hplt hplen, if_neg hpne, hy], fun w hw => ?_⟩
      rw [hgrew'.other y (hinv'.frame y hyr) (hinv'.not_mem_free hyr)
        (hinv'.toDistinct.page_not_mem_tables hnew hnew hy hplt hplen) w hw, hsame w hw]

include hne

/-- The tables of the source are as they were when the fork began. -/
theorem Copied.source {t : Nat} {ks : List Nat}
    (h : Copied s₀ roots F₀ (pmlGetAddr e) L n s) (hw : walk (child s₀.mem) r ks = some t)
    (hks : ∀ k ∈ ks, k < 512) (hlen : ks.length < 3) :
    Frame t ∧ ∀ i < 512, child s.mem t i = child s₀.mem t i := by
  obtain ⟨F, -, hgrew, -⟩ := h
  have ht : t ∈ treeTables s₀.mem r := Radix.mem_tables_of_walk hw hks hlen
  have htr := tables_mem hsrc ht
  have hapart := hinv.toDistinct.tables_apart hsrc hnew hne t ht
  refine ⟨hinv.frame t htr, fun i hi => child_congr ?_⟩
  exact hgrew.other t (hinv.frame t htr) (hinv.not_mem_free htr) hapart i hi

/-- The loop over the pages of one PML1. -/
theorem fork_pml1 {t₂ t₁ : Nat} (hi : i < 512) (hj : j < 512)
    (h₂ : child s₀.mem r i = some t₂) (h₁ : child s₀.mem t₂ j = some t₁)
    (h : CopiedPages s₀ roots F₀ r (pmlGetAddr e) (rank [i, j, 0]) s) :
    Attempt (Short s₀ F₀ (pmlGetAddr e) (closed (leaves s₀.mem r))) s
      (forEntries (highMemBase + t₁) (fun k pml1Entry =>
        forkPage e pml1Entry ((k <<< 12) ||| (j <<< 21) ||| (i <<< 30))) s)
      (CopiedPages s₀ roots F₀ r (pmlGetAddr e) (rank [i, j + 1, 0])) := by
  have hend : rank [i, j + 1, 0] = rank [i, j, 512] := by
    simp only [rank, List.foldl_cons, List.foldl_nil]
    omega
  have hw : walk (child s₀.mem) r [i, j] = some t₁ := by simp [walk, h₂, h₁]
  rw [hend]
  refine forEntries_attempt (P := fun k => CopiedPages s₀ roots F₀ r (pmlGetAddr e)
    (rank [i, j, k])) (fun _ k pml1Entry s s' hs' => forkPage_refused_le hs') h ?_ ?_
  · intro k hk s₁ hC hp
    obtain ⟨ht, hsame⟩ := hC.copied.source hinv hsrc hnew hne hw (by simp [hi, hj]) (by simp)
    have hnone : child s₀.mem t₁ k = none := by
      rw [← hsame k hk]
      exact (child_eq_none_iff ht hk).2 hp
    refine hC.skip (by simp only [rank, List.foldl_cons, List.foldl_nil]; omega) fun q hq hlt => ?_
    obtain ⟨a, b, c, u₂, u₁, x, rfl, ⟨ha, hb, hc⟩, e₂, e₁, e₀⟩ := mem_leaves_iff.1 hq
    by_contra hge
    simp only [rank, List.foldl_cons, List.foldl_nil] at hlt hge
    obtain ⟨rfl, rfl, rfl⟩ : a = i ∧ b = j ∧ c = k := by omega
    rw [h₂, Option.some.injEq] at e₂
    rw [← e₂, h₁, Option.some.injEq] at e₁
    rw [← e₁, hnone] at e₀
    exact absurd e₀ (by simp)
  · intro k hk s₁ hC hp
    obtain ⟨ht, hsame⟩ := hC.copied.source hinv hsrc hnew hne hw (by simp [hi, hj]) (by simp)
    obtain ⟨x, hx⟩ : ∃ x, child s₁.mem t₁ k = some x := by
      rw [← Option.ne_none_iff_exists']
      exact fun hn => hp ((child_eq_none_iff ht hk).1 hn)
    have haddr := addr_of_child ht hk hx
    rw [hsame k hk] at hx
    refine hC.page hinv hsrc hnew
      (mem_leaves_iff.2 ⟨i, j, k, t₂, t₁, x, rfl, ⟨hi, hj, hk⟩, h₂, h₁, hx⟩) ?_
    rw [haddr]
    simp [walk, h₂, h₁, hx]

/-- The loop over the tables of one PML2. -/
theorem fork_pml2 {t₂ : Nat} (hi : i < 512) (h₂ : child s₀.mem r i = some t₂)
    (h : CopiedPages s₀ roots F₀ r (pmlGetAddr e) (rank [i, 0, 0]) s) :
    Attempt (Short s₀ F₀ (pmlGetAddr e) (closed (leaves s₀.mem r))) s
      (forEntries (highMemBase + t₂) (fun j pml2Entry =>
        forEntries (physToKernelPtr (pmlGetAddr pml2Entry)) fun k pml1Entry =>
          forkPage e pml1Entry ((k <<< 12) ||| (j <<< 21) ||| (i <<< 30))) s)
      (CopiedPages s₀ roots F₀ r (pmlGetAddr e) (rank [i + 1, 0, 0])) := by
  have hend : rank [i + 1, 0, 0] = rank [i, 512, 0] := by
    simp only [rank, List.foldl_cons, List.foldl_nil]
    omega
  have hw : walk (child s₀.mem) r [i] = some t₂ := by simp [walk, h₂]
  rw [hend]
  refine forEntries_attempt (P := fun j => CopiedPages s₀ roots F₀ r (pmlGetAddr e)
    (rank [i, j, 0])) (fun _ j pml2Entry s s' hs' => forEntries_refused_le
      (fun k pml1Entry s s' hs' => forkPage_refused_le hs') hs') h ?_ ?_
  · intro j hj s₁ hC hp
    obtain ⟨ht, hsame⟩ := hC.copied.source hinv hsrc hnew hne hw (by simp [hi]) (by simp)
    have hnone : child s₀.mem t₂ j = none := by
      rw [← hsame j hj]
      exact (child_eq_none_iff ht hj).2 hp
    refine hC.skip (by simp only [rank, List.foldl_cons, List.foldl_nil]; omega) fun q hq hlt => ?_
    obtain ⟨a, b, c, u₂, u₁, x, rfl, ⟨ha, hb, hc⟩, e₂, e₁, e₀⟩ := mem_leaves_iff.1 hq
    by_contra hge
    simp only [rank, List.foldl_cons, List.foldl_nil] at hlt hge
    obtain ⟨rfl, rfl⟩ : a = i ∧ b = j := by omega
    rw [h₂, Option.some.injEq] at e₂
    rw [← e₂, hnone] at e₁
    exact absurd e₁ (by simp)
  · intro j hj s₁ hC hp
    obtain ⟨ht, hsame⟩ := hC.copied.source hinv hsrc hnew hne hw (by simp [hi]) (by simp)
    obtain ⟨t₁, ht₁⟩ : ∃ x, child s₁.mem t₂ j = some x := by
      rw [← Option.ne_none_iff_exists']
      exact fun hn => hp ((child_eq_none_iff ht hj).1 hn)
    have haddr := addr_of_child ht hj ht₁
    rw [hsame j hj] at ht₁
    have hw₁ : walk (child s₀.mem) r [i, j] = some t₁ := by simp [walk, h₂, ht₁]
    have htop := (hC.copied.source hinv hsrc hnew hne hw₁ (by simp [hi, hj]) (by simp)).1.top
    rw [haddr, physToKernelPtr_eq (by omega)]
    exact fork_pml1 hinv hsrc hnew hne hi hj h₂ ht₁ hC

/-- **The loops of `ForkProcessMap`** copy all pages of the source. -/
theorem fork_pml3 (h : CopiedPages s₀ roots F₀ r (pmlGetAddr e) 0 s) :
    Attempt (Short s₀ F₀ (pmlGetAddr e) (closed (leaves s₀.mem r))) s
      (forEntries (highMemBase + r) (fun i pml3Entry =>
        forEntries (physToKernelPtr (pmlGetAddr pml3Entry)) fun j pml2Entry =>
          forEntries (physToKernelPtr (pmlGetAddr pml2Entry)) fun k pml1Entry =>
            forkPage e pml1Entry ((k <<< 12) ||| (j <<< 21) ||| (i <<< 30))) s)
      (CopiedPages s₀ roots F₀ r (pmlGetAddr e) (rank [512, 0, 0])) := by
  have hw : walk (child s₀.mem) r [] = some r := Radix.walk_nil
  refine forEntries_attempt (P := fun i => CopiedPages s₀ roots F₀ r (pmlGetAddr e)
    (rank [i, 0, 0])) (fun _ i pml3Entry s s' hs' => forEntries_refused_le
      (fun j pml2Entry s s' hs' => forEntries_refused_le
        (fun k pml1Entry s s' hs' => forkPage_refused_le hs') hs') hs') h ?_ ?_
  · intro i hi s₁ hC hp
    obtain ⟨ht, hsame⟩ := hC.copied.source hinv hsrc hnew hne hw (by simp) (by simp)
    have hnone : child s₀.mem r i = none := by
      rw [← hsame i hi]
      exact (child_eq_none_iff ht hi).2 hp
    refine hC.skip (by simp only [rank, List.foldl_cons, List.foldl_nil]; omega) fun q hq hlt => ?_
    obtain ⟨a, b, c, u₂, u₁, x, rfl, ⟨ha, hb, hc⟩, e₂, e₁, e₀⟩ := mem_leaves_iff.1 hq
    by_contra hge
    simp only [rank, List.foldl_cons, List.foldl_nil] at hlt hge
    obtain rfl : a = i := by omega
    rw [hnone] at e₂
    exact absurd e₂ (by simp)
  · intro i hi s₁ hC hp
    obtain ⟨ht, hsame⟩ := hC.copied.source hinv hsrc hnew hne hw (by simp) (by simp)
    obtain ⟨t₂, ht₂⟩ : ∃ x, child s₁.mem r i = some x := by
      rw [← Option.ne_none_iff_exists']
      exact fun hn => hp ((child_eq_none_iff ht hi).1 hn)
    have haddr := addr_of_child ht hi ht₂
    rw [hsame i hi] at ht₂
    have hw₂ : walk (child s₀.mem) r [i] = some t₂ := by simp [walk, ht₂]
    have htop := (hC.copied.source hinv hsrc hnew hne hw₂ (by simp [hi]) (by simp)).1.top
    rw [haddr, physToKernelPtr_eq (by omega)]
    exact fork_pml2 hinv hsrc hnew hne hi ht₂ hC

end Loops

/-- How many frames a fork of the tree at `r` takes. -/
def forkSize (m : Nat → Nat) (r : Nat) : Nat := 1 + (closed (leaves m r)).card

/-! ## A new address space -/

/-- **A new tree at `f`**, made of frames that were free: nothing in use before has changed. -/
structure Made (s s' : State) (roots F F' : List Nat) (f : Nat) : Prop where
  inv : Inv s' (f :: roots) F'
  root : f ∈ F
  perm : (F' ++ refs s'.mem (f :: roots)).Perm (F ++ refs s.mem roots)
  sub : ∀ x ∈ F', x ∈ F
  myPML4 : s'.myPML4 = s.myPML4
  refused : s'.refused = s.refused
  other : ∀ x, Frame x → x ∉ F → ∀ j < 512,
    s'.mem (highMemBase + x + 8 * j) = s.mem (highMemBase + x + 8 * j)
  rest : ∀ x ∈ F', ∀ j, 4 ≤ j → j < 512 →
    s'.mem (highMemBase + x + 8 * j) = s.mem (highMemBase + x + 8 * j)
  clean : Clean s'.mem f

theorem Made.same (h : Inv s roots F) (hmade : Made s s' roots F F' f) (hr : r ∈ roots) :
    ∀ x ∈ treeTables s.mem r, ∀ j < 512,
      s'.mem (highMemBase + x + 8 * j) = s.mem (highMemBase + x + 8 * j) := by
  intro x hx j hj
  have hxr := tables_mem hr hx
  exact hmade.other x (h.frame x hxr) (h.not_mem_free hxr) j hj

theorem createProcessMap_made (h : Inv s roots F) :
    (F = [] ∧ ∀ e s', createProcessMap s = some (e, s') → s.refused < s'.refused) ∨
    ∃ f F' s', createProcessMap s = some (userEntry f, s') ∧ Made s s' roots F F' f ∧
      F.length = F'.length + 1 ∧ ∀ j < 512, child s'.mem f j = none := by
  rcases createProcessMap_spec h with hshort | ⟨f, F', s', hrun, hf, htaken, hinv, hzero, hperm⟩
  · exact .inl hshort
  · have hempty : ∀ j < 512, child s'.mem f j = none := fun j hj => child_of_zero (hzero j hj)
    refine .inr ⟨f, F', s', hrun, ⟨hinv, htaken.free.mem_iff.2 (by simp), hperm, ?_,
      htaken.myPML4, htaken.refused, ?_, htaken.rest, ?_⟩, ?_, hempty⟩
    · exact fun x hx => htaken.free.mem_iff.2 (List.mem_cons_of_mem _ hx)
    · exact fun x hx hxF => htaken.same x hx fun hm => hxF (htaken.free.mem_iff.2 hm)
    · intro x hx j hj _
      have hxf := Radix.tables_sublist.subset hx
      rw [Radix.nodes_of_empty hempty, List.mem_singleton] at hxf
      rw [hxf, hzero j hj]
    · rw [htaken.free.length_eq, List.length_cons]

/-- A new tree that has grown. -/
theorem Made.grew {s'' : State} {F'' : List Nat}
    (hmade : Made s s' roots F F' f) (hgrew : Grew s' s'' (f :: roots) F' F'' f)
    (hinv : Inv s'' (f :: roots) F'') (htables : ∀ x ∈ treeTables s'.mem f, x ∈ F) :
    Made s s'' roots F F'' f where
  inv := hinv
  root := hmade.root
  perm := hgrew.perm.trans hmade.perm
  sub x hx := hmade.sub x (hgrew.sub x hx)
  myPML4 := hgrew.myPML4.trans hmade.myPML4
  refused := hgrew.refused.trans hmade.refused
  other x hx hxF j hj := by
    rw [hgrew.other x hx (fun hm => hxF (hmade.sub x hm)) (fun hm => hxF (htables x hm)) j hj,
      hmade.other x hx hxF j hj]
  rest x hx j h4 hj := by
    rw [hgrew.rest x hx j h4 hj, hmade.rest x (hgrew.sub x hx) j h4 hj]
  clean := hgrew.clean hmade.clean

/-- **`ForkProcessMap`** makes a tree with the pages of the running process, each with the same
words. -/
theorem forkProcessMap_copies (h : Inv s roots F) (hr : pmlGetAddr (s.myPML4 0) ∈ roots) :
    (F.length < forkSize s.mem (pmlGetAddr (s.myPML4 0)) ∧
      ∀ e s', forkProcessMap s = some (e, s') → s.refused < s'.refused) ∨
    ∃ f F' s', forkProcessMap s = some (userEntry f, s') ∧ Made s s' roots F F' f ∧
      treeShape s'.mem f = closed (leaves s.mem (pmlGetAddr (s.myPML4 0))) ∧
      ∀ q, (∀ k ∈ q, k < 512) → q.length = 3 → ∀ x,
        walk (child s.mem) (pmlGetAddr (s.myPML4 0)) q = some x →
        ∃ g, walk (child s'.mem) f q = some g ∧
          ∀ j < 512, s'.mem (highMemBase + g + 8 * j) = s.mem (highMemBase + x + 8 * j) := by
  obtain ⟨r, hre⟩ : ∃ r, pmlGetAddr (s.myPML4 0) = r := ⟨_, rfl⟩
  rw [hre] at hr ⊢
  rcases createProcessMap_made h with ⟨hF, hbad⟩ | ⟨f, F₀, s₀, hrun, hmade, hlen, hempty⟩
  · refine .inl ⟨?_, fun e s' hs' => ?_⟩
    · rw [hF, forkSize, List.length_nil]
      omega
    · obtain ⟨⟨e₀, s₀⟩, h₀, hs'⟩ := Option.bind_eq_some_iff.1 hs'
      obtain ⟨s₁, h₁, hs'⟩ := Option.bind_eq_some_iff.1 hs'
      obtain ⟨-, rfl⟩ := Prod.mk.inj (Option.some.inj hs')
      refine (hbad e₀ s₀ h₀).trans_le (forEntries_refused_le ?_ h₁)
      exact fun i pml3Entry s s' hs' => forEntries_refused_le
        (fun j pml2Entry s s' hs' => forEntries_refused_le
          (fun k pml1Entry s s' hs' => forkPage_refused_le hs') hs') hs'
  · have hf := hmade.inv.frame f (root_mem_refs (by simp))
    have hfe : pmlGetAddr (userEntry f) = f := userEntry_names.addr f hf
    have hr₀ : r ∈ f :: roots := List.mem_cons_of_mem _ hr
    have hroot := physToKernelPtr_root hmade.inv.toDistinct hr₀
    have hleaves := leaves_congr (hmade.same h hr)
    have hf₀ : ∀ x ∈ treeTables s₀.mem f, x = f := by
      intro x hx
      have := Radix.tables_sublist.subset hx
      rwa [Radix.nodes_of_empty hempty, List.mem_singleton] at this
    -- The new root was free, so it is not the source.
    have hne : r ≠ pmlGetAddr (userEntry f) := by
      rw [hfe]
      rintro rfl
      exact h.not_mem_free (root_mem_refs hr) hmade.root
    have hstart : CopiedPages s₀ (f :: roots) F₀ r (pmlGetAddr (userEntry f)) 0 s₀ := by
      refine ⟨⟨F₀, hmade.inv, .refl _ _ _ _, ?_⟩, ?_⟩
      · rw [hfe, treeShape_of_empty hempty, passed_zero]
        rfl
      · rw [passed_zero]
        simp
    have hloop := fork_pml3 hmade.inv hr₀ (by simp [hfe]) hne hstart
    rw [hfe, hleaves] at hloop
    have hbody : forkProcessMap s = (forEntries (highMemBase + r) (fun i pml3Entry =>
        forEntries (physToKernelPtr (pmlGetAddr pml3Entry)) fun j pml2Entry =>
          forEntries (physToKernelPtr (pmlGetAddr pml2Entry)) fun k pml1Entry =>
            forkPage (userEntry f) pml1Entry ((k <<< 12) ||| (j <<< 21) ||| (i <<< 30))) s₀).map
          fun s' => (userEntry f, s') := by
      rw [forkProcessMap, hrun]
      simp only [Option.bind_eq_bind, Option.bind_some, hmade.myPML4, hre, hroot]
      rw [Option.map_eq_bind, Function.comp_def]
    rw [hbody]
    have hall : ∀ q ∈ leaves s.mem r, rank q < rank [512, 0, 0] := by
      intro q hq
      obtain ⟨a, b, c, t₂, t₁, x, rfl, ⟨ha, hb, hc⟩, -⟩ := mem_leaves_iff.1 hq
      simp only [rank, List.foldl_cons, List.foldl_nil]
      omega
    rcases hloop with ⟨hshort, hbad⟩ | ⟨s', hrun', href, ⟨F', hinv', hgrew, hshape⟩, hwords⟩
    · refine .inl ⟨?_, fun e s' hs' => ?_⟩
      · rw [Short, treeShape_of_empty hempty, Finset.card_empty] at hshort
        rw [forkSize]
        omega
      · obtain ⟨s₁, h₁, hs'⟩ := Option.map_eq_some_iff.1 hs'
        obtain ⟨-, rfl⟩ := Prod.mk.inj hs'
        rw [← hmade.refused]
        exact hbad s₁ h₁
    · have hpassed : passed (leaves s.mem r) (rank [512, 0, 0]) = leaves s.mem r :=
        Finset.filter_true_of_mem hall
      rw [hleaves, hpassed] at hshape hwords
      refine .inr ⟨f, F', s', by rw [hrun']; rfl, hmade.grew hgrew hinv' ?_, hshape, ?_⟩
      · intro x hx
        rw [hf₀ x hx]
        exact hmade.root
      · intro q hq hlen x hx
        have hsource := hmade.same h hr
        have hx₀ : walk (child s₀.mem) r q = some x := by
          rw [Radix.walk_congr (fun y hy j hj => child_congr (hsource y hy j hj)) hq hlen.le, hx]
        obtain ⟨g, hg, hsame⟩ := hwords q (mem_leaves.2 ⟨⟨hlen, hq⟩, x, hx⟩) x hx₀
        have hxr := walk_mem_refs hr hx hq hlen.le
        refine ⟨g, hg, fun j hj => ?_⟩
        rw [hsame j hj, hmade.other x (h.frame x hxr) (h.not_mem_free hxr) j hj]

theorem forkProcessMap_spec (h : Inv s roots F) (hr : pmlGetAddr (s.myPML4 0) ∈ roots) :
    (F.length < forkSize s.mem (pmlGetAddr (s.myPML4 0)) ∧
      ∀ e s', forkProcessMap s = some (e, s') → s.refused < s'.refused) ∨
    ∃ f F' s', forkProcessMap s = some (userEntry f, s') ∧ Made s s' roots F F' f ∧
      treeShape s'.mem f = closed (leaves s.mem (pmlGetAddr (s.myPML4 0))) := by
  rcases forkProcessMap_copies h hr with hshort | ⟨f, F', s', hrun, hmade, hshape, -⟩
  · exact .inl hshort
  · exact .inr ⟨f, F', s', hrun, hmade, hshape⟩

end ChenixOS.MemoryManager
