import ChenixOS.Memory.Mapping

/-!
# Address spaces made and freed

`CreateProcessMap` makes a tree of one empty table. `FreeProcessMap` walks a tree level by level
and gives back each frame of it. While it does, it reads tables whose entries below are already
free again: the loop is right because releasing a frame writes to nothing but free frames, and a
table becomes free only after its last entry was read.

`Attempt` is what the loops are proved with. A run that asks for pages may be refused one, and then
there were too few; otherwise it ends in a state with the property wanted.
-/

namespace ChenixOS.MemoryManager

open Radix (walk)

variable {s s' : State} {roots F F' ks : List Nat} {r t f i n e : Nat}

/-! ## Loops over entries -/

/-- The run `run`, begun in `s`, ends with `Q` and all its requests satisfied, or some request is
refused and `short` says why. -/
def Attempt (short : Prop) (s : State) (run : Option State) (Q : State → Prop) : Prop :=
  (short ∧ ∀ s', run = some s' → s.refused < s'.refused) ∨
  ∃ s', run = some s' ∧ s'.refused = s.refused ∧ Q s'

/-- **The loop over the present entries of a table**, with the invariant `P`. -/
theorem forEntries_attempt {short : Prop} {P : Nat → State → Prop} {table : Nat}
    {body : Nat → Nat → State → Option State}
    (hmono : short → ∀ i e s s', body i e s = some s' → s.refused ≤ s'.refused)
    (hstart : P 0 s)
    (habsent : ∀ i < 512, ∀ s, P i s → pmlGetP (s.entry table i) = 0 → P (i + 1) s)
    (hpresent : ∀ i < 512, ∀ s, P i s → pmlGetP (s.entry table i) ≠ 0 →
      Attempt short s (body i (s.entry table i) s) (P (i + 1))) :
    Attempt short s (forEntries table body s) (P 512) := by
  have hloop : ∀ n ≤ 512, Attempt short s ((List.range n).foldlM (fun s i =>
      if pmlGetP (s.entry table i) = 0 then some s else body i (s.entry table i) s) s) (P n) := by
    intro n hn
    induction n with
    | zero => exact .inr ⟨s, rfl, rfl, hstart⟩
    | succ n ih =>
      rw [List.range_succ, List.foldlM_append]
      simp only [List.foldlM_cons, List.foldlM_nil, Option.bind_eq_bind, Option.pure_def]
      rcases ih (by omega) with ⟨hshort, hbad⟩ | ⟨s₁, hrun, href, hP⟩
      · -- A request was refused in an earlier round.
        refine .inl ⟨hshort, fun s' hs' => ?_⟩
        obtain ⟨s₁, hs₁, hs'⟩ := Option.bind_eq_some_iff.1 hs'
        obtain ⟨s₂, hs₂, hs'⟩ := Option.bind_eq_some_iff.1 hs'
        obtain rfl := Option.some.inj hs'
        refine (hbad s₁ hs₁).trans_le ?_
        split at hs₂
        · obtain rfl := Option.some.inj hs₂
          exact le_rfl
        · exact hmono hshort _ _ _ _ hs₂
      · rw [hrun, Option.bind_some]
        by_cases hp : pmlGetP (s₁.entry table n) = 0
        · rw [if_pos hp]
          exact .inr ⟨s₁, rfl, href, habsent n (by omega) s₁ hP hp⟩
        · rw [if_neg hp]
          rcases hpresent n (by omega) s₁ hP hp with ⟨hshort, hbad⟩ | ⟨s₂, hrun₂, href₂, hP₂⟩
          · refine .inl ⟨hshort, fun s' hs' => ?_⟩
            obtain ⟨s₂, hs₂, hs'⟩ := Option.bind_eq_some_iff.1 hs'
            obtain rfl := Option.some.inj hs'
            exact href ▸ hbad s₂ hs₂
          · exact .inr ⟨s₂, by rw [hrun₂]; rfl, href₂.trans href, hP₂⟩
  exact hloop 512 le_rfl

theorem forEntries_refused_le {table : Nat} {body : Nat → Nat → State → Option State}
    (hmono : ∀ i e s s', body i e s = some s' → s.refused ≤ s'.refused)
    (h : forEntries table body s = some s') : s.refused ≤ s'.refused := by
  have hloop : ∀ (is : List Nat) (s : State), is.foldlM (fun s i =>
      if pmlGetP (s.entry table i) = 0 then some s else body i (s.entry table i) s) s = some s' →
      s.refused ≤ s'.refused := by
    intro is
    induction is with
    | nil =>
      intro s hs
      obtain rfl := Option.some.inj hs
      exact le_rfl
    | cons i is ih =>
      intro s hs
      obtain ⟨s₁, hs₁, hs⟩ := Option.bind_eq_some_iff.1 hs
      refine le_trans ?_ (ih s₁ hs)
      dsimp only at hs₁
      split at hs₁
      · obtain rfl := Option.some.inj hs₁
        exact le_rfl
      · exact hmono _ _ _ _ hs₁
  exact hloop _ s h

/-! ## Making an address space -/

theorem tree_of_empty (h : ∀ j < 512, child s.mem f j = none) : tree s.mem f = [f] :=
  Radix.nodes_of_empty h

theorem treeShape_of_empty (h : ∀ j < 512, child s.mem f j = none) : treeShape s.mem f = ∅ :=
  Radix.shape_of_empty h

theorem refs_cons (m : Nat → Nat) (r : Nat) (roots : List Nat) :
    refs m (r :: roots) = tree m r ++ refs m roots := List.flatMap_cons

/-- Two lists of frames and references with the same members: nothing was lost or doubled. -/
theorem Distinct.of_perm {m m' : Nat → Nat} {roots' : List Nat} (h : Distinct m roots F)
    (hpool : ∀ x ∈ F, Frame x)
    (hp : (F' ++ refs m' roots').Perm (F ++ refs m roots)) : Distinct m' roots' F' := by
  refine ⟨hp.nodup_iff.2 h.nodup, fun x hx => ?_⟩
  rcases List.mem_append.1 (hp.mem_iff.1 (List.mem_append_right _ hx)) with hF | hr
  · exact hpool x hF
  · exact h.frame x hr

/-- **`CreateProcessMap`** makes a tree of one free frame. -/
theorem createProcessMap_spec (h : Inv s roots F) :
    (F = [] ∧ ∀ e s', createProcessMap s = some (e, s') → s.refused < s'.refused) ∨
    ∃ f F' s', createProcessMap s = some (userEntry f, s') ∧ Frame f ∧ Taken s s' F F' f ∧
      Inv s' (f :: roots) F' ∧ (∀ j < 512, s'.mem (highMemBase + f + 8 * j) = 0) ∧
      (F' ++ refs s'.mem (f :: roots)).Perm (F ++ refs s.mem roots) := by
  rcases allocatePages_spec h.pool with ⟨hF, hal⟩ | ⟨f, F', s₁, hperm, hal, hmoved, hrefused⟩
  · left
    refine ⟨hF, fun e s' hs' => ?_⟩
    rw [createProcessMap, hal] at hs'
    obtain ⟨-, rfl⟩ := Prod.mk.inj (Option.some.inj hs')
    rw [refused_clearTable]
    exact Nat.lt_succ_self _
  · right
    have hf := h.pool.frame f (hperm.mem_iff.2 (by simp))
    have hft := hf.top
    obtain ⟨hsame, hzero, hpage⟩ := State.clearTable_spec (s := s₁) hf
    have htaken := Moved.taken h.pool hperm hmoved hrefused hsame hpage
    have hempty : ∀ j < 512, child (s₁.clearTable (highMemBase + f)).mem f j = none :=
      fun j hj => child_of_zero (hzero j hj)
    have hall : (F' ++ refs (s₁.clearTable (highMemBase + f)).mem (f :: roots)).Perm
        (F ++ refs s.mem roots) := by
      rw [refs_cons, tree_of_empty hempty, refs_congr (htaken.refs_eq h)]
      exact List.perm_middle.trans (hperm.symm.append_right _)
    refine ⟨f, F', _, ?_, hf, htaken, ⟨h.toDistinct.of_perm h.pool.frame hall, htaken.pool⟩,
      hzero, hall⟩
    rw [createProcessMap, hal]
    simp only [Option.bind_eq_bind, Option.bind_some, physToKernelPtr_eq (by omega : f < 2 ^ 39),
      kernelToPhysPtr_eq (by omega : f < 2 ^ 39)]

/-! ## Freeing an address space -/

/-- The frames `X` were given back. -/
structure Freed (s s' : State) (F F' X : List Nat) : Prop where
  perm : F'.Perm (X ++ F)
  moved : Moved s s' F'
  refused : s'.refused = s.refused

theorem Moved.refl (h : Pool s F) : Moved s s F :=
  ⟨h, rfl, fun _ _ => rfl, fun _ _ _ _ _ => rfl⟩

theorem Freed.trans {s'' : State} {F'' X Y : List Nat} (h₁ : Freed s s' F F' X)
    (h₂ : Freed s' s'' F' F'' Y) : Freed s s'' F F'' (X ++ Y) where
  perm := by
    refine h₂.perm.trans ((h₁.perm.append_left _).trans ?_)
    rw [← List.append_assoc]
    exact List.perm_append_comm.append_right _
  moved := by
    refine ⟨h₂.moved.pool, h₂.moved.myPML4.trans h₁.moved.myPML4, fun a ha => ?_, ?_⟩
    · rw [h₂.moved.frame a ha, h₁.moved.frame a]
      intro ha'
      exact ha (pages_subset (fun x hx => h₂.perm.mem_iff.2 (List.mem_append_right _ hx)) ha')
    · intro x j hx h4 hj
      rw [h₂.moved.words x j hx h4 hj, h₁.moved.words x j hx h4 hj]
  refused := h₂.refused.trans h₁.refused

/-- The words of a frame in use are the same after others were given back. -/
theorem Freed.word {X : List Nat} (h : Freed s s' F F' X) (ht : Frame t) (htF : t ∉ F')
    (hi : i < 512) : s'.mem (highMemBase + t + 8 * i) = s.mem (highMemBase + t + 8 * i) :=
  h.moved.frame _ (not_mem_pages ht hi h.moved.pool.frame htF)

/-- `free` gives back the frames of a tree of height `n`. -/
def Frees (n : Nat) (free : Nat → State → Option State) : Prop :=
  ∀ s F t, Pool s F → (F ++ Radix.nodes 512 (child s.mem) n t).Nodup →
    (∀ x ∈ Radix.nodes 512 (child s.mem) n t, Frame x) →
    ∃ s' F', free t s = some s' ∧ Freed s s' F F' (Radix.nodes 512 (child s.mem) n t)

theorem frees_page : Frees 0 fun page => freePages page 1 := by
  intro s F t hpool hnd hframe
  have ht : t ∉ F := fun hF => (List.nodup_append.1 hnd).2.2 t hF t (by simp [Radix.collect]) rfl
  obtain ⟨s', hrun, hmoved, hrefused⟩ := freePages_spec hpool (hframe t (by simp [Radix.collect])) ht
  exact ⟨s', t :: F, hrun, .refl _, hmoved, hrefused⟩

/-- The nodes below the first `i` entries of a table. -/
def nodesBelow (m : Nat → Nat) (n t i : Nat) : List Nat :=
  (List.range i).flatMap fun j => (child m t j).elim [] (Radix.nodes 512 (child m) n)

theorem nodesBelow_succ (m : Nat → Nat) (n t i : Nat) : nodesBelow m n t (i + 1) =
    nodesBelow m n t i ++ (child m t i).elim [] (Radix.nodes 512 (child m) n) := by
  rw [nodesBelow, List.range_succ, List.flatMap_append]
  simp [nodesBelow]

theorem nodesBelow_sublist (m : Nat → Nat) (n t : Nat) (hi : i ≤ 512) :
    (nodesBelow m n t i).Sublist (nodesBelow m n t 512) :=
  (List.range_sublist.2 hi).flatMap _

theorem nodes_succ (m : Nat → Nat) (n t : Nat) :
    Radix.nodes 512 (child m) (n + 1) t = t :: nodesBelow m n t 512 := rfl

/-- **A level of `FreeProcessMap`**: what is below each present entry, then the table. -/
theorem Frees.table {below : Nat → State → Option State} (h : Frees n below) :
    Frees (n + 1) fun t => freeProcessPML below (physToKernelPtr t) := by
  intro s F t hpool hnd hframe
  rw [nodes_succ] at hnd hframe ⊢
  have ht : Frame t := hframe t (by simp)
  have htop := ht.top
  -- The table and what is below the entries already visited are different frames.
  have hvisited : ∀ i ≤ 512, (t :: (nodesBelow s.mem n t i ++ F)).Nodup := by
    intro i hi
    have hsub : (F ++ t :: nodesBelow s.mem n t i).Sublist (F ++ t :: nodesBelow s.mem n t 512) :=
      ((nodesBelow_sublist s.mem n t hi).cons_cons t).append_left F
    refine ((List.perm_middle.trans ?_).nodup_iff).1 (hnd.sublist hsub)
    exact List.perm_append_comm.cons t
  have hloop := @forEntries_attempt s False
    (fun i s' => ∃ F', Freed s s' F F' (nodesBelow s.mem n t i)) (highMemBase + t)
    (fun _ entry => below (pmlGetAddr entry)) (fun hF => hF.elim)
    ⟨F, .refl _, .refl hpool, rfl⟩ ?_ ?_
  · obtain ⟨hF, -⟩ | ⟨s₁, hrun, -, F₁, hfreed⟩ := hloop
    · exact hF.elim
    · have htF : t ∉ F₁ := by
        rw [hfreed.perm.mem_iff]
        exact (List.nodup_cons.1 (hvisited 512 le_rfl)).1
      obtain ⟨s', hrun', hmoved, hrefused⟩ := freePages_spec hfreed.moved.pool ht htF
      refine ⟨s', t :: F₁, ?_, ?_⟩
      · show freeProcessPML below (physToKernelPtr t) s = some s'
        rw [freeProcessPML, physToKernelPtr_eq (by omega), hrun]
        simp only [Option.bind_eq_bind, Option.bind_some, kernelToPhysPtr_eq (by omega : t < 2 ^ 39)]
        exact hrun'
      · generalize nodesBelow s.mem n t 512 = X at hfreed
        have hall := hfreed.trans (Y := [t]) ⟨.refl _, hmoved, hrefused⟩
        exact ⟨hall.perm.trans (List.perm_append_comm.append_right _), hall.moved, hall.refused⟩
  · rintro i hi s₁ ⟨F₁, hfreed⟩ hp
    have htF : t ∉ F₁ := by
      rw [hfreed.perm.mem_iff]
      exact (List.nodup_cons.1 (hvisited i hi.le)).1
    refine ⟨F₁, ?_⟩
    have hnone : child s.mem t i = none := by
      rw [← child_congr (hfreed.word ht htF hi)]
      exact (child_eq_none_iff ht hi).2 hp
    rw [nodesBelow_succ, hnone]
    simpa using hfreed
  · rintro i hi s₁ ⟨F₁, hfreed⟩ hp
    have htF : t ∉ F₁ := by
      rw [hfreed.perm.mem_iff]
      exact (List.nodup_cons.1 (hvisited i hi.le)).1
    obtain ⟨c, hc⟩ : ∃ c, child s₁.mem t i = some c := by
      rw [← Option.ne_none_iff_exists']
      exact fun hn => hp ((child_eq_none_iff ht hi).1 hn)
    have hc₀ : child s.mem t i = some c := by
      rw [← child_congr (hfreed.word ht htF hi), hc]
    have hsucc := nodesBelow_succ s.mem n t i
    rw [hc₀, Option.elim_some] at hsucc
    have hnd' : (F₁ ++ Radix.nodes 512 (child s.mem) n c).Nodup := by
      have := (List.nodup_cons.1 (hvisited (i + 1) hi)).2
      rw [hsucc] at this
      refine ((hfreed.perm.append_right _).trans ?_).nodup_iff.2 this
      rw [List.append_assoc, List.append_assoc]
      exact List.perm_append_comm.append_left _
    have hframe' : ∀ x ∈ Radix.nodes 512 (child s.mem) n c, Frame x := by
      intro x hx
      refine hframe x (List.mem_cons_of_mem _ ((nodesBelow_sublist s.mem n t hi).subset ?_))
      rw [hsucc]
      exact List.mem_append_right _ hx
    -- The subtree is still as it was: none of its tables is free yet.
    have hsame : Radix.nodes 512 (child s₁.mem) n c = Radix.nodes 512 (child s.mem) n c := by
      refine Radix.collect_congr fun x hx j hj => child_congr ?_
      have hx' := Radix.tables_sublist.subset hx
      refine hfreed.word (hframe' x hx') (fun hF => ?_) hj
      exact (List.nodup_append.1 hnd').2.2 x hF x hx' rfl
    obtain ⟨s₂, F₂, hrun, hfreed₂⟩ := h s₁ F₁ c hfreed.moved.pool (hsame ▸ hnd') (hsame ▸ hframe')
    rw [hsame] at hfreed₂
    refine .inr ⟨s₂, ?_, hfreed₂.refused, F₂, ?_⟩
    · rw [addr_of_child ht hi hc]
      exact hrun
    · rw [hsucc]
      exact hfreed.trans hfreed₂

theorem frees_processMap : Frees 3 fun t => freeProcessPML3 (physToKernelPtr t) :=
  frees_page.table.table.table

/-- **`FreeProcessMap`** gives back the frames of the tree, and no others. -/
theorem freeProcessMap_spec (h : Inv s roots F) (hr : pmlGetAddr e ∈ roots) :
    ∃ s' F', freeProcessMap e s = some s' ∧
      Freed s s' F F' (tree s.mem (pmlGetAddr e)) ∧ Inv s' (roots.erase (pmlGetAddr e)) F' ∧
      (∀ r ∈ roots.erase (pmlGetAddr e), ∀ x ∈ treeTables s.mem r, ∀ j < 512,
        s'.mem (highMemBase + x + 8 * j) = s.mem (highMemBase + x + 8 * j)) ∧
      (F' ++ refs s'.mem (roots.erase (pmlGetAddr e))).Perm (F ++ refs s.mem roots) := by
  obtain ⟨r, hre⟩ : ∃ r, pmlGetAddr e = r := ⟨_, rfl⟩
  rw [hre] at hr ⊢
  have hsplit : (F ++ refs s.mem roots).Perm
      (F ++ (tree s.mem r ++ refs s.mem (roots.erase r))) := by
    rw [← refs_cons]
    exact ((List.perm_cons_erase hr).flatMap_right _).append_left _
  have hnd := hsplit.nodup_iff.1 h.nodup
  have hframe : ∀ x ∈ tree s.mem r, Frame x := fun x hx => h.frame x (mem_refs hr hx)
  rw [← List.append_assoc] at hnd
  obtain ⟨s', F', hrun, hfreed⟩ := frees_processMap s F r h.pool (List.nodup_append.1 hnd).1 hframe
  have hother : ∀ r' ∈ roots.erase r, ∀ x ∈ treeTables s.mem r', ∀ j < 512,
      s'.mem (highMemBase + x + 8 * j) = s.mem (highMemBase + x + 8 * j) := by
    intro r' hr' x hx j hj
    have hxr := tables_mem hr' hx
    refine hfreed.word (h.frame x (tables_mem (List.mem_of_mem_erase hr') hx)) (fun hF => ?_) hj
    have hxF : x ∈ F ++ tree s.mem r :=
      List.perm_append_comm.mem_iff.1 (hfreed.perm.mem_iff.1 hF)
    exact (List.nodup_append.1 hnd).2.2 x hxF x hxr rfl
  have hrefs : refs s'.mem (roots.erase r) = refs s.mem (roots.erase r) :=
    refs_congr hother
  have hall : (F' ++ refs s'.mem (roots.erase r)).Perm (F ++ refs s.mem roots) := by
    rw [hrefs]
    refine ((hfreed.perm.trans List.perm_append_comm).append_right _).trans ?_
    rw [List.append_assoc]
    exact hsplit.symm
  refine ⟨s', F', ?_, hfreed,
    ⟨h.toDistinct.of_perm h.pool.frame hall, hfreed.moved.pool⟩, hother, hall⟩
  rw [freeProcessMap, hre]
  exact hrun

end ChenixOS.MemoryManager
