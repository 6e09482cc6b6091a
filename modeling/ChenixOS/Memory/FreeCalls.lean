import ChenixOS.Memory.SinglePage

/-!
# Freeing pages that are not there

`UnmapProcessPage` goes down to a PML1 without looking whether the entries on the way are present.
Where one is not, it goes on from the address 0 in that entry: what it clears then is some word that
the contents of physical page 0 lead to.

**What a call can do.** Every step of `syscall_free` clears one word, so mappings only go away, and
what was lost once stays lost. The call does what it should exactly when no word that is cleared
through a missing table matters: none that is outside of the tables of the process, unless it is 0
already, and none on the way to a page that is not to be freed.
-/

namespace ChenixOS.MemoryManager

open Radix (walk Through)

variable {s s' s'' : State} {roots F vs : List Nat} {m m' : Nat → Nat} {r a e u v t i x : Nat}

/-! ## Words that are cleared -/

/-- Some words were cleared. -/
structure Emptied (s s' : State) : Prop where
  myPML4 : s'.myPML4 = s.myPML4
  mem : ∀ a, s'.mem a = s.mem a ∨ s'.mem a = 0

theorem Emptied.refl (s : State) : Emptied s s := ⟨rfl, fun _ => .inl rfl⟩

theorem Emptied.trans (h₁ : Emptied s s') (h₂ : Emptied s' s'') : Emptied s s'' := by
  refine ⟨h₂.myPML4.trans h₁.myPML4, fun a => ?_⟩
  rcases h₂.mem a with h | h
  · rw [h]
    exact h₁.mem a
  · exact .inr h

/-- What is 0 stays so. -/
theorem Emptied.zero (h : Emptied s s') (ha : s.mem a = 0) : s'.mem a = 0 := by
  rcases h.mem a with h | h
  · rw [h, ha]
  · exact h

theorem Emptied.child_some (h : Emptied s s') (x i c : Nat) (hc : child s'.mem x i = some c) :
    child s.mem x i = some c := by
  rcases h.mem (highMemBase + x + 8 * i) with hw | hw
  · rw [← child_congr hw]
    exact hc
  · rw [child_of_zero hw] at hc
    exact absurd hc (by simp)

theorem Emptied.frameOf_some (h : Emptied s s') (hx : frameOf s' r u = some x) :
    frameOf s r u = some x :=
  Radix.walk_mono h.child_some hx

theorem Emptied.frameOf_eq_none (h : Emptied s s') (hu : frameOf s r u = none) :
    frameOf s' r u = none := by
  rw [Option.eq_none_iff_forall_ne_some]
  intro x hx
  rw [h.frameOf_some hx] at hu
  exact absurd hu (by simp)

theorem Emptied.tables (h : Emptied s s') (hx : x ∈ treeTables s'.mem r) :
    x ∈ treeTables s.mem r :=
  (Radix.collect_sublist_of_le h.child_some _).subset hx

/-- Frames that are all different stay so. -/
theorem Emptied.distinct (h : Emptied s s') (hd : Distinct s.mem roots F) :
    Distinct s'.mem roots F := by
  have hsub : (refs s'.mem roots).Sublist (refs s.mem roots) :=
    List.Sublist.flatMap_right _ fun r _ => Radix.collect_sublist_of_le h.child_some _
  exact ⟨hd.nodup.sublist (hsub.append_left F), fun f hf => hd.frame f (hsub.subset hf)⟩

/-! ## One page -/

/-- The word that `UnmapProcessPage` clears, found by way of entries that may not be present. -/
def clearedWord (s : State) (pml4Entry virt : Nat) : Nat :=
  let pml3 := physToKernelPtr (pmlGetAddr pml4Entry)
  let pml2 := physToKernelPtr (pmlGetAddr (s.entry pml3 (getPML3Index virt)))
  let pml1 := physToKernelPtr (pmlGetAddr (s.entry pml2 (getPML2Index virt)))
  State.entryAt pml1 (getPML1Index virt)

theorem unmapProcessPage_mem (s : State) (e v : Nat) : (unmapProcessPage e v s).mem =
    Function.update s.mem (clearedWord s e v) 0 :=
  State.mem_store s _ _

theorem unmapProcessPage_emptied (s : State) (e v : Nat) :
    Emptied s (unmapProcessPage e v s) := by
  refine ⟨State.myPML4_store s _ _, fun a => ?_⟩
  rw [unmapProcessPage_mem]
  by_cases ha : a = clearedWord s e v
  · rw [ha, Function.update_self]
    exact .inr rfl
  · rw [Function.update_of_ne ha]
    exact .inl rfl

/-- The walk to the page of `u` reads the word at `a`. -/
def Reads (s : State) (r u a : Nat) : Prop :=
  Through (child s.mem) (fun x i => highMemBase + x + 8 * i = a) r (pathOf u)

theorem frameOf_unmap_of_not_reads (h : ¬ Reads s r u (clearedWord s e v)) :
    frameOf (unmapProcessPage e v s) r u = frameOf s r u := by
  refine Radix.walk_of_not_through (fun x i hxi => child_congr ?_) h
  rw [unmapProcessPage_mem, Function.update_of_ne hxi]

theorem frameOf_unmap_of_reads (h : Reads s r u (clearedWord s e v)) :
    frameOf (unmapProcessPage e v s) r u = none := by
  refine Radix.walk_of_through (fun x i hxi => child_congr ?_) (fun x i hxi => child_of_zero ?_) h
  · rw [unmapProcessPage_mem, Function.update_of_ne hxi]
  · rw [unmapProcessPage_mem, hxi, Function.update_self]

section Table

variable (h : Distinct s.mem roots F) (hr : pmlGetAddr e ∈ roots)
  (hw : walk (child s.mem) (pmlGetAddr e) [getPML3Index v, getPML2Index v] = some t)

include h hr hw

/-- Where the tables are there, the word is the entry of the page. -/
theorem clearedWord_of_table :
    clearedWord s e v = highMemBase + t + 8 * getPML1Index v := by
  obtain ⟨t₂, hroot, -, h₂, -, h₁⟩ := table_addresses h hr hw
  have htf := h.frame t (walk_mem_refs hr hw (by simp [getPML3Index_lt, getPML2Index_lt]) (by simp))
  rw [clearedWord, hroot, h₂, h₁, entryAt_eq htf (getPML1Index_lt v)]

theorem reads_self : Reads s (pmlGetAddr e) v (clearedWord s e v) :=
  Radix.through_append hw (clearedWord_of_table h hr hw).symm []

/-- It is on the way to no other page. -/
theorem pathOf_eq_of_reads (hu : Reads s (pmlGetAddr e) u (clearedWord s e v)) :
    pathOf u = pathOf v := by
  rw [clearedWord_of_table h hr hw, Reads] at hu
  obtain ⟨js, i, rest, x, hpath, hwx, hxi⟩ := hu.exists
  have hlt := pathOf_lt u
  have hlen : (pathOf u).length = 3 := rfl
  rw [hpath] at hlt
  rw [hpath, List.length_append, List.length_cons] at hlen
  have hjs : ∀ j ∈ js, j < 512 := fun j hj => hlt j (List.mem_append_left _ hj)
  have hks : ∀ k ∈ [getPML3Index v, getPML2Index v], k < 512 := by
    simp [getPML3Index_lt, getPML2Index_lt]
  have hxf := h.frame x (walk_mem_refs hr hwx hjs (by omega))
  have htf := h.frame t (walk_mem_refs hr hw hks (by simp))
  have hsame : x = t ∧ i = getPML1Index v := by
    by_contra hne
    exact word_ne hxf htf (hlt i (by simp)) (getPML1Index_lt v) hne hxi
  obtain ⟨rfl, rfl⟩ := hsame
  have htables : js = [getPML3Index v, getPML2Index v] :=
    Radix.walk_inj (h.tree_nodup hr) hjs hks (by omega) (by simp) hwx hw
  subst htables
  have hrest : rest = [] := by
    simp only [List.length_cons, List.length_nil] at hlen
    exact List.length_eq_zero_iff.1 (by omega)
  rw [hpath, hrest]
  rfl

end Table

/-! ## A call -/

/-- The pages `vs` are unmapped one after the other. -/
def unmapPages (vs : List Nat) (s : State) : State :=
  vs.foldl (fun s v => unmapProcessPage (s.myPML4 0) v s) s

theorem syscallFree_eq (base numPages : Nat) (s : State) :
    (syscallFree base numPages s).map Prod.snd = some (unmapPages (callPages base numPages) s) := by
  rw [syscallFree, pageCall_eq]
  exact List.foldlM_pure

theorem unmapPages_append (vs ws : List Nat) (s : State) :
    unmapPages (vs ++ ws) s = unmapPages ws (unmapPages vs s) :=
  List.foldl_append

theorem unmapPages_emptied (vs : List Nat) (s : State) : Emptied s (unmapPages vs s) := by
  induction vs generalizing s with
  | nil => exact .refl s
  | cons v vs ih => exact (unmapProcessPage_emptied s _ v).trans (ih _)

/-- The state before the last page. -/
theorem unmapPages_concat (vs : List Nat) (v : Nat) (s : State) : unmapPages (vs ++ [v]) s =
    unmapProcessPage (s.myPML4 0) v (unmapPages vs s) := by
  rw [unmapPages_append, ← (unmapPages_emptied vs s).myPML4]
  rfl

/-- `P` holds for each of the pages when its turn comes. -/
def AtTurns (vs : List Nat) (s : State) (P : State → Nat → Prop) : Prop :=
  ∀ pre v post, vs = pre ++ v :: post → P (unmapPages pre s) v

/-- The address `u` is in none of the pages `vs`. -/
def Outside (vs : List Nat) (u : Nat) : Prop := ∀ v ∈ vs, pathOf u ≠ pathOf v

/-- After page `v`, up to the end of the call. -/
theorem unmapPages_after {pre post : List Nat} (hvs : vs = pre ++ v :: post) :
    Emptied (unmapProcessPage (s.myPML4 0) v (unmapPages pre s)) (unmapPages vs s) := by
  have hsplit : vs = (pre ++ [v]) ++ post := by simp [hvs]
  rw [hsplit, unmapPages_append, ← unmapPages_concat]
  exact unmapPages_emptied post _

section Call

variable (h : Distinct s.mem roots F) (hr : pmlGetAddr (s.myPML4 0) ∈ roots)

include h hr

/-- The pages of the call are not mapped afterwards. -/
theorem unmapPages_removed (hv : v ∈ vs) :
    frameOf (unmapPages vs s) (pmlGetAddr (s.myPML4 0)) v = none := by
  obtain ⟨pre, post, hvs⟩ := List.append_of_mem hv
  refine (unmapPages_after hvs).frameOf_eq_none ?_
  have hpre := unmapPages_emptied pre s
  by_cases ht : HasTable (unmapPages pre s) (pmlGetAddr (s.myPML4 0)) v
  · obtain ⟨t, hw⟩ := ht
    exact frameOf_unmap_of_reads (reads_self (hpre.distinct h) hr hw)
  · refine (unmapProcessPage_emptied _ _ v).frameOf_eq_none ?_
    rw [Option.eq_none_iff_forall_ne_some]
    intro x hx
    have hmapped : Mapped (unmapPages pre s) (pmlGetAddr (s.myPML4 0)) v := ⟨x, hx⟩
    exact ht hmapped.hasTable

/-- **The other pages stay mapped** exactly when no word that is cleared through a missing table is
on the way to one of them. -/
theorem unmapPages_kept_iff :
    (∀ u, Outside vs u → frameOf (unmapPages vs s) (pmlGetAddr (s.myPML4 0)) u =
      frameOf s (pmlGetAddr (s.myPML4 0)) u) ↔
    AtTurns vs s fun s₁ v => ¬ HasTable s₁ (pmlGetAddr (s.myPML4 0)) v → ∀ u, Outside vs u →
      Mapped s₁ (pmlGetAddr (s.myPML4 0)) u →
      ¬ Reads s₁ (pmlGetAddr (s.myPML4 0)) u (clearedWord s₁ (s.myPML4 0) v) := by
  constructor
  · intro hkept pre v post hvs _ u hu hmapped hreads
    obtain ⟨x, hx⟩ := hmapped
    have hlost := (unmapPages_after hvs).frameOf_eq_none (frameOf_unmap_of_reads hreads)
    rw [hkept u hu, (unmapPages_emptied pre s).frameOf_some hx] at hlost
    exact absurd hlost (by simp)
  · intro hturns u hu
    have hrun : ∀ pre post, vs = pre ++ post →
        frameOf (unmapPages pre s) (pmlGetAddr (s.myPML4 0)) u =
          frameOf s (pmlGetAddr (s.myPML4 0)) u := by
      intro pre
      induction pre using List.reverseRecOn with
      | nil => exact fun post _ => rfl
      | append_singleton pre v ih =>
        intro post hvs
        have hvs' : vs = pre ++ v :: post := by simp [hvs]
        have hpre := ih (v :: post) hvs'
        rw [unmapPages_concat, ← hpre]
        cases hx : frameOf (unmapPages pre s) (pmlGetAddr (s.myPML4 0)) u with
        | none => exact (unmapProcessPage_emptied _ _ v).frameOf_eq_none hx
        | some x =>
          rw [frameOf_unmap_of_not_reads, hx]
          by_cases ht : HasTable (unmapPages pre s) (pmlGetAddr (s.myPML4 0)) v
          · obtain ⟨t, hw⟩ := ht
            have hd := (unmapPages_emptied pre s).distinct h
            exact fun hreads => hu v (by simp [hvs']) (pathOf_eq_of_reads hd hr hw hreads)
          · exact hturns pre v post hvs' ht u hu ⟨x, hx⟩
    exact hrun vs [] (by simp)

/-- **Memory outside of the tables of the process stays as it is** exactly when the words there that
are cleared are 0 already. -/
theorem unmapPages_memory_iff :
    (∀ a, a ∉ pages (treeTables s.mem (pmlGetAddr (s.myPML4 0))) →
      (unmapPages vs s).mem a = s.mem a) ↔
    AtTurns vs s fun s₁ v => ¬ HasTable s₁ (pmlGetAddr (s.myPML4 0)) v →
      clearedWord s₁ (s.myPML4 0) v ∈ pages (treeTables s.mem (pmlGetAddr (s.myPML4 0))) ∨
      s₁.mem (clearedWord s₁ (s.myPML4 0) v) = 0 := by
  constructor
  · intro hmem pre v post hvs _
    rw [or_iff_not_imp_left]
    intro ha
    have hcleared : (unmapProcessPage (s.myPML4 0) v (unmapPages pre s)).mem
        (clearedWord (unmapPages pre s) (s.myPML4 0) v) = 0 := by
      rw [unmapProcessPage_mem, Function.update_self]
    have hend := (unmapPages_after hvs).zero hcleared
    rw [hmem _ ha] at hend
    exact (unmapPages_emptied pre s).zero hend
  · intro hturns a ha
    have hrun : ∀ pre post, vs = pre ++ post → (unmapPages pre s).mem a = s.mem a := by
      intro pre
      induction pre using List.reverseRecOn with
      | nil => exact fun post _ => rfl
      | append_singleton pre v ih =>
        intro post hvs
        have hvs' : vs = pre ++ v :: post := by simp [hvs]
        rw [unmapPages_concat, unmapProcessPage_mem, ← ih (v :: post) hvs']
        by_cases hac : a = clearedWord (unmapPages pre s) (s.myPML4 0) v
        · rw [hac, Function.update_self]
          rw [hac] at ha
          by_cases ht : HasTable (unmapPages pre s) (pmlGetAddr (s.myPML4 0)) v
          · -- The entry of a page is in a table of the process.
            obtain ⟨t, hw⟩ := ht
            have hpre := unmapPages_emptied pre s
            have hks : ∀ k ∈ [getPML3Index v, getPML2Index v], k < 512 := by
              simp [getPML3Index_lt, getPML2Index_lt]
            have ht : t ∈ treeTables s.mem (pmlGetAddr (s.myPML4 0)) :=
              hpre.tables (Radix.mem_tables_of_walk hw hks (by simp))
            rw [clearedWord_of_table (hpre.distinct h) hr hw] at ha
            exact absurd (mem_pages (getPML1Index_lt v) ht) ha
          · exact ((hturns pre v post hvs' ht).resolve_left ha).symm
        · rw [Function.update_of_ne hac]
    exact hrun vs [] (by simp)

end Call

/-- **What a call of `syscall_free` should do**: unmap the pages `vs` of the tree at `r`, and change
no other mapping and nothing outside of the tables of this tree. -/
structure FreesOnly (s s' : State) (roots : List Nat) (r : Nat) (vs : List Nat) : Prop where
  removed : ∀ v ∈ vs, frameOf s' r v = none
  kept : ∀ u, Outside vs u → frameOf s' r u = frameOf s r u
  others : ∀ r' ∈ roots, r' ≠ r → ∀ u, frameOf s' r' u = frameOf s r' u
  memory : ∀ a, a ∉ pages (treeTables s.mem r) → s'.mem a = s.mem a

/-- A process without pages whose PML3 is in the frame 4096, on a machine without free frames;
`rest` is the rest of physical memory. -/
def bareProcess (rest : Nat → Nat) : State where
  list :=
    { mem := fun a => if highMemBase + 4096 ≤ a ∧ a < highMemBase + 8192 then 0 else rest a
      head := 0
      tail := 0 }
  myPML4 := fun _ => userEntry 4096
  refused := 0

theorem bareProcess_table (rest : Nat → Nat) {j : Nat} (hj : j < 512) :
    (bareProcess rest).mem (highMemBase + 4096 + 8 * j) = 0 :=
  if_pos ⟨by omega, by omega⟩

theorem bareProcess_rest (rest : Nat → Nat) (ha : a < highMemBase + 4096) :
    (bareProcess rest).mem a = rest a :=
  if_neg fun h => absurd h.1 (by omega)

theorem bareProcess_tree (rest : Nat → Nat) : tree (bareProcess rest).mem 4096 = [4096] :=
  Radix.nodes_of_empty fun _ hj => child_of_zero (bareProcess_table rest hj)

theorem bareProcess_tables (rest : Nat → Nat) : treeTables (bareProcess rest).mem 4096 = [4096] := by
  refine (Radix.tables_sublist.trans (bareProcess_tree rest ▸ List.Sublist.refl _)).eq_of_length_le ?_
  exact List.length_pos_of_mem (Radix.mem_tables_of_walk Radix.walk_nil (by simp) (by simp))

theorem bareProcess_inv (rest : Nat → Nat) : Inv (bareProcess rest) [4096] [] := by
  have hframe : Frame 4096 := ⟨⟨1, rfl⟩, by decide, by decide⟩
  have hrefs : refs (bareProcess rest).mem [4096] = [4096] := by
    rw [refs, List.flatMap_singleton, bareProcess_tree]
  refine ⟨⟨by simp [hrefs], fun f hf => ?_⟩, ⟨List.nodup_nil, by simp, [], ?_, ?_⟩⟩
  · rw [hrefs, List.mem_singleton] at hf
    exact hf ▸ hframe
  · refine ⟨⟨⟨.cons_cons ⟨rfl, rfl⟩ (.singleton 0), by simp⟩, by simp, .nil⟩,
      by simp, by simp, by simp, .nil⟩
  · simp [pages]

theorem bareProcess_unmapped (rest : Nat → Nat) (u : Nat) :
    frameOf (bareProcess rest) 4096 u = none := by
  have hnone : child (bareProcess rest).mem 4096 (getPML3Index u) = none :=
    child_of_zero (bareProcess_table rest (getPML3Index_lt u))
  rw [frameOf, pathOf, walk, hnone]
  rfl

/-- Where physical page 0 begins with a word below 4096, freeing page 0 clears that word. -/
theorem bareProcess_clearedWord (rest : Nat → Nat) (hrest : pmlGetAddr (rest highMemBase) = 0) :
    clearedWord (bareProcess rest) (userEntry 4096) 0 = highMemBase := by
  have h₃ : (bareProcess rest).entry (highMemBase + 4096) 0 = 0 :=
    bareProcess_table rest (j := 0) (by omega)
  have hword : State.entryAt highMemBase 0 = highMemBase := by decide
  have h₂ : (bareProcess rest).entry highMemBase 0 = rest highMemBase := by
    rw [State.entry, hword, bareProcess_rest rest (by omega)]
  have hroot : physToKernelPtr (pmlGetAddr (userEntry 4096)) = highMemBase + 4096 := by decide
  have hindex : getPML3Index 0 = 0 ∧ getPML2Index 0 = 0 ∧ getPML1Index 0 = 0 := by decide
  have hzero : physToKernelPtr (pmlGetAddr 0) = highMemBase := by decide
  rw [clearedWord, hroot, hindex.1, hindex.2.1, hindex.2.2, h₃, hzero, h₂, hrest,
    physToKernelPtr_zero, hword]

end ChenixOS.MemoryManager
