import ChenixOS.Lib.Radix
import ChenixOS.Memory.Pages

/-!
# Page tables as trees of frames

The page tables below a PML3 are a radix tree of width 512 and height 3 in physical memory: PML3,
PML2 and PML1 are its tables, the mapped pages its leaves. `refs m roots` are the frames that the
trees at `roots` refer to, tables and pages, once for each reference.

`Inv s roots F` says that free and referenced frames are all different: no frame is free and
referenced, and none is referenced twice. Filling an empty entry with a free frame moves that
frame from one side to the other.
-/

namespace ChenixOS.MemoryManager

open Radix (walk shape)

variable {s s' : State} {roots F F' ks q : List Nat} {m m' : Nat → Nat} {r t f i n x : Nat}

/-! ## Trees in memory -/

/-- The frame that entry `i` of the table in frame `t` names. -/
def child (m : Nat → Nat) (t i : Nat) : Option Nat :=
  if pmlGetP (m (highMemBase + t + 8 * i)) = 0 then none
  else some (pmlGetAddr (m (highMemBase + t + 8 * i)))

/-- The frames of the tree below a PML3, itself included. -/
abbrev tree (m : Nat → Nat) (r : Nat) : List Nat := Radix.nodes 512 (child m) 3 r

/-- The tables of the tree below a PML3. -/
abbrev treeTables (m : Nat → Nat) (r : Nat) : List Nat := Radix.tables 512 (child m) 3 r

/-- The paths of a tree that lead to a frame. -/
abbrev treeShape (m : Nat → Nat) (r : Nat) : Finset (List Nat) := shape 512 (child m) 3 r

/-- The frames referenced by the trees at `roots`, once for each reference. -/
def refs (m : Nat → Nat) (roots : List Nat) : List Nat := roots.flatMap (tree m)

/-- The frames `G` and those referenced are all different. -/
structure Distinct (m : Nat → Nat) (roots G : List Nat) : Prop where
  nodup : (G ++ refs m roots).Nodup
  frame : ∀ f ∈ refs m roots, Frame f

/-- **The invariant of page tables**: free frames and referenced frames are all different. -/
structure Inv (s : State) (roots F : List Nat) : Prop extends Distinct s.mem roots F where
  pool : Pool s F

/-- The entries of the tables of a tree that are not present are zero. -/
def Clean (m : Nat → Nat) (r : Nat) : Prop :=
  ∀ x ∈ treeTables m r, ∀ j < 512, child m x j = none → m (highMemBase + x + 8 * j) = 0

theorem mem_treeShape : q ∈ treeShape m r ↔
    (q ≠ [] ∧ q.length ≤ 3 ∧ ∀ k ∈ q, k < 512) ∧ ∃ x, walk (child m) r q = some x := by
  rw [treeShape, Radix.mem_shape, Radix.mem_paths]

theorem child_congr (h : m' (highMemBase + t + 8 * i) = m (highMemBase + t + 8 * i)) :
    child m' t i = child m t i := by
  rw [child, child, h]

theorem entry_eq (hf : Frame t) (hi : i < 512) :
    s.entry (highMemBase + t) i = s.mem (highMemBase + t + 8 * i) := by
  rw [State.entry, entryAt_eq hf hi]

theorem mem_setEntry (hf : Frame t) (hi : i < 512) (v : Nat) :
    (s.setEntry (highMemBase + t) i v).mem =
      Function.update s.mem (highMemBase + t + 8 * i) v := by
  rw [State.setEntry, State.mem_store, entryAt_eq hf hi]

theorem mem_refs (hr : r ∈ roots) (hx : x ∈ tree m r) : x ∈ refs m roots :=
  List.mem_flatMap.2 ⟨r, hr, hx⟩

theorem tables_mem (hr : r ∈ roots) (hx : x ∈ treeTables m r) : x ∈ refs m roots :=
  mem_refs hr (Radix.tables_sublist.subset hx)

theorem Distinct.not_mem_free (h : Distinct m roots F) (hx : x ∈ refs m roots) : x ∉ F :=
  fun hF => (List.nodup_append.1 h.nodup).2.2 x hF x hx rfl

theorem Distinct.tree_nodup (h : Distinct m roots F) (hr : r ∈ roots) : (tree m r).Nodup :=
  (List.nodup_flatMap.1 (List.nodup_append.1 h.nodup).2.1).1 r hr

theorem Distinct.tables_nodup (h : Distinct m roots F) (hr : r ∈ roots) : (treeTables m r).Nodup :=
  (h.tree_nodup hr).sublist Radix.tables_sublist

theorem Distinct.perm {G : List Nat} (h : Distinct m roots F) (hp : F.Perm G) :
    Distinct m roots G :=
  ⟨(hp.append_right _).nodup_iff.1 h.nodup, h.frame⟩

/-- The end of a walk from a root is referenced. -/
theorem walk_mem_refs (hr : r ∈ roots) (hw : walk (child m) r ks = some x)
    (hks : ∀ k ∈ ks, k < 512) (hlen : ks.length ≤ 3) : x ∈ refs m roots :=
  mem_refs hr (Radix.mem_nodes_of_walk hw hks hlen)

theorem root_mem_refs (hr : r ∈ roots) : r ∈ refs m roots :=
  walk_mem_refs hr Radix.walk_nil (by simp) (by simp)

/-- Trees whose tables have not changed refer to the same frames. -/
theorem tree_congr (h : ∀ x ∈ treeTables m r, ∀ j < 512,
    m' (highMemBase + x + 8 * j) = m (highMemBase + x + 8 * j)) : tree m' r = tree m r :=
  Radix.collect_congr fun x hx j hj => child_congr (h x hx j hj)

theorem treeTables_congr (h : ∀ x ∈ treeTables m r, ∀ j < 512,
    m' (highMemBase + x + 8 * j) = m (highMemBase + x + 8 * j)) :
    treeTables m' r = treeTables m r :=
  Radix.collect_congr fun x hx j hj => child_congr (h x hx j hj)

theorem treeShape_congr (h : ∀ x ∈ treeTables m r, ∀ j < 512,
    m' (highMemBase + x + 8 * j) = m (highMemBase + x + 8 * j)) : treeShape m' r = treeShape m r :=
  Radix.shape_congr fun x hx j hj => child_congr (h x hx j hj)

theorem clean_congr (h : ∀ x ∈ treeTables m r, ∀ j < 512,
    m' (highMemBase + x + 8 * j) = m (highMemBase + x + 8 * j)) (hclean : Clean m r) :
    Clean m' r := by
  intro x hx j hj hc
  rw [treeTables_congr h] at hx
  rw [child_congr (h x hx j hj)] at hc
  rw [h x hx j hj, hclean x hx j hj hc]

theorem refs_congr (h : ∀ r ∈ roots, ∀ x ∈ treeTables m r, ∀ j < 512,
    m' (highMemBase + x + 8 * j) = m (highMemBase + x + 8 * j)) : refs m' roots = refs m roots :=
  List.flatMap_congr fun r hr => tree_congr (h r hr)

/-! ## Trees of different roots -/

theorem mem_tree_self (m : Nat → Nat) (r : Nat) : r ∈ tree m r :=
  Radix.mem_nodes_of_walk Radix.walk_nil (by simp) (by simp)

/-- Different roots have no frame in common. -/
theorem Distinct.trees_apart (h : Distinct m roots F) (hr : r ∈ roots)
    {r' : Nat} (hr' : r' ∈ roots) (hne : r ≠ r') : ∀ x ∈ tree m r, x ∉ tree m r' := by
  intro x hx hx'
  have hnd := (List.nodup_append.1 h.nodup).2.1
  have : Std.Symm (Function.onFun List.Disjoint (tree m)) := ⟨fun _ _ h _ ha hb => h hb ha⟩
  exact (List.nodup_flatMap.1 hnd).2.forall hr hr' hne hx hx'

/-- Different roots have no table in common. -/
theorem Distinct.tables_apart (h : Distinct m roots F) (hr : r ∈ roots)
    {r' : Nat} (hr' : r' ∈ roots) (hne : r ≠ r') : ∀ x ∈ treeTables m r, x ∉ treeTables m r' :=
  fun x hx hx' => h.trees_apart hr hr' hne x (Radix.tables_sublist.subset hx)
    (Radix.tables_sublist.subset hx')

/-- A page is no table, of its own tree or of another. -/
theorem Distinct.page_not_mem_tables (h : Distinct m roots F) (hr : r ∈ roots)
    {r' : Nat} (hr' : r' ∈ roots) (hw : walk (child m) r q = some x) (hq : ∀ k ∈ q, k < 512)
    (hlen : q.length = 3) : x ∉ treeTables m r' := by
  by_cases hne : r = r'
  · subst hne
    exact Radix.leaf_not_mem_tables (h.tree_nodup hr) hw hq hlen
  · intro hx
    exact h.trees_apart hr hr' hne x (Radix.mem_nodes_of_walk hw hq hlen.le)
      (Radix.tables_sublist.subset hx)

/-- No root occurs twice. -/
theorem Distinct.roots_nodup (h : Distinct m roots F) : roots.Nodup := by
  have hnd := (List.nodup_append.1 h.nodup).2.1
  refine (List.nodup_flatMap.1 hnd).2.imp fun {a b} hdisj hab => ?_
  subst hab
  exact hdisj (mem_tree_self m a) (mem_tree_self m a)

/-- Changing one tree changes what the roots refer to accordingly. -/
theorem refs_change {X Y : List Nat} (hnd : roots.Nodup) (hr : r ∈ roots)
    (hother : ∀ r' ∈ roots, r' ≠ r → tree m' r' = tree m r')
    (hp : (tree m' r ++ Y).Perm (tree m r ++ X)) : (refs m' roots ++ Y).Perm (refs m roots ++ X) :=
  Radix.flatMap_perm_of_change hnd hr hother hp

/-! ## Filling an entry -/

/-- The tree at the root `r` has grown by frames that were not in use: `F` before, `F'` after. -/
structure Grew (s s' : State) (roots F F' : List Nat) (r : Nat) : Prop where
  perm : (F' ++ refs s'.mem roots).Perm (F ++ refs s.mem roots)
  sub : ∀ x ∈ F', x ∈ F
  myPML4 : s'.myPML4 = s.myPML4
  refused : s'.refused = s.refused
  count : F'.length + (treeShape s'.mem r).card = F.length + (treeShape s.mem r).card
  tables : ∀ x ∈ treeTables s'.mem r, x ∈ treeTables s.mem r ∨ x ∈ F
  /-- Frames that were in use, other than as a table of this tree, keep their contents. -/
  other : ∀ x, Frame x → x ∉ F → x ∉ treeTables s.mem r → ∀ j < 512,
    s'.mem (highMemBase + x + 8 * j) = s.mem (highMemBase + x + 8 * j)
  /-- Frames that are still free keep all but their header. -/
  rest : ∀ x ∈ F', ∀ j, 4 ≤ j → j < 512 →
    s'.mem (highMemBase + x + 8 * j) = s.mem (highMemBase + x + 8 * j)
  clean : Clean s.mem r → Clean s'.mem r

theorem Grew.refl (s : State) (roots F : List Nat) (r : Nat) : Grew s s roots F F r :=
  ⟨.refl _, fun _ h => h, rfl, rfl, rfl, fun _ h => .inl h, fun _ _ _ _ _ _ => rfl,
    fun _ _ _ _ _ => rfl, id⟩

theorem Grew.trans {s'' : State} {F'' : List Nat} (h₁ : Grew s s' roots F F' r)
    (h₂ : Grew s' s'' roots F' F'' r) : Grew s s'' roots F F'' r where
  perm := h₂.perm.trans h₁.perm
  sub x hx := h₁.sub x (h₂.sub x hx)
  myPML4 := h₂.myPML4.trans h₁.myPML4
  refused := h₂.refused.trans h₁.refused
  count := h₂.count.trans h₁.count
  tables x hx := by
    rcases h₂.tables x hx with hx | hx
    · exact h₁.tables x hx
    · exact .inr (h₁.sub x hx)
  other x hf hF ht j hj := by
    have ht' : x ∉ treeTables s'.mem r := fun hx => (h₁.tables x hx).elim ht hF
    rw [h₂.other x hf (fun hx => hF (h₁.sub x hx)) ht' j hj, h₁.other x hf hF ht j hj]
  rest x hx j h4 hj := by
    rw [h₂.rest x hx j h4 hj, h₁.rest x (h₂.sub x hx) j h4 hj]
  clean h := h₂.clean (h₁.clean h)

/-- Frames not in use stay so while a frame `f` is held. -/
theorem Grew.hold (h : Grew s s' roots F F' r) (hf : Frame f) (hF : f ∉ F)
    (ht : f ∉ treeTables s.mem r) : Grew s s' roots (f :: F) (f :: F') r where
  perm := h.perm.cons f
  sub x hx := (List.mem_cons.1 hx).elim (fun e => by simp [e])
    fun hx => List.mem_cons_of_mem _ (h.sub x hx)
  myPML4 := h.myPML4
  refused := h.refused
  count := by
    have := h.count
    simp only [List.length_cons]
    omega
  tables x hx := (h.tables x hx).imp_right (List.mem_cons_of_mem _)
  other x hx hxF hxt j hj :=
    h.other x hx (fun hm => hxF (List.mem_cons_of_mem _ hm)) hxt j hj
  rest x hx j h4 hj := by
    rcases List.mem_cons.1 hx with rfl | hx
    · exact h.other x hf hF ht j hj
    · exact h.rest x hx j h4 hj
  clean := h.clean

/-- What it takes to fill the empty entry `i` of the table `t` with the frame `f`, with `F'` the
frames that are free afterwards. -/
structure Fills (s s' : State) (F' : List Nat) (t i f n : Nat) : Prop where
  pool : Pool s' F'
  myPML4 : s'.myPML4 = s.myPML4
  refused : s'.refused = s.refused
  entry : child s'.mem t i = some f
  zero : 0 < n → ∀ j < 512, s'.mem (highMemBase + f + 8 * j) = 0
  same : ∀ x, Frame x → x ∉ f :: F' → ∀ j < 512, ¬ (x = t ∧ j = i) →
    s'.mem (highMemBase + x + 8 * j) = s.mem (highMemBase + x + 8 * j)
  rest : ∀ x ∈ F', ∀ j, 4 ≤ j → j < 512 →
    s'.mem (highMemBase + x + 8 * j) = s.mem (highMemBase + x + 8 * j)

/-- A word that is zero is an entry that is not present. -/
theorem child_of_zero (he : m (highMemBase + t + 8 * i) = 0) : child m t i = none := by
  rw [child, he]
  rfl

theorem Fills.empty (h : Fills s s' F' t i f n) (hn : 0 < n) : ∀ j < 512, child s'.mem f j = none :=
  fun j hj => child_of_zero (h.zero hn j hj)

theorem Distinct.fill_same (h : Distinct s.mem roots (f :: F')) (hr : r ∈ roots)
    (hfill : Fills s s' F' t i f n) : ∀ x ∈ treeTables s.mem r, ∀ j < 512, ¬ (x = t ∧ j = i) →
      child s'.mem x j = child s.mem x j := by
  intro x hx j hj hne
  have hxr := tables_mem hr hx
  exact child_congr (hfill.same x (h.frame x hxr) (h.not_mem_free hxr) j hj hne)

/-- **An entry that was filled**: the frame is now referenced, once, and the tree has it at the end
of the path to the entry. -/
structure Filled (s s' : State) (roots F' : List Nat) (r f : Nat) (path : List Nat) : Prop where
  inv : Inv s' roots F'
  refs : (refs s'.mem roots).Perm (f :: refs s.mem roots)
  notMem : path ∉ treeShape s.mem r
  shape : treeShape s'.mem r = insert path (treeShape s.mem r)
  tables : ∀ x ∈ treeTables s'.mem r, x ∈ treeTables s.mem r ∨ x = f
  walk : ∀ q, (∀ k ∈ q, k < 512) → q.length ≤ 3 → walk (child s'.mem) r q =
    if path <+: q then walk (child s'.mem) f (q.drop path.length) else walk (child s.mem) r q
  clean : Clean s.mem r → Clean s'.mem r

section Fill

variable (h : Distinct s.mem roots (f :: F')) (hr : r ∈ roots)
  (hw : walk (child s.mem) r ks = some t) (hks : ∀ k ∈ ks, k < 512)
  (hlen : ks.length + 1 + n = 3) (hi : i < 512) (hnone : child s.mem t i = none)
  (hfill : Fills s s' F' t i f n)

include h hr hw hks hlen hi hnone hfill

/-- The frames referenced are those from before and the new one. -/
theorem Distinct.fill_refs : (refs s'.mem roots).Perm (f :: refs s.mem roots) := by
  have hsame := h.fill_same hr hfill
  have htable : t ∈ treeTables s.mem r := Radix.mem_tables_of_walk hw hks (by omega)
  have hnd := h.tables_nodup hr
  have hother : ∀ r' ∈ roots, r' ≠ r → tree s'.mem r' = tree s.mem r' := by
    intro r' hr' hne
    refine tree_congr fun x hx j hj => ?_
    have hxr := tables_mem hr' hx
    refine hfill.same x (h.frame x hxr) (h.not_mem_free hxr) j hj ?_
    rintro ⟨rfl, -⟩
    exact h.tables_apart hr' hr hne x hx htable
  have hnew : Radix.collect 512 (child s'.mem) (fun t => [t]) n f = [f] := by
    rcases Nat.eq_zero_or_pos n with rfl | hn
    · rfl
    · exact Radix.nodes_of_empty (hfill.empty hn)
  have hins := Radix.collect_insert (m := n) (by rw [hlen]; exact hnd) hw hks hi
    (by rw [hlen]; exact hsame) hnone hfill.entry fun t => [t]
  rw [hlen, hnew] at hins
  have hall := refs_change (X := [f]) (Y := []) h.roots_nodup hr hother
    (by rw [List.append_nil]; exact hins)
  rw [List.append_nil] at hall
  exact hall.trans List.perm_append_comm

/-- **Filling an empty entry** of a tree with a frame that is not in use. -/
theorem Distinct.fill (hf : Frame f) : Filled s s' roots F' r f (ks ++ [i]) := by
  have hsame := h.fill_same hr hfill
  have hrefs := h.fill_refs hr hw hks hlen hi hnone hfill
  have hnd' : (Radix.tables 512 (child s.mem) (ks.length + 1 + n) r).Nodup := by
    rw [hlen]
    exact h.tables_nodup hr
  have hsame' : ∀ x ∈ Radix.tables 512 (child s.mem) (ks.length + 1 + n) r, ∀ j < 512,
      ¬ (x = t ∧ j = i) → child s'.mem x j = child s.mem x j := by rwa [hlen]
  have hshape := Radix.shape_insert hnd' hw hks hi hnone hfill.entry hsame' hfill.empty
  rw [hlen] at hshape
  have hperm : (F' ++ refs s'.mem roots).Perm (f :: F' ++ refs s.mem roots) :=
    (hrefs.append_left _).trans List.perm_middle
  have htables : ∀ x ∈ treeTables s'.mem r, x ∈ treeTables s.mem r ∨ (x = f ∧ 0 < n) := by
    intro x hx
    have hins := Radix.collect_insert (m := n) hnd' hw hks hi hsame' hnone hfill.entry fun _ => []
    rw [hlen] at hins
    rcases List.mem_append.1 (hins.mem_iff.1 hx) with hx | hx
    · exact .inl hx
    · right
      rcases Nat.eq_zero_or_pos n with rfl | hn
      · simp [Radix.collect] at hx
      · have hx' := Radix.tables_sublist.subset hx
        rw [Radix.nodes_of_empty (hfill.empty hn), List.mem_singleton] at hx'
        exact ⟨hx', hn⟩
  refine ⟨⟨⟨hperm.nodup_iff.2 h.nodup, ?_⟩, hfill.pool⟩, hrefs, ?_, hshape,
    fun x hx => (htables x hx).imp_right And.left, ?_, ?_⟩
  · intro x hx
    rcases List.mem_cons.1 (hrefs.mem_iff.1 hx) with rfl | hx
    · exact hf
    · exact h.frame x hx
  · rw [mem_treeShape]
    rintro ⟨-, x, hx⟩
    simp [Radix.walk_append, hw, walk, hnone] at hx
  · intro q hq hql
    rw [List.length_append]
    exact Radix.walk_insert hnd' hw hks hsame' hfill.entry hq (by omega)
  · intro hclean x hx j hj hcn
    rcases htables x hx with hx | ⟨rfl, hn⟩
    · have hne : ¬ (x = t ∧ j = i) := by
        rintro ⟨rfl, rfl⟩
        rw [hfill.entry] at hcn
        exact absurd hcn (by simp)
      have hxr := tables_mem hr hx
      have hword := hfill.same x (h.frame x hxr) (h.not_mem_free hxr) j hj hne
      rw [child_congr hword] at hcn
      rw [hword, hclean x hx j hj hcn]
    · exact hfill.zero hn j hj

end Fill

/-- The frame that fills the entry comes from the pool. -/
theorem Filled.grew (hperm : F.Perm (f :: F'))
    (hd : Filled s s' roots F' r f (ks ++ [i])) (hfill : Fills s s' F' t i f n)
    (ht : t ∈ treeTables s.mem r) : Grew s s' roots F F' r where
  perm := (hd.refs.append_left _).trans (List.perm_middle.trans (hperm.symm.append_right _))
  sub x hx := hperm.mem_iff.2 (List.mem_cons_of_mem _ hx)
  myPML4 := hfill.myPML4
  refused := hfill.refused
  count := by
    have := hperm.length_eq
    rw [List.length_cons] at this
    rw [hd.shape, Finset.card_insert_of_notMem hd.notMem]
    omega
  tables x hx := (hd.tables x hx).imp_right fun e => hperm.mem_iff.2 (by simp [e])
  other x hx hxF hxt j hj := by
    refine hfill.same x hx (fun hm => hxF (hperm.mem_iff.2 hm)) j hj ?_
    rintro ⟨rfl, -⟩
    exact hxt ht
  rest := hfill.rest
  clean := hd.clean

end ChenixOS.MemoryManager
