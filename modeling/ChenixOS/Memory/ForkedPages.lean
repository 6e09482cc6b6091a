import ChenixOS.Memory.SinglePage

/-!
# Parent and child after a fork

The tree that `ForkProcessMap` returns is made of frames that were free, and each page of the parent
has a copy in it. Parent and child then share no frame, so whatever the two go on to write, each of
them reads as if the other did not write at all.
-/

namespace ChenixOS.MemoryManager

open Radix (walk)

variable {s s' s₁ s₂ : State} {roots F F' : List Nat} {r r' x e f v j : Nat}

/-! ## Writes of processes -/

/-- A process writes `value` to word `j` of the page at `virt`; `root` is the PML3 of the process. -/
structure UserWrite where
  root : Nat
  virt : Nat
  j : Fin 512
  value : Nat

/-- Nothing is written where there is no page: the process faults. -/
def UserWrite.apply (w : UserWrite) (s : State) : State :=
  match frameOf s w.root w.virt with
  | none => s
  | some x => s.store (highMemBase + x + 8 * w.j) w.value

def applyWrites (ws : List UserWrite) (s : State) : State := ws.foldl (fun s w => w.apply s) s

/-- What a process reads at word `j` of the page at `v`. -/
def readWord (s : State) (r v j : Nat) : Option Nat :=
  (frameOf s r v).map fun x => s.mem (highMemBase + x + 8 * j)

/-- All page tables are as they were. -/
def SameTables (s s' : State) (roots : List Nat) : Prop :=
  ∀ r ∈ roots, ∀ x ∈ treeTables s.mem r, ∀ j < 512,
    s'.mem (highMemBase + x + 8 * j) = s.mem (highMemBase + x + 8 * j)

theorem SameTables.frameOf_eq (h : SameTables s s' roots) (hr : r ∈ roots) (v : Nat) :
    frameOf s' r v = frameOf s r v :=
  Radix.walk_congr (fun x hx j hj => child_congr (h r hr x hx j hj)) (pathOf_lt v) (by simp [pathOf])

/-- A write to a page changes one word of one page, and no table. -/
theorem UserWrite.apply_mem (h : Inv s roots F) (ht : SameTables s s₁ roots) {w : UserWrite}
    (hw : w.root ∈ roots) (hx : Frame x) (hj : j < 512)
    (hne : ∀ y, frameOf s w.root w.virt = some y → ¬ (x = y ∧ j = w.j)) :
    (w.apply s₁).mem (highMemBase + x + 8 * j) = s₁.mem (highMemBase + x + 8 * j) := by
  rw [UserWrite.apply, ht.frameOf_eq hw]
  cases hy : frameOf s w.root w.virt with
  | none => rfl
  | some y =>
    dsimp only
    rw [State.mem_store, Function.update_of_ne]
    exact word_ne hx (h.frame y (frameOf_mem_refs hw hy)) hj w.j.isLt (hne y hy)

theorem UserWrite.sameTables (h : Inv s roots F) (ht : SameTables s s₁ roots) {w : UserWrite}
    (hw : w.root ∈ roots) : SameTables s (w.apply s₁) roots := by
  intro r hr x hx j hj
  rw [w.apply_mem h ht hw (h.frame x (tables_mem hr hx)) hj, ht r hr x hx j hj]
  rintro y hy ⟨rfl, -⟩
  exact h.toDistinct.page_not_mem_tables hw hr hy (pathOf_lt _) rfl hx

/-- Two states with the tables of `s`, in which the process of the tree at `r` reads the same. -/
structure Alike (s : State) (roots : List Nat) (r : Nat) (s₁ s₂ : State) : Prop where
  left : SameTables s s₁ roots
  right : SameTables s s₂ roots
  words : ∀ v x, frameOf s r v = some x → SameFrame s₁ s₂ x

/-- The same write in both, by any process. -/
theorem Alike.both (h : Inv s roots F) (hr : r ∈ roots) (hs : Alike s roots r s₁ s₂) {w : UserWrite}
    (hw : w.root ∈ roots) : Alike s roots r (w.apply s₁) (w.apply s₂) := by
  refine ⟨w.sameTables h hs.left hw, w.sameTables h hs.right hw, fun v x hx j hj => ?_⟩
  have hxf := h.frame x (frameOf_mem_refs hr hx)
  by_cases hword : ∃ y, frameOf s w.root w.virt = some y ∧ x = y ∧ j = w.j
  · obtain ⟨y, hy, rfl, rfl⟩ := hword
    rw [UserWrite.apply, UserWrite.apply, hs.left.frameOf_eq hw, hs.right.frameOf_eq hw, hy]
    simp only [State.mem_store, Function.update_self]
  · have hne : ∀ y, frameOf s w.root w.virt = some y → ¬ (x = y ∧ j = w.j) :=
      fun y hy hxy => hword ⟨y, hy, hxy⟩
    rw [w.apply_mem h hs.left hw hxf hj hne, w.apply_mem h hs.right hw hxf hj hne,
      hs.words v x hx j hj]

/-- A write by another process in one of them. -/
theorem Alike.other (h : Inv s roots F) (hr : r ∈ roots) (hs : Alike s roots r s₁ s₂) {w : UserWrite}
    (hw : w.root ∈ roots) (hne : w.root ≠ r) : Alike s roots r s₁ (w.apply s₂) := by
  refine ⟨hs.left, w.sameTables h hs.right hw, fun v x hx j hj => ?_⟩
  have hxf := h.frame x (frameOf_mem_refs hr hx)
  rw [w.apply_mem h hs.right hw hxf hj, hs.words v x hx j hj]
  rintro y hy ⟨rfl, -⟩
  exact h.toDistinct.trees_apart hr hw hne.symm x
    (Radix.mem_nodes_of_walk hx (pathOf_lt v) (by simp [pathOf]))
    (Radix.mem_nodes_of_walk hy (pathOf_lt _) (by simp [pathOf]))

/-- A run of writes, and the run of those of one process. -/
theorem Alike.run (h : Inv s roots F) (hr : r ∈ roots) (ws : List UserWrite)
    (hws : ∀ w ∈ ws, w.root ∈ roots) (hs : Alike s roots r s₁ s₂) :
    Alike s roots r (applyWrites (ws.filter (·.root = r)) s₁) (applyWrites ws s₂) := by
  induction ws generalizing s₁ s₂ with
  | nil => exact hs
  | cons w ws ih =>
    have hw : w.root ∈ roots := hws w (by simp)
    have hrest : ∀ w ∈ ws, w.root ∈ roots := fun w hw => hws w (List.mem_cons_of_mem _ hw)
    by_cases hwr : w.root = r
    · rw [List.filter_cons_of_pos (by simpa using hwr)]
      exact ih hrest (hs.both h hr hw)
    · rw [List.filter_cons_of_neg (by simpa using hwr)]
      exact ih hrest (hs.other h hr hw hwr)

/-- **No process sees what another writes**: after any writes of the processes, one of them reads
what it would read had the others written nothing. -/
theorem readWord_applyWrites (h : Inv s roots F) (hr : r ∈ roots) (ws : List UserWrite)
    (hws : ∀ w ∈ ws, w.root ∈ roots) (hj : j < 512) : readWord (applyWrites ws s) r v j =
      readWord (applyWrites (ws.filter (·.root = r)) s) r v j := by
  have hself : Alike s roots r s s :=
    ⟨fun _ _ _ _ _ _ => rfl, fun _ _ _ _ _ _ => rfl, fun _ _ _ _ _ => rfl⟩
  have hrun := Alike.run h hr ws hws hself
  rw [readWord, readWord, hrun.left.frameOf_eq hr, hrun.right.frameOf_eq hr]
  cases hx : frameOf s r v with
  | none => rfl
  | some x => rw [Option.map_some, Option.map_some, hrun.words v x hx j hj]

/-! ## The copy -/

/-- The frames of a new tree were free. -/
theorem Made.fresh (h : Inv s roots F) (hmade : Made s s' roots F F' f)
    (hx : x ∈ tree s'.mem f) : x ∈ F ∧ x ∉ F' := by
  have hnd := hmade.inv.nodup
  have hrefs : refs s'.mem roots = refs s.mem roots := refs_congr fun r hr => hmade.same h hr
  have hperm := hmade.perm
  rw [refs_cons, hrefs] at hnd hperm
  have hmem : x ∈ F ++ refs s.mem roots := hperm.mem_iff.1 (by simp [hx])
  refine ⟨(List.mem_append.1 hmem).resolve_right fun hxr => ?_, fun hxF => ?_⟩
  · exact (List.nodup_append.1 (List.nodup_append.1 hnd).2.1).2.2 x hx x hxr rfl
  · exact (List.nodup_append.1 hnd).2.2 x hxF x (List.mem_append_left _ hx) rfl

theorem frameOf_isSome : (frameOf s r v).isSome ↔ Mapped s r v := Option.isSome_iff_exists

theorem pathOf_mem_leaves : pathOf v ∈ leaves s.mem r ↔ Mapped s r v := by
  rw [mem_leaves]
  exact and_iff_right ⟨rfl, pathOf_lt v⟩

theorem pathOf_mem_closed : pathOf v ∈ closed (leaves s.mem r) ↔ Mapped s r v := by
  rw [← pathOf_mem_leaves, mem_closed]
  constructor
  · rintro ⟨q, hq, hqv⟩
    obtain ⟨⟨hlen, -⟩, -⟩ := mem_leaves.1 hq
    rcases hqv with hqv | hqv | rfl
    · exact absurd (congrArg List.length hqv) (by simp [pathOf, hlen])
    · exact absurd (congrArg List.length hqv) (by simp [pathOf, hlen])
    · exact hq
  · exact fun hv => ⟨pathOf v, hv, .inr (.inr rfl)⟩

theorem leaves_of_shape {m : Nat → Nat} (hshape : treeShape m r = ∅) : leaves m r = ∅ := by
  unfold leaves
  rw [hshape, Finset.filter_empty]

end ChenixOS.MemoryManager
