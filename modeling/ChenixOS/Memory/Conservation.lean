import ChenixOS.Memory.Fork

/-!
# Frames are conserved

Runs of the operations on address spaces: making, filling, forking, switching to and freeing them,
in any order and number. `World` is the state of the memory manager with the address spaces that
are live. Every step keeps the invariant of page tables and the frames that are free or referenced,
taken together; only freeing an address space makes frames free, and it makes free exactly those of
its tree.
-/

namespace ChenixOS.MemoryManager

open Radix (walk)

variable {s s' : State} {roots roots' F F' : List Nat} {r r' f e : Nat}

/-! ## Trees of different roots -/

theorem refs_perm (m : Nat → Nat) (hp : roots.Perm roots') : (refs m roots).Perm (refs m roots') :=
  hp.flatMap_right _

theorem Inv.perm_roots (h : Inv s roots F) (hp : roots.Perm roots') : Inv s roots' F :=
  ⟨h.toDistinct.of_perm h.pool.frame ((refs_perm s.mem hp).symm.append_left _), h.pool⟩

/-- A tree that has grown leaves the other trees as they were. -/
theorem Grew.same_other (h : Inv s roots F) (hg : Grew s s' roots F F' r) (hr : r ∈ roots)
    (hr' : r' ∈ roots) (hne : r' ≠ r) : ∀ x ∈ treeTables s.mem r', ∀ j < 512,
      s'.mem (highMemBase + x + 8 * j) = s.mem (highMemBase + x + 8 * j) := by
  intro x hx j hj
  have hxr := tables_mem hr' hx
  exact hg.other x (h.frame x hxr) (h.not_mem_free hxr)
    (h.toDistinct.tables_apart hr' hr hne x hx) j hj

/-! ## Operations -/

/-- The memory manager, and the PML4 entries of the address spaces that are live. -/
structure World where
  state : State
  maps : List Nat

namespace World

/-- The frames of the PML3s. -/
def pml3s (w : World) : List Nat := w.maps.map pmlGetAddr

/-- The invariant of page tables, with the frames `F` free. -/
def Holds (w : World) (F : List Nat) : Prop := Inv w.state w.pml3s F

/-- The frames that are free or referenced. -/
def frames (w : World) (F : List Nat) : List Nat := F ++ refs w.state.mem w.pml3s

end World

/-- The operations on address spaces. -/
inductive Op
  | create
  | map (pml4Entry virt : Nat)
  | fork
  | free (pml4Entry : Nat)
  | «switch» (pml4Entry : Nat)

namespace Op

def apply : Op → World → Option World
  | create, w => (createProcessMap w.state).map fun r => ⟨r.2, r.1 :: w.maps⟩
  | map e virt, w => (mapProcessPage e virt w.state).map fun r => ⟨r.2, w.maps⟩
  | fork, w => (forkProcessMap w.state).map fun r => ⟨r.2, r.1 :: w.maps⟩
  | free e, w => (freeProcessMap e w.state).map fun s => ⟨s, w.maps.erase e⟩
  | «switch» e, w => some ⟨switchProcessMap e w.state, w.maps⟩

/-- What callers see to: an operation is on an address space that is live. -/
def Allowed : Op → World → Prop
  | create, _ => True
  | map e _, w => e ∈ w.maps
  | fork, w => w.state.myPML4 0 ∈ w.maps
  | free e, w => e ∈ w.maps
  | «switch» e, w => e ∈ w.maps

/-- How many frames an operation takes. -/
def need : Op → World → Nat
  | create, _ => 1
  | map e virt, w => (withPath (treeShape w.state.mem (pmlGetAddr e)) virt).card -
      (treeShape w.state.mem (pmlGetAddr e)).card
  | fork, w => forkSize w.state.mem (pmlGetAddr (w.state.myPML4 0))
  | free _, _ => 0
  | «switch» _, _ => 0

/-- The operation neither extends nor frees one of the address spaces `maps`. -/
def Spares (maps : List Nat) : Op → Prop
  | create => True
  | map e _ => e ∉ maps
  | fork => True
  | free e => e ∉ maps
  | «switch» _ => True

end Op

/-- A step all of whose requests for pages are satisfied. -/
structure Step (w : World) (op : Op) (w' : World) : Prop where
  allowed : op.Allowed w
  run : op.apply w = some w'
  served : w'.state.refused = w.state.refused

/-- A run of steps. -/
inductive Run : World → List Op → World → Prop
  | nil (w : World) : Run w [] w
  | snoc {w w' w'' : World} {ops : List Op} {op : Op} :
      Run w ops w' → Step w' op w'' → Run w (ops ++ [op]) w''

/-! ## One step -/

/-- What a step does to frames: none is lost or doubled, and trees that the operation is not on
stay as they are. -/
structure Conserves (w w' : World) (op : Op) (F F' : List Nat) : Prop where
  holds : w'.Holds F'
  perm : (w'.frames F').Perm (w.frames F)
  kept : ∀ maps, (∀ e ∈ maps, e ∈ w.maps) → op.Spares maps → ∀ e ∈ maps, e ∈ w'.maps ∧
    tree w'.state.mem (pmlGetAddr e) = tree w.state.mem (pmlGetAddr e)
  clean : (∀ r ∈ w.pml3s, Clean w.state.mem r) → ∀ r ∈ w'.pml3s, Clean w'.state.mem r
  /-- Free frames keep all but their header. -/
  rest : ∀ x ∈ F', ∀ j, 4 ≤ j → j < 512 →
    w'.state.mem (highMemBase + x + 8 * j) = w.state.mem (highMemBase + x + 8 * j)

theorem subset_withPath (D : Finset (List Nat)) (virt : Nat) : D ⊆ withPath D virt :=
  fun _ hq => insert_subset_withPath D virt (Finset.mem_insert_of_mem hq)

/-- A step that makes a new address space. -/
theorem Made.conserves {w w' : World} {op : Op} (h : w.Holds F)
    (hmade : Made w.state w'.state w.pml3s F F' f) (hf : Frame f)
    (hmaps : w'.maps = userEntry f :: w.maps) : Conserves w w' op F F' := by
  have hroots : w'.pml3s = f :: w.pml3s := by
    rw [World.pml3s, hmaps, List.map_cons, userEntry_names.addr f hf]
    rfl
  refine ⟨?_, ?_, ?_, ?_, hmade.rest⟩
  · rw [World.Holds, hroots]
    exact hmade.inv
  · rw [World.frames, hroots]
    exact hmade.perm
  · intro maps hsub _ e he
    refine ⟨by rw [hmaps]; exact List.mem_cons_of_mem _ (hsub e he), ?_⟩
    exact tree_congr (hmade.same h (List.mem_map_of_mem (hsub e he)))
  · rw [hroots]
    intro hclean r hr
    rcases List.mem_cons.1 hr with rfl | hr
    · exact hmade.clean
    · exact clean_congr (hmade.same h hr) (hclean r hr)

/-- **Each operation conserves frames**, or it takes more frames than are free and a request is
refused. -/
theorem Op.apply_spec {w : World} (h : w.Holds F) {op : Op} (hop : op.Allowed w) :
    (F.length < op.need w ∧ ∀ w', op.apply w = some w' → w.state.refused < w'.state.refused) ∨
    ∃ w' F', op.apply w = some w' ∧ w'.state.refused = w.state.refused ∧
      Conserves w w' op F F' := by
  cases op with
  | create =>
    rcases createProcessMap_made h with ⟨hF, hbad⟩ | ⟨f, F', s', hrun, hmade, -, -⟩
    · refine .inl ⟨by simp [hF, need], fun w' hw' => ?_⟩
      obtain ⟨⟨e, s'⟩, hs', rfl⟩ := Option.map_eq_some_iff.1 hw'
      exact hbad e s' hs'
    · have hf := h.pool.frame f hmade.root
      refine .inr ⟨⟨s', userEntry f :: w.maps⟩, F', ?_, hmade.refused, hmade.conserves h hf rfl⟩
      rw [apply, hrun]
      rfl
  | map e virt =>
    have hr : pmlGetAddr e ∈ w.pml3s := List.mem_map_of_mem hop
    rcases mapProcessPage_spec h hr virt with ⟨hshort, hbad⟩ | ⟨f, s', F', hrun, hinv, hgrew, -⟩
    · refine .inl ⟨?_, fun w' hw' => ?_⟩
      · unfold Short at hshort
        rw [need]
        omega
      · obtain ⟨⟨p, s'⟩, hs', rfl⟩ := Option.map_eq_some_iff.1 hw'
        exact hbad p s' hs'
    · refine .inr ⟨⟨s', w.maps⟩, F', by rw [apply, hrun]; rfl, hgrew.refused, hinv, hgrew.perm,
        ?_, ?_, hgrew.rest⟩
      · intro maps hsub hsp e' he'
        have hr' : pmlGetAddr e' ∈ w.pml3s := List.mem_map_of_mem (hsub e' he')
        refine ⟨hsub e' he', tree_congr (hgrew.same_other h hr hr' fun heq => ?_)⟩
        -- Two entries of one root would make the root occur twice.
        have hinj := List.inj_on_of_nodup_map h.toDistinct.roots_nodup
        have hee : e' = e := hinj (hsub e' he') hop heq
        exact hsp (hee ▸ he')
      · intro hclean r hr'
        by_cases hre : r = pmlGetAddr e
        · rw [hre]
          exact hgrew.clean (hclean _ hr)
        · exact clean_congr (hgrew.same_other h hr hr' hre) (hclean r hr')
  | fork =>
    have hr : pmlGetAddr (w.state.myPML4 0) ∈ w.pml3s := List.mem_map_of_mem hop
    rcases forkProcessMap_spec h hr with ⟨hshort, hbad⟩ | ⟨f, F', s', hrun, hmade, -⟩
    · refine .inl ⟨hshort, fun w' hw' => ?_⟩
      obtain ⟨⟨e, s'⟩, hs', rfl⟩ := Option.map_eq_some_iff.1 hw'
      exact hbad e s' hs'
    · have hf := h.pool.frame f hmade.root
      refine .inr ⟨⟨s', userEntry f :: w.maps⟩, F', ?_, hmade.refused, hmade.conserves h hf rfl⟩
      rw [apply, hrun]
      rfl
  | free e =>
    have hr : pmlGetAddr e ∈ w.pml3s := List.mem_map_of_mem hop
    obtain ⟨s', F', hrun, hfreed, hinv, hother, hperm⟩ := freeProcessMap_spec h hr
    have hroots : (w.pml3s.erase (pmlGetAddr e)).Perm (World.pml3s ⟨s', w.maps.erase e⟩) := by
      refine (List.perm_cons_erase hr).symm.trans ?_ |>.cons_inv
      exact (List.perm_cons_erase hop).map pmlGetAddr
    have hinj := List.inj_on_of_nodup_map h.toDistinct.roots_nodup
    refine .inr ⟨⟨s', w.maps.erase e⟩, F', by rw [apply, hrun]; rfl, hfreed.refused,
      hinv.perm_roots hroots, ?_, ?_, ?_, ?_⟩
    · exact ((refs_perm _ hroots).symm.append_left _).trans hperm
    · intro maps hsub hsp e' he'
      have hne : e' ≠ e := fun hee => hsp (hee ▸ he')
      have hmem : e' ∈ w.maps.erase e := (List.mem_erase_of_ne hne).2 (hsub e' he')
      have hsame := hother _ (hroots.mem_iff.2 (List.mem_map_of_mem hmem))
      exact ⟨hmem, tree_congr hsame⟩
    · intro hclean r hr'
      have hre := hroots.mem_iff.2 hr'
      exact clean_congr (hother r hre) (hclean r (List.mem_of_mem_erase hre))
    · exact fun x hx j => hfreed.moved.words x j (hinv.pool.frame x hx)
  | «switch» e =>
    refine .inr ⟨_, F, rfl, rfl, ⟨⟨h.nodup, h.frame⟩, h.pool.nodup, h.pool.frame, h.pool.list⟩,
      .refl _, fun maps hsub _ e' he' => ⟨hsub e' he', rfl⟩, id,
      fun _ _ _ _ _ => rfl⟩

/-! ## Runs -/

/-- A step whose requests are satisfied conserves frames. -/
theorem Step.conserves {w w' : World} {op : Op} (h : w.Holds F) (hstep : Step w op w') :
    ∃ F', Conserves w w' op F F' := by
  rcases Op.apply_spec h hstep.allowed with ⟨-, hbad⟩ | ⟨w'', F', hrun, -, hcons⟩
  · have := hbad w' hstep.run
    have := hstep.served
    omega
  · rw [hstep.run] at hrun
    obtain rfl := Option.some.inj hrun
    exact ⟨F', hcons⟩

/-- What holds after every run. -/
theorem Run.conserves {w w' : World} {ops : List Op} (h : w.Holds F) (hrun : Run w ops w') :
    ∃ F', w'.Holds F' ∧ (w'.frames F').Perm (w.frames F) ∧
      ((∀ op ∈ ops, op.Spares w.maps) → ∀ e ∈ w.maps, e ∈ w'.maps ∧
        tree w'.state.mem (pmlGetAddr e) = tree w.state.mem (pmlGetAddr e)) := by
  induction hrun with
  | nil => exact ⟨F, h, .refl _, fun _ e he => ⟨he, rfl⟩⟩
  | snoc _ hstep ih =>
    obtain ⟨F₁, h₁, hperm₁, hkept₁⟩ := ih
    obtain ⟨F₂, hcons⟩ := hstep.conserves h₁
    refine ⟨F₂, hcons.holds, hcons.perm.trans hperm₁, fun hsp e he => ?_⟩
    have hkept := hkept₁ fun op hop => hsp op (List.mem_append_left _ hop)
    obtain ⟨hmem, htree⟩ := hcons.kept w.maps (fun e he => (hkept e he).1) (hsp _ (by simp)) e he
    exact ⟨hmem, htree.trans (hkept e he).2⟩

/-- The trees that are left are those from before: the free frames are those from before. -/
theorem free_perm {w w' : World} (hperm : (w'.frames F').Perm (w.frames F))
    (hmaps : w'.maps.Perm w.maps) (hkept : ∀ e ∈ w.maps,
      tree w'.state.mem (pmlGetAddr e) = tree w.state.mem (pmlGetAddr e)) : F'.Perm F := by
  have hrefs : (refs w'.state.mem w'.pml3s).Perm (refs w.state.mem w.pml3s) := by
    refine (refs_perm _ (hmaps.map pmlGetAddr)).trans ?_
    have : refs w'.state.mem (w.maps.map pmlGetAddr) = refs w.state.mem (w.maps.map pmlGetAddr) := by
      refine List.flatMap_congr fun r hr => ?_
      obtain ⟨e, he, rfl⟩ := List.mem_map.1 hr
      exact hkept e he
    rw [this]
    exact .refl _
  exact (List.perm_append_right_iff _).1 (hperm.trans (hrefs.symm.append_left _))

/-- **Frames are conserved.** After every run of operations on address spaces, whose requests for
pages are satisfied, from a state in which free and referenced frames are all different:

* free and referenced frames are all different, and together they are those from the start, so
  each of them is free and not referenced, or not free and referenced once;
* freeing an address space returns, and makes free exactly the frames of its tree;
* every operation that takes no more frames than are free returns with its requests satisfied;
* when the address spaces left are those from the start, and the run has not filled them, the free
  frames are those from the start. -/
theorem frames_conserved {w w' : World} {ops : List Op} {F : List Nat} (hstart : w.Holds F)
    (hrun : Run w ops w') :
    ∃ F', w'.Holds F' ∧ (w'.frames F').Perm (w.frames F) ∧
      (∀ x ∈ w.frames F, (x ∈ F' ∧ (refs w'.state.mem w'.pml3s).count x = 0) ∨
        (x ∉ F' ∧ (refs w'.state.mem w'.pml3s).count x = 1)) ∧
      (∀ e ∈ w'.maps, ∃ s F'', freeProcessMap e w'.state = some s ∧ Pool s F'' ∧
        F''.Perm (tree w'.state.mem (pmlGetAddr e) ++ F')) ∧
      (∀ op : Op, op.Allowed w' → op.need w' ≤ F'.length → ∃ w'', Step w' op w'') ∧
      (w'.maps.Perm w.maps → (∀ op ∈ ops, op.Spares w.maps) → F'.Perm F) := by
  obtain ⟨F', h', hperm, hkept⟩ := hrun.conserves hstart
  refine ⟨F', h', hperm, ?_, ?_, ?_, ?_⟩
  · intro x hx
    have hone : (F' ++ refs w'.state.mem w'.pml3s).count x = 1 :=
      List.count_eq_one_of_mem h'.nodup (hperm.mem_iff.2 hx)
    rw [List.count_append] at hone
    by_cases hxF : x ∈ F'
    · have := List.count_pos_iff.2 hxF
      exact .inl ⟨hxF, by omega⟩
    · rw [List.count_eq_zero_of_not_mem hxF] at hone
      exact .inr ⟨hxF, by omega⟩
  · intro e he
    obtain ⟨s, F'', hfree, hfreed, -⟩ := freeProcessMap_spec h' (List.mem_map_of_mem he)
    exact ⟨s, F'', hfree, hfreed.moved.pool, hfreed.perm⟩
  · intro op hop hneed
    rcases Op.apply_spec h' hop with ⟨hshort, -⟩ | ⟨w'', F'', happly, hserved, -⟩
    · omega
    · exact ⟨w'', hop, happly, hserved⟩
  · intro hmaps hsp
    exact free_perm hperm hmaps fun e he => (hkept hsp e he).2

/-! ## A first run -/

/-- Physical memory with `n` free frames from 4096 on, and the words `rest` elsewhere. -/
def boot (n : Nat) (rest : Nat → Nat) : State where
  list :=
    { mem := fun a =>
        if a = highMemBase + 4096 ∨ a = highMemBase + 4096 + 8 then 0
        else if a = highMemBase + 4096 + 16 then highMemBase + 4096
        else if a = highMemBase + 4096 + 24 then n * 4096
        else rest a
      head := highMemBase + 4096
      tail := highMemBase + 4096 }
  myPML4 := fun _ => 0
  refused := 0

/-- The frames of `boot n`. -/
def bootFrames (n : Nat) : List Nat := (List.range n).map fun i => 4096 * (i + 1)

theorem mem_bootFrames {n : Nat} : f ∈ bootFrames n ↔ ∃ i < n, f = 4096 * (i + 1) := by
  simp [bootFrames, eq_comm]

/-- The first frame begins with the node of the free list, all else is as it was left. -/
theorem boot_mem {n a : Nat} {rest : Nat → Nat}
    (ha : ∀ k < 4, a ≠ highMemBase + 4096 + 8 * k) : (boot n rest).mem a = rest a := by
  have h0 := ha 0 (by omega)
  have h1 := ha 1 (by omega)
  have h2 := ha 2 (by omega)
  have h3 := ha 3 (by omega)
  simp only [boot, State.mem]
  rw [if_neg (by omega), if_neg (by omega), if_neg (by omega)]

/-- The free list of `boot n` is one segment. -/
theorem boot_list {n : Nat} (hn : 0 < n) (hle : n < 2 ^ 27) (rest : Nat → Nat) :
    FreeList.Holds 4096 frameNodes (boot n rest).mem (boot n rest).list.head (boot n rest).list.tail
      [⟨highMemBase + 4096, n * 4096⟩] := by
  have hbase : highMemBase = 2 ^ 64 - 2 ^ 39 := rfl
  have hfirst : highMemBase + 4096 ∈ frameNodes := ⟨4096, ⟨⟨1, rfl⟩, by omega, by omega⟩, rfl⟩
  refine ⟨⟨⟨?_, ?_⟩, ?_, ?_⟩, ?_, ?_, ?_, ?_⟩
  · exact .cons_cons ⟨rfl, rfl⟩ (.cons_cons ⟨rfl, rfl⟩ (.singleton 0))
  · simp [hbase]
  · intro x hx
    obtain rfl : x = highMemBase + 4096 := by simpa using hx
    exact ⟨hfirst, by unfold wordSize; omega⟩
  · simp
  · simp [boot, State.mem]
  · simp [boot, State.mem]
  · intro g hg
    obtain rfl := List.mem_singleton.1 hg
    refine ⟨hfirst, by dsimp only; omega, by dsimp only; omega, ⟨n, Nat.mul_comm _ _⟩, ?_⟩
    dsimp only
    unfold wordSize
    omega
  · simp

theorem boot_pool {n : Nat} (hn : 0 < n) (hle : n < 2 ^ 27) (rest : Nat → Nat) :
    Pool (boot n rest) (bootFrames n) := by
  have hframe : ∀ f ∈ bootFrames n, Frame f := by
    intro f hf
    obtain ⟨i, hi, rfl⟩ := mem_bootFrames.1 hf
    exact ⟨⟨i + 1, rfl⟩, by omega, by omega⟩
  have hbase : highMemBase = 2 ^ 64 - 2 ^ 39 := rfl
  refine ⟨?_, hframe, _, boot_list hn hle rest, ?_⟩
  · refine List.nodup_range.map fun i j h => ?_
    have : 4096 * (i + 1) = 4096 * (j + 1) := h
    omega
  · ext a
    simp only [FreeList.covered_cons, FreeList.covered_nil, Set.union_empty, Set.mem_Ico,
      mem_pages_iff]
    constructor
    · rintro ⟨hlo, hhi⟩
      refine ⟨4096 * ((a - highMemBase) / 4096), mem_bootFrames.2
        ⟨(a - highMemBase) / 4096 - 1, by omega, by omega⟩, by omega, by omega⟩
    · rintro ⟨f, hf, hlo, hhi⟩
      obtain ⟨i, hi, rfl⟩ := mem_bootFrames.1 hf
      omega

/-- Without address spaces, the invariant is that of the pool. -/
theorem boot_holds {n : Nat} (hn : 0 < n) (hle : n < 2 ^ 27) (rest : Nat → Nat) :
    World.Holds ⟨boot n rest, []⟩ (bootFrames n) := by
  have hpool := boot_pool hn hle rest
  refine ⟨⟨?_, by simp [refs, World.pml3s]⟩, hpool⟩
  simpa [refs, World.pml3s] using hpool.nodup

/-- An address space made and freed again on a machine with two free frames: both are free
afterwards. -/
theorem frames_conserved_boot : ∃ e w F,
    Run ⟨boot 2 fun _ => 0, []⟩ [.create, .free e] w ∧ w.Holds F ∧ F.Perm [4096, 8192] := by
  have hstart := boot_holds (n := 2) (by omega) (by omega) fun _ => 0
  have hfirst : ∃ e s, Run ⟨boot 2 fun _ => 0, []⟩ [.create] ⟨s, [e]⟩ := by
    obtain ⟨F₀, -, hperm, -, -, hsteps, -⟩ := frames_conserved hstart (.nil _)
    obtain ⟨w, hstep⟩ := hsteps .create trivial (by
      have hlen := hperm.length_eq
      simp only [World.frames, List.length_append] at hlen
      have : (bootFrames 2).length = 2 := rfl
      show 1 ≤ F₀.length
      omega)
    have hw := hstep.run
    rw [Op.apply, Option.map_eq_some_iff] at hw
    obtain ⟨⟨e, s⟩, -, rfl⟩ := hw
    exact ⟨e, s, .snoc (.nil _) hstep⟩
  obtain ⟨e, s, hrun⟩ := hfirst
  obtain ⟨F₁, -, -, -, -, hsteps, -⟩ := frames_conserved hstart hrun
  obtain ⟨w, hstep⟩ := hsteps (.free e) (List.mem_singleton.2 rfl) (Nat.zero_le _)
  have hall : Run ⟨boot 2 fun _ => 0, []⟩ [.create, .free e] w := .snoc hrun hstep
  obtain ⟨F₂, hholds, -, -, -, -, hrestored⟩ := frames_conserved hstart hall
  have hw := hstep.run
  rw [Op.apply, Option.map_eq_some_iff] at hw
  obtain ⟨s', -, rfl⟩ := hw
  refine ⟨e, _, F₂, hall, hholds, hrestored ?_ (by simp [Op.Spares])⟩
  rw [List.erase_cons_head]

end ChenixOS.MemoryManager
