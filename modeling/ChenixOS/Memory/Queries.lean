import ChenixOS.Memory.Unmapping

/-!
# Queries about addresses

`UserToKernelPtr` and `MmQueryMemory` walk the tables of the running process by themselves.
`translate` is the walk of the hardware, and the theorem of this module says for which addresses
both queries agree with it: those without a PML1. `UserToKernelPtr` does not look whether the entry
in the PML1 is present, and `MmQueryMemory` gives up for all user addresses.
-/

namespace ChenixOS.MemoryManager

open Radix (walk)

variable {s s' : State} {roots F : List Nat} {r t f v virt : Nat}

/-! ## The walk of the hardware -/

theorem index_of_isUserPtr (hv : isUserPtr v) : getPML4Index v = 0 := by
  simpa [isUserPtr] using hv

theorem translate_isSome (hp : pmlGetP (s.myPML4 0) ≠ 0) (hv : isUserPtr v) :
    (translate s v).isSome ↔ Mapped s (pmlGetAddr (s.myPML4 0)) v := by
  rw [translate, index_of_isUserPtr hv, if_neg hp, Option.isSome_map, Option.isSome_iff_exists]
  rfl

/-- The bits of the offset do not overlap those of a frame. -/
theorem Frame.or_offset (hf : Frame f) (v : Nat) : f ||| (v &&& 0xFFF) = f + v % 4096 := by
  obtain ⟨k, hk⟩ := hf.aligned
  have hmask : v &&& 0xFFF = v % 4096 := Nat.and_two_pow_sub_one_eq_mod v 12
  rw [hmask, hk]
  exact (Nat.two_pow_add_eq_or_of_lt (i := 12) (Nat.mod_lt v (by decide)) k).symm

/-! ## The walk of `UserToKernelPtr` -/

/-- Where a table is missing, it says so. -/
theorem userToKernelPtr_of_absent (h : Inv s roots F) (hr : pmlGetAddr (s.myPML4 0) ∈ roots)
    (ht : ¬ HasTable s (pmlGetAddr (s.myPML4 0)) v) : userToKernelPtr v s = 0 := by
  have hrf := root_frame h.toDistinct hr
  have hi₃ := getPML3Index_lt v
  have hi₂ := getPML2Index_lt v
  rw [userToKernelPtr]
  simp only [physToKernelPtr_root h.toDistinct hr]
  cases h₂ : child s.mem (pmlGetAddr (s.myPML4 0)) (getPML3Index v) with
  | none => rw [if_pos ((child_eq_none_iff hrf hi₃).1 h₂)]
  | some t₂ =>
    have hw₂ : walk (child s.mem) (pmlGetAddr (s.myPML4 0)) [getPML3Index v] = some t₂ := by
      simp [walk, h₂]
    have ht₂ := h.frame t₂ (walk_mem_refs hr hw₂ (by simp [hi₃]) (by simp))
    have htop := ht₂.top
    split
    · rfl
    · rw [addr_of_child hrf hi₃ h₂, physToKernelPtr_eq (by omega), if_pos]
      rw [← child_eq_none_iff ht₂ hi₂, Option.eq_none_iff_forall_ne_some]
      exact fun t₁ h₁ => ht ⟨t₁, by simp [walk, h₂, h₁]⟩

/-- Where the tables are there, it answers from the entry in the PML1, present or not. -/
theorem userToKernelPtr_of_table (h : Inv s roots F) (hr : pmlGetAddr (s.myPML4 0) ∈ roots)
    (hw : walk (child s.mem) (pmlGetAddr (s.myPML4 0)) [getPML3Index v, getPML2Index v] = some t) :
    userToKernelPtr v s = physToKernelPtr
      (pmlGetAddr (s.entry (highMemBase + t) (getPML1Index v)) ||| (v &&& 0xFFF)) := by
  obtain ⟨t₂, hroot, hp₂, h₂, hp₁, h₁⟩ := table_addresses h.toDistinct hr hw
  rw [userToKernelPtr]
  simp only [hroot, h₂, h₁, if_neg hp₂, if_neg hp₁]

section Answers

variable (h : Inv s roots F) (hr : pmlGetAddr (s.myPML4 0) ∈ roots)
  (hclean : Clean s.mem (pmlGetAddr (s.myPML4 0))) (hp : pmlGetP (s.myPML4 0) ≠ 0)
  (hv : isUserPtr v)

include h hr

/-- It is right about a page that is mapped. -/
theorem userToKernelPtr_of_mapped (hp : pmlGetP (s.myPML4 0) ≠ 0) (hv : isUserPtr v)
    (hm : Mapped s (pmlGetAddr (s.myPML4 0)) v) :
    ∃ p, translate s v = some p ∧ userToKernelPtr v s = highMemBase + p := by
  obtain ⟨t, hw⟩ := hm.hasTable
  obtain ⟨f, hf⟩ := hm
  have hi := getPML1Index_lt v
  have htf := h.frame t (walk_mem_refs hr hw (by simp [getPML3Index_lt, getPML2Index_lt]) (by simp))
  have hff := h.frame f (walk_mem_refs hr hf (pathOf_lt v) (by simp [pathOf]))
  have hc : child s.mem t (getPML1Index v) = some f := by rw [← walk_pathOf hw, hf]
  refine ⟨f + v % 4096, ?_, ?_⟩
  · rw [translate, index_of_isUserPtr hv, if_neg hp, hf]
    rfl
  · have := hff.top
    rw [userToKernelPtr_of_table h hr hw, addr_of_child htf hi hc, hff.or_offset,
      physToKernelPtr_eq (by omega)]

include hclean

/-- For a page that is not mapped, but has a PML1, it answers with an address in physical
page 0. -/
theorem userToKernelPtr_of_unmapped (ht : HasTable s (pmlGetAddr (s.myPML4 0)) v)
    (hm : ¬ Mapped s (pmlGetAddr (s.myPML4 0)) v) :
    userToKernelPtr v s = highMemBase + v % 4096 := by
  obtain ⟨t, hw⟩ := ht
  have hi := getPML1Index_lt v
  have hks : ∀ k ∈ [getPML3Index v, getPML2Index v], k < 512 := by
    simp [getPML3Index_lt, getPML2Index_lt]
  have htf := h.frame t (walk_mem_refs hr hw hks (by simp))
  have hnone : child s.mem t (getPML1Index v) = none := by
    rw [← walk_pathOf hw, Option.eq_none_iff_forall_ne_some]
    exact fun f hf => hm ⟨f, hf⟩
  have htable : t ∈ treeTables s.mem (pmlGetAddr (s.myPML4 0)) :=
    Radix.mem_tables_of_walk hw hks (by simp)
  have hmask : v &&& 0xFFF = v % 4096 := Nat.and_two_pow_sub_one_eq_mod v 12
  have := Nat.mod_lt v (show 4096 > 0 by decide)
  rw [userToKernelPtr_of_table h hr hw, entry_eq htf hi, hclean t htable _ hi hnone, hmask]
  have hzero : pmlGetAddr 0 ||| v % 4096 = v % 4096 := by simp [pmlGetAddr]
  rw [hzero, physToKernelPtr_eq (by omega)]

include hp hv

/-- **Both queries agree with the hardware** for the addresses without a PML1, and for no others. -/
theorem queries_right_iff :
    ((userToKernelPtr v s ≠ 0 ↔ (translate s v).isSome) ∧
      (∀ p, translate s v = some p → userToKernelPtr v s = highMemBase + p) ∧
      (mmQueryMemory v s ≠ 0 ↔ (translate s v).isSome)) ↔
    ¬ HasTable s (pmlGetAddr (s.myPML4 0)) v := by
  have hquery : mmQueryMemory v s = 0 := by rw [mmQueryMemory, if_pos (index_of_isUserPtr hv)]
  have hpos : 0 < highMemBase := by decide
  rw [translate_isSome hp hv, hquery]
  constructor
  · rintro ⟨hptr, -, hmm⟩ ht
    have hm : ¬ Mapped s (pmlGetAddr (s.myPML4 0)) v := fun hm => hmm.2 hm rfl
    -- Not mapped, but a PML1: the pointer is not null.
    rw [userToKernelPtr_of_unmapped h hr hclean ht hm] at hptr
    exact hm (hptr.1 (by omega))
  · intro ht
    have hm : ¬ Mapped s (pmlGetAddr (s.myPML4 0)) v := fun hm => ht hm.hasTable
    have hnone : translate s v = none := by
      rw [← Option.not_isSome_iff_eq_none, translate_isSome hp hv]
      exact hm
    rw [userToKernelPtr_of_absent h hr ht, hnone]
    simp [hm]

end Answers

/-! ## Every state that is reached -/

/-- What the queries rest on: the invariant of page tables, with the entries of live address spaces
present and all others zero. -/
structure World.Ready (w : World) (F : List Nat) : Prop where
  holds : w.Holds F
  clean : ∀ r ∈ w.pml3s, Clean w.state.mem r
  present : ∀ e ∈ w.maps, pmlGetP e ≠ 0

/-- The operations on address spaces, and unmapping a page. -/
inductive Edit
  | op (op : Op)
  | unmap (pml4Entry virt : Nat)

/-- One edit. Only pages that are mapped are unmapped. -/
inductive EditStep : World → Edit → World → Prop
  | op {w w' : World} {op : Op} : Step w op w' → EditStep w (.op op) w'
  | unmap {w : World} {e virt : Nat} : e ∈ w.maps → Mapped w.state (pmlGetAddr e) virt →
      EditStep w (.unmap e virt) ⟨unmapProcessPage e virt w.state, w.maps⟩

inductive EditRun : World → List Edit → World → Prop
  | nil (w : World) : EditRun w [] w
  | snoc {w w' w'' : World} {edits : List Edit} {edit : Edit} :
      EditRun w edits w' → EditStep w' edit w'' → EditRun w (edits ++ [edit]) w''

/-- The PML4 entries of new address spaces are present. -/
theorem Step.present {w w' : World} {op : Op} (h : w.Holds F) (hstep : Step w op w')
    (hp : ∀ e ∈ w.maps, pmlGetP e ≠ 0) : ∀ e ∈ w'.maps, pmlGetP e ≠ 0 := by
  have hrun := hstep.run
  have hserved := hstep.served
  have hallowed := hstep.allowed
  cases op with
  | create =>
    rcases createProcessMap_made h with ⟨-, hbad⟩ | ⟨f, F', s', hmap, hmade, -⟩
    · rw [Op.apply, Option.map_eq_some_iff] at hrun
      obtain ⟨⟨e, s'⟩, hs', rfl⟩ := hrun
      have := hbad e s' hs'
      dsimp only at hserved
      omega
    · rw [Op.apply, hmap, Option.map_some, Option.some.injEq] at hrun
      rw [← hrun]
      exact List.forall_mem_cons.2
        ⟨userEntry_names.present f (h.pool.frame f hmade.root), hp⟩
  | map e virt =>
    rw [Op.apply, Option.map_eq_some_iff] at hrun
    obtain ⟨r, -, rfl⟩ := hrun
    exact hp
  | fork =>
    rcases forkProcessMap_spec h (List.mem_map_of_mem hallowed)
      with ⟨-, hbad⟩ | ⟨f, F', s', hmap, hmade, -⟩
    · rw [Op.apply, Option.map_eq_some_iff] at hrun
      obtain ⟨⟨e, s'⟩, hs', rfl⟩ := hrun
      have := hbad e s' hs'
      dsimp only at hserved
      omega
    · rw [Op.apply, hmap, Option.map_some, Option.some.injEq] at hrun
      rw [← hrun]
      exact List.forall_mem_cons.2
        ⟨userEntry_names.present f (h.pool.frame f hmade.root), hp⟩
  | free e =>
    rw [Op.apply, Option.map_eq_some_iff] at hrun
    obtain ⟨s', -, rfl⟩ := hrun
    exact fun e' he' => hp e' (List.mem_of_mem_erase he')
  | «switch» e =>
    obtain rfl := Option.some.inj hrun
    exact hp

/-- Each edit keeps what the queries rest on. -/
theorem EditStep.ready {w w' : World} {edit : Edit} (h : w.Ready F)
    (hstep : EditStep w edit w') : ∃ F', w'.Ready F' := by
  cases hstep with
  | op hstep =>
    obtain ⟨F', hcons⟩ := hstep.conserves h.holds
    exact ⟨F', hcons.holds, hcons.clean h.clean, hstep.present h.holds h.present⟩
  | unmap he hm =>
    rename_i e virt
    have hr : pmlGetAddr e ∈ w.pml3s := List.mem_map_of_mem he
    have hun := unmapProcessPage_spec h.holds hr hm.hasTable
    refine ⟨F, hun.inv, fun r hr' => ?_, h.present⟩
    by_cases hre : r = pmlGetAddr e
    · rw [hre]
      exact hun.clean (h.clean _ hr)
    · exact clean_congr (hun.other r hr' hre) (h.clean r hr')

theorem EditRun.ready {w w' : World} {edits : List Edit} (h : w.Ready F)
    (hrun : EditRun w edits w') : ∃ F', w'.Ready F' := by
  induction hrun with
  | nil => exact ⟨F, h⟩
  | snoc _ hstep ih =>
    obtain ⟨F', h'⟩ := ih
    exact hstep.ready h'

/-- **When the queries agree with the page tables.** In every state that is reached by mapping and
unmapping pages and by making, forking, switching and freeing address spaces, and for every user
address: both queries give the answer of the hardware if and only if there is no PML1 for the
address. -/
theorem queries_agree_iff {w w' : World} {edits : List Edit} {F : List Nat} (hstart : w.Ready F)
    (hrun : EditRun w edits w') (hlive : w'.state.myPML4 0 ∈ w'.maps) {v : Nat}
    (hv : isUserPtr v) :
    ((userToKernelPtr v w'.state ≠ 0 ↔ (translate w'.state v).isSome) ∧
      (∀ p, translate w'.state v = some p → userToKernelPtr v w'.state = highMemBase + p) ∧
      (mmQueryMemory v w'.state ≠ 0 ↔ (translate w'.state v).isSome)) ↔
    ¬ HasTable w'.state (pmlGetAddr (w'.state.myPML4 0)) v := by
  obtain ⟨F', h'⟩ := hrun.ready hstart
  have hr : pmlGetAddr (w'.state.myPML4 0) ∈ w'.pml3s := List.mem_map_of_mem hlive
  exact queries_right_iff h'.holds hr (h'.clean _ hr) (h'.present _ hlive) hv

/-! ## A process with one page -/

theorem boot_ready {n : Nat} (hn : 0 < n) (hle : n < 2 ^ 27) (rest : Nat → Nat) :
    World.Ready ⟨boot n rest, []⟩ (bootFrames n) :=
  ⟨boot_holds hn hle rest, by simp [World.pml3s], by simp⟩

/-- A process is started on a machine with four frames, and its page 0 is mapped. -/
theorem boot_map : ∃ e w, EditRun ⟨boot 4 fun _ => 0, []⟩
      [.op .create, .op (.switch e), .op (.map e 0)] w ∧ w.state.myPML4 0 ∈ w.maps ∧
    treeShape w.state.mem (pmlGetAddr (w.state.myPML4 0)) = withPath ∅ 0 := by
  obtain ⟨e, s, F, hcreate, hswitch, hholds, -, hlen, hshape⟩ :=
    boot_process (n := 3) (by omega) fun _ => 0
  have hpml4 := myPML4_switch e s
  rw [hpml4] at hshape
  have hr : pmlGetAddr e ∈ World.pml3s ⟨switchProcessMap e s, [e]⟩ :=
    List.mem_map_of_mem (List.mem_singleton.2 rfl)
  rcases mapProcessPage_spec (hholds.switch (e := e)) hr 0 with ⟨hshort, -⟩ | ⟨f, s', F', hmap, -, hgrew, hshape', -⟩
  · have hcard : (withPath (∅ : Finset (List Nat)) 0).card = 3 := by decide
    rw [Short, hshape, hcard] at hshort
    simp [hlen] at hshort
  · have hstep : Step ⟨switchProcessMap e s, [e]⟩ (.map e 0) ⟨s', [e]⟩ :=
      ⟨List.mem_singleton.2 rfl, by rw [Op.apply, hmap]; rfl, hgrew.refused⟩
    refine ⟨e, ⟨s', [e]⟩, .snoc (.snoc (.snoc (.nil _) (.op hcreate)) (.op hswitch)) (.op hstep), ?_, ?_⟩
    · rw [hgrew.myPML4, hpml4]
      exact List.mem_singleton.2 rfl
    · show treeShape s'.mem (pmlGetAddr (s'.myPML4 0)) = withPath ∅ 0
      rw [hgrew.myPML4, hpml4, hshape', hshape]

/-- Both queries are right about an address one gigabyte further. -/
theorem queries_agree_iff_boot : ∃ e w, EditRun ⟨boot 4 fun _ => 0, []⟩
      [.op .create, .op (.switch e), .op (.map e 0)] w ∧
    (userToKernelPtr (2 ^ 30) w.state ≠ 0 ↔ (translate w.state (2 ^ 30)).isSome) ∧
    (mmQueryMemory (2 ^ 30) w.state ≠ 0 ↔ (translate w.state (2 ^ 30)).isSome) := by
  obtain ⟨e, w, hrun, hlive, hshape⟩ := boot_map
  have hiff := queries_agree_iff (v := 2 ^ 30) (boot_ready (by omega) (by omega) _) hrun hlive
    (by decide)
  obtain ⟨hptr, -, hmm⟩ := hiff.2 (by rw [hasTable_iff_shape hshape]; decide)
  exact ⟨e, w, hrun, hptr, hmm⟩

/-- **The queries are wrong**: page 0 is mapped and `MmQueryMemory` says it is not, page 1 is not
mapped and `UserToKernelPtr` gives a pointer for it. -/
theorem queries_disagree : ∃ e w, EditRun ⟨boot 4 fun _ => 0, []⟩
      [.op .create, .op (.switch e), .op (.map e 0)] w ∧
    (translate w.state 0).isSome ∧ mmQueryMemory 0 w.state = 0 ∧
    translate w.state 4096 = none ∧ userToKernelPtr 4096 w.state ≠ 0 := by
  obtain ⟨e, w, hrun, hlive, hshape⟩ := boot_map
  obtain ⟨F, h⟩ := hrun.ready (boot_ready (by omega) (by omega) _)
  have hr : pmlGetAddr (w.state.myPML4 0) ∈ w.pml3s := List.mem_map_of_mem hlive
  have hp := h.present _ hlive
  have hunmapped : ¬ Mapped w.state (pmlGetAddr (w.state.myPML4 0)) 4096 := by
    rw [mapped_iff_shape hshape]
    decide
  refine ⟨e, w, hrun, ?_, rfl, ?_, ?_⟩
  · rw [translate_isSome hp (by decide), mapped_iff_shape hshape]
    decide
  · rw [← Option.not_isSome_iff_eq_none, translate_isSome hp (by decide)]
    exact hunmapped
  · rw [userToKernelPtr_of_unmapped h.holds hr (h.clean _ hr)
      ((hasTable_iff_shape hshape).2 (by decide)) hunmapped]
    decide

end ChenixOS.MemoryManager
