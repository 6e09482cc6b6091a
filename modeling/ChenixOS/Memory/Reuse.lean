import ChenixOS.Memory.Queries

/-!
# Pages used again

Nothing between `FreeProcessMap` and `syscall_alloc` clears a page: giving back a frame and taking
it again write to its first four words alone, where the free list keeps its nodes. So a process
reads in a new page what the process before it left there.
-/

namespace ChenixOS.MemoryManager

open Radix (walk)

variable {s s' : State} {roots F F' : List Nat} {w w' : World} {r x v e j : Nat}

/-! ## Reading a word -/

/-- The word that the running process reads at an address. -/
def userWord (s : State) (v : Nat) : Option Nat :=
  (translate s v).map fun p => s.mem (highMemBase + p)

theorem getPML4Index_add (ha : v % 4096 = 0) (hj : j < 4096) :
    getPML4Index (v + j) = getPML4Index v := by
  have : (v + j) / 2 ^ 39 = v / 2 ^ 39 := by omega
  rw [getPML4Index, getPML4Index, Nat.shiftRight_eq_div_pow, Nat.shiftRight_eq_div_pow, this]

/-- The addresses of one page have one path. -/
theorem pathOf_add (ha : v % 4096 = 0) (hj : j < 4096) : pathOf (v + j) = pathOf v := by
  have h₁ : (v + j) / 2 ^ 12 = v / 2 ^ 12 := by omega
  have h₂ : (v + j) / 2 ^ 21 = v / 2 ^ 21 := by omega
  have h₃ : (v + j) / 2 ^ 30 = v / 2 ^ 30 := by omega
  simp only [pathOf, getPML1Index, getPML2Index, getPML3Index, Nat.shiftRight_eq_div_pow, h₁, h₂, h₃]

theorem userWord_eq (hp : pmlGetP (s.myPML4 0) ≠ 0) (hv : isUserPtr v) (ha : v % 4096 = 0)
    (hj : j < 512) (hw : walk (child s.mem) (pmlGetAddr (s.myPML4 0)) (pathOf v) = some x) :
    userWord s (v + 8 * j) = some (s.mem (highMemBase + x + 8 * j)) := by
  have hoff : (v + 8 * j) % 4096 = 8 * j := by omega
  rw [userWord, translate, getPML4Index_add ha (by omega), pathOf_add ha (by omega),
    index_of_isUserPtr hv, if_neg hp, hw, hoff]
  simp [Nat.add_assoc]

/-! ## From one process to the next -/

/-- The frame `x` is free. -/
def World.Free (w : World) (x : Nat) : Prop := ∃ F, Pool w.state F ∧ x ∈ F

/-- The frame `x` is left with what it holds in `w`, and not handed out until `w'`: it was free, or
its process was terminated, and it stayed free. -/
inductive Left (x : Nat) : World → World → Prop
  | free {w : World} : w.Free x → Left x w w
  | exit {w w' : World} {e : Nat} : x ∈ tree w.state.mem (pmlGetAddr e) → Step w (.free e) w' →
      Left x w w'
  | next {w w' w'' : World} {op : Op} : Left x w w' → Step w' op w'' → w''.Free x → Left x w w''

/-- The frame keeps all but its header. -/
theorem Left.words (hl : Left x w w') (h : w.Ready F) : ∃ F', w'.Ready F' ∧ x ∈ F' ∧
    ∀ j, 4 ≤ j → j < 512 →
      w'.state.mem (highMemBase + x + 8 * j) = w.state.mem (highMemBase + x + 8 * j) := by
  induction hl with
  | free hx =>
    obtain ⟨F₀, hpool, hx⟩ := hx
    exact ⟨F, h, (hpool.mem_iff h.holds.pool).1 hx, fun _ _ _ => rfl⟩
  | exit hx hstep =>
    obtain ⟨F', hcons⟩ := hstep.conserves h.holds
    have hr := List.mem_map_of_mem (f := pmlGetAddr) hstep.allowed
    obtain ⟨s', F'', hrun, hfreed, -⟩ := freeProcessMap_spec h.holds hr
    have happly := hstep.run
    rw [Op.apply, hrun, Option.map_some, Option.some.injEq] at happly
    have hpool := hfreed.moved.pool
    have hs' : s' = _ := congrArg World.state happly
    have hmem := hfreed.perm.mem_iff.2 (List.mem_append_left F hx)
    rw [hs'] at hpool
    have hx' := (hpool.mem_iff hcons.holds.pool).1 hmem
    exact ⟨F', ⟨hcons.holds, hcons.clean h.clean, hstep.present h.holds h.present⟩, hx',
      hcons.rest x hx'⟩
  | next _ hstep hx ih =>
    obtain ⟨F₁, h₁, -, hwords⟩ := ih
    obtain ⟨F₂, hcons⟩ := hstep.conserves h₁.holds
    obtain ⟨F₀, hpool, hx⟩ := hx
    have hx' := (hpool.mem_iff hcons.holds.pool).1 hx
    refine ⟨F₂, ⟨hcons.holds, hcons.clean h₁.clean, hstep.present h₁.holds h₁.present⟩, hx', ?_⟩
    intro j h4 hj
    rw [hcons.rest x hx' j h4 hj, hwords j h4 hj]

/-- The frame `x`, left in `w`, comes to be the page `v` of the running process by a call of
`syscall_alloc`. -/
def Reuse (w : World) (x v : Nat) (w' : World) : Prop :=
  ∃ w₀ base numPages, Left x w w₀ ∧ CallStep w₀ (.alloc base numPages) w' ∧
    ¬ Mapped w₀.state (pmlGetAddr (w₀.state.myPML4 0)) v ∧
    walk (child w'.state.mem) (pmlGetAddr (w'.state.myPML4 0)) (pathOf v) = some x

/-- **A new page holds what was left in its frame.** -/
theorem Reuse.word (hr : Reuse w x v w') (h : w.Ready F) (hv : isUserPtr v) (ha : v % 4096 = 0)
    (h4 : 4 ≤ j) (hj : j < 512) :
    userWord w'.state (v + 8 * j) = some (w.state.mem (highMemBase + x + 8 * j)) := by
  obtain ⟨w₀, base, numPages, hl, hstep, hfresh, hpage⟩ := hr
  obtain ⟨F₀, h₀, hx, hwords⟩ := hl.words h
  have hlive : w₀.state.myPML4 0 ∈ w₀.maps := hstep.allowed
  have hroot : pmlGetAddr (w₀.state.myPML4 0) ∈ w₀.pml3s := List.mem_map_of_mem hlive
  have hrun := hstep.run
  have hserved := hstep.served
  rw [Call.run, syscallAlloc, pageCall_eq] at hrun
  rcases foldlM_map_spec h₀.holds hroot (callPages base numPages)
    with ⟨-, hbad⟩ | ⟨s', hrun', -, hall⟩
  · have := hbad _ hrun
    omega
  · rw [hrun, Option.some.injEq] at hrun'
    subst hrun'
    obtain ⟨F', hinv, hgrew⟩ := hall.grew
    have hp := h₀.present _ hlive
    rw [← hgrew.myPML4] at hp
    have hnone : walk (child w₀.state.mem) (pmlGetAddr (w₀.state.myPML4 0)) (pathOf v) = none := by
      rw [Option.eq_none_iff_forall_ne_some]
      exact fun f hf => hfresh ⟨f, hf⟩
    rw [userWord_eq hp hv ha hj hpage]
    rw [hgrew.myPML4] at hpage
    have hkept := (hall.fresh _ (pathOf_lt v) rfl hnone x hpage).2 j h4 hj
    rw [hkept, hwords j h4 hj]

/-- A machine with four free frames on which a process is started and allocates its page 0, which
is one of the frames. -/
theorem boot_reuse (rest : Nat → Nat) : ∃ e x s w w', x ∈ bootFrames 4 ∧
    Step ⟨boot 4 rest, []⟩ .create ⟨s, [e]⟩ ∧ Step ⟨s, [e]⟩ (.switch e) w ∧
    CallStep w (.alloc 0 1) w' ∧ Reuse ⟨boot 4 rest, []⟩ x 0 w' := by
  obtain ⟨e, s, F, hcreate, hswitch, hholds, hsub, hlen, hshape⟩ :=
    boot_process (n := 3) (by omega) rest
  obtain ⟨s', hstep, hpml4, hall, hmapped⟩ := CallStep.first_page (hholds.switch (e := e))
    (by simp [myPML4_switch]) hlen hshape
  obtain ⟨x, hx⟩ := hmapped
  have hfresh : ¬ Mapped (switchProcessMap e s) (pmlGetAddr ((switchProcessMap e s).myPML4 0)) 0 := by
    rw [mapped_iff_shape hshape]
    simp
  have hnone : walk (child (switchProcessMap e s).mem)
      (pmlGetAddr ((switchProcessMap e s).myPML4 0)) (pathOf 0) = none := by
    rw [Option.eq_none_iff_forall_ne_some]
    exact fun f hf => hfresh ⟨f, hf⟩
  have hxF := (hall.fresh _ (pathOf_lt 0) rfl hnone x hx).1
  refine ⟨e, x, s, _, _, hsub x hxF, hcreate, hswitch, hstep, _, 0, 1, ?_, hstep, hfresh, ?_⟩
  · have hfree : Left x ⟨boot 4 rest, []⟩ ⟨boot 4 rest, []⟩ :=
      .free ⟨_, boot_pool (by omega) (by omega) rest, hsub x hxF⟩
    exact (hfree.next hcreate ⟨F, hholds.pool, hxF⟩).next hswitch
      ⟨F, (hholds.switch (e := e)).pool, hxF⟩
  · show walk (child s'.mem) (pmlGetAddr (s'.myPML4 0)) (pathOf 0) = some x
    rw [hpml4]
    exact hx

/-- What is left in the free frames of the second machine. -/
def leftover (a : Nat) : Nat :=
  if 4096 ≤ a - highMemBase ∧ a - highMemBase < 5 * 4096 then 1 else 0

end ChenixOS.MemoryManager
