import ChenixOS.Memory.Accounts
import ChenixOS.Memory.MemoryManager

/-!
# Physical pages

Frames are the pages of physical memory, named by their physical address. `Pool s F` says that the
free list of `s` holds exactly the frames `F`. Allocating a page takes one frame out of the pool,
freeing one puts it back, and both write to nothing but frames that are free afterwards.
-/

namespace ChenixOS.MemoryManager

open FreeList (Segment Holds covered)

/-! ## Addresses and entries -/

/-- A page of the physical memory that is mapped for the kernel, other than page 0. -/
structure Frame (f : Nat) : Prop where
  aligned : 4096 ∣ f
  pos : 0 < f
  top : f + 4096 ≤ 2 ^ 39

theorem physToKernelPtr_eq {p : Nat} (h : p < 2 ^ 39) : physToKernelPtr p = highMemBase + p := by
  unfold physToKernelPtr highMemBase wordSize
  omega

theorem kernelToPhysPtr_eq {p : Nat} (h : p < 2 ^ 39) : kernelToPhysPtr (highMemBase + p) = p := by
  unfold kernelToPhysPtr highMemBase wordSize
  omega

theorem entryAt_eq {f i : Nat} (hf : Frame f) (hi : i < 512) :
    State.entryAt (highMemBase + f) i = highMemBase + f + 8 * i := by
  have := hf.top
  unfold State.entryAt highMemBase wordSize
  omega

theorem pmlGetP_eq (e : Nat) : pmlGetP e = e % 2 := Nat.and_one_is_mod e

/-- The mask of `PML_GET_ADDR` cuts out the bits 12 to 51. -/
theorem pmlGetAddr_eq (e : Nat) : pmlGetAddr e = e / 2 ^ 12 % 2 ^ 40 * 2 ^ 12 := by
  have hmask : 0x000FFFFFFFFFF000 = (2 ^ 40 - 1) * 2 ^ 12 := by decide
  refine Nat.eq_of_testBit_eq fun i => ?_
  rw [pmlGetAddr, hmask, Nat.testBit_and, Nat.testBit_mul_two_pow, Nat.testBit_mul_two_pow,
    Nat.testBit_two_pow_sub_one, Nat.testBit_mod_two_pow, Nat.testBit_div_two_pow]
  by_cases h : 12 ≤ i
  · rw [Nat.sub_add_cancel h]
    simp [h, Bool.and_comm]
  · simp [h]

theorem Frame.userEntry_eq {f : Nat} (hf : Frame f) : userEntry f = f + 7 := by
  obtain ⟨k, hk⟩ := hf.aligned
  have h := Nat.two_pow_add_eq_or_of_lt (i := 12) (b := 7) (by decide) k
  have hor : f ||| pmlSetP ||| pmlSetRW ||| pmlSetUS = f ||| 7 := by
    rw [Nat.or_assoc, Nat.or_assoc]
    rfl
  rw [userEntry, hor, hk]
  exact h.symm

theorem Frame.kernelEntry_eq {f : Nat} (hf : Frame f) : kernelEntry f = f + 3 := by
  obtain ⟨k, hk⟩ := hf.aligned
  have h := Nat.two_pow_add_eq_or_of_lt (i := 12) (b := 3) (by decide) k
  have hor : f ||| pmlSetP ||| pmlSetRW = f ||| 3 := by
    rw [Nat.or_assoc]
    rfl
  rw [kernelEntry, hor, hk]
  exact h.symm

/-- An entry that is made from a frame is present and names it. -/
structure Names (newEntry : Nat → Nat) : Prop where
  addr : ∀ f, Frame f → pmlGetAddr (newEntry f) = f
  present : ∀ f, Frame f → pmlGetP (newEntry f) ≠ 0

theorem userEntry_names : Names userEntry where
  addr f hf := by
    have := hf.aligned
    have := hf.top
    rw [hf.userEntry_eq, pmlGetAddr_eq]
    omega
  present f hf := by
    have := hf.aligned
    rw [hf.userEntry_eq, pmlGetP_eq]
    omega

theorem kernelEntry_names : Names kernelEntry where
  addr f hf := by
    have := hf.aligned
    have := hf.top
    rw [hf.kernelEntry_eq, pmlGetAddr_eq]
    omega
  present f hf := by
    have := hf.aligned
    rw [hf.kernelEntry_eq, pmlGetP_eq]
    omega

/-! ## Words of pages -/

/-- The addresses of the pages of the frames `F`. -/
def pages (F : List Nat) : Set Nat :=
  {a | ∃ f ∈ F, highMemBase + f ≤ a ∧ a < highMemBase + f + 4096}

theorem mem_pages_iff {F : List Nat} {a : Nat} :
    a ∈ pages F ↔ ∃ f ∈ F, highMemBase + f ≤ a ∧ a < highMemBase + f + 4096 := Iff.rfl

/-- A word of a frame lies in no page of other frames. -/
theorem not_mem_pages {F : List Nat} {f i : Nat} (hf : Frame f) (hi : i < 512)
    (hF : ∀ g ∈ F, Frame g) (hne : f ∉ F) : highMemBase + f + 8 * i ∉ pages F := by
  rintro ⟨g, hg, hlo, hhi⟩
  have := hf.aligned
  have := (hF g hg).aligned
  have : f ≠ g := by
    rintro rfl
    exact hne hg
  omega

theorem mem_pages {F : List Nat} {f i : Nat} (hi : i < 512) (hf : f ∈ F) :
    highMemBase + f + 8 * i ∈ pages F :=
  ⟨f, hf, by omega⟩

theorem pages_subset {F F' : List Nat} (h : ∀ f ∈ F, f ∈ F') : pages F ⊆ pages F' := by
  rintro a ⟨f, hf, ha⟩
  exact ⟨f, h f hf, ha⟩

/-- Words of different frames, or different words of one, are at different addresses. -/
theorem word_ne {f g i j : Nat} (hf : Frame f) (hg : Frame g) (hi : i < 512) (hj : j < 512)
    (h : ¬ (f = g ∧ i = j)) : highMemBase + f + 8 * i ≠ highMemBase + g + 8 * j := by
  have := hf.aligned
  have := hg.aligned
  omega

namespace State

@[simp] theorem mem_store (s : State) (a v : Nat) :
    (s.store a v).mem = Function.update s.mem a v := by
  cases s
  rfl

@[simp] theorem myPML4_store (s : State) (a v : Nat) : (s.store a v).myPML4 = s.myPML4 := by
  cases s
  rfl

@[simp] theorem refused_store (s : State) (a v : Nat) : (s.store a v).refused = s.refused := by
  cases s
  rfl

@[simp] theorem head_store (s : State) (a v : Nat) : (s.store a v).list.head = s.list.head := by
  cases s
  rfl

@[simp] theorem tail_store (s : State) (a v : Nat) : (s.store a v).list.tail = s.list.tail := by
  cases s
  rfl

/-- Two states that differ in memory alone. -/
structure SameButMem (s s' : State) : Prop where
  myPML4 : s'.myPML4 = s.myPML4
  refused : s'.refused = s.refused
  head : s'.list.head = s.list.head
  tail : s'.list.tail = s.list.tail

theorem SameButMem.refl (s : State) : SameButMem s s := ⟨rfl, rfl, rfl, rfl⟩

theorem SameButMem.trans {s₁ s₂ s₃ : State} (h₁ : SameButMem s₁ s₂) (h₂ : SameButMem s₂ s₃) :
    SameButMem s₁ s₃ :=
  ⟨h₂.1.trans h₁.1, h₂.2.trans h₁.2, h₂.3.trans h₁.3, h₂.4.trans h₁.4⟩

theorem sameButMem_store (s : State) (a v : Nat) : SameButMem s (s.store a v) :=
  ⟨rfl, rfl, rfl, rfl⟩

/-- A loop of stores to the words of one frame, each value read before the store. -/
theorem foldl_setEntry {s : State} {f : Nat} (hf : Frame f) (val : State → Nat → Nat) (n : Nat)
    (hn : n ≤ 512) :
    let s' := (List.range n).foldl (fun s i => s.setEntry (highMemBase + f) i (val s i)) s
    SameButMem s s' ∧ ∀ a, (∀ i < n, a ≠ highMemBase + f + 8 * i) → s'.mem a = s.mem a := by
  induction n with
  | zero => exact ⟨SameButMem.refl s, fun _ _ => rfl⟩
  | succ n ih =>
    obtain ⟨hsame, hmem⟩ := ih (by omega)
    simp only [List.range_succ, List.foldl_append, List.foldl_cons, List.foldl_nil]
    refine ⟨hsame.trans (sameButMem_store _ _ _), ?_⟩
    intro a ha
    rw [setEntry, mem_store, entryAt_eq hf (by omega), Function.update_of_ne (ha n (by omega))]
    exact hmem a fun i hi => ha i (by omega)

/-- Clearing a table sets its words and changes no others. -/
theorem clearTable_spec {s : State} {f : Nat} (hf : Frame f) :
    SameButMem s (s.clearTable (highMemBase + f)) ∧
    (∀ i < 512, (s.clearTable (highMemBase + f)).mem (highMemBase + f + 8 * i) = 0) ∧
    ∀ a, a ∉ pages [f] → (s.clearTable (highMemBase + f)).mem a = s.mem a := by
  obtain ⟨hsame, hmem⟩ := foldl_setEntry (s := s) hf (fun _ _ => 0) 512 le_rfl
  refine ⟨hsame, ?_, fun a ha => hmem a fun i hi e => ha (e ▸ mem_pages hi (by simp))⟩
  have hzero : ∀ n ≤ 512, ∀ i < n, ((List.range n).foldl
      (fun s i => s.setEntry (highMemBase + f) i 0) s).mem (highMemBase + f + 8 * i) = 0 := by
    intro n hn
    induction n with
    | zero => intro i hi; omega
    | succ n ih =>
      intro i hi
      simp only [List.range_succ, List.foldl_append, List.foldl_cons, List.foldl_nil]
      rw [setEntry, mem_store, entryAt_eq hf (by omega), Function.update_apply]
      split
      · rfl
      · exact ih (by omega) i (by omega)
  exact hzero 512 le_rfl

/-- Copying a page changes no other page. -/
theorem copyPage_spec {s : State} {f src : Nat} (hf : Frame f) :
    SameButMem s (s.copyPage (highMemBase + f) src) ∧
    ∀ a, a ∉ pages [f] → (s.copyPage (highMemBase + f) src).mem a = s.mem a := by
  obtain ⟨hsame, hmem⟩ := foldl_setEntry (s := s) hf (fun s i => s.entry src i) 512 le_rfl
  exact ⟨hsame, fun a ha => hmem a fun i hi e => ha (e ▸ mem_pages hi (by simp))⟩

/-- A copied page has the words of the other page. -/
theorem copyPage_words {s : State} {f g : Nat} (hf : Frame f) (hg : Frame g) (hne : f ≠ g) :
    ∀ j < 512, (s.copyPage (highMemBase + f) (highMemBase + g)).mem (highMemBase + f + 8 * j) =
      s.mem (highMemBase + g + 8 * j) := by
  have hcopied : ∀ n ≤ 512, ∀ j < n, ((List.range n).foldl (fun s i =>
      s.setEntry (highMemBase + f) i (s.entry (highMemBase + g) i)) s).mem
        (highMemBase + f + 8 * j) = s.mem (highMemBase + g + 8 * j) := by
    intro n hn
    induction n with
    | zero =>
      intro j hj
      omega
    | succ n ih =>
      intro j hj
      obtain ⟨-, hmem⟩ := foldl_setEntry (s := s) hf
        (fun s i => s.entry (highMemBase + g) i) n (by omega)
      simp only [List.range_succ, List.foldl_append, List.foldl_cons, List.foldl_nil]
      rw [setEntry, mem_store, entryAt_eq hf (by omega)]
      by_cases hjn : j = n
      · subst hjn
        rw [Function.update_self, entry, entryAt_eq hg (by omega)]
        exact hmem _ fun i hi => word_ne hg hf (by omega) (by omega) fun e => hne e.1.symm
      · rw [Function.update_of_ne (word_ne hf hf (by omega) (by omega) fun e => hjn e.2)]
        exact ih (by omega) j (by omega)
  exact hcopied 512 le_rfl

end State

/-! ## The pool of free frames -/

/-- The kernel addresses of frames: where the nodes of the free list are. -/
def frameNodes : Set Nat := {a | ∃ f, Frame f ∧ a = highMemBase + f}

/-- The free list of `s` holds exactly the frames `F`. -/
structure Pool (s : State) (F : List Nat) : Prop where
  nodup : F.Nodup
  frame : ∀ f ∈ F, Frame f
  list : ∃ segs, Holds 4096 frameNodes s.mem s.list.head s.list.tail segs ∧
    covered segs = pages F

/-- The free list is read from nothing but free frames. -/
theorem Pool.congr {s s' : State} {F : List Nat} (h : Pool s F) (hs : State.SameButMem s s')
    (hmem : ∀ a ∈ pages F, s'.mem a = s.mem a) : Pool s' F := by
  obtain ⟨segs, hh, hcov⟩ := h.list
  refine ⟨h.nodup, h.frame, segs, ?_, hcov⟩
  rw [hs.head, hs.tail]
  exact hh.congr (by omega) fun a ha => hmem a (hcov ▸ ha)

/-- The pool as a set of pages. -/
theorem Pool.perm {s : State} {F F' : List Nat} (h : Pool s F) (hp : F.Perm F') : Pool s F' := by
  obtain ⟨segs, hh, hcov⟩ := h.list
  refine ⟨hp.nodup_iff.1 h.nodup, fun f hf => h.frame f (hp.mem_iff.2 hf), segs, hh, ?_⟩
  rw [hcov]
  exact Set.Subset.antisymm (pages_subset fun f hf => hp.mem_iff.1 hf)
    (pages_subset fun f hf => hp.mem_iff.2 hf)

/-- The list determines the pool. -/
theorem Pool.mem_iff {s : State} {F F' : List Nat} (h : Pool s F) (h' : Pool s F') {f : Nat} :
    f ∈ F ↔ f ∈ F' := by
  obtain ⟨segs, hh, hcov⟩ := h.list
  obtain ⟨segs', hh', hcov'⟩ := h'.list
  obtain rfl := hh.unique hh'
  have hpages : pages F = pages F' := hcov.symm.trans hcov'
  have hsub : ∀ F F' : List Nat, (∀ f ∈ F, Frame f) → (∀ f ∈ F', Frame f) → pages F = pages F' →
      f ∈ F → f ∈ F' := by
    intro F F' hF hF' hpages hf
    have hmem := mem_pages (i := 0) (by omega) hf
    rw [hpages] at hmem
    obtain ⟨g, hg, hlo, hhi⟩ := hmem
    have := (hF f hf).aligned
    have := (hF' g hg).aligned
    have : g = f := by omega
    exact this ▸ hg
  exact ⟨hsub F F' h.frame h'.frame hpages, hsub F' F h'.frame h.frame hpages.symm⟩

/-- Physical memory as it shows to the free list, which writes to nothing but headers. -/
def Shows (m₀ m c : Nat → Nat) : Prop :=
  m = c ∧ ∀ a, a ∉ FreeList.headers frameNodes → c a = m₀ a

theorem simulates_frames (m₀ : Nat → Nat) :
    View.plain.Simulates (FreeList.headers frameNodes) (Shows m₀) where
  load h _ := by
    rw [h.1]
    rfl
  store v h ha := by
    refine ⟨_, rfl, by rw [h.1], fun b hb => ?_⟩
    rw [Function.update_of_ne, h.2 b hb]
    rintro rfl
    exact hb ha

/-- The header of a frame is its first four words. -/
theorem not_mem_headers {f i : Nat} (hf : Frame f) (h4 : 4 ≤ i) (hi : i < 512) :
    highMemBase + f + 8 * i ∉ FreeList.headers frameNodes := by
  rintro ⟨b, ⟨g, hg, rfl⟩, hb⟩
  have := hf.aligned
  have := hg.aligned
  omega

/-- What a request for one page or its release does to a state: only the list changed, nothing
was written outside of what is free afterwards, and there nothing but headers. -/
structure Moved (s s' : State) (F' : List Nat) : Prop where
  pool : Pool s' F'
  myPML4 : s'.myPML4 = s.myPML4
  frame : ∀ a, a ∉ pages F' → s'.mem a = s.mem a
  words : ∀ f i, Frame f → 4 ≤ i → i < 512 →
    s'.mem (highMemBase + f + 8 * i) = s.mem (highMemBase + f + 8 * i)

/-- The frames of `n` pages in a row. -/
def blockFrames (f n : Nat) : List Nat := (List.range n).map fun i => f + 4096 * i

theorem mem_blockFrames {f n x : Nat} : x ∈ blockFrames f n ↔ ∃ i < n, x = f + 4096 * i := by
  simp [blockFrames, eq_comm]

theorem blockFrames_nodup (f n : Nat) : (blockFrames f n).Nodup := by
  refine List.nodup_range.map fun i j h => ?_
  have : f + 4096 * i = f + 4096 * j := h
  omega

theorem length_blockFrames (f n : Nat) : (blockFrames f n).length = n := by
  simp [blockFrames]

/-- The frames of a block that is in the pool, and the others. -/
theorem Pool.split {s : State} {F : List Nat} {f n : Nat} (h : Pool s F)
    (hblock : ∀ x ∈ blockFrames f n, x ∈ F) :
    F.Perm (blockFrames f n ++ F.filter fun x => x ∉ blockFrames f n) := by
  refine (List.filter_append_perm (fun x => decide (x ∈ blockFrames f n)) F).symm.trans ?_
  refine List.Perm.append ?_ ?_
  · rw [List.perm_ext_iff_of_nodup (h.nodup.filter _) (blockFrames_nodup f n)]
    intro x
    simp only [List.mem_filter, decide_eq_true_eq]
    exact ⟨fun hx => hx.2, fun hx => ⟨hblock x hx, hx⟩⟩
  · simp

/-- No free segment has room for `n` pages. -/
def NoRoom (s : State) (n : Nat) : Prop :=
  ∃ segs, Holds 4096 frameNodes s.mem s.list.head s.list.tail segs ∧ ∀ g ∈ segs, g.size < n * 4096

/-- **A request for pages** is refused when no segment has room for them, and takes frames in a row
out of the pool otherwise. -/
theorem allocatePages_many {s : State} {F : List Nat} {n : Nat} (h : Pool s F) (hn : 0 < n)
    (hlt : n * 4096 < wordSize) :
    (NoRoom s n ∧ allocatePages n s = some (0, { s with refused := s.refused + 1 })) ∨
    ∃ f F' s', F.Perm (blockFrames f n ++ F') ∧ allocatePages n s = some (f, s') ∧ Moved s s' F' ∧
      s'.refused = s.refused := by
  obtain ⟨segs, hh, hcov⟩ := h.list
  have hnode : ∀ g ∈ segs, n * 4096 < g.size → g.base + n * 4096 ∈ frameNodes := by
    intro g hg hlt
    obtain ⟨f, hf, hb⟩ := (hh.fits g hg).node
    have htop := (hh.fits g hg).top
    have hdvd := (hh.fits g hg).granule
    refine ⟨f + n * 4096, ⟨?_, by omega, ?_⟩, by omega⟩
    · exact Nat.dvd_add hf.aligned (Nat.dvd_mul_left _ _)
    · unfold highMemBase at hb
      unfold wordSize at htop
      omega
  have hmod : n * 4096 % wordSize = n * 4096 := Nat.mod_eq_of_lt hlt
  rcases FreeList.take_spec (simulates_frames s.mem) (by omega) ⟨rfl, fun _ _ => rfl⟩
      (FreeList.accounts_nil hh) (n := n * 4096) (by omega) (Nat.dvd_mul_left _ _) hnode
    with ⟨htake, hall⟩ | ⟨g, hg, hle, l', c', segs', htake, ⟨rfl, hwords⟩, hacc, hframe⟩
  · exact .inl ⟨⟨segs, hh, hall⟩, by simp [allocatePages, hmod, htake]⟩
  · right
    obtain ⟨f, hf, hb⟩ := (hh.fits g hg).node
    have hpos := (hh.fits g hg).pos
    have haligned := hf.aligned
    -- The segment begins with free frames.
    have hblock : ∀ x ∈ blockFrames f n, x ∈ F := by
      intro x hx
      obtain ⟨i, hi, rfl⟩ := mem_blockFrames.1 hx
      have hm : g.base + 4096 * i ∈ covered segs := ⟨g, hg, by omega, by omega⟩
      rw [hcov] at hm
      obtain ⟨f', hf', hlo, hhi⟩ := hm
      have := (h.frame f' hf').aligned
      have : f' = f + 4096 * i := by omega
      exact this ▸ hf'
    have hperm := h.split hblock
    obtain ⟨F', hF'⟩ : ∃ F', F' = F.filter fun x => x ∉ blockFrames f n := ⟨_, rfl⟩
    rw [← hF'] at hperm
    have hmemF' : ∀ x, x ∈ F' ↔ x ∈ F ∧ x ∉ blockFrames f n := by
      intro x
      rw [hF']
      simp
    have hcov' : covered segs' = pages F' := by
      rw [hacc.covered_eq, hcov]
      ext a
      simp only [FreeList.covered_cons, FreeList.covered_nil, Set.union_empty, Set.mem_sdiff,
        Set.mem_Ico, hb]
      constructor
      · rintro ⟨⟨k, hk, ha⟩, hn'⟩
        refine ⟨k, (hmemF' k).2 ⟨hk, fun hkb => ?_⟩, ha⟩
        obtain ⟨i, hi, rfl⟩ := mem_blockFrames.1 hkb
        omega
      · rintro ⟨k, hk, ha⟩
        obtain ⟨hkF, hkb⟩ := (hmemF' k).1 hk
        refine ⟨⟨k, hkF, ha⟩, fun hin => hkb (mem_blockFrames.2 ⟨(k - f) / 4096, ?_, ?_⟩)⟩
        · have := (h.frame k hkF).aligned
          omega
        · have := (h.frame k hkF).aligned
          omega
    refine ⟨f, F', { s with list := l' }, hperm, ?_, ⟨⟨?_, ?_, segs', hacc.holds, hcov'⟩, rfl,
      ?_, fun k i hk h4 hi => hwords _ (not_mem_headers hk h4 hi)⟩, rfl⟩
    · have hph : kernelToPhysPtr g.base = f := by
        rw [hb]
        exact kernelToPhysPtr_eq (by have := hf.top; omega)
      simp [allocatePages, hmod, htake, hpos.ne', hph]
    · exact hF' ▸ h.nodup.filter _
    · exact fun k hk => h.frame k ((hmemF' k).1 hk).1
    · intro a ha
      exact hframe a (hcov' ▸ ha)

/-- **A request for one page** is refused when the pool is empty, and takes one frame out of it
otherwise. -/
theorem allocatePages_spec {s : State} {F : List Nat} (h : Pool s F) :
    (F = [] ∧ allocatePages 1 s = some (0, { s with refused := s.refused + 1 })) ∨
    ∃ f F' s', F.Perm (f :: F') ∧ allocatePages 1 s = some (f, s') ∧ Moved s s' F' ∧
      s'.refused = s.refused := by
  rcases allocatePages_many h (n := 1) (by omega) (by decide) with ⟨⟨segs, hh, hall⟩, hal⟩ | hsome
  · left
    refine ⟨?_, hal⟩
    have hsegs : segs = [] := by
      rw [List.eq_nil_iff_forall_not_mem]
      intro g hg
      have := hall g hg
      have := Nat.le_of_dvd (hh.fits g hg).size_pos (hh.fits g hg).granule
      omega
    obtain ⟨segs', hh', hcov⟩ := h.list
    rw [← hh.unique hh', hsegs] at hcov
    rw [List.eq_nil_iff_forall_not_mem]
    intro f hf
    have hm := mem_pages (i := 0) (by omega) hf
    rw [← hcov] at hm
    simp at hm
  · exact .inr hsome

/-- **Releasing pages in a row** puts their frames into the pool. -/
theorem freePages_many {s : State} {F : List Nat} {f n : Nat} (h : Pool s F) (hn : 0 < n)
    (hblock : ∀ x ∈ blockFrames f n, Frame x ∧ x ∉ F) :
    ∃ s', freePages f n s = some s' ∧ Moved s s' (blockFrames f n ++ F) ∧ s'.refused = s.refused := by
  obtain ⟨segs, hh, hcov⟩ := h.list
  obtain ⟨b, hbdef⟩ : ∃ b : Segment, b = ⟨highMemBase + f, n * 4096⟩ := ⟨_, rfl⟩
  have hbb : b.base = highMemBase + f := by rw [hbdef]
  have hbs : b.size = n * 4096 := by rw [hbdef]
  have hf : Frame f := (hblock f (mem_blockFrames.2 ⟨0, hn, rfl⟩)).1
  have hlast := (hblock (f + 4096 * (n - 1)) (mem_blockFrames.2 ⟨n - 1, by omega, rfl⟩)).1.top
  have hfits : b.Fits 4096 frameNodes := by
    refine ⟨⟨f, hf, hbb⟩, ?_, by omega, by rw [hbs]; exact Nat.dvd_mul_left _ _, ?_⟩
    · have := hf.pos
      omega
    · unfold highMemBase at hbb
      unfold wordSize
      omega
  have hap : ∀ g ∈ segs, b.Apart g := by
    intro g hg
    refine FreeList.apart_of_disjoint hfits.size_pos (hh.fits g hg).size_pos
      fun x h1 h2 h3 h4 => ?_
    have hm : x ∈ covered segs := ⟨g, hg, h3, h4⟩
    rw [hcov] at hm
    obtain ⟨k, hk, hlo, hhi⟩ := hm
    have := hf.aligned
    have := (h.frame k hk).aligned
    exact (hblock k (mem_blockFrames.2 ⟨(k - f) / 4096, by omega, by omega⟩)).2 hk
  obtain ⟨l', c', segs', hl', ⟨rfl, hwords⟩, hc'⟩ :=
    FreeList.markFree_spec (simulates_frames s.mem) (by omega) ⟨rfl, fun _ _ => rfl⟩ hh hfits hap
  have hcov' : covered segs' = pages (blockFrames f n ++ F) := by
    rw [hc'.covered_eq, hcov, hbb, hbs]
    ext a
    simp only [Set.mem_union, Set.mem_Ico, mem_pages_iff, List.mem_append]
    constructor
    · rintro (⟨k, hk, ha⟩ | ha)
      · exact ⟨k, .inr hk, ha⟩
      · refine ⟨f + 4096 * ((a - (highMemBase + f)) / 4096), .inl (mem_blockFrames.2 ⟨_, ?_, rfl⟩), ?_⟩
        · omega
        · omega
    · rintro ⟨k, hk | hk, ha⟩
      · obtain ⟨i, hi, rfl⟩ := mem_blockFrames.1 hk
        exact .inr ⟨by omega, by omega⟩
      · exact .inl ⟨k, hk, ha⟩
  refine ⟨{ s with list := l' }, ?_, ⟨⟨?_, ?_, segs', hc'.holds, hcov'⟩, rfl, ?_,
    fun k i hk h4 hi => hwords _ (not_mem_headers hk h4 hi)⟩, rfl⟩
  · have hmod : n * 4096 % wordSize = n * 4096 := Nat.mod_eq_of_lt (by unfold wordSize; omega)
    rw [hbb, hbs] at hl'
    simp [freePages, hmod, physToKernelPtr_eq (by omega : f < 2 ^ 39), hl']
  · refine List.nodup_append.2 ⟨blockFrames_nodup f n, h.nodup, fun x hx y hy hxy => ?_⟩
    exact (hblock x hx).2 (hxy ▸ hy)
  · intro k hk
    rcases List.mem_append.1 hk with hk | hk
    · exact (hblock k hk).1
    · exact h.frame k hk
  · intro a ha
    refine hc'.frame a ?_
    rw [← hc'.covered_eq, hcov']
    exact ha

/-- **Releasing a page** puts its frame into the pool. -/
theorem freePages_spec {s : State} {F : List Nat} {f : Nat} (h : Pool s F) (hf : Frame f)
    (hfF : f ∉ F) :
    ∃ s', freePages f 1 s = some s' ∧ Moved s s' (f :: F) ∧ s'.refused = s.refused :=
  freePages_many (n := 1) h Nat.one_pos fun x hx => by
    obtain rfl : x = f := List.mem_singleton.1 hx
    exact ⟨hf, hfF⟩

end ChenixOS.MemoryManager
