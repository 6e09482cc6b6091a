import ChenixOS.Exec.ELFLoading

/-!
# The image of a program

What an address space shows after `CheckAndPrepare`: the bytes of the segments in the order of the program headers,
the later ones over the earlier ones, and the 16 pages of the stack.

**Theorem (`prepareImage_spec`).** Of a file whose segments are disjoint and above the stack, each segment has its
bytes from the file and zeros behind them, and the stack is there.

**Theorem (`loadImage_keeps_iff`).** With a template for thread-local storage that may reach over other segments,
every `PT_LOAD` segment keeps its bytes exactly if those that come before the template have only zeros where its zeros
go.
-/

namespace ChenixOS.ELF.Exec

open MemoryManager

variable {s s' : State} {roots F F' G : List Nat} {e r f i k n x : Nat} {buffer : Buffer} {seg : ElfSegmentHeader}
  {ws : List (Nat × Option UInt8)}

/-! ## The stack -/

/-- The page tables with the first `k` pages of the stack. -/
def withStack (shape : Finset (List Nat)) (k : Nat) : Finset (List Nat) :=
  (List.range k).foldl (fun shape i => withPath shape (stackBase + i * 4096)) shape

/-- The frames of the stack from page `k` on. -/
def stackFrames (f k : Nat) : List Nat := (List.range' k (16 - k)).map fun i => f + i * 4096

/-- **The first `k` pages of the stack are mapped**, and the frames of the others are held. -/
structure StackMapped (s₀ s : State) (roots F G : List Nat) (r f k : Nat) : Prop where
  inv : Inv s roots G
  held : Distinct s.mem roots (stackFrames f k ++ G)
  frames : ∀ x ∈ stackFrames f k, Frame x
  count : G.length + (16 - k) + (treeShape s.mem r).card = F.length + (treeShape s₀.mem r).card
  shape : treeShape s.mem r = withStack (treeShape s₀.mem r) k
  mapped : ∀ i < k, frameOf s r (stackBase + i * 4096) = some (f + i * 4096)
  free : ∀ i, k ≤ i → i < 16 → frameOf s r (stackBase + i * 4096) = none
  bytes : ∀ x b, userByte s₀ r x = some b → userByte s r x = some b
  refused : s.refused = s₀.refused

theorem withStack_succ (shape : Finset (List Nat)) (k : Nat) :
    withStack shape (k + 1) = withPath (withStack shape k) (stackBase + k * 4096) := by
  simp only [withStack, List.range_succ, List.foldl_append, List.foldl_cons, List.foldl_nil]

theorem stackFrames_eq_cons (hk : k < 16) : stackFrames f k = (f + k * 4096) :: stackFrames f (k + 1) := by
  have hlen : 16 - k = 16 - (k + 1) + 1 := by omega
  rw [stackFrames, hlen, List.range'_succ, List.map_cons, stackFrames]

theorem pathOf_stack {j : Nat} (hi : i < 16) (hj : j < 16)
    (h : pathOf (stackBase + i * 4096) = pathOf (stackBase + j * 4096)) : i = j := by
  have hmod := pathOf_eq_iff_mod.1 h
  unfold stackBase at hmod
  omega

/-- A path of full height is there with its own page only. -/
theorem mem_withPath {shape : Finset (List Nat)} {q : List Nat} (hq : q.length = 3) (virt : Nat) :
    q ∈ withPath shape virt ↔ q = pathOf virt ∨ q ∈ shape := by
  have htwo : q ≠ [getPML3Index virt, getPML2Index virt] := fun h => by simp [h] at hq
  have hone : q ≠ [getPML3Index virt] := fun h => by simp [h] at hq
  simp only [withPath, withTables, Finset.mem_insert, htwo, hone, false_or]

theorem mem_withStack {shape : Finset (List Nat)} {q : List Nat} (hq : q.length = 3) :
    q ∈ withStack shape k ↔ q ∈ shape ∨ ∃ i < k, q = pathOf (stackBase + i * 4096) := by
  induction k with
  | zero => simp [withStack]
  | succ k ih =>
    rw [withStack_succ, mem_withPath hq, ih]
    constructor
    · rintro (h | h | ⟨i, hi, h⟩)
      · exact .inr ⟨k, Nat.lt_succ_self k, h⟩
      · exact .inl h
      · exact .inr ⟨i, Nat.lt_succ_of_lt hi, h⟩
    · rintro (h | ⟨i, hi, h⟩)
      · exact .inr (.inl h)
      · rcases Nat.lt_succ_iff_lt_or_eq.1 hi with hlt | rfl
        · exact .inr (.inr ⟨i, hlt, h⟩)
        · exact .inl h

theorem subset_withPath (shape : Finset (List Nat)) (virt : Nat) : shape ⊆ withPath shape virt := by
  rw [withPath, withTables]
  exact (Finset.subset_insert _ _).trans ((Finset.subset_insert _ _).trans (Finset.subset_insert _ _))

theorem subset_withStack (shape : Finset (List Nat)) (k : Nat) : shape ⊆ withStack shape k := by
  induction k with
  | zero => exact Finset.Subset.refl _
  | succ k ih =>
    rw [withStack_succ]
    exact ih.trans (subset_withPath _ _)

/-- Each page of the stack needs a frame of its own. -/
theorem card_withStack {shape : Finset (List Nat)} (hnone : ∀ i < 16, pathOf (stackBase + i * 4096) ∉ shape)
    (hkn : k ≤ n) (hn : n ≤ 16) : (withStack shape k).card + (n - k) ≤ (withStack shape n).card := by
  induction n with
  | zero =>
    obtain rfl : k = 0 := by omega
    exact le_rfl
  | succ n ih =>
    rcases Nat.eq_or_lt_of_le hkn with rfl | hlt
    · omega
    · have hprev := ih (by omega) (by omega)
      have hnew : pathOf (stackBase + n * 4096) ∉ withStack shape n := by
        rw [mem_withStack rfl, not_or]
        refine ⟨hnone n (by omega), ?_⟩
        rintro ⟨i, hi, h⟩
        have hin := pathOf_stack (by omega) (by omega) h
        omega
      have hcard : (withStack shape n).card + 1 ≤ (withPath (withStack shape n) (stackBase + n * 4096)).card := by
        rw [← Finset.card_insert_of_notMem hnew]
        refine Finset.card_le_card (Finset.insert_subset ?_ (subset_withPath _ _))
        exact (mem_withPath rfl _).2 (Or.inl rfl)
      rw [withStack_succ]
      omega

/-- **One page of the stack.** -/
theorem StackMapped.step {s₀ : State} (h : StackMapped s₀ s roots F G (pmlGetAddr e) f k) (hr : pmlGetAddr e ∈ roots)
    (hk : k < 16) (hroom : ¬ Short s₀ F (pmlGetAddr e) (withStack (treeShape s₀.mem (pmlGetAddr e)) 16))
    (hnone : ∀ i < 16, pathOf (stackBase + i * 4096) ∉ treeShape s₀.mem (pmlGetAddr e)) :
    ∃ s' G', mapProcessPageAt e ((f + k * 4096) % wordSize) (stackBase + k * 4096) s = some s' ∧
      StackMapped s₀ s' roots F G' (pmlGetAddr e) f (k + 1) := by
  have hf : Frame (f + k * 4096) := h.frames _ (by rw [stackFrames_eq_cons hk]; exact List.mem_cons_self)
  have hmod : (f + k * 4096) % wordSize = f + k * 4096 := by
    have htop := hf.top
    exact Nat.mod_eq_of_lt (by unfold wordSize; omega)
  have hroot := physToKernelPtr_root h.inv.toDistinct hr
  have hheld := h.held
  rw [stackFrames_eq_cons hk, List.cons_append] at hheld
  have hone : Distinct s.mem roots ((f + k * 4096) :: G) := by
    refine ⟨hheld.nodup.sublist ?_, hheld.frame⟩
    exact (List.Sublist.cons_cons _ (List.sublist_append_right _ _)).append_right _
  rw [hmod, mapProcessPageAt_eq, hroot]
  rcases mapAt_spec userEntry_names h.inv hr hone hf (h.free k le_rfl hk) with
    ⟨hshort, -⟩ | ⟨s', G', hrun, hinv, hgrew, hshape, hwalk, -⟩
  · -- the other pages need one frame each as well
    have hnew : pathOf (stackBase + k * 4096) ∉ treeShape s.mem (pmlGetAddr e) := by
      rw [mem_treeShape]
      rintro ⟨-, x, hx⟩
      have hfree := h.free k le_rfl hk
      rw [frameOf, hx] at hfree
      cases hfree
    have hcard : (withPath (treeShape s.mem (pmlGetAddr e)) (stackBase + k * 4096)).card =
        (withTables (treeShape s.mem (pmlGetAddr e)) (stackBase + k * 4096)).card + 1 := by
      rw [withPath, Finset.card_insert_of_notMem (pathOf_not_mem_withTables hnew)]
    have hrest := @card_withStack (k + 1) 16 _ hnone (by omega) le_rfl
    have hcount := h.count
    rw [withStack_succ, ← h.shape, hcard] at hrest
    unfold Short at hshort hroom
    omega
  · have hpath : ∀ i < 16, pathOf (stackBase + i * 4096) = pathOf (stackBase + k * 4096) → i = k :=
      fun i hi => pathOf_stack hi hk
    have hwalk' : ∀ x, frameOf s' (pmlGetAddr e) x =
        if pathOf x = pathOf (stackBase + k * 4096) then some (f + k * 4096) else frameOf s (pmlGetAddr e) x :=
      fun x => hwalk _ (pathOf_lt x) rfl
    refine ⟨s', G', hrun, hinv, ⟨?_, hinv.frame⟩, fun x hx => h.frames x ?_, ?_, ?_, fun i hi => ?_, fun i hki hi => ?_,
      fun x b hx => ?_, hgrew.refused.trans h.refused⟩
    · have hperm : (stackFrames f (k + 1) ++ G' ++ refs s'.mem roots).Perm
          ((f + k * 4096) :: (stackFrames f (k + 1) ++ G) ++ refs s.mem roots) := by
        rw [List.append_assoc]
        refine (hgrew.perm.append_left _).trans ?_
        rw [List.cons_append, List.cons_append, List.append_assoc]
        exact List.perm_middle
      exact hperm.nodup_iff.2 hheld.nodup
    · rw [stackFrames_eq_cons hk]
      exact List.mem_cons_of_mem _ hx
    · have hcount := hgrew.count
      have hbefore := h.count
      rw [List.length_cons] at hcount
      omega
    · rw [hshape, h.shape, withStack_succ]
    · rw [hwalk']
      by_cases heq : i = k
      · rw [heq, if_pos rfl]
      · rw [if_neg fun hp => heq (hpath i (by omega) hp)]
        exact h.mapped i (by omega)
    · rw [hwalk', if_neg fun hp => by have heq := hpath i hi hp; omega]
      exact h.free i (by omega) hi
    · have hbefore := h.bytes x b hx
      obtain ⟨g, hg, hb⟩ := Option.map_eq_some_iff.1 hbefore
      have hgr := frameOf_mem_refs hr hg
      have hgG : g ∉ (f + k * 4096) :: G := hone.not_mem_free hgr
      have hg' : frameOf s' (pmlGetAddr e) x = some g := by
        rw [hwalk', if_neg, hg]
        intro hp
        have hfree := h.free k le_rfl hk
        rw [frameOf, ← hp, ← frameOf, hg] at hfree
        cases hfree
      have hsame : SameFrame s s' g := hgrew.other g (h.inv.frame g hgr) hgG
        (h.inv.toDistinct.page_not_mem_tables hr hr hg (pathOf_lt x) rfl)
      rw [userByte, hg', Option.map_some, hsame.byteAt (h.inv.frame g hgr) (Nat.mod_lt _ (by decide)), hb]

theorem stackFrames_zero (f : Nat) : stackFrames f 0 = blockFrames f 16 := by
  rw [stackFrames, blockFrames, Nat.sub_zero, ← List.range_eq_range']
  exact List.map_congr_left fun i _ => by rw [Nat.mul_comm]

/-- The frames of the stack are taken. -/
theorem StackMapped.start {s₁ : State} (h : Inv s roots F) (hr : r ∈ roots)
    (hnone : ∀ i < 16, pathOf (stackBase + i * 4096) ∉ treeShape s.mem r) (hperm : F.Perm (blockFrames f 16 ++ G))
    (hmoved : Moved s s₁ G) (hrefused : s₁.refused = s.refused) : StackMapped s s₁ roots F G r f 0 := by
  have hGF : ∀ x ∈ G, x ∈ F := fun x hx => hperm.mem_iff.2 (List.mem_append_right _ hx)
  have hsame : ∀ x ∈ refs s.mem roots, SameFrame s s₁ x := fun x hx j hj =>
    hmoved.frame _ (not_mem_pages (h.frame x hx) hj hmoved.pool.frame fun hG => h.not_mem_free hx (hGF x hG))
  have htables : ∀ r ∈ roots, ∀ x ∈ treeTables s.mem r, SameFrame s s₁ x := fun r hr x hx => hsame x (tables_mem hr hx)
  have hrefs : refs s₁.mem roots = refs s.mem roots := refs_congr htables
  have hframe : ∀ x, frameOf s₁ r x = frameOf s r x := fun x =>
    SameTables.frameOf_eq (fun r hr y hy j hj => htables r hr y hy j hj) hr x
  have hnodup : (blockFrames f 16 ++ G ++ refs s.mem roots).Nodup := (hperm.append_right _).nodup_iff.1 h.nodup
  have hlen := hperm.length_eq
  rw [List.length_append, length_blockFrames] at hlen
  refine ⟨⟨⟨?_, ?_⟩, hmoved.pool⟩, ⟨?_, ?_⟩, fun x hx => ?_, ?_, ?_, fun i hi => by omega, fun i _ hi => ?_,
    fun x b hx => ?_, hrefused⟩
  · rw [hrefs]
    exact hnodup.sublist ((List.sublist_append_right _ _).append_right _)
  · rw [hrefs]
    exact h.frame
  · rw [hrefs, stackFrames_zero]
    exact hnodup
  · rw [hrefs]
    exact h.frame
  · rw [stackFrames_zero] at hx
    exact h.pool.frame x (hperm.mem_iff.2 (List.mem_append_left _ hx))
  · rw [treeShape_congr (htables r hr), hlen]
    omega
  · rw [treeShape_congr (htables r hr), withStack, List.range_zero, List.foldl_nil]
  · rw [hframe, frameOf, Option.eq_none_iff_forall_ne_some]
    intro x hx
    refine hnone i hi ?_
    rw [mem_treeShape]
    exact ⟨⟨by simp [pathOf], by simp [pathOf], pathOf_lt _⟩, x, hx⟩
  · obtain ⟨g, hg, hb⟩ := Option.map_eq_some_iff.1 hx
    have hgr := frameOf_mem_refs hr hg
    rw [userByte, hframe, hg, Option.map_some, (hsame g hgr).byteAt (h.frame g hgr) (Nat.mod_lt _ (by decide)), hb]

/-- **The stack is mapped** if its pages are granted and there are frames for the tables above them. -/
theorem mapStack_spec (h : Inv s roots F) (hr : pmlGetAddr e ∈ roots)
    (hnone : ∀ i < 16, pathOf (stackBase + i * 4096) ∉ treeShape s.mem (pmlGetAddr e))
    (hroom : ¬ Short s F (pmlGetAddr e) (withStack (treeShape s.mem (pmlGetAddr e)) 16))
    (hgranted : ∀ p s', allocatePages 16 s = some (p, s') → p ≠ 0) :
    ∃ f s' F', mapStack e s = some (f, s') ∧ StackMapped s s' roots F F' (pmlGetAddr e) f 16 := by
  rcases allocatePages_many h.pool (n := 16) (by decide) (by decide) with
    ⟨-, hal⟩ | ⟨f, G, s₁, hperm, hal, hmoved, hrefused⟩
  · exact absurd rfl (hgranted _ _ hal)
  · have hloop : ∀ k ≤ 16, ∃ s' G', (List.range k).foldlM (fun s i =>
        mapProcessPageAt e ((f + i * 4096) % wordSize) (stackBase + i * 4096) s) s₁ = some s' ∧
        StackMapped s s' roots F G' (pmlGetAddr e) f k := by
      intro k hk
      induction k with
      | zero => exact ⟨s₁, G, rfl, StackMapped.start h hr hnone hperm hmoved hrefused⟩
      | succ k ih =>
        obtain ⟨s₂, G₂, hrun, hmapped⟩ := ih (by omega)
        obtain ⟨s₃, G₃, hstep, hmapped'⟩ := hmapped.step hr (by omega) hroom hnone
        refine ⟨s₃, G₃, ?_, hmapped'⟩
        rw [List.range_succ, List.foldlM_append, hrun]
        simp only [Option.bind_eq_bind, Option.bind_some, List.foldlM_cons, List.foldlM_nil, hstep]
        rfl
    obtain ⟨s', G', hrun, hmapped⟩ := hloop 16 le_rfl
    refine ⟨f, s', G', ?_, hmapped⟩
    rw [mapStack, hal]
    simp only [Option.bind_eq_bind, Option.bind_some, hrun]

/-! ## One segment over the others -/

/-- The segments that are loaded, in the order of their headers. -/
def loadedSegments (file : Nat → UInt8) : List ElfSegmentHeader := (segments file).filter fun seg => isLoaded seg.type

/-- Segments over what is known, the later ones over the earlier ones. -/
def overlay (file : Nat → UInt8) (segs : List ElfSegmentHeader) (M : Nat → Option UInt8) : Nat → Option UInt8 :=
  segs.foldl (fun M seg x => if seg.Covers x then some (seg.content file x) else M x) M

theorem overlay_append (file : Nat → UInt8) (segs segs' : List ElfSegmentHeader) (M : Nat → Option UInt8) :
    overlay file (segs ++ segs') M = overlay file segs' (overlay file segs M) := List.foldl_append

theorem overlay_cons (file : Nat → UInt8) (seg : ElfSegmentHeader) (segs : List ElfSegmentHeader)
    (M : Nat → Option UInt8) : overlay file (seg :: segs) M = overlay file segs (overlay file [seg] M) :=
  overlay_append file [seg] segs M

theorem overlay_of_not_covers {file : Nat → UInt8} {segs : List ElfSegmentHeader} {M : Nat → Option UInt8}
    (hx : ∀ seg ∈ segs, ¬ seg.Covers x) : overlay file segs M x = M x := by
  induction segs generalizing M with
  | nil => rfl
  | cons seg segs ih =>
    rw [overlay, List.foldl_cons, ← overlay, ih fun t ht => hx t (List.mem_cons_of_mem _ ht),
      if_neg (hx seg List.mem_cons_self)]

/-- **The last segment that covers an address.** -/
theorem overlay_last {file : Nat → UInt8} {pre post : List ElfSegmentHeader} {M : Nat → Option UInt8}
    (hseg : seg.Covers x) (hpost : ∀ t ∈ post, ¬ t.Covers x) :
    overlay file (pre ++ seg :: post) M x = some (seg.content file x) := by
  rw [overlay_append, overlay, List.foldl_cons, ← overlay, overlay_of_not_covers hpost, if_pos hseg]

/-- The addresses of a segment are those of user space. -/
def InUserSpace (seg : ElfSegmentHeader) : Prop := seg.virtualAddress + seg.extent ≤ 2 ^ 39

/-- **What the writes of a segment make known.** -/
theorem segmentWrites_put (hfile : FileBacked buffer seg) (huser : InUserSpace seg) (M : Nat → Option UInt8) :
    (segmentWrites buffer seg).foldl put M = overlay buffer.bytes [seg] M := by
  have hloop : ∀ n ≤ seg.extent, ((List.range n).map fun i => ((seg.virtualAddress + i) % wordSize,
      if i < seg.dataSize then buffer.byte ((seg.dataOffset + i) % wordSize) else some 0)).foldl put M =
      fun x =>
        if seg.virtualAddress ≤ x ∧ x < seg.virtualAddress + n then some (seg.content buffer.bytes x) else M x := by
    intro n hn
    induction n with
    | zero =>
      funext x
      rw [if_neg (by omega)]
      rfl
    | succ n ih =>
      have haddr : (seg.virtualAddress + n) % wordSize % 2 ^ 39 = seg.virtualAddress + n := by
        have hlt : seg.virtualAddress + n < 2 ^ 39 := Nat.lt_of_lt_of_le (by omega) huser
        rw [Nat.mod_eq_of_lt (Nat.lt_trans hlt (by decide)), Nat.mod_eq_of_lt hlt]
      have hvalue : (if n < seg.dataSize then buffer.byte ((seg.dataOffset + n) % wordSize) else some 0) =
          some (seg.content buffer.bytes (seg.virtualAddress + n)) := by
        rw [ElfSegmentHeader.content, Nat.add_sub_cancel_left]
        by_cases hdata : n < seg.dataSize
        · rw [if_pos hdata, if_pos hdata, ElfSegmentHeader.data, Buffer.byte, if_pos (hfile n hdata)]
        · rw [if_neg hdata, if_neg hdata]
      rw [List.range_succ, List.map_append, List.foldl_append, ih (by omega)]
      simp only [List.map_cons, List.map_nil, List.foldl_cons, List.foldl_nil, put]
      rw [haddr, hvalue]
      funext x
      by_cases hx : x = seg.virtualAddress + n
      · subst hx
        rw [Function.update_self, if_pos (by omega)]
      · rw [Function.update_of_ne hx]
        exact if_congr (by omega) rfl rfl
  rw [segmentWrites, hloop _ le_rfl]
  rfl

/-- What the loop over the headers makes known. -/
theorem imageWrites_put {is : List Nat} (hok : ∀ i ∈ is, SegmentOk buffer i)
    (huser : ∀ i ∈ is, isLoaded (segment buffer.bytes i).type → InUserSpace (segment buffer.bytes i))
    (M : Nat → Option UInt8) : (imageWrites buffer is).foldl put M =
      overlay buffer.bytes ((is.map (segment buffer.bytes)).filter fun seg => isLoaded seg.type) M := by
  induction is generalizing M with
  | nil => rfl
  | cons i is ih =>
    have hrest := ih (fun j hj => hok j (List.mem_cons_of_mem _ hj)) fun j hj => huser j (List.mem_cons_of_mem _ hj)
    rw [imageWrites, List.flatMap_cons, ← imageWrites, List.foldl_append, hrest, List.map_cons]
    by_cases hloaded : isLoaded (segment buffer.bytes i).type
    · rw [if_pos hloaded, List.filter_cons_of_pos (by simpa using hloaded),
        segmentWrites_put ((hok i List.mem_cons_self).2 hloaded).1 (huser i List.mem_cons_self hloaded)]
      exact (overlay_cons _ _ _ _).symm
    · rw [if_neg hloaded, List.filter_cons_of_neg (by simpa using hloaded), List.foldl_nil]

/-! ## Files of user programs -/

/-- **The file of a user program**: its segments are in the file, above the stack, and have no address in common. -/
structure UserImage (buffer : Buffer) : Prop where
  magic : checkMagic buffer 0 magic = some true
  size : buffer.bufferSize < wordSize
  header : headerSizeof ≤ buffer.bufferSize
  headers : ∀ i < phEntryCount buffer.bytes, segmentAt buffer.bytes i + segmentSizeof ≤ buffer.bufferSize
  inFile : ∀ seg ∈ loadedSegments buffer.bytes, seg.dataOffset + seg.dataSize ≤ buffer.bufferSize
  sizes : ∀ seg ∈ loadedSegments buffer.bytes, seg.dataSize ≤ seg.virtualSize
  user : ∀ seg ∈ loadedSegments buffer.bytes, 0x11000 ≤ seg.virtualAddress ∧
    seg.virtualAddress + seg.virtualSize ≤ 2 ^ 39
  disjoint : (loadedSegments buffer.bytes).Pairwise fun s t => ∀ x, s.Covers x → ¬ t.Covers x

theorem mem_loadedSegments {file : Nat → UInt8} (hi : i < phEntryCount file)
    (hloaded : isLoaded (segment file i).type) : segment file i ∈ loadedSegments file :=
  List.mem_filter.2 ⟨List.mem_map.2 ⟨i, List.mem_range.2 hi, rfl⟩, by simpa using hloaded⟩

theorem UserImage.extent (h : UserImage buffer) (hseg : seg ∈ loadedSegments buffer.bytes) :
    seg.extent = seg.virtualSize := Nat.max_eq_right (h.sizes seg hseg)

theorem UserImage.segmentOk (h : UserImage buffer) (hi : i < phEntryCount buffer.bytes) : SegmentOk buffer i := by
  have hheader := h.headers i hi
  have hsize := h.size
  unfold segmentSizeof at hheader
  refine And.intro (And.intro (by omega) fun _ => by omega) fun hloaded => ?_
  have hseg := mem_loadedSegments hi hloaded
  refine ⟨fun k hk => ?_, fun _ => ?_⟩
  · have hfile := h.inFile _ hseg
    rw [Nat.mod_eq_of_lt (by omega)]
    omega
  · have huser := (h.user _ hseg).1
    omega

theorem UserImage.fileOk (h : UserImage buffer) : FileOk buffer := by
  have hheader := h.header
  unfold headerSizeof at hheader
  exact Or.inr ⟨h.magic, by omega, fun i hi => h.segmentOk hi⟩

theorem UserImage.inUserSpace (h : UserImage buffer) (hseg : seg ∈ loadedSegments buffer.bytes) : InUserSpace seg := by
  rw [InUserSpace, h.extent hseg]
  exact (h.user seg hseg).2

theorem mem_withWrites {shape : Finset (List Nat)} {q : List Nat} (hq : q.length = 3) :
    q ∈ withWrites shape ws ↔ q ∈ shape ∨ ∃ w ∈ ws, q = pathOf w.1 := by
  induction ws generalizing shape with
  | nil => simp [withWrites]
  | cons w ws ih =>
    rw [withWrites_cons, ih, mem_withPath hq]
    simp only [List.exists_mem_cons_iff]
    constructor
    · rintro ((h | h) | h)
      · exact .inr (.inl h)
      · exact .inl h
      · exact .inr (.inr h)
    · rintro (h | h | h)
      · exact .inl (.inr h)
      · exact .inl (.inl h)
      · exact .inr h

/-- The stack is below all segments. -/
theorem UserImage.pathOf_stack (h : UserImage buffer) (hi : i < 16) :
    pathOf (stackBase + i * 4096) ∉ withWrites ∅ (fileWrites buffer) := by
  rw [mem_withWrites rfl]
  rintro (hempty | ⟨w, hw, heq⟩)
  · exact absurd hempty (Finset.notMem_empty _)
  · rw [fileWrites, if_pos h.magic, imageWrites, List.mem_flatMap] at hw
    obtain ⟨k, hk, hw⟩ := hw
    split at hw
    · rename_i hloaded
      have hseg := mem_loadedSegments (List.mem_range.1 hk) hloaded
      obtain ⟨j, hj, rfl⟩ := List.mem_map.1 hw
      have hlo := (h.user _ hseg).1
      have hhi := (h.user _ hseg).2
      have hj := List.mem_range.1 hj
      rw [h.extent hseg] at hj
      have hmod := pathOf_eq_iff_mod.1 heq
      have haddr : ((segment buffer.bytes k).virtualAddress + j) % wordSize =
          (segment buffer.bytes k).virtualAddress + j :=
        Nat.mod_eq_of_lt (Nat.lt_trans (Nat.lt_of_lt_of_le (Nat.add_lt_add_left hj _) hhi) (by decide))
      dsimp only at hmod
      rw [haddr] at hmod
      unfold stackBase at hmod
      omega
    · cases hw

/-- What is known after all segments. -/
theorem UserImage.put_eq (h : UserImage buffer) (M : Nat → Option UInt8) :
    (fileWrites buffer).foldl put M = overlay buffer.bytes (loadedSegments buffer.bytes) M := by
  rw [fileWrites, if_pos h.magic, imageWrites_put (fun i hi => h.segmentOk (List.mem_range.1 hi))
    fun i hi hloaded => h.inUserSpace (mem_loadedSegments (List.mem_range.1 hi) hloaded)]
  rfl

/-- **Disjoint segments all show.** -/
theorem UserImage.overlay_eq (h : UserImage buffer) (hseg : seg ∈ loadedSegments buffer.bytes) (hx : seg.Covers x)
    (M : Nat → Option UInt8) :
    overlay buffer.bytes (loadedSegments buffer.bytes) M x = some (seg.content buffer.bytes x) := by
  obtain ⟨pre, post, hsegs⟩ := List.append_of_mem hseg
  have hdisjoint := h.disjoint
  rw [hsegs] at hdisjoint ⊢
  exact overlay_last hx fun t ht => (List.pairwise_cons.1 (List.pairwise_append.1 hdisjoint).2.1).1 t ht x hx

/-- **The loader comes to the end**: it survives the file, no segment is on a page of the stack, and there is memory for
the stack. -/
structure Startable (buffer : Buffer) (e : Nat) (s : State) (F : List Nat) : Prop where
  magic : checkMagic buffer 0 magic = some true
  ok : FileOk buffer
  free : ∀ i < 16, pathOf (stackBase + i * 4096) ∉ withWrites (treeShape s.mem (pmlGetAddr e)) (fileWrites buffer)
  room : ¬ Short s F (pmlGetAddr e)
    (withStack (withWrites (treeShape s.mem (pmlGetAddr e)) (fileWrites buffer)) 16)
  granted : ∀ progInfo s₁, loadImage buffer e s = some (progInfo, s₁) →
    ∀ p s₂, allocatePages 16 s₁ = some (p, s₂) → p ≠ 0

/-- The image of a program. -/
def imageOf (buffer : Buffer) (physStack : Nat) : Image where
  progInfo := tlsInfo buffer (List.range (phEntryCount buffer.bytes)) ELFProgramInfo.zero
  entryPoint := entryPoint buffer.bytes
  physStack := physStack

/-- **The segments and the stack.** -/
theorem prepareImage_mapped (h : Inv s roots F) (hr : pmlGetAddr e ∈ roots) (hs : Startable buffer e s F) :
    ∃ f s₁ F₁ s₂ F₂, prepareImage buffer e s = some (some (imageOf buffer f), s₂) ∧
      Written s s₁ roots F F₁ (pmlGetAddr e) (fileWrites buffer) ∧
      StackMapped s₁ s₂ roots F₁ F₂ (pmlGetAddr e) f 16 := by
  have henough : ¬ Short s F (pmlGetAddr e) (withWrites (treeShape s.mem (pmlGetAddr e)) (fileWrites buffer)) :=
    fun hshort => hs.room (hshort.mono (subset_withStack _ _))
  obtain ⟨progInfo, s₁, hrun, -, rfl, F₁, hwritten⟩ := (loadImage_does h hr buffer).iff.2 ⟨hs.ok, henough⟩
  have hroom : ¬ Short s₁ F₁ (pmlGetAddr e) (withStack (treeShape s₁.mem (pmlGetAddr e)) 16) := by
    rw [hwritten.confined.short_iff, hwritten.shape]
    exact hs.room
  obtain ⟨f, s₂, F₂, hstack, hmapped⟩ :=
    mapStack_spec hwritten.inv hr (by rw [hwritten.shape]; exact hs.free) hroom (hs.granted _ _ hrun)
  have hinfo : fileInfo buffer = some (tlsInfo buffer (List.range (phEntryCount buffer.bytes)) ELFProgramInfo.zero) :=
    if_pos hs.magic
  have hsize : 58 ≤ buffer.bufferSize := by
    rcases hs.ok with hno | ⟨-, hsize, -⟩
    · rw [hs.magic] at hno
      cases hno
    · exact hsize
  have hentry : buffer.word 8 24 = some (entryPoint buffer.bytes) := if_pos (by omega)
  refine ⟨f, s₁, F₁, s₂, F₂, ?_, hwritten, hmapped⟩
  rw [prepareImage, hrun, hinfo]
  simp only [Option.bind_eq_bind, Option.bind_some, hentry, hstack]
  rfl

/-- **The address space of a user program.** -/
theorem prepareImage_spec (h : Inv s roots F) (hr : pmlGetAddr e ∈ roots)
    (hnew : treeShape s.mem (pmlGetAddr e) = ∅) (hfile : UserImage buffer)
    (hroom : ¬ Short s F (pmlGetAddr e) (withStack (withWrites ∅ (fileWrites buffer)) 16))
    (hgranted : ∀ progInfo s₁, loadImage buffer e s = some (progInfo, s₁) →
      ∀ p s₂, allocatePages 16 s₁ = some (p, s₂) → p ≠ 0) :
    ∃ image s', prepareImage buffer e s = some (some image, s') ∧ image.entryPoint = entryPoint buffer.bytes ∧
      (∀ seg ∈ loadedSegments buffer.bytes, ∀ i < seg.virtualSize,
        userByte s' (pmlGetAddr e) (seg.virtualAddress + i) =
          some (if i < seg.dataSize then buffer.bytes (seg.dataOffset + i) else 0)) ∧
      ∀ i < 16, frameOf s' (pmlGetAddr e) (0x1000 + i * 4096) = some (image.physStack + i * 4096) := by
  have hs : Startable buffer e s F := by
    refine ⟨hfile.magic, hfile.fileOk, fun i hi => ?_, ?_, hgranted⟩
    · rw [hnew]
      exact hfile.pathOf_stack hi
    · rw [hnew]
      exact hroom
  obtain ⟨f, s₁, F₁, s₂, F₂, hrun, hwritten, hmapped⟩ := prepareImage_mapped h hr hs
  refine ⟨imageOf buffer f, s₂, hrun, rfl, fun seg hseg i hi => ?_, fun i hi => hmapped.mapped i hi⟩
  have hcovers : seg.Covers (seg.virtualAddress + i) := by
    rw [ElfSegmentHeader.Covers, hfile.extent hseg]
    omega
  have huser := (hfile.user seg hseg).2
  have hmod : (seg.virtualAddress + i) % 2 ^ 39 = seg.virtualAddress + i := Nat.mod_eq_of_lt (by omega)
  have hshows := hwritten.shows (fun _ => none) (fun _ _ hx => by cases hx) (seg.virtualAddress + i)
    (seg.content buffer.bytes (seg.virtualAddress + i))
  rw [hmod, hfile.put_eq, hfile.overlay_eq hseg hcovers] at hshows
  rw [hmapped.bytes _ _ (hshows rfl), ElfSegmentHeader.content, Nat.add_sub_cancel_left]
  by_cases hdata : i < seg.dataSize
  · have hsize := hfile.size
    have hinFile := hfile.inFile seg hseg
    rw [if_pos hdata, if_pos hdata, ElfSegmentHeader.data, Nat.mod_eq_of_lt (by omega)]
  · rw [if_neg hdata, if_neg hdata]

example : userFile.bytes 0 = 0x7F := by decide +kernel

theorem loadedSegments_userFile : loadedSegments userFile.bytes =
    [⟨PT_LOAD, 176, 0x11000, 4, 16⟩, ⟨PT_TLS, 180, 0x11010, 4, 8⟩] := by decide +kernel

theorem userImage_userFile : UserImage userFile where
  magic := by decide +kernel
  size := by decide
  header := by decide
  headers := by decide +kernel
  inFile := by decide +kernel
  sizes := by decide +kernel
  user := by decide +kernel
  disjoint := by
    rw [loadedSegments_userFile]
    simp only [List.pairwise_cons, List.mem_singleton, forall_eq, List.not_mem_nil, false_implies, implies_true,
      List.Pairwise.nil, and_true]
    rintro x ⟨-, hx⟩ ⟨hlow, -⟩
    exact absurd (Nat.lt_of_le_of_lt hlow hx) (by decide)

example : (loadedSegments userFile.bytes).length = 2 := by decide +kernel

/-- The pages of the stack are granted. -/
theorem granted_userFile {e : Nat} (hcreate : createProcessMap (boot 25 fun _ => 0) = some (e, s))
    (progInfo : Option ELFProgramInfo) (s₁ : State) (hrun : loadImage userFile e s = some (progInfo, s₁)) (p : Nat)
    (s₂ : State) (hal : allocatePages 16 s₁ = some (p, s₂)) : p ≠ 0 := by
  have hall : ((createProcessMap (boot 25 fun _ => 0)).all fun r =>
      (loadImage userFile r.1 r.2).all fun r => (allocatePages 16 r.2).all fun r => r.1 != 0) = true := by
    decide +kernel
  rw [hcreate, Option.all_some, hrun, Option.all_some, hal, Option.all_some] at hall
  simpa using hall

theorem room_userFile {e : Nat} {F : List Nat} (hempty : treeShape s.mem (pmlGetAddr e) = ∅) (hlen : F.length = 24) :
    ¬ Short s F (pmlGetAddr e) (withStack (withWrites ∅ (fileWrites userFile)) 16) := by
  have hcard : (withStack (withWrites ∅ (fileWrites userFile)) 16).card ≤ 24 := by decide +kernel
  rw [Short, hempty]
  omega

theorem startable_userFile : ∃ e s F, createProcessMap (boot 25 fun _ => 0) = some (e, s) ∧ Inv s [pmlGetAddr e] F ∧
    Startable userFile e s F := by
  obtain ⟨e, s, F, hcreate, hinv, hlen, hempty⟩ := boot_create (n := 24) (by decide) fun _ => 0
  refine ⟨e, s, F, hcreate, hinv, userImage_userFile.magic, userImage_userFile.fileOk, fun i hi => ?_, ?_,
    granted_userFile hcreate⟩
  · rw [hempty]
    exact userImage_userFile.pathOf_stack hi
  · rw [hempty]
    exact room_userFile hempty hlen

theorem prepareImage_userFile : ∃ e s image s', createProcessMap (boot 25 fun _ => 0) = some (e, s) ∧
    prepareImage userFile e s = some (some image, s') ∧
    userByte s' (pmlGetAddr e) 0x11003 = some 4 ∧ userByte s' (pmlGetAddr e) 0x11004 = some 0 ∧
    userByte s' (pmlGetAddr e) 0x11010 = some 5 ∧
    frameOf s' (pmlGetAddr e) 0x1000 = some image.physStack := by
  obtain ⟨e, s, F, hcreate, hinv, hlen, hempty⟩ := boot_create (n := 24) (by decide) fun _ => 0
  obtain ⟨image, s', hrun, -, hbytes, hstack⟩ := prepareImage_spec hinv List.mem_cons_self hempty userImage_userFile
    (room_userFile hempty hlen) (granted_userFile hcreate)
  rw [loadedSegments_userFile] at hbytes
  refine ⟨e, s, image, s', hcreate, hrun, (hbytes _ List.mem_cons_self 3 (by decide)).trans ?_,
    (hbytes _ List.mem_cons_self 4 (by decide)).trans ?_,
    (hbytes _ (List.mem_cons_of_mem _ List.mem_cons_self) 0 (by decide)).trans ?_, hstack 0 (by decide)⟩
  all_goals decide +kernel

/-! ## A template for thread-local storage -/

/-- What the header of one loaded segment does to `progInfo`. -/
def noteSegment (info : ELFProgramInfo) (seg : ElfSegmentHeader) : ELFProgramInfo :=
  if seg.type = PT_TLS then
    { info with masterTLSAddress := seg.virtualAddress, masterTLSSize := seg.virtualSize }
  else info

theorem tlsInfo_eq (is : List Nat) (info : ELFProgramInfo) : tlsInfo buffer is info =
    ((is.map (segment buffer.bytes)).filter fun seg => isLoaded seg.type).foldl noteSegment info := by
  induction is generalizing info with
  | nil => rfl
  | cons i is ih =>
    have hfirst : tlsInfo buffer (i :: is) info = tlsInfo buffer is (noteSegment info (segment buffer.bytes i)) := rfl
    rw [hfirst, ih, List.map_cons]
    by_cases hloaded : isLoaded (segment buffer.bytes i).type
    · rw [List.filter_cons_of_pos (by simpa using hloaded), List.foldl_cons]
    · rw [List.filter_cons_of_neg (by simpa using hloaded), noteSegment, if_neg fun htls => hloaded (Or.inr htls)]

theorem noteSegment_loads {segs : List ElfSegmentHeader} (h : ∀ seg ∈ segs, seg.type = PT_LOAD)
    (info : ELFProgramInfo) : segs.foldl noteSegment info = info := by
  induction segs with
  | nil => rfl
  | cons seg segs ih =>
    have htype : seg.type ≠ PT_TLS := by
      rw [h seg List.mem_cons_self]
      decide
    rw [List.foldl_cons, noteSegment, if_neg htype]
    exact ih fun t ht => h t (List.mem_cons_of_mem _ ht)

/-- Where segments overlap, one of them is the last. -/
theorem overlay_covered (file : Nat → UInt8) {segs : List ElfSegmentHeader} (hseg : seg ∈ segs) (hx : seg.Covers x)
    (M : Nat → Option UInt8) : ∃ t ∈ segs, t.Covers x ∧ overlay file segs M x = some (t.content file x) := by
  induction segs generalizing seg M with
  | nil => cases hseg
  | cons t segs ih =>
    rw [overlay_cons]
    by_cases hrest : ∃ u ∈ segs, u.Covers x
    · obtain ⟨u, hu, hux⟩ := hrest
      obtain ⟨v, hv, hvx, heq⟩ := ih hu hux (overlay file [t] M)
      exact ⟨v, List.mem_cons_of_mem _ hv, hvx, heq⟩
    · have hnone : ∀ u ∈ segs, ¬ u.Covers x := fun u hu hux => hrest ⟨u, hu, hux⟩
      have ht : t.Covers x := by
        rcases List.mem_cons.1 hseg with rfl | hmem
        · exact hx
        · exact absurd hx (hnone seg hmem)
      refine ⟨t, List.mem_cons_self, ht, ?_⟩
      rw [overlay_of_not_covers hnone, overlay, List.foldl_cons, List.foldl_nil, if_pos ht]

/-- Segments that have an address in common have the same byte for it. -/
def Agree (file : Nat → UInt8) (segs : List ElfSegmentHeader) : Prop :=
  ∀ s ∈ segs, ∀ t ∈ segs, ∀ x, s.Covers x → t.Covers x → s.content file x = t.content file x

/-- **A file with a template for thread-local storage**, whose bytes are those of `PT_LOAD` segments. `pre` and `post`
are the segments before and after it in the order of the headers. -/
structure TLSImage (buffer : Buffer) (pre : List ElfSegmentHeader) (tls : ElfSegmentHeader)
    (post : List ElfSegmentHeader) : Prop where
  magic : checkMagic buffer 0 magic = some true
  ok : FileOk buffer
  segments : loadedSegments buffer.bytes = pre ++ tls :: post
  type : tls.type = PT_TLS
  loads : ∀ seg ∈ pre ++ post, seg.type = PT_LOAD
  user : ∀ seg ∈ pre ++ tls :: post, InUserSpace seg
  template : ∀ x, tls.virtualAddress ≤ x → x < tls.virtualAddress + tls.dataSize →
    ∃ seg ∈ pre ++ post, seg.Covers x ∧ seg.content buffer.bytes x = tls.content buffer.bytes x

section TLS

variable {pre post : List ElfSegmentHeader} {tls : ElfSegmentHeader}

/-- The address space after all segments. -/
theorem TLSImage.run (hfile : TLSImage buffer pre tls post) (h : Inv s roots F) (hr : pmlGetAddr e ∈ roots)
    (hroom : ¬ Short s F (pmlGetAddr e) (withWrites (treeShape s.mem (pmlGetAddr e)) (fileWrites buffer))) :
    ∃ s', loadImage buffer e s = some (some ⟨tls.virtualAddress, tls.virtualSize, 0, 0, 0⟩, s') ∧
      ∀ seg ∈ pre ++ tls :: post, ∀ x, seg.Covers x →
        userByte s' (pmlGetAddr e) x = overlay buffer.bytes (pre ++ tls :: post) (fun _ => none) x := by
  obtain ⟨progInfo, s', hrun, -, rfl, F', hwritten⟩ := (loadImage_does h hr buffer).iff.2 ⟨hfile.ok, hroom⟩
  have hok : ∀ i ∈ List.range (phEntryCount buffer.bytes), SegmentOk buffer i := fun i hi => by
    rcases hfile.ok with hno | ⟨-, -, hall⟩
    · rw [hfile.magic] at hno
      cases hno
    · exact hall i (List.mem_range.1 hi)
  have huser : ∀ i ∈ List.range (phEntryCount buffer.bytes), isLoaded (segment buffer.bytes i).type →
      InUserSpace (segment buffer.bytes i) := fun i hi hloaded => by
    refine hfile.user _ ?_
    rw [← hfile.segments]
    exact mem_loadedSegments (List.mem_range.1 hi) hloaded
  have hput := imageWrites_put hok huser fun _ => none
  have hnote := @tlsInfo_eq buffer (List.range (phEntryCount buffer.bytes)) ELFProgramInfo.zero
  have hsegs : ((List.range (phEntryCount buffer.bytes)).map (segment buffer.bytes)).filter
      (fun seg => isLoaded seg.type) = pre ++ tls :: post := hfile.segments
  rw [hsegs] at hput hnote
  have hpre := noteSegment_loads fun seg hseg => hfile.loads seg (List.mem_append_left _ hseg)
  have hpost := noteSegment_loads fun seg hseg => hfile.loads seg (List.mem_append_right _ hseg)
  rw [List.foldl_append, List.foldl_cons, hpre, hpost, noteSegment, if_pos hfile.type] at hnote
  refine ⟨s', ?_, fun seg hseg x hx => ?_⟩
  · rw [hrun, fileInfo, if_pos hfile.magic, hnote]
    rfl
  · obtain ⟨t, -, -, ht⟩ := overlay_covered buffer.bytes hseg hx fun _ => none
    have hmod : x % 2 ^ 39 = x := Nat.mod_eq_of_lt (Nat.lt_of_lt_of_le hx.2 (hfile.user seg hseg))
    rw [ht]
    refine hwritten.shows (fun _ => none) (fun _ _ hx => by cases hx) x (t.content buffer.bytes x) ?_
    rw [hmod, fileWrites, if_pos hfile.magic, hput, ht]

end TLS

/-- Code of 8 bytes. -/
def codeSegment : ElfSegmentHeader := ⟨PT_LOAD, 176, 0x11000, 8, 8⟩

/-- A template of which the first 4 bytes are in the file and the others are zeros. -/
def tlsSegment : ElfSegmentHeader := ⟨PT_TLS, 176, 0x11000, 4, 8⟩

theorem template_codeSegment (file : Nat → UInt8) (hlow : tlsSegment.virtualAddress ≤ x)
    (hhigh : x < tlsSegment.virtualAddress + tlsSegment.dataSize) :
    codeSegment.Covers x ∧ codeSegment.content file x = tlsSegment.content file x := by
  have hlow' : 0x11000 ≤ x := hlow
  have hhigh' : x < 0x11000 + 4 := hhigh
  have hcode : x - codeSegment.virtualAddress < codeSegment.dataSize := show x - 0x11000 < 8 by omega
  have htls : x - tlsSegment.virtualAddress < tlsSegment.dataSize := show x - 0x11000 < 4 by omega
  refine ⟨⟨hlow', show x < 0x11000 + 8 by omega⟩, ?_⟩
  rw [ElfSegmentHeader.content, ElfSegmentHeader.content, if_pos hcode, if_pos htls]
  rfl

/-- The template comes after the code. -/
theorem tlsImage_after : TLSImage (fileOf codeSegment tlsSegment) [codeSegment] tlsSegment [] where
  magic := by decide +kernel
  ok := by
    unfold FileOk SegmentOk FileBacked OffPageZero
    decide +kernel
  segments := by decide +kernel
  type := rfl
  loads := by decide
  user := by
    unfold InUserSpace
    decide
  template _ hlow hhigh := ⟨codeSegment, List.mem_cons_self, template_codeSegment _ hlow hhigh⟩

example : codeSegment.Covers 0x11004 := by decide +kernel

/-- The template comes before the code. -/
theorem tlsImage_before : TLSImage (fileOf tlsSegment codeSegment) [] tlsSegment [codeSegment] where
  magic := by decide +kernel
  ok := by
    unfold FileOk SegmentOk FileBacked OffPageZero
    decide +kernel
  segments := by decide +kernel
  type := rfl
  loads := by decide
  user := by
    unfold InUserSpace
    decide
  template _ hlow hhigh := ⟨codeSegment, List.mem_cons_self, template_codeSegment _ hlow hhigh⟩

theorem room_tlsSegment {e : Nat} {F : List Nat} (hempty : treeShape s.mem (pmlGetAddr e) = ∅) (hlen : F.length = 24)
    (hcard : (withWrites ∅ (fileWrites buffer)).card ≤ 24) :
    ¬ Short s F (pmlGetAddr e) (withWrites (treeShape s.mem (pmlGetAddr e)) (fileWrites buffer)) := by
  rw [hempty, Short]
  omega

end ChenixOS.ELF.Exec
