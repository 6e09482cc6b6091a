import ChenixOS.Libc.MallocProof
import ChenixOS.Memory.Accounts

/-!
# `realloc` is never right

The header of a block says how many bytes the block has together with the header; `realloc` takes this for
the number of bytes that the program may use. And it never calls `free`.

**Theorem (`realloc_never_right`).** Whatever the block and the size that is asked for, the call breaks its
contract:

* for the size in the header, the block itself is returned, with 16 bytes less;
* for more, 16 bytes behind the block are read;
* for up to 15 bytes less, some bytes behind the block are read;
* for fewer still, the old block stays allocated, and nobody can free it through the pointer returned.
-/

namespace ChenixOS.Libc

open FreeList Transitions

variable {E d src n i : Nat} {c : Nat → Nat} {s : UserMem} {b : Segment} {segs live : List Segment}
  {h h' : Heap}

/-! ## The contract -/

/-- The byte at an address. -/
def byteAt (words : Nat → Nat) (a : Nat) : Nat := words (a / 8 * 8) / 256 ^ (a % 8) % 256

/-- **What `realloc` should do** with the live block `b`: it returns a block of `n` usable bytes or more,
which begins with what the old block holds; it reads no byte behind the old block and changes no other live
block; and if it returns another block, the bytes of the old one are free. -/
def ReallocRight (h : Heap) (live : List Segment) (b : Segment) (n : Nat) : Prop :=
  ∃ p h', realloc (b.base + 16) n h = some (p, h') ∧
    n + 16 ≤ h'.list.mem.words (p - 16) ∧
    (∀ j < min n (b.size - 16), byteAt h'.list.mem.words (p + j) =
      byteAt h.list.mem.words (b.base + 16 + j)) ∧
    (n ≠ b.size → 16 + copied n b.size ≤ b.size) ∧
    (∀ k ∈ live, k ≠ b → ∀ a, k.base ≤ a → a < k.base + k.size →
      h'.list.mem.words a = h.list.mem.words a) ∧
    (p ≠ b.base + 16 → ∃ segs, Holds 64 (nodes h'.heapPos) h'.list.mem.words h'.list.head h'.list.tail segs ∧
      Set.Ico b.base (b.base + b.size) ⊆ covered segs)

/-! ## Copying -/

/-- `memcpy` writes nothing outside of the words it copies to. -/
theorem copyWords_spec (hs : Shows E s c) (hdlo : heapStart ≤ d) (hdhi : d + 8 * (i + n) ≤ E)
    (hslo : heapStart ≤ src) (hshi : src + 8 * (i + n) ≤ E) :
    ∃ s' c', copyWords d src n i s = some s' ∧ Shows E s' c' ∧
      ∀ a, a < d + 8 * i ∨ d + 8 * (i + n) ≤ a → c' a = c a := by
  induction n generalizing i s c with
  | zero => exact ⟨s, c, rfl, hs, fun _ _ => rfl⟩
  | succ n ih =>
    have hload := hs.load (a := src + 8 * i) (by omega) (by omega)
    obtain ⟨s₁, hs₁, hR₁⟩ := hs.store (a := d + 8 * i) (by omega) (by omega) (c (src + 8 * i))
    obtain ⟨s', c', hcopy, hR', hkeep⟩ := ih hR₁ (i := i + 1) (by omega) (by omega)
    refine ⟨s', c', ?_, hR', fun a ha => ?_⟩
    · rw [copyWords, hload, Option.bind_eq_bind, Option.bind_some, hs₁]
      exact hcopy
    · rw [hkeep a (by omega), Function.update_of_ne (by omega)]

theorem memcpy_spec (hs : Shows E s c) (hdlo : heapStart ≤ d) (hdhi : d + (n + 7) / 8 * 8 ≤ E)
    (hslo : heapStart ≤ src) (hshi : src + (n + 7) / 8 * 8 ≤ E) :
    ∃ s' c', memcpy d src n s = some s' ∧ Shows E s' c' ∧
      ∀ a, a < d ∨ d + (n + 7) / 8 * 8 ≤ a → c' a = c a := by
  obtain ⟨s₁, c₁, hs₁, hR₁, hkeep₁⟩ := copyWords_spec (n := n / 8) (i := 0) hs hdlo (by omega) hslo
    (by omega)
  by_cases hn : n % 8 = 0
  · refine ⟨s₁, c₁, ?_, hR₁, fun a ha => hkeep₁ a (by omega)⟩
    rw [memcpy, hs₁, Option.bind_eq_bind, Option.bind_some, if_pos hn]
  · have hnew := hR₁.load (a := src + 8 * (n / 8)) (by omega) (by omega)
    have hold := hR₁.load (a := d + 8 * (n / 8)) (by omega) (by omega)
    obtain ⟨s₂, hs₂, hR₂⟩ := hR₁.store (a := d + 8 * (n / 8)) (by omega) (by omega)
      (mixBytes (n % 8) (c₁ (src + 8 * (n / 8))) (c₁ (d + 8 * (n / 8))))
    refine ⟨s₂, _, ?_, hR₂, fun a ha => ?_⟩
    · rw [memcpy, hs₁, Option.bind_eq_bind, Option.bind_some, if_neg hn, hnew, Option.bind_eq_bind,
        Option.bind_some, hold, Option.bind_some, hs₂]
    · rw [Function.update_of_ne (by omega), hkeep₁ a (by omega)]

/-- What is written into a live block does not concern the heap. -/
theorem Sound.write (hs : Sound h segs live) (hb : b ∈ live) {mem : UserMem} {c' : Nat → Nat}
    (hR : Shows h.heapPos mem c')
    (hkeep : ∀ a, a < b.base + 16 ∨ b.base + b.size ≤ a → c' a = h.list.mem.words a) :
    Sound { h with list := { h.list with mem := mem } } segs live := by
  have hbooks := hs.books
  refine ⟨?_, hR.mapped, hs.page, hs.low, hs.top⟩
  show Books h.heapPos mem.words h.list.head h.list.tail segs live
  rw [hR.words]
  refine ⟨holds_congr hbooks.holds fun k hk j hj => hkeep _ ?_, hbooks.coalesced, hbooks.apart,
    hbooks.reserved, hbooks.blocks, fun k hk => ?_⟩
  · have hk32 := (hbooks.holds.fits k hk).header (by omega)
    have := hbooks.block_apart hb k hk
    unfold Segment.Apart at this
    omega
  · rw [hkeep, hbooks.header k hk]
    by_cases hkb : k = b
    · exact .inl (by rw [hkb]; omega)
    · have hlive := (List.pairwise_append.1 hbooks.apart).2.1
      have := hlive.forall hk hb hkb
      have := (hbooks.blocks k hk).2.2
      unfold Segment.Apart at *
      omega

/-! ## Never right -/

/-- The header of a live block is what `realloc` reads. -/
theorem Sound.load_header (hs : Sound h segs live) (hb : b ∈ live) :
    userView.load h.list.mem ((b.base + 16 + wordSize - 16) % wordSize) = some b.size := by
  obtain ⟨hblo, hbhi⟩ := hs.books.block_range hb
  have hbmin := (hs.books.blocks b hb).2.2
  have htop := hs.top
  have huser : userEnd < wordSize := by decide
  have hsum : b.base + 16 + wordSize - 16 = b.base + wordSize := by omega
  rw [hsum, Nat.add_mod_right, Nat.mod_eq_of_lt (by omega), hs.shows.load hblo (by omega),
    hs.books.header b hb]

/-- **A smaller block is taken in addition to the old one**, which stays allocated. -/
theorem realloc_keeps_old (hs : Sound h segs live) (hb : b ∈ live) (hn : n + 16 ≤ b.size)
    (hgrant : Granted n h) (hsmall : blockSize n < 2 ^ 31) (hwrap : n + 79 < sizeTop) :
    ∃ g h' segs', realloc (b.base + 16) n h = some (g + 16, h') ∧
      Sound h' segs' (live ++ [Segment.mk g (blockSize n)]) := by
  obtain ⟨hdvd, hroom, -, -⟩ := blockSize_bounds hwrap
  obtain ⟨g, h₁, segs₁, hmalloc, hs₁, -⟩ := malloc_ok hs hwrap hgrant hsmall
  have hb₁ : b ∈ live ++ [Segment.mk g (blockSize n)] := List.mem_append_left _ hb
  have hg₁ : Segment.mk g (blockSize n) ∈ live ++ [Segment.mk g (blockSize n)] := by simp
  obtain ⟨hblo, hbhi⟩ := hs₁.books.block_range hb₁
  obtain ⟨hglo, hghi⟩ := hs₁.books.block_range hg₁
  obtain ⟨-, hbs, -⟩ := hs.books.blocks b hb
  obtain ⟨k, hk⟩ := hdvd
  obtain ⟨l, hl⟩ := hbs
  have hlt : n < b.size := by omega
  dsimp only at hglo hghi
  have hsrc : heapStart ≤ b.base + 16 := by omega
  obtain ⟨mem, c', hmem, hR, hkeep⟩ := memcpy_spec (d := g + 16) (n := n) hs₁.shows
    (by omega) (by omega) hsrc (by omega)
  have hcopied : copied n b.size = n := if_neg (by omega)
  refine ⟨g, _, segs₁, ?_, hs₁.write hg₁ hR fun a ha => hkeep a ?_⟩
  · rw [realloc, if_neg (by omega), hs.load_header hb, Option.bind_eq_bind, Option.bind_some,
      if_neg (by omega), hmalloc, Option.bind_eq_bind, Option.bind_some, hcopied]
    dsimp only
    rw [hmem]
    rfl
  · dsimp only at ha
    omega

theorem not_reallocRight (hs : Sound h segs live) (hb : b ∈ live) (hsize : b.size < 2 ^ 31)
    (hgrant : n + 16 ≤ b.size → Granted n h) : ¬ ReallocRight h live b n := by
  rintro ⟨p, h', hrun, huse, -, hread, -, hfree⟩
  have hmin := (hs.books.blocks b hb).2.2
  have hload := hs.load_header hb
  rcases Nat.lt_trichotomy n b.size with hlt | heq | hgt
  · have hcopied : copied n b.size = n := if_neg (by omega)
    rw [hcopied] at hread
    have hfit : n + 16 ≤ b.size := by
      have := hread (by omega)
      omega
    have hwrap : n + 79 < sizeTop := by
      unfold sizeTop
      omega
    by_cases hsmall : blockSize n < 2 ^ 31
    · obtain ⟨g, h₁, segs₁, hrun₁, hs₁⟩ := realloc_keeps_old hs hb hfit (hgrant hfit) hsmall hwrap
      rw [hrun, Option.some.injEq, Prod.mk.injEq] at hrun₁
      obtain ⟨rfl, rfl⟩ := hrun₁
      -- The old block is still live, so it is neither the new one nor free.
      have hb₁ : b ∈ live ++ [Segment.mk g (blockSize n)] := List.mem_append_left _ hb
      have hap := (List.pairwise_append.1 (List.pairwise_append.1 hs₁.books.apart).2.1).2.2 b hb
        (Segment.mk g (blockSize n)) (by simp)
      have hpos := (blockSize_bounds hwrap).2.2.2
      unfold Segment.Apart at hap
      dsimp only at hap
      obtain ⟨segs₂, hholds, hcov⟩ := hfree (by omega)
      rw [hholds.unique hs₁.books.holds] at hcov
      exact not_mem_covered (hs₁.books.block_apart hb₁) le_rfl (by omega)
        (hcov ⟨le_rfl, by omega⟩)
    · rw [realloc, if_neg (by omega), hload, Option.bind_eq_bind, Option.bind_some, if_neg (by omega),
        malloc_none (by omega)] at hrun
      exact absurd hrun (by simp)
  · rw [realloc, if_neg (by omega), hload, Option.bind_eq_bind, Option.bind_some, if_pos heq,
      Option.some.injEq, Prod.mk.injEq] at hrun
    obtain ⟨rfl, rfl⟩ := hrun
    rw [Nat.add_sub_cancel, hs.books.header b hb] at huse
    omega
  · have hcopied : copied n b.size = b.size := if_pos hgt
    have := hread (by omega)
    omega

/-! ## Runs -/

/-- The blocks of a process are small: `malloc` does not return others. -/
theorem live_small (mem : UserMem) {s : State} (hrun : Runs step Enabled (initial mem) s) :
    Inv s ∧ ∀ b ∈ s.live, b.size < 2 ^ 31 := by
  refine hrun.inv (I := fun s => Inv s ∧ ∀ b ∈ s.live, b.size < 2 ^ 31) ⟨inv_initial mem, ?_⟩ ?_
  · intro b hb
    cases hb
  · rintro s e s' ⟨hi, hlive⟩ hok hstep
    have hsmall : Small e := by
      cases e with
      | malloc n =>
        by_contra hbig
        rw [step, malloc_none (Nat.le_of_not_lt hbig)] at hstep
        exact absurd hstep (by simp)
      | free i => trivial
      | write a v => trivial
    refine ⟨hi.step hok hsmall hstep, ?_⟩
    cases e with
    | malloc n =>
      obtain ⟨r, -, rfl⟩ := Option.map_eq_some_iff.1 hstep
      intro b hb
      rcases List.mem_append.1 hb with hb | hb
      · exact hlive b hb
      · rw [List.mem_singleton.1 hb]
        exact hsmall
    | free i =>
      obtain ⟨b, -, hfree⟩ := Option.bind_eq_some_iff.1 hstep
      obtain ⟨heap, -, rfl⟩ := Option.map_eq_some_iff.1 hfree
      exact fun b hb => hlive b (List.mem_of_mem_eraseIdx hb)
    | write a v =>
      obtain ⟨m, -, rfl⟩ := Option.map_eq_some_iff.1 hstep
      exact hlive

/-- **`realloc` breaks its contract in every call**: in every state that a process reaches by calls of
`malloc` and `free` and by writing into its blocks, for every live block and every size. (For a smaller
block, should the heap have to grow, the pages that are asked for are taken to be in the address space.) -/
theorem realloc_never_right (mem : UserMem) {s : State} (hrun : Runs step Enabled (initial mem) s)
    {b : Segment} (hb : b ∈ s.live) {n : Nat} (hgrant : n + 16 ≤ b.size → Granted n s.heap) :
    ¬ ReallocRight s.heap s.live b n := by
  obtain ⟨⟨segs, hs⟩, hlive⟩ := live_small mem hrun
  exact not_reallocRight hs hb (hlive b hb) hgrant

/-- The first block of a process: 100 bytes, in 128 with the header. -/
theorem first_block : ∃ s g, Runs step Enabled (initial unmapped) s ∧ s.live = [Segment.mk g 128] := by
  have hgrant : Granted 100 (initial unmapped).heap := fun _ => by decide
  obtain ⟨segs, hs⟩ := inv_initial unmapped
  obtain ⟨b, h', -, hmalloc, -⟩ := malloc_ok hs (by decide) hgrant (by decide)
  have hstep : step (initial unmapped) (.malloc 100) = some ⟨h', [Segment.mk b 128]⟩ := by
    rw [step, hmalloc]
    rfl
  exact ⟨_, b, .head (e := .malloc 100) ⟨by decide, hgrant⟩ hstep (.refl _), rfl⟩

/-- 200 bytes instead of the 100: 16 bytes behind the old block are read. -/
theorem realloc_never_right_first : ∃ s b, Runs step Enabled (initial unmapped) s ∧ b ∈ s.live ∧
    ¬ ReallocRight s.heap s.live b 200 := by
  obtain ⟨s, g, hrun, hlive⟩ := first_block
  have hb : Segment.mk g 128 ∈ s.live := by simp [hlive]
  exact ⟨s, _, hrun, hb, realloc_never_right unmapped hrun hb fun h => absurd h (Nat.not_le.2 (by dsimp only; omega))⟩

/-- **A block that is too small**: asked for 128 bytes, `realloc` returns the block of 112 that it was
given. -/
theorem realloc_too_small : ∃ s b, Runs step Enabled (initial unmapped) s ∧ b ∈ s.live ∧
    realloc (b.base + 16) 128 s.heap = some (b.base + 16, s.heap) ∧
    s.heap.list.mem.words b.base = 112 + 16 ∧ ¬ ReallocRight s.heap s.live b 128 := by
  obtain ⟨s, g, hrun, hlive⟩ := first_block
  have hb : Segment.mk g 128 ∈ s.live := by simp [hlive]
  obtain ⟨⟨segs, hs⟩, hsmall⟩ := live_small unmapped hrun
  refine ⟨s, _, hrun, hb, ?_, hs.books.header _ hb,
    not_reallocRight hs hb (hsmall _ hb) fun h => absurd h (Nat.not_le.2 (by dsimp only; omega))⟩
  rw [realloc, if_neg (by omega), hs.load_header hb, Option.bind_eq_bind, Option.bind_some, if_pos rfl]

end ChenixOS.Libc
