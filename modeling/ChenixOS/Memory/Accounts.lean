import ChenixOS.Memory.FreeListProof
import Mathlib.Logic.Relation

/-!
# Free segments and blocks handed out

`Accounts G N c head tail segs blocks U` is the ledger of an allocator over a free list: the free
segments and the blocks handed out do not overlap, and together they make up `U`. Taking a block
and giving it back move bytes from one side to the other. A run of takes and frees from a list
that covers `U` therefore hands out no byte twice and loses none.
-/

namespace ChenixOS.FreeList

variable {σ : Type} {V : View σ} {R : σ → (Nat → Nat) → Prop} {G : Nat} {N U : Set Nat}
  {l l' : FreeList σ} {c c' : Nat → Nat} {head tail n : Nat} {b g : Segment}
  {segs segs' blocks : List Segment}

/-! ## Bytes of blocks -/

@[simp] theorem covered_nil : covered [] = ∅ := by
  ext b
  simp

@[simp] theorem covered_cons : covered (g :: segs) =
    Set.Ico g.base (g.base + g.size) ∪ covered segs := by
  ext b
  simp

/-- Blocks without a common byte are apart. -/
theorem apart_of_disjoint (hg : 0 < g.size) (hb : 0 < b.size)
    (h : ∀ x, g.base ≤ x → x < g.base + g.size → b.base ≤ x → x < b.base + b.size → False) :
    g.Apart b := by
  by_contra hn
  unfold Segment.Apart at hn
  exact h (max g.base b.base) (by omega) (by omega) (by omega) (by omega)

/-- Blocks that are apart have no common byte. -/
theorem Segment.Apart.not_mem (h : g.Apart b) {x : Nat} (hg : g.base ≤ x ∧ x < g.base + g.size)
    (hb : b.base ≤ x ∧ x < b.base + b.size) : False := by
  unfold Segment.Apart at h
  omega

/-- A memory holds one list of segments. -/
theorem Holds.unique {segs' : List Segment} (h : Holds G N c head tail segs)
    (h' : Holds G N c head tail segs') : segs = segs' := by
  have hbases := h.listed.ring.unique h'.listed.ring
  have hread : ∀ segs : List Segment, (∀ g ∈ segs, c (g.base + 24) = g.size) →
      segs = (segs.map Segment.base).map fun b => ⟨b, c (b + 24)⟩ := by
    intro segs hsize
    rw [List.map_map]
    refine (List.map_id segs).symm.trans (List.map_congr_left fun g hg => ?_)
    rw [Function.comp_apply, hsize g hg]
    rfl
  rw [hread segs h.size, hread segs' h'.size, hbases]

/-- The list is read from nothing but the memory it covers. -/
theorem Holds.congr (hG : 32 ≤ G) (h : Holds G N c head tail segs)
    (hc : ∀ a ∈ covered segs, c' a = c a) : Holds G N c' head tail segs := by
  have hword : ∀ g ∈ segs, ∀ j, j < 32 → c' (g.base + j) = c (g.base + j) := by
    intro g hg j hj
    have := (h.fits g hg).header hG
    exact hc _ ⟨g, hg, by omega⟩
  refine ⟨h.listed.congr ?_, ?_, ?_, h.fits, h.apart⟩
  · intro x hx
    obtain ⟨g, hg, rfl⟩ := List.mem_map.1 hx
    exact ⟨hword g hg 0 (by omega), hword g hg 8 (by omega)⟩
  · intro g hg
    rw [hword g hg 16 (by omega), h.base g hg]
  · intro g hg
    rw [hword g hg 24 (by omega), h.size g hg]

/-- More nodes may be allowed. -/
theorem Segment.Fits.mono {N' : Set Nat} (h : g.Fits G N) (hN : N ⊆ N') : g.Fits G N' :=
  ⟨hN h.node, h.pos, h.size_pos, h.granule, h.top⟩

theorem Holds.mono {N' : Set Nat} (h : Holds G N c head tail segs) (hN : N ⊆ N') :
    Holds G N' c head tail segs :=
  ⟨⟨h.listed.ring, fun x hx => ⟨hN (h.listed.node x hx).1, (h.listed.node x hx).2⟩, h.listed.apart⟩,
    h.base, h.size, fun g hg => (h.fits g hg).mono hN, h.apart⟩

/-! ## The ledger -/

/-- **The ledger**: free segments and blocks handed out make up `U`, without overlap. -/
structure Accounts (G : Nat) (N : Set Nat) (c : Nat → Nat) (head tail : Nat)
    (segs blocks : List Segment) (U : Set Nat) : Prop where
  holds : Holds G N c head tail segs
  fits : ∀ b ∈ blocks, b.Fits G N
  blocks_apart : blocks.Pairwise Segment.Apart
  apart : ∀ g ∈ segs, ∀ b ∈ blocks, g.Apart b
  cover : covered segs ∪ covered blocks = U

/-- What is free is what is not handed out. -/
theorem Accounts.covered_eq (h : Accounts G N c head tail segs blocks U) :
    covered segs = U \ covered blocks := by
  ext x
  rw [← h.cover, Set.mem_sdiff, Set.mem_union]
  constructor
  · rintro hx
    refine ⟨.inl hx, ?_⟩
    rintro ⟨b, hb, hxb⟩
    obtain ⟨g, hg, hxg⟩ := hx
    exact (h.apart g hg b hb).not_mem hxg hxb
  · rintro ⟨hx | hx, hnx⟩
    · exact hx
    · exact absurd hx hnx

/-- Where a free segment or a block is. -/
theorem Accounts.sub (h : Accounts G N c head tail segs blocks U) (hb : b ∈ segs ∨ b ∈ blocks) :
    Set.Ico b.base (b.base + b.size) ⊆ U := by
  intro x hx
  rw [← h.cover]
  exact hb.imp (fun hb => ⟨b, hb, hx⟩) fun hb => ⟨b, hb, hx⟩

theorem Accounts.sub_free (h : Accounts G N c head tail segs blocks U) : covered segs ⊆ U :=
  h.cover ▸ Set.subset_union_left

/-- The ledger is read from nothing but free memory. -/
theorem Accounts.congr (hG : 32 ≤ G) (h : Accounts G N c head tail segs blocks U)
    (hc : ∀ a ∈ covered segs, c' a = c a) : Accounts G N c' head tail segs blocks U :=
  ⟨h.holds.congr hG hc, h.fits, h.blocks_apart, h.apart, h.cover⟩

/-- Memory that is added is a block handed out, until it is freed. -/
theorem Accounts.extend {N' : Set Nat} (h : Accounts G N c head tail segs blocks U) (hN : N ⊆ N')
    (hb : b.Fits G N') (hU : ∀ x, b.base ≤ x → x < b.base + b.size → x ∉ U) :
    Accounts G N' c head tail segs (b :: blocks) (U ∪ Set.Ico b.base (b.base + b.size)) := by
  refine ⟨h.holds.mono hN, ?_, List.pairwise_cons.2 ⟨fun k hk => ?_, h.blocks_apart⟩, ?_, ?_⟩
  · intro k hk
    rcases List.mem_cons.1 hk with rfl | hk
    · exact hb
    · exact (h.fits k hk).mono hN
  · exact apart_of_disjoint hb.size_pos (h.fits k hk).size_pos fun x h1 h2 h3 h4 =>
      hU x h1 h2 (h.sub (.inr hk) ⟨h3, h4⟩)
  · intro g hg k hk
    rcases List.mem_cons.1 hk with rfl | hk
    · exact apart_of_disjoint (h.holds.fits g hg).size_pos hb.size_pos fun x h1 h2 h3 h4 =>
        hU x h3 h4 (h.sub (.inl hg) ⟨h1, h2⟩)
    · exact h.apart g hg k hk
  · rw [covered_cons, ← h.cover]
    ext x
    simp only [Set.mem_union]
    tauto

/-- A block taken from a segment goes to the blocks handed out. -/
theorem Accounts.used (h : Accounts G N c head tail segs blocks U) (hg : g ∈ segs) (hn : 0 < n)
    (hle : n ≤ g.size) (hdvd : G ∣ n)
    (hc : Covers G N c c' l' (covered segs \ Set.Ico g.base (g.base + n)) segs') :
    Accounts G N c' l'.head l'.tail segs' (⟨g.base, n⟩ :: blocks) U := by
  have hfg := h.holds.fits g hg
  have htop := hfg.top
  have hsub : ∀ k ∈ segs', ∀ x, k.base ≤ x → x < k.base + k.size →
      x ∈ covered segs ∧ ¬ (g.base ≤ x ∧ x < g.base + n) := by
    intro k hk x h1 h2
    have hx : x ∈ covered segs' := ⟨k, hk, h1, h2⟩
    rw [hc.covered_eq] at hx
    exact hx
  refine ⟨hc.holds, ?_, ?_, ?_, ?_⟩
  · intro b hb
    rcases List.mem_cons.1 hb with rfl | hb
    · exact ⟨hfg.node, hfg.pos, hn, hdvd, by dsimp only; omega⟩
    · exact h.fits b hb
  · rw [List.pairwise_cons]
    refine ⟨?_, h.blocks_apart⟩
    intro b hb
    have := h.apart g hg b hb
    unfold Segment.Apart at this ⊢
    dsimp only
    omega
  · intro k hk b hb
    have hkp := (hc.holds.fits k hk).size_pos
    rcases List.mem_cons.1 hb with rfl | hb
    · exact apart_of_disjoint hkp hn fun x h1 h2 h3 h4 => (hsub k hk x h1 h2).2 ⟨h3, h4⟩
    · refine apart_of_disjoint hkp (h.fits b hb).size_pos fun x h1 h2 h3 h4 => ?_
      obtain ⟨⟨j, hj, hxj⟩, -⟩ := hsub k hk x h1 h2
      exact (h.apart j hj b hb).not_mem hxj ⟨h3, h4⟩
  · rw [hc.covered_eq, covered_cons, ← h.cover]
    ext x
    simp only [Set.mem_union, Set.mem_sdiff, Set.mem_Ico]
    have hin : g.base ≤ x ∧ x < g.base + n → x ∈ covered segs :=
      fun hx => ⟨g, hg, by omega⟩
    tauto

/-- A block given back goes to the free segments. -/
theorem Accounts.freed (h : Accounts G N c head tail segs blocks U) (hb : b ∈ blocks)
    (hc : Covers G N c c' l' (covered segs ∪ Set.Ico b.base (b.base + b.size)) segs') :
    Accounts G N c' l'.head l'.tail segs' (blocks.erase b) U := by
  have hperm := List.perm_cons_erase hb
  have hap := (hperm.pairwise_iff fun h => h.symm).1 h.blocks_apart
  rw [List.pairwise_cons] at hap
  have hmem : ∀ k ∈ blocks.erase b, k ∈ blocks := fun k hk => List.mem_of_mem_erase hk
  refine ⟨hc.holds, fun k hk => h.fits k (hmem k hk), hap.2, ?_, ?_⟩
  · intro k hk j hj
    refine apart_of_disjoint (hc.holds.fits k hk).size_pos (h.fits j (hmem j hj)).size_pos
      fun x h1 h2 h3 h4 => ?_
    have hx : x ∈ covered segs' := ⟨k, hk, h1, h2⟩
    rw [hc.covered_eq] at hx
    rcases hx with ⟨i, hi, hxi⟩ | hx
    · exact (h.apart i hi j (hmem j hj)).not_mem hxi ⟨h3, h4⟩
    · exact (hap.1 j hj).not_mem hx ⟨h3, h4⟩
  · have hcov : covered blocks = Set.Ico b.base (b.base + b.size) ∪ covered (blocks.erase b) := by
      rw [← covered_cons]
      ext x
      simp only [mem_covered, hperm.mem_iff]
    rw [hc.covered_eq, ← h.cover, hcov, Set.union_assoc]

/-! ## Taking and freeing blocks -/

/-- **Taking a block** either finds no segment large enough and changes nothing, or hands out the
first bytes of one. Nothing outside of what is free afterwards is written. -/
theorem take_spec (hV : V.Simulates (headers N) R) (hG : 32 ≤ G) (hR : R l.mem c)
    (h : Accounts G N c l.head l.tail segs blocks U) (hn : 0 < n) (hdvd : G ∣ n)
    (hnode : ∀ g ∈ segs, n < g.size → g.base + n ∈ N) :
    (take V l n = some (0, l) ∧ ∀ g ∈ segs, g.size < n) ∨
    ∃ g ∈ segs, n ≤ g.size ∧ ∃ l' c' segs', take V l n = some (g.base, l') ∧ R l'.mem c' ∧
      Accounts G N c' l'.head l'.tail segs' (⟨g.base, n⟩ :: blocks) U ∧
      ∀ a, a ∉ covered segs' → c' a = c a := by
  have hfind := findFree_spec hV hR h.holds n
  cases hf : segs.find? fun g => n ≤ g.size with
  | none =>
    left
    rw [hf] at hfind
    refine ⟨by simp [take, hfind], ?_⟩
    intro g hg
    simpa using List.find?_eq_none.1 hf g hg
  | some g =>
    right
    rw [hf] at hfind
    have hg := List.mem_of_find?_eq_some hf
    have hle : n ≤ g.size := by simpa using List.find?_some hf
    obtain ⟨l', c', segs', hl', hR', hc'⟩ :=
      markUsed_spec hV hG hR h.holds hg hn hle hdvd (hnode g hg)
    refine ⟨g, hg, hle, l', c', segs', ?_, hR', h.used hg hn hle hdvd hc', ?_⟩
    · simp [take, hfind, hl', (h.holds.fits g hg).pos.ne']
    · intro a ha
      exact hc'.frame a (hc'.covered_eq ▸ ha)

/-- **Freeing a block** that was handed out. -/
theorem free_spec (hV : V.Simulates (headers N) R) (hG : 32 ≤ G) (hR : R l.mem c)
    (h : Accounts G N c l.head l.tail segs blocks U) (hb : b ∈ blocks) :
    ∃ l' c' segs', markFree V l b.base b.size = some l' ∧ R l'.mem c' ∧
      Accounts G N c' l'.head l'.tail segs' (blocks.erase b) U ∧
      ∀ a, a ∉ covered segs' → c' a = c a := by
  obtain ⟨l', c', segs', hl', hR', hc'⟩ := markFree_spec hV hG hR h.holds (h.fits b hb)
    fun g hg => (h.apart g hg b hb).symm
  refine ⟨l', c', segs', hl', hR', h.freed hb hc', ?_⟩
  intro a ha
  exact hc'.frame a (hc'.covered_eq ▸ ha)

/-! ## Runs -/

section Runs

variable {l l₀ : FreeList (Nat → Nat)} {segs₀ : List Segment}

/-- A block of a multiple of the granule of 64 bytes is taken, or one that was handed out is given
back. The blocks handed out are kept beside the list. -/
inductive Step : FreeList (Nat → Nat) × List Segment → FreeList (Nat → Nat) × List Segment → Prop
  | take {l l' : FreeList (Nat → Nat)} {blocks : List Segment} {size p : Nat} :
      0 < size → 64 ∣ size → take View.plain l size = some (p, l') →
      Step (l, blocks) (l', if p = 0 then blocks else ⟨p, size⟩ :: blocks)
  | free {l l' : FreeList (Nat → Nat)} {blocks : List Segment} {b : Segment} :
      b ∈ blocks → markFree View.plain l b.base b.size = some l' →
      Step (l, blocks) (l', blocks.erase b)

theorem plain_simulates_headers : View.plain.Simulates (headers Set.univ) (· = ·) where
  load h _ := View.plain_simulates.load h (Set.mem_univ _)
  store v h _ := View.plain_simulates.store v h (Set.mem_univ _)

/-- Each step keeps the ledger. -/
theorem Step.accounts {s s' : FreeList (Nat → Nat) × List Segment} (hs : Step s s')
    (h : ∃ segs, Accounts 64 Set.univ s.1.mem s.1.head s.1.tail segs s.2 U) :
    ∃ segs, Accounts 64 Set.univ s'.1.mem s'.1.head s'.1.tail segs s'.2 U := by
  obtain ⟨segs, h⟩ := h
  cases hs with
  | take hn hdvd htake =>
    rcases take_spec plain_simulates_headers (by omega) rfl h hn hdvd fun _ _ _ => Set.mem_univ _
      with ⟨hnone, -⟩ | ⟨g, hg, -, l', c', segs', hsome, rfl, hacc, -⟩
    · rw [htake] at hnone
      obtain ⟨rfl, rfl⟩ := Prod.mk.inj (Option.some.inj hnone)
      exact ⟨segs, h⟩
    · rw [htake] at hsome
      obtain ⟨rfl, rfl⟩ := Prod.mk.inj (Option.some.inj hsome)
      rw [if_neg (h.holds.fits g hg).pos.ne']
      exact ⟨segs', hacc⟩
  | free hb hfree =>
    obtain ⟨l', c', segs', hl', rfl, hacc, -⟩ :=
      free_spec plain_simulates_headers (by omega) rfl h hb
    rw [hfree] at hl'
    obtain rfl := Option.some.inj hl'
    exact ⟨segs', hacc⟩

/-- Before anything is handed out, the ledger is the list. -/
theorem accounts_nil (h : Holds G N c head tail segs) :
    Accounts G N c head tail segs [] (covered segs) :=
  ⟨h, by simp, .nil, by simp, by simp⟩

/-- Each run keeps the ledger. -/
theorem run_accounts (h₀ : Holds 64 Set.univ l₀.mem l₀.head l₀.tail segs₀)
    (run : Relation.ReflTransGen Step (l₀, []) (l, blocks)) :
    ∃ segs, Accounts 64 Set.univ l.mem l.head l.tail segs blocks (covered segs₀) := by
  suffices ∀ s, Relation.ReflTransGen Step (l₀, []) s →
      ∃ segs, Accounts 64 Set.univ s.1.mem s.1.head s.1.tail segs s.2 (covered segs₀) from
    this _ run
  intro s hs
  induction hs with
  | refl => exact ⟨segs₀, accounts_nil h₀⟩
  | tail _ hstep ih => exact hstep.accounts ih

/-- The list of one free page at address 4096. -/
def onePage : FreeList (Nat → Nat) where
  mem a := if a = 4112 ∨ a = 4120 then 4096 else 0
  head := 4096
  tail := 4096

theorem onePage_holds :
    Holds 64 Set.univ onePage.mem onePage.head onePage.tail [⟨4096, 4096⟩] := by
  refine ⟨⟨⟨?_, by simp⟩, by decide, by simp⟩, by simp [onePage], by simp [onePage], ?_, by simp⟩
  · exact .cons_cons (by decide) (.cons_cons (by decide) (.singleton 0))
  · intro g hg
    rw [List.mem_singleton] at hg
    subst hg
    exact ⟨Set.mem_univ _, by decide, by decide, by decide, by decide⟩

theorem onePage_take : ∃ l, take View.plain onePage 64 = some (4096, l) := by
  rcases take_spec plain_simulates_headers (by omega) rfl (accounts_nil onePage_holds)
      (n := 64) (by omega) (by omega) fun _ _ _ => Set.mem_univ _
    with ⟨-, hall⟩ | ⟨g, hg, -, l', c', segs', hsome, -⟩
  · exact absurd (hall _ (List.mem_singleton.2 rfl)) (by decide)
  · rw [List.mem_singleton] at hg
    subst hg
    exact ⟨l', hsome⟩

end Runs

end ChenixOS.FreeList
