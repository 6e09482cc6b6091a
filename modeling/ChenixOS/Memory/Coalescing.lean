import Mathlib.Order.CompletePartialOrder
import ChenixOS.Memory.Accounts
import ChenixOS.Libc.FreeList

/-!
# No free space is hidden

`JoinAdjacent` merges one neighbour at a time and starts over at the survivor. Its loop is that of the C
library's list, up to the search that `erase` makes first, so no two segments are adjacent when it ends. A
segment then is a whole run of free bytes, and the first fit fails only where there is no run that is
long enough.
-/

namespace ChenixOS.FreeList

open Libc (Coalesced CoalescedBut)

variable {σ : Type} {V : View σ} {R : σ → (Nat → Nat) → Prop} {G : Nat} {N : Set Nat}
  {l : FreeList σ} {c : Nat → Nat} {b g : Segment} {segs xs ys : List Segment} {n : Nat}

/-! ## `JoinAdjacent` -/

/-- The two loops do the same: what `erase` searches for is in the list. -/
theorem joinAdjacentLoop_eq (hV : V.Simulates (headers N) R) (hG : 32 ≤ G) {fuel : Nat} (hR : R l.mem c)
    (h : Holds G N c l.head l.tail segs) (hg : g ∈ segs) :
    joinAdjacentLoop V fuel l g.base = Libc.joinAdjacentLoop V fuel l g.base := by
  induction fuel generalizing l c segs g with
  | zero => rfl
  | succ fuel ih =>
    have hfg := h.fits g hg
    obtain ⟨p, hp⟩ : ∃ p : Nat → Bool, p = fun x => c (x + 16) == (g.base + g.size) % wordSize ||
      (c (x + 16) + c (x + 24)) % wordSize == g.base := ⟨_, rfl⟩
    have hseek : seek V l (touches V l.mem g.base ((g.base + g.size) % wordSize)) =
        some (((segs.map Segment.base).find? p).getD 0) := by
      refine seek_spec hV hR h.listed fun x hx => ?_
      have hxN := (h.listed.node x hx).1
      simp [touches, getBase_eq hV hR hxN, getSize_eq hV hR hxN, hp]
    have hbase := getBase_eq hV hR hfg.node
    have hsize := getSize_eq hV hR hfg.node
    rw [h.base g hg] at hbase
    rw [h.size g hg] at hsize
    rw [joinAdjacentLoop, Libc.joinAdjacentLoop]
    simp only [hbase, hsize, hseek, Option.bind_eq_bind, Option.bind_some]
    cases hfind : (segs.map Segment.base).find? p with
    | none => simp
    | some x =>
      obtain ⟨k, hk, rfl⟩ := List.mem_map.1 (List.mem_of_find?_eq_some hfind)
      have hfk := h.fits k hk
      have hpk := List.find?_some hfind
      simp only [hp, h.base k hk, h.size k hk, Bool.or_eq_true, beq_iff_eq] at hpk
      have hkbase := getBase_eq hV hR hfk.node
      have hksize := getSize_eq hV hR hfk.node
      rw [h.base k hk] at hkbase
      rw [h.size k hk] at hksize
      simp only [Option.getD_some, hfk.pos.ne', if_false, hkbase, hksize, Option.bind_some]
      by_cases hend : k.base = (g.base + g.size) % wordSize
      · have hadj := adjacent_of_mod hfg hfk hend
        obtain ⟨s₁, l₁, c₁, segs₁, hs₁, hl₁, hl₁', hR₁, hm⟩ := merge_spec hV hG hR h hg hk hadj
        rw [if_pos hend, if_pos hend, Nat.mod_eq_of_lt (size_add_lt hfg hfk hadj), hs₁, Option.bind_some,
          Option.bind_some, Libc.removeNode, hl₁, hl₁', Option.bind_some, Option.bind_some]
        exact ih (g := ⟨g.base, g.size + k.size⟩) hR₁ hm.holds hm.merged
      · have hadj := adjacent_of_mod hfk hfg (hpk.resolve_left hend).symm
        obtain ⟨s₁, l₁, c₁, segs₁, hs₁, hl₁, hl₁', hR₁, hm⟩ := merge_spec hV hG hR h hk hg hadj
        rw [if_neg hend, if_neg hend, Nat.mod_eq_of_lt (size_add_lt hfk hfg hadj), hs₁, Option.bind_some,
          Option.bind_some, Libc.removeNode, hl₁, hl₁', Option.bind_some, Option.bind_some]
        exact ih (g := ⟨k.base, k.size + g.size⟩) hR₁ hm.holds hm.merged

/-- **`JoinAdjacent`** ends, and then no two segments are adjacent. -/
theorem joinAdjacent_coalesces (hV : V.Simulates (headers N) R) (hG : 32 ≤ G) (hR : R l.mem c)
    (h : Holds G N c l.head l.tail segs) (hg : g ∈ segs) (hco : CoalescedBut g segs) :
    ∃ l' c' segs', joinAdjacent V l g.base = some l' ∧ R l'.mem c' ∧
      Covers G N c c' l' (covered segs) segs' ∧ Coalesced segs' := by
  have hlen := h.listed.length_lt
  rw [List.length_map] at hlen
  unfold joinAdjacent
  rw [joinAdjacentLoop_eq hV hG hR h hg]
  exact Libc.joinAdjacentLoop_spec hV hG hlen hR h hg hco

/-! ## The operations -/

/-- **`MarkFree`** leaves no neighbours. -/
theorem markFree_coalesces (hV : V.Simulates (headers N) R) (hG : 32 ≤ G) (hR : R l.mem c)
    (h : Holds G N c l.head l.tail segs) (hco : Coalesced segs) (hg : g.Fits G N)
    (hap : ∀ k ∈ segs, g.Apart k) :
    ∃ l' c' segs', markFree V l g.base g.size = some l' ∧ R l'.mem c' ∧
      Covers G N c c' l' (covered segs ∪ Set.Ico g.base (g.base + g.size)) segs' ∧ Coalesced segs' := by
  obtain ⟨s₁, s₂, l₁, c₁, hs₁, hs₂, hl₁, hR₁, hc₁⟩ := append_spec hV hG hR h hg hap
  obtain ⟨l', c', segs', hl', hR', hc', hdone⟩ :=
    joinAdjacent_coalesces hV hG hR₁ hc₁.holds (g := g) (by simp) (Libc.coalescedBut_append hco)
  rw [covered_append_singleton] at hc'
  refine ⟨l', c', segs', by simp [markFree, hs₁, hs₂, hl₁, hl'], hR', ⟨hc'.holds, hc'.covered_eq, ?_⟩, hdone⟩
  intro a ha
  rw [hc'.frame a ha, hc₁.frame a (covered_append_singleton ▸ ha)]

/-- **`MarkUsed`** leaves no neighbours. -/
theorem markUsed_coalesces (hV : V.Simulates (headers N) R) (hG : 32 ≤ G) (hR : R l.mem c)
    (h : Holds G N c l.head l.tail segs) (hco : Coalesced segs) (hg : g ∈ segs) (hn : 0 < n)
    (hle : n ≤ g.size) (hdvd : G ∣ n) (hnode : n < g.size → g.base + n ∈ N) :
    ∃ l' c' segs', markUsed V l g.base n = some l' ∧ R l'.mem c' ∧
      Covers G N c c' l' (covered segs \ Set.Ico g.base (g.base + n)) segs' ∧ Coalesced segs' := by
  obtain ⟨xs, ys, rfl⟩ := List.append_of_mem hg
  obtain ⟨l₁, c₁, hR₁, hc₁, hused⟩ := markUsed_eq hV hG hR h hn hle hdvd hnode
  have hothers : Coalesced (xs ++ ys) := by
    have hold : ∀ k ∈ xs ++ ys, k ∈ xs ++ g :: ys := by
      intro k hk
      simp only [List.mem_append, List.mem_cons] at hk ⊢
      tauto
    exact fun a ha b hb => hco a (hold a ha) b (hold b hb)
  by_cases hlt : n < g.size
  · have hleft : leftover g n = [⟨g.base + n, g.size - n⟩] := if_pos hlt
    rw [if_pos hlt] at hused
    rw [hleft] at hc₁
    obtain ⟨l', c', segs', hl', hR', hc', hdone⟩ :=
      joinAdjacent_coalesces hV hG hR₁ hc₁.holds (g := ⟨g.base + n, g.size - n⟩) (by simp)
        (Libc.coalescedBut_append hothers)
    rw [hc₁.covered_eq] at hc'
    exact ⟨l', c', segs', hused.trans hl', hR',
      ⟨hc'.holds, hc'.covered_eq, fun a ha => by rw [hc'.frame a ha, hc₁.frame a ha]⟩, hdone⟩
  · have hleft : leftover g n = [] := if_neg hlt
    rw [if_neg hlt] at hused
    rw [hleft, List.append_nil] at hc₁
    exact ⟨l₁, c₁, _, hused, hR₁, hc₁, hothers⟩

/-! ## Runs -/

/-- `n` bytes in a row, the first of them free, are free. -/
def HasRun (free : Set Nat) (n : Nat) : Prop := ∃ a ∈ free, Set.Ico a (a + n) ⊆ free

/-- **The first fit misses nothing** when no two segments are adjacent. -/
theorem findFree_hasRun (hV : V.Simulates (headers N) R) (hR : R l.mem c)
    (h : Holds G N c l.head l.tail segs) (hco : Coalesced segs) (n : Nat) :
    ∃ p, findFree V l n = some p ∧ (p ≠ 0 ↔ HasRun (covered segs) n) := by
  refine ⟨_, findFree_spec hV hR h n, ?_⟩
  cases hfind : segs.find? fun g => n ≤ g.size with
  | none =>
    have hsmall : ∀ k ∈ segs, k.size < n := by
      intro k hk
      simpa using List.find?_eq_none.1 hfind k hk
    refine ⟨fun hne => absurd rfl hne, ?_⟩
    rintro ⟨a, ⟨k, hk, -⟩, hrun⟩
    have hn := hsmall k hk
    obtain ⟨j, hj, hlo, hhi⟩ := hco.interval h.apart (show a < a + n by omega)
      fun x hlo hhi => hrun ⟨hlo, hhi⟩
    have := hsmall j hj
    omega
  | some k =>
    have hk := List.mem_of_find?_eq_some hfind
    have hle : n ≤ k.size := by simpa using List.find?_some hfind
    have hfk := h.fits k hk
    refine ⟨fun _ => ⟨k.base, ⟨k, hk, le_rfl, by have := hfk.size_pos; omega⟩, fun x hx => ?_⟩, fun _ => ?_⟩
    · exact ⟨k, hk, hx.1, hx.2.trans_le (by omega)⟩
    · exact hfk.pos.ne'

/-- The list, and the bytes that are free. -/
abbrev Space : Type := FreeList (Nat → Nat) × Set Nat

/-- A block of a multiple of the granule is taken, or one that has no free byte is marked as free. -/
inductive Change (G : Nat) : Space → Space → Prop
  | take {l l' : FreeList (Nat → Nat)} {free : Set Nat} {size p : Nat} :
      0 < size → G ∣ size → take View.plain l size = some (p, l') →
      Change G (l, free) (l', if p = 0 then free else free \ Set.Ico p (p + size))
  | free {l l' : FreeList (Nat → Nat)} {free : Set Nat} {b : Segment} :
      b.Fits G Set.univ → Disjoint (Set.Ico b.base (b.base + b.size)) free →
      markFree View.plain l b.base b.size = some l' →
      Change G (l, free) (l', free ∪ Set.Ico b.base (b.base + b.size))

/-- The list describes the free bytes, and no two of its segments are adjacent. -/
def Describes (G : Nat) (s : Space) (segs : List Segment) : Prop :=
  Holds G Set.univ s.1.mem s.1.head s.1.tail segs ∧ covered segs = s.2 ∧ Coalesced segs

/-- `FindFree` and `MarkUsed` return, and keep the segments apart. -/
theorem Describes.take {s : Space} (hG : 32 ≤ G) (h : Describes G s segs) (hn : 0 < n) (hdvd : G ∣ n) :
    ∃ p l' segs', FreeList.take View.plain s.1 n = some (p, l') ∧
      Describes G (l', if p = 0 then s.2 else s.2 \ Set.Ico p (p + n)) segs' := by
  obtain ⟨hholds, hcov, hco⟩ := h
  have hfind := findFree_spec plain_simulates_headers rfl hholds n
  cases hf : segs.find? fun g => n ≤ g.size with
  | none =>
    rw [hf] at hfind
    exact ⟨0, s.1, segs, by simp [FreeList.take, hfind], hholds, hcov, hco⟩
  | some g =>
    rw [hf] at hfind
    have hg := List.mem_of_find?_eq_some hf
    have hle : n ≤ g.size := by simpa using List.find?_some hf
    have hpos := (hholds.fits g hg).pos.ne'
    obtain ⟨l', c', segs', hl', rfl, hc', hco'⟩ :=
      markUsed_coalesces plain_simulates_headers hG rfl hholds hco hg hn hle hdvd fun _ => Set.mem_univ _
    refine ⟨g.base, l', segs', by simp [FreeList.take, hfind, hl', hpos], hc'.holds, ?_, hco'⟩
    rw [if_neg hpos, hc'.covered_eq, hcov]

/-- `MarkFree` returns, and keeps the segments apart. -/
theorem Describes.free {s : Space} (hG : 32 ≤ G) (h : Describes G s segs) (hb : b.Fits G Set.univ)
    (hdisj : Disjoint (Set.Ico b.base (b.base + b.size)) s.2) :
    ∃ l' segs', markFree View.plain s.1 b.base b.size = some l' ∧
      Describes G (l', s.2 ∪ Set.Ico b.base (b.base + b.size)) segs' := by
  obtain ⟨hholds, hcov, hco⟩ := h
  have hap : ∀ k ∈ segs, b.Apart k := fun k hk =>
    apart_of_disjoint hb.size_pos (hholds.fits k hk).size_pos fun x h1 h2 h3 h4 =>
      Set.disjoint_left.1 hdisj ⟨h1, h2⟩ (hcov ▸ ⟨k, hk, h3, h4⟩)
  obtain ⟨l', c', segs', hl', rfl, hc', hco'⟩ :=
    markFree_coalesces plain_simulates_headers hG rfl hholds hco hb hap
  exact ⟨l', segs', hl', hc'.holds, by rw [hc'.covered_eq, hcov], hco'⟩

/-- Each change keeps the segments apart. -/
theorem Change.describes {s s' : Space} (hG : 32 ≤ G) (hs : Change G s s') (h : ∃ segs, Describes G s segs) :
    ∃ segs, Describes G s' segs := by
  obtain ⟨segs, h⟩ := h
  cases hs with
  | take hn hdvd htake =>
    obtain ⟨p, l', segs', hl', h'⟩ := h.take hG hn hdvd
    obtain ⟨rfl, rfl⟩ := Prod.mk.inj (Option.some.inj (htake.symm.trans hl'))
    exact ⟨segs', h'⟩
  | free hb hdisj hfree =>
    obtain ⟨l', segs', hl', h'⟩ := h.free hG hb hdisj
    obtain rfl := Option.some.inj (hfree.symm.trans hl')
    exact ⟨segs', h'⟩

variable {l l₀ : FreeList (Nat → Nat)} {segs₀ : List Segment} {free : Set Nat}

/-- Each run keeps the segments apart. -/
theorem run_describes (hG : 32 ≤ G) (h₀ : Describes G (l₀, covered segs₀) segs₀)
    (run : Relation.ReflTransGen (Change G) (l₀, covered segs₀) (l, free)) :
    ∃ segs, Describes G (l, free) segs := by
  suffices ∀ s, Relation.ReflTransGen (Change G) (l₀, covered segs₀) s → ∃ segs, Describes G s segs from
    this _ run
  intro s hs
  induction hs with
  | refl => exact ⟨segs₀, h₀⟩
  | tail _ hstep ih => exact hstep.describes hG ih

/-- **Free space is not hidden** by the list: after every run from a list without adjacent segments there
are none, every further change returns, and a block is found for every size of which there is a run of
free bytes. -/
theorem free_space_found (hG : 32 ≤ G) (h₀ : Holds G Set.univ l₀.mem l₀.head l₀.tail segs₀)
    (hco : Coalesced segs₀) (run : Relation.ReflTransGen (Change G) (l₀, covered segs₀) (l, free)) :
    (∃ segs, Holds G Set.univ l.mem l.head l.tail segs ∧ covered segs = free ∧ Coalesced segs ∧
      ∀ g ∈ segs, ∃ l', joinAdjacent View.plain l g.base = some l') ∧
    (∀ size, ∃ p, findFree View.plain l size = some p ∧ (p ≠ 0 ↔ HasRun free size)) ∧
    (∀ size, 0 < size → G ∣ size → ∃ r, take View.plain l size = some r) ∧
    ∀ b : Segment, b.Fits G Set.univ → Disjoint (Set.Ico b.base (b.base + b.size)) free →
      ∃ l', markFree View.plain l b.base b.size = some l' := by
  obtain ⟨segs, h⟩ := run_describes hG ⟨h₀, rfl, hco⟩ run
  have hdescribes := h
  obtain ⟨hholds, rfl, hco'⟩ := h
  refine ⟨⟨segs, hholds, rfl, hco', fun g hg => ?_⟩, findFree_hasRun plain_simulates_headers rfl hholds hco',
    fun size hn hdvd => ?_, fun b hb hdisj => ?_⟩
  · obtain ⟨l', c', segs', hl', -⟩ := joinAdjacent_spec plain_simulates_headers hG rfl hholds hg
    exact ⟨l', hl'⟩
  · obtain ⟨p, l', segs', hl', -⟩ := hdescribes.take hG hn hdvd
    exact ⟨_, hl'⟩
  · obtain ⟨l', segs', hl', -⟩ := hdescribes.free hG hb hdisj
    exact ⟨l', hl'⟩

/-- On one page, a block is taken and given back: the whole page is found again. -/
theorem free_space_found_onePage : ∃ l, Relation.ReflTransGen (Change 64) (onePage, Set.Ico 4096 8192)
    (l, Set.Ico 4096 8192) ∧ ∃ p, findFree View.plain l 4096 = some p ∧ p ≠ 0 := by
  have hcov : covered [⟨4096, 4096⟩] = Set.Ico 4096 8192 := by simp
  have hco : Coalesced [⟨4096, 4096⟩] := by simp [Coalesced]
  obtain ⟨l₁, hl₁⟩ := onePage_take
  have htake := @Change.take 64 _ _ (covered [⟨4096, 4096⟩]) _ _ (by omega) (by omega) hl₁
  rw [if_neg (by omega)] at htake
  have hfits : Segment.Fits 64 Set.univ ⟨4096, 64⟩ := ⟨Set.mem_univ _, by decide, by decide, by decide, by decide⟩
  have hdisj : Disjoint (Set.Ico 4096 (4096 + 64)) (covered [⟨4096, 4096⟩] \ Set.Ico 4096 (4096 + 64)) :=
    Set.disjoint_sdiff_right
  obtain ⟨l₂, hl₂⟩ :=
    (free_space_found (by omega) onePage_holds hco (.single htake)).2.2.2 ⟨4096, 64⟩ hfits hdisj
  have hfree := Change.free hfits hdisj hl₂
  have hback : covered [⟨4096, 4096⟩] \ Set.Ico 4096 (4096 + 64) ∪ Set.Ico 4096 (4096 + 64) =
      covered [⟨4096, 4096⟩] := by
    rw [hcov, Set.sdiff_union_of_subset]
    exact Set.Ico_subset_Ico_right (by omega)
  have run := (Relation.ReflTransGen.single htake).tail hfree
  rw [hback] at run
  obtain ⟨p, hp, hfound⟩ := (free_space_found (by omega) onePage_holds hco run).2.1 4096
  rw [hcov] at run hfound
  refine ⟨l₂, run, p, hp, hfound.2 ⟨4096, by simp, ?_⟩⟩
  exact Set.Ico_subset_Ico_right (by omega)

end ChenixOS.FreeList
