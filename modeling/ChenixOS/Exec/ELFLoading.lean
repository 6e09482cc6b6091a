import ChenixOS.Exec.ELF
import ChenixOS.Memory.UserBytes
import Mathlib.Data.List.Basic

/-!
# Loading a program

The loops of `CheckAndPrepare` put bytes to addresses, one after the other, through a cache of the last page. What
they put is a list of writes, in which a value is missing where the file ends too early.

**Invariant.** The cache holds the page that the page tables have for it, or nothing. A byte can be put if it is in
the file, its page is not the one that an empty cache takes for its own, and there are frames for the page and the
tables above it. Then the address space shows what has been put so far.

**Theorem (`loadImage_does`).** All segments are loaded exactly if this holds of all their bytes.
-/

namespace ChenixOS.ELF.Exec

open MemoryManager

variable {α β : Type} {s s' s'' : State} {roots F F' F'' : List Nat} {e r addr n : Nat} {c : Cache}
  {value : Option UInt8} {ws ws' : List (Nat × Option UInt8)} {buffer : Buffer} {seg : ElfSegmentHeader}

/-! ## Runs that may fail -/

/-- The run begun in `s` ends with all requests for pages satisfied, and with `Q`, exactly if `ok`. -/
def Does (ok : Prop) (s : State) (run : Option (α × State)) (Q : α → State → Prop) : Prop :=
  (¬ ok ∧ ∀ st, run = some st → s.refused < st.2.refused) ∨
  ok ∧ ∃ a s', run = some (a, s') ∧ s'.refused = s.refused ∧ Q a s'

section Does

variable {ok p q : Prop} {run : Option (α × State)} {Q : α → State → Prop} {Q' : β → State → Prop}
  {k : α × State → Option (β × State)}

theorem Does.iff (h : Does ok s run Q) : (∃ a s', run = some (a, s') ∧ s'.refused = s.refused ∧ Q a s') ↔ ok := by
  rcases h with ⟨hno, hbad⟩ | ⟨hok, hrun⟩
  · refine iff_of_false ?_ hno
    rintro ⟨a, s', hrun, href, -⟩
    exact (hbad _ hrun).ne' href
  · exact iff_of_true hrun hok

/-- One run after the other. -/
theorem Does.bind (h₁ : Does p s run Q) (hok : ok ↔ p ∧ q)
    (hmono : ∀ st st', k st = some st' → st.2.refused ≤ st'.2.refused)
    (h₂ : ∀ a s₁, Q a s₁ → Does q s₁ (k (a, s₁)) Q') : Does ok s (run.bind k) Q' := by
  rcases h₁ with ⟨hno, hbad⟩ | ⟨hok₁, a, s₁, hrun, href, hQ⟩
  · refine .inl ⟨fun h => hno (hok.1 h).1, fun st hst => ?_⟩
    obtain ⟨st₁, hst₁, hst⟩ := Option.bind_eq_some_iff.1 hst
    exact (hbad st₁ hst₁).trans_le (hmono st₁ st hst)
  · rw [hrun, Option.bind_some]
    rcases h₂ a s₁ hQ with ⟨hno, hbad⟩ | ⟨hok₂, b, s₂, hrun₂, href₂, hQ'⟩
    · refine .inl ⟨fun h => hno (hok.1 h).2, fun st hst => ?_⟩
      rw [← href]
      exact hbad st hst
    · exact .inr ⟨hok.2 ⟨hok₁, hok₂⟩, b, s₂, hrun₂, href₂.trans href, hQ'⟩

/-- A step that has no part in the state. -/
theorem Does.pure {a : α} (hok : ok) (hQ : Q a s) : Does ok s (some (a, s)) Q := .inr ⟨hok, a, s, rfl, rfl, hQ⟩

theorem Does.fails (hno : ¬ ok) : Does ok s none Q := .inl ⟨hno, fun _ h => by cases h⟩

theorem Does.mono {Q'' : α → State → Prop} (h : Does ok s run Q) (hQ : ∀ a s', Q a s' → Q'' a s') :
    Does ok s run Q'' :=
  h.imp_right fun ⟨hok, a, s', hrun, href, hq⟩ => ⟨hok, a, s', hrun, href, hQ a s' hq⟩

theorem Does.congr (h : Does p s run Q) (hok : p ↔ q) : Does q s run Q := by
  rwa [← propext hok]

/-- A loop whose rounds do not take back refusals. -/
theorem foldlM_refused_le {f : α × State → β → Option (α × State)} {l : List β}
    (hf : ∀ b ∈ l, ∀ st st', f st b = some st' → st.2.refused ≤ st'.2.refused) {st st' : α × State}
    (h : l.foldlM f st = some st') : st.2.refused ≤ st'.2.refused := by
  induction l generalizing st with
  | nil =>
    obtain rfl := Option.some.inj h
    exact le_rfl
  | cons b l ih =>
    obtain ⟨st₁, hfirst, hrest⟩ := Option.bind_eq_some_iff.1 h
    exact (hf b List.mem_cons_self st st₁ hfirst).trans
      (ih (fun b' hb' => hf b' (List.mem_cons_of_mem _ hb')) hrest)

end Does

/-! ## Writes -/

/-- The page tables with the pages of the addresses that are written. -/
def withWrites (shape : Finset (List Nat)) (ws : List (Nat × Option UInt8)) : Finset (List Nat) :=
  ws.foldl (fun shape w => withPath shape w.1) shape

/-- What is known of an address space after a write. An address names a byte by its lowest 39 bits. -/
def put (M : Nat → Option UInt8) (w : Nat × Option UInt8) : Nat → Option UInt8 :=
  Function.update M (w.1 % 2 ^ 39) w.2

/-- The address space has the bytes that are known. -/
def Shows (s : State) (r : Nat) (M : Nat → Option UInt8) : Prop :=
  ∀ x v, M (x % 2 ^ 39) = some v → userByte s r x = some v

/-- **The writes `ws` are done.** -/
structure Written (s s' : State) (roots F F' : List Nat) (r : Nat) (ws : List (Nat × Option UInt8)) : Prop where
  inv : Inv s' roots F'
  confined : Confined s s' F F' r
  shape : treeShape s'.mem r = withWrites (treeShape s.mem r) ws
  shows : ∀ M, Shows s r M → Shows s' r (ws.foldl put M)

theorem Written.refl (h : Inv s roots F) : Written s s roots F F r [] :=
  ⟨h, Confined.refl s F r, rfl, fun _ hM => hM⟩

theorem Written.trans (h₁ : Written s s' roots F F' r ws) (h₂ : Written s' s'' roots F' F'' r ws') :
    Written s s'' roots F F'' r (ws ++ ws') where
  inv := h₂.inv
  confined := h₁.confined.trans h₂.confined
  shape := by rw [h₂.shape, h₁.shape, withWrites, withWrites, withWrites, List.foldl_append]
  shows M hM := by
    rw [List.foldl_append]
    exact h₂.shows _ (h₁.shows M hM)

theorem withWrites_cons (shape : Finset (List Nat)) (w : Nat × Option UInt8) (ws : List (Nat × Option UInt8)) :
    withWrites shape (w :: ws) = withWrites (withPath shape w.1) ws := rfl

theorem subset_withWrites (shape : Finset (List Nat)) (ws : List (Nat × Option UInt8)) :
    shape ⊆ withWrites shape ws := by
  induction ws generalizing shape with
  | nil => exact Finset.Subset.refl _
  | cons w ws ih =>
    refine Finset.Subset.trans ?_ (ih (withPath shape w.1))
    rw [withPath, withTables]
    exact (Finset.subset_insert _ _).trans ((Finset.subset_insert _ _).trans (Finset.subset_insert _ _))

/-- Room for all writes is room for the first ones. -/
theorem Written.short_iff (h : Written s s' roots F F' r ws) :
    Short s' F' r (withWrites (treeShape s'.mem r) ws') ↔
      Short s F r (withWrites (treeShape s.mem r) (ws ++ ws')) := by
  rw [h.confined.short_iff, h.shape, withWrites, withWrites, withWrites, List.foldl_append]

/-! ## One byte -/

/-- `addr & 0xFFFFFFFFFFFFF000` -/
theorem page_eq (h : addr < wordSize) : addr &&& 0xFFFFFFFFFFFFF000 = addr / 4096 * 4096 := by
  have hmask : 0xFFFFFFFFFFFFF000 = (2 ^ 52 - 1) * 2 ^ 12 := by decide
  refine Nat.eq_of_testBit_eq fun i => ?_
  have hshift : addr / 4096 * 4096 = addr / 2 ^ 12 % 2 ^ 52 * 2 ^ 12 := by
    unfold wordSize at h
    omega
  rw [hshift, hmask, Nat.testBit_and, Nat.testBit_mul_two_pow, Nat.testBit_mul_two_pow, Nat.testBit_two_pow_sub_one,
    Nat.testBit_mod_two_pow, Nat.testBit_div_two_pow]
  by_cases h : 12 ≤ i
  · rw [Nat.sub_add_cancel h]
    simp [h, Bool.and_comm]
  · simp [h]

/-- `addr & 0xFFF` -/
theorem offs_eq (addr : Nat) : addr &&& 0xFFF = addr % 4096 := Nat.and_two_pow_sub_one_eq_mod addr 12

theorem pathOf_page (addr : Nat) : pathOf (addr / 4096 * 4096) = pathOf addr :=
  pathOf_eq_iff_mod.2 (by omega)

/-- A cache that is not empty has the page of its address. -/
def Cached (s : State) (r : Nat) (c : Cache) : Prop :=
  c.lastPageBuffer ≠ 0 → ∃ f, frameOf s r c.lastPage = some f ∧ c.lastPageBuffer = highMemBase + f

/-- An empty cache does not take the page for its own. -/
def Starts (c : Cache) (addr : Nat) : Prop := c.lastPageBuffer = 0 → addr / 4096 * 4096 ≠ c.lastPage

theorem refused_mapped {page : Nat} {st : Cache × State}
    (h : (mapProcessPage e page s).map (fun r => ((⟨page, r.1⟩ : Cache), r.2)) = some st) :
    s.refused ≤ st.2.refused := by
  obtain ⟨⟨p, s'⟩, hrun, rfl⟩ := Option.map_eq_some_iff.1 h
  exact mapProcessPage_refused_le hrun

/-- `putByte` in its two parts. -/
theorem putByte_eq (haddr : addr < wordSize) : putByte e addr value (c, s) =
    (if addr / 4096 * 4096 ≠ c.lastPage then
      (mapProcessPage e (addr / 4096 * 4096) s).map fun r => ((⟨addr / 4096 * 4096, r.1⟩ : Cache), r.2)
    else some (c, s)).bind fun st => value.bind fun v =>
      if st.1.lastPageBuffer = 0 then none
      else some (st.1, st.2.storeByte (st.1.lastPageBuffer + addr % 4096) v) := by
  rw [putByte, page_eq haddr, offs_eq]
  by_cases hpage : addr / 4096 * 4096 ≠ c.lastPage
  · rw [if_pos hpage, if_pos hpage]
    rfl
  · rw [if_neg hpage, if_neg hpage]
    rfl

theorem refused_stored {st st' : Cache × State} {o : Nat} (h : (value.bind fun v =>
    if st.1.lastPageBuffer = 0 then none else some (st.1, st.2.storeByte (st.1.lastPageBuffer + o) v)) = some st') :
    st.2.refused ≤ st'.2.refused := by
  obtain ⟨v, -, h⟩ := Option.bind_eq_some_iff.1 h
  split at h
  · cases h
  · obtain rfl := Option.some.inj h
    exact le_rfl

theorem putByte_refused_le (haddr : addr < wordSize) {st st' : Cache × State}
    (h : putByte e addr value st = some st') : st.2.refused ≤ st'.2.refused := by
  obtain ⟨c, s⟩ := st
  rw [putByte_eq haddr] at h
  obtain ⟨st₁, hpage, h⟩ := Option.bind_eq_some_iff.1 h
  refine le_trans ?_ (refused_stored h)
  split at hpage
  · exact refused_mapped hpage
  · obtain rfl := Option.some.inj hpage
    exact le_rfl

/-- The page of an address is mapped for the cache. -/
theorem map_does (h : Inv s roots F) (hr : pmlGetAddr e ∈ roots) (addr : Nat) :
    Does (¬ Short s F (pmlGetAddr e) (withPath (treeShape s.mem (pmlGetAddr e)) addr)) s
      ((mapProcessPage e (addr / 4096 * 4096) s).map fun r => ((⟨addr / 4096 * 4096, r.1⟩ : Cache), r.2))
      fun c' s' => c'.lastPage = addr / 4096 * 4096 ∧ c'.lastPageBuffer ≠ 0 ∧ Cached s' (pmlGetAddr e) c' ∧
        ∃ F', Inv s' roots F' ∧ Confined s s' F F' (pmlGetAddr e) ∧
          treeShape s'.mem (pmlGetAddr e) = withPath (treeShape s.mem (pmlGetAddr e)) addr ∧
          ∀ M, Shows s (pmlGetAddr e) M → Shows s' (pmlGetAddr e) M := by
  have hpath : withPath (treeShape s.mem (pmlGetAddr e)) (addr / 4096 * 4096) =
      withPath (treeShape s.mem (pmlGetAddr e)) addr := by
    have heq := pathOf_page addr
    simp only [pathOf, List.cons.injEq] at heq
    rw [withPath, withPath, withTables, withTables, pathOf_page, heq.1, heq.2.1]
  rcases mapProcessPage_confined h hr (addr / 4096 * 4096) with
    ⟨hshort, hbad⟩ | ⟨f, s', F', henough, hrun, hinv, hconfined, hshape, hpage, hbytes⟩
  · rw [hpath] at hshort
    refine .inl ⟨not_not_intro hshort, fun st hst => ?_⟩
    obtain ⟨⟨p, s'⟩, hrun, rfl⟩ := Option.map_eq_some_iff.1 hst
    exact hbad p s' hrun
  · rw [hpath] at henough hshape
    refine .inr ⟨henough, ⟨addr / 4096 * 4096, highMemBase + f⟩, s', by rw [hrun]; rfl, hconfined.refused, rfl, ?_,
      fun _ => ⟨f, hpage, rfl⟩, F', hinv, hconfined, hshape, fun M hM x v hx => hbytes x v (hM x v hx)⟩
    unfold highMemBase
    dsimp only
    omega

/-- A byte is stored through the cache. -/
theorem store_does (h : Inv s roots F) (hr : r ∈ roots) (hc : Cached s r c) (hnull : c.lastPageBuffer ≠ 0)
    (hpage : c.lastPage = addr / 4096 * 4096) (value : Option UInt8) :
    Does (value.isSome = true) s (value.bind fun v =>
      if c.lastPageBuffer = 0 then none else some (c, s.storeByte (c.lastPageBuffer + addr % 4096) v))
      fun c' s' => c' = c ∧ Cached s' r c ∧ Inv s' roots F ∧ Confined s s' F F r ∧
        treeShape s'.mem r = treeShape s.mem r ∧ ∀ M, Shows s r M → Shows s' r (put M (addr, value)) := by
  cases value with
  | none => exact .inl ⟨by simp, fun _ hst => by cases hst⟩
  | some v =>
    obtain ⟨f, hf, hbuffer⟩ := hc hnull
    obtain ⟨hinv, hconfined, hframes, hshape, hbytes⟩ :=
      @storeByte_mapped s roots F r c.lastPage f (addr % 4096) v h hr hf (Nat.mod_lt _ (by decide))
    have hpath : pathOf c.lastPage = pathOf addr := by rw [hpage, pathOf_page]
    rw [Option.bind_some, if_neg hnull, hbuffer]
    refine .inr ⟨rfl, c, _, rfl, rfl, rfl, fun _ => ⟨f, ?_, hbuffer⟩, hinv, hconfined, hshape, fun M hM x w hx => ?_⟩
    · rw [hframes r hr, hf]
    · rw [hbytes x, hpath]
      rw [put] at hx
      by_cases hplace : pathOf x = pathOf addr ∧ x % 4096 = addr % 4096
      · rw [place_eq_iff.1 hplace, Function.update_self] at hx
        rw [if_pos hplace]
        exact hx
      · rw [Function.update_of_ne fun heq => hplace (place_eq_iff.2 heq)] at hx
        rw [if_neg hplace]
        exact hM x w hx

/-- A page that is mapped needs no frames. -/
theorem withPath_of_mapped (h : Inv s roots F) (hr : pmlGetAddr e ∈ roots) {f : Nat}
    (hf : frameOf s (pmlGetAddr e) addr = some f) :
    withPath (treeShape s.mem (pmlGetAddr e)) addr = treeShape s.mem (pmlGetAddr e) ∧
      ¬ Short s F (pmlGetAddr e) (withPath (treeShape s.mem (pmlGetAddr e)) addr) := by
  have hmapped := mapProcessPage_of_mapped h hr hf
  rcases mapProcessPage_confined h hr addr with ⟨-, hbad⟩ | ⟨f', s', F', henough, hrun, -, -, hshape, -⟩
  · exact absurd (hbad _ s hmapped) (Nat.lt_irrefl _)
  · rw [hmapped] at hrun
    obtain ⟨-, rfl⟩ := Prod.mk.inj (Option.some.inj hrun)
    exact ⟨hshape.symm, henough⟩

/-- **One byte is put**, or it is missing, or the cache is wrong, or there are too few frames. -/
theorem putByte_does (h : Inv s roots F) (hr : pmlGetAddr e ∈ roots) (hc : Cached s (pmlGetAddr e) c)
    (haddr : addr < wordSize) (value : Option UInt8) :
    Does (value.isSome = true ∧ Starts c addr ∧
        ¬ Short s F (pmlGetAddr e) (withPath (treeShape s.mem (pmlGetAddr e)) addr)) s
      (putByte e addr value (c, s))
      fun c' s' => c'.lastPageBuffer ≠ 0 ∧ Cached s' (pmlGetAddr e) c' ∧
        ∃ F', Written s s' roots F F' (pmlGetAddr e) [(addr, value)] := by
  rw [putByte_eq haddr]
  by_cases hpage : addr / 4096 * 4096 = c.lastPage
  · rw [if_neg (not_not_intro hpage), Option.bind_some]
    by_cases hnull : c.lastPageBuffer = 0
    · refine .inl ⟨fun hok => hok.2.1 hnull hpage, fun st hst => ?_⟩
      obtain ⟨v, -, hst⟩ := Option.bind_eq_some_iff.1 hst
      rw [if_pos hnull] at hst
      cases hst
    · obtain ⟨f, hf, -⟩ := hc hnull
      have hf' : frameOf s (pmlGetAddr e) addr = some f := by
        rw [frameOf, ← pathOf_page, hpage]
        exact hf
      obtain ⟨hshape, henough⟩ := withPath_of_mapped h hr hf'
      rcases store_does h hr hc hnull hpage.symm value with ⟨hno, hbad⟩ | ⟨hok, c', s', hrun, href, rfl, hq⟩
      · exact .inl ⟨fun hok => hno hok.1, hbad⟩
      · refine .inr ⟨⟨hok, fun h => absurd h hnull, henough⟩, c', s', hrun, href, hnull, hq.1, F, hq.2.1, hq.2.2.1, ?_,
          hq.2.2.2.2⟩
        rw [hq.2.2.2.1]
        exact hshape.symm
  · rw [if_pos hpage]
    have hstarts : Starts c addr := fun _ => hpage
    refine (map_does h hr addr).bind (q := value.isSome = true) ?_ (fun _ _ => refused_stored) ?_
    · exact ⟨fun hok => ⟨hok.2.2, hok.1⟩, fun hok => ⟨hok.2, hstarts, hok.1⟩⟩
    · rintro c₁ s₁ ⟨hlast, hnull, hcached, F₁, hinv, hconfined, hshape, hshows⟩
      refine (store_does hinv hr hcached hnull hlast value).mono ?_
      rintro c' s' ⟨rfl, hcached', hinv', hconfined', hshape', hshows'⟩
      refine ⟨hnull, hcached', F₁, hinv', hconfined.trans hconfined', ?_, fun M hM => hshows' M (hshows M hM)⟩
      rw [hshape', hshape]
      rfl

/-! ## Many bytes -/

/-- A list of writes through the cache. -/
def putBytes (e : Nat) (ws : List (Nat × Option UInt8)) (st : Cache × State) : Option (Cache × State) :=
  ws.foldlM (fun st w => putByte e w.1 w.2 st) st

theorem putBytes_refused_le (haddr : ∀ w ∈ ws, w.1 < wordSize) {st st' : Cache × State}
    (h : putBytes e ws st = some st') : st.2.refused ≤ st'.2.refused :=
  foldlM_refused_le (fun w hw _ _ => putByte_refused_le (haddr w hw)) h

/-- **The writes of a segment** are done if each byte is there, the first page is not taken for the cached one, and
there are enough frames. -/
theorem putBytes_does (h : Inv s roots F) (hr : pmlGetAddr e ∈ roots) (hc : Cached s (pmlGetAddr e) c)
    (haddr : ∀ w ∈ ws, w.1 < wordSize) :
    Does ((∀ w ∈ ws, w.2.isSome = true) ∧ (∀ w ∈ ws.head?, Starts c w.1) ∧
        ¬ Short s F (pmlGetAddr e) (withWrites (treeShape s.mem (pmlGetAddr e)) ws)) s
      (putBytes e ws (c, s)) fun _ s' => ∃ F', Written s s' roots F F' (pmlGetAddr e) ws := by
  induction ws generalizing s F c with
  | nil =>
    refine .inr ⟨⟨by simp, by simp, ?_⟩, c, s, rfl, rfl, F, Written.refl h⟩
    rw [withWrites, List.foldl_nil, Short]
    exact Nat.not_lt.2 (Nat.le_add_left _ _)
  | cons w ws ih =>
    have hsub : withPath (treeShape s.mem (pmlGetAddr e)) w.1 ⊆
        withWrites (treeShape s.mem (pmlGetAddr e)) (w :: ws) := by
      rw [withWrites_cons]
      exact subset_withWrites _ ws
    refine (putByte_does h hr hc (haddr w List.mem_cons_self) w.2).bind
      (q := (∀ w' ∈ ws, w'.2.isSome = true) ∧
        ¬ Short s F (pmlGetAddr e) (withWrites (treeShape s.mem (pmlGetAddr e)) (w :: ws))) ?_
      (fun _ _ => putBytes_refused_le fun w' hw' => haddr w' (List.mem_cons_of_mem _ hw')) ?_
    · simp only [List.forall_mem_cons, List.head?_cons, Option.mem_some_iff, forall_eq']
      constructor
      · rintro ⟨⟨hfirst, hrest⟩, hstarts, hroom⟩
        exact ⟨⟨hfirst, hstarts, fun hshort => hroom (hshort.mono hsub)⟩, hrest, hroom⟩
      · rintro ⟨⟨hfirst, hstarts, -⟩, hrest, hroom⟩
        exact ⟨⟨hfirst, hrest⟩, hstarts, hroom⟩
    · rintro c' s₁ ⟨hnull, hcached, F₁, hwritten⟩
      have htrans : ∀ s'', (∃ F'', Written s₁ s'' roots F₁ F'' (pmlGetAddr e) ws) →
          ∃ F'', Written s s'' roots F F'' (pmlGetAddr e) ([w] ++ ws) := by
        rintro s'' ⟨F'', hw⟩
        exact ⟨F'', hwritten.trans hw⟩
      have hrest := (ih hwritten.inv hcached fun w' hw' => haddr w' (List.mem_cons_of_mem _ hw')).mono
        fun _ s'' => htrans s''
      refine hrest.congr ?_
      rw [hwritten.short_iff]
      exact and_congr_right fun _ => ⟨fun hok => hok.2, fun hroom => ⟨fun _ _ h => absurd h hnull, hroom⟩⟩

/-! ## Segments -/

/-- What the two loops put for a segment. -/
def segmentWrites (buffer : Buffer) (seg : ElfSegmentHeader) : List (Nat × Option UInt8) :=
  (List.range seg.extent).map fun i => ((seg.virtualAddress + i) % wordSize,
    if i < seg.dataSize then buffer.byte ((seg.dataOffset + i) % wordSize) else some 0)

theorem loadSegment_eq (s : State) : loadSegment buffer e seg s =
    (putBytes e (segmentWrites buffer seg) (Cache.empty, s)).map Prod.snd := by
  have hextent : seg.extent = seg.dataSize + (seg.virtualSize - seg.dataSize) := by
    unfold ElfSegmentHeader.extent
    omega
  have hrange : List.range seg.extent =
      List.range seg.dataSize ++ List.range' seg.dataSize (seg.virtualSize - seg.dataSize) := by
    rw [List.range_eq_range', List.range_eq_range', hextent]
    have happend := @List.range'_append_1 0 seg.dataSize (seg.virtualSize - seg.dataSize)
    rw [Nat.zero_add] at happend
    exact happend.symm
  have hdata : (List.range seg.dataSize).map (fun i => ((seg.virtualAddress + i) % wordSize,
      if i < seg.dataSize then buffer.byte ((seg.dataOffset + i) % wordSize) else some 0)) =
      (List.range seg.dataSize).map fun i => ((seg.virtualAddress + i) % wordSize,
        buffer.byte ((seg.dataOffset + i) % wordSize)) :=
    List.map_congr_left fun i hi => by rw [if_pos (List.mem_range.1 hi)]
  have hzero : (List.range' seg.dataSize (seg.virtualSize - seg.dataSize)).map (fun i =>
      ((seg.virtualAddress + i) % wordSize,
        if i < seg.dataSize then buffer.byte ((seg.dataOffset + i) % wordSize) else some 0)) =
      (List.range' seg.dataSize (seg.virtualSize - seg.dataSize)).map fun i =>
        ((seg.virtualAddress + i) % wordSize, some 0) :=
    List.map_congr_left fun i hi => by rw [if_neg (Nat.not_lt.2 (List.mem_range'_1.1 hi).1)]
  rw [segmentWrites, hrange, List.map_append, hdata, hzero, putBytes, List.foldlM_append, List.foldlM_map]
  simp only [List.foldlM_map]
  rw [loadSegment]
  simp only [Option.bind_eq_bind, Option.map_eq_bind, Option.bind_assoc]
  rfl

/-- The bytes of a segment that the file has are in the buffer. -/
def FileBacked (buffer : Buffer) (seg : ElfSegmentHeader) : Prop :=
  ∀ i < seg.dataSize, (seg.dataOffset + i) % wordSize < buffer.bufferSize

/-- A segment does not begin in page 0, unless it is empty. -/
def OffPageZero (seg : ElfSegmentHeader) : Prop := 0 < seg.extent → 4096 ≤ seg.virtualAddress

theorem isSome_byte {a : Nat} : (buffer.byte a).isSome = true ↔ a < buffer.bufferSize := by
  rw [Buffer.byte]
  split <;> simp_all

theorem values_iff : (∀ w ∈ segmentWrites buffer seg, w.2.isSome = true) ↔ FileBacked buffer seg := by
  simp only [segmentWrites, List.forall_mem_map, List.mem_range]
  constructor
  · intro h i hi
    have hsome := h i (Nat.lt_of_lt_of_le hi (Nat.le_max_left ..))
    rwa [if_pos hi, isSome_byte] at hsome
  · intro h i _
    by_cases hi : i < seg.dataSize
    · rw [if_pos hi, isSome_byte]
      exact h i hi
    · rw [if_neg hi]
      rfl

theorem starts_iff (hva : seg.virtualAddress < wordSize) :
    (∀ w ∈ (segmentWrites buffer seg).head?, Starts Cache.empty w.1) ↔ OffPageZero seg := by
  have hmod : (seg.virtualAddress + 0) % wordSize = seg.virtualAddress := Nat.mod_eq_of_lt hva
  rw [segmentWrites, OffPageZero]
  cases seg.extent with
  | zero => simp
  | succ k =>
    rw [List.range_succ_eq_map, List.map_cons, List.head?_cons]
    simp only [Option.mem_some_iff, forall_eq', Starts, Cache.empty]
    rw [hmod, true_implies]
    omega

/-- **A segment is loaded.** -/
theorem loadSegment_does (h : Inv s roots F) (hr : pmlGetAddr e ∈ roots) (hva : seg.virtualAddress < wordSize) :
    Does ((FileBacked buffer seg ∧ OffPageZero seg) ∧
        ¬ Short s F (pmlGetAddr e) (withWrites (treeShape s.mem (pmlGetAddr e)) (segmentWrites buffer seg))) s
      (putBytes e (segmentWrites buffer seg) (Cache.empty, s))
      fun _ s' => ∃ F', Written s s' roots F F' (pmlGetAddr e) (segmentWrites buffer seg) := by
  refine (putBytes_does h hr (fun h => absurd rfl h) fun w hw => ?_).congr ?_
  · obtain ⟨i, -, rfl⟩ := List.mem_map.1 hw
    exact Nat.mod_lt _ (by decide)
  · rw [values_iff, starts_iff hva, and_assoc]

/-! ## Program headers -/

/-- What is read of a program header is in the buffer. -/
def HeaderReadable (buffer : Buffer) (i : Nat) : Prop :=
  segmentAt buffer.bytes i + 4 ≤ buffer.bufferSize ∧
    (isLoaded (segment buffer.bytes i).type → segmentAt buffer.bytes i + 48 ≤ buffer.bufferSize)

/-- A segment can be loaded, as far as the file is concerned. -/
def SegmentOk (buffer : Buffer) (i : Nat) : Prop :=
  HeaderReadable buffer i ∧ (isLoaded (segment buffer.bytes i).type →
    FileBacked buffer (segment buffer.bytes i) ∧ OffPageZero (segment buffer.bytes i))

instance decidableHeaderReadable (buffer : Buffer) (i : Nat) : Decidable (HeaderReadable buffer i) := instDecidableAnd

theorem readSegment_eq (i : Nat) : readSegment buffer i = if HeaderReadable buffer i then
    some (if isLoaded (segment buffer.bytes i).type then some (segment buffer.bytes i) else none) else none := by
  have htype : (segment buffer.bytes i).type = Words.word buffer.bytes 4 (segmentAt buffer.bytes i) := rfl
  have hword : ∀ k, segmentAt buffer.bytes i + k + 8 ≤ buffer.bufferSize →
      buffer.word 8 (segmentAt buffer.bytes i + k) = some (Words.word buffer.bytes 8 (segmentAt buffer.bytes i + k)) :=
    fun k hk => if_pos hk
  rw [readSegment]
  by_cases hfirst : segmentAt buffer.bytes i + 4 ≤ buffer.bufferSize
  · have hread : buffer.word 4 (segmentAt buffer.bytes i) = some (segment buffer.bytes i).type := if_pos hfirst
    simp only [hread, Option.bind_eq_bind, Option.bind_some]
    by_cases hloaded : isLoaded (segment buffer.bytes i).type
    · rw [if_pos hloaded]
      by_cases hall : segmentAt buffer.bytes i + 48 ≤ buffer.bufferSize
      · rw [hword 8 (by omega), hword 16 (by omega), hword 32 (by omega), hword 40 (by omega),
          if_pos ⟨hfirst, fun _ => hall⟩, if_pos hloaded]
        rfl
      · have hlast : buffer.word 8 (segmentAt buffer.bytes i + 40) = none := if_neg (by omega)
        rw [if_neg fun h => hall (h.2 hloaded), hlast]
        simp only [Option.bind_none, Option.bind_fun_none]
    · rw [if_neg hloaded, if_pos ⟨hfirst, fun h => absurd h hloaded⟩, if_neg hloaded]
  · have hread : buffer.word 4 (segmentAt buffer.bytes i) = none := if_neg hfirst
    rw [hread, if_neg fun h => hfirst h.1]
    rfl

/-- What the loop over the headers puts. -/
def imageWrites (buffer : Buffer) (is : List Nat) : List (Nat × Option UInt8) :=
  is.flatMap fun i =>
    if isLoaded (segment buffer.bytes i).type then segmentWrites buffer (segment buffer.bytes i) else []

/-- What it leaves in `progInfo`. -/
def tlsInfo (buffer : Buffer) (is : List Nat) (progInfo : ELFProgramInfo) : ELFProgramInfo :=
  is.foldl (fun info i =>
    if (segment buffer.bytes i).type = PT_TLS then
      { info with
        masterTLSAddress := (segment buffer.bytes i).virtualAddress
        masterTLSSize := (segment buffer.bytes i).virtualSize }
    else info) progInfo

theorem loadHeader_of_loaded {i : Nat} (hread : HeaderReadable buffer i)
    (hloaded : isLoaded (segment buffer.bytes i).type) (progInfo : ELFProgramInfo) (s : State) :
    loadHeader buffer e (progInfo, s) i =
      (putBytes e (segmentWrites buffer (segment buffer.bytes i)) (Cache.empty, s)).bind fun st =>
        some (tlsInfo buffer [i] progInfo, st.2) := by
  rw [loadHeader, readSegment_eq, if_pos hread, if_pos hloaded]
  simp only [Option.bind_eq_bind, Option.bind_some, loadSegment_eq, Option.map_eq_bind, Option.bind_assoc]
  refine Option.bind_congr fun st _ => ?_
  rw [tlsInfo, List.foldl_cons, List.foldl_nil]
  split <;> rfl

theorem loadHeader_of_not_loaded {i : Nat} (hread : HeaderReadable buffer i)
    (hloaded : ¬ isLoaded (segment buffer.bytes i).type) (st : ELFProgramInfo × State) :
    loadHeader buffer e st i = some st := by
  rw [loadHeader, readSegment_eq, if_pos hread, if_neg hloaded]
  rfl

theorem loadHeader_of_not_readable {i : Nat} (hread : ¬ HeaderReadable buffer i) (st : ELFProgramInfo × State) :
    loadHeader buffer e st i = none := by
  rw [loadHeader, readSegment_eq, if_neg hread]
  rfl

theorem loadHeader_refused_le {i : Nat} {st st' : ELFProgramInfo × State} (h : loadHeader buffer e st i = some st') :
    st.2.refused ≤ st'.2.refused := by
  by_cases hread : HeaderReadable buffer i
  · by_cases hloaded : isLoaded (segment buffer.bytes i).type
    · rw [loadHeader_of_loaded hread hloaded st.1 st.2] at h
      obtain ⟨st₁, hrun, h⟩ := Option.bind_eq_some_iff.1 h
      obtain rfl := Option.some.inj h
      refine putBytes_refused_le (fun w hw => ?_) hrun
      obtain ⟨i, -, rfl⟩ := List.mem_map.1 hw
      exact Nat.mod_lt _ (by decide)
    · rw [loadHeader_of_not_loaded hread hloaded] at h
      obtain rfl := Option.some.inj h
      exact le_rfl
  · rw [loadHeader_of_not_readable hread] at h
    cases h

theorem room_nil (s : State) (F : List Nat) (r : Nat) : ¬ Short s F r (withWrites (treeShape s.mem r) []) := by
  rw [withWrites, List.foldl_nil, Short]
  exact Nat.not_lt.2 (Nat.le_add_left _ _)

/-- **One program header.** -/
theorem loadHeader_does (h : Inv s roots F) (hr : pmlGetAddr e ∈ roots) (progInfo : ELFProgramInfo) (i : Nat) :
    Does (SegmentOk buffer i ∧
        ¬ Short s F (pmlGetAddr e) (withWrites (treeShape s.mem (pmlGetAddr e)) (imageWrites buffer [i]))) s
      (loadHeader buffer e (progInfo, s) i)
      fun progInfo' s' => progInfo' = tlsInfo buffer [i] progInfo ∧
        ∃ F', Written s s' roots F F' (pmlGetAddr e) (imageWrites buffer [i]) := by
  have hva : (segment buffer.bytes i).virtualAddress < wordSize := Words.word_lt
  by_cases hread : HeaderReadable buffer i
  · by_cases hloaded : isLoaded (segment buffer.bytes i).type
    · have hwrites : imageWrites buffer [i] = segmentWrites buffer (segment buffer.bytes i) := by
        rw [imageWrites, List.flatMap_singleton, if_pos hloaded]
      have hok : SegmentOk buffer i ↔ FileBacked buffer (segment buffer.bytes i) ∧ OffPageZero (segment buffer.bytes i) :=
        ⟨fun h => h.2 hloaded, fun h => ⟨hread, fun _ => h⟩⟩
      rw [loadHeader_of_loaded hread hloaded, hwrites, hok]
      refine (loadSegment_does h hr hva).bind (q := True) (iff_of_eq (and_true _).symm) ?_ ?_
      · rintro st st' hst
        obtain rfl := Option.some.inj hst
        exact le_rfl
      · exact fun _ s₁ hwritten => Does.pure trivial ⟨rfl, hwritten⟩
    · have hwrites : imageWrites buffer [i] = [] := by
        rw [imageWrites, List.flatMap_singleton, if_neg hloaded]
      have htls : tlsInfo buffer [i] progInfo = progInfo := if_neg fun h => hloaded (Or.inr h)
      rw [loadHeader_of_not_loaded hread hloaded, hwrites, htls]
      exact Does.pure ⟨⟨hread, fun h => absurd h hloaded⟩, room_nil s F _⟩ ⟨rfl, F, Written.refl h⟩
  · rw [loadHeader_of_not_readable hread]
    exact Does.fails fun hok => hread hok.1.1

/-- **The loop over the program headers.** -/
theorem loadHeaders_does (h : Inv s roots F) (hr : pmlGetAddr e ∈ roots) (progInfo : ELFProgramInfo) (is : List Nat) :
    Does ((∀ i ∈ is, SegmentOk buffer i) ∧
        ¬ Short s F (pmlGetAddr e) (withWrites (treeShape s.mem (pmlGetAddr e)) (imageWrites buffer is))) s
      (is.foldlM (loadHeader buffer e) (progInfo, s))
      fun progInfo' s' => progInfo' = tlsInfo buffer is progInfo ∧
        ∃ F', Written s s' roots F F' (pmlGetAddr e) (imageWrites buffer is) := by
  induction is generalizing s F progInfo with
  | nil => exact Does.pure ⟨by simp, room_nil s F _⟩ ⟨rfl, F, Written.refl h⟩
  | cons i is ih =>
    have hwrites : imageWrites buffer (i :: is) = imageWrites buffer [i] ++ imageWrites buffer is := by
      rw [imageWrites, imageWrites, imageWrites, List.flatMap_cons, List.flatMap_singleton]
    have hsub : withWrites (treeShape s.mem (pmlGetAddr e)) (imageWrites buffer [i]) ⊆
        withWrites (treeShape s.mem (pmlGetAddr e)) (imageWrites buffer (i :: is)) := by
      rw [hwrites, withWrites, withWrites, List.foldl_append]
      exact subset_withWrites _ _
    rw [List.foldlM_cons]
    refine (loadHeader_does h hr progInfo i).bind
      (q := (∀ j ∈ is, SegmentOk buffer j) ∧
        ¬ Short s F (pmlGetAddr e) (withWrites (treeShape s.mem (pmlGetAddr e)) (imageWrites buffer (i :: is))))
      ?_ ?_ ?_
    · rw [List.forall_mem_cons]
      constructor
      · exact fun ⟨⟨hfirst, hrest⟩, hroom⟩ => ⟨⟨hfirst, fun hshort => hroom (hshort.mono hsub)⟩, hrest, hroom⟩
      · exact fun ⟨⟨hfirst, _⟩, hrest, hroom⟩ => ⟨⟨hfirst, hrest⟩, hroom⟩
    · exact fun _ _ => foldlM_refused_le fun _ _ _ _ => loadHeader_refused_le
    · rintro progInfo₁ s₁ ⟨rfl, F₁, hwritten⟩
      refine ((ih hwritten.inv (tlsInfo buffer [i] progInfo)).congr ?_).mono ?_
      · rw [hwritten.short_iff, ← hwrites]
      · rintro progInfo' s' ⟨rfl, F', hwritten'⟩
        exact ⟨rfl, F', hwrites ▸ hwritten.trans hwritten'⟩

/-! ## The file -/

/-- A file that can be loaded: it is none for this handler, or what is read of it is in the buffer and no segment begins
in page 0. -/
def FileOk (buffer : Buffer) : Prop :=
  checkMagic buffer 0 magic = some false ∨ checkMagic buffer 0 magic = some true ∧ 58 ≤ buffer.bufferSize ∧
    ∀ i < phEntryCount buffer.bytes, SegmentOk buffer i

/-- All that is put. -/
def fileWrites (buffer : Buffer) : List (Nat × Option UInt8) :=
  if checkMagic buffer 0 magic = some true then imageWrites buffer (List.range (phEntryCount buffer.bytes)) else []

/-- What is returned. -/
def fileInfo (buffer : Buffer) : Option ELFProgramInfo :=
  if checkMagic buffer 0 magic = some true then
    some (tlsInfo buffer (List.range (phEntryCount buffer.bytes)) ELFProgramInfo.zero)
  else none

/-- **Loading a file.** -/
theorem loadImage_does (h : Inv s roots F) (hr : pmlGetAddr e ∈ roots) (buffer : Buffer) :
    Does (FileOk buffer ∧
        ¬ Short s F (pmlGetAddr e) (withWrites (treeShape s.mem (pmlGetAddr e)) (fileWrites buffer))) s
      (loadImage buffer e s)
      fun progInfo s' => progInfo = fileInfo buffer ∧
        ∃ F', Written s s' roots F F' (pmlGetAddr e) (fileWrites buffer) := by
  rw [loadImage, FileOk, fileWrites, fileInfo]
  cases hmagic : checkMagic buffer 0 magic with
  | none => exact Does.fails (by simp)
  | some b =>
    cases b with
    | false =>
      rw [if_neg (by simp), if_neg (by simp)]
      exact Does.pure ⟨Or.inl rfl, room_nil s F _⟩ ⟨rfl, F, Written.refl h⟩
    | true =>
      rw [if_pos rfl, if_pos rfl]
      simp only [Option.bind_eq_bind, Option.bind_some, if_true]
      by_cases hsize : 58 ≤ buffer.bufferSize
      · have hoffset : buffer.word 8 32 = some (phOffset buffer.bytes) := if_pos (by omega)
        have hcount : buffer.word 2 56 = some (phEntryCount buffer.bytes) := if_pos hsize
        rw [hoffset, hcount, Option.bind_some, Option.bind_some]
        refine (loadHeaders_does h hr ELFProgramInfo.zero (List.range (phEntryCount buffer.bytes))).bind
          (q := True) ?_ ?_ ?_
        · simp [hsize]
        · intro st st' hst
          obtain rfl := Option.some.inj hst
          exact le_rfl
        · rintro progInfo s₁ ⟨rfl, hwritten⟩
          exact Does.pure trivial ⟨rfl, hwritten⟩
      · have hcount : buffer.word 2 56 = none := if_neg hsize
        rw [hcount]
        refine .inl ⟨by simp [hsize], fun st hst => ?_⟩
        simp at hst

/-! ## Any file at all -/

/-- **What a loader must not do**, it has not done: all pages it wrote to were granted, were free before or of the
new address space, and neither other address spaces nor the kernel's part of this one have changed. -/
structure Survives (s s' : State) (roots F : List Nat) (r : Nat) : Prop where
  granted : s'.refused = s.refused
  confined : ∃ F', Inv s' roots F' ∧ Confined s s' F F' r
  others : ∀ r' ∈ roots, r' ≠ r → tree s'.mem r' = tree s.mem r' ∧ ∀ x ∈ tree s.mem r', SameFrame s s' x
  kernel : s'.myPML4 = s.myPML4

/-- What survives was given a file and the frames that it needs. -/
theorem Survives.ok {progInfo : Option ELFProgramInfo} (h : Inv s roots F) (hr : pmlGetAddr e ∈ roots)
    (hrun : loadImage buffer e s = some (progInfo, s')) (hs : Survives s s' roots F (pmlGetAddr e)) :
    FileOk buffer ∧
      ¬ Short s F (pmlGetAddr e) (withWrites (treeShape s.mem (pmlGetAddr e)) (fileWrites buffer)) := by
  rcases loadImage_does h hr buffer with ⟨-, hbad⟩ | ⟨hok, -⟩
  · exact absurd hs.granted (hbad _ hrun).ne'
  · exact hok

/-- The words of a file with two program headers and 8 bytes behind them. -/
def fileWord (a b : ElfSegmentHeader) : Nat → Nat
  | 0 => 0x464C457F
  | 3 => 0x11002
  | 4 => 64
  | 7 => 2
  | 8 => a.type
  | 9 => a.dataOffset
  | 10 => a.virtualAddress
  | 12 => a.dataSize
  | 13 => a.virtualSize
  | 15 => b.type
  | 16 => b.dataOffset
  | 17 => b.virtualAddress
  | 19 => b.dataSize
  | 20 => b.virtualSize
  | 22 => 0x0807060504030201
  | _ => 0

def fileOf (a b : ElfSegmentHeader) : Buffer := ⟨Words.bytes (fileWord a b), 184⟩

/-- A file with a `PT_LOAD` segment and a template for thread-local storage behind it on the same page. -/
def userFile : Buffer := fileOf ⟨PT_LOAD, 176, 0x11000, 4, 16⟩ ⟨PT_TLS, 180, 0x11010, 4, 8⟩

/-- The first 4 bytes of a file. -/
def shortFile : Buffer := ⟨userFile.bytes, 4⟩

/-- A file with a segment of one byte at address 0. -/
def pageZeroFile : Buffer := fileOf ⟨PT_LOAD, 0, 0, 0, 1⟩ ⟨PT_TLS, 180, 0x11010, 4, 8⟩

end ChenixOS.ELF.Exec
