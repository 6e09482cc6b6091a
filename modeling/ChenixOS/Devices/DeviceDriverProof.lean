import ChenixOS.Devices.DeviceDriver
import Mathlib.Data.List.Nodup
import Mathlib.Logic.Function.Basic

/-!
# The block cache is the device

A run of `GetData` and `SetData` calls sees the device as one flat array of bytes: the image of the
device, overlaid by what the calls have written. The cache stands for that overlay: a block that was
read from the device holds its part of it, and a block that is not in the cache was never written to.
-/

namespace ChenixOS.BlockDevice

variable {D : Driver} {m m' : Cache} {b : CachedBlock} {k : Nat × Nat} {cb subID blockID : Nat}

/-! ## The cache as a map -/

/-- The entry of a block. -/
def Cache.block (m : Cache) (k : Nat × Nat) : Option CachedBlock := m.find? fun cb => cb.key = k

/-- No block has two entries. -/
def Cache.Unique (m : Cache) : Prop := (m.map CachedBlock.key).Nodup

theorem Cache.block_eq_none : m.block k = none ↔ ∀ cb ∈ m, cb.key ≠ k := by
  simp [Cache.block]

theorem Cache.key_of_block (h : m.block k = some b) : b.key = k := by
  have := List.find?_some h
  simpa using this

theorem Cache.mem_of_block (h : m.block k = some b) : b ∈ m := List.mem_of_find?_eq_some h

/-- An entry that is in the cache is the one of its block. -/
theorem Cache.Unique.block_of_getElem (h : m.Unique) (hcb : m[cb]? = some b) :
    m.block b.key = some b := by
  induction m generalizing cb with
  | nil => simp at hcb
  | cons a m ih =>
    have ⟨hnot, hrest⟩ := List.nodup_cons.1 h
    cases cb with
    | zero =>
      obtain rfl : a = b := by simpa using hcb
      simp [Cache.block]
    | succ cb =>
      rw [List.getElem?_cons_succ] at hcb
      have hne : a.key ≠ b.key := by
        intro e
        exact hnot (e ▸ List.mem_map_of_mem (List.mem_of_getElem? hcb))
      have := ih hrest hcb
      simpa [Cache.block, List.find?_cons, hne] using this

theorem Cache.Unique.modify (h : m.Unique) {f : CachedBlock → CachedBlock}
    (hf : ∀ b, (f b).key = b.key) : Cache.Unique (m.modify cb f) := by
  have hmap : (m.modify cb f).map CachedBlock.key = m.map CachedBlock.key := by
    induction m generalizing cb with
    | nil => simp
    | cons a m ih =>
      cases cb with
      | zero => simp [hf]
      | succ cb => simp [ih (List.nodup_cons.1 h).2]
  rw [Cache.Unique, hmap]
  exact h

/-- Writing to an entry changes the entry of that block only. -/
theorem Cache.Unique.block_modify (h : m.Unique) {f : CachedBlock → CachedBlock}
    (hf : ∀ b, (f b).key = b.key) (hcb : m[cb]? = some b) :
    Cache.block (m.modify cb f) = Function.update m.block b.key (some (f b)) := by
  funext k
  have hcb' : (m.modify cb f)[cb]? = some (f b) := by simp [hcb]
  by_cases hk : k = b.key
  · subst hk
    rw [Function.update_self, ← hf b]
    exact (h.modify hf).block_of_getElem hcb'
  · rw [Function.update_of_ne hk]
    clear h hcb'
    induction m generalizing cb with
    | nil => simp at hcb
    | cons a m ih =>
      cases cb with
      | zero =>
        obtain rfl : a = b := by simpa using hcb
        have hne : (f a).key ≠ k := by
          rw [hf]
          exact fun e => hk e.symm
        have hne' : a.key ≠ k := fun e => hk e.symm
        simp [Cache.block, hne, hne']
      | succ cb =>
        rw [List.getElem?_cons_succ] at hcb
        have := ih hcb
        simp only [Cache.block, List.modify_succ_cons, List.find?_cons] at this ⊢
        rw [this]

theorem Cache.Unique.append (h : m.Unique) (hb : m.block b.key = none) :
    Cache.Unique (m ++ [b]) := by
  have hnot := Cache.block_eq_none.1 hb
  rw [Cache.Unique, List.map_append, List.map_singleton, List.nodup_append]
  refine ⟨h, List.nodup_singleton _, ?_⟩
  intro x hx y hy
  obtain ⟨cb, hcb, rfl⟩ := List.mem_map.1 hx
  obtain rfl := List.mem_singleton.1 hy
  exact hnot cb hcb

theorem Cache.block_append (hb : m.block b.key = none) :
    Cache.block (m ++ [b]) = Function.update m.block b.key (some b) := by
  funext k
  have happ : Cache.block (m ++ [b]) k = (m.block k).or (Cache.block [b] k) := List.find?_append
  rw [happ]
  by_cases hk : k = b.key
  · subst hk
    rw [hb, Function.update_self]
    simp [Cache.block]
  · have hne : b.key ≠ k := fun e => hk e.symm
    rw [Function.update_of_ne hk]
    simp [Cache.block, hne]

theorem Cache.data_eq (hcb : m[cb]? = some b) : m.data cb = b.data := by
  simp [Cache.data, hcb]

/-- **A lookup**: the block is there, or it is read from the device now. -/
theorem lookup_spec (D : Driver) (subID blockID : Nat) (h : m.Unique) :
    ∃ success cb b m', lookup D subID blockID m = (success, cb, m') ∧ m'.Unique ∧
      m'[cb]? = some b ∧ b.key = (subID, blockID) ∧
      m'.block = Function.update m.block (subID, blockID) (some b) ∧
      ((∃ b₀, m.block (subID, blockID) = some b₀ ∧ success = true ∧ b.data = b₀.data ∧
          b.filled = b₀.filled) ∨
        (m.block (subID, blockID) = none ∧ ∃ buffer,
          success = (D.scheduleOperation subID blockID buffer).1 ∧
          b.data = (D.scheduleOperation subID blockID buffer).2 ∧ b.filled = success)) := by
  cases hfind : m.findIdx? fun cb => cb.key = (subID, blockID) with
  | some cb =>
    obtain ⟨hlt, hkey, -⟩ := List.findIdx?_eq_some_iff_getElem.1 hfind
    have hcb : m[cb]? = some m[cb] := List.getElem?_eq_getElem hlt
    have hk : m[cb].key = (subID, blockID) := by simpa using hkey
    have hblock := h.block_modify (f := fun b => { b with refCount := b.refCount + 1 })
      (fun _ => rfl) hcb
    have hu : Cache.Unique (m.modify cb fun b => { b with refCount := b.refCount + 1 }) :=
      h.modify fun _ => rfl
    rw [hk] at hblock
    refine ⟨true, cb, { m[cb] with refCount := m[cb].refCount + 1 }, _, ?_, hu, ?_, hk, hblock,
      .inl ⟨m[cb], ?_, rfl, rfl, rfl⟩⟩
    · simp [lookup, getCachedBlock, hfind]
    · simp [hcb]
    · rw [← hk]
      exact h.block_of_getElem hcb
  | none =>
    have hnone : m.block (subID, blockID) = none := by
      rw [Cache.block_eq_none]
      simpa [List.findIdx?_eq_none_iff] using hfind
    obtain ⟨b, hb⟩ : ∃ b : CachedBlock, b = ⟨subID, blockID, 1, D.garbage m.length, false⟩ :=
      ⟨_, rfl⟩
    have hbk : b.key = (subID, blockID) := by rw [hb]; rfl
    rw [← hbk] at hnone
    have hu := h.append hnone
    have hcb : (m ++ [b])[m.length]? = some b := by simp
    obtain ⟨answer, hans⟩ : ∃ a, a = D.scheduleOperation subID blockID b.data := ⟨_, rfl⟩
    have hblock := hu.block_modify
      (f := fun b => { b with data := answer.2, filled := answer.1 }) (fun _ => rfl) hcb
    rw [Cache.block_append hnone, Function.update_idem, hbk] at hblock
    have hu' : Cache.Unique ((m ++ [b]).modify m.length
        fun b => { b with data := answer.2, filled := answer.1 }) := hu.modify fun _ => rfl
    refine ⟨answer.1, m.length, { b with data := answer.2, filled := answer.1 }, _, ?_, hu', ?_,
      hbk, hblock, .inr ⟨hbk ▸ hnone, b.data, ?_, ?_, rfl⟩⟩
    · simp only [lookup, getCachedBlock, hfind, ← hb, Cache.data_eq hcb, ← hans]
    · simp
    · rw [hans]
    · rw [hans]

/-! ## Copies -/

theorem kmemcpy_zero (dest src : Bytes) (p o : Nat) : kmemcpy dest p src o 0 = dest := by
  funext i
  simp only [kmemcpy, Nat.add_zero]
  rw [if_neg (by omega)]

/-- A copy may be made in two parts. -/
theorem kmemcpy_add (dest src : Bytes) (p o a c : Nat) :
    kmemcpy (kmemcpy dest p src o a) (p + a) src (o + a) c = kmemcpy dest p src o (a + c) := by
  funext i
  simp only [kmemcpy]
  by_cases h₁ : p + a ≤ i ∧ i < p + a + c
  · rw [if_pos h₁, if_pos (by omega)]
    congr 1
    omega
  · rw [if_neg h₁]
    by_cases h₂ : p ≤ i ∧ i < p + a
    · rw [if_pos h₂, if_pos (by omega)]
    · rw [if_neg h₂, if_neg (by omega)]

theorem sub64_eq {a b : Nat} (hle : b ≤ a) (ha : a - b < 2 ^ 64) (hb : b < 2 ^ 64) :
    sub64 a b = a - b := by
  rw [sub64, Nat.mod_eq_of_lt hb]
  have : a + 2 ^ 64 - b = a - b + 2 ^ 64 := by omega
  rw [this, Nat.add_mod_right, Nat.mod_eq_of_lt ha]

/-! ## The device and its overlay -/

/-- A block device: the geometry and the bytes of each of its sub-devices. -/
structure Device where
  blockSize : Nat → Nat
  numBlocks : Nat → Nat
  image : Nat → Bytes
  blockSize_pos : ∀ subID, 0 < blockSize subID
  blockSize_lt : ∀ subID, blockSize subID < 2 ^ 64
  numBlocks_lt : ∀ subID, numBlocks subID < 2 ^ 64
  size_le : ∀ subID, numBlocks subID * blockSize subID ≤ 2 ^ 64

/-- A driver of the device: a read that succeeds gives the bytes of the block. Any read may fail. -/
structure Device.Drives (dev : Device) (D : Driver) : Prop where
  blockSize : ∀ subID, D.blockSize subID = dev.blockSize subID
  reads : ∀ subID blockID buffer, (D.scheduleOperation subID blockID buffer).1 = true →
    ∀ i < dev.blockSize subID, (D.scheduleOperation subID blockID buffer).2 i =
      dev.image subID (blockID * dev.blockSize subID + i)

/-- The cache stands for an overlay of the device. Nothing is said about the bytes of a block whose
read failed. -/
structure Represents (dev : Device) (m : Cache) (overlay : Nat → Bytes) : Prop where
  unique : m.Unique
  current : ∀ k b, m.block k = some b → b.filled = true → ∀ i < dev.blockSize k.1,
    b.data i = overlay k.1 (k.2 * dev.blockSize k.1 + i)
  rest : ∀ k, m.block k = none → ∀ i < dev.blockSize k.1,
    overlay k.1 (k.2 * dev.blockSize k.1 + i) = dev.image k.1 (k.2 * dev.blockSize k.1 + i)

/-- What lookups do to the flags: those of the entries are kept, and those of new entries are the
success flags of their reads. -/
structure Looked (D : Driver) (m m' : Cache) : Prop where
  kept : ∀ k b, m.block k = some b → ∃ b', m'.block k = some b' ∧ b'.filled = b.filled
  new : ∀ k b', m.block k = none → m'.block k = some b' →
    ∃ buffer, b'.filled = (D.scheduleOperation k.1 k.2 buffer).1

/-- The blocks of a range are in the cache. -/
def Cached (dev : Device) (m : Cache) (subID pos n : Nat) : Prop :=
  ∀ i, pos ≤ i → i < pos + n → ∃ b, m.block (subID, i / dev.blockSize subID) = some b

/-- No block of a range is in the cache with a failed read. -/
def Filled (dev : Device) (m : Cache) (subID pos n : Nat) : Prop :=
  ∀ i, pos ≤ i → i < pos + n → ∀ b, m.block (subID, i / dev.blockSize subID) = some b →
    b.filled = true

section Overlay

variable {dev : Device} {overlay overlay' : Nat → Bytes} {m₁ : Cache}

theorem represents_nil (dev : Device) : Represents dev [] dev.image where
  unique := List.nodup_nil
  current := fun k b h => by simp [Cache.block] at h
  rest := fun _ _ _ _ => rfl

theorem Looked.refl (D : Driver) (m : Cache) : Looked D m m :=
  ⟨fun k b h => ⟨b, h, rfl⟩, fun k b h h' => by simp [h] at h'⟩

theorem Looked.trans (h₁ : Looked D m m₁) (h₂ : Looked D m₁ m') : Looked D m m' := by
  constructor
  · intro k b hb
    obtain ⟨b₁, hb₁, hf₁⟩ := h₁.kept k b hb
    obtain ⟨b', hb', hf'⟩ := h₂.kept k b₁ hb₁
    exact ⟨b', hb', hf'.trans hf₁⟩
  · intro k b' hnone hb'
    cases hk : m₁.block k with
    | none => exact h₂.new k b' hk hb'
    | some b₁ =>
      obtain ⟨b₂, hb₂, hf₂⟩ := h₂.kept k b₁ hk
      obtain rfl : b₂ = b' := by simpa [hb₂] using hb'
      obtain ⟨buffer, hf₁⟩ := h₁.new k b₁ hnone hk
      exact ⟨buffer, hf₂.trans hf₁⟩

/-- An entry is written with bytes of the overlay as it is afterwards. -/
theorem Represents.write (h : Represents dev m overlay) (hu : m'.Unique)
    (hblock : m'.block = Function.update m.block k (some b))
    (hcurrent : b.filled = true → ∀ i < dev.blockSize k.1,
      b.data i = overlay' k.1 (k.2 * dev.blockSize k.1 + i))
    (hsame : ∀ k', k' ≠ k → ∀ i < dev.blockSize k'.1,
      overlay' k'.1 (k'.2 * dev.blockSize k'.1 + i) = overlay k'.1 (k'.2 * dev.blockSize k'.1 + i)) :
    Represents dev m' overlay' := by
  refine ⟨hu, ?_, ?_⟩
  · intro k' b' hb' hf i hi
    by_cases hk : k' = k
    · subst hk
      obtain rfl : b = b' := by simpa [hblock] using hb'
      exact hcurrent hf i hi
    · rw [hblock, Function.update_of_ne hk] at hb'
      rw [hsame k' hk i hi]
      exact h.current k' b' hb' hf i hi
  · intro k' hk' i hi
    have hk : k' ≠ k := by
      intro e
      simp [hblock, e] at hk'
    rw [hblock, Function.update_of_ne hk] at hk'
    rw [hsame k' hk i hi]
    exact h.rest k' hk' i hi

/-- **A lookup keeps the overlay**, and the bytes of the block are those of the overlay unless its
read failed. -/
theorem Represents.lookup_spec (hD : dev.Drives D) (h : Represents dev m overlay)
    (subID blockID : Nat) :
    ∃ success cb b m', BlockDevice.lookup D subID blockID m = (success, cb, m') ∧
      Represents dev m' overlay ∧ Looked D m m' ∧ m'[cb]? = some b ∧ b.key = (subID, blockID) ∧
      m'.block = Function.update m.block (subID, blockID) (some b) ∧
      (b.filled = true → ∀ i < dev.blockSize subID,
        b.data i = overlay subID (blockID * dev.blockSize subID + i)) ∧
      (success = false → m.block (subID, blockID) = none ∧ b.filled = false) ∧
      (success = true → m.block (subID, blockID) = none → b.filled = true) := by
  obtain ⟨success, cb, b, m', hrun, hu, hcb, hkey, hblock, hcase⟩ :=
    BlockDevice.lookup_spec D subID blockID h.unique
  have hcur : b.filled = true → ∀ i < dev.blockSize subID,
      b.data i = overlay subID (blockID * dev.blockSize subID + i) := by
    intro hf i hi
    rcases hcase with ⟨b₀, hb₀, -, hdata, hfilled⟩ | ⟨hnone, buffer, hs, hdata, hfilled⟩
    · rw [hdata]
      exact h.current _ b₀ hb₀ (hfilled ▸ hf) i hi
    · rw [hdata, hD.reads _ _ _ (by rw [← hs, ← hfilled, hf]) i hi]
      exact (h.rest _ hnone i hi).symm
  refine ⟨success, cb, b, m', hrun, h.write hu hblock hcur fun _ _ _ _ => rfl, ⟨?_, ?_⟩, hcb, hkey,
    hblock, hcur, ?_, ?_⟩
  · intro k b₀ hb₀
    by_cases hk : k = (subID, blockID)
    · subst hk
      refine ⟨b, by simp [hblock], ?_⟩
      rcases hcase with ⟨b₁, hb₁, -, -, hfilled⟩ | ⟨hnone, -⟩
      · obtain rfl : b₁ = b₀ := by simpa [hb₁] using hb₀
        exact hfilled
      · simp [hnone] at hb₀
    · exact ⟨b₀, by rw [hblock, Function.update_of_ne hk, hb₀], rfl⟩
  · intro k b' hnone hb'
    have hk : k = (subID, blockID) := by
      by_contra hk
      rw [hblock, Function.update_of_ne hk, hnone] at hb'
      cases hb'
    subst hk
    obtain rfl : b = b' := by simpa [hblock] using hb'
    rcases hcase with ⟨b₁, hb₁, -⟩ | ⟨-, buffer, hs, -, hfilled⟩
    · simp [hb₁] at hnone
    · exact ⟨buffer, hfilled.trans hs⟩
  · rcases hcase with ⟨b₀, -, hs, -⟩ | ⟨hnone, buffer, -, -, hfilled⟩
    · simp [hs]
    · exact fun hs => ⟨hnone, hfilled.trans hs⟩
  · rcases hcase with ⟨b₀, hb₀, -⟩ | ⟨-, buffer, -, -, hfilled⟩
    · simp [hb₀]
    · exact fun hs _ => hfilled.trans hs

/-- An entry is written to, and the overlay with it. -/
theorem Represents.modify (h : Represents dev m overlay) (hcb : m[cb]? = some b)
    {f : CachedBlock → CachedBlock} (hkey : ∀ b, (f b).key = b.key)
    (hfilled : ∀ b, (f b).filled = b.filled)
    (hcurrent : b.filled = true → ∀ i < dev.blockSize b.subID,
      (f b).data i = overlay' b.subID (b.blockID * dev.blockSize b.subID + i))
    (hsame : ∀ k', k' ≠ b.key → ∀ i < dev.blockSize k'.1,
      overlay' k'.1 (k'.2 * dev.blockSize k'.1 + i) = overlay k'.1 (k'.2 * dev.blockSize k'.1 + i)) :
    Represents dev (m.modify cb f) overlay' ∧ Looked D m (m.modify cb f) := by
  have hblock := h.unique.block_modify hkey hcb
  refine ⟨h.write (h.unique.modify hkey) hblock (fun hf => hcurrent (hfilled b ▸ hf)) hsame, ?_, ?_⟩
  · intro k b₀ hb₀
    by_cases hk : k = b.key
    · subst hk
      obtain rfl : b = b₀ := by simpa [h.unique.block_of_getElem hcb] using hb₀
      exact ⟨f b, by simp [hblock], hfilled b⟩
    · exact ⟨b₀, by rw [hblock, Function.update_of_ne hk, hb₀], rfl⟩
  · intro k b' hnone hb'
    have hk : k ≠ b.key := by
      intro e
      rw [e, h.unique.block_of_getElem hcb] at hnone
      cases hnone
    rw [hblock, Function.update_of_ne hk, hnone] at hb'
    cases hb'

/-- Releasing an entry keeps its bytes. -/
theorem Represents.release (h : Represents dev m overlay) (hcb : m[cb]? = some b) :
    ∃ b', Represents dev (releaseCachedBlock cb m) overlay ∧
      Looked D m (releaseCachedBlock cb m) ∧
      (releaseCachedBlock cb m).block = Function.update m.block b.key (some b') ∧
      b'.filled = b.filled := by
  have hkey : ∀ b : CachedBlock, CachedBlock.key { b with refCount := sub64 b.refCount 1 } = b.key := by
    simp only [CachedBlock.key, implies_true]
  have hcur := h.current b.key b (h.unique.block_of_getElem hcb)
  obtain ⟨hrep, hl⟩ := h.modify (D := D) hcb hkey (by simp only [implies_true]) hcur
    fun _ _ _ _ => rfl
  exact ⟨_, hrep, hl, h.unique.block_modify hkey hcb, by simp only⟩

/-- The blocks that a call has brought in were read with success. -/
def NewFilled (m m' : Cache) : Prop :=
  ∀ k b, m.block k = none → m'.block k = some b → b.filled = true

theorem NewFilled.refl (m : Cache) : NewFilled m m := fun k b h h' => by simp [h] at h'

theorem NewFilled.of_round (hblock : m₁.block = Function.update m.block k (some b))
    (hb : m.block k = none → b.filled = true) (hl : Looked D m₁ m') (hrest : NewFilled m₁ m') :
    NewFilled m m' := by
  intro k' b' hk' hb'
  by_cases hk : k' = k
  · subst hk
    obtain ⟨b₁, hb₁, hf⟩ := hl.kept k' b (by simp [hblock])
    obtain rfl : b₁ = b' := by simpa [hb₁] using hb'
    rw [hf]
    exact hb hk'
  · refine hrest k' b' ?_ hb'
    rw [hblock, Function.update_of_ne hk, hk']

/-! ## The loops -/

theorem mul_add_div_of_lt {n B i : Nat} (hi : i < B) : (n * B + i) / B = n := by
  rw [Nat.mul_comm, Nat.mul_add_div (by omega), Nat.div_eq_of_lt hi, Nat.add_zero]

theorem div_of_block {n B i : Nat} (hle : n * B ≤ i) (hlt : i < n * B + B) : i / B = n := by
  have := @mul_add_div_of_lt n B (i - n * B) (by omega)
  rwa [Nat.add_sub_cancel' hle] at this

/-- What a call reports when it reads and writes everything: whether its buffer was accessible. -/
def result (n room : Nat) : Int := if n ≤ room then OK else ErrorInvalidBuffer

theorem result_eq_ok {n room : Nat} (h : result n room = OK) : n ≤ room := by
  by_contra hn
  rw [result, if_neg hn] at h
  exact absurd h (by decide)

theorem result_sub {n c room offs : Nat} (hc : c ≤ n) (hroom : c ≤ room - offs) :
    result (n - c) (room - (offs + c)) = result n (room - offs) := by
  by_cases h : n ≤ room - offs
  · rw [result, result, if_pos h, if_pos (by omega)]
  · rw [result, result, if_neg h, if_neg (by omega)]

/-- A range is cached when its first part, in one block, and the rest are. -/
theorem Cached.of_round {n c subID blockID pos : Nat} (hl : Looked D m₁ m')
    (hb : m₁.block (subID, blockID) = some b)
    (hdiv : ∀ i, pos ≤ i → i < pos + c → i / dev.blockSize subID = blockID)
    (hrest : Cached dev m' subID (pos + c) (n - c)) : Cached dev m' subID pos n := by
  intro i hi hin
  by_cases hc : i < pos + c
  · obtain ⟨b', hb', -⟩ := hl.kept _ b hb
    rw [hdiv i hi hc]
    exact ⟨b', hb'⟩
  · exact hrest i (by omega) (by omega)

/-- The first block of a range without failed reads was read with success. -/
theorem Filled.of_round {n c subID blockID pos : Nat} (h : Filled dev m' subID pos n)
    (hl : Looked D m₁ m') (hb : m₁.block (subID, blockID) = some b)
    (hdiv : ∀ i, pos ≤ i → i < pos + c → i / dev.blockSize subID = blockID) (hc : 0 < c)
    (hcn : c ≤ n) : b.filled = true := by
  obtain ⟨b', hb', hf⟩ := hl.kept _ b hb
  rw [← hf]
  refine h pos (Nat.le_refl _) (by omega) b' ?_
  rw [hdiv pos (Nat.le_refl _) (by omega), hb']

/-- A copy out of a block of the overlay. -/
theorem kmemcpy_block {data disk buffer : Bytes} {B blockID pos c offs : Nat}
    (hle : blockID * B ≤ pos) (hc : pos + c ≤ blockID * B + B)
    (h : 0 < c → ∀ i < B, data i = disk (blockID * B + i)) :
    kmemcpy buffer offs data (pos - blockID * B) c = kmemcpy buffer offs disk pos c := by
  funext i
  simp only [kmemcpy]
  by_cases hi : offs ≤ i ∧ i < offs + c
  · rw [if_pos hi, if_pos hi, h (by omega) _ (by omega)]
    congr 1
    omega
  · rw [if_neg hi, if_neg hi]

/-- One round of `GetData`. -/
theorem getLoop_succ (hD : dev.Drives D) {subID room n blockID pos size offs c : Nat}
    {buffer : Bytes} {success : Bool} (hle : blockID * dev.blockSize subID ≤ pos)
    (hlt : pos < blockID * dev.blockSize subID + dev.blockSize subID) (hpos : pos < 2 ^ 64)
    (hc : c = min (dev.blockSize subID - (pos - blockID * dev.blockSize subID)) size)
    (hlook : lookup D subID blockID m = (success, cb, m₁)) :
    getLoop D subID room (n + 1) blockID pos size offs buffer m =
      let from' := pos - blockID * dev.blockSize subID
      if success then
        if c ≤ room - offs then
          if size - c = 0 then
            (OK, kmemcpy buffer offs (m₁.data cb) from' c, releaseCachedBlock cb m₁)
          else getLoop D subID room n ((blockID + 1) % 2 ^ 64) (pos + c) (size - c) (offs + c)
            (kmemcpy buffer offs (m₁.data cb) from' c) (releaseCachedBlock cb m₁)
        else (ErrorInvalidBuffer, kmemcpy buffer offs (m₁.data cb) from' (room - offs),
          releaseCachedBlock cb m₁)
      else (-1, buffer, m₁) := by
  have hBlt := dev.blockSize_lt subID
  have hoff : sub64 pos (blockID * dev.blockSize subID) = pos - blockID * dev.blockSize subID :=
    sub64_eq hle (by omega) (by omega)
  have hrem := sub64_eq (a := dev.blockSize subID) (b := pos - blockID * dev.blockSize subID)
    (by omega) (by omega) (by omega)
  rw [getLoop]
  simp only [hD.blockSize, hoff, hrem, hlook, ← hc, kmemcpyUsersafe]
  cases success with
  | false => rfl
  | true =>
    by_cases hroom : c ≤ room - offs
    · simp [hroom]
    · simp [hroom, Nat.min_eq_right (Nat.le_of_not_le hroom)]

/-- **The loop of `GetData`.** It stops at a read that fails; otherwise it copies the bytes of the
overlay, if no block of the range was read in vain before. -/
theorem getLoop_spec (hD : dev.Drives D) {subID room : Nat} (n : Nat) :
    ∀ {m : Cache} {blockID pos size offs : Nat} {buffer : Bytes}, Represents dev m overlay →
      blockID * dev.blockSize subID ≤ pos → pos < blockID * dev.blockSize subID + dev.blockSize subID →
      0 < n → pos + size ≤ blockID * dev.blockSize subID + n * dev.blockSize subID →
      pos < 2 ^ 64 → pos + size ≤ 2 ^ 64 →
      ∃ code buffer' m', getLoop D subID room n blockID pos size offs buffer m =
          (code, buffer', m') ∧ Represents dev m' overlay ∧ Looked D m m' ∧
        ((code = -1 ∧ ∃ k b, m.block k = none ∧ m'.block k = some b ∧ b.filled = false) ∨
          (code = result size (room - offs) ∧ NewFilled m m' ∧
            (code = OK → Cached dev m' subID pos size) ∧
            (Filled dev m' subID pos size →
              buffer' = kmemcpy buffer offs (overlay subID) pos (min size (room - offs))))) := by
  induction n with
  | zero => exact fun _ _ _ hn => absurd hn (Nat.lt_irrefl 0)
  | succ n ih =>
    intro m blockID pos size offs buffer h hle hlt _ hend hpos htop
    obtain ⟨success, cb, b, m₁, hlook, h₁, hl₁, hcb, hkey, hblock, hcur, hbad, hnew⟩ :=
      h.lookup_spec hD subID blockID
    obtain ⟨b₂, h₂, hl₂, hblock₂, hf₂⟩ := h₁.release (D := D) hcb
    obtain ⟨c, hc⟩ : ∃ c, c = min (dev.blockSize subID - (pos - blockID * dev.blockSize subID)) size :=
      ⟨_, rfl⟩
    have hrun := @getLoop_succ _ _ _ _ _ hD subID room n blockID pos size offs c buffer _
      hle hlt hpos hc hlook
    rw [Cache.data_eq hcb] at hrun
    obtain ⟨m₂, hm₂⟩ : ∃ m₂, m₂ = releaseCachedBlock cb m₁ := ⟨_, rfl⟩
    rw [← hm₂] at h₂ hl₂ hblock₂ hrun
    rw [hkey, hblock, Function.update_idem] at hblock₂
    have hb₂ : m₂.block (subID, blockID) = some b₂ := by simp [hblock₂]
    obtain ⟨B, hB⟩ : ∃ B, B = dev.blockSize subID := ⟨_, rfl⟩
    rw [← hB] at hle hlt hend hc hcur hrun
    have hdiv : ∀ i, pos ≤ i → i < pos + c → i / dev.blockSize subID = blockID := by
      intro i hi hic
      rw [← hB]
      exact div_of_block (by omega) (by omega)
    rw [hrun]
    cases success with
    | false =>
      refine ⟨-1, buffer, m₁, rfl, h₁, hl₁, .inl ⟨rfl, (subID, blockID), b, ?_, ?_, ?_⟩⟩
      · exact (hbad rfl).1
      · simp [hblock]
      · exact (hbad rfl).2
    | true =>
      have hnew₂ : m.block (subID, blockID) = none → b₂.filled = true := by
        rw [hf₂]
        exact hnew rfl
      rw [if_pos rfl]
      by_cases hroom : c ≤ room - offs
      · rw [if_pos hroom]
        by_cases hlast : size - c = 0
        · rw [if_pos hlast]
          have hsize : c = size := by omega
          refine ⟨OK, _, m₂, rfl, h₂, hl₁.trans hl₂, .inr ⟨?_, ?_, fun _ => ?_, fun hf => ?_⟩⟩
          · rw [result, if_pos (by omega)]
          · exact .of_round hblock₂ hnew₂ (.refl D m₂) (.refl m₂)
          · refine .of_round (.refl D m₂) hb₂ hdiv fun i hi hin => ?_
            omega
          · rw [Nat.min_eq_left (by omega), ← hsize]
            refine kmemcpy_block hle (by omega) fun hc0 => hcur ?_
            rw [← hf₂]
            exact hf.of_round (.refl D m₂) hb₂ hdiv hc0 (by omega)
        · rw [if_neg hlast]
          have hnext : pos + c = (blockID + 1) * B := by
            rw [Nat.add_mul]
            omega
          have hmod : (blockID + 1) % 2 ^ 64 = blockID + 1 := by
            refine Nat.mod_eq_of_lt ?_
            have : blockID + 1 ≤ (blockID + 1) * B := Nat.le_mul_of_pos_right _ (by omega)
            omega
          have hn : 0 < n := by
            rcases Nat.eq_zero_or_pos n with rfl | hn
            · omega
            · exact hn
          have hnB : (n + 1) * B = n * B + B := Nat.succ_mul n B
          obtain ⟨code, buffer', m', hrest, h', hl', hcase⟩ :=
            @ih m₂ (blockID + 1) (pos + c) (size - c) (offs + c)
              (kmemcpy buffer offs b.data (pos - blockID * B) c) h₂
              (by rw [← hB]; omega) (by rw [← hB]; omega) hn (by rw [← hB, ← hnext]; omega)
              (by omega) (by omega)
          rw [hmod, hrest]
          have hmin : c + min (size - c) (room - (offs + c)) = min size (room - offs) := by omega
          have hresult := result_sub (c := c) (n := size) (by omega) hroom
          refine ⟨code, buffer', m', rfl, h', hl₁.trans (hl₂.trans hl'), ?_⟩
          rcases hcase with ⟨hcode, k, b', hk, hb', hf'⟩ | ⟨hcode, hfresh, hcached, hcopied⟩
          · left
            refine ⟨hcode, k, b', ?_, hb', hf'⟩
            have hne : k ≠ (subID, blockID) := by
              intro e
              rw [e, hb₂] at hk
              cases hk
            rwa [hblock₂, Function.update_of_ne hne] at hk
          · right
            refine ⟨hcode.trans hresult, .of_round hblock₂ hnew₂ hl' hfresh,
              fun hok => .of_round hl' hb₂ hdiv (hcached hok), fun hf => ?_⟩
            rw [hcopied fun i hi hin => hf i (by omega) (by omega), ← hmin,
              ← kmemcpy_add buffer (overlay subID) offs pos]
            congr 1
            refine kmemcpy_block hle (by omega) fun hc0 => hcur ?_
            rw [← hf₂]
            exact hf.of_round hl' hb₂ hdiv hc0 (by omega)
      · rw [if_neg hroom]
        refine ⟨ErrorInvalidBuffer, _, m₂, rfl, h₂, hl₁.trans hl₂, .inr ⟨?_, ?_, ?_, fun hf => ?_⟩⟩
        · rw [result, if_neg (by omega)]
        · exact .of_round hblock₂ hnew₂ (.refl D m₂) (.refl m₂)
        · exact fun hok => absurd hok (by decide)
        · rw [Nat.min_eq_right (by omega)]
          refine kmemcpy_block hle (by omega) fun hc0 => hcur ?_
          rw [← hf₂]
          exact hf.of_round (.refl D m₂) hb₂ hdiv (by omega) (by omega)

/-- The overlay after a call has written the first `n` bytes of a buffer. -/
def written (overlay : Nat → Bytes) (subID pos : Nat) (buffer : Bytes) (offs n : Nat) : Nat → Bytes :=
  Function.update overlay subID (kmemcpy (overlay subID) pos buffer offs n)

theorem written_add (overlay : Nat → Bytes) (subID pos : Nat) (buffer : Bytes) (offs c n : Nat) :
    written (written overlay subID pos buffer offs c) subID (pos + c) buffer (offs + c) n =
      written overlay subID pos buffer offs (c + n) := by
  simp only [written, Function.update_self, Function.update_idem, kmemcpy_add]

/-- Writing to the bytes of an entry writes to the overlay. -/
theorem Represents.set (h : Represents dev m overlay) (hcb : m[cb]? = some b)
    (hkey : b.key = (subID, blockID)) {pos c offs : Nat} (buffer : Bytes)
    (hle : blockID * dev.blockSize subID ≤ pos)
    (hc : pos + c ≤ blockID * dev.blockSize subID + dev.blockSize subID) :
    Represents dev (m.modify cb fun block => { block with
        data := kmemcpy b.data (pos - blockID * dev.blockSize subID) buffer offs c })
      (written overlay subID pos buffer offs c) ∧
    Looked D m (m.modify cb fun block => { block with
        data := kmemcpy b.data (pos - blockID * dev.blockSize subID) buffer offs c }) := by
  obtain ⟨hsub, hid⟩ : b.subID = subID ∧ b.blockID = blockID := Prod.mk.inj hkey
  have hcur := h.current b.key b (h.unique.block_of_getElem hcb)
  rw [hkey] at hcur
  refine h.modify hcb (fun _ => rfl) (fun _ => rfl) ?_ ?_
  · rw [hsub, hid]
    intro hf i hi
    simp only [written, Function.update_self, kmemcpy]
    by_cases hin : pos - blockID * dev.blockSize subID ≤ i ∧
        i < pos - blockID * dev.blockSize subID + c
    · rw [if_pos hin, if_pos (by omega)]
      congr 1
      omega
    · rw [if_neg hin, if_neg (by omega)]
      exact hcur hf i hi
  · intro k' hk' i hi
    by_cases hsame : k'.1 = subID
    · -- Another block of the same device: no byte of it is in the range.
      rw [hsame] at hi ⊢
      simp only [written, Function.update_self, kmemcpy]
      refine if_neg fun hin => hk' ?_
      have hdiv : (k'.2 * dev.blockSize subID + i) / dev.blockSize subID = blockID :=
        div_of_block (by omega) (by omega)
      rw [mul_add_div_of_lt hi] at hdiv
      rw [hkey, ← hsame, ← hdiv]
    · rw [written, Function.update_of_ne hsame]

/-- One round of `SetData`. -/
theorem setLoop_succ (hD : dev.Drives D) {subID room n blockID pos size offs c : Nat}
    {buffer : Bytes} {success : Bool} (hle : blockID * dev.blockSize subID ≤ pos)
    (hlt : pos < blockID * dev.blockSize subID + dev.blockSize subID) (hpos : pos < 2 ^ 64)
    (hc : c = min (dev.blockSize subID - (pos - blockID * dev.blockSize subID)) size)
    (hlook : lookup D subID blockID m = (success, cb, m₁)) :
    setLoop D subID room buffer (n + 1) blockID pos size offs m =
      let m₂ := releaseCachedBlock cb (m₁.modify cb fun block => { block with
        data := kmemcpy (m₁.data cb) (pos - blockID * dev.blockSize subID) buffer offs
          (min c (room - offs)) })
      if c ≤ room - offs then
        setLoop D subID room buffer n ((blockID + 1) % 2 ^ 64) (pos + c) (size - c) (offs + c) m₂
      else (ErrorInvalidBuffer, m₂) := by
  have hBlt := dev.blockSize_lt subID
  have hoff : sub64 pos (blockID * dev.blockSize subID) = pos - blockID * dev.blockSize subID :=
    sub64_eq hle (by omega) (by omega)
  have hrem := sub64_eq (a := dev.blockSize subID) (b := pos - blockID * dev.blockSize subID)
    (by omega) (by omega) (by omega)
  rw [setLoop]
  simp only [hD.blockSize, hoff, hrem, hlook, ← hc, kmemcpyUsersafe, decide_eq_true_eq]

/-- **The loop of `SetData`** writes its bytes to the overlay, whether the reads succeed or not. -/
theorem setLoop_spec (hD : dev.Drives D) {subID room : Nat} {buffer : Bytes} (n : Nat) :
    ∀ {m : Cache} {overlay : Nat → Bytes} {blockID pos size offs : Nat}, Represents dev m overlay →
      blockID * dev.blockSize subID ≤ pos → pos < blockID * dev.blockSize subID + dev.blockSize subID →
      0 < n → pos + size < blockID * dev.blockSize subID + n * dev.blockSize subID →
      blockID * dev.blockSize subID + n * dev.blockSize subID ≤ pos + size + dev.blockSize subID →
      pos + size < 2 ^ 64 →
      ∃ m', setLoop D subID room buffer n blockID pos size offs m =
          (result size (room - offs), m') ∧
        Represents dev m' (written overlay subID pos buffer offs (min size (room - offs))) ∧
        Looked D m m' ∧ (size ≤ room - offs → Cached dev m' subID pos size) := by
  induction n with
  | zero => exact fun _ _ _ hn => absurd hn (Nat.lt_irrefl 0)
  | succ n ih =>
    intro m overlay blockID pos size offs h hle hlt _ hend hstop htop
    obtain ⟨success, cb, b, m₁, hlook, h₁, hl₁, hcb, hkey, -⟩ := h.lookup_spec hD subID blockID
    obtain ⟨c, hc⟩ : ∃ c, c = min (dev.blockSize subID - (pos - blockID * dev.blockSize subID)) size :=
      ⟨_, rfl⟩
    have hrun := @setLoop_succ _ _ _ _ _ hD subID room n blockID pos size offs c buffer _
      hle hlt (by omega) hc hlook
    rw [Cache.data_eq hcb] at hrun
    obtain ⟨m₂, hm₂⟩ : ∃ m₂ : Cache, m₂ = m₁.modify cb fun block => { block with
        data := kmemcpy b.data (pos - blockID * dev.blockSize subID) buffer offs
          (min c (room - offs)) } := ⟨_, rfl⟩
    have hset := @Represents.set D _ _ _ _ _ _ _ h₁ hcb hkey pos (min c (room - offs)) offs
      buffer hle (by omega)
    rw [← hm₂] at hset hrun
    obtain ⟨h₂, hl₂⟩ := hset
    obtain ⟨b₂, hcb₂, hkey₂⟩ : ∃ b₂, m₂[cb]? = some b₂ ∧ b₂.key = (subID, blockID) := by
      rw [hm₂, List.getElem?_modify_eq, hcb]
      exact ⟨_, rfl, hkey⟩
    obtain ⟨b₃, h₃, hl₃, hblock₃, -⟩ := h₂.release (D := D) hcb₂
    obtain ⟨m₃, hm₃⟩ : ∃ m₃, m₃ = releaseCachedBlock cb m₂ := ⟨_, rfl⟩
    rw [← hm₃] at h₃ hl₃ hblock₃ hrun
    have hb₃ : m₃.block (subID, blockID) = some b₃ := by simp [hblock₃, hkey₂]
    have hl : Looked D m m₃ := hl₁.trans (hl₂.trans hl₃)
    obtain ⟨B, hB⟩ : ∃ B, B = dev.blockSize subID := ⟨_, rfl⟩
    rw [← hB] at hle hlt hend hstop hc
    have hdiv : ∀ i, pos ≤ i → i < pos + c → i / dev.blockSize subID = blockID := by
      intro i hi hic
      rw [← hB]
      exact div_of_block (by omega) (by omega)
    rw [hrun]
    by_cases hroom : c ≤ room - offs
    · rw [Nat.min_eq_left hroom] at h₃
      simp only [if_pos hroom]
      rcases Nat.eq_zero_or_pos n with rfl | hn
      · have hsize : c = size := by omega
        refine ⟨m₃, ?_, ?_, hl, fun _ => ?_⟩
        · rw [setLoop, result, if_pos (by omega)]
        · rwa [Nat.min_eq_left (by omega), ← hsize]
        · refine .of_round (.refl D m₃) hb₃ hdiv fun i hi hin => ?_
          omega
      · have hnB : (n + 1) * B = n * B + B := Nat.succ_mul n B
        have hBn : B ≤ n * B := Nat.le_mul_of_pos_left B hn
        have hnext : pos + c = (blockID + 1) * B := by
          rw [Nat.add_mul]
          omega
        have hmod : (blockID + 1) % 2 ^ 64 = blockID + 1 := by
          refine Nat.mod_eq_of_lt ?_
          have : blockID + 1 ≤ (blockID + 1) * B := Nat.le_mul_of_pos_right _ (by omega)
          omega
        obtain ⟨m', hrest, h', hl', hcached⟩ :=
          @ih m₃ _ (blockID + 1) (pos + c) (size - c) (offs + c) h₃ (by rw [← hB]; omega)
            (by rw [← hB]; omega) hn (by rw [← hB, ← hnext]; omega)
            (by rw [← hB, ← hnext]; omega) (by omega)
        have hmin : c + min (size - c) (room - (offs + c)) = min size (room - offs) := by omega
        have hresult := result_sub (c := c) (n := size) (by omega) hroom
        rw [hmod, hrest, hresult]
        rw [written_add, hmin] at h'
        exact ⟨m', rfl, h', hl.trans hl', fun hs => .of_round hl' hb₃ hdiv (hcached (by omega))⟩
    · rw [Nat.min_eq_right (by omega)] at h₃
      simp only [if_neg hroom]
      refine ⟨m₃, ?_, ?_, hl, fun hs => ?_⟩
      · rw [result, if_neg (by omega)]
      · rwa [Nat.min_eq_right (by omega)]
      · omega

/-! ## The calls -/

/-- **`GetData`** stops at a read that fails; otherwise it copies the bytes of the overlay, if no
block of the range was read in vain before. -/
theorem getData_spec (hD : dev.Drives D) (h : Represents dev m overlay) {pos size : Nat}
    (subID room : Nat) (buffer : Bytes) (hpos : pos < 2 ^ 64) (hsize : size < 2 ^ 64)
    (htop : pos + size ≤ 2 ^ 64) :
    ∃ code buffer' m', getData D subID pos size room buffer m = (code, buffer', m') ∧
      Represents dev m' overlay ∧ Looked D m m' ∧
      ((code = -1 ∧ ∃ k b, m.block k = none ∧ m'.block k = some b ∧ b.filled = false) ∨
        (code = result size room ∧ NewFilled m m' ∧ (code = OK → Cached dev m' subID pos size) ∧
          (Filled dev m' subID pos size →
            buffer' = kmemcpy buffer 0 (overlay subID) pos (min size room)))) := by
  have hB0 := dev.blockSize_pos subID
  have hlow := Nat.div_mul_le_self pos (dev.blockSize subID)
  have hhigh := Nat.lt_div_mul_add (a := pos) hB0
  unfold getData
  simp only [hD.blockSize]
  obtain ⟨n, hn⟩ : ∃ n, n = (sub64 (sub64 ((pos + size) % 2 ^ 64) 1 / dev.blockSize subID)
      (pos / dev.blockSize subID) + 1) % 2 ^ 64 := ⟨_, rfl⟩
  rw [← hn]
  have hspec := @getLoop_spec D dev overlay hD subID room n m (pos / dev.blockSize subID) pos size 0
    buffer h hlow hhigh
  rw [Nat.sub_zero] at hspec
  rcases Nat.eq_zero_or_pos size with rfl | hs
  · rcases Nat.eq_zero_or_pos n with rfl | hn0
    · refine ⟨OK, buffer, m, by rw [getLoop], h, .refl D m, .inr ⟨?_, .refl m, ?_, ?_⟩⟩
      · rw [result, if_pos (Nat.zero_le room)]
      · exact fun _ i hi hin => absurd hin (by omega)
      · intro _
        rw [Nat.zero_min, kmemcpy_zero]
    · have : dev.blockSize subID ≤ n * dev.blockSize subID := Nat.le_mul_of_pos_left _ hn0
      exact hspec hn0 (by omega) hpos htop
  · -- The last block is the one of the last byte, and there are no more blocks than bytes.
    have hlast : sub64 ((pos + size) % 2 ^ 64) 1 = pos + size - 1 := by
      rcases Nat.lt_or_ge (pos + size) (2 ^ 64) with hlt | hge
      · rw [Nat.mod_eq_of_lt hlt]
        exact sub64_eq (by omega) (by omega) (by omega)
      · have htop' : pos + size = 2 ^ 64 := by omega
        rw [htop', Nat.mod_self, sub64]
        omega
    have hmono : pos / dev.blockSize subID ≤ (pos + size - 1) / dev.blockSize subID :=
      Nat.div_le_div_right (by omega)
    have hcount : (pos + size - 1) / dev.blockSize subID ≤ pos / dev.blockSize subID + (size - 1) := by
      rw [← Nat.add_mul_div_right pos (size - 1) hB0]
      refine Nat.div_le_div_right ?_
      have : size - 1 ≤ (size - 1) * dev.blockSize subID := Nat.le_mul_of_pos_right _ hB0
      omega
    have hdivle := Nat.div_le_self (pos + size - 1) (dev.blockSize subID)
    have hdivle' := Nat.div_le_self pos (dev.blockSize subID)
    rw [hlast, sub64_eq hmono (by omega) (by omega), Nat.mod_eq_of_lt (by omega)] at hn
    have hend := Nat.lt_div_mul_add (a := pos + size - 1) hB0
    have hblocks : pos / dev.blockSize subID * dev.blockSize subID + n * dev.blockSize subID =
        (pos + size - 1) / dev.blockSize subID * dev.blockSize subID + dev.blockSize subID := by
      have hsum : pos / dev.blockSize subID + n = (pos + size - 1) / dev.blockSize subID + 1 := by
        rw [hn, ← Nat.add_assoc, Nat.add_sub_cancel' hmono]
      rw [← Nat.add_mul, hsum, Nat.succ_mul]
    exact hspec (by omega) (by omega) hpos htop

/-- **`SetData`** writes its bytes to the overlay, whether the reads succeed or not. -/
theorem setData_spec (hD : dev.Drives D) (h : Represents dev m overlay) {pos size : Nat}
    (subID room : Nat) (buffer : Bytes) (htop : pos + size < 2 ^ 64)
    (hlast : (pos + size) / dev.blockSize subID + 1 < 2 ^ 64) :
    ∃ m', setData D subID pos size room buffer m = (result size room, m') ∧
      Represents dev m' (written overlay subID pos buffer 0 (min size room)) ∧ Looked D m m' ∧
      (size ≤ room → Cached dev m' subID pos size) := by
  have hB0 := dev.blockSize_pos subID
  have hlow := Nat.div_mul_le_self pos (dev.blockSize subID)
  have hhigh := Nat.lt_div_mul_add (a := pos) hB0
  have hmono : pos / dev.blockSize subID ≤ (pos + size) / dev.blockSize subID :=
    Nat.div_le_div_right (by omega)
  have hend := Nat.lt_div_mul_add (a := pos + size) hB0
  have hstart := Nat.div_mul_le_self (pos + size) (dev.blockSize subID)
  unfold setData
  simp only [hD.blockSize]
  obtain ⟨n, hn⟩ : ∃ n, n = (sub64 ((pos + size) % 2 ^ 64 / dev.blockSize subID)
      (pos / dev.blockSize subID) + 1) % 2 ^ 64 := ⟨_, rfl⟩
  rw [← hn]
  have hdivle := Nat.div_le_self pos (dev.blockSize subID)
  have hcount := Nat.sub_le ((pos + size) / dev.blockSize subID) (pos / dev.blockSize subID)
  rw [Nat.mod_eq_of_lt htop, sub64_eq hmono (by omega) (by omega), Nat.mod_eq_of_lt (by omega)] at hn
  have hblocks : pos / dev.blockSize subID * dev.blockSize subID + n * dev.blockSize subID =
      (pos + size) / dev.blockSize subID * dev.blockSize subID + dev.blockSize subID := by
    have hsum : pos / dev.blockSize subID + n = (pos + size) / dev.blockSize subID + 1 := by
      rw [hn, ← Nat.add_assoc, Nat.add_sub_cancel' hmono]
    rw [← Nat.add_mul, hsum, Nat.succ_mul]
  have hspec := @setLoop_spec D dev hD subID room buffer n m overlay (pos / dev.blockSize subID) pos
    size 0 h hlow hhigh (by omega) (by omega) (by omega) htop
  rwa [Nat.sub_zero] at hspec

end Overlay

end ChenixOS.BlockDevice
