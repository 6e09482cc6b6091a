import ChenixOS.Lib.ByteMemory
import ChenixOS.Lib.Loop
import ChenixOS.Memory.MemoryManager

/-!
# The MADT and its readers

`MADT::GetNextEntry`, and the two loops over the entries of the table: `SMP::GatherInfo`, which counts the cores, and
`IOAPIC::Init`. A read outside of the table, or an index outside of `g_Info` or `g_GSIMapping`, gives `none`; a loop
may go on for ever.

**Theorem (`walk_returns_iff`).** Such a loop ends exactly if entries of lengths other than zero lie one after the
other up to the end of the table, and each of them can be visited.
-/

namespace ChenixOS.ACPI

open Loop Words

/-- The table: the length that its header declares, and the memory from `entries` on. -/
structure MADT where
  length : Nat
  entries : Nat → UInt8

/-- `sizeof(MADT)` -/
def sizeofMADT : Nat := 44

/-- The addresses of the table. -/
def MADT.Fits (t : MADT) (offs n : Nat) : Prop := sizeofMADT + offs + n ≤ t.length

instance (t : MADT) (offs n : Nat) : Decidable (t.Fits offs n) := inferInstanceAs (Decidable (_ ≤ _))

/-- The `n` bytes at `entries[offs]`. -/
def MADT.read (t : MADT) (n offs : Nat) : Option Nat := if t.Fits offs n then some (word t.entries n offs) else none

/-- `GetNextEntry`: the offset of the entry, or the null pointer, and the new `pos`. -/
def MADT.getNextEntry (t : MADT) (pos : Nat) : Option (Option Nat × Nat) :=
  if pos ≥ (t.length + 2 ^ 64 - sizeofMADT) % 2 ^ 64 then some (none, pos)
  else do
    let length ← t.read 1 (pos + 1)
    some (some pos, (pos + length) % 2 ^ 64)

variable {σ : Type}

/-- One round of `while((entry = madt->GetNextEntry(pos)) != nullptr)`. -/
def walkRound (t : MADT) (visit : Nat → σ → Option σ) (s : Nat × σ) : Option (Round (Nat × σ) σ) := do
  let (entry, pos) ← t.getNextEntry s.1
  match entry with
  | none => some (.done s.2)
  | some entry => do
    let s ← visit entry s.2
    some (.next (pos, s))

/-! ## `SMP::GatherInfo` -/

structure CoreInfo where
  apicID : Nat
  coreID : Nat

/-- `g_NumCores` and `g_Info` -/
structure Cores where
  numCores : Nat
  info : Nat → CoreInfo

/-- `MaxCoreCount` -/
def maxCoreCount : Nat := 128

/-- `TYPE_LAPIC` -/
def typeLAPIC : Nat := 0

/-- `TYPE_IOAPIC` -/
def typeIOAPIC : Nat := 1

/-- `TYPE_ISO` -/
def typeISO : Nat := 2

def gatherVisit (t : MADT) (entry : Nat) (s : Cores) : Option Cores := do
  let entryType ← t.read 1 entry
  if entryType = typeLAPIC then do
    let processorEnabled ← t.read 4 (entry + 4)
    let processorID ← t.read 1 (entry + 2)
    let lapicID ← t.read 1 (entry + 3)
    if processorEnabled = 0 then some s
    else if s.numCores < maxCoreCount then
      some { numCores := s.numCores + 1, info := Function.update s.info s.numCores ⟨lapicID, processorID⟩ }
    else none
  else some s

/-- One round of the loop of `GatherInfo`. -/
def gatherRound (t : MADT) : Nat × Cores → Option (Round (Nat × Cores) Cores) := walkRound t (gatherVisit t)

/-! ## `IOAPIC::Init` -/

/-- `g_MemBase` and `g_GSIMapping` -/
structure IOAPIC where
  memBase : Nat
  gsiMapping : Nat → Nat

def initVisit (t : MADT) (entry : Nat) (s : IOAPIC) : Option IOAPIC := do
  let entryType ← t.read 1 entry
  if entryType = typeIOAPIC then do
    let ioApicAddr ← t.read 4 (entry + 4)
    -- `gsiBase` is read for the log only
    let _ ← t.read 4 (entry + 8)
    some { s with memBase := MemoryManager.physToKernelPtr ioApicAddr }
  else if entryType = typeISO then do
    let gsi ← t.read 4 (entry + 4)
    let _ ← t.read 1 (entry + 2)
    let irq ← t.read 1 (entry + 3)
    if irq < 1024 then some { s with gsiMapping := Function.update s.gsiMapping irq gsi } else none
  else some s

/-- One round of the loop of `IOAPIC::Init`. -/
def initRound (t : MADT) : Nat × IOAPIC → Option (Round (Nat × IOAPIC) IOAPIC) := walkRound t (initVisit t)

/-! ## Tables that can be walked -/

variable {t : MADT} {visit : Nat → σ → Option σ} {s r : σ} {pos : Nat} {es : List Nat}

/-- The length of the entry at an offset. -/
def MADT.lengthAt (t : MADT) (entry : Nat) : Nat := (t.entries (entry + 1)).toNat

/-- Entries one after the other, from `pos` to the end of the table; the last one may reach over it. -/
inductive Tiled (t : MADT) : (pos : Nat) → List Nat → Prop where
  | nil {pos : Nat} : t.length ≤ sizeofMADT + pos → Tiled t pos []
  | cons {pos : Nat} {es : List Nat} : t.Fits pos 2 → t.lengthAt pos ≠ 0 → Tiled t (pos + t.lengthAt pos) es →
      Tiled t pos (pos :: es)

theorem read_one (offs : Nat) (h : t.Fits offs 1) : t.read 1 offs = some (t.entries offs).toNat := by
  rw [MADT.read, if_pos h]
  rfl

theorem lengthAt_lt (entry : Nat) : t.lengthAt entry < 256 := UInt8.toNat_lt _

/-- A table that is shorter than its header is walked outside of it. -/
theorem getNextEntry_short (hlt : t.length < sizeofMADT) (hpos : pos < 2 ^ 63) : t.getNextEntry pos = none := by
  unfold sizeofMADT at hlt
  have hread : t.read 1 (pos + 1) = none := by
    refine if_neg ?_
    unfold MADT.Fits sizeofMADT
    omega
  rw [MADT.getNextEntry, if_neg, hread]
  · rfl
  · unfold sizeofMADT
    omega

theorem getNextEntry_done (h44 : sizeofMADT ≤ t.length) (hlen : t.length < 2 ^ 32)
    (hpos : t.length ≤ sizeofMADT + pos) : t.getNextEntry pos = some (none, pos) := by
  unfold sizeofMADT at h44 hpos
  refine if_pos ?_
  unfold sizeofMADT
  omega

theorem getNextEntry_entry (hlen : t.length < 2 ^ 32) (hfits : t.Fits pos 2) :
    t.getNextEntry pos = some (some pos, pos + t.lengthAt pos) := by
  unfold MADT.Fits sizeofMADT at hfits
  have hbyte := @lengthAt_lt t pos
  have hread : t.read 1 (pos + 1) = some (t.lengthAt pos) := by
    refine read_one _ ?_
    unfold MADT.Fits sizeofMADT
    omega
  rw [MADT.getNextEntry, if_neg, hread]
  · have hmod : (pos + t.lengthAt pos) % 2 ^ 64 = pos + t.lengthAt pos := Nat.mod_eq_of_lt (by omega)
    rw [Option.bind_eq_bind, Option.bind_some, hmod]
  · unfold sizeofMADT
    omega

/-- An entry of which only the first byte is in the table. -/
theorem getNextEntry_cut (h44 : sizeofMADT ≤ t.length) (hlen : t.length < 2 ^ 32)
    (hpos : ¬t.length ≤ sizeofMADT + pos) (hfits : ¬t.Fits pos 2) : t.getNextEntry pos = none := by
  unfold MADT.Fits at hfits
  unfold sizeofMADT at h44 hpos hfits
  have hread : t.read 1 (pos + 1) = none := by
    refine if_neg ?_
    unfold MADT.Fits sizeofMADT
    omega
  rw [MADT.getNextEntry, if_neg, hread]
  · rfl
  · unfold sizeofMADT
    omega

theorem walkRound_done (h : t.getNextEntry pos = some (none, pos)) :
    walkRound t visit (pos, s) = some (.done s) := by
  simp [walkRound, h]

theorem walkRound_none (h : t.getNextEntry pos = none) : walkRound t visit (pos, s) = none := by
  simp [walkRound, h]

theorem walkRound_entry {pos' : Nat} (h : t.getNextEntry pos = some (some pos, pos')) :
    walkRound t visit (pos, s) = (visit pos s).map fun s => .next (pos', s) := by
  simp only [walkRound, h, Option.bind_eq_bind, Option.bind_some]
  cases visit pos s <;> rfl

/-- An entry of length zero is visited again and again. -/
theorem not_returns_of_zero (hlen : t.length < 2 ^ 32) (hfits : t.Fits pos 2) (hzero : t.lengthAt pos = 0) :
    ¬Returns (walkRound t visit) (pos, s) r := by
  intro hret
  generalize hp : (pos, s) = p at hret
  induction hret generalizing s with
  | done hbody =>
    subst hp
    rw [walkRound_entry (getNextEntry_entry hlen hfits)] at hbody
    obtain ⟨_, -, h⟩ := Option.map_eq_some_iff.1 hbody
    cases h
  | next hbody _ ih =>
    subst hp
    rw [walkRound_entry (getNextEntry_entry hlen hfits), hzero, Nat.add_zero] at hbody
    obtain ⟨s', -, h⟩ := Option.map_eq_some_iff.1 hbody
    cases h
    exact ih rfl

/-- **A loop over the table ends exactly if entries tile it and all of them can be visited.** -/
theorem walk_returns_iff (h44 : sizeofMADT ≤ t.length) (hlen : t.length < 2 ^ 32) :
    Returns (walkRound t visit) (pos, s) r ↔
      ∃ es, Tiled t pos es ∧ es.foldlM (fun s entry => visit entry s) s = some r := by
  constructor
  · intro hret
    generalize hp : (pos, s) = p at hret
    induction hret generalizing pos s with
    | done hbody =>
      subst hp
      by_cases hend : t.length ≤ sizeofMADT + pos
      · rw [walkRound_done (getNextEntry_done h44 hlen hend)] at hbody
        cases hbody
        exact ⟨[], .nil hend, rfl⟩
      · by_cases hfits : t.Fits pos 2
        · rw [walkRound_entry (getNextEntry_entry hlen hfits)] at hbody
          obtain ⟨_, -, h⟩ := Option.map_eq_some_iff.1 hbody
          cases h
        · rw [walkRound_none (getNextEntry_cut h44 hlen hend hfits)] at hbody
          cases hbody
    | next hbody hrest ih =>
      subst hp
      by_cases hend : t.length ≤ sizeofMADT + pos
      · rw [walkRound_done (getNextEntry_done h44 hlen hend)] at hbody
        cases hbody
      · by_cases hfits : t.Fits pos 2
        · by_cases hzero : t.lengthAt pos = 0
          · exact absurd (.next hbody hrest) (not_returns_of_zero hlen hfits hzero)
          · rw [walkRound_entry (getNextEntry_entry hlen hfits)] at hbody
            obtain ⟨s', hvisit, h⟩ := Option.map_eq_some_iff.1 hbody
            cases h
            obtain ⟨es, htiled, hfold⟩ := ih rfl
            exact ⟨pos :: es, .cons hfits hzero htiled, by rw [List.foldlM_cons, hvisit]; exact hfold⟩
        · rw [walkRound_none (getNextEntry_cut h44 hlen hend hfits)] at hbody
          cases hbody
  · rintro ⟨es, htiled, hfold⟩
    induction htiled generalizing s with
    | nil hend =>
      obtain rfl : s = r := by simpa using hfold
      exact .done (walkRound_done (getNextEntry_done h44 hlen hend))
    | cons hfits _ _ ih =>
      rw [List.foldlM_cons] at hfold
      obtain ⟨s', hvisit, hrest⟩ := Option.bind_eq_some_iff.1 hfold
      refine .next ?_ (ih hrest)
      rw [walkRound_entry (getNextEntry_entry hlen hfits), hvisit]
      rfl

/-! ## What the loops need of an entry -/

/-- Visits of which the success depends on the entry only. -/
theorem foldlM_isSome_of_all {ok : Nat → Prop} {s : σ} (hvisit : ∀ e ∈ es, ∀ s, (visit e s).isSome ↔ ok e) :
    (es.foldlM (fun s e => visit e s) s).isSome ↔ ∀ e ∈ es, ok e := by
  induction es generalizing s with
  | nil => simp
  | cons e es ih =>
    have hrest := fun s => @ih s fun e he => hvisit e (List.mem_cons_of_mem _ he)
    rw [List.foldlM_cons, List.forall_mem_cons, ← hvisit e List.mem_cons_self s]
    cases hv : visit e s with
    | none => simp
    | some s' => simpa using hrest s'

theorem read_isSome {n offs : Nat} : (t.read n offs).isSome ↔ t.Fits offs n := by
  unfold MADT.read
  split_ifs with h <;> simp [h]

/-- The type of the entry at an offset. -/
def MADT.typeAt (t : MADT) (entry : Nat) : Nat := (t.entries entry).toNat

/-- A local APIC entry whose processor is enabled. -/
def MADT.Enabled (t : MADT) (entry : Nat) : Prop := t.typeAt entry = typeLAPIC ∧ word t.entries 4 (entry + 4) ≠ 0

instance (t : MADT) : DecidablePred t.Enabled := fun _ => inferInstanceAs (Decidable (_ ∧ _))

/-- A local APIC entry has its eight bytes in the table. -/
def GatherFits (t : MADT) (entry : Nat) : Prop := t.typeAt entry = typeLAPIC → t.Fits entry 8

/-- An I/O APIC entry has its twelve bytes in the table, and an ISO entry the first eight of its ten. -/
def InitFits (t : MADT) (entry : Nat) : Prop :=
  (t.typeAt entry = typeIOAPIC → t.Fits entry 12) ∧ (t.typeAt entry = typeISO → t.Fits entry 8)

theorem Tiled.fits (h : Tiled t pos es) : ∀ e ∈ es, t.Fits e 2 := by
  induction h with
  | nil => exact fun e he => absurd he List.not_mem_nil
  | cons hfits _ _ ih => exact List.forall_mem_cons.2 ⟨hfits, ih⟩

theorem MADT.Fits.mono {offs offs' n n' : Nat} (h : t.Fits offs n) (hle : offs' + n' ≤ offs + n) : t.Fits offs' n' := by
  unfold MADT.Fits at *
  omega

theorem read_of_fits {offs n : Nat} (h : t.Fits offs n) : t.read n offs = some (word t.entries n offs) := if_pos h

theorem read_of_not_fits {offs n : Nat} (h : ¬t.Fits offs n) : t.read n offs = none := if_neg h

theorem read_type {e : Nat} (h : t.Fits e 2) : t.read 1 e = some (t.typeAt e) :=
  read_one e (h.mono (by omega))

theorem gatherVisit_other {e : Nat} {s : Cores} (h : t.Fits e 2) (htype : t.typeAt e ≠ typeLAPIC) :
    gatherVisit t e s = some s := by
  simp [gatherVisit, read_type h, htype]

theorem gatherVisit_cut {e : Nat} {s : Cores} (h : t.Fits e 2) (htype : t.typeAt e = typeLAPIC)
    (hcut : ¬t.Fits e 8) : gatherVisit t e s = none := by
  have hread : t.read 4 (e + 4) = none := read_of_not_fits fun h => hcut (h.mono (by omega))
  simp [gatherVisit, read_type h, htype, hread]

theorem gatherVisit_lapic {e : Nat} {s : Cores} (h : t.Fits e 8) (htype : t.typeAt e = typeLAPIC) :
    gatherVisit t e s =
      if word t.entries 4 (e + 4) = 0 then some s
      else if s.numCores < maxCoreCount then
        some { numCores := s.numCores + 1
               info := Function.update s.info s.numCores ⟨word t.entries 1 (e + 3), word t.entries 1 (e + 2)⟩ }
      else none := by
  simp only [gatherVisit, read_type (h.mono (by omega : e + 2 ≤ e + 8)), read_of_fits (h.mono (by omega : e + 4 + 4 ≤ e + 8)),
    read_of_fits (h.mono (by omega : e + 2 + 1 ≤ e + 8)), read_of_fits (h.mono (by omega : e + 3 + 1 ≤ e + 8)), htype,
    if_true, Option.bind_eq_bind, Option.bind_some]

/-- **The visits of `GatherInfo`** need the fields of the local APICs, and room in `g_Info` for the enabled ones. -/
theorem gather_isSome_iff {s : Cores} (hfits : ∀ e ∈ es, t.Fits e 2) (hs : s.numCores ≤ maxCoreCount) :
    (es.foldlM (fun s e => gatherVisit t e s) s).isSome ↔
      (∀ e ∈ es, GatherFits t e) ∧ s.numCores + (es.filter (t.Enabled ·)).length ≤ maxCoreCount := by
  induction es generalizing s with
  | nil => simpa using hs
  | cons e es ih =>
    have hrest := fun s hs => @ih s (fun e he => hfits e (List.mem_cons_of_mem _ he)) hs
    have he := hfits e List.mem_cons_self
    rw [List.foldlM_cons, List.forall_mem_cons]
    by_cases htype : t.typeAt e = typeLAPIC
    · by_cases hcut : t.Fits e 8
      · have hgather : GatherFits t e := fun _ => hcut
        by_cases hzero : word t.entries 4 (e + 4) = 0
        · have hnot : ¬t.Enabled e := fun h => h.2 hzero
          rw [gatherVisit_lapic hcut htype, if_pos hzero, List.filter_cons_of_neg (by simpa using hnot)]
          simpa [hgather] using hrest s hs
        · have hen : t.Enabled e := ⟨htype, hzero⟩
          rw [gatherVisit_lapic hcut htype, if_neg hzero, List.filter_cons_of_pos (by simpa using hen),
            List.length_cons]
          split_ifs with hroom
          · rw [Option.bind_eq_bind, Option.bind_some, hrest _ (Nat.succ_le_of_lt hroom)]
            simp only [hgather, true_and]
            exact and_congr_right fun _ => by omega
          · simp only [Option.bind_eq_bind, Option.bind_none, Option.isSome_none, Bool.false_eq_true, false_iff]
            omega
      · have hno : ¬GatherFits t e := fun h => hcut (h htype)
        simp [gatherVisit_cut he htype hcut, hno]
    · have hgather : GatherFits t e := fun h => absurd h htype
      have hnot : ¬t.Enabled e := fun h => htype h.1
      rw [gatherVisit_other he htype, List.filter_cons_of_neg (by simpa using hnot)]
      simpa [hgather] using hrest s hs

theorem initVisit_isSome {e : Nat} {s : IOAPIC} (h : t.Fits e 2) : (initVisit t e s).isSome ↔ InitFits t e := by
  have hbyte : word t.entries 1 (e + 3) < 1024 := Nat.lt_trans word_lt (by decide)
  unfold initVisit InitFits
  rw [read_type h, Option.bind_eq_bind, Option.bind_some]
  by_cases hio : t.typeAt e = typeIOAPIC
  · have hiso : t.typeAt e ≠ typeISO := by rw [hio]; decide
    by_cases hfits : t.Fits e 12
    · simp [hio, hfits, typeIOAPIC, typeISO, read_of_fits (hfits.mono (by omega : e + 4 + 4 ≤ e + 12)),
        read_of_fits (hfits.mono (by omega : e + 8 + 4 ≤ e + 12))]
    · have hread : t.read 4 (e + 8) = none := read_of_not_fits fun h => hfits (h.mono (by omega))
      simp [hio, hfits, hread]
  · by_cases hiso : t.typeAt e = typeISO
    · by_cases hfits : t.Fits e 8
      · simp [hiso, hfits, typeIOAPIC, typeISO, read_of_fits (hfits.mono (by omega : e + 4 + 4 ≤ e + 8)),
          read_of_fits (hfits.mono (by omega : e + 2 + 1 ≤ e + 8)),
          read_of_fits (hfits.mono (by omega : e + 3 + 1 ≤ e + 8)), hbyte]
      · have hread : t.read 4 (e + 4) = none := read_of_not_fits fun h => hfits (h.mono (by omega))
        simp [hiso, hfits, typeIOAPIC, typeISO, hread]
    · simp [hio, hiso]

/-! ## When the loops end -/

/-- A table that the header says to be shorter than the header. -/
theorem not_returns_short (hlt : t.length < sizeofMADT) : ¬Returns (walkRound t visit) (0, s) r :=
  not_returns_of_none (walkRound_none (getNextEntry_short hlt (by decide)))

theorem walk_iff (hlen : t.length < 2 ^ 32) :
    (∃ r, Returns (walkRound t visit) (0, s) r) ↔
      sizeofMADT ≤ t.length ∧ ∃ es, Tiled t 0 es ∧ (es.foldlM (fun s entry => visit entry s) s).isSome := by
  constructor
  · rintro ⟨r, hret⟩
    have h44 : sizeofMADT ≤ t.length := by
      by_contra hlt
      exact not_returns_short (Nat.lt_of_not_le hlt) hret
    obtain ⟨es, htiled, hfold⟩ := (walk_returns_iff h44 hlen).1 hret
    exact ⟨h44, es, htiled, by rw [hfold]; rfl⟩
  · rintro ⟨h44, es, htiled, hfold⟩
    obtain ⟨r, hr⟩ := Option.isSome_iff_exists.1 hfold
    exact ⟨r, (walk_returns_iff h44 hlen).2 ⟨es, htiled, hr⟩⟩

/-- **When the loop of `GatherInfo` ends**, with all reads in the table and all indices in `g_Info`. -/
theorem gatherInfo_iff (hlen : t.length < 2 ^ 32) {s : Cores} (hs : s.numCores = 0) :
    (∃ r, Returns (gatherRound t) (0, s) r) ↔
      sizeofMADT ≤ t.length ∧ ∃ es, Tiled t 0 es ∧ (∀ e ∈ es, GatherFits t e) ∧
        (es.filter (t.Enabled ·)).length ≤ maxCoreCount := by
  rw [gatherRound, walk_iff hlen]
  refine and_congr_right fun _ => exists_congr fun es => and_congr_right fun htiled => ?_
  rw [gather_isSome_iff htiled.fits (by omega), hs, Nat.zero_add]

/-- **When the loop of `IOAPIC::Init` ends**, with all reads in the table and all indices in `g_GSIMapping`. -/
theorem ioapicInit_iff (hlen : t.length < 2 ^ 32) (s : IOAPIC) :
    (∃ r, Returns (initRound t) (0, s) r) ↔
      sizeofMADT ≤ t.length ∧ ∃ es, Tiled t 0 es ∧ ∀ e ∈ es, InitFits t e := by
  rw [initRound, walk_iff hlen]
  refine and_congr_right fun _ => exists_congr fun es => and_congr_right fun htiled => ?_
  exact foldlM_isSome_of_all fun e he s => initVisit_isSome (htiled.fits e he)

end ChenixOS.ACPI
