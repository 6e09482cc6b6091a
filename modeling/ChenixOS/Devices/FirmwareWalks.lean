import ChenixOS.Acpi.MADT
import ChenixOS.Devices.PCI

/-!
# Walks through data of the firmware

The capability list of a PCI function is linked by offsets in the configuration header. The walk over it clears the
`addressHigh` of each 64-bit MSI capability, and may so clear an offset that it comes to later.

**Theorem (`firmwareWalks_iff`).** The loops over the MADT end, and stay in the table and in their arrays, exactly for
a table that entries of lengths other than zero tile, with the fields that are read inside of it and at most 128
enabled cores. The walk over the capability list ends exactly if the list comes to a capability whose offset is zero
or has been cleared.
-/

namespace ChenixOS.PCI

open ByteMemory Loop

variable {mem : Memory} {memBase p k x : Nat} {ps : List Nat} {msi : Option Nat} {r : Memory × Option Nat}

/-- `cap->nextPtr` of the capability at the offset `p`. -/
def capNext (mem : Memory) (memBase p : Nat) : Nat := load addressSize mem 1 (memBase + p + 1)

/-- The capability list of the header: where it is after `k` capabilities. -/
def capAt (mem : Memory) (memBase p : Nat) : (k : Nat) → Nat
  | 0 => p
  | k + 1 => capNext mem memBase (capAt mem memBase p k)

/-- The memory when the walk has visited the capabilities at the offsets `ps`. -/
def clearedBy (mem : Memory) (memBase : Nat) (ps : List Nat) : Memory :=
  ps.foldl (fun mem p => clearAddressHigh mem (memBase + p)) mem

/-- The memory when the walk has visited `k` capabilities. -/
def clearedAt (mem : Memory) (memBase p k : Nat) : Memory :=
  clearedBy mem memBase ((List.range k).map (capAt mem memBase p))

/-- **The list comes to an end**: one of its capabilities has the next offset zero, or has had it cleared by itself or
one before it. -/
def CapsEnd (mem : Memory) (memBase p : Nat) : Prop :=
  ∃ k, capNext (clearedAt mem memBase p (k + 1)) memBase (capAt mem memBase p k) = 0

theorem clearAddressHigh_cases (mem : Memory) (cap x : Nat) :
    clearAddressHigh mem cap x = mem x ∨ clearAddressHigh mem cap x = 0 := by
  unfold clearAddressHigh
  split_ifs
  · by_cases hx : ∃ i < 4, x = (cap + 8 + i) % addressSize
    · obtain ⟨i, hi, rfl⟩ := hx
      rw [store_of_mem hi (by decide), Words.byte_zero]
      exact .inr rfl
    · exact .inl (store_of_ne fun i hi h => hx ⟨i, hi, h⟩)
  · exact .inl rfl

theorem clearedBy_cases (mem : Memory) (memBase : Nat) (ps : List Nat) (x : Nat) :
    clearedBy mem memBase ps x = mem x ∨ clearedBy mem memBase ps x = 0 := by
  induction ps generalizing mem with
  | nil => exact .inl rfl
  | cons p ps ih =>
    rcases ih (clearAddressHigh mem (memBase + p)) with h | h
    · rcases clearAddressHigh_cases mem (memBase + p) x with h' | h'
      · exact .inl (h.trans h')
      · exact .inr (h.trans h')
    · exact .inr h

/-- An offset that is not cleared is that of the header. -/
theorem capNext_clearedAt (h : capNext (clearedAt mem memBase p k) memBase x ≠ 0) :
    capNext (clearedAt mem memBase p k) memBase x = capNext mem memBase x := by
  simp only [capNext, load_one] at h ⊢
  rcases clearedBy_cases mem memBase ((List.range k).map (capAt mem memBase p)) ((memBase + x + 1) % addressSize) with
    heq | hzero
  · exact congrArg UInt8.toNat heq
  · exact absurd (congrArg UInt8.toNat hzero) h

theorem clearedAt_succ :
    clearedAt mem memBase p (k + 1) = clearAddressHigh (clearedAt mem memBase p k) (memBase + capAt mem memBase p k) := by
  rw [clearedAt, List.range_succ, List.map_append, clearedBy, List.foldl_append]
  rfl

/-- **One round of the walk** goes one capability further, or ends it. -/
theorem capRound_at (mem : Memory) (memBase p k : Nat) (msi : Option Nat) :
    ∃ msi', capRound memBase ⟨clearedAt mem memBase p k, capAt mem memBase p k, msi⟩ =
      if capNext (clearedAt mem memBase p (k + 1)) memBase (capAt mem memBase p k) = 0 then
        some (.done (clearedAt mem memBase p (k + 1), msi'))
      else some (.next ⟨clearedAt mem memBase p (k + 1), capAt mem memBase p (k + 1), msi'⟩) := by
  let cap := memBase + capAt mem memBase p k
  refine ⟨if load addressSize (clearedAt mem memBase p k) 1 cap = capMSI then some cap else msi, ?_⟩
  unfold capRound
  dsimp only
  rw [← clearedAt_succ]
  by_cases hzero : capNext (clearedAt mem memBase p (k + 1)) memBase (capAt mem memBase p k) = 0
  · rw [if_pos hzero]
    exact if_pos hzero
  · rw [if_neg hzero, capAt, ← capNext_clearedAt hzero]
    exact if_neg hzero

/-- The walk from capability `k` on ends if a later one ends it. -/
theorem exists_returns_of_end {j : Nat} (hle : k ≤ j)
    (hend : capNext (clearedAt mem memBase p (j + 1)) memBase (capAt mem memBase p j) = 0) :
    ∃ r, Returns (capRound memBase) ⟨clearedAt mem memBase p k, capAt mem memBase p k, msi⟩ r := by
  obtain ⟨d, rfl⟩ := Nat.exists_eq_add_of_le hle
  induction d generalizing k msi with
  | zero =>
    obtain ⟨msi', hround⟩ := capRound_at mem memBase p k msi
    simp only [Nat.add_zero] at hend
    rw [if_pos hend] at hround
    exact ⟨_, .done hround⟩
  | succ d ih =>
    obtain ⟨msi', hround⟩ := capRound_at mem memBase p k msi
    split_ifs at hround with hzero
    · exact ⟨_, .done hround⟩
    · have hindex : k + (d + 1) = k + 1 + d := by omega
      rw [hindex] at hend
      obtain ⟨r, hr⟩ := @ih (k + 1) msi' (Nat.le_add_right _ _) hend
      exact ⟨r, .next hround hr⟩

theorem capsEnd_of_returns
    (h : Returns (capRound memBase) ⟨clearedAt mem memBase p k, capAt mem memBase p k, msi⟩ r) :
    CapsEnd mem memBase p := by
  generalize hw : CapWalk.mk (clearedAt mem memBase p k) (capAt mem memBase p k) msi = w at h
  induction h generalizing k msi with
  | done hbody =>
    subst hw
    obtain ⟨msi', hround⟩ := capRound_at mem memBase p k msi
    split_ifs at hround with hzero
    · exact ⟨k, hzero⟩
    · cases hround ▸ hbody
  | next hbody _ ih =>
    subst hw
    obtain ⟨msi', hround⟩ := capRound_at mem memBase p k msi
    split_ifs at hround with hzero
    · exact ⟨k, hzero⟩
    · rw [hround] at hbody
      cases hbody
      exact ih rfl

/-- **When the walk over the capability list ends.** -/
theorem capWalk_iff : (∃ r, Returns (capRound memBase) ⟨mem, p, msi⟩ r) ↔ CapsEnd mem memBase p :=
  ⟨fun ⟨_, hr⟩ => @capsEnd_of_returns mem memBase p 0 msi _ hr, fun ⟨k, hk⟩ => exists_returns_of_end (Nat.zero_le k) hk⟩

/-- The capability list that `CheckFunction` walks, if it walks one. -/
def capList (group : Group) (bus device func : Nat) (mem : Memory) : Option Nat :=
  if group.readConfigDWord mem bus device func 0 &&& 0xFFFF = 0xFFFF then none
  else if group.readConfigDWord mem bus device func 0x06 % 2 ^ 8 &&& 0x10 ≠ 0 then
    some (group.readConfigDWord mem bus device func 0x34 % 2 ^ 8)
  else none

theorem checkFunction_iff (group : Group) (bus device func : Nat) (mem : Memory) :
    (∃ fuel r, checkFunction fuel group bus device func mem = some r) ↔
      ∀ p, capList group bus device func mem = some p → CapsEnd mem (getMemBase group bus device func) p := by
  unfold checkFunction capList
  dsimp only
  split_ifs with hid hcap
  · simp
  · simp only [Option.some.injEq, forall_eq', ← @capWalk_iff _ _ _ none, returns_iff, Option.map_eq_some_iff]
    obtain ⟨n, bars, hdev⟩ := scanBARs_keeps (fun i => group.readConfigDWord mem bus device func (0x10 + i * 4)) 6 0 _
    rw [hdev]
    constructor
    · rintro ⟨fuel, _, r, hr, -⟩
      exact ⟨r, fuel, hr⟩
    · rintro ⟨r, fuel, hr⟩
      exact ⟨fuel, _, r, hr, rfl⟩
  · simp

/-- **When the walks through the tables of the firmware end**, and stay in them. -/
theorem firmwareWalks_iff (t : ACPI.MADT) (hlen : t.length < 2 ^ 32) (cores : ACPI.Cores)
    (hcores : cores.numCores = 0) (ioapic : ACPI.IOAPIC) (group : Group) (bus device func : Nat) (mem : Memory) :
    ((∃ r, Returns (ACPI.gatherRound t) (0, cores) r) ↔
        ACPI.sizeofMADT ≤ t.length ∧ ∃ es, ACPI.Tiled t 0 es ∧ (∀ e ∈ es, ACPI.GatherFits t e) ∧
          (es.filter (t.Enabled ·)).length ≤ ACPI.maxCoreCount) ∧
      ((∃ r, Returns (ACPI.initRound t) (0, ioapic) r) ↔
        ACPI.sizeofMADT ≤ t.length ∧ ∃ es, ACPI.Tiled t 0 es ∧ ∀ e ∈ es, ACPI.InitFits t e) ∧
      ((∃ fuel r, checkFunction fuel group bus device func mem = some r) ↔
        ∀ p, capList group bus device func mem = some p → CapsEnd mem (getMemBase group bus device func) p) :=
  ⟨ACPI.gatherInfo_iff hlen hcores, ACPI.ioapicInit_iff hlen ioapic, checkFunction_iff group bus device func mem⟩

/-- A table with one disabled local APIC. -/
def oneCore : ACPI.MADT := ⟨52, fun offs => if offs = 1 then 8 else 0⟩

theorem firmwareWalks_oneCore :
    ((∃ r, Returns (ACPI.gatherRound oneCore) (0, ⟨0, fun _ => ⟨0, 0⟩⟩) r) ↔
        ACPI.sizeofMADT ≤ oneCore.length ∧ ∃ es, ACPI.Tiled oneCore 0 es ∧ (∀ e ∈ es, ACPI.GatherFits oneCore e) ∧
          (es.filter (oneCore.Enabled ·)).length ≤ ACPI.maxCoreCount) ∧
      ((∃ r, Returns (ACPI.initRound oneCore) (0, ⟨0, fun _ => 0⟩) r) ↔
        ACPI.sizeofMADT ≤ oneCore.length ∧ ∃ es, ACPI.Tiled oneCore 0 es ∧ ∀ e ∈ es, ACPI.InitFits oneCore e) ∧
      ((∃ fuel r, checkFunction fuel segment 0 31 2 (fun _ => 0) = some r) ↔
        ∀ p, capList segment 0 31 2 (fun _ => 0) = some p → CapsEnd (fun _ => 0) (getMemBase segment 0 31 2) p) :=
  firmwareWalks_iff oneCore (by decide) ⟨0, fun _ => ⟨0, 0⟩⟩ rfl ⟨0, fun _ => 0⟩ segment 0 31 2 fun _ => 0

/-- A function whose only capability links to itself. -/
def selfLinked : Memory := fun a =>
  if a = 0xB00FA006 then 0x10 else if a = 0xB00FA034 then 0x40 else if a = 0xB00FA041 then 0x40 else 0

/-- An entry of a reserved type, with length zero. -/
def zeroEntry : ACPI.MADT := ⟨60, fun offs => if offs = 0 then 0xFF else 0⟩

theorem selfLinked_at (k : Nat) : capAt selfLinked 0xB00FA000 0x40 k = 0x40 ∧
    clearedAt selfLinked 0xB00FA000 0x40 k = selfLinked := by
  induction k with
  | zero => exact ⟨rfl, rfl⟩
  | succ k ih =>
    constructor
    · rw [capAt, ih.1]
      decide
    · rw [clearedAt_succ, ih.1, ih.2]
      exact if_neg (by decide)

/-- An entry of length zero in the MADT, and a capability that links to itself. -/
theorem firmwareWalks_endless :
    (¬∃ r, Returns (ACPI.gatherRound zeroEntry) (0, ⟨0, fun _ => ⟨0, 0⟩⟩) r) ∧
      (¬∃ r, Returns (ACPI.initRound zeroEntry) (0, ⟨0, fun _ => 0⟩) r) ∧
      ¬∃ fuel r, checkFunction fuel segment 0 31 2 selfLinked = some r := by
  have hfits : zeroEntry.Fits 0 2 := by decide
  refine ⟨fun ⟨r, hr⟩ => ACPI.not_returns_of_zero (by decide) hfits rfl hr,
    fun ⟨r, hr⟩ => ACPI.not_returns_of_zero (by decide) hfits rfl hr, fun h => ?_⟩
  obtain ⟨k, hk⟩ := (checkFunction_iff segment 0 31 2 selfLinked).1 h 0x40 (by decide +kernel)
  have hbase : getMemBase segment 0 31 2 = 0xB00FA000 := rfl
  rw [hbase, (selfLinked_at _).1, (selfLinked_at _).2] at hk
  exact absurd hk (by decide)

end ChenixOS.PCI
