import ChenixOS.Devices.DeviceDriverProof

/-!
# Runs of calls on a block device

One thread calls `GetData` and `SetData` in any order. As long as no read of the device fails, the
cache cannot be told from a flat array. A read that fails leaves its block in the cache, and later
calls take the bytes of that block for those of the device.
-/

namespace ChenixOS.BlockDevice

/-- A call, with the driver as it behaves during the call and the user's buffer. -/
structure Call where
  driver : Driver
  op : Op
  subID : Nat
  pos : Nat
  bufferSize : Nat
  room : Nat
  buffer : Bytes

/-- What the call returns, the user's buffer after it, and the cache. -/
def Call.run (c : Call) (m : Cache) : Int × Bytes × Cache :=
  match c.op with
  | .get => getData c.driver c.subID c.pos c.bufferSize c.room c.buffer m
  | .set =>
    ((setData c.driver c.subID c.pos c.bufferSize c.room c.buffer m).1, c.buffer,
      (setData c.driver c.subID c.pos c.bufferSize c.room c.buffer m).2)

/-- The same call on a flat array. -/
def Call.spec (c : Call) (overlay : Nat → Bytes) : Int × Bytes × (Nat → Bytes) :=
  match c.op with
  | .get => (result c.bufferSize c.room,
      kmemcpy c.buffer 0 (overlay c.subID) c.pos (min c.bufferSize c.room), overlay)
  | .set => (result c.bufferSize c.room, c.buffer,
      written overlay c.subID c.pos c.buffer 0 (min c.bufferSize c.room))

/-- The results of the calls of a run, and what the state becomes. -/
def replay {σ : Type} (f : Call → σ → Int × Bytes × σ) : List Call → σ → List (Int × Bytes) × σ
  | [], s => ([], s)
  | c :: calls, s =>
    let (code, buffer, s) := f c s
    let (results, s) := replay f calls s
    ((code, buffer) :: results, s)

/-- The positions of the call are 64-bit words that do not wrap. -/
structure Call.Fits (dev : Device) (c : Call) : Prop where
  drives : dev.Drives c.driver
  pos : c.pos < 2 ^ 64
  size : c.bufferSize < 2 ^ 64
  get : c.op = .get → c.pos + c.bufferSize ≤ 2 ^ 64
  set : c.op = .set → c.pos + c.bufferSize < 2 ^ 64 ∧
    (c.pos + c.bufferSize) / dev.blockSize c.subID + 1 < 2 ^ 64

/-- The range of the call lies inside the device; for `SetData`, so does the block that contains the
position after it. -/
structure Call.Inside (dev : Device) (c : Call) : Prop where
  drives : dev.Drives c.driver
  pos : c.pos < 2 ^ 64
  size : c.bufferSize < 2 ^ 64
  get : c.op = .get → c.pos + c.bufferSize ≤ dev.numBlocks c.subID * dev.blockSize c.subID
  set : c.op = .set → (c.pos + c.bufferSize) / dev.blockSize c.subID < dev.numBlocks c.subID

section

variable {dev : Device} {c : Call} {m m' : Cache} {overlay : Nat → Bytes}

theorem Call.Inside.fits (h : c.Inside dev) : c.Fits dev where
  drives := h.drives
  pos := h.pos
  size := h.size
  get hop := Nat.le_trans (h.get hop) (dev.size_le c.subID)
  set hop := by
    have hlt := h.set hop
    have hsize := dev.size_le c.subID
    have hnum := dev.numBlocks_lt c.subID
    have hin := (Nat.div_lt_iff_lt_mul (dev.blockSize_pos c.subID)).1 hlt
    exact ⟨by omega, by omega⟩

theorem Call.run_get (h : c.op = .get) : c.run m =
    getData c.driver c.subID c.pos c.bufferSize c.room c.buffer m := by
  rw [Call.run, h]

theorem Call.run_set (h : c.op = .set) : c.run m =
    ((setData c.driver c.subID c.pos c.bufferSize c.room c.buffer m).1, c.buffer,
      (setData c.driver c.subID c.pos c.bufferSize c.room c.buffer m).2) := by
  rw [Call.run, h]

theorem Call.spec_get (h : c.op = .get) : c.spec overlay = (result c.bufferSize c.room,
    kmemcpy c.buffer 0 (overlay c.subID) c.pos (min c.bufferSize c.room), overlay) := by
  rw [Call.spec, h]

theorem Call.spec_set (h : c.op = .set) : c.spec overlay = (result c.bufferSize c.room, c.buffer,
    written overlay c.subID c.pos c.buffer 0 (min c.bufferSize c.room)) := by
  rw [Call.spec, h]

/-- The flags of the entries are kept. -/
def Kept (m m' : Cache) : Prop :=
  ∀ k b, m.block k = some b → ∃ b', m'.block k = some b' ∧ b'.filled = b.filled

theorem Kept.trans {m₁ : Cache} (h₁ : Kept m m₁) (h₂ : Kept m₁ m') : Kept m m' := by
  intro k b hb
  obtain ⟨b₁, hb₁, hf₁⟩ := h₁ k b hb
  obtain ⟨b', hb', hf'⟩ := h₂ k b₁ hb₁
  exact ⟨b', hb', hf'.trans hf₁⟩

/-- No read of a cached block has failed. -/
def AllFilled (m : Cache) : Prop := ∀ k b, m.block k = some b → b.filled = true

theorem AllFilled.of_kept (h : AllFilled m') (hk : Kept m m') : AllFilled m := by
  intro k b hb
  obtain ⟨b', hb', hf⟩ := hk k b hb
  rw [← hf]
  exact h k b' hb'

theorem AllFilled.filled (h : AllFilled m) (subID pos n : Nat) : Filled dev m subID pos n :=
  fun _ _ _ b hb => h _ b hb

/-- **One call**: the cache stands for the overlay after it, and unless a read has failed the call
does what it does on a flat array. -/
theorem Call.run_spec (hc : c.Fits dev) (h : Represents dev m overlay) :
    Represents dev (c.run m).2.2 (c.spec overlay).2.2 ∧ Kept m (c.run m).2.2 ∧
      (AllFilled (c.run m).2.2 → (c.run m).1 = (c.spec overlay).1 ∧
        (c.run m).2.1 = (c.spec overlay).2.1) := by
  cases hop : c.op with
  | get =>
    obtain ⟨code, buffer', m', hrun, hrep, hl, hcase⟩ :=
      getData_spec hc.drives h c.subID c.room c.buffer hc.pos hc.size (hc.get hop)
    rw [Call.run_get hop, Call.spec_get hop, hrun]
    refine ⟨hrep, hl.kept, fun hall => ?_⟩
    rcases hcase with ⟨-, k, b, -, hb, hf⟩ | ⟨hcode, -, -, hcopied⟩
    · rw [hall k b hb] at hf
      cases hf
    · exact ⟨hcode, hcopied (hall.filled _ _ _)⟩
  | set =>
    obtain ⟨m', hrun, hrep, hl, -⟩ :=
      setData_spec hc.drives h c.subID c.room c.buffer (hc.set hop).1 (hc.set hop).2
    rw [Call.run_set hop, Call.spec_set hop, hrun]
    refine ⟨hrep, hl.kept, fun _ => ⟨?_, ?_⟩⟩
    · rfl
    · rfl

/-- **A run of calls**, from any cache that stands for an overlay. -/
theorem replay_spec (calls : List Call) (hc : ∀ c ∈ calls, c.Fits dev)
    (h : Represents dev m overlay) :
    Represents dev (replay Call.run calls m).2 (replay Call.spec calls overlay).2 ∧
      Kept m (replay Call.run calls m).2 ∧
      (AllFilled (replay Call.run calls m).2 →
        (replay Call.run calls m).1 = (replay Call.spec calls overlay).1) := by
  induction calls generalizing m overlay with
  | nil => exact ⟨h, fun k b hb => ⟨b, hb, rfl⟩, fun _ => rfl⟩
  | cons c calls ih =>
    obtain ⟨hrep, hkept, hres⟩ := Call.run_spec (hc c (by simp)) h
    obtain ⟨hrep', hkept', hres'⟩ := ih (fun c' hc' => hc c' (by simp [hc'])) hrep
    simp only [replay]
    refine ⟨hrep', hkept.trans hkept', fun hall => ?_⟩
    obtain ⟨hcode, hbuffer⟩ := hres (hall.of_kept hkept')
    rw [hcode, hbuffer, hres' hall]

end

/-- **The block cache refines the device.** In a run of calls inside the device whose reads succeed,
every call returns what it returns on the flat array of the device's bytes overlaid by what was
written before, and the cache holds one entry for each of its blocks, with the bytes of the array. -/
theorem cache_refines_device (dev : Device) (calls : List Call) (hin : ∀ c ∈ calls, c.Inside dev)
    (hreads : ∀ cb ∈ (replay Call.run calls []).2, cb.filled = true) :
    (replay Call.run calls []).1 = (replay Call.spec calls dev.image).1 ∧
    ((replay Call.run calls []).2.map CachedBlock.key).Nodup ∧
    ∀ cb ∈ (replay Call.run calls []).2, ∀ i < dev.blockSize cb.subID, cb.data i =
      (replay Call.spec calls dev.image).2 cb.subID (cb.blockID * dev.blockSize cb.subID + i) := by
  obtain ⟨hrep, -, hres⟩ :=
    replay_spec calls (fun c hc => (hin c hc).fits) (represents_nil dev)
  refine ⟨hres fun k b hb => hreads b (Cache.mem_of_block hb), hrep.unique, fun cb hcb i hi => ?_⟩
  obtain ⟨n, hn⟩ := List.getElem?_of_mem hcb
  exact hrep.current cb.key cb (hrep.unique.block_of_getElem hn) (hreads cb hcb) i hi

/-! ## A device in memory -/

namespace RamDeviceDriver

/-- What `m_Devices` holds: blocks that are not empty, in memory. -/
structure Valid (dev : DevInfo) : Prop where
  blockSize_pos : 0 < dev.blockSize
  blockSize_lt : dev.blockSize < 2 ^ 64
  numBlocks_lt : dev.numBlocks < 2 ^ 64
  size_le : dev.numBlocks * dev.blockSize ≤ 2 ^ 64

/-- The block device of a `RamDeviceDriver`. -/
def device (devices : Nat → DevInfo) (h : ∀ subID, Valid (devices subID)) : Device where
  blockSize subID := (devices subID).blockSize
  numBlocks subID := (devices subID).numBlocks
  image subID := (devices subID).buffer
  blockSize_pos subID := (h subID).blockSize_pos
  blockSize_lt subID := (h subID).blockSize_lt
  numBlocks_lt subID := (h subID).numBlocks_lt
  size_le subID := (h subID).size_le

/-- **`ScheduleOperation` of the RAM driver reads the bytes of the device.** -/
theorem drives (devices : Nat → DevInfo) (h : ∀ subID, Valid (devices subID))
    (garbage : Nat → Bytes) : (device devices h).Drives (driver devices garbage) where
  blockSize _ := rfl
  reads subID blockID buffer hs i hi := by
    simp only [driver, scheduleOperation] at hs ⊢
    by_cases hout : (blockID + 1) % 2 ^ 64 > (devices subID).numBlocks
    · rw [if_pos hout] at hs
      cases hs
    · have hi' : i < (devices subID).blockSize := hi
      rw [if_neg hout]
      simp [kmemcpy, device, hi']

end RamDeviceDriver

/-- Three blocks of four bytes. -/
def ramDisk : RamDeviceDriver.DevInfo := ⟨fun i => (10 * i).toUInt8, 4, 3⟩

theorem ramDisk_valid (_ : Nat) : RamDeviceDriver.Valid ramDisk :=
  ⟨by decide, by decide, by decide, by decide⟩

/-- A call on the disk, with an accessible buffer. -/
def ramCall (op : Op) (pos bufferSize : Nat) : Call :=
  ⟨RamDeviceDriver.driver (fun _ => ramDisk) fun _ _ => 255, op, 0, pos, bufferSize, bufferSize,
    fun i => i.toUInt8⟩

/-- A write across a boundary and up to the end of a block, then a read of all the device. -/
theorem cache_refines_device_ram :
    let calls := [ramCall .set 2 6, ramCall .get 0 12]
    let dev := RamDeviceDriver.device (fun _ => ramDisk) ramDisk_valid
    (∀ c ∈ calls, c.Inside dev) ∧ (∀ cb ∈ (replay Call.run calls []).2, cb.filled = true) ∧
    (replay Call.run calls []).1 = (replay Call.spec calls dev.image).1 := by
  have hin : ∀ c ∈ [ramCall .set 2 6, ramCall .get 0 12],
      c.Inside (RamDeviceDriver.device (fun _ => ramDisk) ramDisk_valid) := by
    have hD := RamDeviceDriver.drives (fun _ => ramDisk) ramDisk_valid fun _ _ => 255
    intro c hc
    simp only [List.mem_cons, List.not_mem_nil, or_false] at hc
    rcases hc with rfl | rfl
    · exact ⟨hD, by decide, by decide, nofun, fun _ => by decide⟩
    · exact ⟨hD, by decide, by decide, fun _ => by decide, nofun⟩
  have hreads : ∀ cb ∈ (replay Call.run [ramCall .set 2 6, ramCall .get 0 12] []).2,
      cb.filled = true := by
    decide
  exact ⟨hin, hreads, (cache_refines_device _ _ hin hreads).1⟩

/-! ## Reads that fail -/

/-- A call that reports success has used no block whose read failed, and what `GetData` then gives
back are bytes of the device and of earlier calls. -/
structure Call.Honest (dev : Device) (c : Call) (m : Cache) (overlay : Nat → Bytes) : Prop where
  used : (c.run m).1 = OK → ∀ i, c.pos ≤ i → i < c.pos + c.bufferSize →
    ∃ b, (c.run m).2.2.block (c.subID, i / dev.blockSize c.subID) = some b ∧ b.filled = true
  bytes : c.op = .get → (c.run m).1 = OK → (c.run m).2.1 = (c.spec overlay).2.1

/-- Every call of a run is honest. -/
def HonestRun (dev : Device) : List Call → Cache → (Nat → Bytes) → Prop
  | [], _, _ => True
  | c :: calls, m, overlay =>
    c.Honest dev m overlay ∧ HonestRun dev calls (c.run m).2.2 (c.spec overlay).2.2

/-- The call keeps away from the blocks whose read has failed, and no block that `SetData` needs fails
now. -/
structure Call.Clear (dev : Device) (c : Call) (m : Cache) : Prop where
  fits : c.Fits dev
  filled : Filled dev m c.subID c.pos c.bufferSize
  reads : c.op = .set → ∀ i, c.pos ≤ i → i < c.pos + c.bufferSize →
    m.block (c.subID, i / dev.blockSize c.subID) = none →
    ∀ buffer, (c.driver.scheduleOperation c.subID (i / dev.blockSize c.subID) buffer).1 = true

/-- Every call of a run is clear of failed reads. -/
def ClearRun (dev : Device) : List Call → Cache → Prop
  | [], _ => True
  | c :: calls, m => c.Clear dev m ∧ ClearRun dev calls (c.run m).2.2

section

variable {dev : Device} {c : Call} {m m' : Cache} {overlay : Nat → Bytes}

/-- The blocks of a range have no failed reads after a call when they had none before and those that
are new have none. -/
theorem Filled.of_looked {D : Driver} {subID pos n : Nat} (h : Filled dev m subID pos n)
    (hl : Looked D m m')
    (hnew : ∀ i, pos ≤ i → i < pos + n → m.block (subID, i / dev.blockSize subID) = none →
      ∀ b, m'.block (subID, i / dev.blockSize subID) = some b → b.filled = true) :
    Filled dev m' subID pos n := by
  intro i hi hin b' hb'
  cases hk : m.block (subID, i / dev.blockSize subID) with
  | none => exact hnew i hi hin hk b' hb'
  | some b =>
    obtain ⟨b₁, hb₁, hf⟩ := hl.kept _ b hk
    obtain rfl : b₁ = b' := by simpa [hb₁] using hb'
    rw [hf]
    exact h i hi hin b hk

/-- A call that is clear of failed reads is honest. -/
theorem Call.Clear.honest (hc : c.Clear dev m) (h : Represents dev m overlay) :
    c.Honest dev m overlay := by
  cases hop : c.op with
  | get =>
    obtain ⟨code, buffer', m', hrun, -, hl, hcase⟩ :=
      getData_spec hc.fits.drives h c.subID c.room c.buffer hc.fits.pos hc.fits.size (hc.fits.get hop)
    have hspec : code = OK → Cached dev m' c.subID c.pos c.bufferSize ∧
        Filled dev m' c.subID c.pos c.bufferSize ∧
        buffer' = kmemcpy c.buffer 0 (overlay c.subID) c.pos (min c.bufferSize c.room) := by
      intro hok
      rcases hcase with ⟨hbad, -⟩ | ⟨-, hnew, hcached, hcopied⟩
      · rw [hok] at hbad
        exact absurd hbad (by decide)
      · have hf : Filled dev m' c.subID c.pos c.bufferSize :=
          hc.filled.of_looked hl fun i _ _ hk b hb => hnew _ b hk hb
        exact ⟨hcached hok, hf, hcopied hf⟩
    constructor
    · rw [Call.run_get hop, hrun]
      intro hok i hi hin
      obtain ⟨hcached, hfilled, -⟩ := hspec hok
      obtain ⟨b, hb⟩ := hcached i hi hin
      exact ⟨b, hb, hfilled i hi hin b hb⟩
    · rw [Call.run_get hop, Call.spec_get hop, hrun]
      exact fun _ hok => (hspec hok).2.2
  | set =>
    obtain ⟨m', hrun, -, hl, hcached⟩ := setData_spec hc.fits.drives h c.subID c.room c.buffer
      (hc.fits.set hop).1 (hc.fits.set hop).2
    have hf : Filled dev m' c.subID c.pos c.bufferSize := by
      refine hc.filled.of_looked hl fun i hi hin hk b hb => ?_
      obtain ⟨buffer, hb'⟩ := hl.new _ b hk hb
      rw [hb']
      exact hc.reads hop i hi hin hk buffer
    constructor
    · rw [Call.run_set hop, hrun]
      intro hok i hi hin
      obtain ⟨b, hb⟩ := hcached (result_eq_ok hok) i hi hin
      exact ⟨b, hb, hf i hi hin b hb⟩
    · rw [hop]
      exact nofun

theorem ClearRun.honest (calls : List Call) (hc : ClearRun dev calls m)
    (h : Represents dev m overlay) : HonestRun dev calls m overlay := by
  induction calls generalizing m overlay with
  | nil => trivial
  | cons c calls ih =>
    obtain ⟨hcall, hrest⟩ := hc
    exact ⟨hcall.honest h, ih hrest (Call.run_spec hcall.fits h).1⟩

end

/-- **Failed reads are not served** in a run whose calls keep away from the blocks whose read failed,
and whose `SetData` calls meet no failing read. -/
theorem failed_reads_not_served (dev : Device) (calls : List Call) (hc : ClearRun dev calls []) :
    HonestRun dev calls [] dev.image :=
  hc.honest calls (represents_nil dev)

/-- The read after the end of the disk fails; the read of its first bytes does not mind. -/
theorem failed_reads_not_served_ram :
    let dev := RamDeviceDriver.device (fun _ => ramDisk) ramDisk_valid
    ClearRun dev [ramCall .get 12 1, ramCall .get 0 12] [] ∧
    ((ramCall .get 12 1).run []).1 = -1 ∧
    HonestRun dev [ramCall .get 12 1, ramCall .get 0 12] [] dev.image := by
  have hD := RamDeviceDriver.drives (fun _ => ramDisk) ramDisk_valid fun _ _ => 255
  have hclear : ClearRun (RamDeviceDriver.device (fun _ => ramDisk) ramDisk_valid)
      [ramCall .get 12 1, ramCall .get 0 12] [] := by
    refine ⟨⟨⟨hD, by decide, by decide, fun _ => by decide, nofun⟩, ?_, nofun⟩,
      ⟨⟨hD, by decide, by decide, fun _ => by decide, nofun⟩, ?_, nofun⟩, trivial⟩
    · exact fun i _ _ b hb => by simp [Cache.block] at hb
    · intro i hi hin b hb
      have hlt : i / 4 < 3 := by
        have : i < 12 := by simpa [ramCall] using hin
        omega
      have hnone : ∀ n < 3, Cache.block ((ramCall .get 12 1).run []).2.2 (0, n) = none := by
        decide
      have : Cache.block ((ramCall .get 12 1).run []).2.2 (0, i / 4) = some b := hb
      rw [hnone _ hlt] at this
      cases this
  exact ⟨hclear, by decide, failed_reads_not_served _ _ hclear⟩

/-- The second read of a byte after the end of the disk succeeds, with what happened to be in the
memory of the cache. -/
theorem ram_failed_read_served :
    let dev := RamDeviceDriver.device (fun _ => ramDisk) ramDisk_valid
    let first := (ramCall .get 12 1).run []
    let second := (ramCall .get 12 1).run first.2.2
    first.1 = -1 ∧ second.1 = OK ∧ second.2.1 0 = 255 ∧
    ¬ HonestRun dev [ramCall .get 12 1, ramCall .get 12 1] [] dev.image := by
  refine ⟨by decide, by decide, by decide, ?_⟩
  rintro ⟨-, hsecond, -⟩
  obtain ⟨b, hb, hf⟩ := hsecond.used (by decide) 12 (by decide) (by decide)
  have hbad : ((ramCall .get 12 1).run ((ramCall .get 12 1).run []).2.2).2.2.map
      CachedBlock.filled = [false] := by decide
  have hmem := List.mem_map_of_mem (f := CachedBlock.filled) (Cache.mem_of_block hb)
  rw [hbad, hf] at hmem
  simp at hmem

end ChenixOS.BlockDevice
