import ChenixOS.Devices.PCI

/-!
# The accessors of the configuration space

Drivers give the offset of a register in bytes. The pointer arithmetic of the accessors is in units of the value
that they read or write, so an accessor of `size` bytes uses the bytes at `size * reg`.

**Theorem (`configAccessors_iff`).** An accessor of more than one byte meets the bytes at the offset only for the
register 0, and there it agrees with the accessor of the scan if the first group with the identifier of the device's
group is at the same place. `EnableBusMaster` and `EnableMemoryMaster` change the byte at offset 8: they leave
everything but the command register as it is exactly if their bit is set there already.
-/

namespace ChenixOS.PCI

open ByteMemory Words

variable {groups : List Group} {g g' : Group} {dev : Device} {mem : Memory} {size reg r r' val on base : Nat}

/-! ## Bytes and registers -/

/-- The configuration space of a device, as `ReadConfigByte` reads it. -/
def configBytes (groups : List Group) (mem : Memory) (dev : Device) : Nat → UInt8 :=
  fun r => UInt8.ofNat (readConfigByte groups mem dev r)

/-- A write of `size` bytes at an offset changes exactly the bytes there. -/
def Edits (groups : List Group) (dev : Device) (write : Memory → Nat → Memory) (size reg : Nat) : Prop :=
  ∀ mem val r, r < 2 ^ 32 → configBytes groups (write mem val) dev r =
    if reg ≤ r ∧ r < reg + size then byte val (r - reg) else configBytes groups mem dev r

/-- **The accessors agree at an offset**, as far as it is aligned for them; the device was found in the group `g`. -/
structure AccessorsAgree (groups : List Group) (g : Group) (dev : Device) (reg : Nat) : Prop where
  readWord : 2 ∣ reg → ∀ mem, readConfigWord groups mem dev reg = word (configBytes groups mem dev) 2 reg
  readDWord : 4 ∣ reg → ∀ mem, readConfigDWord groups mem dev reg = word (configBytes groups mem dev) 4 reg
  readQWord : 8 ∣ reg → ∀ mem, readConfigQWord groups mem dev reg = word (configBytes groups mem dev) 8 reg
  scanDWord : 4 ∣ reg → ∀ mem,
    readConfigDWord groups mem dev reg = g.readConfigDWord mem dev.bus dev.device dev.function reg
  writeByte : Edits groups dev (writeConfigByte groups · dev reg ·) 1 reg
  writeWord : 2 ∣ reg → Edits groups dev (writeConfigWord groups · dev reg ·) 2 reg
  writeDWord : 4 ∣ reg → Edits groups dev (writeConfigDWord groups · dev reg ·) 4 reg
  writeQWord : 8 ∣ reg → Edits groups dev (writeConfigQWord groups · dev reg ·) 8 reg

/-- The accessors find the configuration space where the group `g` has it. -/
def SameBase (groups : List Group) (g : Group) (dev : Device) : Prop :=
  ∃ g', findGroup groups dev = some g' ∧
    getMemBase g' dev.bus dev.device dev.function = getMemBase g dev.bus dev.device dev.function

/-- Only the two bytes of the command register may differ. -/
def OnlyCommand (groups : List Group) (dev : Device) (mem mem' : Memory) : Prop :=
  ∀ r < 2 ^ 32, r ≠ 4 → r ≠ 5 → configBytes groups mem' dev r = configBytes groups mem dev r

theorem exists_findGroup (hg : g ∈ groups) (hid : g.id = dev.group) : ∃ g', findGroup groups dev = some g' :=
  Option.isSome_iff_exists.1 (List.find?_isSome.2 ⟨g, hg, by simp [hid]⟩)

theorem getMemBase_mod (bus device func : Nat) :
    getMemBase g bus device func % addressSize = getMemBase g bus device func :=
  Nat.mod_mod _ _

/-- Offsets of the configuration space do not wrap around. -/
theorem address_inj (hr : r < 2 ^ 36) (hr' : r' < 2 ^ 36)
    (h : (base + r) % addressSize = (base + r') % addressSize) : r = r' := by
  unfold addressSize at h
  omega

/-! ## The bytes that an accessor uses -/

theorem configBytes_eq (hg : findGroup groups dev = some g) (mem : Memory) (r : Nat) :
    configBytes groups mem dev r = mem ((getMemBase g dev.bus dev.device dev.function + r) % addressSize) := by
  simp only [configBytes, readConfigByte, readConfig, hg, load_one, configPtr, Nat.one_mul, UInt8.ofNat_toNat]

theorem readConfig_eq (hg : findGroup groups dev = some g) (size : Nat) (mem : Memory) (reg : Nat) :
    readConfig size groups mem dev reg = word (configBytes groups mem dev) size (size * reg) := by
  have hbytes : configBytes groups mem dev =
      fun r => mem ((getMemBase g dev.bus dev.device dev.function + r) % addressSize) :=
    funext fun r => configBytes_eq hg mem r
  rw [hbytes, @word_comp_add (fun x => mem (x % addressSize))]
  simp only [readConfig, hg, load, configPtr]

/-- **A write of `size` bytes changes the bytes from `size * reg` on.** -/
theorem configBytes_write (hg : findGroup groups dev = some g) (hsize : size ≤ 8) (hreg : reg < 2 ^ 32)
    (hr : r < 2 ^ 32) : configBytes groups (writeConfig size groups mem dev reg val) dev r =
      if size * reg ≤ r ∧ r < size * reg + size then byte val (r - size * reg) else configBytes groups mem dev r := by
  have hle : size * reg ≤ 8 * reg := Nat.mul_le_mul_right _ hsize
  rw [configBytes_eq hg, configBytes_eq hg]
  simp only [writeConfig, hg, configPtr]
  split_ifs with hin
  · obtain ⟨i, rfl⟩ := Nat.exists_eq_add_of_le hin.1
    rw [Nat.add_sub_cancel_left, ← Nat.add_assoc, store_of_mem (by omega)]
    unfold addressSize
    omega
  · refine store_of_ne fun i hi h => hin ?_
    rw [Nat.add_assoc] at h
    have := address_inj (by omega) (by omega) h
    omega

/-! ## Where the accessors agree -/

theorem edits_of_zero (hg : findGroup groups dev = some g) (hsize : size ≤ 8) :
    Edits groups dev (writeConfig size groups · dev 0 ·) size 0 := fun mem val r hr => by
  rw [configBytes_write hg hsize (by decide) hr, Nat.mul_zero]

theorem edits_byte (hg : findGroup groups dev = some g) (hreg : reg < 2 ^ 32) :
    Edits groups dev (writeConfigByte groups · dev reg ·) 1 reg := fun mem val r hr => by
  rw [writeConfigByte, configBytes_write hg (by decide) hreg hr, Nat.one_mul]

/-- The memory with a single one. -/
def oneAt (p : Nat) : Memory := fun x => if x = p then 1 else 0

/-- **Away from register 0 a word is not read where it is.** -/
theorem readConfigWord_ne (hg : findGroup groups dev = some g) (hpos : 0 < reg) (hdvd : 2 ∣ reg)
    (hreg : reg < 2 ^ 32) : ∃ mem, readConfigWord groups mem dev reg ≠ word (configBytes groups mem dev) 2 reg := by
  let base := getMemBase g dev.bus dev.device dev.function
  refine ⟨oneAt ((base + reg) % addressSize), ?_⟩
  have hother : ∀ r, r ≠ reg → r < 2 ^ 34 →
      configBytes groups (oneAt ((base + reg) % addressSize)) dev r = 0 := by
    intro r hne hr
    rw [configBytes_eq hg, oneAt, if_neg]
    exact fun h => hne (address_inj (by omega) (by omega) h)
  have hself : configBytes groups (oneAt ((base + reg) % addressSize)) dev reg = 1 := by
    rw [configBytes_eq hg, oneAt, if_pos rfl]
  rw [readConfigWord, readConfig_eq hg]
  simp only [word, hself, hother (reg + 1) (by omega) (by omega), hother (2 * reg) (by omega) (by omega),
    hother (2 * reg + 1) (by omega) (by omega)]
  decide

/-- Words at different addresses may be different. -/
theorem load_ne {p q : Nat} (h : p % addressSize ≠ q % addressSize) :
    ∃ mem : Memory, load addressSize mem 4 p ≠ load addressSize mem 4 q := by
  refine ⟨oneAt (p % addressSize), fun heq => ?_⟩
  have hmod := congrArg (· % 256) heq
  simp only [load, word_succ] at hmod
  rw [Nat.add_mul_mod_self_left, Nat.add_mul_mod_self_left, oneAt, if_pos rfl, oneAt, if_neg (Ne.symm h)] at hmod
  cases hmod

theorem readConfigDWord_zero (hg : findGroup groups dev = some g) (mem : Memory) :
    readConfigDWord groups mem dev 0 = load addressSize mem 4 (getMemBase g dev.bus dev.device dev.function) := by
  rw [readConfigDWord, readConfig, hg]
  dsimp only
  rw [configPtr, Nat.mul_zero, Nat.add_zero]

theorem accessorsAgree_zero (hg : findGroup groups dev = some g')
    (hbase : getMemBase g' dev.bus dev.device dev.function = getMemBase g dev.bus dev.device dev.function) :
    AccessorsAgree groups g dev 0 where
  readWord _ mem := readConfig_eq hg 2 mem 0
  readDWord _ mem := readConfig_eq hg 4 mem 0
  readQWord _ mem := readConfig_eq hg 8 mem 0
  scanDWord _ mem := by rw [readConfigDWord_zero hg, hbase, Group.readConfigDWord, Nat.add_zero]
  writeByte := edits_of_zero hg (by decide)
  writeWord _ := edits_of_zero hg (by decide)
  writeDWord _ := edits_of_zero hg (by decide)
  writeQWord _ := edits_of_zero hg (by decide)

theorem accessorsAgree_of_odd (hg : findGroup groups dev = some g') (hreg : reg < 2 ^ 32) (hodd : ¬2 ∣ reg) :
    AccessorsAgree groups g dev reg where
  readWord h := absurd h hodd
  readDWord h := absurd (Nat.dvd_trans (by decide) h) hodd
  readQWord h := absurd (Nat.dvd_trans (by decide) h) hodd
  scanDWord h := absurd (Nat.dvd_trans (by decide) h) hodd
  writeByte := edits_byte hg hreg
  writeWord h := absurd h hodd
  writeDWord h := absurd (Nat.dvd_trans (by decide) h) hodd
  writeQWord h := absurd (Nat.dvd_trans (by decide) h) hodd

/-- If the accessors agree with the scan, they use the same place. -/
theorem sameBase_of_scan (hg : findGroup groups dev = some g')
    (h : ∀ mem, readConfigDWord groups mem dev 0 = g.readConfigDWord mem dev.bus dev.device dev.function 0) :
    SameBase groups g dev := by
  refine ⟨g', hg, ?_⟩
  by_contra hne
  rw [← getMemBase_mod, ← @getMemBase_mod g] at hne
  obtain ⟨mem, hmem⟩ := load_ne hne
  refine hmem ?_
  have hscan := h mem
  rw [readConfigDWord_zero hg, Group.readConfigDWord, Nat.add_zero] at hscan
  exact hscan

theorem accessorsAgree_iff (hg : findGroup groups dev = some g') (hreg : reg < 2 ^ 32) :
    AccessorsAgree groups g dev reg ↔ ¬2 ∣ reg ∨ reg = 0 ∧ SameBase groups g dev := by
  constructor
  · intro h
    refine or_iff_not_imp_left.2 fun heven => ?_
    have hdvd : 2 ∣ reg := not_not.1 heven
    have hzero : reg = 0 := by
      by_contra hne
      obtain ⟨mem, hmem⟩ := readConfigWord_ne hg (Nat.pos_of_ne_zero hne) hdvd hreg
      exact hmem (h.readWord hdvd mem)
    subst hzero
    exact ⟨rfl, sameBase_of_scan hg (h.scanDWord (Nat.dvd_zero 4))⟩
  · rintro (hodd | ⟨rfl, g'', hg'', hbase⟩)
    · exact accessorsAgree_of_odd hg hreg hodd
    · exact accessorsAgree_zero hg'' hbase

/-! ## The command register -/

/-- A word with some bits of its low byte set. -/
theorem or_low_byte {a b : Nat} (ha : a < 256) (hon : on < 256) :
    (a + 256 * b) ||| on = (a ||| on) + 256 * b := by
  have hmod := @Nat.or_mod_two_pow (a + 256 * b) on 8
  have hdiv := @Nat.or_div_two_pow (a + 256 * b) on 8
  simp only [Nat.reducePow] at hmod hdiv
  rw [Nat.add_mul_mod_self_left, Nat.mod_eq_of_lt ha, Nat.mod_eq_of_lt hon] at hmod
  rw [Nat.add_mul_div_left _ _ (by decide), Nat.div_eq_of_lt ha, Nat.div_eq_of_lt hon, Nat.zero_add,
    Nat.or_zero] at hdiv
  omega

theorem and_mask {v : Nat} (hv : v < 2 ^ 16) : v &&& (0xFFFF ^^^ 0) = v := by
  rw [Nat.xor_zero]
  exact (Nat.and_two_pow_sub_one_eq_mod v 16).trans (Nat.mod_eq_of_lt hv)

/-- **What `WriteConfigMask` with the offset of the command register does**: it sets bits of the byte at offset 8. -/
theorem configBytes_writeConfigMask (hg : findGroup groups dev = some g) (hon : on < 256) (hr : r < 2 ^ 32) :
    configBytes groups (writeConfigMask groups mem dev pciCommand 0 on) dev r =
      if r = 8 then configBytes groups mem dev 8 ||| UInt8.ofNat on else configBytes groups mem dev r := by
  have hlow : (configBytes groups mem dev 8).toNat < 256 := UInt8.toNat_lt _
  have hhigh : (configBytes groups mem dev 9).toNat < 256 := UInt8.toNat_lt _
  have hword : readConfigWord groups mem dev pciCommand = word (configBytes groups mem dev) 2 8 :=
    readConfig_eq hg 2 mem pciCommand
  have hval : word (configBytes groups mem dev) 2 8 =
      (configBytes groups mem dev 8).toNat + 256 * (configBytes groups mem dev 9).toNat := by
    simp only [word, Nat.mul_zero, Nat.add_zero, Nat.reduceAdd]
  have hor : ((configBytes groups mem dev 8).toNat ||| on) < 256 := Nat.or_lt_two_pow (n := 8) hlow hon
  rw [writeConfigMask, hword, hval, and_mask (by omega), or_low_byte hlow hon, writeConfigWord,
    configBytes_write hg (by decide) (by decide) hr]
  have hstart : 2 * pciCommand = 8 := rfl
  rw [hstart]
  by_cases h8 : r = 8
  · subst h8
    rw [if_pos (by omega), if_pos rfl]
    refine UInt8.toNat_inj.1 ?_
    rw [toNat_byte, UInt8.toNat_or, UInt8.toNat_ofNat_of_lt' hon, Nat.sub_self, Nat.pow_zero]
    omega
  · rw [if_neg h8]
    split_ifs with hin
    · obtain rfl : r = 9 := by omega
      refine UInt8.toNat_inj.1 ?_
      rw [toNat_byte]
      omega
    · rfl

theorem onlyCommand_iff (hg : findGroup groups dev = some g) (hon : on < 256) :
    OnlyCommand groups dev mem (writeConfigMask groups mem dev pciCommand 0 on) ↔
      configBytes groups mem dev 8 ||| UInt8.ofNat on = configBytes groups mem dev 8 := by
  constructor
  · intro h
    have h8 := h 8 (by decide) (by decide) (by decide)
    rwa [configBytes_writeConfigMask hg hon (by decide), if_pos rfl] at h8
  · intro h r hr _ _
    rw [configBytes_writeConfigMask hg hon hr]
    split_ifs with heq
    · rw [h, heq]
    · rfl

/-- What holds of all numbers below 256 holds of all bytes. -/
theorem byte_forall {P : UInt8 → Prop} (h : ∀ n < 256, P (UInt8.ofNat n)) (b : UInt8) : P b := by
  have hb := h b.toNat (UInt8.toNat_lt b)
  rwa [UInt8.ofNat_toNat] at hb

theorem byte_or_two (b : UInt8) : b ||| 2 = b ↔ b &&& 2 = 2 := by
  refine byte_forall (P := fun b => b ||| 2 = b ↔ b &&& 2 = 2) ?_ b
  decide +kernel

theorem byte_or_four (b : UInt8) : b ||| 4 = b ↔ b &&& 4 = 4 := by
  refine byte_forall (P := fun b => b ||| 4 = b ↔ b &&& 4 = 4) ?_ b
  decide +kernel

/-- **The accessors of the configuration space**, of a device that stands in a known group. -/
theorem configAccessors_iff (hmem : g ∈ groups) (hid : g.id = dev.group) :
    (∀ reg < 2 ^ 32, AccessorsAgree groups g dev reg ↔ ¬2 ∣ reg ∨ reg = 0 ∧ SameBase groups g dev) ∧
      ∀ mem, (OnlyCommand groups dev mem (enableBusMaster groups mem dev) ↔
          configBytes groups mem dev 8 &&& 4 = 4) ∧
        (OnlyCommand groups dev mem (enableMemoryMaster groups mem dev) ↔
          configBytes groups mem dev 8 &&& 2 = 2) := by
  obtain ⟨g', hg⟩ := exists_findGroup hmem hid
  refine ⟨fun reg hreg => accessorsAgree_iff hg hreg, fun mem => ⟨?_, ?_⟩⟩
  · exact (onlyCommand_iff hg (by decide)).trans (byte_or_four _)
  · exact (onlyCommand_iff hg (by decide)).trans (byte_or_two _)

/-- Function 2 of device 31 on bus 0. -/
def storage : Device where
  group := 0
  bus := 0
  device := 31
  function := 2
  vendorID := 0x8086
  deviceID := 0x2922
  classCode := 0x01
  subclassCode := 0x06
  progIf := 0x01
  numBARs := 0
  BARs := fun _ => 0
  memBase := 0xB00FA000
  msi := none

theorem configAccessors_storage :
    (∀ reg < 2 ^ 32, AccessorsAgree [segment] segment storage reg ↔
        ¬2 ∣ reg ∨ reg = 0 ∧ SameBase [segment] segment storage) ∧
      ∀ mem, (OnlyCommand [segment] storage mem (enableBusMaster [segment] mem storage) ↔
          configBytes [segment] mem storage 8 &&& 4 = 4) ∧
        (OnlyCommand [segment] storage mem (enableMemoryMaster [segment] mem storage) ↔
          configBytes [segment] mem storage 8 &&& 2 = 2) :=
  configAccessors_iff (List.mem_singleton.2 rfl) rfl

/-- With every byte holding its offset, the word at offset 4 is read from offset 8, and `EnableBusMaster` changes the
byte there. -/
theorem configAccessors_storage_differ :
    (readConfigWord [segment] (fun a => UInt8.ofNat a) storage 4 = 0x0908 ∧
        word (configBytes [segment] (fun a => UInt8.ofNat a) storage) 2 4 = 0x0504) ∧
      configBytes [segment] (enableBusMaster [segment] (fun a => UInt8.ofNat a) storage) storage 8 = 0x0C ∧
        configBytes [segment] (fun a => UInt8.ofNat a) storage 8 = 0x08 := by
  decide

end ChenixOS.PCI
