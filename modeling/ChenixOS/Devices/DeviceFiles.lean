import ChenixOS.Devices.DriverRegistry

/-!
# Device files and their ids

Any program may create a device file for any two numbers. `CreateDeviceFile` follows the pointer to the
driver without a look at it, so the first number has to be the id of a driver. The second is left to the
drivers. The character drivers check it; the block drivers do not: for a number that is not one of its
devices the ram driver reads behind its vector, and the disk driver reports blocks of size zero, by which
the cache divides.

The disk driver would also leave its caller waiting, but the division comes first.
-/

namespace ChenixOS.DeviceFiles

open BlockDevice VFS

variable {s s' s'' : State} {n n' : DeviceNode} {driverID subID : Nat}

/-! ## Which devices there are -/

/-- There is such a device, and its blocks are not empty. -/
def BlockDevices.serves (D : BlockDevices) (subID : Nat) : Bool :=
  match D with
  | ram m_Devices => m_Devices[subID]?.any fun dev => dev.blockSize ≠ 0
  | ahci mDriveLists => mDriveLists[subID]?.any fun drive => drive.blksize ≠ 0

/-- A character driver can be given any number. -/
def DeviceDriver.serves (driver : DeviceDriver) (subID : Nat) : Bool :=
  match driver with
  | char _ => true
  | block driver => driver.devices.serves subID

/-- The driver is registered, and it serves the device. -/
def State.serves (s : State) (driverID subID : Nat) : Bool :=
  (s.getDriver driverID).any fun driver => driver.serves subID

/-! ## What a block driver does with its device -/

namespace BlockDevices

variable {D : BlockDevices}

theorem getBlockSize_of_serves (h : D.serves subID = true) :
    ∃ blockSize, D.getBlockSize subID = .ok blockSize ∧ blockSize ≠ 0 := by
  cases D with
  | ram m_Devices =>
    obtain ⟨dev, hdev, hsize⟩ := (Option.any_eq_true _ _).1 h
    exact ⟨dev.blockSize, by simp [getBlockSize, hdev], of_decide_eq_true hsize⟩
  | ahci mDriveLists =>
    obtain ⟨drive, hdrive, hsize⟩ := (Option.any_eq_true _ _).1 h
    exact ⟨drive.blksize, by simp [getBlockSize, hdrive], of_decide_eq_true hsize⟩

/-- The finish flag is set. -/
theorem scheduleOperation_of_serves (h : D.serves subID = true) (blockID : Nat) (buffer : Bytes) :
    ∃ answer, D.scheduleOperation subID blockID buffer = .ok (some answer) := by
  cases D with
  | ram m_Devices =>
    obtain ⟨dev, hdev, -⟩ := (Option.any_eq_true _ _).1 h
    simp only [scheduleOperation, hdev]
    exact ⟨_, rfl⟩
  | ahci mDriveLists =>
    obtain ⟨drive, hdrive, -⟩ := (Option.any_eq_true _ _).1 h
    simp only [scheduleOperation, hdrive]
    exact ⟨_, rfl⟩

/-- Nothing can be divided by the block size of a device that is not served. -/
theorem div_of_not_serves (h : D.serves subID = false) (a : Nat) :
    ∃ hazard, (D.getBlockSize subID >>= div a) = .error hazard := by
  cases D with
  | ram m_Devices =>
    cases hdev : m_Devices[subID]? with
    | none => exact ⟨.outOfRange, by simp only [getBlockSize, hdev]; rfl⟩
    | some dev =>
      have hsize : dev.blockSize = 0 := by simpa [serves, hdev] using h
      exact ⟨.divisionByZero, by simp only [getBlockSize, hdev, hsize]; rfl⟩
  | ahci mDriveLists =>
    cases hdrive : mDriveLists[subID]? with
    | none => exact ⟨.divisionByZero, by simp only [getBlockSize, hdrive]; rfl⟩
    | some drive =>
      have hsize : drive.blksize = 0 := by simpa [serves, hdrive] using h
      exact ⟨.divisionByZero, by simp only [getBlockSize, hdrive, hsize]; rfl⟩

end BlockDevices

/-! ## The cache on a device that is served -/

@[simp] theorem ok_bind {ε α β : Type} (a : α) (f : α → Except ε β) :
    ((Except.ok a : Except ε α) >>= f) = f a := rfl

@[simp] theorem error_bind {ε α β : Type} (e : ε) (f : α → Except ε β) :
    ((Except.error e : Except ε α) >>= f) = .error e := rfl

theorem ok_ite {α : Type} (c : Prop) [Decidable c] (a b : α) :
    (Except.ok (if c then a else b) : Except Hazard α) = if c then .ok a else .ok b :=
  apply_ite _ _ _ _

namespace BlockDeviceDriver

variable {D : BlockDeviceDriver}

theorem getBlockSize_eq (h : D.devices.serves subID = true) :
    D.devices.getBlockSize subID = .ok (D.driver.blockSize subID) := by
  obtain ⟨blockSize, hsize, -⟩ := D.devices.getBlockSize_of_serves h
  simp [driver, hsize, Except.toOption]

theorem blockSize_ne_zero (h : D.devices.serves subID = true) : D.driver.blockSize subID ≠ 0 := by
  obtain ⟨blockSize, hsize, hne⟩ := D.devices.getBlockSize_of_serves h
  simpa [driver, hsize, Except.toOption] using hne

theorem lookup_eq (h : D.devices.serves subID = true) (blockID : Nat) (m : Cache) :
    D.lookup subID blockID m = .ok (BlockDevice.lookup D.driver subID blockID m) := by
  rcases hcached : getCachedBlock D.driver subID blockID m with ⟨_ | _, cb, m₁⟩
  · obtain ⟨answer, hanswer⟩ := D.devices.scheduleOperation_of_serves h blockID (m₁.data cb)
    have hdriver : D.driver.scheduleOperation subID blockID (m₁.data cb) = answer := by
      simp [driver, hanswer, Except.toOption]
    simp only [lookup, BlockDevice.lookup, hcached, hanswer, ok_bind, hdriver]
  · simp only [lookup, BlockDevice.lookup, hcached]

theorem getLoop_eq (h : D.devices.serves subID = true) (room k blockID pos bufferSize offs : Nat)
    (buffer : Bytes) (m : Cache) :
    D.getLoop subID room k blockID pos bufferSize offs buffer m =
      .ok (BlockDevice.getLoop D.driver subID room k blockID pos bufferSize offs buffer m) := by
  induction k generalizing blockID pos bufferSize offs buffer m with
  | zero => rfl
  | succ k ih =>
    simp only [getLoop, BlockDevice.getLoop, getBlockSize_eq h, lookup_eq h, ok_bind, ih, ok_ite]

theorem setLoop_eq (h : D.devices.serves subID = true) (room : Nat) (buffer : Bytes)
    (k blockID pos bufferSize offs : Nat) (m : Cache) :
    D.setLoop subID room buffer k blockID pos bufferSize offs m =
      .ok (BlockDevice.setLoop D.driver subID room buffer k blockID pos bufferSize offs m) := by
  induction k generalizing blockID pos bufferSize offs m with
  | zero => rfl
  | succ k ih =>
    rw [setLoop, BlockDevice.setLoop, lookup_eq h, ok_bind]
    dsimp only
    rw [getBlockSize_eq h, ok_bind, ih, ok_ite]

theorem div_eq {a b : Nat} (h : b ≠ 0) : div a b = .ok (a / b) := if_neg h

/-- **On a device that is served, `GetData` is the loop over the block cache.** -/
theorem getData_eq (h : D.devices.serves subID = true) (pos bufferSize room : Nat) (buffer : Bytes) :
    D.getData subID pos bufferSize room buffer =
      .ok (BlockDevice.getData D.driver subID pos bufferSize room buffer D.m_Cache) := by
  rw [getData, BlockDevice.getData, getBlockSize_eq h, ok_bind, div_eq (blockSize_ne_zero h), ok_bind,
    ok_bind, div_eq (blockSize_ne_zero h), ok_bind, getLoop_eq h]

theorem setData_eq (h : D.devices.serves subID = true) (pos bufferSize room : Nat) (buffer : Bytes) :
    D.setData subID pos bufferSize room buffer =
      .ok (BlockDevice.setData D.driver subID pos bufferSize room buffer D.m_Cache) := by
  rw [setData, BlockDevice.setData, getBlockSize_eq h, ok_bind, div_eq (blockSize_ne_zero h), ok_bind,
    ok_bind, div_eq (blockSize_ne_zero h), ok_bind, setLoop_eq h]

/-- A read begins with a division by the block size. -/
theorem getData_of_div {pos : Nat} {hazard : Hazard}
    (h : (D.devices.getBlockSize subID >>= div pos) = .error hazard) (bufferSize room : Nat)
    (buffer : Bytes) : D.getData subID pos bufferSize room buffer = .error hazard := by
  cases hsize : D.devices.getBlockSize subID with
  | error hazard' =>
    rw [hsize, error_bind] at h
    cases h
    rw [getData, hsize, error_bind]
  | ok blockSize =>
    rw [hsize, ok_bind] at h
    rw [getData, hsize, ok_bind, h, error_bind]

end BlockDeviceDriver

/-! ## What stays of a driver -/

/-- A driver after a while: of the same type, and no device has gone. -/
structure DeviceDriver.Kept (driver driver' : DeviceDriver) : Prop where
  getType : driver'.getType = driver.getType
  serves (subID : Nat) : driver.serves subID = true → driver'.serves subID = true

theorem DeviceDriver.Kept.rfl {driver : DeviceDriver} : driver.Kept driver := ⟨Eq.refl _, fun _ h => h⟩

/-- The cache of a block driver does not matter. -/
theorem DeviceDriver.Kept.cache (driver : BlockDeviceDriver) (m_Cache : Cache) :
    (DeviceDriver.block driver).Kept (.block { driver with m_Cache }) := ⟨Eq.refl _, fun _ h => h⟩

theorem DeviceDriver.Kept.char (driver driver' : CharDeviceDriver) :
    (DeviceDriver.char driver).Kept (.char driver') := ⟨Eq.refl _, fun _ h => h⟩

theorem any_append {α : Type} {p : α → Bool} {l : List α} {i : Nat} (a : α)
    (h : l[i]?.any p = true) : (l ++ [a])[i]?.any p = true := by
  obtain ⟨x, hx, hp⟩ := (Option.any_eq_true _ _).1 h
  have hlt : i < l.length := (List.getElem?_eq_some_iff.1 hx).1
  rw [List.getElem?_append_left hlt]
  exact h

/-- A new device leaves the others where they are. -/
theorem NewDevice.addTo_kept (dev : NewDevice) (driver : DeviceDriver) :
    driver.Kept (dev.addTo driver) := by
  rcases dev with dev | drive | info <;> rcases driver with (_ | _ | _ | _) | ⟨_ | _, _, _⟩ <;>
    first
      | exact .rfl
      | exact ⟨rfl, fun _ h => h⟩
      | exact ⟨rfl, fun _ h => any_append _ h⟩

/-- Every driver is still registered. -/
def State.Keeps (s s' : State) : Prop :=
  ∀ id driver, s.getDriver id = some driver →
    ∃ driver', s'.getDriver id = some driver' ∧ driver.Kept driver'

theorem State.Keeps.rfl : s.Keeps s := fun _ driver h => ⟨driver, h, .rfl⟩

theorem State.Keeps.trans (h : s.Keeps s') (h' : s'.Keeps s'') : s.Keeps s'' := by
  intro id driver hdriver
  obtain ⟨driver', hdriver', hkept⟩ := h id driver hdriver
  obtain ⟨driver'', hdriver'', hkept'⟩ := h' id driver' hdriver'
  exact ⟨driver'', hdriver'', hkept'.getType.trans hkept.getType,
    fun subID hserves => hkept'.serves subID (hkept.serves subID hserves)⟩

theorem State.Keeps.serves (h : s.Keeps s') (hserves : s.serves driverID subID = true) :
    s'.serves driverID subID = true := by
  obtain ⟨driver, hdriver, hdev⟩ := (Option.any_eq_true _ _).1 hserves
  obtain ⟨driver', hdriver', hkept⟩ := h driverID driver hdriver
  simp [State.serves, hdriver', hkept.serves subID hdev]

/-- Ids are handed out at the end of the list, so nothing hides an older driver. -/
theorem registerDriver_keeps (s : State) (driver : DeviceDriver) : s.Keeps (s.registerDriver driver) := by
  intro id old hold
  obtain ⟨entry, hfind, rfl⟩ := Option.map_eq_some_iff.1 hold
  refine ⟨entry.2, ?_, .rfl⟩
  rw [State.getDriver, State.registerDriver, List.find?_append, hfind]
  rfl

theorem getDriver_updDriver (s : State) (id id' : Nat) (f : DeviceDriver → DeviceDriver) :
    (s.updDriver id f).getDriver id' =
      if id' = id then (s.getDriver id').map f else s.getDriver id' := by
  have hkey : ((fun entry : Nat × DeviceDriver => decide (entry.1 = id')) ∘ fun entry =>
      if entry.1 = id then (entry.1, f entry.2) else entry) = fun entry => decide (entry.1 = id') := by
    funext entry
    simp only [Function.comp_apply]
    split_ifs <;> rfl
  simp only [State.getDriver, State.updDriver, List.find?_map, hkey, Option.map_map]
  cases hfind : s.g_Drivers.find? fun entry => decide (entry.1 = id') with
  | none => simp
  | some entry =>
    have hid : entry.1 = id' := by simpa using List.find?_some hfind
    by_cases heq : id' = id <;> simp [hid, heq]

/-- A driver is changed into one that keeps its devices. -/
theorem updDriver_keeps {id : Nat} {f : DeviceDriver → DeviceDriver}
    (h : ∀ driver, s.getDriver id = some driver → driver.Kept (f driver)) :
    s.Keeps (s.updDriver id f) := by
  intro id' driver hdriver
  rw [getDriver_updDriver]
  by_cases heq : id' = id
  · subst heq
    exact ⟨f driver, by simp [hdriver], h driver hdriver⟩
  · exact ⟨driver, by simp [heq, hdriver], .rfl⟩

theorem updDriver_const_keeps {id : Nat} {driver driver' : DeviceDriver}
    (hdriver : s.getDriver id = some driver) (h : driver.Kept driver') :
    s.Keeps (s.updDriver id fun _ => driver') := by
  refine updDriver_keeps fun old hold => ?_
  rw [hdriver] at hold
  cases hold
  exact h

/-! ## What an operation leaves -/

section Keeps

variable {pos bufferSize room : Nat} {buffer : Bytes} {res : Int}

theorem read_keeps {buffer' : Bytes}
    (h : _read s n pos bufferSize room buffer = .ok (res, buffer', s')) : s.Keeps s' := by
  unfold _read at h
  split at h
  case h_1 driver _ hdriver =>
    cases h
    exact updDriver_const_keeps hdriver (.char _ _)
  case h_2 driver _ hdriver =>
    cases hget : driver.getData n.subID pos bufferSize room buffer with
    | error hazard =>
      rw [hget] at h
      cases h
    | ok out =>
      rw [hget, ok_bind] at h
      cases h
      exact updDriver_const_keeps hdriver (.cache driver out.2.2)
  case h_3 =>
    cases h
    exact .rfl

theorem write_keeps (h : _write s n pos bufferSize room buffer = .ok (res, s')) : s.Keeps s' := by
  unfold _write at h
  split at h
  case h_1 =>
    cases h
    exact .rfl
  case h_2 driver _ hdriver =>
    cases hset : driver.setData n.subID pos bufferSize room buffer with
    | error hazard =>
      rw [hset] at h
      cases h
    | ok out =>
      rw [hset, ok_bind] at h
      cases h
      exact updDriver_const_keeps hdriver (.cache driver out.2)
  case h_3 =>
    cases h
    exact .rfl

theorem deviceCommand_keeps (s : State) (n : DeviceNode) (command : Int) (arg : Nat) :
    s.Keeps (deviceCommand s n command arg).2 := by
  unfold deviceCommand
  split
  case h_1 => exact .rfl
  case h_2 driver hdriver => exact updDriver_const_keeps hdriver (.char _ _)
  case h_3 => exact .rfl

theorem mountDevice_keeps {fsID : Str} {mounted : Int}
    (h : mountDevice s fsID driverID subID mounted = .ok (res, s')) : s.Keeps s' := by
  unfold mountDevice at h
  split at h
  case h_1 => cases h
  case h_2 =>
    cases h
    exact .rfl
  case h_3 driver hdriver =>
    split at h
    case h_1 =>
      cases hget : driver.getData subID 1024 superBlockSizeof superBlockSizeof fun _ => 0 with
      | error hazard =>
        rw [ext2Driver, hget] at h
        cases h
      | ok out =>
        rw [ext2Driver, hget, ok_bind, ok_bind] at h
        cases h
        exact updDriver_const_keeps hdriver (.cache driver out.2.2)
    case h_2 =>
      cases h
      exact .rfl

end Keeps

/-- **An operation keeps every driver and its devices.** -/
theorem run_keeps {op : Op} {res : Int} (h : op.run s n = .ok (res, s')) : s.Keeps s' := by
  cases op with
  | «open» tInfo openMode =>
    simp only [Op.run] at h
    split_ifs at h <;> cases h <;> exact .rfl
  | read permissions pos bufferSize room buffer =>
    simp only [Op.run] at h
    split_ifs at h
    · cases h
      exact .rfl
    · cases hread : _read s n pos bufferSize room buffer with
      | error hazard =>
        rw [hread] at h
        cases h
      | ok out =>
        rw [hread, ok_bind] at h
        cases h
        exact read_keeps hread
  | write permissions pos bufferSize room buffer =>
    simp only [Op.run] at h
    split_ifs at h
    · cases h
      exact .rfl
    · exact write_keeps h
  | seek mode offs =>
    cases h
    exact .rfl
  | command permissions command arg =>
    simp only [Op.run] at h
    split_ifs at h
    · cases h
      exact .rfl
    · obtain rfl : (deviceCommand s n command arg).2 = s' := congrArg Prod.snd (Except.ok.inj h)
      exact deviceCommand_keeps s n command arg
  | mount tInfo fsID mounted =>
    simp only [Op.run] at h
    split_ifs at h
    · cases h
      exact .rfl
    · cases h
      exact .rfl
    · exact mountDevice_keeps h

theorem Step.keeps (h : Step s s') : s.Keeps s' := by
  cases h with
  | registerDriver driver => exact registerDriver_keeps s driver
  | addDevice id dev => exact updDriver_keeps fun driver _ => dev.addTo_kept driver
  | registerFileSystem entry => exact .rfl
  | op n op res h => exact run_keeps h

/-- No driver and no device ever goes. -/
theorem Later.keeps (h : Later s s') : s.Keeps s' := by
  induction h with
  | refl => exact .rfl
  | tail _ hstep ih => exact ih.trans hstep.keeps

/-! ## The ids of a device file -/

/-- An operation returns, whatever it returns. -/
def Returns {α : Type} (r : Except Hazard α) : Prop := ∃ out, r = .ok out

theorem Returns.ok {α : Type} (a : α) : Returns (.ok a) := ⟨a, rfl⟩

theorem Returns.bind {α β : Type} {r : Except Hazard α} {f : α → Except Hazard β} (h : Returns r)
    (hf : ∀ a, Returns (f a)) : Returns (r >>= f) := by
  obtain ⟨a, rfl⟩ := h
  rw [ok_bind]
  exact hf a

theorem Returns.ite {α : Type} {c : Prop} [Decidable c] {a : α} {r : Except Hazard α}
    (h : Returns r) : Returns (if c then .ok a else r) := by
  split_ifs
  · exact .ok a
  · exact h

/-- What `CreateDeviceFile` and every later operation on the node have to do. -/
def SafeIds (s : State) (driverID subID : Nat) : Prop :=
  ∀ tInfo perms newNode, ∃ n, createDeviceFile s tInfo perms driverID subID newNode = .ok n ∧
    ∀ s', Later s s' → ∀ n', n.Same n' → ∀ op : Op, Returns (op.run s' n')

section Returns

variable {driver : DeviceDriver}

theorem getData_returns {D : BlockDeviceDriver} (h : D.devices.serves subID = true)
    (pos bufferSize room : Nat) (buffer : Bytes) : Returns (D.getData subID pos bufferSize room buffer) :=
  ⟨_, D.getData_eq h pos bufferSize room buffer⟩

theorem read_returns (hdriver : s.getDriver n.driverID = some driver)
    (hserves : driver.serves n.subID = true) (pos bufferSize room : Nat) (buffer : Bytes) :
    Returns (_read s n pos bufferSize room buffer) := by
  unfold _read
  split
  case h_1 => exact .ok _
  case h_2 D _ hD =>
    rw [hdriver] at hD
    cases hD
    exact (getData_returns hserves pos bufferSize room buffer).bind fun _ => .ok _
  case h_3 => exact .ok _

theorem write_returns (hdriver : s.getDriver n.driverID = some driver)
    (hserves : driver.serves n.subID = true) (pos bufferSize room : Nat) (buffer : Bytes) :
    Returns (_write s n pos bufferSize room buffer) := by
  unfold _write
  split
  case h_1 => exact .ok _
  case h_2 D _ hD =>
    rw [hdriver] at hD
    cases hD
    have hset : Returns (D.setData n.subID pos bufferSize room buffer) :=
      ⟨_, D.setData_eq hserves pos bufferSize room buffer⟩
    exact hset.bind fun _ => .ok _
  case h_3 => exact .ok _

theorem mountDevice_returns (hdriver : s.getDriver driverID = some driver)
    (hserves : driver.serves subID = true) (fsID : Str) (mounted : Int) :
    Returns (mountDevice s fsID driverID subID mounted) := by
  unfold mountDevice
  split
  case h_1 hnone =>
    rw [hdriver] at hnone
    cases hnone
  case h_2 => exact .ok _
  case h_3 D hD =>
    rw [hdriver] at hD
    cases hD
    split
    case h_1 =>
      have hdata := getData_returns hserves 1024 superBlockSizeof superBlockSizeof fun _ => 0
      have hext : Returns (ext2Driver D subID) := hdata.bind fun _ => .ok _
      exact hext.bind fun _ => .ok _
    case h_2 => exact .ok _

/-- **On a device that is served, every operation returns.** -/
theorem run_returns (h : s.serves n.driverID n.subID = true) (op : Op) : Returns (op.run s n) := by
  obtain ⟨driver, hdriver, hserves⟩ := (Option.any_eq_true _ _).1 h
  cases op with
  | «open» tInfo openMode => exact .ite (.ite (.ok _))
  | read permissions pos bufferSize room buffer =>
    exact .ite ((read_returns hdriver hserves pos bufferSize room buffer).bind fun _ => .ok _)
  | write permissions pos bufferSize room buffer =>
    exact .ite (write_returns hdriver hserves pos bufferSize room buffer)
  | seek mode offs => exact .ok _
  | command permissions command arg => exact .ite (.ok _)
  | mount tInfo fsID mounted => exact .ite (.ite (mountDevice_returns hdriver hserves fsID mounted))

end Returns

/-- A device that is not served cannot be read. -/
theorem read_not_returns {D : BlockDeviceDriver} (hblock : n.block = true)
    (hdriver : s.getDriver n.driverID = some (.block D)) (h : D.devices.serves n.subID = false) :
    ¬ Returns ((Op.read Permissions.read 0 0 0 fun _ => 0).run s n) := by
  rintro ⟨out, hrun⟩
  obtain ⟨hazard, hdiv⟩ := D.devices.div_of_not_serves h 0
  have hget := D.getData_of_div hdiv 0 0 fun _ => 0
  have hread : _read s n 0 0 0 (fun _ => 0) = .error hazard := by
    rw [_read, hblock, hdriver]
    dsimp only
    rw [hget, error_bind]
  rw [Op.run, if_neg (by decide), hread, error_bind] at hrun
  cases hrun

/-- What `CreateDeviceFile` writes into the node, if it finds the driver. -/
theorem createDeviceFile_spec {tInfo : ThreadInfo} {perms : Permissions} {newNode : Node}
    (h : createDeviceFile s tInfo perms driverID subID newNode = .ok n) :
    n.driverID = driverID ∧ n.subID = subID ∧ ∃ driver, s.getDriver driverID = some driver ∧
      n.block = decide (driver.getType = .block) := by
  unfold createDeviceFile at h
  split at h
  · cases h
  · cases h
    exact ⟨rfl, rfl, _, by assumption, rfl⟩

/-- It is what the file system writes into the node, when its drivers are those of the registry. -/
theorem createDeviceFile_refines (K : Kernel)
    (hK : ∀ id, K.drivers id = (s.getDriver id).map DeviceDriver.getType) (t : ThreadRef) (fuel : Nat)
    (path : Option Str) (perms : Permissions) (driverID subID : Nat) :
    ∃ init : ThreadInfo → Except Stop (Node → Node),
      VFS.createDeviceFile K t fuel path perms driverID subID = createAt K t fuel path init ∧
      ∀ tInfo newNode, (init tInfo).toOption.map (fun f => f newNode) =
        (createDeviceFile s tInfo perms driverID subID newNode).toOption.map DeviceNode.node := by
  refine ⟨_, rfl, fun tInfo newNode => ?_⟩
  rw [hK, createDeviceFile]
  rcases s.getDriver driverID with _ | driver | driver <;> rfl

/-- Drivers are constructed one after the other, and the ramdisk is added. -/
def booted : State :=
  ((((blank.registerDriver (.char .pseudo)).registerDriver
    (.block ⟨.ram [], [], fun _ _ => 0⟩)).registerDriver
    (.block ⟨.ahci [], [], fun _ _ => 0⟩)).updDriver 1
    (NewDevice.ram ⟨fun _ => 0, 512, 8⟩).addTo)

theorem later_booted : Later blank booted :=
  .tail (.tail (.tail (.single (.registerDriver _)) (.registerDriver _)) (.registerDriver _))
    (.addDevice 1 _)

/-- A file whose creation returns and whose first read does not. -/
def Crashes (s : State) (driverID subID : Nat) (hazard : Hazard) : Prop :=
  ∀ tInfo perms newNode, ∃ n, createDeviceFile s tInfo perms driverID subID newNode = .ok n ∧
    (Op.read Permissions.read 0 0 0 fun _ => 0).run s n = .error hazard

theorem Crashes.not_safe {hazard : Hazard} (h : Crashes s driverID subID hazard) :
    ¬ SafeIds s driverID subID := by
  intro hsafe
  let newNode : Node := ⟨0, 0, 0, 0, false, .file, false, .none, 0, 0, ⟨0, 0, 0, 0⟩⟩
  obtain ⟨n, hn, hrun⟩ := h ⟨0, 0, []⟩ ⟨0, 0, 0, 0⟩ newNode
  obtain ⟨n', hn', hop⟩ := hsafe ⟨0, 0, []⟩ ⟨0, 0, 0, 0⟩ newNode
  rw [hn] at hn'
  cases hn'
  obtain ⟨out, hout⟩ := hop s .refl n ⟨rfl, rfl, rfl⟩ (.read Permissions.read 0 0 0 fun _ => 0)
  rw [hrun] at hout
  cases hout

theorem crashes_of_div {D : BlockDeviceDriver} {hazard : Hazard}
    (hdriver : s.getDriver driverID = some (.block D))
    (hdiv : (D.devices.getBlockSize subID >>= div 0) = .error hazard) :
    Crashes s driverID subID hazard := by
  intro tInfo perms newNode
  refine ⟨_, by rw [createDeviceFile, hdriver], ?_⟩
  have hget := D.getData_of_div hdiv 0 0 fun _ => 0
  rw [Op.run, if_neg (by decide), _read]
  simp only [DeviceDriver.getType, decide_true, hdriver]
  rw [hget, error_bind, error_bind]

end ChenixOS.DeviceFiles
