import ChenixOS.Devices.PCI
import Mathlib.Algebra.GroupWithZero.Nat

/-!
# Base address registers

A function has six base address registers. A BAR is an I/O BAR or a 32-bit memory BAR in one of them, or a 64-bit
memory BAR in two, the lower half first; the low bits of its first register say which. What a device has is a layout,
the kinds of its BARs in the order of the registers; the addresses are written into the registers by the firmware.

`CheckFunction` takes the memory type 1 for that of a 64-bit BAR, where it is 2, and stores what it decodes one after
the other, where `GetBARAddress` is given the number of a register.

**Theorem (`barDecoding_iff`).** Of a layout, `GetBARAddress` yields the base address of every BAR, whatever the
addresses, exactly if there is no 64-bit BAR in it.
-/

namespace ChenixOS.PCI

open ByteMemory Words

/-! ## Layouts -/

inductive BarKind where
  | io
  | mem32
  | mem64
deriving DecidableEq

/-- The number of registers of a BAR. -/
def BarKind.width : BarKind → Nat
  | .io | .mem32 => 1
  | .mem64 => 2

/-- The low bits of the first register: bit 0 for I/O, else the memory type in bits 2:1. -/
def BarKind.Encodes : BarKind → (bar : Nat) → Prop
  | .io, bar => bar % 2 = 1
  | .mem32, bar => bar % 8 = 0
  | .mem64, bar => bar % 8 = 4

/-- The base address that a BAR from register `i` on holds. -/
def BarKind.base (reg : Nat → Nat) (i : Nat) : BarKind → Nat
  | .io => reg i / 4 * 4
  | .mem32 => reg i / 16 * 16
  | .mem64 => reg (i + 1) * 2 ^ 32 + reg i / 16 * 16

/-- The registers from `i` on to the last of the six are those of the BARs. -/
def Laid (reg : Nat → Nat) : (i : Nat) → List BarKind → Prop
  | i, [] => i = 6
  | i, k :: layout => k.Encodes (reg i) ∧ Laid reg (i + k.width) layout

/-- The registers with which the BARs start. -/
def starts : (i : Nat) → List BarKind → List (Nat × BarKind)
  | _, [] => []
  | i, k :: layout => (i, k) :: starts (i + k.width) layout

variable {reg : Nat → Nat} {layout : List BarKind} {i j fuel base off : Nat} {dev : Device} {group : Group}
  {bus device func : Nat} {mem mem' : Memory}

/-- The registers of a function, as `CheckFunction` reads them. -/
def barRegisters (group : Group) (bus device func : Nat) (mem : Memory) (i : Nat) : Nat :=
  group.readConfigDWord mem bus device func (0x10 + i * 4)

/-- **`GetBARAddress` yields the base address of every BAR.** -/
def Decoded (reg : Nat → Nat) (layout : List BarKind) (dev : Device) : Prop :=
  ∀ p ∈ starts 0 layout, getBARAddress dev p.1 = barPointer (p.2.base reg p.1)

theorem pushBAR_BARs (dev : Device) (bar : Nat) :
    (dev.pushBAR bar).BARs = Function.update dev.BARs dev.numBARs bar := rfl

theorem starts_append (layout rest : List BarKind) (i : Nat) :
    starts i (layout ++ rest) = starts i layout ++ starts (i + (layout.map BarKind.width).sum) rest := by
  induction layout generalizing i with
  | nil => rfl
  | cons k layout ih => simp [starts, ih, Nat.add_assoc]

theorem readConfigDWord_lt (mem : Memory) (off : Nat) : group.readConfigDWord mem bus device func off < 2 ^ 32 :=
  word_lt

/-! ## Without 64-bit BARs -/

theorem scanBARs_io (hbar : reg i % 2 = 1) (hlt : reg i < 2 ^ 32) (hi : i < 6) :
    scanBARs reg (fuel + 1) i dev = scanBARs reg fuel (i + 1) (dev.pushBAR (BarKind.io.base reg i)) := by
  have hmask : reg i &&& 0xFFFFFFFC = reg i / 4 * 4 := and_clear (k := 2) hlt (by decide)
  rw [scanBARs]
  dsimp only
  rw [if_pos hi, Nat.and_one_is_mod, hbar, if_pos (by decide), hmask]
  rfl

theorem scanBARs_mem32 (hbar : reg i % 8 = 0) (hlt : reg i < 2 ^ 32) (hi : i < 6) :
    scanBARs reg (fuel + 1) i dev = scanBARs reg fuel (i + 1) (dev.pushBAR (BarKind.mem32.base reg i)) := by
  have hmask : reg i &&& 0xFFFFFFF0 = reg i / 16 * 16 := and_clear (k := 4) hlt (by decide)
  have htype : reg i &&& 0x7 = 0 := (Nat.and_two_pow_sub_one_eq_mod _ 3).trans hbar
  have hodd : ¬reg i % 2 ≠ 0 := by omega
  rw [scanBARs]
  dsimp only
  rw [if_pos hi, Nat.and_one_is_mod, if_neg hodd, htype, hmask]
  rfl

/-- **One BAR in one register is decoded in its place.** -/
theorem scanBARs_step {k : BarKind} (henc : k.Encodes (reg i)) (hk : k ≠ .mem64) (hlt : reg i < 2 ^ 32)
    (hi : i < 6) : scanBARs reg (fuel + 1) i dev = scanBARs reg fuel (i + 1) (dev.pushBAR (k.base reg i)) := by
  cases k with
  | io => exact scanBARs_io henc hlt hi
  | mem32 => exact scanBARs_mem32 henc hlt hi
  | mem64 => exact absurd rfl hk

theorem width_eq_one {k : BarKind} (hk : k ≠ .mem64) : k.width = 1 := by
  cases k with
  | io => rfl
  | mem32 => rfl
  | mem64 => exact absurd rfl hk

theorem Laid.le (h : Laid reg i layout) : i ≤ 6 := by
  induction layout generalizing i with
  | nil => exact Nat.le_of_eq h
  | cons k layout ih => exact Nat.le_trans (Nat.le_add_right _ _) (ih h.2)

/-- The registers from `i` on, decoded by a loop that has decoded those before. -/
theorem scanBARs_decodes (h : Laid reg i layout) (hnot : .mem64 ∉ layout) (hlt : ∀ i, reg i < 2 ^ 32)
    (hnum : dev.numBARs = i) (hfuel : i + fuel = 6) :
    (∀ p ∈ starts i layout, (scanBARs reg fuel i dev).BARs p.1 = p.2.base reg p.1) ∧
      ∀ j < i, (scanBARs reg fuel i dev).BARs j = dev.BARs j := by
  induction layout generalizing i fuel dev with
  | nil =>
    obtain rfl : fuel = 0 := by
      have hsix : i = 6 := h
      omega
    exact ⟨fun p hp => absurd hp List.not_mem_nil, fun j _ => rfl⟩
  | cons k layout ih =>
    have hk : k ≠ .mem64 := fun heq => hnot (heq ▸ List.mem_cons_self)
    have hrest := h.2
    rw [width_eq_one hk] at hrest
    have hi : i < 6 := hrest.le
    obtain ⟨fuel, rfl⟩ : ∃ n, fuel = n + 1 := Nat.exists_eq_succ_of_ne_zero (by omega)
    rw [scanBARs_step h.1 hk (hlt i) hi]
    have hnext : (dev.pushBAR (k.base reg i)).numBARs = i + 1 := congrArg (· + 1) hnum
    obtain ⟨hstarts, hkept⟩ := @ih (i + 1) fuel (dev.pushBAR (k.base reg i)) hrest
      (fun hmem => hnot (List.mem_cons_of_mem _ hmem)) hnext (by omega)
    constructor
    · intro p hp
      rw [starts, width_eq_one hk] at hp
      rcases List.mem_cons.1 hp with rfl | hp
      · rw [hkept i (Nat.lt_succ_self i), pushBAR_BARs, hnum, Function.update_self]
      · exact hstarts p hp
    · intro j hj
      rw [hkept j (Nat.lt_succ_of_lt hj), pushBAR_BARs, hnum, Function.update_of_ne (Nat.ne_of_lt hj)]

/-! ## With a 64-bit BAR -/

theorem pushBAR_zero (hzero : ∀ j, dev.BARs j = 0) (j : Nat) : (dev.pushBAR 0).BARs j = 0 := by
  rw [pushBAR_BARs, Function.update_apply]
  split_ifs
  · rfl
  · exact hzero j

/-- A register of which `CheckFunction` keeps no address: an empty one, or one with the memory type 2. -/
def Blank (bar : Nat) : Prop := bar = 0 ∨ bar = 1 ∨ bar = 0x14

theorem scanBARs_zero (hreg : ∀ i < 6, Blank (reg i)) (hzero : ∀ j, dev.BARs j = 0) (j : Nat) :
    (scanBARs reg fuel i dev).BARs j = 0 := by
  induction fuel generalizing i dev with
  | zero => exact hzero j
  | succ fuel ih =>
    by_cases hi : i < 6
    · have hpush : (scanBARs reg fuel (i + 1) (dev.pushBAR 0)).BARs j = 0 := ih (pushBAR_zero hzero)
      have hpass : (scanBARs reg fuel (i + 1) dev).BARs j = 0 := ih hzero
      rw [scanBARs]
      dsimp only
      rw [if_pos hi]
      rcases hreg i hi with h | h | h <;> rw [h]
      · exact hpush
      · exact hpush
      · exact hpass
    · rw [scanBARs]
      dsimp only
      rw [if_neg hi]
      exact hzero j

/-- Registers for a layout in which every 64-bit BAR has the address 16. -/
def programmed : List BarKind → List Nat
  | [] => []
  | .io :: layout => 1 :: programmed layout
  | .mem32 :: layout => 0 :: programmed layout
  | .mem64 :: layout => 0x14 :: 0 :: programmed layout

theorem length_programmed (layout : List BarKind) : (programmed layout).length = (layout.map BarKind.width).sum := by
  induction layout with
  | nil => rfl
  | cons k layout ih =>
    cases k <;> simp only [programmed, List.length_cons, List.map_cons, List.sum_cons, BarKind.width, ih] <;> omega

theorem blank_programmed (layout : List BarKind) (i : Nat) : Blank ((programmed layout).getD i 0) := by
  induction layout generalizing i with
  | nil => exact .inl rfl
  | cons k layout ih =>
    cases k with
    | io =>
      cases i with
      | zero => exact .inr (.inl rfl)
      | succ i => exact ih i
    | mem32 =>
      cases i with
      | zero => exact .inl rfl
      | succ i => exact ih i
    | mem64 =>
      match i with
      | 0 => exact .inr (.inr rfl)
      | 1 => exact .inl rfl
      | i + 2 => exact ih i

theorem laid_programmed (hreg : ∀ j < (programmed layout).length, reg (i + j) = (programmed layout).getD j 0)
    (hsix : i + (programmed layout).length = 6) : Laid reg i layout := by
  induction layout generalizing i with
  | nil => exact hsix
  | cons k layout ih =>
    have hfirst := hreg 0
    rw [Nat.add_zero] at hfirst
    cases k with
    | io =>
      rw [programmed, List.length_cons] at hsix
      refine ⟨hfirst (Nat.succ_pos _) ▸ rfl, ih (fun j hj => ?_) (by rw [BarKind.width]; omega)⟩
      rw [BarKind.width, Nat.add_assoc, Nat.add_comm 1]
      exact hreg (j + 1) (Nat.succ_lt_succ hj)
    | mem32 =>
      rw [programmed, List.length_cons] at hsix
      refine ⟨hfirst (Nat.succ_pos _) ▸ rfl, ih (fun j hj => ?_) (by rw [BarKind.width]; omega)⟩
      rw [BarKind.width, Nat.add_assoc, Nat.add_comm 1]
      exact hreg (j + 1) (Nat.succ_lt_succ hj)
    | mem64 =>
      rw [programmed, List.length_cons, List.length_cons] at hsix
      have henc : BarKind.mem64.Encodes (reg i) := by
        rw [hfirst (Nat.succ_pos _)]
        exact (rfl : 0x14 % 8 = 4)
      refine ⟨henc, ih (fun j hj => ?_) (by rw [BarKind.width]; omega)⟩
      rw [BarKind.width, Nat.add_assoc, Nat.add_comm 2]
      exact hreg (j + 2) (Nat.succ_lt_succ (Nat.succ_lt_succ hj))

/-- The memory of a function whose registers from `0x10` on are given, and that is zero elsewhere. -/
def withRegisters (base : Nat) (regs : List Nat) : Memory := fun p =>
  let off := (p + (addressSize - base)) % addressSize
  if 0x10 ≤ off ∧ off < 0x28 then byte (regs.getD ((off - 0x10) / 4) 0) ((off - 0x10) % 4) else 0

theorem withRegisters_at {regs : List Nat} (hbase : base < addressSize) (hoff : off < 2 ^ 32) :
    withRegisters base regs ((base + off) % addressSize) =
      if 0x10 ≤ off ∧ off < 0x28 then byte (regs.getD ((off - 0x10) / 4) 0) ((off - 0x10) % 4) else 0 := by
  have hback : ((base + off) % addressSize + (addressSize - base)) % addressSize = off := by
    unfold addressSize at *
    omega
  rw [withRegisters, hback]

theorem getMemBase_lt : getMemBase group bus device func < addressSize := Nat.mod_lt _ (by decide)

/-- Outside of the registers a function reads zeros. -/
theorem readConfigDWord_withRegisters_zero {regs : List Nat} (hoff : off + 4 ≤ 0x10) :
    group.readConfigDWord (withRegisters (getMemBase group bus device func) regs) bus device func off = 0 := by
  have hword : load addressSize (withRegisters (getMemBase group bus device func) regs) 4
      (getMemBase group bus device func + off) = 0 % 256 ^ 4 := word_of_bytes fun k hk => by
    rw [Nat.add_assoc, withRegisters_at getMemBase_lt (by omega), if_neg (by omega), byte_zero]
  exact hword

theorem barRegisters_withRegisters {regs : List Nat} (hi : i < 6) (hlt : regs.getD i 0 < 2 ^ 32) :
    barRegisters group bus device func (withRegisters (getMemBase group bus device func) regs) i = regs.getD i 0 := by
  have hword : load addressSize (withRegisters (getMemBase group bus device func) regs) 4
      (getMemBase group bus device func + (0x10 + i * 4)) = regs.getD i 0 % 256 ^ 4 := word_of_bytes fun k hk => by
    have hindex : (0x10 + i * 4 + k - 0x10) / 4 = i := by omega
    have hbyte : (0x10 + i * 4 + k - 0x10) % 4 = k := by omega
    rw [Nat.add_assoc, withRegisters_at getMemBase_lt (by omega), if_pos (by omega), hindex, hbyte]
  exact hword.trans (Nat.mod_eq_of_lt hlt)

/-! ## Decoding -/

theorem mem_starts {k : BarKind} (h : k ∈ layout) : ∃ j, (j, k) ∈ starts i layout := by
  induction layout generalizing i with
  | nil => cases h
  | cons k' layout ih =>
    rcases List.mem_cons.1 h with rfl | h
    · exact ⟨i, List.mem_cons_self⟩
    · obtain ⟨j, hj⟩ := @ih (i + k'.width) h
      exact ⟨j, List.mem_cons_of_mem _ hj⟩

/-- The first register of a BAR is one of the six, and its low bits are those of the kind. -/
theorem Laid.encodes (h : Laid reg i layout) {p : Nat × BarKind} (hp : p ∈ starts i layout) :
    p.2.Encodes (reg p.1) ∧ p.1 + p.2.width ≤ 6 := by
  induction layout generalizing i with
  | nil => cases hp
  | cons k layout ih =>
    rcases List.mem_cons.1 hp with rfl | hp
    · exact ⟨h.1, h.2.le⟩
    · exact ih h.2 hp

/-- A function that is there, with the registers of the layout and without capabilities. -/
theorem checkFunction_programmed (layout : List BarKind) :
    ∃ dev, checkFunction fuel group bus device func
      (withRegisters (getMemBase group bus device func) (programmed layout)) =
        some (withRegisters (getMemBase group bus device func) (programmed layout), some dev) := by
  unfold checkFunction
  rw [readConfigDWord_withRegisters_zero (by decide), readConfigDWord_withRegisters_zero (by decide),
    readConfigDWord_withRegisters_zero (by decide)]
  exact ⟨_, rfl⟩

/-- **Of a layout every BAR is decoded, whatever the addresses, exactly if no BAR has 64 bits.** -/
theorem barDecoding_iff (group : Group) (bus device func : Nat) (layout : List BarKind)
    (hsix : (layout.map BarKind.width).sum = 6) :
    (∀ fuel mem mem' dev, Laid (barRegisters group bus device func mem) 0 layout →
        checkFunction fuel group bus device func mem = some (mem', some dev) →
        Decoded (barRegisters group bus device func mem) layout dev) ↔
      BarKind.mem64 ∉ layout := by
  constructor
  · intro h hmem
    have hlen : (programmed layout).length = 6 := (length_programmed layout).trans hsix
    let mem := withRegisters (getMemBase group bus device func) (programmed layout)
    have hreg : ∀ i < 6, barRegisters group bus device func mem i = (programmed layout).getD i 0 := by
      intro i hi
      refine barRegisters_withRegisters hi ?_
      rcases blank_programmed layout i with h | h | h <;> rw [h] <;> decide
    have hlaid : Laid (barRegisters group bus device func mem) 0 layout :=
      laid_programmed (fun j hj => by rw [Nat.zero_add, hreg j (by omega)]) (by omega)
    obtain ⟨dev, hdev⟩ := @checkFunction_programmed 0 group bus device func layout
    have hzero : ∀ j, dev.BARs j = 0 := by
      rcases checkFunction_cases hdev with hnone | ⟨dev₀, dev', hsome, -, hinit, hbars, -⟩
      · cases hnone
      · cases hsome
        intro j
        rw [hbars]
        exact scanBARs_zero (fun i hi => by
          have := hreg i hi
          rw [barRegisters] at this
          rw [this]
          exact blank_programmed layout i) hinit j
    obtain ⟨j, hj⟩ := @mem_starts layout 0 _ hmem
    obtain ⟨henc, hle⟩ := hlaid.encodes hj
    have hbar := h 0 mem mem dev hlaid hdev _ hj
    have h14 : barRegisters group bus device func mem j = 0x14 := by
      have hblank := blank_programmed layout j
      rw [← hreg j (by simp only [BarKind.width] at hle; omega)] at hblank
      rcases hblank with h0 | h1 | h14
      · rw [BarKind.Encodes, h0] at henc
        cases henc
      · rw [BarKind.Encodes, h1] at henc
        cases henc
      · exact h14
    rw [getBARAddress, hzero, barPointer, if_pos rfl, BarKind.base, h14, barPointer, if_neg (by omega)] at hbar
    cases hbar
  · intro hnot fuel mem mem' dev hlaid hcheck p hp
    rcases checkFunction_cases hcheck with hnone | ⟨dev₀, dev', hsome, hnum, -, hbars, -⟩
    · cases hnone
    · cases hsome
      have hdecode := (scanBARs_decodes hlaid hnot (fun i => readConfigDWord_lt mem _) hnum (Nat.zero_add 6)).1 p hp
      rw [getBARAddress, hbars]
      exact congrArg barPointer hdecode

theorem barDecoding_six_registers :
    (∀ fuel mem mem' dev, Laid (barRegisters segment 0 31 2 mem) 0 [.io, .io, .io, .io, .io, .mem32] →
        checkFunction fuel segment 0 31 2 mem = some (mem', some dev) →
        Decoded (barRegisters segment 0 31 2 mem) [.io, .io, .io, .io, .io, .mem32] dev) ↔
      BarKind.mem64 ∉ [BarKind.io, .io, .io, .io, .io, .mem32] :=
  barDecoding_iff segment 0 31 2 _ rfl

/-- A 64-bit BAR at `0x8E0000000` in registers 0 and 1, and 32-bit BARs in the others, the last one at `0xFEBF1000`:
the first is lost, and the last is where the one before it should be. -/
theorem barDecoding_with_mem64 :
    Laid (fun i => [0xE0000004, 0x8, 0, 0, 0, 0xFEBF1000].getD i 0) 0 [.mem64, .mem32, .mem32, .mem32, .mem32] ∧
      BarKind.mem64.base (fun i => [0xE0000004, 0x8, 0, 0, 0, 0xFEBF1000].getD i 0) 0 = 0x8E0000000 ∧
      (checkFunction 0 segment 0 31 2
          (withRegisters (getMemBase segment 0 31 2) [0xE0000004, 0x8, 0, 0, 0, 0xFEBF1000])).map
        (fun r => r.2.map fun dev => (getBARAddress dev 0, getBARAddress dev 5, dev.BARs 4)) =
          some (some (none, none, 0xFEBF1000)) :=
  ⟨⟨rfl, rfl, rfl, rfl, rfl, rfl⟩, rfl, by decide +kernel⟩

end ChenixOS.PCI
