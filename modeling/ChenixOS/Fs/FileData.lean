import ChenixOS.Fs.Tree
import ChenixOS.Fs.PipeFSProof

/-!
# The bytes of a file

`TempFS::ReadNodeData` and `TempFS::WriteNodeData` on the memory block that holds the data, with the
sizes as the source has them: `fileSize` and the positions are 64-bit words, but `operator new[]` passes
its size on to `kmalloc`, whose `size_t` has 32 bits. The block is followed by other memory, so an access
behind its end is noted and not stopped.

* `Holds`: the block holds a list of bytes.
* `write_bytes`: every byte after a write, whatever part of the user's buffer is readable.
* `writeNodeData_refines`: where the sizes fit, this is the write of `ChenixOS.VFS.TempFS`.
-/

namespace ChenixOS.FileData

open PipeFS

def ErrorPermissionDenied : UInt64 := 0xFFFFFFFFFFFFFFFB
def ErrorInvalidBuffer : UInt64 := 0xFFFFFFFFFFFFFFF9

/-- What `fileData` points to: how many bytes were allocated, and the byte at each distance. The null
pointer is a block of no bytes. -/
structure Block where
  size : Nat
  byte : UInt64 → UInt8

/-- Copy `k` bytes to distance `pos`. -/
def Block.put (b : Block) (pos : UInt64) (k : Nat) (src : Nat → UInt8) : Block :=
  { b with byte := fun j => if (j - pos).toNat < k then src (j - pos).toNat else b.byte j }

/-- The `k` bytes from `pos` on were allocated. -/
def Block.covers (b : Block) (pos : UInt64) (k : Nat) : Bool := k = 0 ∨ pos.toNat + k ≤ b.size

/-- `new char[size]`; `junk` is what the memory holds. -/
def newChars (junk : UInt64 → UInt8) (size : UInt64) : Block where
  size := size.toUInt32.toNat
  byte := junk

/-- `fileSize` and `fileData` of a `TestNode`. -/
structure File where
  fileSize : UInt64
  fileData : Block

/-- What a call returns and leaves; `inside` says that every access was in the block. -/
structure Outcome where
  ret : UInt64
  file : File
  inside : Bool

/-- `TempFS::ReadNodeData`, with the user's buffer afterwards. -/
def readNodeData (f : File) (pos : UInt64) (user : UserBuffer) (bufferSize : UInt64) : Outcome × UserBuffer :=
  let rem := f.fileSize - pos
  if rem = 0 then (⟨0, f, true⟩, user)
  else
    let rem := if rem > bufferSize then bufferSize else rem
    let k := copied user.valid 0 rem.toNat
    (⟨if k = rem.toNat then rem else ErrorInvalidBuffer, f, f.fileData.covers pos k⟩,
      { user with byte := Ring.overlay user.byte 0 k fun i => f.fileData.byte (pos + UInt64.ofNat i) })

/-- The larger block in `TempFS::WriteNodeData`. -/
def grow (junk : UInt64 → UInt8) (f : File) (size : UInt64) : File × Bool :=
  let newData := newChars junk size
  ({ fileSize := size
     fileData := newData.put 0 f.fileSize.toNat fun i => f.fileData.byte (UInt64.ofNat i) },
    newData.covers 0 f.fileSize.toNat && f.fileData.covers 0 f.fileSize.toNat)

/-- `TempFS::WriteNodeData` -/
def writeNodeData (junk : UInt64 → UInt8) (f : File) (pos : UInt64) (user : UserBuffer)
    (bufferSize : UInt64) : Outcome :=
  let cap := f.fileSize - pos
  let (f, inside) := if cap < bufferSize then grow junk f (pos + bufferSize) else (f, true)
  let k := copied user.valid 0 bufferSize.toNat
  { ret := if k = bufferSize.toNat then bufferSize else ErrorInvalidBuffer
    file := { f with fileData := f.fileData.put pos k user.byte }
    inside := inside && f.fileData.covers pos k }

/-- `VFS::Write` on a descriptor with these permissions and this position: the outcome and the new
position. -/
def write (junk : UInt64 → UInt8) (permissions : UInt8) (f : File) (pos : UInt64) (user : UserBuffer)
    (bufferSize : UInt64) : Outcome × UInt64 :=
  if permissions &&& VFS.Permissions.write == 0 then (⟨ErrorPermissionDenied, f, true⟩, pos)
  else
    let res := writeNodeData junk f pos user bufferSize
    (res, if 0 ≤ res.ret.toInt64 then pos + res.ret else pos)

/-! ## Contents -/

variable {junk : UInt64 → UInt8} {f : File} {c : List UInt8} {pos bufferSize : UInt64} {user : UserBuffer}

/-- The file's data is `c`, in a block that was allocated for it. -/
structure Holds (f : File) (c : List UInt8) : Prop where
  fileSize : f.fileSize.toNat = c.length
  bytes : ∀ i (h : i < c.length), f.fileData.byte (UInt64.ofNat i) = (c)[i]
  allocated : c.length ≤ f.fileData.size
  size : f.fileData.size < 2 ^ 32

theorem Holds.length_lt (h : Holds f c) : c.length < 2 ^ 32 := Nat.lt_of_le_of_lt h.allocated h.size

theorem Holds.unique {c' : List UInt8} (h : Holds f c) (h' : Holds f c') : c = c' := by
  have hlen : c.length = c'.length := h.fileSize.symm.trans h'.fileSize
  apply List.ext_getElem hlen
  intro i hi hi'
  rw [← h.bytes i hi, ← h'.bytes i hi']

/-- A distance below `2 ^ 64` from a smaller one. -/
theorem toNat_ofNat_sub {i : Nat} (hi : i < 2 ^ 64) (hle : pos.toNat ≤ i) :
    (UInt64.ofNat i - pos).toNat = i - pos.toNat := by
  have hvalue : (UInt64.ofNat i).toNat = i := by
    rw [UInt64.toNat_ofNat']
    exact Nat.mod_eq_of_lt hi
  rw [UInt64.toNat_sub_of_le, hvalue]
  rw [UInt64.le_iff_toNat_le, hvalue]
  exact hle

/-- The distance is a large one if the position is behind. -/
theorem toNat_ofNat_sub_of_lt {i : Nat} (hlt : i < pos.toNat) :
    (UInt64.ofNat i - pos).toNat = 2 ^ 64 - pos.toNat + i := by
  have hpos := pos.toNat_lt
  rw [UInt64.toNat_sub, UInt64.toNat_ofNat', Nat.mod_eq_of_lt (show i < 2 ^ 64 by omega)]
  exact Nat.mod_eq_of_lt (by omega)

/-- Where a copy that does not wrap around puts its bytes. -/
theorem put_byte {b : Block} {k i : Nat} {src : Nat → UInt8} (hk : pos.toNat + k ≤ 2 ^ 64) (hi : i < 2 ^ 64) :
    (b.put pos k src).byte (UInt64.ofNat i) =
      if pos.toNat ≤ i ∧ i < pos.toNat + k then src (i - pos.toNat) else b.byte (UInt64.ofNat i) := by
  unfold Block.put
  simp only
  by_cases hle : pos.toNat ≤ i
  · rw [toNat_ofNat_sub hi hle]
    by_cases hlt : i < pos.toNat + k
    · rw [if_pos (by omega), if_pos ⟨hle, hlt⟩]
    · rw [if_neg (by omega), if_neg (by omega)]
  · rw [toNat_ofNat_sub_of_lt (by omega), if_neg (by omega), if_neg (by omega)]

theorem covers_of_le {b : Block} {k : Nat} (h : pos.toNat + k ≤ b.size) : b.covers pos k = true := by
  simp [Block.covers, h]

/-! ## Writing -/

/-- What a larger block holds behind the old data. -/
def fresh (junk : UInt64 → UInt8) (c : List UInt8) (size : Nat) : List UInt8 :=
  (List.range (size - c.length)).map fun i => junk (UInt64.ofNat (c.length + i))

theorem length_fresh {size : Nat} (h : c.length ≤ size) : (c ++ fresh junk c size).length = size := by
  simp [fresh]
  omega

/-- **A larger block** holds the old data. -/
theorem Holds.grow {size : UInt64} (h : Holds f c) (hle : c.length ≤ size.toNat) (hsize : size.toNat < 2 ^ 32) :
    Holds (grow junk f size).1 (c ++ fresh junk c size.toNat) ∧ (grow junk f size).2 = true := by
  have hallocated : (newChars junk size).size = size.toNat := by
    simp only [newChars, UInt64.toNat_toUInt32]
    exact Nat.mod_eq_of_lt hsize
  refine ⟨⟨?_, fun i hi => ?_, ?_, ?_⟩, ?_⟩
  · exact (length_fresh hle).symm
  · rw [length_fresh hle] at hi
    have hbyte := @put_byte 0 (newChars junk size) f.fileSize.toNat i
      (fun i => f.fileData.byte (UInt64.ofNat i)) (by simp; exact Nat.le_of_lt f.fileSize.toNat_lt) (by omega)
    rw [show (FileData.grow junk f size).1.fileData = (newChars junk size).put 0 f.fileSize.toNat
      fun i => f.fileData.byte (UInt64.ofNat i) from rfl, hbyte, h.fileSize]
    by_cases hold : i < c.length
    · rw [if_pos (by simp [hold]), List.getElem_append_left hold]
      exact h.bytes i hold
    · rw [if_neg (by simp; omega), List.getElem_append_right (by omega)]
      simp only [fresh, List.getElem_map, List.getElem_range, newChars]
      congr 2
      omega
  · rw [length_fresh hle]
    exact Nat.le_of_eq hallocated.symm
  · exact hallocated ▸ hsize
  · have hnew : (newChars junk size).covers 0 f.fileSize.toNat = true :=
      covers_of_le (by rw [hallocated, h.fileSize]; simpa using hle)
    have hold : f.fileData.covers 0 f.fileSize.toNat = true :=
      covers_of_le (by rw [h.fileSize]; simpa using h.allocated)
    simp [FileData.grow, hnew, hold]

/-- Bytes that are copied into the data. -/
theorem Holds.put {k : Nat} (h : Holds f c) (user : UserBuffer) (hle : pos.toNat + k ≤ c.length) :
    Holds { f with fileData := f.fileData.put pos k user.byte } (VFS.TempFS.patch c pos.toNat k user) ∧
      f.fileData.covers pos k = true := by
  have hlen := h.length_lt
  refine ⟨⟨?_, fun i hi => ?_, ?_, h.size⟩, covers_of_le (Nat.le_trans hle h.allocated)⟩
  · simpa [VFS.TempFS.patch] using h.fileSize
  · have hic : i < c.length := by simpa [VFS.TempFS.patch] using hi
    show (f.fileData.put pos k user.byte).byte (UInt64.ofNat i) = _
    rw [put_byte (by omega) (by omega), h.bytes i hic]
    simp [VFS.TempFS.patch]
  · show (VFS.TempFS.patch c pos.toNat k user).length ≤ f.fileData.size
    simpa [VFS.TempFS.patch] using h.allocated

/-- The comparison of `cap` with the size of the buffer. -/
theorem cap_lt_iff (h : Holds f c) (hpos : pos.toNat ≤ c.length) :
    f.fileSize - pos < bufferSize ↔ c.length < pos.toNat + bufferSize.toNat := by
  rw [UInt64.lt_iff_toNat_lt, UInt64.toNat_sub_of_le, h.fileSize]
  · omega
  · rw [UInt64.le_iff_toNat_le, h.fileSize]
    exact hpos

theorem add_toNat (h : pos.toNat + bufferSize.toNat < 2 ^ 32) :
    (pos + bufferSize).toNat = pos.toNat + bufferSize.toNat := by
  rw [UInt64.toNat_add]
  exact Nat.mod_eq_of_lt (by omega)

/-- **A write** whose end is below `2 ^ 32`: the file is extended up to there, and the readable part of
the buffer is copied. -/
theorem Holds.writeNodeData (junk : UInt64 → UInt8) (user : UserBuffer) (h : Holds f c) (hpos : pos.toNat ≤ c.length)
    (hfit : pos.toNat + bufferSize.toNat < 2 ^ 32) :
    Holds (writeNodeData junk f pos user bufferSize).file
      (VFS.TempFS.patch (c ++ fresh junk c (pos.toNat + bufferSize.toNat)) pos.toNat
        (copied user.valid 0 bufferSize.toNat) user) ∧
      (writeNodeData junk f pos user bufferSize).inside = true := by
  have hk := copied_le user.valid 0 bufferSize.toNat
  unfold FileData.writeNodeData
  by_cases hcap : c.length < pos.toNat + bufferSize.toNat
  · have hsum := add_toNat hfit
    obtain ⟨hgrow, hinside⟩ := @Holds.grow junk f c (pos + bufferSize) h (by omega) (by omega)
    have hlen : (c ++ fresh junk c (pos + bufferSize).toNat).length = pos.toNat + bufferSize.toNat := by
      rw [length_fresh (by omega), hsum]
    obtain ⟨hput, hcovers⟩ := hgrow.put (k := copied user.valid 0 bufferSize.toNat) user (show pos.toNat + _ ≤ _ by omega)
    rw [hsum] at hput
    simp only [(cap_lt_iff h hpos).2 hcap, if_true, hinside, hcovers, Bool.and_self, and_true]
    exact hput
  · obtain ⟨hput, hcovers⟩ := h.put (k := copied user.valid 0 bufferSize.toNat) user (show pos.toNat + _ ≤ _ by omega)
    have hfresh : fresh junk c (pos.toNat + bufferSize.toNat) = [] := by
      simp [fresh, Nat.sub_eq_zero_of_le (Nat.le_of_not_lt hcap)]
    simp only [mt (cap_lt_iff h hpos).1 hcap, if_false, hcovers, hfresh, List.append_nil, Bool.and_self, and_true]
    exact hput

theorem writeNodeData_ret :
    (writeNodeData junk f pos user bufferSize).ret =
      if copied user.valid 0 bufferSize.toNat = bufferSize.toNat then bufferSize else ErrorInvalidBuffer := rfl

theorem sub64_of_le {a b : Nat} (hle : b ≤ a) (ha : a < 2 ^ 64) : VFS.TempFS.sub64 a b = a - b := by
  unfold VFS.TempFS.sub64
  rw [show a + 2 ^ 64 - b = a - b + 2 ^ 64 by omega, Nat.add_mod_right]
  exact Nat.mod_eq_of_lt (by omega)

/-- **The write** of the file system's model is this one, where the sizes fit. -/
theorem writeNodeData_refines {K : VFS.Kernel} {s : VFS.State} {n : VFS.NodeRef} {node : VFS.Node} {id : Nat}
    {tn : VFS.TestNode} (htn : s.testNodes.cell id = some tn) (hn : s.nodes.cell n = some node)
    (h : Holds f tn.fileData) (hpos : pos.toNat ≤ tn.fileData.length)
    (hfit : pos.toNat + bufferSize.toNat < 2 ^ 32)
    (hjunk : ∀ i, junk (UInt64.ofNat (tn.fileData.length + i)) = K.uninit i) :
    ∃ s' tn', VFS.TempFS.writeNodeData K n id pos.toNat user bufferSize.toNat s =
        .ok (if copied user.valid 0 bufferSize.toNat = bufferSize.toNat then .count bufferSize.toNat
          else .invalidBuffer, s') ∧
      s'.testNodes.cell id = some tn' ∧
      Holds (writeNodeData junk f pos user bufferSize).file tn'.fileData := by
  obtain ⟨hholds, -⟩ := h.writeNodeData junk user hpos hfit
  have hfresh : fresh junk tn.fileData (pos.toNat + bufferSize.toNat) =
      (List.range (pos.toNat + bufferSize.toNat - tn.fileData.length)).map K.uninit := by
    exact List.map_congr_left fun i _ => hjunk i
  have hsub := sub64_of_le hpos (Nat.lt_trans h.length_lt (by omega))
  have hgrow : ∃ s₁, VFS.TempFS.growNodeData K n id pos.toNat bufferSize.toNat s = .ok ((), s₁) ∧
      s₁.testNodes.cell id = some { tn with
        fileData := tn.fileData ++ fresh junk tn.fileData (pos.toNat + bufferSize.toNat) } := by
    unfold VFS.TempFS.growNodeData
    rw [VFS.M.bind_ok (VFS.getTestNode_ok htn), hsub]
    by_cases hcap : tn.fileData.length - pos.toNat < bufferSize.toNat
    · rw [if_pos hcap, VFS.M.bind_ok (VFS.modifyTestNode_ok htn _)]
      refine ⟨_, VFS.modifyNode_ok (by exact hn) _, ?_⟩
      simp [VFS.State.updTestNode, VFS.State.updNode, htn, hfresh]
    · rw [if_neg hcap]
      refine ⟨s, rfl, ?_⟩
      have hnil : fresh junk tn.fileData (pos.toNat + bufferSize.toNat) = [] := by
        simp [fresh, show pos.toNat + bufferSize.toNat - tn.fileData.length = 0 by omega]
      rw [hnil, List.append_nil]
      exact htn
  obtain ⟨s₁, hrun, htn₁⟩ := hgrow
  unfold VFS.TempFS.writeNodeData
  rw [VFS.M.bind_ok hrun, VFS.M.bind_ok (VFS.getTestNode_ok htn₁), if_neg (by simp [fresh]; omega),
    VFS.M.bind_ok (VFS.modifyTestNode_ok htn₁ _)]
  exact ⟨_, _, rfl, by simp [VFS.State.updTestNode, htn₁]; rfl, hholds⟩

/-! ## The law of a file -/

/-- The bytes from `pos` on are replaced, and the list is extended if need be. -/
def replaced (c : List UInt8) (pos : Nat) (data : List UInt8) : List UInt8 :=
  c.take pos ++ data ++ c.drop (pos + data.length)

/-- A complete copy. -/
theorem patch_eq_replaced {p n : Nat} (hp : p ≤ c.length) :
    VFS.TempFS.patch (c ++ fresh junk c (p + n)) p n user = replaced c p (user.bytes n) := by
  have hdata : (user.bytes n).length = n := by simp [UserBuffer.bytes]
  have htake : (c.take p).length = p := by simp [hp]
  have hfront : (c.take p ++ user.bytes n).length = p + n := by rw [List.length_append, htake, hdata]
  apply List.ext_getElem
  · simp [VFS.TempFS.patch, replaced, fresh, hdata]
    omega
  · intro i hi hi'
    have hlen : i < c.length + (p + n - c.length) := by
      simpa [VFS.TempFS.patch, fresh] using hi
    simp only [VFS.TempFS.patch, List.getElem_mapIdx, replaced]
    by_cases hbefore : i < p
    · rw [if_neg (by omega), List.getElem_append_left (by omega), List.getElem_append_left (by omega),
        List.getElem_append_left (by omega), List.getElem_take]
    · by_cases hin : i < p + n
      · rw [if_pos ⟨by omega, hin⟩, List.getElem_append_left (by omega), List.getElem_append_right (by omega)]
        simp [UserBuffer.bytes, htake]
      · rw [if_neg (by omega), List.getElem_append_left (by omega), List.getElem_append_right (by omega),
          List.getElem_drop]
        congr 1
        omega

/-- A write of `bufferSize` bytes from `pos` on stays in the block, stores them if its end is below
`2 ^ 32`, and is refused without a change otherwise. -/
structure WriteLaw (junk : UInt64 → UInt8) (f : File) (c : List UInt8) (pos : UInt64) (user : UserBuffer)
    (bufferSize : UInt64) : Prop where
  inside : (writeNodeData junk f pos user bufferSize).inside = true
  stored : pos.toNat + bufferSize.toNat < 2 ^ 32 →
    (writeNodeData junk f pos user bufferSize).ret = bufferSize ∧
      Holds (writeNodeData junk f pos user bufferSize).file
        (replaced c pos.toNat (user.bytes bufferSize.toNat))
  refused : 2 ^ 32 ≤ pos.toNat + bufferSize.toNat →
    (writeNodeData junk f pos user bufferSize).ret ≠ bufferSize ∧
      Holds (writeNodeData junk f pos user bufferSize).file c

/-- A read returns what there is from `pos` on, as far as the buffer goes. -/
structure ReadLaw (f : File) (c : List UInt8) (pos : UInt64) (user : UserBuffer) (bufferSize : UInt64) :
    Prop where
  inside : (readNodeData f pos user bufferSize).1.inside = true
  file : (readNodeData f pos user bufferSize).1.file = f
  ret : (readNodeData f pos user bufferSize).1.ret.toNat = min bufferSize.toNat (c.length - pos.toNat)
  buffer : (readNodeData f pos user bufferSize).2.byte =
    Ring.overlay user.byte 0 (min bufferSize.toNat (c.length - pos.toNat)) fun i => c.getD (pos.toNat + i) 0

/-- **A read** of a file is right, whatever the size of the buffer. -/
theorem Holds.readLaw (h : Holds f c) (hpos : pos.toNat ≤ c.length)
    (huser : user.Accessible bufferSize.toNat) : ReadLaw f c pos user bufferSize := by
  have hlen := h.length_lt
  have hrem : (f.fileSize - pos).toNat = c.length - pos.toNat := by
    rw [UInt64.toNat_sub_of_le, h.fileSize]
    rw [UInt64.le_iff_toNat_le, h.fileSize]
    exact hpos
  by_cases hzero : f.fileSize - pos = 0
  · have hend : c.length - pos.toNat = 0 := by rw [← hrem, hzero]; rfl
    have hread : readNodeData f pos user bufferSize = (⟨0, f, true⟩, user) := by
      simp [readNodeData, hzero]
    refine ⟨by rw [hread], by rw [hread], ?_, ?_⟩
    · rw [hread, hend]
      simp
    · rw [hread, hend]
      simp
  · have hmin : (if f.fileSize - pos > bufferSize then bufferSize else f.fileSize - pos).toNat =
        min bufferSize.toNat (c.length - pos.toNat) := by
      rw [← hrem]
      split
      · rename_i hlt
        have := UInt64.lt_iff_toNat_lt.1 hlt
        omega
      · rename_i hle
        have := mt UInt64.lt_iff_toNat_lt.2 hle
        omega
    have hcopied : copied user.valid 0 (min bufferSize.toNat (c.length - pos.toNat)) =
        min bufferSize.toNat (c.length - pos.toNat) :=
      (copied_zero_eq_iff user _).2 fun i hi => huser i (by omega)
    have hcovers : f.fileData.covers pos (min bufferSize.toNat (c.length - pos.toNat)) = true :=
      covers_of_le (by have := h.allocated; omega)
    refine ⟨?_, ?_, ?_, ?_⟩ <;> simp only [readNodeData, hzero, if_false, hmin, hcopied, if_true, hcovers]
    funext i
    by_cases hi : i < min bufferSize.toNat (c.length - pos.toNat)
    · have hbyte := h.bytes (pos.toNat + i) (by omega)
      rw [Ring.overlay_of_mem (Nat.zero_le i) (by omega), Ring.overlay_of_mem (Nat.zero_le i) (by omega),
        Nat.sub_zero, List.getD_eq_getElem?_getD,
        List.getElem?_eq_getElem (by omega), Option.getD_some, ← hbyte, UInt64.ofNat_add, UInt64.ofNat_toNat]
    · rw [Ring.overlay_of_not_mem (by omega), Ring.overlay_of_not_mem (by omega)]

/-- **The contents of a file** are as they should be exactly if the end of the write is below `2 ^ 32`:
from there on the block that is allocated is too small, and the write goes on behind it. -/
theorem file_contents (junk : UInt64 → UInt8) (f : File) (c : List UInt8) (h : Holds f c) (pos : UInt64)
    (hpos : pos.toNat ≤ c.length) (user : UserBuffer) (bufferSize : UInt64)
    (huser : user.Accessible bufferSize.toNat) :
    WriteLaw junk f c pos user bufferSize ∧ ReadLaw f c pos user bufferSize ↔
      pos.toNat + bufferSize.toNat < 2 ^ 32 := by
  have hcopied := (copied_zero_eq_iff user bufferSize.toNat).2 huser
  have hret : (writeNodeData junk f pos user bufferSize).ret = bufferSize := by
    rw [writeNodeData_ret, if_pos hcopied]
  constructor
  · rintro ⟨hwrite, -⟩
    by_contra hge
    exact (hwrite.refused (Nat.le_of_not_lt hge)).1 hret
  · intro hfit
    obtain ⟨hholds, hinside⟩ := h.writeNodeData junk user hpos hfit
    rw [hcopied, patch_eq_replaced hpos] at hholds
    exact ⟨⟨hinside, fun _ => ⟨hret, hholds⟩, fun hge => absurd hfit (Nat.not_lt_of_le hge)⟩,
      h.readLaw hpos huser⟩

/-- A buffer that is readable everywhere. -/
def readable : UserBuffer := ⟨fun _ => true, fun _ => 7⟩

/-- A file of the bytes 1, 2, 3. -/
def small : File := ⟨3, 3, fun i => if i = 0 then 1 else if i = 1 then 2 else 3⟩

theorem holds_small : Holds small [1, 2, 3] := by
  refine ⟨by decide, fun i hi => ?_, by decide, by decide⟩
  have hcases : i = 0 ∨ i = 1 ∨ i = 2 := by
    simp only [List.length_cons, List.length_nil] at hi
    omega
  rcases hcases with rfl | rfl | rfl <;> rfl

/-- Two bytes are written over the end. -/
theorem file_contents_small : WriteLaw (fun _ => 0) small [1, 2, 3] 2 readable 2 ∧
    ReadLaw small [1, 2, 3] 2 readable 2 :=
  (file_contents (fun _ => 0) small [1, 2, 3] holds_small 2 (by decide) readable 2 fun _ _ => rfl).2 (by decide)

/-- For `2 ^ 32 + 1` bytes in an empty file one byte is allocated; the call copies all of them and
succeeds. -/
theorem large_write_escapes : Holds ⟨0, 0, fun _ => 0⟩ [] ∧ readable.Accessible (0x100000001 : UInt64).toNat ∧
    (writeNodeData (fun _ => 0) ⟨0, 0, fun _ => 0⟩ 0 readable 0x100000001).inside = false ∧
    ¬ WriteLaw (fun _ => 0) ⟨0, 0, fun _ => 0⟩ [] 0 readable 0x100000001 := by
  have hreadable : readable.Accessible (0x100000001 : UInt64).toNat := fun _ _ => rfl
  have hcopied := (copied_zero_eq_iff readable _).2 hreadable
  refine ⟨⟨rfl, fun i hi => absurd hi (Nat.not_lt_zero i), Nat.le_refl _, by decide⟩, hreadable, ?_, fun h => ?_⟩
  · simp only [writeNodeData, hcopied, Bool.and_eq_false_iff]
    right
    decide
  · refine (h.refused (by decide)).1 ?_
    rw [writeNodeData_ret, if_pos hcopied]

/-! ## Failed writes -/

/-- The size and every byte are as before. -/
def Unchanged (f f' : File) : Prop :=
  f'.fileSize = f.fileSize ∧ ∀ i, i < f.fileSize → f'.fileData.byte i = f.fileData.byte i

/-- A write that finds the buffer invalid leaves the file and the position as they were. -/
def FailedWriteLaw (junk : UInt64 → UInt8) (permissions : UInt8) (f : File) (pos : UInt64)
    (user : UserBuffer) (bufferSize : UInt64) : Prop :=
  (write junk permissions f pos user bufferSize).1.ret = ErrorInvalidBuffer →
    Unchanged f (write junk permissions f pos user bufferSize).1.file ∧
      (write junk permissions f pos user bufferSize).2 = pos

/-- The write does not get as far as the copy, or copies everything, or fits into the file and copies,
up to the first unreadable byte, what is there already. -/
def LeavesFile (permissions : UInt8) (f : File) (pos : UInt64) (user : UserBuffer) (bufferSize : UInt64) :
    Prop :=
  permissions &&& VFS.Permissions.write = 0 ∨
    user.Accessible bufferSize.toNat ∧ bufferSize ≠ ErrorInvalidBuffer ∨
    bufferSize ≤ f.fileSize - pos ∧ ∀ i < copied user.valid 0 bufferSize.toNat,
      pos + UInt64.ofNat i < f.fileSize → f.fileData.byte (pos + UInt64.ofNat i) = user.byte i

/-- A copy changes nothing exactly if it copies what is there. -/
theorem unchanged_put_iff {k : Nat} (hk : k < 2 ^ 64) {src : Nat → UInt8} :
    Unchanged f { f with fileData := f.fileData.put pos k src } ↔
      ∀ i < k, pos + UInt64.ofNat i < f.fileSize → f.fileData.byte (pos + UInt64.ofNat i) = src i := by
  have hback : ∀ i < k, ((pos + UInt64.ofNat i) - pos).toNat = i := by
    intro i hi
    rw [UInt64.add_comm, UInt64.add_sub_cancel, UInt64.toNat_ofNat']
    exact Nat.mod_eq_of_lt (by omega)
  constructor
  · rintro ⟨-, hbytes⟩ i hi hlt
    have hbyte := hbytes _ hlt
    simp only [Block.put, hback i hi, hi, if_true] at hbyte
    exact hbyte.symm
  · refine fun h => ⟨rfl, fun j hj => ?_⟩
    simp only [Block.put]
    split
    · rename_i hlt
      have hj' : pos + UInt64.ofNat (j - pos).toNat = j := by
        rw [UInt64.ofNat_toNat, UInt64.add_comm, UInt64.sub_add_cancel]
      have hbyte := h _ hlt (by rwa [hj'])
      rw [hj'] at hbyte
      exact hbyte.symm
    · rfl

/-- The file is unchanged exactly if it does not grow and the copy changes nothing. -/
theorem unchanged_writeNodeData_iff :
    Unchanged f (writeNodeData junk f pos user bufferSize).file ↔
      bufferSize ≤ f.fileSize - pos ∧ ∀ i < copied user.valid 0 bufferSize.toNat,
        pos + UInt64.ofNat i < f.fileSize → f.fileData.byte (pos + UInt64.ofNat i) = user.byte i := by
  have hk : copied user.valid 0 bufferSize.toNat < 2 ^ 64 :=
    Nat.lt_of_le_of_lt (copied_le _ _ _) bufferSize.toNat_lt
  unfold writeNodeData
  by_cases hcap : f.fileSize - pos < bufferSize
  · simp only [hcap, if_true, Nat.not_le_of_lt (UInt64.lt_iff_toNat_lt.1 hcap), UInt64.le_iff_toNat_le,
      false_and, iff_false]
    -- The new size is another one, also when the sum wraps.
    rintro ⟨hsize, -⟩
    have hsum : pos + bufferSize = f.fileSize := hsize
    rw [← hsum, UInt64.add_comm, UInt64.add_sub_cancel] at hcap
    exact absurd hcap (UInt64.lt_irrefl _)
  · simp only [hcap, if_false]
    rw [unchanged_put_iff hk]
    exact (and_iff_right (UInt64.not_lt.1 hcap)).symm

/-- **A failed write** leaves the file unchanged exactly if it neither extends the file nor copies a byte
that differs before it comes to the unreadable one. -/
theorem failed_write_unchanged (junk : UInt64 → UInt8) (permissions : UInt8) (f : File) (pos : UInt64)
    (user : UserBuffer) (bufferSize : UInt64) :
    FailedWriteLaw junk permissions f pos user bufferSize ↔
      LeavesFile permissions f pos user bufferSize := by
  unfold FailedWriteLaw LeavesFile write
  by_cases hperm : permissions &&& VFS.Permissions.write = 0
  · simp [hperm, ErrorPermissionDenied, ErrorInvalidBuffer]
  · have hret := @writeNodeData_ret junk f pos bufferSize user
    simp only [beq_iff_eq, hperm, if_false, false_or]
    by_cases hreturns : (writeNodeData junk f pos user bufferSize).ret = ErrorInvalidBuffer
    · have hstays : ¬ (0 ≤ ErrorInvalidBuffer.toInt64) := by decide
      have hfailed : ¬ (user.Accessible bufferSize.toNat ∧ bufferSize ≠ ErrorInvalidBuffer) := by
        rintro ⟨huser, hne⟩
        rw [hret, if_pos ((copied_zero_eq_iff user _).2 huser)] at hreturns
        exact hne hreturns
      rw [unchanged_writeNodeData_iff, hreturns]
      simp [hstays, hfailed]
    · have hcomplete : user.Accessible bufferSize.toNat ∧ bufferSize ≠ ErrorInvalidBuffer := by
        rw [hret] at hreturns
        split at hreturns
        · rename_i hcopied
          exact ⟨(copied_zero_eq_iff user _).1 hcopied, hreturns⟩
        · exact absurd rfl hreturns
      simp [hreturns, hcomplete]

/-- A buffer of which only the first byte is readable. -/
def oneByte : UserBuffer := ⟨fun i => i == 0, fun _ => 7⟩

/-- Four bytes, only the first readable, are written to the end of the file: it is extended by four
bytes, one of them written and three left over from other uses of the memory. -/
theorem failed_write_grows : ¬ FailedWriteLaw (fun _ => 99) VFS.Permissions.write small 3 oneByte 4 ∧
    (write (fun _ => 99) VFS.Permissions.write small 3 oneByte 4).1.ret = ErrorInvalidBuffer ∧
    (write (fun _ => 99) VFS.Permissions.write small 3 oneByte 4).1.file.fileSize = 7 := by
  refine ⟨fun h => ?_, by decide, by decide⟩
  have hsize := (h (by decide)).1.1
  exact absurd hsize (by decide)

end ChenixOS.FileData
