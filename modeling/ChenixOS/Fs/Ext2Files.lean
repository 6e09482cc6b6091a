import ChenixOS.Fs.Ext2

/-!
# Reading files from ext2

The blocks of a file are found through the inode: 12 of them in the inode itself, the others through tables
of block numbers that are one, two or three levels deep. The number 0 is a hole, which reads as zeros.

**Theorem (`readNodeData_right_iff`).** `ReadNodeData` returns the bytes of the file exactly if all blocks it
needs are direct or in the table of the indirect pointer, and where there is a hole, the device has zeros in
the place that it reads instead. A file of 4 GB or more must have the bytes that are asked for below what the
low half of its size leaves.
-/

namespace ChenixOS.Ext2

variable {image past : Nat → UInt8} {d : Ext2Driver} {inode : INode} {b i k n o pos : Nat}

/-! ## The format -/

/-- **A well-formed image**, as far as files are concerned. The fields from the size of the inodes on exist
since revision 1, and `blockSizeShift` is such that the block size is an `int`. -/
structure WellFormed (image : Nat → UInt8) : Prop where
  signature : u16 image (1024 + 56) = 0xEF53
  revision : 1 ≤ u32 image (1024 + 76)
  blockSize : u32 image (1024 + 24) ≤ 20
  inodesPerGroup : 0 < u32 image (1024 + 40)
  inodeSize : inodeSizeof ≤ u16 image (1024 + 88)

namespace INode

/-- The size of a regular file. -/
def fileSize (inode : INode) : Nat := inode.size + 2 ^ 32 * inode.sizeHigh

/-- A number in a table of block numbers. A table that is a hole has only holes. -/
def entry (d : Ext2Driver) (table i : Nat) : Nat :=
  if table = 0 then 0 else u32 d.image (table * d.blockSize + 4 * i)

/-- The block `b` of the file. -/
def block (d : Ext2Driver) (inode : INode) (b : Nat) : Nat :=
  let p := d.blockSize / 4
  if b < 12 then inode.directPointers b
  else if b < 12 + p then entry d inode.indirectPointer (b - 12)
  else if b < 12 + p + p * p then
    let k := b - (12 + p)
    entry d (entry d inode.doubleIndirectPointer (k / p)) (k % p)
  else
    let k := b - (12 + p + p * p)
    entry d (entry d (entry d inode.tripleIndirectPointer (k / (p * p))) (k / p % p)) (k % p)

/-- The byte `o` of the file. -/
def byte (d : Ext2Driver) (inode : INode) (o : Nat) : UInt8 :=
  let b := inode.block d (o / d.blockSize)
  if b = 0 then 0 else d.image (b * d.blockSize + o % d.blockSize)

end INode

/-! ## The loop -/

namespace Ext2Driver

/-- The number that the loop finds for the block `b`. -/
def found (d : Ext2Driver) (past : Nat → UInt8) (inode : INode) (b : Nat) : Nat :=
  if b < 12 then inode.directPointers b else u32 (d.table past inode) (4 * (b - 12))

/-- The byte that the loop reads for the byte `o` of the file. -/
def foundByte (d : Ext2Driver) (past : Nat → UInt8) (inode : INode) (o : Nat) : UInt8 :=
  d.image (d.found past inode (o / d.blockSize) * d.blockSize + o % d.blockSize)

variable {t t' : Transfer}

/-- The table was not loaded yet, or it is the inode's. -/
def Loaded (d : Ext2Driver) (past : Nat → UInt8) (inode : INode) (t : Transfer) : Prop :=
  t.indirectBuffer.getD (d.table past inode) = d.table past inode

/-- How much the loop reads at once. -/
def step (d : Ext2Driver) (t : Transfer) : Nat := min (d.blockSize - t.pos % d.blockSize) t.rem

/-- **One block.** -/
theorem readBlock_spec (h : d.Loaded past inode t) :
    (d.readBlock past inode t).rem = t.rem - d.step t ∧
    (d.readBlock past inode t).pos = (t.pos + d.step t) % wordSize ∧
    (d.readBlock past inode t).res = (t.res + d.step t) % wordSize ∧
    (d.readBlock past inode t).buffer = t.buffer ++
      d.getData (d.found past inode (t.pos / d.blockSize) * d.blockSize + t.pos % d.blockSize) (d.step t) ∧
    (d.readBlock past inode t).tableReads = t.tableReads ++
      (if t.pos / d.blockSize < 12 then [] else [t.pos / d.blockSize - 12]) ∧
    d.Loaded past inode (d.readBlock past inode t) := by
  unfold readBlock lookupBlock found step
  by_cases hdirect : t.pos / d.blockSize < 12
  · simp only [if_pos hdirect, List.append_nil, true_and]
    exact h
  · have htable : t.indirectBuffer.getD (d.table past inode) = d.table past inode := h
    simp only [if_neg hdirect, htable, true_and]
    exact rfl

theorem step_pos (hb : 0 < d.blockSize) (h : 0 < t.rem) : 0 < d.step t :=
  Nat.lt_min.2 ⟨Nat.sub_pos_of_lt (Nat.mod_lt _ hb), h⟩

theorem step_le : d.step t ≤ t.rem := Nat.min_le_right _ _

/-- What is read at once is in one block. -/
theorem mem_step (hb : 0 < d.blockSize) (hi : i < d.step t) :
    (t.pos + i) / d.blockSize = t.pos / d.blockSize ∧
      (t.pos + i) % d.blockSize = t.pos % d.blockSize + i := by
  have hlt : i < d.blockSize - t.pos % d.blockSize := Nat.lt_of_lt_of_le hi (Nat.min_le_left _ _)
  have hsplit : t.pos + i = t.pos % d.blockSize + i + t.pos / d.blockSize * d.blockSize := by
    have := Nat.mod_add_div' t.pos d.blockSize
    omega
  have hsmall : t.pos % d.blockSize + i < d.blockSize := by omega
  constructor
  · rw [hsplit, Nat.add_mul_div_right _ _ hb, Nat.div_eq_of_lt hsmall, Nat.zero_add]
  · rw [hsplit, Nat.add_mul_mod_self_right, Nat.mod_eq_of_lt hsmall]

/-- **The loop ends and counts** what it reads. -/
theorem readLoop_res (hb : 0 < d.blockSize) (hload : d.Loaded past inode t) (hn : n = t.rem)
    (hres : t.res + t.rem < wordSize) :
    ∃ t', (∀ fuel > n, readLoop d past inode fuel t = some t') ∧ t'.res = t.res + t.rem := by
  induction n using Nat.strong_induction_on generalizing t with
  | _ n ih =>
    by_cases hpos : 0 < t.rem
    · obtain ⟨hrem, -, hres', -, -, hload'⟩ := readBlock_spec hload
      have hstep := step_pos hb hpos
      have hle := step_le (d := d) (t := t)
      rw [Nat.mod_eq_of_lt (by omega)] at hres'
      obtain ⟨t', hrun, heq⟩ := ih (d.readBlock past inode t).rem (by omega) hload' rfl (by omega)
      refine ⟨t', fun fuel hfuel => ?_, by omega⟩
      cases fuel with
      | zero => omega
      | succ fuel =>
        rw [readLoop, if_pos hpos]
        exact hrun fuel (by omega)
    · refine ⟨t, fun fuel hfuel => ?_, by omega⟩
      cases fuel with
      | zero => omega
      | succ fuel => rw [readLoop, if_neg hpos]

/-- **What the loop reads.** -/
theorem readLoop_spec (hb : 0 < d.blockSize) (hload : d.Loaded past inode t) (hn : n = t.rem)
    (hpos : t.pos + t.rem < wordSize) :
    ∃ t', (∀ fuel > n, readLoop d past inode fuel t = some t') ∧
      t'.buffer = t.buffer ++ (List.range t.rem).map (fun i => d.foundByte past inode (t.pos + i)) ∧
      ∀ i, i ∈ t'.tableReads ↔ i ∈ t.tableReads ∨
        ∃ o, t.pos ≤ o ∧ o < t.pos + t.rem ∧ 12 ≤ o / d.blockSize ∧ i = o / d.blockSize - 12 := by
  induction n using Nat.strong_induction_on generalizing t with
  | _ n ih =>
    by_cases hrem0 : 0 < t.rem
    · obtain ⟨hrem, hpos', -, hbuffer, htable, hload'⟩ := readBlock_spec hload
      have hstep := step_pos hb hrem0
      have hle := step_le (d := d) (t := t)
      rw [Nat.mod_eq_of_lt (by omega)] at hpos'
      obtain ⟨t', hrun, hbytes, hreads⟩ := ih (d.readBlock past inode t).rem (by omega) hload' rfl (by omega)
      refine ⟨t', fun fuel hfuel => ?_, ?_, fun i => ?_⟩
      · cases fuel with
        | zero => omega
        | succ fuel =>
          rw [readLoop, if_pos hrem0]
          exact hrun fuel (by omega)
      · -- The block, and then the rest.
        have hfirst : d.getData (d.found past inode (t.pos / d.blockSize) * d.blockSize +
            t.pos % d.blockSize) (d.step t) =
            (List.range (d.step t)).map fun i => d.foundByte past inode (t.pos + i) := by
          refine List.map_congr_left fun i hi => ?_
          obtain ⟨hdiv, hmod⟩ := mem_step hb (List.mem_range.1 hi)
          rw [foundByte, hdiv, hmod, Nat.add_assoc]
        have hsplit : t.rem = d.step t + (t.rem - d.step t) := by omega
        rw [hbytes, hbuffer, hfirst, hpos', hrem, List.append_assoc]
        conv_rhs => rw [hsplit, List.range_add, List.map_append, List.map_map]
        simp only [Function.comp_def, Nat.add_assoc]
      · rw [hreads, htable, List.mem_append, or_assoc, hpos', hrem]
        refine or_congr_right ?_
        constructor
        · rintro (hi | ⟨o, hlo, hhi, ho⟩)
          · by_cases hdirect : t.pos / d.blockSize < 12
            · simp [hdirect] at hi
            · rw [if_neg hdirect, List.mem_singleton] at hi
              exact ⟨t.pos, le_rfl, by omega, by omega, hi⟩
          · exact ⟨o, by omega, by omega, ho⟩
        · rintro ⟨o, hlo, hhi, hblock, rfl⟩
          by_cases ho : o < t.pos + d.step t
          · obtain ⟨k, rfl⟩ := Nat.exists_eq_add_of_le hlo
            obtain ⟨hdiv, -⟩ := mem_step (t := t) (i := k) hb (by omega)
            rw [hdiv] at hblock ⊢
            exact .inl (by rw [if_neg (by omega)]; exact List.mem_singleton.2 rfl)
          · exact .inr ⟨o, by omega, by omega, hblock, rfl⟩
    · have hzero : t.rem = 0 := by omega
      refine ⟨t, fun fuel hfuel => ?_, by simp [hzero], fun i => ?_⟩
      · cases fuel with
        | zero => omega
        | succ fuel => rw [readLoop, if_neg hrem0]
      · constructor
        · exact .inl
        · rintro (h | ⟨o, hlo, hhi, -⟩)
          · exact h
          · omega

/-- How many bytes `ReadNodeData` reads. -/
theorem readNodeData_res (past : Nat → UInt8) (inode : INode) (pos : Nat) (hb : 0 < d.blockSize) (hn : n < wordSize) :
    ∃ t enough, (∀ fuel ≥ enough, readNodeData fuel d past inode pos n = some t) ∧
      t.res = min ((inode.size + wordSize - pos) % wordSize) n := by
  let start : Transfer := ⟨min ((inode.size + wordSize - pos) % wordSize) n, pos, 0, [], none, []⟩
  have hstart : d.Loaded past inode start := rfl
  obtain ⟨t, hrun, hres⟩ := readLoop_res hb hstart rfl (by simp only [start, Nat.zero_add]; omega)
  exact ⟨t, _, hrun, hres.trans (Nat.zero_add _)⟩

/-- **What `ReadNodeData` reads**, if the count is right. -/
theorem readNodeData_spec (past : Nat → UInt8) (hb : 0 < d.blockSize) (hpos : pos + k < wordSize)
    (hk : min ((inode.size + wordSize - pos) % wordSize) n = k) :
    ∃ t enough, (∀ fuel ≥ enough, readNodeData fuel d past inode pos n = some t) ∧ t.res = k ∧
      t.buffer = (List.range k).map (fun i => d.foundByte past inode (pos + i)) ∧
      ∀ i, i ∈ t.tableReads ↔ ∃ o, pos ≤ o ∧ o < pos + k ∧ 12 ≤ o / d.blockSize ∧ i = o / d.blockSize - 12 := by
  let start : Transfer := ⟨k, pos, 0, [], none, []⟩
  have hstart : d.Loaded past inode start := rfl
  obtain ⟨t, hrun, hres⟩ := readLoop_res hb hstart rfl (show 0 + k < wordSize by omega)
  obtain ⟨t', hrun', hbuffer, htables⟩ := readLoop_spec hb hstart rfl hpos
  obtain rfl : t = t' := Option.some.inj ((hrun (k + 1) (Nat.lt_succ_self k)).symm.trans
    (hrun' (k + 1) (Nat.lt_succ_self k)))
  refine ⟨t, k + 1, fun fuel hfuel => ?_, hres.trans (Nat.zero_add k), hbuffer, fun i => ?_⟩
  · rw [readNodeData, hk]
    exact hrun fuel hfuel
  · exact (htables i).trans (or_iff_right List.not_mem_nil)

/-! ## Holes and tables -/

/-- The block that is read for a hole: the first one or, where the whole table is a hole, one whose number
is in the first one. -/
def holeBlock (d : Ext2Driver) (inode : INode) (b : Nat) : Nat :=
  if 12 ≤ b ∧ inode.indirectPointer = 0 then u32 d.image (4 * (b - 12)) else 0

theorem u32_congr {b b' : Nat → UInt8} {a a' : Nat} (h : ∀ j < 4, b (a + j) = b' (a' + j)) :
    u32 b a = u32 b' a' := by
  have h0 : b a = b' a' := h 0 (by omega)
  have h1 := h 1 (by omega)
  have h2 := h 2 (by omega)
  have h3 := h 3 (by omega)
  simp only [u32, u16, Nat.add_assoc] at h1 h2 h3 ⊢
  rw [h0, h1, h2, h3]

/-- **In the inode and the first table** the loop finds the blocks of the file, but no holes. -/
theorem found_eq (hblock : b < 12 + d.blockSize / 4) :
    d.found past inode b = if inode.block d b = 0 then d.holeBlock inode b else inode.block d b := by
  unfold found INode.block holeBlock
  by_cases hdirect : b < 12
  · have hhole : ¬ (12 ≤ b ∧ inode.indirectPointer = 0) := fun h => absurd h.1 (by omega)
    simp only [if_pos hdirect, if_neg hhole]
    split_ifs with h0
    · exact h0
    · rfl
  · have htable : u32 (d.table past inode) (4 * (b - 12)) =
        u32 d.image (inode.indirectPointer * d.blockSize + 4 * (b - 12)) := by
      refine u32_congr fun j hj => ?_
      rw [table, if_pos (by omega), Nat.add_assoc]
    rw [if_neg hdirect, htable]
    simp only [if_neg hdirect, if_pos hblock, INode.entry]
    by_cases h0 : inode.indirectPointer = 0
    · have hhole : 12 ≤ b ∧ inode.indirectPointer = 0 := ⟨by omega, h0⟩
      rw [if_pos h0, if_pos rfl, if_pos hhole, h0, Nat.zero_mul, Nat.zero_add]
    · have hhole : ¬ (12 ≤ b ∧ inode.indirectPointer = 0) := fun h => h0 h.2
      simp only [if_neg h0, if_neg hhole]
      split_ifs with he
      · exact he
      · rfl

/-- The byte that is read is that of the file, unless the device has something else for a hole. -/
theorem foundByte_eq_iff (hblock : o / d.blockSize < 12 + d.blockSize / 4) :
    d.foundByte past inode o = inode.byte d o ↔ (inode.block d (o / d.blockSize) = 0 →
      d.image (d.holeBlock inode (o / d.blockSize) * d.blockSize + o % d.blockSize) = 0) := by
  rw [foundByte, found_eq hblock, INode.byte]
  by_cases h0 : inode.block d (o / d.blockSize) = 0
  · simp only [h0, if_true, true_imp_iff]
  · simp only [h0, if_false, false_imp_iff]

end Ext2Driver

/-! ## `ReadNodeData` -/

/-- **What is asked of `ReadNodeData`**: it returns the number of bytes that there are, they are those of the
file, and tables are not read beyond their end. -/
structure ReadsFile (d : Ext2Driver) (inode : INode) (pos n : Nat) (t : Ext2Driver.Transfer) : Prop where
  res : t.res = min n (inode.fileSize - pos)
  buffer : t.buffer = (List.range (min n (inode.fileSize - pos))).map fun i => inode.byte d (pos + i)
  tables : ∀ i ∈ t.tableReads, i < d.blockSize / 4

/-- **When it does that.** -/
structure Readable (d : Ext2Driver) (inode : INode) (pos n : Nat) : Prop where
  size : inode.sizeHigh = 0 ∨ n ≤ (if pos ≤ inode.size then inode.size else inode.fileSize) - pos
  blocks : ∀ o, pos ≤ o → o < pos + n → o < inode.fileSize → o / d.blockSize < 12 + d.blockSize / 4
  holes : ∀ o, pos ≤ o → o < pos + n → o < inode.fileSize → inode.block d (o / d.blockSize) = 0 →
    d.image (d.holeBlock inode (o / d.blockSize) * d.blockSize + o % d.blockSize) = 0

theorem u16_lt (f : Nat → UInt8) (i : Nat) : u16 f i < 65536 := by
  have h0 := (f i).toNat_lt
  have h1 := (f (i + 1)).toNat_lt
  unfold u16
  omega

theorem u32_lt (f : Nat → UInt8) (i : Nat) : u32 f i < 2 ^ 32 := by
  have h0 := u16_lt f i
  have h1 := u16_lt f (i + 2)
  unfold u32
  omega

theorem INode.fileSize_lt (inode : INode) : inode.fileSize < wordSize := by
  have hlow : inode.size < 2 ^ 32 := u32_lt _ _
  have hhigh : inode.sizeHigh < 2 ^ 32 := u32_lt _ _
  have hword : wordSize = 2 ^ 64 := rfl
  unfold fileSize
  omega

/-- When the low half of a size gives the right count. -/
theorem count_eq_iff {low high size : Nat} (hlow : low < 2 ^ 32) (hhigh : high < 2 ^ 32)
    (hsize : size = low + 2 ^ 32 * high) (hpos : pos ≤ size) :
    min ((low + wordSize - pos) % wordSize) n = min n (size - pos) ↔
      (high = 0 ∨ n ≤ (if pos ≤ low then low else size) - pos) := by
  have hword : wordSize = 2 ^ 64 := rfl
  rw [hword]
  by_cases hle : pos ≤ low
  · have hsum : low + 2 ^ 64 - pos = low - pos + 2 ^ 64 := by omega
    rw [hsum, Nat.add_mod_right, Nat.mod_eq_of_lt (by omega), if_pos hle]
    omega
  · rw [Nat.mod_eq_of_lt (by omega), if_neg hle]
    omega

/-- The block size of a well-formed image. -/
theorem blockSize_eq (himage : WellFormed image) :
    (Ext2Driver.create image).blockSize = 1024 * 2 ^ u32 image (1024 + 24) := by
  have hshift : ∀ k, k ≤ 20 → ((1024#32 <<< k).signExtend 64).toNat = 1024 * 2 ^ k := by decide
  exact hshift _ himage.blockSize

/-- **Files.** `ReadNodeData` does what is asked of it exactly if the bytes are readable. -/
theorem readNodeData_right_iff (himage : WellFormed image) (hpos : pos ≤ inode.fileSize) (hn : n < wordSize) :
    (∃ t enough, (∀ fuel ≥ enough,
        Ext2Driver.readNodeData fuel (Ext2Driver.create image) past inode pos n = some t) ∧
      ReadsFile (Ext2Driver.create image) inode pos n t) ↔ Readable (Ext2Driver.create image) inode pos n := by
  obtain ⟨d, hd⟩ : ∃ d, d = Ext2Driver.create image := ⟨_, rfl⟩
  have hb : 0 < d.blockSize := by
    rw [hd, blockSize_eq himage]
    exact Nat.mul_pos (by decide) (Nat.two_pow_pos _)
  rw [← hd]
  have hfile := INode.fileSize_lt inode
  have hcount := count_eq_iff (n := n) (u32_lt inode.bytes 4) (u32_lt inode.bytes 108)
    (show inode.fileSize = u32 inode.bytes 4 + 2 ^ 32 * u32 inode.bytes 108 from rfl) hpos
  constructor
  · rintro ⟨t, enough, hrun, hright⟩
    obtain ⟨t', enough', hrun', hres⟩ := Ext2Driver.readNodeData_res past inode pos hb hn
    obtain rfl : t = t' := Option.some.inj ((hrun (max enough enough') (le_max_left _ _)).symm.trans
      (hrun' (max enough enough') (le_max_right _ _)))
    have hk := hres.symm.trans hright.res
    obtain ⟨t', enough', hrun', -, hbuffer, htables⟩ := Ext2Driver.readNodeData_spec past hb
      (by omega) hk
    obtain rfl : t = t' := Option.some.inj ((hrun (max enough enough') (le_max_left _ _)).symm.trans
      (hrun' (max enough enough') (le_max_right _ _)))
    have hblocks : ∀ o, pos ≤ o → o < pos + n → o < inode.fileSize →
        o / d.blockSize < 12 + d.blockSize / 4 := by
      intro o hlo hhi hsize
      by_cases hdirect : o / d.blockSize < 12
      · omega
      · have hread := hright.tables _ ((htables _).2 ⟨o, hlo, by omega, by omega, rfl⟩)
        omega
    refine ⟨hcount.1 hk, hblocks, fun o hlo hhi hsize => ?_⟩
    obtain ⟨i, rfl⟩ := Nat.exists_eq_add_of_le hlo
    have hbyte := List.map_inj_left.1 (hbuffer.symm.trans hright.buffer) i (List.mem_range.2 (by omega))
    exact (Ext2Driver.foundByte_eq_iff (hblocks _ hlo hhi hsize)).1 hbyte
  · intro h
    obtain ⟨t, enough, hrun, hres, hbuffer, htables⟩ := Ext2Driver.readNodeData_spec past hb
      (by omega) (hcount.2 h.size)
    refine ⟨t, enough, hrun, hres, hbuffer.trans (List.map_congr_left fun i hi => ?_), fun i hi => ?_⟩
    · have hlt := List.mem_range.1 hi
      exact (Ext2Driver.foundByte_eq_iff (h.blocks _ (by omega) (by omega) (by omega))).2
        (h.holes _ (by omega) (by omega) (by omega))
    · obtain ⟨o, hlo, hhi, hindirect, rfl⟩ := (htables i).1 hi
      have := h.blocks o hlo (by omega) (by omega)
      omega

/-- The bytes of a table, and zeros. -/
def bytesAt (table : List (Nat × UInt8)) (a : Nat) : UInt8 := (table.lookup a).getD 0

/-- An image with blocks of 2048 bytes, whose block 3 begins with a 7. -/
def smallImage : Nat → UInt8 :=
  bytesAt [(1048, 1), (1064, 8), (1080, 0x53), (1081, 0xEF), (1100, 1), (1112, 128), (6144, 7)]

theorem smallImage_wellFormed : WellFormed smallImage := by
  constructor <;> decide

/-- A file of two blocks: a hole and block 3. -/
def sparseFile : INode := ⟨bytesAt [(1, 0x80), (5, 16), (44, 3)]⟩

/-- A file of 525 blocks of 2048 bytes. Its last block is found through the double indirect pointer. -/
def longFile : INode := ⟨bytesAt [(1, 0x80), (5, 104), (6, 16), (92, 4)]⟩

/-- The second block of the sparse file. -/
theorem readNodeData_right_iff_second : ∃ t enough,
    (∀ fuel ≥ enough,
      Ext2Driver.readNodeData fuel (Ext2Driver.create smallImage) (fun _ => 0) sparseFile 2048 1 = some t) ∧
    ReadsFile (Ext2Driver.create smallImage) sparseFile 2048 1 t := by
  refine (readNodeData_right_iff smallImage_wellFormed (by decide) (by decide)).2 ⟨.inl (by decide), ?_, ?_⟩
  · intro o hlo hhi _
    obtain rfl : o = 2048 := by omega
    decide
  · intro o hlo hhi _
    obtain rfl : o = 2048 := by omega
    decide

/-- **A hole is not zeros, and the double indirect pointer is not followed.** In the hole of the first file,
the signature of the super block is read; for the last block of the second one, entry 512 of a table of 512
entries. -/
theorem hole_reads_superBlock : WellFormed smallImage ∧
    (Ext2Driver.readNodeData 2 (Ext2Driver.create smallImage) (fun _ => 0) sparseFile 1080 1).map
        (·.buffer) = some [0x53] ∧
      sparseFile.byte (Ext2Driver.create smallImage) 1080 = 0 ∧
    (Ext2Driver.readNodeData 2 (Ext2Driver.create smallImage) (fun _ => 0) longFile (524 * 2048) 1).map
        (·.tableReads) = some [512] ∧
      (Ext2Driver.create smallImage).blockSize / 4 = 512 := by
  refine ⟨smallImage_wellFormed, ?_, ?_, ?_, ?_⟩ <;> decide +kernel

end ChenixOS.Ext2
