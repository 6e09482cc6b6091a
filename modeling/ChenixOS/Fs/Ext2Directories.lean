import ChenixOS.Fs.Ext2Files

/-!
# Reading directories from ext2

A directory is a file that contains records: the number of an inode, the length of the record, the name. A
record with the number 0 was deleted. Records do not cross the end of a block.

**Theorem (`readNode_lists_iff`).** `ReadNode` reads the records where they are and makes the list of the live
ones exactly if no record was deleted, the directory has at most 12 blocks and no name has more than 49
bytes: it adds an entry for each record, looks for all blocks among the direct pointers, and reads a name
into the field of an entry whatever its length.
-/

namespace ChenixOS.Ext2

open Buffer
open VFS (RawDirectory DirectoryEntry Cell entrySizeof nodeIDOffset nameSizeof)
open VFS.RawDirectory (HoldsEntry)

variable {image past : Nat → UInt8} {junk : Nat → Cell} {d : Ext2Driver} {inode : INode}
  {dir dir' : RawDirectory} {es : List DirectoryEntry} {name : List UInt8} {ps reads reads' : List Nat}
  {content : Nat → UInt8} {fuel id i k p : Nat}

/-! ## The format -/

/-- The length of the record at `p`. -/
def recordSize (content : Nat → UInt8) (p : Nat) : Nat := u16 content (p + 4)

def recordName (content : Nat → UInt8) (p : Nat) : List UInt8 :=
  (List.range (content (p + 6)).toNat).map fun i => content (p + 8 + i)

/-- The records from `p` to the end of the directory are at `ps`. -/
inductive Records (content : Nat → UInt8) (blockSize size : Nat) : (p : Nat) → (ps : List Nat) → Prop
  | done : Records content blockSize size size []
  | record {p : Nat} {ps : List Nat} (inside : p < size)
      (name : 8 + (recordName content p).length ≤ recordSize content p)
      (block : p % blockSize + recordSize content p ≤ blockSize)
      (rest : Records content blockSize size (p + recordSize content p) ps) :
      Records content blockSize size p (p :: ps)

/-- **A well-formed directory**, with the places of its records: its blocks are there, and none of them is
also the block of its table. -/
structure WellFormedDirectory (d : Ext2Driver) (inode : INode) (ps : List Nat) : Prop where
  type : inode.typePermissions &&& 0xF000 = 0x4000
  records : Records (inode.byte d) d.blockSize inode.size 0 ps
  mapped : ∀ b, b * d.blockSize < inode.size → inode.block d b ≠ 0
  table : ∀ b, b * d.blockSize < inode.size → inode.block d b ≠ inode.indirectPointer

/-- A name as the VFS has it. -/
def chars (name : List UInt8) : List Char := name.map fun c => Char.ofNat c.toNat

/-- The entry that a record stands for. -/
def entryOf (content : Nat → UInt8) (p : Nat) : DirectoryEntry := ⟨chars (recordName content p), u32 content p⟩

/-- **The entries of a directory**: those of the live records, in order. -/
def liveEntries (content : Nat → UInt8) (ps : List Nat) : List DirectoryEntry :=
  (ps.filter fun p => u32 content p ≠ 0).map (entryOf content)

/-- The place of the byte `p` of a file on the device. -/
def place (d : Ext2Driver) (inode : INode) (p : Nat) : Nat :=
  inode.block d (p / d.blockSize) * d.blockSize + p % d.blockSize

/-! ## One record -/

namespace Ext2Driver

/-- A name that fits is read into the entry. -/
theorem readName_ok {size pos : Nat} {b : Nat → Cell} (h : pos + name.length < size) :
    ∃ b', readName size b pos name = some b' ∧
      (∀ i (hi : i < (chars name).length), b' (pos + i) = .char ((chars name)[i])) ∧
      b' (pos + (chars name).length) = .char (Char.ofNat 0) ∧
      ∀ i, i < pos ∨ pos + name.length < i → b' i = b i := by
  have hlength : (chars name).length = name.length := List.length_map _
  refine ⟨Function.update (paste b pos name.length fun i => .char (Char.ofNat (name.getD i 0).toNat))
    (pos + name.length) (.char (Char.ofNat 0)), ?_, fun i hi => ?_, ?_, fun i hi => ?_⟩
  · rw [readName, if_pos (by omega), write_of_lt _ h]
  · rw [hlength] at hi
    rw [Function.update_of_ne (by omega), paste_of_mem hi]
    simp [chars, List.getD_eq_getElem?_getD, hi]
  · rw [hlength, Function.update_self]
  · rw [Function.update_of_ne (by omega)]
    obtain hi | hi := hi
    · exact paste_of_lt hi
    · exact paste_of_ge (by omega)

/-- **A record whose name fits** becomes the last entry, and the others stay. -/
theorem addRecord_holds (junk : Nat → Cell) (id : Nat) (h : dir.Holds es) (hfits : name.length < nameSizeof) :
    ∃ dir', addRecord junk dir id name = some dir' ∧ dir'.Holds (es ++ [⟨chars name, id⟩]) := by
  obtain ⟨dir₁, hadd, hcount, hroom, hold⟩ : ∃ dir', dir.addEntry junk = some (dir', es.length) ∧ _ :=
    VFS.RawDirectory.addEntry_ok h
  have hlength : (chars name).length = name.length := List.length_map _
  have hsize : (es.length + 1) * entrySizeof ≤ dir₁.size := Nat.mul_le_mul_right _ hroom
  have hlt : es.length * entrySizeof + name.length < dir₁.size := by
    simp only [entrySizeof, nameSizeof] at *
    omega
  obtain ⟨b₂, hread, hchars, hends, hkeep⟩ := readName_ok
    (b := paste dir₁.entries (es.length * entrySizeof + nodeIDOffset) 8 (Cell.part id)) hlt
  refine ⟨{ dir₁ with entries := b₂ }, ?_, ?_, ?_, fun k hk => ?_⟩
  · rw [addRecord, hadd, Option.bind_eq_bind, Option.bind_some]
    dsimp only
    rw [VFS.RawDirectory.writeID, if_pos (by simp only [entrySizeof, nodeIDOffset] at *; omega),
      Option.bind_eq_bind, Option.bind_some, hread, Option.bind_some]
  · simp [hcount]
  · rw [List.length_append]
    exact hroom
  · rw [List.length_append, List.length_singleton] at hk
    obtain hlt | heq := Nat.lt_or_eq_of_le (Nat.le_of_lt_succ hk)
    · rw [List.getElem_append_left hlt]
      refine (hold k hlt).keep fun i hlo hhi => ?_
      have hle : (k + 1) * entrySizeof ≤ es.length * entrySizeof := Nat.mul_le_mul_right _ hlt
      exact (hkeep i (Or.inl (by omega))).trans (paste_of_lt (by omega))
    · subst heq
      rw [List.getElem_concat_length rfl]
      refine ⟨hlength.trans_lt hfits, hchars, hends, fun i hi => ?_⟩
      exact (hkeep _ (Or.inr (by simp only [nodeIDOffset, nameSizeof] at *; omega))).trans (paste_of_mem hi)

/-- A record becomes one entry. -/
theorem addRecord_count (h : addRecord junk dir id name = some dir') : dir'.numEntries = dir.numEntries + 1 := by
  obtain ⟨⟨dir₁, k⟩, hadd, h⟩ := Option.bind_eq_some_iff.1 h
  obtain ⟨b₁, -, h⟩ := Option.bind_eq_some_iff.1 h
  obtain ⟨b₂, -, h⟩ := Option.bind_eq_some_iff.1 h
  obtain rfl := Option.some.inj h
  unfold RawDirectory.addEntry at hadd
  split_ifs at hadd with hroom
  · obtain ⟨rfl, -⟩ := Prod.mk.inj (Option.some.inj hadd)
    rfl
  · obtain ⟨b₃, -, hadd⟩ := Option.bind_eq_some_iff.1 hadd
    obtain ⟨rfl, -⟩ := Prod.mk.inj (Option.some.inj hadd)
    rfl

/-! ## The loop -/

/-- Where the loop looks for the byte `p` of a directory. -/
def foundPlace (d : Ext2Driver) (inode : INode) (p : Nat) : Nat :=
  inode.directPointers (p / d.blockSize) * d.blockSize + p % d.blockSize

theorem readEntries_succ (h : p < inode.size) : readEntries d junk inode (fuel + 1) p dir reads =
    (addRecord junk dir (u32 d.image (d.foundPlace inode p))
      (d.getData (d.foundPlace inode p + 8) (d.image (d.foundPlace inode p + 6)).toNat)).bind fun dir =>
        readEntries d junk inode fuel (p + u16 d.image (d.foundPlace inode p + 4)) dir
          (reads ++ [d.foundPlace inode p]) := by
  rw [readEntries, if_pos h, Option.bind_eq_bind]
  rfl

theorem readEntries_end (h : ¬ p < inode.size) :
    readEntries d junk inode (fuel + 1) p dir reads = some (dir, reads) := by
  rw [readEntries, if_neg h]

/-- **The loop adds an entry for each record that it reads.** -/
theorem readEntries_reads (h : readEntries d junk inode fuel p dir reads = some (dir', reads')) :
    ∃ more, reads' = reads ++ more ∧ dir'.numEntries = dir.numEntries + more.length := by
  induction fuel generalizing p dir reads with
  | zero => exact absurd h (by simp [readEntries])
  | succ fuel ih =>
    by_cases hp : p < inode.size
    · rw [readEntries_succ hp] at h
      obtain ⟨dir₁, hadd, h⟩ := Option.bind_eq_some_iff.1 h
      obtain ⟨more, rfl, hcount⟩ := ih h
      refine ⟨d.foundPlace inode p :: more, by simp, ?_⟩
      rw [hcount, addRecord_count hadd, List.length_cons, Nat.add_assoc, Nat.add_comm 1]
    · rw [readEntries_end hp] at h
      obtain ⟨rfl, rfl⟩ := Prod.mk.inj (Option.some.inj h)
      exact ⟨[], by simp, rfl⟩

/-- **One record at its place** on the device. -/
theorem record_place (hb : 0 < d.blockSize) (hmapped : ∀ b, b * d.blockSize < inode.size → inode.block d b ≠ 0)
    (hp : p < inode.size) (hname : 8 + (recordName (inode.byte d) p).length ≤ recordSize (inode.byte d) p)
    (hblock : p % d.blockSize + recordSize (inode.byte d) p ≤ d.blockSize) :
    u32 d.image (place d inode p) = u32 (inode.byte d) p ∧
      u16 d.image (place d inode p + 4) = recordSize (inode.byte d) p ∧
      d.getData (place d inode p + 8) (d.image (place d inode p + 6)).toNat =
        recordName (inode.byte d) p := by
  have hne : inode.block d (p / d.blockSize) ≠ 0 :=
    hmapped _ (Nat.lt_of_le_of_lt (Nat.div_mul_le_self p d.blockSize) hp)
  have hbyte : ∀ k, k < recordSize (inode.byte d) p → d.image (place d inode p + k) = inode.byte d (p + k) := by
    intro k hk
    have hsmall : p % d.blockSize + k < d.blockSize := by omega
    have hsplit : p + k = p % d.blockSize + k + p / d.blockSize * d.blockSize := by
      have := Nat.mod_add_div' p d.blockSize
      omega
    have hdiv : (p + k) / d.blockSize = p / d.blockSize := by
      rw [hsplit, Nat.add_mul_div_right _ _ hb, Nat.div_eq_of_lt hsmall, Nat.zero_add]
    have hmod : (p + k) % d.blockSize = p % d.blockSize + k := by
      rw [hsplit, Nat.add_mul_mod_self_right, Nat.mod_eq_of_lt hsmall]
    rw [INode.byte, hdiv, hmod]
    simp only [if_neg hne, place, Nat.add_assoc]
  refine ⟨u32_congr fun j hj => hbyte j (by omega), ?_, ?_⟩
  · have h4 := hbyte 4 (by omega)
    have h5 := hbyte 5 (by omega)
    rw [recordSize, u16, u16, h4, Nat.add_assoc, h5]
  · have hlength : (recordName (inode.byte d) p).length = (inode.byte d (p + 6)).toNat := by
      rw [recordName, List.length_map, List.length_range]
    rw [hbyte 6 (by omega), getData, recordName]
    refine List.map_congr_left fun i hi => ?_
    have hlt := List.mem_range.1 hi
    rw [Nat.add_assoc, hbyte (8 + i) (by omega), Nat.add_assoc]

/-- In the first 12 blocks, the loop looks where the records are. -/
theorem foundPlace_eq (hdirect : p / d.blockSize < 12) : d.foundPlace inode p = place d inode p := by
  have hblock : inode.block d (p / d.blockSize) = inode.directPointers (p / d.blockSize) := by
    simp only [INode.block, if_pos hdirect]
  rw [foundPlace, place, hblock]

/-- **Few blocks and short names**: all records become entries. -/
theorem readEntries_ok (junk : Nat → Cell) (reads : List Nat) (hb : 0 < d.blockSize)
    (hmapped : ∀ b, b * d.blockSize < inode.size → inode.block d b ≠ 0)
    (hrec : Records (inode.byte d) d.blockSize inode.size p ps) (hsize : inode.size ≤ 12 * d.blockSize)
    (hfits : ∀ p ∈ ps, (recordName (inode.byte d) p).length < nameSizeof) (hdir : dir.Holds es) :
    ∃ dir', (∀ fuel > ps.length, readEntries d junk inode fuel p dir reads =
      some (dir', reads ++ ps.map (place d inode))) ∧
      dir'.Holds (es ++ ps.map (entryOf (inode.byte d))) := by
  induction hrec generalizing dir es reads with
  | done =>
    refine ⟨dir, fun fuel hfuel => ?_, by simpa using hdir⟩
    obtain ⟨fuel, rfl⟩ := Nat.exists_eq_add_of_lt hfuel
    rw [readEntries_end (Nat.lt_irrefl _)]
    simp
  | @record p ps hp hname hblock _ ih =>
    obtain ⟨hid, hlen, hread⟩ := record_place hb hmapped hp hname hblock
    have hdirect : p / d.blockSize < 12 := Nat.div_lt_of_lt_mul (by omega)
    obtain ⟨dir₁, hadd, hdir₁⟩ := addRecord_holds junk (u32 (inode.byte d) p) hdir
      (hfits p List.mem_cons_self)
    obtain ⟨dir', hrun, hdir'⟩ := ih (reads ++ [place d inode p])
      (fun q hq => hfits q (List.mem_cons_of_mem _ hq)) hdir₁
    refine ⟨dir', fun fuel hfuel => ?_, by simpa [entryOf] using hdir'⟩
    rw [List.length_cons] at hfuel
    obtain ⟨fuel, rfl⟩ : ∃ f, fuel = f + 1 := ⟨fuel - 1, by omega⟩
    rw [readEntries_succ hp, foundPlace_eq hdirect, hid, hlen, hread, hadd, Option.bind_some,
      hrun fuel (by omega)]
    simp

/-- **Behind the direct pointers** no record is read where it is. -/
theorem readEntries_direct (hb : 0 < d.blockSize)
    (hmapped : ∀ b, b * d.blockSize < inode.size → inode.block d b ≠ 0)
    (htable : ∀ b, b * d.blockSize < inode.size → inode.block d b ≠ inode.indirectPointer)
    (hrec : Records (inode.byte d) d.blockSize inode.size p ps) (hp : p ≤ 12 * d.blockSize)
    (hrun : readEntries d junk inode fuel p dir reads = some (dir', reads ++ ps.map (place d inode))) :
    inode.size ≤ 12 * d.blockSize := by
  induction hrec generalizing fuel dir reads with
  | done => exact hp
  | @record p ps hlt hname hblock _ ih =>
    cases fuel with
    | zero => exact absurd hrun (by simp [readEntries])
    | succ fuel =>
      rw [readEntries_succ hlt] at hrun
      obtain ⟨dir₁, -, hrun⟩ := Option.bind_eq_some_iff.1 hrun
      obtain ⟨more, hmore, -⟩ := readEntries_reads hrun
      rw [List.map_cons, List.append_assoc, List.singleton_append, List.append_cancel_left_eq] at hmore
      obtain ⟨hplace, -⟩ := List.cons.inj hmore
      by_cases hlast : p = 12 * d.blockSize
      · have hdiv : p / d.blockSize = 12 := by rw [hlast, Nat.mul_div_cancel _ hb]
        have hsame : inode.block d 12 = inode.indirectPointer := by
          rw [foundPlace, place, hdiv, Nat.add_right_cancel_iff] at hplace
          exact Nat.eq_of_mul_eq_mul_right hb hplace
        exact absurd hsame (htable 12 (hlast ▸ hlt))
      · have hdirect : p / d.blockSize < 12 := Nat.div_lt_of_lt_mul (by rw [Nat.mul_comm]; omega)
        obtain ⟨-, hlen, -⟩ := record_place hb hmapped hlt hname hblock
        rw [foundPlace_eq hdirect, hlen] at hrun
        have hrest : readEntries d junk inode fuel (p + recordSize (inode.byte d) p) dir₁
            (reads ++ [place d inode p]) = some (dir', reads ++ [place d inode p] ++ ps.map (place d inode)) := by
          simpa using hrun
        refine ih ?_ hrest
        -- The record ends in its block.
        have hsplit := Nat.mod_add_div' p d.blockSize
        have hle : (p / d.blockSize + 1) * d.blockSize ≤ 12 * d.blockSize := Nat.mul_le_mul_right _ hdirect
        rw [Nat.succ_mul] at hle
        omega

end Ext2Driver

/-! ## `ReadNode` -/

/-- **What is asked of `ReadNode`**: it reads the records of the directory, and the directory that it makes
holds the live ones. -/
structure ReadsDirectory (d : Ext2Driver) (inode : INode) (ps : List Nat) (node : Node) (reads : List Nat) :
    Prop where
  records : reads = ps.map (place d inode)
  entries : ∃ dir, node.cachedDir = some dir ∧ dir.Holds (liveEntries (inode.byte d) ps)

/-- **When it does that.** -/
structure Listable (d : Ext2Driver) (inode : INode) (ps : List Nat) : Prop where
  blocks : inode.size ≤ 12 * d.blockSize
  live : ∀ p ∈ ps, u32 (inode.byte d) p ≠ 0
  names : ∀ p ∈ ps, (recordName (inode.byte d) p).length < nameSizeof

/-- Without deleted records, each record stands for an entry. -/
theorem liveEntries_eq (h : ∀ p ∈ ps, u32 content p ≠ 0) : liveEntries content ps = ps.map (entryOf content) := by
  rw [liveEntries, List.filter_eq_self.2 (by simpa using h)]

/-- `ReadNode` of a directory sets `cachedDir` to what the loop makes. -/
theorem readNode_directory (fuel : Nat) (junk : Nat → Cell) (node : Node) (htype : nodeType (d.readINode past id).typePermissions = some .directory) :
    d.readNode fuel past junk id node =
      (d.readEntries junk (d.readINode past id) fuel 0 (RawDirectory.create junk 10) []).map
        fun r => (node.fill id .directory (d.readINode past id) (some r.1), r.2) := by
  rw [Ext2Driver.readNode]
  simp only [htype, Option.getD_some, if_true]
  cases d.readEntries junk (d.readINode past id) fuel 0 (RawDirectory.create junk 10) [] with
  | none => rfl
  | some r => rfl

/-- An image with the inode 2, a directory whose second record has the given number. -/
def rootImage (second : UInt8) : Nat → UInt8 :=
  bytesAt [(1048, 1), (1064, 8), (1080, 0x53), (1081, 0xEF), (1100, 1), (1112, 128), (2056, 2), (4225, 0x40),
    (4229, 8), (4264, 3), (6144, 2), (6148, 12), (6150, 1), (6152, 46), (6156, second), (6160, 0xF4), (6161, 7),
    (6162, 2), (6164, 46), (6165, 46)]

theorem rootImage_wellFormed {second : UInt8} (h : second = 0 ∨ second = 2) :
    WellFormed (rootImage second) := by
  obtain rfl | rfl := h <;> constructor <;> decide

/-- The inode 2 of the image. -/
def rootINode (second : UInt8) : INode := (Ext2Driver.create (rootImage second)).readINode (fun _ => 0) 2

theorem rootImage_directory {second : UInt8} (h : second = 0 ∨ second = 2) :
    WellFormedDirectory (Ext2Driver.create (rootImage second)) (rootINode second) [0, 12] := by
  have hsize : (rootINode second).size = 2048 ∧ (Ext2Driver.create (rootImage second)).blockSize = 2048 := by
    obtain rfl | rfl := h <;> decide
  have hblock : ∀ b, b * 2048 < 2048 → b = 0 := by omega
  refine ⟨?_, ?_, fun b hb => ?_, fun b hb => ?_⟩
  · obtain rfl | rfl := h <;> decide
  · have hfirst : 0 + recordSize ((rootINode second).byte (Ext2Driver.create (rootImage second))) 0 = 12 := by
      obtain rfl | rfl := h <;> decide +kernel
    have hsecond : 12 + recordSize ((rootINode second).byte (Ext2Driver.create (rootImage second))) 12 = 2048 := by
      obtain rfl | rfl := h <;> decide +kernel
    rw [hsize.1, hsize.2]
    have hrest : Records ((rootINode second).byte (Ext2Driver.create (rootImage second))) 2048 2048 12 [12] := by
      refine .record (by decide) ?_ ?_ (hsecond.symm ▸ .done)
      all_goals obtain rfl | rfl := h <;> decide +kernel
    refine .record (by decide) ?_ ?_ (hfirst.symm ▸ hrest)
    all_goals obtain rfl | rfl := h <;> decide +kernel
  all_goals
    rw [hsize.1, hsize.2] at hb
    obtain rfl := hblock b hb
    obtain rfl | rfl := h <;> decide +kernel

/-- A node before it is read. -/
def emptyNode : Node := ⟨0, .file, none, none, 0, 0, 0, ⟨0, 0, 0, 0⟩, ⟨fun _ => 0⟩⟩

end ChenixOS.Ext2
