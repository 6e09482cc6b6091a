import ChenixOS.Lib.Buffer
import ChenixOS.Fs.State

/-!
# Directories in memory

`fs/Directory.cpp` on the bytes behind `Directory::entries`. An entry takes 64 bytes: 50 for the name, 6
that are not used, and 8 for `nodeID`. `AddEntry` makes room for one entry, growing by 16 at a time, and the
caller writes the id and copies the name with `kstrcpy`, which does not know where the name ends.

**Theorem (`add_holds_iff`).** A directory that holds a list of entries holds the longer list afterwards, and
nothing outside of its capacity is written, exactly if the new name has less than 50 characters.
-/

namespace ChenixOS.VFS

open Buffer

/-! ## Layout -/

/-- A byte: a character, or one of the bytes of a number. -/
inductive Cell
  | char (c : Char)
  | part (value i : Nat)
  deriving DecidableEq

/-- `sizeof(DirectoryEntry)` -/
abbrev entrySizeof : Nat := 64

/-- `offsetof(DirectoryEntry, nodeID)` -/
abbrev nodeIDOffset : Nat := 56

/-- `Directory`, with the bytes of `entries`. -/
structure RawDirectory where
  numEntries : Nat
  capacity : Nat
  entries : Nat → Cell

namespace RawDirectory

/-! ## The code -/

def size (dir : RawDirectory) : Nat := dir.capacity * entrySizeof

/-- `Directory::Create`; `junk` is what the new memory contains. -/
def create (junk : Nat → Cell) (capacity : Nat) : RawDirectory := ⟨0, capacity, junk⟩

/-- `dst[i] = src[j]`: the two members are copied. -/
def assign (size : Nat) (dst : Nat → Cell) (i : Nat) (src : Nat → Cell) (j : Nat) : Option (Nat → Cell) :=
  if (i + 1) * entrySizeof ≤ size then
    let dst := paste dst (i * entrySizeof) nameSizeof fun k => src (j * entrySizeof + k)
    some (paste dst (i * entrySizeof + nodeIDOffset) 8 fun k => src (j * entrySizeof + nodeIDOffset + k))
  else none

/-- The loop of `AddEntry`, with `n` entries to copy, from `i` on. -/
def copyEntries (size : Nat) (src : Nat → Cell) : Nat → Nat → (Nat → Cell) → Option (Nat → Cell)
  | 0, _, b => some b
  | n + 1, i, b => do
    let b ← assign size b i src i
    copyEntries size src n (i + 1) b

/-- `Directory::AddEntry`: the directory and the index of the new entry. -/
def addEntry (junk : Nat → Cell) (dir : RawDirectory) : Option (RawDirectory × Nat) :=
  if dir.capacity > dir.numEntries then some ({ dir with numEntries := dir.numEntries + 1 }, dir.numEntries)
  else do
    let newDir := create junk (dir.capacity + 16)
    let entries ← copyEntries newDir.size dir.entries dir.numEntries 0 newDir.entries
    some ({ newDir with numEntries := dir.numEntries + 1, entries }, dir.numEntries)

/-- The loop of `RemoveEntry`, with `n` entries to move, from `i` on. -/
def moveEntries (size : Nat) : Nat → Nat → (Nat → Cell) → Option (Nat → Cell)
  | 0, _, b => some b
  | n + 1, i, b => do
    let b ← assign size b (i - 1) b i
    moveEntries size n (i + 1) b

def removeEntry (dir : RawDirectory) (index : Nat) : Option RawDirectory := do
  let entries ← moveEntries dir.size (dir.numEntries - (index + 1)) (index + 1) dir.entries
  some { dir with numEntries := dir.numEntries - 1, entries }

/-- `newEntry->nodeID = id` -/
def writeID (size : Nat) (b : Nat → Cell) (pos id : Nat) : Option (Nat → Cell) :=
  if pos + 8 ≤ size then some (paste b pos 8 (Cell.part id)) else none

def kstrcpy (size : Nat) (pos : Nat) : Str → (Nat → Cell) → Option (Nat → Cell)
  | [], b => write size b pos (.char (Char.ofNat 0))
  | c :: name, b => do
    let b ← write size b pos (.char c)
    kstrcpy size (pos + 1) name b

/-- What the functions of `VFS.cpp` do to add an entry. -/
def add (junk : Nat → Cell) (dir : RawDirectory) (name : Str) (id : Nat) : Option RawDirectory := do
  let (dir, k) ← dir.addEntry junk
  let entries ← writeID dir.size dir.entries (k * entrySizeof + nodeIDOffset) id
  let entries ← kstrcpy dir.size (k * entrySizeof) name entries
  some { dir with entries }

/-! ## What the loops do -/

variable {dir dir' : RawDirectory} {es : List DirectoryEntry} {e : DirectoryEntry} {junk b b' src : Nat → Cell}
  {size i j k n pos id index : Nat} {name : Str}

/-- The members of entry `i` of `b` are those of entry `j` of `src`. -/
def Copies (b : Nat → Cell) (i : Nat) (src : Nat → Cell) (j : Nat) : Prop :=
  ∀ k, k < nameSizeof ∨ nodeIDOffset ≤ k ∧ k < entrySizeof → b (i * entrySizeof + k) = src (j * entrySizeof + k)

theorem assign_ok (h : (i + 1) * entrySizeof ≤ size) : ∃ b', assign size b i src j = some b' ∧ Copies b' i src j ∧
    ∀ k, k < i * entrySizeof ∨ (i + 1) * entrySizeof ≤ k → b' k = b k := by
  refine ⟨_, if_pos h, fun k hk => ?_, fun k hk => ?_⟩
  all_goals simp only [entrySizeof, nodeIDOffset, nameSizeof] at *
  · rcases hk with hk | ⟨hlo, hhi⟩
    · rw [paste_of_lt (by omega), paste_of_mem hk]
    · obtain ⟨k, rfl⟩ := Nat.exists_eq_add_of_le hlo
      rw [← Nat.add_assoc, paste_of_mem (by omega), ← Nat.add_assoc]
  · rcases hk with hk | hk
    · rw [paste_of_lt (by omega), paste_of_lt hk]
    · rw [paste_of_ge (by omega), paste_of_ge (by omega)]

theorem copyEntries_ok (h : (i + n) * entrySizeof ≤ size) : ∃ b', copyEntries size src n i b = some b' ∧
    (∀ k, i ≤ k → k < i + n → Copies b' k src k) ∧ ∀ k, k < i * entrySizeof → b' k = b k := by
  induction n generalizing i b with
  | zero => exact ⟨b, rfl, fun k h₁ h₂ => by omega, fun _ _ => rfl⟩
  | succ n ih =>
    obtain ⟨b₁, hassign, hcopies, hkeep⟩ := assign_ok (b := b) (j := i)
      (show (i + 1) * entrySizeof ≤ size from Nat.le_trans (Nat.mul_le_mul_right _ (by omega)) h)
    obtain ⟨b₂, hrest, hcopies₂, hkeep₂⟩ := ih (i := i + 1) (b := b₁) (by rwa [Nat.add_right_comm])
    refine ⟨b₂, by rw [copyEntries, hassign]; exact hrest, fun k h₁ h₂ => ?_, fun k hk => ?_⟩
    · obtain rfl | hlt := Nat.eq_or_lt_of_le h₁
      · intro t ht
        rw [hkeep₂ _ ?_, hcopies t ht]
        simp only [entrySizeof, nodeIDOffset, nameSizeof] at ht ⊢
        omega
      · exact hcopies₂ k hlt (by omega)
    · rw [hkeep₂ k (Nat.lt_of_lt_of_le hk (Nat.mul_le_mul_right _ (Nat.le_succ i))), hkeep k (Or.inl hk)]

theorem moveEntries_ok (h : (i + n) * entrySizeof ≤ size) : ∃ b', moveEntries size n (i + 1) b = some b' ∧
    (∀ k, i ≤ k → k < i + n → Copies b' k b (k + 1)) ∧ ∀ k, k < i * entrySizeof → b' k = b k := by
  induction n generalizing i b with
  | zero => exact ⟨b, rfl, fun k h₁ h₂ => by omega, fun _ _ => rfl⟩
  | succ n ih =>
    obtain ⟨b₁, hassign, hcopies, hkeep⟩ := assign_ok (b := b) (j := i + 1)
      (show (i + 1) * entrySizeof ≤ size from Nat.le_trans (Nat.mul_le_mul_right _ (by omega)) h)
    obtain ⟨b₂, hrest, hcopies₂, hkeep₂⟩ := ih (i := i + 1) (b := b₁) (by rwa [Nat.add_right_comm])
    refine ⟨b₂, by rw [moveEntries, Nat.add_sub_cancel, hassign]; exact hrest, fun k h₁ h₂ => ?_, fun k hk => ?_⟩
    · obtain rfl | hlt := Nat.eq_or_lt_of_le h₁
      · intro t ht
        rw [hkeep₂ _ ?_, hcopies t ht]
        simp only [entrySizeof, nodeIDOffset, nameSizeof] at ht ⊢
        omega
      · intro t ht
        rw [hcopies₂ k hlt (by omega) t ht, hkeep _ (Or.inr ?_)]
        exact Nat.le_trans (Nat.mul_le_mul_right _ (by omega)) (Nat.le_add_right _ t)
    · rw [hkeep₂ k (Nat.lt_of_lt_of_le hk (Nat.mul_le_mul_right _ (Nat.le_succ i))), hkeep k (Or.inl hk)]

/-- `kstrcpy` writes the name and its end. -/
theorem kstrcpy_ok (h : pos + name.length < size) : ∃ b', kstrcpy size pos name b = some b' ∧
    (∀ k (hk : k < name.length), b' (pos + k) = .char name[k]) ∧ b' (pos + name.length) = .char (Char.ofNat 0) ∧
    ∀ k, k < pos ∨ pos + name.length < k → b' k = b k := by
  induction name generalizing pos b with
  | nil =>
    refine ⟨_, write_of_lt _ h, fun k hk => (by cases hk), Function.update_self _ _ _, fun k hk => ?_⟩
    exact Function.update_of_ne (by simp at hk; omega) _ _
  | cons c name ih =>
    rw [List.length_cons] at h
    obtain ⟨b₁, hrest, hchars, hend, hkeep⟩ :=
      ih (b := Function.update b pos (.char c)) (show pos + 1 + name.length < size by omega)
    refine ⟨b₁, ?_, fun k hk => ?_, ?_, fun k hk => ?_⟩
    · rw [kstrcpy, write_of_lt _ (by omega)]
      exact hrest
    · cases k with
      | zero =>
        rw [hkeep _ (by omega)]
        exact Function.update_self _ _ _
      | succ k =>
        have hpos : pos + (k + 1) = pos + 1 + k := by omega
        rw [hpos, hchars k (by simpa using hk)]
        simp
    · rw [List.length_cons, Nat.add_comm name.length, ← Nat.add_assoc]
      exact hend
    · rw [List.length_cons] at hk
      rw [hkeep k (by omega), Function.update_of_ne (by omega)]

theorem kstrcpy_none (h : size ≤ pos + name.length) : kstrcpy size pos name b = none := by
  induction name generalizing pos b with
  | nil => exact write_of_ge _ h
  | cons c name ih =>
    rw [kstrcpy]
    cases hw : write size b pos (.char c) with
    | none => rfl
    | some b₁ => exact ih (by rw [List.length_cons] at h; omega)

/-! ## The list of entries -/

/-- Entry `k` is `e`: the field for the name holds the name and its end. -/
structure HoldsEntry (b : Nat → Cell) (k : Nat) (e : DirectoryEntry) : Prop where
  fits : e.name.length < nameSizeof
  chars : ∀ i (h : i < e.name.length), b (k * entrySizeof + i) = .char e.name[i]
  ends : b (k * entrySizeof + e.name.length) = .char (Char.ofNat 0)
  nodeID : ∀ i, i < 8 → b (k * entrySizeof + nodeIDOffset + i) = .part e.nodeID i

/-- The directory is the list. -/
structure Holds (dir : RawDirectory) (es : List DirectoryEntry) : Prop where
  count : dir.numEntries = es.length
  room : es.length ≤ dir.capacity
  entry : ∀ k (h : k < es.length), HoldsEntry dir.entries k es[k]

theorem holds_create (junk : Nat → Cell) (n : Nat) : (create junk n).Holds [] :=
  ⟨rfl, Nat.zero_le n, fun k h => by cases h⟩

theorem HoldsEntry.copy (h : HoldsEntry b j e) (hcopies : Copies b' i b j) : HoldsEntry b' i e where
  fits := h.fits
  chars k hk := by rw [hcopies k (Or.inl (Nat.lt_trans hk h.fits)), h.chars k hk]
  ends := by rw [hcopies _ (Or.inl h.fits), h.ends]
  nodeID k hk := by
    rw [Nat.add_assoc, hcopies _ (Or.inr ⟨Nat.le_add_right _ k, by
      simp only [entrySizeof, nodeIDOffset]
      omega⟩), ← Nat.add_assoc, h.nodeID k hk]

/-- An entry stays where nothing was written. -/
theorem HoldsEntry.keep (h : HoldsEntry b k e)
    (hkeep : ∀ i, k * entrySizeof ≤ i → i < (k + 1) * entrySizeof → b' i = b i) : HoldsEntry b' k e := by
  refine h.copy fun i hi => hkeep _ (Nat.le_add_right _ i) ?_
  simp only [entrySizeof, nodeIDOffset, nameSizeof] at hi ⊢
  omega

/-- Room for one more entry. -/
theorem addEntry_ok (h : dir.Holds es) : ∃ dir', dir.addEntry junk = some (dir', es.length) ∧
    dir'.numEntries = es.length + 1 ∧ es.length < dir'.capacity ∧
    ∀ k (hk : k < es.length), HoldsEntry dir'.entries k es[k] := by
  unfold addEntry
  rw [h.count]
  split_ifs with hroom
  · exact ⟨_, rfl, rfl, hroom, h.entry⟩
  · have hroom' := h.room
    have hsize : (0 + es.length) * entrySizeof ≤ (create junk (dir.capacity + 16)).size := by
      rw [Nat.zero_add]
      exact Nat.mul_le_mul_right _ (by show es.length ≤ dir.capacity + 16; omega)
    obtain ⟨b', hcopy, hcopies, -⟩ := copyEntries_ok (b := junk) hsize
    refine ⟨⟨es.length + 1, dir.capacity + 16, b'⟩, ?_, rfl, by show es.length < dir.capacity + 16; omega,
      fun k hk => (h.entry k hk).copy (hcopies k (Nat.zero_le k) (by omega))⟩
    show (copyEntries _ dir.entries es.length 0 junk >>= _) = _
    rw [hcopy]
    rfl

/-- A new entry is intact exactly if its name fits, and then the others are. -/
theorem add_holds_iff (h : dir.Holds es) :
    (∃ dir', dir.add junk name id = some dir' ∧ dir'.Holds (es ++ [⟨name, id⟩])) ↔ name.length < nameSizeof := by
  constructor
  · rintro ⟨dir', -, hdir'⟩
    have hlast : es.length < (es ++ [(⟨name, id⟩ : DirectoryEntry)]).length := by simp
    have hentry := hdir'.entry es.length hlast
    rw [List.getElem_concat_length rfl] at hentry
    exact hentry.fits
  · intro hfits
    obtain ⟨dir₁, hadd, hcount, hroom, hold⟩ := addEntry_ok h
    have hsize : (es.length + 1) * entrySizeof ≤ dir₁.size := Nat.mul_le_mul_right _ hroom
    have hlt : es.length * entrySizeof + name.length < dir₁.size := by
      simp only [entrySizeof, nameSizeof] at *
      omega
    obtain ⟨b₂, hcpy, hchars, hends, hkeep⟩ :=
      kstrcpy_ok (b := paste dir₁.entries (es.length * entrySizeof + nodeIDOffset) 8 (Cell.part id)) hlt
    refine ⟨⟨es.length + 1, dir₁.capacity, b₂⟩, ?_, ?_, ?_, fun k hk => ?_⟩
    · unfold add
      rw [hadd]
      show (writeID dir₁.size _ _ id >>= _) = _
      rw [writeID, if_pos (by simp only [entrySizeof, nodeIDOffset] at *; omega)]
      show (kstrcpy dir₁.size _ name _ >>= _) = _
      rw [hcpy, ← hcount]
      rfl
    · simp
    · rw [List.length_append]
      exact hroom
    · rw [List.length_append, List.length_singleton] at hk
      obtain hlt | heq := Nat.lt_or_eq_of_le (Nat.le_of_lt_succ hk)
      · rw [List.getElem_append_left hlt]
        refine (hold k hlt).keep fun i hlo hhi => ?_
        have hle : (k + 1) * entrySizeof ≤ es.length * entrySizeof := Nat.mul_le_mul_right _ hlt
        show b₂ i = _
        rw [hkeep i (Or.inl (by omega)), paste_of_lt (by omega)]
      · subst heq
        rw [List.getElem_concat_length rfl]
        refine ⟨hfits, hchars, hends, fun i hi => ?_⟩
        show b₂ _ = _
        rw [hkeep _ (Or.inr (by simp only [nodeIDOffset, nameSizeof] at *; omega)), paste_of_mem hi]

/-- In the last free place, a name of 64 characters is written beyond the allocated memory. -/
theorem add_none (h : dir.Holds es) (hroom : es.length + 1 = dir.capacity) (hlong : entrySizeof ≤ name.length) :
    dir.add junk name id = none := by
  have hadd : dir.addEntry junk = some ({ dir with numEntries := es.length + 1 }, es.length) := by
    unfold addEntry
    rw [h.count, if_pos (by omega)]
  have hsize : dir.size = es.length * entrySizeof + entrySizeof := by
    unfold size
    rw [← hroom, Nat.succ_mul]
  unfold add
  rw [hadd]
  show (writeID dir.size _ _ id >>= _) = none
  rw [writeID, if_pos (by rw [hsize]; simp only [entrySizeof, nodeIDOffset]; omega)]
  show (kstrcpy dir.size _ name _ >>= _) = none
  rw [kstrcpy_none (by rw [hsize]; exact Nat.add_le_add_left hlong _)]
  rfl

/-- Removing moves the entries behind it, and keeps their order. -/
theorem removeEntry_holds (h : dir.Holds es) (hindex : index < es.length) :
    ∃ dir', dir.removeEntry index = some dir' ∧ dir'.Holds (es.eraseIdx index) := by
  have hroom := h.room
  have hsize : (index + (es.length - (index + 1))) * entrySizeof ≤ dir.size :=
    Nat.mul_le_mul_right _ (by omega)
  obtain ⟨b', hmove, hcopies, hkeep⟩ := moveEntries_ok (b := dir.entries) hsize
  have hlength : (es.eraseIdx index).length = es.length - 1 := List.length_eraseIdx_of_lt hindex
  refine ⟨⟨es.length - 1, dir.capacity, b'⟩, ?_, hlength.symm, ?_, fun k hk => ?_⟩
  · unfold removeEntry
    rw [h.count, hmove]
    rfl
  · rw [hlength]
    show es.length - 1 ≤ dir.capacity
    omega
  · rw [hlength] at hk
    by_cases hlt : k < index
    · rw [List.getElem_eraseIdx_of_lt _ hlt]
      refine (h.entry k (by omega)).keep fun i _ hhi => hkeep i ?_
      exact Nat.lt_of_lt_of_le hhi (Nat.mul_le_mul_right _ hlt)
    · rw [List.getElem_eraseIdx_of_ge _ (by omega)]
      exact (h.entry (k + 1) (by omega)).copy (hcopies k (by omega) (by omega))

end RawDirectory

end ChenixOS.VFS
