import ChenixOS.Fs.PathBufferProof
import ChenixOS.Fs.VFS
import ChenixOS.Klib.Memory

/-!
# Following a link in the path buffer

`AcquirePath` puts the target of a link before the rest of the path, in the buffer that the rest lies in. It and
`PreparePath` copy inside of this buffer: **the main result**, `overlapping_copies`, is that the copies move what
they should, whatever the distance, and that these functions leave what they should.

The lengths are natural numbers: a path and a link have far less than 2^31 characters.
-/

namespace ChenixOS.VFS.PathBuffer

open Buffer

variable {size dst src n pos : Nat} {b : Buf} {linkPath rest path : Str}

/-! ## The copies -/

/-- Inside of the buffer `kmemcpy` and `kmemmove` are those of `klib`. -/
theorem kmemcpy_eq_memory (hdst : dst + n ≤ size) (hsrc : src + n ≤ size) :
    kmemcpy size dst src n b = some (Memory.kmemcpy dst src n b) := by
  rw [kmemcpy, copyBlocks_eq_moveBlocks (by omega) (by omega), Memory.kmemcpy_eq_blocks]
  exact copyBlocks_eq_moveBlocks (by omega) (by omega)

theorem kmemmove_eq_memory (hdst : dst + n ≤ size) (hsrc : src + n ≤ size) :
    kmemmove size dst src n b = some (Memory.kmemmove dst src n b) := by
  unfold kmemmove Memory.kmemmove
  by_cases hsame : dst = src
  · rw [if_pos hsame, if_pos hsame]
  · rw [if_neg hsame, if_neg hsame]
    by_cases hbelow : dst < src
    · rw [if_pos hbelow, if_pos hbelow, kmemcpy_eq_memory hdst hsrc]
    · rw [if_neg hbelow, if_neg hbelow, copyDown_eq_moveDown hdst hsrc]

/-! ## The splice -/

/-- The part of `AcquirePath` that follows a link: `restPath` is where the rest of the path lies. -/
def splice (size : Nat) (linkPath : Str) (restPath : Nat) (b : Buf) : Option (Except Error Buf) := do
  let lA := linkPath.length
  let lB ← kstrlen size b restPath
  let l := lA + lB + 2
  if l > 255 then some (.error .pathTooLong)
  else if lB > 0 then do
    let b ← kmemmove size (lA + 1) restPath (lB + 1) b
    let b ← kmemcpyFrom size 0 linkPath b
    let b ← write size b lA '/'
    some (.ok b)
  else do
    let b ← kmemcpyFrom size 0 (linkPath ++ [nul]) b
    some (.ok b)

theorem splice_tooLong (hrest : Holds nul b pos rest) (hlt : pos + rest.length < size)
    (hlong : linkPath.length + rest.length + 2 > 255) : splice size linkPath pos b = some (.error .pathTooLong) := by
  rw [splice, kstrlen_eq hrest hlt, Option.bind_eq_bind, Option.bind_some, if_pos hlong]

theorem holds_joined (hlink : slice b 0 linkPath.length = linkPath) (hslash : b linkPath.length = '/')
    (hrest : Holds nul b (linkPath.length + 1) rest) (hclean : nul ∉ linkPath) :
    Holds nul b 0 (linkPath ++ '/' :: rest) := by
  obtain ⟨hslice, hend, hrestClean⟩ := holds_iff_slice.1 hrest
  have hlength : (linkPath ++ '/' :: rest).length = linkPath.length + 1 + rest.length := by
    rw [List.length_append, List.length_cons, Nat.add_assoc, Nat.add_comm 1]
  refine holds_iff_slice.2 ⟨?_, ?_, nul_not_mem_absolute hrestClean hclean⟩
  · rw [hlength, slice_add, slice_succ, hlink, Nat.zero_add, Nat.zero_add, hslash, hslice]
    simp
  · rw [hlength, Nat.zero_add, hend]

/-- **The link and the rest behind it** are left in the buffer. -/
theorem splice_eq (hrest : Holds nul b pos rest) (hlt : pos + rest.length < size) (hlink : nul ∉ linkPath)
    (hshort : linkPath.length + rest.length + 2 ≤ 255) (hsize : 255 ≤ size) :
    ∃ b', splice size linkPath pos b = some (.ok b') ∧ Holds nul b' 0 (VFS.splice linkPath rest) := by
  rw [splice, kstrlen_eq hrest hlt, Option.bind_eq_bind, Option.bind_some, if_neg (by omega), VFS.splice]
  by_cases hempty : rest.length > 0
  · rw [if_pos hempty, if_pos hempty, kmemmove_eq_memory (by omega) (by omega), Memory.kmemmove_eq]
    have hmoved : Holds nul (paste b (linkPath.length + 1) (rest.length + 1) fun i => b (pos + i))
        (linkPath.length + 1) rest := hrest.pasted
    generalize (paste b (linkPath.length + 1) (rest.length + 1) fun i => b (pos + i)) = b₁ at hmoved ⊢
    obtain ⟨b₂, hb₂, hslice, hkeep⟩ := @kmemcpyFrom_eq size 0 b₁ linkPath (by omega)
    refine ⟨Function.update b₂ linkPath.length '/', ?_, holds_joined ?_ (Function.update_self ..) ?_ hlink⟩
    · simp only [Option.bind_eq_bind, Option.bind_some]
      rw [hb₂, Option.bind_some, write_of_lt _ (by omega), Option.bind_some]
    · rw [slice_congr fun i hi => Function.update_of_ne (by omega) _ _, hslice]
    · exact hmoved.congr fun i _ => by rw [Function.update_of_ne (by omega), hkeep _ (by omega)]
  · have hnil : rest = [] := List.length_eq_zero_iff.1 (by omega)
    obtain ⟨b₁, hb₁, hslice, -⟩ :=
      @kmemcpyFrom_eq size 0 b (linkPath ++ [nul]) (by simp only [List.length_append, List.length_singleton]; omega)
    rw [if_neg hempty, if_neg hempty, hb₁]
    refine ⟨b₁, rfl, holds_iff_slice.2 ?_⟩
    rw [List.length_append, List.length_singleton, slice_succ, Nat.zero_add] at hslice
    obtain ⟨hchars, hend⟩ := List.append_inj' hslice rfl
    rw [Nat.zero_add]
    exact ⟨hchars, List.singleton_inj.1 hend, hlink⟩

/-! ## All of it -/

/-- **Overlapping copies.** `kmemmove` moves what was at the source in any case, `kmemcpy` where the destination is
not above the source or apart from it; what relies on them leaves the path without the slashes before it, the
normalised path, and the link with the rest of the path behind it. -/
theorem overlapping_copies :
    (∀ (m : Nat → UInt8) (dest src size : Nat),
      Memory.kmemmove dest src size m = paste m dest size fun i => m (src + i)) ∧
    (∀ (m : Nat → UInt8) (dest src size : Nat), dest ≤ src ∨ src + size ≤ dest →
      Memory.kmemcpy dest src size m = paste m dest size fun i => m (src + i)) ∧
    (∀ (size : Nat) (b : Buf) (path : Str), Holds nul b 0 path → numSlashes path + path.length + 1 ≤ size →
      ∃ b', prepareAbsolutePath size b = some b' ∧ Holds nul b' 0 (VFS.prepareAbsolutePath path)) ∧
    (∀ (size : Nat) (b : Buf) (path : Str), Holds nul b 0 path → path.length < size → path.count '/' < 128 →
      ∃ b', normalizePath size b = some b' ∧ Holds nul b' 0 (VFS.normalizePath path)) ∧
    ∀ (size : Nat) (b : Buf) (linkPath rest : Str) (restPath : Nat), 255 ≤ size → nul ∉ linkPath →
      Holds nul b restPath rest → restPath + rest.length < size →
      if linkPath.length + rest.length + 2 > 255 then splice size linkPath restPath b = some (.error .pathTooLong)
      else ∃ b', splice size linkPath restPath b = some (.ok b') ∧ Holds nul b' 0 (VFS.splice linkPath rest) := by
  refine ⟨fun m dest src size => Memory.kmemmove_eq, fun m dest src size h => Memory.kmemcpy_eq h, ?_, ?_, ?_⟩
  · intro size b path hpath hsize
    exact prepareAbsolutePath_eq hpath (by omega) hsize
  · intro size b path hpath hlt hslots
    exact normalizePath_eq hpath hlt hslots
  · intro size b linkPath rest restPath hsize hlink hrest hlt
    split_ifs with hlong
    · exact splice_tooLong hrest hlt hlong
    · exact splice_eq hrest hlt hlink (by omega) hsize

theorem overlapping_copies_close :
    Memory.kmemmove 1 0 9 (fun i => UInt8.ofNat i) 9 = 8 ∧ Memory.kmemcpy 0 1 9 (fun i => UInt8.ofNat i) 8 = 9 ∧
      ∃ b', splice 255 ['a'] 2 (Function.update (fun _ => nul) 2 'b') = some (.ok b') ∧
        Holds nul b' 0 ['a', '/', 'b'] := by
  obtain ⟨hmove, hcopy, -, -, hsplice⟩ := overlapping_copies
  have hrest : Holds nul (Function.update (fun _ => nul) 2 'b') 2 ['b'] := Holds.singleton rfl rfl (by decide)
  refine ⟨by rw [hmove]; rfl, by rw [hcopy _ _ _ _ (by decide)]; rfl, ?_⟩
  exact hsplice 255 _ ['a'] ['b'] 2 (Nat.le_refl _) (by decide) hrest (by decide)

end ChenixOS.VFS.PathBuffer
