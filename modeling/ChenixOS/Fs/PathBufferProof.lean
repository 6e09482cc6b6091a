import ChenixOS.Fs.PathBuffer
import ChenixOS.Fs.PathProof

/-!
# The passes over a path buffer

Each pass moves characters to lower places of the buffer, so what it has not read yet is still what it
was. For each of them: from a buffer that holds a string it leaves one that holds the string the function
on strings gives, and it stays inside of the buffer.
-/

namespace ChenixOS.VFS.PathBuffer

open Buffer

variable {size n i pos dst src : Nat} {b b' : Buf} {path cwd s : Str}

/-! ## `klib` -/

theorem kstrlen_eq (h : Holds nul b pos s) (hlt : pos + s.length < size) :
    kstrlen size b pos = some s.length :=
  h.count_length hlt

/-- `kmemcpy` to a lower place moves the characters, also where the two places overlap. -/
theorem kmemcpy_eq (hle : dst ≤ src) (hsize : src + n ≤ size) :
    kmemcpy size dst src n b = some (paste b dst n fun i => b (src + i)) := by
  have hn : n / 8 * 8 + n % 8 * 1 = n := by omega
  rw [kmemcpy, copyBlocks_eq hle (by omega)]
  show copyBlocks size 1 (n % 8) (dst + n / 8 * 8) (src + n / 8 * 8) _ = _
  rw [copyBlocks_eq (by omega) (by omega), source_paste hle, paste_paste, hn]

theorem kmemcpy_none (hle : dst ≤ src) (hn : 0 < n) (hsize : size < src + n) :
    kmemcpy size dst src n b = none := by
  rw [kmemcpy]
  obtain hzero | hpos := Nat.eq_zero_or_pos (n / 8)
  · rw [hzero]
    exact copyBlocks_none (by omega) (by omega) (by omega)
  · by_cases hfirst : src + n / 8 * 8 ≤ size
    · rw [copyBlocks_eq hle hfirst]
      exact copyBlocks_none (by omega) (by omega) (by omega)
    · rw [copyBlocks_none hle hpos (by omega)]
      rfl

theorem kmemcpyFrom_eq (hsize : dst + s.length ≤ size) :
    ∃ b', kmemcpyFrom size dst s b = some b' ∧ slice b' dst s.length = s ∧
      ∀ i, i < dst ∨ dst + s.length ≤ i → b' i = b i := by
  induction s generalizing dst b with
  | nil => exact ⟨b, rfl, rfl, fun _ _ => rfl⟩
  | cons c s ih =>
    rw [List.length_cons] at hsize
    obtain ⟨b', hb', hslice, hkeep⟩ := ih (b := Function.update b dst c) (show dst + 1 + s.length ≤ size by omega)
    refine ⟨b', ?_, ?_, fun i hi => ?_⟩
    · rw [kmemcpyFrom, write_of_lt _ (by omega)]
      exact hb'
    · rw [List.length_cons, Nat.add_comm, slice_add, slice_succ, slice_zero, hslice, Nat.add_zero,
        hkeep dst (by omega), Function.update_self]
      rfl
    · rw [List.length_cons] at hi
      rw [hkeep i (by omega), Function.update_of_ne (by omega)]

/-- Comparing with a literal tells whether the string is that literal. -/
theorem kstrcmpEq_eq {t : Str} (h : Holds nul b pos s) (hlt : pos + s.length < size) (ht : nul ∉ t) :
    kstrcmpEq size b pos t = some (decide (s = t)) := by
  induction t generalizing pos s with
  | nil =>
    rw [kstrcmpEq, read_of_lt (by omega)]
    cases s with
    | nil =>
      have hends : b pos = nul := h.ends
      simp [hends]
    | cons c s =>
      have hne : b pos ≠ nul := h.ne_end (i := 0) (by simp)
      simp [hne]
  | cons a t ih =>
    rw [kstrcmpEq, read_of_lt (by omega)]
    cases s with
    | nil =>
      have hends : b pos = nul := h.ends
      have hne : nul ≠ a := fun e => ht (by simp [e])
      simp [hends, hne]
    | cons c s =>
      have hc : b pos = c := h.chars 0 (by simp)
      have hrest := ih (h.drop (n := 1) (by simp)) (by simp at hlt ⊢; omega) fun hm => ht (by simp [hm])
      by_cases hca : c = a
      · simpa [hc, hca] using hrest
      · simp [hc, hca]

/-! ## Copying the path in -/

/-- At a user address there is this string. -/
structure UserString (src : Nat → Option Char) (path : Str) : Prop where
  chars : ∀ i (h : i < path.length), src i = some path[i]
  ends : src path.length = some nul
  clean : nul ∉ path

theorem kpathcpyLoop_eq {src : Nat → Option Char} {rcx : Nat} (h : UserString src path)
    (hi : i ≤ path.length) (hrcx : path.length < i + rcx) (hsize : path.length < size)
    (hb : ∀ j (hj : j < path.length), j < i → b j = path[j]) :
    ∃ b', kpathcpyLoop size src rcx i b = some (some b') ∧ Holds nul b' 0 path := by
  induction rcx generalizing i b with
  | zero => omega
  | succ rcx ih =>
    obtain rfl | hlt := Nat.eq_or_lt_of_le hi
    · refine ⟨Function.update b path.length nul, ?_, ⟨fun j hj => ?_, ?_, h.clean⟩⟩
      · simp [kpathcpyLoop, h.ends, write_of_lt nul hsize]
      · rw [Nat.zero_add, Function.update_of_ne (by omega), hb j hj hj]
      · rw [Nat.zero_add, Function.update_self]
    · have hne : path[i] ≠ nul := by
        intro e
        exact h.clean (e ▸ List.getElem_mem hlt)
      obtain ⟨b', hb', hholds⟩ := ih (i := i + 1) (b := Function.update b i path[i]) hlt (by omega)
        fun j hj hji => by
          by_cases e : j = i
          · subst e
            rw [Function.update_self]
          · rw [Function.update_of_ne e, hb j hj (by omega)]
      refine ⟨b', ?_, hholds⟩
      simpa [kpathcpyLoop, h.chars i hlt, write_of_lt path[i] (Nat.lt_trans hlt hsize), hne] using hb'

/-- A path of at most 254 characters is accepted. -/
theorem kpathcpyUsersafe_eq {src : Nat → Option Char} (h : UserString src path)
    (hlen : path.length ≤ 254) (hsize : 255 ≤ size) :
    ∃ b', kpathcpyUsersafe size src b = some (some b') ∧ Holds nul b' 0 path :=
  kpathcpyLoop_eq h (Nat.zero_le _) (by omega) (by omega) fun _ _ hj => absurd hj (Nat.not_lt_zero _)

/-- A longer one is not. -/
theorem kpathcpyLoop_accepts {src : Nat → Option Char} {rcx : Nat} (h : UserString src path)
    (hi : i ≤ path.length) (hloop : kpathcpyLoop size src rcx i b = some (some b')) : path.length < i + rcx := by
  induction rcx generalizing i b with
  | zero => cases hloop
  | succ rcx ih =>
    obtain rfl | hlt := Nat.eq_or_lt_of_le hi
    · omega
    · have hne : path[i] ≠ nul := by
        intro e
        exact h.clean (e ▸ List.getElem_mem hlt)
      rw [kpathcpyLoop, h.chars i hlt] at hloop
      obtain ⟨b₁, -, hrest⟩ := Option.bind_eq_some_iff.1 hloop
      rw [if_neg hne] at hrest
      have hlt' := ih hlt hrest
      omega

theorem kpathcpyUsersafe_accepts {src : Nat → Option Char} (h : UserString src path)
    (haccepts : kpathcpyUsersafe size src b = some (some b')) : path.length ≤ 254 := by
  have hlt := kpathcpyLoop_accepts h (Nat.zero_le _) haccepts
  omega

/-- The string, as it lies in user memory with nothing mapped behind it. -/
def userCopy (path : Str) (i : Nat) : Option Char := (path ++ [nul])[i]?

theorem userString_userCopy (h : nul ∉ path) : UserString (userCopy path) path where
  chars i hi := by rw [userCopy, List.getElem?_append_left hi, List.getElem?_eq_getElem hi]
  ends := by simp [userCopy]
  clean := h

/-! ## Making the path absolute -/

theorem nul_not_mem_absolute (hpath : nul ∉ path) (hcwd : nul ∉ cwd) : nul ∉ cwd ++ '/' :: path := by
  intro hm
  rcases List.mem_append.1 hm with hm | hm
  · exact hcwd hm
  · rcases List.mem_cons.1 hm with he | hm
    · exact absurd he (by decide)
    · exact hpath hm

theorem prepareRelativePath_nil (h : Holds nul b 0 path) (hlt : path.length < size) :
    prepareRelativePath size [] b = some (.ok b) := by
  simp [prepareRelativePath, kstrlen_eq h (show 0 + path.length < size by omega)]

theorem prepareRelativePath_tooLong (h : Holds nul b 0 path) (hlt : path.length < size) (hne : cwd ≠ [])
    (hlen : 256 < path.length + cwd.length + 2) :
    prepareRelativePath size cwd b = some (.error .pathTooLong) := by
  have hcwd : cwd.length ≠ 0 := fun e => hne (List.length_eq_zero_iff.1 e)
  rw [prepareRelativePath, kstrlen_eq h (by omega), Option.bind_eq_bind, Option.bind_some, if_neg hcwd,
    if_pos hlen]

/-- Where the two paths are short enough for the buffer, it then holds one behind the other. -/
theorem prepareRelativePath_eq (h : Holds nul b 0 path) (hcwd : nul ∉ cwd) (hne : cwd ≠ [])
    (hlen : path.length + cwd.length + 2 ≤ 256) (hsize : path.length + cwd.length + 2 ≤ size) :
    ∃ b', prepareRelativePath size cwd b = some (.ok b') ∧ Holds nul b' 0 (cwd ++ '/' :: path) := by
  have hzero : cwd.length ≠ 0 := fun e => hne (List.length_eq_zero_iff.1 e)
  have hmove : kmemmove size (cwd.length + 1) 0 path.length b =
      some (paste b (cwd.length + 1) path.length fun i => b (0 + i)) := by
    rw [kmemmove, if_neg (by omega), if_neg (by omega)]
    exact copyDown_eq (by omega) (by omega)
  obtain ⟨b₁, hb₁, hslice, hkeep⟩ :=
    @kmemcpyFrom_eq size 0 (paste b (cwd.length + 1) path.length fun i => b (0 + i)) cwd (by omega)
  refine ⟨Function.update (Function.update b₁ cwd.length '/') (path.length + cwd.length + 1) nul, ?_, ?_⟩
  · rw [prepareRelativePath, kstrlen_eq h (by omega), Option.bind_eq_bind, Option.bind_some, if_neg hzero,
      if_neg (by omega), hmove]
    simp only [Option.bind_eq_bind, Option.bind_some]
    rw [hb₁, Option.bind_some, write_of_lt _ (by omega), Option.bind_some, write_of_lt _ (by omega),
      Option.bind_some]
  · have hlength : (cwd ++ '/' :: path).length = path.length + cwd.length + 1 := by
      simp only [List.length_append, List.length_cons]
      omega
    refine ⟨fun i hi => ?_, ?_, nul_not_mem_absolute h.clean hcwd⟩
    · rw [hlength] at hi
      rw [Nat.zero_add, Function.update_of_ne (by omega)]
      rcases Nat.lt_trichotomy i cwd.length with hlt | rfl | hgt
      · have hchar := slice_eq_iff.1 hslice i hlt
        rw [Nat.zero_add] at hchar
        rw [Function.update_of_ne (by omega), hchar, List.getElem_append_left hlt]
      · rw [Function.update_self, List.getElem_append_right le_rfl]
        simp
      · obtain ⟨k, rfl⟩ := Nat.exists_eq_add_of_le hgt
        have hk : k < path.length := by omega
        rw [Function.update_of_ne (by omega), hkeep _ (by omega), paste_of_mem hk, h.chars k hk,
          List.getElem_append_right (by omega)]
        simp [Nat.add_assoc, Nat.add_comm 1]
    · rw [hlength, Nat.zero_add, Function.update_self]

/-- Where they are not, but pass the test against 256, the terminator lands behind the end. -/
theorem prepareRelativePath_none (h : Holds nul b 0 path) (hlt : path.length < size) (hne : cwd ≠ [])
    (hlen : path.length + cwd.length + 2 ≤ 256) (hsize : size < path.length + cwd.length + 2) :
    prepareRelativePath size cwd b = none := by
  have hzero : cwd.length ≠ 0 := fun e => hne (List.length_eq_zero_iff.1 e)
  rw [prepareRelativePath, kstrlen_eq h (by omega), Option.bind_eq_bind, Option.bind_some, if_neg hzero,
    if_neg (by omega)]
  cases kmemmove size (cwd.length + 1) 0 path.length b with
  | none => rfl
  | some b₁ =>
    show (kmemcpyFrom size 0 cwd b₁ >>= _) = none
    cases kmemcpyFrom size 0 cwd b₁ with
    | none => rfl
    | some b₂ =>
      show (write size b₂ cwd.length '/' >>= _) = none
      cases write size b₂ cwd.length '/' with
      | none => rfl
      | some b₃ =>
        show (write size b₃ (path.length + cwd.length + 1) nul >>= _) = none
        rw [write_of_ge _ (by omega)]
        rfl

/-- The number of slashes that a path begins with. -/
def numSlashes (path : Str) : Nat := (path.takeWhile (· = '/')).length

theorem numSlashes_le (path : Str) : numSlashes path ≤ path.length :=
  (List.takeWhile_prefix _).length_le

theorem drop_numSlashes (path : Str) : path.drop (numSlashes path) = VFS.prepareAbsolutePath path := by
  have happend : path.takeWhile (· = '/') ++ path.dropWhile (· = '/') = path :=
    List.takeWhile_append_dropWhile
  calc path.drop (numSlashes path)
      = (path.takeWhile (· = '/') ++ path.dropWhile (· = '/')).drop (numSlashes path) := by rw [happend]
    _ = VFS.prepareAbsolutePath path := List.drop_left

theorem numSlashes_eq (h : Holds nul b 0 path) (hlt : path.length < size) :
    count size (fun c => decide (c = '/')) b 0 (size + 1) 0 = some (numSlashes path) := by
  have hle := numSlashes_le path
  refine count_eq (Nat.zero_le _) (fun i _ hi => ?_) ?_ (by omega) (by omega)
  · have hmem : path[i] ∈ path.takeWhile (· = '/') := by
      rw [← (List.takeWhile_prefix (fun c => decide (c = '/'))).getElem hi]
      exact List.getElem_mem hi
    rw [h.chars i (by omega)]
    exact List.mem_takeWhile_imp (p := fun c => decide (c = '/')) hmem
  · obtain hlt | heq := Nat.lt_or_eq_of_le hle
    · have hdrop := drop_numSlashes path
      have hhead := List.head?_dropWhile_not (fun c => decide (c = '/')) path
      rw [h.chars _ hlt]
      rw [show path.dropWhile (fun c => decide (c = '/')) = path.drop (numSlashes path) from hdrop.symm,
        List.head?_drop, List.getElem?_eq_getElem hlt] at hhead
      simpa using hhead
    · rw [heq, h.ends]
      decide

/-- A string that was copied with its terminator. -/
theorem Holds.moved (h : Holds nul b src s) (hn : s.length < n) :
    Holds nul (paste b dst n fun i => b (src + i)) dst s where
  chars i hi := by rw [paste_of_mem (by omega), h.chars i hi]
  ends := by rw [paste_of_mem hn, h.ends]
  clean := h.clean

/-- `PrepareAbsolutePath` copies the length of the whole path from behind its slashes on. -/
theorem prepareAbsolutePath_eq (h : Holds nul b 0 path) (hlt : path.length < size)
    (hsize : numSlashes path + path.length + 1 ≤ size) :
    ∃ b', prepareAbsolutePath size b = some b' ∧ Holds nul b' 0 (VFS.prepareAbsolutePath path) := by
  refine ⟨paste b 0 (path.length + 1) fun i => b (numSlashes path + i), ?_, ?_⟩
  · simp only [prepareAbsolutePath, numSlashes_eq h hlt, kstrlen_eq h (show 0 + path.length < size by omega),
      Option.bind_eq_bind, Option.bind_some]
    exact kmemcpy_eq (Nat.zero_le _) (by omega)
  · have hdrop := h.drop (numSlashes_le path)
    rw [Nat.zero_add, drop_numSlashes] at hdrop
    exact Holds.moved hdrop (by rw [← drop_numSlashes, List.length_drop]; omega)

theorem prepareAbsolutePath_none (h : Holds nul b 0 path) (hlt : path.length < size)
    (hsize : size < numSlashes path + path.length + 1) : prepareAbsolutePath size b = none := by
  simp only [prepareAbsolutePath, numSlashes_eq h hlt, kstrlen_eq h (show 0 + path.length < size by omega),
    Option.bind_eq_bind, Option.bind_some]
  exact kmemcpy_none (Nat.zero_le _) (by omega) (by omega)

/-! ## Single slashes -/

theorem length_squeezeSlashes_le (last : Bool) (path : Str) :
    (squeezeSlashes last path).1.length ≤ path.length := by
  induction path generalizing last with
  | nil => simp [squeezeSlashes]
  | cons c path ih =>
    have htrue := ih true
    have hfalse := ih false
    rw [squeezeSlashes]
    split
    · cases last with
      | false => simpa using htrue
      | true => simpa using Nat.le_succ_of_le htrue
    · simpa using hfalse

theorem mem_squeezeSlashes {last : Bool} {c : Char} (h : c ∈ (squeezeSlashes last path).1) : c ∈ path := by
  induction path generalizing last with
  | nil => simp [squeezeSlashes] at h
  | cons a path ih =>
    rw [squeezeSlashes] at h
    split at h
    · next ha =>
      cases last with
      | false =>
        rcases List.mem_cons.1 h with rfl | h
        · simp [ha]
        · exact List.mem_cons_of_mem a (ih h)
      | true => exact List.mem_cons_of_mem a (ih h)
    · rcases List.mem_cons.1 h with rfl | h
      · exact List.mem_cons_self
      · exact List.mem_cons_of_mem a (ih h)

/-- The loop writes at or below the place that it reads. -/
theorem squeezeLoop_eq {writePos : Nat} {last : Bool} (hchars : ∀ j (h : j < path.length), b (i + j) = path[j])
    (hle : writePos ≤ i) (hsize : i + path.length ≤ size) :
    ∃ b', squeezeLoop size path.length i writePos last b =
        some (writePos + (squeezeSlashes last path).1.length, (squeezeSlashes last path).2, b') ∧
      slice b' writePos (squeezeSlashes last path).1.length = (squeezeSlashes last path).1 ∧
      ∀ j, j < writePos → b' j = b j := by
  induction path generalizing i writePos last b with
  | nil => exact ⟨b, rfl, rfl, fun _ _ => rfl⟩
  | cons c path ih =>
    rw [List.length_cons] at hsize
    have hc : b i = c := hchars 0 (by simp)
    -- a write at `writePos` changes nothing behind `i`
    have hrest : ∀ a, ∀ j (h : j < path.length), Function.update b writePos a (i + 1 + j) = path[j] := by
      intro a j hj
      rw [Function.update_of_ne (by omega), Nat.add_assoc, Nat.add_comm 1]
      exact hchars (j + 1) (by simpa using hj)
    have hwrite : ∀ a last', ∃ b', squeezeLoop size path.length (i + 1) (writePos + 1) last'
          (Function.update b writePos a) = some (writePos + (a :: (squeezeSlashes last' path).1).length,
            (squeezeSlashes last' path).2, b') ∧
        slice b' writePos (a :: (squeezeSlashes last' path).1).length = a :: (squeezeSlashes last' path).1 ∧
        ∀ j, j < writePos → b' j = b j := by
      intro a last'
      obtain ⟨b', hb', hslice, hkeep⟩ := @ih (i + 1) (Function.update b writePos a) (writePos + 1) last'
        (hrest a) (by omega) (by omega)
      refine ⟨b', ?_, ?_, fun j hj => ?_⟩
      · rw [hb', List.length_cons]
        simp [Nat.add_assoc, Nat.add_comm 1]
      · rw [List.length_cons, Nat.add_comm, slice_add, hslice, slice_succ, slice_zero, Nat.add_zero,
          hkeep writePos (by omega), Function.update_self]
        rfl
      · rw [hkeep j (by omega), Function.update_of_ne (by omega)]
    rw [List.length_cons, squeezeLoop, read_of_lt (by omega), Option.bind_eq_bind, Option.bind_some, hc]
    by_cases hslash : c = '/'
    · rw [if_pos hslash]
      cases last with
      | true =>
        obtain ⟨b', hb', hslice, hkeep⟩ := @ih (i + 1) b writePos true
          (fun j hj => by
            rw [Nat.add_assoc, Nat.add_comm 1]
            exact hchars (j + 1) (by simpa using hj)) (by omega) (by omega)
        simpa [squeezeSlashes, hslash] using ⟨b', hb', hslice, hkeep⟩
      | false =>
        rw [if_neg Bool.false_ne_true, write_of_lt _ (by omega), Option.bind_eq_bind, Option.bind_some]
        simpa [squeezeSlashes, hslash] using hwrite '/' true
    · rw [if_neg hslash, write_of_lt _ (by omega), Option.bind_eq_bind, Option.bind_some]
      simpa [squeezeSlashes, hslash] using hwrite c false

/-! ## Taking the path apart -/

/-- Strings of a buffer at places of their own, between `lo` and `hi` and in this order. -/
structure Laid (b : Buf) (lo hi : Nat) (zs : List (Nat × Str)) : Prop where
  holds : ∀ z ∈ zs, Holds nul b z.1 z.2
  above : ∀ z ∈ zs, lo ≤ z.1
  below : ∀ z ∈ zs, z.1 + z.2.length ≤ hi
  apart : zs.Pairwise fun x y => x.1 + x.2.length < y.1

theorem Laid.sublist {lo hi : Nat} {zs zs' : List (Nat × Str)} (h : Laid b lo hi zs)
    (hsub : zs'.Sublist zs) : Laid b lo hi zs' where
  holds z hz := h.holds z (hsub.subset hz)
  above z hz := h.above z (hsub.subset hz)
  below z hz := h.below z (hsub.subset hz)
  apart := h.apart.sublist hsub

theorem splitOn_append_slash {name rest : Str} (h : '/' ∉ name) :
    (name ++ '/' :: rest).splitOn '/' = name :: rest.splitOn '/' := by
  induction name with
  | nil =>
    obtain ⟨x, xs, hsplit, hcons⟩ := splitOn_cons '/' rest
    rw [List.nil_append, hcons, if_pos rfl, hsplit]
  | cons c name ih =>
    have hc : c ≠ '/' := fun e => h (by simp [e])
    obtain ⟨x, xs, hsplit, hcons⟩ := splitOn_cons c (name ++ '/' :: rest)
    rw [ih fun hm => h (by simp [hm])] at hsplit
    obtain ⟨rfl, rfl⟩ := List.cons.inj hsplit
    rw [List.cons_append, hcons, if_neg hc]

theorem splitOn_eq_singleton {name : Str} (h : '/' ∉ name) : name.splitOn '/' = [name] := by
  induction name with
  | nil => rfl
  | cons c name ih =>
    have hc : c ≠ '/' := fun e => h (by simp [e])
    obtain ⟨x, xs, hsplit, hcons⟩ := splitOn_cons c name
    rw [ih fun hm => h (by simp [hm])] at hsplit
    obtain ⟨rfl, rfl⟩ := List.cons.inj hsplit
    rw [hcons, if_neg hc]

theorem push_eq {stack : List Nat} {dir : Nat} (h : stack.length < 128) :
    push stack dir = some (stack ++ [dir]) := if_pos h

/-- The loop, at an index behind `name`, which is a part of the current directory's name: each slash becomes
a terminator, and the stack gets the start of each name. -/
theorem splitLoop_eq {fuel dir : Nat} {stack : List Nat} {name rest : Str}
    (h : Holds nul b dir (name ++ rest)) (hname : '/' ∉ name) (hsize : dir + (name ++ rest).length < size)
    (hstack : stack.length + rest.count '/' < 128) (hfuel : rest.length < fuel) :
    ∃ b' zs, splitLoop size fuel (dir + name.length) stack dir b = some (stack ++ zs.map Prod.fst, b') ∧
      zs.map Prod.snd = (name ++ rest).splitOn '/' ∧ Laid b' dir (dir + (name ++ rest).length) zs ∧
      ∀ j, j < dir + name.length → b' j = b j := by
  induction rest generalizing name dir stack b fuel with
  | nil =>
    obtain ⟨fuel, rfl⟩ := Nat.exists_eq_succ_of_ne_zero (Nat.ne_of_gt hfuel)
    rw [List.append_nil] at h hsize ⊢
    refine ⟨b, [(dir, name)], ?_, (splitOn_eq_singleton hname).symm, ?_, fun _ _ => rfl⟩
    · rw [splitLoop, read_of_lt hsize, Option.bind_eq_bind, Option.bind_some, if_pos h.ends,
        push_eq (by simpa using hstack)]
      rfl
    · constructor <;> simp [h]
  | cons c rest ih =>
    obtain ⟨fuel, rfl⟩ := Nat.exists_eq_succ_of_ne_zero (Nat.ne_of_gt (Nat.zero_lt_of_lt hfuel))
    have hlength : (name ++ c :: rest).length = name.length + 1 + rest.length := by
      simp only [List.length_append, List.length_cons]
      omega
    have hchar : b (dir + name.length) = c := by
      rw [h.chars name.length (by omega), List.getElem_append_right le_rfl]
      simp
    have hnul : c ≠ nul := fun e => h.clean (by simp [e])
    rw [splitLoop, read_of_lt (by omega), Option.bind_eq_bind, Option.bind_some, hchar, if_neg hnul]
    by_cases hslash : c = '/'
    · subst hslash
      -- the slash ends `name`; the rest is another name with its own slashes
      have hrest : Holds nul (Function.update b (dir + name.length) nul) (dir + name.length + 1) ([] ++ rest) := by
        have hdrop := @Holds.drop _ b nul _ (name.length + 1) dir h (by omega)
        rw [show (name ++ '/' :: rest).drop (name.length + 1) = [] ++ rest by simp] at hdrop
        exact hdrop.congr fun j _ => Function.update_of_ne (by omega) _ _
      obtain ⟨b', zs, hb', hnames, hlaid, hkeep⟩ := @ih (Function.update b (dir + name.length) nul) fuel
        (dir + name.length + 1) (stack ++ [dir]) [] hrest List.not_mem_nil (by simp; omega)
        (by simpa [Nat.add_assoc, Nat.add_comm 1] using hstack) (by simpa using hfuel)
      rw [List.length_nil, Nat.add_zero] at hb' hkeep
      have hholds : Holds nul b' dir name := by
        refine ⟨fun j hj => ?_, ?_, fun hm => h.clean (by simp [hm])⟩
        · rw [hkeep _ (by omega), Function.update_of_ne (by omega), h.chars j (by omega),
            List.getElem_append_left hj]
        · rw [hkeep _ (by omega), Function.update_self]
      refine ⟨b', (dir, name) :: zs, ?_, ?_, ?_, fun j hj => ?_⟩
      · rw [if_pos rfl, write_of_lt _ (by omega), Option.bind_eq_bind, Option.bind_some, push_eq (by omega),
          Option.bind_eq_bind, Option.bind_some, hb']
        simp
      · rw [List.map_cons, hnames, splitOn_append_slash hname]
        rfl
      · constructor
        · exact List.forall_mem_cons.2 ⟨hholds, hlaid.holds⟩
        · exact List.forall_mem_cons.2 ⟨le_rfl, fun z hz => Nat.le_trans (by omega) (hlaid.above z hz)⟩
        · refine List.forall_mem_cons.2 ⟨by simp, fun z hz => ?_⟩
          have hbelow := hlaid.below z hz
          rw [List.nil_append] at hbelow
          omega
        · refine List.pairwise_cons.2 ⟨fun z hz => ?_, hlaid.apart⟩
          exact Nat.lt_of_succ_le (hlaid.above z hz)
      · rw [hkeep j (by omega), Function.update_of_ne (by omega)]
    · have happend : name ++ c :: rest = (name ++ [c]) ++ rest := by simp
      obtain ⟨b', zs, hb', hnames, hlaid, hkeep⟩ := @ih b fuel dir stack (name ++ [c]) (happend ▸ h)
        (by simp [hname, Ne.symm hslash]) (happend ▸ hsize) (by simpa [hslash] using hstack) (by simpa using hfuel)
      rw [if_neg hslash]
      refine ⟨b', zs, ?_, happend ▸ hnames, happend ▸ hlaid, fun j hj => hkeep j (by simp; omega)⟩
      simpa [Nat.add_assoc] using hb'

/-! ## `.` and `..` -/

theorem dotsLoop_cons {done todo : List Nat} {dir : Nat} :
    dotsLoop size b done (dir :: todo) = (do
      if ← kstrcmpEq size b dir ['.'] then dotsLoop size b done todo
      else if ← kstrcmpEq size b dir ['.', '.'] then dotsLoop size b done.tail todo
      else dotsLoop size b (dir :: done) todo) := by
  cases done <;> rfl

theorem normalizeStack_cons {done todo : List Str} {dir : Str} :
    normalizeStack done (dir :: todo) =
      if dir = ['.'] then normalizeStack done todo
      else if dir = ['.', '.'] then normalizeStack done.tail todo
      else normalizeStack (dir :: done) todo := by
  cases done <;> rfl

/-- The loop over the stack, seen on the names it points to. -/
theorem dotsLoop_eq {done todo : List (Nat × Str)}
    (h : ∀ z ∈ todo, Holds nul b z.1 z.2 ∧ z.1 + z.2.length < size) :
    ∃ zs : List (Nat × Str), dotsLoop size b (done.map Prod.fst) (todo.map Prod.fst) = some (zs.map Prod.fst) ∧
      zs.map Prod.snd = normalizeStack (done.map Prod.snd) (todo.map Prod.snd) ∧
      zs.Sublist (done.reverse ++ todo) := by
  induction todo generalizing done with
  | nil => exact ⟨done.reverse, by simp [dotsLoop], by simp [normalizeStack], by simp⟩
  | cons z todo ih =>
    obtain ⟨⟨hz, hlt⟩, htodo⟩ := List.forall_mem_cons.1 h
    have hskip : (done.reverse ++ todo).Sublist (done.reverse ++ z :: todo) :=
      (List.sublist_cons_self z todo).append_left _
    rw [List.map_cons, List.map_cons, dotsLoop_cons, normalizeStack_cons,
      kstrcmpEq_eq hz hlt (show nul ∉ ['.'] by decide),
      kstrcmpEq_eq hz hlt (show nul ∉ ['.', '.'] by decide)]
    by_cases hdot : z.2 = ['.']
    · obtain ⟨zs, hzs, hnames, hsub⟩ := @ih done htodo
      exact ⟨zs, by simpa [hdot] using hzs, by simpa [hdot] using hnames, hsub.trans hskip⟩
    · by_cases hdots : z.2 = ['.', '.']
      · obtain ⟨zs, hzs, hnames, hsub⟩ := @ih done.tail htodo
        have hpop : (done.tail.reverse ++ todo).Sublist (done.reverse ++ todo) :=
          (List.tail_sublist done).reverse.append_right todo
        rw [List.map_tail] at hzs hnames
        exact ⟨zs, by simpa [hdots] using hzs, by simpa [hdots] using hnames, (hsub.trans hpop).trans hskip⟩
      · obtain ⟨zs, hzs, hnames, hsub⟩ := @ih (z :: done) htodo
        exact ⟨zs, by simpa [hdot, hdots] using hzs, by simpa [hdot, hdots] using hnames, by simpa using hsub⟩

/-! ## Joining the names -/

/-- The names with a slash in front of each. -/
def slashed (names : List Str) : Str := names.flatMap ('/' :: ·)

theorem intercalate_eq_slashed (name : Str) (names : List Str) :
    List.intercalate ['/'] (name :: names) = name ++ slashed names := by
  induction names generalizing name with
  | nil => simp [slashed]
  | cons x names ih =>
    rw [List.intercalate_cons_cons, ih x]
    simp [slashed]

theorem slice_paste {f : Nat → Char} : slice (paste b dst n f) dst n = slice f 0 n := by
  refine List.map_congr_left fun i hi => ?_
  rw [paste_of_mem (List.mem_range.1 hi), Nat.zero_add]

theorem Laid.congr {lo lo' hi : Nat} {zs : List (Nat × Str)} (h : Laid b lo hi zs) (hle : lo' ≤ lo)
    (hb : ∀ i, lo ≤ i → b' i = b i) : Laid b' lo' hi zs where
  holds z hz := (h.holds z hz).congr fun _ _ => hb _ (Nat.le_trans (h.above z hz) (Nat.le_add_right ..))
  above z hz := Nat.le_trans hle (h.above z hz)
  below := h.below
  apart := h.apart

/-- What follows a string starts behind its terminator. -/
theorem Laid.tail {lo hi : Nat} {z : Nat × Str} {zs : List (Nat × Str)} (h : Laid b lo hi (z :: zs)) :
    Laid b (z.1 + z.2.length + 1) hi zs where
  holds := (List.forall_mem_cons.1 h.holds).2
  above := (List.pairwise_cons.1 h.apart).1
  below := (List.forall_mem_cons.1 h.below).2
  apart := (List.pairwise_cons.1 h.apart).2

/-- Copying a name to a place at or below its own. -/
theorem copy_eq (h : Holds nul b src s) (hle : dst ≤ src) (hlt : src + s.length < size) :
    ∃ b', kmemcpy size dst src s.length b = some b' ∧ slice b' dst s.length = s ∧
      ∀ i, i < dst ∨ dst + s.length ≤ i → b' i = b i := by
  refine ⟨_, kmemcpy_eq hle (Nat.le_of_lt hlt), ?_, ?_⟩
  · rw [slice_paste]
    exact slice_eq_iff.2 fun i hi => by rw [Nat.zero_add, h.chars i hi]
  · rintro i (hi | hi)
    · exact paste_of_lt hi
    · exact paste_of_ge hi

/-- The loop behind the first name. The next name starts behind the place that is written. -/
theorem joinLoop_eq {hi : Nat} {zs : List (Nat × Str)} (h : Laid b (pos + 1) hi zs) (hpos : pos ≤ hi)
    (hhi : hi < size) :
    ∃ b', joinLoop size (zs.map Prod.fst) false pos b = some (pos + (slashed (zs.map Prod.snd)).length, b') ∧
      slice b' pos (slashed (zs.map Prod.snd)).length = slashed (zs.map Prod.snd) ∧
      pos + (slashed (zs.map Prod.snd)).length ≤ hi ∧ ∀ i, i < pos → b' i = b i := by
  induction zs generalizing pos b with
  | nil => exact ⟨b, rfl, rfl, hpos, fun _ _ => rfl⟩
  | cons z zs ih =>
    obtain ⟨hz, -⟩ := List.forall_mem_cons.1 h.holds
    obtain ⟨habove, -⟩ := List.forall_mem_cons.1 h.above
    obtain ⟨hbelow, -⟩ := List.forall_mem_cons.1 h.below
    have hz₁ : Holds nul (Function.update b pos '/') z.1 z.2 :=
      hz.congr fun i _ => Function.update_of_ne (by omega) _ _
    obtain ⟨b₂, hb₂, hslice₂, hkeep₂⟩ := copy_eq hz₁ habove (show z.1 + z.2.length < size by omega)
    have hlaid : Laid b₂ (pos + 1 + z.2.length + 1) hi zs :=
      h.tail.congr (by omega) fun i hi => by rw [hkeep₂ i (by omega), Function.update_of_ne (by omega)]
    obtain ⟨b', hb', hslice', hend, hkeep'⟩ := ih hlaid (by omega)
    have hslashed : slashed ((z :: zs).map Prod.snd) = '/' :: (z.2 ++ slashed (zs.map Prod.snd)) := by
      simp [slashed]
    have hlength : (slashed ((z :: zs).map Prod.snd)).length =
        1 + (z.2.length + (slashed (zs.map Prod.snd)).length) := by
      rw [hslashed, List.length_cons, List.length_append, Nat.add_comm]
    refine ⟨b', ?_, ?_, by omega, fun i hi => ?_⟩
    · rw [List.map_cons, joinLoop, kstrlen_eq hz (by omega), Option.bind_eq_bind, Option.bind_some,
        if_neg Bool.false_ne_true, write_of_lt _ (by omega), Option.bind_eq_bind, Option.bind_some, hb₂,
        Option.bind_some, hb', hlength]
      simp [Nat.add_assoc]
    · rw [hlength, slice_add, slice_add, hslice', hslashed, slice_succ, slice_zero, Nat.add_zero,
        hkeep' pos (by omega), hkeep₂ pos (by omega), Function.update_self,
        slice_congr fun i hi => hkeep' (pos + 1 + i) (by omega), hslice₂]
      rfl
    · rw [hkeep' i (by omega), hkeep₂ i (by omega), Function.update_of_ne (by omega)]

/-- The whole loop, and the terminator behind it. -/
theorem joinLoop_holds {hi : Nat} {zs : List (Nat × Str)} (h : Laid b 0 hi zs) (hhi : hi < size) :
    ∃ pos b₁ b', joinLoop size (zs.map Prod.fst) true 0 b = some (pos, b₁) ∧ write size b₁ pos nul = some b' ∧
      Holds nul b' 0 (List.intercalate ['/'] (zs.map Prod.snd)) := by
  cases zs with
  | nil =>
    refine ⟨0, b, Function.update b 0 nul, rfl, write_of_lt _ (by omega), ⟨?_, ?_, List.not_mem_nil⟩⟩
    · rintro i hi
      exact absurd hi (Nat.not_lt_zero i)
    · simp
  | cons z zs =>
    obtain ⟨hz, -⟩ := List.forall_mem_cons.1 h.holds
    obtain ⟨hbelow, -⟩ := List.forall_mem_cons.1 h.below
    obtain ⟨b₁, hb₁, hslice₁, hkeep₁⟩ := copy_eq hz (Nat.zero_le _) (show z.1 + z.2.length < size by omega)
    have hlaid : Laid b₁ (0 + z.2.length + 1) hi zs := h.tail.congr (by omega) fun i hi => hkeep₁ i (by omega)
    obtain ⟨b₂, hb₂, hslice₂, hend, hkeep₂⟩ := joinLoop_eq hlaid (by omega) hhi
    refine ⟨_, b₂, _, ?_, write_of_lt _ (Nat.lt_of_le_of_lt hend hhi), holds_iff_slice.2 ⟨?_, ?_, ?_⟩⟩
    · rw [List.map_cons, joinLoop, kstrlen_eq hz (by omega), Option.bind_eq_bind, Option.bind_some,
        if_pos rfl, hb₁, Option.bind_eq_bind, Option.bind_some, hb₂]
    · rw [List.map_cons, intercalate_eq_slashed, List.length_append, slice_add]
      congr 1
      · rw [slice_congr fun i hi => ?_, slice_congr fun i hi => hkeep₂ (0 + i) (by omega), hslice₁]
        exact Function.update_of_ne (by omega) _ _
      · rw [slice_congr fun i hi => ?_, hslice₂]
        exact Function.update_of_ne (by omega) _ _
    · rw [List.map_cons, intercalate_eq_slashed, List.length_append, ← Nat.add_assoc, Function.update_self]
    · rw [List.map_cons, intercalate_eq_slashed]
      intro hm
      rcases List.mem_append.1 hm with hm | hm
      · exact hz.clean hm
      · obtain ⟨name, hname, hm⟩ := List.mem_flatMap.1 hm
        obtain ⟨y, hy, rfl⟩ := List.mem_map.1 hname
        rcases List.mem_cons.1 hm with he | hm
        · exact absurd he (by decide)
        · exact (h.tail.holds y hy).clean hm

/-! ## The passes together -/

/-- **`NormalizePath`** leaves the normalised path, as long as the stack has a slot for each name. -/
theorem normalizePath_eq (h : Holds nul b 0 path) (hlt : path.length < size) (hslots : path.count '/' < 128) :
    ∃ b', normalizePath size b = some b' ∧ Holds nul b' 0 (VFS.normalizePath path) := by
  obtain ⟨b₁, zs₁, hsplit, hnames₁, hlaid₁, -⟩ := @splitLoop_eq size b (size + 1) 0 [] [] path h List.not_mem_nil
    (by simpa using hlt) (by simpa using hslots) (by omega)
  obtain ⟨zs, hdots, hnames, hsub⟩ := @dotsLoop_eq size b₁ [] zs₁ fun z hz =>
    ⟨hlaid₁.holds z hz, Nat.lt_of_le_of_lt (hlaid₁.below z hz) (by simpa using hlt)⟩
  have hlaid : Laid b₁ 0 (0 + ([] ++ path).length) zs := hlaid₁.sublist (by simpa using hsub)
  obtain ⟨pos, b₂, b', hjoin, hwrite, hholds⟩ := joinLoop_holds hlaid (show _ < size by simpa using hlt)
  refine ⟨b', ?_, ?_⟩
  · simp only [List.length_nil, Nat.add_zero, List.nil_append, List.map_nil] at hsplit hdots
    simp only [normalizePath, hsplit, hdots, hjoin, hwrite, Option.bind_eq_bind, Option.bind_some]
  · rw [VFS.normalizePath]
    rwa [hnames, hnames₁] at hholds

theorem mem_stripLast {out : Str} {last : Bool} {c : Char} (h : c ∈ stripLast out last) : c ∈ out := by
  cases last with
  | false => exact h
  | true => exact List.mem_of_mem_dropLast h

/-- A name stands behind each slash, so there are at most half as many slashes as characters. -/
theorem count_joinSlash_le {names : List Str} (h : ∀ x ∈ names, '/' ∉ x) :
    2 * (joinSlash names).count '/' ≤ (joinSlash names).length := by
  induction names with
  | nil => simp
  | cons name names ih =>
    have hnames := ih fun x hx => h x (List.mem_cons_of_mem name hx)
    cases name with
    | nil => simpa using hnames
    | cons c name =>
      have hcount : (c :: name).count '/' = 0 := List.count_eq_zero.2 (h _ List.mem_cons_self)
      rw [joinSlash_cons, List.count_cons_self, ← List.cons_append, List.count_append, hcount]
      simp only [List.length_cons, List.length_append]
      omega

theorem length_stripLast_le (path : Str) :
    (stripLast (squeezeSlashes false path).1 (squeezeSlashes false path).2).length ≤ path.length := by
  refine Nat.le_trans ?_ (length_squeezeSlashes_le false path)
  cases (squeezeSlashes false path).2 with
  | false => exact le_rfl
  | true => simp [stripLast]

theorem count_stripLast_le (path : Str) :
    2 * (stripLast (squeezeSlashes false path).1 (squeezeSlashes false path).2).count '/' ≤ path.length := by
  obtain ⟨name, names, hsplit, hstrip, -⟩ := stripLast_squeezeSlashes path
  have hslash : ∀ x ∈ name :: names, '/' ∉ x := fun x hx => slash_not_mem_splitOn (hsplit ▸ hx)
  have hname : name.count '/' = 0 := List.count_eq_zero.2 (hslash name List.mem_cons_self)
  have hnames := count_joinSlash_le fun x hx => hslash x (List.mem_cons_of_mem name hx)
  have hlength := length_stripLast_le path
  rw [hstrip, List.length_append] at hlength
  rw [hstrip, List.count_append, hname]
  omega

/-- **The passes behind the two cases** stay inside of the buffer and of the stack for every path of at most
255 characters. -/
theorem canonicalize_eq (h : Holds nul b 0 path) (hlt : path.length < size) (hlen : path.length ≤ 255) :
    ∃ b', canonicalize size b = some b' ∧ Holds nul b' 0
      (VFS.normalizePath (stripLast (squeezeSlashes false path).1 (squeezeSlashes false path).2)) := by
  obtain ⟨b₁, hb₁, hslice, -⟩ := @squeezeLoop_eq size 0 b path 0 false (fun j hj => h.chars j hj) le_rfl (by omega)
  have hle := length_squeezeSlashes_le false path
  rw [Nat.zero_add] at hb₁
  -- the terminator goes in place of the last slash, or behind the last character
  have hend : ∃ b₂, (if (squeezeSlashes false path).2 = true
      then write size b₁ ((squeezeSlashes false path).1.length - 1) nul
      else write size b₁ (squeezeSlashes false path).1.length nul) = some b₂ ∧
      Holds nul b₂ 0 (stripLast (squeezeSlashes false path).1 (squeezeSlashes false path).2) := by
    have hclean : nul ∉ stripLast (squeezeSlashes false path).1 (squeezeSlashes false path).2 :=
      fun hm => h.clean (mem_squeezeSlashes (mem_stripLast hm))
    cases hlast : (squeezeSlashes false path).2 with
    | false =>
      rw [if_neg Bool.false_ne_true, write_of_lt _ (by omega)]
      rw [hlast] at hclean
      refine ⟨_, rfl, holds_iff_slice.2 ⟨?_, ?_, hclean⟩⟩
      · rw [stripLast, if_neg Bool.false_ne_true, slice_congr fun i hi => ?_, hslice]
        exact Function.update_of_ne (by omega) _ _
      · simp [stripLast]
    | true =>
      have hne := List.length_pos_iff.2 (squeezeSlashes_ne_nil hlast)
      rw [if_pos rfl, write_of_lt _ (by omega)]
      rw [hlast] at hclean
      refine ⟨_, rfl, fun i hi => ?_, ?_, hclean⟩
      · have hi' : i < (squeezeSlashes false path).1.length - 1 := by simpa [stripLast] using hi
        have hchar := slice_eq_iff.1 hslice i (by omega)
        rw [Nat.zero_add] at hchar ⊢
        rw [Function.update_of_ne (by omega), hchar]
        simp [stripLast]
      · simp [stripLast]
  obtain ⟨b₂, hb₂, hholds⟩ := hend
  have hcount := count_stripLast_le path
  have hlength := length_stripLast_le path
  obtain ⟨b', hb', hholds'⟩ := normalizePath_eq hholds (show _ < size by omega) (by omega)
  refine ⟨b', ?_, hholds'⟩
  simp only [canonicalize, kstrlen_eq h (show 0 + path.length < size by omega), hb₁, Option.bind_eq_bind,
    Option.bind_some]
  rw [← apply_ite fun b : Option Buf => b.bind (normalizePath size), hb₂]
  exact hb'

end ChenixOS.VFS.PathBuffer
