import ChenixOS.Fs.PathBufferProof

/-!
# What `PreparePath` leaves in its buffer

`preparePath_spec`: the passes over a buffer do what the functions on strings say, exactly where the path
**fits**. Two tests fall short of that. The one of `PrepareRelativePath` is against 256, which is one more
than the buffers of the file system have; and `PrepareAbsolutePath` copies the length of the whole path from
behind its leading slashes on, so it reads as many bytes behind the terminator as there are slashes.

With a buffer that is large enough the result is the `reference` path: the names of the working directory and
of the path, without the empty ones and `.`, where each `..` takes back the name before it.
-/

namespace ChenixOS.VFS.PathBuffer

open Buffer

variable {size : Nat} {b b' : Buf} {path cwd : Str} {src : Nat → Option Char}

/-! ## When a path fits -/

/-- The path as the first two passes leave it. -/
def absolutePath (cwd path : Str) : Str :=
  if isPathRelative path then if cwd = [] then path else cwd ++ '/' :: path else VFS.prepareAbsolutePath path

/-- `PreparePath` refuses the path as too long. -/
def Refused (cwd path : Str) : Prop :=
  isPathRelative path = true ∧ cwd ≠ [] ∧ 256 < path.length + cwd.length + 2

/-- Neither the terminator of a relative path nor the source of the copy of an absolute one lies behind the
end of the buffer. -/
def Fits (size : Nat) (cwd path : Str) : Prop :=
  if isPathRelative path then cwd = [] ∨ path.length + cwd.length + 2 ≤ size
  else numSlashes path + path.length + 1 ≤ size

instance : Decidable (Fits size cwd path) := by
  unfold Fits
  infer_instance

theorem isPathRelative_iff (h : Holds nul b 0 path) : b 0 ≠ '/' ↔ isPathRelative path = true := by
  cases path with
  | nil =>
    have hends : b 0 = nul := h.ends
    rw [hends]
    decide
  | cons c path =>
    have hc : b 0 = c := h.chars 0 (by simp)
    simp [isPathRelative, hc]

theorem length_absolutePath (hlen : path.length ≤ 254) (hok : ¬Refused cwd path) :
    (absolutePath cwd path).length ≤ 255 := by
  unfold absolutePath
  split_ifs with hrel hcwd
  · omega
  · have hle : path.length + cwd.length + 2 ≤ 256 := Nat.le_of_not_lt fun h => hok ⟨hrel, hcwd, h⟩
    simp only [List.length_append, List.length_cons]
    omega
  · have hle := (List.dropWhile_suffix (l := path) (p := fun c => decide (c = '/'))).length_le
    exact Nat.le_trans hle (by omega)

/-- The first two passes. -/
theorem makeAbsolute_eq (h : Holds nul b 0 path) (hlt : path.length < size) (hcwd : nul ∉ cwd)
    (hok : ¬Refused cwd path) (hfits : Fits size cwd path) :
    ∃ b', (if isPathRelative path then prepareRelativePath size cwd b
        else (prepareAbsolutePath size b).map .ok) = some (.ok b') ∧
      Holds nul b' 0 (absolutePath cwd path) ∧ (absolutePath cwd path).length < size := by
  unfold absolutePath
  unfold Fits at hfits
  split_ifs at hfits ⊢ with hrel hnil
  · subst hnil
    exact ⟨b, prepareRelativePath_nil h hlt, h, hlt⟩
  · have hsize : path.length + cwd.length + 2 ≤ size := hfits.resolve_left hnil
    obtain ⟨b', hb', hholds⟩ := prepareRelativePath_eq h hcwd hnil
      (Nat.le_of_not_lt fun h => hok ⟨hrel, hnil, h⟩) hsize
    refine ⟨b', hb', hholds, ?_⟩
    simp only [List.length_append, List.length_cons]
    omega
  · obtain ⟨b', hb', hholds⟩ := prepareAbsolutePath_eq h hlt hfits
    refine ⟨b', by rw [hb']; rfl, hholds, Nat.lt_of_le_of_lt ?_ hlt⟩
    exact (List.dropWhile_suffix _).length_le

theorem makeAbsolute_none (h : Holds nul b 0 path) (hlt : path.length < size)
    (hok : ¬Refused cwd path) (hfits : ¬Fits size cwd path) :
    (if isPathRelative path then prepareRelativePath size cwd b
      else (prepareAbsolutePath size b).map .ok) = none := by
  unfold Fits at hfits
  split_ifs at hfits ⊢ with hrel
  · obtain ⟨hne, hsize⟩ := not_or.1 hfits
    exact prepareRelativePath_none h hlt hne (Nat.le_of_not_lt fun h => hok ⟨hrel, hne, h⟩)
      (Nat.lt_of_not_le hsize)
  · rw [prepareAbsolutePath_none h hlt (Nat.lt_of_not_le hfits)]
    rfl

/-! ## The result -/

/-- `PreparePath` of an accepted path: the copy, the first two passes, the others. -/
theorem preparePath_eq_passes (hsrc : UserString src path) (hlen : path.length ≤ 254) (hsize : 255 ≤ size) :
    ∃ b₀, Holds nul b₀ 0 path ∧ preparePath size cwd src b =
      (if isPathRelative path then prepareRelativePath size cwd b₀
        else (prepareAbsolutePath size b₀).map .ok).bind fun r =>
          match r with
          | .error e => some (.error e)
          | .ok b => (canonicalize size b).map .ok := by
  obtain ⟨b₀, hb₀, hholds⟩ := @kpathcpyUsersafe_eq size b path src hsrc hlen hsize
  refine ⟨b₀, hholds, ?_⟩
  have hrel := isPathRelative_iff hholds
  simp only [preparePath, hb₀, read_of_lt (show 0 < size by omega), Option.bind_eq_bind, Option.bind_some]
  by_cases hc : isPathRelative path = true
  · rw [if_pos (hrel.2 hc), if_pos hc] <;> rfl
  · rw [if_neg (fun hne => hc (hrel.1 hne)), if_neg hc]
    cases prepareAbsolutePath size b₀ <;> rfl

theorem preparePath_refused (hsrc : UserString src path) (hlen : path.length ≤ 254) (hsize : 255 ≤ size)
    (h : Refused cwd path) : preparePath size cwd src b = some (.error .pathTooLong) := by
  obtain ⟨b₀, hholds, heq⟩ := @preparePath_eq_passes size b path cwd src hsrc hlen hsize
  rw [heq, if_pos h.1, prepareRelativePath_tooLong hholds (by omega) h.2.1 h.2.2]
  rfl

/-- **The passes leave what the functions on strings give.** -/
theorem preparePath_ok (hsrc : UserString src path) (hlen : path.length ≤ 254) (hsize : 255 ≤ size)
    (hcwd : nul ∉ cwd) (hok : ¬Refused cwd path) (hfits : Fits size cwd path) :
    ∃ b', preparePath size cwd src b = some (.ok b') ∧ Holds nul b' 0 (VFS.normalizePath
      (stripLast (squeezeSlashes false (absolutePath cwd path)).1
        (squeezeSlashes false (absolutePath cwd path)).2)) := by
  obtain ⟨b₀, hholds₀, heq⟩ := @preparePath_eq_passes size b path cwd src hsrc hlen hsize
  obtain ⟨b₁, hb₁, hholds₁, hlt⟩ := makeAbsolute_eq hholds₀ (by omega) hcwd hok hfits
  obtain ⟨b₂, hb₂, hholds₂⟩ := canonicalize_eq hholds₁ hlt (length_absolutePath hlen hok)
  refine ⟨b₂, ?_, hholds₂⟩
  simp only [heq, hb₁, hb₂, Option.bind_some, Option.map_some]

theorem preparePath_none (hsrc : UserString src path) (hlen : path.length ≤ 254) (hsize : 255 ≤ size)
    (hok : ¬Refused cwd path) (hfits : ¬Fits size cwd path) : preparePath size cwd src b = none := by
  obtain ⟨b₀, hholds₀, heq⟩ := @preparePath_eq_passes size b path cwd src hsrc hlen hsize
  rw [heq, makeAbsolute_none hholds₀ (by omega) hok hfits]
  rfl

/-- What a result of the passes means. -/
def Shows : Except Error Buf → Except Error Str → Prop
  | .error e, r => r = .error e
  | .ok b, r => ∃ s, r = .ok s ∧ Holds nul b 0 s

/-- **The passes refine the function on strings** wherever the path fits or is refused. -/
theorem preparePath_spec (hsrc : UserString src path) (hlen : path.length ≤ 254) (hsize : 255 ≤ size)
    (hcwd : nul ∉ cwd) (h : Refused cwd path ∨ Fits size cwd path) :
    ∃ r r', preparePath size cwd src b = some r ∧ VFS.preparePath size cwd (some path) = .ok r' ∧ Shows r r' := by
  have hcpy : VFS.kpathcpyUsersafe (some path) = some path := if_pos (by omega)
  by_cases hok : Refused cwd path
  · obtain ⟨hrel, hne, hlong⟩ := hok
    refine ⟨_, .error .pathTooLong, preparePath_refused hsrc hlen hsize ⟨hrel, hne, hlong⟩, ?_, rfl⟩
    have hzero : cwd.length ≠ 0 := fun e => hne (List.length_eq_zero_iff.1 e)
    simp only [VFS.preparePath, hcpy, if_pos hrel, VFS.prepareRelativePath, if_neg hzero, if_pos hlong]
    rfl
  · have hfits := h.resolve_left hok
    obtain ⟨b', hb', hholds⟩ := @preparePath_ok size b path cwd src hsrc hlen hsize hcwd hok hfits
    refine ⟨_, .ok _, hb', ?_, _, rfl, hholds⟩
    unfold absolutePath
    unfold Fits at hfits
    split_ifs at hfits ⊢ with hrel hnil
    · subst hnil
      simp only [VFS.preparePath, hcpy, if_pos hrel]
      rfl
    · have hzero : cwd.length ≠ 0 := fun e => hnil (List.length_eq_zero_iff.1 e)
      have hle : ¬256 < path.length + cwd.length + 2 := fun h => hok ⟨hrel, hnil, h⟩
      simp only [VFS.preparePath, hcpy, if_pos hrel, VFS.prepareRelativePath, if_neg hzero, if_neg hle,
        if_neg (Nat.not_lt.2 (hfits.resolve_left hnil))]
      rfl
    · simp only [VFS.preparePath, hcpy, if_neg hrel]
      rfl

/-! ## The reference -/

/-- The path as the user means it. -/
def whole (cwd path : Str) : Str := if isPathRelative path then cwd ++ '/' :: path else path

/-- One name further; `..` takes back the one before it. -/
def climb (dirs : List Str) (dir : Str) : List Str :=
  if dir = ['.', '.'] then dirs.dropLast else dirs ++ [dir]

/-- The names of a path that are neither empty nor `.`. -/
def dirNames (path : Str) : List Str := (path.splitOn '/').filter fun dir => dir ≠ [] ∧ dir ≠ ['.']

/-- Where the names of a path lead to. -/
def resolved (path : Str) : List Str := (dirNames path).foldl climb []

/-- The canonical form of a path. -/
def reference (cwd path : Str) : Str := List.intercalate ['/'] (resolved (whole cwd path))

theorem normalizeStack_eq_foldl (done todo : List Str) :
    normalizeStack done todo = (todo.filter (· ≠ ['.'])).foldl climb done.reverse := by
  induction todo generalizing done with
  | nil => rfl
  | cons dir todo ih =>
    rw [normalizeStack_cons]
    split_ifs with hdot hdots
    · rw [ih, List.filter_cons_of_neg (by simpa using hdot)]
    · rw [ih, List.filter_cons_of_pos (by simpa using hdot), List.foldl_cons, climb, if_pos hdots,
        List.dropLast_reverse]
    · rw [ih, List.filter_cons_of_pos (by simpa using hdot), List.foldl_cons, climb, if_neg hdots,
        List.reverse_cons]

/-- Slashes in front of a path add no names. -/
theorem dirNames_cons_slash (path : Str) : dirNames ('/' :: path) = dirNames path := by
  obtain ⟨name, names, hsplit, hcons⟩ := splitOn_cons '/' path
  rw [dirNames, dirNames, hcons, if_pos rfl, hsplit, List.filter_cons_of_neg (by simp)]

theorem dirNames_prepareAbsolutePath (path : Str) :
    dirNames (VFS.prepareAbsolutePath path) = dirNames path := by
  induction path with
  | nil => rfl
  | cons c path ih =>
    by_cases hc : c = '/'
    · subst hc
      rw [dirNames_cons_slash, ← ih]
      simp [VFS.prepareAbsolutePath]
    · rw [VFS.prepareAbsolutePath, List.dropWhile_cons_of_neg (by simpa using hc)]

theorem dirNames_absolutePath (cwd path : Str) :
    dirNames (absolutePath cwd path) = dirNames (whole cwd path) := by
  unfold absolutePath whole
  split_ifs with hrel hnil
  · rw [hnil, List.nil_append, dirNames_cons_slash]
  · rfl
  · exact dirNames_prepareAbsolutePath path

theorem head_ne_slash {path : Str} (h : Canonical path) : path.head? ≠ some '/' := by
  obtain ⟨names, rfl, hnames⟩ := h
  cases names with
  | nil => simp
  | cons name names =>
    obtain ⟨c, name, rfl⟩ := List.exists_cons_of_ne_nil (hnames name List.mem_cons_self).ne_nil
    have hc : c ≠ '/' := by
      rintro rfl
      exact (hnames _ List.mem_cons_self).noSlash List.mem_cons_self
    rw [intercalate_eq_slashed]
    simpa using hc

theorem absolutePath_head (hcwd : Canonical cwd) (path : Str) : (absolutePath cwd path).head? ≠ some '/' := by
  unfold absolutePath
  split_ifs with hrel hnil
  · simpa [isPathRelative] using hrel
  · rw [List.head?_append_of_ne_nil _ hnil]
    exact head_ne_slash hcwd
  · intro hhead
    have hdrop := List.head?_dropWhile_not (fun c => decide (c = '/')) path
    simp only [VFS.prepareAbsolutePath] at hhead
    rw [hhead] at hdrop
    simp at hdrop

/-- **The function on strings computes the reference**, if no slash is in front. -/
theorem normalizePath_eq_reference {absolute : Str} (hhead : absolute.head? ≠ some '/') :
    VFS.normalizePath (stripLast (squeezeSlashes false absolute).1 (squeezeSlashes false absolute).2) =
      List.intercalate ['/'] (resolved absolute) := by
  obtain ⟨name, names, hsplit, heq⟩ := normalizePath_squeezeSlashes absolute
  rw [heq, normalizeStack_eq_foldl, resolved, dirNames, hsplit, List.reverse_nil]
  by_cases hname : name = []
  · -- the first name is empty only if it is the whole path
    have hnames : names = [] := by
      by_contra hne
      refine hhead ?_
      have hjoin : ['/'].intercalate (absolute.splitOn '/') = absolute := List.intercalate_splitOn '/'
      rw [← hjoin, hsplit, hname, List.intercalate_cons_of_ne_nil hne]
      rfl
    subst hname hnames
    rfl
  · rw [← List.filter_cons_of_pos (p := fun x => decide (x ≠ [])) (by simpa using hname), List.filter_filter]
    congr 2
    refine List.filter_congr fun x _ => ?_
    simp [Bool.and_comm]

theorem mem_resolved {x : Str} (h : x ∈ resolved path) : IsName x := by
  have hmem : ∀ dirs names : List Str, x ∈ names.foldl climb dirs →
      x ∈ dirs ∨ x ∈ names ∧ x ≠ ['.', '.'] := by
    intro dirs names
    induction names generalizing dirs with
    | nil => exact Or.inl
    | cons dir names ih =>
      intro hx
      rcases ih _ hx with hx | ⟨hx, hne⟩
      · unfold climb at hx
        split_ifs at hx with hdots
        · exact Or.inl (List.mem_of_mem_dropLast hx)
        · rcases List.mem_append.1 hx with hx | hx
          · exact Or.inl hx
          · obtain rfl := List.mem_singleton.1 hx
            exact Or.inr ⟨List.mem_cons_self, hdots⟩
      · exact Or.inr ⟨List.mem_cons_of_mem dir hx, hne⟩
  obtain ⟨hx, hdots⟩ := (hmem [] _ h).resolve_left List.not_mem_nil
  obtain ⟨hsplit, hkept⟩ := List.mem_filter.1 hx
  obtain ⟨hnil, hdot⟩ : x ≠ [] ∧ x ≠ ['.'] := by simpa using hkept
  exact ⟨hnil, slash_not_mem_splitOn hsplit, hdot, hdots⟩

theorem reference_canonical (cwd path : Str) : Canonical (reference cwd path) :=
  ⟨_, rfl, fun _ => mem_resolved⟩

/-- A canonical path behind a slash is its own reference. -/
theorem reference_of_canonical {result : Str} (h : Canonical result) (cwd : Str) :
    reference cwd ('/' :: result) = result := by
  obtain ⟨names, rfl, hnames⟩ := h
  have hwhole : whole cwd ('/' :: List.intercalate ['/'] names) = '/' :: List.intercalate ['/'] names :=
    if_neg (by simp [isPathRelative])
  have hdirs : dirNames (List.intercalate ['/'] names) = names := by
    obtain rfl | hne := eq_or_ne names []
    · rfl
    · rw [dirNames, List.splitOn_intercalate '/' (fun x hx => (hnames x hx).noSlash) hne]
      refine List.filter_eq_self.2 fun x hx => ?_
      simpa using ⟨(hnames x hx).ne_nil, (hnames x hx).ne_dot⟩
  have hclimb : ∀ dirs : List Str, ∀ l : List Str, (∀ x ∈ l, IsName x) → l.foldl climb dirs = dirs ++ l := by
    intro dirs l hl
    induction l generalizing dirs with
    | nil => simp
    | cons x l ih =>
      rw [List.foldl_cons, climb, if_neg (hl x List.mem_cons_self).ne_dots,
        ih _ fun y hy => hl y (List.mem_cons_of_mem x hy)]
      simp
  rw [reference, hwhole, resolved, dirNames_cons_slash, hdirs, hclimb [] names hnames, List.nil_append]

/-- In a buffer that is large enough every path that is not refused becomes the reference. -/
theorem preparePath_holds (hsrc : UserString src path) (hlen : path.length ≤ 254) (hsize : 512 ≤ size)
    (hcwd : Canonical cwd) (hclean : nul ∉ cwd) (hok : ¬Refused cwd path) :
    ∃ b', preparePath size cwd src b = some (.ok b') ∧ Holds nul b' 0 (reference cwd path) := by
  have hfits : Fits size cwd path := by
    have hslashes := numSlashes_le path
    unfold Fits
    split_ifs with hrel
    · by_cases hnil : cwd = []
      · exact Or.inl hnil
      · have hle : ¬256 < path.length + cwd.length + 2 := fun h => hok ⟨hrel, hnil, h⟩
        exact Or.inr (by omega)
    · omega
  obtain ⟨b', hb', hholds⟩ := @preparePath_ok size b path cwd src hsrc hlen (by omega) hclean hok hfits
  refine ⟨b', hb', ?_⟩
  rwa [normalizePath_eq_reference (absolutePath_head hcwd path), resolved, dirNames_absolutePath] at hholds

/-- **`PreparePath` computes the reference.** With a buffer that is large enough it stays inside of it; a
string that it leaves is the reference, which is canonical, and prepared once more behind a slash it stays
the same, whatever the working directory and the buffer are then. -/
theorem preparePath_reference (hsrc : UserString src path) (hlen : path.length ≤ 254) (hsize : 512 ≤ size)
    (hcwd : Canonical cwd) (hclean : nul ∉ cwd) :
    ∃ r, preparePath size cwd src b = some r ∧ ∀ b', r = .ok b' →
      Holds nul b' 0 (reference cwd path) ∧ Canonical (reference cwd path) ∧
        (('/' :: reference cwd path).length ≤ 254 → ∀ cwd₂ src₂ b₂, Canonical cwd₂ → nul ∉ cwd₂ →
          UserString src₂ ('/' :: reference cwd path) →
          ∃ b₃, preparePath size cwd₂ src₂ b₂ = some (.ok b₃) ∧ Holds nul b₃ 0 (reference cwd path)) := by
  by_cases hok : Refused cwd path
  · refine ⟨_, preparePath_refused hsrc hlen (by omega) hok, fun b' h => ?_⟩
    cases h
  · obtain ⟨b', hb', hholds⟩ := @preparePath_holds size b path cwd src hsrc hlen hsize hcwd hclean hok
    refine ⟨_, hb', fun b'' h => ?_⟩
    cases h
    refine ⟨hholds, reference_canonical cwd path, fun hlen₂ cwd₂ src₂ b₂ hcwd₂ hclean₂ hsrc₂ => ?_⟩
    have hok₂ : ¬Refused cwd₂ ('/' :: reference cwd path) := by
      rintro ⟨hrel, -⟩
      simp [isPathRelative] at hrel
    have hagain := @preparePath_holds size b₂ _ cwd₂ src₂ hsrc₂ hlen₂ hsize hcwd₂ hclean₂ hok₂
    rwa [reference_of_canonical (reference_canonical cwd path)] at hagain

theorem preparePath_reference_dots : ∃ r,
    preparePath 512 ['x'] (userCopy ['a', '/', '.', '.', '/', '/', 'b', '/']) (fun _ => nul) = some r ∧
      ∀ b', r = .ok b' → Holds nul b' 0 ['x', '/', 'b'] := by
  have hcwd : Canonical ['x'] := by
    refine ⟨[['x']], rfl, fun x hx => ?_⟩
    obtain rfl := List.mem_singleton.1 hx
    constructor <;> decide
  have hsrc := @userString_userCopy ['a', '/', '.', '.', '/', '/', 'b', '/'] (by decide)
  obtain ⟨r, hr, hres⟩ := @preparePath_reference 512 (fun _ => nul) _ ['x'] _ hsrc (by decide) le_rfl hcwd
    (by decide)
  exact ⟨r, hr, fun b' h => (hres b' h).1⟩

/-! ## The buffers of the file system -/

/-- The path before any name is taken out of it. -/
def combined (cwd path : Str) : Str := if isPathRelative path ∧ cwd ≠ [] then cwd ++ '/' :: path else path

theorem length_combined (h : isPathRelative path = true) (hne : cwd ≠ []) :
    (combined cwd path).length = path.length + cwd.length + 1 := by
  rw [combined, if_pos ⟨h, hne⟩, List.length_append, List.length_cons]
  omega

/-- What a path that is not refused must keep to in such a buffer. -/
theorem fits_iff (hok : ¬Refused cwd path) : Fits 255 cwd path ↔
    (isPathRelative path = true → cwd ≠ [] → path.length + cwd.length + 2 ≠ 256) ∧
      (isPathRelative path = false → numSlashes path + path.length ≤ 254) := by
  unfold Fits
  split_ifs with hrel
  · have hle : cwd ≠ [] → path.length + cwd.length + 2 ≤ 256 := fun hne =>
      Nat.le_of_not_lt fun h => hok ⟨hrel, hne, h⟩
    constructor
    · rintro (hnil | hsize)
      · exact ⟨fun _ hne => absurd hnil hne, fun hfalse => by simp [hrel] at hfalse⟩
      · exact ⟨fun _ _ => by omega, fun hfalse => by simp [hrel] at hfalse⟩
    · rintro ⟨hsum, -⟩
      by_cases hnil : cwd = []
      · exact Or.inl hnil
      · have hne := hsum hrel hnil
        have hsum := hle hnil
        exact Or.inr (by omega)
  · constructor
    · exact fun h => ⟨fun htrue => absurd htrue hrel, fun _ => by omega⟩
    · exact fun h => Nat.succ_le_succ (h.2 (Bool.not_eq_true _ ▸ hrel))

theorem combined_fits (hlen : path.length ≤ 254) (hfits : Fits 255 cwd path) :
    (combined cwd path).length + 1 ≤ 255 := by
  by_cases h : isPathRelative path = true ∧ cwd ≠ []
  · rw [length_combined h.1 h.2]
    rw [Fits, if_pos h.1] at hfits
    exact hfits.resolve_left h.2
  · rw [combined, if_neg h]
    omega

/-- **A buffer of 255 bytes**, as the operations of the file system have it. `PreparePath` of an accepted path
stays inside of the buffer and of the stack, and refuses a path exactly if it does not fit with its
terminator, if and only if the terminator of a relative path does not land right behind the buffer, and the
leading slashes of an absolute one fit beside the whole path. -/
theorem pathBuffer_bounded (hsrc : UserString src path)
    (haccepts : ∃ b₀, kpathcpyUsersafe 255 src b = some (some b₀)) (hcwd : nul ∉ cwd) :
    (∃ r, preparePath 255 cwd src b = some r ∧
        (r = .error .pathTooLong ↔ 255 < (combined cwd path).length + 1)) ↔
      (isPathRelative path = true → cwd ≠ [] → path.length + cwd.length + 2 ≠ 256) ∧
        (isPathRelative path = false → numSlashes path + path.length ≤ 254) := by
  obtain ⟨b₀, hb₀⟩ := haccepts
  have hlen := kpathcpyUsersafe_accepts hsrc hb₀
  by_cases hok : Refused cwd path
  · have hrefused := @preparePath_refused 255 b path cwd src hsrc hlen le_rfl hok
    obtain ⟨hrel, hne, hsum⟩ := hok
    refine iff_of_true ⟨_, hrefused, ?_⟩ ⟨fun _ _ => by omega, fun hfalse => ?_⟩
    · rw [length_combined hrel hne]
      exact iff_of_true rfl (by omega)
    · rw [hrel] at hfalse
      cases hfalse
  · rw [← fits_iff hok]
    by_cases hfits : Fits 255 cwd path
    · obtain ⟨b', hb', -⟩ := @preparePath_ok 255 b path cwd src hsrc hlen le_rfl hcwd hok hfits
      have hle := combined_fits hlen hfits
      refine iff_of_true ⟨_, hb', iff_of_false (fun h => ?_) (by omega)⟩ hfits
      cases h
    · rw [preparePath_none hsrc hlen le_rfl hok hfits]
      refine iff_of_false ?_ hfits
      rintro ⟨r, hr, -⟩
      cases hr

theorem pathBuffer_bounded_slash :
    ∃ r, preparePath 255 [] (userCopy ['/']) (fun _ => nul) = some r ∧
      (r = .error .pathTooLong ↔ 255 < (combined [] ['/']).length + 1) :=
  (@pathBuffer_bounded (fun _ => nul) ['/'] [] _ (userString_userCopy (by decide)) ⟨_, rfl⟩ (by decide)).2
    (by decide)

/-- The terminator of a relative path is written right behind the buffer, and the slash of a long absolute
one makes the copy read there. -/
theorem preparePath_overflows :
    preparePath 255 ['b'] (userCopy (List.replicate 253 'a')) (fun _ => nul) = none ∧
      preparePath 255 [] (userCopy ('/' :: List.replicate 253 'a')) (fun _ => nul) = none := by
  have hclean : nul ∉ List.replicate 253 'a' := fun h => absurd (List.eq_of_mem_replicate h) (by decide)
  have hrelative : isPathRelative (List.replicate 253 'a') = true := rfl
  have hlen : (List.replicate 253 'a').length = 253 := List.length_replicate
  generalize List.replicate 253 'a' = name at hclean hrelative hlen ⊢
  constructor
  · refine preparePath_none (userString_userCopy hclean) (by omega) le_rfl ?_ ?_
    · rintro ⟨-, -, hsum⟩
      simp [hlen] at hsum
    · rw [Fits, if_pos hrelative]
      simp [hlen]
  · refine preparePath_none (userString_userCopy fun h => ?_) (by simp [hlen]) le_rfl ?_ ?_
    · rcases List.mem_cons.1 h with he | h
      · exact absurd he (by decide)
      · exact hclean h
    · rintro ⟨-, hne, -⟩
      exact hne rfl
    · rw [Fits, if_neg (by simp [isPathRelative])]
      simp [numSlashes, hlen]

end ChenixOS.VFS.PathBuffer
