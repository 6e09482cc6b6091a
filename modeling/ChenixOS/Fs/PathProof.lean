import ChenixOS.Fs.State
import Mathlib.Data.List.TakeWhile

/-!
# Facts about path strings

How the functions that take a path apart agree with each other: a lookup goes by the first
component of a path, `GetFileName` gives the last one, and a path that `PreparePath` made does not
end in a slash.
-/

namespace ChenixOS.VFS

variable {path name rest buffer : Str} {id : Nat}

/-! ## Components -/

theorem slash_not_mem_component (path : Str) : '/' ∉ component path := by
  intro hmem
  have hne := List.mem_takeWhile_imp hmem
  simp at hne

/-- A path is its first component, alone or with a slash and the rest behind it. -/
theorem component_cases (path : Str) :
    path = component path ∨ ∃ rest, path = component path ++ '/' :: rest := by
  induction path with
  | nil => exact Or.inl rfl
  | cons c path ih =>
    by_cases hc : c = '/'
    · subst hc
      exact Or.inr ⟨path, rfl⟩
    · have hcomp : component (c :: path) = c :: component path := by simp [component, hc]
      rw [hcomp]
      rcases ih with ih | ⟨rest, ih⟩
      · exact Or.inl (congrArg (c :: ·) ih)
      · exact Or.inr ⟨rest, congrArg (c :: ·) ih⟩

theorem component_eq_self (h : '/' ∉ path) : component path = path := by
  refine List.takeWhile_eq_self_iff.2 fun c hc => ?_
  have hne : c ≠ '/' := fun hslash => h (hslash ▸ hc)
  simpa using hne

theorem component_append (h : '/' ∉ name) : component (name ++ '/' :: rest) = name := by
  have hall : ∀ c ∈ name, decide (c ≠ '/') = true := by
    intro c hc
    have hne : c ≠ '/' := fun hslash => h (hslash ▸ hc)
    simpa using hne
  unfold component
  rw [List.takeWhile_append_of_pos hall]
  simp

/-! ## `PathWalk` -/

theorem pathWalk_self (name : Str) : pathWalk name name = some [] := by
  induction name with
  | nil => rfl
  | cons c name ih => simpa [pathWalk] using ih

theorem pathWalk_append (name rest : Str) : pathWalk (name ++ '/' :: rest) name = some rest := by
  induction name with
  | nil => rfl
  | cons c name ih => simpa [pathWalk] using ih

theorem pathWalk_cases (h : pathWalk path name = some rest) :
    path = name ∧ rest = [] ∨ path = name ++ '/' :: rest := by
  induction name generalizing path with
  | nil =>
    cases path with
    | nil =>
      simp only [pathWalk, Option.some.injEq] at h
      exact Or.inl ⟨rfl, h.symm⟩
    | cons c path =>
      by_cases hc : c = '/'
      · subst hc
        simp only [pathWalk, Option.some.injEq] at h
        exact Or.inr (by rw [h]; rfl)
      · rw [pathWalk.eq_3] at h
        · cases h
        · rintro rfl
          exact hc rfl
  | cons e name ih =>
    cases path with
    | nil => cases h
    | cons c path =>
      simp only [pathWalk] at h
      split_ifs at h with hc
      have hec : e = c := not_not.1 hc
      subst hec
      rcases ih h with ⟨rfl, rfl⟩ | heq
      · exact Or.inl ⟨rfl, rfl⟩
      · exact Or.inr (by rw [heq]; rfl)

/-- An entry matches a path exactly if its name is the first component. -/
theorem pathWalk_component (h : pathWalk path name = some rest) (hslash : '/' ∉ name) :
    component path = name := by
  rcases pathWalk_cases h with ⟨rfl, -⟩ | rfl
  · exact component_eq_self hslash
  · exact component_append hslash

theorem exists_pathWalk (path : Str) : ∃ rest, pathWalk path (component path) = some rest := by
  rcases component_cases path with h | ⟨rest, h⟩
  · exact ⟨[], by rw [← h]; exact pathWalk_self path⟩
  · refine ⟨rest, ?_⟩
    conv_lhs =>
      arg 1
      rw [h]
    exact pathWalk_append _ _

/-- What is left is shorter. -/
theorem length_lt_of_pathWalk (h : pathWalk path name = some rest) (hne : name ≠ []) :
    rest.length < path.length := by
  have hpos : 0 < name.length := List.length_pos_iff.2 hne
  rcases pathWalk_cases h with ⟨rfl, rfl⟩ | rfl
  · simpa using hpos
  · simp only [List.length_append, List.length_cons]
    omega

/-! ## The loop over a directory -/

theorem findEntry_some {entries : List DirectoryEntry}
    (h : Directory.findEntry path entries = some (id, rest)) :
    ∃ e ∈ entries, e.nodeID = id ∧ pathWalk path e.name = some rest := by
  induction entries with
  | nil => cases h
  | cons e entries ih =>
    unfold Directory.findEntry at h
    cases hwalk : pathWalk path e.name with
    | none =>
      simp only [hwalk] at h
      obtain ⟨e', he', hid, hw⟩ := ih h
      exact ⟨e', List.mem_cons_of_mem e he', hid, hw⟩
    | some rest' =>
      simp only [hwalk, Option.some.injEq, Prod.mk.injEq] at h
      exact ⟨e, List.mem_cons_self, h.1, by rw [hwalk, h.2]⟩

theorem findEntry_none {entries : List DirectoryEntry}
    (h : Directory.findEntry path entries = none) :
    ∀ e ∈ entries, pathWalk path e.name = none := by
  induction entries with
  | nil => simp
  | cons e entries ih =>
    unfold Directory.findEntry at h
    cases hwalk : pathWalk path e.name with
    | none =>
      simp only [hwalk] at h
      intro e' he'
      rcases List.mem_cons.1 he' with rfl | he'
      · exact hwalk
      · exact ih h e' he'
    | some rest' => simp [hwalk] at h

/-! ## Parts of a buffer -/

/-- `path` is what is left of `buffer` behind a slash, or all of it. -/
def TailOf (buffer path : Str) : Prop :=
  ∃ pre, buffer = pre ++ path ∧ (pre = [] ∨ ∃ pre', pre = pre' ++ ['/'])

theorem TailOf.refl (buffer : Str) : TailOf buffer buffer := ⟨[], rfl, Or.inl rfl⟩

theorem TailOf.pathWalk (h : TailOf buffer path) (hw : pathWalk path name = some rest)
    (hne : rest ≠ []) : TailOf buffer rest := by
  obtain ⟨pre, rfl, -⟩ := h
  rcases pathWalk_cases hw with ⟨-, rfl⟩ | rfl
  · exact absurd rfl hne
  · exact ⟨pre ++ name ++ ['/'], by simp, Or.inr ⟨pre ++ name, rfl⟩⟩

theorem getFileName_eq_self (h : '/' ∉ name) : getFileName name = name := by
  cases name with
  | nil => rfl
  | cons c name =>
    have hc : c ≠ '/' := fun hc => h (by simp [hc])
    have hname : '/' ∉ name := fun hmem => h (List.mem_cons_of_mem c hmem)
    simp [getFileName, hname, hc]

theorem getFileName_append (pre : Str) (h : '/' ∉ name) :
    getFileName (pre ++ '/' :: name) = name := by
  induction pre with
  | nil => simp [getFileName, h]
  | cons c pre ih => simpa [getFileName] using ih

/-- `GetFileName` of a buffer is its last component. -/
theorem TailOf.getFileName (h : TailOf buffer name) (hslash : '/' ∉ name) :
    getFileName buffer = name := by
  obtain ⟨pre, rfl, rfl | ⟨pre', rfl⟩⟩ := h
  · exact getFileName_eq_self hslash
  · rw [List.append_assoc]
    exact getFileName_append pre' hslash

/-- The path does not end in a slash. -/
def NoTrailing (path : Str) : Prop := path.getLast? ≠ some '/'

theorem NoTrailing.of_append {pre : Str} (h : NoTrailing (pre ++ path)) : NoTrailing path := by
  unfold NoTrailing at h ⊢
  rw [List.getLast?_append] at h
  intro hlast
  rw [hlast] at h
  exact h rfl

theorem NoTrailing.append {pre : Str} (h : NoTrailing path) (hne : path ≠ []) :
    NoTrailing (pre ++ path) := by
  unfold NoTrailing at h ⊢
  rw [List.getLast?_append]
  cases hlast : path.getLast? with
  | none => exact absurd (List.getLast?_eq_none_iff.1 hlast) hne
  | some c =>
    rw [hlast] at h
    simpa using h

/-- A buffer that does not end in a slash: when nothing is left, the name is the last one. -/
theorem TailOf.last (h : TailOf buffer path) (hbuf : NoTrailing buffer)
    (hw : VFS.pathWalk path name = some []) (hslash : '/' ∉ name) :
    VFS.getFileName buffer = name := by
  rcases pathWalk_cases hw with ⟨rfl, -⟩ | heq
  · exact h.getFileName hslash
  · obtain ⟨pre, rfl, -⟩ := h
    have hnt := hbuf.of_append
    rw [heq] at hnt
    exact absurd (by simp) hnt

/-! ## Mount paths -/

theorem mountCmp_iff {mount : Str} :
    mountCmp path mount = true ↔ path = mount ∨ ∃ rest, path = mount ++ '/' :: rest := by
  induction mount generalizing path with
  | nil =>
    cases path with
    | nil => simp [mountCmp]
    | cons c path => simp [mountCmp]
  | cons e mount ih =>
    cases path with
    | nil => simp [mountCmp]
    | cons c path =>
      simp only [mountCmp, ne_eq]
      by_cases hc : e = c
      · subst hc
        simp [ih]
      · simp [hc, Ne.symm hc]

/-- The path behind a mount's own is empty or a tail of the buffer. -/
theorem advancePath_tail {mount : Str} (h : mount = [] ∨ mountCmp buffer mount = true) :
    advancePath buffer mount = [] ∨ TailOf buffer (advancePath buffer mount) := by
  have hskip : ∀ pre rest : Str, buffer = pre ++ rest → (pre = [] ∨ rest = [] ∨ rest.head? = some '/') →
      skipSlash rest = [] ∨ TailOf buffer (skipSlash rest) := by
    intro pre rest hbuf hor
    cases rest with
    | nil => exact Or.inl rfl
    | cons c rest =>
      by_cases hc : c = '/'
      · subst hc
        exact Or.inr ⟨pre ++ ['/'], by simpa [skipSlash] using hbuf, Or.inr ⟨pre, rfl⟩⟩
      · have hself : skipSlash (c :: rest) = c :: rest := by
          rw [skipSlash.eq_2]
          rintro _ heq
          exact hc (List.cons.inj heq).1
        rw [hself]
        rcases hor with rfl | hnil | hhead
        · exact Or.inr ⟨[], hbuf, Or.inl rfl⟩
        · cases hnil
        · simp only [List.head?_cons, Option.some.injEq] at hhead
          exact absurd hhead hc
  unfold advancePath
  rcases h with rfl | h
  · exact hskip [] buffer rfl (Or.inl rfl)
  · rcases mountCmp_iff.1 h with rfl | ⟨rest, rfl⟩
    · left
      simp [skipSlash]
    · refine hskip mount _ ?_ ?_
      · simp
      · simp

/-! ## What `PreparePath` makes -/

/-- Write a slash and the name for each name that is not empty. -/
def joinSlash (names : List Str) : Str := (names.filter (· ≠ [])).flatMap ('/' :: ·)

@[simp] theorem joinSlash_nil : joinSlash [] = [] := rfl

@[simp] theorem joinSlash_cons_nil (names : List Str) : joinSlash ([] :: names) = joinSlash names := by
  simp [joinSlash]

@[simp] theorem joinSlash_cons {c : Char} {names : List Str} :
    joinSlash ((c :: name) :: names) = '/' :: c :: (name ++ joinSlash names) := by
  simp [joinSlash]

theorem intercalate_eq_joinSlash (name : Str) {names : List Str} (h : ∀ x ∈ names, x ≠ []) :
    List.intercalate ['/'] (name :: names) = name ++ joinSlash names := by
  induction names generalizing name with
  | nil => simp
  | cons x names ih =>
    have hx : x ≠ [] := h x List.mem_cons_self
    have hrec := ih x fun y hy => h y (List.mem_cons_of_mem x hy)
    obtain ⟨c, x', rfl⟩ := List.exists_cons_of_ne_nil hx
    rw [List.intercalate_cons_cons, hrec]
    simp

theorem joinSlash_filter (names : List Str) :
    joinSlash (names.filter (· ≠ [])) = joinSlash names := by
  simp [joinSlash, List.filter_filter]

/-- The names between the slashes, taken apart at the first character. -/
theorem splitOn_cons (c : Char) (path : Str) :
    ∃ name names, path.splitOn '/' = name :: names ∧
      (c :: path).splitOn '/' = if c = '/' then [] :: name :: names else (c :: name) :: names := by
  obtain ⟨name, names, heq⟩ := List.exists_cons_of_ne_nil (List.splitOn_ne_nil '/' path)
  refine ⟨name, names, heq, ?_⟩
  rw [List.splitOn_cons_eq_if_modifyHead, heq]
  by_cases hc : c = '/'
  · simp [hc]
  · simp [hc]

/-- Without its last character, if there is a slash in excess. -/
def stripLast (out : Str) (lastWasSlash : Bool) : Str := if lastWasSlash then out.dropLast else out

theorem squeezeSlashes_ne_nil (h : (squeezeSlashes false path).2 = true) :
    (squeezeSlashes false path).1 ≠ [] := by
  cases path with
  | nil => cases h
  | cons c path =>
    by_cases hc : c = '/'
    · simp [squeezeSlashes, hc]
    · simp [squeezeSlashes, hc]

theorem stripLast_cons (c : Char) {out : Str} {last : Bool} (h : last = true → out ≠ []) :
    stripLast (c :: out) last = c :: stripLast out last := by
  cases last with
  | false => rfl
  | true => exact List.dropLast_cons_of_ne_nil (h rfl)

/-- The loop over the slashes, started behind a slash or not. -/
theorem stripLast_squeezeSlashes (path : Str) :
    ∃ name names, path.splitOn '/' = name :: names ∧
      stripLast (squeezeSlashes false path).1 (squeezeSlashes false path).2 =
        name ++ joinSlash names ∧
      stripLast ('/' :: (squeezeSlashes true path).1) (squeezeSlashes true path).2 =
        joinSlash (name :: names) := by
  induction path with
  | nil => exact ⟨[], [], rfl, rfl, rfl⟩
  | cons c path ih =>
    obtain ⟨name, names, hsplit, hfalse, htrue⟩ := ih
    obtain ⟨name', names', hsplit', hcons⟩ := splitOn_cons c path
    obtain ⟨rfl, rfl⟩ : name = name' ∧ names = names' := by
      simpa using hsplit.symm.trans hsplit'
    by_cases hc : c = '/'
    · subst hc
      rw [if_pos rfl] at hcons
      exact ⟨[], name :: names, hcons, by simpa [squeezeSlashes] using htrue,
        by simpa [squeezeSlashes] using htrue⟩
    · rw [if_neg hc] at hcons
      have hstep : stripLast (c :: (squeezeSlashes false path).1) (squeezeSlashes false path).2 =
          c :: (name ++ joinSlash names) := by
        rw [stripLast_cons c squeezeSlashes_ne_nil, hfalse]
      refine ⟨c :: name, names, hcons, by simpa [squeezeSlashes, hc] using hstep, ?_⟩
      simp only [squeezeSlashes, hc, if_false, joinSlash_cons]
      rw [stripLast_cons '/' (fun _ => List.cons_ne_nil _ _), hstep]

theorem slash_not_mem_splitOn {x : Str} (h : x ∈ path.splitOn '/') : '/' ∉ x := by
  induction path generalizing x with
  | nil =>
    obtain rfl : x = [] := by simpa using h
    simp
  | cons c path ih =>
    obtain ⟨name, names, hsplit, hcons⟩ := splitOn_cons c path
    have hname : '/' ∉ name := ih (hsplit ▸ List.mem_cons_self)
    have hnames : ∀ y ∈ names, '/' ∉ y := fun y hy => ih (hsplit ▸ List.mem_cons_of_mem name hy)
    rw [hcons] at h
    by_cases hc : c = '/'
    · rw [if_pos hc] at h
      rcases List.mem_cons.1 h with rfl | h
      · simp
      · rcases List.mem_cons.1 h with rfl | h
        · exact hname
        · exact hnames x h
    · rw [if_neg hc] at h
      rcases List.mem_cons.1 h with rfl | h
      · simp [hname, Ne.symm hc]
      · exact hnames x h

theorem normalizeStack_sublist (done todo : List Str) :
    (normalizeStack done todo).Sublist (done.reverse ++ todo) := by
  induction todo generalizing done with
  | nil => simp [normalizeStack]
  | cons dir todo ih =>
    have hskip : (done.reverse ++ todo).Sublist (done.reverse ++ dir :: todo) :=
      (List.sublist_cons_self dir todo).append_left done.reverse
    unfold normalizeStack
    split_ifs with hdot hdots
    · exact (ih done).trans hskip
    · cases done with
      | nil => exact (ih []).trans hskip
      | cons top done =>
        refine (ih done).trans (List.Sublist.trans ?_ hskip)
        rw [List.reverse_cons, List.append_assoc]
        exact (List.sublist_append_right [top] todo).append_left done.reverse
    · simpa using ih (dir :: done)

theorem mem_normalizeStack {done todo : List Str} {x : Str} (h : x ∈ normalizeStack done todo) :
    x ∈ done ∨ x ∈ todo ∧ x ≠ ['.'] ∧ x ≠ ['.', '.'] := by
  induction todo generalizing done with
  | nil => exact Or.inl (by simpa [normalizeStack] using h)
  | cons dir todo ih =>
    unfold normalizeStack at h
    split_ifs at h with hdot hdots
    · exact (ih h).imp_right fun ⟨hmem, hx⟩ => ⟨List.mem_cons_of_mem dir hmem, hx⟩
    · cases done with
      | nil => exact (ih h).imp_right fun ⟨hmem, hx⟩ => ⟨List.mem_cons_of_mem dir hmem, hx⟩
      | cons top done =>
        rcases ih h with hmem | ⟨hmem, hx⟩
        · exact Or.inl (List.mem_cons_of_mem top hmem)
        · exact Or.inr ⟨List.mem_cons_of_mem dir hmem, hx⟩
    · rcases ih h with hmem | ⟨hmem, hx⟩
      · rcases List.mem_cons.1 hmem with rfl | hmem
        · exact Or.inr ⟨List.mem_cons_self, hdot, hdots⟩
        · exact Or.inl hmem
      · exact Or.inr ⟨List.mem_cons_of_mem dir hmem, hx⟩

/-- `normalizePath` gets the first name and, of the others, those that are not empty. -/
theorem normalizePath_squeezeSlashes (absolute : Str) :
    ∃ name names, absolute.splitOn '/' = name :: names ∧
      normalizePath (stripLast (squeezeSlashes false absolute).1 (squeezeSlashes false absolute).2) =
        List.intercalate ['/'] (normalizeStack [] (name :: names.filter (· ≠ []))) := by
  obtain ⟨name, names, hsplit, hstrip, -⟩ := stripLast_squeezeSlashes absolute
  refine ⟨name, names, hsplit, ?_⟩
  have hjoin : name ++ joinSlash names =
      List.intercalate ['/'] (name :: names.filter (· ≠ [])) := by
    rw [intercalate_eq_joinSlash name (by simp), joinSlash_filter]
  have hslash : ∀ x ∈ name :: names.filter (· ≠ []), '/' ∉ x := by
    intro x hx
    refine @slash_not_mem_splitOn absolute x ?_
    rw [hsplit]
    rcases List.mem_cons.1 hx with rfl | hx
    · exact List.mem_cons_self
    · exact List.mem_cons_of_mem name (List.mem_of_mem_filter hx)
  unfold normalizePath
  rw [hstrip, hjoin, List.splitOn_intercalate '/' hslash (List.cons_ne_nil _ _)]

theorem preparePath_eq {bufSize : Nat} {cwd : Str} {userPath : Option Str}
    (h : preparePath bufSize cwd userPath = .ok (.ok buffer)) :
    ∃ absolute : Str, (absolute.head? = some '/' → cwd.head? = some '/') ∧
      buffer = normalizePath
        (stripLast (squeezeSlashes false absolute).1 (squeezeSlashes false absolute).2) := by
  unfold preparePath at h
  cases hcpy : kpathcpyUsersafe userPath with
  | none =>
    rw [hcpy] at h
    cases h
  | some path =>
    simp only [hcpy] at h
    by_cases hrel : isPathRelative path = true
    · rw [if_pos hrel] at h
      unfold prepareRelativePath at h
      split_ifs at h with hcwd
      · cases h
        refine ⟨path, fun hhead => ?_, rfl⟩
        simp [isPathRelative, hhead] at hrel
      · cases h
      · cases h
      · cases h
        refine ⟨cwd ++ '/' :: path, fun hhead => ?_, rfl⟩
        cases cwd with
        | nil => exact absurd rfl hcwd
        | cons c cwd => exact hhead
    · rw [if_neg hrel] at h
      cases h
      refine ⟨prepareAbsolutePath path, fun hhead => ?_, rfl⟩
      have hdrop := List.head?_dropWhile_not (fun c => decide (c = '/')) path
      simp only [prepareAbsolutePath] at hhead
      rw [hhead] at hdrop
      simp at hdrop

/-- The names that `PreparePath` writes. Only the first can be empty; with others behind it this
happens only when `cwd` begins with a slash. -/
theorem preparePath_names {bufSize : Nat} {cwd : Str} {userPath : Option Str}
    (h : preparePath bufSize cwd userPath = .ok (.ok buffer)) :
    ∃ names, buffer = List.intercalate ['/'] names ∧
      (∀ x ∈ names, '/' ∉ x ∧ x ≠ ['.'] ∧ x ≠ ['.', '.']) ∧
      ((∀ x ∈ names, x ≠ []) ∨ ∃ tail, names = [] :: tail ∧ (∀ x ∈ tail, x ≠ []) ∧
        (tail ≠ [] → cwd.head? = some '/')) := by
  obtain ⟨absolute, hhead, rfl⟩ := preparePath_eq h
  obtain ⟨name, names, hsplit, hnorm⟩ := normalizePath_squeezeSlashes absolute
  refine ⟨_, hnorm, fun x hx => ?_, ?_⟩
  · rcases mem_normalizeStack hx with hmem | ⟨hmem, hdot, hdots⟩
    · cases hmem
    · refine ⟨@slash_not_mem_splitOn absolute x ?_, hdot, hdots⟩
      rw [hsplit]
      rcases List.mem_cons.1 hmem with rfl | hmem
      · exact List.mem_cons_self
      · exact List.mem_cons_of_mem name (List.mem_of_mem_filter hmem)
  · have hsub := normalizeStack_sublist [] (name :: names.filter (· ≠ []))
    rw [List.reverse_nil, List.nil_append] at hsub
    have hfilter : ∀ x ∈ names.filter (· ≠ []), x ≠ [] := fun x hx => by
      simpa using List.of_mem_filter hx
    rcases List.sublist_cons_iff.1 hsub with hrest | ⟨tail, htail, hrest⟩
    · exact Or.inl fun x hx => hfilter x (hrest.subset hx)
    · rw [htail]
      by_cases hname : name = []
      · subst hname
        refine Or.inr ⟨tail, rfl, fun x hx => hfilter x (hrest.subset hx), fun hne => hhead ?_⟩
        have hnames : names ≠ [] := by
          rintro rfl
          exact hne (List.sublist_nil.1 hrest)
        have hjoin : ['/'].intercalate (absolute.splitOn '/') = absolute :=
          List.intercalate_splitOn '/'
        rw [← hjoin, hsplit, List.intercalate_cons_of_ne_nil hnames]
        rfl
      · refine Or.inl fun x hx => ?_
        rcases List.mem_cons.1 hx with rfl | hx
        · exact hname
        · exact hfilter x (hrest.subset hx)

/-- The last name ends the path. -/
theorem noTrailing_intercalate {names : List Str} (hslash : ∀ x ∈ names, '/' ∉ x)
    (hne : ∀ x ∈ names.tail, x ≠ []) : NoTrailing (List.intercalate ['/'] names) := by
  have hlast : ∀ x : Str, '/' ∉ x → NoTrailing x := fun x hx hl =>
    hx (List.mem_of_getLast? hl)
  induction names with
  | nil => simp [NoTrailing]
  | cons name names ih =>
    cases names with
    | nil =>
      rw [List.intercalate_singleton]
      exact hlast name (hslash name List.mem_cons_self)
    | cons x names =>
      have htail : ∀ y ∈ names, y ≠ [] := fun y hy => hne y (List.mem_cons_of_mem x hy)
      have hrec := ih (fun y hy => hslash y (List.mem_cons_of_mem name hy)) htail
      rw [List.intercalate_cons_cons]
      refine hrec.append ?_
      have hx : x ≠ [] := hne x List.mem_cons_self
      rw [intercalate_eq_joinSlash x htail]
      exact List.append_ne_nil_of_left_ne_nil hx _

/-- **A path that `PreparePath` made does not end in a slash.** -/
theorem preparePath_noTrailing {bufSize : Nat} {cwd : Str} {userPath : Option Str}
    (h : preparePath bufSize cwd userPath = .ok (.ok buffer)) : NoTrailing buffer := by
  obtain ⟨names, rfl, hslash, hor⟩ := preparePath_names h
  refine noTrailing_intercalate (fun x hx => (hslash x hx).1) fun x hx => ?_
  rcases hor with hall | ⟨tail, rfl, hall, -⟩
  · exact hall x (List.mem_of_mem_tail hx)
  · exact hall x hx

/-! ## Canonical paths -/

/-- A name as it may stand in a canonical path. -/
structure IsName (name : Str) : Prop where
  ne_nil : name ≠ []
  noSlash : '/' ∉ name
  ne_dot : name ≠ ['.']
  ne_dots : name ≠ ['.', '.']

/-- Names separated by single slashes, without a slash at either end. -/
def Canonical (path : Str) : Prop :=
  ∃ names, path = List.intercalate ['/'] names ∧ ∀ x ∈ names, IsName x

theorem canonical_nil : Canonical [] := ⟨[], rfl, by simp⟩

/-- **`PreparePath` canonicalises**, unless the working directory begins with a slash. -/
theorem preparePath_canonical {bufSize : Nat} {cwd : Str} {userPath : Option Str}
    (h : preparePath bufSize cwd userPath = .ok (.ok buffer)) (hcwd : cwd.head? ≠ some '/') :
    Canonical buffer := by
  obtain ⟨names, rfl, hslash, hor⟩ := preparePath_names h
  rcases hor with hall | ⟨tail, rfl, -, htail⟩
  · refine ⟨names, rfl, fun x hx => ?_⟩
    obtain ⟨hns, hdot, hdots⟩ := hslash x hx
    exact ⟨hall x hx, hns, hdot, hdots⟩
  · obtain rfl : tail = [] := not_not.1 fun hne => hcwd (htail hne)
    rw [List.intercalate_singleton]
    exact canonical_nil

end ChenixOS.VFS
