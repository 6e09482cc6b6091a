import Mathlib.Data.Finset.Union
import Mathlib.Data.Finset.Range
import Mathlib.Data.List.Flatten
import Mathlib.Data.List.Nodup
import Mathlib.Data.List.Range

/-!
# Radix trees given by their edges

A radix tree of width `w` is kept in some storage as tables of `w` slots, each empty or naming a
table of the next level; the tables of the last level name leaves. All that matters here is the
function `child`, from a table and a slot to what the slot names. Nothing makes this a tree by
itself: that no table is named twice is `Nodup (nodes …)`.

`collect` lists the tables of the tree of height `n` at `t` with some list for each leaf: `nodes`
are the tables and leaves, `tables` the tables alone. Filling an empty slot adds the nodes of the
new subtree and no others, and a walk sees the new entry only along the one path that leads there.
-/

namespace ChenixOS.Radix

variable {T : Type} {w : Nat} {child child' : T → Nat → Option T} {n m i : Nat}
  {t c root x : T} {ks : List Nat}

/-! ## Definitions -/

/-- Follow a path of slots. -/
def walk (child : T → Nat → Option T) : T → List Nat → Option T
  | t, [] => some t
  | t, i :: ks => (child t i).bind fun c => walk child c ks

/-- The tables of the tree of height `n` at `t`, with `leaf` of each leaf. -/
def collect (w : Nat) (child : T → Nat → Option T) (leaf : T → List T) : Nat → T → List T
  | 0, t => leaf t
  | n + 1, t => t :: (List.range w).flatMap fun i => (child t i).elim [] (collect w child leaf n)

/-- The tables and leaves of the tree of height `n` at `t`. -/
abbrev nodes (w : Nat) (child : T → Nat → Option T) : Nat → T → List T :=
  collect w child fun t => [t]

/-- The tables of the tree of height `n` at `t`. -/
abbrev tables (w : Nat) (child : T → Nat → Option T) : Nat → T → List T :=
  collect w child fun _ => []

@[simp] theorem walk_nil : walk child t [] = some t := rfl

theorem walk_append (ks js : List Nat) :
    walk child t (ks ++ js) = (walk child t ks).bind fun c => walk child c js := by
  induction ks generalizing t with
  | nil => rfl
  | cons i ks ih =>
    rw [List.cons_append, walk, walk, Option.bind_assoc]
    exact Option.bind_congr fun c _ => ih

/-! ## Membership -/

theorem tables_sublist : (tables w child n t).Sublist (nodes w child n t) := by
  induction n generalizing t with
  | zero => exact List.nil_sublist _
  | succ n ih =>
    refine List.Sublist.cons_cons t (List.Sublist.flatMap_right _ fun i _ => ?_)
    cases child t i with
    | none => exact List.nil_sublist _
    | some c => exact ih

/-- A walk that ends above the leaves ends at a table. -/
theorem mem_tables_of_walk (hw : walk child t ks = some x) (hks : ∀ k ∈ ks, k < w)
    (hlen : ks.length < n) : x ∈ tables w child n t := by
  induction ks generalizing t n with
  | nil =>
    obtain ⟨n, rfl⟩ := Nat.exists_eq_succ_of_ne_zero (by omega : n ≠ 0)
    obtain rfl := Option.some.inj hw
    exact List.mem_cons_self
  | cons k ks ih =>
    obtain ⟨n, rfl⟩ := Nat.exists_eq_succ_of_ne_zero (by omega : n ≠ 0)
    obtain ⟨c, hc, hw⟩ := Option.bind_eq_some_iff.1 hw
    have hx := ih hw (fun j hj => hks j (List.mem_cons_of_mem _ hj)) (by simpa using hlen)
    refine List.mem_cons_of_mem _ (List.mem_flatMap.2 ⟨k, ?_, ?_⟩)
    · exact List.mem_range.2 (hks k (by simp))
    · simpa [hc] using hx

/-- A walk of the whole height ends at a leaf. -/
theorem mem_nodes_of_walk (hw : walk child t ks = some x) (hks : ∀ k ∈ ks, k < w)
    (hlen : ks.length ≤ n) : x ∈ nodes w child n t := by
  induction ks generalizing t n with
  | nil =>
    obtain rfl := Option.some.inj hw
    cases n with
    | zero => exact List.mem_singleton.2 rfl
    | succ n => exact List.mem_cons_self
  | cons k ks ih =>
    obtain ⟨n, rfl⟩ := Nat.exists_eq_succ_of_ne_zero (by simp at hlen; omega : n ≠ 0)
    obtain ⟨c, hc, hw⟩ := Option.bind_eq_some_iff.1 hw
    have hx := ih hw (fun j hj => hks j (List.mem_cons_of_mem _ hj)) (by simpa using hlen)
    refine List.mem_cons_of_mem _ (List.mem_flatMap.2 ⟨k, ?_, ?_⟩)
    · exact List.mem_range.2 (hks k (by simp))
    · simpa [hc] using hx

/-- Lists put one after the other without repetition have no common element. -/
theorem disjoint_of_nodup_flatMap {α : Type} {f : Nat → List α} {j k : Nat}
    (h : ((List.range w).flatMap f).Nodup) (hj : j < w) (hk : k < w) (hjk : j ≠ k) :
    (f j).Disjoint (f k) := by
  have : Std.Symm (Function.onFun List.Disjoint f) := ⟨fun _ _ h _ ha hb => h hb ha⟩
  exact (List.nodup_flatMap.1 h).2.forall (List.mem_range.2 hj) (List.mem_range.2 hk) hjk

/-- In a tree without repetitions, a leaf is no table. -/
theorem leaf_not_mem_tables (hnd : (nodes w child n t).Nodup) (hw : walk child t ks = some x)
    (hks : ∀ k ∈ ks, k < w) (hlen : ks.length = n) : x ∉ tables w child n t := by
  induction ks generalizing t n with
  | nil =>
    subst hlen
    simp [tables, collect]
  | cons k ks ih =>
    subst hlen
    obtain ⟨c, hc, hwc⟩ := Option.bind_eq_some_iff.1 hw
    have hk : k < w := hks k (by simp)
    have hks' : ∀ j ∈ ks, j < w := fun j hj => hks j (List.mem_cons_of_mem _ hj)
    have hx := mem_nodes_of_walk hwc hks' le_rfl
    rw [List.length_cons, nodes, collect, List.nodup_cons] at hnd
    have hbelow : ∀ j < w, ∀ y, y ∈ (child t j).elim [] (nodes w child ks.length) →
        y ∈ (List.range w).flatMap fun i => (child t i).elim [] (nodes w child ks.length) :=
      fun j hj y hy => List.mem_flatMap.2 ⟨j, List.mem_range.2 hj, hy⟩
    rw [List.length_cons, tables, collect, List.mem_cons, List.mem_flatMap]
    rintro (rfl | ⟨j, hj, hxj⟩)
    · exact hnd.1 (hbelow k hk _ (by simpa [hc] using hx))
    · rw [List.mem_range] at hj
      by_cases hjk : j = k
      · subst hjk
        have hndc := (List.nodup_flatMap.1 hnd.2).1 j (List.mem_range.2 hj)
        rw [hc] at hndc hxj
        exact ih hndc hwc hks' rfl hxj
      · cases hd : child t j with
        | none => simp [hd] at hxj
        | some d =>
          rw [hd] at hxj
          exact disjoint_of_nodup_flatMap hnd.2 hj hk hjk
            (by simpa [hd] using tables_sublist.subset hxj) (by simpa [hc] using hx)

/-! ## What the nodes depend on -/

/-- The nodes are read from the slots of the tables. -/
theorem collect_congr {leaf : T → List T}
    (h : ∀ x ∈ tables w child n t, ∀ j < w, child' x j = child x j) :
    collect w child' leaf n t = collect w child leaf n t := by
  induction n generalizing t with
  | zero => rfl
  | succ n ih =>
    rw [collect, collect]
    refine congrArg (t :: ·) (List.flatMap_congr fun j hj => ?_)
    rw [h t List.mem_cons_self j (List.mem_range.1 hj)]
    cases hc : child t j with
    | none => rfl
    | some c =>
      refine ih fun x hx => h x (List.mem_cons_of_mem _ (List.mem_flatMap.2 ⟨j, hj, ?_⟩))
      simpa [hc] using hx

/-- A table without entries is the whole tree. -/
theorem nodes_of_empty (h : ∀ j < w, child t j = none) : nodes w child n t = [t] := by
  cases n with
  | zero => rfl
  | succ n =>
    rw [nodes, collect, List.flatMap_eq_nil_iff.2]
    intro j hj
    rw [h j (List.mem_range.1 hj)]
    rfl

/-- A walk is read from the slots of the tables, too. -/
theorem walk_congr (h : ∀ x ∈ tables w child n t, ∀ j < w, child' x j = child x j)
    (hks : ∀ k ∈ ks, k < w) (hlen : ks.length ≤ n) : walk child' t ks = walk child t ks := by
  induction ks generalizing t n with
  | nil => rfl
  | cons k ks ih =>
    obtain ⟨n, rfl⟩ := Nat.exists_eq_succ_of_ne_zero (by simp at hlen; omega : n ≠ 0)
    have hk : k < w := hks k (by simp)
    rw [walk, walk, h t List.mem_cons_self k hk]
    refine Option.bind_congr fun c hc => ih ?_ (fun j hj => hks j (List.mem_cons_of_mem _ hj))
      (by simpa using hlen)
    intro x hx
    refine h x (List.mem_cons_of_mem _ (List.mem_flatMap.2 ⟨k, List.mem_range.2 hk, ?_⟩))
    simpa [hc] using hx

/-! ## Changing a slot -/

/-- Changing one of the lists that are put one after the other. -/
theorem flatMap_perm_of_change {ι α : Type} {l : List ι} {f g : ι → List α} {X Y : List α} {i : ι}
    (hnd : l.Nodup) (hi : i ∈ l) (hne : ∀ j ∈ l, j ≠ i → g j = f j)
    (heq : (g i ++ Y).Perm (f i ++ X)) : (l.flatMap g ++ Y).Perm (l.flatMap f ++ X) := by
  obtain ⟨us, vs, rfl⟩ := List.append_of_mem hi
  rw [List.nodup_middle, List.nodup_cons, List.mem_append, not_or] at hnd
  have hsame : ∀ js : List ι, i ∉ js → (∀ j ∈ js, j ∈ us ++ i :: vs) →
      js.flatMap g = js.flatMap f := by
    intro js hjs hmem
    refine List.flatMap_congr fun j hj => hne j (hmem j hj) ?_
    rintro rfl
    exact hjs hj
  rw [List.flatMap_append, List.flatMap_append, List.flatMap_cons, List.flatMap_cons,
    hsame us hnd.1.1 (fun j hj => by simp [hj]), hsame vs hnd.1.2 (fun j hj => by simp [hj])]
  have hswap : ∀ Z A : List α, (A ++ vs.flatMap f ++ Z).Perm (A ++ Z ++ vs.flatMap f) := by
    intro Z A
    rw [List.append_assoc, List.append_assoc]
    exact List.Perm.append_left _ List.perm_append_comm
  rw [List.append_assoc (us.flatMap f), List.append_assoc (us.flatMap f)]
  refine List.Perm.append_left _ ?_
  exact (hswap Y (g i)).trans ((heq.append_right _).trans (hswap X (f i)).symm)

/-- Below a root without repetitions, what two slots lead to is different, and none of it is the
root. -/
theorem collect_below {leaf : T → List T} (hnd : (collect w child leaf (n + 1) root).Nodup) {j : Nat}
    (hj : j < w) {e : T} (he : child root j = some e) :
    (collect w child leaf n e).Nodup ∧
    (∀ x ∈ collect w child leaf n e, x ∈ collect w child leaf (n + 1) root) ∧
    (∀ x ∈ collect w child leaf n e, x ≠ root) ∧
    ∀ k < w, j ≠ k → ∀ d, child root k = some d → ∀ x ∈ collect w child leaf n e,
      x ∉ collect w child leaf n d := by
  rw [collect, List.nodup_cons] at hnd
  obtain ⟨hroot, hbelow⟩ := hnd
  have hin : ∀ x ∈ collect w child leaf n e,
      x ∈ (List.range w).flatMap fun i => (child root i).elim [] (collect w child leaf n) :=
    fun x hx => List.mem_flatMap.2 ⟨j, List.mem_range.2 hj, by simpa [he] using hx⟩
  refine ⟨?_, fun x hx => List.mem_cons_of_mem _ (hin x hx), ?_, ?_⟩
  · simpa [he] using (List.nodup_flatMap.1 hbelow).1 j (List.mem_range.2 hj)
  · rintro x hx rfl
    exact hroot (hin x hx)
  · intro k hk hjk d hd x hx hx'
    exact disjoint_of_nodup_flatMap hbelow hj hk hjk (by simpa [he] using hx)
      (by simpa [hd] using hx')

section Change

variable (hnd : (tables w child (ks.length + 1 + m) root).Nodup)
  (hw : walk child root ks = some t) (hks : ∀ k ∈ ks, k < w) (hi : i < w)
  (hsame : ∀ x ∈ tables w child (ks.length + 1 + m) root, ∀ j < w, ¬ (x = t ∧ j = i) →
    child' x j = child x j)

include hnd hw hks hi hsame

/-- **Changing one slot** exchanges the nodes below it. -/
theorem collect_change (leaf : T → List T) :
    (collect w child' leaf (ks.length + 1 + m) root ++
      (child t i).elim [] (collect w child leaf m)).Perm
    (collect w child leaf (ks.length + 1 + m) root ++
      (child' t i).elim [] (collect w child' leaf m)) := by
  induction ks generalizing root with
  | nil =>
    obtain rfl : root = t := Option.some.inj hw
    rw [List.length_nil, Nat.zero_add, Nat.add_comm] at hnd hsame ⊢
    rw [collect, collect, List.cons_append, List.cons_append]
    refine List.Perm.cons _ (flatMap_perm_of_change List.nodup_range (List.mem_range.2 hi) ?_
      List.perm_append_comm)
    intro j hj hji
    rw [List.mem_range] at hj
    rw [hsame root List.mem_cons_self j hj (by tauto)]
    cases hc : child root j with
    | none => rfl
    | some d =>
      obtain ⟨-, hin, hroot, -⟩ := collect_below hnd hj hc
      refine collect_congr fun x hx k hk => hsame x (hin x hx) k hk ?_
      rintro ⟨rfl, -⟩
      exact hroot _ hx rfl
  | cons k ks ih =>
    obtain ⟨d, hd, hw⟩ := Option.bind_eq_some_iff.1 hw
    have hk : k < w := hks k (by simp)
    have hks' : ∀ j ∈ ks, j < w := fun j hj => hks j (List.mem_cons_of_mem _ hj)
    have hlen : (k :: ks).length + 1 + m = (ks.length + 1 + m) + 1 := by
      simp only [List.length_cons]
      omega
    rw [hlen] at hnd hsame ⊢
    obtain ⟨hdn, hdin, hdroot, hdother⟩ := collect_below hnd hk hd
    have htd := mem_tables_of_walk hw hks' (by omega : ks.length < ks.length + 1 + m)
    have hchild : ∀ j < w, child' root j = child root j := fun j hj =>
      hsame root List.mem_cons_self j hj fun h => hdroot t htd h.1.symm
    rw [collect, collect, List.cons_append, List.cons_append]
    refine List.Perm.cons _ (flatMap_perm_of_change List.nodup_range (List.mem_range.2 hk) ?_ ?_)
    · intro j hj hjk
      rw [List.mem_range] at hj
      rw [hchild j hj]
      cases hc : child root j with
      | none => rfl
      | some e =>
        obtain ⟨-, hin, -, -⟩ := collect_below hnd hj hc
        refine collect_congr fun x hx l hl => hsame x (hin x hx) l hl ?_
        rintro ⟨rfl, -⟩
        -- `t` would be a table below two slots of the root.
        exact hdother j hj (Ne.symm hjk) e hc _ htd hx
    · rw [hchild k hk, hd]
      exact ih hdn hw hks' fun x hx j hj => hsame x (hdin x hx) j hj

omit hi in
/-- **A walk after a slot was changed**: along the path to the slot it goes on from what is there
now, any other walk is as before. -/
theorem walk_change {q : List Nat} (hq : ∀ k ∈ q, k < w) (hlen : q.length ≤ ks.length + 1 + m) :
    walk child' root q = if (ks ++ [i]) <+: q then
        (child' t i).bind fun c => walk child' c (q.drop (ks.length + 1))
      else walk child root q := by
  induction ks generalizing root q with
  | nil =>
    obtain rfl : root = t := Option.some.inj hw
    rw [List.length_nil, Nat.zero_add, Nat.add_comm] at hnd hsame hlen
    cases q with
    | nil => simp
    | cons j q =>
      have hj : j < w := hq j (by simp)
      by_cases hji : i = j
      · subst hji
        simp [walk]
      · have hpre : ¬ ([] ++ [i]) <+: (j :: q) := by simp [hji]
        rw [if_neg hpre, walk, walk, hsame root List.mem_cons_self j hj (by tauto)]
        refine Option.bind_congr fun e he => ?_
        obtain ⟨-, hin, hroot, -⟩ := collect_below hnd hj he
        refine walk_congr (n := m) ?_ (fun l hl => hq l (List.mem_cons_of_mem _ hl))
          (by simpa using hlen)
        intro x hx k hk
        refine hsame x (hin x hx) k hk ?_
        rintro ⟨rfl, -⟩
        exact hroot _ hx rfl
  | cons k ks ih =>
    obtain ⟨d, hd, hw⟩ := Option.bind_eq_some_iff.1 hw
    have hk : k < w := hks k (by simp)
    have hks' : ∀ j ∈ ks, j < w := fun j hj => hks j (List.mem_cons_of_mem _ hj)
    have hlen' : (k :: ks).length + 1 + m = (ks.length + 1 + m) + 1 := by
      simp only [List.length_cons]
      omega
    rw [hlen'] at hnd hsame hlen
    obtain ⟨hdn, hdin, hdroot, hdother⟩ := collect_below hnd hk hd
    have htd := mem_tables_of_walk hw hks' (by omega : ks.length < ks.length + 1 + m)
    cases q with
    | nil => simp
    | cons j q =>
      have hj : j < w := hq j (by simp)
      have hq' : ∀ l ∈ q, l < w := fun l hl => hq l (List.mem_cons_of_mem _ hl)
      have hchild : child' root j = child root j :=
        hsame root List.mem_cons_self j hj fun h => hdroot t htd h.1.symm
      rw [walk, walk, hchild]
      by_cases hjk : k = j
      · subst hjk
        have hrest := ih hdn hw hks' (fun x hx j hj => hsame x (hdin x hx) j hj) hq'
          (by simpa using hlen)
        simp only [hd, Option.bind_some, hrest, List.cons_append, List.cons_prefix_cons,
          true_and, List.length_cons, List.drop_succ_cons]
      · have hpre : ¬ (k :: ks ++ [i]) <+: (j :: q) := by
          simp [List.cons_prefix_cons, hjk]
        rw [if_neg hpre]
        refine Option.bind_congr fun e he => ?_
        obtain ⟨-, hin, -, -⟩ := collect_below hnd hj he
        refine walk_congr (n := ks.length + 1 + m) ?_ hq' (by simpa using hlen)
        intro x hx l hl
        refine hsame x (hin x hx) l hl ?_
        rintro ⟨rfl, -⟩
        exact hdother j hj hjk e he _ htd hx

/-- **Filling an empty slot** adds the nodes of the new subtree to the tree. -/
theorem collect_insert (hnone : child t i = none) (hsome : child' t i = some c)
    (leaf : T → List T) : (collect w child' leaf (ks.length + 1 + m) root).Perm
    (collect w child leaf (ks.length + 1 + m) root ++ collect w child' leaf m c) := by
  have h := collect_change hnd hw hks hi hsame leaf
  rw [hnone, hsome] at h
  simpa using h

omit hi in
/-- A walk after filling a slot. -/
theorem walk_insert (hsome : child' t i = some c) {q : List Nat} (hq : ∀ k ∈ q, k < w)
    (hlen : q.length ≤ ks.length + 1 + m) :
    walk child' root q = if (ks ++ [i]) <+: q then walk child' c (q.drop (ks.length + 1))
      else walk child root q := by
  rw [walk_change hnd hw hks hsame hq hlen, hsome, Option.bind_some]

end Change

/-! ## Emptying slots -/

/-- In a tree whose nodes are all different, each node is at the end of one path. -/
theorem walk_inj {js : List Nat} (hnd : (nodes w child n t).Nodup) (hks : ∀ k ∈ ks, k < w)
    (hjs : ∀ j ∈ js, j < w) (hklen : ks.length ≤ n) (hjlen : js.length ≤ n)
    (hk : walk child t ks = some x) (hj : walk child t js = some x) : ks = js := by
  induction ks generalizing t js n with
  | nil =>
    cases js with
    | nil => rfl
    | cons j js =>
      obtain ⟨n, rfl⟩ := Nat.exists_eq_succ_of_ne_zero (by simp at hjlen; omega : n ≠ 0)
      obtain rfl := Option.some.inj hk
      obtain ⟨c, hc, hj⟩ := Option.bind_eq_some_iff.1 hj
      obtain ⟨-, -, hroot, -⟩ := collect_below hnd (hjs j (by simp)) hc
      have hx := mem_nodes_of_walk hj (fun k hk => hjs k (List.mem_cons_of_mem _ hk))
        (by simpa using hjlen)
      exact absurd rfl (hroot _ hx)
  | cons k ks ih =>
    obtain ⟨n, rfl⟩ := Nat.exists_eq_succ_of_ne_zero (by simp at hklen; omega : n ≠ 0)
    obtain ⟨c, hc, hk⟩ := Option.bind_eq_some_iff.1 hk
    obtain ⟨hcn, -, hroot, hother⟩ := collect_below hnd (hks k (by simp)) hc
    have hks' : ∀ l ∈ ks, l < w := fun l hl => hks l (List.mem_cons_of_mem _ hl)
    have hx := mem_nodes_of_walk hk hks' (by simpa using hklen)
    cases js with
    | nil =>
      obtain rfl := Option.some.inj hj
      exact absurd rfl (hroot _ hx)
    | cons j js =>
      obtain ⟨d, hd, hj⟩ := Option.bind_eq_some_iff.1 hj
      have hjs' : ∀ l ∈ js, l < w := fun l hl => hjs l (List.mem_cons_of_mem _ hl)
      by_cases hkj : k = j
      · subst hkj
        rw [hc, Option.some.injEq] at hd
        subst hd
        rw [ih hcn hks' hjs' (by simpa using hklen) (by simpa using hjlen) hk hj]
      · exact absurd (mem_nodes_of_walk hj hjs' (by simpa using hjlen))
          (hother j (hjs j (by simp)) hkj d hd x hx)

section Emptied

variable (hle : ∀ x i c, child' x i = some c → child x i = some c)

include hle

theorem walk_mono (hw : walk child' t ks = some x) : walk child t ks = some x := by
  induction ks generalizing t with
  | nil => exact hw
  | cons k ks ih =>
    obtain ⟨c, hc, hw⟩ := Option.bind_eq_some_iff.1 hw
    rw [walk, hle t k c hc, Option.bind_some]
    exact ih hw

/-- Where slots were emptied, nothing new is found. -/
theorem collect_sublist_of_le (leaf : T → List T) :
    (collect w child' leaf n t).Sublist (collect w child leaf n t) := by
  induction n generalizing t with
  | zero => exact List.Sublist.refl _
  | succ n ih =>
    refine List.Sublist.cons_cons t (List.Sublist.flatMap_right _ fun i _ => ?_)
    cases hc : child' t i with
    | none => exact List.nil_sublist _
    | some c =>
      rw [hle t i c hc]
      exact ih

end Emptied

/-- The walk reads one of the slots `P`. -/
def Through (child : T → Nat → Option T) (P : T → Nat → Prop) : T → List Nat → Prop
  | _, [] => False
  | t, i :: ks => P t i ∨ ∃ c, child t i = some c ∧ Through child P c ks

section Through

variable {P : T → Nat → Prop} (hsame : ∀ x i, ¬ P x i → child' x i = child x i)

include hsame

/-- A walk that does not read the slots that change. -/
theorem walk_of_not_through (hn : ¬ Through child P t ks) : walk child' t ks = walk child t ks := by
  induction ks generalizing t with
  | nil => rfl
  | cons i ks ih =>
    rw [Through, not_or, not_exists] at hn
    rw [walk, walk, hsame t i hn.1]
    exact Option.bind_congr fun c hc => ih fun ht => hn.2 c ⟨hc, ht⟩

/-- A walk that reads a slot that is emptied. -/
theorem walk_of_through (hempty : ∀ x i, P x i → child' x i = none)
    (ht : Through child P t ks) : walk child' t ks = none := by
  induction ks generalizing t with
  | nil => exact ht.elim
  | cons i ks ih =>
    rw [walk]
    by_cases hP : P t i
    · rw [hempty t i hP]
      rfl
    · obtain ⟨c, hc, ht⟩ := ht.resolve_left hP
      rw [hsame t i hP, hc]
      exact ih ht

end Through

/-- Where a walk reads one of the slots. -/
theorem Through.exists {P : T → Nat → Prop} (ht : Through child P t ks) :
    ∃ js i rest x, ks = js ++ i :: rest ∧ walk child t js = some x ∧ P x i := by
  induction ks generalizing t with
  | nil => exact ht.elim
  | cons i ks ih =>
    rcases ht with hP | ⟨c, hc, ht⟩
    · exact ⟨[], i, ks, t, rfl, rfl, hP⟩
    · obtain ⟨js, j, rest, x, rfl, hw, hP⟩ := ih ht
      exact ⟨i :: js, j, rest, x, rfl, by rw [walk, hc, Option.bind_some, hw], hP⟩

theorem through_append {P : T → Nat → Prop} (hw : walk child t ks = some x) (hP : P x i)
    (rest : List Nat) : Through child P t (ks ++ i :: rest) := by
  induction ks generalizing t with
  | nil =>
    obtain rfl := Option.some.inj hw
    exact .inl hP
  | cons k ks ih =>
    obtain ⟨c, hc, hw⟩ := Option.bind_eq_some_iff.1 hw
    exact .inr ⟨c, hc, ih hw⟩

/-! ## The shape of a tree -/

/-- The paths of one to `n` slots. -/
def paths (w : Nat) : Nat → Finset (List Nat)
  | 0 => ∅
  | n + 1 => (Finset.range w).biUnion fun i => insert [i] ((paths w n).image (i :: ·))

theorem mem_paths {q : List Nat} :
    q ∈ paths w n ↔ q ≠ [] ∧ q.length ≤ n ∧ ∀ k ∈ q, k < w := by
  induction n generalizing q with
  | zero =>
    cases q with
    | nil => simp [paths]
    | cons k q => simp [paths]
  | succ n ih =>
    simp only [paths, Finset.mem_biUnion, Finset.mem_range, Finset.mem_insert, Finset.mem_image, ih]
    constructor
    · rintro ⟨i, hi, rfl | ⟨p, ⟨-, hlen, hp⟩, rfl⟩⟩
      · simp [hi]
      · simpa [hi] using ⟨hlen, hp⟩
    · rintro ⟨hne, hlen, hq⟩
      cases q with
      | nil => exact absurd rfl hne
      | cons i q =>
        refine ⟨i, hq i (by simp), ?_⟩
        cases q with
        | nil => exact .inl rfl
        | cons j q =>
          refine .inr ⟨j :: q, ⟨by simp, by simpa using hlen, ?_⟩, rfl⟩
          exact fun k hk => hq k (List.mem_cons_of_mem _ hk)

/-- The paths that lead somewhere. There is one for each node below the root. -/
def shape (w : Nat) (child : T → Nat → Option T) (n : Nat) (t : T) : Finset (List Nat) :=
  (paths w n).filter fun q => (walk child t q).isSome

theorem mem_shape {q : List Nat} :
    q ∈ shape w child n t ↔ q ∈ paths w n ∧ ∃ x, walk child t q = some x := by
  rw [shape, Finset.mem_filter, Option.isSome_iff_exists]

/-- The shape is read from the slots of the tables. -/
theorem shape_congr (h : ∀ x ∈ tables w child n t, ∀ j < w, child' x j = child x j) :
    shape w child' n t = shape w child n t := by
  ext q
  rw [mem_shape, mem_shape]
  refine and_congr_right fun hq => ?_
  obtain ⟨-, hlen, hlt⟩ := mem_paths.1 hq
  rw [walk_congr h hlt hlen]

/-- A table without entries leads nowhere. -/
theorem shape_of_empty (h : ∀ j < w, child t j = none) : shape w child n t = ∅ := by
  rw [Finset.eq_empty_iff_forall_notMem]
  intro q hq
  obtain ⟨hq, x, hx⟩ := mem_shape.1 hq
  obtain ⟨hne, -, hlt⟩ := mem_paths.1 hq
  cases q with
  | nil => exact hne rfl
  | cons k q => simp [walk, h k (hlt k (by simp))] at hx

/-- **Filling a slot with an empty table or a leaf** adds its path to the shape. -/
theorem shape_insert (hnd : (tables w child (ks.length + 1 + m) root).Nodup)
    (hw : walk child root ks = some t) (hks : ∀ k ∈ ks, k < w) (hi : i < w)
    (hnone : child t i = none) (hsome : child' t i = some c)
    (hsame : ∀ x ∈ tables w child (ks.length + 1 + m) root, ∀ j < w, ¬ (x = t ∧ j = i) →
      child' x j = child x j) (hempty : 0 < m → ∀ j < w, child' c j = none) :
    shape w child' (ks.length + 1 + m) root =
      insert (ks ++ [i]) (shape w child (ks.length + 1 + m) root) := by
  ext q
  rw [Finset.mem_insert, mem_shape, mem_shape]
  constructor
  · rintro ⟨hq, x, hx⟩
    obtain ⟨-, hlen, hlt⟩ := mem_paths.1 hq
    rw [walk_insert hnd hw hks hsame hsome hlt hlen] at hx
    split at hx
    · rename_i hpre
      obtain ⟨rest, rfl⟩ := hpre
      left
      cases rest with
      | nil => simp
      | cons j rest =>
        have hm : 0 < m := by
          simp only [List.length_append, List.length_cons, List.length_nil] at hlen
          omega
        have hj : j < w := hlt j (by simp)
        simp [walk, hempty hm j hj] at hx
    · exact .inr ⟨hq, x, hx⟩
  · rintro (rfl | ⟨hq, x, hx⟩)
    · have hlt : ∀ k ∈ ks ++ [i], k < w := by
        intro k hk
        rw [List.mem_append, List.mem_singleton] at hk
        rcases hk with hk | rfl
        · exact hks k hk
        · exact hi
      have hlen : (ks ++ [i]).length ≤ ks.length + 1 + m := by simp
      refine ⟨mem_paths.2 ⟨by simp, hlen, hlt⟩, c, ?_⟩
      rw [walk_insert hnd hw hks hsame hsome hlt hlen]
      simp
    · obtain ⟨-, hlen, hlt⟩ := mem_paths.1 hq
      refine ⟨hq, x, ?_⟩
      rw [walk_insert hnd hw hks hsame hsome hlt hlen, if_neg]
      · exact hx
      · rintro ⟨rest, rfl⟩
        simp [walk_append, hw, walk, hnone] at hx

end ChenixOS.Radix
