import Mathlib.Data.List.Find
import Mathlib.Data.List.Infix

/-!
# Greedy search in a tree of routes

Every node of a tree has a key, a list, and an ordered list of children. A search for a list goes from a node to the
first child whose key is a prefix of it, and from there on; it never comes back. What a node has in its keys need not
be sorted: a child with a short key may stand in the way of a longer one.

**Theorem (`Leads.longest`).** If the search for the key of each node finds this node, then the search for any list
finds the longest key that is a prefix of it. New leaves that are hung below the node that the search for their key
found, behind its other children, keep this (`Leads.add`), and so do leaves that are taken away (`Leads.remove`).
-/

namespace ChenixOS

variable {N β : Type} [DecidableEq β]

/-- Nodes with their children, in order, and their keys. -/
structure Routes (N β : Type) where
  children : N → List N
  key : N → List β

namespace Routes

/-- The key of the node is a prefix. -/
def serves (R : Routes N β) (path : List β) (n : N) : Bool := decide (R.key n <+: path)

/-- The search for `path` ends at the second node when it is begun at the first. -/
inductive Leads (R : Routes N β) (path : List β) : N → N → Prop
  | stop {n : N} (h : (R.children n).find? (R.serves path) = none) : Leads R path n n
  | down {n c r : N} (h : (R.children n).find? (R.serves path) = some c) (hrest : Leads R path c r) : Leads R path n r

/-- The key of a child is that of its parent with something behind it. -/
def Nested (R : Routes N β) : Prop := ∀ n, ∀ c ∈ R.children n, R.key n <+: R.key c ∧ R.key n ≠ R.key c

variable {R R' : Routes N β} {path : List β} {n r c p x : N}

theorem serves_iff : R.serves path n = true ↔ R.key n <+: path := decide_eq_true_iff

/-- The first match of a predicate, where a weaker one may match before. -/
theorem exists_find?_of_imp {f g : N → Bool} {l : List N} (h : ∀ y, f y = true → g y = true) (hx : l.find? f = some x) :
    ∃ y, l.find? g = some y ∧ (y = x ∨ f y = false) := by
  induction l with
  | nil => cases hx
  | cons y l ih =>
    by_cases hf : f y = true
    · rw [List.find?_cons_of_pos hf] at hx
      exact ⟨y, List.find?_cons_of_pos (h y hf), .inl (Option.some.inj hx)⟩
    · rw [List.find?_cons_of_neg hf] at hx
      by_cases hg : g y = true
      · exact ⟨y, List.find?_cons_of_pos hg, .inr (by simpa using hf)⟩
      · rw [List.find?_cons_of_neg hg]
        exact ih hx

/-! ## What a search finds -/

/-- A search ends at one node. -/
theorem Leads.unique {r' : N} (h : R.Leads path n r) (h' : R.Leads path n r') : r = r' := by
  induction h with
  | stop hnone =>
    cases h' with
    | stop => rfl
    | down hsome => rw [hnone] at hsome; cases hsome
  | down hsome _ ih =>
    cases h' with
    | stop hnone => rw [hnone] at hsome; cases hsome
    | down hsome' hrest =>
      obtain rfl := Option.some.inj (hsome.symm.trans hsome')
      exact ih hrest

/-- The keys grow on the way. -/
theorem Leads.key_prefix (hR : R.Nested) (h : R.Leads path n r) : R.key n <+: R.key r := by
  induction h with
  | stop => exact List.prefix_rfl
  | down hsome _ ih => exact (hR _ _ (List.mem_of_find?_eq_some hsome)).1.trans ih

/-- What is found is where the search began, or serves the path. -/
theorem Leads.serves (h : R.Leads path n r) : r = n ∨ R.key r <+: path := by
  induction h with
  | stop => exact .inl rfl
  | @down n c r hsome _ ih =>
    rcases ih with rfl | hr
    · exact .inr (serves_iff.1 (List.find?_some hsome))
    · exact .inr hr

/-- **The search finds the longest key**: those of the nodes that the search for their own key finds are not longer. -/
theorem Leads.longest (hR : R.Nested) (h : R.Leads path n r) (hx : R.Leads (R.key x) n x) (hpath : R.key x <+: path) :
    R.key x <+: R.key r := by
  have himp : ∀ y, R.serves (R.key x) y = true → R.serves path y = true := fun y hy =>
    serves_iff.2 ((serves_iff.1 hy).trans hpath)
  induction h with
  | stop hnone =>
    cases hx with
    | stop => exact List.prefix_rfl
    | down hsome =>
      obtain ⟨y, hy, -⟩ := exists_find?_of_imp himp hsome
      rw [hnone] at hy
      cases hy
  | @down n c r hsome hrest ih =>
    cases hx with
    | stop => exact (hR _ _ (List.mem_of_find?_eq_some hsome)).1.trans (hrest.key_prefix hR)
    | @down _ d _ hsome' hrest' =>
      obtain ⟨y, hy, hor⟩ := exists_find?_of_imp himp hsome'
      obtain rfl := Option.some.inj (hsome.symm.trans hy)
      rcases hor with rfl | hnot
      · exact ih hrest'
      · -- a child that stands before, and serves the path but not the key of `x`, has a longer key
        have hserves : R.key c <+: path := serves_iff.1 (List.find?_some hsome)
        rcases List.prefix_or_prefix_of_prefix hserves hpath with hle | hle
        · rw [serves_iff.2 hle] at hnot
          cases hnot
        · exact hle.trans (hrest.key_prefix hR)

/-! ## Leaves -/

/-- A leaf `c` is hung below `p`, behind its other children. -/
structure Adds (R R' : Routes N β) (p c : N) : Prop where
  parent : R'.children p = R.children p ++ [c]
  leaf : R'.children c = []
  children : ∀ n, n ≠ p → n ≠ c → R'.children n = R.children n
  key : ∀ n, n ≠ c → R'.key n = R.key n
  fresh : ∀ n, c ∉ R.children n

theorem Adds.find? (h : Adds R R' p c) : (R.children n).find? (R'.serves path) = (R.children n).find? (R.serves path) :=
  List.find?_congr fun d hd => by
    have hne : d ≠ c := fun heq => h.fresh n (heq ▸ hd)
    simp only [Routes.serves, h.key d hne]

/-- The search for the key of the leaf finds it, if it found `p` before. -/
theorem Leads.to_leaf (h : Adds R R' p c) (hn : R.Leads (R'.key c) n p) (hne : n ≠ c) (hp : p ≠ c) :
    R'.Leads (R'.key c) n c := by
  induction hn with
  | stop hnone =>
    refine .down (c := c) ?_ (.stop (by rw [h.leaf, List.find?_nil]))
    rw [h.parent, List.find?_append, h.find?, hnone, Option.none_or]
    exact List.find?_cons_of_pos (serves_iff.2 List.prefix_rfl)
  | @down n d r hsome _ ih =>
    have hd : d ≠ c := fun heq => h.fresh n (heq ▸ List.mem_of_find?_eq_some hsome)
    refine .down (c := d) ?_ (ih h hd hp)
    by_cases hnp : n = r
    · subst hnp
      rw [h.parent, List.find?_append, h.find?, hsome, Option.some_or]
    · rw [h.children n hnp hne, h.find?, hsome]

variable [DecidableEq N]

/-- Other searches find what they found. -/
theorem Leads.add (h : Adds R R' p c) (hn : R.Leads path n r) (hne : n ≠ c) (hor : r ≠ p ∨ ¬ R'.key c <+: path) :
    R'.Leads path n r := by
  have hcase : ∀ m, m ≠ c → (R'.children m).find? (R'.serves path) =
      if m = p then ((R.children m).find? (R.serves path)).or ([c].find? (R'.serves path))
      else (R.children m).find? (R.serves path) := by
    intro m hm
    split_ifs with hmp
    · rw [hmp, h.parent, List.find?_append, h.find?]
    · rw [h.children m hmp hm, h.find?]
  induction hn with
  | @stop n hnone =>
    refine .stop ?_
    rw [hcase n hne, hnone]
    split_ifs with hnp
    · have hnot := hor.resolve_left (not_not.2 hnp)
      rw [Option.none_or, List.find?_cons_of_neg (fun hs => hnot (serves_iff.1 hs)), List.find?_nil]
    · rfl
  | @down n d r hsome _ ih =>
    have hd : d ≠ c := fun heq => h.fresh n (heq ▸ List.mem_of_find?_eq_some hsome)
    refine .down (c := d) ?_ (ih hd hor)
    rw [hcase n hne, hsome]
    split_ifs
    · rfl
    · rfl

/-- Other elements may be erased. -/
theorem find?_erase {f : N → Bool} {l : List N} (h : l.find? f ≠ some c) :
    (l.erase c).find? f = l.find? f := by
  induction l with
  | nil => rfl
  | cons y l ih =>
    by_cases hf : f y = true
    · rw [List.find?_cons_of_pos hf] at h ⊢
      have hne : y ≠ c := fun heq => h (congrArg some heq)
      rw [List.erase_cons_tail (by simpa using hne), List.find?_cons_of_pos hf]
    · rw [List.find?_cons_of_neg hf] at h ⊢
      by_cases heq : y = c
      · rw [heq, List.erase_cons_head]
      · rw [List.erase_cons_tail (by simpa using heq), List.find?_cons_of_neg hf, ih h]

/-- A leaf `c` is taken away from below `p`. -/
structure Removes (R R' : Routes N β) (p c : N) : Prop where
  parent : R'.children p = (R.children p).erase c
  leaf : R.children c = []
  children : ∀ n, n ≠ p → n ≠ c → R'.children n = R.children n
  key : ∀ n, n ≠ c → R'.key n = R.key n
  only : ∀ n, n ≠ p → c ∉ R.children n
  nodup : (R.children p).Nodup

/-- Searches that did not find the leaf find what they found. -/
theorem Leads.remove (h : Removes R R' p c) (hn : R.Leads path n r) (hne : n ≠ c) (hr : r ≠ c) :
    R'.Leads path n r := by
  have hkey : ∀ m, c ∉ R'.children m → (R'.children m).find? (R'.serves path) = (R'.children m).find? (R.serves path) :=
    fun m hm => List.find?_congr fun d hd => by
      have hdc : d ≠ c := fun heq => hm (heq ▸ hd)
      simp only [Routes.serves, h.key d hdc]
  have hcase : ∀ m, m ≠ c → (R.children m).find? (R.serves path) ≠ some c →
      (R'.children m).find? (R'.serves path) = (R.children m).find? (R.serves path) := by
    intro m hm hfind
    by_cases hmp : m = p
    · subst hmp
      rw [hkey m (by rw [h.parent]; exact h.nodup.not_mem_erase), h.parent]
      exact find?_erase hfind
    · have hsame := h.children m hmp hm
      rw [hkey m (by rw [hsame]; exact h.only m hmp), hsame]
  induction hn with
  | @stop n hnone => exact .stop (by rw [hcase n hne (by rw [hnone]; exact fun heq => by cases heq), hnone])
  | @down n d r hsome hrest ih =>
    have hd : d ≠ c := by
      rintro rfl
      cases hrest with
      | stop => exact hr rfl
      | down hsome' => rw [h.leaf] at hsome'; cases hsome'
    refine .down (c := d) ?_ (ih hd hr)
    rw [hcase n hne (by rw [hsome]; exact fun heq => hd (Option.some.inj heq)), hsome]

end Routes

end ChenixOS
