import Mathlib.Data.List.Chain
import Mathlib.Data.List.Nodup

/-!
# Doubly linked lists

A doubly linked list with a head and a tail is a ring through the null node: the `next` of null
is the head, its `prev` the tail. In this view linking a node in and unlinking one are the same
at the ends of the list as in the middle: each changes one `next` and one `prev`.

`Ring next prev z xs` says that the nodes met from `z` on are `xs`, in this order and without
repetition. `seek` is the loop that walks a list until a node passes a test; on a ring it
terminates and finds the first such node.
-/

namespace ChenixOS.Links

variable {α : Type} {next prev next' prev' : α → α} {z t : α} {l xs ys : List α}

/-! ## Links -/

/-- Consecutive members point at each other. -/
def Linked (next prev : α → α) (l : List α) : Prop :=
  l.IsChain fun x y => next x = y ∧ prev y = x

/-- A list of links reads the `next` of all nodes but the last and the `prev` of all but the
first. -/
theorem Linked.congr (h : Linked next prev l) (hn : ∀ x ∈ l.dropLast, next' x = next x)
    (hp : ∀ y ∈ l.tail, prev' y = prev y) : Linked next' prev' l := by
  induction l with
  | nil => exact .nil
  | cons x l ih =>
    cases l with
    | nil => exact .singleton x
    | cons y l =>
      unfold Linked at h ih ⊢
      rw [List.isChain_cons_cons] at h ⊢
      obtain ⟨⟨hxy, hyx⟩, hl⟩ := h
      refine ⟨⟨?_, ?_⟩, ih hl ?_ ?_⟩
      · rw [hn x (by simp), hxy]
      · rw [hp y (by simp), hyx]
      · intro w hw
        exact hn w (by simp [List.dropLast_cons_of_ne_nil, hw])
      · intro w hw
        exact hp w (List.mem_of_mem_tail hw)

/-- The nodes `xs`, each once, in a ring through `z`. -/
structure Ring (next prev : α → α) (z : α) (xs : List α) : Prop where
  linked : Linked next prev (z :: (xs ++ [z]))
  nodup : (z :: xs).Nodup

theorem Ring.congr (h : Ring next prev z xs) (hn : ∀ x ∈ z :: xs, next' x = next x)
    (hp : ∀ x ∈ z :: xs, prev' x = prev x) : Ring next' prev' z xs := by
  refine ⟨h.linked.congr ?_ ?_, h.nodup⟩
  · intro x hx
    rw [← List.cons_append, List.dropLast_concat] at hx
    exact hn x hx
  · intro y hy
    rw [List.tail_cons, List.mem_append, List.mem_singleton] at hy
    exact hp y (List.mem_cons.2 hy.symm)

theorem ring_nil (hn : next z = z) (hp : prev z = z) : Ring next prev z [] :=
  ⟨.cons_cons ⟨hn, hp⟩ (.singleton z), by simp⟩

/-- The links determine the nodes. -/
theorem Ring.unique (h : Ring next prev z xs) (h' : Ring next prev z ys) : xs = ys := by
  have hchain : ∀ (xs ys : List α) (a : α), z ∉ xs → z ∉ ys → Linked next prev (a :: (xs ++ [z])) →
      Linked next prev (a :: (ys ++ [z])) → xs = ys := by
    intro xs
    induction xs with
    | nil =>
      intro ys a _ hys hl hl'
      cases ys with
      | nil => rfl
      | cons y ys =>
        have e := (List.isChain_cons_cons.1 hl).1.1
        have e' := (List.isChain_cons_cons.1 hl').1.1
        exact absurd (by simp [← e, ← e']) hys
    | cons x xs ih =>
      intro ys a hxs hys hl hl'
      cases ys with
      | nil =>
        have e := (List.isChain_cons_cons.1 hl).1.1
        have e' := (List.isChain_cons_cons.1 hl').1.1
        exact absurd (by simp [← e, ← e']) hxs
      | cons y ys =>
        obtain ⟨⟨e, -⟩, hl⟩ := List.isChain_cons_cons.1 hl
        obtain ⟨⟨e', -⟩, hl'⟩ := List.isChain_cons_cons.1 hl'
        obtain rfl : x = y := e.symm.trans e'
        rw [List.mem_cons, not_or] at hxs hys
        rw [ih ys x hxs.2 hys.2 hl hl']
  exact hchain xs ys z (List.nodup_cons.1 h.nodup).1 (List.nodup_cons.1 h'.nodup).1 h.linked h'.linked

/-- The links around a member. -/
theorem Ring.around (h : Ring next prev z (xs ++ t :: ys)) :
    prev t = (z :: xs).getLast (by simp) ∧ next t = (ys ++ [z]).head (by simp) := by
  have hl := h.linked
  have e : z :: (xs ++ t :: ys ++ [z]) = (z :: xs) ++ t :: (ys ++ [z]) := by simp
  rw [Linked, e, List.isChain_append] at hl
  obtain ⟨-, hr, hseam⟩ := hl
  refine ⟨(hseam _ (List.getLast_mem_getLast? _) t (by simp)).2, ?_⟩
  exact (hr.rel_head? (List.head_mem_head? _)).1

/-- The head of a ring is the `next` of the null node. -/
theorem Ring.next_null (h : Ring next prev z xs) : next z = (xs ++ [z]).head (by simp) :=
  (h.linked.rel_head? (List.head_mem_head? _)).1

/-- The tail of a ring is the `prev` of the null node. -/
theorem Ring.prev_null (h : Ring next prev z xs) : prev z = (z :: xs).getLast (by simp) := by
  have hl := h.linked
  have e : z :: (xs ++ [z]) = (z :: xs) ++ [z] := by simp
  rw [Linked, e, List.isChain_append] at hl
  exact (hl.2.2 _ (List.getLast_mem_getLast? _) z (by simp)).2

/-- The links on both sides of a member stay, if `next` changes at its predecessor only and `prev` at
its successor only. -/
theorem Ring.sides (h : Ring next prev z (xs ++ t :: ys))
    (hn : ∀ x ∈ z :: (xs ++ ys), x ≠ prev t → next' x = next x)
    (hp : ∀ x ∈ z :: (xs ++ ys), x ≠ next t → prev' x = prev x) :
    Linked next' prev' (z :: xs) ∧ Linked next' prev' (ys ++ [z]) := by
  obtain ⟨hprev, hnext⟩ := h.around
  obtain ⟨L, p, hL⟩ : ∃ L p, z :: xs = L ++ [p] :=
    ⟨_, _, (List.dropLast_append_getLast (List.cons_ne_nil z xs)).symm⟩
  obtain ⟨q, R, hR⟩ := List.exists_cons_of_ne_nil (List.append_ne_nil_of_right_ne_nil ys
    (List.cons_ne_nil z []))
  have hpt : prev t = p := by
    rw [hprev]
    simp only [hL, List.getLast_append_singleton]
  have hqt : next t = q := by
    rw [hnext]
    simp only [hR, List.head_cons]
  have hl := h.linked
  have e : z :: (xs ++ t :: ys ++ [z]) = (z :: xs) ++ t :: (ys ++ [z]) := by simp
  rw [Linked, e, List.isChain_append] at hl
  have hnd : (z :: xs).Nodup := h.nodup.sublist (by simp)
  have hnd' : (ys ++ [z]).Nodup := by
    have : (z :: ys).Nodup := h.nodup.sublist (by simp)
    rw [List.nodup_cons] at this
    rw [List.nodup_append]
    refine ⟨this.2, by simp, fun a ha b hb => ?_⟩
    obtain rfl := List.mem_singleton.1 hb
    rintro rfl
    exact this.1 ha
  constructor
  · refine Linked.congr hl.1 (fun x hx => ?_) fun y hy => ?_
    · have hx' : x ∈ z :: xs := List.dropLast_subset _ hx
      refine hn x (by simp at hx' ⊢; tauto) ?_
      rw [hL, List.dropLast_concat] at hx
      rw [hL, List.nodup_append] at hnd
      exact hpt ▸ hnd.2.2 x hx p (by simp)
    · have hy' : y ∈ xs := hy
      refine hp y (by simp [hy']) ?_
      rintro rfl
      have hqm : next t ∈ ys ++ [z] := by rw [hR, hqt]; simp
      have hndt := h.nodup
      simp only [List.nodup_cons, List.nodup_append, List.mem_append, List.mem_cons,
        List.not_mem_nil, or_false] at hqm hndt
      obtain hq | hq := hqm
      · exact hndt.2.2.2 _ hy' _ (.inr hq) rfl
      · exact hndt.1 (.inl (hq ▸ hy'))
  · refine Linked.congr hl.2.1.tail (fun x hx => ?_) fun y hy => ?_
    · rw [List.dropLast_concat] at hx
      refine hn x (by simp [hx]) ?_
      rintro rfl
      have hpm : prev t ∈ z :: xs := by rw [hL, hpt]; simp
      have hndt := h.nodup
      simp only [List.nodup_cons, List.nodup_append, List.mem_append, List.mem_cons] at hpm hndt
      obtain hp | hp := hpm
      · exact hndt.1 (.inr (.inr (hp ▸ hx)))
      · exact hndt.2.2.2 _ hp _ (.inr hx) rfl
    · have hy' : y ∈ ys ++ [z] := List.mem_of_mem_tail hy
      refine hp y (by simp at hy' ⊢; tauto) ?_
      rw [hR, List.tail_cons] at hy
      rw [hR, List.nodup_cons] at hnd'
      rintro rfl
      exact hnd'.1 (hqt ▸ hy)

/-! ## Linking and unlinking -/

section Edit

variable [DecidableEq α]

/-- **Unlinking a node** joins its two neighbours. -/
theorem Ring.unlink (h : Ring next prev z (xs ++ t :: ys))
    (hn : ∀ x ∈ z :: (xs ++ ys), next' x = if x = prev t then next t else next x)
    (hp : ∀ x ∈ z :: (xs ++ ys), prev' x = if x = next t then prev t else prev x) :
    Ring next' prev' z (xs ++ ys) := by
  obtain ⟨hprev, hnext⟩ := h.around
  obtain ⟨hleft, hright⟩ := h.sides (fun x hx hne => (hn x hx).trans (if_neg hne))
    fun x hx hne => (hp x hx).trans (if_neg hne)
  refine ⟨?_, h.nodup.sublist (by simp)⟩
  have e : z :: (xs ++ ys ++ [z]) = (z :: xs) ++ (ys ++ [z]) := by simp
  rw [Linked, e, List.isChain_append]
  refine ⟨hleft, hright, fun x hx y hy => ?_⟩
  have hxm := List.mem_of_getLast? hx
  have hym := List.mem_of_head? hy
  obtain rfl : x = prev t := by rw [hprev, List.getLast_of_mem_getLast? hx]
  obtain rfl : y = next t := by rw [hnext, List.head_of_mem_head? hy]
  rw [hn _ (by simp at hxm ⊢; tauto), if_pos rfl, hp _ (by simp at hym ⊢; tauto), if_pos rfl]
  exact ⟨rfl, rfl⟩

/-- **Replacing a node** links its two neighbours to another one. -/
theorem Ring.replace {t' : α} (h : Ring next prev z (xs ++ t :: ys)) (ht : t' ∉ z :: (xs ++ ys))
    (hn : ∀ x ∈ z :: (xs ++ ys), next' x = if x = prev t then t' else next x)
    (hp : ∀ x ∈ z :: (xs ++ ys), prev' x = if x = next t then t' else prev x)
    (hnt : next' t' = next t) (hpt : prev' t' = prev t) : Ring next' prev' z (xs ++ t' :: ys) := by
  obtain ⟨hprev, hnext⟩ := h.around
  obtain ⟨hleft, hright⟩ := h.sides (fun x hx hne => (hn x hx).trans (if_neg hne))
    fun x hx hne => (hp x hx).trans (if_neg hne)
  constructor
  · have e : z :: (xs ++ t' :: ys ++ [z]) = (z :: xs) ++ t' :: (ys ++ [z]) := by simp
    rw [Linked, e, List.isChain_append]
    refine ⟨hleft, List.isChain_cons.2 ⟨fun y hy => ?_, hright⟩, fun x hx y hy => ?_⟩
    · have hym := List.mem_of_head? hy
      obtain rfl : y = next t := by rw [hnext, List.head_of_mem_head? hy]
      rw [hnt, hp _ (by simp at hym ⊢; tauto), if_pos rfl]
      exact ⟨rfl, rfl⟩
    · have hxm := List.mem_of_getLast? hx
      obtain rfl : x = prev t := by rw [hprev, List.getLast_of_mem_getLast? hx]
      obtain rfl : y = t' := by simpa using hy.symm
      rw [hn _ (by simp at hxm ⊢; tauto), if_pos rfl, hpt]
      exact ⟨rfl, rfl⟩
  · have hnd := h.nodup
    have e : z :: (xs ++ t' :: ys) = (z :: xs) ++ t' :: ys := by simp
    have e' : z :: (xs ++ t :: ys) = (z :: xs) ++ t :: ys := by simp
    rw [e, List.nodup_middle, List.nodup_cons]
    rw [e', List.nodup_middle, List.nodup_cons] at hnd
    exact ⟨by simpa using ht, hnd.2⟩

/-- **Linking a node in** before the null node appends it. -/
theorem Ring.link (h : Ring next prev z xs) (ht : t ∉ z :: xs)
    (hn : ∀ x ∈ z :: xs, next' x = if x = prev z then t else next x) (hnt : next' t = z)
    (hp : ∀ x ∈ xs, prev' x = prev x) (hpz : prev' z = t) (hpt : prev' t = prev z) :
    Ring next' prev' z (xs ++ [t]) := by
  obtain ⟨L, p, hL⟩ : ∃ L p, z :: xs = L ++ [p] :=
    ⟨_, _, (List.dropLast_append_getLast (List.cons_ne_nil z xs)).symm⟩
  have e : z :: (xs ++ [z]) = L ++ p :: [z] := by
    calc z :: (xs ++ [z]) = (z :: xs) ++ [z] := by simp
      _ = L ++ p :: [z] := by rw [hL]; simp
  have e' : z :: (xs ++ [t] ++ [z]) = L ++ p :: t :: [z] := by
    calc z :: (xs ++ [t] ++ [z]) = (z :: xs) ++ t :: [z] := by simp
      _ = L ++ p :: t :: [z] := by rw [hL]; simp
  have hl := h.linked
  rw [Linked, e, List.isChain_append_cons_cons] at hl
  obtain ⟨hleft, ⟨-, hzp⟩, -⟩ := hl
  have hpm : p ∈ z :: xs := by rw [hL]; simp
  constructor
  · rw [Linked, e', List.isChain_append_cons_cons, List.isChain_cons_cons]
    refine ⟨?_, ⟨?_, ?_⟩, ⟨hnt, hpz⟩, .singleton z⟩
    · rw [← hL]
      rw [← hL] at hleft
      refine Linked.congr hleft ?_ fun y hy => hp y hy
      intro x hx
      have hne : x ≠ p := by
        rintro rfl
        have hLn : (L ++ [x]).Nodup := hL ▸ h.nodup
        rw [hL, List.dropLast_concat] at hx
        exact (List.nodup_append.1 hLn).2.2 x hx x (by simp) rfl
      rw [hn x (List.dropLast_subset _ hx), hzp, if_neg hne]
    · rw [hn p hpm, hzp, if_pos rfl]
    · rw [hpt, hzp]
  · rw [← List.cons_append, List.nodup_append]
    refine ⟨h.nodup, by simp, ?_⟩
    intro a ha b hb
    rw [List.mem_singleton] at hb
    rintro rfl
    exact ht (hb ▸ ha)

end Edit

/-! ## Walking a list -/

section Seek

variable [DecidableEq α]

/-- Follow `next` from `x` on, for at most `fuel` nodes, to the null node `z` or the first node
that passes the test. -/
def seek (next : α → Option α) (test : α → Option Bool) (z : α) : Nat → α → Option α
  | 0, _ => none
  | fuel + 1, x =>
    if x = z then some z
    else do
      if ← test x then some x
      else seek next test z fuel (← next x)

/-- Walking a list of links to the null node finds its first member that passes the test. -/
theorem seek_linked {get : α → Option α} {test : α → Option Bool} {p : α → Bool} {fuel : Nat}
    {x : α} (h : Linked next prev (x :: (xs ++ [z]))) (hx : ∀ y ∈ xs, y ≠ z)
    (hget : ∀ y ∈ xs, get y = some (next y)) (htest : ∀ y ∈ xs, test y = some (p y))
    (hfuel : xs.length < fuel) :
    seek get test z fuel (next x) = some ((xs.find? p).getD z) := by
  induction xs generalizing x fuel with
  | nil =>
    obtain ⟨fuel, rfl⟩ := Nat.exists_eq_succ_of_ne_zero (by omega : fuel ≠ 0)
    have hz : next x = z := (List.isChain_cons_cons.1 h).1.1
    simp [seek, hz]
  | cons y ys ih =>
    obtain ⟨fuel, rfl⟩ := Nat.exists_eq_succ_of_ne_zero (by omega : fuel ≠ 0)
    rw [Linked, List.cons_append, List.isChain_cons_cons] at h
    obtain ⟨⟨hxy, -⟩, hl⟩ := h
    have hlen : ys.length < fuel := by simpa using hfuel
    have hne : y ≠ z := hx y (by simp)
    rw [hxy, seek, if_neg hne, htest y (by simp)]
    by_cases hpy : p y = true
    · simp [hpy]
    · have hrest := ih hl (fun w hw => hx w (List.mem_cons_of_mem _ hw))
        (fun w hw => hget w (List.mem_cons_of_mem _ hw))
        (fun w hw => htest w (List.mem_cons_of_mem _ hw)) hlen
      simp only [Bool.not_eq_true] at hpy
      simp [hpy, hget y (by simp), hrest]

/-- **A walk around a ring** finds the first node that passes the test, or the null node. -/
theorem Ring.seek {get : α → Option α} {test : α → Option Bool} {p : α → Bool} {fuel : Nat}
    (h : Ring next prev z xs) (hget : ∀ y ∈ xs, get y = some (next y))
    (htest : ∀ y ∈ xs, test y = some (p y)) (hfuel : xs.length < fuel) :
    Links.seek get test z fuel (next z) = some ((xs.find? p).getD z) := by
  refine seek_linked h.linked ?_ hget htest hfuel
  rintro y hy rfl
  exact (List.nodup_cons.1 h.nodup).1 hy

end Seek

end ChenixOS.Links
