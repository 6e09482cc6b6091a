import Mathlib.Logic.Basic

/-!
# Paths in graphs with named edges

`E a x b` is an edge from `a` to `b` with the name `x`. `Leads E r xs b` says that the names `xs`, one
after the other, lead from `r` to `b`. In a `Branching` graph the nodes that have edges have at most one
edge to them, and the root has none.

**Theorem (`Branching.leads_unique`).** There at most one path leads to a node that has edges. So no path
comes back to one of its nodes (`Branching.not_cycle`).
-/

namespace ChenixOS

variable {α β : Type} {E : α → β → α → Prop} {r a b : α} {x : β} {xs ys : List β}

/-- The names lead from `r` to the node. -/
inductive Leads (E : α → β → α → Prop) (r : α) : List β → α → Prop
  | root : Leads E r [] r
  | snoc {xs : List β} {a : α} {x : β} {b : α} : Leads E r xs a → E a x b → Leads E r (xs ++ [x]) b

namespace Leads

/-- One path behind the other. -/
theorem append (h : Leads E r xs a) (h' : Leads E a ys b) : Leads E r (xs ++ ys) b := by
  induction h' with
  | root => rwa [List.append_nil]
  | snoc _ he ih =>
    rw [← List.append_assoc]
    exact .snoc ih he

theorem cons (he : E r x a) (h : Leads E a xs b) : Leads E r (x :: xs) b := (snoc root he).append h

end Leads

/-- The edges of a node have different names. The nodes with `D` have at most one edge to them, and they are
the only ones that have edges. -/
structure Branching (E : α → β → α → Prop) (r : α) (D : α → Prop) : Prop where
  name : ∀ a x b c, E a x b → E a x c → b = c
  source : ∀ a x b, E a x b → D a
  unique : ∀ a x a' x' b, D b → E a x b → E a' x' b → a = a' ∧ x = x'
  root : ∀ a x, ¬ E a x r

namespace Branching

variable {D : α → Prop}

/-- **One path leads to a node with `D`**, at most. -/
theorem leads_unique (h : Branching E r D) (hb : D b) (hxs : Leads E r xs b) (hys : Leads E r ys b) :
    xs = ys := by
  induction hxs generalizing ys with
  | root =>
    cases hys with
    | root => rfl
    | snoc _ he => exact absurd he (h.root _ _)
  | snoc _ he ih =>
    cases hys with
    | root => exact absurd he (h.root _ _)
    | snoc hys he' =>
      obtain ⟨rfl, rfl⟩ := h.unique _ _ _ _ _ hb he he'
      rw [ih (h.source _ _ _ he) hys]

/-- **No path comes back** to a node with `D` that the root leads to. -/
theorem not_cycle (h : Branching E r D) (hb : D b) (hxs : Leads E r xs b) (hys : Leads E b ys b) : ys = [] :=
  List.append_right_eq_self.1 (h.leads_unique hb hxs (hxs.append hys)).symm

end Branching

end ChenixOS
