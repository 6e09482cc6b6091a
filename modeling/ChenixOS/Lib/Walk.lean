import ChenixOS.Lib.Prog

/-!
# What the actions of a program do together

`Fixes g m`: whatever the action `m` does, what `g` observes of the state stays the same. `Walks Φ R p` says that
the actions of `p` satisfy `Φ`, apart from those behind which `p` never returns a value with `R`. So it can be
read off the code, branch by branch, and a branch that ends in another way is left out.

**Theorem (`Walks.run_rel`).** Where each of these actions keeps a relation between the state before and the
state after it, a program that returns a value with `R` keeps it.
-/

namespace ChenixOS

variable {σ L α β γ : Type} {g : σ → γ}

/-- The action does not change what `g` observes. -/
def Fixes (g : σ → γ) (m : StateT σ (Except Stop) β) : Prop :=
  ∀ s b s', m s = .ok (b, s') → g s' = g s

namespace Fixes

theorem pure (a : α) : Fixes g (Pure.pure a : StateT σ (Except Stop) α) := by
  intro s b s' h
  cases h
  rfl

theorem bind {m : StateT σ (Except Stop) α} {k : α → StateT σ (Except Stop) β} (hm : Fixes g m)
    (hk : ∀ a, Fixes g (k a)) : Fixes g (m >>= k) := by
  intro s b s' h
  have hrun : (m s >>= fun p => k p.1 p.2) = .ok (b, s') := h
  cases hms : m s with
  | error e =>
    rw [hms] at hrun
    cases hrun
  | ok p =>
    rw [hms] at hrun
    exact (hk p.1 _ _ _ hrun).trans (hm _ _ _ hms)

theorem ite {c : Prop} [Decidable c] {m m' : StateT σ (Except Stop) β} (hm : Fixes g m)
    (hm' : Fixes g m') : Fixes g (if c then m else m') := by
  split_ifs
  · exact hm
  · exact hm'

/-- An action that stops. -/
theorem error {m : StateT σ (Except Stop) β} (h : ∀ s, ∃ e, m s = .error e) : Fixes g m := by
  intro s b s' hs
  obtain ⟨e, he⟩ := h s
  rw [he] at hs
  cases hs

end Fixes

namespace Prog

/-- The program does not return a value with `R`. -/
def Never (R : α → Prop) (p : Prog σ L α) : Prop := ∀ s a s', p.run s = .ok (a, s') → ¬ R a

/-- On the way to a value with `R` the program has only actions with `Φ`. -/
def Walks (Φ : ∀ {β : Type}, StateT σ (Except Stop) β → Prop) (R : α → Prop) : Prog σ L α → Prop
  | .ret _ => True
  | .act l m k => (act l m k).Never R ∨ Φ m ∧ ∀ b, (k b).Walks Φ R

variable {Φ : ∀ {β : Type}, StateT σ (Except Stop) β → Prop} {R : α → Prop} {S : β → Prop}

theorem Never.ret {a : α} (h : ¬ R a) : (Prog.ret a : Prog σ L α).Never R := by
  intro s b s' hrun
  cases hrun
  exact h

theorem Never.bind {p : Prog σ L α} {k : α → Prog σ L β} (hk : ∀ a, (k a).Never S) : (p >>= k).Never S := by
  intro s b s' hrun
  obtain ⟨a, s₁, -, hrun⟩ := run_bind_ok.1 hrun
  exact hk a s₁ b s' hrun

namespace Walks

theorem ret (a : α) : (Prog.ret a : Prog σ L α).Walks Φ R := trivial

theorem never {p : Prog σ L α} (h : p.Never R) : p.Walks Φ R := by
  cases p with
  | ret a => trivial
  | act l m k => exact Or.inl h

theorem diverge (l : L) : (Prog.diverge l : Prog σ L α).Walks Φ R := by
  refine never fun s a s' hrun => ?_
  cases hrun

theorem atomic {l : L} {m : StateT σ (Except Stop) α} (h : Φ m) : (Prog.atomic l m).Walks Φ R :=
  Or.inr ⟨h, fun _ => trivial⟩

theorem bind {p : Prog σ L α} {k : α → Prog σ L β} (hp : p.Walks Φ fun _ => True)
    (hk : ∀ a, (k a).Walks Φ S) : (p >>= k).Walks Φ S := by
  induction p with
  | ret a => exact hk a
  | act l m k' ih =>
    rcases hp with hnever | ⟨hm, hp⟩
    · -- a program that never returns is not followed by anything
      refine never fun s b s' hrun => ?_
      obtain ⟨a, s₁, hrun, -⟩ := run_bind_ok.1 hrun
      exact absurd trivial (hnever s a s₁ hrun)
    · exact Or.inr ⟨hm, fun b => ih b (hp b)⟩

theorem map {p : Prog σ L α} {f : α → β} (hp : p.Walks Φ fun a => S (f a)) : (f <$> p).Walks Φ S := by
  show (p >>= fun a => Prog.ret (f a)).Walks Φ S
  induction p with
  | ret a => exact ret _
  | act l m k ih =>
    rcases hp with hnever | ⟨hm, hk⟩
    · refine never fun s b s' hrun => ?_
      obtain ⟨a, s₁, hrun, hret⟩ := run_bind_ok.1 hrun
      cases hret
      exact hnever s a _ hrun
    · exact Or.inr ⟨hm, fun b => ih b (hk b)⟩

theorem ite {c : Prop} [Decidable c] {p p' : Prog σ L α} (hp : p.Walks Φ R) (hp' : p'.Walks Φ R) :
    (if c then p else p').Walks Φ R := by
  split_ifs
  · exact hp
  · exact hp'

/-- **A relation that the actions keep.** -/
theorem run_rel {r : σ → σ → Prop} {p : Prog σ L α} {s s' : σ} {a : α} (hrefl : ∀ s, r s s)
    (htrans : ∀ s₁ s₂ s₃, r s₁ s₂ → r s₂ s₃ → r s₁ s₃)
    (hΦ : ∀ {β : Type} (m : StateT σ (Except Stop) β), Φ m → ∀ s b s', m s = .ok (b, s') → r s s')
    (hw : p.Walks Φ R) (hrun : p.run s = .ok (a, s')) (ha : R a) : r s s' := by
  induction p generalizing s with
  | ret a =>
    cases hrun
    exact hrefl _
  | act l m k ih =>
    rcases hw with hnever | ⟨hm, hk⟩
    · exact absurd ha (hnever s a s' hrun)
    · rw [run_act] at hrun
      cases hms : m s with
      | error e =>
        rw [hms] at hrun
        cases hrun
      | ok q =>
        rw [hms] at hrun
        exact htrans _ _ _ (hΦ m hm s _ _ hms) (ih q.1 (hk q.1) hrun)

/-- An observation that the actions leave alone. -/
theorem run_fixes {p : Prog σ L α} {s s' : σ} {a : α} (hw : p.Walks (Fixes g) R)
    (hrun : p.run s = .ok (a, s')) (ha : R a) : g s' = g s :=
  hw.run_rel (r := fun s s' => g s' = g s) (fun _ => rfl) (fun _ _ _ h h' => h'.trans h)
    (fun _ hm s b s' => hm s b s') hrun ha

end Walks

end Prog

end ChenixOS
