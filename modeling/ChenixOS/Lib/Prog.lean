import Mathlib.Algebra.BigOperators.Group.List.Basic
import Mathlib.Logic.Relation

/-!
# Programs of atomic steps

A program is a tree of *atomic actions*, each run on a shared state. One program run alone is a
sequential call (`run`); several programs whose actions alternate in any order are threads
(`Pool`). Both readings come from the same definition, so a fact proved action by action holds
for a lone call and for every interleaving.

**Safety.** `Safe` is that fact. A thread owns some resources `g` of a commutative monoid; the
rest of the system owns `f`; the invariant `I` is about the sum. An action must keep `I`, may
exchange what its thread owns, and must not touch `f`. What an action may assume of the others
is `C l f` — that nothing they rely on conflicts with its label `l`.

**Conflicts.** What a thread relies on is bounded by what it has done: `owes g l'` says that
`g` records the outcome of an action labelled `l'`. `Pool.Step` notes the labels a call has
executed, and a step is *conflict-free* when its label conflicts with no label that another
unfinished call has executed.

Main results: `Safe.run_ok` (a sequential call), `Pool.inv_run` (every conflict-free run of
threads).
-/

namespace ChenixOS

/-- Why an action has no outcome: it used an object that is not there (`fault`), it followed a
null pointer (`nullptr`), it wrote past the end of a fixed-size buffer (`overflow`), or it waits
for ever (`block`). -/
inductive Stop
  | fault
  | nullptr
  | overflow
  | block
  deriving DecidableEq, Repr

/-- A program over the state `σ` whose actions carry labels of type `L`. -/
inductive Prog (σ L α : Type) : Type 1
  | ret (a : α)
  | act {β : Type} (l : L) (m : StateT σ (Except Stop) β) (k : β → Prog σ L α)

namespace Prog

variable {σ L α β : Type}

def bind : Prog σ L α → (α → Prog σ L β) → Prog σ L β
  | ret a, f => f a
  | act l m k, f => act l m fun b => (k b).bind f

instance : Monad (Prog σ L) where
  pure := ret
  bind := bind

@[simp] theorem pure_eq (a : α) : (pure a : Prog σ L α) = ret a := rfl
@[simp] theorem ret_bind (a : α) (f : α → Prog σ L β) : (ret a >>= f) = f a := rfl
@[simp] theorem act_bind {γ : Type} (l : L) (m : StateT σ (Except Stop) γ)
    (k : γ → Prog σ L α) (f : α → Prog σ L β) :
    (act l m k >>= f) = act l m fun b => k b >>= f := rfl

/-- One action. -/
def atomic (l : L) (m : StateT σ (Except Stop) α) : Prog σ L α := act l m ret

/-- A program that never returns. -/
def diverge (l : L) : Prog σ L α := act l (fun _ => .error .block) ret

/-! ## Sequential runs -/

/-- Run a program alone. -/
def run : Prog σ L α → StateT σ (Except Stop) α
  | ret a => pure a
  | act _ m k => do
      let b ← m
      (k b).run

@[simp] theorem run_ret (a : α) (s : σ) : (ret a : Prog σ L α).run s = .ok (a, s) := rfl

theorem run_act {γ : Type} (l : L) (m : StateT σ (Except Stop) γ) (k : γ → Prog σ L α) (s : σ) :
    (act l m k).run s = match m s with
      | .ok (b, s') => (k b).run s'
      | .error e => .error e := by
  show (m s >>= fun p => (k p.1).run p.2) = _
  cases m s <;> rfl

@[simp] theorem run_atomic (l : L) (m : StateT σ (Except Stop) α) (s : σ) :
    (atomic l m).run s = m s := by
  rw [atomic, run_act]
  cases m s <;> rfl

@[simp] theorem run_diverge (l : L) (s : σ) :
    (diverge l : Prog σ L α).run s = .error .block := rfl

theorem run_bind (p : Prog σ L α) (f : α → Prog σ L β) (s : σ) :
    (p >>= f).run s = match p.run s with
      | .ok (a, s') => (f a).run s'
      | .error e => .error e := by
  induction p generalizing s with
  | ret a => rfl
  | act l m k ih =>
    rw [act_bind, run_act, run_act]
    cases m s with
    | error e => rfl
    | ok p => exact ih p.1 p.2

theorem run_bind_ok {p : Prog σ L α} {f : α → Prog σ L β} {s s' : σ} {b : β} :
    (p >>= f).run s = .ok (b, s') ↔
      ∃ a s₁, p.run s = .ok (a, s₁) ∧ (f a).run s₁ = .ok (b, s') := by
  rw [run_bind]
  rcases p.run s with e | ⟨a, s₁⟩
  · simp
  · simp

theorem run_map_ok {p : Prog σ L α} {f : α → β} {s s' : σ} {b : β} :
    (f <$> p).run s = .ok (b, s') ↔ ∃ a, p.run s = .ok (a, s') ∧ f a = b := by
  show (p >>= fun a => pure (f a)).run s = .ok (b, s') ↔ _
  rw [run_bind_ok]
  simp only [pure_eq, run_ret, Except.ok.injEq, Prod.mk.injEq]
  constructor
  · rintro ⟨a, s₁, hp, hf, rfl⟩
    exact ⟨a, hp, hf⟩
  · rintro ⟨a, hp, hf⟩
    exact ⟨a, s', hp, hf, rfl⟩

theorem run_bind_of_ok {p : Prog σ L α} (f : α → Prog σ L β) {s s' : σ} {a : α}
    (h : p.run s = .ok (a, s')) : (p >>= f).run s = (f a).run s' := by
  rw [run_bind, h]

end Prog

/-! ## Outcomes -/

section Ends

variable {σ β γ : Type}

/-- The outcome is not a `fault`, and if there is one it satisfies `P`. -/
def Ends (r : Except Stop (β × σ)) (P : β → σ → Prop) : Prop :=
  match r with
  | .ok (b, s) => P b s
  | .error .fault => False
  | .error _ => True

@[simp] theorem ends_ok {b : β} {s : σ} {P : β → σ → Prop} : Ends (.ok (b, s)) P ↔ P b s := Iff.rfl
@[simp] theorem ends_block {P : β → σ → Prop} : Ends (.error .block) P := trivial
@[simp] theorem ends_nullptr {P : β → σ → Prop} : Ends (.error .nullptr) P := trivial
@[simp] theorem ends_overflow {P : β → σ → Prop} : Ends (.error .overflow) P := trivial

theorem Ends.mono {r : Except Stop (β × σ)} {P Q : β → σ → Prop} (h : Ends r P)
    (hPQ : ∀ b s, P b s → Q b s) : Ends r Q := by
  rcases r with (_ | _ | _ | _) | ⟨b, s⟩
  · exact h
  · trivial
  · trivial
  · trivial
  · exact hPQ b s h

theorem Ends.bind {m : StateT σ (Except Stop) β} {k : β → StateT σ (Except Stop) γ} {s : σ}
    {P : β → σ → Prop} {Q : γ → σ → Prop} (h : Ends (m s) P)
    (hk : ∀ b s', P b s' → Ends (k b s') Q) : Ends ((m >>= k) s) Q := by
  show Ends (m s >>= fun p => k p.1 p.2) Q
  rcases hm : m s with (_ | _ | _ | _) | ⟨b, s'⟩ <;> rw [hm] at h
  · exact h
  · trivial
  · trivial
  · trivial
  · exact hk b s' h

theorem Ends.of_ok {r : Except Stop (β × σ)} {P : β → σ → Prop} {b : β} {s : σ} (h : Ends r P)
    (hr : r = .ok (b, s)) : P b s := by
  subst hr
  exact h

end Ends

/-! ## Safety of a program -/

section Safe

variable {σ L G α β : Type} [AddCommMonoid G]

/-- The program, owning `g`, keeps the invariant whatever the rest of the system owns, and ends
in `Q`. Before each action the rest of the system may have moved; it is constrained only by the
invariant and by `C`. A `fault` is never reached. -/
def Safe (I : G → σ → Prop) (owes : G → L → Prop) (C : L → G → Prop) :
    Prog σ L α → G → (α → G → Prop) → Prop
  | .ret a, g, Q => Q a g
  | .act l m k, g, Q => ∀ s f, I (g + f) s → C l f → Ends (m s) fun b s' =>
      ∃ g', I (g' + f) s' ∧ (∀ l', owes g' l' → owes g l' ∨ l' = l) ∧ Safe I owes C (k b) g' Q

/-- Nothing is assumed of the rest of the system beyond the invariant. -/
def Anyone (_ : L) (_ : G) : Prop := True

variable {I : G → σ → Prop} {owes : G → L → Prop} {C : L → G → Prop}

namespace Safe

theorem ret {a : α} {g : G} {Q : α → G → Prop} (h : Q a g) :
    Safe I owes C (Prog.ret a : Prog σ L α) g Q := h

theorem diverge (l : L) (g : G) (Q : α → G → Prop) :
    Safe I owes C (Prog.diverge l : Prog σ L α) g Q := fun _ _ _ _ => trivial

/-- One action: whatever the others own, it exchanges `g` for a `g'` that satisfies `Q`. -/
theorem atomic {l : L} {m : StateT σ (Except Stop) α} {g : G} {Q : α → G → Prop}
    (h : ∀ s f, I (g + f) s → C l f → Ends (m s) fun a s' =>
      ∃ g', I (g' + f) s' ∧ (∀ l', owes g' l' → owes g l' ∨ l' = l) ∧ Q a g') :
    Safe I owes C (Prog.atomic l m) g Q := h

theorem mono {p : Prog σ L α} {g : G} {Q Q' : α → G → Prop} (h : Safe I owes C p g Q)
    (hQ : ∀ a g, Q a g → Q' a g) : Safe I owes C p g Q' := by
  induction p generalizing g with
  | ret a => exact hQ a g h
  | act l m k ih =>
    intro s f hI hC
    refine (h s f hI hC).mono fun b s' => ?_
    rintro ⟨g', hI', howes, hk⟩
    exact ⟨g', hI', howes, ih b hk⟩

theorem bind {p : Prog σ L α} {k : α → Prog σ L β} {g : G} {R : α → G → Prop}
    {Q : β → G → Prop} (h : Safe I owes C p g R)
    (hk : ∀ a g', R a g' → Safe I owes C (k a) g' Q) : Safe I owes C (p >>= k) g Q := by
  induction p generalizing g with
  | ret a => exact hk a g h
  | act l m k' ih =>
    intro s f hI hC
    refine (h s f hI hC).mono fun b s' => ?_
    rintro ⟨g', hI', howes, hk'⟩
    exact ⟨g', hI', howes, ih b hk'⟩

/-- A program that needs no assumption on the others is safe under any. -/
theorem weaken {p : Prog σ L α} {g : G} {Q : α → G → Prop}
    (h : Safe I owes Anyone p g Q) : Safe I owes C p g Q := by
  induction p generalizing g with
  | ret a => exact h
  | act l m k ih =>
    intro s f hI _
    refine (h s f hI trivial).mono fun b s' => ?_
    rintro ⟨g', hI', howes, hk⟩
    exact ⟨g', hI', howes, ih b hk⟩

/-- **The frame rule.** What a thread owns and does not use is kept. -/
theorem frame {p : Prog σ L α} {g : G} {Q : α → G → Prop} (h : Safe I owes Anyone p g Q)
    (hadd : ∀ g g' l, owes (g + g') l ↔ owes g l ∨ owes g' l) (r : G) :
    Safe I owes Anyone p (g + r) fun a g' => ∃ g₀, g' = g₀ + r ∧ Q a g₀ := by
  induction p generalizing g with
  | ret a => exact ⟨g, rfl, h⟩
  | act l m k ih =>
    intro s f hI _
    rw [add_assoc] at hI
    refine (h s (r + f) hI trivial).mono fun b s' => ?_
    rintro ⟨g', hI', howes, hk⟩
    refine ⟨g' + r, by rwa [add_assoc], fun l' hl' => ?_, ih b hk⟩
    rw [hadd] at hl' ⊢
    rcases hl' with hl' | hl'
    · exact (howes l' hl').imp Or.inl id
    · exact Or.inl (Or.inr hl')

/-- A program and what follows it: the first part is proved from what it uses, `g₁`. -/
theorem seq {p : Prog σ L α} {k : α → Prog σ L β} {g g₁ r : G} {R : α → G → Prop}
    {Q : β → G → Prop} (hadd : ∀ g g' l, owes (g + g') l ↔ owes g l ∨ owes g' l)
    (h : Safe I owes Anyone p g₁ R) (hg : g = g₁ + r)
    (hk : ∀ a g', R a g' → Safe I owes C (k a) (g' + r) Q) : Safe I owes C (p >>= k) g Q := by
  subst hg
  refine bind (h.frame hadd r).weaken fun a g' => ?_
  rintro ⟨g₀, rfl, hR⟩
  exact hk a g₀ hR

/-- **A sequential call.** Run alone from a state that satisfies the invariant, a safe program
does not fault and ends in `Q` with the invariant restored. -/
theorem run_ends {p : Prog σ L α} {g f : G} {Q : α → G → Prop} {s : σ}
    (h : Safe I owes C p g Q) (hI : I (g + f) s) (hC : ∀ l, C l f) :
    Ends (p.run s) fun a s' => ∃ g', I (g' + f) s' ∧ Q a g' := by
  induction p generalizing g s with
  | ret a => exact ⟨g, hI, h⟩
  | act l m k ih =>
    refine Ends.bind (h s f hI (hC l)) fun b s' => ?_
    rintro ⟨g', hI', -, hk⟩
    exact ih b hk hI'

end Safe

end Safe

/-! ## Threads -/

/-- A thread in a call: what is left of it, and the labels of the actions it has executed. -/
structure Thread (σ L α : Type) where
  rest : Prog σ L α
  done : List L

/-- The call of this thread has returned. -/
def Thread.Returned {σ L α : Type} : Thread σ L α → Prop
  | ⟨.ret _, _⟩ => True
  | ⟨.act .., _⟩ => False

/-- Threads over a shared state. -/
structure Pool (σ L α : Type) where
  state : σ
  threads : List (Thread σ L α)

namespace Pool

variable {σ L G α : Type}

/-- Thread `i` takes the atomic step labelled `l`. -/
inductive Step : Pool σ L α → Nat → L → Pool σ L α → Prop
  | act {s s' : σ} {ts : List (Thread σ L α)} {i : Nat} {l : L} {β : Type}
      {m : StateT σ (Except Stop) β} {k : β → Prog σ L α} {done : List L} {b : β} :
      ts[i]? = some ⟨.act l m k, done⟩ → m s = .ok (b, s') →
      Step ⟨s, ts⟩ i l ⟨s', ts.set i ⟨k b, l :: done⟩⟩

/-- The step labelled `l` of thread `i` conflicts with nothing an unfinished call of another
thread has done. -/
def ConflictFree (conflict : L → L → Prop) (c : Pool σ L α) (i : Nat) (l : L) : Prop :=
  ∀ (j : Nat) (t : Thread σ L α), j ≠ i → c.threads[j]? = some t → ¬ t.Returned →
    ∀ l' ∈ t.done, ¬ conflict l l'

/-- Runs all of whose steps are conflict-free. -/
inductive Run (conflict : L → L → Prop) : Pool σ L α → Pool σ L α → Prop
  | refl (c : Pool σ L α) : Run conflict c c
  | step {c c₁ c₂ : Pool σ L α} {i : Nat} {l : L} : Run conflict c c₁ → Step c₁ i l c₂ →
      ConflictFree conflict c₁ i l → Run conflict c c₂

/-- What an action may assume when its step is conflict-free. -/
def NoConflict (owes : G → L → Prop) (conflict : L → L → Prop) (l : L) (f : G) : Prop :=
  ∀ l', owes f l' → ¬ conflict l l'

variable [AddCommMonoid G] {I : G → σ → Prop} {owes : G → L → Prop} {conflict : L → L → Prop}
  {Q : α → G → Prop} {f₀ : G} {c c' : Pool σ L α} {i : Nat} {l : L}

/-- Each thread owns a share `gs[i]` of the resources, is safe with it, and relies only on what
it has done; `f₀` is owned by nobody. -/
def Inv (I : G → σ → Prop) (owes : G → L → Prop) (conflict : L → L → Prop) (Q : α → G → Prop)
    (f₀ : G) (c : Pool σ L α) : Prop :=
  ∃ gs : List G, gs.length = c.threads.length ∧ I (gs.sum + f₀) c.state ∧
    ∀ (i : Nat) (t : Thread σ L α) (g : G), c.threads[i]? = some t → gs[i]? = some g →
      Safe I owes (NoConflict owes conflict) t.rest g Q ∧ ∀ l, owes g l → l ∈ t.done

/-- The share of one thread and the shares of the others. -/
theorem sum_eq_add_eraseIdx {gs : List G} {g : G} (h : gs[i]? = some g) :
    gs.sum = g + (gs.eraseIdx i).sum := by
  induction gs generalizing i with
  | nil => simp at h
  | cons a gs ih =>
    cases i with
    | zero =>
      obtain rfl : a = g := by simpa using h
      simp
    | succ i =>
      rw [List.eraseIdx_cons_succ, List.sum_cons, List.sum_cons, ih (by simpa using h),
        add_left_comm]

theorem sum_set_eq_add_eraseIdx {gs : List G} {g g' : G} (h : gs[i]? = some g) :
    (gs.set i g').sum = g' + (gs.eraseIdx i).sum := by
  have hlt : i < gs.length := (List.getElem?_eq_some_iff.1 h).1
  have hset : (gs.set i g')[i]? = some g' := by simp [hlt]
  rw [sum_eq_add_eraseIdx hset, List.eraseIdx_set_eq]

/-- What a sum of shares relies on, some share relies on. -/
theorem owes_sum (hadd : ∀ g g' l, owes (g + g') l ↔ owes g l ∨ owes g' l)
    (hzero : ∀ l, ¬ owes 0 l) {gs : List G} (h : owes gs.sum l) : ∃ g ∈ gs, owes g l := by
  induction gs with
  | nil => exact (hzero l h).elim
  | cons g gs ih =>
    rw [List.sum_cons, hadd] at h
    rcases h with h | h
    · exact ⟨g, List.mem_cons_self, h⟩
    · obtain ⟨g', hg', ho⟩ := ih h
      exact ⟨g', List.mem_cons_of_mem g hg', ho⟩

/-- A conflict-free step keeps the invariant of the pool. -/
theorem inv_step (hadd : ∀ g g' l, owes (g + g') l ↔ owes g l ∨ owes g' l)
    (hzero : ∀ l, ¬ owes 0 l) (hf₀ : ∀ l, ¬ owes f₀ l) (hQ : ∀ a g l, Q a g → ¬ owes g l)
    (hstep : Step c i l c') (hfree : ConflictFree conflict c i l)
    (hinv : Inv I owes conflict Q f₀ c) : Inv I owes conflict Q f₀ c' := by
  obtain ⟨gs, hlen, hI, hthreads⟩ := hinv
  cases hstep with
  | @act s s' ts _ _ β m k done b hget hm =>
    replace hlen : gs.length = ts.length := hlen
    have hi : i < ts.length := (List.getElem?_eq_some_iff.1 hget).1
    obtain ⟨g, hg⟩ : ∃ g, gs[i]? = some g :=
      ⟨_, List.getElem?_eq_getElem (by rw [hlen]; exact hi)⟩
    obtain ⟨hsafe, howes⟩ := hthreads i _ g hget hg
    -- The others rely only on labels of unfinished calls, and none of them conflicts.
    have hC : NoConflict owes conflict l ((gs.eraseIdx i).sum + f₀) := by
      intro l' hl' hc
      obtain ⟨g', hg', ho⟩ := owes_sum hadd hzero
        (((hadd _ _ _).1 hl').resolve_right (hf₀ l'))
      obtain ⟨j, hji, hj⟩ : ∃ j, j ≠ i ∧ gs[j]? = some g' := by
        obtain ⟨j, hj⟩ := List.mem_iff_getElem?.1 hg'
        rw [List.getElem?_eraseIdx] at hj
        split_ifs at hj with hlt
        · exact ⟨j, by omega, hj⟩
        · exact ⟨j + 1, by omega, hj⟩
      have hjlt : j < ts.length := by
        have := (List.getElem?_eq_some_iff.1 hj).1
        omega
      obtain ⟨hsafe', howes'⟩ := hthreads j ts[j] g' (List.getElem?_eq_getElem hjlt) hj
      refine hfree j ts[j] hji (List.getElem?_eq_getElem hjlt) ?_ l' (howes' l' ho) hc
      intro hret
      rcases htj : ts[j] with ⟨rest, dn⟩
      rw [htj] at hret hsafe'
      cases rest with
      | ret a => exact hQ a g' l' hsafe' ho
      | act => exact hret
    rw [sum_eq_add_eraseIdx hg, add_assoc] at hI
    have hends := hsafe s _ hI hC
    rw [hm] at hends
    obtain ⟨g', hI', howes', hk⟩ := hends
    refine ⟨gs.set i g', by simp [hlen], ?_, fun j t g₁ ht hg₁ => ?_⟩
    · rwa [sum_set_eq_add_eraseIdx hg, add_assoc]
    · by_cases hji : j = i
      · subst hji
        rw [List.getElem?_set_self hi, Option.some.injEq] at ht
        rw [List.getElem?_set_self (by omega), Option.some.injEq] at hg₁
        subst ht hg₁
        refine ⟨hk, fun l' hl' => ?_⟩
        rcases howes' l' hl' with h | rfl
        · exact List.mem_cons_of_mem l (howes l' h)
        · exact List.mem_cons_self
      · rw [List.getElem?_set_ne (Ne.symm hji)] at ht hg₁
        exact hthreads j t g₁ ht hg₁

/-- **Threads.** Along every run whose steps are conflict-free the invariant of the pool holds. -/
theorem inv_run (hadd : ∀ g g' l, owes (g + g') l ↔ owes g l ∨ owes g' l)
    (hzero : ∀ l, ¬ owes 0 l) (hf₀ : ∀ l, ¬ owes f₀ l) (hQ : ∀ a g l, Q a g → ¬ owes g l)
    (hrun : Run conflict c c') (hinv : Inv I owes conflict Q f₀ c) :
    Inv I owes conflict Q f₀ c' := by
  induction hrun with
  | refl => exact hinv
  | step _ hstep hfree ih => exact inv_step hadd hzero hf₀ hQ hstep hfree ih

end Pool

end ChenixOS
