import Mathlib.Data.List.Induction
import Mathlib.Logic.Relation

/-!
# Runs of a transition system

A transition system is a partial function `step` from a state and an event to the next state; all the
choices of an interleaving are in the events. A run may be restricted to events that a guard allows in
the state they are taken in.
-/

namespace ChenixOS.Transitions

variable {σ ε : Type} {step : σ → ε → Option σ} {ok : σ → ε → Prop} {s s' s'' : σ} {e : ε}

/-- A run of events that the guard allows. -/
def Runs (step : σ → ε → Option σ) (ok : σ → ε → Prop) : σ → σ → Prop :=
  Relation.ReflTransGen fun s s' => ∃ e, ok s e ∧ step s e = some s'

theorem Runs.refl (s : σ) : Runs step ok s s := Relation.ReflTransGen.refl

theorem Runs.head (hok : ok s e) (hstep : step s e = some s') (h : Runs step ok s' s'') :
    Runs step ok s s'' :=
  Relation.ReflTransGen.head ⟨e, hok, hstep⟩ h

theorem Runs.trans (h₁ : Runs step ok s s') (h₂ : Runs step ok s' s'') : Runs step ok s s'' :=
  Relation.ReflTransGen.trans h₁ h₂

/-- A weaker guard allows more runs. -/
theorem Runs.mono {ok' : σ → ε → Prop} (h : Runs step ok s s') (hok : ∀ s e, ok s e → ok' s e) :
    Runs step ok' s s' := by
  induction h with
  | refl => exact .refl s
  | tail _ hlast ih =>
    obtain ⟨e, he, hstep⟩ := hlast
    exact ih.trans (.head (hok _ e he) hstep (.refl _))

/-- **The invariant rule**: what holds at the start and is kept by every allowed step holds in every
state a run reaches. -/
theorem Runs.inv {I : σ → Prop} (h : Runs step ok s s') (hstart : I s)
    (hstep : ∀ s e s', I s → ok s e → step s e = some s' → I s') : I s' := by
  induction h with
  | refl => exact hstart
  | tail _ hlast ih =>
    obtain ⟨e, hok, hs⟩ := hlast
    exact hstep _ e _ ih hok hs

/-- The state after a list of events. -/
def exec (step : σ → ε → Option σ) : List ε → σ → Option σ
  | [], s => some s
  | e :: es, s => (step s e).bind (exec step es)

/-- The last event of a list. -/
theorem exec_snoc (es : List ε) (h : exec step es s = some s') : exec step (es ++ [e]) s = step s' e := by
  induction es generalizing s with
  | nil =>
    obtain rfl : s = s' := by simpa [exec] using h
    simp [exec]
  | cons e' es ih =>
    obtain ⟨s₁, hstep, hrest⟩ := Option.bind_eq_some_iff.1 h
    rw [List.cons_append, exec, hstep, Option.bind_some, ih hrest]

/-- A list of events is a run without a guard. -/
theorem runs_of_exec (es : List ε) (h : exec step es s = some s') :
    Runs step (fun _ _ => True) s s' := by
  induction es generalizing s with
  | nil =>
    obtain rfl : s = s' := by simpa [exec] using h
    exact .refl s
  | cons e es ih =>
    obtain ⟨s₁, hstep, hrest⟩ := Option.bind_eq_some_iff.1 h
    exact .head trivial hstep (ih hrest)

/-- A list of events is a run with a guard if a check that implies the guard passes at each of them. -/
theorem runs_of_checks {check : σ → ε → Bool} (hcheck : ∀ s e, check s e = true → ok s e)
    (es : List ε) (h : exec (fun s e => if check s e then step s e else none) es s = some s') :
    Runs step ok s s' := by
  induction es generalizing s with
  | nil =>
    obtain rfl : s = s' := by simpa [exec] using h
    exact .refl s
  | cons e es ih =>
    obtain ⟨s₁, hstep, hrest⟩ := Option.bind_eq_some_iff.1 h
    by_cases hok : check s e = true
    · have hs : step s e = some s₁ := by simpa [hok] using hstep
      exact .head (hcheck s e hok) hs (ih hrest)
    · simp [hok] at hstep

/-- **What holds after each event**, exactly if each event meets a guard: a step from a state with the invariant
leads to a good state exactly if it meets the guard, and to one with the invariant if it does. -/
theorem forall_prefix_iff {I good : List ε → Prop} {allowed : List ε → ε → Prop} (hstart : I [])
    (hgood : ∀ es, I es → good es) (hiff : ∀ es e, I es → (good (es ++ [e]) ↔ allowed es e))
    (hstep : ∀ es e, I es → allowed es e → I (es ++ [e])) (es : List ε) :
    (∀ done, done <+: es → good done) ↔ ∀ done e, done ++ [e] <+: es → allowed done e := by
  have hinv : ∀ es, (∀ done e, done ++ [e] <+: es → allowed done e) → I es := by
    intro es
    induction es using List.reverseRecOn with
    | nil => exact fun _ => hstart
    | append_singleton es e ih =>
      intro hall
      have hes := ih fun done e' hpre => hall done e' (hpre.trans (List.prefix_append es [e]))
      exact hstep es e hes (hall es e List.prefix_rfl)
  constructor
  · intro hall
    induction es using List.reverseRecOn with
    | nil =>
      intro done e hpre
      have hlen := hpre.length_le
      simp at hlen
    | append_singleton es e ih =>
      have hes := ih fun done hpre => hall done (hpre.trans (List.prefix_append es [e]))
      intro done e' hpre
      rcases List.prefix_concat_iff.1 hpre with heq | hin
      · obtain ⟨rfl, rfl⟩ : done = es ∧ e' = e := by simpa using heq
        exact (hiff done e' (hinv done hes)).1 (hall _ List.prefix_rfl)
      · exact hes done e' hin
  · intro hall done hpre
    exact hgood done (hinv done fun done' e hpre' => hall done' e (hpre'.trans hpre))

end ChenixOS.Transitions
