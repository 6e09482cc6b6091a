import Mathlib.Data.Prod.Basic

/-!
# Machines that answer

A machine that takes an event, goes to its next state and gives any number of outputs; an event may be
impossible in a state. A run is a list of events, and its outputs are those of its steps.

**Simulation (`play_map`, `play_simulates`).** If a view of the states commutes with the steps of two machines,
or a relation of the states is kept by them, their runs give the same outputs.
-/

namespace ChenixOS.Interaction

variable {σ τ ε ο : Type} {step : σ → ε → Option (σ × List ο)} {ok : σ → ε → Prop} {s s' s'' : σ}
  {e : ε} {es es' : List ε} {out outs outs' : List ο}

/-- Put outputs before those of a run. -/
def after (out : List ο) (r : σ × List ο) : σ × List ο := (r.1, out ++ r.2)

/-- A run, with all of its outputs. -/
def play (step : σ → ε → Option (σ × List ο)) : σ → List ε → Option (σ × List ο)
  | s, [] => some (s, [])
  | s, e :: es => (step s e).bind fun r => (play step r.1 es).map (after r.2)

theorem play_cons_of (h : step s e = some (s', out)) (hrest : play step s' es = some (s'', outs)) :
    play step s (e :: es) = some (s'', out ++ outs) := by
  rw [play, h, Option.bind_some, hrest, Option.map_some, after]

/-- The first step of a run. -/
theorem exists_of_play_cons (h : play step s (e :: es) = some (s'', outs)) :
    ∃ s' out outs', step s e = some (s', out) ∧ play step s' es = some (s'', outs') ∧
      outs = out ++ outs' := by
  rw [play] at h
  obtain ⟨⟨s', out⟩, hstep, hrest⟩ := Option.bind_eq_some_iff.1 h
  obtain ⟨⟨t, outs'⟩, hplay, heq⟩ := Option.map_eq_some_iff.1 hrest
  obtain ⟨rfl, rfl⟩ := Prod.mk.inj heq
  exact ⟨s', out, outs', hstep, hplay, rfl⟩

/-- Every event of a run is allowed in the state it is taken in. -/
def Allowed (step : σ → ε → Option (σ × List ο)) (ok : σ → ε → Prop) : σ → List ε → Prop
  | _, [] => True
  | s, e :: es => ok s e ∧ ∀ s' out, step s e = some (s', out) → Allowed step ok s' es

theorem Allowed.of_step (h : step s e = some (s', out)) (hok : ok s e) (hrest : Allowed step ok s' es) :
    Allowed step ok s (e :: es) := by
  refine ⟨hok, fun t out' ht => ?_⟩
  obtain ⟨rfl, -⟩ := Prod.mk.inj (Option.some.inj (h.symm.trans ht))
  exact hrest

/-- **Simulation**: two machines whose steps agree through a view have the same outputs. -/
theorem play_map {step' : τ → ε → Option (τ × List ο)} {view : σ → τ}
    (h : ∀ s e, (step s e).map (Prod.map view id) = step' (view s) e) (s : σ) (es : List ε) :
    (play step s es).map (Prod.map view id) = play step' (view s) es := by
  induction es generalizing s with
  | nil => rfl
  | cons e es ih =>
    rw [play, play, ← h s e]
    cases hstep : step s e with
    | none => rfl
    | some r =>
      rw [Option.bind_some, Option.map_some, Option.bind_some, Option.map_map]
      show _ = (play step' (view r.1) es).map (after r.2)
      rw [← ih r.1, Option.map_map]
      rfl

theorem play_view {step' : τ → ε → Option (τ × List ο)} {view : σ → τ}
    (h : ∀ s e, (step s e).map (Prod.map view id) = step' (view s) e)
    (hplay : play step s es = some (s', outs)) : play step' (view s) es = some (view s', outs) := by
  rw [← play_map h, hplay, Option.map_some, Prod.map, id]

/-- A simulation maps allowed runs to allowed runs. -/
theorem Allowed.map {step' : τ → ε → Option (τ × List ο)} {view : σ → τ} {ok' : τ → ε → Prop}
    (h : ∀ s e, (step s e).map (Prod.map view id) = step' (view s) e)
    (hok : ∀ s e, ok s e → ok' (view s) e) (hall : Allowed step ok s es) :
    Allowed step' ok' (view s) es := by
  induction es generalizing s with
  | nil => trivial
  | cons e es ih =>
    refine ⟨hok s e hall.1, fun t out ht => ?_⟩
    rw [← h s e] at ht
    obtain ⟨⟨s', out'⟩, hstep, heq⟩ := Option.map_eq_some_iff.1 ht
    obtain ⟨rfl, -⟩ := Prod.mk.inj heq
    exact ih (hall.2 s' out' hstep)

/-- **Simulation by a relation**: if each step of the second machine is matched by one of the first with the
same outputs, so is each run. -/
theorem play_simulates {step' : τ → ε → Option (τ × List ο)} {R : σ → τ → Prop}
    (h : ∀ s t e t' out, R s t → step' t e = some (t', out) → ∃ s', step s e = some (s', out) ∧ R s' t')
    {t t' : τ} (hR : R s t) (hplay : play step' t es = some (t', outs)) :
    ∃ s', play step s es = some (s', outs) ∧ R s' t' := by
  induction es generalizing s t outs with
  | nil =>
    obtain ⟨rfl, rfl⟩ := Prod.mk.inj (Option.some.inj hplay)
    exact ⟨s, rfl, hR⟩
  | cons e es ih =>
    obtain ⟨t₁, out, outs', hstep, hrest, rfl⟩ := exists_of_play_cons hplay
    obtain ⟨s₁, hs₁, hR₁⟩ := h s t e t₁ out hR hstep
    obtain ⟨s₂, hs₂, hR₂⟩ := ih hR₁ hrest
    exact ⟨s₂, play_cons_of hs₁ hs₂, hR₂⟩

end ChenixOS.Interaction
