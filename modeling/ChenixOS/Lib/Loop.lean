/-!
# Loops

The body of a loop takes a state to the next one, leaves the loop with a result, or fails. `run` goes through a
bounded number of rounds; `Returns` says that the loop is left with a result, after whatever number of rounds.
-/

namespace ChenixOS.Loop

/-- What one round of a loop comes to, if it does not fail. -/
inductive Round (σ τ : Type) where
  | next (s : σ)
  | done (t : τ)

variable {σ τ : Type} {body : σ → Option (Round σ τ)} {s s' : σ} {t t' : τ}

/-- At most `n` rounds. -/
def run (body : σ → Option (Round σ τ)) : (n : Nat) → σ → Option τ
  | 0, _ => none
  | n + 1, s =>
    match body s with
    | none => none
    | some (.done t) => some t
    | some (.next s') => run body n s'

inductive Returns (body : σ → Option (Round σ τ)) : σ → τ → Prop where
  | done {s : σ} {t : τ} : body s = some (.done t) → Returns body s t
  | next {s s' : σ} {t : τ} : body s = some (.next s') → Returns body s' t → Returns body s t

/-- **A loop is left exactly if some number of rounds leaves it.** -/
theorem returns_iff : Returns body s t ↔ ∃ n, run body n s = some t := by
  constructor
  · intro h
    induction h with
    | done hbody => exact ⟨1, by rw [run, hbody]⟩
    | next hbody _ ih =>
      obtain ⟨n, hn⟩ := ih
      exact ⟨n + 1, by rw [run, hbody]; exact hn⟩
  · rintro ⟨n, hn⟩
    induction n generalizing s with
    | zero => cases hn
    | succ n ih =>
      rw [run] at hn
      split at hn
      · cases hn
      · next hbody => exact Option.some.inj hn ▸ .done hbody
      · next hbody => exact .next hbody (ih hn)

theorem returns_of_next (h : body s = some (.next s')) : Returns body s t ↔ Returns body s' t := by
  refine ⟨fun hret => ?_, .next h⟩
  cases hret with
  | done hbody => cases h ▸ hbody
  | next hbody hrest =>
    rw [h] at hbody
    cases hbody
    exact hrest

theorem returns_of_done (h : body s = some (.done t')) : Returns body s t ↔ t = t' := by
  refine ⟨fun hret => ?_, fun ht => ht ▸ .done h⟩
  cases hret with
  | done hbody =>
    rw [h] at hbody
    cases hbody
    rfl
  | next hbody _ => cases h ▸ hbody

/-- A round that fails does not leave the loop. -/
theorem not_returns_of_none (h : body s = none) : ¬Returns body s t := by
  intro hret
  cases hret with
  | done hbody => cases h ▸ hbody
  | next hbody _ => cases h ▸ hbody

theorem Returns.unique (h : Returns body s t) (h' : Returns body s t') : t = t' := by
  induction h with
  | done hbody => exact ((returns_of_done hbody).1 h').symm
  | next hbody _ ih => exact ih ((returns_of_next hbody).1 h')

/-- **The rule for a loop that is never left**: from the states of `I` a round fails or leads to another one. -/
theorem not_returns_of_inv {I : σ → Prop} (hI : ∀ s r, I s → body s = some r → ∃ s', r = .next s' ∧ I s')
    (hs : I s) : ¬Returns body s t := by
  intro hret
  induction hret with
  | done hbody =>
    obtain ⟨_, hdone, _⟩ := hI _ _ hs hbody
    cases hdone
  | next hbody _ ih =>
    obtain ⟨_, hnext, hs'⟩ := hI _ _ hs hbody
    cases hnext
    exact ih hs'

/-! ## Stages of a loop -/

/-- If `P` holds, the loop is left from `s` as it is left from `s'`, and otherwise not at all. -/
structure Passes (body : σ → Option (Round σ τ)) (P : Prop) (s s' : σ) : Prop where
  goes : P → ∀ t, Returns body s t ↔ Returns body s' t
  stuck : ¬P → ∀ t, ¬Returns body s t

variable {P Q : Prop} {s'' : σ}

theorem passes_refl : Passes body True s s where
  goes _ _ := Iff.rfl
  stuck h := absurd trivial h

theorem passes_of_next (h : body s = some (.next s')) : Passes body True s s' where
  goes _ _ := returns_of_next h
  stuck hnot := absurd trivial hnot

theorem passes_of_none (h : body s = none) : Passes body False s s' where
  goes hfalse := hfalse.elim
  stuck _ _ := not_returns_of_none h

theorem Passes.of_next (h' : Passes body P s' s'') (h : body s = some (.next s')) : Passes body P s s'' where
  goes hP t := (returns_of_next h).trans (h'.goes hP t)
  stuck hnot t hret := h'.stuck hnot t ((returns_of_next h).1 hret)

theorem Passes.iff (h : Passes body P s s') (hPQ : P ↔ Q) : Passes body Q s s' := by rwa [← hPQ]

/-- **Stages compose.** -/
theorem Passes.trans (h : Passes body P s s') (h' : P → Passes body Q s' s'') : Passes body (P ∧ Q) s s'' where
  goes hPQ t := (h.goes hPQ.1 t).trans ((h' hPQ.1).goes hPQ.2 t)
  stuck hnot t hret := by
    by_cases hP : P
    · exact (h' hP).stuck (fun hQ => hnot ⟨hP, hQ⟩) t ((h.goes hP t).1 hret)
    · exact h.stuck hP t hret

/-- A loop that fails after some rounds, which an evaluation shows. -/
def fails (body : σ → Option (Round σ τ)) : Nat → σ → Bool
  | 0, _ => false
  | n + 1, s =>
    match body s with
    | none => true
    | some (.done _) => false
    | some (.next s') => fails body n s'

theorem not_returns_of_fails {n : Nat} (h : fails body n s = true) : ¬Returns body s t := by
  induction n generalizing s with
  | zero => cases h
  | succ n ih =>
    rw [fails] at h
    split at h
    · next hbody => exact not_returns_of_none hbody
    · cases h
    · next hbody => exact fun hret => ih h ((returns_of_next hbody).1 hret)

/-! ## Loops over a list -/

/-- **The invariant rule for a loop over a list**, of which a round may fail. -/
theorem foldlM_inv {α β : Type} {f : β → α → Option β} {l : List α} {I : β → Prop} {b b' : β} (hb : I b)
    (hf : ∀ b a b', I b → a ∈ l → f b a = some b' → I b') (h : l.foldlM f b = some b') : I b' := by
  induction l generalizing b with
  | nil =>
    obtain rfl : b = b' := by simpa using h
    exact hb
  | cons a l ih =>
    rw [List.foldlM_cons] at h
    obtain ⟨c, hc, hrest⟩ := Option.bind_eq_some_iff.1 h
    exact ih (hf b a c hb List.mem_cons_self hc)
      (fun b a b' hb ha => hf b a b' hb (List.mem_cons_of_mem _ ha)) hrest

end ChenixOS.Loop
