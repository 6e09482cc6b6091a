import Mathlib.Data.Multiset.Replicate
import Mathlib.Logic.Function.Basic
import Mathlib.Logic.Relation

/-!
# Programs that hold counted objects

A program works on objects behind pointers. It acquires references to them, reads and writes them, and
releases the references; the release of the last reference destroys an object that nothing keeps. Whether
something does is a matter of the object, not of the program: the objects come from a `World` that says
how they may look when they are read in, and what others may do to them meanwhile.

**Safety.** A program must not touch an object that one of its own releases has destroyed. `Disciplined` is
a check of the program text: whatever the world answers, an object is touched only while the program holds
a reference to it. Others cannot take that reference away, so such a program is safe in every world
(`Disciplined.safe`). For a program that is not disciplined, `wp` says what it needs of the world
(`wp_safe`).
-/

namespace ChenixOS.Holders

variable {Ref Key Obj Ask : Type} {Ans : Ask → Type} {α β : Type}

/-! ## Programs -/

/-- A program; `ask` is for whatever else it finds out. -/
inductive Prog (Ref Key Obj : Type) {Ask : Type} (Ans : Ask → Type) (α : Type)
  | ret (a : α)
  | diverge
  /-- Find the object of this key, or read it in. -/
  | acquire (key : Key) (k : Ref → Prog Ref Key Obj Ans α)
  /-- A new object, with `count` references. -/
  | create (key : Key) (count : Nat) (k : Ref → Prog Ref Key Obj Ans α)
  /-- Take over a reference that somebody else has held. -/
  | take (r : Ref) (k : Prog Ref Key Obj Ans α)
  | read (r : Ref) (k : Obj → Prog Ref Key Obj Ans α)
  | write (r : Ref) (f : Obj → Obj) (k : Prog Ref Key Obj Ans α)
  /-- Destroy the object if it is not used, after giving back a reference if `decrement`. -/
  | release (r : Ref) (decrement : Bool) (k : Prog Ref Key Obj Ans α)
  | ask (q : Ask) (k : Ans q → Prog Ref Key Obj Ans α)

namespace Prog

def bind : Prog Ref Key Obj Ans α → (α → Prog Ref Key Obj Ans β) → Prog Ref Key Obj Ans β
  | ret a, f => f a
  | diverge, _ => diverge
  | acquire key k, f => acquire key fun r => (k r).bind f
  | create key count k, f => create key count fun r => (k r).bind f
  | take r k, f => take r (k.bind f)
  | read r k, f => read r fun o => (k o).bind f
  | write r g k, f => write r g (k.bind f)
  | release r decrement k, f => release r decrement (k.bind f)
  | ask q k, f => ask q fun a => (k a).bind f

instance : Monad (Prog Ref Key Obj Ans) where
  pure := ret
  bind := bind

theorem bind_eq (p : Prog Ref Key Obj Ans α) (f : α → Prog Ref Key Obj Ans β) :
    (p >>= f) = p.bind f := rfl

example (a : α) (f : α → Prog Ref Key Obj Ans β) : (ret a).bind f = f a := by simp [bind]

/-- The object that the next action touches. -/
def touches : Prog Ref Key Obj Ans α → Option Ref
  | read r _ | write r _ _ | release r _ _ => some r
  | _ => none

end Prog

/-! ## Worlds -/

/-- Where objects come from, what others do to those in use, and which are kept when the last reference
is gone. -/
structure World (Key Obj : Type) where
  reads : Key → Obj → Prop
  creates : Key → Obj → Prop
  named : Key → Obj → Prop
  meanwhile : Obj → Obj → Prop
  kept : Obj → Bool

/-- What an object may have become. -/
def World.Later (W : World Key Obj) : Obj → Obj → Prop := Relation.ReflTransGen W.meanwhile

/-- How an object may look. -/
def World.Seen (W : World Key Obj) (o : Obj) : Prop :=
  ∃ key o₀, (W.reads key o₀ ∨ W.creates key o₀) ∧ W.Later o₀ o

theorem World.Seen.later {W : World Key Obj} {o o' : Obj} (h : W.Seen o) (hl : W.Later o o') :
    W.Seen o' := by
  obtain ⟨key, o₀, hread, hlater⟩ := h
  exact ⟨key, o₀, hread, hlater.trans hl⟩

/-- The objects that exist, with their counters. The other fields are not in a program's memory: the
references that are its own, and the objects that its own releases have destroyed. -/
structure Config (Ref Obj : Type) where
  obj : Ref → Option Obj
  refs : Ref → Nat
  own : Ref → Nat
  dead : Ref → Prop

/-- What others may do: change objects, create and destroy them, and count as they like, but they do not
give back references that are not theirs. -/
structure Others (W : World Key Obj) (c c' : Config Ref Obj) : Prop where
  own : c'.own = c.own
  dead : c'.dead = c.dead
  held : ∀ r o, 0 < c.own r → c.obj r = some o →
    ∃ o', c'.obj r = some o' ∧ W.Later o o' ∧ (c.own r ≤ c.refs r → c.own r ≤ c'.refs r)
  free : ∀ r o', c.own r = 0 → c'.obj r = some o' →
    (∃ o, c.obj r = some o ∧ W.Later o o') ∨ W.Seen o'

section

variable [DecidableEq Ref]

namespace Config

/-- The program gets `n` references; the pointer is to an object that exists. -/
def gain (c : Config Ref Obj) (r : Ref) (n : Nat) : Config Ref Obj :=
  { c with own := Function.update c.own r (c.own r + n), dead := fun r' => r' ≠ r ∧ c.dead r' }

/-- A reference to an object that exists. -/
def acquired (c : Config Ref Obj) (r : Ref) : Config Ref Obj :=
  { c with refs := Function.update c.refs r (c.refs r + 1) }.gain r 1

/-- A new object with `n` references. -/
def placed (c : Config Ref Obj) (r : Ref) (o : Obj) (n : Nat) : Config Ref Obj :=
  { c with obj := Function.update c.obj r (some o), refs := Function.update c.refs r n }.gain r n

/-- Without `n` references of the program. -/
def lose (c : Config Ref Obj) (r : Ref) (n : Nat) : Config Ref Obj :=
  { c with
    refs := Function.update c.refs r (c.refs r - n), own := Function.update c.own r (c.own r - n) }

def destroyed (c : Config Ref Obj) (r : Ref) : Config Ref Obj :=
  { c with obj := Function.update c.obj r none, dead := fun r' => r' = r ∨ c.dead r' }

/-- After the release of the object `o` at `r`. -/
def released (W : World Key Obj) (c : Config Ref Obj) (r : Ref) (decrement : Bool) (o : Obj) :
    Config Ref Obj :=
  let c := c.lose r decrement.toNat
  if c.refs r = 0 ∧ W.kept o = false then c.destroyed r else c

end Config

/-- How an object is acquired: it is there, or it is read in. -/
inductive Acquires (W : World Key Obj) (key : Key) (c : Config Ref Obj) : Ref → Config Ref Obj → Prop
  | cached {r : Ref} {o : Obj} (h : c.obj r = some o) (hname : W.named key o) :
      Acquires W key c r (c.acquired r)
  | fresh {r : Ref} {o : Obj} (h : c.obj r = none) (hread : W.reads key o) :
      Acquires W key c r (c.placed r o 1)

/-- One action of the program, or something that others do. -/
inductive Step (W : World Key Obj) :
    Prog Ref Key Obj Ans α × Config Ref Obj → Prog Ref Key Obj Ans α × Config Ref Obj → Prop
  | others {p : Prog Ref Key Obj Ans α} {c c' : Config Ref Obj} (h : Others W c c') :
      Step W (p, c) (p, c')
  | acquire {key : Key} {k : Ref → Prog Ref Key Obj Ans α} {c c' : Config Ref Obj} {r : Ref}
      (h : Acquires W key c r c') : Step W (.acquire key k, c) (k r, c')
  | create {key : Key} {count : Nat} {k : Ref → Prog Ref Key Obj Ans α} {c : Config Ref Obj} {r : Ref}
      {o : Obj} (h : c.obj r = none) (hcreate : W.creates key o) :
      Step W (.create key count k, c) (k r, c.placed r o count)
  | take {r : Ref} {k : Prog Ref Key Obj Ans α} {c : Config Ref Obj} (h : (c.obj r).isSome)
      (hrefs : c.own r < c.refs r) : Step W (.take r k, c) (k, c.gain r 1)
  | read {r : Ref} {k : Obj → Prog Ref Key Obj Ans α} {c : Config Ref Obj} {o : Obj}
      (h : c.obj r = some o) : Step W (.read r k, c) (k o, c)
  | write {r : Ref} {f : Obj → Obj} {k : Prog Ref Key Obj Ans α} {c : Config Ref Obj} {o : Obj}
      (h : c.obj r = some o) :
      Step W (.write r f k, c) (k, { c with obj := Function.update c.obj r (some (f o)) })
  | release {r : Ref} {decrement : Bool} {k : Prog Ref Key Obj Ans α} {c : Config Ref Obj} {o : Obj}
      (h : c.obj r = some o) :
      Step W (.release r decrement k, c) (k, c.released W r decrement o)
  | ask {q : Ask} {k : Ans q → Prog Ref Key Obj Ans α} {c : Config Ref Obj} (a : Ans q) :
      Step W (.ask q k, c) (k a, c)

/-- The next action touches an object that the program has destroyed. -/
def TouchesDead (p : Prog Ref Key Obj Ans α) (c : Config Ref Obj) : Prop :=
  ∃ r, p.touches = some r ∧ c.dead r

/-- No run comes to touch a destroyed object. -/
def Safe (W : World Key Obj) (p : Prog Ref Key Obj Ans α) (c : Config Ref Obj) : Prop :=
  ∀ p' c', Relation.ReflTransGen (Step W) (p, c) (p', c') → ¬ TouchesDead p' c'

/-- Where a program begins: nothing is its own and nothing was destroyed. -/
structure Begins (W : World Key Obj) (c : Config Ref Obj) : Prop where
  own : ∀ r, c.own r = 0
  dead : ∀ r, ¬ c.dead r
  seen : ∀ r o, c.obj r = some o → W.Seen o

/-! ## What a program needs of the world -/

variable {W : World Key Obj} {c c' c'' : Config Ref Obj} {p : Prog Ref Key Obj Ans α}
  {Q Q' : α → Config Ref Obj → Prop} {g : Multiset Ref} {r : Ref} {o : Obj}

omit [DecidableEq Ref] in
theorem Others.refl (W : World Key Obj) (c : Config Ref Obj) : Others W c c where
  own := rfl
  dead := rfl
  held _ o _ ho := ⟨o, ho, .refl, id⟩
  free _ o _ ho := .inl ⟨o, ho, .refl⟩

omit [DecidableEq Ref] in
theorem Others.trans (h : Others W c c') (h' : Others W c' c'') : Others W c c'' where
  own := h'.own.trans h.own
  dead := h'.dead.trans h.dead
  held r o hown ho := by
    obtain ⟨o', ho', hlater, hrefs⟩ := h.held r o hown ho
    obtain ⟨o'', ho'', hlater', hrefs'⟩ := h'.held r o' (by rw [h.own]; exact hown) ho'
    rw [h.own] at hrefs'
    exact ⟨o'', ho'', hlater.trans hlater', hrefs' ∘ hrefs⟩
  free r o'' hown ho'' := by
    rcases h'.free r o'' (by rw [h.own]; exact hown) ho'' with ⟨o', ho', hlater'⟩ | hseen
    · rcases h.free r o' hown ho' with ⟨o, ho, hlater⟩ | hseen
      · exact .inl ⟨o, ho, hlater.trans hlater'⟩
      · exact .inr (hseen.later hlater')
    · exact .inr hseen

/-- The weakest precondition: whatever the others do before each action, the program touches nothing that
it has destroyed, and if it ends, then in `Q`. -/
def wp (W : World Key Obj) : Prog Ref Key Obj Ans α → (α → Config Ref Obj → Prop) → Config Ref Obj → Prop
  | .ret a, Q, c => Q a c
  | .diverge, _, _ => True
  | .acquire key k, Q, c => ∀ c₁, Others W c c₁ → ∀ r c₂, Acquires W key c₁ r c₂ → wp W (k r) Q c₂
  | .create key count k, Q, c => ∀ c₁, Others W c c₁ → ∀ r o, c₁.obj r = none → W.creates key o →
      wp W (k r) Q (c₁.placed r o count)
  | .take r k, Q, c => ∀ c₁, Others W c c₁ → (c₁.obj r).isSome → c₁.own r < c₁.refs r →
      wp W k Q (c₁.gain r 1)
  | .read r k, Q, c => ¬ c.dead r ∧ ∀ c₁, Others W c c₁ → ∀ o, c₁.obj r = some o → wp W (k o) Q c₁
  | .write r f k, Q, c => ¬ c.dead r ∧ ∀ c₁, Others W c c₁ → ∀ o, c₁.obj r = some o →
      wp W k Q { c₁ with obj := Function.update c₁.obj r (some (f o)) }
  | .release r decrement k, Q, c => ¬ c.dead r ∧ ∀ c₁, Others W c c₁ → ∀ o, c₁.obj r = some o →
      wp W k Q (c₁.released W r decrement o)
  | .ask _ k, Q, c => ∀ c₁, Others W c c₁ → ∀ a, wp W (k a) Q c₁

theorem wp_mono (h : wp W p Q c) (hQ : ∀ a c, Q a c → Q' a c) : wp W p Q' c := by
  induction p generalizing c with
  | ret a => exact hQ a c h
  | diverge => trivial
  | acquire key k ih => exact fun c₁ h₁ r c₂ h₂ => ih r (h c₁ h₁ r c₂ h₂)
  | create key count k ih => exact fun c₁ h₁ r o h₂ h₃ => ih r (h c₁ h₁ r o h₂ h₃)
  | take r k ih => exact fun c₁ h₁ h₂ h₃ => ih (h c₁ h₁ h₂ h₃)
  | read r k ih => exact ⟨h.1, fun c₁ h₁ o h₂ => ih o (h.2 c₁ h₁ o h₂)⟩
  | write r f k ih => exact ⟨h.1, fun c₁ h₁ o h₂ => ih (h.2 c₁ h₁ o h₂)⟩
  | release r decrement k ih => exact ⟨h.1, fun c₁ h₁ o h₂ => ih (h.2 c₁ h₁ o h₂)⟩
  | ask q k ih => exact fun c₁ h₁ a => ih a (h c₁ h₁ a)

/-- One program after another. -/
theorem wp_bind {f : α → Prog Ref Key Obj Ans β} {R : β → Config Ref Obj → Prop}
    (h : wp W p (fun a c => wp W (f a) R c) c) : wp W (p >>= f) R c := by
  rw [Prog.bind_eq]
  induction p generalizing c with
  | ret a => exact h
  | diverge => trivial
  | acquire key k ih => exact fun c₁ h₁ r c₂ h₂ => ih r (h c₁ h₁ r c₂ h₂)
  | create key count k ih => exact fun c₁ h₁ r o h₂ h₃ => ih r (h c₁ h₁ r o h₂ h₃)
  | take r k ih => exact fun c₁ h₁ h₂ h₃ => ih (h c₁ h₁ h₂ h₃)
  | read r k ih => exact ⟨h.1, fun c₁ h₁ o h₂ => ih o (h.2 c₁ h₁ o h₂)⟩
  | write r f k ih => exact ⟨h.1, fun c₁ h₁ o h₂ => ih (h.2 c₁ h₁ o h₂)⟩
  | release r decrement k ih => exact ⟨h.1, fun c₁ h₁ o h₂ => ih (h.2 c₁ h₁ o h₂)⟩
  | ask q k ih => exact fun c₁ h₁ a => ih a (h c₁ h₁ a)

/-- What a program needs, it still has after something that others do. -/
theorem wp_others (h : wp W p (fun _ _ => True) c) (ho : Others W c c') :
    wp W p (fun _ _ => True) c' := by
  cases p with
  | ret a => trivial
  | diverge => trivial
  | acquire key k => exact fun c₁ h₁ => h c₁ (ho.trans h₁)
  | create key count k => exact fun c₁ h₁ => h c₁ (ho.trans h₁)
  | take r k => exact fun c₁ h₁ => h c₁ (ho.trans h₁)
  | read r k => exact ⟨by rw [ho.dead]; exact h.1, fun c₁ h₁ => h.2 c₁ (ho.trans h₁)⟩
  | write r f k => exact ⟨by rw [ho.dead]; exact h.1, fun c₁ h₁ => h.2 c₁ (ho.trans h₁)⟩
  | release r decrement k => exact ⟨by rw [ho.dead]; exact h.1, fun c₁ h₁ => h.2 c₁ (ho.trans h₁)⟩
  | ask q k => exact fun c₁ h₁ => h c₁ (ho.trans h₁)

/-- One step of a run. -/
theorem wp_step {p' : Prog Ref Key Obj Ans α} (h : wp W p (fun _ _ => True) c)
    (hstep : Step W (p, c) (p', c')) : wp W p' (fun _ _ => True) c' := by
  cases hstep with
  | others ho => exact wp_others h ho
  | acquire hacq => exact h c (.refl W c) _ _ hacq
  | create hnone hcreate => exact h c (.refl W c) _ _ hnone hcreate
  | take hsome hrefs => exact h c (.refl W c) hsome hrefs
  | read hobj => exact h.2 c (.refl W c) _ hobj
  | write hobj => exact h.2 c (.refl W c) _ hobj
  | release hobj => exact h.2 c (.refl W c) _ hobj
  | ask a => exact h c (.refl W c) a

theorem wp_not_touchesDead (h : wp W p Q c) : ¬ TouchesDead p c := by
  rintro ⟨r, hr, hdead⟩
  cases p <;> simp only [Prog.touches, reduceCtorEq, Option.some.injEq] at hr <;> subst hr <;>
    exact h.1 hdead

/-- **A program is safe if it has what it needs.** -/
theorem wp_safe (h : wp W p Q c) : Safe W p c := by
  intro p' c' hrun
  have hwp : wp W p' (fun _ _ => True) c' := by
    generalize hx : (p', c') = x at hrun
    induction hrun generalizing p' c' with
    | refl =>
      cases hx
      exact wp_mono h fun _ _ _ => trivial
    | @tail y z _ hstep ih =>
      subst hx
      exact wp_step (ih _ _ rfl) hstep
  exact wp_not_touchesDead hwp

theorem Safe.step {p' : Prog Ref Key Obj Ans α} (h : Safe W p c) (hstep : Step W (p, c) (p', c')) :
    Safe W p' c' :=
  fun p'' c'' hrun => h p'' c'' (.head hstep hrun)

/-- **And it needs nothing else.** -/
theorem safe_iff_wp : Safe W p c ↔ wp W p (fun _ _ => True) c := by
  refine ⟨fun h => ?_, wp_safe⟩
  have hdead : ∀ {p : Prog Ref Key Obj Ans α} {c : Config Ref Obj} {r : Ref}, Safe W p c →
      p.touches = some r → ¬ c.dead r := fun h ht hr => h _ _ .refl ⟨_, ht, hr⟩
  induction p generalizing c with
  | ret a => trivial
  | diverge => trivial
  | acquire key k ih => exact fun c₁ ho r c₂ hacq => ih r ((h.step (.others ho)).step (.acquire hacq))
  | create key count k ih =>
    exact fun c₁ ho r o hnone hcreate => ih r ((h.step (.others ho)).step (.create hnone hcreate))
  | take r k ih => exact fun c₁ ho hsome hrefs => ih ((h.step (.others ho)).step (.take hsome hrefs))
  | read r k ih =>
    exact ⟨hdead h rfl, fun c₁ ho o hobj => ih o ((h.step (.others ho)).step (.read hobj))⟩
  | write r f k ih =>
    exact ⟨hdead h rfl, fun c₁ ho o hobj => ih ((h.step (.others ho)).step (.write hobj))⟩
  | release r decrement k ih =>
    exact ⟨hdead h rfl, fun c₁ ho o hobj => ih ((h.step (.others ho)).step (.release hobj))⟩
  | ask q k ih => exact fun c₁ ho a => ih a ((h.step (.others ho)).step (.ask a))

/-! ## Disciplined programs -/

/-- Objects are touched only while they are held: `g` is what the program holds at first, and `R` says
what it holds in the end. -/
def Disciplined : Prog Ref Key Obj Ans α → Multiset Ref → (α → Multiset Ref → Prop) → Prop
  | .ret a, g, R => R a g
  | .diverge, _, _ => True
  | .acquire _ k, g, R => ∀ r, Disciplined (k r) (r ::ₘ g) R
  | .create _ count k, g, R => ∀ r, Disciplined (k r) (Multiset.replicate count r + g) R
  | .take r k, g, R => Disciplined k (r ::ₘ g) R
  | .read r k, g, R => r ∈ g ∧ ∀ o, Disciplined (k o) g R
  | .write r _ k, g, R => r ∈ g ∧ Disciplined k g R
  | .release r decrement k, g, R =>
      if decrement then ∃ g', g = r ::ₘ g' ∧ Disciplined k g' R else r ∈ g ∧ Disciplined k g R
  | .ask _ k, g, R => ∀ a, Disciplined (k a) g R

omit [DecidableEq Ref] in
theorem Disciplined.mono {R R' : α → Multiset Ref → Prop} (h : Disciplined p g R)
    (hR : ∀ a g, R a g → R' a g) : Disciplined p g R' := by
  induction p generalizing g with
  | ret a => exact hR a g h
  | diverge => trivial
  | acquire key k ih => exact fun r => ih r (h r)
  | create key count k ih => exact fun r => ih r (h r)
  | take r k ih => exact ih h
  | read r k ih => exact ⟨h.1, fun o => ih o (h.2 o)⟩
  | write r f k ih => exact ⟨h.1, ih h.2⟩
  | release r decrement k ih =>
    cases decrement with
    | false => exact ⟨h.1, ih h.2⟩
    | true =>
      obtain ⟨g', hg, h⟩ := h
      exact ⟨g', hg, ih h⟩
  | ask q k ih => exact fun a => ih a (h a)

omit [DecidableEq Ref] in
theorem Disciplined.bind {f : α → Prog Ref Key Obj Ans β} {R : β → Multiset Ref → Prop}
    (h : Disciplined p g fun a g' => Disciplined (f a) g' R) : Disciplined (p >>= f) g R := by
  rw [Prog.bind_eq]
  induction p generalizing g with
  | ret a => exact h
  | diverge => trivial
  | acquire key k ih => exact fun r => ih r (h r)
  | create key count k ih => exact fun r => ih r (h r)
  | take r k ih => exact ih h
  | read r k ih => exact ⟨h.1, fun o => ih o (h.2 o)⟩
  | write r f k ih => exact ⟨h.1, ih h.2⟩
  | release r decrement k ih =>
    cases decrement with
    | false => exact ⟨h.1, ih h.2⟩
    | true =>
      obtain ⟨g', hg, h⟩ := h
      exact ⟨g', hg, ih h⟩
  | ask q k ih => exact fun a => ih a (h a)

/-- The program's references are `g`: they are counted, and nobody has destroyed what they lead to. -/
structure Holds (c : Config Ref Obj) (g : Multiset Ref) : Prop where
  own : ∀ r, c.own r = g.count r
  refs : ∀ r ∈ g, c.own r ≤ c.refs r
  live : ∀ r ∈ g, (c.obj r).isSome
  dead : ∀ r ∈ g, ¬ c.dead r

theorem Holds.own_pos (h : Holds c g) (hr : r ∈ g) : 0 < c.own r := by
  rw [h.own]
  exact Multiset.count_pos.2 hr

theorem Holds.others (h : Holds c g) (ho : Others W c c') : Holds c' g where
  own r := by rw [ho.own, h.own]
  refs r hr := by
    obtain ⟨o, hobj⟩ := Option.isSome_iff_exists.1 (h.live r hr)
    obtain ⟨-, -, -, hrefs⟩ := ho.held r o (h.own_pos hr) hobj
    rw [ho.own]
    exact hrefs (h.refs r hr)
  live r hr := by
    obtain ⟨o, hobj⟩ := Option.isSome_iff_exists.1 (h.live r hr)
    obtain ⟨o', hobj', -, -⟩ := ho.held r o (h.own_pos hr) hobj
    simp [hobj']
  dead r hr := by
    rw [ho.dead]
    exact h.dead r hr

/-- A reference that is counted, to an object that exists. -/
theorem Holds.gain (h : Holds c g) {refs : Ref → Nat} {obj : Ref → Option Obj} {n : Nat}
    (hr : (obj r).isSome) (hrefs : c.own r + n ≤ refs r) (hother : ∀ r' ≠ r, refs r' = c.refs r')
    (hobj : ∀ r' ≠ r, obj r' = c.obj r') :
    Holds ({ c with refs, obj }.gain r n) (Multiset.replicate n r + g) where
  own r' := by
    rw [Multiset.count_add, Multiset.count_replicate]
    by_cases heq : r' = r
    · subst heq
      simp [Config.gain, h.own, Nat.add_comm]
    · simp [Config.gain, heq, Ne.symm heq, h.own]
  refs r' hr' := by
    by_cases heq : r' = r
    · subst heq
      simpa [Config.gain] using hrefs
    · have hmem : r' ∈ g := by
        rcases Multiset.mem_add.1 hr' with hmem | hmem
        · exact absurd (Multiset.eq_of_mem_replicate hmem) heq
        · exact hmem
      simpa [Config.gain, heq, hother r' heq] using h.refs r' hmem
  live r' hr' := by
    by_cases heq : r' = r
    · subst heq
      exact hr
    · have hmem : r' ∈ g := by
        rcases Multiset.mem_add.1 hr' with hmem | hmem
        · exact absurd (Multiset.eq_of_mem_replicate hmem) heq
        · exact hmem
      simpa [Config.gain, hobj r' heq] using h.live r' hmem
  dead r' hr' := by
    rintro ⟨heq, hdead⟩
    rcases Multiset.mem_add.1 hr' with hmem | hmem
    · exact heq (Multiset.eq_of_mem_replicate hmem)
    · exact h.dead r' hmem hdead

theorem Holds.not_mem (h : Holds c g) (hr : c.obj r = none) : r ∉ g := by
  intro hmem
  have := h.live r hmem
  simp [hr] at this

theorem Holds.placed (h : Holds c g) (hr : c.obj r = none) (o : Obj) (n : Nat) :
    Holds (c.placed r o n) (Multiset.replicate n r + g) := by
  have hown : c.own r = 0 := by rw [h.own, Multiset.count_eq_zero.2 (h.not_mem hr)]
  refine h.gain (by simp) (by simp [hown]) (fun r' hne => ?_) fun r' hne => ?_
  · simp [hne]
  · simp [hne]

theorem Holds.acquires {key : Key} (h : Holds c g) (hacq : Acquires W key c r c') :
    Holds c' (r ::ₘ g) := by
  rw [← Multiset.singleton_add, ← Multiset.replicate_one]
  cases hacq with
  | cached hobj hname =>
    refine h.gain (by simp [hobj]) ?_ (fun r' hne => by simp [hne]) fun r' hne => rfl
    by_cases hmem : r ∈ g
    · have := h.refs r hmem
      simpa using this
    · simp [h.own, Multiset.count_eq_zero.2 hmem]
  | @fresh o hnone hread => exact h.placed hnone o 1

theorem Holds.take (h : Holds c g) (hsome : (c.obj r).isSome) (hrefs : c.own r < c.refs r) :
    Holds (c.gain r 1) (r ::ₘ g) := by
  rw [← Multiset.singleton_add, ← Multiset.replicate_one]
  exact h.gain hsome hrefs (fun _ _ => rfl) fun _ _ => rfl

theorem Holds.write (h : Holds c g) (o : Obj) :
    Holds { c with obj := Function.update c.obj r (some o) } g where
  own := h.own
  refs := h.refs
  live r' hr' := by
    by_cases heq : r' = r
    · subst heq
      simp
    · simpa [heq] using h.live r' hr'
  dead := h.dead

/-- An object of which a reference is left is not destroyed. -/
theorem Holds.released_false (h : Holds c g) (hr : r ∈ g) (o : Obj) :
    c.released W r false o = c.lose r 0 := by
  have hpos : c.refs r ≠ 0 := Nat.ne_of_gt (Nat.lt_of_lt_of_le (h.own_pos hr) (h.refs r hr))
  simp [Config.released, Config.lose, hpos]

theorem Holds.lose (h : Holds c (r ::ₘ g)) : Holds (c.lose r 1) g where
  own r' := by
    have hown := h.own r'
    by_cases heq : r' = r
    · subst heq
      simp [Config.lose, hown]
    · simpa [Config.lose, heq] using hown
  refs r' hr' := by
    have hrefs := h.refs r' (Multiset.mem_cons_of_mem hr')
    by_cases heq : r' = r
    · subst heq
      simpa [Config.lose] using Nat.sub_le_sub_right hrefs 1
    · simpa [Config.lose, heq] using hrefs
  live r' hr' := h.live r' (Multiset.mem_cons_of_mem hr')
  dead r' hr' := h.dead r' (Multiset.mem_cons_of_mem hr')

/-- Only an object of which the program holds nothing more is destroyed. -/
theorem Holds.released (h : Holds c (r ::ₘ g)) (o : Obj) : Holds (c.released W r true o) g := by
  have hlose : Holds (c.lose r 1) g := h.lose
  unfold Config.released
  simp only [Bool.toNat_true]
  split_ifs with hzero
  · have hmem : r ∉ g := by
      intro hmem
      have hrefs := hlose.refs r hmem
      have hpos := hlose.own_pos hmem
      omega
    have hne : ∀ r' ∈ g, r' ≠ r := fun r' hr' heq => hmem (heq ▸ hr')
    exact {
      own := hlose.own
      refs := hlose.refs
      live := fun r' hr' => by simpa [Config.destroyed, hne r' hr'] using hlose.live r' hr'
      dead := fun r' hr' => by
        rintro (heq | hdead)
        · exact hne r' hr' heq
        · exact hlose.dead r' hr' hdead }
  · exact hlose

/-! ## Programs that write nothing -/

/-- Nothing is written. -/
def ReadOnly : Prog Ref Key Obj Ans α → Prop
  | .ret _ | .diverge => True
  | .acquire _ k => ∀ r, ReadOnly (k r)
  | .create _ _ k => ∀ r, ReadOnly (k r)
  | .take _ k => ReadOnly k
  | .read _ k => ∀ o, ReadOnly (k o)
  | .write _ _ _ => False
  | .release _ _ k => ReadOnly k
  | .ask _ k => ∀ a, ReadOnly (k a)

omit [DecidableEq Ref] in
theorem ReadOnly.bind {f : α → Prog Ref Key Obj Ans β} (h : ReadOnly p) (hf : ∀ a, ReadOnly (f a)) :
    ReadOnly (p >>= f) := by
  rw [Prog.bind_eq]
  induction p with
  | ret a => exact hf a
  | diverge => trivial
  | acquire key k ih => exact fun r => ih r (h r)
  | create key count k ih => exact fun r => ih r (h r)
  | take r k ih => exact ih h
  | read r k ih => exact fun o => ih o (h o)
  | write r f k ih => exact h.elim
  | release r decrement k ih => exact ih h
  | ask q k ih => exact fun a => ih a (h a)

/-- Every object is one that the world may show. -/
def AllSeen (W : World Key Obj) (c : Config Ref Obj) : Prop := ∀ r o, c.obj r = some o → W.Seen o

omit [DecidableEq Ref] in
theorem AllSeen.others (h : AllSeen W c) (hown : ∀ r, 0 < c.own r → (c.obj r).isSome)
    (ho : Others W c c') : AllSeen W c' := by
  intro r o' hobj'
  rcases Nat.eq_zero_or_pos (c.own r) with hzero | hpos
  · rcases ho.free r o' hzero hobj' with ⟨o, hobj, hlater⟩ | hseen
    · exact (h r o hobj).later hlater
    · exact hseen
  · obtain ⟨o, hobj⟩ := Option.isSome_iff_exists.1 (hown r hpos)
    obtain ⟨o₁, hobj₁, hlater, -⟩ := ho.held r o hpos hobj
    obtain rfl : o₁ = o' := by
      rw [hobj'] at hobj₁
      exact (Option.some.inj hobj₁).symm
    exact (h r o hobj).later hlater

theorem AllSeen.placed (h : AllSeen W c) (hseen : W.Seen o) (n : Nat) : AllSeen W (c.placed r o n) := by
  intro r' o' hobj
  by_cases heq : r' = r
  · subst heq
    obtain rfl : o = o' := by simpa [Config.placed, Config.gain] using hobj
    exact hseen
  · exact h r' o' (by simpa [Config.placed, Config.gain, heq] using hobj)

theorem AllSeen.acquires {key : Key} (h : AllSeen W c) (hacq : Acquires W key c r c') :
    AllSeen W c' := by
  cases hacq with
  | cached hobj hname => exact h
  | fresh hnone hread => exact h.placed ⟨key, _, .inl hread, .refl⟩ 1

theorem AllSeen.released (h : AllSeen W c) (decrement : Bool) :
    AllSeen W (c.released W r decrement o) := by
  unfold Config.released
  dsimp only
  split_ifs
  · intro r' o' hobj
    by_cases heq : r' = r
    · subst heq
      simp [Config.destroyed] at hobj
    · exact h r' o' (by simpa [Config.destroyed, Config.lose, heq] using hobj)
  · exact h

/-! ## Soundness of the discipline -/

/-- **What a disciplined program needs, it has in every world.** If it writes nothing, the objects stay as
the world shows them. -/
theorem Disciplined.wp {R : α → Multiset Ref → Prop} {P : Prop} (h : Disciplined p g R)
    (hc : Holds c g) (hro : P → ReadOnly p ∧ AllSeen W c) :
    wp W p (fun a c' => ∃ g', R a g' ∧ Holds c' g' ∧ (P → AllSeen W c')) c := by
  have hothers : ∀ {c c₁ : Config Ref Obj} {g : Multiset Ref}, Holds c g → AllSeen W c → Others W c c₁ →
      AllSeen W c₁ := fun hc hseen ho =>
    hseen.others (fun r hpos => hc.live r (Multiset.count_pos.1 (by rwa [← hc.own]))) ho
  induction p generalizing c g with
  | ret a => exact ⟨g, h, hc, fun hP => (hro hP).2⟩
  | diverge => trivial
  | acquire key k ih =>
    exact fun c₁ ho r c₂ hacq => ih r (h r) ((hc.others ho).acquires hacq) fun hP =>
      ⟨(hro hP).1 r, (hothers hc (hro hP).2 ho).acquires hacq⟩
  | create key count k ih =>
    exact fun c₁ ho r o hnone hcreate => ih r (h r) ((hc.others ho).placed hnone o count) fun hP =>
      ⟨(hro hP).1 r, (hothers hc (hro hP).2 ho).placed ⟨key, o, .inr hcreate, .refl⟩ count⟩
  | take r k ih =>
    exact fun c₁ ho hsome hrefs => ih h ((hc.others ho).take hsome hrefs) fun hP =>
      ⟨(hro hP).1, fun r o hobj => hothers hc (hro hP).2 ho r o hobj⟩
  | read r k ih =>
    exact ⟨hc.dead r h.1, fun c₁ ho o hobj => ih o (h.2 o) (hc.others ho) fun hP =>
      ⟨(hro hP).1 o, hothers hc (hro hP).2 ho⟩⟩
  | write r f k ih =>
    exact ⟨hc.dead r h.1, fun c₁ ho o hobj => ih h.2 ((hc.others ho).write (f o)) fun hP =>
      (hro hP).1.elim⟩
  | release r decrement k ih =>
    have hro' : ∀ {c₁ : Config Ref Obj} {o : Obj}, Others W c c₁ → P →
        ReadOnly k ∧ AllSeen W (c₁.released W r decrement o) := fun ho hP =>
      ⟨(hro hP).1, (hothers hc (hro hP).2 ho).released decrement⟩
    cases decrement with
    | false =>
      refine ⟨hc.dead r h.1, fun c₁ ho o hobj => ih h.2 ?_ (hro' ho)⟩
      have hc₁ := hc.others ho
      rw [hc₁.released_false h.1]
      exact ⟨by simpa [Config.lose] using hc₁.own, by simpa [Config.lose] using hc₁.refs,
        hc₁.live, hc₁.dead⟩
    | true =>
      obtain ⟨g', rfl, h⟩ := h
      exact ⟨hc.dead r (Multiset.mem_cons_self r g'), fun c₁ ho o hobj =>
        ih h ((hc.others ho).released o) (hro' ho)⟩
  | ask q k ih =>
    exact fun c₁ ho a => ih a (h a) (hc.others ho) fun hP =>
      ⟨(hro hP).1 a, hothers hc (hro hP).2 ho⟩

theorem Begins.holds (h : Begins W c) : Holds c 0 where
  own r := by simp [h.own r]
  refs r hr := absurd hr (Multiset.notMem_zero r)
  live r hr := absurd hr (Multiset.notMem_zero r)
  dead r hr := absurd hr (Multiset.notMem_zero r)

/-- **A disciplined program is safe.** -/
theorem Disciplined.safe {R : α → Multiset Ref → Prop} (h : Disciplined p 0 R) (hc : Begins W c) :
    Safe W p c :=
  wp_safe (h.wp (P := False) hc.holds False.elim)

/-! ## Programs that release nothing -/

/-- Nothing is released. -/
def Quiet : Prog Ref Key Obj Ans α → Prop
  | .ret _ | .diverge => True
  | .acquire _ k => ∀ r, Quiet (k r)
  | .create _ _ k => ∀ r, Quiet (k r)
  | .take _ k => Quiet k
  | .read _ k => ∀ o, Quiet (k o)
  | .write _ _ k => Quiet k
  | .release _ _ _ => False
  | .ask _ k => ∀ a, Quiet (k a)

theorem Quiet.safe (h : Quiet p) (hc : ∀ r, ¬ c.dead r) : Safe W p c := by
  have hwp : wp W p (fun _ _ => True) c := by
    induction p generalizing c with
    | ret a => trivial
    | diverge => trivial
    | acquire key k ih =>
      intro c₁ ho r c₂ hacq
      refine ih r (h r) fun r' hdead => hc r' ?_
      rw [← ho.dead]
      cases hacq with
      | cached hobj hname => exact hdead.2
      | fresh hnone hread => exact hdead.2
    | create key count k ih =>
      intro c₁ ho r o hnone hcreate
      refine ih r (h r) fun r' hdead => hc r' ?_
      rw [← ho.dead]
      exact hdead.2
    | take r k ih =>
      intro c₁ ho hsome hrefs
      refine ih h fun r' hdead => hc r' ?_
      rw [← ho.dead]
      exact hdead.2
    | read r k ih => exact ⟨hc r, fun c₁ ho o hobj => ih o (h o) (by rwa [ho.dead])⟩
    | write r f k ih => exact ⟨hc r, fun c₁ ho o hobj => ih h (by rwa [ho.dead])⟩
    | release r decrement k ih => exact h.elim
    | ask q k ih => exact fun c₁ ho a => ih a (h a) (by rwa [ho.dead])
  exact wp_safe hwp

end

end ChenixOS.Holders
