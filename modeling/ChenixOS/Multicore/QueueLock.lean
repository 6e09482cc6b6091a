import ChenixOS.Klib.AnchorList
import ChenixOS.Lib.Transitions
import Mathlib.Algebra.Group.Nat.Defs

/-!
# `QueueLock`

A counting lock with a queue of waiting threads (multicore/locks/QueueLock.cpp). `Unlock` hands the
lock over to the first waiter without touching the counter: it takes the waiter's entry out of the
queue and makes the thread ready. The sections under `m_Lock` are atomic here; between the section
that enqueues a thread and the one that blocks it, other threads may run.
-/

namespace ChenixOS.QueueLock

open Transitions

/-- The states of a thread that matter here. -/
inductive ThreadState
  | ready
  | queueLock
  deriving DecidableEq

/-- Where a thread is. -/
inductive Pc
  | outside
  /-- In `Lock`, after `m_Lock.Unlock()`, before it blocks. -/
  | enqueued
  /-- In `ThreadBlock`. -/
  | blocked
  deriving DecidableEq

/-- The lock and its threads. The entry of a waiting thread lies on that thread's stack and is named
by it. The last three fields are not in the source: who holds the lock, the threads in the order they
were queued, and in the order they were woken. -/
structure State where
  m_Count : Nat
  m_Queue : AnchorList Nat
  state : Nat → ThreadState
  rax : Nat → Int
  pc : Nat → Pc
  holders : List Nat
  queued : List Nat
  woken : List Nat

def initial (count : Nat) (anchors : Nat → Option Nat) : State :=
  ⟨count, .empty anchors anchors, fun _ => .ready, fun _ => 0, fun _ => .outside, [], [], []⟩

inductive Event
  /-- The section of `Lock`. -/
  | lock (t : Nat)
  /-- `ThreadBlock(ThreadState::QUEUE_LOCK, 0)` -/
  | block (t : Nat)
  /-- `Unlock`, for a thread that holds the lock. -/
  | unlock (t : Nat)
  /-- The scheduler goes on with a ready thread, which returns from `Lock`. -/
  | resume (t : Nat)

/-- `QueueLock::Lock`, up to `m_Lock.Unlock()`. -/
def lock (t : Nat) (s : State) : Option State :=
  if 0 < s.m_Count then
    some { s with m_Count := s.m_Count - 1, holders := s.holders ++ [t] }
  else
    (s.m_Queue.pushBack t).map fun queue => { s with
      m_Queue := queue
      pc := Function.update s.pc t .enqueued
      queued := s.queued ++ [t] }

/-- `QueueLock::Unlock`. -/
def unlock (t : Nat) (s : State) : Option State :=
  match s.m_Queue.head with
  | none => some { s with m_Count := (s.m_Count + 1) % 2 ^ 64, holders := s.holders.erase t }
  | some w =>
    s.m_Queue.popFront.map fun queue => { s with
      m_Queue := queue
      rax := Function.update s.rax w 0
      state := Function.update s.state w .ready
      holders := s.holders.erase t ++ [w]
      woken := s.woken ++ [w] }

def step (s : State) : Event → Option State
  | .lock t => if s.pc t = .outside then lock t s else none
  | .block t =>
    if s.pc t = .enqueued then some { s with
      state := Function.update s.state t .queueLock
      pc := Function.update s.pc t .blocked }
    else none
  | .unlock t => if t ∈ s.holders then unlock t s else none
  | .resume t =>
    if s.pc t = .blocked ∧ s.state t = .ready then
      some { s with pc := Function.update s.pc t .outside }
    else none

/-! ## Who holds the lock -/

/-- The lock was made with the count `c`, and `q` are the threads in its queue. -/
structure Inv (c : Nat) (q : List Nat) (s : State) : Prop where
  queue : s.m_Queue.Holds q
  count : s.m_Count + s.holders.length = c
  free : 0 < s.m_Count → q = []
  order : s.woken ++ q = s.queued
  waits : ∀ t ∈ q, s.pc t = .enqueued ∨ (s.pc t = .blocked ∧ s.state t = .queueLock)

section

variable {c t : Nat} {q : List Nat} {s s' : State}

theorem inv_initial (c : Nat) (anchors : Nat → Option Nat) : Inv c [] (initial c anchors) where
  queue := AnchorList.holds_empty _ _
  count := rfl
  free _ := rfl
  order := rfl
  waits := nofun

theorem Inv.lock (h : Inv c q s) (hpc : s.pc t = .outside) (hstep : lock t s = some s') :
    ∃ q', Inv c q' s' ∧ (q' = q ∧ s'.holders = s.holders ++ [t] ∨
      q' = q ++ [t] ∧ s'.holders = s.holders) := by
  have hnot : t ∉ q := by
    intro ht
    rcases h.waits t ht with e | ⟨e, -⟩ <;> rw [hpc] at e <;> cases e
  unfold QueueLock.lock at hstep
  split at hstep
  · rename_i hpos
    obtain rfl := Option.some.inj hstep
    refine ⟨q, ⟨h.queue, ?_, fun _ => h.free hpos, h.order, h.waits⟩, .inl ⟨rfl, rfl⟩⟩
    have := h.count
    simp only [List.length_append, List.length_singleton]
    omega
  · rename_i hzero
    obtain ⟨queue, hpush, rfl⟩ := Option.map_eq_some_iff.1 hstep
    obtain ⟨queue', hpush', hholds⟩ := AnchorList.pushBack_spec h.queue hnot
    obtain rfl : queue' = queue := by simpa [hpush'] using hpush
    refine ⟨q ++ [t], ⟨hholds, h.count, fun hpos => absurd hpos hzero, ?_, ?_⟩, .inr ⟨rfl, rfl⟩⟩
    · rw [← List.append_assoc, h.order]
    · intro u hu
      by_cases hut : u = t
      · subst hut
        exact .inl (Function.update_self ..)
      · have huq : u ∈ q := by simpa [hut] using hu
        simp only [Function.update_of_ne hut]
        exact h.waits u huq

theorem Inv.unlock (h : Inv c q s) (hc : c < 2 ^ 64) (hmem : t ∈ s.holders)
    (hstep : unlock t s = some s') :
    ∃ q', Inv c q' s' ∧ (q = [] ∧ q' = [] ∧ s'.holders = s.holders.erase t ∨
      ∃ w, q = w :: q' ∧ s'.holders = s.holders.erase t ++ [w]) := by
  have hlen := List.length_erase_of_mem hmem
  have hpos : 0 < s.holders.length := List.length_pos_of_mem hmem
  have hcount := h.count
  have hhead := h.queue.head_eq
  unfold QueueLock.unlock at hstep
  cases q with
  | nil =>
    rw [hhead] at hstep
    obtain rfl := Option.some.inj hstep
    refine ⟨[], ⟨h.queue, ?_, fun _ => rfl, h.order, nofun⟩, .inl ⟨rfl, rfl, rfl⟩⟩
    simp only [hlen]
    rw [Nat.mod_eq_of_lt (by omega)]
    omega
  | cons w q =>
    rw [hhead] at hstep
    obtain ⟨queue, hpop, rfl⟩ := Option.map_eq_some_iff.1 hstep
    obtain ⟨queue', hpop', hholds⟩ := AnchorList.popFront_spec h.queue
    obtain rfl : queue' = queue := by simpa [hpop'] using hpop
    refine ⟨q, ⟨hholds, ?_, ?_, ?_, ?_⟩, .inr ⟨w, rfl, rfl⟩⟩
    · simp only [List.length_append, List.length_singleton, hlen]
      omega
    · exact fun hpos => absurd (h.free hpos) (by simp)
    · rw [List.append_assoc, List.singleton_append, h.order]
    · intro u hu
      have hne : u ≠ w := by
        rintro rfl
        exact (List.nodup_cons.1 h.queue.nodup).1 hu
      simp only [Function.update_of_ne hne]
      exact h.waits u (List.mem_cons_of_mem _ hu)

theorem Inv.block (h : Inv c q s) : Inv c q { s with
    state := Function.update s.state t .queueLock
    pc := Function.update s.pc t .blocked } := by
  refine ⟨h.queue, h.count, h.free, h.order, fun u hu => ?_⟩
  by_cases hut : u = t
  · subst hut
    exact .inr ⟨Function.update_self .., Function.update_self ..⟩
  · simp only [Function.update_of_ne hut]
    exact h.waits u hu

/-- A thread that is still queued is not ready. -/
theorem Inv.resume (h : Inv c q s) (hpc : s.pc t = .blocked) (hready : s.state t = .ready) :
    Inv c q { s with pc := Function.update s.pc t .outside } := by
  refine ⟨h.queue, h.count, h.free, h.order, fun u hu => ?_⟩
  have hut : u ≠ t := by
    rintro rfl
    rcases h.waits u hu with e | ⟨-, e⟩
    · rw [hpc] at e
      cases e
    · rw [hready] at e
      cases e
  simp only [Function.update_of_ne hut]
  exact h.waits u hu

/-- **One step**: the accounts are kept; a thread that is queued comes from outside, and one that
becomes a holder comes from outside or from the head of the queue. -/
theorem Inv.step {ev : Event} (h : Inv c q s) (hc : c < 2 ^ 64) (hstep : step s ev = some s') :
    ∃ q', Inv c q' s' ∧ ((∀ t, ev = .lock t → t ∉ s.holders) →
      (∀ t ∈ q, t ∉ s.holders) → ∀ t ∈ q', t ∉ s'.holders) := by
  cases ev with
  | lock t =>
    simp only [QueueLock.step] at hstep
    split at hstep
    · rename_i hpc
      have hnot : t ∉ q := by
        intro ht
        rcases h.waits t ht with e | ⟨e, -⟩ <;> rw [hpc] at e <;> cases e
      obtain ⟨q', hinv, ⟨rfl, hh⟩ | ⟨rfl, hh⟩⟩ := h.lock hpc hstep
      · refine ⟨q', hinv, fun _ hdis u hu => ?_⟩
        have hut : u ≠ t := fun e => hnot (e ▸ hu)
        simp [hh, hdis u hu, hut]
      · refine ⟨q ++ [t], hinv, fun hnew hdis u hu => ?_⟩
        rw [hh]
        rcases List.mem_append.1 hu with hu | hu
        · exact hdis u hu
        · obtain rfl := List.mem_singleton.1 hu
          exact hnew u rfl
    · cases hstep
  | block t =>
    simp only [QueueLock.step] at hstep
    split at hstep
    · obtain rfl := Option.some.inj hstep
      exact ⟨q, h.block, fun _ hdis => hdis⟩
    · cases hstep
  | unlock t =>
    simp only [QueueLock.step] at hstep
    split at hstep
    · rename_i hmem
      obtain ⟨q', hinv, ⟨rfl, rfl, hh⟩ | ⟨w, rfl, hh⟩⟩ := h.unlock hc hmem hstep
      · exact ⟨[], hinv, fun _ _ => nofun⟩
      · refine ⟨q', hinv, fun _ hdis u hu => ?_⟩
        have hne : u ≠ w := by
          rintro rfl
          exact (List.nodup_cons.1 h.queue.nodup).1 hu
        have hold := hdis u (List.mem_cons_of_mem _ hu)
        rw [hh]
        simp only [List.mem_append, List.mem_singleton, hne, or_false]
        exact fun hu' => hold (List.mem_of_mem_erase hu')
    · cases hstep
  | resume t =>
    simp only [QueueLock.step] at hstep
    split at hstep
    · rename_i hpc
      obtain rfl := Option.some.inj hstep
      exact ⟨q, h.resume hpc.1 hpc.2, fun _ hdis => hdis⟩
    · cases hstep

end

/-- No thread calls `Lock` while it holds the lock. -/
def NotReentrant (s : State) (ev : Event) : Prop := ∀ t, ev = .lock t → t ∉ s.holders

/-- **Mutual exclusion and hand-over in order.** In every state, the counter and the holders add up to
the initial count; the counter is positive only while nobody waits; no thread is queued twice; and the
threads that were woken are the first of those that were queued. Unless some thread calls `Lock` while
it holds the lock, no thread both waits and holds. -/
theorem lock_accounts (c : Nat) (hc : c < 2 ^ 64) (anchors : Nat → Option Nat) (s : State)
    (run : Runs step (fun _ _ => True) (initial c anchors) s) :
    ∃ q, s.m_Queue.Holds q ∧ s.m_Count + s.holders.length = c ∧ (0 < s.m_Count → q = []) ∧
      q.Nodup ∧ s.woken ++ q = s.queued ∧
      (Runs step NotReentrant (initial c anchors) s → ∀ t ∈ q, t ∉ s.holders) := by
  have hinv : ∃ q, Inv c q s := by
    refine run.inv (I := fun s => ∃ q, Inv c q s) ⟨[], inv_initial c anchors⟩ ?_
    rintro s ev s' ⟨q, h⟩ - hstep
    obtain ⟨q', h', -⟩ := h.step hc hstep
    exact ⟨q', h'⟩
  obtain ⟨q, h⟩ := hinv
  refine ⟨q, h.queue, h.count, h.free, h.queue.nodup, h.order, fun hrun => ?_⟩
  have hdis : ∃ q, Inv c q s ∧ ∀ t ∈ q, t ∉ s.holders := by
    refine hrun.inv (I := fun s => ∃ q, Inv c q s ∧ ∀ t ∈ q, t ∉ s.holders)
      ⟨[], inv_initial c anchors, nofun⟩ ?_
    rintro s ev s' ⟨q, h, hdis⟩ hok hstep
    obtain ⟨q', h', hdis'⟩ := h.step hc hstep
    exact ⟨q', h', hdis' hok hdis⟩
  obtain ⟨q₂, h₂, hd₂⟩ := hdis
  have hsame : q = q₂ := by
    have := (h.order.trans h₂.order.symm)
    exact List.append_cancel_left this
  rwa [hsame]

/-- Two threads: the second waits and is handed the lock. -/
theorem lock_accounts_handover : ∃ s,
    exec step [.lock 0, .lock 1, .block 1, .unlock 0, .resume 1] (initial 1 fun _ => none) = some s ∧
    s.holders = [1] ∧ s.woken = [1] ∧
    ∃ q, s.m_Queue.Holds q ∧ s.m_Count + s.holders.length = 1 ∧ s.woken ++ q = s.queued := by
  have hrun : (exec step [.lock 0, .lock 1, .block 1, .unlock 0, .resume 1]
      (initial 1 fun _ => none)).map (fun s => (s.holders, s.woken)) = some ([1], [1]) := by
    decide
  obtain ⟨s, hs, hproj⟩ := Option.map_eq_some_iff.1 hrun
  obtain ⟨hholders, hwoken⟩ := Prod.mk.inj hproj
  obtain ⟨q, hq, hcount, -, -, horder, -⟩ :=
    lock_accounts 1 (by decide) (fun _ => none) s (runs_of_exec _ hs)
  exact ⟨s, hs, hholders, hwoken, q, hq, hcount, horder⟩

/-- A thread that calls `Lock` again while it holds the lock is a holder and queued. -/
theorem reentrant_lock_waits_for_itself : ∃ s q,
    Runs step (fun _ _ => True) (initial 1 fun _ => none) s ∧ s.m_Queue.Holds q ∧ 0 ∈ q ∧
      0 ∈ s.holders := by
  have h₀ := inv_initial 1 fun _ => none
  obtain ⟨s₁, hs₁⟩ : ∃ s₁, step (initial 1 fun _ => none) (.lock 0) = some s₁ := ⟨_, rfl⟩
  obtain ⟨s₂, hs₂⟩ : ∃ s₂, step s₁ (.lock 0) = some s₂ := by
    obtain rfl := Option.some.inj hs₁
    exact ⟨_, rfl⟩
  have hrun : Runs step (fun _ _ => True) (initial 1 fun _ => none) s₂ :=
    .head trivial hs₁ (.head trivial hs₂ (.refl s₂))
  obtain ⟨q₁, h₁, -⟩ := h₀.step (by decide) hs₁
  obtain ⟨q₂, hinv, -⟩ := h₁.step (by decide) hs₂
  have hq : s₂.queued = [0] ∧ s₂.woken = [] ∧ s₂.holders = [0] := by
    obtain rfl := Option.some.inj hs₁
    obtain rfl := Option.some.inj hs₂
    exact ⟨rfl, rfl, rfl⟩
  have horder := hinv.order
  rw [hq.1, hq.2.1, List.nil_append] at horder
  exact ⟨s₂, q₂, hrun, hinv.queue, by simp [horder], by simp [hq.2.2]⟩

end ChenixOS.QueueLock
