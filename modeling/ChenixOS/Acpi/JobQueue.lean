import Mathlib.Algebra.Group.Nat.Defs
import Mathlib.Logic.Function.Basic
import Mathlib.Order.Nat
import ChenixOS.Lib.Ring
import ChenixOS.Lib.Transitions

/-!
# The ACPI job queue

`AcpiOsExecute` counts a job in `g_NumRunningJobs` and stores it, under `g_JobLock`, into a ring of 128
slots; one job thread takes the jobs out and calls them. Both indices into the ring run freely, and
`AcpiOsExecute` never looks at `g_JobPopIndex`.

**The condition.** As long as every job that is stored finds fewer than 128 jobs in the ring, and no
counter runs through its 64 bits, the jobs are called in the order in which they were stored, each once
and with its own argument (`jobs_in_order`). The 129th outstanding job replaces the oldest one.
-/

namespace ChenixOS.ACPI

open Transitions

structure Job where
  func : UInt64
  arg : UInt64
deriving DecidableEq

/-- Where the loop of `AcpiJobThread` is. -/
inductive JobThread
  /-- Before `g_JobLock.Spinlock_Cli()`. -/
  | polling
  /-- The job is copied out of the ring, `job.func` is not called yet. -/
  | taken (job : Job)
  /-- Inside of `job.func(job.arg)`. -/
  | running
deriving DecidableEq

/-- The last four fields are not in the source: the calls of `AcpiOsExecute` that have counted their job
and not yet stored it, the jobs stored so far, the jobs called so far, and how many of them have
returned. -/
structure State where
  g_NumRunningJobs : UInt64
  g_JobPushIndex : UInt64
  g_JobPopIndex : UInt64
  g_JobQueue : Nat → Job
  thread : JobThread
  entering : List Job
  submitted : List Job
  called : List Job
  finished : Nat

def initial : State where
  g_NumRunningJobs := 0
  g_JobPushIndex := 0
  g_JobPopIndex := 0
  g_JobQueue _ := ⟨0, 0⟩
  thread := .polling
  entering := []
  submitted := []
  called := []
  finished := 0

inductive Event
  /-- `AcpiOsExecute` is called on any core, up to and including `g_NumRunningJobs.Inc()`. -/
  | execute (job : Job)
  /-- One of these calls goes through its section of `g_JobLock` and returns `AE_OK`. -/
  | push (i : Nat)
  /-- The section of `g_JobLock` in `AcpiJobThread`. -/
  | poll
  /-- `job.func(job.arg)` is entered. -/
  | call
  /-- `job.func` has returned: `g_NumRunningJobs.Dec()`. -/
  | done

/-- `g_JobQueue[g_JobPushIndex % 128] = job; g_JobPushIndex++`. -/
def push (job : Job) (s : State) : State :=
  { s with
    g_JobQueue := Function.update s.g_JobQueue (s.g_JobPushIndex % 128).toNat job
    g_JobPushIndex := s.g_JobPushIndex + 1
    submitted := s.submitted ++ [job] }

/-- The section of `g_JobLock` in `AcpiJobThread`. -/
def poll (s : State) : State :=
  if s.g_JobPopIndex < s.g_JobPushIndex then
    { s with
      thread := .taken (s.g_JobQueue (s.g_JobPopIndex % 128).toNat)
      g_JobPopIndex := s.g_JobPopIndex + 1 }
  else s

def step (s : State) : Event → Option State
  | .execute job => some { s with
      g_NumRunningJobs := s.g_NumRunningJobs + 1
      entering := s.entering ++ [job] }
  | .push i => s.entering[i]?.map fun job => push job { s with entering := s.entering.eraseIdx i }
  | .poll => if s.thread = .polling then some (poll s) else none
  | .call =>
    match s.thread with
    | .taken job => some { s with thread := .running, called := s.called ++ [job] }
    | _ => none
  | .done =>
    if s.thread = .running then some { s with
      g_NumRunningJobs := s.g_NumRunningJobs - 1
      thread := .polling
      finished := s.finished + 1 }
    else none

/-- `AcpiOsWaitEventsComplete` returns when it reads this. -/
def waitEventsComplete (s : State) : Bool := !decide (0 < s.g_NumRunningJobs)

/-- The jobs that are stored in the ring. -/
def queued (s : State) : List Job :=
  Ring.window 128 s.g_JobQueue s.g_JobPopIndex.toNat
    (s.g_JobPushIndex.toNat - s.g_JobPopIndex.toNat)

/-- The job that was taken out of the ring and is not called yet. -/
def JobThread.next : JobThread → List Job
  | .taken job => [job]
  | _ => []

/-- How many jobs the thread has taken out and not finished. -/
def JobThread.held : JobThread → Nat
  | .polling => 0
  | _ => 1

/-- **The condition**: a job that is stored finds fewer than 128 jobs in the ring, and no counter is at
its last value. -/
def Room (s : State) : Event → Prop
  | .execute _ => s.g_NumRunningJobs.toNat + 1 < 2 ^ 64
  | .push _ =>
    s.g_JobPushIndex.toNat - s.g_JobPopIndex.toNat < 128 ∧ s.g_JobPushIndex.toNat + 1 < 2 ^ 64
  | _ => True

instance (s : State) : (e : Event) → Decidable (Room s e)
  | .execute _ => inferInstanceAs (Decidable (_ < _))
  | .push _ => inferInstanceAs (Decidable (_ ∧ _))
  | .poll | .call | .done => inferInstanceAs (Decidable True)

/-- The events of `AcpiJobThread`. -/
def Event.ofThread : Event → Bool
  | .poll | .call | .done => true
  | _ => false

/-! ## The invariant -/

structure Inv (s : State) : Prop where
  /-- The jobs stored so far are those called, the one taken out, and those in the ring. -/
  order : s.submitted = s.called ++ s.thread.next ++ queued s
  popped : s.g_JobPopIndex.toNat ≤ s.g_JobPushIndex.toNat
  room : s.g_JobPushIndex.toNat - s.g_JobPopIndex.toNat ≤ 128
  calls : s.called.length + s.thread.next.length = s.finished + s.thread.held
  running : s.g_NumRunningJobs.toNat + s.finished = s.entering.length + s.submitted.length

variable {s s' : State} {e : Event} {job : Job}

theorem inv_initial : Inv initial := by
  constructor <;> simp [initial, queued, JobThread.next, JobThread.held, Ring.window]

theorem toNat_succ {a : UInt64} (h : a.toNat + 1 < 2 ^ 64) : (a + 1).toNat = a.toNat + 1 := by
  rw [UInt64.toNat_add, UInt64.toNat_one, Nat.mod_eq_of_lt h]

/-- A job stored into a ring with room is the last one of it. -/
theorem queued_push (hpop : s.g_JobPopIndex.toNat ≤ s.g_JobPushIndex.toNat)
    (hroom : s.g_JobPushIndex.toNat - s.g_JobPopIndex.toNat < 128)
    (hpush : s.g_JobPushIndex.toNat + 1 < 2 ^ 64) : queued (push job s) = queued s ++ [job] := by
  have hslot : (s.g_JobPushIndex % 128).toNat = s.g_JobPushIndex.toNat % 128 := by simp
  have hlen : s.g_JobPushIndex.toNat + 1 - s.g_JobPopIndex.toNat =
      s.g_JobPushIndex.toNat - s.g_JobPopIndex.toNat + 1 := by omega
  have hlast : s.g_JobPopIndex.toNat + (s.g_JobPushIndex.toNat - s.g_JobPopIndex.toNat) =
      s.g_JobPushIndex.toNat := by omega
  simp only [queued, push, toNat_succ hpush, hlen, Ring.window_add, hlast, hslot]
  congr 1
  · refine Ring.window_congr fun i hi => Function.update_of_ne ?_ _ _
    omega
  · rw [Ring.window_one, Nat.mod_mod, Function.update_self]

/-- What the thread takes is the first job of the ring. -/
theorem queued_poll (h : s.g_JobPopIndex < s.g_JobPushIndex) :
    queued s = s.g_JobQueue (s.g_JobPopIndex % 128).toNat :: queued (poll s) := by
  have hlt := UInt64.lt_iff_toNat_lt.1 h
  have hpush := s.g_JobPushIndex.toNat_lt
  have hlen : s.g_JobPushIndex.toNat - s.g_JobPopIndex.toNat =
      1 + (s.g_JobPushIndex.toNat - (s.g_JobPopIndex.toNat + 1)) := by omega
  have hnext : (s.g_JobPopIndex + 1).toNat = s.g_JobPopIndex.toNat + 1 := toNat_succ (by omega)
  have hslot : (s.g_JobPopIndex % 128).toNat = s.g_JobPopIndex.toNat % 128 := by simp
  simp only [queued, poll, if_pos h, hlen, Ring.window_add, Ring.window_mod, Ring.window_one, hnext,
    hslot, List.singleton_append]

theorem queued_empty (h : ¬ s.g_JobPopIndex < s.g_JobPushIndex) : queued s = [] := by
  rw [UInt64.lt_iff_toNat_lt] at h
  simp [queued, Ring.window, Nat.sub_eq_zero_of_le (Nat.le_of_not_lt h)]

theorem Inv.push (h : Inv s) (hroom : s.g_JobPushIndex.toNat - s.g_JobPopIndex.toNat < 128)
    (hpush : s.g_JobPushIndex.toNat + 1 < 2 ^ 64) {i : Nat} (hi : s.entering[i]? = some job) :
    Inv (push job { s with entering := s.entering.eraseIdx i }) := by
  have hq : queued (ACPI.push job { s with entering := s.entering.eraseIdx i }) = queued s ++ [job] :=
    queued_push (s := { s with entering := s.entering.eraseIdx i }) h.popped hroom hpush
  have hpop := h.popped
  have hcount := h.running
  have hlt : i < s.entering.length := (List.getElem?_eq_some_iff.1 hi).1
  have hlen : (s.entering.eraseIdx i).length + 1 = s.entering.length :=
    List.length_eraseIdx_add_one hlt
  constructor
  · rw [hq]
    show s.submitted ++ [job] = s.called ++ s.thread.next ++ (queued s ++ [job])
    rw [h.order, List.append_assoc _ (queued s)]
  · show s.g_JobPopIndex.toNat ≤ (s.g_JobPushIndex + 1).toNat
    rw [toNat_succ hpush]
    omega
  · show (s.g_JobPushIndex + 1).toNat - s.g_JobPopIndex.toNat ≤ 128
    rw [toNat_succ hpush]
    omega
  · exact h.calls
  · show s.g_NumRunningJobs.toNat + s.finished =
      (s.entering.eraseIdx i).length + (s.submitted ++ [job]).length
    rw [List.length_append, List.length_singleton]
    omega

theorem Inv.poll (h : Inv s) (ht : s.thread = .polling) : Inv (poll s) := by
  by_cases hlt : s.g_JobPopIndex < s.g_JobPushIndex
  · have hq := queued_poll hlt
    have horder := h.order
    have hcalls := h.calls
    have hroom := h.room
    have hpush := s.g_JobPushIndex.toNat_lt
    have hindex := UInt64.lt_iff_toNat_lt.1 hlt
    have hnext : (s.g_JobPopIndex + 1).toNat = s.g_JobPopIndex.toNat + 1 := toNat_succ (by omega)
    have hrunning := h.running
    simp only [ht, JobThread.next, JobThread.held, hq, List.append_nil] at horder hcalls
    simp only [ACPI.poll, if_pos hlt] at horder ⊢
    constructor
    · simpa [JobThread.next] using horder
    · simp only [hnext]
      omega
    · simp only [hnext]
      omega
    · simpa [JobThread.next, JobThread.held] using hcalls
    · exact hrunning
  · rw [ACPI.poll, if_neg hlt]
    exact h

theorem Inv.step (h : Inv s) (hroom : Room s e) (hstep : step s e = some s') : Inv s' := by
  cases e with
  | execute job =>
    obtain rfl := Option.some.inj hstep
    have hrunning := h.running
    refine ⟨h.order, h.popped, h.room, h.calls, ?_⟩
    show (s.g_NumRunningJobs + 1).toNat + s.finished =
      (s.entering ++ [job]).length + s.submitted.length
    rw [toNat_succ hroom, List.length_append, List.length_singleton]
    omega
  | push i =>
    obtain ⟨job, hi, rfl⟩ := Option.map_eq_some_iff.1 hstep
    exact h.push hroom.1 hroom.2 hi
  | poll =>
    obtain ⟨ht, hs⟩ := Option.ite_none_right_eq_some.1 hstep
    obtain rfl := Option.some.inj hs
    exact h.poll ht
  | call =>
    cases ht : s.thread with
    | polling => simp [ACPI.step, ht] at hstep
    | running => simp [ACPI.step, ht] at hstep
    | taken job =>
      obtain rfl : _ = s' := by simpa [ACPI.step, ht] using hstep
      have horder := h.order
      have hcalls := h.calls
      rw [ht] at horder hcalls
      refine ⟨?_, h.popped, h.room, ?_, h.running⟩
      · simpa [JobThread.next, queued] using horder
      · simpa [JobThread.next, JobThread.held] using hcalls
  | done =>
    obtain ⟨ht, hs⟩ := Option.ite_none_right_eq_some.1 hstep
    obtain rfl := Option.some.inj hs
    have horder := h.order
    have hcalls := h.calls
    have hrunning := h.running
    have hlen := congrArg List.length horder
    simp only [ht, JobThread.next, JobThread.held, List.length_append, List.length_nil] at hcalls hlen
    have hpos : (1 : UInt64).toNat ≤ s.g_NumRunningJobs.toNat := by
      rw [UInt64.toNat_one]
      omega
    refine ⟨?_, h.popped, h.room, ?_, ?_⟩
    · simpa [ht, JobThread.next, queued] using horder
    · simp only [JobThread.next, JobThread.held, List.length_nil]
      omega
    · show (s.g_NumRunningJobs - 1).toNat + (s.finished + 1) = _
      rw [UInt64.toNat_sub_of_le _ _ (UInt64.le_iff_toNat_le.2 hpos), UInt64.toNat_one]
      show s.g_NumRunningJobs.toNat - 1 + (s.finished + 1) = s.entering.length + s.submitted.length
      omega

/-! ## Progress of the job thread -/

/-- Three turns of the thread for each job: taking it out, calling it, counting it down. -/
def turnsTaken (s : State) : Nat :=
  match s.thread with
  | .polling => 3 * s.called.length + 1
  | .taken _ => 3 * s.called.length + 2
  | .running => 3 * s.called.length

theorem turnsTaken_le (s : State) : turnsTaken s ≤ 3 * s.called.length + 2 := by
  unfold turnsTaken
  split <;> omega

/-- The thread is never without a turn. -/
theorem thread_enabled (s : State) : ∃ e : Event, e.ofThread = true ∧ (step s e).isSome = true := by
  cases ht : s.thread with
  | polling => exact ⟨.poll, rfl, by simp [step, ht]⟩
  | taken job => exact ⟨.call, rfl, by simp [step, ht]⟩
  | running => exact ⟨.done, rfl, by simp [step, ht]⟩

/-- A step of another thread neither undoes nor makes a turn of the job thread. -/
theorem turnsTaken_other (he : e.ofThread = false) (hstep : step s e = some s') :
    turnsTaken s' = turnsTaken s := by
  cases e with
  | execute job =>
    obtain rfl := Option.some.inj hstep
    rfl
  | push i =>
    obtain ⟨job, _, rfl⟩ := Option.map_eq_some_iff.1 hstep
    rfl
  | poll => cases he
  | call => cases he
  | done => cases he

/-- While a job waits, every step of the thread is a turn: its poll finds something in the ring. -/
theorem turnsTaken_thread (h : Inv s) (hwait : s.called.length < s.submitted.length)
    (he : e.ofThread = true) (hstep : step s e = some s') : turnsTaken s' = turnsTaken s + 1 := by
  cases e with
  | execute job => cases he
  | push i => cases he
  | poll =>
    obtain ⟨ht, hs⟩ := Option.ite_none_right_eq_some.1 hstep
    obtain rfl := Option.some.inj hs
    have horder := congrArg List.length h.order
    have hlt : s.g_JobPopIndex < s.g_JobPushIndex := by
      by_contra hempty
      simp only [ht, queued_empty hempty, JobThread.next, List.append_nil] at horder
      omega
    simp [turnsTaken, poll, hlt, ht]
  | call =>
    cases ht : s.thread with
    | polling => simp [step, ht] at hstep
    | running => simp [step, ht] at hstep
    | taken job =>
      obtain rfl : _ = s' := by simpa [step, ht] using hstep
      simp only [turnsTaken, ht, List.length_append, List.length_singleton]
      omega
  | done =>
    obtain ⟨ht, hs⟩ := Option.ite_none_right_eq_some.1 hstep
    obtain rfl := Option.some.inj hs
    simp [turnsTaken, ht]

/-- What was stored stays stored, what was called stays called. -/
theorem prefix_step (hstep : step s e = some s') :
    s.submitted <+: s'.submitted ∧ s.called <+: s'.called := by
  cases e with
  | execute job =>
    obtain rfl := Option.some.inj hstep
    exact ⟨List.prefix_rfl, List.prefix_rfl⟩
  | push i =>
    obtain ⟨job, _, rfl⟩ := Option.map_eq_some_iff.1 hstep
    exact ⟨List.prefix_append _ _, List.prefix_rfl⟩
  | poll =>
    obtain ⟨_, hs⟩ := Option.ite_none_right_eq_some.1 hstep
    obtain rfl := Option.some.inj hs
    unfold poll
    split <;> exact ⟨List.prefix_rfl, List.prefix_rfl⟩
  | call =>
    cases ht : s.thread with
    | polling => simp [step, ht] at hstep
    | running => simp [step, ht] at hstep
    | taken job =>
      obtain rfl : _ = s' := by simpa [step, ht] using hstep
      exact ⟨List.prefix_rfl, List.prefix_append _ _⟩
  | done =>
    obtain ⟨_, hs⟩ := Option.ite_none_right_eq_some.1 hstep
    obtain rfl := Option.some.inj hs
    exact ⟨List.prefix_rfl, List.prefix_rfl⟩

/-- A step that meets the condition. -/
def roomStep (s : State) (e : Event) : Option State := if Room s e then step s e else none

theorem runs_of_roomStep (es : List Event) (h : exec roomStep es s = some s') :
    Runs step Room s s' := by
  refine (runs_of_exec es h).inv (.refl s) fun s₁ e s₂ h₁ _ hs => ?_
  obtain ⟨hroom, hstep⟩ := Option.ite_none_right_eq_some.1 hs
  exact h₁.trans (.head hroom hstep (.refl s₂))

/-- In whatever order the steps come: with enough turns of the job thread among them, the first `n`
stored jobs are called. -/
theorem called_of_turns {n : Nat} (es : List Event) (h : Inv s) (hn : n ≤ s.submitted.length)
    (hrun : exec roomStep es s = some s')
    (hturns : 3 * n ≤ turnsTaken s + es.countP Event.ofThread) : n ≤ s'.called.length := by
  induction es generalizing s with
  | nil =>
    obtain rfl : s = s' := by simpa [exec] using hrun
    have := turnsTaken_le s
    simp only [List.countP_nil] at hturns
    omega
  | cons e es ih =>
    obtain ⟨s₁, hs₁, hrest⟩ := Option.bind_eq_some_iff.1 hrun
    obtain ⟨hroom, hstep⟩ := Option.ite_none_right_eq_some.1 hs₁
    have hinv := h.step hroom hstep
    have hprefix := prefix_step hstep
    have hn' : n ≤ s₁.submitted.length := hn.trans hprefix.1.length_le
    by_cases hdone : n ≤ s.called.length
    · -- the calls already made cover the first `n`, whatever the turns from here on are
      have hle : n ≤ s₁.called.length := hdone.trans hprefix.2.length_le
      refine ih hinv hn' hrest (le_trans ?_ (Nat.le_add_right _ _))
      have : 3 * s₁.called.length ≤ turnsTaken s₁ := by
        unfold turnsTaken
        split <;> omega
      omega
    · refine ih hinv hn' hrest (hturns.trans (le_of_eq ?_))
      cases he : e.ofThread with
      | false => rw [turnsTaken_other he hstep, List.countP_cons_of_neg (by simp [he])]
      | true =>
        rw [turnsTaken_thread h (by omega) he hstep, List.countP_cons_of_pos he]
        omega

/-! ## The queue -/

theorem Inv.called_prefix (h : Inv s) : s.called <+: s.submitted := by
  rw [h.order, List.append_assoc]
  exact List.prefix_append _ _

theorem Inv.finished_le (h : Inv s) : s.finished ≤ s.called.length := by
  have hcalls := h.calls
  cases ht : s.thread <;> simp [ht, JobThread.next, JobThread.held] at hcalls <;> omega

/-- When the count is zero, no call is under way and every job was called and has returned. -/
theorem Inv.complete (h : Inv s) (hwait : waitEventsComplete s = true) :
    s.entering = [] ∧ s.called = s.submitted ∧ s.finished = s.submitted.length := by
  have hzero : s.g_NumRunningJobs.toNat = 0 := by
    simpa [waitEventsComplete, UInt64.lt_iff_toNat_lt] using hwait
  have hrunning := h.running
  have hprefix := h.called_prefix
  have hle := hprefix.length_le
  have hfinished := h.finished_le
  exact ⟨List.eq_nil_of_length_eq_zero (by omega), hprefix.eq_of_length (by omega), by omega⟩

/-- **The job queue, while the ring has room.** In every interleaving: the stored jobs are, in order, those
called, the one taken out and those in the ring; `g_NumRunningJobs` counts the jobs that were submitted and
have not returned; `AcpiOsWaitEventsComplete` only returns when all have; and every stored job is called
once the job thread has had three turns for each, of which it always has a next one. -/
theorem jobs_in_order (h : Runs step Room initial s) :
    s.submitted = s.called ++ s.thread.next ++ queued s ∧
    s.g_NumRunningJobs.toNat = s.entering.length + (s.submitted.length - s.finished) ∧
    (waitEventsComplete s = true →
      s.entering = [] ∧ s.called = s.submitted ∧ s.finished = s.submitted.length) ∧
    (∃ e : Event, e.ofThread = true ∧ (step s e).isSome = true) ∧
    ∀ es s', exec roomStep es s = some s' → 3 * s.submitted.length ≤ es.countP Event.ofThread →
      s.submitted <+: s'.called := by
  have hinv : Inv s := h.inv inv_initial fun _ _ _ hi hroom hstep => hi.step hroom hstep
  have hrunning := hinv.running
  have hle := hinv.called_prefix.length_le
  have hfinished := hinv.finished_le
  refine ⟨hinv.order, by omega, hinv.complete, thread_enabled s, fun es s' hrun hturns => ?_⟩
  obtain ⟨hinv', hsub⟩ : Inv s' ∧ s.submitted <+: s'.submitted := by
    refine Runs.inv (I := fun t => Inv t ∧ s.submitted <+: t.submitted) (runs_of_roomStep es hrun)
      ⟨hinv, List.prefix_rfl⟩ fun s₁ e s₂ h₁ hroom hstep => ?_
    exact ⟨h₁.1.step hroom hstep, h₁.2.trans (prefix_step hstep).1⟩
  have hcalled := called_of_turns es hinv le_rfl hrun (hturns.trans (Nat.le_add_left _ _))
  exact List.prefix_of_prefix_length_le hsub hinv'.called_prefix hcalled

/-- Two jobs go through the ring. -/
theorem jobs_in_order_two :
    ∃ s, (s.submitted = s.called ++ s.thread.next ++ queued s ∧
      s.g_NumRunningJobs.toNat = s.entering.length + (s.submitted.length - s.finished)) ∧
      s.submitted = [⟨1, 0⟩, ⟨1, 1⟩] := by
  let es : List Event := [.execute ⟨1, 0⟩, .execute ⟨1, 1⟩, .push 0, .poll, .push 0, .call]
  have hsome : (exec roomStep es initial).isSome := by decide +kernel
  obtain ⟨s, hs⟩ := Option.isSome_iff_exists.1 hsome
  obtain ⟨horder, hcount, -⟩ := jobs_in_order (runs_of_roomStep es hs)
  refine ⟨s, ⟨horder, hcount⟩, ?_⟩
  have hsub : (exec roomStep es initial).map State.submitted = some [⟨1, 0⟩, ⟨1, 1⟩] := by
    decide +kernel
  rw [hs] at hsub
  exact Option.some.inj hsub

/-- The `n` jobs `⟨1, 0⟩`, `⟨1, 1⟩`, .. are submitted without a turn of the job thread. -/
def burst (n : Nat) : List Event :=
  (List.range n).flatMap fun i => [.execute ⟨1, UInt64.ofNat i⟩, .push 0]

/-- The job thread takes, calls and finishes `n` jobs. -/
def turns (n : Nat) : List Event := (List.replicate n [.poll, .call, .done]).flatten

/-- In a burst of 129 jobs the last one is stored over the first one: it is called twice, the first one
never, and `AcpiOsWaitEventsComplete` returns. -/
theorem burst_loses_job :
    ∃ s, Runs step (fun _ _ => True) initial s ∧ waitEventsComplete s = true ∧
      ⟨1, 0⟩ ∈ s.submitted ∧ ⟨1, 0⟩ ∉ s.called ∧ s.called.count ⟨1, 128⟩ = 2 := by
  have hlost : (exec step (burst 129 ++ turns 129) initial).any (fun s =>
      waitEventsComplete s && decide (⟨1, 0⟩ ∈ s.submitted ∧ ⟨1, 0⟩ ∉ s.called ∧
        s.called.count ⟨1, 128⟩ = 2)) = true := by
    decide +kernel
  obtain ⟨s, hs, hcheck⟩ := (Option.any_eq_true _ _).1 hlost
  obtain ⟨hwait, hmem⟩ := (Bool.and_eq_true _ _).mp hcheck
  exact ⟨s, runs_of_exec _ hs, hwait, of_decide_eq_true hmem⟩

end ChenixOS.ACPI
