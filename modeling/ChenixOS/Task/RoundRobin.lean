import ChenixOS.Task.Soundness

/-!
# Round robin

`FindNextThread` takes the first ready thread of the active list and puts it at the end. A thread that
stays ready and in the list therefore moves forward until it is selected: as long as it is not, no
thread that was selected before gets in front of it.
-/

namespace ChenixOS.Scheduler

open Transitions

variable {s s' : State} {t u : Nat} {f : ThreadInfo → ThreadInfo}

/-! ## What a step does to the active list -/

/-- How a step may select a thread. `p` says which threads stay in the list. -/
inductive Selection (s s' : State) : Prop
  | none (new : List Nat) (hactive : s'.activeList = s.activeList ++ new)
    (hnew : ∀ t ∈ new, s.nextTid ≤ t) (hselected : s'.selected = s.selected)
    (hcurrent : s'.current = s.current)
  | thread (p : Nat → Bool) (pre suf : List Nat) (t : Nat)
    (hlist : s.activeList.filter p = pre ++ t :: suf) (hactive : s'.activeList = pre ++ suf ++ [t])
    (hpre : ∀ u ∈ pre, (s'.threads u).state ≠ .ready)
    (hselected : s'.selected = s.selected ++ [t]) (hcurrent : s'.current = t)
  | idle (p : Nat → Bool) (hactive : s'.activeList = s.activeList.filter p)
    (hnone : ∀ u ∈ s'.activeList, (s'.threads u).state ≠ .ready)
    (hselected : s'.selected = s.selected ++ [idleThread]) (hcurrent : s'.current = idleThread)

/-- A step that leaves list, log and running thread alone. -/
theorem Selection.same (hactive : s'.activeList = s.activeList) (hselected : s'.selected = s.selected)
    (hcurrent : s'.current = s.current) : Selection s s' :=
  .none [] (by simp [hactive]) nofun hselected hcurrent

/-- Select a thread after some have left the list. -/
theorem selection_findNextThread (s₁ : State) (p : Nat → Bool)
    (hactive : s₁.activeList = s.activeList.filter p) (hselected : s₁.selected = s.selected)
    (hstate : ∀ u, (s'.threads u).state = (s₁.threads u).state)
    (hactive' : s'.activeList = (findNextThread s₁).2.activeList)
    (hselected' : s'.selected = (findNextThread s₁).2.selected)
    (hcurrent' : s'.current = (findNextThread s₁).1) : Selection s s' := by
  obtain ⟨t, pre, suf, hlist, -, hpre, hfind⟩ | ⟨hnone, hfind⟩ := findNextThread_cases s₁
  · rw [hfind] at hactive' hselected' hcurrent'
    refine .thread p pre suf t (hactive ▸ hlist) hactive' (fun u hu => ?_) ?_ hcurrent'
    · rw [hstate]
      exact hpre u hu
    · rw [hselected', ← hselected]
  · rw [hfind] at hactive' hselected' hcurrent'
    refine .idle p (hactive'.trans hactive) (fun u hu => ?_) ?_ hcurrent'
    · rw [hstate]
      rw [hactive'] at hu
      exact hnone u hu
    · rw [hselected', ← hselected]

theorem selection_switchThread {s₁ : State} (hactive : s₁.activeList = s.activeList)
    (hselected : s₁.selected = s.selected) : Selection s (switchThread s₁) := by
  apply selection_findNextThread s₁ fun _ => true
  · simpa using hactive
  · exact hselected
  · intro u
    unfold switchThread
    rw [← findNextThread_threads (s := s₁)]
    exact modify_keeps (t := s₁.current) (f := fun i => { i with userMode := false })
      ThreadInfo.state rfl u
  · rfl
  · rfl
  · rfl

theorem selection_threadYield {s₁ : State} (hactive : s₁.activeList = s.activeList)
    (hselected : s₁.selected = s.selected) : Selection s (threadYield s₁) := by
  unfold threadYield
  split
  · rename_i hself
    apply selection_findNextThread s₁ fun _ => true
    · simpa using hactive
    · exact hselected
    · simp
    · rfl
    · rfl
    · rw [findNextThread_current, hself]
  · exact selection_switchThread hactive hselected

theorem selection_tick {d : Nat} {b : Bool} (h : s.activeList.Nodup) : Selection s (tick d b s) := by
  unfold tick
  split
  · exact .same rfl rfl rfl
  · apply selection_findNextThread (updateEvents d s)
      fun u => decide ((s.threads u).state ≠ .finished)
    · exact updateEvents_activeList h
    · rw [updateEvents_frame]
    · intro u
      rw [← findNextThread_threads (s := updateEvents d s)]
      exact modify_keeps (t := s.current) (f := fun i => { i with userMode := b })
        ThreadInfo.state rfl u
    · rfl
    · rfl
    · rfl

theorem selection_act (h : act s = some s') : Selection s s' := by
  unfold act at h
  dsimp only at h
  cases hpc : (s.threads s.current).pc with
  | run => simp [hpc] at h
  | sleeping | waiting =>
    obtain rfl : _ = s' := by simpa [hpc] using h
    exact .same rfl rfl rfl
  | popped child =>
    obtain rfl : _ = s' := by simpa [hpc] using h
    exact selection_switchThread rfl rfl
  | joining child =>
    simp only [hpc] at h
    split at h
    · obtain rfl := Option.some.inj h
      exact .same rfl rfl rfl
    · obtain rfl := Option.some.inj h
      exact .same rfl rfl rfl
  | killLoop k =>
    obtain rfl : _ = s' := by simpa [hpc] using h
    unfold killLoop
    dsimp only
    split
    · exact .same rfl rfl rfl
    · exact .same rfl rfl rfl
  | killing child k =>
    obtain rfl : _ = s' := by simpa [hpc] using h
    exact selection_switchThread rfl rfl
  | killJoin child k =>
    obtain rfl : _ = s' := by simpa only [hpc, Option.some.injEq] using h
    split
    · exact .same rfl rfl rfl
    · exact .same rfl rfl rfl
  | finish k =>
    cases k with
    | thread code =>
      obtain rfl : _ = s' := by simpa [hpc] using h
      exact selection_threadYield rfl rfl
    | caller code => simp [hpc] at h
    | main code =>
      obtain rfl : _ = s' := by simpa [hpc] using h
      exact selection_threadYield rfl rfl

theorem selection_call {e : Event} (h : call s e = some s') : Selection s s' := by
  cases e with
  | tick d b => cases h
  | act => cases h
  | createKernelThread | cloneThread sub mem fd =>
    obtain rfl := Option.some.inj h
    exact .none [s.nextTid] rfl (by simp) rfl rfl
  | threadYield =>
    obtain rfl := Option.some.inj h
    exact selection_threadYield rfl rfl
  | threadSleep ticks =>
    obtain rfl := Option.some.inj h
    exact selection_switchThread rfl rfl
  | lockWait =>
    obtain rfl := Option.some.inj h
    exact selection_switchThread rfl rfl
  | unlockWake w =>
    simp only [call] at h
    split at h
    · obtain rfl := Option.some.inj h
      exact .same rfl rfl rfl
    · cases h
  | threadDetach tid =>
    obtain rfl := Option.some.inj h
    unfold threadDetach
    dsimp only
    split
    · split <;> exact .same rfl rfl rfl
    · exact .same rfl rfl rfl
  | threadJoin tid =>
    obtain rfl := Option.some.inj h
    unfold threadJoin
    dsimp only
    split <;> exact .same rfl rfl rfl
  | threadTryJoin tid =>
    obtain rfl := Option.some.inj h
    unfold threadTryJoin
    dsimp only
    split
    · split <;> exact .same rfl rfl rfl
    · exact .same rfl rfl rfl
  | threadKill tid | threadAbort tid =>
    obtain rfl := Option.some.inj h
    simp only [threadKill, threadAbort, requestExit]
    split
    · split <;> exact .same rfl rfl rfl
    · exact .same rfl rfl rfl
  | handleKill rip | setUser uid | threadExit code | processDoExit code =>
    obtain rfl := Option.some.inj h
    exact .same rfl rfl rfl
  | threadExec =>
    obtain rfl := Option.some.inj h
    unfold threadExec
    dsimp only
    split <;> exact .same rfl rfl rfl
  | threadCheckFlags =>
    obtain rfl := Option.some.inj h
    unfold threadCheckFlags
    dsimp only
    split
    · split
      · split <;> exact .same rfl rfl rfl
      · exact .same rfl rfl rfl
    · split <;> exact .same rfl rfl rfl

theorem selection_step {e : Event} (hnodup : s.activeList.Nodup) (h : step s e = some s') :
    Selection s s' := by
  obtain ⟨d, b, -, -, rfl⟩ | ⟨-, -, hact⟩ | ⟨-, -, hcall⟩ := step_cases h
  · exact selection_tick hnodup
  · exact selection_act hact
  · exact selection_call hcall

/-! ## Positions in the list -/

/-- `t` is not in front of `u`. -/
def Before (l : List Nat) (u t : Nat) : Prop := ∃ pre suf, l = pre ++ u :: suf ∧ t ∉ pre

/-- The thread `u` is ready and in the list. -/
def Stays (u : Nat) (s : State) : Prop := (s.threads u).state = .ready ∧ u ∈ s.activeList

/-- A thread that is selected is behind all others. -/
theorem Selection.before (h : Selection s s') (hlists : Lists s') (hne : u ≠ t) (hstays : Stays u s')
    (hselected : s'.selected = s.selected ++ [t]) : Before s'.activeList u t := by
  cases h with
  | none new _ _ hsame _ => simp [hsame] at hselected
  | thread p pre suf x _ hactive _ hsel _ =>
    obtain rfl : x = t := by simpa [hsel] using hselected
    have hnodup := hlists.nodup
    have hmem := hstays.2
    rw [hactive] at hnodup hmem
    obtain ⟨a, b, hsplit⟩ := List.append_of_mem
      ((List.mem_append.1 hmem).resolve_right (by simpa using hne))
    refine ⟨a, b ++ [x], by rw [hactive, hsplit]; simp, fun ha => ?_⟩
    have hx : x ∈ pre ++ suf := by
      rw [hsplit]
      exact List.mem_append_left _ ha
    exact (List.nodup_append.1 hnodup).2.2 x hx x (by simp) rfl
  | idle p _ hnone _ _ => exact absurd hstays.1 (hnone u hstays.2)

/-- **One step**: as long as `u` is not selected, `t` does not get in front of it and is not selected. -/
theorem Selection.keeps_before (h : Selection s s') (hstays : Stays u s')
    (hbefore : Before s.activeList u t) :
    (s'.selected = s.selected ∧ Before s'.activeList u t) ∨
    ∃ x, s'.selected = s.selected ++ [x] ∧ (x = u ∨ x ≠ t ∧ Before s'.activeList u t) := by
  obtain ⟨front, back, hsplit, hfront⟩ := hbefore
  cases h with
  | none new hactive hnew hsame _ =>
    refine .inl ⟨hsame, front, back ++ new, ?_, hfront⟩
    rw [hactive, hsplit, List.append_assoc, List.cons_append]
  | thread p pre suf x hlist hactive hpre hsel _ =>
    refine .inr ⟨x, hsel, ?_⟩
    by_cases hxu : x = u
    · exact .inl hxu
    right
    have hupre : u ∉ pre := fun hmem => hpre u hmem hstays.1
    have hp : p u = true := by
      have hmem : u ∈ s.activeList.filter p := by
        have := hstays.2
        rw [hactive] at this
        rw [hlist]
        simpa [or_comm, or_left_comm, or_assoc] using this
      exact (List.mem_filter.1 hmem).2
    have heq : front.filter p ++ u :: back.filter p = pre ++ x :: suf := by
      rw [← hlist, hsplit, List.filter_append, List.filter_cons_of_pos hp]
    obtain ⟨a, hpre', -⟩ | ⟨a, hfront', hsuf⟩ := List.append_eq_append_iff.1 heq
    · cases a with
      | nil =>
        have : u :: back.filter p = x :: suf := by simpa [hpre'] using heq
        exact absurd (List.cons.inj this).1.symm hxu
      | cons y a =>
        have : u = y := by
          have htail : u :: back.filter p = (y :: a) ++ x :: suf := by
            rw [hpre', List.append_assoc] at heq
            exact List.append_cancel_left heq
          exact (List.cons.inj htail).1
        exact absurd (by rw [hpre', this]; simp) hupre
    · cases a with
      | nil => exact absurd (List.cons.inj hsuf).1 hxu
      | cons y a =>
        obtain ⟨rfl, hrest⟩ := List.cons.inj hsuf
        have hsub : ∀ z ∈ pre ++ x :: a, z ∈ front := by
          intro z hz
          rw [← hfront'] at hz
          exact (List.mem_filter.1 hz).1
        refine ⟨fun hxt => hfront (hxt ▸ hsub x (by simp)), pre ++ a, back.filter p ++ [x], ?_, ?_⟩
        · rw [hactive, hrest]
          simp
        · intro hmem
          apply hfront
          apply hsub
          rcases List.mem_append.1 hmem with hmem | hmem
          · exact List.mem_append_left _ hmem
          · exact List.mem_append_right _ (List.mem_cons_of_mem _ hmem)
  | idle p hactive hnone _ _ => exact absurd hstays.1 (hnone u hstays.2)

/-! ## Runs -/

/-- The last thread that `FindNextThread` returned is the running one. -/
theorem Selection.last (h : Selection s s') (hlast : ∀ t, s.selected.getLast? = some t → t = s.current) :
    ∀ t, s'.selected.getLast? = some t → t = s'.current := by
  intro t ht
  cases h with
  | none new _ _ hselected hcurrent =>
    rw [hselected] at ht
    rw [hcurrent]
    exact hlast t ht
  | thread p pre suf x _ _ _ hselected hcurrent =>
    rw [hcurrent]
    simpa [hselected] using ht.symm
  | idle p _ _ hselected hcurrent =>
    rw [hcurrent]
    simpa [hselected] using ht.symm

/-- Events other than `ProcessDoExit`, after which `u` is ready and in the list. -/
def KeepsReady (u : Nat) (s : State) (e : Event) : Prop :=
  NoProcessExit s e ∧ ∀ s', step s e = some s' → Stays u s'

/-- **A whole run**: `t` is not selected again before `u` is. -/
theorem not_overtaken {s₁ s₂ : State} {m : List Nat} (hbase : Base s₁)
    (hbefore : Before s₁.activeList u t) (run : Runs step (KeepsReady u) s₁ s₂)
    (hselected : s₂.selected = s₁.selected ++ m) : u ∈ m ∨ t ∉ m := by
  have hinv : Base s₂ ∧ ∃ m, s₂.selected = s₁.selected ++ m ∧
      (u ∈ m ∨ t ∉ m ∧ Before s₂.activeList u t) := by
    refine run.inv (I := fun s => Base s ∧ ∃ m, s.selected = s₁.selected ++ m ∧
      (u ∈ m ∨ t ∉ m ∧ Before s.activeList u t)) ⟨hbase, [], by simp, .inr ⟨by simp, hbefore⟩⟩ ?_
    rintro s e s' ⟨hbase, m, hm, hor⟩ ⟨-, hstays⟩ hstep
    refine ⟨hbase.step hstep, ?_⟩
    have hsel := selection_step hbase.lists.nodup hstep
    rcases hor with hu | ⟨htm, hb⟩
    · cases hsel with
      | none new _ _ hsame _ => exact ⟨m, hsame.trans hm, .inl hu⟩
      | thread p pre suf x _ _ _ hnew _ =>
        exact ⟨m ++ [x], by rw [hnew, hm, List.append_assoc], .inl (List.mem_append_left _ hu)⟩
      | idle p _ _ hnew _ =>
        exact ⟨m ++ [idleThread], by rw [hnew, hm, List.append_assoc],
          .inl (List.mem_append_left _ hu)⟩
    · obtain ⟨hsame, hb'⟩ | ⟨x, hnew, hx⟩ := hsel.keeps_before (hstays s' hstep) hb
      · exact ⟨m, hsame.trans hm, .inr ⟨htm, hb'⟩⟩
      · refine ⟨m ++ [x], by rw [hnew, hm, List.append_assoc], ?_⟩
        rcases hx with rfl | ⟨hxt, hb'⟩
        · exact .inl (by simp)
        · exact .inr ⟨by simp [htm, Ne.symm hxt], hb'⟩
  obtain ⟨-, m', hm', hor⟩ := hinv
  obtain rfl : m' = m := List.append_cancel_left (hm'.symm.trans hselected)
  exact hor.imp_right And.left

/-- **The scheduler is sound.** In every state that a run without `ProcessDoExit` reaches:

- the thread that `FindNextThread` returned last is the running one, and it is ready or the idle thread;
- the active list holds every thread that was made and has not exited, once, and no other;
- every thread that was deleted has exited and is not running;
- if a step selects `t`, and `t` is selected again after `u` was ready and in the list all the time,
  then `u` was selected in between. -/
theorem scheduler_sound (s : State) (run : Runs step NoProcessExit initial s) :
    (∀ t, s.selected.getLast? = some t → t = s.current) ∧
    (s.current = idleThread ∨ (s.threads s.current).state = .ready) ∧
    s.activeList.Nodup ∧
    (∀ t, t ∈ s.activeList ↔ t ≠ idleThread ∧ t < s.nextTid ∧ (s.threads t).state ≠ .exited) ∧
    (∀ t ∈ s.deleted, (s.threads t).state = .exited ∧ t ≠ s.current) ∧
    ∀ (t u : Nat) (e : Event) (s₁ s₂ : State) (m : List Nat), u ≠ t → NoProcessExit s e →
      step s e = some s₁ → s₁.selected = s.selected ++ [t] → Stays u s₁ →
      Runs step (KeepsReady u) s₁ s₂ → s₂.selected = s₁.selected ++ m ++ [t] → u ∈ m := by
  have hinv : Base s ∧ Sound s ∧ ∀ t, s.selected.getLast? = some t → t = s.current := by
    refine run.inv (I := fun s => Base s ∧ Sound s ∧
      ∀ t, s.selected.getLast? = some t → t = s.current) ⟨base_initial, sound_initial, nofun⟩ ?_
    rintro s e s' ⟨hbase, hsound, hlast⟩ hok hstep
    exact ⟨hbase.step hstep, hsound.step hbase hok hstep,
      (selection_step hbase.lists.nodup hstep).last hlast⟩
  obtain ⟨hbase, hsound, hlast⟩ := hinv
  refine ⟨hlast, .inr hbase.running.ready, hbase.lists.nodup, fun t => ?_, fun t ht => ?_, ?_⟩
  · constructor
    · intro ht
      obtain ⟨hidle, hlt⟩ := hbase.lists.listed t ht
      exact ⟨hidle, hlt, (hsound.active t hidle hlt).1 ht⟩
    · rintro ⟨hidle, hlt, hstate⟩
      exact (hsound.active t hidle hlt).2 hstate
  · have hexited := hsound.deleted t ht
    refine ⟨hexited, fun e => ?_⟩
    rw [e, hbase.running.ready] at hexited
    cases hexited
  · intro t u e s₁ s₂ m hne hok hstep hselected hstays hrun hselected₂
    have hbase₁ := hbase.step hstep
    have hbefore := (selection_step hbase.lists.nodup hstep).before hbase₁.lists hne hstays hselected
    rw [List.append_assoc] at hselected₂
    rcases not_overtaken hbase₁ hbefore hrun hselected₂ with hu | ht
    · simpa [hne] using hu
    · simp at ht

/-- The guards as tests. -/
def noProcessExit : Event → Bool
  | .processDoExit _ => false
  | _ => true

theorem noProcessExit_sound (s : State) (e : Event) (h : noProcessExit e = true) :
    NoProcessExit s e := by
  rintro code rfl
  cases h

def keepsReady (u : Nat) (s : State) (e : Event) : Bool :=
  noProcessExit e && match step s e with
    | some s' => decide ((s'.threads u).state = .ready) && decide (u ∈ s'.activeList)
    | none => true

theorem keepsReady_sound (s : State) (e : Event) (h : keepsReady u s e = true) :
    KeepsReady u s e := by
  obtain ⟨hno, hstep⟩ := Bool.and_eq_true_iff.1 h
  refine ⟨noProcessExit_sound s e hno, fun s' hs => ?_⟩
  simpa [hs, Stays] using hstep

/-- The init thread makes a thread, and both yield in turn. -/
theorem scheduler_sound_two_threads : ∃ s s₁ s₂ m,
    Runs step NoProcessExit initial s ∧ step s .threadYield = some s₁ ∧
    Runs step (KeepsReady 2) s₁ s₂ ∧ s₂.selected = s₁.selected ++ m ++ [initThread] ∧ 2 ∈ m := by
  have hrun : ((exec (fun s e => if noProcessExit e then step s e else none)
      [.tick 0 false, .createKernelThread] initial).bind fun s =>
        (step s .threadYield).bind fun s₁ =>
          (exec (fun s e => if keepsReady 2 s e then step s e else none)
            [.threadYield, .threadYield] s₁).map fun s₂ =>
              (s.selected, s₁.selected, (s₁.threads 2).state, decide (2 ∈ s₁.activeList),
                s₂.selected)) =
      some ([1], [1, 1], .ready, true, [1, 1, 2, 1]) := by decide
  obtain ⟨s, hs, hrun⟩ := Option.bind_eq_some_iff.1 hrun
  obtain ⟨s₁, hs₁, hrun⟩ := Option.bind_eq_some_iff.1 hrun
  obtain ⟨s₂, hs₂, hrun⟩ := Option.map_eq_some_iff.1 hrun
  simp only [Prod.mk.injEq, decide_eq_true_eq] at hrun
  obtain ⟨hsel, hsel₁, hready, hlisted, hsel₂⟩ := hrun
  have hruns : Runs step NoProcessExit initial s := runs_of_checks noProcessExit_sound _ hs
  have hkeeps : Runs step (KeepsReady 2) s₁ s₂ := runs_of_checks keepsReady_sound _ hs₂
  have hselected : s₂.selected = s₁.selected ++ [2] ++ [initThread] := by rw [hsel₁, hsel₂]; rfl
  obtain ⟨-, -, -, -, -, hround⟩ := scheduler_sound s hruns
  refine ⟨s, s₁, s₂, [2], hruns, hs₁, hkeeps, hselected, ?_⟩
  exact hround initThread 2 .threadYield s₁ s₂ [2] (by decide) nofun hs₁
    (by rw [hsel, hsel₁]; rfl) ⟨hready, hlisted⟩ hkeeps hselected

end ChenixOS.Scheduler
