import ChenixOS.Fs.PipeFSProof

/-!
# Blocking pipe calls

`PipeFS::ReadNodeData` and `PipeFS::WriteNodeData` call `_Read` and `_Write` in a loop and yield in
between, so the rounds of all threads at a pipe come in any order. `Promise` says what the callers expect of
them. It is kept in every state of a run exactly if no reader passes a buffer of size zero, for which the loop
never ends, and no writer that has already appended some of its bytes meets an inaccessible one.

The proof is by one invariant: what a writer has appended so far are the first bytes of its buffer.
-/

namespace ChenixOS.PipeFS

/-! ## Rounds -/

/-- `realBuffer + res` -/
def UserBuffer.offset (user : UserBuffer) (res : Nat) : UserBuffer :=
  ⟨fun i => user.valid (res + i), fun i => user.byte (res + i)⟩

/-- One round of the loop of `ReadNodeData`; with `none` there is another one after `ThreadYield`. -/
def Pipe.readRound (p : Pipe) (user : UserBuffer) (bufferSize : Nat) :
    Except Stop (Option Ret × Pipe × UserBuffer) := do
  let (res, p, user) ← p.read user bufferSize
  .ok (if res = .count 0 then none else some res, p, user)

/-- One round of the loop of `WriteNodeData`, after `res` bytes were written. -/
def Pipe.writeRound (p : Pipe) (user : UserBuffer) (bufferSize res : Nat) :
    Except Stop (Option Ret × Nat × Pipe) := do
  let (count, p) ← p.write (user.offset res) (bufferSize - res)
  match count with
  | .invalidBuffer => .ok (some .invalidBuffer, res, p)
  | .count count => .ok (if res + count = bufferSize then some (.count bufferSize) else none, res + count, p)

/-- **A round of a reader** takes bytes from the front. It is the last one unless there is nothing to take. -/
theorem Pipe.readRound_spec {p : Pipe} (hp : p.InBounds) (user : UserBuffer) (n : Nat) :
    ∃ ret p' user', p.readRound user n = .ok (ret, p', user') ∧ p'.InBounds ∧ p'.contents <:+ p.contents ∧
      (ret = none ↔ n = 0 ∨ p.contents = []) := by
  have hnone : n = 0 ∨ p.contents = [] ↔ min n p.stored = 0 := by
    rw [← List.length_eq_zero_iff, p.length_contents]
    omega
  obtain ⟨out, hread, hspec⟩ := p.read_spec hp user n
  cases hspec with
  | @ok p' user' hacc hin hid hfree hcontents hbytes =>
    refine ⟨_, p', user', by rw [Pipe.readRound, hread]; rfl, hin, hcontents ▸ List.drop_suffix _ _, ?_⟩
    rw [hnone]
    by_cases hzero : min n p.stored = 0 <;> simp [hzero]
  | @fail user' hacc =>
    refine ⟨_, p, user', by rw [Pipe.readRound, hread]; rfl, hp, List.suffix_rfl, ?_⟩
    rw [hnone]
    refine ⟨fun h => by simp at h, fun hzero => absurd (fun i hi => ?_) hacc⟩
    omega

/-- What a round of a writer does, after `res` bytes were written. -/
inductive WriteRound (p : Pipe) (user : UserBuffer) (n res : Nat) : Option Ret × Nat × Pipe → Prop
  | wrote {p' : Pipe} (k : Nat) :
      k = min (n - res) p.room → (user.offset res).Accessible k → p'.InBounds →
      p'.contents = p.contents ++ (user.offset res).bytes k →
      WriteRound p user n res (if res + k = n then some (.count n) else none, res + k, p')
  | failed {p' : Pipe} :
      ¬ (user.offset res).Accessible (min (n - res) p.room) → p'.InBounds → p'.contents = p.contents →
      WriteRound p user n res (some .invalidBuffer, res, p')

theorem Pipe.writeRound_spec {p : Pipe} (hp : p.InBounds) (user : UserBuffer) (n res : Nat) :
    ∃ out, p.writeRound user n res = .ok out ∧ WriteRound p user n res out := by
  obtain ⟨out, hwrite, hspec⟩ := p.write_spec hp (user.offset res) (n - res)
  cases hspec with
  | @ok p' hacc hin hid hfree hcontents =>
    exact ⟨_, by rw [Pipe.writeRound, hwrite]; rfl, .wrote _ rfl hacc hin hcontents⟩
  | @fail p' hacc hin hid hfree hcontents =>
    exact ⟨_, by rw [Pipe.writeRound, hwrite]; rfl, .failed hacc hin hcontents⟩

/-- The bytes of a buffer, and the next ones. -/
theorem UserBuffer.bytes_add (user : UserBuffer) (res k : Nat) :
    user.bytes (res + k) = user.bytes res ++ (user.offset res).bytes k := by
  unfold UserBuffer.bytes
  rw [List.range_add, List.map_append, List.map_map]
  rfl

/-! ## Threads at a pipe -/

namespace Blocking

/-- A call of `ReadNodeData` or `WriteNodeData`. -/
inductive Request
  | read (user : UserBuffer) (bufferSize : Nat)
  | write (user : UserBuffer) (bufferSize : Nat)

/-- What a thread does at the pipe; `res` is the local variable of `WriteNodeData`. -/
inductive Thread
  | idle
  | running (request : Request) (res : Nat)
  | returned (request : Request) (ret : Ret)

/-- A pipe, and the threads that have calls on it. Each thread makes one call. -/
structure State where
  pipe : Pipe
  threads : Nat → Thread

/-- A thread makes its call, or comes to its next round. -/
inductive Action
  | start (t : Nat) (request : Request)
  | round (t : Nat)

inductive Step (s : State) : Action → State → Prop
  | start {t : Nat} {request : Request} : s.threads t = .idle →
      Step s (.start t request) ⟨s.pipe, Function.update s.threads t (.running request 0)⟩
  | readAgain {t res n : Nat} {user user' : UserBuffer} {p : Pipe} :
      s.threads t = .running (.read user n) res → s.pipe.readRound user n = .ok (none, p, user') →
      Step s (.round t) ⟨p, Function.update s.threads t (.running (.read user' n) res)⟩
  | readReturns {t res n : Nat} {user user' : UserBuffer} {p : Pipe} {ret : Ret} :
      s.threads t = .running (.read user n) res → s.pipe.readRound user n = .ok (some ret, p, user') →
      Step s (.round t) ⟨p, Function.update s.threads t (.returned (.read user' n) ret)⟩
  | writeAgain {t res res' n : Nat} {user : UserBuffer} {p : Pipe} :
      s.threads t = .running (.write user n) res → s.pipe.writeRound user n res = .ok (none, res', p) →
      Step s (.round t) ⟨p, Function.update s.threads t (.running (.write user n) res')⟩
  | writeReturns {t res res' n : Nat} {user : UserBuffer} {p : Pipe} {ret : Ret} :
      s.threads t = .running (.write user n) res → s.pipe.writeRound user n res = .ok (some ret, res', p) →
      Step s (.round t) ⟨p, Function.update s.threads t (.returned (.write user n) ret)⟩

/-- The bytes that each thread has appended. -/
abbrev History : Type := Nat → List UInt8

/-- The bytes behind those that were in the pipe before. -/
def appended (s s' : State) : List UInt8 := s'.pipe.contents.drop s.pipe.contents.length

def History.record (hist : History) (s s' : State) : Action → History
  | .start _ _ => hist
  | .round t => Function.update hist t (hist t ++ appended s s')

/-- Runs on a pipe that `CreateNode` handed out, with the states and actions on the way. -/
inductive Run : State → History → List (State × History × Action) → Prop
  | nil (id : Nat) (buffer : Nat → UInt8) : Run ⟨⟨id, false, 0, 0, buffer⟩, fun _ => .idle⟩ (fun _ => []) []
  | step {s s' : State} {hist : History} {steps : List (State × History × Action)} {a : Action} :
      Run s hist steps → Step s a s' → Run s' (hist.record s s' a) (steps ++ [(s, hist, a)])

/-! ## The promise -/

/-- The thread returns in its next round. -/
def ReturnsNext (s : State) (t : Nat) : Prop :=
  (∃ s', Step s (.round t) s') ∧ ∀ s', Step s (.round t) s' → ∃ request ret, s'.threads t = .returned request ret

/-- **What callers expect**: a reader returns as soon as there are bytes or it wants none, a writer returns
the size of its buffer when it has appended all of it, and an error when it has appended nothing. -/
structure Promise (s : State) (hist : History) : Prop where
  reads : ∀ t user n res, s.threads t = .running (.read user n) res → s.pipe.contents ≠ [] ∨ n = 0 →
    ReturnsNext s t
  writes : ∀ t user n m, s.threads t = .returned (.write user n) (.count m) → m = n ∧ hist t = user.bytes n
  fails : ∀ t user n, s.threads t = .returned (.write user n) .invalidBuffer → hist t = []

/-- A reader wants something, and a writer that has appended some of its bytes can access the next ones. -/
def Meets (s : State) : Action → Prop
  | .start _ (.read _ n) => n ≠ 0
  | .start _ (.write _ _) => True
  | .round t => ∀ user n res, s.threads t = .running (.write user n) res →
      res = 0 ∨ (user.offset res).Accessible (min (n - res) s.pipe.room)

/-- The part of the promise that every run keeps. -/
structure Inv (s : State) (hist : History) : Prop where
  inBounds : s.pipe.InBounds
  idle : ∀ t, s.threads t = .idle → hist t = []
  writing : ∀ t user n res, s.threads t = .running (.write user n) res → res ≤ n ∧ hist t = user.bytes res
  wrote : ∀ t user n m, s.threads t = .returned (.write user n) (.count m) → m = n ∧ hist t = user.bytes n

variable {s s' : State} {hist : History} {steps : List (State × History × Action)} {a : Action} {t n res : Nat}
  {user : UserBuffer}

/-- A change of one thread, with what it appended. -/
theorem Inv.update (h : Inv s hist) {thread : Thread} {bytes : List UInt8}
    (hthreads : s'.threads = Function.update s.threads t thread) (hp : s'.pipe.InBounds)
    (hidle : thread ≠ .idle)
    (hwriting : ∀ user n res, thread = .running (.write user n) res → res ≤ n ∧ bytes = user.bytes res)
    (hwrote : ∀ user n m, thread = .returned (.write user n) (.count m) → m = n ∧ bytes = user.bytes n) :
    Inv s' (Function.update hist t bytes) := by
  refine ⟨hp, fun i hi => ?_, fun i user n res hi => ?_, fun i user n m hi => ?_⟩ <;> rw [hthreads] at hi <;>
    by_cases hit : i = t
  · subst hit
    rw [Function.update_self] at hi
    exact absurd hi hidle
  · rw [Function.update_of_ne hit] at hi ⊢
    exact h.idle i hi
  · subst hit
    rw [Function.update_self] at hi ⊢
    exact hwriting user n res hi
  · rw [Function.update_of_ne hit] at hi ⊢
    exact h.writing i user n res hi
  · subst hit
    rw [Function.update_self] at hi ⊢
    exact hwrote user n m hi
  · rw [Function.update_of_ne hit] at hi ⊢
    exact h.wrote i user n m hi

/-- What a round does to the pipe, by the kind of its caller. -/
inductive RoundSpec (s : State) (t : Nat) (s' : State) : Prop
  | read (user user' : UserBuffer) (n res : Nat) (ret : Option Ret) :
      s.threads t = .running (.read user n) res → s'.pipe.InBounds → s'.pipe.contents <:+ s.pipe.contents →
      (ret = none ↔ n = 0 ∨ s.pipe.contents = []) →
      s'.threads = Function.update s.threads t
        (ret.elim (.running (.read user' n) res) fun ret => .returned (.read user' n) ret) →
      RoundSpec s t s'
  | write (user : UserBuffer) (n res res' : Nat) (ret : Option Ret) :
      s.threads t = .running (.write user n) res → WriteRound s.pipe user n res (ret, res', s'.pipe) →
      s'.threads = Function.update s.threads t
        (ret.elim (.running (.write user n) res') fun ret => .returned (.write user n) ret) →
      RoundSpec s t s'

theorem Step.roundSpec (hp : s.pipe.InBounds) (h : Step s (.round t) s') : RoundSpec s t s' := by
  cases h with
  | @readAgain _ res n user user' p ht hround =>
    obtain ⟨ret, p', user'', hround', hin, hsuffix, hnone⟩ := s.pipe.readRound_spec hp user n
    cases hround.symm.trans hround'
    exact .read user user' n res none ht hin hsuffix hnone rfl
  | @readReturns _ res n user user' p ret ht hround =>
    obtain ⟨ret', p', user'', hround', hin, hsuffix, hnone⟩ := s.pipe.readRound_spec hp user n
    cases hround.symm.trans hround'
    exact .read user user' n res (some ret) ht hin hsuffix hnone rfl
  | @writeAgain _ res res' n user p ht hround =>
    obtain ⟨out, hround', hspec⟩ := s.pipe.writeRound_spec hp user n res
    cases hround.symm.trans hround'
    exact .write user n res res' none ht hspec rfl
  | @writeReturns _ res res' n user p ret ht hround =>
    obtain ⟨out, hround', hspec⟩ := s.pipe.writeRound_spec hp user n res
    cases hround.symm.trans hround'
    exact .write user n res res' (some ret) ht hspec rfl

/-- A round of a running thread has an outcome. -/
theorem exists_round {request : Request} (hp : s.pipe.InBounds) (ht : s.threads t = .running request res) :
    ∃ s', Step s (.round t) s' := by
  cases request with
  | read user n =>
    obtain ⟨ret, p', user', hround, -⟩ := s.pipe.readRound_spec hp user n
    cases ret with
    | none => exact ⟨_, .readAgain ht hround⟩
    | some ret => exact ⟨_, .readReturns ht hround⟩
  | write user n =>
    obtain ⟨⟨ret, res', p'⟩, hround, -⟩ := s.pipe.writeRound_spec hp user n res
    cases ret with
    | none => exact ⟨_, .writeAgain ht hround⟩
    | some ret => exact ⟨_, .writeReturns ht hround⟩

/-! ## Steps -/

theorem appended_of_suffix (h : s'.pipe.contents <:+ s.pipe.contents) : appended s s' = [] :=
  List.drop_eq_nil_of_le h.length_le

theorem appended_of_append {bytes : List UInt8} (h : s'.pipe.contents = s.pipe.contents ++ bytes) :
    appended s s' = bytes := by
  rw [appended, h, List.drop_left]

/-- **Each step** keeps the invariant. -/
theorem Step.inv (h : Inv s hist) (hstep : Step s a s') : Inv s' (hist.record s s' a) := by
  cases a with
  | start t request =>
    cases hstep with
    | start ht =>
      have hhist : hist = Function.update hist t [] := by rw [← h.idle t ht, Function.update_eq_self]
      show Inv _ hist
      rw [hhist]
      refine h.update rfl h.inBounds (by simp) (fun user n res hthread => ?_) (fun user n m hthread => ?_)
      · cases hthread
        exact ⟨Nat.zero_le n, rfl⟩
      · cases hthread
  | round t =>
    show Inv s' (Function.update hist t (hist t ++ appended s s'))
    obtain ⟨user, user', n, res, ret, ht, hin, hsuffix, -, hthreads⟩ |
      ⟨user, n, res, res', ret, ht, hspec, hthreads⟩ := hstep.roundSpec h.inBounds
    · cases ret with
      | none => exact h.update hthreads hin (by simp) (by simp) (by simp)
      | some ret => exact h.update hthreads hin (by simp) (by simp) (by simp)
    · obtain ⟨hle, hhist⟩ := h.writing t user n res ht
      generalize hout : (ret, res', s'.pipe) = out at hspec
      cases hspec with
      | wrote k hk hacc hin hcontents =>
        obtain ⟨rfl, rfl, rfl⟩ : ret = _ ∧ res' = res + k ∧ s'.pipe = _ := by simpa using hout
        rw [appended_of_append hcontents, hhist, ← user.bytes_add]
        split_ifs at hthreads with hdone
        · refine h.update hthreads hin (by simp) (by simp) fun user' n' m hthread => ?_
          cases hthread
          exact ⟨rfl, by rw [hdone]⟩
        · refine h.update hthreads hin (by simp) (fun user' n' res' hthread => ?_) (by simp)
          cases hthread
          exact ⟨by omega, rfl⟩
      | failed hacc hin hcontents =>
        obtain ⟨rfl, rfl, rfl⟩ : ret = _ ∧ res' = res ∧ s'.pipe = _ := by simpa using hout
        exact h.update hthreads hin (by simp) (by simp) (by simp)

/-- **Each run** keeps the invariant. -/
theorem Run.inv (h : Run s hist steps) : Inv s hist := by
  induction h with
  | nil id buffer =>
    refine ⟨⟨Nat.zero_lt_succ _, Nat.zero_lt_succ _⟩, fun _ _ => rfl, fun _ _ _ _ ht => ?_, fun _ _ _ _ ht => ?_⟩
    · cases ht
    · cases ht
  | step _ hstep ih => exact hstep.inv ih

/-! ## The promise is kept -/

/-- A reader that wants something returns as soon as there is something. -/
theorem Inv.returnsNext_iff (h : Inv s hist) (ht : s.threads t = .running (.read user n) res)
    (hready : s.pipe.contents ≠ [] ∨ n = 0) : ReturnsNext s t ↔ n ≠ 0 := by
  have hround : ∀ s', Step s (.round t) s' →
      ((∃ request ret, s'.threads t = .returned request ret) ↔ n ≠ 0) := by
    intro s' hstep
    obtain ⟨user₁, user', n₁, res₁, ret, ht₁, -, -, hnone, hthreads⟩ |
      ⟨user₁, n₁, res₁, res', ret, ht₁, -, -⟩ := hstep.roundSpec h.inBounds
    · cases ht.symm.trans ht₁
      rw [hthreads, Function.update_self]
      cases ret with
      | none =>
        have hstop := hnone.1 rfl
        simp only [Option.elim_none, reduceCtorEq, exists_false, false_iff, ne_eq, not_not]
        tauto
      | some ret =>
        have hgo : ¬ (n = 0 ∨ s.pipe.contents = []) := fun hstop => by cases hnone.2 hstop
        simp only [Option.elim_some]
        exact ⟨fun _ hzero => hgo (.inl hzero), fun _ => ⟨_, _, rfl⟩⟩
    · cases ht.symm.trans ht₁
  obtain ⟨s', hstep⟩ := exists_round h.inBounds ht
  exact ⟨fun hnext => (hround s' hstep).1 (hnext.2 s' hstep), fun hn => ⟨⟨s', hstep⟩, fun s'' hstep' =>
    (hround s'' hstep').2 hn⟩⟩

/-- What the steps of a run that meet the condition keep, besides `Inv`. -/
structure Kept (s : State) (hist : History) : Prop where
  reading : ∀ t user n res, s.threads t = .running (.read user n) res → n ≠ 0
  fails : ∀ t user n, s.threads t = .returned (.write user n) .invalidBuffer → hist t = []

theorem Kept.promise (h : Inv s hist) (hk : Kept s hist) : Promise s hist where
  reads t user n res ht hready := (h.returnsNext_iff ht hready).2 (hk.reading t user n res ht)
  writes := h.wrote
  fails := hk.fails

/-- A change of one thread, with what it appended. -/
theorem Kept.update (h : Kept s hist) {thread : Thread} {bytes : List UInt8}
    (hthreads : s'.threads = Function.update s.threads t thread)
    (hreading : ∀ user n res, thread = .running (.read user n) res → n ≠ 0)
    (hfails : ∀ user n, thread = .returned (.write user n) .invalidBuffer → bytes = []) :
    Kept s' (Function.update hist t bytes) := by
  refine ⟨fun i user n res hi => ?_, fun i user n hi => ?_⟩ <;> rw [hthreads] at hi <;> by_cases hit : i = t
  · subst hit
    rw [Function.update_self] at hi
    exact hreading user n res hi
  · rw [Function.update_of_ne hit] at hi
    exact h.reading i user n res hi
  · subst hit
    rw [Function.update_self] at hi ⊢
    exact hfails user n hi
  · rw [Function.update_of_ne hit] at hi ⊢
    exact h.fails i user n hi

/-- A step that meets the condition. -/
theorem Step.kept (h : Inv s hist) (hk : Kept s hist) (hmeets : Meets s a) (hstep : Step s a s') :
    Kept s' (hist.record s s' a) := by
  cases a with
  | start t request =>
    cases hstep with
    | start ht =>
      have hhist : hist = Function.update hist t [] := by rw [← h.idle t ht, Function.update_eq_self]
      show Kept _ hist
      rw [hhist]
      refine hk.update rfl (fun user n res hthread => ?_) (by simp)
      cases hthread
      exact hmeets
  | round t =>
    show Kept s' (Function.update hist t (hist t ++ appended s s'))
    obtain ⟨user, user', n, res, ret, ht, hin, hsuffix, -, hthreads⟩ |
      ⟨user, n, res, res', ret, ht, hspec, hthreads⟩ := hstep.roundSpec h.inBounds
    · refine hk.update hthreads (fun user₁ n₁ res₁ hthread => ?_) (fun user₁ n₁ hthread => ?_)
      · cases ret with
        | none =>
          cases hthread
          exact hk.reading t user n res ht
        | some ret => cases hthread
      · cases ret <;> cases hthread
    · obtain ⟨hle, hhist⟩ := h.writing t user n res ht
      generalize hout : (ret, res', s'.pipe) = out at hspec
      cases hspec with
      | wrote k hk₁ hacc hin hcontents =>
        obtain ⟨rfl, rfl, rfl⟩ : ret = _ ∧ res' = res + k ∧ s'.pipe = _ := by simpa using hout
        split_ifs at hthreads with hdone
        · exact hk.update hthreads (by simp) (by simp)
        · exact hk.update hthreads (by simp) (by simp)
      | failed hacc hin hcontents =>
        -- the copy fails, so nothing was appended before
        obtain rfl := (hmeets user n res ht).resolve_right hacc
        have hnothing : appended s s' = [] := appended_of_suffix (by
          obtain ⟨-, -, rfl⟩ : ret = _ ∧ res' = 0 ∧ s'.pipe = _ := by simpa using hout
          exact hcontents ▸ List.suffix_rfl)
        rw [hnothing, hhist]
        refine hk.update hthreads (fun user₁ n₁ res₁ hthread => ?_) fun _ _ _ => rfl
        obtain ⟨rfl, -⟩ : ret = some .invalidBuffer ∧ _ := by simpa using hout
        cases hthread

/-- After a step that does not meet the condition, the promise is broken. -/
theorem Step.meets (h : Inv s hist) (hstep : Step s a s') (hpromise : Promise s' (hist.record s s' a)) :
    Meets s a := by
  have hinv := hstep.inv h
  cases a with
  | start t request =>
    cases hstep with
    | start ht =>
      cases request with
      | write user n => trivial
      | read user n =>
        rintro rfl
        have ht' := Function.update_self t (Thread.running (.read user 0) 0) s.threads
        exact (hinv.returnsNext_iff ht' (.inr rfl)).1 (hpromise.reads t user 0 0 ht' (.inr rfl)) rfl
  | round t =>
    intro user n res ht
    by_contra hbroken
    rw [not_or] at hbroken
    obtain ⟨user₁, user', n₁, res₁, ret, ht₁, -, -, -, -⟩ |
      ⟨user₁, n₁, res₁, res', ret, ht₁, hspec, hthreads⟩ := hstep.roundSpec h.inBounds
    · cases ht.symm.trans ht₁
    · cases ht.symm.trans ht₁
      generalize hout : (ret, res', s'.pipe) = out at hspec
      cases hspec with
      | wrote k hk hacc hin hcontents => exact hbroken.2 (hk ▸ hacc)
      | failed hacc hin hcontents =>
        obtain ⟨rfl, -⟩ : ret = some .invalidBuffer ∧ _ := by simpa using hout
        have ht' : s'.threads t = .returned (.write user n) .invalidBuffer := by
          rw [hthreads, Function.update_self]
          rfl
        have hnone : hist t ++ appended s s' = [] := by
          have := hpromise.fails t user n ht'
          rwa [History.record, Function.update_self] at this
        rw [(h.writing t user n res ht).2] at hnone
        have hlength := congrArg List.length (List.append_eq_nil_iff.1 hnone).1
        rw [UserBuffer.bytes, List.length_map, List.length_range] at hlength
        exact hbroken.1 hlength

/-- Each run whose steps meet the condition. -/
theorem Run.kept (h : Run s hist steps) (hmeets : ∀ x ∈ steps, Meets x.1 x.2.2) : Kept s hist := by
  induction h with
  | nil id buffer =>
    refine ⟨fun _ _ _ _ ht => ?_, fun _ _ _ ht => ?_⟩
    · cases ht
    · cases ht
  | @step s s' hist steps a hrun hstep ih =>
    have hbefore := ih fun x hx => hmeets x (List.mem_append_left _ hx)
    exact hstep.kept hrun.inv hbefore (hmeets (s, hist, a) (by simp))

/-- Each state on the way of a run is reached by a run. -/
theorem Run.prefix_run (h : Run s hist steps) {x : State × History × Action} (hx : x ∈ steps) :
    ∃ steps', Run x.1 x.2.1 steps' ∧ ∀ y ∈ steps', y ∈ steps := by
  induction h with
  | nil id buffer => cases hx
  | @step s s' hist steps a hrun hstep ih =>
    obtain hx | hx := List.mem_append.1 hx
    · obtain ⟨steps', hrun', hsub⟩ := ih hx
      exact ⟨steps', hrun', fun y hy => List.mem_append_left _ (hsub y hy)⟩
    · obtain rfl := List.mem_singleton.1 hx
      exact ⟨steps, hrun, fun y hy => List.mem_append_left _ hy⟩

/-- **Blocking pipe calls**: in every interleaving, the promise is kept in every state exactly if every
step meets the condition. Whether it does or not, rounds never fault, they append behind what is stored or
take from its front, and a writer that goes on has appended as many of its bytes as it has counted. -/
theorem blocking_calls (h : Run s hist steps) :
    ((Promise s hist ∧ ∀ x ∈ steps, Promise x.1 x.2.1) ↔ ∀ x ∈ steps, Meets x.1 x.2.2) ∧
      (∀ t request res, s.threads t = .running request res → ∃ s', Step s (.round t) s') ∧
      (∀ a s', Step s a s' → s'.pipe.contents = s.pipe.contents ++ appended s s' ∨
        s'.pipe.contents <:+ s.pipe.contents) ∧
      ∀ t user n res, s.threads t = .running (.write user n) res → res ≤ n ∧ hist t = user.bytes res := by
  refine ⟨⟨fun hpromise => ?_, fun hmeets => ⟨?_, fun x hx => ?_⟩⟩, fun t request res ht => ?_, fun a s' hstep => ?_,
    h.inv.writing⟩
  · obtain ⟨hlast, hway⟩ := hpromise
    induction h with
    | nil id buffer => simp
    | @step s s' hist steps a hrun hstep ih =>
      have hmeets := hstep.meets hrun.inv hlast
      have hbefore := ih (hway (s, hist, a) (by simp)) fun x hx => hway x (List.mem_append_left _ hx)
      intro x hx
      obtain hx | hx := List.mem_append.1 hx
      · exact hbefore x hx
      · obtain rfl := List.mem_singleton.1 hx
        exact hmeets
  · exact (h.kept hmeets).promise h.inv
  · obtain ⟨steps', hrun, hsub⟩ := h.prefix_run hx
    exact (hrun.kept fun y hy => hmeets y (hsub y hy)).promise hrun.inv
  · exact exists_round h.inv.inBounds ht
  · cases a with
    | start t request =>
      cases hstep
      exact .inr List.suffix_rfl
    | round t =>
      obtain ⟨-, -, -, -, -, -, -, hsuffix, -, -⟩ | ⟨user, n, res, res', ret, -, hspec, -⟩ :=
        hstep.roundSpec h.inv.inBounds
      · exact .inr hsuffix
      · generalize hout : (ret, res', s'.pipe) = out at hspec
        cases hspec with
        | wrote k hk hacc hin hcontents =>
          obtain ⟨-, -, rfl⟩ : ret = _ ∧ res' = res + k ∧ s'.pipe = _ := by simpa using hout
          left
          rw [appended_of_append hcontents, hcontents]
        | failed hacc hin hcontents =>
          obtain ⟨-, -, rfl⟩ : ret = _ ∧ res' = res ∧ s'.pipe = _ := by simpa using hout
          exact .inr (hcontents ▸ List.suffix_rfl)

/-- Accessible memory. -/
def sevens : UserBuffer := ⟨fun _ => true, fun _ => 7⟩

/-- A run in which one byte is written. -/
theorem exists_run_byte : ∃ s hist steps, Run s hist steps ∧ s.pipe.contents = [7] ∧ hist 0 = [7] ∧
    s.threads 1 = .idle ∧ ∀ x ∈ steps, Meets x.1 x.2.2 := by
  obtain ⟨p, hround, hcontents⟩ : ∃ p, (Pipe.mk 0 false 0 0 fun _ => 0).writeRound sevens 1 0 =
    .ok (some (.count 1), 1, p) ∧ p.contents = [7] := ⟨_, rfl, rfl⟩
  have hstart := (Run.nil 0 fun _ => 0).step (@Step.start _ 0 (.write sevens 1) rfl)
  have hrun := hstart.step (.writeReturns (Function.update_self 0 _ _) hround)
  refine ⟨_, _, _, hrun, hcontents, ?_, rfl, fun x hx => ?_⟩
  · show [] ++ appended _ _ = [7]
    rw [List.nil_append, appended, hcontents]
    rfl
  · obtain rfl | rfl : x = _ ∨ x = _ := by simpa using hx
    · trivial
    · intro user n res ht
      simp only [Function.update_self, Thread.running.injEq] at ht
      exact .inl ht.2.symm

/-- One byte is written. -/
theorem blocking_calls_write : ∃ s hist steps, Run s hist steps ∧ Promise s hist ∧ hist 0 = [7] := by
  obtain ⟨s, hist, steps, hrun, -, hhist, -, hmeets⟩ := exists_run_byte
  exact ⟨s, hist, steps, hrun, ((blocking_calls hrun).1.2 hmeets).1, hhist⟩

/-- A byte is in the pipe, and a reader that wants none goes on for ever. -/
theorem empty_read_hangs : ∃ s hist steps, Run s hist steps ∧ s.pipe.contents = [7] ∧
    s.threads 1 = .running (.read sevens 0) 0 ∧ ¬ ReturnsNext s 1 ∧ ¬ Promise s hist := by
  obtain ⟨s, hist, steps, hrun, hcontents, -, hidle, -⟩ := exists_run_byte
  have hread := hrun.step (@Step.start s 1 (.read sevens 0) hidle)
  have ht : State.threads ⟨s.pipe, Function.update s.threads 1 (.running (.read sevens 0) 0)⟩ 1 =
    .running (.read sevens 0) 0 := by simp
  have hhangs := fun hnext => (hread.inv.returnsNext_iff ht (.inr rfl)).1 hnext rfl
  exact ⟨_, _, _, hread, hcontents, ht, hhangs, fun hpromise => hhangs (hpromise.reads 1 _ 0 0 ht (.inr rfl))⟩

end Blocking

end ChenixOS.PipeFS
