import ChenixOS.Devices.DeviceDriver
import ChenixOS.Lib.Transitions
import Mathlib.Logic.Function.Basic

/-!
# Threads sharing the block cache

Any number of threads run `GetData` and `SetData` on one driver. A step is a section that the source
protects by `m_CacheLock`, a step on the lock of a block, the start of a device read, or its end,
which may come at any later time.

`GetData` inserts a block before it is read and copies what it finds under `m_CacheLock` alone;
`SetData` waits for the block's own lock, which the thread that reads the block may not hold yet.
-/

namespace ChenixOS.BlockDevice.Concurrent

open Transitions

/-- How far the read of a block has come. -/
inductive Fill
  | unscheduled
  | scheduled
  | done (success : Bool)
  deriving DecidableEq

/-- `CachedBlock`. The last two fields are not in the source: whether a `SetData` has written to the
block, and whether the device read ended after that. -/
structure Entry where
  subID : Nat
  blockID : Nat
  data : Bytes
  fill : Fill
  dataLock : Option Nat
  written : Bool
  overwritten : Bool

/-- The variables of the loops: `n` more blocks, and how far `realBuffer` has advanced. -/
structure Loop where
  op : Op
  subID : Nat
  room : Nat
  n : Nat
  blockID : Nat
  pos : Nat
  bufferSize : Nat
  offs : Nat
  deriving DecidableEq

/-- Where a thread is. `GetData` and `SetData` go through `top`, and on a miss through `missed` and
`waiting`, to `copy`. -/
inductive Pc
  | idle
  /-- Before `m_CacheLock.Spinlock()`. -/
  | top (l : Loop)
  /-- The block was inserted; `GetData` starts the read, `SetData` takes the block's lock first. -/
  | missed (l : Loop) (cb : Nat)
  /-- `SetData` found the block and takes its lock. -/
  | found (l : Loop) (cb : Nat)
  /-- `SetData` has the lock and starts the read. -/
  | locked (l : Loop) (cb : Nat)
  /-- `while(finished.Read() == 0)` -/
  | waiting (l : Loop) (cb : Nat)
  | copy (l : Loop) (cb : Nat)
  /-- Before `dataLock.Unlock()`. -/
  | unlock (l : Loop) (cb : Nat) (copied : Bool)
  | returned (op : Op) (code : Int)
  deriving DecidableEq

/-- A thread: where it is, the user's buffer, and (not in the source) whether the running `GetData`
has copied from a block whose read had not ended. -/
structure Thread where
  pc : Pc
  buffer : Bytes
  early : Bool

structure State where
  cache : List Entry
  threads : Nat → Thread

def Entry.isDone (e : Entry) : Bool :=
  match e.fill with
  | .done _ => true
  | _ => false

def State.goto (s : State) (t : Nat) (pc : Pc) : State :=
  { s with threads := Function.update s.threads t { s.threads t with pc := pc } }

def State.modify (s : State) (cb : Nat) (f : Entry → Entry) : State :=
  { s with cache := s.cache.modify cb f }

/-- The start of a call, with the block counts of `getData` and `setData`. -/
def start (D : Driver) (op : Op) (subID pos bufferSize room : Nat) : Loop :=
  let startBlock := pos / D.blockSize subID
  let endBlock := match op with
    | .get => sub64 ((pos + bufferSize) % 2 ^ 64) 1 / D.blockSize subID
    | .set => (pos + bufferSize) % 2 ^ 64 / D.blockSize subID
  ⟨op, subID, room, (sub64 endBlock startBlock + 1) % 2 ^ 64, startBlock, pos, bufferSize, 0⟩

def Loop.blockOffset (D : Driver) (l : Loop) : Nat := sub64 l.pos (l.blockID * D.blockSize l.subID)

def Loop.copySize (D : Driver) (l : Loop) : Nat :=
  min (sub64 (D.blockSize l.subID) (l.blockOffset D)) l.bufferSize

/-- The next round. -/
def Loop.next (D : Driver) (l : Loop) : Loop :=
  { l with
    n := l.n - 1
    blockID := (l.blockID + 1) % 2 ^ 64
    pos := l.pos + l.copySize D
    bufferSize := l.bufferSize - l.copySize D
    offs := l.offs + l.copySize D }

/-- The copy of `GetData`, under `m_CacheLock`. -/
def State.copyOut (D : Driver) (t : Nat) (l : Loop) (e : Entry) (s : State) : State :=
  let thread := s.threads t
  let (copied, buffer) := kmemcpyUsersafe (l.room - l.offs) thread.buffer l.offs e.data
    (l.blockOffset D) (l.copySize D)
  let pc : Pc :=
    if copied then
      if l.bufferSize - l.copySize D = 0 then .returned .get OK else .top (l.next D)
    else .returned .get ErrorInvalidBuffer
  { s with threads := Function.update s.threads t ⟨pc, buffer, thread.early || !e.isDone⟩ }

/-- The copy of `SetData`, under the block's lock. -/
def State.copyIn (D : Driver) (t : Nat) (l : Loop) (cb : Nat) (e : Entry) (s : State) : State :=
  let (copied, data) := kmemcpyUsersafe (l.room - l.offs) e.data (l.blockOffset D)
    (s.threads t).buffer l.offs (l.copySize D)
  (s.modify cb fun e => { e with data := data, written := true }).goto t (.unlock l cb copied)

/-- `dataLock.Lock()`, when it does not block. -/
def State.lock (t cb : Nat) (e : Entry) (s : State) : Option State :=
  if e.dataLock = none then some (s.modify cb fun e => { e with dataLock := some t }) else none

/-- The block of a thread. -/
def Pc.block : Pc → Option Nat
  | .missed _ cb | .found _ cb | .locked _ cb | .waiting _ cb | .copy _ cb | .unlock _ cb _ => some cb
  | _ => none

/-- The start of a round: the lookup, and for `GetData` on a hit the copy. -/
def State.lookup (D : Driver) (t : Nat) (l : Loop) (s : State) : Option State :=
  if l.n = 0 then some (s.goto t (.returned l.op OK))
  else
    match s.cache.findIdx? fun e => e.subID = l.subID ∧ e.blockID = l.blockID with
    | some cb =>
      match l.op, s.cache[cb]? with
      | .get, some e => some (s.copyOut D t l e)
      | .set, _ => some (s.goto t (.found l cb))
      | _, none => none
    | none =>
      let e : Entry := ⟨l.subID, l.blockID, D.garbage s.cache.length, .unscheduled, none, false, false⟩
      some ({ s with cache := s.cache ++ [e] }.goto t (.missed l s.cache.length))

/-- A step of a thread that works on a block. -/
def State.onBlock (D : Driver) (t : Nat) (e : Entry) (s : State) : Pc → Option State
  | .missed l cb =>
    match l.op with
    | .get => some ((s.modify cb fun e => { e with fill := .scheduled }).goto t (.waiting l cb))
    | .set => (s.lock t cb e).map (State.goto · t (.locked l cb))
  | .found l cb => (s.lock t cb e).map (State.goto · t (.copy l cb))
  | .locked l cb =>
    some ((s.modify cb fun e => { e with fill := .scheduled }).goto t (.waiting l cb))
  | .waiting l cb =>
    match e.fill, l.op with
    | .done false, .get => some (s.goto t (.returned .get (-1)))
    | .done _, _ => some (s.goto t (.copy l cb))
    | _, _ => none
  | .copy l cb =>
    match l.op with
    | .get => some (s.copyOut D t l e)
    | .set => some (s.copyIn D t l cb e)
  | .unlock l cb copied =>
    some ((s.modify cb fun e => { e with dataLock := none }).goto t
      (if copied then .top (l.next D) else .returned .set ErrorInvalidBuffer))
  | _ => none

/-- What a thread does next. -/
def act (D : Driver) (s : State) (t : Nat) : Option State :=
  match (s.threads t).pc with
  | .top l => s.lookup D t l
  | pc => pc.block.bind fun cb => s.cache[cb]?.bind fun e => s.onBlock D t e pc

/-- The end of a device read. -/
def complete (cb : Nat) (success : Bool) (data : Bytes) (s : State) : Option State :=
  s.cache[cb]?.bind fun e =>
    if e.fill = .scheduled then
      some (s.modify cb fun e => { e with
        data := data
        fill := .done success
        overwritten := e.overwritten || e.written })
    else none

inductive Event
  /-- A thread that is in no call starts one. -/
  | call (t : Nat) (op : Op) (subID pos bufferSize room : Nat) (buffer : Bytes)
  | act (t : Nat)
  | complete (cb : Nat) (success : Bool) (data : Bytes)

def step (D : Driver) (s : State) : Event → Option State
  | .call t op subID pos bufferSize room buffer =>
    let thread : Thread := ⟨.top (start D op subID pos bufferSize room), buffer, false⟩
    match (s.threads t).pc with
    | .idle | .returned _ _ => some { s with threads := Function.update s.threads t thread }
    | _ => none
  | .act t => act D s t
  | .complete cb success data => complete cb success data s

/-- No block is cached and no call is running. -/
def initial : State := ⟨[], fun _ => ⟨.idle, fun _ => 0, false⟩⟩

/-! ## What the threads know about their blocks -/

/-- The read of the block is under way, by a `SetData` that holds the block's lock. -/
def Filling (s : State) (e : Entry) (cb : Nat) : Prop :=
  ∃ t l, e.dataLock = some t ∧ ((s.threads t).pc = .locked l cb ∨ (s.threads t).pc = .waiting l cb)

/-- What a thread knows about its block. -/
def Place (s : State) (t : Nat) (e : Entry) : Pc → Prop
  | .missed _ _ => e.fill = .unscheduled
  | .found _ cb => e.isDone = true ∨ Filling s e cb
  | .locked _ _ => e.fill = .unscheduled ∧ e.dataLock = some t
  | .waiting l _ => e.fill ≠ .unscheduled ∧ (l.op = .set → e.dataLock = some t)
  | .copy l _ => e.isDone = true ∧ (l.op = .set → e.dataLock = some t)
  | .unlock _ _ _ => e.isDone = true ∧ e.dataLock = some t
  | _ => True

/-- The thread will start the read of a block. -/
def Starts (pc : Pc) (cb : Nat) : Prop := ∃ l, pc = .missed l cb ∨ pc = .locked l cb

structure Inv (s : State) : Prop where
  place : ∀ (t cb : Nat), (s.threads t).pc.block = some cb →
    ∃ e, s.cache[cb]? = some e ∧ Place s t e (s.threads t).pc
  alone : ∀ t t' cb, Starts (s.threads t).pc cb → Starts (s.threads t').pc cb → t = t'
  clean : ∀ (cb : Nat) (e : Entry), s.cache[cb]? = some e →
    (e.isDone = false → e.written = false) ∧ e.overwritten = false
  early : ∀ t, (s.threads t).early = false

theorem inv_initial : Inv initial := by
  constructor
  · intro t cb h
    cases h
  · rintro t t' cb ⟨l, h | h⟩ <;> cases h
  · intro cb e h
    simp [initial] at h
  · exact fun _ => rfl

theorem Starts.block {pc : Pc} {cb : Nat} (h : Starts pc cb) : pc.block = some cb := by
  obtain ⟨l, rfl | rfl⟩ := h <;> rfl

section Moves

variable {D : Driver} {s s' : State} {t cb : Nat} {e : Entry} {f : Entry → Entry} {th : Thread}

/-- What a thread knows is not affected by what other threads do to other blocks. -/
theorem Place.other {t' cb' : Nat} {e' : Entry}
    (hthreads : s'.threads = Function.update s.threads t th)
    (hne : (s.threads t).pc.block ≠ some cb') {pc : Pc} (hpc : pc.block = some cb')
    (h : Place s t' e' pc) : Place s' t' e' pc := by
  cases pc with
  | found l c =>
    obtain rfl : c = cb' := Option.some.inj hpc
    refine h.imp_right ?_
    rintro ⟨u, l', hlock, hu⟩
    have hut : u ≠ t := by
      rintro rfl
      rcases hu with hu | hu <;> exact hne (by rw [hu]; rfl)
    refine ⟨u, l', hlock, ?_⟩
    rwa [hthreads, Function.update_of_ne hut]
  | _ => exact h

/-- A thread moves on, and changes nothing but its block. -/
theorem Inv.move (h : Inv s) (hcb : (s.threads t).pc.block = some cb) (he : s.cache[cb]? = some e)
    (hcache : s'.cache = s.cache.modify cb f)
    (hthreads : s'.threads = Function.update s.threads t th) (hearly : th.early = false)
    (hclean : ((f e).isDone = false → (f e).written = false) ∧ (f e).overwritten = false)
    (hself : ∀ cb', th.pc.block = some cb' → cb' = cb ∧ Place s' t (f e) th.pc)
    (hstarts : ∀ cb', Starts th.pc cb' → Starts (s.threads t).pc cb')
    (hothers : ∀ t', t' ≠ t → (s.threads t').pc.block = some cb →
      Place s t' e (s.threads t').pc → Place s' t' (f e) (s.threads t').pc) : Inv s' := by
  have he' : s'.cache[cb]? = some (f e) := by rw [hcache, List.getElem?_modify_eq, he]; rfl
  have hne : ∀ c, c ≠ cb → s'.cache[c]? = s.cache[c]? := by
    intro c hc
    rw [hcache, List.getElem?_modify_ne _ _ (Ne.symm hc)]
  have hto : (s'.threads t) = th := by rw [hthreads, Function.update_self]
  have hot : ∀ t', t' ≠ t → s'.threads t' = s.threads t' := by
    intro t' ht
    rw [hthreads, Function.update_of_ne ht]
  constructor
  · intro t' cb' hb
    by_cases ht : t' = t
    · subst ht
      rw [hto] at hb ⊢
      obtain ⟨rfl, hp⟩ := hself cb' hb
      exact ⟨f e, he', hp⟩
    · rw [hot t' ht] at hb ⊢
      obtain ⟨e₀, he₀, hp⟩ := h.place t' cb' hb
      by_cases hc : cb' = cb
      · subst hc
        obtain rfl : e = e₀ := by simpa [he] using he₀
        exact ⟨f e, he', hothers t' ht hb hp⟩
      · refine ⟨e₀, by rw [hne cb' hc, he₀], hp.other hthreads ?_ hb⟩
        rw [hcb]
        exact fun e => hc (Option.some.inj e).symm
  · have hold : ∀ u c, Starts (s'.threads u).pc c → Starts (s.threads u).pc c := by
      intro u c hu
      by_cases hut : u = t
      · subst hut
        rw [hto] at hu
        exact hstarts c hu
      · rwa [hot u hut] at hu
    exact fun t₁ t₂ c h₁ h₂ => h.alone t₁ t₂ c (hold t₁ c h₁) (hold t₂ c h₂)
  · intro c e₀ he₀
    by_cases hc : c = cb
    · subst hc
      obtain rfl : f e = e₀ := by simpa [he'] using he₀
      exact hclean
    · rw [hne c hc] at he₀
      exact h.clean c e₀ he₀
  · intro u
    by_cases hut : u = t
    · subst hut
      rw [hto]
      exact hearly
    · rw [hot u hut]
      exact h.early u

theorem isDone_congr {e e' : Entry} (h : e'.fill = e.fill) : e'.isDone = e.isDone := by
  rw [Entry.isDone, Entry.isDone, h]

theorem fill_ne_of_isDone (h : e.isDone = true) : e.fill ≠ .unscheduled ∧ e.fill ≠ .scheduled := by
  constructor <;> intro hf <;> simp [Entry.isDone, hf] at h

/-- What a thread knows about a block that has been read only depends on the block's lock. -/
theorem Place.of_done {t' : Nat} {e' : Entry} (hdone : e.isDone = true) (hfill : e'.fill = e.fill)
    (hlock : ∀ u, u = t' → e.dataLock = some u → e'.dataLock = some u) {pc : Pc}
    (h : Place s t' e pc) : Place s' t' e' pc := by
  have hdone' : e'.isDone = true := (isDone_congr hfill).trans hdone
  have hne := fill_ne_of_isDone hdone
  cases pc with
  | missed => exact absurd h hne.1
  | found => exact .inl hdone'
  | locked => exact absurd h.1 hne.1
  | waiting => exact ⟨(fill_ne_of_isDone hdone').1, fun hs => hlock _ rfl (h.2 hs)⟩
  | copy => exact ⟨hdone', fun hs => hlock _ rfl (h.2 hs)⟩
  | unlock => exact ⟨hdone', hlock _ rfl h.2⟩
  | _ => trivial

/-- A thread takes the lock of its block. -/
theorem Place.of_lock {t' : Nat} (hfree : e.dataLock = none) {pc : Pc}
    (h : Place s t' e pc) : Place s' t' { e with dataLock := some t } pc := by
  cases pc with
  | found =>
    refine .inl (h.resolve_right ?_)
    rintro ⟨u, l, hlock, -⟩
    rw [hfree] at hlock
    cases hlock
  | locked => exact absurd h.2 (by simp [hfree])
  | waiting => exact ⟨h.1, fun hs => absurd (h.2 hs) (by simp [hfree])⟩
  | copy => exact ⟨h.1, fun hs => absurd (h.2 hs) (by simp [hfree])⟩
  | unlock => exact absurd h.2 (by simp [hfree])
  | _ => exact h

/-- A thread starts the read of its block. -/
theorem Inv.schedule (h : Inv s) {l : Loop} (hcb : (s.threads t).pc.block = some cb)
    (he : s.cache[cb]? = some e) (hstarts : Starts (s.threads t).pc cb)
    (hfill : e.fill = .unscheduled) (hlock : l.op = .set → e.dataLock = some t) :
    Inv ((s.modify cb fun e => { e with fill := .scheduled }).goto t (.waiting l cb)) := by
  have hnot : e.isDone = false := by simp [Entry.isDone, hfill]
  refine h.move hcb he rfl rfl (h.early t) ⟨fun _ => (h.clean cb e he).1 hnot, (h.clean cb e he).2⟩
    ?_ ?_ ?_
  · intro cb' hb
    exact ⟨(Option.some.inj hb).symm, by simp, hlock⟩
  · rintro cb' ⟨l', h | h⟩ <;> cases h
  · intro t' ht hb hp
    have hsame : ¬ Starts (s.threads t').pc cb := fun hs => ht (h.alone t' t cb hs hstarts)
    cases hpc : (s.threads t').pc with
    | missed l' c =>
      rw [hpc] at hb hsame
      obtain rfl : c = cb := Option.some.inj hb
      exact absurd ⟨l', .inl rfl⟩ hsame
    | locked l' c =>
      rw [hpc] at hb hsame
      obtain rfl : c = cb := Option.some.inj hb
      exact absurd ⟨l', .inr rfl⟩ hsame
    | found l' c =>
      rw [hpc] at hb hp
      obtain rfl : c = cb := Option.some.inj hb
      rcases hp with hp | ⟨u, l₂, hu, hpu⟩
      · simp [hnot] at hp
      · -- The thread that reads the block is the one that moves.
        obtain rfl : u = t := by
          rcases hpu with hpu | hpu
          · exact h.alone u t c ⟨l₂, .inr hpu⟩ hstarts
          · obtain ⟨e₂, he₂, hp₂⟩ := h.place u c (by rw [hpu]; rfl)
            obtain rfl : e = e₂ := by simpa [he] using he₂
            rw [hpu] at hp₂
            exact absurd hfill hp₂.1
        exact .inr ⟨u, l, hu, .inr (by simp [State.goto])⟩
    | waiting => rw [hpc] at hp; exact absurd hfill hp.1
    | copy => rw [hpc] at hp; exact absurd hp.1 (by simp [hnot])
    | unlock => rw [hpc] at hp; exact absurd hp.1 (by simp [hnot])
    | _ => trivial

/-- A thread whose block has been read moves on. -/
theorem Inv.move_done (h : Inv s) (hcb : (s.threads t).pc.block = some cb)
    (he : s.cache[cb]? = some e) (hdone : e.isDone = true)
    (hcache : s'.cache = s.cache.modify cb f)
    (hthreads : s'.threads = Function.update s.threads t th) (hearly : th.early = false)
    (hfill : (f e).fill = e.fill) (hover : (f e).overwritten = e.overwritten)
    (hlock : ∀ u, u ≠ t → e.dataLock = some u → (f e).dataLock = some u)
    (hself : ∀ cb', th.pc.block = some cb' → cb' = cb ∧ Place s' t (f e) th.pc)
    (hstarts : ∀ cb', ¬ Starts th.pc cb') : Inv s' := by
  have hdone' : (f e).isDone = true := (isDone_congr hfill).trans hdone
  refine h.move hcb he hcache hthreads hearly ⟨?_, ?_⟩ hself ?_ ?_
  · rw [hdone']
    exact nofun
  · rw [hover]
    exact (h.clean cb e he).2
  · exact fun cb' hs => absurd hs (hstarts cb')
  · intro t' ht _ hp
    refine hp.of_done hdone hfill ?_
    rintro u rfl hu
    exact hlock u ht hu

/-- Where the copy of `GetData` leaves the thread. -/
theorem copyOut_threads (D : Driver) (t : Nat) (l : Loop) (e : Entry) (s : State) :
    ∃ th, (s.copyOut D t l e).threads = Function.update s.threads t th ∧ th.pc.block = none ∧
      th.early = ((s.threads t).early || !e.isDone) := by
  refine ⟨_, rfl, ?_, rfl⟩
  dsimp only
  split
  · split <;> rfl
  · rfl

theorem copyIn_eq (D : Driver) (t : Nat) (l : Loop) (cb : Nat) (e : Entry) (s : State) :
    ∃ data copied, s.copyIn D t l cb e =
      (s.modify cb fun e => { e with data := data, written := true }).goto t (.unlock l cb copied) := by
  unfold State.copyIn
  generalize kmemcpyUsersafe (l.room - l.offs) e.data (l.blockOffset D) (s.threads t).buffer l.offs
    (l.copySize D) = r
  obtain ⟨copied, data⟩ := r
  exact ⟨data, copied, rfl⟩

theorem not_starts_of_block {pc : Pc} (h : pc.block = none) (c : Nat) : ¬ Starts pc c := by
  intro hs
  rw [hs.block] at h
  cases h

theorem Inv.onBlock (h : Inv s) (hcb : (s.threads t).pc.block = some cb)
    (he : s.cache[cb]? = some e) (hstep : s.onBlock D t e (s.threads t).pc = some s') : Inv s' := by
  obtain ⟨e', he', hp⟩ := h.place t cb hcb
  obtain rfl : e = e' := by simpa [he] using he'
  have hclean := h.clean cb e he
  cases hpc : (s.threads t).pc with
  | missed l c =>
    rw [hpc] at hcb hp hstep
    obtain rfl : c = cb := Option.some.inj hcb
    have hcb : (s.threads t).pc.block = some c := by rw [hpc]; rfl
    have hstarts : Starts (s.threads t).pc c := ⟨l, .inl hpc⟩
    cases hop : l.op with
    | get =>
      simp only [State.onBlock, hop, Option.some.injEq] at hstep
      subst hstep
      exact h.schedule hcb he hstarts hp (by simp [hop])
    | set =>
      simp only [State.onBlock, hop, State.lock] at hstep
      split at hstep
      · rename_i hfree
        simp only [Option.map_some, Option.some.injEq] at hstep
        subst hstep
        refine h.move hcb he rfl rfl (h.early t) hclean ?_ ?_ ?_
        · intro cb' hb
          exact ⟨(Option.some.inj hb).symm, hp, rfl⟩
        · rintro cb' ⟨l', h' | h'⟩
          · cases h'
          · obtain ⟨-, rfl⟩ := Pc.locked.inj h'
            exact hstarts
        · exact fun t' _ _ hp' => hp'.of_lock hfree
      · cases hstep
  | found l c =>
    rw [hpc] at hcb hp hstep
    obtain rfl : c = cb := Option.some.inj hcb
    have hcb : (s.threads t).pc.block = some c := by rw [hpc]; rfl
    simp only [State.onBlock, State.lock] at hstep
    split at hstep
    · rename_i hfree
      simp only [Option.map_some, Option.some.injEq] at hstep
      subst hstep
      have hdone : e.isDone = true := by
        refine hp.resolve_right ?_
        rintro ⟨u, l', hlock, -⟩
        rw [hfree] at hlock
        cases hlock
      refine h.move hcb he rfl rfl (h.early t) hclean ?_ ?_ ?_
      · intro cb' hb
        exact ⟨(Option.some.inj hb).symm, hdone, fun _ => rfl⟩
      · rintro cb' ⟨l', h' | h'⟩ <;> cases h'
      · exact fun t' _ _ hp' => hp'.of_lock hfree
    · cases hstep
  | locked l c =>
    rw [hpc] at hcb hp hstep
    obtain rfl : c = cb := Option.some.inj hcb
    have hcb : (s.threads t).pc.block = some c := by rw [hpc]; rfl
    simp only [State.onBlock, Option.some.injEq] at hstep
    subst hstep
    exact h.schedule hcb he ⟨l, .inr hpc⟩ hp.1 fun _ => hp.2
  | waiting l c =>
    rw [hpc] at hcb hp hstep
    obtain rfl : c = cb := Option.some.inj hcb
    have hcb : (s.threads t).pc.block = some c := by rw [hpc]; rfl
    have hcase : e.isDone = true ∧
        (s' = s.goto t (.returned .get (-1)) ∨ s' = s.goto t (.copy l c)) := by
      simp only [State.onBlock] at hstep
      split at hstep
      · rename_i hf _
        exact ⟨by simp [Entry.isDone, hf], .inl (Option.some.inj hstep).symm⟩
      · rename_i hf _
        exact ⟨by simp [Entry.isDone, hf], .inr (Option.some.inj hstep).symm⟩
      · cases hstep
    have hid : s.cache = s.cache.modify c id := by simp
    obtain ⟨hdone, rfl | rfl⟩ := hcase
    · exact h.move_done hcb he hdone hid rfl (h.early t) rfl rfl (fun _ _ hu => hu) nofun
        (not_starts_of_block rfl)
    · refine h.move_done hcb he hdone hid rfl (h.early t) rfl rfl (fun _ _ hu => hu) ?_ ?_
      · intro cb' hb
        exact ⟨(Option.some.inj hb).symm, hdone, hp.2⟩
      · rintro cb' ⟨l', h' | h'⟩ <;> cases h'
  | copy l c =>
    rw [hpc] at hcb hp hstep
    obtain rfl : c = cb := Option.some.inj hcb
    have hcb : (s.threads t).pc.block = some c := by rw [hpc]; rfl
    cases hop : l.op with
    | get =>
      simp only [State.onBlock, hop, Option.some.injEq] at hstep
      subst hstep
      obtain ⟨th, hth, hnone, hearly⟩ := copyOut_threads D t l e s
      have hid : s.cache = s.cache.modify c id := by simp
      refine h.move_done hcb he hp.1 hid hth ?_ rfl rfl (fun _ _ hu => hu) ?_
        (not_starts_of_block hnone)
      · rw [hearly, h.early t, hp.1]
        rfl
      · rw [hnone]
        exact nofun
    | set =>
      obtain ⟨data, copied, hin⟩ := copyIn_eq D t l c e s
      simp only [State.onBlock, hop, Option.some.injEq, hin] at hstep
      subst hstep
      refine h.move_done hcb he hp.1 rfl rfl (h.early t) rfl rfl (fun _ _ hu => hu) ?_ ?_
      · intro cb' hb
        exact ⟨(Option.some.inj hb).symm, hp.1, hp.2 hop⟩
      · rintro cb' ⟨l', h' | h'⟩ <;> cases h'
  | unlock l c copied =>
    rw [hpc] at hcb hp hstep
    obtain rfl : c = cb := Option.some.inj hcb
    have hcb : (s.threads t).pc.block = some c := by rw [hpc]; rfl
    simp only [State.onBlock, Option.some.injEq] at hstep
    subst hstep
    have hnone : (if copied then Pc.top (l.next D) else .returned .set ErrorInvalidBuffer).block =
        none := by
      split <;> rfl
    refine h.move_done hcb he hp.1 rfl rfl (h.early t) rfl rfl ?_ ?_ (not_starts_of_block hnone)
    · intro u hu hlock
      rw [hp.2] at hlock
      exact absurd (Option.some.inj hlock).symm hu
    · intro cb' hb
      rw [hnone] at hb
      cases hb
  | _ =>
    rw [hpc] at hcb
    cases hcb

/-- A thread that works on no block starts to work on one, or on none; a new block may be inserted. -/
theorem Inv.enter {new : List Entry} (h : Inv s) (hnone : (s.threads t).pc.block = none)
    (hcache : s'.cache = s.cache ++ new)
    (hthreads : s'.threads = Function.update s.threads t th) (hearly : th.early = false)
    (hnew : ∀ e ∈ new, e.written = false ∧ e.overwritten = false)
    (hself : ∀ cb, th.pc.block = some cb → ∃ e, s'.cache[cb]? = some e ∧ Place s' t e th.pc)
    (hfresh : ∀ cb, Starts th.pc cb → cb = s.cache.length) : Inv s' := by
  have hto : s'.threads t = th := by rw [hthreads, Function.update_self]
  have hot : ∀ t', t' ≠ t → s'.threads t' = s.threads t' := by
    intro t' ht
    rw [hthreads, Function.update_of_ne ht]
  have hlt : ∀ u c, (s.threads u).pc.block = some c → c < s.cache.length := by
    intro u c hb
    obtain ⟨e, he, -⟩ := h.place u c hb
    exact (List.getElem?_eq_some_iff.1 he).1
  constructor
  · intro t' cb hb
    by_cases ht : t' = t
    · subst ht
      rw [hto] at hb ⊢
      exact hself cb hb
    · rw [hot t' ht] at hb ⊢
      obtain ⟨e, he, hp⟩ := h.place t' cb hb
      refine ⟨e, ?_, hp.other hthreads ?_ hb⟩
      · rw [hcache, List.getElem?_append_left (hlt t' cb hb), he]
      · rw [hnone]
        exact nofun
  · have hold : ∀ u c, u ≠ t → Starts (s'.threads u).pc c → c < s.cache.length := by
      intro u c hu hs
      rw [hot u hu] at hs
      exact hlt u c hs.block
    intro t₁ t₂ c h₁ h₂
    by_cases ht₁ : t₁ = t
    · by_cases ht₂ : t₂ = t
      · rw [ht₁, ht₂]
      · have hc := hold t₂ c ht₂ h₂
        rw [ht₁, hto] at h₁
        exact absurd (hfresh c h₁) (by omega)
    · have hc := hold t₁ c ht₁ h₁
      by_cases ht₂ : t₂ = t
      · rw [ht₂, hto] at h₂
        exact absurd (hfresh c h₂) (by omega)
      · rw [hot t₁ ht₁] at h₁
        rw [hot t₂ ht₂] at h₂
        exact h.alone t₁ t₂ c h₁ h₂
  · intro c e he
    rw [hcache] at he
    rcases Nat.lt_or_ge c s.cache.length with hc | hc
    · rw [List.getElem?_append_left hc] at he
      exact h.clean c e he
    · rw [List.getElem?_append_right hc] at he
      have hmem := hnew e (List.mem_of_getElem? he)
      exact ⟨fun _ => hmem.1, hmem.2⟩
  · intro u
    by_cases hut : u = t
    · subst hut
      rw [hto]
      exact hearly
    · rw [hot u hut]
      exact h.early u

/-- The end of a device read. -/
theorem Inv.complete (h : Inv s) {success : Bool} {data : Bytes}
    (hstep : complete cb success data s = some s') : Inv s' := by
  obtain ⟨e, he, hstep⟩ := Option.bind_eq_some_iff.1 hstep
  split at hstep
  · rename_i hfill
    obtain rfl := Option.some.inj hstep
    have hnot : e.isDone = false := by simp [Entry.isDone, hfill]
    have hclean := h.clean cb e he
    constructor
    · intro t cb' hb
      obtain ⟨e₀, he₀, hp⟩ := h.place t cb' hb
      by_cases hc : cb' = cb
      · subst hc
        obtain rfl : e = e₀ := by simpa [he] using he₀
        refine ⟨_, by rw [State.modify, List.getElem?_modify_eq, he]; rfl, ?_⟩
        change Place s t e (s.threads t).pc at hp
        change Place _ t _ (s.threads t).pc
        cases hpc : (s.threads t).pc with
        | missed => rw [hpc] at hp; cases hfill.symm.trans hp
        | found => exact .inl rfl
        | locked => rw [hpc] at hp; cases hfill.symm.trans hp.1
        | waiting => rw [hpc] at hp; exact ⟨nofun, hp.2⟩
        | copy => rw [hpc] at hp; exact absurd hp.1 (by simp [hnot])
        | unlock => rw [hpc] at hp; exact absurd hp.1 (by simp [hnot])
        | _ => trivial
      · refine ⟨e₀, ?_, ?_⟩
        · rw [State.modify, List.getElem?_modify_ne _ _ (Ne.symm hc), he₀]
        · exact hp
    · exact h.alone
    · intro c e₀ he₀
      by_cases hc : c = cb
      · subst hc
        rw [State.modify, List.getElem?_modify_eq, he] at he₀
        obtain rfl := Option.some.inj he₀
        refine ⟨nofun, ?_⟩
        change (e.overwritten || e.written) = false
        rw [hclean.2, hclean.1 hnot]
        rfl
      · rw [State.modify, List.getElem?_modify_ne _ _ (Ne.symm hc)] at he₀
        exact h.clean c e₀ he₀
    · exact h.early
  · cases hstep

/-- No call finds a block that is still being read, unless it is a `SetData` and the `SetData` that
reads the block holds the block's lock. -/
def Settled (s : State) : Event → Prop
  | .act t => ∀ l cb e, (s.threads t).pc = .top l → l.n ≠ 0 →
      s.cache.findIdx? (fun e => e.subID = l.subID ∧ e.blockID = l.blockID) = some cb →
      s.cache[cb]? = some e → e.isDone = true ∨ (l.op = .set ∧ Filling s e cb)
  | _ => True

/-- The start of a round. -/
theorem Inv.lookup (h : Inv s) {l : Loop} (hpc : (s.threads t).pc = .top l)
    (hok : Settled s (.act t)) (hstep : s.lookup D t l = some s') : Inv s' := by
  have hnone : (s.threads t).pc.block = none := by rw [hpc]; rfl
  have happ : s.cache = s.cache ++ [] := by simp
  unfold State.lookup at hstep
  split at hstep
  · obtain rfl := Option.some.inj hstep
    exact h.enter hnone happ rfl (h.early t) (by simp) nofun
      fun cb hs => absurd hs (not_starts_of_block rfl cb)
  · rename_i hn
    split at hstep
    · rename_i cb hfind
      obtain ⟨hlt, -⟩ := List.findIdx?_eq_some_iff_getElem.1 hfind
      have he : s.cache[cb]? = some s.cache[cb] := List.getElem?_eq_getElem hlt
      have hdone := hok l cb _ hpc hn hfind he
      cases hop : l.op with
      | get =>
        simp only [hop, he, Option.some.injEq] at hstep
        subst hstep
        have hdone := hdone.resolve_right (by simp [hop])
        obtain ⟨th, hth, hblock, hearly⟩ := copyOut_threads D t l s.cache[cb] s
        refine h.enter hnone happ hth ?_ (by simp) (by simp [hblock])
          fun cb hs => absurd hs (not_starts_of_block hblock cb)
        rw [hearly, h.early t, hdone]
        rfl
      | set =>
        simp only [hop, Option.some.injEq] at hstep
        subst hstep
        refine h.enter hnone happ rfl (h.early t) (by simp) ?_ ?_
        · intro cb' hb
          obtain rfl : cb = cb' := Option.some.inj hb
          refine ⟨s.cache[cb], he, ?_⟩
          refine hdone.imp_right ?_
          rintro ⟨-, u, l', hlock, hu⟩
          have hut : u ≠ t := by
            rintro rfl
            rw [hpc] at hu
            rcases hu with hu | hu <;> cases hu
          refine ⟨u, l', hlock, ?_⟩
          simp only [State.goto, Function.update_of_ne hut]
          exact hu
        · rintro cb' ⟨l', h' | h'⟩ <;> cases h'
    · obtain rfl := Option.some.inj hstep
      refine h.enter hnone rfl rfl (h.early t) (by simp) ?_ ?_
      · intro cb' hb
        obtain rfl : s.cache.length = cb' := Option.some.inj hb
        exact ⟨_, List.getElem?_concat_length, rfl⟩
      · rintro cb' ⟨l', h' | h'⟩
        · exact (Pc.missed.inj h').2.symm
        · cases h'

/-- **Every step keeps the invariant**, where no call meets a block that is still being read. -/
theorem inv_step {ev : Event} (h : Inv s) (hok : Settled s ev) (hstep : step D s ev = some s') :
    Inv s' := by
  cases ev with
  | call t op subID pos bufferSize room buffer =>
    have happ : s.cache = s.cache ++ [] := by simp
    simp only [step] at hstep
    split at hstep
    · rename_i hpc
      obtain rfl := Option.some.inj hstep
      exact h.enter (by rw [hpc]; rfl) happ rfl rfl (by simp) nofun
        fun cb hs => absurd hs (not_starts_of_block rfl cb)
    · rename_i hpc
      obtain rfl := Option.some.inj hstep
      exact h.enter (by rw [hpc]; rfl) happ rfl rfl (by simp) nofun
        fun cb hs => absurd hs (not_starts_of_block rfl cb)
    · cases hstep
  | act t =>
    simp only [step, act] at hstep
    split at hstep
    · rename_i l hpc
      exact h.lookup hpc hok hstep
    · obtain ⟨cb, hcb, hstep⟩ := Option.bind_eq_some_iff.1 hstep
      obtain ⟨e, he, hstep⟩ := Option.bind_eq_some_iff.1 hstep
      exact h.onBlock hcb he hstep
  | complete cb success data => exact h.complete hstep

end Moves

/-- What a correct cache guarantees: a `GetData` that returns success has copied from blocks that had
been read, and no device read has come after a write to its block. -/
structure Sound (s : State) : Prop where
  copies : ∀ t, (s.threads t).pc = .returned .get OK → (s.threads t).early = false
  writes : ∀ e ∈ s.cache, e.overwritten = false

/-- **Concurrent access is sound** in every run in which no call finds a block that is still being
read, except a `SetData` that has to wait for the `SetData` that reads it. -/
theorem concurrent_sound (D : Driver) (s : State) (run : Runs (step D) Settled initial s) :
    Sound s := by
  have hinv : Inv s := run.inv inv_initial fun s ev s' h hok hstep => inv_step h hok hstep
  refine ⟨fun t _ => hinv.early t, fun e he => ?_⟩
  obtain ⟨cb, hcb⟩ := List.getElem?_of_mem he
  exact (hinv.clean cb e hcb).2

/-- Blocks of four bytes, and a recognisable byte in fresh memory. -/
def fourBytes : Driver := ⟨fun _ => 4, fun _ _ buffer => (true, buffer), fun _ _ => 255⟩

/-- A check for `Settled`: what a call finds has been read. -/
def settled (s : State) : Event → Bool
  | .act t =>
    match (s.threads t).pc with
    | .top l =>
      match s.cache.findIdx? fun e => e.subID = l.subID ∧ e.blockID = l.blockID with
      | some cb => (s.cache[cb]?.map Entry.isDone).getD true
      | none => true
    | _ => true
  | _ => true

theorem settled_of_check (s : State) (ev : Event) (h : settled s ev = true) : Settled s ev := by
  cases ev with
  | act t =>
    intro l cb e hpc _ hfind he
    simp only [settled, hpc, hfind, he, Option.map_some, Option.getD_some] at h
    exact .inl h
  | _ => trivial

/-- One thread reads a byte: the miss, the device read, the copy; another finds the block. -/
theorem concurrent_sound_get : ∃ s, Runs (step fourBytes) Settled initial s ∧
    (s.threads 1).pc = .returned .get OK ∧ (s.threads 1).buffer 0 = 7 ∧ Sound s := by
  have hrun : (exec (fun s e => if settled s e then step fourBytes s e else none)
      [.call 0 .get 0 0 1 1 fun _ => 0, .act 0, .act 0, .complete 0 true fun _ => 7, .act 0, .act 0,
        .call 1 .get 0 0 1 1 fun _ => 0, .act 1] initial).map
      (fun s => ((s.threads 1).pc, (s.threads 1).buffer 0)) = some (.returned .get OK, 7) := by
    decide
  obtain ⟨s, hs, hproj⟩ := Option.map_eq_some_iff.1 hrun
  obtain ⟨hpc, hbuffer⟩ := Prod.mk.inj hproj
  have hruns := runs_of_checks settled_of_check _ hs
  exact ⟨s, hruns, hpc, hbuffer, concurrent_sound fourBytes s hruns⟩

/-- The events of three threads: the first misses a block; the second finds it and reads its byte
before the device has; the third writes the byte; then the device read comes in. -/
def race : List Event :=
  [.call 0 .get 0 0 1 1 fun _ => 0, .act 0,
    .call 1 .get 0 0 1 1 fun _ => 0, .act 1,
    .call 2 .set 0 0 1 1 fun _ => 9, .act 2, .act 2, .act 2, .act 2, .act 2,
    .act 0, .complete 0 true fun _ => 7]

/-- The second thread returns success with a byte of fresh memory, and the byte of the third thread,
whose call has returned, is lost. -/
theorem race_unsound : ∃ s, exec (step fourBytes) race initial = some s ∧
    (s.threads 1).pc = .returned .get OK ∧ (s.threads 1).buffer 0 = 255 ∧
    (s.threads 2).pc = .returned .set OK ∧ s.cache.map (fun e => e.data 0) = [7] ∧
    Runs (step fourBytes) (fun _ _ => True) initial s ∧ ¬ Sound s := by
  have hrun : (exec (step fourBytes) race initial).map (fun s => ((s.threads 1).pc,
      (s.threads 1).buffer 0, (s.threads 1).early, (s.threads 2).pc,
      s.cache.map (fun e => e.data 0))) =
      some (.returned .get OK, 255, true, .returned .set OK, [7]) := by
    decide
  obtain ⟨s, hs, hproj⟩ := Option.map_eq_some_iff.1 hrun
  simp only [Prod.mk.injEq] at hproj
  obtain ⟨hpc₁, hbuffer, hearly, hpc₂, hdata⟩ := hproj
  refine ⟨s, hs, hpc₁, hbuffer, hpc₂, hdata, runs_of_exec race hs, fun hsound => ?_⟩
  rw [hsound.copies 1 hpc₁] at hearly
  cases hearly

end ChenixOS.BlockDevice.Concurrent
