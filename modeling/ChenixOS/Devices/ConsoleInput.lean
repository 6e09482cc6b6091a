import ChenixOS.Devices.Keyboard
import ChenixOS.Lib.Counted
import ChenixOS.Lib.Interaction
import ChenixOS.Lib.Transducer

/-!
# From the keyboard to the programs

The interrupt handler puts the keys into a queue of 128 keys. A kernel thread takes one key after the other
from it, through the device file of the keyboard, and puts characters into a buffer of 256 characters, from
which the programs read. Handler, thread and programs meet in any order; each of the two queues has a lock,
so an event here is what happens under one lock. A program may open `/dev/keyboard` too.

**Two bounded queues (`play_fifo`).** In every run, whatever the counters of the two buffers have reached, the
programs get what they would get from two lists that refuse what does not fit.

**Nothing lost, nothing twice, in order (`typed_of_play`).** As long as no key and no character is refused and
only the thread reads the keyboard, what the programs have read, what waits in the buffer and what the waiting
keys still stand for is the text of the scan codes, in every interleaving.
-/

namespace ChenixOS.Console

open Interaction Transducer

/-! ## The system -/

/-- The state of the driver of the keyboard and of the console. -/
structure System where
  g_E0Key : Bool
  g_Queue : Counted.Queue Key 128
  /-- The key that the thread has read and not looked at yet. -/
  key : Option Key
  con : Modifiers
  foregroundTid : Int64
  inBuffer : Counted.Queue UInt8 256

/-- After the initialisation, before the first interrupt. -/
def System.init : System :=
  { g_E0Key := false, g_Queue := .empty, key := none, con := .none, foregroundTid := 0, inBuffer := .empty }

inductive Event where
  /-- The keyboard interrupts with a scan code. -/
  | interrupt (scan : UInt8)
  /-- The thread reads the device file of the keyboard. -/
  | poll
  /-- The thread goes through the rest of its round. -/
  | handle
  /-- A program reads the device file of the keyboard. -/
  | readKeyboard (bufferSize : UInt64)
  /-- A program reads the device file of the console. -/
  | read (bufferSize : UInt64)
  /-- A program gives `COMMAND_SET_FOREGROUND`. -/
  | setForeground (tid : Int64)

inductive Output where
  /-- The keys a program has read. -/
  | keys (ks : List Key)
  /-- The characters a program has read. -/
  | bytes (bs : List UInt8)
  | killed (tid : Int64)
  | aborted (tid : Int64)

/-- `WriteKey` -/
def System.writeKey (s : System) (key : Key) : System := { s with g_Queue := s.g_Queue.put key }

/-- `WriteChar` -/
def System.writeChar (s : System) (c : UInt8) : System := { s with inBuffer := s.inBuffer.put c }

/-- `PS2Driver::Read`; the number of bytes read is twice that of the keys. -/
def System.readKeys (s : System) (bufferSize : UInt64) : List Key × System :=
  let r := s.g_Queue.get (bufferSize / 2)
  (r.1, { s with g_Queue := r.2 })

/-- `VConsoleDriver::Read` of the only console. -/
def System.readChars (s : System) (bufferSize : UInt64) : List UInt8 × System :=
  let r := s.inBuffer.get bufferSize
  (r.1, { s with inBuffer := r.2 })

/-- A signal for the foreground thread, if there is one. -/
def signal (foregroundTid : Int64) (out : Int64 → Output) : List Output :=
  if foregroundTid ≠ 0 then [out foregroundTid] else []

def System.perform (s : System) : Option Effect → System × List Output
  | none => (s, [])
  | some (.writeChar c) => (s.writeChar c, [])
  | some .kill => (s, signal s.foregroundTid .killed)
  | some .abort => (s, signal s.foregroundTid .aborted)

def System.step (s : System) : Event → Option (System × List Output)
  | .interrupt scan =>
    let r := keyHandler s.g_E0Key scan
    some ({ r.2.foldl System.writeKey s with g_E0Key := r.1 }, [])
  | .poll =>
    match s.key with
    | none =>
      -- the buffer has room for one key
      let r := s.readKeys 2
      some ({ r.2 with key := r.1.head? }, [])
    | some _ => none
  | .handle =>
    match s.key with
    | none => none
    | some key =>
      let r := handleKey s.con key
      some (System.perform { s with key := none, con := r.1 } r.2)
  | .readKeyboard bufferSize =>
    let r := s.readKeys bufferSize
    some (r.2, [.keys r.1])
  | .read bufferSize =>
    let r := s.readChars bufferSize
    some (r.2, [.bytes r.1])
  | .setForeground tid => some ({ s with foregroundTid := tid }, [])

/-! ## Two bounded queues -/

/-- The console as its programs see it: two lists instead of the two buffers. -/
structure Fifo where
  e0 : Bool
  keys : List Key
  key : Option Key
  con : Modifiers
  foregroundTid : Int64
  chars : List UInt8

namespace Fifo

/-- Append to a list that has room for `cap` elements. -/
def accept {α : Type} (cap : Nat) (l : List α) (a : α) : List α := if l.length < cap then l ++ [a] else l

def perform (s : Fifo) : Option Effect → Fifo × List Output
  | none => (s, [])
  | some (.writeChar c) => ({ s with chars := accept 256 s.chars c }, [])
  | some .kill => (s, signal s.foregroundTid .killed)
  | some .abort => (s, signal s.foregroundTid .aborted)

def step (s : Fifo) : Event → Option (Fifo × List Output)
  | .interrupt scan =>
    let r := keyHandler s.e0 scan
    some ({ s with e0 := r.1, keys := r.2.foldl (accept 128) s.keys }, [])
  | .poll =>
    match s.key with
    | none => some ({ s with keys := s.keys.drop 1, key := s.keys.head? }, [])
    | some _ => none
  | .handle =>
    match s.key with
    | none => none
    | some key =>
      let r := handleKey s.con key
      some (perform { s with key := none, con := r.1 } r.2)
  | .readKeyboard n =>
    some ({ s with keys := s.keys.drop (n / 2).toNat }, [.keys (s.keys.take (n / 2).toNat)])
  | .read n => some ({ s with chars := s.chars.drop n.toNat }, [.bytes (s.chars.take n.toNat)])
  | .setForeground tid => some ({ s with foregroundTid := tid }, [])

end Fifo

/-- What the buffers hold. -/
def System.fifo (s : System) : Fifo :=
  { e0 := s.g_E0Key, keys := s.g_Queue.content, key := s.key, con := s.con,
    foregroundTid := s.foregroundTid, chars := s.inBuffer.content }

theorem content_put_key (q : Counted.Queue Key 128) (key : Key) :
    (q.put key).content = Fifo.accept 128 q.content key :=
  Counted.content_put (by decide) q key

theorem content_put_char (q : Counted.Queue UInt8 256) (c : UInt8) :
    (q.put c).content = Fifo.accept 256 q.content c :=
  Counted.content_put (by decide) q c

theorem fifo_writeKeys (ks : List Key) (s : System) :
    (ks.foldl System.writeKey s).fifo =
      { s.fifo with keys := ks.foldl (Fifo.accept 128) s.g_Queue.content } := by
  induction ks generalizing s with
  | nil => rfl
  | cons k ks ih =>
    rw [List.foldl_cons, ih, List.foldl_cons, ← content_put_key]
    rfl

theorem fifo_perform (s : System) (effect : Option Effect) :
    Prod.map System.fifo id (s.perform effect) = s.fifo.perform effect := by
  cases effect with
  | none => rfl
  | some effect =>
    cases effect with
    | writeChar c =>
      show ((s.writeChar c).fifo, _) = _
      simp only [System.fifo, System.writeChar, content_put_char]
      rfl
    | kill => rfl
    | abort => rfl

/-- **One step**: the buffers do what the lists do. -/
theorem fifo_step (s : System) (e : Event) :
    (s.step e).map (Prod.map System.fifo id) = s.fifo.step e := by
  cases e with
  | interrupt scan =>
    have hkeys := fifo_writeKeys (keyHandler s.g_E0Key scan).2 s
    exact congrArg (fun f : Fifo => some ({ f with e0 := (keyHandler s.g_E0Key scan).1 }, ([] : List Output))) hkeys
  | poll =>
    cases hkey : s.key with
    | some key => simp [System.step, Fifo.step, System.fifo, hkey]
    | none =>
      simp only [System.step, Fifo.step, System.fifo, hkey, System.readKeys, Option.map_some, Prod.map, id]
      rw [Counted.content_get (by decide), Counted.get_fst (by decide)]
      show some _ = some _
      congr 3
      cases s.g_Queue.content <;> rfl
  | handle =>
    cases hkey : s.key with
    | none => simp [System.step, Fifo.step, System.fifo, hkey]
    | some key =>
      simp only [System.step, Fifo.step, System.fifo, hkey, Option.map_some]
      rw [fifo_perform]
      rfl
  | readKeyboard n =>
    simp only [System.step, Fifo.step, System.fifo, System.readKeys, Option.map_some, Prod.map, id]
    rw [Counted.content_get (by decide), Counted.get_fst (by decide)]
  | read n =>
    simp only [System.step, Fifo.step, System.fifo, System.readChars, Option.map_some, Prod.map, id]
    rw [Counted.content_get (by decide), Counted.get_fst (by decide)]
  | setForeground tid => rfl

/-- **Two bounded queues**: whatever the counters have reached, a run of the console gives the outputs of two
lists that refuse what does not fit. -/
theorem play_fifo (s : System) (es : List Event) :
    (play System.step s es).map (Prod.map System.fifo id) = play Fifo.step s.fifo es :=
  play_map fifo_step s es

/-! ## Nothing lost -/

/-- The thread, as a transducer. -/
def thread (con : Modifiers) (key : Key) : Modifiers × List Effect :=
  ((handleKey con key).1, (handleKey con key).2.toList)

/-- The scan codes of a run. -/
def scans (es : List Event) : List UInt8 :=
  es.filterMap fun e =>
    match e with
    | .interrupt scan => some scan
    | _ => none

/-- The characters that programs have read. -/
def received (outs : List Output) : List UInt8 :=
  outs.flatMap fun out =>
    match out with
    | .bytes bs => bs
    | _ => []

/-- **The text of the scan codes**, when both transducers begin with no key down. -/
def typed (codes : List UInt8) : List UInt8 :=
  textOf (outputs thread .none (outputs keyHandler false codes))

theorem received_append (outs outs' : List Output) :
    received (outs ++ outs') = received outs ++ received outs' :=
  List.flatMap_append

theorem received_signal (tid : Int64) {out : Int64 → Output} (h : ∀ tid, received [out tid] = []) :
    received (signal tid out) = [] := by
  unfold signal
  split_ifs
  · exact h tid
  · rfl

namespace Fifo

/-- What an event puts into a queue finds room there, and no program takes keys away. -/
def HasRoom (s : Fifo) : Event → Prop
  | .interrupt scan => s.keys.length + (keyHandler s.e0 scan).2.length ≤ 128
  | .handle => ∀ key c, s.key = some key → (handleKey s.con key).2 = some (.writeChar c) → s.chars.length < 256
  | .readKeyboard _ => False
  | .poll | .read _ | .setForeground _ => True

/-- The characters of the buffer, of the waiting keys and of the keys of `codes`. -/
def pending (s : Fifo) (codes : List UInt8) : List UInt8 :=
  s.chars ++ textOf (outputs thread s.con (s.key.toList ++ s.keys ++ outputs keyHandler s.e0 codes))

theorem accept_of_lt {α : Type} {cap : Nat} {l : List α} (h : l.length < cap) (a : α) :
    accept cap l a = l ++ [a] :=
  if_pos h

theorem foldl_accept {α : Type} {cap : Nat} (as l : List α) (h : l.length + as.length ≤ cap) :
    as.foldl (accept cap) l = l ++ as := by
  induction as generalizing l with
  | nil => exact (List.append_nil l).symm
  | cons a as ih =>
    rw [List.length_cons] at h
    rw [List.foldl_cons, accept_of_lt (by omega), ih _ (by simp; omega), List.append_assoc,
      List.singleton_append]

/-- What a key stands for goes to the buffer, or it is a signal. -/
theorem perform_conserves {s : Fifo} {effect : Option Effect}
    (hroom : ∀ c, effect = some (.writeChar c) → s.chars.length < 256) :
    received (s.perform effect).2 = [] ∧
      (s.perform effect).1 = { s with chars := s.chars ++ textOf effect.toList } := by
  cases effect with
  | none => exact ⟨rfl, by simp [perform, textOf]⟩
  | some effect =>
    cases effect with
    | writeChar c =>
      refine ⟨rfl, ?_⟩
      rw [perform, accept_of_lt (hroom c rfl)]
      rfl
    | kill => exact ⟨received_signal s.foregroundTid fun _ => rfl, by simp [perform, textOf]⟩
    | abort => exact ⟨received_signal s.foregroundTid fun _ => rfl, by simp [perform, textOf]⟩

/-- **One step**: what was pending is read or still pending. -/
theorem step_conserves {s s' : Fifo} {e : Event} {out : List Output} (h : s.step e = some (s', out))
    (hroom : s.HasRoom e) (more : List UInt8) :
    received out ++ s'.pending more = s.pending (scans [e] ++ more) := by
  cases e with
  | interrupt scan =>
    obtain ⟨rfl, rfl⟩ := Prod.mk.inj (Option.some.inj h)
    simp only [pending, foldl_accept _ _ hroom]
    simp [scans, received, outputs, List.append_assoc]
  | poll =>
    cases hkey : s.key with
    | some key => simp [step, hkey] at h
    | none =>
      simp only [step, hkey, Option.some.injEq, Prod.mk.injEq] at h
      obtain ⟨rfl, rfl⟩ := h
      cases hkeys : s.keys <;> simp [pending, hkey, hkeys, scans, received]
  | handle =>
    cases hkey : s.key with
    | none => simp [step, hkey] at h
    | some key =>
      simp only [step, hkey, Option.some.injEq] at h
      obtain ⟨hnone, hstate⟩ := @perform_conserves { s with key := none, con := (handleKey s.con key).1 }
        (handleKey s.con key).2 fun c hc => hroom key c hkey hc
      rw [h] at hnone hstate
      obtain rfl := hstate
      rw [hnone]
      simp [pending, hkey, scans, outputs, thread, List.append_assoc]
  | readKeyboard n => exact hroom.elim
  | read n =>
    obtain ⟨rfl, rfl⟩ := Prod.mk.inj (Option.some.inj h)
    simp only [pending, scans, received, List.flatMap_cons, List.flatMap_nil, List.append_nil,
      List.filterMap_cons, List.filterMap_nil, List.nil_append]
    rw [← List.append_assoc, List.take_append_drop]
  | setForeground tid =>
    obtain ⟨rfl, rfl⟩ := Prod.mk.inj (Option.some.inj h)
    rfl

theorem scans_cons (e : Event) (es : List Event) : scans (e :: es) = scans [e] ++ scans es := by
  cases e <;> rfl

/-- **A whole run.** -/
theorem play_conserves {s s' : Fifo} {es : List Event} {outs : List Output}
    (h : play step s es = some (s', outs)) (hroom : Allowed step HasRoom s es) :
    received outs ++ s'.pending [] = s.pending (scans es) := by
  induction es generalizing s outs with
  | nil =>
    obtain ⟨rfl, rfl⟩ := Prod.mk.inj (Option.some.inj h)
    rfl
  | cons e es ih =>
    obtain ⟨s₁, out, outs', hstep, hrest, rfl⟩ := exists_of_play_cons h
    rw [received_append, List.append_assoc, ih hrest (hroom.2 s₁ out hstep), step_conserves hstep hroom.1,
      scans_cons e es]

end Fifo

/-- Both queues have room for what an event puts there, and no program takes keys away. -/
def System.HasRoom (s : System) (e : Event) : Prop := s.fifo.HasRoom e

/-- **Nothing lost, nothing twice, in order**: in a run without refusals the characters that the programs have
read, those in the buffer and those that the waiting keys stand for are the text of the scan codes. -/
theorem typed_of_play {s : System} {es : List Event} {outs : List Output}
    (h : play System.step .init es = some (s, outs)) (hroom : Allowed System.step System.HasRoom .init es) :
    received outs ++ s.inBuffer.content ++ textOf (outputs thread s.con (s.key.toList ++ s.g_Queue.content)) =
      typed (scans es) := by
  have hall := Fifo.play_conserves (play_view fifo_step h) (hroom.map fifo_step fun _ _ => id)
  have hinit : System.init.fifo.pending (scans es) = typed (scans es) := by
    simp [Fifo.pending, System.fifo, System.init, typed]
  rw [← hinit, ← hall]
  simp [Fifo.pending, System.fifo, List.append_assoc]

/-- Left shift and A, the second key while the thread is at the first one. -/
theorem typed_shift_a : ∃ s outs,
    play System.step .init [.interrupt 0x2A, .poll, .interrupt 0x1E, .handle, .poll, .handle, .read 16] =
      some (s, outs) ∧ received outs = [65] ∧
    received outs ++ s.inBuffer.content ++ textOf (outputs thread s.con (s.key.toList ++ s.g_Queue.content)) =
      typed [0x2A, 0x1E] := by
  refine ⟨_, _, rfl, rfl, @typed_of_play _
    [.interrupt 0x2A, .poll, .interrupt 0x1E, .handle, .poll, .handle, .read 16] _ rfl ?_⟩
  refine .of_step rfl (show (0 + 1 : Nat) ≤ 128 by decide) ?_
  refine .of_step rfl trivial ?_
  refine .of_step rfl (show (0 + 1 : Nat) ≤ 128 by decide) ?_
  refine .of_step rfl (fun _ _ _ _ => show (0 : Nat) < 256 by decide) ?_
  refine .of_step rfl trivial ?_
  refine .of_step rfl (fun _ _ _ _ => show (0 : Nat) < 256 by decide) ?_
  exact .of_step rfl trivial trivial

end ChenixOS.Console
