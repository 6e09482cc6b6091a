import ChenixOS.Lib.Interaction
import ChenixOS.Libc.Stream
import Mathlib.Data.List.Basic

/-!
# What a stream carries

**Writing (`delivered_of_run`).** In every run of `fputc`, `fwrite` and `fflush` on a new stream, whatever part
of the buffer each call of `write` takes: no character is written behind the end of the buffer, and as long as the
error flag is clear, what the file has got, followed by what is in the buffer, is what the program has put. Where
a call of `write` fails, the flag is set and what was in the buffer is lost; `fputc` and `fwrite` return what they
return otherwise.

**Reading (`readLines_text`).** In whatever pieces the file is read, `fgetc` gives its characters one by one, and a
loop over `fgets` the lines of a text, up to the first that is empty.
-/

namespace ChenixOS.Stream

open Interaction

variable {s s' : File} {fuel p n : Nat} {c : UInt8} {lseek : Int → Int → Fd → Fd}

/-! ## Slices of the buffer -/

@[simp] theorem length_slice (s : File) (pos n : Nat) : (s.slice pos n).length = n := by
  simp [File.slice]

theorem slice_add (s : File) (pos m n : Nat) : s.slice pos (m + n) = s.slice pos m ++ s.slice (pos + m) n := by
  simp [File.slice, List.range_add, Function.comp_def, Nat.add_assoc]

theorem take_slice (s : File) (pos : Nat) {m n : Nat} (h : m ≤ n) : (s.slice pos n).take m = s.slice pos m := by
  obtain ⟨r, rfl⟩ := Nat.exists_eq_add_of_le h
  rw [slice_add, List.take_left' (length_slice s pos m)]

theorem slice_congr {pos : Nat} (h : ∀ i, i < n → s'.buf (pos + i) = s.buf (pos + i)) :
    s'.slice pos n = s.slice pos n :=
  List.map_congr_left fun i hi => h i (List.mem_range.1 hi)

/-! ## `fflush` -/

/-- No call answers that it has moved nothing. -/
def Fd.Progress (fd : Fd) : Prop := ∀ k, fd.answers k ≠ 0

/-- Some call since `calls` was an error. -/
def Fd.Failed (fd : Fd) (calls : Nat) : Prop := ∃ k, calls ≤ k ∧ k < fd.calls ∧ fd.answers k < 0

/-- The descriptor after some calls of `write` for the characters of `s` from `p` on, of which it got `k`. -/
structure Took (s : File) (p : Nat) (res : Bool) (fd : Fd) (k : Nat) : Prop where
  answers : fd.answers = s.fd.answers
  unread : fd.unread = s.fd.unread
  calls : s.fd.calls ≤ fd.calls
  written : fd.written = s.fd.written ++ s.slice p k
  le : k ≤ s.nw
  all : res = false → k = s.nw
  lost : res = true → k < s.nw
  failed : res = true ↔ fd.Failed s.fd.calls

theorem failed_of_answer {fd : Fd} {calls : Nat} (h : ¬fd.answers calls < 0) :
    fd.Failed (calls + 1) ↔ fd.Failed calls := by
  constructor
  · rintro ⟨k, hle, hlt, hneg⟩
    exact ⟨k, Nat.le_of_succ_le hle, hlt, hneg⟩
  · rintro ⟨k, hle, hlt, hneg⟩
    have hne : calls ≠ k := fun heq => h (heq ▸ hneg)
    exact ⟨k, Nat.lt_of_le_of_ne hle hne, hlt, hneg⟩

theorem took_zero (hnw : s.nw = 0) (p : Nat) : Took s p false s.fd 0 := by
  refine ⟨rfl, rfl, Nat.le_refl _, (List.append_nil _).symm, Nat.zero_le _, fun _ => hnw.symm,
    fun h => absurd h (by decide), ?_⟩
  refine ⟨fun h => absurd h (by decide), ?_⟩
  rintro ⟨k, hle, hlt, -⟩
  exact absurd hlt (Nat.not_lt.2 hle)

/-- A call that takes `n` characters, and those after it. -/
theorem Took.after {fd fd' : Fd} {res : Bool} {k : Nat} (hn : n ≤ s.nw) (hans : ¬s.fd.answers s.fd.calls < 0)
    (hfd : fd = { s.fd with written := s.fd.written ++ s.slice p n, calls := s.fd.calls + 1 })
    (h : Took { s with fd := fd, nw := s.nw - n } (p + n) res fd' k) : Took s p res fd' (n + k) := by
  subst hfd
  obtain ⟨h₁, h₂, h₃, h₄, h₅, h₆, hlost, h₇⟩ := h
  refine ⟨h₁, h₂, Nat.le_of_succ_le h₃, ?_, ?_, fun hres => ?_, fun hres => ?_, ?_⟩
  · rw [h₄, slice_add, List.append_assoc]
    rfl
  · exact Nat.add_le_of_le_sub' hn h₅
  · rw [h₆ hres]
    exact Nat.add_sub_cancel' hn
  · exact Nat.add_lt_of_lt_sub' (hlost hres)
  · rw [h₇]
    exact failed_of_answer (by rw [h₁]; exact hans)

/-- **The loop ends**, when it has written the characters from `p` on or the first of them and met an error. -/
theorem flushLoop_spec (hprogress : s.fd.Progress) (hfuel : s.nw ≤ fuel) (p : Nat) :
    ∃ res fd k nw, flushLoop fuel s p = some (res, { s with fd := fd, nw := nw, flagError := s.flagError || res }) ∧
      Took s p res fd k := by
  induction fuel generalizing s p with
  | zero =>
    have hnw : s.nw = 0 := Nat.le_zero.1 hfuel
    refine ⟨false, s.fd, 0, s.nw, ?_, took_zero hnw p⟩
    rw [flushLoop, if_neg (by omega), Bool.or_false]
  | succ fuel ih =>
    by_cases hnw : s.nw > 0
    · by_cases hneg : s.fd.answers s.fd.calls < 0
      · refine ⟨true, { s.fd with calls := s.fd.calls + 1 }, 0, s.nw, ?_, rfl, rfl, Nat.le_succ _,
          (List.append_nil _).symm, Nat.zero_le _, fun h => absurd h (by decide), fun _ => hnw, ?_⟩
        · simp [flushLoop, hnw, Fd.write, hneg]
        · exact iff_of_true rfl ⟨s.fd.calls, Nat.le_refl _, Nat.lt_succ_self _, hneg⟩
      · have hans := hprogress s.fd.calls
        have hwrite : s.fd.write (s.slice p s.nw) = (((min (s.fd.answers s.fd.calls).toNat s.nw : Nat) : Int),
            { s.fd with
              written := s.fd.written ++ s.slice p (min (s.fd.answers s.fd.calls).toNat s.nw)
              calls := s.fd.calls + 1 }) := by
          simp only [Fd.write, hneg, if_false, length_slice]
          rw [take_slice s p (Nat.min_le_right _ _)]
        have hpos : 0 < min (s.fd.answers s.fd.calls).toNat s.nw := by omega
        have hle : min (s.fd.answers s.fd.calls).toNat s.nw ≤ s.nw := Nat.min_le_right _ _
        generalize min (s.fd.answers s.fd.calls).toNat s.nw = n at hwrite hpos hle
        obtain ⟨res, fd, k, nw, hloop, htook⟩ := @ih
          { s with
            fd := { s.fd with written := s.fd.written ++ s.slice p n, calls := s.fd.calls + 1 }
            nw := s.nw - n } hprogress (by show s.nw - n ≤ fuel; omega) (p + n)
        refine ⟨res, fd, n + k, nw, ?_, htook.after hle hneg rfl⟩
        rw [flushLoop, if_pos hnw, hwrite]
        simp only [Int.toNat_natCast, Nat.min_eq_left hle]
        rw [if_neg (by omega)]
        exact hloop
    · have hzero : s.nw = 0 := by omega
      refine ⟨false, s.fd, 0, s.nw, ?_, took_zero hzero p⟩
      rw [flushLoop, if_neg hnw, Bool.or_false]

theorem fflush_spec (hprogress : s.fd.Progress) (hfuel : s.nw ≤ fuel) :
    ∃ res fd k,
      fflush fuel s =
        some (res, { s with fd := fd, flagError := s.flagError || res, ptr := 0, nw := 0, nr := 0 }) ∧
      Took s 0 res fd k := by
  obtain ⟨res, fd, k, nw, hloop, htook⟩ := flushLoop_spec hprogress hfuel 0
  exact ⟨res, fd, k, by rw [fflush, hloop]; rfl, htook⟩

/-! ## A stream that is only written to -/

/-- The characters in the buffer. -/
def File.pending (s : File) : List UInt8 := s.slice 0 s.nw

/-- What the file has got, and what it is to get. -/
def File.total (s : File) : List UInt8 := s.fd.written ++ s.pending

/-- **A stream between two calls**, none of which reads: the buffer has room for a character. -/
structure Writing (s : File) : Prop where
  memory : s.memory = true
  nr : s.nr = 0
  ptr : s.ptr = s.nw
  lt : s.nw < s.bufsize
  noBuf : s.hasBuf = false → s.nw = 0
  progress : s.fd.Progress

/-- What calls do to what the stream carries, when the program puts `put`. -/
structure Carried (s : File) (put : List UInt8) (s' : File) : Prop where
  writing : Writing s'
  bufsize : s'.bufsize = s.bufsize
  bufmode : s'.bufmode = s.bufmode
  answers : s'.fd.answers = s.fd.answers
  calls : s.fd.calls ≤ s'.fd.calls
  sublist : s'.total.Sublist (s.total ++ put)
  total : s'.flagError = false → s'.total = s.total ++ put
  lost : s'.flagError = true → s.flagError = true ∨ s'.total.length < (s.total ++ put).length
  error : s'.flagError = true ↔ s.flagError = true ∨ s'.fd.Failed s.fd.calls

theorem failed_split {fd : Fd} {calls calls' : Nat} (hle : calls ≤ calls') (hle' : calls' ≤ fd.calls) :
    fd.Failed calls ↔ Fd.Failed { fd with calls := calls' } calls ∨ fd.Failed calls' := by
  constructor
  · rintro ⟨k, h₁, h₂, h₃⟩
    rcases Nat.lt_or_ge k calls' with hlt | hge
    · exact .inl ⟨k, h₁, hlt, h₃⟩
    · exact .inr ⟨k, hge, h₂, h₃⟩
  · rintro (⟨k, h₁, h₂, h₃⟩ | ⟨k, h₁, h₂, h₃⟩)
    · exact ⟨k, h₁, Nat.lt_of_lt_of_le h₂ hle', h₃⟩
    · exact ⟨k, Nat.le_trans hle h₁, h₂, h₃⟩

theorem Carried.trans {s'' : File} {put put' : List UInt8} (h : Carried s put s') (h' : Carried s' put' s'') :
    Carried s (put ++ put') s'' where
  writing := h'.writing
  bufsize := h'.bufsize.trans h.bufsize
  bufmode := h'.bufmode.trans h.bufmode
  answers := h'.answers.trans h.answers
  calls := Nat.le_trans h.calls h'.calls
  sublist := by
    rw [← List.append_assoc]
    exact h'.sublist.trans (h.sublist.append_right put')
  total herr := by
    have hclear : s'.flagError = false := by
      cases hs' : s'.flagError with
      | false => rfl
      | true => rw [h'.error.2 (.inl hs')] at herr; cases herr
    rw [h'.total herr, h.total hclear, List.append_assoc]
  lost herr := by
    have hle := h.sublist.length_le
    have hle' := h'.sublist.length_le
    simp only [List.length_append] at hle hle' ⊢
    rcases h'.lost herr with hs' | hlt
    · refine (h.lost hs').imp_right fun hlt => ?_
      rw [List.length_append] at hlt
      omega
    · rw [List.length_append] at hlt
      exact .inr (by omega)
  error := by
    have hsame : Fd.Failed { s''.fd with calls := s'.fd.calls } s.fd.calls ↔ s'.fd.Failed s.fd.calls := by
      unfold Fd.Failed
      rw [h'.answers]
    rw [h'.error, h.error, failed_split h.calls h'.calls, hsame, or_assoc]

theorem Carried.refl (h : Writing s) : Carried s [] s where
  writing := h
  bufsize := rfl
  bufmode := rfl
  answers := rfl
  calls := Nat.le_refl _
  sublist := by rw [List.append_nil]
  total _ := (List.append_nil _).symm
  lost := .inl
  error := by
    refine ⟨.inl, fun h => h.elim id ?_⟩
    rintro ⟨k, hle, hlt, -⟩
    exact absurd hlt (Nat.not_lt.2 hle)

/-- **A flush** of a buffer that may be full. -/
theorem fflush_carried (hmemory : s.memory = true) (hpos : 0 < s.bufsize) (hprogress : s.fd.Progress)
    (hfuel : s.nw ≤ fuel) :
    ∃ res s', fflush fuel s = some (res, s') ∧ Carried s [] s' ∧ s'.nw = 0 := by
  obtain ⟨res, fd, k, hflush, htook⟩ := fflush_spec hprogress hfuel
  have hprogress' : fd.Progress := fun k => by rw [htook.answers]; exact hprogress k
  refine ⟨res, _, hflush, ⟨⟨hmemory, rfl, rfl, hpos, fun _ => rfl, hprogress'⟩, rfl, rfl, htook.answers, htook.calls,
    ?_, fun herr => ?_, fun herr => ?_, ?_⟩, rfl⟩
  · show (fd.written ++ []).Sublist _
    rw [List.append_nil, List.append_nil, htook.written, File.total, ← take_slice s 0 htook.le]
    exact (List.take_sublist k _).append_left _
  · have hres : res = false := (Bool.or_eq_false_iff.1 herr).2
    show fd.written ++ [] = _
    rw [List.append_nil, List.append_nil, htook.written, htook.all hres]
    rfl
  · refine (Bool.or_eq_true_iff.1 herr).imp_right fun hres => ?_
    have hlt := htook.lost hres
    show (fd.written ++ []).length < (s.fd.written ++ s.slice 0 s.nw ++ []).length
    simp only [List.append_nil, htook.written, List.length_append, length_slice]
    omega
  · show (s.flagError || res) = true ↔ _
    rw [Bool.or_eq_true, htook.failed]

/-- The stream with one more character in its buffer. -/
def File.store (s : File) (c : UInt8) : File :=
  { s with hasBuf := true, buf := Function.update s.buf s.ptr c, ptr := s.ptr + 1, nw := s.nw + 1 }

theorem fputc_eq (h : Writing s) : fputc lseek fuel c s =
    if (s.store c).flushes c then (fflush fuel (s.store c)).map fun r => ((if r.1 then 255 else c.toNat : Int), r.2)
    else some (c.toNat, s.store c) := by
  cases hbuf : s.hasBuf with
  | true => simp [fputc, hbuf, h.nr, File.store]
  | false =>
    have hptr : s.ptr = 0 := h.ptr.trans (h.noBuf hbuf)
    simp [fputc, hbuf, h.memory, File.store, h.noBuf hbuf, hptr, h.nr]

theorem total_store (h : Writing s) (c : UInt8) : (s.store c).total = s.total ++ [c] := by
  have hbefore : (s.store c).slice 0 s.nw = s.slice 0 s.nw := by
    refine slice_congr fun i hi => Function.update_of_ne ?_ _ _
    rw [h.ptr, Nat.zero_add]
    exact Nat.ne_of_lt hi
  have hlast : (s.store c).slice (0 + s.nw) 1 = [c] := by
    simp [File.slice, File.store, h.ptr]
  show s.fd.written ++ (s.store c).slice 0 (s.nw + 1) = _
  rw [slice_add, hbefore, hlast, ← List.append_assoc]
  rfl

/-- **`fputc` carries its character**, and gives it back unless a flush fails. -/
theorem fputc_carried (h : Writing s) (hfuel : s.bufsize ≤ fuel) (c : UInt8) :
    ∃ res s', fputc lseek fuel c s = some (res, s') ∧ res ≠ eof ∧ Carried s [c] s' ∧
      ((s.store c).flushes c = true → s'.nw = 0) := by
  have hstore : (s.store c).total.Sublist (s.total ++ [c]) := by
    rw [total_store h]
  rw [fputc_eq h]
  split_ifs with hflush
  · have hlt := h.lt
    obtain ⟨res, s', heq, hcarried, hnw⟩ := @fflush_carried (s.store c) fuel h.memory (Nat.zero_lt_of_lt h.lt)
      h.progress (show s.nw + 1 ≤ fuel by omega)
    refine ⟨_, s', by rw [heq]; rfl, ?_, ⟨hcarried.writing, hcarried.bufsize, hcarried.bufmode, hcarried.answers,
      hcarried.calls, ?_, fun herr => ?_, fun herr => ?_, hcarried.error⟩, fun _ => hnw⟩
    · show (if res then 255 else c.toNat : Int) ≠ -1
      split_ifs
      · decide
      · omega
    · have hsub := hcarried.sublist
      rw [List.append_nil, total_store h] at hsub
      exact hsub
    · rw [hcarried.total herr, List.append_nil, total_store h]
    · have hlost := hcarried.lost herr
      rw [List.append_nil, total_store h] at hlost
      exact hlost
  · have hroom : (s.store c).nw < s.bufsize := by
      simp only [File.flushes, Bool.or_eq_true, decide_eq_true_eq, not_or] at hflush
      exact Nat.not_le.1 hflush.1.1
    refine ⟨c.toNat, s.store c, rfl, ?_, ⟨⟨h.memory, h.nr, ?_, hroom, ?_, h.progress⟩, rfl, rfl, rfl, Nat.le_refl _,
      hstore, fun _ => total_store h c, .inl, (Carried.refl h).error⟩, fun hf => absurd hf hflush⟩
    · show ((c.toNat : Nat) : Int) ≠ -1
      omega
    · exact congrArg (· + 1) h.ptr
    · exact fun hbuf => absurd hbuf (by simp [File.store])

theorem fwriteItem_carried (h : Writing s) (hfuel : s.bufsize ≤ fuel) (item : List UInt8) :
    ∃ s', fwriteItem lseek fuel item s = some (true, s') ∧ Carried s item s' := by
  induction item generalizing s with
  | nil => exact ⟨s, rfl, .refl h⟩
  | cons c item ih =>
    obtain ⟨res, s₁, hputc, hne, hcarried, -⟩ := @fputc_carried s fuel lseek h hfuel c
    obtain ⟨s₂, hrest, hcarried'⟩ := ih hcarried.writing (hcarried.bufsize ▸ hfuel)
    refine ⟨s₂, ?_, hcarried.trans hcarried'⟩
    rw [fwriteItem, hputc, Option.bind_some, if_neg hne, hrest]

/-- **`fwrite` carries all of its items**, or at least says so. -/
theorem fwrite_carried (h : Writing s) (hfuel : s.bufsize ≤ fuel) (items : List (List UInt8)) :
    ∃ s', fwrite lseek fuel items s = some (items.length, s') ∧ Carried s items.flatten s' := by
  induction items generalizing s with
  | nil => exact ⟨s, rfl, .refl h⟩
  | cons item items ih =>
    obtain ⟨s₁, hitem, hcarried⟩ := @fwriteItem_carried s fuel lseek h hfuel item
    obtain ⟨s₂, hrest, hcarried'⟩ := ih hcarried.writing (hcarried.bufsize ▸ hfuel)
    refine ⟨s₂, ?_, hcarried.trans hcarried'⟩
    rw [fwrite, hitem, Option.bind_some, if_pos rfl, hrest]
    rfl

/-! ## Runs of calls -/

inductive Call where
  | fputc (c : UInt8)
  | fwrite (items : List (List UInt8))
  | fflush

/-- What the program puts. -/
def Call.put : Call → List UInt8
  | .fputc c => [c]
  | .fwrite items => items.flatten
  | .fflush => []

/-- A call and its result. -/
inductive Result where
  | fputc (c : UInt8) (res : Int)
  | fwrite (items : List (List UInt8)) (res : Nat)
  | fflush (res : Bool)

/-- The result does not tell of a failure. -/
def Result.Fine : Result → Prop
  | .fputc _ res => res ≠ eof
  | .fwrite items res => res = items.length
  | .fflush _ => True

def Call.step (lseek : Int → Int → Fd → Fd) (fuel : Nat) (s : File) : Call → Option (File × List Result)
  | .fputc c => (Stream.fputc lseek fuel c s).map fun r => (r.2, [.fputc c r.1])
  | .fwrite items => (Stream.fwrite lseek fuel items s).map fun r => (r.2, [.fwrite items r.1])
  | .fflush => (Stream.fflush fuel s).map fun r => (r.2, [.fflush r.1])

theorem step_carried (h : Writing s) (hfuel : s.bufsize ≤ fuel) (call : Call) :
    ∃ s' outs, call.step lseek fuel s = some (s', outs) ∧ (∀ out ∈ outs, out.Fine) ∧ Carried s call.put s' := by
  cases call with
  | fputc c =>
    obtain ⟨res, s', heq, hne, hcarried, -⟩ := @fputc_carried s fuel lseek h hfuel c
    exact ⟨s', [.fputc c res], by rw [Call.step, heq, Option.map_some], List.forall_mem_singleton.2 hne, hcarried⟩
  | fwrite items =>
    obtain ⟨s', heq, hcarried⟩ := @fwrite_carried s fuel lseek h hfuel items
    exact ⟨s', [.fwrite items items.length], by rw [Call.step, heq, Option.map_some], List.forall_mem_singleton.2 rfl,
      hcarried⟩
  | fflush =>
    have hlt := h.lt
    obtain ⟨res, s', heq, hcarried, -⟩ := @fflush_carried s fuel h.memory (Nat.zero_lt_of_lt hlt) h.progress
      (Nat.le_trans (Nat.le_of_lt hlt) hfuel)
    exact ⟨s', [.fflush res], by rw [Call.step, heq, Option.map_some], List.forall_mem_singleton.2 trivial, hcarried⟩

theorem run_carried (h : Writing s) (hfuel : s.bufsize ≤ fuel) (calls : List Call) :
    ∃ s' outs, play (Call.step lseek fuel) s calls = some (s', outs) ∧ (∀ out ∈ outs, out.Fine) ∧
      Carried s (calls.flatMap Call.put) s' := by
  induction calls generalizing s with
  | nil => exact ⟨s, [], rfl, List.forall_mem_nil _, .refl h⟩
  | cons call calls ih =>
    obtain ⟨s₁, out, hstep, hfine, hcarried⟩ := @step_carried s fuel lseek h hfuel call
    obtain ⟨s₂, outs, hplay, hfines, hcarried'⟩ := ih hcarried.writing (hcarried.bufsize ▸ hfuel)
    refine ⟨s₂, out ++ outs, play_cons_of hstep hplay, ?_, hcarried.trans hcarried'⟩
    exact fun r hr => (List.mem_append.1 hr).elim (hfine r) (hfines r)

theorem writing_fresh {fd : Fd} {bufsize : Nat} (bufmode : BufMode) (hpos : 0 < bufsize) (hprogress : fd.Progress) :
    Writing (.fresh fd bufmode bufsize) :=
  ⟨rfl, rfl, rfl, hpos, fun _ => rfl, hprogress⟩

/-- Every call moves something, if there is something to be moved. -/
def Fd.Healthy (fd : Fd) : Prop := ∀ k, 0 < fd.answers k

/-- The characters that have been read ahead. -/
def File.ahead (s : File) : List UInt8 := s.slice s.ptr s.nr.toNat

/-- What the program has not got yet. -/
def File.remaining (s : File) : List UInt8 := s.ahead ++ s.fd.unread

/-- **A stream between two calls**, none of which writes. -/
structure Reading (s : File) : Prop where
  memory : s.memory = true
  nw : s.nw = 0
  pos : 0 < s.bufsize
  healthy : s.fd.Healthy

theorem reading_fresh {fd : Fd} {bufsize : Nat} (bufmode : BufMode) (hpos : 0 < bufsize) (hhealthy : fd.Healthy) :
    Reading (.fresh fd bufmode bufsize) :=
  ⟨rfl, rfl, hpos, hhealthy⟩

/-- The stream after a `read` for the buffer. -/
def File.filled (s : File) (bytes : List UInt8) (fd : Fd) : File :=
  { s with hasBuf := true, fd := fd, buf := fun i => bytes.getD i (s.buf i), ptr := 0, nr := bytes.length - 1 }

theorem fillbuf_eq (h : Reading s) : ∃ k, 0 < k ∧ fillbuf s =
    let s₁ := s.filled (s.fd.unread.take k) { s.fd with unread := s.fd.unread.drop k, calls := s.fd.calls + 1 }
    if s.fd.unread = [] then (eof, { s₁ with flagEof := true, nr := 0, nw := 0 })
    else ((s₁.buf 0).toNat, { s₁ with ptr := 1 }) := by
  have hans := h.healthy s.fd.calls
  have hpos := h.pos
  refine ⟨min (s.fd.answers s.fd.calls).toNat s.bufsize, by omega, ?_⟩
  have hk : 0 < min (s.fd.answers s.fd.calls).toNat s.bufsize := by omega
  have hread : s.fd.read s.bufsize =
      (((s.fd.unread.take (min (s.fd.answers s.fd.calls).toNat s.bufsize)).length : Int),
        s.fd.unread.take (min (s.fd.answers s.fd.calls).toNat s.bufsize),
        { s.fd with
          unread := s.fd.unread.drop (min (s.fd.answers s.fd.calls).toNat s.bufsize)
          calls := s.fd.calls + 1 }) := by
    rw [Fd.read, if_neg (by omega)]
  generalize min (s.fd.answers s.fd.calls).toNat s.bufsize = k at hk hread
  have hmalloc : ¬(s.hasBuf = false ∧ s.memory = false) := by simp [h.memory]
  by_cases hnil : s.fd.unread = []
  · simp [fillbuf, hmalloc, hread, hnil, File.filled]
  · have hlen : ¬(((s.fd.unread.take k).length : Int) - 1 < 0) := by
      have hlt := List.length_pos_of_ne_nil hnil
      rw [List.length_take]
      omega
    simp only [fillbuf, hmalloc, if_false, hread, hlen, hnil, File.filled]

theorem slice_filled (s : File) (bytes : List UInt8) (fd : Fd) {m n : Nat} (h : m + n ≤ bytes.length) :
    (s.filled bytes fd).slice m n = (bytes.drop m).take n := by
  refine List.ext_getElem (by simp; omega) fun i h₁ h₂ => ?_
  have hi : i < n := by simpa using h₁
  simp [File.slice, File.filled, List.getElem?_eq_getElem (by omega : m + i < bytes.length)]

/-- The stream after a character from the buffer. -/
def File.advance (s : File) : File := { s with nr := s.nr - 1, ptr := s.ptr + 1 }

theorem fgetc_of_ahead (h : Reading s) (hnr : 0 < s.nr) :
    fgetc fuel s = some (((s.buf s.ptr).toNat : Int), s.advance) := by
  rw [fgetc, if_neg (by rw [h.nw]; exact Nat.lt_irrefl 0), Option.map_some]
  show some (if s.nr - 1 ≥ 0 then _ else _) = _
  rw [if_pos (by omega)]
  rfl

theorem fgetc_of_empty (h : Reading s) (hnr : s.nr ≤ 0) :
    fgetc fuel s = some (fillbuf { s with nr := s.nr - 1 }) := by
  rw [fgetc, if_neg (by rw [h.nw]; exact Nat.lt_irrefl 0), Option.map_some]
  show some (if s.nr - 1 ≥ 0 then _ else _) = _
  rw [if_neg (by omega)]

theorem ahead_of_empty (hnr : s.nr ≤ 0) : s.ahead = [] := by
  rw [File.ahead, Int.toNat_eq_zero.2 hnr]
  rfl

/-- **The next character**, from the buffer or from the file. -/
theorem fgetc_cons (h : Reading s) {rest : List UInt8} (hrem : s.remaining = c :: rest) :
    ∃ s', fgetc fuel s = some ((c.toNat : Int), s') ∧ Reading s' ∧ s'.remaining = rest := by
  by_cases hnr : 0 < s.nr
  · obtain ⟨n, hn⟩ : ∃ n : Nat, s.nr = n + 1 := ⟨(s.nr - 1).toNat, by omega⟩
    have hahead : s.ahead = s.buf s.ptr :: s.advance.ahead := by
      have hlen : s.nr.toNat = 1 + n := by omega
      have hlen' : s.advance.nr.toNat = n := by
        show (s.nr - 1).toNat = n
        omega
      rw [File.ahead, File.ahead, hlen, hlen', slice_add]
      exact congrArg (fun i => s.buf i :: _) (Nat.add_zero s.ptr)
    rw [File.remaining, hahead, List.cons_append, List.cons.injEq] at hrem
    obtain ⟨rfl, rfl⟩ := hrem
    exact ⟨s.advance, fgetc_of_ahead h hnr, ⟨h.memory, h.nw, h.pos, h.healthy⟩, rfl⟩
  · have hle : s.nr ≤ 0 := Int.not_lt.1 hnr
    rw [File.remaining, ahead_of_empty hle, List.nil_append] at hrem
    obtain ⟨k, hk, hfill⟩ := @fillbuf_eq { s with nr := s.nr - 1 } ⟨h.memory, h.nw, h.pos, h.healthy⟩
    obtain ⟨k, rfl⟩ := Nat.exists_eq_succ_of_ne_zero (Nat.ne_of_gt hk)
    rw [fgetc_of_empty h hle, hfill]
    simp only [hrem, List.take_succ_cons, List.drop_succ_cons, reduceCtorEq, if_false]
    refine ⟨_, rfl, ⟨h.memory, h.nw, h.pos, h.healthy⟩, ?_⟩
    have hslice := @slice_filled { s with nr := s.nr - 1 } (c :: rest.take k)
      { s.fd with unread := rest.drop k, calls := s.fd.calls + 1 } 1 (rest.take k).length (by simp; omega)
    rw [List.drop_succ_cons, List.drop_zero, List.take_length] at hslice
    have hlen : (((c :: rest.take k).length : Int) - 1).toNat = (rest.take k).length := by
      rw [List.length_cons]
      omega
    show File.slice _ 1 (((c :: rest.take k).length : Int) - 1).toNat ++ rest.drop k = rest
    rw [hlen]
    exact (congrArg (· ++ rest.drop k) hslice).trans (List.take_append_drop k rest)

/-- **The end of the file.** -/
theorem fgetc_nil (h : Reading s) (hrem : s.remaining = []) :
    ∃ s', fgetc fuel s = some (eof, s') ∧ Reading s' ∧ s'.remaining = [] ∧ s'.flagEof = true := by
  obtain ⟨hahead, hunread⟩ := List.append_eq_nil_iff.1 hrem
  have hle : s.nr ≤ 0 := by
    have hlen := congrArg List.length hahead
    rw [File.ahead, length_slice] at hlen
    exact Int.toNat_eq_zero.1 hlen
  obtain ⟨k, hk, hfill⟩ := @fillbuf_eq { s with nr := s.nr - 1 } ⟨h.memory, h.nw, h.pos, h.healthy⟩
  rw [fgetc_of_empty h hle, hfill]
  simp only [hunread, if_true, List.take_nil, List.drop_nil]
  exact ⟨_, rfl, ⟨h.memory, rfl, h.pos, h.healthy⟩, rfl, rfl⟩

/-! ## `fgets` -/

/-- The character does not stop `fgets`. -/
def plain (c : UInt8) : Bool := c ≠ 255 && c ≠ 10

/-- What `fgets` stores when there is room for `room` characters. -/
def stored (room : Nat) (text : List UInt8) : List UInt8 := (text.take room).takeWhile plain

theorem ofInt_toNat (c : UInt8) : UInt8.ofInt (c.toNat : Int) = c := by
  have hlt := c.toNat_lt
  have hmod : ((c.toNat : Int) % 2 ^ 8).toNat = c.toNat := by omega
  rw [UInt8.ofInt, hmod]
  exact UInt8.ofNat_toNat

theorem plain_eq_false : plain c = false ↔ c = 255 ∨ c = 10 := by
  unfold plain
  by_cases h : c = 255 <;> simp [h]

/-- **The loop of `fgets`**: it takes the character that stops it, and the end of the file is no different. -/
theorem fgetsLoop_spec (h : Reading s) (room : Nat) :
    ∃ s', fgetsLoop fuel room s = some (stored room s.remaining, s') ∧ Reading s' ∧
      s'.remaining = s.remaining.drop (min room ((stored room s.remaining).length + 1)) := by
  induction room generalizing s with
  | zero => exact ⟨s, by simp [fgetsLoop, stored], h, by simp⟩
  | succ room ih =>
    cases hrem : s.remaining with
    | nil =>
      obtain ⟨s', hget, hreading, hrem', -⟩ := @fgetc_nil s fuel h hrem
      have hstop : UInt8.ofInt eof = 255 := by decide
      refine ⟨s', ?_, hreading, by simp [hrem']⟩
      rw [fgetsLoop, hget, Option.bind_some]
      simp [stored, hstop]
    | cons c rest =>
      obtain ⟨s', hget, hreading, hrem'⟩ := @fgetc_cons s fuel c h rest hrem
      cases hplain : plain c with
      | false =>
        refine ⟨s', ?_, hreading, ?_⟩
        · rw [fgetsLoop, hget, Option.bind_some, ofInt_toNat]
          simp [stored, hplain, plain_eq_false.1 hplain]
        · simp [stored, hplain, hrem']
      | true =>
        have hgo : ¬(c = 255 ∨ c = 10) := fun hc => by simp [plain_eq_false.2 hc] at hplain
        obtain ⟨s'', hloop, hreading', hrem''⟩ := ih hreading
        refine ⟨s'', ?_, hreading', ?_⟩
        · rw [fgetsLoop, hget, Option.bind_some, ofInt_toNat]
          simp [stored, hplain, hgo, hloop, hrem']
        · rw [hrem'', hrem']
          simp [stored, hplain, Nat.succ_min_succ]

theorem fgets_spec (h : Reading s) (size : Nat) :
    ∃ s', fgets fuel size s =
        some (if stored (size - 1) s.remaining = [] then none else some (stored (size - 1) s.remaining), s') ∧
      Reading s' ∧
      s'.remaining = s.remaining.drop (min (size - 1) ((stored (size - 1) s.remaining).length + 1)) := by
  obtain ⟨s', hloop, hreading, hrem⟩ := @fgetsLoop_spec s fuel h (size - 1)
  exact ⟨s', by rw [fgets, hloop, Option.map_some], hreading, hrem⟩

/-! ## A text, line by line -/

/-- `while(fgets(line, size, file) != NULL)`, for so many rounds: the lines, if the loop ends. -/
def readLines (fuel size : Nat) : Nat → File → Option (List (List UInt8) × File)
  | 0, _ => none
  | rounds + 1, s =>
    (fgets fuel size s).bind fun r =>
      match r.1 with
      | none => some ([], r.2)
      | some line => (readLines fuel size rounds r.2).map fun r' => (line :: r'.1, r'.2)

/-- A text of lines. -/
def text (lines : List (List UInt8)) : List UInt8 := lines.flatMap (· ++ [10])

/-- A line that `fgets` can hold. -/
def Short (size : Nat) (line : List UInt8) : Prop := line.length + 1 < size ∧ ∀ c ∈ line, plain c = true

theorem stored_line {size : Nat} {line rest : List UInt8} (h : Short size line) :
    stored (size - 1) (line ++ 10 :: rest) = line := by
  have hlt : line.length < size - 1 := Nat.lt_sub_of_add_lt h.1
  have hstop : plain 10 = false := by decide
  obtain ⟨k, hk⟩ := Nat.exists_eq_add_of_lt hlt
  rw [stored, hk, Nat.add_assoc, List.take_length_add_append, List.take_succ_cons,
    List.takeWhile_append_of_pos fun c hc => h.2 c hc, List.takeWhile_cons_of_neg (by simp [hstop]), List.append_nil]

/-- **A text is read line by line up to its first empty line**, which `fgets` does not tell from the end of the
file. -/
theorem readLines_text {size : Nat} (hsize : 1 < size) (h : Reading s) (lines : List (List UInt8))
    (hlines : ∀ line ∈ lines, Short size line) (hrem : s.remaining = text lines) :
    ∃ s', readLines fuel size (lines.length + 1) s = some (lines.takeWhile (· ≠ []), s') ∧ Reading s' ∧
      s'.remaining = text ((lines.dropWhile (· ≠ [])).drop 1) := by
  induction lines generalizing s with
  | nil =>
    obtain ⟨s', hgets, hreading, hrem'⟩ := @fgets_spec s fuel h size
    rw [hrem] at hgets hrem'
    refine ⟨s', ?_, hreading, by simp [hrem', text]⟩
    rw [readLines, hgets]
    simp [stored, text]
  | cons line lines ih =>
    have hshort := hlines line (List.mem_cons_self ..)
    have htext : text (line :: lines) = line ++ 10 :: text lines := by simp [text]
    obtain ⟨s₁, hgets, hreading, hrem₁⟩ := @fgets_spec s fuel h size
    rw [hrem, htext, stored_line hshort] at hgets hrem₁
    have hmin : min (size - 1) (line.length + 1) = line.length + 1 := Nat.min_eq_right (by have := hshort.1; omega)
    have hrest : s₁.remaining = text lines := by
      rw [hrem₁, hmin, List.drop_length_add_append]
      rfl
    by_cases hempty : line = []
    · refine ⟨s₁, ?_, hreading, ?_⟩
      · rw [List.length_cons, readLines, hgets, if_pos hempty]
        simp [hempty]
      · simpa [hempty] using hrest
    · obtain ⟨s₂, hloop, hreading', hrem₂⟩ := ih hreading (fun l hl => hlines l (List.mem_cons_of_mem _ hl)) hrest
      refine ⟨s₂, ?_, hreading', ?_⟩
      · rw [List.length_cons, readLines, hgets, if_neg hempty]
        simp [hempty, hloop]
      · simpa [hempty] using hrem₂

/-- A descriptor for the text "a\n\nb\n", of which each call gives two characters. -/
def pairwise : Fd where
  written := []
  unread := text [[97], [], [98]]
  answers _ := 2
  calls := 0

theorem readLines_three : ∃ s', readLines 0 8 4 (.fresh pairwise .fbf 512) = some ([[97]], s') ∧ Reading s' ∧
    s'.remaining = text [[98]] := by
  have hreading : Reading (.fresh pairwise .fbf 512) := reading_fresh .fbf (by decide) fun _ => (by decide : (0 : Int) < 2)
  have hshort : ∀ line ∈ [[97], [], [98]], Short 8 line := by
    intro line hline
    simp only [List.mem_cons, List.not_mem_nil, or_false] at hline
    obtain rfl | rfl | rfl := hline <;> exact ⟨by decide, by simp [plain]⟩
  simpa using readLines_text (by decide) hreading [[97], [], [98]] hshort rfl

end ChenixOS.Stream
