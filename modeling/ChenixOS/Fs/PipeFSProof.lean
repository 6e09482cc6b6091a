import ChenixOS.Fs.PipeFS
import Mathlib.Data.List.Nodup
import Mathlib.Logic.Function.Basic

/-!
# A pipe is a bounded queue

Each live pipe behaves as a queue of at most 4095 bytes (`QStep`): a write appends as many
bytes as fit, a read takes from the front, and a step that fails on user memory changes
nothing. The queue of a pipe is the window of its buffer from the read to the write position.

The proofs follow the branches of `_Read` and `_Write`. Every branch copies one or two straight
pieces; together they are one walk around the ring, and `pipe_refines_queues` needs only that.
-/

namespace ChenixOS.PipeFS

open ChenixOS.Ring

/-! ## The queue of a pipe -/

/-- Both positions point into the buffer. -/
structure Pipe.InBounds (p : Pipe) : Prop where
  readPos_lt : p.readPos < bufferSizeof
  writePos_lt : p.writePos < bufferSizeof

/-- How many bytes the pipe holds. -/
def Pipe.stored (p : Pipe) : Nat := (p.writePos + bufferSizeof - p.readPos) % bufferSizeof

/-- The bytes the pipe holds, oldest first. -/
def Pipe.contents (p : Pipe) : List UInt8 := window bufferSizeof p.buffer p.readPos p.stored

/-- One slot always stays empty, so that a full pipe is told from an empty one. -/
abbrev capacity : Nat := bufferSizeof - 1

@[simp] theorem Pipe.length_contents (p : Pipe) : p.contents.length = p.stored :=
  length_window _ _ _

theorem Pipe.stored_of_le {p : Pipe} (hp : p.InBounds) (h : p.readPos ≤ p.writePos) :
    p.stored = p.writePos - p.readPos := by
  have hw : p.writePos < 4096 := hp.writePos_lt
  unfold Pipe.stored bufferSizeof
  omega

theorem Pipe.stored_of_lt {p : Pipe} (hp : p.InBounds) (h : p.writePos < p.readPos) :
    p.stored = bufferSizeof - p.readPos + p.writePos := by
  have hr : p.readPos < 4096 := hp.readPos_lt
  unfold Pipe.stored bufferSizeof
  omega

/-- Walking over what is stored leads from the read to the write position. -/
theorem Pipe.readPos_add_stored {p : Pipe} (hp : p.InBounds) :
    (p.readPos + p.stored) % bufferSizeof = p.writePos := by
  have hr : p.readPos < 4096 := hp.readPos_lt
  have hw : p.writePos < 4096 := hp.writePos_lt
  unfold Pipe.stored bufferSizeof
  omega

/-! ## Copies -/

theorem copied_le (valid : Nat → Bool) (off n : Nat) : copied valid off n ≤ n := by
  induction n generalizing off with
  | zero => exact Nat.le_refl 0
  | succ n ih =>
    unfold copied
    split_ifs
    · exact Nat.succ_le_succ (ih (off + 1))
    · exact Nat.zero_le _

/-- A copy is complete when every byte of it is accessible. -/
theorem copied_eq_iff (valid : Nat → Bool) (off n : Nat) :
    copied valid off n = n ↔ ∀ i, i < n → valid (off + i) = true := by
  induction n generalizing off with
  | zero => simp [copied]
  | succ n ih =>
    unfold copied
    by_cases hv : valid off = true
    · rw [if_pos hv, Nat.add_right_cancel_iff, ih]
      constructor
      · intro h i hi
        cases i with
        | zero => exact hv
        | succ i =>
          have := h i (by omega)
          rwa [Nat.add_right_comm] at this
      · intro h i hi
        have := h (i + 1) (by omega)
        rwa [← Nat.add_assoc, Nat.add_right_comm] at this
    · rw [if_neg hv]
      refine ⟨fun h => by omega, fun h => ?_⟩
      exact absurd (h 0 (by omega)) hv

/-- The bytes of a user buffer that a step delivers or takes. -/
def UserBuffer.bytes (user : UserBuffer) (n : Nat) : List UInt8 := (List.range n).map user.byte

/-- All of the first `n` bytes of the buffer are accessible. -/
def UserBuffer.Accessible (user : UserBuffer) (n : Nat) : Prop := ∀ i, i < n → user.valid i = true

theorem copied_zero_eq_iff (user : UserBuffer) (n : Nat) :
    copied user.valid 0 n = n ↔ user.Accessible n := by
  simp [copied_eq_iff, UserBuffer.Accessible]

/-- Two copies in a row are complete when one copy of both lengths is. -/
theorem accessible_add_iff (user : UserBuffer) (a b : Nat) :
    user.Accessible (a + b) ↔ copied user.valid 0 a = a ∧ copied user.valid a b = b := by
  rw [copied_zero_eq_iff, copied_eq_iff]
  constructor
  · intro h
    exact ⟨fun i hi => h i (by omega), fun i hi => h (a + i) (by omega)⟩
  · intro ⟨h₁, h₂⟩ i hi
    by_cases hia : i < a
    · exact h₁ i hia
    · have := h₂ (i - a) (by omega)
      rwa [Nat.add_sub_cancel' (by omega)] at this

/-- A complete copy to the user. -/
theorem copyToUser_ok (user : UserBuffer) {off : Nat} (buffer : Nat → UInt8) {pos n : Nat}
    (hpos : pos + n ≤ bufferSizeof) (h : copied user.valid off n = n) :
    copyToUser user off buffer pos n =
      .ok (true, { user with byte := overlay user.byte off n fun i => buffer (pos + i) }) := by
  unfold copyToUser
  rw [if_neg (by omega), h]
  simp

theorem copyToUser_fail (user : UserBuffer) {off : Nat} (buffer : Nat → UInt8) {pos n : Nat}
    (hpos : pos + n ≤ bufferSizeof) (h : copied user.valid off n ≠ n) :
    ∃ user', copyToUser user off buffer pos n = .ok (false, user') := by
  unfold copyToUser
  rw [if_neg (by omega)]
  exact ⟨_, by simp [h]; rfl⟩

/-- A complete copy from the user. -/
theorem copyFromUser_ok {user : UserBuffer} {off : Nat} (buffer : Nat → UInt8) {pos n : Nat}
    (hpos : pos + n ≤ bufferSizeof) (h : copied user.valid off n = n) :
    copyFromUser buffer pos user off n =
      .ok (true, overlay buffer pos n fun i => user.byte (off + i)) := by
  unfold copyFromUser
  rw [if_neg (by omega), h]
  simp

/-- An incomplete copy from the user changes at most the range it was to fill. -/
theorem copyFromUser_fail {user : UserBuffer} {off : Nat} (buffer : Nat → UInt8) {pos n : Nat}
    (hpos : pos + n ≤ bufferSizeof) (h : copied user.valid off n ≠ n) :
    ∃ buffer', copyFromUser buffer pos user off n = .ok (false, buffer') ∧
      ∀ j, j < pos ∨ pos + n ≤ j → buffer' j = buffer j := by
  unfold copyFromUser
  rw [if_neg (by omega)]
  refine ⟨_, by simp [h]; rfl, fun j hj => overlay_of_not_mem ?_⟩
  have := copied_le user.valid off n
  omega

/-! ## Reading -/

/-- The user buffer after the two copies of `_Read`, the second one empty when the stored bytes
do not wrap. -/
theorem copyToUser_bytes (user : UserBuffer) (buffer : Nat → UInt8) (pos a b : Nat)
    (ha : pos + a ≤ bufferSizeof) (hb : b = 0 ∨ pos + a = bufferSizeof) (hbr : b ≤ pos) :
    UserBuffer.bytes { user with
      byte := overlay (overlay user.byte 0 a fun i => buffer (pos + i)) a b
        fun i => buffer (0 + i) } (a + b) = window bufferSizeof buffer pos (a + b) := by
  refine List.map_congr_left fun i hi => ?_
  have hi : i < a + b := List.mem_range.1 hi
  by_cases hia : i < a
  · simp only [overlay_of_not_mem (Or.inl hia)]
    rw [overlay_of_mem (Nat.zero_le i) (by omega), add_mod_of_lt (by omega), Nat.sub_zero]
  · simp only [overlay_of_mem (Nat.le_of_not_lt hia) hi]
    have hpos : 0 + (i - a) = pos + i - bufferSizeof := by omega
    rw [add_mod_of_ge (by omega) (by omega), hpos]

/-- What `_Read` does to a pipe and to the user's buffer, in terms of the queue. -/
inductive ReadSpec (p : Pipe) (user : UserBuffer) (n : Nat) :
    Ret × Pipe × UserBuffer → Prop
  | ok {p' : Pipe} {user' : UserBuffer} :
      user.Accessible (min n p.stored) → p'.InBounds → p'.id = p.id → p'.free = p.free →
      p'.contents = p.contents.drop (min n p.stored) →
      user'.bytes (min n p.stored) = p.contents.take (min n p.stored) →
      ReadSpec p user n (.count (min n p.stored), p', user')
  | fail {user' : UserBuffer} :
      ¬ user.Accessible (min n p.stored) → ReadSpec p user n (.invalidBuffer, p, user')

/-- Advancing the read position by `k` drops `k` bytes from the front. -/
theorem contents_advance {p : Pipe} (hp : p.InBounds) {k : Nat} (hk : k ≤ p.stored) :
    Pipe.InBounds { p with readPos := (p.readPos + k) % bufferSizeof } ∧
      Pipe.contents { p with readPos := (p.readPos + k) % bufferSizeof } = p.contents.drop k := by
  have hr : p.readPos < 4096 := hp.readPos_lt
  have hw : p.writePos < 4096 := hp.writePos_lt
  have hstored : Pipe.stored { p with readPos := (p.readPos + k) % bufferSizeof } =
      p.stored - k := by
    simp only [Pipe.stored, bufferSizeof] at hk ⊢
    omega
  refine ⟨⟨Nat.mod_lt _ (by decide), hw⟩, ?_⟩
  unfold Pipe.contents
  rw [hstored, drop_window _ _ hk]

/-- The outcome when both copies are complete. -/
theorem ReadSpec.of_copies {p : Pipe} (hp : p.InBounds) {user : UserBuffer} {n a b : Nat}
    (hab : a + b = min n p.stored) (ha : p.readPos + a ≤ bufferSizeof)
    (hb : b = 0 ∨ p.readPos + a = bufferSizeof) (hbr : b ≤ p.readPos)
    (hok : user.Accessible (a + b)) :
    ReadSpec p user n (.count (a + b),
      { p with readPos := (p.readPos + (a + b)) % bufferSizeof },
      { user with
        byte := overlay (overlay user.byte 0 a fun i => p.buffer (p.readPos + i)) a b
          fun i => p.buffer (0 + i) }) := by
  have hle : a + b ≤ p.stored := by omega
  obtain ⟨hin, hcontents⟩ := contents_advance hp hle
  have hbytes := copyToUser_bytes user p.buffer p.readPos a b ha hb hbr
  rw [← take_window p.buffer p.readPos hle] at hbytes
  rw [hab] at hok hin hcontents hbytes ⊢
  exact .ok hok hin rfl rfl hcontents hbytes

theorem Pipe.read_spec {p : Pipe} (hp : p.InBounds) (user : UserBuffer) (n : Nat) :
    ∃ r, p.read user n = .ok r ∧ ReadSpec p user n r := by
  have hr : p.readPos < bufferSizeof := hp.readPos_lt
  have hw : p.writePos < bufferSizeof := hp.writePos_lt
  unfold Pipe.read
  by_cases heq : p.readPos = p.writePos
  · -- empty: nothing is copied
    have hzero : min n p.stored = 0 := by
      rw [Pipe.stored_of_le hp (Nat.le_of_eq heq)]
      omega
    rw [if_pos heq]
    refine ⟨_, rfl, ?_⟩
    rw [← hzero]
    exact .ok (fun i hi => by omega) hp rfl rfl (by rw [hzero]; rfl) (by rw [hzero]; rfl)
  rw [if_neg heq]
  by_cases hlt : p.readPos < p.writePos
  · -- the stored bytes are one straight piece
    have hstored := Pipe.stored_of_le hp (Nat.le_of_lt hlt)
    obtain ⟨a, ha⟩ : ∃ a, a = min n p.stored := ⟨_, rfl⟩
    have hrem : (if p.writePos - p.readPos > n then n else p.writePos - p.readPos) = a := by
      split_ifs <;> omega
    rw [if_pos hlt]
    simp only [hrem]
    by_cases hok : copied user.valid 0 a = a
    · have hacc := (copied_zero_eq_iff user a).1 hok
      have hspec := ReadSpec.of_copies hp (b := 0) (by omega : a + 0 = min n p.stored)
        (by omega) (Or.inl rfl) (Nat.zero_le _) hacc
      rw [overlay_zero, Nat.add_zero, Nat.mod_eq_of_lt (by omega)] at hspec
      rw [copyToUser_ok user p.buffer (by omega) hok]
      exact ⟨_, rfl, hspec⟩
    · obtain ⟨user', hcopy⟩ := copyToUser_fail user p.buffer
        (by omega : p.readPos + a ≤ bufferSizeof) hok
      rw [hcopy]
      refine ⟨_, rfl, .fail fun hacc => hok ?_⟩
      rw [copied_zero_eq_iff, ha]
      exact hacc
  · -- the stored bytes wrap: a piece up to the end of the buffer, then one from its start
    have hstored := Pipe.stored_of_lt hp (by omega : p.writePos < p.readPos)
    obtain ⟨a, b, hsplit, hab, ha, hb, hbr⟩ : ∃ a b,
        (if bufferSizeof - p.readPos > n then (n, 0)
          else if bufferSizeof - p.readPos + p.writePos > n then
            (bufferSizeof - p.readPos, n - (bufferSizeof - p.readPos))
          else (bufferSizeof - p.readPos, p.writePos)) = (a, b) ∧
        a + b = min n p.stored ∧ p.readPos + a ≤ bufferSizeof ∧
        (b = 0 ∨ p.readPos + a = bufferSizeof) ∧ b ≤ p.readPos := by
      split_ifs
      · exact ⟨_, _, rfl, by omega, by omega, Or.inl rfl, by omega⟩
      · exact ⟨_, _, rfl, by omega, by omega, Or.inr (by omega), by omega⟩
      · exact ⟨_, _, rfl, by omega, by omega, Or.inr (by omega), by omega⟩
    rw [if_neg hlt]
    simp only [hsplit]
    by_cases hA : copied user.valid 0 a = a
    · rw [copyToUser_ok user p.buffer ha hA]
      by_cases hB : copied user.valid a b = b
      · have hspec := ReadSpec.of_copies hp hab ha hb hbr ((accessible_add_iff user a b).2 ⟨hA, hB⟩)
        have hcopy := copyToUser_ok
          ({ user with byte := overlay user.byte 0 a fun i => p.buffer (p.readPos + i) } : UserBuffer)
          p.buffer (by omega : 0 + b ≤ bufferSizeof) hB
        refine ⟨_, ?_, hspec⟩
        show (copyToUser _ a p.buffer 0 b >>= _) = _
        rw [hcopy]
        rfl
      · obtain ⟨user', hcopy⟩ := copyToUser_fail
          ({ user with byte := overlay user.byte 0 a fun i => p.buffer (p.readPos + i) } : UserBuffer)
          p.buffer (by omega : 0 + b ≤ bufferSizeof) hB
        refine ⟨(.invalidBuffer, p, user'), ?_, .fail fun hacc => hB ?_⟩
        · show (copyToUser _ a p.buffer 0 b >>= _) = _
          rw [hcopy]
          rfl
        · rw [← hab, accessible_add_iff] at hacc
          exact hacc.2
    · obtain ⟨user', hcopy⟩ := copyToUser_fail user p.buffer ha hA
      rw [hcopy]
      refine ⟨_, rfl, .fail fun hacc => hA ?_⟩
      rw [← hab, accessible_add_iff] at hacc
      exact hacc.1

/-! ## Writing -/

/-- How many bytes still fit. -/
def Pipe.room (p : Pipe) : Nat := capacity - p.stored

/-- What `_Write` does to a pipe, in terms of the queue. -/
inductive WriteSpec (p : Pipe) (user : UserBuffer) (n : Nat) : Ret × Pipe → Prop
  | ok {p' : Pipe} :
      user.Accessible (min n p.room) → p'.InBounds → p'.id = p.id → p'.free = p.free →
      p'.contents = p.contents ++ user.bytes (min n p.room) →
      WriteSpec p user n (.count (min n p.room), p')
  | fail {p' : Pipe} :
      ¬ user.Accessible (min n p.room) → p'.InBounds → p'.id = p.id → p'.free = p.free →
      p'.contents = p.contents → WriteSpec p user n (.invalidBuffer, p')

/-- The stored bytes do not lie in the free slots, so writing there leaves the queue alone. -/
theorem contents_of_eq_off_room {p : Pipe} (hp : p.InBounds) {buffer : Nat → UInt8} {k : Nat}
    (hk : k ≤ p.room)
    (h : ∀ j, (∀ i, i < k → (p.writePos + i) % bufferSizeof ≠ j) → buffer j = p.buffer j) :
    Pipe.contents { p with buffer } = p.contents := by
  have hr : p.readPos < 4096 := hp.readPos_lt
  have hw : p.writePos < 4096 := hp.writePos_lt
  refine window_congr fun i hi => h _ fun i' hi' => ?_
  simp only [Pipe.room, Pipe.stored, capacity, bufferSizeof] at *
  omega

/-- Writing `k` bytes into the free slots and moving the write position appends them. -/
theorem contents_append {p : Pipe} (hp : p.InBounds) {buffer : Nat → UInt8} {k : Nat}
    {src : Nat → UInt8} (hk : k ≤ p.room)
    (hoff : ∀ j, (∀ i, i < k → (p.writePos + i) % bufferSizeof ≠ j) → buffer j = p.buffer j)
    (hsrc : ∀ i, i < k → buffer ((p.writePos + i) % bufferSizeof) = src i) :
    Pipe.contents { p with buffer, writePos := (p.writePos + k) % bufferSizeof } =
      p.contents ++ (List.range k).map src := by
  have hr : p.readPos < 4096 := hp.readPos_lt
  have hw : p.writePos < 4096 := hp.writePos_lt
  have hstored : Pipe.stored { p with buffer, writePos := (p.writePos + k) % bufferSizeof } =
      p.stored + k := by
    simp only [Pipe.room, Pipe.stored, capacity, bufferSizeof] at hk ⊢
    omega
  have hold : window bufferSizeof buffer p.readPos p.stored = p.contents :=
    contents_of_eq_off_room hp hk hoff
  unfold Pipe.contents
  rw [hstored, window_add, Pipe.readPos_add_stored hp]
  rw [window_eq_map hsrc]
  exact congrArg (· ++ _) hold

/-- What the two copies of `_Write` leave at an address of the buffer. -/
structure Pieces (p : Pipe) (n a b : Nat) : Prop where
  sum : a + b = min n p.room
  fits : p.writePos + a ≤ bufferSizeof
  wraps : b = 0 ∨ p.writePos + a = bufferSizeof
  le_writePos : b ≤ p.writePos

/-- An address outside the slots walked over lies in neither piece. -/
theorem Pieces.not_mem {p : Pipe} {n a b : Nat} (h : Pieces p n a b) {j : Nat}
    (hj : ∀ i, i < a + b → (p.writePos + i) % bufferSizeof ≠ j) :
    (j < p.writePos ∨ p.writePos + a ≤ j) ∧ (j < 0 ∨ 0 + b ≤ j) := by
  have hfits := h.fits
  have hwraps := h.wraps
  have hle := h.le_writePos
  constructor
  · by_contra hc
    refine hj (j - p.writePos) (by omega) ?_
    rw [add_mod_of_lt (by omega)]
    omega
  · by_contra hc
    refine hj (a + j) (by omega) ?_
    rw [add_mod_of_ge (by omega) (by omega)]
    omega

/-- The outcome when both copies are complete. -/
theorem WriteSpec.of_copies {p : Pipe} (hp : p.InBounds) {user : UserBuffer} {n a b : Nat}
    (h : Pieces p n a b) (hok : user.Accessible (a + b)) :
    WriteSpec p user n (.count (a + b),
      { p with
        buffer := overlay (overlay p.buffer p.writePos a fun i => user.byte (0 + i)) 0 b
          fun i => user.byte (a + i)
        writePos := (p.writePos + (a + b)) % bufferSizeof }) := by
  have hfits := h.fits
  have hwraps := h.wraps
  have hle := h.le_writePos
  set buffer := overlay (overlay p.buffer p.writePos a fun i => user.byte (0 + i)) 0 b
    fun i => user.byte (a + i) with hbuffer
  have hoff : ∀ j, (∀ i, i < a + b → (p.writePos + i) % bufferSizeof ≠ j) →
      buffer j = p.buffer j := by
    intro j hj
    obtain ⟨h₁, h₂⟩ := h.not_mem hj
    rw [hbuffer, overlay_of_not_mem h₂, overlay_of_not_mem h₁]
  have hsrc : ∀ i, i < a + b → buffer ((p.writePos + i) % bufferSizeof) = user.byte i := by
    intro i hi
    rw [hbuffer]
    by_cases hia : i < a
    · rw [add_mod_of_lt (by omega), overlay_of_not_mem (by omega),
        overlay_of_mem (by omega) (by omega), Nat.add_sub_cancel_left, Nat.zero_add]
    · have hpos : a + (p.writePos + i - bufferSizeof - 0) = i := by omega
      rw [add_mod_of_ge (by omega) (by omega), overlay_of_mem (by omega) (by omega), hpos]
  have hcontents := contents_append hp (by have := h.sum; omega : a + b ≤ p.room) hoff hsrc
  rw [h.sum] at hok hcontents ⊢
  exact .ok hok ⟨hp.readPos_lt, Nat.mod_lt _ (by decide)⟩ rfl rfl hcontents

/-- The outcome when a copy is incomplete: some free slots hold other bytes than before. -/
theorem WriteSpec.of_fail {p : Pipe} (hp : p.InBounds) {user : UserBuffer} {n a b : Nat}
    (h : Pieces p n a b) (hfail : ¬ user.Accessible (a + b)) {buffer : Nat → UInt8}
    (hoff : ∀ j, (j < p.writePos ∨ p.writePos + a ≤ j) → (j < 0 ∨ 0 + b ≤ j) →
      buffer j = p.buffer j) :
    WriteSpec p user n (.invalidBuffer, { p with buffer }) := by
  have hsum := h.sum
  rw [h.sum] at hfail
  refine .fail hfail ⟨hp.readPos_lt, hp.writePos_lt⟩ rfl rfl ?_
  refine contents_of_eq_off_room hp (by omega : a + b ≤ p.room) fun j hj => ?_
  obtain ⟨h₁, h₂⟩ := h.not_mem hj
  exact hoff j h₁ h₂

/-- The branches of `_Write` that copy one straight piece of `a` bytes. -/
theorem write_straight {p : Pipe} (hp : p.InBounds) {user : UserBuffer} {n a : Nat}
    (ha : a = min n p.room) (hfits : p.writePos + a < bufferSizeof) :
    ∃ r, (do
        let (ok, buffer) ← copyFromUser p.buffer p.writePos user 0 a
        if !ok then Except.ok (Ret.invalidBuffer, { p with buffer })
        else Except.ok (.count a, { p with buffer, writePos := p.writePos + a })) = .ok r ∧
      WriteSpec p user n r := by
  have h : Pieces p n a 0 := ⟨ha, Nat.le_of_lt hfits, Or.inl rfl, Nat.zero_le _⟩
  by_cases hok : copied user.valid 0 a = a
  · have hspec := WriteSpec.of_copies hp h ((copied_zero_eq_iff user a).1 hok)
    rw [overlay_zero, Nat.add_zero, Nat.mod_eq_of_lt hfits] at hspec
    rw [copyFromUser_ok p.buffer h.fits hok]
    exact ⟨_, rfl, hspec⟩
  · obtain ⟨buffer, hcopy, hoff⟩ := copyFromUser_fail p.buffer h.fits hok
    rw [hcopy]
    refine ⟨_, rfl, .of_fail hp h (fun hacc => hok ?_) fun j hj _ => hoff j hj⟩
    exact (copied_zero_eq_iff user a).2 hacc

theorem Pipe.write_spec {p : Pipe} (hp : p.InBounds) (user : UserBuffer) (n : Nat) :
    ∃ r, p.write user n = .ok r ∧ WriteSpec p user n r := by
  have hr : p.readPos < bufferSizeof := hp.readPos_lt
  have hw : p.writePos < bufferSizeof := hp.writePos_lt
  unfold Pipe.write
  by_cases hlt : p.writePos < p.readPos
  · -- the free slots lie between the positions
    have hroom : p.room = p.readPos - p.writePos - 1 := by
      simp only [Pipe.room, capacity, Pipe.stored_of_lt hp hlt]
      omega
    rw [if_pos hlt]
    exact write_straight hp (by split_ifs <;> omega) (by split_ifs <;> omega)
  rw [if_neg hlt]
  by_cases hpos : p.readPos > 0
  · -- the free slots wrap
    have hroom : p.room = bufferSizeof - p.writePos + (p.readPos - 1) := by
      simp only [Pipe.room, capacity, Pipe.stored_of_le hp (Nat.le_of_not_lt hlt)]
      omega
    obtain ⟨a, b, hsplit, h⟩ : ∃ a b,
        (if bufferSizeof - p.writePos > n then (n, 0)
          else if bufferSizeof - p.writePos + (p.readPos - 1) > n then
            (bufferSizeof - p.writePos, n - (bufferSizeof - p.writePos))
          else (bufferSizeof - p.writePos, p.readPos - 1)) = (a, b) ∧ Pieces p n a b := by
      split_ifs
      · exact ⟨_, _, rfl, by omega, by omega, Or.inl rfl, by omega⟩
      · exact ⟨_, _, rfl, by omega, by omega, Or.inr (by omega), by omega⟩
      · exact ⟨_, _, rfl, by omega, by omega, Or.inr (by omega), by omega⟩
    have hb : 0 + b ≤ bufferSizeof := by have := h.le_writePos; omega
    rw [if_pos hpos]
    simp only [hsplit]
    by_cases hA : copied user.valid 0 a = a
    · rw [copyFromUser_ok p.buffer h.fits hA]
      by_cases hB : copied user.valid a b = b
      · have hspec := WriteSpec.of_copies hp h ((accessible_add_iff user a b).2 ⟨hA, hB⟩)
        refine ⟨_, ?_, hspec⟩
        show (copyFromUser _ 0 user a b >>= _) = _
        rw [copyFromUser_ok _ hb hB]
        rfl
      · obtain ⟨buffer, hcopy, hoff⟩ := copyFromUser_fail
          (overlay p.buffer p.writePos a fun i => user.byte (0 + i)) hb hB
        have hspec : WriteSpec p user n (.invalidBuffer, { p with buffer }) := by
          refine .of_fail hp h (fun hacc => hB ((accessible_add_iff user a b).1 hacc).2) ?_
          intro j h₁ h₂
          rw [hoff j h₂, overlay_of_not_mem h₁]
        refine ⟨_, ?_, hspec⟩
        show (copyFromUser _ 0 user a b >>= _) = _
        rw [hcopy]
        rfl
    · obtain ⟨buffer, hcopy, hoff⟩ := copyFromUser_fail p.buffer h.fits hA
      rw [hcopy]
      refine ⟨_, rfl, .of_fail hp h (fun hacc => hA ?_) fun j hj _ => hoff j hj⟩
      exact ((accessible_add_iff user a b).1 hacc).1
  · -- nothing before the read position: the last slot stays empty
    have hroom : p.room = bufferSizeof - p.writePos - 1 := by
      simp only [Pipe.room, capacity, Pipe.stored_of_le hp (Nat.le_of_not_lt hlt)]
      omega
    rw [if_neg hpos]
    exact write_straight hp (by split_ifs <;> omega) (by split_ifs <;> omega)

/-! ## The file system and its nodes -/

/-- A step on the file system; the last three are made through a live node. -/
inductive Call
  | createNode
  | destroyNode (id : Nat)
  | read (id : Nat) (user : UserBuffer) (bufferSize : Nat)
  | write (id : Nat) (user : UserBuffer) (bufferSize : Nat)

/-- What the step returns: the `id` of the new node, or what `_Read` and `_Write` return, with
the bytes that a read delivered. -/
inductive Reply
  | created (id : Nat)
  | destroyed
  | got (data : List UInt8)
  | wrote (n : Nat)
  | invalidBuffer

/-- The vector of pipes and the `id`s of the nodes that are alive. -/
structure Sys where
  pipes : Pipes
  live : List Nat

/-- Reads, writes and `DestroyNode` are made through a node that is alive. -/
def Call.On (live : List Nat) : Call → Prop
  | .createNode => True
  | .destroyNode id => id ∈ live
  | .read id _ _ => id ∈ live
  | .write id _ _ => id ∈ live

def Sys.step (s : Sys) : Call → Except Stop (Reply × Sys)
  | .createNode =>
      let (id, pipes) := createNode s.pipes
      .ok (.created id, ⟨pipes, id :: s.live⟩)
  | .destroyNode id => do
      let pipes ← destroyNode s.pipes id
      .ok (.destroyed, ⟨pipes, s.live.erase id⟩)
  | .read id user bufferSize => do
      let (ret, pipes, user) ← readPipe s.pipes id user bufferSize
      match ret with
      | .count n => .ok (.got (user.bytes n), { s with pipes })
      | .invalidBuffer => .ok (.invalidBuffer, { s with pipes })
  | .write id user bufferSize => do
      let (ret, pipes) ← writePipe s.pipes id user bufferSize
      match ret with
      | .count n => .ok (.wrote n, { s with pipes })
      | .invalidBuffer => .ok (.invalidBuffer, { s with pipes })

/-- Runs of the file system, with the calls made and what they returned. -/
inductive Runs : Sys → List (Call × Reply) → Sys → Prop
  | refl (s : Sys) : Runs s [] s
  | step {s s₁ s₂ : Sys} {trace : List (Call × Reply)} {c : Call} {r : Reply} :
      Runs s trace s₁ → c.On s₁.live → s₁.step c = .ok (r, s₂) → Runs s (trace ++ [(c, r)]) s₂

/-! ## Queues -/

/-- The queues of the live pipes. -/
abbrev Queues := Nat → Option (List UInt8)

/-- What a pipe is for: a queue of at most `capacity` bytes. A call that meets inaccessible
memory of the user among the bytes it would transfer changes nothing. -/
inductive QStep : Queues → Call → Reply → Queues → Prop
  | create {q : Queues} {id : Nat} : q id = none →
      QStep q .createNode (.created id) (Function.update q id (some []))
  | destroy {q : Queues} {id : Nat} {l : List UInt8} : q id = some l →
      QStep q (.destroyNode id) .destroyed (Function.update q id none)
  | write {q : Queues} {id n : Nat} {l : List UInt8} {user : UserBuffer} : q id = some l →
      user.Accessible (min n (capacity - l.length)) →
      QStep q (.write id user n) (.wrote (min n (capacity - l.length)))
        (Function.update q id (some (l ++ user.bytes (min n (capacity - l.length)))))
  | writeFail {q : Queues} {id n : Nat} {l : List UInt8} {user : UserBuffer} : q id = some l →
      ¬ user.Accessible (min n (capacity - l.length)) →
      QStep q (.write id user n) .invalidBuffer q
  | read {q : Queues} {id n : Nat} {l : List UInt8} {user : UserBuffer} : q id = some l →
      user.Accessible (min n l.length) →
      QStep q (.read id user n) (.got (l.take (min n l.length)))
        (Function.update q id (some (l.drop (min n l.length))))
  | readFail {q : Queues} {id n : Nat} {l : List UInt8} {user : UserBuffer} : q id = some l →
      ¬ user.Accessible (min n l.length) → QStep q (.read id user n) .invalidBuffer q

/-- Runs of the queues. -/
inductive QRuns : Queues → List (Call × Reply) → Queues → Prop
  | refl (q : Queues) : QRuns q [] q
  | step {q q₁ q₂ : Queues} {trace : List (Call × Reply)} {c : Call} {r : Reply} :
      QRuns q trace q₁ → QStep q₁ c r q₂ → QRuns q (trace ++ [(c, r)]) q₂

/-- The queues that the file system implements. -/
def Sys.queues (s : Sys) : Queues := fun id =>
  if id ∈ s.live then s.pipes[id]?.map Pipe.contents else none

/-! ## Slots -/

/-- Every pipe knows its slot. -/
def Indexed (pipes : Pipes) : Prop := ∀ (i : Nat) (p : Pipe), pipes[i]? = some p → p.id = i

/-- A recycled slot was free; the pipe in it is empty, and all other slots are as before. -/
theorem recycle_eq_some {pipes pipes' : Pipes} {id : Nat} {k : Nat}
    (hid : ∀ (i : Nat) (p : Pipe), pipes[i]? = some p → p.id = k + i) (h : recycle pipes = some (id, pipes')) :
    ∃ i p, id = k + i ∧ pipes[i]? = some p ∧ p.free = true ∧
      pipes' = pipes.set i { p with free := false, readPos := 0, writePos := 0 } := by
  induction pipes generalizing pipes' k with
  | nil => simp [recycle] at h
  | cons p pipes ih =>
    unfold recycle at h
    split_ifs at h with hfree
    · simp only [Option.some.injEq, Prod.mk.injEq] at h
      obtain ⟨rfl, rfl⟩ := h
      exact ⟨0, p, hid 0 p rfl, rfl, hfree, rfl⟩
    · obtain ⟨⟨id', rest⟩, hrest, heq⟩ := Option.map_eq_some_iff.1 h
      simp only [Prod.mk.injEq] at heq
      obtain ⟨rfl, rfl⟩ := heq
      have hid' : ∀ i q, pipes[i]? = some q → q.id = k + 1 + i := by
        intro i q hq
        have := hid (i + 1) q hq
        omega
      obtain ⟨i, q, hi, hq, hfree', rfl⟩ := ih hid' hrest
      exact ⟨i + 1, q, by omega, hq, hfree', rfl⟩

/-- The slot that `CreateNode` hands out: an empty pipe, in a slot that was free or new. -/
theorem createNode_spec {pipes : Pipes} (hid : Indexed pipes) :
    (∀ p, pipes[(createNode pipes).1]? = some p → p.free = true) ∧
    (∃ p, (createNode pipes).2[(createNode pipes).1]? = some p ∧ p.free = false ∧
      p.InBounds ∧ p.contents = [] ∧ p.id = (createNode pipes).1) ∧
    ∀ i, i ≠ (createNode pipes).1 → (createNode pipes).2[i]? = pipes[i]? := by
  have hempty : ∀ id buffer, Pipe.InBounds ⟨id, false, 0, 0, buffer⟩ ∧
      Pipe.contents ⟨id, false, 0, 0, buffer⟩ = [] := by
    intro id buffer
    have hin : Pipe.InBounds ⟨id, false, 0, 0, buffer⟩ :=
      ⟨Nat.zero_lt_succ _, Nat.zero_lt_succ _⟩
    refine ⟨hin, List.eq_nil_of_length_eq_zero ?_⟩
    rw [Pipe.length_contents, Pipe.stored_of_le hin (Nat.le_refl 0)]
    exact Nat.sub_self 0
  unfold createNode
  rcases hr : recycle pipes with _ | ⟨id, pipes'⟩
  · refine ⟨fun p hp => ?_, ⟨_, by simp; rfl, rfl, (hempty _ _).1, (hempty _ _).2, rfl⟩, ?_⟩
    · simp at hp
    · intro i hi
      dsimp only at hi ⊢
      rcases Nat.lt_or_gt_of_ne hi with hlt | hgt
      · rw [List.getElem?_append_left hlt]
      · rw [List.getElem?_eq_none (by simp; omega), List.getElem?_eq_none (by omega)]
  · have hid0 : ∀ i p, pipes[i]? = some p → p.id = 0 + i := by
      intro i p hp
      rw [Nat.zero_add, hid i p hp]
    obtain ⟨i, p, hi, hp, hfree, rfl⟩ := recycle_eq_some hid0 hr
    rw [Nat.zero_add] at hi
    subst hi
    have hlt := (List.getElem?_eq_some_iff.1 hp).1
    refine ⟨fun q hq => ?_, ⟨_, List.getElem?_set_self hlt, rfl, (hempty _ _).1, (hempty _ _).2,
      hid _ p hp⟩, fun j hj => List.getElem?_set_ne (Ne.symm hj)⟩
    rw [hp, Option.some.injEq] at hq
    rwa [← hq]

/-! ## Refinement -/

/-- Live nodes have pairwise distinct slots, which are taken and in bounds. -/
structure Sys.Inv (s : Sys) : Prop where
  indexed : Indexed s.pipes
  nodup : s.live.Nodup
  taken : ∀ id ∈ s.live, ∃ p, s.pipes[id]? = some p ∧ p.free = false ∧ p.InBounds

theorem Sys.queues_of_mem {s : Sys} {id : Nat} (h : id ∈ s.live) {p : Pipe}
    (hp : s.pipes[id]? = some p) : s.queues id = some p.contents := by
  unfold Sys.queues
  rw [if_pos h, hp]
  rfl

/-- Replacing the pipe behind one live node changes the queue of that node only. -/
theorem Sys.queues_set {s : Sys} {id : Nat} (h : id ∈ s.live) {p : Pipe}
    (hp : s.pipes[id]? = some p) (p' : Pipe) :
    Sys.queues { s with pipes := s.pipes.set id p' } =
      Function.update s.queues id (some p'.contents) := by
  have hlt := (List.getElem?_eq_some_iff.1 hp).1
  funext i
  by_cases hi : i = id
  · subst hi
    rw [Function.update_self]
    exact queues_of_mem (s := { s with pipes := s.pipes.set i p' }) h (List.getElem?_set_self hlt)
  · rw [Function.update_of_ne hi]
    unfold Sys.queues
    rw [List.getElem?_set_ne (Ne.symm hi)]

theorem Sys.Inv.set {s : Sys} (hinv : s.Inv) {id : Nat} {p p' : Pipe}
    (hp : s.pipes[id]? = some p) (hid : p'.id = p.id) (hfree : p'.free = p.free)
    (hin : p'.InBounds) : Sys.Inv { s with pipes := s.pipes.set id p' } := by
  have hlt := (List.getElem?_eq_some_iff.1 hp).1
  refine ⟨fun i q hq => ?_, hinv.nodup, fun i hi => ?_⟩
  · by_cases hi : i = id
    · subst hi
      rw [List.getElem?_set_self hlt, Option.some.injEq] at hq
      rw [← hq, hid, hinv.indexed i p hp]
    · rw [List.getElem?_set_ne (Ne.symm hi)] at hq
      exact hinv.indexed i q hq
  · obtain ⟨q, hq, hqf, hqin⟩ := hinv.taken i hi
    by_cases hi' : i = id
    · subst hi'
      rw [hp, Option.some.injEq] at hq
      subst hq
      exact ⟨p', List.getElem?_set_self hlt, by rw [hfree, hqf], hin⟩
    · exact ⟨q, by rw [List.getElem?_set_ne (Ne.symm hi'), hq], hqf, hqin⟩

theorem Sys.queues_createNode {s : Sys} (hinv : s.Inv) :
    Sys.Inv ⟨(createNode s.pipes).2, (createNode s.pipes).1 :: s.live⟩ ∧
      s.queues (createNode s.pipes).1 = none ∧
      Sys.queues ⟨(createNode s.pipes).2, (createNode s.pipes).1 :: s.live⟩ =
        Function.update s.queues (createNode s.pipes).1 (some []) := by
  obtain ⟨hold, ⟨p, hp, hfree, hin, hcontents, hpid⟩, hother⟩ := createNode_spec hinv.indexed
  set id := (createNode s.pipes).1
  have hnew : id ∉ s.live := by
    intro hmem
    obtain ⟨q, hq, hqf, -⟩ := hinv.taken id hmem
    rw [hold q hq] at hqf
    contradiction
  refine ⟨⟨fun i q hq => ?_, List.nodup_cons.2 ⟨hnew, hinv.nodup⟩, fun i hi => ?_⟩,
    if_neg hnew, ?_⟩
  · by_cases hi : i = id
    · rw [hi, hp, Option.some.injEq] at hq
      rw [← hq, hpid, hi]
    · rw [hother i hi] at hq
      exact hinv.indexed i q hq
  · by_cases hid : i = id
    · exact ⟨p, by rw [hid, hp], hfree, hin⟩
    · rw [hother i hid]
      exact hinv.taken i (List.mem_of_ne_of_mem hid hi)
  · funext i
    by_cases hi : i = id
    · rw [hi, Function.update_self, ← hcontents]
      exact queues_of_mem (s := ⟨_, id :: s.live⟩) List.mem_cons_self hp
    · rw [Function.update_of_ne hi]
      simp only [Sys.queues, List.mem_cons, hi, false_or, hother i hi]

theorem Sys.queues_destroyNode {s : Sys} (hinv : s.Inv) {id : Nat} (hid : id ∈ s.live) {p : Pipe}
    (hp : s.pipes[id]? = some p) :
    Sys.Inv ⟨s.pipes.set id { p with free := true }, s.live.erase id⟩ ∧
      Sys.queues ⟨s.pipes.set id { p with free := true }, s.live.erase id⟩ =
        Function.update s.queues id none := by
  have hlt := (List.getElem?_eq_some_iff.1 hp).1
  refine ⟨⟨fun i q hq => ?_, hinv.nodup.erase id, fun i hi => ?_⟩, ?_⟩
  · by_cases hi : i = id
    · subst hi
      rw [List.getElem?_set_self hlt, Option.some.injEq] at hq
      rw [← hq, ← hinv.indexed i p hp]
    · rw [List.getElem?_set_ne (Ne.symm hi)] at hq
      exact hinv.indexed i q hq
  · rw [hinv.nodup.mem_erase_iff] at hi
    rw [List.getElem?_set_ne (Ne.symm hi.1)]
    exact hinv.taken i hi.2
  · funext i
    have hmem : i ∈ s.live.erase id ↔ i ≠ id ∧ i ∈ s.live := hinv.nodup.mem_erase_iff
    by_cases hi : i = id
    · subst hi
      simp [Sys.queues, hmem]
    · simp [Sys.queues, hmem, hi, List.getElem?_set_ne (Ne.symm hi)]

/-- **One step.** A step through a live node has an outcome; it keeps the invariant and is a step
of the queues. -/
theorem Sys.step_refines {s : Sys} (hinv : s.Inv) {c : Call} (hc : c.On s.live) :
    ∃ r s', s.step c = .ok (r, s') ∧ s'.Inv ∧ QStep s.queues c r s'.queues := by
  cases c with
  | createNode =>
    obtain ⟨hinv', hnone, hq⟩ := queues_createNode hinv
    refine ⟨.created (createNode s.pipes).1,
      ⟨(createNode s.pipes).2, (createNode s.pipes).1 :: s.live⟩, rfl, hinv', ?_⟩
    rw [hq]
    exact .create hnone
  | destroyNode id =>
    obtain ⟨p, hp, -, -⟩ := hinv.taken id hc
    obtain ⟨hinv', hq⟩ := queues_destroyNode hinv hc hp
    refine ⟨.destroyed, _, ?_, hinv', ?_⟩
    · simp only [Sys.step, destroyNode, hp]
      rfl
    · rw [hq]
      exact .destroy (queues_of_mem hc hp)
  | read id user n =>
    obtain ⟨p, hp, -, hin⟩ := hinv.taken id hc
    have hqueue := queues_of_mem hc hp
    obtain ⟨out, hread, hspec⟩ := p.read_spec hin user n
    cases hspec with
    | @ok p' user' hacc hin' hid hfree hcontents hbytes =>
      refine ⟨.got (p.contents.take (min n p.stored)), { s with pipes := s.pipes.set id p' }, ?_,
        hinv.set hp hid hfree hin', ?_⟩
      · rw [← hbytes]
        simp only [Sys.step, readPipe, hp, hread]
        rfl
      · rw [queues_set hc hp, hcontents, ← p.length_contents]
        exact .read hqueue (by rwa [p.length_contents])
    | @fail user' hacc =>
      refine ⟨.invalidBuffer, { s with pipes := s.pipes.set id p }, ?_,
        hinv.set hp rfl rfl hin, ?_⟩
      · simp only [Sys.step, readPipe, hp, hread]
        rfl
      · rw [queues_set hc hp, ← hqueue, Function.update_eq_self]
        exact .readFail hqueue (by rwa [p.length_contents])
  | write id user n =>
    obtain ⟨p, hp, -, hin⟩ := hinv.taken id hc
    have hqueue := queues_of_mem hc hp
    obtain ⟨out, hwrite, hspec⟩ := p.write_spec hin user n
    cases hspec with
    | @ok p' hacc hin' hid hfree hcontents =>
      refine ⟨.wrote (min n p.room), { s with pipes := s.pipes.set id p' }, ?_,
        hinv.set hp hid hfree hin', ?_⟩
      · simp only [Sys.step, writePipe, hp, hwrite]
        rfl
      · rw [queues_set hc hp, hcontents]
        unfold Pipe.room at hacc ⊢
        rw [← p.length_contents] at hacc ⊢
        exact .write hqueue hacc
    | @fail p' hacc hin' hid hfree hcontents =>
      refine ⟨.invalidBuffer, { s with pipes := s.pipes.set id p' }, ?_,
        hinv.set hp hid hfree hin', ?_⟩
      · simp only [Sys.step, writePipe, hp, hwrite]
        rfl
      · rw [queues_set hc hp, hcontents, ← hqueue, Function.update_eq_self]
        unfold Pipe.room at hacc
        rw [← p.length_contents] at hacc
        exact .writeFail hqueue hacc

/-- **Every run.** The invariant holds after it, and the queues make the same run. -/
theorem Runs.refines {s s' : Sys} {trace : List (Call × Reply)} (h : Runs s trace s')
    (hinv : s.Inv) : s'.Inv ∧ QRuns s.queues trace s'.queues := by
  induction h with
  | refl => exact ⟨hinv, .refl _⟩
  | step _ hc hstep ih =>
    obtain ⟨hinv₁, hq₁⟩ := ih
    obtain ⟨r, s₂, hstep', hinv₂, hq⟩ := Sys.step_refines hinv₁ hc
    rw [hstep, Except.ok.injEq, Prod.mk.injEq] at hstep'
    obtain ⟨rfl, rfl⟩ := hstep'
    exact ⟨hinv₂, hq₁.step hq⟩

/-- The file system before the first pipe. -/
def Sys.start : Sys := ⟨[], []⟩

theorem Sys.start_inv : Sys.start.Inv :=
  ⟨fun i p hp => by simp [start] at hp, List.nodup_nil, fun id hid => by simp [start] at hid⟩

/-- **Pipes are bounded queues.** Whatever pipes are created, destroyed, read and written, with
whatever buffers, the queues started empty make the same run with the same replies. No two live
nodes share a pipe, both positions stay inside the buffer, and no step through a live node faults
or blocks. -/
theorem pipe_refines_queues {trace : List (Call × Reply)} {s : Sys}
    (h : Runs Sys.start trace s) :
    QRuns (fun _ => none) trace s.queues ∧ s.live.Nodup ∧
      (∀ id ∈ s.live, ∃ p, s.pipes[id]? = some p ∧ s.queues id = some p.contents ∧
        p.contents.length ≤ 4095 ∧ p.readPos < 4096 ∧ p.writePos < 4096) ∧
      ∀ c : Call, c.On s.live → ∃ r s', s.step c = .ok (r, s') := by
  obtain ⟨hinv, hq⟩ := h.refines Sys.start_inv
  have hstart : Sys.start.queues = fun _ => none := by
    funext id
    simp [Sys.queues, Sys.start]
  rw [hstart] at hq
  refine ⟨hq, hinv.nodup, fun id hid => ?_, fun c hc => ?_⟩
  · obtain ⟨p, hp, -, hin⟩ := hinv.taken id hid
    refine ⟨p, hp, Sys.queues_of_mem hid hp, ?_, hin.readPos_lt, hin.writePos_lt⟩
    have hlt : p.stored < 4096 := Nat.mod_lt _ (Nat.zero_lt_succ _)
    rw [p.length_contents]
    omega
  · obtain ⟨r, s', hstep, -, -⟩ := Sys.step_refines hinv hc
    exact ⟨r, s', hstep⟩

/-- Two bytes written and one read back, through memory that is accessible. -/
theorem pipe_refines_queues_write_read :
    ∃ s, Runs Sys.start
        [(.createNode, .created 0), (.write 0 ⟨fun _ => true, fun _ => 7⟩ 2, .wrote 2),
          (.read 0 ⟨fun _ => true, fun _ => 0⟩ 1, .got [7])] s ∧
      QRuns (fun _ => none)
        [(.createNode, .created 0), (.write 0 ⟨fun _ => true, fun _ => 7⟩ 2, .wrote 2),
          (.read 0 ⟨fun _ => true, fun _ => 0⟩ 1, .got [7])] s.queues := by
  have hrun := (((Runs.refl Sys.start).step (c := .createNode) trivial rfl).step
    (c := .write 0 ⟨fun _ => true, fun _ => 7⟩ 2) List.mem_cons_self rfl).step
    (c := .read 0 ⟨fun _ => true, fun _ => 0⟩ 1) List.mem_cons_self rfl
  exact ⟨_, hrun, (pipe_refines_queues hrun).1⟩

end ChenixOS.PipeFS
