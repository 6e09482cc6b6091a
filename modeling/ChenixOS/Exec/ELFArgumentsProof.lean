import ChenixOS.Exec.ELFArguments
import ChenixOS.Exec.ELFImage
import ChenixOS.Lib.Stack
import Mathlib.Data.List.GetD

/-!
# The arguments on the stack

What `CheckAndPrepare` pushes is a stack of blocks: strings, arrays of pointers and the `ELFProgramInfo`. The kernel
writes to it through the pages in a row that it allocated, and the program sees it below `0x11000`.

**Theorem (`pushArguments_fits`).** All bytes are written to the pages of the stack exactly if they fit.

**Theorem (`checkAndPrepare_arguments_iff`).** If they fit, the program finds its arguments as they were, and an array
of its environment only if the environment is empty: the null pointer is pushed last, so it comes first.
-/

namespace ChenixOS.ELF.Exec

open MemoryManager Stack

variable {α β : Type} {s s' s₀ s₁ : State} {roots F F' G : List Nat} {e r f m n a p bottom : Nat} {buffer : Buffer}
  {content b : List UInt8} {st : Cursor × State} {argv env : List CString} {ps : List Nat}

/-! ## Runs that need room -/

/-- Where the stack ends, for the program. -/
def userTop : Nat := stackBase + 16 * 4096

/-- The run ends, with `Q`, exactly if `n` bytes fit on the stack. -/
def Fit (n : Nat) (run : Option α) (Q : α → Prop) : Prop :=
  65536 < n ∧ run = none ∨ n ≤ 65536 ∧ ∃ a, run = some a ∧ Q a

theorem Fit.bind {run : Option α} {k : α → Option β} {Q : α → Prop} {Q' : β → Prop} (h : Fit m run Q) (hmn : m ≤ n)
    (hk : ∀ a, Q a → Fit n (k a) Q') : Fit n (run.bind k) Q' := by
  rcases h with ⟨hbig, rfl⟩ | ⟨-, a, rfl, hQ⟩
  · exact .inl ⟨Nat.lt_of_lt_of_le hbig hmn, rfl⟩
  · exact hk a hQ

theorem Fit.pure {x : α} {Q : α → Prop} (hn : n ≤ 65536) (hQ : Q x) : Fit n (some x) Q := .inr ⟨hn, x, rfl, hQ⟩

theorem Fit.mono {run : Option α} {Q Q' : α → Prop} (h : Fit n run Q) (hQ : ∀ a, Q a → Q' a) : Fit n run Q' :=
  h.imp_right fun ⟨hn, x, hrun, hq⟩ => ⟨hn, x, hrun, hQ x hq⟩

/-! ## Blocks on the stack -/

/-- **The stack has the bytes `content`**, from the cursor on, and nothing else has changed since `s₀`. -/
structure Stacked (s₀ : State) (bottom : Nat) (st : Cursor × State) (content : List UInt8) : Prop where
  cursor : st.1.virtStack + content.length = bottom + 65536
  fits : content.length ≤ 65536
  size : st.1.size = content.length
  bytes : ∀ i < content.length, st.2.byteAt (st.1.virtStack + i) = content.getD i 0
  other : ∀ x, x < bottom ∨ bottom + 65536 ≤ x → st.2.mem x = s₀.mem x

theorem Stacked.start (s : State) (bottom : Nat) : Stacked s bottom (⟨bottom + 16 * 4096, 0⟩, s) [] :=
  ⟨rfl, Nat.zero_le _, rfl, fun i hi => absurd hi (Nat.not_lt_zero i), fun _ _ => rfl⟩

theorem Stacked.user (h : Stacked s₀ bottom st content) : st.1.user = userTop - content.length := by
  unfold Cursor.user userTop
  rw [h.size]

theorem length_pointerBytes (p : Nat) : (pointerBytes p).length = 8 := rfl

theorem length_flatMap_pointerBytes (ps : List Nat) : (ps.flatMap pointerBytes).length = 8 * ps.length := by
  induction ps with
  | nil => rfl
  | cons p ps ih =>
    rw [List.flatMap_cons, List.length_append, ih, length_pointerBytes, List.length_cons]
    omega

/-- An array with more entries than its block is larger than the stack. -/
theorem not_arrayFits (h : ¬ ArrayFits n) : 65536 < n := by
  by_contra hn
  refine h ?_
  have hnonneg : ¬ (n : Int) < 0 := by omega
  unfold ArrayFits arrayRoom KernelHeap.blockSize KernelHeap.sizeTop wordSize
  rw [if_neg hnonneg]
  omega

section Push

variable (hb : 8 ∣ bottom) (htop : bottom + 65536 ≤ wordSize)

include hb htop

/-- **One block.** -/
theorem push_fits (h : Stacked s₀ bottom st content) (b : List UInt8) :
    Fit (b.length + content.length) (push bottom b st) fun st' => Stacked s₀ bottom st' (b ++ content) := by
  have hcursor := h.cursor
  rw [push]
  by_cases hfit : bottom + b.length ≤ st.1.virtStack
  · rw [if_pos hfit]
    have hend : st.1.virtStack - b.length + b.length ≤ wordSize := by omega
    refine Fit.pure (by omega) ⟨?_, ?_, ?_, fun i hi => ?_, fun x hx => ?_⟩
    · simp only [List.length_append]
      omega
    · rw [List.length_append]
      omega
    · simp only [List.length_append, h.size]
      omega
    · rw [List.length_append] at hi
      dsimp only
      rw [State.byteAt_storeBytes hend]
      by_cases hnew : i < b.length
      · rw [if_pos ⟨Nat.le_add_right _ _, Nat.add_lt_add_left hnew _⟩, Nat.add_sub_cancel_left,
          List.getD_append _ _ _ _ hnew]
      · have haddr : st.1.virtStack - b.length + i = st.1.virtStack + (i - b.length) := by omega
        rw [if_neg fun hin => hnew (by omega), haddr, h.bytes _ (by omega),
          List.getD_append_right _ _ _ _ (Nat.le_of_not_lt hnew)]
    · rw [State.mem_storeBytes hend fun i hi => ?_]
      · exact h.other x hx
      · unfold State.wordOf
        omega
  · rw [if_neg hfit]
    exact .inl ⟨by omega, rfl⟩

/-- **The strings of the arguments.** -/
theorem pushStrings_fits (h : Stacked s₀ bottom st content) (argv : List CString) :
    Fit ((argv.flatMap CString.bytes).length + content.length) (argv.foldrM (fun a r => do
        let st ← push bottom a.bytes r.2
        some (st.1.user :: r.1, st)) (([] : List Nat), st))
      fun r => Stacked s₀ bottom r.2 (argv.flatMap CString.bytes ++ content) ∧
        List.Forall₂ (fun p (a : CString) => Holds userTop (argv.flatMap CString.bytes ++ content) p a.bytes) r.1 argv ∧
        Tiles (userTop - (argv.flatMap CString.bytes ++ content).length) (userTop - content.length)
          (List.zipWith (fun p a => (p, a.bytes.length)) r.1 argv) := by
  induction argv with
  | nil => exact Fit.pure (by simpa using h.fits) ⟨h, .nil, rfl⟩
  | cons a argv ih =>
    rw [List.foldrM_cons]
    refine ih.bind (by simp) fun r ⟨hstacked, hptrs, htiles⟩ => ?_
    refine (push_fits hb htop hstacked a.bytes).bind (by simp [Nat.add_assoc]) fun st' hst' => ?_
    have hcontent :
        (a :: argv).flatMap CString.bytes ++ content = a.bytes ++ (argv.flatMap CString.bytes ++ content) := by
      rw [List.flatMap_cons, List.append_assoc]
    have hfits := hst'.fits
    have hle : (a.bytes ++ (argv.flatMap CString.bytes ++ content)).length ≤ userTop :=
      hfits.trans (by decide)
    rw [hcontent]
    refine Fit.pure (by simpa [Nat.add_assoc] using hfits) ⟨hst', .cons ?_ ?_, ?_, ?_⟩
    · rw [hst'.user]
      exact Holds.last hle
    · exact hptrs.imp fun _ _ hp => hp.push a.bytes
    · exact hst'.user
    · rw [List.length_append] at hle ⊢
      have hlow : userTop - (a.bytes.length + (argv.flatMap CString.bytes ++ content).length) + a.bytes.length =
          userTop - (argv.flatMap CString.bytes ++ content).length := by omega
      rw [hlow]
      exact htiles

/-- The pointers to the arguments. -/
theorem pushPointers_fits (h : Stacked s₀ bottom st content) (ps : List Nat) :
    Fit ((ps.flatMap pointerBytes).length + content.length)
      (ps.foldrM (fun p st => push bottom (pointerBytes p) st) st)
      fun st' => Stacked s₀ bottom st' (ps.flatMap pointerBytes ++ content) := by
  induction ps with
  | nil => exact Fit.pure (by simpa using h.fits) h
  | cons p ps ih =>
    rw [List.foldrM_cons, List.flatMap_cons, List.append_assoc]
    refine ih.bind (by simp) fun st' hst' => ?_
    have hlast := push_fits hb htop hst' (pointerBytes p)
    rwa [List.length_append, ← Nat.add_assoc, ← List.length_append] at hlast

/-- **The arguments.** -/
theorem pushArgv_fits (h : Stacked s₀ bottom st content) (argv : List CString) :
    Fit (8 * argv.length + ((argv.flatMap CString.bytes).length + content.length)) (pushArgv bottom argv st)
      fun st' => ∃ ps : List Nat, ps.length = argv.length ∧
        Stacked s₀ bottom st' (ps.flatMap pointerBytes ++ (argv.flatMap CString.bytes ++ content)) ∧
        List.Forall₂ (fun p (a : CString) => Holds userTop (argv.flatMap CString.bytes ++ content) p a.bytes) ps argv ∧
        Tiles (userTop - (argv.flatMap CString.bytes ++ content).length) (userTop - content.length)
          (List.zipWith (fun p a => (p, a.bytes.length)) ps argv) := by
  rw [pushArgv]
  by_cases harray : ArrayFits argv.length
  · rw [if_pos harray]
    refine (pushStrings_fits hb htop h argv).bind (Nat.le_add_left _ _) fun r ⟨hstacked, hptrs, htiles⟩ => ?_
    have hlen : (r.1.flatMap pointerBytes).length = 8 * argv.length := by
      rw [length_flatMap_pointerBytes, hptrs.length_eq]
    have hloop := pushPointers_fits hb htop hstacked r.1
    rw [hlen, List.length_append] at hloop
    exact hloop.mono fun st' hst' => ⟨r.1, hptrs.length_eq, hst', hptrs, htiles⟩
  · rw [if_neg harray]
    exact .inl ⟨by have hbig := not_arrayFits harray; omega, rfl⟩

/-- The strings of the environment. -/
theorem pushEnvStrings_fits (h : Stacked s₀ bottom st content) (env : List CString) (ps : List Nat) :
    Fit ((env.flatMap CString.bytes).length + content.length) (env.foldlM (fun r a => do
        let st ← push bottom a.bytes r.2
        some (r.1 ++ [st.1.user], st)) (ps, st))
      fun r => r.1.length = ps.length + env.length ∧
        ∃ pre, pre.length = (env.flatMap CString.bytes).length ∧ Stacked s₀ bottom r.2 (pre ++ content) := by
  induction env generalizing st content ps with
  | nil => exact Fit.pure (by simpa using h.fits) ⟨rfl, [], rfl, h⟩
  | cons a env ih =>
    rw [List.foldlM_cons]
    have hstep : Fit (a.bytes.length + content.length) (do
        let st ← push bottom a.bytes st
        some (ps ++ [st.1.user], st))
        fun r => r.1.length = ps.length + 1 ∧ Stacked s₀ bottom r.2 (a.bytes ++ content) :=
      (push_fits hb htop h a.bytes).bind le_rfl fun st' hst' =>
        Fit.pure (by simpa using hst'.fits) ⟨by simp, hst'⟩
    refine hstep.bind (by simp [Nat.add_assoc]) fun r ⟨hlen, hst'⟩ => ?_
    have hrest := ih hst' r.1
    have hsum : (env.flatMap CString.bytes).length + (a.bytes ++ content).length =
        ((a :: env).flatMap CString.bytes).length + content.length := by
      simp only [List.flatMap_cons, List.length_append]
      omega
    rw [hsum] at hrest
    refine hrest.mono fun r' ⟨hlen', pre, hpre, hst''⟩ => ⟨?_, pre ++ a.bytes, ?_, ?_⟩
    · rw [hlen', hlen, List.length_cons]
      omega
    · simp only [List.flatMap_cons, List.length_append, hpre]
      omega
    · rw [List.append_assoc]
      exact hst''

/-- The pointers to the environment. -/
theorem pushEnvPointers_fits (h : Stacked s₀ bottom st content) (ps : List Nat) :
    Fit (8 * ps.length + content.length) (ps.foldlM (fun st p => push bottom (pointerBytes p) st) st)
      fun st' => ∃ pre, pre.length = 8 * ps.length ∧ Stacked s₀ bottom st' (pre ++ content) := by
  induction ps generalizing st content with
  | nil => exact Fit.pure (by simpa using h.fits) ⟨[], rfl, h⟩
  | cons p ps ih =>
    rw [List.foldlM_cons]
    refine (push_fits hb htop h (pointerBytes p)).bind ?_ fun st' hst' => ?_
    · rw [length_pointerBytes, List.length_cons]
      omega
    · have hrest := ih hst'
      have hsum : 8 * ps.length + (pointerBytes p ++ content).length = 8 * (p :: ps).length + content.length := by
        rw [List.length_append, length_pointerBytes, List.length_cons]
        omega
      rw [hsum] at hrest
      refine hrest.mono fun st'' ⟨pre, hpre, hst''⟩ => ⟨pre ++ pointerBytes p, ?_, ?_⟩
      · rw [List.length_append, length_pointerBytes, hpre, List.length_cons]
        omega
      · rw [List.append_assoc]
        exact hst''

/-- **The environment**: the null pointer is at the lowest address. -/
theorem pushEnv_fits (h : Stacked s₀ bottom st content) (env : List CString) :
    Fit (8 * (env.length + 1) + ((env.flatMap CString.bytes).length + content.length)) (pushEnv bottom env st)
      fun st' => ∃ pre, pre.length = 8 * env.length + (env.flatMap CString.bytes).length ∧
        Stacked s₀ bottom st' (pointerBytes 0 ++ (pre ++ content)) := by
  rw [pushEnv]
  by_cases harray : ArrayFits (env.length + 1)
  · rw [if_pos harray]
    refine (pushEnvStrings_fits hb htop h env []).bind (Nat.le_add_left _ _) fun r ⟨hlen, pre, hpre, hst'⟩ => ?_
    rw [List.length_nil, Nat.zero_add] at hlen
    refine (pushEnvPointers_fits hb htop hst' r.1).bind ?_ fun st'' ⟨pre', hpre', hst''⟩ => ?_
    · rw [hlen, List.length_append, hpre]
      omega
    · have hlast := push_fits hb htop hst'' (pointerBytes 0)
      have hsum : (pointerBytes 0).length + (pre' ++ (pre ++ content)).length =
          8 * (env.length + 1) + ((env.flatMap CString.bytes).length + content.length) := by
        rw [length_pointerBytes, List.length_append, List.length_append, hpre', hpre, hlen]
        omega
      rw [hsum] at hlast
      refine hlast.mono fun st₃ hst₃ => ⟨pre' ++ pre, ?_, ?_⟩
      · rw [List.length_append, hpre', hpre, hlen]
      · rw [List.append_assoc]
        exact hst₃
  · rw [if_neg harray]
    exact .inl ⟨by have hbig := not_arrayFits harray; omega, rfl⟩

end Push

/-- The bytes that the arguments take on the stack. -/
def argumentsSize (argv env : List CString) : Nat :=
  40 + (8 * (env.length + 1) + ((env.flatMap CString.bytes).length +
    (8 * argv.length + (argv.flatMap CString.bytes).length)))

/-- The arguments as they are on the stack; `ps` are the pointers to them. -/
def argvBlock (argv : List CString) (ps : List Nat) : List UInt8 :=
  ps.flatMap pointerBytes ++ argv.flatMap CString.bytes

/-- The `ELFProgramInfo`; `mid` is what there is of the environment but for the null pointer. -/
def stackInfo (image : Image) (argv : List CString) (ps : List Nat) (mid : List UInt8) : ELFProgramInfo :=
  { image.progInfo with
    argc := argv.length
    argv := userTop - (argvBlock argv ps).length
    env := userTop - (pointerBytes 0 ++ (mid ++ argvBlock argv ps)).length }

/-- All bytes of the stack. -/
def stackContent (image : Image) (argv : List CString) (ps : List Nat) (mid : List UInt8) : List UInt8 :=
  (stackInfo image argv ps mid).bytes ++ (pointerBytes 0 ++ (mid ++ argvBlock argv ps))

/-- **The stack that a program begins with.** -/
structure Laid (image : Image) (argv env : List CString) (s₀ : State) (bottom : Nat) (regs : Scheduler.Registers)
    (s' : State) (ps : List Nat) (mid : List UInt8) : Prop where
  lengthMid : mid.length = 8 * env.length + (env.flatMap CString.bytes).length
  strings : List.Forall₂ (fun p (a : CString) => Holds userTop (argv.flatMap CString.bytes) p a.bytes) ps argv
  tiles : Tiles (userTop - (argv.flatMap CString.bytes).length) userTop
    (List.zipWith (fun p a => (p, a.bytes.length)) ps argv)
  regs : regs = startRegisters image.entryPoint (userTop - (stackContent image argv ps mid).length)
  stacked : ∃ c, Stacked s₀ bottom (c, s') (stackContent image argv ps mid)

theorem length_infoBytes (info : ELFProgramInfo) : info.bytes.length = 40 := rfl

/-- **All that is pushed.** -/
theorem pushArguments_fits {image : Image} (hbottom : physToKernelPtr image.physStack = bottom) (hb : 8 ∣ bottom)
    (htop : bottom + 65536 ≤ wordSize) (argv env : List CString) (s : State) :
    Fit (argumentsSize argv env) (pushArguments image argv env s)
      fun r => ∃ ps mid, Laid image argv env s bottom r.1 r.2 ps mid := by
  rw [pushArguments, hbottom, argumentsSize]
  refine (pushArgv_fits hb htop (Stacked.start s bottom) argv).bind ?_ fun st ⟨ps, hlen, hst, hptrs, htiles⟩ => ?_
  · simp only [List.length_nil]
    omega
  · rw [List.append_nil] at hst hptrs htiles
    rw [List.length_nil, Nat.sub_zero] at htiles
    have hargv : (argvBlock argv ps).length = 8 * argv.length + (argv.flatMap CString.bytes).length := by
      rw [argvBlock, List.length_append, length_flatMap_pointerBytes, hlen]
    refine (pushEnv_fits hb htop hst env).bind ?_ fun st' ⟨mid, hmid, hst'⟩ => ?_
    · rw [← argvBlock, hargv]
      omega
    · have hinfo : ({ image.progInfo with argc := argv.length, argv := st.1.user, env := st'.1.user } : ELFProgramInfo) =
          stackInfo image argv ps mid := by
        rw [hst.user, hst'.user]
        rfl
      have hsum : (stackInfo image argv ps mid).bytes.length + (pointerBytes 0 ++ (mid ++ argvBlock argv ps)).length =
          40 + (8 * (env.length + 1) + ((env.flatMap CString.bytes).length +
            (8 * argv.length + (argv.flatMap CString.bytes).length))) := by
        rw [length_infoBytes, List.length_append, length_pointerBytes, List.length_append, hmid, hargv]
        omega
      have hlast := push_fits hb htop hst' (stackInfo image argv ps mid).bytes
      rw [← argvBlock, hsum] at hlast
      rw [hinfo]
      refine hlast.bind le_rfl fun st'' hst'' => ?_
      have hfits := hst''.fits
      rw [List.length_append, hsum] at hfits
      exact Fit.pure hfits ⟨ps, mid, hmid, hptrs, htiles, by rw [hst''.user]; rfl, st''.1, hst''⟩

/-! ## What the program sees -/

/-- The word of `n` bytes at an address of the address space. -/
def userWord (s : State) (r : Nat) : (n a : Nat) → Option Nat
  | 0, _ => some 0
  | n + 1, a => do
    let b ← userByte s r a
    let w ← userWord s r n (a + 1)
    some (b.toNat + 256 * w)

/-- The address space has the bytes `b` at `a`. -/
def UserHas (s : State) (r a : Nat) (b : List UInt8) : Prop :=
  ∀ i < b.length, userByte s r (a + i) = some (b.getD i 0)

theorem userWord_of_bytes {v : Nat} (h : ∀ i < n, userByte s r (a + i) = some (Words.byte v i)) :
    userWord s r n a = some (v % 256 ^ n) := by
  induction n generalizing a v with
  | zero => rw [Nat.pow_zero, Nat.mod_one]; rfl
  | succ n ih =>
    have hfirst : userByte s r a = some (Words.byte v 0) := h 0 (Nat.succ_pos n)
    have hrest : userWord s r n (a + 1) = some (v / 256 % 256 ^ n) := ih fun i hi => by
      rw [Nat.add_assoc, Nat.add_comm 1, h (i + 1) (Nat.succ_lt_succ hi), Words.byte_succ]
    rw [userWord, hfirst, hrest]
    simp only [Option.bind_eq_bind, Option.bind_some]
    rw [Words.toNat_byte, Nat.pow_zero, Nat.div_one, Nat.pow_succ', Nat.mod_mul]

/-- A pointer in memory. -/
theorem UserHas.word (h : UserHas s r a (pointerBytes p)) (hn : n ≤ 8) : userWord s r n a = some (p % 256 ^ n) := by
  refine userWord_of_bytes fun i hi => ?_
  rw [h i (Nat.lt_of_lt_of_le hi hn), pointerBytes, List.getD_eq_getElem?_getD, List.getElem?_map,
    List.getElem?_range (Nat.lt_of_lt_of_le hi hn)]
  rfl

/-- The frames of the stack are pages of the address space. -/
theorem StackMapped.frame (hm : StackMapped s₀ s roots F G r f 16) (hr : r ∈ roots) {i : Nat} (hi : i < 16) :
    Frame (f + i * 4096) := hm.inv.frame _ (frameOf_mem_refs hr (hm.mapped i hi))

theorem StackMapped.top (hm : StackMapped s₀ s roots F G r f 16) (hr : r ∈ roots) :
    highMemBase + f + 65536 ≤ wordSize := by
  have hlast := (hm.frame hr (i := 15) (by decide)).top
  unfold highMemBase wordSize
  omega

theorem StackMapped.dvd (hm : StackMapped s₀ s roots F G r f 16) (hr : r ∈ roots) : 8 ∣ highMemBase + f := by
  have hfirst := (hm.frame hr (i := 0) (by decide)).aligned
  unfold highMemBase
  omega

/-- The page tables are as they were before the arguments. -/
theorem StackMapped.frameOf_pushed (hm : StackMapped s₀ s roots F G r f 16) (hr : r ∈ roots)
    (hst : Stacked s (highMemBase + f) st content) (x : Nat) : frameOf st.2 r x = frameOf s r x := by
  refine SameTables.frameOf_eq (fun r' hr' y hy j hj => hst.other _ ?_) hr x
  have hyf := hm.inv.frame y (tables_mem hr' hy)
  by_contra hin
  -- the table would be one of the frames of the stack
  have hya := hyf.aligned
  have hfa := (hm.frame hr (i := 0) (by decide)).aligned
  obtain ⟨i, hi, rfl⟩ : ∃ i < 16, y = f + i * 4096 := ⟨(y - f) / 4096, by omega, by omega⟩
  exact hm.inv.toDistinct.page_not_mem_tables hr hr' (hm.mapped i hi) (pathOf_lt _) rfl hy

/-- **The bytes of the stack, as the program sees them.** -/
theorem StackMapped.userByte_pushed (hm : StackMapped s₀ s roots F G r f 16) (hr : r ∈ roots)
    (hst : Stacked s (highMemBase + f) st content) (hlow : userTop - content.length ≤ a) (hhigh : a < userTop) :
    userByte st.2 r a = some (content.getD (a - (userTop - content.length)) 0) := by
  have hfits := hst.fits
  have hcursor := hst.cursor
  unfold userTop stackBase at *
  obtain ⟨i, hi, hpage⟩ : ∃ i < 16, a / 4096 = i + 1 := ⟨a / 4096 - 1, by omega, by omega⟩
  have hpath : pathOf a = pathOf (stackBase + i * 4096) := by
    rw [pathOf_eq_iff_mod]
    unfold stackBase
    omega
  have hframe : frameOf st.2 r a = some (f + i * 4096) := by
    rw [hm.frameOf_pushed hr hst, frameOf, hpath]
    exact hm.mapped i hi
  have haddr : highMemBase + (f + i * 4096) + a % 4096 =
      st.1.virtStack + (a - (0x1000 + 16 * 4096 - content.length)) := by omega
  rw [userByte, hframe, Option.map_some, haddr, hst.bytes _ (by omega)]

/-- A block of the stack. -/
theorem StackMapped.userHas_pushed (hm : StackMapped s₀ s roots F G r f 16) (hr : r ∈ roots)
    (hst : Stacked s (highMemBase + f) st content) (hb : Holds userTop content p b) : UserHas st.2 r p b := by
  intro i hi
  have hle : content.length ≤ userTop := hst.fits.trans (by decide)
  obtain ⟨hlow, hhigh, heq⟩ := hb.get hle hi 0
  rw [hm.userByte_pushed hr hst hlow hhigh, heq]

/-! ## Arguments and environment -/

theorem UserHas.append {b' : List UInt8} (h : UserHas s r a (b ++ b')) :
    UserHas s r a b ∧ UserHas s r (a + b.length) b' := by
  refine ⟨fun i hi => ?_, fun i hi => ?_⟩
  · rw [h i (by rw [List.length_append]; omega), List.getD_append _ _ _ _ hi]
  · have hindex : b.length + i - b.length = i := Nat.add_sub_cancel_left ..
    rw [Nat.add_assoc, h (b.length + i) (by rw [List.length_append]; omega),
      List.getD_append_right _ _ _ _ (Nat.le_add_right _ _), hindex]

theorem UserHas.wordAt (h : UserHas s r a (ps.flatMap pointerBytes)) (hn : n ≤ 8) {i : Nat} (hi : i < ps.length) :
    userWord s r n (a + 8 * i) = some (ps.getD i 0 % 256 ^ n) := by
  induction ps generalizing a i with
  | nil => exact absurd hi (Nat.not_lt_zero i)
  | cons p ps ih =>
    rw [List.flatMap_cons] at h
    obtain ⟨hfirst, hrest⟩ := h.append
    cases i with
    | zero => exact hfirst.word hn
    | succ i =>
      have haddr : a + 8 * (i + 1) = a + (pointerBytes p).length + 8 * i := by
        rw [length_pointerBytes]
        omega
      rw [haddr, ih hrest (Nat.lt_of_succ_lt_succ hi)]
      rfl

/-- An array of pointers. -/
def PointersAt (s : State) (r a : Nat) (ps : List Nat) : Prop :=
  ∀ i < ps.length, userWord s r 8 (a + 8 * i) = some (ps.getD i 0)

theorem UserHas.pointers (h : UserHas s r a (ps.flatMap pointerBytes)) (hlt : ∀ p ∈ ps, p < wordSize) :
    PointersAt s r a ps := by
  intro i hi
  have hmem : ps.getD i 0 ∈ ps := by
    rw [List.getD_eq_getElem _ _ hi]
    exact List.getElem_mem hi
  have hmod : ps.getD i 0 % 256 ^ 8 = ps.getD i 0 := Nat.mod_eq_of_lt (hlt _ hmem)
  rw [h.wordAt le_rfl hi, hmod]

/-- What lies on the stack: the `ELFProgramInfo`, the two arrays and the strings. -/
def regions (rdi argvAt envAt : Nat) (argPtrs envPtrs : List Nat) (argv env : List CString) : List (Nat × Nat) :=
  (rdi, 40) :: (envAt, 8 * (env.length + 1)) :: (List.zipWith (fun p a => (p, a.bytes.length)) envPtrs env ++
    (argvAt, 8 * argv.length) :: List.zipWith (fun p a => (p, a.bytes.length)) argPtrs argv)

/-- **The program finds its arguments and its environment** from the `ELFProgramInfo` at `rdi`. -/
structure ArgumentsAt (s : State) (r rdi : Nat) (progInfo : ELFProgramInfo) (argv env : List CString)
    (argvAt envAt : Nat) (argPtrs envPtrs : List Nat) : Prop where
  masterTLSAddress : userWord s r 8 rdi = some (progInfo.masterTLSAddress % wordSize)
  masterTLSSize : userWord s r 8 (rdi + 8) = some (progInfo.masterTLSSize % wordSize)
  argcWord : userWord s r 4 (rdi + 16) = some argv.length
  argvWord : userWord s r 8 (rdi + 24) = some argvAt
  envWord : userWord s r 8 (rdi + 32) = some envAt
  argvArray : PointersAt s r argvAt argPtrs
  argStrings : List.Forall₂ (fun p (a : CString) => UserHas s r p a.bytes) argPtrs argv
  envArray : PointersAt s r envAt (envPtrs ++ [0])
  envNotNull : 0 ∉ envPtrs
  envStrings : List.Forall₂ (fun p (a : CString) => UserHas s r p a.bytes) envPtrs env
  apart : (regions rdi argvAt envAt argPtrs envPtrs argv env).Pairwise fun r t => r.1 + r.2 ≤ t.1 ∨ t.1 + t.2 ≤ r.1

/-- The arguments as the registers give them to the program. -/
def ArgumentsRight (s : State) (r : Nat) (regs : Scheduler.Registers) (progInfo : ELFProgramInfo)
    (argv env : List CString) : Prop :=
  ∃ argvAt envAt argPtrs envPtrs, ArgumentsAt s r (regs .rdi).toNat progInfo argv env argvAt envAt argPtrs envPtrs

section Laid

variable {image : Image} {regs : Scheduler.Registers} {mid : List UInt8}

theorem Laid.length (hl : Laid image argv env s₀ bottom regs s ps mid) : (argvBlock argv ps).length =
    8 * argv.length + (argv.flatMap CString.bytes).length := by
  rw [argvBlock, List.length_append, length_flatMap_pointerBytes, hl.strings.length_eq]

theorem length_stackContent (image : Image) (argv : List CString) (ps : List Nat) (mid : List UInt8) :
    (stackContent image argv ps mid).length = 40 + (8 + (mid.length + (argvBlock argv ps).length)) := by
  rw [stackContent, List.length_append, List.length_append, List.length_append, length_infoBytes, length_pointerBytes]

theorem Laid.le (hl : Laid image argv env s₀ bottom regs s ps mid) :
    (stackContent image argv ps mid).length ≤ userTop := by
  obtain ⟨c, hst⟩ := hl.stacked
  exact hst.fits.trans (by decide)

theorem Laid.rdi (hl : Laid image argv env s₀ bottom regs s ps mid) :
    (regs .rdi).toNat = userTop - (stackContent image argv ps mid).length := by
  rw [hl.regs, startRegisters, UInt64.toNat_ofNat']
  exact Nat.mod_eq_of_lt (Nat.lt_of_le_of_lt (Nat.sub_le _ _) (by decide))

/-- Where the parts of the stack are. -/
theorem Laid.parts (hl : Laid image argv env s₀ bottom regs s ps mid) {rdi : Nat} (hrdi : (regs .rdi).toNat = rdi)
    (hhas : UserHas s r rdi (stackContent image argv ps mid)) :
    UserHas s r rdi (stackInfo image argv ps mid).bytes ∧
      (stackInfo image argv ps mid).env = rdi + 40 ∧ UserHas s r (rdi + 40) (pointerBytes 0) ∧
      (stackInfo image argv ps mid).argv = rdi + 48 + mid.length ∧
      UserHas s r (rdi + 48 + mid.length) (argvBlock argv ps) := by
  have hlen := length_stackContent image argv ps mid
  have hle := hl.le
  rw [hl.rdi] at hrdi
  obtain ⟨hinfo, hrest⟩ := hhas.append
  obtain ⟨hnull, hrest⟩ := hrest.append
  obtain ⟨-, hargv⟩ := hrest.append
  rw [length_infoBytes] at hnull hargv
  rw [length_pointerBytes] at hargv
  refine ⟨hinfo, ?_, hnull, ?_, hargv⟩
  · have henv : (stackInfo image argv ps mid).env = userTop - (8 + (mid.length + (argvBlock argv ps).length)) := by
      rw [stackInfo, List.length_append, List.length_append, length_pointerBytes]
    omega
  · have hargv : (stackInfo image argv ps mid).argv = userTop - (argvBlock argv ps).length := rfl
    omega

/-- The members of the `ELFProgramInfo`. -/
theorem UserHas.info {info : ELFProgramInfo} {rdi : Nat} (h : UserHas s r rdi info.bytes) :
    userWord s r 8 rdi = some (info.masterTLSAddress % wordSize) ∧
      userWord s r 8 (rdi + 8) = some (info.masterTLSSize % wordSize) ∧
      userWord s r 4 (rdi + 16) = some ((info.argc % 2 ^ 32).toNat % 256 ^ 4) ∧
      userWord s r 8 (rdi + 24) = some (info.argv % wordSize) ∧
      userWord s r 8 (rdi + 32) = some (info.env % wordSize) := by
  have hword : ∀ i < 5, ∀ n ≤ 8, userWord s r n (rdi + 8 * i) = some ([info.masterTLSAddress, info.masterTLSSize,
      (info.argc % 2 ^ 32).toNat, info.argv, info.env].getD i 0 % 256 ^ n) := fun i hi n hn => h.wordAt hn hi
  exact ⟨hword 0 (by decide) 8 le_rfl, hword 1 (by decide) 8 le_rfl, hword 2 (by decide) 4 (by decide),
    hword 3 (by decide) 8 le_rfl, hword 4 (by decide) 8 le_rfl⟩

/-- **With an environment that is empty** all is found. -/
theorem Laid.argumentsAt (hl : Laid image argv [] s₀ bottom regs s ps mid) (hargc : argv.length < 2 ^ 31)
    (hhas : ∀ p b, Holds userTop (stackContent image argv ps mid) p b → UserHas s r p b) :
    ArgumentsRight s r regs image.progInfo argv [] := by
  obtain rfl : mid = [] := List.eq_nil_of_length_eq_zero hl.lengthMid
  obtain ⟨rdi, hrdi⟩ : ∃ rdi, (regs .rdi).toNat = rdi := ⟨_, rfl⟩
  have hle := hl.le
  have hargvLen := hl.length
  have hdown := hl.rdi
  rw [length_stackContent, List.length_nil, Nat.zero_add] at hle hdown
  have hall : UserHas s r rdi (stackContent image argv ps []) := by
    refine hhas _ _ ⟨[], [], by simp, ?_⟩
    rw [List.append_nil, ← hrdi, hl.rdi, Nat.sub_add_cancel hl.le]
  obtain ⟨hinfo, henv, hnull, hargv, hblock⟩ := hl.parts hrdi hall
  obtain ⟨haddress, hsize, hcount, hargvWord, henvWord⟩ := hinfo.info
  rw [List.length_nil, Nat.add_zero] at hargv hblock
  have htop : userTop < wordSize := by decide
  have hword : ∀ x ≤ userTop, x % wordSize = x := fun x hx => Nat.mod_eq_of_lt (Nat.lt_of_le_of_lt hx htop)
  have hcount' : (((argv.length : Int) % 2 ^ 32).toNat % 256 ^ 4) = argv.length := by omega
  refine ⟨rdi + 48, rdi + 40, ps, [], ?_⟩
  rw [hrdi]
  refine ⟨haddress, hsize, ?_, ?_, ?_, hblock.append.1.pointers ?_, ?_, ?_, List.not_mem_nil, .nil, ?_⟩
  · exact hcount.trans (congrArg some hcount')
  · rw [hargvWord, hargv, hword _ (by omega)]
  · rw [henvWord, henv, hword _ (by omega)]
  · have hlt : ∀ p (a : CString), Holds userTop (argv.flatMap CString.bytes) p a.bytes → p < wordSize := by
      rintro p a ⟨pre, post, -, hp⟩
      exact Nat.lt_of_le_of_lt (Nat.le_of_add_right_le hp.le) htop
    exact ((List.forall₂_and_left _ _).1 (hl.strings.imp fun p a h => And.intro (hlt p a h) h)).1
  · refine hl.strings.imp fun p a h => hhas p a.bytes ?_
    have hpushed := h.push ((stackInfo image argv ps []).bytes ++ (pointerBytes 0 ++ ([] ++ ps.flatMap pointerBytes)))
    simpa only [stackContent, argvBlock, List.append_assoc] using hpushed
  · exact @UserHas.pointers _ _ _ [0] hnull (by decide)
  · have hstart : rdi + 40 + 8 + 8 * argv.length = userTop - (argv.flatMap CString.bytes).length := by omega
    have htiles : Tiles rdi userTop (regions rdi (rdi + 48) (rdi + 40) ps [] argv []) :=
      ⟨rfl, rfl, rfl, hstart ▸ hl.tiles⟩
    exact htiles.pairwise.imp fun h => Or.inl h

/-- With any other the null pointer is the first of the array. -/
theorem Laid.env_eq_nil (hl : Laid image argv env s₀ bottom regs s ps mid)
    (hhas : ∀ p b, Holds userTop (stackContent image argv ps mid) p b → UserHas s r p b)
    (hright : ArgumentsRight s r regs image.progInfo argv env) : env = [] := by
  obtain ⟨argvAt, envAt, argPtrs, envPtrs, hat⟩ := hright
  obtain ⟨rdi, hrdi⟩ : ∃ rdi, (regs .rdi).toNat = rdi := ⟨_, rfl⟩
  have hle := hl.le
  have hdown := hl.rdi
  rw [length_stackContent] at hle hdown
  have hall : UserHas s r rdi (stackContent image argv ps mid) := by
    refine hhas _ _ ⟨[], [], by simp, ?_⟩
    rw [List.append_nil, ← hrdi, hl.rdi, Nat.sub_add_cancel hl.le]
  obtain ⟨hinfo, henv, hnull, -, -⟩ := hl.parts hrdi hall
  obtain ⟨-, -, -, -, henvWord⟩ := hinfo.info
  have htop : userTop < wordSize := by decide
  have hmod : (rdi + 40) % wordSize = rdi + 40 := Nat.mod_eq_of_lt (Nat.lt_of_le_of_lt (by omega) htop)
  rw [hrdi] at hat
  have henvAt : envAt = rdi + 40 := by
    rw [henv, hmod, hat.envWord] at henvWord
    exact Option.some.inj henvWord
  by_contra hne
  obtain ⟨q, qs, hqs⟩ : ∃ q qs, envPtrs = q :: qs := by
    refine List.exists_cons_of_ne_nil fun hnil => hne ?_
    have hlen := hat.envStrings.length_eq
    rw [hnil] at hlen
    exact List.eq_nil_of_length_eq_zero hlen.symm
  have hfirst := hat.envArray 0 (by simp)
  rw [henvAt, Nat.mul_zero, Nat.add_zero, hnull.word le_rfl, hqs] at hfirst
  have hq : q = 0 := (Option.some.inj hfirst).symm
  exact hat.envNotNull (by rw [hqs, hq]; exact List.mem_cons_self)

end Laid

/-- **The whole of `CheckAndPrepare`.** -/
theorem checkAndPrepare_fits (h : Inv s roots F) (hr : pmlGetAddr e ∈ roots) (hs : Startable buffer e s F)
    (argv env : List CString) : Fit (argumentsSize argv env) (checkAndPrepare buffer e argv env s)
      fun res => ∃ regs f s₁ F₁ s₂ F₂ ps mid, res.1 = some regs ∧ StackMapped s₁ s₂ roots F₁ F₂ (pmlGetAddr e) f 16 ∧
        Laid (imageOf buffer f) argv env s₂ (highMemBase + f) regs res.2 ps mid := by
  obtain ⟨f, s₁, F₁, s₂, F₂, hrun, -, hmapped⟩ := prepareImage_mapped h hr hs
  have hbottom : physToKernelPtr (imageOf buffer f).physStack = highMemBase + f := by
    have hframe := (hmapped.frame hr (i := 0) (by decide)).top
    exact physToKernelPtr_eq (p := f) (by omega)
  rw [checkAndPrepare, hrun]
  refine (pushArguments_fits hbottom (hmapped.dvd hr) (hmapped.top hr) argv env s₂).bind le_rfl ?_
  rintro ⟨regs, s'⟩ ⟨ps, mid, hlaid⟩
  refine Fit.pure ?_ ⟨regs, f, s₁, F₁, s₂, F₂, ps, mid, rfl, hmapped, hlaid⟩
  obtain ⟨c, hst⟩ := hlaid.stacked
  have hfits := hst.fits
  rw [length_stackContent, hlaid.length, hlaid.lengthMid] at hfits
  unfold argumentsSize
  omega

/-- **When the program finds its arguments and its environment.** -/
theorem checkAndPrepare_arguments_iff (h : Inv s roots F) (hr : pmlGetAddr e ∈ roots) (hs : Startable buffer e s F)
    (argv env : List CString) (hfit : argumentsSize argv env ≤ 65536) :
    (∃ regs s', checkAndPrepare buffer e argv env s = some (some regs, s') ∧
      ArgumentsRight s' (pmlGetAddr e) regs
        (tlsInfo buffer (List.range (phEntryCount buffer.bytes)) ELFProgramInfo.zero) argv env) ↔ env = [] := by
  rcases checkAndPrepare_fits h hr hs argv env with ⟨hbig, -⟩ | ⟨-, ⟨regs', s'⟩, hrun, regs, f, s₁, F₁, s₂, F₂, ps, mid,
    rfl, hmapped, hlaid⟩
  · omega
  · have hhas : ∀ p b, Holds userTop (stackContent (imageOf buffer f) argv ps mid) p b →
        UserHas s' (pmlGetAddr e) p b := by
      obtain ⟨c, hst⟩ := hlaid.stacked
      exact fun p b => hmapped.userHas_pushed hr hst
    constructor
    · rintro ⟨regs', s'', hrun', hright⟩
      rw [hrun] at hrun'
      obtain ⟨hregs, rfl⟩ := Prod.mk.inj (Option.some.inj hrun')
      obtain rfl := Option.some.inj hregs
      exact hlaid.env_eq_nil hhas hright
    · rintro rfl
      refine ⟨regs, s', hrun, hlaid.argumentsAt ?_ hhas⟩
      unfold argumentsSize at hfit
      omega

def shortString : CString := ⟨[0x61, 0x62], by decide⟩

theorem checkAndPrepare_arguments_userFile : ∃ e s regs s', createProcessMap (boot 25 fun _ => 0) = some (e, s) ∧
    checkAndPrepare userFile e [shortString, shortString] [] s = some (some regs, s') ∧
    ArgumentsRight s' (pmlGetAddr e) regs
      (tlsInfo userFile (List.range (phEntryCount userFile.bytes)) ELFProgramInfo.zero)
      [shortString, shortString] [] := by
  obtain ⟨e, s, F, hcreate, hinv, hs⟩ := startable_userFile
  obtain ⟨regs, s', hrun, hright⟩ :=
    (checkAndPrepare_arguments_iff hinv List.mem_cons_self hs [shortString, shortString] [] (by decide)).2 rfl
  exact ⟨e, s, regs, s', hcreate, hrun, hright⟩

/-- **The environment is not found** by a program that has one. -/
theorem checkAndPrepare_environment_lost : argumentsSize [] [shortString] ≤ 65536 ∧
    ∃ e s regs s', createProcessMap (boot 25 fun _ => 0) = some (e, s) ∧
      checkAndPrepare userFile e [] [shortString] s = some (some regs, s') ∧
      ¬ ArgumentsRight s' (pmlGetAddr e) regs
        (tlsInfo userFile (List.range (phEntryCount userFile.bytes)) ELFProgramInfo.zero) [] [shortString] := by
  have hfit : argumentsSize [] [shortString] ≤ 65536 := by decide
  obtain ⟨e, s, F, hcreate, hinv, hs⟩ := startable_userFile
  rcases checkAndPrepare_fits hinv List.mem_cons_self hs [] [shortString] with
    ⟨hbig, -⟩ | ⟨-, ⟨regs', s'⟩, hrun, regs, f, s₁, F₁, s₂, F₂, ps, mid, rfl, hmapped, hlaid⟩
  · omega
  · refine ⟨hfit, e, s, regs, s', hcreate, hrun, fun hright => ?_⟩
    obtain ⟨c, hst⟩ := hlaid.stacked
    have hnil := hlaid.env_eq_nil (fun p b => hmapped.userHas_pushed List.mem_cons_self hst) hright
    cases hnil

end ChenixOS.ELF.Exec
