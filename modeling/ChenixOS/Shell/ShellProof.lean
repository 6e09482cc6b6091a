import ChenixOS.Shell.Editor
import Mathlib.Data.List.GetD
import Mathlib.Data.Nat.Find

/-!
# The line editor and its history

**The main result**, `kept_iff`: the shell stays in its arrays and keeps its promise after each event, exactly if it
is prepared for each of them. Three things can go wrong: the line gets longer than its buffer; a character is typed
behind a recalled command that is shorter than the line it replaced, of which the rest becomes a part of the line;
and the 1025th command has no row.
-/

namespace ChenixOS.Shell

open Buffer

variable {b b' : Nat → UInt8} {n m pos : Nat} {line : List UInt8}

theorem lt_lineSize (h : n ≤ 127) : n < lineSize := Nat.lt_succ_of_le h

/-! ## Words -/

/-- A loop over the characters stops in the buffer, if one of them fails the test. -/
theorem exists_count {test : UInt8 → Bool} (hpos : pos ≤ n) (hn : n < lineSize) (hfail : test (b n) = false) :
    ∃ j, count lineSize test b pos (lineSize + 1) 0 = some j ∧ pos + j ≤ n ∧
      (∀ i, i < j → test (b (pos + i)) = true) ∧ test (b (pos + j)) = false := by
  have hex : ∃ j, test (b (pos + j)) = false := ⟨n - pos, by rw [Nat.add_sub_cancel' hpos, hfail]⟩
  have hle : Nat.find hex ≤ n - pos := Nat.find_min' hex (by rw [Nat.add_sub_cancel' hpos, hfail])
  have hpass : ∀ i, i < Nat.find hex → test (b (pos + i)) = true := fun i hi =>
    eq_true_of_ne_false (Nat.find_min hex hi)
  refine ⟨Nat.find hex, ?_, by omega, hpass, Nat.find_spec hex⟩
  exact count_eq (Nat.zero_le _) (fun i _ hi => hpass i hi) (Nat.find_spec hex) (by omega) (by omega)

/-- The part of `getToken` behind the beginning of a word at `start`. -/
theorem cut_spec {stop : UInt8} {start : Nat} (hstart : start ≤ n) (hn : n < lineSize) (hend : b n = 0)
    (hclean : ∀ i, start ≤ i → i < n → b i ≠ 0) :
    ∃ pos' b', (do
        let n ← count lineSize (fun c => decide (c ≠ stop ∧ c ≠ 0)) b start (lineSize + 1) 0
        let buf := start + n
        let c ← read lineSize b buf
        if c = 0 then some (some start, buf, b)
        else do
          let b ← write lineSize b buf 0
          some (some start, buf + 1, b)) = some (some start, pos', b') ∧
      pos' ≤ n ∧ (pos' = n ∨ start < pos' ∧ (b start ≠ stop → start + 2 ≤ pos')) ∧ ∀ i, pos' ≤ i → b' i = b i := by
  obtain ⟨j, hj, hle, hpass, hfail⟩ :=
    @exists_count b n start (fun c => decide (c ≠ stop ∧ c ≠ 0)) hstart hn (by rw [hend]; simp)
  have hread : read lineSize b (start + j) = some (b (start + j)) := read_of_lt (by omega)
  rw [hj, Option.bind_eq_bind, Option.bind_some]
  dsimp only
  rw [hread, Option.bind_eq_bind, Option.bind_some]
  by_cases hlast : b (start + j) = 0
  · have hn' : start + j = n := by
      by_contra hne
      exact hclean _ (by omega) (by omega) hlast
    rw [if_pos hlast, hn']
    exact ⟨n, b, rfl, Nat.le_refl n, Or.inl rfl, fun i _ => rfl⟩
  · have hlt : start + j < n := Nat.lt_of_le_of_ne hle fun heq => hlast (heq ▸ hend)
    rw [if_neg hlast, write_of_lt _ (by omega)]
    refine ⟨start + j + 1, _, rfl, hlt, Or.inr ⟨by omega, fun hne => ?_⟩, fun i hi => Function.update_of_ne (by omega) _ _⟩
    have hpos : j ≠ 0 := by
      rintro rfl
      have hstop := of_decide_eq_false hfail
      exact hstop ⟨hne, hlast⟩
    omega

/-- A word is cut out of the text before the terminator, and with it at least two characters, if anything is left
behind it. -/
theorem getToken_spec (hpos : pos ≤ n) (hn : n < lineSize) (hend : b n = 0) (hclean : ∀ i, pos ≤ i → i < n → b i ≠ 0) :
    (getToken b pos = some (none, n, b) ∧ ∀ i, pos ≤ i → i < n → b i = space) ∨
    ∃ arg pos' b', getToken b pos = some (some arg, pos', b') ∧ arg ≤ n ∧ pos' ≤ n ∧ (pos' = n ∨ pos + 2 ≤ pos') ∧
      (∀ i, pos' ≤ i → b' i = b i) ∧ ¬∀ i, pos ≤ i → i < n → b i = space := by
  obtain ⟨j, hj, hle, hspaces, hother⟩ :=
    @exists_count b n pos (fun c => decide (c = space)) hpos hn (by rw [hend]; decide)
  have hread : read lineSize b (pos + j) = some (b (pos + j)) := read_of_lt (by omega)
  have hword : b (pos + j) ≠ space := of_decide_eq_false hother
  unfold getToken
  rw [hj, Option.bind_eq_bind, Option.bind_some]
  dsimp only
  rw [hread, Option.bind_eq_bind, Option.bind_some]
  by_cases hlast : b (pos + j) = 0
  · have hn' : pos + j = n := by
      by_contra hne
      exact hclean _ (by omega) (by omega) hlast
    rw [if_pos hlast, hn']
    refine Or.inl ⟨rfl, fun i h₁ h₂ => ?_⟩
    have hspace := hspaces (i - pos) (by omega)
    rw [Nat.add_sub_cancel' h₁] at hspace
    exact of_decide_eq_true hspace
  · have hlt : pos + j < n := Nat.lt_of_le_of_ne hle fun heq => hlast (heq ▸ hend)
    have hsome : ¬∀ i, pos ≤ i → i < n → b i = space := fun hall => hword (hall _ (by omega) hlt)
    rw [if_neg hlast]
    by_cases hquote : b (pos + j) = quote
    · obtain ⟨pos', b', hcut, hle', hfar, hkeep⟩ :=
        @cut_spec b n quote (pos + j + 1) hlt hn hend fun i h₁ h₂ => hclean i (by omega) h₂
      refine Or.inr ⟨pos + j + 1, pos', b', ?_, hlt, hle', ?_, hkeep, hsome⟩
      · simp only [hquote, decide_true, if_true]
        exact hcut
      · omega
    · obtain ⟨pos', b', hcut, hle', hfar, hkeep⟩ :=
        @cut_spec b n space (pos + j) hle hn hend fun i h₁ h₂ => hclean i (by omega) h₂
      refine Or.inr ⟨pos + j, pos', b', ?_, hle, hle', ?_, hkeep, hsome⟩
      · simp only [hquote, decide_false, Bool.false_eq_true, if_false]
        exact hcut
      · rcases hfar with hend' | ⟨-, hfar⟩
        · exact Or.inl hend'
        · exact Or.inr (by have := hfar hword; omega)

/-- **Cutting a line into words** stays in the buffer and in `argv`, and leaves what lies behind the line; a line of
spaces has no word and is left as it is. -/
theorem getTokens_spec {room : Nat} (hpos : pos ≤ n) (hn : n < lineSize) (hend : b n = 0)
    (hclean : ∀ i, pos ≤ i → i < n → b i ≠ 0) (hroom : n - pos ≤ 2 * room) :
    ∃ argv b', getTokens room b pos = some (argv, b') ∧ (∀ i, n ≤ i → b' i = b i) ∧ (∀ arg ∈ argv, arg ≤ n) ∧
      (argv = [] ↔ ∀ i, pos ≤ i → i < n → b i = space) ∧ (argv = [] → b' = b) := by
  induction room generalizing pos b with
  | zero =>
    obtain rfl : pos = n := by omega
    rcases getToken_spec hpos hn hend hclean with ⟨hnone, hspaces⟩ | ⟨arg, pos', b', -, -, -, -, -, hword⟩
    · refine ⟨[], b, ?_, fun i _ => rfl, by simp, iff_of_true rfl hspaces, fun _ => rfl⟩
      rw [getTokens, hnone]
      rfl
    · exact absurd (fun i h₁ h₂ => absurd h₁ (by omega)) hword
  | succ room ih =>
    rcases getToken_spec hpos hn hend hclean with ⟨hnone, hspaces⟩ | ⟨arg, pos', b', htoken, harg, hle, hfar, hkeep, hword⟩
    · refine ⟨[], b, ?_, fun i _ => rfl, by simp, iff_of_true rfl hspaces, fun _ => rfl⟩
      rw [getTokens, hnone]
      rfl
    · have hclean' : ∀ i, pos' ≤ i → i < n → b' i ≠ 0 := by
        intro i h₁ h₂
        rw [hkeep i h₁]
        exact hclean i (by omega) h₂
      obtain ⟨argv, b'', hrest, hkeep', hargs, -, -⟩ :=
        ih hle (by rw [hkeep n hle, hend]) hclean' (by omega)
      refine ⟨arg :: argv, b'', ?_, fun i hi => ?_, ?_, iff_of_false (by simp) hword, fun hnil => by simp at hnil⟩
      · rw [getTokens, htoken]
        simp only [Option.bind_eq_bind, Option.bind_some, hrest]
      · rw [hkeep' i hi, hkeep i (by omega)]
      · exact List.forall_mem_cons.2 ⟨harg, hargs⟩

/-- Comparing with a word stops at the terminator at the latest. -/
theorem isWord_isSome {word : List UInt8} (hpos : pos ≤ n) (hn : n < lineSize) (hend : b n = 0) (hword : (0 : UInt8) ∉ word) :
    ∃ res, isWord b pos word = some res := by
  induction word generalizing pos with
  | nil => exact ⟨_, by rw [isWord, read_of_lt (by omega)]; rfl⟩
  | cons a word ih =>
    obtain ⟨hne, hrest⟩ := not_or.1 (List.mem_cons.not.1 hword)
    rw [isWord, read_of_lt (by omega)]
    simp only [Option.bind_eq_bind, Option.bind_some]
    by_cases ha : b pos = a
    · rw [if_pos ha]
      have hlt : pos ≠ n := fun heq => hne (by rw [← ha, heq, hend])
      exact ih (by omega) hrest
    · rw [if_neg ha]
      exact ⟨_, rfl⟩

/-! ## The history -/

variable {h h' : Nat → UInt8} {min i k : Nat} {cmds : List (List UInt8)} {cmd : List UInt8} {s s' : Shell} {ed : Editor}

/-- The rows from `min` on hold the commands. -/
structure Rows (h : Nat → UInt8) (min : Nat) (cmds : List (List UInt8)) : Prop where
  count : min + cmds.length = 1024
  holds : ∀ i (hi : i < cmds.length), Holds 0 h (row (min + i)) cmds[i]
  width : ∀ cmd ∈ cmds, cmd.length ≤ 127

theorem row_le (hi : i ≤ 1023) : row i + 128 ≤ historySize := by
  unfold row historySize lineSize historyRows
  omega

theorem row_lt (hi : i ≤ 1023) (hn : n ≤ 127) : row i + n < historySize := by
  have := row_le hi
  omega

theorem Rows.get (hrows : Rows h min cmds) (hi : i < cmds.length) :
    Holds 0 h (row (min + i)) (cmds.getD i []) ∧ (cmds.getD i []).length ≤ 127 := by
  rw [List.getD_eq_getElem _ _ hi]
  exact ⟨hrows.holds i hi, hrows.width _ (List.getElem_mem hi)⟩

/-- The last row. -/
theorem Rows.last (hrows : Rows h min cmds) (hlast : cmds.getLast? = some cmd) :
    Holds 0 h (row 1023) cmd ∧ cmd.length ≤ 127 := by
  obtain ⟨hlen, hget⟩ : 0 < cmds.length ∧ cmds[cmds.length - 1]? = some cmd := by
    rw [List.getLast?_eq_getElem?] at hlast
    exact ⟨by have := (List.getElem?_eq_some_iff.1 hlast).1; omega, hlast⟩
  obtain ⟨hlt, heq⟩ := List.getElem?_eq_some_iff.1 hget
  have hrow : min + (cmds.length - 1) = 1023 := by
    have := hrows.count
    omega
  have hholds := hrows.holds _ hlt
  rw [hrow, heq] at hholds
  exact ⟨hholds, hrows.width cmd (heq ▸ List.getElem_mem hlt)⟩

/-- **A command is put behind the others**, which move up by a row. -/
theorem Rows.push (hrows : Rows h (min + 1) cmds) (hcmd : Holds 0 b 0 cmd) (hlen : cmd.length ≤ 127) :
    ∃ h₁ h₂, copyBlocks historySize 1 (128 * (1024 - (min + 1))) (row min) (row (min + 1)) h = some h₁ ∧
      copyString 0 historySize (row 1023) lineSize 0 b lineSize 0 h₁ = some h₂ ∧ Rows h₂ min (cmds ++ [cmd]) := by
  have hcount := hrows.count
  have hlast := row_le (Nat.le_refl 1023)
  refine ⟨_, _, copyBlocks_eq ?_ ?_, copyString_eq hcmd ?_ ?_, ?_, ?_, ?_⟩
  · unfold row lineSize
    omega
  · unfold row historySize lineSize historyRows
    omega
  · unfold lineSize
    omega
  · omega
  · rw [List.length_append, List.length_singleton]
    omega
  · intro i hi
    rw [List.length_append, List.length_singleton] at hi
    by_cases hold : i < cmds.length
    · have hi' := hrows.width _ (List.getElem_mem hold)
      rw [List.getElem_append_left hold]
      have hat : row (min + 1 + i) = row (min + i) + 128 := by
        unfold row lineSize
        omega
      refine (hrows.holds i hold).shift fun j hj => ?_
      have hbelow : row (min + i) + j < row 1023 := by
        unfold row lineSize
        omega
      rw [paste_of_lt hbelow]
      obtain ⟨k, hk⟩ : ∃ k, row (min + i) = row min + k := ⟨row (min + i) - row min, by unfold row lineSize; omega⟩
      rw [hat, hk, Nat.add_assoc, paste_of_mem]
      · refine congrArg h ?_
        unfold row lineSize at hk ⊢
        omega
      · unfold row lineSize at hk hbelow
        omega
    · obtain rfl : i = cmds.length := by omega
      have hrow : min + cmds.length = 1023 := by omega
      rw [List.getElem_append_right (Nat.le_refl _), hrow]
      simp only [Nat.sub_self, List.getElem_cons_zero]
      exact hcmd.pasted
  · intro c hc
    rcases List.mem_append.1 hc with hc | hc
    · exact hrows.width c hc
    · rw [List.mem_singleton.1 hc]
      exact hlen

/-! ## Following the editor -/

variable {e : Event} {c : UInt8}

/-- The shell is in the state of the editor. -/
structure Live (s : Shell) (ed : Editor) : Prop where
  line : Holds 0 s.cmdBuffer 0 ed.line
  index : s.cmdBufferIndex = ed.line.length
  short : ed.line.length ≤ 127
  rows : Rows s.history s.historyMinIndex (recent ed.log)
  recalled : s.historyIndex + ed.recalled = 1024
  inside : ed.recalled ≤ (recent ed.log).length
  killed : s.killed = ed.killed
  runs : s.exited = false

theorem Live.sound (hlive : Live s ed) : Sound s ed where
  index := by
    rw [hlive.index]
    exact hlive.short
  ends := by
    have hend := hlive.line.ends
    rwa [Nat.zero_add, ← hlive.index] at hend
  min := hlive.rows.count
  rows := hlive.rows.holds

theorem live_start : Live start Editor.start where
  line := Holds.nil rfl
  index := rfl
  short := Nat.zero_le _
  rows := ⟨rfl, fun i hi => absurd hi (Nat.not_lt_zero i), fun _ hcmd => absurd hcmd List.not_mem_nil⟩
  recalled := rfl
  inside := Nat.le_refl _
  killed := rfl
  runs := rfl

/-- With another string in the line. -/
theorem Live.replaced (hlive : Live s ed) (hline : Holds 0 b 0 line) (hshort : line.length ≤ 127)
    (hrecalled : i + k = 1024) (hle : k ≤ (recent ed.log).length) :
    Live { s with historyIndex := i, cmdBuffer := b, cmdBufferIndex := line.length }
      { ed with line := line, recalled := k } :=
  { hlive with line := hline, index := rfl, short := hshort, recalled := hrecalled, inside := hle }

theorem Live.unrecalled (hlive : Live s ed) : Live { s with historyIndex := 1024 } { ed with recalled := 0 } :=
  { hlive with recalled := rfl, inside := Nat.zero_le _ }

theorem Live.clearLine (hlive : Live s ed) : Live s.clearLine { ed with line := [] } :=
  hlive.replaced (Holds.nil (@paste_of_mem _ s.cmdBuffer 0 lineSize 0 (fun _ => 0) (by decide))) (Nat.zero_le _)
    hlive.recalled hlive.inside

theorem Live.length (hlive : Live s ed) : s.length = some ed.line.length :=
  hlive.line.count_length (lt_lineSize ((Nat.zero_add _).symm ▸ hlive.short))

theorem Live.backspace (hlive : Live s ed) :
    ∃ s', s.handleBackspace = some s' ∧ Live s' { ed with line := ed.line.dropLast } := by
  have hindex := hlive.index
  have hshort := hlive.short
  unfold Shell.handleBackspace
  by_cases hpos : s.cmdBufferIndex > 0
  · have htake := hlive.line.take (n := ed.line.length - 1) (Nat.sub_le _ 1)
    have hlength : ed.line.dropLast.length = s.cmdBufferIndex - 1 := by rw [List.length_dropLast, hindex]
    rw [Nat.zero_add, ← List.dropLast_eq_take, ← hindex] at htake
    rw [if_pos hpos, write_of_lt _ (lt_lineSize (by omega)), ← hlength]
    refine ⟨_, rfl, hlive.replaced ?_ (by omega) hlive.recalled hlive.inside⟩
    rw [hlength]
    exact htake
  · have hnil : ed.line = [] := List.length_eq_zero_iff.1 (by omega)
    rw [if_neg hpos]
    refine ⟨s, rfl, ?_⟩
    rw [hnil, List.dropLast_nil, ← hnil]
    exact hlive

/-- A recalled command replaces the line. -/
theorem Live.fetch (hlive : Live s ed) (hpos : 0 < k) (hle : k ≤ (recent ed.log).length) :
    ∃ s', s.fetch (1024 - k) = some s' ∧ Live s' (ed.fetch k) := by
  have hcount := hlive.rows.count
  have hrow : s.historyMinIndex + ((recent ed.log).length - k) = 1024 - k := by omega
  have hrecalled : 1024 - k + k = 1024 := by omega
  have hlast : 1024 - k ≤ 1023 := by omega
  obtain ⟨hholds, hwidth⟩ := hlive.rows.get (Nat.sub_lt (Nat.lt_of_lt_of_le hpos hle) hpos)
  rw [hrow] at hholds
  unfold Editor.fetch Editor.held
  generalize 1024 - k = r at *
  generalize (recent ed.log).getD ((recent ed.log).length - k) [] = cmd at *
  have hshort : 0 + cmd.length < lineSize := lt_lineSize ((Nat.zero_add _).symm ▸ hwidth)
  have hcopy := @copyString_eq _ _ _ _ _ s.cmdBuffer _ _ 0 _ hholds (row_lt hlast hwidth) hshort
  have hpasted : Holds 0 (paste s.cmdBuffer 0 (cmd.length + 1) fun j => s.history (row r + j)) 0 cmd := hholds.pasted
  have hlength := hpasted.count_length hshort
  unfold Shell.fetch Shell.length
  rw [hcopy]
  simp only [Option.bind_eq_bind, Option.bind_some, hlength]
  exact ⟨_, rfl, hlive.replaced hpasted hwidth hrecalled hle⟩

/-- Whether the line repeats the command before it. -/
theorem Live.repeats (hlive : Live s ed) :
    (if s.historyMinIndex = 1024 then some false else s.repeats) =
      some (decide (ed.log.getLast? = some ed.line)) := by
  have hcount := hlive.rows.count
  rw [← getLast?_recent]
  split
  · next hempty =>
    have hnil : recent ed.log = [] := List.length_eq_zero_iff.1 (by omega)
    rw [hnil]
    rfl
  · next hsome =>
    have hne : recent ed.log ≠ [] := fun hnil => hsome (by
      have : (recent ed.log).length = 0 := congrArg List.length hnil
      omega)
    have hlast := List.getLast?_eq_some_getLast hne
    obtain ⟨hholds, hwidth⟩ := hlive.rows.last hlast
    have hshort := hlive.short
    unfold Shell.repeats
    rw [sameString_eq hholds hlive.line (row_lt (Nat.le_refl _) hwidth) (lt_lineSize (by omega))
      (Nat.lt_succ_of_lt (lt_lineSize hwidth)), hlast]
    simp

/-- The last row holds the line, exactly if the line repeats the last command. -/
theorem Live.same_iff (hlive : Live s ed) (hfull : s.historyMinIndex = 0) :
    (∀ i, i ≤ s.cmdBufferIndex → s.history (row 1023 + i) = s.cmdBuffer i) ↔ ed.log.getLast? = some ed.line := by
  have hcount := hlive.rows.count
  have hne : recent ed.log ≠ [] := fun hnil => by
    have : (recent ed.log).length = 0 := congrArg List.length hnil
    omega
  have hlast := List.getLast?_eq_some_getLast hne
  obtain ⟨hholds, -⟩ := hlive.rows.last hlast
  rw [← getLast?_recent, hlast, Option.some.injEq, hlive.index]
  constructor
  · intro hsame
    refine hholds.unique (hlive.line.shift fun i hi => ?_)
    rw [hsame i hi, Nat.zero_add]
  · intro heq i hi
    rw [heq] at hholds
    obtain hlt | rfl := Nat.lt_or_eq_of_le hi
    · have hchar := hlive.line.chars i hlt
      rw [Nat.zero_add] at hchar
      rw [hholds.chars i hlt, hchar]
    · have hend := hlive.line.ends
      rw [Nat.zero_add] at hend
      rw [hholds.ends, hend]

/-- The history after a command, which is left as it is if the command repeats the last one. -/
theorem Live.remember (hlive : Live s ed) (hroom : 0 < s.historyMinIndex ∨ ed.log.getLast? = some ed.line) :
    ∃ h m, (if decide (ed.log.getLast? = some ed.line) = true then some s else s.remember) =
      some { s with history := h, historyMinIndex := m } ∧ Rows h m (recent (ed.log ++ [ed.line])) := by
  have hcount := hlive.rows.count
  by_cases hlast : ed.log.getLast? = some ed.line
  · refine ⟨s.history, s.historyMinIndex, if_pos (decide_eq_true hlast), ?_⟩
    rw [recent_of_last hlast]
    exact hlive.rows
  · have hpos := hroom.resolve_right hlast
    obtain ⟨m, hm⟩ : ∃ m, s.historyMinIndex = m + 1 := ⟨s.historyMinIndex - 1, by omega⟩
    have hrows := hlive.rows
    rw [hm] at hrows
    obtain ⟨h₁, h₂, hcopy, hstring, hpushed⟩ := hrows.push hlive.line hlive.short
    refine ⟨h₂, m, ?_, ?_⟩
    · rw [if_neg (by simpa using hlast)]
      unfold Shell.remember
      rw [hm]
      simp only [hcopy, hstring, Option.bind_eq_bind, Option.bind_some]
    · rw [recent_concat hlast (by unfold historyRows; omega)]
      exact hpushed

/-- **A command is entered**, if it is empty, finds a row or repeats the last one. -/
theorem Live.enter (hlive : Live s ed) (hrecalled : ed.recalled = 0)
    (hroom : ed.line = [] ∨ 0 < s.historyMinIndex ∨ ed.log.getLast? = some ed.line) :
    ∃ s', s.handleCommand = some s' ∧ (s'.exited = true ∨ Live s' ed.enter) := by
  have hindex := hlive.index
  have hshort := hlive.short
  unfold Shell.handleCommand Editor.enter
  by_cases hnil : ed.line = []
  · rw [if_pos (by rw [hindex, hnil]; rfl), if_pos hnil, ← hrecalled]
    exact ⟨s, rfl, Or.inr hlive⟩
  · have hpos : s.cmdBufferIndex ≠ 0 := fun hzero => hnil (List.length_eq_zero_iff.1 (by omega))
    obtain ⟨h, m, hremember, hrows⟩ := hlive.remember (hroom.resolve_left hnil)
    have hend := hlive.line.ends
    rw [Nat.zero_add] at hend
    have hchars : ∀ i (hi : i < ed.line.length), s.cmdBuffer i = ed.line[i] := by
      intro i hi
      have hchar := hlive.line.chars i hi
      rwa [Nat.zero_add] at hchar
    have hclean : ∀ i, 0 ≤ i → i < ed.line.length → s.cmdBuffer i ≠ 0 := by
      intro i _ hi
      have hne := hlive.line.ne_end hi
      rwa [Nat.zero_add] at hne
    obtain ⟨argv, b', htokens, hkeep, hargs, hspaces, hsame⟩ :=
      @getTokens_spec _ _ _ 100 (Nat.zero_le _) (lt_lineSize hshort) hend hclean (by omega)
    have hblank : argv = [] ↔ (ed.line.all fun c => decide (c = space)) = true := by
      simp only [hspaces, List.all_eq_true, decide_eq_true_eq]
      rw [List.forall_mem_iff_forall_getElem]
      constructor
      · intro hall i hi
        rw [← hchars i hi, hall i (Nat.zero_le i) hi]
      · intro hall i _ hi
        rw [hchars i hi, hall i hi]
    rw [if_neg hpos, hlive.repeats, if_neg hnil]
    simp only [Option.bind_eq_bind, Option.bind_some, hremember, htokens]
    cases argv with
    | nil =>
      rw [if_pos (hblank.1 rfl), hsame rfl]
      exact ⟨_, rfl, Or.inr { hlive with rows := hrows, recalled := hrecalled ▸ hlive.recalled, inside := Nat.zero_le _ }⟩
    | cons arg argv =>
      rw [if_neg fun hall => List.cons_ne_nil arg argv (hblank.2 hall)]
      obtain ⟨res, hres⟩ := @isWord_isSome b' _ arg exitWord (hargs arg List.mem_cons_self) (lt_lineSize hshort)
        ((hkeep _ (Nat.le_refl _)).trans hend) (by decide)
      dsimp only
      rw [hres, Option.bind_some]
      cases res with
      | true => exact ⟨_, rfl, Or.inl rfl⟩
      | false =>
        refine ⟨_, rfl, Or.inr ?_⟩
        exact
          { line := Holds.nil (@paste_of_mem _ b' 0 lineSize 0 (fun _ => 0) (by decide))
            index := rfl
            short := Nat.zero_le _
            rows := hrows
            recalled := hrecalled ▸ hlive.recalled
            inside := Nat.zero_le _
            killed := hlive.killed
            runs := hlive.runs }

/-- Another command has no row. -/
theorem Live.enter_none (hlive : Live s ed) (hline : ed.line ≠ []) (hfull : s.historyMinIndex = 0)
    (hlast : ed.log.getLast? ≠ some ed.line) : s.handleCommand = none := by
  have hpos : s.cmdBufferIndex ≠ 0 := fun hzero => hline (List.length_eq_zero_iff.1 (by rw [← hlive.index, hzero]))
  have hremember : s.remember = none := by
    unfold Shell.remember
    rw [hfull]
  unfold Shell.handleCommand
  rw [if_neg hpos, hlive.repeats]
  simp [hlast, hremember]

theorem Live.up (hlive : Live s ed) : ∃ s', s.input 1 = some s' ∧ Live s' (ed.input 1) := by
  have hcount := hlive.rows.count
  have hrecalled := hlive.recalled
  have h8 : (1 : UInt8) ≠ 8 := by decide
  have h10 : (1 : UInt8) ≠ 10 := by decide
  unfold Shell.input Editor.input Editor.held
  rw [if_neg h8, if_neg h10, if_pos rfl, if_neg h8, if_neg h10, if_pos rfl, hlive.length]
  by_cases hmore : ed.recalled < (recent ed.log).length
  · have hindex : s.historyIndex - 1 = 1024 - (ed.recalled + 1) := by omega
    rw [if_pos (by omega), if_pos hmore, hindex]
    exact hlive.fetch (Nat.succ_pos _) hmore
  · rw [if_neg (by omega), if_neg hmore]
    exact ⟨s, rfl, hlive⟩

theorem Live.down (hlive : Live s ed) : ∃ s', s.input 2 = some s' ∧ Live s' (ed.input 2) := by
  have hinside := hlive.inside
  have hrecalled := hlive.recalled
  have h8 : (2 : UInt8) ≠ 8 := by decide
  have h10 : (2 : UInt8) ≠ 10 := by decide
  have h1 : (2 : UInt8) ≠ 1 := by decide
  unfold Shell.input Editor.input
  rw [if_neg h8, if_neg h10, if_neg h1, if_pos rfl, if_neg h8, if_neg h10, if_neg h1, if_pos rfl, hlive.length]
  by_cases hmore : ed.recalled > 1
  · have hindex : s.historyIndex + 1 = 1024 - (ed.recalled - 1) := by omega
    rw [if_pos (by omega), if_pos hmore, hindex]
    exact hlive.fetch (by omega) (by omega)
  · rw [if_neg (by omega), if_neg hmore]
    by_cases hone : ed.recalled = 1
    · rw [if_pos (by omega), if_pos hone]
      exact ⟨_, rfl, hlive.clearLine.unrecalled⟩
    · rw [if_neg (by omega), if_neg hone]
      exact ⟨s, rfl, hlive⟩

/-- A character is typed. -/
theorem Live.type (hlive : Live s ed) (hc : c ≠ 0) (hroom : s.cmdBufferIndex < 127)
    (hend : s.cmdBuffer (s.cmdBufferIndex + 1) = 0) :
    Live { s with historyIndex := 1024, cmdBuffer := Function.update s.cmdBuffer s.cmdBufferIndex c,
                  cmdBufferIndex := s.cmdBufferIndex + 1 } { ed with line := ed.line ++ [c], recalled := 0 } := by
  have hindex := hlive.index
  have hconcat := hlive.line.concat (c := c) (by rw [Nat.zero_add, ← hindex, hend]) hc
  have hlength : (ed.line ++ [c]).length = s.cmdBufferIndex + 1 := by
    rw [List.length_append, List.length_singleton, hindex]
  rw [Nat.zero_add, ← hindex] at hconcat
  rw [← hlength]
  exact hlive.replaced hconcat (by omega) rfl (Nat.zero_le _)

theorem Live.input_other (hlive : Live s ed) (hother : ¬(c = 8 ∨ c = 1 ∨ c = 2)) (hnewline : c ≠ 10) :
    s.input c = some { s with historyIndex := 1024, cmdBuffer := Function.update s.cmdBuffer s.cmdBufferIndex c,
                              cmdBufferIndex := s.cmdBufferIndex + 1 } ∧
      ed.input c = { ed with line := ed.line ++ [c], recalled := 0 } := by
  have hin : s.cmdBufferIndex < lineSize := lt_lineSize (hlive.index ▸ hlive.short)
  obtain ⟨h8, h1, h2⟩ : c ≠ 8 ∧ c ≠ 1 ∧ c ≠ 2 := by simpa using hother
  unfold Shell.input Editor.input
  rw [if_neg h8, if_neg hnewline, if_neg h1, if_neg h2, write_of_lt _ hin, if_neg h8, if_neg hnewline, if_neg h1,
    if_neg h2]
  exact ⟨rfl, rfl⟩

/-- Whether the shell is prepared for a newline, in terms of the editor. -/
theorem Live.newline_iff (hlive : Live s ed) :
    (s.cmdBufferIndex = 0 ∨ 0 < s.historyMinIndex ∨
        ∀ i, i ≤ s.cmdBufferIndex → s.history (row 1023 + i) = s.cmdBuffer i) ↔
      ed.line = [] ∨ 0 < s.historyMinIndex ∨ ed.log.getLast? = some ed.line := by
  rw [hlive.index, List.length_eq_zero_iff, ← hlive.index]
  refine or_congr Iff.rfl ?_
  obtain hfull | hroom := Nat.eq_zero_or_pos s.historyMinIndex
  · rw [hlive.same_iff hfull]
  · exact iff_of_true (Or.inl hroom) (Or.inl hroom)

theorem Live.newline (hlive : Live s ed)
    (hroom : ed.line = [] ∨ 0 < s.historyMinIndex ∨ ed.log.getLast? = some ed.line) :
    ∃ s', s.input 10 = some s' ∧ (s'.exited = true ∨ Live s' (ed.input 10)) := by
  have h8 : (10 : UInt8) ≠ 8 := by decide
  unfold Shell.input Editor.input
  rw [if_neg h8, if_pos rfl, if_neg h8, if_pos rfl]
  exact hlive.unrecalled.enter rfl hroom

/-- While the shell runs, a character reaches it. -/
theorem Live.step_some {c : {c : UInt8 // c ≠ 0}} (hlive : Live s ed) (hkilled : ed.killed = false) :
    Shell.step s (.round (some c)) = s.input c ∧ ed.step (.round (some c)) = ed.input c := by
  unfold Shell.step Editor.step
  simp [hlive.runs, hlive.killed, hkilled]

/-- **A step that the shell is prepared for** follows the editor. -/
theorem Live.step (hlive : Live s ed) (hprepared : Prepared s e) :
    ∃ s', Shell.step s e = some s' ∧ (s'.exited = true ∨ Live s' (ed.step e)) := by
  have hruns := hlive.runs
  have hkilled := hlive.killed
  cases e with
  | kill => exact ⟨_, if_neg (by simp [hruns]), Or.inr { hlive with killed := rfl }⟩
  | round c =>
    cases hed : ed.killed with
    | true =>
      have hstep : Shell.step s (.round c) = some { s.clearLine with historyIndex := 1024, killed := false } := by
        simp [Shell.step, hruns, hkilled, hed]
      have heditor : ed.step (.round c) = { ed with line := [], recalled := 0, killed := false } := by
        simp [Editor.step, hed]
      rw [hstep, heditor]
      exact ⟨_, rfl, Or.inr { hlive.clearLine.unrecalled with killed := rfl }⟩
    | false =>
      cases c with
      | none =>
        refine ⟨s, ?_, Or.inr ?_⟩
        · simp [Shell.step, hruns, hkilled, hed]
        · simpa [Editor.step, hed] using hlive
      | some c =>
        obtain ⟨c, hc⟩ := c
        have hready := hprepared hruns (hkilled.trans hed)
        obtain ⟨hstep, heditor⟩ := hlive.step_some (c := ⟨c, hc⟩) hed
        dsimp only at hready hstep heditor
        rw [hstep, heditor]
        by_cases hnewline : c = 10
        · subst hnewline
          rw [if_pos rfl] at hready
          exact hlive.newline (hlive.newline_iff.1 hready)
        · rw [if_neg hnewline] at hready
          by_cases hother : c = 8 ∨ c = 1 ∨ c = 2
          · rcases hother with rfl | rfl | rfl
            · obtain ⟨s', hs', hlive'⟩ := hlive.unrecalled.backspace
              exact ⟨s', hs', Or.inr hlive'⟩
            · obtain ⟨s', hs', hlive'⟩ := hlive.up
              exact ⟨s', hs', Or.inr hlive'⟩
            · obtain ⟨s', hs', hlive'⟩ := hlive.down
              exact ⟨s', hs', Or.inr hlive'⟩
          · rw [if_neg hother] at hready
            obtain ⟨hinput, hline⟩ := hlive.input_other hother hnewline
            rw [hinput, hline]
            exact ⟨_, rfl, Or.inr (hlive.type hc hready.1 hready.2)⟩

/-- **A step that it is not prepared for** leaves the arrays or breaks the promise. -/
theorem Live.prepared (hlive : Live s ed) (hstep : Shell.step s e = some s') (hsound : s'.exited = false → Sound s' (ed.step e)) :
    Prepared s e := by
  match e with
  | .kill => trivial
  | .round none => trivial
  | .round (some ⟨c, hc⟩) =>
    intro hruns hkilled
    obtain ⟨hinput, heditor⟩ := hlive.step_some (c := ⟨c, hc⟩) (hlive.killed.symm.trans hkilled)
    dsimp only at hinput heditor ⊢
    rw [hinput] at hstep
    rw [heditor] at hsound
    by_cases hnewline : c = 10
    · subst hnewline
      rw [if_pos rfl, hlive.newline_iff]
      by_contra hroom
      obtain ⟨hline, hfull, hlast⟩ : ed.line ≠ [] ∧ s.historyMinIndex = 0 ∧ ed.log.getLast? ≠ some ed.line := by
        simpa using hroom
      have hnone := hlive.unrecalled.enter_none hline hfull hlast
      have hcommand : s.input 10 = Shell.handleCommand { s with historyIndex := 1024 } := rfl
      rw [hcommand, hnone] at hstep
      cases hstep
    · rw [if_neg hnewline]
      by_cases hother : c = 8 ∨ c = 1 ∨ c = 2
      · rw [if_pos hother]
        trivial
      · obtain ⟨htyped, -⟩ := hlive.input_other hother hnewline
        rw [if_neg hother]
        rw [htyped] at hstep
        cases hstep
        have hsound' := hsound hruns
        have hends := hsound'.ends
        dsimp only at hends
        rw [Function.update_of_ne (Nat.succ_ne_self _)] at hends
        exact ⟨hsound'.index, hends⟩

/-! ## Runs -/

/-- After a run the shell exited, or is in the state of the editor. -/
def Follows (es : List Event) : Prop :=
  ∃ s, Shell.run es = some s ∧ (s.exited = true ∨ Live s (Editor.run es))

theorem run_snoc {es : List Event} (hrun : Shell.run es = some s) : Shell.run (es ++ [e]) = Shell.step s e :=
  Transitions.exec_snoc es hrun

theorem editor_snoc {es : List Event} : Editor.run (es ++ [e]) = (Editor.run es).step e :=
  List.foldl_concat _ _ _ _

theorem step_exited (hexited : s.exited = true) : Shell.step s e = some s := if_pos hexited

theorem prepared_of_exited (hexited : s.exited = true) : Prepared s e := by
  match e with
  | .kill => trivial
  | .round none => trivial
  | .round (some c) =>
    intro hruns
    rw [hexited] at hruns
    cases hruns

theorem Follows.step {es : List Event} (hfollows : Follows es) (hprepared : ∀ s, Shell.run es = some s → Prepared s e) :
    Follows (es ++ [e]) := by
  obtain ⟨s, hrun, hexited | hlive⟩ := hfollows
  · exact ⟨s, (run_snoc hrun).trans (step_exited hexited), Or.inl hexited⟩
  · obtain ⟨s', hstep, hs'⟩ := hlive.step (hprepared s hrun)
    exact ⟨s', (run_snoc hrun).trans hstep, by rwa [editor_snoc]⟩

theorem Follows.kept {es : List Event} (hfollows : Follows es) : Kept es := by
  obtain ⟨s, hrun, hs⟩ := hfollows
  refine ⟨s, hrun, fun hruns => ?_⟩
  rcases hs with hexited | hlive
  · rw [hruns] at hexited
    cases hexited
  · exact hlive.sound

theorem Follows.kept_step_iff {es : List Event} (hfollows : Follows es) :
    Kept (es ++ [e]) ↔ ∀ s, Shell.run es = some s → Prepared s e := by
  refine ⟨fun hkept s hrun => ?_, fun hprepared => (hfollows.step hprepared).kept⟩
  obtain ⟨s₁, hrun₁, hs⟩ := hfollows
  obtain rfl : s₁ = s := Option.some.inj (hrun₁.symm.trans hrun)
  obtain ⟨s', hstep, hsound⟩ := hkept
  rw [run_snoc hrun] at hstep
  rw [editor_snoc] at hsound
  rcases hs with hexited | hlive
  · exact prepared_of_exited hexited
  · exact hlive.prepared hstep hsound

/-- **The shell keeps its promise** after each event of a run, exactly if it is prepared for each of them. -/
theorem kept_iff (es : List Event) :
    (∀ done, done <+: es → Kept done) ↔
      ∀ done e, done ++ [e] <+: es → ∀ s, Shell.run done = some s → Prepared s e :=
  Transitions.forall_prefix_iff ⟨start, rfl, Or.inr live_start⟩ (fun _ => Follows.kept) (fun _ _ => Follows.kept_step_iff)
    (fun _ _ => Follows.step) es

/-- Typing `x` behind the command `a`, which is recalled over the line `abc`. -/
def typedBehind : List Event :=
  [.round (some ⟨97, by decide⟩), .round (some ⟨10, by decide⟩), .round (some ⟨97, by decide⟩),
    .round (some ⟨98, by decide⟩), .round (some ⟨99, by decide⟩), .round (some ⟨1, by decide⟩),
    .round (some ⟨120, by decide⟩)]

/-- The `c` of the line is still there. -/
theorem not_kept_typedBehind : ¬Kept typedBehind := by
  rintro ⟨s, hrun, hsound⟩
  have hlast : (Shell.run typedBehind).map (fun s => (s.exited, s.cmdBuffer s.cmdBufferIndex)) = some (false, 99) := by
    decide +kernel
  rw [hrun, Option.map_some, Option.some.injEq, Prod.mk.injEq] at hlast
  have hends := (hsound hlast.1).ends
  rw [hlast.2] at hends
  revert hends
  decide

end ChenixOS.Shell
