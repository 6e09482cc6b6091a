import ChenixOS.Lib.Strings
import ChenixOS.Lib.Transitions

/-!
# The shell

The line editor of the shell and its history of commands, `Programs/Shell/main.cpp`. A line is typed into
`g_CmdBuffer`, a command is remembered in the last row of `g_History` and then cut into words in place, and the up
and down keys recall rows.

An access outside of the arrays gives `none`. What is printed and what the commands do is left out: neither the
functions of the shell nor its child process change these variables.
-/

namespace ChenixOS.Shell

open Buffer

/-- The rows of `g_History`. -/
def historyRows : Nat := 1024

/-- `sizeof(g_CmdBuffer)`, and the length of a row. -/
def lineSize : Nat := 128

/-- `sizeof(g_History)` -/
def historySize : Nat := historyRows * lineSize

/-- Where row `i` of `g_History` begins. -/
def row (i : Nat) : Nat := i * lineSize

def space : UInt8 := 32

def quote : UInt8 := 34

structure Shell where
  history : Nat → UInt8
  historyMinIndex : Nat
  historyIndex : Nat
  cmdBuffer : Nat → UInt8
  cmdBufferIndex : Nat
  killed : Bool
  /-- `exit` was called. -/
  exited : Bool

def start : Shell where
  history _ := 0
  historyMinIndex := 1024
  historyIndex := 1024
  cmdBuffer _ := 0
  cmdBufferIndex := 0
  killed := false
  exited := false

namespace Shell

variable (s : Shell)

/-- `for(int i = 0; i < 128; i++) g_CmdBuffer[i] = 0; g_CmdBufferIndex = 0;` -/
def clearLine : Shell :=
  { s with cmdBuffer := paste s.cmdBuffer 0 lineSize fun _ => 0, cmdBufferIndex := 0 }

def handleBackspace : Option Shell :=
  if s.cmdBufferIndex > 0 then do
    let cmdBuffer ← write lineSize s.cmdBuffer (s.cmdBufferIndex - 1) 0
    some { s with cmdBuffer := cmdBuffer, cmdBufferIndex := s.cmdBufferIndex - 1 }
  else some s

/-- `strlen(g_CmdBuffer)` -/
def length : Option Nat := count lineSize (fun c => decide (c ≠ 0)) s.cmdBuffer 0 (lineSize + 1) 0

/-- `strcmp(g_History[1023], g_CmdBuffer) == 0` -/
def repeats : Option Bool := sameString 0 historySize s.history lineSize s.cmdBuffer (lineSize + 1) (row 1023) 0

/-- The part of `HandleCommand` that puts the command into the history. Where row 0 is in use, the rows would be
moved to `g_History[-1]`. -/
def remember : Option Shell :=
  match s.historyMinIndex with
  | 0 => none
  | min + 1 => do
    let history ← copyBlocks historySize 1 (128 * (1024 - (min + 1))) (row min) (row (min + 1)) s.history
    let history ← copyString 0 historySize (row 1023) lineSize 0 s.cmdBuffer lineSize 0 history
    some { s with history := history, historyMinIndex := min }

end Shell

/-! ## Words -/

/-- `GetToken`: where the word begins, if there is one, where to go on, and the buffer with the end of the word. -/
def getToken (b : Nat → UInt8) (buf : Nat) : Option (Option Nat × Nat × (Nat → UInt8)) := do
  let n ← count lineSize (fun c => decide (c = space)) b buf (lineSize + 1) 0
  let buf := buf + n
  let c ← read lineSize b buf
  if c = 0 then some (none, buf, b)
  else do
    let quotedMode := decide (c = quote)
    let buf := if quotedMode then buf + 1 else buf
    let res := buf
    let n ← count lineSize (fun c => decide (c ≠ (if quotedMode then quote else space) ∧ c ≠ 0)) b buf (lineSize + 1) 0
    let buf := buf + n
    let c ← read lineSize b buf
    if c = 0 then some (some res, buf, b)
    else do
      let b ← write lineSize b buf 0
      some (some res, buf + 1, b)

/-- The loop over the words, with room for `room` more arguments. -/
def getTokens : Nat → (Nat → UInt8) → Nat → Option (List Nat × (Nat → UInt8))
  | 0, b, buf => do
    let (arg, _, b) ← getToken b buf
    match arg with
    | none => some ([], b)
    | some _ => none
  | room + 1, b, buf => do
    let (arg, buf, b) ← getToken b buf
    match arg with
    | none => some ([], b)
    | some arg => do
      let (argv, b) ← getTokens room b buf
      some (arg :: argv, b)

/-- `strcmp(&b[pos], word) == 0` -/
def isWord (b : Nat → UInt8) : Nat → List UInt8 → Option Bool
  | pos, [] => do
    let c ← read lineSize b pos
    some (decide (c = 0))
  | pos, a :: word => do
    let c ← read lineSize b pos
    if c = a then isWord b (pos + 1) word else some false

/-- `"exit"` -/
def exitWord : List UInt8 := [101, 120, 105, 116]

namespace Shell

variable (s : Shell)

/-- All commands but `exit` leave the variables as they are. -/
def handleCommand : Option Shell :=
  if s.cmdBufferIndex = 0 then some s
  else do
    let isLast ← (if s.historyMinIndex = 1024 then some false else s.repeats)
    let s ← (if isLast then some s else s.remember)
    let (argv, cmdBuffer) ← getTokens 100 s.cmdBuffer 0
    let s := { s with cmdBuffer := cmdBuffer }
    match argv with
    | [] => some s
    | arg :: _ => do
      if ← isWord s.cmdBuffer arg exitWord then some { s with exited := true } else some s.clearLine

/-- `strcpy(g_CmdBuffer, g_History[g_HistoryIndex]); g_CmdBufferIndex = strlen(g_CmdBuffer);` -/
def fetch (historyIndex : Nat) : Option Shell := do
  let cmdBuffer ← copyString 0 lineSize 0 historySize (row historyIndex) s.history historySize 0 s.cmdBuffer
  let s := { s with historyIndex := historyIndex, cmdBuffer := cmdBuffer }
  let n ← s.length
  some { s with cmdBufferIndex := n }

/-- What `main` does with a character. -/
def input (c : UInt8) : Option Shell :=
  if c = 8 then handleBackspace { s with historyIndex := 1024 }
  else if c = 10 then handleCommand { s with historyIndex := 1024 }
  else if c = 1 then
    if s.historyIndex > s.historyMinIndex then do
      let _ ← s.length
      s.fetch (s.historyIndex - 1)
    else some s
  else if c = 2 then
    if s.historyIndex < 1023 then do
      let _ ← s.length
      s.fetch (s.historyIndex + 1)
    else if s.historyIndex = 1023 then do
      let _ ← s.length
      some { s.clearLine with historyIndex := 1024 }
    else some s
  else do
    let cmdBuffer ← write lineSize s.cmdBuffer s.cmdBufferIndex c
    some { s with historyIndex := 1024, cmdBuffer := cmdBuffer, cmdBufferIndex := s.cmdBufferIndex + 1 }

end Shell

/-- What happens: the handler of a kill notification runs, or the loop of `main` takes a round, with the character
that it reads, if there is one. -/
inductive Event
  | kill
  | round (c : Option {c : UInt8 // c ≠ 0})

def Shell.step (s : Shell) (e : Event) : Option Shell :=
  if s.exited then some s
  else
    match e with
    | .kill => some { s with killed := true }
    | .round c =>
      if s.killed then some { s.clearLine with historyIndex := 1024, killed := false }
      else
        match c with
        | none => some s
        | some c => s.input c

def Shell.run (es : List Event) : Option Shell := Transitions.exec Shell.step es start

end ChenixOS.Shell
