import ChenixOS.Lib.Links
import ChenixOS.Lib.View
import Mathlib.Algebra.Group.Nat.Defs

/-!
# Intrusive lists and the free list

`ktl::AnchorList` threads a doubly linked list through anchors that its members carry, and
`ktl::FreeList` is such a list whose members are the free segments of a memory, each described by
a header in its own first bytes.

A `FreeListSegment` at address `p` has the words `anchor.next`, `anchor.prev`, `base` and `size`
at `p`, `p + 8`, `p + 16` and `p + 24`. The null pointer is `0`. Arithmetic on words is modulo
`2 ^ 64`. The functions are over a `View`, since the physical memory and the kernel heap keep
their lists in differently mapped memory; `none` is a fault, or a loop that does not end.
-/

namespace ChenixOS

/-- One more than the largest 64-bit word. -/
def wordSize : Nat := 2 ^ 64

/-- A walk that has not met the null pointer after as many nodes as there are addresses has met
some node twice and never ends. -/
def walkLimit : Nat := wordSize

/-- A list (`m_Head`, `m_Tail`) together with the state that holds its nodes. -/
structure FreeList (σ : Type) where
  mem : σ
  head : Nat
  tail : Nat

namespace FreeList

variable {σ : Type} (V : View σ)

/-! ## Fields of a segment -/

/-- `anchor.next` -/
def getNext (s : σ) (p : Nat) : Option Nat := V.load s p

/-- `anchor.prev` -/
def getPrev (s : σ) (p : Nat) : Option Nat := V.load s (p + 8)

/-- `base` -/
def getBase (s : σ) (p : Nat) : Option Nat := V.load s (p + 16)

/-- `size` -/
def getSize (s : σ) (p : Nat) : Option Nat := V.load s (p + 24)

def setNext (s : σ) (p v : Nat) : Option σ := V.store s p v

def setPrev (s : σ) (p v : Nat) : Option σ := V.store s (p + 8) v

def setBase (s : σ) (p v : Nat) : Option σ := V.store s (p + 16) v

def setSize (s : σ) (p v : Nat) : Option σ := V.store s (p + 24) v

/-! ## `AnchorList` -/

def pushBack (l : FreeList σ) (t : Nat) : Option (FreeList σ) := do
  let mem ← setNext V l.mem t 0
  let mem ← setPrev V mem t l.tail
  if l.head = 0 then
    some { mem := mem, head := t, tail := t }
  else
    let mem ← setNext V mem l.tail t
    some { mem := mem, head := l.head, tail := t }

/-- First half of `erase(const Iterator&)`: what comes before the node points past it. -/
def skipForward (l : FreeList σ) (t : Nat) : Option (FreeList σ) := do
  let prev ← getPrev V l.mem t
  let next ← getNext V l.mem t
  if prev ≠ 0 then (setNext V l.mem prev next).map fun mem => { l with mem := mem }
  else some { l with head := next }

/-- Second half: what comes after the node points back past it. -/
def skipBackward (l : FreeList σ) (t : Nat) : Option (FreeList σ) := do
  let next ← getNext V l.mem t
  let prev ← getPrev V l.mem t
  if next ≠ 0 then (setPrev V l.mem next prev).map fun mem => { l with mem := mem }
  else some { l with tail := prev }

/-- `erase(const Iterator&)` -/
def eraseAt (l : FreeList σ) (t : Nat) : Option (FreeList σ) := do
  let l ← skipForward V l t
  skipBackward V l t

/-- The first node of the list that passes the test, or null. -/
def seek (l : FreeList σ) (test : Nat → Option Bool) : Option Nat :=
  Links.seek (getNext V l.mem) test 0 walkLimit l.head

/-- `erase(const T*)` -/
def erase (l : FreeList σ) (t : Nat) : Option (FreeList σ) := do
  let a ← seek V l fun a => some (a == t)
  if a = 0 then some l else eraseAt V l a

/-! ## `FreeList` -/

/-- The first free segment with room for `size` bytes, or null. -/
def findFree (l : FreeList σ) (size : Nat) : Option Nat :=
  seek V l fun seg => do some (decide (size ≤ (← getSize V l.mem seg)))

/-- Does the segment at `tmp` begin at `end` or end at `start`? -/
def touches (s : σ) (start «end» tmp : Nat) : Option Bool := do
  let base ← getBase V s tmp
  let size ← getSize V s tmp
  some (base == «end» || (base + size) % wordSize == start)

/-- Merge the segment at `cmp` with a neighbour, as long as it has one. Each merge takes one node
off the list. -/
def joinAdjacentLoop : Nat → FreeList σ → Nat → Option (FreeList σ)
  | 0, _, _ => none
  | fuel + 1, l, cmp => do
    let start ← getBase V l.mem cmp
    let size ← getSize V l.mem cmp
    let «end» := (start + size) % wordSize
    let tmp ← seek V l (touches V l.mem start «end»)
    if tmp = 0 then
      some l
    else
      let base ← getBase V l.mem tmp
      let tmpSize ← getSize V l.mem tmp
      if base = «end» then
        let mem ← setSize V l.mem cmp ((size + tmpSize) % wordSize)
        let l ← erase V { l with mem := mem } tmp
        joinAdjacentLoop fuel l cmp
      else
        let mem ← setSize V l.mem tmp ((tmpSize + size) % wordSize)
        let l ← erase V { l with mem := mem } cmp
        joinAdjacentLoop fuel l tmp

def joinAdjacent (l : FreeList σ) (cmp : Nat) : Option (FreeList σ) :=
  joinAdjacentLoop V walkLimit l cmp

def markFree (l : FreeList σ) (base size : Nat) : Option (FreeList σ) := do
  let mem ← setBase V l.mem base base
  let mem ← setSize V mem base size
  let l ← pushBack V { l with mem := mem } base
  joinAdjacent V l base

def markUsed (l : FreeList σ) (base size : Nat) : Option (FreeList σ) := do
  let l ← erase V l base
  let nodeSize ← getSize V l.mem base
  if size < nodeSize then
    let newNode := (base + size) % wordSize
    let nodeBase ← getBase V l.mem base
    let mem ← setBase V l.mem newNode ((nodeBase + size) % wordSize)
    let nodeSize ← getSize V mem base
    let mem ← setSize V mem newNode ((nodeSize + wordSize - size) % wordSize)
    let l ← pushBack V { l with mem := mem } newNode
    joinAdjacent V l newNode
  else
    some l

/-- `FindFree`, followed by `MarkUsed` when there is such a segment: how the list is used. -/
def take (l : FreeList σ) (size : Nat) : Option (Nat × FreeList σ) := do
  let p ← findFree V l size
  if p = 0 then some (0, l) else (markUsed V l p size).map fun l => (p, l)

end FreeList

end ChenixOS
