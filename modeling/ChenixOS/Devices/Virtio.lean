import ChenixOS.Lib.Interaction
import ChenixOS.Memory.MemoryManager
import Mathlib.Logic.Function.Basic

/-!
# The ring of a virtio queue

A driver hands buffers to a device in a ring of `num` descriptors (drivers/Virtio/VirtioRing.cpp). The free
descriptors and those of each request are linked by their numbers. `AddBuffer` takes the descriptors of a
request off the free ones and writes the first of them into the ring of available requests, which the device
sees after the next `Kick`. The device writes the requests it has finished into the ring of used ones, in any
order, and `GetBuffer` puts the descriptors of the next one back.

The numbers of descriptors are below `num`, which is far below the bounds of their types, so they are natural
numbers here. The three running indices have 16 bits and wrap around.
-/

namespace ChenixOS.Virtio

open MemoryManager

/-- `VRING_DESC_F_NEXT` -/
def descNext : UInt16 := 1

/-- `VRING_DESC_F_WRITE` -/
def descWrite : UInt16 := 2

/-- `vring_desc` -/
structure Desc where
  addr : Nat
  len : UInt32
  flags : UInt16
  next : Nat

/-- `vring_list` -/
structure Buffer where
  addr : Nat
  length : UInt32

/-- `vring_used_item` -/
structure UsedItem where
  id : Nat
  length : UInt32

/-- `vring_virtqueue`, with its `vring`. -/
structure Virtqueue where
  num : Nat
  desc : Nat → Desc
  availIndex : UInt16
  availRing : Nat → Nat
  usedIndex : UInt16
  usedRing : Nat → UsedItem
  free_head : Nat
  last_used_idx : UInt16
  vdata : Nat → UInt16

/-- The constructor of `vring` on zeroed memory: every descriptor is free. -/
def Virtqueue.init (num : Nat) : Virtqueue where
  num := num
  desc i := { addr := 0, len := 0, flags := 0, next := if i + 1 < num then i + 1 else 0 }
  availIndex := 0
  availRing _ := 0
  usedIndex := 0
  usedRing _ := ⟨0, 0⟩
  free_head := 0
  last_used_idx := 0
  vdata _ := 0

/-- Where the two loops of `AddBuffer` are. -/
structure Cursor where
  desc : Nat → Desc
  i : Nat
  prev : Nat

/-- One round of a loop of `AddBuffer`. -/
def Cursor.fill (flags : UInt16) (r : Cursor) (b : Buffer) : Cursor where
  desc := Function.update r.desc r.i
    { r.desc r.i with flags := flags, addr := kernelToPhysPtr b.addr, len := b.length }
  i := (r.desc r.i).next
  prev := r.i

/-- `AddBuffer` for the list `outs ++ ins`. -/
def Virtqueue.addBuffer (vq : Virtqueue) (outs ins : List Buffer) (index num_added : Nat) : Virtqueue :=
  let head := vq.free_head
  let r := outs.foldl (Cursor.fill descNext) ⟨vq.desc, head, 0⟩
  let r := ins.foldl (Cursor.fill (descNext ||| descWrite)) r
  { vq with
    desc := Function.update r.desc r.prev
      { r.desc r.prev with flags := (r.desc r.prev).flags &&& ~~~descNext }
    free_head := r.i
    vdata := Function.update vq.vdata head (UInt16.ofNat index)
    availRing := Function.update vq.availRing ((vq.availIndex.toNat + num_added) % vq.num) head }

/-- `Kick` -/
def Virtqueue.kick (vq : Virtqueue) (num_added : Nat) : Virtqueue :=
  { vq with availIndex := vq.availIndex + UInt16.ofNat num_added }

/-- `MoreUsed` -/
def Virtqueue.moreUsed (vq : Virtqueue) : Bool := vq.last_used_idx ≠ vq.usedIndex

/-- The loop of `Detach`: the last descriptor of a request, if it is found in `fuel` rounds. -/
def lastDesc (desc : Nat → Desc) : Nat → Nat → Option Nat
  | 0, _ => none
  | fuel + 1, i => if (desc i).flags &&& descNext ≠ 0 then lastDesc desc fuel (desc i).next else some i

/-- `Detach` -/
def Virtqueue.detach (vq : Virtqueue) (head : Nat) : Option Virtqueue :=
  (lastDesc vq.desc vq.num head).map fun i =>
    { vq with
      desc := Function.update vq.desc i { vq.desc i with next := vq.free_head }
      free_head := head }

/-- `GetBuffer`, with the index and the length that it gives. -/
def Virtqueue.getBuffer (vq : Virtqueue) : Option (Nat × UInt32 × Virtqueue) :=
  let elem := vq.usedRing (vq.last_used_idx.toNat % vq.num)
  (vq.detach elem.id).map fun vq' =>
    ((vq.vdata elem.id).toNat, elem.length, { vq' with last_used_idx := vq'.last_used_idx + 1 })

/-! ## Driver and device -/

/-- A descriptor as the device reads it: the physical address, the length, and whether to write there. -/
abbrev Entry := Nat × UInt32 × Bool

/-- What the device reads from a descriptor on, following the links. -/
def readChain (desc : Nat → Desc) : Nat → Nat → Option (List Entry)
  | 0, _ => none
  | fuel + 1, i =>
    let entry := ((desc i).addr, (desc i).len, decide ((desc i).flags &&& descWrite ≠ 0))
    if (desc i).flags &&& descNext ≠ 0 then (readChain desc fuel (desc i).next).map (entry :: ·)
    else some [entry]

/-- The queue, its driver and its device. -/
structure System where
  vq : Virtqueue
  /-- The driver's number of requests added since its last `Kick`. -/
  added : Nat
  /-- The index of the next available request that the device looks at. -/
  seen : UInt16
  /-- The requests that the device has begun and not finished. -/
  taken : List Nat

def System.init (num : Nat) : System := ⟨.init num, 0, 0, []⟩

inductive Event where
  /-- The driver adds a request. -/
  | add (outs ins : List Buffer) (index : Nat)
  /-- The driver shows what it has added. -/
  | kick
  /-- The device begins the next available request. -/
  | take
  /-- The device finishes a request that it has begun. -/
  | finish (k : Nat) (length : UInt32)
  /-- The driver asks for a finished request. -/
  | get

inductive Output where
  /-- The descriptors that the device has read. -/
  | began (entries : List Entry)
  /-- What `GetBuffer` has given. -/
  | got (index : Nat) (length : UInt32)

def System.step (s : System) : Event → Option (System × List Output)
  | .add outs ins index => some ({ s with vq := s.vq.addBuffer outs ins index s.added, added := s.added + 1 }, [])
  | .kick => some ({ s with vq := s.vq.kick s.added, added := 0 }, [])
  | .take =>
    if s.seen = s.vq.availIndex then none
    else
      let head := s.vq.availRing (s.seen.toNat % s.vq.num)
      (readChain s.vq.desc s.vq.num head).map fun entries =>
        ({ s with seen := s.seen + 1, taken := s.taken ++ [head] }, [.began entries])
  | .finish k length =>
    (s.taken[k]?).map fun head =>
      ({ s with
          taken := s.taken.eraseIdx k
          vq := { s.vq with
            usedRing := Function.update s.vq.usedRing (s.vq.usedIndex.toNat % s.vq.num) ⟨head, length⟩
            usedIndex := s.vq.usedIndex + 1 } }, [])
  | .get =>
    if s.vq.moreUsed then
      s.vq.getBuffer.map fun (index, length, vq) => ({ s with vq := vq }, [.got index length])
    else some (s, [])

/-! ## What the queue is for -/

/-- A request: what the device is to read, and the number by which the driver knows it. -/
structure Request where
  outs : List Buffer
  ins : List Buffer
  index : Nat

/-- The number of descriptors. -/
def Request.size (r : Request) : Nat := r.outs.length + r.ins.length

/-- What the device is to read. -/
def Request.entries (r : Request) : List Entry :=
  (r.outs.map fun b => (kernelToPhysPtr b.addr, b.length, false)) ++
    r.ins.map fun b => (kernelToPhysPtr b.addr, b.length, true)

/-- A pool of `free` descriptors, and the requests on their way. -/
structure Requests where
  free : Nat
  added : List Request
  available : List Request
  begun : List Request
  finished : List (Request × UInt32)

def Requests.init (num : Nat) : Requests := ⟨num, [], [], [], []⟩

/-- A request needs at least one descriptor, and there have to be enough of them. -/
def Requests.step (s : Requests) : Event → Option (Requests × List Output)
  | .add outs ins index =>
    let r : Request := ⟨outs, ins, index⟩
    if 0 < r.size ∧ r.size ≤ s.free then some ({ s with free := s.free - r.size, added := s.added ++ [r] }, [])
    else none
  | .kick => some ({ s with available := s.available ++ s.added, added := [] }, [])
  | .take =>
    match s.available with
    | [] => none
    | r :: rest => some ({ s with available := rest, begun := s.begun ++ [r] }, [.began r.entries])
  | .finish k length =>
    (s.begun[k]?).map fun r =>
      ({ s with begun := s.begun.eraseIdx k, finished := s.finished ++ [(r, length)] }, [])
  | .get =>
    match s.finished with
    | [] => some (s, [])
    | (r, length) :: rest =>
      some ({ s with finished := rest, free := s.free + r.size }, [.got (r.index % 2 ^ 16) length])

end ChenixOS.Virtio
