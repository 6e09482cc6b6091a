import ChenixOS.Devices.Virtio
import ChenixOS.Lib.Ring
import Mathlib.Data.List.Nodup
import Mathlib.Data.List.Perm.Basic

/-!
# The ring keeps the requests apart

The proof keeps a layout of the descriptors: the chain of the free ones, and for each request on its way the
chain that holds it. The chains share no descriptor and make up the whole table, so that what the driver writes
for one request leaves those of the others as they are, and the free chain can be as short as the pool.

**Main result (`play_requests`).** For a ring whose size divides 2¹⁶, whatever the order in which the driver and
the device take their steps: if the driver adds only what the free descriptors can hold, the device reads each
request as it was added, in the order in which they were added, and the driver gets each back once, by its
number, in the order in which the device finished them.
-/

namespace ChenixOS.Virtio

open Interaction MemoryManager

/-! ## Chains of descriptors -/

/-- The descriptor has a successor. -/
def Desc.more (d : Desc) : Bool := d.flags &&& descNext ≠ 0

/-- What the device reads from it. -/
def Desc.entry (d : Desc) : Entry := (d.addr, d.len, decide (d.flags &&& descWrite ≠ 0))

variable {desc desc' : Nat → Desc} {chain rest free : List Nat} {entries : List Entry} {i j num : Nat}

/-- A chain in which every descriptor names the next one. -/
def Linked (desc : Nat → Desc) (chain : List Nat) : Prop :=
  chain.IsChain fun i j => (desc i).next = j

/-- A chain that holds `entries`. -/
structure Written (desc : Nat → Desc) (entries : List Entry) (chain : List Nat) : Prop where
  entries : chain.map (fun i => (desc i).entry) = entries
  linked : Linked desc chain
  more : ∀ i ∈ chain.dropLast, (desc i).more = true
  last : ∀ i ∈ chain.getLast?, (desc i).more = false

theorem Linked.congr (h : Linked desc chain) (hnext : ∀ i ∈ chain.dropLast, (desc' i).next = (desc i).next) :
    Linked desc' chain := by
  induction chain with
  | nil => exact .nil
  | cons i chain ih =>
    cases chain with
    | nil => exact .singleton i
    | cons j chain =>
      unfold Linked at h ih ⊢
      rw [List.isChain_cons_cons] at h ⊢
      refine ⟨?_, ih h.2 fun x hx => ?_⟩
      · rw [hnext i (by simp), h.1]
      · exact hnext x (by simp [List.dropLast_cons_of_ne_nil, hx])

theorem not_mem_dropLast (hlast : chain.getLast? = some i) (hnodup : chain.Nodup) : i ∉ chain.dropLast := by
  intro hmem
  rw [← List.dropLast_append_getLast? i hlast] at hnodup
  exact (List.disjoint_of_nodup_append hnodup) hmem (List.mem_singleton_self i)

/-- **A chain is read as it was written** as long as its descriptors stay as they are. -/
theorem Written.congr (h : Written desc entries chain) (hdesc : ∀ i ∈ chain, desc' i = desc i) :
    Written desc' entries chain where
  entries := by
    rw [← h.entries]
    exact List.map_congr_left fun i hi => by rw [hdesc i hi]
  linked := h.linked.congr fun i hi => by rw [hdesc i (List.dropLast_subset chain hi)]
  more i hi := by
    rw [hdesc i (List.dropLast_subset chain hi)]
    exact h.more i hi
  last i hi := by
    rw [hdesc i (List.mem_of_getLast? hi)]
    exact h.last i hi

theorem Written.tail (h : Written desc entries (i :: j :: chain)) :
    (desc i).more = true ∧ (desc i).next = j ∧ Written desc entries.tail (j :: chain) := by
  have hlinked := List.isChain_cons_cons.1 h.linked
  refine ⟨h.more i (by simp), hlinked.1, ?_, hlinked.2, fun x hx => h.more x ?_, fun x hx => h.last x ?_⟩
  · rw [← h.entries]
    rfl
  · rw [List.dropLast_cons_of_ne_nil (by simp)]
    exact List.mem_cons_of_mem i hx
  · simpa using hx

/-- The device reads the entries. -/
theorem readChain_eq {fuel : Nat} (h : Written desc entries (i :: chain)) (hfuel : chain.length < fuel) :
    readChain desc fuel i = some entries := by
  induction chain generalizing fuel i entries with
  | nil =>
    obtain ⟨fuel, rfl⟩ := Nat.exists_eq_succ_of_ne_zero (Nat.ne_of_gt hfuel)
    have hlast : (desc i).more = false := h.last i rfl
    have hstop : ¬((desc i).flags &&& descNext ≠ 0) := of_decide_eq_false hlast
    rw [readChain, if_neg hstop, ← h.entries]
    rfl
  | cons j chain ih =>
    obtain ⟨fuel, rfl⟩ := Nat.exists_eq_succ_of_ne_zero (Nat.ne_of_gt (Nat.zero_lt_of_lt hfuel))
    obtain ⟨hmore, hnext, htail⟩ := h.tail
    have hgo : (desc i).flags &&& descNext ≠ 0 := of_decide_eq_true hmore
    rw [readChain, if_pos hgo, hnext, ih htail (by simpa using hfuel), ← h.entries]
    rfl

/-- `Detach` finds the last one. -/
theorem lastDesc_eq {fuel : Nat} (h : Written desc entries (i :: chain)) (hfuel : chain.length < fuel) :
    lastDesc desc fuel i = (i :: chain).getLast? := by
  induction chain generalizing fuel i entries with
  | nil =>
    obtain ⟨fuel, rfl⟩ := Nat.exists_eq_succ_of_ne_zero (Nat.ne_of_gt hfuel)
    have hlast : (desc i).more = false := h.last i rfl
    have hstop : ¬((desc i).flags &&& descNext ≠ 0) := of_decide_eq_false hlast
    rw [lastDesc, if_neg hstop]
    rfl
  | cons j chain ih =>
    obtain ⟨fuel, rfl⟩ := Nat.exists_eq_succ_of_ne_zero (Nat.ne_of_gt (Nat.zero_lt_of_lt hfuel))
    obtain ⟨hmore, hnext, htail⟩ := h.tail
    have hgo : (desc i).flags &&& descNext ≠ 0 := of_decide_eq_true hmore
    rw [lastDesc, if_pos hgo, hnext, ih htail (by simpa using hfuel), List.getLast?_cons_cons]

/-! ## The loops of `AddBuffer` -/

/-- Both loops, as one over the flags and the buffers. -/
def fillAll (ws : List (UInt16 × Buffer)) (r : Cursor) : Cursor :=
  ws.foldl (fun r w => r.fill w.1 w.2) r

/-- The entries that come of flags and buffers. -/
def written (w : UInt16 × Buffer) : Entry :=
  (kernelToPhysPtr w.2.addr, w.2.length, decide (w.1 &&& descWrite ≠ 0))

/-- **What the loops leave**, on a linked chain with a descriptor for each buffer. -/
theorem fillAll_spec (ws : List (UInt16 × Buffer)) (r : Cursor) (hlen : chain.length = ws.length)
    (hnodup : chain.Nodup) (hlinked : Linked r.desc chain) (hhead : ∀ i ∈ chain.head?, r.i = i) :
    (∀ j, j ∉ chain → (fillAll ws r).desc j = r.desc j) ∧
      (∀ j, ((fillAll ws r).desc j).next = (r.desc j).next) ∧
      chain.map (fun i => ((fillAll ws r).desc i).entry) = ws.map written ∧
      chain.map (fun i => ((fillAll ws r).desc i).flags) = ws.map Prod.fst ∧
      (∀ i ∈ chain.getLast?, (fillAll ws r).prev = i ∧ (fillAll ws r).i = (r.desc i).next) := by
  induction ws generalizing r chain with
  | nil =>
    obtain rfl : chain = [] := List.length_eq_zero_iff.1 hlen
    exact ⟨fun _ _ => rfl, fun _ => rfl, rfl, rfl, fun i hi => by simp at hi⟩
  | cons w ws ih =>
    cases chain with
    | nil => simp at hlen
    | cons i chain =>
      obtain ⟨hi, hnodup⟩ := List.nodup_cons.1 hnodup
      have hri : r.i = i := hhead i rfl
      have hnext : ∀ j, ((r.fill w.1 w.2).desc j).next = (r.desc j).next := by
        intro j
        by_cases hj : j = r.i
        · simp [Cursor.fill, hj]
        · simp [Cursor.fill, hj]
      have hlinked' : Linked (r.fill w.1 w.2).desc chain :=
        Linked.congr (List.IsChain.tail hlinked) fun j _ => hnext j
      obtain ⟨h₁, h₂, h₃, h₄, h₅⟩ := ih (r.fill w.1 w.2) (by simpa using hlen) hnodup hlinked' (by
        intro j hj
        show (r.desc r.i).next = j
        cases chain with
        | nil => simp at hj
        | cons k chain =>
          obtain rfl : k = j := by simpa using hj
          rw [hri]
          exact (List.isChain_cons_cons.1 hlinked).1)
      have hself : (fillAll ws (r.fill w.1 w.2)).desc i =
          { r.desc i with flags := w.1, addr := kernelToPhysPtr w.2.addr, len := w.2.length } := by
        rw [h₁ i hi]
        simp [Cursor.fill, hri]
      refine ⟨fun j hj => ?_, fun j => (h₂ j).trans (hnext j), ?_, ?_, fun j hj => ?_⟩
      · obtain ⟨hji, hj⟩ := not_or.1 (List.mem_cons.not.1 hj)
        refine (h₁ j hj).trans ?_
        simp [Cursor.fill, hri, hji]
      · have hentry : ((fillAll ws (r.fill w.1 w.2)).desc i).entry = written w := by rw [hself, Desc.entry, written]
        exact congrArg₂ List.cons hentry h₃
      · have hflags : ((fillAll ws (r.fill w.1 w.2)).desc i).flags = w.1 := by rw [hself]
        exact congrArg₂ List.cons hflags h₄
      · cases chain with
        | nil =>
          obtain rfl : i = j := by simpa using hj
          obtain rfl : ws = [] := List.length_eq_zero_iff.1 (by simpa using hlen.symm)
          exact ⟨hri, by rw [← hri]; rfl⟩
        | cons k chain =>
          rw [List.getLast?_cons_cons] at hj
          obtain ⟨hprev, hi'⟩ := h₅ j hj
          exact ⟨hprev, hi'.trans (hnext j)⟩

/-! ## What `AddBuffer` leaves -/

/-- The flags and buffers of a request. -/
def Request.fills (r : Request) : List (UInt16 × Buffer) :=
  (r.outs.map fun b => (descNext, b)) ++ r.ins.map fun b => (descNext ||| descWrite, b)

theorem Request.length_fills (r : Request) : r.fills.length = r.size := by
  simp [Request.fills, Request.size]

theorem Request.map_written_fills (r : Request) : r.fills.map written = r.entries := by
  have hout : descNext &&& descWrite = 0 := by decide
  have hin : ¬(descNext ||| descWrite) &&& descWrite = 0 := by decide
  simp [Request.fills, Request.entries, written, Function.comp_def, hout, hin]

/-- Both kinds of flags keep the loop of the device going, and lose nothing but that. -/
theorem Request.flags_of_mem {r : Request} {flags : UInt16} (h : flags ∈ r.fills.map Prod.fst) :
    flags &&& descNext ≠ 0 ∧ flags &&& ~~~descNext &&& descNext = 0 ∧
      flags &&& ~~~descNext &&& descWrite = flags &&& descWrite := by
  have hcases : flags = descNext ∨ flags = descNext ||| descWrite := by
    rw [Request.fills, List.map_append, List.mem_append, List.map_map, List.map_map, List.mem_map, List.mem_map] at h
    obtain ⟨b, -, rfl⟩ | ⟨b, -, rfl⟩ := h
    · exact .inl rfl
    · exact .inr rfl
  rcases hcases with rfl | rfl <;> decide

theorem addBuffer_eq (vq : Virtqueue) (r : Request) (num_added : Nat) :
    vq.addBuffer r.outs r.ins r.index num_added =
      let c := fillAll r.fills ⟨vq.desc, vq.free_head, 0⟩
      { vq with
        desc := Function.update c.desc c.prev
          { c.desc c.prev with flags := (c.desc c.prev).flags &&& ~~~descNext }
        free_head := c.i
        vdata := Function.update vq.vdata vq.free_head (UInt16.ofNat r.index)
        availRing := Function.update vq.availRing ((vq.availIndex.toNat + num_added) % vq.num) vq.free_head } := by
  rw [Virtqueue.addBuffer, fillAll, Request.fills, List.foldl_append, List.foldl_map, List.foldl_map]

/-- Clearing the flag of the last descriptor ends the chain. -/
theorem Written.terminate {z : Nat} {r : Request} (hlast : chain.getLast? = some z) (hnodup : chain.Nodup)
    (hlinked : Linked desc chain) (hentries : chain.map (fun i => (desc i).entry) = r.entries)
    (hflags : chain.map (fun i => (desc i).flags) = r.fills.map Prod.fst) :
    Written (Function.update desc z { desc z with flags := (desc z).flags &&& ~~~descNext }) r.entries chain := by
  have hof : ∀ i ∈ chain, (desc i).flags &&& descNext ≠ 0 ∧ (desc i).flags &&& ~~~descNext &&& descNext = 0 ∧
      (desc i).flags &&& ~~~descNext &&& descWrite = (desc i).flags &&& descWrite := by
    intro i hi
    apply Request.flags_of_mem (r := r)
    rw [← hflags]
    exact List.mem_map.2 ⟨i, hi, rfl⟩
  have hz := not_mem_dropLast hlast hnodup
  refine ⟨?_, hlinked.congr fun i hi => ?_, fun i hi => ?_, fun i hi => ?_⟩
  · rw [← hentries]
    refine List.map_congr_left fun i hi => ?_
    by_cases hiz : i = z
    · rw [hiz, Function.update_self, Desc.entry, Desc.entry, (hof z (hiz ▸ hi)).2.2]
    · rw [Function.update_of_ne hiz]
  · rw [Function.update_of_ne (ne_of_mem_of_not_mem hi hz)]
  · rw [Function.update_of_ne (ne_of_mem_of_not_mem hi hz)]
    exact decide_eq_true (hof i (List.dropLast_subset chain hi)).1
  · obtain rfl : z = i := Option.some.inj (hlast.symm.trans hi)
    rw [Function.update_self]
    exact decide_eq_false (not_not.2 (hof z (List.mem_of_getLast? hlast)).2.1)

/-- **A request is written into the chain that was free**, and the rest of the table stays as it is. -/
theorem addBuffer_written {vq : Virtqueue} {r : Request} (num_added : Nat) (hlen : chain.length = r.size)
    (hpos : 0 < r.size) (hnodup : (chain ++ rest).Nodup) (hlinked : Linked vq.desc (chain ++ rest))
    (hhead : ∀ i ∈ chain.head?, vq.free_head = i) :
    Written (vq.addBuffer r.outs r.ins r.index num_added).desc r.entries chain ∧
      (∀ j, j ∉ chain → (vq.addBuffer r.outs r.ins r.index num_added).desc j = vq.desc j) ∧
      ∀ i ∈ rest.head?, (vq.addBuffer r.outs r.ins r.index num_added).free_head = i := by
  obtain ⟨h₁, h₂, h₃, h₄, h₅⟩ := fillAll_spec r.fills ⟨vq.desc, vq.free_head, 0⟩
    (hlen.trans r.length_fills.symm) (List.Nodup.of_append_left hnodup) hlinked.left_of_append hhead
  have hne : chain ≠ [] := by
    intro hnil
    rw [hnil, List.length_nil] at hlen
    exact Nat.ne_of_gt hpos hlen.symm
  have hlast : chain.getLast? = some (chain.getLast hne) := List.getLast?_eq_some_getLast hne
  obtain ⟨hprev, hi⟩ := h₅ _ hlast
  rw [r.map_written_fills] at h₃
  simp only [addBuffer_eq, hprev, hi]
  refine ⟨Written.terminate hlast (List.Nodup.of_append_left hnodup) ?_ h₃ h₄, fun j hj => ?_, fun i hrest => ?_⟩
  · exact Linked.congr hlinked.left_of_append fun j _ => h₂ j
  · rw [Function.update_of_ne (ne_of_mem_of_not_mem (List.getLast_mem hne) hj).symm]
    exact h₁ j hj
  · exact (List.isChain_append.1 hlinked).2.2 _ hlast i hrest

/-! ## The layout of the table -/

/-- A request and its descriptors. -/
structure Held where
  req : Request
  chain : List Nat

/-- Its first descriptor, by which driver and device name it. -/
def Held.head (h : Held) : Nat := h.chain.headD 0

structure Layout where
  free : List Nat
  added : List Held
  available : List Held
  begun : List Held
  finished : List (Held × UInt32)

/-- All requests on their way. -/
def Layout.held (L : Layout) : List Held := L.added ++ L.available ++ L.begun ++ L.finished.map Prod.fst

/-- The requests without their places. -/
def Layout.requests (L : Layout) : Requests where
  free := L.free.length
  added := L.added.map Held.req
  available := L.available.map Held.req
  begun := L.begun.map Held.req
  finished := L.finished.map fun f => (f.1.req, f.2)

/-- The request is in its chain, which has a descriptor for each of its buffers, and has its number. -/
structure Held.Stored (vq : Virtqueue) (h : Held) : Prop where
  size : h.chain.length = h.req.size
  pos : 0 < h.req.size
  written : Written vq.desc h.req.entries h.chain
  number : vq.vdata h.head = UInt16.ofNat h.req.index

structure Inv (num : Nat) (s : System) (L : Layout) : Prop where
  size : s.vq.num = num
  perm : (L.free ++ L.held.flatMap Held.chain).Perm (List.range num)
  free : Linked s.vq.desc L.free
  free_head : ∀ i ∈ L.free.head?, s.vq.free_head = i
  stored : ∀ h ∈ L.held, h.Stored s.vq
  added : s.added = L.added.length
  availIndex : s.vq.availIndex = s.seen + UInt16.ofNat L.available.length
  availRing : Ring.window num s.vq.availRing s.seen.toNat (L.available.length + L.added.length) =
    (L.available ++ L.added).map Held.head
  taken : s.taken = L.begun.map Held.head
  usedIndex : s.vq.usedIndex = s.vq.last_used_idx + UInt16.ofNat L.finished.length
  usedRing : Ring.window num s.vq.usedRing s.vq.last_used_idx.toNat L.finished.length =
    L.finished.map fun f => ⟨f.1.head, f.2⟩

variable {s s' : System} {L : Layout} {h : Held}

theorem Held.Stored.exists_cons (hs : h.Stored s.vq) : ∃ rest, h.chain = h.head :: rest := by
  have hpos : 0 < h.chain.length := hs.size ▸ hs.pos
  cases hchain : h.chain with
  | nil => simp [hchain] at hpos
  | cons i rest => exact ⟨rest, by simp [Held.head, hchain]⟩

/-- A request stays as it is if its descriptors and its number do. -/
theorem Held.Stored.congr {vq vq' : Virtqueue} (hs : h.Stored vq) (hdesc : ∀ i ∈ h.chain, vq'.desc i = vq.desc i)
    (hnumber : vq'.vdata h.head = vq.vdata h.head) : h.Stored vq' :=
  ⟨hs.size, hs.pos, hs.written.congr hdesc, hnumber.trans hs.number⟩

/-- Every request has a descriptor. -/
theorem length_le_flatMap (hs : List Held) (hpos : ∀ h ∈ hs, 0 < h.chain.length) :
    hs.length ≤ (hs.flatMap Held.chain).length := by
  induction hs with
  | nil => exact Nat.le_refl 0
  | cons h hs ih =>
    have hh := hpos h (List.mem_cons_self ..)
    have hrest := ih fun x hx => hpos x (List.mem_cons_of_mem h hx)
    rw [List.flatMap_cons, List.length_append, List.length_cons]
    omega

theorem Inv.length_held_le (hinv : Inv num s L) : L.free.length + L.held.length ≤ num := by
  have hlen := hinv.perm.length_eq
  have hle := length_le_flatMap L.held fun h hh => (hinv.stored h hh).size ▸ (hinv.stored h hh).pos
  rw [List.length_append, List.length_range] at hlen
  omega

theorem Inv.nodup (hinv : Inv num s L) : (L.free ++ L.held.flatMap Held.chain).Nodup :=
  hinv.perm.nodup_iff.2 List.nodup_range

/-- A chain is no longer than the table. -/
theorem Inv.length_chain_le (hinv : Inv num s L) (hh : h ∈ L.held) : h.chain.length ≤ num := by
  have hlen := hinv.perm.length_eq
  obtain ⟨pre, post, heq⟩ := List.append_of_mem hh
  rw [heq, List.flatMap_append, List.flatMap_cons] at hlen
  simp only [List.length_append, List.length_range] at hlen
  omega

/-- The descriptors of a request are not free. -/
theorem Inv.not_mem_free (hinv : Inv num s L) (hh : h ∈ L.held) (hi : i ∈ h.chain) : i ∉ L.free := by
  intro hfree
  exact (List.disjoint_of_nodup_append hinv.nodup) hfree (List.mem_flatMap.2 ⟨h, hh, hi⟩)

/-- A running index as a position in its ring. -/
theorem toNat_add_mod (hnum : num ∣ 2 ^ 16) (a : UInt16) (n : Nat) :
    (a + UInt16.ofNat n).toNat % num = (a.toNat + n) % num := by
  rw [UInt16.toNat_add, UInt16.toNat_ofNat', Nat.mod_mod_of_dvd _ hnum, Nat.add_mod, Nat.mod_mod_of_dvd _ hnum,
    ← Nat.add_mod]

theorem inv_init (num : Nat) : Inv num (.init num) ⟨List.range num, [], [], [], []⟩ where
  size := rfl
  perm := by simp [Layout.held]
  free := by
    unfold Linked
    rw [List.isChain_iff_getElem]
    intro k hk
    have hk' : k + 1 < num := by simpa using hk
    simp [System.init, Virtqueue.init, hk']
  free_head := by
    intro i hi
    cases num with
    | zero => simp at hi
    | succ n =>
      rw [List.range_succ_eq_map] at hi
      exact Option.some.inj hi
  stored h hh := by simp [Layout.held] at hh
  added := rfl
  availIndex := rfl
  availRing := rfl
  taken := rfl
  usedIndex := rfl
  usedRing := rfl

/-! ## Each step keeps the layout -/

theorem inv_add {r : Request} (hnum : num ∣ 2 ^ 16) (hinv : Inv num s L) (hfree : L.free = chain ++ rest)
    (hlen : chain.length = r.size) (hpos : 0 < r.size) :
    Inv num { s with vq := s.vq.addBuffer r.outs r.ins r.index s.added, added := s.added + 1 }
      { L with free := rest, added := L.added ++ [⟨r, chain⟩] } := by
  have hnodup : (chain ++ rest).Nodup := hfree ▸ List.Nodup.of_append_left hinv.nodup
  have hhead : ∀ i ∈ chain.head?, s.vq.free_head = i := by
    intro i hi
    apply hinv.free_head
    rw [hfree, List.head?_append]
    simp [Option.mem_def.1 hi]
  have hhead_eq : s.vq.free_head = chain.headD 0 := by
    cases chain with
    | nil => simp at hlen; omega
    | cons i chain => exact hhead i rfl
  have hheld : ∀ h ∈ L.held, ∀ i ∈ h.chain, i ∉ chain := by
    intro h hh i hi hmem
    exact hinv.not_mem_free hh hi (hfree ▸ List.mem_append_left rest hmem)
  obtain ⟨hwritten, hdesc, hfree_head⟩ := addBuffer_written s.added hlen hpos hnodup (hfree ▸ hinv.free) hhead
  have hroom : L.available.length + L.added.length < num := by
    have hle := hinv.length_held_le
    rw [hfree] at hle
    simp only [Layout.held, List.length_append, List.length_map] at hle
    omega
  refine ⟨hinv.size, ?_, ?_, hfree_head, fun h hh => ?_, ?_, hinv.availIndex, ?_, hinv.taken, hinv.usedIndex,
    hinv.usedRing⟩
  · refine List.Perm.trans ?_ hinv.perm
    rw [hfree, List.perm_iff_count]
    intro a
    simp only [Layout.held, List.flatMap_append, List.flatMap_cons, List.flatMap_nil, List.count_append,
      List.append_nil]
    omega
  · refine Linked.congr (hfree ▸ hinv.free).right_of_append fun j hj => ?_
    rw [hdesc j fun hmem => List.disjoint_of_nodup_append hnodup hmem (List.dropLast_subset rest hj)]
  · have hcases : h ∈ L.held ∨ h = ⟨r, chain⟩ := by
      simp only [Layout.held, List.mem_append, List.mem_singleton] at hh ⊢
      tauto
    rcases hcases with hh | rfl
    · have hs := hinv.stored h hh
      obtain ⟨tl, hchain⟩ := hs.exists_cons
      refine hs.congr (fun i hi => hdesc i (hheld h hh i hi)) ?_
      rw [addBuffer_eq]
      apply Function.update_of_ne
      intro heq
      have hmem : h.head ∈ h.chain := hchain ▸ List.mem_cons_self ..
      refine hheld h hh h.head hmem ?_
      cases hc : chain with
      | nil => simp [hc] at hlen; omega
      | cons i tl' => rw [heq, hhead_eq, hc]; exact List.mem_cons_self ..
    · refine ⟨hlen, hpos, hwritten, ?_⟩
      rw [addBuffer_eq, Held.head, ← hhead_eq]
      exact Function.update_self ..
  · rw [List.length_append, List.length_singleton, hinv.added]
  · have hslot : (s.vq.availIndex.toNat + s.added) % s.vq.num =
        (s.seen.toNat + (L.available.length + L.added.length)) % num := by
      rw [hinv.size, hinv.added, hinv.availIndex, ← Nat.mod_add_mod, toNat_add_mod hnum, Nat.mod_add_mod,
        Nat.add_assoc]
    rw [addBuffer_eq]
    show Ring.window num (Function.update s.vq.availRing ((s.vq.availIndex.toNat + s.added) % s.vq.num) s.vq.free_head)
      s.seen.toNat (L.available.length + (L.added ++ [Held.mk r chain]).length) =
        (L.available ++ (L.added ++ [Held.mk r chain])).map Held.head
    rw [hslot, List.length_append]
    refine (Ring.window_update _ _ _ hroom).trans ?_
    rw [hinv.availRing, hhead_eq]
    simp [Held.head]

/-- The requests change their places only. -/
theorem Inv.reorder {L' : Layout} (hinv : Inv num s L) (hfree : L'.free = L.free) (hheld : L'.held.Perm L.held) :
    (L'.free ++ L'.held.flatMap Held.chain).Perm (List.range num) ∧ ∀ h ∈ L'.held, h.Stored s.vq := by
  refine ⟨List.Perm.trans ?_ hinv.perm, fun h hh => hinv.stored h (hheld.mem_iff.1 hh)⟩
  rw [hfree]
  exact (hheld.flatMap_right Held.chain).append_left L.free

theorem inv_kick (hinv : Inv num s L) :
    Inv num { s with vq := s.vq.kick s.added, added := 0 }
      { L with added := [], available := L.available ++ L.added } := by
  obtain ⟨hperm, hstored⟩ :=
    @Inv.reorder num s L { L with added := [], available := L.available ++ L.added } hinv rfl (by
    simp only [Layout.held, List.nil_append]
    exact (List.perm_append_comm.append_right L.begun).append_right _)
  refine ⟨hinv.size, hperm, hinv.free, hinv.free_head, fun h hh => ?_, rfl, ?_, ?_, hinv.taken, hinv.usedIndex,
    hinv.usedRing⟩
  · exact (hstored h hh).congr (fun _ _ => rfl) rfl
  · show s.vq.availIndex + UInt16.ofNat s.added = s.seen + UInt16.ofNat (L.available ++ L.added).length
    rw [hinv.availIndex, hinv.added, List.length_append, UInt16.ofNat_add, UInt16.add_assoc]
  · show Ring.window num s.vq.availRing s.seen.toNat ((L.available ++ L.added).length + 0) =
      ((L.available ++ L.added) ++ []).map Held.head
    rw [List.append_nil, ← hinv.availRing, List.length_append, Nat.add_zero]

theorem inv_take (hnum : num ∣ 2 ^ 16) (hmax : num ≤ 256) {later : List Held} (hinv : Inv num s L)
    (havail : L.available = h :: later) :
    s.seen ≠ s.vq.availIndex ∧ s.vq.availRing (s.seen.toNat % s.vq.num) = h.head ∧
      readChain s.vq.desc s.vq.num h.head = some h.req.entries ∧
      Inv num { s with seen := s.seen + 1, taken := s.taken ++ [h.head] }
        { L with available := later, begun := L.begun ++ [h] } := by
  have hmem : h ∈ L.held := by simp [Layout.held, havail]
  have hle := hinv.length_held_le
  have hlen : L.available.length = later.length + 1 := by rw [havail, List.length_cons]
  have hring := hinv.availRing
  rw [havail, List.length_cons, Nat.add_right_comm, Ring.window_succ, List.cons_append, List.map_cons,
    List.cons.injEq] at hring
  obtain ⟨hfirst, hring⟩ := hring
  obtain ⟨tl, hchain⟩ := (hinv.stored h hmem).exists_cons
  obtain ⟨hperm, hstored⟩ := @Inv.reorder num s L { L with available := later, begun := L.begun ++ [h] } hinv rfl (by
    classical
    rw [List.perm_iff_count]
    intro a
    simp only [Layout.held, havail, List.count_append, List.count_cons, List.count_nil]
    omega)
  refine ⟨?_, ?_, ?_, hinv.size, hperm, hinv.free, hinv.free_head, hstored, hinv.added, ?_, ?_, ?_, hinv.usedIndex,
    hinv.usedRing⟩
  · intro heq
    have hidx := hinv.availIndex
    rw [← heq] at hidx
    have hzero : UInt16.ofNat L.available.length = 0 := by
      rw [← UInt16.add_left_inj s.seen]
      grind
    have hval := congrArg UInt16.toNat hzero
    have hall : L.available.length ≤ L.held.length := by
      simp only [Layout.held, List.length_append]
      omega
    rw [UInt16.toNat_ofNat', Nat.mod_eq_of_lt (by omega)] at hval
    exact Nat.succ_ne_zero later.length (hlen.symm.trans hval)
  · rw [hinv.size]
    exact hfirst
  · have hchain_le := hinv.length_chain_le hmem
    have hwritten := (hinv.stored h hmem).written
    rw [hchain] at hchain_le hwritten
    rw [hinv.size]
    exact readChain_eq hwritten hchain_le
  · show s.vq.availIndex = s.seen + 1 + UInt16.ofNat later.length
    rw [hinv.availIndex, hlen, UInt16.ofNat_add, UInt16.add_assoc, UInt16.add_comm (UInt16.ofNat later.length)]
    rfl
  · show Ring.window num s.vq.availRing (s.seen + 1).toNat (later.length + L.added.length) = _
    rw [← Ring.window_mod, show s.seen + 1 = s.seen + UInt16.ofNat 1 from rfl, toNat_add_mod hnum, Ring.window_mod]
    exact hring
  · rw [hinv.taken, List.map_append]
    rfl

theorem inv_finish (hnum : num ∣ 2 ^ 16) {k : Nat} (length : UInt32) (hinv : Inv num s L)
    (hk : L.begun[k]? = some h) :
    Inv num { s with
        taken := s.taken.eraseIdx k
        vq := { s.vq with
          usedRing := Function.update s.vq.usedRing (s.vq.usedIndex.toNat % s.vq.num) ⟨h.head, length⟩
          usedIndex := s.vq.usedIndex + 1 } }
      { L with begun := L.begun.eraseIdx k, finished := L.finished ++ [(h, length)] } := by
  obtain ⟨hlt, hget⟩ := List.getElem?_eq_some_iff.1 hk
  have hmem : h ∈ L.begun := hget ▸ List.getElem_mem hlt
  have hroom : L.finished.length < num := by
    have hle := hinv.length_held_le
    have hpos := List.length_pos_of_mem hmem
    simp only [Layout.held, List.length_append, List.length_map] at hle
    omega
  obtain ⟨hperm, hstored⟩ := @Inv.reorder num s L
    { L with begun := L.begun.eraseIdx k, finished := L.finished ++ [(h, length)] } hinv rfl (by
      classical
      rw [List.perm_iff_count]
      intro a
      have hcount := (List.getElem_cons_eraseIdx_perm hlt).count_eq a
      rw [hget, List.count_cons] at hcount
      simp only [Layout.held, List.map_append, List.map_cons, List.map_nil, List.count_append, List.count_cons,
        List.count_nil]
      omega)
  refine ⟨hinv.size, hperm, hinv.free, hinv.free_head, fun h hh => ?_, hinv.added, hinv.availIndex, hinv.availRing,
    ?_, ?_, ?_⟩
  · exact (hstored h hh).congr (fun _ _ => rfl) rfl
  · show s.taken.eraseIdx k = (L.begun.eraseIdx k).map Held.head
    rw [hinv.taken, List.eraseIdx_map]
  · show s.vq.usedIndex + 1 = s.vq.last_used_idx + UInt16.ofNat (L.finished ++ [(h, length)]).length
    rw [hinv.usedIndex, List.length_append, UInt16.ofNat_add, UInt16.add_assoc]
    rfl
  · have hslot : s.vq.usedIndex.toNat % s.vq.num = (s.vq.last_used_idx.toNat + L.finished.length) % num := by
      rw [hinv.size, hinv.usedIndex, toNat_add_mod hnum]
    show Ring.window num (Function.update s.vq.usedRing (s.vq.usedIndex.toNat % s.vq.num) _)
      s.vq.last_used_idx.toNat (L.finished ++ [(h, length)]).length = _
    rw [hslot, List.length_append]
    refine (Ring.window_update _ _ _ hroom).trans ?_
    rw [hinv.usedRing, List.map_append]
    rfl

theorem inv_get (hnum : num ∣ 2 ^ 16) (hmax : num ≤ 256) {length : UInt32} {later : List (Held × UInt32)}
    (hinv : Inv num s L) (hfinished : L.finished = (h, length) :: later) :
    s.vq.moreUsed = true ∧ ∃ vq, s.vq.getBuffer = some (h.req.index % 2 ^ 16, length, vq) ∧
      Inv num { s with vq := vq } { L with free := h.chain ++ L.free, finished := later } := by
  have hmem : h ∈ L.held := by simp [Layout.held, hfinished]
  have hs := hinv.stored h hmem
  obtain ⟨tl, hchain⟩ := hs.exists_cons
  have hne : h.chain ≠ [] := hchain ▸ List.cons_ne_nil _ _
  have hlast : h.chain.getLast? = some (h.chain.getLast hne) := List.getLast?_eq_some_getLast hne
  have hz : h.chain.getLast hne ∈ h.chain := List.getLast_mem hne
  generalize h.chain.getLast hne = z at hlast hz
  have hring := hinv.usedRing
  rw [hfinished, List.length_cons, Ring.window_succ, List.map_cons, List.cons.injEq] at hring
  obtain ⟨hfirst, hring⟩ := hring
  have hlen_le := hinv.length_chain_le hmem
  have hfind : lastDesc s.vq.desc s.vq.num h.head = some z := by
    have hwritten := hs.written
    rw [hchain] at hwritten hlen_le
    rw [hinv.size, lastDesc_eq hwritten hlen_le, ← hchain, hlast]
  -- the other requests have their descriptors elsewhere
  have hperm : (h :: Layout.held { L with finished := later }).Perm L.held := by
    classical
    rw [List.perm_iff_count]
    intro a
    simp only [Layout.held, hfinished, List.map_cons, List.count_append, List.count_cons]
    omega
  have hnodup : (L.free ++ (h.chain ++ (Layout.held { L with finished := later }).flatMap Held.chain)).Nodup := by
    have hflat := (hperm.flatMap_right Held.chain).append_left L.free
    exact hflat.nodup_iff.2 hinv.nodup
  have hother : ∀ x ∈ Layout.held { L with finished := later }, ∀ i ∈ x.chain, i ≠ z := by
    intro x hx i hi heq
    have hdisjoint := List.disjoint_of_nodup_append (List.Nodup.of_append_right hnodup)
    exact hdisjoint hz (heq ▸ List.mem_flatMap.2 ⟨x, hx, hi⟩)
  have hfree : ∀ i ∈ L.free, i ≠ z := by
    intro i hi heq
    exact hinv.not_mem_free hmem hz (heq ▸ hi)
  have hlink := not_mem_dropLast hlast (List.Nodup.of_append_left (List.Nodup.of_append_right hnodup))
  have hget : s.vq.getBuffer = some (h.req.index % 2 ^ 16, length,
      { s.vq with
        desc := Function.update s.vq.desc z { s.vq.desc z with next := s.vq.free_head }
        free_head := h.head
        last_used_idx := s.vq.last_used_idx + 1 }) := by
    rw [Virtqueue.getBuffer, hinv.size, hfirst, Virtqueue.detach, hfind, Option.map_some, Option.map_some, hs.number,
      UInt16.toNat_ofNat']
  have hlen : L.finished.length = later.length + 1 := by rw [hfinished, List.length_cons]
  refine ⟨?_, _, hget, hinv.size, ?_, ?_, ?_, fun x hx => ?_, hinv.added, hinv.availIndex, hinv.availRing,
    hinv.taken, ?_, ?_⟩
  · refine decide_eq_true fun heq => ?_
    have hidx := hinv.usedIndex
    rw [← heq] at hidx
    have hzero : UInt16.ofNat L.finished.length = 0 := by
      rw [← UInt16.add_left_inj s.vq.last_used_idx]
      grind
    have hval := congrArg UInt16.toNat hzero
    have hle := hinv.length_held_le
    simp only [Layout.held, List.length_append, List.length_map] at hle
    rw [UInt16.toNat_ofNat', Nat.mod_eq_of_lt (by omega)] at hval
    exact Nat.succ_ne_zero later.length (hlen.symm.trans hval)
  · refine List.Perm.trans ?_ hinv.perm
    refine List.Perm.trans ?_ ((hperm.flatMap_right Held.chain).append_left L.free)
    rw [List.flatMap_cons, ← List.append_assoc]
    exact List.perm_append_comm.append_right _
  · refine List.isChain_append.2 ⟨hs.written.linked.congr fun i hi => ?_, hinv.free.congr fun i hi => ?_, ?_⟩
    · exact congrArg Desc.next (Function.update_of_ne (ne_of_mem_of_not_mem hi hlink) _ _)
    · exact congrArg Desc.next (Function.update_of_ne (hfree i (List.dropLast_subset _ hi)) _ _)
    · intro i hi j hj
      obtain rfl : z = i := Option.some.inj (hlast.symm.trans hi)
      exact (congrArg Desc.next (Function.update_self z _ s.vq.desc)).trans (hinv.free_head j hj)
  · intro i hi
    rw [hchain] at hi
    exact Option.some.inj hi
  · have hheld : x ∈ L.held := hperm.mem_iff.1 (List.mem_cons_of_mem h hx)
    exact (hinv.stored x hheld).congr (fun i hi => Function.update_of_ne (hother x hx i hi) _ _) rfl
  · show s.vq.usedIndex = s.vq.last_used_idx + 1 + UInt16.ofNat later.length
    rw [hinv.usedIndex, hlen, UInt16.ofNat_add, UInt16.add_assoc, UInt16.add_comm (UInt16.ofNat later.length)]
    rfl
  · show Ring.window num s.vq.usedRing (s.vq.last_used_idx + 1).toNat later.length = _
    rw [← Ring.window_mod, show s.vq.last_used_idx + 1 = s.vq.last_used_idx + UInt16.ofNat 1 from rfl,
      toNat_add_mod hnum, Ring.window_mod]
    exact hring

/-! ## Every run -/

/-- **One step**: what the requests can do, the ring does. -/
theorem step_simulates (hnum : num ∣ 2 ^ 16) (hmax : num ≤ 256) {a a' : Requests} {e : Event} {out : List Output}
    (hinv : ∃ L, Inv num s L ∧ L.requests = a) (hstep : a.step e = some (a', out)) :
    ∃ s', s.step e = some (s', out) ∧ ∃ L, Inv num s' L ∧ L.requests = a' := by
  obtain ⟨L, hinv, rfl⟩ := hinv
  cases e with
  | add outs ins index =>
    simp only [Requests.step, Option.ite_none_right_eq_some, Option.some.injEq, Prod.mk.injEq] at hstep
    obtain ⟨⟨hpos, hle⟩, rfl, rfl⟩ := hstep
    have hfree := (List.take_append_drop (Request.mk outs ins index).size L.free).symm
    refine ⟨_, rfl, _, inv_add hnum hinv hfree (List.length_take_of_le hle) hpos, ?_⟩
    simp [Layout.requests, List.length_drop]
  | kick =>
    obtain ⟨rfl, rfl⟩ := Prod.mk.inj (Option.some.inj hstep)
    exact ⟨_, rfl, _, inv_kick hinv, by simp [Layout.requests]⟩
  | take =>
    cases havail : L.available with
    | nil => simp [Requests.step, Layout.requests, havail] at hstep
    | cons h later =>
      simp only [Requests.step, Layout.requests, havail, List.map_cons, Option.some.injEq, Prod.mk.injEq] at hstep
      obtain ⟨rfl, rfl⟩ := hstep
      obtain ⟨hne, hfirst, hread, hinv'⟩ := inv_take hnum hmax hinv havail
      refine ⟨_, ?_, _, hinv', by simp [Layout.requests]⟩
      simp only [System.step, if_neg hne, hfirst, hread, Option.map_some]
  | finish k length =>
    simp only [Requests.step, Layout.requests, List.getElem?_map, Option.map_map, Option.map_eq_some_iff] at hstep
    obtain ⟨h, hk, heq⟩ := hstep
    obtain ⟨rfl, rfl⟩ := Prod.mk.inj heq
    refine ⟨_, ?_, _, inv_finish hnum length hinv hk, by simp [Layout.requests, List.eraseIdx_map]⟩
    rw [System.step, hinv.taken, List.getElem?_map, hk, Option.map_some, Option.map_some]
  | get =>
    cases hfinished : L.finished with
    | nil =>
      simp only [Requests.step, Layout.requests, hfinished, List.map_nil, Option.some.injEq, Prod.mk.injEq] at hstep
      obtain ⟨rfl, rfl⟩ := hstep
      have hmore : s.vq.moreUsed = false := by
        refine decide_eq_false (not_not.2 ?_)
        rw [hinv.usedIndex, hfinished]
        exact (UInt16.add_zero _).symm
      refine ⟨s, ?_, L, hinv, by simp [Layout.requests, hfinished]⟩
      rw [System.step, hmore]
      rfl
    | cons f later =>
      obtain ⟨h, length⟩ := f
      simp only [Requests.step, Layout.requests, hfinished, List.map_cons, Option.some.injEq, Prod.mk.injEq] at hstep
      obtain ⟨rfl, rfl⟩ := hstep
      have hsize := (hinv.stored h (by simp [Layout.held, hfinished])).size
      obtain ⟨hmore, vq, hget, hinv'⟩ := inv_get hnum hmax hinv hfinished
      refine ⟨_, ?_, _, hinv', ?_⟩
      · rw [System.step, hmore, if_pos rfl, hget, Option.map_some]
      · simp [Layout.requests, hsize, Nat.add_comm]

/-- **The ring keeps the requests apart**: every run that the pool of requests allows is a run of driver, ring and
device, with the same outputs. -/
theorem play_requests (hnum : num ∣ 2 ^ 16) (hmax : num ≤ 256) {es : List Event} {a : Requests} {outs : List Output}
    (h : play Requests.step (.init num) es = some (a, outs)) :
    ∃ s, play System.step (.init num) es = some (s, outs) ∧ ∃ L, Inv num s L ∧ L.requests = a := by
  have hstart : ∃ L, Inv num (.init num) L ∧ L.requests = Requests.init num :=
    ⟨_, inv_init num, by simp [Layout.requests, Requests.init]⟩
  refine play_simulates (R := fun s a => ∃ L, Inv num s L ∧ L.requests = a) ?_ hstart h
  intro s t e t' out hinv hstep
  exact step_simulates hnum hmax hinv hstep

/-- Two requests in a ring of four descriptors; the device finishes the second one first. -/
theorem play_two : ∃ s, play System.step (.init 4)
      [.add [⟨0, 16⟩] [⟨64, 8⟩] 7, .add [] [⟨128, 1⟩] 9, .kick, .take, .take, .finish 1 1, .get, .finish 0 8, .get] =
      some (s, [.began [(kernelToPhysPtr 0, 16, false), (kernelToPhysPtr 64, 8, true)],
        .began [(kernelToPhysPtr 128, 1, true)], .got 9 1, .got 7 8]) ∧
    ∃ L, Inv 4 s L ∧ L.requests = .init 4 :=
  play_requests (by decide) (by decide) rfl

end ChenixOS.Virtio
