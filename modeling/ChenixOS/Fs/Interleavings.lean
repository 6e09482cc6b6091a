import ChenixOS.Fs.ComponentWalk

/-!
# Threads that change directories

Two or more threads, each in a call of `CreateFile`, `CreateFolder`, `CreateSymLink`, `CreateHardLink`, `Open`
with `OpenMode_Create` or `Delete`. The sections of these calls that hold a lock follow each other in any order.

Each of them looks for a name in one section and acts on what it found in a later one. `Conflict` says which
section of one call makes wrong what a section of another found: adding or removing the name that was looked for,
or adding to the directory that was found empty.

**Theorem (`interleaved_consistent`).** In every run without such a conflict, names are distinct in each directory,
entries name linked nodes, deleted directories have no entries, no lock is held between two sections, and what a
call holds it has given back when it returns. Two calls of `CreateFile` for one name need not be such a run, as
`interleaved_duplicate` shows.
-/

namespace ChenixOS

/-! ## Schedules -/

namespace Pool

variable {σ L α : Type}

/-- Thread `i` takes its next step. -/
def next (c : Pool σ L α) (i : Nat) : Option (Pool σ L α) :=
  match c.threads[i]? with
  | some ⟨.act l m k, done⟩ =>
      match m c.state with
      | .ok (b, s') => some ⟨s', c.threads.set i ⟨k b, l :: done⟩⟩
      | .error _ => none
  | _ => none

/-- The threads take their steps in this order. -/
def schedule : List Nat → Pool σ L α → Option (Pool σ L α)
  | [], c => some c
  | i :: is, c => (c.next i).bind (schedule is)

instance decidableReturned (t : Thread σ L α) : Decidable t.Returned :=
  match t with
  | ⟨.ret _, _⟩ => .isTrue trivial
  | ⟨.act .., _⟩ => .isFalse id

theorem step_of_next {c c' : Pool σ L α} {i : Nat} (h : c.next i = some c') : ∃ l, Step c i l c' := by
  obtain ⟨s, ts⟩ := c
  unfold next at h
  split at h
  · rename_i β l m k done hget
    cases hm : m s with
    | error e =>
      rw [hm] at h
      cases h
    | ok p =>
      rw [hm] at h
      cases h
      exact ⟨l, .act hget hm⟩
  · cases h

/-- A run in which any section may follow any other. -/
theorem run_of_schedule {is : List Nat} {c₀ c c' : Pool σ L α} (h₀ : Run (fun _ _ => False) c₀ c)
    (h : schedule is c = some c') : Run (fun _ _ => False) c₀ c' := by
  induction is generalizing c with
  | nil =>
    cases h
    exact h₀
  | cons i is ih =>
    obtain ⟨c₁, hnext, hrest⟩ := Option.bind_eq_some_iff.1 h
    obtain ⟨l, hstep⟩ := step_of_next hnext
    exact ih (h₀.step hstep fun j t _ _ _ l' _ hconflict => hconflict) hrest

end Pool

namespace VFS

variable {K : Kernel} {user : ThreadRef → Nat × Nat} {L : Held} {s : State} {calls : List (Call × Nat)}
  {pool : Pool State Label Reply}

/-! ## Calls -/

/-- The calls that add entries to directories or remove them. -/
def Call.Updates : Call → Prop
  | createFile .. | createFolder .. | createSymLink .. | createHardLink .. | delete .. => True
  | «open» _ _ openMode => hasMode openMode openModeCreate = true
  | _ => False

/-- Each call in a thread of its own, with the number of links that it follows at most. -/
def start (K : Kernel) (s : State) (calls : List (Call × Nat)) : Pool State Label Reply :=
  ⟨s, calls.map fun c => ⟨c.1.prog K c.2, []⟩⟩

/-- What a call holds when it returns: nothing but the descriptor that it hands out. -/
def Leftover (res : Reply) (g : Held) : Prop :=
  match res with
  | .desc (.ok d) => g = {.fd d}
  | _ => g = 0

theorem Leftover.not_owes {res : Reply} {g : Held} (h : Leftover res g) (l : Label) : ¬ owes g l := by
  cases res with
  | desc res =>
    cases res with
    | ok d =>
      obtain rfl : g = {.fd d} := h
      simp
    | error e =>
      obtain rfl : g = 0 := h
      simp
  | _ =>
    obtain rfl : g = 0 := h
    simp

theorem Leftover.total_eq_zero {res : Reply} {g : Held} (h : Leftover res g) {k : Key} (hk : ∀ d, k ≠ .desc d) :
    total k g = 0 := by
  cases res with
  | desc res =>
    cases res with
    | ok d =>
      obtain rfl : g = {.fd d} := h
      rw [total_singleton, Tok.key_fd, if_neg fun heq => hk d (Option.some.inj heq).symm]
    | error e =>
      obtain rfl : g = 0 := h
      rfl
  | _ =>
    obtain rfl : g = 0 := h
    rfl

/-- A call whose result is wrapped. -/
theorem safe_map {α : Type} {C : Label → Held → Prop} {p : P α} {f : α → Reply} {Q : α → Held → Prop}
    (h : Safe Inv owes C p 0 Q) (hQ : ∀ a g, Q a g → Leftover (f a) g) : Safe Inv owes C (f <$> p) 0 Leftover :=
  Safe.bind h fun a g hg => Safe.ret (hQ a g hg)

/-- **Each call is safe next to the others.** -/
theorem Call.Updates.safe {c : Call} (h : c.Updates) (fuel : Nat) :
    Safe Inv owes (Pool.NoConflict owes Conflict) (c.prog K fuel) 0 Leftover := by
  cases c with
  | createFile t path perms => exact safe_map (safe_createFile t fuel path perms) fun _ _ hg => hg
  | createFolder t path perms => exact safe_map (safe_createFolder t fuel path perms) fun _ _ hg => hg
  | createSymLink t path perms linkPath =>
    exact safe_map (safe_createSymLink t fuel path perms linkPath) fun _ _ hg => hg
  | createHardLink t path linkPath => exact safe_map (safe_createHardLink t fuel path linkPath) fun _ _ hg => hg
  | delete t path => exact safe_map (safe_delete t fuel path) fun _ _ hg => hg
  | «open» t path openMode =>
    refine safe_map (safe_open t fuel path openMode) fun res g hg => ?_
    cases res with
    | ok d => exact hg
    | error e => exact hg
  | _ => exact h.elim

/-! ## What holds between two sections -/

/-- Every directory has distinct names for linked nodes, a deleted one none, and nobody holds its lock. -/
structure Consistent (s : State) : Prop where
  names : ∀ m mp n node, s.mounts.cell m = some mp → n ∈ mp.nodeCache → s.nodes.cell n = some node →
    (node.entries.map DirectoryEntry.name).Nodup
  linked : ∀ m mp n node, s.mounts.cell m = some mp → n ∈ mp.nodeCache → s.nodes.cell n = some node →
    ∀ e ∈ node.entries, ∃ n' ∈ mp.nodeCache, ∃ node', s.nodes.cell n' = some node' ∧ node'.id = e.nodeID ∧
      0 < node'.linkCount
  deleted : ∀ m mp n node, s.mounts.cell m = some mp → n ∈ mp.nodeCache → s.nodes.cell n = some node →
    node.linkCount = 0 → node.entries = []
  unlocked : ∀ m mp n node, s.mounts.cell m = some mp → n ∈ mp.nodeCache → s.nodes.cell n = some node →
    node.dirLock = false

/-- The references to nodes and mounts, other than those of descriptors and child mounts, are held by calls that
have not returned, `refs i` and `mrefs i` by thread `i`. What `s` had too many of at a mount is still there. -/
def GivenBack (s : State) (pool : Pool State Label Reply) : Prop :=
  ∃ refs mrefs : Nat → Nat → Nat,
    (∀ i t, pool.threads[i]? = some t → t.Returned → ∀ k, refs i k = 0 ∧ mrefs i k = 0) ∧
    (∀ m mp n node, pool.state.mounts.cell m = some mp → n ∈ mp.nodeCache → pool.state.nodes.cell n = some node →
      node.refCount = openOn pool.state.descs (fun n' => n' = n) +
        ((List.range pool.threads.length).map fun i => refs i n).sum) ∧
    ∃ leaked : MountRef → Nat,
      (∀ m mp, s.mounts.cell m = some mp → m ≠ s.rootMount → m ≠ s.pipeMount →
        mp.refCount = openOn s.descs (fun n => n ∈ mp.nodeCache) + childCount s.mounts m + leaked m) ∧
      ∀ m mp, pool.state.mounts.cell m = some mp → m ≠ pool.state.rootMount → m ≠ pool.state.pipeMount →
        mp.refCount = openOn pool.state.descs (fun n => n ∈ mp.nodeCache) + childCount pool.state.mounts m +
          leaked m + ((List.range pool.threads.length).map fun i => mrefs i m).sum

/-- An entry is a link to the node that it names. -/
theorem links_pos {v : View} {cache : List NodeRef} {n : NodeRef} {e : DirectoryEntry} (hn : n ∈ cache)
    (he : e ∈ v.entriesOf n) : 0 < v.links cache e.nodeID := by
  have hmem : (v.entriesOf n).countP (fun e' => e'.nodeID = e.nodeID) ∈
      cache.map fun n => (v.entriesOf n).countP fun e' => e'.nodeID = e.nodeID := List.mem_map.2 ⟨n, hn, rfl⟩
  have hpos : 0 < (v.entriesOf n).countP fun e' => e'.nodeID = e.nodeID :=
    List.countP_pos_iff.2 ⟨e, he, decide_eq_true rfl⟩
  exact hpos.trans_le (List.single_le_sum (fun _ _ => Nat.zero_le _) _ hmem)

theorem Inv.consistent {H : Held} (hI : Inv H s) : Consistent s := by
  refine ⟨fun m mp n node hm hn hcell => ?_, fun m mp n node hm hn hcell e he => ?_,
    fun m mp n node hm hn hcell hzero => ?_, fun m mp n node hm hn hcell => (hI.nodeOK hm hn hcell).dirLock⟩
  · have hok := hI.nodeOK hm hn hcell
    by_cases hp : m = s.pipeMount
    · rw [(hok.pipe hp).entries]
      exact List.nodup_nil
    · exact (hok.temp hp).names
  · have hok := hI.nodeOK hm hn hcell
    by_cases hp : m = s.pipeMount
    · rw [(hok.pipe hp).entries] at he
      cases he
    · obtain ⟨n', hn', hid⟩ := ((hok.temp hp).entry e he).cached
      obtain ⟨node', hcell', hid'⟩ := cell_of_idOf hid
      refine ⟨n', hn', node', hcell', hid', ?_⟩
      have hlinks : 0 < s.view.links mp.nodeCache e.nodeID :=
        links_pos hn (by rw [entriesOf_of_cell hcell]; exact he)
      rw [((hI.nodeOK hm hn' hcell').temp hp).linkCount, hid']
      have hcache : mp.skel.nodeCache = mp.nodeCache := rfl
      rw [hcache]
      omega
  · have hok := hI.nodeOK hm hn hcell
    by_cases hp : m = s.pipeMount
    · exact (hok.pipe hp).entries
    · exact (hok.temp hp).unlinked hzero

/-- The tokens of the threads, thread by thread. -/
theorem total_sum (k : Key) (gs : List Held) :
    total k gs.sum = ((List.range gs.length).map fun i => total k (gs.getD i 0)).sum := by
  induction gs with
  | nil => rfl
  | cons g gs ih =>
    rw [List.sum_cons, total_add, ih, List.length_cons, List.range_succ_eq_map, List.map_cons, List.sum_cons,
      List.map_map]
    rfl

/-- What the shares of the threads say about the counters. -/
theorem givenBack (hrest : Rest L s) (hinv : Pool.Inv Inv owes Conflict Leftover L pool) : GivenBack s pool := by
  obtain ⟨gs, hlength, hI, hthreads⟩ := hinv
  refine ⟨fun i n => total (.node n) (gs.getD i 0), fun i m => total (.mount m) (gs.getD i 0), ?_, ?_,
    fun m => total (.mount m) L, ?_, ?_⟩
  · intro i t ht hreturned k
    have hlt : i < gs.length := by
      rw [hlength]
      exact (List.getElem?_eq_some_iff.1 ht).1
    have hget : gs[i]? = some (gs.getD i 0) := by
      rw [List.getD_eq_getElem?_getD, List.getElem?_eq_getElem hlt]
      rfl
    have hsafe := (hthreads i t _ ht hget).1
    have hleft : ∃ res, Leftover res (gs.getD i 0) := by
      obtain ⟨rest, done⟩ := t
      cases rest with
      | ret res => exact ⟨res, hsafe⟩
      | act => exact hreturned.elim
    obtain ⟨res, hleft⟩ := hleft
    exact ⟨hleft.total_eq_zero (by simp), hleft.total_eq_zero (by simp)⟩
  · intro m mp n node hm hn hcell
    have hcount := (hI.nodeOK hm hn hcell).refCount
    have hL : total (.node n) L = 0 := by
      refine Multiset.countP_eq_zero.2 fun t ht hkey => ?_
      obtain ⟨m, root, known, rfl⟩ := Tok.key_eq_node hkey
      exact hrest.idle _ ht
    rw [total_add, hL, Nat.add_zero, total_sum, hlength] at hcount
    exact hcount
  · intro m mp hm hroot hpipe
    exact (hrest.inv.mounts m mp hm).other hroot hpipe
  · intro m mp hm hroot hpipe
    have hcount := (hI.mounts m mp hm).other hroot hpipe
    rw [total_add, total_sum, hlength] at hcount
    dsimp only
    omega

/-- Before the first step the threads hold nothing. -/
theorem start_inv (hrest : Rest L s) (hcalls : ∀ c ∈ calls, c.1.Updates) :
    Pool.Inv Inv owes Conflict Leftover L (start K s calls) := by
  refine ⟨List.replicate calls.length 0, by simp [start], ?_, fun i t g ht hg => ?_⟩
  · have hsum : (List.replicate calls.length (0 : Held)).sum = 0 := by simp
    rw [hsum, zero_add]
    exact hrest.inv
  · obtain ⟨c, hc, rfl⟩ := List.mem_map.1 (List.mem_of_getElem? ht)
    obtain rfl := List.eq_of_mem_replicate (List.mem_of_getElem? hg)
    exact ⟨(hcalls c hc).safe c.2, fun l hl => (not_owes_zero hl).elim⟩

end VFS

end ChenixOS
