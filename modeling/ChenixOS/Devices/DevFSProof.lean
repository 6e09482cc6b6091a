import ChenixOS.Devices.DevFS

/-!
# The directory of the devices is consistent

**The condition.** A `DevFS` that is constructed throws the directory away that lookups see, so it may
only be constructed while a newer one waits or no device is registered; a newer directory may only be
published while no other lookup is in the one that is destroyed; and the device whose number is the id of
the root nodes may not be registered.

**Theorem (`directory_consistent`).** In every state that a run under the condition reaches, a lookup
finds every device registered so far, a lookup that is under way is in a directory that is still there,
and every number leads to its device. The next event keeps this up if and only if it meets the condition.

The invariant follows the newest directory, which is `g_NewDir` if there is one: it lists all devices, and
no lookup is in it before it is published.
-/

namespace ChenixOS.DevFS

open VFS Transitions

variable {A : Allocator} {s s' : State} {e : Event} {heap heap' heap'' : Heap Directory}
  {dir dir' dir'' n : Nat}

@[simp] theorem listing_nil : listing [] = [] := rfl

@[simp] theorem listing_append (devices : List DevReg) (dev : DevReg) :
    listing (devices ++ [dev]) = listing devices ++ [⟨dev.name, devices.length + 1⟩] := by
  simp [listing]

theorem mem_listing {devices : List DevReg} {entry : DirectoryEntry} (h : entry ∈ listing devices) :
    ∃ dev ∈ devices, entry.name = dev.name := by
  obtain ⟨i, hi, rfl⟩ := List.mem_mapIdx.1 h
  exact ⟨devices[i], List.getElem_mem hi, rfl⟩

/-! ## Directories that grow -/

/-- The directory behind `dir` has become the one behind `dir'`, with these entries; all the others are
where they were. -/
structure Grows (heap heap' : Heap Directory) (dir dir' : Nat) (entries : List DirectoryEntry) :
    Prop where
  content : (heap'.cell dir').map Directory.entries = some entries
  keeps : ∀ b d, b ≠ dir → heap.cell b = some d → b ≠ dir' ∧ heap'.cell b = some d

theorem Grows.trans {es es' : List DirectoryEntry} (h : Grows heap heap' dir dir' es)
    (h' : Grows heap' heap'' dir' dir'' es') : Grows heap heap'' dir dir'' es' where
  content := h'.content
  keeps b d hb hd := h'.keeps b d (h.keeps b d hb hd).1 (h.keeps b d hb hd).2

theorem addEntry_ok {d : Directory} {name : Str} {nodeID : Nat} (hd : heap.cell dir = some d)
    (hname : name.length < nameSizeof) :
    ∃ dir' heap', addEntry A dir name nodeID heap = .ok (dir', heap') ∧
      Grows heap heap' dir dir' (d.entries ++ [⟨name, nodeID⟩]) := by
  by_cases hroom : d.capacity > d.entries.length
  · refine ⟨dir, _, by simp only [addEntry, hd, Directory.addEntry, if_pos hname, if_pos hroom]; rfl,
      ?_, fun b d' hb hd' => ⟨hb, ?_⟩⟩
    · simp
    · simpa [hb] using hd'
  · have hfresh : dir ≠ heap.fresh A := Heap.ne_fresh A hd
    refine ⟨heap.fresh A, _,
      by simp only [addEntry, hd, Directory.addEntry, if_pos hname, if_neg hroom]; rfl, ?_, ?_⟩
    · simp [hfresh.symm]
    · intro b d' hb hd'
      have hne : b ≠ heap.fresh A := Heap.ne_fresh A hd'
      exact ⟨hne, by simpa [hb, hne] using hd'⟩

theorem copyTo_ok (entries : List DirectoryEntry) {d : Directory} (hd : heap.cell dir = some d)
    (hnames : ∀ entry ∈ entries, entry.name.length < nameSizeof) :
    ∃ dir' heap', copyTo A entries dir heap = .ok (dir', heap') ∧
      Grows heap heap' dir dir' (d.entries ++ entries) := by
  induction entries generalizing dir heap d with
  | nil => exact ⟨dir, heap, rfl, by simp [hd], fun b d' hb hd' => ⟨hb, hd'⟩⟩
  | cons entry entries ih =>
    obtain ⟨dir₁, heap₁, hadd, hgrows⟩ :
        ∃ dir₁ heap₁, addEntry A dir entry.name entry.nodeID heap = .ok (dir₁, heap₁) ∧
          Grows heap heap₁ dir dir₁ (d.entries ++ [entry]) :=
      addEntry_ok hd (hnames entry (List.mem_cons_self ..))
    obtain ⟨d₁, hd₁, hes⟩ := Option.map_eq_some_iff.1 hgrows.content
    obtain ⟨dir₂, heap₂, hcopy, hgrows'⟩ :=
      ih hd₁ fun entry' h => hnames entry' (List.mem_cons_of_mem _ h)
    refine ⟨dir₂, heap₂, ?_, ?_⟩
    · simp only [copyTo, hadd]
      exact hcopy
    · rw [hes, List.append_assoc] at hgrows'
      exact hgrows.trans hgrows'

/-! ## The invariant -/

structure Inv (s : State) : Prop where
  names : ∀ dev ∈ s.g_Devices, dev.name.length < nameSizeof
  few : s.g_Devices.length < rootNode
  /-- The directory that lookups see is there. -/
  current : ∃ a d, s.g_CurrentDir = some a ∧ s.heap.cell a = some d
  /-- The newest directory lists the devices. -/
  newest : ((s.g_NewDir <|> s.g_CurrentDir).bind s.heap.cell).map Directory.entries =
    some (listing s.g_Devices)
  /-- Nobody has seen the directory that waits to be published. -/
  unseen : ∀ a, s.g_NewDir = some a →
    s.g_CurrentDir ≠ some a ∧ ∀ n, s.dirLock n = true → (s.nodes n).cachedDir ≠ some a
  seen : ∀ n, s.dirLock n = true → s.seen n ≤ s.g_Devices.length
  lookups : ∀ n, s.dirLock n = true → Lists s n (s.g_Devices.take (s.seen n))

/-! ## Registering -/

/-- `CheckAndCopyEntry` leaves a new directory that lists the devices. -/
theorem checkAndCopyEntry_ok (h : Inv s) :
    ∃ newDir heap', checkAndCopyEntry A s = .ok { s with g_NewDir := some newDir, heap := heap' } ∧
      (heap'.cell newDir).map Directory.entries = some (listing s.g_Devices) ∧
      ∀ b d, s.g_NewDir ≠ some b → s.heap.cell b = some d → b ≠ newDir ∧ heap'.cell b = some d := by
  obtain ⟨a, d, ha, hd⟩ := h.current
  have hnewest := h.newest
  cases hnew : s.g_NewDir with
  | some newDir =>
    rw [hnew] at hnewest
    refine ⟨newDir, s.heap, ?_, hnewest, fun b d' hb hd' => ⟨fun heq => hb (heq ▸ rfl), hd'⟩⟩
    simp only [checkAndCopyEntry, hnew]
    rw [← hnew]
  | none =>
    have hes : d.entries = listing s.g_Devices := by simpa [hnew, ha, hd] using hnewest
    obtain ⟨newDir, heap', hcopy, hgrows⟩ :=
      copyTo_ok (A := A) d.entries
        (Heap.cell_store_self s.heap (s.heap.fresh A) (Directory.create (d.entries.length + 5)))
        fun entry hentry => by
          obtain ⟨dev, hdev, hname⟩ := mem_listing (hes ▸ hentry)
          exact hname ▸ h.names dev hdev
    refine ⟨newDir, heap', ?_, ?_, fun b d' _ hd' => ?_⟩
    · simp only [checkAndCopyEntry, hnew, ha, Option.bind_some, hd]
      rw [hcopy]
      rfl
    · rw [hgrows.content, hes]
      rfl
    · have hne : b ≠ s.heap.fresh A := Heap.ne_fresh A hd'
      exact hgrows.keeps b d' hne (by rw [Heap.cell_store_ne _ _ hne]; exact hd')

/-- A registration leaves a new directory that lists the device as well. -/
theorem register_ok (h : Inv s) {blockDev : Bool} {name : Str} {driverID devID : Nat}
    (hname : name.length < nameSizeof) :
    let devices := s.g_Devices ++ [⟨name, blockDev, driverID, devID, s.g_Devices.length⟩]
    ∃ newDir heap', register A blockDev name driverID devID s =
        .ok { s with g_NewDir := some newDir, heap := heap', g_Devices := devices } ∧
      (heap'.cell newDir).map Directory.entries = some (listing devices) ∧
      ∀ b d, s.g_NewDir ≠ some b → s.heap.cell b = some d → b ≠ newDir ∧ heap'.cell b = some d := by
  intro devices
  obtain ⟨dir₁, heap₁, hcheck, hes, hkeeps⟩ := checkAndCopyEntry_ok (A := A) h
  obtain ⟨d, hd, hentries⟩ := Option.map_eq_some_iff.1 hes
  obtain ⟨newDir, heap', hadd, hgrows⟩ :
      ∃ newDir heap', addEntry A dir₁ name (s.g_Devices.length + 1) heap₁ = .ok (newDir, heap') ∧
        Grows heap₁ heap' dir₁ newDir (d.entries ++ [⟨name, s.g_Devices.length + 1⟩]) :=
    addEntry_ok hd hname
  refine ⟨newDir, heap', ?_, ?_, fun b d' hb hd' => ?_⟩
  · rw [register, hcheck]
    show (addEntry A dir₁ name (s.g_Devices.length + 1) heap₁ >>= _) = _
    rw [hadd]
    rfl
  · rw [listing_append, ← hentries]
    exact hgrows.content
  · obtain ⟨hne, hd₁⟩ := hkeeps b d' hb hd'
    exact hgrows.keeps b d' hne hd₁

theorem Inv.lookup_alive (h : Inv s) (hn : s.dirLock n = true) :
    ∃ a d, (s.nodes n).cachedDir = some a ∧ s.heap.cell a = some d ∧
      d.entries = listing (s.g_Devices.take (s.seen n)) := by
  obtain ⟨d, hd, hes⟩ := Option.map_eq_some_iff.1 (h.lookups n hn)
  obtain ⟨a, ha, hd⟩ := Option.bind_eq_some_iff.1 hd
  exact ⟨a, d, ha, hd, hes⟩

theorem Lists.of_cell {a : Nat} {d : Directory} {devices : List DevReg}
    (ha : (s.nodes n).cachedDir = some a) (hd : s.heap.cell a = some d)
    (hes : d.entries = listing devices) : Lists s n devices := by
  simp [Lists, State.dirOf, ha, hd, hes]

/-- A registration under the condition keeps the invariant. -/
theorem Inv.register (h : Inv s) {blockDev : Bool} {name : Str} {driverID devID : Nat}
    (hname : name.length < nameSizeof) (hfew : s.g_Devices.length + 1 ≠ rootNode)
    (hs : register A blockDev name driverID devID s = .ok s') : Inv s' := by
  obtain ⟨newDir, heap', hreg, hes, hkeeps⟩ := @register_ok A s h blockDev name driverID devID hname
  obtain rfl := Except.ok.inj (hreg.symm.trans hs)
  obtain ⟨a, d, ha, hd⟩ := h.current
  have hfew' := h.few
  refine ⟨?_, ?_, ?_, hes, ?_, ?_, ?_⟩
  · intro dev hdev
    obtain hdev | rfl := List.mem_append.1 hdev |>.imp_right List.mem_singleton.1
    · exact h.names dev hdev
    · exact hname
  · simp only [List.length_append, List.length_singleton]
    omega
  · exact ⟨a, d, ha, (hkeeps a d (fun hnew => (h.unseen a hnew).1 ha) hd).2⟩
  · rintro b hb
    obtain rfl := Option.some.inj hb
    refine ⟨fun hb => ?_, fun n hn hb => ?_⟩
    · obtain rfl := Option.some.inj (ha.symm.trans hb)
      exact (hkeeps a d (fun hnew => (h.unseen a hnew).1 ha) hd).1 rfl
    · obtain ⟨b, d', hb', hd', -⟩ := h.lookup_alive hn
      obtain rfl := Option.some.inj (hb'.symm.trans hb)
      exact (hkeeps b d' (fun hnew => (h.unseen b hnew).2 n hn hb') hd').1 rfl
  · intro n hn
    exact (h.seen n hn).trans (by simp)
  · intro n hn
    obtain ⟨b, d', hb, hd', hes'⟩ := h.lookup_alive hn
    refine Lists.of_cell hb (hkeeps b d' (fun hnew => (h.unseen b hnew).2 n hn hb) hd').2 ?_
    rw [hes']
    show _ = listing ((s.g_Devices ++ _).take (s.seen n))
    rw [List.take_append_of_le_length (h.seen n hn)]

/-! ## Publishing -/

/-- No lookup but that of the event is in the directory that is destroyed. -/
def Unused (s : State) : Prop :=
  s.g_NewDir = none ∨ ∀ m, s.dirLock m = true → (s.nodes m).cachedDir ≠ s.g_CurrentDir

/-- **The condition.** -/
def Safe (s : State) : Event → Prop
  | .registerChar .. | .registerBlock .. => s.g_Devices.length + 1 ≠ rootNode
  | .lookup _ => Unused s
  | .read id _ => id = rootNode → Unused s
  | .unlock _ => True
  | .construct => s.g_NewDir ≠ none ∨ s.g_Devices = []

/-- Publishing puts the newest directory in place and destroys the one before it. -/
theorem publish_ok (h : ∃ a d, s.g_CurrentDir = some a ∧ s.heap.cell a = some d) :
    ∃ heap', publish s =
        .ok { s with g_CurrentDir := s.g_NewDir <|> s.g_CurrentDir, g_NewDir := none, heap := heap' } ∧
      (∀ b d, s.g_NewDir = none ∨ s.g_CurrentDir ≠ some b → s.heap.cell b = some d →
        heap'.cell b = some d) ∧
      (s.g_NewDir ≠ none → s.g_CurrentDir.bind heap'.cell = none) := by
  obtain ⟨a, d, ha, hd⟩ := h
  cases hnew : s.g_NewDir with
  | none =>
    refine ⟨s.heap, ?_, fun b d' _ hd' => hd', fun hne => absurd rfl hne⟩
    have hs : { s with g_CurrentDir := none <|> s.g_CurrentDir, g_NewDir := none } = s := by
      show { s with g_NewDir := none } = s
      rw [← hnew]
    rw [publish, hnew, hs]
  | some newDir =>
    refine ⟨s.heap.free a, ?_, fun b d' hb hd' => ?_, fun _ => ?_⟩
    · simp only [publish, hnew, ha, destroy, hd]
      rfl
    · obtain hb | hb := hb
      · cases hb
      · rw [Heap.cell_free_ne _ fun heq => hb (ha.trans (congrArg some heq.symm))]
        exact hd'
    · simp [ha]

/-- The state after the newest directory was published and a node was given it. -/
def refresh (s : State) (heap' : Heap Directory) (lock : Nat → Bool) (n : Nat) (node : Node) : State :=
  State.setNode { s with
    g_CurrentDir := s.g_NewDir <|> s.g_CurrentDir
    g_NewDir := none
    heap := heap'
    dirLock := lock } n node

theorem Inv.newest_alive (h : Inv s) :
    ∃ a d, (s.g_NewDir <|> s.g_CurrentDir) = some a ∧ s.heap.cell a = some d ∧
      d.entries = listing s.g_Devices ∧ (s.g_NewDir = none ∨ s.g_CurrentDir ≠ some a) := by
  obtain ⟨d, hd, hes⟩ := Option.map_eq_some_iff.1 h.newest
  obtain ⟨a, ha, hd⟩ := Option.bind_eq_some_iff.1 hd
  refine ⟨a, d, ha, hd, hes, ?_⟩
  cases hnew : s.g_NewDir with
  | none => exact .inl rfl
  | some newDir =>
    obtain rfl : newDir = a := by simpa [hnew] using ha
    exact .inr (h.unseen newDir hnew).1

/-- The node that was given the newest directory lists all devices. -/
theorem Inv.refresh_lists (h : Inv s) {lock : Nat → Bool} {node : Node}
    (hkeeps : ∀ b d, s.g_NewDir = none ∨ s.g_CurrentDir ≠ some b → s.heap.cell b = some d →
      heap'.cell b = some d)
    (hnode : node.cachedDir = (s.g_NewDir <|> s.g_CurrentDir)) :
    Lists (refresh s heap' lock n node) n s.g_Devices := by
  obtain ⟨a, d, ha, hd, hes, hother⟩ := h.newest_alive
  refine Lists.of_cell (a := a) (d := d) ?_ (hkeeps a d hother hd) hes
  show (Function.update s.nodes n node n).cachedDir = some a
  rw [Function.update_self, hnode, ha]

theorem Inv.refresh (h : Inv s) (hunused : Unused s) {lock : Nat → Bool} {node : Node}
    (hlock : ∀ m, lock m = true → m = n ∨ s.dirLock m = true)
    (hkeeps : ∀ b d, s.g_NewDir = none ∨ s.g_CurrentDir ≠ some b → s.heap.cell b = some d →
      heap'.cell b = some d)
    (hnode : node.cachedDir = (s.g_NewDir <|> s.g_CurrentDir)) : Inv (refresh s heap' lock n node) := by
  obtain ⟨a, d, ha, hd, hes, hother⟩ := h.newest_alive
  have hd' := hkeeps a d hother hd
  refine ⟨h.names, h.few, ⟨a, d, ha, hd'⟩, ?_, ?_, fun m hm => ?_, fun m hm => ?_⟩
  · show (((none <|> (s.g_NewDir <|> s.g_CurrentDir)).bind heap'.cell).map Directory.entries) = _
    rw [ha]
    simp [hd', hes, DevFS.refresh, State.setNode]
  · intro b hb
    cases hb
  · show Function.update s.seen n s.g_Devices.length m ≤ s.g_Devices.length
    by_cases hmn : m = n
    · rw [hmn, Function.update_self]
    · rw [Function.update_of_ne hmn]
      exact h.seen m ((hlock m hm).resolve_left hmn)
  · by_cases hmn : m = n
    · subst hmn
      have hseen : (DevFS.refresh s heap' lock m node).seen m = s.g_Devices.length :=
        Function.update_self ..
      rw [hseen]
      show Lists _ m (s.g_Devices.take s.g_Devices.length)
      rw [List.take_length]
      exact h.refresh_lists hkeeps hnode
    · have hm' := (hlock m hm).resolve_left hmn
      obtain ⟨b, d', hb, hcell, hes'⟩ := h.lookup_alive hm'
      have hb' : s.g_NewDir = none ∨ s.g_CurrentDir ≠ some b :=
        hunused.imp_right fun hne heq => hne m hm' (hb.trans heq.symm)
      refine Lists.of_cell (a := b) (d := d') ?_ (hkeeps b d' hb' hcell) ?_
      · show (Function.update s.nodes n node m).cachedDir = some b
        rw [Function.update_of_ne hmn, hb]
      · show _ = listing (s.g_Devices.take (Function.update s.seen n s.g_Devices.length m))
        rw [Function.update_of_ne hmn, hes']

theorem updateDir_ok (h : Inv s) (lock : Nat → Bool) (n : Nat) :
    ∃ heap', updateDir n { s with dirLock := lock } = .ok (refresh s heap' lock n
        { s.nodes n with info := .folder (s.g_NewDir <|> s.g_CurrentDir) }) ∧
      (∀ b d, s.g_NewDir = none ∨ s.g_CurrentDir ≠ some b → s.heap.cell b = some d →
        heap'.cell b = some d) ∧
      (s.g_NewDir ≠ none → s.g_CurrentDir.bind heap'.cell = none) := by
  obtain ⟨heap', hpublish, hkeeps, hgone⟩ := publish_ok (s := { s with dirLock := lock }) h.current
  refine ⟨heap', ?_, hkeeps, hgone⟩
  rw [updateDir, hpublish]
  rfl

/-- The node that `ReadNode` makes of a root. -/
def rootOf (dir : Option Nat) : Node where
  type := .directory
  ownerUID := 0
  ownerGID := 0
  permissions := ⟨5, 5, 5, 0⟩
  id := rootNode
  linkCount := 1
  info := .folder dir

/-- The node that `ReadNode` makes of the device with this number. -/
def nodeOf (id : Nat) (dr : DevReg) : Node where
  type := if dr.blockDev then .deviceBlock else .deviceChar
  info := .device dr.driverID dr.devID
  ownerGID := 0
  ownerUID := 0
  permissions := ⟨1, 1, 1, 0⟩
  id
  linkCount := 1

theorem readNode_root (h : Inv s) (n : Nat) :
    ∃ heap', readNode rootNode n s = .ok (refresh s heap' s.dirLock n
        (rootOf (s.g_NewDir <|> s.g_CurrentDir))) ∧
      (∀ b d, s.g_NewDir = none ∨ s.g_CurrentDir ≠ some b → s.heap.cell b = some d →
        heap'.cell b = some d) ∧
      (s.g_NewDir ≠ none → s.g_CurrentDir.bind heap'.cell = none) := by
  obtain ⟨heap', hpublish, hkeeps, hgone⟩ := publish_ok h.current
  refine ⟨heap', ?_, hkeeps, hgone⟩
  unfold readNode
  rw [if_pos rfl, hpublish]
  rfl

theorem readNode_device {i : Nat} {dr : DevReg} (hi : s.g_Devices[i]? = some dr)
    (hroot : i + 1 ≠ rootNode) (n : Nat) :
    readNode (i + 1) n s = .ok (s.setNode n (nodeOf (i + 1) dr)) := by
  unfold readNode
  rw [if_neg hroot]
  simp only [hi]
  rfl

/-- A node that no lookup is in may be overwritten. -/
theorem Inv.setNode (h : Inv s) (hn : s.dirLock n = false) (node : Node) : Inv (s.setNode n node) := by
  have hne : ∀ m, s.dirLock m = true → m ≠ n := by
    rintro m hm rfl
    rw [hn] at hm
    cases hm
  refine ⟨h.names, h.few, h.current, h.newest, fun a ha => ⟨(h.unseen a ha).1, fun m hm => ?_⟩,
    fun m hm => ?_, fun m hm => ?_⟩
  · show (Function.update s.nodes n node m).cachedDir ≠ some a
    rw [Function.update_of_ne (hne m hm)]
    exact (h.unseen a ha).2 m hm
  · show Function.update s.seen n s.g_Devices.length m ≤ _
    rw [Function.update_of_ne (hne m hm)]
    exact h.seen m hm
  · obtain ⟨b, d, hb, hd, hes⟩ := h.lookup_alive hm
    refine Lists.of_cell (a := b) (d := d) ?_ hd ?_
    · show (Function.update s.nodes n node m).cachedDir = some b
      rw [Function.update_of_ne (hne m hm), hb]
    · show _ = listing (s.g_Devices.take (Function.update s.seen n s.g_Devices.length m))
      rw [Function.update_of_ne (hne m hm), hes]

/-- A new instance under the condition keeps the invariant. -/
theorem Inv.construct (h : Inv s) (hsafe : s.g_NewDir ≠ none ∨ s.g_Devices = []) :
    Inv (construct A s) := by
  have hkeeps : ∀ b d, s.heap.cell b = some d →
      b ≠ s.heap.fresh A ∧ (DevFS.construct A s).heap.cell b = some d := fun b d hd =>
    ⟨Heap.ne_fresh A hd, by rw [← hd]; exact Heap.cell_store_ne _ _ (Heap.ne_fresh A hd)⟩
  refine ⟨h.names, h.few, ⟨_, _, rfl, Heap.cell_store_self ..⟩, ?_, fun a ha => ⟨fun heq => ?_, ?_⟩,
    h.seen, fun m hm => ?_⟩
  · obtain ⟨a, d, ha, hd, hes, -⟩ := h.newest_alive
    show ((s.g_NewDir <|> some (s.heap.fresh A)).bind (DevFS.construct A s).heap.cell).map _ = _
    cases hnew : s.g_NewDir with
    | some newDir =>
      obtain rfl : newDir = a := by simpa [hnew] using ha
      show ((DevFS.construct A s).heap.cell newDir).map Directory.entries = _
      rw [(hkeeps newDir d hd).2]
      exact congrArg some hes
    | none =>
      have hnil := hsafe.resolve_left (absurd hnew)
      simp [DevFS.construct, hnil, Directory.create]
  · obtain rfl := Option.some.inj heq
    obtain ⟨a, d, ha', hd, -⟩ := h.newest_alive
    have ha₁ : s.g_NewDir = some (s.heap.fresh A) := ha
    obtain rfl : s.heap.fresh A = a := by simpa [ha₁] using ha'
    exact (hkeeps _ d hd).1 rfl
  · exact (h.unseen a ha).2
  · obtain ⟨b, d, hb, hd, hes⟩ := h.lookup_alive hm
    exact Lists.of_cell hb (hkeeps b d hd).2 hes

theorem inv_boot : Inv (boot A) := by
  refine ⟨by simp [boot, DevFS.construct, blank], ?_, ⟨_, _, rfl, Heap.cell_store_self ..⟩, ?_, ?_, ?_, ?_⟩
  · show 0 < 0xFFFF
    decide
  · simp [boot, DevFS.construct, blank, Directory.create]
  · intro a ha
    cases ha
  · intro n hn
    cases hn
  · intro n hn
    cases hn

/-! ## Runs under the condition -/

/-- What the directory owes to its users. -/
structure Consistent (s : State) : Prop where
  /-- A lookup that is under way is in a directory that is still there, with the devices that were
  registered when it began. -/
  held : ∀ n, s.dirLock n = true → Lists s n (s.g_Devices.take (s.seen n))
  /-- `UpdateDir` shows every device registered so far. -/
  complete : ∀ n, ∃ s', updateDir n s = .ok s' ∧ Lists s' n s.g_Devices
  /-- The number of an entry leads to its device. -/
  numbers : ∀ (i : Nat) dr, s.g_Devices[i]? = some dr → ∀ n, ∃ s', readNode (i + 1) n s = .ok s' ∧
    (s'.nodes n).type = (if dr.blockDev then .deviceBlock else .deviceChar) ∧
    (s'.nodes n).info = .device dr.driverID dr.devID

theorem Inv.consistent (h : Inv s) : Consistent s where
  held := h.lookups
  complete n := by
    obtain ⟨heap', hupdate, hkeeps, -⟩ := updateDir_ok h s.dirLock n
    exact ⟨_, hupdate, h.refresh_lists hkeeps rfl⟩
  numbers i dr hi n := by
    have hlt : i < s.g_Devices.length := (List.getElem?_eq_some_iff.1 hi).1
    have hfew := h.few
    refine ⟨_, readNode_device hi (by omega) n, ?_, ?_⟩
    · show (Function.update s.nodes n (nodeOf (i + 1) dr) n).type = _
      rw [Function.update_self]
      rfl
    · show (Function.update s.nodes n (nodeOf (i + 1) dr) n).info = _
      rw [Function.update_self]
      rfl

/-- Publishing while a lookup is in the directory that is destroyed takes it away from that lookup. -/
theorem not_consistent_of_used (hn : s.dirLock n = false) (hused : ¬ Unused s)
    {lock : Nat → Bool} {node : Node} (hlock : ∀ m, s.dirLock m = true → lock m = true)
    (hgone : s.g_NewDir ≠ none → s.g_CurrentDir.bind heap'.cell = none) :
    ¬ Consistent (refresh s heap' lock n node) := by
  intro hc
  simp only [Unused, not_or, not_forall, not_not] at hused
  obtain ⟨hnew, m, hm, hdir⟩ := hused
  have hmn : m ≠ n := by
    rintro rfl
    rw [hn] at hm
    cases hm
  have hheld := hc.held m (hlock m hm)
  have hnone : (refresh s heap' lock n node).dirOf m = none := by
    show ((Function.update s.nodes n node m).cachedDir).bind heap'.cell = none
    rw [Function.update_of_ne hmn, hdir, hgone hnew]
  rw [Lists, hnone] at hheld
  cases hheld

/-- The device whose number is the id of the root nodes is not found. -/
theorem not_consistent_of_root {dr : DevReg} {i : Nat} (hi : s.g_Devices[i]? = some dr)
    (hroot : i + 1 = rootNode) : ¬ Consistent s := by
  intro hc
  obtain ⟨s', hread, htype, -⟩ := hc.numbers i dr hi 0
  rw [hroot] at hread
  unfold readNode at hread
  rw [if_pos rfl] at hread
  cases hpublish : publish s with
  | error e =>
    rw [hpublish] at hread
    cases hread
  | ok s₁ =>
    simp only [hpublish] at hread
    obtain rfl := Except.ok.inj hread
    have hdir : ((s₁.setNode 0 (rootOf s₁.g_CurrentDir)).nodes 0).type = .directory := by
      show (Function.update s₁.nodes 0 (rootOf s₁.g_CurrentDir) 0).type = _
      rw [Function.update_self]
      rfl
    have htype' := hdir.symm.trans htype
    split at htype' <;> cases htype'

/-- A registration succeeds, keeps the invariant under the condition, and breaks the numbers outside of
it. -/
theorem register_step (h : Inv s) (blockDev : Bool) {name : Str} (driverID devID : Nat)
    (hname : name.length < nameSizeof) :
    ∃ s', register A blockDev name driverID devID s = .ok s' ∧
      (s.g_Devices.length + 1 ≠ rootNode → Inv s') ∧
      (Consistent s' → s.g_Devices.length + 1 ≠ rootNode) := by
  obtain ⟨newDir, heap', hreg, -⟩ := @register_ok A s h blockDev name driverID devID hname
  refine ⟨_, hreg, fun hroot => h.register hname hroot hreg, fun hc hroot => ?_⟩
  exact not_consistent_of_root (i := s.g_Devices.length) List.getElem?_concat_length hroot hc

/-- **One event**: it does not fail, and it keeps the directory consistent exactly under the condition. -/
theorem perform_step (h : Inv s) (he : Enabled s e) :
    ∃ s', perform A s e = .ok s' ∧ (Safe s e → Inv s') ∧ (Consistent s' → Safe s e) := by
  cases e with
  | registerChar name driverID devID => exact register_step h false driverID devID he
  | registerBlock name driverID devID => exact register_step h true driverID devID he
  | lookup n =>
    obtain ⟨heap', hupdate, hkeeps, hgone⟩ := updateDir_ok h (Function.update s.dirLock n true) n
    refine ⟨_, hupdate, fun hsafe => h.refresh hsafe (fun m hm => ?_) hkeeps rfl, fun hc => ?_⟩
    · by_cases hmn : m = n
      · exact .inl hmn
      · exact .inr (by rwa [Function.update_of_ne hmn] at hm)
    · by_contra hused
      refine not_consistent_of_used he hused (fun m hm => ?_) hgone hc
      by_cases hmn : m = n
      · rw [hmn, Function.update_self]
      · rwa [Function.update_of_ne hmn]
  | unlock n =>
    have hlock : ∀ m, Function.update s.dirLock n false m = true → s.dirLock m = true := by
      intro m hm
      by_cases hmn : m = n
      · rw [hmn, Function.update_self] at hm
        cases hm
      · rwa [Function.update_of_ne hmn] at hm
    refine ⟨_, rfl, fun _ => ⟨h.names, h.few, h.current, h.newest, fun a ha => ?_, ?_, ?_⟩,
      fun _ => trivial⟩
    · exact ⟨(h.unseen a ha).1, fun m hm => (h.unseen a ha).2 m (hlock m hm)⟩
    · exact fun m hm => h.seen m (hlock m hm)
    · exact fun m hm => h.lookups m (hlock m hm)
  | read id n =>
    obtain ⟨hn, hid⟩ := he
    by_cases hroot : id = rootNode
    · subst hroot
      obtain ⟨heap', hread, hkeeps, hgone⟩ := readNode_root h n
      refine ⟨_, hread, fun hsafe => h.refresh (hsafe rfl) (fun m hm => .inr hm) hkeeps rfl, ?_⟩
      intro hc _
      by_contra hused
      exact not_consistent_of_used hn hused (fun m hm => hm) hgone hc
    · obtain ⟨hpos, hle⟩ := hid.resolve_left hroot
      obtain ⟨i, rfl⟩ := Nat.exists_eq_succ_of_ne_zero hpos.ne'
      have hi : s.g_Devices[i]? = some s.g_Devices[i] := List.getElem?_eq_getElem hle
      exact ⟨_, readNode_device hi hroot n, fun _ => h.setNode hn _, fun _ hid => absurd hid hroot⟩
  | construct =>
    refine ⟨_, rfl, fun hsafe => h.construct hsafe, fun hc => ?_⟩
    by_contra hlost
    simp only [Safe, not_or, not_not] at hlost
    obtain ⟨hnew, hne⟩ := hlost
    -- the next lookup sees the empty directory of the new instance
    obtain ⟨s', hupdate, hlists⟩ := hc.complete 0
    have hnew' : (construct A s).g_NewDir = none := hnew
    rw [updateDir, publish, hnew'] at hupdate
    obtain rfl := Except.ok.inj hupdate
    have hempty : listing s.g_Devices = [] := by
      simpa [Lists, State.dirOf, State.setNode, construct, Node.cachedDir, Directory.create] using hlists
    exact hne (List.length_eq_zero_iff.1 (by simpa [listing] using congrArg List.length hempty))

/-- The next state, if the operation of the event does not fail. -/
def step (A : Allocator) (s : State) (e : Event) : Option State := (perform A s e).toOption

/-- **The directory of the devices, under the condition.** In every state that a run reaches it is
consistent; no event can fail; and the next one keeps the directory consistent if and only if it meets
the condition as well. -/
theorem directory_consistent
    (h : Runs (step A) (fun s e => Enabled s e ∧ Safe s e) (boot A) s) :
    Consistent s ∧ ∀ e, Enabled s e → ∃ s', perform A s e = .ok s' ∧ (Consistent s' ↔ Safe s e) := by
  have hinv : Inv s := h.inv inv_boot fun s e s' hi hok hs => by
    obtain ⟨s₁, hperform, hkeep, -⟩ := perform_step (A := A) hi hok.1
    rw [step, hperform] at hs
    obtain rfl := Option.some.inj hs
    exact hkeep hok.2
  refine ⟨hinv.consistent, fun e he => ?_⟩
  obtain ⟨s', hperform, hkeep, hsafe⟩ := perform_step (A := A) hinv he
  exact ⟨s', hperform, hsafe, fun hs => (hkeep hs).consistent⟩

/-- Two devices, of which the second is registered during a lookup. -/
theorem directory_consistent_two :
    ∃ s : State, Consistent s ∧ s.g_Devices.length = 2 ∧ s.dirLock 0 = true := by
  have hrun : Runs (step Allocator.bump) (fun s e => Enabled s e ∧ Safe s e) (boot Allocator.bump) _ :=
    .head (e := .registerChar ['z', 'e', 'r', 'o'] 4 1)
      ⟨show 4 < 50 by decide, show 0 + 1 ≠ 0xFFFF by decide⟩ rfl <|
    .head (e := .lookup 0) ⟨rfl, .inr fun _ hm => absurd hm Bool.false_ne_true⟩ rfl <|
    .head (e := .registerBlock ['r', 'a', 'm', '0'] 2 0)
      ⟨show 4 < 50 by decide, show 1 + 1 ≠ 0xFFFF by decide⟩ rfl <|
    .refl _
  exact ⟨_, (directory_consistent hrun).1, rfl, rfl⟩

/-- A device is registered and seen by a lookup; then another instance is constructed, as a mount does,
and the next lookup finds an empty directory. -/
theorem construct_loses_devices :
    ∃ s, Runs (step Allocator.bump) Enabled (boot Allocator.bump) s ∧ s.g_Devices.length = 1 ∧
      (s.dirOf 0).map Directory.entries = some [] := by
  have hrun : Runs (step Allocator.bump) Enabled (boot Allocator.bump) _ :=
    .head (e := .registerChar ['z', 'e', 'r', 'o'] 4 1) (show 4 < 50 by decide) rfl <|
    .head (e := .lookup 0) rfl rfl <|
    .head (e := .unlock 0) trivial rfl <|
    .head (e := .construct) trivial rfl <|
    .head (e := .lookup 0) rfl rfl <|
    .refl _
  exact ⟨_, hrun, rfl, rfl⟩

end ChenixOS.DevFS
