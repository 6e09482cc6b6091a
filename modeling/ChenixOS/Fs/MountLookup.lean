import ChenixOS.Fs.ComponentWalk
import ChenixOS.Fs.MountTree
import ChenixOS.Lib.Routes

/-!
# The mount that serves a path

`FindMountPoint` goes to the first child that matches and never comes back, and `Mount` puts a new child behind the
others. A mount is hung below the one that served its path, so each mount is found when its own path is looked up, and
that makes the greedy search right.

**Theorem (`findMountPoint_longest`).** As long as mounts are made at canonical paths without links, `FindMountPoint`
finds the mount with the longest path of which the names are a prefix of those looked up, and no two mounts have the
same path.
-/

namespace ChenixOS.VFS

variable {K : Kernel} {user : ThreadRef → Nat × Nat} {L : Held} {s s' : State} {w w' : Wiring} {m p c r : MountRef}
  {names front : List Str} {path : Str} {fuel : Nat}

/-! ## Paths of names -/

@[simp] theorem joinNames_singleton (x : Str) : joinNames [x] = x := List.intercalate_singleton ..

/-- The names of a canonical path. -/
def pathNames (path : Str) : List Str := if path = [] then [] else path.splitOn '/'

theorem pathNames_joinNames (h : ∀ x ∈ names, IsName x) : pathNames (joinNames names) = names := by
  rcases eq_or_ne names [] with rfl | hne
  · rfl
  · rw [pathNames, if_neg (mt (joinNames_eq_nil h).1 hne)]
    exact List.splitOn_intercalate '/' (fun x hx => (h x hx).noSlash) hne

theorem Canonical.eq_joinNames (h : Canonical path) :
    path = joinNames (pathNames path) ∧ ∀ x ∈ pathNames path, IsName x := by
  obtain ⟨names, rfl, hnames⟩ := h
  rw [pathNames_joinNames hnames]
  exact ⟨rfl, hnames⟩

theorem joinNames_append (hfront : front ≠ []) (hnames : names ≠ []) :
    joinNames (front ++ names) = joinNames front ++ '/' :: joinNames names := by
  induction front with
  | nil => exact absurd rfl hfront
  | cons x front ih =>
    rcases eq_or_ne front [] with rfl | hne
    · rw [List.singleton_append, joinNames_cons x hnames, joinNames_singleton]
    · rw [List.cons_append, joinNames_cons x (by simp [hne]), joinNames_cons x hne, ih hne, List.append_assoc,
        List.cons_append]

theorem mountCmp_append (pre path mount : Str) : mountCmp (pre ++ path) (pre ++ mount) = mountCmp path mount := by
  induction pre with
  | nil => rfl
  | cons c pre ih => simpa [mountCmp] using ih

/-- **`MountCmp` compares names.** -/
theorem mountCmp_joinNames (hnames : ∀ x ∈ names, IsName x) (hfront : ∀ x ∈ front, IsName x) (hne : front ≠ []) :
    mountCmp (joinNames names) (joinNames front) = true ↔ front <+: names := by
  constructor
  · intro h
    induction front generalizing names with
    | nil => exact absurd rfl hne
    | cons x front ih =>
      have hx := hfront x List.mem_cons_self
      cases names with
      | nil =>
        have hnil : joinNames ([] : List Str) = [] := rfl
        have hne' : joinNames (x :: front) ≠ [] := joinNames_ne_nil hx.ne_nil
        obtain ⟨c, rest, hcons⟩ := List.exists_cons_of_ne_nil hne'
        rw [hnil, hcons] at h
        cases h
      | cons y names =>
        have hy := hnames y List.mem_cons_self
        -- both begin with the same name
        have hxy : x = y := by
          have hcomp : component (joinNames (y :: names)) = x := by
            rcases mountCmp_iff.1 h with heq | ⟨rest, heq⟩
            · rw [heq, component_joinNames hx]
            · rcases eq_or_ne front [] with rfl | hf
              · rw [heq, joinNames_singleton, component_append hx.noSlash]
              · rw [heq, joinNames_cons x hf, List.append_assoc, List.cons_append, component_append hx.noSlash]
          rw [← hcomp, component_joinNames hy]
        subst hxy
        refine List.cons_prefix_cons.2 ⟨rfl, ?_⟩
        rcases eq_or_ne front [] with rfl | hf
        · exact List.nil_prefix
        · rcases eq_or_ne names [] with rfl | hn
          · rw [joinNames_cons x hf, joinNames_singleton] at h
            have happ := mountCmp_append x [] ('/' :: joinNames front)
            rw [List.append_nil] at happ
            rw [happ] at h
            cases h
          · rw [joinNames_cons x hf, joinNames_cons x hn, mountCmp_append] at h
            exact ih (fun z hz => hnames z (List.mem_cons_of_mem x hz)) (fun z hz => hfront z (List.mem_cons_of_mem x hz))
              hf (by simpa [mountCmp] using h)
  · rintro ⟨rest, rfl⟩
    refine mountCmp_iff.2 ?_
    rcases eq_or_ne rest [] with rfl | hr
    · exact .inl (by rw [List.append_nil])
    · exact .inr ⟨joinNames rest, joinNames_append hne hr⟩

/-- **`AdvancePath` takes the names of the mount away.** -/
theorem advancePath_joinNames (hnames : ∀ x ∈ names, IsName x) (h : front <+: names) :
    advancePath (joinNames names) (joinNames front) = joinNames (names.drop front.length) := by
  have hskip : ∀ l : List Str, (∀ x ∈ l, IsName x) → skipSlash (joinNames l) = joinNames l := by
    intro l hl
    cases l with
    | nil => rfl
    | cons x l =>
      have hx := hl x List.mem_cons_self
      obtain ⟨c, name, hc⟩ := List.exists_cons_of_ne_nil hx.ne_nil
      have hslash : c ≠ '/' := fun heq => hx.noSlash (by rw [hc, heq]; exact List.mem_cons_self)
      obtain ⟨rest, hrest⟩ : ∃ rest, joinNames (x :: l) = c :: rest := by
        rcases eq_or_ne l [] with rfl | hne
        · exact ⟨name, by rw [joinNames_singleton, hc]⟩
        · exact ⟨name ++ '/' :: joinNames l, by rw [joinNames_cons x hne, hc, List.cons_append]⟩
      rw [hrest]
      unfold skipSlash
      split
      · rename_i heq
        exact absurd (List.cons.inj heq).1 hslash
      · rfl
  obtain ⟨rest, rfl⟩ := h
  rw [List.drop_left, advancePath]
  rcases eq_or_ne front [] with rfl | hf
  · exact hskip rest hnames
  · rcases eq_or_ne rest [] with rfl | hr
    · rw [List.append_nil, List.drop_length]
      rfl
    · rw [joinNames_append hf hr, List.drop_left]
      rfl

/-! ## The search -/

/-- The mounts below each other, with the names of their paths. -/
def Wiring.routes (w : Wiring) : Routes MountRef Str where
  children m := (w.mount m).elim [] Wire.childMounts
  key m := (w.mount m).elim [] fun x => pathNames x.path

/-- What `Inv` says of the mounts. -/
structure Wiring.Wired (w : Wiring) : Prop where
  root : ∃ x, w.mount w.root = some x ∧ x.path = [] ∧ w.root ≠ w.pipe
  pipe : ∀ x, w.mount w.pipe = some x → x.childMounts = []
  child : ∀ m x c, w.mount m = some x → c ∈ x.childMounts →
    c ≠ w.pipe ∧ c ≠ w.root ∧ ∃ y, w.mount c = some y ∧ y.parent = some m
  nodup : ∀ m x, w.mount m = some x → x.childMounts.Nodup

/-- **Every mount is found at its own path**, which is canonical. -/
structure Wiring.Found (w : Wiring) : Prop where
  canonical : ∀ m x, w.mount m = some x → m ≠ w.pipe → Canonical x.path
  leads : ∀ m x, w.mount m = some x → m ≠ w.pipe → w.routes.Leads (pathNames x.path) w.root m

theorem Inv.wired (hI : Inv L s) : s.wiring.Wired where
  root := by
    obtain ⟨skel, hskel, hp⟩ := hI.shape.root
    obtain ⟨mp, hm, -⟩ := cell_of_skel hskel
    exact ⟨mp.wire, wiring_mount hm, (hI.mountOK hm).path rfl, hp⟩
  pipe x hx := by
    obtain ⟨mp, hm, rfl⟩ := Option.map_eq_some_iff.1 hx
    exact ((hI.mountOK hm).pipes rfl).2
  child m x c hx hc := by
    obtain ⟨mp, hm, rfl⟩ := Option.map_eq_some_iff.1 hx
    obtain ⟨skel, hcp, hroot, hparent⟩ := (hI.mountOK hm).children c hc
    obtain ⟨cp, hcell, rfl⟩ := cell_of_skel hcp.1
    exact ⟨hcp.2, hroot, cp.wire, wiring_mount hcell, hparent⟩
  nodup m x hx := by
    obtain ⟨mp, hm, rfl⟩ := Option.map_eq_some_iff.1 hx
    exact (hI.mountOK hm).childNodup

section Search

variable (hW : w.Wired) (hN : w.Nested) (hF : w.Found)

include hW in
theorem routes_child (hc : c ∈ w.routes.children m) : ∃ x y, w.mount m = some x ∧ c ∈ x.childMounts ∧
    w.mount c = some y ∧ m ≠ w.pipe ∧ c ≠ w.pipe ∧ y.parent = some m := by
  cases hm : w.mount m with
  | none =>
    simp only [Wiring.routes, hm] at hc
    cases hc
  | some x =>
    simp only [Wiring.routes, hm] at hc
    obtain ⟨hpipe, -, y, hy, hparent⟩ := hW.child m x c hm hc
    refine ⟨x, y, rfl, hc, hy, ?_, hpipe, hparent⟩
    rintro rfl
    rw [Option.elim_some, hW.pipe x hm] at hc
    cases hc

include hW hN hF in
/-- The names of a child are those of its parent with something behind them. -/
theorem routes_nested : w.routes.Nested := by
  intro m c hc
  obtain ⟨x, y, hx, hmem, hy, hpipe, hpipe', -⟩ := routes_child hW hc
  obtain ⟨hxpath, hxnames⟩ := (hF.canonical m x hx hpipe).eq_joinNames
  obtain ⟨hypath, hynames⟩ := (hF.canonical c y hy hpipe').eq_joinNames
  obtain ⟨hlt, hor⟩ := hN m x c y hx hmem hy
  have hkey : w.routes.key m = pathNames x.path := by simp only [Wiring.routes, hx, Option.elim_some]
  have hkey' : w.routes.key c = pathNames y.path := by simp only [Wiring.routes, hy, Option.elim_some]
  rw [hkey, hkey']
  refine ⟨?_, fun heq => ?_⟩
  · rcases eq_or_ne (pathNames x.path) [] with hnil | hne
    · rw [hnil]
      exact List.nil_prefix
    · have hcmp : mountCmp y.path x.path = true := by
        refine hor.resolve_left fun hroot => hne ?_
        obtain ⟨x', hx', hnil, -⟩ := hW.root
        rw [← hroot, hx, Option.some.injEq] at hx'
        rw [hx', hnil]
        rfl
      rw [hxpath, hypath] at hcmp
      exact (mountCmp_joinNames hynames hxnames hne).1 hcmp
  · rw [hxpath, hypath, heq] at hlt
    exact absurd hlt (Nat.lt_irrefl _)

end Search

/-- **The child that a search goes to** is the first one that serves the names. -/
theorem childFor_joinNames (hI : Inv L s) (hN : s.wiring.Nested) (hF : s.wiring.Found) (hnames : ∀ x ∈ names, IsName x) :
    s.tree.childFor (joinNames names) m = (s.wiring.routes.children m).find? (s.wiring.routes.serves names) := by
  have hchildren : s.tree.children m = s.wiring.routes.children m := by
    simp only [State.tree, Wiring.routes, State.wiring]
    cases s.mounts.cell m with
    | none => rfl
    | some mp => rfl
  rw [Tree.childFor, hchildren]
  refine List.find?_congr fun c hc => ?_
  obtain ⟨hnested, hne⟩ := routes_nested hI.wired hN hF m c hc
  obtain ⟨x, y, -, -, hy, -, hpipe, -⟩ := routes_child hI.wired hc
  obtain ⟨hypath, hynames⟩ := (hF.canonical c y hy hpipe).eq_joinNames
  have hkey : s.wiring.routes.key c = pathNames y.path := by simp only [Wiring.routes, hy, Option.elim_some]
  have hpath : s.tree.path c = some y.path := by
    obtain ⟨cp, hcell, rfl⟩ := Option.map_eq_some_iff.1 hy
    simp [hcell, MountPoint.wire]
  have hnil : pathNames y.path ≠ [] := by
    rintro hnil
    rw [hkey, hnil] at hnested hne
    exact hne (List.prefix_nil.1 hnested)
  rw [hpath, Option.any_some, Bool.eq_iff_iff, Routes.serves_iff, hkey, hypath, mountCmp_joinNames hnames hynames hnil,
    ← hypath]

theorem leads_of_mountFrom (hI : Inv L s) (hN : s.wiring.Nested) (hF : s.wiring.Found) (hnames : ∀ x ∈ names, IsName x)
    (h : s.tree.mountFrom (joinNames names) fuel m = some r) : s.wiring.routes.Leads names m r := by
  induction fuel generalizing m with
  | zero => cases h
  | succ fuel ih =>
    rw [Tree.mountFrom] at h
    have hchild := childFor_joinNames (m := m) hI hN hF hnames
    cases hc : s.tree.childFor (joinNames names) m with
    | none =>
      rw [hc] at h hchild
      obtain rfl := Option.some.inj h
      exact .stop hchild.symm
    | some c =>
      rw [hc] at h hchild
      exact .down hchild.symm (ih h)

/-! ## What keeps mounts found -/

/-- A mount adds a leaf. -/
theorem Attaches.adds {id : Nat} (h : Attaches w p c path id w') (hW : w.Wired) : w.routes.Adds w'.routes p c := by
  obtain ⟨hfresh, ⟨x, hx, -, -⟩, -, rfl⟩ := h
  have hpc : p ≠ c := by
    rintro rfl
    rw [hfresh] at hx
    cases hx
  refine ⟨?_, ?_, fun n hnp hnc => ?_, fun n hnc => ?_, fun n hmem => ?_⟩
  · simp [Wiring.routes, Wiring.attach, hpc, hx]
  · simp [Wiring.routes, attach_mount_self]
  · simp [Wiring.routes, Wiring.attach, hnp, hnc]
  · by_cases hnp : n = p
    · subst hnp
      simp [Wiring.routes, Wiring.attach, hnc, hx]
    · simp [Wiring.routes, Wiring.attach, hnp, hnc]
  · obtain ⟨-, y, -, -, hy, -⟩ := routes_child hW hmem
    rw [hfresh] at hy
    cases hy

/-- **A mount that is hung below the one that serves its path is found**, and the others still are. -/
theorem Attaches.found {id : Nat} (h : Attaches w p c path id w') (hW : w.Wired) (hF : w.Found)
    (hnames : ∀ x ∈ names, IsName x) (hpath : path = joinNames names) (hlead : w.routes.Leads names w.root p) :
    w'.Found := by
  have hadds := h.adds hW
  obtain ⟨hfresh, ⟨x, hx, hleft, -⟩, hpipe, rfl⟩ := h
  have hself : (w.attach p c path id).mount c = some ⟨some p, path, id, []⟩ := attach_mount_self
  have hold : ∀ m y, m ≠ c → (w.attach p c path id).mount m = some y → ∃ y₀, w.mount m = some y₀ ∧ y.path = y₀.path := by
    intro m y hne hy
    simp only [Wiring.attach, if_neg hne] at hy
    split_ifs at hy with hp
    · obtain ⟨y₀, hy₀, rfl⟩ := Option.map_eq_some_iff.1 hy
      exact ⟨y₀, hy₀, rfl⟩
    · exact ⟨y, hy, rfl⟩
  have hroot : w.root ≠ c := by
    obtain ⟨y, hy, -⟩ := hW.root
    rintro heq
    rw [heq, hfresh] at hy
    cases hy
  have hpc : p ≠ c := by
    rintro rfl
    rw [hfresh] at hx
    cases hx
  have hkey : (w.attach p c path id).routes.key c = names := by
    simp only [Wiring.routes, hself, Option.elim_some]
    rw [hpath, pathNames_joinNames hnames]
  constructor
  · intro m y hy hm
    by_cases hmc : m = c
    · rw [hmc, hself, Option.some.injEq] at hy
      rw [← hy]
      exact ⟨names, hpath, hnames⟩
    · obtain ⟨y₀, hy₀, heq⟩ := hold m y hmc hy
      rw [heq]
      exact hF.canonical m y₀ hy₀ hm
  · intro m y hy hm
    by_cases hmc : m = c
    · rw [hmc, hself, Option.some.injEq] at hy
      have hypath : pathNames y.path = (w.attach p c path id).routes.key c := by
        rw [← hy, hkey, hpath, pathNames_joinNames hnames]
      rw [hypath, hmc]
      exact Routes.Leads.to_leaf hadds (by rw [hkey]; exact hlead) hroot hpc
    · obtain ⟨y₀, hy₀, heq⟩ := hold m y hmc hy
      rw [heq]
      refine (hF.leads m y₀ hy₀ hm).add hadds hroot ?_
      rw [hkey]
      refine or_iff_not_imp_left.2 fun hmp hle => hleft ?_
      obtain rfl := not_not.1 hmp
      -- the names that the parent serves are not its own
      obtain rfl : y₀ = x := Option.some.inj (hy₀.symm.trans hx)
      obtain ⟨hxpath, hxnames⟩ := (hF.canonical m y₀ hx hm).eq_joinNames
      rw [hpath, hxpath]
      have hge : pathNames y₀.path <+: names := by
        rcases hlead.serves with hr | hserves
        · obtain ⟨z, hz, hnil, -⟩ := hW.root
          rw [← hr, hx, Option.some.injEq] at hz
          rw [hz, hnil]
          exact List.nil_prefix
        · simpa only [Wiring.routes, hx, Option.elim_some] using hserves
      rw [advancePath_joinNames hnames hge, hle.eq_of_length (Nat.le_antisymm hle.length_le hge.length_le), List.drop_length]
      rfl

/-- A mount without mounts below it is a leaf. -/
theorem detach_removes (hW : w.Wired) {x y : Wire} (hx : w.mount m = some x) (hparent : x.parent = some p)
    (hp : w.mount p = some y) (hne : p ≠ m) (hleaf : x.childMounts = []) :
    w.routes.Removes (w.detach p m).routes p m := by
  refine ⟨?_, ?_, fun n hnp hnm => ?_, fun n hnm => ?_, fun n hnp hmem => ?_, ?_⟩
  · simp [Wiring.routes, Wiring.detach, hne, hp]
  · simp [Wiring.routes, hx, hleaf]
  · simp [Wiring.routes, Wiring.detach, hnp, hnm]
  · by_cases hnp : n = p
    · subst hnp
      simp [Wiring.routes, Wiring.detach, hnm, hp]
    · simp [Wiring.routes, Wiring.detach, hnp, hnm]
  · obtain ⟨-, z, -, -, hz, -, -, hpar⟩ := routes_child hW hmem
    obtain rfl : z = x := Option.some.inj (hz.symm.trans hx)
    exact hnp (Option.some.inj (hpar.symm.trans hparent))
  · simp only [Wiring.routes, hp, Option.elim_some]
    exact hW.nodup p y hp

theorem Wiring.Found.detach (hF : w.Found) (hW : w.Wired) {x y : Wire} (hx : w.mount m = some x)
    (hparent : x.parent = some p) (hp : w.mount p = some y) (hne : p ≠ m) (hleaf : x.childMounts = [])
    (hroot : w.root ≠ m) : (w.detach p m).Found := by
  have hremoves := detach_removes hW hx hparent hp hne hleaf
  have hold : ∀ n z, (w.detach p m).mount n = some z → n ≠ m ∧ ∃ z₀, w.mount n = some z₀ ∧ z.path = z₀.path := by
    intro n z hz
    simp only [Wiring.detach] at hz
    split_ifs at hz with hn hnp
    · obtain ⟨z₀, hz₀, rfl⟩ := Option.map_eq_some_iff.1 hz
      exact ⟨hn, z₀, hz₀, rfl⟩
    · exact ⟨hn, z, hz, rfl⟩
  constructor
  · intro n z hz hn
    obtain ⟨-, z₀, hz₀, heq⟩ := hold n z hz
    rw [heq]
    exact hF.canonical n z₀ hz₀ hn
  · intro n z hz hn
    obtain ⟨hnm, z₀, hz₀, heq⟩ := hold n z hz
    rw [heq]
    exact (hF.leads n z₀ hz₀ hn).remove hremoves hroot hnm

/-! ## Runs -/

/-- A `Mount` at a canonical path that leads through no link. -/
def PlainMount (s : State) : Call → Prop
  | .mount t mountPoint => ∀ buffer, preparePath 255 (s.threads t).cwd mountPoint = .ok (.ok buffer) → Canonical buffer ∧
      ∀ fuel r, s.tree.resolve (s.threads t) true false fuel buffer = some (.ok r) → r.buffer = buffer
  | _ => True

theorem Step.found {call : Call} {res : Reply} (hrest : Rest L s) (hN : s.wiring.Nested) (hF : s.wiring.Found)
    (hplain : PlainMount s call) (h : Step K s call res s') : s'.wiring.Found := by
  have hI := hrest.inv
  by_cases hmount : ∃ t path, call = .mount t path
  · obtain ⟨t, path, rfl⟩ := hmount
    obtain ⟨-, fuel, hrun⟩ := h
    obtain ⟨r, hrun, -⟩ := Prog.run_map_ok.1 hrun
    rcases mount_wiring hI hrun with heq | ⟨buffer, r, c, id, hprep, hres, hattach⟩
    · rwa [heq]
    · obtain ⟨hcanonical, hlink⟩ := hplain buffer hprep
      obtain ⟨names, hbuffer, hnames⟩ := hcanonical
      have hpath : r.buffer = joinNames names := (hlink fuel r hres).trans hbuffer
      refine hattach.found hI.wired hF hnames hpath ?_
      obtain ⟨hfor, -⟩ := resolve_ok hres
      rw [hpath] at hfor
      exact leads_of_mountFrom hI hN hF hnames hfor
  · by_cases hunmount : ∃ t path, call = .unmount t path
    · obtain ⟨t, path, rfl⟩ := hunmount
      obtain ⟨-, fuel, hrun⟩ := h
      obtain ⟨r, hrun, -⟩ := Prog.run_map_ok.1 hrun
      rcases unmount_wiring hI hrun with heq | ⟨buffer, m, p, mp, pp, hun⟩
      · rwa [heq]
      · rw [hun.state, wiring_dropMount]
        have hleaf : mp.wire.childMounts = [] := by
          refine List.eq_nil_iff_forall_not_mem.2 fun c hc => ?_
          obtain ⟨-, -, y, hy, hparent⟩ := hI.wired.child m mp.wire c (wiring_mount hun.cell) hc
          obtain ⟨cp, hcell, rfl⟩ := Option.map_eq_some_iff.1 hy
          exact (hrest.unused_of_refCount hun.cell hun.notRoot hun.notPipe hun.refCount).2 c cp hcell hparent
        exact hF.detach hI.wired (wiring_mount hun.cell) hun.parent (wiring_mount hun.parentCell) hun.parentNe hleaf
          (Ne.symm hun.notRoot)
    · rw [h.wiring (fun t path he => hmount ⟨t, path, he⟩) fun t path he => hunmount ⟨t, path, he⟩]
      exact hF

theorem found_init : (State.init K user).wiring.Found := by
  have hroot : ∀ m x, (State.init K user).wiring.mount m = some x → m ≠ (State.init K user).wiring.pipe →
      m = (State.init K user).rootMount ∧ x.path = [] ∧ x.childMounts = [] := by
    intro m x hx hp
    obtain ⟨mp, hm, rfl⟩ := Option.map_eq_some_iff.1 hx
    rcases init_skel K user (skel_of_cell hm) with ⟨hr, id, heq, -⟩ | ⟨hpipe, -⟩
    · exact ⟨hr, congrArg MountPoint.path heq, congrArg MountPoint.childMounts heq⟩
    · exact absurd hpipe hp
  constructor
  · intro m x hx hp
    rw [(hroot m x hx hp).2.1]
    exact canonical_nil
  · intro m x hx hp
    obtain ⟨rfl, -, hnil⟩ := hroot m x hx hp
    have hchildren : (State.init K user).wiring.routes.children (State.init K user).wiring.root = [] := by
      have hx' : (State.init K user).wiring.mount (State.init K user).wiring.root = some x := hx
      simp only [Wiring.routes, hx', Option.elim_some, hnil]
    exact .stop (by rw [hchildren, List.find?_nil])

theorem Run.reachable {A : State → Call → Prop} (h : Run K A (State.init K user) s) : Reachable K user s := by
  induction h with
  | refl => exact .refl
  | tail _ hstep ih =>
    obtain ⟨c, res, -, hstep⟩ := hstep
    exact ih.tail ⟨c, res, trivial, hstep⟩

theorem Run.found (h : Run K PlainMount (State.init K user) s) : s.wiring.Found := by
  induction h with
  | refl => exact found_init
  | tail hprev hstep ih =>
    obtain ⟨call, res, hplain, hstep⟩ := hstep
    obtain ⟨L, hrest⟩ := Run.rest (rest_init K user) hprev
    exact hstep.found hrest (Run.reachable hprev).nested ih hplain

/-- The mount that should serve the names: no mount has more of them in its path. -/
structure LongestMount (s : State) (names : List Str) (m : MountRef) (mp : MountPoint) : Prop where
  cell : s.mounts.cell m = some mp
  notPipe : m ≠ s.pipeMount
  canonical : mp.path = joinNames (pathNames mp.path)
  serves : pathNames mp.path <+: names
  longest : ∀ m' mp', s.mounts.cell m' = some mp' → m' ≠ s.pipeMount → pathNames mp'.path <+: names →
    pathNames mp'.path <+: pathNames mp.path
  rest : advancePath (joinNames names) mp.path = joinNames (names.drop (pathNames mp.path).length)

/-- **`FindMountPoint` finds the longest prefix**, and no two mounts have the same path. -/
theorem findMountPoint_longest (h : Run K PlainMount (State.init K user) s) :
    (∀ names, (∀ x ∈ names, IsName x) → ∃ m mp,
      (findMountPoint (joinNames names)).run s = .ok (m, s.hold m) ∧ LongestMount s names m mp) ∧
    ∀ m mp m' mp', s.mounts.cell m = some mp → s.mounts.cell m' = some mp' → m ≠ s.pipeMount → m' ≠ s.pipeMount →
      mp.path = mp'.path → m = m' := by
  have hF := h.found
  obtain ⟨L, hrest⟩ := Run.rest (rest_init K user) h
  have hI := hrest.inv
  have hN := h.reachable.nested
  have hnested := routes_nested hI.wired hN hF
  have hkey : ∀ m mp, s.mounts.cell m = some mp → s.wiring.routes.key m = pathNames mp.path := fun m mp hm => by
    simp only [Wiring.routes, wiring_mount hm, Option.elim_some, MountPoint.wire]
  have hfound : ∀ m mp, s.mounts.cell m = some mp → m ≠ s.pipeMount →
      s.wiring.routes.Leads (pathNames mp.path) s.rootMount m := fun m mp hm hp => hF.leads m mp.wire (wiring_mount hm) hp
  refine ⟨fun names hnames => ?_, fun m mp m' mp' hm hm' hp hp' hpath => ?_⟩
  · have hfind := findMountPoint_run (joinNames names) hI
    obtain ⟨r, hfor⟩ := Option.isSome_iff_exists.1 (mountFor_isSome hI hN (joinNames names))
    rw [hfor] at hfind
    obtain ⟨hrun, mp, hserve⟩ := hfind
    have hleads : s.wiring.routes.Leads names s.rootMount r := leads_of_mountFrom hI hN hF hnames hfor
    have hcanonical := hF.canonical r mp.wire (wiring_mount hserve.cell) hserve.notPipe
    have hprefix : pathNames mp.path <+: names := by
      rcases hleads.serves with hr | hserves
      · have hnil : mp.path = [] := (hI.mountOK hserve.cell).path hr
        rw [hnil]
        exact List.nil_prefix
      · rwa [hkey r mp hserve.cell] at hserves
    refine ⟨r, mp, hrun, hserve.cell, hserve.notPipe, hcanonical.eq_joinNames.1, hprefix, ?_, ?_⟩
    · intro m' mp' hm' hp' hprefix'
      have hlong := hleads.longest hnested (hkey m' mp' hm' ▸ hfound m' mp' hm' hp') (hkey m' mp' hm' ▸ hprefix')
      rwa [hkey m' mp' hm', hkey r mp hserve.cell] at hlong
    · have hpath : mp.path = joinNames (pathNames mp.path) := hcanonical.eq_joinNames.1
      have hrest := advancePath_joinNames hnames hprefix
      rwa [← hpath] at hrest
  · exact (hfound m mp hm hp).unique (hpath ▸ hfound m' mp' hm' hp')

/-- A path that leads to its node without a link. -/
theorem plainMount_of_round {t : ThreadRef} {mountPoint : Option Str} {buffer rest : Str} {node parent : Option Nat}
    (hprep : preparePath 255 (s.threads t).cwd mountPoint = .ok (.ok buffer)) (hcanonical : Canonical buffer)
    (hround : s.tree.round (s.threads t) true false buffer = some (m, .ok node parent rest)) :
    PlainMount s (.mount t mountPoint) := by
  intro buffer' hprep'
  obtain rfl : buffer = buffer' := Except.ok.inj (Except.ok.inj (hprep.symm.trans hprep'))
  refine ⟨hcanonical, fun fuel r hres => ?_⟩
  cases fuel with
  | zero => cases hres
  | succ fuel =>
    rw [Tree.resolve, hround] at hres
    cases hres
    rfl

/-- A folder in a folder. -/
def nestedFolders : List Call :=
  let perms : Permissions := ⟨7, 7, 7, 0⟩
  [.createFolder 0 (some ['a']) perms, .createFolder 0 (some ['a', '/', 'b']) perms]

/-- A file system is mounted at `a/b`, below the root. -/
theorem findMountPoint_longest_nested : ∃ s, Run .plain PlainMount (State.init .plain fun _ => (0, 0)) s ∧
    (∃ m mp, (findMountPoint (joinNames [['a'], ['b'], ['c']])).run s = .ok (m, s.hold m) ∧
      LongestMount s [['a'], ['b'], ['c']] m mp) ∧
    ∀ m mp m' mp', s.mounts.cell m = some mp → s.mounts.cell m' = some mp' → m ≠ s.pipeMount → m' ≠ s.pipeMount →
      mp.path = mp'.path → m = m' := by
  have hplay : ((play .plain 1 nestedFolders (State.init .plain fun _ => (0, 0))).any fun p =>
      preparePath 255 (p.2.threads 0).cwd (some ['a', '/', 'b']) = .ok (.ok ['a', '/', 'b']) ∧
      ((p.2.tree.round (p.2.threads 0) true false ['a', '/', 'b']).any fun q =>
        q.2 == .ok (some 2) (some 1) []) = true ∧
      ((mount .plain 0 1 (some ['a', '/', 'b'])).run p.2).toOption.isSome = true) = true := by decide +kernel
  obtain ⟨⟨replies, s⟩, hs, hall⟩ := (Option.any_eq_true _ _).1 hplay
  obtain ⟨hprep, hround, hmount⟩ := of_decide_eq_true hall
  obtain ⟨⟨m, found⟩, hq, hfound⟩ := (Option.any_eq_true _ _).1 hround
  obtain rfl := eq_of_beq hfound
  have hcanonical : Canonical ['a', '/', 'b'] :=
    ⟨[['a'], ['b']], rfl, by simpa using ⟨⟨by decide, by decide, by decide, by decide⟩,
      ⟨by decide, by decide, by decide, by decide⟩⟩⟩
  cases hrun : (mount .plain 0 1 (some ['a', '/', 'b'])).run s with
  | error e =>
    rw [hrun] at hmount
    cases hmount
  | ok q =>
    obtain ⟨res, s'⟩ := q
    have hfolders : ∀ c ∈ nestedFolders, ∀ s, PlainMount s c := by
      simp [nestedFolders, PlainMount]
    have hreach : Run .plain PlainMount (State.init .plain fun _ => (0, 0)) s' :=
      (run_of_play_of hfolders hs).tail ⟨.mount 0 (some ['a', '/', 'b']), .code res,
        plainMount_of_round hprep hcanonical hq, fun d hd => (by cases hd), 1, Prog.run_map_ok.2 ⟨res, hrun, rfl⟩⟩
    obtain ⟨hfind, hunique⟩ := findMountPoint_longest hreach
    refine ⟨s', hreach, hfind _ ?_, hunique⟩
    simpa using ⟨⟨by decide, by decide, by decide, by decide⟩, ⟨by decide, by decide, by decide, by decide⟩,
      ⟨by decide, by decide, by decide, by decide⟩⟩

end ChenixOS.VFS
