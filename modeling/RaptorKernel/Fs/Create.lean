import RaptorKernel.Fs.Visits

/-!
# ramfs_create and ramfs_resolve

Both walk the path, in the two modes of `walk`.

* `create_fails`       why a walk finds neither a node nor a place for one;
* `resolve_created`    what resolved before resolves to the same node;
* `resolve_new`        what resolves afterwards did so before, or comes by the new node;
* `ramfsCreate_agrees` all of it about one call.
-/

namespace Raptor
open Forest

section
variable {s s' : Ramfs} {held : List Nat} {F F' : Forest Nat} {cwd cur r : Nat} {n : RamfsNode}
  {w : WalkOut} {t : RamfsType} {cs : List (List UInt8)} {path : List UInt8}

/-! ## when nothing is created -/

/-- A walk that finds neither a node nor a parent: a component is too long, or the last one is a name
and what precedes it does not lead to a directory, or it is `.` or `..`. -/
theorem create_fails (h : TreeInv s F) (hb : (s.tree F).addrs.length < loopBound) {init : List (List UInt8)}
    {last : List UInt8} (hn : s.node cur = some n)
    (hw : walkComps s true cur (init ++ [last]) = .ok w) (hpar : w.parent = 0) :
    (∃ c ∈ init ++ [last], ramfsNameMax ≤ c.length) ∨
      (∀ d m, follow s cur init = .ok d → s.node d = some m → m.type ≠ .dir) ∨
      last = dot ∨ last = dotdot := by
  obtain ⟨v, hv, _⟩ := walkComps_spec h hb false hn init
  have hfollow : follow s cur init = .ok v.node := by
    unfold follow
    rw [hv]
    rfl
  rw [walkComps_append s true (h.ne_zero hn) init (List.cons_ne_nil _ _), hfollow, ok_bind] at hw
  -- what precedes the last component leads to one node only
  have hwhere : ∀ d m, follow s cur init = .ok d → s.node d = some m →
      v.node ≠ 0 ∧ s.node v.node = some m := by
    intro d m hd hm
    rw [hfollow] at hd
    cases hd
    exact ⟨h.ne_zero hm, hm⟩
  by_cases h0 : v.node = 0
  · exact .inr (.inl fun d m hd hm => absurd h0 (hwhere d m hd hm).1)
  rw [if_neg h0] at hw
  unfold walkComps at hw
  by_cases hlen : ramfsNameMax ≤ last.length
  · exact .inl ⟨last, List.mem_append_right _ (List.mem_singleton_self _), hlen⟩
  rw [if_neg hlen] at hw
  by_cases hd : last = dot
  · exact .inr (.inr (.inl hd))
  by_cases hdd : last = dotdot
  · exact .inr (.inr (.inr hdd))
  refine .inr (.inl ?_)
  intro d m hd' hm hdir
  obtain ⟨o, ho, _, h3⟩ := walkNext_spec h hb (hwhere d m hd' hm).2 last
  obtain ⟨x, rfl, _⟩ := (h3 hd hdd).2 hdir
  rw [ho] at hw
  have hw' : (if ([] : List (List UInt8)) = [] ∧ true = true ∧ last ≠ dot ∧ last ≠ dotdot then
    Except.ok (⟨x, v.node, clip ramfsNameMax last⟩ : WalkOut) else
    if x = 0 then .ok WalkOut.null else walkComps s true x []) = .ok w := hw
  rw [if_pos ⟨rfl, rfl, hd, hdd⟩] at hw'
  cases hw'
  exact h0 hpar

theorem nodeNew_fst (deny : Bool) (s : Ramfs) (name : List UInt8) (t : RamfsType) :
    (nodeNew deny s name t).1 = (s.kmalloc deny sizeofRamfsNode).1 := by
  have e : nodeNew deny s name t = if (s.kmalloc deny sizeofRamfsNode).1 = 0 then
      (0, (s.kmalloc deny sizeofRamfsNode).2) else ((s.kmalloc deny sizeofRamfsNode).1,
        (s.kmalloc deny sizeofRamfsNode).2.set (s.kmalloc deny sizeofRamfsNode).1
          ⟨clip ramfsNameMax name, t, 0, 0, 0, 0, 0, 0⟩) := rfl
  rw [e]
  by_cases hp : (s.kmalloc deny sizeofRamfsNode).1 = 0
  · rw [if_pos hp, hp]
  · rw [if_neg hp]

theorem attach_heap {s s1 : Ramfs} {parent child : Nat} (h : attach s parent child = .ok s1) :
    s1.heap = s.heap := by
  obtain ⟨_, _, h⟩ := bind_eq_ok.mp h
  obtain ⟨_, _, h⟩ := bind_eq_ok.mp h
  obtain ⟨_, _, h⟩ := bind_eq_ok.mp h
  obtain ⟨_, _, h⟩ := bind_eq_ok.mp h
  cases h
  rfl

/-- a node takes one block -/
theorem create_heap {s1 : Ramfs} {ty : RamfsType} (hcr : ramfsCreate false s cwd path ty = .ok (r, s1))
    (hr : r ≠ 0) :
    s1.heap = (s.heap.kmalloc sizeofRamfsNode).2 ∧ (s.heap.kmalloc sizeofRamfsNode).1 ≠ 0 := by
  unfold ramfsCreate at hcr
  obtain ⟨w, _, hcr⟩ := bind_eq_ok.mp hcr
  by_cases hstop : w.node ≠ 0 ∨ w.parent = 0 ∨ w.name = []
  · rw [if_pos hstop] at hcr
    exact absurd (congrArg Prod.fst (Except.ok.inj hcr)).symm hr
  rw [if_neg hstop] at hcr
  obtain ⟨p, _, hcr⟩ := bind_eq_ok.mp hcr
  by_cases ht : p.type ≠ .dir
  · rw [if_pos ht] at hcr
    exact absurd (congrArg Prod.fst (Except.ok.inj hcr)).symm hr
  rw [if_neg ht] at hcr
  have hcr' : (if (nodeNew false s w.name ty).1 ≠ 0 then
      (attach (nodeNew false s w.name ty).2 w.parent (nodeNew false s w.name ty).1).map fun s' =>
        ((nodeNew false s w.name ty).1, s')
    else .ok (nodeNew false s w.name ty)) = .ok (r, s1) := hcr
  have hfst : (nodeNew false s w.name ty).1 = (s.heap.kmalloc sizeofRamfsNode).1 :=
    nodeNew_fst false s w.name ty
  by_cases hp : (nodeNew false s w.name ty).1 ≠ 0
  · rw [if_pos hp] at hcr'
    obtain ⟨s2, ha, e⟩ := map_eq_ok.mp hcr'
    cases e
    rw [hfst] at hp
    refine ⟨?_, hp⟩
    rw [attach_heap ha]
    have hnew : nodeNew false s w.name ty = ((s.heap.kmalloc sizeofRamfsNode).1,
        ({ s with heap := (s.heap.kmalloc sizeofRamfsNode).2 } : Ramfs).set
          (s.heap.kmalloc sizeofRamfsNode).1 ⟨clip ramfsNameMax w.name, ty, 0, 0, 0, 0, 0, 0⟩) :=
      if_neg hp
    rw [hnew]
    rfl
  · rw [if_neg hp] at hcr'
    rw [not_not] at hp
    rw [Except.ok.inj hcr'] at hp
    exact absurd hp hr

/-- with a block for the node, a missing name under a parent is created -/
theorem create_succeeds (h : FsInv s held F) (hn : s.node cwd = some n)
    (hw : walk s cwd path true = .ok w) (hok : WalkOk s (components path) w) (hnode : w.node = 0)
    (hpar : w.parent ≠ 0) {deny : Bool} (hspace : (s.kmalloc deny sizeofRamfsNode).1 ≠ 0)
    (hc : ramfsCreate deny s cwd path t = .ok (r, s')) : r ≠ 0 := by
  rw [ramfsCreate_missing h.tree hn hw hok hnode hpar, nodeNew_fst, if_pos hspace] at hc
  obtain ⟨_, _, e⟩ := map_eq_ok.mp hc
  cases e
  exact hspace

/-! ## what resolves before and after -/

/-- the name under the parent is missing -/
theorem walkNext_missing (hok : WalkOk s cs w) (hnode : w.node = 0) (hpar : w.parent ≠ 0) :
    walkNext s w.parent w.name = .ok (some 0) := by
  obtain ⟨p, hp, hdir, hfind, _, _, hd, hdd⟩ := hok.parent hpar
  rw [walkNext_child hp hd hdd hdir, hfind, hnode]
  rfl

/-- what resolved before resolves to the same node -/
theorem resolve_created (hc : Created s s' r w.parent w.name t) (h : FsInv s held F)
    (h' : FsInv s' held F') (hok : WalkOk s cs w) (hnode : w.node = 0) (hpar : w.parent ≠ 0)
    (hn : s.node cwd = some n) {x : Nat} (hx : ramfsResolve s cwd path = .ok x) (h0 : x ≠ 0) :
    ramfsResolve s' cwd path = .ok x := by
  have hcwd := h.tree.ne_zero hn
  rw [ramfsResolve_eq s hcwd] at hx
  rw [ramfsResolve_eq s' hcwd, startOf_sameRoot hc.root]
  obtain ⟨m, hm⟩ := startOf_live h.tree hn path
  refine follow_transfer (fun _ => False) h.tree h.bound' ?_ hm hx h0 fun _ _ => id
  intro cur c next k hk _ hstep hn0 _
  rw [walkNext_created hc h h' hk c, hstep]
  rintro ⟨rfl, rfl⟩
  rw [walkNext_missing hok hnode hpar] at hstep
  cases hstep
  exact hn0 rfl

/-- what resolves afterwards and does not come by the new node resolved before -/
theorem resolve_new (hc : Created s s' r w.parent w.name t) (h : FsInv s held F)
    (h' : FsInv s' held F') (hok : WalkOk s cs w) (hpar : w.parent ≠ 0)
    (hn : s'.node cwd = some n) {x : Nat} (hx : ramfsResolve s' cwd path = .ok x) (h0 : x ≠ 0) :
    ramfsResolve s cwd path = .ok x ∨ Visits s' (startOf s' cwd path) (components path) r := by
  by_cases hv : Visits s' (startOf s' cwd path) (components path) r
  · exact .inr hv
  left
  have hcwd := h'.tree.ne_zero hn
  rw [ramfsResolve_eq s' hcwd] at hx
  rw [ramfsResolve_eq s hcwd, ← startOf_sameRoot hc.root]
  obtain ⟨m, hm⟩ := startOf_live h'.tree hn path
  refine follow_transfer (fun y => y = r) h'.tree h'.bound' ?_ hm hx h0 fun y hy e =>
    hv (e ▸ hy)
  intro cur c next k hk hkr hstep hn0 hnr
  obtain ⟨k', hk', _⟩ := plain_some (hc.other_plain hkr) hk
  rw [walkNext_created hc h h' hk' c] at hstep
  · exact hstep
  rintro ⟨rfl, rfl⟩
  obtain ⟨p, hp, hdir, _, _, _, hd, hdd⟩ := hok.parent hpar
  rw [walkNext_created_new hc h h' hp hdir hd hdd] at hstep
  cases hstep
  exact hnr rfl

/-! ## one call -/

/-- Where the path resolved to a node, nothing is created; a new node is empty, of the type asked
for, and what its path resolves to, other paths resolving as before unless they come by it; a call
that fails changes nothing, and with memory for a node it fails only on a path that resolves, has a
component that is too long, whose directory part leads to no directory, or that ends in `.` or
`..`. -/
theorem ramfsCreate_agrees (h : FsInv s held F) (hn : s.node cwd = some n) (deny : Bool)
    (path : List UInt8) (t : RamfsType) :
    ∃ x r s', ramfsResolve s cwd path = .ok x ∧ ramfsCreate deny s cwd path t = .ok (r, s') ∧
      (x ≠ 0 → r = 0) ∧
      (r ≠ 0 →
        (∃ m, s'.node r = some m ∧ m.type = t ∧ m.size = 0 ∧ m.data = 0 ∧ m.children = 0) ∧
        ramfsResolve s' cwd path = .ok r ∧
        (∀ cwd' path' y, (∃ m, s.node cwd' = some m) → ramfsResolve s cwd' path' = .ok y → y ≠ 0 →
          ramfsResolve s' cwd' path' = .ok y) ∧
        (∀ cwd' path' y, (∃ m, s'.node cwd' = some m) → ramfsResolve s' cwd' path' = .ok y → y ≠ 0 →
          ramfsResolve s cwd' path' = .ok y ∨
            Visits s' (startOf s' cwd' path') (components path') r)) ∧
      (r = 0 → s' = s) ∧
      (r = 0 → (s.kmalloc deny sizeofRamfsNode).1 ≠ 0 →
        x ≠ 0 ∨ (∃ c ∈ components path, ramfsNameMax ≤ c.length) ∨
        (∀ d m, ramfsResolve s cwd (dirPart path) = .ok d → s.node d = some m → m.type ≠ .dir) ∨
        (components path).getLast? = some dot ∨ (components path).getLast? = some dotdot) := by
  obtain ⟨w, hw, hok⟩ := walk_spec h.tree h.bound' true hn path
  have h0 := h.tree.ne_zero hn
  have hx : ramfsResolve s cwd path = .ok w.node := by
    rw [ramfsResolve_eq s h0]
    exact walk_node s cwd path hw
  obtain ⟨r, s', F', hc, h', hfail, hdone⟩ := ramfsCreate_spec h hn deny path t
  refine ⟨w.node, r, s', hx, hc, fun hx0 => ?_, fun hr => ?_, hfail, fun hr hspace => ?_⟩
  · rw [ramfsCreate_eq h0 hw, if_pos (.inl hx0)] at hc
    exact (congrArg Prod.fst (Except.ok.inj hc)).symm
  · obtain ⟨w', hw', hok', hnode, hpar, hcr⟩ := hdone hr
    refine ⟨?_, (ramfsCreate_resolve h hn hc hr).1, ?_, ?_⟩
    · obtain ⟨_, _, _, e⟩ := hcr.first
      exact ⟨_, e, rfl, rfl, rfl, rfl⟩
    · intro cwd' path' y hlive hy hy0
      obtain ⟨m, hm⟩ := hlive
      exact resolve_created hcr h h' hok' hnode hpar hm hy hy0
    · intro cwd' path' y hlive hy hy0
      obtain ⟨m, hm⟩ := hlive
      exact resolve_new hcr h h' hok' hpar hm hy hy0
  · by_cases hx0 : w.node = 0
    swap
    · exact .inl hx0
    refine .inr ?_
    have hpar : w.parent = 0 := by
      by_contra hp
      exact create_succeeds h hn hw hok hx0 hp hspace hc hr
    rw [walk_eq] at hw
    obtain ⟨m, hm⟩ := startOf_live h.tree hn path
    by_cases hcs : components path = []
    · rw [hcs] at hw
      cases hw
      exact absurd hx0 (h.tree.ne_zero hm)
    obtain ⟨c, hlast⟩ := components_dirPart hcs
    rw [hlast] at hw
    have hwhy := create_fails h.tree h.bound' hm hw hpar
    rw [← hlast] at hwhy
    have hdir : ramfsResolve s cwd (dirPart path) =
        follow s (startOf s cwd path) (components (dirPart path)) := by
      rw [ramfsResolve_eq s h0, startOf_dirPart s cwd hcs]
    rw [hdir]
    have hget : (components path).getLast? = some c := by rw [hlast, List.getLast?_concat]
    rw [hget]
    exact hwhy.imp_right (Or.imp_right (Or.imp (congrArg some) (congrArg some)))

theorem ramfsCreate_agrees_srv :
    ∃ s0 x r s', ramfsInit (fun _ => false) (Heap.init sampleImage) (fun _ => 0) = .ok s0 ∧
      ramfsResolve s0 s0.root (lit "/srv") = .ok x ∧
      ramfsCreate false s0 s0.root (lit "/srv") .dir = .ok (r, s') ∧ (x ≠ 0 → r = 0) ∧
      (r = 0 → s' = s0) := by
  obtain ⟨_, s0, h0, _⟩ :=
    ramfsInit_run (fun _ => false) (fun _ => 0) (init_root_ne_zero sampleImage)
  obtain ⟨F, h⟩ := fsInv_of_run (init_root_ne_zero sampleImage) h0 .nil
  obtain ⟨n, hn, _⟩ := h.tree.rootDir
  obtain ⟨x, r, s', h1, h2, h3, _, h4, _⟩ := ramfsCreate_agrees h hn false (lit "/srv") .dir
  exact ⟨s0, x, r, s', h0, h1, h2, h3, h4⟩

end

end Raptor
