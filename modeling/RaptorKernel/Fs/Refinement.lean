import RaptorKernel.Fs.View

/-!
# What the calls do to the map

* `walk_parent`        the directory that `ramfs_create` puts a node into is where the directory part of
                       the path leads;
* `step_view`          a call that fails changes nothing, one that succeeds does the operation it stands for;
* `ramfs_refines`      so a run of the file system is a run of the map;
* `resolve_view`       and paths lead where the map says.
-/

namespace Raptor
open Forest PathMap

abbrev TreeOp := Op (List UInt8) (List UInt8)

section
variable {s t : Ramfs} {held : List Nat} {F : Forest Nat} {a r cwd : Nat} {n : RamfsNode}
  {p d : List (List UInt8)} {path : List UInt8} {ty : RamfsType} {w : WalkOut}

/-! ## the directory of a new node -/

theorem walk_parent (h : FsInv s held F) (hn : s.node cwd = some n) (hw : walk s cwd path true = .ok w)
    (hpar : w.parent ≠ 0) : ramfsResolve s cwd (dirPart path) = .ok w.parent := by
  have h0 := h.tree.ne_zero hn
  obtain ⟨m, hm⟩ := startOf_live h.tree hn path
  rw [walk_eq] at hw
  by_cases hcs : components path = []
  · rw [hcs] at hw
    cases hw
    exact absurd rfl hpar
  obtain ⟨c, hlast⟩ := components_dirPart hcs
  rw [hlast] at hw
  rw [ramfsResolve_eq s h0, startOf_dirPart s cwd hcs]
  obtain ⟨v, hv, _⟩ := walkComps_spec h.tree h.bound' false hm (components (dirPart path))
  have hfollow : follow s (startOf s cwd path) (components (dirPart path)) = .ok v.node := by
    unfold follow
    rw [hv]
    rfl
  rw [walkComps_append s true (h.tree.ne_zero hm) _ (List.cons_ne_nil c []), hfollow, ok_bind] at hw
  rw [hfollow]
  by_cases hv0 : v.node = 0
  · rw [if_pos hv0] at hw
    cases hw
    exact absurd rfl hpar
  rw [if_neg hv0] at hw
  unfold walkComps at hw
  by_cases hlen : ramfsNameMax ≤ c.length
  · rw [if_pos hlen] at hw
    cases hw
    exact absurd rfl hpar
  rw [if_neg hlen] at hw
  obtain ⟨o, _, hw⟩ := bind_eq_ok.mp hw
  cases o with
  | none =>
    cases hw
    exact absurd rfl hpar
  | some next =>
    have hw' : (if ([] : List (List UInt8)) = [] ∧ true = true ∧ c ≠ dot ∧ c ≠ dotdot then
      Except.ok (⟨next, v.node, clip ramfsNameMax c⟩ : WalkOut) else
      if next = 0 then .ok WalkOut.null else walkComps s true next []) = .ok w := hw
    by_cases hname : ([] : List (List UInt8)) = [] ∧ true = true ∧ c ≠ dot ∧ c ≠ dotdot
    · rw [if_pos hname] at hw'
      cases hw'
      rfl
    · rw [if_neg hname] at hw'
      by_cases hn0 : next = 0
      · rw [if_pos hn0] at hw'
        cases hw'
        exact absurd rfl hpar
      · rw [if_neg hn0] at hw'
        cases hw'
        exact absurd rfl hpar

/-! ## one call -/

/-- the operation on the map that a call stands for -/
inductive Means (s : Ramfs) : FsOp → TreeOp → Prop
  | create {deny : Bool} {cwd x : Nat} {path : CStr} {ty : RamfsType} {d : List (List UInt8)} {c : List UInt8}
      (hx : ramfsResolve s cwd (dirPart path.bytes) = .ok x) (hd : PathTo s x d)
      (hc : (components path.bytes).getLast? = some c) :
      Means s (.create deny cwd path ty) (.create d c (ty.entry []))
  | write {deny append : Bool} {file : Nat} {data : List UInt8} {p : List (List UInt8)} (hp : PathTo s file p) :
      Means s (.write deny file data append) (.write p ((if append then s.contents file else []) ++ data))
  | delete {node : Nat} {recursive : Bool} {p : List (List UInt8)} (hp : PathTo s node p) :
      Means s (.delete node recursive) (.remove p)
  | move {node newParent : Nat} {newName : CStr} {p q : List (List UInt8)} (hp : PathTo s node p)
      (hq : PathTo s newParent q) : Means s (.move node newParent newName) (.rename p q newName.bytes)

/-- the names that `ramfs_move` gives are those a component can spell; the other calls keep to them by
themselves -/
def FsOp.NamesOk : FsOp → Prop
  | .move _ _ newName => NameOk newName.bytes
  | _ => True

theorem create_view (h : FsInv s held F) (hn : NamesInv s) (hcwd : s.node cwd = some n) (deny : Bool)
    (path : List UInt8) (ty : RamfsType) :
    ∃ r t F', ramfsCreate deny s cwd path ty = .ok (r, t) ∧ FsInv t held F' ∧ NamesInv t ∧ (r = 0 → t = s) ∧
      (r ≠ 0 → ∃ x d c, ramfsResolve s cwd (dirPart path) = .ok x ∧ PathTo s x d ∧
        (components path).getLast? = some c ∧ s.view.Allowed (.create d c (ty.entry [])) ∧
        t.view = s.view.apply (.create d c (ty.entry [])) ∧ PathTo t r (d ++ [c]) ∧
        ∀ b q, PathTo s b q → PathTo t b q) := by
  obtain ⟨r, t, F', hc, h', hfail, hdone⟩ := ramfsCreate_spec h hcwd deny path ty
  by_cases hr : r = 0
  · refine ⟨r, t, F', hc, h', ?_, hfail, fun h0 => absurd hr h0⟩
    rw [hfail hr]
    exact hn
  obtain ⟨w, hw, hok, hw0, hpar, hcr⟩ := hdone hr
  have hn' := hn.create h hok hw0 hpar hcr
  obtain ⟨k, hk, hdir, hfind, hlast, -, -, -⟩ := hok.parent hpar
  obtain ⟨d, hd⟩ := exists_pathTo h.tree hk
  obtain ⟨c, hc1, -, hc2⟩ := findChild_spec h.tree h.bound' hk w.name
  rw [hfind, hw0] at hc1
  have hfree := hc2 (Except.ok.inj hc1).symm
  obtain ⟨hview, hnew⟩ := view_created h hn h' hn' hcr hd
  refine ⟨r, t, F', hc, h', hn', hfail, fun _ => ⟨w.parent, d, w.name, walk_parent h hcwd hw hpar, hd, hlast, ⟨?_, ?_⟩,
    hview, hnew, fun b q hb => hcr.pathTo hb⟩⟩
  · rw [view_eq h hn hd]
    exact (entry_dir hk).mpr hdir
  · exact view_child h hn hd hfree

theorem write_view (h : FsInv s held F) (hn : NamesInv s) {file : Nat} {f : RamfsNode} (hf : s.node file = some f)
    {data : List UInt8} (hlen : data.length ≤ heapSize) (deny append : Bool) (hp : PathTo s file p) :
    ∃ b t, ramfsWrite deny s file data append = .ok (b, t) ∧ FsInv t held F ∧ NamesInv t ∧ (b = false → t = s) ∧
      (b = true → s.view.Allowed (.write p ((if append then s.contents file else []) ++ data)) ∧
        t.view = s.view.apply (.write p ((if append then s.contents file else []) ++ data)) ∧
        ∀ b q, PathTo s b q → PathTo t b q) := by
  obtain ⟨b, t, hw, h', hfail, hdone⟩ := ramfsWrite_effect h hf hlen deny append
  cases b with
  | false =>
    refine ⟨false, t, hw, h', ?_, hfail, fun hb => absurd hb (by simp)⟩
    rw [hfail rfl]
    exact hn
  | true =>
    obtain ⟨hty, hwr, hbuf⟩ := hdone rfl
    have hn' := hn.write hwr
    refine ⟨true, t, hw, h', hn', hfail, fun _ => ⟨⟨s.contents file, ?_⟩, ?_, fun b q hb => hwr.pathTo hb⟩⟩
    · rw [view_eq h hn hp]
      exact entry_file hf hty
    · refine view_written h hn h' hn' hwr hbuf (fun g hg => ?_) hp
      rw [hf] at hg
      cases hg
      exact hty

/-- a directory without entries has no children -/
theorem no_entries_iff (h : FsInv s held F) (hn : NamesInv s) (ha : s.node a = some n) (hp : PathTo s a p) :
    (∀ c, s.view (p ++ [c]) = none) ↔ n.children = 0 := by
  obtain ⟨K, _, hch, hmem⟩ := h.tree.kids ha
  constructor
  · intro hnone
    by_contra hc
    obtain ⟨l, hl, _⟩ := hch.head hc
    obtain ⟨m, hm, hpar⟩ := (hmem n.children).mp (by rw [hl]; exact List.mem_cons_self)
    have hchild := hp.child_of h hm hpar
    exact (view_ne_none h hn).mpr ⟨_, hchild⟩ (hnone m.name)
  · intro hc c
    apply view_child h hn hp
    intro x m hm hpar
    have hx := (hmem x).mpr ⟨m, hm, hpar⟩
    rw [hc] at hch
    rw [hch.nil_of_nul] at hx
    exact absurd hx List.not_mem_nil

theorem delete_view (h : FsInv s held F) (hn : NamesInv s) (ha : s.node a = some n) (hp : PathTo s a p)
    (recursive : Bool) :
    ∃ b t F', ramfsDelete s a recursive = .ok (b, t) ∧ FsInv t held F' ∧ NamesInv t ∧ (b = false → t = s) ∧
      (b = true ↔ p ≠ [] ∧ ((∀ c, s.view (p ++ [c]) = none) ∨ recursive = true)) ∧
      (b = true → s.view.Allowed (.remove p) ∧ t.view = s.view.apply (.remove p) ∧ Deleted s t a) := by
  obtain ⟨b, t, F', hd, h', hfail, hdone, hiff⟩ := ramfsDelete_spec h ha recursive
  have hroot : a ≠ s.root ↔ p ≠ [] := by
    rw [not_iff_not]
    constructor
    · rintro rfl
      exact hp.unique .root
    · rintro rfl
      exact pathTo_inj h hn hp .root
  have hleaf : n.type = .file → n.children = 0 := (h.nodes a n ha).leaf
  have hkids : (n.type = .file ∨ n.children = 0 ∨ recursive = true) ↔
      ((∀ c, s.view (p ++ [c]) = none) ∨ recursive = true) := by
    rw [no_entries_iff h hn ha hp]
    exact ⟨fun h1 => h1.elim (fun h2 => .inl (hleaf h2)) id, .inr⟩
  rw [hroot, hkids] at hiff
  cases b with
  | false =>
    refine ⟨false, t, F', hd, h', ?_, hfail, hiff, fun hb => absurd hb (by simp)⟩
    rw [hfail rfl]
    exact hn
  | true =>
    have hn' := hn.delete (hdone rfl)
    exact ⟨true, t, F', hd, h', hn', hfail, hiff, fun _ =>
      ⟨⟨(hiff.mp rfl).1, (view_ne_none h hn).mpr ⟨a, hp⟩⟩, view_deleted h hn h' hn' (hdone rfl) ha hp, hdone rfl⟩⟩

theorem move_view (h : FsInv s held F) (hn : NamesInv s) (ha : s.node a = some n) (hp : PathTo s a p) {parent : Nat}
    {k : RamfsNode} (hk : s.node parent = some k) (hd : PathTo s parent d) {name : List UInt8} (hname : NameOk name) :
    ∃ b t F', ramfsMove s a parent name = .ok (b, t) ∧ FsInv t held F' ∧ NamesInv t ∧ (b = false → t = s) ∧
      (b = true ↔ s.view.Allowed (.rename p d name)) ∧
      (b = true → t.view = s.view.apply (.rename p d name) ∧ Moved s t a parent name) := by
  obtain ⟨b, t, F', hm, h', hfail, hdone, hiff⟩ := ramfsMove_spec h ha hk name
  have hclip : clip ramfsNameMax name = name := by
    have h32 : ramfsNameMax = 32 := rfl
    have := hname.short
    exact List.take_of_length_le (by omega)
  have hallowed : s.view.Allowed (.rename p d name) ↔ a ≠ s.root ∧ k.type = .dir ∧
      (∀ x m, s.node x = some m → m.parent = parent → m.name ≠ name) ∧ ¬ Below s a parent := by
    have hroot : p ≠ [] ↔ a ≠ s.root := by
      rw [not_iff_not]
      constructor
      · rintro rfl
        exact pathTo_inj h hn hp .root
      · rintro rfl
        exact hp.unique .root
    have hfree : s.view (d ++ [name]) = none ↔ ∀ x m, s.node x = some m → m.parent = parent → m.name ≠ name := by
      refine ⟨fun h1 x m hx hpar e => ?_, view_child h hn hd⟩
      have hchild := hd.child_of h hx hpar
      rw [e] at hchild
      exact (view_ne_none h hn).mpr ⟨x, hchild⟩ h1
    have hdir : s.view d = some .dir ↔ k.type = .dir := by
      rw [view_eq h hn hd]
      exact entry_dir hk
    show (p ≠ [] ∧ s.view p ≠ none ∧ s.view d = some .dir ∧ s.view (d ++ [name]) = none ∧ ¬ p <+: d) ↔ _
    rw [hroot, hdir, hfree, ← below_iff_path h hn hp hd]
    exact ⟨fun ⟨h1, _, h2, h3, h4⟩ => ⟨h1, h2, h3, h4⟩, fun ⟨h1, h2, h3, h4⟩ =>
      ⟨h1, (view_ne_none h hn).mpr ⟨a, hp⟩, h2, h3, h4⟩⟩
  cases b with
  | false =>
    refine ⟨false, t, F', hm, h', ?_, hfail, hiff.trans hallowed.symm, fun hb => absurd hb (by simp)⟩
    rw [hfail rfl]
    exact hn
  | true =>
    have hmv := hdone rfl
    rw [hclip] at hmv
    obtain ⟨har, _, hfree, hout⟩ := hiff.mp rfl
    have hn' : NamesInv t := hn.move hmv hname fun x m _ _ hx hpar => hfree x m hx hpar
    exact ⟨true, t, F', hm, h', hn', hfail, hiff.trans hallowed.symm, fun _ =>
      ⟨view_moved h hn h' hn' hmv ha har hp hd hout (view_child h hn hd hfree), hmv⟩⟩

/-- whether a call says it succeeded -/
def fsAnswer (s : Ramfs) : FsOp → Except Fault Bool
  | .create deny cwd path ty => (ramfsCreate deny s cwd path.bytes ty).map fun r => r.1 != 0
  | .write deny file data append => (ramfsWrite deny s file data append).map Prod.fst
  | .delete node recursive => (ramfsDelete s node recursive).map Prod.fst
  | .move node newParent newName => (ramfsMove s node newParent newName.bytes).map Prod.fst

/-- a call that fails leaves everything alone, one that succeeds does the operation it stands for -/
def CallOk (s t : Ramfs) (op : FsOp) (done : Bool) : Prop :=
  (done = false → t = s) ∧
    (done = true → ∃ o, Means s op o ∧ s.view.Allowed o ∧ t.view = s.view.apply o)

theorem CallOk.same {s : Ramfs} {op : FsOp} : CallOk s s op false := ⟨fun _ => rfl, fun h => absurd h (by simp)⟩

theorem step_view (h : FsInv s held F) (hn : NamesInv s) {op : FsOp} (hop : op.NamesOk) (hl : fsLegal s op)
    (hs : fsStep s op = .ok t) : NamesInv t ∧ ∃ done, fsAnswer s op = .ok done ∧ CallOk s t op done := by
  cases op with
  | create deny cwd path ty =>
    obtain ⟨x, n, hx, e⟩ : ∃ x n, s.node x = some n ∧ ∀ q,
        ramfsCreate deny s cwd path.bytes ty = ramfsCreate deny s x path.bytes ty ∧
          ramfsResolve s cwd q = ramfsResolve s x q := by
      rcases hl with rfl | ⟨n, hn'⟩
      · obtain ⟨r, hr, _⟩ := h.tree.rootDir
        refine ⟨s.root, r, hr, fun q => ⟨ramfsCreate_null h.tree deny path.bytes ty, ?_⟩⟩
        unfold ramfsResolve
        rw [if_pos h.tree.root_ne_zero, if_neg (not_not.mpr rfl)]
      · exact ⟨cwd, n, hn', fun _ => ⟨rfl, rfl⟩⟩
    obtain ⟨r, u, F', hc, -, hnu, hfail, hdone⟩ := create_view h hn hx deny path.bytes ty
    have hs' : (ramfsCreate deny s cwd path.bytes ty).map Prod.snd = .ok t := hs
    rw [(e []).1, hc] at hs'
    cases hs'
    refine ⟨hnu, r != 0, ?_, ?_, ?_⟩
    · show (ramfsCreate deny s cwd path.bytes ty).map _ = _
      rw [(e []).1, hc]
      rfl
    · intro hr
      exact hfail (by simpa using hr)
    · intro hr
      obtain ⟨y, d, c, hy, hd, hlast, hok, hview, -, -⟩ := hdone (by simpa using hr)
      rw [← (e _).2] at hy
      exact ⟨_, .create hy hd hlast, hok, hview⟩
  | write deny file data append =>
    obtain ⟨rfl | ⟨f, hf⟩, hlen⟩ := hl
    · cases hs
      exact ⟨hn, false, rfl, .same⟩
    · obtain ⟨p, hp⟩ := exists_pathTo h.tree hf
      obtain ⟨b, u, hw, -, hnu, hfail, hdone⟩ := write_view h hn hf hlen deny append hp
      have hs' : (ramfsWrite deny s file data append).map Prod.snd = .ok t := hs
      rw [hw] at hs'
      cases hs'
      refine ⟨hnu, b, ?_, hfail, fun hb => ⟨_, .write hp, (hdone hb).1, (hdone hb).2.1⟩⟩
      show (ramfsWrite deny s file data append).map _ = _
      rw [hw]
      rfl
  | delete node recursive =>
    rcases hl with rfl | ⟨n, hna⟩
    · cases hs
      exact ⟨hn, false, rfl, .same⟩
    · obtain ⟨p, hp⟩ := exists_pathTo h.tree hna
      obtain ⟨b, u, F', hd, -, hnu, hfail, -, hdone⟩ := delete_view h hn hna hp recursive
      have hs' : (ramfsDelete s node recursive).map Prod.snd = .ok t := hs
      rw [hd] at hs'
      cases hs'
      refine ⟨hnu, b, ?_, hfail, fun hb => ⟨_, .delete hp, (hdone hb).1, (hdone hb).2.1⟩⟩
      show (ramfsDelete s node recursive).map _ = _
      rw [hd]
      rfl
  | move node newParent newName =>
    have hs' : (ramfsMove s node newParent newName.bytes).map Prod.snd = .ok t := hs
    have hnull : node = 0 ∨ newParent = 0 → NamesInv t ∧ ∃ done,
        fsAnswer s (.move node newParent newName) = .ok done ∧ CallOk s t (.move node newParent newName) done := by
      intro h0
      rw [ramfsMove_null h0] at hs'
      cases hs'
      refine ⟨hn, false, ?_, .same⟩
      show (ramfsMove s node newParent newName.bytes).map _ = _
      rw [ramfsMove_null h0]
      rfl
    obtain ⟨rfl | ⟨n, hna⟩, rfl | ⟨k, hk⟩⟩ := hl
    · exact hnull (.inl rfl)
    · exact hnull (.inl rfl)
    · exact hnull (.inr rfl)
    · obtain ⟨p, hp⟩ := exists_pathTo h.tree hna
      obtain ⟨d, hd⟩ := exists_pathTo h.tree hk
      obtain ⟨b, u, F', hm, -, hnu, hfail, hiff, hdone⟩ := move_view h hn hna hp hk hd hop
      rw [hm] at hs'
      cases hs'
      refine ⟨hnu, b, ?_, hfail, fun hb => ⟨_, .move hp hd, hiff.mp hb, (hdone hb).1⟩⟩
      show (ramfsMove s node newParent newName.bytes).map _ = _
      rw [hm]
      rfl

end

/-! ## runs -/

abbrev fileTreeMachine : Machine FileTree TreeOp Empty := Tree.machine (List UInt8) (List UInt8)

section
variable {held : List Nat} {s t : Ramfs} {ops : List FsOp}

/-- a run of the file system is a run of the map -/
theorem run_view {F : Forest Nat} (r : fsMachine.Run s ops t) (h : FsInv s held F) (hn : NamesInv s)
    (hops : ∀ op ∈ ops, op.NamesOk) :
    (∃ F', FsInv t held F') ∧ NamesInv t ∧ ∃ os, os.length ≤ ops.length ∧ fileTreeMachine.Run s.view os t.view := by
  induction r with
  | nil => exact ⟨⟨F, h⟩, hn, [], Nat.le_refl _, .nil⟩
  | @snoc ops t u op r hl hs ih =>
    obtain ⟨⟨F', h'⟩, hn', os, hlen, ros⟩ := ih fun op hop => hops op (List.mem_append_left _ hop)
    obtain ⟨hnu, done, -, hsame, hdone⟩ := step_view h' hn' (hops op (by simp)) hl hs
    refine ⟨(fs_safe held).step_inv ⟨F', h'⟩ hl hs, hnu, ?_⟩
    rw [List.length_append]
    cases done with
    | false =>
      rw [hsame rfl]
      exact ⟨os, by omega, ros⟩
    | true =>
      obtain ⟨o, -, hok, e⟩ := hdone rfl
      rw [e]
      refine ⟨os ++ [o], ?_, ros.snoc hok rfl⟩
      rw [List.length_append, List.length_singleton, List.length_singleton]
      omega

end

/-- after `ramfs_init` and any calls that give names a component can spell -/
theorem view_after_init {img : Image} {m0 : Mem} {deny : Nat → Bool} {s0 s : Ramfs}
    (hs0 : ramfsInit deny (Heap.init img) m0 = .ok s0) {ops : List FsOp} (r : fsMachine.Run s0 ops s)
    (hops : ∀ op ∈ ops, op.NamesOk) :
    (∃ F, FsInv s (Heap.init img).ptrs F) ∧ NamesInv s ∧
      ∃ os, os.length ≤ ops.length ∧ fileTreeMachine.Run s0.view os s.view := by
  obtain ⟨⟨F, h⟩, hn, -⟩ := names_after_init (init_root_ne_zero img) hs0 .nil fun op hop => absurd hop (by simp)
  exact run_view r h hn hops

/-- The file system is the map from paths: in every state that `ramfs_init` and any calls lead to (that
give names a component can spell), what is above something is a directory, the operations that calls did
are a run of the map, and the next call does not fault, changes nothing when it says that it failed, and
when it says that it succeeded it did the operation it stands for, which the map allows. -/
theorem ramfs_refines {img : Image} {m0 : Mem} {deny : Nat → Bool} {s0 s : Ramfs}
    (hs0 : ramfsInit deny (Heap.init img) m0 = .ok s0) {ops : List FsOp} (r : fsMachine.Run s0 ops s)
    (hops : ∀ op ∈ ops, op.NamesOk) :
    s.view.Closed ∧ (∃ os, os.length ≤ ops.length ∧ fileTreeMachine.Run s0.view os s.view) ∧
      ∀ op, op.NamesOk → fsLegal s op → ∃ t done, fsStep s op = .ok t ∧ fsAnswer s op = .ok done ∧
        (done = false → t = s) ∧
        (done = true → ∃ o, Means s op o ∧ s.view.Allowed o ∧ t.view = s.view.apply o) := by
  obtain ⟨⟨F, h⟩, hn, hrun⟩ := view_after_init hs0 r hops
  refine ⟨view_closed h hn, hrun, fun op hop hl => ?_⟩
  obtain ⟨t, ht, -⟩ := fs_safe _ s op ⟨F, h⟩ hl
  obtain ⟨-, done, hanswer, hcall⟩ := step_view h hn hop hl ht
  exact ⟨t, done, ht, hanswer, hcall⟩

/-- Paths lead where the map says: what `ramfs_resolve` returns lies where the walk over the map ends, and
is NULL where that walk fails. -/
theorem resolve_view {img : Image} {m0 : Mem} {deny : Nat → Bool} {s0 s : Ramfs}
    (hs0 : ramfsInit deny (Heap.init img) m0 = .ok s0) {ops : List FsOp} (r : fsMachine.Run s0 ops s)
    (hops : ∀ op ∈ ops, op.NamesOk) {cwd : Nat} {p : List (List UInt8)} (hcwd : PathTo s cwd p) (path : List UInt8) :
    ∃ x, ramfsResolve s cwd path = .ok x ∧
      ((x = 0 ∧ s.view.walk (startPath p path) ((components path).map compOf) = none) ∨
        ∃ q, PathTo s x q ∧ s.view.walk (startPath p path) ((components path).map compOf) = some q) := by
  obtain ⟨⟨F, h⟩, hn, -⟩ := view_after_init hs0 r hops
  exact resolve_walk h hn hcwd path

def srv : CStr := ⟨lit "/srv", by decide⟩
def oldName : CStr := ⟨lit "old", by decide⟩

/-- after boot `/tmp` becomes `/old`, and then `/new` -/
def movesTmp : Except Fault Bool := do
  let s0 ← ramfsInit (fun _ => false) (Heap.init sampleImage) fun _ => 0
  let a ← ramfsResolve s0 s0.root (lit "/tmp")
  let r ← ramfsMove s0 a s0.root oldName.bytes
  let b ← ramfsResolve r.2 r.2.root (lit "/old")
  let t ← ramfsMove r.2 a r.2.root (lit "new")
  .ok (r.1 && b == a && t.1)

theorem movesTmp_eq : movesTmp = .ok true := by decide +kernel

theorem nameOk_old : NameOk oldName.bytes := ⟨by decide, by decide, by decide, by decide, by decide⟩

theorem old_namesOk {a b : Nat} : ∀ op ∈ [FsOp.move a b oldName], op.NamesOk := by
  intro op hop
  rw [List.mem_singleton.mp hop]
  exact nameOk_old

theorem tmp_moved : ∃ s0 a s t, ramfsInit (fun _ => false) (Heap.init sampleImage) (fun _ => 0) = .ok s0 ∧
    fsMachine.Run s0 [.move a s0.root oldName] s ∧ PathTo s a [oldName.bytes] ∧
    ramfsMove s a s.root (lit "new") = .ok (true, t) := by
  obtain ⟨s0, h0, heval⟩ := bind_eq_ok.mp movesTmp_eq
  obtain ⟨a, ha, heval⟩ := bind_eq_ok.mp heval
  obtain ⟨⟨b, s⟩, hm, heval⟩ := bind_eq_ok.mp heval
  obtain ⟨x, hx, heval⟩ := bind_eq_ok.mp heval
  obtain ⟨⟨b', t⟩, ht, heval⟩ := bind_eq_ok.mp heval
  have hall : (b && x == a && b') = true := Except.ok.inj heval
  simp only [Bool.and_eq_true, beq_iff_eq] at hall
  obtain ⟨⟨rfl, rfl⟩, rfl⟩ := hall
  obtain ⟨F, h⟩ := fsInv_of_run (init_root_ne_zero sampleImage) h0 .nil
  obtain ⟨n, hn, -⟩ := h.tree.rootDir
  have hx0 : x ≠ 0 := by
    rintro rfl
    rw [ramfsMove_null (.inl rfl)] at hm
    cases hm
  obtain ⟨x', hx', hlive⟩ := ramfsResolve_spec h.tree h.bound' hn (lit "/tmp")
  cases ha.symm.trans hx'
  have hs : fsStep s0 (.move x s0.root oldName) = .ok s := by
    show (ramfsMove s0 x s0.root oldName.bytes).map Prod.snd = _
    rw [hm]
    rfl
  have r : fsMachine.Run s0 [.move x s0.root oldName] s :=
    .snoc (.nil (M := fsMachine)) (show fsLegal s0 (.move x s0.root oldName) from ⟨.inr (hlive hx0), .inr ⟨n, hn⟩⟩) hs
  obtain ⟨G, hG⟩ := fsInv_of_run (init_root_ne_zero sampleImage) h0 r
  have hcomp : components (lit "/old") = [oldName.bytes] := by decide
  have hfollow : follow s s.root [oldName.bytes] = .ok x := by
    rw [ramfsResolve_eq s hG.tree.root_ne_zero, hcomp] at hx
    exact hx
  have hnames : ∀ c ∈ [oldName.bytes], NameOk c := by
    intro c hc
    rw [List.mem_singleton.mp hc]
    exact nameOk_old
  exact ⟨s0, x, s, t, h0, r, pathTo_of_follow hG hnames hfollow hx0, ht⟩

theorem resolve_view_moved :
    ∃ s0 a s x, ramfsInit (fun _ => false) (Heap.init sampleImage) (fun _ => 0) = .ok s0 ∧
      fsMachine.Run s0 [.move a s0.root oldName] s ∧ ramfsResolve s a (lit "../tmp") = .ok x ∧
      ((x = 0 ∧ s.view.walk (startPath [oldName.bytes] (lit "../tmp")) ((components (lit "../tmp")).map compOf) = none) ∨
        ∃ q, PathTo s x q ∧
          s.view.walk (startPath [oldName.bytes] (lit "../tmp")) ((components (lit "../tmp")).map compOf) = some q) := by
  obtain ⟨s0, a, s, _, h0, r, ha, _⟩ := tmp_moved
  obtain ⟨x, hx, hcases⟩ := resolve_view h0 r old_namesOk ha (lit "../tmp")
  exact ⟨s0, a, s, x, h0, r, hx, hcases⟩

theorem ramfs_refines_moved :
    ∃ s0 a s os, ramfsInit (fun _ => false) (Heap.init sampleImage) (fun _ => 0) = .ok s0 ∧
      fsMachine.Run s0 [.move a s0.root oldName] s ∧ os.length ≤ 1 ∧ fileTreeMachine.Run s0.view os s.view := by
  obtain ⟨s0, a, s, _, h0, r, _, _⟩ := tmp_moved
  obtain ⟨-, ⟨os, hlen, hos⟩, -⟩ := ramfs_refines h0 r old_namesOk
  exact ⟨s0, a, s, os, h0, r, hlen, hos⟩

end Raptor
