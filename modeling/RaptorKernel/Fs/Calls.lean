import RaptorKernel.Fs.Path

/-!
# What the callers of the file system rely on

* `FsInv.alloc`, `FsInv.release`     a block of the caller's own on the same heap;
* `Kept`                             what is alive stays alive;
* `Calls`                            sequences of calls of one kind, and what they keep;
* `ramfsResolve_any`                 resolution from a directory that may be gone;
* `ramfsResolve_sameTree`            resolution depends on names, types and links only;
* `ramfsCreate_resolve`              a path that was just created resolves to the new node.
-/

namespace Raptor
open Forest

/-! ## blocks of the caller -/

/-- the same files, on another heap -/
structure SameFiles (s s' : Ramfs) : Prop where
  node : s'.node = s.node
  root : s'.root = s.root
  bytes : s'.bytes = s.bytes

section
variable {s s' : Ramfs} {held : List Nat} {F : Forest Nat}

theorem SameFiles.contents (h : SameFiles s s') (a : Nat) : s'.contents a = s.contents a := by
  unfold Ramfs.contents
  rw [h.node, h.bytes]

theorem SameFiles.names (h : SameFiles s s') (hn : NamesInv s) : NamesInv s' :=
  hn.of_subset h.root fun x n hx => ⟨n, by rw [← h.node]; exact hx, rfl, rfl⟩

theorem SameFiles.nulFree (h : SameFiles s s') (hz : NulFree s) : NulFree s' := by
  intro a n ha
  exact hz a n (by rw [← h.node]; exact ha)

theorem SameFiles.tree (h : SameFiles s s') (ht : TreeInv s F) : TreeInv s' F :=
  ht.congr h.root fun x => by rw [h.node]

theorem SameFiles.blocks (h : SameFiles s s') (A : List Nat) : s'.blocks A held = s.blocks A held :=
  Ramfs.blocks_congr fun x _ => Ramfs.dataPtr_congr (congrFun h.node x)

theorem FsInv.alloc (h : FsInv s held F) {p n : Nat} {H' : Heap} (hk : s.heap.kmalloc n = (p, H'))
    (hp : p ≠ 0) : FsInv { s with heap := H' } (p :: held) F := by
  obtain ⟨hperm, _, hkeep⟩ := Heap.kmalloc_perm hk hp
  have hsame : SameFiles s { s with heap := H' } := ⟨rfl, rfl, rfl⟩
  refine ⟨hsame.tree h.tree, h.nodes, ?_, fun a m ha => hkeep _ _ (h.nodeRoom a m ha),
    fun a m ha hc => hkeep _ _ (h.dataRoom a m ha hc)⟩
  rw [hsame.blocks]
  refine (hperm.trans (h.owned.cons p)).trans ?_
  unfold Ramfs.blocks
  exact List.perm_middle.symm

theorem FsInv.release {p : Nat} (h : FsInv s (p :: held) F) :
    ∃ s', s.kfree p = .ok s' ∧ FsInv s' held F ∧ SameFiles s s' := by
  have hmid : (s.blocks (s.tree F).addrs (p :: held)).Perm (p :: s.blocks (s.tree F).addrs held) := by
    unfold Ramfs.blocks
    exact List.perm_middle
  have hperm := h.owned.trans hmid
  obtain ⟨s', h1, h2, h3, h4, h5, h6⟩ := Ramfs.kfree_ok hperm
  have hout : ∀ q ∈ s.blocks (s.tree F).addrs held, q ≠ p := fun q hq e =>
    (List.nodup_cons.mp (hperm.nodup_iff.mp Heap.ptrs_nodup)).1 (e ▸ hq)
  have hnode : ∀ a n, s.node a = some n → a ∈ s.blocks (s.tree F).addrs held := fun a n ha =>
    List.mem_append_left _ (List.mem_append_left _ (h.tree.mem ha))
  have hnone : s.node p = none := by
    cases hn : s.node p with
    | none => rfl
    | some n => exact absurd rfl (hout p (hnode p n hn))
  have hsame : SameFiles s s' := by
    refine ⟨?_, h4, h5⟩
    rw [h3, ← hnone]
    exact Function.update_eq_self _ _
  have htree : s'.tree F = s.tree F := by
    unfold Ramfs.tree
    rw [h4]
  refine ⟨s', h1, ⟨hsame.tree h.tree, fun a n ha => ?_, ?_, fun a n ha => ?_, fun a n ha hc => ?_⟩,
    hsame⟩
  · exact h.nodes a n (by rw [← hsame.node]; exact ha)
  · rw [htree, hsame.blocks]
    exact h2
  · rw [hsame.node] at ha
    exact h6 _ _ (hnode a n ha) (h.nodeRoom a n ha)
  · rw [hsame.node] at ha
    refine h6 _ _ ?_ (h.dataRoom a n ha hc)
    refine List.mem_append_left _ (List.mem_append_right _ ?_)
    exact List.mem_filterMap.mpr ⟨a, h.tree.mem ha, by rw [Ramfs.dataPtr_eq ha, if_neg hc]⟩

end

/-! ## nodes that stay -/

/-- what is alive stays alive, and of its type -/
def Kept (s t : Ramfs) : Prop :=
  ∀ a n, s.node a = some n → ∃ n', t.node a = some n' ∧ n'.type = n.type

theorem Kept.trans {s t u : Ramfs} (h : Kept s t) (h' : Kept t u) : Kept s u := by
  intro a n ha
  obtain ⟨m, hm, e1⟩ := h a n ha
  obtain ⟨k, hk, e2⟩ := h' a m hm
  exact ⟨k, hk, e2.trans e1⟩

theorem kept_of_plain {s t : Ramfs} {a : Nat} {n : RamfsNode} (ha : s.node a = some n)
    (h : (t.node a).map RamfsNode.plain = (s.node a).map RamfsNode.plain) :
    ∃ n', t.node a = some n' ∧ n'.type = n.type := by
  cases ht : t.node a with
  | none =>
    rw [ht, ha] at h
    cases h
  | some n' =>
    rw [ht, ha] at h
    exact ⟨n', rfl, plain_type (Option.some.inj h)⟩

theorem Created.kept {s t : Ramfs} {r parent : Nat} {name : List UInt8} {ty : RamfsType}
    (h : Created s t r parent name ty) : Kept s t := by
  intro a n ha
  refine kept_of_plain ha (h.other_plain fun e => ?_)
  rw [e, h.fresh] at ha
  cases ha

theorem Written.kept {s t : Ramfs} {file : Nat} {data : List UInt8} {append : Bool}
    (h : Written s t file data append) : Kept s t := by
  intro a n ha
  by_cases haf : a = file
  · subst haf
    obtain ⟨f, d, c, hf, e⟩ := h.self
    rw [ha] at hf
    cases hf
    exact ⟨_, e, rfl⟩
  · exact ⟨n, by rw [h.other a haf]; exact ha, rfl⟩

theorem Moved.kept {s t : Ramfs} {a parent : Nat} {name : List UInt8}
    (h : Moved s t a parent name) : Kept s t := by
  intro x n hx
  by_cases hxa : x = a
  · subst hxa
    have h1 := h.self
    rw [hx] at h1
    cases ht : t.node x with
    | none =>
      rw [ht] at h1
      cases h1
    | some n' =>
      rw [ht] at h1
      have h2 : n'.plain = { n.plain with name := name, parent := parent } := Option.some.inj h1
      have h3 : n'.plain.type = n.type := by rw [h2]; rfl
      exact ⟨n', rfl, h3⟩
  · exact kept_of_plain hx (h.other x hxa)

/-! ## sequences of calls -/

/-- calls of the kind `p` only, one after the other, lead from `s` to `t` -/
def Calls (p : FsOp → Bool) (s t : Ramfs) : Prop :=
  ∃ ops, fsMachine.Run s ops t ∧ ∀ op ∈ ops, p op = true

namespace Calls
variable {p q : FsOp → Bool} {s t u : Ramfs} {held : List Nat} {F : Forest Nat}

theorem refl (p : FsOp → Bool) (s : Ramfs) : Calls p s s :=
  ⟨[], .nil, fun op hop => absurd hop (by simp)⟩

theorem trans (h : Calls p s t) (h' : Calls p t u) : Calls p s u := by
  obtain ⟨ops, h1, h2⟩ := h
  obtain ⟨ops', h1', h2'⟩ := h'
  exact ⟨ops ++ ops', h1.append h1', fun op hop => (List.mem_append.mp hop).elim (h2 op) (h2' op)⟩

theorem one (op : FsOp) (hp : p op = true) (hl : fsLegal s op) (hs : fsStep s op = .ok t) :
    Calls p s t := by
  refine ⟨[op], .snoc (.nil (M := fsMachine)) hl hs, fun op' hop => ?_⟩
  rw [List.mem_singleton.mp hop]
  exact hp

theorem mono (h : Calls p s t) (hpq : ∀ op, p op = true → q op = true) : Calls q s t := by
  obtain ⟨ops, h1, h2⟩ := h
  exact ⟨ops, h1, fun op hop => hpq op (h2 op hop)⟩

theorem inv (h : Calls p s t) (hi : FsInv s held F) : ∃ F', FsInv t held F' := by
  obtain ⟨ops, r, _⟩ := h
  exact (fs_safe held).run_inv r ⟨F, hi⟩

theorem nulFree (h : Calls p s t) (hi : FsInv s held F) (hz : NulFree s) : NulFree t := by
  obtain ⟨ops, r, _⟩ := h
  exact nulFree_of_run r hi hz

theorem names (h : Calls p s t) (hp : ∀ op, p op = true → op.isMove = false) (hi : FsInv s held F)
    (hn : NamesInv s) : NamesInv t := by
  obtain ⟨ops, r, h2⟩ := h
  exact names_of_run r (fun op hop => hp op (h2 op hop)) hi hn

end Calls

def FsOp.isDelete : FsOp → Bool
  | .delete .. => true
  | _ => false

theorem Calls.kept {p : FsOp → Bool} {s t : Ramfs} {held : List Nat} {F : Forest Nat}
    (h : Calls p s t) (hp : ∀ op, p op = true → op.isDelete = false) (hi : FsInv s held F) :
    Kept s t := by
  obtain ⟨ops, r, h2⟩ := h
  induction r with
  | nil => exact fun a n ha => ⟨n, ha, rfl⟩
  | snoc r hl hs ih =>
    obtain ⟨_, h1⟩ := (fs_safe held).run_inv r ⟨F, hi⟩
    have hop := hp _ (h2 _ (List.mem_append_right _ (List.mem_singleton_self _)))
    refine (ih fun op hop => h2 op (List.mem_append_left _ hop)).trans ?_
    cases fsStep_effect h1 hl hs with
    | none e => exact fun a n ha => ⟨n, e ▸ ha, rfl⟩
    | created _ _ _ hc => exact hc.kept
    | written hw => exact hw.kept
    | deleted hd => cases hop
    | moved hm => exact hm.kept

/-! ## resolution from anywhere -/

section
variable {s : Ramfs} {held : List Nat} {F : Forest Nat} {cwd : Nat}

/-- a walk from a node that is not alive gets nowhere -/
theorem walkComps_dead {cur : Nat} (h : s.node cur = none) (want : Bool) {cs : List (List UInt8)}
    {w : WalkOut} (hw : walkComps s want cur cs = .ok w) : w = WalkOut.null ∨ w = ⟨cur, 0, []⟩ := by
  induction cs with
  | nil =>
    cases hw
    exact .inr rfl
  | cons c cs ih =>
    unfold walkComps at hw
    by_cases hlen : ramfsNameMax ≤ c.length
    · rw [if_pos hlen] at hw
      exact .inl (Except.ok.inj hw).symm
    rw [if_neg hlen] at hw
    by_cases hd : c = dot
    · have hlast : ¬ (cs = [] ∧ want = true ∧ c ≠ dot ∧ c ≠ dotdot) := fun h1 => h1.2.2.1 hd
      have hdot : walkNext s cur c = .ok (some cur) := hd ▸ walkNext_dot s cur
      rw [hdot] at hw
      have hw' : (if cs = [] ∧ want = true ∧ c ≠ dot ∧ c ≠ dotdot then
        Except.ok (⟨cur, cur, clip ramfsNameMax c⟩ : WalkOut) else
        if cur = 0 then .ok WalkOut.null else walkComps s want cur cs) = .ok w := hw
      rw [if_neg hlast] at hw'
      by_cases h0 : cur = 0
      · rw [if_pos h0] at hw'
        exact .inl (Except.ok.inj hw').symm
      · rw [if_neg h0] at hw'
        exact ih hw'
    · have he : s.deref cur = .error (.dangling cur) := by
        unfold Ramfs.deref
        rw [h]
      unfold walkNext at hw
      rw [if_neg hd, he] at hw
      cases hw

/-- a path starts at a live node, or relative to a working directory that is gone -/
theorem start_cases (h : TreeInv s F) (cwd : Nat) (path : List UInt8) :
    (∃ d n, s.node d = some n ∧ startOf s d path = startOf s cwd path) ∨
      s.node cwd = none ∧ startOf s cwd path = cwd := by
  by_cases hp : path.head? = some slash
  · obtain ⟨r, hr, _⟩ := h.rootDir
    refine .inl ⟨s.root, r, hr, ?_⟩
    unfold startOf
    rw [if_pos hp, if_pos hp]
  · cases hc : s.node cwd with
    | none => exact .inr ⟨rfl, if_neg hp⟩
    | some n => exact .inl ⟨cwd, n, hc, rfl⟩

theorem ramfsResolve_start {d : Nat} (h0 : cwd ≠ 0) (hd : d ≠ 0) {path : List UInt8}
    (e : startOf s d path = startOf s cwd path) : ramfsResolve s cwd path = ramfsResolve s d path := by
  rw [ramfsResolve_eq s h0, ramfsResolve_eq s hd, e]

theorem ramfsCreate_start {d : Nat} (h0 : cwd ≠ 0) (hd : d ≠ 0) {path : List UInt8}
    (e : startOf s d path = startOf s cwd path) (deny : Bool) (t : RamfsType) :
    ramfsCreate deny s cwd path t = ramfsCreate deny s d path t := by
  unfold ramfsCreate
  rw [if_pos h0, if_pos hd, walk_eq, walk_eq, e]

theorem ramfsResolve_any (h : FsInv s held F) (h0 : cwd ≠ 0) {path : List UInt8} {x : Nat}
    (hx : ramfsResolve s cwd path = .ok x) : x = 0 ∨ x = cwd ∨ ∃ n, s.node x = some n := by
  rcases start_cases h.tree cwd path with ⟨d, n, hd, e⟩ | ⟨hdead, e⟩
  · rw [ramfsResolve_start h0 (h.tree.ne_zero hd) e] at hx
    obtain ⟨y, h1, h2⟩ := ramfsResolve_spec h.tree h.bound' hd path
    rw [hx] at h1
    cases h1
    by_cases hx0 : x = 0
    · exact .inl hx0
    · exact .inr (.inr (h2 hx0))
  · rw [ramfsResolve_eq s h0, e] at hx
    unfold follow at hx
    cases hw : walkComps s false cwd (components path) with
    | error e =>
      rw [hw] at hx
      cases hx
    | ok w =>
      rw [hw] at hx
      cases hx
      rcases walkComps_dead hdead false hw with rfl | rfl
      · exact .inl rfl
      · exact .inr (.inl rfl)

/-- nothing is created relative to a working directory that is gone -/
theorem ramfsCreate_any (h : FsInv s held F) (h0 : cwd ≠ 0) {deny : Bool} {path : List UInt8}
    {t : RamfsType} {r : Nat} {s' : Ramfs} (hc : ramfsCreate deny s cwd path t = .ok (r, s')) :
    (r = 0 ∧ s' = s) ∨ ∃ d n, s.node d = some n ∧ startOf s d path = startOf s cwd path ∧
      ramfsCreate deny s d path t = .ok (r, s') := by
  rcases start_cases h.tree cwd path with ⟨d, n, hd, e⟩ | ⟨hdead, e⟩
  · rw [ramfsCreate_start h0 (h.tree.ne_zero hd) e] at hc
    exact .inr ⟨d, n, hd, e, hc⟩
  · refine .inl ?_
    unfold ramfsCreate at hc
    rw [if_pos h0, walk_eq, e] at hc
    cases hw : walkComps s true cwd (components path) with
    | error e =>
      rw [hw] at hc
      cases hc
    | ok w =>
      rw [hw] at hc
      have hstop : w.node ≠ 0 ∨ w.parent = 0 ∨ w.name = [] := by
        rcases walkComps_dead hdead true hw with rfl | rfl
        · exact .inr (.inl rfl)
        · exact .inl h0
      have hc' : (if w.node ≠ 0 ∨ w.parent = 0 ∨ w.name = [] then
        Except.ok (0, s) else _) = Except.ok (r, s') := hc
      rw [if_pos hstop] at hc'
      cases hc'
      exact ⟨rfl, rfl⟩

end

/-! ## resolution on another state -/

/-- the same tree under the same names, whatever the files hold -/
structure SameTree (s s' : Ramfs) : Prop where
  root : s'.root = s.root
  node : ∀ x, (s'.node x).map (fun n => (n.name, n.type, n.parent, n.children, n.next)) =
    (s.node x).map fun n => (n.name, n.type, n.parent, n.children, n.next)

theorem SameFiles.sameTree {s s' : Ramfs} (h : SameFiles s s') : SameTree s s' :=
  ⟨h.root, fun x => by rw [h.node]⟩

theorem Written.sameTree {s s' : Ramfs} {file : Nat} {data : List UInt8} {append : Bool}
    (h : Written s s' file data append) : SameTree s s' := by
  refine ⟨h.root, fun x => ?_⟩
  by_cases hx : x = file
  · subst hx
    obtain ⟨f, d, c, hf, e⟩ := h.self
    rw [hf, e]
    rfl
  · rw [h.other x hx]

section
variable {s s' : Ramfs}

/-- dereferencing gives the same fields, or the same fault -/
theorem SameTree.deref (h : SameTree s s') (a : Nat) :
    (∃ n n', s.deref a = .ok n ∧ s'.deref a = .ok n' ∧ n'.name = n.name ∧ n'.type = n.type ∧
      n'.parent = n.parent ∧ n'.children = n.children ∧ n'.next = n.next) ∨
    ∃ e, s.deref a = .error e ∧ s'.deref a = .error e := by
  have h1 := h.node a
  unfold Ramfs.deref
  cases hn : s.node a with
  | none =>
    rw [hn] at h1
    cases hn' : s'.node a with
    | none => exact .inr ⟨_, rfl, rfl⟩
    | some n' =>
      rw [hn'] at h1
      cases h1
  | some n =>
    rw [hn] at h1
    cases hn' : s'.node a with
    | none =>
      rw [hn'] at h1
      cases h1
    | some n' =>
      rw [hn'] at h1
      have h2 := Option.some.inj h1
      simp only [Prod.mk.injEq] at h2
      exact .inl ⟨n, n', rfl, rfl, h2⟩

theorem findChildLoop_sameTree (h : SameTree s s') (name : List UInt8) (fuel c : Nat) :
    findChildLoop s' name fuel c = findChildLoop s name fuel c := by
  induction fuel generalizing c with
  | zero => rfl
  | succ fuel ih =>
    unfold findChildLoop
    by_cases h0 : c = 0
    · rw [if_pos h0, if_pos h0]
    rw [if_neg h0, if_neg h0]
    rcases h.deref c with ⟨n, n', e1, e2, hn, _, _, _, hx⟩ | ⟨e, e1, e2⟩
    · rw [e1, e2]
      show (if n'.name = name then _ else _) = if n.name = name then _ else _
      rw [hn, hx, ih]
    · rw [e1, e2]
      rfl

theorem findChild_sameTree (h : SameTree s s') (d : Nat) (name : List UInt8) :
    findChild s' d name = findChild s d name := by
  unfold findChild
  rcases h.deref d with ⟨n, n', e1, e2, _, _, _, hc, _⟩ | ⟨e, e1, e2⟩
  · rw [e1, e2, ok_bind, ok_bind, hc, findChildLoop_sameTree h]
  · rw [e1, e2, error_bind, error_bind]

theorem walkNext_sameTree (h : SameTree s s') (cur : Nat) (c : List UInt8) :
    walkNext s' cur c = walkNext s cur c := by
  unfold walkNext
  by_cases hd : c = dot
  · rw [if_pos hd, if_pos hd]
  rw [if_neg hd, if_neg hd, findChild_sameTree h]
  rcases h.deref cur with ⟨n, n', e1, e2, _, ht, hp, _, _⟩ | ⟨e, e1, e2⟩
  · rw [e1, e2]
    rw [ok_bind, ok_bind, ht, hp]
  · rw [e1, e2]

theorem walkComps_sameTree (h : SameTree s s') (want : Bool) (cur : Nat) (cs : List (List UInt8)) :
    walkComps s' want cur cs = walkComps s want cur cs := by
  induction cs generalizing cur with
  | nil => rfl
  | cons c cs ih =>
    unfold walkComps
    rw [walkNext_sameTree h]
    simp only [ih]

theorem ramfsResolve_sameTree (h : SameTree s s') (cwd : Nat) (path : List UInt8) :
    ramfsResolve s' cwd path = ramfsResolve s cwd path := by
  unfold ramfsResolve
  rw [walk_eq, walk_eq, walkComps_sameTree h]
  unfold startOf
  rw [h.root]

theorem named_congr {name : List UInt8} {l : List Nat}
    (h : ∀ x ∈ l, (s'.node x).map RamfsNode.name = (s.node x).map RamfsNode.name) :
    named s' name l = named s name l := by
  induction l with
  | nil => rfl
  | cons c l ih =>
    unfold named
    rw [h c List.mem_cons_self, ih fun x hx => h x (List.mem_cons_of_mem _ hx)]

end

/-! ## a path that was just created -/

section
variable {s s' : Ramfs} {held : List Nat} {F F' : Forest Nat} {r parent : Nat} {name : List UInt8}
  {t : RamfsType}

/-- the search in the directory finds the new node first; elsewhere nothing has changed -/
theorem findChild_created (hc : Created s s' r parent name t) (h : FsInv s held F)
    (h' : FsInv s' held F') {d : Nat} {n : RamfsNode} (hd : s.node d = some n) (c : List UInt8) :
    findChild s' d c = if d = parent ∧ c = name then .ok r else findChild s d c := by
  obtain ⟨p, hp, hp', hr'⟩ := hc.first
  obtain ⟨K, _, hch, hmem⟩ := h.tree.kids hd
  have hne : ∀ x m, s.node x = some m → x ≠ r := by
    intro x m hx e
    rw [e, hc.fresh] at hx
    cases hx
  -- the old children keep their names and their order
  have hfield : ∀ x ∈ K.tops, ∃ m m', s.node x = some m ∧ s'.node x = some m' ∧
      m'.name = m.name ∧ m'.next = m.next := by
    intro x hx
    obtain ⟨m, hm, _⟩ := (hmem x).mp hx
    by_cases hxp : x = parent
    · subst hxp
      obtain rfl : m = p := Option.some.inj (hm.symm.trans hp)
      exact ⟨m, _, hm, hp', rfl, rfl⟩
    · exact ⟨m, m, hm, (hc.other x (hne x m hm) hxp).trans hm, rfl, rfl⟩
  have hch' : Chain s'.links.next 0 n.children K.tops := hch.congr fun x hx => by
    obtain ⟨m, m', e1, e2, _, e4⟩ := hfield x hx
    rw [Ramfs.links_next e1, Ramfs.links_next e2, e4]
  have hnamed : named s' c K.tops = named s c K.tops := named_congr fun x hx => by
    obtain ⟨m, m', e1, e2, e3, _⟩ := hfield x hx
    rw [e1, e2, Option.map_some, Option.map_some, e3]
  rw [findChild_named h.tree h.bound' hd c hch]
  by_cases hdp : d = parent
  · subst hdp
    rw [hd] at hp
    cases hp
    have hr0 : r ≠ 0 := h'.tree.ne_zero hr'
    have hchr : Chain s'.links.next 0 r (r :: K.tops) :=
      ⟨rfl, hr0, by rw [Ramfs.links_next hr']; exact hch'⟩
    have hstep : named s' c (r :: K.tops) =
        if (s'.node r).map RamfsNode.name = some c then r else named s' c K.tops := rfl
    rw [findChild_named h'.tree h'.bound' hp' c hchr, hstep, hr', hnamed, Option.map_some]
    by_cases hcn : c = name
    · rw [if_pos (by rw [hcn]), if_pos ⟨rfl, hcn⟩]
    · rw [if_neg fun e => hcn (Option.some.inj e).symm, if_neg fun e => hcn e.2]
  · have hd' : s'.node d = some n := (hc.other d (hne d n hd) hdp).trans hd
    rw [if_neg fun e => hdp e.1, findChild_named h'.tree h'.bound' hd' c hch', hnamed]

theorem walkNext_created (hc : Created s s' r parent name t) (h : FsInv s held F)
    (h' : FsInv s' held F') {cur : Nat} {n : RamfsNode} (hn : s.node cur = some n) (c : List UInt8)
    (hout : ¬ (cur = parent ∧ c = name)) : walkNext s' cur c = walkNext s cur c := by
  obtain ⟨n', hn', e⟩ : ∃ n', s'.node cur = some n' ∧ n'.plain = n.plain := by
    have h1 := hc.other_plain (x := cur) fun e => by
      rw [e, hc.fresh] at hn
      cases hn
    rw [hn] at h1
    cases hs : s'.node cur with
    | none =>
      rw [hs] at h1
      cases h1
    | some n' =>
      rw [hs] at h1
      exact ⟨n', rfl, Option.some.inj h1⟩
  unfold walkNext
  by_cases hd : c = dot
  · rw [if_pos hd, if_pos hd]
  rw [if_neg hd, if_neg hd, Ramfs.deref_ok hn, Ramfs.deref_ok hn', findChild_created hc h h' hn,
    if_neg hout]
  dsimp only [bind, Except.bind]
  rw [plain_parent e, plain_type e]

theorem walkNext_created_new (hc : Created s s' r parent name t) (h : FsInv s held F)
    (h' : FsInv s' held F') {p : RamfsNode} (hp : s.node parent = some p) (hdir : p.type = .dir)
    (hd : name ≠ dot) (hdd : name ≠ dotdot) : walkNext s' parent name = .ok (some r) := by
  obtain ⟨p', e1, e2, _⟩ := hc.first
  rw [hp] at e1
  cases e1
  rw [walkNext_child e2 hd hdd hdir, findChild_created hc h h' hp, if_pos ⟨rfl, rfl⟩]
  rfl

/-- the components that led to the place of the new node lead to it now -/
theorem follow_created {w : WalkOut} (hc : Created s s' r w.parent w.name t) (h : FsInv s held F)
    (h' : FsInv s' held F') {cs : List (List UInt8)} {cur : Nat} {n : RamfsNode}
    (hn : s.node cur = some n) (hw : walkComps s true cur cs = .ok w) (h0 : w.node = 0)
    (hp0 : w.parent ≠ 0) (hok : WalkOk s cs w) : follow s' cur cs = .ok r := by
  obtain ⟨p, hp, hdir, hfind, -, -, hd, hdd⟩ := hok.parent hp0
  have hr0 : r ≠ 0 := by
    obtain ⟨_, _, _, e⟩ := hc.first
    exact h'.tree.ne_zero e
  clear hok
  induction cs generalizing cur n with
  | nil =>
    cases hw
    exact absurd rfl hp0
  | cons c cs ih =>
    rw [follow_cons]
    unfold walkComps at hw
    by_cases hlen : ramfsNameMax ≤ c.length
    · rw [if_pos hlen] at hw
      cases hw
      exact absurd rfl hp0
    rw [if_neg hlen] at hw
    rw [if_neg hlen]
    obtain ⟨o, h1, h2, h3⟩ := walkNext_spec h.tree h.bound' hn c
    rw [h1] at hw
    cases o with
    | none =>
      cases hw
      exact absurd rfl hp0
    | some next =>
      have hw' : (if cs = [] ∧ true = true ∧ c ≠ dot ∧ c ≠ dotdot then
        Except.ok (⟨next, cur, clip ramfsNameMax c⟩ : WalkOut) else
        if next = 0 then .ok WalkOut.null else walkComps s true next cs) = .ok w := hw
      by_cases hlast : cs = [] ∧ true = true ∧ c ≠ dot ∧ c ≠ dotdot
      · rw [if_pos hlast] at hw'
        cases hw'
        have hclip : clip ramfsNameMax c = c := List.take_of_length_le (by omega)
        obtain ⟨rfl, _⟩ := hlast
        rw [hclip] at hc hd hdd
        rw [walkNext_created_new hc h h' hp hdir hd hdd]
        exact if_neg hr0
      rw [if_neg hlast] at hw'
      by_cases hnx : next = 0
      · rw [if_pos hnx] at hw'
        cases hw'
        exact absurd rfl hp0
      rw [if_neg hnx] at hw'
      obtain ⟨m, hm⟩ := h2 next rfl hnx
      -- the walk does not pass through the name that was missing
      have hout : ¬ (cur = w.parent ∧ c = w.name) := by
        intro e
        obtain ⟨rfl, rfl⟩ := e
        rw [hn] at hp
        cases hp
        obtain ⟨x, ex, hx⟩ := (h3 hd hdd).2 hdir
        cases ex
        rw [hfind] at hx
        exact hnx ((Except.ok.inj hx).symm.trans h0)
      rw [walkNext_created hc h h' hn c hout, h1]
      show (if next = 0 then _ else _) = _
      rw [if_neg hnx]
      exact ih hm hw'

end

/-- what `ramfs_create` returned is what its path resolves to -/
theorem ramfsCreate_resolve {s s' : Ramfs} {held : List Nat} {F : Forest Nat} (h : FsInv s held F)
    {cwd r : Nat} {n : RamfsNode} (hn : s.node cwd = some n) {deny : Bool} {path : List UInt8}
    {t : RamfsType} (hc : ramfsCreate deny s cwd path t = .ok (r, s')) (hr : r ≠ 0) :
    ramfsResolve s' cwd path = .ok r ∧ s'.contents r = [] ∧ s'.root = s.root := by
  obtain ⟨q, u, F', h1, h2, _, h4⟩ := ramfsCreate_spec h hn deny path t
  rw [hc] at h1
  cases h1
  obtain ⟨w, hw, hok, h0, hp0, hcr⟩ := h4 hr
  obtain ⟨m, hm⟩ := startOf_live h.tree hn path
  rw [walk_eq] at hw
  refine ⟨?_, ?_, hcr.root⟩
  · rw [ramfsResolve_eq s' (h.tree.ne_zero hn)]
    have e : startOf s' cwd path = startOf s cwd path := by
      unfold startOf
      rw [hcr.root]
    rw [e]
    exact follow_created hcr h h2 hm hw h0 hp0 hok
  · obtain ⟨_, _, _, e⟩ := hcr.first
    rw [Ramfs.contents_eq e]
    rfl

end Raptor
