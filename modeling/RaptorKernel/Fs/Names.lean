import RaptorKernel.Fs.RamfsRuns

/-!
# Names in the tree

`NamesInv s`: every node but the root has a name that a path component can spell, and no two
children of a directory have the same name.  `ramfs_create` keeps this for every path, because the
name it looks for and the name it stores are both the last component; `ramfs_move` keeps it when
the name it stores is such a name and no other child has it.

* `PathTo s a p`     `p` are the names from below the root down to `a`;
* `follow_pathTo`    they lead from the root to `a`, and nowhere else.
-/

namespace Raptor
open Forest

/-- a name that one path component can spell -/
structure NameOk (name : List UInt8) : Prop where
  pos : 1 ≤ name.length
  short : name.length ≤ 31
  noSlash : slash ∉ name
  notDot : name ≠ dot
  notDotdot : name ≠ dotdot

structure NamesInv (s : Ramfs) : Prop where
  ok : ∀ a n, s.node a = some n → a ≠ s.root → NameOk n.name
  unique : ∀ a n b m, s.node a = some n → s.node b = some m → a ≠ s.root → b ≠ s.root →
    n.parent = m.parent → n.name = m.name → a = b

/-- the fields that list links do not touch are the same -/
theorem plain_some {s s' : Ramfs} {x : Nat} {n' : RamfsNode}
    (h : (s'.node x).map RamfsNode.plain = (s.node x).map RamfsNode.plain)
    (hx : s'.node x = some n') : ∃ n, s.node x = some n ∧ n'.plain = n.plain := by
  rw [hx] at h
  cases hn : s.node x with
  | none =>
    rw [hn] at h
    cases h
  | some n =>
    rw [hn] at h
    exact ⟨n, rfl, Option.some.inj h⟩

section
variable {n m : RamfsNode}

theorem plain_name (h : n.plain = m.plain) : n.name = m.name := by
  have h1 : n.plain.name = m.plain.name := by rw [h]
  exact h1

theorem plain_parent (h : n.plain = m.plain) : n.parent = m.parent := by
  have h1 : n.plain.parent = m.plain.parent := by rw [h]
  exact h1

theorem plain_type (h : n.plain = m.plain) : n.type = m.type := by
  have h1 : n.plain.type = m.plain.type := by rw [h]
  exact h1

end

section
variable {s s' : Ramfs}

/-- nodes that are left keep their names -/
theorem NamesInv.of_subset (h : NamesInv s) (hr : s'.root = s.root)
    (hs : ∀ x n', s'.node x = some n' → ∃ n, s.node x = some n ∧ n'.name = n.name ∧
      n'.parent = n.parent) : NamesInv s' where
  ok := by
    intro a n' ha har
    obtain ⟨n, hn, e, _⟩ := hs a n' ha
    rw [e]
    exact h.ok a n hn (hr ▸ har)
  unique := by
    intro a n' b m' ha hb har hbr ep en
    obtain ⟨n, hn, e1, e2⟩ := hs a n' ha
    obtain ⟨m, hm, e3, e4⟩ := hs b m' hb
    rw [e2, e4] at ep
    rw [e1, e3] at en
    exact h.unique a n b m hn hm (hr ▸ har) (hr ▸ hbr) ep en

/-- one node `r` gets the name `name` in `parent`, where no other node has it -/
theorem NamesInv.of_named (h : NamesInv s) (hr : s'.root = s.root) {r parent : Nat}
    {name : List UInt8} (hok : NameOk name)
    (hself : ∀ n', s'.node r = some n' → n'.name = name ∧ n'.parent = parent)
    (hother : ∀ x, x ≠ r → ∀ n', s'.node x = some n' →
      ∃ n, s.node x = some n ∧ n'.name = n.name ∧ n'.parent = n.parent)
    (hfree : ∀ x n, x ≠ r → x ≠ s.root → s.node x = some n → n.parent = parent → n.name ≠ name) :
    NamesInv s' := by
  have hclash : ∀ b m', b ≠ r → b ≠ s.root → s'.node b = some m' → m'.parent = parent →
      m'.name ≠ name := by
    intro b m' hb hbr hm' ep
    obtain ⟨m, hm, e1, e2⟩ := hother b hb m' hm'
    rw [e1]
    exact hfree b m hb hbr hm (e2 ▸ ep)
  refine ⟨fun a n' ha har => ?_, fun a n' b m' ha hb har hbr ep en => ?_⟩
  · by_cases har' : a = r
    · subst har'
      rw [(hself n' ha).1]
      exact hok
    · obtain ⟨n, hn, e, _⟩ := hother a har' n' ha
      rw [e]
      exact h.ok a n hn (hr ▸ har)
  · rw [hr] at har hbr
    by_cases h1 : a = r
    · by_cases h2 : b = r
      · exact h1.trans h2.symm
      · subst h1
        obtain ⟨e1, e2⟩ := hself n' ha
        exact absurd (en.symm.trans e1) (hclash b m' h2 hbr hb (ep.symm.trans e2))
    · by_cases h2 : b = r
      · subst h2
        obtain ⟨e1, e2⟩ := hself m' hb
        exact absurd (en.trans e1) (hclash a n' h1 har ha (ep.trans e2))
      · obtain ⟨n, hn, e1, e2⟩ := hother a h1 n' ha
        obtain ⟨m, hm, e3, e4⟩ := hother b h2 m' hb
        exact h.unique a n b m hn hm har hbr (by rw [← e2, ← e4]; exact ep)
          (by rw [← e1, ← e3]; exact en)

/-- the last component of a path is a name, unless it is `.` or `..` or too long -/
theorem nameOk_component {path name : List UInt8} (h : (components path).getLast? = some name)
    (hlen : name.length < ramfsNameMax) (hd : name ≠ dot) (hdd : name ≠ dotdot) : NameOk name := by
  obtain ⟨h0, hs, _⟩ := fields_mem (List.mem_of_getLast? h)
  have h32 : ramfsNameMax = 32 := rfl
  exact ⟨List.length_pos_iff.mpr h0, by omega, hs, hd, hdd⟩

theorem NamesInv.create {held : List Nat} {F : Forest Nat} (hn : NamesInv s) (h : FsInv s held F)
    {path : List UInt8} {w : WalkOut} (hok : WalkOk s (components path) w) (h0 : w.node = 0)
    (hp : w.parent ≠ 0) {r : Nat} {t : RamfsType} (hc : Created s s' r w.parent w.name t) :
    NamesInv s' := by
  obtain ⟨p, hpn, _, hfind, hlast, hlen, hd, hdd⟩ := hok.parent hp
  obtain ⟨c, hc1, _, hc2⟩ := findChild_spec h.tree h.bound' hpn w.name
  have hc0 : c = 0 := by
    rw [hfind] at hc1
    exact (Except.ok.inj hc1).symm.trans h0
  refine hn.of_named (r := r) hc.root (nameOk_component hlast hlen hd hdd) (fun n' hn' => ?_)
    (fun x hx n' hn' => ?_) fun x n _ _ hx ep => hc2 hc0 x n hx ep
  · have h1 := hc.self_plain
    rw [hn'] at h1
    have h2 := Option.some.inj h1
    exact ⟨congrArg RamfsNode.name h2, congrArg RamfsNode.parent h2⟩
  · obtain ⟨n, hn, e⟩ := plain_some (hc.other_plain hx) hn'
    exact ⟨n, hn, plain_name e, plain_parent e⟩

theorem NamesInv.write (hn : NamesInv s) {file : Nat} {data : List UInt8} {append : Bool}
    (hw : Written s s' file data append) : NamesInv s' := by
  refine hn.of_subset hw.root fun x n' hx => ?_
  by_cases hxf : x = file
  · subst hxf
    obtain ⟨f, d, c, hf, e⟩ := hw.self
    rw [e] at hx
    cases hx
    exact ⟨f, hf, rfl, rfl⟩
  · rw [hw.other x hxf] at hx
    exact ⟨n', hx, rfl, rfl⟩

theorem NamesInv.delete (hn : NamesInv s) {a : Nat} (hd : Deleted s s' a) : NamesInv s' := by
  refine hn.of_subset hd.root fun x n' hx => ?_
  by_cases hb : Below s a x
  · rw [hd.gone x hb] at hx
    cases hx
  · obtain ⟨n, hn, e⟩ := plain_some (hd.other x hb) hx
    exact ⟨n, hn, plain_name e, plain_parent e⟩

theorem NamesInv.move (hn : NamesInv s) {a parent : Nat} {name : List UInt8}
    (hm : Moved s s' a parent name) (hok : NameOk name)
    (hfree : ∀ x n, x ≠ a → x ≠ s.root → s.node x = some n → n.parent = parent → n.name ≠ name) :
    NamesInv s' := by
  refine hn.of_named (r := a) hm.root hok (fun n' hn' => ?_) (fun x hx n' hn' => ?_) hfree
  · have h1 := hm.self
    rw [hn'] at h1
    cases hs : s.node a with
    | none =>
      rw [hs] at h1
      cases h1
    | some n =>
      rw [hs] at h1
      have h2 := Option.some.inj h1
      exact ⟨congrArg RamfsNode.name h2, congrArg RamfsNode.parent h2⟩
  · obtain ⟨n, hn, e⟩ := plain_some (hm.other x hx) hn'
    exact ⟨n, hn, plain_name e, plain_parent e⟩

end

theorem rootState_names (H : Heap) (m : Mem) : NamesInv (rootState H m) := by
  have hnone : ∀ x, x ≠ (rootState H m).root → (rootState H m).node x = none := fun x hx =>
    Ramfs.set_node_ne _ _ hx
  refine ⟨fun a n ha har => ?_, fun a n b m' ha hb har hbr _ _ => ?_⟩
  · rw [hnone a har] at ha
    cases ha
  · rw [hnone a har] at ha
    cases ha

/-! ## absolute paths -/

/-- the names from below the root down to a node -/
inductive PathTo (s : Ramfs) : Nat → List (List UInt8) → Prop
  | root : PathTo s s.root []
  | child {a : Nat} {n : RamfsNode} {p : List (List UInt8)} (ha : s.node a = some n)
      (hr : a ≠ s.root) (hp : PathTo s n.parent p) : PathTo s a (p ++ [n.name])

/-- the text `/name/name`, or `/` for the root -/
def absPath (p : List (List UInt8)) : List UInt8 :=
  if p = [] then [slash] else p.flatMap (slash :: ·)

section
variable {s : Ramfs} {held : List Nat} {F : Forest Nat}

theorem exists_pathTo (h : TreeInv s F) {a : Nat} {n : RamfsNode} (ha : s.node a = some n) :
    ∃ p, PathTo s a p := by
  obtain ⟨l, -, hl⟩ := h.up ha
  induction l generalizing a n with
  | nil => exact absurd hl (h.ne_zero ha)
  | cons x l ih =>
    by_cases hr : a = s.root
    · exact ⟨[], hr ▸ .root⟩
    · obtain ⟨rfl, _, hl'⟩ := hl
      obtain ⟨p, hp⟩ := h.parent_live ha hr
      rw [Ramfs.links_par ha] at hl'
      obtain ⟨q, hq⟩ := ih hp hl'
      exact ⟨_, .child ha hr hq⟩

theorem PathTo.live (h : TreeInv s F) {a : Nat} {p : List (List UInt8)} (hp : PathTo s a p) :
    ∃ n, s.node a = some n := by
  cases hp with
  | root =>
    obtain ⟨r, hr, _⟩ := h.rootDir
    exact ⟨r, hr⟩
  | child ha _ _ => exact ⟨_, ha⟩

theorem PathTo.unique {a : Nat} {p q : List (List UInt8)} (hp : PathTo s a p) (hq : PathTo s a q) :
    p = q := by
  induction hp generalizing q with
  | root =>
    cases hq with
    | root => rfl
    | child _ hr _ => exact absurd rfl hr
  | child ha hr _ ih =>
    cases hq with
    | root => exact absurd rfl hr
    | child ha' _ hp' =>
      rw [ha] at ha'
      cases ha'
      rw [ih hp']

theorem PathTo.names (hn : NamesInv s) {a : Nat} {p : List (List UInt8)} (hp : PathTo s a p) :
    ∀ c ∈ p, NameOk c := by
  induction hp with
  | root => exact fun c hc => absurd hc (by simp)
  | child ha hr _ ih =>
    intro c hc
    rcases List.mem_append.mp hc with hc | hc
    · exact ih c hc
    · rw [List.mem_singleton.mp hc]
      exact hn.ok _ _ ha hr

/-- a node with a child is a directory -/
theorem FsInv.parent_dir (h : FsInv s held F) {a : Nat} {n p : RamfsNode} (ha : s.node a = some n)
    (hp : s.node n.parent = some p) : p.type = .dir := by
  cases ht : p.type with
  | dir => rfl
  | file =>
    exfalso
    have h0 := (h.nodes _ _ hp).leaf ht
    obtain ⟨K, _, h2, h3⟩ := h.tree.kids hp
    rw [h0] at h2
    have h4 := (h3 a).mpr ⟨n, ha, rfl⟩
    rw [h2.nil_of_nul] at h4
    exact absurd h4 (by simp)

/-- one name leads to the child of that name -/
theorem follow_name (h : FsInv s held F) (hn : NamesInv s) {a : Nat} {n : RamfsNode}
    (ha : s.node a = some n) (hr : a ≠ s.root) : follow s n.parent [n.name] = .ok a := by
  obtain ⟨p, hp⟩ := h.tree.parent_live ha hr
  have hok := hn.ok a n ha hr
  obtain ⟨o, h1, _, h3⟩ := walkNext_spec h.tree h.bound' hp n.name
  obtain ⟨x, rfl, hfind⟩ := (h3 hok.notDot hok.notDotdot).2 (h.parent_dir ha hp)
  obtain ⟨c, hc1, hc2, hc3⟩ := findChild_spec h.tree h.bound' hp n.name
  rw [hfind] at hc1
  cases hc1
  have hx0 : x ≠ 0 := fun h0 => hc3 h0 a n ha rfl rfl
  obtain ⟨m, hm, e1, e2⟩ := hc2 hx0
  have hxr : x ≠ s.root := by
    intro e
    have h4 := (h.tree.parent_eq_zero_iff hm).mpr e
    exact h.tree.ne_zero hp (e1.symm.trans h4)
  have hxa : x = a := hn.unique x m a n hm ha hxr hr e1 e2
  have h32 : ramfsNameMax = 32 := rfl
  have hshort := hok.short
  rw [follow_cons, if_neg (by omega), h1]
  show (if x = 0 then _ else _) = _
  rw [if_neg hx0, hxa]
  rfl

/-- the names of a node lead to it -/
theorem follow_pathTo (h : FsInv s held F) (hn : NamesInv s) {a : Nat} {p : List (List UInt8)}
    (hp : PathTo s a p) : follow s s.root p = .ok a := by
  induction hp with
  | root => rfl
  | child ha hr hp ih =>
    obtain ⟨q, hq⟩ := h.tree.parent_live ha hr
    rw [follow_append s h.tree.root_ne_zero, ih]
    show (if _ = 0 then _ else _) = _
    rw [if_neg (h.tree.ne_zero hq)]
    exact follow_name h hn ha hr

/-- conversely, names that lead from the root to a node are its names -/
theorem pathTo_of_follow (h : FsInv s held F) {p : List (List UInt8)} (hp : ∀ c ∈ p, NameOk c)
    {a : Nat} (ha : follow s s.root p = .ok a) (h0 : a ≠ 0) : PathTo s a p := by
  induction p using List.reverseRecOn generalizing a with
  | nil =>
    cases ha
    exact .root
  | append_singleton q c ih =>
    rw [follow_append s h.tree.root_ne_zero] at ha
    cases hq : follow s s.root q with
    | error e =>
      rw [hq] at ha
      cases ha
    | ok x =>
      rw [hq] at ha
      have ha' : (if x = 0 then .ok 0 else follow s x [c]) = Except.ok a := ha
      by_cases hx : x = 0
      · rw [if_pos hx] at ha'
        exact absurd (Except.ok.inj ha').symm h0
      rw [if_neg hx] at ha'
      have hpx := ih (fun d hd => hp d (List.mem_append_left _ hd)) hq hx
      obtain ⟨m, hm⟩ := hpx.live h.tree
      have hc := hp c (List.mem_append_right _ (List.mem_singleton_self c))
      have h32 : ramfsNameMax = 32 := rfl
      have hshort := hc.short
      obtain ⟨o, h1, _, h3⟩ := walkNext_spec h.tree h.bound' hm c
      rw [follow_cons, if_neg (by omega), h1] at ha'
      obtain ⟨h4, h5⟩ := h3 hc.notDot hc.notDotdot
      cases ht : m.type with
      | file =>
        rw [h4 (by rw [ht]; simp)] at ha'
        exact absurd (Except.ok.inj ha').symm h0
      | dir =>
        obtain ⟨y, rfl, hfind⟩ := h5 ht
        have hy : (if y = 0 then .ok 0 else Except.ok y) = (Except.ok a : Except Fault Nat) := ha'
        by_cases hy0 : y = 0
        · rw [if_pos hy0] at hy
          exact absurd (Except.ok.inj hy).symm h0
        rw [if_neg hy0] at hy
        cases hy
        obtain ⟨c', hc1, hc2, _⟩ := findChild_spec h.tree h.bound' hm c
        rw [hfind] at hc1
        cases hc1
        obtain ⟨k, hk, e1, e2⟩ := hc2 h0
        subst e1 e2
        exact .child hk (fun e => h.tree.ne_zero hm ((h.tree.parent_eq_zero_iff hk).mpr e)) hpx

theorem components_absPath {p : List (List UInt8)} (hp : ∀ c ∈ p, NameOk c) :
    components (absPath p) = p := by
  by_cases h0 : p = []
  · subst h0
    rfl
  unfold absPath
  rw [if_neg h0]
  clear h0
  induction p with
  | nil => rfl
  | cons c p ih =>
    have hc := hp c List.mem_cons_self
    have hc0 : c ≠ [] := List.length_pos_iff.mp hc.pos
    have hone : components c = [c] := fields_of_notMem hc.noSlash hc0
    have ih' := ih fun d hd => hp d (List.mem_cons_of_mem _ hd)
    rw [List.flatMap_cons]
    cases p with
    | nil =>
      show components (slash :: (c ++ [])) = _
      rw [List.append_nil]
      exact (fields_cons_sep c).trans hone
    | cons d p =>
      show components (slash :: (c ++ slash :: (d ++ p.flatMap (slash :: ·)))) = _
      have e1 : components (slash :: (c ++ slash :: (d ++ p.flatMap (slash :: ·)))) =
          components (c ++ slash :: (d ++ p.flatMap (slash :: ·))) := fields_cons_sep _
      have e2 : components (c ++ slash :: (d ++ p.flatMap (slash :: ·))) =
          components c ++ components (d ++ p.flatMap (slash :: ·)) := fields_append_sep _ _
      have e3 : components ((d :: p).flatMap (slash :: ·)) =
          components (d ++ p.flatMap (slash :: ·)) := fields_cons_sep _
      rw [e3] at ih'
      rw [e1, e2, hone, ih']
      rfl

/-- the absolute path of a node resolves to it, from everywhere -/
theorem resolve_absPath (h : FsInv s held F) (hn : NamesInv s) {a : Nat} {p : List (List UInt8)}
    (hp : PathTo s a p) (cwd : Nat) : ramfsResolve s cwd (absPath p) = .ok a := by
  have hhead : (absPath p).head? = some slash := by
    unfold absPath
    cases p <;> rfl
  unfold ramfsResolve
  rw [walk_eq, components_absPath (hp.names hn)]
  have hs : ∀ d, startOf s d (absPath p) = s.root := fun d => if_pos hhead
  rw [hs]
  exact follow_pathTo h hn hp

end
end Raptor
