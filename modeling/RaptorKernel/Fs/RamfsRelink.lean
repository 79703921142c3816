import RaptorKernel.Fs.RamfsInv

/-!
# Removing and moving subtrees

`ramfs_delete` and `ramfs_move` both start with `detach`; what is detached is then freed, or renamed
and attached elsewhere.  `Below s a x` (`a` is `x` or an ancestor of it) says what goes along.
-/

namespace Raptor
open Forest

/-- `a` is `x` or an ancestor of it -/
def Below (s : Ramfs) (a x : Nat) : Prop := ∃ l, Chain s.links.par 0 x l ∧ a ∈ l

/-! ## ramfs_delete -/

/-- `a` and everything below it is gone -/
structure Deleted (s s' : Ramfs) (a : Nat) : Prop where
  gone : ∀ x, Below s a x → s'.node x = none
  other : ∀ x, ¬ Below s a x → (s'.node x).map RamfsNode.plain = (s.node x).map RamfsNode.plain
  root : s'.root = s.root
  bytes : s'.bytes = s.bytes

section
variable {s : Ramfs} {held : List Nat} {F : Forest Nat} {a : Nat} {n : RamfsNode}

/-- what is below a node, in terms of the tree -/
theorem TreeInv.below_iff (h : TreeInv s F) {K : Forest Nat} (hK : Sub a K (s.tree F)) {x : Nat}
    {m : RamfsNode} (hx : s.node x = some m) : Below s a x ↔ x ∈ a :: K.addrs := by
  obtain ⟨l, _, hl⟩ := h.up hx
  rw [List.mem_cons, ← h.rep.mem_below_iff h.nodup (l := []) rfl hK (by simp) (h.mem hx) hl]
  constructor
  · rintro ⟨l', h1, h2⟩
    rw [hl.unique h1]
    exact h2
  · exact fun h1 => ⟨l, hl, h1⟩

theorem Detached.plain {s' : Ramfs} {K : Forest Nat} (h : Detached s s' F K a n) {x : Nat}
    (hx : x ≠ a) : (s'.node x).map RamfsNode.plain = (s.node x).map RamfsNode.plain := by
  rw [h.other x hx, Option.map_map]
  rfl

theorem Detached.dataPtr {s' : Ramfs} {K : Forest Nat} (h : Detached s s' F K a n)
    (ha : s.node a = some n) : s'.dataPtr = s.dataPtr := by
  funext x
  by_cases hx : x = a
  · subst hx
    rw [Ramfs.dataPtr_eq h.self, Ramfs.dataPtr_eq ha]
  · unfold Ramfs.dataPtr
    rw [h.other x hx]
    cases s.node x <;> rfl

/-- nodes stay sound when a node is detached: only a directory has a link to it -/
theorem Detached.kept {s' : Ramfs} {K : Forest Nat} (h : Detached s s' F K a n)
    (hi : FsInv s held F) (ha : s.node a = some n) {x : Nat} {m : RamfsNode}
    (hx : s'.node x = some m) : KeptIn s x m := by
  by_cases hxa : x = a
  · subst hxa
    rw [h.self] at hx
    cases hx
    have hok := hi.nodes _ _ ha
    exact ⟨n, ha, rfl, rfl, hok.leaf, hok.room, hok.buffer, hok.noBuffer⟩
  · rw [h.other x hxa] at hx
    obtain ⟨m0, hm0, rfl⟩ := Option.map_eq_some_iff.mp hx
    have hok := hi.nodes x m0 hm0
    refine ⟨m0, hm0, rfl, rfl, fun hf => ?_, hok.room, hok.buffer, hok.noBuffer⟩
    have h0 := hok.leaf hf
    show (if m0.children = a then n.next else m0.children) = 0
    rw [h0, if_neg (hi.tree.ne_zero ha).symm]

/-! The state `s2` after the subtree that `detach` took out of `s` is freed. -/

section
variable {s1 s2 : Ramfs} {K : Forest Nat}

theorem Freed.node_some {A E : List Nat} (hf : Freed s1 s2 A E) {x : Nat} {m : RamfsNode}
    (hx : s2.node x = some m) : x ∉ A ∧ s1.node x = some m := by
  rw [hf.node] at hx
  split at hx
  · cases hx
  · exact ⟨by assumption, hx⟩

/-- the nodes that are left -/
theorem Freed.same (h : FsInv s held F) (hd : Detached s s1 F K a n) {E : List Nat}
    (hf : Freed s1 s2 (a :: K.addrs) E) {x : Nat} (hx : x ∈ (s1.tree (prune a F)).addrs) :
    s2.node x = s1.node x := by
  have hdis := (List.nodup_append'.mp (hd.addrs.nodup_iff.mp h.tree.nodup)).2.2
  rw [hf.node, if_neg fun h1 => hdis h1 hx]

theorem Freed.live_iff (h : FsInv s held F) (ha : s.node a = some n) (hd : Detached s s1 F K a n)
    {E : List Nat} (hf : Freed s1 s2 (a :: K.addrs) E) (x : Nat) :
    (∃ m, s2.node x = some m) ↔ x ∈ (s1.tree (prune a F)).addrs := by
  constructor
  · intro ⟨m, hm⟩
    obtain ⟨h1, h2⟩ := hf.node_some hm
    have h3 := hd.addrs.mem_iff.mp ((h.tree.live x).mp ((hd.live_iff ha x).mp ⟨m, h2⟩))
    exact (List.mem_append.mp h3).resolve_left h1
  · intro hx
    rw [hf.same h hd hx, hd.live_iff ha, h.tree.live, hd.addrs.mem_iff]
    exact List.mem_append_right _ hx

theorem Freed.tree (h : FsInv s held F) (ha : s.node a = some n) (hr : a ≠ s.root)
    (hd : Detached s s1 F K a n) {E : List Nat} (hf : Freed s1 s2 (a :: K.addrs) E) :
    TreeInv s2 (prune a F) := by
  have htree := Ramfs.tree_congr hf.root (prune a F)
  refine ⟨?_, ?_, ?_, ?_⟩
  · rw [hf.root, htree]
    exact Ramfs.rep_congr hd.rest fun x hx => hf.same h hd hx
  · rw [htree]
    exact (List.nodup_append'.mp (hd.addrs.nodup_iff.mp h.tree.nodup)).2.1
  · rw [htree]
    exact hf.live_iff h ha hd
  · obtain ⟨r, hr1, hr2⟩ := h.tree.rootDir
    have hmem := TreeInv.root_mem s1 (prune a F)
    rw [hf.root, hf.same h hd hmem, hd.root, hd.other _ hr.symm, hr1]
    exact ⟨_, rfl, hr2⟩

/-- what `Deleted` says of single nodes -/
theorem Freed.deleted (h : FsInv s held F) (ha : s.node a = some n) (hd : Detached s s1 F K a n)
    {E : List Nat} (hf : Freed s1 s2 (a :: K.addrs) E) : Deleted s s2 a := by
  refine ⟨fun x hx => ?_, fun x hx => ?_, hf.root.trans hd.root, hf.bytes.trans hd.bytes⟩
  · cases hm : s.node x with
    | none =>
      cases hx2 : s2.node x with
      | none => rfl
      | some m =>
        obtain ⟨m0, hm0⟩ := (hd.live_iff ha x).mp ⟨m, (hf.node_some hx2).2⟩
        rw [hm] at hm0
        cases hm0
    | some m => rw [hf.node, if_pos ((h.tree.below_iff hd.sub hm).mp hx)]
  · have hxa : x ≠ a := by
      intro e
      subst e
      obtain ⟨l, _, hl⟩ := h.tree.up ha
      obtain ⟨r, e, _⟩ := hl.head (h.tree.ne_zero ha)
      exact hx ⟨l, hl, by rw [e]; exact List.mem_cons_self⟩
    cases hm : s.node x with
    | none =>
      have h1 := hd.plain hxa
      rw [hm] at h1
      rw [hf.node]
      split
      · rfl
      · exact h1
    | some m =>
      rw [hf.node, if_neg fun h1 => hx ((h.tree.below_iff hd.sub hm).mpr h1), hd.plain hxa, hm]

end

/-- the file system that is left after the subtree is freed -/
theorem delete_inv (h : FsInv s held F) (ha : s.node a = some n) (hr : a ≠ s.root) {s1 s2 : Ramfs}
    {K : Forest Nat} (hd : Detached s s1 F K a n)
    (hf : Freed s1 s2 (a :: K.addrs) (s1.blocks (s1.tree (prune a F)).addrs held)) :
    FsInv s2 held (prune a F) ∧ Deleted s s2 a := by
  have hlive := hf.live_iff h ha hd
  have hE : ∀ x ∈ (s1.tree (prune a F)).addrs, x ∈ s1.blocks (s1.tree (prune a F)).addrs held :=
    fun x hx => List.mem_append_left _ (List.mem_append_left _ hx)
  have hkept : ∀ x m, s2.node x = some m → KeptIn s x m := fun x m hx => hd.kept h ha (hf.node_some hx).2
  refine ⟨⟨hf.tree h ha hr hd, fun x m hx => ?_, ?_, fun x m hx => ?_, fun x m hx hc => ?_⟩,
    hf.deleted h ha hd⟩
  · obtain ⟨_, _, _, _, hok⟩ := hkept x m hx
    exact hok
  · have hdp : ∀ x ∈ (s1.tree (prune a F)).addrs, s2.dataPtr x = s1.dataPtr x :=
      fun x hx => Ramfs.dataPtr_congr (hf.same h hd hx)
    rw [Ramfs.tree_congr hf.root, Ramfs.blocks_congr hdp]
    exact hf.ptrs
  · obtain ⟨m0, hm0, _⟩ := hkept x m hx
    refine hf.room _ _ (hE x ((hlive x).mp ⟨m, hx⟩)) ?_
    rw [hd.heap]
    exact h.nodeRoom x m0 hm0
  · obtain ⟨m0, hm0, e1, e2, _⟩ := hkept x m hx
    have hmem : m.data ∈ s1.blocks (s1.tree (prune a F)).addrs held := by
      refine List.mem_append_left _ (List.mem_append_right _ (List.mem_filterMap.mpr
        ⟨x, (hlive x).mp ⟨m, hx⟩, ?_⟩))
      rw [Ramfs.dataPtr_eq (hf.node_some hx).2, if_neg hc]
    refine hf.room _ _ hmem ?_
    rw [hd.heap, e1, e2]
    exact h.dataRoom x m0 hm0 (by rw [← e2]; exact hc)

/-- a call of `ramfs_delete` that is not refused: the node is detached, and what hangs on it freed -/
theorem ramfsDelete_run (h : FsInv s held F) (ha : s.node a = some n) (hr : a ≠ s.root)
    {recursive : Bool} (hg : ¬ (n.type = .dir ∧ n.children ≠ 0 ∧ recursive = false)) :
    ∃ s1 K s2, Detached s s1 F K a n ∧
      Freed s1 s2 (a :: K.addrs) (s1.blocks (s1.tree (prune a F)).addrs held) ∧
      ramfsDelete s a recursive = .ok (true, s2) := by
  have ha0 := h.tree.ne_zero ha
  have hp0 : n.parent ≠ 0 := fun e => hr ((h.tree.parent_eq_zero_iff ha).mp e)
  obtain ⟨s1, K, h1, hd⟩ := h.tree.detach h.bound' ha hr
  have hholds : Holds s1 (a :: K.addrs) (s1.blocks (s1.tree (prune a F)).addrs held) := by
    have hA : Holds s1 (a :: K.addrs ++ (s1.tree (prune a F)).addrs) held := by
      refine ⟨?_, fun x hx => ?_, fun x m hx => ?_, fun x m hx => ?_⟩
      · rw [hd.heap]
        have e1 : s1.blocks (a :: K.addrs ++ (s1.tree (prune a F)).addrs) held =
            s.blocks (a :: K.addrs ++ (s1.tree (prune a F)).addrs) held :=
          Ramfs.blocks_congr fun x _ => by rw [hd.dataPtr ha]
        rw [e1]
        exact h.owned.trans (Ramfs.blocks_perm hd.addrs)
      · have h2 := (h.tree.live x).mpr (hd.addrs.mem_iff.mpr hx)
        by_cases hxa : x = a
        · exact ⟨_, hxa ▸ hd.self⟩
        · obtain ⟨m, hm⟩ := h2
          exact ⟨_, by rw [hd.other x hxa, hm]; rfl⟩
      · obtain ⟨_, _, _, _, h2⟩ := hd.kept h ha hx
        exact h2.buffer
      · obtain ⟨m0, hm0, _⟩ := hd.kept h ha hx
        exact .inl (hd.addrs.mem_iff.mp (h.tree.mem hm0))
    exact hA.first
  have hK : K.addrs.length ≤ (s.tree F).addrs.length := by
    have h2 := hd.addrs.length_eq
    rw [List.length_append, List.length_cons] at h2
    omega
  have hbound := h.bound
  have hbelow : Rep s1.links 0 a n.children K := by
    have h2 := hd.below
    rw [Ramfs.links_child hd.self] at h2
    exact h2
  obtain ⟨s2, h2, hfr⟩ := freeTree_spec hd.self hbelow hholds
    (show 2 * K.addrs.length + 1 < loopBound by omega)
  refine ⟨s1, K, s2, hd, hfr, ?_⟩
  unfold ramfsDelete
  rw [if_neg (by simp [ha0, hr]), Ramfs.deref_ok ha]
  show (if n.parent = 0 then _ else
    if n.type = .dir ∧ n.children ≠ 0 ∧ recursive = false then _ else _) = _
  rw [if_neg hp0, if_neg hg, h1]
  show (freeTree loopBound a s1 >>= _) = _
  rw [h2]
  rfl

/-- the condition under which `ramfs_delete` goes on, the other way round -/
theorem delete_allowed {recursive : Bool} :
    ¬ (n.type = .dir ∧ n.children ≠ 0 ∧ recursive = false) ↔
      n.type = .file ∨ n.children = 0 ∨ recursive = true := by
  rw [not_and_or, not_and_or, not_not, Bool.not_eq_false]
  apply or_congr_left
  cases n.type <;> simp

/-- `ramfs_delete` returns; it removes a node exactly when the node is not the root and is a file,
is empty, or `recursive` is set, and then with everything below it -/
theorem ramfsDelete_spec (h : FsInv s held F) (ha : s.node a = some n) (recursive : Bool) :
    ∃ b s' F', ramfsDelete s a recursive = .ok (b, s') ∧ FsInv s' held F' ∧ (b = false → s' = s) ∧
      (b = true → Deleted s s' a) ∧
      (b = true ↔ a ≠ s.root ∧ (n.type = .file ∨ n.children = 0 ∨ recursive = true)) := by
  by_cases hr : a = s.root
  · unfold ramfsDelete
    rw [if_pos (.inr hr)]
    exact ⟨false, s, F, rfl, h, fun _ => rfl, fun hb => absurd hb (by simp),
      ⟨fun hb => absurd hb (by simp), fun hb => absurd hr hb.1⟩⟩
  by_cases hg : n.type = .dir ∧ n.children ≠ 0 ∧ recursive = false
  · have hp0 : n.parent ≠ 0 := fun e => hr ((h.tree.parent_eq_zero_iff ha).mp e)
    unfold ramfsDelete
    rw [if_neg (by simp [h.tree.ne_zero ha, hr]), Ramfs.deref_ok ha]
    show ∃ b s' F', (if n.parent = 0 then _ else
      if n.type = .dir ∧ n.children ≠ 0 ∧ recursive = false then _ else _) = _ ∧ _
    rw [if_neg hp0, if_pos hg]
    exact ⟨false, s, F, rfl, h, fun _ => rfl, fun hb => absurd hb (by simp),
      ⟨fun hb => absurd hb (by simp), fun hb => absurd hg (delete_allowed.mpr hb.2)⟩⟩
  · obtain ⟨s1, K, s2, hd, hfr, he⟩ := ramfsDelete_run h ha hr hg
    obtain ⟨h3, h4⟩ := delete_inv h ha hr hd hfr
    exact ⟨true, s2, prune a F, he, h3, fun hb => absurd hb (by simp), fun _ => h4,
      ⟨fun _ => ⟨hr, delete_allowed.mp hg⟩, fun _ => rfl⟩⟩

end

/-! ## ramfs_move -/

/-- `a` is now the child `name` of `parent` -/
structure Moved (s s' : Ramfs) (a parent : Nat) (name : List UInt8) : Prop where
  self : (s'.node a).map RamfsNode.plain =
    (s.node a).map fun n => { n.plain with name := name, parent := parent }
  other : ∀ x, x ≠ a → (s'.node x).map RamfsNode.plain = (s.node x).map RamfsNode.plain
  root : s'.root = s.root
  bytes : s'.bytes = s.bytes

/-- the same, link by link: `a` in front of the children of `parent`, every link to where it was
turned to the sibling it had -/
structure Placed (s s' : Ramfs) (a : Nat) (n : RamfsNode) (parent : Nat) (p : RamfsNode)
    (name : List UInt8) : Prop where
  self : s'.node a =
    some { n with name := name, parent := parent, next := (relink a n.next p).children }
  first : s'.node parent = some { relink a n.next p with children := a }
  other : ∀ x, x ≠ a → x ≠ parent → s'.node x = (s.node x).map (relink a n.next)

section
variable {s : Ramfs} {held : List Nat} {F : Forest Nat} {a : Nat} {n : RamfsNode}

/-- a node taken out and put in again elsewhere -/
theorem move_attached (h : FsInv s held F) (ha : s.node a = some n) (hr : a ≠ s.root) {s1 : Ramfs}
    {K : Forest Nat} (hd : Detached s s1 F K a n) {parent : Nat} {p : RamfsNode}
    (hp : s.node parent = some p) (hdir : p.type = .dir) (hout : ¬ Below s a parent)
    (name : List UInt8) :
    ∃ s' F', attach (s1.set a { n with parent := 0, next := 0, name := name }) parent a = .ok s' ∧
      FsInv s' held F' ∧ Moved s s' a parent name ∧ Placed s s' a n parent p name := by
  have ha0 := h.tree.ne_zero ha
  have hnd := hd.addrs.nodup_iff.mp h.tree.nodup
  have hpout : parent ∉ a :: K.addrs := fun h1 => hout ((h.tree.below_iff hd.sub hp).mpr h1)
  have hpin : parent ∈ (s1.tree (prune a F)).addrs :=
    (List.mem_append.mp (hd.addrs.mem_iff.mp (h.tree.mem hp))).resolve_left hpout
  have hpa : parent ≠ a := fun e => hpout (e ▸ List.mem_cons_self)
  have hdis := (List.nodup_append'.mp hnd).2.2
  have haR : ∀ x ∈ (s1.tree (prune a F)).addrs, x ≠ a :=
    fun x hx e => hdis (e ▸ List.mem_cons_self) hx
  have haK : ∀ x ∈ K.addrs, x ≠ a := fun x hx e =>
    (List.nodup_cons.mp (List.nodup_append'.mp hnd).1).1 (e ▸ hx)
  -- the state with the new name
  generalize hs2 : s1.set a { n with parent := 0, next := 0, name := name } = s2
  have hself2 : s2.node a = some { n with parent := 0, next := 0, name := name } := by
    rw [← hs2]
    exact Ramfs.set_node_self _ _ _
  have hnode2 : ∀ x, x ≠ a → s2.node x = s1.node x := by
    intro x hx
    rw [← hs2]
    exact Ramfs.set_node_ne _ _ hx
  have hroot2 : s2.root = s1.root := by rw [← hs2]; rfl
  have htree2 := Ramfs.tree_congr hroot2 (prune a F)
  have hp1 : s2.node parent = some (relink a n.next p) := by
    rw [hnode2 parent hpa, hd.other parent hpa, hp]
    rfl
  have hlive2 : ∀ x, (∃ m, s2.node x = some m) ↔ x ∈ a :: K.addrs ++ (s1.tree (prune a F)).addrs := by
    intro x
    rw [← hd.addrs.mem_iff, ← h.tree.live, ← hd.live_iff ha]
    by_cases hx : x = a
    · subst hx
      exact ⟨fun _ => ⟨_, hd.self⟩, fun _ => ⟨_, hself2⟩⟩
    · rw [hnode2 x hx]
  obtain ⟨r, hr1, hr2⟩ := h.tree.rootDir
  obtain ⟨s3, hattach, hat⟩ := attach_attached hp1 hself2 hpa.symm
  obtain ⟨F', ht', hperm'⟩ := TreeInv.attach (s := s2) (F := prune a F) (K := K)
    (by rw [htree2, hroot2]; exact Ramfs.rep_congr hd.rest fun x hx => hnode2 x (haR x hx))
    (by rw [htree2]; exact (List.nodup_append'.mp hnd).2.1)
    (fun x => by rw [htree2]; exact hlive2 x)
    ⟨relink a n.next r, by rw [hroot2, hd.root, hnode2 _ hr.symm, hd.other _ hr.symm, hr1]; rfl, hr2⟩
    (by
      have h1 := hd.below
      rw [Ramfs.links_child hd.self] at h1
      rw [Ramfs.links_child hself2]
      exact Ramfs.rep_congr h1 fun x hx => hnode2 x (haK x hx))
    (by rw [htree2]; exact hnd) (by rw [htree2]; exact hpin) ha0 hp1 hself2 hat
  have hheap3 : s3.heap = s.heap := by
    rw [hat.heap, ← hs2]
    exact hd.heap
  have hself3 : s3.node a = some { n with
      parent := parent, next := (relink a n.next p).children, name := name } := hat.self
  have hpar3 := hat.first
  have hother3 : ∀ x, x ≠ a → x ≠ parent → s3.node x = s1.node x := by
    intro x h1 h2
    rw [hat.other x h1 h2, hnode2 x h1]
  have hold : ∀ x m, s3.node x = some m → KeptIn s x m := by
    intro x m hx
    by_cases h1 : x = a
    · subst h1
      rw [hself3] at hx
      cases hx
      have hok := h.nodes _ _ ha
      exact ⟨n, ha, rfl, rfl, hok.leaf, hok.room, hok.buffer, hok.noBuffer⟩
    · refine hat.kept hdir (hd.kept h ha ((hnode2 parent hpa).symm.trans hp1)) (fun y k hy _ hk => ?_) h1 hx
      rw [hnode2 y hy] at hk
      exact hd.kept h ha hk
  rw [htree2] at hperm'
  refine ⟨s3, F', hattach, h.relinked ht' (hperm'.trans hd.addrs.symm) hheap3 hold,
    ⟨?_, ?_, hat.root.trans (hroot2.trans hd.root), ?_⟩, hself3, hpar3, ?_⟩
  · rw [hself3, ha]
    rfl
  · intro x hx
    by_cases h2 : x = parent
    · subst h2
      rw [hpar3, hp]
      rfl
    · rw [hother3 x hx h2, hd.plain hx]
  · rw [hat.bytes, ← hs2]
    exact hd.bytes
  · intro x h1 h2
    rw [hother3 x h1 h2, hd.other x h1]

/-- `ramfs_move` returns; it moves a node exactly when the node is not the root, the target is a
directory without a child of the new name, and is not the node or below it -/
theorem ramfsMove_effect (h : FsInv s held F) (ha : s.node a = some n) {parent : Nat} {p : RamfsNode}
    (hp : s.node parent = some p) (name : List UInt8) :
    ∃ b s' F', ramfsMove s a parent name = .ok (b, s') ∧ FsInv s' held F' ∧ (b = false → s' = s) ∧
      (b = true → Moved s s' a parent (clip ramfsNameMax name) ∧
        Placed s s' a n parent p (clip ramfsNameMax name)) ∧
      (b = true ↔ a ≠ s.root ∧ p.type = .dir ∧
        (∀ x m, s.node x = some m → m.parent = parent → m.name ≠ name) ∧ ¬ Below s a parent) := by
  have hstop : ∀ {P : Prop}, (P → False) → ∃ b s' F',
      (Except.ok (false, s) : Except Fault (Bool × Ramfs)) = .ok (b, s') ∧ FsInv s' held F' ∧
      (b = false → s' = s) ∧ (b = true → Moved s s' a parent (clip ramfsNameMax name) ∧
        Placed s s' a n parent p (clip ramfsNameMax name)) ∧ (b = true ↔ P) :=
    fun hP => ⟨false, s, F, rfl, h, fun _ => rfl, fun hb => absurd hb (by simp),
      ⟨fun hb => absurd hb (by simp), fun hp => (hP hp).elim⟩⟩
  have ha0 := h.tree.ne_zero ha
  unfold ramfsMove
  by_cases hr : a = s.root
  · rw [if_pos (.inr (.inl hr))]
    exact hstop fun hc => hc.1 hr
  rw [if_neg (by simp [ha0, hr, h.tree.ne_zero hp]), Ramfs.deref_ok hp]
  show ∃ b s' F', (if p.type ≠ .dir then _ else _) = _ ∧ _
  by_cases hdir : p.type = .dir
  swap
  · rw [if_pos hdir]
    exact hstop fun hc => hdir hc.2.1
  rw [if_neg (not_not.mpr hdir)]
  obtain ⟨c, hc1, hc2, hc3⟩ := findChild_spec h.tree h.bound' hp name
  rw [hc1]
  show ∃ b s' F', (if c ≠ 0 then _ else _) = _ ∧ _
  by_cases hc0 : c = 0
  swap
  · rw [if_pos hc0]
    obtain ⟨m, hm, e1, e2⟩ := hc2 hc0
    exact hstop fun hc => hc.2.2.1 c m hm e1 e2
  rw [if_neg (not_not.mpr hc0)]
  obtain ⟨l, hl1, hl2⟩ := h.tree.up hp
  have hlen := (List.subperm_of_subset hl2.nodup hl1).length_le
  have habove := aboveLoop_spec (a := a) hl2 (fun x hx => (h.tree.live x).mpr (hl1 x hx))
    (lt_of_le_of_lt hlen h.bound')
  rw [habove]
  show ∃ b s' F', (if decide (a ∈ l) = true then _ else _) = _ ∧ _
  by_cases hal : a ∈ l
  · rw [if_pos (by simpa using hal)]
    exact hstop fun hc => hc.2.2.2 ⟨l, hl2, hal⟩
  rw [if_neg (by simpa using hal)]
  have hout : ¬ Below s a parent := by
    rintro ⟨l', h1, h2⟩
    rw [h1.unique hl2] at h2
    exact hal h2
  obtain ⟨s1, K, h1, hd⟩ := h.tree.detach h.bound' ha hr
  obtain ⟨s', F', h2, h3, h4⟩ := move_attached h ha hr hd hp hdir hout (clip ramfsNameMax name)
  refine ⟨true, s', F', ?_, h3, fun hb => absurd hb (by simp), fun _ => h4,
    ⟨fun _ => ⟨hr, hdir, hc3 hc0, hout⟩, fun _ => rfl⟩⟩
  rw [h1]
  show (s1.deref a >>= _) = _
  rw [Ramfs.deref_ok hd.self]
  show (attach (s1.set a { n with parent := 0, next := 0, name := clip ramfsNameMax name }) parent a
    >>= _) = _
  rw [h2]
  rfl

theorem ramfsMove_spec (h : FsInv s held F) (ha : s.node a = some n) {parent : Nat} {p : RamfsNode}
    (hp : s.node parent = some p) (name : List UInt8) :
    ∃ b s' F', ramfsMove s a parent name = .ok (b, s') ∧ FsInv s' held F' ∧ (b = false → s' = s) ∧
      (b = true → Moved s s' a parent (clip ramfsNameMax name)) ∧
      (b = true ↔ a ≠ s.root ∧ p.type = .dir ∧
        (∀ x m, s.node x = some m → m.parent = parent → m.name ≠ name) ∧ ¬ Below s a parent) := by
  obtain ⟨b, s', F', h1, h2, h3, h4, h5⟩ := ramfsMove_effect h ha hp name
  exact ⟨b, s', F', h1, h2, h3, fun hb => (h4 hb).1, h5⟩

end
end Raptor
