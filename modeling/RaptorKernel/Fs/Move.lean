import RaptorKernel.Fs.Delete

/-!
# ramfs_move relocates one subtree

The two lists that change are described in one way: an object is taken out of every list
(`Chain.erase`) and put in front of one.  So it does not matter whether they are the same list.

* `not_below_parent`    a node is not above its own parent;
* `kids_moved`          the children of every directory afterwards, in their order;
* `below_moved`         what is below the node, link by link;
* `ramfsMove_relocates`   all of it about one call.
-/

namespace Raptor
open Forest

section
variable {s s' : Ramfs} {held : List Nat} {F : Forest Nat} {a parent x : Nat} {n p m : RamfsNode}
  {name : List UInt8}

theorem not_below_parent (h : TreeInv s F) (ha : s.node a = some n) : ¬ Below s a n.parent := by
  rintro ⟨l, hl, hal⟩
  have h1 : Chain s.links.par 0 a (a :: l) := by
    refine ⟨rfl, h.ne_zero ha, ?_⟩
    rw [Ramfs.links_par ha]
    exact hl
  exact (List.nodup_cons.mp h1.nodup).1 hal

/-- sibling links afterwards: those to the node are turned to the sibling it had -/
theorem next_moved (hpl : Placed s s' a n parent p name) (ha : s.node a = some n)
    (hp : s.node parent = some p) (hx : s.node x = some m) (hxa : x ≠ a) :
    s'.links.next x = if s.links.next x = a then s.links.next a else s.links.next x := by
  rw [Ramfs.links_next hx, Ramfs.links_next ha]
  by_cases hxp : x = parent
  · subst hxp
    obtain rfl : p = m := Option.some.inj (hp.symm.trans hx)
    rw [Ramfs.links_next hpl.first]
    rfl
  · have hx' : s'.node x = some (relink a n.next m) := by
      rw [hpl.other x hxa hxp, hx]
      rfl
    rw [Ramfs.links_next hx']
    rfl

/-- the children of every directory: the node is taken out of its list, and put in front of the
children of its new parent -/
theorem kids_moved (h : FsInv s held F) (hpl : Placed s s' a n parent p name)
    (ha : s.node a = some n) (hp : s.node parent = some p) (hpa : parent ≠ a) {d : Nat}
    (hd : s.node d = some m) {l : List Nat} (hl : Chain s.links.next 0 m.children l) :
    ∃ m', s'.node d = some m' ∧
      Chain s'.links.next 0 m'.children (if d = parent then a :: l.erase a else l.erase a) := by
  obtain ⟨K, _, hch, hmem⟩ := h.tree.kids hd
  have hcut : Chain s'.links.next 0 (if m.children = a then s.links.next a else m.children)
      (l.erase a) := by
    refine hl.erase (h.tree.ne_zero ha) fun y hy hya => ?_
    rw [hl.unique hch] at hy
    obtain ⟨k, hk, _⟩ := (hmem y).mp hy
    exact next_moved hpl ha hp hk hya
  rw [Ramfs.links_next ha] at hcut
  by_cases hdp : d = parent
  · subst hdp
    obtain rfl : p = m := Option.some.inj (hp.symm.trans hd)
    refine ⟨_, hpl.first, ?_⟩
    rw [if_pos rfl]
    refine ⟨rfl, h.tree.ne_zero ha, ?_⟩
    rw [Ramfs.links_next hpl.self]
    exact hcut
  · rw [if_neg hdp]
    by_cases hda : d = a
    · subst hda
      obtain rfl : n = m := Option.some.inj (ha.symm.trans hd)
      rw [if_neg (h.tree.children_ne_self ha)] at hcut
      exact ⟨_, hpl.self, hcut⟩
    · refine ⟨relink a n.next m, ?_, hcut⟩
      rw [hpl.other d hda hdp, hd]
      rfl

/-- what is below the node is the same, with all its links -/
theorem below_moved (h : FsInv s held F) (hpl : Placed s s' a n parent p name)
    (ha : s.node a = some n) (hout : ¬ Below s a parent) (hb : Below s a x) (hxa : x ≠ a) :
    s'.node x = s.node x := by
  have hxp : x ≠ parent := fun e => hout (e ▸ hb)
  rw [hpl.other x hxa hxp]
  cases hx : s.node x with
  | none => rfl
  | some m =>
    have ha0 := h.tree.ne_zero ha
    have hmem := h.tree.mem hx
    have habove := not_below_parent h.tree ha
    have hchild : m.children ≠ a := by
      intro e
      have h1 := h.tree.rep.par_child hmem (by rw [Ramfs.links_child hx, e]; exact ha0)
      rw [Ramfs.links_child hx, e, Ramfs.links_par ha] at h1
      rw [h1] at habove
      exact habove hb
    have hnext : m.next ≠ a := by
      intro e
      have h1 := h.tree.rep.par_next hmem (by rw [Ramfs.links_next hx, e]; exact ha0)
      rw [Ramfs.links_next hx, e, Ramfs.links_par ha, Ramfs.links_par hx] at h1
      rw [h1, ← below_parent h.tree hx hxa] at habove
      exact habove hb
    exact congrArg some (relink_of_ne hchild hnext)

theorem Moved.contents (hm : Moved s s' a parent name) (x : Nat) : s'.contents x = s.contents x := by
  by_cases hxa : x = a
  · subst hxa
    refine Ramfs.contents_congr hm.bytes ?_
    have h1 := congrArg (Option.map fun m : RamfsNode => (m.data, m.size)) hm.self
    rw [Option.map_map, Option.map_map] at h1
    exact h1
  · exact Ramfs.contents_plain hm.bytes (hm.other x hxa)

/-! ## one call -/

/-- `ramfs_move` moves a node unless it is the root, the target is no directory or has a child of the
new name already, or the node is the target or above it; then it changes nothing.  A node that is
moved leaves its list, becomes the first child of the target under the first 31 bytes of the name,
and takes along what is below it; nothing else changes. -/
theorem ramfsMove_relocates (h : FsInv s held F) (ha : s.node a = some n)
    (hp : s.node parent = some p) (name : List UInt8) :
    ∃ b s', ramfsMove s a parent name = .ok (b, s') ∧
      (b = true ↔ a ≠ s.root ∧ p.type = .dir ∧
        (∀ x m, s.node x = some m → m.parent = parent → m.name ≠ name) ∧ ¬ Below s a parent) ∧
      (b = false → s' = s) ∧
      (b = true →
        (∃ next, s'.node a = some
          { n with name := clip ramfsNameMax name, parent := parent, next := next }) ∧
        (∀ x, x ≠ a → (s'.node x).map RamfsNode.plain = (s.node x).map RamfsNode.plain) ∧
        (∀ x, s'.contents x = s.contents x) ∧ s'.root = s.root ∧
        (∀ d m l, s.node d = some m → Chain s.links.next 0 m.children l →
          ∃ m', s'.node d = some m' ∧
            Chain s'.links.next 0 m'.children (if d = parent then a :: l.erase a else l.erase a)) ∧
        ∀ x, Below s a x → x ≠ a → s'.node x = s.node x) := by
  obtain ⟨b, s', F', he, _, hfail, hdone, hiff⟩ := ramfsMove_effect h ha hp name
  refine ⟨b, s', he, hiff, hfail, fun hb => ?_⟩
  obtain ⟨hm, hpl⟩ := hdone hb
  obtain ⟨_, _, _, hout⟩ := hiff.mp hb
  have hpa : parent ≠ a := by
    rintro rfl
    exact hout (Below.self h.tree hp)
  refine ⟨⟨_, hpl.self⟩, hm.other, hm.contents, hm.root, ?_, ?_⟩
  · intro d m l hd hl
    exact kids_moved h hpl ha hp hpa hd hl
  · intro x hx hxa
    exact below_moved h hpl ha hout hx hxa

/-- a directory renamed in place, to a name of 40 bytes -/
theorem ramfsMove_relocates_tmp :
    ∃ s0 a b s', ramfsInit (fun _ => false) (Heap.init sampleImage) (fun _ => 0) = .ok s0 ∧
      ramfsResolve s0 s0.root (lit "/tmp") = .ok a ∧
      ramfsMove s0 a s0.root (List.replicate 40 0x61) = .ok (b, s') ∧ (b = false → s' = s0) ∧
      (b = true → (s'.node a).map RamfsNode.name = some (List.replicate 31 0x61)) := by
  obtain ⟨s0, F, a, n, h0, h, _, hres, ha, _⟩ := boot_tmp
  obtain ⟨r, hr, _⟩ := h.tree.rootDir
  obtain ⟨b, s', he, _, hfail, hdone⟩ := ramfsMove_relocates h ha hr (List.replicate 40 0x61)
  refine ⟨s0, a, b, s', h0, hres, he, hfail, fun hb => ?_⟩
  obtain ⟨⟨next, hself⟩, _⟩ := hdone hb
  rw [hself]
  rfl

end

end Raptor
