import RaptorKernel.Theory.Forest
import RaptorKernel.Fs.Ramfs

/-!
# The tree of the file system

`TreeInv s F`: the links of the live nodes are the tree whose root has the forest `F` below it.

* `attach_attached`, `detach_spec`   what the two link operations do, node by node;
* `TreeInv.attach`, `TreeInv.detach`   on the tree, they put a subtree in and take one out;
* `findChild_spec`, `aboveLoop_spec`   the two searches along links, which end because the lists
  they follow are those of a tree.
-/

namespace Raptor
open Forest

namespace Ramfs
variable (s : Ramfs)

def links : Links Nat where
  child a := ((s.node a).map RamfsNode.children).getD 0
  next a := ((s.node a).map RamfsNode.next).getD 0
  par a := ((s.node a).map RamfsNode.parent).getD 0

def tree (F : Forest Nat) : Forest Nat := .cons s.root F .nil

variable {s} {a : Nat} {n : RamfsNode}

theorem tree_congr {s' : Ramfs} (h : s'.root = s.root) (F : Forest Nat) : s'.tree F = s.tree F := by
  unfold tree
  rw [h]

theorem links_child (h : s.node a = some n) : s.links.child a = n.children := by
  show ((s.node a).map RamfsNode.children).getD 0 = _
  rw [h]
  rfl

theorem links_next (h : s.node a = some n) : s.links.next a = n.next := by
  show ((s.node a).map RamfsNode.next).getD 0 = _
  rw [h]
  rfl

theorem links_par (h : s.node a = some n) : s.links.par a = n.parent := by
  show ((s.node a).map RamfsNode.parent).getD 0 = _
  rw [h]
  rfl

/-- a list of nodes that are as they were -/
theorem rep_congr {s' : Ramfs} {pv pa x : Nat} {K : Forest Nat} (h : Rep s.links pv pa x K)
    (hn : ∀ y ∈ K.addrs, s'.node y = s.node y) : Rep s'.links pv pa x K := by
  apply h.congr
  · intro y hy
    exact congrArg (fun o => (Option.map RamfsNode.children o).getD 0) (hn y hy)
  · intro y hy
    exact congrArg (fun o => (Option.map RamfsNode.next o).getD 0) (hn y hy)
  · intro y hy
    exact congrArg (fun o => (Option.map RamfsNode.parent o).getD 0) (hn y hy)

theorem deref_ok (h : s.node a = some n) : s.deref a = .ok n := by
  unfold deref
  rw [h]

theorem deref_eq_ok : s.deref a = .ok n ↔ s.node a = some n := by
  constructor
  · intro h
    unfold deref at h
    cases hn : s.node a with
    | none =>
      rw [hn] at h
      cases h
    | some m =>
      rw [hn] at h
      cases h
      rfl
  · exact deref_ok

theorem set_node_self (s : Ramfs) (a : Nat) (n : RamfsNode) : (s.set a n).node a = some n :=
  Function.update_self _ _ _

theorem set_node_ne (s : Ramfs) {a x : Nat} (n : RamfsNode) (h : x ≠ a) :
    (s.set a n).node x = s.node x :=
  Function.update_of_ne h _ _

end Ramfs

structure TreeInv (s : Ramfs) (F : Forest Nat) : Prop where
  rep : Rep s.links 0 0 s.root (s.tree F)
  nodup : (s.tree F).addrs.Nodup
  live : ∀ a, (∃ n, s.node a = some n) ↔ a ∈ (s.tree F).addrs
  rootDir : ∃ n, s.node s.root = some n ∧ n.type = .dir

namespace TreeInv
variable {s : Ramfs} {F : Forest Nat} {a : Nat} {n : RamfsNode}

theorem mem (h : TreeInv s F) (ha : s.node a = some n) : a ∈ (s.tree F).addrs :=
  (h.live a).mp ⟨n, ha⟩

theorem ne_zero (h : TreeInv s F) (ha : s.node a = some n) : a ≠ 0 :=
  h.rep.ne_nul a (h.mem ha)

theorem node_zero (h : TreeInv s F) : s.node 0 = none := by
  cases h0 : s.node 0 with
  | none => rfl
  | some n => exact absurd rfl (h.ne_zero h0)

theorem zero_notMem (h : TreeInv s F) : 0 ∉ (s.tree F).addrs := fun h0 => h.rep.ne_nul 0 h0 rfl

theorem root_mem (s : Ramfs) (F : Forest Nat) : s.root ∈ (s.tree F).addrs := List.mem_cons_self

theorem root_ne_zero (h : TreeInv s F) : s.root ≠ 0 := h.rep.2.1

theorem par_root (h : TreeInv s F) : s.links.par s.root = 0 := h.rep.2.2.1

/-- a live node other than the root stands in the children list of its parent, a live node -/
theorem parent_sub (h : TreeInv s F) (ha : s.node a = some n) (hr : a ≠ s.root) :
    ∃ K, Sub n.parent K (s.tree F) ∧ a ∈ K.tops := by
  rcases h.rep.mem_cases (h.mem ha) with h1 | ⟨K, h1, h2⟩
  · exact absurd (List.mem_singleton.mp h1) hr
  · rw [Ramfs.links_par ha] at h1
    exact ⟨K, h1, h2⟩

theorem parent_live (h : TreeInv s F) (ha : s.node a = some n) (hr : a ≠ s.root) :
    ∃ p, s.node n.parent = some p := by
  obtain ⟨K, h1, _⟩ := h.parent_sub ha hr
  exact (h.live _).mpr h1.mem

theorem parent_eq_zero_iff (h : TreeInv s F) (ha : s.node a = some n) :
    n.parent = 0 ↔ a = s.root := by
  constructor
  · intro h0
    by_contra hr
    obtain ⟨p, hp⟩ := h.parent_live ha hr
    exact h.ne_zero hp h0
  · rintro rfl
    rw [← Ramfs.links_par ha]
    exact h.par_root

/-- the parents of a live node are live and lead to the root -/
theorem up (h : TreeInv s F) (ha : s.node a = some n) :
    ∃ l, (∀ x ∈ l, x ∈ (s.tree F).addrs) ∧ Chain s.links.par 0 a l := by
  obtain ⟨l, h1, h2⟩ := h.rep.up (l := []) rfl a (h.mem ha)
  rw [List.append_nil] at h2
  exact ⟨l, h1, h2⟩

theorem parent_ne_self (h : TreeInv s F) (ha : s.node a = some n) : n.parent ≠ a := by
  obtain ⟨l, _, h1⟩ := h.up ha
  obtain ⟨r, hr, _⟩ := h1.head (h.ne_zero ha)
  rw [← Ramfs.links_par ha]
  exact h1.next_ne_head (by rw [hr]; exact List.mem_cons_self)

theorem children_ne_self (h : TreeInv s F) (ha : s.node a = some n) : n.children ≠ a := by
  intro e
  have h1 : s.links.child a = a := (Ramfs.links_child ha).trans e
  have h2 := h.rep.par_child (h.mem ha) (by rw [h1]; exact h.ne_zero ha)
  rw [h1, Ramfs.links_par ha] at h2
  exact h.parent_ne_self ha h2

theorem next_ne_self (h : TreeInv s F) (ha : s.node a = some n) (hr : a ≠ s.root) : n.next ≠ a := by
  obtain ⟨K, hK, hm⟩ := h.parent_sub ha hr
  obtain ⟨u, v, huv⟩ := List.append_of_mem hm
  have h1 := (h.rep.sub hK).chain
  rw [huv] at h1
  rw [← Ramfs.links_next ha]
  exact h1.drop.next_ne_head List.mem_cons_self

/-- the children of a live node, in the order of the list -/
theorem kids (h : TreeInv s F) (ha : s.node a = some n) :
    ∃ K, Sub a K (s.tree F) ∧ Chain s.links.next 0 n.children K.tops ∧
      ∀ x, x ∈ K.tops ↔ ∃ m, s.node x = some m ∧ m.parent = a := by
  obtain ⟨K, hK⟩ := exists_sub (h.mem ha)
  have h1 := (h.rep.sub hK).chain
  rw [Ramfs.links_child ha] at h1
  refine ⟨K, hK, h1, fun x => ?_⟩
  rw [h.rep.mem_tops_iff h.nodup h.zero_notMem hK, ← h.live]
  constructor
  · rintro ⟨⟨m, hm⟩, hp⟩
    exact ⟨m, hm, by rw [← Ramfs.links_par hm]; exact hp⟩
  · rintro ⟨m, hm, hp⟩
    exact ⟨⟨m, hm⟩, by rw [Ramfs.links_par hm]; exact hp⟩

end TreeInv

/-! ## searching along links -/

section
variable {s : Ramfs} {F : Forest Nat}

/-- the first of the nodes `l` called `name`, or NULL -/
def named (s : Ramfs) (name : List UInt8) : List Nat → Nat
  | [] => 0
  | c :: l => if (s.node c).map RamfsNode.name = some name then c else named s name l

theorem findChildLoop_spec {name : List UInt8} {c : Nat} {l : List Nat}
    (hl : Chain s.links.next 0 c l) (hlive : ∀ x ∈ l, ∃ n, s.node x = some n) {fuel : Nat}
    (hf : l.length < fuel) : findChildLoop s name fuel c = .ok (named s name l) := by
  induction l generalizing c fuel with
  | nil =>
    obtain ⟨f, rfl⟩ : ∃ f, fuel = f + 1 := ⟨fuel - 1, by simp only [List.length_nil] at hf; omega⟩
    exact if_pos hl
  | cons x l ih =>
    obtain ⟨f, rfl⟩ : ∃ f, fuel = f + 1 := ⟨fuel - 1, by simp only [List.length_cons] at hf; omega⟩
    obtain ⟨rfl, h0, h2⟩ := hl
    obtain ⟨n, hn⟩ := hlive c List.mem_cons_self
    rw [Ramfs.links_next hn] at h2
    have hrec : findChildLoop s name f n.next = .ok (named s name l) :=
      ih h2 (fun y hy => hlive y (List.mem_cons_of_mem _ hy))
        (by simp only [List.length_cons] at hf; omega)
    show (if c = 0 then _ else _) = _
    rw [if_neg h0, Ramfs.deref_ok hn]
    show (if n.name = name then Except.ok c else _) =
      Except.ok (if (s.node c).map RamfsNode.name = some name then c else _)
    rw [hn, hrec, Option.map_some]
    by_cases hnm : n.name = name
    · rw [if_pos hnm, if_pos (congrArg some hnm)]
    · rw [if_neg hnm, if_neg fun e => hnm (Option.some.inj e)]

/-- a search that finds something found a node with the name -/
theorem named_mem {name : List UInt8} {l : List Nat} (h : named s name l ≠ 0) :
    named s name l ∈ l ∧ (s.node (named s name l)).map RamfsNode.name = some name := by
  induction l with
  | nil => exact absurd rfl h
  | cons c l ih =>
    unfold named at h ⊢
    split at h
    · rename_i hc
      rw [if_pos hc]
      exact ⟨List.mem_cons_self, hc⟩
    · rename_i hc
      rw [if_neg hc]
      exact ⟨List.mem_cons_of_mem _ (ih h).1, (ih h).2⟩

/-- a search that finds nothing passed no node with the name -/
theorem named_eq_zero {name : List UInt8} {l : List Nat} (h : named s name l = 0)
    (h0 : ∀ x ∈ l, x ≠ 0) : ∀ x ∈ l, (s.node x).map RamfsNode.name ≠ some name := by
  induction l with
  | nil => exact fun x hx => absurd hx (by simp)
  | cons c l ih =>
    unfold named at h
    split at h
    · exact absurd h (h0 c List.mem_cons_self)
    · rename_i hc
      intro x hx
      rcases List.mem_cons.mp hx with rfl | hx
      · exact hc
      · exact ih h (fun y hy => h0 y (List.mem_cons_of_mem _ hy)) x hx

variable {d : Nat} {n : RamfsNode}

/-- `find_child` returns the first child with the name -/
theorem findChild_named (h : TreeInv s F) (hb : (s.tree F).addrs.length < loopBound)
    (hd : s.node d = some n) (name : List UInt8) {l : List Nat}
    (hl : Chain s.links.next 0 n.children l) : findChild s d name = .ok (named s name l) := by
  obtain ⟨K, hK, hch, _⟩ := h.kids hd
  have hsub : ∀ x ∈ K.tops, x ∈ (s.tree F).addrs := fun x hx => hK.subset x (tops_subset x hx)
  have hlen := (List.subperm_of_subset hch.nodup hsub).length_le
  unfold findChild
  rw [Ramfs.deref_ok hd, hl.unique hch]
  exact findChildLoop_spec hch (fun x hx => (h.live x).mpr (hsub x hx)) (by omega)

/-- `find_child` returns, and returns a child with the name or says that there is none -/
theorem findChild_spec (h : TreeInv s F) (hb : (s.tree F).addrs.length < loopBound)
    (hd : s.node d = some n) (name : List UInt8) :
    ∃ c, findChild s d name = .ok c ∧
      (c ≠ 0 → ∃ m, s.node c = some m ∧ m.parent = d ∧ m.name = name) ∧
      (c = 0 → ∀ x m, s.node x = some m → m.parent = d → m.name ≠ name) := by
  obtain ⟨K, _, hch, hmem⟩ := h.kids hd
  refine ⟨named s name K.tops, findChild_named h hb hd name hch, fun h0 => ?_,
    fun h0 x m hx hp => ?_⟩
  · obtain ⟨h1, h2⟩ := named_mem h0
    obtain ⟨m, hm, hp⟩ := (hmem _).mp h1
    rw [hm] at h2
    exact ⟨m, hm, hp, Option.some.inj h2⟩
  · have h1 := named_eq_zero h0 hch.ne_nul x ((hmem x).mpr ⟨m, hx, hp⟩)
    rw [hx] at h1
    exact fun e => h1 (congrArg some e)

theorem aboveLoop_spec {a p : Nat} {l : List Nat} (hl : Chain s.links.par 0 p l)
    (hlive : ∀ x ∈ l, ∃ n, s.node x = some n) {fuel : Nat} (hf : l.length < fuel) :
    aboveLoop s a fuel p = .ok (decide (a ∈ l)) := by
  induction l generalizing p fuel with
  | nil =>
    obtain ⟨f, rfl⟩ : ∃ f, fuel = f + 1 := ⟨fuel - 1, by simp only [List.length_nil] at hf; omega⟩
    exact if_pos hl
  | cons x l ih =>
    obtain ⟨f, rfl⟩ : ∃ f, fuel = f + 1 := ⟨fuel - 1, by simp only [List.length_cons] at hf; omega⟩
    obtain ⟨rfl, h0, h2⟩ := hl
    obtain ⟨n, hn⟩ := hlive p List.mem_cons_self
    rw [Ramfs.links_par hn] at h2
    have hrec : aboveLoop s a f n.parent = .ok (decide (a ∈ l)) :=
      ih h2 (fun y hy => hlive y (List.mem_cons_of_mem _ hy))
        (by simp only [List.length_cons] at hf; omega)
    show (if p = 0 then _ else if p = a then _ else _) = _
    rw [if_neg h0]
    by_cases hpa : p = a
    · rw [if_pos hpa]
      subst hpa
      simp
    · rw [if_neg hpa, Ramfs.deref_ok hn]
      show aboveLoop s a f n.parent = _
      have hap : a ≠ p := fun e => hpa e.symm
      rw [hrec]
      simp [hap]

end

/-! ## attach -/

section
variable {s : Ramfs} {F : Forest Nat}

theorem attach_spec {parent child : Nat} {p c : RamfsNode} (hp : s.node parent = some p)
    (hc : s.node child = some c) (hne : child ≠ parent) :
    attach s parent child = .ok ((s.set child { c with parent := parent, next := p.children }).set
      parent { p with children := child }) := by
  have hne' : parent ≠ child := hne.symm
  unfold attach
  rw [Ramfs.deref_ok hc]
  show ((s.set child { c with parent := parent }).deref parent >>= _) = _
  rw [Ramfs.deref_ok ((Ramfs.set_node_ne _ _ hne').trans hp)]
  show ((s.set child { c with parent := parent }).deref child >>= _) = _
  rw [Ramfs.deref_ok (Ramfs.set_node_self _ _ _)]
  show (((s.set child { c with parent := parent }).set child
    { c with parent := parent, next := p.children }).deref parent >>= _) = _
  rw [Ramfs.deref_ok ((Ramfs.set_node_ne _ _ hne').trans ((Ramfs.set_node_ne _ _ hne').trans hp))]
  unfold Ramfs.set
  simp only [Function.update_idem]
  rfl

/-- `child` in front of the children of `parent` -/
structure Attached (s s' : Ramfs) (parent child : Nat) (p c : RamfsNode) : Prop where
  self : s'.node child = some { c with parent := parent, next := p.children }
  first : s'.node parent = some { p with children := child }
  other : ∀ x, x ≠ child → x ≠ parent → s'.node x = s.node x
  root : s'.root = s.root
  heap : s'.heap = s.heap
  bytes : s'.bytes = s.bytes

theorem attach_attached {parent child : Nat} {p c : RamfsNode} (hp : s.node parent = some p)
    (hc : s.node child = some c) (hne : child ≠ parent) :
    ∃ s', attach s parent child = .ok s' ∧ Attached s s' parent child p c := by
  refine ⟨_, attach_spec hp hc hne, ?_, Ramfs.set_node_self _ _ _, ?_, rfl, rfl, rfl⟩
  · rw [Ramfs.set_node_ne _ _ hne, Ramfs.set_node_self]
  · intro x h1 h2
    rw [Ramfs.set_node_ne _ _ h2, Ramfs.set_node_ne _ _ h1]

namespace Attached
variable {s' : Ramfs} {parent child : Nat} {p c : RamfsNode}

theorem live (h : Attached s s' parent child p c) (hp : s.node parent = some p) (hc : s.node child = some c)
    (x : Nat) : (∃ m, s'.node x = some m) ↔ ∃ m, s.node x = some m := by
  by_cases h1 : x = child
  · subst h1
    exact ⟨fun _ => ⟨_, hc⟩, fun _ => ⟨_, h.self⟩⟩
  by_cases h2 : x = parent
  · subst h2
    exact ⟨fun _ => ⟨_, hp⟩, fun _ => ⟨_, h.first⟩⟩
  rw [h.other x h1 h2]

/-- the links afterwards: those of `child`, the one of `parent` to it, and no other have changed -/
theorem links_child (h : Attached s s' parent child p c) (hc : s.node child = some c) {x : Nat}
    (hx : x ≠ parent) : s'.links.child x = s.links.child x := by
  by_cases h1 : x = child
  · subst h1
    rw [Ramfs.links_child h.self, Ramfs.links_child hc]
  · exact congrArg (fun o => (Option.map RamfsNode.children o).getD 0) (h.other x h1 hx)

theorem links_next (h : Attached s s' parent child p c) (hp : s.node parent = some p) {x : Nat}
    (hx : x ≠ child) : s'.links.next x = s.links.next x := by
  by_cases h2 : x = parent
  · subst h2
    rw [Ramfs.links_next h.first, Ramfs.links_next hp]
  · exact congrArg (fun o => (Option.map RamfsNode.next o).getD 0) (h.other x hx h2)

theorem links_par (h : Attached s s' parent child p c) (hp : s.node parent = some p) {x : Nat}
    (hx : x ≠ child) : s'.links.par x = s.links.par x := by
  by_cases h2 : x = parent
  · subst h2
    rw [Ramfs.links_par h.first, Ramfs.links_par hp]
  · exact congrArg (fun o => (Option.map RamfsNode.parent o).getD 0) (h.other x hx h2)

end Attached

/-- attaching a node, with `K` below it, that is not in the tree yet -/
theorem TreeInv.attach {parent child : Nat} {p c : RamfsNode} {K : Forest Nat} {s' : Ramfs}
    (hrep : Rep s.links 0 0 s.root (s.tree F)) (hnd : (s.tree F).addrs.Nodup)
    (hlive : ∀ a, (∃ n, s.node a = some n) ↔ a ∈ child :: K.addrs ++ (s.tree F).addrs)
    (hroot : ∃ n, s.node s.root = some n ∧ n.type = .dir)
    (hK : Rep s.links 0 child (s.links.child child) K)
    (hfresh : (child :: K.addrs ++ (s.tree F).addrs).Nodup)
    (hpm : parent ∈ (s.tree F).addrs) (h0 : child ≠ 0)
    (hp : s.node parent = some p) (hc : s.node child = some c)
    (hat : Attached s s' parent child p c) :
    ∃ F', TreeInv s' F' ∧ (s'.tree F').addrs.Perm (child :: K.addrs ++ (s.tree F).addrs) := by
  obtain ⟨hcK, hKF, hdis⟩ := List.nodup_append'.mp hfresh
  have hcm : child ∉ (s.tree F).addrs := fun h => hdis List.mem_cons_self h
  have hck : child ∉ K.addrs := (List.nodup_cons.mp hcK).1
  have hpk : parent ∉ K.addrs := fun h => hdis (List.mem_cons_of_mem _ h) hpm
  have hne : child ≠ parent := fun e => hcm (e ▸ hpm)
  have hKc : ∀ x ∈ K.addrs, x ≠ child := fun x hx e => hck (e ▸ hx)
  have hFc : ∀ x ∈ (s.tree F).addrs, x ≠ child := fun x hx e => hcm (e ▸ hx)
  have hK' : Rep s'.links 0 child (s'.links.child child) K := by
    rw [hat.links_child hc hne]
    exact hK.congr (fun x hx => hat.links_child hc fun e => hpk (e ▸ hx))
      (fun x hx => hat.links_next hp (hKc x hx)) fun x hx => hat.links_par hp (hKc x hx)
  have hrep' : Rep s'.links 0 0 s.root (graft parent child K (s.tree F)) := by
    refine hrep.graft hnd hK' hcm h0 ?_ ?_ ?_ (fun x _ h2 => hat.links_child hc h2)
      (fun x hx => hat.links_next hp (hFc x hx)) fun x hx => hat.links_par hp (hFc x hx)
    · rw [Ramfs.links_par hat.self]
    · rw [Ramfs.links_next hat.self, Ramfs.links_child hp]
    · rw [Ramfs.links_child hat.first]
  have hperm := addrs_graft (a := child) (K := K) hnd hpm
  -- the tree is the old one with `child` in it
  refine ⟨if s.root = parent then .cons child K (graft parent child K F) else
    graft parent child K F, ⟨?_, ?_, ?_, ?_⟩, ?_⟩
  · rw [Ramfs.tree_congr hat.root, hat.root]
    exact hrep'
  · rw [Ramfs.tree_congr hat.root]
    exact hperm.nodup_iff.mpr hfresh
  · intro a
    rw [Ramfs.tree_congr hat.root, hat.live hp hc, hlive a]
    exact (hperm.mem_iff (a := a)).symm
  · obtain ⟨n, hn, ht⟩ := hroot
    have hrc : s.root ≠ child := hFc _ (TreeInv.root_mem s F)
    rw [hat.root]
    by_cases h2 : s.root = parent
    · rw [h2] at hn ⊢
      rw [hp] at hn
      cases hn
      exact ⟨_, hat.first, ht⟩
    · exact ⟨n, (hat.other _ hrc h2).trans hn, ht⟩
  · rw [Ramfs.tree_congr hat.root]
    exact hperm

end

/-! ## detach -/

section
variable {s : Ramfs} {F : Forest Nat}

theorem detachLoop_spec {a c : Nat} {l : List Nat} {pp : Slot} (hpp : pp.read s = .ok c)
    (hl : Chain s.links.next 0 c l) (ha : a ∈ l) (hlive : ∀ x ∈ l, ∃ n, s.node x = some n)
    {fuel : Nat} (hf : l.length ≤ fuel) :
    ∃ pp', detachLoop s a fuel pp = .ok pp' ∧ pp'.read s = .ok a ∧
      (pp' = pp ∨ ∃ b ∈ l, pp' = .next b) := by
  induction l generalizing c pp fuel with
  | nil => exact absurd ha (by simp)
  | cons x l ih =>
    obtain ⟨f, rfl⟩ : ∃ f, fuel = f + 1 := ⟨fuel - 1, by simp only [List.length_cons] at hf; omega⟩
    obtain ⟨rfl, h0, h2⟩ := hl
    have hstep : detachLoop s a (f + 1) pp =
        if c ≠ 0 ∧ c ≠ a then detachLoop s a f (.next c) else .ok pp := by
      show (pp.read s >>= _) = _
      rw [hpp]
      rfl
    rw [hstep]
    by_cases hca : c = a
    · rw [if_neg fun h => h.2 hca]
      exact ⟨pp, rfl, hca ▸ hpp, .inl rfl⟩
    · rw [if_pos ⟨h0, hca⟩]
      obtain ⟨n, hn⟩ := hlive c List.mem_cons_self
      rw [Ramfs.links_next hn] at h2
      have hr : (Slot.next c).read s = .ok n.next := by
        show (s.deref c).map _ = _
        rw [Ramfs.deref_ok hn]
        rfl
      have ha' : a ∈ l := (List.mem_cons.mp ha).resolve_left fun e => hca e.symm
      have hf' : l.length ≤ f := by simp only [List.length_cons] at hf; omega
      obtain ⟨pp', h3, h4, h5⟩ := ih hr h2 ha' (fun y hy => hlive y (List.mem_cons_of_mem _ hy)) hf'
      refine ⟨pp', h3, h4, .inr ?_⟩
      rcases h5 with rfl | ⟨b, hb, rfl⟩
      · exact ⟨c, List.mem_cons_self, rfl⟩
      · exact ⟨b, List.mem_cons_of_mem _ hb, rfl⟩

/-- links to `a` turned to `v` -/
def relink (a v : Nat) (n : RamfsNode) : RamfsNode :=
  { n with
    children := if n.children = a then v else n.children
    next := if n.next = a then v else n.next }

theorem relink_of_ne {a v : Nat} {n : RamfsNode} (h1 : n.children ≠ a) (h2 : n.next ≠ a) :
    relink a v n = n := by
  unfold relink
  rw [if_neg h1, if_neg h2]

variable {a : Nat} {n : RamfsNode}

/-- where only `b` links to `a`, turning its link is all there is to do -/
theorem set_relinked {b v : Nat} {m m' : RamfsNode} (hm : s.node b = some m) (hm' : m' = relink a v m)
    (hrest : ∀ x k, x ≠ b → s.node x = some k → k.children ≠ a ∧ k.next ≠ a) (x : Nat) :
    (s.set b m').node x = (s.node x).map (relink a v) := by
  by_cases hx : x = b
  · subst hx
    rw [Ramfs.set_node_self, hm, hm']
    rfl
  · rw [Ramfs.set_node_ne _ _ hx]
    cases hk : s.node x with
    | none => rfl
    | some k =>
      obtain ⟨h1, h2⟩ := hrest x k hx hk
      rw [Option.map_some, relink_of_ne h1 h2]

/-- Where `pp` is the only link to `a`, writing `v` there turns every link to `a` to `v`. -/
theorem slot_write {pp : Slot} (hread : pp.read s = .ok a)
    (hchild : ∀ x m, s.node x = some m → m.children = a → pp = .children x)
    (hnext : ∀ x m, s.node x = some m → m.next = a → pp = .next x) (v : Nat) :
    ∃ s', pp.write s v = .ok s' ∧ s'.heap = s.heap ∧ s'.bytes = s.bytes ∧ s'.root = s.root ∧
      ∀ x, s'.node x = (s.node x).map (relink a v) := by
  cases pp with
  | children b =>
    obtain ⟨m, hm, hma⟩ := map_eq_ok.mp hread
    have hb := Ramfs.deref_eq_ok.mp hm
    have hnot : m.next ≠ a := fun e => by cases hnext b m hb e
    have hm' : { m with children := v } = relink a v m := by
      unfold relink
      rw [if_pos hma, if_neg hnot]
    refine ⟨_, map_eq_ok.mpr ⟨m, hm, rfl⟩, rfl, rfl, rfl, set_relinked hb hm' fun x k hx hk => ⟨?_, ?_⟩⟩
    · exact fun e => hx (Slot.children.inj (hchild x k hk e)).symm
    · exact fun e => by cases hnext x k hk e
  | next b =>
    obtain ⟨m, hm, hma⟩ := map_eq_ok.mp hread
    have hb := Ramfs.deref_eq_ok.mp hm
    have hnot : m.children ≠ a := fun e => by cases hchild b m hb e
    have hm' : { m with next := v } = relink a v m := by
      unfold relink
      rw [if_pos hma, if_neg hnot]
    refine ⟨_, map_eq_ok.mpr ⟨m, hm, rfl⟩, rfl, rfl, rfl, set_relinked hb hm' fun x k hx hk => ⟨?_, ?_⟩⟩
    · exact fun e => by cases hchild x k hk e
    · exact fun e => hx (Slot.next.inj (hnext x k hk e)).symm

/-- The place the loop of `detach` stops at is the only link to the node, so writing there turns
every link to the node to the sibling after it. -/
theorem detach_slot (h : TreeInv s F) (hb : (s.tree F).addrs.length < loopBound)
    (ha : s.node a = some n) (hr : a ≠ s.root) :
    ∃ pp s1, detachLoop s a loopBound (.children n.parent) = .ok pp ∧ pp.read s = .ok a ∧
      pp.write s n.next = .ok s1 ∧ s1.heap = s.heap ∧ s1.bytes = s.bytes ∧ s1.root = s.root ∧
      s1.node a = some n ∧ ∀ x, x ≠ a → s1.node x = (s.node x).map (relink a n.next) := by
  obtain ⟨p, hp⟩ := h.parent_live ha hr
  obtain ⟨K, hK, hch, hmem⟩ := h.kids hp
  have haK : a ∈ K.tops := (hmem a).mpr ⟨n, ha, rfl⟩
  have hsub : ∀ x ∈ K.tops, x ∈ (s.tree F).addrs := fun x hx => hK.subset x (tops_subset x hx)
  have hlen := (List.subperm_of_subset hch.nodup hsub).length_le
  have ha0 := h.ne_zero ha
  have hread : (Slot.children n.parent).read s = .ok p.children :=
    map_eq_ok.mpr ⟨p, Ramfs.deref_ok hp, rfl⟩
  obtain ⟨pp, h1, h2, h3⟩ := detachLoop_spec (a := a) hread hch haK
    (fun x hx => (h.live x).mpr (hsub x hx)) (by omega : K.tops.length ≤ loopBound)
  -- who links to `a`
  have hchild : ∀ x m, s.node x = some m → m.children = a → x = n.parent := by
    intro x m hx e
    have h4 := h.rep.par_child (h.mem hx) (by rw [Ramfs.links_child hx, e]; exact ha0)
    rw [Ramfs.links_child hx, e, Ramfs.links_par ha] at h4
    exact h4.symm
  have hnext : ∀ x m, s.node x = some m → m.next = a → x ∈ K.tops := by
    intro x m hx e
    have h4 := h.rep.par_next (h.mem hx) (by rw [Ramfs.links_next hx, e]; exact ha0)
    rw [Ramfs.links_next hx, e, Ramfs.links_par ha, Ramfs.links_par hx] at h4
    exact (hmem x).mpr ⟨m, hx, h4.symm⟩
  have hhead : p.children = a → ∀ x m, s.node x = some m → m.next ≠ a := by
    intro e x m hx hxa
    rw [e] at hch
    exact hch.next_ne_head (hnext x m hx hxa) (by rw [Ramfs.links_next hx, hxa])
  have honly : (∀ x m, s.node x = some m → m.children = a → pp = .children x) ∧
      ∀ x m, s.node x = some m → m.next = a → pp = .next x := by
    obtain rfl | ⟨b, hbK, rfl⟩ := h3
    · -- `a` is the first child
      have hpa : p.children = a := Except.ok.inj (hread.symm.trans h2)
      exact ⟨fun x m hx e => by rw [hchild x m hx e], fun x m hx e => absurd e (hhead hpa x m hx)⟩
    · -- `a` comes after `b`
      obtain ⟨m0, hm0, hba⟩ := map_eq_ok.mp h2
      have hm0 := Ramfs.deref_eq_ok.mp hm0
      refine ⟨fun x m hx e => ?_, fun x m hx e => ?_⟩
      · have hxp := hchild x m hx e
        rw [hxp, hp] at hx
        cases hx
        exact absurd hba (hhead e b m0 hm0)
      · rw [hch.next_inj (hnext x m hx e) hbK
          (by rw [Ramfs.links_next hx, Ramfs.links_next hm0, e, hba])]
  obtain ⟨s1, h4, h5, h6, h7, h8⟩ := slot_write h2 honly.1 honly.2 n.next
  have hself : s1.node a = some n := by
    rw [h8, ha, Option.map_some, relink_of_ne (h.children_ne_self ha) (h.next_ne_self ha hr)]
  exact ⟨pp, s1, h1, h2, h4, h5, h6, h7, hself, fun x _ => h8 x⟩

theorem detach_spec (h : TreeInv s F) (hb : (s.tree F).addrs.length < loopBound)
    (ha : s.node a = some n) (hr : a ≠ s.root) :
    ∃ s', detach s a = .ok s' ∧ s'.heap = s.heap ∧ s'.bytes = s.bytes ∧ s'.root = s.root ∧
      s'.node a = some { n with parent := 0, next := 0 } ∧
      ∀ x, x ≠ a → s'.node x = (s.node x).map (relink a n.next) := by
  obtain ⟨pp, s1, h1, h2, h3, h4, h5, h6, h7, h8⟩ := detach_slot h hb ha hr
  refine ⟨s1.set a { n with parent := 0, next := 0 }, ?_, h4, h5, h6, Ramfs.set_node_self _ _ _,
    fun x hx => (Ramfs.set_node_ne _ _ hx).trans (h8 x hx)⟩
  unfold detach
  rw [Ramfs.deref_ok ha]
  show (detachLoop s a loopBound (.children n.parent) >>= _) = _
  rw [h1]
  show (pp.read s >>= _) = _
  rw [h2]
  show (if a ≠ 0 then pp.write s n.next >>= _ else _) = _
  rw [if_pos (h.ne_zero ha), h3]
  show (s1.deref a >>= _) = _
  rw [Ramfs.deref_ok h7]
  rfl

/-- the state after `detach`: the tree without the subtree of `a`, and that subtree beside it -/
structure Detached (s s' : Ramfs) (F K : Forest Nat) (a : Nat) (n : RamfsNode) : Prop where
  heap : s'.heap = s.heap
  bytes : s'.bytes = s.bytes
  root : s'.root = s.root
  self : s'.node a = some { n with parent := 0, next := 0 }
  other : ∀ x, x ≠ a → s'.node x = (s.node x).map (relink a n.next)
  sub : Sub a K (s.tree F)
  rest : Rep s'.links 0 0 s'.root (s'.tree (prune a F))
  below : Rep s'.links 0 a (s'.links.child a) K
  addrs : (s.tree F).addrs.Perm (a :: K.addrs ++ (s'.tree (prune a F)).addrs)

theorem Detached.live_iff {s' : Ramfs} {K : Forest Nat} (h : Detached s s' F K a n) (ha : s.node a = some n)
    (x : Nat) : (∃ m, s'.node x = some m) ↔ ∃ m, s.node x = some m := by
  by_cases hx : x = a
  · subst hx
    exact ⟨fun _ => ⟨n, ha⟩, fun _ => ⟨_, h.self⟩⟩
  · rw [h.other x hx]
    cases s.node x with
    | none => exact ⟨fun ⟨_, hm⟩ => (by cases hm), fun ⟨_, hm⟩ => (by cases hm)⟩
    | some m => exact ⟨fun _ => ⟨m, rfl⟩, fun _ => ⟨_, rfl⟩⟩

theorem TreeInv.detach (h : TreeInv s F) (hb : (s.tree F).addrs.length < loopBound)
    (ha : s.node a = some n) (hr : a ≠ s.root) :
    ∃ s' K, Raptor.detach s a = .ok s' ∧ Detached s s' F K a n := by
  obtain ⟨s', h1, h2, h3, h4, h5, h6⟩ := detach_spec h hb ha hr
  obtain ⟨K, hK⟩ := exists_sub (h.mem ha)
  have ha0 := h.ne_zero ha
  obtain ⟨hKn, haK⟩ := hK.nodup h.nodup
  have hlink : ∀ x, x ≠ a → ∀ m, s.node x = some m → s'.node x = some (relink a n.next m) :=
    fun x hx m hm => by rw [h6 x hx, hm]; rfl
  have hlive : ∀ x ∈ (s.tree F).addrs, ∃ m, s.node x = some m := fun x hx => (h.live x).mpr hx
  have hc : ∀ x ∈ (s.tree F).addrs, x ≠ a →
      s'.links.child x = if s.links.child x = a then s.links.next a else s.links.child x := by
    intro x hx hxa
    obtain ⟨m, hm⟩ := hlive x hx
    rw [Ramfs.links_child (hlink x hxa m hm), Ramfs.links_child hm, Ramfs.links_next ha]
    rfl
  have hn : ∀ x ∈ (s.tree F).addrs, x ≠ a →
      s'.links.next x = if s.links.next x = a then s.links.next a else s.links.next x := by
    intro x hx hxa
    obtain ⟨m, hm⟩ := hlive x hx
    rw [Ramfs.links_next (hlink x hxa m hm), Ramfs.links_next hm, Ramfs.links_next ha]
    rfl
  have hp : ∀ x ∈ (s.tree F).addrs, x ≠ a → s'.links.par x = s.links.par x := by
    intro x hx hxa
    obtain ⟨m, hm⟩ := hlive x hx
    rw [Ramfs.links_par (hlink x hxa m hm), Ramfs.links_par hm]
    rfl
  have htree : prune a (s.tree F) = s'.tree (prune a F) := by
    show (if s.root = a then _ else Forest.cons s.root _ _) = Forest.cons s'.root _ _
    rw [if_neg hr.symm, h4]
    rfl
  have hna : s.links.next a ≠ a := by rw [Ramfs.links_next ha]; exact h.next_ne_self ha hr
  refine ⟨s', K, h1, h2, h3, h4, h5, h6, hK, ?_, ?_, ?_⟩
  · have h7 := h.rep.prune h.nodup hna hc hn hp ha0
    rw [if_neg hr.symm, htree, ← h4] at h7
    exact h7
  · have hsub := hK.subset
    have h7 := (h.rep.sub hK).prune hKn hna (fun x hx => hc x (hsub x hx))
      (fun x hx => hn x (hsub x hx)) (fun x hx => hp x (hsub x hx)) ha0
    rw [prune_of_notMem haK, Ramfs.links_child ha] at h7
    rw [if_neg (h.children_ne_self ha)] at h7
    rw [Ramfs.links_child h5]
    exact h7
  · rw [← htree]
    exact addrs_prune h.nodup hK

end
end Raptor
