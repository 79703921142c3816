import RaptorKernel.Fs.FreeTree
import RaptorKernel.Fs.Walk

/-!
# The invariant of the file system, and what its operations do

`FsInv s held F`: the live nodes are the tree with `F` below the root (`TreeInv`), every node is
sound by itself (`NodeOk`), and the heap blocks in use are exactly the nodes, the data buffers and
the blocks `held` that belong to somebody else.

For each operation one theorem says that it returns, keeps the invariant, leaves the state alone
when it reports failure, and what it did otherwise: `Created` and `Written` here, `Deleted` and
`Moved` in `Fs.RamfsRelink`.  These speak about nodes without their list links
(`RamfsNode.plain`).
-/

namespace Raptor
open Forest Mem

structure NodeOk (n : RamfsNode) : Prop where
  leaf : n.type = .file → n.children = 0
  room : n.size ≤ n.capacity
  buffer : n.data = 0 ↔ n.capacity = 0
  noBuffer : n.type = .dir → n.capacity = 0

structure FsInv (s : Ramfs) (held : List Nat) (F : Forest Nat) : Prop where
  tree : TreeInv s F
  nodes : ∀ a n, s.node a = some n → NodeOk n
  owned : s.heap.ptrs.Perm (s.blocks (s.tree F).addrs held)
  nodeRoom : ∀ a n, s.node a = some n → s.heap.Room a sizeofRamfsNode
  dataRoom : ∀ a n, s.node a = some n → n.capacity ≠ 0 → s.heap.Room n.data n.capacity

/-- `m` is sound, and `s` has a node at `x` with its buffer -/
def KeptIn (s : Ramfs) (x : Nat) (m : RamfsNode) : Prop :=
  ∃ m0, s.node x = some m0 ∧ m.data = m0.data ∧ m.capacity = m0.capacity ∧ NodeOk m

/-- a node without its places in lists -/
def RamfsNode.plain (n : RamfsNode) : RamfsNode := { n with children := 0, next := 0 }

/-- the bytes of a file -/
def Ramfs.contents (s : Ramfs) (a : Nat) : List UInt8 :=
  match s.node a with
  | some n => slice s.bytes n.data n.size
  | none => []

theorem Ramfs.contents_eq {s : Ramfs} {a : Nat} {n : RamfsNode} (h : s.node a = some n) :
    s.contents a = slice s.bytes n.data n.size := by
  unfold Ramfs.contents
  rw [h]

/-! ## general facts -/

section
variable {s s' : Ramfs} {held A : List Nat} {F : Forest Nat} {a : Nat} {n : RamfsNode}

theorem Ramfs.contents_congr (hb : s'.bytes = s.bytes)
    (hn : (s'.node a).map (fun m => (m.data, m.size)) = (s.node a).map fun m => (m.data, m.size)) :
    s'.contents a = s.contents a := by
  unfold Ramfs.contents
  rw [hb]
  cases hx : s.node a with
  | none =>
    rw [hx] at hn
    rw [Option.map_eq_none_iff.mp hn]
  | some m =>
    rw [hx] at hn
    obtain ⟨m', hm', e⟩ := Option.map_eq_some_iff.mp hn
    obtain ⟨e1, e2⟩ := Prod.mk.inj e
    rw [hm']
    show slice s.bytes m'.data m'.size = slice s.bytes m.data m.size
    rw [e1, e2]

/-- what a node holds is not among the links of lists -/
theorem Ramfs.contents_plain (hb : s'.bytes = s.bytes)
    (hn : (s'.node a).map RamfsNode.plain = (s.node a).map RamfsNode.plain) :
    s'.contents a = s.contents a := by
  refine Ramfs.contents_congr hb ?_
  have h1 := congrArg (Option.map fun m : RamfsNode => (m.data, m.size)) hn
  rw [Option.map_map, Option.map_map] at h1
  exact h1

theorem Ramfs.blocks_congr (h : ∀ x ∈ A, s'.dataPtr x = s.dataPtr x) :
    s'.blocks A held = s.blocks A held := by
  unfold Ramfs.blocks
  rw [List.filterMap_congr h]

theorem Ramfs.blocks_perm {B : List Nat} (h : A.Perm B) :
    (s.blocks A held).Perm (s.blocks B held) :=
  (h.append (h.filterMap _)).append_right held

theorem Ramfs.dataPtr_eq (h : s.node a = some n) :
    s.dataPtr a = if n.capacity = 0 then none else some n.data := by
  unfold Ramfs.dataPtr
  rw [h]
  rfl

/-- the buffer of one node set apart -/
theorem Ramfs.blocks_split {R : List Nat} (h : A.Perm (a :: R)) :
    (s.blocks A held).Perm ((s.dataPtr a).toList ++ (A ++ R.filterMap s.dataPtr ++ held)) := by
  have h1 : (A.filterMap s.dataPtr).Perm ((s.dataPtr a).toList ++ R.filterMap s.dataPtr) := by
    refine (h.filterMap s.dataPtr).trans ?_
    cases hd : s.dataPtr a with
    | none => rw [List.filterMap_cons_none hd]; rfl
    | some p => rw [List.filterMap_cons_some hd]; rfl
  unfold Ramfs.blocks
  have h2 : (A ++ A.filterMap s.dataPtr).Perm
      ((s.dataPtr a).toList ++ (A ++ R.filterMap s.dataPtr)) := by
    refine (h1.append_left A).trans ?_
    rw [← List.append_assoc, ← List.append_assoc]
    exact List.perm_append_comm.append_right _
  refine (h2.append_right held).trans ?_
  rw [List.append_assoc]

/-- the same nodes with the same buffers, linked in another way -/
theorem FsInv.relinked {F' : Forest Nat} (h : FsInv s held F) (ht : TreeInv s' F')
    (hperm : (s'.tree F').addrs.Perm (s.tree F).addrs) (hheap : s'.heap = s.heap)
    (hold : ∀ x m, s'.node x = some m → KeptIn s x m) : FsInv s' held F' := by
  refine ⟨ht, ?_, ?_, ?_, ?_⟩
  · intro x m hx
    obtain ⟨_, _, _, _, hok⟩ := hold x m hx
    exact hok
  · have hdp : ∀ x ∈ (s'.tree F').addrs, s'.dataPtr x = s.dataPtr x := by
      intro x hx
      obtain ⟨m, hm⟩ := (ht.live x).mpr hx
      obtain ⟨m0, hm0, e1, e2, _⟩ := hold x m hm
      rw [Ramfs.dataPtr_eq hm, Ramfs.dataPtr_eq hm0, e1, e2]
    rw [hheap, Ramfs.blocks_congr hdp]
    exact h.owned.trans (Ramfs.blocks_perm hperm.symm)
  · intro x m hx
    obtain ⟨m0, hm0, _⟩ := hold x m hx
    rw [hheap]
    exact h.nodeRoom x m0 hm0
  · intro x m hx hc
    obtain ⟨m0, hm0, e1, e2, _⟩ := hold x m hx
    rw [hheap, e1, e2]
    exact h.dataRoom x m0 hm0 (by rw [← e2]; exact hc)

/-- one node more, without a buffer, in a block of its own -/
theorem FsInv.extended {F' : Forest Nat} (h : FsInv s held F) (ht : TreeInv s' F') {p : Nat}
    (hfresh : p ∉ (s.tree F).addrs) (hperm : (s'.tree F').addrs.Perm (p :: (s.tree F).addrs))
    (hptrs : s'.heap.ptrs.Perm (p :: s.heap.ptrs)) (hroom : s'.heap.Room p sizeofRamfsNode)
    (hkeep : ∀ q m, s.heap.Room q m → s'.heap.Room q m)
    (hnew : ∀ m, s'.node p = some m → m.capacity = 0 ∧ NodeOk m)
    (hold : ∀ x m, x ≠ p → s'.node x = some m → KeptIn s x m) : FsInv s' held F' := by
  have hlive : ∀ x ∈ p :: (s.tree F).addrs, ∃ m, s'.node x = some m :=
    fun x hx => (ht.live x).mpr (hperm.mem_iff.mpr hx)
  refine ⟨ht, ?_, ?_, ?_, ?_⟩
  · intro x m hx
    by_cases hxp : x = p
    · subst hxp
      exact (hnew m hx).2
    · obtain ⟨_, _, _, _, hok⟩ := hold x m hxp hx
      exact hok
  · have hdp : ∀ x ∈ (s.tree F).addrs, s'.dataPtr x = s.dataPtr x := by
      intro x hx
      obtain ⟨m, hm⟩ := hlive x (List.mem_cons_of_mem _ hx)
      obtain ⟨m0, hm0, e1, e2, _⟩ := hold x m (fun e => hfresh (e ▸ hx)) hm
      rw [Ramfs.dataPtr_eq hm, Ramfs.dataPtr_eq hm0, e1, e2]
    obtain ⟨m, hm⟩ := hlive p List.mem_cons_self
    have hnone : s'.dataPtr p = none := by
      rw [Ramfs.dataPtr_eq hm]
      exact if_pos (hnew m hm).1
    refine (hptrs.trans (h.owned.cons p)).trans (List.Perm.trans ?_ (Ramfs.blocks_perm hperm).symm)
    unfold Ramfs.blocks
    show (p :: ((s.tree F).addrs ++ _ ++ held)).Perm
      ((p :: (s.tree F).addrs) ++ (p :: (s.tree F).addrs).filterMap s'.dataPtr ++ held)
    rw [List.filterMap_cons_none hnone, List.filterMap_congr hdp]
    exact List.Perm.refl _
  · intro x m hx
    by_cases hxp : x = p
    · subst hxp
      exact hroom
    · obtain ⟨m0, hm0, _⟩ := hold x m hxp hx
      exact hkeep _ _ (h.nodeRoom x m0 hm0)
  · intro x m hx hc
    by_cases hxp : x = p
    · subst hxp
      exact absurd (hnew m hx).1 hc
    · obtain ⟨m0, hm0, e1, e2, _⟩ := hold x m hxp hx
      rw [e1, e2]
      exact hkeep _ _ (h.dataRoom x m0 hm0 (by rw [← e2]; exact hc))

theorem FsInv.mem_ptrs (h : FsInv s held F) (ha : s.node a = some n) : a ∈ s.heap.ptrs :=
  h.owned.mem_iff.mpr (List.mem_append_left _ (List.mem_append_left _ (h.tree.mem ha)))

/-- the nodes fit on the heap, so walks over them end before the bound on loops -/
theorem FsInv.bound (h : FsInv s held F) : 2 * (s.tree F).addrs.length + 2 < loopBound := by
  have h1 := Heap.ptrs_length_le (H := s.heap)
  have h2 := h.owned.length_eq
  unfold Ramfs.blocks at h2
  rw [List.length_append, List.length_append] at h2
  have h20 : sizeofBlock = 20 := rfl
  have hs : heapSize = 4194304 := rfl
  have hl : loopBound = 4194304 := rfl
  rw [h20] at h1
  omega

theorem FsInv.bound' (h : FsInv s held F) : (s.tree F).addrs.length < loopBound := by
  have := h.bound
  omega

theorem FsInv.capacity_le (h : FsInv s held F) (ha : s.node a = some n) : n.capacity ≤ heapSize := by
  by_cases hc : n.capacity = 0
  · omega
  · exact (h.dataRoom a n ha hc).le

/-- a buffer is not a node, and no other node has it -/
theorem FsInv.data_owner (h : FsInv s held F) (ha : s.node a = some n) (hc : n.capacity ≠ 0) :
    s.node n.data = none ∧ n.data ∉ held ∧
      ∀ b m, s.node b = some m → m.capacity ≠ 0 → m.data = n.data → b = a := by
  have hR := List.perm_cons_erase (h.tree.mem ha)
  have hd := Ramfs.dataPtr_eq ha
  rw [if_neg hc] at hd
  have h1 := h.owned.trans (Ramfs.blocks_split hR)
  rw [hd] at h1
  generalize (s.tree F).addrs.erase a = R at *
  have h2 : (n.data :: ((s.tree F).addrs ++ R.filterMap s.dataPtr ++ held)).Nodup :=
    h1.nodup_iff.mp Heap.ptrs_nodup
  obtain ⟨h3, _⟩ := List.nodup_cons.mp h2
  simp only [List.mem_append, not_or] at h3
  refine ⟨?_, h3.2, fun b m hb hm e => ?_⟩
  · cases h4 : s.node n.data with
    | none => rfl
    | some m => exact absurd (h.tree.mem h4) h3.1.1
  · by_contra hne
    have hbR : b ∈ R :=
      (List.mem_cons.mp (hR.mem_iff.mp (h.tree.mem hb))).resolve_left hne
    refine h3.1.2 (List.mem_filterMap.mpr ⟨b, hbR, ?_⟩)
    rw [Ramfs.dataPtr_eq hb, if_neg hm, e]

/-- bytes that change in the buffer of one file change no other file -/
theorem Ramfs.contents_other (h : FsInv s' held F) {file : Nat} {f : RamfsNode}
    (hf : s'.node file = some f) (hsame : s'.node a = s.node a)
    (hne : a ≠ file) (hb : ∀ y, y < f.data ∨ f.data + f.capacity ≤ y → s'.bytes y = s.bytes y) :
    s'.contents a = s.contents a := by
  cases hn : s.node a with
  | none =>
    unfold Ramfs.contents
    rw [hsame, hn]
  | some n =>
    have hn' := hsame.trans hn
    rw [Ramfs.contents_eq hn', Ramfs.contents_eq hn]
    have hroom := (h.nodes a n hn').room
    refine slice_congr fun y hy1 hy2 => hb y ?_
    by_cases hcf : f.capacity = 0
    · omega
    have hcn : n.capacity ≠ 0 := by omega
    have hdata : n.data ≠ f.data := fun e => hne ((h.data_owner hf hcf).2.2 a n hn' hcn e)
    have hapart := (h.dataRoom a n hn' hcn).apart (h.dataRoom file f hf hcf) hdata
    omega

/-- the tree depends on the links and on which nodes there are -/
theorem TreeInv.congr (h : TreeInv s F) (hr : s'.root = s.root)
    (hs : ∀ x, (s'.node x).map (fun n => (n.children, n.next, n.parent, n.type)) =
      (s.node x).map fun n => (n.children, n.next, n.parent, n.type)) : TreeInv s' F := by
  have hlive : ∀ x, (∃ n, s'.node x = some n) ↔ ∃ n, s.node x = some n := by
    intro x
    have h1 := hs x
    cases hx : s.node x <;> cases hx' : s'.node x <;> simp [hx, hx'] at h1 ⊢
  have hfield : ∀ {β : Type} (f : Nat × Nat × Nat × RamfsType → β) x,
      (s'.node x).map (fun n => f (n.children, n.next, n.parent, n.type)) =
      (s.node x).map fun n => f (n.children, n.next, n.parent, n.type) := by
    intro β f x
    have h1 := congrArg (Option.map f) (hs x)
    rw [Option.map_map, Option.map_map] at h1
    exact h1
  have htree := Ramfs.tree_congr hr F
  refine ⟨?_, ?_, fun x => ?_, ?_⟩
  · rw [htree, hr]
    exact h.rep.congr (fun x _ => congrArg (·.getD 0) (hfield (·.1) x))
      (fun x _ => congrArg (·.getD 0) (hfield (·.2.1) x))
      fun x _ => congrArg (·.getD 0) (hfield (·.2.2.1) x)
  · rw [htree]
    exact h.nodup
  · rw [htree, ← h.live]
    exact hlive x
  · obtain ⟨n, hn, ht⟩ := h.rootDir
    have h1 := hfield (·.2.2.2) s.root
    rw [hn] at h1
    rw [hr]
    obtain ⟨m, hm⟩ := (hlive s.root).mpr ⟨n, hn⟩
    rw [hm] at h1
    exact ⟨m, hm, (Option.some.inj h1).trans ht⟩

end

section
variable {s s1 s2 : Ramfs} {held : List Nat} {F : Forest Nat}

theorem FsInv.kept (h : FsInv s held F) {x : Nat} {m : RamfsNode} (hx : s.node x = some m) : KeptIn s x m :=
  ⟨m, hx, rfl, rfl, h.nodes x m hx⟩

/-- attaching a node to a directory changes no buffer -/
theorem Attached.kept {parent child : Nat} {p c : RamfsNode} (hat : Attached s1 s2 parent child p c)
    (hdir : p.type = .dir) (hp : KeptIn s parent p)
    (hold : ∀ x m, x ≠ child → x ≠ parent → s1.node x = some m → KeptIn s x m) {x : Nat} {m : RamfsNode}
    (hx : x ≠ child) (hm : s2.node x = some m) : KeptIn s x m := by
  by_cases h2 : x = parent
  · subst h2
    rw [hat.first] at hm
    cases hm
    obtain ⟨m0, h0, h1, h2, hok⟩ := hp
    exact ⟨m0, h0, h1, h2, fun hf => absurd (hdir.symm.trans hf) (by simp), hok.room, hok.buffer,
      hok.noBuffer⟩
  · rw [hat.other x hx h2] at hm
    exact hold x m hx h2 hm

end

/-! ## ramfs_create -/

/-- a new empty node `r` called `name` in the directory `parent` -/
structure Created (s s' : Ramfs) (r parent : Nat) (name : List UInt8) (t : RamfsType) : Prop where
  fresh : s.node r = none
  first : ∃ p, s.node parent = some p ∧ s'.node parent = some { p with children := r } ∧
    s'.node r = some ⟨name, t, 0, 0, 0, parent, 0, p.children⟩
  other : ∀ x, x ≠ r → x ≠ parent → s'.node x = s.node x
  root : s'.root = s.root
  bytes : s'.bytes = s.bytes

section
variable {s s' : Ramfs} {r parent : Nat} {name : List UInt8} {t : RamfsType}

theorem Created.self_plain (h : Created s s' r parent name t) :
    (s'.node r).map RamfsNode.plain = some ⟨name, t, 0, 0, 0, parent, 0, 0⟩ := by
  obtain ⟨p, _, _, e⟩ := h.first
  rw [e]
  rfl

theorem Created.other_plain (h : Created s s' r parent name t) {x : Nat} (hx : x ≠ r) :
    (s'.node x).map RamfsNode.plain = (s.node x).map RamfsNode.plain := by
  by_cases hp : x = parent
  · subst hp
    obtain ⟨p, e1, e2, _⟩ := h.first
    rw [e1, e2]
    rfl
  · rw [h.other x hx hp]

end

section
variable {s : Ramfs} {held : List Nat} {F : Forest Nat}

theorem Ramfs.kmalloc_cases (deny : Bool) (s : Ramfs) (n : Nat) :
    s.kmalloc deny n = (0, s) ∨
    ∃ p H', s.heap.kmalloc n = (p, H') ∧ p ≠ 0 ∧ s.kmalloc deny n = (p, { s with heap := H' }) := by
  unfold Ramfs.kmalloc
  cases deny with
  | true => exact .inl rfl
  | false =>
    rcases hk : s.heap.kmalloc n with ⟨p, H'⟩
    by_cases hp : p = 0
    · subst hp
      have h1 := s.heap.kmalloc_null hk
      subst h1
      exact .inl rfl
    · exact .inr ⟨p, H', rfl, hp, rfl⟩

theorem nodeNew_cases (deny : Bool) (s : Ramfs) (name : List UInt8) (t : RamfsType) :
    nodeNew deny s name t = (0, s) ∨
    ∃ p H', s.heap.kmalloc sizeofRamfsNode = (p, H') ∧ p ≠ 0 ∧ nodeNew deny s name t =
      (p, ({ s with heap := H' } : Ramfs).set p ⟨clip ramfsNameMax name, t, 0, 0, 0, 0, 0, 0⟩) := by
  unfold nodeNew
  rcases Ramfs.kmalloc_cases deny s sizeofRamfsNode with e | ⟨p, H', hk, hp, e⟩
  · rw [e]
    exact .inl (if_pos rfl)
  · rw [e]
    exact .inr ⟨p, H', hk, hp, if_neg hp⟩

/-- a node that was allocated and attached -/
theorem create_attached (h : FsInv s held F) {p parent : Nat} {H' : Heap} {d : RamfsNode}
    {name : List UInt8} {t : RamfsType} (hk : s.heap.kmalloc sizeofRamfsNode = (p, H'))
    (hp : p ≠ 0) (hd : s.node parent = some d) (hdir : d.type = .dir) :
    ∃ s' F', attach (({ s with heap := H' } : Ramfs).set p ⟨name, t, 0, 0, 0, 0, 0, 0⟩) parent p =
      .ok s' ∧ FsInv s' held F' ∧ Created s s' p parent name t := by
  obtain ⟨hperm, hroom, hkeep⟩ := Heap.kmalloc_perm hk hp
  have hpf : p ∉ s.heap.ptrs :=
    (List.nodup_cons.mp (hperm.nodup_iff.mp Heap.ptrs_nodup)).1
  have hfresh : s.node p = none := by
    cases h1 : s.node p with
    | none => rfl
    | some n => exact absurd (h.mem_ptrs h1) hpf
  have hpt : p ∉ (s.tree F).addrs := by
    intro h1
    obtain ⟨n, hn⟩ := (h.tree.live p).mpr h1
    rw [hfresh] at hn
    cases hn
  have hne : p ≠ parent := by
    intro e
    rw [← e, hfresh] at hd
    cases hd
  -- the state with the node allocated
  generalize hs1 : ({ s with heap := H' } : Ramfs).set p ⟨name, t, 0, 0, 0, 0, 0, 0⟩ = s1
  have hnode1 : ∀ x, x ≠ p → s1.node x = s.node x := by
    intro x hx
    rw [← hs1]
    exact Ramfs.set_node_ne _ _ hx
  have hself1 : s1.node p = some ⟨name, t, 0, 0, 0, 0, 0, 0⟩ := by
    rw [← hs1]
    exact Ramfs.set_node_self _ _ _
  have hroot1 : s1.root = s.root := by rw [← hs1]; rfl
  have htree1 := Ramfs.tree_congr hroot1 F
  have hheap1 : s1.heap = H' := by rw [← hs1]; rfl
  have hne' : ∀ x ∈ (s.tree F).addrs, x ≠ p := fun x hx e => hpt (e ▸ hx)
  have hd1 : s1.node parent = some d := (hnode1 parent hne.symm).trans hd
  obtain ⟨r, hr, hrt⟩ := h.tree.rootDir
  have hrp : s.root ≠ p := hne' _ (TreeInv.root_mem s F)
  obtain ⟨s2, hattach, hat⟩ := attach_attached hd1 hself1 hne
  obtain ⟨F', ht', hperm'⟩ := TreeInv.attach (s := s1) (F := F) (K := .nil)
    (by rw [htree1, hroot1]; exact Ramfs.rep_congr h.tree.rep fun x hx => hnode1 x (hne' x hx))
    (by rw [htree1]; exact h.tree.nodup)
    (fun x => by
      rw [htree1]
      by_cases hx : x = p
      · subst hx
        simp [hself1]
      · show _ ↔ x ∈ p :: (s.tree F).addrs
        rw [hnode1 x hx, h.tree.live, List.mem_cons]
        simp [hx])
    ⟨r, by rw [hroot1, hnode1 _ hrp]; exact hr, hrt⟩
    (by rw [Ramfs.links_child hself1]; rfl)
    (by rw [htree1]; exact List.nodup_cons.mpr ⟨hpt, h.tree.nodup⟩)
    (by rw [htree1]; exact h.tree.mem hd) hp hd1 hself1 hat
  have hheap2 : s2.heap = H' := hat.heap.trans hheap1
  have hself2 : s2.node p = some ⟨name, t, 0, 0, 0, parent, 0, d.children⟩ := hat.self
  have hpar2 := hat.first
  have hother2 : ∀ x, x ≠ p → x ≠ parent → s2.node x = s.node x := by
    intro x h1 h2
    rw [hat.other x h1 h2, hnode1 x h1]
  have hnew : ∀ m, s2.node p = some m → m.capacity = 0 ∧ NodeOk m := by
    intro m hm
    rw [hself2] at hm
    cases hm
    exact ⟨rfl, fun _ => rfl, le_refl _, Iff.rfl, fun _ => rfl⟩
  have hold : ∀ x m, x ≠ p → s2.node x = some m → KeptIn s x m := by
    intro x m h1 hx
    refine hat.kept hdir (h.kept hd) (fun y k hy _ hk => ?_) h1 hx
    rw [hnode1 y hy] at hk
    exact h.kept hk
  rw [htree1] at hperm'
  rw [← hheap2] at hperm hroom hkeep
  refine ⟨s2, F', hattach, h.extended ht' hpt hperm' hperm
    (hroom.mono (le_alignUp_eight (by decide))) hkeep hnew hold,
    ⟨hfresh, ⟨d, hd, hpar2, hself2⟩, hother2, hat.root.trans hroot1, ?_⟩⟩
  rw [hat.bytes, ← hs1]
  rfl

/-- `ramfs_create` once the path is walked -/
theorem ramfsCreate_eq {cwd : Nat} (h0 : cwd ≠ 0) {path : List UInt8} {w : WalkOut}
    (hw : walk s cwd path true = .ok w) (deny : Bool) (t : RamfsType) :
    ramfsCreate deny s cwd path t =
      if w.node ≠ 0 ∨ w.parent = 0 ∨ w.name = [] then .ok (0, s)
      else s.deref w.parent >>= fun p =>
        if p.type ≠ .dir then .ok (0, s)
        else if (nodeNew deny s w.name t).1 ≠ 0 then
          (attach (nodeNew deny s w.name t).2 w.parent (nodeNew deny s w.name t).1).map fun s' =>
            ((nodeNew deny s w.name t).1, s')
        else .ok (nodeNew deny s w.name t) := by
  unfold ramfsCreate
  rw [if_pos h0, hw]
  rfl

/-- components are not empty, so the name under a parent is not -/
theorem WalkOk.name_ne_nil {path : List UInt8} {w : WalkOut} (hok : WalkOk s (components path) w)
    (hp : w.parent ≠ 0) : w.name ≠ [] := by
  obtain ⟨_, _, _, _, hlast, _⟩ := hok.parent hp
  exact (fields_mem (List.mem_of_getLast? hlast)).1

/-- `ramfs_create` on a path whose parent was found and whose name is missing -/
theorem ramfsCreate_missing (h : TreeInv s F) {cwd : Nat} {c : RamfsNode} (hc : s.node cwd = some c)
    {path : List UInt8} {w : WalkOut} (hw : walk s cwd path true = .ok w)
    (hok : WalkOk s (components path) w) (hnode : w.node = 0) (hpar : w.parent ≠ 0) (deny : Bool)
    (t : RamfsType) :
    ramfsCreate deny s cwd path t =
      if (nodeNew deny s w.name t).1 ≠ 0 then
        (attach (nodeNew deny s w.name t).2 w.parent (nodeNew deny s w.name t).1).map fun s' =>
          ((nodeNew deny s w.name t).1, s')
      else .ok (nodeNew deny s w.name t) := by
  obtain ⟨p, hp, hdir, _⟩ := hok.parent hpar
  have hgo : ¬ (w.node ≠ 0 ∨ w.parent = 0 ∨ w.name = []) := by
    rw [not_or, not_or, not_not]
    exact ⟨hnode, hpar, hok.name_ne_nil hpar⟩
  rw [ramfsCreate_eq (h.ne_zero hc) hw, if_neg hgo, Ramfs.deref_ok hp]
  exact if_neg (not_not.mpr hdir)

/-- `ramfs_create` returns; a node it creates is a new child of the directory `walk` reported -/
theorem ramfsCreate_spec (h : FsInv s held F) {cwd : Nat} {c : RamfsNode} (hc : s.node cwd = some c)
    (deny : Bool) (path : List UInt8) (t : RamfsType) :
    ∃ r s' F', ramfsCreate deny s cwd path t = .ok (r, s') ∧ FsInv s' held F' ∧
      (r = 0 → s' = s) ∧ (r ≠ 0 → ∃ w, walk s cwd path true = .ok w ∧ WalkOk s (components path) w ∧
        w.node = 0 ∧ w.parent ≠ 0 ∧ Created s s' r w.parent w.name t) := by
  obtain ⟨w, hw, hok⟩ := walk_spec h.tree h.bound' true hc path
  by_cases hg : w.node ≠ 0 ∨ w.parent = 0
  · refine ⟨0, s, F, ?_, h, fun _ => rfl, fun h0 => absurd rfl h0⟩
    rw [ramfsCreate_eq (h.tree.ne_zero hc) hw, if_pos]
    rw [← or_assoc]
    exact .inl hg
  rw [not_or, not_not] at hg
  obtain ⟨hnode, hpar⟩ := hg
  obtain ⟨p, hp, hdir, _, _, hlen, _⟩ := hok.parent hpar
  rw [ramfsCreate_missing h.tree hc hw hok hnode hpar]
  rcases nodeNew_cases deny s w.name t with hn | ⟨q, H', hk, hq, hn⟩
  · rw [hn]
    exact ⟨0, s, F, rfl, h, fun _ => rfl, fun h0 => absurd rfl h0⟩
  · have hclip : clip ramfsNameMax w.name = w.name := List.take_of_length_le (by omega)
    rw [hclip] at hn
    obtain ⟨s', F', h1, h2, h3⟩ := create_attached h hk hq hp hdir
    refine ⟨q, s', F', ?_, h2, fun h0 => absurd h0 hq, fun _ => ⟨w, hw, hok, hnode, hpar, h3⟩⟩
    rw [hn, if_pos hq, h1]
    rfl

end

/-! ## ramfs_write -/

/-- the contents of `file` replaced or extended by `data`, its buffer possibly a new one -/
structure Written (s s' : Ramfs) (file : Nat) (data : List UInt8) (append : Bool) : Prop where
  self : ∃ f d c, s.node file = some f ∧ s'.node file =
    some { f with data := d, size := (if append then f.size else 0) + data.length, capacity := c }
  other : ∀ x, x ≠ file → s'.node x = s.node x
  root : s'.root = s.root
  contents : s'.contents file = (if append then s.contents file else []) ++ data

/-- doubling reaches what is needed, without wrapping around -/
theorem growLoop_spec {needed : Nat} (hn : needed ≤ 2^24) {fuel cap : Nat} (h0 : 0 < cap)
    (hc : cap ≤ 2^25) (hf : needed ≤ cap * 2^fuel) :
    ∃ k, growLoop needed (fuel + 1) cap = .ok (cap * 2^k) ∧ needed ≤ cap * 2^k ∧
      cap * 2^k ≤ 2^25 := by
  induction fuel generalizing cap with
  | zero =>
    refine ⟨0, ?_, by omega, by omega⟩
    rw [pow_zero, Nat.mul_one]
    exact if_neg (by omega)
  | succ fuel ih =>
    by_cases hlt : cap < needed
    · have hmod : cap * 2 % 2^32 = cap * 2 := Nat.mod_eq_of_lt (by omega)
      have hpow : ∀ j, cap * 2 * 2^j = cap * 2^(j + 1) := fun j => by ring
      obtain ⟨k, h1, h2, h3⟩ := ih (show 0 < cap * 2 by omega) (by omega)
        (by rw [hpow]; exact hf)
      rw [hpow] at h1 h2 h3
      refine ⟨k + 1, ?_, h2, h3⟩
      show (if cap < needed then growLoop needed (fuel + 1) (cap * 2 % 2^32) else _) = _
      rw [if_pos hlt, hmod]
      exact h1
    · refine ⟨0, ?_, by omega, by omega⟩
      rw [pow_zero, Nat.mul_one]
      exact if_neg hlt

/-- the capacity a file starts to grow from -/
def startCap (f : RamfsNode) : Nat := if f.capacity ≠ 0 then f.capacity else 64

/-- what a write does besides: the capacity doubles some number of times, and bytes change only in
the buffer the file has afterwards -/
structure Buffered (s s' : Ramfs) (file : Nat) : Prop where
  capacity : ∃ f f', s.node file = some f ∧ s'.node file = some f' ∧
    (f'.capacity = f.capacity ∨ ∃ k, f'.capacity = startCap f * 2^k)
  bytes : ∀ f', s'.node file = some f' → ∀ y, y < f'.data ∨ f'.data + f'.capacity ≤ y →
    s'.bytes y = s.bytes y

section
variable {s : Ramfs} {held : List Nat} {F : Forest Nat} {file : Nat} {f : RamfsNode}

/-- a file with new contents: the tree is the same -/
theorem write_tree (h : TreeInv s F) (hf : s.node file = some f) {s' : Ramfs} {d z c : Nat}
    (hroot : s'.root = s.root) (hself : s'.node file = some { f with data := d, size := z, capacity := c })
    (hother : ∀ x, x ≠ file → s'.node x = s.node x) : TreeInv s' F := by
  refine h.congr hroot fun x => ?_
  by_cases hx : x = file
  · subst hx
    rw [hself, hf]
    rfl
  · rw [hother x hx]

/-- the buffer of a file given back -/
theorem kfree_data (hb : f.data = 0 ↔ f.capacity = 0) (hf : s.node file = some f)
    (hz : s.node 0 = none) (hd : f.capacity ≠ 0 → s.node f.data = none) {E : List Nat}
    (hp : s.heap.ptrs.Perm ((s.dataPtr file).toList ++ E)) :
    ∃ s', s.kfree f.data = .ok s' ∧ s'.heap.ptrs.Perm E ∧ s'.node = s.node ∧ s'.root = s.root ∧
      s'.bytes = s.bytes ∧ ∀ q m, q ∈ E → s.heap.Room q m → s'.heap.Room q m := by
  rw [Ramfs.dataPtr_eq hf] at hp
  by_cases hc : f.capacity = 0
  · rw [if_pos hc] at hp
    rw [hb.mpr hc]
    exact ⟨s, s.kfree_zero hz, hp, rfl, rfl, rfl, fun _ _ _ hr => hr⟩
  · rw [if_neg hc] at hp
    obtain ⟨s', h1, h2, h3, h4, h5, h6⟩ := Ramfs.kfree_ok hp
    refine ⟨s', h1, h2, ?_, h4, h5, h6⟩
    rw [h3, ← hd hc]
    exact Function.update_eq_self _ _

/-- what was kept, and the new data behind it -/
theorem contents_written (hf : s.node file = some f) {data : List UInt8} {append : Bool} {s' : Ramfs}
    {d c : Nat} (hself : s'.node file =
      some { f with data := d, size := (if append then f.size else 0) + data.length, capacity := c })
    {m : Mem} (hbytes : s'.bytes = blit m (d + if append then f.size else 0) data)
    (hkept : slice m d (if append then f.size else 0) =
      slice s.bytes f.data (if append then f.size else 0)) :
    s'.contents file = (if append then s.contents file else []) ++ data := by
  rw [Ramfs.contents_eq hself]
  show slice s'.bytes d ((if append then f.size else 0) + data.length) = _
  rw [slice_append, hbytes, slice_blit_self, slice_blit_ne (.inl (le_refl _)), hkept]
  congr 1
  cases append with
  | true => exact (Ramfs.contents_eq hf).symm
  | false => rfl

/-- The buffer of a file exchanged for a larger one: the blocks in use are those of before, but for
the buffers, and none of them lost its room. -/
theorem write_newBuffer (h : FsInv s held F) (hf : s.node file = some f) (hty : f.type = .file)
    {s' : Ramfs} {buf newcap size : Nat} {R : List Nat} (hR : (s.tree F).addrs.Perm (file :: R))
    (hroot : s'.root = s.root)
    (hself : s'.node file = some { f with data := buf, capacity := newcap, size := size })
    (hother : ∀ x, x ≠ file → s'.node x = s.node x) (hbuf : buf ≠ 0) (hcap0 : newcap ≠ 0)
    (hfit : size ≤ newcap)
    (hptrs : s'.heap.ptrs.Perm (buf :: ((s.tree F).addrs ++ R.filterMap s.dataPtr ++ held)))
    (hroom : s'.heap.Room buf newcap)
    (hkeep : ∀ x, x ∈ (s.tree F).addrs ++ R.filterMap s.dataPtr ++ held → ∀ m, s.heap.Room x m →
      s'.heap.Room x m) : FsInv s' held F := by
  have hok := h.nodes file f hf
  have hnodup : file ∉ R := (List.nodup_cons.mp (hR.nodup_iff.mp h.tree.nodup)).1
  refine ⟨write_tree h.tree hf hroot hself hother, ?_, ?_, ?_, ?_⟩
  · intro x m hx
    by_cases hxf : x = file
    · subst hxf
      rw [hself] at hx
      cases hx
      exact ⟨hok.leaf, hfit, iff_of_false hbuf hcap0, fun hd => absurd (hty.symm.trans hd) (by simp)⟩
    · rw [hother x hxf] at hx
      exact h.nodes x m hx
  · have htree : s'.tree F = s.tree F := by
      exact Ramfs.tree_congr hroot F
    have hdpf : s'.dataPtr file = some buf := by
      rw [Ramfs.dataPtr_eq hself]
      exact if_neg hcap0
    have hdpR : R.filterMap s'.dataPtr = R.filterMap s.dataPtr := by
      apply List.filterMap_congr
      intro x hx
      exact Ramfs.dataPtr_congr (hother x fun e => hnodup (e ▸ hx))
    have hsplit : (s'.blocks (s.tree F).addrs held).Perm _ := Ramfs.blocks_split hR
    rw [hdpf, hdpR] at hsplit
    rw [htree]
    exact hptrs.trans hsplit.symm
  · intro x m hx
    have hlive : ∃ n, s.node x = some n := by
      by_cases hxf : x = file
      · exact ⟨f, hxf ▸ hf⟩
      · exact ⟨m, by rw [← hother x hxf]; exact hx⟩
    obtain ⟨n, hn⟩ := hlive
    exact hkeep x (List.mem_append_left _ (List.mem_append_left _ (h.tree.mem hn))) _
      (h.nodeRoom x n hn)
  · intro x m hx hc
    by_cases hxf : x = file
    · subst hxf
      rw [hself] at hx
      cases hx
      exact hroom
    · rw [hother x hxf] at hx
      have hxR : x ∈ R := (List.mem_cons.mp (hR.mem_iff.mp (h.tree.mem hx))).resolve_left hxf
      refine hkeep _ (List.mem_append_left _ (List.mem_append_right _ ?_)) _ (h.dataRoom x m hx hc)
      exact List.mem_filterMap.mpr ⟨x, hxR, by rw [Ramfs.dataPtr_eq hx, if_neg hc]⟩

/-- writing into the buffer that is there -/
theorem write_inPlace (h : FsInv s held F) (hf : s.node file = some f)
    {data : List UInt8} {append : Bool}
    (hfit : (if append then f.size else 0) + data.length ≤ f.capacity) {s' : Ramfs}
    (hs' : s' = { s.set file { f with size := (if append then f.size else 0) + data.length } with
      bytes := blit s.bytes (f.data + (if append then f.size else 0)) data }) :
    FsInv s' held F ∧ Written s s' file data append ∧ Buffered s s' file := by
  generalize hbase : (if append then f.size else 0) = base at *
  have hself : s'.node file = some { f with size := base + data.length } := by
    rw [hs']
    exact Ramfs.set_node_self _ _ _
  have hother : ∀ x, x ≠ file → s'.node x = s.node x := by
    intro x hx
    rw [hs']
    exact Ramfs.set_node_ne _ _ hx
  have hroot : s'.root = s.root := by rw [hs']; rfl
  have hheap : s'.heap = s.heap := by rw [hs']; rfl
  have hok := h.nodes file f hf
  have hperm : (s'.tree F).addrs.Perm (s.tree F).addrs := by rw [Ramfs.tree_congr hroot]
  have hold : ∀ x m, s'.node x = some m → KeptIn s x m := by
    intro x m hx
    by_cases hxf : x = file
    · subst hxf
      rw [hself] at hx
      cases hx
      exact ⟨f, hf, rfl, rfl, hok.leaf, hfit, hok.buffer, hok.noBuffer⟩
    · rw [hother x hxf] at hx
      exact h.kept hx
  refine ⟨h.relinked (write_tree h.tree hf hroot hself hother) hperm hheap hold,
    ⟨⟨f, f.data, f.capacity, hf, by rw [hbase]; exact hself⟩, hother, hroot, ?_⟩,
    ⟨⟨f, _, hf, hself, .inl rfl⟩, ?_⟩⟩
  · have hbytes : s'.bytes = blit s.bytes (f.data + base) data := by rw [hs']
    subst hbase
    exact contents_written hf hself hbytes rfl
  · intro f' hf' y hy
    rw [hself] at hf'
    cases hf'
    have hy' : y < f.data ∨ f.data + f.capacity ≤ y := hy
    rw [hs']
    exact blit_apply_ne (by omega)

/-- writing into a larger buffer -/
theorem write_grown (h : FsInv s held F) (hf : s.node file = some f) (hty : f.type = .file)
    {data : List UInt8} {append : Bool} {buf newcap k : Nat} {H' : Heap}
    (hk : s.heap.kmalloc newcap = (buf, H')) (hbuf : buf ≠ 0) (hcap0 : newcap ≠ 0)
    (hcap : newcap ≤ 2^31) (hfit : (if append then f.size else 0) + data.length ≤ newcap) :
    ∃ s1, Ramfs.kfree
        { s with
          heap := H'
          bytes := blit s.bytes buf (slice s.bytes f.data (if append then f.size else 0)) }
        f.data = .ok s1 ∧
      ∀ s' : Ramfs, s' =
        { s1.set file
            { f with
              data := buf
              capacity := newcap
              size := (if append then f.size else 0) + data.length } with
          bytes := blit s1.bytes (buf + (if append then f.size else 0)) data } →
        FsInv s' held F ∧ Written s s' file data append ∧
          (newcap = startCap f * 2^k → Buffered s s' file) := by
  generalize hbase : (if append then f.size else 0) = base at *
  obtain ⟨hperm, hroom, hkeep⟩ := Heap.kmalloc_perm hk hbuf
  have hok := h.nodes file f hf
  have hR := List.perm_cons_erase (h.tree.mem hf)
  generalize (s.tree F).addrs.erase file = R at hR
  have hsplit := h.owned.trans (Ramfs.blocks_split hR)
  generalize hs0 : ({ s with heap := H', bytes := blit s.bytes buf (slice s.bytes f.data base) } :
    Ramfs) = s0
  have hnode0 : s0.node = s.node := by rw [← hs0]
  have hheap0 : s0.heap = H' := by rw [← hs0]
  have hf0 : s0.node file = some f := by rw [hnode0]; exact hf
  have hdp0 : s0.dataPtr = s.dataPtr := funext fun x => Ramfs.dataPtr_congr (by rw [hnode0])
  have hp0 : s0.heap.ptrs.Perm ((s0.dataPtr file).toList ++
      (buf :: ((s.tree F).addrs ++ R.filterMap s.dataPtr ++ held))) := by
    rw [hheap0, hdp0]
    exact (hperm.trans (hsplit.cons buf)).trans List.perm_middle.symm
  obtain ⟨s1, h1, h2, h3, h4, h5, h6⟩ := kfree_data hok.buffer hf0
    (by rw [hnode0]; exact h.tree.node_zero)
    (fun hc => by rw [hnode0]; exact (h.data_owner hf hc).1) hp0
  refine ⟨s1, h1, fun s' hs' => ?_⟩
  have hself : s'.node file = some { f with data := buf, capacity := newcap, size := base + data.length } := by
    rw [hs']
    exact Ramfs.set_node_self _ _ _
  have hother : ∀ x, x ≠ file → s'.node x = s.node x := by
    intro x hx
    rw [hs', ← hnode0, ← h3]
    exact Ramfs.set_node_ne _ _ hx
  have hroot : s'.root = s.root := by
    rw [hs']
    show s1.root = _
    rw [h4, ← hs0]
  have hheap : s'.heap = s1.heap := by rw [hs']; rfl
  have hbytes1 : s1.bytes = blit s.bytes buf (slice s.bytes f.data base) := by rw [h5, ← hs0]
  have hlen := slice_length s.bytes f.data base
  refine ⟨write_newBuffer h hf hty hR hroot hself hother hbuf hcap0 hfit ?_ ?_ ?_,
    ⟨⟨f, buf, newcap, hf, by rw [hbase]; exact hself⟩, hother, hroot, ?_⟩, ?_⟩
  · rw [hheap]
    exact h2
  · rw [hheap]
    apply h6 buf newcap List.mem_cons_self
    rw [hheap0]
    exact hroom.mono (le_alignUp_eight hcap)
  · -- rooms survive the exchange of the buffers
    intro x hx m hr
    rw [hheap]
    apply h6 x m (List.mem_cons_of_mem _ hx)
    rw [hheap0]
    exact hkeep x m hr
  · have hbytes : s'.bytes = blit s1.bytes (buf + base) data := by rw [hs']
    have hkept : slice s1.bytes buf base = slice s.bytes f.data base := by
      have hcopy := slice_blit_self s.bytes buf (slice s.bytes f.data base)
      rw [hlen] at hcopy
      rw [hbytes1]
      exact hcopy
    subst hbase
    exact contents_written hf hself hbytes hkept
  · intro hcapk
    refine ⟨⟨f, _, hf, hself, .inr ⟨k, hcapk⟩⟩, ?_⟩
    intro f' hf' y hy
    rw [hself] at hf'
    cases hf'
    have hy' : y < buf ∨ buf + newcap ≤ y := hy
    rw [hs']
    show blit s1.bytes _ _ y = _
    rw [blit_apply_ne (by omega), hbytes1, blit_apply_ne (by omega)]

theorem startCap_pos (f : RamfsNode) (k : Nat) : 0 < startCap f * 2^k := by
  apply Nat.mul_pos
  · unfold startCap
    split <;> omega
  · exact Nat.two_pow_pos k

/-- growing from the capacity a file has -/
theorem growLoop_start (hcap : f.capacity ≤ heapSize) {needed : Nat} (hn : needed ≤ 2^24) :
    ∃ k, growLoop needed 64 (startCap f) = .ok (startCap f * 2^k) ∧ needed ≤ startCap f * 2^k ∧
      startCap f * 2^k ≤ 2^25 := by
  have hs : heapSize = 4194304 := rfl
  have h0 : 0 < startCap f := by
    unfold startCap
    split <;> omega
  have h1 : startCap f ≤ 2^25 := by
    unfold startCap
    split <;> omega
  exact growLoop_spec hn h0 h1 (show needed ≤ startCap f * 2^63 by omega)

/-- `ramfs_write` returns; when it reports success the file holds what was written -/
theorem ramfsWrite_effect (h : FsInv s held F) (hf : s.node file = some f) {data : List UInt8}
    (hlen : data.length ≤ heapSize) (deny append : Bool) :
    ∃ b s', ramfsWrite deny s file data append = .ok (b, s') ∧ FsInv s' held F ∧
      (b = false → s' = s) ∧
      (b = true → f.type = .file ∧ Written s s' file data append ∧ Buffered s s' file) := by
  have hs : heapSize = 4194304 := rfl
  have hcap := h.capacity_le hf
  have hsize := (h.nodes file f hf).room
  have hle : (if append then f.size else 0) ≤ f.size := by split <;> omega
  have hneeded : add32 (if append then f.size else 0) data.length =
      (if append then f.size else 0) + data.length := add32_eq (by omega)
  unfold ramfsWrite
  rw [if_neg (h.tree.ne_zero hf), Ramfs.deref_ok hf]
  show ∃ b s', (if f.type ≠ .file then _ else _) = _ ∧ _
  by_cases hty : f.type = .file
  swap
  · rw [if_pos hty]
    exact ⟨false, s, rfl, h, fun _ => rfl, fun hb => absurd hb (by simp)⟩
  rw [if_neg (not_not.mpr hty), hneeded]
  by_cases hfit : f.capacity < (if append then f.size else 0) + data.length
  swap
  · rw [if_neg hfit]
    have haddr : add32 f.data (if append then f.size else 0) =
        f.data + (if append then f.size else 0) := by
      by_cases hc : f.capacity = 0
      · rw [((h.nodes file f hf).buffer).mpr hc]
        exact add32_eq (by omega)
      · have := (h.dataRoom file f hf hc).fits
        exact add32_eq (by omega)
    rw [haddr]
    obtain ⟨h1, h2, h3⟩ := write_inPlace h hf (not_lt.mp hfit) rfl
    exact ⟨true, _, rfl, h1, fun hb => absurd hb (by simp), fun _ => ⟨hty, h2, h3⟩⟩
  rw [if_pos hfit]
  -- the capacity is doubled until the data fits
  obtain ⟨k, hg, hn1, hn2⟩ := growLoop_start hcap
    (show (if append then f.size else 0) + data.length ≤ 2^24 by omega)
  have hpos := startCap_pos f k
  have hg' : growLoop ((if append then f.size else 0) + data.length) 64
    (if f.capacity ≠ 0 then f.capacity else 64) = .ok (startCap f * 2^k) := hg
  rw [hg']
  dsimp only [bind, Except.bind]
  rcases Ramfs.kmalloc_cases deny s (startCap f * 2^k) with e | ⟨buf, H', hk, hbuf, e⟩
  · rw [e]
    exact ⟨false, s, if_pos rfl, h, fun _ => rfl, fun hb => absurd hb (by simp)⟩
  · obtain ⟨s1, h1, h2⟩ := write_grown h hf hty hk hbuf (by omega) (by omega) hn1
    obtain ⟨h3, h4, h5⟩ := h2 _ rfl
    have hroom := (Heap.kmalloc_perm hk hbuf).2.1.fits
    have hal := le_alignUp_eight (show startCap f * 2^k ≤ 2^31 by omega)
    have haddr : add32 buf (if append then f.size else 0) =
        buf + (if append then f.size else 0) := add32_eq (by omega)
    rw [e]
    show ∃ b s', (if buf = 0 then _ else _) = _ ∧ _
    rw [if_neg hbuf, h1, haddr]
    exact ⟨true, _, rfl, h3, fun hb => absurd hb (by simp), fun _ => ⟨hty, h4, h5 rfl⟩⟩

theorem ramfsWrite_spec (h : FsInv s held F) (hf : s.node file = some f) {data : List UInt8}
    (hlen : data.length ≤ heapSize) (deny append : Bool) :
    ∃ b s', ramfsWrite deny s file data append = .ok (b, s') ∧ FsInv s' held F ∧
      (b = false → s' = s) ∧ (b = true → f.type = .file ∧ Written s s' file data append) := by
  obtain ⟨b, s', h1, h2, h3, h4⟩ := ramfsWrite_effect h hf hlen deny append
  exact ⟨b, s', h1, h2, h3, fun hb => ⟨(h4 hb).1, (h4 hb).2.1⟩⟩

end

end Raptor
