import RaptorKernel.Fs.Refinement
import RaptorKernel.Mm.KheapClients

/-!
# What undoes what

* `create_undone`    deleting a new node gives the very state back, links and heap included;
* `move_undone`      moving a node back gives the map back.
-/

namespace Raptor
open Forest PathMap

section
variable {s t u : Ramfs} {held : List Nat} {F F' : Forest Nat} {a r parent : Nat} {n m : RamfsNode}
  {p d : List (List UInt8)} {name : List UInt8} {ty : RamfsType}

theorem Heap.eq_of_cells {H H' : Heap} (hb : H.base = H'.base) (hc : H.cells = H'.cells) : H = H' := by
  cases H
  cases H'
  cases hb
  cases hc
  rfl

/-- `kfree` of the block that `kmalloc` just gave -/
theorem Heap.kfree_kmalloc {H H' : Heap} {n q : Nat} (hk : H.kmalloc n = (q, H')) (hq : q ≠ 0) :
    H'.kfree q = .ok H := by
  obtain ⟨c, hc, hfree, -, hfresh, hbase, hused⟩ := H.kmalloc_spec hk hq
  have hin : q ∈ H'.ptrs := H'.mem_ptrs.mpr ⟨c, (hused c).mpr (.inl rfl), hc⟩
  obtain ⟨e, -, he, hf, hu⟩ := H'.kfree_spec hin
  have hcells : (H'.released e.addr).cells = H.cells := by
    refine Heap.cells_ext hbase fun x => ?_
    rw [hu, hused]
    constructor
    · rintro ⟨rfl | hx, hne⟩
      · exact absurd hc hne
      · exact hx
    · intro hx
      refine ⟨.inr hx, fun e1 => hfresh (H.mem_ptrs.mpr ⟨x, hx, e1⟩)⟩
  rw [hf, Heap.eq_of_cells (show (H'.released e.addr).base = H.base from hbase) hcells]

/-- `free_tree` on a node that holds nothing is one `kfree` -/
theorem freeTree_empty (ha : s.node a = some n) (hkids : n.children = 0) (hdata : n.data = 0)
    (h0 : s.node 0 = none) : freeTree loopBound a s = s.kfree a := by
  obtain ⟨f, hf⟩ : ∃ f, loopBound = f + 2 := ⟨4194302, rfl⟩
  have hk : freeKids (f + 1) n.children s = .ok s := by
    rw [hkids, freeKids]
    rfl
  rw [hf, freeTree, Ramfs.deref_ok ha, ok_bind, hk, ok_bind, Ramfs.deref_ok ha, ok_bind, hdata,
    s.kfree_zero h0, ok_bind]

/-- the new node is in front of its siblings, and taking it out leaves the links as they were -/
theorem detach_created (h' : FsInv t held F') (hc : Created s t r parent name ty)
    (hr : r ≠ t.root) :
    ∃ u, detach t r = .ok u ∧ u.heap = t.heap ∧ u.bytes = s.bytes ∧ u.root = s.root ∧
      (∀ x, x ≠ r → u.node x = s.node x) ∧ ∃ m, u.node r = some m ∧ m.children = 0 ∧ m.data = 0 := by
  obtain ⟨p, hp, hpt, hrt⟩ := hc.first
  obtain ⟨u, K, hu, hd⟩ := h'.tree.detach h'.bound' hrt hr
  refine ⟨u, hu, hd.heap, hd.bytes.trans hc.bytes, hd.root.trans hc.root, fun x hx => ?_, _, hd.self, rfl, rfl⟩
  have hr0 := h'.tree.ne_zero hrt
  -- nothing but the parent links to the new node
  have hchild : ∀ y m, t.node y = some m → y ≠ parent → m.children ≠ r := by
    intro y m hy hyp e
    have h1 := h'.tree.rep.par_child (h'.tree.mem hy) (by rw [Ramfs.links_child hy, e]; exact hr0)
    rw [Ramfs.links_child hy, e, Ramfs.links_par hrt] at h1
    exact hyp h1.symm
  have hnext : ∀ y m, t.node y = some m → m.next ≠ r := by
    intro y m hy e
    have h1 := h'.tree.rep.par_next (h'.tree.mem hy) (by rw [Ramfs.links_next hy, e]; exact hr0)
    rw [Ramfs.links_next hy, e, Ramfs.links_par hrt, Ramfs.links_par hy] at h1
    obtain ⟨L, _, hch, hmem⟩ := h'.tree.kids hpt
    have hhead := hch.next_ne_head ((hmem y).mpr ⟨m, hy, h1.symm⟩)
    rw [Ramfs.links_next hy] at hhead
    exact hhead e
  rw [hd.other x hx]
  by_cases hxp : x = parent
  · subst hxp
    rw [hpt, hp]
    show some (relink r p.children { p with children := r }) = some p
    unfold relink
    dsimp only
    rw [if_pos rfl, if_neg (hnext x _ hpt)]
  · have hsame := hc.other x hx hxp
    rw [hsame]
    cases hsx : s.node x with
    | none => rfl
    | some m =>
      rw [hsx] at hsame
      exact congrArg some (relink_of_ne (hchild x m hsame hxp) (hnext x m hsame))

theorem delete_created (h : FsInv s held F) (h' : FsInv t held F') (hc : Created s t r parent name ty)
    (hk : s.heap.kmalloc sizeofRamfsNode = (r, t.heap)) (hr : r ≠ t.root) (recursive : Bool) :
    ramfsDelete t r recursive = .ok (true, s) := by
  obtain ⟨p, hp, hpt, hrt⟩ := hc.first
  have hr0 := h'.tree.ne_zero hrt
  have hp0 := h.tree.ne_zero hp
  obtain ⟨u, hu, hheap, hbytes, hroot, hnode, m, hm, hkids, hdata⟩ := detach_created h' hc hr
  have hu0 : u.node 0 = none := by
    rw [hnode 0 hr0.symm]
    exact h.tree.node_zero
  have hfree : u.kfree r = .ok s := by
    unfold Ramfs.kfree
    rw [hheap, Heap.kfree_kmalloc hk hr0]
    have e : Function.update u.node r none = s.node := by
      funext x
      by_cases hx : x = r
      · rw [hx, Function.update_self, hc.fresh]
      · rw [Function.update_of_ne hx, hnode x hx]
    show Except.ok { u with heap := s.heap, node := Function.update u.node r none } = _
    rw [e, hbytes, hroot]
  unfold ramfsDelete
  rw [if_neg (not_or.mpr ⟨hr0, hr⟩), Ramfs.deref_ok hrt, ok_bind, if_neg hp0, if_neg (by simp), hu, ok_bind,
    freeTree_empty hm hkids hdata hu0, hfree]
  rfl

end

/-! ## after boot -/

section
variable {img : Image} {m0 : Mem} {deny : Nat → Bool} {s0 s t : Ramfs} {ops : List FsOp}

/-- A node that was just created, deleted again: the nodes and their links, the order of the directory and
the blocks of the heap are as before.  What a free block holds is not followed. -/
theorem create_undone (hs0 : ramfsInit deny (Heap.init img) m0 = .ok s0) (r : fsMachine.Run s0 ops s) {cwd x : Nat}
    {n : RamfsNode} (hcwd : s.node cwd = some n) {path : List UInt8} {ty : RamfsType}
    (hc : ramfsCreate false s cwd path ty = .ok (x, t)) (hx : x ≠ 0) (recursive : Bool) :
    ramfsDelete t x recursive = .ok (true, s) := by
  obtain ⟨F, h⟩ := fsInv_of_run (init_root_ne_zero img) hs0 r
  obtain ⟨y, u, F', hc', h', -, hdone⟩ := ramfsCreate_spec h hcwd false path ty
  rw [hc] at hc'
  cases hc'
  obtain ⟨w, hw, hok, hnode, hpar, hcr⟩ := hdone hx
  obtain ⟨hheap, hblock⟩ := create_heap hc hx
  have hfst : (s.heap.kmalloc sizeofRamfsNode).1 = x := by
    have hnew : (nodeNew false s w.name ty).1 = (s.heap.kmalloc sizeofRamfsNode).1 := nodeNew_fst false s w.name ty
    rw [ramfsCreate_missing h.tree hcwd hw hok hnode hpar, hnew, if_pos hblock] at hc
    obtain ⟨_, _, e⟩ := map_eq_ok.mp hc
    exact congrArg Prod.fst e
  obtain ⟨_, _, _, hrt⟩ := hcr.first
  have hroot : x ≠ t.root := fun e => hpar ((h'.tree.parent_eq_zero_iff hrt).mpr e)
  refine delete_created h h' hcr ?_ hroot recursive
  rw [hheap, ← hfst]

/-- A node that was moved, moved back: at every path is what was there before. -/
theorem move_undone (hs0 : ramfsInit deny (Heap.init img) m0 = .ok s0) (r : fsMachine.Run s0 ops s)
    (hops : ∀ op ∈ ops, op.NamesOk) {a dir parent : Nat} {d q : List (List UInt8)} {c name : List UInt8}
    (ha : PathTo s a (d ++ [c])) (hd : PathTo s dir d) (hq : PathTo s parent q) (hname : NameOk name)
    (hm : ramfsMove s a parent name = .ok (true, t)) :
    ∃ u, ramfsMove t a dir c = .ok (true, u) ∧ u.view = s.view := by
  obtain ⟨⟨F, h⟩, hn, -⟩ := view_after_init hs0 r hops
  obtain ⟨n, hna⟩ := ha.live h.tree
  obtain ⟨k, hk⟩ := hq.live h.tree
  obtain ⟨b, t', F', hm', h', hn', -, hiff, hdone⟩ := move_view h hn hna ha hk hq hname
  rw [hm] at hm'
  cases hm'
  obtain ⟨hview, hmv⟩ := hdone rfl
  have hallowed := hiff.mp rfl
  obtain ⟨har, -, -⟩ := ha.of_concat hna
  -- where the node and its old directory are now
  have hdirout : ¬ Below s a dir := by
    rw [below_iff_path h hn ha hd]
    exact Tree.not_prefix_of_concat d c
  have hparout : ¬ Below s a parent := by
    rw [below_iff_path h hn ha hq]
    exact hallowed.2.2.2.2
  have hdt := hmv.pathTo_out h hna hd hdirout
  have hat : PathTo t a (q ++ [name] ++ []) := hmv.pathTo h hn hna har ha (hmv.pathTo_out h hna hq hparout)
    (by rw [List.append_nil]; exact ha)
  rw [List.append_nil] at hat
  obtain ⟨n', hna'⟩ := hat.live h'.tree
  obtain ⟨k', hk'⟩ := hdt.live h'.tree
  have hc : NameOk c := ha.names hn c (by simp)
  obtain ⟨b, u, F'', hmu, -, -, -, hiff', hdone'⟩ := move_view h' hn' hna' hat hk' hdt hc
  have hb : b = true := by
    rw [hiff', hview]
    exact Tree.rename_allowed_back (view_closed h hn) hallowed
  subst hb
  refine ⟨u, hmu, ?_⟩
  rw [(hdone' rfl).1, hview]
  exact Tree.rename_back (view_closed h hn) hallowed.2.2.2.1

end

/-- what the call after boot returns -/
def createsSrv : Except Fault Bool := do
  let s0 ← ramfsInit (fun _ => false) (Heap.init sampleImage) fun _ => 0
  let r ← ramfsCreate false s0 s0.root srv.bytes .dir
  .ok (r.1 != 0)

theorem createsSrv_eq : createsSrv = .ok true := by decide +kernel

theorem create_undone_srv :
    ∃ s0 x t, ramfsInit (fun _ => false) (Heap.init sampleImage) (fun _ => 0) = .ok s0 ∧
      ramfsCreate false s0 s0.root srv.bytes .dir = .ok (x, t) ∧ ramfsDelete t x false = .ok (true, s0) := by
  obtain ⟨s0, h0, heval⟩ := bind_eq_ok.mp createsSrv_eq
  obtain ⟨⟨x, t⟩, hc, heval⟩ := bind_eq_ok.mp heval
  obtain ⟨F, h⟩ := fsInv_of_run (init_root_ne_zero sampleImage) h0 .nil
  obtain ⟨n, hn, _⟩ := h.tree.rootDir
  have hx : x ≠ 0 := by simpa using Except.ok.inj heval
  exact ⟨s0, x, t, h0, hc, create_undone h0 .nil hn hc hx false⟩

theorem move_undone_new :
    ∃ s0 a s t u, ramfsInit (fun _ => false) (Heap.init sampleImage) (fun _ => 0) = .ok s0 ∧
      fsMachine.Run s0 [.move a s0.root oldName] s ∧ ramfsMove s a s.root (lit "new") = .ok (true, t) ∧
      ramfsMove t a s.root oldName.bytes = .ok (true, u) ∧ u.view = s.view := by
  obtain ⟨s0, a, s, t, h0, r, ha, hm⟩ := tmp_moved
  have hnew : NameOk (lit "new") := ⟨by decide, by decide, by decide, by decide, by decide⟩
  have hp : PathTo s a ([] ++ [oldName.bytes]) := ha
  obtain ⟨u, hu, hview⟩ := move_undone h0 r old_namesOk hp .root .root hnew hm
  exact ⟨s0, a, s, t, u, h0, r, hm, hu, hview⟩

end Raptor
