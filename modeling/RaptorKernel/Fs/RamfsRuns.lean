import RaptorKernel.Theory.Run
import RaptorKernel.Fs.RamfsRelink

/-!
# Runs of the file system

`fsMachine` takes calls of the four mutating functions, on live nodes or NULL, with every
allocation allowed to fail.

* `fs_safe`          no such call faults, and every call keeps `FsInv`;
* `fsStep_effect`    what a call did;
* `ramfsInit_run`    `ramfs_init` is itself a run, from a tree that is only a root;
* `ramfs_wellFormed`, `ramfs_heap_exact`   what holds after boot and any further calls.
-/

namespace Raptor
open Forest

inductive FsOp where
  | create (deny : Bool) (cwd : Nat) (path : CStr) (type : RamfsType)
  | write (deny : Bool) (file : Nat) (data : List UInt8) (append : Bool)
  | delete (node : Nat) (recursive : Bool)
  | move (node newParent : Nat) (newName : CStr)

def fsStep (s : Ramfs) : FsOp → Except Fault Ramfs
  | .create deny cwd path type => (ramfsCreate deny s cwd path.bytes type).map Prod.snd
  | .write deny file data append => (ramfsWrite deny s file data append).map Prod.snd
  | .delete node recursive => (ramfsDelete s node recursive).map Prod.snd
  | .move node newParent newName => (ramfsMove s node newParent newName.bytes).map Prod.snd

def LiveOrNull (s : Ramfs) (a : Nat) : Prop := a = 0 ∨ ∃ n, s.node a = some n

/-- pointers are live or NULL; all callers write at most `HEAP_SIZE` bytes -/
def fsLegal (s : Ramfs) : FsOp → Prop
  | .create _ cwd _ _ => LiveOrNull s cwd
  | .write _ file data _ => LiveOrNull s file ∧ data.length ≤ heapSize
  | .delete node _ => LiveOrNull s node
  | .move node newParent _ => LiveOrNull s node ∧ LiveOrNull s newParent

def fsMachine : Machine Ramfs FsOp Fault := ⟨fsStep, fsLegal⟩

/-! ## one call -/

section
variable {s : Ramfs} {held : List Nat} {F : Forest Nat}

/-- a NULL working directory is the root -/
theorem ramfsCreate_null (h : TreeInv s F) (deny : Bool) (path : List UInt8) (t : RamfsType) :
    ramfsCreate deny s 0 path t = ramfsCreate deny s s.root path t := by
  unfold ramfsCreate
  rw [if_pos h.root_ne_zero, if_neg (not_not.mpr rfl)]

/-- a live or NULL working directory stands for a live one -/
theorem create_cwd (h : TreeInv s F) {cwd : Nat} (hl : LiveOrNull s cwd) (deny : Bool)
    (path : List UInt8) (t : RamfsType) : ∃ d n, s.node d = some n ∧
      ramfsCreate deny s cwd path t = ramfsCreate deny s d path t := by
  rcases hl with rfl | ⟨n, hn⟩
  · obtain ⟨r, hr, _⟩ := h.rootDir
    exact ⟨s.root, r, hr, ramfsCreate_null h deny path t⟩
  · exact ⟨cwd, n, hn, rfl⟩

theorem ramfsMove_null {node newParent : Nat} (h0 : node = 0 ∨ newParent = 0) (name : List UInt8) :
    ramfsMove s node newParent name = .ok (false, s) :=
  if_pos (h0.elim .inl fun h => .inr (.inr h))

end

theorem fs_safe (held : List Nat) : fsMachine.Safe fun s => ∃ F, FsInv s held F := by
  rintro s op ⟨F, h⟩ hl
  cases op with
  | create deny cwd path t =>
    obtain ⟨d, n, hd, e⟩ := create_cwd h.tree hl deny path.bytes t
    obtain ⟨r, s', F', h1, h2, _⟩ := ramfsCreate_spec h hd deny path.bytes t
    refine ⟨s', ?_, F', h2⟩
    show (ramfsCreate deny s cwd path.bytes t).map Prod.snd = _
    rw [e, h1]
    rfl
  | write deny file data append =>
    obtain ⟨rfl | ⟨f, hf⟩, hlen⟩ := hl
    · exact ⟨s, rfl, F, h⟩
    · obtain ⟨b, s', h1, h2, _⟩ := ramfsWrite_spec h hf hlen deny append
      refine ⟨s', ?_, F, h2⟩
      show (ramfsWrite deny s file data append).map Prod.snd = _
      rw [h1]
      rfl
  | delete node recursive =>
    rcases hl with rfl | ⟨n, hn⟩
    · exact ⟨s, rfl, F, h⟩
    · obtain ⟨b, s', F', h1, h2, _⟩ := ramfsDelete_spec h hn recursive
      refine ⟨s', ?_, F', h2⟩
      show (ramfsDelete s node recursive).map Prod.snd = _
      rw [h1]
      rfl
  | move node newParent newName =>
    have hnull : node = 0 ∨ newParent = 0 →
        ∃ t, fsStep s (.move node newParent newName) = .ok t ∧ ∃ F, FsInv t held F := by
      intro h0
      refine ⟨s, ?_, F, h⟩
      show (ramfsMove s node newParent newName.bytes).map Prod.snd = _
      rw [ramfsMove_null h0]
      rfl
    obtain ⟨rfl | ⟨n, hn⟩, rfl | ⟨p, hp⟩⟩ := hl
    · exact hnull (.inl rfl)
    · exact hnull (.inl rfl)
    · exact hnull (.inr rfl)
    · obtain ⟨b, s', F', h1, h2, _⟩ := ramfsMove_spec h hn hp newName.bytes
      refine ⟨s', ?_, F', h2⟩
      show (ramfsMove s node newParent newName.bytes).map Prod.snd = _
      rw [h1]
      rfl

/-- what a call did -/
inductive FsEffect (s t : Ramfs) : FsOp → Prop
  | none {op : FsOp} (h : t = s) : FsEffect s t op
  | created {deny : Bool} {cwd r : Nat} {path : CStr} {ty : RamfsType} {w : WalkOut}
      (hok : WalkOk s (components path.bytes) w) (h0 : w.node = 0) (hp : w.parent ≠ 0)
      (hc : Created s t r w.parent w.name ty) : FsEffect s t (.create deny cwd path ty)
  | written {deny append : Bool} {file : Nat} {data : List UInt8}
      (hw : Written s t file data append) : FsEffect s t (.write deny file data append)
  | deleted {node : Nat} {recursive : Bool} (hd : Deleted s t node) :
      FsEffect s t (.delete node recursive)
  | moved {node newParent : Nat} {newName : CStr}
      (hm : Moved s t node newParent (clip ramfsNameMax newName.bytes)) :
      FsEffect s t (.move node newParent newName)

theorem fsStep_effect {s t : Ramfs} {held : List Nat} {F : Forest Nat} (h : FsInv s held F) {op : FsOp}
    (hl : fsLegal s op) (hs : fsStep s op = .ok t) : FsEffect s t op := by
  cases op with
  | create deny cwd path ty =>
    obtain ⟨d, n, hd, e⟩ := create_cwd h.tree hl deny path.bytes ty
    obtain ⟨r, s', _, h1, _, h3, h4⟩ := ramfsCreate_spec h hd deny path.bytes ty
    have hs' : (ramfsCreate deny s cwd path.bytes ty).map Prod.snd = .ok t := hs
    rw [e, h1] at hs'
    cases hs'
    by_cases hr : r = 0
    · exact .none (h3 hr)
    · obtain ⟨w, _, hok, hw0, hp, hc⟩ := h4 hr
      exact .created hok hw0 hp hc
  | write deny file data append =>
    obtain ⟨rfl | ⟨f, hf⟩, hlen⟩ := hl
    · cases hs
      exact .none rfl
    · obtain ⟨b, s', h1, _, h3, h4⟩ := ramfsWrite_spec h hf hlen deny append
      have hs' : (ramfsWrite deny s file data append).map Prod.snd = .ok t := hs
      rw [h1] at hs'
      cases hs'
      cases b with
      | false => exact .none (h3 rfl)
      | true => exact .written (h4 rfl).2
  | delete node recursive =>
    rcases hl with rfl | ⟨n, hn⟩
    · cases hs
      exact .none rfl
    · obtain ⟨b, s', _, h1, _, h3, h4, _⟩ := ramfsDelete_spec h hn recursive
      have hs' : (ramfsDelete s node recursive).map Prod.snd = .ok t := hs
      rw [h1] at hs'
      cases hs'
      cases b with
      | false => exact .none (h3 rfl)
      | true => exact .deleted (h4 rfl)
  | move node newParent newName =>
    have hs' : (ramfsMove s node newParent newName.bytes).map Prod.snd = .ok t := hs
    have hnull : node = 0 ∨ newParent = 0 → t = s := by
      intro h0
      rw [ramfsMove_null h0] at hs'
      exact (Except.ok.inj hs').symm
    obtain ⟨rfl | ⟨n, hn⟩, rfl | ⟨p, hp⟩⟩ := hl
    · exact .none (hnull (.inl rfl))
    · exact .none (hnull (.inl rfl))
    · exact .none (hnull (.inr rfl))
    · obtain ⟨b, s', _, h1, _, h3, h4, _⟩ := ramfsMove_spec h hn hp newName.bytes
      rw [h1] at hs'
      cases hs'
      cases b with
      | false => exact .none (h3 rfl)
      | true => exact .moved (h4 rfl)

/-! ## ramfs_init -/

/-- the state after `root = node_new("", RAMFS_DIR)` -/
def rootState (H : Heap) (m : Mem) : Ramfs :=
  Ramfs.set ⟨(H.kmalloc sizeofRamfsNode).2, m, fun _ => none, (H.kmalloc sizeofRamfsNode).1⟩
    (H.kmalloc sizeofRamfsNode).1 ⟨[], .dir, 0, 0, 0, 0, 0, 0⟩

theorem rootState_inv {H : Heap} (m : Mem) (h0 : (H.kmalloc sizeofRamfsNode).1 ≠ 0) :
    FsInv (rootState H m) H.ptrs .nil := by
  obtain ⟨hperm, hroom, _⟩ := Heap.kmalloc_perm (Prod.mk.eta (p := H.kmalloc sizeofRamfsNode)).symm h0
  generalize hs : rootState H m = s
  have hroot : s.root = (H.kmalloc sizeofRamfsNode).1 := by rw [← hs]; rfl
  have hheap : s.heap = (H.kmalloc sizeofRamfsNode).2 := by rw [← hs]; rfl
  have hself : s.node s.root = some ⟨[], .dir, 0, 0, 0, 0, 0, 0⟩ := by
    rw [← hs]
    exact Ramfs.set_node_self _ _ _
  have hother : ∀ x, x ≠ s.root → s.node x = none := by
    intro x hx
    rw [← hs] at hx ⊢
    exact Ramfs.set_node_ne _ _ hx
  rw [← hroot] at h0 hperm hroom
  rw [← hheap] at hperm hroom
  have honly : ∀ x n, s.node x = some n → x = s.root ∧ n = ⟨[], .dir, 0, 0, 0, 0, 0, 0⟩ := by
    intro x n hx
    by_cases hxr : x = s.root
    · rw [hxr, hself] at hx
      exact ⟨hxr, (Option.some.inj hx).symm⟩
    · rw [hother x hxr] at hx
      cases hx
  refine ⟨⟨⟨rfl, h0, Ramfs.links_par hself, Ramfs.links_child hself, Ramfs.links_next hself⟩,
    List.nodup_singleton _, fun x => ?_, ⟨_, hself, rfl⟩⟩, fun x n hx => ?_, ?_, fun x n hx => ?_,
    fun x n hx hc => ?_⟩
  · show _ ↔ x ∈ [s.root]
    rw [List.mem_singleton]
    constructor
    · rintro ⟨n, hn⟩
      exact (honly x n hn).1
    · rintro rfl
      exact ⟨_, hself⟩
  · obtain ⟨_, rfl⟩ := honly x n hx
    exact ⟨fun _ => rfl, le_refl _, Iff.rfl, fun _ => rfl⟩
  · have hd : s.dataPtr s.root = none := Ramfs.dataPtr_eq hself
    unfold Ramfs.blocks
    show s.heap.ptrs.Perm ([s.root] ++ [s.root].filterMap s.dataPtr ++ H.ptrs)
    rw [List.filterMap_cons_none hd]
    exact hperm
  · obtain ⟨rfl, _⟩ := honly x n hx
    exact hroom.mono (le_alignUp_eight (by decide))
  · obtain ⟨_, rfl⟩ := honly x n hx
    exact absurd rfl hc

/-- the calls `ramfs_init` makes -/
def FsOp.isInit : FsOp → Bool
  | .create .. => true
  | .write .. => true
  | _ => false

section
variable {held : List Nat}

theorem initDirsLoop_run {ds : List String} (hds : ∀ d ∈ ds, 0 ∉ lit d) (deny : Nat → Bool)
    {s : Ramfs} {F : Forest Nat} (h : FsInv s held F) :
    ∃ ops t F', initDirsLoop deny s ds = .ok t ∧ fsMachine.Run s ops t ∧
      (∀ op ∈ ops, op.isInit = true) ∧ FsInv t held F' := by
  induction ds generalizing s F deny with
  | nil => exact ⟨[], s, F, rfl, .nil, fun op hop => absurd hop (by simp), h⟩
  | cons d ds ih =>
    obtain ⟨r, hr, _⟩ := h.tree.rootDir
    obtain ⟨q, t1, F1, h1, h2, _⟩ := ramfsCreate_spec h hr (deny 0) (lit d) .dir
    have hrun : fsMachine.Run s [.create (deny 0) s.root ⟨lit d, hds d List.mem_cons_self⟩ .dir] t1 := by
      refine .snoc (.nil (M := fsMachine)) (.inr ⟨r, hr⟩) ?_
      show (ramfsCreate (deny 0) s s.root (lit d) .dir).map Prod.snd = _
      rw [h1]
      rfl
    obtain ⟨ops, t, F', h3, h4, h5, h6⟩ :=
      ih (fun e he => hds e (List.mem_cons_of_mem _ he)) (fun i => deny (i + 1)) h2
    refine ⟨_, t, F', ?_, hrun.append h4, ?_, h6⟩
    · show (ramfsCreate (deny 0) s s.root (lit d) .dir >>= _) = _
      rw [h1]
      exact h3
    · intro op hop
      rcases List.mem_append.mp hop with hop | hop
      · rw [List.mem_singleton.mp hop]
        rfl
      · exact h5 op hop

theorem preloadFile_run (deny : Nat → Bool) {s : Ramfs} {F : Forest Nat} (h : FsInv s held F)
    {path contents : List UInt8} (hp : 0 ∉ path) (hlen : contents.length ≤ heapSize) :
    ∃ ops t F', preloadFile deny s path contents = .ok t ∧ fsMachine.Run s ops t ∧
      (∀ op ∈ ops, op.isInit = true) ∧ FsInv t held F' := by
  obtain ⟨r, hr, _⟩ := h.tree.rootDir
  obtain ⟨f, t1, F1, h1, h2, _, h3⟩ := ramfsCreate_spec h hr (deny 0) path .file
  have hrun : fsMachine.Run s [.create (deny 0) s.root ⟨path, hp⟩ .file] t1 := by
    refine .snoc (.nil (M := fsMachine)) (.inr ⟨r, hr⟩) ?_
    show (ramfsCreate (deny 0) s s.root path .file).map Prod.snd = _
    rw [h1]
    rfl
  by_cases hf : f = 0
  · refine ⟨_, t1, F1, ?_, hrun, fun op hop => by rw [List.mem_singleton.mp hop]; rfl, h2⟩
    unfold preloadFile
    rw [h1]
    exact if_neg (not_not.mpr hf)
  · obtain ⟨_, _, _, _, _, hc⟩ := h3 hf
    have hlive : ∃ n, t1.node f = some n := by
      have h4 := hc.self_plain
      cases hn : t1.node f with
      | none =>
        rw [hn] at h4
        cases h4
      | some n => exact ⟨n, rfl⟩
    obtain ⟨n, hn⟩ := hlive
    obtain ⟨b, t2, h5, h6, _⟩ := ramfsWrite_spec h2 hn hlen (deny 1) false
    have hrun2 : fsMachine.Run t1 [.write (deny 1) f contents false] t2 := by
      refine .snoc (.nil (M := fsMachine)) ⟨.inr ⟨n, hn⟩, hlen⟩ ?_
      show (ramfsWrite (deny 1) t1 f contents false).map Prod.snd = _
      rw [h5]
      rfl
    refine ⟨_, t2, F1, ?_, hrun.append hrun2, fun op hop => ?_, h6⟩
    · unfold preloadFile
      rw [h1]
      show (if f ≠ 0 then (ramfsWrite (deny 1) t1 f contents false).map Prod.snd else _) = _
      rw [if_pos hf, h5]
      rfl
    · simp only [List.cons_append, List.nil_append, List.mem_cons, List.not_mem_nil, or_false] at hop
      rcases hop with rfl | rfl <;> rfl

theorem preloadFiles_run {fs : List (String × String)}
    (hfs : ∀ f ∈ fs, 0 ∉ lit f.1 ∧ (lit f.2).length ≤ heapSize) (deny : Nat → Bool) {s : Ramfs}
    {F : Forest Nat} (h : FsInv s held F) :
    ∃ ops t F', preloadFiles deny s fs = .ok t ∧ fsMachine.Run s ops t ∧
      (∀ op ∈ ops, op.isInit = true) ∧ FsInv t held F' := by
  induction fs generalizing s F deny with
  | nil => exact ⟨[], s, F, rfl, .nil, fun op hop => absurd hop (by simp), h⟩
  | cons f fs ih =>
    obtain ⟨hp, hlen⟩ := hfs f List.mem_cons_self
    obtain ⟨ops1, t1, F1, h1, h2, h3, h4⟩ := preloadFile_run deny h hp hlen
    obtain ⟨ops, t, F', h5, h6, h7, h8⟩ :=
      ih (fun g hg => hfs g (List.mem_cons_of_mem _ hg)) (fun i => deny (i + 2)) h4
    refine ⟨_, t, F', ?_, h2.append h6, fun op hop => ?_, h8⟩
    · show (preloadFile deny s (lit f.1) (lit f.2) >>= _) = _
      rw [h1]
      exact h5
    · exact (List.mem_append.mp hop).elim (h3 op) (h7 op)

end

/-- `ramfs_init` returns; after the root is there, it makes calls of `ramfs_create` and
`ramfs_write` only -/
theorem ramfsInit_run (deny : Nat → Bool) {H : Heap} (m : Mem)
    (h0 : (H.kmalloc sizeofRamfsNode).1 ≠ 0) :
    ∃ ops s, ramfsInit deny H m = .ok s ∧ fsMachine.Run (rootState H m) ops s ∧
      ∀ op ∈ ops, op.isInit = true := by
  have hdirs : ∀ d ∈ initDirs, 0 ∉ lit d := by decide +kernel
  have hfiles : ∀ f ∈ initFiles, 0 ∉ lit f.1 ∧ (lit f.2).length ≤ heapSize := by decide +kernel
  obtain ⟨ops1, t1, F1, h1, h2, h3, h4⟩ := initDirsLoop_run hdirs deny (rootState_inv m h0)
  obtain ⟨ops2, t2, F2, h5, h6, h7, _⟩ :=
    preloadFiles_run hfiles (fun i => deny (i + initDirs.length)) h4
  refine ⟨ops1 ++ ops2, t2, ?_, h2.append h6, fun op hop =>
    (List.mem_append.mp hop).elim (h3 op) (h7 op)⟩
  have hnew : nodeNew false ⟨H, m, fun _ => none, 0⟩ [] .dir =
      ((H.kmalloc sizeofRamfsNode).1, { rootState H m with root := 0 }) := if_neg h0
  unfold ramfsInit
  rw [hnew]
  show (initDirsLoop deny (rootState H m) initDirs >>= _) = _
  rw [h1]
  exact h5

/-- every run after `ramfs_init` on a heap with room for the root keeps the invariant -/
theorem fsInv_of_run {deny : Nat → Bool} {H : Heap} {m : Mem}
    (h0 : (H.kmalloc sizeofRamfsNode).1 ≠ 0) {s0 s : Ramfs} (hs0 : ramfsInit deny H m = .ok s0)
    {ops : List FsOp} (r : fsMachine.Run s0 ops s) : ∃ F, FsInv s H.ptrs F := by
  obtain ⟨ops0, s1, h1, h2, _⟩ := ramfsInit_run deny m h0
  rw [hs0] at h1
  cases h1
  exact (fs_safe H.ptrs).run_inv (h2.append r) ⟨.nil, rootState_inv m h0⟩

/-- the first node fits on a fresh heap -/
theorem init_root_ne_zero (img : Image) : ((Heap.init img).kmalloc sizeofRamfsNode).1 ≠ 0 :=
  Heap.init_kmalloc img (by decide) (by decide)

/-! ## what holds after boot -/

/-- the nodes form a tree, in both kinds of links -/
structure WellFormed (s : Ramfs) : Prop where
  rootLive : ∃ r, s.node s.root = some r
  /-- following `parent` from a live node reaches the root -/
  up : ∀ a n, s.node a = some n → ∃ k, s.links.par^[k] a = s.root
  rootAlone : ∀ a n, s.node a = some n → (n.parent = 0 ↔ a = s.root)
  parentLive : ∀ a n, s.node a = some n → a ≠ s.root → ∃ p, s.node n.parent = some p
  /-- a children list ends, and holds live nodes only -/
  kids : ∀ d n, s.node d = some n →
    ∃ l, Chain s.links.next 0 n.children l ∧ ∀ c ∈ l, ∃ m, s.node c = some m
  /-- a node occurs once in the list of its parent and in no other -/
  once : ∀ a n, s.node a = some n → a ≠ s.root → ∀ d e l, s.node d = some e →
    Chain s.links.next 0 e.children l → l.count a = if d = n.parent then 1 else 0
  leaf : ∀ a n, s.node a = some n → n.type = .file → n.children = 0
  space : ∀ a n, s.node a = some n → n.size ≤ n.capacity ∧ (n.data = 0 ↔ n.capacity = 0)

theorem FsInv.wellFormed {s : Ramfs} {held : List Nat} {F : Forest Nat} (h : FsInv s held F) :
    WellFormed s where
  rootLive := by
    obtain ⟨r, hr, _⟩ := h.tree.rootDir
    exact ⟨r, hr⟩
  up := by
    intro a n ha
    obtain ⟨l, h1, h2⟩ := h.tree.up ha
    obtain ⟨k, h3, h4⟩ := h2.iterate_last (h.tree.ne_zero ha)
    obtain ⟨m, hm⟩ := (h.tree.live _).mpr (h1 _ h3)
    rw [Ramfs.links_par hm] at h4
    exact ⟨k, (h.tree.parent_eq_zero_iff hm).mp h4⟩
  rootAlone := fun a n ha => h.tree.parent_eq_zero_iff ha
  parentLive := fun a n ha hr => h.tree.parent_live ha hr
  kids := by
    intro d n hd
    obtain ⟨K, _, h2, h3⟩ := h.tree.kids hd
    refine ⟨K.tops, h2, fun c hc => ?_⟩
    obtain ⟨m, hm, _⟩ := (h3 c).mp hc
    exact ⟨m, hm⟩
  once := by
    intro a n ha _ d e l hd hl
    obtain ⟨K, _, h2, h3⟩ := h.tree.kids hd
    have hmem : a ∈ l ↔ d = n.parent := by
      rw [hl.unique h2, h3]
      constructor
      · rintro ⟨m, hm, e1⟩
        rw [ha] at hm
        cases hm
        exact e1.symm
      · exact fun e1 => ⟨n, ha, e1.symm⟩
    by_cases hp : d = n.parent
    · rw [if_pos hp]
      exact List.count_eq_one_of_mem hl.nodup (hmem.mpr hp)
    · rw [if_neg hp]
      exact List.count_eq_zero_of_not_mem fun h4 => hp (hmem.mp h4)
  leaf := fun a n ha => (h.nodes a n ha).leaf
  space := fun a n ha => ⟨(h.nodes a n ha).room, (h.nodes a n ha).buffer⟩

/-- After `ramfs_init` on a fresh heap and any calls of the mutating functions on live nodes, any
allocations failing, the nodes form a tree; and no further call faults. -/
theorem ramfs_wellFormed (img : Image) (m : Mem) (deny : Nat → Bool) :
    ∃ s0, ramfsInit deny (Heap.init img) m = .ok s0 ∧ ∀ ops s, fsMachine.Run s0 ops s →
      WellFormed s ∧ ∀ op, fsLegal s op → ∃ t, fsStep s op = .ok t := by
  obtain ⟨_, s0, h0, _⟩ := ramfsInit_run deny m (init_root_ne_zero img)
  refine ⟨s0, h0, fun ops s r => ?_⟩
  obtain ⟨F, h⟩ := fsInv_of_run (init_root_ne_zero img) h0 r
  refine ⟨h.wellFormed, fun op hl => ?_⟩
  obtain ⟨t, ht, _⟩ := fs_safe _ s op ⟨F, h⟩ hl
  exact ⟨t, ht⟩

/-- a run of one call exists -/
theorem fs_one_call (img : Image) {s0 : Ramfs}
    (h0 : ramfsInit (fun _ => false) (Heap.init img) (fun _ => 0) = .ok s0) {op : FsOp}
    (hl : fsLegal s0 op) : ∃ s, fsMachine.Run s0 [op] s := by
  obtain ⟨F, h⟩ := fsInv_of_run (init_root_ne_zero img) h0 .nil
  exact (fs_safe _).extend .nil ⟨F, h⟩ hl

theorem ramfs_wellFormed_mkdir :
    ∃ s0 s, ramfsInit (fun _ => false) (Heap.init sampleImage) (fun _ => 0) = .ok s0 ∧
      fsMachine.Run s0 [.create false 0 ⟨lit "/srv", by decide⟩ .dir] s ∧ WellFormed s := by
  obtain ⟨s0, h0, h1⟩ := ramfs_wellFormed sampleImage (fun _ => 0) fun _ => false
  obtain ⟨s, r⟩ := fs_one_call sampleImage h0
    (show fsLegal s0 (.create false 0 ⟨lit "/srv", by decide⟩ .dir) from .inl rfl)
  exact ⟨s0, s, h0, r, (h1 _ s r).1⟩

/-- the heap blocks in use are the nodes and the buffers of files, each buffer of one file -/
structure HeapExact (s : Ramfs) : Prop where
  blocks : ∀ p, p ∈ s.heap.ptrs ↔ (∃ n, s.node p = some n) ∨
    ∃ a n, s.node a = some n ∧ n.type = .file ∧ 0 < n.capacity ∧ n.data = p
  apart : ∀ a n, s.node a = some n → 0 < n.capacity → s.node n.data = none
  owner : ∀ a n b m, s.node a = some n → s.node b = some m → 0 < n.capacity → 0 < m.capacity →
    n.data = m.data → a = b

theorem FsInv.heapExact {s : Ramfs} {F : Forest Nat} (h : FsInv s [] F) : HeapExact s where
  blocks := by
    intro p
    rw [h.owned.mem_iff]
    unfold Ramfs.blocks
    rw [List.append_nil, List.mem_append, h.tree.live]
    refine or_congr_right ?_
    constructor
    · intro hp
      obtain ⟨a, ha, hd⟩ := List.mem_filterMap.mp hp
      obtain ⟨n, hn⟩ := (h.tree.live a).mpr ha
      rw [Ramfs.dataPtr_eq hn] at hd
      split at hd
      · cases hd
      · rename_i hc
        refine ⟨a, n, hn, ?_, Nat.pos_of_ne_zero hc, Option.some.inj hd⟩
        cases ht : n.type with
        | file => rfl
        | dir => exact absurd ((h.nodes a n hn).noBuffer ht) hc
    · rintro ⟨a, n, hn, _, hc, rfl⟩
      exact List.mem_filterMap.mpr ⟨a, h.tree.mem hn, by
        rw [Ramfs.dataPtr_eq hn, if_neg (Nat.pos_iff_ne_zero.mp hc)]⟩
  apart := fun a n ha hc => (h.data_owner ha (Nat.pos_iff_ne_zero.mp hc)).1
  owner := fun a n b m ha hb hn hm e => ((h.data_owner hb (Nat.pos_iff_ne_zero.mp hm)).2.2 a n ha
    (Nat.pos_iff_ne_zero.mp hn) e)

/-- After `kheap_init`, `ramfs_init` and any calls of the mutating functions on live nodes, any
allocations failing, nothing is leaked and no block is shared; and no further call faults, so
every `kfree` it makes is on NULL or on a block in use, the only pointers `kfree` returns from. -/
theorem ramfs_heap_exact (img : Image) (m : Mem) (deny : Nat → Bool) :
    ∃ s0, ramfsInit deny (Heap.init img) m = .ok s0 ∧ ∀ ops s, fsMachine.Run s0 ops s →
      HeapExact s ∧ (∀ op, fsLegal s op → ∃ t, fsStep s op = .ok t) ∧
      ∀ p, (∃ H', s.heap.kfree p = .ok H') ↔ p = 0 ∨ p ∈ s.heap.ptrs := by
  obtain ⟨_, s0, h0, _⟩ := ramfsInit_run deny m (init_root_ne_zero img)
  refine ⟨s0, h0, fun ops s r => ?_⟩
  obtain ⟨F, h⟩ := fsInv_of_run (init_root_ne_zero img) h0 r
  rw [Heap.init_ptrs] at h
  refine ⟨h.heapExact, fun op hl => ?_, Heap.kfree_ok_iff⟩
  obtain ⟨t, ht, _⟩ := fs_safe _ s op ⟨F, h⟩ hl
  exact ⟨t, ht⟩

theorem ramfs_heap_exact_touch :
    ∃ s0 s, ramfsInit (fun _ => false) (Heap.init sampleImage) (fun _ => 0) = .ok s0 ∧
      fsMachine.Run s0 [.create false 0 ⟨lit "/tmp/note", by decide⟩ .file] s ∧ HeapExact s := by
  obtain ⟨s0, h0, h1⟩ := ramfs_heap_exact sampleImage (fun _ => 0) fun _ => false
  obtain ⟨s, r⟩ := fs_one_call sampleImage h0
    (show fsLegal s0 (.create false 0 ⟨lit "/tmp/note", by decide⟩ .file) from .inl rfl)
  exact ⟨s0, s, h0, r, (h1 _ s r).1⟩

end Raptor
