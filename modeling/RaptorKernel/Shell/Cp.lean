import RaptorKernel.Fs.Create
import RaptorKernel.Fs.UnixPaths
import RaptorKernel.Shell.SplitParent

/-!
# cp

`cmd_cp` opens a path and replaces what it finds there by the bytes of the source.  Into a directory
the path is built anew, as text: the destination, a slash and the source's name.

* `CanHold`            there is a file, and memory for the bytes;
* `cpWrite_effect`     what the end of `cmd_cp` leaves;
* `openTarget_cases`   the file it opens;
* `follow_file`        the path of a file has the file's name in it, so that a line that fits the
                       buffer leaves room for the path built from it;
* `CpNamed`            the copy is where it should be;
* `cpNamed_iff`        the destinations for which it is.
-/

namespace Raptor
open Forest Mem

/-- there is memory for the buffer that `ramfs_write` asks for -/
def HasRoom (H : Heap) (f : RamfsNode) (size : Nat) : Prop :=
  f.capacity < size → ∀ cap, growLoop size 64 (startCap f) = .ok cap → (H.kmalloc cap).1 ≠ 0

/-- a file that can be made to hold `size` bytes -/
def CanHold (s : Ramfs) (t size : Nat) : Prop :=
  ∃ f, s.node t = some f ∧ f.type = .file ∧ HasRoom s.heap f size

/-- nothing about a node has changed but its places in lists -/
structure SameNode (s s' : Ramfs) (a : Nat) : Prop where
  plain : (s'.node a).map RamfsNode.plain = (s.node a).map RamfsNode.plain
  contents : s'.contents a = s.contents a

theorem SameNode.refl (s : Ramfs) (a : Nat) : SameNode s s a := ⟨rfl, rfl⟩

theorem SameNode.trans {s s' s'' : Ramfs} {a : Nat} (h : SameNode s s' a) (h' : SameNode s' s'' a) :
    SameNode s s'' a := ⟨h'.plain.trans h.plain, h'.contents.trans h.contents⟩

/-- `t` holds what `src` held, and nothing else has changed -/
structure Copied (s s' : Ramfs) (src t : Nat) : Prop where
  self : ∃ n n', s.node t = some n ∧ s'.node t = some n' ∧ n'.name = n.name ∧ n'.type = n.type ∧
    n'.parent = n.parent
  contents : s'.contents t = s.contents src
  source : SameNode s s' src
  other : ∀ y, y ≠ t → SameNode s s' y
  tree : SameTree s s'

section
variable {s s' : Ramfs} {held : List Nat} {F : Forest Nat} {src t : Nat} {f x : RamfsNode}
  {data : List UInt8}

/-! ## writing -/

/-- data that fits is written in place -/
theorem ramfsWrite_fits (h : TreeInv s F) (hf : s.node t = some f) (ht : f.type = .file)
    (hlen : data.length < 2^32) (hfit : data.length ≤ f.capacity) :
    ramfsWrite false s t data false = .ok (true, { s.set t { f with size := data.length } with
      bytes := blit s.bytes (add32 f.data 0) data }) := by
  have hneeded : add32 0 data.length = data.length := by
    rw [add32_eq (by omega), Nat.zero_add]
  unfold ramfsWrite
  rw [if_neg (h.ne_zero hf), Ramfs.deref_ok hf, ok_bind, if_neg (not_not.mpr ht)]
  simp only [Bool.false_eq_true, ↓reduceIte]
  rw [hneeded, if_neg (Nat.not_lt.mpr hfit)]
  rfl

theorem ramfsWrite_true_iff (h : FsInv s held F) (hf : s.node t = some f)
    (hlen : data.length ≤ heapSize) {b : Bool}
    (hw : ramfsWrite false s t data false = .ok (b, s')) :
    b = true ↔ f.type = .file ∧ HasRoom s.heap f data.length := by
  have hs : heapSize = 4194304 := rfl
  have hneeded : add32 0 data.length = data.length := by
    rw [add32_eq (by omega), Nat.zero_add]
  by_cases ht : f.type = .file
  swap
  · unfold ramfsWrite at hw
    rw [if_neg (h.tree.ne_zero hf), Ramfs.deref_ok hf, ok_bind, if_pos ht] at hw
    cases hw
    exact ⟨fun e => absurd e (by simp), fun e => absurd e.1 ht⟩
  by_cases hfit : data.length ≤ f.capacity
  · rw [ramfsWrite_fits h.tree hf ht (by omega) hfit] at hw
    cases hw
    exact ⟨fun _ => ⟨ht, fun e => absurd hfit (Nat.not_le.mpr e)⟩, fun _ => rfl⟩
  have hfit' := Nat.not_le.mp hfit
  obtain ⟨k, hg, _, _⟩ := growLoop_start (h.capacity_le hf) (show data.length ≤ 2^24 by omega)
  have hroom : HasRoom s.heap f data.length ↔ (s.heap.kmalloc (startCap f * 2^k)).1 ≠ 0 := by
    constructor
    · intro hr
      exact hr hfit' _ hg
    · intro hr _ cap hcap
      rw [hg] at hcap
      cases hcap
      exact hr
  have hg' : growLoop data.length 64 (if f.capacity ≠ 0 then f.capacity else 64) =
    .ok (startCap f * 2^k) := hg
  unfold ramfsWrite at hw
  rw [if_neg (h.tree.ne_zero hf), Ramfs.deref_ok hf, ok_bind, if_neg (not_not.mpr ht)] at hw
  simp only [Bool.false_eq_true, ↓reduceIte] at hw
  rw [hneeded, if_pos hfit', hg', ok_bind] at hw
  rw [hroom]
  have hk : s.kmalloc false (startCap f * 2^k) = ((s.heap.kmalloc (startCap f * 2^k)).1,
    { s with heap := (s.heap.kmalloc (startCap f * 2^k)).2 }) := rfl
  rw [hk] at hw
  dsimp only at hw
  by_cases hp : (s.heap.kmalloc (startCap f * 2^k)).1 = 0
  · rw [if_pos hp] at hw
    cases hw
    exact ⟨fun e => absurd e (by simp), fun e => absurd hp e.2⟩
  · rw [if_neg hp] at hw
    obtain ⟨_, _, hw⟩ := bind_eq_ok.mp hw
    cases hw
    exact ⟨fun _ => ⟨ht, hp⟩, fun _ => rfl⟩

/-- the bytes of a file, as `cmd_cp` reads them -/
theorem bytes_eq_contents (hx : s.node src = some x) : x.bytes s = s.contents src := by
  rw [Ramfs.contents_eq hx]
  rfl

theorem Copied.of_written (h' : FsInv s' held F) (hx : s.node src = some x)
    (hw : Written s s' t (x.bytes s) false) (hb : Buffered s s' t)
    (hself : src = t → SameNode s s' src) : Copied s s' src t := by
  obtain ⟨n, d, c, hn, hn'⟩ := hw.self
  have hother : ∀ y, y ≠ t → SameNode s s' y := by
    intro y hy
    have hsame := hw.other y hy
    exact ⟨congrArg _ hsame, Ramfs.contents_other h' hn' hsame hy fun z hz => hb.bytes _ hn' z hz⟩
  refine ⟨⟨n, _, hn, hn', rfl, rfl, rfl⟩, ?_, ?_, hother, hw.sameTree⟩
  · rw [hw.contents, bytes_eq_contents hx]
    rfl
  · by_cases hst : src = t
    · exact hself hst
    · exact hother src hst

/-- The end of `cmd_cp`: it fails and changes nothing, or copies, as there is room or not. -/
theorem cpWrite_effect (h : FsInv s held F) (hx : s.node src = some x) (hxt : x.type = .file)
    (ht : t ≠ 0 → ∃ n, s.node t = some n) (cwd : Nat) (path : List UInt8) :
    ∃ d, cpWrite s cwd src t path = .ok d ∧
      (d.rc = 1 ∧ d.fs = s ∧ ¬ CanHold s t x.size ∨
        d.rc = 0 ∧ CanHold s t x.size ∧ Copied s d.fs src t) := by
  have hlen := bytes_length_le h hx
  have hsize : (x.bytes s).length = x.size := slice_length _ _ _
  have hs : heapSize = 4194304 := rfl
  unfold cpWrite
  by_cases ht0 : t = 0
  · rw [if_pos ht0]
    refine ⟨_, rfl, .inl ⟨rfl, rfl, ?_⟩⟩
    rintro ⟨f, hf, _⟩
    exact h.tree.ne_zero hf ht0
  obtain ⟨f, hf⟩ := ht ht0
  have hhold : CanHold s t x.size ↔ f.type = .file ∧ HasRoom s.heap f x.size := by
    constructor
    · rintro ⟨f', hf', hr⟩
      rw [hf] at hf'
      cases hf'
      exact hr
    · exact fun hr => ⟨f, hf, hr⟩
  rw [if_neg ht0, Ramfs.deref_ok hf, ok_bind, hhold]
  by_cases hft : f.type = .file
  swap
  · rw [if_pos hft]
    exact ⟨_, rfl, .inl ⟨rfl, rfl, fun e => hft e.1⟩⟩
  rw [if_neg (not_not.mpr hft), Ramfs.deref_ok hx, ok_bind]
  obtain ⟨b, s', hw, h', hfail, hdone⟩ := ramfsWrite_effect h hf hlen false false
  have hiff := ramfsWrite_true_iff h hf hlen hw
  rw [hsize] at hiff
  rw [hw, ok_bind]
  cases b with
  | false => exact ⟨_, rfl, .inl ⟨rfl, hfail rfl, fun e => absurd (hiff.mpr e) (by simp)⟩⟩
  | true =>
    obtain ⟨_, hwr, hbuf⟩ := hdone rfl
    refine ⟨_, rfl, .inr ⟨rfl, hiff.mp rfl, Copied.of_written h' hx hwr hbuf ?_⟩⟩
    -- a file copied onto itself: the bytes are in place
    rintro rfl
    rw [hx] at hf
    cases hf
    have hroom := (h.nodes src x hx).room
    rw [ramfsWrite_fits h.tree hx hxt (by omega) (by omega)] at hw
    obtain ⟨_, e⟩ := Prod.mk.inj (Except.ok.inj hw)
    refine ⟨?_, ?_⟩
    · show (s'.node src).map _ = _
      rw [← e]
      show ((s.set src _).node src).map _ = _
      rw [Ramfs.set_node_self, hx, hsize]
    · show s'.contents src = _
      rw [hwr.contents, bytes_eq_contents hx]
      rfl

end

/-! ## the path of a file -/

section
variable {s s' : Ramfs} {held : List Nat} {F F' : Forest Nat} {cwd k e t : Nat} {c m x : RamfsNode}
  {cs : List (List UInt8)} {a b path name : List UInt8}

/-- A walk that ends at a file came to it by its name. -/
theorem follow_file (h : FsInv s held F) (hk : s.node k = some m) (hdir : m.type = .dir)
    (hx : follow s k cs = .ok t) (ht : s.node t = some x) (hfile : x.type = .file) :
    x.name ∈ cs ∧ x.name.length < ramfsNameMax ∧ x.name ≠ dot ∧ x.name ≠ dotdot := by
  have ht0 := h.tree.ne_zero ht
  induction cs using List.reverseRecOn generalizing t with
  | nil =>
    cases hx
    rw [hk] at ht
    cases ht
    rw [hdir] at hfile
    cases hfile
  | append_singleton pre d ih =>
    obtain ⟨y, hy, hy0, hone⟩ := follow_split (h.tree.ne_zero hk) hx ht0
    obtain ⟨n, hn⟩ := follow_live h.tree h.bound' hk hy hy0
    obtain ⟨_, hlen, _⟩ := follow_cons_ok hone ht0
    have hstep := follow_one hone ht0
    by_cases hd : d = dot
    · -- `.` stays at the file
      subst hd
      rw [walkNext_dot] at hstep
      cases hstep
      obtain ⟨h1, h2⟩ := ih hy ht ht0
      exact ⟨List.mem_append_left _ h1, h2⟩
    by_cases hdd : d = dotdot
    · subst hdd
      obtain ⟨n', hn', hdir'⟩ := dir_of_dotdot h hn hstep
      rw [ht] at hn'
      cases hn'
      rw [hdir'] at hfile
      cases hfile
    obtain ⟨o, ho, _, hname⟩ := walkNext_spec h.tree h.bound' hn d
    obtain ⟨z, hz, hfind⟩ := (hname hd hdd).2 (dir_of_name hn hd hdd hstep)
    rw [ho, hz] at hstep
    cases hstep
    obtain ⟨t', ht', hchild, _⟩ := findChild_spec h.tree h.bound' hn d
    rw [hfind] at ht'
    cases ht'
    obtain ⟨x', hx', _, hxd⟩ := hchild ht0
    rw [ht] at hx'
    cases hx'
    rw [hxd]
    exact ⟨List.mem_append_right _ (List.mem_singleton_self _), Nat.not_le.mp hlen, hd, hdd⟩

/-- where the path built from a destination starts: at the root, if the destination is empty -/
theorem follow_base (h : TreeInv s F) (hc : s.node cwd = some c)
    (hb : ramfsResolve s cwd b = .ok e) (name : List UInt8) :
    follow s (startOf s cwd (b ++ slash :: name)) (components b) =
      .ok (if b = [] then s.root else e) := by
  by_cases hb0 : b = []
  · subst hb0
    rfl
  · rw [if_neg hb0, startOf_append hb0, ← ramfsResolve_eq s (h.ne_zero hc)]
    exact hb

/-- a directory and a name: the path leads to the child -/
theorem resolve_child (h : FsInv s held F) (hc : s.node cwd = some c)
    (hbase : follow s (startOf s cwd (b ++ slash :: name)) (components b) = .ok e)
    (he : s.node e = some m) (hdir : m.type = .dir) (hname : components name = [name])
    (hlen : name.length < ramfsNameMax) (hd : name ≠ dot) (hdd : name ≠ dotdot) :
    ramfsResolve s cwd (b ++ slash :: name) = findChild s e name := by
  obtain ⟨n, hn⟩ := startOf_live h.tree hc (b ++ slash :: name)
  have hcomp : components (b ++ slash :: name) = components b ++ [name] := by
    rw [components_append_slash, hname]
  have he0 := h.tree.ne_zero he
  obtain ⟨z, hz, _⟩ := findChild_spec h.tree h.bound' he name
  rw [ramfsResolve_eq s (h.tree.ne_zero hc), hcomp, follow_append s (h.tree.ne_zero hn), hbase,
    ok_bind, if_neg he0, follow_cons, if_neg (Nat.not_le.mpr hlen)]
  have hstep : walkNext s e name = .ok (some z) := by
    rw [walkNext_child he hd hdd hdir, hz]
    rfl
  rw [hstep, hz]
  show (if z = 0 then Except.ok 0 else .ok z) = .ok z
  by_cases hz0 : z = 0
  · rw [if_pos hz0, hz0]
  · rw [if_neg hz0]

/-- ... or, where there is no child of that name, says where it would be -/
theorem walk_child (h : FsInv s held F) (hc : s.node cwd = some c)
    (hbase : follow s (startOf s cwd (b ++ slash :: name)) (components b) = .ok e)
    (he : s.node e = some m) (hdir : m.type = .dir) (hname : components name = [name])
    (hlen : name.length < ramfsNameMax) (hd : name ≠ dot) (hdd : name ≠ dotdot)
    (hfree : findChild s e name = .ok 0) :
    walk s cwd (b ++ slash :: name) true = .ok ⟨0, e, name⟩ := by
  obtain ⟨n, hn⟩ := startOf_live h.tree hc (b ++ slash :: name)
  have hcomp : components (b ++ slash :: name) = components b ++ [name] := by
    rw [components_append_slash, hname]
  have hstep : walkNext s e name = .ok (some 0) := by
    rw [walkNext_child he hd hdd hdir, hfree]
    rfl
  have hclip : clip ramfsNameMax name = name := by
    have h32 : ramfsNameMax = 32 := rfl
    exact List.take_of_length_le (by omega)
  rw [walk_eq, hcomp, walkComps_append s true (h.tree.ne_zero hn) _ (List.cons_ne_nil _ _), hbase,
    ok_bind, if_neg (h.tree.ne_zero he), walkComps, if_neg (Nat.not_le.mpr hlen), hstep]
  show (if ([] : List (List UInt8)) = [] ∧ true = true ∧ name ≠ dot ∧ name ≠ dotdot then _
    else _) = _
  rw [if_pos ⟨rfl, rfl, hd, hdd⟩, hclip]

/-! ## opening -/

/-- what `cmd_cp` opens: a node that is there, a new file, or nothing -/
theorem openTarget_cases (h : FsInv s held F) (hc : s.node cwd = some c) (path : List UInt8) :
    ∃ t s1 F1, openTarget s cwd path = .ok (t, s1) ∧ FsInv s1 held F1 ∧
      (ramfsResolve s cwd path = .ok t ∧ t ≠ 0 ∧ s1 = s ∨
        ramfsResolve s cwd path = .ok 0 ∧
          ramfsCreate false s cwd path .file = .ok (t, s1) ∧ (t = 0 ∧ s1 = s ∨
            t ≠ 0 ∧ ramfsResolve s1 cwd path = .ok t ∧ ∃ w, walk s cwd path true = .ok w ∧
              WalkOk s (components path) w ∧ w.node = 0 ∧ w.parent ≠ 0 ∧
              Created s s1 t w.parent w.name .file)) := by
  obtain ⟨f, hf, _⟩ := ramfsResolve_spec h.tree h.bound' hc path
  unfold openTarget
  rw [hf, ok_bind]
  by_cases hf0 : f = 0
  swap
  · rw [if_neg hf0]
    exact ⟨f, s, F, rfl, h, .inl ⟨rfl, hf0, rfl⟩⟩
  rw [if_pos hf0]
  obtain ⟨r, s1, F1, hcr, h1, hfail, hdone⟩ := ramfsCreate_spec h hc false path .file
  refine ⟨r, s1, F1, hcr, h1, .inr ⟨by rw [hf0], hcr, ?_⟩⟩
  by_cases hr : r = 0
  · exact .inl ⟨hr, hfail hr⟩
  · exact .inr ⟨hr, (ramfsCreate_resolve h hc hcr hr).1, hdone hr⟩

/-- a node that was there before looks the same in the tree that was opened -/
theorem Created.sameNode {r parent y : Nat} {ty : RamfsType} (hc : Created s s' r parent name ty)
    (hy : y ≠ r) : SameNode s s' y :=
  ⟨hc.other_plain hy, Ramfs.contents_plain hc.bytes (hc.other_plain hy)⟩

end

/-! ## one copy -/

/-- the path that `cmd_cp` opens -/
def cpPath (s : Ramfs) (cwd src : Nat) (b : List UInt8) : Except Fault (List UInt8) := do
  let dst ← ramfsResolve s cwd b
  if dst = 0 then .ok b
  else do
    let d ← s.deref dst
    if d.type = .dir then do
      let x ← s.deref src
      .ok (cpDstpath b x.name)
    else .ok b

/-- the file it hands to `ramfs_write` -/
def cpFile (s : Ramfs) (cwd src : Nat) (b : List UInt8) : Except Fault Nat :=
  (cpPath s cwd src (clip ramfsPathMax b) >>= openTarget s cwd).map Prod.fst

section
variable {s : Ramfs} {held : List Nat} {F : Forest Nat} {cwd src : Nat} {c x : RamfsNode}
  {path : List UInt8}

theorem cpTo_eq (s : Ramfs) (cwd src : Nat) (b : List UInt8) :
    cpTo s cwd src b = cpPath s cwd src b >>= fun q => openTarget s cwd q >>= fun r =>
      cpWrite r.2 cwd src r.1 q := by
  have hinto : ∀ dst q, ramfsResolve s cwd q = .ok dst → cpInto s cwd src dst q =
      openTarget s cwd q >>= fun r => cpWrite r.2 cwd src r.1 q := by
    intro dst q hq
    unfold cpInto openTarget
    rw [hq, ok_bind]
    by_cases h0 : dst = 0
    · rw [if_pos h0, if_pos h0]
    · rw [if_neg h0, if_neg h0]
      rfl
  unfold cpTo cpPath
  cases hb : ramfsResolve s cwd b with
  | error e => rfl
  | ok dst =>
    rw [ok_bind, ok_bind]
    by_cases h0 : dst = 0
    · rw [if_pos h0, if_pos h0, ok_bind]
      exact hinto 0 b (h0 ▸ hb)
    rw [if_neg h0, if_neg h0]
    cases hd : s.deref dst with
    | error e => rfl
    | ok d =>
      rw [ok_bind, ok_bind]
      by_cases ht : d.type = .dir
      swap
      · rw [if_neg ht, if_neg ht, ok_bind]
        exact hinto dst b hb
      rw [if_pos ht, if_pos ht]
      cases hx : s.deref src with
      | error e => rfl
      | ok x =>
        rw [ok_bind, ok_bind, ok_bind]
        cases hq : ramfsResolve s cwd (cpDstpath b x.name) with
        | error e =>
          unfold openTarget
          rw [hq]
          rfl
        | ok z =>
          rw [ok_bind]
          exact hinto z _ hq

/-- Opening a path and writing the bytes of `src` to it. -/
theorem cp_open (h : FsInv s held F) (hc : s.node cwd = some c) (hx : s.node src = some x)
    (hxt : x.type = .file) (path : List UInt8) :
    ∃ t s1 d, openTarget s cwd path = .ok (t, s1) ∧ cpWrite s1 cwd src t path = .ok d ∧
      (d.rc = 1 ∧ ¬ CanHold s1 t x.size ∧ (∀ y n, s.node y = some n → SameNode s d.fs y) ∨
        d.rc = 0 ∧ CanHold s1 t x.size ∧ ramfsResolve d.fs cwd path = .ok t ∧
          d.fs.contents t = s.contents src ∧ SameNode s d.fs src ∧
          (∀ y, y ≠ t → SameNode s d.fs y) ∧
          ∃ n n', s1.node t = some n ∧ d.fs.node t = some n' ∧ n'.name = n.name ∧
            n'.type = .file ∧ n'.parent = n.parent) := by
  obtain ⟨t, s1, F1, hopen, h1, hcases⟩ := openTarget_cases h hc path
  -- what was there before is the same in the tree that is written to
  have hsame : ∀ y n, s.node y = some n → SameNode s s1 y := by
    intro y n hy
    rcases hcases with ⟨_, _, rfl⟩ | ⟨_, _, ⟨_, rfl⟩ | ⟨_, _, w, _, _, _, _, hcr⟩⟩
    · exact .refl _ _
    · exact .refl _ _
    · apply hcr.sameNode
      rintro rfl
      rw [hcr.fresh] at hy
      cases hy
  have hother : ∀ y, y ≠ t → SameNode s s1 y := by
    intro y hy
    rcases hcases with ⟨_, _, rfl⟩ | ⟨_, _, ⟨_, rfl⟩ | ⟨_, _, w, _, _, _, _, hcr⟩⟩
    · exact .refl _ _
    · exact .refl _ _
    · exact hcr.sameNode hy
  have hres : t ≠ 0 → ramfsResolve s1 cwd path = .ok t := by
    intro ht0
    rcases hcases with ⟨hr, _, rfl⟩ | ⟨_, _, ⟨ht, _⟩ | ⟨_, hr, _⟩⟩
    · exact hr
    · exact absurd ht ht0
    · exact hr
  have hlive : t ≠ 0 → ∃ n, s1.node t = some n := by
    intro ht0
    rcases hcases with ⟨hr, _, rfl⟩ | ⟨_, _, ⟨ht, _⟩ | ⟨_, _, w, _, _, _, _, hcr⟩⟩
    · obtain ⟨z, hz, hzl⟩ := ramfsResolve_spec h.tree h.bound' hc path
      rw [hr] at hz
      cases hz
      exact hzl ht0
    · exact absurd ht ht0
    · obtain ⟨_, _, _, e⟩ := hcr.first
      exact ⟨_, e⟩
  obtain ⟨x1, hx1, hplain⟩ := plain_some (hsame src x hx).plain.symm hx
  have hsize : x1.size = x.size := (congrArg RamfsNode.size hplain).symm
  have hxt1 : x1.type = .file := (plain_type hplain).symm.trans hxt
  obtain ⟨d, hd, hdone⟩ := cpWrite_effect h1 hx1 hxt1 hlive cwd path
  refine ⟨t, s1, d, hopen, hd, ?_⟩
  rw [hsize] at hdone
  rcases hdone with ⟨hrc, hfs, hno⟩ | ⟨hrc, hhold, hcp⟩
  · refine .inl ⟨hrc, hno, fun y n hy => ?_⟩
    rw [hfs]
    exact hsame y n hy
  · obtain ⟨n, n', hn, hn', e1, e2, e3⟩ := hcp.self
    have ⟨f, hf, hft, _⟩ := hhold
    have hnf : n = f := Option.some.inj (hn.symm.trans hf)
    refine .inr ⟨hrc, hhold, ?_, ?_, (hsame src x hx).trans hcp.source,
      fun y hy => (hother y hy).trans (hcp.other y hy), n, n', hn, hn', e1, ?_, e3⟩
    · rw [ramfsResolve_sameTree hcp.tree]
      exact hres (h1.tree.ne_zero hn)
    · rw [hcp.contents]
      exact (hsame src x hx).contents
    · rw [e2, hnf]
      exact hft

/-- opened as a child of the directory `e`, the node is one -/
theorem cp_child (h : FsInv s held F) (hc : s.node cwd = some c) {b name : List UInt8} {e t : Nat}
    {m n : RamfsNode} {s1 : Ramfs}
    (hbase : follow s (startOf s cwd (b ++ slash :: name)) (components b) = .ok e)
    (he : s.node e = some m) (hdir : m.type = .dir) (hname : components name = [name])
    (hlen : name.length < ramfsNameMax) (hd : name ≠ dot) (hdd : name ≠ dotdot)
    (ho : openTarget s cwd (b ++ slash :: name) = .ok (t, s1)) (hn : s1.node t = some n) :
    n.parent = e ∧ n.name = name := by
  obtain ⟨t', s1', F1, ho', h1, hcases⟩ := openTarget_cases h hc (b ++ slash :: name)
  rw [ho] at ho'
  cases ho'
  have ht0 := h1.tree.ne_zero hn
  have hchild := resolve_child h hc hbase he hdir hname hlen hd hdd
  obtain ⟨z, hz, hzc, _⟩ := findChild_spec h.tree h.bound' he name
  rw [hchild, hz] at hcases
  rcases hcases with ⟨hr, _, rfl⟩ | ⟨hr, _, ⟨ht, _⟩ | ⟨_, _, w, hw, _, _, _, hcr⟩⟩
  · cases hr
    obtain ⟨n', hn', e1, e2⟩ := hzc ht0
    rw [hn] at hn'
    cases hn'
    exact ⟨e1, e2⟩
  · exact absurd ht ht0
  · cases hr
    rw [walk_child h hc hbase he hdir hname hlen hd hdd hz] at hw
    cases hw
    obtain ⟨_, _, _, e1⟩ := hcr.first
    rw [hn] at e1
    cases e1
    exact ⟨rfl, rfl⟩

end

/-! ## an empty destination -/

/-- the root directory can take a copy of the file: under its name there is a file that can hold the
bytes, or nothing, and there is memory for a node and the bytes -/
def RootTakes (s : Ramfs) (x : RamfsNode) : Prop :=
  ∃ t, findChild s s.root x.name = .ok t ∧ (t ≠ 0 → CanHold s t x.size) ∧
    (t = 0 → (s.heap.kmalloc sizeofRamfsNode).1 ≠ 0 ∧
      (0 < x.size → ∀ cap, growLoop x.size 64 64 = .ok cap →
        ((s.heap.kmalloc sizeofRamfsNode).2.kmalloc cap).1 ≠ 0))

section
variable {s s1 : Ramfs} {held : List Nat} {F : Forest Nat} {cwd r : Nat} {c : RamfsNode}
  {path : List UInt8}

/-- what `cmd_cp` opens for the name of `x` in the root can hold the bytes exactly if the root takes
the copy -/
theorem rootTakes_iff (h : FsInv s held F) (hc : s.node cwd = some c) {x : RamfsNode} {t : Nat}
    (hname : components x.name = [x.name]) (hlen : x.name.length < ramfsNameMax)
    (hd : x.name ≠ dot) (hdd : x.name ≠ dotdot)
    (ho : openTarget s cwd (slash :: x.name) = .ok (t, s1)) :
    CanHold s1 t x.size ↔ RootTakes s x := by
  obtain ⟨m, hm, hdir⟩ := h.tree.rootDir
  obtain ⟨t', s1', F1, ho', h1, hcases⟩ := openTarget_cases h hc (slash :: x.name)
  rw [ho] at ho'
  cases ho'
  have hbase : follow s (startOf s cwd ([] ++ slash :: x.name)) (components []) = .ok s.root := rfl
  have hchild : ramfsResolve s cwd (slash :: x.name) = _ :=
    resolve_child h hc hbase hm hdir hname hlen hd hdd
  obtain ⟨z, hz, _, _⟩ := findChild_spec h.tree h.bound' hm x.name
  have htakes : RootTakes s x ↔ (z ≠ 0 → CanHold s z x.size) ∧
      (z = 0 → (s.heap.kmalloc sizeofRamfsNode).1 ≠ 0 ∧
        (0 < x.size → ∀ cap, growLoop x.size 64 64 = .ok cap →
          ((s.heap.kmalloc sizeofRamfsNode).2.kmalloc cap).1 ≠ 0)) := by
    constructor
    · rintro ⟨z', hz', ht⟩
      rw [hz] at hz'
      cases hz'
      exact ht
    · exact fun ht => ⟨z, hz, ht⟩
  rw [htakes]
  rw [hchild, hz] at hcases
  rcases hcases with ⟨hr, ht0, hs⟩ | ⟨hr, hcr, ⟨ht0, hs⟩ | ⟨ht0, _, w, _, _, _, _, hmade⟩⟩
  · cases hr
    rw [hs]
    exact ⟨fun hh => ⟨fun _ => hh, fun e => absurd e ht0⟩, fun hh => hh.1 ht0⟩
  · cases hr
    constructor
    · rintro ⟨f, hf, _⟩
      exact absurd ht0 (h1.tree.ne_zero hf)
    · intro hh
      obtain ⟨w, hw, hok⟩ := walk_spec h.tree h.bound' true hc (slash :: x.name)
      have hw' : walk s cwd (slash :: x.name) true = _ :=
        walk_child h hc hbase hm hdir hname hlen hd hdd hz
      rw [hw] at hw'
      cases hw'
      have hspace : (s.kmalloc false sizeofRamfsNode).1 ≠ 0 := (hh.2 rfl).1
      exact absurd ht0 (create_succeeds h hc hw hok rfl (h.tree.ne_zero hm) hspace hcr)
  · cases hr
    obtain ⟨hheap, hmem⟩ := create_heap hcr ht0
    obtain ⟨_, _, _, hself⟩ := hmade.first
    constructor
    · rintro ⟨f, hf, _, hroom⟩
      rw [hself] at hf
      cases hf
      rw [hheap] at hroom
      exact ⟨fun e => absurd rfl e, fun _ => ⟨hmem, hroom⟩⟩
    · intro hh
      refine ⟨_, hself, rfl, ?_⟩
      rw [hheap]
      exact (hh.2 rfl).2

end

/-! ## the copy is where it should be -/

/-- `cp a b` fits the line buffer -/
def CpLine (a b : List UInt8) : Prop :=
  (lit "cp").length + 1 + a.length + 1 + b.length < shellLineMax

instance (a b : List UInt8) : Decidable (CpLine a b) :=
  inferInstanceAs (Decidable ((lit "cp").length + 1 + a.length + 1 + b.length < shellLineMax))

/-- `t` is the file that the destination names, or the child of it that has the source's name; it
holds the bytes of the source, and nothing else has changed -/
structure CpLanded (sh : Shell) (b : List UInt8) (s' : Ramfs) (src : Nat) (x : RamfsNode) (t : Nat) :
    Prop where
  place : ∃ dst n, ramfsResolve sh.fs sh.cwd b = .ok dst ∧ s'.node t = some n ∧ n.type = .file ∧
    (IsDir sh.fs dst → n.parent = dst ∧ n.name = x.name) ∧
    (¬ IsDir sh.fs dst → ramfsResolve s' sh.cwd b = .ok t)
  contents : s'.contents t = sh.fs.contents src
  source : SameNode sh.fs s' src
  other : ∀ y, y ≠ t → SameNode sh.fs s' y

/-- `cp` fails and changes nothing that was there, or the copy is where it should be -/
def CpNamed (sh : Shell) (a b : List UInt8) : Prop :=
  ∃ d, cmdCp sh [a, b] = .ok d ∧
    (d.rc = 1 ∧ (∀ y n, sh.fs.node y = some n → SameNode sh.fs d.fs y) ∨
      d.rc = 0 ∧ ∃ src x t, ramfsResolve sh.fs sh.cwd a = .ok src ∧ sh.fs.node src = some x ∧
        x.type = .file ∧ cpFile sh.fs sh.cwd src b = .ok t ∧ CpLanded sh b d.fs src x t)

/-- The destination is not empty, or the working directory is the root, where an empty destination
leads; or nothing is copied, since the source is no file or the root cannot take it. -/
def CpFits (sh : Shell) (a b : List UInt8) : Prop :=
  b ≠ [] ∨ sh.cwd = sh.fs.root ∨ ∀ src x, ramfsResolve sh.fs sh.cwd a = .ok src →
    sh.fs.node src = some x → x.type = .file → ¬ RootTakes sh.fs x

/-- what is known of a source that `want_file` accepts -/
structure CpSource (sh : Shell) (a : List UInt8) (src : Nat) (x : RamfsNode) : Prop where
  resolve : ramfsResolve sh.fs sh.cwd a = .ok src
  live : sh.fs.node src = some x
  file : x.type = .file
  want : ∃ msg, wantFile sh.fs sh.cwd a = .ok (src, msg)
  name : components x.name = [x.name]
  short : x.name.length < ramfsNameMax
  ne_dot : x.name ≠ dot
  ne_dotdot : x.name ≠ dotdot
  inPath : x.name.length ≤ a.length

section
variable {sh : Shell} {held : List Nat} {F : Forest Nat} {c x : RamfsNode} {src dst : Nat}
  {a b : List UInt8}

/-- The source: a file, with a name that is part of its path. -/
theorem cpSource_cases (h : FsInv sh.fs held F) (hc : sh.fs.node sh.cwd = some c)
    (hdir : c.type = .dir) (a : List UInt8) :
    (∃ src x, CpSource sh a src x) ∨
    ((∃ msg, wantFile sh.fs sh.cwd a = .ok (0, msg)) ∧ ∀ src x, ramfsResolve sh.fs sh.cwd a = .ok src →
      sh.fs.node src = some x → x.type ≠ .file) := by
  rcases wantFile_cases h hc a with ⟨src, x, hsrc, hx, ht, hwant⟩ | hnone
  swap
  · exact .inr hnone
  obtain ⟨k, hk, hkdir⟩ := startOf_dir h.tree hc hdir a
  have hsrc' := hsrc
  rw [ramfsResolve_eq sh.fs (h.tree.ne_zero hc)] at hsrc'
  obtain ⟨hmem, hlen, hd, hdd⟩ := follow_file h hk hkdir hsrc' hx ht
  obtain ⟨hn0, hns, hinfix⟩ := fields_mem hmem
  exact .inl ⟨src, x, hsrc, hx, ht, ⟨[], hwant⟩, fields_of_notMem hns hn0, hlen, hd, hdd,
    hinfix.length_le⟩

/-- on a line that fits, nothing is cut: the name of the source is part of its path -/
theorem cpDstpath_eq {name : List UInt8} (hline : CpLine a b) (hname : name.length ≤ a.length) :
    clip ramfsPathMax b = b ∧ cpDstpath b name = b ++ slash :: name := by
  have hmax : ramfsPathMax = 256 := rfl
  have hcp : (lit "cp").length = 2 := by decide
  have hfit : b.length + name.length + 1 ≤ 255 := by
    unfold CpLine at hline
    rw [hcp] at hline
    have hl : shellLineMax = 256 := rfl
    omega
  have hclip : ∀ q : List UInt8, q.length ≤ 255 → clip ramfsPathMax q = q := by
    intro q hq
    exact List.take_of_length_le (by omega)
  refine ⟨hclip b (by omega), ?_⟩
  unfold cpDstpath
  rw [hclip (b ++ [slash]) (by simp; omega), List.append_assoc, List.singleton_append]
  exact hclip _ (by simp; omega)

theorem cmdCp_eq (h : TreeInv sh.fs F) (hs : CpSource sh a src x) (hclip : clip ramfsPathMax b = b) :
    cmdCp sh [a, b] = cpPath sh.fs sh.cwd src b >>= fun q => openTarget sh.fs sh.cwd q >>= fun r =>
      cpWrite r.2 sh.cwd src r.1 q := by
  obtain ⟨msg, hw⟩ := hs.want
  unfold cmdCp
  dsimp only
  rw [hw, ok_bind]
  dsimp only
  rw [if_neg (h.ne_zero hs.live), hclip]
  exact cpTo_eq sh.fs sh.cwd src b

/-- one copy, to the path that `cmd_cp` opens -/
theorem cmdCp_run (h : FsInv sh.fs held F) (hc : sh.fs.node sh.cwd = some c)
    (hs : CpSource sh a src x) (hclip : clip ramfsPathMax b = b) {q : List UInt8}
    (hq : cpPath sh.fs sh.cwd src b = .ok q) :
    ∃ t s1 d, openTarget sh.fs sh.cwd q = .ok (t, s1) ∧ cpFile sh.fs sh.cwd src b = .ok t ∧
      cmdCp sh [a, b] = .ok d ∧
      (d.rc = 1 ∧ ¬ CanHold s1 t x.size ∧ (∀ y n, sh.fs.node y = some n → SameNode sh.fs d.fs y) ∨
        d.rc = 0 ∧ CanHold s1 t x.size ∧ ramfsResolve d.fs sh.cwd q = .ok t ∧
          d.fs.contents t = sh.fs.contents src ∧ SameNode sh.fs d.fs src ∧
          (∀ y, y ≠ t → SameNode sh.fs d.fs y) ∧
          ∃ n n', s1.node t = some n ∧ d.fs.node t = some n' ∧ n'.name = n.name ∧
            n'.type = .file ∧ n'.parent = n.parent) := by
  obtain ⟨t, s1, d, hopen, hcw, hdone⟩ := cp_open h hc hs.live hs.file q
  refine ⟨t, s1, d, hopen, ?_, ?_, hdone⟩
  · unfold cpFile
    rw [hclip, hq, ok_bind, hopen]
    rfl
  · rw [cmdCp_eq h.tree hs hclip, hq, ok_bind, hopen, ok_bind, hcw]

/-- a destination that is no directory -/
theorem cp_to_path (h : FsInv sh.fs held F) (hc : sh.fs.node sh.cwd = some c)
    (hs : CpSource sh a src x) (hline : CpLine a b) (hdst : ramfsResolve sh.fs sh.cwd b = .ok dst)
    (hnd : ¬ IsDir sh.fs dst) : CpNamed sh a b := by
  obtain ⟨hclip, _⟩ := cpDstpath_eq hline hs.inPath
  obtain ⟨dst', hdst', hlive⟩ := ramfsResolve_spec h.tree h.bound' hc b
  rw [hdst] at hdst'
  cases hdst'
  have hq : cpPath sh.fs sh.cwd src b = .ok b := by
    unfold cpPath
    rw [hdst, ok_bind]
    by_cases h0 : dst = 0
    · rw [if_pos h0]
    · obtain ⟨m, hm⟩ := hlive h0
      rw [if_neg h0, Ramfs.deref_ok hm, ok_bind, if_neg fun e => hnd ⟨m, hm, e⟩]
  obtain ⟨t, s1, d, _, hfile, hrun, hdone⟩ := cmdCp_run h hc hs hclip hq
  refine ⟨d, hrun, ?_⟩
  rcases hdone with ⟨hrc, _, hsame⟩ | ⟨hrc, _, hres, hcont, hself, hother, _, n', _, hn', _, ht, _⟩
  · exact .inl ⟨hrc, hsame⟩
  · refine .inr ⟨hrc, src, x, t, hs.resolve, hs.live, hs.file, hfile, ⟨?_, hcont, hself, hother⟩⟩
    exact ⟨dst, n', hdst, hn', ht, fun e => absurd e hnd, fun _ => hres⟩

/-- A destination that is a directory: the copy is a child of it, or of the root, if the destination
is empty. -/
theorem cp_into_dir (h : FsInv sh.fs held F) (hc : sh.fs.node sh.cwd = some c)
    (hs : CpSource sh a src x) (hline : CpLine a b) (hdst : ramfsResolve sh.fs sh.cwd b = .ok dst)
    (hisdir : IsDir sh.fs dst) :
    ∃ t s1, openTarget sh.fs sh.cwd (b ++ slash :: x.name) = .ok (t, s1) ∧
      (CpNamed sh a b ↔ (if b = [] then sh.fs.root else dst) = dst ∨ ¬ CanHold s1 t x.size) := by
  obtain ⟨m, hm, hmd⟩ := hisdir
  obtain ⟨hclip, hpath⟩ := cpDstpath_eq hline hs.inPath
  have hq : cpPath sh.fs sh.cwd src b = .ok (b ++ slash :: x.name) := by
    unfold cpPath
    rw [hdst, ok_bind, if_neg (h.tree.ne_zero hm), Ramfs.deref_ok hm, ok_bind, if_pos hmd,
      Ramfs.deref_ok hs.live, ok_bind, hpath]
  obtain ⟨t, s1, d, hopen, hfile, hrun, hdone⟩ := cmdCp_run h hc hs hclip hq
  refine ⟨t, s1, hopen, ?_⟩
  have hbase := follow_base h.tree hc hdst x.name
  have hlive : ∃ m, sh.fs.node (if b = [] then sh.fs.root else dst) = some m ∧ m.type = .dir := by
    split
    · exact h.tree.rootDir
    · exact ⟨m, hm, hmd⟩
  generalize (if b = [] then sh.fs.root else dst) = e at hbase hlive
  obtain ⟨me, hme, hmed⟩ := hlive
  rcases hdone with ⟨hrc, hno, hsame⟩ |
    ⟨hrc, hhold, _, hcont, hself, hother, n, n', hn, hn', e1, e2, e3⟩
  · exact ⟨fun _ => .inr hno, fun _ => ⟨d, hrun, .inl ⟨hrc, hsame⟩⟩⟩
  obtain ⟨hpar, hnm⟩ := cp_child h hc hbase hme hmed hs.name hs.short hs.ne_dot hs.ne_dotdot hopen hn
  constructor
  · rintro ⟨d', hrun', hd'⟩
    rw [hrun] at hrun'
    cases hrun'
    rcases hd' with ⟨hrc', _⟩ | ⟨_, src', x', t', hsrc', _, _, hfile', hland⟩
    · rw [hrc] at hrc'
      cases hrc'
    obtain ⟨dst', n2, hdst', hn2, _, hchild, _⟩ := hland.place
    rw [hs.resolve] at hsrc'
    cases hsrc'
    rw [hfile] at hfile'
    cases hfile'
    rw [hn'] at hn2
    cases hn2
    rw [hdst] at hdst'
    cases hdst'
    rw [← hpar, ← e3]
    exact .inl (hchild ⟨m, hm, hmd⟩).1
  · intro hed
    have hed := hed.resolve_right (not_not.mpr hhold)
    refine ⟨d, hrun, .inr ⟨hrc, src, x, t, hs.resolve, hs.live, hs.file, hfile,
      ⟨?_, hcont, hself, hother⟩⟩⟩
    refine ⟨dst, n', hdst, hn', e2, fun _ => ⟨?_, e1.trans hnm⟩, fun hnd => ?_⟩
    · rw [e3, hpar, hed]
    · exact absurd ⟨m, hm, hmd⟩ hnd

/-- `cp` puts its copy where it should be exactly if the destination is not empty, or it makes no
difference. -/
theorem cpNamed_iff (h : FsInv sh.fs held F) (hc : sh.fs.node sh.cwd = some c) (hdir : c.type = .dir)
    (hline : CpLine a b) : CpNamed sh a b ↔ CpFits sh a b := by
  rcases cpSource_cases h hc hdir a with ⟨src, x, hs⟩ | ⟨⟨msg, hw⟩, hno⟩
  swap
  · have hcp : cmdCp sh [a, b] = .ok ⟨sh.fs, sh.cwd, msg, 1⟩ := by
      unfold cmdCp
      dsimp only
      rw [hw, ok_bind]
      exact if_pos rfl
    exact ⟨fun _ => .inr (.inr fun src x h1 h2 h3 => absurd h3 (hno src x h1 h2)),
      fun _ => ⟨_, hcp, .inl ⟨rfl, fun y _ _ => .refl _ _⟩⟩⟩
  obtain ⟨dst, hdst, _⟩ := ramfsResolve_spec h.tree h.bound' hc b
  by_cases hb : b = []
  swap
  · refine ⟨fun _ => .inl hb, fun _ => ?_⟩
    by_cases hisdir : IsDir sh.fs dst
    · obtain ⟨t, s1, _, hiff⟩ := cp_into_dir h hc hs hline hdst hisdir
      rw [hiff, if_neg hb]
      exact .inl rfl
    · exact cp_to_path h hc hs hline hdst hisdir
  -- an empty destination is the working directory
  subst hb
  have hcwd : dst = sh.cwd := by
    rw [ramfsResolve_eq sh.fs (h.tree.ne_zero hc)] at hdst
    exact (Except.ok.inj hdst).symm
  obtain ⟨t, s1, hopen, hiff⟩ := cp_into_dir h hc hs hline hdst (hcwd ▸ ⟨c, hc, hdir⟩)
  rw [hiff, if_pos rfl, hcwd, rootTakes_iff h hc hs.name hs.short hs.ne_dot hs.ne_dotdot hopen]
  constructor
  · rintro (hr | hno)
    · exact .inr (.inl hr.symm)
    · refine .inr (.inr fun src' x' hsrc' hx' _ => ?_)
      rw [hs.resolve] at hsrc'
      cases hsrc'
      rw [hs.live] at hx'
      cases hx'
      exact hno
  · rintro (hb | hr | hno)
    · exact absurd rfl hb
    · exact .inl hr.symm
    · exact .inr (hno src x hs.resolve hs.live hs.file)

theorem cpNamed_iff_readme :
    ∃ sh, boot sampleImage (fun _ => 0) [] = .ok sh ∧
      (CpNamed sh (lit "/README.txt") (lit "/tmp") ↔ CpFits sh (lit "/README.txt") (lit "/tmp")) := by
  obtain ⟨sh, h0, hi, ⟨c, hc, hdir⟩, _⟩ := boot_spec sampleImage (fun _ => 0) []
  obtain ⟨F, h⟩ := hi.files
  exact ⟨sh, h0, cpNamed_iff h hc hdir (by decide)⟩

/-- in `/tmp`, `cp /etc/motd ""` returns 0, and the new path leads to a node outside -/
def cpLandsElsewhere (sh : Shell) (tmp src : Nat) : Bool :=
  match cmdCp { sh with cwd := tmp } [lit "/etc/motd", []], cpFile sh.fs tmp src [] with
  | .ok d, .ok t => d.rc == 0 && (sh.fs.node tmp).map RamfsNode.type == some .dir &&
    (d.fs.node t).map RamfsNode.parent != some tmp
  | _, _ => false

def cpEmptyMisses (sh : Shell) : Bool :=
  (ramfsResolve sh.fs sh.cwd (lit "/tmp")).toOption.any fun tmp =>
    (ramfsResolve sh.fs tmp (lit "/etc/motd")).toOption.any (cpLandsElsewhere sh tmp)

/-- in `/tmp`, `cp /etc/motd ""` returns 0, and the copy is in the root -/
theorem not_cpNamed_empty :
    ∃ sh F c, FsInv sh.fs [] F ∧ sh.fs.node sh.cwd = some c ∧ c.type = .dir ∧
      CpLine (lit "/etc/motd") [] ∧ ¬ CpNamed sh (lit "/etc/motd") [] := by
  obtain ⟨sh, h0, hi, _⟩ := boot_spec sampleImage (fun _ => 0) []
  obtain ⟨F, h⟩ := hi.files
  have heval : (boot sampleImage (fun _ => 0) []).toOption.any cpEmptyMisses = true := by
    decide +kernel
  obtain ⟨_, h0', heval⟩ := any_toOption.mp heval
  cases h0.symm.trans h0'
  obtain ⟨tmp, htmp, heval⟩ := any_toOption.mp heval
  obtain ⟨src, hsrc, heval⟩ := any_toOption.mp heval
  unfold cpLandsElsewhere at heval
  cases hcp : cmdCp { sh with cwd := tmp } [lit "/etc/motd", []] with
  | error e =>
    simp only [hcp] at heval
    cases heval
  | ok d =>
    cases hfile : cpFile sh.fs tmp src [] with
    | error e =>
      simp only [hcp, hfile] at heval
      cases heval
    | ok t =>
      simp only [hcp, hfile, Bool.and_eq_true, beq_iff_eq, bne_iff_ne, ne_eq] at heval
      obtain ⟨⟨hrc, htype⟩, hpar⟩ := heval
      obtain ⟨c, hc, hdir⟩ := Option.map_eq_some_iff.mp htype
      refine ⟨{ sh with cwd := tmp }, F, c, h, hc, hdir, by decide, ?_⟩
      rintro ⟨d', hd', hdone⟩
      rw [hcp] at hd'
      cases hd'
      rcases hdone with ⟨hrc', _⟩ | ⟨_, src', x, t', hsrc', _, _, ht', hland⟩
      · rw [hrc] at hrc'
        cases hrc'
      have hs : src' = src := Except.ok.inj (hsrc'.symm.trans hsrc)
      rw [hs] at ht'
      have ht : t' = t := Except.ok.inj (ht'.symm.trans hfile)
      obtain ⟨dst, n, hdst, hn, _, hchild, _⟩ := hland.place
      have hdst' : ramfsResolve sh.fs tmp [] = .ok tmp := by
        rw [ramfsResolve_eq sh.fs (h.tree.ne_zero hc)]
        rfl
      have hdt : dst = tmp := Except.ok.inj (hdst.symm.trans hdst')
      rw [hdt] at hchild
      rw [ht] at hn
      apply hpar
      rw [hn, Option.map_some]
      exact congrArg some (hchild ⟨c, hc, hdir⟩).1

end

end Raptor
