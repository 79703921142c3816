import RaptorKernel.Fs.Names

/-!
# ramfs_path

The ancestors of a node are collected bottom-up, at most 32 of them, and their names are appended
to a buffer top-down, each append cut to what the buffer holds.

* `ramfsPath_spec`     the text in the buffer: the last 32 names, cut to `len - 1` bytes;
* `path_inverse_iff`   it is the absolute path, and resolves to the node, exactly when the node is
                       at most 32 levels below the root or the two texts agree as far as they fit.
-/

namespace Raptor
open Forest Mem

/-! ## the function -/

/-- `for (n = node; n->parent && depth < 32; n = n->parent) chain[depth++] = n`, with room for `k`
more entries -/
def pathChain (s : Ramfs) : Nat → Nat → Except Fault (List Nat)
  | 0, n => (s.deref n).map fun _ => []
  | k+1, n => do
    let x ← s.deref n
    if x.parent ≠ 0 then (pathChain s k x.parent).map (n :: ·) else .ok []

/-- the loop that prints, over `chain[depth - 1]` down to `chain[0]` -/
def pathPrint (s : Ramfs) (buf len : Nat) : List Nat → Mem → Except Fault Mem
  | [], m => .ok m
  | a :: l, m => do
    let k ← strlen m buf
    let m := strlcpy m (buf + k) [slash] (sub32 len k)
    let k ← strlen m buf
    let n ← s.deref a
    let m := strlcpy m (buf + k) n.name (sub32 len k)
    pathPrint s buf len l m

def ramfsPath (s : Ramfs) (m : Mem) (node buf len : Nat) : Except Fault Mem := do
  let n ← s.deref node
  if n.parent = 0 then .ok (strlcpy m buf [slash] len)
  else do
    let chain ← pathChain s 32 node
    pathPrint s buf len chain.reverse (Function.update m buf 0)

/-! ## what it leaves in the buffer -/

/-- no name holds a NUL -/
def NulFree (s : Ramfs) : Prop := ∀ a n, s.node a = some n → 0 ∉ n.name

/-- the last `k` names -/
def lastNames (k : Nat) (p : List (List UInt8)) : List (List UInt8) := p.drop (p.length - k)

theorem lastNames_of_le {k : Nat} {p : List (List UInt8)} (h : p.length ≤ k) : lastNames k p = p := by
  unfold lastNames
  rw [Nat.sub_eq_zero_of_le h, List.drop_zero]

theorem take_append_take (t c : List UInt8) (n : Nat) :
    (t.take n ++ c).take n = (t ++ c).take n := by
  by_cases h : t.length ≤ n
  · rw [List.take_of_length_le h]
  · have h1 : (t.take n).length = n := by
      rw [List.length_take]
      omega
    rw [List.take_append_of_le_length (by omega), List.take_append_of_le_length (by omega),
      List.take_take, Nat.min_self]

section
variable {s : Ramfs} {F : Forest Nat}

theorem pathChain_spec (h : TreeInv s F) {a : Nat} {n : RamfsNode} (ha : s.node a = some n)
    {p : List (List UInt8)} (hp : PathTo s a p) (k : Nat) :
    ∃ l, pathChain s k a = .ok l ∧ (∀ x ∈ l, ∃ m, s.node x = some m) ∧
      l.reverse.map (fun x => (s.node x).map RamfsNode.name) = (lastNames k p).map some := by
  induction k generalizing a n p with
  | zero =>
    refine ⟨[], ?_, fun x hx => absurd hx (by simp), ?_⟩
    · unfold pathChain
      rw [Ramfs.deref_ok ha]
      rfl
    · unfold lastNames
      simp
  | succ k ih =>
    unfold pathChain
    rw [Ramfs.deref_ok ha]
    show ∃ l, (if n.parent ≠ 0 then (pathChain s k n.parent).map (a :: ·) else .ok []) = .ok l ∧ _
    cases hp with
    | root =>
      rw [if_neg (not_not.mpr ((h.parent_eq_zero_iff ha).mpr rfl))]
      exact ⟨[], rfl, fun x hx => absurd hx (by simp), by rw [lastNames_of_le (Nat.zero_le _)]; rfl⟩
    | child ha' hr hq =>
      rename_i n' q
      rw [ha] at ha'
      cases ha'
      obtain ⟨m, hm⟩ := h.parent_live ha hr
      obtain ⟨l, h1, h2, h3⟩ := ih hm hq
      rw [if_pos fun h0 => hr ((h.parent_eq_zero_iff ha).mp h0), h1]
      refine ⟨a :: l, rfl, fun x hx => ?_, ?_⟩
      · rcases List.mem_cons.mp hx with rfl | hx
        · exact ⟨n, ha⟩
        · exact h2 x hx
      · have e : lastNames (k + 1) (q ++ [n.name]) = lastNames k q ++ [n.name] := by
          unfold lastNames
          rw [List.length_append, List.length_singleton, Nat.add_sub_add_right,
            List.drop_append_of_le_length (Nat.sub_le _ _)]
        rw [List.reverse_cons, List.map_append, h3, e, List.map_append]
        simp [ha]

/-- one bounded append, with the text built so far cut to the buffer -/
theorem append_step {m : Mem} {buf len : Nat} {t : List UInt8} (h : HasStr m buf (t.take (len - 1)))
    (ht0 : 0 ∉ t) (h1 : 1 ≤ len) (h32 : len < 2^32) (c : List UInt8) :
    ∃ k, strlen m buf = .ok k ∧
      HasStr (strlcpy m (buf + k) c (sub32 len k)) buf ((t ++ c).take (len - 1)) ∧
      ∀ x, x < buf ∨ buf + len ≤ x → strlcpy m (buf + k) c (sub32 len k) x = m x := by
  have hlen : (t.take (len - 1)).length < len := by
    rw [List.length_take]
    omega
  have h0 : 0 ∉ t.take (len - 1) := fun hx => ht0 (List.mem_of_mem_take hx)
  refine ⟨_, strlen_spec h h0 (by omega), ?_⟩
  rw [sub32_eq (by omega) h32, ← take_append_take]
  exact strlcpy_append h hlen c

theorem pathPrint_spec (hz : NulFree s) {buf len : Nat} (h1 : 1 ≤ len) (h32 : len < 2^32)
    {l : List Nat} {ns : List (List UInt8)}
    (hl : l.map (fun x => (s.node x).map RamfsNode.name) = ns.map some) {m : Mem} {t : List UInt8}
    (h : HasStr m buf (t.take (len - 1))) (ht0 : 0 ∉ t) :
    ∃ m', pathPrint s buf len l m = .ok m' ∧
      HasStr m' buf ((t ++ ns.flatMap (slash :: ·)).take (len - 1)) ∧
      ∀ x, x < buf ∨ buf + len ≤ x → m' x = m x := by
  induction l generalizing ns m t with
  | nil =>
    cases ns with
    | nil =>
      rw [List.flatMap_nil, List.append_nil]
      exact ⟨m, rfl, h, fun _ _ => rfl⟩
    | cons c ns => cases hl
  | cons a l ih =>
    cases ns with
    | nil => cases hl
    | cons c ns =>
      rw [List.map_cons, List.map_cons] at hl
      obtain ⟨hc, hl'⟩ := List.cons.inj hl
      cases hn : s.node a with
      | none =>
        rw [hn] at hc
        cases hc
      | some n =>
        rw [hn] at hc
        have hname : n.name = c := Option.some.inj hc
        have hc0 : 0 ∉ c := hname ▸ hz a n hn
        obtain ⟨k1, e1, s1, f1⟩ := append_step h ht0 h1 h32 [slash]
        have ht1 : 0 ∉ t ++ [slash] := by
          simp only [List.mem_append, List.mem_singleton, not_or]
          exact ⟨ht0, by decide⟩
        obtain ⟨k2, e2, s2, f2⟩ := append_step s1 ht1 h1 h32 c
        have ht2 : 0 ∉ t ++ [slash] ++ c := by
          simp only [List.mem_append, not_or] at ht1 ⊢
          exact ⟨ht1, hc0⟩
        obtain ⟨m', e3, s3, f3⟩ := ih hl' s2 ht2
        refine ⟨m', ?_, ?_, fun x hx => (f3 x hx).trans ((f2 x hx).trans (f1 x hx))⟩
        · unfold pathPrint
          rw [e1]
          show (strlen _ buf >>= _) = _
          rw [e2]
          show (s.deref a >>= _) = _
          rw [Ramfs.deref_ok hn, ← hname] at *
          exact e3
        · rw [List.flatMap_cons]
          simpa using s3

/-- what `ramfs_path` leaves in the buffer -/
theorem ramfsPath_spec (h : TreeInv s F) (hz : NulFree s) {a : Nat} {n : RamfsNode}
    (ha : s.node a = some n) {p : List (List UInt8)} (hp : PathTo s a p) (m : Mem) (buf : Nat) {len : Nat}
    (h1 : 1 ≤ len) (h32 : len < 2^32) :
    ∃ m', ramfsPath s m a buf len = .ok m' ∧
      HasStr m' buf ((absPath (lastNames 32 p)).take (len - 1)) ∧
      ∀ x, x < buf ∨ buf + len ≤ x → m' x = m x := by
  unfold ramfsPath
  rw [Ramfs.deref_ok ha]
  show ∃ m', (if n.parent = 0 then Except.ok (strlcpy m buf [slash] len) else
    pathChain s 32 a >>= _) = _ ∧ _
  by_cases h0 : n.parent = 0
  · have hr := (h.parent_eq_zero_iff ha).mp h0
    subst hr
    have hp0 : p = [] := hp.unique .root
    subst hp0
    rw [if_pos h0]
    exact ⟨_, rfl, strlcpy_spec m buf [slash] h1⟩
  · rw [if_neg h0]
    obtain ⟨l, e1, _, e3⟩ := pathChain_spec h ha hp 32
    rw [e1]
    have hstart : HasStr (Function.update m buf 0) buf (([] : List UInt8).take (len - 1)) := by
      rw [List.take_nil]
      exact ⟨rfl, Function.update_self _ _ _⟩
    obtain ⟨m', e4, e5, e6⟩ := pathPrint_spec hz h1 h32 e3 hstart (by simp)
    refine ⟨m', e4, ?_, fun x hx => (e6 x hx).trans (Function.update_of_ne (by omega) _ _)⟩
    have hne : lastNames 32 p ≠ [] := by
      cases hp with
      | root => exact absurd ((h.parent_eq_zero_iff ha).mpr rfl) h0
      | child _ _ _ =>
        intro e
        have := congrArg List.length e
        unfold lastNames at this
        rw [List.length_drop, List.length_append, List.length_singleton, List.length_nil] at this
        omega
    unfold absPath
    rw [if_neg hne]
    exact e5

end

/-! ## names along runs -/

def FsOp.isMove : FsOp → Bool
  | .move .. => true
  | _ => false

def FsOp.isCreateDelete : FsOp → Bool
  | .create .. => true
  | .delete .. => true
  | _ => false

theorem isMove_of_isCreateDelete {op : FsOp} (h : op.isCreateDelete = true) : op.isMove = false := by
  cases op with
  | move _ _ _ => cases h
  | _ => rfl

section
variable {s t : Ramfs} {held : List Nat} {F : Forest Nat}

theorem NulFree.create (hz : NulFree s) {path : List UInt8} (h0 : 0 ∉ path) {w : WalkOut}
    (hok : WalkOk s (components path) w) (hp : w.parent ≠ 0) {r : Nat} {ty : RamfsType}
    (hc : Created s t r w.parent w.name ty) : NulFree t := by
  intro a n ha
  by_cases har : a = r
  · subst har
    obtain ⟨_, _, _, _, hlast, _⟩ := hok.parent hp
    have h1 := hc.self_plain
    rw [ha] at h1
    have h2 : n.name = w.name := congrArg RamfsNode.name (Option.some.inj h1)
    rw [h2]
    exact fun hx => h0 ((fields_mem (List.mem_of_getLast? hlast)).2.2.subset hx)
  · obtain ⟨m, hm, e⟩ := plain_some (hc.other_plain har) ha
    rw [plain_name e]
    exact hz a m hm

/-- no call puts a NUL into a name -/
theorem NulFree.step (h : FsInv s held F) (hz : NulFree s) {op : FsOp} (hl : fsLegal s op)
    (hs : fsStep s op = .ok t) : NulFree t := by
  cases fsStep_effect h hl hs with
  | none e => exact e ▸ hz
  | @created _ _ _ path _ _ hok _ hp hc => exact hz.create path.nulFree hok hp hc
  | @written _ _ file _ hw =>
    intro a n ha
    by_cases haf : a = file
    · subst haf
      obtain ⟨g, d, c, hg, e⟩ := hw.self
      rw [e] at ha
      cases ha
      exact hz a g hg
    · rw [hw.other a haf] at ha
      exact hz a n ha
  | @deleted node _ hd =>
    intro a n ha
    by_cases hb : Below s node a
    · rw [hd.gone a hb] at ha
      cases ha
    · obtain ⟨k, hk, e⟩ := plain_some (hd.other a hb) ha
      rw [plain_name e]
      exact hz a k hk
  | @moved node _ newName hm =>
    intro a n ha
    by_cases han : a = node
    · subst han
      have h1 := hm.self
      rw [ha] at h1
      cases hk : s.node a with
      | none =>
        rw [hk] at h1
        cases h1
      | some k =>
        rw [hk] at h1
        have h2 : n.name = clip ramfsNameMax newName.bytes :=
          congrArg RamfsNode.name (Option.some.inj h1)
        rw [h2]
        exact fun h0 => newName.nulFree (List.mem_of_mem_take h0)
    · obtain ⟨k, hk, e⟩ := plain_some (hm.other a han) ha
      rw [plain_name e]
      exact hz a k hk

theorem nulFree_of_run {ops : List FsOp} (r : fsMachine.Run s ops t) (h : FsInv s held F)
    (hz : NulFree s) : NulFree t := by
  induction r with
  | nil => exact hz
  | snoc r hl hs ih =>
    obtain ⟨_, h1⟩ := (fs_safe held).run_inv r ⟨F, h⟩
    exact ih.step h1 hl hs

/-- calls other than `ramfs_move` keep names unique and resolvable -/
theorem names_step (h : FsInv s held F) (hn : NamesInv s) {op : FsOp} (hop : op.isMove = false)
    (hl : fsLegal s op) (hs : fsStep s op = .ok t) : NamesInv t := by
  cases fsStep_effect h hl hs with
  | none e => exact e ▸ hn
  | created hok h0 hp hc => exact hn.create h hok h0 hp hc
  | written hw => exact hn.write hw
  | deleted hd => exact hn.delete hd
  | moved hm => cases hop

theorem names_of_run {ops : List FsOp} (r : fsMachine.Run s ops t)
    (hops : ∀ op ∈ ops, op.isMove = false) (h : FsInv s held F) (hn : NamesInv s) : NamesInv t := by
  induction r with
  | nil => exact hn
  | snoc r hl hs ih =>
    obtain ⟨_, h1⟩ := (fs_safe held).run_inv r ⟨F, h⟩
    exact names_step h1 (ih fun op hop => hops op (List.mem_append_left _ hop))
      (hops _ (List.mem_append_right _ (List.mem_singleton_self _))) hl hs

end

theorem rootState_nulFree (H : Heap) (m : Mem) : NulFree (rootState H m) := by
  intro a n ha
  by_cases har : a = (rootState H m).root
  · have h1 : (rootState H m).node (rootState H m).root = some ⟨[], .dir, 0, 0, 0, 0, 0, 0⟩ :=
      Ramfs.set_node_self _ _ _
    rw [har, h1] at ha
    cases ha
    simp
  · have h1 : (rootState H m).node a = none := Ramfs.set_node_ne _ _ har
    rw [h1] at ha
    cases ha

/-- after `ramfs_init` and calls other than `ramfs_move` -/
theorem names_after_init {deny : Nat → Bool} {H : Heap} {m : Mem}
    (h0 : (H.kmalloc sizeofRamfsNode).1 ≠ 0) {s0 s : Ramfs} (hs0 : ramfsInit deny H m = .ok s0)
    {ops : List FsOp} (r : fsMachine.Run s0 ops s) (hops : ∀ op ∈ ops, op.isMove = false) :
    (∃ F, FsInv s H.ptrs F) ∧ NamesInv s ∧ NulFree s := by
  obtain ⟨ops0, s1, h1, h2, h3⟩ := ramfsInit_run deny m h0
  rw [hs0] at h1
  cases h1
  have hroot := rootState_inv m h0
  refine ⟨(fs_safe _).run_inv (h2.append r) ⟨_, hroot⟩,
    names_of_run (h2.append r) (fun op hop => ?_) hroot (rootState_names H m),
    nulFree_of_run (h2.append r) hroot (rootState_nulFree H m)⟩
  rcases List.mem_append.mp hop with hop | hop
  · have h4 := h3 op hop
    cases op with
    | move _ _ _ => cases h4
    | _ => rfl
  · exact hops op hop

/-! ## path and resolution -/

/-- The buffer is NUL-terminated within its `len` bytes and nothing else is written; it holds the
absolute path if that fits, which then resolves to the node, and its first `len - 1` bytes
otherwise. -/
def PathSpec (s : Ramfs) (a : Nat) (p : List (List UInt8)) (m : Mem) (buf len : Nat) : Prop :=
  ∃ m', ramfsPath s m a buf len = .ok m' ∧ (∀ x, x < buf ∨ buf + len ≤ x → m' x = m x) ∧
    (∃ i < len, m' (buf + i) = 0) ∧
    ((absPath p).length < len →
      HasStr m' buf (absPath p) ∧ ∀ cwd, ramfsResolve s cwd (absPath p) = .ok a) ∧
    (len ≤ (absPath p).length → HasStr m' buf ((absPath p).take (len - 1)))

/-- the tree after boot, and one of its directories -/
theorem boot_tmp :
    ∃ s0 F a n, ramfsInit (fun _ => false) (Heap.init sampleImage) (fun _ => 0) = .ok s0 ∧
      FsInv s0 [] F ∧ NamesInv s0 ∧ ramfsResolve s0 s0.root (lit "/tmp") = .ok a ∧
      s0.node a = some n ∧ a ≠ s0.root := by
  obtain ⟨_, s0, h0, _⟩ :=
    ramfsInit_run (fun _ => false) (fun _ => 0) (init_root_ne_zero sampleImage)
  obtain ⟨⟨F, h⟩, hn, _⟩ := names_after_init (init_root_ne_zero sampleImage) h0 .nil
    fun op hop => absurd hop (by simp)
  rw [Heap.init_ptrs] at h
  obtain ⟨r, hr, _⟩ := h.tree.rootDir
  obtain ⟨a, ha, hlive⟩ := ramfsResolve_spec h.tree h.bound' hr (lit "/tmp")
  have heval : (match ramfsInit (fun _ => false) (Heap.init sampleImage) (fun _ => 0) with
      | .error _ => false
      | .ok s0 => match ramfsResolve s0 s0.root (lit "/tmp") with
        | .error _ => false
        | .ok a => a != 0 && a != s0.root) = true := by decide +kernel
  rw [h0] at heval
  simp only [ha, Bool.and_eq_true, bne_iff_ne, ne_eq] at heval
  obtain ⟨n, hn'⟩ := hlive heval.1
  exact ⟨s0, F, a, n, h0, h, hn, ha, hn', heval.2⟩


theorem nulFree_absPath {p : List (List UInt8)} (hp : ∀ c ∈ p, 0 ∉ c) : 0 ∉ absPath p := by
  have hs : (0 : UInt8) ≠ slash := by decide
  unfold absPath
  split
  · simp [hs]
  · intro h
    obtain ⟨c, hc, h1⟩ := List.mem_flatMap.mp h
    exact (List.mem_cons.mp h1).elim hs fun h2 => hp c hc h2

theorem PathTo.nulFree {s : Ramfs} (hz : NulFree s) {a : Nat} {p : List (List UInt8)}
    (hp : PathTo s a p) : ∀ c ∈ p, 0 ∉ c := by
  induction hp with
  | root => exact fun c hc => absurd hc (by simp)
  | child ha _ _ ih =>
    intro c hc
    rcases List.mem_append.mp hc with hc | hc
    · exact ih c hc
    · rw [List.mem_singleton.mp hc]
      exact hz _ _ ha

/-- leaving names out makes the text shorter -/
theorem absPath_lastNames_lt {p : List (List UInt8)} {k : Nat} (hk : 0 < k) (h : k < p.length) :
    (absPath (lastNames k p)).length < (absPath p).length := by
  have hlen : (lastNames k p).length = k := by
    unfold lastNames
    rw [List.length_drop]
    omega
  have h1 : lastNames k p ≠ [] := by
    intro e
    rw [e] at hlen
    exact absurd hlen (by simp only [List.length_nil]; omega)
  have h2 : p ≠ [] := by
    intro e
    rw [e] at h
    exact absurd h (by simp)
  have hsplit : p.take (p.length - k) ++ lastNames k p = p := List.take_append_drop _ p
  obtain ⟨c, q, hq⟩ := List.exists_cons_of_ne_nil
    (show p.take (p.length - k) ≠ [] from fun e => by
      have := congrArg List.length e
      rw [List.length_take, List.length_nil] at this
      omega)
  unfold absPath
  rw [if_neg h1, if_neg h2]
  conv_rhs => rw [← hsplit, hq]
  rw [List.flatMap_append, List.flatMap_cons]
  simp only [List.length_append, List.length_cons]
  omega

/-- when `ramfs_path` does what it should, for one node and one buffer -/
theorem pathSpec_iff {s : Ramfs} {held : List Nat} {F : Forest Nat} (h : FsInv s held F)
    (hn : NamesInv s) (hz : NulFree s) {a : Nat} {n : RamfsNode} (ha : s.node a = some n)
    {p : List (List UInt8)} (hp : PathTo s a p) (m : Mem) (buf : Nat) {len : Nat} (h1 : 1 ≤ len)
    (h32 : len < 2^32) :
    PathSpec s a p m buf len ↔ p.length ≤ 32 ∨
      (absPath p).take (len - 1) = (absPath (lastNames 32 p)).take (len - 1) := by
  obtain ⟨m', e1, e2, e3⟩ := ramfsPath_spec h.tree hz ha hp m buf h1 h32
  have hz1 : 0 ∉ absPath p := nulFree_absPath (hp.nulFree hz)
  have hz2 : 0 ∉ absPath (lastNames 32 p) :=
    nulFree_absPath fun c hc => hp.nulFree hz c (List.mem_of_mem_drop hc)
  have hcut : ∀ t : List UInt8, 0 ∉ t → 0 ∉ t.take (len - 1) :=
    fun t ht hx => ht (List.mem_of_mem_take hx)
  have hterm : ∃ i < len, m' (buf + i) = 0 := by
    refine ⟨_, ?_, e2.2⟩
    rw [List.length_take]
    omega
  constructor
  · rintro ⟨m'', k1, _, _, k4, k5⟩
    rw [e1] at k1
    cases k1
    by_cases hp32 : p.length ≤ 32
    · exact .inl hp32
    · refine .inr ?_
      by_cases hfit : (absPath p).length < len
      · have h2 := (k4 hfit).1.unique e2 hz1 (hcut _ hz2)
        rw [← h2, List.take_of_length_le (by omega)]
      · exact (k5 (not_lt.mp hfit)).unique e2 (hcut _ hz1) (hcut _ hz2)
  · intro hcond
    have hsame : (absPath p).take (len - 1) = (absPath (lastNames 32 p)).take (len - 1) := by
      rcases hcond with h2 | h2
      · rw [lastNames_of_le h2]
      · exact h2
    rw [← hsame] at e2
    refine ⟨m', e1, e3, hterm, fun hfit => ⟨?_, resolve_absPath h hn hp⟩, fun _ => e2⟩
    rw [List.take_of_length_le (by omega)] at e2
    exact e2

/-- deeper than 32 levels, no buffer that could hold the path holds it -/
theorem not_pathSpec_of_deep {s : Ramfs} {held : List Nat} {F : Forest Nat} (h : FsInv s held F)
    (hn : NamesInv s) (hz : NulFree s) {a : Nat} {p : List (List UInt8)} (hp : PathTo s a p)
    (hdeep : 32 < p.length) (m : Mem) (buf : Nat) {len : Nat} (hfit : (absPath p).length < len)
    (h32 : len < 2^32) : ¬ PathSpec s a p m buf len := by
  obtain ⟨n, ha⟩ := hp.live h.tree
  have hshort := absPath_lastNames_lt (by decide : 0 < 32) hdeep
  rw [pathSpec_iff h hn hz ha hp m buf (by omega) h32]
  rintro (h1 | h1)
  · omega
  · rw [List.take_of_length_le (by omega), List.take_of_length_le (by omega)] at h1
    rw [← h1] at hshort
    omega

/-- In every tree made by `ramfs_init`, `ramfs_create` and `ramfs_delete`, `ramfs_path` does what
it should for a node and a buffer length exactly when the node is at most 32 levels below the
root, or what the buffer can hold of its path is also what it can hold of its last 32 names. -/
theorem path_inverse_iff {img : Image} {m0 : Mem} {deny : Nat → Bool} {s0 s : Ramfs}
    (hs0 : ramfsInit deny (Heap.init img) m0 = .ok s0) {ops : List FsOp}
    (r : fsMachine.Run s0 ops s) (hops : ∀ op ∈ ops, op.isCreateDelete = true) {a : Nat}
    {n : RamfsNode} (ha : s.node a = some n) :
    ∃ p, PathTo s a p ∧ ∀ m buf len, 1 ≤ len → len < 2^32 →
      (PathSpec s a p m buf len ↔ p.length ≤ 32 ∨
        (absPath p).take (len - 1) = (absPath (lastNames 32 p)).take (len - 1)) := by
  obtain ⟨⟨F, h⟩, hn, hz⟩ := names_after_init (init_root_ne_zero img) hs0 r
    fun op hop => isMove_of_isCreateDelete (hops op hop)
  obtain ⟨p, hp⟩ := exists_pathTo h.tree ha
  exact ⟨p, hp, fun m buf len h1 h32 => pathSpec_iff h hn hz ha hp m buf h1 h32⟩

/-- directories `/a`, `/a/a`, and so on -/
def nestedDirs (k : Nat) : List FsOp :=
  (List.range k).map fun i => .create false 0
    ⟨absPath (List.replicate (i + 1) [0x61]), nulFree_absPath fun c hc => by
      rw [List.eq_of_mem_replicate hc]
      decide⟩ .dir

/-- the calls after boot succeed, and the innermost directory is found -/
def nestedTest (k : Nat) : Bool :=
  (ramfsInit (fun _ => false) (Heap.init sampleImage) (fun _ => 0)).toOption.any fun s0 =>
    (fsMachine.exec s0 (nestedDirs k)).toOption.any fun s =>
      (follow s s.root (List.replicate k [0x61])).toOption.any (· != 0)

theorem nestedDirs_isCreateDelete {k : Nat} : ∀ op ∈ nestedDirs k, op.isCreateDelete = true := by
  intro op hop
  obtain ⟨i, _, rfl⟩ := List.mem_map.mp hop
  rfl

/-- A tree with `k` directories in one another. -/
theorem exists_nested {k : Nat} (ht : nestedTest k = true) :
    ∃ s0 s a F, ramfsInit (fun _ => false) (Heap.init sampleImage) (fun _ => 0) = .ok s0 ∧
      fsMachine.Run s0 (nestedDirs k) s ∧ FsInv s [] F ∧ NamesInv s ∧ NulFree s ∧
      PathTo s a (List.replicate k [0x61]) := by
  obtain ⟨s0, h0, ht⟩ := any_toOption.mp ht
  obtain ⟨s, hs, ht⟩ := any_toOption.mp ht
  obtain ⟨a, ha, ha0⟩ := any_toOption.mp ht
  have hlegal : ∀ u : Ramfs, ∀ op ∈ nestedDirs k, fsLegal u op := by
    intro u op hop
    obtain ⟨i, _, rfl⟩ := List.mem_map.mp hop
    exact .inl rfl
  have r := Machine.Run.of_exec hlegal hs
  obtain ⟨⟨F, h⟩, hn, hz⟩ := names_after_init (init_root_ne_zero sampleImage) h0 r
    fun op hop => isMove_of_isCreateDelete (nestedDirs_isCreateDelete op hop)
  have hname : ∀ c ∈ List.replicate k [(0x61 : UInt8)], NameOk c := by
    intro c hc
    rw [List.eq_of_mem_replicate hc]
    exact ⟨by decide, by decide, by decide, by decide, by decide⟩
  exact ⟨s0, s, a, F, h0, r, h, hn, hz, pathTo_of_follow h hname ha (bne_iff_ne.mp ha0)⟩

/-- `/a/a/a`, in a buffer that cannot hold all of it -/
theorem path_inverse_iff_nested :
    ∃ s0 s a p, ramfsInit (fun _ => false) (Heap.init sampleImage) (fun _ => 0) = .ok s0 ∧
      fsMachine.Run s0 (nestedDirs 3) s ∧ PathTo s a (List.replicate 3 [0x61]) ∧ PathTo s a p ∧
      (PathSpec s a p (fun _ => 0) 4096 6 ↔ p.length ≤ 32 ∨
        (absPath p).take 5 = (absPath (lastNames 32 p)).take 5) := by
  obtain ⟨s0, s, a, F, h0, r, h, _, _, ha⟩ := exists_nested (by decide +kernel : nestedTest 3 = true)
  obtain ⟨n, hn⟩ := ha.live h.tree
  obtain ⟨p, hp, h1⟩ := path_inverse_iff h0 r nestedDirs_isCreateDelete hn
  exact ⟨s0, s, a, p, h0, r, ha, hp, h1 (fun _ => 0) 4096 6 (by decide) (by decide)⟩

/-- 33 nested directories: the path of the innermost is built without its first name -/
theorem path_wrong_at_depth_33 :
    ∃ s0 s a p, ramfsInit (fun _ => false) (Heap.init sampleImage) (fun _ => 0) = .ok s0 ∧
      fsMachine.Run s0 (nestedDirs 33) s ∧ (∀ op ∈ nestedDirs 33, op.isCreateDelete = true) ∧
      (∃ n, s.node a = some n) ∧ p = List.replicate 33 [0x61] ∧ PathTo s a p ∧
      ¬ PathSpec s a p (fun _ => 0) 4096 256 := by
  obtain ⟨s0, s, a, F, h0, r, h, hn, hz, hp⟩ :=
    exists_nested (by decide +kernel : nestedTest 33 = true)
  exact ⟨s0, s, a, _, h0, r, nestedDirs_isCreateDelete, hp.live h.tree, rfl, hp,
    not_pathSpec_of_deep h hn hz hp (by decide) _ _ (by decide) (by decide)⟩

end Raptor
