import RaptorKernel.Fs.Move

/-!
# File contents follow the write history

A file that starts empty is written to any number of times, with anything going on beside it, and
every allocation may fail.  `FileRun` records the calls; its machine allows, between them, every
change of the file system that leaves the file alone (`Beside`), and `fsStep_beside` says that the
other calls of the interface are such changes.

* `ramfsWriteFrom`    `ramfs_write` with the data read through its pointer, when the code reads it;
* `ramfsWriteFrom_eq`   the bytes it reads are those that were there when it was called;
* `written`           what the recorded calls amount to;
* `file_follows_history`   what holds of the file after every run.
-/

namespace Raptor
open Forest Mem

/-! ## the data pointer -/

/-- `ramfs_write(file, src, len, append)`: the `len` bytes at `src` are read last, after the buffer
has grown -/
def ramfsWriteFrom (deny : Bool) (s : Ramfs) (file src len : Nat) (append : Bool) :
    Except Fault (Bool × Ramfs) :=
  if file = 0 then .ok (false, s)
  else do
    let f ← s.deref file
    if f.type ≠ .file then .ok (false, s)
    else
      let base := if append then f.size else 0
      let needed := add32 base len
      if f.capacity < needed then do
        let newcap ← growLoop needed 64 (if f.capacity ≠ 0 then f.capacity else 64)
        let (buf, s) := s.kmalloc deny newcap
        if buf = 0 then .ok (false, s)
        else do
          let s := { s with bytes := blit s.bytes buf (slice s.bytes f.data base) }
          let s ← s.kfree f.data
          let s := s.set file { f with data := buf, capacity := newcap, size := add32 base len }
          .ok (true, { s with bytes := blit s.bytes (add32 buf base) (slice s.bytes src len) })
      else
        let s := s.set file { f with size := add32 base len }
        .ok (true, { s with bytes := blit s.bytes (add32 f.data base) (slice s.bytes src len) })

section
variable {s t : Ramfs} {held : List Nat} {F : Forest Nat} {file : Nat} {f : RamfsNode}

theorem Ramfs.kfree_bytes {p : Nat} (h : s.kfree p = .ok t) : t.bytes = s.bytes := by
  obtain ⟨H, _, e⟩ := map_eq_ok.mp h
  rw [← e]

/-- The data is not in the way of the copy into a new buffer: a call that appends does not read from
memory that is handed out, and one that does not append copies nothing. -/
theorem ramfsWriteFrom_eq (h : FsInv s held F) (hf : s.node file = some f) {src len : Nat}
    (hlen : len ≤ heapSize) {append : Bool} (hsrc : append = true → s.heap.Stable src len)
    (deny : Bool) :
    ramfsWriteFrom deny s file src len append =
      ramfsWrite deny s file (slice s.bytes src len) append := by
  have hs : heapSize = 4194304 := rfl
  have hcap := h.capacity_le hf
  have hsize := (h.nodes file f hf).room
  unfold ramfsWriteFrom ramfsWrite
  rw [slice_length, Ramfs.deref_ok hf, ok_bind, ok_bind]
  dsimp only
  generalize hbase : (if append = true then f.size else 0) = base
  have hle : base ≤ f.size := by
    rw [← hbase]
    split <;> omega
  have hneeded : add32 base len = base + len := add32_eq (by omega)
  rw [hneeded]
  obtain ⟨k, hg, hn1, hn2⟩ := growLoop_start hcap (show base + len ≤ 2^24 by omega)
  have hg' : growLoop (base + len) 64 (if f.capacity ≠ 0 then f.capacity else 64) =
    .ok (startCap f * 2^k) := hg
  rw [hg', ok_bind, ok_bind]
  rcases Ramfs.kmalloc_cases deny s (startCap f * 2^k) with e | ⟨buf, H', hk, hbuf, e⟩
  · rw [e]
    rfl
  rw [e]
  dsimp only
  -- the bytes at `src` after the copy
  have hread : slice (blit s.bytes buf (slice s.bytes f.data base)) src len =
      slice s.bytes src len := by
    cases append with
    | false =>
      have h0 : base = 0 := hbase.symm
      have hnil : slice s.bytes f.data 0 = [] := rfl
      rw [h0, hnil, blit_nil]
    | true =>
      apply slice_blit_ne
      rw [slice_length]
      have hal := le_alignUp_eight (show startCap f * 2^k ≤ 2^31 by omega)
      have hapart := Heap.kmalloc_apart hk hbuf (hsrc rfl)
      omega
  cases hkf : Ramfs.kfree { s with
      heap := H', bytes := blit s.bytes buf (slice s.bytes f.data base) } f.data with
  | error e => rfl
  | ok s1 =>
    have hb1 := Ramfs.kfree_bytes hkf
    rw [ok_bind, ok_bind]
    have hset : ∀ m : RamfsNode, (s1.set file m).bytes = s1.bytes := fun _ => rfl
    rw [hset, hb1, hread]
    rfl

/-! ## what is on record -/

structure WriteRecord where
  data : List UInt8
  append : Bool
  ok : Bool

/-- the records from the last one on that replaces; all of them if none does -/
def sinceReplaced : List WriteRecord → List WriteRecord
  | [] => []
  | e :: l => if l.any (fun d => !d.append) then sinceReplaced l else e :: l

/-- the data of the successful calls since the last successful one that replaces -/
def written (log : List WriteRecord) : List UInt8 :=
  (sinceReplaced (log.filter WriteRecord.ok)).flatMap WriteRecord.data

theorem sinceReplaced_concat (l : List WriteRecord) (e : WriteRecord) :
    sinceReplaced (l ++ [e]) = if e.append then sinceReplaced l ++ [e] else [e] := by
  induction l with
  | nil => cases he : e.append <;> simp [sinceReplaced]
  | cons d l ih =>
    rw [List.cons_append]
    unfold sinceReplaced
    rw [List.any_append, ih]
    cases he : e.append with
    | false => simp [he]
    | true =>
      cases l.any fun d => !d.append <;> simp [he]

theorem written_concat (l : List WriteRecord) (e : WriteRecord) :
    written (l ++ [e]) =
      if e.ok then (if e.append then written l else []) ++ e.data else written l := by
  unfold written
  rw [List.filter_append]
  cases ho : e.ok with
  | false => simp [ho]
  | true =>
    have h1 : [e].filter WriteRecord.ok = [e] := by simp [ho]
    rw [h1, sinceReplaced_concat]
    cases e.append <;> simp

/-! ## a file and what goes on beside it -/

/-- a change of the file system that leaves the file alone -/
structure Beside (s t : Ramfs) (file : Nat) : Prop where
  inv : ∃ held F, FsInv t held F
  node : (t.node file).map (fun n => (n.type, n.data, n.size, n.capacity)) =
    (s.node file).map fun n => (n.type, n.data, n.size, n.capacity)
  contents : t.contents file = s.contents file

/-- the calls that neither write to the file nor delete it -/
def FsOp.spares (s : Ramfs) (file : Nat) : FsOp → Prop
  | .write _ f _ _ => f ≠ file
  | .delete node _ => ¬ Below s node file
  | _ => True

theorem Beside.of_plain (hinv : ∃ held F, FsInv t held F) (hb : t.bytes = s.bytes)
    (hp : (t.node file).map RamfsNode.plain = (s.node file).map RamfsNode.plain) :
    Beside s t file := by
  refine ⟨hinv, ?_, Ramfs.contents_plain hb hp⟩
  have h1 := congrArg (Option.map fun n : RamfsNode => (n.type, n.data, n.size, n.capacity)) hp
  rw [Option.map_map, Option.map_map] at h1
  exact h1

/-- the other calls of the interface are such changes -/
theorem fsStep_beside (h : FsInv s held F) (hf : s.node file = some f) {op : FsOp}
    (hl : fsLegal s op) (hop : op.spares s file) (hs : fsStep s op = .ok t) : Beside s t file := by
  have hinv : ∃ held F, FsInv t held F := ⟨held, (fs_safe held).step_inv ⟨F, h⟩ hl hs⟩
  cases op with
  | write deny g data append =>
    obtain ⟨rfl | ⟨m, hm⟩, hlen⟩ := hl
    · cases hs
      exact .of_plain hinv rfl rfl
    obtain ⟨b, s', h1, h2, h3, h4⟩ := ramfsWrite_effect h hm hlen deny append
    have hs' : (ramfsWrite deny s g data append).map Prod.snd = .ok t := hs
    rw [h1] at hs'
    cases hs'
    cases b with
    | false =>
      rw [h3 rfl]
      exact .of_plain ⟨held, F, h⟩ rfl rfl
    | true =>
      obtain ⟨_, hw, hbuf⟩ := h4 rfl
      have hne : file ≠ g := fun e => hop e.symm
      obtain ⟨_, g', _, hg', _⟩ := hbuf.capacity
      refine ⟨hinv, ?_, Ramfs.contents_other h2 hg' (hw.other file hne) hne (hbuf.bytes g' hg')⟩
      rw [hw.other file hne]
  | create deny cwd path ty =>
    cases fsStep_effect h hl hs with
    | none e =>
      rw [e]
      exact .of_plain ⟨held, F, h⟩ rfl rfl
    | created _ _ _ hc =>
      refine .of_plain hinv hc.bytes (hc.other_plain ?_)
      rintro rfl
      rw [hc.fresh] at hf
      cases hf
  | delete node recursive =>
    cases fsStep_effect h hl hs with
    | none e =>
      rw [e]
      exact .of_plain ⟨held, F, h⟩ rfl rfl
    | deleted hd => exact .of_plain hinv hd.bytes (hd.other file hop)
  | move node newParent newName =>
    cases fsStep_effect h hl hs with
    | none e =>
      rw [e]
      exact .of_plain ⟨held, F, h⟩ rfl rfl
    | moved hm =>
      refine ⟨hinv, ?_, hm.contents file⟩
      by_cases hfa : file = node
      · have h1 := congrArg
          (Option.map fun n : RamfsNode => (n.type, n.data, n.size, n.capacity)) hm.self
        rw [Option.map_map, Option.map_map, ← hfa] at h1
        exact h1
      · have h1 := congrArg
          (Option.map fun n : RamfsNode => (n.type, n.data, n.size, n.capacity)) (hm.other file hfa)
        rw [Option.map_map, Option.map_map] at h1
        exact h1

end

/-! ## runs -/

structure FileRun where
  fs : Ramfs
  log : List WriteRecord

inductive FileOp where
  | write (deny : Bool) (src len : Nat) (append : Bool)
  | beside (t : Ramfs)

def fileStep (file : Nat) (s : FileRun) : FileOp → Except Fault FileRun
  | .write deny src len append =>
    (ramfsWriteFrom deny s.fs file src len append).map fun (ok, t) =>
      ⟨t, s.log ++ [⟨slice s.fs.bytes src len, append, ok⟩]⟩
  | .beside t => .ok ⟨t, s.log⟩

/-- The data is the file's own contents, written over themselves, or lies in memory that is nobody's
to hand out and outside the file's buffer. -/
def fileLegal (file : Nat) (s : FileRun) : FileOp → Prop
  | .write _ src len append => len ≤ heapSize ∧ ∃ f, s.fs.node file = some f ∧
      ((append = false ∧ src = f.data ∧ len = f.size) ∨
        (s.fs.heap.Stable src len ∧ (src + len ≤ f.data ∨ f.data + f.capacity ≤ src)))
  | .beside t => Beside s.fs t file

def fileMachine (file : Nat) : Machine FileRun FileOp Fault := ⟨fileStep file, fileLegal file⟩

structure FileInv (file : Nat) (s : FileRun) : Prop where
  fs : ∃ held F, FsInv s.fs held F
  node : ∃ f, s.fs.node file = some f ∧ f.type = .file ∧
    (f.capacity = 0 ∨ ∃ k, f.capacity = 64 * 2^k)
  contents : s.fs.contents file = written s.log

section
variable {file src len : Nat} {s : FileRun} {deny append : Bool}

/-- a call on record is a call with the bytes it finds -/
theorem fileLegal_write {held : List Nat} {F : Forest Nat} (h : FsInv s.fs held F)
    (hl : fileLegal file s (.write deny src len append)) :
    ramfsWriteFrom deny s.fs file src len append =
      ramfsWrite deny s.fs file (slice s.fs.bytes src len) append := by
  obtain ⟨hlen, f, hf, hsrc⟩ := hl
  refine ramfsWriteFrom_eq h hf hlen (fun ha => ?_) deny
  rcases hsrc with ⟨ha', _⟩ | ⟨hst, _⟩
  · rw [ha] at ha'
    cases ha'
  · exact hst

/-- one call -/
theorem fileInv_write {t : FileRun} (h : FileInv file s)
    (hl : fileLegal file s (.write deny src len append))
    (hs : fileStep file s (.write deny src len append) = .ok t) : FileInv file t := by
  obtain ⟨held, F, hfs⟩ := h.fs
  obtain ⟨f, hf, hty, hcap⟩ := h.node
  have hlen : (slice s.fs.bytes src len).length ≤ heapSize := by
    rw [slice_length]
    exact hl.1
  obtain ⟨b, s', h1, h2, h3, h4⟩ := ramfsWrite_effect hfs hf hlen deny append
  have hs' : (ramfsWriteFrom deny s.fs file src len append).map (fun r : Bool × Ramfs =>
    (⟨r.2, s.log ++ [⟨slice s.fs.bytes src len, append, r.1⟩]⟩ : FileRun)) = .ok t := hs
  rw [fileLegal_write hfs hl, h1] at hs'
  cases hs'
  have hrec : written (s.log ++ [⟨slice s.fs.bytes src len, append, b⟩]) =
    if b then (if append then written s.log else []) ++ slice s.fs.bytes src len
    else written s.log := written_concat _ _
  cases b with
  | false =>
    rw [h3 rfl]
    refine ⟨h.fs, h.node, ?_⟩
    show s.fs.contents file = _
    rw [hrec]
    exact h.contents
  | true =>
    obtain ⟨_, hw, hbuf⟩ := h4 rfl
    obtain ⟨f0, f', hf0, hf', hgrow⟩ := hbuf.capacity
    rw [hf] at hf0
    cases hf0
    have hty' : f'.type = .file := by
      obtain ⟨g, _, _, hg, hg'⟩ := hw.self
      rw [hf] at hg
      cases hg
      rw [hf'] at hg'
      cases hg'
      exact hty
    refine ⟨⟨held, F, h2⟩, ⟨f', hf', hty', ?_⟩, ?_⟩
    · -- the capacity stays, or doubles from 64 or from what it was
      rcases hgrow with e | ⟨k, e⟩
      · rw [e]
        exact hcap
      · right
        unfold startCap at e
        rcases hcap with h0 | ⟨j, hj⟩
        · rw [if_neg (not_not.mpr h0)] at e
          exact ⟨k, e⟩
        · have hpos := Nat.two_pow_pos j
          rw [if_pos (by omega), hj, Nat.mul_assoc, ← Nat.pow_add] at e
          exact ⟨j + k, e⟩
    · show s'.contents file = _
      rw [hrec, hw.contents, h.contents]
      rfl

theorem fileInv_beside {t : Ramfs} (h : FileInv file s) (hl : Beside s.fs t file) :
    FileInv file ⟨t, s.log⟩ := by
  obtain ⟨f, hf, hty, hcap⟩ := h.node
  have hnode := hl.node
  rw [hf] at hnode
  obtain ⟨f', hf', e⟩ := Option.map_eq_some_iff.mp hnode
  simp only [Prod.mk.injEq] at e
  refine ⟨hl.inv, ⟨f', hf', e.1.trans hty, ?_⟩, hl.contents.trans h.contents⟩
  rw [e.2.2.2]
  exact hcap

/-- every run keeps it -/
theorem fileInv_of_run {s0 : FileRun} {ops : List FileOp} (r : (fileMachine file).Run s0 ops s)
    (h : FileInv file s0) : FileInv file s := by
  refine r.inv h ?_
  intro u op t hu hl hs
  cases op with
  | write deny src len append => exact fileInv_write hu hl hs
  | beside t' =>
    cases hs
    exact fileInv_beside hu hl

end

/-- After any calls of `ramfs_write` on a file that was empty, any of them failing, and whatever
happens beside it, the file holds the data of the successful calls since the last one that replaced,
in a buffer of 64 bytes doubled some number of times; and every further call returns, without a
32-bit overflow, and changes nothing if it fails. -/
theorem file_follows_history {s0 : Ramfs} {held : List Nat} {F : Forest Nat} (h : FsInv s0 held F)
    {file : Nat} {f0 : RamfsNode} (hf : s0.node file = some f0) (hty : f0.type = .file)
    (hsize : f0.size = 0) (hcap : f0.capacity = 0) {ops : List FileOp} {s : FileRun}
    (r : (fileMachine file).Run ⟨s0, []⟩ ops s) :
    ∃ f, s.fs.node file = some f ∧ f.type = .file ∧
      (f.capacity = 0 ∨ ∃ k, f.capacity = 64 * 2^k) ∧ f.size ≤ f.capacity ∧ f.capacity ≤ heapSize ∧
      s.fs.contents file = written s.log ∧
      ∀ deny src len append, fileLegal file s (.write deny src len append) →
        (if append then f.size else 0) + len < 2^32 ∧
        (∃ k, growLoop ((if append then f.size else 0) + len) 64
          (if f.capacity ≠ 0 then f.capacity else 64) =
            .ok ((if f.capacity ≠ 0 then f.capacity else 64) * 2^k) ∧
          (if f.capacity ≠ 0 then f.capacity else 64) * 2^k < 2^32) ∧
        ∃ b t, ramfsWriteFrom deny s.fs file src len append = .ok (b, t) ∧
          (b = false → t = s.fs) := by
  have hempty : s0.contents file = [] := by
    rw [Ramfs.contents_eq hf, hsize]
    rfl
  have hinv := fileInv_of_run r ⟨⟨held, F, h⟩, ⟨f0, hf, hty, .inl hcap⟩, hempty⟩
  obtain ⟨held', F', hfs⟩ := hinv.fs
  obtain ⟨f, hf', hty', hcap'⟩ := hinv.node
  have hs : heapSize = 4194304 := rfl
  have hle := hfs.capacity_le hf'
  have hroom := (hfs.nodes file f hf').room
  refine ⟨f, hf', hty', hcap', hroom, hle, hinv.contents, fun deny src len append hl => ?_⟩
  have hlen := hl.1
  have hbase : (if append then f.size else 0) ≤ f.size := by split <;> omega
  obtain ⟨k, hg, _, hk⟩ := growLoop_start hle
    (show (if append then f.size else 0) + len ≤ 2^24 by omega)
  refine ⟨by omega, ⟨k, hg, lt_of_le_of_lt hk (by norm_num)⟩, ?_⟩
  obtain ⟨b, t, h1, _, h3, _⟩ := ramfsWrite_effect hfs hf'
    (show (slice s.fs.bytes src len).length ≤ heapSize by rw [slice_length]; exact hlen) deny append
  exact ⟨b, t, (fileLegal_write hfs hl).trans h1, h3⟩

/-- a file that was just created on the tree after boot -/
theorem boot_note :
    ∃ s0 r s1 F m, ramfsInit (fun _ => false) (Heap.init sampleImage) (fun _ => 0) = .ok s0 ∧
      ramfsCreate false s0 s0.root (lit "/tmp/note") .file = .ok (r, s1) ∧ FsInv s1 [] F ∧
      s1.node r = some m ∧ m.type = .file ∧ m.data = 0 ∧ m.size = 0 ∧ m.capacity = 0 := by
  obtain ⟨s0, _, _, _, h0, h, _⟩ := boot_tmp
  obtain ⟨n, hn, _⟩ := h.tree.rootDir
  obtain ⟨r, s1, F, hc, h1, _, hdone⟩ := ramfsCreate_spec h hn false (lit "/tmp/note") .file
  have heval : (match ramfsInit (fun _ => false) (Heap.init sampleImage) (fun _ => 0) with
      | .error _ => false
      | .ok s0 => match ramfsCreate false s0 s0.root (lit "/tmp/note") .file with
        | .error _ => false
        | .ok (r, _) => r != 0) = true := by decide +kernel
  rw [h0] at heval
  simp only [hc, bne_iff_ne, ne_eq] at heval
  obtain ⟨w, _, _, _, _, hcr⟩ := hdone heval
  obtain ⟨_, _, _, e⟩ := hcr.first
  exact ⟨s0, r, s1, F, _, h0, hc, h1, e, rfl, rfl, rfl, rfl⟩

/-- another file beside it, then the first five bytes of the node, written to its file -/
theorem file_follows_history_note :
    ∃ s0 r s1 t s, ramfsInit (fun _ => false) (Heap.init sampleImage) (fun _ => 0) = .ok s0 ∧
      ramfsCreate false s0 s0.root (lit "/tmp/note") .file = .ok (r, s1) ∧
      fsStep s1 (.create false s1.root ⟨lit "/tmp/other", by decide⟩ .file) = .ok t ∧
      (fileMachine r).Run ⟨s1, []⟩ [.beside t, .write false r 5 false] s ∧
      s.fs.contents r = written s.log := by
  obtain ⟨s0, r, s1, F, m, h0, hc, h, hm, hty, hdata, hsize, hcap⟩ := boot_note
  obtain ⟨n, hn, -⟩ := h.tree.rootDir
  have hcreate : fsLegal s1 (.create false s1.root ⟨lit "/tmp/other", by decide⟩ .file) := .inr ⟨n, hn⟩
  obtain ⟨t, ht, -⟩ := fs_safe [] s1 (.create false s1.root ⟨lit "/tmp/other", by decide⟩ .file) ⟨F, h⟩ hcreate
  have hbeside : Beside s1 t r := fsStep_beside h hm hcreate trivial ht
  obtain ⟨held, F', h'⟩ := hbeside.inv
  obtain ⟨m', hm', e⟩ := Option.map_eq_some_iff.mp (hbeside.node.trans (congrArg (Option.map _) hm))
  obtain ⟨-, e⟩ := Prod.mk.inj e
  obtain ⟨hdata', e⟩ := Prod.mk.inj e
  obtain ⟨-, hcap'⟩ := Prod.mk.inj e
  have hl : fileLegal r ⟨t, []⟩ (.write false r 5 false) := by
    refine ⟨by decide, m', hm', .inr ⟨.inl ⟨r, sizeofRamfsNode, h'.nodeRoom r m' hm', le_refl _, ?_⟩, ?_⟩⟩
    · exact Nat.add_le_add_left (by decide) r
    · rw [hdata', hcap', hdata, hcap]
      exact .inr (Nat.zero_le r)
  obtain ⟨b, u, h1, _⟩ := ramfsWrite_effect h' hm'
    (show (slice t.bytes r 5).length ≤ heapSize by rw [slice_length]; decide) false false
  have hstep : (fileMachine r).step ⟨t, []⟩ (.write false r 5 false) =
      .ok ⟨u, [⟨slice t.bytes r 5, false, b⟩]⟩ := by
    show (ramfsWriteFrom false t r r 5 false).map _ = _
    rw [fileLegal_write h' hl, h1]
    rfl
  have hother : (fileMachine r).legal ⟨s1, []⟩ (.beside t) := hbeside
  have hwrite : (fileMachine r).legal ⟨t, []⟩ (.write false r 5 false) := hl
  have hrun := ((Machine.Run.nil (M := fileMachine r)).snoc hother rfl).snoc hwrite hstep
  obtain ⟨_, _, _, _, _, _, hcontents, _⟩ := file_follows_history h hm hty hsize hcap hrun
  exact ⟨s0, r, s1, t, _, h0, hc, ht, hrun, hcontents⟩

end Raptor
