import RaptorKernel.Fs.Calls
import RaptorKernel.Shell.Shell

/-!
# Commands as sequences of file system calls

* `Command.calls`     the calls a command makes;
* `look_returns`      the commands that only look return, or halt the machine;
* `run_calls`         a command that returned made only such calls;
* `run_returns`       from a working directory that is there, a command returns, or halts the
                      machine; only `rm` can take the working directory away, and `RmSafe` says
                      when it does not.
-/

namespace Raptor
open Forest Mem

def Command.calls : Command → FsOp → Bool
  | .mkdir, .create .. => true
  | .touch, .create .. => true
  | .cp, .create .. => true
  | .cp, .write .. => true
  | .rm, .delete .. => true
  | .mv, .move .. => true
  | _, _ => false

def IsDir (s : Ramfs) (a : Nat) : Prop := ∃ n, s.node a = some n ∧ n.type = .dir

theorem Kept.isDir {s t : Ramfs} (h : Kept s t) {a : Nat} (ha : IsDir s a) : IsDir t a := by
  obtain ⟨n, hn, hd⟩ := ha
  obtain ⟨n', hn', e⟩ := h a n hn
  exact ⟨n', hn', e.trans hd⟩

/-! ## commands that look -/

section
variable {s : Ramfs} {held : List Nat} {F : Forest Nat} {cwd : Nat} {c : RamfsNode}

theorem wantFile_ok {path : List UInt8} {a : Nat} {n : RamfsNode} (hres : ramfsResolve s cwd path = .ok a)
    (h0 : a ≠ 0) (hn : s.node a = some n) (ht : n.type = .file) : wantFile s cwd path = .ok (a, []) := by
  unfold wantFile
  rw [hres, ok_bind, if_neg h0, Ramfs.deref_ok hn, ok_bind, if_neg (not_not.mpr ht)]

/-- the path leads to a file, or there is a message -/
theorem wantFile_cases (h : FsInv s held F) (hc : s.node cwd = some c) (path : List UInt8) :
    (∃ a n, ramfsResolve s cwd path = .ok a ∧ s.node a = some n ∧ n.type = .file ∧
      wantFile s cwd path = .ok (a, [])) ∨
    ((∃ msg, wantFile s cwd path = .ok (0, msg)) ∧
      ∀ a n, ramfsResolve s cwd path = .ok a → s.node a = some n → n.type ≠ .file) := by
  obtain ⟨x, hx, hlive⟩ := ramfsResolve_spec h.tree h.bound' hc path
  by_cases h0 : x = 0
  · right
    constructor
    · unfold wantFile
      rw [hx, ok_bind, if_pos h0]
      exact ⟨_, rfl⟩
    · intro a n ha hn
      rw [hx] at ha
      cases ha
      exact absurd h0 (h.tree.ne_zero hn)
  obtain ⟨n, hn⟩ := hlive h0
  by_cases ht : n.type = .file
  · exact .inl ⟨x, n, hx, hn, ht, wantFile_ok hx h0 hn ht⟩
  · right
    constructor
    · unfold wantFile
      rw [hx, ok_bind, if_neg h0, Ramfs.deref_ok hn, ok_bind, if_pos ht]
      exact ⟨_, rfl⟩
    · intro a m ha hm
      rw [hx] at ha
      cases ha
      rw [hn] at hm
      cases hm
      exact ht

theorem wantFile_spec (h : FsInv s held F) (hc : s.node cwd = some c) (path : List UInt8) :
    ∃ a msg, wantFile s cwd path = .ok (a, msg) ∧ (a ≠ 0 → ∃ n, s.node a = some n ∧ n.type = .file) := by
  rcases wantFile_cases h hc path with ⟨a, n, _, hn, ht, hwant⟩ | ⟨⟨msg, hwant⟩, _⟩
  · exact ⟨a, _, hwant, fun _ => ⟨n, hn, ht⟩⟩
  · exact ⟨0, msg, hwant, fun h0 => absurd rfl h0⟩

theorem withFile_returns (h : FsInv s held F) (hc : s.node cwd = some c) (path : List UInt8)
    (f : List UInt8 → List ConEv × Nat) : ∃ r, withFile s cwd path f = .ok r := by
  obtain ⟨a, msg, h1, h2⟩ := wantFile_spec h hc path
  unfold withFile
  rw [h1, ok_bind]
  by_cases ha : a = 0
  · exact ⟨_, if_pos ha⟩
  · obtain ⟨n, hn, _⟩ := h2 ha
    refine ⟨f (n.bytes s), ?_⟩
    show (if a = 0 then _ else _) = _
    rw [if_neg ha, Ramfs.deref_ok hn, ok_bind]

/-- the path leads to a file with the bytes `data` -/
def FileAt (sh : Shell) (path data : List UInt8) : Prop :=
  ∃ a n, ramfsResolve sh.fs sh.cwd path = .ok a ∧ a ≠ 0 ∧ sh.fs.node a = some n ∧ n.type = .file ∧
    n.bytes sh.fs = data

theorem FileAt.withFile {sh : Shell} {path data : List UInt8} (h : FileAt sh path data)
    (f : List UInt8 → List ConEv × Nat) : withFile sh.fs sh.cwd path f = .ok (f data) := by
  obtain ⟨a, n, h1, ha, hn, ht, hdata⟩ := h
  unfold Raptor.withFile
  rw [wantFile_ok h1 ha hn ht, ok_bind]
  dsimp only
  rw [if_neg ha, Ramfs.deref_ok hn, ok_bind, hdata]

/-- the path leads to a file -/
def leadsToFile (sh : Shell) (path : List UInt8) : Bool :=
  match ramfsResolve sh.fs sh.cwd path with
  | .error _ => false
  | .ok a => a ≠ 0 && (sh.fs.node a).any fun n => n.type = .file

theorem leadsToFile_fileAt {sh : Shell} {path : List UInt8} (h : leadsToFile sh path = true) :
    ∃ data, FileAt sh path data := by
  unfold leadsToFile at h
  cases hr : ramfsResolve sh.fs sh.cwd path with
  | error e =>
    rw [hr] at h
    cases h
  | ok a =>
    rw [hr] at h
    obtain ⟨ha, hany⟩ := Bool.and_eq_true_iff.mp h
    obtain ⟨n, hn, ht⟩ := (Option.any_eq_true _ _).mp hany
    exact ⟨n.bytes sh.fs, a, n, hr, of_decide_eq_true ha, hn, of_decide_eq_true ht, rfl⟩

theorem withFiles_returns (h : FsInv s held F) (hc : s.node cwd = some c)
    (f : List UInt8 → List UInt8 → List ConEv) (paths : List (List UInt8)) :
    ∃ r, withFiles s cwd f paths = .ok r := by
  induction paths with
  | nil => exact ⟨_, rfl⟩
  | cons path paths ih =>
    obtain ⟨a, msg, h1, h2⟩ := wantFile_spec h hc path
    unfold withFiles
    rw [h1, ok_bind]
    by_cases ha : a = 0
    · exact ⟨_, if_pos ha⟩
    · obtain ⟨n, hn, _⟩ := h2 ha
      obtain ⟨r, hr⟩ := ih
      refine ⟨(f path (n.bytes s) ++ r.1, r.2), ?_⟩
      show (if a = 0 then _ else _) = _
      rw [if_neg ha, Ramfs.deref_ok hn, ok_bind, hr, ok_bind]

theorem lsLoop_returns (detail : Bool) {a : Nat} {l : List Nat} (hl : Chain s.links.next 0 a l)
    (hlive : ∀ x ∈ l, ∃ n, s.node x = some n) {fuel : Nat} (hf : l.length < fuel) :
    ∃ out, lsLoop s detail fuel a = .ok out := by
  induction l generalizing a fuel with
  | nil =>
    obtain ⟨f, rfl⟩ : ∃ f, fuel = f + 1 := ⟨fuel - 1, by simp only [List.length_nil] at hf; omega⟩
    exact ⟨[], if_pos hl⟩
  | cons x l ih =>
    obtain ⟨f, rfl⟩ : ∃ f, fuel = f + 1 := ⟨fuel - 1, by simp only [List.length_cons] at hf; omega⟩
    obtain ⟨rfl, h0, h2⟩ := hl
    obtain ⟨n, hn⟩ := hlive a List.mem_cons_self
    rw [Ramfs.links_next hn] at h2
    obtain ⟨out, hout⟩ := ih h2 (fun y hy => hlive y (List.mem_cons_of_mem _ hy))
      (show l.length < f by simp only [List.length_cons] at hf; omega)
    refine ⟨lsEntry detail n ++ out, ?_⟩
    unfold lsLoop
    rw [if_neg h0, Ramfs.deref_ok hn, ok_bind, hout]
    rfl

theorem cmdLs_returns {sh : Shell} (h : FsInv sh.fs held F) (hc : sh.fs.node sh.cwd = some c)
    (args : List (List UInt8)) : ∃ r, cmdLs sh args = .ok r := by
  unfold cmdLs
  obtain ⟨detail, path⟩ := lsArgs args
  obtain ⟨x, h1, h2⟩ := ramfsResolve_spec h.tree h.bound' hc (path.getD dot)
  show ∃ r, (ramfsResolve sh.fs sh.cwd (path.getD dot) >>= _) = _
  rw [h1, ok_bind]
  by_cases hx : x = 0
  · exact ⟨_, if_pos hx⟩
  obtain ⟨n, hn⟩ := h2 hx
  rw [if_neg hx, Ramfs.deref_ok hn, ok_bind]
  by_cases ht : n.type = .file
  · exact ⟨_, if_pos ht⟩
  obtain ⟨K, hK, hch, hmem⟩ := h.tree.kids hn
  have hsub : ∀ y ∈ K.tops, y ∈ (sh.fs.tree F).addrs := fun y hy => hK.subset y (tops_subset y hy)
  have hlen := (List.subperm_of_subset hch.nodup hsub).length_le
  have hb := h.bound'
  obtain ⟨out, hout⟩ := lsLoop_returns detail hch (fun y hy => (h.tree.live y).mpr (hsub y hy))
    (show K.tops.length < loopBound by omega)
  refine ⟨(out ++ (if detail then [] else [.putc newline]), 0), ?_⟩
  rw [if_neg ht, hout, ok_bind]

theorem cmdPwd_returns {sh : Shell} (h : FsInv sh.fs held F) (hz : NulFree sh.fs)
    (hc : sh.fs.node sh.cwd = some c) : ∃ r, cmdPwd sh = .ok r := by
  obtain ⟨p, hp⟩ := exists_pathTo h.tree hc
  obtain ⟨m, hm, _⟩ := ramfsPath_spec h.tree hz hc hp (fun _ => 0) 0
    (show 1 ≤ ramfsPathMax by decide) (by decide)
  unfold cmdPwd
  rw [hm, ok_bind]
  exact ⟨_, rfl⟩

theorem look_returns {sh : Shell} (h : FsInv sh.fs held F) (hz : NulFree sh.fs)
    (hc : sh.fs.node sh.cwd = some c) (env : Env) (args : List (List UInt8)) (cmd : Command) :
    cmd.look env sh args = .error .halted ∨ ∃ r, cmd.look env sh args = .ok r := by
  cases cmd with
  | ls => exact .inr (cmdLs_returns h hc args)
  | pwd => exact .inr (cmdPwd_returns h hz hc)
  | cat =>
    refine .inr ?_
    show ∃ r, cmdCat sh args = .ok r
    unfold cmdCat
    split
    · exact ⟨_, rfl⟩
    · exact withFiles_returns h hc _ args
  | wc =>
    refine .inr ?_
    show ∃ r, cmdWc sh args = .ok r
    unfold cmdWc
    split
    · exact ⟨_, rfl⟩
    · exact withFiles_returns h hc _ args
  | hexdump =>
    refine .inr ?_
    show ∃ r, cmdHexdump sh args = .ok r
    unfold cmdHexdump
    split
    · exact ⟨_, rfl⟩
    · exact withFile_returns h hc _ _
  | grep =>
    refine .inr ?_
    show ∃ r, cmdGrep sh args = .ok r
    unfold cmdGrep
    split
    · exact withFile_returns h hc _ _
    · exact ⟨_, rfl⟩
  | head =>
    refine .inr ?_
    show ∃ r, cmdHead sh args = .ok r
    unfold cmdHead
    split
    · exact ⟨_, rfl⟩
    · exact withFile_returns h hc _ _
  | _ => first | exact .inl rfl | exact .inr ⟨_, rfl⟩

end

/-! ## commands that create and write -/

section
variable {s : Ramfs} {held : List Nat} {F : Forest Nat} {cwd : Nat} {c : RamfsNode}
  {p : FsOp → Bool}

/-- one call of `ramfs_create` from a live directory -/
theorem create_calls (h : FsInv s held F) (hc : s.node cwd = some c) {path : List UInt8}
    (h0 : 0 ∉ path) (t : RamfsType) (hp : ∀ deny d q, p (.create deny d q t) = true) :
    ∃ r s' F', ramfsCreate false s cwd path t = .ok (r, s') ∧ Calls p s s' ∧ FsInv s' held F' ∧
      Kept s s' ∧ (r ≠ 0 → ∃ n, s'.node r = some n ∧ n.type = t) := by
  obtain ⟨r, s', F', h1, h2, h3, h4⟩ := ramfsCreate_spec h hc false path t
  have hstep : fsStep s (.create false cwd ⟨path, h0⟩ t) = .ok s' := by
    show (ramfsCreate false s cwd path t).map Prod.snd = _
    rw [h1]
    rfl
  refine ⟨r, s', F', h1, .one _ (hp _ _ _) (.inr ⟨c, hc⟩) hstep, h2, ?_, fun hr => ?_⟩
  · by_cases hr : r = 0
    · rw [h3 hr]
      exact fun a n ha => ⟨n, ha, rfl⟩
    · obtain ⟨_, _, _, _, _, hcr⟩ := h4 hr
      exact hcr.kept
  · obtain ⟨_, _, _, _, _, hcr⟩ := h4 hr
    obtain ⟨_, _, _, e⟩ := hcr.first
    exact ⟨_, e, rfl⟩

theorem write_calls (h : FsInv s held F) {file : Nat} {f : RamfsNode} (hf : s.node file = some f)
    {data : List UInt8} (hlen : data.length ≤ heapSize) (append : Bool)
    (hp : ∀ deny a d b, p (.write deny a d b) = true) :
    ∃ b s', ramfsWrite false s file data append = .ok (b, s') ∧ Calls p s s' := by
  obtain ⟨b, s', h1, _⟩ := ramfsWrite_spec h hf hlen false append
  refine ⟨b, s', h1, .one _ (hp false file data append) ⟨.inr ⟨f, hf⟩, hlen⟩ ?_⟩
  show (ramfsWrite false s file data append).map Prod.snd = _
  rw [h1]
  rfl

theorem mkdirLoop_calls (h : FsInv s held F) (hc : s.node cwd = some c) {args : List (List UInt8)}
    (hargs : ∀ a ∈ args, 0 ∉ a) :
    ∃ d, mkdirLoop s cwd args = .ok d ∧ Calls Command.mkdir.calls s d.fs ∧ d.cwd = cwd := by
  induction args generalizing s F c with
  | nil => exact ⟨_, rfl, .refl _ _, rfl⟩
  | cons a args ih =>
    obtain ⟨r, s', F', h1, h2, h3, h4, _⟩ := create_calls (p := Command.mkdir.calls) h hc
      (hargs a List.mem_cons_self) .dir fun _ _ _ => rfl
    obtain ⟨c', hc', _⟩ := h4 cwd c hc
    unfold mkdirLoop
    rw [h1, ok_bind]
    by_cases hr : r = 0
    · exact ⟨_, if_pos hr, h2, rfl⟩
    · obtain ⟨d, e1, e2, e3⟩ := ih h3 hc' fun x hx => hargs x (List.mem_cons_of_mem _ hx)
      exact ⟨d, (if_neg hr).trans e1, h2.trans e2, e3⟩

theorem touchLoop_calls (h : FsInv s held F) (hc : s.node cwd = some c) {args : List (List UInt8)}
    (hargs : ∀ a ∈ args, 0 ∉ a) :
    ∃ d, touchLoop s cwd args = .ok d ∧ Calls Command.touch.calls s d.fs ∧ d.cwd = cwd := by
  induction args generalizing s F c with
  | nil => exact ⟨_, rfl, .refl _ _, rfl⟩
  | cons a args ih =>
    obtain ⟨x, hx, _⟩ := ramfsResolve_spec h.tree h.bound' hc a
    unfold touchLoop
    rw [hx, ok_bind]
    have hargs' : ∀ y ∈ args, 0 ∉ y := fun y hy => hargs y (List.mem_cons_of_mem _ hy)
    by_cases hx0 : x = 0
    · rw [if_neg (not_not.mpr hx0)]
      obtain ⟨r, s', F', h1, h2, h3, h4, _⟩ := create_calls (p := Command.touch.calls) h hc
        (hargs a List.mem_cons_self) .file fun _ _ _ => rfl
      obtain ⟨c', hc', _⟩ := h4 cwd c hc
      rw [h1, ok_bind]
      by_cases hr : r = 0
      · exact ⟨_, if_pos hr, h2, rfl⟩
      · obtain ⟨d, e1, e2, e3⟩ := ih h3 hc' hargs'
        exact ⟨d, (if_neg hr).trans e1, h2.trans e2, e3⟩
    · rw [if_pos hx0]
      exact ih h hc hargs'

/-- a file's bytes are no more than its buffer -/
theorem bytes_length_le (h : FsInv s held F) {a : Nat} {n : RamfsNode} (ha : s.node a = some n) :
    (n.bytes s).length ≤ heapSize := by
  have h1 := (h.nodes a n ha).room
  have h2 := h.capacity_le ha
  have h3 : (n.bytes s).length = n.size := slice_length _ _ _
  omega

theorem cpWrite_calls (h : FsInv s held F) {src dst : Nat} {x : RamfsNode}
    (hsrc : s.node src = some x) (hdst : dst ≠ 0 → ∃ n, s.node dst = some n) (cwd : Nat)
    (dstpath : List UInt8) :
    ∃ d, cpWrite s cwd src dst dstpath = .ok d ∧ Calls Command.cp.calls s d.fs ∧ d.cwd = cwd := by
  unfold cpWrite
  by_cases hd : dst = 0
  · exact ⟨_, if_pos hd, .refl _ _, rfl⟩
  obtain ⟨n, hn⟩ := hdst hd
  rw [if_neg hd, Ramfs.deref_ok hn, ok_bind]
  by_cases ht : n.type = .file
  · obtain ⟨b, s', e1, e2⟩ := write_calls (p := Command.cp.calls) h hn (bytes_length_le h hsrc)
      false fun _ _ _ _ => rfl
    rw [if_neg (not_not.mpr ht), Ramfs.deref_ok hsrc, ok_bind, e1, ok_bind]
    cases b with
    | false => exact ⟨_, rfl, e2, rfl⟩
    | true => exact ⟨_, rfl, e2, rfl⟩
  · exact ⟨_, if_pos ht, .refl _ _, rfl⟩

theorem cpInto_calls (h : FsInv s held F) (hc : s.node cwd = some c) {src dst : Nat} {x : RamfsNode}
    (hsrc : s.node src = some x) (hdst : dst ≠ 0 → ∃ n, s.node dst = some n) {dstpath : List UInt8}
    (h0 : 0 ∉ dstpath) :
    ∃ d, cpInto s cwd src dst dstpath = .ok d ∧ Calls Command.cp.calls s d.fs ∧ d.cwd = cwd := by
  unfold cpInto
  by_cases hd : dst = 0
  · obtain ⟨r, s', F', h1, h2, h3, h4, h5⟩ := create_calls (p := Command.cp.calls) h hc h0 .file
      fun _ _ _ => rfl
    obtain ⟨x', hx', _⟩ := h4 src x hsrc
    obtain ⟨d, e1, e2, e3⟩ := cpWrite_calls h3 hx'
      (fun hr => (h5 hr).imp fun n hn => hn.1) cwd dstpath
    rw [if_pos hd, h1, ok_bind]
    exact ⟨d, e1, h2.trans e2, e3⟩
  · rw [if_neg hd]
    exact cpWrite_calls h hsrc hdst cwd dstpath

theorem cpTo_calls (h : FsInv s held F) (hz : NulFree s) (hc : s.node cwd = some c) {src : Nat}
    {x : RamfsNode} (hsrc : s.node src = some x) {dstpath : List UInt8} (h0 : 0 ∉ dstpath) :
    ∃ d, cpTo s cwd src dstpath = .ok d ∧ Calls Command.cp.calls s d.fs ∧ d.cwd = cwd := by
  obtain ⟨dst, h1, h2⟩ := ramfsResolve_spec h.tree h.bound' hc dstpath
  unfold cpTo
  rw [h1, ok_bind]
  by_cases hd0 : dst = 0
  · rw [if_pos hd0]
    exact cpInto_calls h hc hsrc (fun h0 => absurd rfl h0) h0
  obtain ⟨n, hn⟩ := h2 hd0
  rw [if_neg hd0, Ramfs.deref_ok hn, ok_bind]
  by_cases ht : n.type = .dir
  · -- into a directory: the path gets the source's name
    have hpath : 0 ∉ cpDstpath dstpath x.name := by
      intro hm
      rcases List.mem_append.mp (List.mem_of_mem_take hm) with hm | hm
      · rcases List.mem_append.mp (List.mem_of_mem_take hm) with hm | hm
        · exact h0 hm
        · exact absurd (List.mem_singleton.mp hm) (by decide)
      · exact hz src x hsrc hm
    obtain ⟨dst', h3, h4⟩ := ramfsResolve_spec h.tree h.bound' hc (cpDstpath dstpath x.name)
    rw [if_pos ht, Ramfs.deref_ok hsrc, ok_bind, h3, ok_bind]
    exact cpInto_calls h hc hsrc h4 hpath
  · rw [if_neg ht]
    exact cpInto_calls h hc hsrc (fun _ => ⟨n, hn⟩) h0

theorem cmdCp_calls {sh : Shell} (h : FsInv sh.fs held F) (hz : NulFree sh.fs)
    (hc : sh.fs.node sh.cwd = some c) {args : List (List UInt8)} (hargs : ∀ a ∈ args, 0 ∉ a) :
    ∃ d, cmdCp sh args = .ok d ∧ Calls Command.cp.calls sh.fs d.fs ∧ d.cwd = sh.cwd := by
  unfold cmdCp
  split
  · rename_i a b
    obtain ⟨src, msg, h1, h2⟩ := wantFile_spec h hc a
    rw [h1, ok_bind]
    by_cases hs0 : src = 0
    · exact ⟨_, if_pos hs0, .refl _ _, rfl⟩
    obtain ⟨x, hx, _⟩ := h2 hs0
    have h0 : 0 ∉ clip ramfsPathMax b := fun hm => hargs b (by simp) (List.mem_of_mem_take hm)
    obtain ⟨d, e1, e2⟩ := cpTo_calls h hz hc hx h0
    exact ⟨d, (if_neg hs0).trans e1, e2⟩
  · exact ⟨_, rfl, .refl _ _, rfl⟩

end

/-! ## rm -/

/-- No argument of `rm` that it reaches and removes has the working directory below it. -/
def RmSafe (cwd : Nat) : Ramfs → Bool → List (List UInt8) → Prop
  | _, _, [] => True
  | s, recursive, a :: args =>
    if a = dashR then RmSafe cwd s true args
    else ∀ n s', ramfsResolve s cwd a = .ok n → n ≠ 0 → n ≠ cwd →
      ramfsDelete s n recursive = .ok (true, s') → ¬ Below s n cwd ∧ RmSafe cwd s' recursive args

section
variable {s : Ramfs} {held : List Nat} {F : Forest Nat} {cwd : Nat}

/-- whatever it removes, `rm` only calls `ramfs_delete` on live nodes -/
theorem rmLoop_calls (h : FsInv s held F) (h0 : cwd ≠ 0) {args : List (List UInt8)}
    {recursive : Bool} {removed : Nat} {d : Done}
    (hd : rmLoop s cwd recursive removed args = .ok d) :
    Calls Command.rm.calls s d.fs ∧ d.cwd = cwd := by
  induction args generalizing s F recursive removed with
  | nil =>
    unfold rmLoop at hd
    split at hd
    · cases hd
      exact ⟨.refl _ _, rfl⟩
    · cases hd
      exact ⟨.refl _ _, rfl⟩
  | cons a args ih =>
    unfold rmLoop at hd
    by_cases ha : a = dashR
    · rw [if_pos ha] at hd
      exact ih h hd
    rw [if_neg ha] at hd
    obtain ⟨n, hn, hd⟩ := bind_eq_ok.mp hd
    by_cases hn0 : n = 0
    · rw [if_pos hn0] at hd
      cases hd
      exact ⟨.refl _ _, rfl⟩
    rw [if_neg hn0] at hd
    by_cases hnc : n = cwd
    · rw [if_pos hnc] at hd
      cases hd
      exact ⟨.refl _ _, rfl⟩
    rw [if_neg hnc] at hd
    obtain ⟨x, hx⟩ : ∃ x, s.node n = some x := by
      rcases ramfsResolve_any h h0 hn with e | e | e
      · exact absurd e hn0
      · exact absurd e hnc
      · exact e
    obtain ⟨b, s', F', h1, h2, h3, _⟩ := ramfsDelete_spec h hx recursive
    rw [h1, ok_bind] at hd
    cases b with
    | false =>
      cases hd
      rw [h3 rfl]
      exact ⟨.refl _ _, rfl⟩
    | true =>
      have hone : Calls Command.rm.calls s s' := by
        refine .one (.delete n recursive) rfl (.inr ⟨x, hx⟩) ?_
        show (ramfsDelete s n recursive).map Prod.snd = _
        rw [h1]
        rfl
      obtain ⟨e1, e2⟩ := ih h2 hd
      exact ⟨hone.trans e1, e2⟩

theorem rmLoop_returns (h : FsInv s held F) (hcwd : IsDir s cwd) {args : List (List UInt8)}
    {recursive : Bool} (hs : RmSafe cwd s recursive args) (removed : Nat) :
    ∃ d, rmLoop s cwd recursive removed args = .ok d ∧ IsDir d.fs d.cwd := by
  induction args generalizing s F recursive removed with
  | nil =>
    unfold rmLoop
    split
    · exact ⟨_, rfl, hcwd⟩
    · exact ⟨_, rfl, hcwd⟩
  | cons a args ih =>
    unfold rmLoop
    unfold RmSafe at hs
    by_cases ha : a = dashR
    · rw [if_pos ha] at hs
      rw [if_pos ha]
      exact ih h hcwd hs removed
    rw [if_neg ha] at hs
    rw [if_neg ha]
    obtain ⟨c, hc, hdir⟩ := hcwd
    obtain ⟨n, hn, hlive⟩ := ramfsResolve_spec h.tree h.bound' hc a
    rw [hn, ok_bind]
    by_cases hn0 : n = 0
    · exact ⟨_, if_pos hn0, c, hc, hdir⟩
    rw [if_neg hn0]
    by_cases hnc : n = cwd
    · exact ⟨_, if_pos hnc, c, hc, hdir⟩
    rw [if_neg hnc]
    obtain ⟨x, hx⟩ := hlive hn0
    obtain ⟨b, s', F', h1, h2, h3, h4, _⟩ := ramfsDelete_spec h hx recursive
    rw [h1, ok_bind]
    cases b with
    | false =>
      rw [h3 rfl]
      exact ⟨_, rfl, c, hc, hdir⟩
    | true =>
      obtain ⟨hout, hs'⟩ := hs n s' hn hn0 hnc h1
      obtain ⟨c', hc', e⟩ := kept_of_plain hc ((h4 rfl).other cwd hout)
      exact ih h2 ⟨c', hc', e.trans hdir⟩ hs' (removed + 1)

end

/-! ## mv and cd -/

section
variable {sh : Shell} {held : List Nat} {F : Forest Nat} {c : RamfsNode}

theorem splitParent_spec (h : FsInv sh.fs held F) (hc : sh.fs.node sh.cwd = some c)
    (path : List UInt8) :
    ∃ parent name, splitParent sh.fs sh.cwd path = .ok (parent, name) ∧
      (parent ≠ 0 → ∃ n, sh.fs.node parent = some n) ∧ ∀ b ∈ name, b ∈ path := by
  unfold splitParent
  split
  · exact ⟨_, _, rfl, fun _ => ⟨c, hc⟩, fun b hb => hb⟩
  · rename_i len _
    have hsub : ∀ b ∈ path.drop (len + 1), b ∈ path := fun b hb => List.mem_of_mem_drop hb
    by_cases h0 : len = 0
    · obtain ⟨r, hr, _⟩ := h.tree.rootDir
      exact ⟨_, _, if_pos h0, fun _ => ⟨r, hr⟩, hsub⟩
    by_cases hlong : ramfsPathMax ≤ len
    · exact ⟨_, _, (if_neg h0).trans (if_pos hlong), fun h1 => absurd rfl h1, hsub⟩
    obtain ⟨d, h1, h2⟩ := ramfsResolve_spec h.tree h.bound' hc (path.take len)
    refine ⟨d, _, ?_, h2, hsub⟩
    show (if len = 0 then _ else if ramfsPathMax ≤ len then _ else _) = _
    rw [if_neg h0, if_neg hlong, h1]
    rfl

/-- what `mv` does: nothing, or one move, under the old name or under one that `split_parent` cut
out of a path that leads nowhere -/
structure Mv (sh : Shell) (args : List (List UInt8)) (t : Ramfs) (src parent : Nat)
    (name : List UInt8) : Prop where
  srcLive : ∃ x, sh.fs.node src = some x
  parentLive : ∃ p, sh.fs.node parent = some p
  nulFree : 0 ∉ name
  moved : ramfsMove sh.fs src parent name = .ok (true, t)
  origin : (∃ x, sh.fs.node src = some x ∧ name = x.name) ∨
    ∃ a b, args = [a, b] ∧ ramfsResolve sh.fs sh.cwd a = .ok src ∧
      ramfsResolve sh.fs sh.cwd b = .ok 0 ∧ splitParent sh.fs sh.cwd b = .ok (parent, name)

theorem mvTo_spec (h : FsInv sh.fs held F) {src parent : Nat} {x p : RamfsNode}
    (hx : sh.fs.node src = some x) (hp : sh.fs.node parent = some p) {name : List UInt8}
    (h0 : 0 ∉ name) {args : List (List UInt8)}
    (ho : (∃ x, sh.fs.node src = some x ∧ name = x.name) ∨
      ∃ a b, args = [a, b] ∧ ramfsResolve sh.fs sh.cwd a = .ok src ∧
        ramfsResolve sh.fs sh.cwd b = .ok 0 ∧ splitParent sh.fs sh.cwd b = .ok (parent, name)) :
    ∃ d, mvTo sh src parent name = .ok d ∧ d.cwd = sh.cwd ∧
      (d.fs = sh.fs ∨ ∃ src parent name, Mv sh args d.fs src parent name) := by
  obtain ⟨b, s', F', h1, h2, h3, h4, _⟩ := ramfsMove_spec h hx hp name
  unfold mvTo
  rw [h1, ok_bind]
  cases b with
  | false => exact ⟨_, rfl, rfl, .inl (h3 rfl)⟩
  | true => exact ⟨_, rfl, rfl, .inr ⟨src, parent, name, ⟨x, hx⟩, ⟨p, hp⟩, h0, h1, ho⟩⟩

theorem cmdMv_spec (h : FsInv sh.fs held F) (hz : NulFree sh.fs) (hc : sh.fs.node sh.cwd = some c)
    {args : List (List UInt8)} (hargs : ∀ a ∈ args, 0 ∉ a) :
    ∃ d, cmdMv sh args = .ok d ∧ d.cwd = sh.cwd ∧
      (d.fs = sh.fs ∨ ∃ src parent name, Mv sh args d.fs src parent name) := by
  unfold cmdMv
  split
  · rename_i a b
    obtain ⟨src, h1, h2⟩ := ramfsResolve_spec h.tree h.bound' hc a
    rw [h1, ok_bind]
    by_cases hs0 : src = 0
    · exact ⟨_, if_pos hs0, rfl, .inl rfl⟩
    obtain ⟨x, hx⟩ := h2 hs0
    obtain ⟨dst, h3, h4⟩ := ramfsResolve_spec h.tree h.bound' hc b
    rw [if_neg hs0, h3, ok_bind]
    by_cases hd0 : dst = 0
    · rw [if_pos hd0]
      obtain ⟨parent, name, e1, e2, e3⟩ := splitParent_spec h hc b
      unfold mvNew
      rw [e1, ok_bind]
      by_cases hp0 : parent = 0
      · exact ⟨_, if_pos hp0, rfl, .inl rfl⟩
      obtain ⟨p, hp⟩ := e2 hp0
      show ∃ d, (if parent = 0 then _ else _) = _ ∧ _
      rw [if_neg hp0, Ramfs.deref_ok hp, ok_bind]
      by_cases ht : p.type = .dir
      · rw [if_neg (not_not.mpr ht)]
        exact mvTo_spec h hx hp (fun hm => hargs b (by simp) (e3 0 hm))
          (.inr ⟨a, b, rfl, h1, hd0 ▸ h3, e1⟩)
      · exact ⟨_, if_pos ht, rfl, .inl rfl⟩
    obtain ⟨p, hp⟩ := h4 hd0
    rw [if_neg hd0, Ramfs.deref_ok hp, ok_bind]
    by_cases ht : p.type = .dir
    · rw [if_pos ht, Ramfs.deref_ok hx, ok_bind]
      exact mvTo_spec h hx hp (hz src x hx) (.inl ⟨x, hx, rfl⟩)
    · exact ⟨_, if_neg ht, rfl, .inl rfl⟩
  · exact ⟨_, rfl, rfl, .inl rfl⟩

theorem Mv.calls {args : List (List UInt8)} {t : Ramfs} {src parent : Nat} {name : List UInt8}
    (h : Mv sh args t src parent name) : Calls Command.mv.calls sh.fs t := by
  refine .one (.move src parent ⟨name, h.nulFree⟩) rfl ⟨.inr h.srcLive, .inr h.parentLive⟩ ?_
  show (ramfsMove sh.fs src parent name).map Prod.snd = _
  rw [h.moved]
  rfl

theorem cmdCd_spec (h : FsInv sh.fs held F) (hc : sh.fs.node sh.cwd = some c)
    (args : List (List UInt8)) :
    ∃ d, cmdCd sh args = .ok d ∧ d.fs = sh.fs ∧ (d.cwd = sh.cwd ∨ IsDir d.fs d.cwd) := by
  obtain ⟨n, h1, h2⟩ := ramfsResolve_spec h.tree h.bound' hc (args.headD [slash])
  unfold cmdCd
  dsimp only
  rw [h1, ok_bind]
  by_cases hn : n = 0
  · exact ⟨_, if_pos hn, rfl, .inl rfl⟩
  obtain ⟨x, hx⟩ := h2 hn
  rw [if_neg hn, Ramfs.deref_ok hx, ok_bind]
  by_cases ht : x.type = .dir
  · exact ⟨_, if_neg (not_not.mpr ht), rfl, .inr ⟨x, hx, ht⟩⟩
  · exact ⟨_, if_pos ht, rfl, .inl rfl⟩

end

/-! ## all commands -/

section
variable {sh : Shell} {held : List Nat} {F : Forest Nat} {c : RamfsNode}

theorem calls_notDelete {cmd : Command} (h : cmd ≠ .rm) (op : FsOp) (hop : cmd.calls op = true) :
    op.isDelete = false := by
  cases op with
  | delete _ _ =>
    cases cmd with
    | rm => exact absurd rfl h
    | _ => cases hop
  | _ => rfl

theorem calls_notMove {cmd : Command} (h : cmd ≠ .mv) (op : FsOp) (hop : cmd.calls op = true) :
    op.isMove = false := by
  cases op with
  | move _ _ _ =>
    cases cmd with
    | mv => exact absurd rfl h
    | _ => cases hop
  | _ => rfl

/-- A command returns, having made its own calls and left a working directory that is a directory
if it was one before; or it halts the machine; or it is `rm`. -/
theorem run_cases (h : FsInv sh.fs held F) (hz : NulFree sh.fs) (hc : sh.fs.node sh.cwd = some c)
    (env : Env) {args : List (List UInt8)} (hargs : ∀ a ∈ args, 0 ∉ a) (cmd : Command) :
    cmd.run env sh args = .error .halted ∨
    (∃ d, cmd.run env sh args = .ok d ∧ Calls cmd.calls sh.fs d.fs ∧
      (d.cwd = sh.cwd ∧ Kept sh.fs d.fs ∨ IsDir d.fs d.cwd)) ∨
    cmd = .rm := by
  have hcalls : ∀ {d : Done}, cmd ≠ .rm → cmd.run env sh args = .ok d →
      Calls cmd.calls sh.fs d.fs → d.cwd = sh.cwd →
      ∃ d, cmd.run env sh args = .ok d ∧ Calls cmd.calls sh.fs d.fs ∧
        (d.cwd = sh.cwd ∧ Kept sh.fs d.fs ∨ IsDir d.fs d.cwd) :=
    fun hcmd h1 h2 e => ⟨_, h1, h2, .inl ⟨e, h2.kept (calls_notDelete hcmd) h⟩⟩
  have hlook : cmd ≠ .rm → cmd.run env sh args =
      (cmd.look env sh args).map (fun r => ⟨sh.fs, sh.cwd, r.1, r.2⟩) →
      cmd.run env sh args = .error .halted ∨
        ∃ d, cmd.run env sh args = .ok d ∧ Calls cmd.calls sh.fs d.fs ∧
          (d.cwd = sh.cwd ∧ Kept sh.fs d.fs ∨ IsDir d.fs d.cwd) := by
    intro hcmd e
    rcases look_returns h hz hc env args cmd with h1 | ⟨r, h1⟩
    · rw [h1] at e
      exact .inl e
    · rw [h1] at e
      exact .inr (hcalls hcmd e (.refl _ _) rfl)
  cases cmd with
  | cd =>
    obtain ⟨d, h1, h2, h3⟩ := cmdCd_spec h hc args
    refine .inr (.inl ⟨d, h1, by rw [h2]; exact .refl _ _, h3.imp (fun e => ⟨e, ?_⟩) id⟩)
    rw [h2]
    exact fun a n ha => ⟨n, ha, rfl⟩
  | mkdir =>
    refine .inr (.inl ?_)
    by_cases ha : args = []
    · exact hcalls (by simp) (if_pos ha) (.refl _ _) rfl
    · obtain ⟨d, h1, h2, h3⟩ := mkdirLoop_calls h hc hargs
      exact hcalls (by simp) ((if_neg ha).trans h1) h2 h3
  | touch =>
    refine .inr (.inl ?_)
    by_cases ha : args = []
    · exact hcalls (by simp) (if_pos ha) (.refl _ _) rfl
    · obtain ⟨d, h1, h2, h3⟩ := touchLoop_calls h hc hargs
      exact hcalls (by simp) ((if_neg ha).trans h1) h2 h3
  | rm => exact .inr (.inr rfl)
  | cp =>
    obtain ⟨d, h1, h2, h3⟩ := cmdCp_calls h hz hc hargs
    exact .inr (.inl (hcalls (by simp) h1 h2 h3))
  | mv =>
    obtain ⟨d, h1, h2, h3⟩ := cmdMv_spec h hz hc hargs
    have h4 : Calls Command.mv.calls sh.fs d.fs := by
      rcases h3 with e | ⟨_, _, _, hmv⟩
      · rw [e]
        exact .refl _ _
      · exact hmv.calls
    exact .inr (.inl (hcalls (by simp) h1 h4 h2))
  | _ => exact (hlook (by simp) rfl).imp id .inl

theorem run_calls (h : FsInv sh.fs held F) (hz : NulFree sh.fs) (hc : sh.fs.node sh.cwd = some c)
    {env : Env} {args : List (List UInt8)} (hargs : ∀ a ∈ args, 0 ∉ a) {cmd : Command} {d : Done}
    (hd : cmd.run env sh args = .ok d) : Calls cmd.calls sh.fs d.fs ∧ d.cwd ≠ 0 := by
  have h0 := h.tree.ne_zero hc
  rcases run_cases h hz hc env hargs cmd with e | ⟨d', e, h1, h2⟩ | rfl
  · rw [hd] at e
    cases e
  · rw [hd] at e
    cases e
    refine ⟨h1, ?_⟩
    rcases h2 with ⟨e, _⟩ | ⟨n, hn, _⟩
    · rw [e]
      exact h0
    · obtain ⟨_, h3⟩ := h1.inv h
      exact h3.tree.ne_zero hn
  · obtain ⟨h1, h2⟩ := rmLoop_calls h h0 hd
    rw [h2]
    exact ⟨h1, h0⟩

theorem run_returns (h : FsInv sh.fs held F) (hz : NulFree sh.fs) (hcwd : IsDir sh.fs sh.cwd)
    (env : Env) {args : List (List UInt8)} (hargs : ∀ a ∈ args, 0 ∉ a) {cmd : Command}
    (hsafe : cmd = .rm → RmSafe sh.cwd sh.fs false args) :
    cmd.run env sh args = .error .halted ∨
      ∃ d, cmd.run env sh args = .ok d ∧ IsDir d.fs d.cwd := by
  obtain ⟨c, hc, hdir⟩ := hcwd
  rcases run_cases h hz hc env hargs cmd with e | ⟨d, e, _, h1⟩ | rfl
  · exact .inl e
  · refine .inr ⟨d, e, ?_⟩
    rcases h1 with ⟨e, hk⟩ | h1
    · rw [e]
      exact hk.isDir ⟨c, hc, hdir⟩
    · exact h1
  · exact .inr (rmLoop_returns h ⟨c, hc, hdir⟩ (hsafe rfl) 0)

end

/-! ## a sample -/

/-- a root directory with one file, `f` -/
def fileShell (data : List UInt8) : Shell where
  fs := {
    heap := Heap.init sampleImage
    bytes := Mem.blit (fun _ => 0) 4096 data
    node := fun a =>
      if a = 1 then some ⟨[], .dir, 0, 0, 0, 0, 2, 0⟩
      else if a = 2 then some ⟨lit "f", .file, 4096, data.length, data.length, 1, 0, 0⟩
      else none
    root := 1 }
  cwd := 1
  con := ⟨0, 0, [], []⟩
  historyRing := fun _ => []
  historyTotal := 0

theorem fileShell_file (data : List UInt8) : FileAt (fileShell data) (lit "f") data :=
  ⟨2, _, rfl, by decide, rfl, rfl, Mem.slice_blit_self _ _ _⟩

end Raptor
