import RaptorKernel.Fs.Visits

/-!
# Which paths go through directories only

On Unix every component of a path but the last must lead to a directory, also where `.` or `..`
follows.  `walk` asks for a directory only before it looks up a name, so a file followed by `.` or
`..` gets through.

* `Hop`, `Leads`     where components lead in the tree, whatever the types of the nodes;
* `leads_of_follow`  a walk that resolves went there;
* `ThroughDirs`      the law of Unix for one path;
* `DotsAtDirs`       no name with `.` or `..` right behind it is the name of a file;
* `throughDirs_iff`  for paths that resolve, these are the same.
-/

namespace Raptor
open Forest

/-- `b` is the first child of `a` called `c` -/
def Child (s : Ramfs) (a : Nat) (c : List UInt8) (b : Nat) : Prop :=
  ∃ n l, s.node a = some n ∧ Chain s.links.next 0 n.children l ∧ named s c l = b ∧ b ≠ 0

/-- one component leads from `a` to `b` -/
def Hop (s : Ramfs) (a : Nat) (c : List UInt8) (b : Nat) : Prop :=
  (c = dot ∧ b = a) ∨
  (c = dotdot ∧ ∃ n, s.node a = some n ∧ b = if n.parent ≠ 0 then n.parent else a) ∨
  (c ≠ dot ∧ c ≠ dotdot ∧ Child s a c b)

def Leads (s : Ramfs) : Nat → List (List UInt8) → Nat → Prop
  | a, [], x => x = a
  | a, c :: cs, x => ∃ b, Hop s a c b ∧ Leads s b cs x

/-- every proper part of the path leads to a directory -/
def ThroughDirs (s : Ramfs) (cwd : Nat) (path : List UInt8) : Prop :=
  ∀ pre post, components path = pre ++ post → post ≠ [] →
    ∃ y m, follow s (startOf s cwd path) pre = .ok y ∧ s.node y = some m ∧ m.type = .dir

/-- every name with `.` or `..` right behind it is the name of a directory -/
def DotsAtDirs (s : Ramfs) (cwd : Nat) (path : List UInt8) : Prop :=
  ∀ pre c d post y m, components path = pre ++ c :: d :: post → c ≠ dot → c ≠ dotdot →
    (d = dot ∨ d = dotdot) → Leads s (startOf s cwd path) (pre ++ [c]) y → s.node y = some m →
    m.type = .dir

section
variable {s : Ramfs} {held : List Nat} {F : Forest Nat} {cwd a b x y : Nat} {n m : RamfsNode}
  {c d : List UInt8} {cs : List (List UInt8)} {path : List UInt8}

/-! ## where components lead -/

theorem Child.unique (h : Child s a c x) (h' : Child s a c y) : x = y := by
  obtain ⟨n, l, hn, hl, hx, _⟩ := h
  obtain ⟨n', l', hn', hl', hy, _⟩ := h'
  rw [hn] at hn'
  cases hn'
  rw [← hx, ← hy, hl.unique hl']

theorem Hop.unique (h : Hop s a c x) (h' : Hop s a c y) : x = y := by
  have hne : dot ≠ dotdot := by decide
  rcases h with ⟨rfl, rfl⟩ | ⟨rfl, n, hn, rfl⟩ | ⟨h1, h2, h3⟩
  · rcases h' with ⟨_, e⟩ | ⟨e, _⟩ | ⟨e, _⟩
    · exact e.symm
    · exact absurd e hne
    · exact absurd rfl e
  · rcases h' with ⟨e, _⟩ | ⟨_, n', hn', e⟩ | ⟨_, e, _⟩
    · exact absurd e.symm hne
    · rw [hn] at hn'
      cases hn'
      exact e.symm
    · exact absurd rfl e
  · rcases h' with ⟨e, _⟩ | ⟨e, _⟩ | ⟨_, _, h4⟩
    · exact absurd e h1
    · exact absurd e h2
    · exact h3.unique h4

theorem Leads.unique (h : Leads s a cs x) (h' : Leads s a cs y) : x = y := by
  induction cs generalizing a with
  | nil => exact h.trans h'.symm
  | cons c cs ih =>
    obtain ⟨b, h1, h2⟩ := h
    obtain ⟨b', h1', h2'⟩ := h'
    rw [h1'.unique h1] at h2'
    exact ih h2 h2'

/-- a name is looked up in a directory -/
theorem dir_of_name (hy : s.node y = some m) (hd : d ≠ dot) (hdd : d ≠ dotdot)
    (hw : walkNext s y d = .ok (some b)) : m.type = .dir := by
  by_contra ht
  rw [walkNext_file hy hd hdd ht] at hw
  cases hw

theorem hop_of_walkNext (h : FsInv s held F) (ha : s.node a = some n)
    (hw : walkNext s a c = .ok (some b)) (h0 : b ≠ 0) : Hop s a c b := by
  by_cases hd : c = dot
  · subst hd
    rw [walkNext_dot] at hw
    exact .inl ⟨rfl, (Option.some.inj (Except.ok.inj hw)).symm⟩
  by_cases hdd : c = dotdot
  · subst hdd
    rw [walkNext_dotdot ha] at hw
    exact .inr (.inl ⟨rfl, n, ha, (Option.some.inj (Except.ok.inj hw)).symm⟩)
  have ht := dir_of_name ha hd hdd hw
  obtain ⟨K, _, hch, _⟩ := h.tree.kids ha
  rw [walkNext_child ha hd hdd ht, findChild_named h.tree h.bound' ha c hch] at hw
  exact .inr (.inr ⟨hd, hdd, n, K.tops, ha, hch, Option.some.inj (Except.ok.inj hw), h0⟩)

/-- a walk that resolves went where its components lead -/
theorem leads_of_follow (h : FsInv s held F) (ha : s.node a = some n)
    (hx : follow s a cs = .ok x) (h0 : x ≠ 0) : Leads s a cs x := by
  induction cs generalizing a n with
  | nil =>
    cases hx
    rfl
  | cons c cs ih =>
    obtain ⟨next, _, hw, hn0, hx'⟩ := follow_cons_ok hx h0
    obtain ⟨m, hm⟩ := walkNext_live h.tree h.bound' ha hw hn0
    exact ⟨next, hop_of_walkNext h ha hw hn0, ih hm hx'⟩

/-! ## where a directory is sure -/

/-- `..` leads to a directory -/
theorem dir_of_dotdot (h : FsInv s held F) (ha : s.node a = some n)
    (hw : walkNext s a dotdot = .ok (some b)) : ∃ m, s.node b = some m ∧ m.type = .dir := by
  rw [walkNext_dotdot ha] at hw
  have hb := Option.some.inj (Except.ok.inj hw)
  by_cases hp : n.parent = 0
  · rw [if_neg (not_not.mpr hp)] at hb
    obtain ⟨r, hr, hdir⟩ := h.tree.rootDir
    rw [← hb, (h.tree.parent_eq_zero_iff ha).mp hp]
    exact ⟨r, hr, hdir⟩
  · rw [if_pos hp] at hb
    obtain ⟨p, hp'⟩ := h.tree.parent_live ha fun e => hp ((h.tree.parent_eq_zero_iff ha).mpr e)
    rw [← hb]
    exact ⟨p, hp', h.parent_dir ha hp'⟩

/-- a path starts at a directory -/
theorem startOf_dir (h : TreeInv s F) (hcwd : s.node cwd = some n) (hdir : n.type = .dir)
    (path : List UInt8) : ∃ m, s.node (startOf s cwd path) = some m ∧ m.type = .dir := by
  unfold startOf
  split
  · exact h.rootDir
  · exact ⟨n, hcwd, hdir⟩

/-! ## the law -/

theorem dotsAtDirs_of_throughDirs (h : FsInv s held F) (hcwd : s.node cwd = some n)
    (hl : ThroughDirs s cwd path) : DotsAtDirs s cwd path := by
  intro pre c d post y m hcs _ _ _ hy hm
  obtain ⟨k, hk⟩ := startOf_live h.tree hcwd path
  obtain ⟨z, m', hz, hm', hdir⟩ := hl (pre ++ [c]) (d :: post) (by simp [hcs]) (by simp)
  have hyz := hy.unique (leads_of_follow h hk hz (h.tree.ne_zero hm'))
  rw [← hyz, hm] at hm'
  cases hm'
  exact hdir

/-- The induction is on the part of the path, from its end: what stands last in it decides why the
node it leads to is a directory. -/
theorem throughDirs_of_dotsAtDirs (h : FsInv s held F) (hcwd : s.node cwd = some n)
    (hdir : n.type = .dir) (hx : follow s (startOf s cwd path) (components path) = .ok x)
    (h0 : x ≠ 0) (hc : DotsAtDirs s cwd path) : ThroughDirs s cwd path := by
  obtain ⟨k, hk, hkdir⟩ := startOf_dir h.tree hcwd hdir path
  have hk0 := h.tree.ne_zero hk
  intro pre post hcs hpost
  induction pre using List.reverseRecOn generalizing post with
  | nil => exact ⟨_, k, rfl, hk, hkdir⟩
  | append_singleton pre c ih =>
    obtain ⟨d, post, rfl⟩ := List.exists_cons_of_ne_nil hpost
    have hcs' : components path = pre ++ (c :: d :: post) := by simp [hcs]
    obtain ⟨z, k', hz, hk', hzdir⟩ := ih (c :: d :: post) hcs' (by simp)
    rw [hcs] at hx
    obtain ⟨y, hy, hy0, hrest⟩ := follow_split hk0 hx h0
    obtain ⟨m, hm⟩ := follow_live h.tree h.bound' hk hy hy0
    obtain ⟨z', hz', _, hzy⟩ := follow_split hk0 hy hy0
    rw [hz] at hz'
    cases hz'
    obtain ⟨next, _, hnext, _⟩ := follow_cons_ok hrest h0
    refine ⟨y, m, hy, hm, ?_⟩
    by_cases hdot : d = dot ∨ d = dotdot
    swap
    · rw [not_or] at hdot
      exact dir_of_name hm hdot.1 hdot.2 hnext
    have hstep := follow_one hzy hy0
    by_cases hcd : c = dot
    · -- `.` stays where it is
      subst hcd
      rw [walkNext_dot] at hstep
      cases hstep
      rw [hk'] at hm
      cases hm
      exact hzdir
    by_cases hcdd : c = dotdot
    · subst hcdd
      obtain ⟨m', hm', hmdir⟩ := dir_of_dotdot h hk' hstep
      rw [hm] at hm'
      cases hm'
      exact hmdir
    · exact hc pre c d post y m hcs' hcd hcdd hdot (leads_of_follow h hk hy hy0) hm

/-- A path that resolves goes through directories only exactly when no name with `.` or `..` right
behind it is the name of a file. -/
theorem throughDirs_iff (h : FsInv s held F) (hcwd : s.node cwd = some n) (hdir : n.type = .dir)
    (hx : ramfsResolve s cwd path = .ok x) (h0 : x ≠ 0) :
    ThroughDirs s cwd path ↔ DotsAtDirs s cwd path := by
  rw [ramfsResolve_eq s (h.tree.ne_zero hcwd)] at hx
  exact ⟨dotsAtDirs_of_throughDirs h hcwd, throughDirs_of_dotsAtDirs h hcwd hdir hx h0⟩

/-- `/tmp/..` resolves, and `/tmp` is a directory -/
theorem throughDirs_iff_tmp_dotdot :
    ∃ s0 a, ramfsInit (fun _ => false) (Heap.init sampleImage) (fun _ => 0) = .ok s0 ∧
      components (lit "/tmp/..") = [lit "tmp"] ++ [dotdot] ∧
      ramfsResolve s0 s0.root (lit "/tmp/..") = .ok a ∧ a ≠ 0 ∧
      (ThroughDirs s0 s0.root (lit "/tmp/..") ↔ DotsAtDirs s0 s0.root (lit "/tmp/..")) := by
  have heval : (ramfsInit (fun _ => false) (Heap.init sampleImage) (fun _ => 0)).toOption.any
      (fun s0 => (ramfsResolve s0 s0.root (lit "/tmp/..")).toOption.any (· != 0)) = true := by
    decide +kernel
  obtain ⟨s0, h0, heval⟩ := any_toOption.mp heval
  obtain ⟨a, ha, ha0⟩ := any_toOption.mp heval
  have ha0 : a ≠ 0 := bne_iff_ne.mp ha0
  obtain ⟨F, h⟩ := fsInv_of_run (init_root_ne_zero sampleImage) h0 .nil
  obtain ⟨r, hr, hdir⟩ := h.tree.rootDir
  exact ⟨s0, a, h0, by decide +kernel, ha, ha0, throughDirs_iff h hr hdir ha ha0⟩

/-- `/etc/motd/..` resolves, though `/etc/motd` is a file -/
theorem not_throughDirs_motd :
    ∃ s0 F n x, ramfsInit (fun _ => false) (Heap.init sampleImage) (fun _ => 0) = .ok s0 ∧
      FsInv s0 [] F ∧ s0.node s0.root = some n ∧ n.type = .dir ∧
      ramfsResolve s0 s0.root (lit "/etc/motd/..") = .ok x ∧ x ≠ 0 ∧
      ¬ ThroughDirs s0 s0.root (lit "/etc/motd/..") := by
  obtain ⟨s0, F, _, _, h0, h, _⟩ := boot_tmp
  obtain ⟨r, hr, hrdir⟩ := h.tree.rootDir
  have heval : (match ramfsInit (fun _ => false) (Heap.init sampleImage) (fun _ => 0) with
      | .error _ => false
      | .ok s0 => match ramfsResolve s0 s0.root (lit "/etc/motd/.."),
          follow s0 s0.root [lit "etc", lit "motd"] with
        | .ok x, .ok y => x != 0 && (s0.node y).map RamfsNode.type == some .file
        | _, _ => false) = true := by decide +kernel
  rw [h0] at heval
  cases hx : ramfsResolve s0 s0.root (lit "/etc/motd/..") with
  | error e =>
    simp only [hx] at heval
    cases heval
  | ok x =>
    cases hy : follow s0 s0.root [lit "etc", lit "motd"] with
    | error e =>
      simp only [hx, hy] at heval
      cases heval
    | ok y =>
      simp only [hx, hy, Bool.and_eq_true, bne_iff_ne, ne_eq, beq_iff_eq] at heval
      refine ⟨s0, F, r, x, h0, h, hr, hrdir, hx, heval.1, fun hl => ?_⟩
      have hcs : components (lit "/etc/motd/..") = [lit "etc", lit "motd"] ++ [dotdot] := by
        decide +kernel
      obtain ⟨z, m, hz, hm, hdir⟩ := hl _ _ hcs (by simp)
      have hs : startOf s0 s0.root (lit "/etc/motd/..") = s0.root := ite_self _
      rw [hs, hy] at hz
      cases hz
      rw [hm] at heval
      have hfile := Option.some.inj heval.2
      rw [hdir] at hfile
      cases hfile

end

end Raptor
