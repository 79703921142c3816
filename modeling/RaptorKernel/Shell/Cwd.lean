import RaptorKernel.Shell.ShellRuns

/-!
# The working directory

`cmd_rm` refuses to remove the working directory itself, but not a directory above it, whose
subtree `ramfs_delete` frees with everything in it.

* `CwdSafe`       the line is no `rm` that removes a directory above the working directory;
* `cwd_is_dir`    along lines like that, the working directory is a directory of the tree, and
                  every further such line comes to its end or halts the machine;
* `rmTest`, `exists_run`   runs found by executing them;
* `cwd_freed_by_rm`   `rm -r /a` in `/a/b`.
-/

namespace Raptor
open Forest

/-- `c` is on the children list of `d` -/
def ChildOf (s : Ramfs) (d c : Nat) : Prop :=
  ∃ n l, s.node d = some n ∧ Chain s.links.next 0 n.children l ∧ c ∈ l

/-- every live node is reached from the root through children links -/
theorem reachable_of_live {s : Ramfs} {held : List Nat} {F : Forest Nat} (h : FsInv s held F) {a : Nat}
    {n : RamfsNode} (ha : s.node a = some n) : Relation.ReflTransGen (ChildOf s) s.root a := by
  obtain ⟨p, hp⟩ := exists_pathTo h.tree ha
  clear ha
  induction hp with
  | root => exact .refl
  | child ha hr _ ih =>
    obtain ⟨q, hq⟩ := h.tree.parent_live ha hr
    obtain ⟨K, _, hch, hmem⟩ := h.tree.kids hq
    exact ih.tail ⟨q, K.tops, hq, hch, (hmem _).mpr ⟨_, ha, rfl⟩⟩

/-- if the line runs `rm`, it is safe for the working directory -/
def CwdSafe (sh : Shell) (i : Input) : Prop :=
  ∀ args s, commandOf sh.fs i.line.bytes = some (.rm, args, s) → RmSafe sh.cwd s false args

theorem cwd_step {sh : Shell} (hi : ShInv sh) (hcwd : IsDir sh.fs sh.cwd) {i : Input}
    (hs : CwdSafe sh i) :
    shellStep i.env sh i.line.bytes = .error .halted ∨
      ∃ sh', shellStep i.env sh i.line.bytes = .ok sh' ∧ IsDir sh'.fs sh'.cwd := by
  obtain ⟨c, hc, hdir⟩ := hcwd
  obtain ⟨F, h⟩ := hi.files
  obtain ⟨sh1, h1⟩ := beforeExecute_returns i.line.bytes hi hc
  obtain ⟨e1, e2, _, _⟩ := beforeExecute_ran h1
  unfold shellStep
  rw [h1, ok_bind]
  have h' : FsInv sh1.fs [] F := e1 ▸ h
  refine execute_returns h' ?_ ?_ i.env i.line.nulFree ?_
  · rw [e1]
    exact hi.nulFree
  · rw [e1, e2]
    exact ⟨c, hc, hdir⟩
  · rw [e1, e2]
    exact hs

theorem cwd_kept {sh t : Shell} (hi : ShInv sh) (hcwd : IsDir sh.fs sh.cwd) {i : Input}
    (hl : CwdSafe sh i) (hs : shellStep i.env sh i.line.bytes = .ok t) : IsDir t.fs t.cwd := by
  rcases cwd_step hi hcwd hl with h1 | ⟨sh', h1, h2⟩
  · rw [hs] at h1
    cases h1
  · rw [hs] at h1
    cases h1
    exact h2

theorem safe_run {sh0 sh : Shell} (hi0 : ShInv sh0) (hcwd0 : IsDir sh0.fs sh0.cwd) {is : List Input}
    (r : (shellMachine CwdSafe).Run sh0 is sh) : ShInv sh ∧ IsDir sh.fs sh.cwd := by
  refine r.inv (I := fun sh => ShInv sh ∧ IsDir sh.fs sh.cwd) ⟨hi0, hcwd0⟩ ?_
  rintro sh i t ⟨hi, hcwd⟩ hl hs
  exact ⟨(step_ran hi i.line.nulFree hs).1, cwd_kept hi hcwd hl hs⟩

/-- the next safe line ends, or halts the machine -/
theorem safe_next {sh : Shell} (hi : ShInv sh) (hcwd : IsDir sh.fs sh.cwd) {i : Input} (hl : CwdSafe sh i) :
    shellStep i.env sh i.line.bytes = .error .halted ∨ ∃ sh', shellStep i.env sh i.line.bytes = .ok sh' :=
  (cwd_step hi hcwd hl).imp id fun ⟨sh', hs, _⟩ => ⟨sh', hs⟩

/-- In every run from boot whose lines are all safe, the working directory is a live directory that
is reached from the root through children links; and a further safe line does not fault. -/
theorem cwd_is_dir {img : Image} {m : Mem} {screen : List ConEv} {sh0 sh : Shell}
    (h0 : boot img m screen = .ok sh0) {is : List Input} (r : (shellMachine CwdSafe).Run sh0 is sh) :
    IsDir sh.fs sh.cwd ∧ Relation.ReflTransGen (ChildOf sh.fs) sh.fs.root sh.cwd ∧
      ∀ i, CwdSafe sh i → shellStep i.env sh i.line.bytes = .error .halted ∨
        ∃ sh', shellStep i.env sh i.line.bytes = .ok sh' := by
  obtain ⟨hi0, hcwd0, -⟩ := boot_inv h0
  obtain ⟨hi, c, hc, hdir⟩ := safe_run hi0 hcwd0 r
  obtain ⟨F, h⟩ := hi.files
  exact ⟨⟨c, hc, hdir⟩, reachable_of_live h hc, fun i hl => safe_next hi ⟨c, hc, hdir⟩ hl⟩

/-! ## at the root -/

/-- the loop of `ramfs_move` finds what lies above -/
theorem not_below_of_aboveLoop {s : Ramfs} {a p fuel : Nat} (h : aboveLoop s a fuel p = .ok false) :
    ¬ Below s a p := by
  rintro ⟨l, hl, ha⟩
  induction fuel generalizing p l with
  | zero => cases h
  | succ fuel ih =>
    unfold aboveLoop at h
    by_cases hp0 : p = 0
    · cases l with
      | nil => cases ha
      | cons x l => exact hl.2.1 (hl.1 ▸ hp0)
    by_cases hpa : p = a
    · rw [if_neg hp0, if_pos hpa] at h
      cases h
    rw [if_neg hp0, if_neg hpa] at h
    obtain ⟨n, hn, h⟩ := bind_eq_ok.mp h
    obtain ⟨l', rfl, hl'⟩ := hl.head hp0
    rw [Ramfs.links_par (Ramfs.deref_eq_ok.mp hn)] at hl'
    rcases List.mem_cons.mp ha with rfl | ha
    · exact hpa rfl
    · exact ih h l' hl' ha

/-- what `rm` would remove, tested with the kernel's own functions -/
def rmTest (cwd : Nat) : Ramfs → Bool → List (List UInt8) → Bool
  | _, _, [] => true
  | s, recursive, a :: args =>
    if a = dashR then rmTest cwd s true args
    else
      match ramfsResolve s cwd a with
      | .error _ => true
      | .ok n =>
        if n = 0 ∨ n = cwd then true
        else
          match ramfsDelete s n recursive with
          | .ok (true, s') =>
            (match aboveLoop s n loopBound cwd with
              | .ok below => !below
              | .error _ => false) && rmTest cwd s' recursive args
          | _ => true

theorem rmSafe_of_test {cwd : Nat} {s : Ramfs} {recursive : Bool} {args : List (List UInt8)}
    (h : rmTest cwd s recursive args = true) : RmSafe cwd s recursive args := by
  induction args generalizing s recursive with
  | nil => trivial
  | cons a args ih =>
    unfold rmTest at h
    unfold RmSafe
    by_cases ha : a = dashR
    · rw [if_pos ha] at h
      rw [if_pos ha]
      exact ih h
    rw [if_neg ha] at h
    rw [if_neg ha]
    intro n s' hn hn0 hnc hd
    rw [hn] at h
    have hout : ¬ (n = 0 ∨ n = cwd) := fun e => e.elim hn0 hnc
    simp only [if_neg hout, hd, Bool.and_eq_true] at h
    obtain ⟨h1, h2⟩ := h
    refine ⟨?_, ih h2⟩
    cases hl : aboveLoop s n loopBound cwd with
    | error e =>
      rw [hl] at h1
      cases h1
    | ok below =>
      rw [hl] at h1
      cases below with
      | true => cases h1
      | false => exact not_below_of_aboveLoop hl

def cwdTest (sh : Shell) (i : Input) : Bool :=
  match commandOf sh.fs i.line.bytes with
  | some (.rm, args, s) => rmTest sh.cwd s false args
  | _ => true

theorem cwdSafe_of_test {sh : Shell} {i : Input} (h : cwdTest sh i = true) : CwdSafe sh i := by
  intro args s e
  unfold cwdTest at h
  rw [e] at h
  exact rmSafe_of_test h

/-- a run from boot, found by executing the lines; each is tested before it runs -/
theorem exists_run {legal : Shell → Input → Prop} (ok : Shell → Input → Bool)
    (hok : ∀ sh i, ShInv sh → ok sh i = true → legal sh i) (ls : List Input) (P : Shell → Bool)
    (h : ((boot sampleImage (fun _ => 0) []).toOption.bind
      fun sh0 => (shellMachine legal).checked ok sh0 ls).any P = true) :
    ∃ sh0 sh, boot sampleImage (fun _ => 0) [] = .ok sh0 ∧ (shellMachine legal).Run sh0 ls sh ∧
      P sh = true := by
  obtain ⟨sh0, h0, hi0, _⟩ := boot_spec sampleImage (fun _ => 0) []
  rw [h0] at h
  have h : ((shellMachine legal).checked ok sh0 ls).any P = true := h
  cases hs : (shellMachine legal).checked ok sh0 ls with
  | none =>
    rw [hs] at h
    cases h
  | some sh =>
    rw [hs] at h
    have hkept : ∀ sh i t, ShInv sh → legal sh i → (shellMachine legal).step sh i = .ok t → ShInv t :=
      fun sh i t hi _ ht => (step_ran hi i.line.nulFree ht).1
    exact ⟨sh0, sh, h0, .of_checked hok hkept hi0 hs, h⟩

/-! ## concrete lines -/

def sampleEnv : Env where
  cpuid _ := (0, 0, 0, 0)
  pciRead _ _ _ := 0xffffffff
  pmmTotalKib := 131072
  pmmUsedKib := 8192
  ticks _ := 0
  rtc := ⟨2026, 1, 1, 0, 0, 0⟩
  raptorBuild := []
  raptorCompiler := []

/-- `mkdir /a /b`, `cd /a`, `rm -r /b`: what goes lies beside the working directory -/
theorem cwd_is_dir_rm_beside :
    ∃ sh0 sh, boot sampleImage (fun _ => 0) [] = .ok sh0 ∧
      (shellMachine CwdSafe).Run sh0 [⟨sampleEnv, lit "mkdir /a /b", by decide⟩,
        ⟨sampleEnv, lit "cd /a", by decide⟩, ⟨sampleEnv, lit "rm -r /b", by decide⟩] sh ∧
      IsDir sh.fs sh.cwd ∧ (ramfsResolve sh.fs sh.cwd (lit "/b")).toOption = some 0 := by
  obtain ⟨sh0, sh, h0, r, hp⟩ := exists_run cwdTest (fun _ _ _ h => cwdSafe_of_test h)
    [⟨sampleEnv, lit "mkdir /a /b", by decide⟩, ⟨sampleEnv, lit "cd /a", by decide⟩,
      ⟨sampleEnv, lit "rm -r /b", by decide⟩]
    (fun sh => decide ((ramfsResolve sh.fs sh.cwd (lit "/b")).toOption = some 0)) (by decide +kernel)
  exact ⟨sh0, sh, h0, r, (cwd_is_dir h0 r).1, of_decide_eq_true hp⟩

/-- `mkdir /a /a/b`, `cd /a/b`, `rm -r /a`: nothing complains, and the working directory is gone -/
theorem cwd_freed_by_rm :
    ∃ sh0 sh, boot sampleImage (fun _ => 0) [] = .ok sh0 ∧
      (shellMachine fun _ _ => True).Run sh0 [⟨sampleEnv, lit "mkdir /a /a/b", by decide⟩,
        ⟨sampleEnv, lit "cd /a/b", by decide⟩, ⟨sampleEnv, lit "rm -r /a", by decide⟩] sh ∧
      ¬ ∃ n, sh.fs.node sh.cwd = some n := by
  obtain ⟨sh0, sh, h0, r, hp⟩ := exists_run (fun _ _ => true) (fun _ _ _ _ => trivial)
    [⟨sampleEnv, lit "mkdir /a /a/b", by decide⟩, ⟨sampleEnv, lit "cd /a/b", by decide⟩,
      ⟨sampleEnv, lit "rm -r /a", by decide⟩]
    (fun sh => (sh.fs.node sh.cwd).isNone) (by decide +kernel)
  refine ⟨sh0, sh, h0, r, ?_⟩
  rintro ⟨n, hn⟩
  simp only [hn, Option.isNone_some] at hp
  cases hp

end Raptor
