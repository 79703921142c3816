import RaptorKernel.Fs.Resolve
import RaptorKernel.Shell.Cwd

/-!
# Names along runs of the shell

Names come in through `ramfs_create`, which looks for and stores one and the same component, and
through `mv`, which looks for the text after the last slash but stores its first 31 bytes.

* `UniqueNames`       what every directory should look like;
* `splitParent_name`  the text that `split_parent` cuts out of a path that leads nowhere is a name,
                      but for its length;
* `MvSafe`            the line is no `mv` to a longer name whose first 31 bytes are taken;
* `Tidy`              nor an `rm` that removes a directory above the working directory;
* `session_inv`       what holds along tidy lines;
* `names_unique`      so names are unique and resolvable.
-/

namespace Raptor
open Forest

structure UniqueNames (s : Ramfs) : Prop where
  ok : ∀ a n, s.node a = some n → a ≠ s.root → NameOk n.name
  unique : ∀ d n l, s.node d = some n → Chain s.links.next 0 n.children l →
    (l.map fun a => (s.node a).map RamfsNode.name).Nodup

theorem NamesInv.uniqueNames {s : Ramfs} {held : List Nat} {F : Forest Nat} (hn : NamesInv s)
    (h : FsInv s held F) : UniqueNames s := by
  refine ⟨hn.ok, fun d n l hd hl => ?_⟩
  obtain ⟨K, _, hch, hmem⟩ := h.tree.kids hd
  rw [hl.unique hch]
  refine List.Nodup.map_on (fun x hx y hy e => ?_) hch.nodup
  obtain ⟨a, ha, ep⟩ := (hmem x).mp hx
  obtain ⟨b, hb, eq⟩ := (hmem y).mp hy
  have hnr : ∀ z k, s.node z = some k → k.parent = d → z ≠ s.root := by
    intro z k hz hk e
    have h1 := (h.tree.parent_eq_zero_iff hz).mpr e
    exact h.tree.ne_zero hd (hk.symm.trans h1)
  rw [ha, hb] at e
  exact hn.unique x a y b ha hb (hnr x a ha ep) (hnr y b hb eq) (ep.trans eq.symm)
    (Option.some.inj e)

/-! ## split_parent -/

theorem lastSlash_none {p : List UInt8} (h : lastSlash p = none) : slash ∉ p := by
  induction p with
  | nil => simp
  | cons c p ih =>
    unfold lastSlash at h
    split at h
    · cases h
    · rename_i hp
      split at h
      · cases h
      · rename_i hc
        exact fun hm => (List.mem_cons.mp hm).elim (fun e => hc e.symm) (ih hp)

theorem lastSlash_some {p : List UInt8} {i : Nat} (h : lastSlash p = some i) :
    p = p.take i ++ slash :: p.drop (i + 1) ∧ slash ∉ p.drop (i + 1) := by
  induction p generalizing i with
  | nil => cases h
  | cons c p ih =>
    unfold lastSlash at h
    split at h
    · rename_i j hj
      cases h
      obtain ⟨h1, h2⟩ := ih hj
      refine ⟨?_, h2⟩
      show c :: p = c :: (p.take j ++ slash :: p.drop (j + 1))
      rw [← h1]
    · rename_i hp
      split at h
      · rename_i hc
        cases h
        exact ⟨by rw [hc]; rfl, lastSlash_none hp⟩
      · cases h

theorem lastSlash_of_notMem {b : List UInt8} (hb : slash ∉ b) : lastSlash b = none := by
  cases hl : lastSlash b with
  | none => rfl
  | some i =>
    obtain ⟨e, _⟩ := lastSlash_some hl
    rw [e] at hb
    simp at hb

theorem lastSlash_append {b : List UInt8} (hb : slash ∉ b) (a : List UInt8) :
    lastSlash (a ++ slash :: b) = some a.length := by
  induction a with
  | nil =>
    rw [List.nil_append, lastSlash, lastSlash_of_notMem hb]
    rfl
  | cons x a ih =>
    rw [List.cons_append, lastSlash, ih]
    rfl

/-- `split_parent` on `a/b` -/
theorem splitParent_slash (s : Ramfs) (cwd : Nat) {a b : List UInt8} (hb : slash ∉ b) :
    splitParent s cwd (a ++ slash :: b) =
      if a = [] then .ok (s.root, b)
      else if ramfsPathMax ≤ a.length then .ok (0, b)
      else (ramfsResolve s cwd a).map fun d => (d, b) := by
  have hdrop : (a ++ slash :: b).drop (a.length + 1) = b := by simp
  have htake : (a ++ slash :: b).take a.length = a := List.take_left
  unfold splitParent
  rw [lastSlash_append hb]
  dsimp only
  rw [hdrop, htake]
  simp only [List.length_eq_zero_iff]

theorem splitParent_notMem (s : Ramfs) (cwd : Nat) {path : List UInt8} (hs : slash ∉ path) :
    splitParent s cwd path = .ok (cwd, path) := by
  unfold splitParent
  rw [lastSlash_of_notMem hs]

/-- a path has no slash, or is `a/b` with the last one shown -/
theorem slash_cases (path : List UInt8) : slash ∉ path ∨ ∃ a b, path = a ++ slash :: b ∧ slash ∉ b := by
  cases hl : lastSlash path with
  | none => exact .inl (lastSlash_none hl)
  | some i =>
    obtain ⟨hsplit, hs⟩ := lastSlash_some hl
    exact .inr ⟨_, _, hsplit, hs⟩

section
variable {s : Ramfs} {held : List Nat} {F : Forest Nat}

/-- from a live node, `.`, `..` and nothing at all lead somewhere -/
theorem name_of_follow (h : FsInv s held F) {d : Nat} {n : RamfsNode} (hd : s.node d = some n)
    {name : List UInt8} (hf : follow s d (components name) = .ok 0) :
    name ≠ [] ∧ name ≠ dot ∧ name ≠ dotdot := by
  have h0 := h.tree.ne_zero hd
  refine ⟨?_, ?_, ?_⟩
  · rintro rfl
    exact h0 (Except.ok.inj hf)
  · rintro rfl
    have e : components dot = [dot] := by decide
    rw [e, follow_dot s h0] at hf
    exact h0 (Except.ok.inj hf)
  · rintro rfl
    have e : components dotdot = [dotdot] := by decide
    have hne : (if n.parent ≠ 0 then n.parent else d) ≠ 0 := by
      split
      · assumption
      · exact h0
    rw [e, follow_cons, if_neg (by decide), walkNext_dotdot hd, ok_bind] at hf
    simp only [if_neg hne] at hf
    exact hne (Except.ok.inj hf)

theorem splitParent_name (h : FsInv s held F) {cwd : Nat} {c : RamfsNode} (hc : s.node cwd = some c)
    {path : List UInt8} (hres : ramfsResolve s cwd path = .ok 0) {parent : Nat} {name : List UInt8}
    (hsp : splitParent s cwd path = .ok (parent, name)) {p : RamfsNode}
    (hp : s.node parent = some p) : name ≠ [] ∧ slash ∉ name ∧ name ≠ dot ∧ name ≠ dotdot := by
  have h0 := h.tree.ne_zero hc
  have hp0 := h.tree.ne_zero hp
  have key : follow s parent (components name) = .ok 0 ∧ slash ∉ name := by
    rcases slash_cases path with hs | ⟨a, b, rfl, hs⟩
    · rw [splitParent_notMem s cwd hs] at hsp
      obtain ⟨rfl, rfl⟩ := Prod.mk.inj (Except.ok.inj hsp)
      have hstart : startOf s cwd path = cwd := by
        refine if_neg fun e => hs ?_
        exact List.mem_of_mem_head? (Option.mem_def.mpr e)
      rw [ramfsResolve_eq s h0, hstart] at hres
      exact ⟨hres, hs⟩
    · rw [splitParent_slash s cwd hs] at hsp
      -- the part before the last slash leads to `parent`
      have hdir : follow s (startOf s cwd (a ++ slash :: b)) (components a) = .ok parent ∧ name = b := by
        by_cases ha : a = []
        · rw [if_pos ha] at hsp
          cases hsp
          subst ha
          have hstart : startOf s cwd ([] ++ slash :: name) = s.root := if_pos rfl
          rw [hstart]
          exact ⟨rfl, rfl⟩
        rw [if_neg ha] at hsp
        by_cases hlong : ramfsPathMax ≤ a.length
        · rw [if_pos hlong] at hsp
          cases hsp
          exact absurd rfl hp0
        rw [if_neg hlong] at hsp
        obtain ⟨d, hd, e⟩ := map_eq_ok.mp hsp
        cases e
        rw [ramfsResolve_eq s h0] at hd
        rw [startOf_append ha]
        exact ⟨hd, rfl⟩
      obtain ⟨hdir, rfl⟩ := hdir
      obtain ⟨m, hm⟩ := startOf_live h.tree hc (a ++ slash :: name)
      have hcomp := components_append_slash a name
      rw [ramfsResolve_eq s h0, hcomp, follow_append s (h.tree.ne_zero hm), hdir, ok_bind,
        if_neg hp0] at hres
      exact ⟨hres, hs⟩
  obtain ⟨h1, h2, h3⟩ := name_of_follow h hp key.1
  exact ⟨h1, key.2, h2, h3⟩

end

/-! ## mv -/

/-- If the line moves something to a name of 32 bytes or more, no other node of that directory is
called by the first 31 of them. -/
def MvSafe (sh : Shell) (i : Input) : Prop :=
  ∀ a b s src parent name, commandOf sh.fs i.line.bytes = some (.mv, [a, b], s) →
    ramfsResolve s sh.cwd a = .ok src → src ≠ 0 → ramfsResolve s sh.cwd b = .ok 0 →
    splitParent s sh.cwd b = .ok (parent, name) → ramfsNameMax ≤ name.length →
    src = s.root ∨ Below s src parent ∨
      ∀ x n, x ≠ src → s.node x = some n → n.parent = parent → n.name ≠ clip ramfsNameMax name

/-- a text without slash, cut to 31 bytes, is a name -/
theorem nameOk_clip {name : List UInt8} (h1 : name ≠ []) (h2 : slash ∉ name) (h3 : name ≠ dot)
    (h4 : name ≠ dotdot) : NameOk (clip ramfsNameMax name) := by
  have h32 : ramfsNameMax = 32 := rfl
  have hpos : 0 < name.length := List.length_pos_iff.mpr h1
  have hlen : (clip ramfsNameMax name).length = min 31 name.length := List.length_take
  have hshort : name.length ≤ 31 → clip ramfsNameMax name = name := fun h =>
    List.take_of_length_le (by omega)
  have hdots : ∀ d : List UInt8, d.length ≤ 2 → name ≠ d → clip ramfsNameMax name ≠ d := by
    intro d hd hne e
    have h5 := congrArg List.length e
    rw [hlen] at h5
    rw [hshort (by omega)] at e
    exact hne e
  exact ⟨by omega, by omega, fun hm => h2 (List.mem_of_mem_take hm), hdots dot (by decide) h3,
    hdots dotdot (by decide) h4⟩

theorem Mv.names {sh : Shell} {held : List Nat} {F : Forest Nat} (h : FsInv sh.fs held F)
    (hn : NamesInv sh.fs) {c : RamfsNode} (hc : sh.fs.node sh.cwd = some c)
    {args : List (List UInt8)} {t : Ramfs} {src parent : Nat} {name : List UInt8}
    (hmv : Mv sh args t src parent name)
    (hsafe : ∀ a b, args = [a, b] → ramfsResolve sh.fs sh.cwd a = .ok src →
      ramfsResolve sh.fs sh.cwd b = .ok 0 → splitParent sh.fs sh.cwd b = .ok (parent, name) →
      ramfsNameMax ≤ name.length → src = sh.fs.root ∨ Below sh.fs src parent ∨
        ∀ x n, x ≠ src → sh.fs.node x = some n → n.parent = parent →
          n.name ≠ clip ramfsNameMax name) : NamesInv t := by
  obtain ⟨x, hx⟩ := hmv.srcLive
  obtain ⟨p, hp⟩ := hmv.parentLive
  obtain ⟨b, t', _, h1, _, _, h4, h5⟩ := ramfsMove_spec h hx hp name
  rw [hmv.moved] at h1
  cases h1
  have hmoved := h4 rfl
  obtain ⟨hroot, _, hfree, hbelow⟩ := h5.mp rfl
  have h32 : ramfsNameMax = 32 := rfl
  -- a name that is not cut is free, as `find_child` found
  have hshort : name.length ≤ 31 → NameOk name → NamesInv t := by
    intro hlen hok
    have hclip : clip ramfsNameMax name = name := List.take_of_length_le (by omega)
    rw [hclip] at hmoved
    exact hn.move hmoved hok fun y m _ _ hy ep => hfree y m hy ep
  rcases hmv.origin with ⟨x', hx', rfl⟩ | ⟨a, b, hargs, ha, hb, hsp⟩
  · have hok := hn.ok src x' hx' hroot
    exact hshort hok.short hok
  · obtain ⟨n1, n2, n3, n4⟩ := splitParent_name h hc hb hsp hp
    have hok := nameOk_clip n1 n2 n3 n4
    by_cases hlen : ramfsNameMax ≤ name.length
    · rcases hsafe a b hargs ha hb hsp hlen with e | e | e
      · exact absurd e hroot
      · exact absurd e hbelow
      · exact hn.move hmoved hok fun y m hy _ hm ep => e y m hy hm ep
    · have hclip : clip ramfsNameMax name = name := List.take_of_length_le (by omega)
      exact hshort (by omega) (hclip ▸ hok)

theorem names_of_step {sh t : Shell} (hi : ShInv sh) (hn : NamesInv sh.fs) {i : Input}
    (hl : MvSafe sh i) (hs : shellStep i.env sh i.line.bytes = .ok t) : NamesInv t.fs := by
  obtain ⟨_, ⟨c, hc⟩, ⟨_, e, _⟩ | ⟨sh0, cmd, args, sh1, d, s, e1, e2, hran⟩⟩ :=
    step_ran hi i.line.nulFree hs
  · rw [e]
    exact hn
  obtain ⟨held, F, h⟩ := hran.inv
  have hcmd : commandOf sh.fs i.line.bytes = some (cmd, args, sh1.fs) := e1 ▸ hran.command
  have hc1 : sh1.fs.node sh1.cwd = some c := by
    rw [hran.before.node, hran.cwd, e1, e2]
    exact hc
  have hz1 : NulFree sh1.fs := hran.before.nulFree (e1 ▸ hi.nulFree)
  have hn1 : NamesInv sh1.fs := hran.before.names (e1 ▸ hn)
  obtain ⟨hcalls, _⟩ := run_calls h hz1 hc1 hran.nulFree hran.run
  have hn2 : NamesInv d.fs := by
    by_cases hmv : cmd = .mv
    · subst hmv
      obtain ⟨d', h1, _, h2⟩ := cmdMv_spec h hz1 hc1 hran.nulFree
      have h3 : cmdMv sh1 args = .ok d := hran.run
      rw [h3] at h1
      cases h1
      rcases h2 with e | ⟨src, parent, name, hmv⟩
      · rw [e]
        exact hn1
      · refine hmv.names h hn1 hc1 fun a b hargs ha hb hsp hlen => ?_
        subst hargs
        obtain ⟨x, hx⟩ := hmv.srcLive
        rw [hran.cwd, e2] at ha hb hsp
        exact hl a b sh1.fs src parent name hcmd ha (h.tree.ne_zero hx) hb hsp hlen
    · exact hcalls.names (calls_notMove hmv) h hn1
  obtain ⟨_, h2⟩ := hcalls.inv h
  refine hran.after.names (hran.redirected.names (fun op hop => ?_) h2 hn2)
  cases op with
  | move _ _ _ => cases hop
  | _ => rfl

/-! ## sessions -/

/-- The line keeps the working directory in the tree, and names unique. -/
def Tidy (sh : Shell) (i : Input) : Prop := CwdSafe sh i ∧ MvSafe sh i

/-- after any such lines -/
theorem session_inv {img : Image} {m : Mem} {screen : List ConEv} {sh0 sh : Shell}
    (h0 : boot img m screen = .ok sh0) {is : List Input} (r : (shellMachine Tidy).Run sh0 is sh) :
    ShInv sh ∧ IsDir sh.fs sh.cwd ∧ NamesInv sh.fs := by
  refine r.inv (I := fun sh => ShInv sh ∧ IsDir sh.fs sh.cwd ∧ NamesInv sh.fs) (boot_inv h0) ?_
  rintro sh i t ⟨hi, hdir, hn⟩ hl hs
  exact ⟨(step_ran hi i.line.nulFree hs).1, cwd_kept hi hdir hl.1 hs, names_of_step hi hn hl.2 hs⟩

/-- In every run from boot whose lines are all tidy, no two children of a directory have the same
name, and every name but the root's is one that a path component can spell; and a further such line
does not fault. -/
theorem names_unique {img : Image} {m : Mem} {screen : List ConEv} {sh0 sh : Shell}
    (h0 : boot img m screen = .ok sh0) {is : List Input} (r : (shellMachine Tidy).Run sh0 is sh) :
    UniqueNames sh.fs ∧
      ∀ i, Tidy sh i → shellStep i.env sh i.line.bytes = .error .halted ∨
        ∃ sh', shellStep i.env sh i.line.bytes = .ok sh' := by
  obtain ⟨hi, hdir, hn⟩ := session_inv h0 r
  obtain ⟨F, h⟩ := hi.files
  exact ⟨hn.uniqueNames h, fun i hl => safe_next hi hdir hl.1⟩

/-! ## concrete lines -/

/-- `MvSafe`, tested: `find_child` looks for the name that would be stored -/
def mvTest (sh : Shell) (i : Input) : Bool :=
  match commandOf sh.fs i.line.bytes with
  | some (.mv, [_, b], s) =>
    match splitParent s sh.cwd b with
    | .ok (parent, name) =>
      decide (name.length < ramfsNameMax) ||
        (match findChild s parent (clip ramfsNameMax name) with
        | .ok c => c = 0
        | .error _ => false)
    | .error _ => true
  | _ => true

theorem mvSafe_of_test {sh : Shell} (hi : ShInv sh) {i : Input} (h : mvTest sh i = true) : MvSafe sh i := by
  intro a b s src parent name e _ _ _ hsp hlong
  obtain ⟨F, hF⟩ := hi.files
  obtain ⟨⟨held, hs⟩, -⟩ := commandOf_inv hF e
  unfold mvTest at h
  rw [e] at h
  dsimp only at h
  rw [hsp] at h
  have hshort : ¬ name.length < ramfsNameMax := by omega
  simp only [hshort, decide_false, Bool.false_or] at h
  cases hc : findChild s parent (clip ramfsNameMax name) with
  | error e =>
    rw [hc] at h
    cases h
  | ok c =>
    rw [hc] at h
    have hc0 : c = 0 := of_decide_eq_true h
    obtain ⟨p, hp, -⟩ := bind_eq_ok.mp hc
    obtain ⟨c', hc', -, hnone⟩ := findChild_spec hs.tree hs.bound' (Ramfs.deref_eq_ok.mp hp) (clip ramfsNameMax name)
    rw [hc] at hc'
    cases hc'
    exact .inr (.inr fun x n _ hx hxp => hnone hc0 x n hx hxp)

def tidyTest (sh : Shell) (i : Input) : Bool := cwdTest sh i && mvTest sh i

theorem tidy_of_test (sh : Shell) (i : Input) (hi : ShInv sh) (h : tidyTest sh i = true) : Tidy sh i := by
  obtain ⟨h1, h2⟩ := Bool.and_eq_true_iff.mp h
  exact ⟨cwdSafe_of_test h1, mvSafe_of_test hi h2⟩

/-- a file moved to a name of 32 letters, another one beside it removed -/
def tidyLines : List Input :=
  [⟨sampleEnv, lit "touch /tmp/a /tmp/b", by decide⟩,
    ⟨sampleEnv, lit "mv /tmp/b /tmp/aaaaaaaaaaaaaaaaaaaaaaaaaaaaaaaa", by decide⟩,
    ⟨sampleEnv, lit "rm /tmp/a", by decide⟩]

theorem names_unique_long :
    ∃ sh0 sh, boot sampleImage (fun _ => 0) [] = .ok sh0 ∧ (shellMachine Tidy).Run sh0 tidyLines sh ∧
      UniqueNames sh.fs := by
  obtain ⟨sh0, sh, h0, r, _⟩ := exists_run tidyTest tidy_of_test tidyLines (fun _ => true)
    (by decide +kernel)
  exact ⟨sh0, sh, h0, r, (names_unique h0 r).1⟩

/-- the first two children of `/tmp` have the same name -/
def tmpTwins (sh : Shell) : Bool :=
  match ramfsResolve sh.fs sh.cwd (lit "/tmp") with
  | .error _ => false
  | .ok d => match sh.fs.node d with
    | none => false
    | some n => match sh.fs.node n.children with
      | none => false
      | some x => match sh.fs.node x.next with
        | none => false
        | some y => x.name == y.name

/-- `touch /tmp/a..a` with 31 letters, `touch /tmp/b`, `mv /tmp/b /tmp/a..a` with 32: the first two
children of `/tmp` have the same name -/
theorem names_clash_after_mv :
    ∃ sh0 sh, boot sampleImage (fun _ => 0) [] = .ok sh0 ∧
      (shellMachine fun _ _ => True).Run sh0
        [⟨sampleEnv, lit "touch /tmp/aaaaaaaaaaaaaaaaaaaaaaaaaaaaaaa", by decide⟩,
          ⟨sampleEnv, lit "touch /tmp/b", by decide⟩,
          ⟨sampleEnv, lit "mv /tmp/b /tmp/aaaaaaaaaaaaaaaaaaaaaaaaaaaaaaaa", by decide⟩] sh ∧
      ¬ UniqueNames sh.fs := by
  obtain ⟨sh0, sh, h0, r, hp⟩ := exists_run (fun _ _ => true) (fun _ _ _ _ => trivial)
    [⟨sampleEnv, lit "touch /tmp/aaaaaaaaaaaaaaaaaaaaaaaaaaaaaaa", by decide⟩,
      ⟨sampleEnv, lit "touch /tmp/b", by decide⟩,
      ⟨sampleEnv, lit "mv /tmp/b /tmp/aaaaaaaaaaaaaaaaaaaaaaaaaaaaaaaa", by decide⟩]
    tmpTwins (by decide +kernel)
  refine ⟨sh0, sh, h0, r, ?_⟩
  intro hu
  obtain ⟨sh1, e, hi0, _⟩ := boot_spec sampleImage (fun _ => 0) []
  rw [h0] at e
  cases e
  obtain ⟨F, h⟩ := (shell_inv r hi0).files
  unfold tmpTwins at hp
  split at hp
  · cases hp
  rename_i d _
  split at hp
  · cases hp
  rename_i n hn
  split at hp
  · cases hp
  rename_i x hx
  split at hp
  · cases hp
  rename_i y hy
  have hname : x.name = y.name := by simpa using hp
  obtain ⟨K, _, hch, _⟩ := h.tree.kids hn
  obtain ⟨l, hl, hch1⟩ := hch.head (h.tree.ne_zero hx)
  rw [Ramfs.links_next hx] at hch1
  obtain ⟨l', hl', _⟩ := hch1.head (h.tree.ne_zero hy)
  have hnd := hu.unique d n _ hn hch
  rw [hl, hl'] at hnd
  simp only [List.map_cons, hx, hy, Option.map_some, hname] at hnd
  simp at hnd

end Raptor
