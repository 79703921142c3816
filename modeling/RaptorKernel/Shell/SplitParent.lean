import RaptorKernel.Fs.Delete
import RaptorKernel.Shell.ShellNames

/-!
# mv and walk on one path

`split_parent` cuts a path at its last slash into a buffer of 256 bytes, and takes any text behind
it for a name; `walk` goes from component to component, skips slashes at the end, and refuses a
component of 32 bytes or more.

* `walk_last`        where `walk` would put a new node;
* `splitParent_eq`   where `split_parent` would;
* `MvAgrees`         `mv` to a path names a new node where `ramfs_create` would have;
* `MvFits`           the paths where it does.
-/

namespace Raptor
open Forest

def ShortNames (s : Ramfs) : Prop :=
  ∀ a n, s.node a = some n → a ≠ s.root → n.name.length < ramfsNameMax

/-- `split_parent` sees the last component, and what precedes it fits its buffer -/
def Cuttable (path : List UInt8) : Prop :=
  path.getLast? ≠ some slash ∧ (dirPart path).length ≤ ramfsPathMax

/-- a command that failed and left the files alone -/
def Refuses (sh : Shell) (r : Except Fault Done) : Prop :=
  ∃ d, r = .ok d ∧ d.rc = 1 ∧ d.fs = sh.fs

structure MvAgrees (sh : Shell) (path : List UInt8) : Prop where
  same : ∀ w, walk sh.fs sh.cwd path true = .ok w → w.parent ≠ 0 →
    splitParent sh.fs sh.cwd path = .ok (w.parent, w.name)
  made : ∀ w a src, walk sh.fs sh.cwd path true = .ok w → w.parent ≠ 0 →
    ramfsResolve sh.fs sh.cwd a = .ok src → src ≠ 0 →
    cmdMv sh [a, path] = mvTo sh src w.parent w.name
  refused : ∀ w a, walk sh.fs sh.cwd path true = .ok w → w.parent = 0 →
    Refuses sh (cmdMv sh [a, path])

/-- Where the path without its last component leads to a directory, `split_parent` sees that
component, if it is short; if it is too long, `split_parent` does not see it, or there is nothing
that could be moved there. -/
def MvFits (sh : Shell) (path : List UInt8) : Prop :=
  ∀ d last, components path = components (dirPart path) ++ [last] →
    ramfsResolve sh.fs sh.cwd (dirPart path) = .ok d → IsDir sh.fs d →
    (last.length < ramfsNameMax → Cuttable path) ∧
    (ramfsNameMax ≤ last.length → Cuttable path → ∀ a src, ramfsResolve sh.fs sh.cwd a = .ok src →
      src ≠ 0 → src = sh.fs.root ∨ Below sh.fs src d)

section
variable {s : Ramfs} {held : List Nat} {F : Forest Nat} {cwd d : Nat} {c : RamfsNode}
  {path last : List UInt8}

/-! ## the two parsers -/

/-- a path that leads nowhere has a last component -/
theorem unresolved_last (h : TreeInv s F) (hc : s.node cwd = some c)
    (hres : ramfsResolve s cwd path = .ok 0) :
    ∃ last, components path = components (dirPart path) ++ [last] := by
  apply components_dirPart
  intro e
  obtain ⟨m, hm⟩ := startOf_live h hc path
  rw [ramfsResolve_eq s (h.ne_zero hc), e] at hres
  exact h.ne_zero hm (Except.ok.inj hres)

theorem resolve_dirPart (h : TreeInv s F) (hc : s.node cwd = some c)
    (hlast : components path = components (dirPart path) ++ [last]) :
    ramfsResolve s cwd (dirPart path) =
      follow s (startOf s cwd path) (components (dirPart path)) := by
  have hne : components path ≠ [] := by
    rw [hlast]
    exact List.append_ne_nil_of_right_ne_nil _ (List.cons_ne_nil _ _)
  rw [ramfsResolve_eq s (h.ne_zero hc), startOf_dirPart s cwd hne]

theorem components_last (hlast : components path = components (dirPart path) ++ [last]) :
    components last = [last] := by
  have hmem : last ∈ components path := by
    rw [hlast]
    exact List.mem_append_right _ (List.mem_singleton_self _)
  obtain ⟨h1, h2, _⟩ := fields_mem hmem
  exact fields_of_notMem h2 h1

/-- For a path that leads nowhere, `walk` reports the directory before the last component, and that
component, if there is such a directory and the component is a name. -/
theorem walk_last (h : FsInv s held F) (hc : s.node cwd = some c)
    (hres : ramfsResolve s cwd path = .ok 0)
    (hlast : components path = components (dirPart path) ++ [last])
    (hd : ramfsResolve s cwd (dirPart path) = .ok d) :
    (IsDir s d → last.length < ramfsNameMax → walk s cwd path true = .ok ⟨0, d, last⟩) ∧
    (IsDir s d → ramfsNameMax ≤ last.length → walk s cwd path true = .ok WalkOut.null) ∧
    (¬ IsDir s d → walk s cwd path true = .ok WalkOut.null) := by
  have h0 := h.tree.ne_zero hc
  obtain ⟨m, hm⟩ := startOf_live h.tree hc path
  have hdir := resolve_dirPart h.tree hc hlast
  rw [hd] at hdir
  have hwalk : walk s cwd path true =
      if d = 0 then .ok WalkOut.null else walkComps s true d [last] := by
    rw [walk_eq, hlast, walkComps_append s true (h.tree.ne_zero hm) _ (List.cons_ne_nil _ _),
      ← hdir, ok_bind]
  rw [hwalk]
  by_cases hd0 : d = 0
  · rw [if_pos hd0]
    have hnone : ¬ IsDir s d := by
      rintro ⟨n, hn, _⟩
      exact h.tree.ne_zero hn hd0
    exact ⟨fun e => absurd e hnone, fun e => absurd e hnone, fun _ => rfl⟩
  rw [if_neg hd0]
  obtain ⟨n, hn⟩ := follow_live h.tree h.bound' hm hdir.symm hd0
  -- from `d`, the last component leads nowhere
  have hf : follow s d [last] = .ok 0 := by
    rw [ramfsResolve_eq s h0, hlast, follow_append s (h.tree.ne_zero hm), ← hdir, ok_bind,
      if_neg hd0] at hres
    exact hres
  obtain ⟨_, hdot, hdotdot⟩ := name_of_follow h hn (by rw [components_last hlast]; exact hf)
  have hisDir : IsDir s d ↔ n.type = .dir := by
    constructor
    · rintro ⟨n', hn', hd'⟩
      rw [hn] at hn'
      cases hn'
      exact hd'
    · exact fun e => ⟨n, hn, e⟩
  rw [hisDir, walkComps]
  rw [follow_cons] at hf
  by_cases hlen : ramfsNameMax ≤ last.length
  · rw [if_pos hlen]
    exact ⟨fun _ e => absurd hlen (Nat.not_le.mpr e), fun _ _ => rfl, fun _ => rfl⟩
  rw [if_neg hlen] at hf
  rw [if_neg hlen]
  obtain ⟨o, ho, _, hname⟩ := walkNext_spec h.tree h.bound' hn last
  obtain ⟨hfile, hfind⟩ := hname hdot hdotdot
  rw [ho, ok_bind] at hf
  rw [ho, ok_bind]
  by_cases ht : n.type = .dir
  · obtain ⟨x, rfl, _⟩ := hfind ht
    have hx : x = 0 := by
      by_contra hx0
      have hf' : (if x = 0 then Except.ok 0 else follow s x []) = .ok 0 := hf
      rw [if_neg hx0] at hf'
      exact hx0 (Except.ok.inj hf')
    subst hx
    have hclip : clip ramfsNameMax last = last := by
      have h32 : ramfsNameMax = 32 := rfl
      exact List.take_of_length_le (by omega)
    refine ⟨fun _ _ => ?_, fun _ e => absurd e hlen, fun e => absurd ht e⟩
    show (if ([] : List (List UInt8)) = [] ∧ true = true ∧ last ≠ dot ∧ last ≠ dotdot then _
      else _) = _
    rw [if_pos ⟨rfl, rfl, hdot, hdotdot⟩, hclip]
  · rw [hfile ht]
    exact ⟨fun e => absurd e ht, fun e => absurd e ht, fun _ => rfl⟩

theorem rdropWhile_slash {a b : List UInt8} (hb : slash ∉ b) :
    (a ++ slash :: b).rdropWhile (· != slash) = a ++ [slash] := by
  have hall : ∀ x ∈ b.reverse, (x != slash) = true := by
    intro x hx
    rw [bne_iff_ne]
    rintro rfl
    exact hb (List.mem_reverse.mp hx)
  unfold List.rdropWhile
  rw [List.reverse_append, List.reverse_cons, List.append_assoc,
    List.dropWhile_append_of_pos hall]
  simp

theorem dirPart_of_last (hl : path.getLast? ≠ some slash) :
    dirPart path = path.rdropWhile (· != slash) := by
  have e : path.rdropWhile (· == slash) = path := by
    rw [List.rdropWhile_eq_self_iff]
    intro hp e
    rw [List.getLast?_eq_some_getLast hp] at hl
    exact hl (congrArg some (by simpa using e))
  rw [dirPart, e]

theorem dirPart_of_notMem (hs : slash ∉ path) : dirPart path = [] := by
  rw [dirPart_of_last fun e => hs (List.mem_of_getLast? e), List.rdropWhile_eq_nil_iff]
  intro x hx
  rw [bne_iff_ne]
  rintro rfl
  exact hs hx

section
variable {a b : List UInt8}

theorem getLast?_slash (hs : slash ∉ b) (hb : b ≠ []) : (a ++ slash :: b).getLast? ≠ some slash := by
  rw [List.getLast?_append, List.getLast?_cons, Option.some_or]
  intro e
  apply hs
  rw [← Option.some.inj e, List.getLast?_eq_some_getLast hb, Option.getD_some]
  exact List.getLast_mem hb

theorem dirPart_slash (hs : slash ∉ b) (hb : b ≠ []) : dirPart (a ++ slash :: b) = a ++ [slash] := by
  rw [dirPart_of_last (getLast?_slash hs hb)]
  exact rdropWhile_slash hs

/-- `split_parent` sees the parts of `a/b` if there is room for `a` -/
theorem cuttable_slash (hs : slash ∉ b) (hb : b ≠ []) :
    Cuttable (a ++ slash :: b) ↔ ¬ ramfsPathMax ≤ a.length := by
  have hmax : ramfsPathMax = 256 := rfl
  unfold Cuttable
  rw [dirPart_slash hs hb, List.length_append, List.length_singleton]
  constructor
  · intro ⟨_, h1⟩
    omega
  · intro h1
    exact ⟨getLast?_slash hs hb, by omega⟩

end

/-- For a path that leads nowhere, `split_parent` reports the directory before the last component,
and that component, if it sees them, and NULL if not. -/
theorem splitParent_eq (h : TreeInv s F) (hc : s.node cwd = some c)
    (hres : ramfsResolve s cwd path = .ok 0)
    (hlast : components path = components (dirPart path) ++ [last]) :
    (Cuttable path →
      splitParent s cwd path = (ramfsResolve s cwd (dirPart path)).map fun d => (d, last)) ∧
    (¬ Cuttable path → ∃ name, splitParent s cwd path = .ok (0, name)) := by
  have h0 := h.ne_zero hc
  have hne : components path ≠ [] := by
    rw [hlast]
    exact List.append_ne_nil_of_right_ne_nil _ (List.cons_ne_nil _ _)
  rcases slash_cases path with hs | ⟨a, b, rfl, hs⟩
  · have hdir := dirPart_of_notMem hs
    have hend : path.getLast? ≠ some slash := fun e => hs (List.mem_of_getLast? e)
    have hpath : path = last := by
      have hp : path ≠ [] := by
        rintro rfl
        exact hne rfl
      have e : [path] = components (dirPart path) ++ [last] := by
        rw [← hlast]
        exact (fields_of_notMem hs hp).symm
      rw [hdir] at e
      exact (List.cons.inj e).1
    refine ⟨fun _ => ?_, fun e => absurd ⟨hend, by rw [hdir]; decide⟩ e⟩
    rw [splitParent_notMem s cwd hs, hdir, ramfsResolve_eq s h0]
    show Except.ok (cwd, path) = .ok (cwd, last)
    rw [hpath]
  have hcomp : components (a ++ slash :: b) = components a ++ components b := components_append_slash a b
  rw [splitParent_slash s cwd hs]
  by_cases hb : b = []
  · -- the path ends in a slash
    subst hb
    have hend : (a ++ [slash]).getLast? = some slash := List.getLast?_concat
    have ha : a ≠ [] := by
      rintro rfl
      exact hne hcomp
    refine ⟨fun e => absurd hend e.1, fun _ => ⟨[], ?_⟩⟩
    have hnull : ramfsResolve s cwd a = .ok 0 := by
      rw [ramfsResolve_eq s h0, startOf_append ha, hcomp] at hres
      rw [ramfsResolve_eq s h0, ← hres]
      exact congrArg _ (List.append_nil _).symm
    rw [if_neg ha, hnull]
    exact ite_self _
  have hdir := dirPart_slash (a := a) hs hb
  have hcomp' : components (a ++ [slash]) = components a := fields_append_singleton a
  have hlastb : b = last := by
    have hb' : components b = [b] := fields_of_notMem hs hb
    rw [hlast, hdir, hcomp', hb'] at hcomp
    exact (List.cons.inj (List.append_cancel_left hcomp)).1.symm
  rw [cuttable_slash hs hb, hdir, ← hlastb]
  by_cases ha : a = []
  · subst ha
    rw [if_pos rfl]
    refine ⟨fun _ => ?_, fun e => absurd (by decide) e⟩
    rw [ramfsResolve_eq s h0]
    rfl
  rw [if_neg ha]
  constructor
  · intro h1
    rw [if_neg h1, ramfsResolve_eq s h0, ramfsResolve_eq s h0, startOf_append ha, hcomp']
  · intro h1
    exact ⟨b, if_pos (not_not.mp h1)⟩

end

/-! ## mv -/

section
variable {sh : Shell} {held : List Nat} {F : Forest Nat} {c : RamfsNode} {d src : Nat}
  {a path last : List UInt8}

/-- `mv` of something that is there, to a path that leads nowhere -/
theorem cmdMv_new (hsrc : ramfsResolve sh.fs sh.cwd a = .ok src) (hsrc0 : src ≠ 0)
    (hres : ramfsResolve sh.fs sh.cwd path = .ok 0) : cmdMv sh [a, path] = mvNew sh src path := by
  unfold cmdMv
  dsimp only
  rw [hsrc, ok_bind, if_neg hsrc0, hres, ok_bind, if_pos rfl]

theorem mvNew_dir {name : List UInt8} (h : TreeInv sh.fs F)
    (hsp : splitParent sh.fs sh.cwd path = .ok (d, name)) (hd : IsDir sh.fs d) :
    mvNew sh src path = mvTo sh src d name := by
  obtain ⟨p, hp, ht⟩ := hd
  unfold mvNew
  rw [hsp, ok_bind]
  dsimp only
  rw [if_neg (h.ne_zero hp), Ramfs.deref_ok hp, ok_bind, if_neg (not_not.mpr ht)]

theorem mvNew_refuses {name : List UInt8} (hsp : splitParent sh.fs sh.cwd path = .ok (d, name))
    (hlive : d ≠ 0 → ∃ n, sh.fs.node d = some n) (hd : ¬ IsDir sh.fs d) :
    Refuses sh (mvNew sh src path) := by
  unfold mvNew
  rw [hsp, ok_bind]
  dsimp only
  by_cases hd0 : d = 0
  · rw [if_pos hd0]
    exact ⟨_, rfl, rfl, rfl⟩
  obtain ⟨n, hn⟩ := hlive hd0
  have ht : n.type ≠ .dir := fun e => hd ⟨n, hn, e⟩
  rw [if_neg hd0, Ramfs.deref_ok hn, ok_bind, if_pos ht]
  exact ⟨_, rfl, rfl, rfl⟩

/-- `mv` refuses whatever it cannot find, and what `mvNew` refuses -/
theorem cmdMv_refuses (h : FsInv sh.fs held F) (hc : sh.fs.node sh.cwd = some c)
    (hres : ramfsResolve sh.fs sh.cwd path = .ok 0) (a : List UInt8)
    (hnew : ∀ src, ramfsResolve sh.fs sh.cwd a = .ok src → src ≠ 0 →
      Refuses sh (mvNew sh src path)) : Refuses sh (cmdMv sh [a, path]) := by
  obtain ⟨src, hsrc, _⟩ := ramfsResolve_spec h.tree h.bound' hc a
  by_cases hsrc0 : src = 0
  · unfold cmdMv
    dsimp only
    rw [hsrc, ok_bind, if_pos hsrc0]
    exact ⟨_, rfl, rfl, rfl⟩
  · rw [cmdMv_new hsrc hsrc0 hres]
    exact hnew src hsrc hsrc0

/-- a name that no node can have is refused only where nothing could be moved -/
theorem mvTo_refuses_iff (h : FsInv sh.fs held F) (hn : ShortNames sh.fs) {x : RamfsNode}
    (hx : sh.fs.node src = some x) (hd : IsDir sh.fs d) (hlong : ramfsNameMax ≤ last.length) :
    Refuses sh (mvTo sh src d last) ↔ src = sh.fs.root ∨ Below sh.fs src d := by
  obtain ⟨p, hp, ht⟩ := hd
  obtain ⟨b, s', F', hmove, _, hsame, _, hiff⟩ := ramfsMove_spec h hx hp last
  have hfree : ∀ y m, sh.fs.node y = some m → m.parent = d → m.name ≠ last := by
    intro y m hy hpar e
    have hyr : y ≠ sh.fs.root := by
      intro er
      have h1 := (h.tree.parent_eq_zero_iff hy).mpr er
      exact h.tree.ne_zero hp (hpar.symm.trans h1)
    have h1 := hn y m hy hyr
    rw [e] at h1
    exact absurd hlong (Nat.not_le.mpr h1)
  have hto : mvTo sh src d last =
      if b = false then .ok ⟨s', sh.cwd, puts "mv: move failed\n", 1⟩ else .ok ⟨s', sh.cwd, [], 0⟩ := by
    unfold mvTo
    rw [hmove, ok_bind]
  rw [hto]
  cases b with
  | false =>
    have hno : ¬ (src ≠ sh.fs.root ∧ ¬ Below sh.fs src d) := by
      rintro ⟨h1, h2⟩
      cases hiff.mpr ⟨h1, ht, hfree, h2⟩
    refine ⟨fun _ => ?_, fun _ => ⟨_, rfl, rfl, hsame rfl⟩⟩
    by_contra e
    exact hno (not_or.mp e)
  | true =>
    obtain ⟨h1, _, _, h2⟩ := hiff.mp rfl
    refine ⟨?_, fun e => absurd e (not_or.mpr ⟨h1, h2⟩)⟩
    rintro ⟨_, e, hrc, _⟩
    cases e
    cases hrc

theorem mvAgrees_null (hw : walk sh.fs sh.cwd path true = .ok WalkOut.null) :
    MvAgrees sh path ↔ ∀ a, Refuses sh (cmdMv sh [a, path]) := by
  constructor
  · intro h a
    exact h.refused _ a hw rfl
  · intro h
    have hnull : ∀ w, walk sh.fs sh.cwd path true = .ok w → w = WalkOut.null := by
      intro w hw'
      rw [hw] at hw'
      exact (Except.ok.inj hw').symm
    refine ⟨?_, ?_, ?_⟩
    · intro w hw' hpar
      rw [hnull w hw'] at hpar
      exact absurd rfl hpar
    · intro w a src hw' hpar
      rw [hnull w hw'] at hpar
      exact absurd rfl hpar
    · intro w a _ _
      exact h a

theorem mvAgrees_name (h : TreeInv sh.fs F) (hres : ramfsResolve sh.fs sh.cwd path = .ok 0)
    (hw : walk sh.fs sh.cwd path true = .ok ⟨0, d, last⟩) (hd : IsDir sh.fs d) :
    MvAgrees sh path ↔ splitParent sh.fs sh.cwd path = .ok (d, last) := by
  have hd0 : d ≠ 0 := by
    obtain ⟨n, hn, _⟩ := hd
    exact h.ne_zero hn
  constructor
  · intro hag
    exact hag.same _ hw hd0
  · intro hsp
    have hname : ∀ w, walk sh.fs sh.cwd path true = .ok w → w = ⟨0, d, last⟩ := by
      intro w hw'
      rw [hw] at hw'
      exact (Except.ok.inj hw').symm
    refine ⟨?_, ?_, ?_⟩
    · intro w hw' _
      rw [hname w hw']
      exact hsp
    · intro w a src hw' _ hsrc hsrc0
      rw [hname w hw', cmdMv_new hsrc hsrc0 hres]
      exact mvNew_dir h hsp hd
    · intro w a hw' hpar
      rw [hname w hw'] at hpar
      exact absurd hpar hd0

/-- On a path that leads nowhere, `mv` names a new node where `ramfs_create` would have, and fails
where it would have, exactly for the paths that fit. -/
theorem mvAgrees_iff (h : FsInv sh.fs held F) (hn : ShortNames sh.fs)
    (hc : sh.fs.node sh.cwd = some c) (hres : ramfsResolve sh.fs sh.cwd path = .ok 0) :
    MvAgrees sh path ↔ MvFits sh path := by
  obtain ⟨last, hlast⟩ := unresolved_last h.tree hc hres
  obtain ⟨d, hd, hlive⟩ := ramfsResolve_spec h.tree h.bound' hc (dirPart path)
  obtain ⟨hshort, hlong, hnone⟩ := walk_last h hc hres hlast hd
  obtain ⟨hcut, huncut⟩ := splitParent_eq h.tree hc hres hlast
  rw [hd] at hcut
  have hcut : Cuttable path → splitParent sh.fs sh.cwd path = .ok (d, last) := hcut
  have hfits : MvFits sh path ↔ (IsDir sh.fs d →
      (last.length < ramfsNameMax → Cuttable path) ∧
      (ramfsNameMax ≤ last.length → Cuttable path → ∀ a src,
        ramfsResolve sh.fs sh.cwd a = .ok src → src ≠ 0 → src = sh.fs.root ∨ Below sh.fs src d)) := by
    constructor
    · intro hf
      exact hf d last hlast hd
    · intro hf d' last' hlast' hd'
      rw [hd] at hd'
      cases hd'
      obtain rfl := (List.cons.inj (List.append_cancel_left (hlast.symm.trans hlast'))).1
      exact hf
  -- where `split_parent` finds no directory, `mv` fails
  have hrefuse : ¬ Cuttable path → ∀ a, Refuses sh (cmdMv sh [a, path]) := by
    intro hu a
    obtain ⟨name, hsp⟩ := huncut hu
    have hroot : ¬ IsDir sh.fs 0 := by
      rintro ⟨n, hn, _⟩
      exact h.tree.ne_zero hn rfl
    exact cmdMv_refuses h hc hres a fun src _ _ => mvNew_refuses hsp (fun e => absurd rfl e) hroot
  rw [hfits]
  by_cases hdir : IsDir sh.fs d
  swap
  · rw [mvAgrees_null (hnone hdir)]
    refine ⟨fun _ e => absurd e hdir, fun _ a => ?_⟩
    by_cases hcp : Cuttable path
    · exact cmdMv_refuses h hc hres a fun src _ _ => mvNew_refuses (hcut hcp) hlive hdir
    · exact hrefuse hcp a
  by_cases hlen : last.length < ramfsNameMax
  · rw [mvAgrees_name h.tree hres (hshort hdir hlen) hdir]
    refine ⟨fun hsp _ => ⟨fun _ => ?_, fun e => absurd hlen (Nat.not_lt.mpr e)⟩, fun hf =>
      hcut ((hf hdir).1 hlen)⟩
    by_contra hcp
    obtain ⟨name, hsp'⟩ := huncut hcp
    obtain ⟨n, hn, _⟩ := hdir
    rw [hsp] at hsp'
    exact h.tree.ne_zero hn (congrArg Prod.fst (Except.ok.inj hsp'))
  · have hlen' := Nat.not_lt.mp hlen
    rw [mvAgrees_null (hlong hdir hlen')]
    have hmv : ∀ a src, Cuttable path → ramfsResolve sh.fs sh.cwd a = .ok src → src ≠ 0 →
        (Refuses sh (mvNew sh src path) ↔ src = sh.fs.root ∨ Below sh.fs src d) := by
      intro a src hcp hsrc hsrc0
      obtain ⟨y, hy, hly⟩ := ramfsResolve_spec h.tree h.bound' hc a
      rw [hsrc] at hy
      cases hy
      obtain ⟨x, hx⟩ := hly hsrc0
      rw [mvNew_dir h.tree (hcut hcp) hdir, mvTo_refuses_iff h hn hx hdir hlen']
    constructor
    · intro hag _
      refine ⟨fun e => absurd e hlen, fun _ hcp a src hsrc hsrc0 => ?_⟩
      rw [← hmv a src hcp hsrc hsrc0, ← cmdMv_new hsrc hsrc0 hres]
      exact hag a
    · intro hf a
      by_cases hcp : Cuttable path
      swap
      · exact hrefuse hcp a
      apply cmdMv_refuses h hc hres a
      intro src hsrc hsrc0
      exact (hmv a src hcp hsrc hsrc0).mpr ((hf hdir).2 hlen' hcp a src hsrc hsrc0)

theorem NamesInv.shortNames {s : Ramfs} (hn : NamesInv s) : ShortNames s := by
  intro a n ha hr
  have h1 := (hn.ok a n ha hr).short
  have h32 : ramfsNameMax = 32 := rfl
  omega

def tmpNewMissing (sh : Shell) : Bool :=
  (ramfsResolve sh.fs sh.cwd (lit "/tmp/new")).toOption == some 0

theorem mvAgrees_iff_tmp :
    ∃ sh, boot sampleImage (fun _ => 0) [] = .ok sh ∧
      ramfsResolve sh.fs sh.cwd (lit "/tmp/new") = .ok 0 ∧
      (MvAgrees sh (lit "/tmp/new") ↔ MvFits sh (lit "/tmp/new")) := by
  obtain ⟨sh, h0, hi, ⟨c, hc, _⟩, hn⟩ := boot_spec sampleImage (fun _ => 0) []
  obtain ⟨F, h⟩ := hi.files
  have heval : (boot sampleImage (fun _ => 0) []).toOption.any tmpNewMissing = true := by
    decide +kernel
  obtain ⟨_, h0', hmissing⟩ := any_toOption.mp heval
  cases h0.symm.trans h0'
  obtain ⟨x, hx, _⟩ := ramfsResolve_spec h.tree h.bound' hc (lit "/tmp/new")
  unfold tmpNewMissing at hmissing
  rw [hx, beq_iff_eq] at hmissing
  rw [Option.some.inj hmissing] at hx
  exact ⟨sh, h0, hx, mvAgrees_iff h hn.shortNames hc hx⟩

/-- `walk` refuses a name of 32 letters, and `mv` returns 0 -/
def mvTakesLong (sh : Shell) : Bool :=
  match ramfsResolve sh.fs sh.cwd (lit "/tmp/aaaaaaaaaaaaaaaaaaaaaaaaaaaaaaaa"),
    walk sh.fs sh.cwd (lit "/tmp/aaaaaaaaaaaaaaaaaaaaaaaaaaaaaaaa") true,
    cmdMv sh [lit "/README.txt", lit "/tmp/aaaaaaaaaaaaaaaaaaaaaaaaaaaaaaaa"] with
  | .ok x, .ok w, .ok d => x == 0 && w.parent == 0 && d.rc == 0
  | _, _, _ => false

/-- `mv /README.txt /tmp/a..a` with 32 letters: `walk` refuses the name, `mv` cuts it to 31 -/
theorem not_mvAgrees_long :
    ∃ sh F c, boot sampleImage (fun _ => 0) [] = .ok sh ∧ FsInv sh.fs [] F ∧ ShortNames sh.fs ∧
      sh.fs.node sh.cwd = some c ∧
      ramfsResolve sh.fs sh.cwd (lit "/tmp/aaaaaaaaaaaaaaaaaaaaaaaaaaaaaaaa") = .ok 0 ∧
      ¬ MvAgrees sh (lit "/tmp/aaaaaaaaaaaaaaaaaaaaaaaaaaaaaaaa") := by
  obtain ⟨sh, h0, hi, ⟨c, hc, _⟩, hn⟩ := boot_spec sampleImage (fun _ => 0) []
  obtain ⟨F, h⟩ := hi.files
  have heval : (boot sampleImage (fun _ => 0) []).toOption.any mvTakesLong = true := by
    decide +kernel
  obtain ⟨_, h0', heval⟩ := any_toOption.mp heval
  cases h0.symm.trans h0'
  unfold mvTakesLong at heval
  cases hx : ramfsResolve sh.fs sh.cwd (lit "/tmp/aaaaaaaaaaaaaaaaaaaaaaaaaaaaaaaa") with
  | error e =>
    simp only [hx] at heval
    cases heval
  | ok x =>
    cases hw : walk sh.fs sh.cwd (lit "/tmp/aaaaaaaaaaaaaaaaaaaaaaaaaaaaaaaa") true with
    | error e =>
      simp only [hx, hw] at heval
      cases heval
    | ok w =>
      cases hd : cmdMv sh [lit "/README.txt", lit "/tmp/aaaaaaaaaaaaaaaaaaaaaaaaaaaaaaaa"] with
      | error e =>
        simp only [hx, hw, hd] at heval
        cases heval
      | ok d =>
        simp only [hx, hw, hd, Bool.and_eq_true, beq_iff_eq] at heval
        obtain ⟨⟨hx0, hpar⟩, hrc⟩ := heval
        rw [hx0] at hx
        refine ⟨sh, F, c, h0, h, hn.shortNames, hc, hx, fun hag => ?_⟩
        obtain ⟨d', hd', hrc', _⟩ := hag.refused w (lit "/README.txt") hw hpar
        rw [hd] at hd'
        cases hd'
        rw [hrc] at hrc'
        cases hrc'

end

end Raptor
