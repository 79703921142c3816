import RaptorKernel.Theory.PathMap
import RaptorKernel.Fs.Create
import RaptorKernel.Fs.Move
import RaptorKernel.Fs.Path

/-!
# The file system as a map from paths

The addresses of nodes, their links and the heap are gone; what is left of a state is what lies at each
path.

* `Ramfs.view`           the map;
* `Created.pathTo`, `Written.pathTo`, `Deleted.pathTo`, `Moved.pathTo_out`, `Moved.pathTo`
                         where nodes are after a call;
* `view_created`, `view_written`, `view_deleted`, `view_moved`   what it did to the map;
* `resolve_walk`         paths lead where the map says.
-/

namespace Raptor
open Forest PathMap

abbrev FileTree := Tree (List UInt8) (List UInt8)

def RamfsType.entry (t : RamfsType) (contents : List UInt8) : Entry (List UInt8) :=
  match t with
  | .dir => .dir
  | .file => .file contents

/-- what a node is, seen from outside -/
def Ramfs.entry (s : Ramfs) (a : Nat) : Option (Entry (List UInt8)) :=
  (s.node a).map fun n => n.type.entry (s.contents a)

open Classical in
/-- what lies at each path -/
noncomputable def Ramfs.view (s : Ramfs) : FileTree := fun p =>
  if h : ∃ a, PathTo s a p then s.entry h.choose else none

/-! ## nodes and their paths -/

section
variable {s t : Ramfs} {held : List Nat} {F F' : Forest Nat} {a b r parent : Nat} {n m : RamfsNode}
  {p q d : List (List UInt8)} {name : List UInt8} {ty : RamfsType}

theorem pathTo_inj (h : FsInv s held F) (hn : NamesInv s) (ha : PathTo s a p) (hb : PathTo s b p) : a = b := by
  have h1 := follow_pathTo h hn ha
  rw [follow_pathTo h hn hb] at h1
  exact (Except.ok.inj h1).symm

theorem PathTo.of_concat (ha : s.node a = some n) (hp : PathTo s a (q ++ [name])) :
    a ≠ s.root ∧ n.name = name ∧ PathTo s n.parent q := by
  generalize he : q ++ [name] = p at hp
  cases hp with
  | root => simp at he
  | child ha' hr hq =>
    rw [ha] at ha'
    cases ha'
    obtain ⟨rfl, e⟩ := List.append_inj' he rfl
    exact ⟨hr, (List.cons.inj e).1.symm, hq⟩

theorem view_eq (h : FsInv s held F) (hn : NamesInv s) (ha : PathTo s a p) : s.view p = s.entry a := by
  have hex : ∃ b, PathTo s b p := ⟨a, ha⟩
  unfold Ramfs.view
  rw [dif_pos hex, pathTo_inj h hn hex.choose_spec ha]

theorem view_none (hp : ∀ a, ¬ PathTo s a p) : s.view p = none := by
  unfold Ramfs.view
  rw [dif_neg (not_exists.mpr hp)]

theorem entry_ne_none (ha : s.node a = some n) : s.entry a ≠ none := by
  unfold Ramfs.entry
  rw [ha]
  simp

theorem view_ne_none (h : FsInv s held F) (hn : NamesInv s) : s.view p ≠ none ↔ ∃ a, PathTo s a p := by
  constructor
  · intro hp
    by_contra hno
    exact hp (view_none (not_exists.mp hno))
  · intro hp
    obtain ⟨a, ha⟩ := hp
    obtain ⟨n, hn'⟩ := ha.live h.tree
    rw [view_eq h hn ha]
    exact entry_ne_none hn'

theorem entry_dir (ha : s.node a = some n) : s.entry a = some .dir ↔ n.type = .dir := by
  unfold Ramfs.entry
  rw [ha]
  cases ht : n.type <;> simp [RamfsType.entry, ht]

theorem entry_file (ha : s.node a = some n) (ht : n.type = .file) : s.entry a = some (.file (s.contents a)) := by
  unfold Ramfs.entry
  rw [ha]
  simp [ht, RamfsType.entry]

/-- what the map says follows from what lies at the ends of the paths -/
theorem view_ext (h : FsInv s held F) (hn : NamesInv s) {f : FileTree} (hf : ∀ a p, PathTo s a p → s.entry a = f p)
    (hp : ∀ p, f p ≠ none → ∃ a, PathTo s a p) : s.view = f := by
  funext p
  by_cases hex : ∃ a, PathTo s a p
  · obtain ⟨a, ha⟩ := hex
    rw [view_eq h hn ha]
    exact hf a p ha
  · rw [view_none (not_exists.mp hex)]
    by_contra hne
    exact hex (hp p fun e => hne e.symm)

theorem view_closed (h : FsInv s held F) (hn : NamesInv s) : s.view.Closed := by
  obtain ⟨r, hr, hdir⟩ := h.tree.rootDir
  refine ⟨?_, fun p c hp => ?_⟩
  · rw [view_eq h hn .root]
    exact (entry_dir hr).mpr hdir
  · obtain ⟨a, ha⟩ := (view_ne_none h hn).mp hp
    obtain ⟨n, hna⟩ := ha.live h.tree
    obtain ⟨har, -, hq⟩ := ha.of_concat hna
    obtain ⟨q, hq'⟩ := h.tree.parent_live hna har
    rw [view_eq h hn hq]
    exact (entry_dir hq').mpr (h.parent_dir hna hq')

/-- below a node are the longer paths -/
theorem below_iff_path (h : FsInv s held F) (hn : NamesInv s) (ha : PathTo s a p) (hb : PathTo s b q) :
    Below s a b ↔ p <+: q := by
  induction hb with
  | root =>
    rw [List.prefix_nil]
    constructor
    · rintro ⟨l, hl, hal⟩
      obtain ⟨r, hr, _⟩ := h.tree.rootDir
      have h0 : s.links.par s.root = 0 := by
        rw [Ramfs.links_par hr]
        exact (h.tree.parent_eq_zero_iff hr).mpr rfl
      obtain ⟨l', rfl, hl'⟩ := hl.head (h.tree.ne_zero hr)
      rw [h0] at hl'
      rw [hl'.nil_of_nul, List.mem_singleton] at hal
      subst hal
      exact ha.unique .root
    · rintro rfl
      rw [pathTo_inj h hn ha .root]
      obtain ⟨r, hr, _⟩ := h.tree.rootDir
      exact Below.self h.tree hr
  | @child b n q hb hbr hq ih =>
    have hbq : PathTo s b (q ++ [n.name]) := .child hb hbr hq
    rw [List.prefix_concat_iff]
    by_cases hba : b = a
    · subst hba
      rw [ha.unique hbq]
      exact ⟨fun _ => .inl rfl, fun _ => Below.self h.tree hb⟩
    · have hne : p ≠ q ++ [n.name] := by
        rintro rfl
        exact hba (pathTo_inj h hn hbq ha)
      rw [below_parent h.tree hb hba, ih]
      exact ⟨.inr, fun h1 => h1.resolve_left hne⟩

/-! ## calls, in terms of paths -/

theorem entry_of_type (hn : (t.node a).map RamfsNode.type = (s.node a).map RamfsNode.type)
    (hc : t.contents a = s.contents a) : t.entry a = s.entry a := by
  have h1 := congrArg (Option.map fun ty : RamfsType => ty.entry (s.contents a)) hn
  rw [Option.map_map, Option.map_map] at h1
  unfold Ramfs.entry
  rw [hc]
  exact h1

theorem entry_congr (hn : (t.node a).map RamfsNode.plain = (s.node a).map RamfsNode.plain)
    (hc : t.contents a = s.contents a) : t.entry a = s.entry a := by
  have h1 := congrArg (Option.map fun m : RamfsNode => m.type) hn
  rw [Option.map_map, Option.map_map] at h1
  exact entry_of_type h1 hc

/-- nodes with their names and places are in one state if they are in the other -/
theorem PathTo.keep (hroot : t.root = s.root) (Out : Nat → Prop)
    (hsome : ∀ x n, s.node x = some n → ¬ Out x → ∃ m, t.node x = some m ∧ m.name = n.name ∧ m.parent = n.parent)
    (hup : ∀ x n, s.node x = some n → x ≠ s.root → ¬ Out x → ¬ Out n.parent) (ha : PathTo s a p) (hout : ¬ Out a) :
    PathTo t a p := by
  induction ha with
  | root =>
    rw [← hroot]
    exact .root
  | @child a n q ha har hq ih =>
    obtain ⟨m, hm, e1, e2⟩ := hsome a n ha hout
    have hq' := ih (hup a n ha har hout)
    rw [← e1]
    rw [← e2] at hq'
    exact .child hm (hroot ▸ har) hq'

theorem Created.pathTo (hc : Created s t r parent name ty) (ha : PathTo s a p) : PathTo t a p := by
  refine ha.keep hc.root (fun _ => False) (fun x n hx _ => ?_) (fun _ _ _ _ _ => id) id
  have hxr : x ≠ r := by
    rintro rfl
    rw [hc.fresh] at hx
    cases hx
  obtain ⟨m, hm, e⟩ := plain_some (hc.other_plain hxr).symm hx
  exact ⟨m, hm, (plain_name e).symm, (plain_parent e).symm⟩

theorem view_created (h : FsInv s held F) (hn : NamesInv s) (h' : FsInv t held F') (hn' : NamesInv t)
    (hc : Created s t r parent name ty) (hd : PathTo s parent d) :
    t.view = s.view.set (d ++ [name]) (ty.entry []) ∧ PathTo t r (d ++ [name]) := by
  obtain ⟨k, hk, -, hr⟩ := hc.first
  have hrlive : ∀ {x m}, s.node x = some m → x ≠ r := by
    intro x m hx e
    rw [e, hc.fresh] at hx
    cases hx
  have hrroot : r ≠ t.root := by
    rw [hc.root]
    obtain ⟨m, hm, -⟩ := h.tree.rootDir
    exact (hrlive hm).symm
  have hnew : PathTo t r (d ++ [name]) := .child hr hrroot (hc.pathTo hd)
  have hback : ∀ a p, PathTo t a p → a ≠ r → PathTo s a p := by
    intro a p ha har
    refine ha.keep hc.root.symm (fun x => x = r) (fun x n hx hxr => ?_) (fun x n hx hxroot hxr e => ?_) har
    · obtain ⟨m, hm, e⟩ := plain_some (hc.other_plain hxr) hx
      exact ⟨m, hm, (plain_name e).symm, (plain_parent e).symm⟩
    · obtain ⟨m, hm, e1⟩ := plain_some (hc.other_plain hxr) hx
      obtain ⟨q, hq⟩ := h.tree.parent_live hm (hc.root ▸ hxroot)
      rw [← plain_parent e1, e] at hq
      exact hrlive hq rfl
  refine ⟨view_ext h' hn' (fun a p ha => ?_) fun p hp => ?_, hnew⟩
  · by_cases har : a = r
    · subst har
      rw [ha.unique hnew, Tree.set_self]
      unfold Ramfs.entry
      rw [Ramfs.contents_eq hr, hr]
      rfl
    · have hs := hback a p ha har
      have hpne : p ≠ d ++ [name] := by
        rintro rfl
        exact har (pathTo_inj h' hn' ha hnew)
      rw [Tree.set_ne hpne, view_eq h hn hs]
      exact entry_congr (hc.other_plain har) (Ramfs.contents_plain hc.bytes (hc.other_plain har))
  · by_cases hpe : p = d ++ [name]
    · exact ⟨r, hpe ▸ hnew⟩
    · rw [Tree.set_ne hpe] at hp
      obtain ⟨a, ha⟩ := (view_ne_none h hn).mp hp
      exact ⟨a, hc.pathTo ha⟩

theorem Written.pathTo {file : Nat} {data : List UInt8} {append : Bool} (hw : Written s t file data append)
    (ha : PathTo s a q) : PathTo t a q := by
  obtain ⟨f, e, c, hf, hself⟩ := hw.self
  refine ha.keep hw.root (fun _ => False) (fun x n hx _ => ?_) (fun _ _ _ _ _ => id) id
  by_cases hxf : x = file
  · subst hxf
    rw [hf] at hx
    cases hx
    exact ⟨_, hself, rfl, rfl⟩
  · exact ⟨n, (hw.other x hxf).trans hx, rfl, rfl⟩

theorem view_written (h : FsInv s held F) (hn : NamesInv s) (h' : FsInv t held F') (hn' : NamesInv t) {file : Nat}
    {data : List UInt8} {append : Bool} (hw : Written s t file data append) (hb : Buffered s t file)
    (hty : ∀ f, s.node file = some f → f.type = .file) (hp : PathTo s file p) :
    t.view = s.view.set p (.file ((if append then s.contents file else []) ++ data)) := by
  obtain ⟨f, e, c, hf, hself⟩ := hw.self
  have hback : ∀ a q, PathTo t a q → PathTo s a q := by
    intro a q ha
    refine ha.keep hw.root.symm (fun _ => False) (fun x n hx _ => ?_) (fun _ _ _ _ _ => id) id
    by_cases hxf : x = file
    · subst hxf
      rw [hself] at hx
      cases hx
      exact ⟨f, hf, rfl, rfl⟩
    · exact ⟨n, (hw.other x hxf).symm.trans hx, rfl, rfl⟩
  refine view_ext h' hn' (fun a q ha => ?_) fun q hq => ?_
  · have hs := hback a q ha
    by_cases haf : a = file
    · subst haf
      rw [hs.unique hp, Tree.set_self, entry_file hself (hty f hf), hw.contents]
    · have hqp : q ≠ p := by
        rintro rfl
        exact haf (pathTo_inj h hn hs hp)
      rw [Tree.set_ne hqp, view_eq h hn hs]
      unfold Ramfs.entry
      rw [hw.other a haf, Ramfs.contents_other h' hself (hw.other a haf) haf (hb.bytes _ hself)]
  · by_cases hqp : q = p
    · exact ⟨file, hqp ▸ hw.pathTo hp⟩
    · rw [Tree.set_ne hqp] at hq
      obtain ⟨a, ha⟩ := (view_ne_none h hn).mp hq
      exact ⟨a, hw.pathTo ha⟩

theorem Deleted.pathTo (h : FsInv s held F) (hd : Deleted s t a) (ha : s.node a = some n) (hb : PathTo s b q)
    (hout : ¬ Below s a b) : PathTo t b q := by
  refine hb.keep hd.root (Below s a) (fun x m hx hxout => ?_) (fun x m hx _ hxout => ?_) hout
  · obtain ⟨m', hm', e⟩ := hd.left hx hxout
    exact ⟨m', hm', plain_name e, plain_parent e⟩
  · have hxa : x ≠ a := by
      rintro rfl
      exact hxout (Below.self h.tree ha)
    rwa [← below_parent h.tree hx hxa]

theorem view_deleted (h : FsInv s held F) (hn : NamesInv s) (h' : FsInv t held F') (hn' : NamesInv t)
    (hd : Deleted s t a) (ha : s.node a = some n) (hp : PathTo s a p) : t.view = s.view.remove p := by
  have hback : ∀ b q, PathTo t b q → PathTo s b q ∧ ¬ Below s a b := by
    intro b q hb
    obtain ⟨m, hm⟩ := hb.live h'.tree
    refine ⟨hb.keep hd.root.symm (fun _ => False) (fun x m hx _ => ?_) (fun _ _ _ _ _ => id) id, (hd.back hm).1⟩
    obtain ⟨_, m', hm', e⟩ := hd.back hx
    exact ⟨m', hm', (plain_name e).symm, (plain_parent e).symm⟩
  refine view_ext h' hn' (fun b q hb => ?_) fun q hq => ?_
  · obtain ⟨hs, hout⟩ := hback b q hb
    rw [Tree.remove_away (fun h1 => hout ((below_iff_path h hn hp hs).mpr h1)), view_eq h hn hs]
    exact entry_congr (hd.other b hout) (Ramfs.contents_plain hd.bytes (hd.other b hout))
  · have hout : ¬ p <+: q := fun h1 => hq (Tree.remove_below h1)
    rw [Tree.remove_away hout] at hq
    obtain ⟨b, hb⟩ := (view_ne_none h hn).mp hq
    exact ⟨b, hd.pathTo h ha hb fun h1 => hout ((below_iff_path h hn hp hb).mp h1)⟩

theorem Moved.node (hm : Moved s t a parent name) (ha : s.node a = some n) :
    (∃ m, t.node a = some m ∧ m.name = name ∧ m.parent = parent) ∧
      ∀ x m, s.node x = some m → x ≠ a → ∃ m', t.node x = some m' ∧ m'.name = m.name ∧ m'.parent = m.parent := by
  constructor
  · have h1 := hm.self
    rw [ha] at h1
    obtain ⟨m, hma, e⟩ := Option.map_eq_some_iff.mp h1
    exact ⟨m, hma, congrArg RamfsNode.name e, congrArg RamfsNode.parent e⟩
  · intro x m hx hxa
    obtain ⟨m', hm', e⟩ := plain_some (hm.other x hxa).symm hx
    exact ⟨m', hm', (plain_name e).symm, (plain_parent e).symm⟩

theorem Moved.live (hm : Moved s t a parent name) (ha : s.node a = some n) (hb : t.node b = some m) :
    ∃ k, s.node b = some k := by
  by_cases hba : b = a
  · exact ⟨n, hba ▸ ha⟩
  · obtain ⟨k, hk, -⟩ := plain_some (hm.other b hba) hb
    exact ⟨k, hk⟩

theorem Moved.entry (hm : Moved s t a parent name) (b : Nat) : t.entry b = s.entry b := by
  by_cases hba : b = a
  · subst hba
    have h1 := congrArg (Option.map fun k : RamfsNode => k.type) hm.self
    rw [Option.map_map, Option.map_map] at h1
    exact entry_of_type h1 (hm.contents b)
  · exact entry_congr (hm.other b hba) (hm.contents b)

/-- nodes outside the subtree stay where they are -/
theorem Moved.pathTo_out (h : FsInv s held F) (hm : Moved s t a parent name) (ha : s.node a = some n)
    (hb : PathTo s b q) (hout : ¬ Below s a b) : PathTo t b q := by
  obtain ⟨-, hother⟩ := hm.node ha
  have hself := Below.self h.tree ha
  refine hb.keep hm.root (Below s a) (fun x m hx hxout => hother x m hx ?_) (fun x m hx _ hxout => ?_) hout
  · rintro rfl
    exact hxout hself
  · have hxa : x ≠ a := by
      rintro rfl
      exact hxout hself
    rwa [← below_parent h.tree hx hxa]

/-- where the nodes of the subtree are afterwards -/
theorem Moved.pathTo (h : FsInv s held F) (hn : NamesInv s) (hm : Moved s t a parent name) (ha : s.node a = some n)
    (har : a ≠ s.root) (hp : PathTo s a p) (hd : PathTo t parent d) {r : List (List UInt8)}
    (hb : PathTo s b (p ++ r)) : PathTo t b (d ++ [name] ++ r) := by
  obtain ⟨⟨k, hk, e1, e2⟩, hother⟩ := hm.node ha
  induction r using List.reverseRecOn generalizing b with
  | nil =>
    rw [List.append_nil] at hb ⊢
    obtain rfl := pathTo_inj h hn hb hp
    rw [← e1]
    rw [← e2] at hd
    exact .child hk (hm.root ▸ har) hd
  | append_singleton r c ih =>
    rw [← List.append_assoc] at hb ⊢
    obtain ⟨m, hmb⟩ := hb.live h.tree
    obtain ⟨hbr, hname, hpar⟩ := hb.of_concat hmb
    have hba : b ≠ a := by
      rintro rfl
      have e := congrArg List.length (hb.unique hp)
      simp at e
    obtain ⟨m', hm', e3, e4⟩ := hother b m hmb hba
    have hup := ih hpar
    rw [← hname, ← e3]
    rw [← e4] at hup
    exact .child hm' (hm.root ▸ hbr) hup

theorem view_moved (h : FsInv s held F) (hn : NamesInv s) (h' : FsInv t held F') (hn' : NamesInv t)
    (hm : Moved s t a parent name) (ha : s.node a = some n) (har : a ≠ s.root) (hp : PathTo s a p)
    (hd : PathTo s parent d) (hout : ¬ Below s a parent) (hfree : s.view (d ++ [name]) = none) :
    t.view = s.view.rename p (d ++ [name]) := by
  have hkeep : ∀ b q, PathTo s b q → ¬ Below s a b → PathTo t b q := fun b q hb hbout =>
    hm.pathTo_out h ha hb hbout
  have hdt := hkeep parent d hd hout
  have hinto : ∀ b r, PathTo s b (p ++ r) → PathTo t b (d ++ [name] ++ r) := fun b r hb =>
    hm.pathTo h hn ha har hp hdt hb
  have hnew : ∀ b q, PathTo s b q → ¬ d ++ [name] <+: q := by
    intro b q hb hpre
    exact (view_ne_none h hn).mpr ⟨b, hb⟩ ((view_closed h hn).none_below hfree hpre)
  refine view_ext h' hn' (fun b q hb => ?_) fun q hq => ?_
  · obtain ⟨k, hk⟩ := hb.live h'.tree
    obtain ⟨m, hmb⟩ := hm.live ha hk
    obtain ⟨q0, hq0⟩ := exists_pathTo h.tree hmb
    rw [hm.entry b]
    by_cases hbelow : Below s a b
    · obtain ⟨r, rfl⟩ := (below_iff_path h hn hp hq0).mp hbelow
      rw [hb.unique (hinto b r hq0), Tree.rename_below, view_eq h hn hq0]
    · rw [hb.unique (hkeep b q0 hq0 hbelow), Tree.rename_away (hnew b q0 hq0)
        (fun h1 => hbelow ((below_iff_path h hn hp hq0).mpr h1)), view_eq h hn hq0]
  · by_cases hpre : d ++ [name] <+: q
    · obtain ⟨r, rfl⟩ := hpre
      rw [Tree.rename_below] at hq
      obtain ⟨b, hb⟩ := (view_ne_none h hn).mp hq
      exact ⟨b, hinto b r hb⟩
    · have hold : ¬ p <+: q := fun h1 => hq (Tree.rename_old hpre h1)
      rw [Tree.rename_away hpre hold] at hq
      obtain ⟨b, hb⟩ := (view_ne_none h hn).mp hq
      exact ⟨b, hkeep b q hb fun h1 => hold ((below_iff_path h hn hp hb).mp h1)⟩

/-! ## paths -/

/-- what `walk` makes of a component -/
def compOf (c : List UInt8) : Comp (List UInt8) :=
  if c = dot then .here else if c = dotdot then .up else .name c

theorem PathTo.child_of (h : FsInv s held F) (ha : PathTo s a p) (hb : s.node b = some n) (hpar : n.parent = a) :
    PathTo s b (p ++ [n.name]) := by
  obtain ⟨m, hm⟩ := ha.live h.tree
  refine .child hb (fun e => h.tree.ne_zero hm ?_) (hpar ▸ ha)
  rw [← hpar]
  exact (h.tree.parent_eq_zero_iff hb).mpr e

/-- what is at an entry of a directory is its child of that name -/
theorem PathTo.entry_of (h : FsInv s held F) (hn : NamesInv s) (ha : PathTo s a p) (hb : PathTo s b (p ++ [name])) :
    ∃ m, s.node b = some m ∧ m.parent = a ∧ m.name = name := by
  obtain ⟨m, hm⟩ := hb.live h.tree
  obtain ⟨-, hname, hq⟩ := hb.of_concat hm
  exact ⟨m, hm, pathTo_inj h hn hq ha, hname⟩

theorem view_child (h : FsInv s held F) (hn : NamesInv s) (ha : PathTo s a p) (hname : ∀ x m, s.node x = some m →
    m.parent = a → m.name ≠ name) : s.view (p ++ [name]) = none := by
  apply view_none
  intro b hb
  obtain ⟨m, hm, e1, e2⟩ := ha.entry_of h hn hb
  exact hname b m hm e1 e2

/-- one component leads where the map says -/
theorem walkNext_view (h : FsInv s held F) (hn : NamesInv s) (ha : PathTo s a p) {c : List UInt8} :
    ∃ o, walkNext s a c = .ok o ∧
      ((o.getD 0 = 0 ∧ s.view.walkStep p (compOf c) = none) ∨
        ∃ x q, o = some x ∧ PathTo s x q ∧ s.view.walkStep p (compOf c) = some q) := by
  obtain ⟨n, hna⟩ := ha.live h.tree
  by_cases hd : c = dot
  · subst hd
    exact ⟨some a, walkNext_dot s a, .inr ⟨a, p, rfl, ha, rfl⟩⟩
  by_cases hdd : c = dotdot
  · subst hdd
    refine ⟨_, walkNext_dotdot hna, .inr ⟨_, p.dropLast, rfl, ?_, rfl⟩⟩
    cases ha with
    | root =>
      rw [if_neg (not_not.mpr ((h.tree.parent_eq_zero_iff hna).mpr rfl))]
      exact .root
    | child ha' har hq =>
      rw [hna] at ha'
      cases ha'
      rw [if_pos fun e => har ((h.tree.parent_eq_zero_iff hna).mp e), List.dropLast_concat]
      exact hq
  have hcomp : compOf c = .name c := by
    unfold compOf
    rw [if_neg hd, if_neg hdd]
  rw [hcomp]
  by_cases ht : n.type = .dir
  swap
  · refine ⟨none, walkNext_file hna hd hdd ht, .inl ⟨rfl, Tree.walkStep_missing ?_⟩⟩
    by_contra hne
    have h1 := (view_closed h hn).up p c hne
    rw [view_eq h hn ha] at h1
    exact ht ((entry_dir hna).mp h1)
  obtain ⟨x, hx, hsome, hnone⟩ := findChild_spec h.tree h.bound' hna c
  refine ⟨some x, ?_, ?_⟩
  · rw [walkNext_child hna hd hdd ht, hx]
    rfl
  · by_cases hx0 : x = 0
    · exact .inl ⟨hx0, Tree.walkStep_missing (view_child h hn ha fun y m hy e => hnone hx0 y m hy e)⟩
    · obtain ⟨m, hm, e1, e2⟩ := hsome hx0
      have hchild := ha.child_of h hm e1
      rw [e2] at hchild
      exact .inr ⟨x, p ++ [c], rfl, hchild, Tree.walkStep_name ((view_ne_none h hn).mpr ⟨x, hchild⟩)⟩

/-- a component that is too long is no name of a node -/
theorem view_long (h : FsInv s held F) (hn : NamesInv s) {c : List UInt8} (hc : ramfsNameMax ≤ c.length) :
    s.view.walkStep p (compOf c) = none := by
  have h32 : ramfsNameMax = 32 := rfl
  have hcomp : compOf c = .name c := by
    unfold compOf
    rw [if_neg, if_neg]
    · rintro rfl
      exact absurd hc (by decide)
    · rintro rfl
      exact absurd hc (by decide)
  rw [hcomp]
  apply Tree.walkStep_missing
  by_contra hne
  obtain ⟨a, ha⟩ := (view_ne_none h hn).mp hne
  have := (ha.names hn c (by simp)).short
  omega

theorem follow_view (h : FsInv s held F) (hn : NamesInv s) (ha : PathTo s a p) (cs : List (List UInt8)) :
    ∃ x, follow s a cs = .ok x ∧
      ((x = 0 ∧ s.view.walk p (cs.map compOf) = none) ∨
        ∃ q, PathTo s x q ∧ s.view.walk p (cs.map compOf) = some q) := by
  induction cs generalizing a p with
  | nil => exact ⟨a, rfl, .inr ⟨p, ha, rfl⟩⟩
  | cons c cs ih =>
    have hwalk : s.view.walk p ((c :: cs).map compOf) =
        (s.view.walkStep p (compOf c)).bind fun q => s.view.walk q (cs.map compOf) := rfl
    rw [follow_cons, hwalk]
    by_cases hlen : ramfsNameMax ≤ c.length
    · rw [if_pos hlen, view_long h hn hlen]
      exact ⟨0, rfl, .inl ⟨rfl, rfl⟩⟩
    obtain ⟨o, ho, h1⟩ := walkNext_view h hn ha (c := c)
    rw [if_neg hlen, ho, ok_bind]
    rcases h1 with ⟨h0, hv⟩ | ⟨x, q, rfl, hx, hv⟩
    · rw [hv]
      refine ⟨0, ?_, .inl ⟨rfl, rfl⟩⟩
      cases o with
      | none => rfl
      | some x => exact if_pos h0
    · obtain ⟨m, hm⟩ := hx.live h.tree
      obtain ⟨y, hy, h2⟩ := ih hx
      rw [hv]
      refine ⟨y, ?_, h2⟩
      show (if x = 0 then _ else _) = _
      rw [if_neg (h.tree.ne_zero hm), hy]

/-- where a path starts -/
def startPath (p : List (List UInt8)) (path : List UInt8) : List (List UInt8) :=
  if path.head? = some slash then [] else p

theorem resolve_walk (h : FsInv s held F) (hn : NamesInv s) (ha : PathTo s a p) (path : List UInt8) :
    ∃ x, ramfsResolve s a path = .ok x ∧
      ((x = 0 ∧ s.view.walk (startPath p path) ((components path).map compOf) = none) ∨
        ∃ q, PathTo s x q ∧ s.view.walk (startPath p path) ((components path).map compOf) = some q) := by
  obtain ⟨n, hna⟩ := ha.live h.tree
  rw [ramfsResolve_eq s (h.tree.ne_zero hna)]
  have hstart : PathTo s (startOf s a path) (startPath p path) := by
    unfold startOf startPath
    split
    · exact .root
    · exact ha
  exact follow_view h hn hstart (components path)

end

end Raptor
