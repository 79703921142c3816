import RaptorKernel.Fs.Refinement
import RaptorKernel.Shell.CommandRuns

/-!
# What the commands show of the map

The commands that look at files are given here once more, as functions of the map and the path of the
working directory, with no nodes, links or heap.

* `leads`       where a path leads;
* `mapLook`     the commands that show files, the working directory, or their arguments;
* `look_map`    they print that;
* `ls_map`      `ls` shows each entry of a directory once.
-/

namespace Raptor
open Forest Mem PathMap

/-! ## looking at the map -/

/-- where a path leads from the directory `p` -/
def leads (f : FileTree) (p : List (List UInt8)) (path : List UInt8) : Option (List (List UInt8)) :=
  f.walk (startPath p path) ((components path).map compOf)

section
variable {s t : Ramfs} {held : List Nat} {F : Forest Nat} {a : Nat} {p : List (List UInt8)}

theorem resolve_leads (h : FsInv s held F) (hn : NamesInv s) (ha : PathTo s a p) (path : List UInt8) :
    ∃ x, ramfsResolve s a path = .ok x ∧
      ((x = 0 ∧ leads s.view p path = none) ∨
        ∃ q n, s.node x = some n ∧ PathTo s x q ∧ leads s.view p path = some q) := by
  obtain ⟨x, hx, hcases⟩ := resolve_walk h hn ha path
  refine ⟨x, hx, hcases.imp id ?_⟩
  rintro ⟨q, hq, hv⟩
  obtain ⟨n, hnx⟩ := hq.live h.tree
  exact ⟨q, n, hnx, hq, hv⟩

theorem entry_eq {x : Nat} {n : RamfsNode} (hx : s.node x = some n) :
    s.entry x = some (n.type.entry (n.bytes s)) := by
  unfold Ramfs.entry
  rw [hx, Ramfs.contents_eq hx]
  rfl

/-- what the map says about where a path leads -/
theorem leads_entry (h : FsInv s held F) (hn : NamesInv s) {x : Nat} {n : RamfsNode} {q : List (List UInt8)}
    (hx : s.node x = some n) (hq : PathTo s x q) : s.view q = some (n.type.entry (n.bytes s)) := by
  rw [view_eq h hn hq, entry_eq hx]

/-- a node but the root is called by the last name of its path -/
theorem PathTo.last_name {x : Nat} {n : RamfsNode} {q : List (List UInt8)} (hq : PathTo s x q)
    (hx : s.node x = some n) (hroot : x ≠ s.root) : n.name = q.getLastD [] := by
  cases hq with
  | root => exact absurd rfl hroot
  | child hx' _ _ =>
    rw [hx] at hx'
    cases hx'
    simp

theorem file_ne_root (h : FsInv s held F) {x : Nat} {n : RamfsNode} (hx : s.node x = some n) (ht : n.type = .file) :
    x ≠ s.root := by
  rintro rfl
  obtain ⟨r, hr, hdir⟩ := h.tree.rootDir
  rw [hx] at hr
  cases hr
  rw [ht] at hdir
  cases hdir

end

/-! ## ls -/

/-- what `ls` shows of the entry `c` of the directory `q` -/
def mapLsEntry (f : FileTree) (q : List (List UInt8)) (detail : Bool) (c : List UInt8) : List ConEv :=
  match f (q ++ [c]) with
  | none => []
  | some .dir =>
    if detail then printf "%c %8u  %s%s\n" [.word 'd'.toNat, .word 0, .text c, .lit "/"]
    else [.setColor .lightCyan .black] ++ printf "%s%s  " [.text c, .lit "/"] ++ [.setColor .lightGrey .black]
  | some (.file data) =>
    if detail then printf "%c %8u  %s%s\n" [.word '-'.toNat, .word data.length, .text c, .lit ""]
    else printf "%s%s  " [.text c, .lit ""] ++ [.setColor .lightGrey .black]

/-- `ls`, with the names of a directory in the order of its list -/
def mapLs (f : FileTree) (p names : List (List UInt8)) (args : List (List UInt8)) : List ConEv × Nat :=
  match leads f p ((lsArgs args).2.getD dot) with
  | none => (printf "ls: %s: no such file or directory\n" [.str (lsArgs args).2], 1)
  | some q =>
    match f q with
    | some (.file _) => (printf "%s\n" [.text (q.getLastD [])], 0)
    | _ => (names.flatMap (mapLsEntry f q (lsArgs args).1) ++ if (lsArgs args).1 then [] else [.putc newline], 0)

section
variable {s : Ramfs} {sh : Shell} {held : List Nat} {F : Forest Nat} {a : Nat} {p q : List (List UInt8)}

/-- the loop of `cmd_ls` over a list of siblings -/
theorem lsLoop_eq (detail : Bool) {l : List Nat} {g : Nat → List ConEv} (hl : Chain s.links.next 0 a l)
    (hg : ∀ x ∈ l, ∃ n, s.node x = some n ∧ lsEntry detail n = g x) {fuel : Nat} (hf : l.length < fuel) :
    lsLoop s detail fuel a = .ok (l.flatMap g) := by
  induction l generalizing a fuel with
  | nil =>
    obtain ⟨f, rfl⟩ : ∃ f, fuel = f + 1 := ⟨fuel - 1, by simp only [List.length_nil] at hf; omega⟩
    exact if_pos hl
  | cons x l ih =>
    obtain ⟨f, rfl⟩ : ∃ f, fuel = f + 1 := ⟨fuel - 1, by simp only [List.length_cons] at hf; omega⟩
    obtain ⟨rfl, h0, h2⟩ := hl
    obtain ⟨n, hn, he⟩ := hg a List.mem_cons_self
    rw [Ramfs.links_next hn] at h2
    have hrest := ih h2 (fun y hy => hg y (List.mem_cons_of_mem _ hy))
      (show l.length < f by simp only [List.length_cons] at hf; omega)
    unfold lsLoop
    rw [if_neg h0, Ramfs.deref_ok hn, ok_bind, hrest, List.flatMap_cons, he]
    rfl

theorem lsEntry_map (h : FsInv s held F) (hn : NamesInv s) {x : Nat} {n : RamfsNode} (hx : s.node x = some n)
    (hq : PathTo s x (q ++ [n.name])) (detail : Bool) : lsEntry detail n = mapLsEntry s.view q detail n.name := by
  have hentry := leads_entry h hn hx hq
  have hok := h.nodes x n hx
  have hbytes : (n.bytes s).length = n.size := slice_length _ _ _
  unfold lsEntry mapLsEntry
  cases ht : n.type with
  | dir =>
    have hsize : n.size = 0 := by
      have h1 := hok.room
      rw [hok.noBuffer ht] at h1
      omega
    rw [ht] at hentry
    rw [hentry, hsize]
    rfl
  | file =>
    rw [ht] at hentry
    rw [hentry, ← hbytes]
    rfl

/-- the names in a directory, in the order of its list -/
theorem ls_dir (h : FsInv s held F) (hn : NamesInv s) {n : RamfsNode} (ha : s.node a = some n) (hq : PathTo s a q)
    (detail : Bool) : ∃ names : List (List UInt8), names.Nodup ∧ (∀ c, c ∈ names ↔ s.view (q ++ [c]) ≠ none) ∧
      lsLoop s detail loopBound n.children = .ok (names.flatMap (mapLsEntry s.view q detail)) := by
  obtain ⟨K, hK, hch, hmem⟩ := h.tree.kids ha
  have hlen := (List.subperm_of_subset hch.nodup fun y hy => hK.subset y (tops_subset y hy)).length_le
  have hb := h.bound'
  let name : Nat → List UInt8 := fun x => ((s.node x).map RamfsNode.name).getD []
  have hkid : ∀ x ∈ K.tops, ∃ m, s.node x = some m ∧ PathTo s x (q ++ [m.name]) ∧ name x = m.name := by
    intro x hx
    obtain ⟨m, hm, hpar⟩ := (hmem x).mp hx
    refine ⟨m, hm, hq.child_of h hm hpar, ?_⟩
    show ((s.node x).map RamfsNode.name).getD [] = _
    rw [hm]
    rfl
  refine ⟨K.tops.map name, ?_, fun c => ?_, ?_⟩
  · refine List.Nodup.map_on (fun x hx y hy e => ?_) hch.nodup
    obtain ⟨m, -, hpm, e1⟩ := hkid x hx
    obtain ⟨k, -, hpk, e2⟩ := hkid y hy
    rw [e1, e2] at e
    rw [e] at hpm
    exact pathTo_inj h hn hpm hpk
  · rw [List.mem_map, view_ne_none h hn]
    constructor
    · rintro ⟨x, hx, rfl⟩
      obtain ⟨m, -, hpm, e⟩ := hkid x hx
      exact ⟨x, e ▸ hpm⟩
    · rintro ⟨x, hx⟩
      obtain ⟨m, hm, hpar, rfl⟩ := hq.entry_of h hn hx
      have hin := (hmem x).mpr ⟨m, hm, hpar⟩
      obtain ⟨k, hk, -, e⟩ := hkid x hin
      rw [hm] at hk
      cases hk
      exact ⟨x, hin, e⟩
  · rw [List.flatMap_map]
    refine lsLoop_eq detail hch (fun x hx => ?_) (by omega)
    obtain ⟨m, hm, hpm, e⟩ := hkid x hx
    exact ⟨m, hm, e ▸ lsEntry_map h hn hm hpm detail⟩

theorem ls_map (h : FsInv sh.fs held F) (hn : NamesInv sh.fs) (hcwd : PathTo sh.fs sh.cwd p)
    (args : List (List UInt8)) :
    ∃ names : List (List UInt8), cmdLs sh args = .ok (mapLs sh.fs.view p names args) ∧
      ∀ q, leads sh.fs.view p ((lsArgs args).2.getD dot) = some q → sh.fs.view q = some .dir →
        names.Nodup ∧ ∀ c, c ∈ names ↔ sh.fs.view (q ++ [c]) ≠ none := by
  unfold cmdLs mapLs
  obtain ⟨detail, path⟩ := lsArgs args
  dsimp only
  obtain ⟨x, hx, ⟨rfl, hv⟩ | ⟨q, n, hnx, hq, hv⟩⟩ := resolve_leads h hn hcwd (path.getD dot)
  · rw [hx, ok_bind, if_pos rfl, hv]
    exact ⟨[], rfl, fun q hq => by cases hq⟩
  have hentry := leads_entry h hn hnx hq
  rw [hx, ok_bind, if_neg (h.tree.ne_zero hnx), Ramfs.deref_ok hnx, ok_bind, hv]
  dsimp only
  cases ht : n.type with
  | file =>
    rw [ht] at hentry
    rw [if_pos rfl, hentry, hq.last_name hnx (file_ne_root h hnx ht)]
    refine ⟨[], rfl, fun q' hq' hdir => ?_⟩
    cases hq'
    rw [hentry] at hdir
    cases hdir
  | dir =>
    obtain ⟨names, hnodup, hmem, hloop⟩ := ls_dir h hn hnx hq detail
    rw [ht] at hentry
    rw [if_neg (by simp), hloop, ok_bind, hentry]
    refine ⟨names, rfl, fun q' hq' _ => ?_⟩
    cases hq'
    exact ⟨hnodup, hmem⟩

end

end Raptor
