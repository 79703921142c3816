import RaptorKernel.Fs.Visits

/-!
# ramfs_delete removes one subtree

What is freed is the node and everything below it; the lists it stood in close up around it, and a
walk either keeps away from it and leads where it did, or came by it and ends in NULL.

* `delete_effect`      what is left, link by link, and what the heap got back;
* `walkNext_deleted`   one component of a walk, afterwards;
* `follow_away`, `follow_into`   walks that keep away from the subtree, and that come by it;
* `ramfsDelete_removes`   all of it about one call.
-/

namespace Raptor
open Forest

/-- no two children of a directory have the same name -/
def DistinctNames (s : Ramfs) : Prop :=
  ∀ a n b m, s.node a = some n → s.node b = some m → a ≠ s.root → b ≠ s.root →
    n.parent = m.parent → n.name = m.name → a = b

section
variable {s s' : Ramfs} {held : List Nat} {F F' : Forest Nat} {a x cur : Nat} {n m : RamfsNode}
  {c : List UInt8} {cs : List (List UInt8)}

/-! ## what is below -/

theorem Below.self (h : TreeInv s F) (ha : s.node a = some n) : Below s a a := by
  obtain ⟨l, _, hl⟩ := h.up ha
  obtain ⟨r, e, _⟩ := hl.head (h.ne_zero ha)
  refine ⟨l, hl, ?_⟩
  rw [e]
  exact List.mem_cons_self

theorem not_below_zero (s : Ramfs) (a : Nat) : ¬ Below s a 0 := by
  rintro ⟨l, hl, ha⟩
  rw [hl.nil_of_nul] at ha
  simp at ha

theorem below_parent (h : TreeInv s F) (hx : s.node x = some m) (hxa : x ≠ a) :
    Below s a x ↔ Below s a m.parent := by
  have hpar := Ramfs.links_par hx
  constructor
  · rintro ⟨l, hl, ha⟩
    obtain ⟨r, rfl, hr⟩ := hl.head (h.ne_zero hx)
    rw [hpar] at hr
    exact ⟨r, hr, (List.mem_cons.mp ha).resolve_left fun e => hxa e.symm⟩
  · rintro ⟨l, hl, ha⟩
    refine ⟨x :: l, ⟨rfl, h.ne_zero hx, ?_⟩, List.mem_cons_of_mem _ ha⟩
    rw [hpar]
    exact hl

/-! ## what is left -/

/-- The nodes freed, and what the others link to; the heap got back exactly the nodes and their
buffers. -/
theorem delete_effect (h : FsInv s held F) (ha : s.node a = some n) {s1 s2 : Ramfs} {K : Forest Nat}
    (hd : Detached s s1 F K a n)
    (hf : Freed s1 s2 (a :: K.addrs) (s1.blocks (s1.tree (prune a F)).addrs held)) :
    (a :: K.addrs).Nodup ∧
    (∀ x, x ∈ a :: K.addrs ↔ (∃ m, s.node x = some m) ∧ Below s a x) ∧
    (∀ x, ¬ Below s a x → s2.node x = (s.node x).map (relink a n.next)) ∧
    s.heap.ptrs.Perm (a :: K.addrs ++ (a :: K.addrs).filterMap s.dataPtr ++ s2.heap.ptrs) := by
  have hmem : ∀ x, x ∈ a :: K.addrs ↔ (∃ m, s.node x = some m) ∧ Below s a x := by
    intro x
    constructor
    · intro hx
      obtain ⟨m, hm⟩ := (h.tree.live x).mpr (hd.addrs.mem_iff.mpr (List.mem_append_left _ hx))
      exact ⟨⟨m, hm⟩, (h.tree.below_iff hd.sub hm).mpr hx⟩
    · rintro ⟨⟨m, hm⟩, hx⟩
      exact (h.tree.below_iff hd.sub hm).mp hx
  refine ⟨(List.nodup_append'.mp (hd.addrs.nodup_iff.mp h.tree.nodup)).1, hmem, fun x hx => ?_, ?_⟩
  · have hxa : x ≠ a := by
      rintro rfl
      exact hx (Below.self h.tree ha)
    rw [hf.node, if_neg fun h1 => hx ((hmem x).mp h1).2]
    exact hd.other x hxa
  · have h1 := h.owned.trans (Ramfs.blocks_perm hd.addrs)
    have h2 : s1.blocks (s1.tree (prune a F)).addrs held =
        s.blocks (s1.tree (prune a F)).addrs held :=
      Ramfs.blocks_congr fun x _ => by rw [hd.dataPtr ha]
    have h3 := hf.ptrs
    rw [h2] at h3
    exact (h1.trans (s.blocks_append _ _ held)).trans (h3.symm.append_left _)

/-- the children of a directory that is left, in their order -/
theorem kids_deleted (h : FsInv s held F) (ha : s.node a = some n)
    (hnode : ∀ x, ¬ Below s a x → s'.node x = (s.node x).map (relink a n.next)) {d : Nat}
    (hd : s.node d = some m) (hout : ¬ Below s a d) {l : List Nat}
    (hl : Chain s.links.next 0 m.children l) :
    ∃ m', s'.node d = some m' ∧ m'.plain = m.plain ∧
      Chain s'.links.next 0 m'.children (l.erase a) := by
  have hd' : s'.node d = some (relink a n.next m) := by
    rw [hnode d hout, hd]
    rfl
  refine ⟨_, hd', rfl, ?_⟩
  obtain ⟨K, _, hch, hmem⟩ := h.tree.kids hd
  have hlK := hl.unique hch
  have hnext := Ramfs.links_next ha
  have h1 : Chain s'.links.next 0 (if m.children = a then s.links.next a else m.children)
      (l.erase a) := by
    refine hl.erase (h.tree.ne_zero ha) fun y hy hya => ?_
    rw [hlK] at hy
    obtain ⟨k, hk, hkp⟩ := (hmem y).mp hy
    have hyout : ¬ Below s a y := by
      rw [below_parent h.tree hk hya, hkp]
      exact hout
    have hy' : s'.node y = some (relink a n.next k) := by
      rw [hnode y hyout, hk]
      rfl
    rw [Ramfs.links_next hy', Ramfs.links_next hk, hnext]
    rfl
  rw [hnext] at h1
  exact h1

theorem Deleted.left (hdl : Deleted s s' a) (hx : s.node x = some m) (hout : ¬ Below s a x) :
    ∃ m', s'.node x = some m' ∧ m'.plain = m.plain := by
  obtain ⟨m', h1, h2⟩ := plain_some (hdl.other x hout).symm hx
  exact ⟨m', h1, h2.symm⟩

theorem Deleted.back (hdl : Deleted s s' a) (hx : s'.node x = some m) :
    ¬ Below s a x ∧ ∃ m0, s.node x = some m0 ∧ m.plain = m0.plain := by
  have hout : ¬ Below s a x := by
    intro hb
    rw [hdl.gone x hb] at hx
    cases hx
  exact ⟨hout, plain_some (hdl.other x hout) hx⟩

/-! ## walks -/

/-- a child is found as before, unless it was the node that is gone -/
theorem findChild_deleted (h : FsInv s held F) (h' : FsInv s' held F') (hu : DistinctNames s)
    (hdl : Deleted s s' a) (ha : s.node a = some n) {d : Nat} (hd : s.node d = some m)
    (hout : ¬ Below s a d) (name : List UInt8) :
    ∃ x, findChild s d name = .ok x ∧ findChild s' d name = .ok (if x = a then 0 else x) := by
  have hd0 := h.tree.ne_zero hd
  obtain ⟨m', hd', _⟩ := hdl.left hd hout
  obtain ⟨x, hx, hsome, hnone⟩ := findChild_spec h.tree h.bound' hd name
  obtain ⟨y, hy, hsome', hnone'⟩ := findChild_spec h'.tree h'.bound' hd' name
  -- a child of a directory that is left has gone only if it is the node itself
  have hkeep : ∀ k, s.node x = some k → k.parent = d → x ≠ a → ¬ Below s a x := by
    intro k hk hkp hxa
    rw [below_parent h.tree hk hxa, hkp]
    exact hout
  have hroot : ∀ z k, s.node z = some k → k.parent = d → z ≠ s.root := by
    intro z k hk hkp e
    exact hd0 (hkp.symm.trans ((h.tree.parent_eq_zero_iff hk).mpr e))
  refine ⟨x, hx, ?_⟩
  rw [hy]
  congr 1
  by_cases hy0 : y = 0
  · subst hy0
    by_cases hx0 : x = 0
    · subst hx0
      exact (if_neg (h.tree.ne_zero ha).symm).symm
    · obtain ⟨k, hk, hkp, hkn⟩ := hsome hx0
      refine (if_pos ?_).symm
      by_contra hxa
      obtain ⟨k', hk', e⟩ := hdl.left hk (hkeep k hk hkp hxa)
      exact hnone' rfl x k' hk' ((plain_parent e).trans hkp) ((plain_name e).trans hkn)
  · obtain ⟨k', hk', hkp', hkn'⟩ := hsome' hy0
    obtain ⟨hyout, k, hk, e⟩ := hdl.back hk'
    have hkp : k.parent = d := (plain_parent e).symm.trans hkp'
    have hkn : k.name = name := (plain_name e).symm.trans hkn'
    have hx0 : x ≠ 0 := fun e0 => hnone e0 y k hk hkp hkn
    obtain ⟨j, hj, hjp, hjn⟩ := hsome hx0
    have hxy : x = y := hu x j y k hj hk (hroot x j hj hjp) (hroot y k hk hkp)
      (hjp.trans hkp.symm) (hjn.trans hkn.symm)
    subst hxy
    refine (if_neg ?_).symm
    rintro rfl
    exact hyout (Below.self h.tree hk)

/-- One component, from a directory that is left: it leads where it did and stays outside, or it led
to the node that is gone and leads nowhere. -/
theorem walkNext_deleted (h : FsInv s held F) (h' : FsInv s' held F') (hu : DistinctNames s)
    (hdl : Deleted s s' a) (ha : s.node a = some n) (hcur : s.node cur = some m)
    (hout : ¬ Below s a cur) (c : List UInt8) :
    ∃ o, walkNext s cur c = .ok o ∧ walkNext s' cur c = .ok (if o = some a then some 0 else o) ∧
      ∀ next, o = some next → next ≠ 0 → next ≠ a →
        (∃ k, s.node next = some k) ∧ ¬ Below s a next := by
  obtain ⟨m', hcur', e⟩ := hdl.left hcur hout
  have hcura : cur ≠ a := by
    rintro rfl
    exact hout (Below.self h.tree hcur)
  by_cases hd : c = dot
  · subst hd
    refine ⟨some cur, walkNext_dot s cur, ?_, fun next hn _ _ => ?_⟩
    · rw [walkNext_dot, if_neg fun e1 => hcura (Option.some.inj e1)]
    · cases hn
      exact ⟨⟨m, hcur⟩, hout⟩
  by_cases hdd : c = dotdot
  · subst hdd
    rw [walkNext_dotdot hcur, walkNext_dotdot hcur', plain_parent e]
    by_cases hp0 : m.parent = 0
    · rw [if_neg (not_not.mpr hp0)]
      refine ⟨some cur, rfl, ?_, fun next hn _ _ => ?_⟩
      · rw [if_neg fun e1 => hcura (Option.some.inj e1)]
      · cases hn
        exact ⟨⟨m, hcur⟩, hout⟩
    · have hpout : ¬ Below s a m.parent := by
        rw [← below_parent h.tree hcur hcura]
        exact hout
      obtain ⟨p, hp⟩ := h.tree.parent_live hcur fun e1 =>
        hp0 ((h.tree.parent_eq_zero_iff hcur).mpr e1)
      have hpa : m.parent ≠ a := by
        intro e1
        rw [e1] at hpout
        exact hpout (Below.self h.tree ha)
      rw [if_pos hp0]
      refine ⟨some m.parent, rfl, ?_, fun next hn _ _ => ?_⟩
      · rw [if_neg fun e1 => hpa (Option.some.inj e1)]
      · cases hn
        exact ⟨⟨p, hp⟩, hpout⟩
  have htype := plain_type e
  by_cases ht : m.type = .dir
  swap
  · exact ⟨none, walkNext_file hcur hd hdd ht, walkNext_file hcur' hd hdd (htype ▸ ht),
      fun next hn => by cases hn⟩
  rw [walkNext_child hcur hd hdd ht, walkNext_child hcur' hd hdd (htype.trans ht)]
  obtain ⟨x, h1, h2⟩ := findChild_deleted h h' hu hdl ha hcur hout c
  obtain ⟨y, h3, hsome, _⟩ := findChild_spec h.tree h.bound' hcur c
  rw [h1] at h3
  cases h3
  rw [h1, h2]
  refine ⟨some x, rfl, ?_, fun next hn hn0 hna => ?_⟩
  · by_cases hxa : x = a
    · rw [if_pos hxa, hxa, if_pos rfl]
      rfl
    · rw [if_neg hxa, if_neg fun e1 => hxa (Option.some.inj e1)]
      rfl
  · cases hn
    obtain ⟨k, hk, hkp, _⟩ := hsome hn0
    refine ⟨⟨k, hk⟩, ?_⟩
    rw [below_parent h.tree hk hna, hkp]
    exact hout

/-- a walk that keeps away from the subtree ends where it did -/
theorem follow_away (h : FsInv s held F) (h' : FsInv s' held F') (hu : DistinctNames s)
    (hdl : Deleted s s' a) (ha : s.node a = some n) (hcur : s.node cur = some m)
    (hv : ∀ y, Visits s cur cs y → ¬ Below s a y) : follow s' cur cs = follow s cur cs := by
  induction cs generalizing cur m with
  | nil => rfl
  | cons c cs ih =>
    rw [follow_cons, follow_cons]
    by_cases hlen : ramfsNameMax ≤ c.length
    · rw [if_pos hlen, if_pos hlen]
    rw [if_neg hlen, if_neg hlen]
    obtain ⟨o, ho, ho', hnext⟩ := walkNext_deleted h h' hu hdl ha hcur (hv cur Visits.here) c
    have hoa : o ≠ some a := by
      rintro rfl
      exact hv a (Visits.cons hlen ho (h.tree.ne_zero ha) Visits.here) (Below.self h.tree ha)
    rw [if_neg hoa] at ho'
    rw [ho, ho', ok_bind, ok_bind]
    cases o with
    | none => rfl
    | some next =>
      show (if next = 0 then _ else _) = if next = 0 then _ else _
      by_cases hn0 : next = 0
      · rw [if_pos hn0, if_pos hn0]
      rw [if_neg hn0, if_neg hn0]
      obtain ⟨⟨k, hk⟩, _⟩ := hnext next rfl hn0 fun e => hoa (congrArg some e)
      exact ih hk fun y hy => hv y (Visits.cons hlen ho hn0 hy)

/-- a walk that came by the subtree ends in NULL -/
theorem follow_into (h : FsInv s held F) (h' : FsInv s' held F') (hu : DistinctNames s)
    (hdl : Deleted s s' a) (ha : s.node a = some n) (hcur : s.node cur = some m)
    (hout : ¬ Below s a cur) {y : Nat} (hv : Visits s cur cs y) (hy : Below s a y) :
    follow s' cur cs = .ok 0 := by
  induction cs generalizing cur m with
  | nil => exact absurd (hv.nil ▸ hy) hout
  | cons c cs ih =>
    have hy0 : y ≠ 0 := by
      rintro rfl
      exact not_below_zero s a hy
    rcases hv.of_cons hy0 with rfl | ⟨next, hlen, hw, hn0, hv'⟩
    · exact absurd hy hout
    obtain ⟨o, ho, ho', hnext⟩ := walkNext_deleted h h' hu hdl ha hcur hout c
    rw [hw] at ho
    cases ho
    rw [follow_cons, if_neg hlen, ho', ok_bind]
    by_cases hna : next = a
    · rw [if_pos (congrArg some hna)]
      rfl
    · rw [if_neg fun e => hna (Option.some.inj e)]
      obtain ⟨⟨k, hk⟩, hnout⟩ := hnext next rfl hn0 hna
      exact (if_neg hn0).trans (ih hk hnout hv')

/-! ## one call -/

/-- `ramfs_delete` refuses the root, and a directory with children unless `recursive` is set, and
then changes nothing.  Otherwise it frees the node and its descendants, each once, and closes the
lists; walks from a directory that is left lead where they did if they keep away from what was
freed, and to NULL if they came by it. -/
theorem ramfsDelete_removes (h : FsInv s held F) (hu : DistinctNames s) (ha : s.node a = some n)
    (recursive : Bool) :
    ∃ b s', ramfsDelete s a recursive = .ok (b, s') ∧
      (b = true ↔ a ≠ s.root ∧ (n.type = .file ∨ n.children = 0 ∨ recursive = true)) ∧
      (b = false → s' = s) ∧
      (b = true →
        (∃ A : List Nat, A.Nodup ∧ (∀ x, x ∈ A ↔ (∃ m, s.node x = some m) ∧ Below s a x) ∧
          (∀ x ∈ A, s'.node x = none) ∧
          s.heap.ptrs.Perm (A ++ A.filterMap s.dataPtr ++ s'.heap.ptrs)) ∧
        (∀ d m l, s.node d = some m → ¬ Below s a d → Chain s.links.next 0 m.children l →
          ∃ m', s'.node d = some m' ∧ m'.plain = m.plain ∧
            Chain s'.links.next 0 m'.children (l.erase a)) ∧
        (∀ cwd path, (∃ m, s'.node cwd = some m) →
          (∀ y, Visits s (startOf s cwd path) (components path) y → ¬ Below s a y) →
          ramfsResolve s' cwd path = ramfsResolve s cwd path) ∧
        ∀ cwd path y, (∃ m, s'.node cwd = some m) →
          Visits s (startOf s cwd path) (components path) y → Below s a y →
          ramfsResolve s' cwd path = .ok 0) := by
  obtain ⟨b, s', F', he, h', hfail, hdone, hiff⟩ := ramfsDelete_spec h ha recursive
  refine ⟨b, s', he, hiff, hfail, fun hb => ?_⟩
  have hdl := hdone hb
  obtain ⟨hr, hg⟩ := hiff.mp hb
  obtain ⟨s1, K, s2, hd, hf, he2⟩ := ramfsDelete_run h ha hr (delete_allowed.mpr hg)
  rw [he] at he2
  cases he2
  obtain ⟨hnd, hmem, hnode, hheap⟩ := delete_effect h ha hd hf
  have hstart : ∀ cwd path, startOf s' cwd path = startOf s cwd path := startOf_sameRoot hdl.root
  -- a working directory that is left, and where a path from it starts
  have hleft : ∀ cwd path, (∃ m, s'.node cwd = some m) → cwd ≠ 0 ∧
      (∃ k, s.node (startOf s cwd path) = some k) ∧ ¬ Below s a (startOf s cwd path) := by
    intro cwd path hcwd
    obtain ⟨m, hm⟩ := hcwd
    obtain ⟨k', hk'⟩ := startOf_live h'.tree hm path
    rw [hstart] at hk'
    obtain ⟨hout, k, hk, _⟩ := hdl.back hk'
    exact ⟨h'.tree.ne_zero hm, ⟨k, hk⟩, hout⟩
  refine ⟨⟨a :: K.addrs, hnd, hmem, fun x hx => hdl.gone x ((hmem x).mp hx).2, hheap⟩, ?_, ?_, ?_⟩
  · intro d m l hm hout hl
    exact kids_deleted h ha hnode hm hout hl
  · intro cwd path hcwd hv
    obtain ⟨h0, ⟨k, hk⟩, _⟩ := hleft cwd path hcwd
    rw [ramfsResolve_eq s' h0, ramfsResolve_eq s h0, hstart]
    exact follow_away h h' hu hdl ha hk hv
  · intro cwd path y hcwd hv hy
    obtain ⟨h0, ⟨k, hk⟩, hout⟩ := hleft cwd path hcwd
    rw [ramfsResolve_eq s' h0, hstart]
    exact follow_into h h' hu hdl ha hk hout hv hy

theorem ramfsDelete_removes_tmp :
    ∃ s0 a s', ramfsInit (fun _ => false) (Heap.init sampleImage) (fun _ => 0) = .ok s0 ∧
      ramfsResolve s0 s0.root (lit "/tmp") = .ok a ∧
      ramfsDelete s0 a true = .ok (true, s') ∧ ∃ A : List Nat, (∀ x ∈ A, s'.node x = none) ∧
        s0.heap.ptrs.Perm (A ++ A.filterMap s0.dataPtr ++ s'.heap.ptrs) := by
  obtain ⟨s0, F, a, n, h0, h, hn, hres, ha, hr⟩ := boot_tmp
  obtain ⟨b, s', he, hiff, _, hdone⟩ := ramfsDelete_removes h hn.unique ha true
  have hb : b = true := hiff.mpr ⟨hr, .inr (.inr rfl)⟩
  subst hb
  obtain ⟨⟨A, _, _, hgone, hheap⟩, _⟩ := hdone rfl
  exact ⟨s0, a, s', h0, hres, he, A, hgone, hheap⟩

end

end Raptor
