import RaptorKernel.Theory.Chain

/-!
# Linked forests

Trees kept as objects with three links: the first child, the next sibling and the parent; `nul`
is the absent object.  A `Forest` is the shape of a sibling list with everything below it, and

* `Rep L nul p c F`     following the links `L` from `c` meets exactly the forest `F`, whose
                        outermost objects have the parent `p`;
* `Sub d K F`           the object `d` occurs in `F`, and `K` is what is below it;
* `graft`, `prune`    a subtree put in front of the children of `d`; the subtree of `a` cut out.

`Rep.graft` and `Rep.prune` say which changes of the links carry these two operations out.
`Rep.up` climbs: from every object of the forest the parents lead out of it through `p`.
-/

inductive Forest (α : Type*) where
  | nil
  | cons (a : α) (kids rest : Forest α)

structure Links (α : Type*) where
  child : α → α
  next : α → α
  par : α → α

namespace Forest
variable {α : Type*}

/-- all objects, parents before children -/
def addrs : Forest α → List α
  | nil => []
  | cons a k r => a :: (addrs k ++ addrs r)

/-- the outermost objects -/
def tops : Forest α → List α
  | nil => []
  | cons a _ r => a :: tops r

def Sub (d : α) (K : Forest α) : Forest α → Prop
  | nil => False
  | cons a k r => (a = d ∧ K = k) ∨ Sub d K k ∨ Sub d K r

def Rep (L : Links α) (nul : α) : α → α → Forest α → Prop
  | _, c, nil => c = nul
  | p, c, cons a k r => c = a ∧ a ≠ nul ∧ L.par a = p ∧ Rep L nul a (L.child a) k ∧
      Rep L nul p (L.next a) r

/-! ## where objects occur -/

theorem tops_subset {F : Forest α} : ∀ x ∈ F.tops, x ∈ F.addrs := by
  induction F with
  | nil => exact fun x hx => hx
  | cons a k r _ ihr =>
    intro x hx
    rcases List.mem_cons.mp hx with rfl | hx'
    · exact List.mem_cons_self
    · exact List.mem_cons_of_mem _ (List.mem_append_right _ (ihr x hx'))

theorem Sub.mem {d : α} {K F : Forest α} (h : Sub d K F) : d ∈ F.addrs := by
  induction F with
  | nil => exact h.elim
  | cons a k r ihk ihr =>
    rcases h with ⟨rfl, _⟩ | h | h
    · exact List.mem_cons_self
    · exact List.mem_cons_of_mem _ (List.mem_append_left _ (ihk h))
    · exact List.mem_cons_of_mem _ (List.mem_append_right _ (ihr h))

theorem exists_sub {d : α} {F : Forest α} (h : d ∈ F.addrs) : ∃ K, Sub d K F := by
  induction F with
  | nil => exact absurd h (by simp [addrs])
  | cons a k r ihk ihr =>
    rcases List.mem_cons.mp h with rfl | h
    · exact ⟨k, .inl ⟨rfl, rfl⟩⟩
    rcases List.mem_append.mp h with h | h
    · obtain ⟨K, hK⟩ := ihk h
      exact ⟨K, .inr (.inl hK)⟩
    · obtain ⟨K, hK⟩ := ihr h
      exact ⟨K, .inr (.inr hK)⟩

theorem Sub.trans {d e : α} {K K' F : Forest α} (h : Sub d K F) (h' : Sub e K' K) : Sub e K' F := by
  induction F with
  | nil => exact h.elim
  | cons a k r ihk ihr =>
    rcases h with ⟨_, rfl⟩ | h | h
    · exact .inr (.inl h')
    · exact .inr (.inl (ihk h))
    · exact .inr (.inr (ihr h))

theorem Sub.subset {d : α} {K F : Forest α} (h : Sub d K F) : ∀ x ∈ K.addrs, x ∈ F.addrs := by
  intro x hx
  obtain ⟨K', hK'⟩ := exists_sub hx
  exact (h.trans hK').mem

theorem nodup_cons {a : α} {k r : Forest α} :
    (cons a k r).addrs.Nodup ↔ a ∉ k.addrs ∧ a ∉ r.addrs ∧ k.addrs.Nodup ∧ r.addrs.Nodup ∧
      ∀ x ∈ k.addrs, x ∉ r.addrs := by
  show (a :: (k.addrs ++ r.addrs)).Nodup ↔ _
  rw [List.nodup_cons, List.mem_append, not_or, List.nodup_append']
  constructor
  · rintro ⟨⟨h1, h2⟩, h3, h4, h5⟩
    exact ⟨h1, h2, h3, h4, fun x hx hx' => h5 hx hx'⟩
  · rintro ⟨h1, h2, h3, h4, h5⟩
    exact ⟨⟨h1, h2⟩, h3, h4, fun x hx hx' => h5 x hx hx'⟩

theorem Sub.nodup {d : α} {K F : Forest α} (h : Sub d K F) (hn : F.addrs.Nodup) :
    K.addrs.Nodup ∧ d ∉ K.addrs := by
  induction F with
  | nil => exact h.elim
  | cons a k r ihk ihr =>
    obtain ⟨h1, _, h3, h4, _⟩ := nodup_cons.mp hn
    rcases h with ⟨rfl, rfl⟩ | h | h
    · exact ⟨h3, h1⟩
    · exact ihk h h3
    · exact ihr h h4

theorem Sub.unique {d : α} {K K' F : Forest α} (h : Sub d K F) (h' : Sub d K' F)
    (hn : F.addrs.Nodup) : K = K' := by
  induction F with
  | nil => exact h.elim
  | cons a k r ihk ihr =>
    obtain ⟨h1, h2, h3, h4, h5⟩ := nodup_cons.mp hn
    rcases h with ⟨rfl, rfl⟩ | h | h <;> rcases h' with ⟨e, rfl⟩ | h' | h'
    · rfl
    · exact absurd h'.mem h1
    · exact absurd h'.mem h2
    · exact absurd (e ▸ h.mem) h1
    · exact ihk h h' h3
    · exact absurd h'.mem (h5 _ h.mem)
    · exact absurd (e ▸ h.mem) h2
    · exact absurd h.mem (h5 _ h'.mem)
    · exact ihr h h' h4

/-! ## what the links say -/

section
variable {L L' : Links α} {nul p c : α} {F : Forest α}

theorem Rep.congr (h : Rep L nul p c F) (hc : ∀ x ∈ F.addrs, L'.child x = L.child x)
    (hx : ∀ x ∈ F.addrs, L'.next x = L.next x) (hp : ∀ x ∈ F.addrs, L'.par x = L.par x) :
    Rep L' nul p c F := by
  induction F generalizing p c with
  | nil => exact h
  | cons a k r ihk ihr =>
    obtain ⟨h1, h2, h3, h4, h5⟩ := h
    have hk : ∀ x ∈ k.addrs, x ∈ (cons a k r).addrs := fun x hx =>
      List.mem_cons_of_mem _ (List.mem_append_left _ hx)
    have hr : ∀ x ∈ r.addrs, x ∈ (cons a k r).addrs := fun x hx =>
      List.mem_cons_of_mem _ (List.mem_append_right _ hx)
    have ha : a ∈ (cons a k r).addrs := List.mem_cons_self
    refine ⟨h1, h2, (hp a ha).trans h3, ?_, ?_⟩
    · rw [hc a ha]
      exact ihk h4 (fun x y => hc x (hk x y)) (fun x y => hx x (hk x y)) fun x y => hp x (hk x y)
    · rw [hx a ha]
      exact ihr h5 (fun x y => hc x (hr x y)) (fun x y => hx x (hr x y)) fun x y => hp x (hr x y)

theorem Rep.ne_nul (h : Rep L nul p c F) : ∀ x ∈ F.addrs, x ≠ nul := by
  induction F generalizing p c with
  | nil => exact fun x hx => absurd hx (by simp [addrs])
  | cons a k r ihk ihr =>
    obtain ⟨_, h2, _, h4, h5⟩ := h
    intro x hx
    rcases List.mem_cons.mp hx with rfl | hx
    · exact h2
    rcases List.mem_append.mp hx with hx | hx
    · exact ihk h4 x hx
    · exact ihr h5 x hx

theorem Rep.sub {d : α} {K : Forest α} (h : Rep L nul p c F) (hs : Sub d K F) :
    Rep L nul d (L.child d) K := by
  induction F generalizing p c with
  | nil => exact hs.elim
  | cons a k r ihk ihr =>
    obtain ⟨_, _, _, h4, h5⟩ := h
    rcases hs with ⟨rfl, rfl⟩ | hs | hs
    · exact h4
    · exact ihk h4 hs
    · exact ihr h5 hs

/-- the outermost objects are the sibling list that starts at `c` -/
theorem Rep.chain (h : Rep L nul p c F) : Chain L.next nul c F.tops := by
  induction F generalizing p c with
  | nil => exact h
  | cons a k r _ ihr => exact ⟨h.1, h.2.1, ihr h.2.2.2.2⟩

theorem Rep.par_tops (h : Rep L nul p c F) : ∀ x ∈ F.tops, L.par x = p := by
  induction F generalizing p c with
  | nil => exact fun x hx => absurd hx (by simp [tops])
  | cons a k r _ ihr =>
    intro x hx
    rcases List.mem_cons.mp hx with rfl | hx
    · exact h.2.2.1
    · exact ihr h.2.2.2.2 x hx

/-- an object is outermost or stands in the sibling list of its parent -/
theorem Rep.mem_cases (h : Rep L nul p c F) {x : α} (hx : x ∈ F.addrs) :
    x ∈ F.tops ∨ ∃ K, Sub (L.par x) K F ∧ x ∈ K.tops := by
  induction F generalizing p c with
  | nil => exact absurd hx (by simp [addrs])
  | cons a k r ihk ihr =>
    obtain ⟨_, _, _, h4, h5⟩ := h
    rcases List.mem_cons.mp hx with rfl | hx
    · exact .inl List.mem_cons_self
    rcases List.mem_append.mp hx with hx | hx
    · rcases ihk h4 hx with h6 | ⟨K, h6, h7⟩
      · exact .inr ⟨k, .inl ⟨(h4.par_tops x h6).symm, rfl⟩, h6⟩
      · exact .inr ⟨K, .inr (.inl h6), h7⟩
    · rcases ihr h5 hx with h6 | ⟨K, h6, h7⟩
      · exact .inl (List.mem_cons_of_mem _ h6)
      · exact .inr ⟨K, .inr (.inr h6), h7⟩

/-- the sibling list below `d` consists of the objects with parent `d` -/
theorem Rep.mem_tops_iff (h : Rep L nul p c F) (hn : F.addrs.Nodup) (hp : p ∉ F.addrs) {d : α}
    {K : Forest α} (hs : Sub d K F) (x : α) : x ∈ K.tops ↔ x ∈ F.addrs ∧ L.par x = d := by
  constructor
  · intro hx
    exact ⟨hs.subset x (tops_subset x hx), (h.sub hs).par_tops x hx⟩
  · rintro ⟨hx, rfl⟩
    rcases h.mem_cases hx with h1 | ⟨K', h1, h2⟩
    · rw [h.par_tops x h1] at hs
      exact absurd hs.mem hp
    · rw [hs.unique h1 hn]
      exact h2

/-- a child link leads to an object whose parent is the one it came from -/
theorem Rep.par_child (h : Rep L nul p c F) {x : α} (hx : x ∈ F.addrs) (h0 : L.child x ≠ nul) :
    L.par (L.child x) = x := by
  obtain ⟨K, hK⟩ := exists_sub hx
  obtain ⟨r, hr, _⟩ := (h.sub hK).chain.head h0
  exact (h.sub hK).par_tops _ (by rw [hr]; exact List.mem_cons_self)

/-- a sibling link leads to an object with the same parent -/
theorem Rep.par_next (h : Rep L nul p c F) {x : α} (hx : x ∈ F.addrs) (h0 : L.next x ≠ nul) :
    L.par (L.next x) = L.par x := by
  rcases h.mem_cases hx with h1 | ⟨K, h1, h2⟩
  · exact (h.par_tops _ (h.chain.next_mem h1 h0)).trans (h.par_tops _ h1).symm
  · exact (h.sub h1).par_tops _ ((h.sub h1).chain.next_mem h2 h0)

/-- the parents of every object lead out of the forest through `p` -/
theorem Rep.up (h : Rep L nul p c F) {l : List α} (hl : Chain L.par nul p l) :
    ∀ x ∈ F.addrs, ∃ l', (∀ y ∈ l', y ∈ F.addrs) ∧ Chain L.par nul x (l' ++ l) := by
  induction F generalizing p c l with
  | nil => exact fun x hx => absurd hx (by simp [addrs])
  | cons a k r ihk ihr =>
    obtain ⟨_, h2, h3, h4, h5⟩ := h
    have ha : Chain L.par nul a (a :: l) := ⟨rfl, h2, by rw [h3]; exact hl⟩
    intro x hx
    rcases List.mem_cons.mp hx with rfl | hx
    · exact ⟨[x], by simp [addrs], ha⟩
    rcases List.mem_append.mp hx with hx | hx
    · obtain ⟨l', h6, h7⟩ := ihk h4 ha x hx
      refine ⟨l' ++ [a], fun y hy => ?_, by simpa using h7⟩
      rcases List.mem_append.mp hy with hy | hy
      · exact List.mem_cons_of_mem _ (List.mem_append_left _ (h6 y hy))
      · rw [List.mem_singleton.mp hy]
        exact List.mem_cons_self
    · obtain ⟨l', h6, h7⟩ := ihr h5 hl x hx
      exact ⟨l', fun y hy => List.mem_cons_of_mem _ (List.mem_append_right _ (h6 y hy)), h7⟩

/-- what is below `d` is what has `d` among its ancestors -/
theorem Rep.mem_below_iff (h : Rep L nul p c F) (hn : F.addrs.Nodup) {l : List α}
    (hl : Chain L.par nul p l) {d x : α} {K : Forest α} (hs : Sub d K F) (hdl : d ∉ l) {lx : List α} (hx : x ∈ F.addrs) (hlx : Chain L.par nul x lx) :
    d ∈ lx ↔ x = d ∨ x ∈ K.addrs := by
  constructor
  · intro hd
    induction lx generalizing x with
    | nil => exact absurd hd (by simp)
    | cons y lx ih =>
      obtain ⟨rfl, hy, h3⟩ := hlx
      by_cases hxd : x = d
      · exact .inl hxd
      have hd' : d ∈ lx := (List.mem_cons.mp hd).resolve_left fun e => hxd e.symm
      rcases h.mem_cases hx with h1 | ⟨K', h1, h2⟩
      · -- above an outermost object there is nothing of the forest
        exfalso
        rw [h.par_tops x h1] at h3
        exact hdl (h3.unique hl ▸ hd')
      · refine .inr ?_
        rcases ih h1.mem h3 hd' with e | h4
        · rw [e] at h1
          rw [hs.unique h1 hn]
          exact tops_subset x h2
        · obtain ⟨K'', h5⟩ := exists_sub h4
          rw [(h1.unique (hs.trans h5) hn)] at h2
          exact h5.subset x (tops_subset x h2)
  · intro hcase
    obtain ⟨ld, _, h2⟩ := h.up hl d hs.mem
    obtain ⟨r, h3, _⟩ := h2.head (h.ne_nul d hs.mem)
    rcases hcase with rfl | hx'
    · rw [hlx.unique h2, h3]
      exact List.mem_cons_self
    · obtain ⟨l', _, h5⟩ := (h.sub hs).up h2 x hx'
      rw [hlx.unique h5, h3]
      simp

end

/-! ## putting a subtree in and taking one out -/

section
variable [DecidableEq α]

/-- `a`, with `K` below it, becomes the first child of `d` -/
def graft (d a : α) (K : Forest α) : Forest α → Forest α
  | nil => nil
  | cons b k r =>
    cons b (if b = d then cons a K (graft d a K k) else graft d a K k) (graft d a K r)

/-- the subtree of `a` is cut out -/
def prune (a : α) : Forest α → Forest α
  | nil => nil
  | cons b k r => if b = a then prune a r else cons b (prune a k) (prune a r)

theorem graft_of_notMem {d a : α} {K F : Forest α} (h : d ∉ F.addrs) : graft d a K F = F := by
  induction F with
  | nil => rfl
  | cons b k r ihk ihr =>
    have h1 : d ∉ b :: (k.addrs ++ r.addrs) := h
    simp only [List.mem_cons, List.mem_append, not_or] at h1
    show cons b (if b = d then _ else _) _ = _
    rw [if_neg fun e => h1.1 e.symm, ihk h1.2.1, ihr h1.2.2]

theorem prune_of_notMem {a : α} {F : Forest α} (h : a ∉ F.addrs) : prune a F = F := by
  induction F with
  | nil => rfl
  | cons b k r ihk ihr =>
    have h1 : a ∉ b :: (k.addrs ++ r.addrs) := h
    simp only [List.mem_cons, List.mem_append, not_or] at h1
    show (if b = a then _ else _) = _
    rw [if_neg fun e => h1.1 e.symm, ihk h1.2.1, ihr h1.2.2]

/-- the objects after a graft below an object that occurs once -/
theorem addrs_graft {d a : α} {K F : Forest α} (hn : F.addrs.Nodup) (hd : d ∈ F.addrs) :
    (graft d a K F).addrs.Perm (a :: K.addrs ++ F.addrs) := by
  induction F with
  | nil => exact absurd hd (by simp [addrs])
  | cons b k r ihk ihr =>
    obtain ⟨h1, h2, h3, h4, h5⟩ := nodup_cons.mp hn
    show (b :: ((if b = d then cons a K (graft d a K k) else graft d a K k).addrs ++
      (graft d a K r).addrs)).Perm (a :: K.addrs ++ b :: (k.addrs ++ r.addrs))
    by_cases hb : b = d
    · subst hb
      rw [if_pos rfl, graft_of_notMem h1, graft_of_notMem h2]
      show (b :: (a :: (K.addrs ++ k.addrs) ++ r.addrs)).Perm _
      have e1 : a :: (K.addrs ++ k.addrs) ++ r.addrs = (a :: K.addrs) ++ (k.addrs ++ r.addrs) := by
        simp
      rw [e1]
      exact List.perm_middle.symm
    · rw [if_neg hb]
      have hd' : d ∈ k.addrs ++ r.addrs :=
        (List.mem_cons.mp hd).resolve_left fun e => hb e.symm
      refine List.Perm.trans (List.Perm.cons b ?_) List.perm_middle.symm
      rcases List.mem_append.mp hd' with hk | hr
      · rw [graft_of_notMem (h5 d hk), ← List.append_assoc]
        exact (ihk h3 hk).append_right _
      · rw [graft_of_notMem fun hk => h5 d hk hr]
        refine List.Perm.trans ((ihr h4 hr).append_left _) ?_
        rw [← List.append_assoc, ← List.append_assoc]
        exact List.perm_append_comm.append_right _

/-- the objects before a removal are those left, the one pruned and what was below it -/
theorem addrs_prune {a : α} {K F : Forest α} (hn : F.addrs.Nodup) (hs : Sub a K F) :
    F.addrs.Perm (a :: K.addrs ++ (prune a F).addrs) := by
  induction F with
  | nil => exact hs.elim
  | cons b k r ihk ihr =>
    obtain ⟨h1, h2, h3, h4, h5⟩ := nodup_cons.mp hn
    show (b :: (k.addrs ++ r.addrs)).Perm (a :: K.addrs ++ (if b = a then prune a r else
      cons b (prune a k) (prune a r)).addrs)
    rcases hs with ⟨rfl, rfl⟩ | hs | hs
    · rw [if_pos rfl, prune_of_notMem h2]
      exact List.Perm.refl _
    · have hb : b ≠ a := fun e => h1 (e ▸ hs.mem)
      rw [if_neg hb, prune_of_notMem (h5 a hs.mem)]
      refine List.Perm.trans (List.Perm.cons b ?_) List.perm_middle.symm
      rw [← List.append_assoc]
      exact (ihk h3 hs).append_right _
    · have hb : b ≠ a := fun e => h2 (e ▸ hs.mem)
      rw [if_neg hb, prune_of_notMem fun hk => h5 a hk hs.mem]
      refine List.Perm.trans (List.Perm.cons b ?_) List.perm_middle.symm
      refine List.Perm.trans ((ihr h4 hs).append_left _) ?_
      rw [← List.append_assoc, ← List.append_assoc]
      exact List.perm_append_comm.append_right _

variable {L L' : Links α} {nul p c : α} {F : Forest α}

/-- `a` becomes the first child of `d`: its links are set, and the child link of `d` -/
theorem Rep.graft {d a : α} {K : Forest α} (h : Rep L nul p c F) (hn : F.addrs.Nodup)
    (hK : Rep L' nul a (L'.child a) K) (ha : a ∉ F.addrs) (ha0 : a ≠ nul)
    (hpar : L'.par a = d) (hnext : L'.next a = L.child d) (hchild : L'.child d = a)
    (hc : ∀ x ∈ F.addrs, x ≠ d → L'.child x = L.child x)
    (hx : ∀ x ∈ F.addrs, L'.next x = L.next x) (hp : ∀ x ∈ F.addrs, L'.par x = L.par x) :
    Rep L' nul p c (graft d a K F) := by
  induction F generalizing p c with
  | nil => exact h
  | cons b k r ihk ihr =>
    obtain ⟨h1, h2, h3, h4, h5⟩ := h
    obtain ⟨n1, n2, n3, n4, _⟩ := nodup_cons.mp hn
    have hk : ∀ x ∈ k.addrs, x ∈ (cons b k r).addrs := fun x hx =>
      List.mem_cons_of_mem _ (List.mem_append_left _ hx)
    have hr : ∀ x ∈ r.addrs, x ∈ (cons b k r).addrs := fun x hx =>
      List.mem_cons_of_mem _ (List.mem_append_right _ hx)
    have hb : b ∈ (cons b k r).addrs := List.mem_cons_self
    have h4' := ihk h4 n3 (fun e => ha (hk a e)) (fun x y => hc x (hk x y))
      (fun x y => hx x (hk x y)) fun x y => hp x (hk x y)
    have h5' := ihr h5 n4 (fun e => ha (hr a e)) (fun x y => hc x (hr x y))
      (fun x y => hx x (hr x y)) fun x y => hp x (hr x y)
    refine ⟨h1, h2, (hp b hb).trans h3, ?_, ?_⟩
    · by_cases hbd : b = d
      · subst hbd
        rw [if_pos rfl, hchild]
        exact ⟨rfl, ha0, hpar, hK, by rw [hnext]; exact h4'⟩
      · rw [if_neg hbd, hc b hb hbd]
        exact h4'
    · rw [hx b hb]
      exact h5'

/-- every link to `a` is turned to the sibling after it -/
theorem Rep.prune {a : α} (h : Rep L nul p c F) (hn : F.addrs.Nodup) (hna : L.next a ≠ a)
    (hc : ∀ x ∈ F.addrs, x ≠ a → L'.child x = if L.child x = a then L.next a else L.child x)
    (hx : ∀ x ∈ F.addrs, x ≠ a → L'.next x = if L.next x = a then L.next a else L.next x)
    (hp : ∀ x ∈ F.addrs, x ≠ a → L'.par x = L.par x) (ha0 : a ≠ nul) :
    Rep L' nul p (if c = a then L.next a else c) (prune a F) := by
  induction F generalizing p c with
  | nil =>
    have h1 : c = nul := h
    rw [if_neg fun e => ha0 (e.symm.trans h1)]
    exact h
  | cons b k r ihk ihr =>
    obtain ⟨rfl, h2, h3, h4, h5⟩ := h
    obtain ⟨n1, n2, n3, n4, _⟩ := nodup_cons.mp hn
    have hk : ∀ x ∈ k.addrs, x ∈ (cons c k r).addrs := fun x hx =>
      List.mem_cons_of_mem _ (List.mem_append_left _ hx)
    have hr : ∀ x ∈ r.addrs, x ∈ (cons c k r).addrs := fun x hx =>
      List.mem_cons_of_mem _ (List.mem_append_right _ hx)
    have hb : c ∈ (cons c k r).addrs := List.mem_cons_self
    have h4' := ihk h4 n3 (fun x y => hc x (hk x y)) (fun x y => hx x (hk x y))
      fun x y => hp x (hk x y)
    have h5' := ihr h5 n4 (fun x y => hc x (hr x y)) (fun x y => hx x (hr x y))
      fun x y => hp x (hr x y)
    show Rep L' nul p _ (if c = a then _ else _)
    by_cases hca : c = a
    · subst hca
      rw [if_pos rfl, if_pos rfl]
      rw [if_neg hna] at h5'
      exact h5'
    · rw [if_neg hca, if_neg hca]
      refine ⟨rfl, h2, (hp c hb hca).trans h3, ?_, ?_⟩
      · rw [hc c hb hca]
        exact h4'
      · rw [hx c hb hca]
        exact h5'

end
end Forest
