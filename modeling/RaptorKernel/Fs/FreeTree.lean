import RaptorKernel.Fs.RamfsTree

/-!
# free_tree gives back exactly what the subtree owns

`Holds s A E`: the heap blocks in use are the nodes `A`, their data buffers, and the blocks `E`.
`Freed s s' A E`: afterwards they are the blocks `E`, and the nodes `A` are gone.

Freeing is followed one node at a time (`free_one`); `Holds.first`, `Holds.rest` and `Freed.trans`
split a list of nodes, and `freeKids_spec` is the induction over the sibling list and what is
below it.  No invariant of the whole tree holds while `free_tree` runs: only nodes still to be
freed are read.
-/

namespace Raptor
open Forest

/-- the data buffer of a node, if it has one -/
def Ramfs.dataPtr (s : Ramfs) (a : Nat) : Option Nat :=
  (s.node a).bind fun n => if n.capacity = 0 then none else some n.data

theorem Ramfs.dataPtr_congr {s s' : Ramfs} {a : Nat} (h : s'.node a = s.node a) :
    s'.dataPtr a = s.dataPtr a := by
  unfold Ramfs.dataPtr
  rw [h]

/-- what the nodes `A` and their buffers take, and `E` beside it -/
def Ramfs.blocks (s : Ramfs) (A E : List Nat) : List Nat := A ++ A.filterMap s.dataPtr ++ E

structure Holds (s : Ramfs) (A E : List Nat) : Prop where
  ptrs : s.heap.ptrs.Perm (s.blocks A E)
  alive : ∀ x ∈ A, ∃ n, s.node x = some n
  buffer : ∀ x n, s.node x = some n → (n.data = 0 ↔ n.capacity = 0)
  cover : ∀ x n, s.node x = some n → x ∈ A ∨ x ∈ E

structure Freed (s s' : Ramfs) (A E : List Nat) : Prop where
  ptrs : s'.heap.ptrs.Perm E
  node : ∀ x, s'.node x = if x ∈ A then none else s.node x
  root : s'.root = s.root
  bytes : s'.bytes = s.bytes
  room : ∀ p m, p ∈ E → s.heap.Room p m → s'.heap.Room p m

section
variable {s s' s'' : Ramfs} {A B E : List Nat}

theorem Ramfs.blocks_append (s : Ramfs) (A B E : List Nat) :
    (s.blocks (A ++ B) E).Perm (s.blocks A (s.blocks B E)) := by
  unfold Ramfs.blocks
  rw [List.filterMap_append]
  simp only [List.append_assoc]
  refine List.Perm.append_left A ?_
  have h1 : (B ++ A.filterMap s.dataPtr).Perm (A.filterMap s.dataPtr ++ B) := List.perm_append_comm
  simpa only [List.append_assoc] using h1.append_right (B.filterMap s.dataPtr ++ E)

theorem Holds.perm (h : Holds s A E) (hp : A.Perm B) : Holds s B E where
  ptrs := h.ptrs.trans (((hp.append (hp.filterMap _)).append_right E))
  alive := fun x hx => h.alive x (hp.mem_iff.mpr hx)
  buffer := h.buffer
  cover := fun x n hx => (h.cover x n hx).imp_left hp.mem_iff.mp

theorem Holds.mem_ptrs (h : Holds s A E) {x : Nat} {n : RamfsNode} (hx : s.node x = some n) :
    x ∈ s.heap.ptrs := by
  refine h.ptrs.mem_iff.mpr ?_
  rcases h.cover x n hx with h1 | h1
  · exact List.mem_append_left _ (List.mem_append_left _ h1)
  · exact List.mem_append_right _ h1

theorem Holds.node_zero (h : Holds s A E) : s.node 0 = none := by
  cases h0 : s.node 0 with
  | none => rfl
  | some n => exact absurd rfl (Heap.ptrs_pos (h.mem_ptrs h0))

theorem Holds.nodup (h : Holds s A E) : (s.blocks A E).Nodup :=
  h.ptrs.nodup_iff.mp Heap.ptrs_nodup

/-- to free the first part, the second is something else in use -/
theorem Holds.first (h : Holds s (A ++ B) E) : Holds s A (s.blocks B E) where
  ptrs := h.ptrs.trans (s.blocks_append A B E)
  alive := fun x hx => h.alive x (List.mem_append_left _ hx)
  buffer := h.buffer
  cover := by
    intro x n hx
    rcases h.cover x n hx with h1 | h1
    · refine (List.mem_append.mp h1).imp_right fun h2 => ?_
      exact List.mem_append_left _ (List.mem_append_left _ h2)
    · exact .inr (List.mem_append_right _ h1)

/-- once the first part is freed, the second is left -/
theorem Holds.rest (h : Holds s (A ++ B) E) (hf : Freed s s' A (s.blocks B E)) : Holds s' B E := by
  have hdis : ∀ x ∈ B, x ∉ A := by
    intro x hB hA
    have h1 : (A ++ A.filterMap s.dataPtr ++ s.blocks B E).Nodup := h.first.nodup
    exact (List.nodup_append'.mp h1).2.2 (List.mem_append_left _ hA)
      (List.mem_append_left _ (List.mem_append_left _ hB))
  have hnode : ∀ x ∈ B, s'.node x = s.node x := fun x hx => by rw [hf.node, if_neg (hdis x hx)]
  have hdata : B.filterMap s'.dataPtr = B.filterMap s.dataPtr :=
    List.filterMap_congr fun x hx => Ramfs.dataPtr_congr (hnode x hx)
  have hold : ∀ x n, s'.node x = some n → x ∉ A ∧ s.node x = some n := by
    intro x n hx
    rw [hf.node] at hx
    split at hx
    · cases hx
    · exact ⟨by assumption, hx⟩
  refine ⟨?_, fun x hx => ?_, fun x n hx => h.buffer x n (hold x n hx).2, fun x n hx => ?_⟩
  · refine hf.ptrs.trans ?_
    unfold Ramfs.blocks
    rw [hdata]
  · rw [hnode x hx]
    exact h.alive x (List.mem_append_right _ hx)
  · obtain ⟨h1, h2⟩ := hold x n hx
    exact (h.cover x n h2).imp_left fun h3 => (List.mem_append.mp h3).resolve_left h1

theorem Freed.trans (h : Freed s s' A (s.blocks B E)) (h' : Freed s' s'' B E) :
    Freed s s'' (A ++ B) E where
  ptrs := h'.ptrs
  node := by
    intro x
    rw [h'.node, h.node]
    by_cases hB : x ∈ B <;> by_cases hA : x ∈ A <;> simp [hA, hB]
  root := h'.root.trans h.root
  bytes := h'.bytes.trans h.bytes
  room := fun p m hp hr =>
    h'.room p m hp (h.room p m (List.mem_append_right _ hp) hr)

theorem Freed.perm (h : Freed s s' A E) (hp : A.Perm B) : Freed s s' B E where
  ptrs := h.ptrs
  node := fun x => by rw [h.node]; simp [hp.mem_iff]
  root := h.root
  bytes := h.bytes
  room := h.room

theorem Freed.refl (h : Holds s [] E) : Freed s s [] E where
  ptrs := h.ptrs
  node := fun x => by simp
  root := rfl
  bytes := rfl
  room := fun _ _ _ hr => hr

theorem Ramfs.kfree_zero (s : Ramfs) (h : s.node 0 = none) : s.kfree 0 = .ok s := by
  have e : Function.update s.node 0 none = s.node := by
    rw [← h]
    exact Function.update_eq_self _ _
  show Except.ok { s with heap := s.heap, node := Function.update s.node 0 none } = _
  rw [e]

theorem Ramfs.kfree_ok {p : Nat} (h : s.heap.ptrs.Perm (p :: E)) :
    ∃ s', s.kfree p = .ok s' ∧ s'.heap.ptrs.Perm E ∧ s'.node = Function.update s.node p none ∧
      s'.root = s.root ∧ s'.bytes = s.bytes ∧
      ∀ q m, q ∈ E → s.heap.Room q m → s'.heap.Room q m := by
  obtain ⟨H', h1, h2, h3⟩ := Heap.kfree_perm h
  refine ⟨{ s with heap := H', node := Function.update s.node p none }, ?_, h2, rfl, rfl, rfl, h3⟩
  unfold Ramfs.kfree
  rw [h1]
  rfl

/-- the end of `free_tree`: the buffer, if there is one, and the node itself -/
theorem free_one {a : Nat} {n : RamfsNode} (ha : s.node a = some n) (h : Holds s [a] E) :
    ∃ s1 s2, s.kfree n.data = .ok s1 ∧ s1.kfree a = .ok s2 ∧ Freed s s2 [a] E := by
  have hdp : s.dataPtr a = if n.capacity = 0 then none else some n.data := by
    unfold Ramfs.dataPtr
    rw [ha]
    rfl
  by_cases hc : n.capacity = 0
  · have hp : s.heap.ptrs.Perm (a :: E) := by
      have h1 := h.ptrs
      unfold Ramfs.blocks at h1
      rw [List.filterMap_cons_none (by rw [hdp, if_pos hc])] at h1
      exact h1
    obtain ⟨s2, h1, h2, h3, h4, h5, h6⟩ := Ramfs.kfree_ok hp
    refine ⟨s, s2, ?_, h1, h2, fun x => ?_, h4, h5, h6⟩
    · rw [(h.buffer a n ha).mpr hc]
      exact s.kfree_zero h.node_zero
    · rw [h3]
      by_cases hx : x = a
      · subst hx
        simp
      · simp [hx]
  · have hp : s.heap.ptrs.Perm (n.data :: a :: E) := by
      have h1 := h.ptrs
      unfold Ramfs.blocks at h1
      rw [List.filterMap_cons_some (by rw [hdp, if_neg hc]), List.filterMap_nil] at h1
      exact h1.trans (List.Perm.swap _ _ _)
    obtain ⟨s1, h1, h2, h3, h4, h5, h6⟩ := Ramfs.kfree_ok hp
    obtain ⟨s2, k1, k2, k3, k4, k5, k6⟩ := Ramfs.kfree_ok h2
    refine ⟨s1, s2, h1, k1, k2, fun x => ?_, k4.trans h4, k5.trans h5, fun p m hm hr =>
      k6 p m hm (h6 p m (List.mem_cons_of_mem _ hm) hr)⟩
    rw [k3, h3]
    by_cases hx : x = a
    · subst hx
      simp
    · by_cases hd : x = n.data
      · -- a buffer is not a node
        have hnone : s.node x = none := by
          cases hx' : s.node x with
          | none => rfl
          | some m =>
            have h7 := h.nodup
            rw [← h.ptrs.nodup_iff, hp.nodup_iff] at h7
            rcases h.cover x m hx' with h8 | h8
            · exact absurd (List.mem_singleton.mp h8) hx
            · exact absurd (List.mem_cons_of_mem _ (hd ▸ h8)) (List.nodup_cons.mp h7).1
        rw [Function.update_of_ne hx, ← hd, Function.update_self, if_neg (by simpa using hx), hnone]
      · simp [hx, hd]

end

/-! ## the recursion -/

theorem freeTree_step {s s1 : Ramfs} {a f : Nat} {n : RamfsNode} {E : List Nat}
    (ha : s.node a = some n) (hk : freeKids f n.children s = .ok s1) (ha1 : s1.node a = some n)
    (h : Holds s1 [a] E) : ∃ s2, freeTree (f + 1) a s = .ok s2 ∧ Freed s1 s2 [a] E := by
  obtain ⟨t1, s2, h1, h2, h3⟩ := free_one ha1 h
  refine ⟨s2, ?_, h3⟩
  unfold freeTree
  rw [Ramfs.deref_ok ha]
  show (freeKids f n.children s >>= _) = _
  rw [hk]
  show (s1.deref a >>= _) = _
  rw [Ramfs.deref_ok ha1]
  show (s1.kfree n.data >>= _) = _
  rw [h1]
  exact h2

/-- The loop over a sibling list frees the list and everything below it.  Each level of the
recursion and each round of the loop takes one unit of fuel. -/
theorem freeKids_spec {F : Forest Nat} {s : Ramfs} {p c : Nat} {E : List Nat} {fuel : Nat}
    (hrep : Rep s.links 0 p c F) (h : Holds s F.addrs E) (hf : 2 * F.addrs.length < fuel) :
    ∃ s', freeKids fuel c s = .ok s' ∧ Freed s s' F.addrs E := by
  induction F generalizing s p c E fuel with
  | nil =>
    obtain ⟨f, rfl⟩ : ∃ f, fuel = f + 1 := ⟨fuel - 1, by omega⟩
    exact ⟨s, if_pos hrep, Freed.refl h⟩
  | cons a k r ihk ihr =>
    have hlen : (cons a k r).addrs.length = k.addrs.length + r.addrs.length + 1 := by
      show (a :: (k.addrs ++ r.addrs)).length = _
      rw [List.length_cons, List.length_append]
    obtain ⟨f, rfl⟩ : ∃ f, fuel = f + 2 := ⟨fuel - 2, by omega⟩
    obtain ⟨rfl, h0, _, hk, hr⟩ := hrep
    obtain ⟨n, hn⟩ := h.alive c List.mem_cons_self
    have hperm : (cons c k r).addrs.Perm (k.addrs ++ ([c] ++ r.addrs)) := List.perm_middle.symm
    have h1 := h.perm hperm
    have hnd : (k.addrs ++ ([c] ++ r.addrs)).Nodup := by
      have h2 := h1.nodup
      unfold Ramfs.blocks at h2
      exact (List.nodup_append'.mp (List.nodup_append'.mp h2).1).1
    obtain ⟨_, hnd2, hdis⟩ := List.nodup_append'.mp hnd
    -- the children
    rw [Ramfs.links_child hn] at hk
    obtain ⟨s1, hs1, hf1⟩ := ihk hk h1.first (show 2 * k.addrs.length < f by omega)
    have hn1 : s1.node c = some n := by
      rw [hf1.node, if_neg fun hck => hdis hck (List.mem_append_left _ List.mem_cons_self), hn]
    have h2 := h1.rest hf1
    -- the node itself
    obtain ⟨s2, hs2, hf2⟩ := freeTree_step hn hs1 hn1 h2.first
    have h3 := h2.rest hf2
    have hsame : ∀ x ∈ r.addrs, s2.node x = s.node x := by
      intro x hx
      rw [hf2.node, if_neg fun hc => (List.nodup_append'.mp hnd2).2.2 hc hx, hf1.node,
        if_neg fun hxk => hdis hxk (List.mem_append_right _ hx)]
    -- its siblings
    rw [Ramfs.links_next hn] at hr
    have hr2 : Rep s2.links 0 p n.next r := by
      refine hr.congr (fun x hx => ?_) (fun x hx => ?_) fun x hx => ?_
      · show ((s2.node x).map _).getD 0 = _
        rw [hsame x hx]
        rfl
      · show ((s2.node x).map _).getD 0 = _
        rw [hsame x hx]
        rfl
      · show ((s2.node x).map _).getD 0 = _
        rw [hsame x hx]
        rfl
    obtain ⟨s3, hs3, hf3⟩ := ihr hr2 h3 (show 2 * r.addrs.length < f + 1 by omega)
    refine ⟨s3, ?_, (hf1.trans (hf2.trans hf3)).perm hperm.symm⟩
    show (if c = 0 then _ else _) = _
    rw [if_neg h0, Ramfs.deref_ok hn]
    show (freeTree (f + 1) c s >>= _) = _
    rw [hs2]
    exact hs3

/-- `free_tree` frees a node and everything below it -/
theorem freeTree_spec {K : Forest Nat} {s : Ramfs} {a : Nat} {n : RamfsNode} {E : List Nat}
    {fuel : Nat} (ha : s.node a = some n) (hrep : Rep s.links 0 a n.children K)
    (h : Holds s (a :: K.addrs) E) (hf : 2 * K.addrs.length + 1 < fuel) :
    ∃ s', freeTree fuel a s = .ok s' ∧ Freed s s' (a :: K.addrs) E := by
  obtain ⟨f, rfl⟩ : ∃ f, fuel = f + 1 := ⟨fuel - 1, by omega⟩
  have hperm : (a :: K.addrs).Perm (K.addrs ++ [a]) := (List.perm_append_singleton _ _).symm
  have h1 := h.perm hperm
  obtain ⟨s1, hs1, hf1⟩ := freeKids_spec hrep h1.first (show 2 * K.addrs.length < f by omega)
  have hnd : a ∉ K.addrs := by
    have h2 := h.nodup
    unfold Ramfs.blocks at h2
    exact (List.nodup_cons.mp (List.nodup_append'.mp (List.nodup_append'.mp h2).1).1).1
  have ha1 : s1.node a = some n := by rw [hf1.node, if_neg hnd, ha]
  obtain ⟨s2, hs2, hf2⟩ := freeTree_step ha hs1 ha1 (h1.rest hf1)
  exact ⟨s2, hs2, (hf1.trans hf2).perm hperm.symm⟩

end Raptor
