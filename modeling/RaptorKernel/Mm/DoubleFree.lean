import RaptorKernel.Mm.KheapClients

/-!
# Double frees

A second `kfree` of a pointer finds the block marked free, also after the block was joined with its
neighbours and its header left the list: `kfree` stores into sizes and links of headers on the list
and into the free flag of its own block, and nowhere else.

* `kfreeStmts`           `kfree` statement by statement, with the memory a panic leaves behind;
* `kfree_links`          where `kfree` stores;
* `FreedHeader H m b`    the header at `b` was freed, and no block in use or on the list overlaps it;
* `double_free_panics`   a freed pointer stays freed until the next allocation.
-/

namespace Raptor
open Mem Tiling

/-! ## kfree, with the memory at the time of a panic -/

/-- a store to the heap -/
def modifyMem (f : Mem → Mem) : ExceptT Fault (StateM Kheap) Unit :=
  modify fun k => { k with mem := f k.mem }

def kfreeStmts (ptr : Nat) : ExceptT Fault (StateM Kheap) Unit :=
  if ptr = 0 then pure ()
  else do
    let b := sub32 ptr sizeofBlock
    let k ← get
    if magicOf k.mem b ≠ blockMagic then throw (.panic "kfree: bad pointer %p" ptr)
    else if freeOf k.mem b = true then throw (.panic "kfree: double free of %p" ptr)
    else do
      modifyMem fun m => setFree m b true
      modifyMem fun m => mergeNext m b
      modifyMem fun m =>
        if prevOf m b ≠ 0 ∧ freeOf m (prevOf m b) = true then mergeNext m (prevOf m b) else m

theorem modifyMem_run (k : Kheap) (g : Mem → Mem) :
    (modifyMem g).run.run k = (.ok (), { k with mem := g k.mem }) := rfl

section
variable {α : Type} (k : Kheap)

theorem get_bind_run (f : Kheap → ExceptT Fault (StateM Kheap) α) :
    (get >>= f).run.run k = (f k).run.run k := rfl

theorem modifyMem_bind_run (g : Mem → Mem) (f : Unit → ExceptT Fault (StateM Kheap) α) :
    (modifyMem g >>= f).run.run k = (f ()).run.run { k with mem := g k.mem } := rfl

end

/-- the panics come before the first store -/
theorem kfreeStmts_run (k : Kheap) (ptr : Nat) :
    (kfreeStmts ptr).run.run k =
      match kfree k ptr with
      | .ok k' => (.ok (), k')
      | .error e => (.error e, k) := by
  unfold kfreeStmts kfree
  by_cases h0 : ptr = 0
  · simp only [if_pos h0]
    rfl
  simp only [if_neg h0, get_bind_run]
  by_cases hm : magicOf k.mem (sub32 ptr sizeofBlock) ≠ blockMagic
  · simp only [if_pos hm]
    rfl
  simp only [if_neg hm]
  by_cases hf : freeOf k.mem (sub32 ptr sizeofBlock) = true
  · simp only [if_pos hf]
    rfl
  simp only [if_neg hf, modifyMem_bind_run, modifyMem_run]

/-! ## where kfree stores -/

/-- `x` lies in the size or a link of one of the blocks -/
def InLinks (l : List Cell) (x : Nat) : Prop :=
  ∃ c ∈ l, (c.addr + 4 ≤ x ∧ x < c.addr + 8) ∨ (c.addr + 12 ≤ x ∧ x < c.addr + 20)

theorem inLinks_cons {c : Cell} {l : List Cell} {x : Nat} :
    InLinks (c :: l) x ↔
      ((c.addr + 4 ≤ x ∧ x < c.addr + 8) ∨ (c.addr + 12 ≤ x ∧ x < c.addr + 20)) ∨ InLinks l x := by
  unfold InLinks
  simp only [List.mem_cons, or_and_right, exists_or, exists_eq_left]

theorem inLinks_append {l l' : List Cell} {x : Nat} :
    InLinks (l ++ l') x ↔ InLinks l x ∨ InLinks l' x := by
  unfold InLinks
  simp only [List.mem_append, or_and_right, exists_or]

theorem inLinks_joinHead {h x : Nat} {l : List Cell} (hx : InLinks (joinHead h l) x) :
    InLinks l x := by
  rcases l with _ | ⟨c, _ | ⟨d, l⟩⟩
  · exact hx
  · exact hx
  · by_cases hb : c.free = true ∧ d.free = true
    · rw [joinHead_of_free hb, inLinks_cons] at hx
      rw [inLinks_cons, inLinks_cons]
      exact hx.imp id .inr
    · rwa [joinHead_of_not hb] at hx

theorem relinkAt_links {m : Mem} {l : List Cell} {pv x : Nat} (hx : ¬ InLinks l x) :
    relinkAt m (headAddr l) pv x = m x := by
  unfold relinkAt
  cases l with
  | nil => rfl
  | cons c l =>
    rw [inLinks_cons, not_or] at hx
    have h1 := hx.1
    split
    · have e1 : headAddr (c :: l) = c.addr := rfl
      exact store32_apply_ne (by rw [e1]; omega)
    · rfl

theorem resize_links {m : Mem} {b n nx x : Nat}
    (hx : ¬ ((b + 4 ≤ x ∧ x < b + 8) ∨ (b + 12 ≤ x ∧ x < b + 20))) : resize m b n nx x = m x := by
  unfold resize setNext setSize
  rw [store32_apply_ne (by omega), store32_apply_ne (by omega)]

section
variable {m : Mem} {E s : Nat} {pre post : List Cell} {c : Cell}

theorem mergeNext_links {pv : Nat} (hE : E ≤ 2^32) (ht : Tiles sizeofBlock c.addr E (c :: post))
    (h : Rep m E pv (c :: post)) (hc : 0 < c.addr) {x : Nat} (hx : ¬ InLinks (c :: post) x) :
    mergeNext m c.addr x = m x := by
  cases post with
  | nil => rw [mergeNext_rep_last ht h]
  | cons d post =>
    by_cases hb : c.free = true ∧ d.free = true
    · rw [inLinks_cons, not_or] at hx
      obtain ⟨hx1, hx2⟩ := hx
      have hx3 : ¬ InLinks post x := fun hin => hx2 (inLinks_cons.mpr (.inr hin))
      rw [mergeNext_rep_free hE ht h hc hb, relinkAt_links hx3, resize_links hx1]
    · rw [mergeNext_rep_not ht h hb]

theorem joinPrev_links {p : Cell} (hE : E ≤ 2^32) (hs : 0 < s)
    (ht : Tiles sizeofBlock s E (pre ++ p :: c :: post)) (h : Rep m E 0 (pre ++ p :: c :: post))
    {x : Nat} (hx : ¬ InLinks (pre ++ p :: c :: post) x) : joinPrev m c.addr x = m x := by
  have h2 := ((rep_append _ _).mp h).2
  obtain ⟨hpre, htp⟩ := tiles_mid.mp ht
  have hpa : s ≤ p.addr := hpre.le
  have hprev : prevOf m c.addr = p.addr := h2.2.1.prev
  unfold joinPrev
  rw [hprev]
  split
  · rw [inLinks_append, not_or] at hx
    exact mergeNext_links hE ⟨rfl, htp⟩ h2 (by omega) hx.2
  · rfl

/-- both halves of `kfree` -/
theorem release_links (hE : E ≤ 2^32) (hs : 0 < s) (ht : Tiles sizeofBlock s E (pre ++ c :: post))
    (h : Rep m E 0 (pre ++ c :: post)) {x : Nat} (hx : ¬ InLinks (pre ++ c :: post) x) :
    joinPrev (mergeNext (setFree m c.addr true) c.addr) c.addr x = setFree m c.addr true x := by
  obtain ⟨htpre, htpost⟩ := tiles_mid.mp ht
  have hcs : s ≤ c.addr := htpre.le
  have htc : Tiles sizeofBlock c.addr E ({ c with free := true } :: post) := ⟨rfl, htpost⟩
  have h1 := ((rep_append _ _).mp h).2.setFree htpost true
  obtain ⟨h2, _⟩ := rep_freeMerge hE hs ht h
  have ht2 := (tiles_append _ _).mpr ⟨c.addr, htpre, joinHead_tiles htc⟩
  rw [inLinks_append, not_or] at hx
  have hxc : ¬ InLinks ({ c with free := true } :: post) x := by
    rw [inLinks_cons]
    exact fun hin => hx.2 (inLinks_cons.mpr hin)
  have hx' : ¬ InLinks (joinHead sizeofBlock ({ c with free := true } :: post)) x :=
    fun hin => hxc (inLinks_joinHead hin)
  have e1 : mergeNext (setFree m c.addr true) c.addr x = setFree m c.addr true x :=
    mergeNext_links hE htc h1 (by show 0 < c.addr; omega) hxc
  obtain ⟨d, l', hj, hda, _⟩ := joinHead_cons (h := sizeofBlock) { c with free := true } post
  have hda' : d.addr = c.addr := hda
  rw [hj] at h2 ht2 hx'
  rw [← e1]
  generalize mergeNext (setFree m c.addr true) c.addr = m2 at h2 ⊢
  rw [← hda']
  rcases List.eq_nil_or_concat pre with rfl | ⟨pre', p, rfl⟩
  · rw [joinPrev_first h2]
  · rw [List.concat_eq_append] at *
    rw [List.append_assoc, List.singleton_append] at h2 ht2
    refine joinPrev_links hE hs ht2 h2 ?_
    rw [← List.singleton_append, ← List.append_assoc, inLinks_append, not_or]
    exact ⟨hx.1, hx'⟩

end

/-- besides sizes and links, `kfree` stores into the free flag of its block only -/
theorem kfree_links {k k' : Kheap} {H : Heap} (h : Models k H) {c : Cell} (hc : c ∈ used H.cells)
    (hk : kfree k (c.addr + sizeofBlock) = .ok k') {x : Nat} (hx : ¬ InLinks H.cells x) :
    k'.mem x = setFree k.mem c.addr true x := by
  obtain ⟨pre, post, hcells⟩ := List.append_of_mem (mem_used.mp hc).1
  have ht := H.tiles
  have hrep := h.rep
  rw [hcells] at ht hrep hx
  have hmem := release_links H.base_fits.le H.base_pos ht hrep hx
  rw [kfree_eq h hc rfl] at hk
  generalize joinPrev (mergeNext (setFree k.mem c.addr true) c.addr) c.addr = m at hk hmem
  cases hk
  exact hmem

/-! ## headers of freed blocks -/

/-- The header at `b` has its magic and is marked free.  It is on the list, or overlaps no header on
the list, and no block in use overlaps it. -/
structure FreedHeader (H : Heap) (m : Mem) (b : Nat) : Prop where
  magic : magicOf m b = blockMagic
  free : freeOf m b = true
  listed : ∀ c ∈ H.cells, b = c.addr ∨ b + sizeofBlock ≤ c.addr ∨ c.addr + sizeofBlock ≤ b
  apart : ∀ c ∈ used H.cells, b + sizeofBlock ≤ c.addr ∨ c.stop sizeofBlock ≤ b

/-- magic and free flag of a header are no links of another one -/
theorem not_inLinks {l : List Cell} {b x : Nat}
    (hl : ∀ c ∈ l, b = c.addr ∨ b + sizeofBlock ≤ c.addr ∨ c.addr + sizeofBlock ≤ b)
    (hx : b ≤ x ∧ x < b + 4 ∨ x = b + 8) : ¬ InLinks l x := by
  rintro ⟨c, hc, h⟩
  have hb := hl c hc
  unfold sizeofBlock at hb
  omega

section
variable {k k' : Kheap} {H : Heap} (h : Models k H) {c : Cell} (hc : c ∈ used H.cells)
  (hk : kfree k (c.addr + sizeofBlock) = .ok k')
include h hc hk

/-- the block that `kfree` frees -/
theorem freed_new : FreedHeader (H.released c.addr) k'.mem c.addr := by
  have hc1 := (mem_used.mp hc).1
  obtain ⟨_, hhdr⟩ := rep_mem h.rep hc1
  have hlist : ∀ d ∈ H.cells,
      c.addr = d.addr ∨ c.addr + sizeofBlock ≤ d.addr ∨ d.addr + sizeofBlock ≤ c.addr := by
    intro d hd
    rcases H.tiles.eq_or_apart hc1 hd with rfl | h1 | h1
    · exact .inl rfl
    · unfold Cell.stop at h1
      omega
    · unfold Cell.stop at h1
      omega
  have hmem : ∀ x, c.addr ≤ x ∧ x < c.addr + 4 ∨ x = c.addr + 8 →
      k'.mem x = setFree k.mem c.addr true x :=
    fun x hx => kfree_links h hc hk (not_inLinks hlist hx)
  refine ⟨?_, ?_, fun d hd => ?_, fun d hd => ?_⟩
  · rw [← hhdr.magic]
    exact load32_congr fun x h1 h2 => (hmem x (.inl ⟨h1, h2⟩)).trans (setFree_apply_ne (by omega))
  · have hflag := freeOf_setFree k.mem c.addr true
    unfold freeOf at hflag ⊢
    rw [hmem _ (.inr rfl)]
    exact hflag
  · obtain ⟨d', hd', e⟩ := mem_release_addr hd
    rw [← e]
    exact hlist d' hd'
  · obtain ⟨hd1, hd2⟩ := (mem_used_release (by unfold sizeofBlock; omega) H.tiles d).mp hd
    rcases H.tiles.eq_or_apart hc1 (mem_used.mp hd1).1 with rfl | h1 | h1
    · exact absurd rfl hd2
    · left
      unfold Cell.stop at h1
      omega
    · exact .inr h1

/-- a block freed before -/
theorem FreedHeader.kfree {b : Nat} (hb : FreedHeader H k.mem b) :
    FreedHeader (H.released c.addr) k'.mem b := by
  have hap := hb.apart c hc
  have hmem : ∀ x, b ≤ x ∧ x < b + 4 ∨ x = b + 8 → k'.mem x = k.mem x := by
    intro x hx
    refine (kfree_links h hc hk (not_inLinks hb.listed hx)).trans (setFree_apply_ne ?_)
    unfold Cell.stop sizeofBlock at hap
    omega
  refine ⟨?_, ?_, fun d hd => ?_, fun d hd => ?_⟩
  · rw [← hb.magic]
    exact load32_congr fun x h1 h2 => hmem x (.inl ⟨h1, h2⟩)
  · have hflag := hb.free
    unfold freeOf at hflag ⊢
    rw [hmem _ (.inr rfl)]
    exact hflag
  · obtain ⟨d', hd', e⟩ := mem_release_addr hd
    rw [← e]
    exact hb.listed d' hd'
  · exact hb.apart d ((mem_used_release (by unfold sizeofBlock; omega) H.tiles d).mp hd).1

end

/-- a write of a client -/
theorem FreedHeader.write {H : Heap} {m : Mem} {b : Nat} (hb : FreedHeader H m b) {c : Cell}
    (hc : c ∈ used H.cells) {a : Nat} (h1 : c.addr + sizeofBlock ≤ a) (h2 : a < c.stop sizeofBlock)
    (v : UInt8) : FreedHeader H (Function.update m a v) b := by
  have hap := hb.apart c hc
  have hne : a < b ∨ b + 20 ≤ a := by
    unfold Cell.stop sizeofBlock at *
    omega
  refine ⟨(load32_update_ne (by omega)).trans hb.magic, ?_, hb.listed, hb.apart⟩
  have hflag := hb.free
  unfold freeOf at hflag ⊢
  rw [Function.update_of_ne (by omega)]
  exact hflag

/-- `kfree` of a freed block -/
theorem FreedHeader.panics {k : Kheap} {H : Heap} {b : Nat} (hb : FreedHeader H k.mem b)
    (hlt : b + sizeofBlock < 2^32) :
    Raptor.kfree k (b + sizeofBlock) = .error (.panic "kfree: double free of %p" (b + sizeofBlock)) := by
  have hsub : sub32 (b + sizeofBlock) sizeofBlock = b := by
    rw [sub32_eq (Nat.le_add_left _ _) hlt, Nat.add_sub_cancel]
  unfold Raptor.kfree
  rw [if_neg (by unfold sizeofBlock; omega), hsub, if_neg (not_not.mpr hb.magic), if_pos hb.free]

/-! ## runs without allocations -/

/-- frees of live pointers, and writes of clients to the bytes they asked for -/
def noAllocLegal (s : HeapState) : HeapOp → Prop
  | .kmalloc _ => False
  | .kzalloc _ => False
  | op => heapLegal (2^32 - 1) s op

def freeingMachine : Machine HeapState HeapOp Fault := ⟨heapStep, noAllocLegal⟩

section
variable {img : Image} {s t : HeapState} {H : Heap}

/-- a free of a live pointer -/
theorem heapStep_kfree (h : HeapInv img s H) {al : Alloc} (hal : al ∈ s.live)
    (hs : heapStep s (.kfree al.ptr) = .ok t) :
    ∃ c ∈ used H.cells, c.addr + sizeofBlock = al.ptr ∧ HeapInv img t (H.released c.addr) ∧
      kfree s.k (c.addr + sizeofBlock) = .ok t.k := by
  obtain ⟨c, hc, e1, hfree, _⟩ := H.kfree_spec (h.ptr_mem hal)
  obtain ⟨k', H', hk, hf, hm, _⟩ := kfree_sim h.models (h.ptr_mem hal)
  rw [heapStep_kfree_eq hk] at hs
  cases hs
  have hinv := h.free (h.ptr_mem hal) hf hm
  rw [hfree] at hf
  cases hf
  exact ⟨c, hc, e1, hinv, e1 ▸ hk⟩

/-- one step keeps the header of a freed block -/
theorem freed_step {b : Nat} {op : HeapOp} (h : HeapInv img s H) (hb : FreedHeader H s.k.mem b)
    (hl : noAllocLegal s op) (hs : heapStep s op = .ok t) :
    ∃ H', HeapInv img t H' ∧ FreedHeader H' t.k.mem b := by
  cases op with
  | kmalloc n => exact absurd hl id
  | kzalloc n => exact absurd hl id
  | kfree p =>
    rcases hl with rfl | ⟨al, hal, rfl⟩
    · have hnull : Raptor.kfree s.k 0 = .ok s.k := rfl
      rw [heapStep_kfree_eq hnull, h.filter_null] at hs
      cases hs
      exact ⟨H, h, hb⟩
    · obtain ⟨c, hc, _, hinv, hk⟩ := heapStep_kfree h hal hs
      exact ⟨_, hinv, hb.kfree h.models hc hk⟩
  | write a v =>
    cases hs
    obtain ⟨al, hal, hreq, h1, h2⟩ := hl
    obtain ⟨c, hc, e1, hfit⟩ := h.owned al hal
    have hfit' := hfit hreq
    refine ⟨H, heapInv_write h v ⟨al, hal, hreq, h1, h2⟩, hb.write hc (by omega) ?_ v⟩
    unfold Cell.stop
    omega

end

/-- After `kfree(p)`, and after any further frees of live pointers and writes to live blocks, a second
`kfree(p)` panics before it stores anything. -/
theorem double_free_panics (img : Image) (m : Mem) (ops : List HeapOp) (s : HeapState)
    (r : (heapMachine (2^32 - 1)).Run (heapBoot img m) ops s) {al : Alloc} (hal : al ∈ s.live) :
    ∃ t, heapStep s (.kfree al.ptr) = .ok t ∧ ∀ ops' u, freeingMachine.Run t ops' u →
      (kfreeStmts al.ptr).run.run u.k = (.error (.panic "kfree: double free of %p" al.ptr), u.k) := by
  obtain ⟨H, h⟩ := heapInv_of_run r
  obtain ⟨t, ht, _⟩ := heap_safe img (2^32 - 1) s (.kfree al.ptr) ⟨H, h⟩ (.inr ⟨al, hal, rfl⟩)
  obtain ⟨c, hc, e1, hinv, hk⟩ := heapStep_kfree h hal ht
  refine ⟨t, ht, fun ops' u r' => ?_⟩
  obtain ⟨H', h', hfreed⟩ : ∃ H', HeapInv img u H' ∧ FreedHeader H' u.k.mem c.addr := by
    refine r'.inv (I := fun u => ∃ H', HeapInv img u H' ∧ FreedHeader H' u.k.mem c.addr)
      ⟨_, hinv, freed_new h.models hc hk⟩ ?_
    rintro s₁ op t₁ ⟨H₁, h₁, hf₁⟩ hl hs
    exact freed_step h₁ hf₁ hl hs
  have hlt : c.addr + sizeofBlock < 2^32 := by
    have h1 := (H.tiles.bounds c (mem_used.mp hc).1).2
    have h2 := H.base_fits
    unfold Cell.stop at h1
    omega
  have hpanic := hfreed.panics hlt
  rw [e1] at hpanic
  rw [kfreeStmts_run, hpanic]

/-- two neighbours, freed in the order of their addresses: the second is joined with the first -/
theorem double_free_panics_joined :
    ∃ s t u al al', (heapMachine (2^32 - 1)).Run (heapBoot sampleImage fun _ => 0)
        [.kmalloc 100, .kmalloc 60] s ∧ al ∈ s.live ∧ al' ∈ s.live ∧ al'.ptr ≠ al.ptr ∧
      heapStep s (.kfree al.ptr) = .ok t ∧ freeingMachine.Run t [.kfree al'.ptr] u ∧
      (kfreeStmts al.ptr).run.run u.k = (.error (.panic "kfree: double free of %p" al.ptr), u.k) := by
  obtain ⟨k1, e1, h1, _⟩ := heapInv_kmalloc (heapInv_boot sampleImage fun _ => 0) 100
  obtain ⟨k2, e2, h2, _⟩ := heapInv_kmalloc h1 60
  have hp1 : ((Heap.init sampleImage).kmalloc 100).1 = 0xC0120014 := by decide +kernel
  have hp2 : (((Heap.init sampleImage).kmalloc 100).2.kmalloc 60).1 = 0xC0120090 := by decide +kernel
  rw [hp1] at e1 e2 h2
  rw [hp2] at e2 h2
  have r1 : (heapMachine (2^32 - 1)).Run (heapBoot sampleImage fun _ => 0) [.kmalloc 100]
      ⟨k1, [⟨0xC0120014, 100⟩]⟩ :=
    .snoc (.nil (M := heapMachine (2^32 - 1))) (show 100 ≤ 2^32 - 1 by norm_num)
      (heapStep_kmalloc_eq e1)
  have r2 : (heapMachine (2^32 - 1)).Run (heapBoot sampleImage fun _ => 0) [.kmalloc 100, .kmalloc 60]
      ⟨k2, [⟨0xC0120090, 60⟩, ⟨0xC0120014, 100⟩]⟩ :=
    r1.snoc (show 60 ≤ 2^32 - 1 by norm_num) (heapStep_kmalloc_eq e2)
  have hal : (⟨0xC0120014, 100⟩ : Alloc) ∈ [⟨0xC0120090, 60⟩, ⟨0xC0120014, 100⟩] := by simp
  obtain ⟨t, ht, hall⟩ := double_free_panics sampleImage _ _ _ r2 hal
  obtain ⟨H, h⟩ := heapInv_of_run r2
  obtain ⟨c, _, _, ht', _⟩ := heapStep_kfree h hal ht
  have hal' : (⟨0xC0120090, 60⟩ : Alloc) ∈ t.live := by
    obtain ⟨k3, _, rfl⟩ := map_eq_ok.mp ht
    simp
  have hl : heapLegal (2^32 - 1) t (.kfree 0xC0120090) := .inr ⟨_, hal', rfl⟩
  obtain ⟨u, hu, _⟩ := heap_safe sampleImage (2^32 - 1) t (.kfree 0xC0120090) ⟨_, ht'⟩ hl
  have r3 : freeingMachine.Run t [.kfree 0xC0120090] u := .snoc (.nil (M := freeingMachine)) hl hu
  exact ⟨_, t, u, _, ⟨0xC0120090, 60⟩, r2, hal, by simp, by simp, ht, r3, hall _ _ r3⟩

end Raptor
