import RaptorKernel.Mm.KheapInvariant

/-!
# What the clients of the heap rely on

* `heap_isolation`   live allocations lie inside the heap, apart from each other and from the
                     headers, and no allocator call changes their bytes;
* `blockList`        the headers on the list from `heap_head`, with all their fields;
* `heap_canonical`   the list is determined by the allocated blocks: the order of frees does not
                     matter, `kfree` undoes `kmalloc`, an empty heap is the initial one.
-/

namespace Raptor
open Mem Tiling

/-! ## isolation -/

theorem req_le_of_run {img : Image} {maxReq : Nat} {m : Mem} {ops : List HeapOp} {s : HeapState}
    (r : (heapMachine maxReq).Run (heapBoot img m) ops s) : ∀ al ∈ s.live, al.req ≤ maxReq := by
  have hadd : ∀ (p n : Nat) (live : List Alloc), n ≤ maxReq → (∀ al ∈ live, al.req ≤ maxReq) →
      ∀ al ∈ addLive p n live, al.req ≤ maxReq := by
    intro p n live hn hlive al hal
    unfold addLive at hal
    split at hal
    · exact hlive al hal
    · rcases List.mem_cons.mp hal with rfl | hal'
      · exact hn
      · exact hlive al hal'
  refine r.inv (I := fun s => ∀ al ∈ s.live, al.req ≤ maxReq) (fun al hal => ?_) ?_
  · exact absurd hal (by simp [heapBoot])
  · intro s op t hI hl hs
    cases op with
    | kmalloc n =>
      change (kmalloc s.k n).map _ = _ at hs
      cases hk : kmalloc s.k n with
      | error e => rw [hk] at hs; cases hs
      | ok r =>
        rw [hk] at hs
        cases hs
        exact hadd _ _ _ hl hI
    | kzalloc n =>
      change (kzalloc s.k n).map _ = _ at hs
      cases hk : kzalloc s.k n with
      | error e => rw [hk] at hs; cases hs
      | ok r =>
        rw [hk] at hs
        cases hs
        exact hadd _ _ _ hl.1 hI
    | kfree p =>
      change (kfree s.k p).map _ = _ at hs
      cases hk : kfree s.k p with
      | error e => rw [hk] at hs; cases hs
      | ok r =>
        rw [hk] at hs
        cases hs
        exact fun al hal => hI al (List.mem_of_mem_filter hal)
    | write a v =>
      cases hs
      exact hI

section
variable {img : Image} {s : HeapState} {H : Heap}

theorem HeapInv.inside (h : HeapInv img s H) {al : Alloc} (hal : al ∈ s.live)
    (hreq : al.req ≤ maxAsk) : img.base ≤ al.ptr ∧ al.ptr + al.req ≤ img.base + heapSize := by
  obtain ⟨c, hc, e1, e2⟩ := h.payload hal hreq
  obtain ⟨h1, h2⟩ := H.tiles.bounds c hc
  rw [h.base] at h1 h2
  omega

theorem HeapInv.header_apart (h : HeapInv img s H) {al : Alloc} (hal : al ∈ s.live)
    (hreq : al.req ≤ maxAsk) {b : Nat} (hb : b ∈ H.cells.map Cell.addr) :
    al.ptr + al.req ≤ b ∨ b + sizeofBlock ≤ al.ptr := by
  obtain ⟨c, hc, e1, e2⟩ := h.payload hal hreq
  obtain ⟨d, hd, rfl⟩ := List.mem_map.mp hb
  rcases H.tiles.eq_or_apart hc hd with rfl | h1 | h1
  · exact .inr e1.le
  · exact .inl (e2.trans h1)
  · refine .inr ?_
    unfold Cell.stop at h1
    omega

/-- live allocations with one pointer are the same allocation -/
theorem HeapInv.alloc_inj (h : HeapInv img s H) {al al' : Alloc} (hal : al ∈ s.live)
    (hal' : al' ∈ s.live) (e : al.ptr = al'.ptr) : al = al' :=
  List.inj_on_of_nodup_map h.distinct hal hal' e

/-- an allocator call leaves the bytes of live allocations alone -/
theorem HeapInv.keepsLive (h : HeapInv img s H) {maxReq : Nat} {op : HeapOp} {t : HeapState}
    (hl : heapLegal maxReq s op) (hs : heapStep s op = .ok t) (hw : ∀ a v, op ≠ .write a v) :
    KeepsLive s t := by
  cases op with
  | kmalloc n =>
    obtain ⟨k', h1, _, h3⟩ := heapInv_kmalloc h n
    change (kmalloc s.k n).map _ = _ at hs
    rw [h1] at hs
    cases hs
    exact h3
  | kzalloc n =>
    obtain ⟨k', h1, _, h3, _⟩ := heapInv_kzalloc h hl.2
    change (kzalloc s.k n).map _ = _ at hs
    rw [h1] at hs
    cases hs
    exact h3
  | kfree p =>
    obtain ⟨k', H', h1, _, _, h3⟩ := heapInv_kfree h hl
    change (kfree s.k p).map _ = _ at hs
    rw [h1] at hs
    cases hs
    exact h3
  | write a v => exact absurd rfl (hw a v)

/-- memory returned by `kzalloc` is zero -/
theorem HeapInv.zeroed (h : HeapInv img s H) {n : Nat} {t : HeapState} (hn : n ≤ maxAsk)
    (hs : heapStep s (.kzalloc n) = .ok t) {al : Alloc} (hal : al ∈ t.live) (hnew : al ∉ s.live) :
    al.req = n ∧ ∀ x, al.ptr ≤ x → x < al.ptr + al.req → t.k.mem x = 0 := by
  obtain ⟨k', h1, _, _, h4⟩ := heapInv_kzalloc h hn
  change (kzalloc s.k n).map _ = _ at hs
  rw [h1] at hs
  cases hs
  change al ∈ addLive (H.kmalloc n).1 n s.live at hal
  unfold addLive at hal
  split at hal
  · exact absurd hal hnew
  · rcases List.mem_cons.mp hal with rfl | hal'
    · exact ⟨rfl, h4 (by assumption)⟩
    · exact absurd hal' hnew

end

/-- **Heap isolation.**  In every run with requests up to 2 GiB and client writes inside the
requested bytes: the live ranges lie in the heap, are pairwise disjoint and disjoint from every
header on the list; no allocator call changes a byte of an allocation that stays alive; and memory
from `kzalloc` is returned zeroed. -/
theorem heap_isolation (img : Image) (m : Mem) (ops : List HeapOp) (s : HeapState)
    (r : (heapMachine maxAsk).Run (heapBoot img m) ops s) :
    (∀ al ∈ s.live, img.base ≤ al.ptr ∧ al.ptr + al.req ≤ img.base + heapSize) ∧
    (∀ al ∈ s.live, ∀ al' ∈ s.live, al ≠ al' →
      al.ptr + al.req ≤ al'.ptr ∨ al'.ptr + al'.req ≤ al.ptr) ∧
    (∃ hs, Chain (nextOf s.k.mem) 0 s.k.heapHead hs ∧ ∀ al ∈ s.live, ∀ b ∈ hs,
      al.ptr + al.req ≤ b ∨ b + sizeofBlock ≤ al.ptr) ∧
    (∀ op t, heapLegal maxAsk s op → heapStep s op = .ok t → (∀ a v, op ≠ .write a v) →
      ∀ al ∈ s.live, al ∈ t.live → ∀ x, al.ptr ≤ x → x < al.ptr + al.req →
        t.k.mem x = s.k.mem x) ∧
    (∀ n t, n ≤ maxAsk → heapStep s (.kzalloc n) = .ok t → ∀ al ∈ t.live, al ∉ s.live →
      al.req = n ∧ ∀ x, al.ptr ≤ x → x < al.ptr + al.req → t.k.mem x = 0) := by
  obtain ⟨H, h⟩ := heapInv_of_run r
  have hreq := req_le_of_run r
  refine ⟨fun al hal => h.inside hal (hreq al hal), fun al hal al' hal' hne => ?_, ?_, ?_, ?_⟩
  · exact h.apart hal hal' (hreq al hal) (hreq al' hal') fun e => hne (h.alloc_inj hal hal' e)
  · exact ⟨_, (listInv_of_models h.models).linked, fun al hal b hb =>
      h.header_apart hal (hreq al hal) hb⟩
  · intro op t hl hs hw al hal hal' x h1 h2
    exact h.keepsLive hl hs hw al hal hal' (hreq al hal) x h1 h2
  · intro n t hn hs al hal hnew
    exact h.zeroed hn hs hal hnew

theorem heap_isolation_two_requests :
    ∃ s, (heapMachine maxAsk).Run (heapBoot sampleImage fun _ => 0) [.kmalloc 100, .kzalloc 60] s ∧
      ∀ al ∈ s.live, ∀ al' ∈ s.live, al ≠ al' →
        al.ptr + al.req ≤ al'.ptr ∨ al'.ptr + al'.req ≤ al.ptr := by
  have hsafe := heap_safe sampleImage maxAsk
  have h0 : ∃ H, HeapInv sampleImage (heapBoot sampleImage fun _ => 0) H := ⟨_, heapInv_boot _ _⟩
  obtain ⟨s1, r1⟩ := hsafe.extend .nil h0 (i := .kmalloc 100)
    (by show 100 ≤ maxAsk; unfold maxAsk; norm_num)
  obtain ⟨s2, r2⟩ := hsafe.extend r1 h0 (i := .kzalloc 60)
    ⟨by unfold maxAsk; norm_num, by unfold maxAsk; norm_num⟩
  exact ⟨s2, r2, (heap_isolation sampleImage _ _ s2 r2).2.1⟩

/-! ## canonical form -/

/-- a header as it stands in memory -/
structure BlockView where
  addr : Nat
  magic : Nat
  size : Nat
  free : Bool
  next : Nat
  prev : Nat
deriving DecidableEq, Repr

def viewBlock (m : Mem) (b : Nat) : BlockView :=
  ⟨b, magicOf m b, sizeOf m b, freeOf m b, nextOf m b, prevOf m b⟩

def blockListLoop (m : Mem) : Nat → Nat → Except Fault (List BlockView)
  | 0, _ => .error .diverges
  | fuel+1, b =>
    if b = 0 then .ok []
    else (blockListLoop m fuel (nextOf m b)).map fun l => viewBlock m b :: l

/-- the headers on the list from `heap_head` -/
def blockList (k : Kheap) : Except Fault (List BlockView) := blockListLoop k.mem loopBound k.heapHead

/-- header addresses and sizes of the blocks that are not free -/
def allocatedBlocks (l : List BlockView) : List (Nat × Nat) :=
  (l.filter fun b => !b.free).map fun b => (b.addr, b.size)

/-- the headers of a list of blocks -/
def views (E : Nat) : Nat → List Cell → List BlockView
  | _, [] => []
  | pv, c :: l => ⟨c.addr, blockMagic, c.size, c.free, nextAddr E c, pv⟩ :: views E c.addr l

theorem blockListLoop_sim {m : Mem} {E : Nat} (l : List Cell) :
    ∀ s pv fuel : Nat, 0 < s → Tiles sizeofBlock s E l → Rep m E pv l → l.length < fuel →
      blockListLoop m fuel (headAddr l) = .ok (views E pv l) := by
  induction l with
  | nil =>
    intro s pv fuel _ _ _ hf
    obtain ⟨fuel, rfl⟩ := Nat.exists_eq_succ_of_ne_zero (Nat.pos_iff_ne_zero.mp hf)
    rfl
  | cons c l ih =>
    intro s pv fuel hs ht h hf
    obtain ⟨fuel, rfl⟩ : ∃ f, fuel = f + 1 := ⟨fuel - 1, by simp at hf; omega⟩
    have hc : c.addr = s := ht.1
    have hc0 : c.addr ≠ 0 := by omega
    have ht' : Tiles sizeofBlock c.addr E (c :: l) := by rw [hc]; exact ht
    have hv : viewBlock m c.addr = ⟨c.addr, blockMagic, c.size, c.free, nextAddr E c, pv⟩ := by
      unfold viewBlock
      rw [h.1.magic, h.1.size, h.1.free, h.1.next, h.1.prev]
    show blockListLoop m (fuel + 1) c.addr = _
    rw [blockListLoop, if_neg hc0, h.1.next, nextAddr_eq_headAddr ht',
      ih _ c.addr fuel (by omega) ht.2 h.2 (by simpa using hf), hv]
    rfl

theorem blockList_sim {k : Kheap} {H : Heap} (h : Models k H) :
    blockList k = .ok (views (H.base + heapSize) 0 H.cells) := by
  have h1 := blockListLoop_sim H.cells H.base 0 loopBound H.base_pos H.tiles h.rep H.length_lt
  rw [H.headAddr_cells] at h1
  unfold blockList
  rw [h.head]
  exact h1

theorem mem_allocatedBlocks {E pv a z : Nat} {l : List Cell} :
    (a, z) ∈ allocatedBlocks (views E pv l) ↔ (⟨a, z, false⟩ : Cell) ∈ used l := by
  induction l generalizing pv with
  | nil => simp [views, allocatedBlocks, used]
  | cons c l ih =>
    have ih' : (a, z) ∈ allocatedBlocks (views E c.addr l) ↔ _ := ih
    unfold allocatedBlocks at ih' ⊢
    rw [used_cons, views]
    obtain ⟨ca, cz, cf⟩ := c
    cases cf with
    | true => simpa using ih'
    | false =>
      simp only [List.filter_cons, Bool.not_false, if_true, List.map_cons, List.mem_cons,
        Prod.mk.injEq, Bool.false_eq_true, if_false, Cell.mk.injEq, and_true]
      rw [ih']

/-- heaps over one region with the same blocks in use have the same blocks -/
theorem Heap.cells_ext {H H' : Heap} (hb : H.base = H'.base)
    (hu : ∀ c, c ∈ used H.cells ↔ c ∈ used H'.cells) : H.cells = H'.cells :=
  coalesced_ext (by unfold sizeofBlock; omega) H.tiles (by rw [hb]; exact H'.tiles) H.coalesced
    H'.coalesced hu

theorem blockList_ext {k k' : Kheap} {H H' : Heap} (h : Models k H) (h' : Models k' H')
    (hb : H.base = H'.base) (hu : ∀ c, c ∈ used H.cells ↔ c ∈ used H'.cells) :
    blockList k = blockList k' := by
  rw [blockList_sim h, blockList_sim h', hb, Heap.cells_ext hb hu]

/-- `kfree` on the pointers of a list, one after the other -/
def freeAll (k : Kheap) (ps : List Nat) : Except Fault Kheap := ps.foldlM kfree k

theorem freeAll_spec {img : Image} (ps : List Nat) :
    ∀ {s : HeapState} {H : Heap}, HeapInv img s H → ps.Nodup → (∀ p ∈ ps, ∃ al ∈ s.live, al.ptr = p) →
      ∃ k' H', freeAll s.k ps = .ok k' ∧ Models k' H' ∧ H'.base = img.base ∧
        ∀ d, d ∈ used H'.cells ↔ d ∈ used H.cells ∧ d.addr + sizeofBlock ∉ ps := by
  induction ps with
  | nil =>
    intro s H h _ _
    exact ⟨s.k, H, rfl, h.models, h.base, fun d => by simp⟩
  | cons p ps ih =>
    intro s H h hnd hlive
    obtain ⟨hp, hnd'⟩ := List.nodup_cons.mp hnd
    obtain ⟨k1, H1, h1, h2, h3, _⟩ := heapInv_kfree h (.inr (hlive p List.mem_cons_self))
    obtain ⟨k', H', h4, h5, h6, h7⟩ := ih h2 hnd' (by
      intro q hq
      obtain ⟨al, hal, rfl⟩ := hlive q (List.mem_cons_of_mem _ hq)
      refine ⟨al, List.mem_filter.mpr ⟨hal, ?_⟩, rfl⟩
      have : al.ptr ≠ p := fun e => hp (e ▸ hq)
      simpa using this)
    refine ⟨k', H', ?_, h5, h6, fun d => ?_⟩
    · show (kfree s.k p >>= fun k => ps.foldlM kfree k) = _
      rw [h1]
      exact h4
    · rw [h7, h3, List.mem_cons, not_or, and_assoc]

section
variable {img : Image} {s s' : HeapState} {H H' : Heap}

/-- the allocated blocks determine the list -/
theorem HeapInv.blockList_eq (h : HeapInv img s H) (h' : HeapInv img s' H') :
    ∃ l l', blockList s.k = .ok l ∧ blockList s'.k = .ok l' ∧
      ((∀ b, b ∈ allocatedBlocks l ↔ b ∈ allocatedBlocks l') → l = l') := by
  have hb := h.base.trans h'.base.symm
  refine ⟨_, _, blockList_sim h.models, blockList_sim h'.models, fun hu => ?_⟩
  have hu' : ∀ c, c ∈ used H.cells ↔ c ∈ used H'.cells := by
    rintro ⟨a, z, f⟩
    cases f with
    | true => simp [mem_used]
    | false =>
      have h1 := hu (a, z)
      rwa [mem_allocatedBlocks, mem_allocatedBlocks] at h1
  rw [hb, Heap.cells_ext hb hu']

/-- the order of frees does not matter -/
theorem HeapInv.freeAll_perm (h : HeapInv img s H) {ps qs : List Nat} (hnd : ps.Nodup) (hperm : ps.Perm qs)
    (hlive : ∀ p ∈ ps, ∃ al ∈ s.live, al.ptr = p) :
    ∃ k₁ k₂, freeAll s.k ps = .ok k₁ ∧ freeAll s.k qs = .ok k₂ ∧ blockList k₁ = blockList k₂ := by
  obtain ⟨k₁, H₁, e1, hm1, hb1, hu1⟩ := freeAll_spec ps h hnd hlive
  obtain ⟨k₂, H₂, e2, hm2, hb2, hu2⟩ := freeAll_spec qs h (hperm.nodup_iff.mp hnd)
    (fun p hp => hlive p (hperm.mem_iff.mpr hp))
  refine ⟨k₁, k₂, e1, e2, blockList_ext hm1 hm2 (hb1.trans hb2.symm) fun c => ?_⟩
  rw [hu1, hu2, hperm.mem_iff]

/-- `kfree` undoes `kmalloc` -/
theorem HeapInv.kfree_kmalloc (h : HeapInv img s H) (n : Nat) : ∃ p k₁ k₂,
    kmalloc s.k n = .ok (p, k₁) ∧ kfree k₁ p = .ok k₂ ∧ blockList k₂ = blockList s.k := by
  obtain ⟨k₁, e1, h1, _⟩ := heapInv_kmalloc h n
  generalize hr : H.kmalloc n = res at *
  obtain ⟨p, H₁⟩ := res
  simp only at e1 h1
  have hp : p = 0 ∨ ∃ al ∈ addLive p n s.live, al.ptr = p := by
    by_cases hp0 : p = 0
    · exact .inl hp0
    · refine .inr ⟨⟨p, n⟩, ?_, rfl⟩
      unfold addLive
      rw [if_neg hp0]
      exact List.mem_cons_self
  obtain ⟨k₂, H₂, e2, h2, hu2, _⟩ := heapInv_kfree h1 hp
  refine ⟨p, k₁, k₂, e1, e2, blockList_ext h2.models h.models (h2.base.trans h.base.symm) ?_⟩
  intro c
  rw [hu2]
  by_cases hp0 : p = 0
  · subst hp0
    rw [H.kmalloc_null hr]
    exact ⟨fun hc => hc.1, fun hc => ⟨hc, by unfold sizeofBlock; omega⟩⟩
  · obtain ⟨d, hd, _, _, hfresh, _, hu⟩ := H.kmalloc_spec hr hp0
    rw [hu]
    constructor
    · rintro ⟨rfl | hc, hne⟩
      · exact absurd hd hne
      · exact hc
    · exact fun hc => ⟨.inr hc, fun e => hfresh (H.mem_ptrs.mpr ⟨c, hc, e⟩)⟩

/-- with everything freed, the list is that of the initial heap -/
theorem HeapInv.freeAll_live (h : HeapInv img s H) (m : Mem) {ps : List Nat}
    (hperm : ps.Perm (s.live.map Alloc.ptr)) :
    ∃ k₁, freeAll s.k ps = .ok k₁ ∧ blockList k₁ = blockList (kheapInit img.kernelEnd m) := by
  obtain ⟨k₁, H₁, e1, hm1, hb1, hu1⟩ := freeAll_spec ps h (hperm.nodup_iff.mpr h.distinct) (fun p hp => by
    obtain ⟨al, hal, e⟩ := List.mem_map.mp (hperm.mem_iff.mp hp)
    exact ⟨al, hal, e⟩)
  refine ⟨k₁, e1, blockList_ext hm1 (kheapInit_models img m) hb1 fun c => ?_⟩
  constructor
  · intro hc
    obtain ⟨hc1, hc2⟩ := (hu1 c).mp hc
    obtain ⟨al, hal, e⟩ := h.covered _ (H.mem_ptrs.mpr ⟨c, hc1, rfl⟩)
    exact absurd (hperm.mem_iff.mpr (List.mem_map.mpr ⟨al, hal, e⟩)) hc2
  · intro hc
    exact absurd hc (by simp [used, Heap.init])

end

theorem blockList_kheapInit (img : Image) (m : Mem) : blockList (kheapInit img.kernelEnd m) =
    .ok [⟨img.base, blockMagic, heapSize - sizeofBlock, true, 0, 0⟩] := by
  have hnext : nextAddr (img.base + heapSize) ⟨img.base, heapSize - sizeofBlock, true⟩ = 0 := by
    refine if_pos ?_
    show img.base + 20 + (4 * 1024 * 1024 - 20) = img.base + 4 * 1024 * 1024
    omega
  rw [blockList_sim (kheapInit_models img m)]
  show Except.ok (views (img.base + heapSize) 0 [⟨img.base, heapSize - sizeofBlock, true⟩]) = _
  rw [views, hnext]
  rfl

/-- **Heap canonical form.**  (1) Two runs that end with the same allocated blocks end with the
same block list.  (2) Freeing distinct live pointers in two orders gives the same list.
(3) `kfree` of what `kmalloc` returned restores the list.  (4) When every live pointer has been
freed, in any order, the list is the one `kheap_init` built: a single free block. -/
theorem heap_canonical (img : Image) (m : Mem) (ops : List HeapOp) (s : HeapState)
    (r : (heapMachine (2^32 - 1)).Run (heapBoot img m) ops s) :
    (∀ m' ops' s', (heapMachine (2^32 - 1)).Run (heapBoot img m') ops' s' →
      ∃ l l', blockList s.k = .ok l ∧ blockList s'.k = .ok l' ∧
        ((∀ b, b ∈ allocatedBlocks l ↔ b ∈ allocatedBlocks l') → l = l')) ∧
    (∀ ps qs : List Nat, ps.Nodup → ps.Perm qs → (∀ p ∈ ps, ∃ al ∈ s.live, al.ptr = p) →
      ∃ k₁ k₂, freeAll s.k ps = .ok k₁ ∧ freeAll s.k qs = .ok k₂ ∧ blockList k₁ = blockList k₂) ∧
    (∀ n < 2^32, ∃ p k₁ k₂, kmalloc s.k n = .ok (p, k₁) ∧ kfree k₁ p = .ok k₂ ∧
      blockList k₂ = blockList s.k) ∧
    (∀ ps : List Nat, ps.Perm (s.live.map Alloc.ptr) → ∃ k₁, freeAll s.k ps = .ok k₁ ∧
      blockList k₁ = blockList (kheapInit img.kernelEnd m) ∧
      blockList k₁ = .ok [⟨img.base, blockMagic, heapSize - sizeofBlock, true, 0, 0⟩]) := by
  obtain ⟨H, h⟩ := heapInv_of_run r
  refine ⟨fun m' ops' s' r' => ?_, fun ps qs hnd hperm hlive => h.freeAll_perm hnd hperm hlive,
    fun n _ => h.kfree_kmalloc n, fun ps hperm => ?_⟩
  · obtain ⟨H', h'⟩ := heapInv_of_run r'
    exact h.blockList_eq h'
  · obtain ⟨k₁, e1, e2⟩ := h.freeAll_live m hperm
    exact ⟨k₁, e1, e2, e2.trans (blockList_kheapInit img m)⟩

theorem heap_canonical_one_request :
    ∃ s, (heapMachine (2^32 - 1)).Run (heapBoot sampleImage fun _ => 0) [.kmalloc 100] s ∧
      ∀ n < 2^32, ∃ p k₁ k₂, kmalloc s.k n = .ok (p, k₁) ∧ kfree k₁ p = .ok k₂ ∧
        blockList k₂ = blockList s.k := by
  obtain ⟨s1, r1⟩ := (heap_safe sampleImage (2^32 - 1)).extend .nil ⟨_, heapInv_boot _ _⟩
    (i := .kmalloc 100) (by show 100 ≤ 2^32 - 1; norm_num)
  exact ⟨s1, r1, (heap_canonical sampleImage _ _ s1 r1).2.2.1⟩

end Raptor
