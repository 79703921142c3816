import RaptorKernel.Theory.Chain
import RaptorKernel.Theory.Run
import RaptorKernel.Mm.KheapRep

/-!
# Runs of the kernel heap

Clients call `kmalloc`, `kzalloc` and `kfree` and write to the bytes they asked for.  `live` records
the pointers returned and not freed since, with the size that was requested.

* `heapMachine maxReq`   the runs in which no request exceeds `maxReq`;
* `HeapInv`              the memory represents a list of blocks, and the live pointers are exactly
                         the blocks in use;
* `KeepsLive`            the bytes of every allocation that stays alive are as they were;
* `heap_safe`            every legal call succeeds and keeps `HeapInv`.
-/

namespace Raptor
open Mem Tiling

structure Alloc where
  ptr : Nat
  req : Nat
deriving DecidableEq, Repr

structure HeapState where
  k : Kheap
  live : List Alloc

inductive HeapOp where
  | kmalloc (n : Nat)
  | kzalloc (n : Nat)
  | kfree (p : Nat)
  | write (a : Nat) (v : UInt8)

def addLive (p n : Nat) (live : List Alloc) : List Alloc := if p = 0 then live else ⟨p, n⟩ :: live

def heapStep (s : HeapState) : HeapOp → Except Fault HeapState
  | .kmalloc n => (kmalloc s.k n).map fun r => ⟨r.2, addLive r.1 n s.live⟩
  | .kzalloc n => (kzalloc s.k n).map fun r => ⟨r.2, addLive r.1 n s.live⟩
  | .kfree p => (kfree s.k p).map fun k => ⟨k, s.live.filter fun al => al.ptr ≠ p⟩
  | .write a v => .ok { s with k := { s.k with mem := Function.update s.k.mem a v } }

section
variable {s : HeapState} {k' : Kheap} {n p : Nat}

theorem heapStep_kmalloc_eq (h : kmalloc s.k n = .ok (p, k')) :
    heapStep s (.kmalloc n) = .ok ⟨k', addLive p n s.live⟩ := by
  show (kmalloc s.k n).map _ = _
  rw [h]
  rfl

theorem heapStep_kzalloc_eq (h : kzalloc s.k n = .ok (p, k')) :
    heapStep s (.kzalloc n) = .ok ⟨k', addLive p n s.live⟩ := by
  show (kzalloc s.k n).map _ = _
  rw [h]
  rfl

theorem heapStep_kfree_eq (h : kfree s.k p = .ok k') :
    heapStep s (.kfree p) = .ok ⟨k', s.live.filter fun al => al.ptr ≠ p⟩ := by
  show (kfree s.k p).map _ = _
  rw [h]
  rfl

end

/-- the most any caller can ask for -/
def maxAsk : Nat := 2^31

/-- Requests up to `maxReq`; `kzalloc` and client writes only for sizes a caller can really ask
for; only live pointers (or NULL) are freed, and clients write to the bytes they asked for. -/
def heapLegal (maxReq : Nat) (s : HeapState) : HeapOp → Prop
  | .kmalloc n => n ≤ maxReq
  | .kzalloc n => n ≤ maxReq ∧ n ≤ maxAsk
  | .kfree p => p = 0 ∨ ∃ al ∈ s.live, al.ptr = p
  | .write a _ => ∃ al ∈ s.live, al.req ≤ maxAsk ∧ al.ptr ≤ a ∧ a < al.ptr + al.req

def heapMachine (maxReq : Nat) : Machine HeapState HeapOp Fault := ⟨heapStep, heapLegal maxReq⟩

def heapBoot (img : Image) (m : Mem) : HeapState := ⟨kheapInit img.kernelEnd m, []⟩

structure HeapInv (img : Image) (s : HeapState) (H : Heap) : Prop where
  base : H.base = img.base
  models : Models s.k H
  owned : ∀ al ∈ s.live, ∃ c ∈ used H.cells, c.addr + sizeofBlock = al.ptr ∧
    (al.req ≤ maxAsk → al.req ≤ c.size)
  covered : ∀ p ∈ H.ptrs, ∃ al ∈ s.live, al.ptr = p
  distinct : (s.live.map Alloc.ptr).Nodup

theorem heapInv_boot (img : Image) (m : Mem) : HeapInv img (heapBoot img m) (Heap.init img) where
  base := rfl
  models := kheapInit_models img m
  owned := fun al hal => absurd hal (by simp [heapBoot])
  covered := fun p hp => absurd hp (by simp [Heap.ptrs, Heap.init, used])
  distinct := List.nodup_nil

/-- the blocks are the same after stores into payloads -/
theorem Models.congr {k k' : Kheap} {H : Heap} (h : Models k H) (hh : k'.heapHead = k.heapHead)
    (hs : k'.heapStart = k.heapStart) (hag : ∀ x, InHeaders H.cells x → k'.mem x = k.mem x) :
    Models k' H :=
  ⟨hh.trans h.head, hs.trans h.start, h.rep.congr hag⟩

section
variable {img : Image} {s : HeapState} {H : Heap}

/-- the requested bytes of a live allocation lie in the payload of a block in use -/
theorem HeapInv.payload (h : HeapInv img s H) {al : Alloc} (hal : al ∈ s.live)
    (hreq : al.req ≤ maxAsk) :
    ∃ c ∈ H.cells, c.addr + sizeofBlock = al.ptr ∧ al.ptr + al.req ≤ c.stop sizeofBlock := by
  obtain ⟨c, hc, e1, hfit⟩ := h.owned al hal
  refine ⟨c, (mem_used.mp hc).1, e1, ?_⟩
  have := hfit hreq
  unfold Cell.stop
  omega

theorem HeapInv.ptr_mem (h : HeapInv img s H) {al : Alloc} (hal : al ∈ s.live) : al.ptr ∈ H.ptrs := by
  obtain ⟨c, hc, e1, _⟩ := h.owned al hal
  exact H.mem_ptrs.mpr ⟨c, hc, e1⟩

/-- no requested byte of a live allocation lies in a header -/
theorem HeapInv.not_inHeaders (h : HeapInv img s H) {al : Alloc} (hal : al ∈ s.live)
    (hreq : al.req ≤ maxAsk) {x : Nat} (h1 : al.ptr ≤ x) (h2 : x < al.ptr + al.req) :
    ¬ InHeaders H.cells x := by
  obtain ⟨c, hc, e1, e2⟩ := h.payload hal hreq
  exact not_inHeaders_of_payload H.tiles hc (by omega) (by omega)

/-- the requested bytes of two live allocations do not overlap -/
theorem HeapInv.apart (h : HeapInv img s H) {al al' : Alloc} (hal : al ∈ s.live) (hal' : al' ∈ s.live)
    (hreq : al.req ≤ maxAsk) (hreq' : al'.req ≤ maxAsk) (hne : al.ptr ≠ al'.ptr) :
    al.ptr + al.req ≤ al'.ptr ∨ al'.ptr + al'.req ≤ al.ptr := by
  obtain ⟨c, hc, e1, e2⟩ := h.payload hal hreq
  obtain ⟨c', hc', e1', e2'⟩ := h.payload hal' hreq'
  rcases H.tiles.eq_or_apart hc hc' with rfl | h1 | h1
  · exact absurd (e1.symm.trans e1') hne
  · exact .inl (by omega)
  · exact .inr (by omega)

/-- bookkeeping of a successful or failed request -/
theorem HeapInv.alloc (h : HeapInv img s H) (n : Nat) {k' : Kheap}
    (hm : Models k' (H.kmalloc n).2) :
    HeapInv img ⟨k', addLive (H.kmalloc n).1 n s.live⟩ (H.kmalloc n).2 := by
  generalize hr : H.kmalloc n = r at *
  obtain ⟨p, H'⟩ := r
  simp only at hm ⊢
  unfold addLive
  by_cases hp : p = 0
  · subst hp
    have e1 := H.kmalloc_null hr
    subst e1
    rw [if_pos rfl]
    exact ⟨h.base, hm, h.owned, h.covered, h.distinct⟩
  · rw [if_neg hp]
    obtain ⟨c, hca, hcf, hsz, hfresh, hbase, hused⟩ := H.kmalloc_spec hr hp
    refine ⟨hbase.trans h.base, hm, ?_, ?_, ?_⟩
    · intro al hal
      rcases List.mem_cons.mp hal with rfl | hal'
      · exact ⟨c, (hused c).mpr (.inl rfl), hca, fun hreq => (le_alignUp_eight hreq).trans hsz⟩
      · obtain ⟨d, hd, e1, e2⟩ := h.owned al hal'
        exact ⟨d, (hused d).mpr (.inr hd), e1, e2⟩
    · intro q hq
      obtain ⟨d, hd, e1⟩ := H'.mem_ptrs.mp hq
      rcases (hused d).mp hd with rfl | hd'
      · exact ⟨_, List.mem_cons_self, hca.symm.trans e1⟩
      · obtain ⟨al, hal, e2⟩ := h.covered q (H.mem_ptrs.mpr ⟨d, hd', e1⟩)
        exact ⟨al, List.mem_cons_of_mem _ hal, e2⟩
    · refine List.nodup_cons.mpr ⟨fun hin => hfresh ?_, h.distinct⟩
      obtain ⟨al, hal, e1⟩ := List.mem_map.mp hin
      have e2 : al.ptr = p := e1
      rw [← e2]
      exact h.ptr_mem hal

/-- NULL is not a live pointer -/
theorem HeapInv.filter_null (h : HeapInv img s H) : (s.live.filter fun al => al.ptr ≠ 0) = s.live := by
  refine List.filter_eq_self.mpr fun al hal => ?_
  simpa using Heap.ptrs_pos (h.ptr_mem hal)

/-- bookkeeping of a free -/
theorem HeapInv.free (h : HeapInv img s H) {p : Nat} (hp : p ∈ H.ptrs) {k' : Kheap} {H' : Heap}
    (hf : H.kfree p = .ok H') (hm : Models k' H') :
    HeapInv img ⟨k', s.live.filter fun al => al.ptr ≠ p⟩ H' := by
  obtain ⟨c, _, _, e2, hused⟩ := H.kfree_spec hp
  rw [e2] at hf
  cases hf
  refine ⟨h.base, hm, ?_, ?_, ?_⟩
  · intro al hal
    obtain ⟨hal1, hal2⟩ := List.mem_filter.mp hal
    obtain ⟨d, hd, e1, e3⟩ := h.owned al hal1
    refine ⟨d, (hused d).mpr ⟨hd, ?_⟩, e1, e3⟩
    rw [e1]
    simpa using hal2
  · intro q hq
    obtain ⟨d, hd, e1⟩ := (Heap.mem_ptrs _).mp hq
    obtain ⟨hd1, hd2⟩ := (hused d).mp hd
    obtain ⟨al, hal, e3⟩ := h.covered q (H.mem_ptrs.mpr ⟨d, hd1, e1⟩)
    refine ⟨al, List.mem_filter.mpr ⟨hal, ?_⟩, e3⟩
    rw [e3, ← e1]
    simpa using hd2
  · exact h.distinct.sublist (List.Sublist.map _ List.filter_sublist)

end

/-! ## one step -/

/-- the requested bytes of the allocations that stay alive are the same -/
def KeepsLive (s t : HeapState) : Prop :=
  ∀ al ∈ s.live, al ∈ t.live → al.req ≤ maxAsk →
    ∀ x, al.ptr ≤ x → x < al.ptr + al.req → t.k.mem x = s.k.mem x

section
variable {img : Image} {s : HeapState} {H : Heap}

theorem heapInv_kmalloc (h : HeapInv img s H) (n : Nat) :
    ∃ k', kmalloc s.k n = .ok ((H.kmalloc n).1, k') ∧
      HeapInv img ⟨k', addLive (H.kmalloc n).1 n s.live⟩ (H.kmalloc n).2 ∧
      KeepsLive s ⟨k', addLive (H.kmalloc n).1 n s.live⟩ := by
  obtain ⟨k', h1, h2, h3⟩ := kmalloc_sim h.models n
  have h4 := h.alloc n h2
  exact ⟨k', h1, h4, fun al _ hal' hreq x hx1 hx2 => h3 x (h4.not_inHeaders hal' hreq hx1 hx2)⟩

theorem heapInv_kzalloc (h : HeapInv img s H) {n : Nat} (hn : n ≤ maxAsk) :
    ∃ k', kzalloc s.k n = .ok ((H.kmalloc n).1, k') ∧
      HeapInv img ⟨k', addLive (H.kmalloc n).1 n s.live⟩ (H.kmalloc n).2 ∧
      KeepsLive s ⟨k', addLive (H.kmalloc n).1 n s.live⟩ ∧
      ((H.kmalloc n).1 ≠ 0 → ∀ x, (H.kmalloc n).1 ≤ x → x < (H.kmalloc n).1 + n → k'.mem x = 0) := by
  obtain ⟨k1, h1, h2, h3⟩ := heapInv_kmalloc h n
  generalize hr : H.kmalloc n = r at *
  obtain ⟨p, H'⟩ := r
  simp only at h1 h2 h3 ⊢
  by_cases hp : p = 0
  · subst hp
    refine ⟨k1, ?_, h2, h3, fun h0 => absurd rfl h0⟩
    unfold kzalloc
    rw [h1]
    rfl
  · have hnew : (⟨p, n⟩ : Alloc) ∈ addLive p n s.live := by
      unfold addLive
      rw [if_neg hp]
      exact List.mem_cons_self
    obtain ⟨c, hc, e1, e2⟩ := h2.payload hnew hn
    simp only at e1 e2
    have hstop := (H'.tiles.bounds c hc).2
    have hfits := H'.base_fits
    have e3 : memset k1.mem p 0 n = fill k1.mem p 0 n := memset_eq_fill _ _ _ _ (by omega)
    refine ⟨{ k1 with mem := memset k1.mem p 0 n }, ?_, ⟨h2.base, ?_, h2.owned, h2.covered,
      h2.distinct⟩, ?_, ?_⟩
    · unfold kzalloc
      rw [h1]
      exact if_pos hp
    · refine h2.models.congr rfl rfl fun x hx => ?_
      show memset k1.mem p 0 n x = k1.mem x
      rw [e3]
      exact if_neg fun hb => not_inHeaders_of_payload H'.tiles hc (by omega) (by omega) hx
    · intro al hal hal' hreq x hx1 hx2
      show memset k1.mem p 0 n x = s.k.mem x
      have hne : al.ptr ≠ p := by
        intro e4
        obtain ⟨_, _, _, _, hfresh, _⟩ := H.kmalloc_spec hr hp
        exact hfresh (e4 ▸ h.ptr_mem hal)
      rw [e3, ← h3 al hal hal' hreq x hx1 hx2]
      have h5 := h2.apart hal' hnew hreq hn hne
      exact if_neg (by simp only at h5; omega)
    · intro _ x hx1 hx2
      show memset k1.mem p 0 n x = 0
      rw [e3]
      exact if_pos ⟨hx1, hx2⟩

theorem heapInv_kfree (h : HeapInv img s H) {p : Nat} (hp : p = 0 ∨ ∃ al ∈ s.live, al.ptr = p) :
    ∃ k' H', kfree s.k p = .ok k' ∧
      HeapInv img ⟨k', s.live.filter fun al => al.ptr ≠ p⟩ H' ∧
      (∀ d, d ∈ used H'.cells ↔ d ∈ used H.cells ∧ d.addr + sizeofBlock ≠ p) ∧
      KeepsLive s ⟨k', s.live.filter fun al => al.ptr ≠ p⟩ := by
  rcases hp with rfl | ⟨al, hal, rfl⟩
  · refine ⟨s.k, H, rfl, ?_, fun d => ⟨fun hd => ⟨hd, ?_⟩, fun hd => hd.1⟩, fun _ _ _ _ _ _ _ => rfl⟩
    · rw [h.filter_null]
      exact ⟨h.base, h.models, h.owned, h.covered, h.distinct⟩
    · unfold sizeofBlock
      omega
  · obtain ⟨k', H', h1, h2, h3, h4⟩ := kfree_sim h.models (h.ptr_mem hal)
    obtain ⟨c, _, _, e2, hused⟩ := H.kfree_spec (h.ptr_mem hal)
    refine ⟨k', H', h1, h.free (h.ptr_mem hal) h2 h3, ?_, fun al' hal' _ hreq x hx1 hx2 =>
      h4 x (h.not_inHeaders hal' hreq hx1 hx2)⟩
    rw [e2] at h2
    cases h2
    exact hused

theorem heapInv_write (h : HeapInv img s H) {a : Nat} (v : UInt8)
    (hw : ∃ al ∈ s.live, al.req ≤ maxAsk ∧ al.ptr ≤ a ∧ a < al.ptr + al.req) :
    HeapInv img { s with k := { s.k with mem := Function.update s.k.mem a v } } H := by
  obtain ⟨al, hal, hreq, h1, h2⟩ := hw
  refine ⟨h.base, h.models.congr rfl rfl fun x hx => ?_, h.owned, h.covered, h.distinct⟩
  refine Function.update_of_ne ?_ _ _
  rintro rfl
  exact h.not_inHeaders hal hreq h1 h2 hx

end

/-- every legal step of the heap succeeds and keeps the invariant -/
theorem heap_safe (img : Image) (maxReq : Nat) :
    (heapMachine maxReq).Safe fun s => ∃ H, HeapInv img s H := by
  rintro s op ⟨H, h⟩ hl
  cases op with
  | kmalloc n =>
    obtain ⟨k', h1, h2, _⟩ := heapInv_kmalloc h n
    exact ⟨_, heapStep_kmalloc_eq h1, _, h2⟩
  | kzalloc n =>
    obtain ⟨k', h1, h2, _⟩ := heapInv_kzalloc h hl.2
    exact ⟨_, heapStep_kzalloc_eq h1, _, h2⟩
  | kfree p =>
    obtain ⟨k', H', h1, h2, _⟩ := heapInv_kfree h hl
    exact ⟨_, heapStep_kfree_eq h1, _, h2⟩
  | write a v => exact ⟨_, rfl, H, heapInv_write h v hl⟩

/-- every run of the heap ends in a state that satisfies the invariant -/
theorem heapInv_of_run {img : Image} {maxReq : Nat} {m : Mem} {ops : List HeapOp} {s : HeapState}
    (r : (heapMachine maxReq).Run (heapBoot img m) ops s) : ∃ H, HeapInv img s H :=
  (heap_safe img maxReq).run_inv r ⟨_, heapInv_boot img m⟩

end Raptor
