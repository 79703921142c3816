import RaptorKernel.Mm.KheapClients

/-!
# kmalloc is a first fit

A request is rounded up to a multiple of 8 and served from the free block with the lowest address
that is large enough; `kheap_stats` tells whether there is one.

* `le_largestFree_iff`  what `kheap_stats` calls the largest free block;
* `FirstFit k n`        a request of `n` bytes, and what changes on the block list;
* `kmalloc_null_eq`     a request that fails leaves the memory as it is;
* `first_fit_iff`       the requests that are served so: those that the rounding does not wrap around.
-/

namespace Raptor
open Tiling

/-- `n` rounded up to a multiple of 8, without wrap-around -/
def roundUpEight (n : Nat) : Nat := (n + 7) / 8 * 8

theorem le_roundUpEight (n : Nat) : n ≤ roundUpEight n := by
  unfold roundUpEight
  omega

/-- a request that `ALIGN_UP` does not wrap around -/
theorem alignUp_eq_roundUpEight {n : Nat} (h : n ≤ 2^32 - 8) : alignUp n 8 = roundUpEight n := by
  rw [alignUp_eight, Nat.mod_eq_of_lt (by omega)]
  rfl

/-- the largest sizes become 0 -/
theorem alignUp_wraps {n : Nat} (h : 2^32 - 8 < n) (hn : n < 2^32) :
    alignUp n 8 = 0 ∧ roundUpEight n = 2^32 := by
  rw [alignUp_eight]
  unfold roundUpEight
  omega

/-! ## kheap_stats -/

theorem le_largestFree_foldl (m : Nat) (l : List Cell) (st : HeapStats) :
    m ≤ (l.foldl HeapStats.count st).largestFree ↔
      m ≤ st.largestFree ∨ ∃ c ∈ l, c.free = true ∧ m ≤ c.size := by
  induction l generalizing st with
  | nil => simp
  | cons c l ih =>
    have hcount : m ≤ (st.count c).largestFree ↔ m ≤ st.largestFree ∨ c.free = true ∧ m ≤ c.size := by
      show m ≤ (if c.free = true ∧ st.largestFree < c.size then c.size else st.largestFree) ↔ _
      cases c.free with
      | false => simp
      | true =>
        simp only [true_and]
        split <;> omega
    rw [List.foldl_cons, ih, hcount, or_assoc]
    simp only [List.mem_cons, exists_eq_or_imp]

/-- some free block has `m` bytes exactly if the largest one has -/
theorem le_largestFree_iff {m : Nat} (hm : 0 < m) (l : List Cell) :
    m ≤ (l.foldl HeapStats.count ⟨0, 0, 0⟩).largestFree ↔ ∃ c ∈ l, c.free = true ∧ m ≤ c.size := by
  rw [le_largestFree_foldl]
  refine or_iff_right ?_
  show ¬ m ≤ 0
  omega

/-! ## one request -/

/-- A request of `n` bytes is a first fit: it fails exactly if `kheap_stats` knows no block that is
large enough, and then nothing changes; otherwise the first such block is in use afterwards, with
room for `n` bytes, and the other blocks in use are what they were. -/
def FirstFit (k : Kheap) (n : Nat) : Prop :=
  ∃ p k' st l l', kmalloc k n = .ok (p, k') ∧ kheapStats k = .ok st ∧ blockList k = .ok l ∧
    blockList k' = .ok l' ∧
    (p ≠ 0 ↔ 0 < n ∧ roundUpEight n ≤ st.largestFree) ∧
    (p ≠ 0 → ∃ b ∈ l, p = b.addr + sizeofBlock ∧ b.free = true ∧ roundUpEight n ≤ b.size ∧
      (∀ d ∈ l, d.free = true → roundUpEight n ≤ d.size → b.addr ≤ d.addr) ∧
      ∃ z, n ≤ z ∧ ∀ x, x ∈ allocatedBlocks l' ↔ x = (b.addr, z) ∨ x ∈ allocatedBlocks l) ∧
    (p = 0 → k' = k)

/-- the block of a header -/
def BlockView.cell (b : BlockView) : Cell := ⟨b.addr, b.size, b.free⟩

theorem views_cells (E pv : Nat) (l : List Cell) : (views E pv l).map BlockView.cell = l := by
  induction l generalizing pv with
  | nil => rfl
  | cons c l ih =>
    rw [views, List.map_cons, ih]
    rfl

theorem cell_mem_of_views {E pv : Nat} {l : List Cell} {b : BlockView} (h : b ∈ views E pv l) :
    b.cell ∈ l := by
  rw [← views_cells E pv l]
  exact List.mem_map_of_mem h

theorem exists_view (E pv : Nat) {l : List Cell} {c : Cell} (h : c ∈ l) :
    ∃ b ∈ views E pv l, b.cell = c := by
  rw [← views_cells E pv l] at h
  exact List.mem_map.mp h

section
variable {k : Kheap} {H : Heap} (h : Models k H)
include h

/-- a failed request returns before it writes -/
theorem kmalloc_null_eq {n : Nat} (hn : n = 0 ∨ alloc sizeofBlock minSplit (alignUp n 8) H.cells = none) :
    kmalloc k n = .ok (0, k) := by
  unfold kmalloc
  by_cases h0 : n = 0
  · rw [if_pos h0]
  · have hloop := kmallocLoop_sim k (alignUp n 8) H.base_fits H.cells H.base 0 loopBound H.base_pos
      H.tiles h.rep H.size_add_lt H.length_lt
    rw [hn.resolve_left h0, H.headAddr_cells, ← h.head] at hloop
    rw [if_neg h0]
    exact hloop

/-- a request that is not wrapped around, or that finds no free block -/
theorem firstFit_of {n : Nat} (hn : n ≤ 2^32 - 8 ∨ ∀ c ∈ H.cells, c.free = false) : FirstFit k n := by
  have hst := kheapStats_sim h
  have hl := blockList_sim h
  rcases H.kmalloc_cases n with ⟨_, hnull⟩ | ⟨a, l', ha, h0, hres⟩
  · refine ⟨0, k, _, _, _, kmalloc_null_eq h hnull, hst, hl, hl, ?_, fun h => absurd rfl h, fun _ => rfl⟩
    refine ⟨fun h => absurd rfl h, fun ⟨hpos, hle⟩ => ?_⟩
    exfalso
    obtain ⟨c, hc, hcf, hcn⟩ := (le_largestFree_iff (lt_of_lt_of_le hpos (le_roundUpEight n)) _).mp hle
    rcases hn with hn | hn
    · have hnone := alloc_none.mp (hnull.resolve_left hpos.ne') c hc
      rw [alignUp_eq_roundUpEight hn] at hnone
      exact hnone ⟨hcf, hcn⟩
    · rw [hn c hc] at hcf
      cases hcf
  · obtain ⟨c, hc, hca, hcf, hcn, hlow⟩ := alloc_lowest H.tiles ha
    have hn' : n ≤ 2^32 - 8 := by
      refine hn.resolve_right fun hall => ?_
      rw [hall c hc] at hcf
      cases hcf
    obtain ⟨z, hz, _, hused⟩ := alloc_used (by unfold sizeofBlock; omega) H.tiles ha
    obtain ⟨k', hk', hm', _⟩ := kmalloc_sim h n
    rw [hres] at hk' hm'
    rw [alignUp_eq_roundUpEight hn'] at hcn hlow hz
    have hp : a + sizeofBlock ≠ 0 := by
      unfold sizeofBlock
      omega
    obtain ⟨b, hb, hbc⟩ := exists_view (H.base + heapSize) 0 hc
    subst hbc
    refine ⟨_, k', _, _, _, hk', hst, hl, blockList_sim hm', ?_, fun _ => ?_, fun e => absurd e hp⟩
    · refine ⟨fun _ => ⟨Nat.pos_of_ne_zero h0, ?_⟩, fun _ => hp⟩
      exact (le_largestFree_iff (lt_of_lt_of_le (Nat.pos_of_ne_zero h0) (le_roundUpEight n)) _).mpr
        ⟨_, hc, hcf, hcn⟩
    · refine ⟨b, hb, congrArg (· + sizeofBlock) hca.symm, hcf, hcn, ?_, z, (le_roundUpEight n).trans hz, ?_⟩
      · intro d hd hdf hdn
        rw [show b.addr = a from hca]
        exact hlow _ (cell_mem_of_views hd) hdf hdn
      · rintro ⟨x, y⟩
        rw [mem_allocatedBlocks, mem_allocatedBlocks, show b.addr = a from hca]
        have hx := hused ⟨x, y, false⟩
        simp only [Cell.mk.injEq, and_true] at hx
        rw [Prod.mk.injEq]
        exact hx

/-- a request that wraps around to 0 takes any free block -/
theorem kmalloc_wraps {n : Nat} (hn : n < 2^32) (hbig : 2^32 - 8 < n) {c : Cell} (hc : c ∈ H.cells)
    (hf : c.free = true) : ∃ p k' st, kmalloc k n = .ok (p, k') ∧ p ≠ 0 ∧ kheapStats k = .ok st ∧
      st.largestFree < roundUpEight n := by
  obtain ⟨h0, hround⟩ := alignUp_wraps hbig hn
  obtain ⟨k', hk', _⟩ := kmalloc_sim h n
  refine ⟨_, k', _, hk', ?_, kheapStats_sim h, ?_⟩
  · rcases H.kmalloc_cases n with ⟨_, hnull⟩ | ⟨a, l', ha, _, hres⟩
    · have hnone := alloc_none.mp (hnull.resolve_left (by omega)) c hc
      rw [h0] at hnone
      exact absurd ⟨hf, Nat.zero_le _⟩ hnone
    · rw [hres]
      exact Nat.succ_ne_zero _
  · rw [hround, ← not_le, le_largestFree_iff (by norm_num)]
    rintro ⟨d, hd, _, hsz⟩
    have := H.size_add_lt d hd
    omega

theorem not_firstFit {n : Nat} (hn : n < 2^32) (hbig : 2^32 - 8 < n) {c : Cell} (hc : c ∈ H.cells)
    (hf : c.free = true) : ¬ FirstFit k n := by
  rintro ⟨p, k', st, _, _, hk, hst, _, _, hiff, _⟩
  obtain ⟨p₁, k₁, st₁, hk₁, hp₁, hst₁, hlt⟩ := kmalloc_wraps h hn hbig hc hf
  rw [hk₁] at hk
  rw [hst₁] at hst
  cases hk
  cases hst
  have hle := (hiff.mp hp₁).2
  omega

end

/-- Every request is a first fit, except that one of more than `2^32 - 8` bytes is served by any free
block. -/
theorem first_fit_iff (img : Image) (m : Mem) (ops : List HeapOp) (s : HeapState)
    (r : (heapMachine (2^32 - 1)).Run (heapBoot img m) ops s) {n : Nat} (hn : n < 2^32) :
    FirstFit s.k n ↔
      n ≤ 2^32 - 8 ∨ ∃ l, blockList s.k = .ok l ∧ ∀ b ∈ l, b.free = false := by
  obtain ⟨H, h⟩ := heapInv_of_run r
  have hl := blockList_sim h.models
  constructor
  · intro hfit
    by_contra hcond
    rw [not_or] at hcond
    obtain ⟨hbig, hfree⟩ := hcond
    refine hfree ⟨_, hl, fun b hb => ?_⟩
    cases hf : b.free with
    | false => rfl
    | true => exact absurd hfit (not_firstFit h.models hn (by omega) (cell_mem_of_views hb) hf)
  · rintro (hle | ⟨l, hl', hall⟩)
    · exact firstFit_of h.models (.inl hle)
    · rw [hl] at hl'
      cases hl'
      refine firstFit_of h.models (.inr fun c hc => ?_)
      obtain ⟨b, hb, rfl⟩ := exists_view _ _ hc
      exact hall b hb

theorem first_fit_iff_one_request :
    ∃ s, (heapMachine (2^32 - 1)).Run (heapBoot sampleImage fun _ => 0) [.kmalloc 100] s ∧
      FirstFit s.k 60 := by
  obtain ⟨s, r⟩ := (heap_safe sampleImage (2^32 - 1)).extend .nil ⟨_, heapInv_boot _ _⟩
    (i := .kmalloc 100) (by show 100 ≤ 2^32 - 1; norm_num)
  exact ⟨s, r, (first_fit_iff sampleImage _ _ s r (n := 60) (by norm_num)).mpr (.inl (by norm_num))⟩

/-- Right after boot a request of `2^32 - 1` bytes is served, although no block is that large. -/
theorem first_fit_wraps :
    (∃ p k' st, kmalloc (kheapInit sampleImage.kernelEnd fun _ => 0) (2^32 - 1) = .ok (p, k') ∧ p ≠ 0 ∧
      kheapStats (kheapInit sampleImage.kernelEnd fun _ => 0) = .ok st ∧
      st.largestFree < roundUpEight (2^32 - 1)) ∧
    ¬ FirstFit (kheapInit sampleImage.kernelEnd fun _ => 0) (2^32 - 1) := by
  have h := kheapInit_models sampleImage fun _ => 0
  have hn : 2^32 - 1 < 2^32 := by norm_num
  have hbig : 2^32 - 8 < 2^32 - 1 := by norm_num
  exact ⟨kmalloc_wraps h hn hbig List.mem_cons_self rfl,
    not_firstFit h hn hbig List.mem_cons_self rfl⟩

end Raptor
