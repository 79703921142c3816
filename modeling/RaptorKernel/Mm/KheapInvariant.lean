import RaptorKernel.Mm.KheapRuns

/-!
# The representation invariant of the heap

`ListInv k hs`: the list that starts at `heap_head` consists of the headers `hs`, all with the right
magic and alignment, tiling the heap, doubly linked, no two neighbours both free.

* `listInv_of_models`    a memory that represents a list of blocks satisfies it;
* `kheapStats_sim`       `kheap_stats` adds up the sizes of the blocks;
* `heap_invariant`       the invariant, the totals and the absence of panics along every run.
-/

namespace Raptor
open Mem Tiling

structure ListInv (k : Kheap) (hs : List Nat) : Prop where
  linked : Chain (nextOf k.mem) 0 k.heapHead hs
  first : hs.head? = some k.heapStart
  magic : ∀ b ∈ hs, magicOf k.mem b = blockMagic
  aligned : ∀ b ∈ hs, 4 ∣ b
  adjacent : ∀ b ∈ hs, nextOf k.mem b = 0 ∨ nextOf k.mem b = b + sizeofBlock + sizeOf k.mem b
  last : ∀ b ∈ hs, nextOf k.mem b = 0 → b + sizeofBlock + sizeOf k.mem b = k.heapStart + heapSize
  prevFirst : prevOf k.mem k.heapHead = 0
  prevNext : ∀ b ∈ hs, ∀ c ∈ hs, nextOf k.mem b = c ↔ prevOf k.mem c = b
  coalesced : ∀ b ∈ hs, ∀ c ∈ hs, nextOf k.mem b = c →
    ¬ (freeOf k.mem b = true ∧ freeOf k.mem c = true)

/-! ## the links of a represented list -/

section
variable {m : Mem} {E : Nat}

theorem rep_chain {s pv : Nat} {l : List Cell} (hs : 0 < s) (ht : Tiles sizeofBlock s E l)
    (h : Rep m E pv l) : Chain (nextOf m) 0 (headAddr l) (l.map Cell.addr) := by
  induction l generalizing s pv with
  | nil => rfl
  | cons c l ih =>
    have hc : c.addr = s := ht.1
    refine ⟨rfl, by omega, ?_⟩
    have ht' : Tiles sizeofBlock c.addr E (c :: l) := by rw [hc]; exact ht
    rw [h.1.next, nextAddr_eq_headAddr ht']
    exact ih (by omega) ht.2 h.2

/-- the `prev` link of a block is the block in front of it -/
theorem rep_prev {pv : Nat} {l : List Cell} (h : Rep m E pv l) {y : Cell} (hy : y ∈ l) :
    (l.head? = some y ∧ prevOf m y.addr = pv) ∨ ∃ x ∈ l, prevOf m y.addr = x.addr := by
  induction l generalizing pv with
  | nil => exact absurd hy (by simp)
  | cons c l ih =>
    rcases List.mem_cons.mp hy with rfl | hy'
    · exact .inl ⟨rfl, h.1.prev⟩
    · rcases ih h.2 hy' with ⟨_, h1⟩ | ⟨x, hx, h1⟩
      · exact .inr ⟨c, List.mem_cons_self, h1⟩
      · exact .inr ⟨x, List.mem_cons_of_mem _ hx, h1⟩

theorem nextAddr_lt {c : Cell} {x : Nat} (h : nextAddr E c = x) (hx : x ≠ 0) : c.addr < x := by
  unfold nextAddr at h
  split at h
  · exact absurd h.symm hx
  · unfold Cell.stop sizeofBlock at h
    omega

/-- inside a represented list `prev` is the inverse of `next` -/
theorem rep_prevNext {s pv : Nat} {l : List Cell} (hs : 0 < s) (ht : Tiles sizeofBlock s E l)
    (h : Rep m E pv l) (hpv : pv < s) {x y : Cell} (hx : x ∈ l) (hy : y ∈ l) :
    nextOf m x.addr = y.addr ↔ prevOf m y.addr = x.addr := by
  induction l generalizing s pv with
  | nil => exact absurd hx (by simp)
  | cons c l ih =>
    have hc : c.addr = s := ht.1
    have ht' : Tiles sizeofBlock c.addr E (c :: l) := by rw [hc]; exact ht
    have hlow : ∀ z ∈ l, c.addr < z.addr := by
      intro z hz
      have := (ht.2.bounds z hz).1
      unfold sizeofBlock at this
      omega
    have hnext := h.1.next.trans (nextAddr_eq_headAddr ht')
    rcases List.mem_cons.mp hx with rfl | hx' <;> rcases List.mem_cons.mp hy with rfl | hy'
    · constructor
      · intro e1
        have := nextAddr_lt (h.1.next.symm.trans e1) (by omega)
        omega
      · intro e1
        rw [h.1.prev] at e1
        omega
    · -- `x` is the first block: its successor is the first block of the rest
      rw [hnext]
      rcases rep_prev h.2 hy' with ⟨h1, h2⟩ | ⟨z, hz, h2⟩
      · cases l with
        | nil => cases h1
        | cons d l =>
          cases h1
          exact ⟨fun _ => h2, fun _ => rfl⟩
      · have hz' := hlow z hz
        constructor
        · intro e1
          cases l with
          | nil => exact absurd hy' (by simp)
          | cons d l =>
            have e2 : d = y := ht.2.addr_inj (by unfold sizeofBlock; omega) List.mem_cons_self hy' e1
            rw [← e2]
            exact h.2.1.prev
        · intro e1
          omega
    · have hx1 := hlow x hx'
      obtain ⟨_, hhdr⟩ := rep_mem h.2 hx'
      constructor
      · intro e1
        have := nextAddr_lt (hhdr.next.symm.trans e1) (by omega)
        omega
      · intro e1
        rw [h.1.prev] at e1
        omega
    · exact ih (s := s + sizeofBlock + c.size) (by omega) ht.2 h.2
        (by unfold sizeofBlock; omega) hx' hy'

/-- neighbours on a represented, coalesced list are not both free -/
theorem rep_coalesced {s pv : Nat} {l : List Cell} (hs : 0 < s) (ht : Tiles sizeofBlock s E l)
    (h : Rep m E pv l) (hl : Coalesced l) {x y : Cell} (hx : x ∈ l) (hy : y ∈ l)
    (hn : nextOf m x.addr = y.addr) : ¬ (x.free = true ∧ y.free = true) := by
  induction l generalizing s pv with
  | nil => exact absurd hx (by simp)
  | cons c l ih =>
    have hc : c.addr = s := ht.1
    have ht' : Tiles sizeofBlock c.addr E (c :: l) := by rw [hc]; exact ht
    have hne : y.addr ≠ 0 := by
      have := (ht.bounds y hy).1
      omega
    obtain ⟨_, hhdr⟩ := rep_mem h hx
    have hlt : x.addr < y.addr := nextAddr_lt (hhdr.next.symm.trans hn) hne
    have hyl : y ∈ l := by
      rcases List.mem_cons.mp hy with rfl | hy'
      · have := (ht'.bounds x hx).1
        omega
      · exact hy'
    obtain ⟨h1, h2⟩ := coalesced_cons.mp hl
    rcases List.mem_cons.mp hx with rfl | hx'
    · rw [h.1.next, nextAddr_eq_headAddr ht'] at hn
      cases l with
      | nil => exact absurd hyl (by simp)
      | cons d l =>
        have e2 : d = y := ht.2.addr_inj (by unfold sizeofBlock; omega) List.mem_cons_self hyl hn
        exact h1 y (by rw [e2]; rfl)
    · exact ih (s := s + sizeofBlock + c.size) (by omega) ht.2 h.2 h2 hx' hyl

end

theorem listInv_of_models {k : Kheap} {H : Heap} (h : Models k H) :
    ListInv k (H.cells.map Cell.addr) := by
  have hb := H.base_pos
  have hmem : ∀ b ∈ H.cells.map Cell.addr, ∃ c ∈ H.cells, c.addr = b ∧
      ∃ pv, HeaderAt k.mem (H.base + heapSize) pv c := by
    intro b hbm
    obtain ⟨c, hc, e1⟩ := List.mem_map.mp hbm
    exact ⟨c, hc, e1, rep_mem h.rep hc⟩
  have hhead := H.headAddr_cells
  refine ⟨?_, ?_, ?_, ?_, ?_, ?_, ?_, ?_, ?_⟩
  · rw [h.head, ← hhead]
    exact rep_chain hb H.tiles h.rep
  · rw [h.start, ← hhead]
    cases hc : H.cells with
    | nil =>
      rw [hc] at hhead
      exact absurd hhead.symm hb.ne'
    | cons c l => rfl
  · intro b hbm
    obtain ⟨c, hc, rfl, pv, hhdr⟩ := hmem b hbm
    exact hhdr.magic
  · intro b hbm
    obtain ⟨c, hc, rfl, _⟩ := hmem b hbm
    exact H.addr_dvd hc
  · intro b hbm
    obtain ⟨c, hc, rfl, pv, hhdr⟩ := hmem b hbm
    rw [hhdr.next, hhdr.size]
    unfold nextAddr
    split
    · exact .inl rfl
    · exact .inr rfl
  · intro b hbm
    obtain ⟨c, hc, rfl, pv, hhdr⟩ := hmem b hbm
    rw [hhdr.next, hhdr.size, h.start]
    intro h0
    have hpos := H.addr_pos hc
    unfold nextAddr at h0
    split at h0
    · assumption
    · unfold Cell.stop at h0
      omega
  · rw [h.head, ← hhead]
    have hrep := h.rep
    cases hc : H.cells with
    | nil =>
      rw [hc] at hhead
      exact absurd hhead.symm hb.ne'
    | cons c l =>
      rw [hc] at hrep
      exact hrep.1.prev
  · intro b hbm c hcm
    obtain ⟨x, hx, rfl, _⟩ := hmem b hbm
    obtain ⟨y, hy, rfl, _⟩ := hmem c hcm
    exact rep_prevNext hb H.tiles h.rep hb hx hy
  · intro b hbm c hcm hn
    obtain ⟨x, hx, rfl, _, hhx⟩ := hmem b hbm
    obtain ⟨y, hy, rfl, _, hhy⟩ := hmem c hcm
    rw [hhx.free, hhy.free]
    exact rep_coalesced hb H.tiles h.rep H.coalesced hx hy hn

/-! ## kheap_stats -/

/-- one block counted, without wrap-around -/
def HeapStats.count (st : HeapStats) (c : Cell) : HeapStats where
  total := st.total + c.size
  used := if c.free = true then st.used else st.used + c.size
  largestFree := if c.free = true ∧ st.largestFree < c.size then c.size else st.largestFree

theorem kheapStatsLoop_sim {m : Mem} {E : Nat} (l : List Cell) :
    ∀ (s pv fuel : Nat) (st : HeapStats), 0 < s → Tiles sizeofBlock s E l → Rep m E pv l →
      l.length < fuel → st.used ≤ st.total → st.total + (l.map Cell.size).sum < 2^32 →
      kheapStatsLoop m fuel (headAddr l) st = .ok (l.foldl HeapStats.count st) := by
  induction l with
  | nil =>
    intro s pv fuel st _ _ _ hf _ _
    obtain ⟨fuel, rfl⟩ := Nat.exists_eq_succ_of_ne_zero (Nat.pos_iff_ne_zero.mp hf)
    rfl
  | cons c l ih =>
    intro s pv fuel st hs ht h hf hu hsum
    obtain ⟨fuel, rfl⟩ : ∃ f, fuel = f + 1 := ⟨fuel - 1, by simp at hf; omega⟩
    have hc : c.addr = s := ht.1
    have hc0 : c.addr ≠ 0 := by omega
    have ht' : Tiles sizeofBlock c.addr E (c :: l) := by rw [hc]; exact ht
    rw [List.map_cons, List.sum_cons] at hsum
    have hcount : (if c.free = false then
          { total := add32 st.total c.size, used := add32 st.used c.size,
            largestFree := st.largestFree : HeapStats }
        else if st.largestFree < c.size then
          { total := add32 st.total c.size, used := st.used, largestFree := c.size }
        else { total := add32 st.total c.size, used := st.used, largestFree := st.largestFree })
        = st.count c := by
      rw [add32_eq (by omega), add32_eq (by omega)]
      unfold HeapStats.count
      cases hcf : c.free with
      | false => simp
      | true =>
        by_cases hlt : st.largestFree < c.size
        · simp [hlt]
        · simp [hlt]
    have hstep : kheapStatsLoop m (fuel + 1) (headAddr (c :: l)) st
        = kheapStatsLoop m fuel (headAddr l) (st.count c) := by
      show kheapStatsLoop m (fuel + 1) c.addr st = _
      rw [kheapStatsLoop, if_neg hc0]
      simp only [h.1.free, h.1.size, h.1.next, nextAddr_eq_headAddr ht', hcount]
    rw [hstep, List.foldl_cons]
    refine ih _ c.addr fuel _ (by omega) ht.2 h.2 (by simpa using hf) ?_ ?_
    · show (if c.free = true then st.used else st.used + c.size) ≤ st.total + c.size
      split <;> omega
    · show st.total + c.size + _ < _
      omega

theorem foldl_count_total (l : List Cell) (st : HeapStats) :
    (l.foldl HeapStats.count st).total = st.total + (l.map Cell.size).sum := by
  induction l generalizing st with
  | nil => rfl
  | cons c l ih =>
    rw [List.foldl_cons, ih, List.map_cons, List.sum_cons]
    show st.total + c.size + _ = _
    omega

theorem foldl_count_used_le (l : List Cell) (st : HeapStats) (h : st.used ≤ st.total) :
    (l.foldl HeapStats.count st).used ≤ (l.foldl HeapStats.count st).total := by
  induction l generalizing st with
  | nil => exact h
  | cons c l ih =>
    refine ih _ ?_
    show (if c.free = true then st.used else st.used + c.size) ≤ st.total + c.size
    split <;> omega

/-- `kheap_stats` counts the blocks of the list -/
theorem kheapStats_sim {k : Kheap} {H : Heap} (h : Models k H) :
    kheapStats k = .ok (H.cells.foldl HeapStats.count ⟨0, 0, 0⟩) := by
  have htot := H.tiles.total
  have hfits := H.base_fits
  unfold kheapStats
  rw [h.head, ← H.headAddr_cells]
  refine kheapStatsLoop_sim H.cells H.base 0 loopBound _ H.base_pos H.tiles h.rep H.length_lt
    (Nat.le_refl _) ?_
  show 0 + _ < _
  omega

/-! ## every run -/

/-- **Heap representation invariant.**  After every run of the heap the list from `heap_head` is
well formed, `kheap_stats` accounts for the whole region, no request panics, and every further
legal call succeeds. -/
theorem heap_invariant (img : Image) (m : Mem) (ops : List HeapOp) (s : HeapState)
    (r : (heapMachine (2^32 - 1)).Run (heapBoot img m) ops s) :
    s.k.heapStart = img.base ∧
    (∃ hs, ListInv s.k hs ∧ ∃ st, kheapStats s.k = .ok st ∧
      st.total + sizeofBlock * hs.length = heapSize ∧ st.used ≤ st.total) ∧
    (∀ n < 2^32, ∃ res, kmalloc s.k n = .ok res) ∧
    (∀ op, heapLegal (2^32 - 1) s op → ∃ t, heapStep s op = .ok t) := by
  obtain ⟨H, h⟩ := heapInv_of_run r
  refine ⟨h.models.start.trans h.base, ⟨_, listInv_of_models h.models, _, kheapStats_sim h.models,
    ?_, foldl_count_used_le _ _ (Nat.le_refl _)⟩, fun n _ => ?_, fun op hl => ?_⟩
  · rw [foldl_count_total, List.length_map]
    have htot := H.tiles.total
    show 0 + _ + _ = _
    omega
  · obtain ⟨k', h1, _⟩ := heapInv_kmalloc h n
    exact ⟨_, h1⟩
  · obtain ⟨t, h1, _⟩ := heap_safe img (2^32 - 1) s op ⟨H, h⟩ hl
    exact ⟨t, h1⟩

theorem heap_invariant_two_requests :
    ∃ s, (heapMachine (2^32 - 1)).Run (heapBoot sampleImage fun _ => 0)
        [.kmalloc 100, .kzalloc 60] s ∧
      (∃ hs, ListInv s.k hs) ∧ ∀ n < 2^32, ∃ res, kmalloc s.k n = .ok res := by
  have hsafe := heap_safe sampleImage (2^32 - 1)
  have h0 : ∃ H, HeapInv sampleImage (heapBoot sampleImage fun _ => 0) H := ⟨_, heapInv_boot _ _⟩
  obtain ⟨s1, r1⟩ := hsafe.extend .nil h0 (i := .kmalloc 100)
    (by show 100 ≤ 2^32 - 1; norm_num)
  obtain ⟨s2, r2⟩ := hsafe.extend r1 h0 (i := .kzalloc 60)
    ⟨by norm_num, by unfold maxAsk; norm_num⟩
  obtain ⟨_, ⟨hs, h1, _⟩, h2, _⟩ := heap_invariant sampleImage _ _ s2 r2
  exact ⟨s2, r2, ⟨hs, h1⟩, h2⟩

end Raptor
