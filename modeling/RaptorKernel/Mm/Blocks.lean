import RaptorKernel.Theory.Tiling
import RaptorKernel.Mm.Kheap

/-!
# The heap as a list of blocks

What `mm/kheap.c` is for, without its links: the region `[base, base + HEAP_SIZE)` is tiled by
blocks, no two neighbours are both free, requests are served first fit.  The invariant is part of
the type `Heap`, so every operation carries the proof that it keeps it.

* `Image`             where the linker put the end of the kernel image;
* `Heap.init`         the heap of `kheap_init`: one free block;
* `Heap.kmalloc`, `Heap.kfree`  the operations on blocks;
* `Heap.ptrs`         the pointers handed out and not freed.
-/

namespace Raptor
open Tiling

/-- The linker's `kernel_end`: linker.ld places the image from `KERNEL_VBASE` + 1 MiB upward, and
image and heap end below the top of the 32-bit address space. -/
structure Image where
  kernelEnd : Nat
  higherHalf : 0xC0100000 ≤ kernelEnd
  fits : (kernelEnd + 4095) / 4096 * 4096 + heapSize < 2^32

/-- an image that ends at 3 GiB + 1.125 MiB -/
def sampleImage : Image := ⟨0xC0120000, by norm_num, by unfold heapSize; norm_num⟩

namespace Image
variable (img : Image)

/-- the page-aligned start of the heap -/
def base : Nat := alignUp img.kernelEnd pageSize

theorem base_eq : img.base = (img.kernelEnd + 4095) / 4096 * 4096 := by
  have h := img.fits
  unfold heapSize at h
  show alignUp img.kernelEnd 4096 = _
  rw [alignUp_page, Nat.mod_eq_of_lt (by omega)]

theorem base_fits : img.base + heapSize < 2^32 := by rw [base_eq]; exact img.fits

theorem base_pos : 0 < img.base := by
  have h := img.higherHalf
  rw [base_eq]
  omega

theorem base_dvd : 4 ∣ img.base := by
  rw [base_eq]
  exact Dvd.dvd.mul_left (by norm_num) _

end Image

structure Heap where
  base : Nat
  cells : List Cell
  base_pos : 0 < base
  base_dvd : 4 ∣ base
  base_fits : base + heapSize < 2^32
  tiles : Tiles sizeofBlock base (base + heapSize) cells
  coalesced : Coalesced cells
  size_dvd : ∀ c ∈ cells, 4 ∣ c.size

namespace Heap

def init (img : Image) : Heap where
  base := img.base
  cells := [⟨img.base, heapSize - sizeofBlock, true⟩]
  base_pos := img.base_pos
  base_dvd := img.base_dvd
  base_fits := img.base_fits
  tiles := by
    refine ⟨rfl, ?_⟩
    show img.base + 20 + (4 * 1024 * 1024 - 20) = img.base + 4 * 1024 * 1024
    omega
  coalesced := List.isChain_singleton _
  size_dvd := by
    intro c hc
    rw [List.mem_singleton.mp hc]
    exact ⟨1048571, rfl⟩

section
variable (H : Heap)

theorem four_dvd_alignUp (n : Nat) : 4 ∣ alignUp n 8 := by
  rw [alignUp_eight]
  exact Dvd.dvd.mul_left (by norm_num) _

theorem alloc_size_dvd {n a : Nat} {l' : List Cell} (hn : 4 ∣ n)
    (ha : alloc sizeofBlock minSplit n H.cells = some (a, l')) : ∀ c ∈ l', 4 ∣ c.size := by
  obtain ⟨pre, c, post, e1, _, _, hc, _, rfl⟩ := alloc_some ha
  have hd : ∀ d ∈ pre ++ c :: post, 4 ∣ d.size := fun d hd => H.size_dvd d (by rw [e1]; exact hd)
  have hcd : 4 ∣ c.size := hd c (by simp)
  intro d hdm
  rcases List.mem_append.mp hdm with h1 | h1
  · exact hd d (by simp [h1])
  rcases List.mem_append.mp h1 with h2 | h2
  · unfold carve at h2
    split at h2
    · rw [List.mem_singleton.mp h2]
      exact hcd
    · simp only [List.mem_cons, List.not_mem_nil, or_false] at h2
      rcases h2 with rfl | rfl
      · exact hn
      · show 4 ∣ c.size - n - sizeofBlock
        exact Nat.dvd_sub (Nat.dvd_sub hcd hn) ⟨5, rfl⟩
  · exact hd d (by simp [h2])

theorem release_size_dvd (a : Nat) {l : List Cell} (hl : ∀ c ∈ l, 4 ∣ c.size) :
    ∀ c ∈ release sizeofBlock a l, 4 ∣ c.size := by
  have hjoin : ∀ l' : List Cell, (∀ c ∈ l', 4 ∣ c.size) → ∀ c ∈ joinHead sizeofBlock l', 4 ∣ c.size := by
    intro l' h c hc
    rcases l' with _ | ⟨x, _ | ⟨y, l'⟩⟩
    · exact h c hc
    · exact h c hc
    · by_cases hb : x.free = true ∧ y.free = true
      · rw [joinHead_of_free hb] at hc
        rcases List.mem_cons.mp hc with rfl | hc'
        · exact Nat.dvd_add (Nat.dvd_add (h x (by simp)) ⟨5, rfl⟩) (h y (by simp))
        · exact h c (by simp [hc'])
      · rw [joinHead_of_not hb] at hc
        exact h c hc
  induction l with
  | nil => exact hl
  | cons x l ih =>
    have hx := hl x List.mem_cons_self
    have ih' := ih fun c hc => hl c (List.mem_cons_of_mem _ hc)
    unfold release
    split
    · exact hjoin _ (List.forall_mem_cons.mpr ⟨hx, fun c hc => hl c (List.mem_cons_of_mem _ hc)⟩)
    · exact hjoin _ (List.forall_mem_cons.mpr ⟨hx, ih'⟩)

/-- the blocks after `kmalloc`, with the invariant -/
def allocated {n a : Nat} {l' : List Cell}
    (ha : alloc sizeofBlock minSplit (alignUp n 8) H.cells = some (a, l')) : Heap :=
  { H with
    cells := l'
    tiles := alloc_tiles H.tiles ha
    coalesced := alloc_coalesced H.coalesced ha
    size_dvd := H.alloc_size_dvd (four_dvd_alignUp n) ha }

/-- the blocks after `kfree`, with the invariant -/
def released (a : Nat) : Heap :=
  { H with
    cells := release sizeofBlock a H.cells
    tiles := release_tiles a H.tiles
    coalesced := release_coalesced a H.coalesced
    size_dvd := release_size_dvd a H.size_dvd }

def kmalloc (n : Nat) : Nat × Heap :=
  if n = 0 then (0, H)
  else
    match ha : alloc sizeofBlock minSplit (alignUp n 8) H.cells with
    | none => (0, H)
    | some (a, _) => (a + sizeofBlock, H.allocated ha)

def kfree (p : Nat) : Except Fault Heap :=
  if p = 0 then .ok H
  else
    match H.cells.find? fun c => c.addr + sizeofBlock = p with
    | none => .error (.panic "kfree: bad pointer %p" p)
    | some c =>
      if c.free = true then .error (.panic "kfree: double free of %p" p)
      else .ok (H.released c.addr)

/-- the payload pointers in use -/
def ptrs : List Nat := (used H.cells).map fun c => c.addr + sizeofBlock

theorem mem_ptrs {p : Nat} : p ∈ H.ptrs ↔ ∃ c ∈ used H.cells, c.addr + sizeofBlock = p := by
  simp [ptrs]

theorem size_lt {c : Cell} (hc : c ∈ H.cells) : c.size + sizeofBlock ≤ heapSize := by
  obtain ⟨h1, h2⟩ := H.tiles.bounds c hc
  unfold Cell.stop at h2
  omega

theorem length_lt : H.cells.length < loopBound := by
  have h := H.tiles.total
  unfold sizeofBlock heapSize at h
  unfold loopBound heapSize
  omega

theorem addr_pos {c : Cell} (hc : c ∈ H.cells) : 0 < c.addr :=
  lt_of_lt_of_le H.base_pos (H.tiles.bounds c hc).1

theorem addr_dvd {c : Cell} (hc : c ∈ H.cells) : 4 ∣ c.addr :=
  H.tiles.aligned H.base_dvd ⟨5, rfl⟩ H.size_dvd c hc

theorem addr_inj {c d : Cell} (hc : c ∈ H.cells) (hd : d ∈ H.cells) (h : c.addr = d.addr) : c = d :=
  H.tiles.addr_inj (by unfold sizeofBlock; omega) hc hd h

/-! ## what the operations do to the pointers -/

theorem kmalloc_cases (n : Nat) :
    (H.kmalloc n = (0, H) ∧
      (n = 0 ∨ alloc sizeofBlock minSplit (alignUp n 8) H.cells = none)) ∨
    ∃ a l', ∃ ha : alloc sizeofBlock minSplit (alignUp n 8) H.cells = some (a, l'),
      n ≠ 0 ∧ H.kmalloc n = (a + sizeofBlock, H.allocated ha) := by
  unfold kmalloc
  by_cases hn : n = 0
  · rw [if_pos hn]
    exact .inl ⟨rfl, .inl hn⟩
  · rw [if_neg hn]
    split
    · exact .inl ⟨rfl, .inr (by assumption)⟩
    · exact .inr ⟨_, _, by assumption, hn, rfl⟩

/-- a successful request takes one block that was not in use, large enough, and leaves the blocks
in use alone -/
theorem kmalloc_spec {n p : Nat} {H' : Heap} (h : H.kmalloc n = (p, H')) (hp : p ≠ 0) :
    ∃ c, c.addr + sizeofBlock = p ∧ c.free = false ∧ alignUp n 8 ≤ c.size ∧ p ∉ H.ptrs ∧
      H'.base = H.base ∧ ∀ d, d ∈ used H'.cells ↔ d = c ∨ d ∈ used H.cells := by
  rcases H.kmalloc_cases n with ⟨h1, _⟩ | ⟨a, l', ha, _, h1⟩
  · rw [h1] at h
    cases h
    exact absurd rfl hp
  · rw [h1] at h
    cases h
    obtain ⟨sz, hsz, hfresh, hused⟩ := alloc_used (by unfold sizeofBlock; omega) H.tiles ha
    refine ⟨⟨a, sz, false⟩, rfl, rfl, hsz, fun hin => ?_, rfl, hused⟩
    obtain ⟨c, hc, e1⟩ := H.mem_ptrs.mp hin
    exact hfresh c hc (by omega)

theorem kmalloc_null {n : Nat} {H' : Heap} (h : H.kmalloc n = (0, H')) : H' = H := by
  rcases H.kmalloc_cases n with ⟨h1, _⟩ | ⟨a, l', ha, _, h1⟩
  · rw [h1] at h
    cases h
    rfl
  · rw [h1] at h
    have : a + sizeofBlock = 0 := congrArg Prod.fst h
    unfold sizeofBlock at this
    omega

/-- a pointer in use can be freed; exactly its block leaves the blocks in use -/
theorem kfree_spec {p : Nat} (hp : p ∈ H.ptrs) :
    ∃ c ∈ used H.cells, c.addr + sizeofBlock = p ∧ H.kfree p = .ok (H.released c.addr) ∧
      ∀ d, d ∈ used (H.released c.addr).cells ↔ d ∈ used H.cells ∧ d.addr + sizeofBlock ≠ p := by
  obtain ⟨c, hc, e1⟩ := H.mem_ptrs.mp hp
  obtain ⟨hc1, hc2⟩ := mem_used.mp hc
  have hp0 : p ≠ 0 := by
    have := H.addr_pos hc1
    omega
  have hfind : H.cells.find? (fun c => c.addr + sizeofBlock = p) = some c := by
    cases hf : H.cells.find? (fun c => c.addr + sizeofBlock = p) with
    | none =>
      have := List.find?_eq_none.mp hf c hc1
      simp [e1] at this
    | some d =>
      have h1 := List.find?_some hf
      have h2 := List.mem_of_find?_eq_some hf
      have h3 : d.addr + sizeofBlock = p := by simpa using h1
      rw [H.addr_inj h2 hc1 (by omega)]
  refine ⟨c, hc, e1, ?_, fun d => ?_⟩
  · unfold kfree
    rw [if_neg hp0, hfind]
    simp [hc2]
  · have h1 := mem_used_release (a := c.addr) (by unfold sizeofBlock; omega) H.tiles d
    rw [← e1]
    show d ∈ used (release sizeofBlock c.addr H.cells) ↔ _
    rw [h1, ne_eq, ne_eq, Nat.add_right_cancel_iff]

/-! ## blocks as things owned -/

/-- `p` is in use and has room for `n` bytes -/
def Room (p n : Nat) : Prop := ∃ c ∈ used H.cells, c.addr + sizeofBlock = p ∧ n ≤ c.size

variable {H}

theorem Room.mem {p n : Nat} (h : H.Room p n) : p ∈ H.ptrs := by
  obtain ⟨c, hc, e, _⟩ := h
  exact H.mem_ptrs.mpr ⟨c, hc, e⟩

theorem Room.le {p n : Nat} (h : H.Room p n) : n ≤ heapSize := by
  obtain ⟨c, hc, _, hn⟩ := h
  have := H.size_lt (mem_used.mp hc).1
  omega

theorem Room.mono {p n n' : Nat} (h : H.Room p n) (hn : n' ≤ n) : H.Room p n' := by
  obtain ⟨c, hc, e, h1⟩ := h
  exact ⟨c, hc, e, hn.trans h1⟩

/-- different blocks in use do not overlap -/
theorem Room.apart {p q n m : Nat} (h : H.Room p n) (h' : H.Room q m) (hne : p ≠ q) :
    p + n ≤ q ∨ q + m ≤ p := by
  obtain ⟨c, hc, e, hn⟩ := h
  obtain ⟨d, hd, e', hm⟩ := h'
  rcases H.tiles.eq_or_apart (mem_used.mp hc).1 (mem_used.mp hd).1 with rfl | h1 | h1
  · exact absurd (e.symm.trans e') hne
  · unfold Cell.stop at h1
    exact .inl (by omega)
  · unfold Cell.stop at h1
    exact .inr (by omega)

theorem ptrs_nodup : H.ptrs.Nodup := by
  have h0 : H.cells.Nodup := (H.tiles.addr_nodup (by unfold sizeofBlock; omega)).of_map _
  have h1 : (used H.cells).Nodup := h0.sublist List.filter_sublist
  refine h1.map_on fun c hc d hd e => ?_
  exact H.addr_inj (mem_used.mp hc).1 (mem_used.mp hd).1 (by omega)

theorem ptrs_pos {p : Nat} (h : p ∈ H.ptrs) : p ≠ 0 := by
  obtain ⟨c, _, e⟩ := H.mem_ptrs.mp h
  unfold sizeofBlock at e
  omega

/-- `kfree` returns exactly for NULL and for blocks in use -/
theorem kfree_ok_iff (p : Nat) : (∃ H', H.kfree p = .ok H') ↔ p = 0 ∨ p ∈ H.ptrs := by
  constructor
  · rintro ⟨H', h⟩
    unfold kfree at h
    split at h
    · exact .inl (by assumption)
    split at h
    · cases h
    · rename_i c hfind
      split at h
      · cases h
      · rename_i hfree
        have h1 : c.addr + sizeofBlock = p := by simpa using List.find?_some hfind
        have h2 := List.mem_of_find?_eq_some hfind
        exact .inr (H.mem_ptrs.mpr ⟨c, mem_used.mpr ⟨h2, by simpa using hfree⟩, h1⟩)
  · rintro (rfl | hp)
    · exact ⟨H, rfl⟩
    · obtain ⟨c, _, _, h, _⟩ := H.kfree_spec hp
      exact ⟨_, h⟩

/-- a fresh heap serves every request it can hold -/
theorem init_kmalloc (img : Image) {n : Nat} (h0 : n ≠ 0) (hn : alignUp n 8 + sizeofBlock ≤ heapSize) :
    ((init img).kmalloc n).1 ≠ 0 := by
  rcases (init img).kmalloc_cases n with ⟨_, h1 | h1⟩ | ⟨a, l', ha, _, h1⟩
  · exact absurd h1 h0
  · exfalso
    revert h1
    show alloc sizeofBlock minSplit (alignUp n 8) [⟨img.base, heapSize - sizeofBlock, true⟩] ≠ none
    unfold alloc
    rw [if_pos ⟨rfl, by show alignUp n 8 ≤ heapSize - sizeofBlock; omega⟩]
    simp
  · rw [h1]
    unfold sizeofBlock
    simp

theorem init_ptrs (img : Image) : (init img).ptrs = [] := rfl

theorem ptrs_length_le : sizeofBlock * H.ptrs.length ≤ heapSize := by
  have h1 : H.ptrs.length ≤ H.cells.length := by
    unfold ptrs
    rw [List.length_map]
    exact List.length_filter_le _ _
  have h2 := H.tiles.total
  have h3 : sizeofBlock * H.ptrs.length ≤ sizeofBlock * H.cells.length := Nat.mul_le_mul_left _ h1
  omega

/-- a block in use ends below the top of the address space -/
theorem Room.fits {p n : Nat} (h : H.Room p n) : p + n < 2^32 := by
  obtain ⟨c, hc, e, hn⟩ := h
  have h1 := (H.tiles.bounds c (mem_used.mp hc).1).2
  have h2 := H.base_fits
  unfold Cell.stop at h1
  omega

theorem kmalloc_perm {n p : Nat} {H' : Heap} (h : H.kmalloc n = (p, H')) (hp : p ≠ 0) :
    H'.ptrs.Perm (p :: H.ptrs) ∧ H'.Room p (alignUp n 8) ∧
      ∀ q m, H.Room q m → H'.Room q m := by
  obtain ⟨c, hc, _, hsz, hfresh, _, hused⟩ := H.kmalloc_spec h hp
  have hnew : c ∈ used H'.cells := (hused c).mpr (.inl rfl)
  refine ⟨?_, ⟨c, hnew, hc, hsz⟩, fun q m ⟨d, hd, e, hm⟩ => ⟨d, (hused d).mpr (.inr hd), e, hm⟩⟩
  rw [List.perm_ext_iff_of_nodup ptrs_nodup (List.nodup_cons.mpr ⟨hfresh, ptrs_nodup⟩)]
  intro q
  rw [List.mem_cons, H'.mem_ptrs, H.mem_ptrs]
  constructor
  · rintro ⟨d, hd, e⟩
    rcases (hused d).mp hd with rfl | hd'
    · exact .inl (e.symm.trans hc)
    · exact .inr ⟨d, hd', e⟩
  · rintro (rfl | ⟨d, hd, e⟩)
    · exact ⟨c, hnew, hc⟩
    · exact ⟨d, (hused d).mpr (.inr hd), e⟩

/-- memory that no request hands out: in a block in use, or outside the heap -/
def Stable (H : Heap) (a n : Nat) : Prop :=
  (∃ p m, H.Room p m ∧ p ≤ a ∧ a + n ≤ p + m) ∨ a + n ≤ H.base ∨ H.base + heapSize ≤ a

/-- a new block does not overlap it -/
theorem kmalloc_apart {n p : Nat} {H' : Heap} (h : H.kmalloc n = (p, H')) (hp : p ≠ 0) {a k : Nat}
    (hs : H.Stable a k) : a + k ≤ p ∨ p + alignUp n 8 ≤ a := by
  obtain ⟨_, hroom, hkeep⟩ := kmalloc_perm h hp
  obtain ⟨_, _, _, _, hfresh, hbase, _⟩ := H.kmalloc_spec h hp
  rcases hs with ⟨q, m, hq, h1, h2⟩ | hout
  · have hne : q ≠ p := by
      rintro rfl
      exact hfresh hq.mem
    rcases (hkeep q m hq).apart hroom hne with h3 | h3 <;> omega
  · obtain ⟨d, hd, e, hsz⟩ := hroom
    obtain ⟨h3, h4⟩ := H'.tiles.bounds d (mem_used.mp hd).1
    unfold Cell.stop at h4
    rw [hbase] at h3 h4
    omega

theorem kfree_perm {p : Nat} {E : List Nat} (h : H.ptrs.Perm (p :: E)) :
    ∃ H', H.kfree p = .ok H' ∧ H'.ptrs.Perm E ∧ ∀ q m, q ∈ E → H.Room q m → H'.Room q m := by
  have hp : p ∈ H.ptrs := h.mem_iff.mpr List.mem_cons_self
  obtain ⟨hpE, hE⟩ := List.nodup_cons.mp (h.nodup_iff.mp ptrs_nodup)
  obtain ⟨c, _, _, hf, hused⟩ := H.kfree_spec hp
  refine ⟨_, hf, ?_, fun q m hq ⟨d, hd, e, hm⟩ => ⟨d, (hused d).mpr ⟨hd, ?_⟩, e, hm⟩⟩
  · rw [List.perm_ext_iff_of_nodup ptrs_nodup hE]
    intro q
    have hq : q ∈ H.ptrs ↔ q = p ∨ q ∈ E := by rw [h.mem_iff, List.mem_cons]
    rw [mem_ptrs]
    constructor
    · rintro ⟨d, hd, e⟩
      obtain ⟨hd1, hd2⟩ := (hused d).mp hd
      exact (hq.mp (H.mem_ptrs.mpr ⟨d, hd1, e⟩)).resolve_left fun e' => hd2 (e.trans e')
    · intro hqE
      obtain ⟨d, hd, e⟩ := H.mem_ptrs.mp (hq.mpr (.inr hqE))
      exact ⟨d, (hused d).mpr ⟨hd, fun e' => hpE ((e'.symm.trans e) ▸ hqE)⟩, e⟩
  · rintro e'
    exact hpE ((e'.symm.trans e) ▸ hq)

end
end Heap
end Raptor
