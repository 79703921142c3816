import RaptorKernel.Mm.Blocks
import RaptorKernel.Theory.Bitmap
import RaptorKernel.Theory.Run

/-!
# mm/pmm.c: the frame allocator

One bit per 4 KiB frame; everything below the end of the kernel heap is marked used at boot.

* `markUsed`, `pmmInit`, `pmmAllocFrame`, `pmmFreeFrame`   the allocator;
* `PmmInv`           `used_frames` counts the bits that are set;
* `reservedEnd_eq`   where the reserved region ends;
* `pmmInit_spec`     after boot exactly the frames of that region are in use;
* `pmm_contract`     runs that free what they were given;
* `pmm_reserved`     runs that free anything outside the reserved region.
-/

namespace Raptor

def kernelVbase : Nat := 0xC0000000

def v2p (a : Nat) : Nat := sub32 a kernelVbase
def p2v (a : Nat) : Nat := add32 a kernelVbase

def maxFrames : Nat := 1024 * 1024 * 1024 / pageSize

def multibootFlagMem : UInt32 := 1

structure MultibootInfo where
  flags : UInt32
  memUpper : UInt32

/-- the static variables -/
structure Pmm where
  bitmap : Bitmap 32
  totalFrames : Nat
  usedFrames : Nat

def markUsed (p : Pmm) (frame : Nat) : Pmm :=
  if p.bitmap.get frame = false then
    { p with bitmap := p.bitmap.set frame, usedFrames := add32 p.usedFrames 1 }
  else p

/-- the loop of `pmm_init`; there are `2^20` page addresses -/
def reserveLoop (reservedEnd : Nat) : Nat → Nat → Pmm → Except Fault Pmm
  | 0, _, _ => .error .diverges
  | fuel+1, addr, p =>
    if addr < reservedEnd then
      reserveLoop reservedEnd fuel (add32 addr pageSize) (markUsed p (addr / pageSize))
    else .ok p

/-- `total_frames` as `pmm_init` computes it -/
def detectedFrames (memUpper : UInt32) : Nat :=
  let totalKib := add32 1024 memUpper.toNat
  let totalFrames := totalKib / (pageSize / 1024)
  if maxFrames < totalFrames then maxFrames else totalFrames

def pmmInit (k : Kheap) (mbi : MultibootInfo) : Except Fault Pmm :=
  if mbi.flags &&& multibootFlagMem = 0 then
    .error (.panic "bootloader did not provide a memory map" 0)
  else
    reserveLoop (v2p (kheapEndAddr k)) (2^20 + 1) 0 ⟨fun _ => 0, detectedFrames mbi.memUpper, 0⟩

/-- the loop of `pmm_alloc_frame`, with `n` frames left to look at -/
def allocLoop (p : Pmm) : Nat → Nat → Option Nat
  | 0, _ => none
  | n+1, f => if p.bitmap.get f = false then some f else allocLoop p n (f + 1)

def pmmAllocFrame (p : Pmm) : Nat × Pmm :=
  match allocLoop p p.totalFrames 0 with
  | some f => (f * pageSize % 2^32, markUsed p f)
  | none => (0, p)

def pmmFreeFrame (p : Pmm) (addr : Nat) : Pmm :=
  let frame := addr / pageSize
  if frame < p.totalFrames ∧ p.bitmap.get frame = true then
    { p with bitmap := p.bitmap.clear frame, usedFrames := sub32 p.usedFrames 1 }
  else p

def pmmTotalKib (p : Pmm) : Nat := p.totalFrames * (pageSize / 1024) % 2^32
def pmmUsedKib (p : Pmm) : Nat := p.usedFrames * (pageSize / 1024) % 2^32

/-! ## one call -/

structure PmmInv (p : Pmm) : Prop where
  used : p.usedFrames = p.bitmap.count maxFrames
  total_le : p.totalFrames ≤ maxFrames

theorem markUsed_get (p : Pmm) (f j : Nat) :
    (markUsed p f).bitmap.get j = (p.bitmap.get j || decide (j = f)) := by
  unfold markUsed
  by_cases h : p.bitmap.get f = false
  · rw [if_pos h]
    exact Bitmap.get_set _ _ _
  · rw [if_neg h]
    by_cases hj : j = f
    · subst hj
      simpa using h
    · simp [hj]

theorem markUsed_total (p : Pmm) (f : Nat) : (markUsed p f).totalFrames = p.totalFrames := by
  unfold markUsed
  split <;> rfl

theorem PmmInv.markUsed {p : Pmm} (h : PmmInv p) {f : Nat} (hf : f < maxFrames) :
    PmmInv (markUsed p f) := by
  refine ⟨?_, by rw [markUsed_total]; exact h.total_le⟩
  unfold Raptor.markUsed
  by_cases hg : p.bitmap.get f = false
  · have hle := Bitmap.count_le p.bitmap maxFrames
    have hmax : maxFrames = 262144 := rfl
    rw [if_pos hg]
    show add32 p.usedFrames 1 = (p.bitmap.set f).count maxFrames
    rw [Bitmap.count_set _ hf hg, h.used, add32_eq (by omega)]
  · rw [if_neg hg]
    exact h.used

theorem PmmInv.free {p : Pmm} (h : PmmInv p) (addr : Nat) : PmmInv (pmmFreeFrame p addr) := by
  unfold pmmFreeFrame
  dsimp only
  split
  · rename_i hf
    have hlt : addr / pageSize < maxFrames := lt_of_lt_of_le hf.1 h.total_le
    have hcount := Bitmap.count_clear p.bitmap hlt hf.2
    have hle := Bitmap.count_le p.bitmap maxFrames
    have hmax : maxFrames = 262144 := rfl
    refine ⟨?_, h.total_le⟩
    show sub32 p.usedFrames 1 = (p.bitmap.clear (addr / pageSize)).count maxFrames
    rw [h.used, sub32_eq (by omega) (by omega)]
    omega
  · exact h

theorem free_get (p : Pmm) (addr j : Nat) (hj : p.bitmap.get j = true)
    (hne : j ≠ addr / pageSize) : (pmmFreeFrame p addr).bitmap.get j = true := by
  unfold pmmFreeFrame
  dsimp only
  split
  · show (p.bitmap.clear _).get j = true
    rw [Bitmap.get_clear, hj]
    simp [hne]
  · exact hj

theorem free_total (p : Pmm) (addr : Nat) : (pmmFreeFrame p addr).totalFrames = p.totalFrames := by
  unfold pmmFreeFrame
  dsimp only
  split <;> rfl

theorem allocLoop_spec (p : Pmm) (n f : Nat) :
    match allocLoop p n f with
    | none => ∀ j, f ≤ j → j < f + n → p.bitmap.get j = true
    | some g => f ≤ g ∧ g < f + n ∧ p.bitmap.get g = false ∧
        ∀ j, f ≤ j → j < g → p.bitmap.get j = true := by
  induction n generalizing f with
  | zero =>
    intro j h1 h2
    omega
  | succ n ih =>
    unfold allocLoop
    by_cases hf : p.bitmap.get f = false
    · rw [if_pos hf]
      refine ⟨le_refl _, by omega, hf, ?_⟩
      intro j h1 h2
      omega
    · rw [if_neg hf]
      have hf' : p.bitmap.get f = true := by simpa using hf
      have h := ih (f + 1)
      cases hl : allocLoop p n (f + 1) with
      | none =>
        rw [hl] at h
        intro j h1 h2
        rcases Nat.eq_or_lt_of_le h1 with rfl | h3
        · exact hf'
        · exact h j h3 (by omega)
      | some g =>
        rw [hl] at h
        obtain ⟨h1, h2, h3, h4⟩ := h
        refine ⟨by omega, by omega, h3, ?_⟩
        intro j h5 h6
        rcases Nat.eq_or_lt_of_le h5 with rfl | h7
        · exact hf'
        · exact h4 j h7 h6

/-- `pmm_alloc_frame` takes the lowest free frame, if there is one -/
theorem pmmAllocFrame_spec {p : Pmm} (hle : p.totalFrames ≤ maxFrames) :
    (∃ f < p.totalFrames, p.bitmap.get f = false ∧ (∀ j < f, p.bitmap.get j = true) ∧
      pmmAllocFrame p = (f * pageSize, markUsed p f)) ∨
    ((∀ j < p.totalFrames, p.bitmap.get j = true) ∧ pmmAllocFrame p = (0, p)) := by
  have hspec := allocLoop_spec p p.totalFrames 0
  unfold pmmAllocFrame
  cases hl : allocLoop p p.totalFrames 0 with
  | none =>
    rw [hl] at hspec
    exact .inr ⟨fun j hj => hspec j (Nat.zero_le _) (by omega), rfl⟩
  | some f =>
    rw [hl] at hspec
    obtain ⟨_, h2, h3, h4⟩ := hspec
    have hmax : maxFrames = 262144 := rfl
    have hpage : pageSize = 4096 := rfl
    have e : f * pageSize % 2^32 = f * pageSize := Nat.mod_eq_of_lt (by rw [hpage]; omega)
    refine .inl ⟨f, by omega, h3, fun j hj => h4 j (Nat.zero_le _) hj, ?_⟩
    dsimp only
    rw [e]

/-! ## boot -/

/-- linker.ld: the image ends in the higher half, and image and heap end below 1 GiB -/
structure HigherHalf (kernelEnd : Nat) : Prop where
  low : kernelVbase ≤ kernelEnd
  fits : (kernelEnd + 4095) / 4096 * 4096 + heapSize ≤ 2^32

/-- frames below the end of the heap -/
def reservedFrames (kernelEnd : Nat) : Nat :=
  ((kernelEnd + 4095) / 4096 * 4096 + heapSize - kernelVbase) / pageSize

section
variable {kernelEnd : Nat} (hk : HigherHalf kernelEnd)
include hk

theorem reservedEnd_eq (m : Mem) :
    v2p (kheapEndAddr (kheapInit kernelEnd m)) = reservedFrames kernelEnd * pageSize := by
  have h1 := hk.low
  have h2 := hk.fits
  have hv : kernelVbase = 0xC0000000 := rfl
  have hh : heapSize = 4194304 := rfl
  have hpage : pageSize = 4096 := rfl
  have hstart : (kheapInit kernelEnd m).heapStart = (kernelEnd + 4095) / 4096 * 4096 := by
    show alignUp kernelEnd 4096 = _
    rw [alignUp_page, Nat.mod_eq_of_lt (by omega)]
  unfold v2p kheapEndAddr reservedFrames add32 sub32
  rw [hstart, hpage]
  omega

theorem reservedFrames_bounds : 0 < reservedFrames kernelEnd ∧ reservedFrames kernelEnd ≤ maxFrames := by
  have h1 := hk.low
  have h2 := hk.fits
  have hv : kernelVbase = 0xC0000000 := rfl
  have hh : heapSize = 4194304 := rfl
  have hpage : pageSize = 4096 := rfl
  have hmax : maxFrames = 262144 := rfl
  unfold reservedFrames
  rw [hpage]
  omega

end

theorem reserveLoop_spec {n : Nat} (hn : n ≤ maxFrames) (fuel : Nat) {i : Nat} (hi : i ≤ n)
    (hf : n - i < fuel) {p : Pmm} (h : PmmInv p) :
    ∃ q, reserveLoop (n * pageSize) fuel (i * pageSize) p = .ok q ∧ PmmInv q ∧
      q.totalFrames = p.totalFrames ∧
      ∀ j, q.bitmap.get j = (p.bitmap.get j || decide (i ≤ j ∧ j < n)) := by
  have hmax : maxFrames = 262144 := rfl
  have hpage : pageSize = 4096 := rfl
  induction fuel generalizing i p with
  | zero => omega
  | succ fuel ih =>
    unfold reserveLoop
    by_cases hlt : i < n
    · have haddr : add32 (i * pageSize) pageSize = (i + 1) * pageSize := by
        rw [hpage, add32_eq (by omega)]
        omega
      have hdiv : i * pageSize / pageSize = i := Nat.mul_div_cancel i (by omega)
      have haddr_lt : i * pageSize < n * pageSize := Nat.mul_lt_mul_of_pos_right hlt (by omega)
      rw [if_pos haddr_lt, haddr, hdiv]
      have h' : PmmInv (markUsed p i) := h.markUsed (by omega)
      obtain ⟨q, h1, h2, h3, h4⟩ := ih (i := i + 1) (by omega) (by omega) h'
      refine ⟨q, h1, h2, h3.trans (markUsed_total p i), ?_⟩
      intro j
      have hor : (decide (j = i) || decide (i + 1 ≤ j ∧ j < n)) = decide (i ≤ j ∧ j < n) := by
        rw [← Bool.decide_or]
        exact decide_eq_decide.mpr (by omega)
      rw [h4, markUsed_get, Bool.or_assoc, hor]
    · rw [if_neg (by rw [hpage]; omega)]
      refine ⟨p, rfl, h, rfl, ?_⟩
      intro j
      have hj : ¬ (i ≤ j ∧ j < n) := by omega
      simp [hj]

theorem detectedFrames_le (memUpper : UInt32) : detectedFrames memUpper ≤ maxFrames := by
  unfold detectedFrames
  dsimp only
  split <;> omega

/-- after boot exactly the frames below the end of the heap are in use -/
theorem pmmInit_spec {kernelEnd : Nat} (hk : HigherHalf kernelEnd) (m : Mem) {mbi : MultibootInfo}
    (hmem : mbi.flags &&& multibootFlagMem ≠ 0) :
    ∃ p, pmmInit (kheapInit kernelEnd m) mbi = .ok p ∧ PmmInv p ∧
      p.totalFrames = detectedFrames mbi.memUpper ∧
      ∀ j, p.bitmap.get j = decide (j < reservedFrames kernelEnd) := by
  have hmax : maxFrames = 262144 := rfl
  obtain ⟨_, hle⟩ := reservedFrames_bounds hk
  have h0 : PmmInv ⟨fun _ => 0, detectedFrames mbi.memUpper, 0⟩ :=
    ⟨(Bitmap.count_zero _).symm, detectedFrames_le _⟩
  obtain ⟨p, h1, h2, h3, h4⟩ := reserveLoop_spec hle (2^20 + 1) (Nat.zero_le _) (by omega) h0
  rw [Nat.zero_mul] at h1
  refine ⟨p, ?_, h2, h3, ?_⟩
  · unfold pmmInit
    rw [if_neg hmem, reservedEnd_eq hk]
    exact h1
  · intro j
    rw [h4]
    simp [Bitmap.get_zero]

/-! ## runs -/

inductive PmmOp where
  | alloc
  | free (addr : UInt32)

/-- `outstanding`: what `pmm_alloc_frame` returned, NULL apart, and was not freed since -/
structure PmmState where
  pmm : Pmm
  outstanding : List Nat

def pmmStep (s : PmmState) : PmmOp → PmmState
  | .alloc =>
    let r := pmmAllocFrame s.pmm
    ⟨r.2, if r.1 ≠ 0 then r.1 :: s.outstanding else s.outstanding⟩
  | .free addr => ⟨pmmFreeFrame s.pmm addr.toNat, s.outstanding.erase addr.toNat⟩

def pmmMachine (ok : PmmState → PmmOp → Prop) : Machine PmmState PmmOp Fault where
  step s op := .ok (pmmStep s op)
  legal := ok

/-- a frame is freed only by whom it was given to, once -/
def OwnFrees (s : PmmState) (op : PmmOp) : Prop :=
  ∀ addr, op = .free addr → addr.toNat ∈ s.outstanding

/-- what is freed is not reserved, or beyond the memory -/
def FreesOutside (reservedEnd : Nat) (s : PmmState) (op : PmmOp) : Prop :=
  ∀ addr, op = .free addr →
    reservedEnd ≤ addr.toNat ∨ s.pmm.totalFrames * pageSize ≤ addr.toNat

/-- the first `r` frames are in use -/
structure Reserved (r : Nat) (p : Pmm) : Prop where
  inv : PmmInv p
  pos : 0 < r
  used : ∀ j < r, p.bitmap.get j = true

/-- the outstanding frames are distinct, not reserved, and in use -/
structure Owned (r : Nat) (s : PmmState) : Prop where
  reserved : Reserved r s.pmm
  frame : ∀ a ∈ s.outstanding, ∃ f, r ≤ f ∧ f < s.pmm.totalFrames ∧ a = f * pageSize ∧
    s.pmm.bitmap.get f = true
  nodup : s.outstanding.Nodup

section
variable {r : Nat}

/-- a frame that is handed out is not reserved -/
theorem Reserved.alloc {p : Pmm} (h : Reserved r p) :
    (∃ f, r ≤ f ∧ f < p.totalFrames ∧ p.bitmap.get f = false ∧ (∀ j < f, p.bitmap.get j = true) ∧
      f * pageSize ≠ 0 ∧ pmmAllocFrame p = (f * pageSize, markUsed p f)) ∨
    ((∀ j < p.totalFrames, p.bitmap.get j = true) ∧ pmmAllocFrame p = (0, p)) := by
  rcases pmmAllocFrame_spec h.inv.total_le with ⟨f, h1, h2, h3, h4⟩ | hfull
  · have hrf : r ≤ f := by
      by_contra hlt
      rw [h.used f (by omega)] at h2
      cases h2
    have hpos : 0 < f := lt_of_lt_of_le h.pos hrf
    exact .inl ⟨f, hrf, h1, h2, h3, Nat.mul_ne_zero (by omega) (by decide), h4⟩
  · exact .inr hfull

theorem Reserved.after_alloc {p : Pmm} (h : Reserved r p) : Reserved r (pmmAllocFrame p).2 := by
  rcases h.alloc with ⟨f, _, h2, _, _, _, e⟩ | ⟨_, e⟩
  · rw [e]
    refine ⟨h.inv.markUsed (lt_of_lt_of_le h2 h.inv.total_le), h.pos, ?_⟩
    intro j hj
    rw [markUsed_get, h.used j hj]
    rfl
  · rw [e]
    exact h

theorem Reserved.after_free {p : Pmm} (h : Reserved r p) {addr : Nat}
    (hout : r * pageSize ≤ addr ∨ p.totalFrames * pageSize ≤ addr) :
    Reserved r (pmmFreeFrame p addr) := by
  have hpage : 0 < pageSize := by decide
  rcases hout with hle | hle
  · refine ⟨h.inv.free addr, h.pos, ?_⟩
    intro j hj
    have hdiv : r ≤ addr / pageSize := (Nat.le_div_iff_mul_le hpage).mpr hle
    exact free_get p addr j (h.used j hj) (by omega)
  · have hdiv : p.totalFrames ≤ addr / pageSize := (Nat.le_div_iff_mul_le hpage).mpr hle
    have hsame : pmmFreeFrame p addr = p := if_neg fun hf => absurd hf.1 (by omega)
    rw [hsame]
    exact h

theorem Owned.alloc {s : PmmState} (h : Owned r s) : Owned r (pmmStep s .alloc) := by
  refine ⟨h.reserved.after_alloc, ?_, ?_⟩
  · rcases h.reserved.alloc with ⟨f, h1, h2, h3, _, h5, e⟩ | ⟨_, e⟩
    · intro a ha
      unfold pmmStep at ha ⊢
      rw [e] at ha ⊢
      dsimp only at ha ⊢
      rw [if_pos h5] at ha
      rw [markUsed_total]
      rcases List.mem_cons.mp ha with rfl | hold
      · exact ⟨f, h1, h2, rfl, by simp [markUsed_get]⟩
      · obtain ⟨g, k1, k2, k3, k4⟩ := h.frame a hold
        exact ⟨g, k1, k2, k3, by simp [markUsed_get, k4]⟩
    · unfold pmmStep
      rw [e]
      exact h.frame
  · rcases h.reserved.alloc with ⟨f, _, _, h3, _, h5, e⟩ | ⟨_, e⟩
    · unfold pmmStep
      rw [e]
      dsimp only
      rw [if_pos h5]
      refine List.nodup_cons.mpr ⟨?_, h.nodup⟩
      intro hmem
      obtain ⟨g, _, _, k3, k4⟩ := h.frame _ hmem
      have hfg : f = g := Nat.eq_of_mul_eq_mul_right (by decide) k3
      rw [← hfg, h3] at k4
      cases k4
    · unfold pmmStep
      rw [e]
      exact h.nodup

theorem Owned.free {s : PmmState} (h : Owned r s) {addr : UInt32}
    (hmem : addr.toNat ∈ s.outstanding) : Owned r (pmmStep s (.free addr)) := by
  have hpage : 0 < pageSize := by decide
  obtain ⟨f, h1, h2, h3, h4⟩ := h.frame _ hmem
  have hdiv : addr.toNat / pageSize = f := by
    rw [h3]
    exact Nat.mul_div_cancel f hpage
  refine ⟨h.reserved.after_free (.inl ?_), ?_, h.nodup.erase _⟩
  · rw [h3]
    exact Nat.mul_le_mul_right _ h1
  · intro a ha
    obtain ⟨hne, hold⟩ := h.nodup.mem_erase_iff.mp ha
    obtain ⟨g, k1, k2, k3, k4⟩ := h.frame a hold
    refine ⟨g, k1, ?_, k3, free_get _ _ _ k4 ?_⟩
    · show g < (pmmFreeFrame s.pmm addr.toNat).totalFrames
      rw [free_total]
      exact k2
    · rw [hdiv]
      rintro rfl
      exact hne (k3.trans h3.symm)

end

theorem owned_of_run {r : Nat} {p : Pmm} (h0 : Reserved r p) {ops : List PmmOp} {s : PmmState}
    (hrun : (pmmMachine OwnFrees).Run ⟨p, []⟩ ops s) : Owned r s := by
  have hboot : Owned r ⟨p, []⟩ := ⟨h0, by simp, List.nodup_nil⟩
  refine hrun.inv hboot ?_
  intro s op t h hl hs
  cases hs
  cases op with
  | alloc => exact h.alloc
  | free addr => exact h.free (hl addr rfl)

theorem reserved_of_run {r : Nat} {p : Pmm} (h0 : Reserved r p) {ops : List PmmOp} {s : PmmState}
    (hrun : (pmmMachine (FreesOutside (r * pageSize))).Run ⟨p, []⟩ ops s) : Reserved r s.pmm := by
  refine hrun.inv (I := fun s => Reserved r s.pmm) h0 ?_
  intro s op t h hl hs
  cases hs
  cases op with
  | alloc => exact h.after_alloc
  | free addr => exact h.after_free (hl addr rfl)

/-- `pmm_alloc_frame` neither marks nor returns a frame below `reservedEnd`, and returns 0 only when
no frame is left -/
def NoReservedFrame (reservedEnd : Nat) (p : Pmm) : Prop :=
  ∀ a q, pmmAllocFrame p = (a, q) →
    (∀ f, q.bitmap.get f = true → p.bitmap.get f = false → reservedEnd ≤ f * pageSize) ∧
    (a ≠ 0 → reservedEnd ≤ a) ∧ (a = 0 → ∀ f < p.totalFrames, p.bitmap.get f = true)

theorem Reserved.noReservedFrame {r : Nat} {p : Pmm} (h : Reserved r p) :
    NoReservedFrame (r * pageSize) p := by
  intro a q ha
  rcases h.alloc with ⟨f, h1, _, _, _, h5, e⟩ | ⟨hfull, e⟩
  · rw [e] at ha
    cases ha
    refine ⟨?_, fun _ => Nat.mul_le_mul_right _ h1, fun h0 => absurd h0 h5⟩
    intro g hg hg'
    rw [markUsed_get, hg'] at hg
    have hgf : g = f := by simpa using hg
    rw [hgf]
    exact Nat.mul_le_mul_right _ h1
  · rw [e] at ha
    cases ha
    refine ⟨?_, fun h0 => absurd rfl h0, fun _ => hfull⟩
    intro g hg hg'
    rw [hg] at hg'
    cases hg'

theorem pmmInit_reserved {kernelEnd : Nat} (hk : HigherHalf kernelEnd) (m : Mem)
    {mbi : MultibootInfo} (hmem : mbi.flags &&& multibootFlagMem ≠ 0) :
    ∃ p, pmmInit (kheapInit kernelEnd m) mbi = .ok p ∧ Reserved (reservedFrames kernelEnd) p := by
  obtain ⟨p, h1, h2, _, h4⟩ := pmmInit_spec hk m hmem
  refine ⟨p, h1, h2, (reservedFrames_bounds hk).1, ?_⟩
  intro j hj
  rw [h4]
  simpa using hj

/-- Callers that free only what they were given, once: the counter counts, a frame handed out is
new, outside the reserved region, inside the memory and the lowest that is free, and 0 is returned
exactly when all frames are in use. -/
theorem pmm_contract {kernelEnd : Nat} (hk : HigherHalf kernelEnd) (m : Mem) {mbi : MultibootInfo}
    (hmem : mbi.flags &&& multibootFlagMem ≠ 0) :
    ∃ p0, pmmInit (kheapInit kernelEnd m) mbi = .ok p0 ∧
      ∀ ops s, (pmmMachine OwnFrees).Run ⟨p0, []⟩ ops s →
        s.pmm.usedFrames = s.pmm.bitmap.count maxFrames ∧
        ∀ a p, pmmAllocFrame s.pmm = (a, p) →
          (a ≠ 0 → pageSize ∣ a ∧ v2p (kheapEndAddr (kheapInit kernelEnd m)) ≤ a ∧
            a < s.pmm.totalFrames * pageSize ∧ a ∉ s.outstanding ∧
            s.pmm.bitmap.get (a / pageSize) = false ∧
            ∀ f < a / pageSize, s.pmm.bitmap.get f = true) ∧
          (a = 0 ↔ ∀ f < s.pmm.totalFrames, s.pmm.bitmap.get f = true) := by
  obtain ⟨p0, h0, hres⟩ := pmmInit_reserved hk m hmem
  refine ⟨p0, h0, ?_⟩
  intro ops s hrun
  have h := owned_of_run hres hrun
  refine ⟨h.reserved.inv.used, ?_⟩
  intro a p ha
  rcases h.reserved.alloc with ⟨f, h1, h2, h3, h4, h5, e⟩ | ⟨hfull, e⟩
  · rw [e] at ha
    cases ha
    have hdiv : f * pageSize / pageSize = f := Nat.mul_div_cancel f (by decide)
    constructor
    · intro _
      rw [reservedEnd_eq hk, hdiv]
      refine ⟨Nat.dvd_mul_left _ _, Nat.mul_le_mul_right _ h1,
        Nat.mul_lt_mul_of_pos_right h2 (by decide), ?_, h3, h4⟩
      intro hout
      obtain ⟨g, _, _, k3, k4⟩ := h.frame _ hout
      have hfg : f = g := Nat.eq_of_mul_eq_mul_right (by decide) k3
      rw [← hfg, h3] at k4
      cases k4
    · refine ⟨fun h0 => absurd h0 h5, ?_⟩
      intro hall
      rw [hall f h2] at h3
      cases h3
  · rw [e] at ha
    cases ha
    exact ⟨fun h0 => absurd rfl h0, fun _ => hfull, fun _ => rfl⟩

theorem sampleImage_higherHalf : HigherHalf sampleImage.kernelEnd :=
  ⟨by decide, by decide⟩

/-- 128 MiB -/
def sampleInfo : MultibootInfo := ⟨1, 130048⟩

theorem sampleInfo_mem : sampleInfo.flags &&& multibootFlagMem ≠ 0 := by decide

theorem pmm_contract_first_frame :
    ∃ p0 s, pmmInit (kheapInit sampleImage.kernelEnd fun _ => 0) sampleInfo = .ok p0 ∧
      (pmmMachine OwnFrees).Run ⟨p0, []⟩ [.alloc] s ∧
      s.pmm.usedFrames = s.pmm.bitmap.count maxFrames := by
  obtain ⟨p0, h0, hall⟩ := pmm_contract sampleImage_higherHalf (fun _ => 0) sampleInfo_mem
  have hlegal : OwnFrees ⟨p0, []⟩ .alloc := fun addr e => by cases e
  have hrun : (pmmMachine OwnFrees).Run ⟨p0, []⟩ [.alloc] (pmmStep ⟨p0, []⟩ .alloc) :=
    .snoc (.nil (M := pmmMachine OwnFrees)) hlegal rfl
  exact ⟨p0, _, h0, hrun, (hall _ _ hrun).1⟩

/-- Callers that free anything that is not reserved: no reserved frame is handed out or marked
again, and 0 means that no frame is left. -/
theorem pmm_reserved {kernelEnd : Nat} (hk : HigherHalf kernelEnd) (m : Mem) {mbi : MultibootInfo}
    (hmem : mbi.flags &&& multibootFlagMem ≠ 0) :
    ∃ p0, pmmInit (kheapInit kernelEnd m) mbi = .ok p0 ∧
      ∀ ops s, (pmmMachine (FreesOutside (v2p (kheapEndAddr (kheapInit kernelEnd m))))).Run
        ⟨p0, []⟩ ops s → NoReservedFrame (v2p (kheapEndAddr (kheapInit kernelEnd m))) s.pmm := by
  obtain ⟨p0, h0, hres⟩ := pmmInit_reserved hk m hmem
  refine ⟨p0, h0, ?_⟩
  rw [reservedEnd_eq hk]
  intro ops s hrun
  exact (reserved_of_run hres hrun).noReservedFrame

theorem pmm_reserved_free_high :
    ∃ p0 s, pmmInit (kheapInit sampleImage.kernelEnd fun _ => 0) sampleInfo = .ok p0 ∧
      (pmmMachine (FreesOutside (v2p (kheapEndAddr (kheapInit sampleImage.kernelEnd fun _ => 0))))).Run
        ⟨p0, []⟩ [.free 0x7ffff000] s ∧
      NoReservedFrame (v2p (kheapEndAddr (kheapInit sampleImage.kernelEnd fun _ => 0))) s.pmm := by
  obtain ⟨p0, h0, hall⟩ := pmm_reserved sampleImage_higherHalf (fun _ => 0) sampleInfo_mem
  have hrun : (pmmMachine (FreesOutside
      (v2p (kheapEndAddr (kheapInit sampleImage.kernelEnd fun _ => 0))))).Run ⟨p0, []⟩
      [.free 0x7ffff000] (pmmStep ⟨p0, []⟩ (.free 0x7ffff000)) := by
    refine .snoc (.nil (M := pmmMachine _)) ?_ rfl
    intro addr e
    cases e
    left
    rw [reservedEnd_eq sampleImage_higherHalf]
    decide
  exact ⟨p0, _, h0, hrun, hall _ _ hrun⟩

/-- after `pmm_free_frame(0)` the next `pmm_alloc_frame` marks frame 0 and returns 0 -/
theorem pmm_free_zero :
    ∃ p0 s, pmmInit (kheapInit sampleImage.kernelEnd fun _ => 0) sampleInfo = .ok p0 ∧
      (pmmMachine fun _ _ => True).Run ⟨p0, []⟩ [.free 0] s ∧
      ¬ NoReservedFrame (v2p (kheapEndAddr (kheapInit sampleImage.kernelEnd fun _ => 0))) s.pmm := by
  obtain ⟨p0, h0, hinv, htotal, hget⟩ := pmmInit_spec sampleImage_higherHalf (fun _ => 0) sampleInfo_mem
  have hrun : (pmmMachine fun _ _ => True).Run ⟨p0, []⟩ [.free 0] (pmmStep ⟨p0, []⟩ (.free 0)) :=
    .snoc (.nil (M := pmmMachine _)) trivial rfl
  refine ⟨p0, _, h0, hrun, ?_⟩
  have hused : p0.bitmap.get 0 = true := by
    rw [hget]
    simpa using (reservedFrames_bounds sampleImage_higherHalf).1
  have hpos : 0 < p0.totalFrames := by
    rw [htotal]
    decide
  have hclear : pmmFreeFrame p0 0 =
      { p0 with bitmap := p0.bitmap.clear 0, usedFrames := sub32 p0.usedFrames 1 } :=
    if_pos ⟨hpos, hused⟩
  have hfree : (pmmFreeFrame p0 0).bitmap.get 0 = false := by
    rw [hclear]
    show (p0.bitmap.clear 0).get 0 = false
    simp [Bitmap.get_clear]
  have hpos' : 0 < (pmmFreeFrame p0 0).totalFrames := by
    rw [free_total]
    exact hpos
  intro hno
  have hno' : NoReservedFrame _ (pmmFreeFrame p0 0) := hno
  rcases pmmAllocFrame_spec (hinv.free 0).total_le with ⟨f, _, _, hlow, e⟩ | ⟨hfull, _⟩
  · have hf : f = 0 := by
      by_contra hne
      rw [hlow 0 (by omega)] at hfree
      cases hfree
    obtain ⟨_, _, hall⟩ := hno' _ _ e
    rw [hall (by rw [hf, Nat.zero_mul]) 0 hpos'] at hfree
    cases hfree
  · rw [hfull 0 hpos'] at hfree
    cases hfree

end Raptor
