import RaptorKernel.Mm.Pmm

/-!
# mm/paging.c and boot/boot.S: the page directories

Both directories are made of 4 MiB pages.  `translate` is what the MMU makes of one.

* `bootPageDirectory`     the directory that `_start` builds;
* `pagingInit`            the final one, built from the detected memory;
* `mappedBytes`           the memory, rounded up to 4 MiB;
* `page_directory_exact`  the final directory maps exactly that window;
* `accounting_iff`        when the boot-time numbers of pmm.c and paging.c fit together.
-/

namespace Raptor

def pdePresent : Nat := 1 <<< 0
def pdeWrite : Nat := 1 <<< 1
def pdeLarge : Nat := 1 <<< 7

def kernelPde : Nat := kernelVbase >>> 22

/-- the 1024 entries -/
abbrev PageDirectory := Nat → Nat

/-- the entry that both builders write for the `i`-th 4 MiB -/
def largePde (i : Nat) : Nat := i <<< 22 % 2^32 ||| pdePresent ||| pdeWrite ||| pdeLarge

/-- What the MMU does with CR4.PSE set: bits 31-22 of the address select the entry, and a present
large entry gives bits 31-22 of the physical address. -/
def translate (pd : PageDirectory) (v : Nat) : Option Nat :=
  let e := pd (v >>> 22)
  if e &&& pdePresent ≠ 0 ∧ e &&& pdeLarge ≠ 0 then some ((e &&& 0xFFC00000) ||| (v &&& 0x3FFFFF))
  else none

/-! ## boot.S -/

/-- the loop at label `1:`, from `%ecx` on -/
def bootLoop : Nat → Nat → PageDirectory → PageDirectory
  | 0, _, pd => pd
  | fuel+1, ecx, pd =>
    let pd := Function.update pd (3072 / 4 + ecx) (ecx <<< 22 % 2^32 ||| 0x83)
    if ecx + 1 < 256 then bootLoop fuel (ecx + 1) pd else pd

def bootPageDirectory : PageDirectory :=
  bootLoop 256 0 (Function.update (fun _ => 0) 0 0x00000083)

/-! ## paging.c -/

def pagingMappedMib (pd : PageDirectory) : Nat :=
  ((List.range 1024).foldl (fun n i => if pd i &&& pdePresent ≠ 0 then add32 n 1 else n) 0) * 4 % 2^32

/-- the number of entries that `paging_init` fills -/
def pagingEntries (p : Pmm) : Nat :=
  let mib := add32 (pmmTotalKib p) 1023 / 1024
  let entries := add32 mib 3 / 4
  if 1024 - kernelPde < entries then 1024 - kernelPde else entries

def pagingInit (p : Pmm) : PageDirectory :=
  (List.range (pagingEntries p)).foldl
    (fun pd i => Function.update pd (kernelPde + i) (largePde i)) fun _ => 0

/-! ## the directories -/

theorem largePde_bits : ∀ i < 1024, largePde i &&& pdePresent ≠ 0 ∧ largePde i &&& pdeLarge ≠ 0 ∧
    largePde i &&& 0xFFC00000 = i * 2^22 := by decide +kernel

/-- a present large entry moves 4 MiB onto 4 MiB -/
theorem translate_large {pd : PageDirectory} {v i : Nat} (hi : i < 1024)
    (h : pd (v / 2^22) = largePde i) : translate pd v = some (i * 2^22 + v % 2^22) := by
  obtain ⟨h1, h2, h3⟩ := largePde_bits i hi
  have hmask : v &&& 0x3FFFFF = v % 2^22 := Nat.and_two_pow_sub_one_eq_mod v 22
  have hor : 2^22 * i + v % 2^22 = 2^22 * i ||| v % 2^22 :=
    Nat.two_pow_add_eq_or_of_lt (Nat.mod_lt _ (by norm_num)) i
  unfold translate
  rw [Nat.shiftRight_eq_div_pow, h]
  dsimp only
  rw [if_pos ⟨h1, h2⟩, h3, hmask, Nat.mul_comm, ← hor]

theorem translate_absent {pd : PageDirectory} {v : Nat} (h : pd (v / 2^22) = 0) :
    translate pd v = none := by
  unfold translate
  rw [Nat.shiftRight_eq_div_pow, h]
  exact if_neg (by simp)

theorem bootLoop_apply {fuel ecx : Nat} (hf : 256 - ecx ≤ fuel) (he : ecx < 256)
    (pd : PageDirectory) (j : Nat) :
    bootLoop fuel ecx pd j = if 768 + ecx ≤ j ∧ j < 1024 then largePde (j - 768) else pd j := by
  induction fuel generalizing ecx pd with
  | zero => omega
  | succ fuel ih =>
    have hentry : ecx <<< 22 % 2^32 ||| 0x83 = largePde ecx := by
      unfold largePde
      rw [Nat.or_assoc, Nat.or_assoc]
      rfl
    have hone : ∀ k, Function.update pd (3072 / 4 + ecx) (ecx <<< 22 % 2^32 ||| 0x83) k =
        if k = 768 + ecx then largePde (k - 768) else pd k := by
      intro k
      rw [hentry]
      by_cases hk : k = 768 + ecx
      · have e : 768 + ecx - 768 = ecx := by omega
        rw [if_pos hk, hk, e]
        exact Function.update_self _ _ _
      · rw [if_neg hk]
        exact Function.update_of_ne hk _ _
    unfold bootLoop
    dsimp only
    by_cases hlast : ecx + 1 < 256
    · rw [if_pos hlast, ih (by omega) hlast, hone]
      by_cases hj : 768 + (ecx + 1) ≤ j ∧ j < 1024
      · rw [if_pos hj, if_pos (by omega)]
      · by_cases hk : j = 768 + ecx
        · rw [if_neg hj, if_pos hk, if_pos (by omega)]
        · rw [if_neg hj, if_neg hk, if_neg (by omega)]
    · rw [if_neg hlast, hone]
      by_cases hk : j = 768 + ecx
      · rw [if_pos hk, if_pos (by omega)]
      · rw [if_neg hk, if_neg (by omega)]

theorem fill_apply (pd : PageDirectory) (n j : Nat) :
    (List.range n).foldl (fun pd i => Function.update pd (kernelPde + i) (largePde i)) pd j =
      if kernelPde ≤ j ∧ j < kernelPde + n then largePde (j - kernelPde) else pd j := by
  induction n with
  | zero =>
    rw [if_neg (by omega)]
    rfl
  | succ n ih =>
    rw [List.range_succ, List.foldl_append, List.foldl_cons, List.foldl_nil]
    by_cases hj : j = kernelPde + n
    · have e : kernelPde + n - kernelPde = n := by omega
      rw [if_pos (by omega), hj, e]
      exact Function.update_self _ _ _
    · rw [Function.update_of_ne hj, ih]
      by_cases hin : kernelPde ≤ j ∧ j < kernelPde + n
      · rw [if_pos hin, if_pos (by omega)]
      · rw [if_neg hin, if_neg (by omega)]

theorem pagingInit_apply (p : Pmm) (j : Nat) : pagingInit p j =
    if kernelPde ≤ j ∧ j < kernelPde + pagingEntries p then largePde (j - kernelPde) else 0 :=
  fill_apply _ _ j

theorem bootPageDirectory_window {j : Nat} (h1 : kernelPde ≤ j) (h2 : j < 1024) :
    bootPageDirectory j = largePde (j - kernelPde) := by
  have hk : kernelPde = 768 := rfl
  unfold bootPageDirectory
  rw [bootLoop_apply (by omega) (by omega), if_pos (by omega), hk]

/-! ## sizes -/

/-- the memory in bytes, rounded up to 4 MiB, within the window of 1 GiB -/
def mappedBytes (p : Pmm) : Nat := min ((p.totalFrames * pageSize + (2^22 - 1)) / 2^22 * 2^22) (2^30)

section
variable {p : Pmm} (hp : p.totalFrames ≤ maxFrames)
include hp

theorem pmmTotalKib_eq : pmmTotalKib p = p.totalFrames * 4 := by
  have hmax : maxFrames = 262144 := rfl
  show p.totalFrames * 4 % 2^32 = _
  omega

theorem pagingEntries_eq : pagingEntries p = (p.totalFrames + 1023) / 1024 := by
  have hmax : maxFrames = 262144 := rfl
  have hk : kernelPde = 768 := rfl
  unfold pagingEntries
  rw [pmmTotalKib_eq hp, add32_eq (by omega), hk]
  dsimp only
  rw [add32_eq (by omega), if_neg (by omega)]
  omega

theorem mappedBytes_eq : mappedBytes p = pagingEntries p * 2^22 := by
  have hmax : maxFrames = 262144 := rfl
  have hpage : pageSize = 4096 := rfl
  unfold mappedBytes
  rw [pagingEntries_eq hp, hpage]
  omega

theorem pagingEntries_le : pagingEntries p ≤ 256 := by
  have hmax : maxFrames = 262144 := rfl
  rw [pagingEntries_eq hp]
  omega

/-- the window, and nothing else -/
theorem translate_pagingInit {v : Nat} (hv : v < 2^32) : translate (pagingInit p) v =
    if kernelVbase ≤ v ∧ v < kernelVbase + mappedBytes p then some (v2p v) else none := by
  have hk : kernelPde = 768 := rfl
  have hb : kernelVbase = 3221225472 := rfl
  have hle := pagingEntries_le hp
  have happly := pagingInit_apply p (v / 2^22)
  rw [mappedBytes_eq hp]
  by_cases hin : kernelVbase ≤ v ∧ v < kernelVbase + pagingEntries p * 2^22
  · rw [if_pos (by omega)] at happly
    have hmod : (v / 2^22 - kernelPde) * 2^22 + v % 2^22 = v - kernelVbase := by omega
    rw [if_pos hin, translate_large (by omega) happly, hmod]
    unfold v2p
    rw [sub32_eq hin.1 hv]
  · rw [if_neg (by omega)] at happly
    rw [if_neg hin]
    exact translate_absent happly

end

theorem translate_boot {v : Nat} (h1 : kernelVbase ≤ v) (h2 : v < 2^32) :
    translate bootPageDirectory v = some (v2p v) := by
  have hk : kernelPde = 768 := rfl
  have hb : kernelVbase = 3221225472 := rfl
  have hpde : bootPageDirectory (v / 2^22) = largePde (v / 2^22 - kernelPde) :=
    bootPageDirectory_window (by omega) (by omega)
  have hmod : (v / 2^22 - kernelPde) * 2^22 + v % 2^22 = v - kernelVbase := by omega
  rw [translate_large (by omega) hpde, hmod]
  unfold v2p
  rw [sub32_eq h1 h2]

/-- the entries counted so far -/
theorem mapped_count {p : Pmm} (hp : p.totalFrames ≤ maxFrames) {n : Nat} (hn : n ≤ 1024) :
    (List.range n).foldl
      (fun k i => if pagingInit p i &&& pdePresent ≠ 0 then add32 k 1 else k) 0 =
      min n (kernelPde + pagingEntries p) - kernelPde := by
  have hk : kernelPde = 768 := rfl
  have hle := pagingEntries_le hp
  induction n with
  | zero => simp
  | succ n ih =>
    rw [List.range_succ, List.foldl_append, ih (by omega)]
    show (if pagingInit p n &&& pdePresent ≠ 0 then _ else _) = _
    rw [pagingInit_apply]
    by_cases hin : kernelPde ≤ n ∧ n < kernelPde + pagingEntries p
    · rw [if_pos hin, if_pos (largePde_bits _ (by omega)).1, add32_eq (by omega)]
      omega
    · rw [if_neg hin, if_neg (by simp)]
      omega

theorem pagingMappedMib_eq {p : Pmm} (hp : p.totalFrames ≤ maxFrames) :
    pagingMappedMib (pagingInit p) = pagingEntries p * 4 := by
  have hk : kernelPde = 768 := rfl
  have hle := pagingEntries_le hp
  unfold pagingMappedMib
  rw [mapped_count hp (le_refl _)]
  omega

/-- The final directory maps the window of the detected memory onto it, as the one of boot.S does,
and nothing else; the window holds every frame. -/
theorem page_directory_exact {p : Pmm} (hp : p.totalFrames ≤ maxFrames) :
    (∀ v < 2^32, translate (pagingInit p) v =
      if kernelVbase ≤ v ∧ v < kernelVbase + mappedBytes p then some (v2p v) else none) ∧
    (∀ v < 2^32, ∀ a, translate (pagingInit p) v = some a → translate bootPageDirectory v = some a) ∧
    (∀ v < kernelVbase, translate (pagingInit p) v = none) ∧
    (∀ q, q.totalFrames = p.totalFrames →
      (∀ f < q.totalFrames, q.bitmap.get f = true) ∨
      ∃ f < q.totalFrames, pmmAllocFrame q = (f * pageSize, markUsed q f) ∧
        ∀ b < pageSize, translate (pagingInit p) (p2v (f * pageSize) + b) = some (f * pageSize + b)) ∧
    pagingMappedMib (pagingInit p) * 2^20 = mappedBytes p := by
  have hb : kernelVbase = 3221225472 := rfl
  have hpage : pageSize = 4096 := rfl
  have hmax : maxFrames = 262144 := rfl
  have hentries := pagingEntries_eq hp
  refine ⟨fun v hv => translate_pagingInit hp hv, ?_, ?_, ?_, ?_⟩
  · intro v hv a ha
    rw [translate_pagingInit hp hv] at ha
    by_cases hin : kernelVbase ≤ v ∧ v < kernelVbase + mappedBytes p
    · rw [if_pos hin] at ha
      rw [← ha]
      exact translate_boot hin.1 hv
    · rw [if_neg hin] at ha
      cases ha
  · intro v hv
    rw [translate_pagingInit hp (by omega), if_neg (by omega)]
  · intro q hq
    rcases pmmAllocFrame_spec (p := q) (by omega) with ⟨f, h1, _, _, e⟩ | ⟨hfull, _⟩
    · right
      refine ⟨f, h1, e, ?_⟩
      intro b hb'
      have hf : f < 262144 := by omega
      have hp2v : p2v (f * pageSize) = f * 4096 + 3221225472 := by
        unfold p2v
        rw [hpage, hb, add32_eq (by omega)]
      have hv2p : v2p (f * 4096 + 3221225472 + b) = f * 4096 + b := by
        unfold v2p
        rw [sub32_eq (by omega) (by omega)]
        omega
      rw [hp2v, translate_pagingInit hp (by omega), mappedBytes_eq hp, if_pos (by omega), hv2p, hpage]
    · exact .inl hfull
  · rw [pagingMappedMib_eq hp, mappedBytes_eq hp]
    omega

theorem page_directory_exact_full :
    pagingMappedMib (pagingInit ⟨fun _ => 0, maxFrames, 0⟩) * 2^20 =
      mappedBytes ⟨fun _ => 0, maxFrames, 0⟩ :=
  (page_directory_exact (p := ⟨fun _ => 0, maxFrames, 0⟩) (le_refl _)).2.2.2.2

/-! ## the numbers of a booted machine -/

/-- `pmm_total_kib` is the memory of the machine; what is reserved lies in it, and in the window;
and `cmd_free` prints the difference of the two counters. -/
def Accounting (k : Kheap) (mbi : MultibootInfo) (p : Pmm) : Prop :=
  pmmTotalKib p = min ((1024 + mbi.memUpper.toNat) / 4 * 4) (1024 * 1024) ∧
  v2p (kheapEndAddr k) ≤ pmmTotalKib p * 1024 ∧
  (∀ v, kernelVbase ≤ v → v < kheapEndAddr k → translate (pagingInit p) v ≠ none) ∧
  pmmUsedKib p ≤ pmmTotalKib p ∧
  sub32 (pmmTotalKib p) (pmmUsedKib p) + pmmUsedKib p = pmmTotalKib p

theorem Image.inHigherHalf (img : Image) : HigherHalf img.kernelEnd := by
  have h := img.higherHalf
  have hb : kernelVbase = 0xC0000000 := rfl
  exact ⟨by omega, le_of_lt img.fits⟩

/-- after boot `used_frames` is the number of reserved frames -/
theorem pmmInit_used {kernelEnd : Nat} (hk : HigherHalf kernelEnd) {p : Pmm} (hp : PmmInv p)
    (hget : ∀ j, p.bitmap.get j = decide (j < reservedFrames kernelEnd)) :
    p.usedFrames = reservedFrames kernelEnd := by
  have hle := (reservedFrames_bounds hk).2
  have e : p.bitmap.members maxFrames = Finset.range (reservedFrames kernelEnd) := by
    ext j
    rw [Bitmap.mem_members, Finset.mem_range, hget, decide_eq_true_eq]
    omega
  rw [hp.used]
  unfold Bitmap.count
  rw [e, Finset.card_range]

/-- the region of the kernel and its heap, seen from virtual and from physical addresses -/
theorem heap_end (img : Image) (m : Mem) :
    kernelVbase + reservedFrames img.kernelEnd * 4096 = kheapEndAddr (kheapInit img.kernelEnd m) ∧
      v2p (kheapEndAddr (kheapInit img.kernelEnd m)) = reservedFrames img.kernelEnd * 4096 := by
  have hres : v2p (kheapEndAddr (kheapInit img.kernelEnd m)) = reservedFrames img.kernelEnd * 4096 :=
    reservedEnd_eq img.inHigherHalf m
  have hend : kheapEndAddr (kheapInit img.kernelEnd m) = img.base + heapSize :=
    add32_eq img.base_fits
  have hlow : kernelVbase ≤ img.base + heapSize := by
    have h := img.higherHalf
    have hb : kernelVbase = 0xC0000000 := rfl
    rw [img.base_eq]
    omega
  refine ⟨?_, hres⟩
  have hv2p : v2p (img.base + heapSize) = img.base + heapSize - kernelVbase :=
    sub32_eq hlow img.base_fits
  rw [hend, hv2p] at hres
  rw [hend]
  omega

/-- what `pmm_init` leaves in the two counters -/
theorem boot_counters (img : Image) (m : Mem) {mbi : MultibootInfo} {p : Pmm}
    (h : pmmInit (kheapInit img.kernelEnd m) mbi = .ok p) :
    p.totalFrames = min ((1024 + mbi.memUpper.toNat) % 2^32 / 4) 262144 ∧
      p.usedFrames = reservedFrames img.kernelEnd := by
  have hmem : mbi.flags &&& multibootFlagMem ≠ 0 := by
    intro e
    unfold pmmInit at h
    rw [if_pos e] at h
    cases h
  obtain ⟨q, h1, hinv, htotal, hget⟩ := pmmInit_spec img.inHigherHalf m hmem
  rw [h1] at h
  cases h
  refine ⟨?_, pmmInit_used img.inHigherHalf hinv hget⟩
  have hpage : pageSize = 4096 := rfl
  have hmax : maxFrames = 262144 := rfl
  rw [htotal]
  unfold detectedFrames add32
  dsimp only
  rw [hpage, hmax]
  split <;> omega

/-- The numbers fit exactly if the memory can be counted in 32 bits and holds the kernel and its
heap. -/
theorem accounting_iff (img : Image) (m : Mem) {mbi : MultibootInfo} {p : Pmm}
    (h : pmmInit (kheapInit img.kernelEnd m) mbi = .ok p) :
    Accounting (kheapInit img.kernelEnd m) mbi p ↔
      1024 + mbi.memUpper.toNat < 2^32 ∧
        v2p (kheapEndAddr (kheapInit img.kernelEnd m)) ≤ (1024 + mbi.memUpper.toNat) / 4 * 4096 := by
  obtain ⟨htotal, hused⟩ := boot_counters img m h
  obtain ⟨hend, hv2p⟩ := heap_end img m
  have hfits : kheapEndAddr (kheapInit img.kernelEnd m) < 2^32 := Nat.mod_lt _ (by norm_num)
  have hb : kernelVbase = 3221225472 := rfl
  have hle : p.totalFrames ≤ maxFrames := by
    rw [htotal]
    exact min_le_right _ _
  have hframes := pagingEntries_eq hle
  have hbound := (reservedFrames_bounds img.inHigherHalf).2
  have hmax : maxFrames = 262144 := rfl
  have hupper := mbi.memUpper.toNat_lt
  have husedKib : pmmUsedKib p = reservedFrames img.kernelEnd * 4 := by
    show p.usedFrames * 4 % 2^32 = _
    omega
  unfold Accounting
  rw [hv2p, husedKib, pmmTotalKib_eq hle]
  constructor
  · rintro ⟨e1, e2, _⟩
    omega
  · rintro ⟨e1, e2⟩
    have htotal' : p.totalFrames = min ((1024 + mbi.memUpper.toNat) / 4) 262144 := by
      rw [htotal, Nat.mod_eq_of_lt e1]
    have hin : reservedFrames img.kernelEnd ≤ p.totalFrames := by omega
    refine ⟨?_, ?_, ?_, ?_, ?_⟩
    · rw [htotal']
      omega
    · rw [Nat.mul_assoc]
      exact Nat.mul_le_mul_right 4096 hin
    · intro v h3 h4
      rw [translate_pagingInit hle (by omega), mappedBytes_eq hle, if_pos (by omega)]
      simp
    · omega
    · rw [sub32_eq (by omega) (by omega)]
      omega

theorem accounting_iff_128_mib :
    ∃ p, pmmInit (kheapInit sampleImage.kernelEnd fun _ => 0) sampleInfo = .ok p ∧
      Accounting (kheapInit sampleImage.kernelEnd fun _ => 0) sampleInfo p := by
  obtain ⟨p, h, _⟩ := pmmInit_spec sampleImage.inHigherHalf (fun _ => 0) sampleInfo_mem
  refine ⟨p, h, (accounting_iff sampleImage _ h).mpr ⟨by decide, ?_⟩⟩
  rw [(heap_end sampleImage _).2]
  decide

/-- A machine with 4 MiB: kernel and heap end at 5.125 MiB, and more is in use than there is. -/
theorem accounting_4_mib :
    ∃ p, pmmInit (kheapInit sampleImage.kernelEnd fun _ => 0) ⟨1, 3072⟩ = .ok p ∧
      ¬ Accounting (kheapInit sampleImage.kernelEnd fun _ => 0) ⟨1, 3072⟩ p := by
  have hmem : (⟨1, 3072⟩ : MultibootInfo).flags &&& multibootFlagMem ≠ 0 := by decide
  obtain ⟨p, h, _⟩ := pmmInit_spec sampleImage.inHigherHalf (fun _ => 0) hmem
  refine ⟨p, h, ?_⟩
  rintro ⟨htotal, hin, _⟩
  rw [htotal, (heap_end sampleImage _).2] at hin
  exact absurd hin (by decide)

end Raptor
