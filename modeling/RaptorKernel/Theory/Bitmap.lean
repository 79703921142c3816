import Mathlib

/-!
# Bitmaps

One bit per index, packed into words of `w` bits.

* `Bitmap.get`, `Bitmap.set`, `Bitmap.clear`   bit `i % w` of word `i / w`, by masks;
* `Bitmap.get_set`, `Bitmap.get_clear`         what the updates do to every bit;
* `Bitmap.count`                               the number of bits that are set below a bound.
-/

abbrev Bitmap (w : Nat) := Nat → BitVec w

namespace Bitmap
variable {w : Nat}

def mask (w i : Nat) : BitVec w := 1#w <<< (i % w)

def get (b : Bitmap w) (i : Nat) : Bool := b (i / w) &&& mask w i != 0#w

def set (b : Bitmap w) (i : Nat) : Bitmap w :=
  Function.update b (i / w) (b (i / w) ||| mask w i)

def clear (b : Bitmap w) (i : Nat) : Bitmap w :=
  Function.update b (i / w) (b (i / w) &&& ~~~mask w i)

/-- the bits below `n` that are set -/
def members (b : Bitmap w) (n : Nat) : Finset Nat := (Finset.range n).filter fun i => b.get i = true

def count (b : Bitmap w) (n : Nat) : Nat := (b.members n).card

/-- two indices with the same word and the same bit are equal -/
theorem index_ext {i j : Nat} (h1 : i / w = j / w) (h2 : i % w = j % w) : i = j := by
  rw [← Nat.div_add_mod i w, ← Nat.div_add_mod j w, h1, h2]

theorem mem_members (b : Bitmap w) {n i : Nat} : i ∈ b.members n ↔ i < n ∧ b.get i = true := by
  simp [members]

section
variable [NeZero w] (b : Bitmap w)

theorem mask_bit (i j : Nat) : (mask w i).getLsbD j = decide (j = i % w) := by
  have hi : i % w < w := Nat.mod_lt _ (Nat.pos_of_neZero w)
  unfold mask
  rw [BitVec.getLsbD_shiftLeft, BitVec.getLsbD_one]
  by_cases hj : j = i % w
  · simp [hj, hi, Nat.pos_of_neZero w]
  · by_cases hlt : j < i % w
    · simp [hj, hlt]
    · have h0 : j - i % w ≠ 0 := by omega
      simp [hj, h0]

theorem get_eq (i : Nat) : b.get i = (b (i / w)).getLsbD (i % w) := by
  have hi : i % w < w := Nat.mod_lt _ (Nat.pos_of_neZero w)
  have hbit : ∀ j, (b (i / w) &&& mask w i).getLsbD j =
      ((b (i / w)).getLsbD j && decide (j = i % w)) := by
    intro j
    rw [BitVec.getLsbD_and, mask_bit]
  cases h : (b (i / w)).getLsbD (i % w) with
  | true =>
    have hne : b (i / w) &&& mask w i ≠ 0#w := by
      intro e
      have h1 := hbit (i % w)
      rw [e, h] at h1
      simp at h1
    simpa [get] using hne
  | false =>
    have hz : b (i / w) &&& mask w i = 0#w := by
      apply BitVec.eq_of_getLsbD_eq
      intro j _
      rw [hbit]
      by_cases hj : j = i % w
      · simp [hj, h]
      · simp [hj]
    simp [get, hz]

theorem get_set (i j : Nat) : (b.set i).get j = (b.get j || decide (j = i)) := by
  rw [get_eq, get_eq]
  unfold set
  by_cases hw : j / w = i / w
  · rw [hw, Function.update_self, BitVec.getLsbD_or, mask_bit]
    by_cases hm : j % w = i % w
    · simp [index_ext hw hm]
    · have hne : j ≠ i := fun e => hm (by rw [e])
      simp [hm, hne]
  · have hne : j ≠ i := fun e => hw (by rw [e])
    rw [Function.update_of_ne hw]
    simp [hne]

theorem get_clear (i j : Nat) : (b.clear i).get j = (b.get j && decide (j ≠ i)) := by
  have hj : j % w < w := Nat.mod_lt _ (Nat.pos_of_neZero w)
  rw [get_eq, get_eq]
  unfold clear
  by_cases hw : j / w = i / w
  · rw [hw, Function.update_self, BitVec.getLsbD_and, BitVec.getLsbD_not, mask_bit]
    by_cases hm : j % w = i % w
    · simp [index_ext hw hm]
    · have hne : j ≠ i := fun e => hm (by rw [e])
      simp [hm, hne, hj]
  · have hne : j ≠ i := fun e => hw (by rw [e])
    rw [Function.update_of_ne hw]
    simp [hne]

theorem count_set {n i : Nat} (hi : i < n) (h : b.get i = false) :
    (b.set i).count n = b.count n + 1 := by
  have hnot : i ∉ b.members n := by simp [mem_members, h]
  have e : (b.set i).members n = insert i (b.members n) := by
    ext j
    rw [mem_members, Finset.mem_insert, mem_members, get_set]
    by_cases hj : j = i
    · simp [hj, hi]
    · simp [hj]
  unfold count
  rw [e, Finset.card_insert_of_notMem hnot]

theorem count_clear {n i : Nat} (hi : i < n) (h : b.get i = true) :
    (b.clear i).count n + 1 = b.count n := by
  have hmem : i ∈ b.members n := b.mem_members.mpr ⟨hi, h⟩
  have e : (b.clear i).members n = (b.members n).erase i := by
    ext j
    rw [mem_members, Finset.mem_erase, mem_members, get_clear]
    by_cases hj : j = i
    · simp [hj]
    · simp [hj]
  unfold count
  rw [e, Finset.card_erase_add_one hmem]

end

theorem count_le (b : Bitmap w) (n : Nat) : b.count n ≤ n := by
  have h := Finset.card_filter_le (Finset.range n) fun i => b.get i = true
  rwa [Finset.card_range] at h

theorem get_zero (i : Nat) : get (fun _ => 0#w) i = false := by simp [get]

theorem count_zero (n : Nat) : count (fun _ => 0#w) n = 0 := by
  simp [count, members, get_zero]

end Bitmap
