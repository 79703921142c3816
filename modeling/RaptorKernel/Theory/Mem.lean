import Mathlib

/-!
# Byte memories

A memory is a total map from addresses to bytes.  Words are stored little-endian, as four
consecutive bytes.

* `load32`, `store32`    a 32-bit word at an address; a store reduces its value modulo `2^32`;
* `AgreeOn m m' S`       the two memories hold the same byte at every address of `S`;
* `load32_store32_ne`    a store leaves every word that does not overlap it alone;
* `fill`, `blit`         a run of equal bytes, a run of given bytes.
-/

abbrev Mem := Nat → UInt8

namespace Mem

def load32 (m : Mem) (a : Nat) : Nat :=
  (m a).toNat + 2^8 * (m (a+1)).toNat + 2^16 * (m (a+2)).toNat + 2^24 * (m (a+3)).toNat

def store32 (m : Mem) (a v : Nat) : Mem :=
  Function.update (Function.update (Function.update (Function.update m
    a (UInt8.ofNat v)) (a+1) (UInt8.ofNat (v / 2^8))) (a+2) (UInt8.ofNat (v / 2^16)))
    (a+3) (UInt8.ofNat (v / 2^24))

/-- the two memories agree on every address of `S` -/
def AgreeOn (m m' : Mem) (S : Set Nat) : Prop := ∀ x ∈ S, m x = m' x

/-! ## words -/

theorem load32_lt (m : Mem) (a : Nat) : load32 m a < 2^32 := by
  have h0 := (m a).toNat_lt
  have h1 := (m (a+1)).toNat_lt
  have h2 := (m (a+2)).toNat_lt
  have h3 := (m (a+3)).toNat_lt
  unfold load32
  omega

theorem load32_congr {m m' : Mem} {a : Nat} (h : ∀ x, a ≤ x → x < a + 4 → m x = m' x) :
    load32 m a = load32 m' a := by
  unfold load32
  rw [h a (by omega) (by omega), h (a+1) (by omega) (by omega), h (a+2) (by omega) (by omega),
    h (a+3) (by omega) (by omega)]

theorem store32_apply_ne {m : Mem} {a v x : Nat} (h : x < a ∨ a + 4 ≤ x) :
    store32 m a v x = m x := by
  unfold store32
  rw [Function.update_of_ne (by omega), Function.update_of_ne (by omega),
    Function.update_of_ne (by omega), Function.update_of_ne (by omega)]

theorem load32_store32_same (m : Mem) (a v : Nat) : load32 (store32 m a v) a = v % 2^32 := by
  have e0 : store32 m a v a = UInt8.ofNat v := by
    unfold store32
    rw [Function.update_of_ne (by omega), Function.update_of_ne (by omega),
      Function.update_of_ne (by omega), Function.update_self]
  have e1 : store32 m a v (a+1) = UInt8.ofNat (v / 2^8) := by
    unfold store32
    rw [Function.update_of_ne (by omega), Function.update_of_ne (by omega), Function.update_self]
  have e2 : store32 m a v (a+2) = UInt8.ofNat (v / 2^16) := by
    unfold store32
    rw [Function.update_of_ne (by omega), Function.update_self]
  have e3 : store32 m a v (a+3) = UInt8.ofNat (v / 2^24) := by
    unfold store32
    rw [Function.update_self]
  unfold load32
  rw [e0, e1, e2, e3, UInt8.toNat_ofNat', UInt8.toNat_ofNat', UInt8.toNat_ofNat',
    UInt8.toNat_ofNat']
  omega

theorem load32_store32_of_lt {m : Mem} {a v : Nat} (hv : v < 2^32) :
    load32 (store32 m a v) a = v := by
  rw [load32_store32_same, Nat.mod_eq_of_lt hv]

theorem load32_store32_ne {m : Mem} {a b v : Nat} (h : b + 4 ≤ a ∨ a + 4 ≤ b) :
    load32 (store32 m a v) b = load32 m b :=
  load32_congr fun x h1 h2 => store32_apply_ne (by omega)

theorem load32_update_ne {m : Mem} {a b : Nat} {v : UInt8} (h : a < b ∨ b + 4 ≤ a) :
    load32 (Function.update m a v) b = load32 m b :=
  load32_congr fun x h1 h2 => Function.update_of_ne (by omega) _ _

/-! ## runs of bytes -/

/-- the memory with `n` copies of `v` from `a` on -/
def fill (m : Mem) (a : Nat) (v : UInt8) (n : Nat) : Mem :=
  fun x => if a ≤ x ∧ x < a + n then v else m x

/-- the memory with the bytes `bs` from `a` on -/
def blit (m : Mem) (a : Nat) (bs : List UInt8) : Mem :=
  fun x => if a ≤ x then (bs[x - a]?).getD (m x) else m x

/-- the `n` bytes from `a` on -/
def slice (m : Mem) (a n : Nat) : List UInt8 := (List.range n).map fun i => m (a + i)

theorem slice_length (m : Mem) (a n : Nat) : (slice m a n).length = n := by simp [slice]

theorem slice_append (m : Mem) (a n k : Nat) :
    slice m a (n + k) = slice m a n ++ slice m (a + n) k := by
  unfold slice
  rw [List.range_add, List.map_append, List.map_map]
  congr 1
  exact List.map_congr_left fun i _ => by simp [Nat.add_assoc]

theorem slice_congr {m m' : Mem} {a n : Nat} (h : ∀ x, a ≤ x → x < a + n → m x = m' x) :
    slice m a n = slice m' a n :=
  List.map_congr_left fun i hi => h _ (by omega) (by have := List.mem_range.mp hi; omega)

theorem slice_blit_self (m : Mem) (a : Nat) (bs : List UInt8) :
    slice (blit m a bs) a bs.length = bs := by
  refine List.ext_getElem (slice_length _ _ _) fun i h1 h2 => ?_
  simp [slice, blit, h2]

theorem blit_apply_ne {m : Mem} {a x : Nat} {bs : List UInt8} (h : x < a ∨ a + bs.length ≤ x) :
    blit m a bs x = m x := by
  unfold blit
  by_cases hx : a ≤ x
  · rw [if_pos hx, List.getElem?_eq_none (by omega)]
    rfl
  · rw [if_neg hx]

theorem blit_nil (m : Mem) (a : Nat) : blit m a [] = m := by
  funext x
  unfold blit
  split <;> simp

theorem slice_blit_ne {m : Mem} {a n b : Nat} {bs : List UInt8}
    (h : a + n ≤ b ∨ b + bs.length ≤ a) : slice (blit m b bs) a n = slice m a n :=
  slice_congr fun _ _ _ => blit_apply_ne (by omega)

end Mem
