import RaptorKernel.Base
import RaptorKernel.Theory.Search

/-!
# lib/string.c: memset, memmove, memcmp, strlen, strlcpy, strncmp, strstr

Byte-at-a-time loops over a byte memory; the loop counter runs down, the pointers run up.
`memcmp`, `strncmp` and `strstr` only read, and are given the bytes, or the texts before the NULs.

`HasStr m a t`: the bytes `t` and then a NUL stand at `a`.  `strlcpy_append` is the idiom
`strlcpy(buf + strlen(buf), c, len - strlen(buf))`: the text in the buffer, followed by `c`, cut to
`len - 1` bytes.
-/

namespace Raptor
open Mem

/-- a NUL-terminated string: the bytes before the NUL -/
structure CStr where
  bytes : List UInt8
  nulFree : 0 ∉ bytes

/-- `memset`: `while (n--) *d++ = c` -/
def memset (m : Mem) (d : Nat) (c : UInt8) : Nat → Mem
  | 0 => m
  | n+1 => memset (Function.update m d c) (add32 d 1) c n

theorem memset_eq_fill (m : Mem) (d : Nat) (c : UInt8) (n : Nat) (h : d + n ≤ 2^32) :
    memset m d c n = fill m d c n := by
  induction n generalizing m d with
  | zero =>
    funext x
    have h1 : ¬ (d ≤ x ∧ x < d + 0) := by omega
    rw [fill, if_neg h1]
    rfl
  | succ n ih =>
    show memset (Function.update m d c) (add32 d 1) c n = _
    rcases Nat.eq_zero_or_pos n with rfl | hn
    · funext x
      show Function.update m d c x = _
      unfold fill
      by_cases hx : x = d
      · subst hx
        rw [Function.update_self, if_pos (by omega)]
      · rw [Function.update_of_ne hx, if_neg (by omega)]
    · rw [add32_eq (by omega), ih _ _ (by omega)]
      funext x
      unfold fill
      by_cases hx : x = d
      · subst hx
        rw [if_neg (by omega), if_pos (by omega), Function.update_self]
      · rw [Function.update_of_ne hx]
        by_cases h1 : d + 1 ≤ x ∧ x < d + 1 + n
        · rw [if_pos h1, if_pos (by omega)]
        · rw [if_neg h1, if_neg (by omega)]

/-! ## memmove -/

/-- `while (n--) *d++ = *s++` -/
def copyUp (m : Mem) (d s : Nat) : Nat → Mem
  | 0 => m
  | n+1 => copyUp (Function.update m d (m s)) (add32 d 1) (add32 s 1) n

/-- `while (n--) *--d = *--s` -/
def copyDown (m : Mem) (d s : Nat) : Nat → Mem
  | 0 => m
  | n+1 => copyDown (Function.update m (sub32 d 1) (m (sub32 s 1))) (sub32 d 1) (sub32 s 1) n

def memmove (m : Mem) (dst src n : Nat) : Mem :=
  if dst < src then copyUp m dst src n else copyDown m (add32 dst n) (add32 src n) n

/-- upward, what is still to be read is above what was written -/
theorem copyUp_apply {d s n : Nat} (hds : d ≤ s) (hs : s + n ≤ 2^32) (m : Mem) (x : Nat) :
    copyUp m d s n x = if d ≤ x ∧ x < d + n then m (s + (x - d)) else m x := by
  induction n generalizing m d s with
  | zero =>
    rw [if_neg (by omega)]
    rfl
  | succ n ih =>
    unfold copyUp
    rcases Nat.eq_zero_or_pos n with rfl | hn
    · unfold copyUp
      by_cases hx : x = d
      · rw [if_pos (by omega), hx, Nat.sub_self]
        exact Function.update_self _ _ _
      · rw [if_neg (by omega)]
        exact Function.update_of_ne hx _ _
    · rw [add32_eq (by omega), add32_eq (by omega), ih (by omega) (by omega)]
      by_cases hx : d + 1 ≤ x ∧ x < d + 1 + n
      · have e : s + 1 + (x - (d + 1)) = s + (x - d) := by omega
        rw [if_pos hx, if_pos (by omega), e]
        exact Function.update_of_ne (by omega) _ _
      · rw [if_neg hx]
        by_cases hd : x = d
        · rw [if_pos (by omega), hd, Nat.sub_self]
          exact Function.update_self _ _ _
        · rw [if_neg (by omega)]
          exact Function.update_of_ne hd _ _

/-- downward, what is still to be read is below what was written -/
theorem copyDown_apply {d s n : Nat} (hsd : s ≤ d) (hd : d + n ≤ 2^32) (m : Mem) (x : Nat) :
    copyDown m ((d + n) % 2^32) ((s + n) % 2^32) n x =
      if d ≤ x ∧ x < d + n then m (s + (x - d)) else m x := by
  induction n generalizing m with
  | zero =>
    rw [if_neg (by omega)]
    rfl
  | succ n ih =>
    have hd' : sub32 ((d + (n + 1)) % 2^32) 1 = (d + n) % 2^32 := by
      unfold sub32
      omega
    have hs' : sub32 ((s + (n + 1)) % 2^32) 1 = (s + n) % 2^32 := by
      unfold sub32
      omega
    unfold copyDown
    rw [hd', hs', Nat.mod_eq_of_lt (a := s + n) (by omega), Nat.mod_eq_of_lt (a := d + n) (by omega)]
    have h := ih (by omega) (Function.update m (d + n) (m (s + n)))
    rw [Nat.mod_eq_of_lt (by omega), Nat.mod_eq_of_lt (by omega)] at h
    rw [h]
    by_cases hx : d ≤ x ∧ x < d + n
    · rw [if_pos hx, if_pos (by omega)]
      exact Function.update_of_ne (by omega) _ _
    · rw [if_neg hx]
      by_cases he : x = d + n
      · have e : s + (d + n - d) = s + n := by omega
        rw [if_pos (by omega), he, e]
        exact Function.update_self _ _ _
      · rw [if_neg (by omega)]
        exact Function.update_of_ne he _ _

/-- `memmove` copies the old bytes, however the ranges overlap -/
theorem memmove_apply {dst src n : Nat} (hd : dst + n ≤ 2^32) (hs : src + n ≤ 2^32) (m : Mem)
    (x : Nat) : memmove m dst src n x =
      if dst ≤ x ∧ x < dst + n then m (src + (x - dst)) else m x := by
  unfold memmove
  split
  · rename_i hlt
    exact copyUp_apply (le_of_lt hlt) hs m x
  · rename_i hge
    exact copyDown_apply (by omega) hd m x

/-- `memmove` puts the bytes the source held at the destination, and touches nothing else. -/
theorem memmove_overlap {dst src n : Nat} (hd : dst + n ≤ 2^32) (hs : src + n ≤ 2^32) (m : Mem) :
    slice (memmove m dst src n) dst n = slice m src n ∧
      AgreeOn (memmove m dst src n) m {x | ¬ (dst ≤ x ∧ x < dst + n)} := by
  constructor
  · apply List.map_congr_left
    intro i hi
    have hi : i < n := List.mem_range.mp hi
    rw [memmove_apply hd hs, if_pos (by omega), Nat.add_sub_cancel_left]
  · intro x hx
    rw [memmove_apply hd hs, if_neg hx]

/-- four bytes, to two bytes further up -/
theorem memmove_overlap_up :
    slice (memmove (fun a => .ofNat a) 102 100 4) 102 4 = [100, 101, 102, 103] ∧
      memmove (fun a => .ofNat a) 102 100 4 101 = 101 := by
  have h := @memmove_overlap 102 100 4 (by decide) (by decide) (fun a => .ofNat a)
  exact ⟨h.1, h.2 101 (by simp)⟩

/-! ## strings -/

/-- `while (*p) p++`, at most once around the address space -/
def strlenLoop (m : Mem) : Nat → Nat → Except Fault Nat
  | 0, _ => .error .diverges
  | fuel+1, p => if m p = 0 then .ok 0 else (strlenLoop m fuel (p + 1)).map (· + 1)

def strlen (m : Mem) (s : Nat) : Except Fault Nat := strlenLoop m (2^32) s

/-- `strlcpy(dst, src, size)`; `src` is the text at the source -/
def strlcpy (m : Mem) (dst : Nat) (src : List UInt8) (size : Nat) : Mem :=
  if size ≠ 0 then
    let n := if src.length < size - 1 then src.length else size - 1
    Function.update (blit m dst (src.take n)) (dst + n) 0
  else m

/-- `memcmp`, of as many bytes as both have -/
def memcmp : List UInt8 → List UInt8 → Int
  | x :: a, y :: b => if x ≠ y then (x.toNat : Int) - y.toNat else memcmp a b
  | _, _ => 0

theorem memcmp_eq_zero {a b : List UInt8} (hlen : a.length = b.length) : memcmp a b = 0 ↔ a = b := by
  induction a generalizing b with
  | nil =>
    have hnil : b = [] := List.length_eq_zero_iff.mp hlen.symm
    rw [hnil]
    exact ⟨fun _ => rfl, fun _ => rfl⟩
  | cons x a ih =>
    cases b with
    | nil => cases hlen
    | cons y b =>
      rw [memcmp]
      by_cases hxy : x = y
      · rw [if_neg (not_not.mpr hxy), ih (Nat.succ.inj hlen), hxy, List.cons.injEq]
        exact ⟨fun h => ⟨rfl, h⟩, fun h => h.2⟩
      · rw [if_pos hxy]
        constructor
        · intro h
          exact absurd (UInt8.toNat_inj.mp (by omega)) hxy
        · intro h
          exact absurd (List.cons.inj h).1 hxy

/-- `strncmp`; past the end of a text there is the NUL -/
def strncmp : List UInt8 → List UInt8 → Nat → Int
  | _, _, 0 => 0
  | [], b, _+1 => 0 - (b.headD 0).toNat
  | x :: a, b, n+1 =>
    if b.head? = some x then strncmp a b.tail n else (x.toNat : Int) - (b.headD 0).toNat

def strstrLoop (needle : List UInt8) : List UInt8 → Option (List UInt8)
  | [] => none
  | x :: hay =>
    if needle.head? = some x ∧ strncmp (x :: hay) needle needle.length = 0 then some (x :: hay)
    else strstrLoop needle hay

/-- `strstr`: the rest of `haystack` from the first occurrence on -/
def strstr (haystack needle : List UInt8) : Option (List UInt8) :=
  if needle = [] then some haystack else strstrLoop needle haystack

/-- the first bytes of a text are those of `b` -/
theorem strncmp_eq_zero {a b : List UInt8} (h0 : 0 ∉ b) : strncmp a b b.length = 0 ↔ b <+: a := by
  induction b generalizing a with
  | nil =>
    cases a with
    | nil => exact ⟨fun _ => List.nil_prefix, fun _ => rfl⟩
    | cons x a => exact ⟨fun _ => List.nil_prefix, fun _ => rfl⟩
  | cons y b ih =>
    have hy : y.toNat ≠ 0 := fun e => h0 (by
      rw [UInt8.toNat_inj.mp (show y.toNat = (0 : UInt8).toNat from e)]
      exact List.mem_cons_self)
    cases a with
    | nil =>
      show 0 - (y.toNat : Int) = 0 ↔ _
      rw [List.prefix_nil]
      constructor
      · intro h
        omega
      · intro h
        cases h
    | cons x a =>
      rw [List.length_cons, strncmp, List.head?_cons, List.cons_prefix_cons, List.tail_cons,
        List.headD_cons]
      by_cases hxy : y = x
      · rw [if_pos (congrArg some hxy), ih fun hmem => h0 (List.mem_cons_of_mem _ hmem)]
        exact ⟨fun h => ⟨hxy, h⟩, fun h => h.2⟩
      · rw [if_neg fun e => hxy (Option.some.inj e)]
        constructor
        · intro h
          exact absurd (UInt8.toNat_inj.mp (by omega)) hxy
        · intro h
          exact absurd h.1 hxy

theorem strstrLoop_eq {needle : List UInt8} (hne : needle ≠ []) (h0 : 0 ∉ needle) (hay : List UInt8) :
    strstrLoop needle hay = (occurrence needle hay).map hay.drop := by
  induction hay with
  | nil =>
    have hnone : occurrence needle [] = none := if_neg hne
    rw [hnone]
    rfl
  | cons x hay ih =>
    have hcmp := strncmp_eq_zero (a := x :: hay) h0
    rw [strstrLoop]
    by_cases hpre : needle <+: x :: hay
    · have hhead : needle.head? = some x := by
        obtain ⟨y, needle, rfl⟩ := List.exists_cons_of_ne_nil hne
        rw [(List.cons_prefix_cons.mp hpre).1]
        rfl
      rw [if_pos ⟨hhead, hcmp.mpr hpre⟩, occurrence_front hpre]
      rfl
    · rw [if_neg fun h => hpre (hcmp.mp h.2), ih, occurrence_cons hpre, Option.map_map]
      rfl

/-- `strstr` is the naive search -/
theorem strstr_eq {needle : List UInt8} (h0 : 0 ∉ needle) (hay : List UInt8) :
    strstr hay needle = (occurrence needle hay).map hay.drop := by
  unfold strstr
  by_cases hne : needle = []
  · rw [if_pos hne, hne, occurrence_front List.nil_prefix]
    rfl
  · rw [if_neg hne]
    exact strstrLoop_eq hne h0 hay

/-- it finds a text exactly where there is one -/
theorem strstr_isSome {needle : List UInt8} (h0 : 0 ∉ needle) (hay : List UInt8) :
    (strstr hay needle).isSome = true ↔ needle <:+: hay := by
  rw [strstr_eq h0, Option.isSome_map]
  exact occurrence_isSome_iff

/-- the text `t`, NUL-terminated, at `a` -/
def HasStr (m : Mem) (a : Nat) (t : List UInt8) : Prop :=
  slice m a t.length = t ∧ m (a + t.length) = 0

theorem HasStr.cons {m : Mem} {a : Nat} {c : UInt8} {t : List UInt8} (h : HasStr m a (c :: t)) :
    m a = c ∧ HasStr m (a + 1) t := by
  obtain ⟨h1, h2⟩ := h
  have e : slice m a (1 + t.length) = c :: t := by
    rw [Nat.add_comm]
    exact h1
  rw [slice_append] at e
  have e1 : slice m a 1 = [m a] := rfl
  rw [e1] at e
  obtain ⟨e2, e3⟩ := List.cons.inj e
  refine ⟨e2, e3, ?_⟩
  rw [Nat.add_assoc, Nat.add_comm 1]
  exact h2

/-- the text at an address is determined by the memory -/
theorem HasStr.unique {m : Mem} {a : Nat} {t u : List UInt8} (ht : HasStr m a t) (hu : HasStr m a u)
    (ht0 : 0 ∉ t) (hu0 : 0 ∉ u) : t = u := by
  induction t generalizing a u with
  | nil =>
    cases u with
    | nil => rfl
    | cons c u =>
      have h1 : m a = 0 := ht.2
      exact absurd (h1.symm.trans hu.cons.1) fun e => hu0 (e ▸ List.mem_cons_self)
  | cons c t ih =>
    cases u with
    | nil =>
      have h1 : m a = 0 := hu.2
      exact absurd (h1.symm.trans ht.cons.1) fun e => ht0 (e ▸ List.mem_cons_self)
    | cons d u =>
      obtain ⟨e1, h1⟩ := ht.cons
      obtain ⟨e2, h2⟩ := hu.cons
      rw [ih h1 h2 (fun h => ht0 (List.mem_cons_of_mem _ h)) fun h => hu0 (List.mem_cons_of_mem _ h),
        ← e1, ← e2]

theorem strlenLoop_spec {m : Mem} {a fuel : Nat} {t : List UInt8} (h : HasStr m a t) (h0 : 0 ∉ t)
    (hf : t.length < fuel) : strlenLoop m fuel a = .ok t.length := by
  induction t generalizing a fuel with
  | nil =>
    obtain ⟨f, rfl⟩ : ∃ f, fuel = f + 1 := ⟨fuel - 1, by simp only [List.length_nil] at hf; omega⟩
    exact if_pos h.2
  | cons c t ih =>
    obtain ⟨f, rfl⟩ : ∃ f, fuel = f + 1 := ⟨fuel - 1, by simp only [List.length_cons] at hf; omega⟩
    obtain ⟨e, h1⟩ := h.cons
    have hc : m a ≠ 0 := fun h2 => h0 (h2 ▸ e ▸ List.mem_cons_self)
    have hrec : strlenLoop m f (a + 1) = .ok t.length :=
      ih h1 (fun h2 => h0 (List.mem_cons_of_mem _ h2)) (by simp only [List.length_cons] at hf; omega)
    show (if m a = 0 then _ else (strlenLoop m f (a + 1)).map (· + 1)) = _
    rw [if_neg hc, hrec]
    rfl

theorem strlen_spec {m : Mem} {a : Nat} {t : List UInt8} (h : HasStr m a t) (h0 : 0 ∉ t)
    (hf : t.length < 2^32) : strlen m a = .ok t.length :=
  strlenLoop_spec h h0 hf

/-- `strlcpy` leaves a text of at most `size - 1` bytes, and touches `size` bytes at most -/
theorem strlcpy_spec (m : Mem) (dst : Nat) (src : List UInt8) {size : Nat} (hs : 1 ≤ size) :
    HasStr (strlcpy m dst src size) dst (src.take (size - 1)) ∧
      ∀ x, x < dst ∨ dst + size ≤ x → strlcpy m dst src size x = m x := by
  have hn : (if src.length < size - 1 then src.length else size - 1) = min (size - 1) src.length := by
    split <;> omega
  have htake : src.take (min (size - 1) src.length) = src.take (size - 1) := by
    rw [Nat.min_def]
    split
    · rfl
    · rw [List.take_of_length_le (le_refl _), List.take_of_length_le (by omega)]
  have hm : strlcpy m dst src size = Function.update (blit m dst (src.take (size - 1)))
      (dst + min (size - 1) src.length) 0 := by
    unfold strlcpy
    rw [if_pos (by omega)]
    simp only [hn, htake]
  have hlen : (src.take (size - 1)).length = min (size - 1) src.length := List.length_take
  rw [hm]
  refine ⟨⟨?_, ?_⟩, fun x hx => ?_⟩
  · have h1 : slice (Function.update (blit m dst (src.take (size - 1)))
        (dst + min (size - 1) src.length) 0) dst (src.take (size - 1)).length =
        slice (blit m dst (src.take (size - 1))) dst (src.take (size - 1)).length :=
      slice_congr fun x _ h2 => Function.update_of_ne (by omega) _ _
    rw [h1, slice_blit_self]
  · rw [hlen, Function.update_self]
  · rw [Function.update_of_ne (by omega)]
    unfold blit
    split
    · rw [List.getElem?_eq_none (by omega)]
      rfl
    · rfl

/-- appending to the text in a buffer of `len` bytes -/
theorem strlcpy_append {m : Mem} {buf len : Nat} {t : List UInt8} (h : HasStr m buf t)
    (ht : t.length < len) (c : List UInt8) :
    HasStr (strlcpy m (buf + t.length) c (len - t.length)) buf ((t ++ c).take (len - 1)) ∧
      ∀ x, x < buf ∨ buf + len ≤ x → strlcpy m (buf + t.length) c (len - t.length) x = m x := by
  obtain ⟨⟨h1, h2⟩, h3⟩ := strlcpy_spec m (buf + t.length) c (show 1 ≤ len - t.length by omega)
  have etake : (t ++ c).take (len - 1) = t ++ c.take (len - t.length - 1) := by
    rw [List.take_append, List.take_of_length_le (by omega)]
    congr 2
    omega
  refine ⟨⟨?_, ?_⟩, fun x hx => h3 x (by omega)⟩
  · rw [etake, List.length_append, slice_append, h1]
    congr 1
    exact (slice_congr fun x _ hx => h3 x (.inl hx)).trans h.1
  · rw [etake, List.length_append, ← Nat.add_assoc]
    exact h2

end Raptor
