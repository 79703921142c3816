import RaptorKernel.Lib.StringC

/-!
# lib/string.c: strlen, strncmp and strstr with their pointers

The loops over a memory of which only some bytes may be read; a read of any other byte is a fault.
So a function that returns, whatever may be read besides its strings, has read nothing but these.

* `View`            what may be read;
* `StrAt`           a text and the NUL behind it can be;
* `Ptr.strlen`, `Ptr.strncmp`, `Ptr.strstr`      the functions;
* `Ptr.strlen_spec`, `Ptr.strncmp_spec`, `Ptr.strstr_spec`   on strings they give what they give on texts;
* `strstr_first`    the first occurrence.
-/

namespace Raptor
open Mem

/-- the bytes that may be read -/
abbrev View := Nat → Option UInt8

/-- `*p` -/
def View.read (ρ : View) (p : Nat) : Except Fault UInt8 :=
  match ρ p with
  | some c => .ok c
  | none => .error (.dangling p)

theorem View.read_eq {ρ : View} {p : Nat} {c : UInt8} (h : ρ p = some c) : ρ.read p = .ok c := by
  unfold View.read
  rw [h]

/-! ## strings -/

/-- From the address `a` on, the text `t` and then a NUL can be read. -/
inductive StrAt (ρ : View) : Nat → List UInt8 → Prop
  | nul {a : Nat} (ha : a < 2^32) (h : ρ a = some 0) : StrAt ρ a []
  | cons {a : Nat} {c : UInt8} {t : List UInt8} (ha : a < 2^32) (h : ρ a = some c) (hc : c ≠ 0)
      (ht : StrAt ρ (add32 a 1) t) : StrAt ρ a (c :: t)

theorem add32_zero {a : Nat} (ha : a < 2^32) : add32 a 0 = a := Nat.mod_eq_of_lt ha

theorem add32_succ (a i : Nat) : add32 (add32 a 1) i = add32 a (i + 1) := by
  unfold add32
  omega

namespace StrAt
variable {ρ : View} {a : Nat} {t : List UInt8}

theorem addr_lt (h : StrAt ρ a t) : a < 2^32 := by
  cases h with
  | nul ha => exact ha
  | cons ha => exact ha

/-- the first byte, which is the NUL of an empty text -/
theorem head (h : StrAt ρ a t) : ρ.read a = .ok (t.headD 0) := by
  cases h with
  | nul _ h => exact View.read_eq h
  | cons _ h => exact View.read_eq h

theorem nulFree (h : StrAt ρ a t) : 0 ∉ t := by
  induction h with
  | nul => exact List.not_mem_nil
  | cons _ _ hc _ ih =>
    intro hmem
    obtain h0 | hmem := List.mem_cons.mp hmem
    · exact hc h0.symm
    · exact ih hmem

theorem drop (h : StrAt ρ a t) {i : Nat} (hi : i ≤ t.length) : StrAt ρ (add32 a i) (t.drop i) := by
  induction i generalizing a t with
  | zero =>
    rw [add32_zero h.addr_lt]
    exact h
  | succ i ih =>
    cases h with
    | nul => exact absurd hi (Nat.not_succ_le_zero i)
    | cons _ _ _ ht =>
      rw [← add32_succ]
      exact ih ht (Nat.le_of_succ_le_succ hi)

/-- A text is shorter than the address space: once around it, the NUL would be a byte of the text. -/
theorem length_lt (h : StrAt ρ a t) : t.length < 2^32 := by
  by_contra hge
  have hround : add32 a t.length = add32 a (t.length - 2^32) := by
    unfold add32
    omega
  have hnul := h.drop (le_refl t.length)
  rw [List.drop_length] at hnul
  have hrest := h.drop (Nat.sub_le t.length (2^32))
  rw [← hround] at hrest
  have hlen : (t.drop (t.length - 2^32)).length = 2^32 := by
    rw [List.length_drop]
    omega
  cases hnul with
  | nul _ h0 =>
    generalize t.drop (t.length - 2^32) = u at hrest hlen
    cases hrest with
    | nul => cases hlen
    | cons _ h1 hc => exact hc (Option.some.inj (h1.symm.trans h0))

end StrAt

/-! ## the functions -/

namespace Ptr

/-- `while (*p) p++`, at most once around the address space -/
def strlenLoop (ρ : View) : Nat → Nat → Except Fault Nat
  | 0, _ => .error .diverges
  | fuel+1, p => do
    if (← ρ.read p) ≠ 0 then strlenLoop ρ fuel (add32 p 1) else .ok p

def strlen (ρ : View) (s : Nat) : Except Fault Nat := do
  let p ← strlenLoop ρ (2^32) s
  .ok (sub32 p s)

/-- `while (n && *a && *a == *b)`: what `a`, `b` and `n` are at its end -/
def strncmpLoop (ρ : View) : Nat → Nat → Nat → Except Fault (Nat × Nat × Nat)
  | a, b, 0 => .ok (a, b, 0)
  | a, b, n+1 => do
    if (← ρ.read a) ≠ 0 then
      if (← ρ.read a) = (← ρ.read b) then strncmpLoop ρ (add32 a 1) (add32 b 1) n else .ok (a, b, n + 1)
    else .ok (a, b, n + 1)

def strncmp (ρ : View) (a b n : Nat) : Except Fault Int := do
  let (a, b, n) ← strncmpLoop ρ a b n
  if n ≠ 0 then .ok ((← ρ.read a).toNat - (← ρ.read b).toNat) else .ok 0

/-- `*haystack == *needle && strncmp(haystack, needle, n) == 0` -/
def strstrHit (ρ : View) (haystack needle n : Nat) : Except Fault Bool := do
  if (← ρ.read haystack) = (← ρ.read needle) then (strncmp ρ haystack needle n).map (· == 0) else .ok false

/-- `for (; *haystack; haystack++)`, at most once around the address space; `none` is NULL -/
def strstrLoop (ρ : View) (needle n : Nat) : Nat → Nat → Except Fault (Option Nat)
  | 0, _ => .error .diverges
  | fuel+1, haystack => do
    if (← ρ.read haystack) ≠ 0 then
      if ← strstrHit ρ haystack needle n then .ok (some haystack)
      else strstrLoop ρ needle n fuel (add32 haystack 1)
    else .ok none

def strstr (ρ : View) (haystack needle : Nat) : Except Fault (Option Nat) := do
  let n ← strlen ρ needle
  if n = 0 then .ok (some haystack) else strstrLoop ρ needle n (2^32) haystack

/-! ## on strings -/

section
variable {ρ : View} {a b : Nat} {s t : List UInt8}

theorem strlenLoop_spec (h : StrAt ρ a t) {fuel : Nat} (hf : t.length < fuel) :
    strlenLoop ρ fuel a = .ok (add32 a t.length) := by
  induction h generalizing fuel with
  | nul ha h =>
    obtain ⟨fuel, rfl⟩ := Nat.exists_eq_add_one_of_ne_zero (Nat.ne_of_gt hf)
    unfold strlenLoop
    rw [View.read_eq h, ok_bind, if_neg (not_not.mpr rfl)]
    exact congrArg Except.ok (add32_zero ha).symm
  | cons _ h hc _ ih =>
    rw [List.length_cons] at hf ⊢
    obtain ⟨fuel, rfl⟩ := Nat.exists_eq_add_one_of_ne_zero (Nat.ne_of_gt (Nat.zero_lt_of_lt hf))
    unfold strlenLoop
    rw [View.read_eq h, ok_bind, if_pos hc, ih (Nat.lt_of_succ_lt_succ hf), add32_succ]

theorem strlen_spec (h : StrAt ρ a t) : strlen ρ a = .ok t.length := by
  have hlen := h.length_lt
  have ha := h.addr_lt
  have hsub : sub32 (add32 a t.length) a = t.length := by
    unfold sub32 add32
    omega
  unfold strlen
  rw [strlenLoop_spec h hlen, ok_bind, hsub]

/-- one byte of the loop -/
theorem strncmp_cons {n : Nat} {c : UInt8} (ha : ρ a = some c) (hb : ρ b = some c) (hc : c ≠ 0) :
    strncmp ρ a b (n + 1) = strncmp ρ (add32 a 1) (add32 b 1) n := by
  have hloop : strncmpLoop ρ a b (n + 1) = strncmpLoop ρ (add32 a 1) (add32 b 1) n := by
    rw [strncmpLoop, View.read_eq ha, View.read_eq hb, ok_bind, if_pos hc, ok_bind, ok_bind, if_pos rfl]
  unfold strncmp
  rw [hloop]

/-- the end of the loop -/
theorem strncmp_stop {n : Nat} {x y : UInt8} (ha : ρ.read a = .ok x) (hb : ρ.read b = .ok y)
    (h : ¬ (x ≠ 0 ∧ x = y)) : strncmp ρ a b (n + 1) = .ok (x.toNat - y.toNat) := by
  have hloop : strncmpLoop ρ a b (n + 1) = .ok (a, b, n + 1) := by
    rw [strncmpLoop, ha, hb, ok_bind]
    by_cases hx : x ≠ 0
    · rw [if_pos hx, ok_bind, ok_bind, if_neg fun e => h ⟨hx, e⟩]
    · rw [if_neg hx]
  unfold strncmp
  rw [hloop, ok_bind]
  dsimp only
  rw [if_pos (Nat.succ_ne_zero n), ha, hb]
  rfl

/-- whatever `n` is, both texts and their NULs are all it reads -/
theorem strncmp_spec (hs : StrAt ρ a s) (ht : StrAt ρ b t) (n : Nat) :
    strncmp ρ a b n = .ok (Raptor.strncmp s t n) := by
  induction n generalizing a b s t with
  | zero =>
    cases s with
    | nil => rfl
    | cons x s => rfl
  | succ n ih =>
    cases hs with
    | nul ha h =>
      rw [strncmp_stop (View.read_eq h) ht.head fun hx => hx.1 rfl]
      rfl
    | @cons _ x s ha h hx hs =>
      rw [Raptor.strncmp]
      by_cases hhead : t.head? = some x
      · rw [if_pos hhead]
        cases ht with
        | nul => cases hhead
        | cons _ hb _ ht =>
          cases hhead
          rw [strncmp_cons h hb hx]
          exact ih hs ht
      · rw [if_neg hhead]
        refine strncmp_stop (View.read_eq h) ht.head fun hxy => hhead ?_
        obtain ⟨hx, hxy⟩ := hxy
        cases t with
        | nil => exact absurd hxy hx
        | cons y t => exact congrArg some hxy.symm

theorem strstrHit_spec (hs : StrAt ρ a s) (ht : StrAt ρ b t) (hne : t ≠ []) :
    strstrHit ρ a b t.length = .ok (decide (t <+: s)) := by
  have hcmp := strncmp_eq_zero (a := s) ht.nulFree
  have hbeq : (Raptor.strncmp s t t.length == 0) = decide (t <+: s) := by
    rw [Bool.eq_iff_iff, beq_iff_eq, decide_eq_true_iff, hcmp]
  unfold strstrHit
  rw [hs.head, ht.head, ok_bind, ok_bind]
  by_cases hhead : s.headD 0 = t.headD 0
  · rw [if_pos hhead, strncmp_spec hs ht, ← hbeq]
    rfl
  · have hno : ¬ t <+: s := by
      intro hpre
      apply hhead
      obtain ⟨y, t, rfl⟩ := List.exists_cons_of_ne_nil hne
      obtain ⟨u, rfl⟩ := hpre
      rfl
    rw [if_neg hhead, decide_eq_false hno]

theorem strstrLoop_spec (hs : StrAt ρ a s) (ht : StrAt ρ b t) (hne : t ≠ []) {fuel : Nat}
    (hf : s.length < fuel) : strstrLoop ρ b t.length fuel a = .ok ((occurrence t s).map (add32 a)) := by
  induction hs generalizing fuel with
  | nul ha h =>
    obtain ⟨fuel, rfl⟩ := Nat.exists_eq_add_one_of_ne_zero (Nat.ne_of_gt hf)
    have hnone : occurrence t [] = none := if_neg hne
    unfold strstrLoop
    rw [View.read_eq h, ok_bind, if_neg (not_not.mpr rfl), hnone]
    rfl
  | @cons a c s ha h hc hs ih =>
    rw [List.length_cons] at hf
    obtain ⟨fuel, rfl⟩ := Nat.exists_eq_add_one_of_ne_zero (Nat.ne_of_gt (Nat.zero_lt_of_lt hf))
    unfold strstrLoop
    rw [View.read_eq h, ok_bind, if_pos hc, strstrHit_spec (.cons ha h hc hs) ht hne, ok_bind]
    by_cases hpre : t <+: c :: s
    · rw [if_pos (decide_eq_true hpre), occurrence_front hpre, Option.map_some, add32_zero ha]
    · rw [if_neg (fun e => hpre (of_decide_eq_true e)), ih (Nat.lt_of_succ_lt_succ hf),
        occurrence_cons hpre, Option.map_map]
      -- an offset in the rest is one more in the text
      congr 2
      funext i
      exact add32_succ a i

/-- `strstr` is the naive search, as an offset from `haystack` -/
theorem strstr_spec (hs : StrAt ρ a s) (ht : StrAt ρ b t) :
    strstr ρ a b = .ok ((occurrence t s).map (add32 a)) := by
  unfold strstr
  rw [strlen_spec ht, ok_bind]
  cases t with
  | nil =>
    rw [if_pos List.length_nil, occurrence_front List.nil_prefix, Option.map_some,
      add32_zero hs.addr_lt]
  | cons y t =>
    have hlen : (y :: t).length ≠ 0 := Nat.succ_ne_zero t.length
    rw [if_neg hlen]
    exact strstrLoop_spec hs ht (List.cons_ne_nil y t) hs.length_lt

end

end Ptr

/-- `strstr` finds the first occurrence, and NULL stands for none; and whatever may be read besides the
two strings, neither it nor `strncmp` reads anything else. -/
theorem strstr_first {ρ : View} {haystack needle : Nat} {s t : List UInt8} (hs : StrAt ρ haystack s)
    (ht : StrAt ρ needle t) :
    (∃ r, Ptr.strstr ρ haystack needle = .ok r ∧
      (∀ i, IsLeast {i | t <+: s.drop i} i → r = some (add32 haystack i)) ∧
      (r = none ↔ ∀ i, ¬ t <+: s.drop i)) ∧
    ∀ n, ∃ d, Ptr.strncmp ρ haystack needle n = .ok d := by
  refine ⟨⟨_, Ptr.strstr_spec hs ht, ?_, ?_⟩, fun n => ⟨_, Ptr.strncmp_spec hs ht n⟩⟩
  · intro i hi
    rw [occurrence_eq_some_iff.mpr hi]
    rfl
  · rw [Option.map_eq_none_iff]
    exact occurrence_eq_none_iff

/-- "aab" and "ab", and nothing else -/
def twoTexts : View := fun p =>
  if p < 0x1004 then if 0x1000 ≤ p then [0x61, 0x61, 0x62, 0][p - 0x1000]? else none
  else if 0x2000 ≤ p then [0x61, 0x62, 0][p - 0x2000]? else none

theorem strstr_first_twoTexts : Ptr.strstr twoTexts 0x1000 0x2000 = .ok (some 0x1001) := by
  have hs : StrAt twoTexts 0x1000 [0x61, 0x61, 0x62] :=
    .cons (by decide) rfl (by decide) (.cons (by decide) rfl (by decide)
      (.cons (by decide) rfl (by decide) (.nul (by decide) rfl)))
  have ht : StrAt twoTexts 0x2000 [0x61, 0x62] :=
    .cons (by decide) rfl (by decide) (.cons (by decide) rfl (by decide) (.nul (by decide) rfl))
  obtain ⟨⟨r, hr, hfirst, _⟩, _⟩ := strstr_first hs ht
  have hleast : IsLeast {i | [0x61, 0x62] <+: List.drop i ([0x61, 0x61, 0x62] : List UInt8)} 1 := by
    refine ⟨show _ <+: _ by decide, fun i hi => Nat.pos_of_ne_zero fun e => ?_⟩
    subst e
    exact absurd (show _ <+: _ from hi) (by decide)
  rw [hr, hfirst 1 hleast]
  rfl

end Raptor
