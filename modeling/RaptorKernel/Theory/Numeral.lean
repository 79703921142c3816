import Mathlib

/-!
# Numerals

A numeral over an alphabet: the letters are the digits, in the order of their values, and the most
significant digit comes first.

* `numVal`, `IsNumeral`   the value, and what counts as a numeral;
* `numVal_append`, `numVal_zeros`, `IsNumeral.zeros`, `numVal_lt`   the rules;
* `Denotes`               a numeral for an integer, perhaps with a sign; `ShortestLength`: no numeral is shorter;
* `shortest_pos`, `shortest_neg`   those without leading zeros are the shortest.
-/

section
variable {α : Type*} [DecidableEq α] (alphabet : List α)

def numVal (t : List α) : Nat := t.foldl (fun n c => n * alphabet.length + alphabet.idxOf c) 0

def IsNumeral (t : List α) : Prop := t ≠ [] ∧ ∀ c ∈ t, c ∈ alphabet

theorem numVal_concat (t : List α) (c : α) :
    numVal alphabet (t ++ [c]) = numVal alphabet t * alphabet.length + alphabet.idxOf c := by
  unfold numVal
  rw [List.foldl_append]
  rfl

theorem numVal_append (s t : List α) :
    numVal alphabet (s ++ t) = numVal alphabet s * alphabet.length ^ t.length + numVal alphabet t := by
  induction t using List.reverseRecOn with
  | nil =>
    rw [List.append_nil, List.length_nil, pow_zero, mul_one]
    rfl
  | append_singleton t c ih =>
    rw [← List.append_assoc, numVal_concat, ih, numVal_concat, List.length_append,
      List.length_singleton, pow_succ, add_mul, mul_assoc, add_assoc]

variable {alphabet}

/-- leading zeros -/
theorem numVal_zeros {z : α} (hz : alphabet.idxOf z = 0) (n : Nat) (t : List α) :
    numVal alphabet (List.replicate n z ++ t) = numVal alphabet t := by
  have hzeros : numVal alphabet (List.replicate n z) = 0 := by
    induction n with
    | zero => rfl
    | succ n ih => rw [List.replicate_succ', numVal_concat, ih, zero_mul, hz]
  rw [numVal_append, hzeros, zero_mul, zero_add]

omit [DecidableEq α] in
/-- zeros in front keep a numeral one -/
theorem IsNumeral.zeros {z : α} {t : List α} (h : IsNumeral alphabet t) (hz : z ∈ alphabet) (n : Nat) :
    IsNumeral alphabet (List.replicate n z ++ t) := by
  refine ⟨fun e => h.1 (List.append_eq_nil_iff.mp e).2, ?_⟩
  intro c hc
  rcases List.mem_append.mp hc with hc | hc
  · rw [List.eq_of_mem_replicate hc]
    exact hz
  · exact h.2 c hc

theorem numVal_lt {t : List α} (h : ∀ c ∈ t, c ∈ alphabet) :
    numVal alphabet t < alphabet.length ^ t.length := by
  induction t using List.reverseRecOn with
  | nil => exact Nat.one_pos
  | append_singleton t c ih =>
    have hlow : numVal alphabet t + 1 ≤ alphabet.length ^ t.length :=
      ih fun b hb => h b (List.mem_append_left _ hb)
    have hc : alphabet.idxOf c < alphabet.length :=
      List.idxOf_lt_length_of_mem (h c (List.mem_append_right _ List.mem_cons_self))
    rw [numVal_concat, List.length_append, List.length_singleton, pow_succ]
    calc numVal alphabet t * alphabet.length + alphabet.idxOf c
        < numVal alphabet t * alphabet.length + alphabet.length := Nat.add_lt_add_left hc _
      _ = (numVal alphabet t + 1) * alphabet.length := (Nat.succ_mul _ _).symm
      _ ≤ alphabet.length ^ t.length * alphabet.length := Nat.mul_le_mul_right _ hlow

/-! ## integers -/

/-- the texts for `v` -/
inductive Denotes (alphabet : List α) (minus : α) : Int → List α → Prop
  | pos {t : List α} (h : IsNumeral alphabet t) : Denotes alphabet minus (numVal alphabet t) t
  | neg {t : List α} (h : IsNumeral alphabet t) :
      Denotes alphabet minus (-(numVal alphabet t : Int)) (minus :: t)

/-- the sign comes first -/
theorem Denotes.minus_not_mem {minus : α} {v : Int} {t : List α} (h : Denotes alphabet minus v t)
    (hm : minus ∉ alphabet) : minus ∉ t.tail := by
  cases h with
  | pos h => exact fun hmem => hm (h.2 _ (List.mem_of_mem_tail hmem))
  | neg h => exact fun hmem => hm (h.2 _ hmem)

/-- `n` is the length of the shortest text for `v` -/
def ShortestLength (alphabet : List α) (minus : α) (v : Int) (n : Nat) : Prop :=
  IsLeast {k | ∃ t, Denotes alphabet minus v t ∧ t.length = k} n

/-- no leading zero, except for zero itself -/
def NoLeadingZero (alphabet t : List α) : Prop :=
  t.length = 1 ∨ alphabet.length ^ (t.length - 1) ≤ numVal alphabet t

theorem NoLeadingZero.length_le (hb : 1 < alphabet.length) {s t : List α} (ht : NoLeadingZero alphabet t)
    (hs : IsNumeral alphabet s) (h : numVal alphabet s = numVal alphabet t) : t.length ≤ s.length := by
  have hpos : 0 < s.length := List.length_pos_iff.mpr hs.1
  rcases ht with h1 | hlead
  · omega
  · rw [← h] at hlead
    have hlt := (Nat.pow_lt_pow_iff_right hb).mp (hlead.trans_lt (numVal_lt hs.2))
    omega

variable {minus : α} {t : List α}

theorem shortest_pos (hb : 1 < alphabet.length) (h : IsNumeral alphabet t) (ht : NoLeadingZero alphabet t) :
    ShortestLength alphabet minus (numVal alphabet t) t.length := by
  refine ⟨⟨t, .pos h, rfl⟩, ?_⟩
  intro k ⟨s, hs, hk⟩
  rw [← hk]
  generalize hv : (numVal alphabet t : Int) = v at hs
  cases hs with
  | pos hs => exact ht.length_le hb hs (by omega)
  | @neg s hs =>
    rw [List.length_cons]
    exact Nat.le_succ_of_le (ht.length_le hb hs (by omega))

theorem shortest_neg (hb : 1 < alphabet.length) (h : IsNumeral alphabet t) (ht : NoLeadingZero alphabet t)
    (h0 : 0 < numVal alphabet t) :
    ShortestLength alphabet minus (-(numVal alphabet t : Int)) (t.length + 1) := by
  refine ⟨⟨minus :: t, .neg h, rfl⟩, ?_⟩
  intro k ⟨s, hs, hk⟩
  rw [← hk]
  generalize hv : -(numVal alphabet t : Int) = v at hs
  cases hs with
  | pos hs => omega
  | @neg s hs =>
    rw [List.length_cons]
    exact Nat.succ_le_succ (ht.length_le hb hs (by omega))

end
