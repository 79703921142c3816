import Mathlib

/-!
# Searching a text

The offset of the first occurrence of a pattern, by trying every position in turn.

* `occurrence pat text`        the naive search;
* `occurrence_eq_some_iff`     it finds the least offset at which `pat` begins;
* `occurrence_eq_none_iff`     and nothing only if there is none;
* `occurrence_isSome_iff`      that is, if `pat` is no infix of `text`.
-/

variable {α : Type*}

/-- the offsets at which `pat` occurs in `text` -/
def occurrences (pat text : List α) : Set Nat := {i | pat <+: text.drop i}

theorem zero_mem_occurrences {pat text : List α} : 0 ∈ occurrences pat text ↔ pat <+: text := Iff.rfl

theorem isLeast_occurrences_zero {pat text : List α} (h : pat <+: text) :
    IsLeast (occurrences pat text) 0 :=
  ⟨zero_mem_occurrences.mpr h, fun i _ => Nat.zero_le i⟩

/-- where the pattern does not begin, the first occurrence is one further on than in the rest -/
theorem isLeast_occurrences_cons {pat text : List α} {x : α} (h : ¬ pat <+: x :: text) {i : Nat} :
    IsLeast (occurrences pat (x :: text)) i ↔ ∃ k, i = k + 1 ∧ IsLeast (occurrences pat text) k := by
  constructor
  · intro ⟨hmem, hleast⟩
    cases i with
    | zero => exact absurd hmem h
    | succ k => exact ⟨k, rfl, hmem, fun j hj => Nat.le_of_succ_le_succ (hleast hj)⟩
  · intro ⟨k, hk, hmem, hleast⟩
    subst hk
    refine ⟨hmem, fun j hj => ?_⟩
    cases j with
    | zero => exact absurd hj h
    | succ j => exact Nat.succ_le_succ (hleast hj)

variable [DecidableEq α]

def occurrence (pat : List α) : List α → Option Nat
  | [] => if pat = [] then some 0 else none
  | x :: text => if pat <+: x :: text then some 0 else (occurrence pat text).map (· + 1)

theorem occurrence_front {pat text : List α} (h : pat <+: text) : occurrence pat text = some 0 := by
  cases text with
  | nil => exact if_pos (List.prefix_nil.mp h)
  | cons x text => exact if_pos h

theorem occurrence_front_iff {pat text : List α} (h : pat <+: text) {i : Nat} :
    occurrence pat text = some i ↔ IsLeast (occurrences pat text) i := by
  rw [occurrence_front h, Option.some_inj]
  exact ⟨fun e => e ▸ isLeast_occurrences_zero h, fun hi => (isLeast_occurrences_zero h).unique hi⟩

theorem occurrence_cons {pat text : List α} {x : α} (h : ¬ pat <+: x :: text) :
    occurrence pat (x :: text) = (occurrence pat text).map (· + 1) := if_neg h

theorem occurrence_eq_some_iff {pat text : List α} {i : Nat} :
    occurrence pat text = some i ↔ IsLeast (occurrences pat text) i := by
  induction text generalizing i with
  | nil =>
    by_cases h : pat <+: []
    · exact occurrence_front_iff h
    · have hnone : occurrence pat [] = none := if_neg fun e => h (List.prefix_nil.mpr e)
      rw [hnone]
      constructor
      · intro e
        cases e
      · intro hi
        have hmem : pat <+: List.drop i [] := hi.1
        rw [List.drop_nil] at hmem
        exact absurd hmem h
  | cons x text ih =>
    by_cases h : pat <+: x :: text
    · exact occurrence_front_iff h
    · rw [occurrence_cons h, isLeast_occurrences_cons h, Option.map_eq_some_iff]
      constructor
      · intro ⟨k, hk, e⟩
        exact ⟨k, e.symm, ih.mp hk⟩
      · intro ⟨k, e, hk⟩
        exact ⟨k, ih.mpr hk, e.symm⟩

theorem occurrence_eq_none_iff {pat text : List α} :
    occurrence pat text = none ↔ ∀ i, ¬ pat <+: text.drop i := by
  constructor
  · intro h i hi
    classical
    have hex : ∃ i, i ∈ occurrences pat text := ⟨i, hi⟩
    have hleast : IsLeast (occurrences pat text) (Nat.find hex) :=
      ⟨Nat.find_spec hex, fun j hj => Nat.find_min' hex hj⟩
    rw [occurrence_eq_some_iff.mpr hleast] at h
    cases h
  · intro h
    cases hocc : occurrence pat text with
    | none => rfl
    | some i => exact absurd (occurrence_eq_some_iff.mp hocc).1 (h i)

theorem occurrence_isSome_iff {pat text : List α} : (occurrence pat text).isSome = true ↔ pat <:+: text := by
  induction text with
  | nil =>
    rw [List.infix_nil]
    unfold occurrence
    split <;> simp [*]
  | cons x text ih =>
    rw [List.infix_cons_iff, ← ih]
    by_cases h : pat <+: x :: text
    · rw [occurrence_front h]
      exact ⟨fun _ => .inl h, fun _ => rfl⟩
    · rw [occurrence_cons h, Option.isSome_map]
      exact ⟨.inr, fun hor => hor.resolve_left h⟩
