import Mathlib

/-!
# Ring buffers

A queue in an array of `N` cells, of which one always stays unused: `head` is the cell where the
next element goes, `tail` the cell of the oldest one.

* `RingBuf N buf head tail q`            the cells from `tail` up to `head`, around the end, hold `q`;
* `RingBuf.empty_iff`, `RingBuf.full_iff`   what the two comparisons of the indices say;
* `RingBuf.push`, `RingBuf.front`, `RingBuf.pop`   the operations;
* `RingLog N buf l`       a log that overwrites its oldest entry: the cells hold the last `N` of `l`.
-/

structure RingBuf {α : Type*} (N : Nat) (buf : Nat → α) (head tail : Nat) (q : List α) : Prop where
  tail_lt : tail < N
  length_lt : q.length < N
  head_eq : head = (tail + q.length) % N
  cells : ∀ i, i < q.length → q[i]? = some (buf ((tail + i) % N))

namespace RingBuf
variable {α : Type*} {N : Nat} {buf : Nat → α} {head tail : Nat} {q : List α}

/-- an index is wrapped around once at most -/
theorem wrap {x : Nat} (h : x < N + N) : x % N = if x < N then x else x - N := by
  split
  · rename_i h1
    exact Nat.mod_eq_of_lt h1
  · rename_i h1
    rw [Nat.mod_eq_sub_mod (by omega), Nat.mod_eq_of_lt (by omega)]

/-- two cells of the queue are different -/
theorem index_inj {i j : Nat} (ht : tail < N) (hi : i < N) (hj : j < N)
    (h : (tail + i) % N = (tail + j) % N) : i = j := by
  rw [wrap (by omega), wrap (by omega)] at h
  split at h <;> split at h <;> omega

theorem nil (h : tail < N) : RingBuf N buf tail tail [] where
  tail_lt := h
  length_lt := by simp; omega
  head_eq := (Nat.mod_eq_of_lt h).symm
  cells := by simp

theorem head_lt (h : RingBuf N buf head tail q) : head < N := by
  rw [h.head_eq]
  exact Nat.mod_lt _ (Nat.zero_lt_of_lt h.tail_lt)

theorem empty_iff (h : RingBuf N buf head tail q) : head = tail ↔ q = [] := by
  have ht := h.tail_lt
  have hl := h.length_lt
  rw [h.head_eq, ← List.length_eq_zero_iff]
  constructor
  · intro e
    exact index_inj ht hl (by omega) (e.trans (Nat.mod_eq_of_lt ht).symm)
  · intro e
    rw [e]
    exact Nat.mod_eq_of_lt ht

theorem succ_head (h : RingBuf N buf head tail q) : (head + 1) % N = (tail + (q.length + 1)) % N := by
  rw [h.head_eq, Nat.mod_add_mod, Nat.add_assoc]

theorem full_iff (h : RingBuf N buf head tail q) : (head + 1) % N = tail ↔ q.length = N - 1 := by
  have ht := h.tail_lt
  have hl := h.length_lt
  rw [h.succ_head, wrap (by omega)]
  split <;> omega

theorem push (h : RingBuf N buf head tail q) (hroom : (head + 1) % N ≠ tail) (c : α) :
    RingBuf N (Function.update buf head c) ((head + 1) % N) tail (q ++ [c]) := by
  have hl := h.length_lt
  have hlen : q.length + 1 < N := by
    have hfull : q.length ≠ N - 1 := fun e => hroom (h.full_iff.mpr e)
    omega
  refine ⟨h.tail_lt, by simpa using hlen, by simpa using h.succ_head, ?_⟩
  intro i hi
  rw [List.length_append, List.length_singleton] at hi
  by_cases hq : i < q.length
  · have hne : (tail + i) % N ≠ head := by
      rw [h.head_eq]
      intro e
      have := index_inj h.tail_lt (by omega) h.length_lt e
      omega
    rw [List.getElem?_append_left hq, Function.update_of_ne hne]
    exact h.cells i hq
  · have e : i = q.length := by omega
    rw [e, ← h.head_eq, Function.update_self]
    simp

theorem front {c : α} (h : RingBuf N buf head tail (c :: q)) : buf tail = c := by
  have h0 := h.cells 0 (by simp)
  rw [Nat.add_zero, Nat.mod_eq_of_lt h.tail_lt] at h0
  simpa using h0.symm

theorem pop {c : α} (h : RingBuf N buf head tail (c :: q)) : RingBuf N buf head ((tail + 1) % N) q := by
  have hl : q.length + 1 < N := h.length_lt
  refine ⟨Nat.mod_lt _ (by omega), by omega, ?_, ?_⟩
  · rw [h.head_eq, Nat.mod_add_mod, List.length_cons]
    congr 1
    omega
  · intro i hi
    have h1 := h.cells (i + 1) (by simpa using hi)
    rw [List.getElem?_cons_succ] at h1
    rw [h1, Nat.mod_add_mod]
    congr 3
    omega

end RingBuf

/-! ## a log that overwrites its oldest entry -/

structure RingLog {α : Type*} (N : Nat) (buf : Nat → α) (l : List α) : Prop where
  cells : ∀ j, j < l.length → l.length ≤ j + N → l[j]? = some (buf (j % N))

namespace RingLog
variable {α : Type*} {N : Nat} {buf : Nat → α} {l : List α}

theorem nil : RingLog N buf [] where
  cells := by
    intro j hj
    exact absurd hj (Nat.not_lt_zero j)

/-- entry `j` goes to cell `j % N` -/
theorem push (h : RingLog N buf l) (c : α) :
    RingLog N (Function.update buf (l.length % N) c) (l ++ [c]) where
  cells := by
    intro j hj hN
    rw [List.length_append, List.length_singleton] at hj hN
    by_cases he : j = l.length
    · rw [he, List.getElem?_concat_length, Function.update_self]
    · have hlt : j < l.length := by omega
      have hne : j % N ≠ l.length % N := by
        intro e
        have h1 : (l.length - j) % N = 0 := Nat.sub_mod_eq_zero_of_mod_eq e.symm
        rw [Nat.mod_eq_of_lt (by omega)] at h1
        omega
      rw [Function.update_of_ne hne, List.getElem?_append_left hlt]
      exact h.cells j hlt (by omega)

/-- the `i`-th oldest of the last `N` entries -/
theorem get (h : RingLog N buf l) {i : Nat} (hi : i < min l.length N) :
    (l.drop (l.length - N))[i]? = some (buf ((l.length - min l.length N + i) % N)) := by
  have e : l.length - min l.length N = l.length - N := by omega
  rw [List.getElem?_drop, e]
  exact h.cells _ (by omega) (by omega)

end RingLog
