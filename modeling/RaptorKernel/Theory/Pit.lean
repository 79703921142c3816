import Mathlib

/-!
# The interval timer of the PC

Channel 0 of an 8254: a command says which bytes of the count follow and what is done with it, the
count comes in over the data port, and from then on the output is a wave.

* `Pit.outb`      the command port and the data port of the channel;
* `Pit.clock`     one clock at its input, and whether the output rises;
* `Pit.Phase`     where in its wave a channel is that was loaded some clocks ago;
* `Pit.Phase.edges`     the output of a loaded channel rises once a period.

Only the square wave of mode 3 is made; the output of a channel in another mode stays as it is.
-/

structure Pit where
  /-- bits 5-4 of the command: `1` the low byte, `2` the high byte, `3` one after the other -/
  access : UInt8
  mode : UInt8
  bcd : Bool
  /-- the low byte, while the high byte is awaited -/
  latch : Option UInt8
  count : Option Nat
  out : Bool
  /-- the clocks for which the output stays as it is -/
  left : Nat
deriving DecidableEq, Repr

namespace Pit

/-- four decimal digits -/
def ofBcd (n : Nat) : Nat := n % 16 + 10 * (n / 16 % 16) + 100 * (n / 256 % 16) + 1000 * (n / 4096 % 16)

/-- the period that a count stands for; zero is the largest -/
def period (bcd : Bool) (n : Nat) : Nat :=
  if n = 0 then (if bcd then 10^4 else 2^16) else if bcd then ofBcd n else n

/-- a whole count; the wave starts with the first one -/
def load (p : Pit) (n : Nat) : Pit :=
  { p with latch := none, count := some (period p.bcd n), left := (period p.bcd n + 1) / 2 }

/-- a count for a channel that runs takes effect when the output changes -/
def reload (p : Pit) (n : Nat) : Pit :=
  if p.count = none then p.load n else { p with latch := none, count := some (period p.bcd n) }

def command (p : Pit) (v : UInt8) : Pit :=
  if v >>> 6 ≠ 0 ∨ v >>> 4 &&& 3 = 0 then p
  else ⟨v >>> 4 &&& 3, v >>> 1 &&& 7, v &&& 1 ≠ 0, none, none, true, 0⟩

def data (p : Pit) (v : UInt8) : Pit :=
  if p.access = 1 then p.reload v.toNat
  else if p.access = 2 then p.reload (2^8 * v.toNat)
  else
    match p.latch with
    | none => { p with latch := some v }
    | some low => p.reload (low.toNat + 2^8 * v.toNat)

def outb (p : Pit) (port : UInt16) (v : UInt8) : Pit :=
  if port = 0x43 then p.command v else if port = 0x40 then p.data v else p

/-- mode 3, which the two codes `3` and `7` stand for -/
def square (p : Pit) : Bool := p.mode &&& 3 = 3

/-- one clock: the output is high for the larger half of the period -/
def clock (p : Pit) : Pit × Bool :=
  match p.count with
  | none => (p, false)
  | some n =>
    if p.square = false then (p, false)
    else if 1 < p.left then ({ p with left := p.left - 1 }, false)
    else if p.out then ({ p with out := false, left := n / 2 }, false)
    else ({ p with out := true, left := (n + 1) / 2 }, true)

/-- The channel was loaded with the period `n`, `k` clocks ago, and its output rose `e` times. -/
structure Phase (n k e : Nat) (p : Pit) : Prop where
  two_le : 2 ≤ n
  square : p.square = true
  count : p.count = some n
  left_pos : 0 < p.left
  left_le : p.left ≤ if p.out then (n + 1) / 2 else n / 2
  clocks : k + p.left + (if p.out then n / 2 else 0) = n * (e + 1)

section
variable {p : Pit} {n k e : Nat}

theorem load_phase (hn : 2 ≤ period p.bcd n) (hs : p.square = true) (hout : p.out = true) :
    Phase (period p.bcd n) 0 0 (p.load n) where
  two_le := hn
  square := hs
  count := rfl
  left_pos := by
    show 0 < (period p.bcd n + 1) / 2
    omega
  left_le := by
    show (period p.bcd n + 1) / 2 ≤ if p.out then _ else _
    rw [if_pos hout]
  clocks := by
    show 0 + (period p.bcd n + 1) / 2 + (if p.out then period p.bcd n / 2 else 0) = _
    rw [if_pos hout]
    omega

/-- one clock more -/
theorem Phase.clock (h : Phase n k e p) :
    Phase n (k + 1) (if p.clock.2 then e + 1 else e) p.clock.1 := by
  obtain ⟨h2, hs, hc, h0, hle, hk⟩ := h
  have hclock : p.clock = if 1 < p.left then ({ p with left := p.left - 1 }, false)
      else if p.out then ({ p with out := false, left := n / 2 }, false)
      else ({ p with out := true, left := (n + 1) / 2 }, true) := by
    unfold Pit.clock
    rw [hc]
    exact if_neg (by simp [hs])
  by_cases h1 : 1 < p.left
  · rw [hclock, if_pos h1]
    refine ⟨h2, hs, hc, ?_, ?_, ?_⟩
    · show 0 < p.left - 1
      omega
    · show p.left - 1 ≤ _
      exact (Nat.sub_le _ _).trans hle
    · show k + 1 + (p.left - 1) + (if p.out then n / 2 else 0) = n * (e + 1)
      omega
  · have hone : p.left = 1 := by omega
    rw [hclock, if_neg h1]
    cases ho : p.out with
    | true =>
      rw [ho, hone] at hk
      refine ⟨h2, hs, hc, ?_, le_refl _, ?_⟩
      · show 0 < n / 2
        omega
      · show k + 1 + n / 2 + 0 = n * (e + 1)
        rw [← hk]
        rfl
    | false =>
      rw [ho, hone] at hk
      have hk' : k + 1 = n * (e + 1) := hk
      refine ⟨h2, hs, hc, ?_, le_refl _, ?_⟩
      · show 0 < (n + 1) / 2
        omega
      · have hnext : n * (e + 1 + 1) = n * (e + 1) + n := Nat.mul_succ n (e + 1)
        show k + 1 + (n + 1) / 2 + n / 2 = n * (e + 1 + 1)
        omega

/-- once a period -/
theorem Phase.edges (h : Phase n k e p) : k / n = e := by
  obtain ⟨h2, _, _, h0, hle, hk⟩ := h
  have hlast : p.left + (if p.out then n / 2 else 0) ≤ n := by
    cases ho : p.out with
    | true =>
      rw [ho] at hle
      simp only [if_true] at hle ⊢
      omega
    | false =>
      rw [ho] at hle
      simp at hle ⊢
      omega
  have hmul : n * (e + 1) = n * e + n := Nat.mul_succ n e
  rw [Nat.div_eq_of_lt_le]
  · rw [Nat.mul_comm]
    omega
  · rw [Nat.mul_comm]
    show k < n * (e + 1)
    omega

/-- the output rises when the next multiple of the period is reached -/
theorem Phase.next (h : Phase n k e p) : p.clock.2 = true ↔ (k + 1) / n = e + 1 := by
  have h' := h.clock.edges
  cases hr : p.clock.2 with
  | true =>
    rw [hr] at h'
    exact iff_of_true rfl h'
  | false =>
    rw [hr] at h'
    refine iff_of_false (by simp) ?_
    rw [h']
    simp

end

end Pit
