import RaptorKernel.Theory.Mem

/-!
# 32-bit words, text literals and faults

Pointers, sizes and counters of the kernel are 32-bit words; they are modelled as natural numbers,
and every operation that can wrap reduces modulo `2^32` as the machine does.

`Fault` is everything that keeps a function from returning: a call of `panic`, a loop that does
not end, an access to an object that is not alive (which C leaves undefined), a halted CPU.
-/

namespace Raptor

inductive Fault where
  | panic (fmt : String) (arg : Nat)
  | diverges
  | dangling (addr : Nat)
  | halted
deriving DecidableEq, Repr

/-! ## computations that may fault -/

section
variable {α β : Type} {x : Except Fault α} {b : β}

theorem ok_bind (a : α) (f : α → Except Fault β) : (Except.ok a >>= f) = f a := rfl

theorem error_bind (e : Fault) (f : α → Except Fault β) : (Except.error e >>= f) = .error e := rfl

theorem bind_eq_ok {f : α → Except Fault β} :
    (x >>= f) = .ok b ↔ ∃ a, x = .ok a ∧ f a = .ok b := by
  cases x with
  | error e =>
    rw [error_bind]
    exact ⟨fun h => (by cases h), fun ⟨_, h, _⟩ => (by cases h)⟩
  | ok a =>
    rw [ok_bind]
    refine ⟨fun h => ⟨a, rfl, h⟩, fun ⟨_, h, h'⟩ => ?_⟩
    cases h
    exact h'

theorem any_toOption {p : α → Bool} : x.toOption.any p = true ↔ ∃ a, x = .ok a ∧ p a = true := by
  cases x with
  | error e => exact ⟨fun h => (by cases h), fun ⟨_, h, _⟩ => (by cases h)⟩
  | ok a =>
    refine ⟨fun h => ⟨a, rfl, h⟩, fun ⟨_, h, h'⟩ => ?_⟩
    cases h
    exact h'

theorem map_eq_ok {f : α → β} : x.map f = .ok b ↔ ∃ a, x = .ok a ∧ f a = b := by
  cases x with
  | error e => exact ⟨fun h => (by cases h), fun ⟨_, h, _⟩ => (by cases h)⟩
  | ok a =>
    refine ⟨fun h => ⟨a, rfl, Except.ok.inj h⟩, fun ⟨_, h, h'⟩ => ?_⟩
    cases h
    exact congrArg Except.ok h'

end

/-! ## words -/

def add32 (a b : Nat) : Nat := (a + b) % 2^32
def sub32 (a b : Nat) : Nat := (a + (2^32 - b % 2^32)) % 2^32

theorem add32_eq {a b : Nat} (h : a + b < 2^32) : add32 a b = a + b := Nat.mod_eq_of_lt h

theorem sub32_eq {a b : Nat} (hb : b ≤ a) (ha : a < 2^32) : sub32 a b = a - b := by
  unfold sub32
  omega

/-- `ALIGN_UP(x, a)`, that is `(x + a - 1) & ~(a - 1)`, for a power of two `a` -/
def alignUp (x a : Nat) : Nat := ((x + a - 1) % 2^32) &&& (2^32 - a)

/-- masking off the low `k` bits rounds down -/
theorem and_high_mask (x k : Nat) (hx : x < 2^32) (hk : k ≤ 32) :
    x &&& (2^32 - 2^k) = x / 2^k * 2^k := by
  have e1 : 2^32 - 2^k = (2^(32-k) - 1) <<< k := by
    rw [Nat.shiftLeft_eq, Nat.sub_mul, ← Nat.pow_add, Nat.sub_add_cancel hk, Nat.one_mul]
  apply Nat.eq_of_testBit_eq
  intro i
  rw [e1, Nat.testBit_and, Nat.testBit_shiftLeft, Nat.testBit_two_pow_sub_one, Nat.mul_comm,
    Nat.testBit_two_pow_mul, Nat.testBit_div_two_pow]
  by_cases hi : k ≤ i
  · have e2 : i - k + k = i := by omega
    rw [e2]
    by_cases h32 : i < 32
    · have h3 : i - k < 32 - k := by omega
      simp [hi, h3]
    · have h3 : x.testBit i = false :=
        Nat.testBit_lt_two_pow (lt_of_lt_of_le hx (Nat.pow_le_pow_right (by norm_num) (by omega)))
      simp [h3]
  · simp [hi]

theorem alignUp_eight (x : Nat) : alignUp x 8 = (x + 7) % 2^32 / 8 * 8 :=
  and_high_mask _ 3 (Nat.mod_lt _ (by norm_num)) (by norm_num)

/-- sizes up to half the address space are not wrapped around by the rounding -/
theorem le_alignUp_eight {n : Nat} (h : n ≤ 2^31) : n ≤ alignUp n 8 := by
  rw [alignUp_eight]
  omega

theorem alignUp_page (x : Nat) : alignUp x 4096 = (x + 4095) % 2^32 / 4096 * 4096 :=
  and_high_mask _ 12 (Nat.mod_lt _ (by norm_num)) (by norm_num)

/-- the bytes of a text literal, without the terminating NUL -/
def lit (s : String) : List UInt8 := s.toByteArray.data.toList

end Raptor
