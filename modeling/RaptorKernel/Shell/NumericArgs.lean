import RaptorKernel.Shell.CommandRuns
import RaptorKernel.Lib.Formats

/-!
# Numbers as arguments

`head -n N` and `sleep N` read their argument with `atoi_simple`, into an `int`.

* `timerSleepMs`     `timer_sleep_ms`, reading the tick counter again and again;
* `atoiFits`         no step of `atoi_simple` leaves the range of an `int`;
* `ShortestPrefix`   the bytes up to a given number of newlines;
* `HeadRight`, `SleepRight`, `NoOverflow`   what the argument should mean;
* `numericArg_iff`   the numbers that do.
-/

namespace Raptor
open Mem

/-! ## drivers/timer.c -/

/-- `while (ticks < end)`, from the `i`-th read of the counter on: the read at which it ends -/
def timerWait (ticks : Nat → Nat) (last : Nat) : Nat → Nat → Except Fault Nat
  | 0, _ => .error .diverges
  | fuel+1, i => if ticks i < last then timerWait ticks last fuel (i + 1) else .ok i

/-- the tick at which `timer_sleep_ms(ms)` ends, if it begins at `start` -/
def sleepEnd (start ms : Nat) : Nat := (start + (ms * timerHz + 999) % 2^64 / 1000) % 2^64

/-- `timer_sleep_ms(ms)`; `ticks i` is what the `i`-th read gives -/
def timerSleepMs (fuel : Nat) (ticks : Nat → Nat) (ms : Nat) : Except Fault Nat :=
  timerWait ticks (sleepEnd (ticks 0) ms) fuel 1

/-- `(uint64_t)atoi_simple(argv[1]) * 1000`; a negative `int` is extended by its sign -/
def sleepMs (s : List UInt8) : Nat :=
  let v := atoiSimple s 0
  (if 2^31 ≤ v then v + (2^64 - 2^32) else v) * 1000 % 2^64

/-! ## what the argument should mean -/

/-- the digits of a decimal numeral -/
def Digits (s : List UInt8) : Prop := ∀ c ∈ s, isDigit c = true

/-- `p` is the shortest prefix of `data` with `n` newlines, or all of it if it has fewer -/
def ShortestPrefix (n : Nat) (data p : List UInt8) : Prop :=
  p <+: data ∧ (data.count newline < n → p = data) ∧
    (n ≤ data.count newline → p.count newline = n ∧
      ∀ q, q <+: data → q.count newline = n → p.length ≤ q.length)

/-- `head -n s` prints as many lines as `s` says -/
def HeadRight (s : List UInt8) : Prop :=
  ∀ (sh : Shell) (path data : List UInt8), FileAt sh path data →
    ∃ p, ShortestPrefix (numVal decimal s) data p ∧
      cmdHead sh [lit "-n", s, path] = .ok (consoleWrite p, 0) ∧
      (path ≠ lit "-n" → cmdHead sh [path, lit "-n", s] = .ok (consoleWrite p, 0))

/-- `sleep s` ends when `100 * s` ticks have passed since the first read, not before and, for an
`int`, not after.  The counter only grows, and does not wrap while it waits. -/
def SleepRight (s : List UInt8) : Prop :=
  ∀ ticks : Nat → Nat, (∀ i, ticks i ≤ ticks (i + 1)) → ticks 0 + 100 * numVal decimal s < 2^64 →
    (∀ fuel i, timerSleepMs fuel ticks (sleepMs s) = .ok i → ticks 0 + 100 * numVal decimal s ≤ ticks i) ∧
    (numVal decimal s < 2^31 →
      (∀ fuel i, timerSleepMs fuel ticks (sleepMs s) = .ok i →
        ∀ j, 1 ≤ j → j < i → ticks j < ticks 0 + 100 * numVal decimal s) ∧
      ∀ j, 1 ≤ j → ticks 0 + 100 * numVal decimal s ≤ ticks j →
        ∃ fuel i, timerSleepMs fuel ticks (sleepMs s) = .ok i)

/-- no step of `atoi_simple` leaves the range of an `int` -/
def atoiFits : List UInt8 → Nat → Prop
  | [], _ => True
  | c :: s, v =>
    if isDigit c then
      v * 10 + (c.toNat - '0'.toNat) < 2^31 ∧ atoiFits s (v * 10 + (c.toNat - '0'.toNat))
    else True

/-- no intermediate result leaves the range of its type -/
structure NoOverflow (s : List UInt8) : Prop where
  atoi : atoiFits s 0
  ms : atoiSimple s 0 * 1000 < 2^64
  ticks : sleepMs s * timerHz + 999 < 2^64
  sleepEnd : ∀ start, start + 100 * numVal decimal s < 2^64 →
    start + (sleepMs s * timerHz + 999) / 1000 < 2^64

structure NumericArg (s : List UInt8) : Prop where
  head : HeadRight s
  sleep : SleepRight s
  noOverflow : NoOverflow s

/-! ## the loops -/

section
variable {s : List UInt8} {v : Nat}

theorem le_foldl_digits (s : List UInt8) (v : Nat) :
    v ≤ s.foldl (fun n c => n * decimal.length + decimal.idxOf c) v := by
  induction s generalizing v with
  | nil => exact Nat.le_refl _
  | cons c s ih =>
    rw [List.foldl_cons]
    apply le_trans _ (ih _)
    rw [decimal_length]
    omega

theorem atoiFits_iff (hs : Digits s) (hv : v < 2^31) :
    atoiFits s v ↔ s.foldl (fun n c => n * decimal.length + decimal.idxOf c) v < 2^31 := by
  induction s generalizing v with
  | nil => exact ⟨fun _ => hv, fun _ => trivial⟩
  | cons c s ih =>
    have hc : isDigit c = true := hs c List.mem_cons_self
    have hs' : Digits s := fun b hb => hs b (List.mem_cons_of_mem _ hb)
    rw [atoiFits, if_pos hc, List.foldl_cons, decimal_step hc]
    constructor
    · intro ⟨h1, h2⟩
      exact (ih hs' h1).mp h2
    · intro h
      have h1 : v * 10 + (c.toNat - '0'.toNat) < 2^31 := lt_of_le_of_lt (le_foldl_digits s _) h
      exact ⟨h1, (ih hs' h1).mpr h⟩

/-- without an overflow it is the value -/
theorem atoiSimple_eq (hs : Digits s) (hfit : atoiFits s v) :
    atoiSimple s v = s.foldl (fun n c => n * decimal.length + decimal.idxOf c) v := by
  induction s generalizing v with
  | nil => rfl
  | cons c s ih =>
    have hc : isDigit c = true := hs c List.mem_cons_self
    rw [atoiFits, if_pos hc] at hfit
    have hmod : (v * 10 + (c.toNat - '0'.toNat)) % 2^32 = v * 10 + (c.toNat - '0'.toNat) :=
      Nat.mod_eq_of_lt (hfit.1.trans (by norm_num))
    rw [atoiSimple, if_pos hc, hmod, ih (fun b hb => hs b (List.mem_cons_of_mem _ hb)) hfit.2,
      List.foldl_cons, decimal_step hc]

/-- The loop of `head`, with `lines` newlines behind it. -/
theorem headLoop_spec {limit lines : Nat} (hle : lines ≤ limit) (data : List UInt8) :
    headLoop limit data lines <+: data ∧
      (data.count newline + lines < limit → headLoop limit data lines = data) ∧
      (limit ≤ data.count newline + lines → (headLoop limit data lines).count newline + lines = limit ∧
        ∀ q, q <+: data → q.count newline + lines = limit → (headLoop limit data lines).length ≤ q.length) := by
  induction data generalizing lines with
  | nil =>
    refine ⟨List.nil_prefix, fun _ => rfl, fun h => ⟨?_, fun q _ _ => Nat.zero_le _⟩⟩
    rw [List.count_nil, Nat.zero_add] at h
    show List.count newline [] + lines = limit
    rw [List.count_nil]
    omega
  | cons c data ih =>
    by_cases hlt : lines < limit
    · -- the byte is printed
      have hstep : headLoop limit (c :: data) lines =
          c :: headLoop limit data (if c = newline then lines + 1 else lines) := if_pos hlt
      have hcount : ∀ t : List UInt8, (c :: t).count newline + lines =
          t.count newline + (if c = newline then lines + 1 else lines) := by
        intro t
        by_cases hc : c = newline
        · rw [if_pos hc, hc, List.count_cons_self]
          omega
        · rw [if_neg hc, List.count_cons_of_ne hc]
      obtain ⟨h1, h2, h3⟩ := @ih (if c = newline then lines + 1 else lines) (by split <;> omega)
      rw [hstep]
      refine ⟨List.cons_prefix_cons.mpr ⟨rfl, h1⟩, fun h => ?_, fun h => ?_⟩
      · rw [hcount] at h
        rw [h2 h]
      · rw [hcount] at h
        obtain ⟨h4, h5⟩ := h3 h
        refine ⟨(hcount _).trans h4, fun q hq hqc => ?_⟩
        cases q with
        | nil =>
          rw [List.count_nil] at hqc
          omega
        | cons b q =>
          obtain ⟨rfl, hq'⟩ := List.cons_prefix_cons.mp hq
          rw [hcount] at hqc
          exact Nat.succ_le_succ (h5 q hq' hqc)
    · have hstop : headLoop limit (c :: data) lines = [] := if_neg hlt
      rw [hstop]
      refine ⟨List.nil_prefix, fun h => by omega, fun _ => ⟨?_, fun q _ _ => Nat.zero_le _⟩⟩
      rw [List.count_nil]
      omega

theorem timerWait_ok {ticks : Nat → Nat} {last fuel i j : Nat} (h : timerWait ticks last fuel i = .ok j) :
    last ≤ ticks j ∧ ∀ k, i ≤ k → k < j → ticks k < last := by
  induction fuel generalizing i with
  | zero => cases h
  | succ fuel ih =>
    unfold timerWait at h
    by_cases hlt : ticks i < last
    · rw [if_pos hlt] at h
      obtain ⟨h1, h2⟩ := ih h
      refine ⟨h1, fun k hik hkj => ?_⟩
      rcases Nat.eq_or_lt_of_le hik with rfl | hik
      · exact hlt
      · exact h2 k hik hkj
    · rw [if_neg hlt] at h
      cases h
      exact ⟨Nat.le_of_not_lt hlt, fun k hik hkj => absurd hik (Nat.not_le.mpr hkj)⟩

/-- it ends when the counter is far enough -/
theorem timerWait_returns {ticks : Nat → Nat} {last i n : Nat} (h : last ≤ ticks (i + n)) :
    ∃ j, timerWait ticks last (n + 1) i = .ok j := by
  induction n generalizing i with
  | zero => exact ⟨i, if_neg (Nat.not_lt.mpr h)⟩
  | succ n ih =>
    unfold timerWait
    by_cases hlt : ticks i < last
    · rw [if_pos hlt]
      exact ih (i := i + 1) (by rw [Nat.add_right_comm]; exact h)
    · exact ⟨i, if_neg hlt⟩

/-! ## the numbers -/

theorem headRight (hs : Digits s) (hfit : atoiFits s 0) : HeadRight s := by
  intro sh path data hf
  have hval : atoiSimple s 0 = numVal decimal s := atoiSimple_eq hs hfit
  obtain ⟨h1, h2, h3⟩ := headLoop_spec (Nat.zero_le (numVal decimal s)) data
  refine ⟨headLoop (numVal decimal s) data 0, ⟨h1, h2, h3⟩, ?_, fun hpath => ?_⟩
  · have hargs : headArgs [lit "-n", s, path] 10 none = (atoiSimple s 0, some path) := if_pos rfl
    unfold cmdHead
    rw [hargs]
    dsimp only
    rw [hf.withFile, hval]
  · have hargs : headArgs [path, lit "-n", s] 10 none = (atoiSimple s 0, some path) :=
      (if_neg hpath).trans (if_pos rfl)
    unfold cmdHead
    rw [hargs]
    dsimp only
    rw [hf.withFile, hval]

theorem sleepMs_eq (hs : Digits s) (hfit : atoiFits s 0) : sleepMs s = numVal decimal s * 1000 := by
  have hval : atoiSimple s 0 = numVal decimal s := atoiSimple_eq hs hfit
  have hlt : numVal decimal s < 2^31 := (atoiFits_iff hs (by norm_num)).mp hfit
  unfold sleepMs
  rw [hval]
  dsimp only
  rw [if_neg (Nat.not_le.mpr hlt)]
  omega

theorem sleepEnd_eq (hs : Digits s) (hfit : atoiFits s 0) {start : Nat}
    (hstart : start + 100 * numVal decimal s < 2^64) :
    sleepEnd start (sleepMs s) = start + 100 * numVal decimal s := by
  have hlt : numVal decimal s < 2^31 := (atoiFits_iff hs (by norm_num)).mp hfit
  have hms := sleepMs_eq hs hfit
  have hround : (numVal decimal s * 1000 * timerHz + 999) % 2^64 / 1000 = 100 * numVal decimal s := by
    unfold timerHz
    omega
  unfold sleepEnd
  rw [hms, hround]
  exact Nat.mod_eq_of_lt hstart

theorem sleepRight (hs : Digits s) (hfit : atoiFits s 0) : SleepRight s := by
  intro ticks _ hwrap
  have hend := sleepEnd_eq hs hfit hwrap
  unfold timerSleepMs
  rw [hend]
  refine ⟨fun fuel i h => (timerWait_ok h).1, fun _ => ⟨fun fuel i h j hj hji => ?_, fun j hj h => ?_⟩⟩
  · exact (timerWait_ok h).2 j hj hji
  · obtain ⟨n, rfl⟩ := Nat.exists_eq_add_of_le hj
    obtain ⟨i, hi⟩ := timerWait_returns (i := 1) h
    exact ⟨n + 1, i, hi⟩

theorem noOverflow (hs : Digits s) (hfit : atoiFits s 0) : NoOverflow s := by
  have hval : atoiSimple s 0 = numVal decimal s := atoiSimple_eq hs hfit
  have hlt : numVal decimal s < 2^31 := (atoiFits_iff hs (by norm_num)).mp hfit
  have hms := sleepMs_eq hs hfit
  have hhz : timerHz = 100 := rfl
  refine ⟨hfit, ?_, ?_, fun start h => ?_⟩
  · rw [hval]
    omega
  · rw [hms, hhz]
    omega
  · rw [hms, hhz]
    omega

/-- The numbers that an `int` can hold mean what they say, and no others do. -/
theorem numericArg_iff (hs : Digits s) : NumericArg s ↔ numVal decimal s < 2^31 := by
  have hfits : atoiFits s 0 ↔ numVal decimal s < 2^31 := atoiFits_iff hs (by norm_num)
  rw [← hfits]
  constructor
  · intro h
    exact h.noOverflow.atoi
  · intro hfit
    exact ⟨headRight hs hfit, sleepRight hs hfit, noOverflow hs hfit⟩

end

theorem numericArg_two : NumericArg (lit "2") :=
  (numericArg_iff (show ∀ c ∈ lit "2", isDigit c = true by decide +kernel)).mpr (by decide +kernel)

/-- `2^32`: `head` prints nothing, `sleep` ends at the first tick -/
theorem not_numericArg_wrap : ¬ NumericArg (lit "4294967296") ∧ ¬ HeadRight (lit "4294967296") ∧
    ¬ SleepRight (lit "4294967296") := by
  have hval : numVal decimal (lit "4294967296") = 4294967296 := by decide +kernel
  have hatoi : atoiSimple (lit "4294967296") 0 = 0 := by decide +kernel
  have hhead : ¬ HeadRight (lit "4294967296") := by
    intro h
    obtain ⟨p, ⟨_, hall, _⟩, hrun, _⟩ := h (fileShell [newline]) (lit "f") [newline] (fileShell_file _)
    have hp : p = [newline] := hall (by rw [hval]; decide)
    have hargs : headArgs [lit "-n", lit "4294967296", lit "f"] 10 none = (0, some (lit "f")) := by
      decide +kernel
    unfold cmdHead at hrun
    rw [hargs] at hrun
    dsimp only at hrun
    rw [(fileShell_file _).withFile, hp] at hrun
    exact absurd (congrArg Prod.fst (Except.ok.inj hrun)) (by decide)
  have hsleep : ¬ SleepRight (lit "4294967296") := by
    intro h
    obtain ⟨hafter, _⟩ := h id (fun i => Nat.le_succ i) (by rw [hval]; decide)
    have hrun : timerSleepMs 1 id (sleepMs (lit "4294967296")) = .ok 1 := by decide +kernel
    have := hafter 1 1 hrun
    rw [hval] at this
    exact absurd this (by decide)
  exact ⟨fun h => hhead h.head, hhead, hsleep⟩

end Raptor
