import RaptorKernel.Theory.Pit
import RaptorKernel.Shell.NumericArgs

/-!
# drivers/timer.c

The counter `ticks` goes up when interrupt 0 is served; `timer_sleep_ms` halts the processor until it is
high enough.  The clocks of the timer chip, the interrupts and the steps of the sleeping program come
in any order.

* `timerInit`     the chip after `timer_init`;
* `timerMachine`     the chip, the request line, the counter and the program;
* `TimerInv`      no tick is counted that did not come;
* `uptime_accuracy`     what `timer_uptime_ms` says about the time;
* `sleep_on_time`     what `timer_sleep_ms` does.
-/

namespace Raptor

def pitBaseHz : Nat := 1193182
def pitCh0 : UInt16 := 0x40
def pitCmd : UInt16 := 0x43

/-- clocks between two interrupts -/
def pitDivisor : UInt16 := .ofNat (pitBaseHz / timerHz)

def timerInitWrites : List (UInt16 × UInt8) :=
  [(pitCmd, 0x36), (pitCh0, (pitDivisor &&& 0xff).toUInt8), (pitCh0, (pitDivisor >>> 8).toUInt8)]

def timerInit (p : Pit) : Pit := timerInitWrites.foldl (fun p w => p.outb w.1 w.2) p

def timerUptimeMs (ticks : Nat) : Nat := ticks * (1000 / timerHz) % 2^64

/-- where the program is in `timer_sleep_ms` -/
inductive SleepAt where
  | entry
  | test
  | sti
  | hlt
  /-- in the `hlt` -/
  | halted
  | returned
deriving DecidableEq

structure TimerSystem where
  pit : Pit
  /-- since `timer_init` -/
  clocks : Nat
  /-- interrupt 0 waits at the controller -/
  requested : Bool
  /-- rises of the output that found a request waiting -/
  lost : Nat
  ticks : Nat
  ms : Nat
  last : Nat
  sleep : SleepAt

inductive TimerEvent where
  | clock
  /-- `timer_irq` -/
  | tick
  | otherIrq
  | call (ms : Nat)
  /-- a step of `timer_sleep_ms` -/
  | cpu

/-- an interrupt ends a `hlt` -/
def TimerSystem.wake (s : TimerSystem) : TimerSystem := if s.sleep = .halted then { s with sleep := .test } else s

def sleepStep (s : TimerSystem) : TimerSystem :=
  match s.sleep with
  | .entry => { s with last := sleepEnd s.ticks s.ms, sleep := .test }
  | .test => { s with sleep := if s.ticks < s.last then .sti else .returned }
  | .sti => { s with sleep := .hlt }
  | .hlt => { s with sleep := .halted }
  | .halted => s
  | .returned => s

def timerStep (s : TimerSystem) : TimerEvent → TimerSystem
  | .clock =>
    { s with
      pit := s.pit.clock.1
      clocks := s.clocks + 1
      requested := s.requested || s.pit.clock.2
      lost := if s.pit.clock.2 && s.requested then s.lost + 1 else s.lost }
  | .tick => TimerSystem.wake { s with requested := false, ticks := (s.ticks + 1) % 2^64 }
  | .otherIrq => s.wake
  | .call ms => { s with ms := ms, sleep := .entry }
  | .cpu => sleepStep s

/-- A program that is halted or has returned takes no step.  The counter is read in two loads, and no
interrupt can tear it before it reaches `2^32`, after 497 days. -/
def timerLegal (s : TimerSystem) : TimerEvent → Prop
  | .clock => True
  | .tick => s.requested = true ∧ s.ticks + 1 < 2^32
  | .otherIrq => True
  | .call _ => s.sleep = .returned
  | .cpu => s.sleep ≠ .halted ∧ s.sleep ≠ .returned

def timerMachine : Machine TimerSystem TimerEvent Fault where
  step s e := .ok (timerStep s e)
  legal := timerLegal

/-- after `timer_init`, with no program asleep -/
def timerBoot (p : Pit) : TimerSystem := ⟨timerInit p, 0, false, 0, 0, 0, 0, .returned⟩

/-! ## ticks -/

/-- what a request counts for -/
def TimerSystem.waiting (s : TimerSystem) : Nat := if s.requested then 1 else 0

/-- every rise of the output is counted, waits, or was lost -/
structure TimerInv (s : TimerSystem) : Prop where
  phase : ∃ e, s.pit.Phase 11931 s.clocks e ∧ s.ticks + s.waiting + s.lost = e
  ticks_lt : s.ticks < 2^32

section
variable {s t : TimerSystem} {es : List TimerEvent} {p : Pit}

/-- whatever was in the chip -/
theorem timerInit_eq (p : Pit) : timerInit p = ⟨3, 3, false, none, some 11931, true, 5966⟩ := by
  have hcmd : p.outb pitCmd 0x36 = ⟨3, 3, false, none, none, true, 0⟩ := by
    unfold Pit.outb Pit.command
    rw [if_pos (show pitCmd = 0x43 from rfl), if_neg (by decide)]
    rfl
  have hdata : ((Pit.outb ⟨3, 3, false, none, none, true, 0⟩ pitCh0 (pitDivisor &&& 0xff).toUInt8).outb pitCh0
      (pitDivisor >>> 8).toUInt8) = ⟨3, 3, false, none, some 11931, true, 5966⟩ := by decide +kernel
  rw [← hdata, ← hcmd]
  rfl

theorem timerInit_phase (p : Pit) : (timerInit p).Phase 11931 0 0 := by
  have hload : timerInit p = Pit.load ⟨3, 3, false, none, none, true, 0⟩ 11931 := timerInit_eq p
  have hperiod : 2 ≤ Pit.period false 11931 := by decide
  rw [hload]
  exact @Pit.load_phase ⟨3, 3, false, none, none, true, 0⟩ 11931 hperiod rfl rfl

theorem timerInv_boot (p : Pit) : TimerInv (timerBoot p) :=
  ⟨⟨0, timerInit_phase p, rfl⟩, by show 0 < 2^32; norm_num⟩

theorem wake_frame (s : TimerSystem) : s.wake.pit = s.pit ∧ s.wake.clocks = s.clocks ∧ s.wake.ticks = s.ticks ∧
    s.wake.requested = s.requested ∧ s.wake.lost = s.lost ∧ s.wake.last = s.last ∧ s.wake.ms = s.ms := by
  unfold TimerSystem.wake
  split <;> exact ⟨rfl, rfl, rfl, rfl, rfl, rfl, rfl⟩

theorem sleepStep_frame (s : TimerSystem) : (sleepStep s).pit = s.pit ∧ (sleepStep s).clocks = s.clocks ∧
    (sleepStep s).ticks = s.ticks ∧ (sleepStep s).requested = s.requested ∧ (sleepStep s).lost = s.lost ∧
    (sleepStep s).ms = s.ms := by
  unfold sleepStep
  split <;> exact ⟨rfl, rfl, rfl, rfl, rfl, rfl⟩

/-- what only the chip, the line and the counter decide -/
theorem TimerInv.congr (h : TimerInv s) (hp : t.pit = s.pit) (hc : t.clocks = s.clocks) (ht : t.ticks = s.ticks)
    (hr : t.requested = s.requested) (hl : t.lost = s.lost) : TimerInv t := by
  obtain ⟨⟨e, h1, h2⟩, h3⟩ := h
  unfold TimerSystem.waiting at h2
  refine ⟨⟨e, by rw [hp, hc]; exact h1, ?_⟩, by rw [ht]; exact h3⟩
  unfold TimerSystem.waiting
  rw [ht, hr, hl]
  exact h2

theorem timerStep_inv (h : TimerInv s) {e : TimerEvent} (hl : timerLegal s e) : TimerInv (timerStep s e) := by
  cases e with
  | clock =>
    obtain ⟨⟨n, h1, h2⟩, h3⟩ := h
    refine ⟨⟨_, h1.clock, ?_⟩, h3⟩
    unfold TimerSystem.waiting at h2 ⊢
    show s.ticks + (if s.requested || s.pit.clock.2 then 1 else 0) +
      (if s.pit.clock.2 && s.requested then s.lost + 1 else s.lost) = if s.pit.clock.2 then n + 1 else n
    rw [← h2]
    cases s.requested <;> cases s.pit.clock.2 <;> simp <;> omega
  | tick =>
    obtain ⟨hreq, hwrap⟩ := hl
    have hmod : (s.ticks + 1) % 2^64 = s.ticks + 1 := Nat.mod_eq_of_lt (by omega)
    obtain ⟨k1, k2, k3, k4, k5, _⟩ := wake_frame { s with requested := false, ticks := (s.ticks + 1) % 2^64 }
    obtain ⟨⟨n, h1, h2⟩, _⟩ := h
    unfold TimerSystem.waiting at h2
    rw [if_pos hreq] at h2
    refine TimerInv.congr (s := { s with requested := false, ticks := (s.ticks + 1) % 2^64 }) ?_ k1 k2 k3 k4 k5
    refine ⟨⟨n, h1, ?_⟩, by rw [hmod]; exact hwrap⟩
    unfold TimerSystem.waiting
    show (s.ticks + 1) % 2^64 + 0 + s.lost = n
    rw [hmod]
    omega
  | otherIrq =>
    obtain ⟨k1, k2, k3, k4, k5, _⟩ := wake_frame s
    exact h.congr k1 k2 k3 k4 k5
  | call ms => exact h.congr rfl rfl rfl rfl rfl
  | cpu =>
    obtain ⟨k1, k2, k3, k4, k5, _⟩ := sleepStep_frame s
    exact h.congr k1 k2 k3 k4 k5

theorem timer_inv (r : timerMachine.Run s es t) (h : TimerInv s) : TimerInv t := by
  refine r.inv h ?_
  intro s e t h hl hs
  cases hs
  exact timerStep_inv h hl

/-- the ticks so far, from the clocks -/
theorem TimerInv.count (h : TimerInv s) : s.ticks + s.waiting + s.lost = s.clocks / 11931 := by
  obtain ⟨⟨e, h1, h2⟩, _⟩ := h
  rw [h2, h1.edges]

/-- In every order of clocks, interrupts and steps, each period of the chip is counted, waits to be
counted, or was lost because a request waited for a whole period.  As long as none was lost,
`timer_uptime_ms` is at most 7 in 100000 ahead of the time, and less than 10 ms behind it, 20 ms while a
request waits. -/
theorem uptime_accuracy (r : timerMachine.Run (timerBoot p) es s) :
    s.ticks + s.waiting + s.lost = s.clocks / 11931 ∧
      (s.lost = 0 →
        100000 * (timerUptimeMs s.ticks * pitBaseHz) ≤ 100007 * (1000 * s.clocks) ∧
        1000 * s.clocks < (timerUptimeMs s.ticks + 10 * (1 + s.waiting)) * pitBaseHz) := by
  have hinv := timer_inv r (timerInv_boot p)
  have hcount := hinv.count
  have hlt := hinv.ticks_lt
  refine ⟨hcount, ?_⟩
  intro hlost
  have hwait : s.waiting ≤ 1 := by
    unfold TimerSystem.waiting
    split <;> omega
  have hms : timerUptimeMs s.ticks = s.ticks * 10 := by
    show s.ticks * 10 % 2^64 = _
    omega
  have hz : pitBaseHz = 1193182 := rfl
  rw [hms, hz]
  constructor <;> omega

end

/-! ## sleeping -/

def TimerEvent.isIrq : TimerEvent → Bool
  | .tick => true
  | .otherIrq => true
  | _ => false

def TimerEvent.isCpu : TimerEvent → Bool
  | .cpu => true
  | _ => false

def TimerEvent.isClock : TimerEvent → Bool
  | .clock => true
  | _ => false

def TimerEvent.isCall : TimerEvent → Bool
  | .call _ => true
  | _ => false

/-- steps of the program up to the next `hlt` or the return -/
def SleepAt.untilHalt : SleepAt → Nat
  | .entry => 4
  | .test => 3
  | .sti => 2
  | .hlt => 1
  | .halted => 0
  | .returned => 0

/-- steps of the program up to the return, once the counter is high enough -/
def SleepAt.untilReturn : SleepAt → Nat
  | .entry => 2
  | .test => 1
  | .sti => 3
  | .hlt => 2
  | .halted => 1
  | .returned => 0

section
variable {s t : TimerSystem} {es : List TimerEvent} {p : Pit}

theorem wake_sleep (s : TimerSystem) : s.wake.sleep = if s.sleep = .halted then .test else s.sleep := by
  unfold TimerSystem.wake
  split <;> rfl

theorem wake_untilHalt (s : TimerSystem) : s.wake.sleep.untilHalt ≤ s.sleep.untilHalt + 3 := by
  unfold TimerSystem.wake
  split
  · rename_i h
    rw [h]
    exact le_refl 3
  · omega

theorem wake_untilReturn (s : TimerSystem) : s.wake.sleep.untilReturn = s.sleep.untilReturn := by
  unfold TimerSystem.wake
  split
  · rename_i h
    rw [h]
    rfl
  · rfl

theorem wake_ne_entry (h : s.sleep ≠ .entry) : s.wake.sleep ≠ .entry := by
  unfold TimerSystem.wake
  split
  · simp
  · exact h

theorem sleepStep_untilHalt (h : s.sleep ≠ .halted) (h' : s.sleep ≠ .returned) :
    (sleepStep s).sleep.untilHalt + 1 ≤ s.sleep.untilHalt := by
  unfold sleepStep
  cases hs : s.sleep with
  | entry => exact le_refl 4
  | test =>
    dsimp only
    split
    · exact le_refl 3
    · show 1 ≤ 3
      norm_num
  | sti => exact le_refl 2
  | hlt => exact le_refl 1
  | halted => exact absurd hs h
  | returned => exact absurd hs h'

theorem sleepStep_untilReturn (h : s.sleep ≠ .halted) (h' : s.sleep ≠ .returned) (h0 : s.sleep ≠ .entry)
    (hlast : s.last ≤ s.ticks) : (sleepStep s).sleep.untilReturn + 1 = s.sleep.untilReturn ∧
      (sleepStep s).sleep ≠ .entry ∧ (sleepStep s).last = s.last := by
  unfold sleepStep
  cases hs : s.sleep with
  | entry => exact absurd hs h0
  | test =>
    dsimp only
    rw [if_neg (by omega)]
    exact ⟨rfl, by simp, rfl⟩
  | sti => exact ⟨rfl, by simp, rfl⟩
  | hlt => exact ⟨rfl, by simp, rfl⟩
  | halted => exact absurd hs h
  | returned => exact absurd hs h'

theorem countP_concat (q : TimerEvent → Bool) (es : List TimerEvent) (e : TimerEvent) :
    (es ++ [e]).countP q = es.countP q + if q e then 1 else 0 := by
  rw [List.countP_append, List.countP_singleton]

theorem noCall_concat {e : TimerEvent} (h : (es ++ [e]).countP TimerEvent.isCall = 0) :
    es.countP TimerEvent.isCall = 0 ∧ e.isCall = false := by
  rw [countP_concat] at h
  cases he : e.isCall with
  | true =>
    rw [he] at h
    cases h
  | false => exact ⟨Nat.eq_zero_of_add_eq_zero_right h, rfl⟩

/-- the counter only goes up, and a request that is not served stays -/
theorem timer_monotone (r : timerMachine.Run s es t) : s.ticks ≤ t.ticks ∧ s.lost ≤ t.lost ∧
    s.clocks + es.countP TimerEvent.isClock = t.clocks ∧
    (es.countP TimerEvent.isIrq = 0 → t.requested = false →
      t.ticks = s.ticks ∧ s.requested = false ∧ t.lost = s.lost) := by
  induction r with
  | nil => exact ⟨le_refl _, le_refl _, rfl, fun _ h => ⟨rfl, h, rfl⟩⟩
  | @snoc es t u e r hl hs ih =>
    obtain ⟨h1, h2, h3, h4⟩ := ih
    cases hs
    rw [countP_concat, countP_concat]
    cases e with
    | clock =>
      refine ⟨h1, ?_, ?_, ?_⟩
      · show s.lost ≤ if t.pit.clock.2 && t.requested then t.lost + 1 else t.lost
        split <;> omega
      · show s.clocks + (es.countP _ + 1) = t.clocks + 1
        omega
      · intro hirq hreq
        obtain ⟨k1, k2⟩ := Bool.or_eq_false_iff.mp (show (t.requested || t.pit.clock.2) = false from hreq)
        obtain ⟨k3, k4, k5⟩ := h4 hirq k1
        refine ⟨k3, k4, ?_⟩
        show (if t.pit.clock.2 && t.requested then t.lost + 1 else t.lost) = s.lost
        rw [k1, Bool.and_false]
        exact k5
    | tick =>
      obtain ⟨_, k2, k3, _, k5, _⟩ := wake_frame { t with requested := false, ticks := (t.ticks + 1) % 2^64 }
      have hmod : (t.ticks + 1) % 2^64 = t.ticks + 1 := Nat.mod_eq_of_lt (hl.2.trans (by norm_num))
      refine ⟨?_, ?_, k2.symm ▸ h3, fun hirq => absurd hirq (by simp [TimerEvent.isIrq])⟩
      · show s.ticks ≤ (TimerSystem.wake _).ticks
        rw [k3]
        show s.ticks ≤ (t.ticks + 1) % 2^64
        omega
      · show s.lost ≤ (TimerSystem.wake _).lost
        rw [k5]
        exact h2
    | otherIrq =>
      obtain ⟨_, k2, k3, _, k5, _⟩ := wake_frame t
      exact ⟨k3.symm ▸ h1, k5.symm ▸ h2, k2.symm ▸ h3, fun hirq => absurd hirq (by simp [TimerEvent.isIrq])⟩
    | call ms => exact ⟨h1, h2, h3, h4⟩
    | cpu =>
      obtain ⟨_, k2, k3, k4, k5, _⟩ := sleepStep_frame t
      refine ⟨k3.symm ▸ h1, k5.symm ▸ h2, k2.symm ▸ h3, ?_⟩
      intro hirq hreq
      have hstep : timerStep t .cpu = sleepStep t := rfl
      rw [hstep] at hreq ⊢
      rw [k3, k5]
      exact h4 hirq (k4 ▸ hreq)

/-- `timer_sleep_ms(ms)`, called at `start` ticks -/
structure Sleeping (start ms : Nat) (s : TimerSystem) : Prop where
  arg : s.ms = ms
  start_le : start ≤ s.ticks
  last : s.sleep ≠ .entry → ∃ n, start ≤ n ∧ n ≤ s.ticks ∧ s.last = sleepEnd n ms
  returned : s.sleep = .returned → s.last ≤ s.ticks

theorem Sleeping.wake {start ms : Nat} (h : Sleeping start ms s) : Sleeping start ms s.wake := by
  unfold TimerSystem.wake
  by_cases hs : s.sleep = .halted
  · rw [if_pos hs]
    exact ⟨h.arg, h.start_le, fun _ => h.last (by rw [hs]; simp), fun h' => (by cases h')⟩
  · rw [if_neg hs]
    exact h

theorem sleepStep_sleeping {start ms : Nat} (h : Sleeping start ms s) : Sleeping start ms (sleepStep s) := by
  unfold sleepStep
  cases hs : s.sleep with
  | entry =>
    refine ⟨h.arg, h.start_le, fun _ => ⟨s.ticks, h.start_le, le_refl _, ?_⟩, fun h' => (by cases h')⟩
    show sleepEnd s.ticks s.ms = _
    rw [h.arg]
  | test =>
    have hlast := h.last (by rw [hs]; simp)
    refine ⟨h.arg, h.start_le, fun _ => hlast, ?_⟩
    dsimp only
    intro h'
    by_contra hlt
    rw [if_pos (by omega)] at h'
    cases h'
  | sti => exact ⟨h.arg, h.start_le, fun _ => h.last (by rw [hs]; simp), fun h' => (by cases h')⟩
  | hlt => exact ⟨h.arg, h.start_le, fun _ => h.last (by rw [hs]; simp), fun h' => (by cases h')⟩
  | halted => exact h
  | returned => exact h

theorem timerStep_sleeping {start ms : Nat} (h : Sleeping start ms s) {e : TimerEvent} (hl : timerLegal s e)
    (he : e.isCall = false) : Sleeping start ms (timerStep s e) := by
  cases e with
  | clock => exact ⟨h.arg, h.start_le, h.last, h.returned⟩
  | tick =>
    have hmod : (s.ticks + 1) % 2^64 = s.ticks + 1 := Nat.mod_eq_of_lt (hl.2.trans (by norm_num))
    refine Sleeping.wake ⟨h.arg, ?_, fun hne => ?_, fun hr => ?_⟩
    · show start ≤ (s.ticks + 1) % 2^64
      rw [hmod]
      exact Nat.le_succ_of_le h.start_le
    · obtain ⟨n, h1, h2, h3⟩ := h.last hne
      refine ⟨n, h1, ?_, h3⟩
      show n ≤ (s.ticks + 1) % 2^64
      rw [hmod]
      exact Nat.le_succ_of_le h2
    · show s.last ≤ (s.ticks + 1) % 2^64
      rw [hmod]
      exact Nat.le_succ_of_le (h.returned hr)
  | otherIrq => exact h.wake
  | call ms => cases he
  | cpu => exact sleepStep_sleeping h

/-- the rest of a call -/
theorem sleeping_run {start ms : Nat} (r : timerMachine.Run s es t) (hcall : es.countP TimerEvent.isCall = 0)
    (h : Sleeping start ms s) : Sleeping start ms t := by
  induction r with
  | nil => exact h
  | @snoc es t u e r hl hs ih =>
    obtain ⟨h1, h2⟩ := noCall_concat hcall
    cases hs
    exact timerStep_sleeping (ih h1) hl h2

/-- between two interrupts the program takes at most three steps -/
theorem cpu_steps (r : timerMachine.Run s es t) (hcall : es.countP TimerEvent.isCall = 0) :
    es.countP TimerEvent.isCpu + t.sleep.untilHalt ≤ s.sleep.untilHalt + 3 * es.countP TimerEvent.isIrq := by
  induction r with
  | nil => simp
  | @snoc es t u e r hl hs ih =>
    obtain ⟨h1, h2⟩ := noCall_concat hcall
    have hle := ih h1
    cases hs
    rw [countP_concat, countP_concat]
    cases e with
    | clock => exact hle
    | tick =>
      have hwake : (timerStep t .tick).sleep.untilHalt ≤ t.sleep.untilHalt + 3 := wake_untilHalt _
      show es.countP _ + 0 + _ ≤ _ + 3 * (es.countP _ + 1)
      omega
    | otherIrq =>
      have hwake : (timerStep t .otherIrq).sleep.untilHalt ≤ t.sleep.untilHalt + 3 := wake_untilHalt _
      show es.countP _ + 0 + _ ≤ _ + 3 * (es.countP _ + 1)
      omega
    | call ms => cases h2
    | cpu =>
      have hstep : (timerStep t .cpu).sleep.untilHalt + 1 ≤ t.sleep.untilHalt := sleepStep_untilHalt hl.1 hl.2
      show es.countP _ + 1 + _ ≤ _ + 3 * (es.countP _ + 0)
      omega

/-- once the counter is high enough, each step of the program is one less to the return -/
theorem return_steps (r : timerMachine.Run s es t) (hcall : es.countP TimerEvent.isCall = 0)
    (h0 : s.sleep ≠ .entry) (hlast : s.last ≤ s.ticks) :
    es.countP TimerEvent.isCpu + t.sleep.untilReturn = s.sleep.untilReturn ∧ t.sleep ≠ .entry ∧
      t.last ≤ t.ticks := by
  induction r with
  | nil => exact ⟨Nat.zero_add _, h0, hlast⟩
  | @snoc es t u e r hl hs ih =>
    obtain ⟨h1, h2⟩ := noCall_concat hcall
    obtain ⟨k1, k2, k3⟩ := ih h1
    cases hs
    rw [countP_concat]
    cases e with
    | clock => exact ⟨k1, k2, k3⟩
    | tick =>
      have hmod : (t.ticks + 1) % 2^64 = t.ticks + 1 := Nat.mod_eq_of_lt (hl.2.trans (by norm_num))
      obtain ⟨_, _, f3, _, _, f6, _⟩ := wake_frame { t with requested := false, ticks := (t.ticks + 1) % 2^64 }
      refine ⟨?_, wake_ne_entry k2, ?_⟩
      · show es.countP _ + 0 + (TimerSystem.wake _).sleep.untilReturn = _
        rw [wake_untilReturn]
        exact k1
      · show (TimerSystem.wake _).last ≤ (TimerSystem.wake _).ticks
        rw [f3, f6]
        show t.last ≤ (t.ticks + 1) % 2^64
        omega
    | otherIrq =>
      obtain ⟨_, _, f3, _, _, f6, _⟩ := wake_frame t
      refine ⟨?_, wake_ne_entry k2, ?_⟩
      · show es.countP _ + 0 + t.wake.sleep.untilReturn = _
        rw [wake_untilReturn]
        exact k1
      · show t.wake.last ≤ t.wake.ticks
        rw [f3, f6]
        exact k3
    | call ms => cases h2
    | cpu =>
      obtain ⟨f1, f2, f3⟩ := sleepStep_untilReturn hl.1 hl.2 k2 k3
      obtain ⟨_, _, f4, _⟩ := sleepStep_frame t
      refine ⟨?_, f2, ?_⟩
      · show es.countP _ + 1 + (sleepStep t).sleep.untilReturn = _
        omega
      · show (sleepStep t).last ≤ (sleepStep t).ticks
        rw [f3, f4]
        exact k3

/-- A whole period never passes without an interrupt that is served or waits. -/
theorem clocks_without_irq (h : TimerInv s) (r : timerMachine.Run s es t)
    (hirq : es.countP TimerEvent.isIrq = 0) (hreq : t.requested = false) :
    es.countP TimerEvent.isClock < 11931 := by
  obtain ⟨_, _, hclocks, hsame⟩ := timer_monotone r
  obtain ⟨hticks, hreq', hlost⟩ := hsame hirq hreq
  have hs := h.count
  have ht := (timer_inv r h).count
  unfold TimerSystem.waiting at hs ht
  rw [hreq'] at hs
  rw [hreq, hticks, hlost] at ht
  rw [← hclocks] at ht
  omega

/-- the end is rounded up to a whole tick -/
theorem sleepEnd_ge {n ms : Nat} (hms : ms * timerHz + 999 < 2^64) (hn : n + ms < 2^64) :
    10 * n + ms ≤ 10 * sleepEnd n ms := by
  have hhz : timerHz = 100 := rfl
  rw [hhz] at hms
  unfold sleepEnd
  rw [hhz, Nat.mod_eq_of_lt hms, Nat.mod_eq_of_lt (by omega)]
  omega

/-- In every order of clocks, interrupts and steps, `timer_sleep_ms` halts instead of spinning, does not
return before its milliseconds are counted, and once they are it returns within three of its own steps,
between which it waits for one interrupt at most; and that comes within a period of the chip. -/
theorem sleep_on_time {es0 : List TimerEvent} (r0 : timerMachine.Run (timerBoot p) es0 s) {ms : Nat}
    (hl : timerLegal s (.call ms)) (r : timerMachine.Run (timerStep s (.call ms)) es t)
    (hcall : es.countP TimerEvent.isCall = 0) :
    es.countP TimerEvent.isCpu ≤ 4 + 3 * es.countP TimerEvent.isIrq ∧
      (t.sleep = .returned → ∃ n, s.ticks ≤ n ∧ n ≤ t.ticks ∧ sleepEnd n ms ≤ t.ticks ∧
        (ms * timerHz + 999 < 2^64 → n + ms < 2^64 → ms ≤ 10 * (t.ticks - n))) ∧
      ∀ es' u, timerMachine.Run t es' u →
        (t.sleep ≠ .entry → t.last ≤ t.ticks → es'.countP TimerEvent.isCall = 0 →
          es'.countP TimerEvent.isCpu + u.sleep.untilReturn = t.sleep.untilReturn) ∧
        (es'.countP TimerEvent.isIrq = 0 → u.requested = false → es'.countP TimerEvent.isClock < 11931) := by
  have hinv : TimerInv t := timer_inv r (timerStep_inv (timer_inv r0 (timerInv_boot p)) hl)
  have hentry : (timerStep s (.call ms)).sleep = .entry := rfl
  have hstart : Sleeping s.ticks ms (timerStep s (.call ms)) := by
    refine ⟨rfl, le_refl s.ticks, fun h => absurd hentry h, fun h => ?_⟩
    rw [hentry] at h
    cases h
  have hsleep := sleeping_run r hcall hstart
  refine ⟨?_, ?_, ?_⟩
  · have hsteps : _ ≤ 4 + 3 * _ := cpu_steps r hcall
    omega
  · intro hret
    obtain ⟨n, h1, h2, h3⟩ := hsleep.last (by rw [hret]; simp)
    have hlast := hsleep.returned hret
    rw [h3] at hlast
    refine ⟨n, h1, h2, hlast, ?_⟩
    intro hms hn
    have hend := sleepEnd_ge hms hn
    omega
  · intro es' u r'
    exact ⟨fun h0 hlast hcall' => (return_steps r' hcall' h0 hlast).1, clocks_without_irq hinv r'⟩

/-! ## a period and its interrupt -/

theorem clocks_run (s : TimerSystem) (k : Nat) : ∃ t, timerMachine.Run s (List.replicate k .clock) t ∧
    t.ticks = s.ticks ∧ t.sleep = s.sleep ∧ t.last = s.last := by
  induction k with
  | zero => exact ⟨s, .nil, rfl, rfl, rfl⟩
  | succ k ih =>
    obtain ⟨t, r, h1, h2, h3⟩ := ih
    rw [List.replicate_succ']
    exact ⟨timerStep t .clock, r.snoc (show timerLegal t .clock from trivial) rfl, h1, h2, h3⟩

def onePeriod : List TimerEvent := List.replicate 11931 .clock ++ [.tick]

theorem onePeriod_run (h : TimerInv s) (hreq : s.requested = false) (hlt : s.ticks + 1 < 2^32) :
    ∃ t, timerMachine.Run s onePeriod t ∧ t.ticks = s.ticks + 1 ∧ t.requested = false ∧ t.lost = s.lost ∧
      t.last = s.last ∧ t.sleep = if s.sleep = .halted then .test else s.sleep := by
  obtain ⟨t, r, hticks, hsleep, hlast⟩ := clocks_run s 11931
  obtain ⟨-, -, hclocks, -⟩ := timer_monotone r
  have hclock : (List.replicate 11931 TimerEvent.clock).countP TimerEvent.isClock = 11931 := by
    rw [List.countP_replicate]
    rfl
  have hirq : (List.replicate 11931 TimerEvent.clock).countP TimerEvent.isIrq = 0 := by
    rw [List.countP_replicate]
    rfl
  rw [hclock] at hclocks
  have hreq' : t.requested = true := by
    by_contra hno
    have hfew := clocks_without_irq h r hirq (Bool.eq_false_iff.mpr hno)
    omega
  -- the request is the one rise of the period
  have hlost : t.lost = s.lost := by
    have hs := h.count
    have ht := (timer_inv r h).count
    unfold TimerSystem.waiting at hs ht
    rw [hreq] at hs
    rw [if_pos hreq', hticks, ← hclocks] at ht
    simp only [Bool.false_eq_true, if_false] at hs
    omega
  have hlegal : timerLegal t .tick := ⟨hreq', by rw [hticks]; exact hlt⟩
  have hmod : (t.ticks + 1) % 2^64 = s.ticks + 1 := by omega
  obtain ⟨-, -, k3, k4, k5, k6, -⟩ := wake_frame { t with requested := false, ticks := (t.ticks + 1) % 2^64 }
  refine ⟨timerStep t .tick, r.snoc hlegal rfl, k3.trans hmod, k4, k5.trans hlost, k6.trans hlast, ?_⟩
  rw [← hsleep]
  exact wake_sleep _

theorem cpu_run (r : timerMachine.Run s es t) (h : t.sleep ≠ .halted) (h' : t.sleep ≠ .returned) :
    timerMachine.Run s (es ++ [.cpu]) (sleepStep t) := r.snoc (show timerLegal t .cpu from ⟨h, h'⟩) rfl

/-- the four steps of a call to its `hlt` -/
theorem sleep_to_hlt {ms : Nat} (hlt : s.ticks < sleepEnd s.ticks ms) :
    ∃ t, timerMachine.Run (timerStep s (.call ms)) [.cpu, .cpu, .cpu, .cpu] t ∧ t.sleep = .halted ∧
      t.ticks = s.ticks ∧ t.last = sleepEnd s.ticks ms ∧ t.requested = s.requested := by
  have r0 : timerMachine.Run (timerStep s (.call ms)) [] (timerStep s (.call ms)) := .nil
  have r1 := cpu_run r0 (fun h => nomatch h) (fun h => nomatch h)
  have r2 := cpu_run r1 (fun h => nomatch h) (fun h => nomatch h)
  have h2 : sleepStep (sleepStep (timerStep s (.call ms))) =
      { s with ms := ms, last := sleepEnd s.ticks ms, sleep := .sti } := by
    show { s with ms := ms, last := sleepEnd s.ticks ms,
                  sleep := if s.ticks < sleepEnd s.ticks ms then .sti else .returned } = _
    rw [if_pos hlt]
  rw [h2] at r2
  have r3 := cpu_run r2 (fun h => nomatch h) (fun h => nomatch h)
  exact ⟨_, cpu_run r3 (fun h => nomatch h) (fun h => nomatch h), rfl, rfl, rfl, rfl⟩

/-- the chip before `timer_init` -/
def samplePit : Pit := ⟨0, 0, false, none, none, false, 0⟩

theorem onePeriod_boot : ∃ s, timerMachine.Run (timerBoot samplePit) onePeriod s ∧ s.ticks = 1 ∧
    s.requested = false ∧ s.lost = 0 ∧ s.sleep = .returned := by
  obtain ⟨s, r, h1, h2, h3, -, h4⟩ := onePeriod_run (timerInv_boot samplePit) rfl (by decide)
  exact ⟨s, r, h1, h2, h3, h4⟩

theorem uptime_accuracy_period : ∃ s, timerMachine.Run (timerBoot samplePit) onePeriod s ∧
    timerUptimeMs s.ticks = 10 ∧ 100000 * (timerUptimeMs s.ticks * pitBaseHz) ≤ 100007 * (1000 * s.clocks) ∧
      1000 * s.clocks < (timerUptimeMs s.ticks + 10 * (1 + s.waiting)) * pitBaseHz := by
  obtain ⟨s, r, hticks, -, hlost, -⟩ := onePeriod_boot
  exact ⟨s, r, by rw [hticks]; rfl, (uptime_accuracy r).2 hlost⟩

/-- `timer_sleep_ms(10)`, which halts for a period -/
theorem sleep_on_time_ten : ∃ s t, timerMachine.Run (timerBoot samplePit) onePeriod s ∧
    timerMachine.Run (timerStep s (.call 10)) ([.cpu, .cpu, .cpu, .cpu] ++ onePeriod ++ [.cpu]) t ∧
    t.sleep = .returned ∧ ∃ n, s.ticks ≤ n ∧ n ≤ t.ticks ∧ 10 ≤ 10 * (t.ticks - n) := by
  obtain ⟨s, r0, hticks, hreq, -, hret⟩ := onePeriod_boot
  have hcall : timerLegal s (.call 10) := hret
  have hend : sleepEnd s.ticks 10 = 2 := by
    rw [hticks]
    rfl
  have hlt : s.ticks < sleepEnd s.ticks 10 := by
    rw [hend, hticks]
    decide
  obtain ⟨h, r1, hhalt, hticks', hlast, hreq'⟩ := sleep_to_hlt hlt
  have hinv : TimerInv h := timer_inv r1 (timerStep_inv (timer_inv r0 (timerInv_boot samplePit)) hcall)
  obtain ⟨w, r2, hw, -, -, hwlast, hwsleep⟩ := onePeriod_run hinv (hreq'.trans hreq) (by rw [hticks', hticks]; decide)
  rw [if_pos hhalt] at hwsleep
  have hback : (sleepStep w).sleep = .returned := by
    unfold sleepStep
    rw [hwsleep]
    exact if_neg (by omega)
  have r := cpu_run (r1.append r2) (by rw [hwsleep]; simp) (by rw [hwsleep]; simp)
  have hnocall : List.countP TimerEvent.isCall ([.cpu, .cpu, .cpu, .cpu] ++ onePeriod ++ [.cpu]) = 0 := by
    unfold onePeriod
    simp only [List.countP_append, List.countP_replicate]
    rfl
  obtain ⟨-, htime, -⟩ := sleep_on_time r0 hcall r hnocall
  obtain ⟨n, h1, h2, -, h3⟩ := htime hback
  have hw2 : (sleepStep w).ticks = 2 := by
    rw [(sleepStep_frame w).2.2.1, hw, hticks', hticks]
  exact ⟨s, _, r0, r, hback, n, h1, h2, h3 (by decide) (by omega)⟩

end

end Raptor
