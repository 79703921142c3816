import RaptorKernel.Lib.StringC
import RaptorKernel.Theory.Calendar

/-!
# drivers/rtc.c

The real-time clock goes on while its registers are read, one port read after the other.

* `Rtc`             the clock: when which port read finds which second;
* `rawAt`           its registers at one moment, in the encoding of status register B;
* `readRaw`, `readLoop`, `rtcRead`   the driver;
* `Rtc.Slow`        less than a minute goes by during two successive calls of `read_raw`;
* `readRaw_reads`   one pass; `readLoop_sees`: the loop, pass after pass;
* `rtc_not_torn`    what the loop ends with was in the registers at one moment.
-/

namespace Raptor

/-! ## the registers -/

/-- a number, in binary or as two decimal digits -/
def rtcEncode (statusB : UInt8) (n : Nat) : UInt8 :=
  if statusB &&& 0x04 ≠ 0 then .ofNat n else .ofNat (n / 10 * 16 + n % 10)

/-- the hour, of 24 or of 12 with the top bit for the afternoon -/
def rtcEncodeHour (statusB : UInt8) (hour : Nat) : UInt8 :=
  if statusB &&& 0x02 ≠ 0 then rtcEncode statusB hour
  else rtcEncode statusB ((hour + 11) % 12 + 1) ||| if 12 ≤ hour then 0x80 else 0

/-- what a read of the register `reg` gives -/
def cmosRegister (statusA statusB : UInt8) (now : Calendar) (reg : UInt8) : UInt8 :=
  if reg = 0x00 then rtcEncode statusB now.second
  else if reg = 0x02 then rtcEncode statusB now.minute
  else if reg = 0x04 then rtcEncodeHour statusB now.hour
  else if reg = 0x07 then rtcEncode statusB now.day
  else if reg = 0x08 then rtcEncode statusB now.month
  else if reg = 0x09 then rtcEncode statusB now.year
  else if reg = 0x0A then statusA
  else if reg = 0x0B then statusB
  else 0

/-- Before the `i`-th port read, `ticks i` seconds have passed; `statusA i` is what status register A
holds then. -/
structure Rtc where
  start : Calendar
  statusB : UInt8
  ticks : Nat → Nat
  ticks_mono : Monotone ticks
  statusA : Nat → UInt8

/-- the clock at the `i`-th port read -/
def Rtc.now (r : Rtc) (i : Nat) : Calendar := r.start.after (r.ticks i)

/-- `cmos_read(reg)`, as the `i`-th port read -/
def cmosRead (r : Rtc) (i : Nat) (reg : UInt8) : UInt8 :=
  cmosRegister (r.statusA i) r.statusB (r.now i) reg

/-! ## the driver -/

/-- `struct rtc_time` -/
structure RawTime where
  year : UInt16
  month : UInt8
  day : UInt8
  hour : UInt8
  minute : UInt8
  second : UInt8
deriving DecidableEq, Repr

/-- the bytes of the struct; the padding is copied with them -/
def RawTime.bytes (t : RawTime) : List UInt8 :=
  [t.year.toUInt8, (t.year >>> 8).toUInt8, t.month, t.day, t.hour, t.minute, t.second]

def updateInProgress (r : Rtc) (i : Nat) : Bool := cmosRead r i 0x0A &&& 0x80 != 0

/-- `while (update_in_progress())`, from port read `i` on: the next port read -/
def waitUpdate (r : Rtc) : Nat → Nat → Except Fault Nat
  | 0, _ => .error .diverges
  | fuel+1, i => if updateInProgress r i then waitUpdate r fuel (i + 1) else .ok (i + 1)

/-- `read_raw`, and the next port read -/
def readRaw (r : Rtc) (fuel i : Nat) : Except Fault (RawTime × Nat) := do
  let i ← waitUpdate r fuel i
  let second := cmosRead r i 0x00
  let minute := cmosRead r (i + 1) 0x02
  let hour := cmosRead r (i + 2) 0x04
  let day := cmosRead r (i + 3) 0x07
  let month := cmosRead r (i + 4) 0x08
  let year := (cmosRead r (i + 5) 0x09).toUInt16
  .ok (⟨year, month, day, hour, minute, second⟩, i + 6)

/-- the loop of `rtc_read`; `t` is what the last pass has read -/
def readLoop (r : Rtc) (wait : Nat) : Nat → RawTime → Nat → Except Fault (RawTime × Nat)
  | 0, _, _ => .error .diverges
  | fuel+1, prev, i => do
    let (t, j) ← readRaw r wait i
    if memcmp prev.bytes t.bytes ≠ 0 then readLoop r wait fuel t j else .ok (t, j)

/-- `rtc_read` up to the end of the loop -/
def rtcReadRaw (r : Rtc) (wait fuel : Nat) : Except Fault (RawTime × Nat) := do
  let (t, i) ← readRaw r wait 0
  readLoop r wait fuel t i

def bcdToBin (v : UInt8) : UInt8 := (v &&& (0x0f : UInt8)) + (v >>> (4 : UInt8)) * 10

/-- the rest of `rtc_read` -/
def rtcDecode (statusB : UInt8) (t : RawTime) : RawTime :=
  let t : RawTime := if statusB &&& 0x04 = 0 then
      { second := bcdToBin t.second
        minute := bcdToBin t.minute
        hour := bcdToBin (t.hour &&& 0x7f) ||| (t.hour &&& 0x80)
        day := bcdToBin t.day
        month := bcdToBin t.month
        year := (bcdToBin t.year.toUInt8).toUInt16 }
    else t
  let t := if statusB &&& 0x02 = 0 ∧ t.hour &&& 0x80 ≠ 0 then
      { t with hour := .ofNat (((t.hour &&& (0x7f : UInt8)).toNat + 12) % 24) }
    else t
  { t with year := t.year + 2000 }

def rtcRead (r : Rtc) (wait fuel : Nat) : Except Fault RawTime := do
  let (t, i) ← rtcReadRaw r wait fuel
  .ok (rtcDecode (cmosRead r i 0x0B) t)

/-! ## one moment -/

/-- the six registers at one moment -/
def rawAt (statusB : UInt8) (now : Calendar) : RawTime where
  year := (rtcEncode statusB now.year).toUInt16
  month := rtcEncode statusB now.month
  day := rtcEncode statusB now.day
  hour := rtcEncodeHour statusB now.hour
  minute := rtcEncode statusB now.minute
  second := rtcEncode statusB now.second

/-- a call of `read_raw` begins at port read `i` -/
inductive Rtc.Begins (r : Rtc) : Nat → Prop
  | first : Begins r 0
  | next {wait i j : Nat} {t : RawTime} (h : Begins r i) (hr : readRaw r wait i = .ok (t, j)) : Begins r j

/-- From the first to the last port read of two successive calls of `read_raw`, fewer than 60 seconds
pass. -/
def Rtc.Slow (r : Rtc) : Prop :=
  ∀ {i j k wait wait' : Nat} {t t' : RawTime}, r.Begins i → readRaw r wait i = .ok (t, j) →
    readRaw r wait' j = .ok (t', k) → r.ticks (k - 1) < r.ticks i + 60

theorem rtcEncode_inj {statusB : UInt8} {m n : Nat} (hm : m < 60) (hn : n < 60)
    (h : rtcEncode statusB m = rtcEncode statusB n) : m = n := by
  unfold rtcEncode at h
  split at h
  · have := congrArg UInt8.toNat h
    rw [UInt8.toNat_ofNat', UInt8.toNat_ofNat'] at this
    omega
  · have := congrArg UInt8.toNat h
    rw [UInt8.toNat_ofNat', UInt8.toNat_ofNat'] at this
    omega

theorem bytes_inj {t t' : RawTime} (h : t.bytes = t'.bytes) : t = t' := by
  obtain ⟨year, month, day, hour, minute, second⟩ := t
  obtain ⟨year', month', day', hour', minute', second'⟩ := t'
  unfold RawTime.bytes at h
  simp only [List.cons.injEq, and_true] at h
  obtain ⟨hlow, hhigh, rfl, rfl, rfl, rfl, rfl⟩ := h
  have hyear : year = year' := by
    have h8 : (8 : UInt16).toNat % 16 = 8 := rfl
    have hlow := congrArg UInt8.toNat hlow
    have hhigh := congrArg UInt8.toNat hhigh
    rw [UInt16.toNat_toUInt8, UInt16.toNat_toUInt8] at hlow hhigh
    rw [UInt16.toNat_shiftRight, UInt16.toNat_shiftRight, h8, Nat.shiftRight_eq_div_pow,
      Nat.shiftRight_eq_div_pow] at hhigh
    have h1 := year.toNat_lt
    have h2 := year'.toNat_lt
    exact UInt16.toNat_inj.mp (by omega)
  rw [hyear]

/-! ## passes -/

/-- the six reads of a pass that begins at port read `i` with the seconds -/
def passAt (r : Rtc) (i : Nat) : RawTime where
  year := (cmosRead r (i + 5) 0x09).toUInt16
  month := cmosRead r (i + 4) 0x08
  day := cmosRead r (i + 3) 0x07
  hour := cmosRead r (i + 2) 0x04
  minute := cmosRead r (i + 1) 0x02
  second := cmosRead r i 0x00

section
variable {r : Rtc} {wait i j : Nat} {t : RawTime}

theorem waitUpdate_le (h : waitUpdate r wait i = .ok j) : i < j := by
  induction wait generalizing i with
  | zero => cases h
  | succ wait ih =>
    unfold waitUpdate at h
    split at h
    · exact (Nat.lt_succ_self i).trans (ih h)
    · cases h
      exact Nat.lt_succ_self i

/-- `read_raw` waits, and then makes one pass -/
theorem readRaw_reads (h : readRaw r wait i = .ok (t, j)) : ∃ p, i ≤ p ∧ j = p + 6 ∧ t = passAt r p := by
  obtain ⟨p, hp, h⟩ := bind_eq_ok.mp h
  cases h
  exact ⟨p, Nat.le_of_lt (waitUpdate_le hp), rfl, rfl⟩

/-- while the clock does not move, a pass reads what the registers hold -/
theorem passAt_still {p : Nat} (h : r.ticks (p + 5) = r.ticks p) : passAt r p = rawAt r.statusB (r.now p) := by
  have hstill : ∀ k, k ≤ 5 → r.now (p + k) = r.now p := by
    intro k hk
    have h1 := r.ticks_mono (Nat.le_add_right p k)
    have h2 := r.ticks_mono (Nat.add_le_add_left hk p)
    unfold Rtc.now
    rw [Nat.le_antisymm (h2.trans_eq h) h1]
  unfold passAt cmosRead
  rw [hstill 1 (by decide), hstill 2 (by decide), hstill 3 (by decide), hstill 4 (by decide),
    hstill 5 (by decide)]
  rfl

/-- Two passes less than a minute apart that read the same seconds: the clock has not moved in
between. -/
theorem ticks_eq {p q : Nat} (hpq : p ≤ q) (hslow : r.ticks q < r.ticks p + 60)
    (h : (passAt r p).second = (passAt r q).second) : r.ticks p = r.ticks q :=
  Calendar.after_eq (c := r.start) (r.ticks_mono hpq) hslow
    (rtcEncode_inj (r.now p).second_lt (r.now q).second_lt h)

/-- The loop, after a pass that began at port read `i0`. -/
theorem readLoop_sees (hslow : r.Slow) {fuel i0 wait0 : Nat} {prev : RawTime} (hb : r.Begins i0)
    (h0 : readRaw r wait0 i0 = .ok (prev, i)) (h : readLoop r wait fuel prev i = .ok (t, j)) :
    ∃ p < j, t = rawAt r.statusB (r.now p) := by
  induction fuel generalizing i0 wait0 prev i with
  | zero => cases h
  | succ fuel ih =>
    obtain ⟨⟨t', k⟩, h1, h⟩ := bind_eq_ok.mp h
    dsimp only at h
    by_cases hcmp : memcmp prev.bytes t'.bytes ≠ 0
    · rw [if_pos hcmp] at h
      exact ih (hb.next h0) h1 h
    · rw [if_neg hcmp] at h
      cases h
      have hlen : prev.bytes.length = t.bytes.length := rfl
      have hsame : prev = t := bytes_inj ((memcmp_eq_zero hlen).mp (not_not.mp hcmp))
      have hless := hslow hb h0 h1
      obtain ⟨p, hp, rfl, hprev⟩ := readRaw_reads h0
      obtain ⟨q, hq, rfl, ht⟩ := readRaw_reads h1
      have hpq : p ≤ q := by omega
      have hle : r.ticks q ≤ r.ticks (q + 6 - 1) := r.ticks_mono (by omega)
      have hge : r.ticks i0 ≤ r.ticks p := r.ticks_mono hp
      have hseconds : (passAt r p).second = (passAt r q).second := by rw [← hprev, ← ht, hsame]
      have heq := ticks_eq hpq (by omega) hseconds
      -- the first pass was over before the second began
      have hstill : r.ticks (p + 5) = r.ticks p := by
        have h2 := r.ticks_mono (show p + 5 ≤ q by omega)
        have h3 := r.ticks_mono (show p ≤ p + 5 by omega)
        omega
      refine ⟨p, by omega, ?_⟩
      rw [← hsame, hprev]
      exact passAt_still hstill

end

/-- The clock is never read torn: when the loop of `rtc_read` ends, it has the six registers of one
moment of the call, whenever the clock moved. -/
theorem rtc_not_torn {r : Rtc} (hslow : r.Slow) {wait fuel j : Nat} {t : RawTime}
    (h : rtcReadRaw r wait fuel = .ok (t, j)) : ∃ p < j, t = rawAt r.statusB (r.now p) := by
  obtain ⟨⟨prev, i⟩, h0, h⟩ := bind_eq_ok.mp h
  exact readLoop_sees hslow .first h0 h

/-- New Year's Eve: the year goes by after the seconds were read, and the passes are three. -/
def newYear : Rtc where
  start := ⟨23, 12, 31, 23, 59, 59, by decide, by decide, by decide, by decide, by decide, by decide⟩
  statusB := 0x02
  ticks := fun i => if i < 2 then 0 else 1
  ticks_mono := by
    intro i j hij
    dsimp only
    split
    · exact Nat.zero_le _
    · rw [if_neg (by omega)]
  statusA := fun _ => 0x26

theorem rtc_not_torn_newYear : ∃ t p, rtcReadRaw newYear 1 3 = .ok (t, 21) ∧
    t = rawAt newYear.statusB (newYear.now p) := by
  have hslow : newYear.Slow := by
    intro i j k wait wait' t t' _ _ _
    have hle : newYear.ticks (k - 1) ≤ 1 := by
      show (if k - 1 < 2 then 0 else 1) ≤ 1
      split
      · decide
      · decide
    omega
  have hrun : rtcReadRaw newYear 1 3 = .ok (rawAt 0x02 (newYear.now 2), 21) := by decide +kernel
  obtain ⟨p, _, ht⟩ := rtc_not_torn hslow hrun
  exact ⟨_, p, hrun, ht⟩

end Raptor
