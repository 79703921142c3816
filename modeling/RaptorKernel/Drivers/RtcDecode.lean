import RaptorKernel.Drivers.Rtc

/-!
# drivers/rtc.c: what rtc_read makes of the registers

The registers hold a time in one of four encodings; `rtc_read` turns the two decimal digits into a
number, and the hours of the morning and the afternoon into those of the day.

* `timeOf`             the time itself, as a `struct rtc_time`;
* `Rtc.Reads`          what `rtc_read` returns;
* `rtcDecode_eq`       the decoding, field by field;
* `decode_rawAt_iff`   it undoes the encoding, but for 12 o'clock on a 12-hour clock;
* `Rtc.Holds.reads_iff`   on a clock that stands still, `rtc_read` returns the decoding of its registers;
* `rtc_decode_iff`     so it returns the time, but for 12 o'clock on a 12-hour clock.
-/

namespace Raptor

def timeOf (c : Calendar) : RawTime where
  year := .ofNat (2000 + c.year)
  month := .ofNat c.month
  day := .ofNat c.day
  hour := .ofNat c.hour
  minute := .ofNat c.minute
  second := .ofNat c.second

/-- All through a call the registers hold the time `c`; an update in progress ends. -/
structure Rtc.Holds (r : Rtc) (c : Calendar) : Prop where
  now : ∀ i, r.now i = c
  ready : ∀ i, ∃ j, i ≤ j ∧ updateInProgress r j = false

/-- `rtc_read` returns `t` -/
def Rtc.Reads (r : Rtc) (t : RawTime) : Prop :=
  ∃ w, ∀ wait ≥ w, ∀ fuel ≥ 1, rtcRead r wait fuel = .ok t

/-! ## decoding -/

/-- a register, as a number -/
def decodeField (statusB v : UInt8) : UInt8 := if statusB &&& 0x04 = 0 then bcdToBin v else v

/-- the hours, still with the bit for the afternoon -/
def decodeHour (statusB v : UInt8) : UInt8 :=
  if statusB &&& 0x04 = 0 then bcdToBin (v &&& 0x7f) ||| (v &&& 0x80) else v

/-- the hours of the day -/
def foldHour (statusB v : UInt8) : UInt8 :=
  if statusB &&& 0x02 = 0 ∧ v &&& 0x80 ≠ 0 then .ofNat (((v &&& (0x7f : UInt8)).toNat + 12) % 24) else v

theorem rtcDecode_eq (statusB year month day hour minute second : UInt8) :
    rtcDecode statusB ⟨year.toUInt16, month, day, hour, minute, second⟩ =
      { year := (decodeField statusB year).toUInt16 + 2000
        month := decodeField statusB month
        day := decodeField statusB day
        hour := foldHour statusB (decodeHour statusB hour)
        minute := decodeField statusB minute
        second := decodeField statusB second } := by
  have hyear : year.toUInt16.toUInt8 = year := by simp
  unfold rtcDecode decodeField decodeHour foldHour
  dsimp only
  by_cases hbcd : statusB &&& 0x04 = 0
  · simp only [if_pos hbcd, hyear]
    split
    · rfl
    · rfl
  · simp only [if_neg hbcd]
    split
    · rfl
    · rfl

theorem bcdToBin_toNat (v : UInt8) : (bcdToBin v).toNat = (v.toNat % 16 + v.toNat / 16 * 10) % 256 := by
  have h15 : (0x0f : UInt8).toNat = 2^4 - 1 := rfl
  have h4 : (4 : UInt8).toNat % 8 = 4 := rfl
  have h10 : (10 : UInt8).toNat = 10 := rfl
  unfold bcdToBin
  rw [UInt8.toNat_add, UInt8.toNat_and, h15, Nat.and_two_pow_sub_one_eq_mod, UInt8.toNat_mul,
    UInt8.toNat_shiftRight, h4, Nat.shiftRight_eq_div_pow, h10, Nat.add_mod_mod]

theorem bcdToBin_encode {n : Nat} (hn : n < 100) : bcdToBin (.ofNat (n / 10 * 16 + n % 10)) = .ofNat n := by
  have hbyte : (UInt8.ofNat (n / 10 * 16 + n % 10)).toNat = n / 10 * 16 + n % 10 := by
    rw [UInt8.toNat_ofNat']
    omega
  have hones : (n / 10 * 16 + n % 10) % 16 = n % 10 := by omega
  have htens : (n / 10 * 16 + n % 10) / 16 = n / 10 := by omega
  apply UInt8.toNat_inj.mp
  rw [bcdToBin_toNat, hbyte, hones, htens, UInt8.toNat_ofNat']
  omega

theorem decodeField_encode (statusB : UInt8) {n : Nat} (hn : n < 100) :
    decodeField statusB (rtcEncode statusB n) = .ofNat n := by
  unfold decodeField rtcEncode
  by_cases hbcd : statusB &&& 0x04 = 0
  · rw [if_pos hbcd, if_neg (not_not.mpr hbcd)]
    exact bcdToBin_encode hn
  · rw [if_neg hbcd, if_pos hbcd]

/-- 12 to 11 of the morning, and of the afternoon with the top bit -/
def hourOf12 (hour : Nat) : UInt8 := .ofNat ((hour + 11) % 12 + 1) ||| if 12 ≤ hour then 0x80 else 0

/-- the bit for the afternoon survives the conversion of the digits -/
theorem decodeHour_encode (statusB : UInt8) {hour : Nat} (hh : hour < 24) :
    decodeHour statusB (rtcEncodeHour statusB hour) =
      if statusB &&& 0x02 ≠ 0 then .ofNat hour else hourOf12 hour := by
  have h24 : ∀ h : Fin 24, decodeHour 0x02 (rtcEncodeHour 0x02 h) = .ofNat h := by decide
  have h12 : ∀ h : Fin 24, decodeHour 0x00 (rtcEncodeHour 0x00 h) = hourOf12 h := by decide
  unfold decodeHour rtcEncodeHour rtcEncode
  by_cases hbcd : statusB &&& 0x04 = 0
  · rw [if_pos hbcd, if_neg (not_not.mpr hbcd), if_neg (not_not.mpr hbcd)]
    split
    · exact h24 ⟨hour, hh⟩
    · exact h12 ⟨hour, hh⟩
  · rw [if_neg hbcd, if_pos hbcd, if_pos hbcd]
    rfl

/-- 12 o'clock is taken for twelve hours after 12 o'clock -/
theorem foldHour_iff (statusB : UInt8) {hour : Nat} (hh : hour < 24) :
    foldHour statusB (if statusB &&& 0x02 ≠ 0 then .ofNat hour else hourOf12 hour) = .ofNat hour ↔
      statusB &&& 0x02 ≠ 0 ∨ hour % 12 ≠ 0 := by
  have h12 : ∀ h : Fin 24, foldHour 0x00 (hourOf12 h) = .ofNat h ↔ h.val % 12 ≠ 0 := by decide
  by_cases hmode : statusB &&& 0x02 = 0
  · have hfold : foldHour statusB (hourOf12 hour) = foldHour 0x00 (hourOf12 hour) := by
      unfold foldHour
      rw [hmode]
      rfl
    rw [if_neg (not_not.mpr hmode), hfold]
    refine (h12 ⟨hour, hh⟩).trans ?_
    simp [hmode]
  · unfold foldHour
    rw [if_pos hmode, if_neg fun h => hmode h.1]
    exact ⟨fun _ => .inl hmode, fun _ => rfl⟩

theorem year_encode {n : Nat} (hn : n < 100) : (UInt8.ofNat n).toUInt16 + 2000 = .ofNat (2000 + n) := by
  have h2000 : (2000 : UInt16).toNat = 2000 := rfl
  apply UInt16.toNat_inj.mp
  rw [UInt16.toNat_add, UInt8.toNat_toUInt16, UInt8.toNat_ofNat', UInt16.toNat_ofNat', h2000]
  omega

theorem decode_rawAt_iff (statusB : UInt8) (c : Calendar) :
    rtcDecode statusB (rawAt statusB c) = timeOf c ↔ statusB &&& 0x02 ≠ 0 ∨ c.hour % 12 ≠ 0 := by
  have hyear := c.year_lt
  have hmonth := c.month_mem.2
  have hday := c.day_mem.2.trans (daysIn_le c.year c.month)
  have hminute := c.minute_lt
  have hsecond := c.second_lt
  rw [← foldHour_iff statusB c.hour_lt, ← decodeHour_encode statusB c.hour_lt]
  unfold rawAt timeOf
  rw [rtcDecode_eq, decodeField_encode statusB hyear, year_encode hyear,
    decodeField_encode statusB (show c.month < 100 by omega),
    decodeField_encode statusB (show c.day < 100 by omega),
    decodeField_encode statusB (show c.minute < 100 by omega),
    decodeField_encode statusB (show c.second < 100 by omega), RawTime.mk.injEq]
  exact ⟨fun h => h.2.2.2.1, fun h => ⟨rfl, rfl, rfl, h, rfl, rfl⟩⟩

/-! ## reading -/

section
variable {r : Rtc} {c : Calendar}

/-- one port read of the wait -/
theorem waitUpdate_step {fuel : Nat} (hf : 0 < fuel) (i : Nat) : waitUpdate r fuel i =
    if updateInProgress r i then waitUpdate r (fuel - 1) (i + 1) else .ok (i + 1) := by
  obtain ⟨fuel, rfl⟩ := Nat.exists_eq_add_one.mpr hf
  rfl

/-- the wait ends with the first port read that finds no update -/
theorem waitUpdate_ends {i j : Nat} (hij : i ≤ j) (hj : updateInProgress r j = false) :
    ∃ p, i ≤ p ∧ ∀ fuel, j < i + fuel → waitUpdate r fuel i = .ok p := by
  induction hij using Nat.decreasingInduction with
  | self =>
    refine ⟨j + 1, Nat.le_succ j, fun fuel hf => ?_⟩
    rw [waitUpdate_step (by omega), hj]
    rfl
  | of_succ i hij ih =>
    obtain ⟨p, hp, hwait⟩ := ih
    by_cases hi : updateInProgress r i = true
    · refine ⟨p, Nat.le_of_succ_le hp, fun fuel hf => ?_⟩
      rw [waitUpdate_step (by omega), if_pos hi]
      exact hwait (fuel - 1) (by omega)
    · refine ⟨i + 1, Nat.le_succ i, fun fuel hf => ?_⟩
      rw [waitUpdate_step (by omega), if_neg hi]

/-- a pass over registers that do not change -/
theorem Rtc.Holds.pass (h : r.Holds c) (i : Nat) :
    ∃ w j, ∀ wait ≥ w, readRaw r wait i = .ok (rawAt r.statusB c, j) := by
  obtain ⟨j, hij, hj⟩ := h.ready i
  obtain ⟨p, _, hwait⟩ := waitUpdate_ends hij hj
  have hpass : passAt r p = rawAt r.statusB c := by
    unfold passAt cmosRead
    rw [h.now, h.now, h.now, h.now, h.now, h.now]
    rfl
  refine ⟨j + 1, p + 6, fun wait hw => ?_⟩
  unfold readRaw
  rw [hwait wait (by omega), ok_bind, ← hpass]
  rfl

theorem memcmp_self (b : List UInt8) : memcmp b b = 0 := (memcmp_eq_zero rfl).mpr rfl

/-- the second pass agrees with the first -/
theorem Rtc.Holds.reads (h : r.Holds c) : r.Reads (rtcDecode r.statusB (rawAt r.statusB c)) := by
  obtain ⟨w1, i, h1⟩ := h.pass 0
  obtain ⟨w2, j, h2⟩ := h.pass i
  refine ⟨max w1 w2, fun wait hw fuel hf => ?_⟩
  obtain ⟨fuel, rfl⟩ := Nat.exists_eq_add_one_of_ne_zero (show fuel ≠ 0 by omega)
  unfold rtcRead rtcReadRaw readLoop
  rw [h1 wait (le_of_max_le_left hw), ok_bind]
  dsimp only
  rw [h2 wait (le_of_max_le_right hw), ok_bind]
  dsimp only
  rw [memcmp_self, if_neg (not_not.mpr rfl)]
  rfl

theorem Rtc.Reads.unique {t t' : RawTime} (h : r.Reads t) (h' : r.Reads t') : t = t' := by
  obtain ⟨w, h⟩ := h
  obtain ⟨w', h'⟩ := h'
  have h1 := h (max w w') (le_max_left w w') 1 (le_refl 1)
  rw [h' (max w w') (le_max_right w w') 1 (le_refl 1)] at h1
  exact (Except.ok.inj h1).symm

theorem Rtc.Holds.reads_iff (h : r.Holds c) (t : RawTime) :
    r.Reads t ↔ rtcDecode r.statusB (rawAt r.statusB c) = t :=
  ⟨fun ht => h.reads.unique ht, fun ht => ht ▸ h.reads⟩

end

/-- When the registers hold the time `c`, `rtc_read` returns `c` exactly if the clock is a 24-hour one
or it is not 12 o'clock. -/
theorem rtc_decode_iff {r : Rtc} {c : Calendar} (h : r.Holds c) :
    r.Reads (timeOf c) ↔ r.statusB &&& 0x02 ≠ 0 ∨ c.hour % 12 ≠ 0 := by
  rw [h.reads_iff]
  exact decode_rawAt_iff r.statusB c

/-- a clock that stands still -/
def stopped (statusB : UInt8) (c : Calendar) : Rtc where
  start := c
  statusB := statusB
  ticks := fun _ => 0
  ticks_mono := monotone_const
  statusA := fun _ => 0x26

theorem stopped_holds (statusB : UInt8) (c : Calendar) : (stopped statusB c).Holds c where
  now := fun _ => rfl
  ready := by
    intro i
    have hidle : updateInProgress (stopped statusB c) i = (0x26 &&& 0x80 != (0 : UInt8)) := rfl
    exact ⟨i, le_refl i, hidle⟩

def halfPastOne : Calendar :=
  ⟨24, 5, 17, 13, 30, 15, by decide, by decide, by decide, by decide, by decide, by decide⟩

theorem rtc_decode_halfPastOne : (stopped 0x00 halfPastOne).Reads (timeOf halfPastOne) :=
  (rtc_decode_iff (stopped_holds 0x00 halfPastOne)).mpr (.inr (by decide))

def halfPastTwelve : Calendar :=
  ⟨24, 5, 17, 12, 30, 15, by decide, by decide, by decide, by decide, by decide, by decide⟩

/-- half past noon on a 12-hour clock is read as half past midnight -/
theorem rtc_decode_noon : (stopped 0x00 halfPastTwelve).Holds halfPastTwelve ∧
    (stopped 0x00 halfPastTwelve).Reads ⟨2024, 5, 17, 0, 30, 15⟩ ∧
    ¬ (stopped 0x00 halfPastTwelve).Reads (timeOf halfPastTwelve) := by
  have h := stopped_holds 0x00 halfPastTwelve
  refine ⟨h, ?_, ?_⟩
  · rw [h.reads_iff]
    decide
  · rw [h.reads_iff]
    decide

end Raptor
