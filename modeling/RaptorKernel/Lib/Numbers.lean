import RaptorKernel.Lib.Formats

/-!
# The numeric directives of kvprintf

`%d %i %u %x %X`, with the two buffers of 16 bytes that the digits go through.

* `formatNumAt`, `numText`   the digits in `tmp` and `buf`; a store outside of them is a fault;
* `Radix`                a table of digits that can be read back;
* `formatLoop_val`, `formatLoop_numeral`   the digits are a shortest numeral of the value;
* `strip`                a text without the blanks around it;
* `NumeralPrinted`       the text is a numeral for the argument, of the right length;
* `numeralPrinted_iff`   when it is.
-/

namespace Raptor

/-! ## the buffers -/

/-- `digits` -/
def formatDigits (uppercase : Bool) : List UInt8 :=
  if uppercase then lit "0123456789ABCDEF" else lit "0123456789abcdef"

/-- the loop that fills `tmp`; `n` is the length of `tmp` -/
def formatLoopAt (digits : List UInt8) (base : Nat) : Nat → List UInt8 → Nat → Except Fault (List UInt8)
  | 0, _, _ => .error .diverges
  | fuel+1, tmp, value =>
    if 16 ≤ tmp.length then .error (.dangling tmp.length)
    else
      let tmp := tmp ++ [digits.getD (value % base) 0]
      if value / base ≠ 0 then formatLoopAt digits base fuel tmp (value / base) else .ok tmp

/-- `format_num(buf + off, ..)` -/
def formatNumAt (off value base : Nat) (uppercase : Bool) : Except Fault (List UInt8) := do
  let tmp ← formatLoopAt (formatDigits uppercase) base 32 [] value
  if 16 < off + tmp.length then .error (.dangling (off + tmp.length)) else .ok tmp.reverse

/-- the part of the `switch` that builds a number in `buf` -/
def numText (c : UInt8) (w : Nat) : Except Fault (List UInt8) :=
  if c = 'd'.toUInt8 ∨ c = 'i'.toUInt8 then do
    let u := if 2^31 ≤ w then 2^32 - w else w
    let ds ← formatNumAt 1 u 10 false
    .ok (if 2^31 ≤ w then '-'.toUInt8 :: ds else ds)
  else if c = 'u'.toUInt8 then formatNumAt 0 w 10 false
  else formatNumAt 0 w 16 (c = 'X'.toUInt8)

/-! ## digits -/

/-- the first `base` digits stand for their positions -/
structure Radix (digits : List UInt8) (base : Nat) : Prop where
  two_le : 2 ≤ base
  length : (digits.take base).length = base
  digit : ∀ k < base, (digits.take base).idxOf (digits.getD k 0) = k ∧
    digits.getD k 0 ∈ digits.take base

section
variable {digits : List UInt8} {base : Nat} {fuel v : Nat}

theorem formatLoop_succ (digits : List UInt8) (base fuel v : Nat) :
    (formatLoop digits base (fuel + 1) v).reverse =
      (if v / base ≠ 0 then formatLoop digits base fuel (v / base) else []).reverse ++
        [digits.getD (v % base) 0] := List.reverse_cons

theorem formatLoop_val (h : Radix digits base) (hv : v < base ^ fuel) :
    numVal (digits.take base) (formatLoop digits base fuel v).reverse = v := by
  have hpos : 0 < base := Nat.zero_lt_of_lt h.two_le
  induction fuel generalizing v with
  | zero =>
    have h0 : v = 0 := Nat.lt_one_iff.mp hv
    rw [h0]
    rfl
  | succ fuel ih =>
    have hdigit := (h.digit (v % base) (Nat.mod_lt _ hpos)).1
    have hdiv : v / base < base ^ fuel := by
      rw [Nat.div_lt_iff_lt_mul hpos, ← pow_succ]
      exact hv
    have hhigh : numVal (digits.take base)
        (if v / base ≠ 0 then formatLoop digits base fuel (v / base) else []).reverse = v / base := by
      by_cases h0 : v / base ≠ 0
      · rw [if_pos h0]
        exact ih hdiv
      · rw [if_neg h0, not_not.mp h0]
        rfl
    rw [formatLoop_succ, numVal_concat, hhigh, hdigit, h.length, Nat.mul_comm]
    exact Nat.div_add_mod v base

theorem formatLoop_mem (h : Radix digits base) :
    ∀ c ∈ formatLoop digits base fuel v, c ∈ digits.take base := by
  have hpos : 0 < base := Nat.zero_lt_of_lt h.two_le
  induction fuel generalizing v with
  | zero =>
    intro c hc
    cases hc
  | succ fuel ih =>
    intro c hc
    rcases List.mem_cons.mp hc with rfl | hc
    · exact (h.digit _ (Nat.mod_lt _ hpos)).2
    · split at hc
      · exact ih c hc
      · cases hc

/-- the most significant digit is not zero, unless it is the only one -/
theorem formatLoop_length (hb : 0 < base) (fuel v : Nat) :
    (formatLoop digits base (fuel + 1) v).length = 1 ∨
      base ^ ((formatLoop digits base (fuel + 1) v).length - 1) ≤ v := by
  induction fuel generalizing v with
  | zero =>
    left
    unfold formatLoop formatLoop
    split
    · rfl
    · rfl
  | succ fuel ih =>
    unfold formatLoop
    by_cases h0 : v / base ≠ 0
    · right
      have hle : base ≤ v := by
        by_contra hlt
        exact h0 (Nat.div_eq_of_lt (Nat.lt_of_not_le hlt))
      rw [if_pos h0, List.length_cons, Nat.add_sub_cancel]
      generalize hn : (formatLoop digits base (fuel + 1) (v / base)).length = n
      have hnpos : 0 < n := by
        rw [← hn]
        exact Nat.succ_pos _
      rcases ih (v / base) with h1 | h1
      · rw [hn] at h1
        rw [h1, pow_one]
        exact hle
      · rw [hn] at h1
        have hpow : base ^ n = base ^ (n - 1) * base := by
          rw [← pow_succ, Nat.sub_add_cancel hnpos]
        rw [hpow]
        exact (Nat.le_div_iff_mul_le hb).mp h1
    · left
      rw [if_neg h0]
      rfl

theorem formatLoop_numeral (h : Radix digits base) (hv : v < base ^ (fuel + 1)) :
    IsNumeral (digits.take base) (formatLoop digits base (fuel + 1) v).reverse ∧
      NoLeadingZero (digits.take base) (formatLoop digits base (fuel + 1) v).reverse := by
  constructor
  · refine ⟨fun e => ?_, fun c hc => formatLoop_mem h c (List.mem_reverse.mp hc)⟩
    have := List.reverse_eq_nil_iff.mp e
    cases this
  · unfold NoLeadingZero
    rw [formatLoop_val h hv, List.length_reverse, h.length]
    exact formatLoop_length (Nat.zero_lt_of_lt h.two_le) fuel v

/-- with room for all digits, `tmp` holds them -/
theorem formatLoopAt_ok (hb : 0 < base) (hv : v < base ^ fuel) {tmp : List UInt8}
    (hroom : tmp.length + (formatLoop digits base fuel v).length ≤ 16) (hfuel : 0 < fuel) :
    formatLoopAt digits base fuel tmp v = .ok (tmp ++ formatLoop digits base fuel v) := by
  induction fuel generalizing v tmp with
  | zero => exact absurd hfuel (Nat.lt_irrefl 0)
  | succ fuel ih =>
    unfold formatLoop at hroom ⊢
    rw [List.length_cons] at hroom
    unfold formatLoopAt
    rw [if_neg (by omega)]
    dsimp only
    by_cases h0 : v / base ≠ 0
    · have hdiv : v / base < base ^ fuel := by
        rw [Nat.div_lt_iff_lt_mul hb, ← pow_succ]
        exact hv
      have hfuel' : 0 < fuel := by
        by_contra hzero
        rw [Nat.eq_zero_of_not_pos hzero, pow_zero] at hdiv
        exact h0 (Nat.lt_one_iff.mp hdiv)
      rw [if_pos h0] at hroom ⊢
      rw [if_pos h0, ih hdiv (by rw [List.length_append, List.length_singleton]; omega) hfuel',
        List.append_assoc]
      rfl
    · rw [if_neg h0, if_neg h0]

/-- `n` digits at most, for values below `base ^ n` -/
theorem formatLoop_length_le (hb : 1 < base) {n : Nat} (hn : 0 < n) (hv : v < base ^ n) :
    (formatLoop digits base (fuel + 1) v).length ≤ n := by
  have hlong : (formatLoop digits base (fuel + 1) v).length = 1 ∨
      base ^ ((formatLoop digits base (fuel + 1) v).length - 1) ≤ v :=
    formatLoop_length (Nat.zero_lt_of_lt hb) fuel v
  rcases hlong with h1 | h1
  · omega
  · have := (Nat.pow_lt_pow_iff_right hb).mp (h1.trans_lt hv)
    omega

end

/-! ## one number -/

theorem radix_decimal : Radix (formatDigits false) 10 :=
  ⟨by decide, by decide +kernel, by decide +kernel⟩

theorem radix_hex (uppercase : Bool) : Radix (formatDigits uppercase) 16 := by
  cases uppercase with
  | false => exact ⟨by decide, by decide +kernel, by decide +kernel⟩
  | true => exact ⟨by decide, by decide +kernel, by decide +kernel⟩

/-- The digits of a word fit into both buffers, with room for a sign. -/
theorem formatNumAt_ok {off v base : Nat} (hoff : off ≤ 6) (hbase : 10 ≤ base) (hv : v < 2^32)
    (uppercase : Bool) : formatNumAt off v base uppercase = .ok (formatNum v base uppercase) := by
  have h10 : v < base ^ 10 := hv.trans ((by norm_num : 2^32 < 10^10).trans_le (Nat.pow_le_pow_left hbase 10))
  have h32 : v < base ^ 32 := h10.trans_le (Nat.pow_le_pow_right (by omega) (by norm_num))
  have hlen : (formatLoop (formatDigits uppercase) base 32 v).length ≤ 10 :=
    formatLoop_length_le (by omega) (by norm_num) h10
  have hloop : formatLoopAt (formatDigits uppercase) base 32 [] v =
      .ok ([] ++ formatLoop (formatDigits uppercase) base 32 v) :=
    formatLoopAt_ok (by omega) h32 (by rw [List.length_nil]; omega) (by norm_num)
  unfold formatNumAt
  rw [hloop, ok_bind, List.nil_append, if_neg (by omega)]
  rfl

/-- the value of an argument: an `int` for `%d` and `%i` -/
def argValue (c : UInt8) (w : BitVec 32) : Int :=
  if c = 'd'.toUInt8 ∨ c = 'i'.toUInt8 then w.toInt else w.toNat

/-- the digits that a conversion uses -/
def numAlphabet (c : UInt8) : List UInt8 :=
  (formatDigits (c = 'X'.toUInt8)).take (if c = 'x'.toUInt8 ∨ c = 'X'.toUInt8 then 16 else 10)

def numConvs : List UInt8 := lit "diuxX"

/-- a shortest numeral -/
inductive NumShape (alphabet : List UInt8) : Int → List UInt8 → Prop
  | pos {t : List UInt8} (h : IsNumeral alphabet t) (ht : NoLeadingZero alphabet t) :
      NumShape alphabet (numVal alphabet t) t
  | neg {t : List UInt8} (h : IsNumeral alphabet t) (ht : NoLeadingZero alphabet t)
      (h0 : 0 < numVal alphabet t) : NumShape alphabet (-(numVal alphabet t : Int)) ('-'.toUInt8 :: t)

theorem formatNum_shape {base v : Nat} {uppercase : Bool} (h : Radix (formatDigits uppercase) base)
    (hv : v < 2^32) : IsNumeral ((formatDigits uppercase).take base) (formatNum v base uppercase) ∧
      NoLeadingZero ((formatDigits uppercase).take base) (formatNum v base uppercase) ∧
      numVal ((formatDigits uppercase).take base) (formatNum v base uppercase) = v := by
  have h32 : v < base ^ 32 := hv.trans_le (Nat.pow_le_pow_left h.two_le 32)
  obtain ⟨h1, h2⟩ := formatLoop_numeral h h32
  exact ⟨h1, h2, formatLoop_val h h32⟩

/-- `text` is what the conversion `c` passes to `emit` -/
structure NumTextOf (c : UInt8) (w : BitVec 32) (text : List UInt8) : Prop where
  buffers : numText c w.toNat = .ok text
  shape : NumShape (numAlphabet c) (argValue c w) text
  convert : ∀ left fill width args, convert left fill width c (.word w.toNat :: args) =
    (emit text width left fill, args)

section
variable {c : UInt8} (w : BitVec 32)

theorem toWord_toNat : (Arg.word w.toNat).toWord = w.toNat := Nat.mod_eq_of_lt w.isLt

theorem numText_signed (hc : c = 'd'.toUInt8 ∨ c = 'i'.toUInt8) : ∃ text, NumTextOf c w text := by
  have hw : w.toNat < 2^32 := w.isLt
  have hne : c ≠ 'c'.toUInt8 ∧ c ≠ 's'.toUInt8 ∧ numAlphabet c = (formatDigits false).take 10 := by
    rcases hc with rfl | rfl
    · exact ⟨by decide, by decide, rfl⟩
    · exact ⟨by decide, by decide, rfl⟩
  have hval : argValue c w = w.toInt := if_pos hc
  have hint := BitVec.toInt_eq_toNat_cond w
  have hconv : ∀ left fill width args, convert left fill width c (.word w.toNat :: args) =
      (emit ((if 2^31 ≤ w.toNat then ['-'.toUInt8] else []) ++
        formatNum (if 2^31 ≤ w.toNat then 2^32 - w.toNat else w.toNat) 10 false) width left fill, args) := by
    intro left fill width args
    unfold Raptor.convert
    dsimp only [List.headD_cons, List.tail_cons]
    rw [if_neg hne.1, if_neg hne.2.1, if_pos hc, toWord_toNat]
  have htext : numText c w.toNat = (formatNumAt 1 (if 2^31 ≤ w.toNat then 2^32 - w.toNat else w.toNat)
      10 false >>= fun ds => .ok (if 2^31 ≤ w.toNat then '-'.toUInt8 :: ds else ds)) := if_pos hc
  by_cases hneg : 2^31 ≤ w.toNat
  · rw [if_neg (by omega)] at hint
    simp only [if_pos hneg] at hconv htext
    obtain ⟨h1, h2, h3⟩ := formatNum_shape radix_decimal (v := 2^32 - w.toNat) (by omega)
    rw [formatNumAt_ok (by norm_num) (by norm_num) (by omega)] at htext
    refine ⟨_, htext, ?_, hconv⟩
    have hval' : argValue c w =
        -((numVal ((formatDigits false).take 10) (formatNum (2^32 - w.toNat) 10 false) : Nat) : Int) := by
      rw [hval, hint, h3]
      omega
    rw [hval', hne.2.2]
    exact .neg h1 h2 (by omega)
  · rw [if_pos (by omega)] at hint
    simp only [if_neg hneg] at hconv htext
    obtain ⟨h1, h2, h3⟩ := formatNum_shape radix_decimal hw
    rw [formatNumAt_ok (by norm_num) (by norm_num) hw] at htext
    refine ⟨_, htext, ?_, hconv⟩
    have hval' : argValue c w =
        ((numVal ((formatDigits false).take 10) (formatNum w.toNat 10 false) : Nat) : Int) := by
      rw [hval, hint, h3]
    rw [hval', hne.2.2]
    exact .pos h1 h2

/-- `%u`, `%x` and `%X` differ in the digits only -/
theorem numText_unsigned {base : Nat} {uppercase : Bool} (hr : Radix (formatDigits uppercase) base)
    (hb : 10 ≤ base) (halpha : numAlphabet c = (formatDigits uppercase).take base)
    (hc : ¬ (c = 'd'.toUInt8 ∨ c = 'i'.toUInt8))
    (htext : numText c w.toNat = formatNumAt 0 w.toNat base uppercase)
    (hconv : ∀ left fill width args, Raptor.convert left fill width c (.word w.toNat :: args) =
      (emit (formatNum (Arg.word w.toNat).toWord base uppercase) width left fill, args)) :
    ∃ text, NumTextOf c w text := by
  have hval : argValue c w = w.toNat := if_neg hc
  obtain ⟨h1, h2, h3⟩ := formatNum_shape hr w.isLt
  rw [toWord_toNat] at hconv
  rw [formatNumAt_ok (by norm_num) hb w.isLt] at htext
  have hshape := NumShape.pos h1 h2
  rw [h3] at hshape
  refine ⟨_, htext, ?_, hconv⟩
  rw [hval, halpha]
  exact hshape

theorem numText_spec (hc : c ∈ numConvs) : ∃ text, NumTextOf c w text := by
  have hconvs : numConvs = ['d'.toUInt8, 'i'.toUInt8, 'u'.toUInt8, 'x'.toUInt8, 'X'.toUInt8] := by
    decide +kernel
  rw [hconvs] at hc
  simp only [List.mem_cons, List.not_mem_nil, or_false] at hc
  rcases hc with hd | hi | rfl | rfl | rfl
  · exact numText_signed w (.inl hd)
  · exact numText_signed w (.inr hi)
  · exact numText_unsigned w radix_decimal (by norm_num) rfl (by decide) rfl fun _ _ _ _ => rfl
  · exact numText_unsigned w (radix_hex false) (by norm_num) rfl (by decide) rfl fun _ _ _ _ => rfl
  · exact numText_unsigned w (radix_hex true) (by norm_num) rfl (by decide) rfl fun _ _ _ _ => rfl

end

/-! ## the field -/

/-- without the blanks around it -/
def strip (t : List UInt8) : List UInt8 := (t.dropWhile (· = space)).rdropWhile (· = space)

section
variable {text : List UInt8}

theorem strip_pad (hne : text ≠ []) (hsp : space ∉ text) (a b : Nat) :
    strip (List.replicate a space ++ text ++ List.replicate b space) = text := by
  have hdrop : ∀ (n : Nat) (t rest : List UInt8), t ≠ [] → space ∉ t →
      (List.replicate n space ++ (t ++ rest)).dropWhile (· = space) = t ++ rest := by
    intro n t rest ht hmem
    rw [List.dropWhile_append_of_pos fun c hc => by rw [List.eq_of_mem_replicate hc]; rfl]
    cases t with
    | nil => exact absurd rfl ht
    | cons c t =>
      have hc : ¬ (decide (c = space)) = true := fun e =>
        hmem (by rw [of_decide_eq_true e]; exact List.mem_cons_self)
      exact List.dropWhile_cons_of_neg hc
  unfold strip List.rdropWhile
  rw [List.append_assoc, hdrop a text _ hne hsp, List.reverse_append, List.reverse_replicate]
  have hrev := hdrop b text.reverse [] (fun e => hne (List.reverse_eq_nil_iff.mp e))
    (fun hmem => hsp (List.mem_reverse.mp hmem))
  rw [List.append_nil] at hrev
  rw [hrev, List.reverse_reverse]

theorem emit_length (text : List UInt8) (width : Nat) (left : Bool) (fill : UInt8) :
    (emit text width left fill).length = max width text.length := by
  unfold emit
  cases left with
  | false =>
    simp only [Bool.false_eq_true, if_false, List.append_nil, List.length_append, List.length_replicate]
    omega
  | true =>
    simp only [if_true, List.nil_append, List.length_append, List.length_replicate]
    omega

/-- blanks on one side -/
theorem strip_emit_blank (hne : text ≠ []) (hsp : space ∉ text) (width : Nat) {left : Bool} {fill : UInt8}
    (h : left = true ∨ fill = space) : strip (emit text width left fill) = text := by
  unfold emit
  cases left with
  | false =>
    have hfill : fill = space := by simpa using h
    rw [hfill]
    exact strip_pad hne hsp _ 0
  | true => exact strip_pad hne hsp 0 _

/-- zeros in front -/
theorem strip_emit_zero (hne : text ≠ []) (hsp : space ∉ text) (width : Nat) :
    strip (emit text width false '0'.toUInt8) =
      List.replicate (width - text.length) '0'.toUInt8 ++ text := by
  have hmem : space ∉ List.replicate (width - text.length) '0'.toUInt8 ++ text := by
    intro hmem
    rcases List.mem_append.mp hmem with hmem | hmem
    · exact absurd (List.eq_of_mem_replicate hmem) (by decide)
    · exact hsp hmem
  have hpad := strip_pad (fun e => hne (List.append_eq_nil_iff.mp e).2) hmem 0 0
  unfold emit
  simpa using hpad

end

/-- The text of a numeric directive for the argument `w`: no buffer is overrun, the text is as long
as the width or the shortest numeral, and without the blanks it is a numeral for the argument. -/
structure NumeralPrinted (d : Directive) (w : BitVec 32) : Prop where
  buffers : ∃ text, numText d.conv w.toNat = .ok text
  length : ∃ n, ShortestLength (numAlphabet d.conv) '-'.toUInt8 (argValue d.conv w) n ∧
    (kvprintf d.text [.word w.toNat]).length = max d.fieldWidth n
  value : Denotes (numAlphabet d.conv) '-'.toUInt8 (argValue d.conv w)
    (strip (kvprintf d.text [.word w.toNat]))

/-- zeros go in front of the sign -/
def ZerosBeforeSign (d : Directive) (w : BitVec 32) : Prop :=
  argValue d.conv w < 0 ∧ '0'.toUInt8 ∈ d.flags ∧ '-'.toUInt8 ∉ d.flags ∧
    ∃ n, ShortestLength (numAlphabet d.conv) '-'.toUInt8 (argValue d.conv w) n ∧ n < d.fieldWidth

section
variable {A text : List UInt8} {v : Int}

theorem NumShape.denotes (h : NumShape A v text) : Denotes A '-'.toUInt8 v text := by
  cases h with
  | pos h => exact .pos h
  | neg h => exact .neg h

theorem NumShape.shortest (h : NumShape A v text) (hb : 1 < A.length) :
    ShortestLength A '-'.toUInt8 v text.length := by
  cases h with
  | pos h ht => exact shortest_pos hb h ht
  | neg h ht h0 => exact shortest_neg hb h ht h0

theorem NumShape.ne_nil (h : NumShape A v text) : text ≠ [] := by
  cases h with
  | pos h => exact h.1
  | neg h => exact List.cons_ne_nil _ _

theorem NumShape.no_space (h : NumShape A v text) (hsp : space ∉ A) : space ∉ text := by
  cases h with
  | pos h => exact fun hmem => hsp (h.2 _ hmem)
  | neg h =>
    intro hmem
    rcases List.mem_cons.mp hmem with hmem | hmem
    · exact absurd hmem (by decide)
    · exact hsp (h.2 _ hmem)

/-- leading zeros do not change the value of a numeral without a sign, and spoil the others -/
theorem NumShape.denotes_zeros (h : NumShape A v text) (hzero : '0'.toUInt8 ∈ A ∧ A.idxOf '0'.toUInt8 = 0)
    (hminus : '-'.toUInt8 ∉ A) {n : Nat} (hn : 0 < n) :
    Denotes A '-'.toUInt8 v (List.replicate n '0'.toUInt8 ++ text) ↔ ¬ v < 0 := by
  cases h with
  | @pos t h ht =>
    constructor
    · intro _
      omega
    · intro _
      rw [← numVal_zeros hzero.2 n]
      exact .pos (h.zeros hzero.1 n)
  | @neg t h ht h0 =>
    constructor
    · intro hden
      obtain ⟨n, rfl⟩ := Nat.exists_eq_add_one.mpr hn
      rw [List.replicate_succ, List.cons_append] at hden
      exact absurd (List.mem_append_right _ List.mem_cons_self) (hden.minus_not_mem hminus)
    · intro hv
      omega

end

theorem kvprintf_directive (d : Directive) (args : List Arg) : kvprintf d.text args = (d.emitted args).1 := by
  have hround := d.round [] args
  rw [List.append_nil] at hround
  rw [kvprintf_eq, formatAll_round hround]
  exact List.append_nil _

/-- A numeric directive prints a numeral for its argument, unless it puts zeros before the sign. -/
theorem numeralPrinted_iff (d : Directive) (hd : d.conv ∈ numConvs) (w : BitVec 32) :
    NumeralPrinted d w ↔ ¬ ZerosBeforeSign d w := by
  have halpha : ∀ c ∈ numConvs, 1 < (numAlphabet c).length ∧ space ∉ numAlphabet c ∧
      '-'.toUInt8 ∉ numAlphabet c ∧ '0'.toUInt8 ∈ numAlphabet c ∧
      (numAlphabet c).idxOf '0'.toUInt8 = 0 := by decide +kernel
  obtain ⟨hb, hsp, hminus, hzero⟩ := halpha d.conv hd
  obtain ⟨text, ⟨hbuf, hshape, hconv⟩⟩ := numText_spec w hd
  have hshort := hshape.shortest hb
  have hne := hshape.ne_nil
  have hspace := hshape.no_space hsp
  have hout : kvprintf d.text [.word w.toNat] = emit text d.fieldWidth d.left d.fill := by
    rw [kvprintf_directive]
    exact congrArg Prod.fst (hconv d.left d.fill d.fieldWidth [])
  have hfields : NumeralPrinted d w ↔ Denotes (numAlphabet d.conv) '-'.toUInt8 (argValue d.conv w)
      (strip (emit text d.fieldWidth d.left d.fill)) := by
    constructor
    · intro h
      rw [← hout]
      exact h.value
    · intro h
      rw [← hout] at h
      exact ⟨⟨text, hbuf⟩, ⟨_, hshort, by rw [hout, emit_length]⟩, h⟩
  rw [hfields]
  by_cases hpad : '0'.toUInt8 ∈ d.flags ∧ '-'.toUInt8 ∉ d.flags ∧ text.length < d.fieldWidth
  · obtain ⟨h0, hleft, hlt⟩ := hpad
    have hl : d.left = false := by
      unfold Directive.left
      simpa using hleft
    have hf : d.fill = '0'.toUInt8 := by
      unfold Directive.fill
      rw [if_pos (by simpa using h0)]
    rw [hl, hf, strip_emit_zero hne hspace, hshape.denotes_zeros hzero hminus (Nat.sub_pos_of_lt hlt)]
    constructor
    · intro hv hbad
      exact hv hbad.1
    · intro hbad hv
      exact hbad ⟨hv, h0, hleft, _, hshort, hlt⟩
  · -- the text is printed as it is, with blanks around it at most
    have hgood : strip (emit text d.fieldWidth d.left d.fill) = text := by
      by_cases h0 : '0'.toUInt8 ∈ d.flags
      · by_cases hleft : '-'.toUInt8 ∈ d.flags
        · have hl : d.left = true := by
            unfold Directive.left
            simpa using hleft
          exact strip_emit_blank hne hspace _ (.inl hl)
        · have hgap : d.fieldWidth - text.length = 0 := by
            by_contra hgap
            exact hpad ⟨h0, hleft, by omega⟩
          unfold emit
          rw [hgap]
          simpa using strip_pad hne hspace 0 0
      · have hf : d.fill = space := by
          unfold Directive.fill
          rw [if_neg (by simpa using h0)]
        exact strip_emit_blank hne hspace _ (.inr hf)
    rw [hgood]
    constructor
    · intro _ ⟨_, h0, hleft, n, hn, hlt⟩
      rw [hn.unique hshort] at hlt
      exact hpad ⟨h0, hleft, hlt⟩
    · intro _
      exact hshape.denotes

/-- `%05d` -/
def paddedDirective : Directive where
  flags := ['0'.toUInt8]
  width := ['5'.toUInt8]
  conv := 'd'.toUInt8
  flags_mem := zeroFlag_mem
  width_digit := by decide +kernel
  width_head := by decide
  width_lt := by decide +kernel
  conv_ne := by decide
  conv_digit := by decide
  conv_flag := by decide

theorem numeralPrinted_five : NumeralPrinted paddedDirective 5 :=
  (numeralPrinted_iff paddedDirective (by decide +kernel) 5).mpr fun h => absurd h.1 (by decide)

/-- minus five is printed as `000-5` -/
theorem not_numeralPrinted_padded : ¬ NumeralPrinted paddedDirective (BitVec.ofInt 32 (-5)) := by
  intro h
  have hout : strip (kvprintf paddedDirective.text [.word (BitVec.ofInt 32 (-5)).toNat]) = lit "000-5" := by
    decide +kernel
  have hvalue := h.value
  rw [hout] at hvalue
  exact hvalue.minus_not_mem (by decide +kernel) (by decide +kernel)

end Raptor
