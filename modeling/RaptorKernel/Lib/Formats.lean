import RaptorKernel.Lib.Kprintf
import RaptorKernel.Theory.Numeral

/-!
# Formats of kvprintf

A format is read as literal characters and directives, each with its flags, its width and its
conversion character.

* `Directive`, `FormatPiece`     the parts of a format, and the arguments they take;
* `formatRound`            one round of the loop: what it emits, and what it leaves;
* `formatRun`              all rounds, with the arguments that are left at the end;
* `formatAll_append`       a format after complete pieces;
* `kvprintfAt`             the loop with its pointer, which may not pass the NUL;
* `kvprintf_compositional`   all of it.
-/

namespace Raptor

def decimal : List UInt8 := lit "0123456789"

/-! ## directives -/

/-- `%[flags][width]conv`.  A zero in front of the width is a flag. -/
structure Directive where
  flags : List UInt8
  width : List UInt8
  conv : UInt8
  flags_mem : ∀ c ∈ flags, c = '-'.toUInt8 ∨ c = '0'.toUInt8
  width_digit : ∀ c ∈ width, isDigit c = true
  width_head : width.head? ≠ some '0'.toUInt8
  width_lt : numVal decimal width < 2^31
  conv_ne : conv ≠ 0
  conv_digit : isDigit conv = false
  conv_flag : width = [] → conv ≠ '-'.toUInt8

theorem zeroFlag_mem : ∀ c ∈ ['0'.toUInt8], c = '-'.toUInt8 ∨ c = '0'.toUInt8 := by simp

namespace Directive
variable (d : Directive)

def text : List UInt8 := '%'.toUInt8 :: (d.flags ++ (d.width ++ [d.conv]))

def left : Bool := d.flags.contains '-'.toUInt8

def fill : UInt8 := if d.flags.contains '0'.toUInt8 then '0'.toUInt8 else space

def fieldWidth : Nat := numVal decimal d.width

/-- without flags and width -/
def plain (c : UInt8) (h : c ≠ 0 ∧ isDigit c = false ∧ c ≠ '-'.toUInt8) : Directive where
  flags := []
  width := []
  conv := c
  flags_mem := by simp
  width_digit := by simp
  width_head := by simp
  width_lt := by decide
  conv_ne := h.1
  conv_digit := h.2.1
  conv_flag := fun _ => h.2.2

/-- what the conversion emits, and the arguments it leaves -/
def emitted (args : List Arg) : List UInt8 × List Arg :=
  convert d.left d.fill d.fieldWidth d.conv args

end Directive

/-- the conversions that take an argument -/
def takesArg (c : UInt8) : Bool := (lit "csdiuxXp").contains c

inductive FormatPiece where
  | literal (c : UInt8) (h : c ≠ 0 ∧ c ≠ '%'.toUInt8)
  | directive (d : Directive)

def FormatPiece.text : FormatPiece → List UInt8
  | .literal c _ => [c]
  | .directive d => d.text

def FormatPiece.args : FormatPiece → Nat
  | .literal _ _ => 0
  | .directive d => if takesArg d.conv then 1 else 0

def formatText (f : List FormatPiece) : List UInt8 := f.flatMap FormatPiece.text

/-- one for each directive that takes an argument -/
def formatArgs (f : List FormatPiece) : Nat := (f.map FormatPiece.args).sum

/-! ## scanning -/

/-- the flags end at a character that is none -/
theorem scanFlags_append {flags rest : List UInt8}
    (hf : ∀ c ∈ flags, c = '-'.toUInt8 ∨ c = '0'.toUInt8)
    (hrest : ∀ c, rest.head? = some c → c ≠ '-'.toUInt8 ∧ c ≠ '0'.toUInt8) (left : Bool) (fill : UInt8) :
    scanFlags (flags ++ rest) left fill =
      (left || flags.contains '-'.toUInt8, if flags.contains '0'.toUInt8 then '0'.toUInt8 else fill, rest) := by
  induction flags generalizing left fill with
  | nil =>
    rw [List.nil_append]
    cases rest with
    | nil => simp [scanFlags]
    | cons c rest =>
      obtain ⟨h1, h2⟩ := hrest c rfl
      unfold scanFlags
      rw [if_neg h1, if_neg h2]
      simp
  | cons c flags ih =>
    have hne : ('0'.toUInt8 == '-'.toUInt8) = false := by decide
    have hne' : ('-'.toUInt8 == '0'.toUInt8) = false := by decide
    have ih := ih fun b hb => hf b (List.mem_cons_of_mem _ hb)
    rw [List.cons_append, scanFlags]
    rcases hf c List.mem_cons_self with rfl | rfl
    · rw [if_pos rfl, ih, List.contains_cons, List.contains_cons, hne]
      simp
    · rw [if_neg (by decide), if_pos rfl, ih, List.contains_cons, List.contains_cons, hne']
      simp

theorem decimal_length : decimal.length = 10 := by decide +kernel

/-- one digit more -/
theorem decimal_step {c : UInt8} (h : isDigit c = true) (n : Nat) :
    n * decimal.length + decimal.idxOf c = n * 10 + (c.toNat - '0'.toNat) := by
  have hall : ∀ b : Fin 256, isDigit (UInt8.ofFin b) = true →
      decimal.idxOf (UInt8.ofFin b) = (UInt8.ofFin b).toNat - '0'.toNat := by decide +kernel
  have hdigit : decimal.idxOf c = c.toNat - '0'.toNat := hall c.toFin h
  rw [decimal_length, hdigit]

/-- the width ends at a character that is no digit -/
theorem scanWidth_append {width rest : List UInt8} (hw : ∀ c ∈ width, isDigit c = true)
    (hrest : ∀ c, rest.head? = some c → isDigit c = false) (n : Nat) :
    scanWidth (width ++ rest) n =
      (width.foldl (fun n c => n * decimal.length + decimal.idxOf c) n, rest) := by
  induction width generalizing n with
  | nil =>
    rw [List.nil_append]
    cases rest with
    | nil => rfl
    | cons c rest =>
      unfold scanWidth
      rw [hrest c rfl]
      rfl
  | cons c width ih =>
    have hc := hw c List.mem_cons_self
    rw [List.cons_append, scanWidth, if_pos hc, ih fun b hb => hw b (List.mem_cons_of_mem _ hb),
      List.foldl_cons, decimal_step hc]

theorem scanFlags_suffix (fmt : List UInt8) (left : Bool) (fill : UInt8) :
    (scanFlags fmt left fill).2.2 <:+ fmt := by
  induction fmt generalizing left fill with
  | nil => exact List.suffix_refl _
  | cons c fmt ih =>
    unfold scanFlags
    split
    · exact (ih _ _).trans (List.suffix_cons _ _)
    split
    · exact (ih _ _).trans (List.suffix_cons _ _)
    · exact List.suffix_refl _

theorem scanWidth_suffix (fmt : List UInt8) (n : Nat) : (scanWidth fmt n).2 <:+ fmt := by
  induction fmt generalizing n with
  | nil => exact List.suffix_refl _
  | cons c fmt ih =>
    unfold scanWidth
    split
    · exact (ih _).trans (List.suffix_cons _ _)
    · exact List.suffix_refl _

/-! ## rounds -/

/-- after the `%` -/
def directiveRound (fmt : List UInt8) (args : List Arg) : Option (List UInt8 × List UInt8 × List Arg) :=
  let (left, fill, fmt) := scanFlags fmt false space
  let (width, fmt) := scanWidth fmt 0
  match fmt with
  | [] => none
  | conv :: fmt =>
    let (out, args) := convert left fill width conv args
    some (out, fmt, args)

/-- What one round of the loop emits, and what it leaves of the format and the arguments; `none` at
the end of the format. -/
def formatRound : List UInt8 → List Arg → Option (List UInt8 × List UInt8 × List Arg)
  | [], _ => none
  | c :: fmt, args => if c ≠ '%'.toUInt8 then some ([c], fmt, args) else directiveRound fmt args

theorem formatRound_literal {c : UInt8} (hc : c ≠ '%'.toUInt8) (fmt : List UInt8) (args : List Arg) :
    formatRound (c :: fmt) args = some ([c], fmt, args) := if_pos hc

theorem formatRound_percent (fmt : List UInt8) (args : List Arg) :
    formatRound ('%'.toUInt8 :: fmt) args = directiveRound fmt args := by
  rw [formatRound, if_neg fun h => h rfl]

/-- the loop of `kvprintf`, and the arguments that are left -/
def formatRun : Nat → List UInt8 → List Arg → List UInt8 × List Arg
  | 0, _, args => ([], args)
  | fuel+1, fmt, args =>
    match formatRound fmt args with
    | none => ([], args)
    | some (out, fmt, args) =>
      let (rest, args) := formatRun fuel fmt args
      (out ++ rest, args)

theorem kvprintfLoop_eq (fuel : Nat) (fmt : List UInt8) (args : List Arg) :
    kvprintfLoop fuel fmt args = (formatRun fuel fmt args).1 := by
  induction fuel generalizing fmt args with
  | zero => rfl
  | succ fuel ih =>
    cases fmt with
    | nil => rfl
    | cons c fmt =>
      by_cases hc : c ≠ '%'.toUInt8
      · unfold kvprintfLoop formatRun
        rw [if_pos hc, formatRound_literal hc, ih]
        rfl
      · unfold kvprintfLoop formatRun
        rw [if_neg hc, not_not.mp hc, formatRound_percent]
        unfold directiveRound
        obtain ⟨left, fill, fmt1⟩ := scanFlags fmt false space
        dsimp only
        obtain ⟨width, fmt2⟩ := scanWidth fmt1 0
        dsimp only
        cases fmt2 with
        | nil => rfl
        | cons conv fmt2 =>
          dsimp only
          rw [ih]

/-- a round consumes a byte -/
theorem formatRound_length {fmt fmt' out : List UInt8} {args args' : List Arg}
    (h : formatRound fmt args = some (out, fmt', args')) : fmt'.length < fmt.length := by
  cases fmt with
  | nil => cases h
  | cons c fmt =>
    by_cases hc : c ≠ '%'.toUInt8
    · rw [formatRound_literal hc] at h
      cases h
      exact Nat.lt_succ_self _
    · rw [not_not.mp hc, formatRound_percent] at h
      unfold directiveRound at h
      dsimp only at h
      have hscan := ((scanWidth_suffix (scanFlags fmt false space).2.2 0).trans
        (scanFlags_suffix fmt false space)).length_le
      generalize (scanWidth (scanFlags fmt false space).2.2 0).2 = rest at h hscan
      cases rest with
      | nil => cases h
      | cons conv rest =>
        cases h
        exact Nat.lt_succ_of_lt hscan

/-- more fuel than bytes makes no difference -/
theorem formatRun_fuel {fuel fuel' : Nat} {fmt : List UInt8} (h : fmt.length < fuel)
    (h' : fmt.length < fuel') (args : List Arg) : formatRun fuel fmt args = formatRun fuel' fmt args := by
  induction fuel generalizing fuel' fmt args with
  | zero => exact absurd h (Nat.not_lt_zero _)
  | succ fuel ih =>
    cases fuel' with
    | zero => exact absurd h' (Nat.not_lt_zero _)
    | succ fuel' =>
      unfold formatRun
      cases hround : formatRound fmt args with
      | none => rfl
      | some r =>
        obtain ⟨out, fmt', args'⟩ := r
        have hlen := formatRound_length hround
        dsimp only
        rw [ih (show fmt'.length < fuel by omega) (show fmt'.length < fuel' by omega)]

/-- the rounds up to the end of the format -/
def formatAll (fmt : List UInt8) (args : List Arg) : List UInt8 × List Arg :=
  formatRun (fmt.length + 1) fmt args

theorem kvprintf_eq (fmt : List UInt8) (args : List Arg) : kvprintf fmt args = (formatAll fmt args).1 :=
  kvprintfLoop_eq _ _ _

theorem formatAll_round {fmt fmt' out : List UInt8} {args args' : List Arg}
    (h : formatRound fmt args = some (out, fmt', args')) :
    formatAll fmt args = (out ++ (formatAll fmt' args').1, (formatAll fmt' args').2) := by
  have hlen := formatRound_length h
  have hrest : formatRun fmt.length fmt' args' = formatAll fmt' args' :=
    formatRun_fuel hlen (Nat.lt_succ_self _) args'
  unfold formatAll at hrest ⊢
  rw [formatRun, h]
  dsimp only
  rw [hrest]

/-- text is printed as it is -/
theorem kvprintf_text {t : List UInt8} (ht : '%'.toUInt8 ∉ t) (fmt : List UInt8) (args : List Arg) :
    kvprintf (t ++ fmt) args = t ++ kvprintf fmt args := by
  induction t with
  | nil => rfl
  | cons c t ih =>
    have hc : c ≠ '%'.toUInt8 := fun e => ht (e ▸ List.mem_cons_self)
    rw [List.cons_append, kvprintf_eq, formatAll_round (formatRound_literal hc _ _), ← kvprintf_eq,
      ih fun h => ht (List.mem_cons_of_mem _ h)]
    rfl

/-! ## pieces -/

theorem takesArg_iff (c : UInt8) : takesArg c = true ↔ c = 'c'.toUInt8 ∨ c = 's'.toUInt8 ∨
    (c = 'd'.toUInt8 ∨ c = 'i'.toUInt8) ∨ c = 'u'.toUInt8 ∨ (c = 'x'.toUInt8 ∨ c = 'X'.toUInt8) ∨
    c = 'p'.toUInt8 := by
  have hall : ∀ b : Fin 256, takesArg (UInt8.ofFin b) = true ↔ UInt8.ofFin b = 'c'.toUInt8 ∨
      UInt8.ofFin b = 's'.toUInt8 ∨ (UInt8.ofFin b = 'd'.toUInt8 ∨ UInt8.ofFin b = 'i'.toUInt8) ∨
      UInt8.ofFin b = 'u'.toUInt8 ∨ (UInt8.ofFin b = 'x'.toUInt8 ∨ UInt8.ofFin b = 'X'.toUInt8) ∨
      UInt8.ofFin b = 'p'.toUInt8 := by decide +kernel
  exact hall c.toFin

section
variable (left : Bool) (fill : UInt8) (width : Nat) {c : UInt8}

/-- an argument is taken, or none is looked at -/
theorem convert_takes (h : takesArg c = true) (a : Arg) (args args' : List Arg) :
    (convert left fill width c (a :: args)).1 = (convert left fill width c (a :: args')).1 ∧
      (convert left fill width c (a :: args)).2 = args := by
  rw [takesArg_iff] at h
  unfold convert
  dsimp only [List.headD_cons, List.tail_cons]
  split
  · exact ⟨rfl, rfl⟩
  split
  · exact ⟨rfl, rfl⟩
  split
  · exact ⟨rfl, rfl⟩
  split
  · exact ⟨rfl, rfl⟩
  split
  · exact ⟨rfl, rfl⟩
  split
  · exact ⟨rfl, rfl⟩
  · tauto

theorem convert_leaves (h : ¬ takesArg c = true) (args args' : List Arg) :
    (convert left fill width c args).1 = (convert left fill width c args').1 ∧
      (convert left fill width c args).2 = args := by
  rw [takesArg_iff] at h
  obtain ⟨hc, h⟩ := not_or.mp h
  obtain ⟨hs, h⟩ := not_or.mp h
  obtain ⟨hd, h⟩ := not_or.mp h
  obtain ⟨hu, h⟩ := not_or.mp h
  obtain ⟨hx, hp⟩ := not_or.mp h
  unfold convert
  dsimp only
  rw [if_neg hc, if_neg hs, if_neg hd, if_neg hu, if_neg hx, if_neg hp, if_neg hc, if_neg hs,
    if_neg hd, if_neg hu, if_neg hx, if_neg hp]
  split
  · exact ⟨rfl, rfl⟩
  · exact ⟨rfl, rfl⟩

end

namespace Directive
variable (d : Directive)

/-- a directive is one round, whatever follows -/
theorem round (rest : List UInt8) (args : List Arg) : formatRound (d.text ++ rest) args =
    some ((d.emitted args).1, rest, (d.emitted args).2) := by
  have hhead : ∀ c, (d.width ++ ([d.conv] ++ rest)).head? = some c → c ≠ '-'.toUInt8 ∧ c ≠ '0'.toUInt8 := by
    intro c hc
    cases hw : d.width with
    | nil =>
      rw [hw] at hc
      cases hc
      refine ⟨d.conv_flag hw, fun e => ?_⟩
      have hdigit := d.conv_digit
      rw [e] at hdigit
      exact absurd hdigit (by decide)
    | cons b width =>
      rw [hw] at hc
      cases hc
      refine ⟨fun e => ?_, fun e => d.width_head (by rw [hw, e]; rfl)⟩
      have hdigit := d.width_digit c (by rw [hw]; exact List.mem_cons_self)
      rw [e] at hdigit
      exact absurd hdigit (by decide)
  have hconv : ∀ c, ([d.conv] ++ rest).head? = some c → isDigit c = false := by
    intro c hc
    cases hc
    exact d.conv_digit
  have htext : d.text ++ rest = '%'.toUInt8 :: (d.flags ++ (d.width ++ ([d.conv] ++ rest))) := by
    unfold text
    rw [List.cons_append, List.append_assoc, List.append_assoc]
  rw [htext, formatRound_percent]
  unfold directiveRound
  rw [scanFlags_append d.flags_mem hhead]
  dsimp only
  rw [scanWidth_append d.width_digit hconv]
  rfl

end Directive

namespace FormatPiece

def emitted : FormatPiece → List Arg → List UInt8 × List Arg
  | .literal c _, args => ([c], args)
  | .directive d, args => d.emitted args

theorem round (p : FormatPiece) (rest : List UInt8) (args : List Arg) : formatRound (p.text ++ rest) args =
    some ((p.emitted args).1, rest, (p.emitted args).2) := by
  cases p with
  | literal c h => exact formatRound_literal h.2 rest args
  | directive d => exact d.round rest args

/-- what it emits depends on the arguments it takes only -/
theorem emitted_append (p : FormatPiece) {a : List Arg} (h : p.args ≤ a.length) (b : List Arg) :
    p.emitted (a ++ b) = ((p.emitted a).1, (p.emitted a).2 ++ b) ∧
      (p.emitted a).2.length = a.length - p.args := by
  cases p with
  | literal c _ => exact ⟨rfl, rfl⟩
  | directive d =>
    unfold args at h ⊢
    unfold emitted Directive.emitted
    by_cases ht : takesArg d.conv = true
    · cases a with
      | nil =>
        dsimp only at h
        rw [if_pos ht] at h
        exact absurd h (Nat.not_succ_le_zero 0)
      | cons a as =>
        obtain ⟨h1, h2⟩ := convert_takes d.left d.fill d.fieldWidth ht a (as ++ b) as
        obtain ⟨_, h3⟩ := convert_takes d.left d.fill d.fieldWidth ht a as as
        dsimp only
        rw [h3, if_pos ht, ← h1, List.cons_append]
        exact ⟨Prod.ext rfl h2, rfl⟩
    · obtain ⟨h1, h2⟩ := convert_leaves d.left d.fill d.fieldWidth ht (a ++ b) a
      obtain ⟨_, h3⟩ := convert_leaves d.left d.fill d.fieldWidth ht a a
      dsimp only
      rw [h3, if_neg ht, ← h1]
      exact ⟨Prod.ext rfl h2, rfl⟩

end FormatPiece

/-- a format after complete pieces, with their arguments -/
theorem formatAll_append (f : List FormatPiece) (g : List UInt8) {a : List Arg} (ha : a.length = formatArgs f)
    (b : List Arg) : formatAll (formatText f ++ g) (a ++ b) =
      ((formatAll (formatText f) a).1 ++ (formatAll g b).1, (formatAll g b).2) := by
  induction f generalizing a with
  | nil =>
    have hnil : a = [] := List.length_eq_zero_iff.mp ha
    rw [hnil]
    rfl
  | cons p f ih =>
    have hargs : formatArgs (p :: f) = p.args + formatArgs f := rfl
    have htext : formatText (p :: f) = p.text ++ formatText f := rfl
    obtain ⟨happ, hlen⟩ := p.emitted_append (a := a) (by omega) b
    have hround := p.round (formatText f ++ g) (a ++ b)
    rw [happ] at hround
    rw [htext, List.append_assoc, formatAll_round hround, formatAll_round (p.round (formatText f) a),
      ih (by omega), List.append_assoc]

/-! ## the pointer -/

/-- `*fmt`, at offset `p`; behind the NUL nothing can be read -/
def fmtAt (fmt : List UInt8) (p : Nat) : Except Fault UInt8 :=
  if p ≤ fmt.length then .ok (fmt.getD p 0) else .error (.dangling p)

def flagsAt (fmt : List UInt8) : Nat → Nat → Bool → UInt8 → Except Fault (Bool × UInt8 × Nat)
  | 0, _, _, _ => .error .diverges
  | fuel+1, p, left, fill => do
    let c ← fmtAt fmt p
    if c = '-'.toUInt8 then flagsAt fmt fuel (p + 1) true fill
    else if c = '0'.toUInt8 then flagsAt fmt fuel (p + 1) left '0'.toUInt8
    else .ok (left, fill, p)

def widthAt (fmt : List UInt8) : Nat → Nat → Nat → Except Fault (Nat × Nat)
  | 0, _, _ => .error .diverges
  | fuel+1, p, width => do
    let c ← fmtAt fmt p
    if isDigit c then widthAt fmt fuel (p + 1) (width * 10 + (c.toNat - '0'.toNat)) else .ok (width, p)

/-- The loop of `kvprintf`: what is emitted, the arguments that are left, and the pointer at the
end. -/
def kvprintfFrom (fmt : List UInt8) : Nat → Nat → List Arg → Except Fault (List UInt8 × List Arg × Nat)
  | 0, _, _ => .error .diverges
  | fuel+1, p, args => do
    let c ← fmtAt fmt p
    if c = 0 then .ok ([], args, p)
    else if c ≠ '%'.toUInt8 then do
      let (rest, args, q) ← kvprintfFrom fmt fuel (p + 1) args
      .ok (c :: rest, args, q)
    else do
      let (left, fill, p) ← flagsAt fmt (fmt.length + 1) (p + 1) false space
      let (width, p) ← widthAt fmt (fmt.length + 1) p 0
      let conv ← fmtAt fmt p
      if conv = 0 then .ok ([], args, p)
      else do
        let (out, args) := convert left fill width conv args
        let (rest, args, q) ← kvprintfFrom fmt fuel (p + 1) args
        .ok (out ++ rest, args, q)

def kvprintfAt (fmt : List UInt8) (args : List Arg) : Except Fault (List UInt8 × List Arg × Nat) :=
  kvprintfFrom fmt (fmt.length + 1) 0 args

/-- `rest` stands at offset `p` -/
structure Points (fmt : List UInt8) (p : Nat) (rest : List UInt8) : Prop where
  le : p ≤ fmt.length
  rest : fmt.drop p = rest

section
variable {fmt rest : List UInt8} {p : Nat} {c : UInt8}

theorem Points.length (h : Points fmt p rest) : p + rest.length = fmt.length := by
  rw [← h.rest, List.length_drop]
  exact Nat.add_sub_cancel' h.le

theorem Points.read_nil (h : Points fmt p []) : fmtAt fmt p = .ok 0 := by
  have hp : fmt[p]? = none := by
    rw [List.getElem?_eq_none]
    have := h.length
    rw [List.length_nil] at this
    omega
  unfold fmtAt
  rw [if_pos h.le, List.getD_eq_getElem?_getD, hp]
  rfl

theorem Points.read_cons (h : Points fmt p (c :: rest)) : fmtAt fmt p = .ok c := by
  have hp : fmt[p]? = some c := by rw [← List.head?_drop, h.rest, List.head?_cons]
  unfold fmtAt
  rw [if_pos h.le, List.getD_eq_getElem?_getD, hp]
  rfl

theorem Points.next (h : Points fmt p (c :: rest)) : Points fmt (p + 1) rest := by
  constructor
  · have := h.length
    rw [List.length_cons] at this
    omega
  · rw [← List.drop_drop, h.rest]
    rfl

theorem flagsAt_spec (h : Points fmt p rest) {fuel : Nat} (hf : rest.length < fuel) (left : Bool)
    (fill : UInt8) : ∃ q, flagsAt fmt fuel p left fill =
        .ok ((scanFlags rest left fill).1, (scanFlags rest left fill).2.1, q) ∧
      Points fmt q (scanFlags rest left fill).2.2 := by
  induction rest generalizing fuel p left fill with
  | nil =>
    obtain ⟨fuel, rfl⟩ := Nat.exists_eq_add_one.mpr hf
    refine ⟨p, ?_, h⟩
    unfold flagsAt
    rw [h.read_nil, ok_bind, if_neg (by decide), if_neg (by decide)]
    rfl
  | cons c rest ih =>
    obtain ⟨fuel, rfl⟩ := Nat.exists_eq_add_one.mpr (Nat.zero_lt_of_lt hf)
    have hf' : rest.length < fuel := Nat.lt_of_succ_lt_succ hf
    unfold flagsAt scanFlags
    rw [h.read_cons, ok_bind]
    split
    · exact ih h.next hf' true fill
    split
    · exact ih h.next hf' left _
    · exact ⟨p, rfl, h⟩

theorem widthAt_spec (h : Points fmt p rest) {fuel : Nat} (hf : rest.length < fuel) (n : Nat) :
    ∃ q, widthAt fmt fuel p n = .ok ((scanWidth rest n).1, q) ∧ Points fmt q (scanWidth rest n).2 := by
  induction rest generalizing fuel p n with
  | nil =>
    obtain ⟨fuel, rfl⟩ := Nat.exists_eq_add_one.mpr hf
    refine ⟨p, ?_, h⟩
    unfold widthAt
    rw [h.read_nil, ok_bind, if_neg (by decide)]
    rfl
  | cons c rest ih =>
    obtain ⟨fuel, rfl⟩ := Nat.exists_eq_add_one.mpr (Nat.zero_lt_of_lt hf)
    have hf' : rest.length < fuel := Nat.lt_of_succ_lt_succ hf
    unfold widthAt scanWidth
    rw [h.read_cons, ok_bind]
    split
    · exact ih h.next hf' _
    · exact ⟨p, rfl, h⟩

/-- The loop with the pointer does what the rounds do, and ends at the NUL. -/
theorem kvprintfFrom_spec (h : Points fmt p rest) (h0 : 0 ∉ rest) {fuel : Nat} (hf : rest.length < fuel)
    (args : List Arg) : kvprintfFrom fmt fuel p args =
      .ok ((formatRun fuel rest args).1, (formatRun fuel rest args).2, fmt.length) := by
  induction fuel generalizing p rest args with
  | zero => exact absurd hf (Nat.not_lt_zero _)
  | succ fuel ih =>
    cases rest with
    | nil =>
      have hend : p = fmt.length := h.length
      unfold kvprintfFrom formatRun
      rw [h.read_nil, ok_bind, if_pos rfl, hend]
      rfl
    | cons c rest =>
      have hc0 : c ≠ 0 := fun e => h0 (by rw [e]; exact List.mem_cons_self)
      have hf' : rest.length < fuel := Nat.lt_of_succ_lt_succ hf
      have h0' : 0 ∉ rest := fun hmem => h0 (List.mem_cons_of_mem _ hmem)
      unfold kvprintfFrom formatRun
      rw [h.read_cons, ok_bind, if_neg hc0]
      by_cases hc : c ≠ '%'.toUInt8
      · rw [if_pos hc, formatRound_literal hc, ih h.next h0' hf' args]
        rfl
      · have hlen := h.length
        rw [List.length_cons] at hlen
        rw [if_neg hc, not_not.mp hc, formatRound_percent]
        unfold directiveRound
        obtain ⟨q, h1, h2⟩ := flagsAt_spec h.next (show rest.length < fmt.length + 1 by omega) false space
        have hmem1 := scanFlags_suffix rest false space
        rw [h1, ok_bind]
        generalize scanFlags rest false space = flags at h2 hmem1
        obtain ⟨left, fill, rest1⟩ := flags
        dsimp only at h2 hmem1 ⊢
        have hlen1 := hmem1.length_le
        obtain ⟨q2, h3, h4⟩ := widthAt_spec h2 (show rest1.length < fmt.length + 1 by omega) 0
        have hmem2 := scanWidth_suffix rest1 0
        rw [h3, ok_bind]
        generalize scanWidth rest1 0 = width at h4 hmem2
        obtain ⟨width, rest2⟩ := width
        dsimp only at h4 hmem2 ⊢
        cases rest2 with
        | nil =>
          have hend : q2 = fmt.length := h4.length
          rw [h4.read_nil, ok_bind, if_pos rfl, hend]
        | cons conv rest2 =>
          have hsub := hmem2.trans hmem1
          have hconv : conv ≠ 0 := fun e => h0' (hsub.subset (by rw [e]; exact List.mem_cons_self))
          have hlen2 := hmem2.length_le
          rw [List.length_cons] at hlen2
          rw [h4.read_cons, ok_bind, if_neg hconv]
          dsimp only
          rw [ih h4.next (fun hmem => h0' (hsub.subset (List.mem_cons_of_mem _ hmem))) (by omega) _]
          rfl

end

theorem kvprintfAt_spec {fmt : List UInt8} (h0 : 0 ∉ fmt) (args : List Arg) :
    kvprintfAt fmt args = .ok (kvprintf fmt args, (formatAll fmt args).2, fmt.length) := by
  rw [kvprintf_eq]
  exact kvprintfFrom_spec ⟨Nat.zero_le _, rfl⟩ h0 (Nat.lt_succ_self _) args

theorem kvprintf_round {fmt fmt' out : List UInt8} {args args' : List Arg}
    (h : formatRound fmt args = some (out, fmt', args')) : kvprintf fmt args = out ++ kvprintf fmt' args' := by
  rw [kvprintf_eq, kvprintf_eq, formatAll_round h]

theorem emit_plain (s : List UInt8) (left : Bool) (fill : UInt8) : emit s 0 left fill = s := by
  unfold emit
  cases left with
  | false => simp
  | true => simp

/-- `%s` -/
theorem kvprintf_s (t fmt : List UInt8) (args : List Arg) :
    kvprintf (lit "%s" ++ fmt) (.str (some t) :: args) = t ++ kvprintf fmt args := by
  have hround := (Directive.plain 's'.toUInt8 (by decide)).round fmt (.str (some t) :: args)
  have hemit : ((Directive.plain 's'.toUInt8 (by decide)).emitted (.str (some t) :: args)) = (t, args) := by
    exact Prod.ext (emit_plain t false space) rfl
  rw [hemit] at hround
  exact kvprintf_round hround

theorem Directive.nulFree (d : Directive) : 0 ∉ d.text := by
  intro h
  unfold Directive.text at h
  rcases List.mem_cons.mp h with h | h
  · exact absurd h (by decide)
  rcases List.mem_append.mp h with h | h
  · rcases d.flags_mem 0 h with h | h
    · exact absurd h (by decide)
    · exact absurd h (by decide)
  rcases List.mem_append.mp h with h | h
  · exact absurd (d.width_digit 0 h) (by decide)
  · exact d.conv_ne (List.mem_singleton.mp h).symm

theorem formatText_nulFree (f : List FormatPiece) : 0 ∉ formatText f := by
  intro h
  obtain ⟨p, _, hp⟩ := List.mem_flatMap.mp h
  cases p with
  | literal c hc => exact hc.1 (List.mem_singleton.mp hp).symm
  | directive d => exact d.nulFree hp

/-- The output on `f` and then `g` is the two outputs; of the arguments those of `f` are used up by
it, one for each directive that takes one; and on every format the pointer ends on the NUL. -/
theorem kvprintf_compositional (f : List FormatPiece) (g : List UInt8) (a b : List Arg)
    (ha : a.length = formatArgs f) :
    kvprintf (formatText f ++ g) (a ++ b) = kvprintf (formatText f) a ++ kvprintf g b ∧
      kvprintfAt (formatText f) (a ++ b) = .ok (kvprintf (formatText f) a, b, (formatText f).length) ∧
      ∀ fmt : List UInt8, 0 ∉ fmt → ∀ args, ∃ rest,
        kvprintfAt fmt args = .ok (kvprintf fmt args, rest, fmt.length) := by
  refine ⟨?_, ?_, fun fmt h0 args => ⟨_, kvprintfAt_spec h0 args⟩⟩
  · rw [kvprintf_eq, kvprintf_eq, kvprintf_eq, formatAll_append f g ha b]
  · have happ := formatAll_append f [] ha b
    have hnil : formatAll [] b = ([], b) := rfl
    rw [List.append_nil, hnil] at happ
    rw [kvprintfAt_spec (formatText_nulFree f), kvprintf_eq, kvprintf_eq, happ, List.append_nil]

/-- `%c`, followed by an unfinished directive -/
theorem kvprintf_compositional_char :
    kvprintf (lit "%c" ++ lit "%-7") [.word 65, .word 66] = kvprintf (lit "%c") [.word 65] ++
      kvprintf (lit "%-7") [.word 66] :=
  (kvprintf_compositional [.directive (.plain 'c'.toUInt8 (by decide))] (lit "%-7") [.word 65] [.word 66] rfl).1

end Raptor
