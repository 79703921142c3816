import RaptorKernel.Lib.Kprintf

/-!
# lib/console.c: output

Every byte goes to the screen and the serial line, unless a capture buffer is active; then it goes
into the buffer, as long as there is room.  Colours and clearing act on the screen in any case.

* `screen`            what reached the VGA driver, in order;
* `captured`          the first `capture_len` bytes of the capture buffer;
* `feed`              a sequence of console calls, one after the other;
* `feed_captured`     while capturing, the buffer ends with the first bytes that fit.
-/

namespace Raptor

inductive VgaColor where
  | black | blue | green | cyan | red | magenta | brown | lightGrey
  | darkGrey | lightBlue | lightGreen | lightCyan | lightRed | lightMagenta | yellow | white
deriving DecidableEq, Repr

/-- a call of `console_putc`, `console_set_color` or `console_clear` -/
inductive ConEv where
  | putc (c : UInt8)
  | setColor (fg bg : VgaColor)
  | clear
deriving DecidableEq, Repr

structure Console where
  captureBuf : Nat
  captureCap : Nat
  captured : List UInt8
  screen : List ConEv

def consolePutc (con : Console) (c : UInt8) : Console :=
  if con.captureBuf ≠ 0 then
    if con.captured.length < con.captureCap then { con with captured := con.captured ++ [c] } else con
  else { con with screen := con.screen ++ [.putc c] }

def Console.call (con : Console) : ConEv → Console
  | .putc c => consolePutc con c
  | .setColor fg bg => { con with screen := con.screen ++ [.setColor fg bg] }
  | .clear => { con with screen := con.screen ++ [.clear] }

def Console.feed (con : Console) (evs : List ConEv) : Console := evs.foldl Console.call con

/-- `console_write`: the calls it makes -/
def consoleWrite (s : List UInt8) : List ConEv := s.map .putc

def consoleCaptureBegin (con : Console) (buf cap : Nat) : Console :=
  { con with captureBuf := buf, captureCap := cap, captured := [] }

/-- `console_capture_end`: the bytes captured, and the console after it -/
def consoleCaptureEnd (con : Console) : List UInt8 × Console :=
  (con.captured, { con with captureBuf := 0 })

/-! ## what a sequence of calls leaves -/

/-- the bytes passed to `console_putc` -/
def putcs (evs : List ConEv) : List UInt8 :=
  evs.filterMap fun
    | .putc c => some c
    | _ => none

theorem putcs_append (a b : List ConEv) : putcs (a ++ b) = putcs a ++ putcs b :=
  List.filterMap_append

theorem putcs_consoleWrite (s : List UInt8) : putcs (consoleWrite s) = s := by
  induction s with
  | nil => rfl
  | cons c s ih =>
    show c :: putcs (consoleWrite s) = _
    rw [ih]

section
variable (con : Console) (evs : List ConEv)

theorem feed_cons (e : ConEv) : con.feed (e :: evs) = (con.call e).feed evs := rfl

theorem feed_captureBuf : (con.feed evs).captureBuf = con.captureBuf := by
  induction evs generalizing con with
  | nil => rfl
  | cons e evs ih =>
    rw [feed_cons, ih]
    cases e with
    | putc c =>
      show (consolePutc con c).captureBuf = _
      unfold consolePutc
      split
      · split <;> rfl
      · rfl
    | _ => rfl

end

/-- with no capture active, the screen gets everything -/
theorem feed_screen {con : Console} (h : con.captureBuf = 0) (evs : List ConEv) :
    con.feed evs = { con with screen := con.screen ++ evs } := by
  induction evs generalizing con with
  | nil =>
    rw [List.append_nil]
    rfl
  | cons e evs ih =>
    have he : con.call e = { con with screen := con.screen ++ [e] } := by
      cases e with
      | putc c => exact if_neg (not_not.mpr h)
      | _ => rfl
    rw [feed_cons, he, @ih { con with screen := con.screen ++ [e] } h]
    simp

/-- While capturing, the buffer holds the first bytes that fit, and no byte reaches the screen. -/
theorem feed_captured {con : Console} (h : con.captureBuf ≠ 0)
    (hroom : con.captured.length ≤ con.captureCap) (evs : List ConEv) :
    (con.feed evs).captured = (con.captured ++ putcs evs).take con.captureCap ∧
      putcs (con.feed evs).screen = putcs con.screen := by
  induction evs generalizing con with
  | nil =>
    have e : (con.captured ++ putcs []).take con.captureCap = con.captured := by
      show (con.captured ++ []).take _ = _
      rw [List.append_nil, List.take_of_length_le hroom]
    rw [e]
    exact ⟨rfl, rfl⟩
  | cons e evs ih =>
    rw [feed_cons]
    cases e with
    | putc c =>
      by_cases hlt : con.captured.length < con.captureCap
      · have he : con.call (.putc c) = { con with captured := con.captured ++ [c] } := by
          show consolePutc con c = _
          unfold consolePutc
          rw [if_pos h, if_pos hlt]
        rw [he]
        obtain ⟨h1, h2⟩ := @ih { con with captured := con.captured ++ [c] } h
          (by rw [List.length_append, List.length_singleton]; exact hlt)
        refine ⟨h1.trans ?_, h2⟩
        show (con.captured ++ [c] ++ putcs evs).take _ = (con.captured ++ c :: putcs evs).take _
        simp
      · have he : con.call (.putc c) = con := by
          show consolePutc con c = _
          unfold consolePutc
          rw [if_pos h, if_neg hlt]
        have hfull : con.captured.length = con.captureCap := by omega
        obtain ⟨h1, h2⟩ := ih h hroom
        rw [he]
        refine ⟨h1.trans ?_, h2⟩
        rw [← hfull, List.take_left, List.take_left]
    | setColor fg bg =>
      obtain ⟨h1, h2⟩ := @ih { con with screen := con.screen ++ [.setColor fg bg] } h hroom
      refine ⟨h1, h2.trans ?_⟩
      show putcs (con.screen ++ [.setColor fg bg]) = _
      rw [putcs_append]
      exact List.append_nil _
    | clear =>
      obtain ⟨h1, h2⟩ := @ih { con with screen := con.screen ++ [.clear] } h hroom
      refine ⟨h1, h2.trans ?_⟩
      show putcs (con.screen ++ [.clear]) = _
      rw [putcs_append]
      exact List.append_nil _

end Raptor
