import RaptorKernel.Lib.Console

/-!
# lib/console.c: the serial line

What the console sends to the screen it sends to the serial line as well, with a carriage return
before every newline.

* `SerialConsole`     a console with the bytes given to `serial_putc`;
* `toConsole_run`     without them, it is the console of `Lib/Console.lean`;
* `Reports`           all that a sequence of calls prints comes out on both, and is not captured;
* `reports_of_idle`   it does when no capture is active;
* `reports_iff`       what is printed before a capture is ended comes out only if none was active.
-/

namespace Raptor

/-- a call on the console -/
inductive ConCall where
  | ev (e : ConEv)
  | captureEnd
deriving DecidableEq, Repr

/-- `console_write`, and what `kprintf` does with its text -/
def prints (s : List UInt8) : List ConCall := (consoleWrite s).map .ev

structure SerialConsole extends Console where
  serial : List UInt8

namespace SerialConsole

def serialPutc (t : SerialConsole) (c : UInt8) : SerialConsole := { t with serial := t.serial ++ [c] }

def vgaPutc (t : SerialConsole) (c : UInt8) : SerialConsole := { t with screen := t.screen ++ [.putc c] }

def putc (t : SerialConsole) (c : UInt8) : SerialConsole :=
  if t.captureBuf ≠ 0 then
    if t.captured.length < t.captureCap then { t with captured := t.captured ++ [c] } else t
  else
    let t := t.vgaPutc c
    let t := if c = newline then t.serialPutc '\r'.toUInt8 else t
    t.serialPutc c

def call (t : SerialConsole) : ConCall → SerialConsole
  | .ev (.putc c) => t.putc c
  | .ev e => { t with toConsole := t.toConsole.call e }
  | .captureEnd => { t with toConsole := (consoleCaptureEnd t.toConsole).2 }

def run (t : SerialConsole) (calls : List ConCall) : SerialConsole := calls.foldl call t

theorem toConsole_call (t : SerialConsole) (e : ConEv) : (t.call (.ev e)).toConsole = t.toConsole.call e := by
  cases e with
  | putc c =>
    show (t.putc c).toConsole = consolePutc t.toConsole c
    unfold putc consolePutc
    split
    · split <;> rfl
    · dsimp only
      split <;> rfl
  | _ => rfl

theorem toConsole_run (t : SerialConsole) (evs : List ConEv) :
    (t.run (evs.map .ev)).toConsole = t.toConsole.feed evs := by
  induction evs generalizing t with
  | nil => rfl
  | cons e evs ih =>
    rw [feed_cons, ← toConsole_call]
    exact ih (t.call (.ev e))

end SerialConsole

/-! ## reports -/

/-- the calls that are not about capturing -/
def events (calls : List ConCall) : List ConEv :=
  calls.filterMap fun
    | .ev e => some e
    | .captureEnd => none

/-- the bytes passed to `console_putc`, from the first to the last -/
def printed (calls : List ConCall) : List UInt8 := putcs (events calls)

/-- a newline is sent as two bytes -/
def crlf (s : List UInt8) : List UInt8 := s.flatMap fun c => if c = newline then ['\r'.toUInt8, c] else [c]

namespace SerialConsole

/-- What is printed reaches the screen and the serial line, and nothing the capture buffer. -/
structure Reports (t : SerialConsole) (calls : List ConCall) : Prop where
  screen : putcs (t.run calls).screen = putcs t.screen ++ printed calls
  serial : (t.run calls).serial = t.serial ++ crlf (printed calls)
  captured : (t.run calls).captured = t.captured

end SerialConsole

theorem events_append (a b : List ConCall) : events (a ++ b) = events a ++ events b :=
  List.filterMap_append

theorem events_prints (s : List UInt8) : events (prints s) = consoleWrite s := by
  unfold events prints
  rw [List.filterMap_map]
  exact List.filterMap_some

theorem printed_prints (s : List UInt8) : printed (prints s) = s := by
  unfold printed
  rw [events_prints, putcs_consoleWrite]

theorem printed_append (a b : List ConCall) : printed (a ++ b) = printed a ++ printed b := by
  unfold printed
  rw [events_append, putcs_append]

theorem crlf_cons (c : UInt8) (s : List UInt8) :
    crlf (c :: s) = (if c = newline then ['\r'.toUInt8, c] else [c]) ++ crlf s := List.flatMap_cons

namespace SerialConsole
variable {t : SerialConsole}

theorem run_cons (t : SerialConsole) (c : ConCall) (calls : List ConCall) :
    t.run (c :: calls) = (t.call c).run calls := rfl

theorem run_append (t : SerialConsole) (a b : List ConCall) : t.run (a ++ b) = (t.run a).run b :=
  List.foldl_append

/-- one call, with no capture active -/
theorem call_idle (h : t.captureBuf = 0) (c : ConCall) :
    t.call c = { t with screen := t.screen ++ events [c], serial := t.serial ++ crlf (printed [c]) } := by
  cases c with
  | ev e =>
    cases e with
    | putc c =>
      show t.putc c = { t with screen := t.screen ++ [.putc c], serial := t.serial ++ crlf [c] }
      have hnil : crlf [] = [] := rfl
      unfold putc
      rw [if_neg (not_not.mpr h), crlf_cons, hnil, List.append_nil]
      by_cases hc : c = newline
      · simp [hc, serialPutc, vgaPutc]
      · simp [hc, serialPutc, vgaPutc]
    | setColor fg bg => simp [call, Console.call, events, printed, putcs, crlf]
    | clear => simp [call, Console.call, events, printed, putcs, crlf]
  | captureEnd =>
    have hnone : { t with captureBuf := 0 } = t := by rw [← h]
    simp [call, consoleCaptureEnd, events, printed, putcs, crlf, hnone]

/-- with no capture active, everything is sent -/
theorem run_idle (h : t.captureBuf = 0) (calls : List ConCall) :
    t.run calls = { t with screen := t.screen ++ events calls, serial := t.serial ++ crlf (printed calls) } := by
  induction calls generalizing t with
  | nil =>
    show t = { t with screen := t.screen ++ [], serial := t.serial ++ [] }
    rw [List.append_nil, List.append_nil]
  | cons c calls ih =>
    have hevents : events (c :: calls) = events [c] ++ events calls := events_append [c] calls
    have hcrlf : crlf (printed (c :: calls)) = crlf (printed [c]) ++ crlf (printed calls) := by
      have hprinted : printed (c :: calls) = printed [c] ++ printed calls := printed_append [c] calls
      rw [hprinted]
      exact List.flatMap_append
    rw [run_cons, call_idle h, hevents, hcrlf, ← List.append_assoc, ← List.append_assoc]
    exact ih h

theorem reports_of_idle (h : t.captureBuf = 0) (calls : List ConCall) : t.Reports calls := by
  have hrun := run_idle h calls
  constructor
  · rw [hrun]
    exact putcs_append _ _
  · rw [hrun]
  · rw [hrun]

/-- while capturing, no byte reaches the screen -/
theorem run_capturing (h : t.captureBuf ≠ 0) (s : List UInt8) :
    (t.run (prints s)).screen = t.screen ∧ (t.run (prints s)).captureBuf ≠ 0 := by
  induction s generalizing t with
  | nil => exact ⟨rfl, h⟩
  | cons c s ih =>
    have hcall : (t.call (.ev (.putc c))).screen = t.screen ∧
        (t.call (.ev (.putc c))).captureBuf ≠ 0 := by
      show (t.putc c).screen = _ ∧ (t.putc c).captureBuf ≠ 0
      unfold putc
      rw [if_pos h]
      split
      · exact ⟨rfl, h⟩
      · exact ⟨rfl, h⟩
    obtain ⟨h1, h2⟩ := ih hcall.2
    exact ⟨h1.trans hcall.1, h2⟩

/-- Ending the capture comes too late for what was printed before. -/
theorem reports_iff (t : SerialConsole) (s : List UInt8) (calls : List ConCall) :
    t.Reports (prints s ++ .captureEnd :: calls) ↔ t.captureBuf = 0 ∨ s = [] := by
  constructor
  · intro h
    by_contra hno
    obtain ⟨hbuf, hs⟩ := not_or.mp hno
    obtain ⟨hscreen, _⟩ := run_capturing hbuf s
    -- after the end of the capture, the screen gets the rest and no more
    have hidle : ((t.run (prints s)).call .captureEnd).captureBuf = 0 := rfl
    have hrest := (reports_of_idle hidle calls).screen
    have hall := h.screen
    have hprinted : printed (prints s ++ .captureEnd :: calls) = s ++ printed calls := by
      rw [printed_append, printed_prints]
      rfl
    have hkept : putcs ((t.run (prints s)).call .captureEnd).screen = putcs t.screen :=
      congrArg putcs hscreen
    rw [run_append, run_cons, hprinted, hrest, hkept] at hall
    have hlen := congrArg List.length hall
    rw [List.length_append, List.length_append, List.length_append] at hlen
    exact hs (List.length_eq_zero_iff.mp (by omega))
  · intro h
    obtain hbuf | hs := h
    · exact reports_of_idle hbuf _
    · have hidle : (t.call .captureEnd).captureBuf = 0 := rfl
      obtain ⟨h1, h2, h3⟩ := reports_of_idle hidle calls
      rw [hs]
      exact ⟨h1, h2, h3⟩

end SerialConsole
end Raptor
