import Mathlib

/-!
# The serial port of the PC

A 16550: eight registers at consecutive ports, the first two of which are the divisor latch while bit
7 of the line control register is set.  What is written to the data register waits, in a FIFO of 16
bytes or in a single holding register, until the shift register is free; the shift register then puts
it on the wire as a frame, at the speed and in the format that hold when it is loaded.

* `Uart.outp`, `Uart.inp`       the ports;
* `Uart.load`, `Uart.arrive`    what happens at the other side;
* `Uart.lineStatus_sent`, `Uart.lineStatus_came`   two bits of the line status register;
* `Uart.regs`                   the registers, which only writes change.

Left out: interrupts, the modem status, parity and framing errors, the scratch register.
-/

/-- a byte on the wire: its speed, as the divisor of the clock, and the low seven bits of the line
control register (bits per byte, stop bits, parity, break) -/
structure Frame where
  divisor : Nat
  format : UInt8
  byte : UInt8
deriving DecidableEq, Repr

structure Uart where
  /-- the interrupts that are enabled -/
  ier : UInt8
  /-- line control -/
  lcr : UInt8
  /-- modem control -/
  mcr : UInt8
  divisorLow : UInt8
  divisorHigh : UInt8
  fifos : Bool
  /-- what waits to be sent -/
  tx : List UInt8
  shift : Option Frame
  /-- what came in and was not read -/
  rx : List UInt8
  overrun : Bool
deriving DecidableEq, Repr

namespace Uart

/-- bit 7 of the line control register -/
def dlab (u : Uart) : Bool := u.lcr &&& 0x80 ≠ 0

/-- how many bytes can wait in one direction -/
def room (u : Uart) : Nat := if u.fifos then 16 else 1

/-- a byte for the transmitter; if there is no room, the FIFO drops it, and the holding register
loses the one before it -/
def transmit (u : Uart) (v : UInt8) : Uart :=
  { u with tx := if u.fifos then (u.tx ++ [v]).take 16 else [v] }

/-- the FIFO control register: switching the FIFOs on or off empties them -/
def fifoControl (u : Uart) (v : UInt8) : Uart :=
  let on : Bool := v &&& 0x01 ≠ 0
  { u with
    fifos := on
    rx := if on ≠ u.fifos ∨ v &&& 0x02 ≠ 0 then [] else u.rx
    tx := if on ≠ u.fifos ∨ v &&& 0x04 ≠ 0 then [] else u.tx }

/-- a byte is written to register `i` -/
def outp (u : Uart) : Nat → UInt8 → Uart
  | 0, v => if u.dlab then { u with divisorLow := v } else u.transmit v
  | 1, v => if u.dlab then { u with divisorHigh := v } else { u with ier := v &&& 0x0F }
  | 2, v => u.fifoControl v
  | 3, v => { u with lcr := v }
  | 4, v => { u with mcr := v &&& 0x1F }
  | _, _ => u

/-- the line status, from its bits 0, 1, 5 and 6 -/
def status (came overrun sent idle : Bool) : UInt8 :=
  (if came then 0x01 else 0) ||| (if overrun then 0x02 else 0) ||| (if sent then 0x20 else 0) |||
    if idle then 0x40 else 0

def lineStatus (u : Uart) : UInt8 :=
  status (u.rx ≠ []) u.overrun (u.tx = []) (u.tx = [] ∧ u.shift = none)

/-- register `i` is read; a read of the line status clears its error bits -/
def inp (u : Uart) : Nat → UInt8 × Uart
  | 0 => if u.dlab then (u.divisorLow, u) else (u.rx.headD 0, { u with rx := u.rx.tail })
  | 1 => if u.dlab then (u.divisorHigh, u) else (u.ier, u)
  | 2 => (if u.fifos then 0xC1 else 0x01, u)
  | 3 => (u.lcr, u)
  | 4 => (u.mcr, u)
  | 5 => (u.lineStatus, { u with overrun := false })
  | _ => (0, u)

def divisor (u : Uart) : Nat := 256 * u.divisorHigh.toNat + u.divisorLow.toNat

/-- the frame that a byte becomes -/
def frame (u : Uart) (c : UInt8) : Frame := ⟨u.divisor, u.lcr &&& 0x7F, c⟩

/-- the next byte goes to the shift register, if that is free -/
def load (u : Uart) : Uart :=
  match u.shift, u.tx with
  | none, c :: tx => { u with tx := tx, shift := some (u.frame c) }
  | _, _ => u

/-- the frame in the shift register is on the wire -/
def emit (u : Uart) : Uart := { u with shift := none }

/-- a byte comes in; if there is no room, the FIFO drops it, and without one it replaces the last -/
def arrive (u : Uart) (c : UInt8) : Uart :=
  if u.rx.length < u.room then { u with rx := u.rx ++ [c] }
  else { u with rx := if u.fifos then u.rx else [c], overrun := true }

theorem status_sent (came overrun sent idle : Bool) : status came overrun sent idle &&& 0x20 ≠ 0 ↔ sent = true := by
  decide +revert

theorem status_came (came overrun sent idle : Bool) : status came overrun sent idle &&& 0x01 ≠ 0 ↔ came = true := by
  decide +revert

/-- bit 5 of the line status: everything written has gone to the shift register -/
theorem lineStatus_sent (u : Uart) : u.lineStatus &&& 0x20 ≠ 0 ↔ u.tx = [] := by
  unfold lineStatus
  rw [status_sent, decide_eq_true_eq]

/-- bit 0 of the line status: there is something to read -/
theorem lineStatus_came (u : Uart) : u.lineStatus &&& 0x01 ≠ 0 ↔ u.rx ≠ [] := by
  unfold lineStatus
  rw [status_came, decide_eq_true_eq]

/-! ## the registers -/

/-- what only writes change -/
def regs (u : Uart) : Uart := { u with tx := [], shift := none, rx := [], overrun := false }

section
variable (u : Uart)

theorem regs_load : u.load.regs = u.regs := by
  unfold load
  split
  · rfl
  · rfl

theorem regs_arrive (c : UInt8) : (u.arrive c).regs = u.regs := by
  unfold arrive
  split
  · rfl
  · rfl

theorem regs_outp (i : Nat) (v : UInt8) : (u.outp i v).regs = (u.regs.outp i v).regs := by
  have hdlab : u.regs.dlab = u.dlab := rfl
  unfold outp
  rw [hdlab]
  split
  · split
    · rfl
    · rfl
  · split
    · rfl
    · rfl
  · rfl
  · rfl
  · rfl
  · rfl

end
end Uart
