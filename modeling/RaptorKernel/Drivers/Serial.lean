import RaptorKernel.Lib.SerialConsole
import RaptorKernel.Theory.Run
import RaptorKernel.Theory.Uart

/-!
# drivers/serial.c

The code accesses the registers of the UART one after the other; between two accesses the UART can
send what waits, and bytes can come in.

* `serialInit`, `serialStmt`   the port accesses of the driver;
* `serialMachine`              an access, a call of `console_putc` or `serial_read`, or something that the
                               UART does, per step;
* `Configured`                 what `serial_init` does to the registers, whatever they held;
* `Starting`, `Running`        while it runs, and once it has returned;
* `Uncalled`, `SerialSystem.work`   what is left to do once nothing is called any more;
* `serial_line`                what that says about every interleaving.
-/

namespace Raptor

def com1 : Nat := 0x3F8

def regData : Nat := com1 + 0
def regIntEnable : Nat := com1 + 1
def regFifoCtrl : Nat := com1 + 2
def regLineCtrl : Nat := com1 + 3
def regModemCtrl : Nat := com1 + 4
def regLineStatus : Nat := com1 + 5

def lsrDataReady : UInt8 := 0x01
def lsrTxEmpty : UInt8 := 0x20

/-- the port answers from `COM1` on -/
def serialOut (u : Uart) (port : Nat) (v : UInt8) : Uart := u.outp (port - com1) v
def serialIn (u : Uart) (port : Nat) : UInt8 × Uart := u.inp (port - com1)

/-- `serial_init`: the bytes it writes, and where -/
def serialInit : List (Nat × UInt8) :=
  [(regIntEnable, 0x00), (regLineCtrl, 0x80), (regData, 0x01), (regIntEnable, 0x00), (regLineCtrl, 0x03),
    (regFifoCtrl, 0xC7), (regModemCtrl, 0x0B)]

/-! ## interleavings -/

/-- where the code is -/
inductive SerialPc where
  /-- in `serial_init`, with these writes left -/
  | init (writes : List (Nat × UInt8))
  /-- not in the driver -/
  | idle
  /-- in `console_putc`, with these bytes left for `serial_putc`; the first is past the loop or not -/
  | putc (bytes : List UInt8) (polled : Bool)
  /-- in `serial_read`, before its test -/
  | test
  /-- in `serial_read`, after it -/
  | fetch

/-- The UART and the code that uses it, and what went through: the frames that left, the characters
printed, the bytes that came in while there was room, and what `serial_read` returned, -1 apart.  Of the
first and the third, `serial_init` returning makes a new start. -/
structure SerialSystem where
  uart : Uart
  pc : SerialPc
  wire : List Frame
  before : List Frame
  text : List UInt8
  heard : List UInt8
  got : List UInt8

inductive SerialEvent where
  /-- the next port access, or the return -/
  | stmt
  /-- `console_putc` is called, and no capture is active -/
  | putc (c : UInt8)
  /-- `serial_read` is called -/
  | read
  | load
  | emit
  | arrive (c : UInt8)

/-- what has left the port, or is about to -/
def SerialSystem.under (s : SerialSystem) : List Frame := s.wire ++ s.uart.shift.toList

def serialStmt (s : SerialSystem) : SerialSystem :=
  match s.pc with
  | .init [] => { s with pc := .idle, before := s.under, heard := s.uart.rx }
  | .init ((port, v) :: writes) => { s with uart := serialOut s.uart port v, pc := .init writes }
  | .idle => s
  | .putc [] _ => { s with pc := .idle }
  | .putc bytes false =>
    { s with
      uart := (serialIn s.uart regLineStatus).2
      pc := .putc bytes ((serialIn s.uart regLineStatus).1 &&& lsrTxEmpty ≠ 0) }
  | .putc (c :: bytes) true => { s with uart := serialOut s.uart regData c, pc := .putc bytes false }
  | .test =>
    { s with
      uart := (serialIn s.uart regLineStatus).2
      pc := if (serialIn s.uart regLineStatus).1 &&& lsrDataReady = 0 then .idle else .fetch }
  | .fetch =>
    { s with
      uart := (serialIn s.uart regData).2
      pc := .idle
      got := s.got ++ [(serialIn s.uart regData).1] }

def serialStep (s : SerialSystem) : SerialEvent → SerialSystem
  | .stmt => serialStmt s
  | .putc c => { s with pc := .putc (crlf [c]) false, text := s.text ++ [c] }
  | .read => { s with pc := .test }
  | .load => { s with uart := s.uart.load }
  | .emit => { s with uart := s.uart.emit, wire := s.under }
  | .arrive c =>
    { s with
      uart := s.uart.arrive c
      heard := if s.uart.rx.length < s.uart.room then s.heard ++ [c] else s.heard }

/-- the code is not interrupted by another call -/
def serialMachine : Machine SerialSystem SerialEvent Fault where
  step s e := .ok (serialStep s e)
  legal s e := match e with
    | .putc _ | .read => s.pc = .idle
    | _ => True

/-- `serial_init` is called, on a UART in any state -/
def serialStart (u : Uart) (wire : List Frame) : SerialSystem := ⟨u, .init serialInit, wire, [], [], [], []⟩

/-! ## serial_init -/

/-- 8 bits, no parity, one stop bit, at the full speed, with the FIFOs on -/
structure Configured (u : Uart) : Prop where
  lcr : u.lcr = 0x03
  divisor : u.divisor = 1
  fifos : u.fifos = true

section
variable (u : Uart)

/-- the registers after some writes -/
def writeRegs (writes : List (Nat × UInt8)) : Uart :=
  writes.foldl (fun v w => (serialOut v w.1 w.2).regs) u.regs

theorem writeRegs_snoc {v : Uart} {writes : List (Nat × UInt8)} (h : v.regs = writeRegs u writes) (port : Nat) (x : UInt8) :
    (serialOut v port x).regs = writeRegs u (writes ++ [(port, x)]) := by
  unfold writeRegs
  rw [List.foldl_append, ← writeRegs, ← h]
  exact Uart.regs_outp v _ x

theorem configured_congr {u v : Uart} (h : u.regs = v.regs) (hv : Configured v) : Configured u := by
  have hlcr := congrArg Uart.lcr h
  have hdivisor := congrArg Uart.divisor h
  have hfifos := congrArg Uart.fifos h
  exact ⟨hlcr.trans hv.lcr, hdivisor.trans hv.divisor, hfifos.trans hv.fifos⟩

theorem out_intEnable (x : UInt8) : serialOut u regIntEnable x =
    if u.dlab then { u with divisorHigh := x } else { u with ier := x &&& 0x0F } := rfl

theorem out_lineCtrl (x : UInt8) : serialOut u regLineCtrl x = { u with lcr := x } := rfl

theorem out_data (x : UInt8) : serialOut u regData x =
    if u.dlab then { u with divisorLow := x } else u.transmit x := rfl

theorem out_fifoCtrl (x : UInt8) : serialOut u regFifoCtrl x = u.fifoControl x := rfl

theorem out_modemCtrl (x : UInt8) : serialOut u regModemCtrl x = { u with mcr := x &&& 0x1F } := rfl

/-- reading the line status changes nothing but the error bit -/
theorem in_lineStatus : serialIn u regLineStatus = (u.lineStatus, { u with overrun := false }) := rfl

theorem in_data : serialIn u regData =
    if u.dlab then (u.divisorLow, u) else (u.rx.headD 0, { u with rx := u.rx.tail }) := rfl

-- from here on the lemmas above say what the ports do
attribute [irreducible] serialIn serialOut

theorem dlab_open {u : Uart} (h : u.lcr = 0x80) : u.dlab = true := by
  unfold Uart.dlab
  rw [h]
  rfl

/-- After the first write the latch is set, whatever it held. -/
theorem writeRegs_init : Configured (writeRegs u serialInit) ∧
    (u.dlab = false → (writeRegs u serialInit).ier = 0) := by
  obtain ⟨v, hv⟩ : ∃ v, (serialOut u.regs regIntEnable 0x00).regs = v := ⟨_, rfl⟩
  let regsAt (lcr mcr low high : UInt8) (fifos : Bool) : Uart := ⟨v.ier, lcr, mcr, low, high, fifos, [], none, [], false⟩
  have h1 : (serialOut v regLineCtrl 0x80).regs = regsAt 0x80 v.mcr v.divisorLow v.divisorHigh v.fifos := by
    rw [out_lineCtrl]
    rfl
  have h2 : ∀ mcr low high fifos, (serialOut (regsAt 0x80 mcr low high fifos) regData 0x01).regs =
      regsAt 0x80 mcr 0x01 high fifos := by
    intro mcr low high fifos
    rw [out_data, if_pos (dlab_open rfl)]
    rfl
  have h3 : ∀ mcr low high fifos, (serialOut (regsAt 0x80 mcr low high fifos) regIntEnable 0x00).regs =
      regsAt 0x80 mcr low 0x00 fifos := by
    intro mcr low high fifos
    rw [out_intEnable, if_pos (dlab_open rfl)]
    rfl
  have h4 : ∀ lcr mcr low high fifos, (serialOut (regsAt lcr mcr low high fifos) regLineCtrl 0x03).regs =
      regsAt 0x03 mcr low high fifos := by
    intro lcr mcr low high fifos
    rw [out_lineCtrl]
    rfl
  have h5 : ∀ lcr mcr low high fifos, (serialOut (regsAt lcr mcr low high fifos) regFifoCtrl 0xC7).regs =
      regsAt lcr mcr low high true := by
    intro lcr mcr low high fifos
    rw [out_fifoCtrl]
    rfl
  have h6 : ∀ lcr mcr low high fifos, (serialOut (regsAt lcr mcr low high fifos) regModemCtrl 0x0B).regs =
      regsAt lcr 0x0B low high fifos := by
    intro lcr mcr low high fifos
    rw [out_modemCtrl]
    rfl
  have h : writeRegs u serialInit = regsAt 0x03 0x0B 0x01 0x00 true := by
    unfold writeRegs serialInit
    simp only [List.foldl_cons, List.foldl_nil, hv, h1, h2, h3, h4, h5, h6]
  rw [h]
  refine ⟨⟨rfl, rfl, rfl⟩, fun hclosed => ?_⟩
  have hdlab : u.regs.dlab = false := hclosed
  rw [out_intEnable, hdlab] at hv
  show v.ier = 0
  rw [← hv]
  rfl

end

/-! ## every interleaving -/

/-- what is left of the bytes of `console_putc` -/
def SerialPc.pending : SerialPc → List UInt8
  | .putc bytes _ => bytes
  | _ => []

/-- in `serial_init`, on a UART that was `u` -/
structure Starting (u : Uart) (writes : List (Nat × UInt8)) (s : SerialSystem) : Prop where
  made : ∃ made, serialInit = made ++ writes ∧ s.uart.regs = writeRegs u made ∧ (6 ≤ made.length → s.uart.tx = [])
  silent : s.text = [] ∧ s.got = []

/-- What was printed is on the wire, in the UART or about to be written, in this order; what came in was
read or waits. -/
structure Running (u : Uart) (s : SerialSystem) : Prop where
  configured : Configured s.uart
  ier : u.dlab = false → s.uart.ier = 0
  sent : ∃ sent, s.under = s.before ++ sent ∧ (∀ f ∈ sent, f.divisor = 1 ∧ f.format = 0x03) ∧
    sent.map Frame.byte ++ s.uart.tx ++ s.pc.pending = crlf s.text
  tx_le : s.uart.tx.length ≤ 1
  polled : ∀ bytes, s.pc = .putc bytes true → s.uart.tx = []
  heard : s.got ++ s.uart.rx = s.heard
  fetch : s.pc = .fetch → s.uart.rx ≠ []

structure SerialInv (u : Uart) (s : SerialSystem) : Prop where
  starting : ∀ writes, s.pc = .init writes → Starting u writes s
  running : (∀ writes, s.pc ≠ .init writes) → Running u s

theorem crlf_append (a b : List UInt8) : crlf (a ++ b) = crlf a ++ crlf b := List.flatMap_append

section
variable {u : Uart} {s : SerialSystem}

theorem Running.inv (h : Running u s) (hpc : ∀ writes, s.pc ≠ .init writes) : SerialInv u s :=
  ⟨fun writes e => absurd e (hpc writes), fun _ => h⟩

theorem Starting.inv {writes : List (Nat × UInt8)} (h : Starting u writes s) (hpc : s.pc = .init writes) :
    SerialInv u s := by
  refine ⟨fun writes' e => ?_, fun hno => absurd hpc (hno writes)⟩
  cases hpc.symm.trans e
  exact h

theorem Running.ier_congr (h : Running u s) {v : Uart} (hv : v.regs = s.uart.regs) : u.dlab = false → v.ier = 0 :=
  fun hu => (congrArg Uart.ier hv).trans (h.ier hu)

theorem Running.load (h : Running u s) : Running u (serialStep s .load) := by
  have hregs : s.uart.load.regs = s.uart.regs := s.uart.regs_load
  have hconf : Configured s.uart.load := configured_congr hregs h.configured
  obtain ⟨sent, h1, h2, h3⟩ := h.sent
  by_cases hload : s.uart.shift = none ∧ s.uart.tx ≠ []
  · obtain ⟨hshift, htx⟩ := hload
    obtain ⟨c, tx, e⟩ := List.exists_cons_of_ne_nil htx
    have hl : s.uart.load = { s.uart with tx := tx, shift := some (s.uart.frame c) } := by
      unfold Uart.load
      rw [hshift, e]
    have hnil : tx = [] := by
      have := h.tx_le
      rw [e, List.length_cons] at this
      exact List.length_eq_zero_iff.mp (by omega)
    have hunder : s.under = s.wire := by
      unfold SerialSystem.under
      rw [hshift]
      exact List.append_nil _
    refine ⟨hconf, h.ier_congr hregs, ⟨sent ++ [s.uart.frame c], ?_, ?_, ?_⟩, ?_, ?_, ?_, ?_⟩
    · show s.wire ++ s.uart.load.shift.toList = s.before ++ _
      rw [hl, ← List.append_assoc, ← h1, hunder]
      rfl
    · intro f hf
      rcases List.mem_append.mp hf with hf | hf
      · exact h2 f hf
      · rw [List.mem_singleton.mp hf]
        refine ⟨h.configured.divisor, ?_⟩
        show s.uart.lcr &&& 0x7F = 0x03
        rw [h.configured.lcr]
        rfl
    · show _ ++ s.uart.load.tx ++ s.pc.pending = crlf s.text
      rw [hl, ← h3, e]
      simp [Uart.frame]
    · show s.uart.load.tx.length ≤ 1
      rw [hl, hnil]
      exact Nat.zero_le _
    · intro bytes _
      show s.uart.load.tx = []
      rw [hl]
      exact hnil
    · show s.got ++ s.uart.load.rx = s.heard
      rw [hl]
      exact h.heard
    · intro e'
      show s.uart.load.rx ≠ []
      rw [hl]
      exact h.fetch e'
  · have hl : s.uart.load = s.uart := by
      unfold Uart.load
      split
      · rename_i c tx e1 e2
        exact absurd ⟨e1, by simp [e2]⟩ hload
      · rfl
    show Running u { s with uart := s.uart.load }
    rw [hl]
    exact h

theorem Running.emit (h : Running u s) : Running u (serialStep s .emit) := by
  obtain ⟨sent, h1, h2, h3⟩ := h.sent
  refine ⟨⟨h.configured.lcr, h.configured.divisor, h.configured.fifos⟩, h.ier, ⟨sent, ?_, h2, h3⟩, h.tx_le, h.polled,
    h.heard, h.fetch⟩
  show s.under ++ [] = s.before ++ sent
  rw [List.append_nil]
  exact h1

theorem Running.arrive (h : Running u s) (c : UInt8) : Running u (serialStep s (.arrive c)) := by
  have hregs : (s.uart.arrive c).regs = s.uart.regs := s.uart.regs_arrive c
  have hconf : Configured (s.uart.arrive c) := configured_congr hregs h.configured
  have harrive : s.uart.arrive c = { s.uart with
      rx := if s.uart.rx.length < s.uart.room then s.uart.rx ++ [c] else s.uart.rx
      overrun := if s.uart.rx.length < s.uart.room then s.uart.overrun else true } := by
    unfold Uart.arrive
    split
    · rfl
    · rw [if_pos h.configured.fifos]
  refine ⟨hconf, h.ier_congr hregs, ?_, ?_, ?_, ?_, ?_⟩
  · show ∃ sent, s.wire ++ (s.uart.arrive c).shift.toList = _ ∧ _ ∧ _ ++ (s.uart.arrive c).tx ++ _ = _
    rw [harrive]
    exact h.sent
  · show (s.uart.arrive c).tx.length ≤ 1
    rw [harrive]
    exact h.tx_le
  · intro bytes e
    show (s.uart.arrive c).tx = []
    rw [harrive]
    exact h.polled bytes e
  · show s.got ++ (s.uart.arrive c).rx = if _ then s.heard ++ [c] else s.heard
    rw [harrive, ← h.heard]
    dsimp only
    split
    · exact (List.append_assoc _ _ _).symm
    · rfl
  · intro e
    show (s.uart.arrive c).rx ≠ []
    rw [harrive]
    dsimp only
    split
    · simp
    · exact h.fetch e

theorem Running.putc (h : Running u s) (hpc : s.pc = .idle) (c : UInt8) : Running u (serialStep s (.putc c)) := by
  obtain ⟨sent, h1, h2, h3⟩ := h.sent
  refine ⟨h.configured, h.ier, ⟨sent, h1, h2, ?_⟩, h.tx_le, ?_, h.heard, ?_⟩
  · show sent.map Frame.byte ++ s.uart.tx ++ crlf [c] = crlf (s.text ++ [c])
    rw [crlf_append, ← h3, hpc]
    simp [SerialPc.pending]
  · intro bytes e
    cases e
  · intro e
    cases e

theorem Running.read (h : Running u s) (hpc : s.pc = .idle) : Running u (serialStep s .read) := by
  obtain ⟨sent, h1, h2, h3⟩ := h.sent
  rw [hpc] at h3
  refine ⟨h.configured, h.ier, ⟨sent, h1, h2, h3⟩, h.tx_le, ?_, h.heard, ?_⟩
  · intro bytes e
    cases e
  · intro e
    cases e

/-- with the latch closed, the data register gives the first byte that waits -/
theorem in_data_came {v : Uart} (h : Configured v) {c : UInt8} {rx : List UInt8} (hrx : v.rx = c :: rx) :
    serialIn v regData = (c, { v with rx := rx }) := by
  have hdlab : v.dlab = false := by
    unfold Uart.dlab
    rw [h.lcr]
    rfl
  rw [in_data, hdlab, hrx]
  rfl

/-- with the latch closed and nothing waiting, the data register takes a byte -/
theorem out_data_empty {v : Uart} (h : Configured v) (htx : v.tx = []) (c : UInt8) :
    serialOut v regData c = { v with tx := [c] } := by
  have hdlab : v.dlab = false := by
    unfold Uart.dlab
    rw [h.lcr]
    rfl
  rw [out_data, hdlab]
  show v.transmit c = _
  unfold Uart.transmit
  rw [h.fifos, htx]
  rfl

theorem Running.stmt (h : Running u s) (hpc : ∀ writes, s.pc ≠ .init writes) : Running u (serialStmt s) := by
  obtain ⟨sent, h1, h2, h3⟩ := h.sent
  have hc := h.configured
  unfold serialStmt
  split
  · rename_i e
    exact absurd e (hpc _)
  · rename_i e
    exact absurd e (hpc _)
  · exact h
  · rename_i e
    rw [e] at h3
    exact ⟨hc, h.ier, ⟨sent, h1, h2, h3⟩, h.tx_le, nofun, h.heard, nofun⟩
  · rename_i bytes _ e
    rw [e] at h3
    rw [in_lineStatus]
    refine ⟨⟨hc.lcr, hc.divisor, hc.fifos⟩, h.ier, ⟨sent, h1, h2, h3⟩, h.tx_le, ?_, h.heard, nofun⟩
    intro _ e'
    have hbit := (SerialPc.putc.inj e').2
    exact s.uart.lineStatus_sent.mp (of_decide_eq_true hbit)
  · rename_i c bytes e
    rw [e] at h3
    have htx := h.polled _ e
    rw [out_data_empty hc htx]
    refine ⟨⟨hc.lcr, hc.divisor, hc.fifos⟩, h.ier, ⟨sent, h1, h2, ?_⟩, le_refl _, nofun, h.heard, nofun⟩
    show sent.map Frame.byte ++ [c] ++ bytes = crlf s.text
    rw [← h3, htx]
    simp [SerialPc.pending]
  · rename_i e
    rw [e] at h3
    rw [in_lineStatus]
    refine ⟨⟨hc.lcr, hc.divisor, hc.fifos⟩, h.ier, ⟨sent, h1, h2, ?_⟩, h.tx_le, ?_, h.heard, ?_⟩
    · dsimp only
      split
      · exact h3
      · exact h3
    · intro _ e'
      dsimp only at e'
      split at e'
      · cases e'
      · cases e'
    · intro e'
      dsimp only at e'
      split at e'
      · cases e'
      · rename_i hbit
        exact s.uart.lineStatus_came.mp hbit
  · rename_i e
    rw [e] at h3
    obtain ⟨c, rx, hrx⟩ := List.exists_cons_of_ne_nil (h.fetch e)
    rw [in_data_came hc hrx]
    refine ⟨⟨hc.lcr, hc.divisor, hc.fifos⟩, h.ier, ⟨sent, h1, h2, h3⟩, h.tx_le, nofun, ?_, nofun⟩
    show s.got ++ [c] ++ rx = s.heard
    rw [← h.heard, hrx]
    simp

/-! while `serial_init` runs -/

theorem Starting.uart {writes : List (Nat × UInt8)} (h : Starting u writes s) {v : Uart} (hregs : v.regs = s.uart.regs)
    (htx : s.uart.tx = [] → v.tx = []) (wire : List Frame) (heard : List UInt8) :
    Starting u writes { s with uart := v, wire := wire, heard := heard } := by
  obtain ⟨made, h1, h2, h3⟩ := h.made
  exact ⟨⟨made, h1, hregs.trans h2, fun hlen => htx (h3 hlen)⟩, h.silent⟩

theorem Starting.write {port : Nat} {v : UInt8} {writes : List (Nat × UInt8)} (h : Starting u ((port, v) :: writes) s) :
    Starting u writes { s with uart := serialOut s.uart port v, pc := .init writes } := by
  obtain ⟨made, h1, h2, h3⟩ := h.made
  have hregs : (serialOut s.uart port v).regs = writeRegs u (made ++ [(port, v)]) := writeRegs_snoc u h2 port v
  have hall : serialInit = (made ++ [(port, v)]) ++ writes := h1.trans (List.append_cons made _ writes)
  have htx : 6 ≤ (made ++ [(port, v)]).length → (serialOut s.uart port v).tx = [] := ?_
  · exact ⟨⟨_, hall, hregs, htx⟩, h.silent⟩
  intro hlen
  rw [List.length_append, List.length_singleton] at hlen
  have htotal := congrArg List.length h1
  rw [List.length_append, List.length_cons, show serialInit.length = 7 from rfl] at htotal
  have hat : serialInit[made.length]? = some (port, v) := by
    rw [h1]
    simp
  obtain hmade | hmade : made.length = 5 ∨ made.length = 6 := by omega
  · rw [hmade] at hat
    cases hat
    have hclear : (0xC7 : UInt8) &&& 0x04 ≠ 0 := by decide
    rw [out_fifoCtrl]
    exact if_pos (.inr hclear)
  · rw [hmade] at hat
    cases hat
    rw [out_modemCtrl]
    exact h3 (by omega)

theorem Starting.done (h : Starting u [] s) :
    Running u { s with pc := .idle, before := s.under, heard := s.uart.rx } := by
  obtain ⟨made, h1, h2, h3⟩ := h.made
  rw [List.append_nil] at h1
  rw [← h1] at h2 h3
  obtain ⟨hconf, hier⟩ := writeRegs_init u
  have htx : s.uart.tx = [] := h3 (by decide)
  have hregs : s.uart.regs = (writeRegs u serialInit).regs := by
    rw [h2]
    rfl
  refine ⟨configured_congr hregs hconf, ?_, ⟨[], ?_, ?_, ?_⟩, ?_, ?_, ?_, ?_⟩
  · intro hu
    exact (congrArg Uart.ier h2).trans (hier hu)
  · exact (List.append_nil _).symm
  · intro f hf
    cases hf
  · show [] ++ s.uart.tx ++ [] = crlf s.text
    rw [htx, h.silent.1]
    rfl
  · show s.uart.tx.length ≤ 1
    rw [htx]
    exact Nat.zero_le _
  · intro bytes e
    cases e
  · show s.got ++ s.uart.rx = s.uart.rx
    rw [h.silent.2]
    rfl
  · intro e
    cases e

theorem Starting.step {writes : List (Nat × UInt8)} (h : Starting u writes s) (hpc : s.pc = .init writes)
    {e : SerialEvent} (hl : serialMachine.legal s e) : SerialInv u (serialStep s e) := by
  cases e with
  | stmt =>
    show SerialInv u (serialStmt s)
    unfold serialStmt
    rw [hpc]
    cases writes with
    | nil => exact h.done.inv nofun
    | cons w writes => exact h.write.inv rfl
  | putc c => exact absurd (hpc.symm.trans hl) nofun
  | read => exact absurd (hpc.symm.trans hl) nofun
  | load =>
    have htx : s.uart.tx = [] → s.uart.load.tx = [] := by
      intro htx
      unfold Uart.load
      split
      · rename_i e
        rw [htx] at e
        cases e
      · exact htx
    exact (h.uart s.uart.regs_load htx s.wire s.heard).inv hpc
  | emit =>
    have hemit : Starting u writes { s with uart := s.uart.emit, wire := s.under } := h.uart (v := s.uart.emit) rfl id s.under s.heard
    exact hemit.inv hpc
  | arrive c =>
    have htx : s.uart.tx = [] → (s.uart.arrive c).tx = [] := by
      intro htx
      unfold Uart.arrive
      split
      · exact htx
      · exact htx
    exact (h.uart (s.uart.regs_arrive c) htx s.wire _).inv hpc

theorem init_over {e : SerialEvent} (hpc : ∀ writes, s.pc ≠ .init writes) (writes : List (Nat × UInt8)) :
    (serialStep s e).pc ≠ .init writes := by
  cases e with
  | stmt =>
    show (serialStmt s).pc ≠ _
    unfold serialStmt
    split
    · exact nofun
    · rename_i e
      exact absurd e (hpc _)
    · exact hpc writes
    · exact nofun
    · exact nofun
    · exact nofun
    · dsimp only
      split
      · exact nofun
      · exact nofun
    · exact nofun
  | putc c => exact nofun
  | read => exact nofun
  | load => exact hpc writes
  | emit => exact hpc writes
  | arrive c => exact hpc writes

theorem Running.next (h : Running u s) (hpc : ∀ writes, s.pc ≠ .init writes) {e : SerialEvent}
    (hl : serialMachine.legal s e) : Running u (serialStep s e) := by
  cases e with
  | stmt => exact h.stmt hpc
  | putc c => exact h.putc hl c
  | read => exact h.read hl
  | load => exact h.load
  | emit => exact h.emit
  | arrive c => exact h.arrive c

theorem serialInv_of_run {wire : List Frame} {es : List SerialEvent} (r : serialMachine.Run (serialStart u wire) es s) :
    SerialInv u s := by
  have h0 : Starting u serialInit (serialStart u wire) := ⟨⟨[], rfl, rfl, fun h => absurd h (by decide)⟩, rfl, rfl⟩
  refine r.inv (I := SerialInv u) (h0.inv rfl) ?_
  intro s e t h hl hs
  cases hs
  by_cases hpc : ∃ writes, s.pc = .init writes
  · obtain ⟨writes, hpc⟩ := hpc
    exact (h.starting writes hpc).step hpc hl
  · have hno : ∀ writes, s.pc ≠ .init writes := fun writes e => hpc ⟨writes, e⟩
    exact ((h.running hno).next hno hl).inv (init_over hno)

/-! no further call -/

/-- what happens goes on for ever, the code and the UART never stop, and nothing is called -/
structure Uncalled (e : ℕ → SerialEvent) : Prop where
  putc : ∀ n c, e n ≠ .putc c
  read : ∀ n, e n ≠ .read
  stmt : ∀ n, ∃ m, n ≤ m ∧ e m = .stmt
  load : ∀ n, ∃ m, n ≤ m ∧ e m = .load
  emit : ∀ n, ∃ m, n ≤ m ∧ e m = .emit

/-- the system after `n` events -/
def serialFollow (s : SerialSystem) (e : ℕ → SerialEvent) : ℕ → SerialSystem
  | 0 => s
  | n+1 => serialStep (serialFollow s e n) (e n)

/-- what the code still has to do -/
def SerialPc.work : SerialPc → Nat
  | .putc bytes polled => 4 * bytes.length + if polled then 1 else 2
  | .test => 2
  | .fetch => 1
  | _ => 0

theorem SerialPc.idle_of_work {pc : SerialPc} (hpc : ∀ writes, pc ≠ .init writes) (h : pc.work = 0) : pc = .idle := by
  cases pc with
  | init writes => exact absurd rfl (hpc writes)
  | idle => rfl
  | putc bytes polled =>
    have h : 4 * bytes.length + (if polled then 1 else 2) = 0 := h
    split at h
    · omega
    · omega
  | test => cases h
  | fetch => cases h

/-- and with the UART -/
def SerialSystem.work (s : SerialSystem) : Nat :=
  s.pc.work + 2 * s.uart.tx.length + s.uart.shift.toList.length

/-- what has to happen next: the code waits for the UART, and the wire comes first -/
def SerialSystem.need (s : SerialSystem) : SerialEvent :=
  if s.uart.shift ≠ none then .emit else if s.uart.tx ≠ [] then .load else .stmt

/-- a step that leaves the transmitter as it is, and the work -/
theorem lowers_kept {e : SerialEvent} {t : SerialSystem} (htx : t.uart.tx = s.uart.tx)
    (hshift : t.uart.shift = s.uart.shift) (hwork : t.pc.work = s.pc.work) (hno : s.work ≠ 0 → e ≠ s.need) :
    Lowers SerialSystem.work SerialSystem.need s e t := by
  refine .inr ⟨?_, ?_, hno⟩
  · unfold SerialSystem.work
    rw [htx, hshift, hwork]
  · unfold SerialSystem.need
    rw [htx, hshift]

theorem lowers_pc {e : SerialEvent} {t : SerialSystem} (htx : t.uart.tx = s.uart.tx)
    (hshift : t.uart.shift = s.uart.shift) (hwork : t.pc.work < s.pc.work) :
    Lowers SerialSystem.work SerialSystem.need s e t := by
  refine .inl ?_
  unfold SerialSystem.work
  rw [htx, hshift]
  omega

theorem need_stmt (h : s.need = .stmt) : s.uart.shift = none ∧ s.uart.tx = [] := by
  unfold SerialSystem.need at h
  split at h
  · cases h
  · rename_i hshift
    split at h
    · cases h
    · rename_i htx
      exact ⟨not_not.mp hshift, not_not.mp htx⟩

theorem Running.lowers_stmt (h : Running u s) (hpc : ∀ writes, s.pc ≠ .init writes) :
    Lowers SerialSystem.work SerialSystem.need s .stmt (serialStmt s) := by
  unfold serialStmt
  split
  · rename_i e
    exact absurd e (hpc _)
  · rename_i e
    exact absurd e (hpc _)
  · rename_i e
    refine lowers_kept rfl rfl rfl fun hwork hneed => hwork ?_
    obtain ⟨hshift, htx⟩ := need_stmt hneed.symm
    unfold SerialSystem.work
    rw [e, hshift, htx]
    rfl
  · rename_i e
    refine lowers_pc rfl rfl ?_
    rw [e]
    show 0 < 4 * 0 + if _ then 1 else 2
    split <;> omega
  · rename_i bytes _ e
    rw [in_lineStatus]
    -- the loop ends once the transmitter is empty
    by_cases htx : s.uart.tx = []
    · have hbit : decide (s.uart.lineStatus &&& lsrTxEmpty ≠ 0) = true :=
        decide_eq_true (s.uart.lineStatus_sent.mpr htx)
      refine lowers_pc rfl rfl ?_
      show (SerialPc.putc bytes (decide (s.uart.lineStatus &&& lsrTxEmpty ≠ 0))).work < _
      rw [hbit, e]
      exact Nat.lt_succ_self _
    · have hbit : decide (s.uart.lineStatus &&& lsrTxEmpty ≠ 0) = false :=
        decide_eq_false (mt s.uart.lineStatus_sent.mp htx)
      refine lowers_kept rfl rfl ?_ fun _ hneed => htx (need_stmt hneed.symm).2
      show (SerialPc.putc bytes (decide (s.uart.lineStatus &&& lsrTxEmpty ≠ 0))).work = _
      rw [hbit, e]
  · rename_i c bytes e
    have htx := h.polled _ e
    rw [out_data_empty h.configured htx]
    refine .inl ?_
    show 4 * bytes.length + 2 + 2 * 1 + s.uart.shift.toList.length < s.work
    unfold SerialSystem.work
    rw [e, htx]
    show _ < 4 * (bytes.length + 1) + 1 + 2 * 0 + _
    omega
  · rename_i e
    rw [in_lineStatus]
    refine lowers_pc rfl rfl ?_
    rw [e]
    dsimp only
    split
    · exact Nat.zero_lt_two
    · exact Nat.one_lt_two
  · rename_i e
    obtain ⟨c, rx, hrx⟩ := List.exists_cons_of_ne_nil (h.fetch e)
    rw [in_data_came h.configured hrx]
    refine lowers_pc rfl rfl ?_
    rw [e]
    exact Nat.zero_lt_one

theorem lowers_load : Lowers SerialSystem.work SerialSystem.need s .load (serialStep s .load) := by
  by_cases hload : s.uart.shift = none ∧ s.uart.tx ≠ []
  · obtain ⟨hshift, htx⟩ := hload
    obtain ⟨c, tx, e⟩ := List.exists_cons_of_ne_nil htx
    have hl : s.uart.load = { s.uart with tx := tx, shift := some (s.uart.frame c) } := by
      unfold Uart.load
      rw [hshift, e]
    refine .inl ?_
    show s.pc.work + 2 * s.uart.load.tx.length + s.uart.load.shift.toList.length < s.work
    unfold SerialSystem.work
    rw [hl, hshift, e]
    show _ + 2 * tx.length + 1 < _ + 2 * (tx.length + 1) + 0
    omega
  · have hl : s.uart.load = s.uart := by
      unfold Uart.load
      split
      · rename_i c tx e1 e2
        exact absurd ⟨e1, by simp [e2]⟩ hload
      · rfl
    have hs : serialStep s .load = s := by
      show ({ s with uart := s.uart.load } : SerialSystem) = s
      rw [hl]
    rw [hs]
    refine lowers_kept rfl rfl rfl fun _ hneed => ?_
    unfold SerialSystem.need at hneed
    split at hneed
    · cases hneed
    · rename_i hshift
      split at hneed
      · rename_i htx
        exact hload ⟨not_not.mp hshift, htx⟩
      · cases hneed

theorem lowers_emit : Lowers SerialSystem.work SerialSystem.need s .emit (serialStep s .emit) := by
  cases hshift : s.uart.shift with
  | none =>
    refine lowers_kept rfl hshift.symm rfl fun _ hneed => ?_
    unfold SerialSystem.need at hneed
    rw [hshift] at hneed
    split at hneed
    · rename_i hno
      exact hno rfl
    · split at hneed
      · cases hneed
      · cases hneed
  | some x =>
    refine .inl ?_
    show s.pc.work + 2 * s.uart.tx.length + 0 < s.work
    unfold SerialSystem.work
    rw [hshift]
    exact Nat.lt_succ_self _

theorem lowers_arrive (c : UInt8) : Lowers SerialSystem.work SerialSystem.need s (.arrive c) (serialStep s (.arrive c)) := by
  have harrive : (s.uart.arrive c).tx = s.uart.tx ∧ (s.uart.arrive c).shift = s.uart.shift := by
    unfold Uart.arrive
    split
    · exact ⟨rfl, rfl⟩
    · exact ⟨rfl, rfl⟩
  refine lowers_kept harrive.1 harrive.2 rfl fun _ hneed => ?_
  unfold SerialSystem.need at hneed
  split at hneed
  · cases hneed
  · split at hneed
    · cases hneed
    · cases hneed

/-- what was printed, and where the driver's frames start -/
theorem serialStmt_kept (hpc : ∀ writes, s.pc ≠ .init writes) :
    (serialStmt s).text = s.text ∧ (serialStmt s).before = s.before := by
  unfold serialStmt
  split
  · rename_i e
    exact absurd e (hpc _)
  all_goals exact ⟨rfl, rfl⟩

/-- what stays while nothing is called -/
structure Following (u : Uart) (s t : SerialSystem) : Prop where
  running : Running u t
  pc : ∀ writes, t.pc ≠ .init writes
  text : t.text = s.text
  before : t.before = s.before

theorem Following.step {t : SerialSystem} (h : Following u s t) {e : SerialEvent} (hputc : ∀ c, e ≠ .putc c)
    (hread : e ≠ .read) : Following u s (serialStep t e) ∧
      Lowers SerialSystem.work SerialSystem.need t e (serialStep t e) := by
  have hlegal : serialMachine.legal t e := by
    cases e with
    | putc c => exact absurd rfl (hputc c)
    | read => exact absurd rfl hread
    | _ => trivial
  have hnext := h.running.next h.pc hlegal
  have hpc := fun writes => init_over (e := e) h.pc writes
  cases e with
  | stmt =>
    obtain ⟨k1, k2⟩ := serialStmt_kept h.pc
    exact ⟨⟨hnext, hpc, k1.trans h.text, k2.trans h.before⟩, h.running.lowers_stmt h.pc⟩
  | putc c => exact absurd rfl (hputc c)
  | read => exact absurd rfl hread
  | load => exact ⟨⟨hnext, hpc, h.text, h.before⟩, lowers_load⟩
  | emit => exact ⟨⟨hnext, hpc, h.text, h.before⟩, lowers_emit⟩
  | arrive c => exact ⟨⟨hnext, hpc, h.text, h.before⟩, lowers_arrive c⟩

/-- with no work left, all that was printed is on the wire -/
theorem Following.done {t : SerialSystem} (h : Following u s t) (hwork : t.work = 0) : t.pc = .idle ∧ t.text = s.text ∧
    ∃ sent, t.wire = s.before ++ sent ∧ sent.map Frame.byte = crlf s.text := by
  obtain ⟨sent, h1, -, h3⟩ := h.running.sent
  unfold SerialSystem.work at hwork
  have hpc := SerialPc.idle_of_work h.pc (by omega)
  have htx : t.uart.tx = [] := List.length_eq_zero_iff.mp (by omega)
  have hshift : t.uart.shift.toList = [] := List.length_eq_zero_iff.mp (by omega)
  refine ⟨hpc, h.text, sent, ?_, ?_⟩
  · unfold SerialSystem.under at h1
    rw [hshift, List.append_nil, h.before] at h1
    exact h1
  · rw [htx, hpc, h.text, List.append_nil] at h3
    exact (List.append_nil _).symm.trans h3

/-- Left to itself, the driver returns and everything goes out, whatever comes in. -/
theorem Running.drains (h : Running u s) (hpc : ∀ writes, s.pc ≠ .init writes) {e : ℕ → SerialEvent} (he : Uncalled e) :
    ∃ N, ∀ n, N ≤ n → (serialFollow s e n).pc = .idle ∧ (serialFollow s e n).text = s.text ∧
      ∃ sent, (serialFollow s e n).wire = s.before ++ sent ∧ sent.map Frame.byte = crlf s.text := by
  have hfollow : ∀ n, Following u s (serialFollow s e n) := by
    intro n
    induction n with
    | zero => exact ⟨h, hpc, rfl, rfl⟩
    | succ n ih => exact (ih.step (he.putc n) (he.read n)).1
  have hfair : ∀ (t : SerialSystem) n, ∃ m, n ≤ m ∧ e m = t.need := by
    intro t n
    unfold SerialSystem.need
    split
    · exact he.emit n
    · split
      · exact he.load n
      · exact he.stmt n
  obtain ⟨N, hN⟩ := fair_drains (fun n => ((hfollow n).step (he.putc n) (he.read n)).2) hfair
  exact ⟨N, fun n hn => (hfollow n).done (hN n hn)⟩

/-- In every interleaving, once `serial_init` has returned, whatever the UART was like before: what was
printed went to the port in this order, with nothing lost or overwritten, as frames of the right speed
and format; what came in was read in this order, and is dropped only when 16 bytes wait; and without a
further call, as long as neither the code nor the UART stops, the code returns and everything goes out. -/
theorem serial_line {wire : List Frame} {es : List SerialEvent} (r : serialMachine.Run (serialStart u wire) es s)
    (hpc : ∀ writes, s.pc ≠ .init writes) :
    (∃ sent, s.under = s.before ++ sent ∧ (∀ f ∈ sent, f.divisor = 1 ∧ f.format = 0x03) ∧
      sent.map Frame.byte ++ s.uart.tx ++ s.pc.pending = crlf s.text) ∧
    s.got ++ s.uart.rx = s.heard ∧
    (∀ c, (serialStep s (.arrive c)).heard = if s.uart.rx.length < 16 then s.heard ++ [c] else s.heard) ∧
    (u.dlab = false → s.uart.ier = 0) ∧
    ∀ e, Uncalled e → ∃ N, ∀ n, N ≤ n → (serialFollow s e n).pc = .idle ∧ (serialFollow s e n).text = s.text ∧
      ∃ sent, (serialFollow s e n).wire = s.before ++ sent ∧ sent.map Frame.byte = crlf s.text := by
  have h := (serialInv_of_run r).running hpc
  refine ⟨h.sent, h.heard, ?_, h.ier, fun e he => h.drains hpc he⟩
  intro c
  show (if s.uart.rx.length < s.uart.room then _ else _) = _
  have hroom : s.uart.room = 16 := by
    unfold Uart.room
    rw [if_pos h.configured.fifos]
  rw [hroom]

end

/-- the code, the shift register and the wire in turn -/
def serialTurns (n : ℕ) : SerialEvent :=
  match n % 3 with
  | 0 => .stmt
  | 1 => .load
  | _ => .emit

theorem serialTurns_uncalled : Uncalled serialTurns where
  putc n c := by
    unfold serialTurns
    split <;> exact nofun
  read n := by
    unfold serialTurns
    split <;> exact nofun
  stmt n := by
    refine ⟨3 * n, by omega, ?_⟩
    unfold serialTurns
    rw [Nat.mul_mod_right]
    rfl
  load n := by
    refine ⟨3 * n + 1, by omega, ?_⟩
    unfold serialTurns
    rw [Nat.mul_add_mod]
    rfl
  emit n := by
    refine ⟨3 * n + 2, by omega, ?_⟩
    unfold serialTurns
    rw [Nat.mul_add_mod]
    rfl

/-- the latch is open, and a byte waits; `serial_init` runs, and a newline is printed -/
theorem serial_line_newline :
    ∃ s, serialMachine.Run (serialStart ⟨0x0F, 0x80, 0, 12, 0, false, [1], none, [], false⟩ [])
      (List.replicate 8 .stmt ++ [.putc newline] ++ [.stmt]) s ∧
      ∃ N, ∀ n, N ≤ n → (serialFollow s serialTurns n).pc = .idle := by
  obtain ⟨t, rt, ht⟩ : ∃ t, serialMachine.Run (serialStart ⟨0x0F, 0x80, 0, 12, 0, false, [1], none, [], false⟩ [])
      (List.replicate 8 .stmt) t ∧ t.pc = .idle :=
    ⟨_, .of_exec (fun _ e he => by rw [List.eq_of_mem_replicate he]; trivial) rfl, rfl⟩
  have hcall : serialMachine.legal t (.putc newline) := ht
  have hstmt : serialMachine.legal (serialStep t (.putc newline)) .stmt := trivial
  have r := (rt.snoc hcall rfl).snoc hstmt rfl
  obtain ⟨-, -, -, -, hdrains⟩ := serial_line r nofun
  obtain ⟨N, hN⟩ := hdrains serialTurns serialTurns_uncalled
  exact ⟨_, r, N, fun n hn => (hN n hn).1⟩

end Raptor
