import RaptorKernel.Theory.Pic
import RaptorKernel.Kernel.Gdt
import RaptorKernel.Kernel.Isr

/-!
# kernel/idt.c

The table is memory at `idt`, the interrupt controllers are `Pics`.  What `irq_handler` does is the
list of its actions, in order.

* `idtSet`, `idtInit`, `picRemap`, `irqInstallHandler`, `irqHandler`     the code;
* `readGate_idtInit`     each vector finds its own stub;
* `line_reaches_handler`     from a line of the controllers to its entry in `irq_handlers`.
-/

namespace Raptor
open X86 X86.Cpu Mem

/-! ## the table -/

/-- `struct idt_entry` -/
structure IdtEntry where
  baseLow : UInt16
  selector : UInt16
  zero : UInt8
  flags : UInt8
  baseHigh : UInt16

def IdtEntry.bytes (e : IdtEntry) : List UInt8 :=
  bytes16 e.baseLow ++ bytes16 e.selector ++ [e.zero, e.flags] ++ bytes16 e.baseHigh

def idtEntry (base : UInt32) : IdtEntry where
  baseLow := (base &&& 0xffff).toUInt16
  baseHigh := (base >>> 16).toUInt16
  selector := 0x08
  zero := 0
  flags := 0x8e

def idtSet (idt : Nat) (m : Mem) (n : Nat) (handler : UInt32) : Mem :=
  blit m (idt + 8 * n) (idtEntry handler).bytes

/-- `ip.limit` -/
def idtLimit : Nat := 256 * 8 - 1

/-- The table `idt_init` leaves, with the stubs at the addresses `addr`: `SET_ISR(n)` is vector `n`,
`SET_IRQ(n)` is vector `32 + n`. -/
def idtInit (idt : Nat) (addr : IsrLabel → UInt32) (m : Mem) : Mem :=
  (List.finRange 48).foldl (fun m (v : Fin 48) => idtSet idt m v (addr (stubOf v))) m

/-! ## the controllers -/

def pic1Cmd : UInt16 := 0x20
def pic1Data : UInt16 := 0x21
def pic2Cmd : UInt16 := 0xA0
def pic2Data : UInt16 := 0xA1
def picEoi : UInt8 := 0x20

/-- a write to the POST port -/
def ioWait : UInt16 × UInt8 := (0x80, 0)

/-- the writes of `pic_remap` -/
def picRemapWrites : List (UInt16 × UInt8) :=
  [(pic1Cmd, 0x11), ioWait, (pic2Cmd, 0x11), ioWait,
    (pic1Data, 32), ioWait, (pic2Data, 40), ioWait,
    (pic1Data, 0x04), ioWait, (pic2Data, 0x02), ioWait,
    (pic1Data, 0x01), ioWait, (pic2Data, 0x01), ioWait,
    (pic1Data, 0x00), (pic2Data, 0x00)]

def picRemap (p : Pics) : Pics := picRemapWrites.foldl (fun p w => p.outb w.1 w.2) p

/-! ## handlers -/

section
variable {H : Type}

def irqInstallHandler (handlers : Nat → Option H) (irq : Int) (handler : H) : Nat → Option H :=
  if 0 ≤ irq ∧ irq < 16 then Function.update handlers irq.toNat (some handler) else handlers

inductive IrqAct where
  /-- `irq_handlers[irq](regs)` -/
  | call (irq : Nat)
  | outb (port : UInt16) (v : UInt8)
deriving DecidableEq

def irqHandler (handlers : Nat → Option H) (regs : Registers) : List IrqAct :=
  let irq : Int := regs.intNo.toInt32.toInt - 32
  (if 0 ≤ irq ∧ irq < 16 ∧ (handlers irq.toNat).isSome then [.call irq.toNat] else []) ++
    (if 8 ≤ irq then [.outb pic2Cmd picEoi] else []) ++ [.outb pic1Cmd picEoi]

/-- the actions for line `k` -/
def lineActs (handlers : Nat → Option H) (k : Fin 16) : List IrqAct :=
  (if (handlers k).isSome then [.call k] else []) ++
    (if 8 ≤ k.val then [.outb pic2Cmd picEoi] else []) ++ [.outb pic1Cmd picEoi]

theorem irqHandler_eq (handlers : Nat → Option H) (k : Fin 16) {regs : Registers}
    (h : regs.intNo = .ofNat (32 + k)) : irqHandler handlers regs = lineActs handlers k := by
  have hirq : ∀ k : Fin 16, (UInt32.ofNat (32 + k)).toInt32.toInt - 32 = (k.val : Int) := by decide +kernel
  have hk : (k.val : Int) < 16 := by omega
  unfold irqHandler lineActs
  rw [h, hirq]
  simp [hk]

end

/-! ## the table the CPU reads -/

section
variable {m : Mem} {idt n : Nat} {base : UInt32} {addr : IsrLabel → UInt32}

theorem readGate_idtSet (hn : n < 256) : readGate (idtSet idt m n base) idt idtLimit n = some ⟨base, 0x08⟩ := by
  have hb : ∀ j < 8, idtSet idt m n base (idt + 8 * n + j) = (idtEntry base).bytes.getD j 0 := by
    intro j hj
    have hlen : (idtEntry base).bytes.length = 8 := rfl
    unfold idtSet blit
    rw [if_pos (by omega), Nat.add_sub_cancel_left, List.getD_eq_getElem?_getD, List.getElem?_eq_getElem (by omega)]
    rfl
  have h0 : half (idtSet idt m n base) (idt + 8 * n) = base.toNat % 2^16 := by
    unfold half
    rw [hb 1 (by norm_num), show idtSet idt m n base (idt + 8 * n) = _ from hb 0 (by norm_num), ← low16_toNat]
    exact bytes16_half _
  have h2 : half (idtSet idt m n base) (idt + 8 * n + 2) = 8 := by
    unfold half
    rw [show idt + 8 * n + 2 + 1 = idt + 8 * n + 3 from rfl, hb 2 (by norm_num), hb 3 (by norm_num)]
    exact bytes16_half 0x08
  have h6 : half (idtSet idt m n base) (idt + 8 * n + 6) = base.toNat / 2^16 := by
    have hlt := base.toNat_lt
    have : (base >>> 16).toUInt16.toNat = base.toNat / 2^16 := by
      rw [UInt32.toNat_toUInt16, UInt32.toNat_shiftRight, Nat.shiftRight_eq_div_pow]
      show base.toNat / 2^16 % 2^16 = _
      omega
    unfold half
    rw [show idt + 8 * n + 6 + 1 = idt + 8 * n + 7 from rfl, hb 6 (by norm_num), hb 7 (by norm_num), ← this]
    exact bytes16_half _
  have h5 : idtSet idt m n base (idt + 8 * n + 5) = 0x8e := hb 5 (by norm_num)
  have hlim : ¬ idtLimit < 8 * n + 7 := by
    have : idtLimit = 2047 := rfl
    omega
  have hbase : base.toNat % 2^16 + 2^16 * (base.toNat / 2^16) = base.toNat := Nat.mod_add_div _ _
  unfold readGate
  dsimp only
  rw [h0, h2, h5, h6, hbase, if_neg (not_or.mpr ⟨hlim, by decide⟩), UInt32.ofNat_toNat]
  rfl

theorem readGate_idtSet_ne {v : Nat} (hn : n ≠ v) :
    readGate (idtSet idt m v base) idt idtLimit n = readGate m idt idtLimit n := by
  have hlen : (idtEntry base).bytes.length = 8 := rfl
  exact readGate_congr fun x h1 h2 => blit_apply_ne (by omega)

theorem readGate_sets (vs : List (Fin 48)) (v : Fin 48) :
    readGate (vs.foldl (fun m (v : Fin 48) => idtSet idt m v (addr (stubOf v))) m) idt idtLimit v =
      if v ∈ vs then some ⟨addr (stubOf v), 0x08⟩ else readGate m idt idtLimit v := by
  induction vs using List.reverseRecOn with
  | nil => simp
  | append_singleton vs w ih =>
    rw [List.foldl_append]
    show readGate (idtSet idt (vs.foldl _ m) w (addr (stubOf w))) idt idtLimit v = _
    by_cases hvw : v = w
    · subst hvw
      rw [readGate_idtSet (by omega), if_pos (by simp)]
    · rw [readGate_idtSet_ne (fun e => hvw (Fin.ext e)), ih]
      simp [hvw]

/-- each vector finds its own stub -/
theorem readGate_idtInit (m : Mem) (idt : Nat) (v : Fin 48) :
    readGate (idtInit idt addr m) idt idtLimit v = some ⟨addr (stubOf v), 0x08⟩ := by
  unfold idtInit
  rw [readGate_sets, if_pos (List.mem_finRange v)]

end

/-! ## from the line to the handler -/

/-- as `pic_remap` leaves the controllers -/
structure Remapped (p : Pics) : Prop where
  master : p.master.offset = 32
  slave : p.slave.offset = 40
  unmasked : p.Unmasked
  cascaded : p.Cascaded

theorem picRemap_remapped (p : Pics) : Remapped (picRemap p) ∧ (picRemap p).Idle ∧
    ∀ k, (picRemap p).requested k = false := by
  obtain ⟨⟨_, _, _, _, _, _, _, _⟩, ⟨_, _, _, _, _, _, _, _⟩⟩ := p
  refine ⟨⟨rfl, rfl, ⟨rfl, rfl⟩, rfl, rfl⟩, ⟨fun _ => rfl, fun _ => rfl⟩, fun k => ?_⟩
  unfold Pics.requested
  split <;> rfl

theorem Remapped.vector {p : Pics} (h : Remapped p) (k : Fin 16) : (p.vector k).toNat = 32 + k := by
  have hall : ∀ k : Fin 16, (if k.val < 8 then (32 : UInt8) + .ofNat k else 40 + .ofNat (k - 8)).toNat = 32 + k := by
    decide +kernel
  unfold Pics.vector
  rw [h.master, h.slave]
  exact hall k

/-- The CPU takes an interrupt: through the table, to the code at the address it finds there. -/
def takeInterrupt (C : Code IsrLabel IsrCallee) (codeAt : UInt32 → Option IsrLabel) (idt : Nat) (s : Cpu)
    (vector : Nat) (err : Option UInt32) : Option Cpu :=
  (readGate s.mem idt idtLimit vector).bind fun g =>
    (codeAt g.offset).bind fun l => C.run 2 l (s.interrupt err g.selector g.offset)

section
variable {C : Code IsrLabel IsrCallee} {codeAt : UInt32 → Option IsrLabel} {addr : IsrLabel → UInt32} {idt : Nat}
  {m : Mem} {s : Cpu} {v : Fin 48} {err : Option UInt32}

/-- every vector leads to its C function, on the frame of what it interrupts -/
theorem takeInterrupt_calls (hC : C.text = isrText) (hload : ∀ l, codeAt (addr l) = some l)
    (hidt : ∀ x, idt ≤ x → x < idt + 8 * 256 → s.mem x = idtInit idt addr m x)
    (herr : err.isSome ↔ v.val ∈ isrErrVectors) (hroom : 64 ≤ s.sp) :
    ∃ u, takeInterrupt C codeAt idt s v err =
        ((C.call (calleeOf v) u).bind fun t => (C.block isrRestore t).map Prod.fst) ∧
      registersAt u.mem (u.word 1).toNat = interruptedFrame s v err := by
  have hgate : readGate s.mem idt idtLimit v = some ⟨addr (stubOf v), 0x08⟩ := by
    rw [← readGate_idtInit m idt]
    have := v.isLt
    exact readGate_congr fun x h1 h2 => hidt x (by omega) (by omega)
  obtain ⟨text, call, ret, flags⟩ := C
  obtain rfl : text = isrText := hC
  obtain ⟨u, hrun, hframe, -⟩ := stub_frame call ret flags herr hroom 0x08 (addr (stubOf v))
  refine ⟨u, ?_, hframe⟩
  unfold takeInterrupt
  rw [hgate, Option.bind_some, hload, Option.bind_some]
  exact hrun

/-- the stubs at small addresses, and a CPU whose table leads to them -/
def stubAddr : IsrLabel → UInt32
  | .isr n => .ofNat n
  | .irq num => .ofNat (32 + num)
  | .isrCommon => 48
  | .irqCommon => 49

def stubAt (a : UInt32) : Option IsrLabel :=
  if h : a.toNat < 48 then some (stubOf ⟨a.toNat, h⟩)
  else if a = 48 then some .isrCommon
  else if a = 49 then some .irqCommon
  else none

theorem stubAt_stubAddr (l : IsrLabel) : stubAt (stubAddr l) = some l := by
  cases l with
  | isr n =>
    revert n
    decide +kernel
  | irq num =>
    revert num
    decide +kernel
  | isrCommon => rfl
  | irqCommon => rfl

def bootedCpu : Cpu := { interruptedCpu with mem := idtInit 0x100000 stubAddr fun _ => 0 }

def returningCode : Code IsrLabel IsrCallee := isrCode (fun _ u => some (u.drop 4)) 0 fun _ => 0

/-- With the controllers remapped and nothing in service, a line that asks leads to its own entry of
`irq_handlers`, or one that comes before it does, on the frame of the code that is interrupted. -/
theorem line_reaches_handler {H : Type} (handlers : Nat → Option H) {p : Pics} (hp : Remapped p)
    (hidle : p.Idle) {k : Fin 16} (hk : k ≠ 2) (hasks : p.requested k = true) (hC : C.text = isrText)
    (hload : ∀ l, codeAt (addr l) = some l)
    (hidt : ∀ x, idt ≤ x → x < idt + 8 * 256 → s.mem x = idtInit idt addr m x) (hroom : 64 ≤ s.sp) :
    ∃ j u, j ≠ 2 ∧ p.requested j = true ∧
      takeInterrupt C codeAt idt s p.acknowledge.1.toNat none =
        ((C.call .irqHandler u).bind fun t => (C.block isrRestore t).map Prod.fst) ∧
      registersAt u.mem (u.word 1).toNat = interruptedFrame s (32 + j) none ∧
      irqHandler handlers (registersAt u.mem (u.word 1).toNat) = lineActs handlers j := by
  obtain ⟨j, hj, hreq, hack⟩ := Pics.acknowledge_ready hidle hp.unmasked hp.cascaded
    (Pics.ready_isSome hidle hp.unmasked hk hasks)
  let v : Fin 48 := ⟨32 + j, by omega⟩
  have hv : p.acknowledge.1.toNat = v := by
    rw [hack]
    exact hp.vector j
  have hnot : ¬ v.val < 32 := by
    show ¬ 32 + j.val < 32
    omega
  obtain ⟨u, hrun, hframe⟩ := takeInterrupt_calls (v := v) hC hload hidt (no_error_code hnot) hroom
  have hcallee : calleeOf v = .irqHandler := if_neg hnot
  refine ⟨j, u, hj, hreq, ?_, hframe, irqHandler_eq handlers j ?_⟩
  · rw [hv, hrun, hcallee]
  · rw [hframe]
    rfl

def keyboardAsks : Pics := ⟨⟨none, false, false, 32, 4, 0, fun i => i.val == 1, fun _ => false⟩,
  ⟨none, false, false, 40, 2, 0, fun _ => false, fun _ => false⟩⟩

theorem line_reaches_handler_keyboard :
    ∃ (j : Fin 16) (u : Cpu), j ≠ 2 ∧ keyboardAsks.requested j = true ∧
      takeInterrupt returningCode stubAt 0x100000 bootedCpu keyboardAsks.acknowledge.1.toNat none =
        ((returningCode.call .irqHandler u).bind fun t => (returningCode.block isrRestore t).map Prod.fst) ∧
      registersAt u.mem (u.word 1).toNat = interruptedFrame bootedCpu (32 + j) none ∧
      irqHandler (fun _ => some ()) (registersAt u.mem (u.word 1).toNat) = lineActs (fun _ => some ()) j :=
  line_reaches_handler (k := 1) (fun _ => some ()) ⟨rfl, rfl, ⟨rfl, rfl⟩, rfl, rfl⟩ ⟨fun _ => rfl, fun _ => rfl⟩ (by decide) rfl rfl
    stubAt_stubAddr (fun _ _ _ => rfl) (by decide +kernel)

end

end Raptor
