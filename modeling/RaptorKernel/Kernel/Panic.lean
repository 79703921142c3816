import RaptorKernel.Lib.SerialConsole
import RaptorKernel.Lib.Formats

/-!
# kernel/panic.c, kernel/idt.c: isr_handler

The last words of the kernel: the calls it makes on the console before it halts for ever.

* `Registers`, `exceptionNames`     an exception frame, and the names of the vectors;
* `panic`, `panicWithRegs`, `isrHandler`     the calls;
* `panicWithRegs_reports`   a dump ends the capture before it says anything;
* `isr_reports_iff`   so does `isr_handler`, unless it is a page fault.
-/

namespace Raptor

/-- `struct registers`, as far as it is printed -/
structure Registers where
  ds : UInt32
  edi : UInt32
  esi : UInt32
  ebp : UInt32
  esp : UInt32
  ebx : UInt32
  edx : UInt32
  ecx : UInt32
  eax : UInt32
  intNo : UInt32
  errCode : UInt32
  eip : UInt32
  cs : UInt32
  eflags : UInt32

def exceptionNames : List String :=
  ["Division by zero", "Debug", "Non-maskable interrupt", "Breakpoint",
   "Overflow", "Bound range exceeded", "Invalid opcode",
   "Device not available", "Double fault", "Coprocessor segment overrun",
   "Invalid TSS", "Segment not present", "Stack-segment fault",
   "General protection fault", "Page fault", "Reserved",
   "x87 floating-point exception", "Alignment check", "Machine check",
   "SIMD floating-point exception", "Virtualization exception",
   "Control protection exception", "Reserved", "Reserved", "Reserved",
   "Reserved", "Reserved", "Reserved", "Hypervisor injection exception",
   "VMM communication exception", "Security exception", "Reserved"]

/-- a `uint32_t`, a string literal -/
def Arg.ofReg (r : UInt32) : Arg := .word r.toNat
def Arg.ofLit (s : String) : Arg := .str (some (lit s))

/-! ## kernel/panic.c -/

def panic (fmt : List UInt8) (args : List Arg) : List ConCall :=
  .captureEnd :: .ev (.setColor .white .red) ::
    (prints (lit "\n*** KERNEL PANIC ***\n") ++
      prints (kvprintf fmt args) ++
      prints (lit "\nSystem halted.\n"))

def panicWithRegs (reason : String) (regs : Registers) : List ConCall :=
  .captureEnd :: .ev (.setColor .white .red) ::
    (prints (kprintf "\n*** KERNEL PANIC: %s (vector %u, error %08x) ***\n"
        [.ofLit reason, .ofReg regs.intNo, .ofReg regs.errCode]) ++
      prints (kprintf "eax=%08x ebx=%08x ecx=%08x edx=%08x\n"
        [.ofReg regs.eax, .ofReg regs.ebx, .ofReg regs.ecx, .ofReg regs.edx]) ++
      prints (kprintf "esi=%08x edi=%08x ebp=%08x esp=%08x\n"
        [.ofReg regs.esi, .ofReg regs.edi, .ofReg regs.ebp, .ofReg regs.esp]) ++
      prints (kprintf "eip=%08x cs=%04x ds=%04x eflags=%08x\n"
        [.ofReg regs.eip, .ofReg regs.cs, .ofReg regs.ds, .ofReg regs.eflags]) ++
      prints (lit "System halted.\n"))

/-! ## kernel/idt.c -/

/-- what `isr_handler` says about a page fault -/
def pageFault (cr2 : UInt32) (regs : Registers) : List UInt8 :=
  kprintf "\nPage fault: %s access to %08x from %s mode (%s)\n"
    [.ofLit (if regs.errCode &&& 2 ≠ 0 then "write" else "read"),
     .ofReg cr2,
     .ofLit (if regs.errCode &&& 4 ≠ 0 then "user" else "kernel"),
     .ofLit (if regs.errCode &&& 1 ≠ 0 then "protection violation" else "page not present")]

def isrHandler (cr2 : UInt32) (regs : Registers) : List ConCall :=
  let name := if regs.intNo < 32 then exceptionNames.getD regs.intNo.toNat "" else "Unknown"
  (if regs.intNo = 14 then prints (pageFault cr2 regs) else []) ++ panicWithRegs name regs

/-! ## reports -/

theorem panicWithRegs_reports (t : SerialConsole) (reason : String) (regs : Registers) :
    t.Reports (panicWithRegs reason regs) :=
  (t.reports_iff [] _).mpr (.inr rfl)

theorem pageFault_ne_nil (cr2 : UInt32) (regs : Registers) : pageFault cr2 regs ≠ [] := by
  have hne : newline ≠ '%'.toUInt8 := by decide
  obtain ⟨fmt, hfmt⟩ : ∃ fmt, lit "\nPage fault: %s access to %08x from %s mode (%s)\n" = [newline] ++ fmt :=
    ⟨_, rfl⟩
  unfold pageFault kprintf
  rw [hfmt, kvprintf_text fun h => hne (List.mem_singleton.mp h).symm]
  exact List.cons_ne_nil _ _

/-- Everything comes out, unless a page fault strikes while the output of a command is captured. -/
theorem isr_reports_iff (t : SerialConsole) (cr2 : UInt32) (regs : Registers) :
    t.Reports (isrHandler cr2 regs) ↔ t.captureBuf = 0 ∨ regs.intNo ≠ 14 := by
  unfold isrHandler
  dsimp only
  by_cases h14 : regs.intNo = 14
  · rw [if_pos h14]
    refine (t.reports_iff (pageFault cr2 regs) _).trans ?_
    simp [h14, pageFault_ne_nil]
  · rw [if_neg h14, List.nil_append]
    exact ⟨fun _ => .inr h14, fun _ => panicWithRegs_reports t _ regs⟩

/-- while a command that is redirected runs -/
def redirected : SerialConsole where
  captureBuf := 0xC0400000
  captureCap := 16384
  captured := []
  screen := []
  serial := []

/-- the frame of a write to a page that is not there -/
def writeFault : Registers where
  ds := 0x10
  edi := 0
  esi := 0
  ebp := 0
  esp := 0
  ebx := 0
  edx := 0
  ecx := 0
  eax := 0
  intNo := 14
  errCode := 2
  eip := 0xC0100000
  cs := 0x08
  eflags := 0x202

/-- the address of the fault goes into the file that will never be written -/
theorem isr_reports_writeFault :
    (redirected.run (isrHandler 0x1000 writeFault)).captured =
        lit "\nPage fault: write access to 00001000 from kernel mode (page not present)\n" ∧
      ¬ redirected.Reports (isrHandler 0x1000 writeFault) := by
  have hcaptured : (redirected.run (isrHandler 0x1000 writeFault)).captured =
      lit "\nPage fault: write access to 00001000 from kernel mode (page not present)\n" := by
    decide +kernel
  refine ⟨hcaptured, fun h => ?_⟩
  have hnil : ([] : List UInt8) ≠
      lit "\nPage fault: write access to 00001000 from kernel mode (page not present)\n" := by decide +kernel
  exact hnil (h.captured.symm.trans hcaptured)

end Raptor
