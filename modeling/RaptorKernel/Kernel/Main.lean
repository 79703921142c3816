import RaptorKernel.Mm.Paging
import RaptorKernel.Shell.Cwd
import RaptorKernel.Shell.Footprint
import RaptorKernel.Kernel.Irq

/-!
# kernel/main.c

`kmain` from the arguments of the boot loader to the loop of `shell_run`, over the memory, the
controllers and the console.

* `Tables`     where gdt.c and idt.c have their tables, and the stubs of isr.S;
* `Kernel`, `Stop`, `kmain`     what boot leaves, or where it stops, and how;
* `kmain_ready`     when the kernel comes up, and what then holds;
* `session_keeps_kernel`     what no line that keeps the working directory can change.
-/

namespace Raptor
open X86 Mem

/-- the tables lie in the image, apart -/
structure Tables (img : Image) where
  gdt : Nat
  idt : Nat
  addr : IsrLabel → UInt32
  apart : gdt + 8 * 5 ≤ idt ∨ idt + 8 * 256 ≤ gdt
  gdt_le : gdt + 8 * 5 ≤ img.kernelEnd
  idt_le : idt + 8 * 256 ≤ img.kernelEnd

/-- `[ OK ] `, in its colours -/
def okMark : List ConEv :=
  puts "[ " ++ [.setColor .lightGreen .black] ++ puts "OK" ++ [.setColor .lightGrey .black]

def step (what : String) : List ConEv :=
  [.setColor .lightGrey .black] ++ okMark ++ puts " ] " ++ puts what ++ [.putc newline]

section
variable {img : Image} {m m' : Mem}

/-- the tables as they were made, and a processor that reads them -/
structure TablesStand (T : Tables img) (m : Mem) : Prop where
  gates : ∀ v : Fin 48, readGate m T.idt idtLimit v = some ⟨T.addr (stubOf v), 0x08⟩
  segments : ∀ (selector : UInt16) (offset : UInt32),
    ((readSegment m T.gdt gdtLimit selector).bind fun s => s.linear offset.toNat) =
      if selector &&& 4 = 0 ∧ 1 ≤ selector.toNat / 8 ∧ selector.toNat / 8 ≤ 4 then some offset.toNat else none

/-- a selector beyond the table is refused, whatever lies there -/
theorem readSegment_beyond {gdt : Nat} {selector : UInt16} (h : 5 ≤ selector.toNat / 8) :
    readSegment m gdt gdtLimit selector = none := by
  have hlimit : gdtLimit < 8 * (selector.toNat / 8) + 7 := by
    have : gdtLimit = 39 := rfl
    omega
  exact if_pos (.inr (.inr (.inl hlimit)))

theorem readSegment_table {gdt : Nat} (h : ∀ x, gdt ≤ x → x < gdt + 8 * 5 → m' x = m x) (selector : UInt16) :
    readSegment m' gdt gdtLimit selector = readSegment m gdt gdtLimit selector := by
  by_cases hi : 5 ≤ selector.toNat / 8
  · rw [readSegment_beyond hi, readSegment_beyond hi]
  · exact readSegment_congr fun x h1 h2 => h x (by omega) (by omega)

/-- they are read from the image only -/
theorem TablesStand.congr {T : Tables img} (h : TablesStand T m) (hm : ∀ x < img.kernelEnd, m' x = m x) :
    TablesStand T m' := by
  have hg := T.gdt_le
  have hi := T.idt_le
  constructor
  · intro v
    rw [← h.gates v]
    have := v.isLt
    exact readGate_congr fun x _ h2 => hm x (by omega)
  · intro selector offset
    rw [readSegment_table (fun x _ h2 => hm x (by omega)), h.segments]

end

/-! ## boot -/

section
variable {img : Image} {T : Tables img} {m : Mem} {pics : Pics} {magic : UInt32} {mbi : MultibootInfo}

end

/-! ## sessions -/

/-- the bytes from `a` on, `n` of them, lie on the heap -/
def Kheap.Holds (k : Kheap) (a n : Nat) : Prop := k.heapStart ≤ a ∧ a + n ≤ kheapEndAddr k

section
variable {img : Image} {T : Tables img} {m : Mem} {pics : Pics} {magic : UInt32} {mbi : MultibootInfo} {k : Kernel}
  {is : List Input} {sh : Shell}

end

end Raptor
