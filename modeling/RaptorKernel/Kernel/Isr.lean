import RaptorKernel.Theory.X86
import RaptorKernel.Theory.Run
import RaptorKernel.Kernel.Panic

/-!
# kernel/isr.S

The entry stubs: each pushes what the CPU did not, saves the registers and calls into C with a
pointer to `struct registers`.

* `isrText`            the listing;
* `registersAt`        `struct registers`, read from memory;
* `stub_calls`         what a stub does up to the call;
* `restore_block`      and after it.
-/

namespace Raptor
open X86 X86.Cpu Mem

inductive IsrLabel where
  | isr (n : Fin 32)
  | irq (num : Fin 16)
  | isrCommon
  | irqCommon
deriving DecidableEq

/-- the C functions the stubs call -/
inductive IsrCallee where
  | isrHandler
  | irqHandler
deriving DecidableEq

abbrev IsrInsn := Insn IsrLabel IsrCallee

/-! ## the listing -/

/-- `ISR_NOERR n` -/
def isrNoerr (n : Nat) : List IsrInsn :=
  [.op (.pushImm 0), .op (.pushImm (.ofNat n)), .jmp .isrCommon]

/-- `ISR_ERR n`: the CPU already pushed the error code -/
def isrErr (n : Nat) : List IsrInsn := [.op (.pushImm (.ofNat n)), .jmp .isrCommon]

/-- `IRQ num, vector` -/
def irqEntry (vector : Nat) : List IsrInsn :=
  [.op (.pushImm 0), .op (.pushImm (.ofNat vector)), .jmp .irqCommon]

/-- the lines `ISR_ERR n` -/
def isrErrVectors : List Nat := [8, 10, 11, 12, 13, 14, 17, 21, 30]

/-- `SAVE_AND_CALL` after the call -/
def isrRestore : List IsrInsn :=
  [.op (.addImm 4 .esp), .op (.pop .eax), .op (.movToSeg .eax .ds), .op (.movToSeg .eax .es),
    .op (.movToSeg .eax .fs), .op (.movToSeg .eax .gs), .op .popa, .op (.addImm 8 .esp), .iret]

def saveAndCall (handler : IsrCallee) : List IsrInsn :=
  [.op .pusha, .op (.xor .eax .eax), .op (.movFromSeg .ds .eax), .op (.push .eax),
    .op (.movImm 0x10 .eax), .op (.movToSeg .eax .ds), .op (.movToSeg .eax .es),
    .op (.movToSeg .eax .fs), .op (.movToSeg .eax .gs), .op (.push .esp), .call handler] ++ isrRestore

def isrText : IsrLabel → List IsrInsn
  | .isr n => if n.val ∈ isrErrVectors then isrErr n else isrNoerr n
  | .irq num => irqEntry (32 + num)
  | .isrCommon => saveAndCall .isrHandler
  | .irqCommon => saveAndCall .irqHandler

/-! ## struct registers -/

/-- the fields at their offsets -/
def registersAt (m : Mem) (p : Nat) : Registers where
  ds := .ofNat (load32 m p)
  edi := .ofNat (load32 m (p + 4))
  esi := .ofNat (load32 m (p + 8))
  ebp := .ofNat (load32 m (p + 12))
  esp := .ofNat (load32 m (p + 16))
  ebx := .ofNat (load32 m (p + 20))
  edx := .ofNat (load32 m (p + 24))
  ecx := .ofNat (load32 m (p + 28))
  eax := .ofNat (load32 m (p + 32))
  intNo := .ofNat (load32 m (p + 36))
  errCode := .ofNat (load32 m (p + 40))
  eip := .ofNat (load32 m (p + 44))
  cs := .ofNat (load32 m (p + 48))
  eflags := .ofNat (load32 m (p + 52))

/-- its words, from the lowest address on -/
def Registers.words (r : Registers) : List UInt32 :=
  [r.ds, r.edi, r.esi, r.ebp, r.esp, r.ebx, r.edx, r.ecx, r.eax, r.intNo, r.errCode, r.eip, r.cs, r.eflags]

theorem registersAt_eq {m : Mem} {p : Nat} {r : Registers} (h : WordsAt m p r.words) : registersAt m p = r := by
  have hget : ∀ {k : Nat} {w : UInt32}, r.words[k]? = some w → UInt32.ofNat (load32 m (p + 4 * k)) = w := by
    intro k w hk
    rw [h.get hk, ofNat_toNat]
  unfold registersAt
  rw [show load32 m p = load32 m (p + 4 * 0) from rfl]
  congr 1
  · exact hget (k := 0) rfl
  · exact hget (k := 1) rfl
  · exact hget (k := 2) rfl
  · exact hget (k := 3) rfl
  · exact hget (k := 4) rfl
  · exact hget (k := 5) rfl
  · exact hget (k := 6) rfl
  · exact hget (k := 7) rfl
  · exact hget (k := 8) rfl
  · exact hget (k := 9) rfl
  · exact hget (k := 10) rfl
  · exact hget (k := 11) rfl
  · exact hget (k := 12) rfl
  · exact hget (k := 13) rfl

/-- the frame of code interrupted in state `s`; `pusha` stores the stack pointer as it is once the CPU
and the stub have pushed their five words -/
def interruptedFrame (s : Cpu) (vector : Nat) (err : Option UInt32) : Registers where
  ds := (s.seg .ds).toUInt32
  edi := s.reg .edi
  esi := s.reg .esi
  ebp := s.reg .ebp
  esp := s.reg .esp - 20
  ebx := s.reg .ebx
  edx := s.reg .edx
  ecx := s.reg .ecx
  eax := s.reg .eax
  intNo := .ofNat vector
  errCode := err.getD 0
  eip := s.eip
  cs := (s.seg .cs).toUInt32
  eflags := s.eflags

/-- the CPU gives no error code for a line of the controllers -/
theorem no_error_code {v : Nat} (hv : ¬ v < 32) : (none : Option UInt32).isSome ↔ v ∈ isrErrVectors := by
  have hall : ∀ n ∈ isrErrVectors, n < 32 := by decide
  exact ⟨fun h => absurd h (by simp), fun h => absurd (hall v h) hv⟩

/-! ## up to the call -/

section
variable (C : Code IsrLabel IsrCallee) {s t : Cpu} {ws : List UInt32}

theorem interrupt_pushed (err : Option UInt32) (hroom : 16 ≤ s.sp) (sel : UInt16) (off : UInt32) :
    Pushed s (s.interrupt err sel off) (err.toList ++ [s.eip, (s.seg .cs).toUInt32, s.eflags]) := by
  have hlen : ([s.eflags, (s.seg .cs).toUInt32, s.eip] ++ err.toList).length ≤ 4 := by cases err <;> simp
  have h := (Pushed.refl s).pushAll ([s.eflags, (s.seg .cs).toUInt32, s.eip] ++ err.toList) (by simp at hlen ⊢; omega)
  have e : ([s.eflags, (s.seg .cs).toUInt32, s.eip] ++ err.toList).reverse ++ [] =
      err.toList ++ [s.eip, (s.seg .cs).toUInt32, s.eflags] := by
    cases err <;> simp
  rw [e] at h
  exact h.keep _ rfl rfl

theorem interrupt_reg (err : Option UInt32) (sel : UInt16) (off : UInt32) {r : Reg} (hr : r ≠ .esp) :
    (s.interrupt err sel off).reg r = s.reg r := pushAll_reg hr s _

theorem interrupt_seg (err : Option UInt32) (sel : UInt16) (off : UInt32) :
    (s.interrupt err sel off).seg = Function.update s.seg .cs sel := by
  show Function.update (s.pushAll _).seg Seg.cs sel = _
  rw [pushAll_seg]

/-- the words `SAVE_AND_CALL` pushes, the pointer and the return address among them -/
def savedWords (t : Cpu) (ret pointer : UInt32) : List UInt32 :=
  [ret, pointer, (t.seg .ds).toUInt32, t.reg .edi, t.reg .esi, t.reg .ebp, t.reg .esp, t.reg .ebx,
    t.reg .edx, t.reg .ecx, t.reg .eax]

/-- the four `movw %ax, ..` -/
def loadSegs (flags : Cpu → UInt32) (s : Cpu) : Cpu :=
  [Seg.ds, .es, .fs, .gs].foldl (fun u g => (Op.movToSeg .eax g).step flags u) s

/-- `w` in the four segment registers -/
def withData (f : Seg → UInt16) (w : UInt16) : Seg → UInt16
  | .cs => f .cs
  | .ss => f .ss
  | _ => w

theorem loadSegs_seg (flags : Cpu → UInt32) (s : Cpu) :
    (loadSegs flags s).seg = withData s.seg (s.reg .eax).toUInt16 := by
  funext g
  cases g <;> simp [loadSegs, Op.step, setSeg, withData]

/-- `SAVE_AND_CALL` up to the call: the pointer is that of the words behind it. -/
theorem saveAndCall_calls (h : Pushed s t ws) (hroom : 4 * (ws.length + 11) ≤ s.sp) (f : IsrCallee) :
    ∃ u, C.block (saveAndCall f) t = (C.call f u).bind (C.block isrRestore) ∧
      Pushed s u (savedWords t C.ret (.ofNat (u.sp + 8)) ++ ws) ∧
      u.seg .cs = t.seg .cs ∧ u.seg .ss = t.seg .ss := by
  -- pusha
  have h1 : Pushed s t.pusha ([t.reg .edi, t.reg .esi, t.reg .ebp, t.reg .esp, t.reg .ebx, t.reg .edx,
      t.reg .ecx, t.reg .eax] ++ ws) := h.pushAll _ (by simp; omega)
  have hseg : t.pusha.seg = t.seg := pushAll_seg t _
  have hb : C.block (saveAndCall f) t = C.block ((saveAndCall f).drop 1) t.pusha := rfl
  generalize t.pusha = t1 at h1 hseg hb
  -- the data segment
  have h2 := h1.keep ((Op.movFromSeg .ds .eax).step C.flags ((Op.xor .eax .eax).step C.flags t1)) rfl rfl
  have hds : ((Op.movFromSeg .ds .eax).step C.flags ((Op.xor .eax .eax).step C.flags t1)).reg .eax =
      (t.seg .ds).toUInt32 := by
    show setLow (t1.reg .eax ^^^ t1.reg .eax) (t1.seg .ds) = _
    rw [hseg]
    simp [setLow]
  have hseg2 : ((Op.movFromSeg .ds .eax).step C.flags ((Op.xor .eax .eax).step C.flags t1)).seg = t.seg := hseg
  replace hb := hb.trans (show _ = C.block ((saveAndCall f).drop 3)
    ((Op.movFromSeg .ds .eax).step C.flags ((Op.xor .eax .eax).step C.flags t1)) from rfl)
  generalize (Op.movFromSeg .ds .eax).step C.flags ((Op.xor .eax .eax).step C.flags t1) = t2
    at h2 hds hseg2 hb
  have h3 := h2.push (by simp; omega) (t2.reg .eax)
  rw [hds] at h3
  replace hb := hb.trans (show _ = C.block ((saveAndCall f).drop 9) (loadSegs C.flags ((Op.movImm 0x10 .eax).step C.flags (t2.push (t2.reg .eax))))
    from rfl)
  rw [hds] at hb
  have h4 := h3.keep (loadSegs C.flags ((Op.movImm 0x10 .eax).step C.flags (t2.push (t.seg .ds).toUInt32))) rfl rfl
  have hcs : (loadSegs C.flags ((Op.movImm 0x10 .eax).step C.flags (t2.push (t.seg .ds).toUInt32))).seg .cs = t.seg .cs := congrFun hseg2 .cs
  have hss : (loadSegs C.flags ((Op.movImm 0x10 .eax).step C.flags (t2.push (t.seg .ds).toUInt32))).seg .ss = t.seg .ss := congrFun hseg2 .ss
  generalize loadSegs C.flags ((Op.movImm 0x10 .eax).step C.flags (t2.push (t.seg .ds).toUInt32)) = t4 at h4 hcs hss hb
  -- the pointer and the call
  have h5 := h4.push (by simp; omega) (t4.reg .esp)
  have h6 := h5.push (by simp; omega) C.ret
  have hu : t4.reg .esp = .ofNat (((t4.push (t4.reg .esp)).push C.ret).sp + 8) := by
    have e4 := h4.sp
    have e6 := h6.sp
    rw [List.length_cons, List.length_cons] at e6
    have e : ((t4.push (t4.reg .esp)).push C.ret).sp + 8 = t4.sp := by omega
    rw [e]
    exact (ofNat_toNat _).symm
  refine ⟨(t4.push (t4.reg .esp)).push C.ret, hb, ?_, hcs, hss⟩
  rw [← hu]
  exact h6

end

/-! ## after the call -/

/-- The CPU as `struct registers` says, from the state `v` after the call. -/
def Registers.restore (r : Registers) (v : Cpu) : Cpu where
  reg
    | .eax => r.eax
    | .ecx => r.ecx
    | .edx => r.edx
    | .ebx => r.ebx
    | .esp => v.reg .esp + 60
    | .ebp => r.ebp
    | .esi => r.esi
    | .edi => r.edi
  seg
    | .cs => r.cs.toUInt16
    | .ss => v.seg .ss
    | _ => r.ds.toUInt16
  eip := r.eip
  eflags := r.eflags
  mem := v.mem

/-- the `struct registers` behind the argument goes back into the CPU -/
theorem restore_block (C : Code IsrLabel IsrCallee) {v : Cpu} {r : Registers}
    (h : WordsAt v.mem (v.sp + 4) r.words) (hroom : v.sp + 60 < 2^32) :
    C.block isrRestore v = some (r.restore v, none) := by
  -- the argument goes, and `popl %eax` takes the data segment
  have hb : C.block isrRestore v = C.block (isrRestore.drop 1) ((Op.addImm 4 .esp).step C.flags v) := rfl
  have hmem1 : ((Op.addImm 4 .esp).step C.flags v).mem = v.mem := rfl
  have hseg1 : ((Op.addImm 4 .esp).step C.flags v).seg = v.seg := rfl
  have hesp1 : ((Op.addImm 4 .esp).step C.flags v).reg .esp = v.reg .esp + 4 := drop_esp v 4
  generalize (Op.addImm 4 .esp).step C.flags v = v1 at hb hmem1 hseg1 hesp1
  have hsp1 : v1.sp = v.sp + 4 := by
    unfold sp
    rw [hesp1, UInt32.toNat_add]
    exact Nat.mod_eq_of_lt (by show v.sp + 4 < _; omega)
  rw [← hmem1, ← hsp1] at h
  have hword : v1.word 0 = r.ds := word_eq h rfl
  have heax : (v1.pop .eax).reg .eax = r.ds := (pop_self v1 .eax).trans hword
  have hesp : (v1.pop .eax).reg .esp = v1.reg .esp + 4 := pop_esp v1 (by decide)
  have hseg := loadSegs_seg C.flags (v1.pop .eax)
  rw [heax] at hseg
  replace hb := hb.trans (show _ = C.block (isrRestore.drop 6) (loadSegs C.flags (v1.pop .eax)) from rfl)
  have hmem2 : (loadSegs C.flags (v1.pop .eax)).mem = v.mem := hmem1
  have hesp2 : (loadSegs C.flags (v1.pop .eax)).reg .esp = v.reg .esp + 8 := by
    refine hesp.trans ?_
    rw [hesp1, UInt32.add_assoc]
    rfl
  rw [show (v1.pop .eax).seg = v.seg from hseg1] at hseg
  generalize loadSegs C.flags (v1.pop .eax) = v2 at hb hmem2 hesp2 hseg
  -- `popa`
  have hsp2 : v2.sp = v.sp + 8 := by
    unfold sp
    rw [hesp2, UInt32.toNat_add]
    exact Nat.mod_eq_of_lt (by show v.sp + 8 < _; omega)
  have h2 : WordsAt v2.mem v2.sp ([r.edi, r.esi, r.ebp, r.esp, r.ebx, r.edx, r.ecx, r.eax] ++
      [r.intNo, r.errCode, r.eip, r.cs, r.eflags]) := by
    rw [hmem2, hsp2]
    rw [hmem1, hsp1] at h
    exact h.2
  have hpopa : Popped v2 v2.popa _ _ := popAll_popped (by decide) rfl h2 (by rw [hsp2]; show v.sp + 8 + 32 < _; omega)
  replace hb := hb.trans (show _ = C.block (isrRestore.drop 7) v2.popa from rfl)
  have hmem3 : v2.popa.mem = v.mem := hpopa.mem.trans hmem2
  have hseg3 : v2.popa.seg = v2.seg := hpopa.seg
  have hesp3 : v2.popa.reg .esp = v.reg .esp + 40 := by
    rw [hpopa.esp, hesp2, UInt32.add_assoc]
    rfl
  have hreg3 : ∀ x, x ≠ Reg.esp → v2.popa.reg x = (r.restore v).reg x := by
    intro x hx
    rw [hpopa.reg x hx]
    cases x with
    | esp => exact absurd rfl hx
    | _ => rfl
  generalize v2.popa = v3 at hb hmem3 hseg3 hesp3 hreg3
  -- `iret`
  have hesp4 : (v3.drop 8).reg .esp = v.reg .esp + 48 := by
    rw [drop_esp, hesp3, UInt32.add_assoc]
    rfl
  have hsp4 : (v3.drop 8).sp = v.sp + 48 := by
    unfold sp
    rw [hesp4, UInt32.toNat_add]
    exact Nat.mod_eq_of_lt (by show v.sp + 48 < _; omega)
  have h4 : WordsAt (v3.drop 8).mem (v3.drop 8).sp [r.eip, r.cs, r.eflags] := by
    rw [hsp4]
    show WordsAt v3.mem _ _
    rw [hmem3]
    rw [hmem2, hsp2] at h2
    exact WordsAt.right [r.edi, r.esi, r.ebp, r.esp, r.ebx, r.edx, r.ecx, r.eax, r.intNo, r.errCode] h2
  have h0 : ((Op.addImm 8 .esp).step C.flags v3).word 0 = r.eip := word_eq h4 (k := 0) rfl
  have h1 : ((Op.addImm 8 .esp).step C.flags v3).word 1 = r.cs := word_eq h4 (k := 1) rfl
  have h2 : ((Op.addImm 8 .esp).step C.flags v3).word 2 = r.eflags := word_eq h4 (k := 2) rfl
  rw [hb]
  show some (((Op.addImm 8 .esp).step C.flags v3).iret, none) = _
  have hiret : ((Op.addImm 8 .esp).step C.flags v3).iret = r.restore v := by
    unfold Cpu.iret
    rw [h0, h1, h2]
    show (⟨Function.update (v3.drop 8).reg .esp ((v3.drop 8).reg .esp + 12),
      Function.update v3.seg .cs r.cs.toUInt16, r.eip, r.eflags, v3.mem⟩ : Cpu) = _
    rw [hesp4, hmem3, hseg3, hseg]
    unfold Registers.restore
    congr 1
    · funext x
      cases x <;> simp [drop, setReg, hreg3, Registers.restore, UInt32.add_assoc]
    · funext g
      cases g <;> rfl
  rw [hiret]

/-! ## from the interrupt to the call -/

/-- the stub the vector leads to, and the function it calls -/
def stubOf (v : Fin 48) : IsrLabel :=
  if h : v.val < 32 then .isr ⟨v, h⟩ else .irq ⟨v - 32, by omega⟩

def calleeOf (v : Fin 48) : IsrCallee := if v.val < 32 then .isrHandler else .irqHandler

def isrCode (call : IsrCallee → Cpu → Option Cpu) (ret : UInt32) (flags : Cpu → UInt32) :
    Code IsrLabel IsrCallee := ⟨isrText, call, ret, flags⟩

section
variable (call : IsrCallee → Cpu → Option Cpu) (ret : UInt32) (flags : Cpu → UInt32)
  {s : Cpu} {v : Fin 48} {err : Option UInt32}

/-- the stubs even out the error code: with it or without, the vector lies on top of five words -/
theorem stub_pushes (herr : err.isSome ↔ v.val ∈ isrErrVectors) (hroom : 20 ≤ s.sp) (sel : UInt16)
    (off : UInt32) :
    ∃ t l, (isrCode call ret flags).block (isrText (stubOf v)) (s.interrupt err sel off) = some (t, some l) ∧
      isrText l = saveAndCall (calleeOf v) ∧
      Pushed s t [.ofNat v, err.getD 0, s.eip, (s.seg .cs).toUInt32, s.eflags] ∧
      (∀ r, r ≠ .esp → t.reg r = s.reg r) ∧ t.seg = Function.update s.seg .cs sel := by
  have h := interrupt_pushed (s := s) err (by omega) sel off
  have hreg : ∀ r, r ≠ .esp → (s.interrupt err sel off).reg r = s.reg r := fun r hr => interrupt_reg err sel off hr
  have hseg := interrupt_seg (s := s) err sel off
  generalize s.interrupt err sel off = i at h hreg hseg
  have hreg1 : ∀ w r, r ≠ .esp → (i.push w).reg r = s.reg r := fun w r hr => (push_reg i w hr).trans (hreg r hr)
  have hreg2 : ∀ w w' r, r ≠ .esp → ((i.push w).push w').reg r = s.reg r := by
    intro w w' r hr
    exact (push_reg (i.push w) w' hr).trans (hreg1 w r hr)
  by_cases hv : v.val < 32
  · have hstub : stubOf v = .isr ⟨v, hv⟩ := dif_pos hv
    have hcallee : calleeOf v = .isrHandler := if_pos hv
    rw [hstub, hcallee]
    by_cases he : v.val ∈ isrErrVectors
    · obtain ⟨e, rfl⟩ := Option.isSome_iff_exists.mp (herr.mpr he)
      have htext : isrText (.isr ⟨v, hv⟩) = isrErr v := if_pos he
      rw [htext]
      exact ⟨i.push (.ofNat v), .isrCommon, rfl, rfl, h.push (by simp; omega) _, hreg1 _, hseg⟩
    · obtain rfl : err = none := Option.not_isSome_iff_eq_none.mp fun hs => he (herr.mp hs)
      have htext : isrText (.isr ⟨v, hv⟩) = isrNoerr v := if_neg he
      rw [htext]
      have h1 := h.push (by simp; omega) 0
      exact ⟨(i.push 0).push (.ofNat v), .isrCommon, rfl, rfl, h1.push (by simp; omega) _, hreg2 _ _, hseg⟩
  · have hstub : stubOf v = .irq ⟨v - 32, by omega⟩ := dif_neg hv
    have hcallee : calleeOf v = .irqHandler := if_neg hv
    have he : v.val ∉ isrErrVectors := fun hm => absurd ((no_error_code hv).mpr hm) (by simp)
    obtain rfl : err = none := Option.not_isSome_iff_eq_none.mp fun hs => he (herr.mp hs)
    rw [hstub, hcallee]
    have hvec : 32 + (v.val - 32) = v.val := by omega
    have htext : isrText (.irq ⟨v - 32, by omega⟩) = irqEntry v := congrArg irqEntry hvec
    rw [htext]
    have h1 := h.push (by simp; omega) 0
    exact ⟨(i.push 0).push (.ofNat v), .irqCommon, rfl, rfl, h1.push (by simp; omega) _, hreg2 _ _, hseg⟩

/-- The C function is called on the frame of the interrupted code. -/
theorem stub_calls (herr : err.isSome ↔ v.val ∈ isrErrVectors) (hroom : 64 ≤ s.sp) (sel : UInt16) (off : UInt32) :
    ∃ u, (isrCode call ret flags).run 2 (stubOf v) (s.interrupt err sel off) =
        ((call (calleeOf v) u).bind fun t => ((isrCode call ret flags).block isrRestore t).map Prod.fst) ∧
      Pushed s u (ret :: .ofNat (u.sp + 8) :: (interruptedFrame s v err).words) ∧ u.seg .ss = s.seg .ss := by
  obtain ⟨t, l, hb, hl, hp, hreg, hseg⟩ := stub_pushes call ret flags (s := s) herr (by omega) sel off
  obtain ⟨u, hb', hp', -, hss⟩ := saveAndCall_calls (isrCode call ret flags) hp (by simp; omega) (calleeOf v)
  have hesp : t.reg .esp = s.reg .esp - 20 := by
    apply UInt32.toNat_inj.mp
    have hle : (20 : UInt32) ≤ s.reg .esp := UInt32.le_iff_toNat_le.mpr (by show 20 ≤ s.sp; omega)
    rw [UInt32.toNat_sub_of_le _ _ hle]
    have := hp.sp
    show t.sp = s.sp - 20
    simp only [List.length_cons, List.length_nil] at this
    omega
  have hds : t.seg .ds = s.seg .ds := by
    rw [hseg]
    rfl
  refine ⟨u, ?_, ?_, ?_⟩
  · show ((isrCode call ret flags).block (isrText (stubOf v)) (s.interrupt err sel off)).bind _ = _
    rw [hb]
    show ((isrCode call ret flags).block (isrText l) t).bind _ = _
    rw [hl, hb', Option.bind_assoc]
    -- the code after the call has no jump
    rfl
  · have hw : savedWords t ret (.ofNat (u.sp + 8)) ++ [.ofNat v, err.getD 0, s.eip, (s.seg .cs).toUInt32, s.eflags] =
        ret :: .ofNat (u.sp + 8) :: (interruptedFrame s v err).words := by
      unfold savedWords
      rw [hds, hesp, hreg _ (by decide), hreg _ (by decide), hreg _ (by decide), hreg _ (by decide),
        hreg _ (by decide), hreg _ (by decide), hreg _ (by decide)]
      rfl
    rw [← hw]
    exact hp'
  · rw [hss, hseg]
    rfl

/-- Whatever was interrupted, by whichever vector, the C function gets a pointer to its registers, the
vector and the error code (0 where the CPU gives none), and the stack of the interrupted code is
untouched. -/
theorem stub_frame (herr : err.isSome ↔ v.val ∈ isrErrVectors) (hroom : 64 ≤ s.sp) (sel : UInt16) (off : UInt32) :
    ∃ u, (isrCode call ret flags).run 2 (stubOf v) (s.interrupt err sel off) =
        ((call (calleeOf v) u).bind fun t => ((isrCode call ret flags).block isrRestore t).map Prod.fst) ∧
      registersAt u.mem (u.word 1).toNat = interruptedFrame s v err ∧ ∀ x, s.sp ≤ x → u.mem x = s.mem x := by
  obtain ⟨u, hrun, hp, -⟩ := stub_calls call ret flags herr hroom sel off
  refine ⟨u, hrun, ?_, fun x hx => hp.frame x (.inr hx)⟩
  have hsp : u.sp + 64 = s.sp := hp.sp
  have hlt : s.sp < 2^32 := (s.reg .esp).toNat_lt
  have hptr : (u.word 1).toNat = u.sp + 8 := by
    rw [word_eq hp.holds rfl]
    exact Nat.mod_eq_of_lt (by omega)
  rw [hptr]
  exact registersAt_eq hp.holds.2.2

/-! ## interrupts in a running program -/

/-- `ds`, `es`, `fs` and `gs` are one: only `ds` is saved -/
def FlatData (s : Cpu) : Prop := s.seg .es = s.seg .ds ∧ s.seg .fs = s.seg .ds ∧ s.seg .gs = s.seg .ds

/-- `s` and `t` are the same to code that reads neither the bytes of `D` nor, from `low` on, below its
stack pointer -/
structure Agree (low : Nat) (D : Set Nat) (s t : Cpu) : Prop where
  reg : s.reg = t.reg
  seg : s.seg = t.seg
  eip : s.eip = t.eip
  eflags : s.eflags = t.eflags
  mem : ∀ x, x ∉ D → x < low ∨ t.sp ≤ x → s.mem x = t.mem x

theorem Agree.refl (low : Nat) (D : Set Nat) (s : Cpu) : Agree low D s s := ⟨rfl, rfl, rfl, rfl, fun _ _ _ => rfl⟩

theorem Agree.trans {low : Nat} {D : Set Nat} {s t u : Cpu} (h : Agree low D s t) (h' : Agree low D t u) :
    Agree low D s u := by
  have hsp : t.sp = u.sp := by
    unfold sp
    rw [h'.reg]
  refine ⟨h.reg.trans h'.reg, h.seg.trans h'.seg, h.eip.trans h'.eip, h.eflags.trans h'.eflags, ?_⟩
  intro x hx hout
  rw [← h'.mem x hx hout]
  rw [← hsp] at hout
  exact h.mem x hx hout

/-- One interrupt, whose C function returns as the calling convention says. -/
theorem interrupt_agrees {low : Nat} {D : Set Nat} (herr : err.isSome ↔ v.val ∈ isrErrVectors)
    (hlow : low + 64 ≤ s.sp) (hD : ∀ x ∈ D, x < low ∨ s.sp ≤ x) (hflat : FlatData s)
    (hcall : ∀ u, u.sp + 64 = s.sp → ∃ t, call (calleeOf v) u = some t ∧ Returns low D u t) (sel : UInt16)
    (off : UInt32) :
    ∃ t, (isrCode call ret flags).run 2 (stubOf v) (s.interrupt err sel off) = some t ∧ Agree low D t s := by
  obtain ⟨u, hrun, hp, hss⟩ := stub_calls call ret flags (s := s) herr (by omega) sel off
  have hsp : u.sp + 64 = s.sp := hp.sp
  have hlt : s.sp < 2^32 := (s.reg .esp).toNat_lt
  obtain ⟨t, ht, hr⟩ := hcall u hsp
  have htsp : t.sp = u.sp + 4 := by
    unfold sp
    rw [hr.esp, UInt32.toNat_add]
    exact Nat.mod_eq_of_lt (by show u.sp + 4 < _; omega)
  -- the frame is where the call left it
  have hframe : WordsAt t.mem (t.sp + 4) (interruptedFrame s v err).words := by
    rw [htsp]
    refine hp.holds.2.2.congr fun x h1 h2 => hr.frame x (fun hx => ?_) (.inr (by omega))
    have h3 : x < u.sp + 64 := h2
    have := hD x hx
    omega
  have hback := restore_block (isrCode call ret flags) hframe (by omega)
  refine ⟨(interruptedFrame s v err).restore t, ?_, ?_⟩
  · rw [hrun, ht]
    show ((isrCode call ret flags).block isrRestore t).map Prod.fst = _
    rw [hback]
    rfl
  · have hesp : t.reg .esp + 60 = s.reg .esp := by
      apply UInt32.toNat_inj.mp
      rw [UInt32.toNat_add]
      show (t.sp + 60) % 2^32 = s.sp
      omega
    refine ⟨?_, ?_, rfl, rfl, ?_⟩
    · funext r
      cases r with
      | esp => exact hesp
      | _ => rfl
    · have htss : t.seg .ss = s.seg .ss := (congrFun hr.seg .ss).trans hss
      obtain ⟨h1, h2, h3⟩ := hflat
      funext g
      cases g <;> simp [Registers.restore, interruptedFrame, htss, h1, h2, h3]
    · intro x hx hout
      show t.mem x = s.mem x
      rw [hr.frame x hx (by omega)]
      exact hp.frame x (by omega)

end

/-- what happens next in a machine that takes interrupts -/
inductive Beat where
  /-- the program takes a step -/
  | prog
  /-- a device interrupts it -/
  | irq (num : Fin 16)

/-- A program that is interrupted while there are `room` bytes left on its stack `[low, top)`;
`gate` is what the interrupt descriptor table says. -/
def interruptedMachine (prog : Cpu → Cpu) (C : Code IsrLabel IsrCallee) (gate : Fin 16 → UInt16 × UInt32)
    (low top room : Nat) : Machine Cpu Beat Fault where
  step s
    | .prog => .ok (prog s)
    | .irq num =>
      match C.run 2 (.irq num) (s.interrupt none (gate num).1 (gate num).2) with
      | some t => .ok t
      | none => .error .diverges
  legal s
    | .prog => True
    | .irq _ => low + 64 + room ≤ s.sp ∧ s.sp ≤ top ∧ FlatData s

def Beat.isProg : Beat → Bool
  | .prog => true
  | .irq _ => false

section
variable {prog : Cpu → Cpu} {call : IsrCallee → Cpu → Option Cpu} {ret : UInt32} {flags : Cpu → UInt32}
  {gate : Fin 16 → UInt16 × UInt32} {low top room : Nat} {D : Set Nat}

variable (prog ret flags gate) in
theorem irq_step (hD : ∀ x ∈ D, x < low ∨ top ≤ x)
    (hcall : ∀ u, low + room ≤ u.sp → ∃ t, call .irqHandler u = some t ∧ Returns low D u t) {s : Cpu}
    (num : Fin 16) (hl : low + 64 + room ≤ s.sp ∧ s.sp ≤ top ∧ FlatData s) :
    ∃ t, (interruptedMachine prog (isrCode call ret flags) gate low top room).step s (.irq num) = .ok t ∧
      Agree low D t s := by
  obtain ⟨hroom, htop, hflat⟩ := hl
  let v : Fin 48 := ⟨32 + num, by omega⟩
  have hv : ¬ v.val < 32 := by
    show ¬ 32 + num.val < 32
    omega
  have hstub : stubOf v = .irq num := by
    refine (dif_neg hv).trans (congrArg IsrLabel.irq (Fin.ext ?_))
    show 32 + num.val - 32 = num.val
    omega
  have hcallee : calleeOf v = .irqHandler := if_neg hv
  obtain ⟨t, ht, ha⟩ := interrupt_agrees call ret flags (D := D) (no_error_code hv)
    (show low + 64 ≤ s.sp by omega) (fun x hx => by have := hD x hx; omega) hflat (fun u hu => by
      rw [hcallee]
      exact hcall u (by omega)) (gate num).1 (gate num).2
  rw [hstub] at ht
  refine ⟨t, ?_, ha⟩
  unfold interruptedMachine
  dsimp only
  rw [ht]

/-- Interrupts cannot be seen: however they fall between the steps of a program, it ends as it does
alone, but for the data of the handlers and what lies below its stack pointer. -/
theorem irq_transparent (hD : ∀ x ∈ D, x < low ∨ top ≤ x)
    (hcall : ∀ u, low + room ≤ u.sp → ∃ t, call .irqHandler u = some t ∧ Returns low D u t)
    (hprog : ∀ s t, Agree low D s t → Agree low D (prog s) (prog t)) {s t : Cpu} {is : List Beat}
    (r : (interruptedMachine prog (isrCode call ret flags) gate low top room).Run s is t) :
    Agree low D t (prog^[is.countP Beat.isProg] s) := by
  induction r with
  | nil => exact .refl low D s
  | @snoc is t u i _ hl hs ih =>
    rw [List.countP_append]
    cases i with
    | prog =>
      cases hs
      show Agree low D _ (prog^[is.countP Beat.isProg + 1] s)
      rw [Function.iterate_succ_apply']
      exact hprog _ _ ih
    | irq num =>
      obtain ⟨u', hu', ha⟩ := irq_step prog ret flags gate hD hcall num hl
      rw [hs] at hu'
      cases hu'
      exact ha.trans ih

end

/-- some code, its stack below `0xC000` -/
def interruptedCpu : Cpu where
  reg r := if r = .esp then 0xC000 else 0
  seg _ := 0x10
  eip := 0xC0100000
  eflags := 0x202
  mem _ := 0

/-- a program that counts, and a handler that writes one byte -/
def countUp (s : Cpu) : Cpu := s.setReg .eax (s.reg .eax + 1)

def writeByte (_ : IsrCallee) (u : Cpu) : Option Cpu :=
  some { u.drop 4 with mem := Function.update u.mem 0x1000 1 }

theorem irq_transparent_counting :
    ∃ t, (interruptedMachine countUp (isrCode writeByte 0 fun _ => 0) (fun _ => (0x08, 0xC0100200))
      0x8000 0xC000 0).Run interruptedCpu [.prog, .irq 0] t ∧ Agree 0x8000 {0x1000} t (countUp^[1] interruptedCpu) := by
  have hD : ∀ x ∈ ({0x1000} : Set Nat), x < 0x8000 ∨ 0xC000 ≤ x := by
    intro x hx
    obtain rfl : x = 0x1000 := hx
    exact .inl (by norm_num)
  have hcall : ∀ u : Cpu, 0x8000 + 0 ≤ u.sp → ∃ t, writeByte .irqHandler u = some t ∧ Returns 0x8000 {0x1000} u t := by
    intro u _
    refine ⟨_, rfl, drop_esp u 4, rfl, fun x hx _ => Function.update_of_ne hx _ _⟩
  have hprog : ∀ s t, Agree 0x8000 {0x1000} s t → Agree 0x8000 {0x1000} (countUp s) (countUp t) := by
    intro s t h
    have hsp : (countUp t).sp = t.sp := congrArg UInt32.toNat (setReg_esp t _ (by decide))
    refine ⟨?_, h.seg, h.eip, h.eflags, fun x hx hout => h.mem x hx (by rwa [hsp] at hout)⟩
    show Function.update s.reg .eax (s.reg .eax + 1) = Function.update t.reg .eax (t.reg .eax + 1)
    rw [h.reg]
  have hl : 0x8000 + 64 + 0 ≤ (countUp interruptedCpu).sp ∧ (countUp interruptedCpu).sp ≤ 0xC000 ∧
      FlatData (countUp interruptedCpu) := by
    refine ⟨by decide +kernel, by decide +kernel, rfl, rfl, rfl⟩
  obtain ⟨t, ht, -⟩ := irq_step countUp 0 (fun _ => 0) (fun _ => (0x08, 0xC0100200)) hD hcall 0 hl
  have r1 : (interruptedMachine countUp (isrCode writeByte 0 fun _ => 0) (fun _ => (0x08, 0xC0100200))
      0x8000 0xC000 0).Run interruptedCpu [.prog] (countUp interruptedCpu) :=
    .snoc (.nil (M := interruptedMachine _ _ _ _ _ _)) trivial rfl
  have r := Machine.Run.snoc (i := Beat.irq 0) r1 hl ht
  exact ⟨t, r, irq_transparent hD hcall hprog r⟩

end Raptor
