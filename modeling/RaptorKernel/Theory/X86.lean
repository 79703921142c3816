import RaptorKernel.Theory.Mem

/-!
# A 32-bit x86, as interrupt entry code sees it

Registers, the stack and the few instructions that such code is made of.  A C function that is
called is a partial function on states: from its first instruction to the one after its `ret`.

* `Cpu.push`, `Cpu.pop`, `Cpu.interrupt`, `Cpu.iret`    the stack, and entry and exit;
* `Op`, `Insn`, `Code.run`    instructions, and the code from a label up to `iret`;
* `Pushed s t ws`     `t` is reached from `s` by pushing, the words on top are `ws`;
* `popAll_eq`         what a row of pops puts into the registers.

The instruction pointer is followed where it is saved and restored; the flags an arithmetic
instruction leaves are a parameter.
-/

namespace X86
open Mem

inductive Reg where
  | eax | ecx | edx | ebx | esp | ebp | esi | edi
deriving DecidableEq, Repr

inductive Seg where
  | es | cs | ss | ds | fs | gs
deriving DecidableEq, Repr

structure Cpu where
  reg : Reg → UInt32
  seg : Seg → UInt16
  eip : UInt32
  eflags : UInt32
  mem : Mem

namespace Cpu

def sp (s : Cpu) : Nat := (s.reg .esp).toNat

def setReg (s : Cpu) (r : Reg) (w : UInt32) : Cpu := { s with reg := Function.update s.reg r w }
def setSeg (s : Cpu) (g : Seg) (w : UInt16) : Cpu := { s with seg := Function.update s.seg g w }

/-! ## the stack -/

def push (s : Cpu) (w : UInt32) : Cpu :=
  { s.setReg .esp (s.reg .esp - 4) with mem := store32 s.mem (s.reg .esp - 4).toNat w.toNat }

/-- the `k`-th word of the stack -/
def word (s : Cpu) (k : Nat) : UInt32 := .ofNat (load32 s.mem (s.sp + 4 * k))

def drop (s : Cpu) (n : UInt32) : Cpu := s.setReg .esp (s.reg .esp + n)

def pop (s : Cpu) (r : Reg) : Cpu := (s.drop 4).setReg r (s.word 0)

def pushAll (s : Cpu) (ws : List UInt32) : Cpu := ws.foldl push s

/-- pops in turn; `none` drops a word -/
def popAll (s : Cpu) (rs : List (Option Reg)) : Cpu :=
  rs.foldl (fun t r => match r with
    | none => t.drop 4
    | some r => t.pop r) s

/-- the stack pointer goes in as it was before the instruction -/
def pusha (s : Cpu) : Cpu :=
  s.pushAll ([.eax, .ecx, .edx, .ebx, .esp, .ebp, .esi, .edi].map s.reg)

/-- and is not taken back -/
def popa (s : Cpu) : Cpu :=
  s.popAll [some .edi, some .esi, some .ebp, none, some .ebx, some .edx, some .ecx, some .eax]

/-- Entry through an interrupt gate without a change of privilege.  `err` is the error code, if the
vector has one; TF, IF, NT, RF and VM are cleared. -/
def interrupt (s : Cpu) (err : Option UInt32) (selector : UInt16) (offset : UInt32) : Cpu :=
  { (s.pushAll ([s.eflags, (s.seg .cs).toUInt32, s.eip] ++ err.toList)).setSeg .cs selector with
    eip := offset
    eflags := s.eflags &&& ~~~0x00034300 }

/-- return to the same privilege -/
def iret (s : Cpu) : Cpu :=
  { (s.drop 12).setSeg .cs (s.word 1).toUInt16 with eip := s.word 0, eflags := s.word 2 }

end Cpu

/-! ## instructions -/

/-- one after the other -/
inductive Op where
  | pushImm (n : UInt32)
  | push (r : Reg)
  | pop (r : Reg)
  | pusha
  | popa
  /-- `xorl r, r'` -/
  | xor (r r' : Reg)
  /-- `addl $n, r` -/
  | addImm (n : UInt32) (r : Reg)
  /-- `movw $n, r` -/
  | movImm (n : UInt16) (r : Reg)
  /-- `movw g, r` -/
  | movFromSeg (g : Seg) (r : Reg)
  /-- `movw r, g` -/
  | movToSeg (r : Reg) (g : Seg)

/-- the low half of `w` is replaced -/
def setLow (w : UInt32) (n : UInt16) : UInt32 := (w &&& 0xffff0000) ||| n.toUInt32

def Op.step (flags : Cpu → UInt32) (s : Cpu) : Op → Cpu
  | .pushImm n => s.push n
  | .push r => s.push (s.reg r)
  | .pop r => s.pop r
  | .pusha => s.pusha
  | .popa => s.popa
  | .xor r r' => { s.setReg r' (s.reg r' ^^^ s.reg r) with eflags := flags s }
  | .addImm n r => { s.setReg r (s.reg r + n) with eflags := flags s }
  | .movImm n r => s.setReg r (setLow (s.reg r) n)
  | .movFromSeg g r => s.setReg r (setLow (s.reg r) (s.seg g))
  | .movToSeg r g => s.setSeg g (s.reg r).toUInt16

/-- `L` are the labels of the code, `F` the functions it calls -/
inductive Insn (L F : Type) where
  | op (o : Op)
  | call (f : F)
  | jmp (l : L)
  | iret

structure Code (L F : Type) where
  text : L → List (Insn L F)
  call : F → Cpu → Option Cpu
  /-- the return address a call pushes -/
  ret : UInt32
  flags : Cpu → UInt32

namespace Code
variable {L F : Type} (C : Code L F)

/-- up to the `iret`, or to a jump and its label -/
def block : List (Insn L F) → Cpu → Option (Cpu × Option L)
  | [], _ => none
  | .op o :: is, s => block is (o.step C.flags s)
  | .call f :: is, s => (C.call f (s.push C.ret)).bind (block is)
  | .jmp l :: _, s => some (s, some l)
  | .iret :: _, s => some (s.iret, none)

/-- the code from a label on -/
def run : Nat → L → Cpu → Option Cpu
  | 0, _, _ => none
  | fuel+1, l, s => (C.block (C.text l) s).bind fun
    | (t, none) => some t
    | (t, some l') => run fuel l' t

end Code

/-! ## words in memory -/

/-- the words `ws` lie at `a`, upwards -/
def WordsAt (m : Mem) : Nat → List UInt32 → Prop
  | _, [] => True
  | a, w :: ws => load32 m a = w.toNat ∧ WordsAt m (a + 4) ws

section
variable {m m' : Mem} {a : Nat} {ws ws' : List UInt32} {w : UInt32}

theorem WordsAt.congr (h : WordsAt m a ws) (hm : ∀ x, a ≤ x → x < a + 4 * ws.length → m' x = m x) :
    WordsAt m' a ws := by
  induction ws generalizing a with
  | nil => exact trivial
  | cons w ws ih =>
    rw [List.length_cons] at hm
    refine ⟨?_, ih h.2 fun x h1 h2 => hm x (by omega) (by omega)⟩
    rw [← h.1]
    exact load32_congr fun x h1 h2 => hm x h1 (by omega)

theorem WordsAt.right (ws : List UInt32) {m : Mem} {a : Nat} {ws' : List UInt32} (h : WordsAt m a (ws ++ ws')) : WordsAt m (a + 4 * ws.length) ws' := by
  induction ws generalizing a with
  | nil => exact h
  | cons w ws ih =>
    have e : a + 4 * (w :: ws).length = a + 4 + 4 * ws.length := by
      rw [List.length_cons]
      omega
    rw [e]
    exact ih h.2

theorem WordsAt.get (h : WordsAt m a ws) {k : Nat} (hk : ws[k]? = some w) : load32 m (a + 4 * k) = w.toNat := by
  induction ws generalizing a k with
  | nil => simp at hk
  | cons v ws ih =>
    cases k with
    | zero =>
      cases hk
      exact h.1
    | succ k =>
      have e : a + 4 * (k + 1) = a + 4 + 4 * k := by omega
      rw [e]
      exact ih h.2 hk

end

namespace Cpu

theorem ofNat_toNat (w : UInt32) : UInt32.ofNat w.toNat = w := UInt32.ofNat_toNat

/-! ## registers -/

section
variable (s : Cpu) (r : Reg) (w : UInt32) (g : Seg) (v : UInt16)

@[simp] theorem setReg_mem : (s.setReg r w).mem = s.mem := rfl
@[simp] theorem setReg_seg : (s.setReg r w).seg = s.seg := rfl
@[simp] theorem setReg_eip : (s.setReg r w).eip = s.eip := rfl
@[simp] theorem setReg_eflags : (s.setReg r w).eflags = s.eflags := rfl
@[simp] theorem setSeg_mem : (s.setSeg g v).mem = s.mem := rfl
@[simp] theorem setSeg_reg : (s.setSeg g v).reg = s.reg := rfl
@[simp] theorem setSeg_eip : (s.setSeg g v).eip = s.eip := rfl
@[simp] theorem setSeg_eflags : (s.setSeg g v).eflags = s.eflags := rfl
@[simp] theorem push_seg : (s.push w).seg = s.seg := rfl
@[simp] theorem push_eip : (s.push w).eip = s.eip := rfl
@[simp] theorem push_eflags : (s.push w).eflags = s.eflags := rfl

theorem setReg_esp {r : Reg} (h : r ≠ .esp) : (s.setReg r w).reg .esp = s.reg .esp :=
  Function.update_of_ne h.symm _ _

theorem drop_esp (n : UInt32) : (s.drop n).reg .esp = s.reg .esp + n := by
  simp [drop, setReg]

theorem pop_self (r : Reg) : (s.pop r).reg r = s.word 0 := by
  simp [pop, setReg]

theorem pop_esp {r : Reg} (h : r ≠ .esp) : (s.pop r).reg .esp = s.reg .esp + 4 :=
  (setReg_esp (s.drop 4) (s.word 0) h).trans (drop_esp s 4)

theorem push_reg {r : Reg} (h : r ≠ .esp) : (s.push w).reg r = s.reg r := Function.update_of_ne h _ _

theorem push_sp (h : 4 ≤ s.sp) : (s.push w).sp = s.sp - 4 := by
  have hle : (4 : UInt32) ≤ s.reg .esp := UInt32.le_iff_toNat_le.mpr h
  show (Function.update s.reg .esp (s.reg .esp - 4) .esp).toNat = _
  rw [Function.update_self, UInt32.toNat_sub_of_le _ _ hle]
  rfl

theorem drop_sp {n : UInt32} (h : s.sp + n.toNat < 2^32) : (s.drop n).sp = s.sp + n.toNat := by
  unfold sp
  rw [drop_esp, UInt32.toNat_add]
  exact Nat.mod_eq_of_lt h

end

/-! ## pushing -/

section
variable {s t : Cpu} {ws : List UInt32} {w : UInt32}

/-- `t` is reached from `s` by pushing, the last word pushed at the head of `ws` -/
structure Pushed (s t : Cpu) (ws : List UInt32) : Prop where
  sp : t.sp + 4 * ws.length = s.sp
  holds : WordsAt t.mem t.sp ws
  frame : ∀ x, x < t.sp ∨ s.sp ≤ x → t.mem x = s.mem x

theorem Pushed.refl (s : Cpu) : Pushed s s [] := ⟨rfl, trivial, fun _ _ => rfl⟩

/-- registers other than the stack pointer do not matter -/
theorem Pushed.keep (h : Pushed s t ws) (t' : Cpu) (hm : t'.mem = t.mem) (hsp : t'.reg .esp = t.reg .esp) :
    Pushed s t' ws := by
  have e : t'.sp = t.sp := congrArg UInt32.toNat hsp
  refine ⟨?_, ?_, ?_⟩
  · rw [e]
    exact h.sp
  · rw [e, hm]
    exact h.holds
  · rw [e, hm]
    exact h.frame

theorem Pushed.push (h : Pushed s t ws) (hroom : 4 * (ws.length + 1) ≤ s.sp) (w : UInt32) :
    Pushed s (t.push w) (w :: ws) := by
  have hsp := h.sp
  have h4 : 4 ≤ t.sp := by omega
  have e := push_sp t w h4
  have emem : (t.push w).mem = store32 t.mem (t.sp - 4) w.toNat := by
    have : (t.reg .esp - 4).toNat = t.sp - 4 := by
      rw [← e]
      show _ = (Function.update t.reg .esp (t.reg .esp - 4) .esp).toNat
      rw [Function.update_self]
    rw [← this]
    rfl
  refine ⟨?_, ?_, ?_⟩
  · rw [e, List.length_cons]
    omega
  · rw [e, emem]
    refine ⟨load32_store32_of_lt w.toNat_lt, ?_⟩
    have e4 : t.sp - 4 + 4 = t.sp := by omega
    rw [e4]
    exact h.holds.congr fun x h1 _ => store32_apply_ne (by omega)
  · intro x hx
    rw [emem, store32_apply_ne (by omega)]
    exact h.frame x (by omega)

theorem Pushed.pushAll (h : Pushed s t ws) (vs : List UInt32)
    (hroom : 4 * (ws.length + vs.length) ≤ s.sp) : Pushed s (t.pushAll vs) (vs.reverse ++ ws) := by
  induction vs generalizing t ws with
  | nil => exact h
  | cons v vs ih =>
    rw [List.length_cons] at hroom
    have h1 := h.push (by omega) v
    have h2 := ih h1 (by rw [List.length_cons]; omega)
    rw [List.reverse_cons, List.append_assoc]
    exact h2

theorem pushAll_reg {r : Reg} (hr : r ≠ .esp) (s : Cpu) (ws : List UInt32) :
    (s.pushAll ws).reg r = s.reg r := by
  induction ws generalizing s with
  | nil => rfl
  | cons w ws ih => exact (ih (s.push w)).trans (push_reg s w hr)

theorem pushAll_seg (s : Cpu) (ws : List UInt32) : (s.pushAll ws).seg = s.seg := by
  induction ws generalizing s with
  | nil => rfl
  | cons w ws ih => exact ih (s.push w)

end

/-! ## popping -/

section
variable {s : Cpu} {ws rest : List UInt32} {w : UInt32}

theorem word_eq (h : WordsAt s.mem s.sp ws) {k : Nat} (hk : ws[k]? = some w) : s.word k = w := by
  unfold word
  rw [h.get hk, ofNat_toNat]

/-- what the registers hold after the pops -/
def assign (f : Reg → UInt32) : List (Option Reg) → List UInt32 → Reg → UInt32
  | some r :: rs, w :: ws => assign (Function.update f r w) rs ws
  | none :: rs, _ :: ws => assign f rs ws
  | _, _ => f

theorem assign_update (rs : List (Option Reg)) (hrs : some .esp ∉ rs) (ws : List UInt32) (f : Reg → UInt32)
    (v : UInt32) : assign (Function.update f .esp v) rs ws = Function.update (assign f rs ws) .esp v := by
  induction rs generalizing ws f with
  | nil => rfl
  | cons r rs ih =>
    obtain ⟨h1, h2⟩ := not_or.mp (List.mem_cons.not.mp hrs)
    cases ws with
    | nil => cases r <;> rfl
    | cons w ws =>
      cases r with
      | none => exact ih h2 ws f
      | some r =>
        have hr : Reg.esp ≠ r := fun e => h1 (by rw [e])
        show assign (Function.update (Function.update f .esp v) r w) rs ws = _
        rw [Function.update_comm hr]
        exact ih h2 ws _

theorem popAll_eq {rs : List (Option Reg)} (hrs : some .esp ∉ rs) (hlen : rs.length = ws.length)
    (h : WordsAt s.mem s.sp (ws ++ rest)) (hroom : s.sp + 4 * ws.length < 2^32) :
    s.popAll rs = { s with
      reg := Function.update (assign s.reg rs ws) .esp (s.reg .esp + .ofNat (4 * ws.length)) } := by
  induction rs generalizing s ws with
  | nil =>
    obtain rfl : ws = [] := List.length_eq_zero_iff.mp hlen.symm
    have e : s.reg .esp + UInt32.ofNat (4 * 0) = s.reg .esp := UInt32.add_zero _
    show s = { s with reg := Function.update s.reg .esp (s.reg .esp + UInt32.ofNat (4 * 0)) }
    rw [e, Function.update_eq_self]
  | cons r rs ih =>
    obtain ⟨h1, h2⟩ := not_or.mp (List.mem_cons.not.mp hrs)
    obtain ⟨w, ws, rfl⟩ : ∃ w ws', ws = w :: ws' := by
      cases ws with
      | nil => simp at hlen
      | cons w ws => exact ⟨w, ws, rfl⟩
    rw [List.length_cons, List.length_cons] at hlen
    rw [List.length_cons] at hroom
    have hword : s.word 0 = w := word_eq h rfl
    have hdrop : (s.drop 4).sp = s.sp + 4 := drop_sp s (by show s.sp + 4 < _; omega)
    have hesp : ∀ n : Nat, s.reg .esp + 4 + UInt32.ofNat (4 * n) = s.reg .esp + .ofNat (4 * (n + 1)) := by
      intro n
      rw [UInt32.add_assoc, Nat.mul_succ, Nat.add_comm (4 * n) 4, UInt32.ofNat_add]
      rfl
    -- the stack pointer after one pop, and the words that are left
    have hnext : ∀ t : Cpu, t.mem = s.mem → t.reg .esp = s.reg .esp + 4 →
        t.popAll rs = { t with
          reg := Function.update (assign t.reg rs ws) .esp (s.reg .esp + .ofNat (4 * (ws.length + 1))) } := by
      intro t hm hr
      have hsp : t.sp = s.sp + 4 := by
        rw [← hdrop]
        unfold sp
        rw [hr, drop_esp]
      have hrest : WordsAt t.mem t.sp (ws ++ rest) := by
        rw [hm, hsp]
        exact h.2
      have := ih h2 (by omega) hrest (by omega)
      rw [this, hr, hesp]
    cases r with
    | none =>
      refine (hnext (s.drop 4) rfl (drop_esp s 4)).trans ?_
      show ({ s with reg := Function.update (assign (Function.update s.reg .esp _) rs ws) .esp _ } : Cpu) = _
      rw [assign_update rs h2, Function.update_idem]
      rfl
    | some r =>
      have hr : r ≠ .esp := fun e => h1 (by rw [e])
      have hreg : (s.pop r).reg = Function.update (Function.update s.reg .esp (s.reg .esp + 4)) r w := by
        show Function.update (Function.update s.reg .esp (s.reg .esp + 4)) r (s.word 0) = _
        rw [hword]
      refine (hnext (s.pop r) rfl ?_).trans ?_
      · rw [hreg, Function.update_of_ne hr.symm, Function.update_self]
      · show ({ s with reg := Function.update (assign (s.pop r).reg rs ws) .esp _ } : Cpu) = _
        rw [hreg, Function.update_comm hr.symm, assign_update rs h2, Function.update_idem]
        rfl

/-- what a row of pops does, field by field -/
structure Popped (s t : Cpu) (rs : List (Option Reg)) (ws : List UInt32) : Prop where
  mem : t.mem = s.mem
  seg : t.seg = s.seg
  esp : t.reg .esp = s.reg .esp + .ofNat (4 * ws.length)
  reg : ∀ r, r ≠ .esp → t.reg r = assign s.reg rs ws r

theorem popAll_popped {rs : List (Option Reg)} (hrs : some .esp ∉ rs) (hlen : rs.length = ws.length)
    (h : WordsAt s.mem s.sp (ws ++ rest)) (hroom : s.sp + 4 * ws.length < 2^32) :
    Popped s (s.popAll rs) rs ws := by
  rw [popAll_eq hrs hlen h hroom]
  refine ⟨rfl, rfl, ?_, fun r hr => ?_⟩
  · simp
  · simp [hr]

end

end Cpu

/-! ## descriptor tables -/

/-- where an interrupt goes -/
structure Gate where
  offset : UInt32
  selector : UInt16
deriving DecidableEq

/-- two bytes of memory, the low one first -/
def half (m : Mem) (a : Nat) : Nat := (m a).toNat + 2^8 * (m (a + 1)).toNat

/-- The gate of a vector, in a table of `limit + 1` bytes: a 32-bit interrupt gate that is present, or
a fault. -/
def readGate (m : Mem) (table limit vector : Nat) : Option Gate :=
  let a := table + 8 * vector
  if limit < 8 * vector + 7 ∨ m (a + 5) &&& 0x9f ≠ 0x8e then none
  else some ⟨.ofNat (half m a + 2^16 * half m (a + 6)), .ofNat (half m (a + 2))⟩

structure Segment where
  base : Nat
  /-- the last offset -/
  limit : Nat
  access : UInt8
deriving DecidableEq

/-- the segment of a selector: a descriptor that is present, in the global table, and not the first -/
def readSegment (m : Mem) (table limit : Nat) (selector : UInt16) : Option Segment :=
  let i := selector.toNat / 8
  let a := table + 8 * i
  if selector &&& 4 ≠ 0 ∨ i = 0 ∨ limit < 8 * i + 7 ∨ m (a + 5) &&& 0x80 = 0 then none
  else
    let top := half m a + 2^16 * ((m (a + 6)).toNat % 2^4)
    some {
      base := half m (a + 2) + 2^16 * (m (a + 4)).toNat + 2^24 * (m (a + 7)).toNat
      limit := if m (a + 6) &&& 0x80 ≠ 0 then top * 2^12 + (2^12 - 1) else top
      access := m (a + 5) }

/-- the linear address of an offset, or a fault -/
def Segment.linear (s : Segment) (offset : Nat) : Option Nat :=
  if offset ≤ s.limit then some ((s.base + offset) % 2^32) else none

theorem readGate_congr {m m' : Mem} {table limit vector : Nat}
    (h : ∀ x, table + 8 * vector ≤ x → x < table + 8 * vector + 8 → m' x = m x) :
    readGate m' table limit vector = readGate m table limit vector := by
  unfold readGate half
  dsimp only
  simp only [Nat.add_assoc] at h ⊢
  rw [h _ (by omega) (by omega), h _ (by omega) (by omega), h _ (by omega) (by omega),
    h _ (by omega) (by omega), h _ (by omega) (by omega), h _ (by omega) (by omega),
    h _ (by omega) (by omega)]

theorem readSegment_congr {m m' : Mem} {table limit : Nat} {selector : UInt16}
    (h : ∀ x, table + 8 * (selector.toNat / 8) ≤ x → x < table + 8 * (selector.toNat / 8) + 8 → m' x = m x) :
    readSegment m' table limit selector = readSegment m table limit selector := by
  unfold readSegment half
  dsimp only
  simp only [Nat.add_assoc] at h ⊢
  rw [h _ (by omega) (by omega), h _ (by omega) (by omega), h _ (by omega) (by omega),
    h _ (by omega) (by omega), h _ (by omega) (by omega), h _ (by omega) (by omega),
    h _ (by omega) (by omega), h _ (by omega) (by omega)]

/-! ## calling convention -/

/-- What a C function with one argument does between its first instruction and its `ret`: it takes the
return address off the stack, loads no segment register, and writes to its argument, the stack below
it down to `low`, and the bytes of `D`. -/
structure Returns (low : Nat) (D : Set Nat) (s t : Cpu) : Prop where
  esp : t.reg .esp = s.reg .esp + 4
  seg : t.seg = s.seg
  frame : ∀ x, x ∉ D → x < low ∨ s.sp + 8 ≤ x → t.mem x = s.mem x

end X86
