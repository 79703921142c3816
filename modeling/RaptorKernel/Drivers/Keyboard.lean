import RaptorKernel.Base
import RaptorKernel.Theory.RingBuf
import RaptorKernel.Theory.Run

/-!
# drivers/keyboard.c

The interrupt handler pushes bytes into a ring of `BUF_SIZE` cells that `keyboard_read` drains; the
handler can run between any two statements of `keyboard_read`.

* `push`, `keyboardIrq`, `keyboardRead`   the driver;
* `kbdMachine`      an interrupt, or the next statement of `keyboard_read`, per step;
* `KbdInv`          the ring holds what was accepted and not yet consumed;
* `keyboard_fifo`   what that says about every interleaving.
-/

namespace Raptor

def bufSize : Nat := 256

/-- the codes of console.h above the ASCII range -/
def keyUp : Nat := 0x80
def keyDown : Nat := 0x81

/-- the static variables -/
structure Keyboard where
  buf : Nat → UInt8
  head : Nat
  tail : Nat
  shift : Bool
  caps : Bool
  sawE0 : Bool

def Keyboard.init : Keyboard := ⟨fun _ => 0, 0, 0, false, false, false⟩

def mapLower : List UInt8 :=
  [0, 27] ++ lit "1234567890-=" ++ [8, 9] ++ lit "qwertyuiop[]\n" ++ [0] ++ lit "asdfghjkl;'`" ++
    [0] ++ lit "\\zxcvbnm,./" ++ [0] ++ lit "*" ++ [0] ++ lit " "

def mapUpper : List UInt8 :=
  [0, 27] ++ lit "!@#$%^&*()_+" ++ [8, 9] ++ lit "QWERTYUIOP\x7b\x7d\n" ++ [0] ++
    lit "ASDFGHJKL:\"~" ++ [0] ++ lit "|ZXCVBNM<>?" ++ [0] ++ lit "*" ++ [0] ++ lit " "

def push (k : Keyboard) (c : UInt8) : Keyboard :=
  let next := add32 k.head 1 &&& (bufSize - 1)
  if next ≠ k.tail then { k with buf := Function.update k.buf k.head c, head := next } else k

/-- the character of a key: the table, and Caps Lock for letters -/
def keyChar (shift caps : Bool) (sc : UInt8) : UInt8 :=
  let c := (if shift then mapUpper else mapLower).getD sc.toNat 0
  if caps && !shift && 'a'.toUInt8 ≤ c && c ≤ 'z'.toUInt8 then c - 'a'.toUInt8 + 'A'.toUInt8
  else if caps && shift && 'A'.toUInt8 ≤ c && c ≤ 'Z'.toUInt8 then c - 'A'.toUInt8 + 'a'.toUInt8
  else c

/-- `keyboard_irq`, with the scancode that `inb` returned -/
def keyboardIrq (k : Keyboard) (sc : UInt8) : Keyboard :=
  if sc = 0xE0 then { k with sawE0 := true }
  else if k.sawE0 then
    let k := { k with sawE0 := false }
    if sc = 0x48 then push k (.ofNat keyUp)
    else if sc = 0x50 then push k (.ofNat keyDown)
    else k
  else if sc &&& 0x80 ≠ 0 then
    let sc := sc &&& 0x7f
    if sc = 0x2A ∨ sc = 0x36 then { k with shift := false } else k
  else if sc = 0x2A ∨ sc = 0x36 then { k with shift := true }
  else if sc = 0x3A then { k with caps := !k.caps }
  else if 128 ≤ sc then k
  else
    let c := keyChar k.shift k.caps sc
    if c ≠ 0 then push k c else k

def keyboardRead (k : Keyboard) : Int × Keyboard :=
  if k.head = k.tail then (-1, k)
  else ((k.buf k.tail).toNat, { k with tail := add32 k.tail 1 &&& (bufSize - 1) })

/-! ## interleavings -/

/-- the statement of `keyboard_read` that runs next -/
inductive ReadPc where
  /-- `if (head == tail) return -1;` -/
  | test
  /-- `char c = buf[tail];` -/
  | load
  /-- `tail = (tail + 1) & (BUF_SIZE - 1);` -/
  | advance (c : UInt8)
  /-- `return (unsigned char)c;` -/
  | ret (c : UInt8)

/-- The driver and its caller: what the calls returned, what was stored into the ring, and how many
times `tail` moved on. -/
structure KbdSystem where
  kbd : Keyboard
  pc : ReadPc
  results : List Int
  accepted : List UInt8
  consumed : Nat

inductive KbdEvent where
  | push (c : UInt8)
  | irq (sc : UInt8)
  | stmt

def readStmt (s : KbdSystem) : KbdSystem :=
  match s.pc with
  | .test =>
    if s.kbd.head = s.kbd.tail then { s with results := s.results ++ [-1] } else { s with pc := .load }
  | .load => { s with pc := .advance (s.kbd.buf s.kbd.tail) }
  | .advance c =>
    { s with
      kbd := { s.kbd with tail := add32 s.kbd.tail 1 &&& (bufSize - 1) }
      pc := .ret c
      consumed := s.consumed + 1 }
  | .ret c => { s with pc := .test, results := s.results ++ [(c.toNat : Int)] }

/-- an interrupt left the driver in state `k`; a byte was stored if `head` moved -/
def KbdSystem.interrupted (s : KbdSystem) (k : Keyboard) : KbdSystem :=
  { s with
    kbd := k
    accepted := if k.head ≠ s.kbd.head then s.accepted ++ [k.buf s.kbd.head] else s.accepted }

def kbdStep (s : KbdSystem) : KbdEvent → KbdSystem
  | .push c => s.interrupted (push s.kbd c)
  | .irq sc => s.interrupted (keyboardIrq s.kbd sc)
  | .stmt => readStmt s

def kbdMachine : Machine KbdSystem KbdEvent Fault where
  step s e := .ok (kbdStep s e)
  legal _ _ := True

def kbdBoot : KbdSystem := ⟨.init, .test, [], [], 0⟩

/-- without interrupts the statements are `keyboard_read` -/
theorem readStmt_keyboardRead (s : KbdSystem) (hpc : s.pc = .test) :
    ∃ n, (readStmt^[n] s).kbd = (keyboardRead s.kbd).2 ∧ (readStmt^[n] s).pc = .test ∧
      (readStmt^[n] s).results = s.results ++ [(keyboardRead s.kbd).1] := by
  obtain ⟨k, pc, results, accepted, consumed⟩ := s
  cases hpc
  by_cases he : k.head = k.tail
  · refine ⟨1, ?_⟩
    simp [readStmt, keyboardRead, he]
  · refine ⟨4, ?_⟩
    simp [readStmt, keyboardRead, he]

/-! ## one step -/

/-- the byte that was taken out of the ring and not returned yet -/
def ReadPc.inFlight : ReadPc → List Int
  | .ret c => [(c.toNat : Int)]
  | _ => []

/-- the bytes accepted and not consumed -/
def KbdSystem.queue (s : KbdSystem) : List UInt8 := s.accepted.drop s.consumed

/-- what `keyboard_read` knows of the queue -/
def ReadPc.Knows (q : List UInt8) : ReadPc → Prop
  | .load => q ≠ []
  | .advance c => ∃ q', q = c :: q'
  | _ => True

structure KbdInv (s : KbdSystem) : Prop where
  ring : RingBuf bufSize s.kbd.buf s.kbd.head s.kbd.tail s.queue
  consumed_le : s.consumed ≤ s.accepted.length
  knows : s.pc.Knows s.queue
  returned : s.results.filter (· ≠ -1) ++ s.pc.inFlight =
    (s.accepted.take s.consumed).map fun c => (c.toNat : Int)

/-- `(i + 1) & (BUF_SIZE - 1)` -/
theorem next_index {i : Nat} (h : i < bufSize) : add32 i 1 &&& (bufSize - 1) = (i + 1) % bufSize := by
  have hb : bufSize = 2^8 := rfl
  rw [add32_eq (by omega), hb]
  exact Nat.and_two_pow_sub_one_eq_mod _ 8

/-- the queue of a system whose interrupt stored `c` -/
theorem KbdInv.queue_append {s : KbdSystem} (h : KbdInv s) (c : UInt8) :
    (s.accepted ++ [c]).drop s.consumed = s.queue ++ [c] :=
  List.drop_append_of_le_length h.consumed_le

theorem ReadPc.Knows.append {q : List UInt8} {pc : ReadPc} (h : pc.Knows q) (c : UInt8) :
    pc.Knows (q ++ [c]) := by
  cases pc with
  | load => simp [ReadPc.Knows]
  | advance d =>
    obtain ⟨q', rfl⟩ := h
    exact ⟨q' ++ [c], rfl⟩
  | _ => exact trivial

/-- the ring is as it was -/
def SameRing (k k' : Keyboard) : Prop := k'.buf = k.buf ∧ k'.head = k.head ∧ k'.tail = k.tail

/-- an interrupt that left the ring alone -/
theorem KbdInv.keep {s : KbdSystem} (h : KbdInv s) {k : Keyboard} (hk : SameRing s.kbd k) :
    KbdInv (s.interrupted k) ∧ (s.interrupted k).accepted = s.accepted := by
  obtain ⟨hbuf, hhead, htail⟩ := hk
  have e : (s.interrupted k).accepted = s.accepted := if_neg (not_not.mpr hhead)
  have hq : (s.interrupted k).queue = s.queue := congrArg (List.drop s.consumed) e
  refine ⟨⟨?_, ?_, ?_, ?_⟩, e⟩
  · rw [hq]
    show RingBuf bufSize k.buf k.head k.tail s.queue
    rw [hbuf, hhead, htail]
    exact h.ring
  · rw [e]
    exact h.consumed_le
  · rw [hq]
    exact h.knows
  · rw [e]
    exact h.returned

/-- an interrupt that stored `c` behind the queue -/
theorem KbdInv.store {s : KbdSystem} (h : KbdInv s) {k : Keyboard} {c : UInt8}
    (hring : RingBuf bufSize k.buf k.head k.tail (s.queue ++ [c])) (hhead : k.head ≠ s.kbd.head)
    (hcell : k.buf s.kbd.head = c) :
    KbdInv (s.interrupted k) ∧ (s.interrupted k).accepted = s.accepted ++ [c] := by
  have e : (s.interrupted k).accepted = s.accepted ++ [c] := by
    rw [← hcell]
    exact if_pos hhead
  have hq : (s.interrupted k).queue = s.queue ++ [c] := by
    rw [← h.queue_append, ← e]
    rfl
  refine ⟨⟨?_, ?_, ?_, ?_⟩, e⟩
  · rw [hq]
    exact hring
  · rw [e, List.length_append]
    exact le_trans h.consumed_le (Nat.le_add_right _ _)
  · rw [hq]
    exact h.knows.append c
  · show _ = ((s.interrupted k).accepted.take s.consumed).map _
    rw [e, List.take_append_of_le_length h.consumed_le]
    exact h.returned

/-- A push drops its byte exactly if 255 bytes are waiting. -/
theorem KbdInv.push {s : KbdSystem} (h : KbdInv s) {k : Keyboard} (hk : SameRing s.kbd k) (c : UInt8) :
    KbdInv (s.interrupted (push k c)) ∧ (s.interrupted (Raptor.push k c)).accepted =
      if s.accepted.length = s.consumed + 255 then s.accepted else s.accepted ++ [c] := by
  have hb : bufSize = 256 := rfl
  have hlt := h.ring.head_lt
  have hle := h.consumed_le
  have hlen : s.queue.length = s.accepted.length - s.consumed := List.length_drop
  have hfull : (s.kbd.head + 1) % bufSize = s.kbd.tail ↔ s.accepted.length = s.consumed + 255 := by
    rw [h.ring.full_iff]
    omega
  have hnext : add32 k.head 1 &&& (bufSize - 1) = (s.kbd.head + 1) % bufSize := by
    rw [hk.2.1, next_index hlt]
  unfold Raptor.push
  rw [hnext]
  by_cases hf : (s.kbd.head + 1) % bufSize = s.kbd.tail
  · rw [if_pos (hfull.mp hf), hk.2.2, if_neg (not_not.mpr hf)]
    exact h.keep hk
  · rw [if_neg fun e => hf (hfull.mpr e), hk.2.2, if_pos hf]
    apply h.store
    · show RingBuf bufSize (Function.update k.buf k.head c) _ s.kbd.tail _
      rw [hk.1, hk.2.1]
      exact h.ring.push hf c
    · show (s.kbd.head + 1) % bufSize ≠ s.kbd.head
      rw [RingBuf.wrap (by omega)]
      split <;> omega
    · show Function.update k.buf k.head c s.kbd.head = c
      rw [hk.2.1, Function.update_self]

/-- `keyboard_irq` pushes one byte or none -/
theorem keyboardIrq_push (k : Keyboard) (sc : UInt8) :
    ∃ k', SameRing k k' ∧ (keyboardIrq k sc = k' ∨ ∃ c, keyboardIrq k sc = push k' c) := by
  have hsame : ∀ shift caps sawE0, SameRing k { k with shift, caps, sawE0 } :=
    fun _ _ _ => ⟨rfl, rfl, rfl⟩
  unfold keyboardIrq
  split
  · exact ⟨_, hsame _ _ _, .inl rfl⟩
  split
  · refine ⟨{ k with sawE0 := false }, hsame _ _ _, ?_⟩
    split
    · exact .inr ⟨_, rfl⟩
    split
    · exact .inr ⟨_, rfl⟩
    · exact .inl rfl
  split
  · dsimp only
    split
    · exact ⟨_, hsame _ _ _, .inl rfl⟩
    · exact ⟨k, hsame _ _ _, .inl rfl⟩
  split
  · exact ⟨_, hsame _ _ _, .inl rfl⟩
  split
  · exact ⟨_, hsame _ _ _, .inl rfl⟩
  refine ⟨k, hsame _ _ _, ?_⟩
  split
  · exact .inl rfl
  dsimp only
  split
  · exact .inr ⟨_, rfl⟩
  · exact .inl rfl

/-- the next statement of `keyboard_read` -/
theorem KbdInv.stmt {s : KbdSystem} (h : KbdInv s) : KbdInv (readStmt s) := by
  obtain ⟨hring, hle, hknows, hret⟩ := h
  unfold readStmt
  cases hpc : s.pc with
  | test =>
    rw [hpc] at hret
    by_cases he : s.kbd.head = s.kbd.tail
    · simp only [he, if_true]
      refine ⟨?_, hle, trivial, ?_⟩
      · show RingBuf bufSize s.kbd.buf s.kbd.head s.kbd.tail s.queue
        exact hring
      · simpa [ReadPc.inFlight] using hret
    · simp only [he, if_false]
      exact ⟨hring, hle, fun e => he (hring.empty_iff.mpr e), hret⟩
  | load =>
    rw [hpc] at hknows hret
    obtain ⟨c, q, hq⟩ := List.exists_cons_of_ne_nil hknows
    have hfront : s.kbd.buf s.kbd.tail = c := (hq ▸ hring).front
    refine ⟨hring, hle, ⟨q, ?_⟩, hret⟩
    rw [hfront]
    exact hq
  | advance c =>
    rw [hpc] at hknows hret
    obtain ⟨q, hq⟩ := hknows
    have hlt : s.consumed < s.accepted.length := by
      have := congrArg List.length hq
      unfold KbdSystem.queue at this
      rw [List.length_drop, List.length_cons] at this
      omega
    have hcons : s.accepted.drop s.consumed =
        s.accepted[s.consumed] :: s.accepted.drop (s.consumed + 1) := List.drop_eq_getElem_cons hlt
    have hq' : s.accepted[s.consumed] = c ∧ s.accepted.drop (s.consumed + 1) = q := by
      rw [KbdSystem.queue, hcons] at hq
      exact List.cons.inj hq
    refine ⟨?_, hlt, trivial, ?_⟩
    · show RingBuf bufSize s.kbd.buf s.kbd.head (add32 s.kbd.tail 1 &&& (bufSize - 1))
        (s.accepted.drop (s.consumed + 1))
      rw [next_index hring.tail_lt, hq'.2]
      exact (hq ▸ hring).pop
    · show s.results.filter (· ≠ -1) ++ [(c.toNat : Int)] =
        (s.accepted.take (s.consumed + 1)).map fun c => (c.toNat : Int)
      have hret' : s.results.filter (· ≠ -1) = (s.accepted.take s.consumed).map fun c => (c.toNat : Int) := by
        simpa [ReadPc.inFlight] using hret
      rw [List.take_succ_eq_append_getElem hlt, List.map_append, hret', hq'.1]
      rfl
  | ret c =>
    rw [hpc] at hret
    refine ⟨hring, hle, trivial, ?_⟩
    show (s.results ++ [(c.toNat : Int)]).filter (· ≠ -1) ++ [] = _
    have hc : (c.toNat : Int) ≠ -1 := by omega
    rw [List.append_nil, List.filter_append, ← hret]
    simp [ReadPc.inFlight, hc]

theorem kbdInv_step {s : KbdSystem} (h : KbdInv s) (e : KbdEvent) : KbdInv (kbdStep s e) := by
  cases e with
  | push c => exact (h.push ⟨rfl, rfl, rfl⟩ c).1
  | irq sc =>
    obtain ⟨k, hk, e | ⟨c, e⟩⟩ := keyboardIrq_push s.kbd sc
    · show KbdInv (s.interrupted (keyboardIrq s.kbd sc))
      rw [e]
      exact (h.keep hk).1
    · show KbdInv (s.interrupted (keyboardIrq s.kbd sc))
      rw [e]
      exact (h.push hk c).1
  | stmt => exact h.stmt

/-! ## every interleaving -/

theorem kbdInv_boot : KbdInv kbdBoot where
  ring := RingBuf.nil (by decide)
  consumed_le := le_refl _
  knows := trivial
  returned := rfl

theorem kbdInv_of_run {es : List KbdEvent} {s : KbdSystem} (r : kbdMachine.Run kbdBoot es s) :
    KbdInv s := by
  refine r.inv kbdInv_boot ?_
  intro s e t h _ hs
  cases hs
  exact kbdInv_step h e

/-- In every interleaving: the indices stay below `BUF_SIZE`; the bytes returned, with the one under
way, are the first bytes accepted, in order; a push drops its byte exactly if 255 accepted bytes are
not consumed; and -1 is returned exactly if the ring is empty when it is tested. -/
theorem keyboard_fifo {es : List KbdEvent} {s : KbdSystem} (r : kbdMachine.Run kbdBoot es s) :
    s.kbd.head < bufSize ∧ s.kbd.tail < bufSize ∧ s.consumed ≤ s.accepted.length ∧
      s.results.filter (· ≠ -1) ++ s.pc.inFlight =
        ((s.accepted.take s.consumed).map fun c => (c.toNat : Int)) ∧
      (∀ c, (kbdStep s (.push c)).accepted =
        if s.accepted.length = s.consumed + 255 then s.accepted else s.accepted ++ [c]) ∧
      ((kbdStep s .stmt).results = s.results ++ [-1] ↔
        s.pc = .test ∧ s.consumed = s.accepted.length) := by
  have h := kbdInv_of_run r
  refine ⟨h.ring.head_lt, h.ring.tail_lt, h.consumed_le, h.returned,
    fun c => (h.push ⟨rfl, rfl, rfl⟩ c).2, ?_⟩
  have hempty : s.kbd.head = s.kbd.tail ↔ s.consumed = s.accepted.length := by
    rw [h.ring.empty_iff, KbdSystem.queue, List.drop_eq_nil_iff]
    have := h.consumed_le
    omega
  show (readStmt s).results = _ ↔ _
  unfold readStmt
  cases s.pc with
  | test =>
    by_cases he : s.kbd.head = s.kbd.tail
    · simp [he, hempty.mp he]
    · have hne : s.consumed ≠ s.accepted.length := fun e => he (hempty.mpr e)
      simp [he, hne]
  | load => simp
  | advance c => simp
  | ret c =>
    have hc : (c.toNat : Int) ≠ -1 := by omega
    simp [hc]

/-- `a` is pushed, `keyboard_read` tests and loads, `b` is pushed, `keyboard_read` returns `a` -/
theorem keyboard_fifo_interrupted :
    ∃ s, kbdMachine.Run kbdBoot [.push 97, .stmt, .stmt, .push 98, .stmt, .stmt] s ∧
      s.results = [97] ∧ s.kbd.head < bufSize ∧ s.kbd.tail < bufSize := by
  obtain ⟨s, hs⟩ : ∃ s, kbdMachine.exec kbdBoot [.push 97, .stmt, .stmt, .push 98, .stmt, .stmt] =
    .ok s := ⟨_, rfl⟩
  have r := Machine.Run.of_exec (fun _ _ _ => trivial) hs
  obtain ⟨h1, h2, _⟩ := keyboard_fifo r
  cases hs
  exact ⟨_, r, rfl, h1, h2⟩

end Raptor
