import Mathlib

/-!
# The interrupt controllers of the PC

Two 8259A chips, the second behind line 2 of the first.  A chip remembers which lines ask and which
are being served; a line is passed on unless it is masked or a line of the same or a higher priority
is being served, and line 0 comes first.

* `Chip`, `Pics`            one chip, the pair and its ports;
* `Pics.acknowledge`        the CPU takes the vector of the line that comes first, from the chip that the
                            third initialisation words name;
* `Chip.eoi_serve`          an end of interrupt ends the only service there is;
* `Pics.ready_isSome`       with nothing in service, a line that asks is passed on.

Left out of the chip: rotating priorities, the specific and automatic ends of interrupts, polling.
-/

structure Chip where
  /-- the initialisation word that the data port expects; otherwise it takes the mask -/
  expects : Option Nat
  icw4 : Bool
  single : Bool
  offset : UInt8
  cascade : UInt8
  mask : UInt8
  requested : Fin 8 → Bool
  inService : Fin 8 → Bool

/-- the first line, in the order of priority -/
def firstLine (p : Fin 8 → Bool) : Option (Fin 8) := (List.finRange 8).find? p

theorem firstLine_eq_none {p : Fin 8 → Bool} : firstLine p = none ↔ ∀ i, p i = false := by
  simp [firstLine]

theorem firstLine_mem {p : Fin 8 → Bool} {i : Fin 8} (h : firstLine p = some i) : p i = true :=
  List.find?_some h

theorem firstLine_single {p : Fin 8 → Bool} {i : Fin 8} (h : ∀ j, p j = true ↔ j = i) : firstLine p = some i := by
  cases hp : firstLine p with
  | none => exact absurd ((h i).mpr rfl) (by simp [firstLine_eq_none.mp hp])
  | some j => rw [(h j).mp (firstLine_mem hp)]

namespace Chip

/-- the non-specific end of interrupt: the first line in service is done -/
def eoi (c : Chip) : Chip :=
  match firstLine c.inService with
  | none => c
  | some i => { c with inService := Function.update c.inService i false }

/-- a byte for the command port -/
def command (c : Chip) (v : UInt8) : Chip :=
  if v &&& 0x10 ≠ 0 then
    { c with
      expects := some 2
      icw4 := v &&& 0x01 ≠ 0
      single := v &&& 0x02 ≠ 0
      mask := 0
      requested := fun _ => false
      inService := fun _ => false }
  else if v &&& 0xE8 = 0x20 then c.eoi
  else c

/-- a byte for the data port -/
def data (c : Chip) (v : UInt8) : Chip :=
  let last := if c.icw4 then some 4 else none
  match c.expects with
  | some 2 => { c with offset := v &&& 0xF8, expects := if c.single then last else some 3 }
  | some 3 => { c with cascade := v, expects := last }
  | some _ => { c with expects := none }
  | none => { c with mask := v }

/-- the line that is passed on, when the lines `asks` ask -/
def ready (c : Chip) (asks : Fin 8 → Bool) : Option (Fin 8) :=
  (firstLine fun i => c.inService i || asks i && !c.mask.toNat.testBit i).filter fun i => !c.inService i

/-- line `i` is served -/
def serve (c : Chip) (i : Fin 8) : Chip :=
  { c with
    requested := Function.update c.requested i false
    inService := Function.update c.inService i true }

def request (c : Chip) (i : Fin 8) : Chip := { c with requested := Function.update c.requested i true }

/-- nothing is being served -/
def Idle (c : Chip) : Prop := ∀ i, c.inService i = false

section
variable {c : Chip} {i : Fin 8} {asks : Fin 8 → Bool}

theorem eoi_idle (h : c.Idle) : c.eoi = c := by
  unfold eoi
  rw [firstLine_eq_none.mpr h]

theorem eoi_serve (h : c.Idle) (i : Fin 8) : (c.serve i).eoi = { c with requested := Function.update c.requested i false } := by
  have hi : firstLine (Function.update c.inService i true) = some i := by
    apply firstLine_single
    intro j
    by_cases hj : j = i
    · simp [hj]
    · simp [hj, h j]
  have hback : Function.update (Function.update c.inService i true) i false = c.inService := by
    rw [Function.update_idem, ← h i, Function.update_eq_self]
  unfold eoi serve
  rw [hi]
  dsimp only
  rw [hback]

theorem ready_idle (h : c.Idle) (hm : c.mask = 0) : c.ready asks = firstLine asks := by
  have hfun : (fun i => c.inService i || asks i && !c.mask.toNat.testBit i) = asks := by
    funext i
    simp [h i, hm]
  unfold ready
  rw [hfun]
  cases firstLine asks with
  | none => rfl
  | some i => simp [h i]

end

end Chip

structure Pics where
  master : Chip
  slave : Chip

namespace Pics

def outb (p : Pics) (port : UInt16) (v : UInt8) : Pics :=
  if port = 0x20 then { p with master := p.master.command v }
  else if port = 0x21 then { p with master := p.master.data v }
  else if port = 0xA0 then { p with slave := p.slave.command v }
  else if port = 0xA1 then { p with slave := p.slave.data v }
  else p

/-- the lines as the master sees them: the slave is wired to line 2 -/
def asks (p : Pics) (i : Fin 8) : Bool :=
  if i = 2 then (p.slave.ready p.slave.requested).isSome else p.master.requested i

def requested (p : Pics) (k : Fin 16) : Bool :=
  if h : k.val < 8 then p.master.requested ⟨k, h⟩ else p.slave.requested ⟨k - 8, by omega⟩

/-- line `k` of the 16 asks -/
def raise (p : Pics) (k : Fin 16) : Pics :=
  if h : k.val < 8 then { p with master := p.master.request ⟨k, h⟩ }
  else { p with slave := p.slave.request ⟨k - 8, by omega⟩ }

/-- Line `i` of the master is acknowledged, while the slave has `j` to pass on.  Where the third word of
the master has a slave, the slave of that number gives the vector, that of its line 7 if it has nothing;
if no chip has the number, nobody drives the bus. -/
def answer (p : Pics) (i : Fin 8) (j : Option (Fin 8)) : UInt8 × Pics :=
  if p.master.cascade.toNat.testBit i then
    if p.slave.cascade.toNat = i then
      match j with
      | none => (p.slave.offset + 7, { p with master := p.master.serve i })
      | some j => (p.slave.offset + .ofNat j, ⟨p.master.serve i, p.slave.serve j⟩)
    else (0xFF, { p with master := p.master.serve i })
  else (p.master.offset + .ofNat i, { p with master := p.master.serve i })

/-- The CPU asks for the vector.  With no line to pass on, the master gives the vector of its line 7 and
serves nothing. -/
def acknowledge (p : Pics) : UInt8 × Pics :=
  match p.master.ready p.asks with
  | none => (p.master.offset + 7, p)
  | some i => p.answer i (p.slave.ready p.slave.requested)

/-- the same when the slave's line went away after the slave had asked -/
def acknowledgeLate (p : Pics) : UInt8 × Pics := p.answer 2 none

/-- the third words say how the chips are wired -/
def Cascaded (p : Pics) : Prop := p.master.cascade = 4 ∧ p.slave.cascade = 2

def Idle (p : Pics) : Prop := p.master.Idle ∧ p.slave.Idle

/-- line `k` is served, on the slave through line 2 of the master -/
def serve (p : Pics) (k : Fin 16) : Pics :=
  if h : k.val < 8 then { p with master := p.master.serve ⟨k, h⟩ }
  else ⟨p.master.serve 2, p.slave.serve ⟨k - 8, by omega⟩⟩

def vector (p : Pics) (k : Fin 16) : UInt8 :=
  if k.val < 8 then p.master.offset + .ofNat k else p.slave.offset + .ofNat (k - 8)

/-- no line is masked -/
def Unmasked (p : Pics) : Prop := p.master.mask = 0 ∧ p.slave.mask = 0

section
variable {p : Pics} {k : Fin 16}

theorem asks_of_requested (h : p.Idle) (hm : p.Unmasked) (hk : k ≠ 2) (hr : p.requested k = true) :
    ∃ i, p.asks i = true := by
  by_cases h8 : k.val < 8
  · refine ⟨⟨k, h8⟩, ?_⟩
    have h2 : (⟨k, h8⟩ : Fin 8) ≠ 2 := by
      intro e
      have e2 := congrArg Fin.val e
      exact hk (Fin.ext e2)
    unfold requested at hr
    rw [dif_pos h8] at hr
    unfold asks
    rw [if_neg h2]
    exact hr
  · refine ⟨2, ?_⟩
    unfold requested at hr
    rw [dif_neg h8] at hr
    show (p.slave.ready p.slave.requested).isSome = true
    rw [Chip.ready_idle h.2 hm.2]
    cases hf : firstLine p.slave.requested with
    | none => exact absurd hr (by simp [firstLine_eq_none.mp hf])
    | some i => rfl

/-- with nothing in service, a line that asks is passed on -/
theorem ready_isSome (h : p.Idle) (hm : p.Unmasked) (hk : k ≠ 2) (hr : p.requested k = true) :
    (p.master.ready p.asks).isSome := by
  rw [Chip.ready_idle h.1 hm.1]
  obtain ⟨i, hi⟩ := asks_of_requested h hm hk hr
  cases hf : firstLine p.asks with
  | none => exact absurd hi (by simp [firstLine_eq_none.mp hf])
  | some j => rfl

theorem answer_slave (hc : p.Cascaded) (j : Option (Fin 8)) : p.answer 2 j =
    match j with
    | none => (p.slave.offset + 7, { p with master := p.master.serve 2 })
    | some j => (p.slave.offset + .ofNat j, ⟨p.master.serve 2, p.slave.serve j⟩) := by
  unfold answer
  rw [hc.1, hc.2]
  rfl

theorem answer_master (hc : p.Cascaded) {i : Fin 8} (hi : i ≠ 2) (j : Option (Fin 8)) :
    p.answer i j = (p.master.offset + .ofNat i, { p with master := p.master.serve i }) := by
  have hbit : ∀ i : Fin 8, i ≠ 2 → (4 : UInt8).toNat.testBit i = false := by decide
  unfold answer
  rw [hc.1, hbit i hi]
  rfl

/-- an acknowledged line had asked, and is served -/
theorem acknowledge_ready (h : p.Idle) (hm : p.Unmasked) (hc : p.Cascaded) (hr : (p.master.ready p.asks).isSome) :
    ∃ k, k ≠ 2 ∧ p.requested k = true ∧ p.acknowledge = (p.vector k, p.serve k) := by
  rw [Chip.ready_idle h.1 hm.1] at hr
  obtain ⟨i, hi⟩ := Option.isSome_iff_exists.mp hr
  have hasks := firstLine_mem hi
  unfold acknowledge
  rw [Chip.ready_idle h.1 hm.1, hi]
  dsimp only
  by_cases h2 : i = 2
  · subst h2
    have hs : (p.slave.ready p.slave.requested).isSome = true := hasks
    rw [Chip.ready_idle h.2 hm.2] at hs ⊢
    obtain ⟨j, hj⟩ := Option.isSome_iff_exists.mp hs
    have h8 : ¬ (8 + j.val) < 8 := by omega
    have hsub : (⟨8 + j.val - 8, by omega⟩ : Fin 8) = j := Fin.ext (Nat.add_sub_cancel_left 8 j)
    refine ⟨⟨8 + j, by omega⟩, fun e => ?_, ?_, ?_⟩
    · have := congrArg Fin.val e
      simp at this
      omega
    · unfold requested
      rw [dif_neg h8]
      show p.slave.requested ⟨8 + j.val - 8, _⟩ = true
      rw [hsub]
      exact firstLine_mem hj
    · rw [answer_slave hc, hj]
      unfold vector serve
      rw [if_neg h8, dif_neg h8]
      show _ = (p.slave.offset + .ofNat (8 + j.val - 8), (⟨p.master.serve 2, p.slave.serve ⟨8 + j.val - 8, _⟩⟩ : Pics))
      rw [hsub, Nat.add_sub_cancel_left]
  · have h8 : i.val < 8 := i.isLt
    refine ⟨⟨i, by omega⟩, fun e => ?_, ?_, ?_⟩
    · have e2 := congrArg Fin.val e
      exact h2 (Fin.ext e2)
    · unfold requested
      rw [dif_pos h8]
      unfold asks at hasks
      rwa [if_neg h2] at hasks
    · rw [answer_master hc h2]
      unfold vector serve
      rw [if_pos h8, dif_pos h8]

theorem acknowledge_spurious (hr : p.master.ready p.asks = none) : p.acknowledge = (p.master.offset + 7, p) := by
  unfold acknowledge
  rw [hr]

end

end Pics
