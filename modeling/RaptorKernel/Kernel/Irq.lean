import RaptorKernel.Kernel.Idt

/-!
# Interrupts as a protocol

The devices, the two controllers, the CPU and `irq_handler`.  A device asks at any time; the CPU takes
an interrupt when no handler runs (the gates clear IF, `iret` sets it again); then the statements of
`irq_handler` run one by one, with requests coming in between them.

* `irqMachine`       the protocol;
* `IrqInv`           what is left of the handler ends all services, and every request has a place;
* `irq_exactly_once`     what that says about every run;
* `irq_drains`       without new requests, nothing waits for long.
-/

namespace Raptor

/-- a step of the protocol -/
inductive IrqEvent (H : Type) where
  /-- a device asks on line `k` -/
  | ask (k : Fin 16)
  /-- the CPU takes the interrupt that is passed on to it; `regs` is the frame -/
  | take (regs : Registers)
  /-- the same, but the request went away before the controller gave the vector -/
  | noise (slave : Bool) (regs : Registers)
  /-- the next action of `irq_handler` -/
  | act
  /-- the program calls `irq_install_handler` -/
  | install (irq : Int) (handler : H)

/-- The controllers, `irq_handlers`, the actions `irq_handler` has still to do, and how often each line
asked (a line that is already waiting does not ask again), went away, had its handler called, and had
none to call. -/
structure IrqSystem (H : Type) where
  pics : Pics
  handlers : Nat → Option H
  todo : List IrqAct
  asked : Fin 16 → Nat
  spurious : Fin 16 → Nat
  called : Fin 16 → Nat
  dropped : Fin 16 → Nat

def count (f : Fin 16 → Nat) (k : Fin 16) : Fin 16 → Nat := Function.update f k (f k + 1)

def IrqAct.apply (p : Pics) : IrqAct → Pics
  | .call _ => p
  | .outb port v => p.outb port v

def IrqAct.counts (called : Fin 16 → Nat) : IrqAct → Fin 16 → Nat
  | .call irq => if h : irq < 16 then count called ⟨irq, h⟩ else called
  | .outb _ _ => called

section
variable {H : Type}

/-- the interrupt of line `k` starts `irq_handler` -/
def IrqSystem.enter (s : IrqSystem H) (k : Fin 16) (regs : Registers) (p : Pics) : IrqSystem H :=
  { s with
    pics := p
    todo := irqHandler s.handlers regs
    dropped := if (s.handlers k).isSome then s.dropped else count s.dropped k }

/-- the line of a vector -/
def lineOf (v : UInt8) : Fin 16 := Fin.ofNat 16 (v.toNat - 32)

def IrqSystem.act (s : IrqSystem H) : IrqSystem H :=
  match s.todo with
  | [] => s
  | a :: todo => { s with pics := a.apply s.pics, todo := todo, called := a.counts s.called }

/-- what the CPU gets when the request went away -/
def IrqSystem.late (s : IrqSystem H) (slave : Bool) : UInt8 × Pics :=
  if slave then s.pics.acknowledgeLate else s.pics.acknowledge

def irqStep (s : IrqSystem H) : IrqEvent H → IrqSystem H
  | .ask k =>
    { s with
      pics := s.pics.raise k
      asked := if s.pics.requested k then s.asked else count s.asked k }
  | .take regs => s.enter (lineOf s.pics.acknowledge.1) regs s.pics.acknowledge.2
  | .noise slave regs =>
    { s.enter (lineOf (s.late slave).1) regs (s.late slave).2 with
      spurious := count s.spurious (lineOf (s.late slave).1) }
  | .act => s.act
  | .install irq handler => { s with handlers := irqInstallHandler s.handlers irq handler }

/-- The frame holds the vector that was given.  Line 2 of the master is the slave. -/
def irqLegal (s : IrqSystem H) : IrqEvent H → Prop
  | .ask k => k ≠ 2
  | .take regs => s.todo = [] ∧ (s.pics.master.ready s.pics.asks).isSome ∧
      regs.intNo = .ofNat s.pics.acknowledge.1.toNat
  | .noise slave regs => s.todo = [] ∧ s.pics.master.ready s.pics.asks = none ∧
      regs.intNo = .ofNat (s.late slave).1.toNat
  | .act => s.todo ≠ []
  | .install _ _ => s.todo = []

def irqMachine (H : Type) : Machine (IrqSystem H) (IrqEvent H) Fault where
  step s e := .ok (irqStep s e)
  legal := irqLegal

def irqBoot (handlers : Nat → Option H) (p : Pics) : IrqSystem H where
  pics := picRemap p
  handlers := handlers
  todo := []
  asked _ := 0
  spurious _ := 0
  called _ := 0
  dropped _ := 0

/-- a line is waiting -/
def IrqSystem.waiting (s : IrqSystem H) (k : Fin 16) : Nat := if s.pics.requested k then 1 else 0

end

/-! ## requests and ends of interrupts -/

/-- the actions of `irq_handler` on the controllers -/
def IrqAct.IsEoi : IrqAct → Prop
  | .call _ => True
  | .outb port v => (port = pic1Cmd ∨ port = pic2Cmd) ∧ v = picEoi

theorem eoi_request (c : Chip) (i : Fin 8) : (c.request i).eoi = c.eoi.request i := by
  unfold Chip.eoi Chip.request
  dsimp only
  split <;> rfl

theorem eoi_requested (c : Chip) : c.eoi.requested = c.requested := by
  unfold Chip.eoi
  split <;> rfl

theorem eoi_settings (c : Chip) : c.eoi.offset = c.offset ∧ c.eoi.mask = c.mask ∧ c.eoi.cascade = c.cascade := by
  unfold Chip.eoi
  split <;> exact ⟨rfl, rfl, rfl⟩

section
variable {p : Pics} {a : IrqAct} {k : Fin 16}

theorem apply_eoi (h : a.IsEoi) (p : Pics) : a.apply p = p ∨ a.apply p = { p with master := p.master.eoi } ∨
    a.apply p = { p with slave := p.slave.eoi } := by
  cases a with
  | call irq => exact .inl rfl
  | outb port v =>
    obtain ⟨rfl | rfl, rfl⟩ := h
    · exact .inr (.inl rfl)
    · exact .inr (.inr rfl)

theorem apply_raise (h : a.IsEoi) : a.apply (p.raise k) = (a.apply p).raise k := by
  cases a with
  | call irq => rfl
  | outb port v =>
    obtain ⟨rfl | rfl, rfl⟩ := h
    · show { p.raise k with master := (p.raise k).master.eoi } = { p with master := p.master.eoi : Pics }.raise k
      unfold Pics.raise
      split
      · dsimp only
        rw [eoi_request]
      · rfl
    · show { p.raise k with slave := (p.raise k).slave.eoi } = { p with slave := p.slave.eoi : Pics }.raise k
      unfold Pics.raise
      split
      · rfl
      · dsimp only
        rw [eoi_request]

theorem apply_requested (h : a.IsEoi) : (a.apply p).requested k = p.requested k := by
  unfold Pics.requested
  rcases apply_eoi h p with e | e | e
  · rw [e]
  · rw [e]
    dsimp only
    rw [eoi_requested]
  · rw [e]
    dsimp only
    rw [eoi_requested]

theorem apply_remapped (h : a.IsEoi) (hp : Remapped p) : Remapped (a.apply p) := by
  obtain ⟨h1, h2, h3⟩ := eoi_settings p.master
  obtain ⟨k1, k2, k3⟩ := eoi_settings p.slave
  rcases apply_eoi h p with e | e | e
  · rw [e]
    exact hp
  · rw [e]
    exact ⟨h1.trans hp.master, hp.slave, ⟨h2.trans hp.unmasked.1, hp.unmasked.2⟩,
      h3.trans hp.cascaded.1, hp.cascaded.2⟩
  · rw [e]
    exact ⟨hp.master, k1.trans hp.slave, ⟨hp.unmasked.1, k2.trans hp.unmasked.2⟩,
      hp.cascaded.1, k3.trans hp.cascaded.2⟩

theorem raise_remapped (hp : Remapped p) (k : Fin 16) : Remapped (p.raise k) := by
  unfold Pics.raise
  split
  · exact ⟨hp.master, hp.slave, hp.unmasked, hp.cascaded⟩
  · exact ⟨hp.master, hp.slave, hp.unmasked, hp.cascaded⟩

theorem raise_idle (hp : p.Idle) (k : Fin 16) : (p.raise k).Idle := by
  unfold Pics.raise
  split
  · exact ⟨hp.1, hp.2⟩
  · exact ⟨hp.1, hp.2⟩

theorem requested_raise (j : Fin 16) : (p.raise k).requested j = (p.requested j || decide (j = k)) := by
  unfold Pics.raise Pics.requested
  by_cases hk : k.val < 8
  · rw [dif_pos hk]
    by_cases hj : j.val < 8
    · rw [dif_pos hj, dif_pos hj]
      by_cases hjk : j = k
      · simp [Chip.request, hjk]
      · have hne : (⟨j, hj⟩ : Fin 8) ≠ ⟨k, hk⟩ := fun e => hjk (Fin.ext (Fin.mk.inj e))
        simp [Chip.request, hjk, hne]
    · have hjk : j ≠ k := fun e => hj (by rw [e]; exact hk)
      rw [dif_neg hj, dif_neg hj]
      simp [hjk]
  · rw [dif_neg hk]
    by_cases hj : j.val < 8
    · have hjk : j ≠ k := fun e => hk (by rw [← e]; exact hj)
      rw [dif_pos hj, dif_pos hj]
      simp [hjk]
    · rw [dif_neg hj, dif_neg hj]
      by_cases hjk : j = k
      · simp [Chip.request, hjk]
      · have hne : (⟨j - 8, by omega⟩ : Fin 8) ≠ ⟨k - 8, by omega⟩ := by
          intro e
          have e2 := congrArg Fin.val e
          dsimp only at e2
          exact hjk (Fin.ext (by omega))
        simp [Chip.request, hjk, hne]

/-- serving line `k` takes its request back, and no other -/
theorem requested_serve {j : Fin 16} (hj2 : j ≠ 2) :
    (p.serve k).requested j = (p.requested j && !decide (j = k)) := by
  unfold Pics.serve Pics.requested
  by_cases hk : k.val < 8
  · rw [dif_pos hk]
    by_cases hj : j.val < 8
    · rw [dif_pos hj, dif_pos hj]
      by_cases hjk : j = k
      · simp [Chip.serve, hjk]
      · have hne : (⟨j, hj⟩ : Fin 8) ≠ ⟨k, hk⟩ := fun e => hjk (Fin.ext (Fin.mk.inj e))
        simp [Chip.serve, hjk, hne]
    · have hjk : j ≠ k := fun e => hj (by rw [e]; exact hk)
      rw [dif_neg hj, dif_neg hj]
      simp [hjk]
  · rw [dif_neg hk]
    by_cases hj : j.val < 8
    · have hjk : j ≠ k := fun e => hk (by rw [← e]; exact hj)
      have hne : (⟨j, hj⟩ : Fin 8) ≠ 2 := by
        intro e
        have e2 := congrArg Fin.val e
        exact hj2 (Fin.ext e2)
      rw [dif_pos hj, dif_pos hj]
      simp [Chip.serve, hjk, hne]
    · rw [dif_neg hj, dif_neg hj]
      by_cases hjk : j = k
      · simp [Chip.serve, hjk]
      · have hne : (⟨j - 8, by omega⟩ : Fin 8) ≠ ⟨k - 8, by omega⟩ := by
          intro e
          have e2 := congrArg Fin.val e
          dsimp only at e2
          exact hjk (Fin.ext (by omega))
        simp [Chip.serve, hjk, hne]

end

/-! ## the actions of one interrupt -/

section
variable {H : Type} {handlers : Nat → Option H} {p : Pics} {k : Fin 16}

/-- the controllers once the actions are done -/
def applyAll (p : Pics) (acts : List IrqAct) : Pics := acts.foldl IrqAct.apply p

theorem applyAll_raise {acts : List IrqAct} (h : ∀ a ∈ acts, a.IsEoi) (p : Pics) (k : Fin 16) :
    applyAll (p.raise k) acts = (applyAll p acts).raise k := by
  induction acts generalizing p with
  | nil => rfl
  | cons a acts ih =>
    obtain ⟨ha, hacts⟩ := List.forall_mem_cons.mp h
    show applyAll (a.apply (p.raise k)) acts = _
    rw [apply_raise ha]
    exact ih hacts (a.apply p)

theorem lineActs_eoi (handlers : Nat → Option H) (k : Fin 16) : ∀ a ∈ lineActs handlers k, a.IsEoi := by
  intro a ha
  unfold lineActs at ha
  rcases List.mem_append.mp ha with ha | ha
  · rcases List.mem_append.mp ha with ha | ha
    · split at ha
      · rw [List.mem_singleton.mp ha]
        exact trivial
      · exact absurd ha List.not_mem_nil
    · split at ha
      · rw [List.mem_singleton.mp ha]
        exact ⟨.inr rfl, rfl⟩
      · exact absurd ha List.not_mem_nil
  · rw [List.mem_singleton.mp ha]
    exact ⟨.inl rfl, rfl⟩

theorem lineActs_count (handlers : Nat → Option H) (j k : Fin 16) :
    (lineActs handlers k).count (.call j) = if j = k ∧ (handlers k).isSome then 1 else 0 := by
  have hcall : (IrqAct.call k == IrqAct.call j) = decide (j = k) := by
    rw [beq_eq_decide, decide_eq_decide, IrqAct.call.injEq, Fin.ext_iff]
    exact eq_comm
  unfold lineActs
  rw [List.count_append, List.count_append]
  have h1 : List.count (.call j) [IrqAct.outb pic1Cmd picEoi] = 0 := rfl
  have h2 : List.count (.call j) (if 8 ≤ k.val then [IrqAct.outb pic2Cmd picEoi] else []) = 0 := by
    split <;> rfl
  rw [h1, h2]
  by_cases hk : (handlers k).isSome
  · rw [if_pos hk, List.count_singleton, hcall]
    simp [hk]
  · rw [if_neg hk, if_neg (fun h => hk h.2)]
    rfl

/-- the master's part of what `irq_handler` does, after the slave's -/
theorem applyAll_lineActs (handlers : Nat → Option H) (k : Fin 16) (p : Pics) :
    applyAll p (lineActs handlers k) =
      ⟨p.master.eoi, if 8 ≤ k.val then p.slave.eoi else p.slave⟩ := by
  have hcall : ∀ p, applyAll p (if (handlers k).isSome then [IrqAct.call k] else []) = p := by
    intro p
    split <;> rfl
  unfold lineActs
  unfold applyAll at hcall ⊢
  rw [List.foldl_append, List.foldl_append, hcall]
  split <;> rfl

theorem serve_done (h : p.Idle) (handlers : Nat → Option H) (k : Fin 16) :
    (applyAll (p.serve k) (lineActs handlers k)).Idle := by
  rw [applyAll_lineActs]
  unfold Pics.serve
  by_cases hk : k.val < 8
  · rw [dif_pos hk, if_neg (by omega)]
    dsimp only
    rw [Chip.eoi_serve h.1]
    exact ⟨h.1, h.2⟩
  · rw [dif_neg hk, if_pos (by omega)]
    dsimp only
    rw [Chip.eoi_serve h.1, Chip.eoi_serve h.2]
    exact ⟨h.1, h.2⟩

/-- a request that went away leaves nothing in service either -/
theorem late_done (h : p.Idle) (hc : p.Cascaded) (handlers : Nat → Option H) :
    (applyAll p (lineActs handlers 7)).Idle ∧ (applyAll p.acknowledgeLate.2 (lineActs handlers 15)).Idle := by
  rw [applyAll_lineActs, applyAll_lineActs]
  unfold Pics.acknowledgeLate
  rw [Pics.answer_slave hc]
  refine ⟨?_, ?_⟩
  · rw [if_neg (by decide), Chip.eoi_idle h.1]
    exact h
  · rw [if_pos (by decide)]
    dsimp only
    rw [Chip.eoi_serve h.1, Chip.eoi_idle h.2]
    exact ⟨h.1, h.2⟩

theorem serve_remapped (hp : Remapped p) (k : Fin 16) : Remapped (p.serve k) := by
  unfold Pics.serve
  split
  · exact ⟨hp.master, hp.slave, hp.unmasked, hp.cascaded⟩
  · exact ⟨hp.master, hp.slave, hp.unmasked, hp.cascaded⟩

end

/-! ## every run -/

/-- what is left of `irq_handler` ends all services, and every request is waiting, is being handled,
was handled, or found no handler -/
structure IrqInv {H : Type} (s : IrqSystem H) : Prop where
  remapped : Remapped s.pics
  eois : ∀ a ∈ s.todo, a.IsEoi
  idle : (applyAll s.pics s.todo).Idle
  counts : ∀ k, k ≠ 2 →
    s.called k + s.dropped k + s.todo.count (.call k) + s.waiting k = s.asked k + s.spurious k

section
variable {H : Type} {s : IrqSystem H} {regs : Registers}

theorem count_apply (f : Fin 16 → Nat) (k j : Fin 16) : count f k j = f j + if j = k then 1 else 0 := by
  unfold count
  by_cases h : j = k
  · simp [h]
  · simp [h]

theorem IrqInv.boot (handlers : Nat → Option H) (p : Pics) : IrqInv (irqBoot handlers p) := by
  obtain ⟨h1, h2, h3⟩ := picRemap_remapped p
  refine ⟨h1, fun a ha => absurd ha List.not_mem_nil, h2, fun k _ => ?_⟩
  have hw : (irqBoot handlers p).waiting k = 0 := if_neg (by show ¬ (picRemap p).requested k = true; simp [h3 k])
  rw [hw]
  rfl

/-- the call of a handler and its being counted are one -/
theorem called_act (a : IrqAct) (todo : List IrqAct) (called : Fin 16 → Nat) (k : Fin 16) :
    a.counts called k + todo.count (.call k) = called k + (a :: todo).count (.call k) := by
  cases a with
  | outb port v =>
    rw [List.count_cons_of_ne (by simp)]
    rfl
  | call irq =>
    unfold IrqAct.counts
    by_cases hirq : irq < 16
    · dsimp only
      rw [dif_pos hirq, count_apply, List.count_cons]
      by_cases hk : k = ⟨irq, hirq⟩
      · subst hk
        simp
        omega
      · have hne : ¬ irq = k := fun e => hk (Fin.ext e.symm)
        simp [hk, hne]
    · have hne : ¬ irq = k := fun e => hirq (e ▸ k.isLt)
      dsimp only
      rw [dif_neg hirq, List.count_cons]
      simp [hne]

theorem IrqInv.act {a : IrqAct} {todo : List IrqAct} (h : IrqInv s) (ht : s.todo = a :: todo) : IrqInv s.act := by
  have heois := h.eois
  have hidle := h.idle
  rw [ht] at heois hidle
  obtain ⟨ha, htodo⟩ := List.forall_mem_cons.mp heois
  have hs : s.act = { s with pics := a.apply s.pics, todo := todo, called := a.counts s.called } := by
    unfold IrqSystem.act
    rw [ht]
  rw [hs]
  refine ⟨apply_remapped ha h.remapped, htodo, hidle, fun k hk => ?_⟩
  have hcount := h.counts k hk
  rw [ht] at hcount
  have hcalled := called_act a todo s.called k
  have hw : (if (a.apply s.pics).requested k then 1 else 0) = s.waiting k := by
    rw [apply_requested ha]
    rfl
  show a.counts s.called k + s.dropped k + todo.count (.call k) + (if (a.apply s.pics).requested k then 1 else 0) = _
  rw [hw]
  show _ = s.asked k + s.spurious k
  omega

theorem IrqInv.ask (h : IrqInv s) (k : Fin 16) : IrqInv (irqStep s (.ask k)) := by
  refine ⟨raise_remapped h.remapped k, h.eois, ?_, fun j hj => ?_⟩
  · show (applyAll (s.pics.raise k) s.todo).Idle
    rw [applyAll_raise h.eois]
    exact raise_idle h.idle k
  · have hcount := h.counts j hj
    show s.called j + s.dropped j + s.todo.count (.call j) + (if (s.pics.raise k).requested j then 1 else 0) =
      (if s.pics.requested k then s.asked else count s.asked k) j + s.spurious j
    unfold IrqSystem.waiting at hcount
    rw [requested_raise]
    by_cases hjk : j = k
    · subst hjk
      cases hr : s.pics.requested j with
      | true =>
        rw [hr, if_pos rfl] at hcount
        simp
        omega
      | false =>
        rw [hr, if_neg (by simp)] at hcount
        simp [count_apply]
        omega
    · have hasked : (if s.pics.requested k then s.asked else count s.asked k) j = s.asked j := by
        split
        · rfl
        · simp [count_apply, hjk]
      rw [hasked]
      simpa [hjk] using hcount

/-- the counts when the CPU enters `irq_handler` -/
theorem IrqInv.enter_counts (h : IrqInv s) (ht : s.todo = []) {k : Fin 16} (hregs : regs.intNo = .ofNat (32 + k))
    (p : Pics) {j : Fin 16} (hj : j ≠ 2) :
    (s.enter k regs p).called j + (s.enter k regs p).dropped j + (s.enter k regs p).todo.count (.call j) +
      s.waiting j = s.asked j + s.spurious j + if j = k then 1 else 0 := by
  have hcount := h.counts j hj
  rw [ht] at hcount
  have htodo : (s.enter k regs p).todo = lineActs s.handlers k := irqHandler_eq s.handlers k hregs
  rw [htodo, lineActs_count]
  show s.called j + (if (s.handlers k).isSome then s.dropped else count s.dropped k) j + _ + _ = _
  rw [List.count_nil] at hcount
  by_cases hh : (s.handlers k).isSome
  · simp only [hh, if_true, and_true]
    omega
  · simp only [hh, and_false, if_false, Bool.false_eq_true, count_apply]
    omega

theorem lineOf_eq {v : UInt8} {k : Fin 16} (h : v.toNat = 32 + k) : lineOf v = k := by
  unfold lineOf
  rw [h, Nat.add_sub_cancel_left]
  exact Fin.ofNat_eq_cast 16 k ▸ Fin.cast_val_eq_self k

theorem IrqInv.idle_of_done (h : IrqInv s) (ht : s.todo = []) : s.pics.Idle := by
  have hidle := h.idle
  rw [ht] at hidle
  exact hidle

theorem IrqInv.take (h : IrqInv s) (hl : irqLegal s (.take regs)) : IrqInv (irqStep s (.take regs)) := by
  obtain ⟨ht, hready, hregs⟩ := hl
  have hidle := h.idle_of_done ht
  obtain ⟨k, hk, hreq, hack⟩ := Pics.acknowledge_ready hidle h.remapped.unmasked h.remapped.cascaded hready
  have hvec := h.remapped.vector k
  rw [hack] at hregs
  dsimp only at hregs
  rw [hvec] at hregs
  have hstep : irqStep s (.take regs) = s.enter k regs (s.pics.serve k) := by
    unfold irqStep
    rw [hack]
    dsimp only
    rw [lineOf_eq hvec]
  have htodo : (s.enter k regs (s.pics.serve k)).todo = lineActs s.handlers k := irqHandler_eq s.handlers k hregs
  rw [hstep]
  refine ⟨serve_remapped h.remapped k, ?_, ?_, fun j hj => ?_⟩
  · rw [htodo]
    exact lineActs_eoi s.handlers k
  · rw [htodo]
    exact serve_done hidle s.handlers k
  · have hc := h.enter_counts ht hregs (s.pics.serve k) hj
    have hw : (s.enter k regs (s.pics.serve k)).waiting j + (if j = k then 1 else 0) = s.waiting j := by
      unfold IrqSystem.waiting
      show (if (s.pics.serve k).requested j then 1 else 0) + _ = _
      rw [requested_serve hj]
      by_cases hjk : j = k
      · simp [hjk, hreq]
      · simp [hjk]
    show _ = s.asked j + s.spurious j
    omega

theorem IrqInv.noise {slave : Bool} (h : IrqInv s) (hl : irqLegal s (.noise slave regs)) :
    IrqInv (irqStep s (.noise slave regs)) := by
  obtain ⟨ht, hready, hregs⟩ := hl
  have hidle := h.idle_of_done ht
  obtain ⟨hdone, hdone'⟩ := late_done hidle h.remapped.cascaded s.handlers
  -- the line, and the controllers once the vector is given
  obtain ⟨k, hvec, hrem, hdone, hreq⟩ : ∃ k : Fin 16, (s.late slave).1.toNat = 32 + k ∧ Remapped (s.late slave).2 ∧
      (applyAll (s.late slave).2 (lineActs s.handlers k)).Idle ∧
      ∀ j, j ≠ 2 → (s.late slave).2.requested j = s.pics.requested j := by
    cases slave with
    | false =>
      have hlate : s.late false = (s.pics.master.offset + 7, s.pics) := Pics.acknowledge_spurious hready
      rw [hlate]
      refine ⟨7, ?_, h.remapped, hdone, fun j _ => rfl⟩
      rw [h.remapped.master]
      rfl
    | true =>
      have hlate : s.late true = (s.pics.slave.offset + 7, { s.pics with master := s.pics.master.serve 2 }) :=
        Pics.answer_slave h.remapped.cascaded none
      have hdone' : (applyAll (s.late true).2 (lineActs s.handlers 15)).Idle := hdone'
      rw [hlate] at hdone' ⊢
      refine ⟨15, ?_, ?_, hdone', fun j hj => ?_⟩
      · rw [h.remapped.slave]
        rfl
      · exact ⟨h.remapped.master, h.remapped.slave, h.remapped.unmasked, h.remapped.cascaded⟩
      · exact (requested_serve (p := s.pics) (k := 2) hj).trans (by simp [hj])
  rw [hvec] at hregs
  have hstep : irqStep s (.noise slave regs) =
      { s.enter k regs (s.late slave).2 with spurious := count s.spurious k } := by
    unfold irqStep
    dsimp only
    rw [lineOf_eq hvec]
  have htodo : (s.enter k regs (s.late slave).2).todo = lineActs s.handlers k := irqHandler_eq s.handlers k hregs
  rw [hstep]
  refine ⟨hrem, ?_, ?_, fun j hj => ?_⟩
  · show ∀ a ∈ (s.enter k regs (s.late slave).2).todo, a.IsEoi
    rw [htodo]
    exact lineActs_eoi s.handlers k
  · show (applyAll (s.late slave).2 (s.enter k regs (s.late slave).2).todo).Idle
    rw [htodo]
    exact hdone
  · have hc := h.enter_counts ht hregs (s.late slave).2 hj
    have hw : (if (s.late slave).2.requested j then 1 else 0) = s.waiting j := by
      rw [hreq j hj]
      rfl
    show (s.enter k regs (s.late slave).2).called j + (s.enter k regs (s.late slave).2).dropped j +
      (s.enter k regs (s.late slave).2).todo.count (.call j) + (if (s.late slave).2.requested j then 1 else 0) =
        s.asked j + count s.spurious k j
    rw [hw, hc, count_apply]
    omega

theorem IrqInv.step {e : IrqEvent H} (h : IrqInv s) (hl : irqLegal s e) : IrqInv (irqStep s e) := by
  cases e with
  | ask k => exact h.ask k
  | take regs => exact h.take hl
  | noise slave regs => exact h.noise hl
  | act =>
    obtain ⟨a, todo, ht⟩ := List.exists_cons_of_ne_nil hl
    exact h.act ht
  | install irq handler => exact ⟨h.remapped, h.eois, h.idle, h.counts⟩

theorem IrqInv.run {handlers : Nat → Option H} {p : Pics} {es : List (IrqEvent H)}
    (r : (irqMachine H).Run (irqBoot handlers p) es s) : IrqInv s := by
  apply r.inv (.boot handlers p)
  intro s e t hI hl hs
  cases hs
  exact hI.step hl

/-! ## lines with a handler -/

/-- a chip as the reset leaves it -/
def resetChip : Chip := ⟨none, false, false, 0, 0, 0xff, fun _ => false, fun _ => false⟩

/-- the frame of line 1 -/
def keyboardFrame : Registers := ⟨0, 0, 0, 0, 0, 0, 0, 0, 0, 33, 0, 0, 0, 0⟩

def oneHandler (irq : Nat) : Option Unit := if irq = 1 then some () else none

def afterAsk : IrqSystem Unit := irqStep (irqBoot oneHandler ⟨resetChip, resetChip⟩) (.ask 1)
def afterTake : IrqSystem Unit := irqStep afterAsk (.take keyboardFrame)

theorem afterAsk_run : (irqMachine Unit).Run (irqBoot oneHandler ⟨resetChip, resetChip⟩) [.ask 1] afterAsk := by
  have hask : (1 : Fin 16) ≠ 2 := by decide
  exact .snoc (.nil (M := irqMachine Unit)) hask rfl

theorem afterTake_legal : irqLegal afterAsk (.take keyboardFrame) := ⟨rfl, rfl, rfl⟩

theorem afterTake_run : (irqMachine Unit).Run afterAsk [.take keyboardFrame] afterTake :=
  .snoc (.nil (M := irqMachine Unit)) afterTake_legal rfl

/-- what the CPU and `irq_handler` do by themselves -/
def IrqEvent.Own : IrqEvent H → Prop
  | .take _ => True
  | .act => True
  | _ => False

def IrqSystem.pending (s : IrqSystem H) : Finset (Fin 16) :=
  Finset.univ.filter fun k => k ≠ 2 ∧ s.pics.requested k

theorem mem_pending {k : Fin 16} : k ∈ s.pending ↔ k ≠ 2 ∧ s.pics.requested k := by
  simp [IrqSystem.pending]

theorem lineActs_length (handlers : Nat → Option H) (k : Fin 16) : (lineActs handlers k).length ≤ 3 := by
  unfold lineActs
  split <;> split <;> simp

/-- a service takes at most three actions -/
theorem rank_take (h : IrqInv s) (hl : irqLegal s (.take regs)) :
    (irqStep s (.take regs)).todo.length + 4 * (irqStep s (.take regs)).pending.card + 1 ≤
      s.todo.length + 4 * s.pending.card := by
  obtain ⟨ht, hready, hregs⟩ := hl
  obtain ⟨k, hk, hreq, hack⟩ := Pics.acknowledge_ready (h.idle_of_done ht) h.remapped.unmasked h.remapped.cascaded hready
  have htodo : (irqStep s (.take regs)).todo = lineActs s.handlers k := by
    rw [hack] at hregs
    dsimp only at hregs
    rw [h.remapped.vector k] at hregs
    exact irqHandler_eq s.handlers k hregs
  have hpics : (irqStep s (.take regs)).pics = s.pics.serve k := by
    show s.pics.acknowledge.2 = _
    rw [hack]
  have hpending : (irqStep s (.take regs)).pending = s.pending.erase k := by
    ext j
    rw [Finset.mem_erase, mem_pending, mem_pending, hpics]
    by_cases hj : j = 2
    · simp [hj]
    · rw [requested_serve hj]
      simp [and_comm, and_left_comm]
  have hcard := Finset.card_erase_add_one (mem_pending.mpr ⟨hk, hreq⟩)
  have hlen := lineActs_length s.handlers k
  rw [hpending, htodo]
  omega

theorem rank_act (h : IrqInv s) (hl : s.todo ≠ []) :
    s.act.todo.length + 4 * s.act.pending.card + 1 ≤ s.todo.length + 4 * s.pending.card := by
  obtain ⟨a, todo, ht⟩ := List.exists_cons_of_ne_nil hl
  have ha := h.eois a (by simp [ht])
  have hs : s.act = { s with pics := a.apply s.pics, todo := todo, called := a.counts s.called } := by
    unfold IrqSystem.act
    rw [ht]
  have hpending : s.act.pending = s.pending := by
    ext k
    rw [mem_pending, mem_pending, hs]
    dsimp only
    rw [apply_requested ha]
  rw [hpending, hs, ht, List.length_cons]
  dsimp only
  omega

theorem rank_own {e : IrqEvent H} (h : IrqInv s) (hl : irqLegal s e) (hown : e.Own) :
    (irqStep s e).todo.length + 4 * (irqStep s e).pending.card + 1 ≤ s.todo.length + 4 * s.pending.card := by
  cases e with
  | take regs => exact rank_take h hl
  | act => exact rank_act h hl
  | ask k => exact hown.elim
  | noise slave regs => exact hown.elim
  | install irq handler => exact hown.elim

theorem own_move (h : IrqInv s) (hp : s.todo ≠ [] ∨ s.pending.Nonempty) : ∃ e : IrqEvent H, e.Own ∧ irqLegal s e := by
  by_cases ht : s.todo = []
  · obtain ⟨k, hk⟩ := hp.resolve_left (not_not_intro ht)
    obtain ⟨hk2, hreq⟩ := mem_pending.mp hk
    have hready := Pics.ready_isSome (h.idle_of_done ht) h.remapped.unmasked hk2 hreq
    let regs : Registers := ⟨0, 0, 0, 0, 0, 0, 0, 0, 0, .ofNat s.pics.acknowledge.1.toNat, 0, 0, 0, 0⟩
    exact ⟨.take regs, trivial, ht, hready, rfl⟩
  · exact ⟨.act, trivial, ht⟩

/-- Nothing waits for long: however the CPU and `irq_handler` go on by themselves from a state that a run
reaches, they take at most four steps for each line that waits, and they do not stop before all are
served. -/
theorem irq_drains {handlers : Nat → Option H} {p : Pics} {es es' : List (IrqEvent H)} {t : IrqSystem H}
    (r : (irqMachine H).Run (irqBoot handlers p) es s) (r' : (irqMachine H).Run s es' t)
    (hown : ∀ e ∈ es', e.Own) :
    es'.length + t.todo.length + 4 * t.pending.card ≤ s.todo.length + 4 * s.pending.card ∧
      ((∃ e : IrqEvent H, e.Own ∧ irqLegal t e) ∨ t.todo = [] ∧ ∀ k, k ≠ 2 → t.pics.requested k = false) := by
  have hs := IrqInv.run r
  have hrank : IrqInv t ∧ es'.length + t.todo.length + 4 * t.pending.card ≤ s.todo.length + 4 * s.pending.card := by
    induction r' with
    | nil => exact ⟨hs, by simp⟩
    | @snoc es' t u e _ hl hstep ih =>
      obtain ⟨ht, hle⟩ := ih fun e he => hown e (List.mem_append_left _ he)
      cases hstep
      have := rank_own ht hl (hown e (by simp))
      refine ⟨ht.step hl, ?_⟩
      rw [List.length_append, List.length_singleton]
      omega
  refine ⟨hrank.2, ?_⟩
  by_cases hp : t.todo ≠ [] ∨ t.pending.Nonempty
  · exact .inl (own_move hrank.1 hp)
  · obtain ⟨h1, h2⟩ := not_or.mp hp
    refine .inr ⟨not_not.mp h1, fun k hk => ?_⟩
    have hnot : k ∉ t.pending := Finset.not_nonempty_iff_eq_empty.mp h2 ▸ Finset.notMem_empty k
    rw [mem_pending] at hnot
    simpa [hk] using hnot

theorem irq_drains_keyboard :
    [IrqEvent.take (H := Unit) keyboardFrame].length + afterTake.todo.length + 4 * afterTake.pending.card ≤
      afterAsk.todo.length + 4 * afterAsk.pending.card := by
  refine (irq_drains afterAsk_run afterTake_run fun e he => ?_).1
  rw [List.mem_singleton.mp he]
  exact trivial

end

end Raptor
