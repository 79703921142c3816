import RaptorKernel.Drivers.Keyboard

/-!
# The case of a letter

The keys that a person holds down, and what the driver makes of the set-1 codes they send.

* `Key`, `KeyEvent`     the keys, pressed and released; `KeyEvent.codes`: what the keyboard sends;
* `irqChar`             the byte that the handler passes to `push`;
* `held`, `capsOdd`     the keys held down, the state of Caps Lock;
* `lastShift`           what the driver keeps of the two shift keys: the last of their events;
* `letterCase_iff`      when every letter has the case that the keys held say.
-/

namespace Raptor

/-! ## keys and codes -/

/-- The second byte of an extended key.  No key has `0x60`: its break code would be a prefix. -/
structure ExtCode where
  code : UInt8
  ok : code < 0x80 ∧ code ≠ 0x60
deriving DecidableEq

inductive Key where
  | leftShift
  | rightShift
  | capsLock
  /-- `a` to `z` -/
  | letter (i : Fin 26)
  | extended (c : ExtCode)
deriving DecidableEq

/-- the make codes of the letters, in the order of the alphabet -/
def letterCodes : List UInt8 :=
  [0x1E, 0x30, 0x2E, 0x20, 0x12, 0x21, 0x22, 0x23, 0x17, 0x24, 0x25, 0x26, 0x32, 0x31, 0x18, 0x19,
    0x10, 0x13, 0x1F, 0x14, 0x16, 0x2F, 0x11, 0x2D, 0x15, 0x2C]

def letterCode (i : Fin 26) : UInt8 := letterCodes.getD i 0

inductive KeyEvent where
  | press (k : Key)
  | release (k : Key)
deriving DecidableEq

/-- the code of a key that is not extended -/
def Key.code : Key → UInt8
  | .leftShift => 0x2A
  | .rightShift => 0x36
  | .capsLock => 0x3A
  | .letter i => letterCode i
  | .extended c => c.code

/-- what the keyboard sends; a break code has its top bit set -/
def KeyEvent.codes : KeyEvent → List UInt8
  | .press (.extended c) => [0xE0, c.code]
  | .release (.extended c) => [0xE0, c.code ||| 0x80]
  | .press k => [k.code]
  | .release k => [k.code ||| 0x80]

def keyboardAfter (es : List KeyEvent) : Keyboard :=
  (es.flatMap KeyEvent.codes).foldl keyboardIrq .init

/-- the byte that `keyboard_irq` passes to `push` -/
def irqChar (k : Keyboard) (sc : UInt8) : Option UInt8 :=
  if sc = 0xE0 then none
  else if k.sawE0 then
    if sc = 0x48 then some (.ofNat keyUp) else if sc = 0x50 then some (.ofNat keyDown) else none
  else if sc &&& 0x80 ≠ 0 ∨ sc = 0x2A ∨ sc = 0x36 ∨ sc = 0x3A ∨ 128 ≤ sc then none
  else if keyChar k.shift k.caps sc ≠ 0 then some (keyChar k.shift k.caps sc) else none

/-- the driver's flags after a code -/
def irqFlags (k : Keyboard) (sc : UInt8) : Keyboard :=
  if sc = 0xE0 then { k with sawE0 := true }
  else if k.sawE0 then { k with sawE0 := false }
  else if sc = 0xAA ∨ sc = 0xB6 then { k with shift := false }
  else if sc = 0x2A ∨ sc = 0x36 then { k with shift := true }
  else if sc = 0x3A then { k with caps := !k.caps }
  else k

/-! ## what a person does -/

/-- the key is down -/
def held (es : List KeyEvent) (k : Key) : Bool :=
  es.foldl (fun b e => if e = .press k then true else if e = .release k then false else b) false

def shiftHeld (es : List KeyEvent) : Bool := held es .leftShift || held es .rightShift

def capsOdd (es : List KeyEvent) : Bool := es.count (.press .capsLock) % 2 == 1

/-- the last event of a shift key was a press -/
def lastShift (es : List KeyEvent) : Bool :=
  es.foldl (fun b e =>
    if e = .press .leftShift ∨ e = .press .rightShift then true
    else if e = .release .leftShift ∨ e = .release .rightShift then false else b) false

def upperLetter (i : Fin 26) : UInt8 := 'A'.toUInt8 + .ofNat i
def lowerLetter (i : Fin 26) : UInt8 := 'a'.toUInt8 + .ofNat i

/-- one shift key is still held, and the last that happened to them was the release of the other -/
def StaleShift (es : List KeyEvent) : Prop := shiftHeld es = true ∧ lastShift es = false

/-- every letter that is pressed goes to `push` in the case of the keys held -/
def CaseFollows (es : List KeyEvent) : Prop :=
  ∀ before i after, es = before ++ .press (.letter i) :: after →
    irqChar (keyboardAfter before) (letterCode i) =
      some (if shiftHeld before ≠ capsOdd before then upperLetter i else lowerLetter i)

/-! ## one code -/

/-- break codes and make codes -/
theorem top_bit (sc : UInt8) :
    (sc &&& 0x80 ≠ 0 → ((sc &&& 0x7f = 0x2A ∨ sc &&& 0x7f = 0x36) ↔ sc = 0xAA ∨ sc = 0xB6) ∧
      sc ≠ 0x2A ∧ sc ≠ 0x36 ∧ sc ≠ 0x3A) ∧
    (¬ sc &&& 0x80 ≠ 0 → sc ≠ 0xAA ∧ sc ≠ 0xB6 ∧ ¬ 128 ≤ sc) := by
  have h : ∀ b : Fin 256, (UInt8.ofFin b &&& 0x80 ≠ 0 →
      ((UInt8.ofFin b &&& 0x7f = 0x2A ∨ UInt8.ofFin b &&& 0x7f = 0x36) ↔
        UInt8.ofFin b = 0xAA ∨ UInt8.ofFin b = 0xB6) ∧
      UInt8.ofFin b ≠ 0x2A ∧ UInt8.ofFin b ≠ 0x36 ∧ UInt8.ofFin b ≠ 0x3A) ∧
      (¬ UInt8.ofFin b &&& 0x80 ≠ 0 → UInt8.ofFin b ≠ 0xAA ∧ UInt8.ofFin b ≠ 0xB6 ∧
        ¬ 128 ≤ UInt8.ofFin b) := by decide +kernel
  exact h sc.toFin

/-- what the handler does -/
theorem keyboardIrq_eq (k : Keyboard) (sc : UInt8) :
    keyboardIrq k sc = (irqChar k sc).elim (irqFlags k sc) (push (irqFlags k sc)) := by
  obtain ⟨hbreak, hmake⟩ := top_bit sc
  unfold keyboardIrq irqChar irqFlags
  by_cases hE0 : sc = 0xE0
  · rw [if_pos hE0, if_pos hE0, if_pos hE0]
    rfl
  rw [if_neg hE0, if_neg hE0, if_neg hE0]
  by_cases hext : k.sawE0 = true
  · rw [if_pos hext, if_pos hext, if_pos hext]
    dsimp only
    split
    · rfl
    · split <;> rfl
  rw [if_neg hext, if_neg hext, if_neg hext]
  by_cases htop : sc &&& 0x80 ≠ 0
  · obtain ⟨hcode, h1, h2, h3⟩ := hbreak htop
    have hnone : sc &&& 0x80 ≠ 0 ∨ sc = 0x2A ∨ sc = 0x36 ∨ sc = 0x3A ∨ 128 ≤ sc := .inl htop
    rw [if_pos htop, if_pos hnone]
    dsimp only
    by_cases hs : sc = 0xAA ∨ sc = 0xB6
    · rw [if_pos (hcode.mpr hs), if_pos hs]
      rfl
    · rw [if_neg fun e => hs (hcode.mp e), if_neg hs, if_neg (by simp [h1, h2]), if_neg h3]
      rfl
  obtain ⟨h1, h2, h3⟩ := hmake htop
  rw [if_neg htop, if_neg (show ¬ (sc = 0xAA ∨ sc = 0xB6) by simp [h1, h2])]
  by_cases hshift : sc = 0x2A ∨ sc = 0x36
  · have hnone : sc &&& 0x80 ≠ 0 ∨ sc = 0x2A ∨ sc = 0x36 ∨ sc = 0x3A ∨ 128 ≤ sc := by tauto
    rw [if_pos hshift, if_pos hshift, if_pos hnone]
    rfl
  rw [if_neg hshift, if_neg hshift]
  by_cases hcaps : sc = 0x3A
  · have hnone : sc &&& 0x80 ≠ 0 ∨ sc = 0x2A ∨ sc = 0x36 ∨ sc = 0x3A ∨ 128 ≤ sc := by tauto
    rw [if_pos hcaps, if_pos hcaps, if_pos hnone]
    rfl
  have hsome : ¬ (sc &&& 0x80 ≠ 0 ∨ sc = 0x2A ∨ sc = 0x36 ∨ sc = 0x3A ∨ 128 ≤ sc) := by tauto
  rw [if_neg hcaps, if_neg hcaps, if_neg h3, if_neg hsome]
  dsimp only
  split <;> rfl

/-- the table and Caps Lock, for the letters -/
theorem keyChar_letter (shift caps : Bool) (i : Fin 26) :
    keyChar shift caps (letterCode i) = if shift ≠ caps then upperLetter i else lowerLetter i := by
  revert shift caps i
  decide

theorem push_flags (k : Keyboard) (c : UInt8) :
    (push k c).shift = k.shift ∧ (push k c).caps = k.caps ∧ (push k c).sawE0 = k.sawE0 := by
  unfold push
  dsimp only
  split
  · exact ⟨rfl, rfl, rfl⟩
  · exact ⟨rfl, rfl, rfl⟩

/-- the flags after the handler -/
theorem keyboardIrq_flags (k : Keyboard) (sc : UInt8) :
    (keyboardIrq k sc).shift = (irqFlags k sc).shift ∧ (keyboardIrq k sc).caps = (irqFlags k sc).caps ∧
      (keyboardIrq k sc).sawE0 = (irqFlags k sc).sawE0 := by
  rw [keyboardIrq_eq]
  cases irqChar k sc with
  | none => exact ⟨rfl, rfl, rfl⟩
  | some c => exact push_flags _ _

/-! ## sequences of events -/

section
variable {es : List KeyEvent} {k : Keyboard}

theorem keyboardAfter_snoc (es : List KeyEvent) (e : KeyEvent) :
    keyboardAfter (es ++ [e]) = e.codes.foldl keyboardIrq (keyboardAfter es) := by
  unfold keyboardAfter
  rw [List.flatMap_append, List.foldl_append, List.flatMap_singleton]

theorem held_snoc (es : List KeyEvent) (e : KeyEvent) (k : Key) : held (es ++ [e]) k =
    if e = .press k then true else if e = .release k then false else held es k := by
  unfold held
  rw [List.foldl_append]
  rfl

theorem lastShift_snoc (es : List KeyEvent) (e : KeyEvent) : lastShift (es ++ [e]) =
    if e = .press .leftShift ∨ e = .press .rightShift then true
    else if e = .release .leftShift ∨ e = .release .rightShift then false else lastShift es := by
  unfold lastShift
  rw [List.foldl_append]
  rfl

theorem capsOdd_snoc (es : List KeyEvent) (e : KeyEvent) : capsOdd (es ++ [e]) =
    if e = .press .capsLock then !capsOdd es else capsOdd es := by
  unfold capsOdd
  rw [List.count_append]
  by_cases he : e = .press .capsLock
  · rw [if_pos he, he, List.count_singleton_self, Nat.add_mod]
    rcases Nat.mod_two_eq_zero_or_one (es.count (.press .capsLock)) with h | h
    · rw [h]
      rfl
    · rw [h]
      rfl
  · rw [if_neg he, List.count_singleton, if_neg (by simpa using he), Nat.add_zero]

/-- what the flags of the driver say about the events so far -/
structure FlagsOf (es : List KeyEvent) (k : Keyboard) : Prop where
  noPrefix : k.sawE0 = false
  caps : k.caps = capsOdd es
  shift : k.shift = lastShift es

/-- a code that is neither a prefix nor one of the shift keys or Caps Lock -/
def PlainCode (sc : UInt8) : Prop :=
  sc ≠ 0xE0 ∧ sc ≠ 0xAA ∧ sc ≠ 0xB6 ∧ sc ≠ 0x2A ∧ sc ≠ 0x36 ∧ sc ≠ 0x3A

instance : DecidablePred PlainCode := fun sc => inferInstanceAs (Decidable
  (sc ≠ 0xE0 ∧ sc ≠ 0xAA ∧ sc ≠ 0xB6 ∧ sc ≠ 0x2A ∧ sc ≠ 0x36 ∧ sc ≠ 0x3A))

theorem irqFlags_plain {sc : UInt8} (hsc : PlainCode sc) (hk : k.sawE0 = false) :
    irqFlags k sc = k := by
  obtain ⟨h1, h2, h3, h4, h5, h6⟩ := hsc
  have hk : ¬ k.sawE0 = true := by
    rw [hk]
    exact Bool.false_ne_true
  unfold irqFlags
  rw [if_neg h1, if_neg hk, if_neg (by simp [h2, h3]), if_neg (by simp [h4, h5]), if_neg h6]

theorem letterCode_plain (i : Fin 26) : PlainCode (letterCode i) ∧ PlainCode (letterCode i ||| 0x80) := by
  revert i
  decide

/-- an event that the driver does not keep -/
theorem FlagsOf.ignore (h : FlagsOf es k) {e : KeyEvent} {k' : Keyboard}
    (hcaps : e ≠ .press .capsLock)
    (hshift : ¬ (e = .press .leftShift ∨ e = .press .rightShift) ∧
      ¬ (e = .release .leftShift ∨ e = .release .rightShift))
    (hk : k'.shift = k.shift ∧ k'.caps = k.caps ∧ k'.sawE0 = false) : FlagsOf (es ++ [e]) k' where
  noPrefix := hk.2.2
  caps := by rw [capsOdd_snoc, if_neg hcaps, hk.2.1, h.caps]
  shift := by rw [lastShift_snoc, if_neg hshift.1, if_neg hshift.2, hk.1, h.shift]

theorem FlagsOf.plain (h : FlagsOf es k) {e : KeyEvent} {sc : UInt8} (hsc : PlainCode sc)
    (hcaps : e ≠ .press .capsLock)
    (hshift : ¬ (e = .press .leftShift ∨ e = .press .rightShift) ∧
      ¬ (e = .release .leftShift ∨ e = .release .rightShift)) :
    FlagsOf (es ++ [e]) (keyboardIrq k sc) := by
  obtain ⟨h1, h2, h3⟩ := keyboardIrq_flags k sc
  rw [irqFlags_plain hsc h.noPrefix] at h1 h2 h3
  exact h.ignore hcaps hshift ⟨h1, h2, h3.trans h.noPrefix⟩

/-- the two codes of an extended key -/
theorem FlagsOf.extended (h : FlagsOf es k) {e : KeyEvent} {sc : UInt8} (hsc : sc ≠ 0xE0)
    (hcaps : e ≠ .press .capsLock)
    (hshift : ¬ (e = .press .leftShift ∨ e = .press .rightShift) ∧
      ¬ (e = .release .leftShift ∨ e = .release .rightShift)) :
    FlagsOf (es ++ [e]) (keyboardIrq (keyboardIrq k 0xE0) sc) := by
  have hpre : keyboardIrq k 0xE0 = { k with sawE0 := true } := if_pos rfl
  obtain ⟨h1, h2, h3⟩ := keyboardIrq_flags (keyboardIrq k 0xE0) sc
  rw [hpre] at h1 h2 h3 ⊢
  have hflags : irqFlags { k with sawE0 := true } sc = { k with sawE0 := false } := by
    unfold irqFlags
    rw [if_neg hsc, if_pos rfl]
  rw [hflags] at h1 h2 h3
  exact h.ignore hcaps hshift ⟨h1, h2, h3⟩

theorem ExtCode.codes_ne (c : ExtCode) : c.code ≠ 0xE0 ∧ c.code ||| 0x80 ≠ 0xE0 := by
  have h : ∀ b : Fin 256, UInt8.ofFin b < 0x80 ∧ UInt8.ofFin b ≠ 0x60 →
      UInt8.ofFin b ≠ 0xE0 ∧ UInt8.ofFin b ||| 0x80 ≠ 0xE0 := by decide +kernel
  exact h c.code.toFin c.ok

/-- a code that sets the flags of shift and Caps Lock to `shift` and `caps` -/
theorem FlagsOf.set (h : FlagsOf es k) {e : KeyEvent} {sc : UInt8} (shift caps : Bool)
    (hf : irqFlags k sc = { k with shift := shift, caps := caps })
    (hshift : shift = lastShift (es ++ [e])) (hcaps : caps = capsOdd (es ++ [e])) :
    FlagsOf (es ++ [e]) (keyboardIrq k sc) := by
  obtain ⟨h1, h2, h3⟩ := keyboardIrq_flags k sc
  rw [hf] at h1 h2 h3
  exact ⟨h3.trans h.noPrefix, h2.trans hcaps, h1.trans hshift⟩

/-- one event: the cases are the keys -/
theorem FlagsOf.step (h : FlagsOf es k) (e : KeyEvent) :
    FlagsOf (es ++ [e]) (e.codes.foldl keyboardIrq k) := by
  have hsaw := h.noPrefix
  have hshift := h.shift
  have hcaps := h.caps
  cases e with
  | press key =>
    cases key with
    | leftShift =>
      show FlagsOf _ (keyboardIrq k 0x2A)
      apply h.set true k.caps
      · simp [irqFlags, hsaw]
      · simp [lastShift_snoc]
      · simpa [capsOdd_snoc] using hcaps
    | rightShift =>
      show FlagsOf _ (keyboardIrq k 0x36)
      apply h.set true k.caps
      · simp [irqFlags, hsaw]
      · simp [lastShift_snoc]
      · simpa [capsOdd_snoc] using hcaps
    | capsLock =>
      show FlagsOf _ (keyboardIrq k 0x3A)
      apply h.set k.shift (!k.caps)
      · simp [irqFlags, hsaw]
      · simpa [lastShift_snoc] using hshift
      · simpa [capsOdd_snoc] using hcaps
    | letter i => exact h.plain (letterCode_plain i).1 (by simp) (by simp)
    | extended c => exact h.extended c.codes_ne.1 (by simp) (by simp)
  | release key =>
    cases key with
    | leftShift =>
      show FlagsOf _ (keyboardIrq k 0xAA)
      apply h.set false k.caps
      · simp [irqFlags, hsaw]
      · simp [lastShift_snoc]
      · simpa [capsOdd_snoc] using hcaps
    | rightShift =>
      show FlagsOf _ (keyboardIrq k 0xB6)
      apply h.set false k.caps
      · simp [irqFlags, hsaw]
      · simp [lastShift_snoc]
      · simpa [capsOdd_snoc] using hcaps
    | capsLock => exact h.plain (show PlainCode 0xBA by decide) (by simp) (by simp)
    | letter i => exact h.plain (letterCode_plain i).2 (by simp) (by simp)
    | extended c => exact h.extended c.codes_ne.2 (by simp) (by simp)

/-- the induction is on the events, the last one split off -/
theorem flagsOf_after (es : List KeyEvent) : FlagsOf es (keyboardAfter es) := by
  induction es using List.reverseRecOn with
  | nil => exact ⟨rfl, rfl, rfl⟩
  | append_singleton es e ih =>
    rw [keyboardAfter_snoc]
    exact ih.step e

/-- a shift key is held after it was pressed -/
theorem shiftHeld_of_lastShift (h : lastShift es = true) : shiftHeld es = true := by
  induction es using List.reverseRecOn with
  | nil => cases h
  | append_singleton es e ih =>
    unfold shiftHeld at ih ⊢
    rw [lastShift_snoc] at h
    rw [held_snoc, held_snoc]
    by_cases hl : e = .press .leftShift
    · rw [if_pos hl, Bool.true_or]
    by_cases hr : e = .press .rightShift
    · rw [if_pos hr, Bool.or_true]
    rw [if_neg (by simp [hl, hr])] at h
    by_cases hrel : e = .release .leftShift ∨ e = .release .rightShift
    · rw [if_pos hrel] at h
      cases h
    · rw [if_neg hrel] at h
      rw [not_or] at hrel
      rw [if_neg hl, if_neg hrel.1, if_neg hr, if_neg hrel.2]
      exact ih h

/-- the letter that goes to `push` -/
theorem irqChar_letter (h : FlagsOf es k) (i : Fin 26) : irqChar k (letterCode i) =
    some (if lastShift es ≠ capsOdd es then upperLetter i else lowerLetter i) := by
  have hcode : letterCode i ≠ 0xE0 ∧ ¬ (letterCode i &&& 0x80 ≠ 0 ∨ letterCode i = 0x2A ∨
      letterCode i = 0x36 ∨ letterCode i = 0x3A ∨ 128 ≤ letterCode i) := by
    revert i
    decide
  have hne : ∀ shift caps, keyChar shift caps (letterCode i) ≠ 0 := by
    revert i
    decide
  have hsaw : ¬ k.sawE0 = true := by
    rw [h.noPrefix]
    exact Bool.false_ne_true
  unfold irqChar
  rw [if_neg hcode.1, if_neg hsaw, if_neg hcode.2, if_pos (hne _ _), keyChar_letter, h.shift, h.caps]

theorem letters_ne (i : Fin 26) : upperLetter i ≠ lowerLetter i := by
  revert i
  decide

/-- The letter has the case of the keys held unless the shift keys are stale. -/
theorem irqChar_follows (es : List KeyEvent) (i : Fin 26) :
    irqChar (keyboardAfter es) (letterCode i) =
      some (if shiftHeld es ≠ capsOdd es then upperLetter i else lowerLetter i) ↔ ¬ StaleShift es := by
  have hne := letters_ne i
  have hheld : lastShift es = true → shiftHeld es = true := shiftHeld_of_lastShift
  rw [irqChar_letter (flagsOf_after es)]
  unfold StaleShift
  generalize shiftHeld es = now at hheld ⊢
  generalize lastShift es = last at hheld ⊢
  cases last with
  | true =>
    obtain rfl : now = true := hheld rfl
    exact ⟨fun _ e => Bool.noConfusion e.2, fun _ => rfl⟩
  | false =>
    cases now with
    | false => exact ⟨fun _ e => Bool.noConfusion e.1, fun _ => rfl⟩
    | true =>
      refine ⟨fun e => absurd (Option.some.inj e) ?_, fun h => absurd ⟨rfl, rfl⟩ h⟩
      cases capsOdd es with
      | false => exact hne.symm
      | true => exact hne

end

/-- Every letter has the case of the keys held exactly when none is pressed while one shift key is
held and the other was released after it: the driver has one flag for both. -/
theorem letterCase_iff (es : List KeyEvent) : CaseFollows es ↔
    ∀ before i after, es = before ++ .press (.letter i) :: after → ¬ StaleShift before := by
  unfold CaseFollows
  constructor
  · intro h before i after he
    exact (irqChar_follows before i).mp (h before i after he)
  · intro h before i after he
    exact (irqChar_follows before i).mpr (h before i after he)

/-- Both shift keys go down, the left one comes up, and `a` is pressed: `a` and not `A`. -/
theorem not_caseFollows_shifts : ¬ CaseFollows [.press .leftShift, .press .rightShift,
    .release .leftShift, .press (.letter 0)] := by
  intro h
  have h1 := h [.press .leftShift, .press .rightShift, .release .leftShift] 0 [] rfl
  revert h1
  decide +kernel

end Raptor
