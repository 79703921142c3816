import Mathlib

/-!
# A terminal without a bottom

Rows of cells without end, and a cursor; nothing ever scrolls.  What a screen of `rows` rows shows
of it are the last ones up to the cursor, from `top rows` on.

* `write`, `newline`, `carriageReturn`, `backspace`, `tab`, `put`   the operations;
* `BlankFrom`    the rows from a row on are blank; they stay so while the cursor is above them.
-/

structure Terminal (α : Type*) where
  cell : Nat → Nat → α
  row : Nat
  col : Nat

namespace Terminal
variable {α : Type*} (t : Terminal α)

def cleared (blank : α) : Terminal α := ⟨fun _ _ => blank, 0, 0⟩

def write (c : α) : Terminal α :=
  { t with cell := fun i j => if i = t.row ∧ j = t.col then c else t.cell i j }

def newline : Terminal α := { t with row := t.row + 1, col := 0 }

def carriageReturn : Terminal α := { t with col := 0 }

/-- the cursor at `col`, or on the next line if the line has no such cell -/
def moveTo (cols col : Nat) : Terminal α :=
  if cols ≤ col then t.newline else { t with col := col }

/-- to the next multiple of 8 -/
def tab (cols : Nat) : Terminal α := t.moveTo cols ((t.col + 8) / 8 * 8)

def put (cols : Nat) (c : α) : Terminal α := (t.write c).moveTo cols (t.col + 1)

def backspace (blank : α) : Terminal α :=
  if 0 < t.col then { t with col := t.col - 1 }.write blank else t

/-- the first row that a screen of `rows` rows shows -/
def top (rows : Nat) : Nat := t.row + 1 - rows

def BlankFrom (blank : α) (n : Nat) : Prop := ∀ i, n ≤ i → ∀ j, t.cell i j = blank

/-- the cursor is on a cell of its row -/
def InLine (cols : Nat) : Prop := t.col < cols

variable {t} {blank : α} {cols : Nat}

theorem blankFrom_cleared (n : Nat) : (cleared blank).BlankFrom blank n := fun _ _ _ => rfl

theorem BlankFrom.write {n : Nat} (h : t.BlankFrom blank n) (hrow : t.row < n) (c : α) :
    (t.write c).BlankFrom blank n := by
  intro i hi j
  have hne : ¬ (i = t.row ∧ j = t.col) := fun e => absurd e.1 (by omega)
  exact (if_neg hne).trans (h i hi j)

theorem le_row_moveTo (t : Terminal α) (cols col : Nat) : t.row ≤ (t.moveTo cols col).row := by
  unfold Terminal.moveTo
  split
  · exact Nat.le_succ _
  · exact le_refl _

theorem row_moveTo (t : Terminal α) (cols col : Nat) : (t.moveTo cols col).row ≤ t.row + 1 := by
  unfold Terminal.moveTo
  split
  · exact le_refl _
  · exact Nat.le_succ _

end Terminal
