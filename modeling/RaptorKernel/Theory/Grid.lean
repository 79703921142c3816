import Mathlib

/-!
# A screen that scrolls

`rows` rows of `cols` cells and a cursor.  A row that the cursor leaves at the bottom pushes all
rows up by one.

* `write`, `newline`, `moveTo`, `put`, `backspace`, `scroll`   the operations;
* `Grid.map`             the same with every cell mapped; it commutes with the operations;
* `cell_put`             what was put can be seen;
* `pos_put`              where the cursor goes as long as nothing scrolls;
* `echo_erase`, `row_echo_erase`   characters written and taken back, within a line and beyond its end.
-/

structure Grid (α : Type*) where
  cell : Nat → Nat → α
  row : Nat
  col : Nat

namespace Grid
variable {α β : Type*}

def write (g : Grid α) (x : α) : Grid α :=
  { g with cell := fun i j => if i = g.row ∧ j = g.col then x else g.cell i j }

def newline (g : Grid α) : Grid α := { g with row := g.row + 1, col := 0 }

def moveTo (g : Grid α) (cols col : Nat) : Grid α :=
  if cols ≤ col then g.newline else { g with col := col }

/-- every row moves up by one, and the last becomes `blank` -/
def scroll (g : Grid α) (rows : Nat) (blank : α) : Grid α :=
  if g.row < rows then g
  else { g with
    cell := fun i j => if i + 1 < rows then g.cell (i + 1) j else if i + 1 = rows then blank
      else g.cell i j
    row := rows - 1 }

/-- a cell at the cursor, which moves on -/
def put (g : Grid α) (rows cols : Nat) (blank x : α) : Grid α :=
  ((g.write x).moveTo cols (g.col + 1)).scroll rows blank

def backspace (g : Grid α) (blank : α) : Grid α :=
  if 0 < g.col then { g with col := g.col - 1 }.write blank else g

/-- `\b`, a blank, `\b` -/
def erase (g : Grid α) (rows cols : Nat) (blank : α) : Grid α :=
  ((g.backspace blank).put rows cols blank blank).backspace blank

/-- the cursor is on the screen -/
def InScreen (g : Grid α) (rows cols : Nat) : Prop := g.row < rows ∧ g.col < cols

/-- the cells are numbered row by row -/
def pos (g : Grid α) (cols : Nat) : Nat := cols * g.row + g.col

/-! ## mapping the cells -/

def map (f : α → β) (g : Grid α) : Grid β := ⟨fun i j => f (g.cell i j), g.row, g.col⟩

section
variable (f : α → β) (g : Grid α) (rows cols : Nat) (blank x : α)

theorem map_write : (g.write x).map f = (g.map f).write (f x) := by
  unfold map write
  congr 1
  funext i j
  dsimp only
  split
  · rfl
  · rfl

theorem map_moveTo (col : Nat) : (g.moveTo cols col).map f = (g.map f).moveTo cols col := by
  unfold moveTo
  split
  · rfl
  · rfl

theorem map_scroll : (g.scroll rows blank).map f = (g.map f).scroll rows (f blank) := by
  by_cases h : g.row < rows
  · have h' : (g.map f).row < rows := h
    rw [scroll, if_pos h, scroll, if_pos h']
  · have h' : ¬ (g.map f).row < rows := h
    rw [scroll, if_neg h, scroll, if_neg h']
    unfold map
    congr 1
    funext i j
    dsimp only
    split
    · rfl
    · split
      · rfl
      · rfl

theorem map_backspace : (g.backspace blank).map f = (g.map f).backspace (f blank) := by
  by_cases h : 0 < g.col
  · have h' : 0 < (g.map f).col := h
    rw [backspace, if_pos h, backspace, if_pos h', map_write]
    rfl
  · have h' : ¬ 0 < (g.map f).col := h
    rw [backspace, if_neg h, backspace, if_neg h']

end

theorem row_scroll (g : Grid α) {rows : Nat} (hrows : 0 < rows) (blank : α) :
    (g.scroll rows blank).row < rows := by
  unfold scroll
  split
  · assumption
  · exact Nat.sub_lt hrows Nat.one_pos

theorem row_backspace (g : Grid α) (blank : α) : (g.backspace blank).row = g.row := by
  unfold backspace
  split
  · rfl
  · rfl

theorem row_erase (g : Grid α) {rows : Nat} (hrows : 0 < rows) (cols : Nat) (blank : α) :
    (g.erase rows cols blank).row < rows := by
  unfold erase
  rw [row_backspace]
  exact row_scroll _ hrows blank

/-- the cell that was put is on the screen, also if the rows have moved -/
theorem cell_put {g : Grid α} {rows cols : Nat} (h : g.InScreen rows cols) (hrows : 1 < rows) :
    ∃ i < rows, ∃ j < cols, ∀ blank x : α, (g.put rows cols blank x).cell i j = x := by
  obtain ⟨hrow, hcol⟩ := h
  have hwrite : ∀ (x : α) (col : Nat), ((g.write x).moveTo cols col).cell g.row g.col = x := by
    intro x col
    unfold moveTo
    split
    · exact if_pos ⟨rfl, rfl⟩
    · exact if_pos ⟨rfl, rfl⟩
  have hnext : ∀ x : α, ((g.write x).moveTo cols (g.col + 1)).row =
      if cols ≤ g.col + 1 then g.row + 1 else g.row := by
    intro x
    unfold moveTo
    split
    · rfl
    · rfl
  by_cases hin : (if cols ≤ g.col + 1 then g.row + 1 else g.row) < rows
  · refine ⟨g.row, hrow, g.col, hcol, fun blank x => ?_⟩
    unfold put scroll
    rw [hnext, if_pos hin]
    exact hwrite x _
  · have hlast : g.row + 1 = rows := by
      split at hin
      · omega
      · exact absurd hrow hin
    refine ⟨g.row - 1, by omega, g.col, hcol, fun blank x => ?_⟩
    unfold put scroll
    rw [hnext, if_neg hin]
    dsimp only
    rw [if_pos (by omega), show g.row - 1 + 1 = g.row by omega]
    exact hwrite x _

/-! ## within a line -/

section
variable {g : Grid α} {rows cols : Nat} (blank : α) {x : α}

/-- before the last column -/
theorem put_inLine (hrow : g.row < rows) (hcol : g.col + 1 < cols) :
    g.put rows cols blank x = { g.write x with col := g.col + 1 } := by
  unfold put moveTo
  rw [if_neg (Nat.not_le.mpr hcol)]
  exact if_pos hrow

/-- the cell left of the cursor becomes blank -/
theorem erase_inLine (hrow : g.row < rows) (h0 : 0 < g.col) (hcol : g.col < cols) :
    g.erase rows cols blank = { g with col := g.col - 1 }.write blank := by
  have hback : g.backspace blank = { g with col := g.col - 1 }.write blank := if_pos h0
  have hrow' : (g.backspace blank).row < rows := by rw [hback]; exact hrow
  have hcol' : (g.backspace blank).col + 1 = g.col := by
    rw [hback]
    exact Nat.sub_add_cancel h0
  unfold erase
  rw [put_inLine blank hrow' (by omega), hcol', backspace]
  have h0' : 0 < ({ (g.backspace blank).write blank with col := g.col } : Grid α).col := h0
  rw [if_pos h0', hback]
  unfold write
  congr 1
  funext i j
  dsimp only
  split
  · rfl
  · rfl

/-- in column 0 the cursor stays, and the cell there becomes blank -/
theorem erase_atStart (hrow : g.row < rows) (h0 : g.col = 0) (hcols : 1 < cols) :
    (g.erase rows cols blank).row = g.row ∧ (g.erase rows cols blank).col = 0 := by
  have hback : g.backspace blank = g := if_neg (by omega)
  unfold erase
  rw [hback, put_inLine blank hrow (by omega), backspace, if_pos (Nat.succ_pos _)]
  exact ⟨rfl, h0⟩

/-! ## characters written and taken back -/

def echo (g : Grid α) (rows cols : Nat) (blank : α) (xs : List α) : Grid α :=
  xs.foldl (fun g x => g.put rows cols blank x) g

def eraseN (rows cols : Nat) (blank : α) : Nat → Grid α → Grid α
  | 0, g => g
  | n+1, g => eraseN rows cols blank n (g.erase rows cols blank)

/-- as long as nothing scrolls, the cursor goes from cell to cell -/
theorem pos_put (h : g.InScreen rows cols) (hroom : g.pos cols + 1 < rows * cols) :
    (g.put rows cols blank x).InScreen rows cols ∧ (g.put rows cols blank x).pos cols = g.pos cols + 1 := by
  obtain ⟨hrow, hcol⟩ := h
  have hcols : 0 < cols := Nat.zero_lt_of_lt hcol
  unfold pos at hroom ⊢
  by_cases hend : g.col + 1 < cols
  · rw [put_inLine blank hrow hend]
    exact ⟨⟨hrow, hend⟩, rfl⟩
  · have hnext : cols * (g.row + 1) = cols * g.row + g.col + 1 := by
      rw [Nat.mul_succ]
      omega
    have hrow' : g.row + 1 < rows := by
      rw [← hnext, Nat.mul_comm rows] at hroom
      exact Nat.lt_of_mul_lt_mul_left hroom
    have hput : g.put rows cols blank x = (g.write x).newline := by
      unfold put moveTo
      rw [if_pos (by omega)]
      exact if_pos hrow'
    rw [hput]
    exact ⟨⟨hrow', hcols⟩, hnext⟩

theorem pos_echo (h : g.InScreen rows cols) {xs : List α} (hroom : g.pos cols + xs.length < rows * cols) :
    (g.echo rows cols blank xs).InScreen rows cols ∧
      (g.echo rows cols blank xs).pos cols = g.pos cols + xs.length := by
  induction xs generalizing g with
  | nil => exact ⟨h, rfl⟩
  | cons x xs ih =>
    rw [List.length_cons] at hroom ⊢
    obtain ⟨h1, h2⟩ := pos_put blank (x := x) h (by omega)
    obtain ⟨h3, h4⟩ := ih h1 (by omega)
    refine ⟨h3, h4.trans ?_⟩
    omega

theorem echo_inLine (hrow : g.row < rows) {xs : List α} (hcol : g.col + xs.length < cols) :
    (g.echo rows cols blank xs).row = g.row ∧ (g.echo rows cols blank xs).col = g.col + xs.length ∧
      ∀ i j, i ≠ g.row ∨ j < g.col ∨ g.col + xs.length ≤ j →
        (g.echo rows cols blank xs).cell i j = g.cell i j := by
  induction xs generalizing g with
  | nil => exact ⟨rfl, rfl, fun _ _ _ => rfl⟩
  | cons x xs ih =>
    rw [List.length_cons] at hcol ⊢
    have hput : g.put rows cols blank x = { g.write x with col := g.col + 1 } :=
      put_inLine blank hrow (by omega)
    obtain ⟨h1, h2, h3⟩ := @ih { g.write x with col := g.col + 1 } hrow
      (show g.col + 1 + xs.length < cols by omega)
    have hfirst : g.echo rows cols blank (x :: xs) =
        ({ g.write x with col := g.col + 1 } : Grid α).echo rows cols blank xs := by
      rw [← hput]
      rfl
    rw [hfirst]
    refine ⟨h1, h2.trans (by dsimp only; omega), fun i j hij => ?_⟩
    rw [h3 i j (show i ≠ g.row ∨ j < g.col + 1 ∨ g.col + 1 + xs.length ≤ j by omega)]
    exact if_neg (by omega)

theorem eraseN_inLine (hrow : g.row < rows) {n : Nat} (hn : n ≤ g.col) (hcol : g.col < cols) :
    (eraseN rows cols blank n g).row = g.row ∧ (eraseN rows cols blank n g).col = g.col - n ∧
      ∀ i j, (eraseN rows cols blank n g).cell i j =
        if i = g.row ∧ g.col - n ≤ j ∧ j < g.col then blank else g.cell i j := by
  induction n generalizing g with
  | zero =>
    refine ⟨rfl, rfl, fun i j => ?_⟩
    rw [if_neg (by omega)]
    rfl
  | succ n ih =>
    have herase := erase_inLine blank hrow (by omega) hcol
    obtain ⟨h1, h2, h3⟩ := @ih ({ g with col := g.col - 1 }.write blank) hrow
      (show n ≤ g.col - 1 by omega) (show g.col - 1 < cols by omega)
    have hfirst : eraseN rows cols blank (n + 1) g =
        eraseN rows cols blank n ({ g with col := g.col - 1 }.write blank) := by
      rw [← herase]
      rfl
    rw [hfirst]
    refine ⟨h1, h2.trans ?_, fun i j => ?_⟩
    · show g.col - 1 - n = g.col - (n + 1)
      omega
    · rw [h3]
      show (if i = g.row ∧ g.col - 1 - n ≤ j ∧ j < g.col - 1 then blank
        else if i = g.row ∧ j = g.col - 1 then blank else g.cell i j) = _
      by_cases hin : i = g.row ∧ g.col - 1 - n ≤ j ∧ j < g.col - 1
      · rw [if_pos hin, if_pos (by omega)]
      · rw [if_neg hin]
        by_cases hat : i = g.row ∧ j = g.col - 1
        · rw [if_pos hat, if_pos (by omega)]
        · rw [if_neg hat, if_neg (by omega)]

/-- Within a line, erasing brings the cursor back and leaves blanks. -/
theorem echo_erase (hrow : g.row < rows) {xs : List α} (hcol : g.col + xs.length < cols) :
    let g' := eraseN rows cols blank xs.length (g.echo rows cols blank xs)
    g'.row = g.row ∧ g'.col = g.col ∧ ∀ i j, g'.cell i j =
      if i = g.row ∧ g.col ≤ j ∧ j < g.col + xs.length then blank else g.cell i j := by
  obtain ⟨h1, h2, h3⟩ := echo_inLine blank hrow hcol
  obtain ⟨h4, h5, h6⟩ := eraseN_inLine blank (n := xs.length) (h1.trans_lt hrow)
    (by omega) (h2.trans_lt hcol)
  refine ⟨h4.trans h1, h5.trans (by omega), fun i j => ?_⟩
  rw [h6, h1, h2, Nat.add_sub_cancel]
  by_cases hin : i = g.row ∧ g.col ≤ j ∧ j < g.col + xs.length
  · rw [if_pos hin, if_pos hin]
  · rw [if_neg hin, if_neg hin]
    exact h3 i j (by omega)

/-- erasing stays in the row -/
theorem row_eraseN (h : g.InScreen rows cols) (hcols : 1 < cols) (n : Nat) :
    (eraseN rows cols blank n g).row = g.row := by
  induction n generalizing g with
  | zero => rfl
  | succ n ih =>
    obtain ⟨hrow, hcol⟩ := h
    have herase : (g.erase rows cols blank).row = g.row ∧ (g.erase rows cols blank).col < cols := by
      by_cases h0 : g.col = 0
      · obtain ⟨h1, h2⟩ := erase_atStart blank hrow h0 hcols
        rw [h2]
        exact ⟨h1, by omega⟩
      · rw [erase_inLine blank hrow (by omega) hcol]
        exact ⟨rfl, lt_of_le_of_lt (Nat.sub_le _ _) hcol⟩
    exact (ih ⟨herase.1.trans_lt hrow, herase.2⟩).trans herase.1

/-- Beyond the end of a line, the cursor does not come back. -/
theorem row_echo_erase (h : g.InScreen rows cols) (hcols : 1 < cols) {xs : List α}
    (hroom : g.pos cols + xs.length < rows * cols) (hwrap : cols ≤ g.col + xs.length) (n : Nat) :
    g.row < (eraseN rows cols blank n (g.echo rows cols blank xs)).row := by
  obtain ⟨h1, h2⟩ := pos_echo blank h hroom
  rw [row_eraseN blank h1 hcols]
  have hcol := h1.2
  unfold pos at h2
  by_contra hle
  have hmul : cols * (g.echo rows cols blank xs).row ≤ cols * g.row :=
    Nat.mul_le_mul_left _ (Nat.le_of_not_lt hle)
  omega

end

end Grid
