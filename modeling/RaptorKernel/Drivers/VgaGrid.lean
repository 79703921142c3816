import RaptorKernel.Drivers.Vga
import RaptorKernel.Theory.Grid

/-!
# drivers/vga.c: whole cells

A cell of the screen is a character and an attribute.  `Pictures v g`: the screen shows the cells of
the scrolling grid `g`, with the cursor in place.

* `cellAttr`           the attribute that `cell` stores: a `char` from `0x80` on is negative, and its
                       sign covers the attribute;
* `gridPutc`           one character on a grid;
* `vgaPutc_pictures`, `vgaClear_pictures`   the driver does the same;
* `AttrsFollow`        every cell has the colour in effect when it was written;
* `attrsFollow_iff`    when that is so after every call.
-/

namespace Raptor
open Mem

def Vga.attr (v : Vga) (i j : Nat) : UInt8 := v.mem (vgaMem + 2 * (vgaCols * i + j) + 1)

/-- the high byte of `cell(c, attr)` -/
def cellAttr (c attr : UInt8) : UInt8 := if c < 128 then attr else 0xFF

/-! ## characters on a grid -/

section
variable {α β : Type} (g : Grid α) (blank x : α) (c : UInt8)

/-- `x` is the cell that an ordinary character becomes -/
def gridAdvance : Grid α :=
  if c = '\n'.toUInt8 then g.newline
  else if c = '\r'.toUInt8 then { g with col := 0 }
  else if c = 8 then g.backspace blank
  else if c = '\t'.toUInt8 then g.moveTo vgaCols ((g.col + 8) / 8 * 8)
  else (g.write x).moveTo vgaCols (g.col + 1)

def gridPutc : Grid α := (gridAdvance g blank x c).scroll vgaRows blank

theorem map_gridPutc (f : α → β) :
    (gridPutc g blank x c).map f = gridPutc (g.map f) (f blank) (f x) c := by
  unfold gridPutc
  rw [Grid.map_scroll]
  congr 1
  unfold gridAdvance
  split
  · rfl
  split
  · rfl
  split
  · exact g.map_backspace f blank
  split
  · exact g.map_moveTo f vgaCols _
  · rw [Grid.map_moveTo, Grid.map_write]
    rfl

variable {g blank x c}

/-- no control character -/
theorem gridPutc_put (hc : 0x20 ≤ c) : gridPutc g blank x c = g.put vgaRows vgaCols blank x := by
  have hne : ∀ d : UInt8, d < 0x20 → c ≠ d := by
    intro d hd e
    rw [e] at hc
    exact UInt8.not_le.mpr hd hc
  unfold gridPutc gridAdvance
  rw [if_neg (hne _ (by decide)), if_neg (hne _ (by decide)), if_neg (hne _ (by decide)),
    if_neg (hne _ (by decide))]
  rfl

theorem gridPutc_backspace (hrow : g.row < vgaRows) : gridPutc g blank x 8 = g.backspace blank := by
  have hadv : gridAdvance g blank x 8 = g.backspace blank := rfl
  unfold gridPutc
  rw [hadv]
  exact if_pos ((g.row_backspace blank).trans_lt hrow)

end

/-- all cells blank, and the cursor in the corner -/
def clearedGrid {α : Type} (blank : α) : Grid α := ⟨fun _ _ => blank, 0, 0⟩

/-! ## the screen shows a grid -/

/-- the cells, with the cursor possibly below the screen -/
structure PicturesRows (v : Vga) (g : Grid (UInt8 × UInt8)) : Prop where
  row : v.curRow = g.row
  col : v.curCol = g.col
  col_lt : g.col < vgaCols
  cells : ∀ i < vgaRows, ∀ j < vgaCols, (v.char i j, v.attr i j) = g.cell i j

structure Pictures (v : Vga) (g : Grid (UInt8 × UInt8)) : Prop extends PicturesRows v g where
  row_lt : g.row < vgaRows

theorem vgaCell_attr (c attr : UInt8) : (vgaCell c attr >>> 8).toUInt8 = cellAttr c attr := by
  have hlow : ∀ b : Fin 256, (UInt8.ofFin b).toUInt16 >>> 8 = 0 ∧
      ((UInt8.ofFin b).toUInt16 <<< 8 >>> 8).toUInt8 = UInt8.ofFin b ∧
      (0xFF : UInt8) ||| UInt8.ofFin b = 0xFF := by decide +kernel
  obtain ⟨hc, _, _⟩ := hlow c.toFin
  obtain ⟨_, hattr, hsign⟩ := hlow attr.toFin
  have hff : ((0xFF00 : UInt16) >>> 8).toUInt8 = 0xFF := rfl
  change c.toUInt16 >>> 8 = 0 at hc
  change (attr.toUInt16 <<< 8 >>> 8).toUInt8 = attr at hattr
  unfold vgaCell cellAttr
  rw [UInt16.shiftRight_or, UInt16.toUInt8_or, hattr]
  split
  · rw [hc]
    exact UInt8.zero_or
  · rw [UInt16.shiftRight_or, hc, UInt16.zero_or, hff]
    exact hsign

/-! ## stores -/

theorem stored_attr (v : Vga) (k : Nat) (x : UInt16) (i j : Nat) :
    (v.stored k x).attr i j = if vgaCols * i + j = k then (x >>> 8).toUInt8 else v.attr i j := by
  unfold Vga.attr Vga.stored
  dsimp only
  by_cases hk : vgaCols * i + j = k
  · rw [if_pos hk, hk]
    exact Function.update_self _ _ _
  · rw [if_neg hk, Function.update_of_ne (by omega)]
    exact Function.update_of_ne (by omega) _ _

theorem vgaFill_attr {x : UInt16} {n k : Nat} (hk : k + n ≤ 2000) {v v' : Vga}
    (h : vgaFill x n k v = .ok v') (i j : Nat) :
    v'.attr i j = if k ≤ vgaCols * i + j ∧ vgaCols * i + j < k + n then (x >>> 8).toUInt8
      else v.attr i j := by
  induction n generalizing k v with
  | zero =>
    cases h
    rw [if_neg (by omega)]
  | succ n ih =>
    unfold vgaFill at h
    rw [vgaStore_ok v (by omega), ok_bind] at h
    rw [ih (k := k + 1) (by omega) h, stored_attr]
    by_cases hin : k + 1 ≤ vgaCols * i + j ∧ vgaCols * i + j < k + 1 + n
    · rw [if_pos hin, if_pos (by omega)]
    · rw [if_neg hin]
      by_cases hat : vgaCols * i + j = k
      · rw [if_pos hat, if_pos (by omega)]
      · rw [if_neg hat, if_neg (by omega)]

/-- the attributes move up with their rows -/
theorem memmove_attrs (m : Mem) {i j : Nat} (hi : i + 1 < vgaRows) (hj : j < vgaCols) :
    memmove m vgaMem (vgaMem + 2 * vgaCols) ((vgaRows - 1) * vgaCols * 2)
      (vgaMem + 2 * (vgaCols * i + j) + 1) = m (vgaMem + 2 * (vgaCols * (i + 1) + j) + 1) := by
  have hc : vgaCols = 80 := rfl
  have hr : vgaRows = 25 := rfl
  have hm : vgaMem = 3221979136 := rfl
  rw [hr] at hi
  rw [hc] at hj
  have e : 3221979136 + 2 * 80 + (3221979136 + 2 * (80 * i + j) + 1 - 3221979136) =
      3221979136 + 2 * (80 * (i + 1) + j) + 1 := by omega
  rw [hc, hr, hm, memmove_apply (by norm_num) (by norm_num), if_pos (by omega), e]

/-! ## one call -/

section
variable {v : Vga} {g : Grid (UInt8 × UInt8)}

theorem PicturesRows.newline (h : PicturesRows v g) :
    PicturesRows { v with curCol := 0, curRow := v.curRow + 1 } g.newline where
  row := by
    show v.curRow + 1 = ((g.row + 1 : Nat) : Int)
    rw [h.row]
    rfl
  col := rfl
  col_lt := show 0 < 80 by decide
  cells := h.cells

/-- the test of the right margin after `cur_col` was set -/
theorem PicturesRows.moveTo (h : PicturesRows v g) (col : Nat) :
    ∃ v', (if (vgaCols : Int) ≤ col then
        .ok { v with curCol := 0, curRow := v.curRow + 1 }
      else .ok { v with curCol := col } : Except Fault Vga) = .ok v' ∧
      v'.color = v.color ∧ PicturesRows v' (g.moveTo vgaCols col) := by
  unfold Grid.moveTo
  by_cases hc : vgaCols ≤ col
  · rw [if_pos (Int.ofNat_le.mpr hc), if_pos hc]
    exact ⟨_, rfl, rfl, h.newline⟩
  · rw [if_neg fun e => hc (Int.ofNat_le.mp e), if_neg hc]
    exact ⟨_, rfl, rfl, h.row, rfl, Nat.lt_of_not_le hc, h.cells⟩

/-- a cell written at the cursor -/
theorem PicturesRows.write (h : PicturesRows v g) (hrow : g.row < vgaRows) (c attr : UInt8) :
    ∃ v', vgaStore v (v.curRow * vgaCols + v.curCol) (vgaCell c attr) = .ok v' ∧
      SameCursor v v' ∧ PicturesRows v' (g.write (c, cellAttr c attr)) := by
  have hidx : v.curRow * vgaCols + v.curCol = ((vgaCols * g.row + g.col : Nat) : Int) := by
    have hc : vgaCols = 80 := rfl
    rw [h.row, h.col, hc]
    omega
  have hlt : vgaCols * g.row + g.col < 2000 := cell_lt hrow h.col_lt
  rw [hidx, vgaStore_ok v hlt]
  refine ⟨_, rfl, ⟨rfl, rfl, rfl⟩, h.row, h.col, h.col_lt, ?_⟩
  intro i hi j hj
  rw [stored_char, stored_attr, vgaCell_char, vgaCell_attr]
  show _ = if i = g.row ∧ j = g.col then (c, cellAttr c attr) else g.cell i j
  by_cases hat : i = g.row ∧ j = g.col
  · have hk := (cell_inj hj h.col_lt).mpr hat
    rw [if_pos hat, if_pos hk, if_pos hk]
  · have hk : ¬ vgaCols * i + j = vgaCols * g.row + g.col := fun e => hat ((cell_inj hj h.col_lt).mp e)
    rw [if_neg hat, if_neg hk, if_neg hk]
    exact h.cells i hi j hj

/-- the `switch` -/
theorem vgaAdvance_pictures (h : Pictures v g) (c : UInt8) :
    ∃ v', vgaAdvance v c = .ok v' ∧ v'.color = v.color ∧
      PicturesRows v' (gridAdvance g (' '.toUInt8, v.color) (c, cellAttr c v.color) c) := by
  have hrows := h.toPicturesRows
  unfold vgaAdvance gridAdvance
  split
  · exact ⟨_, rfl, rfl, hrows.newline⟩
  split
  · exact ⟨_, rfl, rfl, h.row, rfl, show 0 < 80 by decide, h.cells⟩
  split
  · -- backspace
    unfold Grid.backspace
    by_cases hpos : 0 < g.col
    · have hcol : v.curCol - 1 = ((g.col - 1 : Nat) : Int) := by
        rw [h.col]
        omega
      have hback : PicturesRows { v with curCol := v.curCol - 1 } { g with col := g.col - 1 } :=
        ⟨h.row, hcol, lt_of_le_of_lt (Nat.sub_le _ _) h.col_lt, h.cells⟩
      rw [if_pos (by rw [h.col]; omega), if_pos hpos]
      obtain ⟨v', h1, ⟨_, _, h2⟩, h3⟩ := hback.write h.row_lt ' '.toUInt8 v.color
      exact ⟨v', h1, h2, h3⟩
    · rw [if_neg (by rw [h.col]; omega), if_neg hpos]
      exact ⟨v, rfl, rfl, hrows⟩
  split
  · -- tab
    have hcol : (v.curCol + 8) / 8 * 8 = (((g.col + 8) / 8 * 8 : Nat) : Int) := by
      rw [h.col]
      omega
    dsimp only
    rw [hcol]
    exact hrows.moveTo _
  · obtain ⟨v1, h1, ⟨_, hcol1, hcolor1⟩, h2⟩ := hrows.write h.row_lt c v.color
    have hcol : v1.curCol + 1 = ((g.col + 1 : Nat) : Int) := by
      rw [hcol1, h.col]
      rfl
    rw [h1, ok_bind]
    dsimp only
    rw [hcol]
    obtain ⟨v2, h3, h4, h5⟩ := h2.moveTo (g.col + 1)
    exact ⟨v2, h3, h4.trans hcolor1, h5⟩

theorem row_gridAdvance {α : Type} (g : Grid α) (blank x : α) (c : UInt8) :
    (gridAdvance g blank x c).row ≤ g.row + 1 := by
  have hmove : ∀ (g : Grid α) (col : Nat), (g.moveTo vgaCols col).row ≤ g.row + 1 := by
    intro g col
    unfold Grid.moveTo
    split
    · exact Nat.le_refl _
    · exact Nat.le_succ _
  unfold gridAdvance
  split
  · exact Nat.le_refl _
  split
  · exact Nat.le_succ _
  split
  · unfold Grid.backspace
    split
    · exact Nat.le_succ _
    · exact Nat.le_succ _
  split
  · exact hmove g _
  · exact hmove (g.write x) _

theorem scrollIfNeeded_pictures (h : PicturesRows v g) (hrow : g.row ≤ vgaRows) :
    ∃ v', scrollIfNeeded v = .ok v' ∧ v'.color = v.color ∧
      Pictures v' (g.scroll vgaRows (' '.toUInt8, v.color)) := by
  have hc : vgaCols = 80 := rfl
  have hr : vgaRows = 25 := rfl
  have hn : (vgaRows - 1) * vgaCols = 1920 := rfl
  unfold scrollIfNeeded Grid.scroll
  by_cases hin : g.row < vgaRows
  · rw [if_pos (by rw [h.row]; exact Int.ofNat_lt.mpr hin), if_pos hin]
    exact ⟨v, rfl, rfl, h, hin⟩
  rw [if_neg (by rw [h.row]; omega), if_neg hin]
  dsimp only
  generalize hv1 : ({ v with
    mem := memmove v.mem vgaMem (vgaMem + 2 * vgaCols) ((vgaRows - 1) * vgaCols * 2) } : Vga) = v1
  have hmem : v1.mem = memmove v.mem vgaMem (vgaMem + 2 * vgaCols) ((vgaRows - 1) * vgaCols * 2) := by
    rw [← hv1]
  have hcolor : v.color = v1.color := by rw [← hv1]
  have hmoved : ∀ i j, i + 1 < vgaRows → j < vgaCols →
      v1.char i j = v.char (i + 1) j ∧ v1.attr i j = v.attr (i + 1) j := by
    intro i j hi hj
    unfold Vga.char Vga.attr
    rw [hmem]
    exact ⟨memmove_rows v.mem hi hj, memmove_attrs v.mem hi hj⟩
  have hfit : (vgaRows - 1) * vgaCols + vgaCols ≤ 2000 := by omega
  obtain ⟨v2, h1, ⟨_, hcol, hcolor2⟩, _, hchar⟩ :=
    vgaFill_spec (vgaCell ' '.toUInt8 v1.color) hfit v1
  have hattr := vgaFill_attr hfit h1
  have hsp : cellAttr ' '.toUInt8 v1.color = v1.color := if_pos (by decide)
  rw [hcolor, h1, ok_bind]
  refine ⟨_, rfl, hcolor2, ⟨?_, ?_, h.col_lt, ?_⟩, ?_⟩
  · show (vgaRows : Int) - 1 = ((vgaRows - 1 : Nat) : Int)
    rw [hr]
    rfl
  · show v2.curCol = g.col
    rw [hcol, ← hv1]
    exact h.col
  · intro i hi j hj
    show (v2.char i j, v2.attr i j) = if i + 1 < vgaRows then g.cell (i + 1) j
      else if i + 1 = vgaRows then (' '.toUInt8, v1.color) else g.cell i j
    rw [hchar, hattr, vgaCell_char, vgaCell_attr, hsp, hn, hc]
    rw [hc] at hj
    by_cases hlast : i + 1 < vgaRows
    · obtain ⟨h2, h3⟩ := hmoved i j hlast hj
      have hk : ¬ (1920 ≤ 80 * i + j ∧ 80 * i + j < 1920 + 80) := by omega
      rw [if_pos hlast, if_neg hk, if_neg hk, h2, h3]
      exact h.cells (i + 1) hlast j hj
    · have hk : 1920 ≤ 80 * i + j ∧ 80 * i + j < 1920 + 80 := by omega
      rw [if_neg hlast, if_pos (show i + 1 = vgaRows by omega), if_pos hk, if_pos hk]
  · show vgaRows - 1 < vgaRows
    decide

/-- one character -/
theorem vgaPutc_pictures (h : Pictures v g) (c : UInt8) :
    ∃ v', vgaPutc v c = .ok v' ∧ v'.color = v.color ∧
      Pictures v' (gridPutc g (' '.toUInt8, v.color) (c, cellAttr c v.color) c) := by
  obtain ⟨v1, h1, hcolor1, h2⟩ := vgaAdvance_pictures h c
  have hrow := row_gridAdvance g (' '.toUInt8, v.color) (c, cellAttr c v.color) c
  obtain ⟨v2, h3, hcolor2, h4⟩ := scrollIfNeeded_pictures h2 (hrow.trans h.row_lt)
  rw [hcolor1] at h4
  refine ⟨moveHwCursor v2, ?_, hcolor2.trans hcolor1, ⟨h4.row, h4.col, h4.col_lt, h4.cells⟩, h4.row_lt⟩
  unfold vgaPutc
  rw [h1, ok_bind, h3, ok_bind]

theorem vgaClear_pictures (v : Vga) : ∃ v', vgaClear v = .ok v' ∧ v'.color = v.color ∧
    Pictures v' (clearedGrid (' '.toUInt8, v.color)) := by
  obtain ⟨v1, h1, ⟨_, _, hcolor⟩, _, hchar⟩ := vgaFill_spec (vgaCell ' '.toUInt8 v.color)
    (n := vgaCols * vgaRows) (k := 0) (by decide) v
  have hattr := vgaFill_attr (k := 0) (n := vgaCols * vgaRows) (by decide) h1
  have hsp : cellAttr ' '.toUInt8 v.color = v.color := if_pos (by decide)
  have h1' : vgaFill (vgaCell ' '.toUInt8 v.color) (vgaCols * vgaRows) 0 v = .ok v1 := h1
  unfold vgaClear
  rw [h1', ok_bind]
  refine ⟨_, rfl, hcolor, ⟨rfl, rfl, show 0 < 80 by decide, ?_⟩, show 0 < 25 by decide⟩
  intro i hi j hj
  have hk : 0 ≤ vgaCols * i + j ∧ vgaCols * i + j < 0 + vgaCols * vgaRows := by
    have := cell_lt hi hj
    omega
  show (v1.char i j, v1.attr i j) = (' '.toUInt8, v.color)
  rw [hchar, hattr, vgaCell_char, vgaCell_attr, hsp, if_pos hk, if_pos hk]

end

/-! ## every sequence of calls -/

/-- a grid, and the colour in effect -/
structure Painted (α : Type) where
  grid : Grid α
  color : UInt8

def Painted.map {α β : Type} (f : α → β) (p : Painted α) : Painted β := ⟨p.grid.map f, p.color⟩

section
variable {α : Type} (ink : UInt8 → UInt8 → α)

/-- `ink c color`: the cell for the character `c` -/
def Painted.call (p : Painted α) : VgaCall → Painted α
  | .putc c => { p with grid := gridPutc p.grid (ink ' '.toUInt8 p.color) (ink c p.color) c }
  | .setColor c => { p with color := c }
  | .clear => { p with grid := clearedGrid (ink ' '.toUInt8 p.color) }

/-- after `vga_init` and `calls` -/
def painted (color : UInt8) (calls : List VgaCall) : Painted α :=
  calls.foldl (Painted.call ink) ⟨clearedGrid (ink ' '.toUInt8 color), color⟩

theorem call_putc (p : Painted α) (c : UInt8) : (p.call ink (.putc c)).grid =
    gridPutc p.grid (ink ' '.toUInt8 p.color) (ink c p.color) c := rfl

theorem painted_snoc (color : UInt8) (calls : List VgaCall) (call : VgaCall) :
    painted ink color (calls ++ [call]) = (painted ink color calls).call ink call := by
  unfold painted
  rw [List.foldl_append]
  rfl

end

/-- what the driver stores -/
def storedInk (c color : UInt8) : UInt8 × UInt8 := (c, cellAttr c color)

/-- the colour in effect, for every character -/
def colorInk (_ color : UInt8) : UInt8 := color

def colorCall (color : UInt8) : VgaCall → UInt8
  | .setColor c => c
  | _ => color

def colorAfter (color : UInt8) (calls : List VgaCall) : UInt8 := calls.foldl colorCall color

/-- every cell has the colour in effect when it was last written, cleared, erased or blanked -/
def AttrsFollow (v : Vga) (color : UInt8) (calls : List VgaCall) : Prop :=
  ∀ i < vgaRows, ∀ j < vgaCols, v.attr i j = (painted colorInk color calls).grid.cell i j

theorem color_painted {α : Type} (ink : UInt8 → UInt8 → α) (color : UInt8) (calls : List VgaCall) :
    (painted ink color calls).color = colorAfter color calls := by
  induction calls using List.reverseRecOn with
  | nil => rfl
  | append_singleton calls call ih =>
    rw [painted_snoc]
    unfold colorAfter at ih ⊢
    rw [List.foldl_append, ← ih]
    cases call with
    | putc c => rfl
    | setColor c => rfl
    | clear => rfl

/-- The driver paints the grid. -/
theorem exec_pictures {v : Vga} {p : Painted (UInt8 × UInt8)} (h : Pictures v p.grid)
    (hcolor : v.color = p.color) (calls : List VgaCall) :
    ∃ v', vgaMachine.exec v calls = .ok v' ∧
      Pictures v' (calls.foldl (Painted.call storedInk) p).grid := by
  have hrun := Machine.exec_simulates (M := vgaMachine) (f := Painted.call storedInk)
    (R := fun v p => v.color = p.color ∧ Pictures v p.grid) ?_ ⟨hcolor, h⟩
    (show ∀ u, ∀ i ∈ calls, vgaMachine.legal u i from fun _ _ _ => trivial)
  · obtain ⟨v', h1, _, h2⟩ := hrun
    exact ⟨v', h1, h2⟩
  · intro v ⟨g, color⟩ call _ ⟨hc, hp⟩
    change v.color = color at hc
    subst hc
    cases call with
    | putc c =>
      obtain ⟨v', h1, h2, h3⟩ := vgaPutc_pictures hp c
      exact ⟨v', h1, h2, h3⟩
    | setColor c => exact ⟨_, rfl, rfl, ⟨hp.row, hp.col, hp.col_lt, hp.cells⟩, hp.row_lt⟩
    | clear =>
      obtain ⟨v', h1, h2, h3⟩ := vgaClear_pictures v
      exact ⟨v', h1, h2, h3⟩

theorem vgaMachine_pictures (v0 : Vga) (calls : List VgaCall) :
    ∃ v1 v, vgaInit v0 = .ok v1 ∧ vgaMachine.exec v1 calls = .ok v ∧
      Pictures v (painted storedInk v0.color calls).grid := by
  obtain ⟨v1, h1, hcolor, h2⟩ := vgaClear_pictures v0
  obtain ⟨v, h3, h4⟩ := exec_pictures (p := ⟨clearedGrid (storedInk ' '.toUInt8 v0.color), v0.color⟩)
    h2 hcolor calls
  exact ⟨v1, v, h1, h3, h4⟩

theorem Pictures.attr {v : Vga} {g : Grid (UInt8 × UInt8)} (h : Pictures v g) {i j : Nat}
    (hi : i < vgaRows) (hj : j < vgaCols) : v.attr i j = (g.map Prod.snd).cell i j :=
  congrArg Prod.snd (h.cells i hi j hj)

/-- the character keeps the colour -/
def KeepsColor (color : UInt8) (call : VgaCall) : Prop :=
  ∀ c, call = .putc c → c < 0x80 ∨ color = 0xFF

theorem map_call {p : Painted (UInt8 × UInt8)} {call : VgaCall} (h : KeepsColor p.color call) :
    (p.call storedInk call).map Prod.snd = (p.map Prod.snd).call colorInk call := by
  cases call with
  | putc c =>
    have hink : cellAttr c p.color = p.color := by
      unfold cellAttr
      rcases h c rfl with hc | hc
      · exact if_pos hc
      · rw [hc]
        split
        · rfl
        · rfl
    unfold Painted.map Painted.call
    rw [map_gridPutc]
    unfold storedInk colorInk
    rw [hink]
    rfl
  | setColor c => rfl
  | clear => rfl

theorem map_painted {color : UInt8} {calls : List VgaCall}
    (h : ∀ pre call, pre ++ [call] <+: calls → KeepsColor (colorAfter color pre) call) :
    (painted storedInk color calls).map Prod.snd = painted colorInk color calls := by
  induction calls using List.reverseRecOn with
  | nil => rfl
  | append_singleton calls call ih =>
    have hlast := h calls call (List.prefix_refl _)
    rw [← color_painted storedInk] at hlast
    rw [painted_snoc, painted_snoc, map_call hlast,
      ih fun pre call' hp => h pre call' (hp.trans (List.prefix_append _ _))]

/-- It can be seen at once. -/
theorem not_attrsFollow {v : Vga} {color : UInt8} {calls : List VgaCall} {c : UInt8}
    (hsame : (painted storedInk color calls).map Prod.snd = painted colorInk color calls)
    {v0 : Vga} (hp0 : Pictures v0 (painted storedInk color calls).grid)
    (hp : Pictures v (painted storedInk color (calls ++ [.putc c])).grid) (hc : ¬ c < 0x80)
    (hff : colorAfter color calls ≠ 0xFF) : ¬ AttrsFollow v color (calls ++ [.putc c]) := by
  intro hfollow
  have hprint : 0x20 ≤ c := UInt8.le_trans (by decide) (UInt8.not_lt.mp hc)
  rw [← color_painted colorInk] at hff
  generalize hq : painted colorInk color calls = q at hsame hff
  have hscreen : q.grid.InScreen vgaRows vgaCols := by
    rw [← hsame]
    exact ⟨hp0.row_lt, hp0.col_lt⟩
  obtain ⟨i, hi, j, hj, hcell⟩ := Grid.cell_put hscreen (by decide)
  have hcolor : (painted storedInk color calls).color = q.color := by rw [← hsame]; rfl
  have hgrid : (painted storedInk color calls).grid.map Prod.snd = q.grid := by rw [← hsame]; rfl
  have hink : cellAttr c q.color = 0xFF := if_neg hc
  have hreal : v.attr i j = 0xFF := by
    rw [hp.attr hi hj, painted_snoc, call_putc, map_gridPutc, gridPutc_put hprint, hgrid, hcolor,
      hcell]
    exact hink
  have hideal := hfollow i hi j hj
  rw [painted_snoc, hq, call_putc, gridPutc_put hprint, hcell, hreal] at hideal
  exact hff hideal.symm

/-- The attributes are right after all calls made so far, and always were, if and only if every
character written was below `0x80` or the colour was `0xFF`. -/
theorem attrsFollow_iff (v0 : Vga) (calls : List VgaCall) :
    (∀ pre, pre <+: calls → ∃ v1 v, vgaInit v0 = .ok v1 ∧ vgaMachine.exec v1 pre = .ok v ∧
        AttrsFollow v v0.color pre) ↔
      ∀ pre c, pre ++ [.putc c] <+: calls → c < 0x80 ∨ colorAfter v0.color pre = 0xFF := by
  constructor
  · intro h
    induction calls using List.reverseRecOn with
    | nil =>
      intro pre c hp
      exact absurd (List.prefix_nil.mp hp) (by simp)
    | append_singleton calls call ih =>
      have hbefore := ih fun pre hp => h pre (hp.trans (List.prefix_append _ _))
      intro pre c hp
      rcases List.prefix_concat_iff.mp hp with hp | hp
      · obtain ⟨rfl, hcall⟩ := List.append_inj' hp rfl
        obtain rfl : VgaCall.putc c = call := by simpa using hcall
        by_contra hbad
        obtain ⟨hc, hff⟩ := not_or.mp hbad
        obtain ⟨v1, v2, h1, h2, h3⟩ := h _ (List.prefix_refl _)
        obtain ⟨v1', v2', h1', h2', h3'⟩ := vgaMachine_pictures v0 (pre ++ [.putc c])
        cases h1.symm.trans h1'
        cases h2.symm.trans h2'
        obtain ⟨_, v3, _, _, h6⟩ := vgaMachine_pictures v0 pre
        refine not_attrsFollow (map_painted ?_) h6 h3' hc hff h3
        intro pre' call hp' c' hcall
        rw [hcall] at hp'
        exact hbefore pre' c' hp'
      · exact hbefore pre c hp
  · intro h pre hp
    obtain ⟨v1, v, h1, h2, h3⟩ := vgaMachine_pictures v0 pre
    have hmap : (painted storedInk v0.color pre).map Prod.snd = painted colorInk v0.color pre := by
      apply map_painted
      intro pre' call hp' c hcall
      rw [hcall] at hp'
      exact h pre' c (hp'.trans hp)
    refine ⟨v1, v, h1, h2, fun i hi j hj => ?_⟩
    rw [h3.attr hi hj, ← hmap]
    rfl

/-- the variables as they are initialised, and a screen of zeros -/
def Vga.boot : Vga := ⟨fun _ => 0, 0, 0, 0x07, 0, 0⟩

/-- `0x80`, written in light grey on black -/
theorem not_attrsFollow_high : ¬ ∃ v1 v, vgaInit .boot = .ok v1 ∧
    vgaMachine.exec v1 [.putc 0x80] = .ok v ∧ AttrsFollow v 0x07 [.putc 0x80] := by
  intro ⟨v1, v, h1, h2, h3⟩
  obtain ⟨v1', v', h1', h2', h3'⟩ := vgaMachine_pictures .boot [.putc 0x80]
  cases h1.symm.trans h1'
  cases h2.symm.trans h2'
  obtain ⟨_, v0, _, _, h0⟩ := vgaMachine_pictures .boot []
  have hsame : (painted storedInk 0x07 []).map Prod.snd = painted colorInk 0x07 [] := rfl
  exact not_attrsFollow hsame h0 h3' (by decide) (by decide) h3

end Raptor
