import RaptorKernel.Lib.StringC
import RaptorKernel.Theory.Terminal
import RaptorKernel.Theory.Run

/-!
# drivers/vga.c

The text screen: 80x25 cells of two bytes in the byte memory, the character first and then its
attribute.

* `vgaPutc`, `vgaClear`, `scrollIfNeeded`   the driver; a cell outside the screen is a fault;
* `Shows`         the screen is the last 25 rows of an unbounded terminal;
* `vga_window`    it is, after every sequence of calls.
-/

namespace Raptor
open Mem

/-- `P2V(0xB8000)` -/
def vgaMem : Nat := 0xC00B8000
def vgaCols : Nat := 80
def vgaRows : Nat := 25

/-- the memory, the static variables, and the two cursor registers of the CRT controller -/
structure Vga where
  mem : Mem
  curRow : Int
  curCol : Int
  color : UInt8
  cursorHigh : UInt8
  cursorLow : UInt8

/-- `cell`; a `char` is signed, and is extended to 16 bits -/
def vgaCell (c attr : UInt8) : UInt16 :=
  (if c < 128 then c.toUInt16 else c.toUInt16 ||| 0xFF00) ||| (attr.toUInt16 <<< 8)

def moveHwCursor (v : Vga) : Vga :=
  let pos := v.curRow * vgaCols + v.curCol
  { v with cursorHigh := .ofNat (pos.toNat / 2^8), cursorLow := .ofNat pos.toNat }

/-- `VGA_MEM[i] = x` -/
def vgaStore (v : Vga) (i : Int) (x : UInt16) : Except Fault Vga :=
  if 0 ≤ i ∧ i < vgaCols * vgaRows then
    let a := vgaMem + 2 * i.toNat
    .ok { v with mem := Function.update (Function.update v.mem a x.toUInt8) (a + 1) (x >>> 8).toUInt8 }
  else .error (.dangling (vgaMem + 2 * i.toNat))

/-- a loop that stores `x` into `n` cells from `i` on -/
def vgaFill (x : UInt16) : Nat → Int → Vga → Except Fault Vga
  | 0, _, v => .ok v
  | n+1, i, v => do
    let v ← vgaStore v i x
    vgaFill x n (i + 1) v

def scrollIfNeeded (v : Vga) : Except Fault Vga :=
  if v.curRow < vgaRows then .ok v
  else do
    let v := { v with
      mem := memmove v.mem vgaMem (vgaMem + 2 * vgaCols) ((vgaRows - 1) * vgaCols * 2) }
    let v ← vgaFill (vgaCell ' '.toUInt8 v.color) vgaCols ((vgaRows - 1) * vgaCols : Nat) v
    .ok { v with curRow := vgaRows - 1 }

def vgaClear (v : Vga) : Except Fault Vga := do
  let v ← vgaFill (vgaCell ' '.toUInt8 v.color) (vgaCols * vgaRows) 0 v
  .ok (moveHwCursor { v with curRow := 0, curCol := 0 })

def vgaInit (v : Vga) : Except Fault Vga := vgaClear v

def vgaSetColor (v : Vga) (c : UInt8) : Vga := { v with color := c }

/-- the `switch` of `vga_putc` -/
def vgaAdvance (v : Vga) (c : UInt8) : Except Fault Vga :=
  if c = '\n'.toUInt8 then .ok { v with curCol := 0, curRow := v.curRow + 1 }
  else if c = '\r'.toUInt8 then .ok { v with curCol := 0 }
  else if c = 8 then
    if 0 < v.curCol then
      let v := { v with curCol := v.curCol - 1 }
      vgaStore v (v.curRow * vgaCols + v.curCol) (vgaCell ' '.toUInt8 v.color)
    else .ok v
  else if c = '\t'.toUInt8 then
    -- (cur_col + 8) & ~7
    let v := { v with curCol := (v.curCol + 8) / 8 * 8 }
    if (vgaCols : Int) ≤ v.curCol then .ok { v with curCol := 0, curRow := v.curRow + 1 } else .ok v
  else do
    let v ← vgaStore v (v.curRow * vgaCols + v.curCol) (vgaCell c v.color)
    let v := { v with curCol := v.curCol + 1 }
    if (vgaCols : Int) ≤ v.curCol then .ok { v with curCol := 0, curRow := v.curRow + 1 } else .ok v

def vgaPutc (v : Vga) (c : UInt8) : Except Fault Vga := do
  let v ← vgaAdvance v c
  let v ← scrollIfNeeded v
  .ok (moveHwCursor v)

/-! ## the terminal -/

/-- the same characters on a terminal without a bottom -/
def terminalPutc (t : Terminal UInt8) (c : UInt8) : Terminal UInt8 :=
  if c = '\n'.toUInt8 then t.newline
  else if c = '\r'.toUInt8 then t.carriageReturn
  else if c = 8 then t.backspace ' '.toUInt8
  else if c = '\t'.toUInt8 then t.tab vgaCols
  else t.put vgaCols c

/-- the character in row `i` and column `j` of the screen -/
def Vga.char (v : Vga) (i j : Nat) : UInt8 := v.mem (vgaMem + 2 * (vgaCols * i + j))

/-- the bytes outside the screen are those of `m` -/
def Outside (m : Mem) (v : Vga) : Prop :=
  ∀ a, a < vgaMem ∨ vgaMem + 4000 ≤ a → v.mem a = m a

/-- the screen shows the rows of `t` from `top` on, with the cursor in place -/
structure ShowsFrom (m : Mem) (top : Nat) (v : Vga) (t : Terminal UInt8) : Prop where
  row_ge : top ≤ t.row
  row : v.curRow = t.row - top
  col : v.curCol = t.col
  col_lt : t.InLine vgaCols
  cells : ∀ i < vgaRows, ∀ j < vgaCols, v.char i j = t.cell (top + i) j
  blank : t.BlankFrom ' '.toUInt8 (top + vgaRows)
  outside : Outside m v

/-- the low byte of a cell is its character -/
theorem vgaCell_char (c attr : UInt8) : (vgaCell c attr).toUInt8 = c := by
  have hattr : (attr.toUInt16 <<< 8).toUInt8 = 0 := by
    apply UInt8.toBitVec_inj.mp
    ext i hi
    simp
  have hsign : (0xFF00 : UInt16).toUInt8 = 0 := rfl
  unfold vgaCell
  rw [UInt16.toUInt8_or, hattr]
  split
  · simp
  · rw [UInt16.toUInt8_or, hsign]
    simp

/-! ## stores -/

/-- `v` with `x` in cell `k` -/
def Vga.stored (v : Vga) (k : Nat) (x : UInt16) : Vga :=
  { v with
    mem := Function.update (Function.update v.mem (vgaMem + 2 * k) x.toUInt8) (vgaMem + 2 * k + 1)
      (x >>> 8).toUInt8 }

/-- cells are numbered row by row -/
theorem cell_inj {i j r c : Nat} (hj : j < vgaCols) (hc : c < vgaCols) :
    vgaCols * i + j = vgaCols * r + c ↔ i = r ∧ j = c := by
  have h80 : vgaCols = 80 := rfl
  rw [h80] at hj hc ⊢
  omega

theorem cell_lt {i j n : Nat} (hi : i < n) (hj : j < vgaCols) :
    vgaCols * i + j < vgaCols * n := by
  have h80 : vgaCols = 80 := rfl
  rw [h80] at hj ⊢
  omega

theorem vgaStore_ok (v : Vga) {k : Nat} (hk : k < 2000) (x : UInt16) :
    vgaStore v k x = .ok (v.stored k x) := by
  have hin : (0 : Int) ≤ k ∧ (k : Int) < vgaCols * vgaRows := by
    have hc : vgaCols = 80 := rfl
    have hr : vgaRows = 25 := rfl
    rw [hc, hr]
    omega
  unfold vgaStore
  rw [if_pos hin]
  rfl

theorem stored_char (v : Vga) (k : Nat) (x : UInt16) (i j : Nat) :
    (v.stored k x).char i j = if vgaCols * i + j = k then x.toUInt8 else v.char i j := by
  unfold Vga.char Vga.stored
  dsimp only
  rw [Function.update_of_ne (by omega)]
  by_cases hk : vgaCols * i + j = k
  · rw [if_pos hk, hk]
    exact Function.update_self _ _ _
  · rw [if_neg hk]
    exact Function.update_of_ne (by omega) _ _

theorem stored_outside {m : Mem} {v : Vga} {k : Nat} (hk : k < 2000) (x : UInt16)
    (h : Outside m v) : Outside m (v.stored k x) := by
  intro a ha
  unfold Vga.stored
  dsimp only
  rw [Function.update_of_ne (by omega), Function.update_of_ne (by omega)]
  exact h a ha

/-- nothing but cells has changed -/
def SameCursor (v v' : Vga) : Prop := v'.curRow = v.curRow ∧ v'.curCol = v.curCol ∧ v'.color = v.color

theorem vgaFill_spec (x : UInt16) {n k : Nat} (hk : k + n ≤ 2000) (v : Vga) :
    ∃ v', vgaFill x n k v = .ok v' ∧ SameCursor v v' ∧ (∀ m, Outside m v → Outside m v') ∧
      ∀ i j, v'.char i j = if k ≤ vgaCols * i + j ∧ vgaCols * i + j < k + n then x.toUInt8
        else v.char i j := by
  induction n generalizing k v with
  | zero =>
    refine ⟨v, rfl, ⟨rfl, rfl, rfl⟩, fun _ h => h, ?_⟩
    intro i j
    rw [if_neg (by omega)]
  | succ n ih =>
    obtain ⟨v', h1, ⟨h2, h3, h4⟩, hout, h5⟩ := ih (k := k + 1) (by omega) (v.stored k x)
    refine ⟨v', ?_, ⟨h2, h3, h4⟩, fun m h => hout m (stored_outside (by omega) x h), ?_⟩
    · unfold vgaFill
      rw [vgaStore_ok v (by omega), ok_bind]
      exact h1
    · intro i j
      rw [h5, stored_char]
      by_cases hin : k + 1 ≤ vgaCols * i + j ∧ vgaCols * i + j < k + 1 + n
      · rw [if_pos hin, if_pos (by omega)]
      · rw [if_neg hin]
        by_cases hk : vgaCols * i + j = k
        · rw [if_pos hk, if_pos (by omega)]
        · rw [if_neg hk, if_neg (by omega)]

/-! ## one call -/

section
variable {m : Mem} {top : Nat} {v : Vga} {t : Terminal UInt8}

theorem ShowsFrom.newline (h : ShowsFrom m top v t) :
    ShowsFrom m top { v with curCol := 0, curRow := v.curRow + 1 } t.newline where
  row_ge := Nat.le_succ_of_le h.row_ge
  row := by
    show v.curRow + 1 = ((t.row + 1 : Nat) : Int) - top
    rw [h.row]
    omega
  col := rfl
  col_lt := show 0 < 80 by decide
  cells := h.cells
  blank := h.blank
  outside := h.outside

theorem ShowsFrom.carriageReturn (h : ShowsFrom m top v t) :
    ShowsFrom m top { v with curCol := 0 } t.carriageReturn where
  row_ge := h.row_ge
  row := h.row
  col := rfl
  col_lt := show 0 < 80 by decide
  cells := h.cells
  blank := h.blank
  outside := h.outside

/-- the test of the right margin after `cur_col` was set -/
theorem ShowsFrom.moveTo (h : ShowsFrom m top v t) (col : Nat) :
    ∃ v', (if (vgaCols : Int) ≤ col then
        .ok { v with curCol := 0, curRow := v.curRow + 1 }
      else .ok { v with curCol := col } : Except Fault Vga) = .ok v' ∧
      ShowsFrom m top v' (t.moveTo vgaCols col) := by
  unfold Terminal.moveTo
  by_cases hc : vgaCols ≤ col
  · rw [if_pos (Int.ofNat_le.mpr hc), if_pos hc]
    exact ⟨_, rfl, h.newline⟩
  · rw [if_neg fun e => hc (Int.ofNat_le.mp e), if_neg hc]
    exact ⟨_, rfl, h.row_ge, h.row, rfl, Nat.lt_of_not_le hc, h.cells, h.blank, h.outside⟩

/-- a character written at the cursor -/
theorem ShowsFrom.write (h : ShowsFrom m top v t) (hrow : t.row < top + vgaRows) (c attr : UInt8) :
    ∃ v', vgaStore v (v.curRow * vgaCols + v.curCol) (vgaCell c attr) = .ok v' ∧
      SameCursor v v' ∧ ShowsFrom m top v' (t.write c) := by
  have hge := h.row_ge
  have hcol : t.col < vgaCols := h.col_lt
  have hc : vgaCols = 80 := rfl
  have hr : vgaRows = 25 := rfl
  have hidx : v.curRow * vgaCols + v.curCol = ((vgaCols * (t.row - top) + t.col : Nat) : Int) := by
    rw [h.row, h.col, hc]
    omega
  have hlt := cell_lt (show t.row - top < vgaRows by omega) hcol
  rw [hidx, vgaStore_ok v hlt]
  refine ⟨_, rfl, ⟨rfl, rfl, rfl⟩, hge, h.row, h.col, hcol, ?_, h.blank.write hrow c,
    stored_outside hlt _ h.outside⟩
  intro i hi j hj
  rw [stored_char, vgaCell_char, h.cells i hi j hj]
  show _ = if top + i = t.row ∧ j = t.col then c else t.cell (top + i) j
  by_cases hat : top + i = t.row ∧ j = t.col
  · rw [if_pos hat, if_pos ((cell_inj hj hcol).mpr (by omega))]
  · rw [if_neg hat, if_neg fun e => hat (by have := (cell_inj hj hcol).mp e; omega)]

theorem vgaAdvance_shows (h : ShowsFrom m top v t) (hrow : t.row < top + vgaRows) (c : UInt8) :
    ∃ v', vgaAdvance v c = .ok v' ∧ ShowsFrom m top v' (terminalPutc t c) := by
  unfold vgaAdvance terminalPutc
  split
  · exact ⟨_, rfl, h.newline⟩
  split
  · exact ⟨_, rfl, h.carriageReturn⟩
  split
  · -- backspace
    unfold Terminal.backspace
    by_cases hpos : 0 < t.col
    · have hcol : v.curCol - 1 = ((t.col - 1 : Nat) : Int) := by
        rw [h.col]
        omega
      have hback : ShowsFrom m top { v with curCol := v.curCol - 1 } { t with col := t.col - 1 } :=
        ⟨h.row_ge, h.row, hcol, lt_of_le_of_lt (Nat.sub_le _ _) h.col_lt, h.cells, h.blank, h.outside⟩
      rw [if_pos (by rw [h.col]; omega), if_pos hpos]
      obtain ⟨v', h1, _, h2⟩ := hback.write hrow ' '.toUInt8 v.color
      exact ⟨v', h1, h2⟩
    · rw [if_neg (by rw [h.col]; omega), if_neg hpos]
      exact ⟨v, rfl, h⟩
  split
  · -- tab
    have hcol : (v.curCol + 8) / 8 * 8 = (((t.col + 8) / 8 * 8 : Nat) : Int) := by
      rw [h.col]
      omega
    dsimp only
    rw [hcol]
    exact h.moveTo _
  · obtain ⟨v', h1, ⟨hr, hc, _⟩, h2⟩ := h.write hrow c v.color
    have hcol : v'.curCol + 1 = ((t.col + 1 : Nat) : Int) := by
      rw [hc, h.col]
      omega
    rw [h1, ok_bind]
    dsimp only
    rw [hcol]
    exact h2.moveTo _

/-- the overlapping copy of `scroll_if_needed` moves every row up -/
theorem memmove_rows (m : Mem) {i j : Nat} (hi : i + 1 < vgaRows) (hj : j < vgaCols) :
    memmove m vgaMem (vgaMem + 2 * vgaCols) ((vgaRows - 1) * vgaCols * 2)
      (vgaMem + 2 * (vgaCols * i + j)) = m (vgaMem + 2 * (vgaCols * (i + 1) + j)) := by
  have hc : vgaCols = 80 := rfl
  have hr : vgaRows = 25 := rfl
  have hm : vgaMem = 3221979136 := rfl
  rw [hr] at hi
  rw [hc] at hj
  have e : 3221979136 + 2 * 80 + (3221979136 + 2 * (80 * i + j) - 3221979136) =
      3221979136 + 2 * (80 * (i + 1) + j) := by omega
  rw [hc, hr, hm, memmove_apply (by norm_num) (by norm_num), if_pos (by omega), e]

/-- the screen moved up by one row -/
theorem ShowsFrom.scroll (h : ShowsFrom m top v t) (hrow : t.row = top + vgaRows) :
    ∃ v', scrollIfNeeded v = .ok v' ∧ ShowsFrom m (top + 1) v' t := by
  have hc : vgaCols = 80 := rfl
  have hr : vgaRows = 25 := rfl
  have hn : (vgaRows - 1) * vgaCols = 1920 := rfl
  have hcur : v.curRow = 25 := by
    rw [h.row, hrow, hr]
    omega
  unfold scrollIfNeeded
  rw [if_neg (by rw [hcur, hr]; omega)]
  dsimp only
  generalize hv1 : ({ v with
    mem := memmove v.mem vgaMem (vgaMem + 2 * vgaCols) ((vgaRows - 1) * vgaCols * 2) } : Vga) = v1
  have hmem : v1.mem = memmove v.mem vgaMem (vgaMem + 2 * vgaCols) ((vgaRows - 1) * vgaCols * 2) := by
    rw [← hv1]
  have hmoved : ∀ i j, i + 1 < vgaRows → j < vgaCols → v1.char i j = v.char (i + 1) j := by
    intro i j hi hj
    unfold Vga.char
    rw [hmem]
    exact memmove_rows v.mem hi hj
  have hcolor : v.color = v1.color := by rw [← hv1]
  have hfit : (vgaRows - 1) * vgaCols + vgaCols ≤ 2000 := by omega
  obtain ⟨v2, h1, ⟨_, hcol, _⟩, hout, h3⟩ := vgaFill_spec (vgaCell ' '.toUInt8 v1.color) hfit v1
  rw [hcolor, h1, ok_bind]
  refine ⟨_, rfl, by omega, ?_, ?_, h.col_lt, ?_, fun i hi => h.blank i (by omega), hout m ?_⟩
  · show (vgaRows : Int) - 1 = t.row - ((top + 1 : Nat) : Int)
    rw [hrow, hr]
    omega
  · show v2.curCol = t.col
    rw [hcol, ← hv1]
    exact h.col
  · intro i hi j hj
    show v2.char i j = _
    rw [h3, vgaCell_char, hn, hc]
    rw [hc] at hj
    by_cases hlast : i = 24
    · rw [if_pos (by omega), h.blank (top + 1 + i) (by omega)]
    · have e : top + 1 + i = top + (i + 1) := by omega
      rw [if_neg (by omega), hmoved i j (by omega) hj, h.cells (i + 1) (by omega) j hj, e]
  · intro a ha
    have hm : vgaMem = 3221979136 := rfl
    rw [hmem, ← h.outside a ha, hc, hr, hm, memmove_apply (by norm_num) (by norm_num),
      if_neg (by omega)]

theorem row_terminalPutc (t : Terminal UInt8) (c : UInt8) :
    t.row ≤ (terminalPutc t c).row ∧ (terminalPutc t c).row ≤ t.row + 1 := by
  unfold terminalPutc
  split
  · exact ⟨Nat.le_succ _, le_refl _⟩
  split
  · exact ⟨le_refl _, Nat.le_succ _⟩
  split
  · unfold Terminal.backspace
    split
    · exact ⟨le_refl _, Nat.le_succ _⟩
    · exact ⟨le_refl _, Nat.le_succ _⟩
  split
  · exact ⟨t.le_row_moveTo _ _, t.row_moveTo _ _⟩
  · exact ⟨(t.write c).le_row_moveTo _ _, (t.write c).row_moveTo _ _⟩

end

/-! ## every sequence of calls -/

inductive VgaCall where
  | putc (c : UInt8)
  | setColor (c : UInt8)
  | clear

def vgaCall (v : Vga) : VgaCall → Except Fault Vga
  | .putc c => vgaPutc v c
  | .setColor c => .ok (vgaSetColor v c)
  | .clear => vgaClear v

def terminalCall (t : Terminal UInt8) : VgaCall → Terminal UInt8
  | .putc c => terminalPutc t c
  | .setColor _ => t
  | .clear => .cleared ' '.toUInt8

def vgaMachine : Machine Vga VgaCall Fault where
  step := vgaCall
  legal _ _ := True

/-- the cursor of the hardware is on the cell at the cursor -/
def HwCursor (v : Vga) : Prop :=
  v.cursorHigh.toNat * 2^8 + v.cursorLow.toNat = v.curRow * vgaCols + v.curCol

/-- the screen shows the end of `t` -/
structure Shows (m : Mem) (v : Vga) (t : Terminal UInt8) : Prop where
  window : ShowsFrom m (t.top vgaRows) v t
  hwCursor : HwCursor v

section
variable {m : Mem} {v : Vga} {t : Terminal UInt8}

theorem ShowsFrom.moveHwCursor {top : Nat} (h : ShowsFrom m top v t) (hrow : t.row < top + vgaRows) :
    ShowsFrom m top (moveHwCursor v) t ∧ HwCursor (Raptor.moveHwCursor v) := by
  refine ⟨⟨h.row_ge, h.row, h.col, h.col_lt, h.cells, h.blank, h.outside⟩, ?_⟩
  have hcol : t.col < vgaCols := h.col_lt
  have hc : vgaCols = 80 := rfl
  have hr : vgaRows = 25 := rfl
  have hpos : v.curRow * vgaCols + v.curCol = (((t.row - top) * 80 + t.col : Nat) : Int) := by
    have hge := h.row_ge
    rw [h.row, h.col, hc]
    omega
  show ((UInt8.ofNat ((v.curRow * vgaCols + v.curCol).toNat / 2^8)).toNat : Int) * 2^8 +
    (UInt8.ofNat (v.curRow * vgaCols + v.curCol).toNat).toNat = v.curRow * vgaCols + v.curCol
  rw [hpos, Int.toNat_natCast, UInt8.toNat_ofNat', UInt8.toNat_ofNat']
  omega

theorem vgaPutc_shows (h : Shows m v t) (c : UInt8) :
    ∃ v', vgaPutc v c = .ok v' ∧ Shows m v' (terminalPutc t c) := by
  have hr : vgaRows = 25 := rfl
  have htop : ∀ t : Terminal UInt8, t.top vgaRows = t.row + 1 - vgaRows := fun _ => rfl
  obtain ⟨v1, h1, h2⟩ := vgaAdvance_shows h.window (by rw [htop]; omega) c
  obtain ⟨hge, hle⟩ := row_terminalPutc t c
  generalize terminalPutc t c = t' at *
  -- the window moves if the cursor has left it
  have hscroll : ∃ v2, scrollIfNeeded v1 = .ok v2 ∧ ShowsFrom m (t'.top vgaRows) v2 t' := by
    have ht := htop t
    have ht' := htop t'
    by_cases hin : t'.row < t.top vgaRows + vgaRows
    · have e : t'.top vgaRows = t.top vgaRows := by omega
      have hcur : v1.curRow < vgaRows := by
        rw [h2.row]
        omega
      rw [e]
      exact ⟨v1, if_pos hcur, h2⟩
    · have hrow : t'.row = t.top vgaRows + vgaRows := by omega
      have e : t'.top vgaRows = t.top vgaRows + 1 := by omega
      rw [e]
      exact h2.scroll hrow
  obtain ⟨v2, h3, h4⟩ := hscroll
  obtain ⟨h5, h6⟩ := h4.moveHwCursor (by rw [htop]; omega)
  refine ⟨moveHwCursor v2, ?_, h5, h6⟩
  unfold vgaPutc
  rw [h1, ok_bind, h3, ok_bind]

theorem vgaClear_shows (hout : Outside m v) :
    ∃ v', vgaClear v = .ok v' ∧ Shows m v' (.cleared ' '.toUInt8) := by
  have hc : vgaCols = 80 := rfl
  have hr : vgaRows = 25 := rfl
  obtain ⟨v1, h1, _, hout1, h3⟩ := vgaFill_spec (vgaCell ' '.toUInt8 v.color) (n := vgaCols * vgaRows)
    (k := 0) (by decide) v
  have hshows : ShowsFrom m 0 { v1 with curRow := 0, curCol := 0 } (.cleared ' '.toUInt8) := by
    refine ⟨le_refl _, rfl, rfl, show 0 < 80 by decide, ?_, Terminal.blankFrom_cleared _, hout1 m hout⟩
    intro i hi j hj
    show v1.char i j = _
    rw [h3, vgaCell_char, if_pos]
    · rfl
    · have := cell_lt hi hj
      omega
  obtain ⟨h4, h5⟩ := hshows.moveHwCursor (by decide)
  refine ⟨_, ?_, h4, h5⟩
  unfold vgaClear
  have h1' : vgaFill (vgaCell ' '.toUInt8 v.color) (vgaCols * vgaRows) 0 v = .ok v1 := h1
  rw [h1', ok_bind]

theorem vgaCall_shows (h : Shows m v t) (call : VgaCall) :
    ∃ v', vgaCall v call = .ok v' ∧ Shows m v' (terminalCall t call) := by
  cases call with
  | putc c => exact vgaPutc_shows h c
  | setColor c =>
    have hw := h.window
    exact ⟨_, rfl, ⟨hw.row_ge, hw.row, hw.col, hw.col_lt, hw.cells, hw.blank, hw.outside⟩, h.hwCursor⟩
  | clear => exact vgaClear_shows h.window.outside

theorem vgaMachine_shows (h : Shows m v t) (calls : List VgaCall) :
    ∃ v', vgaMachine.exec v calls = .ok v' ∧ Shows m v' (calls.foldl terminalCall t) := by
  induction calls generalizing v t with
  | nil => exact ⟨v, rfl, h⟩
  | cons call calls ih =>
    obtain ⟨v1, h1, h2⟩ := vgaCall_shows h call
    obtain ⟨v2, h3, h4⟩ := ih h2
    refine ⟨v2, ?_, h4⟩
    have hstep : vgaMachine.step v call = .ok v1 := h1
    unfold Machine.exec
    rw [hstep]
    exact h3

end

/-- After every sequence of calls: no cell outside the screen was touched, the cursor is on the
screen, and the screen shows the last 25 rows of the terminal on which nothing scrolls, with the
cursor in its place. -/
theorem vga_window (v0 : Vga) (calls : List VgaCall) :
    ∃ v1 v, vgaInit v0 = .ok v1 ∧ vgaMachine.exec v1 calls = .ok v ∧
      Outside v0.mem v ∧ 0 ≤ v.curRow ∧ v.curRow < 25 ∧ 0 ≤ v.curCol ∧ v.curCol < 80 ∧
      Shows v0.mem v (calls.foldl terminalCall (.cleared ' '.toUInt8)) := by
  obtain ⟨v1, h1, h2⟩ := vgaClear_shows (m := v0.mem) (v := v0) fun _ _ => rfl
  obtain ⟨v, h3, h4⟩ := vgaMachine_shows h2 calls
  have hc : vgaCols = 80 := rfl
  have hr : vgaRows = 25 := rfl
  have hw := h4.window
  have hge := hw.row_ge
  have hcol : _ < vgaCols := hw.col_lt
  have htop : ∀ t : Terminal UInt8, t.top vgaRows = t.row + 1 - vgaRows := fun _ => rfl
  rw [htop] at hge
  refine ⟨v1, v, h1, h3, hw.outside, ?_, ?_, ?_, ?_, h4⟩
  · rw [hw.row, htop]
    omega
  · rw [hw.row, htop]
    omega
  · rw [hw.col]
    omega
  · rw [hw.col]
    omega

end Raptor
