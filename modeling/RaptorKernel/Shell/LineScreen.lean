import RaptorKernel.Shell.ReadLine
import RaptorKernel.Drivers.VgaGrid

/-!
# A line on the screen

What the console passes on to the screen while a line is typed, and while it is taken back.

* `ConEv.vga`          the call of the VGA driver behind a call of the console;
* `TakenBack`          the line is gone, and nothing else has changed;
* `takenBack_iff`      it is, exactly for the lines that end in the row in which they begin.
-/

namespace Raptor
open Mem

/-- `console_set_color`, `console_clear` and `console_putc` -/
def ConEv.vga : ConEv → VgaCall
  | .putc c => .putc c
  | .setColor fg bg => .setColor (.ofNat (bg.ctorIdx * 2^4 + fg.ctorIdx % 2^4))
  | .clear => .clear

/-- what `read_line` and `replace_line` write to take `n` characters back -/
def eraseLine (n : Nat) : List UInt8 := (List.replicate n eraseText).flatten

/-- `s` was written and taken back: the cursor is where it was, the cells of `s` are blank, and the
others as before -/
def TakenBack (con : Console) (v : Vga) (row col : Nat) (s : List UInt8) : Prop :=
  ∃ evs v', (con.feed (consoleWrite s)).feed (consoleWrite (eraseLine s.length)) =
      { con with screen := con.screen ++ evs } ∧
    vgaMachine.exec v (evs.map ConEv.vga) = .ok v' ∧ v'.curRow = row ∧ v'.curCol = col ∧
    ∀ i < vgaRows, ∀ j < vgaCols, (v'.char i j, v'.attr i j) =
      if vgaCols * row + col ≤ vgaCols * i + j ∧ vgaCols * i + j < vgaCols * row + col + s.length then
        (space, v.color)
      else (v.char i j, v.attr i j)

/-! ## characters without colour changes -/

section
variable {α : Type} (ink : UInt8 → UInt8 → α)

/-- only characters: the colour stays -/
theorem paint_putcs (cs : List UInt8) (p : Painted α) :
    (cs.map VgaCall.putc).foldl (Painted.call ink) p =
      { p with
        grid := cs.foldl (fun g c => gridPutc g (ink ' '.toUInt8 p.color) (ink c p.color) c) p.grid } := by
  induction cs generalizing p with
  | nil => rfl
  | cons c cs ih =>
    rw [List.map_cons, List.foldl_cons, ih, List.foldl_cons]
    rfl

end

section
variable {α : Type} (ink : UInt8 → α)

/-- one character after the other -/
def gridWrite (g : Grid α) (cs : List UInt8) : Grid α :=
  cs.foldl (fun g c => gridPutc g (ink space) (ink c) c) g

theorem gridWrite_printable {cs : List UInt8} (hs : Printable cs) (g : Grid α) :
    gridWrite ink g cs = g.echo vgaRows vgaCols (ink space) (cs.map ink) := by
  induction cs generalizing g with
  | nil => rfl
  | cons c cs ih =>
    have hput : gridPutc g (ink space) (ink c) c = g.put vgaRows vgaCols (ink space) (ink c) :=
      gridPutc_put (hs c List.mem_cons_self).1
    have hrest := ih (fun b hb => hs b (List.mem_cons_of_mem _ hb)) (gridPutc g (ink space) (ink c) c)
    rw [hput] at hrest
    unfold gridWrite at hrest ⊢
    rw [List.foldl_cons, hput, hrest]
    rfl

theorem gridWrite_eraseText {g : Grid α} (hrow : g.row < vgaRows) :
    gridWrite ink g eraseText = g.erase vgaRows vgaCols (ink space) := by
  have hput : gridPutc (g.backspace (ink space)) (ink space) (ink space) space =
      (g.backspace (ink space)).put vgaRows vgaCols (ink space) (ink space) :=
    gridPutc_put (by decide)
  unfold gridWrite eraseText
  rw [List.foldl_cons, List.foldl_cons, List.foldl_cons, List.foldl_nil, gridPutc_backspace hrow, hput]
  exact gridPutc_backspace (Grid.row_scroll _ (by decide) _)

theorem gridWrite_eraseLine {g : Grid α} (hrow : g.row < vgaRows) (n : Nat) :
    gridWrite ink g (eraseLine n) = Grid.eraseN vgaRows vgaCols (ink space) n g := by
  induction n generalizing g with
  | zero => rfl
  | succ n ih =>
    have hfirst : gridWrite ink g (eraseLine (n + 1)) =
        gridWrite ink (gridWrite ink g eraseText) (eraseLine n) := by
      unfold eraseLine gridWrite
      rw [List.replicate_succ, List.flatten_cons, List.foldl_append]
    rw [hfirst, gridWrite_eraseText ink hrow]
    exact ih (g.row_erase (by decide) vgaCols (ink space))

end

/-! ## the screen -/

section
variable {con : Console} {v : Vga} {row col : Nat} {s : List UInt8}

/-- the cells of a screen -/
def Vga.grid (v : Vga) (row col : Nat) : Grid (UInt8 × UInt8) := ⟨fun i j => (v.char i j, v.attr i j), row, col⟩

/-- the grid after the line was written and taken back -/
def takenBackGrid (v : Vga) (row col : Nat) (s : List UInt8) : Grid (UInt8 × UInt8) :=
  Grid.eraseN vgaRows vgaCols (storedInk space v.color) s.length
    ((v.grid row col).echo vgaRows vgaCols (storedInk space v.color)
      (s.map fun c => storedInk c v.color))

theorem exec_takenBack (hcon : con.captureBuf = 0) (hrow : v.curRow = row) (hcol : v.curCol = col)
    (hin : row < vgaRows ∧ col < vgaCols) (hs : Printable s)
    (hroom : vgaCols * row + col + s.length < vgaRows * vgaCols) :
    ∃ evs v', (con.feed (consoleWrite s)).feed (consoleWrite (eraseLine s.length)) =
        { con with screen := con.screen ++ evs } ∧
      vgaMachine.exec v (evs.map ConEv.vga) = .ok v' ∧ Pictures v' (takenBackGrid v row col s) := by
  have hpic : Pictures v (v.grid row col) := ⟨⟨hrow, hcol, hin.2, fun _ _ _ _ => rfl⟩, hin.1⟩
  obtain ⟨v', h1, h2⟩ := exec_pictures (p := ⟨v.grid row col, v.color⟩) hpic rfl
    ((s ++ eraseLine s.length).map VgaCall.putc)
  refine ⟨consoleWrite (s ++ eraseLine s.length), v', ?_, ?_, ?_⟩
  · have hfeed : (con.feed (consoleWrite s)).feed (consoleWrite (eraseLine s.length)) =
        con.feed (consoleWrite (s ++ eraseLine s.length)) := by
      unfold Console.feed consoleWrite
      rw [List.map_append, List.foldl_append]
    rw [hfeed, feed_screen hcon]
  · have hcalls : (consoleWrite (s ++ eraseLine s.length)).map ConEv.vga =
        (s ++ eraseLine s.length).map VgaCall.putc := by
      unfold consoleWrite
      rw [List.map_map]
      rfl
    rw [hcalls]
    exact h1
  · rw [paint_putcs] at h2
    dsimp only at h2
    change Pictures v' (gridWrite (fun c => storedInk c v.color) (v.grid row col)
      (s ++ eraseLine s.length)) at h2
    have hsplit : gridWrite (fun c => storedInk c v.color) (v.grid row col) (s ++ eraseLine s.length) =
        gridWrite (fun c => storedInk c v.color)
          (gridWrite (fun c => storedInk c v.color) (v.grid row col) s) (eraseLine s.length) :=
      List.foldl_append
    have hlen : (v.grid row col).pos vgaCols + (s.map fun c => storedInk c v.color).length <
        vgaRows * vgaCols := by
      rw [List.length_map]
      exact hroom
    have hecho := Grid.pos_echo (storedInk space v.color) (show (v.grid row col).InScreen _ _ from hin) hlen
    rw [hsplit, gridWrite_printable _ hs, gridWrite_eraseLine _ hecho.1.1] at h2
    exact h2

/-- beyond the right margin the cursor does not come back -/
theorem not_takenBack (hcon : con.captureBuf = 0) (hrow : v.curRow = row) (hcol : v.curCol = col)
    (hin : row < vgaRows ∧ col < vgaCols) (hs : Printable s)
    (hroom : vgaCols * row + col + s.length < vgaRows * vgaCols) (hwrap : vgaCols ≤ col + s.length) :
    ¬ TakenBack con v row col s := by
  obtain ⟨evs, v', h1, h2, h3⟩ := exec_takenBack hcon hrow hcol hin hs hroom
  have hlen : (s.map fun c => storedInk c v.color).length = s.length := List.length_map _
  have hlow : row < (takenBackGrid v row col s).row :=
    Grid.row_echo_erase (storedInk space v.color) (g := v.grid row col) hin (by decide)
      (by rw [hlen]; exact hroom) (by rw [hlen]; exact hwrap) s.length
  intro ⟨evs', v'', h1', h2', hrow', _⟩
  have hevs : evs = evs' := List.append_cancel_left (congrArg Console.screen (h1.symm.trans h1'))
  rw [← hevs] at h2'
  cases h2.symm.trans h2'
  have hcur := h3.row
  omega

/-- A line typed anywhere on the screen can be taken back if and only if it ends in the row in which
it begins. -/
theorem takenBack_iff (hcon : con.captureBuf = 0) (hrow : v.curRow = row) (hcol : v.curCol = col)
    (hin : row < vgaRows ∧ col < vgaCols) (hs : Printable s)
    (hroom : vgaCols * row + col + s.length < vgaRows * vgaCols) :
    TakenBack con v row col s ↔ col + s.length < vgaCols := by
  constructor
  · intro h
    by_contra hwrap
    exact not_takenBack hcon hrow hcol hin hs hroom (Nat.le_of_not_lt hwrap) h
  · intro hfit
    obtain ⟨evs, v', h1, h2, h3⟩ := exec_takenBack hcon hrow hcol hin hs hroom
    have hlen : (s.map fun c => storedInk c v.color).length = s.length := List.length_map _
    have hline : (v.grid row col).col + (s.map fun c => storedInk c v.color).length < vgaCols := by
      rw [hlen]
      exact hfit
    obtain ⟨hr, hc, hcells⟩ := Grid.echo_erase (storedInk space v.color)
      (show (v.grid row col).row < vgaRows from hin.1) hline
    rw [hlen] at hr hc hcells
    unfold takenBackGrid at h3
    refine ⟨evs, v', h1, h2, ?_, ?_, fun i hi j hj => ?_⟩
    · rw [h3.row, hr]
      rfl
    · rw [h3.col, hc]
      rfl
    · have h80 : vgaCols = 80 := rfl
      rw [h3.cells i hi j hj, hcells]
      show (if i = row ∧ col ≤ j ∧ j < col + s.length then (space, v.color) else
        (v.char i j, v.attr i j)) = _
      rw [h80] at hfit hj ⊢
      by_cases hat : i = row ∧ col ≤ j ∧ j < col + s.length
      · rw [if_pos hat, if_pos (by omega)]
      · rw [if_neg hat, if_neg (by omega)]

end

theorem takenBack_ls : TakenBack ⟨0, 0, [], []⟩ .boot 0 0 (lit "ls") :=
  (takenBack_iff rfl rfl rfl (by decide) (by decide +kernel) (by decide)).mpr (by decide)

/-- `a`, typed in the last column -/
theorem not_takenBack_margin : ¬ TakenBack ⟨0, 0, [], []⟩ { Vga.boot with curCol := 79 } 0 79 (lit "a") :=
  not_takenBack rfl rfl rfl (by decide) (by decide +kernel) (by decide) (by decide)

end Raptor
