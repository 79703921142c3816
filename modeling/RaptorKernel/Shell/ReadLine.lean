import RaptorKernel.Shell.Shell
import RaptorKernel.Lib.ConsoleInput
import RaptorKernel.Theory.RingBuf

/-!
# read_line and the history it browses

The line is edited in a buffer that holds its first `len` bytes; a NUL stands behind them only at
the end, or after a stored line was copied in.

* `replaceLine`, `readLineStep`, `readLine`   the code; the codes of `console_getchar` are given as a
                                              list;
* `lineMachine`        the loop up to the newline, with the codes as labels;
* `Editor`             a text and a place in the history, without a buffer;
* `readLineStep_shows` one code; `lineMachine_shows`: any number of them;
* `History`            the histories that rounds of `read_line` and `history_add` lead to;
* `readLine_edits`     all of it.
-/

namespace Raptor
open Mem

/-! ## the code -/

def backspace : Int := 8

/-- what takes a character off the screen -/
def eraseText : List UInt8 := [8, space, 8]

structure LineEdit where
  mem : Mem
  len : Nat
  browse : Int
  con : Console

/-- `shell_history(index)`, to be copied: NULL is not a text -/
def historyText (sh : Shell) (index : Int) : Except Fault (List UInt8) :=
  if index < 0 then .error (.dangling 0)
  else
    match shellHistory sh index.toNat with
    | none => .error (.dangling 0)
    | some text => .ok text

/-- `replace_line`; `browse` is the local of the caller -/
def replaceLine (buf cap : Nat) (st : LineEdit) (text : List UInt8) (browse : Int) :
    Except Fault LineEdit := do
  let con := st.con.feed (consoleWrite (List.replicate st.len eraseText).flatten)
  let mem := strlcpy st.mem buf text cap
  let len ← strlen mem buf
  .ok ⟨mem, len, browse, con.feed (consoleWrite (slice mem buf len))⟩

/-- one round of the loop in `read_line`, for a code other than the newline -/
def readLineStep (sh : Shell) (buf cap : Nat) (st : LineEdit) (c : Int) : Except Fault LineEdit :=
  if c = backspace then
    if 0 < st.len then
      .ok { st with len := st.len - 1, con := st.con.feed (consoleWrite eraseText) }
    else .ok st
  else if c = keyUp then
    if 0 < st.browse then do
      let text ← historyText sh (st.browse - 1)
      replaceLine buf cap st text (st.browse - 1)
    else .ok st
  else if c = keyDown then
    if st.browse < shellHistoryCount sh then do
      let text ← if st.browse + 1 = shellHistoryCount sh then .ok [] else historyText sh (st.browse + 1)
      replaceLine buf cap st text (st.browse + 1)
    else .ok st
  else
    let c := if c = keyCode '\t' then keyCode ' ' else c
    if c < 0x20 ∨ 0x7e < c then .ok st
    else if st.len + 1 < cap then
      .ok { st with
        mem := Function.update st.mem (buf + st.len) (UInt8.ofNat c.toNat)
        len := st.len + 1
        con := consolePutc st.con (UInt8.ofNat c.toNat) }
    else .ok st

/-- the newline -/
def LineEdit.finish (buf : Nat) (st : LineEdit) : LineEdit :=
  { st with mem := Function.update st.mem (buf + st.len) 0, con := consolePutc st.con newline }

def readLineLoop (sh : Shell) (buf cap : Nat) : List Int → LineEdit → Except Fault LineEdit
  | [], _ => .error .diverges
  | c :: codes, st =>
    if c = keyCode '\n' then .ok (st.finish buf)
    else readLineStep sh buf cap st c >>= readLineLoop sh buf cap codes

def LineEdit.start (sh : Shell) (m : Mem) : LineEdit := ⟨m, 0, shellHistoryCount sh, sh.con⟩

/-- `read_line(buf, cap)`: the memory and the shell afterwards.  With no newline among the codes it
waits for ever. -/
def readLine (sh : Shell) (m : Mem) (buf cap : Nat) (codes : List Int) : Except Fault (Mem × Shell) :=
  (readLineLoop sh buf cap codes (.start sh m)).map fun st => (st.mem, { sh with con := st.con })

/-- the loop up to the newline -/
def lineMachine (sh : Shell) (buf cap : Nat) : Machine LineEdit Int Fault where
  step := readLineStep sh buf cap
  legal _ c := c ≠ keyCode '\n'

/-! ## the editor without a buffer -/

structure Editor where
  text : List UInt8
  browse : Nat

/-- a character goes to the end, if there is room -/
def Editor.type (e : Editor) (cap : Nat) (b : UInt8) : Editor :=
  if e.text.length + 1 < cap then { e with text := e.text ++ [b] } else e

/-- One code.  Behind the newest stored line there is the empty one. -/
def Editor.key (stored : List (List UInt8)) (cap : Nat) (e : Editor) (c : Int) : Editor :=
  if c = backspace then { e with text := e.text.dropLast }
  else if c = keyUp then
    if 0 < e.browse then ⟨stored.getD (e.browse - 1) [], e.browse - 1⟩ else e
  else if c = keyDown then
    if e.browse < stored.length then ⟨stored.getD (e.browse + 1) [], e.browse + 1⟩ else e
  else if c = keyCode '\t' then e.type cap space
  else if 0x20 ≤ c ∧ c ≤ 0x7e then e.type cap (UInt8.ofNat c.toNat)
  else e

def edited (stored : List (List UInt8)) (cap : Nat) (codes : List Int) : List UInt8 :=
  (codes.foldl (Editor.key stored cap) ⟨[], stored.length⟩).text

/-! ## the buffer shows the text -/

def Printable (t : List UInt8) : Prop := ∀ b ∈ t, 0x20 ≤ b ∧ b ≤ 0x7e

instance (t : List UInt8) : Decidable (Printable t) :=
  inferInstanceAs (Decidable (∀ b ∈ t, 0x20 ≤ b ∧ b ≤ 0x7e))

/-- a line that fits into a buffer of `cap` bytes -/
def FitsLine (cap : Nat) (t : List UInt8) : Prop := t.length < cap ∧ Printable t

/-- `m` is the memory before -/
structure ShowsText (stored : List (List UInt8)) (m : Mem) (buf cap : Nat) (st : LineEdit) (e : Editor) :
    Prop where
  len : st.len = e.text.length
  text : slice st.mem buf e.text.length = e.text
  fits : FitsLine cap e.text
  browse : st.browse = e.browse
  browse_le : e.browse ≤ stored.length
  frame : ∀ x, x < buf ∨ buf + cap ≤ x → st.mem x = m x

/-- the history holds the lines `stored` -/
structure Stored (sh : Shell) (cap : Nat) (stored : List (List UInt8)) : Prop where
  count : shellHistoryCount sh = stored.length
  line : ∀ i, shellHistory sh i = stored[i]?
  fits : ∀ t ∈ stored, FitsLine cap t

section
variable {sh : Shell} {m : Mem} {buf cap : Nat} {stored : List (List UInt8)} {st : LineEdit}
  {e : Editor} {t : List UInt8}

theorem Printable.nulFree (h : Printable t) : 0 ∉ t :=
  fun h0 => absurd (h 0 h0).1 (by decide)

theorem FitsLine.nil (hcap : 0 < cap) : FitsLine cap [] :=
  ⟨hcap, fun b hb => absurd hb (by simp)⟩

theorem Stored.historyText (h : Stored sh cap stored) {i : Nat} (hi : i < stored.length) :
    historyText sh i = .ok (stored.getD i []) ∧ FitsLine cap (stored.getD i []) := by
  have e : stored.getD i [] = stored[i] := by simp [hi]
  have hline : shellHistory sh i = some stored[i] := by rw [h.line i, List.getElem?_eq_getElem hi]
  rw [e]
  refine ⟨?_, h.fits _ (List.getElem_mem hi)⟩
  unfold Raptor.historyText
  rw [if_neg (by omega), Int.toNat_natCast, hline]

/-- a stored line is copied in -/
theorem replaceLine_shows (h : ShowsText stored m buf cap st e) (hcap : cap < 2^32) (ht : FitsLine cap t)
    {k : Nat} (hk : k ≤ stored.length) :
    ∃ st', replaceLine buf cap st t k = .ok st' ∧ ShowsText stored m buf cap st' ⟨t, k⟩ := by
  obtain ⟨hlen, hprint⟩ := ht
  obtain ⟨hstr, hframe⟩ := strlcpy_spec st.mem buf t (show 1 ≤ cap by omega)
  rw [List.take_of_length_le (by omega)] at hstr
  have hstrlen : strlen (strlcpy st.mem buf t cap) buf = .ok t.length :=
    strlen_spec hstr hprint.nulFree (by omega)
  unfold replaceLine
  dsimp only
  rw [hstrlen, ok_bind]
  refine ⟨_, rfl, rfl, hstr.1, ⟨hlen, hprint⟩, rfl, hk, fun x hx => ?_⟩
  exact (hframe x hx).trans (h.frame x hx)

/-- a character is stored behind the text -/
theorem type_shows (h : ShowsText stored m buf cap st e) {b : UInt8} (hb : 0x20 ≤ b ∧ b ≤ 0x7e) :
    ∃ st', (if st.len + 1 < cap then
        .ok { st with
          mem := Function.update st.mem (buf + st.len) b
          len := st.len + 1
          con := consolePutc st.con b }
      else .ok st : Except Fault LineEdit) = .ok st' ∧ ShowsText stored m buf cap st' (e.type cap b) := by
  have hl := h.len
  have htext := h.text
  unfold Editor.type
  rw [← hl] at htext ⊢
  by_cases hroom : st.len + 1 < cap
  · have hlen : (e.text ++ [b]).length = st.len + 1 := by
      rw [List.length_append, List.length_singleton, hl]
    rw [if_pos hroom, if_pos hroom]
    refine ⟨_, rfl, hlen.symm, ?_, ⟨?_, fun x hx => ?_⟩, h.browse, h.browse_le, fun x hx => ?_⟩
    · show slice (Function.update st.mem (buf + st.len) b) buf (e.text ++ [b]).length = e.text ++ [b]
      rw [hlen, slice_append]
      congr 1
      · exact (slice_congr fun x _ hx => Function.update_of_ne (by omega) _ _).trans htext
      · show [Function.update st.mem (buf + st.len) b (buf + st.len)] = [b]
        rw [Function.update_self]
    · show (e.text ++ [b]).length < cap
      rw [hlen]
      exact hroom
    · rcases List.mem_append.mp hx with hx | hx
      · exact h.fits.2 x hx
      · rw [List.mem_singleton.mp hx]
        exact hb
    · have hne : x ≠ buf + st.len := by omega
      show Function.update st.mem (buf + st.len) b x = m x
      rw [Function.update_of_ne hne]
      exact h.frame x hx
  · rw [if_neg hroom, if_neg hroom]
    exact ⟨st, rfl, h⟩

theorem printable_code {c : Int} (h : 0x20 ≤ c ∧ c ≤ 0x7e) :
    0x20 ≤ UInt8.ofNat c.toNat ∧ UInt8.ofNat c.toNat ≤ 0x7e := by
  have hc : (UInt8.ofNat c.toNat).toNat = c.toNat := by
    rw [UInt8.toNat_ofNat', Nat.mod_eq_of_lt (by omega)]
  rw [UInt8.le_iff_toNat_le, UInt8.le_iff_toNat_le, hc]
  exact ⟨by show 32 ≤ c.toNat; omega, by show c.toNat ≤ 126; omega⟩

/-- the last character goes -/
theorem backspace_shows (h : ShowsText stored m buf cap st e) (hlen : 0 < st.len) (con : Console) :
    ShowsText stored m buf cap { st with len := st.len - 1, con := con }
      { e with text := e.text.dropLast } := by
  have hl := h.len
  refine ⟨?_, ?_, ⟨?_, fun x hx => h.fits.2 x (List.mem_of_mem_dropLast hx)⟩, h.browse, h.browse_le,
    h.frame⟩
  · show st.len - 1 = e.text.dropLast.length
    rw [List.length_dropLast, hl]
  · show slice st.mem buf e.text.dropLast.length = e.text.dropLast
    have htext := h.text
    have hn : e.text.length = e.text.dropLast.length + 1 := by
      rw [List.length_dropLast]
      omega
    rw [hn, slice_append] at htext
    have hdrop := congrArg List.dropLast htext
    rw [show slice st.mem (buf + e.text.dropLast.length) 1 = [st.mem (buf + e.text.dropLast.length)]
      from rfl, List.dropLast_concat] at hdrop
    exact hdrop
  · show e.text.dropLast.length < cap
    have hcap := h.fits.1
    rw [List.length_dropLast]
    omega

/-- One code.  The cases are those of the source; in the last one a tab has become a space. -/
theorem readLineStep_shows (hs : Stored sh cap stored) (hcap : cap < 2^32)
    (h : ShowsText stored m buf cap st e) (c : Int) :
    ∃ st', readLineStep sh buf cap st c = .ok st' ∧
      ShowsText stored m buf cap st' (e.key stored cap c) := by
  have hl := h.len
  have hbrowse := h.browse
  have hle := h.browse_le
  have hcap0 : 0 < cap := Nat.zero_lt_of_lt h.fits.1
  unfold readLineStep Editor.key
  rw [hs.count]
  by_cases hback : c = backspace
  · rw [if_pos hback, if_pos hback]
    by_cases hlen : 0 < st.len
    · rw [if_pos hlen]
      exact ⟨_, rfl, backspace_shows h hlen _⟩
    · have hnil : e.text = [] := List.length_eq_zero_iff.mp (by omega)
      rw [if_neg hlen]
      refine ⟨st, rfl, ?_⟩
      rw [hnil, List.dropLast_nil, ← hnil]
      exact h
  rw [if_neg hback, if_neg hback]
  by_cases hup : c = keyUp
  · rw [if_pos hup, if_pos hup]
    by_cases hpos : 0 < e.browse
    · have hi : e.browse - 1 < stored.length := by omega
      have hk : st.browse - 1 = ((e.browse - 1 : Nat) : Int) := by omega
      obtain ⟨htext, hfits⟩ := hs.historyText hi
      rw [if_pos hpos, if_pos (by omega), hk, htext, ok_bind]
      exact replaceLine_shows h hcap hfits (by omega)
    · rw [if_neg hpos, if_neg (by omega)]
      exact ⟨st, rfl, h⟩
  rw [if_neg hup, if_neg hup]
  by_cases hdown : c = keyDown
  · rw [if_pos hdown, if_pos hdown]
    by_cases hlt : e.browse < stored.length
    · have hk : st.browse + 1 = ((e.browse + 1 : Nat) : Int) := by omega
      rw [if_pos hlt, if_pos (by omega), hk]
      by_cases hlast : e.browse + 1 = stored.length
      · have hnil : stored.getD (e.browse + 1) [] = [] := by simp [hlast]
        rw [if_pos (by omega), ok_bind, hnil]
        exact replaceLine_shows h hcap (FitsLine.nil hcap0) hlt
      · obtain ⟨htext, hfits⟩ := hs.historyText (show e.browse + 1 < stored.length by omega)
        rw [if_neg (by omega), htext, ok_bind]
        exact replaceLine_shows h hcap hfits hlt
    · rw [if_neg hlt, if_neg (by omega)]
      exact ⟨st, rfl, h⟩
  rw [if_neg hdown, if_neg hdown]
  by_cases htab : c = keyCode '\t'
  · rw [if_pos htab, if_pos htab]
    exact type_shows h (by decide)
  rw [if_neg htab, if_neg htab]
  by_cases hc : 0x20 ≤ c ∧ c ≤ 0x7e
  · have hn : ¬ (c < 0x20 ∨ 0x7e < c) := by omega
    rw [if_pos hc]
    dsimp only
    rw [if_neg hn]
    exact type_shows h (printable_code hc)
  · have hn : c < 0x20 ∨ 0x7e < c := by omega
    rw [if_neg hc]
    dsimp only
    rw [if_pos hn]
    exact ⟨st, rfl, h⟩

/-! ## the whole line -/

theorem start_shows (hs : Stored sh cap stored) (hcap : 0 < cap) (m : Mem) :
    ShowsText stored m buf cap (.start sh m) ⟨[], stored.length⟩ :=
  ⟨rfl, rfl, FitsLine.nil hcap, congrArg Nat.cast hs.count, Nat.le_refl _, fun _ _ => rfl⟩

theorem lineMachine_shows (hs : Stored sh cap stored) (hcap0 : 0 < cap) (hcap : cap < 2^32) (m : Mem)
    (buf : Nat) {codes : List Int} (hnl : keyCode '\n' ∉ codes) :
    ∃ st, (lineMachine sh buf cap).exec (.start sh m) codes = .ok st ∧
      ShowsText stored m buf cap st (codes.foldl (Editor.key stored cap) ⟨[], stored.length⟩) := by
  apply Machine.exec_simulates (R := ShowsText stored m buf cap) _ (start_shows hs hcap0 m)
  · intro _ c hc e
    exact hnl (e ▸ hc)
  · intro st e c _ h
    exact readLineStep_shows hs hcap h c

/-- the loop goes on to the first newline -/
theorem readLineLoop_eq {codes : List Int} (hnl : keyCode '\n' ∉ codes) (rest : List Int) (st : LineEdit) :
    readLineLoop sh buf cap (codes ++ keyCode '\n' :: rest) st =
      ((lineMachine sh buf cap).exec st codes).map (LineEdit.finish buf) := by
  induction codes generalizing st with
  | nil => exact if_pos rfl
  | cons c codes ih =>
    have hc : c ≠ keyCode '\n' := fun e => hnl (e ▸ List.mem_cons_self)
    have hstep : (lineMachine sh buf cap).step st c = readLineStep sh buf cap st c := rfl
    rw [List.cons_append, readLineLoop, if_neg hc, Machine.exec, hstep]
    cases readLineStep sh buf cap st c with
    | error e => rfl
    | ok st' => exact ih (fun h => hnl (List.mem_cons_of_mem _ h)) st'

/-- without a newline it does not return -/
theorem readLineLoop_ok {codes : List Int} {st' : LineEdit}
    (h : readLineLoop sh buf cap codes st = .ok st') : keyCode '\n' ∈ codes := by
  induction codes generalizing st with
  | nil => cases h
  | cons c codes ih =>
    by_cases hc : c = keyCode '\n'
    · rw [hc]
      exact List.mem_cons_self
    · rw [readLineLoop, if_neg hc] at h
      obtain ⟨_, _, h1⟩ := bind_eq_ok.mp h
      exact List.mem_cons_of_mem _ (ih h1)

/-- what `read_line` leaves -/
theorem readLine_spec (hs : Stored sh cap stored) (hcap0 : 0 < cap) (hcap : cap < 2^32) (m : Mem)
    (buf : Nat) {codes : List Int} (hnl : keyCode '\n' ∉ codes) (rest : List Int) :
    ∃ m' con, readLine sh m buf cap (codes ++ keyCode '\n' :: rest) = .ok (m', { sh with con := con }) ∧
      HasStr m' buf (edited stored cap codes) ∧ FitsLine cap (edited stored cap codes) ∧
      ∀ x, x < buf ∨ buf + cap ≤ x → m' x = m x := by
  obtain ⟨st, h1, h2⟩ := lineMachine_shows hs hcap0 hcap m buf hnl
  have hlt := h2.fits.1
  have hlen := h2.len
  have htext := h2.text
  unfold readLine edited
  generalize codes.foldl (Editor.key stored cap) ⟨[], stored.length⟩ = e at h2 hlt hlen htext
  rw [readLineLoop_eq hnl, h1]
  refine ⟨(st.finish buf).mem, (st.finish buf).con, rfl, ⟨?_, ?_⟩, h2.fits, fun x hx => ?_⟩
  · show slice (Function.update st.mem (buf + st.len) 0) buf e.text.length = e.text
    exact (slice_congr fun x _ hx => Function.update_of_ne (by omega) _ _).trans htext
  · show Function.update st.mem (buf + st.len) 0 (buf + e.text.length) = 0
    rw [hlen, Function.update_self]
  · show Function.update st.mem (buf + st.len) 0 x = m x
    rw [Function.update_of_ne (by omega)]
    exact h2.frame x hx

/-- whenever it returns -/
theorem readLine_ok (hs : Stored sh cap stored) (hcap0 : 0 < cap) (hcap : cap < 2^32) {m' : Mem}
    {sh' : Shell} {codes : List Int} (hr : readLine sh m buf cap codes = .ok (m', sh')) :
    ∃ text con, sh' = { sh with con := con } ∧ HasStr m' buf text ∧ FitsLine cap text ∧
      ∀ x, x < buf ∨ buf + cap ≤ x → m' x = m x := by
  have hmem : keyCode '\n' ∈ codes := by
    obtain ⟨_, h1, _⟩ := map_eq_ok.mp hr
    exact readLineLoop_ok h1
  obtain ⟨pre, rest, rfl, hpre⟩ := List.eq_append_cons_of_mem hmem
  obtain ⟨m1, con, h1, h2, h3, h4⟩ := readLine_spec hs hcap0 hcap m buf hpre rest
  cases h1.symm.trans hr
  exact ⟨_, con, rfl, h2, h3, h4⟩

end

/-! ## the history -/

/-- The lines that `read_line` has returned and `history_add` has stored, the oldest first.  What
else the shell does leaves the history alone. -/
inductive History : Shell → List (List UInt8) → Prop
  | start {sh : Shell} (h : sh.historyTotal = 0) : History sh []
  | keep {sh sh' : Shell} {lines : List (List UInt8)} (h : History sh lines)
      (hr : sh'.historyRing = sh.historyRing) (ht : sh'.historyTotal = sh.historyTotal) :
      History sh' lines
  | add {sh sh' : Shell} {lines : List (List UInt8)} {m m' : Mem} {buf : Nat} {codes : List Int}
      {line : List UInt8} (h : History sh lines)
      (hr : readLine sh m buf shellLineMax codes = .ok (m', sh')) (hline : HasStr m' buf line)
      (h0 : 0 ∉ line) (hne : line ≠ []) : History (historyAdd sh' line) (lines ++ [line])

/-- the lines that the ring still holds -/
def lastLines (lines : List (List UInt8)) : List (List UInt8) :=
  lines.drop (lines.length - shellHistoryMax)

section
variable {sh : Shell} {lines : List (List UInt8)}

theorem stored_of_ring (ht : sh.historyTotal = lines.length)
    (hring : RingLog shellHistoryMax sh.historyRing lines) (hfits : ∀ t ∈ lines, FitsLine shellLineMax t) :
    Stored sh shellLineMax (lastLines lines) := by
  have hcount : shellHistoryCount sh = min lines.length shellHistoryMax := by
    unfold shellHistoryCount
    rw [ht]
    split <;> omega
  have hlen : (lastLines lines).length = min lines.length shellHistoryMax := by
    unfold lastLines
    rw [List.length_drop]
    omega
  refine ⟨hcount.trans hlen.symm, fun i => ?_, fun t h => hfits t (List.mem_of_mem_drop h)⟩
  unfold shellHistory
  rw [hcount, ht]
  by_cases hi : min lines.length shellHistoryMax ≤ i
  · rw [if_pos hi, List.getElem?_eq_none (by omega)]
  · rw [if_neg hi]
    exact (hring.get (by omega)).symm

/-- every line that `read_line` returned fits, and so is stored as a whole -/
theorem History.ring (h : History sh lines) : sh.historyTotal = lines.length ∧
    RingLog shellHistoryMax sh.historyRing lines ∧ ∀ t ∈ lines, FitsLine shellLineMax t := by
  induction h with
  | start h => exact ⟨h, .nil, fun t ht => absurd ht (by simp)⟩
  | keep _ hr ht ih =>
    rw [hr, ht]
    exact ih
  | @add sh sh' lines m m' buf codes line _ hr hline h0 _ ih =>
    obtain ⟨ht, hring, hfits⟩ := ih
    obtain ⟨text, con, rfl, h2, h3, _⟩ := readLine_ok (stored_of_ring ht hring hfits) (by decide)
      (by decide) hr
    have hfit : FitsLine shellLineMax line := by
      rw [hline.unique h2 h0 h3.2.nulFree]
      exact h3
    have hclip : clip shellLineMax line = line := List.take_of_length_le (Nat.le_pred_of_lt hfit.1)
    refine ⟨?_, ?_, fun t hmem => ?_⟩
    · rw [List.length_append, ← ht]
      rfl
    · have hpush := hring.push line
      rw [← ht] at hpush
      unfold historyAdd
      rw [hclip]
      exact hpush
    · rcases List.mem_append.mp hmem with hmem | hmem
      · exact hfits t hmem
      · rw [List.mem_singleton.mp hmem]
        exact hfit

theorem History.stored (h : History sh lines) : Stored sh shellLineMax (lastLines lines) :=
  stored_of_ring h.ring.1 h.ring.2.1 h.ring.2.2

end

/-- `read_line` and the editor without a buffer: after every code both have the same text, and at the
newline it stands in the buffer.  A read of a stored line out of range would be a fault. -/
theorem readLine_edits {sh : Shell} {lines : List (List UInt8)} (h : History sh lines) (m : Mem)
    (buf : Nat) (codes rest : List Int) (hnl : keyCode '\n' ∉ codes) :
    (∀ pre, pre <+: codes → ∃ st,
      (lineMachine sh buf shellLineMax).exec (.start sh m) pre = .ok st ∧
      st.len < shellLineMax ∧ 0 ≤ st.browse ∧ st.browse ≤ shellHistoryCount sh ∧
      slice st.mem buf st.len = edited (lastLines lines) shellLineMax pre) ∧
    ∃ m' con, readLine sh m buf shellLineMax (codes ++ keyCode '\n' :: rest) =
        .ok (m', { sh with con := con }) ∧
      HasStr m' buf (edited (lastLines lines) shellLineMax codes) ∧
      (∀ b ∈ edited (lastLines lines) shellLineMax codes, 0x20 ≤ b ∧ b ≤ 0x7e) ∧
      ∀ x, x < buf ∨ buf + shellLineMax ≤ x → m' x = m x := by
  have hs := h.stored
  constructor
  · intro pre hpre
    obtain ⟨st, h1, h2⟩ := lineMachine_shows hs (by decide) (by decide) m buf
      (fun hmem => hnl (hpre.subset hmem))
    have hbrowse := h2.browse
    have hle := h2.browse_le
    have hcount := hs.count
    have htext := h2.text
    rw [← h2.len] at htext
    refine ⟨st, h1, ?_, by omega, by omega, htext⟩
    rw [h2.len]
    exact h2.fits.1
  · obtain ⟨m', con, h1, h2, h3, h4⟩ := readLine_spec hs (by decide) (by decide) m buf hnl rest
    exact ⟨m', con, h1, h2, h3.2, h4⟩

/-- a shell that has just started -/
def freshShell : Shell :=
  ⟨⟨Heap.init sampleImage, fun _ => 0, fun _ => none, 0⟩, 0, ⟨0, 0, [], []⟩, fun _ => [], 0⟩

/-- `ls` is typed, and then recalled -/
theorem readLine_edits_recall : ∃ sh m' con, History sh [lit "ls"] ∧
    readLine sh (fun _ => 0) 0 shellLineMax [keyUp, keyCode '\n'] = .ok (m', { sh with con := con }) ∧
    HasStr m' 0 (lit "ls") := by
  have h0 : History freshShell [] := .start rfl
  obtain ⟨_, m1, con1, h1, h2, _⟩ := readLine_edits h0 (fun _ => 0) 0
    [keyCode 'l', keyCode 's'] [] (by decide)
  have hls : History (historyAdd { freshShell with con := con1 } (lit "ls")) [lit "ls"] :=
    h0.add h1 h2 (by decide +kernel) (by decide +kernel)
  obtain ⟨_, m2, con2, h3, h4, _⟩ := readLine_edits hls (fun _ => 0) 0 [keyUp] [] (by decide)
  exact ⟨_, m2, con2, hls, h3, h4⟩

end Raptor
