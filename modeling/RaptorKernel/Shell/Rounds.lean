import RaptorKernel.Shell.Cwd
import RaptorKernel.Shell.ReadLine
import RaptorKernel.Shell.Tokenize

/-!
# shell_run, with its line buffer and the history ring in memory

One round reads a line into the buffer, copies it into the ring if it is not empty, and executes it;
`tokenize` then cuts the buffer into words where it stands.

* `historyAddAt`, `shellHistoryAt`   the ring as an array of `SHELL_HISTORY_MAX` buffers;
* `shellRound`         one round of the loop in `shell_run`;
* `HistoryInv`         slot by slot the ring in memory is the history of the shell;
* `history_last`       what the pointers of `shell_history` lead to, after any number of rounds.
-/

namespace Raptor
open Mem

/-! ## the ring in memory -/

/-- `history_ring[i]` -/
def historySlot (ring : Nat) (i : Int) : Nat := ring + i.toNat * shellLineMax

/-- `shell_history_count`, on the `int` -/
def historyCountAt (total : Int) : Int :=
  if total < shellHistoryMax then total else shellHistoryMax

/-- `shell_history`: the pointer -/
def shellHistoryAt (ring : Nat) (total index : Int) : Nat :=
  if index < 0 ∨ historyCountAt total ≤ index then 0
  else historySlot ring ((total - historyCountAt total + index).tmod shellHistoryMax)

/-- The shell, the bytes of its stack and its static variables, and `history_total`.  `lines` only
records what `read_line` returned; nothing reads it. -/
structure Session where
  sh : Shell
  mem : Mem
  total : Int
  lines : List (List UInt8)

/-- `history_add(line)`; the `int` wraps around -/
def historyAddAt (ring : Nat) (s : Session) (line : List UInt8) : Session where
  sh := historyAdd s.sh line
  mem := strlcpy s.mem (historySlot ring (s.total.tmod shellHistoryMax)) line shellLineMax
  total := (s.total + 1).bmod (2^32)
  lines := s.lines ++ [line]

/-- what comes in from outside in one round; `writes` is what the command does to the memory -/
structure RoundInput where
  env : Env
  codes : List Int
  writes : Mem → Mem

/-- `if (line[0]) history_add(line);` -/
def remember (buf ring : Nat) (s : Session) (line : List UInt8) : Session :=
  if s.mem buf ≠ 0 then historyAddAt ring s line else s

/-- one round of `shell_run`, with the line at `buf` -/
def shellRound (buf ring : Nat) (s : Session) (i : RoundInput) : Except Fault Session := do
  let sh ← printPrompt s.sh
  let (m, sh) ← readLine sh s.mem buf shellLineMax i.codes
  let n ← strlen m buf
  let line := slice m buf n
  let s := remember buf ring { s with sh := sh, mem := m } line
  let (_, m) ← tokenizeAt s.mem buf shellArgvMax
  let sh ← execute i.env s.sh line
  .ok { s with sh := sh, mem := i.writes m }

def inRing (ring x : Nat) : Prop := ring ≤ x ∧ x < ring + shellHistoryMax * shellLineMax

/-- the rounds; no command writes into the ring -/
def roundMachine (buf ring : Nat) : Machine Session RoundInput Fault where
  step := shellRound buf ring
  legal _ i := ∀ m x, inRing ring x → i.writes m x = m x

/-- the line and the ring are different objects -/
structure Layout (buf ring : Nat) : Prop where
  ring_ne : ring ≠ 0
  apart : buf + shellLineMax ≤ ring ∨ ring + shellHistoryMax * shellLineMax ≤ buf
  buf_le : buf + shellLineMax ≤ 2^32

structure HistoryInv (ring : Nat) (s : Session) : Prop where
  history : History s.sh s.lines
  total : s.lines.length < 2^31 → s.total = s.lines.length
  slots : s.lines.length < 2^31 → ∀ k < min s.lines.length shellHistoryMax,
    FitsLine shellLineMax (s.sh.historyRing k) ∧
      HasStr s.mem (historySlot ring k) (s.sh.historyRing k)

/-! ## the shell leaves the history alone -/

def SameHistory (sh sh' : Shell) : Prop :=
  sh'.historyRing = sh.historyRing ∧ sh'.historyTotal = sh.historyTotal

section
variable {sh sh' : Shell}

theorem print_history (sh : Shell) (evs : List ConEv) : SameHistory sh (sh.print evs) := ⟨rfl, rfl⟩

theorem writeTarget_history {f : Nat} {path data : List UInt8} {append : Bool}
    (h : writeTarget sh f path data append = .ok sh') : SameHistory sh sh' := by
  unfold writeTarget at h
  split at h
  · cases h
    exact print_history _ _
  obtain ⟨n, _, h⟩ := bind_eq_ok.mp h
  split at h
  · cases h
    exact print_history _ _
  obtain ⟨⟨ok, s⟩, _, h⟩ := bind_eq_ok.mp h
  dsimp only at h
  split at h
  · cases h
    exact ⟨rfl, rfl⟩
  · cases h
    exact ⟨rfl, rfl⟩

theorem executeRedirected_history {env : Env} {cmd : Command} {args : List (List UInt8)}
    {append : Bool} {path : List UInt8}
    (h : executeRedirected env sh cmd args append path = .ok sh') : SameHistory sh sh' := by
  unfold executeRedirected at h
  split at h
  · cases h
    exact print_history _ _
  obtain ⟨d, _, h⟩ := bind_eq_ok.mp h
  unfold finishRedirect at h
  obtain ⟨sh1, h1, h⟩ := bind_eq_ok.mp h
  obtain ⟨s, _, h⟩ := bind_eq_ok.mp h
  cases h
  unfold redirectToFile at h1
  obtain ⟨⟨f, s1⟩, _, h1⟩ := bind_eq_ok.mp h1
  obtain ⟨hring, htotal⟩ := writeTarget_history h1
  exact ⟨hring, htotal⟩

theorem execute_history {env : Env} {line : List UInt8} (h : execute env sh line = .ok sh') :
    SameHistory sh sh' := by
  unfold execute at h
  split at h
  · cases h
    exact print_history _ _
  · cases h
    exact ⟨rfl, rfl⟩
  · split at h
    · cases h
      exact print_history _ _
    · split at h
      · exact executeRedirected_history h
      · obtain ⟨d, _, rfl⟩ := map_eq_ok.mp h
        exact ⟨rfl, rfl⟩

theorem printPrompt_history (h : printPrompt sh = .ok sh') : SameHistory sh sh' := by
  unfold printPrompt at h
  obtain ⟨path, _, h⟩ := bind_eq_ok.mp h
  cases h
  exact print_history _ _

end

/-! ## one round -/

section
variable {buf ring : Nat} {s s' : Session} {i : RoundInput}

theorem historySlot_eq (ring k : Nat) : historySlot ring k = ring + k * 256 := by
  unfold historySlot
  rw [Int.toNat_natCast]
  rfl

theorem Layout.ring_outside (h : Layout buf ring) {x : Nat} (hx : inRing ring x) :
    x < buf ∨ buf + shellLineMax ≤ x := by
  have hapart := h.apart
  unfold inRing at hx
  omega

/-- The ring keeps its lines as long as its bytes stay. -/
theorem HistoryInv.keep (h : HistoryInv ring s) {sh : Shell} {m : Mem} (hsh : SameHistory s.sh sh)
    (hm : ∀ x, inRing ring x → m x = s.mem x) :
    HistoryInv ring { s with sh := sh, mem := m } where
  history := h.history.keep hsh.1 hsh.2
  total := h.total
  slots := by
    intro hlt k hk
    obtain ⟨hfit, hstr⟩ := h.slots hlt k hk
    show FitsLine shellLineMax (sh.historyRing k) ∧ HasStr m (historySlot ring k) (sh.historyRing k)
    rw [hsh.1]
    refine ⟨hfit, hstr.congr ?_⟩
    intro x h1 h2
    have hlen := hfit.1
    have h256 : shellLineMax = 256 := rfl
    have h16 : shellHistoryMax = 16 := rfl
    rw [historySlot_eq] at h1 h2
    apply hm x
    unfold inRing
    rw [h256, h16]
    omega

/-- the slot of the next line -/
theorem nextSlot {total : Int} {n : Nat} (h : total = n) :
    historySlot ring (total.tmod shellHistoryMax) = historySlot ring (n % shellHistoryMax : Nat) := by
  rw [h, ← Int.ofNat_tmod]

/-- a new line takes one slot; what the other slots hold stays -/
theorem HistoryInv.add (h : HistoryInv ring s) {line : List UInt8} (hfit : FitsLine shellLineMax line)
    (hhist : History (historyAdd s.sh line) (s.lines ++ [line])) :
    HistoryInv ring (historyAddAt ring s line) where
  history := hhist
  total := by
    intro hlt
    have hlt : (s.lines ++ [line]).length < 2^31 := hlt
    rw [List.length_append, List.length_singleton] at hlt
    show (s.total + 1).bmod (2^32) = ((s.lines ++ [line]).length : Int)
    rw [h.total (by omega), List.length_append, List.length_singleton]
    exact Int.bmod_eq_of_le (by omega) (by omega)
  slots := by
    intro hlt k hk
    have hlt : (s.lines ++ [line]).length < 2^31 := hlt
    have hk : k < min (s.lines ++ [line]).length shellHistoryMax := hk
    rw [List.length_append, List.length_singleton] at hlt hk
    have h256 : shellLineMax = 256 := rfl
    have h16 : shellHistoryMax = 16 := rfl
    have hlen := h.history.ring.1
    have hclip : line.take (shellLineMax - 1) = line :=
      List.take_of_length_le (Nat.le_pred_of_lt hfit.1)
    show FitsLine shellLineMax ((historyAdd s.sh line).historyRing k) ∧
      HasStr (strlcpy s.mem (historySlot ring (s.total.tmod shellHistoryMax)) line shellLineMax)
        (historySlot ring k) ((historyAdd s.sh line).historyRing k)
    rw [nextSlot (h.total (by omega))]
    unfold historyAdd clip
    dsimp only
    rw [hclip, hlen]
    obtain ⟨hnew, hframe⟩ := strlcpy_spec s.mem
      (historySlot ring (s.lines.length % shellHistoryMax : Nat)) line (show 1 ≤ shellLineMax by decide)
    rw [hclip] at hnew
    by_cases hslot : k = s.lines.length % shellHistoryMax
    · rw [← hslot] at hnew ⊢
      rw [Function.update_self]
      exact ⟨hfit, hnew⟩
    · rw [Function.update_of_ne hslot]
      have hlive : k < min s.lines.length shellHistoryMax := by
        have hslot : k ≠ s.lines.length % 16 := hslot
        omega
      obtain ⟨hfit', hstr⟩ := h.slots (by omega) k hlive
      refine ⟨hfit', hstr.congr ?_⟩
      intro x h1 h2
      have hlen' := hfit'.1
      rw [historySlot_eq] at h1 h2 hframe
      exact hframe x (by omega)

/-- `history_add` writes into the ring only -/
theorem remember_mem (line : List UInt8) {x : Nat} (hx : ¬ inRing ring x) :
    (remember buf ring s line).mem x = s.mem x := by
  have h256 : shellLineMax = 256 := rfl
  have h16 : shellHistoryMax = 16 := rfl
  have hslot : ∃ k < 16, historySlot ring (s.total.tmod shellHistoryMax) = ring + k * 256 := by
    refine ⟨(s.total.tmod shellHistoryMax).toNat, ?_, rfl⟩
    have hlt : s.total.tmod shellHistoryMax < 16 := Int.tmod_lt_of_pos _ (by decide)
    omega
  unfold remember
  split
  · obtain ⟨k, hk, e⟩ := hslot
    apply (strlcpy_spec s.mem _ line (show 1 ≤ shellLineMax by decide)).2
    rw [e, h256]
    unfold inRing at hx
    rw [h256, h16] at hx
    omega
  · rfl

/-- One round: what happens in it does not touch the ring, but for the new line. -/
theorem shellRound_inv (hl : Layout buf ring) (h : HistoryInv ring s)
    (hi : ∀ m x, inRing ring x → i.writes m x = m x) (hs : shellRound buf ring s i = .ok s') :
    HistoryInv ring s' := by
  have hcap : shellLineMax < 2^32 := by decide
  unfold shellRound at hs
  obtain ⟨sh1, h1, hs⟩ := bind_eq_ok.mp hs
  obtain ⟨⟨m2, sh2⟩, h2, hs⟩ := bind_eq_ok.mp hs
  obtain ⟨n, h3, hs⟩ := bind_eq_ok.mp hs
  dsimp only at h3 hs
  obtain ⟨⟨argv, m4⟩, h4, hs⟩ := bind_eq_ok.mp hs
  obtain ⟨sh5, h5, hs⟩ := bind_eq_ok.mp hs
  have hprompt := printPrompt_history h1
  have hhist1 : History sh1 s.lines := h.history.keep hprompt.1 hprompt.2
  -- the line that was read
  obtain ⟨text, con, hsh2, htext, hfit, hframe⟩ := readLine_ok hhist1.stored (by decide) hcap h2
  have hn : n = text.length := by
    rw [strlen_spec htext hfit.2.nulFree (Nat.lt_trans hfit.1 hcap)] at h3
    exact (Except.ok.inj h3).symm
  have hslice : slice m2 buf n = text := by
    rw [hn]
    exact htext.1
  have hread : HistoryInv ring { s with sh := sh2, mem := m2 } := by
    have hring : sh2.historyRing = s.sh.historyRing := by
      rw [hsh2]
      exact hprompt.1
    have htotal : sh2.historyTotal = s.sh.historyTotal := by
      rw [hsh2]
      exact hprompt.2
    exact h.keep ⟨hring, htotal⟩ fun x hx => hframe x (hl.ring_outside hx)
  rw [hslice] at h4 h5 hs
  -- the line goes into the ring if it is not empty
  have hkept : HistoryInv ring (remember buf ring { s with sh := sh2, mem := m2 } text) := by
    unfold remember
    split
    · rename_i hne
      apply hread.add hfit
      apply hhist1.add h2 htext hfit.2.nulFree
      intro e
      exact hne ((htext.first hfit.2.nulFree).mpr e)
    · exact hread
  -- the words are cut within the buffer
  have hlen := hfit.1
  have hbuf : HasStr (remember buf ring { s with sh := sh2, mem := m2 } text).mem buf text := by
    apply htext.congr
    intro x hx1 hx2
    apply remember_mem
    intro hx
    have := hl.ring_outside hx
    omega
  have hle := hl.buf_le
  obtain ⟨argv', m', h6, _, h7⟩ := tokenizeAt_words hbuf hfit.2.nulFree (by omega) shellArgvMax
  cases h6.symm.trans h4
  cases hs
  apply hkept.keep (execute_history h5)
  intro x hx
  have hout := hl.ring_outside hx
  exact (hi _ x hx).trans (h7 x (by omega))

theorem rounds_inv (hl : Layout buf ring) (h : HistoryInv ring s) {is : List RoundInput}
    (r : (roundMachine buf ring).Run s is s') : HistoryInv ring s' :=
  r.inv h fun _ _ _ h hi hs => shellRound_inv hl h hi hs

end

/-- Before the first round. -/
theorem historyInv_start {ring : Nat} {sh : Shell} (hsh : sh.historyTotal = 0) (m : Mem) :
    HistoryInv ring ⟨sh, m, 0, []⟩ where
  history := .start hsh
  total _ := rfl
  slots _ k hk := by
    rw [List.length_nil, Nat.zero_min] at hk
    exact absurd hk (Nat.not_lt_zero k)

/-- After any number of rounds with fewer than `2^31` lines: `shell_history` leads to the last 16, as
`read_line` returned them, and to NULL for every other index. -/
theorem history_last {buf ring : Nat} (hl : Layout buf ring) {sh : Shell} (hsh : sh.historyTotal = 0)
    (m : Mem) {is : List RoundInput} {s : Session}
    (r : (roundMachine buf ring).Run ⟨sh, m, 0, []⟩ is s) (hlt : s.lines.length < 2^31) :
    historyCountAt s.total = min s.lines.length shellHistoryMax ∧
    (∀ (i : Nat) (line : List UInt8), (lastLines s.lines)[i]? = some line →
      shellHistoryAt ring s.total i ≠ 0 ∧ HasStr s.mem (shellHistoryAt ring s.total i) line) ∧
    ∀ index : Int, index < 0 ∨ historyCountAt s.total ≤ index → shellHistoryAt ring s.total index = 0 := by
  have h := rounds_inv hl (historyInv_start hsh m) r
  have h16 : shellHistoryMax = 16 := rfl
  have hcount : historyCountAt s.total = min s.lines.length shellHistoryMax := by
    unfold historyCountAt
    rw [h.total hlt, h16]
    split <;> omega
  refine ⟨by rw [hcount], fun i line hi => ?_, fun index hi => if_pos hi⟩
  have hlen : (lastLines s.lines).length = min s.lines.length shellHistoryMax := by
    unfold lastLines
    rw [List.length_drop]
    omega
  obtain ⟨hlive, _⟩ := List.getElem?_eq_some_iff.mp hi
  rw [hlen] at hlive
  have hin : ¬ ((i : Int) < 0 ∨ historyCountAt s.total ≤ i) := by
    rw [hcount]
    omega
  -- the slot of entry `i`
  have hget := h.history.ring.2.1.get hlive
  have hptr : shellHistoryAt ring s.total i = historySlot ring
      ((s.lines.length - min s.lines.length shellHistoryMax + i) % shellHistoryMax : Nat) := by
    unfold shellHistoryAt
    rw [if_neg hin, hcount, h.total hlt]
    have e : (s.lines.length : Int) - (min s.lines.length shellHistoryMax : Nat) + i =
        ((s.lines.length - min s.lines.length shellHistoryMax + i : Nat) : Int) := by omega
    rw [e, ← Int.ofNat_tmod]
  have hk : (s.lines.length - min s.lines.length shellHistoryMax + i) % shellHistoryMax <
      min s.lines.length shellHistoryMax := by
    rw [h16] at hlive ⊢
    omega
  have hstr := (h.slots hlt _ hk).2
  rw [← Option.some.inj (hi.symm.trans hget), ← hptr] at hstr
  refine ⟨?_, hstr⟩
  have hring := hl.ring_ne
  rw [hptr, historySlot_eq]
  omega

/-- a line is typed -/
def typeLine (line : String) : RoundInput :=
  ⟨sampleEnv, (lit line ++ [newline]).map fun c => (c.toNat : Int), id⟩

/-- an empty line, which is not kept, stands between two commands -/
def threeRounds : List RoundInput := [typeLine "mkdir /tmp/a \"b c\"", typeLine "", typeLine "pwd"]

def remembersTwo (sh : Shell) : Bool :=
  sh.historyTotal == 0 && ((roundMachine 4096 8192).exec ⟨sh, fun _ => 0, 0, []⟩ threeRounds).toOption.any
    fun s => s.lines == [lit "mkdir /tmp/a \"b c\"", lit "pwd"]

/-- the words of the first line are cut in the buffer, and its copy in the ring is whole -/
theorem history_last_words : ∃ sh s, boot sampleImage (fun _ => 0) [] = .ok sh ∧
    (roundMachine 4096 8192).Run ⟨sh, fun _ => 0, 0, []⟩ threeRounds s ∧
    HasStr s.mem (shellHistoryAt 8192 s.total 0) (lit "mkdir /tmp/a \"b c\"") ∧
    HasStr s.mem (shellHistoryAt 8192 s.total 1) (lit "pwd") := by
  have heval : (boot sampleImage (fun _ => 0) []).toOption.any remembersTwo = true := by decide +kernel
  obtain ⟨sh, h0, heval⟩ := any_toOption.mp heval
  unfold remembersTwo at heval
  rw [Bool.and_eq_true, beq_iff_eq] at heval
  obtain ⟨hsh, heval⟩ := heval
  obtain ⟨s, hs, heval⟩ := any_toOption.mp heval
  have hlines : s.lines = [lit "mkdir /tmp/a \"b c\"", lit "pwd"] := beq_iff_eq.mp heval
  have hlegal : ∀ u, ∀ i ∈ threeRounds, (roundMachine 4096 8192).legal u i := by
    intro u i hi m x _
    simp only [threeRounds, List.mem_cons, List.not_mem_nil, or_false] at hi
    obtain rfl | rfl | rfl := hi <;> rfl
  have r := Machine.Run.of_exec hlegal hs
  have hlayout : Layout 4096 8192 := ⟨by decide, by decide, by decide⟩
  have h := (history_last hlayout hsh _ r (by rw [hlines]; decide)).2.1
  have h1 := h 0 (lit "mkdir /tmp/a \"b c\"") (by rw [hlines]; decide +kernel)
  have h2 := h 1 (lit "pwd") (by rw [hlines]; decide +kernel)
  exact ⟨sh, s, h0, r, h1.2, h2.2⟩

end Raptor
