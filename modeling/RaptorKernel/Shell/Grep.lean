import RaptorKernel.Shell.CommandRuns
import RaptorKernel.Lib.Formats

/-!
# grep

The lines of a file are put together byte by byte in a buffer, which keeps the first 255 bytes of a
line.

* `fileLines`       the lines of a file;
* `grepLoop_eq`     the loop, line by line;
* `GrepExact`       the lines with the pattern are printed, and no others;
* `grepExact_iff`   they are, unless one of them is longer than the buffer.
-/

namespace Raptor
open Mem

/-- what stands between the newlines -/
def fileLines (data : List UInt8) : List (List UInt8) := data.splitOn newline

/-- the lines with the pattern, each with a newline -/
def grepExpected (pattern data : List UInt8) : List UInt8 :=
  (fileLines data).flatMap fun l => if pattern <:+: l then l ++ [newline] else []

/-- `grep` prints the lines with the pattern, in order, and returns 0 if there are any -/
def GrepExact (sh : Shell) (pattern path data : List UInt8) : Prop :=
  ∃ rc, cmdGrep sh [pattern, path] = .ok (consoleWrite (grepExpected pattern data), rc) ∧
    (rc = 0 ↔ ∃ l ∈ fileLines data, pattern <:+: l)

/-! ## the loop -/

/-- what the buffer keeps of a line -/
def lineCut (l : List UInt8) : List UInt8 := l.take (shellLineMax - 1)

/-- what the loop prints for a line -/
def grepLine (pattern l : List UInt8) : List UInt8 :=
  if pattern <:+: lineCut l then lineCut l ++ [newline] else []

section
variable {pattern data : List UInt8}

theorem printf_line (t : List UInt8) : printf "%s\n" [.text t] = consoleWrite (t ++ [newline]) := by
  have hfmt : lit "%s\n" = lit "%s" ++ [newline] := by decide +kernel
  have hnl : kvprintf [newline] [] = [newline] := by decide +kernel
  unfold printf kprintf
  rw [hfmt]
  exact congrArg consoleWrite ((kvprintf_s t [newline] []).trans (by rw [hnl]))

theorem textOf_nulFree {t : List UInt8} (h : 0 ∉ t) : textOf t = t := by
  unfold textOf
  rw [List.takeWhile_eq_self_iff]
  intro c hc
  exact bne_iff_ne.mpr fun e => h (e ▸ hc)

/-- the end of a line -/
theorem grep_test (hne : pattern ≠ []) (h0 : 0 ∉ pattern) {l : List UInt8} (hl : 0 ∉ l) :
    (lineCut l ≠ [] ∧ (strstr (textOf (lineCut l)) pattern).isSome = true) ↔ pattern <:+: lineCut l := by
  have hcut : 0 ∉ lineCut l := fun h => hl (List.mem_of_mem_take h)
  rw [textOf_nulFree hcut, strstr_isSome h0]
  constructor
  · intro h
    exact h.2
  · intro h
    refine ⟨fun e => ?_, h⟩
    rw [e, List.infix_nil] at h
    exact hne h

theorem lineCut_concat (l : List UInt8) (c : UInt8) :
    (if (lineCut l).length + 1 < shellLineMax then lineCut l ++ [c] else lineCut l) =
      lineCut (l ++ [c]) := by
  have hmax : shellLineMax = 256 := rfl
  unfold lineCut
  rw [List.length_take, hmax]
  by_cases hlen : l.length < 255
  · rw [if_pos (by omega), List.take_of_length_le (by omega),
      List.take_of_length_le (by rw [List.length_append, List.length_singleton]; omega)]
  · rw [if_neg (by omega), List.take_append_of_le_length (by omega)]

/-- The loop, with `l` read of the current line.  A line ends at a newline, and the last one at the
end of the file. -/
theorem grepLoop_eq (hne : pattern ≠ []) (h0 : 0 ∉ pattern) (hd : 0 ∉ data) {l : List UInt8} (hl : 0 ∉ l) :
    grepLoop pattern (data ++ [newline]) (lineCut l) =
      (consoleWrite ((data.splitOnPPrepend (· == newline) l.reverse).flatMap (grepLine pattern)),
        (data.splitOnPPrepend (· == newline) l.reverse).countP fun l => pattern <:+: lineCut l) := by
  have hline : ∀ {rest : List UInt8} {lines : List (List UInt8)} {l : List UInt8}, 0 ∉ l →
      grepLoop pattern rest [] = (consoleWrite (lines.flatMap (grepLine pattern)),
        lines.countP fun l => pattern <:+: lineCut l) →
      grepLoop pattern (newline :: rest) (lineCut l) =
        (consoleWrite ((l :: lines).flatMap (grepLine pattern)),
          (l :: lines).countP fun l => pattern <:+: lineCut l) := by
    intro rest lines l hl hrest
    have hcut : 0 ∉ lineCut l := fun h => hl (List.mem_of_mem_take h)
    rw [grepLoop, if_pos rfl, hrest]
    dsimp only
    rw [List.flatMap_cons, grepLine]
    by_cases hm : pattern <:+: lineCut l
    · rw [if_pos ((grep_test hne h0 hl).mpr hm), if_pos hm, textOf_nulFree hcut, printf_line,
        List.countP_cons_of_pos (by simpa using hm)]
      unfold consoleWrite
      rw [@List.map_append _ _ _ (lineCut l ++ [newline])]
    · rw [if_neg fun h => hm ((grep_test hne h0 hl).mp h), if_neg hm,
        List.countP_cons_of_neg (by simpa using hm)]
      rfl
  induction data generalizing l with
  | nil =>
    rw [List.splitOnPPrepend_nil, List.reverse_reverse]
    exact hline hl rfl
  | cons c data ih =>
    have hd' : 0 ∉ data := fun h => hd (List.mem_cons_of_mem _ h)
    by_cases hc : c = newline
    · rw [hc, List.splitOnPPrepend_cons_pos (by decide), List.reverse_reverse]
      exact hline hl (ih hd' (l := []) (by simp))
    · have hcl : 0 ∉ l ++ [c] := by
        intro h
        rcases List.mem_append.mp h with h | h
        · exact hl h
        · exact hd (by rw [List.mem_singleton.mp h]; exact List.mem_cons_self)
      rw [List.splitOnPPrepend_cons_neg (by simpa using hc), List.cons_append, grepLoop, if_neg hc,
        lineCut_concat, ih hd' hcl, List.reverse_append]
      rfl

theorem cmdGrep_eq {sh : Shell} {path : List UInt8} (hf : FileAt sh path data) (hne : pattern ≠ [])
    (h0 : 0 ∉ pattern) (hd : 0 ∉ data) : cmdGrep sh [pattern, path] =
      .ok (consoleWrite ((fileLines data).flatMap (grepLine pattern)),
        if (fileLines data).countP (fun l => pattern <:+: lineCut l) ≠ 0 then 0 else 1) := by
  have hloop := grepLoop_eq hne h0 hd (l := []) (by simp)
  rw [List.reverse_nil, List.splitOnPPrepend_nil_right] at hloop
  unfold cmdGrep
  dsimp only
  rw [hf.withFile]
  have hcut : lineCut [] = [] := rfl
  rw [hcut] at hloop
  rw [hloop]
  rfl

/-! ## long lines -/

theorem lineCut_within (l : List UInt8) : lineCut l <:+: l := (List.take_prefix _ _).isInfix

theorem lineCut_short {l : List UInt8} (h : l.length < shellLineMax) : lineCut l = l :=
  List.take_of_length_le (Nat.le_pred_of_lt h)

/-- what is printed for a line is never too long -/
theorem grepLine_length_le (l : List UInt8) :
    (grepLine pattern l).length ≤ (if pattern <:+: l then l ++ [newline] else []).length := by
  unfold grepLine
  by_cases hm : pattern <:+: lineCut l
  · rw [if_pos hm, if_pos (hm.trans (lineCut_within l)), List.length_append, List.length_append]
    exact Nat.add_le_add_right (List.length_take_le' _ _) _
  · rw [if_neg hm]
    exact Nat.zero_le _

theorem grepLine_length_lt {l : List UInt8} (hm : pattern <:+: l) (hlong : shellLineMax ≤ l.length) :
    (grepLine pattern l).length < (if pattern <:+: l then l ++ [newline] else []).length := by
  have hmax : shellLineMax = 256 := rfl
  have hcut : (lineCut l).length ≤ 255 := List.length_take_le _ _
  rw [if_pos hm, List.length_append, List.length_singleton]
  unfold grepLine
  split
  · rw [List.length_append, List.length_singleton]
    omega
  · exact Nat.succ_pos _

theorem not_grepExact {sh : Shell} {path l : List UInt8} (hf : FileAt sh path data) (hne : pattern ≠ [])
    (h0 : 0 ∉ pattern) (hd : 0 ∉ data) (hl : l ∈ fileLines data) (hm : pattern <:+: l)
    (hlong : shellLineMax ≤ l.length) : ¬ GrepExact sh pattern path data := by
  intro ⟨rc, hrun, _⟩
  rw [cmdGrep_eq hf hne h0 hd] at hrun
  have hout : consoleWrite ((fileLines data).flatMap (grepLine pattern)) =
      consoleWrite (grepExpected pattern data) := congrArg Prod.fst (Except.ok.inj hrun)
  have hbytes := congrArg putcs hout
  rw [putcs_consoleWrite, putcs_consoleWrite] at hbytes
  have hlen := congrArg List.length hbytes
  unfold grepExpected at hlen
  rw [List.length_flatMap, List.length_flatMap] at hlen
  have hlt := List.sum_lt_sum (l := fileLines data) (fun l => (grepLine pattern l).length)
    (fun l => (if pattern <:+: l then l ++ [newline] else []).length)
    (fun l _ => grepLine_length_le l) ⟨l, hl, grepLine_length_lt hm hlong⟩
  exact absurd hlen (Nat.ne_of_lt hlt)

/-- `grep` is exact if and only if every line with the pattern fits into its buffer. -/
theorem grepExact_iff {sh : Shell} {path : List UInt8} (hf : FileAt sh path data) (hne : pattern ≠ [])
    (h0 : 0 ∉ pattern) (hd : 0 ∉ data) : GrepExact sh pattern path data ↔
      ∀ l ∈ fileLines data, pattern <:+: l → l.length < shellLineMax := by
  constructor
  · intro h l hl hm
    by_contra hlong
    exact not_grepExact hf hne h0 hd hl hm (Nat.le_of_not_lt hlong) h
  · intro hfit
    have hsame : ∀ l ∈ fileLines data, (pattern <:+: lineCut l ↔ pattern <:+: l) := by
      intro l hl
      by_cases hlen : l.length < shellLineMax
      · rw [lineCut_short hlen]
      · have hm : ¬ pattern <:+: l := fun hm => hlen (hfit l hl hm)
        exact ⟨fun h => h.trans (lineCut_within l), fun h => absurd h hm⟩
    have hout : (fileLines data).flatMap (grepLine pattern) = grepExpected pattern data := by
      apply List.flatMap_congr
      intro l hl
      unfold grepLine
      by_cases hm : pattern <:+: l
      · rw [if_pos hm, if_pos ((hsame l hl).mpr hm), lineCut_short (hfit l hl hm)]
      · rw [if_neg hm, if_neg fun h => hm ((hsame l hl).mp h)]
    have hrun := cmdGrep_eq hf hne h0 hd
    rw [hout] at hrun
    refine ⟨_, hrun, ?_⟩
    have hcount : (fileLines data).countP (fun l => pattern <:+: lineCut l) ≠ 0 ↔
        ∃ l ∈ fileLines data, pattern <:+: l := by
      rw [← Nat.pos_iff_ne_zero, List.countP_pos_iff]
      constructor
      · intro ⟨l, hl, hm⟩
        exact ⟨l, hl, (hsame l hl).mp (by simpa using hm)⟩
      · intro ⟨l, hl, hm⟩
        exact ⟨l, hl, by simpa using (hsame l hl).mpr hm⟩
    rw [← hcount]
    split
    · exact ⟨fun _ => by assumption, fun _ => rfl⟩
    · exact ⟨fun h => absurd h (by decide), fun h => absurd h (by assumption)⟩

end

theorem grepExact_short : GrepExact (fileShell (lit "ab\nb\n")) (lit "a") (lit "f") (lit "ab\nb\n") :=
  (grepExact_iff (fileShell_file _) (by decide +kernel) (by decide +kernel) (by decide +kernel)).mpr
    (by decide +kernel)

/-- a file of 256 letters and no newline -/
theorem not_grepExact_long : ¬ GrepExact (fileShell (List.replicate 256 'a'.toUInt8)) (lit "a") (lit "f")
    (List.replicate 256 'a'.toUInt8) :=
  not_grepExact (l := List.replicate 256 'a'.toUInt8) (fileShell_file _) (by decide +kernel)
    (by decide +kernel) (by decide +kernel) (by decide +kernel) (by decide +kernel) (by decide +kernel)

end Raptor
