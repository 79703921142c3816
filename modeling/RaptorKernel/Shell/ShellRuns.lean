import RaptorKernel.Shell.CommandRuns

/-!
# Runs of the shell

* `commandOf`          the command a line runs;
* `execute_cases`      what `execute` does, by cases on `commandOf`;
* `ShInv`              the file system is well formed, names hold no NUL, nothing is captured;
* `step_ran`           one round of the loop: the command's calls, and those of the redirection;
* `shell_inv`          `ShInv` holds along every run.
-/

namespace Raptor
open Forest Mem

/-! ## words of the line -/

theorem tokenizeLoop_mem {fuel max : Nat} {line w : List UInt8}
    (h : w ∈ tokenizeLoop fuel line max) : ∀ b ∈ w, b ∈ line := by
  induction fuel generalizing line max with
  | zero => exact absurd h (by simp [tokenizeLoop])
  | succ fuel ih =>
    cases max with
    | zero => exact absurd h (by simp [tokenizeLoop])
    | succ max =>
      unfold tokenizeLoop at h
      have hsub : ∀ b ∈ line.dropWhile (· == space), b ∈ line :=
        fun b hb => (List.dropWhile_sublist _).mem hb
      split at h
      · exact absurd h (by simp)
      · rename_i c p e
        rw [e] at hsub
        split at h
        · rcases List.mem_cons.mp h with rfl | h
          · exact fun b hb => hsub b (List.mem_cons_of_mem _ ((List.takeWhile_sublist _).mem hb))
          · exact fun b hb => hsub b (List.mem_cons_of_mem _ (List.mem_of_mem_drop (ih h b hb)))
        · rcases List.mem_cons.mp h with rfl | h
          · exact fun b hb => hsub b ((List.takeWhile_sublist _).mem hb)
          · exact fun b hb => hsub b (List.mem_of_mem_drop (ih h b hb))

/-- the words of a line are made of its bytes -/
theorem tokenize_nulFree {line w : List UInt8} {max : Nat} (h0 : 0 ∉ line)
    (h : w ∈ tokenize line max) : 0 ∉ w :=
  fun hw => h0 (tokenizeLoop_mem h 0 hw)

theorem scanRedirection_mem (ws : List (List UInt8)) :
    (∀ w ∈ (scanRedirection ws).1, w ∈ ws) ∧
      ∀ append path, (scanRedirection ws).2 = .file append path → path ∈ ws := by
  induction ws with
  | nil => exact ⟨fun w hw => hw, fun _ _ h => by cases h⟩
  | cons w ws ih =>
    unfold scanRedirection
    split
    · split
      · exact ⟨fun w hw => absurd hw (by simp), fun _ _ h => by cases h⟩
      · refine ⟨fun w hw => absurd hw (by simp), fun _ _ h => ?_⟩
        cases h
        simp
    · refine ⟨fun x hx => ?_, fun append path h => List.mem_cons_of_mem _ (ih.2 append path h)⟩
      rcases List.mem_cons.mp hx with rfl | hx
      · exact List.mem_cons_self
      · exact List.mem_cons_of_mem _ (ih.1 x hx)

/-! ## what a line runs -/

/-- the command a line runs on the file system `s`, its arguments, and the file system once a
capture buffer is allocated for it -/
def commandOf (s : Ramfs) (line : List UInt8) : Option (Command × List (List UInt8) × Ramfs) :=
  match scanRedirection (tokenize line shellArgvMax) with
  | (name :: args, .none) => (findCommand name).map fun cmd => (cmd, args, s)
  | (name :: args, .file _ _) =>
    if (s.kmalloc false captureMax).1 = 0 then none
    else (findCommand name).map fun cmd => (cmd, args, (s.kmalloc false captureMax).2)
  | _ => none

/-- `execute` prints and is done, or runs a command, or runs one while capturing. -/
theorem execute_cases (env : Env) (sh : Shell) {line : List UInt8} (h0 : 0 ∉ line) :
    (commandOf sh.fs line = none ∧ ∃ evs, execute env sh line = .ok (sh.print evs)) ∨
    (∃ cmd args, commandOf sh.fs line = some (cmd, args, sh.fs) ∧ (∀ a ∈ args, 0 ∉ a) ∧
      execute env sh line = (cmd.run env sh args).map sh.after) ∨
    ∃ cmd args append path, commandOf sh.fs line = some (cmd, args, sh.capturing.fs) ∧
      (∀ a ∈ args, 0 ∉ a) ∧ 0 ∉ path ∧ (sh.fs.kmalloc false captureMax).1 ≠ 0 ∧
      execute env sh line = (cmd.run env sh.capturing args >>= fun d =>
        finishRedirect (sh.capturing.after d) (sh.fs.kmalloc false captureMax).1 path append) := by
  have hnul : ∀ w ∈ tokenize line shellArgvMax, 0 ∉ w := fun w hw => tokenize_nulFree h0 hw
  obtain ⟨hargv, hpath⟩ := scanRedirection_mem (tokenize line shellArgvMax)
  unfold commandOf execute
  generalize hsc : scanRedirection (tokenize line shellArgvMax) = sc at hargv hpath ⊢
  obtain ⟨argv, r⟩ := sc
  have hprint : ∃ evs, (Except.ok sh : Except Fault Shell) = .ok (sh.print evs) := ⟨[], rfl⟩
  cases r with
  | missing =>
    refine .inl ⟨?_, _, rfl⟩
    cases argv <;> rfl
  | none =>
    cases argv with
    | nil => exact .inl ⟨rfl, hprint⟩
    | cons name args =>
      cases hf : findCommand name with
      | none =>
        refine .inl ⟨?_, ?_⟩
        · simp only [hf, Option.map_none]
        · simp only [hf]
          exact ⟨_, rfl⟩
      | some cmd =>
        refine .inr (.inl ⟨cmd, args, ?_, fun a ha => ?_, ?_⟩)
        · simp only [hf, Option.map_some]
        · exact hnul a (hargv a (List.mem_cons_of_mem _ ha))
        · simp only [hf]
  | file append path =>
    cases argv with
    | nil => exact .inl ⟨rfl, hprint⟩
    | cons name args =>
      have hargs : ∀ a ∈ args, 0 ∉ a := fun a ha => hnul a (hargv a (List.mem_cons_of_mem _ ha))
      by_cases hbuf : (sh.fs.kmalloc false captureMax).1 = 0
      · refine .inl ⟨if_pos hbuf, ?_⟩
        cases hf : findCommand name with
        | none =>
          simp only [hf]
          exact ⟨_, rfl⟩
        | some cmd =>
          simp only [hf]
          unfold executeRedirected
          rw [if_pos hbuf]
          exact ⟨_, rfl⟩
      cases hf : findCommand name with
      | none =>
        refine .inl ⟨?_, ?_⟩
        · simp only [hf, Option.map_none, if_neg hbuf]
        · simp only [hf]
          exact ⟨_, rfl⟩
      | some cmd =>
        refine .inr (.inr ⟨cmd, args, append, path, ?_, hargs, hnul path (hpath append path rfl),
          hbuf, ?_⟩)
        · simp only [hf, Option.map_some, if_neg hbuf]
          rfl
        · simp only [hf]
          exact if_neg hbuf

/-! ## capturing -/

section
variable {sh : Shell} {held : List Nat} {F : Forest Nat}

/-- the capture buffer is a block of the shell's own -/
theorem capturing_inv (h : FsInv sh.fs held F) (hbuf : (sh.fs.kmalloc false captureMax).1 ≠ 0) :
    FsInv sh.capturing.fs ((sh.fs.kmalloc false captureMax).1 :: held) F ∧
      SameFiles sh.fs sh.capturing.fs := by
  rcases Ramfs.kmalloc_cases false sh.fs captureMax with e | ⟨p, H', hk, hp, e⟩
  · rw [e] at hbuf
    exact absurd rfl hbuf
  · have hfs : sh.capturing.fs = { sh.fs with heap := H' } := by
      show (sh.fs.kmalloc false captureMax).2 = _
      rw [e]
    rw [hfs, e]
    exact ⟨h.alloc hk hp, rfl, rfl, rfl⟩

/-- the buffer is all that a command finds changed -/
theorem commandOf_inv (h : FsInv sh.fs held F) {line : List UInt8} {cmd : Command} {args : List (List UInt8)}
    {s : Ramfs} (e : commandOf sh.fs line = some (cmd, args, s)) :
    (∃ held', FsInv s held' F) ∧ SameFiles sh.fs s := by
  unfold commandOf at e
  split at e
  · obtain ⟨c, _, e⟩ := Option.map_eq_some_iff.mp e
    cases e
    exact ⟨⟨held, h⟩, rfl, rfl, rfl⟩
  · split at e
    · cases e
    · rename_i hbuf
      obtain ⟨c, _, e⟩ := Option.map_eq_some_iff.mp e
      cases e
      obtain ⟨h1, h2⟩ := capturing_inv h hbuf
      exact ⟨⟨_, h1⟩, h2⟩
  · cases e

/-- what holds when a command has returned whose output was captured -/
theorem capturing_calls (h : FsInv sh.fs held F) (hz : NulFree sh.fs) {c : RamfsNode}
    (hc : sh.fs.node sh.cwd = some c) (hbuf : (sh.fs.kmalloc false captureMax).1 ≠ 0) {env : Env}
    {cmd : Command} {args : List (List UInt8)} (hargs : ∀ a ∈ args, 0 ∉ a) {d : Done}
    (hd : cmd.run env sh.capturing args = .ok d) :
    d.cwd ≠ 0 ∧ ∃ F', FsInv d.fs ((sh.fs.kmalloc false captureMax).1 :: held) F' := by
  obtain ⟨h1, hsame⟩ := capturing_inv h hbuf
  have hc1 : sh.capturing.fs.node sh.capturing.cwd = some c := by
    rw [hsame.node]
    exact hc
  obtain ⟨h2, h3⟩ := run_calls h1 (hsame.nulFree hz) hc1 hargs hd
  exact ⟨h3, h2.inv h1⟩

/-- what was captured when the command has returned -/
theorem captured_after (hbuf : (sh.fs.kmalloc false captureMax).1 ≠ 0) (d : Done) :
    (sh.capturing.after d).con.captured = (putcs d.out).take captureMax ∧
      putcs (sh.capturing.after d).con.screen = putcs sh.con.screen := by
  have hbuf' : sh.capturing.con.captureBuf ≠ 0 := hbuf
  exact feed_captured hbuf' (Nat.zero_le _) d.out

end

/-! ## writing to the target -/

section
variable {sh sh' : Shell} {held : List Nat} {F : Forest Nat} {path data : List UInt8} {append : Bool}

theorem openTarget_calls (h : FsInv sh.fs held F) (h0 : sh.cwd ≠ 0) (hpath : 0 ∉ path) {f : Nat}
    {s : Ramfs} (ho : openTarget sh.fs sh.cwd path = .ok (f, s)) :
    Calls FsOp.isInit sh.fs s ∧ ∃ F', FsInv s held F' := by
  obtain ⟨x, _, ho⟩ := bind_eq_ok.mp ho
  by_cases hx : x = 0
  · rw [if_pos hx] at ho
    rcases ramfsCreate_any h h0 ho with ⟨_, rfl⟩ | ⟨d, n, hd, _, hc⟩
    · exact ⟨.refl _ _, F, h⟩
    · obtain ⟨r, s', F', h1, h2, h3, _⟩ := create_calls (p := FsOp.isInit) h hd hpath .file
        fun _ _ _ => rfl
      rw [hc] at h1
      cases h1
      exact ⟨h2, F', h3⟩
  · rw [if_neg hx] at ho
    cases ho
    exact ⟨.refl _ _, F, h⟩

theorem writeTarget_calls (h : FsInv sh.fs held F) (hlen : data.length ≤ heapSize) {f : Nat}
    (hw : writeTarget sh f path data append = .ok sh') :
    Calls FsOp.isInit sh.fs sh'.fs ∧ sh'.cwd = sh.cwd ∧ sh'.con.captureBuf = sh.con.captureBuf := by
  unfold writeTarget at hw
  by_cases hf : f = 0
  · rw [if_pos hf] at hw
    cases hw
    exact ⟨.refl _ _, rfl, feed_captureBuf _ _⟩
  rw [if_neg hf] at hw
  obtain ⟨n, hn, hw⟩ := bind_eq_ok.mp hw
  by_cases ht : n.type = .file
  · rw [if_neg (not_not.mpr ht)] at hw
    have hlive : sh.fs.node f = some n := Ramfs.deref_eq_ok.mp hn
    obtain ⟨b, s', h1, h2⟩ := write_calls (p := FsOp.isInit) h hlive hlen append fun _ _ _ _ => rfl
    rw [h1, ok_bind] at hw
    cases b with
    | false =>
      cases hw
      exact ⟨h2, rfl, feed_captureBuf _ _⟩
    | true =>
      cases hw
      exact ⟨h2, rfl, rfl⟩
  · rw [if_pos ht] at hw
    cases hw
    exact ⟨.refl _ _, rfl, feed_captureBuf _ _⟩

theorem redirectToFile_calls (h : FsInv sh.fs held F) (h0 : sh.cwd ≠ 0) (hpath : 0 ∉ path)
    (hlen : data.length ≤ heapSize) (hr : redirectToFile sh path data append = .ok sh') :
    Calls FsOp.isInit sh.fs sh'.fs ∧ sh'.cwd = sh.cwd ∧ sh'.con.captureBuf = sh.con.captureBuf := by
  obtain ⟨⟨f, s⟩, ho, hw⟩ := bind_eq_ok.mp hr
  obtain ⟨h1, F', h2⟩ := openTarget_calls h h0 hpath ho
  have h2' : FsInv ({ sh with fs := s } : Shell).fs held F' := h2
  obtain ⟨h3, h4⟩ := writeTarget_calls h2' hlen hw
  exact ⟨h1.trans h3, h4⟩

theorem redirectToFile_returns (h : FsInv sh.fs held F) {c : RamfsNode}
    (hc : sh.fs.node sh.cwd = some c) (hlen : data.length ≤ heapSize) :
    ∃ sh', redirectToFile sh path data append = .ok sh' := by
  -- the target is a live node of a well-formed file system, or NULL
  have hopen : ∃ f s F', openTarget sh.fs sh.cwd path = .ok (f, s) ∧ FsInv s held F' ∧
      (f ≠ 0 → ∃ n, s.node f = some n) := by
    obtain ⟨x, h1, h2⟩ := ramfsResolve_spec h.tree h.bound' hc path
    unfold openTarget
    rw [h1, ok_bind]
    by_cases hx : x = 0
    · obtain ⟨r, s', F', e1, e2, _, e4⟩ := ramfsCreate_spec h hc false path .file
      rw [if_pos hx]
      refine ⟨r, s', F', e1, e2, fun hr => ?_⟩
      obtain ⟨_, _, _, _, _, hcr⟩ := e4 hr
      obtain ⟨_, _, _, e⟩ := hcr.first
      exact ⟨_, e⟩
    · rw [if_neg hx]
      exact ⟨x, sh.fs, F, rfl, h, fun _ => h2 hx⟩
  obtain ⟨f, s, F', h1, h2, h3⟩ := hopen
  unfold redirectToFile
  rw [h1, ok_bind]
  show ∃ sh', writeTarget { sh with fs := s } f path data append = .ok sh'
  unfold writeTarget
  by_cases hf : f = 0
  · exact ⟨_, if_pos hf⟩
  obtain ⟨n, hn⟩ := h3 hf
  have hd : ({ sh with fs := s } : Shell).fs.deref f = .ok n := Ramfs.deref_ok hn
  rw [if_neg hf, hd, ok_bind]
  by_cases ht : n.type = .file
  · obtain ⟨b, s', e1, _⟩ := ramfsWrite_spec h2 hn hlen false append
    have e1' : ramfsWrite false ({ sh with fs := s } : Shell).fs f data append = .ok (b, s') := e1
    rw [if_neg (not_not.mpr ht), e1', ok_bind]
    cases b with
    | false => exact ⟨_, rfl⟩
    | true => exact ⟨_, rfl⟩
  · exact ⟨_, if_pos ht⟩

theorem finishRedirect_ran {buf : Nat} (h : FsInv sh.fs (buf :: held) F) (h0 : sh.cwd ≠ 0)
    (hpath : 0 ∉ path) (hlen : sh.con.captured.length ≤ heapSize)
    (hr : finishRedirect sh buf path append = .ok sh') :
    ∃ s, Calls FsOp.isInit sh.fs s ∧ SameFiles s sh'.fs ∧ (∃ F', FsInv sh'.fs held F') ∧
      sh'.cwd = sh.cwd ∧ sh'.con.captureBuf = 0 := by
  obtain ⟨sh1, h1, hr⟩ := bind_eq_ok.mp hr
  obtain ⟨s, hk, hr⟩ := bind_eq_ok.mp hr
  cases hr
  have h' : FsInv ({ sh with con := (consoleCaptureEnd sh.con).2 } : Shell).fs (buf :: held) F := h
  obtain ⟨h2, h3, h4⟩ := redirectToFile_calls h' h0 hpath hlen h1
  obtain ⟨F', h5⟩ := h2.inv h
  obtain ⟨s', h6, h7, h8⟩ := h5.release
  rw [hk] at h6
  cases h6
  exact ⟨sh1.fs, h2, h8, ⟨F', h7⟩, h3, h4⟩

theorem finishRedirect_returns {buf : Nat} (append : Bool) (h : FsInv sh.fs (buf :: held) F) {c : RamfsNode}
    (hc : sh.fs.node sh.cwd = some c) (hpath : 0 ∉ path)
    (hlen : sh.con.captured.length ≤ heapSize) :
    ∃ sh', finishRedirect sh buf path append = .ok sh' := by
  have h' : FsInv ({ sh with con := (consoleCaptureEnd sh.con).2 } : Shell).fs (buf :: held) F := h
  obtain ⟨sh1, h1⟩ : ∃ sh1, redirectToFile { sh with con := (consoleCaptureEnd sh.con).2 } path
      (consoleCaptureEnd sh.con).1 append = .ok sh1 := redirectToFile_returns h' hc hlen
  obtain ⟨h2, _⟩ := redirectToFile_calls h' (h.tree.ne_zero hc) hpath hlen h1
  obtain ⟨F', h3⟩ := h2.inv h
  obtain ⟨s', h4, _⟩ := h3.release
  unfold finishRedirect
  rw [h1, ok_bind, h4, ok_bind]
  exact ⟨_, rfl⟩

end

/-! ## one line -/

/-- The line ran the command, from the shell `sh1`, and what the redirection added led to `s`. -/
structure Ran (env : Env) (sh : Shell) (line : List UInt8) (sh' : Shell) (cmd : Command)
    (args : List (List UInt8)) (sh1 : Shell) (d : Done) (s : Ramfs) : Prop where
  command : commandOf sh.fs line = some (cmd, args, sh1.fs)
  before : SameFiles sh.fs sh1.fs
  cwd : sh1.cwd = sh.cwd
  nulFree : ∀ a ∈ args, 0 ∉ a
  inv : ∃ held F, FsInv sh1.fs held F
  run : cmd.run env sh1 args = .ok d
  redirected : Calls FsOp.isInit d.fs s
  after : SameFiles s sh'.fs
  cwd' : sh'.cwd = d.cwd

section
variable {sh sh' : Shell} {held : List Nat} {F : Forest Nat} {line : List UInt8} {env : Env}
  {c : RamfsNode}

theorem captured_length (hbuf : (sh.fs.kmalloc false captureMax).1 ≠ 0) (d : Done) :
    (sh.capturing.after d).con.captured.length ≤ heapSize := by
  have h1 : heapSize = 4194304 := rfl
  have h2 : captureMax = 16384 := rfl
  rw [(captured_after hbuf d).1, List.length_take]
  omega

theorem execute_ran (h : FsInv sh.fs held F) (hz : NulFree sh.fs) (hc : sh.fs.node sh.cwd = some c)
    (hidle : sh.con.captureBuf = 0) (h0 : 0 ∉ line) (he : execute env sh line = .ok sh') :
    sh'.con.captureBuf = 0 ∧ (∃ F', FsInv sh'.fs held F') ∧
      ((commandOf sh.fs line = none ∧ sh'.fs = sh.fs ∧ sh'.cwd = sh.cwd) ∨
        ∃ cmd args sh1 d s, Ran env sh line sh' cmd args sh1 d s) := by
  rcases execute_cases env sh h0 with ⟨h1, evs, e⟩ | ⟨cmd, args, h1, h2, e⟩ |
    ⟨cmd, args, append, path, h1, h2, h3, hbuf, e⟩
  · rw [e] at he
    cases he
    exact ⟨(feed_captureBuf _ _).trans hidle, ⟨F, h⟩, .inl ⟨h1, rfl, rfl⟩⟩
  · rw [e] at he
    obtain ⟨d, hd, rfl⟩ := map_eq_ok.mp he
    obtain ⟨h4, _⟩ := run_calls h hz hc h2 hd
    exact ⟨(feed_captureBuf _ _).trans hidle, h4.inv h, .inr ⟨cmd, args, sh, d, d.fs, h1,
      ⟨rfl, rfl, rfl⟩, rfl, h2, ⟨held, F, h⟩, hd, .refl _ _, ⟨rfl, rfl, rfl⟩, rfl⟩⟩
  · rw [e] at he
    obtain ⟨d, hd, hr⟩ := bind_eq_ok.mp he
    obtain ⟨h4, hsame⟩ := capturing_inv h hbuf
    obtain ⟨h5, F', h6⟩ := capturing_calls h hz hc hbuf h2 hd
    have h6' : FsInv (sh.capturing.after d).fs _ F' := h6
    obtain ⟨s, k1, k2, k3, k4, k5⟩ := finishRedirect_ran h6' h5 h3 (captured_length hbuf d) hr
    exact ⟨k5, k3, .inr ⟨cmd, args, sh.capturing, d, s, h1, hsame, rfl, h2, ⟨_, F, h4⟩, hd, k1, k2,
      k4⟩⟩

theorem execute_returns (h : FsInv sh.fs held F) (hz : NulFree sh.fs) (hcwd : IsDir sh.fs sh.cwd)
    (env : Env) (h0 : 0 ∉ line)
    (hsafe : ∀ args s, commandOf sh.fs line = some (.rm, args, s) → RmSafe sh.cwd s false args) :
    execute env sh line = .error .halted ∨
      ∃ sh', execute env sh line = .ok sh' ∧ IsDir sh'.fs sh'.cwd := by
  rcases execute_cases env sh h0 with ⟨h1, evs, e⟩ | ⟨cmd, args, h1, h2, e⟩ |
    ⟨cmd, args, append, path, h1, h2, h3, hbuf, e⟩
  · exact .inr ⟨_, e, hcwd⟩
  · have hs : cmd = .rm → RmSafe sh.cwd sh.fs false args := fun ec => hsafe _ _ (ec ▸ h1)
    rcases run_returns h hz hcwd env h2 hs with h3 | ⟨d, h3, h4⟩
    · rw [h3] at e
      exact .inl e
    · rw [h3] at e
      exact .inr ⟨_, e, h4⟩
  · obtain ⟨h4, hsame⟩ := capturing_inv h hbuf
    have hcwd1 : IsDir sh.capturing.fs sh.capturing.cwd := by
      unfold IsDir
      rw [hsame.node]
      exact hcwd
    have hs : cmd = .rm → RmSafe sh.capturing.cwd sh.capturing.fs false args :=
      fun ec => hsafe _ _ (ec ▸ h1)
    rcases run_returns h4 (hsame.nulFree hz) hcwd1 env h2 hs with h5 | ⟨d, h5, n, hn, hdir⟩
    · rw [h5] at e
      exact .inl e
    · obtain ⟨c, hc, _⟩ := hcwd
      obtain ⟨h7, F', h8⟩ := capturing_calls h hz hc hbuf h2 h5
      have h8' : FsInv (sh.capturing.after d).fs _ F' := h8
      obtain ⟨sh', h9⟩ := finishRedirect_returns append h8' hn h3 (captured_length hbuf d)
      obtain ⟨s, k1, k2, _, k4, _⟩ := finishRedirect_ran h8' h7 h3 (captured_length hbuf d) h9
      rw [h5, ok_bind, h9] at e
      refine .inr ⟨sh', e, ?_⟩
      have hk := k1.kept (fun op hop => by cases op <;> first | rfl | cases hop) h8
      obtain ⟨n', hn', e'⟩ := hk.isDir (show IsDir d.fs d.cwd from ⟨n, hn, hdir⟩)
      rw [k4]
      exact ⟨n', by rw [k2.node]; exact hn', e'⟩

end

/-! ## the loop -/

structure ShInv (sh : Shell) : Prop where
  files : ∃ F, FsInv sh.fs [] F
  nulFree : NulFree sh.fs
  idle : sh.con.captureBuf = 0

section
variable {sh sh' : Shell} {line : List UInt8} {env : Env}

/-- the prompt comes out exactly if the working directory is a live node -/
theorem beforeExecute_ran (h : beforeExecute sh line = .ok sh') :
    sh'.fs = sh.fs ∧ sh'.cwd = sh.cwd ∧ sh'.con.captureBuf = sh.con.captureBuf ∧
      ∃ c, sh.fs.node sh.cwd = some c := by
  obtain ⟨sh1, h1, h2⟩ := map_eq_ok.mp h
  obtain ⟨m, h3, h4⟩ := bind_eq_ok.mp h1
  obtain ⟨c, h5, _⟩ := bind_eq_ok.mp h3
  have hlive : ∃ c, sh.fs.node sh.cwd = some c := ⟨c, Ramfs.deref_eq_ok.mp h5⟩
  cases h4
  rw [← h2]
  split
  · exact ⟨rfl, rfl, feed_captureBuf _ _, hlive⟩
  · exact ⟨rfl, rfl, feed_captureBuf _ _, hlive⟩

theorem beforeExecute_returns (line : List UInt8) (hi : ShInv sh) {c : RamfsNode} (hc : sh.fs.node sh.cwd = some c) :
    ∃ sh1, beforeExecute sh line = .ok sh1 := by
  obtain ⟨F, h⟩ := hi.files
  obtain ⟨p, hp⟩ := exists_pathTo h.tree hc
  obtain ⟨m, hm, _⟩ := ramfsPath_spec h.tree hi.nulFree hc hp (fun _ => 0) 0
    (show 1 ≤ ramfsPathMax by decide) (by decide)
  unfold beforeExecute printPrompt
  rw [hm, ok_bind]
  exact ⟨_, rfl⟩

theorem Ran.nulFree_after {cmd : Command} {args : List (List UInt8)} {sh1 : Shell} {d : Done}
    {s : Ramfs} (h : Ran env sh line sh' cmd args sh1 d s) (hz : NulFree sh.fs) {c : RamfsNode}
    (hc : sh.fs.node sh.cwd = some c) : NulFree sh'.fs := by
  obtain ⟨held, F, h1⟩ := h.inv
  have hc1 : sh1.fs.node sh1.cwd = some c := by
    rw [h.before.node, h.cwd]
    exact hc
  have hz1 := h.before.nulFree hz
  obtain ⟨h2, _⟩ := run_calls h1 hz1 hc1 h.nulFree h.run
  obtain ⟨F2, h3⟩ := h2.inv h1
  exact h.after.nulFree (h.redirected.nulFree h3 (h2.nulFree h1 hz1))

/-- one round that came to its end -/
theorem step_ran (hi : ShInv sh) (h0 : 0 ∉ line) (hs : shellStep env sh line = .ok sh') :
    ShInv sh' ∧ (∃ c, sh.fs.node sh.cwd = some c) ∧
      ((commandOf sh.fs line = none ∧ sh'.fs = sh.fs ∧ sh'.cwd = sh.cwd) ∨
        ∃ sh0 cmd args sh1 d s, sh0.fs = sh.fs ∧ sh0.cwd = sh.cwd ∧
          Ran env sh0 line sh' cmd args sh1 d s) := by
  obtain ⟨sh0, h1, h2⟩ := bind_eq_ok.mp hs
  obtain ⟨e1, e2, e3, c, hc⟩ := beforeExecute_ran h1
  obtain ⟨F, h⟩ := hi.files
  have h' : FsInv sh0.fs [] F := e1 ▸ h
  have hz' : NulFree sh0.fs := e1 ▸ hi.nulFree
  have hc' : sh0.fs.node sh0.cwd = some c := by
    rw [e1, e2]
    exact hc
  obtain ⟨k1, k2, k3⟩ := execute_ran h' hz' hc' (e3.trans hi.idle) h0 h2
  rcases k3 with ⟨k3, k4, k5⟩ | ⟨cmd, args, sh1, d, s, hran⟩
  · refine ⟨⟨k2, by rw [k4]; exact hz', k1⟩, ⟨c, hc⟩, .inl ⟨e1 ▸ k3, k4.trans e1, k5.trans e2⟩⟩
  · exact ⟨⟨k2, hran.nulFree_after hz' hc', k1⟩, ⟨c, hc⟩,
      .inr ⟨sh0, cmd, args, sh1, d, s, e1, e2, hran⟩⟩

end

/-- `ShInv` along every run, whatever the lines -/
theorem shell_inv {ok : Shell → Input → Prop} {sh0 sh : Shell} {is : List Input}
    (r : (shellMachine ok).Run sh0 is sh) (h0 : ShInv sh0) : ShInv sh :=
  r.inv h0 fun _ i _ hi _ hs => (step_ran hi i.line.nulFree hs).1

/-! ## boot -/

/-- the machine comes up, in the root directory, with well-named files -/
theorem boot_spec (img : Image) (m : Mem) (screen : List ConEv) :
    ∃ sh, boot img m screen = .ok sh ∧ ShInv sh ∧ IsDir sh.fs sh.cwd ∧ NamesInv sh.fs := by
  obtain ⟨_, s0, h0, _⟩ := ramfsInit_run (fun _ => false) m (init_root_ne_zero img)
  obtain ⟨⟨F, h⟩, hn, hz⟩ := names_after_init (init_root_ne_zero img) h0 .nil
    fun op hop => absurd hop (by simp)
  rw [Heap.init_ptrs] at h
  obtain ⟨r, hr, hdir⟩ := h.tree.rootDir
  obtain ⟨a, h1, h2⟩ := ramfsResolve_spec h.tree h.bound' hr (lit "/etc/motd")
  have hsh : ∀ evs, ShInv (Shell.print ⟨s0, s0.root, ⟨0, 0, [], screen⟩, fun _ => [], 0⟩ evs) :=
    fun evs => ⟨⟨F, h⟩, hz, feed_captureBuf _ _⟩
  unfold boot
  rw [h0, ok_bind]
  unfold shellStart
  dsimp only
  rw [h1, ok_bind]
  by_cases ha : a = 0
  · exact ⟨_, if_pos ha, hsh [], ⟨r, hr, hdir⟩, hn⟩
  obtain ⟨n, hn'⟩ := h2 ha
  rw [if_neg ha, Ramfs.deref_ok hn', ok_bind]
  by_cases ht : n.type = .file
  · exact ⟨_, if_neg (not_not.mpr ht), hsh _, ⟨r, hr, hdir⟩, hn⟩
  · exact ⟨_, if_pos ht, hsh [], ⟨r, hr, hdir⟩, hn⟩

theorem boot_inv {img : Image} {m : Mem} {screen : List ConEv} {sh : Shell} (h0 : boot img m screen = .ok sh) :
    ShInv sh ∧ IsDir sh.fs sh.cwd ∧ NamesInv sh.fs := by
  obtain ⟨sh', e, h⟩ := boot_spec img m screen
  rw [h0] at e
  cases e
  exact h

end Raptor
