import RaptorKernel.Shell.Cwd
import RaptorKernel.Lib.Formats

/-!
# Redirection

`execute` captures the output of a command in a buffer of `CAPTURE_MAX` bytes, and what does not
fit is dropped without a word; a line with a redirection and no command is dropped whole.

* `RedirectExact`        the target holds what the command printed, or the user was told;
* `RedirectFits`         the output fits the buffer, or an error stops the redirection;
* `redirect_exact_iff`   the one holds exactly when the other does, in every state of every run.
-/

namespace Raptor
open Forest Mem

/-- the state when the command has ended, and what it printed: a line without a command, or with
an unknown one, runs nothing -/
def commandEnd (env : Env) (sh : Shell) : List (List UInt8) → Except Fault Done
  | [] => .ok ⟨sh.fs, sh.cwd, [], 0⟩
  | name :: args =>
    match findCommand name with
    | none => .ok ⟨sh.fs, sh.cwd, [], 0⟩
    | some cmd => cmd.run env sh.capturing args

def targetContents (s : Ramfs) (cwd : Nat) (path : List UInt8) : List UInt8 :=
  match ramfsResolve s cwd path with
  | .ok f => s.contents f
  | .error _ => []

/-- a message of the shell came out on the screen -/
def ErrorShown (sh sh' : Shell) : Prop :=
  ∃ msg, lit "rsh: " <+: msg ∧ putcs sh'.con.screen = putcs sh.con.screen ++ msg

def RedirectExact (env : Env) (sh : Shell) (line : List UInt8) (argv : List (List UInt8))
    (append : Bool) (path : List UInt8) : Prop :=
  ∀ sh', execute env sh line = .ok sh' → ErrorShown sh sh' ∨
    ∃ d f n, commandEnd env sh argv = .ok d ∧ ramfsResolve sh'.fs sh'.cwd path = .ok f ∧
      sh'.fs.node f = some n ∧ n.type = .file ∧
      sh'.fs.contents f = (if append then targetContents d.fs d.cwd path else []) ++ putcs d.out

/-- the target is a file or can be created as one, and there is memory for the bytes -/
def CanWrite (d : Done) (append : Bool) (path : List UInt8) : Prop :=
  ∃ f s n s', openTarget d.fs d.cwd path = .ok (f, s) ∧ s.node f = some n ∧ n.type = .file ∧
    ramfsWrite false s f ((putcs d.out).take captureMax) append = .ok (true, s')

/-- With a command: it is unknown, or there is no memory for the buffer, or it prints at most
`CAPTURE_MAX` bytes, or the target cannot be written.  Without one: the target is a file, and
empty if it should be overwritten. -/
def RedirectFits (env : Env) (sh : Shell) (argv : List (List UInt8)) (append : Bool)
    (path : List UInt8) : Prop :=
  match argv with
  | [] => ∃ f n, ramfsResolve sh.fs sh.cwd path = .ok f ∧ sh.fs.node f = some n ∧ n.type = .file ∧
      (append = true ∨ sh.fs.contents f = [])
  | name :: args => ∀ cmd, findCommand name = some cmd →
      (sh.fs.kmalloc false captureMax).1 = 0 ∨ ∀ d, cmd.run env sh.capturing args = .ok d →
        CanWrite d append path → (putcs d.out).length ≤ captureMax

/-! ## messages -/

section
variable {sh sh' : Shell}

theorem not_errorShown (h : putcs sh'.con.screen = putcs sh.con.screen) : ¬ ErrorShown sh sh' := by
  rintro ⟨msg, hpre, e⟩
  rw [h] at e
  have h0 : msg = [] := by simpa using e.symm
  rw [h0] at hpre
  exact absurd (List.prefix_nil.mp hpre) (by decide)

/-- a message printed with nothing captured is shown -/
theorem errorShown_print (hidle : sh'.con.captureBuf = 0)
    (hscreen : putcs sh'.con.screen = putcs sh.con.screen) {msg : List UInt8}
    (hmsg : lit "rsh: " <+: msg) : ErrorShown sh (sh'.print (consoleWrite msg)) := by
  refine ⟨msg, hmsg, ?_⟩
  show putcs (sh'.con.feed (consoleWrite msg)).screen = _
  rw [feed_screen hidle, putcs_append, putcs_consoleWrite, hscreen]

end

/-- a format that starts with text prints that text first -/
theorem rsh_first {fmt : String} (rest : List UInt8) (hfmt : lit fmt = lit "rsh: " ++ rest)
    (args : List Arg) : lit "rsh: " <+: kprintf fmt args := by
  unfold kprintf
  rw [hfmt, kvprintf_text (by decide)]
  exact List.prefix_append _ _

/-! ## the target -/

section
variable {s : Ramfs} {held : List Nat} {F : Forest Nat} {cwd : Nat} {path : List UInt8}

/-- what was found or created is what the path leads to; its contents are those of the target -/
theorem openTarget_spec (h : FsInv s held F) (h0 : cwd ≠ 0) {f : Nat} {t : Ramfs} {n : RamfsNode}
    (ho : openTarget s cwd path = .ok (f, t)) (hn : t.node f = some n) :
    (∃ F', FsInv t held F') ∧ ramfsResolve t cwd path = .ok f ∧
      t.contents f = targetContents s cwd path := by
  obtain ⟨x, hx, ho⟩ := bind_eq_ok.mp ho
  unfold targetContents
  rw [hx]
  by_cases hx0 : x = 0
  · rw [if_pos hx0] at ho
    have hzero : s.contents x = [] := by
      unfold Ramfs.contents
      cases hz : s.node x with
      | none => rfl
      | some m => exact absurd hx0 (h.tree.ne_zero hz)
    rcases ramfsCreate_any h h0 ho with ⟨rfl, rfl⟩ | ⟨d, m, hd, e, hc⟩
    · exact absurd rfl (h.tree.ne_zero hn)
    · obtain ⟨r, u, F', e1, e2, _, _⟩ := ramfsCreate_spec h hd false path .file
      rw [hc] at e1
      cases e1
      obtain ⟨k1, k2, k3⟩ := ramfsCreate_resolve h hd hc (e2.tree.ne_zero hn)
      have hstart : startOf t d path = startOf t cwd path := by
        unfold startOf at e ⊢
        rw [k3]
        exact e
      refine ⟨⟨F', e2⟩, ?_, k2.trans hzero.symm⟩
      rw [ramfsResolve_start h0 (h.tree.ne_zero hd) hstart]
      exact k1
  · rw [if_neg hx0] at ho
    cases ho
    exact ⟨⟨F, h⟩, hx, rfl⟩

end

/-- `redirect_to_file` writes, or says why not -/
theorem redirectToFile_cases {sh sh' : Shell} {path data : List UInt8} {append : Bool}
    (hidle : sh.con.captureBuf = 0) (hr : redirectToFile sh path data append = .ok sh') :
    ErrorShown sh sh' ∨
      ∃ f s n, openTarget sh.fs sh.cwd path = .ok (f, s) ∧ s.node f = some n ∧ n.type = .file ∧
        ramfsWrite false s f data append = .ok (true, sh'.fs) ∧ sh' = { sh with fs := sh'.fs } := by
  obtain ⟨⟨f, s⟩, ho, hw⟩ := bind_eq_ok.mp hr
  have hcannot : ErrorShown sh (Shell.print { sh with fs := s }
      (printf "rsh: cannot write to %s\n" [.text path])) :=
    errorShown_print (show ({ sh with fs := s } : Shell).con.captureBuf = 0 from hidle) rfl
      (rsh_first (lit "cannot write to %s\n") (by decide) _)
  have hw' : writeTarget { sh with fs := s } f path data append = .ok sh' := hw
  unfold writeTarget at hw'
  by_cases hf : f = 0
  · rw [if_pos hf] at hw'
    cases hw'
    exact .inl hcannot
  rw [if_neg hf] at hw'
  obtain ⟨n, hn, hw'⟩ := bind_eq_ok.mp hw'
  have hlive : s.node f = some n := Ramfs.deref_eq_ok.mp hn
  by_cases ht : n.type = .file
  · rw [if_neg (not_not.mpr ht)] at hw'
    obtain ⟨⟨b, u⟩, hb, hw'⟩ := bind_eq_ok.mp hw'
    cases b with
    | false =>
      cases hw'
      have hidle' : ({ sh with fs := u } : Shell).con.captureBuf = 0 := hidle
      exact .inl (errorShown_print hidle' rfl (rsh_first (lit "write to %s failed\n") (by decide) _))
    | true =>
      cases hw'
      exact .inr ⟨f, s, n, ho, hlive, ht, hb, rfl⟩
  · rw [if_pos ht] at hw'
    cases hw'
    exact .inl hcannot

/-! ## the whole line -/

section
variable {sh : Shell} {held : List Nat} {F : Forest Nat} {path : List UInt8} {append : Bool}

/-- the shell when the command has returned and capturing has ended -/
def Shell.captureEnded (sh : Shell) (d : Done) : Shell :=
  { sh.capturing.after d with con := (consoleCaptureEnd (sh.capturing.after d).con).2 }

theorem finishRedirect_eq (hbuf : (sh.fs.kmalloc false captureMax).1 ≠ 0) (d : Done) :
    finishRedirect (sh.capturing.after d) (sh.fs.kmalloc false captureMax).1 path append =
      (redirectToFile (sh.captureEnded d) path ((putcs d.out).take captureMax) append >>= fun sh1 =>
        sh1.fs.kfree (sh.fs.kmalloc false captureMax).1 >>= fun s => .ok { sh1 with fs := s }) := by
  rw [← (captured_after hbuf d).1]
  rfl

/-- a redirection, without the console: what the command printed goes to the target, up to
`CAPTURE_MAX` bytes -/
def redirectCapped (env : Env) (sh : Shell) (cmd : Command) (args : List (List UInt8))
    (append : Bool) (path : List UInt8) : Except Fault Shell :=
  if (sh.fs.kmalloc false captureMax).1 = 0 then
    .ok (sh.print (puts "rsh: out of memory for redirection\n"))
  else do
    let d ← cmd.run env sh.capturing args
    let sh1 ← redirectToFile (sh.captureEnded d) path ((putcs d.out).take captureMax) append
    let s ← sh1.fs.kfree (sh.fs.kmalloc false captureMax).1
    .ok { sh1 with fs := s }

theorem executeRedirected_eq (env : Env) (sh : Shell) (cmd : Command) (args : List (List UInt8)) :
    executeRedirected env sh cmd args append path = redirectCapped env sh cmd args append path := by
  unfold executeRedirected redirectCapped
  split
  · rfl
  · rename_i hbuf
    cases cmd.run env sh.capturing args with
    | error e => rfl
    | ok d =>
      rw [ok_bind, ok_bind]
      exact finishRedirect_eq hbuf d

/-- What a redirected command that returned leaves: a message, or the captured bytes in the
target. -/
theorem finishRedirect_cases (h : FsInv sh.fs held F) (hz : NulFree sh.fs) {c : RamfsNode}
    (hc : sh.fs.node sh.cwd = some c) (hbuf : (sh.fs.kmalloc false captureMax).1 ≠ 0) {env : Env}
    {cmd : Command} {args : List (List UInt8)} (hargs : ∀ a ∈ args, 0 ∉ a)
    {d : Done} (hd : cmd.run env sh.capturing args = .ok d) {sh' : Shell}
    (hr : finishRedirect (sh.capturing.after d) (sh.fs.kmalloc false captureMax).1 path append =
      .ok sh') :
    ErrorShown sh sh' ∨ CanWrite d append path ∧ putcs sh'.con.screen = putcs sh.con.screen ∧
      ∃ f n, ramfsResolve sh'.fs sh'.cwd path = .ok f ∧ sh'.fs.node f = some n ∧ n.type = .file ∧
        sh'.fs.contents f = (if append then targetContents d.fs d.cwd path else []) ++
          (putcs d.out).take captureMax := by
  obtain ⟨h3, F1, h4⟩ := capturing_calls h hz hc hbuf hargs hd
  have hscreen : putcs (sh.captureEnded d).con.screen = putcs sh.con.screen := (captured_after hbuf d).2
  rw [finishRedirect_eq hbuf] at hr
  obtain ⟨sh1, hr1, hr⟩ := bind_eq_ok.mp hr
  obtain ⟨s', hk, hr⟩ := bind_eq_ok.mp hr
  cases hr
  rcases redirectToFile_cases rfl hr1 with ⟨msg, e1, e2⟩ | ⟨f, s, n, ho, hn, ht, hw, e⟩
  · refine .inl ⟨msg, e1, ?_⟩
    rw [← hscreen]
    exact e2
  · have hcon : sh1.con = (sh.captureEnded d).con := by rw [e]
    have hcwd : sh1.cwd = d.cwd := by rw [e]; rfl
    have hopen : openTarget d.fs d.cwd path = .ok (f, s) := ho
    obtain ⟨⟨F2, h5⟩, h6, h7⟩ := openTarget_spec h4 h3 hopen hn
    have hlen : ((putcs d.out).take captureMax).length ≤ heapSize := by
      rw [← (captured_after hbuf d).1]
      exact captured_length hbuf d
    obtain ⟨b, u, k1, k2, _, k4⟩ := ramfsWrite_spec h5 hn hlen false append
    rw [hw] at k1
    cases k1
    have hwr := (k4 rfl).2
    obtain ⟨v, k5, _, k7⟩ := k2.release
    rw [hk] at k5
    cases k5
    obtain ⟨g, dp, cp, e1, e2⟩ := hwr.self
    rw [hn] at e1
    cases e1
    have hnode := (congrFun k7.node f).trans e2
    refine .inr ⟨⟨f, s, n, _, hopen, hn, ht, hw⟩, ?_, f, _, ?_, hnode, ht, ?_⟩
    · show putcs sh1.con.screen = _
      rw [hcon, hscreen]
    · show ramfsResolve s' sh1.cwd path = _
      rw [hcwd, ramfsResolve_sameTree k7.sameTree, ramfsResolve_sameTree hwr.sameTree]
      exact h6
    · show s'.contents f = _
      rw [k7.contents, hwr.contents, h7]

/-- a target that can be written is written -/
theorem finishRedirect_of_canWrite (h : FsInv sh.fs held F) (hz : NulFree sh.fs) {c : RamfsNode}
    (hc : sh.fs.node sh.cwd = some c) (hbuf : (sh.fs.kmalloc false captureMax).1 ≠ 0) {env : Env}
    {cmd : Command} {args : List (List UInt8)} (hargs : ∀ a ∈ args, 0 ∉ a)
    {d : Done} (hd : cmd.run env sh.capturing args = .ok d) (hw : CanWrite d append path) :
    ∃ sh', finishRedirect (sh.capturing.after d) (sh.fs.kmalloc false captureMax).1 path append =
      .ok sh' ∧ putcs sh'.con.screen = putcs sh.con.screen := by
  obtain ⟨h3, F1, h4⟩ := capturing_calls h hz hc hbuf hargs hd
  obtain ⟨f, s, n, s', ho, hn, ht, hwr⟩ := hw
  obtain ⟨⟨F2, h5⟩, _⟩ := openTarget_spec h4 h3 ho hn
  have hred : redirectToFile (sh.captureEnded d) path ((putcs d.out).take captureMax) append =
      .ok { sh.captureEnded d with fs := s' } := by
    have ho' : openTarget (sh.captureEnded d).fs (sh.captureEnded d).cwd path = .ok (f, s) := ho
    have hn' : ({ sh.captureEnded d with fs := s } : Shell).fs.deref f = .ok n := Ramfs.deref_ok hn
    unfold redirectToFile
    rw [ho', ok_bind]
    show writeTarget { sh.captureEnded d with fs := s } f path _ append = _
    unfold writeTarget
    rw [if_neg (h5.tree.ne_zero hn), hn', ok_bind, if_neg (not_not.mpr ht), hwr, ok_bind]
    rfl
  have hlen : ((putcs d.out).take captureMax).length ≤ heapSize := by
    rw [← (captured_after hbuf d).1]
    exact captured_length hbuf d
  obtain ⟨b, u, k1, k2, _⟩ := ramfsWrite_spec h5 hn hlen false append
  rw [hwr] at k1
  cases k1
  obtain ⟨v, k3, _⟩ := k2.release
  have hk : ({ sh.captureEnded d with fs := s' } : Shell).fs.kfree
      (sh.fs.kmalloc false captureMax).1 = .ok v := k3
  rw [finishRedirect_eq hbuf, hred, ok_bind, hk, ok_bind]
  exact ⟨_, rfl, (captured_after hbuf d).2⟩

end

section
variable {line name : List UInt8} {args : List (List UInt8)} {append : Bool} {path : List UInt8}
  (env : Env) (sh : Shell)

theorem execute_no_command
    (hp : scanRedirection (tokenize line shellArgvMax) = ([], .file append path)) :
    execute env sh line = .ok sh := by
  unfold execute
  rw [hp]

theorem execute_unknown
    (hp : scanRedirection (tokenize line shellArgvMax) = (name :: args, .file append path))
    (hf : findCommand name = none) : execute env sh line =
      .ok (sh.print (printf "rsh: %s: command not found (try 'help')\n" [.text name])) := by
  unfold execute
  simp only [hp, hf]

theorem execute_redirected
    (hp : scanRedirection (tokenize line shellArgvMax) = (name :: args, .file append path))
    {cmd : Command} (hf : findCommand name = some cmd) :
    execute env sh line = executeRedirected env sh cmd args append path := by
  unfold execute
  simp only [hp, hf]

/-! The three kinds of lines, in one state: without a command, with an unknown one, with a command. -/

theorem redirectExact_no_command
    (hp : scanRedirection (tokenize line shellArgvMax) = ([], .file append path)) :
    RedirectExact env sh line [] append path ↔ RedirectFits env sh [] append path := by
  unfold RedirectExact
  rw [execute_no_command env sh hp]
  constructor
  · intro hall
    rcases hall sh rfl with he | ⟨d, f, n, e1, e2, e3, e4, e5⟩
    · exact absurd he (not_errorShown rfl)
    · cases e1
      refine ⟨f, n, e2, e3, e4, ?_⟩
      cases append with
      | true => exact .inl rfl
      | false => exact .inr e5
  · intro ⟨f, n, e2, e3, e4, e5⟩ sh' e
    cases e
    refine .inr ⟨_, f, n, rfl, e2, e3, e4, ?_⟩
    show sh.fs.contents f = _ ++ []
    rw [List.append_nil]
    unfold targetContents
    rw [e2]
    rcases e5 with rfl | e5
    · rfl
    · show _ = if append then sh.fs.contents f else []
      rw [e5]
      split <;> rfl

theorem redirectExact_unknown (hidle : sh.con.captureBuf = 0)
    (hp : scanRedirection (tokenize line shellArgvMax) = (name :: args, .file append path))
    (hf : findCommand name = none) :
    RedirectExact env sh line (name :: args) append path ↔ RedirectFits env sh (name :: args) append path := by
  unfold RedirectExact
  rw [execute_unknown env sh hp hf]
  constructor
  · intro _ cmd e
    cases e.symm.trans hf
  · intro _ sh' e
    cases e
    left
    exact errorShown_print hidle rfl
      (rsh_first (lit "%s: command not found (try 'help')\n") (by decide) _)

theorem redirectExact_command {held : List Nat} {F : Forest Nat} (h : FsInv sh.fs held F)
    (hz : NulFree sh.fs) {c : RamfsNode} (hc : sh.fs.node sh.cwd = some c) (hidle : sh.con.captureBuf = 0)
    (hargs : ∀ a ∈ args, 0 ∉ a)
    (hp : scanRedirection (tokenize line shellArgvMax) = (name :: args, .file append path))
    {cmd : Command} (hf : findCommand name = some cmd) :
    RedirectExact env sh line (name :: args) append path ↔ RedirectFits env sh (name :: args) append path := by
  unfold RedirectExact RedirectFits commandEnd
  simp only [Option.some.injEq, forall_eq', hf]
  rw [execute_redirected env sh hp hf]
  unfold executeRedirected
  by_cases hbuf : (sh.fs.kmalloc false captureMax).1 = 0
  · rw [if_pos hbuf]
    refine ⟨fun _ => .inl hbuf, fun _ sh' e => .inl ?_⟩
    cases e
    exact errorShown_print hidle rfl (by decide)
  rw [if_neg hbuf]
  constructor
  · intro hall
    refine .inr fun d hd hw => ?_
    obtain ⟨sh', hr, hscreen⟩ := finishRedirect_of_canWrite h hz hc hbuf hargs hd hw
    rw [hd, ok_bind] at hall
    rcases hall sh' hr with he | ⟨d', f, n, e1, e2, _, _, e5⟩
    · exact absurd he (not_errorShown hscreen)
    · cases e1
      rcases finishRedirect_cases h hz hc hbuf hargs hd hr with he | ⟨_, _, f', n', k1, _, _, k4⟩
      · exact absurd he (not_errorShown hscreen)
      · rw [e2] at k1
        cases k1
        rw [e5] at k4
        have hcut := congrArg List.length (List.append_cancel_left k4)
        rw [List.length_take] at hcut
        omega
  · intro hfits sh' e
    obtain ⟨d, hd, hr⟩ := bind_eq_ok.mp e
    rcases finishRedirect_cases h hz hc hbuf hargs hd hr with he | ⟨hw, _, f, n, k1, k2, k3, k4⟩
    · exact .inl he
    · refine .inr ⟨d, f, n, hd, k1, k2, k3, ?_⟩
      have hlen := (hfits.resolve_left hbuf) d hd hw
      rw [k4, List.take_of_length_le hlen]

end

/-- in one state -/
theorem redirectExact_iff {sh : Shell} {held : List Nat} {F : Forest Nat} (h : FsInv sh.fs held F)
    (hz : NulFree sh.fs) {c : RamfsNode} (hc : sh.fs.node sh.cwd = some c)
    (hidle : sh.con.captureBuf = 0) (env : Env) {line : List UInt8} (h0 : 0 ∉ line)
    {argv : List (List UInt8)} {append : Bool} {path : List UInt8}
    (hp : scanRedirection (tokenize line shellArgvMax) = (argv, .file append path)) :
    RedirectExact env sh line argv append path ↔ RedirectFits env sh argv append path := by
  obtain ⟨hmem, _⟩ := scanRedirection_mem (tokenize line shellArgvMax)
  rw [hp] at hmem
  cases argv with
  | nil => exact redirectExact_no_command env sh hp
  | cons name args =>
    have hargs : ∀ a ∈ args, 0 ∉ a := fun a ha =>
      tokenize_nulFree h0 (hmem a (List.mem_cons_of_mem _ ha))
    cases hf : findCommand name with
    | none => exact redirectExact_unknown env sh hidle hp hf
    | some cmd => exact redirectExact_command env sh h hz hc hidle hargs hp hf

/-- in every state of every run -/
theorem redirectExact_of_run {img : Image} {m : Mem} {screen : List ConEv} {sh0 sh sh1 : Shell}
    (h0 : boot img m screen = .ok sh0) {ok : Shell → Input → Prop} {is : List Input}
    (r : (shellMachine ok).Run sh0 is sh) {env : Env} {line : List UInt8}
    (h1 : beforeExecute sh line = .ok sh1) (hnul : 0 ∉ line) {argv : List (List UInt8)}
    {append : Bool} {path : List UInt8}
    (hp : scanRedirection (tokenize line shellArgvMax) = (argv, .file append path)) :
    RedirectExact env sh1 line argv append path ↔ RedirectFits env sh1 argv append path := by
  obtain ⟨sh0', e, hi0, _⟩ := boot_spec img m screen
  rw [h0] at e
  cases e
  obtain ⟨⟨F, h⟩, hz, hidle⟩ := shell_inv r hi0
  obtain ⟨e1, e2, e3, c, hc⟩ := beforeExecute_ran h1
  rw [← e1] at h hz
  rw [← e1, ← e2] at hc
  exact redirectExact_iff h hz hc (e3.trans hidle) env hnul hp

/-- In every run from boot, a line with a redirection does what it should exactly if it fits. -/
theorem redirect_exact_iff {img : Image} {m : Mem} {screen : List ConEv} {sh0 sh sh1 : Shell}
    (h0 : boot img m screen = .ok sh0) {is : List Input}
    (r : (shellMachine fun _ _ => True).Run sh0 is sh) {i : Input}
    (h1 : beforeExecute sh i.line.bytes = .ok sh1) {argv : List (List UInt8)} {append : Bool}
    {path : List UInt8}
    (hp : scanRedirection (tokenize i.line.bytes shellArgvMax) = (argv, .file append path)) :
    RedirectExact i.env sh1 i.line.bytes argv append path ↔
      RedirectFits i.env sh1 argv append path :=
  redirectExact_of_run h0 r h1 i.line.nulFree hp

theorem redirect_exact_iff_echo :
    ∃ sh0 sh1, boot sampleImage (fun _ => 0) [] = .ok sh0 ∧
      beforeExecute sh0 (lit "echo hi > /tmp/x") = .ok sh1 ∧
      (RedirectExact sampleEnv sh1 (lit "echo hi > /tmp/x") [lit "echo", lit "hi"] false
        (lit "/tmp/x") ↔
        RedirectFits sampleEnv sh1 [lit "echo", lit "hi"] false (lit "/tmp/x")) := by
  obtain ⟨sh0, h0, hi0, ⟨c, hc, _⟩, _⟩ := boot_spec sampleImage (fun _ => 0) []
  obtain ⟨sh1, h1⟩ := beforeExecute_returns (lit "echo hi > /tmp/x") hi0 hc
  have hp : scanRedirection (tokenize (lit "echo hi > /tmp/x") shellArgvMax) =
      ([lit "echo", lit "hi"], .file false (lit "/tmp/x")) := by decide +kernel
  refine ⟨sh0, sh1, h0, h1, ?_⟩
  exact redirect_exact_iff (i := ⟨sampleEnv, lit "echo hi > /tmp/x", by decide⟩) h0 .nil h1 hp

/-! ## a long output -/

/-- the command of the line prints more than the buffer takes, and the target can be written -/
def cutShort (env : Env) (sh : Shell) (cmd : Command) (args : List (List UInt8)) (append : Bool)
    (path : List UInt8) : Bool :=
  (sh.fs.kmalloc false captureMax).1 ≠ 0 &&
    match cmd.run env sh.capturing args with
    | .error _ => false
    | .ok d => captureMax < (putcs d.out).length &&
      match openTarget d.fs d.cwd path with
      | .error _ => false
      | .ok (f, s) =>
        match s.node f, ramfsWrite false s f ((putcs d.out).take captureMax) append with
        | some n, .ok (true, _) => n.type = .file
        | _, _ => false

theorem not_redirectFits {env : Env} {sh : Shell} {name : List UInt8} {cmd : Command}
    (hf : findCommand name = some cmd) {args : List (List UInt8)} {append : Bool}
    {path : List UInt8} (h : cutShort env sh cmd args append path = true) :
    ¬ RedirectFits env sh (name :: args) append path := by
  intro hfits
  unfold cutShort at h
  rw [Bool.and_eq_true] at h
  obtain ⟨hbuf, h⟩ := h
  split at h
  · cases h
  rename_i d hd
  rw [Bool.and_eq_true] at h
  obtain ⟨hlong, h⟩ := h
  split at h
  · cases h
  rename_i f s ho
  split at h
  · rename_i n s' hn hw
    rcases hfits cmd hf with h0 | hall
    · exact of_decide_eq_true hbuf h0
    · have := hall d hd ⟨f, s, n, s', ho, hn, of_decide_eq_true h, hw⟩
      have := of_decide_eq_true hlong
      omega
  · cases h

/-- `cat /README.txt >> /a` -/
def growLine : Input := ⟨sampleEnv, lit "cat /README.txt >> /a", by decide⟩

/-- what `growLine` does -/
def growMachine : Machine Shell Input Fault where
  step sh i := beforeExecute sh i.line.bytes >>= fun sh =>
    redirectCapped i.env sh .cat [lit "/README.txt"] true (lit "/a")
  legal _ _ := True

theorem exec_growLine (sh : Shell) (n : Nat) : (shellMachine fun _ _ => True).exec sh
    (List.replicate n growLine) = growMachine.exec sh (List.replicate n growLine) := by
  refine Machine.exec_congr (fun u i hi => ?_) sh
  cases (List.mem_replicate.mp hi).2
  refine bind_congr fun sh1 => ?_
  have hp : scanRedirection (tokenize growLine.line.bytes shellArgvMax) =
      ([lit "cat", lit "/README.txt"], .file true (lit "/a")) := by decide +kernel
  have hcat : findCommand (lit "cat") = some .cat := by decide +kernel
  rw [← executeRedirected_eq]
  exact execute_redirected growLine.env sh1 hp hcat

def catLine : List UInt8 := lit "cat /a /a /a /a /a /a /a /a /a /a /a /a /a > /b"

/-- `catLine` is cut short in the state -/
def catCut (sh : Shell) : Bool :=
  match beforeExecute sh catLine with
  | .error _ => false
  | .ok sh1 => cutShort sampleEnv sh1 .cat (List.replicate 13 (lit "/a")) false (lit "/b")

theorem catCut_after_growth :
    ((boot sampleImage (fun _ => 0) [] >>= fun sh0 =>
      growMachine.exec sh0 (List.replicate 6 growLine)).toOption.any catCut) = true := by
  decide +kernel

/-- `catLine` prints 18798 bytes; `/b` gets the first 16384, and nobody is told -/
theorem redirect_cut_short :
    ∃ sh0 sh sh1, boot sampleImage (fun _ => 0) [] = .ok sh0 ∧
      (shellMachine fun _ _ => True).Run sh0 (List.replicate 6 growLine) sh ∧
      beforeExecute sh catLine = .ok sh1 ∧
      scanRedirection (tokenize catLine shellArgvMax) =
        (lit "cat" :: List.replicate 13 (lit "/a"), .file false (lit "/b")) ∧
      ¬ RedirectExact sampleEnv sh1 catLine (lit "cat" :: List.replicate 13 (lit "/a")) false
        (lit "/b") := by
  obtain ⟨sh0, h0, _⟩ := boot_spec sampleImage (fun _ => 0) []
  have hP := catCut_after_growth
  rw [h0, ok_bind, ← exec_growLine] at hP
  obtain ⟨sh, hs, hcut⟩ := any_toOption.mp hP
  unfold catCut at hcut
  split at hcut
  · cases hcut
  rename_i sh1 h1
  have hp : scanRedirection (tokenize catLine shellArgvMax) =
      (lit "cat" :: List.replicate 13 (lit "/a"), .file false (lit "/b")) := by decide +kernel
  have r : (shellMachine fun _ _ => True).Run sh0 (List.replicate 6 growLine) sh :=
    .of_exec (fun _ _ _ => trivial) hs
  refine ⟨sh0, sh, sh1, h0, r, h1, hp, fun hexact => ?_⟩
  have hcat : findCommand (lit "cat") = some .cat := by decide +kernel
  have hnul : 0 ∉ catLine := by decide +kernel
  have hfits := (redirectExact_of_run h0 r h1 hnul hp).mp hexact
  exact not_redirectFits hcat hcut hfits

end Raptor
