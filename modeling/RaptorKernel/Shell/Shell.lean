import RaptorKernel.Shell.Commands

/-!
# shell/shell.c: the read-eval-print loop

A line is the text `read_line` left in the buffer.  `shellStep` is one round of the loop of
`shell_run` after the line has come in: the prompt that was printed before it, the history, and
`execute`.

* `tokenize`           words, with double quotes;
* `scanRedirection`    the search for `>` and `>>`;
* `redirectToFile`     what happens to the captured output;
* `execute`            one line;
* `shellMachine`       the loop as a machine whose labels are lines.
-/

namespace Raptor
open Mem

def captureMax : Nat := 16384

def Shell.print (sh : Shell) (evs : List ConEv) : Shell := { sh with con := sh.con.feed evs }

def historyAdd (sh : Shell) (line : List UInt8) : Shell :=
  { sh with
    historyRing := Function.update sh.historyRing (sh.historyTotal % shellHistoryMax)
      (clip shellLineMax line)
    historyTotal := sh.historyTotal + 1 }

def printPrompt (sh : Shell) : Except Fault Shell := do
  let path ← ramfsPath sh.fs (fun _ => 0) sh.cwd 0 ramfsPathMax
  .ok (sh.print (
    [.setColor .lightGreen .black] ++ puts "root@raptor" ++
    [.setColor .lightGrey .black, .putc ':'.toUInt8, .setColor .lightCyan .black] ++
    consoleWrite (textOf (slice path 0 ramfsPathMax)) ++
    [.setColor .lightGrey .black] ++ puts "# "))

/-! ## words -/

def quote : UInt8 := 0x22

/-- The loop of `tokenize`, with room for `max` more words.  A word ends where the loop stores a
NUL, and every round consumes a byte of the line. -/
def tokenizeLoop : Nat → List UInt8 → Nat → List (List UInt8)
  | 0, _, _ => []
  | _+1, _, 0 => []
  | fuel+1, line, max+1 =>
    match line.dropWhile (· == space) with
    | [] => []
    | c :: p =>
      if c = quote then
        let word := p.takeWhile (· != quote)
        word :: tokenizeLoop fuel (p.drop (word.length + 1)) max
      else
        let word := (c :: p).takeWhile (· != space)
        word :: tokenizeLoop fuel ((c :: p).drop (word.length + 1)) max

def tokenize (line : List UInt8) (max : Nat) : List (List UInt8) :=
  tokenizeLoop (line.length + 1) line max

def findCommand (name : List UInt8) : Option Command :=
  (shellCommands.find? fun c => lit c.name = name).map ShellCommand.run

inductive Redirection where
  | none
  | missing
  | file (append : Bool) (path : List UInt8)
deriving DecidableEq

/-- the words before the first `>` or `>>`, and what it says -/
def scanRedirection : List (List UInt8) → List (List UInt8) × Redirection
  | [] => ([], .none)
  | w :: ws =>
    if w = lit ">" ∨ w = lit ">>" then
      match ws with
      | [] => ([], .missing)
      | path :: _ => ([], .file (w = lit ">>") path)
    else (w :: (scanRedirection ws).1, (scanRedirection ws).2)

/-! ## running a line -/

/-- `f = ramfs_resolve(shell_cwd, path); if (!f) f = ramfs_create(shell_cwd, path, RAMFS_FILE);` -/
def openTarget (s : Ramfs) (cwd : Nat) (path : List UInt8) : Except Fault (Nat × Ramfs) := do
  let f ← ramfsResolve s cwd path
  if f = 0 then ramfsCreate false s cwd path .file else .ok (f, s)

/-- `redirect_to_file` once `f` is there or NULL -/
def writeTarget (sh : Shell) (f : Nat) (path data : List UInt8) (append : Bool) :
    Except Fault Shell :=
  if f = 0 then .ok (sh.print (printf "rsh: cannot write to %s\n" [.text path]))
  else do
    let n ← sh.fs.deref f
    if n.type ≠ .file then .ok (sh.print (printf "rsh: cannot write to %s\n" [.text path]))
    else do
      let (ok, s) ← ramfsWrite false sh.fs f data append
      if ok = false then
        .ok (Shell.print { sh with fs := s } (printf "rsh: write to %s failed\n" [.text path]))
      else .ok { sh with fs := s }

def redirectToFile (sh : Shell) (path data : List UInt8) (append : Bool) : Except Fault Shell := do
  let (f, s) ← openTarget sh.fs sh.cwd path
  writeTarget { sh with fs := s } f path data append

/-- the shell once the command has returned -/
def Shell.after (sh : Shell) (d : Done) : Shell :=
  { sh with fs := d.fs, cwd := d.cwd, con := sh.con.feed d.out }

/-- the shell while output is captured into the block `buf` -/
def Shell.capturing (sh : Shell) : Shell :=
  { sh with
    fs := (sh.fs.kmalloc false captureMax).2
    con := consoleCaptureBegin sh.con (sh.fs.kmalloc false captureMax).1 captureMax }

/-- `len = console_capture_end(); redirect_to_file(redirect_path, buf, len, append); kfree(buf);` -/
def finishRedirect (sh : Shell) (buf : Nat) (path : List UInt8) (append : Bool) :
    Except Fault Shell := do
  let sh ← redirectToFile { sh with con := (consoleCaptureEnd sh.con).2 } path
    (consoleCaptureEnd sh.con).1 append
  let s ← sh.fs.kfree buf
  .ok { sh with fs := s }

/-- the part of `execute` for a redirected command -/
def executeRedirected (env : Env) (sh : Shell) (cmd : Command) (args : List (List UInt8))
    (append : Bool) (path : List UInt8) : Except Fault Shell :=
  if (sh.fs.kmalloc false captureMax).1 = 0 then
    .ok (sh.print (puts "rsh: out of memory for redirection\n"))
  else do
    let d ← cmd.run env sh.capturing args
    finishRedirect (sh.capturing.after d) (sh.fs.kmalloc false captureMax).1 path append

def execute (env : Env) (sh : Shell) (line : List UInt8) : Except Fault Shell :=
  match scanRedirection (tokenize line shellArgvMax) with
  | (_, .missing) => .ok (sh.print (puts "rsh: missing redirection target\n"))
  | ([], _) => .ok sh
  | (name :: args, r) =>
    match findCommand name with
    | none => .ok (sh.print (printf "rsh: %s: command not found (try 'help')\n" [.text name]))
    | some cmd =>
      match r with
      | .file append path => executeRedirected env sh cmd args append path
      | _ => (cmd.run env sh args).map sh.after

/-! ## the loop -/

/-- up to the call of `execute` -/
def beforeExecute (sh : Shell) (line : List UInt8) : Except Fault Shell :=
  (printPrompt sh).map fun sh => if line ≠ [] then historyAdd sh line else sh

def shellStep (env : Env) (sh : Shell) (line : List UInt8) : Except Fault Shell := do
  let sh ← beforeExecute sh line
  execute env sh line

/-- what comes in from outside in one round: the machine, and the line typed -/
structure Input where
  env : Env
  line : CStr

/-- the loop of `shell_run`, on the lines that `ok` allows -/
def shellMachine (ok : Shell → Input → Prop) : Machine Shell Input Fault where
  step sh i := shellStep i.env sh i.line.bytes
  legal := ok

/-- `shell_run` up to its loop: the working directory is the root, and the motd is shown -/
def shellStart (fs : Ramfs) (con : Console) : Except Fault Shell := do
  let sh : Shell := ⟨fs, fs.root, con, fun _ => [], 0⟩
  let a ← ramfsResolve fs sh.cwd (lit "/etc/motd")
  if a = 0 then .ok sh
  else do
    let n ← fs.deref a
    if n.type ≠ .file then .ok sh
    else .ok (sh.print (consoleWrite (n.bytes fs) ++ [.putc newline]))

/-- boot: the heap over the image, `ramfs_init`, and the shell, with `screen` already shown -/
def boot (img : Image) (m : Mem) (screen : List ConEv) : Except Fault Shell := do
  let fs ← ramfsInit (fun _ => false) (Heap.init img) m
  shellStart fs ⟨0, 0, [], screen⟩

end Raptor
