import RaptorKernel.Mm.KheapInvariant
import RaptorKernel.Lib.Console
import RaptorKernel.Fs.Path

/-!
# shell/commands.c: the built-in commands

A command gets the words after its name and leaves the file system, the working directory, the
console calls it made, in order, and its return value.  Commands that only look are functions to
`List ConEv × Nat`.

What a command reads from the machine (CPUID, PCI configuration space, the tick counter, the RTC,
the frame counters, the build strings) is given by `Env`.

* `cmdCd`, `cmdMkdir`, `cmdTouch`, `cmdRm`, `cmdCp`, `cmdMv`   the commands that change something;
* `Command.look`     all the others;
* `shellCommands`    the table, `Command.run` its functions.
-/

namespace Raptor
open Mem

def shellLineMax : Nat := 256
def shellArgvMax : Nat := 16
def shellHistoryMax : Nat := 16

structure Shell where
  fs : Ramfs
  cwd : Nat
  con : Console
  historyRing : Nat → List UInt8
  /-- an `int`, and taken as a number: a session has fewer than `2^31` lines -/
  historyTotal : Nat

def shellHistoryCount (sh : Shell) : Nat :=
  if sh.historyTotal < shellHistoryMax then sh.historyTotal else shellHistoryMax

/-- `shell_history`: `none` is NULL -/
def shellHistory (sh : Shell) (index : Nat) : Option (List UInt8) :=
  if shellHistoryCount sh ≤ index then none
  else some (sh.historyRing ((sh.historyTotal - shellHistoryCount sh + index) % shellHistoryMax))

structure RtcTime where
  year : Nat
  month : Nat
  day : Nat
  hour : Nat
  minute : Nat
  second : Nat

structure Env where
  /-- EAX, EBX, ECX, EDX of a leaf -/
  cpuid : Nat → Nat × Nat × Nat × Nat
  /-- `pci_read` on bus 0: device, function, offset -/
  pciRead : Nat → Nat → Nat → Nat
  pmmTotalKib : Nat
  pmmUsedKib : Nat
  /-- the tick counter, read by read -/
  ticks : Nat → Nat
  rtc : RtcTime
  raptorBuild : List UInt8
  raptorCompiler : List UInt8

/-- what a command leaves behind -/
structure Done where
  fs : Ramfs
  cwd : Nat
  out : List ConEv
  rc : Nat

def Arg.lit (s : String) : Arg := .str (some (Raptor.lit s))
def Arg.text (s : List UInt8) : Arg := .str (some s)

/-- `console_write` of a literal, `kprintf`: the calls they make -/
def puts (s : String) : List ConEv := consoleWrite (lit s)
def printf (fmt : String) (args : List Arg) : List ConEv := consoleWrite (kprintf fmt args)

/-- the text before the first NUL of a buffer -/
def textOf (buf : List UInt8) : List UInt8 := buf.takeWhile (· != 0)

/-- `atoi_simple`, from the value `v` so far; the `int` wraps around -/
def atoiSimple : List UInt8 → Nat → Nat
  | [], v => v
  | c :: s, v => if isDigit c then atoiSimple s ((v * 10 + (c.toNat - '0'.toNat)) % 2^32) else v

/-- `want_file`: a file, or NULL and a message -/
def wantFile (s : Ramfs) (cwd : Nat) (path : List UInt8) : Except Fault (Nat × List ConEv) := do
  let n ← ramfsResolve s cwd path
  if n = 0 then .ok (0, printf "%s: no such file or directory\n" [.text path])
  else do
    let x ← s.deref n
    if x.type ≠ .file then .ok (0, printf "%s: is a directory\n" [.text path])
    else .ok (n, [])

/-- the bytes `data[0] .. data[size - 1]` -/
def RamfsNode.bytes (n : RamfsNode) (s : Ramfs) : List UInt8 := slice s.bytes n.data n.size

/-! ## the table -/

inductive Command where
  | help | banner | clear | echo | ls | cat | cd | pwd | mkdir | touch | rm | cp | mv | hexdump
  | grep | wc | head | lscpu | lspci | free | uptime | date | sleep | history | uname | whoami
  | license | reboot | poweroff | halt
deriving DecidableEq, Repr

structure ShellCommand where
  name : String
  summary : String
  run : Command

def shellCommands : List ShellCommand := [
  ⟨"help", "list all commands", .help⟩,
  ⟨"banner", "show the Raptor logo and version", .banner⟩,
  ⟨"clear", "clear the screen", .clear⟩,
  ⟨"echo", "print arguments (supports > and >>)", .echo⟩,
  ⟨"ls", "list directory contents (-l for sizes)", .ls⟩,
  ⟨"cat", "print file contents", .cat⟩,
  ⟨"cd", "change the working directory", .cd⟩,
  ⟨"pwd", "print the working directory", .pwd⟩,
  ⟨"mkdir", "create directories", .mkdir⟩,
  ⟨"touch", "create empty files", .touch⟩,
  ⟨"rm", "remove files (-r for directories)", .rm⟩,
  ⟨"cp", "copy a file", .cp⟩,
  ⟨"mv", "move or rename a file or directory", .mv⟩,
  ⟨"hexdump", "show a file as hex and ASCII", .hexdump⟩,
  ⟨"grep", "print lines of a file matching a pattern", .grep⟩,
  ⟨"wc", "count lines, words and bytes of a file", .wc⟩,
  ⟨"head", "print the first lines of a file (-n N)", .head⟩,
  ⟨"lscpu", "show CPU vendor, model and features", .lscpu⟩,
  ⟨"lspci", "list devices on the PCI bus", .lspci⟩,
  ⟨"free", "show memory usage", .free⟩,
  ⟨"uptime", "show time since boot", .uptime⟩,
  ⟨"date", "show the current date and time (RTC)", .date⟩,
  ⟨"sleep", "pause for N seconds", .sleep⟩,
  ⟨"history", "show recent commands", .history⟩,
  ⟨"uname", "print kernel information (-a for all)", .uname⟩,
  ⟨"whoami", "print the current user", .whoami⟩,
  ⟨"license", "show license information", .license⟩,
  ⟨"reboot", "restart the machine", .reboot⟩,
  ⟨"poweroff", "shut the machine down", .poweroff⟩,
  ⟨"halt", "stop the CPU", .halt⟩]

/-! ## general -/

def raptorArch : String := "i386"

def cmdHelp : List ConEv × Nat :=
  (puts "Built-in commands:\n" ++
    shellCommands.flatMap (fun c => printf "  %-10s %s\n" [.lit c.name, .lit c.summary]) ++
    puts "\nRedirect any output with '>' or '>>', e.g. 'ls /etc > /tmp/listing'.\n", 0)

def cmdClear : List ConEv × Nat := ([.clear], 0)

def cmdEcho (args : List (List UInt8)) : List ConEv × Nat :=
  (consoleWrite (args.intersperse [space]).flatten ++ [.putc newline], 0)

def cmdBanner : List ConEv × Nat :=
  ([.setColor .lightGreen .black] ++
    puts (" ____    _    ____ _____ ___  ____\n" ++
      "|  _ \\  / \\  |  _ \\_   _/ _ \\|  _ \\\n" ++
      "| |_) |/ _ \\ | |_) || || | | | |_) |\n" ++
      "|  _ </ ___ \\|  __/ | || |_| |  _ <\n" ++
      "|_| \\_\\_/  \\_\\_|    |_| \\___/|_| \\_\\\n") ++
    [.setColor .lightGrey .black] ++
    printf "%s %s (%s) for %s\n"
      [.lit raptorName, .lit raptorVersion, .lit raptorCodename, .lit raptorArch], 0)

def cmdUname (env : Env) (args : List (List UInt8)) : List ConEv × Nat :=
  if args.head? = some (lit "-a") then
    (printf "%s %s %s %s (built %s, %s)\n"
      [.lit raptorName, .lit raptorVersion, .lit raptorCodename, .lit raptorArch,
        .text env.raptorBuild, .text env.raptorCompiler], 0)
  else (printf "%s\n" [.lit raptorName], 0)

def cmdWhoami : List ConEv × Nat := (puts "root\n", 0)

def cmdLicense : List ConEv × Nat :=
  (puts (raptorName ++ " is free software released under the GNU General\n" ++
    "Public License, version 2 - the same license Linus Torvalds\n" ++
    "chose for Linux. See the LICENSE file in the source tree.\n"), 0)

def cmdHistory (sh : Shell) : List ConEv × Nat :=
  ((List.range (shellHistoryCount sh)).flatMap fun i =>
    printf "%4d  %s\n" [.word (i + 1), .str (shellHistory sh i)], 0)

/-! ## file system: looking -/

def cmdPwd (sh : Shell) : Except Fault (List ConEv × Nat) := do
  -- `path` is a local buffer: no byte of it is read before it is written
  let path ← ramfsPath sh.fs (fun _ => 0) sh.cwd 0 ramfsPathMax
  .ok (printf "%s\n" [.text (textOf (slice path 0 ramfsPathMax))], 0)

def lsArgs (args : List (List UInt8)) : Bool × Option (List UInt8) :=
  args.foldl (fun (detail, path) a => if a = lit "-l" then (true, path) else (detail, some a))
    (false, none)

def lsEntry (detail : Bool) (c : RamfsNode) : List ConEv :=
  let mark := if c.type = .dir then "/" else ""
  if detail then
    printf "%c %8u  %s%s\n" [.word (if c.type = .dir then 'd'.toNat else '-'.toNat), .word c.size,
      .text c.name, .lit mark]
  else
    (if c.type = .dir then [.setColor .lightCyan .black] else []) ++
      printf "%s%s  " [.text c.name, .lit mark] ++ [.setColor .lightGrey .black]

def lsLoop (s : Ramfs) (detail : Bool) : Nat → Nat → Except Fault (List ConEv)
  | 0, _ => .error .diverges
  | fuel+1, c =>
    if c = 0 then .ok []
    else do
      let n ← s.deref c
      (lsLoop s detail fuel n.next).map (lsEntry detail n ++ ·)

def cmdLs (sh : Shell) (args : List (List UInt8)) : Except Fault (List ConEv × Nat) := do
  let (detail, path) := lsArgs args
  let n ← ramfsResolve sh.fs sh.cwd (path.getD dot)
  if n = 0 then .ok (printf "ls: %s: no such file or directory\n" [.str path], 1)
  else do
    let x ← sh.fs.deref n
    if x.type = .file then .ok (printf "%s\n" [.text x.name], 0)
    else do
      let out ← lsLoop sh.fs detail loopBound x.children
      .ok (out ++ (if detail then [] else [.putc newline]), 0)

/-- `want_file`, and what a command prints about the file it got -/
def withFile (s : Ramfs) (cwd : Nat) (path : List UInt8) (f : List UInt8 → List ConEv × Nat) :
    Except Fault (List ConEv × Nat) := do
  let (a, msg) ← wantFile s cwd path
  if a = 0 then .ok (msg, 1)
  else do
    let n ← s.deref a
    .ok (f (n.bytes s))

/-- the same for one file after the other, up to the first that is none -/
def withFiles (s : Ramfs) (cwd : Nat) (f : List UInt8 → List UInt8 → List ConEv) :
    List (List UInt8) → Except Fault (List ConEv × Nat)
  | [] => .ok ([], 0)
  | path :: paths => do
    let (a, msg) ← wantFile s cwd path
    if a = 0 then .ok (msg, 1)
    else do
      let n ← s.deref a
      let (out, rc) ← withFiles s cwd f paths
      .ok (f path (n.bytes s) ++ out, rc)

def cmdCat (sh : Shell) (args : List (List UInt8)) : Except Fault (List ConEv × Nat) :=
  if args = [] then .ok (puts "usage: cat <file>...\n", 1)
  else withFiles sh.fs sh.cwd (fun _ data =>
    consoleWrite (data ++ if data ≠ [] ∧ data.getLast? ≠ some newline then [newline] else [])) args

def hexRow (off : Nat) (row : List UInt8) : List ConEv :=
  printf "%08x  " [.word off] ++
    (List.range 16).flatMap (fun i =>
      (match row[i]? with
        | some b => printf "%02x " [.word b.toNat]
        | none => puts "   ") ++ if i = 7 then [.putc space] else []) ++
    puts " |" ++
    consoleWrite (row.map fun c => if 0x20 ≤ c ∧ c < 0x7f then c else '.'.toUInt8) ++
    puts "|\n"

/-- `for (off = 0; off < f->size; off += 16)`, over the bytes from `off` on -/
def hexLoop : Nat → Nat → List UInt8 → List ConEv
  | 0, _, _ => []
  | fuel+1, off, data =>
    if data = [] then [] else hexRow off (data.take 16) ++ hexLoop fuel (off + 16) (data.drop 16)

def cmdHexdump (sh : Shell) (args : List (List UInt8)) : Except Fault (List ConEv × Nat) :=
  match args with
  | [] => .ok (puts "usage: hexdump <file>\n", 1)
  | path :: _ => withFile sh.fs sh.cwd path fun data => (hexLoop data.length 0 data, 0)

/-! ## text tools -/

/-- The loop of `cmd_grep` over the bytes of the file and the newline after them; `line` is
`line[0] .. line[pos - 1]`. -/
def grepLoop (pattern : List UInt8) : List UInt8 → List UInt8 → List ConEv × Nat
  | [], _ => ([], 0)
  | c :: data, line =>
    if c = newline then
      let (out, matched) := grepLoop pattern data []
      if line ≠ [] ∧ (strstr (textOf line) pattern).isSome then
        (printf "%s\n" [.text (textOf line)] ++ out, matched + 1)
      else (out, matched)
    else grepLoop pattern data (if line.length + 1 < shellLineMax then line ++ [c] else line)

def cmdGrep (sh : Shell) (args : List (List UInt8)) : Except Fault (List ConEv × Nat) :=
  match args with
  | [pattern, path] => withFile sh.fs sh.cwd path fun data =>
      let (out, matched) := grepLoop pattern (data ++ [newline]) []
      (out, if matched ≠ 0 then 0 else 1)
  | _ => .ok (puts "usage: grep <pattern> <file>\n", 1)

/-- one byte of `cmd_wc`: lines, words, in a word -/
def wcStep (st : Nat × Nat × Bool) (c : UInt8) : Nat × Nat × Bool :=
  let lines := if c = newline then st.1 + 1 else st.1
  if c = space ∨ c = 0x09 ∨ c = newline then (lines, st.2.1, false)
  else if st.2.2 then (lines, st.2.1, true)
  else (lines, st.2.1 + 1, true)

def cmdWc (sh : Shell) (args : List (List UInt8)) : Except Fault (List ConEv × Nat) :=
  if args = [] then .ok (puts "usage: wc <file>...\n", 1)
  else withFiles sh.fs sh.cwd (fun path data =>
    let (lines, words, _) := data.foldl wcStep (0, 0, false)
    printf "%6u %6u %6u %s\n" [.word lines, .word words, .word data.length, .text path]) args

/-- `limit` and `path` after the loop over the arguments; the last one has nothing after it -/
def headArgs : List (List UInt8) → Nat → Option (List UInt8) → Nat × Option (List UInt8)
  | [], limit, path => (limit, path)
  | [a], limit, _ => (limit, some a)
  | a :: b :: args, limit, path =>
    if a = lit "-n" then headArgs args (atoiSimple b 0) path else headArgs (b :: args) limit (some a)

def headLoop (limit : Nat) : List UInt8 → Nat → List UInt8
  | [], _ => []
  | c :: data, lines =>
    if lines < limit then c :: headLoop limit data (if c = newline then lines + 1 else lines) else []

def cmdHead (sh : Shell) (args : List (List UInt8)) : Except Fault (List ConEv × Nat) :=
  match headArgs args 10 none with
  | (_, none) => .ok (puts "usage: head [-n N] <file>\n", 1)
  | (limit, some path) =>
    withFile sh.fs sh.cwd path fun data => (consoleWrite (headLoop limit data 0), 0)

/-! ## hardware and system -/

/-- the four bytes of a register, as `memcpy` stores them -/
def regBytes (w : Nat) : List UInt8 :=
  [UInt8.ofNat w, UInt8.ofNat (w / 2^8), UInt8.ofNat (w / 2^16), UInt8.ofNat (w / 2^24)]

def edxFlags : List (Nat × String) :=
  [(0, "fpu"), (3, "pse"), (4, "tsc"), (5, "msr"), (6, "pae"), (9, "apic"), (13, "pge"),
    (15, "cmov"), (23, "mmx"), (25, "sse"), (26, "sse2")]

def cmdLscpu (env : Env) : List ConEv × Nat :=
  let (_, b, c, d) := env.cpuid 0
  let vendor := textOf (regBytes b ++ regBytes d ++ regBytes c)
  let brand := ([0, 1, 2].flatMap fun leaf =>
    let (a, b, c, d) := env.cpuid (0x80000002 + leaf)
    regBytes a ++ regBytes b ++ regBytes c ++ regBytes d)
  let model :=
    if 0x80000004 ≤ (env.cpuid 0x80000000).1 then
      printf "Model name:  %s\n" [.text ((textOf brand).dropWhile (· == space))]
    else []
  let (a, _, c, d) := env.cpuid 1
  (printf "Vendor:      %s\n" [.text vendor] ++ model ++
    printf "Family:      %u  Model: %u  Stepping: %u\n"
      [.word ((a >>> 8) &&& 0xf), .word (((a >>> 4) &&& 0xf) ||| ((a >>> 12) &&& 0xf0)),
        .word (a &&& 0xf)] ++
    puts "Flags:      " ++
    edxFlags.flatMap (fun (bit, name) => if d.testBit bit then printf " %s" [.lit name] else []) ++
    (if c.testBit 0 then puts " sse3" else []) ++ [.putc newline], 0)

def pciClassName (classCode : Nat) : String :=
  match classCode with
  | 0x00 => "Unclassified"
  | 0x01 => "Mass storage controller"
  | 0x02 => "Network controller"
  | 0x03 => "Display controller"
  | 0x04 => "Multimedia controller"
  | 0x05 => "Memory controller"
  | 0x06 => "Bridge"
  | 0x0C => "Serial bus controller"
  | _ => "Other"

def cmdLspci (env : Env) : List ConEv × Nat :=
  ((List.range 32).flatMap fun dev =>
    if env.pciRead dev 0 0x00 &&& 0xffff = 0xffff then []
    else
      let fnCount := if (env.pciRead dev 0 0x0C).testBit 23 then 8 else 1
      (List.range fnCount).flatMap fun fn =>
        let id := env.pciRead dev fn 0x00
        if id &&& 0xffff = 0xffff then []
        else printf "00:%02x.%u  %04x:%04x  %s\n" [.word dev, .word fn, .word (id &&& 0xffff),
          .word (id >>> 16), .lit (pciClassName (env.pciRead dev fn 0x08 >>> 24 % 256))], 0)

/-- `kheap_stats` on the block heap -/
def Heap.stats (H : Heap) : HeapStats := H.cells.foldl HeapStats.count ⟨0, 0, 0⟩

def cmdFree (env : Env) (sh : Shell) : List ConEv × Nat :=
  let st := sh.fs.heap.stats
  (puts "              total        used        free\n" ++
    printf "Mem:    %8u KiB %8u KiB %8u KiB\n" [.word env.pmmTotalKib, .word env.pmmUsedKib,
      .word (sub32 env.pmmTotalKib env.pmmUsedKib)] ++
    printf "Heap:   %8u KiB %8u KiB %8u KiB  (largest free block %u KiB)\n"
      [.word (st.total / 1024), .word (st.used / 1024), .word (sub32 st.total st.used / 1024),
        .word (st.largestFree / 1024)], 0)

def timerHz : Nat := 100

def cmdUptime (env : Env) : List ConEv × Nat :=
  let ms := env.ticks 0 * (1000 / timerHz) % 2^64
  let secs := ms / 1000 % 2^32
  (printf "up %u:%02u:%02u (%u ticks at %u Hz)\n" [.word (secs / 3600), .word (secs / 60 % 60),
    .word (secs % 60), .word (env.ticks 1 % 2^32), .word timerHz], 0)

def cmdDate (env : Env) : List ConEv × Nat :=
  (printf "%u-%02u-%02u %02u:%02u:%02u UTC\n" [.word env.rtc.year, .word env.rtc.month,
    .word env.rtc.day, .word env.rtc.hour, .word env.rtc.minute, .word env.rtc.second], 0)

/-- `timer_sleep_ms` waits for the tick counter and touches nothing else -/
def cmdSleep (args : List (List UInt8)) : List ConEv × Nat :=
  if args = [] then (puts "usage: sleep <seconds>\n", 1) else ([], 0)

/-! ## file system: changing -/

def cmdCd (sh : Shell) (args : List (List UInt8)) : Except Fault Done := do
  let target := args.headD [slash]
  let n ← ramfsResolve sh.fs sh.cwd target
  if n = 0 then .ok ⟨sh.fs, sh.cwd, printf "cd: %s: no such directory\n" [.text target], 1⟩
  else do
    let x ← sh.fs.deref n
    if x.type ≠ .dir then
      .ok ⟨sh.fs, sh.cwd, printf "cd: %s: not a directory\n" [.text target], 1⟩
    else .ok ⟨sh.fs, n, [], 0⟩

def mkdirLoop (s : Ramfs) (cwd : Nat) : List (List UInt8) → Except Fault Done
  | [] => .ok ⟨s, cwd, [], 0⟩
  | a :: args => do
    let (n, s) ← ramfsCreate false s cwd a .dir
    if n = 0 then .ok ⟨s, cwd, printf "mkdir: cannot create %s\n" [.text a], 1⟩
    else mkdirLoop s cwd args

def cmdMkdir (sh : Shell) (args : List (List UInt8)) : Except Fault Done :=
  if args = [] then .ok ⟨sh.fs, sh.cwd, puts "usage: mkdir <dir>...\n", 1⟩
  else mkdirLoop sh.fs sh.cwd args

def touchLoop (s : Ramfs) (cwd : Nat) : List (List UInt8) → Except Fault Done
  | [] => .ok ⟨s, cwd, [], 0⟩
  | a :: args => do
    let n ← ramfsResolve s cwd a
    if n ≠ 0 then touchLoop s cwd args
    else do
      let (n, s) ← ramfsCreate false s cwd a .file
      if n = 0 then .ok ⟨s, cwd, printf "touch: cannot create %s\n" [.text a], 1⟩
      else touchLoop s cwd args

def cmdTouch (sh : Shell) (args : List (List UInt8)) : Except Fault Done :=
  if args = [] then .ok ⟨sh.fs, sh.cwd, puts "usage: touch <file>...\n", 1⟩
  else touchLoop sh.fs sh.cwd args

def dashR : List UInt8 := lit "-r"

def rmLoop (s : Ramfs) (cwd : Nat) (recursive : Bool) (removed : Nat) :
    List (List UInt8) → Except Fault Done
  | [] =>
    if removed = 0 then .ok ⟨s, cwd, puts "usage: rm [-r] <path>...\n", 1⟩ else .ok ⟨s, cwd, [], 0⟩
  | a :: args =>
    if a = dashR then rmLoop s cwd true removed args
    else do
      let n ← ramfsResolve s cwd a
      if n = 0 then .ok ⟨s, cwd, printf "rm: %s: no such file or directory\n" [.text a], 1⟩
      else if n = cwd then .ok ⟨s, cwd, puts "rm: refusing to remove the working directory\n", 1⟩
      else do
        let (ok, s) ← ramfsDelete s n recursive
        if ok = false then
          .ok ⟨s, cwd, printf "rm: %s: directory not empty (use -r)\n" [.text a], 1⟩
        else rmLoop s cwd recursive (removed + 1) args

def cmdRm (sh : Shell) (args : List (List UInt8)) : Except Fault Done :=
  rmLoop sh.fs sh.cwd false 0 args

/-- the index of the last slash -/
def lastSlash : List UInt8 → Option Nat
  | [] => none
  | c :: p =>
    match lastSlash p with
    | some i => some (i + 1)
    | none => if c = slash then some 0 else none

/-- `split_parent`: the directory, or NULL, and `*name` -/
def splitParent (s : Ramfs) (cwd : Nat) (path : List UInt8) : Except Fault (Nat × List UInt8) :=
  match lastSlash path with
  | none => .ok (cwd, path)
  | some len =>
    let name := path.drop (len + 1)
    if len = 0 then .ok (s.root, name)
    else if ramfsPathMax ≤ len then .ok (0, name)
    else (ramfsResolve s cwd (path.take len)).map fun d => (d, name)

/-- the end of `cmd_cp`: `dst` is NULL or a node -/
def cpWrite (s : Ramfs) (cwd src dst : Nat) (dstpath : List UInt8) : Except Fault Done :=
  if dst = 0 then .ok ⟨s, cwd, printf "cp: cannot create %s\n" [.text dstpath], 1⟩
  else do
    let d ← s.deref dst
    if d.type ≠ .file then .ok ⟨s, cwd, printf "cp: cannot create %s\n" [.text dstpath], 1⟩
    else do
      let x ← s.deref src
      let (ok, s) ← ramfsWrite false s dst (x.bytes s) false
      if ok = false then .ok ⟨s, cwd, puts "cp: out of memory\n", 1⟩ else .ok ⟨s, cwd, [], 0⟩

/-- `if (!dst) dst = ramfs_create(shell_cwd, dstpath, RAMFS_FILE);` and on -/
def cpInto (s : Ramfs) (cwd src dst : Nat) (dstpath : List UInt8) : Except Fault Done :=
  if dst = 0 then do
    let (dst, s) ← ramfsCreate false s cwd dstpath .file
    cpWrite s cwd src dst dstpath
  else cpWrite s cwd src dst dstpath

/-- `dstpath` once `/` and the source's name are appended, each cut to the buffer -/
def cpDstpath (dstpath name : List UInt8) : List UInt8 :=
  clip ramfsPathMax (clip ramfsPathMax (dstpath ++ [slash]) ++ name)

/-- `cmd_cp` from the call of `ramfs_resolve` on `dstpath` on -/
def cpTo (s : Ramfs) (cwd src : Nat) (dstpath : List UInt8) : Except Fault Done := do
  let dst ← ramfsResolve s cwd dstpath
  if dst = 0 then cpInto s cwd src 0 dstpath
  else do
    let d ← s.deref dst
    if d.type = .dir then do
      let x ← s.deref src
      let dst ← ramfsResolve s cwd (cpDstpath dstpath x.name)
      cpInto s cwd src dst (cpDstpath dstpath x.name)
    else cpInto s cwd src dst dstpath

def cmdCp (sh : Shell) (args : List (List UInt8)) : Except Fault Done :=
  match args with
  | [a, b] => do
    let (src, msg) ← wantFile sh.fs sh.cwd a
    if src = 0 then .ok ⟨sh.fs, sh.cwd, msg, 1⟩
    else cpTo sh.fs sh.cwd src (clip ramfsPathMax b)
  | _ => .ok ⟨sh.fs, sh.cwd, puts "usage: cp <src> <dst>\n", 1⟩

/-- the end of `cmd_mv` -/
def mvTo (sh : Shell) (src parent : Nat) (name : List UInt8) : Except Fault Done := do
  let (ok, s) ← ramfsMove sh.fs src parent name
  if ok = false then .ok ⟨s, sh.cwd, puts "mv: move failed\n", 1⟩ else .ok ⟨s, sh.cwd, [], 0⟩

/-- `cmd_mv` to a path that leads nowhere yet -/
def mvNew (sh : Shell) (src : Nat) (b : List UInt8) : Except Fault Done := do
  let (parent, name) ← splitParent sh.fs sh.cwd b
  if parent = 0 then .ok ⟨sh.fs, sh.cwd, printf "mv: %s: no such directory\n" [.text b], 1⟩
  else do
    let p ← sh.fs.deref parent
    if p.type ≠ .dir then .ok ⟨sh.fs, sh.cwd, printf "mv: %s: no such directory\n" [.text b], 1⟩
    else mvTo sh src parent name

def cmdMv (sh : Shell) (args : List (List UInt8)) : Except Fault Done :=
  match args with
  | [a, b] => do
    let src ← ramfsResolve sh.fs sh.cwd a
    if src = 0 then
      .ok ⟨sh.fs, sh.cwd, printf "mv: %s: no such file or directory\n" [.text a], 1⟩
    else do
      let dst ← ramfsResolve sh.fs sh.cwd b
      if dst = 0 then mvNew sh src b
      else do
        let d ← sh.fs.deref dst
        if d.type = .dir then do
          let x ← sh.fs.deref src
          mvTo sh src dst x.name
        else .ok ⟨sh.fs, sh.cwd, printf "mv: %s: destination exists\n" [.text b], 1⟩
  | _ => .ok ⟨sh.fs, sh.cwd, puts "usage: mv <src> <dst>\n", 1⟩

/-! ## running a command -/

/-- the commands that leave the files and the working directory alone; `reboot`, `poweroff` and
`halt` never return -/
def Command.look (env : Env) (sh : Shell) (args : List (List UInt8)) :
    Command → Except Fault (List ConEv × Nat)
  | .help => .ok cmdHelp
  | .banner => .ok cmdBanner
  | .clear => .ok cmdClear
  | .echo => .ok (cmdEcho args)
  | .ls => cmdLs sh args
  | .cat => cmdCat sh args
  | .pwd => cmdPwd sh
  | .hexdump => cmdHexdump sh args
  | .grep => cmdGrep sh args
  | .wc => cmdWc sh args
  | .head => cmdHead sh args
  | .lscpu => .ok (cmdLscpu env)
  | .lspci => .ok (cmdLspci env)
  | .free => .ok (cmdFree env sh)
  | .uptime => .ok (cmdUptime env)
  | .date => .ok (cmdDate env)
  | .sleep => .ok (cmdSleep args)
  | .history => .ok (cmdHistory sh)
  | .uname => .ok (cmdUname env args)
  | .whoami => .ok cmdWhoami
  | .license => .ok cmdLicense
  | _ => .error .halted

def Command.run (env : Env) (sh : Shell) (args : List (List UInt8)) : Command → Except Fault Done
  | .cd => cmdCd sh args
  | .mkdir => cmdMkdir sh args
  | .touch => cmdTouch sh args
  | .rm => cmdRm sh args
  | .cp => cmdCp sh args
  | .mv => cmdMv sh args
  | c => (c.look env sh args).map fun (out, rc) => ⟨sh.fs, sh.cwd, out, rc⟩

end Raptor
