import RaptorKernel.Mm.Blocks

/-!
# fs/ramfs.c: the in-memory file system

A node is a heap block that holds a `struct ramfs_node`; `node` gives the structure at every
address where one is alive, and reading a node that is not alive is a fault.  `heap` is the block
heap all of this lives on, `bytes` the contents of the data buffers.  NULL is `0`, and a name is
the text before the NUL of `char name[32]`.

* `nodeNew`, `attach`, `detach`, `findChild`, `walk`   the internal functions;
* `ramfsResolve`, `ramfsCreate`, `ramfsWrite`, `ramfsDelete`, `ramfsMove`   the interface;
* `ramfsInit`     the tree after boot.

Every allocation can be made to fail: the flag `deny` is a `kmalloc` that returns NULL whatever
the heap holds.
-/

namespace Raptor
open Mem

def ramfsNameMax : Nat := 32
def ramfsPathMax : Nat := 256
def sizeofRamfsNode : Nat := 60

inductive RamfsType where
  | file
  | dir
deriving DecidableEq, Repr

structure RamfsNode where
  name : List UInt8
  type : RamfsType
  data : Nat
  size : Nat
  capacity : Nat
  parent : Nat
  children : Nat
  next : Nat
deriving DecidableEq, Repr

structure Ramfs where
  heap : Heap
  bytes : Mem
  node : Nat → Option RamfsNode
  root : Nat

namespace Ramfs

def deref (s : Ramfs) (a : Nat) : Except Fault RamfsNode :=
  match s.node a with
  | some n => .ok n
  | none => .error (.dangling a)

def set (s : Ramfs) (a : Nat) (n : RamfsNode) : Ramfs :=
  { s with node := Function.update s.node a (some n) }

def kmalloc (deny : Bool) (s : Ramfs) (size : Nat) : Nat × Ramfs :=
  if deny then (0, s) else ((s.heap.kmalloc size).1, { s with heap := (s.heap.kmalloc size).2 })

/-- whatever lived in the block is gone afterwards -/
def kfree (s : Ramfs) (p : Nat) : Except Fault Ramfs :=
  (s.heap.kfree p).map fun H => { s with heap := H, node := Function.update s.node p none }

end Ramfs

/-! ## nodes and their links -/

/-- `strlcpy` into a buffer of `size` bytes keeps the first `size - 1` of the text -/
def clip (size : Nat) (s : List UInt8) : List UInt8 := s.take (size - 1)

def nodeNew (deny : Bool) (s : Ramfs) (name : List UInt8) (type : RamfsType) : Nat × Ramfs :=
  let (p, s) := s.kmalloc deny sizeofRamfsNode
  if p = 0 then (0, s)
  else (p, s.set p ⟨clip ramfsNameMax name, type, 0, 0, 0, 0, 0, 0⟩)

def attach (s : Ramfs) (parent child : Nat) : Except Fault Ramfs := do
  let c ← s.deref child
  let s := s.set child { c with parent := parent }
  let p ← s.deref parent
  let c ← s.deref child
  let s := s.set child { c with next := p.children }
  let p ← s.deref parent
  .ok (s.set parent { p with children := child })

/-- the place a `struct ramfs_node **` points at -/
inductive Slot where
  | children (a : Nat)
  | next (a : Nat)

def Slot.read (s : Ramfs) : Slot → Except Fault Nat
  | .children a => (s.deref a).map RamfsNode.children
  | .next a => (s.deref a).map RamfsNode.next

def Slot.write (s : Ramfs) (v : Nat) : Slot → Except Fault Ramfs
  | .children a => (s.deref a).map fun n => s.set a { n with children := v }
  | .next a => (s.deref a).map fun n => s.set a { n with next := v }

/-- `while (*pp && *pp != node) pp = &(*pp)->next` -/
def detachLoop (s : Ramfs) (node : Nat) : Nat → Slot → Except Fault Slot
  | 0, _ => .error .diverges
  | fuel+1, pp => do
    let v ← pp.read s
    if v ≠ 0 ∧ v ≠ node then detachLoop s node fuel (.next v) else .ok pp

def detach (s : Ramfs) (node : Nat) : Except Fault Ramfs := do
  let n ← s.deref node
  let pp ← detachLoop s node loopBound (.children n.parent)
  let v ← pp.read s
  let s ← if v ≠ 0 then pp.write s n.next else .ok s
  let n ← s.deref node
  .ok (s.set node { n with parent := 0, next := 0 })

def findChildLoop (s : Ramfs) (name : List UInt8) : Nat → Nat → Except Fault Nat
  | 0, _ => .error .diverges
  | fuel+1, c =>
    if c = 0 then .ok 0
    else do
      let n ← s.deref c
      if n.name = name then .ok c else findChildLoop s name fuel n.next

def findChild (s : Ramfs) (dir : Nat) (name : List UInt8) : Except Fault Nat := do
  let d ← s.deref dir
  findChildLoop s name loopBound d.children

/-! ## paths -/

def slash : UInt8 := 0x2F
def dot : List UInt8 := [0x2E]
def dotdot : List UInt8 := [0x2E, 0x2E]

/-- the return value of `walk`, `*parent_out` and `name_out` -/
structure WalkOut where
  node : Nat
  parent : Nat
  name : List UInt8
deriving DecidableEq, Repr

/-- what `walk` returns when it gives up: the outputs keep their first values -/
def WalkOut.null : WalkOut := ⟨0, 0, []⟩

/-- `while (*p == '/') p++` -/
def skipSlashes (p : List UInt8) : List UInt8 := p.dropWhile (· == slash)

/-- the bytes up to the next `/` or the end -/
def component (p : List UInt8) : List UInt8 := p.takeWhile (· != slash)

/-- where one component leads from `cur`: `none` is the return of NULL at a node that is no
directory, `some 0` a name that is not there -/
def walkNext (s : Ramfs) (cur : Nat) (comp : List UInt8) : Except Fault (Option Nat) :=
  if comp = dot then .ok (some cur)
  else do
    let c ← s.deref cur
    if comp = dotdot then .ok (some (if c.parent ≠ 0 then c.parent else cur))
    else if c.type ≠ .dir then .ok none
    else (findChild s cur comp).map some

/-- The loop of `walk`.  Every round consumes a byte of the path, so a path never outlasts as much
fuel as it has bytes. -/
def walkLoop (s : Ramfs) (wantParent : Bool) : Nat → Nat → List UInt8 → Except Fault WalkOut
  | 0, _, _ => .error .diverges
  | fuel+1, cur, p =>
    let p := skipSlashes p
    if p = [] then .ok ⟨cur, 0, []⟩
    else
      let comp := component p
      if ramfsNameMax ≤ comp.length then .ok WalkOut.null
      else
        let rest := skipSlashes (p.drop comp.length)
        do
          match ← walkNext s cur comp with
          | none => .ok WalkOut.null
          | some next =>
            if rest = [] ∧ wantParent = true ∧ comp ≠ dot ∧ comp ≠ dotdot then
              .ok ⟨next, cur, clip ramfsNameMax comp⟩
            else if next = 0 then .ok WalkOut.null
            else walkLoop s wantParent fuel next rest

def walk (s : Ramfs) (cwd : Nat) (path : List UInt8) (wantParent : Bool) : Except Fault WalkOut :=
  let cur := if path.head? = some slash then s.root else cwd
  walkLoop s wantParent (path.length + 1) cur path

def ramfsResolve (s : Ramfs) (cwd : Nat) (path : List UInt8) : Except Fault Nat :=
  (walk s (if cwd ≠ 0 then cwd else s.root) path false).map WalkOut.node

/-! ## creating and writing -/

def ramfsCreate (deny : Bool) (s : Ramfs) (cwd : Nat) (path : List UInt8) (type : RamfsType) :
    Except Fault (Nat × Ramfs) := do
  let w ← walk s (if cwd ≠ 0 then cwd else s.root) path true
  if w.node ≠ 0 ∨ w.parent = 0 ∨ w.name = [] then .ok (0, s)
  else do
    let p ← s.deref w.parent
    if p.type ≠ .dir then .ok (0, s)
    else
      let (n, s) := nodeNew deny s w.name type
      if n ≠ 0 then (attach s w.parent n).map fun s => (n, s) else .ok (n, s)

/-- `while (newcap < needed) newcap *= 2`; a capacity that has wrapped to `0` stays there, so the
loop ends within 33 rounds or never -/
def growLoop (needed : Nat) : Nat → Nat → Except Fault Nat
  | 0, _ => .error .diverges
  | fuel+1, newcap =>
    if newcap < needed then growLoop needed fuel (newcap * 2 % 2^32) else .ok newcap

/-- `ramfs_write(file, data, len, append)`; `data` is the `len` bytes the pointer leads to -/
def ramfsWrite (deny : Bool) (s : Ramfs) (file : Nat) (data : List UInt8) (append : Bool) :
    Except Fault (Bool × Ramfs) :=
  if file = 0 then .ok (false, s)
  else do
    let f ← s.deref file
    if f.type ≠ .file then .ok (false, s)
    else
      let base := if append then f.size else 0
      let needed := add32 base data.length
      if f.capacity < needed then do
        let newcap ← growLoop needed 64 (if f.capacity ≠ 0 then f.capacity else 64)
        let (buf, s) := s.kmalloc deny newcap
        if buf = 0 then .ok (false, s)
        else do
          let s := { s with bytes := blit s.bytes buf (slice s.bytes f.data base) }
          let s ← s.kfree f.data
          let s := s.set file { f with data := buf, capacity := newcap, size := add32 base data.length }
          .ok (true, { s with bytes := blit s.bytes (add32 buf base) data })
      else
        let s := s.set file { f with size := add32 base data.length }
        .ok (true, { s with bytes := blit s.bytes (add32 f.data base) data })

/-! ## removing and moving -/

mutual
def freeTree : Nat → Nat → Ramfs → Except Fault Ramfs
  | 0, _, _ => .error .diverges
  | fuel+1, node, s => do
    let n ← s.deref node
    let s ← freeKids fuel n.children s
    let n ← s.deref node
    let s ← s.kfree n.data
    s.kfree node

/-- the loop of `free_tree` over the children -/
def freeKids : Nat → Nat → Ramfs → Except Fault Ramfs
  | 0, _, _ => .error .diverges
  | fuel+1, c, s =>
    if c = 0 then .ok s
    else do
      let n ← s.deref c
      let s ← freeTree fuel c s
      freeKids fuel n.next s
end

def ramfsDelete (s : Ramfs) (node : Nat) (recursive : Bool) : Except Fault (Bool × Ramfs) :=
  if node = 0 ∨ node = s.root then .ok (false, s)
  else do
    let n ← s.deref node
    if n.parent = 0 then .ok (false, s)
    else if n.type = .dir ∧ n.children ≠ 0 ∧ recursive = false then .ok (false, s)
    else do
      let s ← detach s node
      let s ← freeTree loopBound node s
      .ok (true, s)

/-- `for (p = new_parent; p; p = p->parent) if (p == node) return false` -/
def aboveLoop (s : Ramfs) (node : Nat) : Nat → Nat → Except Fault Bool
  | 0, _ => .error .diverges
  | fuel+1, p =>
    if p = 0 then .ok false
    else if p = node then .ok true
    else do
      let n ← s.deref p
      aboveLoop s node fuel n.parent

def ramfsMove (s : Ramfs) (node newParent : Nat) (newName : List UInt8) :
    Except Fault (Bool × Ramfs) :=
  if node = 0 ∨ node = s.root ∨ newParent = 0 then .ok (false, s)
  else do
    let p ← s.deref newParent
    if p.type ≠ .dir then .ok (false, s)
    else do
      let c ← findChild s newParent newName
      if c ≠ 0 then .ok (false, s)
      else do
        if ← aboveLoop s node loopBound newParent then .ok (false, s)
        else do
          let s ← detach s node
          let n ← s.deref node
          let s := s.set node { n with name := clip ramfsNameMax newName }
          let s ← attach s newParent node
          .ok (true, s)

/-! ## the initial tree -/

def raptorName : String := "Raptor"
def raptorVersion : String := "0.2.1"
def raptorCodename : String := "Velociraptor"

def initDirs : List String := ["/bin", "/etc", "/home", "/home/user", "/tmp", "/usr", "/var"]

def motd : String :=
  "Welcome to " ++ raptorName ++ " " ++ raptorVersion ++ " (" ++ raptorCodename ++ ")!\n" ++
  "Type 'help' to see the available commands.\n"

def osRelease : String :=
  "NAME=\"" ++ raptorName ++ "\"\n" ++
  "VERSION=\"" ++ raptorVersion ++ " (" ++ raptorCodename ++ ")\"\n" ++
  "ID=raptor\n" ++
  "PRETTY_NAME=\"" ++ raptorName ++ " " ++ raptorVersion ++ "\"\n" ++
  "HOME_URL=\"https://github.com/ramiraptor/raptor-kernel\"\n"

def readme : String :=
  raptorName ++ " is a small Unix-like teaching kernel.\n" ++
  "\n" ++
  "Everything you see in this filesystem lives in RAM and is\n" ++
  "rebuilt on every boot. Try things like:\n" ++
  "\n" ++
  "    ls /etc\n" ++
  "    cat /etc/motd\n" ++
  "    echo hello > /tmp/note && cat /tmp/note\n" ++
  "    free\n" ++
  "    uname -a\n"

def initFiles : List (String × String) :=
  [("/etc/motd", motd), ("/etc/os-release", osRelease), ("/README.txt", readme)]

def preloadFile (deny : Nat → Bool) (s : Ramfs) (path contents : List UInt8) : Except Fault Ramfs := do
  let (f, s) ← ramfsCreate (deny 0) s s.root path .file
  if f ≠ 0 then (ramfsWrite (deny 1) s f contents false).map Prod.snd else .ok s

/-- the loop over `dirs`; `deny` tells which allocations fail, from this one on -/
def initDirsLoop (deny : Nat → Bool) (s : Ramfs) : List String → Except Fault Ramfs
  | [] => .ok s
  | d :: ds => do
    let (_, s) ← ramfsCreate (deny 0) s s.root (lit d) .dir
    initDirsLoop (fun i => deny (i + 1)) s ds

def preloadFiles (deny : Nat → Bool) (s : Ramfs) : List (String × String) → Except Fault Ramfs
  | [] => .ok s
  | f :: fs => do
    let s ← preloadFile deny s (lit f.1) (lit f.2)
    preloadFiles (fun i => deny (i + 2)) s fs

/-- `ramfs_init` on the heap `H`, whose buffers hold whatever bytes `m` -/
def ramfsInit (deny : Nat → Bool) (H : Heap) (m : Mem) : Except Fault Ramfs := do
  let (r, s) := nodeNew false ⟨H, m, fun _ => none, 0⟩ [] .dir
  let s ← initDirsLoop deny { s with root := r } initDirs
  preloadFiles (fun i => deny (i + initDirs.length)) s initFiles

end Raptor
