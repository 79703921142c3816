import RaptorKernel.Lib.StringC

/-!
# mm/kheap.c: the kernel heap over a byte memory

Block headers and payloads live in one byte memory.  `struct block` is laid out as on i386:

    magic +0   size +4   free +8 (one byte)   next +12   prev +16      sizeof = 20

A loop over the block list takes at most `loopBound` steps here; a longer walk could only come
from a cycle, where the C loop would not end (`Fault.diverges`).
-/

namespace Raptor
open Mem

def heapSize : Nat := 4 * 1024 * 1024
def blockMagic : Nat := 0x52415054
def minSplit : Nat := 16
def pageSize : Nat := 4096
def sizeofBlock : Nat := 20

/-- bound on the steps of a walk over objects of the heap -/
def loopBound : Nat := heapSize

/-! ## struct block -/

def magicOf (m : Mem) (b : Nat) : Nat := load32 m b
def sizeOf (m : Mem) (b : Nat) : Nat := load32 m (b + 4)
def freeOf (m : Mem) (b : Nat) : Bool := m (b + 8) != 0
def nextOf (m : Mem) (b : Nat) : Nat := load32 m (b + 12)
def prevOf (m : Mem) (b : Nat) : Nat := load32 m (b + 16)

def setMagic (m : Mem) (b v : Nat) : Mem := store32 m b v
def setSize (m : Mem) (b v : Nat) : Mem := store32 m (b + 4) v
def setFree (m : Mem) (b : Nat) (v : Bool) : Mem := Function.update m (b + 8) (if v then 1 else 0)
def setNext (m : Mem) (b v : Nat) : Mem := store32 m (b + 12) v
def setPrev (m : Mem) (b v : Nat) : Mem := store32 m (b + 16) v

/-! ## the allocator -/

/-- the memory and the two static variables of kheap.c -/
structure Kheap where
  mem : Mem
  heapHead : Nat
  heapStart : Nat

def kheapEndAddr (k : Kheap) : Nat := add32 k.heapStart heapSize

def kheapInit (kernelEnd : Nat) (m : Mem) : Kheap :=
  let start := alignUp kernelEnd pageSize
  let m := setMagic m start blockMagic
  let m := setSize m start (heapSize - sizeofBlock)
  let m := setFree m start true
  let m := setNext m start 0
  let m := setPrev m start 0
  { mem := m, heapHead := start, heapStart := start }

def split (m : Mem) (b size : Nat) : Mem :=
  if sizeOf m b < add32 (add32 size sizeofBlock) minSplit then m
  else
    let rest := add32 (add32 b sizeofBlock) size
    let m := setMagic m rest blockMagic
    let m := setSize m rest (sub32 (sub32 (sizeOf m b) size) sizeofBlock)
    let m := setFree m rest true
    let m := setNext m rest (nextOf m b)
    let m := setPrev m rest b
    let m := if nextOf m rest ≠ 0 then setPrev m (nextOf m rest) rest else m
    let m := setSize m b size
    setNext m b rest

/-- the loop of `kmalloc`; the size is already rounded up -/
def kmallocLoop (k : Kheap) (size : Nat) : Nat → Nat → Except Fault (Nat × Kheap)
  | 0, _ => .error .diverges
  | fuel+1, b =>
    if b = 0 then .ok (0, k)
    else if magicOf k.mem b ≠ blockMagic then
      .error (.panic "kheap: corrupted block header at %p" b)
    else if freeOf k.mem b = true ∧ size ≤ sizeOf k.mem b then
      .ok (add32 b sizeofBlock, { k with mem := setFree (split k.mem b size) b false })
    else kmallocLoop k size fuel (nextOf k.mem b)

def kmalloc (k : Kheap) (size : Nat) : Except Fault (Nat × Kheap) :=
  if size = 0 then .ok (0, k)
  else kmallocLoop k (alignUp size 8) loopBound k.heapHead

def kzalloc (k : Kheap) (size : Nat) : Except Fault (Nat × Kheap) :=
  match kmalloc k size with
  | .error e => .error e
  | .ok (p, k') =>
    if p ≠ 0 then .ok (p, { k' with mem := memset k'.mem p 0 size }) else .ok (p, k')

def mergeNext (m : Mem) (b : Nat) : Mem :=
  let n := nextOf m b
  if n = 0 ∨ freeOf m b = false ∨ freeOf m n = false then m
  else
    let m := setSize m b (add32 (sizeOf m b) (add32 sizeofBlock (sizeOf m n)))
    let m := setNext m b (nextOf m n)
    if nextOf m b ≠ 0 then setPrev m (nextOf m b) b else m

def kfree (k : Kheap) (ptr : Nat) : Except Fault Kheap :=
  if ptr = 0 then .ok k
  else
    let b := sub32 ptr sizeofBlock
    if magicOf k.mem b ≠ blockMagic then .error (.panic "kfree: bad pointer %p" ptr)
    else if freeOf k.mem b = true then .error (.panic "kfree: double free of %p" ptr)
    else
      let m := setFree k.mem b true
      let m := mergeNext m b
      let m := if prevOf m b ≠ 0 ∧ freeOf m (prevOf m b) = true then mergeNext m (prevOf m b) else m
      .ok { k with mem := m }

/-- totals of `kheap_stats` -/
structure HeapStats where
  total : Nat
  used : Nat
  largestFree : Nat
deriving DecidableEq, Repr

def kheapStatsLoop (m : Mem) : Nat → Nat → HeapStats → Except Fault HeapStats
  | 0, _, _ => .error .diverges
  | fuel+1, b, st =>
    if b = 0 then .ok st
    else
      let st := { st with total := add32 st.total (sizeOf m b) }
      let st :=
        if freeOf m b = false then { st with used := add32 st.used (sizeOf m b) }
        else if st.largestFree < sizeOf m b then { st with largestFree := sizeOf m b }
        else st
      kheapStatsLoop m fuel (nextOf m b) st

def kheapStats (k : Kheap) : Except Fault HeapStats :=
  kheapStatsLoop k.mem loopBound k.heapHead ⟨0, 0, 0⟩

end Raptor
