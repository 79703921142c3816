import RaptorKernel.Fs.RamfsRuns

/-!
# The laws of path resolution

Resolving `a/b` is resolving `a` and then `b` from there; extra slashes, a slash at the end and
`./` in front of a component change nothing.  All of it follows from what the path's components
are (`components`) and from `follow_append`.
-/

namespace Raptor
open Forest

section
variable (a b : List UInt8)

theorem components_append_slash : components (a ++ slash :: b) = components a ++ components b :=
  fields_append_sep a b

theorem components_slashes (n : Nat) :
    components (a ++ List.replicate (n + 1) slash ++ b) = components (a ++ slash :: b) := by
  have e : a ++ List.replicate (n + 1) slash ++ b = a ++ slash :: (List.replicate n slash ++ b) := by
    simp [List.replicate_succ]
  rw [e, components_append_slash, components_append_slash]
  unfold components
  rw [fields_replicate_append]

/-- what precedes a component: nothing, or text that ends with a slash -/
def ComponentStart (u v : List UInt8) : Prop :=
  (u = [] ∨ u.getLast? = some slash) ∧ v ≠ [] ∧ v.head? ≠ some slash

theorem components_dotSlash {u v : List UInt8} (h : ComponentStart u v) :
    components (u ++ (dot ++ slash :: v)) = components u ++ dot :: components v ∧
      components (u ++ v) = components u ++ components v := by
  have hdot : components (dot ++ slash :: v) = dot :: components v := by
    rw [components_append_slash]
    rfl
  rcases h.1 with rfl | hu
  · exact ⟨hdot, rfl⟩
  · obtain ⟨w, rfl⟩ := List.getLast?_eq_some_iff.mp hu
    have e1 : ∀ x, w ++ [slash] ++ x = w ++ slash :: x := fun x => by simp
    have e2 : components (w ++ [slash]) = components w := fields_append_singleton w
    refine ⟨?_, ?_⟩
    · rw [e1, components_append_slash, hdot, e2]
    · rw [e1, components_append_slash, e2]

end

section
variable {s : Ramfs} {held : List Nat} {F : Forest Nat} {cwd : Nat} {n : RamfsNode}

/-- paths with the same start and the same components lead to the same node -/
theorem ramfsResolve_congr (h0 : cwd ≠ 0) {p q : List UInt8} (hh : p.head? = q.head?)
    (hc : components p = components q) : ramfsResolve s cwd p = ramfsResolve s cwd q := by
  rw [ramfsResolve_eq s h0, ramfsResolve_eq s h0, hc]
  unfold startOf
  rw [hh]

theorem startOf_append {p : List UInt8} (hp : p ≠ []) (q : List UInt8) :
    startOf s cwd (p ++ q) = startOf s cwd p := by
  unfold startOf
  rw [List.head?_append_of_ne_nil p hp]

/-- `a/b` is `a`, and then `b` from there -/
theorem ramfsResolve_slash (h : TreeInv s F) (hcwd : s.node cwd = some n) {a b : List UInt8}
    (ha : a ≠ []) (hb : b.head? ≠ some slash) :
    ramfsResolve s cwd (a ++ slash :: b) =
      ramfsResolve s cwd a >>= fun x => if x = 0 then .ok 0 else ramfsResolve s x b := by
  have h0 := h.ne_zero hcwd
  obtain ⟨m, hm⟩ := startOf_live h hcwd a
  rw [ramfsResolve_eq s h0, ramfsResolve_eq s h0, startOf_append ha, components_append_slash,
    follow_append s (h.ne_zero hm)]
  congr 1
  funext x
  by_cases hx : x = 0
  · rw [if_pos hx, if_pos hx]
  · have hsb : startOf s x b = x := if_neg hb
    rw [if_neg hx, if_neg hx, ramfsResolve_eq s hx, hsb]

/-- `./` in front of a component -/
theorem ramfsResolve_dotSlash (h : TreeInv s F) (hcwd : s.node cwd = some n) {u v : List UInt8}
    (huv : ComponentStart u v) :
    ramfsResolve s cwd (u ++ (dot ++ slash :: v)) = ramfsResolve s cwd (u ++ v) := by
  have h0 := h.ne_zero hcwd
  obtain ⟨e1, e2⟩ := components_dotSlash huv
  have hhead : startOf s cwd (u ++ (dot ++ slash :: v)) = startOf s cwd (u ++ v) := by
    by_cases hu : u = []
    · subst hu
      have e3 : startOf s cwd v = cwd := if_neg huv.2.2
      have e4 : startOf s cwd (dot ++ slash :: v) = cwd := if_neg (by simp [dot, slash])
      rw [List.nil_append, List.nil_append, e3, e4]
    · rw [startOf_append hu, startOf_append hu]
  obtain ⟨m, hm⟩ := startOf_live h hcwd (u ++ v)
  have hs := h.ne_zero hm
  rw [ramfsResolve_eq s h0, ramfsResolve_eq s h0, e1, e2, hhead, follow_append s hs,
    follow_append s hs]
  congr 1
  funext x
  by_cases hx : x = 0
  · rw [if_pos hx, if_pos hx]
  · rw [if_neg hx, if_neg hx, follow_dot s hx]

end

/-- Path resolution on a well-formed tree is compositional, and insensitive to repeated slashes, to
a slash at the end and to `./`. -/
theorem resolve_laws {s : Ramfs} {held : List Nat} {F : Forest Nat} (h : FsInv s held F) {cwd : Nat}
    {n : RamfsNode} (hcwd : s.node cwd = some n) :
    (∀ a b : List UInt8, a ≠ [] → b.head? ≠ some slash → ∃ x, ramfsResolve s cwd a = .ok x ∧
      (x = 0 → ramfsResolve s cwd (a ++ slash :: b) = .ok 0) ∧
      (x ≠ 0 → ramfsResolve s cwd (a ++ slash :: b) = ramfsResolve s x b ∧
        ∃ y, ramfsResolve s x b = .ok y)) ∧
    (∀ (u v : List UInt8) (k : Nat), ramfsResolve s cwd (u ++ List.replicate (k + 1) slash ++ v) =
      ramfsResolve s cwd (u ++ slash :: v)) ∧
    (∀ p : List UInt8, p ≠ [] → ramfsResolve s cwd (p ++ [slash]) = ramfsResolve s cwd p) ∧
    (∀ u v : List UInt8, ComponentStart u v →
      ramfsResolve s cwd (u ++ (dot ++ slash :: v)) = ramfsResolve s cwd (u ++ v)) ∧
    ∀ p : List UInt8, ∃ y, ramfsResolve s cwd p = .ok y := by
  have h0 := h.tree.ne_zero hcwd
  refine ⟨fun a b ha hb => ?_, fun u v k => ?_, fun p hp => ?_, fun u v huv => ?_, fun p => ?_⟩
  · obtain ⟨x, hx, hlive⟩ := ramfsResolve_spec h.tree h.bound' hcwd a
    have hlaw := ramfsResolve_slash h.tree hcwd ha hb
    rw [hx] at hlaw
    refine ⟨x, hx, fun hx0 => hlaw.trans (if_pos hx0), fun hx0 => ⟨hlaw.trans (if_neg hx0), ?_⟩⟩
    obtain ⟨m, hm⟩ := hlive hx0
    obtain ⟨y, hy, _⟩ := ramfsResolve_spec h.tree h.bound' hm b
    exact ⟨y, hy⟩
  · refine ramfsResolve_congr h0 ?_ (components_slashes u v k)
    cases u <;> rfl
  · exact ramfsResolve_congr h0 (List.head?_append_of_ne_nil p hp) (fields_append_singleton p)
  · exact ramfsResolve_dotSlash h.tree hcwd huv
  · obtain ⟨y, hy, _⟩ := ramfsResolve_spec h.tree h.bound' hcwd p
    exact ⟨y, hy⟩

theorem resolve_laws_motd :
    ∃ s0, ramfsInit (fun _ => false) (Heap.init sampleImage) (fun _ => 0) = .ok s0 ∧
      ramfsResolve s0 s0.root (lit "/etc" ++ List.replicate 3 slash ++ lit "motd") =
        ramfsResolve s0 s0.root (lit "/etc" ++ slash :: lit "motd") := by
  obtain ⟨_, s0, h0, _⟩ :=
    ramfsInit_run (fun _ => false) (fun _ => 0) (init_root_ne_zero sampleImage)
  obtain ⟨F, h⟩ := fsInv_of_run (init_root_ne_zero sampleImage) h0 .nil
  obtain ⟨r, hr, _⟩ := h.tree.rootDir
  exact ⟨s0, h0, (resolve_laws h hr).2.1 (lit "/etc") (lit "motd") 2⟩

end Raptor
