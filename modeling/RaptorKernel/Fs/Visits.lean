import RaptorKernel.Fs.Calls

/-!
# Where a walk comes by

* `Visits s cur cs x`      the walk from `cur` along `cs` comes by `x`;
* `follow_transfer`        a walk that keeps away from some nodes leads to the same node in another
                           tree, if its steps do;
* `walkComps_node`         both modes of `walk` return the same node;
* `dirPart`, `components_dirPart`   a path without its last component.
-/

namespace Raptor
open Forest

def Visits (s : Ramfs) (cur : Nat) (cs : List (List UInt8)) (x : Nat) : Prop :=
  ∃ pre post, cs = pre ++ post ∧ follow s cur pre = .ok x

section
variable {s s' : Ramfs} {F : Forest Nat} {cur x next : Nat} {n : RamfsNode} {c : List UInt8}
  {cs : List (List UInt8)}

theorem Visits.here : Visits s cur cs cur := ⟨[], cs, rfl, rfl⟩

/-- a component that leads on -/
theorem follow_step (hlen : ¬ ramfsNameMax ≤ c.length) (hw : walkNext s cur c = .ok (some next))
    (h0 : next ≠ 0) : follow s cur (c :: cs) = follow s next cs := by
  rw [follow_cons, if_neg hlen, hw]
  exact if_neg h0

theorem follow_cons_ok (hx : follow s cur (c :: cs) = .ok x) (h0 : x ≠ 0) :
    ∃ next, ¬ ramfsNameMax ≤ c.length ∧ walkNext s cur c = .ok (some next) ∧ next ≠ 0 ∧
      follow s next cs = .ok x := by
  rw [follow_cons] at hx
  by_cases hlen : ramfsNameMax ≤ c.length
  · rw [if_pos hlen] at hx
    exact absurd (Except.ok.inj hx).symm h0
  rw [if_neg hlen] at hx
  obtain ⟨o, ho, hx⟩ := bind_eq_ok.mp hx
  cases o with
  | none => exact absurd (Except.ok.inj hx).symm h0
  | some next =>
    by_cases hn : next = 0
    · have hx' : (if next = 0 then Except.ok 0 else follow s next cs) = .ok x := hx
      rw [if_pos hn] at hx'
      exact absurd (Except.ok.inj hx').symm h0
    · have hx' : (if next = 0 then Except.ok 0 else follow s next cs) = .ok x := hx
      rw [if_neg hn] at hx'
      exact ⟨next, hlen, ho, hn, hx'⟩

/-- a walk that resolves, cut in two -/
theorem follow_split (hcur : cur ≠ 0) {pre post : List (List UInt8)}
    (hx : follow s cur (pre ++ post) = .ok x) (h0 : x ≠ 0) :
    ∃ y, follow s cur pre = .ok y ∧ y ≠ 0 ∧ follow s y post = .ok x := by
  rw [follow_append s hcur] at hx
  obtain ⟨y, hy, hx⟩ := bind_eq_ok.mp hx
  by_cases hy0 : y = 0
  · rw [if_pos hy0] at hx
    exact absurd (Except.ok.inj hx).symm h0
  · rw [if_neg hy0] at hx
    exact ⟨y, hy, hy0, hx⟩

/-- a walk of one component -/
theorem follow_one (hx : follow s cur [c] = .ok x) (h0 : x ≠ 0) :
    walkNext s cur c = .ok (some x) := by
  obtain ⟨next, _, hw, _, hx'⟩ := follow_cons_ok hx h0
  cases hx'
  exact hw

theorem follow_live (h : TreeInv s F) (hb : (s.tree F).addrs.length < loopBound)
    (hcur : s.node cur = some n) (hx : follow s cur cs = .ok x) (h0 : x ≠ 0) :
    ∃ m, s.node x = some m := by
  obtain ⟨w, hw, hok⟩ := walkComps_spec h hb false hcur cs
  unfold follow at hx
  rw [hw] at hx
  cases hx
  exact hok.live h0

theorem Visits.cons (hlen : ¬ ramfsNameMax ≤ c.length) (hw : walkNext s cur c = .ok (some next))
    (h0 : next ≠ 0) (hv : Visits s next cs x) : Visits s cur (c :: cs) x := by
  obtain ⟨pre, post, rfl, h⟩ := hv
  exact ⟨c :: pre, post, rfl, (follow_step hlen hw h0).trans h⟩

theorem Visits.nil (hv : Visits s cur [] x) : x = cur := by
  obtain ⟨pre, post, e, h⟩ := hv
  rw [(List.append_eq_nil_iff.mp e.symm).1] at h
  exact (Except.ok.inj h).symm

/-- a walk comes by the node it starts at, and by those the rest of it comes by -/
theorem Visits.of_cons (hv : Visits s cur (c :: cs) x) (h0 : x ≠ 0) :
    x = cur ∨ ∃ next, ¬ ramfsNameMax ≤ c.length ∧ walkNext s cur c = .ok (some next) ∧ next ≠ 0 ∧
      Visits s next cs x := by
  obtain ⟨pre, post, e, h⟩ := hv
  cases pre with
  | nil => exact .inl (Except.ok.inj h).symm
  | cons d pre =>
    obtain ⟨rfl, rfl⟩ := List.cons.inj e
    obtain ⟨next, hlen, hw, hn0, hx⟩ := follow_cons_ok h h0
    exact .inr ⟨next, hlen, hw, hn0, pre, post, rfl, hx⟩

/-- the walk on a well-formed tree steps from live node to live node -/
theorem walkNext_live (h : TreeInv s F) (hb : (s.tree F).addrs.length < loopBound)
    (hcur : s.node cur = some n) (hw : walkNext s cur c = .ok (some next)) (h0 : next ≠ 0) :
    ∃ m, s.node next = some m := by
  obtain ⟨o, ho, hlive, _⟩ := walkNext_spec h hb hcur c
  rw [ho] at hw
  exact hlive next (Except.ok.inj hw) h0

/-- A walk that resolves and keeps away from the nodes in `Bad` leads to the same node in `s'`, if
every step between other nodes does. -/
theorem follow_transfer (Bad : Nat → Prop) (h : TreeInv s F)
    (hb : (s.tree F).addrs.length < loopBound)
    (hstep : ∀ cur c next n, s.node cur = some n → ¬ Bad cur → walkNext s cur c = .ok (some next) →
      next ≠ 0 → ¬ Bad next → walkNext s' cur c = .ok (some next))
    (hn : s.node cur = some n) (hx : follow s cur cs = .ok x) (h0 : x ≠ 0)
    (hv : ∀ y, Visits s cur cs y → ¬ Bad y) : follow s' cur cs = .ok x := by
  induction cs generalizing cur n with
  | nil => exact hx
  | cons c cs ih =>
    obtain ⟨next, hlen, hw, hn0, hx'⟩ := follow_cons_ok hx h0
    obtain ⟨m, hm⟩ := walkNext_live h hb hn hw hn0
    have hw' := hstep cur c next n hn (hv cur Visits.here) hw hn0
      (hv next (Visits.cons hlen hw hn0 Visits.here))
    rw [follow_step hlen hw' hn0]
    exact ih hm hx' fun y hy => hv y (Visits.cons hlen hw hn0 hy)

/-! ## the two modes of walk -/

/-- Whether the parent is asked for or not, the node is the same. -/
theorem walkComps_node (s : Ramfs) (cur : Nat) (cs : List (List UInt8)) :
    (walkComps s true cur cs).map WalkOut.node = follow s cur cs := by
  induction cs generalizing cur with
  | nil => rfl
  | cons c cs ih =>
    rw [follow_cons]
    unfold walkComps
    by_cases hlen : ramfsNameMax ≤ c.length
    · rw [if_pos hlen, if_pos hlen]
      rfl
    rw [if_neg hlen, if_neg hlen]
    cases walkNext s cur c with
    | error e => rfl
    | ok o =>
      cases o with
      | none => rfl
      | some next =>
        show Except.map WalkOut.node (if cs = [] ∧ true = true ∧ c ≠ dot ∧ c ≠ dotdot then
          .ok ⟨next, cur, clip ramfsNameMax c⟩ else if next = 0 then .ok WalkOut.null
          else walkComps s true next cs) = if next = 0 then .ok 0 else follow s next cs
        by_cases hlast : cs = [] ∧ true = true ∧ c ≠ dot ∧ c ≠ dotdot
        · rw [if_pos hlast, hlast.1]
          by_cases h0 : next = 0
          · rw [if_pos h0, h0]
            rfl
          · rw [if_neg h0]
            rfl
        · rw [if_neg hlast]
          by_cases h0 : next = 0
          · rw [if_pos h0, if_pos h0]
            rfl
          · rw [if_neg h0, if_neg h0]
            exact ih next

theorem walk_node (s : Ramfs) (cwd : Nat) (path : List UInt8) {w : WalkOut}
    (hw : walk s cwd path true = .ok w) :
    follow s (startOf s cwd path) (components path) = .ok w.node := by
  rw [← walkComps_node, ← walk_eq, hw]
  rfl

end

theorem startOf_sameRoot {s s' : Ramfs} (hroot : s'.root = s.root) (cwd : Nat)
    (path : List UInt8) : startOf s' cwd path = startOf s cwd path := by
  unfold startOf
  rw [hroot]

/-! ## a path without its last component -/

/-- the text in front of the last component -/
def dirPart (path : List UInt8) : List UInt8 :=
  (path.rdropWhile (· == slash)).rdropWhile (· != slash)

theorem components_dirPart {path : List UInt8} (h : components path ≠ []) :
    ∃ c, components path = components (dirPart path) ++ [c] := by
  have hq : components (path.rdropWhile (· == slash)) = components path := fields_rdropWhile path
  have h0 : path.rdropWhile (· == slash) ≠ [] := by
    intro e
    rw [e] at hq
    exact h hq.symm
  refine ⟨_, hq.symm.trans (fields_last h0 ?_)⟩
  rw [List.getLast?_eq_some_getLast h0]
  intro e
  have h1 := List.rdropWhile_last_not (· == slash) path h0
  rw [Option.some.inj e] at h1
  exact h1 (by simp)

theorem head?_of_prefix {p q : List UInt8} (hp : p ≠ []) (h : p <+: q) : p.head? = q.head? := by
  obtain ⟨r, rfl⟩ := h
  exact (List.head?_append_of_ne_nil p hp).symm

/-- a path without its last component starts where the path does -/
theorem startOf_dirPart (s : Ramfs) (cwd : Nat) {path : List UInt8} (h : components path ≠ []) :
    startOf s cwd (dirPart path) = startOf s cwd path := by
  have h0 : path.rdropWhile (· == slash) ≠ [] := by
    intro e
    have hq : components (path.rdropWhile (· == slash)) = components path := fields_rdropWhile path
    rw [e] at hq
    exact h hq.symm
  have hq : (path.rdropWhile (· == slash)).head? = path.head? :=
    head?_of_prefix h0 (List.rdropWhile_prefix _ _)
  have hhead : (dirPart path).head? = some slash ↔ path.head? = some slash := by
    by_cases hd : dirPart path = []
    · rw [hd, ← hq]
      refine ⟨fun e => absurd e (by simp), fun e => ?_⟩
      have hmem := List.mem_of_mem_head? e
      have hall := List.rdropWhile_eq_nil_iff.mp hd slash hmem
      simp at hall
    · rw [← hq, ← head?_of_prefix hd (List.rdropWhile_prefix _ _)]
  unfold startOf
  simp only [hhead]

end Raptor
