import RaptorKernel.Theory.Run

/-!
# File trees as maps from paths

A tree is a map from paths (lists of names, from the root on) to what is there: a directory, or a file
with its contents.

* `Tree`, `Op`, `Tree.apply`     trees, and the operations on them;
* `Tree.Allowed`, `Tree.Closed`  when an operation is allowed, and that what is above something is a
                                 directory;
* `Closed.apply`                 allowed operations keep trees closed;
* `rename_back`   what undoes what;
* `Tree.walk`                    paths that also go up, or nowhere.
-/

namespace PathMap

inductive Entry (β : Type*) where
  | dir
  | file (b : β)

abbrev Tree (ν β : Type*) := List ν → Option (Entry β)

inductive Op (ν β : Type*) where
  /-- a new entry `c` in the directory `p` -/
  | create (p : List ν) (c : ν) (e : Entry β)
  | write (p : List ν) (b : β)
  /-- what is at `p`, and everything below -/
  | remove (p : List ν)
  /-- what is at `p`, and everything below, becomes the entry `c` of the directory `q` -/
  | rename (p q : List ν) (c : ν)

/-- a component of a path -/
inductive Comp (ν : Type*) where
  | here
  | up
  | name (c : ν)

namespace Tree
variable {ν β : Type*} [DecidableEq ν]

def set (f : Tree ν β) (p : List ν) (e : Entry β) : Tree ν β := Function.update f p (some e)

def remove (f : Tree ν β) (p : List ν) : Tree ν β := fun q => if p <+: q then none else f q

/-- what was below `p` is below `p'` -/
def rename (f : Tree ν β) (p p' : List ν) : Tree ν β := fun q =>
  if p' <+: q then f (p ++ q.drop p'.length) else if p <+: q then none else f q

def apply (f : Tree ν β) : Op ν β → Tree ν β
  | .create p c e => f.set (p ++ [c]) e
  | .write p b => f.set p (.file b)
  | .remove p => f.remove p
  | .rename p q c => f.rename p (q ++ [c])

omit [DecidableEq ν] in
/-- when an operation is allowed -/
def Allowed (f : Tree ν β) : Op ν β → Prop
  | .create p c _ => f p = some .dir ∧ f (p ++ [c]) = none
  | .write p _ => ∃ b, f p = some (.file b)
  | .remove p => p ≠ [] ∧ f p ≠ none
  | .rename p q c => p ≠ [] ∧ f p ≠ none ∧ f q = some .dir ∧ f (q ++ [c]) = none ∧ ¬ p <+: q

/-- what is above something is a directory -/
structure Closed (f : Tree ν β) : Prop where
  root : f [] = some .dir
  up : ∀ p c, f (p ++ [c]) ≠ none → f p = some .dir

/-- the operations as a machine -/
def machine (ν β : Type*) [DecidableEq ν] : Machine (Tree ν β) (Op ν β) Empty where
  step f o := .ok (f.apply o)
  legal := Allowed

/-! ## closed trees -/

section
variable {f : Tree ν β} {p p' q : List ν} {c : ν} {e : Entry β}

omit [DecidableEq ν]

theorem Closed.above (h : f.Closed) {r : List ν} (hr : r ≠ []) (hf : f (p ++ r) ≠ none) : f p = some .dir := by
  induction r using List.reverseRecOn with
  | nil => exact absurd rfl hr
  | append_singleton r c ih =>
    rw [← List.append_assoc] at hf
    have h1 := h.up _ _ hf
    by_cases h0 : r = []
    · rw [h0, List.append_nil] at h1
      exact h1
    · exact ih h0 (by simp [h1])

/-- nothing lies below what is not there -/
theorem Closed.none_below (h : f.Closed) (hp : f p = none) (hq : p <+: q) : f q = none := by
  obtain ⟨r, rfl⟩ := hq
  by_contra hf
  by_cases hr : r = []
  · rw [hr, List.append_nil] at hf
    exact hf hp
  · have h1 := h.above hr hf
    rw [hp] at h1
    cases h1

end

section
variable {f : Tree ν β} {p p' q : List ν} {c : ν} {e : Entry β}

theorem set_self (f : Tree ν β) (p : List ν) (e : Entry β) : f.set p e p = some e := Function.update_self _ _ _

theorem set_ne (h : q ≠ p) : f.set p e q = f q := Function.update_of_ne h _ _

theorem set_set (f : Tree ν β) (p : List ν) (e e' : Entry β) : (f.set p e).set p e' = f.set p e' :=
  Function.update_idem _ _ _

theorem remove_below (h : p <+: q) : f.remove p q = none := if_pos h

theorem remove_away (h : ¬ p <+: q) : f.remove p q = f q := if_neg h

theorem rename_below (f : Tree ν β) (p p' r : List ν) : f.rename p p' (p' ++ r) = f (p ++ r) := by
  unfold rename
  rw [if_pos (List.prefix_append p' r), List.drop_left]

theorem rename_old (h' : ¬ p' <+: q) (h : p <+: q) : f.rename p p' q = none := by
  unfold rename
  rw [if_neg h', if_pos h]

theorem rename_away (h' : ¬ p' <+: q) (h : ¬ p <+: q) : f.rename p p' q = f q := by
  unfold rename
  rw [if_neg h', if_neg h]

omit [DecidableEq ν] in
/-- one step above a path below `p'`, the path is `p'` itself or still below -/
theorem prefix_concat (h : p' <+: q ++ [c]) : p' = q ++ [c] ∨ p' <+: q := List.prefix_concat_iff.mp h

omit [DecidableEq ν] in
theorem not_prefix_of_concat (p : List ν) (c : ν) : ¬ p ++ [c] <+: p := by
  intro h
  have := h.length_le
  simp at this

theorem Closed.set_new (h : f.Closed) (hp : f p = some .dir) (hc : f (p ++ [c]) = none) (e : Entry β) :
    (f.set (p ++ [c]) e).Closed := by
  refine ⟨?_, fun q d hq => ?_⟩
  · rw [set_ne (by simp)]
    exact h.root
  · by_cases hqd : q ++ [d] = p ++ [c]
    · obtain ⟨rfl, -⟩ := List.append_inj' hqd rfl
      rw [set_ne (by simp)]
      exact hp
    · rw [set_ne hqd] at hq
      have h1 := h.up q d hq
      rw [set_ne (fun e1 => by rw [e1, hc] at h1; cases h1)]
      exact h1

theorem Closed.set_file (h : f.Closed) {b : β} (hp : f p = some (.file b)) (b' : β) :
    (f.set p (.file b')).Closed := by
  refine ⟨?_, fun q d hq => ?_⟩
  · rw [set_ne (fun e1 => by rw [← e1, h.root] at hp; cases hp)]
    exact h.root
  · have hold : f (q ++ [d]) ≠ none := by
      by_cases hqd : q ++ [d] = p
      · rw [hqd, hp]
        simp
      · rwa [set_ne hqd] at hq
    have h1 := h.up q d hold
    rw [set_ne (fun e1 => by rw [e1, hp] at h1; cases h1)]
    exact h1

theorem Closed.remove (h : f.Closed) (hp : p ≠ []) : (f.remove p).Closed := by
  refine ⟨?_, fun q d hq => ?_⟩
  · rw [remove_away (by simpa using hp)]
    exact h.root
  · have hout : ¬ p <+: q ++ [d] := fun h1 => hq (remove_below h1)
    rw [remove_away hout] at hq
    rw [remove_away (fun h1 => hout (h1.trans (List.prefix_append q [d])))]
    exact h.up q d hq

theorem Closed.rename (h : f.Closed) (hp : p ≠ []) (hq : f q = some .dir) (hout : ¬ p <+: q) : (f.rename p (q ++ [c])).Closed := by
  have hroot : f.rename p (q ++ [c]) [] = f [] := rename_away (by simp) (by simpa using hp)
  have hdir : f.rename p (q ++ [c]) q = f q := rename_away (not_prefix_of_concat q c) hout
  refine ⟨hroot.trans h.root, fun r d hr => ?_⟩
  by_cases hnew : q ++ [c] <+: r ++ [d]
  · rcases prefix_concat hnew with e | h1
    · obtain ⟨rfl, -⟩ := List.append_inj' e rfl
      exact hdir.trans hq
    · obtain ⟨x, rfl⟩ := h1
      rw [List.append_assoc, rename_below, ← List.append_assoc] at hr
      rw [rename_below]
      exact h.up _ _ hr
  · by_cases hold : p <+: r ++ [d]
    · exact absurd (rename_old hnew hold) hr
    · rw [rename_away hnew hold] at hr
      have h1 := h.up r d hr
      rw [rename_away (fun h2 => hnew (h2.trans (List.prefix_append r [d])))
        (fun h2 => hold (h2.trans (List.prefix_append r [d])))]
      exact h1

/-- allowed operations keep trees closed -/
theorem Closed.apply (h : f.Closed) {o : Op ν β} (ho : f.Allowed o) : (f.apply o).Closed := by
  cases o with
  | create p c e => exact h.set_new ho.1 ho.2 e
  | write p b =>
    obtain ⟨b0, hb⟩ := ho
    exact h.set_file hb b
  | remove p => exact h.remove ho.1
  | rename p q c =>
    obtain ⟨hp, -, hq, -, hout⟩ := ho
    exact h.rename hp hq hout

/-! ## what undoes what -/

/-- what was renamed is renamed back -/
theorem rename_back (h : f.Closed) (hp' : f p' = none) : (f.rename p p').rename p' p = f := by
  funext q
  by_cases hq : p <+: q
  · obtain ⟨r, rfl⟩ := hq
    rw [rename_below, rename_below]
  · by_cases hq' : p' <+: q
    · rw [rename_old hq hq']
      exact (h.none_below hp' hq').symm
    · rw [rename_away hq hq', rename_away hq' hq]

/-- the way back is allowed, too -/
theorem rename_allowed_back (h : f.Closed) {d q : List ν} {c c' : ν}
    (ho : f.Allowed (.rename (d ++ [c]) q c')) :
    (f.apply (.rename (d ++ [c]) q c')).Allowed (.rename (q ++ [c']) d c) := by
  obtain ⟨-, hp, hq, hc, hout⟩ := ho
  -- the new place is not above the old one
  have hnot : ¬ q ++ [c'] <+: d ++ [c] := fun h1 => hp (h.none_below hc h1)
  have hnot' : ¬ q ++ [c'] <+: d := fun h1 => hnot (h1.trans (List.prefix_append d [c]))
  have hself := rename_below f (d ++ [c]) (q ++ [c']) []
  rw [List.append_nil, List.append_nil] at hself
  refine ⟨by simp, ?_, ?_, ?_, hnot'⟩
  · show f.rename (d ++ [c]) (q ++ [c']) (q ++ [c']) ≠ none
    rw [hself]
    exact hp
  · show f.rename (d ++ [c]) (q ++ [c']) d = _
    rw [rename_away hnot' (not_prefix_of_concat d c)]
    exact h.up d c hp
  · exact rename_old hnot (List.prefix_refl _)

end

/-! ## walks -/

section
variable (f : Tree ν β)

omit [DecidableEq ν]

/-- one component further; above the root is the root -/
def walkStep (p : List ν) : Comp ν → Option (List ν)
  | .here => some p
  | .up => some p.dropLast
  | .name c => (f (p ++ [c])).map fun _ => p ++ [c]

def walk : List ν → List (Comp ν) → Option (List ν)
  | p, [] => some p
  | p, c :: cs => (f.walkStep p c).bind fun q => walk q cs

variable {f}

theorem walkStep_name {p : List ν} {c : ν} (hc : f (p ++ [c]) ≠ none) :
    f.walkStep p (.name c) = some (p ++ [c]) := by
  obtain ⟨e, he⟩ := Option.ne_none_iff_exists'.mp hc
  show (f (p ++ [c])).map _ = _
  rw [he]
  rfl

theorem walkStep_missing {p : List ν} {c : ν} (hc : f (p ++ [c]) = none) : f.walkStep p (.name c) = none := by
  show (f (p ++ [c])).map _ = _
  rw [hc]
  rfl

end

end Tree

end PathMap
