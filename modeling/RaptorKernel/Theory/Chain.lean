import Mathlib

/-!
# NULL-terminated chains

Objects are named by addresses, one address `nul` names no object, and `f` follows one link.
`Chain f nul a l`: following `f` from `a` visits exactly the objects `l` and then stops at `nul`.

A chain is determined by its start (`Chain.unique`), hence has no repetition (`Chain.nodup`), and
depends on the links of its own objects only (`Chain.congr`).  Every object but the first has
exactly one predecessor in it (`Chain.next_inj`, `Chain.next_ne_head`), so that one object is taken
out by turning one link (`Chain.erase`).
-/

section
variable {α : Type*} (f : α → α) (nul : α)

def Chain : α → List α → Prop
  | a, [] => a = nul
  | a, x :: l => a = x ∧ x ≠ nul ∧ Chain (f x) l

end

namespace Chain
variable {α : Type*} {f g : α → α} {nul : α}

theorem unique {a : α} {l l' : List α} (h : Chain f nul a l) (h' : Chain f nul a l') : l = l' := by
  induction l generalizing a l' with
  | nil =>
    cases l' with
    | nil => rfl
    | cons x l' => exact absurd (h'.1.symm.trans h) h'.2.1
  | cons x l ih =>
    cases l' with
    | nil => exact absurd (h.1.symm.trans h') h.2.1
    | cons y l' =>
      obtain ⟨rfl, _, h2⟩ := h
      obtain ⟨rfl, _, h2'⟩ := h'
      rw [ih h2 h2']

theorem ne_nul {a : α} {l : List α} (h : Chain f nul a l) : ∀ x ∈ l, x ≠ nul := by
  induction l generalizing a with
  | nil => intro x hx; exact absurd hx (by simp)
  | cons y l ih =>
    intro x hx
    rcases List.mem_cons.mp hx with rfl | hx'
    · exact h.2.1
    · exact ih h.2.2 x hx'

/-- a chain may be entered at any of its objects -/
theorem drop {a x : α} {l r : List α} (h : Chain f nul a (l ++ x :: r)) : Chain f nul x (x :: r) := by
  induction l generalizing a with
  | nil => exact ⟨rfl, h.2.1, h.2.2⟩
  | cons y l ih => exact ih h.2.2

theorem nodup {a : α} {l : List α} (h : Chain f nul a l) : l.Nodup := by
  induction l generalizing a with
  | nil => exact List.nodup_nil
  | cons x l ih =>
    refine List.nodup_cons.mpr ⟨fun hx => ?_, ih h.2.2⟩
    obtain ⟨u, v, rfl⟩ := List.append_of_mem hx
    have h1 : Chain f nul x (x :: v) := h.2.2.drop
    have h2 := h.2.2.unique h1.2.2
    have h3 := congrArg List.length h2
    simp only [List.length_append, List.length_cons] at h3
    omega

theorem congr {a : α} {l : List α} (h : Chain f nul a l) (hg : ∀ x ∈ l, g x = f x) :
    Chain g nul a l := by
  induction l generalizing a with
  | nil => exact h
  | cons x l ih =>
    refine ⟨h.1, h.2.1, ?_⟩
    rw [hg x List.mem_cons_self]
    exact ih h.2.2 fun y hy => hg y (List.mem_cons_of_mem _ hy)

theorem head {a : α} {l : List α} (h : Chain f nul a l) (ha : a ≠ nul) :
    ∃ r, l = a :: r ∧ Chain f nul (f a) r := by
  cases l with
  | nil => exact absurd h ha
  | cons x r =>
    obtain ⟨rfl, _, h2⟩ := h
    exact ⟨r, rfl, h2⟩

/-- a link leads to the next object of the chain, or ends it -/
theorem next_mem {a x : α} {l : List α} (h : Chain f nul a l) (hx : x ∈ l) (h0 : f x ≠ nul) :
    f x ∈ l := by
  obtain ⟨u, v, rfl⟩ := List.append_of_mem hx
  obtain ⟨r, hr, _⟩ := (h.drop.2.2).head h0
  rw [hr]
  simp

/-- two objects of a chain do not link to the same place -/
theorem next_inj {a x y : α} {l : List α} (h : Chain f nul a l) (hx : x ∈ l) (hy : y ∈ l)
    (hxy : f x = f y) : x = y := by
  obtain ⟨u, v, rfl⟩ := List.append_of_mem hx
  obtain ⟨u', v', e⟩ := List.append_of_mem hy
  have h1 : Chain f nul (f x) v := h.drop.2.2
  have h2 : Chain f nul (f y) v' := (e ▸ h).drop.2.2
  have h3 : v = v' := h1.unique (hxy ▸ h2)
  have h4 := congrArg List.length e
  simp only [List.length_append, List.length_cons, h3] at h4
  have h5 := (List.append_inj e (by omega)).2
  exact (List.cons.inj h5).1

/-- no object of a chain links back to its start -/
theorem next_ne_head {a x : α} {l : List α} (h : Chain f nul a l) (hx : x ∈ l) : f x ≠ a := by
  intro e
  obtain ⟨u, v, rfl⟩ := List.append_of_mem hx
  have h1 : Chain f nul (f x) v := h.drop.2.2
  rw [e] at h1
  have h2 := congrArg List.length (h.unique h1)
  simp only [List.length_append, List.length_cons] at h2
  omega

/-- following the links reaches an object of the chain with no link -/
theorem iterate_last {a : α} {l : List α} (h : Chain f nul a l) (ha : a ≠ nul) :
    ∃ k, f^[k] a ∈ l ∧ f (f^[k] a) = nul := by
  induction l generalizing a with
  | nil => exact absurd h ha
  | cons x l ih =>
    obtain ⟨rfl, _, h2⟩ := h
    by_cases h0 : f a = nul
    · exact ⟨0, List.mem_cons_self, h0⟩
    · obtain ⟨k, h3, h4⟩ := ih h2 h0
      exact ⟨k + 1, List.mem_cons_of_mem _ h3, h4⟩

/-- an object taken out: what linked to it links to what came after it -/
theorem erase [DecidableEq α] {a x : α} {l : List α} (h : Chain f nul a l) (hx : x ≠ nul)
    (hg : ∀ y ∈ l, y ≠ x → g y = if f y = x then f x else f y) :
    Chain g nul (if a = x then f x else a) (l.erase x) := by
  induction l generalizing a with
  | nil =>
    have h1 : a = nul := h
    rw [if_neg fun e => hx (e.symm.trans h1)]
    exact h
  | cons y l ih =>
    have hnd := h.nodup
    obtain ⟨rfl, h0, h2⟩ := id h
    by_cases hax : a = x
    · subst hax
      rw [if_pos rfl, List.erase_cons_head]
      refine h2.congr fun y hy => ?_
      have hya : y ≠ a := fun e => (List.nodup_cons.mp hnd).1 (e ▸ hy)
      rw [hg y (List.mem_cons_of_mem _ hy) hya]
      exact if_neg (h.next_ne_head (List.mem_cons_of_mem _ hy))
    · rw [if_neg hax, List.erase_cons_tail (by simpa using hax)]
      refine ⟨rfl, h0, ?_⟩
      rw [hg a List.mem_cons_self hax]
      exact ih h2 fun y hy => hg y (List.mem_cons_of_mem _ hy)

theorem nil_of_nul {l : List α} (h : Chain f nul nul l) : l = [] := by
  cases l with
  | nil => rfl
  | cons x l => exact absurd h.1.symm h.2.1

end Chain
