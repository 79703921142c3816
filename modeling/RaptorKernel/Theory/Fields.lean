import Mathlib

/-!
# Fields of a text

A text is cut at every separator, and the empty pieces are dropped.  Joining two texts by a
separator joins their fields (`fields_append_sep`), so separators in front, at the end or repeated
do not matter; a reader that skips separators and then takes the bytes up to the next one meets
the fields one by one (`fields_take`).
-/

section
variable {α : Type*} [DecidableEq α]

def fields (sep : α) (p : List α) : List (List α) := (p.splitOn sep).filter (· ≠ [])

variable {sep : α}

theorem fields_nil : fields sep [] = [] := rfl

theorem fields_append_sep (p q : List α) :
    fields sep (p ++ sep :: q) = fields sep p ++ fields sep q := by
  unfold fields
  rw [List.splitOn_append_cons_self, List.filter_append]

theorem fields_cons_sep (p : List α) : fields sep (sep :: p) = fields sep p :=
  fields_append_sep [] p

theorem fields_append_singleton (p : List α) : fields sep (p ++ [sep]) = fields sep p := by
  rw [fields_append_sep, fields_nil, List.append_nil]

theorem fields_replicate_append (n : Nat) (p : List α) :
    fields sep (List.replicate n sep ++ p) = fields sep p := by
  induction n with
  | zero => rfl
  | succ n ih =>
    rw [List.replicate_succ, List.cons_append, fields_cons_sep]
    exact ih

theorem fields_of_notMem {p : List α} (h : sep ∉ p) (h0 : p ≠ []) : fields sep p = [p] := by
  unfold fields
  rw [List.splitOn_eq_singleton h]
  simp [h0]

theorem fields_dropWhile (p : List α) : fields sep (p.dropWhile (· == sep)) = fields sep p := by
  induction p with
  | nil => rfl
  | cons x p ih =>
    by_cases hx : x = sep
    · subst hx
      rw [List.dropWhile_cons_of_pos (by simp), ih, fields_cons_sep]
    · rw [List.dropWhile_cons_of_neg (by simpa using hx)]

theorem fields_mem {p c : List α} (h : c ∈ fields sep p) : c ≠ [] ∧ sep ∉ c ∧ c <:+: p := by
  induction hn : p.length using Nat.strong_induction_on generalizing p with
  | _ n ih =>
    by_cases hs : sep ∈ p
    · obtain ⟨u, v, rfl⟩ := List.append_of_mem hs
      rw [List.length_append, List.length_cons] at hn
      rw [fields_append_sep] at h
      rcases List.mem_append.mp h with h | h
      · obtain ⟨h1, h2, h3⟩ := ih _ (by omega) h rfl
        exact ⟨h1, h2, h3.trans (List.prefix_append u _).isInfix⟩
      · obtain ⟨h1, h2, h3⟩ := ih _ (by omega) h rfl
        refine ⟨h1, h2, h3.trans (List.IsSuffix.isInfix ?_)⟩
        exact ⟨u ++ [sep], by simp⟩
    · rcases eq_or_ne p [] with rfl | h0
      · exact absurd h (by simp [fields_nil])
      · rw [fields_of_notMem hs h0] at h
        rw [List.mem_singleton.mp h]
        exact ⟨h0, hs, List.infix_rfl⟩

theorem notMem_takeWhile (p : List α) : sep ∉ p.takeWhile (· != sep) := by
  intro h
  have := List.mem_takeWhile_imp h
  simp at this

/-- after the separators in front are skipped, the bytes up to the next separator are the first
field -/
theorem fields_take {p : List α} (h0 : p ≠ []) (hd : p.head? ≠ some sep) :
    p.takeWhile (· != sep) ≠ [] ∧
      fields sep p = p.takeWhile (· != sep) :: fields sep (p.drop (p.takeWhile (· != sep)).length) := by
  obtain ⟨x, q, rfl⟩ := List.exists_cons_of_ne_nil h0
  have hx : x ≠ sep := fun e => hd (by rw [e]; rfl)
  have hne : (x :: q).takeWhile (· != sep) ≠ [] := by
    rw [List.takeWhile_cons_of_pos (by simpa using hx)]
    exact List.cons_ne_nil _ _
  refine ⟨hne, ?_⟩
  generalize x :: q = p at *
  have hsplit : p.takeWhile (· != sep) ++ p.dropWhile (· != sep) = p :=
    List.takeWhile_append_dropWhile
  have hdrop : p.drop (p.takeWhile (· != sep)).length = p.dropWhile (· != sep) :=
    calc p.drop (p.takeWhile (· != sep)).length
        = (p.takeWhile (· != sep) ++ p.dropWhile (· != sep)).drop (p.takeWhile (· != sep)).length := by
          rw [hsplit]
      _ = p.dropWhile (· != sep) := List.drop_left
  have hone : fields sep (p.takeWhile (· != sep)) = [p.takeWhile (· != sep)] :=
    fields_of_notMem (notMem_takeWhile p) hne
  rw [hdrop]
  cases hrest : p.dropWhile (· != sep) with
  | nil =>
    rw [hrest, List.append_nil] at hsplit
    rw [hsplit] at hone ⊢
    exact hone
  | cons y r =>
    have hy : y = sep := by
      have h1 := List.head?_dropWhile_not (· != sep) p
      rw [hrest] at h1
      simpa using h1
    subst hy
    rw [hrest] at hsplit
    calc fields y p = fields y (p.takeWhile (· != y) ++ y :: r) := by rw [hsplit]
      _ = p.takeWhile (· != y) :: fields y (y :: r) := by
        rw [fields_append_sep, hone, fields_cons_sep]
        rfl

/-- no fields are left exactly when only separators are -/
theorem fields_eq_nil_iff (p : List α) : fields sep p = [] ↔ p.dropWhile (· == sep) = [] := by
  rw [← fields_dropWhile]
  constructor
  · intro h
    by_contra h0
    have hd : (p.dropWhile (· == sep)).head? ≠ some sep := by
      intro e
      have h1 := List.head?_dropWhile_not (· == sep) p
      rw [e] at h1
      simp at h1
    rw [(fields_take h0 hd).2] at h
    exact List.cons_ne_nil _ _ h
  · intro h
    rw [h]
    rfl

/-! ## from the end -/

theorem fields_rdropWhile (p : List α) : fields sep (p.rdropWhile (· == sep)) = fields sep p := by
  induction p using List.reverseRecOn with
  | nil => rfl
  | append_singleton p x ih =>
    by_cases hx : x = sep
    · subst hx
      rw [List.rdropWhile_concat_pos _ _ _ (by simp), ih, fields_append_singleton]
    · rw [List.rdropWhile_concat_neg _ _ _ (by simpa using hx)]

/-- the last field is what follows the last separator -/
theorem fields_last {p : List α} (h0 : p ≠ []) (hl : p.getLast? ≠ some sep) :
    fields sep p = fields sep (p.rdropWhile (· != sep)) ++ [p.rtakeWhile (· != sep)] := by
  have hsplit : p.rdropWhile (· != sep) ++ p.rtakeWhile (· != sep) = p :=
    List.rdropWhile_append_rtakeWhile
  have hne : p.rtakeWhile (· != sep) ≠ [] := by
    rw [ne_eq, List.rtakeWhile_eq_nil_iff]
    intro h
    have h1 := h h0
    rw [List.getLast?_eq_some_getLast h0] at hl
    exact hl (congrArg some (by simpa using h1))
  have hmem : sep ∉ p.rtakeWhile (· != sep) := by
    intro h
    have h1 := List.mem_rtakeWhile_imp h
    simp at h1
  have hend : ∀ h, (p.rdropWhile (· != sep)).getLast h = sep := by
    intro h
    simpa using List.rdropWhile_last_not (· != sep) p h
  generalize p.rdropWhile (· != sep) = d at *
  generalize p.rtakeWhile (· != sep) = c at *
  subst hsplit
  rcases List.eq_nil_or_concat d with rfl | ⟨d', x, hd⟩
  · rw [List.nil_append, fields_of_notMem hmem hne]
    rfl
  · rw [List.concat_eq_append] at hd
    subst hd
    have hx : x = sep := by
      have h1 := hend (by simp)
      rwa [List.getLast_append_singleton] at h1
    subst hx
    rw [fields_append_singleton, List.append_assoc, List.singleton_append,
      fields_append_sep, fields_of_notMem hmem hne]

end
