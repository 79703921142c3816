import Mathlib

/-!
# Runs of a machine with faults

A machine takes one step per label; a step may fault, and a label may be forbidden in a state
(`legal`).  `Run M s is t`: the labels `is`, each legal where it is taken, lead from `s` to `t`
without a fault.

* `Run.inv`        an invariant of the first state that every legal step keeps holds at the end;
* `Safe`           the invariant also excludes faults;
* `Safe.extend`    under such an invariant a run can be extended by every legal label;
* `exec_simulates`   a machine that follows a pure function, step by step;
* `Run.of_checked`   a run found by executing it, each label tested before it is taken;
* `fair_drains`    on a fair infinite run, a rank that falls with the label that is needed gets to 0.
-/

structure Machine (σ ι ε : Type*) where
  step : σ → ι → Except ε σ
  legal : σ → ι → Prop

namespace Machine
variable {σ ι ε : Type*} (M : Machine σ ι ε)

inductive Run (s : σ) : List ι → σ → Prop
  | nil : Run s [] s
  | snoc {is : List ι} {t u : σ} {i : ι} (r : Run s is t) (hl : M.legal t i)
      (hs : M.step t i = .ok u) : Run s (is ++ [i]) u

/-- `I` is kept by legal steps, and excludes faults -/
def Safe (I : σ → Prop) : Prop :=
  ∀ s i, I s → M.legal s i → ∃ t, M.step s i = .ok t ∧ I t

variable {M}

theorem Run.append {s t u : σ} {is js : List ι} (r : M.Run s is t) (r' : M.Run t js u) :
    M.Run s (is ++ js) u := by
  induction r' with
  | nil => simpa using r
  | snoc _ hl hs ih =>
    rw [← List.append_assoc]
    exact ih.snoc hl hs

/-- the machine as a program: all labels in turn -/
def exec (M : Machine σ ι ε) : σ → List ι → Except ε σ
  | s, [] => .ok s
  | s, i :: is =>
    match M.step s i with
    | .error e => .error e
    | .ok t => M.exec t is

theorem Run.of_exec {s t : σ} {is : List ι} (hl : ∀ u, ∀ i ∈ is, M.legal u i)
    (h : M.exec s is = .ok t) : M.Run s is t := by
  induction is generalizing s with
  | nil =>
    cases h
    exact .nil
  | cons i is ih =>
    unfold exec at h
    cases hs : M.step s i with
    | error e =>
      rw [hs] at h
      cases h
    | ok u =>
      rw [hs] at h
      have h1 : M.Run s [i] u := .snoc (.nil (M := M)) (hl s i List.mem_cons_self) hs
      exact h1.append (ih (fun v j hj => hl v j (List.mem_cons_of_mem _ hj)) h)

theorem exec_congr {M' : Machine σ ι ε} {is : List ι} (h : ∀ u, ∀ i ∈ is, M.step u i = M'.step u i)
    (s : σ) : M.exec s is = M'.exec s is := by
  induction is generalizing s with
  | nil => rfl
  | cons i is ih =>
    unfold exec
    rw [h s i List.mem_cons_self]
    cases M'.step s i with
    | error e => rfl
    | ok t => exact ih (fun u j hj => h u j (List.mem_cons_of_mem _ hj)) t

theorem Run.inv {I : σ → Prop} {s t : σ} {is : List ι} (r : M.Run s is t) (h0 : I s)
    (hstep : ∀ s i t, I s → M.legal s i → M.step s i = .ok t → I t) : I t := by
  induction r with
  | nil => exact h0
  | snoc _ hl hs ih => exact hstep _ _ _ ih hl hs

/-- all labels in turn, as long as each passes its test and does not fault -/
def checked (M : Machine σ ι ε) (ok : σ → ι → Bool) : σ → List ι → Option σ
  | s, [] => some s
  | s, i :: is =>
    if ok s i then
      match M.step s i with
      | .error _ => none
      | .ok t => M.checked ok t is
    else none

/-- A test that is right in the states of an invariant finds runs. -/
theorem Run.of_checked {I : σ → Prop} {ok : σ → ι → Bool}
    (hok : ∀ s i, I s → ok s i = true → M.legal s i)
    (hstep : ∀ s i t, I s → M.legal s i → M.step s i = .ok t → I t) {s t : σ} {is : List ι}
    (h0 : I s) (h : M.checked ok s is = some t) : M.Run s is t := by
  induction is generalizing s with
  | nil =>
    cases h
    exact .nil
  | cons i is ih =>
    unfold checked at h
    split at h
    · rename_i hi
      have hl := hok s i h0 hi
      split at h
      · cases h
      · rename_i u hs
        have h1 : M.Run s [i] u := .snoc (.nil (M := M)) hl hs
        exact h1.append (ih (hstep s i u h0 hl hs) h)
    · cases h

theorem Safe.step_inv {I : σ → Prop} (h : M.Safe I) {s t : σ} {i : ι} (hI : I s)
    (hl : M.legal s i) (hs : M.step s i = .ok t) : I t := by
  obtain ⟨t', ht', hI'⟩ := h s i hI hl
  rw [hs] at ht'
  cases ht'
  exact hI'

theorem Safe.run_inv {I : σ → Prop} (h : M.Safe I) {s t : σ} {is : List ι} (r : M.Run s is t)
    (h0 : I s) : I t :=
  r.inv h0 fun _ _ _ hI hl hs => h.step_inv hI hl hs

theorem Safe.extend {I : σ → Prop} (h : M.Safe I) {s t : σ} {is : List ι} {i : ι}
    (r : M.Run s is t) (h0 : I s) (hl : M.legal t i) : ∃ u, M.Run s (is ++ [i]) u := by
  obtain ⟨u, hu, _⟩ := h t i (h.run_inv r h0) hl
  exact ⟨u, r.snoc hl hu⟩

/-- forward simulation of a pure step function `f`: the machine does not fault, and the relation
holds at the end -/
theorem exec_simulates {τ : Type*} {f : τ → ι → τ} {R : σ → τ → Prop}
    (hstep : ∀ s e i, M.legal s i → R s e → ∃ t, M.step s i = .ok t ∧ R t (f e i)) {s : σ} {e : τ}
    (h : R s e) {is : List ι} (hl : ∀ u, ∀ i ∈ is, M.legal u i) :
    ∃ t, M.exec s is = .ok t ∧ R t (is.foldl f e) := by
  induction is generalizing s e with
  | nil => exact ⟨s, rfl, h⟩
  | cons i is ih =>
    obtain ⟨t, h1, h2⟩ := hstep s e i (hl s i List.mem_cons_self) h
    obtain ⟨u, h3, h4⟩ := ih h2 fun v j hj => hl v j (List.mem_cons_of_mem _ hj)
    refine ⟨u, ?_, h4⟩
    unfold exec
    rw [h1]
    exact h3

end Machine

/-! ## fair runs -/

section
variable {σ κ : Type*} {f : ℕ → σ} {e : ℕ → κ} {rank : σ → ℕ} {need : σ → κ}

/-- A step lowers the rank, or keeps it and what is needed, and was not what is needed. -/
def Lowers (rank : σ → ℕ) (need : σ → κ) (s : σ) (k : κ) (t : σ) : Prop :=
  rank t < rank s ∨ rank t = rank s ∧ need t = need s ∧ (rank s ≠ 0 → k ≠ need s)

/-- Sooner or later the label that is needed comes. -/
theorem fair_lowers (hstep : ∀ n, Lowers rank need (f n) (e n) (f (n + 1)))
    (hfair : ∀ s n, ∃ m, n ≤ m ∧ e m = need s) {n : ℕ} (hn : rank (f n) ≠ 0) :
    ∃ m, rank (f m) < rank (f n) := by
  by_contra hno
  have hge : ∀ m, rank (f n) ≤ rank (f m) := fun m => Nat.le_of_not_lt fun h => hno ⟨m, h⟩
  have hkeep : ∀ d, rank (f (n + d)) = rank (f n) ∧ need (f (n + d)) = need (f n) := by
    intro d
    induction d with
    | zero => exact ⟨rfl, rfl⟩
    | succ d ih =>
      have hlow := hge (n + (d + 1))
      rcases hstep (n + d) with h | ⟨h1, h2, -⟩
      · rw [Nat.add_assoc] at h
        omega
      · exact ⟨h1.trans ih.1, h2.trans ih.2⟩
  obtain ⟨m, hm, hk⟩ := hfair (f n) n
  obtain ⟨d, rfl⟩ := Nat.exists_eq_add_of_le hm
  obtain ⟨hrank, hneed⟩ := hkeep d
  have hlow := hge (n + d + 1)
  rcases hstep (n + d) with h | ⟨-, -, h⟩
  · omega
  · exact h (hrank.symm ▸ hn) (hk.trans hneed.symm)

theorem fair_drains (hstep : ∀ n, Lowers rank need (f n) (e n) (f (n + 1)))
    (hfair : ∀ s n, ∃ m, n ≤ m ∧ e m = need s) : ∃ N, ∀ n, N ≤ n → rank (f n) = 0 := by
  have hzero : ∀ r n, rank (f n) = r → ∃ N, rank (f N) = 0 := by
    intro r
    induction r using Nat.strong_induction_on with
    | _ r ih =>
      intro n hn
      by_cases h0 : rank (f n) = 0
      · exact ⟨n, h0⟩
      · obtain ⟨m, hm⟩ := fair_lowers hstep hfair h0
        exact ih _ (hn ▸ hm) m rfl
  have hanti : Antitone fun n => rank (f n) :=
    antitone_nat_of_succ_le fun n => (hstep n).elim le_of_lt fun h => h.1.le
  obtain ⟨N, hN⟩ := hzero _ 0 rfl
  exact ⟨N, fun n hn => Nat.le_zero.mp (hN ▸ hanti hn)⟩

end
