import RaptorKernel.Shell.Shell

/-!
# tokenize, in place

`tokenize` cuts the line where it stands: every word ends at a NUL that the loop stores over the
separator or the closing quote behind it, while it has not yet seen the rest of the line.

* `tokenizeAt`             the loop on the buffer;
* `Cut`                    strings one after the other in a range of memory;
* `tokenizeAt_words`       when the loop is done, the words of the line stand in the buffer;
* `joined`                 words, bare or in double quotes, between runs of spaces;
* `tokenize_joined`        the words of such a line;
* `tokenizeAt_joined`      all of it about one line.
-/

namespace Raptor
open Mem

/-! ## the loop -/

/-- a loop `while (go(*p)) p++`, at most once around the address space -/
def advance (m : Mem) (go : UInt8 → Bool) : Nat → Nat → Except Fault Nat
  | 0, _ => .error .diverges
  | fuel+1, p => if go (m p) then advance m go fuel (p + 1) else .ok p

/-- `if (*p) *p++ = '\0'` -/
def endWord (m : Mem) (p : Nat) : Mem × Nat :=
  if m p ≠ 0 then (Function.update m p 0, p + 1) else (m, p)

/-- the loop of `tokenize`, with the words so far in `argv` -/
def tokenizeAtLoop (max : Int) : Nat → Mem → Nat → List Nat → Except Fault (List Nat × Mem)
  | 0, _, _, _ => .error .diverges
  | fuel+1, m, p, argv =>
    if m p = 0 then .ok (argv, m)
    else do
      let p ← advance m (· == space) (2^32) p
      if m p = 0 ∨ max ≤ argv.length then .ok (argv, m)
      else if m p = quote then do
        let q ← advance m (fun c => c != 0 && c != quote) (2^32) (p + 1)
        tokenizeAtLoop max fuel (endWord m q).1 (endWord m q).2 (argv ++ [p + 1])
      else do
        let q ← advance m (fun c => c != 0 && c != space) (2^32) p
        tokenizeAtLoop max fuel (endWord m q).1 (endWord m q).2 (argv ++ [p])

/-- `tokenize` on the buffer at `line`: `argv[0] .. argv[argc - 1]`, and the buffer afterwards -/
def tokenizeAt (m : Mem) (line : Nat) (max : Int) : Except Fault (List Nat × Mem) :=
  tokenizeAtLoop max (2^32) m line []

/-- the texts stand at the addresses, one after the other, from `lo` on and before `hi` -/
def Cut (m : Mem) : Nat → Nat → List Nat → List (List UInt8) → Prop
  | lo, hi, [], [] => lo ≤ hi
  | lo, hi, a :: as, w :: ws => lo ≤ a ∧ HasStr m a w ∧ 0 ∉ w ∧ Cut m (a + w.length + 1) hi as ws
  | _, _, _, _ => False

section
variable {m m' : Mem} {a p lo hi fuel : Nat} {go : UInt8 → Bool} {max : Int} {argv as : List Nat}
  {line t u w : List UInt8} {ws : List (List UInt8)}

/-! ## strings -/

theorem HasStr.drop (h : HasStr m a (t ++ u)) : HasStr m (a + t.length) u := by
  induction t generalizing a with
  | nil => exact h
  | cons c t ih =>
    rw [List.length_cons, ← Nat.add_assoc, Nat.add_right_comm]
    exact ih h.cons.2

theorem HasStr.congr (h : HasStr m a t) (hm : ∀ x, a ≤ x → x ≤ a + t.length → m' x = m x) :
    HasStr m' a t := by
  refine ⟨?_, ?_⟩
  · rw [slice_congr fun x h1 h2 => hm x h1 (Nat.le_of_lt h2)]
    exact h.1
  · rw [hm _ (Nat.le_add_right _ _) (Nat.le_refl _)]
    exact h.2

/-- the first byte of a text that is not empty -/
theorem HasStr.first (h : HasStr m a t) (h0 : 0 ∉ t) : m a = 0 ↔ t = [] := by
  cases t with
  | nil => exact ⟨fun _ => rfl, fun _ => h.2⟩
  | cons c t =>
    refine ⟨fun e => ?_, fun e => absurd e (List.cons_ne_nil _ _)⟩
    rw [h.cons.1] at e
    exact absurd (e ▸ List.mem_cons_self) h0

/-- the loop stops behind the bytes it goes over -/
theorem advance_spec (h : HasStr m a t) (hgo : go 0 = false) (hf : t.length < fuel) :
    advance m go fuel a = .ok (a + (t.takeWhile go).length) := by
  induction t generalizing a fuel with
  | nil =>
    obtain ⟨f, rfl⟩ : ∃ f, fuel = f + 1 := ⟨fuel - 1, by simp only [List.length_nil] at hf; omega⟩
    have h0 : m a = 0 := h.2
    unfold advance
    rw [h0, hgo]
    rfl
  | cons c t ih =>
    obtain ⟨f, rfl⟩ : ∃ f, fuel = f + 1 := ⟨fuel - 1, by simp only [List.length_cons] at hf; omega⟩
    obtain ⟨hc, ht⟩ := h.cons
    unfold advance
    rw [hc]
    by_cases hg : go c = true
    · rw [if_pos hg, ih ht (by simp only [List.length_cons] at hf; omega),
        List.takeWhile_cons_of_pos hg, List.length_cons, Nat.add_assoc, Nat.add_comm 1]
    · rw [if_neg hg, List.takeWhile_cons_of_neg hg]
      rfl

/-- over a text without NUL, `*p && *p != z` is `*p != z` -/
theorem takeWhile_nulFree (h0 : 0 ∉ t) (z : UInt8) :
    t.takeWhile (fun c => c != 0 && c != z) = t.takeWhile (· != z) := by
  induction t with
  | nil => rfl
  | cons c t ih =>
    have hc : c ≠ 0 := by
      rintro rfl
      exact h0 List.mem_cons_self
    have ih := ih fun h => h0 (List.mem_cons_of_mem _ h)
    by_cases hz : c = z
    · rw [List.takeWhile_cons_of_neg (by simp [hz]), List.takeWhile_cons_of_neg (by simp [hz])]
    · rw [List.takeWhile_cons_of_pos (by simp [hc, hz]), List.takeWhile_cons_of_pos (by simp [hz]), ih]

/-! ## every word ends at a NUL -/

theorem tokenizeLoop_nil (fuel max : Nat) : tokenizeLoop fuel [] max = [] := by
  cases fuel with
  | zero => rfl
  | succ fuel =>
    cases max with
    | zero => rfl
    | succ max => rfl

theorem tokenizeLoop_quote (fuel max : Nat) (h : line.dropWhile (· == space) = quote :: t) :
    tokenizeLoop (fuel + 1) line (max + 1) = t.takeWhile (· != quote) ::
      tokenizeLoop fuel (t.drop ((t.takeWhile (· != quote)).length + 1)) max := by
  rw [tokenizeLoop, h]
  exact if_pos rfl

theorem tokenizeLoop_bare (fuel max : Nat) {c : UInt8} (h : line.dropWhile (· == space) = c :: t)
    (hc : c ≠ quote) :
    tokenizeLoop (fuel + 1) line (max + 1) = (c :: t).takeWhile (· != space) ::
      tokenizeLoop fuel ((c :: t).drop (((c :: t).takeWhile (· != space)).length + 1)) max := by
  rw [tokenizeLoop, h]
  exact if_neg hc

/-- The loop from `p` on cuts the rest of the line into its words, and writes nothing else. -/
def Cuts (max : Int) (fuel : Nat) (m : Mem) (p : Nat) (argv : List Nat) (line : List UInt8) : Prop :=
  ∃ ptrs m', tokenizeAtLoop max fuel m p argv = .ok (argv ++ ptrs, m') ∧
    Cut m' p (p + line.length + 1) ptrs (tokenizeLoop fuel line (max - argv.length).toNat) ∧
    ∀ x, x < p ∨ p + line.length ≤ x → m' x = m x

/-- One word, from `a` up to the next `z`: it is ended, and what follows is cut. -/
theorem cuts_word (ih : ∀ m p argv line, HasStr m p line → 0 ∉ line → line.length < fuel →
      p + line.length < 2^32 → Cuts max fuel m p argv line)
    (h : HasStr m a t) (h0 : 0 ∉ t) (hf0 : 0 < fuel) (hf : t.length ≤ fuel) (hfit : a + t.length < 2^32)
    (z : UInt8)
    (hw : w = t.takeWhile (· != z)) (argv : List Nat) :
    ∃ ptrs m', tokenizeAtLoop max fuel (endWord m (a + w.length)).1 (endWord m (a + w.length)).2 argv =
        .ok (argv ++ ptrs, m') ∧
      Cut m' (a + w.length + 1) (a + t.length + 1) ptrs
        (tokenizeLoop fuel (t.drop (w.length + 1)) (max - argv.length).toNat) ∧
      HasStr m' a w ∧ ∀ x, x < a + w.length ∨ a + t.length ≤ x → m' x = m x := by
  obtain ⟨u, rfl⟩ : ∃ u, t = w ++ u := ⟨t.dropWhile (· != z), by rw [hw, List.takeWhile_append_dropWhile]⟩
  have hu := h.drop
  have hwstr : slice m a w.length = w := by
    have h1 := h.1
    rw [List.length_append, slice_append] at h1
    exact List.append_inj_left h1 (slice_length _ _ _)
  rw [List.length_append] at hf hfit ⊢
  have hdrop : (w ++ u).drop (w.length + 1) = u.drop 1 := by
    rw [List.drop_append, List.drop_of_length_le (by omega), List.nil_append]
    congr 1
    omega
  rw [hdrop]
  cases u with
  | nil =>
    -- the word ends with the line
    have hend : m (a + w.length) = 0 := hu.2
    have e : endWord m (a + w.length) = (m, a + w.length) := if_neg (not_not.mpr hend)
    rw [e, List.drop_nil, tokenizeLoop_nil]
    obtain ⟨f, rfl⟩ : ∃ f, fuel = f + 1 := ⟨fuel - 1, by omega⟩
    refine ⟨[], m, ?_, Nat.le_refl _, ⟨hwstr, hend⟩, fun x _ => rfl⟩
    show (if m (a + w.length) = 0 then _ else _) = _
    rw [if_pos hend, List.append_nil]
  | cons c v =>
    obtain ⟨hc, hv⟩ := hu.cons
    have hc0 : m (a + w.length) ≠ 0 := by
      rw [hc]
      rintro rfl
      exact h0 (List.mem_append_right _ List.mem_cons_self)
    have e : endWord m (a + w.length) =
        (Function.update m (a + w.length) 0, a + w.length + 1) := if_pos hc0
    rw [List.length_cons] at hf hfit ⊢
    have hv' : HasStr (Function.update m (a + w.length) 0) (a + w.length + 1) v :=
      hv.congr fun x h1 _ => Function.update_of_ne (by omega) _ _
    obtain ⟨ptrs, m', h1, h2, h3⟩ := ih _ _ argv v hv'
      (fun h => h0 (List.mem_append_right _ (List.mem_cons_of_mem _ h))) (by omega) (by omega)
    have hhi : a + w.length + 1 + v.length + 1 = a + (w.length + (v.length + 1)) + 1 := by omega
    rw [hhi] at h2
    rw [e]
    refine ⟨ptrs, m', h1, h2, ⟨?_, ?_⟩, fun x hx => ?_⟩
    · rw [← hwstr, slice_length]
      refine slice_congr fun x _ h5 => ?_
      rw [h3 x (.inl (by omega)), Function.update_of_ne (by omega)]
    · rw [h3 _ (.inl (by omega)), Function.update_self]
    · rw [h3 x (by omega), Function.update_of_ne (by omega)]

theorem tokenizeLoop_done (fuel : Nat) {n : Nat} (h : n = 0 ∨ line.dropWhile (· == space) = []) :
    tokenizeLoop (fuel + 1) line n = [] := by
  cases n with
  | zero => rfl
  | succ n =>
    have hnil : line.dropWhile (· == space) = [] := h.resolve_left (Nat.succ_ne_zero n)
    unfold tokenizeLoop
    rw [hnil]

/-- one round, with `k` blanks in front -/
theorem tokenizeAtLoop_round {m : Mem} {p k : Nat} (hp0 : m p ≠ 0)
    (hskip : advance m (· == space) (2^32) p = .ok (p + k)) (fuel : Nat) (argv : List Nat) :
    tokenizeAtLoop max (fuel + 1) m p argv =
      if m (p + k) = 0 ∨ max ≤ argv.length then .ok (argv, m)
      else if m (p + k) = quote then
        advance m (fun c => c != 0 && c != quote) (2^32) (p + k + 1) >>= fun q =>
          tokenizeAtLoop max fuel (endWord m q).1 (endWord m q).2 (argv ++ [p + k + 1])
      else advance m (fun c => c != 0 && c != space) (2^32) (p + k) >>= fun q =>
          tokenizeAtLoop max fuel (endWord m q).1 (endWord m q).2 (argv ++ [p + k]) := by
  show (if m p = 0 then _ else advance m (· == space) (2^32) p >>= _) = _
  rw [if_neg hp0, hskip]
  rfl

/-- The round that finds the word at `a`, up to the next `z`, with `u` the rest of the line there. -/
theorem cuts_of_word (ih : ∀ m p argv line, HasStr m p line → 0 ∉ line → line.length < fuel →
      p + line.length < 2^32 → Cuts max fuel m p argv line)
    {m : Mem} {p : Nat} {argv : List Nat} (hl : 0 < line.length) (hf : line.length < fuel + 1)
    (hfit : p + line.length < 2^32) (hmax : argv.length < max) {a : Nat} {u : List UInt8} {z : UInt8}
    (hpa : p ≤ a) (hau : a + u.length = p + line.length) (hu : HasStr m a u) (hu0 : 0 ∉ u)
    (hat : tokenizeAtLoop max (fuel + 1) m p argv =
      (advance m (fun c => c != 0 && c != z) (2^32) a >>= fun q =>
        tokenizeAtLoop max fuel (endWord m q).1 (endWord m q).2 (argv ++ [a])))
    (hlist : ∀ n, tokenizeLoop (fuel + 1) line (n + 1) = u.takeWhile (· != z) ::
      tokenizeLoop fuel (u.drop ((u.takeWhile (· != z)).length + 1)) n) :
    Cuts max (fuel + 1) m p argv line := by
  have hadv : advance m (fun c => c != 0 && c != z) (2^32) a =
      .ok (a + (u.takeWhile fun c => c != 0 && c != z).length) :=
    advance_spec hu (by simp) (by omega)
  rw [takeWhile_nulFree hu0] at hadv
  rw [hadv, ok_bind] at hat
  obtain ⟨ptrs, m', h1, h2, h3, h4⟩ := cuts_word ih hu hu0 (by omega) (by omega) (by omega) z rfl
    (argv ++ [a])
  -- one place of `argv` is taken
  obtain ⟨n, hn, hn'⟩ : ∃ n, (max - argv.length).toNat = n + 1 ∧
      (max - ((argv ++ [a]).length : Nat)).toNat = n := by
    refine ⟨(max - argv.length).toNat - 1, by omega, ?_⟩
    rw [List.length_append, List.length_singleton]
    omega
  rw [hn'] at h2
  refine ⟨a :: ptrs, m', ?_, ?_, fun x hx => h4 x (by omega)⟩
  · rw [hat, h1, List.append_assoc, List.singleton_append]
  · rw [hn, hlist]
    refine ⟨hpa, h3, fun e => hu0 ((List.takeWhile_subset _) e), ?_⟩
    rw [← hau]
    exact h2

/-- The induction is on the fuel, which outlasts the line. -/
theorem cuts (fuel : Nat) (m : Mem) (p : Nat) (argv : List Nat) (line : List UInt8)
    (h : HasStr m p line) (h0 : 0 ∉ line) (hf : line.length < fuel) (hfit : p + line.length < 2^32) :
    Cuts max fuel m p argv line := by
  induction fuel generalizing m p argv line with
  | zero => omega
  | succ fuel ih =>
    by_cases hl : line = []
    · subst hl
      refine ⟨[], m, ?_, ?_, fun x _ => rfl⟩
      · rw [List.append_nil]
        exact if_pos h.2
      · rw [tokenizeLoop_done fuel (.inr rfl)]
        exact Nat.le_succ _
    have hlpos : 0 < line.length := List.length_pos_iff.mpr hl
    have hp0 : m p ≠ 0 := fun e => hl ((h.first h0).mp e)
    have hskip : advance m (· == space) (2^32) p = .ok (p + (line.takeWhile (· == space)).length) :=
      advance_spec h rfl (by omega)
    -- the line from its first word on
    have hsplit : line.takeWhile (· == space) ++ line.dropWhile (· == space) = line :=
      List.takeWhile_append_dropWhile
    have ht : HasStr m (p + (line.takeWhile (· == space)).length) (line.dropWhile (· == space)) := by
      apply HasStr.drop
      rw [hsplit]
      exact h
    have ht0 : 0 ∉ line.dropWhile (· == space) :=
      fun e => h0 (List.dropWhile_subset _ e)
    have hlen : (line.takeWhile (· == space)).length + (line.dropWhile (· == space)).length =
        line.length := by
      rw [← List.length_append, hsplit]
    generalize (line.takeWhile (· == space)).length = k at hskip ht hlen
    have hloop := @tokenizeAtLoop_round max m p k hp0 hskip fuel argv
    by_cases hstop : m (p + k) = 0 ∨ max ≤ argv.length
    · rw [if_pos hstop] at hloop
      refine ⟨[], m, by rw [List.append_nil]; exact hloop, ?_, fun x _ => rfl⟩
      rw [tokenizeLoop_done fuel (hstop.symm.imp (fun e => by omega) (ht.first ht0).mp)]
      exact Nat.le_succ_of_le (Nat.le_add_right _ _)
    rw [if_neg hstop] at hloop
    obtain ⟨hnul, hmax⟩ := not_or.mp hstop
    obtain ⟨c, u, hcu⟩ := List.exists_cons_of_ne_nil fun e => hnul ((ht.first ht0).mpr e)
    rw [hcu] at ht ht0 hlen
    rw [List.length_cons] at hlen
    obtain ⟨hc, hu⟩ := ht.cons
    rw [hc] at hloop
    by_cases hq : c = quote
    · rw [if_pos hq] at hloop
      rw [hq] at hcu
      exact cuts_of_word ih hlpos hf hfit (Int.not_le.mp hmax) (by omega) (by omega) hu
        (fun e => ht0 (List.mem_cons_of_mem _ e)) hloop fun n => tokenizeLoop_quote fuel n hcu
    · rw [if_neg hq] at hloop
      refine cuts_of_word ih hlpos hf hfit (Int.not_le.mp hmax) (by omega) ?_ ht ht0 hloop
        fun n => tokenizeLoop_bare fuel n hcu hq
      rw [List.length_cons]
      omega

/-- fuel beyond the length of the line makes no difference -/
theorem tokenizeLoop_fuel {f g : Nat} (max : Nat) (hf : line.length < f) (hg : line.length < g) :
    tokenizeLoop f line max = tokenizeLoop g line max := by
  induction f generalizing line g max with
  | zero => omega
  | succ f ih =>
    obtain ⟨g, rfl⟩ : ∃ k, g = k + 1 := ⟨g - 1, by omega⟩
    cases max with
    | zero => rfl
    | succ max =>
      unfold tokenizeLoop
      have hle : (line.dropWhile (· == space)).length ≤ line.length :=
        (List.dropWhile_sublist _).length_le
      generalize line.dropWhile (· == space) = u at hle ⊢
      cases u with
      | nil => rfl
      | cons c u =>
        rw [List.length_cons] at hle
        dsimp only
        have e : ∀ v : List UInt8, v.length < line.length →
            tokenizeLoop f v max = tokenizeLoop g v max :=
          fun v hv => ih max (by omega) (by omega)
        split
        · rw [e _ (by rw [List.length_drop]; omega)]
        · rw [e _ (by rw [List.length_drop, List.length_cons]; omega)]

/-- When the loop is done, the words of the line stand in the buffer. -/
theorem tokenizeAt_words (h : HasStr m p line) (h0 : 0 ∉ line) (hfit : p + line.length < 2^32)
    (max : Int) :
    ∃ argv m', tokenizeAt m p max = .ok (argv, m') ∧
      Cut m' p (p + line.length + 1) argv (tokenize line max.toNat) ∧
      ∀ x, x < p ∨ p + line.length ≤ x → m' x = m x := by
  have hcuts : Cuts max (2^32) m p [] line := cuts (2^32) m p [] line h h0 (by omega) hfit
  obtain ⟨ptrs, m', h1, h2, h3⟩ := hcuts
  have hmax : (max - (([] : List Nat).length : Nat)).toNat = max.toNat := by
    rw [List.length_nil]
    omega
  rw [hmax, tokenizeLoop_fuel max.toNat (show line.length < 2^32 by omega) (Nat.lt_succ_self _)] at h2
  exact ⟨ptrs, m', h1, h2, h3⟩

/-! ## what `Cut` says of each string -/

theorem Cut.strings (h : Cut m lo hi as ws) : List.Forall₂ (HasStr m) as ws := by
  induction as generalizing lo ws with
  | nil =>
    cases ws with
    | nil => exact .nil
    | cons w ws => exact h.elim
  | cons a as ih =>
    cases ws with
    | nil => exact h.elim
    | cons w ws => exact .cons h.2.1 (ih h.2.2.2)

theorem Cut.bounds (h : Cut m lo hi as ws) :
    lo ≤ hi ∧ ∀ x ∈ as.zip ws, lo ≤ x.1 ∧ x.1 + x.2.length < hi := by
  induction as generalizing lo ws with
  | nil =>
    cases ws with
    | nil => exact ⟨h, fun x hx => absurd hx (by simp)⟩
    | cons w ws => exact h.elim
  | cons a as ih =>
    cases ws with
    | nil => exact h.elim
    | cons w ws =>
      obtain ⟨h1, _, _, h2⟩ := h
      obtain ⟨h3, h4⟩ := ih h2
      refine ⟨by omega, fun x hx => ?_⟩
      rcases List.mem_cons.mp hx with rfl | hx
      · refine ⟨h1, ?_⟩
        show a + w.length < hi
        omega
      · have h5 := h4 x hx
        omega

theorem Cut.increasing (h : Cut m lo hi as ws) :
    (as.zip ws).Pairwise fun x y => x.1 + x.2.length < y.1 := by
  induction as generalizing lo ws with
  | nil => exact .nil
  | cons a as ih =>
    cases ws with
    | nil => exact h.elim
    | cons w ws =>
      obtain ⟨_, _, _, h2⟩ := h
      exact .cons (fun y hy => (h2.bounds.2 y hy).1) (ih h2)

end

/-! ## words in a line -/

/-- a word as it is typed: bare, or in double quotes -/
structure Piece where
  word : List UInt8
  quoted : Bool
  nulFree : 0 ∉ word
  ok : if quoted then quote ∉ word else word ≠ [] ∧ space ∉ word ∧ word.head? ≠ some quote

def Piece.text (x : Piece) : List UInt8 :=
  if x.quoted then quote :: x.word ++ [quote] else x.word

/-- every piece behind the given number of spaces, and `t` spaces at the end -/
def joined : List (Nat × Piece) → Nat → List UInt8
  | [], t => List.replicate t space
  | (k, x) :: items, t => List.replicate k space ++ (x.text ++ joined items t)

section
variable {items : List (Nat × Piece)} {t : Nat} {rest : List UInt8}

theorem dropWhile_spaces (k : Nat) {y : List UInt8} (hy : y.head? ≠ some space) :
    (List.replicate k space ++ y).dropWhile (· == space) = y := by
  induction k with
  | zero =>
    cases y with
    | nil => rfl
    | cons c y =>
      rw [List.replicate_zero, List.nil_append, List.dropWhile_cons_of_neg]
      simpa using hy
  | succ k ih =>
    rw [List.replicate_succ, List.cons_append, List.dropWhile_cons_of_pos (by simp)]
    exact ih

theorem takeWhile_word {w : List UInt8} {z : UInt8} (hw : z ∉ w)
    (hrest : rest = [] ∨ rest.head? = some z) : (w ++ rest).takeWhile (· != z) = w := by
  have hall : ∀ c ∈ w, (c != z) = true := by
    intro c hc
    rw [bne_iff_ne]
    rintro rfl
    exact hw hc
  rw [List.takeWhile_append_of_pos hall]
  rcases hrest with rfl | hr
  · rw [List.takeWhile_nil, List.append_nil]
  · obtain ⟨u, rfl⟩ := List.head?_eq_some_iff.mp hr
    rw [List.takeWhile_cons_of_neg (by simp), List.append_nil]

theorem Piece.text_quoted {x : Piece} (h : x.quoted = true) : x.text = quote :: x.word ++ [quote] :=
  if_pos h

theorem Piece.text_bare {x : Piece} (h : x.quoted = false) : x.text = x.word :=
  if_neg (by rw [h]; exact Bool.false_ne_true)

/-- one piece is one word, and the byte behind it is gone -/
theorem tokenizeLoop_piece (fuel k max : Nat) (x : Piece)
    (hrest : rest = [] ∨ rest.head? = some space) :
    tokenizeLoop (fuel + 1) (List.replicate k space ++ (x.text ++ rest)) (max + 1) =
      x.word :: tokenizeLoop fuel (if x.quoted then rest else rest.drop 1) max := by
  have hok := x.ok
  cases hq : x.quoted with
  | true =>
    rw [hq, if_pos rfl] at hok
    have hline : quote :: x.word ++ [quote] ++ rest = quote :: (x.word ++ ([quote] ++ rest)) := by simp
    have hw : (x.word ++ ([quote] ++ rest)).takeWhile (· != quote) = x.word :=
      takeWhile_word hok (.inr rfl)
    have hdrop : (x.word ++ ([quote] ++ rest)).drop (x.word.length + 1) = rest := by simp
    rw [Piece.text_quoted hq, hline]
    rw [tokenizeLoop_quote fuel max (dropWhile_spaces k (by simp [quote, space])), hw, hdrop, if_pos rfl]
  | false =>
    rw [hq, if_neg Bool.false_ne_true] at hok
    obtain ⟨h1, h2, h3⟩ := hok
    obtain ⟨c, u, hcu⟩ := List.exists_cons_of_ne_nil h1
    have hhead : (x.word ++ rest).head? ≠ some space := by
      rw [hcu]
      intro e
      apply h2
      rw [hcu, ← Option.some.inj e]
      exact List.mem_cons_self
    have hc : c ≠ quote := by
      intro e
      rw [hcu, e] at h3
      exact h3 rfl
    have hw := takeWhile_word h2 hrest
    have hdrop : (x.word ++ rest).drop (x.word.length + 1) = rest.drop 1 := by
      rw [List.drop_append, List.drop_of_length_le (Nat.le_succ _), List.nil_append]
      congr 1
      omega
    have hline : x.word ++ rest = c :: (u ++ rest) := by rw [hcu, List.cons_append]
    rw [Piece.text_bare hq, if_neg Bool.false_ne_true]
    rw [hline] at hhead hw hdrop ⊢
    rw [tokenizeLoop_bare fuel max (dropWhile_spaces k hhead) hc, hw, hdrop]

/-- between two words there is a space -/
theorem joined_head (h : ∀ y ∈ items, 1 ≤ y.1) :
    joined items t = [] ∨ (joined items t).head? = some space := by
  cases items with
  | nil =>
    cases t with
    | zero => exact .inl rfl
    | succ t => exact .inr rfl
  | cons y items =>
    obtain ⟨k, x⟩ := y
    obtain ⟨k, rfl⟩ : ∃ j, k = j + 1 := ⟨k - 1, by have := h _ List.mem_cons_self; omega⟩
    exact .inr rfl

/-- without its first space it is such a line again -/
theorem joined_drop (h : ∀ y ∈ items, 1 ≤ y.1) :
    ∃ items' t', (joined items t).drop 1 = joined items' t' ∧
      items'.map Prod.snd = items.map Prod.snd ∧ items'.tail = items.tail := by
  cases items with
  | nil => exact ⟨[], t - 1, List.drop_replicate, rfl, rfl⟩
  | cons y items =>
    obtain ⟨k, x⟩ := y
    obtain ⟨k, rfl⟩ : ∃ j, k = j + 1 := ⟨k - 1, by have := h _ List.mem_cons_self; omega⟩
    exact ⟨(k, x) :: items, t, rfl, rfl, rfl⟩

theorem tokenizeLoop_spaces (fuel k max : Nat) : tokenizeLoop fuel (List.replicate k space) max = [] := by
  have h : (List.replicate k space).dropWhile (· == space) = [] := by
    rw [← List.append_nil (List.replicate k space)]
    exact dropWhile_spaces k (by simp)
  cases fuel with
  | zero => rfl
  | succ fuel =>
    cases max with
    | zero => rfl
    | succ max =>
      unfold tokenizeLoop
      rw [h]

/-- The induction is on the pieces: after a bare one the loop has taken a space of the next. -/
theorem tokenizeLoop_joined (pieces : List Piece) {fuel max : Nat} (hp : items.map Prod.snd = pieces)
    (hk : ∀ y ∈ items.tail, 1 ≤ y.1) (hmax : pieces.length ≤ max) (hf : pieces.length ≤ fuel) :
    tokenizeLoop fuel (joined items t) max = pieces.map Piece.word := by
  induction pieces generalizing items t fuel max with
  | nil =>
    rw [List.map_eq_nil_iff.mp hp]
    exact tokenizeLoop_spaces fuel t max
  | cons x pieces ih =>
    obtain ⟨y, items, rfl, hx, hp'⟩ := List.map_eq_cons_iff.mp hp
    obtain ⟨k, x'⟩ := y
    obtain rfl : x' = x := hx
    rw [List.length_cons] at hmax hf
    obtain ⟨fuel, rfl⟩ : ∃ f, fuel = f + 1 := ⟨fuel - 1, by omega⟩
    obtain ⟨max, rfl⟩ : ∃ n, max = n + 1 := ⟨max - 1, by omega⟩
    rw [List.tail_cons] at hk
    rw [joined, tokenizeLoop_piece fuel k max x' (joined_head hk), List.map_cons]
    congr 1
    split
    · exact ih hp' (fun y hy => hk y (List.mem_of_mem_tail hy)) (by omega) (by omega)
    · obtain ⟨items', t', h1, h2, h3⟩ := joined_drop (t := t) hk
      rw [h1]
      refine ih (h2.trans hp') ?_ (by omega) (by omega)
      rw [h3]
      exact fun y hy => hk y (List.mem_of_mem_tail hy)

theorem joined_length : items.length ≤ (joined items t).length := by
  induction items with
  | nil => exact Nat.zero_le _
  | cons y items ih =>
    obtain ⟨k, x⟩ := y
    have hx : 1 ≤ x.text.length := by
      cases hq : x.quoted with
      | true =>
        rw [Piece.text_quoted hq, List.cons_append, List.length_cons]
        omega
      | false =>
        have hok := x.ok
        rw [hq, if_neg Bool.false_ne_true] at hok
        rw [Piece.text_bare hq]
        exact List.length_pos_iff.mpr hok.1
    rw [joined, List.length_cons, List.length_append, List.length_append]
    omega

theorem joined_nulFree : 0 ∉ joined items t := by
  have hspaces : ∀ k, (0 : UInt8) ∉ List.replicate k space := by
    intro k h
    exact absurd (List.eq_of_mem_replicate h) (by decide)
  induction items with
  | nil => exact hspaces t
  | cons y items ih =>
    obtain ⟨k, x⟩ := y
    have hx : 0 ∉ x.text := by
      cases hq : x.quoted with
      | true =>
        rw [Piece.text_quoted hq]
        simp [x.nulFree, quote]
      | false =>
        rw [Piece.text_bare hq]
        exact x.nulFree
    rw [joined, List.mem_append, List.mem_append]
    rintro (h | h | h)
    · exact hspaces k h
    · exact hx h
    · exact ih h

/-- Splitting undoes joining. -/
theorem tokenize_joined {max : Nat} (hk : ∀ y ∈ items.tail, 1 ≤ y.1) (hmax : items.length ≤ max) :
    tokenize (joined items t) max = items.map fun y => y.2.word := by
  have hlen : (items.map Prod.snd).length = items.length := List.length_map _
  have hline : items.length ≤ (joined items t).length := joined_length
  have h : tokenizeLoop ((joined items t).length + 1) (joined items t) max =
      (items.map Prod.snd).map Piece.word :=
    tokenizeLoop_joined (items.map Prod.snd) rfl hk (by omega) (by omega)
  rw [List.map_map] at h
  exact h

end

/-- Splitting a line undoes joining its words, in the buffer: string `i` is word `i`, the strings lie
in disjoint ranges of the line, and nothing outside the line is written. -/
theorem tokenizeAt_joined (m : Mem) (p : Nat) (max : Int) (items : List (Nat × Piece)) (t : Nat)
    (hk : ∀ y ∈ items.tail, 1 ≤ y.1) (hmax : (items.length : Int) ≤ max)
    (hline : HasStr m p (joined items t)) (hfit : p + (joined items t).length < 2^32) :
    ∃ argv m', tokenizeAt m p max = .ok (argv, m') ∧ argv.length = items.length ∧
      List.Forall₂ (HasStr m') argv (items.map fun y => y.2.word) ∧
      ((argv.zip (items.map fun y => y.2.word)).Pairwise fun x y => x.1 + x.2.length < y.1) ∧
      (∀ x ∈ argv.zip (items.map fun y => y.2.word),
        p ≤ x.1 ∧ x.1 + x.2.length ≤ p + (joined items t).length) ∧
      ∀ x, x < p ∨ p + (joined items t).length ≤ x → m' x = m x := by
  obtain ⟨argv, m', h1, h2, h3⟩ := tokenizeAt_words hline joined_nulFree hfit max
  rw [tokenize_joined hk (by omega)] at h2
  have hstr := h2.strings
  refine ⟨argv, m', h1, ?_, hstr, h2.increasing, fun x hx => ?_, h3⟩
  · rw [hstr.length_eq, List.length_map]
  · have h4 := h2.bounds.2 x hx
    omega

def bareA : Piece := ⟨lit "a", false, by decide, by decide⟩

def quotedB : Piece := ⟨lit "b c", true, by decide, by decide⟩

def quotedNothing : Piece := ⟨[], true, by decide, by decide⟩

theorem tokenizeAt_joined_three :
    ∃ argv m', tokenizeAt (blit (fun _ => 0) 100 (lit " a \"b c\"  \"\" ")) 100 16 = .ok (argv, m') ∧
      List.Forall₂ (HasStr m') argv [lit "a", lit "b c", []] := by
  obtain ⟨argv, m', h1, _, h2, _⟩ := tokenizeAt_joined
    (blit (fun _ => 0) 100 (lit " a \"b c\"  \"\" ")) 100 16
    [(1, bareA), (1, quotedB), (2, quotedNothing)] 1 (by decide) (by decide)
    ⟨by decide +kernel, by decide +kernel⟩ (by decide +kernel)
  exact ⟨argv, m', h1, h2⟩

end Raptor
