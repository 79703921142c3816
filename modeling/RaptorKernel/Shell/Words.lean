import RaptorKernel.Shell.Tokenize

/-!
# what becomes of the words of a line

* `Order`              what `execute` makes of the words it sees; `execute_order`;
* `words`              all the words of a line, of which `tokenize_take` gives the first `max`;
* `Order.Hears`        which words an order covers;
* `hears_iff`          when no word of a line is ignored without an error;
* `quotedLine`         a command and words in double quotes; `quoted_iff`: when the quotes keep the
                       words from being taken for a redirection.
-/

namespace Raptor
open Mem

/-! ## orders -/

def IsOperator (w : List UInt8) : Prop := w = lit ">" ∨ w = lit ">>"

instance : DecidablePred IsOperator := fun w => inferInstanceAs (Decidable (w = lit ">" ∨ w = lit ">>"))

inductive Order where
  | nothing
  | missing
  | unknown (name : List UInt8)
  | run (name : List UInt8) (cmd : Command) (args : List (List UInt8)) (r : Redirection)
deriving DecidableEq

def order (ws : List (List UInt8)) : Order :=
  match scanRedirection ws with
  | (_, .missing) => .missing
  | ([], _) => .nothing
  | (name :: args, r) =>
    match findCommand name with
    | none => .unknown name
    | some cmd => .run name cmd args r

def Order.perform (env : Env) (sh : Shell) : Order → Except Fault Shell
  | .nothing => .ok sh
  | .missing => .ok (sh.print (puts "rsh: missing redirection target\n"))
  | .unknown name => .ok (sh.print (printf "rsh: %s: command not found (try 'help')\n" [.text name]))
  | .run _ cmd args (.file append path) => executeRedirected env sh cmd args append path
  | .run _ cmd args _ => (cmd.run env sh args).map sh.after

theorem execute_order (env : Env) (sh : Shell) (line : List UInt8) :
    execute env sh line = (order (tokenize line shellArgvMax)).perform env sh := by
  unfold execute order
  generalize scanRedirection (tokenize line shellArgvMax) = p
  obtain ⟨argv, r⟩ := p
  cases r with
  | missing => rfl
  | none =>
    cases argv with
    | nil => rfl
    | cons name args =>
      dsimp only
      cases findCommand name with
      | none => rfl
      | some cmd => rfl
  | file append path =>
    cases argv with
    | nil => rfl
    | cons name args =>
      dsimp only
      cases findCommand name with
      | none => rfl
      | some cmd => rfl

/-! ## all words of a line -/

def words (line : List UInt8) : List (List UInt8) := tokenize line (line.length + 1)

section
variable {line w name : List UInt8} {ws pre args rest : List (List UInt8)}

/-- a smaller table holds the first words of a larger one -/
theorem tokenizeLoop_take {fuel a b : Nat} (h : a ≤ b ∨ fuel ≤ b) :
    tokenizeLoop fuel line a = (tokenizeLoop fuel line b).take a := by
  induction fuel generalizing line a b with
  | zero => exact List.take_nil.symm
  | succ fuel ih =>
    cases a with
    | zero => exact List.take_zero.symm
    | succ a =>
      obtain ⟨b, rfl⟩ : ∃ k, b = k + 1 := ⟨b - 1, by omega⟩
      have ih : ∀ v, tokenizeLoop fuel v a = (tokenizeLoop fuel v b).take a :=
        fun v => ih (by omega)
      unfold tokenizeLoop
      cases line.dropWhile (· == space) with
      | nil => exact List.take_nil.symm
      | cons c p =>
        dsimp only
        split
        · rw [List.take_succ_cons, ih]
        · rw [List.take_succ_cons, ih]

theorem tokenize_take (line : List UInt8) (max : Nat) : tokenize line max = (words line).take max :=
  tokenizeLoop_take (.inr (Nat.le_refl _))

/-! ## the search for an operator -/

/-- the words of a redirection -/
def Redirection.words : Redirection → List (List UInt8)
  | .file append path => [if append then lit ">>" else lit ">", path]
  | _ => []

theorem scanRedirection_operator (hw : IsOperator w) (path : List UInt8) :
    scanRedirection (w :: path :: ws) = ([], .file (w = lit ">>") path) :=
  if_pos hw

theorem scanRedirection_other (hw : ¬ IsOperator w) (ws : List (List UInt8)) :
    scanRedirection (w :: ws) = (w :: (scanRedirection ws).1, (scanRedirection ws).2) :=
  if_neg hw

theorem scanRedirection_append (hpre : ∀ w ∈ pre, ¬ IsOperator w) :
    scanRedirection (pre ++ ws) = (pre ++ (scanRedirection ws).1, (scanRedirection ws).2) := by
  induction pre with
  | nil => rfl
  | cons w pre ih =>
    rw [List.cons_append, scanRedirection_other (hpre w List.mem_cons_self),
      ih fun x hx => hpre x (List.mem_cons_of_mem _ hx)]
    rfl

/-- what the search found in `ws` behind the words `pre` -/
def Redirection.Behind (ws pre : List (List UInt8)) : Redirection → Prop
  | .none => ws = pre
  | .missing => ∃ w, IsOperator w ∧ ws = pre ++ [w]
  | .file append path => ∃ rest, ws = pre ++ (Redirection.file append path).words ++ rest

theorem Redirection.Behind.cons {r : Redirection} (h : r.Behind ws pre) (w : List UInt8) :
    r.Behind (w :: ws) (w :: pre) := by
  cases r with
  | none => exact congrArg _ h
  | missing =>
    obtain ⟨op, h1, h2⟩ := h
    exact ⟨op, h1, congrArg _ h2⟩
  | file append path =>
    obtain ⟨rest, h1⟩ := h
    exact ⟨rest, congrArg _ h1⟩

/-- the words up to the operator, the operator, and what stands behind its target -/
theorem scanRedirection_spec {r : Redirection} (h : scanRedirection ws = (pre, r)) :
    (∀ w ∈ pre, ¬ IsOperator w) ∧ r.Behind ws pre := by
  induction ws generalizing pre r with
  | nil =>
    cases h
    exact ⟨fun w hw => absurd hw (by simp), rfl⟩
  | cons w ws ih =>
    by_cases hw : IsOperator w
    · cases ws with
      | nil =>
        have e : scanRedirection [w] = ([], .missing) := if_pos hw
        cases e.symm.trans h
        exact ⟨fun x hx => absurd hx (by simp), w, hw, rfl⟩
      | cons path ws =>
        cases (scanRedirection_operator hw path).symm.trans h
        refine ⟨fun x hx => absurd hx (by simp), ws, ?_⟩
        rcases hw with rfl | rfl
        · rfl
        · rfl
    · cases (scanRedirection_other hw ws).symm.trans h
      obtain ⟨h1, h2⟩ := ih rfl
      refine ⟨fun x hx => ?_, h2.cons w⟩
      rcases List.mem_cons.mp hx with rfl | hx
      · exact hw
      · exact h1 x hx

/-! ## words that are heard -/

/-- of the words `ws`, the order covers all but `rest`, or it is an error -/
def Order.Hears (ws rest : List (List UInt8)) : Order → Prop
  | .nothing => ws = []
  | .missing => True
  | .unknown _ => True
  | .run name cmd args r => findCommand name = some cmd ∧ (∀ w ∈ name :: args, ¬ IsOperator w) ∧
      ws = name :: args ++ r.words ++ rest ∧ (r = .none → rest = [])

/-- A line that begins with an operator has no other word; a line of a known command with more words
than the table holds has an operator among those it holds. -/
def Fits (ws : List (List UInt8)) : Prop :=
  (∀ w ∈ ws.head?, IsOperator w → ws.length = 1) ∧
  (ws.length ≤ shellArgvMax ∨ (∃ w ∈ ws.take shellArgvMax, IsOperator w) ∨
    ∀ w ∈ ws.head?, findCommand w = none)

instance : DecidablePred Fits := fun ws => inferInstanceAs (Decidable
  ((∀ w ∈ ws.head?, IsOperator w → ws.length = 1) ∧
    (ws.length ≤ shellArgvMax ∨ (∃ w ∈ ws.take shellArgvMax, IsOperator w) ∨
      ∀ w ∈ ws.head?, findCommand w = none)))

/-- the words behind the first operator and its target -/
def behindTarget (ws : List (List UInt8)) : List (List UInt8) :=
  (ws.dropWhile fun w => ¬ IsOperator w).drop 2

/-- No word stands behind the target, or an error is reported: the first word is no command, or the
operator is the last word that the table holds. -/
def NothingBehind (ws : List (List UInt8)) : Prop :=
  behindTarget ws = [] ∨ (∀ w ∈ ws.head?, findCommand w = none) ∨
    (ws.takeWhile fun w => ¬ IsOperator w).length = shellArgvMax - 1

theorem order_of_scan {r : Redirection} {cmd : Command}
    (h : scanRedirection ws = (name :: args, r)) (hr : r ≠ .missing)
    (hf : findCommand name = some cmd) : order ws = .run name cmd args r := by
  unfold order
  rw [h]
  cases r with
  | missing => exact absurd rfl hr
  | none => simp only [hf]
  | file append path => simp only [hf]

theorem scan_of_order {r : Redirection} {cmd : Command} (h : order ws = .run name cmd args r) :
    scanRedirection ws = (name :: args, r) := by
  unfold order at h
  generalize scanRedirection ws = p at h ⊢
  obtain ⟨argv, r'⟩ := p
  cases argv with
  | nil => cases r' <;> cases h
  | cons name' args' =>
    cases hf : findCommand name' with
    | none => cases r' <;> simp only [hf] at h <;> cases h
    | some cmd' =>
      cases r' with
      | missing => cases h
      | none =>
        simp only [hf] at h
        cases h
        rfl
      | file append path =>
        simp only [hf] at h
        cases h
        rfl

theorem order_unknown (h : (scanRedirection ws).1 = name :: args) (hf : findCommand name = none) :
    order ws = .missing ∨ order ws = .unknown name := by
  unfold order
  generalize scanRedirection ws = p at h ⊢
  obtain ⟨argv, r⟩ := p
  obtain rfl : argv = name :: args := h
  cases r with
  | missing => exact .inl rfl
  | none => exact .inr (by simp only [hf])
  | file append path => exact .inr (by simp only [hf])

theorem order_missing (h : (scanRedirection ws).2 = .missing) : order ws = .missing := by
  unfold order
  generalize scanRedirection ws = p at h ⊢
  obtain ⟨argv, r⟩ := p
  obtain rfl : r = .missing := h
  rfl

theorem order_nothing (h : (scanRedirection ws).1 = []) (hr : (scanRedirection ws).2 ≠ .missing) :
    order ws = .nothing := by
  unfold order
  generalize scanRedirection ws = p at h hr ⊢
  obtain ⟨argv, r⟩ := p
  obtain rfl : argv = [] := h
  cases r with
  | missing => exact absurd rfl hr
  | none => rfl
  | file append path => rfl

theorem takeWhile_operator (hpre : ∀ w ∈ pre, ¬ IsOperator w) (hw : IsOperator w) :
    ((pre ++ w :: rest).takeWhile fun w => ¬ IsOperator w) = pre := by
  rw [List.takeWhile_append_of_pos fun x hx => decide_eq_true (hpre x hx),
    List.takeWhile_cons_of_neg (by simpa using hw), List.append_nil]

theorem dropWhile_operator (hpre : ∀ w ∈ pre, ¬ IsOperator w) (hw : IsOperator w) :
    ((pre ++ w :: rest).dropWhile fun w => ¬ IsOperator w) = w :: rest := by
  rw [List.dropWhile_append_of_pos fun x hx => decide_eq_true (hpre x hx),
    List.dropWhile_cons_of_neg (by simpa using hw)]

/-- a line with an operator among the words that the table holds -/
theorem fits_operator (hpre : ∀ w ∈ pre, ¬ IsOperator w) (hw : IsOperator w)
    (hlt : pre.length < shellArgvMax) : Fits (pre ++ w :: rest) ↔ pre ≠ [] ∨ rest = [] := by
  have hmem : w ∈ (pre ++ w :: rest).take shellArgvMax := by
    obtain ⟨k, hk⟩ : ∃ k, shellArgvMax - pre.length = k + 1 := ⟨shellArgvMax - pre.length - 1, by omega⟩
    rw [List.take_append, hk, List.take_succ_cons]
    exact List.mem_append_right _ List.mem_cons_self
  unfold Fits
  cases pre with
  | nil =>
    constructor
    · intro h
      have h1 := h.1 w rfl hw
      rw [List.nil_append, List.length_cons] at h1
      exact .inr (List.length_eq_zero_iff.mp (by omega))
    · rintro (h | h)
      · exact absurd rfl h
      · refine ⟨fun _ _ _ => ?_, Or.inr (.inl ⟨w, hmem, hw⟩)⟩
        rw [h]
        rfl
  | cons name args =>
    refine ⟨fun _ => .inl (List.cons_ne_nil _ _), fun _ => ⟨fun x hx hop => ?_, Or.inr (.inl ⟨w, hmem, hw⟩)⟩⟩
    obtain rfl : name = x := Option.some.inj hx
    exact absurd hop (hpre name List.mem_cons_self)

theorem nothingBehind_operator (hpre : ∀ w ∈ pre, ¬ IsOperator w) (hw : IsOperator w) :
    NothingBehind (pre ++ w :: rest) ↔ rest.drop 1 = [] ∨
      (∀ x ∈ (pre ++ w :: rest).head?, findCommand x = none) ∨ pre.length = shellArgvMax - 1 := by
  unfold NothingBehind behindTarget
  rw [takeWhile_operator hpre hw, dropWhile_operator hpre hw, List.drop_succ_cons]

/-- a line without an operator -/
theorem nothingBehind_plain (h : ∀ w ∈ ws, ¬ IsOperator w) : NothingBehind ws := by
  left
  unfold behindTarget
  rw [List.dropWhile_eq_nil_iff.mpr fun x hx => decide_eq_true (h x hx), List.drop_nil]

theorem unknown_head (hhead : ws.head? = some name) (hf : findCommand name = none) :
    ∀ w ∈ ws.head?, findCommand w = none := by
  intro w hw
  rw [hhead] at hw
  obtain rfl : name = w := Option.some.inj hw
  exact hf

/-- an error is reported -/
theorem hears_error (hall : ∀ rest, (order (ws.take shellArgvMax)).Hears ws rest) (hfits : Fits ws)
    (hbehind : NothingBehind ws) :
    ((∃ rest, (order (ws.take shellArgvMax)).Hears ws rest) ↔ Fits ws) ∧
    ((order (ws.take shellArgvMax)).Hears ws [] ↔ Fits ws ∧ NothingBehind ws) :=
  ⟨⟨fun _ => hfits, fun _ => ⟨[], hall []⟩⟩, fun _ => ⟨hfits, hbehind⟩, fun _ => hall []⟩

theorem hears_unknown (h : (scanRedirection (ws.take shellArgvMax)).1 = name :: args)
    (hf : findCommand name = none) : ∀ rest, (order (ws.take shellArgvMax)).Hears ws rest := by
  intro rest
  rcases order_unknown h hf with e | e
  · rw [e]
    trivial
  · rw [e]
    trivial

/-- a command runs, and hears the words up to the end of the redirection -/
theorem hears_command {r : Redirection} {cmd : Command}
    (hscan : scanRedirection (ws.take shellArgvMax) = (name :: args, r)) (hr : r ≠ .missing)
    (hf : findCommand name = some cmd) (hpre : ∀ w ∈ name :: args, ¬ IsOperator w) (rest : List (List UInt8)) :
    (order (ws.take shellArgvMax)).Hears ws rest ↔
      ws = name :: args ++ (r.words ++ rest) ∧ (r = .none → rest = []) := by
  rw [order_of_scan hscan hr hf, ← List.append_assoc]
  constructor
  · intro ⟨_, _, h, hrest⟩
    exact ⟨h, hrest⟩
  · intro ⟨h, hrest⟩
    exact ⟨hf, hpre, h, hrest⟩

/-- the operator is the last word that the search sees -/
theorem hears_missing (hscan : scanRedirection (ws.take shellArgvMax) = (pre, .missing)) :
    ((∃ rest, (order (ws.take shellArgvMax)).Hears ws rest) ↔ Fits ws) ∧
    ((order (ws.take shellArgvMax)).Hears ws [] ↔ Fits ws ∧ NothingBehind ws) := by
  obtain ⟨hpre, w, hw, hT⟩ := scanRedirection_spec hscan
  have h16 : shellArgvMax = 16 := rfl
  have hlen : pre.length + 1 = min shellArgvMax ws.length := by
    rw [← List.length_take, hT, List.length_append, List.length_singleton]
  have hsplit : ws = pre ++ w :: ws.drop shellArgvMax := by
    have h := List.take_append_drop shellArgvMax ws
    rw [hT, List.append_assoc] at h
    exact h.symm
  apply hears_error
  · intro rest
    rw [order_missing (by rw [hscan])]
    trivial
  · rw [hsplit]
    apply (fits_operator hpre hw (by omega)).mpr
    rw [← List.length_pos_iff, ← List.length_eq_zero_iff, List.length_drop]
    omega
  · rw [hsplit]
    apply (nothingBehind_operator hpre hw).mpr
    rw [List.drop_drop, ← List.length_eq_zero_iff, List.length_drop]
    omega

/-- no operator in sight -/
theorem hears_plain (hscan : scanRedirection (ws.take shellArgvMax) = (pre, .none)) :
    ((∃ rest, (order (ws.take shellArgvMax)).Hears ws rest) ↔ Fits ws) ∧
    ((order (ws.take shellArgvMax)).Hears ws [] ↔ Fits ws ∧ NothingBehind ws) := by
  obtain ⟨hpre, hT⟩ := scanRedirection_spec hscan
  have h16 : shellArgvMax = 16 := rfl
  have hws : ws.length ≤ shellArgvMax ↔ ws = pre := by
    constructor
    · intro h
      rw [← hT, List.take_of_length_le h]
    · intro h
      have hlen : pre.length = min shellArgvMax ws.length := by rw [← List.length_take, hT]
      rw [← h] at hlen
      omega
  have hnone : ¬ ∃ w ∈ ws.take shellArgvMax, IsOperator w := by
    rintro ⟨w, hw, hop⟩
    rw [hT] at hw
    exact hpre w hw hop
  cases pre with
  | nil =>
    obtain rfl : ws = [] := by
      rcases List.take_eq_nil_iff.mp hT with h | h
      · omega
      · exact h
    have hfits : Fits [] := by decide
    have hbehind : NothingBehind [] := .inl rfl
    exact ⟨⟨fun _ => hfits, fun _ => ⟨[], rfl⟩⟩, fun _ => ⟨hfits, hbehind⟩, fun _ => rfl⟩
  | cons name args =>
    have hhead : ws.head? = some name := by
      rw [← List.take_append_drop shellArgvMax ws, hT]
      rfl
    have hfirst : ∀ w ∈ ws.head?, IsOperator w → ws.length = 1 := by
      intro w hw hop
      rw [hhead] at hw
      obtain rfl : name = w := Option.some.inj hw
      exact absurd hop (hpre name List.mem_cons_self)
    cases hf : findCommand name with
    | none =>
      have hunknown := unknown_head hhead hf
      exact hears_error (hears_unknown (by rw [hscan]) hf) ⟨hfirst, .inr (.inr hunknown)⟩
        (.inr (.inl hunknown))
    | some cmd =>
      have hfits : Fits ws ↔ ws = name :: args := by
        rw [← hws]
        constructor
        · rintro ⟨_, h | h | h⟩
          · exact h
          · exact absurd h hnone
          · rw [h name hhead] at hf
            cases hf
        · exact fun h => ⟨hfirst, .inl h⟩
      have hhears : ∀ rest, (order (ws.take shellArgvMax)).Hears ws rest ↔
          rest = [] ∧ ws = name :: args := by
        intro rest
        rw [hears_command hscan (by simp) hf hpre]
        constructor
        · intro ⟨h, hrest⟩
          obtain rfl := hrest rfl
          exact ⟨rfl, h.trans (List.append_nil _)⟩
        · intro ⟨e, h⟩
          subst e
          exact ⟨h.trans (List.append_nil _).symm, fun _ => rfl⟩
      refine ⟨⟨fun ⟨rest, h⟩ => hfits.mpr ((hhears rest).mp h).2,
        fun h => ⟨[], (hhears []).mpr ⟨rfl, hfits.mp h⟩⟩⟩, fun h => ?_, fun h => ?_⟩
      · have h1 := ((hhears []).mp h).2
        refine ⟨hfits.mpr h1, nothingBehind_plain ?_⟩
        rw [h1]
        exact hpre
      · exact (hhears []).mpr ⟨rfl, hfits.mp h.1⟩

/-- an operator with a target -/
theorem hears_file {append : Bool} {path : List UInt8}
    (hscan : scanRedirection (ws.take shellArgvMax) = (pre, .file append path)) :
    ((∃ rest, (order (ws.take shellArgvMax)).Hears ws rest) ↔ Fits ws) ∧
    ((order (ws.take shellArgvMax)).Hears ws [] ↔ Fits ws ∧ NothingBehind ws) := by
  obtain ⟨hpre, tail, hT⟩ := scanRedirection_spec hscan
  obtain ⟨w, hw, hwords⟩ : ∃ w, IsOperator w ∧ (Redirection.file append path).words = [w, path] := by
    cases append with
    | false => exact ⟨_, .inl rfl, rfl⟩
    | true => exact ⟨_, .inr rfl, rfl⟩
  rw [hwords] at hT
  have hlen : pre.length + 2 ≤ shellArgvMax := by
    have h : (ws.take shellArgvMax).length ≤ shellArgvMax := List.length_take_le _ _
    rw [hT, List.length_append, List.length_append] at h
    exact Nat.le_trans (Nat.le_add_right _ _) h
  have hsplit : ws = pre ++ w :: path :: (tail ++ ws.drop shellArgvMax) := by
    have h := List.take_append_drop shellArgvMax ws
    rw [hT, List.append_assoc, List.append_assoc] at h
    exact h.symm
  have hfits : Fits ws ↔ pre ≠ [] := by
    rw [hsplit, fits_operator hpre hw (by omega)]
    simp
  have hbehind : NothingBehind ws ↔ tail ++ ws.drop shellArgvMax = [] ∨
      ∀ x ∈ ws.head?, findCommand x = none := by
    have h : ¬ pre.length = shellArgvMax - 1 := by omega
    rw [hsplit, nothingBehind_operator hpre hw, ← hsplit]
    simp only [h, or_false, List.drop_succ_cons, List.drop_zero]
  cases pre with
  | nil =>
    have horder : order (ws.take shellArgvMax) = .nothing :=
      order_nothing (by rw [hscan]) (by rw [hscan]; simp)
    have hno : ¬ Fits ws := fun h => hfits.mp h rfl
    have hws : ws ≠ [] := by
      rw [hsplit]
      exact List.cons_ne_nil _ _
    rw [horder]
    exact ⟨⟨fun ⟨_, h⟩ => absurd h hws, fun h => absurd h hno⟩,
      fun h => absurd h hws, fun h => absurd h.1 hno⟩
  | cons name args =>
    have hhead : ws.head? = some name := by
      rw [hsplit]
      rfl
    have hyes : Fits ws := hfits.mpr (List.cons_ne_nil _ _)
    cases hf : findCommand name with
    | none =>
      exact hears_error (hears_unknown (by rw [hscan]) hf) hyes
        (hbehind.mpr (.inr (unknown_head hhead hf)))
    | some cmd =>
      have hhears : ∀ rest, (order (ws.take shellArgvMax)).Hears ws rest ↔
          rest = tail ++ ws.drop shellArgvMax := by
        intro rest
        rw [hears_command hscan (by simp) hf hpre, hwords]
        constructor
        · intro ⟨h, _⟩
          have h1 := List.append_cancel_left (hsplit.symm.trans h)
          exact (List.cons.inj (List.cons.inj h1).2).2.symm
        · intro e
          subst e
          exact ⟨hsplit, fun h => by cases h⟩
      refine ⟨⟨fun _ => hyes, fun _ => ⟨_, (hhears _).mpr rfl⟩⟩, fun h => ?_, fun h => ?_⟩
      · exact ⟨hyes, hbehind.mpr (.inl ((hhears []).mp h).symm)⟩
      · rcases hbehind.mp h.2 with h | h
        · exact (hhears []).mpr h.symm
        · rw [h name hhead] at hf
          cases hf

end

/-- When no word of a line is ignored without an error: the search for the operator sees only the
words that fit into the table. -/
theorem hears_iff (line : List UInt8) :
    ((∃ rest, (order (tokenize line shellArgvMax)).Hears (words line) rest) ↔ Fits (words line)) ∧
    ((order (tokenize line shellArgvMax)).Hears (words line) [] ↔
      Fits (words line) ∧ NothingBehind (words line)) ∧
    ∀ env sh, execute env sh line = (order (tokenize line shellArgvMax)).perform env sh := by
  rw [tokenize_take, ← and_assoc]
  constructor
  · cases hscan : scanRedirection ((words line).take shellArgvMax) with
    | mk pre r =>
    cases r with
    | none => exact hears_plain hscan
    | missing => exact hears_missing hscan
    | file append path => exact hears_file hscan
  · intro env sh
    rw [execute_order, tokenize_take]

theorem execute_echo {line name : List UInt8} {args : List (List UInt8)}
    (h : order (tokenize line shellArgvMax) = .run name .echo args .none) (env : Env) (sh : Shell) :
    ∃ sh', execute env sh line = .ok sh' ∧ sh'.fs = sh.fs ∧
      sh'.con = sh.con.feed (cmdEcho args).1 := by
  rw [execute_order, h]
  exact ⟨_, rfl, rfl, rfl⟩

/-- sixteen words before the operator -/
def fullLine : List UInt8 := lit "echo a b c d e f g h i j k l m n o > f"

/-- Everything is printed, and no file is written. -/
theorem not_hears_full :
    (¬ ∀ line : List UInt8, line.length ≤ 255 → (∀ b ∈ line, 0x20 ≤ b ∧ b ≤ 0x7e) →
      ∃ rest, (order (tokenize line shellArgvMax)).Hears (words line) rest) ∧
    ∀ env sh, ∃ sh', execute env sh fullLine = .ok sh' ∧ sh'.fs = sh.fs ∧
      sh'.con = sh.con.feed (puts "a b c d e f g h i j k l m n o\n") := by
  have horder : order (tokenize fullLine shellArgvMax) = .run (lit "echo") .echo
      ((words fullLine).tail.take 15) .none := by decide +kernel
  constructor
  · intro h
    obtain ⟨rest, hrest⟩ := h fullLine (by decide +kernel) (by decide +kernel)
    rw [horder] at hrest
    obtain ⟨_, _, h1, h2⟩ := hrest
    rw [h2 rfl] at h1
    have hlen := congrArg List.length h1
    revert hlen
    decide +kernel
  · intro env sh
    obtain ⟨sh', h1, h2, h3⟩ := execute_echo horder env sh
    have e : (cmdEcho ((words fullLine).tail.take 15)).1 =
        puts "a b c d e f g h i j k l m n o\n" := by decide +kernel
    rw [e] at h3
    exact ⟨sh', h1, h2, h3⟩

/-! ## words in quotes -/

/-- a command and words in double quotes, each behind at least one space -/
def quotedLine (c : List UInt8) (ws : List (Nat × List UInt8)) : List UInt8 :=
  c ++ ws.flatMap fun y => List.replicate (y.1 + 1) space ++ (quote :: y.2 ++ [quote])

section
variable {c : List UInt8} {cmd : Command}

theorem findCommand_mem (h : findCommand c = some cmd) : ∃ x ∈ shellCommands, c = lit x.name := by
  obtain ⟨x, hx, _⟩ := Option.map_eq_some_iff.mp h
  have hname := List.find?_some hx
  exact ⟨x, List.mem_of_find?_eq_some hx, (of_decide_eq_true hname).symm⟩

/-- the name of a command is a bare word and no operator -/
theorem command_name (h : findCommand c = some cmd) :
    (0 ∉ c ∧ c ≠ [] ∧ space ∉ c ∧ c.head? ≠ some quote) ∧ ¬ IsOperator c := by
  have hall : ∀ x ∈ shellCommands, (0 ∉ lit x.name ∧ lit x.name ≠ [] ∧ space ∉ lit x.name ∧
      (lit x.name).head? ≠ some quote) ∧ ¬ IsOperator (lit x.name) := by decide +kernel
  obtain ⟨x, hx, rfl⟩ := findCommand_mem h
  exact hall x hx

/-- quotes hide spaces -/
theorem tokenize_quotedLine (hcmd : findCommand c = some cmd) (ws : List (Nat × List UInt8))
    (hws : ∀ y ∈ ws, 0 ∉ y.2 ∧ quote ∉ y.2) {max : Nat} (hmax : ws.length < max) :
    tokenize (quotedLine c ws) max = c :: ws.map Prod.snd := by
  obtain ⟨⟨h1, h2⟩, _⟩ := command_name hcmd
  have hitems : ∃ items : List (Nat × Piece), (∀ y ∈ items, 1 ≤ y.1) ∧
      joined items 0 = (ws.flatMap fun y => List.replicate (y.1 + 1) space ++ (quote :: y.2 ++ [quote])) ∧
      (items.map fun y => y.2.word) = ws.map Prod.snd := by
    clear hmax
    induction ws with
    | nil => exact ⟨[], fun y hy => absurd hy (by simp), rfl, rfl⟩
    | cons y ws ih =>
      obtain ⟨items, h3, h4, h5⟩ := ih fun x hx => hws x (List.mem_cons_of_mem _ hx)
      obtain ⟨h6, h7⟩ := hws y List.mem_cons_self
      let x : Piece := ⟨y.2, true, h6, h7⟩
      refine ⟨(y.1 + 1, x) :: items, fun z hz => ?_, ?_, ?_⟩
      · rcases List.mem_cons.mp hz with rfl | hz
        · exact Nat.le_add_left _ _
        · exact h3 z hz
      · rw [joined, h4, List.flatMap_cons, List.append_assoc]
        rfl
      · rw [List.map_cons, h5, List.map_cons]
  obtain ⟨items, h3, h4, h5⟩ := hitems
  have hlen : items.length = ws.length := by
    have h := congrArg List.length h5
    rw [List.length_map, List.length_map] at h
    exact h
  have h : tokenize (joined ((0, ⟨c, false, h1, h2⟩) :: items) 0) max =
      ((0, (⟨c, false, h1, h2⟩ : Piece)) :: items).map fun y => y.2.word :=
    tokenize_joined h3 (by rw [List.length_cons, hlen]; exact hmax)
  rw [joined, h4, List.map_cons, h5] at h
  exact h

end

/-- When the quotes keep the words from being taken for a redirection: when none of them is an
operator. -/
theorem quoted_iff (c : List UInt8) (cmd : Command) (hcmd : findCommand c = some cmd)
    (ws : List (Nat × List UInt8)) (hlen : ws.length ≤ 15)
    (hprint : ∀ y ∈ ws, ∀ b ∈ y.2, 0x20 ≤ b ∧ b ≤ 0x7e ∧ b ≠ quote) :
    (order (tokenize (quotedLine c ws) shellArgvMax) = .run c cmd (ws.map Prod.snd) .none ↔
      ∀ y ∈ ws, ¬ IsOperator y.2) ∧
    ∀ env sh, execute env sh (quotedLine c ws) =
      (order (tokenize (quotedLine c ws) shellArgvMax)).perform env sh := by
  have hnul : ∀ y ∈ ws, 0 ∉ y.2 ∧ quote ∉ y.2 := by
    intro y hy
    refine ⟨fun h => ?_, fun h => ?_⟩
    · exact absurd (hprint y hy _ h).1 (by decide)
    · exact (hprint y hy _ h).2.2 rfl
  have h16 : shellArgvMax = 16 := rfl
  refine ⟨?_, fun env sh => execute_order env sh _⟩
  rw [tokenize_quotedLine hcmd ws hnul (by omega)]
  constructor
  · intro h y hy
    have hpre := (scanRedirection_spec (scan_of_order h)).1
    exact hpre y.2 (List.mem_cons_of_mem _ (List.mem_map_of_mem hy))
  · intro h
    have hplain : ∀ w ∈ c :: ws.map Prod.snd, ¬ IsOperator w := by
      intro w hw
      rcases List.mem_cons.mp hw with rfl | hw
      · exact (command_name hcmd).2
      · obtain ⟨y, hy, rfl⟩ := List.mem_map.mp hw
        exact h y hy
    have hscan : scanRedirection (c :: ws.map Prod.snd ++ []) =
        (c :: ws.map Prod.snd ++ (scanRedirection []).1, (scanRedirection []).2) :=
      scanRedirection_append hplain
    rw [List.append_nil] at hscan
    apply order_of_scan _ (by simp) hcmd
    rw [hscan, scanRedirection, List.append_nil]

theorem quoted_iff_echo : order (tokenize (quotedLine (lit "echo") [(0, lit "a  b"), (2, [])])
    shellArgvMax) = .run (lit "echo") .echo [lit "a  b", []] .none :=
  (quoted_iff (lit "echo") .echo (by decide +kernel) [(0, lit "a  b"), (2, [])] (by decide)
    (by decide +kernel)).1.mpr (by decide +kernel)

/-- `echo ">" "f"` writes its output, an empty line, to the file `f`. -/
theorem not_quoted_operator :
    (¬ ∀ (c : List UInt8) (cmd : Command) (ws : List (Nat × List UInt8)),
      findCommand c = some cmd → ws.length ≤ 15 →
      (∀ y ∈ ws, ∀ b ∈ y.2, 0x20 ≤ b ∧ b ≤ 0x7e ∧ b ≠ quote) →
      order (tokenize (quotedLine c ws) shellArgvMax) = .run c cmd (ws.map Prod.snd) .none) ∧
    ∀ env sh, execute env sh (lit "echo \">\" \"f\"") =
      executeRedirected env sh .echo [] false (lit "f") := by
  have horder : order (tokenize (lit "echo \">\" \"f\"") shellArgvMax) =
      .run (lit "echo") .echo [] (.file false (lit "f")) := by decide +kernel
  have hline : quotedLine (lit "echo") [(0, lit ">"), (0, lit "f")] = lit "echo \">\" \"f\"" := by
    decide +kernel
  constructor
  · intro h
    have h1 := h (lit "echo") .echo [(0, lit ">"), (0, lit "f")] (by decide +kernel) (by decide)
      (by decide +kernel)
    rw [hline, horder] at h1
    cases h1
  · intro env sh
    rw [execute_order, horder]
    rfl

end Raptor
