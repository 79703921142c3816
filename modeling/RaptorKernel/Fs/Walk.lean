import RaptorKernel.Theory.Fields
import RaptorKernel.Fs.RamfsTree

/-!
# Path resolution, component by component

The scanner of `walk` reads a path as the list of its components:

* `components`        the fields of the path between slashes;
* `walkComps`         `walk` on a list of components;
* `walk_eq`           the scanner computes `walkComps` of the components;
* `walkComps_spec`    on a well-formed tree it returns, and what it returns;
* `walkComps_append`  resolution goes on from where the first part led.
-/

namespace Raptor
open Forest

def components (p : List UInt8) : List (List UInt8) := fields slash p

/-- `walk` from `cur` along the components -/
def walkComps (s : Ramfs) (wantParent : Bool) : Nat → List (List UInt8) → Except Fault WalkOut
  | cur, [] => .ok ⟨cur, 0, []⟩
  | cur, c :: cs =>
    if ramfsNameMax ≤ c.length then .ok WalkOut.null
    else do
      match ← walkNext s cur c with
      | none => .ok WalkOut.null
      | some next =>
        if cs = [] ∧ wantParent = true ∧ c ≠ dot ∧ c ≠ dotdot then
          .ok ⟨next, cur, clip ramfsNameMax c⟩
        else if next = 0 then .ok WalkOut.null
        else walkComps s wantParent next cs

/-! ## the scanner -/

theorem head?_skipSlashes (p : List UInt8) : (skipSlashes p).head? ≠ some slash := by
  intro e
  have h := List.head?_dropWhile_not (· == slash) p
  unfold skipSlashes at e
  rw [e] at h
  simp at h

theorem components_skipSlashes (p : List UInt8) : components (skipSlashes p) = components p :=
  fields_dropWhile p

theorem skipSlashes_length_le (p : List UInt8) : (skipSlashes p).length ≤ p.length :=
  (List.dropWhile_sublist _).length_le

theorem skipSlashes_eq_nil_iff (p : List UInt8) : skipSlashes p = [] ↔ components p = [] :=
  (fields_eq_nil_iff p).symm

theorem walkLoop_eq (s : Ramfs) (want : Bool) {fuel cur : Nat} {p : List UInt8}
    (hf : p.length < fuel) : walkLoop s want fuel cur p = walkComps s want cur (components p) := by
  induction fuel generalizing cur p with
  | zero => omega
  | succ fuel ih =>
    unfold walkLoop
    rw [← components_skipSlashes]
    have hlen := skipSlashes_length_le p
    have hhead := head?_skipSlashes p
    generalize skipSlashes p = q at *
    by_cases hq : q = []
    · subst hq
      rfl
    obtain ⟨hne, hcs⟩ := fields_take hq hhead
    have hpos : 0 < (component q).length := List.length_pos_iff.mpr hne
    have hrec : ∀ next, walkLoop s want fuel next (skipSlashes (q.drop (component q).length)) =
        walkComps s want next (components (q.drop (component q).length)) := by
      intro next
      have h1 := skipSlashes_length_le (q.drop (component q).length)
      have h2 := List.length_drop (i := (component q).length) (l := q)
      have h3 : 0 < q.length := List.length_pos_iff.mpr hq
      rw [ih (by omega), components_skipSlashes]
    have hcs' : components q = component q :: components (q.drop (component q).length) := hcs
    rw [hcs', if_neg hq, walkComps]
    dsimp only
    by_cases hlong : ramfsNameMax ≤ (component q).length
    · rw [if_pos hlong, if_pos hlong]
    rw [if_neg hlong, if_neg hlong]
    cases walkNext s cur (component q) with
    | error e => rfl
    | ok o =>
      cases o with
      | none => rfl
      | some next =>
        rw [ok_bind, ok_bind]
        simp only [skipSlashes_eq_nil_iff, hrec]

/-- where a path starts -/
def startOf (s : Ramfs) (cwd : Nat) (path : List UInt8) : Nat :=
  if path.head? = some slash then s.root else cwd

theorem walk_eq (s : Ramfs) (cwd : Nat) (path : List UInt8) (want : Bool) :
    walk s cwd path want = walkComps s want (startOf s cwd path) (components path) :=
  walkLoop_eq s want (Nat.lt_succ_self _)

/-! ## one component -/

section
variable {s : Ramfs} {F : Forest Nat} {cur : Nat} {n : RamfsNode}

theorem walkNext_dot (s : Ramfs) (cur : Nat) : walkNext s cur dot = .ok (some cur) := if_pos rfl

theorem walkNext_dotdot (hcur : s.node cur = some n) :
    walkNext s cur dotdot = .ok (some (if n.parent ≠ 0 then n.parent else cur)) := by
  unfold walkNext
  rw [if_neg (by decide), Ramfs.deref_ok hcur, ok_bind, if_pos rfl]

/-- a name, in a file and in a directory -/
theorem walkNext_file (hcur : s.node cur = some n) {c : List UInt8} (hd : c ≠ dot) (hdd : c ≠ dotdot)
    (ht : n.type ≠ .dir) : walkNext s cur c = .ok none := by
  unfold walkNext
  rw [if_neg hd, Ramfs.deref_ok hcur, ok_bind, if_neg hdd, if_pos ht]

theorem walkNext_child (hcur : s.node cur = some n) {c : List UInt8} (hd : c ≠ dot) (hdd : c ≠ dotdot)
    (ht : n.type = .dir) : walkNext s cur c = (findChild s cur c).map some := by
  unfold walkNext
  rw [if_neg hd, Ramfs.deref_ok hcur, ok_bind, if_neg hdd, if_neg (not_not.mpr ht)]

/-- a component leads to a live node or to none -/
theorem walkNext_spec (h : TreeInv s F) (hb : (s.tree F).addrs.length < loopBound)
    (hcur : s.node cur = some n) (c : List UInt8) :
    ∃ o, walkNext s cur c = .ok o ∧ (∀ x, o = some x → x ≠ 0 → ∃ m, s.node x = some m) ∧
      (c ≠ dot → c ≠ dotdot → (n.type ≠ .dir → o = none) ∧ (n.type = .dir →
        ∃ x, o = some x ∧ findChild s cur c = .ok x)) := by
  by_cases hd : c = dot
  · subst hd
    refine ⟨_, walkNext_dot s cur, fun x e _ => ?_, fun h1 => absurd rfl h1⟩
    cases e
    exact ⟨n, hcur⟩
  by_cases hdd : c = dotdot
  · subst hdd
    refine ⟨_, walkNext_dotdot hcur, fun x e _ => ?_, fun _ h1 => absurd rfl h1⟩
    cases e
    by_cases hp : n.parent = 0
    · rw [if_neg (not_not.mpr hp)]
      exact ⟨n, hcur⟩
    · rw [if_pos hp]
      exact h.parent_live hcur fun e => hp ((h.parent_eq_zero_iff hcur).mpr e)
  by_cases ht : n.type = .dir
  · obtain ⟨x, h1, h2, _⟩ := findChild_spec h hb hcur c
    rw [walkNext_child hcur hd hdd ht, h1]
    refine ⟨_, rfl, fun y e hy => ?_, fun _ _ => ⟨fun h3 => absurd ht h3, fun _ => ⟨x, rfl, rfl⟩⟩⟩
    cases e
    obtain ⟨m, hm, _⟩ := h2 hy
    exact ⟨m, hm⟩
  · exact ⟨_, walkNext_file hcur hd hdd ht, fun x e => absurd e (by simp),
      fun _ _ => ⟨fun _ => rfl, fun h1 => absurd h1 ht⟩⟩

/-! ## a whole path -/

/-- What `walk` reports on a well-formed tree: a live node or NULL; and a parent only together
with a last component that is a name, in which case the node is the child of that name. -/
structure WalkOk (s : Ramfs) (cs : List (List UInt8)) (w : WalkOut) : Prop where
  live : w.node ≠ 0 → ∃ m, s.node w.node = some m
  parent : w.parent ≠ 0 → ∃ p, s.node w.parent = some p ∧ p.type = .dir ∧
    findChild s w.parent w.name = .ok w.node ∧ cs.getLast? = some w.name ∧
    w.name.length < ramfsNameMax ∧ w.name ≠ dot ∧ w.name ≠ dotdot

theorem WalkOk.null (s : Ramfs) (cs : List (List UInt8)) : WalkOk s cs WalkOut.null :=
  ⟨fun h => absurd rfl h, fun h => absurd rfl h⟩

theorem walkComps_spec (h : TreeInv s F) (hb : (s.tree F).addrs.length < loopBound) (want : Bool)
    (hcur : s.node cur = some n) (cs : List (List UInt8)) :
    ∃ w, walkComps s want cur cs = .ok w ∧ WalkOk s cs w := by
  induction cs generalizing cur n with
  | nil => exact ⟨_, rfl, fun _ => ⟨n, hcur⟩, fun h => absurd rfl h⟩
  | cons c cs ih =>
    unfold walkComps
    by_cases hlen : ramfsNameMax ≤ c.length
    · rw [if_pos hlen]
      exact ⟨_, rfl, WalkOk.null s _⟩
    rw [if_neg hlen]
    obtain ⟨o, h1, h2, h3⟩ := walkNext_spec h hb hcur c
    rw [h1]
    cases o with
    | none => exact ⟨_, rfl, WalkOk.null s _⟩
    | some next =>
      show ∃ w, (if cs = [] ∧ want = true ∧ c ≠ dot ∧ c ≠ dotdot then _ else
        if next = 0 then _ else _) = _ ∧ _
      by_cases hlast : cs = [] ∧ want = true ∧ c ≠ dot ∧ c ≠ dotdot
      · rw [if_pos hlast]
        obtain ⟨rfl, _, hd, hdd⟩ := hlast
        obtain ⟨h4, h5⟩ := h3 hd hdd
        have ht : n.type = .dir := by
          by_contra ht
          cases h4 ht
        obtain ⟨x, e, hfind⟩ := h5 ht
        cases e
        have hclip : clip ramfsNameMax c = c := List.take_of_length_le (by omega)
        rw [hclip]
        exact ⟨_, rfl, h2 next rfl, fun _ => ⟨n, hcur, ht, hfind, rfl, not_le.mp hlen, hd, hdd⟩⟩
      rw [if_neg hlast]
      by_cases h0 : next = 0
      · rw [if_pos h0]
        exact ⟨_, rfl, WalkOk.null s _⟩
      rw [if_neg h0]
      obtain ⟨m, hm⟩ := h2 next rfl h0
      obtain ⟨w, h4, h5, h6⟩ := ih hm
      refine ⟨w, h4, h5, fun hp => ?_⟩
      obtain ⟨p, e1, e2, e3, e4, e5⟩ := h6 hp
      refine ⟨p, e1, e2, e3, ?_, e5⟩
      cases cs with
      | nil => exact absurd e4 (by simp)
      | cons d cs => rw [List.getLast?_cons_cons]; exact e4

theorem startOf_live (h : TreeInv s F) (hcur : s.node cur = some n) (path : List UInt8) :
    ∃ m, s.node (startOf s cur path) = some m := by
  unfold startOf
  split
  · obtain ⟨r, hr, _⟩ := h.rootDir
    exact ⟨r, hr⟩
  · exact ⟨n, hcur⟩

theorem walk_spec (h : TreeInv s F) (hb : (s.tree F).addrs.length < loopBound) (want : Bool)
    (hcur : s.node cur = some n) (path : List UInt8) :
    ∃ w, walk s cur path want = .ok w ∧ WalkOk s (components path) w := by
  rw [walk_eq]
  obtain ⟨m, hm⟩ := startOf_live h hcur path
  exact walkComps_spec h hb want hm _

/-- resolution on a well-formed tree: a live node or NULL -/
theorem ramfsResolve_spec (h : TreeInv s F) (hb : (s.tree F).addrs.length < loopBound)
    (hcur : s.node cur = some n) (path : List UInt8) :
    ∃ x, ramfsResolve s cur path = .ok x ∧ (x ≠ 0 → ∃ m, s.node x = some m) := by
  obtain ⟨w, h1, h2⟩ := walk_spec h hb false hcur path
  refine ⟨w.node, ?_, h2.live⟩
  unfold ramfsResolve
  rw [if_pos (h.ne_zero hcur), h1]
  rfl

end

/-! ## resolution in two parts -/

/-- the node `walk` returns when no parent is asked for -/
def follow (s : Ramfs) (cur : Nat) (cs : List (List UInt8)) : Except Fault Nat :=
  (walkComps s false cur cs).map WalkOut.node

theorem follow_cons (s : Ramfs) (cur : Nat) (c : List UInt8) (cs : List (List UInt8)) :
    follow s cur (c :: cs) =
      if ramfsNameMax ≤ c.length then .ok 0
      else walkNext s cur c >>= fun o => match o with
        | none => .ok 0
        | some next => if next = 0 then .ok 0 else follow s next cs := by
  show Except.map WalkOut.node (walkComps s false cur (c :: cs)) = _
  rw [walkComps]
  by_cases hlen : ramfsNameMax ≤ c.length
  · rw [if_pos hlen, if_pos hlen]
    rfl
  rw [if_neg hlen, if_neg hlen]
  cases hw : walkNext s cur c with
  | error e => rfl
  | ok o =>
    cases o with
    | none => rfl
    | some next =>
      show Except.map WalkOut.node (if cs = [] ∧ false = true ∧ c ≠ dot ∧ c ≠ dotdot then _ else
        if next = 0 then _ else _) = if next = 0 then _ else _
      rw [if_neg fun h => Bool.false_ne_true h.2.1]
      by_cases h0 : next = 0
      · rw [if_pos h0, if_pos h0]
        rfl
      · rw [if_neg h0, if_neg h0]
        rfl

theorem follow_append (s : Ramfs) {cur : Nat} (h0 : cur ≠ 0) (xs ys : List (List UInt8)) :
    follow s cur (xs ++ ys) =
      follow s cur xs >>= fun x => if x = 0 then .ok 0 else follow s x ys := by
  induction xs generalizing cur with
  | nil =>
    show _ = if cur = 0 then _ else _
    rw [if_neg h0]
    rfl
  | cons c xs ih =>
    rw [List.cons_append, follow_cons, follow_cons]
    by_cases hlen : ramfsNameMax ≤ c.length
    · rw [if_pos hlen, if_pos hlen]
      rfl
    rw [if_neg hlen, if_neg hlen]
    cases hw : walkNext s cur c with
    | error e => rfl
    | ok o =>
      cases o with
      | none => rfl
      | some next =>
        show (if next = 0 then _ else _) = ((if next = 0 then _ else _) >>= _)
        by_cases hn : next = 0
        · rw [if_pos hn, if_pos hn]
          rfl
        · rw [if_neg hn, if_neg hn]
          exact ih hn

/-- in both modes, `walk` goes on from where the first components led -/
theorem walkComps_append (s : Ramfs) (want : Bool) {cur : Nat} (h0 : cur ≠ 0)
    (xs : List (List UInt8)) {ys : List (List UInt8)} (hy : ys ≠ []) :
    walkComps s want cur (xs ++ ys) =
      follow s cur xs >>= fun x => if x = 0 then .ok WalkOut.null else walkComps s want x ys := by
  induction xs generalizing cur with
  | nil =>
    show _ = if cur = 0 then _ else _
    rw [if_neg h0]
    rfl
  | cons c xs ih =>
    rw [List.cons_append, walkComps, follow_cons]
    by_cases hlen : ramfsNameMax ≤ c.length
    · rw [if_pos hlen, if_pos hlen]
      rfl
    rw [if_neg hlen, if_neg hlen]
    cases hw : walkNext s cur c with
    | error e => rfl
    | ok o =>
      cases o with
      | none => rfl
      | some next =>
        show (if xs ++ ys = [] ∧ want = true ∧ c ≠ dot ∧ c ≠ dotdot then _ else
          if next = 0 then _ else _) = ((if next = 0 then _ else _) >>= _)
        rw [if_neg fun e => List.append_ne_nil_of_right_ne_nil xs hy e.1]
        by_cases hn : next = 0
        · rw [if_pos hn, if_pos hn]
          rfl
        · rw [if_neg hn, if_neg hn]
          exact ih hn

/-- `.` stays where it is -/
theorem follow_dot (s : Ramfs) {cur : Nat} (h0 : cur ≠ 0) (cs : List (List UInt8)) :
    follow s cur (dot :: cs) = follow s cur cs := by
  rw [follow_cons, if_neg (by decide), walkNext_dot]
  show (if cur = 0 then _ else _) = _
  rw [if_neg h0]

theorem ramfsResolve_eq (s : Ramfs) {cwd : Nat} (h0 : cwd ≠ 0) (path : List UInt8) :
    ramfsResolve s cwd path = follow s (startOf s cwd path) (components path) := by
  unfold ramfsResolve
  rw [if_pos h0, walk_eq]
  rfl

end Raptor
