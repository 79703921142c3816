import Mathlib

/-!
# Tilings of an interval by headed cells

A region `[s, e)` is cut into consecutive cells.  Every cell starts with a header of `h` bytes,
followed by its payload, and is either free or in use.

* `Tiles h s e l`      the cells of `l`, in order, cover `[s, e)` exactly;
* `Coalesced l`        no two neighbours are both free;
* `carve`, `alloc`     first fit: the first free cell that is large enough is cut in two when the
                       rest is worth a cell of its own (`ms` bytes besides its header);
* `joinHead`, `release`  a cell is freed and joined with its free neighbours;
* `coalesced_ext`      **canonical form**: a coalesced tiling is determined by its cells in use.
-/

namespace Tiling

structure Cell where
  addr : Nat
  size : Nat
  free : Bool
deriving DecidableEq, Repr

section
variable (h : Nat)

/-- first address behind the cell -/
def Cell.stop (c : Cell) : Nat := c.addr + h + c.size

def Tiles : Nat → Nat → List Cell → Prop
  | s, e, [] => s = e
  | s, e, c :: l => c.addr = s ∧ Tiles (s + h + c.size) e l

end

def Coalesced (l : List Cell) : Prop := l.IsChain fun c d => ¬ (c.free = true ∧ d.free = true)

/-- the cells in use -/
def used (l : List Cell) : List Cell := l.filter fun c => !c.free

theorem used_append (l l' : List Cell) : used (l ++ l') = used l ++ used l' := List.filter_append ..

theorem used_cons (c : Cell) (l : List Cell) :
    used (c :: l) = if c.free then used l else c :: used l := by
  unfold used
  cases hc : c.free <;> simp [hc]

theorem mem_used {l : List Cell} {c : Cell} : c ∈ used l ↔ c ∈ l ∧ c.free = false := by
  simp [used]

/-! ## geometry -/

section
variable {h : Nat}

theorem tiles_append {s e : Nat} (l l' : List Cell) :
    Tiles h s e (l ++ l') ↔ ∃ m, Tiles h s m l ∧ Tiles h m e l' := by
  induction l generalizing s with
  | nil => simp [Tiles]
  | cons c l ih =>
    show (c.addr = s ∧ Tiles h (s + h + c.size) e (l ++ l')) ↔ _
    rw [ih]
    constructor
    · rintro ⟨ha, m, h1, h2⟩
      exact ⟨m, ⟨ha, h1⟩, h2⟩
    · rintro ⟨m, ⟨ha, h1⟩, h2⟩
      exact ⟨ha, m, h1, h2⟩

/-- headers and payloads fill the region -/
theorem Tiles.total {s e : Nat} {l : List Cell} (ht : Tiles h s e l) :
    s + h * l.length + (l.map Cell.size).sum = e := by
  induction l generalizing s with
  | nil => simpa [Tiles] using ht
  | cons c l ih =>
    have h1 := ih ht.2
    rw [List.length_cons, List.map_cons, List.sum_cons, Nat.mul_succ]
    omega

theorem Tiles.le {s e : Nat} {l : List Cell} (ht : Tiles h s e l) : s ≤ e := by
  have h1 := ht.total
  omega

theorem Tiles.bounds {s e : Nat} {l : List Cell} (ht : Tiles h s e l) :
    ∀ c ∈ l, s ≤ c.addr ∧ c.stop h ≤ e := by
  induction l generalizing s with
  | nil => intro c hc; exact absurd hc (by simp)
  | cons d l ih =>
    intro c hc
    have hle := ht.2.le
    rcases List.mem_cons.mp hc with rfl | hc'
    · refine ⟨ht.1.ge, ?_⟩
      rw [Cell.stop, ht.1]
      exact hle
    · obtain ⟨h1, h2⟩ := ih ht.2 c hc'
      exact ⟨by omega, h2⟩

theorem Tiles.pairwise {s e : Nat} {l : List Cell} (ht : Tiles h s e l) :
    l.Pairwise fun c d => c.stop h ≤ d.addr := by
  induction l generalizing s with
  | nil => exact List.Pairwise.nil
  | cons c l ih =>
    refine List.pairwise_cons.mpr ⟨fun d hd => ?_, ih ht.2⟩
    have h1 := (ht.2.bounds d hd).1
    rw [Cell.stop, ht.1]
    exact h1

/-- two cells of a tiling are equal or do not overlap -/
theorem Tiles.eq_or_apart {s e : Nat} {l : List Cell} (ht : Tiles h s e l) {c d : Cell}
    (hc : c ∈ l) (hd : d ∈ l) : c = d ∨ c.stop h ≤ d.addr ∨ d.stop h ≤ c.addr := by
  induction l generalizing s with
  | nil => exact absurd hc (by simp)
  | cons x l ih =>
    have hp := List.pairwise_cons.mp ht.pairwise
    rcases List.mem_cons.mp hc with rfl | hc' <;> rcases List.mem_cons.mp hd with rfl | hd'
    · exact .inl rfl
    · exact .inr (.inl (hp.1 d hd'))
    · exact .inr (.inr (hp.1 c hc'))
    · exact ih ht.2 hc' hd'

theorem Tiles.addr_inj (hh : 0 < h) {s e : Nat} {l : List Cell} (ht : Tiles h s e l) {c d : Cell}
    (hc : c ∈ l) (hd : d ∈ l) (e1 : c.addr = d.addr) : c = d := by
  rcases ht.eq_or_apart hc hd with h1 | h1 | h1
  · exact h1
  · unfold Cell.stop at h1; omega
  · unfold Cell.stop at h1; omega

theorem Tiles.addr_nodup (hh : 0 < h) {s e : Nat} {l : List Cell} (ht : Tiles h s e l) :
    (l.map Cell.addr).Nodup := by
  refine (List.pairwise_map.mpr ?_)
  refine ht.pairwise.imp fun {c d} hcd => ?_
  unfold Cell.stop at hcd
  omega

/-- a cell of an aligned tiling of aligned sizes is aligned -/
theorem Tiles.aligned {q s e : Nat} {l : List Cell} (ht : Tiles h s e l) (hs : q ∣ s) (hq : q ∣ h)
    (hl : ∀ c ∈ l, q ∣ c.size) : ∀ c ∈ l, q ∣ c.addr := by
  induction l generalizing s with
  | nil => intro c hc; exact absurd hc (by simp)
  | cons d l ih =>
    intro c hc
    rcases List.mem_cons.mp hc with rfl | hc'
    · rw [ht.1]; exact hs
    · refine ih ht.2 ?_ (fun c hc => hl c (List.mem_cons_of_mem _ hc)) c hc'
      exact Nat.dvd_add (Nat.dvd_add hs hq) (hl d List.mem_cons_self)

end

/-! ## first fit -/

section
variable (h ms : Nat)

def carve (c : Cell) (n : Nat) : List Cell :=
  if c.size < n + h + ms then [{ c with free := false }]
  else [⟨c.addr, n, false⟩, ⟨c.addr + h + n, c.size - n - h, true⟩]

/-- first fit; the result names the cell that now holds the allocation -/
def alloc (n : Nat) : List Cell → Option (Nat × List Cell)
  | [] => none
  | c :: l =>
    if c.free = true ∧ n ≤ c.size then some (c.addr, carve h ms c n ++ l)
    else (alloc n l).map fun r => (r.1, c :: r.2)

variable {h ms}

theorem alloc_none {n : Nat} {l : List Cell} :
    alloc h ms n l = none ↔ ∀ c ∈ l, ¬ (c.free = true ∧ n ≤ c.size) := by
  induction l with
  | nil => simp [alloc]
  | cons c l ih =>
    unfold alloc
    by_cases hc : c.free = true ∧ n ≤ c.size
    · simp [hc]
    · rw [if_neg hc, Option.map_eq_none_iff, ih, List.forall_mem_cons]
      exact ⟨fun hl => ⟨hc, hl⟩, fun hl => hl.2⟩

/-- the chosen cell is the first that fits -/
theorem alloc_some {n a : Nat} {l l' : List Cell} (ha : alloc h ms n l = some (a, l')) :
    ∃ pre c post, l = pre ++ c :: post ∧ (∀ d ∈ pre, ¬ (d.free = true ∧ n ≤ d.size)) ∧
      c.free = true ∧ n ≤ c.size ∧ a = c.addr ∧ l' = pre ++ (carve h ms c n ++ post) := by
  induction l generalizing l' with
  | nil => exact absurd ha (by simp [alloc])
  | cons c l ih =>
    unfold alloc at ha
    by_cases hc : c.free = true ∧ n ≤ c.size
    · rw [if_pos hc] at ha
      cases ha
      exact ⟨[], c, l, rfl, by simp, hc.1, hc.2, rfl, rfl⟩
    · rw [if_neg hc, Option.map_eq_some_iff] at ha
      obtain ⟨⟨a', l''⟩, hr, heq⟩ := ha
      cases heq
      obtain ⟨pre, d, post, e1, hpre, h1, h2, h3, h4⟩ := ih hr
      refine ⟨c :: pre, d, post, by rw [e1]; rfl, ?_, h1, h2, h3, by rw [h4]; rfl⟩
      intro x hx
      rcases List.mem_cons.mp hx with rfl | hx'
      · exact hc
      · exact hpre x hx'

theorem carve_tiles (c : Cell) (n : Nat) :
    Tiles h c.addr (c.stop h) (carve h ms c n) := by
  unfold carve Cell.stop
  by_cases hc : c.size < n + h + ms
  · rw [if_pos hc]
    exact ⟨rfl, rfl⟩
  · rw [if_neg hc]
    refine ⟨rfl, rfl, ?_⟩
    show c.addr + h + n + h + (c.size - n - h) = c.addr + h + c.size
    omega

theorem tiles_mid {s e : Nat} {pre post : List Cell} {c : Cell} :
    Tiles h s e (pre ++ c :: post) ↔ Tiles h s c.addr pre ∧ Tiles h (c.stop h) e post := by
  rw [tiles_append]
  constructor
  · rintro ⟨m, h1, h2, h3⟩
    subst h2
    exact ⟨h1, h3⟩
  · rintro ⟨h1, h2⟩
    exact ⟨c.addr, h1, rfl, h2⟩

/-- a cell may be replaced by a tiling of its own extent -/
theorem Tiles.subst {s e : Nat} {pre post mid : List Cell} {c : Cell}
    (ht : Tiles h s e (pre ++ c :: post)) (hm : Tiles h c.addr (c.stop h) mid) :
    Tiles h s e (pre ++ (mid ++ post)) := by
  obtain ⟨h1, h2⟩ := tiles_mid.mp ht
  exact (tiles_append _ _).mpr ⟨c.addr, h1, (tiles_append _ _).mpr ⟨_, hm, h2⟩⟩

theorem alloc_tiles {s e n a : Nat} {l l' : List Cell} (ht : Tiles h s e l)
    (ha : alloc h ms n l = some (a, l')) : Tiles h s e l' := by
  obtain ⟨pre, c, post, rfl, _, _, _, _, rfl⟩ := alloc_some ha
  exact ht.subst (carve_tiles c n)

theorem coalesced_append {l l' : List Cell} :
    Coalesced (l ++ l') ↔ Coalesced l ∧ Coalesced l' ∧
      ∀ c ∈ l.getLast?, ∀ d ∈ l'.head?, ¬ (c.free = true ∧ d.free = true) :=
  List.isChain_append

theorem coalesced_cons {c : Cell} {l : List Cell} :
    Coalesced (c :: l) ↔ (∀ d ∈ l.head?, ¬ (c.free = true ∧ d.free = true)) ∧ Coalesced l :=
  List.isChain_cons

theorem alloc_coalesced {n a : Nat} {l l' : List Cell} (hl : Coalesced l)
    (ha : alloc h ms n l = some (a, l')) : Coalesced l' := by
  obtain ⟨pre, c, post, rfl, _, hf, _, _, rfl⟩ := alloc_some ha
  obtain ⟨h1, h2, _⟩ := coalesced_append.mp hl
  obtain ⟨h4, h5⟩ := coalesced_cons.mp h2
  have hmid : Coalesced (carve h ms c n ++ post) := by
    unfold carve
    by_cases hc : c.size < n + h + ms
    · rw [if_pos hc]
      exact coalesced_cons.mpr ⟨fun d _ hd => Bool.false_ne_true hd.1, h5⟩
    · rw [if_neg hc]
      refine coalesced_cons.mpr ⟨fun d _ hd => Bool.false_ne_true hd.1, coalesced_cons.mpr ⟨?_, h5⟩⟩
      intro d hd hb
      exact h4 d hd ⟨hf, hb.2⟩
  refine coalesced_append.mpr ⟨h1, hmid, ?_⟩
  intro x _ d hd hb
  have hd' : d.free = false := by
    unfold carve at hd
    by_cases hc : c.size < n + h + ms
    · rw [if_pos hc] at hd
      cases hd
      rfl
    · rw [if_neg hc] at hd
      cases hd
      rfl
  exact absurd hb.2 (by rw [hd']; exact Bool.false_ne_true)

/-- the chosen cell has the lowest address of those that fit -/
theorem alloc_lowest {s e n a : Nat} {l l' : List Cell} (ht : Tiles h s e l)
    (ha : alloc h ms n l = some (a, l')) :
    ∃ c ∈ l, c.addr = a ∧ c.free = true ∧ n ≤ c.size ∧
      ∀ d ∈ l, d.free = true → n ≤ d.size → a ≤ d.addr := by
  obtain ⟨pre, c, post, rfl, hpre, hf, hn, rfl, _⟩ := alloc_some ha
  refine ⟨c, by simp, rfl, hf, hn, fun d hd hdf hdn => ?_⟩
  rcases List.mem_append.mp hd with hd | hd
  · exact absurd ⟨hdf, hdn⟩ (hpre d hd)
  rcases List.mem_cons.mp hd with rfl | hd
  · exact le_refl _
  · have h1 := ((tiles_mid.mp ht).2.bounds d hd).1
    unfold Cell.stop at h1
    omega

/-- size of the cell that holds an allocation of `n` carved from `c` -/
def carvedSize (h ms : Nat) (c : Cell) (n : Nat) : Nat :=
  if c.size < n + h + ms then c.size else n

theorem used_carve (c : Cell) (n : Nat) :
    used (carve h ms c n) = [⟨c.addr, carvedSize h ms c n, false⟩] := by
  unfold carve carvedSize
  by_cases hc : c.size < n + h + ms
  · rw [if_pos hc, if_pos hc]; rfl
  · rw [if_neg hc, if_neg hc]; rfl

theorem le_carvedSize {c : Cell} {n : Nat} (hn : n ≤ c.size) : n ≤ carvedSize h ms c n := by
  unfold carvedSize
  split <;> omega

/-- an allocation adds one cell to the cells in use; its address was not in use before -/
theorem alloc_used (hh : 0 < h) {s e n a : Nat} {l l' : List Cell} (ht : Tiles h s e l)
    (ha : alloc h ms n l = some (a, l')) :
    ∃ sz, n ≤ sz ∧ (∀ c ∈ used l, c.addr ≠ a) ∧
      ∀ c, c ∈ used l' ↔ c = ⟨a, sz, false⟩ ∨ c ∈ used l := by
  obtain ⟨pre, c, post, rfl, _, hf, hn, rfl, rfl⟩ := alloc_some ha
  refine ⟨carvedSize h ms c n, le_carvedSize hn, ?_, ?_⟩
  · intro d hd e1
    obtain ⟨hd1, hd2⟩ := mem_used.mp hd
    have := ht.addr_inj hh hd1 (by simp) e1
    rw [this, hf] at hd2
    cases hd2
  · intro d
    rw [used_append, used_append, used_append, used_carve, used_cons, if_pos hf]
    simp only [List.mem_append, List.mem_cons, List.not_mem_nil, or_false]
    tauto

end

/-! ## freeing -/

section
variable (h : Nat)

/-- join the first two cells when both are free -/
def joinHead : List Cell → List Cell
  | c :: d :: l =>
    if c.free = true ∧ d.free = true then ⟨c.addr, c.size + h + d.size, true⟩ :: l else c :: d :: l
  | l => l

/-- free the cell at `a` and join it with its free neighbours -/
def release (a : Nat) : List Cell → List Cell
  | [] => []
  | c :: l =>
    if c.addr = a then joinHead h ({ c with free := true } :: l) else joinHead h (c :: release a l)

variable {h}

theorem joinHead_of_free {c d : Cell} {l : List Cell} (hb : c.free = true ∧ d.free = true) :
    joinHead h (c :: d :: l) = ⟨c.addr, c.size + h + d.size, true⟩ :: l := if_pos hb

theorem joinHead_of_not {c d : Cell} {l : List Cell} (hb : ¬ (c.free = true ∧ d.free = true)) :
    joinHead h (c :: d :: l) = c :: d :: l := if_neg hb

theorem joinHead_tiles {s e : Nat} {l : List Cell} (ht : Tiles h s e l) :
    Tiles h s e (joinHead h l) := by
  cases l with
  | nil => exact ht
  | cons c l =>
    cases l with
    | nil => exact ht
    | cons d l =>
      by_cases hc : c.free = true ∧ d.free = true
      · rw [joinHead_of_free hc]
        refine ⟨ht.1, ?_⟩
        show Tiles h (s + h + (c.size + h + d.size)) e l
        have e1 : s + h + (c.size + h + d.size) = s + h + c.size + h + d.size := by omega
        rw [e1]
        exact ht.2.2
      · rw [joinHead_of_not hc]
        exact ht

theorem release_tiles {s e : Nat} (a : Nat) {l : List Cell} (ht : Tiles h s e l) :
    Tiles h s e (release h a l) := by
  induction l generalizing s with
  | nil => exact ht
  | cons c l ih =>
    unfold release
    by_cases hc : c.addr = a
    · rw [if_pos hc]
      exact joinHead_tiles ⟨ht.1, ht.2⟩
    · rw [if_neg hc]
      exact joinHead_tiles ⟨ht.1, ih ht.2⟩

theorem used_joinHead (l : List Cell) : used (joinHead h l) = used l := by
  cases l with
  | nil => rfl
  | cons c l =>
    cases l with
    | nil => rfl
    | cons d l =>
      by_cases hc : c.free = true ∧ d.free = true
      · rw [joinHead_of_free hc, used_cons, used_cons, used_cons, if_pos hc.1, if_pos hc.2,
          if_pos rfl]
      · rw [joinHead_of_not hc]

/-- freeing takes exactly the cell at `a` out of use -/
theorem mem_used_release (hh : 0 < h) {s e a : Nat} {l : List Cell} (ht : Tiles h s e l) (c : Cell) :
    c ∈ used (release h a l) ↔ c ∈ used l ∧ c.addr ≠ a := by
  induction l generalizing s with
  | nil => simp [release, used]
  | cons d l ih =>
    have hlater : ∀ x ∈ l, x.addr ≠ d.addr := by
      intro x hx e1
      have h1 := (ht.2.bounds x hx).1
      have h2 := ht.1
      omega
    unfold release
    by_cases hd : d.addr = a
    · rw [if_pos hd, used_joinHead, used_cons, if_pos rfl, used_cons]
      constructor
      · intro hc
        refine ⟨?_, ?_⟩
        · split
          · exact hc
          · exact List.mem_cons_of_mem _ hc
        · rw [← hd]
          exact hlater c (mem_used.mp hc).1
      · rintro ⟨hc, hne⟩
        split at hc
        · exact hc
        · rcases List.mem_cons.mp hc with rfl | hc'
          · exact absurd hd hne
          · exact hc'
    · rw [if_neg hd, used_joinHead, used_cons, used_cons]
      have ih' := ih ht.2
      split
      · exact ih'
      · rw [List.mem_cons, List.mem_cons, ih']
        constructor
        · rintro (rfl | hc)
          · exact ⟨.inl rfl, hd⟩
          · exact ⟨.inr hc.1, hc.2⟩
        · rintro ⟨rfl | hc, hne⟩
          · exact .inl rfl
          · exact .inr ⟨hc, hne⟩

/-- joining and freeing keep addresses -/
theorem mem_joinHead_addr {l : List Cell} {c : Cell} (hc : c ∈ joinHead h l) :
    ∃ d ∈ l, d.addr = c.addr := by
  rcases l with _ | ⟨x, _ | ⟨y, l⟩⟩
  · exact ⟨c, hc, rfl⟩
  · exact ⟨c, hc, rfl⟩
  · by_cases hb : x.free = true ∧ y.free = true
    · rw [joinHead_of_free hb] at hc
      rcases List.mem_cons.mp hc with rfl | hc'
      · exact ⟨x, List.mem_cons_self, rfl⟩
      · exact ⟨c, by simp [hc'], rfl⟩
    · rw [joinHead_of_not hb] at hc
      exact ⟨c, hc, rfl⟩

theorem mem_release_addr {a : Nat} {l : List Cell} {c : Cell} (hc : c ∈ release h a l) :
    ∃ d ∈ l, d.addr = c.addr := by
  induction l generalizing c with
  | nil => exact absurd hc (by simp [release])
  | cons x l ih =>
    unfold release at hc
    split at hc
    · obtain ⟨d, hd, e⟩ := mem_joinHead_addr hc
      rcases List.mem_cons.mp hd with rfl | hd'
      · exact ⟨x, List.mem_cons_self, e⟩
      · exact ⟨d, List.mem_cons_of_mem _ hd', e⟩
    · obtain ⟨d, hd, e⟩ := mem_joinHead_addr hc
      rcases List.mem_cons.mp hd with rfl | hd'
      · exact ⟨d, List.mem_cons_self, e⟩
      · obtain ⟨d', hd'', e'⟩ := ih hd'
        exact ⟨d', List.mem_cons_of_mem _ hd'', e'.trans e⟩

theorem joinHead_coalesced {c : Cell} {l : List Cell} (hl : Coalesced l) :
    Coalesced (joinHead h (c :: l)) := by
  cases l with
  | nil => exact List.isChain_singleton _
  | cons d l =>
    obtain ⟨h1, h2⟩ := coalesced_cons.mp hl
    by_cases hc : c.free = true ∧ d.free = true
    · rw [joinHead_of_free hc]
      exact coalesced_cons.mpr ⟨fun x hx hb => h1 x hx ⟨hc.2, hb.2⟩, h2⟩
    · rw [joinHead_of_not hc]
      refine coalesced_cons.mpr ⟨fun x hx => ?_, hl⟩
      cases hx
      exact hc

theorem release_coalesced (a : Nat) {l : List Cell} (hl : Coalesced l) :
    Coalesced (release h a l) := by
  induction l with
  | nil => exact hl
  | cons c l ih =>
    have hl' := (coalesced_cons.mp hl).2
    unfold release
    by_cases hc : c.addr = a
    · rw [if_pos hc]
      exact joinHead_coalesced hl'
    · rw [if_neg hc]
      exact joinHead_coalesced (ih hl')

/-- the first cell keeps its address and its flag when it is joined -/
theorem joinHead_cons (c : Cell) (l : List Cell) :
    ∃ d l', joinHead h (c :: l) = d :: l' ∧ d.addr = c.addr ∧ d.free = c.free := by
  cases l with
  | nil => exact ⟨c, [], rfl, rfl, rfl⟩
  | cons d l =>
    by_cases hc : c.free = true ∧ d.free = true
    · rw [joinHead_of_free hc]
      exact ⟨_, _, rfl, rfl, hc.1.symm⟩
    · rw [joinHead_of_not hc]
      exact ⟨_, _, rfl, rfl, rfl⟩

theorem release_head (c : Cell) (post : List Cell) :
    release h c.addr (c :: post) = joinHead h ({ c with free := true } :: post) := by
  unfold release
  rw [if_pos rfl]

/-- freeing inside a coalesced list touches the cell and its two neighbours only -/
theorem release_mid {pre post : List Cell} {p c : Cell} (hl : Coalesced (pre ++ p :: c :: post))
    (hne : ∀ d ∈ pre ++ [p], d.addr ≠ c.addr) :
    release h c.addr (pre ++ p :: c :: post)
      = pre ++ joinHead h (p :: joinHead h ({ c with free := true } :: post)) := by
  induction pre with
  | nil =>
    have hp : p.addr ≠ c.addr := hne p (by simp)
    show release h c.addr (p :: c :: post) = _
    rw [release, if_neg hp, release_head]
    rfl
  | cons x pre ih =>
    have hx : x.addr ≠ c.addr := hne x (by simp)
    obtain ⟨h1, h2⟩ := coalesced_cons.mp hl
    have ih' := ih h2 (fun d hd => hne d (List.mem_cons_of_mem _ hd))
    show release h c.addr (x :: (pre ++ p :: c :: post)) = x :: (pre ++ _)
    rw [release, if_neg hx, ih']
    cases pre with
    | nil =>
      obtain ⟨d, l', e1, _, e3⟩ := joinHead_cons (h := h) p
        (joinHead h ({ c with free := true } :: post))
      rw [List.nil_append, e1]
      refine joinHead_of_not fun hb => h1 p rfl ⟨hb.1, ?_⟩
      rw [← e3]; exact hb.2
    | cons y pre => exact joinHead_of_not (h1 y rfl)

end

/-! ## canonical form -/

section
variable {h : Nat}

/-- a coalesced tiling that starts with a free cell: that cell is followed by nothing or by a cell
in use -/
theorem free_head_cases {s e : Nat} {c : Cell} {l : List Cell} (ht : Tiles h s e (c :: l))
    (hl : Coalesced (c :: l)) (hf : c.free = true) :
    (l = [] ∧ s + h + c.size = e) ∨
      ∃ d l', l = d :: l' ∧ d.free = false ∧ d.addr = s + h + c.size := by
  cases l with
  | nil => exact .inl ⟨rfl, ht.2⟩
  | cons d l =>
    refine .inr ⟨d, l, rfl, ?_, ht.2.1⟩
    have h1 := (coalesced_cons.mp hl).1 d rfl
    cases hd : d.free with
    | false => rfl
    | true => exact absurd ⟨hf, hd⟩ h1

/-- a first cell in use is the first cell of every tiling with the same cells in use -/
theorem head_eq_of_used (hh : 0 < h) {s e : Nat} {c c' : Cell} {l l' : List Cell}
    (ht : Tiles h s e (c :: l)) (ht' : Tiles h s e (c' :: l'))
    (hu : ∀ x, x ∈ used (c :: l) ↔ x ∈ used (c' :: l')) (hc : c.free = false) : c = c' := by
  have h1 : c ∈ used (c :: l) := mem_used.mpr ⟨List.mem_cons_self, hc⟩
  have h2 := (mem_used.mp ((hu c).mp h1)).1
  exact ht'.addr_inj hh h2 List.mem_cons_self (ht.1.trans ht'.1.symm)

/-- the free space in front of the first cell in use does not reach past it -/
theorem free_head_le {s e : Nat} {c c' : Cell} {l l' : List Cell}
    (ht : Tiles h s e (c :: l)) (ht' : Tiles h s e (c' :: l')) (hl' : Coalesced (c' :: l'))
    (hu : ∀ x, x ∈ used (c :: l) ↔ x ∈ used (c' :: l')) (hc : c.free = true)
    (hc' : c'.free = true) : c.size ≤ c'.size := by
  rcases free_head_cases ht' hl' hc' with ⟨_, h1⟩ | ⟨d, m, rfl, hd, ha⟩
  · have h2 := ht.2.le
    omega
  · have h2 : d ∈ used (c :: l) := (hu d).mpr (mem_used.mpr ⟨by simp, hd⟩)
    obtain ⟨h3, h4⟩ := mem_used.mp h2
    rcases List.mem_cons.mp h3 with rfl | h5
    · rw [hc] at h4; cases h4
    · have h6 := (ht.2.bounds d h5).1
      omega

/-- **Canonical form.**  Two coalesced tilings of one region with the same cells in use are
equal. -/
theorem coalesced_ext (hh : 0 < h) {s e : Nat} {l l' : List Cell} (ht : Tiles h s e l)
    (ht' : Tiles h s e l') (hl : Coalesced l) (hl' : Coalesced l')
    (hu : ∀ c, c ∈ used l ↔ c ∈ used l') : l = l' := by
  induction l generalizing s l' with
  | nil =>
    cases l' with
    | nil => rfl
    | cons c l' =>
      have h1 : s = e := ht
      have h2 := ht'.bounds c List.mem_cons_self
      unfold Cell.stop at h2
      omega
  | cons c l ih =>
    cases l' with
    | nil =>
      have h1 : s = e := ht'
      have h2 := ht.bounds c List.mem_cons_self
      unfold Cell.stop at h2
      omega
    | cons c' l' =>
      have hcc : c = c' := by
        cases hc : c.free with
        | false => exact head_eq_of_used hh ht ht' hu hc
        | true =>
          cases hc' : c'.free with
          | false => exact (head_eq_of_used hh ht' ht (fun x => (hu x).symm) hc').symm
          | true =>
            have h1 := free_head_le ht ht' hl' hu hc hc'
            have h2 := free_head_le ht' ht hl (fun x => (hu x).symm) hc' hc
            have h3 : c.addr = c'.addr := ht.1.trans ht'.1.symm
            obtain ⟨a, z, f⟩ := c
            obtain ⟨a', z', f'⟩ := c'
            simp only at h1 h2 h3 hc hc'
            rw [h3, hc, hc', Nat.le_antisymm h1 h2]
      subst hcc
      congr 1
      refine ih ht.2 ht'.2 (coalesced_cons.mp hl).2 (coalesced_cons.mp hl').2 fun x => ?_
      have h1 := hu x
      rw [used_cons, used_cons] at h1
      cases hc : c.free with
      | true => simpa [hc] using h1
      | false =>
        simp only [hc, Bool.false_eq_true, if_false, List.mem_cons] at h1
        have hne : ∀ m, Tiles h (s + h + c.size) e m → x ∈ used m → x ≠ c := by
          rintro m hm hx rfl
          have h2 := (hm.bounds x (mem_used.mp hx).1).1
          have h3 := ht.1
          omega
        constructor
        · intro hx
          exact (h1.mp (.inr hx)).resolve_left (hne l ht.2 hx)
        · intro hx
          exact (h1.mpr (.inr hx)).resolve_left (hne l' ht'.2 hx)

end

end Tiling
