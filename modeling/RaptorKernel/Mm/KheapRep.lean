import RaptorKernel.Mm.Blocks

/-!
# The byte-level heap refines the list of blocks

`Rep m E pv l`: the headers in the memory `m` are those of the blocks `l`, doubly linked, where
the block in front of `l` is `pv` and the heap ends at `E`.  Because the blocks tile the heap, the
`next` link of a block is determined by its extent.

* `rep_carve`       splitting a block and taking its first part (`carve`);
* `rep_mergeNext`   joining a block with its successor (`joinHead`);
* `Models k H`      the whole heap `k` represents the blocks `H`;
* `kmalloc_sim`, `kfree_sim`   **refinement**: the C functions do to the memory what
  `Heap.kmalloc` and `Heap.kfree` do to the blocks, and write to no byte outside the headers.
-/

namespace Raptor
open Mem Tiling

/-- the `next` link of a block in a heap that ends at `E` -/
def nextAddr (E : Nat) (c : Cell) : Nat := if c.stop sizeofBlock = E then 0 else c.stop sizeofBlock

structure HeaderAt (m : Mem) (E pv : Nat) (c : Cell) : Prop where
  magic : magicOf m c.addr = blockMagic
  size : sizeOf m c.addr = c.size
  free : freeOf m c.addr = c.free
  next : nextOf m c.addr = nextAddr E c
  prev : prevOf m c.addr = pv

def Rep (m : Mem) (E : Nat) : Nat → List Cell → Prop
  | _, [] => True
  | pv, c :: l => HeaderAt m E pv c ∧ Rep m E c.addr l

/-- `x` lies in the header of one of the blocks -/
def InHeaders (l : List Cell) (x : Nat) : Prop := ∃ c ∈ l, c.addr ≤ x ∧ x < c.addr + sizeofBlock

/-! ## fields -/

theorem freeOf_setFree (m : Mem) (b : Nat) (v : Bool) : freeOf (setFree m b v) b = v := by
  unfold freeOf setFree
  rw [Function.update_self]
  cases v <;> rfl

theorem setFree_apply_ne {m : Mem} {b x : Nat} {v : Bool} (h : x ≠ b + 8) : setFree m b v x = m x :=
  Function.update_of_ne h _ _

/-- a header is read from its twenty bytes -/
theorem HeaderAt.congr {m m' : Mem} {E pv : Nat} {c : Cell} (h : HeaderAt m E pv c)
    (hag : ∀ x, c.addr ≤ x → x < c.addr + sizeofBlock → m' x = m x) : HeaderAt m' E pv c := by
  have hl : ∀ o, o + 4 ≤ 20 → load32 m' (c.addr + o) = load32 m (c.addr + o) := fun o ho =>
    load32_congr fun x h1 h2 => hag x (by omega) (by unfold sizeofBlock; omega)
  refine ⟨(hl 0 (by omega)).trans h.magic, (hl 4 (by omega)).trans h.size, ?_,
    (hl 12 (by omega)).trans h.next, (hl 16 (by omega)).trans h.prev⟩
  unfold freeOf
  rw [hag (c.addr + 8) (by omega) (by unfold sizeofBlock; omega)]
  exact h.free

/-- a header whose `prev` link is replaced -/
theorem HeaderAt.relink {m m' : Mem} {E pv pv' : Nat} {c : Cell} (h : HeaderAt m E pv c)
    (hag : ∀ x, c.addr ≤ x → x < c.addr + 16 → m' x = m x) (hp : prevOf m' c.addr = pv') :
    HeaderAt m' E pv' c := by
  have hl : ∀ o, o + 4 ≤ 16 → load32 m' (c.addr + o) = load32 m (c.addr + o) := fun o ho =>
    load32_congr fun x h1 h2 => hag x (by omega) (by omega)
  refine ⟨(hl 0 (by omega)).trans h.magic, (hl 4 (by omega)).trans h.size, ?_,
    (hl 12 (by omega)).trans h.next, hp⟩
  unfold freeOf
  rw [hag (c.addr + 8) (by omega) (by omega)]
  exact h.free

theorem HeaderAt.setFree {m : Mem} {E pv : Nat} {c : Cell} (h : HeaderAt m E pv c) (v : Bool) :
    HeaderAt (setFree m c.addr v) E pv { c with free := v } := by
  have hl : ∀ o, o + 4 ≤ 8 ∨ 9 ≤ o →
      load32 (Raptor.setFree m c.addr v) (c.addr + o) = load32 m (c.addr + o) := fun o ho =>
    load32_update_ne (by omega)
  exact ⟨(hl 0 (by omega)).trans h.magic, (hl 4 (by omega)).trans h.size, freeOf_setFree _ _ _,
    (hl 12 (by omega)).trans h.next, (hl 16 (by omega)).trans h.prev⟩

/-! ## lists of headers -/

theorem Rep.congr {m m' : Mem} {E pv : Nat} {l : List Cell} (h : Rep m E pv l)
    (hag : ∀ x, InHeaders l x → m' x = m x) : Rep m' E pv l := by
  induction l generalizing pv with
  | nil => exact trivial
  | cons c l ih =>
    refine ⟨h.1.congr fun x h1 h2 => hag x ⟨c, List.mem_cons_self, h1, h2⟩, ih h.2 ?_⟩
    rintro x ⟨d, hd, h1⟩
    exact hag x ⟨d, List.mem_cons_of_mem _ hd, h1⟩

/-- address of the last block of `l`, or `pv` -/
def lastAddr (pv : Nat) : List Cell → Nat
  | [] => pv
  | c :: l => lastAddr c.addr l

theorem rep_append {m : Mem} {E pv : Nat} (l l' : List Cell) :
    Rep m E pv (l ++ l') ↔ Rep m E pv l ∧ Rep m E (lastAddr pv l) l' := by
  induction l generalizing pv with
  | nil => exact ⟨fun h => ⟨trivial, h⟩, fun h => h.2⟩
  | cons c l ih =>
    show (HeaderAt m E pv c ∧ Rep m E c.addr (l ++ l')) ↔ _
    rw [ih]
    constructor
    · rintro ⟨h1, h2, h3⟩
      exact ⟨⟨h1, h2⟩, h3⟩
    · rintro ⟨⟨h1, h2⟩, h3⟩
      exact ⟨h1, h2, h3⟩

/-- the block in front of `l` is replaced: only the `prev` link of the first block changes -/
theorem Rep.relink {m m' : Mem} {E pv pv' : Nat} {l : List Cell} (h : Rep m E pv l)
    (hhd : ∀ d ∈ l.head?, prevOf m' d.addr = pv' ∧
      ∀ x, d.addr ≤ x → x < d.addr + 16 → m' x = m x)
    (htl : ∀ x, InHeaders l.tail x → m' x = m x) : Rep m' E pv' l := by
  cases l with
  | nil => exact trivial
  | cons d l =>
    obtain ⟨h1, h2⟩ := hhd d rfl
    exact ⟨h.1.relink h2 h1, h.2.congr htl⟩

theorem rep_mem {m : Mem} {E pv : Nat} {l : List Cell} (h : Rep m E pv l) {c : Cell} (hc : c ∈ l) :
    ∃ pv', HeaderAt m E pv' c := by
  induction l generalizing pv with
  | nil => exact absurd hc (by simp)
  | cons d l ih =>
    rcases List.mem_cons.mp hc with rfl | hc'
    · exact ⟨pv, h.1⟩
    · exact ih h.2 hc'

theorem inHeaders_append {l l' : List Cell} {x : Nat} :
    InHeaders (l ++ l') x ↔ InHeaders l x ∨ InHeaders l' x := by
  unfold InHeaders
  simp only [List.mem_append, or_and_right, exists_or]

theorem inHeaders_cons {c : Cell} {l : List Cell} {x : Nat} :
    InHeaders (c :: l) x ↔ (c.addr ≤ x ∧ x < c.addr + sizeofBlock) ∨ InHeaders l x := by
  unfold InHeaders
  simp only [List.mem_cons, or_and_right, exists_or, exists_eq_left]

/-- the headers of a tiling lie in its region -/
theorem inHeaders_bounds {s e x : Nat} {l : List Cell} (ht : Tiles sizeofBlock s e l)
    (hx : InHeaders l x) : s ≤ x ∧ x < e := by
  obtain ⟨c, hc, h1, h2⟩ := hx
  obtain ⟨h3, h4⟩ := ht.bounds c hc
  unfold Cell.stop at h4
  omega

/-- a payload meets no header -/
theorem not_inHeaders_of_payload {s e x : Nat} {l : List Cell} (ht : Tiles sizeofBlock s e l)
    {c : Cell} (hc : c ∈ l) (h1 : c.addr + sizeofBlock ≤ x) (h2 : x < c.stop sizeofBlock) :
    ¬ InHeaders l x := by
  rintro ⟨d, hd, h3, h4⟩
  rcases ht.eq_or_apart hc hd with rfl | h | h
  · omega
  · omega
  · unfold Cell.stop at h
    omega

/-! ## the stores of the allocator -/

/-- the five stores that build a header -/
def writeHeader (m : Mem) (a sz : Nat) (fr : Bool) (nx pv : Nat) : Mem :=
  setPrev (setNext (setFree (setSize (setMagic m a blockMagic) a sz) a fr) a nx) a pv

theorem writeHeader_frame {m : Mem} {a sz nx pv x : Nat} {fr : Bool} (hx : x < a ∨ a + 20 ≤ x) :
    writeHeader m a sz fr nx pv x = m x := by
  unfold writeHeader setPrev setNext setFree setSize setMagic
  rw [store32_apply_ne (by omega), store32_apply_ne (by omega), Function.update_of_ne (by omega),
    store32_apply_ne (by omega), store32_apply_ne (by omega)]

theorem headerAt_writeHeader (m : Mem) {E : Nat} (pv : Nat) {c : Cell} (hz : c.size < 2^32)
    (hn : nextAddr E c < 2^32) (hp : pv < 2^32) :
    HeaderAt (writeHeader m c.addr c.size c.free (nextAddr E c) pv) E pv c := by
  unfold writeHeader
  refine ⟨?_, ?_, ?_, ?_, ?_⟩
  · unfold magicOf setPrev setNext setFree setSize setMagic
    rw [load32_store32_ne (by omega), load32_store32_ne (by omega), load32_update_ne (by omega),
      load32_store32_ne (by omega), load32_store32_of_lt (by unfold blockMagic; omega)]
  · unfold sizeOf setPrev setNext setFree setSize
    rw [load32_store32_ne (by omega), load32_store32_ne (by omega), load32_update_ne (by omega),
      load32_store32_of_lt hz]
  · unfold freeOf setPrev setNext
    rw [store32_apply_ne (by omega), store32_apply_ne (by omega)]
    exact freeOf_setFree _ _ _
  · unfold nextOf setPrev setNext
    rw [load32_store32_ne (by omega), load32_store32_of_lt hn]
  · unfold prevOf setPrev
    rw [load32_store32_of_lt hp]

/-- the two stores that move the end of a block -/
def resize (m : Mem) (b n nx : Nat) : Mem := setNext (setSize m b n) b nx

theorem resize_frame {m : Mem} {b n nx x : Nat} (hx : x < b ∨ b + 20 ≤ x) :
    resize m b n nx x = m x := by
  unfold resize setNext setSize
  rw [store32_apply_ne (by omega), store32_apply_ne (by omega)]

theorem HeaderAt.resize {m : Mem} {E pv n : Nat} {c : Cell} (h : HeaderAt m E pv c) (hn : n < 2^32)
    (hx : nextAddr E { c with size := n } < 2^32) :
    HeaderAt (resize m c.addr n (nextAddr E { c with size := n })) E pv { c with size := n } := by
  obtain ⟨a, z, f⟩ := c
  unfold Raptor.resize
  refine ⟨?_, ?_, ?_, ?_, ?_⟩ <;> dsimp only at *
  · unfold magicOf setNext setSize
    rw [load32_store32_ne (by omega), load32_store32_ne (by omega)]
    exact h.magic
  · unfold sizeOf setNext setSize
    rw [load32_store32_ne (by omega), load32_store32_of_lt hn]
  · unfold freeOf setNext setSize
    rw [store32_apply_ne (by omega), store32_apply_ne (by omega)]
    exact h.free
  · unfold nextOf setNext
    rw [load32_store32_of_lt hx]
  · unfold prevOf setNext setSize
    rw [load32_store32_ne (by omega), load32_store32_ne (by omega)]
    exact h.prev

/-- the store that tells the block at `nx`, if there is one, its new predecessor -/
def relinkAt (m : Mem) (nx pv : Nat) : Mem := if nx ≠ 0 then setPrev m nx pv else m

/-- the address of the first block, or NULL -/
def headAddr : List Cell → Nat
  | [] => 0
  | c :: _ => c.addr

theorem relinkAt_frame {m : Mem} {l : List Cell} {pv x : Nat} (hx : ¬ InHeaders l x) :
    relinkAt m (headAddr l) pv x = m x := by
  unfold relinkAt
  cases l with
  | nil => rfl
  | cons c l =>
    rw [inHeaders_cons, not_or] at hx
    have h1 := hx.1
    unfold sizeofBlock at h1
    split
    · have e1 : headAddr (c :: l) = c.addr := rfl
      exact store32_apply_ne (by rw [e1]; omega)
    · rfl

theorem Rep.relinkAt {m : Mem} {E pv s : Nat} {l : List Cell} (h : Rep m E pv l) (pv' : Nat)
    (ht : Tiles sizeofBlock s E l) (hs : 0 < s) (hp : pv' < 2^32) :
    Rep (relinkAt m (headAddr l) pv') E pv' l := by
  cases l with
  | nil => exact trivial
  | cons c l =>
    have hc : c.addr ≠ 0 := by
      have := ht.1
      omega
    have e1 : Raptor.relinkAt m (headAddr (c :: l)) pv' = setPrev m c.addr pv' := if_pos hc
    rw [e1]
    refine h.relink (fun d hd => ?_) (fun x hx => ?_)
    · cases hd
      exact ⟨load32_store32_of_lt hp, fun x _ h2 => store32_apply_ne (.inl h2)⟩
    · have h1 := (inHeaders_bounds ht.2 hx).1
      have h2 := ht.1
      unfold sizeofBlock at h1
      exact store32_apply_ne (.inr (by omega))

/-- the `next` link of a block is the address of its successor -/
theorem nextAddr_eq_headAddr {E : Nat} {c : Cell} {l : List Cell}
    (ht : Tiles sizeofBlock c.addr E (c :: l)) : nextAddr E c = headAddr l := by
  unfold nextAddr
  cases l with
  | nil => exact if_pos ht.2
  | cons d l =>
    have h1 : d.addr = c.stop sizeofBlock := ht.2.1
    have h2 := (ht.2.bounds d List.mem_cons_self).2
    rw [if_neg (by unfold Cell.stop sizeofBlock at *; omega)]
    exact h1.symm

theorem headAddr_lt {s E : Nat} {l : List Cell} (ht : Tiles sizeofBlock s E l) (hE : E ≤ 2^32) :
    headAddr l < 2^32 := by
  cases l with
  | nil => show 0 < 2^32; norm_num
  | cons c l =>
    have h2 := (ht.bounds c List.mem_cons_self).2
    unfold Cell.stop sizeofBlock at h2
    show c.addr < 2^32
    omega

/-! ## splitting -/

/-- the stores of `split`, with the loads done -/
theorem split_eq {m : Mem} {b n z nx : Nat} (hz : sizeOf m b = z) (hx : nextOf m b = nx)
    (hn : n + 36 ≤ z) (hb : b + 20 + z ≤ 2^32) (hz32 : z + 36 < 2^32) :
    split m b n = resize (relinkAt (writeHeader m (b + 20 + n) (z - n - 20) true nx b) nx
      (b + 20 + n)) b n (b + 20 + n) := by
  have e1 : add32 (add32 n sizeofBlock) minSplit = n + 36 := by
    unfold add32 sizeofBlock minSplit
    omega
  have e2 : add32 (add32 b sizeofBlock) n = b + 20 + n := by
    unfold add32 sizeofBlock
    omega
  have e3 : sizeOf (setMagic m (b + 20 + n) blockMagic) b = z := by
    rw [← hz]
    exact load32_store32_ne (by omega)
  have e4 : sub32 (sub32 z n) sizeofBlock = z - n - 20 := by
    unfold sub32 sizeofBlock
    omega
  have e5 : nextOf (setFree (setSize (setMagic m (b + 20 + n) blockMagic) (b + 20 + n)
      (z - n - 20)) (b + 20 + n) true) b = nx := by
    rw [← hx]
    unfold nextOf setFree setSize setMagic
    rw [load32_update_ne (by omega), load32_store32_ne (by omega), load32_store32_ne (by omega)]
  have hnx : nx < 2^32 := by rw [← hx]; exact load32_lt _ _
  have e6 : nextOf (setPrev (setNext (setFree (setSize (setMagic m (b + 20 + n) blockMagic)
      (b + 20 + n) (z - n - 20)) (b + 20 + n) true) (b + 20 + n) nx) (b + 20 + n) b)
      (b + 20 + n) = nx := by
    unfold nextOf setPrev setNext
    rw [load32_store32_ne (by omega), load32_store32_of_lt hnx]
  unfold split
  rw [hz, e1, if_neg (by omega), e2]
  simp only [e3, e4, e5, e6]
  rfl

section
variable {m : Mem} {E pv n : Nat} {c : Cell} {post : List Cell}

/-- the memory after a block has been split in two -/
theorem rep_split_large (hE : E ≤ 2^32) (ht : Tiles sizeofBlock c.addr E (c :: post))
    (h : Rep m E pv (c :: post)) (hn : n + 36 ≤ c.size) (hz : c.size + 36 < 2^32) :
    Rep (split m c.addr n) E pv
      (⟨c.addr, n, c.free⟩ :: ⟨c.addr + 20 + n, c.size - n - 20, true⟩ :: post) ∧
    ∀ x, ¬ InHeaders (⟨c.addr, n, c.free⟩ :: ⟨c.addr + 20 + n, c.size - n - 20, true⟩ :: post) x →
      split m c.addr n x = m x := by
  obtain ⟨hc, hpost⟩ := h
  have hstop : c.addr + 20 + c.size ≤ E := (ht.bounds c List.mem_cons_self).2
  have hnx := nextAddr_eq_headAddr ht
  rw [split_eq hc.size hc.next hn (hstop.trans hE) hz, hnx]
  generalize hr : (⟨c.addr + 20 + n, c.size - n - 20, true⟩ : Cell) = r
  have hra : r.addr = c.addr + 20 + n := by rw [← hr]
  have hrz : r.size = c.size - n - 20 := by rw [← hr]
  have hrf : r.free = true := by rw [← hr]
  have htr : Tiles sizeofBlock r.addr E (r :: post) := by
    refine ⟨rfl, ?_⟩
    have e1 : r.addr + sizeofBlock + r.size = c.addr + sizeofBlock + c.size := by
      rw [hra, hrz]
      unfold sizeofBlock
      omega
    rw [e1]
    exact ht.2
  have hpostlow : ∀ x, InHeaders post x → c.addr + 20 + c.size ≤ x := fun x hx =>
    (inHeaders_bounds ht.2 hx).1
  -- the fresh header lies in the old payload of `c`
  have h1r : HeaderAt (writeHeader m r.addr r.size true (headAddr post) c.addr) E c.addr r := by
    rw [← nextAddr_eq_headAddr htr, ← hrf]
    refine headerAt_writeHeader m c.addr (by omega) ?_ (by omega)
    rw [nextAddr_eq_headAddr htr]
    exact headAddr_lt ht.2 hE
  have h1c : HeaderAt (writeHeader m r.addr r.size true (headAddr post) c.addr) E pv c :=
    hc.congr fun x _ h2 => writeHeader_frame (by unfold sizeofBlock at h2; omega)
  have h1p : Rep (writeHeader m r.addr r.size true (headAddr post) c.addr) E c.addr post :=
    hpost.congr fun x hx => writeHeader_frame (by have := hpostlow x hx; omega)
  rw [← hra, ← hrz]
  have hf1 : ∀ x, x < r.addr ∨ r.addr + 20 ≤ x →
      writeHeader m r.addr r.size true (headAddr post) c.addr x = m x := fun x hx =>
    writeHeader_frame hx
  generalize writeHeader m r.addr r.size true (headAddr post) c.addr = m1 at *
  -- the successor learns its new predecessor
  have hf2 : ∀ x, ¬ InHeaders post x → relinkAt m1 (headAddr post) r.addr x = m1 x := fun x hx =>
    relinkAt_frame hx
  have hlow : ∀ x, x < c.addr + 20 + c.size → ¬ InHeaders post x := by
    intro x hx hin
    have := hpostlow x hin
    omega
  have h2r : HeaderAt (relinkAt m1 (headAddr post) r.addr) E c.addr r :=
    h1r.congr fun x _ h2 => hf2 x (hlow x (by unfold sizeofBlock at h2; omega))
  have h2c : HeaderAt (relinkAt m1 (headAddr post) r.addr) E pv c :=
    h1c.congr fun x _ h2 => hf2 x (hlow x (by unfold sizeofBlock at h2; omega))
  have h2p : Rep (relinkAt m1 (headAddr post) r.addr) E r.addr post :=
    h1p.relinkAt r.addr ht.2 (by unfold sizeofBlock; omega) (by omega)
  generalize relinkAt m1 (headAddr post) r.addr = m2 at *
  -- the block itself ends where the new one starts
  have hnext : nextAddr E { c with size := n } = r.addr := by
    have e1 : Cell.stop sizeofBlock { c with size := n } = r.addr := by
      rw [hra]; rfl
    unfold nextAddr
    rw [e1, if_neg (by omega)]
  have h3c := h2c.resize (n := n) (by omega) (by rw [hnext]; omega)
  rw [hnext] at h3c
  refine ⟨⟨h3c, h2r.congr fun x h1 _ => resize_frame (by omega),
    h2p.congr fun x hx => resize_frame (by have := hpostlow x hx; omega)⟩, fun x hx => ?_⟩
  rw [inHeaders_cons, inHeaders_cons, not_or, not_or] at hx
  obtain ⟨hx1, hx2, hx3⟩ := hx
  unfold sizeofBlock at hx1 hx2
  simp only at hx1
  rw [resize_frame (by omega), hf2 x hx3, hf1 x (by omega)]

/-- `split` followed by the store to `free`: the blocks are those of `carve` -/
theorem rep_carve (hE : E ≤ 2^32) (ht : Tiles sizeofBlock c.addr E (c :: post))
    (h : Rep m E pv (c :: post)) (hz : c.size + 36 < 2^32) (hn : n ≤ c.size) :
    Rep (setFree (split m c.addr n) c.addr false) E pv (carve sizeofBlock minSplit c n ++ post) ∧
    ∀ x, ¬ InHeaders (carve sizeofBlock minSplit c n ++ post) x →
      setFree (split m c.addr n) c.addr false x = m x := by
  by_cases hlt : c.size < n + 36
  · have e1 : split m c.addr n = m := by
      unfold split
      rw [h.1.size, if_pos]
      unfold add32 sizeofBlock minSplit
      omega
    have e2 : carve sizeofBlock minSplit c n = [{ c with free := false }] := if_pos hlt
    rw [e1, e2]
    refine ⟨⟨h.1.setFree false, h.2.congr fun x hx => ?_⟩, fun x hx => ?_⟩
    · have := (inHeaders_bounds ht.2 hx).1
      unfold sizeofBlock at this
      exact setFree_apply_ne (by omega)
    · have hx1 : ¬ (c.addr ≤ x ∧ x < c.addr + 20) := fun hin =>
        hx (inHeaders_cons.mpr (.inl hin))
      exact setFree_apply_ne (by omega)
  · have e2 : carve sizeofBlock minSplit c n
        = [⟨c.addr, n, false⟩, ⟨c.addr + 20 + n, c.size - n - 20, true⟩] := if_neg hlt
    obtain ⟨⟨h1, h2⟩, hf⟩ := rep_split_large (n := n) hE ht h (by omega) hz
    rw [e2]
    refine ⟨⟨h1.setFree false, h2.congr fun x hx => setFree_apply_ne ?_⟩, fun x hx => ?_⟩
    · rw [inHeaders_cons] at hx
      rcases hx with hx | hx
      · simp only at hx
        omega
      · have := (inHeaders_bounds ht.2 hx).1
        unfold sizeofBlock at this
        omega
    · have hx1 : ¬ (c.addr ≤ x ∧ x < c.addr + 20) := fun hin =>
        hx (inHeaders_cons.mpr (.inl hin))
      rw [setFree_apply_ne (by omega)]
      refine hf x fun hin => hx ?_
      rw [inHeaders_cons] at hin
      exact inHeaders_cons.mpr hin

end

/-! ## kmalloc -/

/-- the loop of `kmalloc` over the blocks `l` is `alloc` -/
theorem kmallocLoop_sim (k : Kheap) (size : Nat) {E : Nat} (hE : E < 2^32) (l : List Cell) :
    ∀ (s pv fuel : Nat), 0 < s → Tiles sizeofBlock s E l → Rep k.mem E pv l →
      (∀ c ∈ l, c.size + 36 < 2^32) → l.length < fuel →
      match alloc sizeofBlock minSplit size l with
      | none => kmallocLoop k size fuel (headAddr l) = .ok (0, k)
      | some (a, l') => ∃ m', kmallocLoop k size fuel (headAddr l)
          = .ok (a + sizeofBlock, { k with mem := m' }) ∧ Rep m' E pv l' ∧
          ∀ x, ¬ InHeaders l' x → m' x = k.mem x := by
  induction l with
  | nil =>
    intro s pv fuel _ _ _ _ hf
    obtain ⟨fuel, rfl⟩ := Nat.exists_eq_succ_of_ne_zero (Nat.pos_iff_ne_zero.mp hf)
    rfl
  | cons c l ih =>
    intro s pv fuel hs ht h hz hf
    obtain ⟨fuel, rfl⟩ : ∃ f, fuel = f + 1 := ⟨fuel - 1, by simp at hf; omega⟩
    have hca : c.addr = s := ht.1
    have hc0 : c.addr ≠ 0 := by omega
    have hstop := (ht.bounds c List.mem_cons_self).2
    have ht' : Tiles sizeofBlock c.addr E (c :: l) := by rw [hca]; exact ht
    have hloop : kmallocLoop k size (fuel + 1) (headAddr (c :: l))
        = if c.free = true ∧ size ≤ c.size then
            .ok (add32 c.addr sizeofBlock,
              { k with mem := setFree (split k.mem c.addr size) c.addr false })
          else kmallocLoop k size fuel (headAddr l) := by
      show kmallocLoop k size (fuel + 1) c.addr = _
      rw [kmallocLoop, if_neg hc0, if_neg (not_not.mpr h.1.magic), h.1.free, h.1.size, h.1.next,
        nextAddr_eq_headAddr ht']
    rw [hloop]
    unfold alloc
    by_cases hfit : c.free = true ∧ size ≤ c.size
    · rw [if_pos hfit, if_pos hfit]
      obtain ⟨h1, h2⟩ := rep_carve hE.le ht' h (hz c List.mem_cons_self) hfit.2
      refine ⟨_, ?_, h1, h2⟩
      rw [add32_eq]
      unfold Cell.stop sizeofBlock at *
      omega
    · rw [if_neg hfit, if_neg hfit]
      have hnext : 0 < s + sizeofBlock + c.size := by omega
      have ih' := ih _ c.addr fuel hnext ht.2 h.2 (fun d hd => hz d (List.mem_cons_of_mem _ hd))
        (by simpa using hf)
      cases hal : alloc sizeofBlock minSplit size l with
      | none =>
        rw [hal] at ih'
        exact ih'
      | some r =>
        obtain ⟨a, l'⟩ := r
        rw [hal] at ih'
        obtain ⟨m', h1, h2, h3⟩ := ih'
        have hlow : ∀ x, InHeaders l' x → c.addr + sizeofBlock ≤ x := by
          intro x hx
          have := (inHeaders_bounds (alloc_tiles ht.2 hal) hx).1
          omega
        refine ⟨m', h1, ⟨h.1.congr fun x _ hx => h3 x fun hin => ?_, h2⟩, fun x hx => h3 x ?_⟩
        · have := hlow x hin
          omega
        · rw [inHeaders_cons, not_or] at hx
          exact hx.2

/-! ## joining -/

/-- the stores of `merge_next` on two free neighbours, with the loads done -/
theorem mergeNext_eq {m : Mem} {b n z zn nx : Nat} (hb : nextOf m b = n) (hn0 : n ≠ 0)
    (hfb : freeOf m b = true) (hfn : freeOf m n = true) (hz : sizeOf m b = z)
    (hzn : sizeOf m n = zn) (hx : nextOf m n = nx) (hbn : b + 20 ≤ n) (hs : z + 20 + zn < 2^32) :
    mergeNext m b = relinkAt (resize m b (z + 20 + zn) nx) nx b := by
  have e1 : add32 z (add32 sizeofBlock zn) = z + 20 + zn := by
    unfold add32 sizeofBlock
    omega
  have e2 : nextOf (setSize m b (z + 20 + zn)) n = nx := by
    rw [← hx]
    exact load32_store32_ne (by omega)
  have hnx : nx < 2^32 := by rw [← hx]; exact load32_lt _ _
  have e3 : nextOf (setNext (setSize m b (z + 20 + zn)) b nx) b = nx := load32_store32_of_lt hnx
  unfold mergeNext
  rw [hb]
  simp only [hfb, hfn, hz, hzn, e1, e2, e3, hn0, Bool.true_eq_false, or_self, if_false]
  rfl

theorem mergeNext_of_not {m : Mem} {b : Nat}
    (h : nextOf m b = 0 ∨ freeOf m b = false ∨ freeOf m (nextOf m b) = false) :
    mergeNext m b = m := if_pos h

section
variable {m : Mem} {E pv : Nat} {c d : Cell} {l : List Cell}

theorem mergeNext_rep_last (ht : Tiles sizeofBlock c.addr E [c]) (h : Rep m E pv [c]) :
    mergeNext m c.addr = m := mergeNext_of_not (.inl (h.1.next.trans (nextAddr_eq_headAddr ht)))

theorem mergeNext_rep_not (ht : Tiles sizeofBlock c.addr E (c :: d :: l))
    (h : Rep m E pv (c :: d :: l)) (hb : ¬ (c.free = true ∧ d.free = true)) :
    mergeNext m c.addr = m := by
  have hnx : nextOf m c.addr = d.addr := h.1.next.trans (nextAddr_eq_headAddr ht)
  refine mergeNext_of_not (.inr ?_)
  rw [hnx, h.1.free, h.2.1.free]
  cases hcf : c.free with
  | false => exact .inl rfl
  | true =>
    refine .inr ?_
    cases hdf : d.free with
    | false => rfl
    | true => exact absurd ⟨hcf, hdf⟩ hb

theorem mergeNext_rep_free (hE : E ≤ 2^32) (ht : Tiles sizeofBlock c.addr E (c :: d :: l))
    (h : Rep m E pv (c :: d :: l)) (hc : 0 < c.addr) (hb : c.free = true ∧ d.free = true) :
    mergeNext m c.addr
      = relinkAt (resize m c.addr (c.size + 20 + d.size) (headAddr l)) (headAddr l) c.addr := by
  obtain ⟨h1, h2, _⟩ := h
  have hd : d.addr = c.addr + 20 + c.size := ht.2.1
  have hdE : d.addr + 20 + d.size ≤ E := (ht.2.bounds d List.mem_cons_self).2
  have htd : Tiles sizeofBlock d.addr E (d :: l) := ⟨rfl, by rw [hd]; exact ht.2.2⟩
  have hnx : nextOf m c.addr = d.addr := h1.next.trans (nextAddr_eq_headAddr ht)
  exact mergeNext_eq hnx (by omega) (h1.free.trans hb.1)
    (h2.free.trans hb.2) h1.size h2.size (h2.next.trans (nextAddr_eq_headAddr htd)) (by omega)
    (by omega)

end

/-- `merge_next` is `joinHead` -/
theorem rep_mergeNext {m : Mem} {E pv : Nat} {c : Cell} {l : List Cell} (hE : E ≤ 2^32)
    (ht : Tiles sizeofBlock c.addr E (c :: l)) (h : Rep m E pv (c :: l)) (hc : 0 < c.addr) :
    Rep (mergeNext m c.addr) E pv (joinHead sizeofBlock (c :: l)) ∧
    ∀ x, ¬ InHeaders (c :: l) x → mergeNext m c.addr x = m x := by
  cases l with
  | nil =>
    rw [mergeNext_rep_last ht h]
    exact ⟨h, fun _ _ => rfl⟩
  | cons d l =>
    by_cases hb : c.free = true ∧ d.free = true
    · have hd : d.addr = c.addr + 20 + c.size := ht.2.1
      have hdE : d.addr + 20 + d.size ≤ E := (ht.2.bounds d List.mem_cons_self).2
      have htd : Tiles sizeofBlock d.addr E (d :: l) := ⟨rfl, by rw [hd]; exact ht.2.2⟩
      have htj : Tiles sizeofBlock c.addr E ({ c with size := c.size + 20 + d.size } :: l) := by
        refine ⟨rfl, ?_⟩
        have e1 : c.addr + sizeofBlock + (c.size + 20 + d.size) = d.addr + sizeofBlock + d.size := by
          rw [hd]
          unfold sizeofBlock
          omega
        show Tiles _ (c.addr + sizeofBlock + (c.size + 20 + d.size)) E l
        rw [e1]
        exact htd.2
      have hjoin : joinHead sizeofBlock (c :: d :: l)
          = { c with size := c.size + 20 + d.size } :: l := by
        rw [joinHead_of_free hb, ← hb.1]
        rfl
      rw [mergeNext_rep_free hE ht h hc hb, hjoin]
      obtain ⟨h1, h2, h3⟩ := h
      have hllow : ∀ x, InHeaders l x → d.addr + 20 ≤ x := by
        intro x hx
        have := (inHeaders_bounds htd.2 hx).1
        unfold sizeofBlock at this
        omega
      have hr := h1.resize (n := c.size + 20 + d.size) (by omega)
        (by rw [nextAddr_eq_headAddr htj]; exact headAddr_lt htd.2 hE)
      rw [nextAddr_eq_headAddr htj] at hr
      have hl1 : Rep (resize m c.addr (c.size + 20 + d.size) (headAddr l)) E d.addr l :=
        h3.congr fun x hx => resize_frame (by have := hllow x hx; omega)
      have hl2 := hl1.relinkAt c.addr htd.2 (by unfold sizeofBlock; omega) (by omega)
      refine ⟨⟨hr.congr fun x _ hx => relinkAt_frame fun hin => ?_, hl2⟩, fun x hx => ?_⟩
      · have := hllow x hin
        unfold sizeofBlock at hx
        simp only at hx
        omega
      · rw [inHeaders_cons, inHeaders_cons, not_or, not_or] at hx
        obtain ⟨hx1, _, hx3⟩ := hx
        unfold sizeofBlock at hx1
        rw [relinkAt_frame hx3, resize_frame (by omega)]
    · rw [mergeNext_rep_not ht h hb, joinHead_of_not hb]
      exact ⟨h, fun _ _ => rfl⟩

/-! ## the whole heap -/

structure Models (k : Kheap) (H : Heap) : Prop where
  head : k.heapHead = H.base
  start : k.heapStart = H.base
  rep : Rep k.mem (H.base + heapSize) 0 H.cells

theorem Heap.headAddr_cells (H : Heap) : headAddr H.cells = H.base := by
  have h := H.tiles
  cases hc : H.cells with
  | nil =>
    rw [hc] at h
    have h1 : H.base = H.base + heapSize := h
    unfold heapSize at h1
    omega
  | cons c l =>
    rw [hc] at h
    exact h.1

theorem Heap.size_add_lt (H : Heap) : ∀ c ∈ H.cells, c.size + 36 < 2^32 := by
  intro c hc
  have h := H.size_lt hc
  unfold heapSize sizeofBlock at h
  omega

theorem kheapInit_models (img : Image) (m : Mem) :
    Models (kheapInit img.kernelEnd m) (Heap.init img) := by
  have hb := img.base_fits
  unfold heapSize at hb
  refine ⟨rfl, rfl, ?_, trivial⟩
  have e1 : nextAddr (img.base + heapSize) ⟨img.base, heapSize - sizeofBlock, true⟩ = 0 := by
    refine if_pos ?_
    show img.base + 20 + (4 * 1024 * 1024 - 20) = img.base + 4 * 1024 * 1024
    omega
  have h := headerAt_writeHeader m (E := img.base + heapSize) 0
    (c := ⟨img.base, heapSize - sizeofBlock, true⟩)
    (by show heapSize - sizeofBlock < _; unfold heapSize sizeofBlock; omega)
    (by rw [e1]; omega) (by omega)
  rw [e1] at h
  exact h

theorem kmalloc_sim {k : Kheap} {H : Heap} (h : Models k H) (n : Nat) :
    ∃ k', kmalloc k n = .ok ((H.kmalloc n).1, k') ∧ Models k' (H.kmalloc n).2 ∧
      ∀ x, ¬ InHeaders (H.kmalloc n).2.cells x → k'.mem x = k.mem x := by
  have hloop := kmallocLoop_sim k (alignUp n 8) H.base_fits H.cells H.base 0 loopBound
    H.base_pos H.tiles h.rep H.size_add_lt H.length_lt
  rw [H.headAddr_cells] at hloop
  unfold kmalloc
  rw [h.head]
  rcases H.kmalloc_cases n with ⟨e1, hnone⟩ | ⟨a, l', ha, hn, e1⟩
  · rw [e1]
    refine ⟨k, ?_, h, fun _ _ => rfl⟩
    rcases hnone with hn | hnone
    · rw [if_pos hn]
    · rw [hnone] at hloop
      by_cases hn : n = 0
      · rw [if_pos hn]
      · rw [if_neg hn]
        exact hloop
  · rw [e1, if_neg hn]
    rw [ha] at hloop
    obtain ⟨m', h1, h2, h3⟩ := hloop
    exact ⟨_, h1, ⟨h.head, h.start, h2⟩, h3⟩

/-- the second half of `kfree`: joining a block with its predecessor -/
def joinPrev (m : Mem) (b : Nat) : Mem :=
  if prevOf m b ≠ 0 ∧ freeOf m (prevOf m b) = true then mergeNext m (prevOf m b) else m

theorem rep_joinPrev {m : Mem} {E s : Nat} {pre post : List Cell} {p c : Cell} (hE : E ≤ 2^32)
    (hs : 0 < s) (ht : Tiles sizeofBlock s E (pre ++ p :: c :: post))
    (h : Rep m E 0 (pre ++ p :: c :: post)) :
    Rep (joinPrev m c.addr) E 0 (pre ++ joinHead sizeofBlock (p :: c :: post)) ∧
    ∀ x, ¬ InHeaders (pre ++ p :: c :: post) x → joinPrev m c.addr x = m x := by
  obtain ⟨h1, h2⟩ := (rep_append _ _).mp h
  obtain ⟨hpre, htp⟩ := tiles_mid.mp ht
  have hpa : s ≤ p.addr := hpre.le
  have htp' : Tiles sizeofBlock p.addr E (p :: c :: post) := ⟨rfl, htp⟩
  have hprev : prevOf m c.addr = p.addr := h2.2.1.prev
  unfold joinPrev
  rw [hprev, h2.1.free]
  by_cases hpf : p.free = true
  · rw [if_pos ⟨by omega, hpf⟩]
    obtain ⟨h3, h4⟩ := rep_mergeNext hE htp' h2 (by omega)
    refine ⟨(rep_append _ _).mpr ⟨h1.congr fun x hx => h4 x fun hin => ?_, h3⟩, fun x hx => ?_⟩
    · have h5 := (inHeaders_bounds hpre hx).2
      have h6 := (inHeaders_bounds htp' hin).1
      omega
    · rw [inHeaders_append, not_or] at hx
      exact h4 x hx.2
  · rw [if_neg fun hb => hpf hb.2, joinHead_of_not fun hb => hpf hb.1]
    exact ⟨h, fun _ _ => rfl⟩

theorem inHeaders_joinHead {h x : Nat} {l : List Cell} (hx : InHeaders (joinHead h l) x) :
    InHeaders l x := by
  rcases l with _ | ⟨c, _ | ⟨d, l⟩⟩
  · exact hx
  · exact hx
  · by_cases hb : c.free = true ∧ d.free = true
    · rw [joinHead_of_free hb, inHeaders_cons] at hx
      rw [inHeaders_cons, inHeaders_cons]
      exact hx.imp id .inr
    · rwa [joinHead_of_not hb] at hx

theorem Rep.setFree {m : Mem} {E pv : Nat} {c : Cell} {l : List Cell} (h : Rep m E pv (c :: l))
    (ht : Tiles sizeofBlock (c.stop sizeofBlock) E l) (v : Bool) :
    Rep (setFree m c.addr v) E pv ({ c with free := v } :: l) := by
  refine ⟨h.1.setFree v, h.2.congr fun x hx => setFree_apply_ne ?_⟩
  have := (inHeaders_bounds ht hx).1
  unfold Cell.stop sizeofBlock at this
  omega

/-- the first block has no predecessor to be joined with -/
theorem joinPrev_first {m : Mem} {E : Nat} {c : Cell} {l : List Cell} (h : Rep m E 0 (c :: l)) :
    joinPrev m c.addr = m := if_neg fun hb => hb.1 h.1.prev

/-- the first half of `kfree`: a block is marked free and joined with its successor -/
theorem rep_freeMerge {m : Mem} {E s : Nat} {pre post : List Cell} {c : Cell} (hE : E ≤ 2^32)
    (hs : 0 < s) (ht : Tiles sizeofBlock s E (pre ++ c :: post)) (h : Rep m E 0 (pre ++ c :: post)) :
    Rep (mergeNext (setFree m c.addr true) c.addr) E 0
      (pre ++ joinHead sizeofBlock ({ c with free := true } :: post)) ∧
    ∀ x, ¬ InHeaders (c :: post) x → mergeNext (setFree m c.addr true) c.addr x = m x := by
  obtain ⟨hr1, hr2⟩ := (rep_append _ _).mp h
  obtain ⟨htpre, htpost⟩ := tiles_mid.mp ht
  have hcs : s ≤ c.addr := htpre.le
  have htc : Tiles sizeofBlock c.addr E ({ c with free := true } :: post) := ⟨rfl, htpost⟩
  -- the block is marked free
  have h1 := hr2.setFree htpost true
  -- it is joined with its successor
  obtain ⟨h2, hf2⟩ := rep_mergeNext hE htc h1 (by show 0 < c.addr; omega)
  have hf1 : ∀ x, ¬ InHeaders (c :: post) x →
      mergeNext (setFree m c.addr true) c.addr x = m x := by
    intro x hx
    rw [inHeaders_cons, not_or] at hx
    have hx1 := hx.1
    unfold sizeofBlock at hx1
    exact (hf2 x (by rw [inHeaders_cons, not_or]; exact hx)).trans (setFree_apply_ne (by omega))
  refine ⟨(rep_append _ _).mpr ⟨hr1.congr fun x hx => hf1 x fun hin => ?_, h2⟩, hf1⟩
  have h5 := (inHeaders_bounds htpre hx).2
  have htc' : Tiles sizeofBlock c.addr E (c :: post) := ⟨rfl, htpost⟩
  have h6 := (inHeaders_bounds htc' hin).1
  omega

/-- marking a block free, joining it with its successor and then with its predecessor is
`release` -/
theorem rep_release {m : Mem} {E s : Nat} {pre post : List Cell} {c : Cell} (hE : E ≤ 2^32)
    (hs : 0 < s) (ht : Tiles sizeofBlock s E (pre ++ c :: post))
    (hl : Coalesced (pre ++ c :: post)) (h : Rep m E 0 (pre ++ c :: post)) :
    Rep (joinPrev (mergeNext (setFree m c.addr true) c.addr) c.addr) E 0
      (release sizeofBlock c.addr (pre ++ c :: post)) ∧
    ∀ x, ¬ InHeaders (pre ++ c :: post) x →
      joinPrev (mergeNext (setFree m c.addr true) c.addr) c.addr x = m x := by
  obtain ⟨htpre, htpost⟩ := tiles_mid.mp ht
  have htc : Tiles sizeofBlock c.addr E ({ c with free := true } :: post) := ⟨rfl, htpost⟩
  obtain ⟨h3, hf1⟩ := rep_freeMerge hE hs ht h
  have ht3 := (tiles_append _ _).mpr ⟨c.addr, htpre, joinHead_tiles htc⟩
  obtain ⟨d, l', hj, hda, _⟩ := joinHead_cons (h := sizeofBlock) { c with free := true } post
  have hda' : d.addr = c.addr := hda
  generalize mergeNext (setFree m c.addr true) c.addr = m2 at *
  -- it is joined with its predecessor
  rcases List.eq_nil_or_concat pre with rfl | ⟨pre', p, rfl⟩
  · rw [List.nil_append] at h3
    rw [List.nil_append, release_head]
    have e1 : joinPrev m2 c.addr = m2 := by
      rw [← hda']
      exact joinPrev_first (hj ▸ h3)
    rw [e1]
    exact ⟨h3, hf1⟩
  · rw [List.concat_eq_append] at *
    rw [List.append_assoc, List.singleton_append] at *
    have hne : ∀ x ∈ pre' ++ [p], x.addr ≠ c.addr := by
      intro x hx e1
      have h3 := (htpre.bounds x hx).2
      unfold Cell.stop sizeofBlock at h3
      omega
    rw [release_mid hl hne]
    rw [hj] at h3 ht3
    obtain ⟨h4, hf4⟩ := rep_joinPrev hE hs ht3 h3
    rw [hda'] at h4 hf4
    rw [hj]
    refine ⟨h4, fun x hx => ?_⟩
    rw [inHeaders_append, inHeaders_cons, not_or, not_or] at hx
    obtain ⟨hx1, hx2, hx3⟩ := hx
    rw [hf4 x ?_, hf1 x hx3]
    rw [inHeaders_append, inHeaders_cons, not_or, not_or]
    refine ⟨hx1, hx2, fun hin => hx3 ?_⟩
    rw [← hj] at hin
    have h5 := inHeaders_joinHead hin
    rw [inHeaders_cons] at h5 ⊢
    exact h5

/-- the stores of `kfree` on a block in use, with the tests done -/
theorem kfree_eq {k : Kheap} {H : Heap} (h : Models k H) {c : Cell} (hc : c ∈ used H.cells) {p : Nat}
    (hp : c.addr + sizeofBlock = p) :
    kfree k p = .ok { k with
      mem := joinPrev (mergeNext (setFree k.mem c.addr true) c.addr) c.addr } := by
  obtain ⟨hc1, hc2⟩ := mem_used.mp hc
  have hE := H.base_fits
  have hcpos := H.addr_pos hc1
  have hstop := (H.tiles.bounds c hc1).2
  have hb : sub32 p sizeofBlock = c.addr := by
    unfold sub32 sizeofBlock at *
    unfold Cell.stop at hstop
    omega
  obtain ⟨pv, hhdr⟩ := rep_mem h.rep hc1
  unfold kfree
  rw [if_neg (by omega), hb, if_neg (not_not.mpr hhdr.magic), hhdr.free, hc2]
  rfl

theorem kfree_sim {k : Kheap} {H : Heap} (h : Models k H) {p : Nat} (hp : p ∈ H.ptrs) :
    ∃ k' H', kfree k p = .ok k' ∧ H.kfree p = .ok H' ∧ Models k' H' ∧
      ∀ x, ¬ InHeaders H.cells x → k'.mem x = k.mem x := by
  obtain ⟨c, hc, e1, hfree, _⟩ := H.kfree_spec hp
  obtain ⟨pre, post, hcells⟩ := List.append_of_mem (mem_used.mp hc).1
  have ht := H.tiles
  have hrep := h.rep
  have hco := H.coalesced
  rw [hcells] at ht hrep hco
  obtain ⟨h1, h2⟩ := rep_release H.base_fits.le H.base_pos ht hco hrep
  rw [← hcells] at h1 h2
  have hk := kfree_eq h hc e1
  -- what the stores are does not matter any more
  generalize joinPrev (mergeNext (setFree k.mem c.addr true) c.addr) c.addr = m at hk h1 h2
  exact ⟨_, _, hk, hfree, ⟨h.head, h.start, h1⟩, h2⟩

end Raptor
