import RaptorKernel.Drivers.Keyboard

/-!
# lib/console.c: input

`console_getchar` returns the next byte of the keyboard, or of the serial line, where the arrow keys
arrive as the escape sequences `ESC [ A` and `ESC [ B`.

* `serialRead`, `serialReadSoon`, `consoleGetchar`   the code;
* `Getchars`             what the calls return until nothing arrives any more;
* `Item`                 a byte, or an escape sequence with parameters and a final byte;
* `getchars_items`       what is returned for any sequence of items;
* `serial_decoding_iff`  when that is what the items mean.
-/

namespace Raptor

def keyCode (c : Char) : Int := c.toNat

def esc : UInt8 := 0x1b

/-- What will arrive on the serial line: every byte with the number of polls that find the line
empty before it. -/
abbrev SerialLine := List (Nat × UInt8)

def serialRead : SerialLine → Int × SerialLine
  | [] => (-1, [])
  | (0, b) :: l => (b.toNat, l)
  | (g + 1, b) :: l => (-1, (g, b) :: l)

def soonSpins : Nat := 100000

/-- the loop of `serial_read_soon`, with `n` polls to go -/
def serialPoll : Nat → SerialLine → Int × SerialLine
  | 0, l => (-1, l)
  | n + 1, l =>
    let r := serialRead l
    if 0 ≤ r.1 then r else serialPoll n r.2

def serialReadSoon (l : SerialLine) : Int × SerialLine := serialPoll soonSpins l

/-- where the input comes from -/
structure ConsoleIn where
  kbd : Keyboard
  line : SerialLine

/-- the branch of `console_getchar` that asks the serial line -/
def serialChar (l : SerialLine) : Int × SerialLine :=
  let (c, l) := serialRead l
  if 0 ≤ c then
    if c = keyCode '\r' then (keyCode '\n', l)
    else if c = 0x7f then (8, l)
    else if c = 0x1b then
      let (c, l) := serialReadSoon l
      if c = keyCode '[' then
        let (c, l) := serialReadSoon l
        (if c = keyCode 'A' then (keyUp : Int) else if c = keyCode 'B' then keyDown else -1, l)
      else (-1, l)
    else (c, l)
  else (c, l)

/-- one round of the loop in `console_getchar`, up to the test of `c` -/
def getcharRound (s : ConsoleIn) : Int × ConsoleIn :=
  let (c, kbd) := keyboardRead s.kbd
  if c < 0 then
    let (c, line) := serialChar s.line
    (c, ⟨kbd, line⟩)
  else (c, ⟨kbd, s.line⟩)

/-- the number of polls after which the line stays empty -/
def polls (l : SerialLine) : Nat := (l.map fun x => x.1 + 1).sum

/-- `console_getchar`: a round without a character waits for an interrupt and starts over.  If it
did not get the serial line on either, nothing arrives any more and the loop does not end. -/
def consoleGetchar (s : ConsoleIn) : Except Fault (Int × ConsoleIn) :=
  let r := getcharRound s
  if 0 ≤ r.1 then .ok r
  else if polls r.2.line < polls s.line then consoleGetchar r.2
  else .error .diverges
termination_by polls s.line

/-- what successive calls of `console_getchar` return, until one does not return -/
inductive Getchars : ConsoleIn → List Int → Prop
  | blocked {s : ConsoleIn} (h : consoleGetchar s = .error .diverges) : Getchars s []
  | next {s t : ConsoleIn} {c : Int} {cs : List Int} (h : consoleGetchar s = .ok (c, t))
      (r : Getchars t cs) : Getchars s (c :: cs)

theorem Getchars.unique {s : ConsoleIn} {cs ds : List Int} (h : Getchars s cs) (h' : Getchars s ds) :
    cs = ds := by
  induction h generalizing ds with
  | blocked h =>
    cases h' with
    | blocked _ => rfl
    | next h' _ =>
      rw [h] at h'
      cases h'
  | next h _ ih =>
    cases h' with
    | blocked h' =>
      rw [h] at h'
      cases h'
    | next h' r =>
      rw [h] at h'
      cases h'
      rw [ih r]

theorem Getchars.congr {s t : ConsoleIn} {cs : List Int} (h : consoleGetchar s = consoleGetchar t)
    (r : Getchars t cs) : Getchars s cs := by
  cases r with
  | blocked ht => exact .blocked (h.trans ht)
  | next ht r => exact .next (h.trans ht) r

/-! ## one round -/

theorem serialRead_polls (l : SerialLine) : polls (serialRead l).2 < polls l ∨ l = [] := by
  match l with
  | [] => exact .inr rfl
  | (0, b) :: l =>
    left
    simp [serialRead, polls]
  | (g + 1, b) :: l =>
    left
    simp [serialRead, polls]

theorem serialPoll_polls (n : Nat) (l : SerialLine) : polls (serialPoll n l).2 ≤ polls l := by
  induction n generalizing l with
  | zero => exact le_refl _
  | succ n ih =>
    have hle : polls (serialRead l).2 ≤ polls l := by
      obtain h | rfl := serialRead_polls l
      · exact h.le
      · exact le_refl _
    unfold serialPoll
    dsimp only
    split
    · exact hle
    · exact le_trans (ih _) hle

/-- a byte that is ready soon enough is read -/
theorem serialPoll_ready {n g : Nat} (hg : g < n) (b : UInt8) (l : SerialLine) :
    serialPoll n ((g, b) :: l) = ((b.toNat : Int), l) := by
  induction n generalizing g with
  | zero => omega
  | succ n ih =>
    unfold serialPoll
    cases g with
    | zero => simp [serialRead]
    | succ g => simpa [serialRead] using ih (by omega)

theorem serialReadSoon_ready {g : Nat} (hg : g < soonSpins) (b : UInt8) (l : SerialLine) :
    serialReadSoon ((g, b) :: l) = ((b.toNat : Int), l) := serialPoll_ready hg b l

theorem serialChar_polls (l : SerialLine) : polls (serialChar l).2 < polls l ∨ l = [] := by
  obtain h | h := serialRead_polls l
  · left
    have h1 := serialPoll_polls soonSpins (serialRead l).2
    have h2 := serialPoll_polls soonSpins (serialReadSoon (serialRead l).2).2
    refine lt_of_le_of_lt ?_ h
    unfold serialChar
    dsimp only
    split_ifs
    · exact le_refl _
    · exact le_refl _
    · exact le_trans h2 h1
    · exact le_trans h2 h1
    · exact le_trans h2 h1
    · exact h1
    · exact le_refl _
    · exact le_refl _
  · exact .inr h

/-! ## one call, the keyboard buffer being empty -/

section
variable {k : Keyboard} (hk : k.head = k.tail)
include hk

theorem getcharRound_serial (l : SerialLine) :
    getcharRound ⟨k, l⟩ = ((serialChar l).1, ⟨k, (serialChar l).2⟩) := by
  have h : keyboardRead k = (-1, k) := if_pos hk
  unfold getcharRound
  rw [h]
  rfl

theorem consoleGetchar_ret {l t : SerialLine} {c : Int} (h : serialChar l = (c, t)) (hc : 0 ≤ c) :
    consoleGetchar ⟨k, l⟩ = .ok (c, ⟨k, t⟩) := by
  rw [consoleGetchar, getcharRound_serial hk, h]
  exact if_pos hc

theorem consoleGetchar_again {l t : SerialLine} (h : serialChar l = (-1, t)) (hl : l ≠ []) :
    consoleGetchar ⟨k, l⟩ = consoleGetchar ⟨k, t⟩ := by
  have hlt : polls t < polls l := by
    obtain h' | h' := serialChar_polls l
    · rw [h] at h'
      exact h'
    · exact absurd h' hl
  rw [consoleGetchar, getcharRound_serial hk, h]
  exact if_pos hlt

theorem consoleGetchar_nil : consoleGetchar ⟨k, []⟩ = .error .diverges := by
  rw [consoleGetchar, getcharRound_serial hk]
  rfl

theorem consoleGetchar_wait (g : Nat) (b : UInt8) (l : SerialLine) :
    consoleGetchar ⟨k, (g, b) :: l⟩ = consoleGetchar ⟨k, (0, b) :: l⟩ := by
  induction g with
  | zero => rfl
  | succ g ih =>
    rw [← ih]
    exact consoleGetchar_again hk rfl (List.cons_ne_nil _ _)

end

/-- the value of a byte that is not ESC -/
def plainChar (b : UInt8) : Int :=
  if b = '\r'.toUInt8 then keyCode '\n' else if b = 0x7f then 8 else b.toNat

theorem serialChar_plain {b : UInt8} (hb : b ≠ esc) (l : SerialLine) :
    serialChar ((0, b) :: l) = (plainChar b, l) := by
  have hnat : ∀ n : UInt8, ((b.toNat : Int) = n.toNat ↔ b = n) := by
    intro n
    rw [Int.natCast_inj, UInt8.toNat_inj]
  unfold serialChar plainChar serialRead
  dsimp only
  rw [if_pos (Int.natCast_nonneg _)]
  have h1 : ((b.toNat : Int) = keyCode '\r' ↔ b = '\r'.toUInt8) := hnat '\r'.toUInt8
  have h2 : ((b.toNat : Int) = 0x7f ↔ b = 0x7f) := hnat 0x7f
  have h3 : ((b.toNat : Int) = 0x1b ↔ b = esc) := hnat 0x1b
  simp only [h1, h2, h3, if_neg hb]
  split_ifs <;> rfl

/-- the value of `ESC [` and one more byte -/
def arrowKey (f : UInt8) : Int :=
  if f = 'A'.toUInt8 then keyUp else if f = 'B'.toUInt8 then keyDown else -1

theorem serialChar_esc {g g' : Nat} (hg : g < soonSpins) (hg' : g' < soonSpins) (f : UInt8)
    (l : SerialLine) :
    serialChar ((0, esc) :: (g, '['.toUInt8) :: (g', f) :: l) = (arrowKey f, l) := by
  have hnat : ∀ n : UInt8, ((f.toNat : Int) = n.toNat ↔ f = n) := by
    intro n
    rw [Int.natCast_inj, UInt8.toNat_inj]
  have h1 : ((f.toNat : Int) = keyCode 'A' ↔ f = 'A'.toUInt8) := hnat 'A'.toUInt8
  have h2 : ((f.toNat : Int) = keyCode 'B' ↔ f = 'B'.toUInt8) := hnat 'B'.toUInt8
  have hesc : serialRead ((0, esc) :: (g, '['.toUInt8) :: (g', f) :: l) =
      (0x1b, (g, '['.toUInt8) :: (g', f) :: l) := rfl
  have hbracket : serialReadSoon ((g, '['.toUInt8) :: (g', f) :: l) = (keyCode '[', (g', f) :: l) :=
    serialReadSoon_ready hg _ _
  unfold serialChar arrowKey
  rw [hesc]
  simp only [hbracket, serialReadSoon_ready hg', h1, h2]
  rfl

/-! ## items -/

/-- a byte other than ESC, or `ESC [`, parameter bytes and a final byte -/
inductive Item where
  | byte (b : UInt8) (h : b ≠ esc)
  | csi (params : List UInt8) (final : UInt8) (hp : ∀ p ∈ params, 0x20 ≤ p ∧ p ≤ 0x3f)
      (hf : 0x40 ≤ final ∧ final ≤ 0x7e)

namespace Item

def bytes : Item → List UInt8
  | byte b _ => [b]
  | csi params final _ _ => esc :: '['.toUInt8 :: (params ++ [final])

/-- what an item means -/
def meaning : Item → List Int
  | byte b _ => [plainChar b]
  | csi [] final _ _ => if 0 ≤ arrowKey final then [arrowKey final] else []
  | csi (_ :: _) _ _ _ => []

/-- what is returned for an item: `console_getchar` takes the first parameter for the final byte -/
def read : Item → List Int
  | csi (_ :: params) final _ _ => (params ++ [final]).map plainChar
  | it => it.meaning

/-- the sequence `ESC [ f` -/
def isKey (f : UInt8) : Item → Bool
  | csi [] final _ _ => final = f
  | _ => false

def isByte (c : Nat) : Item → Bool
  | byte b _ => b.toNat = c
  | _ => false

def params : Item → List UInt8
  | byte _ _ => []
  | csi params _ _ _ => params

end Item

/-- The stream `items` is decoded to `cs`: the values are those the items mean, and the codes of the
two keys appear for their sequences only. -/
structure Decoded (items : List Item) (cs : List Int) : Prop where
  values : cs = items.flatMap Item.meaning
  up : cs.count (keyUp : Int) = items.countP (Item.isKey 'A'.toUInt8)
  down : cs.count (keyDown : Int) = items.countP (Item.isKey 'B'.toUInt8)

/-- `items` arrive on the line, every byte before `serial_read_soon` gives up -/
structure BackToBack (items : List Item) (l : SerialLine) : Prop where
  bytes : l.map Prod.snd = items.flatMap Item.bytes
  soon : ∀ x ∈ l, x.1 < soonSpins

theorem arrowKey_neg {f : UInt8} : ¬ 0 ≤ arrowKey f → arrowKey f = -1 := by
  unfold arrowKey
  split_ifs
  · exact fun h => absurd (by decide) h
  · exact fun h => absurd (by decide) h
  · exact fun _ => rfl

/-- no parameter byte is taken for an arrow -/
theorem arrowKey_param {p : UInt8} (h : p ≤ 0x3f) : arrowKey p = -1 := by
  have hA : p ≠ 'A'.toUInt8 := by
    intro e
    rw [e] at h
    exact absurd h (by decide)
  have hB : p ≠ 'B'.toUInt8 := by
    intro e
    rw [e] at h
    exact absurd h (by decide)
  unfold arrowKey
  rw [if_neg hA, if_neg hB]

theorem Item.rest_ne_esc {params : List UInt8} {final : UInt8}
    (hp : ∀ p ∈ params, 0x20 ≤ p ∧ p ≤ 0x3f) (hf : 0x40 ≤ final ∧ final ≤ 0x7e) :
    ∀ b ∈ params ++ [final], b ≠ esc := by
  intro b hb e
  rw [e] at hb
  rcases List.mem_append.mp hb with hb | hb
  · exact absurd (hp esc hb).1 (by decide)
  · rw [← List.mem_singleton.mp hb] at hf
    exact absurd hf.1 (by decide)

theorem plainChar_nonneg (b : UInt8) : 0 ≤ plainChar b := by
  unfold plainChar
  split_ifs
  · decide
  · decide
  · exact Int.natCast_nonneg _

section
variable {k : Keyboard} (hk : k.head = k.tail)
include hk

/-- plain bytes are returned one by one, however long each takes -/
theorem getchars_plain {bs : List UInt8} (hb : ∀ b ∈ bs, b ≠ esc) {l t : SerialLine}
    (hl : l.map Prod.snd = bs) {cs : List Int} (r : Getchars ⟨k, t⟩ cs) :
    Getchars ⟨k, l ++ t⟩ (bs.map plainChar ++ cs) := by
  induction l generalizing bs with
  | nil =>
    cases hl
    exact r
  | cons x l ih =>
    obtain ⟨g, b⟩ := x
    cases hl
    have hne : b ≠ esc := hb b List.mem_cons_self
    refine Getchars.congr (consoleGetchar_wait hk g b _) ?_
    apply Getchars.next
    · exact consoleGetchar_ret hk (serialChar_plain hne _) (plainChar_nonneg b)
    · exact ih (fun c hc => hb c (List.mem_cons_of_mem _ hc)) rfl

/-- `ESC [ f` is a key or nothing -/
theorem getchars_esc {l : SerialLine} (f : UInt8) (g₀ : Nat) {g₁ g₂ : Nat} (h₁ : g₁ < soonSpins)
    (h₂ : g₂ < soonSpins) {cs : List Int} (r : Getchars ⟨k, l⟩ cs) :
    Getchars ⟨k, (g₀, esc) :: (g₁, '['.toUInt8) :: (g₂, f) :: l⟩
      ((if 0 ≤ arrowKey f then [arrowKey f] else []) ++ cs) := by
  refine Getchars.congr (consoleGetchar_wait hk g₀ esc _) ?_
  have hchar := serialChar_esc h₁ h₂ f l
  by_cases hf : 0 ≤ arrowKey f
  · rw [if_pos hf]
    exact .next (consoleGetchar_ret hk hchar hf) r
  · rw [if_neg hf]
    rw [arrowKey_neg hf] at hchar
    exact Getchars.congr (consoleGetchar_again hk hchar (List.cons_ne_nil _ _)) r

theorem getchars_item (it : Item) {l t : SerialLine} (hl : l.map Prod.snd = it.bytes)
    (hg : ∀ x ∈ l, x.1 < soonSpins) {cs : List Int} (r : Getchars ⟨k, t⟩ cs) :
    Getchars ⟨k, l ++ t⟩ (it.read ++ cs) := by
  cases it with
  | byte b hb => exact getchars_plain hk (List.forall_mem_singleton.mpr hb) hl r
  | csi params final hp hf =>
    obtain ⟨⟨g₀, _⟩, l, rfl, rfl, hl₁⟩ := List.map_eq_cons_iff.mp hl
    obtain ⟨⟨g₁, _⟩, l, rfl, rfl, hl₂⟩ := List.map_eq_cons_iff.mp hl₁
    have h₁ : g₁ < soonSpins := hg (g₁, '['.toUInt8) (by simp)
    cases params with
    | nil =>
      obtain ⟨⟨g₂, f⟩, l, rfl, rfl, hl₃⟩ := List.map_eq_cons_iff.mp hl₂
      cases List.map_eq_nil_iff.mp hl₃
      exact getchars_esc hk f g₀ h₁ (hg (g₂, f) (by simp)) r
    | cons p ps =>
      obtain ⟨⟨g₂, f⟩, l, rfl, rfl, hl₃⟩ := List.map_eq_cons_iff.mp hl₂
      -- the rest of the sequence is taken for plain bytes
      have hrest := getchars_plain hk (Item.rest_ne_esc (List.forall_mem_cons.mp hp).2 hf) hl₃ r
      have h := getchars_esc hk f g₀ h₁ (hg (g₂, f) (by simp)) hrest
      rw [arrowKey_param (hp f List.mem_cons_self).2] at h
      exact h

/-- What the calls return for a sequence of items, until nothing arrives any more. -/
theorem getchars_items {items : List Item} {l : SerialLine} (h : BackToBack items l) :
    Getchars ⟨k, l⟩ (items.flatMap Item.read) := by
  obtain ⟨hb, hg⟩ := h
  induction items generalizing l with
  | nil =>
    rw [List.map_eq_nil_iff.mp hb]
    exact .blocked (consoleGetchar_nil hk)
  | cons it items ih =>
    obtain ⟨l₁, l₂, rfl, h₁, h₂⟩ := List.map_eq_append_iff.mp hb
    exact getchars_item hk it h₁ (fun x hx => hg x (List.mem_append_left _ hx))
      (ih h₂ fun x hx => hg x (List.mem_append_right _ hx))

end

/-! ## when the stream is decoded -/

/-- what an escape sequence leaks: as many bytes as it has parameters -/
theorem Item.read_length (it : Item) : it.read.length = it.meaning.length + it.params.length := by
  match it with
  | byte b h => rfl
  | csi [] f hp hf => rfl
  | csi (p :: ps) f hp hf => simp [Item.read, Item.meaning, Item.params]

theorem Item.read_eq {it : Item} (h : it.params = []) : it.read = it.meaning := by
  match it, h with
  | byte b _, _ => rfl
  | csi [] f _ _, _ => rfl

theorem read_eq_iff (items : List Item) :
    items.flatMap Item.read = items.flatMap Item.meaning ↔ ∀ it ∈ items, it.params = [] := by
  refine ⟨fun h => ?_, fun h => List.flatMap_congr fun it hit => Item.read_eq (h it hit)⟩
  have hlen := congrArg List.length h
  simp only [List.length_flatMap, Item.read_length, List.sum_map_add] at hlen
  have hzero : (items.map fun it => it.params.length).sum = 0 := by omega
  intro it hit
  exact List.length_eq_zero_iff.mp
    (List.sum_eq_zero_iff_forall_eq_nat.mp hzero _ (List.mem_map_of_mem hit))

/-- the two keys: their code, and the final byte of their sequence -/
def ArrowCode (key : Nat) (f : UInt8) : Prop :=
  key = keyUp ∧ f = 'A'.toUInt8 ∨ key = keyDown ∧ f = 'B'.toUInt8

theorem ArrowCode.bounds {key : Nat} {f : UInt8} (h : ArrowCode key f) : 0x80 ≤ key := by
  obtain ⟨rfl, _⟩ | ⟨rfl, _⟩ := h
  · exact le_refl _
  · exact Nat.le_succ _

theorem plainChar_eq_key {key : Nat} (h : 0x80 ≤ key) (b : UInt8) :
    plainChar b = key ↔ b.toNat = key := by
  unfold plainChar
  split_ifs with hr hd
  · have hn : keyCode '\n' = 10 := rfl
    have hb : b.toNat = 13 := congrArg UInt8.toNat hr
    omega
  · have hb : b.toNat = 0x7f := congrArg UInt8.toNat hd
    omega
  · exact Int.natCast_inj

theorem arrowKey_eq_key {key : Nat} {f : UInt8} (h : ArrowCode key f) (g : UInt8) :
    arrowKey g = key ↔ g = f := by
  have hu : keyUp = 0x80 := rfl
  have hd : keyDown = 0x81 := rfl
  have hne : 'A'.toUInt8 ≠ 'B'.toUInt8 := by decide
  unfold arrowKey
  obtain ⟨rfl, rfl⟩ | ⟨rfl, rfl⟩ := h
  · split_ifs with hA hB
    · simp only [hA]
    · simp only [hB, hne.symm, iff_false]
      omega
    · simp only [hA]
  · split_ifs with hA hB
    · simp only [hA, hne, iff_false]
      omega
    · simp only [hB]
    · simp only [hB]

/-- the code of a key is read for its sequence, and for the byte of that value -/
theorem Item.count_meaning {key : Nat} {f : UInt8} (h : ArrowCode key f) (it : Item) :
    it.meaning.count (key : Int) = (if it.isKey f then 1 else 0) + if it.isByte key then 1 else 0 := by
  match it with
  | byte b _ =>
    have hb := plainChar_eq_key h.bounds b
    show List.count (key : Int) [plainChar b] = 0 + if decide (b.toNat = key) then 1 else 0
    rw [List.count_singleton, Nat.zero_add]
    simp only [beq_iff_eq, hb, decide_eq_true_eq]
  | csi (_ :: _) _ _ _ => rfl
  | csi [] g _ _ =>
    have hg := arrowKey_eq_key h g
    show List.count (key : Int) (if 0 ≤ arrowKey g then [arrowKey g] else []) =
      (if decide (g = f) then 1 else 0) + 0
    by_cases hn : 0 ≤ arrowKey g
    · rw [if_pos hn, List.count_singleton, Nat.add_zero]
      simp only [beq_iff_eq, hg, decide_eq_true_eq]
    · have hne : g ≠ f := by
        intro e
        rw [hg.mpr e] at hn
        exact hn (Int.natCast_nonneg _)
      rw [if_neg hn, decide_eq_false hne]
      rfl

theorem count_key {key : Nat} {f : UInt8} (hkey : ArrowCode key f) (items : List Item) :
    (items.flatMap Item.meaning).count (key : Int) =
      items.countP (Item.isKey f) + items.countP (Item.isByte key) := by
  induction items with
  | nil => rfl
  | cons it items ih =>
    rw [List.flatMap_cons, List.count_append, ih, Item.count_meaning hkey, List.countP_cons,
      List.countP_cons]
    omega

/-- The stream is decoded exactly if no sequence has parameters and no byte is the code of a key. -/
theorem serial_decoding_iff {k : Keyboard} (hk : k.head = k.tail) {items : List Item}
    {l : SerialLine} (h : BackToBack items l) :
    (∃ cs, Getchars ⟨k, l⟩ cs ∧ Decoded items cs) ↔
      ∀ it ∈ items, it.params = [] ∧ ¬ it.isByte keyUp ∧ ¬ it.isByte keyDown := by
  have hread := getchars_items hk h
  have hup := count_key (.inl ⟨rfl, rfl⟩) items
  have hdown := count_key (.inr ⟨rfl, rfl⟩) items
  constructor
  · rintro ⟨cs, hcs, hval, hcup, hcdown⟩
    have hparams := (read_eq_iff items).mp ((hread.unique hcs).trans hval)
    rw [hval, hup] at hcup
    rw [hval, hdown] at hcdown
    intro it hit
    exact ⟨hparams it hit, List.countP_eq_zero.mp (by omega) it hit,
      List.countP_eq_zero.mp (by omega) it hit⟩
  · intro hall
    have hval := (read_eq_iff items).mpr fun it hit => (hall it hit).1
    have hnup : items.countP (Item.isByte keyUp) = 0 :=
      List.countP_eq_zero.mpr fun it hit => (hall it hit).2.1
    have hndown : items.countP (Item.isByte keyDown) = 0 :=
      List.countP_eq_zero.mpr fun it hit => (hall it hit).2.2
    refine ⟨_, hread, hval, ?_, ?_⟩
    · rw [hval, hup, hnup, Nat.add_zero]
    · rw [hval, hdown, hndown, Nat.add_zero]

/-- `l`, arrow up, return -/
theorem serial_decoding_iff_up :
    ∃ cs, Getchars ⟨.init, [(3, 'l'.toUInt8), (0, esc), (7, '['.toUInt8), (0, 'A'.toUInt8),
        (9, '\r'.toUInt8)]⟩ cs ∧
      Decoded [.byte 'l'.toUInt8 (by decide), .csi [] 'A'.toUInt8 (by simp) (by decide),
        .byte '\r'.toUInt8 (by decide)] cs := by
  refine (serial_decoding_iff rfl ⟨rfl, ?_⟩).mpr ?_
  · simp [soonSpins]
  · simp only [List.forall_mem_cons]
    decide +kernel

/-- the sequence of arrow up with Ctrl, `ESC [ 1 ; 5 A` -/
def ctrlUp : Item := .csi (lit "1;5") 'A'.toUInt8 (by decide +kernel) (by decide)

/-- It leaks its last three bytes. -/
theorem serial_decoding_ctrl_up :
    BackToBack [ctrlUp] (ctrlUp.bytes.map fun b => (0, b)) ∧
      Getchars ⟨.init, ctrlUp.bytes.map fun b => (0, b)⟩ [keyCode ';', keyCode '5', keyCode 'A'] ∧
      ¬ ∃ cs, Getchars ⟨.init, ctrlUp.bytes.map fun b => (0, b)⟩ cs ∧ Decoded [ctrlUp] cs := by
  have hb : BackToBack [ctrlUp] (ctrlUp.bytes.map fun b => (0, b)) := by
    refine ⟨by decide +kernel, ?_⟩
    intro x hx
    obtain ⟨b, _, rfl⟩ := List.mem_map.mp hx
    exact Nat.succ_pos _
  have hread := getchars_items (k := .init) rfl hb
  have hkeys : [ctrlUp].flatMap Item.read = [keyCode ';', keyCode '5', keyCode 'A'] := by
    decide +kernel
  rw [hkeys] at hread
  refine ⟨hb, hread, ?_⟩
  rintro ⟨cs, hcs, hval, _⟩
  rw [← hread.unique hcs] at hval
  exact absurd hval (by decide +kernel)

end Raptor
