import RaptorKernel.Shell.ShellRuns
import RaptorKernel.Lib.Numbers

/-!
# hexdump

* `hexFields`, `decodeLine`   what a reader makes of a line: the words between the offset and the text;
* `HexLine`         a line shows a row of bytes;
* `hexLine`         a line as `hexdump` prints it, without the newline;
* `hexLoop_eq`      the loop prints one for every 16 bytes;
* `hexdump_decodes`   a dump can be read back.
-/

namespace Raptor
open Mem

/-! ## reading a dump -/

def hexDigits : List UInt8 := lit "0123456789abcdef"

/-- the words of a text -/
def blankWords (t : List UInt8) : List (List UInt8) := (t.splitOn space).filter (· ≠ [])

/-- the column of the text in a line, behind a bar -/
def asciiColumn : Nat := 61

/-- the fields between the offset and the text -/
def hexFields (line : List UInt8) : List (List UInt8) := blankWords ((line.take (asciiColumn - 1)).drop 8)

def decodeLine (line : List UInt8) : List UInt8 :=
  (hexFields line).map fun f => UInt8.ofNat (numVal hexDigits f)

/-- a printable byte, or a dot -/
def asciiOf (c : UInt8) : UInt8 := if 0x20 ≤ c ∧ c ≤ 0x7e then c else '.'.toUInt8

/-- the line at offset `off` shows the bytes `row` -/
structure HexLine (off : Nat) (row line : List UInt8) : Prop where
  offset : (line.take 8).length = 8 ∧ IsNumeral hexDigits (line.take 8) ∧
    numVal hexDigits (line.take 8) = off
  fields : ∀ f ∈ hexFields line, f.length = 2 ∧ IsNumeral hexDigits f
  decoded : decodeLine line = row
  ascii : line.drop asciiColumn = row.map asciiOf ++ ['|'.toUInt8]
  oneLine : newline ∉ line

/-! ## words -/

theorem blankWords_append (s t : List UInt8) : blankWords (s ++ space :: t) = blankWords s ++ blankWords t := by
  unfold blankWords
  rw [List.splitOn_eq_splitOnP, List.splitOnP_append_cons s t (by decide), List.filter_append]
  rfl

theorem blankWords_space (t : List UInt8) : blankWords (space :: t) = blankWords t := blankWords_append [] t

theorem blankWords_singleton {w : List UInt8} (hne : w ≠ []) (hsp : space ∉ w) : blankWords w = [w] := by
  unfold blankWords
  rw [List.splitOn_eq_splitOnP, List.splitOnP_eq_singleton fun c hc => by
    simpa using fun e : c = space => hsp (e ▸ hc)]
  exact List.filter_cons_of_pos (by simpa using hne)

/-! ## fields -/

/-- `%0*x` -/
def hexField (width v : Nat) : List UInt8 :=
  List.replicate (width - (formatNum v 16 false).length) '0'.toUInt8 ++ formatNum v 16 false

/-- exactly `width` digits, for a value that has no more -/
theorem hexField_spec {width v : Nat} (hw : 0 < width) (hv : v < 16 ^ width) (h32 : v < 2^32) :
    (hexField width v).length = width ∧ IsNumeral hexDigits (hexField width v) ∧
      numVal hexDigits (hexField width v) = v := by
  obtain ⟨h1, _, h3⟩ := formatNum_shape (radix_hex false) h32
  have halpha : (formatDigits false).take 16 = hexDigits := by decide +kernel
  have hzero : '0'.toUInt8 ∈ hexDigits ∧ hexDigits.idxOf '0'.toUInt8 = 0 := by decide +kernel
  have hlen : (formatNum v 16 false).length ≤ width := by
    unfold formatNum
    rw [List.length_reverse]
    exact formatLoop_length_le (by norm_num) hw hv
  rw [halpha] at h1 h3
  unfold hexField
  refine ⟨?_, h1.zeros hzero.1 _, ?_⟩
  · rw [List.length_append, List.length_replicate]
    omega
  · rw [numVal_zeros hzero.2, h3]

theorem hexField_byte (b : UInt8) : (hexField 2 b.toNat).length = 2 ∧
    IsNumeral hexDigits (hexField 2 b.toNat) ∧ numVal hexDigits (hexField 2 b.toNat) = b.toNat :=
  hexField_spec (by norm_num) b.toNat_lt (b.toNat_lt.trans (by norm_num))

theorem hexDigits_blank : space ∉ hexDigits ∧ newline ∉ hexDigits := by decide +kernel

/-- what `kvprintf` makes of `%08x` and `%02x` -/
theorem kvprintf_hex {width : Nat} (d : Directive) (hd : d.left = false ∧ d.fill = '0'.toUInt8 ∧
    d.fieldWidth = width ∧ d.conv = 'x'.toUInt8) {v : Nat} (hv : v < 2^32) (fmt : List UInt8)
    (args : List Arg) : kvprintf (d.text ++ fmt) (.word v :: args) = hexField width v ++ kvprintf fmt args := by
  obtain ⟨hl, hf, hw, hc⟩ := hd
  have hemit : d.emitted (.word v :: args) = (hexField width v, args) := by
    have hword : (Arg.word v).toWord = v := Nat.mod_eq_of_lt hv
    unfold Directive.emitted
    rw [hl, hf, hw, hc]
    show (emit (formatNum (Arg.word v).toWord 16 false) width false '0'.toUInt8, args) = _
    rw [hword]
    unfold emit hexField
    simp
  have hround := d.round fmt (.word v :: args)
  rw [hemit] at hround
  exact kvprintf_round hround

/-! ## a line -/

/-- the field of byte `i`, or blanks; there is a gap in the middle -/
def hexCell (row : List UInt8) (i : Nat) : List UInt8 :=
  (row[i]?).elim [space, space, space] (fun b => hexField 2 b.toNat ++ [space]) ++
    if i = 7 then [space] else []

def hexCells (row : List UInt8) : List UInt8 := (List.range 16).flatMap (hexCell row)

def hexLine (off : Nat) (row : List UInt8) : List UInt8 :=
  hexField 8 off ++ (space :: space :: (hexCells row ++ (space :: '|'.toUInt8 ::
    (row.map asciiOf ++ ['|'.toUInt8]))))

section
variable {off : Nat} {row : List UInt8}

theorem hexCell_length (row : List UInt8) (i : Nat) :
    (hexCell row i).length = if i = 7 then 4 else 3 := by
  have hfield : ((row[i]?).elim [space, space, space] fun b => hexField 2 b.toNat ++ [space]).length = 3 := by
    cases row[i]? with
    | none => rfl
    | some b =>
      show (hexField 2 b.toNat ++ [space]).length = 3
      rw [List.length_append, (hexField_byte b).1]
      rfl
  unfold hexCell
  rw [List.length_append, hfield]
  split
  · rfl
  · rfl

theorem hexCells_length (row : List UInt8) : (hexCells row).length = 49 := by
  unfold hexCells
  rw [List.length_flatMap]
  simp only [hexCell_length]
  rfl

/-- the words of a cell: its field -/
theorem blankWords_hexCell (row : List UInt8) (i : Nat) (t : List UInt8) :
    blankWords (hexCell row i ++ t) = ((row[i]?).map fun b => hexField 2 b.toNat).toList ++ blankWords t := by
  have hgap : blankWords ((if i = 7 then [space] else []) ++ t) = blankWords t := by
    split
    · exact blankWords_space t
    · rfl
  unfold hexCell
  rw [List.append_assoc]
  cases row[i]? with
  | none =>
    show blankWords (space :: space :: space :: ((if i = 7 then [space] else []) ++ t)) = [] ++ blankWords t
    rw [blankWords_space, blankWords_space, blankWords_space, hgap]
    rfl
  | some b =>
    obtain ⟨hlen, hnum, _⟩ := hexField_byte b
    have hsp : space ∉ hexField 2 b.toNat := fun h => hexDigits_blank.1 (hnum.2 _ h)
    show blankWords ((hexField 2 b.toNat ++ [space]) ++ ((if i = 7 then [space] else []) ++ t)) =
      [hexField 2 b.toNat] ++ blankWords t
    rw [List.append_assoc, List.singleton_append, blankWords_append, blankWords_singleton hnum.1 hsp, hgap]

theorem blankWords_hexCells (row : List UInt8) (i n : Nat) :
    blankWords ((List.range' i n).flatMap (hexCell row)) =
      ((row.drop i).take n).map fun b => hexField 2 b.toNat := by
  induction n generalizing i with
  | zero => rfl
  | succ n ih =>
    rw [List.range'_succ, List.flatMap_cons, blankWords_hexCell, ih]
    cases hb : row[i]? with
    | none =>
      have hlen : row.length ≤ i := List.getElem?_eq_none_iff.mp hb
      rw [List.drop_eq_nil_of_le hlen, List.drop_eq_nil_of_le (Nat.le_succ_of_le hlen), List.take_nil,
        List.take_nil]
      rfl
    | some b =>
      obtain ⟨hlt, rfl⟩ := List.getElem?_eq_some_iff.mp hb
      rw [List.drop_eq_getElem_cons hlt, List.take_succ_cons, List.map_cons]
      rfl

theorem mem_hexCells {c : UInt8} (hc : c ∈ hexCells row) : c = space ∨ c ∈ hexDigits := by
  obtain ⟨i, _, hc⟩ := List.mem_flatMap.mp hc
  unfold hexCell at hc
  rcases List.mem_append.mp hc with hc | hc
  · cases hb : row[i]? with
    | none =>
      rw [hb] at hc
      left
      simpa using hc
    | some b =>
      rw [hb] at hc
      rcases List.mem_append.mp hc with hc | hc
      · exact .inr ((hexField_byte b).2.1.2 c hc)
      · exact .inl (List.mem_singleton.mp hc)
  · left
    split at hc
    · exact List.mem_singleton.mp hc
    · cases hc

theorem asciiOf_ne (c : UInt8) : asciiOf c ≠ newline := by
  unfold asciiOf
  split
  · rename_i h
    intro e
    rw [e] at h
    exact absurd h.1 (by decide)
  · decide

/-- The line can be read back. -/
theorem hexLine_reads (hoff : off < 2^32) (hrow : row.length ≤ 16) : HexLine off row (hexLine off row) := by
  have h8 := hexField_spec (show 0 < 8 by norm_num) (show off < 16 ^ 8 by norm_num; omega) hoff
  have hcells := hexCells_length row
  have hsplit : hexLine off row = (hexField 8 off ++ space :: space :: (hexCells row ++ [space])) ++
      ['|'.toUInt8] ++ (row.map asciiOf ++ ['|'.toUInt8]) := by
    unfold hexLine
    simp
  have hleft : (hexField 8 off ++ space :: space :: (hexCells row ++ [space])).length = 60 := by
    rw [List.length_append, h8.1, List.length_cons, List.length_cons, List.length_append, hcells]
    rfl
  have hfields : hexFields (hexLine off row) = row.map fun b => hexField 2 b.toNat := by
    have hcut : ((hexLine off row).take (asciiColumn - 1)).drop 8 =
        space :: space :: (hexCells row ++ [space]) := by
      have htake : (hexLine off row).take (asciiColumn - 1) =
          hexField 8 off ++ space :: space :: (hexCells row ++ [space]) := by
        rw [hsplit, List.append_assoc]
        exact List.take_left' hleft
      rw [htake]
      exact List.drop_left' h8.1
    have hwords := blankWords_hexCells row 0 16
    rw [List.drop_zero, List.take_of_length_le hrow] at hwords
    unfold hexFields
    rw [hcut, blankWords_space, blankWords_space, blankWords_append, hexCells, List.range_eq_range', hwords]
    exact List.append_nil _
  refine ⟨?_, ?_, ?_, ?_, ?_⟩
  · have htake : (hexLine off row).take 8 = hexField 8 off := List.take_left' h8.1
    rw [htake]
    exact h8
  · rw [hfields]
    intro f hf
    obtain ⟨b, _, rfl⟩ := List.mem_map.mp hf
    exact ⟨(hexField_byte b).1, (hexField_byte b).2.1⟩
  · unfold decodeLine
    rw [hfields, List.map_map]
    conv_rhs => rw [← List.map_id row]
    apply List.map_congr_left
    intro b _
    show UInt8.ofNat (numVal hexDigits (hexField 2 b.toNat)) = b
    rw [(hexField_byte b).2.2, UInt8.ofNat_toNat]
  · have hbar : ((hexField 8 off ++ space :: space :: (hexCells row ++ [space])) ++ ['|'.toUInt8]).length =
        asciiColumn := by
      rw [List.length_append, hleft]
      rfl
    rw [hsplit]
    exact List.drop_left' hbar
  · have hblank := hexDigits_blank.2
    have hsp : newline ≠ space := by decide
    have hpipe : newline ≠ '|'.toUInt8 := by decide
    unfold hexLine
    simp only [List.mem_append, List.mem_cons, List.mem_map, List.not_mem_nil, or_false, not_or, not_exists,
      not_and]
    exact ⟨fun h => hblank (h8.2.1.2 _ h), hsp, hsp,
      fun h => (mem_hexCells h).elim hsp hblank, hsp, hpipe, fun c _ => asciiOf_ne c, hpipe⟩

end

/-! ## the loop -/

/-- `%0wx` -/
def hexDirective (w : UInt8) (hw : isDigit w = true ∧ w ≠ '0'.toUInt8 ∧ numVal decimal [w] < 2^31) :
    Directive where
  flags := ['0'.toUInt8]
  width := [w]
  conv := 'x'.toUInt8
  flags_mem := zeroFlag_mem
  width_digit := by simpa using hw.1
  width_head := by simpa using hw.2.1
  width_lt := hw.2.2
  conv_ne := by decide
  conv_digit := by decide
  conv_flag := by simp

theorem printf_offset {off : Nat} (hoff : off < 2^32) :
    printf "%08x  " [.word off] = consoleWrite (hexField 8 off ++ [space, space]) := by
  have hfmt : lit "%08x  " = (hexDirective '8'.toUInt8 (by decide +kernel)).text ++ [space, space] := by
    decide +kernel
  have hrest : kvprintf [space, space] [] = [space, space] := by decide +kernel
  have hhex := kvprintf_hex (hexDirective '8'.toUInt8 (by decide +kernel))
    (show _ ∧ _ ∧ _ = 8 ∧ _ by decide +kernel) hoff [space, space] []
  unfold printf kprintf
  rw [hfmt, hhex, hrest]

theorem printf_byte (b : UInt8) :
    printf "%02x " [.word b.toNat] = consoleWrite (hexField 2 b.toNat ++ [space]) := by
  have hfmt : lit "%02x " = (hexDirective '2'.toUInt8 (by decide +kernel)).text ++ [space] := by
    decide +kernel
  have hrest : kvprintf [space] [] = [space] := by decide +kernel
  have hhex := kvprintf_hex (hexDirective '2'.toUInt8 (by decide +kernel))
    (show _ ∧ _ ∧ _ = 2 ∧ _ by decide +kernel) (b.toNat_lt.trans (by norm_num)) [space] []
  unfold printf kprintf
  rw [hfmt, hhex, hrest]

/-- a row, as the code prints it -/
theorem hexRow_eq {off : Nat} (hoff : off < 2^32) (row : List UInt8) :
    hexRow off row = consoleWrite (hexLine off row ++ [newline]) := by
  have hcell : ∀ i, consoleWrite (hexCell row i) = consoleWrite
      ((row[i]?).elim [space, space, space] fun b => hexField 2 b.toNat ++ [space]) ++
        consoleWrite (if i = 7 then [space] else []) := fun i => List.map_append
  have hcells : consoleWrite (hexCells row) =
      (List.range 16).flatMap fun i => consoleWrite (hexCell row i) := List.map_flatMap
  have hascii : (fun c : UInt8 => if 0x20 ≤ c ∧ c < 0x7f then c else '.'.toUInt8) = asciiOf := by
    funext c
    unfold asciiOf
    have hlt : c < 0x7f ↔ c ≤ 0x7e := by
      rw [UInt8.lt_iff_toNat_lt, UInt8.le_iff_toNat_le]
      exact Nat.lt_succ_iff
    simp only [hlt]
  have hline : consoleWrite (hexLine off row ++ [newline]) = consoleWrite (hexField 8 off ++ [space, space]) ++
      consoleWrite (hexCells row) ++ puts " |" ++ consoleWrite (row.map asciiOf) ++ puts "|\n" := by
    have hbar : lit " |" = [space, '|'.toUInt8] := by decide +kernel
    have hend : lit "|\n" = ['|'.toUInt8, newline] := by decide +kernel
    unfold puts consoleWrite hexLine
    rw [hbar, hend]
    simp
  unfold hexRow
  rw [hline, hcells, printf_offset hoff, hascii]
  congr 4
  apply List.flatMap_congr
  intro i _
  rw [hcell]
  congr 1
  · cases row[i]? with
    | none =>
      show puts "   " = consoleWrite [space, space, space]
      unfold puts
      congr 1
    | some b => exact printf_byte b
  · split
    · rfl
    · rfl

/-- the lines of a dump -/
def hexLines (off : Nat) (data : List UInt8) : List (List UInt8) :=
  (List.range ((data.length + 15) / 16)).map fun k => hexLine (off + 16 * k) ((data.drop (16 * k)).take 16)

theorem hexLoop_eq {fuel off : Nat} {data : List UInt8} (hf : data.length ≤ fuel)
    (hoff : data ≠ [] → off + data.length < 2^32) :
    hexLoop fuel off data = consoleWrite ((hexLines off data).flatMap (· ++ [newline])) := by
  induction fuel generalizing off data with
  | zero =>
    have hnil : data = [] := List.length_eq_zero_iff.mp (Nat.le_zero.mp hf)
    rw [hnil]
    rfl
  | succ fuel ih =>
    unfold hexLoop
    by_cases hnil : data = []
    · rw [if_pos hnil, hnil]
      rfl
    · have hpos : 0 < data.length := List.length_pos_iff.mpr hnil
      have hdrop : (data.drop 16).length = data.length - 16 := List.length_drop
      have hoff' := hoff hnil
      have hrest : hexLoop fuel (off + 16) (data.drop 16) =
          consoleWrite ((hexLines (off + 16) (data.drop 16)).flatMap (· ++ [newline])) := by
        apply ih (by omega)
        intro hne
        have := List.length_pos_iff.mpr hne
        omega
      have hcount : (data.length + 15) / 16 = ((data.drop 16).length + 15) / 16 + 1 := by omega
      have hlines : hexLines off data = hexLine off (data.take 16) :: hexLines (off + 16) (data.drop 16) := by
        unfold hexLines
        rw [hcount, List.range_succ_eq_map, List.map_cons, List.map_map]
        congr 1
        apply List.map_congr_left
        intro k _
        show hexLine (off + 16 * (k + 1)) ((data.drop (16 * (k + 1))).take 16) =
          hexLine (off + 16 + 16 * k) (((data.drop 16).drop (16 * k)).take 16)
        have hoffk : off + 16 * (k + 1) = off + 16 + 16 * k := by omega
        have hk : 16 * (k + 1) = 16 + 16 * k := by omega
        rw [List.drop_drop, hoffk, hk]
      rw [if_neg hnil, hexRow_eq (by omega), hrest, hlines, List.flatMap_cons]
      exact List.map_append.symm

/-- the rows of 16 bytes, one after the other -/
theorem rows_flatten (data : List UInt8) :
    (List.range ((data.length + 15) / 16)).flatMap (fun k => (data.drop (16 * k)).take 16) = data := by
  have htake : ∀ n, (List.range n).flatMap (fun k => (data.drop (16 * k)).take 16) = data.take (16 * n) := by
    intro n
    induction n with
    | zero => rfl
    | succ n ih =>
      rw [List.range_succ, List.flatMap_append, ih, Nat.mul_succ, List.take_add]
      congr 1
      exact List.append_nil _
  rw [htake]
  exact List.take_of_length_le (by omega)

/-- A dump of a file of any bytes: a line for every 16 bytes, and the lines give the file back.  Only
from `2^32 - 15` bytes on, more than the addresses leave beside the kernel, would `off` wrap around. -/
theorem hexdump_decodes {sh : Shell} {path data : List UInt8} (hf : FileAt sh path data)
    (hlen : data.length + 16 ≤ 2^32) (args : List (List UInt8)) :
    ∃ lines : List (List UInt8),
      cmdHexdump sh (path :: args) = .ok (consoleWrite (lines.flatMap (· ++ [newline])), 0) ∧
      lines.length = (data.length + 15) / 16 ∧
      (∀ k line, lines[k]? = some line → HexLine (16 * k) ((data.drop (16 * k)).take 16) line) ∧
      lines.flatMap decodeLine = data := by
  have hlines : (hexLines 0 data).length = (data.length + 15) / 16 := by
    unfold hexLines
    rw [List.length_map, List.length_range]
  have hline : ∀ k line, (hexLines 0 data)[k]? = some line →
      HexLine (16 * k) ((data.drop (16 * k)).take 16) line := by
    intro k line hk
    have hlt : k < (hexLines 0 data).length := (List.getElem?_eq_some_iff.mp hk).1
    unfold hexLines at hk
    rw [List.getElem?_map, List.getElem?_range (by omega), Option.map_some, Nat.zero_add] at hk
    cases hk
    exact hexLine_reads (by omega) (List.length_take_le _ _)
  refine ⟨hexLines 0 data, ?_, hlines, hline, ?_⟩
  · unfold cmdHexdump
    dsimp only
    rw [hf.withFile, hexLoop_eq (Nat.le_refl _) fun _ => by omega]
  · conv_rhs => rw [← rows_flatten data]
    unfold hexLines
    rw [List.flatMap_map]
    apply List.flatMap_congr
    intro k hk
    have hk := List.mem_range.mp hk
    rw [Nat.zero_add]
    exact (hexLine_reads (by omega) (List.length_take_le _ _)).decoded

theorem hexdump_decodes_readme : ∃ (sh : Shell) (data : List UInt8) (lines : List (List UInt8)),
    FileAt sh (lit "/README.txt") data ∧
      cmdHexdump sh [lit "/README.txt"] = .ok (consoleWrite (lines.flatMap (· ++ [newline])), 0) ∧
      lines.flatMap decodeLine = data := by
  have heval : (boot sampleImage (fun _ => 0) []).toOption.any
      (fun sh => leadsToFile sh (lit "/README.txt")) = true := by decide +kernel
  obtain ⟨sh, h0, hleads⟩ := any_toOption.mp heval
  obtain ⟨hi, -⟩ := boot_inv h0
  obtain ⟨data, hf⟩ := leadsToFile_fileAt hleads
  have hlen : data.length + 16 ≤ 2^32 := by
    obtain ⟨F, h⟩ := hi.files
    obtain ⟨a, n, _, _, hn, _, rfl⟩ := id hf
    have hheap := bytes_length_le h hn
    have hsize : heapSize = 4194304 := rfl
    omega
  obtain ⟨lines, h1, _, _, h2⟩ := hexdump_decodes hf hlen []
  exact ⟨sh, data, lines, hf, h1, h2⟩

end Raptor
