import RaptorKernel.Base

/-!
# lib/kprintf.c

The text `kvprintf` hands to `console_putc`, byte by byte, for a format and its arguments: `%c %s
%d %i %u %x %X %p %%`, the flags `-` and `0`, and a decimal width.

An argument is a 32-bit word or a string pointer; reading past the last argument, which C leaves
undefined, gives a zero word.
-/

namespace Raptor

def newline : UInt8 := 0x0A
def space : UInt8 := 0x20

inductive Arg where
  | word (w : Nat)
  /-- a `char *`; `none` is NULL -/
  | str (s : Option (List UInt8))

def Arg.toWord : Arg → Nat
  | .word w => w % 2^32
  | .str _ => 0

def Arg.toText : Arg → List UInt8
  | .str (some s) => s
  | _ => lit "(null)"

/-- `emit`, with the loop of `pad` -/
def emit (s : List UInt8) (width : Nat) (left : Bool) (fill : UInt8) : List UInt8 :=
  let gap := width - s.length
  (if left then [] else List.replicate gap fill) ++ s ++
    (if left then List.replicate gap space else [])

/-- `do { tmp[n++] = digits[value % base]; value /= base; } while (value)`; a word has at most 32
digits -/
def formatLoop (digits : List UInt8) (base : Nat) : Nat → Nat → List UInt8
  | 0, _ => []
  | fuel+1, value =>
    digits.getD (value % base) 0 ::
      if value / base ≠ 0 then formatLoop digits base fuel (value / base) else []

def formatNum (value base : Nat) (uppercase : Bool) : List UInt8 :=
  let digits := if uppercase then lit "0123456789ABCDEF" else lit "0123456789abcdef"
  (formatLoop digits base 32 value).reverse

/-! ## directives -/

/-- the flags: `left`, `fill` and what follows them -/
def scanFlags : List UInt8 → Bool → UInt8 → Bool × UInt8 × List UInt8
  | [], left, fill => (left, fill, [])
  | c :: fmt, left, fill =>
    if c = '-'.toUInt8 then scanFlags fmt true fill
    else if c = '0'.toUInt8 then scanFlags fmt left '0'.toUInt8
    else (left, fill, c :: fmt)

def isDigit (c : UInt8) : Bool := '0'.toUInt8 ≤ c && c ≤ '9'.toUInt8

def scanWidth : List UInt8 → Nat → Nat × List UInt8
  | [], width => (width, [])
  | c :: fmt, width =>
    if isDigit c then scanWidth fmt (width * 10 + (c.toNat - '0'.toNat)) else (width, c :: fmt)

/-- the `switch` on the conversion character; the arguments that are left -/
def convert (left : Bool) (fill : UInt8) (width : Nat) (c : UInt8) (args : List Arg) :
    List UInt8 × List Arg :=
  let arg := args.headD (.word 0)
  if c = 'c'.toUInt8 then (emit [UInt8.ofNat arg.toWord] width left space, args.tail)
  else if c = 's'.toUInt8 then (emit arg.toText width left space, args.tail)
  else if c = 'd'.toUInt8 ∨ c = 'i'.toUInt8 then
    -- a word from `2^31` on is a negative `int`
    let u := if 2^31 ≤ arg.toWord then 2^32 - arg.toWord else arg.toWord
    let sign := if 2^31 ≤ arg.toWord then ['-'.toUInt8] else []
    (emit (sign ++ formatNum u 10 false) width left fill, args.tail)
  else if c = 'u'.toUInt8 then (emit (formatNum arg.toWord 10 false) width left fill, args.tail)
  else if c = 'x'.toUInt8 ∨ c = 'X'.toUInt8 then
    (emit (formatNum arg.toWord 16 (c = 'X'.toUInt8)) width left fill, args.tail)
  else if c = 'p'.toUInt8 then
    (lit "0x" ++ emit (formatNum arg.toWord 16 false) 8 false '0'.toUInt8, args.tail)
  else if c = '%'.toUInt8 then (['%'.toUInt8], args)
  else (['%'.toUInt8, c], args)

/-- The loop of `kvprintf`.  Every round consumes a byte of the format. -/
def kvprintfLoop : Nat → List UInt8 → List Arg → List UInt8
  | 0, _, _ => []
  | _+1, [], _ => []
  | fuel+1, c :: fmt, args =>
    if c ≠ '%'.toUInt8 then c :: kvprintfLoop fuel fmt args
    else
      let (left, fill, fmt) := scanFlags fmt false space
      let (width, fmt) := scanWidth fmt 0
      match fmt with
      | [] => []
      | conv :: fmt =>
        let (out, args) := convert left fill width conv args
        out ++ kvprintfLoop fuel fmt args

def kvprintf (fmt : List UInt8) (args : List Arg) : List UInt8 :=
  kvprintfLoop (fmt.length + 1) fmt args

def kprintf (fmt : String) (args : List Arg) : List UInt8 := kvprintf (lit fmt) args

end Raptor
