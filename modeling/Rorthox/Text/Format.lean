import Rorthox.Lib.Numeral
import Rorthox.Lib.Prog

/-!
# Formatting

`itoa` and `vsnprintf` of `kernel/string/string.c`. A read past the terminator of the format, a
store through NULL or past the end of a local array, and an argument of another kind than the
conversion takes is a fault; every store to `str` is recorded.
-/

namespace Rorthox.Text

open Lib

/-! ## itoa -/

/-- `while (i)`: `text[--loc] = '0' - (i % 10); i /= 10`. The remainder has the sign of `i`. -/
def itoaLoop : Nat → Int → Bytes → Option (Bytes × Nat)
  | 0, i, text => if i = 0 then some (text, 0) else none
  | loc + 1, i, text =>
      if i = 0 then some (text, loc + 1)
      else itoaLoop loc (i.tdiv 10) (Function.update text loc (UInt8.ofInt (48 - i.tmod 10)))

/-- `text[--loc] = c`. -/
def prepend (c : UInt8) : Bytes × Nat → Option (Bytes × Nat)
  | (_, 0) => none
  | (text, loc + 1) => some (Function.update text loc c, loc)

/-- The static array of 12 bytes and where the result begins in it. -/
def itoa (i : Int) (text : Bytes) : Option (Bytes × Nat) := do
  let neg := ¬ 0 ≤ i
  let i := if 0 ≤ i then -i else i
  let r ← itoaLoop 11 i (Function.update text 11 0)
  let r ← if r.2 = 11 then prepend '0'.toUInt8 r else some r
  if neg then prepend '-'.toUInt8 r else some r

/-! ## Arguments and output -/

/-- An argument: a word, or a pointer to a string. -/
inductive Arg where
  | word (w : BitVec 32)
  | string (s : Option CString)

/-- Why the loop over the format ends early. -/
inductive Stop where
  | out
  | fault
deriving DecidableEq

/-- `str`, the indices stored to (the newest first), `*count` and the arguments left. -/
structure Formatter where
  str : Option Bytes
  stores : List Nat
  count : Nat
  args : List Arg

abbrev FormatProg := Prog Formatter Stop

/-- `INT_MAX`. -/
def maxCount : Nat := 2 ^ 31 - 1

/-- `str[i] = c`. -/
def storeAt (i : Nat) (c : UInt8) : FormatProg Unit := fun f =>
  match f.str with
  | none => (.error .fault, f)
  | some str => (.ok (), { f with str := some (Function.update str i c), stores := i :: f.stores })

def formatPutc (size : Nat) (c : UInt8) : FormatProg Unit := do
  let count ← Prog.look (·.count)
  Prog.refuse (count = maxCount) .out
  if size ≠ 0 ∧ count < size - 1 then storeAt count c else pure ()
  Prog.change fun f => { f with count := f.count + 1 }

/-- The loops that put one character after the other. -/
def formatPuts (size : Nat) : List UInt8 → FormatProg Unit
  | [] => pure ()
  | c :: text => do
      formatPutc size c
      formatPuts size text

/-- `va_arg(args, int)`. -/
def vaWord : FormatProg (BitVec 32) := fun f =>
  match f.args with
  | .word w :: args => (.ok w, { f with args })
  | _ => (.error .fault, f)

/-- `va_arg(args, const char *)`. -/
def vaString : FormatProg (Option CString) := fun f =>
  match f.args with
  | .string s :: args => (.ok s, { f with args })
  | _ => (.error .fault, f)

/-! ## Conversions -/

def nullText : CString := ⟨"(null)".toList.map Char.toUInt8, by decide⟩

def lowerDigits : List UInt8 := "0123456789abcdef".toList.map Char.toUInt8

def upperDigits : List UInt8 := "0123456789ABCDEF".toList.map Char.toUInt8

/-- `while (length + negative < width)`: a zero, `width--`. -/
def formatPad (size length : Nat) : Nat → FormatProg Unit
  | 0 => pure ()
  | width + 1 =>
      if length < width + 1 then do
        formatPutc size '0'.toUInt8
        formatPad size length width
      else pure ()

def formatNumber (size : Nat) (c : UInt8) (width : Nat) : FormatProg Unit := do
  let w ← vaWord
  let negative := (c = 'd'.toUInt8 ∨ c = 'i'.toUInt8) ∧ w.toInt < 0
  let value := if negative then 0#32 - w else w
  let base := if c = 'x'.toUInt8 ∨ c = 'X'.toUInt8 then 16 else 10
  let digits := if c = 'X'.toUInt8 then upperDigits else lowerDigits
  -- `number` has 32 places
  match divideLoop base (fun d => digits.getD d 0) 32 value.toNat [] with
  | none => Prog.raise .fault
  | some number => do
      if negative then formatPutc size '-'.toUInt8 else pure ()
      formatPad size (number.length + if negative then 1 else 0) width
      formatPuts size number

def formatConversion (size : Nat) (c : UInt8) (width : Nat) : FormatProg Unit :=
  if c = '%'.toUInt8 then formatPutc size '%'.toUInt8
  else if c = 'c'.toUInt8 then do
    let w ← vaWord
    formatPutc size (UInt8.ofNat w.toNat)
  else if c = 's'.toUInt8 then do
    let s ← vaString
    formatPuts size (s.getD nullText).bytes
  else if c = 'd'.toUInt8 ∨ c = 'i'.toUInt8 ∨ c = 'u'.toUInt8 ∨ c = 'x'.toUInt8 ∨
    c = 'X'.toUInt8 then
    formatNumber size c width
  else Prog.raise .out

/-! ## The format -/

/-- `*p`, where `p` points to byte `p` of the format. -/
def readFormat (format : CString) (p : Nat) : FormatProg UInt8 :=
  match (format.bytes ++ [0])[p]? with
  | none => Prog.raise .fault
  | some c => pure c

/-- `for (p = format; *p; p++)`. -/
def formatLoop (size : Nat) (format : CString) : Nat → Nat → FormatProg Unit
  | 0, _ => Prog.raise .fault
  | fuel + 1, p => do
      let c ← readFormat format p
      if c = 0 then pure ()
      else if c ≠ '%'.toUInt8 then do
        formatPutc size c
        formatLoop size format fuel (p + 1)
      else do
        let c ← readFormat format (p + 1)
        if c = 0 then formatPutc size '%'.toUInt8
        else if c = '0'.toUInt8 then do
          let c ← readFormat format (p + 2)
          Prog.refuse (c ≠ '2'.toUInt8) .out
          let c ← readFormat format (p + 3)
          Prog.refuse (c ≠ 'd'.toUInt8) .out
          formatConversion size c 2
          formatLoop size format fuel (p + 4)
        else do
          formatConversion size c 0
          formatLoop size format fuel (p + 2)

/-- What a call returns and leaves in `str`. -/
structure Formatted where
  result : Int
  str : Option Bytes
  stores : List Nat

/-- From the label `out` on. -/
def formatOut (size : Nat) (result : Int) (f : Formatter) : Option Formatted :=
  if size ≠ 0 then
    match storeAt (if f.count < size then f.count else size - 1) 0 f with
    | (.ok (), f) => some ⟨result, f.str, f.stores⟩
    | (.error _, _) => none
  else some ⟨result, f.str, f.stores⟩

/-- `none` is a fault. -/
def vsnprintf (str : Option Bytes) (size : Nat) (format : Option CString) (args : List Arg) :
    Option Formatted :=
  if size ≠ 0 ∧ str.isNone then some ⟨-1, str, []⟩
  else
    let start : Formatter := { str, stores := [], count := 0, args }
    match format with
    | none => formatOut size (-1) start
    | some format =>
        match formatLoop size format (format.bytes.length + 1) 0 start with
        | (.ok (), f) => formatOut size f.count f
        | (.error .out, f) => formatOut size (-1) f
        | (.error .fault, _) => none

end Rorthox.Text
