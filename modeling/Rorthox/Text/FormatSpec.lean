import Rorthox.Text.Format
import Rorthox.Lib.CInt

/-!
# What formatting prints

A format is a list of directives and an ending. Its full output is the concatenation of what the
directives print; a call leaves the first `size - 1` characters of it in the buffer, with a
terminator, and nothing else.
-/

namespace Rorthox.Text

open Lib

/-! ## itoa -/

theorem itoaLoop_eq (loc : Nat) : ∀ {n : Nat} (text : Bytes), 0 < n → n < 10 ^ loc →
    ∃ start, start + (numeral 10 n).length = loc ∧
      itoaLoop loc (-(n : Int)) text = some (splice text start (numeral 10 n), start) := by
  induction loc with
  | zero =>
    intro n text h0 h
    omega
  | succ loc ih =>
    intro n text h0 h
    have hdigit : UInt8.ofInt (48 - (-(n : Int)).tmod 10) = (n % 10).digitChar.toUInt8 := by
      have hmod : (-(n : Int)).tmod 10 = -((n % 10 : Nat) : Int) := by
        rw [Int.neg_tmod]
        rfl
      rw [hmod]
      have hlt := Nat.mod_lt n (show 0 < 10 by decide)
      generalize n % 10 = d at hlt
      interval_cases d <;> decide
    have hquot : (-(n : Int)).tdiv 10 = -((n / 10 : Nat) : Int) := by
      rw [Int.neg_tdiv]
      rfl
    rw [itoaLoop, if_neg (by omega), hdigit, hquot]
    by_cases hlt : n < 10
    · refine ⟨loc, by simp [numeral_lt hlt], ?_⟩
      have hzero : n / 10 = 0 := Nat.div_eq_of_lt hlt
      rw [numeral_lt hlt, ← splice_cons, splice_nil, hzero, Nat.mod_eq_of_lt hlt]
      cases loc <;> rfl
    · obtain ⟨start, hstart, hloop⟩ := ih (Function.update text loc (n % 10).digitChar.toUInt8)
        (n := n / 10) (by omega) (by rw [Nat.pow_succ] at h; omega)
      have hten := numeral_ge (show 1 < 10 by decide) (Nat.not_lt.mp hlt)
      refine ⟨start, ?_, ?_⟩
      · rw [hten, List.length_append, List.length_singleton, ← hstart]
        omega
      · rw [hloop, hten, ← hstart, splice_snoc]

theorem splice_holds {dest : Bytes} {start : Nat} {l : List UInt8} (hclean : (0 : UInt8) ∉ l)
    (hzero : dest (start + l.length) = 0) : HoldsString (fun k => splice dest start l (start + k))
      l where
  byte _ h := splice_inside dest start h
  clean := hclean
  zero := by rw [splice_outside (Or.inr le_rfl), hzero]

/-- `itoa` gives the decimal numeral of every `int`. -/
theorem itoa_decimal {i : Int} (hi : InInt i) (text : Bytes) :
    ∃ r loc, itoa i text = some (r, loc) ∧ HoldsString (fun k => r (loc + k)) (decimal i) := by
  have hclean := decimal_clean i
  -- what is found in front of the terminator
  have hholds : ∀ {start : Nat}, start + (decimal i).length = 11 →
      HoldsString (fun k => splice (Function.update text 11 0) start (decimal i) (start + k))
        (decimal i) := by
    intro start h
    exact splice_holds hclean (by rw [h, Function.update_self])
  by_cases hz : i = 0
  · subst hz
    refine ⟨splice (Function.update text 11 0) 10 (decimal 0), 10, ?_, hholds rfl⟩
    have hdec : decimal 0 = ['0'.toUInt8] := by decide
    rw [hdec, ← splice_cons, splice_nil]
    rfl
  have hbound : i.natAbs < 10 ^ 10 := by
    obtain ⟨hlo, hhi⟩ := hi
    norm_num at hlo hhi ⊢
    omega
  obtain ⟨start, hstart, hloop⟩ := itoaLoop_eq 11 (Function.update text 11 0) (n := i.natAbs)
    (by omega) (hbound.trans (by norm_num))
  have hpos := numeral_length_pos 10 i.natAbs
  have hlen : (numeral 10 i.natAbs).length ≤ 10 := by
    rw [numeral, List.length_map]
    exact Nat.toDigits_length 10 _ 10 (by decide) hbound
  have habs : (if 0 ≤ i then -i else i) = -(i.natAbs : Int) := by
    split <;> omega
  rw [itoa, habs, hloop]
  by_cases hneg : i < 0
  · obtain ⟨start, rfl⟩ : ∃ k, start = k + 1 := ⟨start - 1, by omega⟩
    have hdec : decimal i = '-'.toUInt8 :: numeral 10 i.natAbs := if_pos hneg
    refine ⟨splice (Function.update text 11 0) start (decimal i), start, ?_, hholds ?_⟩
    · simp [prepend, show start ≠ 10 by omega, hneg, hdec, splice_front]
    · rw [hdec, List.length_cons]
      omega
  · have hdec : decimal i = numeral 10 i.natAbs := if_neg hneg
    refine ⟨splice (Function.update text 11 0) start (decimal i), start, ?_, hholds ?_⟩
    · simp [show start ≠ 11 by omega, hneg, hdec]
    · rw [hdec]
      exact hstart

/-! ## Formats -/

/-- The conversions of one letter. -/
def conversions : List UInt8 := ['%', 'c', 's', 'd', 'i', 'u', 'x', 'X'].map Char.toUInt8

inductive Directive where
  | literal (c : UInt8) (h : c ≠ '%'.toUInt8)
  | percent
  | char
  | string
  | signed (c : UInt8) (h : c = 'd'.toUInt8 ∨ c = 'i'.toUInt8)
  | unsigned
  | hex (upper : Bool)
  | padded

/-- The directive as it stands in a format. -/
def Directive.source : Directive → List UInt8
  | .literal c _ => [c]
  | .percent => ['%'.toUInt8, '%'.toUInt8]
  | .char => ['%'.toUInt8, 'c'.toUInt8]
  | .string => ['%'.toUInt8, 's'.toUInt8]
  | .signed c _ => ['%'.toUInt8, c]
  | .unsigned => ['%'.toUInt8, 'u'.toUInt8]
  | .hex upper => ['%'.toUInt8, if upper then 'X'.toUInt8 else 'x'.toUInt8]
  | .padded => ['%'.toUInt8, '0'.toUInt8, '2'.toUInt8, 'd'.toUInt8]

/-- The hexadecimal numeral of `n`. -/
def hexadecimal (upper : Bool) (n : Nat) : List UInt8 :=
  (Nat.toDigits 16 n).map fun c => (if upper then c.toUpper else c).toUInt8

/-- The decimal numeral of `v`, with a zero in front of a single digit. -/
def twoDigits (v : Int) : List UInt8 :=
  if 0 ≤ v ∧ v < 10 then '0'.toUInt8 :: decimal v else decimal v

/-- What a directive prints and the arguments it leaves; `none` if the next one is not of its kind.
-/
def Directive.output : Directive → List Arg → Option (List UInt8 × List Arg)
  | .literal c _, args => some ([c], args)
  | .percent, args => some (['%'.toUInt8], args)
  | .char, .word w :: args => some ([UInt8.ofNat w.toNat], args)
  | .string, .string s :: args => some ((s.getD nullText).bytes, args)
  | .signed _ _, .word w :: args => some (decimal w.toInt, args)
  | .unsigned, .word w :: args => some (numeral 10 w.toNat, args)
  | .hex upper, .word w :: args => some (hexadecimal upper w.toNat, args)
  | .padded, .word w :: args => some (twoDigits w.toInt, args)
  | _, _ => none

/-- The concatenation of what the directives print. -/
def outputOf : List Directive → List Arg → Option (List UInt8)
  | [], _ => some []
  | d :: ds, args => do
      let (text, args) ← d.output args
      let rest ← outputOf ds args
      some (text ++ rest)

/-- What follows a `%` and is none of the conversions. -/
def Unsupported : List UInt8 → Prop
  | [] => False
  | c :: rest => if c = '0'.toUInt8 then ¬ ['2'.toUInt8, 'd'.toUInt8] <+: rest else c ∉ conversions

/-- How a format ends: after a directive, with a lone `%`, or in something unsupported. -/
inductive Ending where
  | plain
  | lone
  | unsupported (rest : List UInt8) (h : Unsupported rest)

def Ending.source : Ending → List UInt8
  | .plain => []
  | .lone => ['%'.toUInt8]
  | .unsupported rest _ => '%'.toUInt8 :: rest

/-- The character a lone `%` prints. -/
def Ending.text : Ending → List UInt8
  | .lone => ['%'.toUInt8]
  | _ => []

def Ending.Supported : Ending → Prop
  | .unsupported _ _ => False
  | _ => True

def formatOf (ds : List Directive) (ending : Ending) : List UInt8 :=
  ds.flatMap Directive.source ++ ending.source

theorem formatOf_cons (d : Directive) (ds : List Directive) (ending : Ending) :
    formatOf (d :: ds) ending = d.source ++ formatOf ds ending := by
  rw [formatOf, List.flatMap_cons, List.append_assoc, formatOf]

variable {c : UInt8} {before rest : List UInt8} {format : CString}

theorem conversion_source (h : c ∈ conversions) : ∃ d : Directive, d.source = ['%'.toUInt8, c] := by
  simp only [conversions, List.map_cons, List.map_nil, List.mem_cons, List.not_mem_nil,
    or_false] at h
  rcases h with rfl | rfl | rfl | rfl | rfl | rfl | rfl | rfl
  · exact ⟨.percent, rfl⟩
  · exact ⟨.char, rfl⟩
  · exact ⟨.string, rfl⟩
  · exact ⟨.signed _ (Or.inl rfl), rfl⟩
  · exact ⟨.signed _ (Or.inr rfl), rfl⟩
  · exact ⟨.unsigned, rfl⟩
  · exact ⟨.hex false, rfl⟩
  · exact ⟨.hex true, rfl⟩

/-- What follows a `%` is unsupported, or a conversion stands there. -/
theorem unsupported_or (h : rest ≠ []) :
    Unsupported rest ∨ ∃ (d : Directive) (tail : List UInt8),
      '%'.toUInt8 :: rest = d.source ++ tail := by
  obtain ⟨c, tail, rfl⟩ := List.exists_cons_of_ne_nil h
  by_cases hzero : c = '0'.toUInt8
  · subst hzero
    by_cases hpad : ['2'.toUInt8, 'd'.toUInt8] <+: tail
    · obtain ⟨tail, rfl⟩ := hpad
      exact Or.inr ⟨.padded, tail, rfl⟩
    · exact Or.inl (by simpa only [Unsupported, if_true] using hpad)
  · by_cases hmem : c ∈ conversions
    · obtain ⟨d, hd⟩ := conversion_source hmem
      exact Or.inr ⟨d, tail, by rw [hd]; rfl⟩
    · exact Or.inl (by simpa only [Unsupported, if_neg hzero] using hmem)

theorem Directive.source_pos (d : Directive) : 0 < d.source.length := by
  cases d <;> exact Nat.succ_pos _

/-- Every text is a list of directives with an ending. -/
theorem formatOf_cases (n : Nat) : ∀ {l : List UInt8}, l.length < n → ∃ ds ending,
    l = formatOf ds ending := by
  induction n with
  | zero => intro l h; omega
  | succ n ih =>
    intro l hlen
    have hstep : ∀ (d : Directive) (tail : List UInt8), l = d.source ++ tail →
        ∃ ds ending, l = formatOf ds ending := by
      intro d tail hl
      have hpos := d.source_pos
      rw [hl, List.length_append] at hlen
      obtain ⟨ds, ending, rfl⟩ := ih (l := tail) (by omega)
      exact ⟨d :: ds, ending, by rw [hl, formatOf_cons]⟩
    cases l with
    | nil => exact ⟨[], .plain, rfl⟩
    | cons c rest =>
      by_cases hc : c = '%'.toUInt8
      · subst hc
        by_cases hrest : rest = []
        · exact ⟨[], .lone, by rw [hrest]; rfl⟩
        · rcases unsupported_or hrest with hbad | ⟨d, tail, htail⟩
          · exact ⟨[], .unsupported rest hbad, rfl⟩
          · exact hstep d tail htail
      · exact hstep (.literal c hc) rest rfl

/-! ## Printing -/

/-- `text` has been printed to a buffer that held `dest`. -/
structure Printed (dest : Option Bytes) (size : Nat) (text : List UInt8) (f : Formatter) :
    Prop where
  count : f.count = text.length
  str : f.str = dest.map fun d => splice d 0 (text.take (size - 1))
  stores : f.stores = (List.range (min text.length (size - 1))).reverse

/-- `text` was printed, or as much of it as the count allows. -/
inductive Puts (dest : Option Bytes) (size : Nat) (text : List UInt8) (args : List Arg) :
    Except Stop Unit → Formatter → Prop where
  | all {f : Formatter} (hle : text.length ≤ maxCount) (h : Printed dest size text f)
      (ha : f.args = args) : Puts dest size text args (.ok ()) f
  | full {f : Formatter} (hlt : maxCount < text.length)
      (h : Printed dest size (text.take maxCount) f) : Puts dest size text args (.error .out) f

/-- `m` prints `more` and takes the arguments from `args` to `args'`. -/
def Emits (dest : Option Bytes) (size : Nat) (m : FormatProg Unit) (more : List UInt8)
    (args args' : List Arg) : Prop :=
  ∀ text f, text.length ≤ maxCount → Printed dest size text f → f.args = args →
    Prog.Ends m f (Puts dest size (text ++ more) args')

variable {digits more : List UInt8} {base : Nat} {d : Directive} {f : Formatter} {ending : Ending}

section

variable {dest : Option Bytes} {size : Nat} {args args' : List Arg}

theorem emits_pure : Emits dest size (pure ()) [] args args := by
  intro text f hle h ha
  rw [List.append_nil]
  exact .all hle h ha

/-- One after the other. -/
theorem Emits.bind {m k : FormatProg Unit} {a b : List UInt8} {mid : List Arg}
    (hm : Emits dest size m a args mid) (hk : Emits dest size k b mid args') :
    Emits dest size (m >>= fun _ => k) (a ++ b) args args' := by
  intro text f hle h ha
  rw [← List.append_assoc]
  refine (hm text f hle h ha).bind (fun _ f1 h1 => ?_) fun e f1 h1 => ?_
  · cases h1 with
    | all hle1 h1 ha1 => exact hk _ f1 hle1 h1 ha1
  · cases h1 with
    | full hlt h1 =>
      -- what comes later is cut off as well
      refine .full (by rw [List.length_append]; omega) ?_
      rwa [List.take_append_of_le_length hlt.le]

theorem emits_word {k : BitVec 32 → FormatProg Unit} {w : BitVec 32}
    (hk : Emits dest size (k w) more args args') :
    Emits dest size (vaWord >>= k) more (.word w :: args) args' := by
  intro text f hle h ha
  have hva : vaWord f = (.ok w, { f with args }) := by rw [vaWord, ha]
  rw [Prog.Ends, Prog.bind_ok hva]
  exact hk text _ hle ⟨h.count, h.str, h.stores⟩ rfl

theorem emits_string {k : Option CString → FormatProg Unit} {s : Option CString}
    (hk : Emits dest size (k s) more args args') :
    Emits dest size (vaString >>= k) more (.string s :: args) args' := by
  intro text f hle h ha
  have hva : vaString f = (.ok s, { f with args }) := by rw [vaString, ha]
  rw [Prog.Ends, Prog.bind_ok hva]
  exact hk text _ hle ⟨h.count, h.str, h.stores⟩ rfl

variable (hdest : size ≠ 0 → dest.isSome = true)

include hdest in
theorem emits_putc (c : UInt8) : Emits dest size (formatPutc size c) [c] args args := by
  intro text f hle h ha
  unfold formatPutc
  refine Prog.ends_look (Prog.ends_guard (fun hmax => ?_) fun hmax => ?_)
  · have hlen : text.length = maxCount := h.count.symm.trans hmax
    refine .full (by simp [hlen]) ?_
    rwa [← hlen, List.take_left]
  rw [h.count] at hmax ⊢
  have hlen : (text ++ [c]).length = text.length + 1 := List.length_append
  have hroom : (text ++ [c]).length ≤ maxCount := by omega
  by_cases hin : size ≠ 0 ∧ text.length < size - 1
  · -- stored behind the text
    obtain ⟨d, rfl⟩ := Option.isSome_iff_exists.mp (hdest hin.1)
    have hstore : storeAt text.length c f = (.ok (), { f with
        str := some (Function.update (splice d 0 text) text.length c), stores :=
          text.length :: f.stores }) := by
      have hstr := h.str
      rw [List.take_of_length_le (by omega)] at hstr
      rw [storeAt, hstr]
      rfl
    rw [if_pos hin, Prog.Ends, Prog.bind_ok hstore]
    refine .all hroom ⟨?_, ?_, ?_⟩ ha
    · change f.count + 1 = _
      rw [h.count, hlen]
    · have happ := splice_append d 0 text c
      rw [Nat.zero_add] at happ
      change some (Function.update _ _ _) = some _
      rw [List.take_of_length_le (by omega), happ]
    · change text.length :: f.stores = _
      rw [h.stores, hlen, Nat.min_eq_left (by omega), Nat.min_eq_left (by omega), List.range_succ,
        List.reverse_append]
      rfl
  · -- counted only
    have hkeep : text.length + 1 > size - 1 := by omega
    rw [if_neg hin]
    refine .all hroom ⟨?_, ?_, ?_⟩ ha
    · change f.count + 1 = _
      rw [h.count, hlen]
    · change f.str = _
      rw [h.str, List.take_append_of_le_length (by omega)]
    · change f.stores = _
      rw [h.stores, hlen, Nat.min_eq_right (by omega), Nat.min_eq_right (by omega)]

include hdest in
theorem emits_puts (more : List UInt8) : Emits dest size (formatPuts size more) more args args := by
  induction more with
  | nil => exact emits_pure
  | cons c more ih => exact (emits_putc hdest c).bind ih

theorem value_natAbs (w : BitVec 32) : (if w.toInt < 0 then 0#32 - w else w).toNat =
    w.toInt.natAbs := by
  have hlt := w.isLt
  rw [BitVec.toInt_eq_toNat_cond]
  split
  · rw [if_neg (by omega)]
    omega
  · rw [if_pos (by omega), BitVec.zero_sub, BitVec.toNat_neg]
    omega

/-- The digits of a word fit in `number`. -/
theorem divide_word (hb : 1 < base) {write : Char → UInt8}
    (hd : ∀ d, d < base → digits.getD d 0 = write d.digitChar) (w : BitVec 32) :
    divideLoop base (fun d => digits.getD d 0) 32 w.toNat [] =
      some ((Nat.toDigits base w.toNat).map write) := by
  have hlt : w.toNat < base ^ (31 + 1) := w.isLt.trans_le (Nat.pow_le_pow_left hb 32)
  rw [divideLoop_eq hb hd 31 [] hlt, List.append_nil]

theorem lower_digit : ∀ d, d < 16 → lowerDigits.getD d 0 = d.digitChar.toUInt8 := by decide

theorem upper_digit : ∀ d, d < 16 → upperDigits.getD d 0 = d.digitChar.toUpper.toUInt8 := by decide

include hdest in
theorem emits_pad (length width : Nat) :
    Emits dest size (formatPad size length width) (List.replicate (width - length) '0'.toUInt8) args
      args := by
  induction width with
  | zero =>
    rw [Nat.zero_sub]
    exact emits_pure
  | succ width ih =>
    rw [formatPad]
    by_cases h : length < width + 1
    · rw [if_pos h, Nat.succ_sub (Nat.lt_succ_iff.mp h), List.replicate_succ]
      exact (emits_putc hdest _).bind ih
    · rw [if_neg h, Nat.sub_eq_zero_of_le (Nat.not_lt.mp h)]
      exact emits_pure

/-- The characters of a number: the sign, the zeros and the digits. -/
def numberText (negative : Bool) (width : Nat) (number : List UInt8) : List UInt8 :=
  (if negative then ['-'.toUInt8] else []) ++
    (List.replicate (width - (number.length + if negative then 1 else 0)) '0'.toUInt8 ++ number)

include hdest in
/-- Once the word is known and divided. -/
theorem emits_number {width : Nat} {w : BitVec 32} {number : List UInt8} {negative : Bool}
    (hneg : ((c = 'd'.toUInt8 ∨ c = 'i'.toUInt8) ∧ w.toInt < 0) ↔ negative = true)
    (hbase : (if c = 'x'.toUInt8 ∨ c = 'X'.toUInt8 then 16 else 10) = base)
    (hdigits : (if c = 'X'.toUInt8 then upperDigits else lowerDigits) = digits)
    (hdiv : divideLoop base (fun d => digits.getD d 0) 32 (if negative then 0#32 - w else w).toNat
      [] = some number) :
    Emits dest size (formatNumber size c width) (numberText negative width number) (.word w :: args)
      args := by
  refine emits_word ?_
  simp only [hneg, hbase, hdigits, hdiv]
  cases negative with
  | false => exact (emits_pad hdest _ width).bind (emits_puts hdest number)
  | true =>
    exact (emits_putc hdest _).bind ((emits_pad hdest _ width).bind (emits_puts hdest number))

include hdest in
theorem emits_signed (hc : c = 'd'.toUInt8 ∨ c = 'i'.toUInt8) (width : Nat) (w : BitVec 32) :
    Emits dest size (formatNumber size c width)
      (numberText (decide (w.toInt < 0)) width (numeral 10 w.toInt.natAbs)) (.word w :: args)
        args := by
  have hnot : ¬ (c = 'x'.toUInt8 ∨ c = 'X'.toUInt8) ∧ c ≠ 'X'.toUInt8 := by
    rcases hc with rfl | rfl <;> decide
  refine emits_number hdest (by simp [hc]) (if_neg hnot.1) (if_neg hnot.2) ?_
  have hdigit : ∀ d, d < 10 → lowerDigits.getD d 0 = d.digitChar.toUInt8 :=
    fun d hd => lower_digit d (by omega)
  have hdiv := divide_word (by decide) hdigit (if w.toInt < 0 then 0#32 - w else w)
  rw [value_natAbs] at hdiv
  simp only [decide_eq_true_eq, value_natAbs, hdiv]
  rfl

/-- Without a width a signed number is its decimal numeral. -/
theorem numberText_decimal (v : Int) : numberText (decide (v < 0)) 0 (numeral 10 v.natAbs) =
    decimal v := by
  by_cases h : v < 0
  · simp [numberText, decimal, h]
  · simp [numberText, decimal, h]

theorem numberText_two (v : Int) : numberText (decide (v < 0)) 2 (numeral 10 v.natAbs) =
    twoDigits v := by
  have hpos := numeral_length_pos 10 v.natAbs
  have hone := numeral_length_eq_one (n := v.natAbs) (show 1 < 10 by decide)
  by_cases hneg : v < 0
  · have hpad : 2 - ((numeral 10 v.natAbs).length + 1) = 0 := by omega
    simp [numberText, twoDigits, decimal, hneg, hpad, show ¬ 0 ≤ v by omega]
  · by_cases hten : v < 10
    · have hpad : 2 - (numeral 10 v.natAbs).length = 1 := by
        have := hone.mpr (by omega)
        omega
      simp [numberText, twoDigits, decimal, hneg, hpad, hten, show 0 ≤ v by omega]
    · have hpad : 2 - (numeral 10 v.natAbs).length = 0 := by
        have : (numeral 10 v.natAbs).length ≠ 1 := fun h => absurd (hone.mp h) (by omega)
        omega
      simp [numberText, twoDigits, decimal, hneg, hpad, hten]

theorem formatConversion_number (width : Nat)
    (h : c = 'd'.toUInt8 ∨ c = 'i'.toUInt8 ∨ c = 'u'.toUInt8 ∨ c = 'x'.toUInt8 ∨ c = 'X'.toUInt8) :
    formatConversion size c width = formatNumber size c width := by
  have hnot : c ≠ '%'.toUInt8 ∧ c ≠ 'c'.toUInt8 ∧ c ≠ 's'.toUInt8 := by
    rcases h with rfl | rfl | rfl | rfl | rfl <;> decide
  rw [formatConversion, if_neg hnot.1, if_neg hnot.2.1, if_neg hnot.2.2, if_pos h]

include hdest in
theorem emits_unsigned (hc : c = 'u'.toUInt8 ∨ c = 'x'.toUInt8 ∨ c = 'X'.toUInt8) (base : Nat)
    (digits : List UInt8) (write : Char → UInt8) (hb : 1 < base)
    (hbase : (if c = 'x'.toUInt8 ∨ c = 'X'.toUInt8 then 16 else 10) = base)
    (hdigits : (if c = 'X'.toUInt8 then upperDigits else lowerDigits) = digits)
    (hd : ∀ d, d < base → digits.getD d 0 = write d.digitChar) (w : BitVec 32) :
    Emits dest size (formatConversion size c 0) ((Nat.toDigits base w.toNat).map write)
      (.word w :: args) args := by
  have hnot : ¬ (c = 'd'.toUInt8 ∨ c = 'i'.toUInt8) := by rcases hc with rfl | rfl | rfl <;> decide
  have hneg : ((c = 'd'.toUInt8 ∨ c = 'i'.toUInt8) ∧ w.toInt < 0) ↔ false = true :=
    ⟨fun h => absurd h.1 hnot, fun h => (by cases h)⟩
  have hnumber : Emits dest size (formatNumber size c 0)
    (numberText false 0 ((Nat.toDigits base w.toNat).map write))
      (.word w :: args) args := emits_number hdest hneg hbase hdigits (divide_word hb hd w)
  rw [formatConversion_number 0 (Or.inr (Or.inr hc))]
  simpa [numberText] using hnumber

include hdest in
/-- The letter of a conversion prints what its directive says. -/
theorem emits_letter (hd : d.source = ['%'.toUInt8, c]) {text : List UInt8}
    (ho : d.output args = some (text, args')) :
    Emits dest size (formatConversion size c 0) text args args' := by
  cases d with
  | literal _ _ | padded => cases hd
  | percent =>
    cases hd
    cases ho
    exact emits_putc hdest _
  | char =>
    cases hd
    rcases args with _ | ⟨w | s, rest⟩ <;> cases ho
    exact emits_word (emits_putc hdest _)
  | string =>
    cases hd
    rcases args with _ | ⟨w | s, rest⟩ <;> cases ho
    exact emits_string (emits_puts hdest _)
  | signed a h =>
    cases hd
    rcases args with _ | ⟨w | s, rest⟩ <;> cases ho
    rw [formatConversion_number 0 (h.imp_right Or.inl), ← numberText_decimal]
    exact emits_signed hdest h 0 w
  | unsigned =>
    cases hd
    rcases args with _ | ⟨w | s, rest⟩ <;> cases ho
    exact emits_unsigned hdest (by decide) 10 lowerDigits Char.toUInt8 (by decide) rfl rfl
      (fun d hd => lower_digit d (by omega)) w
  | hex upper =>
    cases hd
    rcases args with _ | ⟨w | s, rest⟩ <;> cases ho
    cases upper with
    | false =>
      exact emits_unsigned hdest (by decide) 16 lowerDigits Char.toUInt8 (by decide) rfl rfl
        lower_digit w
    | true =>
      exact emits_unsigned hdest (by decide) 16 upperDigits (fun c => c.toUpper.toUInt8)
        (by decide) rfl rfl upper_digit w

/-! ## The loop over the format -/

theorem readFormat_eq (h : format.bytes = before ++ rest) (k : Nat)
    (hc : (rest ++ [0])[k]? = some c) : readFormat format (before.length + k) = pure c := by
  have hread : (format.bytes ++ [0])[before.length + k]? = some c := by
    rw [h, List.append_assoc, List.getElem?_append_right (Nat.le_add_right _ _),
      Nat.add_sub_cancel_left, hc]
  rw [readFormat, hread]

theorem Directive.source_cases (d : Directive) : (∃ c h, d = .literal c h) ∨ d = .padded ∨
    ∃ c, d.source = ['%'.toUInt8, c] ∧ c ≠ 0 ∧ c ≠ '0'.toUInt8 := by
  cases d with
  | literal c h => exact Or.inl ⟨c, h, rfl⟩
  | padded => exact Or.inr (Or.inl rfl)
  | signed c h =>
    refine Or.inr (Or.inr ⟨c, rfl, ?_⟩)
    rcases h with rfl | rfl <;> decide
  | hex upper =>
    refine Or.inr (Or.inr ⟨_, rfl, ?_⟩)
    cases upper <;> decide
  | percent | char | string | unsigned => exact Or.inr (Or.inr ⟨_, rfl, by decide⟩)

include hdest in
/-- One turn of the loop prints one directive. -/
theorem formatLoop_directive (h : format.bytes = before ++ (d.source ++ rest)) {text : List UInt8}
    (ho : d.output args = some (text, args')) (fuel : Nat) :
    ∃ m, Emits dest size m text args args' ∧ formatLoop size format (fuel + 1) before.length =
      m >>= fun _ => formatLoop size format fuel (before.length + d.source.length) := by
  have hread := fun k {c} hc => readFormat_eq h k (c := c) hc
  rcases d.source_cases with ⟨c, hc, rfl⟩ | rfl | ⟨c, hsource, hzero, hdigit⟩
  · cases ho
    have hne : c ≠ 0 := by
      rintro rfl
      exact format.clean (h ▸ by simp [Directive.source])
    refine ⟨formatPutc size c, emits_putc hdest c, ?_⟩
    rw [formatLoop, ← Nat.add_zero before.length, hread 0 rfl, pure_bind, if_neg hne, if_pos hc]
    rfl
  · refine ⟨formatConversion size 'd'.toUInt8 2, ?_, ?_⟩
    · rcases args with _ | ⟨w | s, rest⟩ <;> cases ho
      rw [formatConversion_number 2 (by decide), ← numberText_two]
      exact emits_signed hdest (Or.inl rfl) 2 w
    · rw [formatLoop, ← Nat.add_zero before.length, hread 0 rfl, pure_bind, if_neg (by decide),
        if_neg (by decide),
        Nat.add_zero, hread 1 rfl, pure_bind, if_neg (by decide), if_pos rfl, hread 2 rfl,
          pure_bind, hread 3 rfl]
      rfl
  · refine ⟨formatConversion size c 0, emits_letter hdest hsource ho, ?_⟩
    rw [hsource] at hread
    rw [formatLoop, ← Nat.add_zero before.length, hread 0 rfl, pure_bind, if_neg (by decide),
      if_neg (by decide),
      Nat.add_zero, hread 1 rfl, pure_bind, if_neg hzero, if_neg hdigit, hsource]
    rfl

/-- How the loop ends when the output is `text`. -/
inductive Ended (dest : Option Bytes) (size : Nat) (text : List UInt8) (supported : Prop) :
    Except Stop Unit → Formatter → Prop where
  | done {f : Formatter} (hs : supported) (hle : text.length ≤ maxCount)
      (h : Printed dest size text f) : Ended dest size text supported (.ok ()) f
  | stopped {f : Formatter} (hs : ¬ supported ∨ maxCount < text.length)
      (h : Printed dest size (text.take maxCount) f) : Ended dest size text supported
        (.error .out) f

include hdest in
/-- What follows the last directive. -/
theorem formatLoop_ending (ending : Ending) (h : format.bytes = before ++ ending.source)
    (fuel : Nat) {text : List UInt8} (hle : text.length ≤ maxCount)
    (hp : Printed dest size text f) : Prog.Ends (formatLoop size format (fuel + 1) before.length) f
      (Ended dest size (text ++ ending.text) ending.Supported) := by
  have hread := fun k {c} hc => readFormat_eq h k (c := c) hc
  cases ending with
  | plain =>
    rw [formatLoop, ← Nat.add_zero before.length, hread 0 rfl, pure_bind, if_pos rfl]
    change Ended dest size (text ++ []) True (.ok ()) f
    rw [List.append_nil]
    exact .done trivial hle hp
  | lone =>
    rw [formatLoop, ← Nat.add_zero before.length, hread 0 rfl, pure_bind, if_neg (by decide),
      if_neg (by decide), Nat.add_zero, hread 1 rfl, pure_bind, if_pos rfl]
    refine (emits_putc hdest _ text f hle hp rfl).mono fun r f' hput => ?_
    cases hput with
    | all hle' h' _ => exact .done trivial hle' h'
    | full hlt h' => exact .stopped (Or.inr hlt) h'
  | unsupported rest hbad =>
    have hstop : Ended dest size (text ++ []) False (.error .out) f := by
      refine .stopped (Or.inl not_false) ?_
      rwa [List.append_nil, List.take_of_length_le hle]
    obtain ⟨c, tail, rfl⟩ : ∃ c tail, rest = c :: tail := by
      cases rest with
      | nil => exact absurd hbad id
      | cons c tail => exact ⟨c, tail, rfl⟩
    have hne : c ≠ 0 := by
      rintro rfl
      exact format.clean (h ▸ by simp [Ending.source])
    rw [formatLoop, ← Nat.add_zero before.length, hread 0 rfl, pure_bind, if_neg (by decide),
      if_neg (by decide), Nat.add_zero, hread 1 rfl, pure_bind, if_neg hne]
    by_cases hzero : c = '0'.toUInt8
    · rw [Unsupported, if_pos hzero] at hbad
      rw [if_pos hzero]
      -- the look-ahead stops at the first character that is not the expected one
      cases tail with
      | nil =>
        rw [hread 2 rfl, pure_bind]
        exact Prog.ends_guard (fun _ => hstop) fun heq => absurd (not_not.mp heq) (by decide)
      | cons a tail =>
        rw [hread 2 rfl, pure_bind]
        refine Prog.ends_guard (fun _ => hstop) fun heq => ?_
        obtain rfl : a = '2'.toUInt8 := not_not.mp heq
        cases tail with
        | nil =>
          rw [hread 3 rfl, pure_bind]
          exact Prog.ends_guard (fun _ => hstop) fun heq => absurd (not_not.mp heq) (by decide)
        | cons b tail =>
          rw [hread 3 rfl, pure_bind]
          refine Prog.ends_guard (fun _ => hstop) fun heq => absurd ?_ hbad
          obtain rfl : b = 'd'.toUInt8 := not_not.mp heq
          exact ⟨tail, rfl⟩
    · rw [Unsupported, if_neg hzero] at hbad
      simp only [conversions, List.map_cons, List.map_nil, List.mem_cons, List.not_mem_nil,
        or_false, not_or] at hbad
      obtain ⟨h1, h2, h3, h4, h5, h6, h7, h8⟩ := hbad
      have hraise : formatConversion size c 0 = Prog.raise .out := by
        rw [formatConversion, if_neg h1, if_neg h2, if_neg h3,
          if_neg (by simp [h4, h5, h6, h7, h8])]
      rw [if_neg hzero, hraise]
      exact hstop

include hdest in
/-- The loop prints what its directives say. -/
theorem formatLoop_ends (ds : List Directive) :
    ∀ {before : List UInt8} {fuel : Nat} {args : List Arg} {text out : List UInt8} {f : Formatter},
      format.bytes = before ++ formatOf ds ending → (formatOf ds ending).length < fuel →
      outputOf ds args = some out → text.length ≤ maxCount → Printed dest size text f →
        f.args = args →
      Prog.Ends (formatLoop size format fuel before.length) f
        (Ended dest size (text ++ (out ++ ending.text)) ending.Supported) := by
  induction ds with
  | nil =>
    intro before fuel args text out f h hfuel ho hle hp _
    obtain ⟨fuel, rfl⟩ : ∃ k, fuel = k + 1 := ⟨fuel - 1, by omega⟩
    cases ho
    exact formatLoop_ending hdest ending h fuel hle hp
  | cons d ds ih =>
    intro before fuel args text out f h hfuel ho hle hp ha
    obtain ⟨fuel, rfl⟩ : ∃ k, fuel = k + 1 := ⟨fuel - 1, by omega⟩
    obtain ⟨⟨first, rest⟩, hd, ho⟩ := Option.bind_eq_some_iff.mp ho
    obtain ⟨later, hlater, ho⟩ := Option.bind_eq_some_iff.mp ho
    cases ho
    rw [formatOf_cons] at h hfuel
    rw [List.length_append] at hfuel
    have hpos := d.source_pos
    obtain ⟨m, hm, hloop⟩ := formatLoop_directive hdest h hd fuel
    have hnext : format.bytes = (before ++ d.source) ++ formatOf ds ending := by
      rw [h, List.append_assoc]
    rw [hloop, List.append_assoc first, ← List.append_assoc text]
    refine (hm text f hle hp ha).bind (fun _ f1 h1 => ?_) fun e f1 h1 => ?_
    · cases h1 with
      | all hle1 h1 ha1 =>
        have hrun : Prog.Ends (formatLoop size format fuel (before ++ d.source).length) f1 _ :=
          ih hnext (by omega) hlater hle1 h1 ha1
        rwa [List.length_append] at hrun
    · cases h1 with
      | full hlt h1 =>
        refine .stopped (Or.inr (by rw [List.length_append]; omega)) ?_
        rwa [List.take_append_of_le_length hlt.le]

/-! ## The call -/

/-- What a call leaves when it has `text` to show: its first `size - 1` characters and a terminator
in `str`, and nothing else was stored. -/
structure Shows (str : Option Bytes) (size : Nat) (text : List UInt8) (r : Formatted) : Prop where
  nothing : size = 0 → r.str = str ∧ r.stores = []
  buffer : ∀ old, 0 < size → str = some old → r.str = some
    (splice old 0 (text.take (size - 1) ++ [0]))
  stores : 0 < size → r.stores.reverse = List.range (min text.length (size - 1) + 1)

include hdest in
theorem formatOut_shows {text : List UInt8} (hp : Printed dest size text f) (result : Int) :
    ∃ r, formatOut size result f = some r ∧ r.result = result ∧ Shows dest size text r := by
  unfold formatOut
  by_cases hsize : size ≠ 0
  · obtain ⟨old, rfl⟩ := Option.isSome_iff_exists.mp (hdest hsize)
    have hindex : (if f.count < size then f.count else size - 1) =
        (text.take (size - 1)).length := by
      rw [hp.count, List.length_take]
      split <;> omega
    have happ := splice_append old 0 (text.take (size - 1)) 0
    rw [Nat.zero_add] at happ
    rw [if_pos hsize, storeAt, hp.str, hindex]
    refine ⟨_, rfl, rfl, fun h => absurd h hsize, ?_, fun _ => ?_⟩
    · rintro _ _ ⟨⟩
      exact congrArg some happ
    · simp [hp.stores, List.range_succ, Nat.min_comm]
  · obtain rfl : size = 0 := not_not.mp hsize
    rw [if_neg (not_not.mpr rfl)]
    refine ⟨_, rfl, rfl, fun _ => ⟨?_, ?_⟩, fun _ h => absurd h (Nat.lt_irrefl 0), fun h =>
      absurd h (Nat.lt_irrefl 0)⟩
    · change f.str = dest
      rw [hp.str]
      cases dest <;> simp [splice_nil]
    · change f.stores = []
      rw [hp.stores]
      simp

include hdest in
/-- A call returns the length of the output, or -1 for an unsupported conversion and for an output
that is too long; the buffer shows what was printed until then. -/
theorem vsnprintf_shows {ds : List Directive} {out : List UInt8}
    (h : format.bytes = formatOf ds ending) (ho : outputOf ds args = some out) :
    ∃ r, vsnprintf dest size (some format) args = some r ∧
      ((ending.Supported ∧ (out ++ ending.text).length ≤ maxCount ∧
        r.result = (out ++ ending.text).length ∧ Shows dest size (out ++ ending.text) r) ∨
      ((¬ ending.Supported ∨ maxCount < (out ++ ending.text).length) ∧ r.result = -1 ∧
        Shows dest size ((out ++ ending.text).take maxCount) r)) := by
  have hnull : ¬ (size ≠ 0 ∧ dest.isNone = true) := by
    rintro ⟨hsize, hnone⟩
    have := hdest hsize
    simp_all
  let start : Formatter := { str := dest, stores := [], count := 0, args }
  have hstart : Printed dest size [] start := by
    refine ⟨rfl, ?_, by simp [start]⟩
    cases dest <;> simp [start, splice_nil]
  have hrun : Prog.Ends (formatLoop size format (format.bytes.length + 1) ([] : List UInt8).length)
      start (Ended dest size ([] ++ (out ++ ending.text)) ending.Supported) :=
    formatLoop_ends hdest ds h (by rw [h]; omega) ho (Nat.zero_le _) hstart rfl
  rw [List.nil_append, List.length_nil, Prog.Ends] at hrun
  rw [vsnprintf, if_neg hnull]
  dsimp only
  cases hloop : formatLoop size format (format.bytes.length + 1) 0 start with
  | mk r f =>
    rw [hloop] at hrun
    cases hrun with
    | done hs hle hp =>
      obtain ⟨r, hr, hresult, hshows⟩ := formatOut_shows hdest hp f.count
      refine ⟨r, hr, Or.inl ⟨hs, hle, ?_, hshows⟩⟩
      rw [hresult, hp.count]
    | stopped hs hp =>
      obtain ⟨r, hr, hresult, hshows⟩ := formatOut_shows hdest hp (-1)
      exact ⟨r, hr, Or.inr ⟨hs, hresult, hshows⟩⟩

end

/-- Every format is a list of directives with an ending, and no argument list that fits it makes a
call read past the format's terminator. With all conversions supported and an output of at most
`INT_MAX` characters the call returns the length of the full output, whatever `size` is, and shows
as much of it as `size` allows; an unsupported conversion returns -1 and shows the output up to it.
`itoa` gives the same decimal numerals. -/
theorem vsnprintf_truncates :
    (∀ format : CString, ∃ ds ending, format.bytes = formatOf ds ending) ∧
    (∀ (format : CString) (ds : List Directive) (ending : Ending) (args : List Arg)
      (text : List UInt8)
      (str : Option Bytes) (size : Nat), format.bytes = formatOf ds ending → outputOf ds args =
        some text →
      (0 < size → str.isSome = true) →
      ∃ r, vsnprintf str size (some format) args = some r ∧
        (ending.Supported → (text ++ ending.text).length ≤ 2 ^ 31 - 1 →
          r.result = (text ++ ending.text).length ∧ Shows str size (text ++ ending.text) r) ∧
        (¬ ending.Supported → r.result = -1 ∧ Shows str size (text.take (2 ^ 31 - 1)) r)) ∧
    ∀ (i : Int) (text : Bytes), InInt i →
      ∃ r loc, itoa i text = some (r, loc) ∧ HoldsString (fun k => r (loc + k)) (decimal i) := by
  refine ⟨fun format => formatOf_cases _ (Nat.lt_succ_self _), ?_, fun i text hi =>
    itoa_decimal hi text⟩
  intro format ds ending args text str size h ho hstr
  obtain ⟨r, hr, hcase⟩ := vsnprintf_shows (fun hne => hstr (Nat.pos_of_ne_zero hne)) h ho
  refine ⟨r, hr, fun hs hle => ?_, fun hs => ?_⟩
  · rcases hcase with ⟨-, -, hresult, hshows⟩ | ⟨hbad, -⟩
    · exact ⟨hresult, hshows⟩
    · exact absurd hle (Nat.not_le.mpr (hbad.resolve_left (not_not.mpr hs)))
  · rcases hcase with ⟨hs', -⟩ | ⟨-, hresult, hshows⟩
    · exact absurd hs' hs
    · have hnone : ending.text = [] := by
        cases ending with
        | unsupported rest hbad => rfl
        | plain | lone => exact absurd trivial hs
      rw [hnone, List.append_nil] at hshows
      exact ⟨hresult, hshows⟩

/-- `"%02d:%d"` with 7 and -2^31 in four bytes. -/
def clockFormat : CString := ⟨['%', '0', '2', 'd', ':', '%', 'd'].map Char.toUInt8, by decide⟩

theorem vsnprintf_truncates_clock : ∃ r,
    vsnprintf (some fun _ => 0xA5) 4 (some clockFormat) [.word 7, .word 0x80000000] = some r ∧
      r.result = 14 ∧
      r.str = some (splice (fun _ => 0xA5) 0 (['0', '7', ':'].map Char.toUInt8 ++ [0])) ∧
      r.stores.reverse = List.range 4 := by
  obtain ⟨r, hr, hok, -⟩ := vsnprintf_truncates.2.1 clockFormat
    [.padded, .literal ':'.toUInt8 (by decide), .signed 'd'.toUInt8 (Or.inl rfl)] .plain
    [.word 7, .word 0x80000000]
    (['0', '7', ':', '-', '2', '1', '4', '7', '4', '8', '3', '6', '4', '8'].map Char.toUInt8)
      (some fun _ => 0xA5) 4
    rfl (by decide) (fun _ => rfl)
  obtain ⟨hresult, hshows⟩ := hok trivial (by decide)
  exact ⟨r, hr, hresult, hshows.buffer _ (by decide) rfl, hshows.stores (by decide)⟩

end Rorthox.Text
