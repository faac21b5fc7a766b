import Mathlib.Data.List.DropRight
import Tikv.LibRadix
/-!
# DecimalCodec — the stored form of decimals

`Decimal`, `remove_leading_zeroes`, `write_decimal`, `read_decimal`, `dec_encoded_len` and the comparison of
`tidb_query_datatype/src/codec/mysql/decimal.rs`.  A decimal keeps nine digits to a word, the integer part aligned to
the right and the fraction to the left of the point's words.  The stored form has `prec` and `frac`, then the integer part
in as many bytes as `prec - frac` digits need and the fraction in as many as `frac` digits need: four bytes for nine
digits and one to four for what is left, complemented below zero and with the top bit of the first byte flipped.

Words are natural numbers below `2 ^ 32`; the counts of a decimal are bytes, and `prec - frac` wraps around as it does
in a release build.  A word index past the buffer, where the source panics, reads 0; no decimal that is well formed gets
there without an overflow.
-/
namespace Tikv
namespace Mysql

open Lib

def wordBase : Nat := 10 ^ 9

def dig2Bytes (digits : Nat) : Nat := [0, 1, 1, 2, 2, 3, 3, 4, 4, 4].getD digits 0

/-- The bytes that so many digits take: `word_cnt * WORD_SIZE + DIG_2_BYTES[digits left]`. -/
def fieldSize (digits : Nat) : Nat := digits / 9 * 4 + dig2Bytes (digits % 9)

def wordCnt (len : Nat) : Nat := if 81 < len then 10 else (len + 8) / 9

structure Decimal where
  intCnt : Nat
  fracCnt : Nat
  resultFracCnt : Nat
  negative : Bool
  wordBuf : List Nat
deriving DecidableEq, Repr

/-- `Res` without what it carries. -/
inductive Res
  | ok
  | overflow
  | truncated
deriving DecidableEq, Repr

/-- The errors of `read_decimal` and `dec_encoded_len`, one constructor a message. -/
inductive DecimalError
  /-- "decimal too short: {} < {}" -/
  | tooShort (len least : Nat)
  /-- "invalid decimal, precision {} < frac_cnt {}" -/
  | invalidPrecision (prec fracCnt : UInt8)
  /-- "decoding decimal failed: {:?}" -/
  | decodingFailed (res : Res)
  /-- "invalid leading digits for decimal number" -/
  | leadingDigits
  /-- "invalid int part for decimal number" -/
  | intPart
  /-- "invalid frac part decimal number" -/
  | fracPart
  /-- "invalid trailing digits for decimal number" -/
  | trailingDigits
  | unexpectedEof
deriving DecidableEq, Repr

namespace Decimal

def zero : Decimal :=
  { intCnt := 1, fracCnt := 0, resultFracCnt := 0, negative := false, wordBuf := List.replicate 9 0 }

def word (d : Decimal) (i : Nat) : Nat := d.wordBuf.getD i 0

def intWords (d : Decimal) : List Nat := d.wordBuf.take (wordCnt d.intCnt)

def fracWords (d : Decimal) : List Nat := (d.wordBuf.drop (wordCnt d.intCnt)).take (wordCnt d.fracCnt)

end Decimal

/-! ## Writing -/

def countLeadingZeroes : Nat → Nat → Nat
  | 0, _ => 0
  | i + 1, word => if word < 10 ^ (i + 1) then countLeadingZeroes i word + 1 else 0

/-- The loop of `remove_leading_zeroes` over the words from `idx` on: `i` digits are in the next word. -/
def skipZeroWords : List Nat → Nat → Nat → Nat → Nat × Nat
  | [], cnt, _, idx => (idx, cnt)
  | w :: ws, cnt, i, idx => if 0 < cnt ∧ w = 0 then skipZeroWords ws (cnt - i) 9 (idx + 1) else (idx, cnt)

/-- `remove_leading_zeroes`: the first word that is not 0 among those of the `prec` digits, and the digits left. -/
def Decimal.removeLeadingZeroes (d : Decimal) (prec : Nat) : Nat × Nat :=
  let (wordIdx, cnt) := skipZeroWords d.wordBuf prec ((prec + 8) % 9 + 1) 0
  if 0 < cnt then (wordIdx, cnt - countLeadingZeroes ((cnt - 1) % 9) (d.word wordIdx)) else (wordIdx, cnt)

def xorMask (negative : Bool) (word : Nat) : Nat := if negative then 2 ^ 32 - 1 - word else word

/-- `write_word!`: the low bytes of the word, the very first byte with its top bit flipped. -/
def writeWord (negative : Bool) (out : Bytes) (word size : Nat) : Bytes :=
  let data := toBe size (xorMask negative word)
  out ++ if out.isEmpty then flipTop data else data

def writeMask (negative : Bool) : Nat → Bytes → Bytes
  | 0, out => out
  | n + 1, out => writeMask negative n (writeWord negative out 0 1)

def writeWords (d : Decimal) (negative : Bool) : Nat → Nat → Bytes → Bytes
  | 0, _, out => out
  | n + 1, idx, out => writeWords d negative n (idx + 1) (writeWord negative out (d.word idx) 4)

/-- The loop that takes further digits into the last bytes while they have room: at most `rounds` rounds. -/
def extendTrailing (i lim : Nat) : Nat → Nat → Nat
  | 0, digits => digits
  | rounds + 1, digits =>
    if digits < lim ∧ dig2Bytes digits = i then extendTrailing i lim rounds (digits + 1) else digits

/-- What is written of the integer part: mask bytes before it, the first word, the digits of a leading part and the full
words after it. -/
structure IntPlan where
  padding : Nat
  start : Nat
  leadingDigits : Nat
  wordCnt : Nat
  overflow : Bool

def Decimal.intPlan (d : Decimal) (intCnt : Nat) (isZero : Bool) : IntPlan :=
  let (start, srcIntCnt) := d.removeLeadingZeroes d.intCnt
  if (if isZero then 1 else intCnt) < srcIntCnt then
    { padding := 0
      start := start + (srcIntCnt / 9 - intCnt / 9) + (if 0 < srcIntCnt % 9 then 1 else 0) -
        (if 0 < intCnt % 9 then 1 else 0)
      leadingDigits := intCnt % 9
      wordCnt := intCnt / 9
      overflow := true }
  else
    { padding := fieldSize intCnt - fieldSize srcIntCnt
      start := start
      leadingDigits := srcIntCnt % 9
      wordCnt := srcIntCnt / 9
      overflow := false }

/-- What is written of the fraction: the full words, the digits of a trailing part, and the source's `frac_size`. -/
structure FracPlan where
  wordCnt : Nat
  trailingDigits : Nat
  fracSize : Nat
  truncated : Bool

def Decimal.fracPlan (d : Decimal) (frac : Nat) : FracPlan :=
  if fieldSize frac < fieldSize d.fracCnt then
    { wordCnt := frac / 9, trailingDigits := frac % 9, fracSize := fieldSize frac, truncated := true }
  else if fieldSize d.fracCnt < fieldSize frac ∧ 0 < d.fracCnt % 9 then
    if frac / 9 = d.fracCnt / 9 then
      { wordCnt := d.fracCnt / 9, trailingDigits := frac % 9, fracSize := fieldSize d.fracCnt, truncated := false }
    else
      { wordCnt := d.fracCnt / 9 + 1, trailingDigits := 0, fracSize := fieldSize frac, truncated := false }
  else
    { wordCnt := d.fracCnt / 9, trailingDigits := d.fracCnt % 9, fracSize := fieldSize frac, truncated := false }

def writeTrailing (d : Decimal) (negative : Bool) (frac : Nat) (plan : FracPlan) (idx : Nat) (out : Bytes) : Bytes :=
  if 0 < plan.trailingDigits then
    let i := dig2Bytes plan.trailingDigits
    let lim := if plan.wordCnt < frac / 9 then 9 else frac % 9
    let digits := extendTrailing i lim (lim - plan.trailingDigits) plan.trailingDigits
    writeWord negative out (d.word idx / 10 ^ (9 - digits)) i
  else out

def writeBody (d : Decimal) (negative : Bool) (intCnt frac : Nat) (ip : IntPlan) (fp : FracPlan) : Bytes :=
  let out := writeMask negative ip.padding []
  let out :=
    if 0 < ip.leadingDigits then
      writeWord negative out (d.word ip.start % 10 ^ ip.leadingDigits) (dig2Bytes ip.leadingDigits)
    else out
  let idx := if 0 < ip.leadingDigits then ip.start + 1 else ip.start
  let out := writeWords d negative (ip.wordCnt + fp.wordCnt) idx out
  let out := writeTrailing d negative frac fp (idx + (ip.wordCnt + fp.wordCnt)) out
  if fieldSize d.fracCnt < fp.fracSize then
    writeMask negative (min (fp.fracSize - fieldSize d.fracCnt) (fieldSize intCnt + fp.fracSize - out.length)) out
  else out

def writeDecimal (d : Decimal) (prec frac : UInt8) : Bytes × Res :=
  let intCnt := (prec - frac).toNat
  let isZero := decide ((d.removeLeadingZeroes d.intCnt).2 + fieldSize d.fracCnt = 0)
  let ip := d.intPlan intCnt isZero
  let fp := d.fracPlan frac.toNat
  (prec :: frac :: writeBody d (d.negative && !isZero) intCnt frac.toNat ip fp,
    if fp.truncated then .truncated else if ip.overflow then .overflow else .ok)

/-! ## Reading -/

def decEncodedLen : Bytes → Except DecimalError Nat
  | prec :: frac :: _ =>
    if prec < frac then .error (.invalidPrecision prec frac)
    else .ok (fieldSize (prec.toNat - frac.toNat) + fieldSize frac.toNat + 2)
  | short => .error (.tooShort short.length 2)

structure Reader where
  isFirst : Bool
  rest : Bytes
deriving DecidableEq, Repr

def readWord (size : Nat) (r : Reader) : Except DecimalError (Nat × Reader) :=
  if r.rest.length < size then .error .unexpectedEof
  else
    let data := if r.isFirst then flipTop (r.rest.take size) else r.rest.take size
    .ok (if 128 ≤ (data.headD 0).toNat then ofBe data + (2 ^ 32 - 256 ^ size) else ofBe data,
      { isFirst := false, rest := r.rest.drop size })

def readWords {σ : Type} (negative : Bool) (e : DecimalError) (keep : σ → Nat → σ) :
    Nat → σ → Reader → Except DecimalError (σ × Reader)
  | 0, s, r => .ok (s, r)
  | n + 1, s, r =>
    match readWord 4 r with
    | .error e => .error e
    | .ok (raw, r) =>
      if wordBase ≤ xorMask negative raw then .error e
      else readWords negative e keep n (keep s (xorMask negative raw)) r

structure Parts where
  words : List Nat
  intCnt : Nat
deriving DecidableEq, Repr

/-- A word of the integer part is kept unless only zeros came before it and it is 0 too. -/
def Parts.keepInt (digits : Nat) (s : Parts) (w : Nat) : Parts :=
  if s.words ≠ [] ∨ w ≠ 0 then { s with words := s.words ++ [w] } else { s with intCnt := s.intCnt - digits }

def Parts.keepFrac (s : Parts) (w : Nat) : Parts := { s with words := s.words ++ [w] }

/-- The leading digits; their word may be as large as one digit more allows. -/
def readLeading (negative : Bool) (digits : Nat) (s : Parts) (r : Reader) : Except DecimalError (Parts × Reader) :=
  if 0 < digits then
    match readWord (dig2Bytes digits) r with
    | .error e => .error e
    | .ok (raw, r) =>
      if 10 ^ (digits + 1) ≤ xorMask negative raw then .error .leadingDigits
      else .ok (s.keepInt digits (xorMask negative raw), r)
  else .ok (s, r)

/-- The trailing digits: `checked_mul` in 32 bits, then at most `WORD_MAX`. -/
def readTrailing (negative : Bool) (digits : Nat) (s : Parts) (r : Reader) : Except DecimalError (Parts × Reader) :=
  if 0 < digits then
    match readWord (dig2Bytes digits) r with
    | .error e => .error e
    | .ok (raw, r) =>
      let v := xorMask negative raw * 10 ^ (9 - digits)
      if v < 2 ^ 32 ∧ v < wordBase then .ok (s.keepFrac v, r) else .error .trailingDigits
  else .ok (s, r)

def readParts (negative : Bool) (intCnt fracCnt : Nat) (r : Reader) : Except DecimalError (Parts × Reader) :=
  match readLeading negative (intCnt % 9) { words := [], intCnt := intCnt } r with
  | .error e => .error e
  | .ok (s, r) =>
    match readWords negative .intPart (Parts.keepInt 9) (intCnt / 9) s r with
    | .error e => .error e
    | .ok (s, r) =>
      match readWords negative .fracPart Parts.keepFrac (fracCnt / 9) s r with
      | .error e => .error e
      | .ok (s, r) => readTrailing negative (fracCnt % 9) s r

/-- The decimal with these words; without any digit it is `Decimal::zero`. -/
def Parts.toDecimal (s : Parts) (negative : Bool) (fracCnt : Nat) : Decimal :=
  if s.intCnt = 0 ∧ fracCnt = 0 then Decimal.zero
  else
    { intCnt := s.intCnt
      fracCnt := fracCnt
      resultFracCnt := fracCnt
      negative := negative
      wordBuf := s.words ++ List.replicate (9 - s.words.length) 0 }

def fixWordCntErr (intWordCnt fracWordCnt : Nat) : Res :=
  if 9 < intWordCnt + fracWordCnt then if 9 < intWordCnt then .overflow else .truncated else .ok

def wordTo (digits : Nat) : Nat := digits / 9 + (if 0 < digits % 9 then 1 else 0)

def readDecimal : Bytes → Except DecimalError (Decimal × Bytes)
  | prec :: frac :: first :: rest =>
    if prec < frac then .error (.invalidPrecision prec frac)
    else
      let intCnt := prec.toNat - frac.toNat
      let negative := decide (first &&& 0x80 = 0)
      let res := fixWordCntErr (wordTo intCnt) (wordTo frac.toNat)
      if res = .ok then
        match readParts negative intCnt frac.toNat { isFirst := true, rest := first :: rest } with
        | .error e => .error e
        | .ok (s, r) => .ok (s.toDecimal negative frac.toNat, r.rest)
      else .error (.decodingFailed res)
  | short => .error (.tooShort short.length 3)

/-! ## Comparing -/

/-- The loop of `calc_sub_carry` over the words that are left: `None` for equal numbers, `Some(1)` when the right one is
larger. -/
def compareWords : List Nat → List Nat → Option Nat
  | [], [] => none
  | [], _ :: _ => some 1
  | _ :: _, [] => some 0
  | a :: as, b :: bs => if a = b then compareWords as bs else if a < b then some 1 else some 0

/-- `calc_sub_carry`, its first answer: leading words that are 0 are skipped, then trailing ones. -/
def calcSubCarry (l r : Decimal) : Option Nat :=
  let lInt := l.intWords.dropWhile (· == 0)
  let rInt := r.intWords.dropWhile (· == 0)
  if lInt.length < rInt.length then some 1
  else if rInt.length < lInt.length then some 0
  else
    compareWords ((lInt ++ l.fracWords).rdropWhile (· == 0)) ((rInt ++ r.fracWords).rdropWhile (· == 0))

/-- `Decimal::cmp`; `==` is that it answers `Equal`. -/
def Decimal.cmp (l r : Decimal) : Ordering :=
  if l.negative = r.negative then
    match calcSubCarry l r with
    | none => .eq
    | some carry => if decide (0 < carry) = l.negative then .gt else .lt
  else if l.negative then .lt else .gt

/-! ## What a decimal stands for -/

namespace Decimal

/-- The numeric value: the words are the digits of a number in base `10 ^ 9`, the fraction's words after the point. -/
def value (d : Decimal) : ℚ :=
  (if d.negative then -1 else 1) *
    ((Nat.ofDigits wordBase (d.intWords ++ d.fracWords).reverse : ℕ) / (wordBase : ℚ) ^ d.fracWords.length)

/-- Words below `10 ^ 9`, at least one word, no digits outside the counts; `slack` digits more are let through in the
first word. -/
structure Fits (slack : Nat) (d : Decimal) : Prop where
  length : d.wordBuf.length = 9
  some_word : 1 ≤ wordCnt d.intCnt + wordCnt d.fracCnt
  words_le : wordCnt d.intCnt + wordCnt d.fracCnt ≤ 9
  word_lt : ∀ w ∈ d.intWords ++ d.fracWords, w < wordBase
  head_lt : ∀ w ∈ d.intWords.head?, w < 10 ^ ((d.intCnt + 8) % 9 + 1 + slack)
  last_dvd : ∀ w ∈ d.fracWords.getLast?, 10 ^ (9 * wordCnt d.fracCnt - d.fracCnt) ∣ w

instance instDecidableFits (slack : Nat) (d : Decimal) : Decidable (d.Fits slack) :=
  decidable_of_iff (d.wordBuf.length = 9 ∧ 1 ≤ wordCnt d.intCnt + wordCnt d.fracCnt ∧
      wordCnt d.intCnt + wordCnt d.fracCnt ≤ 9 ∧ (∀ w ∈ d.intWords ++ d.fracWords, w < wordBase) ∧
      (∀ w ∈ d.intWords.head?, w < 10 ^ ((d.intCnt + 8) % 9 + 1 + slack)) ∧
      ∀ w ∈ d.fracWords.getLast?, 10 ^ (9 * wordCnt d.fracCnt - d.fracCnt) ∣ w)
    ⟨fun ⟨h₁, h₂, h₃, h₄, h₅, h₆⟩ => ⟨h₁, h₂, h₃, h₄, h₅, h₆⟩,
      fun h => ⟨h.length, h.some_word, h.words_le, h.word_lt, h.head_lt, h.last_dvd⟩⟩

abbrev WellFormed (d : Decimal) : Prop := d.Fits 0

end Decimal

end Mysql
end Tikv
