import Tikv.LibRadix
/-!
# TimePacked — the packed form of times (`codec::mysql::time`)

A `Time` is a bit field of 64 bits, with the type and the number of fractional digits in the last four.  The packed form has
the same fields but months in base 13 and a wider field of microseconds.  Both are the numbers whose digits are the fields,
each in its own radix (`bits_eq`, `packed_eq`), so both order times as the list of their fields does.

The conversion of timestamps to another time zone is left to `toUtc` and `fromUtc`.
-/
namespace Tikv
namespace Mysql

open Lib

inductive TimeType
  | date | dateTime | timestamp
deriving DecidableEq

/-- The fields of the bit field, each of its width. -/
@[ext] structure Time where
  year : Fin (2 ^ 14)
  month : Fin (2 ^ 4)
  day : Fin (2 ^ 5)
  hour : Fin (2 ^ 5)
  minute : Fin (2 ^ 6)
  second : Fin (2 ^ 6)
  micro : Fin (2 ^ 20)
  fspTt : Fin (2 ^ 4)

structure TimeArgs where
  (year month day hour minute second micro : Nat)
  fsp : Int
  timeType : TimeType

inductive TimeError
  | invalidFsp (fsp : Int)
  | incorrectDatetimeValue

/-- The modes that decide on a zero date; `strictMode` is `STRICT_ALL_TABLES` or `STRICT_TRANS_TABLES`. -/
structure EvalContext where
  (strictMode noZeroDate noZeroInDate ignoreTruncate : Bool)

/-- A zero Date or DateTime is an error. -/
def EvalContext.refusesZero (ctx : EvalContext) : Bool :=
  (ctx.noZeroDate || ctx.noZeroInDate) && ctx.strictMode && !ctx.ignoreTruncate

def checkFsp (fsp : Int) : Except TimeError Nat :=
  if fsp = -1 then .ok 0
  else if 0 ≤ fsp ∧ fsp ≤ 6 then .ok fsp.toNat
  else .error (.invalidFsp fsp)

def timeTypeOf (ft : Nat) : TimeType :=
  if ft >>> 1 = 0b111 then .date else if ft &&& 1 = 0 then .dateTime else .timestamp

def setTt (ft : Nat) (timeType : TimeType) : Nat :=
  let ft := if ft = 0b1110 ∧ timeType ≠ .date then 0 else ft
  match timeType with
  | .date => 0b1110
  | .dateTime => ft &&& 0b1110
  | .timestamp => ft ||| 1

def setFsp (ft fsp : Nat) : Nat :=
  if timeTypeOf ft = .date then ft else (min fsp 6 <<< 1) ||| (ft &&& 1)

namespace Time

def timeType (t : Time) : TimeType := timeTypeOf t.fspTt

def fsp (t : Time) : Nat := if t.timeType = .date then 0 else t.fspTt.val >>> 1

def bits (t : Time) : Nat :=
  t.year * 2 ^ 50 + t.month * 2 ^ 46 + t.day * 2 ^ 41 + t.hour * 2 ^ 36 + t.minute * 2 ^ 30 + t.second * 2 ^ 24 +
    t.micro * 2 ^ 4 + t.fspTt

def isZero (t : Time) : Bool := { t with fspTt := 0 }.bits = 0

def cmp (a b : Time) : Ordering := compare { a with fspTt := 0 }.bits { b with fspTt := 0 }.bits

def uncheckedNew (c : TimeArgs) : Time where
  year := Fin.ofNat _ c.year
  month := Fin.ofNat _ c.month
  day := Fin.ofNat _ c.day
  hour := Fin.ofNat _ c.hour
  minute := Fin.ofNat _ c.minute
  second := Fin.ofNat _ c.second
  micro := Fin.ofNat _ c.micro
  fspTt := Fin.ofNat _ (setFsp (setTt 0 c.timeType) c.fsp.toNat)

/-- `Time::new` of `TimeArgs::zero`.  `handle_zero_date` and, but for a timestamp, `handle_zero_in_date` may refuse it. -/
def zero (ctx : EvalContext) (fsp : Int) (timeType : TimeType) : Except TimeError Time :=
  match checkFsp fsp with
  | .error _ => .error .incorrectDatetimeValue
  | .ok fsp =>
    if (ctx.noZeroDate || timeType ≠ .timestamp && ctx.noZeroInDate) && ctx.strictMode && !ctx.ignoreTruncate then
      .error .incorrectDatetimeValue
    else .ok (uncheckedNew ⟨0, 0, 0, 0, 0, 0, 0, fsp, timeType⟩)

section

variable (fromUtc : TimeArgs → Except TimeError Time) (toUtc : Time → Except TimeError Time)

def fromPackedU64 (ctx : EvalContext) (value : Nat) (timeType : TimeType) (fsp : Int) : Except TimeError Time :=
  if value = 0 then zero ctx fsp timeType
  else
    match checkFsp fsp with
    | .error e => .error e
    | .ok fsp =>
      let ymdhms := value >>> 24
      let ymd := ymdhms >>> 17
      let ym := ymd >>> 5
      let hms := ymdhms &&& (2 ^ 17 - 1)
      let args := {
        year := ym / 13, month := ym % 13, day := ymd &&& (2 ^ 5 - 1), hour := hms >>> 12
        minute := (hms >>> 6) &&& (2 ^ 6 - 1), second := hms &&& (2 ^ 6 - 1), micro := value &&& (2 ^ 24 - 1)
        fsp, timeType : TimeArgs }
      if timeType = .timestamp then fromUtc args else .ok (uncheckedNew args)

def packed (t : Time) : Nat :=
  let ymd := ((t.year.val * 13 + t.month.val) <<< 5) ||| t.day.val
  let hms := (t.hour.val <<< 12) ||| (t.minute.val <<< 6) ||| t.second.val
  (((ymd <<< 17) ||| hms) <<< 24) ||| t.micro.val

def toPackedU64 (t : Time) : Except TimeError Nat :=
  if t.isZero then .ok 0
  else (if t.timeType = .timestamp then toUtc t else .ok t).map packed

end

/-! ## The fields as digits -/

def fields (t : Time) : List Nat := [t.year, t.month, t.day, t.hour, t.minute, t.second, t.micro]

/-- A Date or DateTime; the month may be zero, and the day too. -/
def Valid (t : Time) : Prop := t.month.val ≤ 12 ∧ t.fspTt.val % 2 = 0

def bitRadices : List Nat := [2 ^ 14, 2 ^ 4, 2 ^ 5, 2 ^ 5, 2 ^ 6, 2 ^ 6, 2 ^ 20]

def packedRadices : List Nat := [2 ^ 14, 13, 2 ^ 5, 2 ^ 5, 2 ^ 6, 2 ^ 6, 2 ^ 24]

variable {a b t : Time} {fromUtc : TimeArgs → Except TimeError Time} {toUtc : Time → Except TimeError Time}
  {ctx : EvalContext}

theorem digits_bits (t : Time) : Digits bitRadices t.fields := by
  simp [Digits, bitRadices, fields]

theorem digits_packed (h : t.Valid) : Digits packedRadices t.fields := by
  have := h.1
  simp [Digits, packedRadices, fields]
  omega

theorem bits_eq : { t with fspTt := 0 }.bits = 2 ^ 4 * ofRadices bitRadices t.fields := by
  simp [bits, bitRadices, fields, ofRadices]
  omega

theorem packed_val (t : Time) : t.packed = (((t.year * 13 + t.month) * 2 ^ 5 + t.day) * 2 ^ 17 +
    (t.hour * 2 ^ 12 + t.minute * 2 ^ 6 + t.second)) * 2 ^ 24 + t.micro := by
  have hhms : t.hour.val <<< 12 + t.minute.val <<< 6 + t.second.val < 2 ^ 17 := by omega
  have hmicro : t.micro.val < 2 ^ 24 := by omega
  have hor : t.hour.val <<< 12 ||| t.minute.val <<< 6 ||| t.second.val =
      t.hour.val <<< 12 + t.minute.val <<< 6 + t.second.val := by
    rw [Nat.or_assoc, ← Nat.shiftLeft_add_eq_or_of_lt t.second.isLt, ← Nat.shiftLeft_add_eq_or_of_lt (by omega)]
    omega
  unfold packed
  dsimp only
  rw [hor, ← Nat.shiftLeft_add_eq_or_of_lt t.day.isLt, ← Nat.shiftLeft_add_eq_or_of_lt hhms,
    ← Nat.shiftLeft_add_eq_or_of_lt hmicro]
  omega

theorem packed_eq : t.packed = ofRadices packedRadices t.fields := by
  rw [packed_val]
  simp [packedRadices, fields, ofRadices]
  omega

theorem packed_eq_zero (t : Time) : t.packed = 0 ↔ t.isZero = true := by
  simp [packed_val, isZero, bits, and_assoc]

theorem Valid.ne_timestamp (h : t.Valid) : t.timeType ≠ .timestamp := by
  have hlast : ∀ ft : Fin (2 ^ 4), ft.val % 2 = 0 → timeTypeOf ft ≠ .timestamp := by decide
  exact hlast t.fspTt h.2

theorem toPackedU64_eq (h : t.Valid) : t.toPackedU64 toUtc = .ok t.packed := by
  unfold toPackedU64
  by_cases hzero : t.isZero = true
  · simp [hzero, t.packed_eq_zero.2]
  · simp [hzero, h.ne_timestamp, Except.map]

def args (t : Time) : TimeArgs :=
  ⟨t.year, t.month, t.day, t.hour, t.minute, t.second, t.micro, t.fsp, t.timeType⟩

theorem uncheckedNew_args (h : t.Valid) : uncheckedNew t.args = t ∧ checkFsp t.fsp = .ok t.fsp := by
  have hlast : ∀ ft : Fin (2 ^ 4), ft.val % 2 = 0 → ∀ n, n = (if timeTypeOf ft = .date then 0 else ft.val >>> 1) →
      Fin.ofNat (2 ^ 4) (setFsp (setTt 0 (timeTypeOf ft)) n) = ft ∧ n ≤ 6 := by
    simp only [forall_eq]
    decide
  obtain ⟨hft, hle⟩ := hlast t.fspTt h.2 t.fsp rfl
  constructor
  · ext <;> simp [uncheckedNew, args]
    exact congrArg Fin.val hft
  · simp [checkFsp]
    omega

/-- **The packed form is read back**, but for the zero date in a mode that refuses it. -/
theorem fromPackedU64_packed (h : t.Valid) : fromPackedU64 fromUtc ctx t.packed t.timeType t.fsp =
    if t.isZero && ctx.refusesZero then .error .incorrectDatetimeValue else .ok t := by
  obtain ⟨hnew, hfsp⟩ := uncheckedNew_args h
  have hmonth := h.1
  have hval := t.packed_val
  unfold fromPackedU64
  by_cases hp : t.packed = 0
  · have hargs : t.args = ⟨0, 0, 0, 0, 0, 0, 0, t.fsp, t.timeType⟩ := by
      simp only [args, TimeArgs.mk.injEq, and_true]
      omega
    simp [hp, zero, hfsp, ← hargs, hnew, h.ne_timestamp, t.packed_eq_zero.1 hp, EvalContext.refusesZero]
  · have hzero : t.isZero = false := Bool.eq_false_iff.2 fun hz => hp (t.packed_eq_zero.2 hz)
    simp only [if_neg hp, hfsp, if_neg h.ne_timestamp, Nat.and_two_pow_sub_one_eq_mod, hzero]
    refine congrArg Except.ok ((congrArg uncheckedNew ?_).trans hnew)
    simp only [args, TimeArgs.mk.injEq, and_true]
    omega

/-- **The packed form is an order-preserving code** of 64 bits: packed times compare as their fields do, as `cmp` does, and
are read back, but for the zero date in a strict mode without zero dates. -/
theorem packed_order (fromUtc : TimeArgs → Except TimeError Time) (toUtc : Time → Except TimeError Time)
    (ctx : EvalContext) (ha : a.Valid) (hb : b.Valid) : ∃ p q, a.toPackedU64 toUtc = .ok p ∧ b.toPackedU64 toUtc = .ok q ∧
      p < 2 ^ 64 ∧ (p < q ↔ a.fields < b.fields) ∧ (a.cmp b = .lt ↔ a.fields < b.fields) ∧
      fromPackedU64 fromUtc ctx p a.timeType a.fsp =
        if a.isZero && ctx.refusesZero then .error .incorrectDatetimeValue else .ok a := by
  refine ⟨a.packed, b.packed, toPackedU64_eq ha, toPackedU64_eq hb, ?_, ?_, ?_, fromPackedU64_packed ha⟩
  · rw [packed_val]
    omega
  · rw [packed_eq, packed_eq, ofRadices_lt_iff (digits_packed ha) (digits_packed hb)]
  · rw [← ofRadices_lt_iff (digits_bits a) (digits_bits b)]
    unfold cmp
    rw [compare_lt_iff_lt, bits_eq, bits_eq]
    omega

theorem packed_order_nextYear : ∃ p q, (⟨2023, 12, 31, 23, 59, 59, 999999, 0b1100⟩ : Time).toPackedU64 .ok = .ok p ∧
    (⟨2024, 0, 0, 0, 0, 0, 0, 0b1110⟩ : Time).toPackedU64 .ok = .ok q ∧ p < q := by
  obtain ⟨p, q, hp, hq, -, hlt, -⟩ := packed_order (a := ⟨2023, 12, 31, 23, 59, 59, 999999, 0b1100⟩)
    (b := ⟨2024, 0, 0, 0, 0, 0, 0, 0b1110⟩) (fun _ => .error .incorrectDatetimeValue) .ok ⟨false, false, false, false⟩
    ⟨by decide, rfl⟩ ⟨by decide, rfl⟩
  exact ⟨p, q, hp, hq, hlt.2 (by decide)⟩

/-- The zero date is not read back in a strict mode without zero dates. -/
theorem zero_date_lost : ∃ t : Time, t.Valid ∧ t.timeType = .date ∧ t.toPackedU64 .ok = .ok 0 ∧
    fromPackedU64 (fun c => .ok (uncheckedNew c)) ⟨true, true, false, false⟩ 0 t.timeType t.fsp =
      .error .incorrectDatetimeValue := by
  refine ⟨⟨0, 0, 0, 0, 0, 0, 0, 0b1110⟩, ⟨by decide, rfl⟩, rfl, ?_, rfl⟩
  simp [toPackedU64, isZero, bits]

end Time

end Mysql
end Tikv
