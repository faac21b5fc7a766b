import Tikv.LibBytes
/-!
# QueryScanner — scanning the ranges of a request

`RangesScanner` of `tidb_query_common/src/storage/scanner.rs` with its `RangesIterator` (`ranges_iter.rs`), for a scanner
that is aware of the scanned range.  The storage is a fixed sorted map (`Table`); an open scan is the list of the rows it
has still to give.  Beside the rows the scanner keeps the interval it has covered since it was last asked: `current_range`
follows the first and the last range, the working keys the two ends of the interval.  An empty working begin key stands for
one that is not set.
-/
namespace Tikv
namespace Query

open Lib

abbrev Row := Bytes × Bytes

structure IntervalRange where
  lowerInclusive : Bytes
  upperExclusive : Bytes
deriving DecidableEq, Repr

instance instInhabitedIntervalRange : Inhabited IntervalRange := ⟨⟨[], []⟩⟩

def IntervalRange.contains (r : IntervalRange) (key : Bytes) : Bool :=
  decide (r.lowerInclusive ≤ key) && decide (key < r.upperExclusive)

inductive Range
  | point (key : Bytes)
  | interval (r : IntervalRange)
deriving DecidableEq, Repr

/-! ## The storage -/

structure Table where
  entries : List Row
  sorted : entries.Pairwise fun a b => a.1 < b.1

def ownedPair (isKeyOnly : Bool) (e : Row) : Row := if isKeyOnly then (e.1, []) else e

def Table.get (t : Table) (isKeyOnly : Bool) (key : Bytes) : Option Row :=
  (t.entries.find? fun e => decide (e.1 = key)).map (ownedPair isKeyOnly)

def Table.beginScan (t : Table) (isBackward isKeyOnly : Bool) (r : IntervalRange) : List Row :=
  let rows := (t.entries.filter fun e => r.contains e.1).map (ownedPair isKeyOnly)
  if isBackward then rows.reverse else rows

/-! ## The scanner -/

structure Scanner where
  table : Table
  /-- `RangesIterator`: what is left, and whether a range is being scanned. -/
  ranges : List Range
  inRange : Bool
  view : List Row
  scanBackwardInRange : Bool
  isKeyOnly : Bool
  currentRange : IntervalRange
  workingRangeBeginKey : Bytes
  workingRangeEndKey : Bytes

namespace Scanner

def new (table : Table) (ranges : List Range) (scanBackwardInRange isKeyOnly : Bool) : Scanner :=
  { table := table
    ranges := ranges
    inRange := false
    view := []
    scanBackwardInRange := scanBackwardInRange
    isKeyOnly := isKeyOnly
    currentRange := default
    workingRangeBeginKey := []
    workingRangeEndKey := [] }

def scanNext (s : Scanner) : Scanner × Option Row :=
  match s.view with
  | [] => (s, none)
  | row :: view => ({ s with view := view }, some row)

def updateWorkingRangeBeginKey (s : Scanner) : Scanner :=
  if s.workingRangeBeginKey = [] then
    { s with
      workingRangeBeginKey :=
        if s.scanBackwardInRange then s.currentRange.upperExclusive else s.currentRange.lowerInclusive }
  else s

def updateWorkingRangeEndKey (s : Scanner) : Scanner :=
  { s with
    workingRangeEndKey :=
      if s.scanBackwardInRange then s.currentRange.lowerInclusive else s.currentRange.upperExclusive }

/-- What a new point and a new interval do alike: `current_range` is set for the first and the last range. -/
def updateScannedRange (s : Scanner) (r : IntervalRange) : Scanner :=
  updateWorkingRangeBeginKey
    (if s.currentRange.lowerInclusive = [] ∨ s.ranges = [] then { s with currentRange := r } else s)

def updateScannedRangeFromNewPoint (s : Scanner) (key : Bytes) : Scanner := s.updateScannedRange ⟨key, key ++ [0]⟩

def updateScannedRangeFromNewRange (s : Scanner) (r : IntervalRange) : Scanner := s.updateScannedRange r

def updateScannedRangeFromScannedRow (s : Scanner) (row : Row) : Scanner :=
  { s with workingRangeEndKey := if s.scanBackwardInRange then row.1 else row.1 ++ [0] }

def enter (s : Scanner) (r : Range) (left : List Range) : Scanner × Option Row :=
  let s := { s with ranges := left, inRange := true }
  match r with
  | .point key =>
    ({ s.updateScannedRangeFromNewPoint key with inRange := false }, s.table.get s.isKeyOnly key)
  | .interval iv =>
    scanNext { s.updateScannedRangeFromNewRange iv with
      view := s.table.beginScan s.scanBackwardInRange s.isKeyOnly iv }

def found (s : Scanner) (updateScannedRange : Bool) (row : Row) : Scanner :=
  if updateScannedRange then s.updateScannedRangeFromScannedRow row else s

/-- The rounds of the loop that begin with a new range, or find that there is none. -/
def nextRange (updateScannedRange : Bool) : List Range → Scanner → Scanner × Option Row
  | [], s => (s.updateWorkingRangeEndKey, none)
  | r :: left, s =>
    match s.enter r left with
    | (s, some row) => (s.found updateScannedRange row, some row)
    | (s, none) => nextRange updateScannedRange left { s with inRange := false }

/-- `next_opt` up to the format of the row: only the first round of the loop can continue a range. -/
def nextOpt (s : Scanner) (updateScannedRange : Bool) : Scanner × Option Row :=
  if s.inRange then
    match s.scanNext with
    | (s, some row) => (s.found updateScannedRange row, some row)
    | (s, none) => nextRange updateScannedRange s.ranges { s with inRange := false }
  else nextRange updateScannedRange s.ranges s

/-- `next`; `make` is `make_kv_pair` of the key format, which may refuse a row. -/
def next {ε κ : Type} (make : Row → Except ε κ) (s : Scanner) : Scanner × Except ε (Option κ) :=
  match s.nextOpt true with
  | (s, none) => (s, .ok none)
  | (s, some row) => (s, (make row).map some)

/-- `take_scanned_range`: both working keys are taken out, and the far one is where the next interval begins. -/
def takeScannedRange (s : Scanner) : Scanner × IntervalRange :=
  let range :=
    if s.scanBackwardInRange then ⟨s.workingRangeEndKey, s.workingRangeBeginKey⟩
    else ⟨s.workingRangeBeginKey, s.workingRangeEndKey⟩
  ({ s with workingRangeBeginKey := s.workingRangeEndKey, workingRangeEndKey := [] }, range)

end Scanner

/-! ## Calls -/

inductive Call
  | next
  | take
deriving DecidableEq, Repr

inductive Event (ε κ : Type)
  | next (answer : Except ε (Option κ))
  | take (range : IntervalRange)

def Scanner.call {ε κ : Type} (make : Row → Except ε κ) (s : Scanner) : Call → Scanner × Event ε κ
  | .next => ((s.next make).1, .next (s.next make).2)
  | .take => (s.takeScannedRange.1, .take s.takeScannedRange.2)

def Scanner.trace {ε κ : Type} (make : Row → Except ε κ) : Scanner → List Call → List (Event ε κ)
  | _, [] => []
  | s, c :: calls => (s.call make c).2 :: trace make (s.call make c).1 calls

end Query
end Tikv
