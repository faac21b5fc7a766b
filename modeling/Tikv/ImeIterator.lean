import Tikv.ImeKeys
import Tikv.LibCursor
import Tikv.LibSortedView
/-!
# ImeIterator — reads of an in-memory engine snapshot (`in_memory_engine::read`)

`RegionCacheIterator` walks the internal keys of the skip list and shows the user keys whose newest version visible to the
snapshot is a value.  Going forward it stands at that version.  Going backward it reads ahead: it has saved the key and the
value, and the skip list's iterator stands before all versions of the key.  `view` is what it is for: the sorted list of the
pairs within the bounds.

Prefix mode, the statistics and the perf counters are left out.
-/
namespace Tikv
namespace Ime

open Lib

/-! ## The skip list -/

structure Entry where
  userKey : Bytes
  sequence : UInt64
  vType : ValueType
  value : Bytes
  fits : sequence.toNat < 2 ^ 56
deriving DecidableEq, Repr

namespace Entry

def key (e : Entry) : InternalBytes := encodeInternalBytes e.userKey e.sequence e.vType

def num (e : Entry) : Nat := e.sequence.toNat * 256 + e.vType.toU64.toNat

theorem toNat_key_num (e : Entry) : e.key.num.toNat = e.num := by
  refine (toNat_packNum e.sequence e.vType).trans ?_
  rw [Nat.mod_eq_of_lt e.fits]
  rfl

end Entry

structure SkipList where
  entries : List Entry
  sorted : entries.Pairwise fun a b => a.key.Before b.key

def seekCursor (c : Cursor Entry) (key : InternalBytes) : Cursor Entry := c.seek fun e => decide (e.key.Before key)

def seekCursorForPrev (c : Cursor Entry) (key : InternalBytes) : Cursor Entry :=
  c.seekForPrev fun e => !decide (key.Before e.key)

/-! ## The iterator -/

inductive Direction
  | uninit | forward | backward
deriving DecidableEq, Repr

structure RegionCacheIterator where
  valid : Bool
  iter : Cursor Entry
  lowerBound : Bytes
  upperBound : Bytes
  sequenceNumber : UInt64
  savedUserKey : Bytes
  savedValue : Option Bytes
  direction : Direction

namespace RegionCacheIterator

variable (s : RegionCacheIterator)

def isVisible (seq : UInt64) : Bool := decide (seq ≤ s.sequenceNumber)

inductive Round
  | stop (valid : Bool) (savedUserKey : Bytes)
  | goOn (skipSavedKey : Bool) (savedUserKey : Bytes)

def nextRound (skipSavedKey : Bool) (e : Entry) : Round :=
  if s.upperBound ≤ e.userKey then .stop false s.savedUserKey
  else if s.isVisible e.sequence then
    if skipSavedKey && e.userKey = s.savedUserKey then .goOn skipSavedKey s.savedUserKey
    else match e.vType with
      | .deletion => .goOn true e.userKey
      | .value => .stop true e.userKey
  -- the user key changed, so no need to skip it
  else if skipSavedKey && s.savedUserKey < e.userKey then .goOn false s.savedUserKey
  else .goOn skipSavedKey s.savedUserKey

/-- The loop of `find_next_visible_key`, with the iterator at `e` between the entries before and after. -/
def findNextFrom : (after : List Entry) → RegionCacheIterator → (skipSavedKey : Bool) → (e : Entry) →
    (before : List Entry) → RegionCacheIterator
  | after, s, skipSavedKey, e, before =>
    match s.nextRound skipSavedKey e with
    | .stop valid savedUserKey => { s with valid, savedUserKey, iter := ⟨e :: before, after⟩ }
    | .goOn skipSavedKey savedUserKey =>
      match after with
      | [] => { s with valid := false, savedUserKey, iter := Cursor.next ⟨e :: before, []⟩ }
      | e' :: after => findNextFrom after { s with savedUserKey } skipSavedKey e' (e :: before)

def findNextVisibleKey (skipSavedKey : Bool) : RegionCacheIterator :=
  match s.iter with
  | ⟨[], _⟩ => { s with valid := false }
  | ⟨e :: before, after⟩ => findNextFrom after s skipSavedKey e before

def seekInternal (key : InternalBytes) : RegionCacheIterator :=
  let s := { s with iter := seekCursor s.iter key }
  if s.iter.valid then s.findNextVisibleKey false else { s with valid := false }

/-- The loop of `find_value_for_current_key`, with the type of the last entry it passed. -/
def findValueFrom : (upto : List Entry) → RegionCacheIterator → (after : List Entry) → ValueType →
    RegionCacheIterator × ValueType
  | [], s, after, last => ({ s with iter := ⟨[], after⟩ }, last)
  | e :: upto, s, after, last =>
    -- no further version is visible or the user key changed
    if s.isVisible e.sequence = false ∨ s.savedUserKey ≠ e.userKey then ({ s with iter := ⟨e :: upto, after⟩ }, last)
    else
      let savedValue := match e.vType with
        | .value => some e.value
        | .deletion => none
      findValueFrom upto { s with savedValue } (e :: after) e.vType

def findValueForCurrentKey : RegionCacheIterator × Bool :=
  let (s, last) := findValueFrom s.iter.upto s s.iter.after .deletion
  ({ s with valid := last = .value }, s.iter.valid)

def findBeforeFrom (savedUserKey : Bytes) : (upto after : List Entry) → Cursor Entry
  | [], after => ⟨[], after⟩
  | e :: upto, after =>
    if e.userKey < savedUserKey then ⟨e :: upto, after⟩ else findBeforeFrom savedUserKey upto (e :: after)

def findUserKeyBeforeSaved : RegionCacheIterator :=
  { s with iter := findBeforeFrom s.savedUserKey s.iter.upto s.iter.after }

/-- The loop of `prev_internal`; each round goes back by one user key at least, so that there are no more rounds than
entries. -/
def prevLoop : Nat → RegionCacheIterator → RegionCacheIterator
  | 0, s => { s with valid := false }
  | rounds + 1, s =>
    match s.iter.current? with
    | none => { s with valid := false }
    | some e =>
      let s := { s with savedUserKey := e.userKey }
      if e.userKey < s.lowerBound then { s with valid := false }
      else
        let (s, more) := s.findValueForCurrentKey
        if more = false then s
        else
          let s := s.findUserKeyBeforeSaved
          if s.valid then s else prevLoop rounds s

def prevInternal : RegionCacheIterator := prevLoop s.iter.upto.length s

def seekForPrevInternal (key : InternalBytes) : RegionCacheIterator :=
  { s with iter := seekCursorForPrev s.iter key }.prevInternal

def reverseToBackward : RegionCacheIterator :=
  { s with direction := .backward }.findUserKeyBeforeSaved

def forwardTo (savedUserKey : Bytes) : (after : List Entry) → (e : Entry) → (before : List Entry) → Cursor Entry
  | after, e, before =>
    if savedUserKey ≤ e.userKey then ⟨e :: before, after⟩
    else match after with
      | [] => Cursor.next ⟨e :: before, []⟩
      | e' :: after => forwardTo savedUserKey after e' (e :: before)

def reverseToForward : RegionCacheIterator :=
  let iter := if s.iter.valid then s.iter else seekCursor s.iter (encodeSeekKey s.savedUserKey maxSequenceNumber)
  { s with
    direction := .forward
    iter := match iter with
      | ⟨[], after⟩ => ⟨[], after⟩
      | ⟨e :: before, after⟩ => forwardTo s.savedUserKey after e before }

def key : Option Bytes := if s.valid then some s.savedUserKey else none

/-- `value`; it panics as well where no value was saved. -/
def value : Option Bytes :=
  if s.valid then
    if s.direction = .backward then s.savedValue else s.iter.current?.map Entry.value
  else none

def stepNext : RegionCacheIterator :=
  let s := if s.direction = .backward then s.reverseToForward else s
  let s := { s with iter := s.iter.next }
  let s := { s with valid := s.iter.valid }
  if s.valid then s.findNextVisibleKey true else s

def stepPrev : RegionCacheIterator :=
  let s := if s.direction = .forward then s.reverseToBackward else s
  s.prevInternal

def seek (key : Bytes) : RegionCacheIterator :=
  let s := { s with direction := .forward }
  let seekKey := if key < s.lowerBound then s.lowerBound else key
  s.seekInternal (encodeSeekKey seekKey s.sequenceNumber)

def seekForPrev (key : Bytes) : RegionCacheIterator :=
  let s := { s with direction := .backward }
  let seekKey := if s.upperBound < key then encodeSeekForPrevKey s.upperBound u64Max else encodeSeekForPrevKey key 0
  s.seekForPrevInternal seekKey

def seekToFirst : RegionCacheIterator :=
  let s := { s with direction := .forward }
  s.seekInternal (encodeSeekKey s.lowerBound s.sequenceNumber)

def seekToLast : RegionCacheIterator :=
  let s := { s with direction := .backward }
  s.seekForPrevInternal (encodeSeekForPrevKey s.upperBound u64Max)

/-- A call of the `Iterator` trait; a step from an iterator that is not valid panics. -/
def call : Move Bytes → Option RegionCacheIterator
  | .seek key => some (s.seek key)
  | .seekForPrev key => some (s.seekForPrev key)
  | .seekToFirst => some s.seekToFirst
  | .seekToLast => some s.seekToLast
  | .next => if s.valid then some s.stepNext else none
  | .prev => if s.valid then some s.stepPrev else none

end RegionCacheIterator

/-! ## The snapshot -/

/-- A snapshot of a region.  A sequence number of RocksDB has 56 bits; `u64::MAX` stands for the newest. -/
structure RegionCacheSnapshot where
  regionStart : Bytes
  regionEnd : Bytes
  sequenceNumber : UInt64
  encodable : Encodable sequenceNumber
  data : SkipList

inductive Error
  | boundaryNotSet
  | boundariesExceed (lower upper start endKey : Bytes)
  | keyNotInRange (key start endKey : Bytes)
deriving DecidableEq, Repr

namespace RegionCacheSnapshot

variable (snap : RegionCacheSnapshot)

def iteratorOpt (lowerBound upperBound : Option Bytes) : Except Error RegionCacheIterator :=
  match lowerBound, upperBound with
  | some lower, some upper =>
    if lower < snap.regionStart ∨ snap.regionEnd < upper then
      .error (.boundariesExceed lower upper snap.regionStart snap.regionEnd)
    else
      .ok { valid := false, iter := ⟨[], snap.data.entries⟩, lowerBound := lower, upperBound := upper
            sequenceNumber := snap.sequenceNumber, savedUserKey := [], savedValue := none, direction := .uninit }
  | _, _ => .error .boundaryNotSet

def getValueCfOpt (key : Bytes) : Except Error (Option Bytes) :=
  if snap.regionStart ≤ key ∧ key < snap.regionEnd then
    let iter := seekCursor ⟨[], snap.data.entries⟩ (encodeSeekKey key snap.sequenceNumber)
    match iter.current? with
    | none => .ok none
    | some e => .ok (if e.userKey = key ∧ e.vType = .value then some e.value else none)
  else .error (.keyNotInRange key snap.regionStart snap.regionEnd)

end RegionCacheSnapshot

/-! ## What is visible -/

def Newest (l : List Entry) (q : UInt64) (e : Entry) : Prop :=
  e.sequence ≤ q ∧ ∀ y ∈ l, y.userKey = e.userKey → y.sequence ≤ q → y.num ≤ e.num

instance instDecidableNewest (l : List Entry) (q : UInt64) (e : Entry) : Decidable (Newest l q e) :=
  inferInstanceAs (Decidable (_ ∧ _))

def Shown (l : List Entry) (q : UInt64) (e : Entry) : Prop := e ∈ l ∧ Newest l q e ∧ e.vType = .value

instance instDecidableShown (l : List Entry) (q : UInt64) (e : Entry) : Decidable (Shown l q e) :=
  inferInstanceAs (Decidable (_ ∧ _))

end Ime
end Tikv
