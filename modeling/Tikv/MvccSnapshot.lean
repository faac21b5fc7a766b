import Tikv.MvccRead
/-!
# MvccSnapshot — a snapshot as the scanners see it (`storage::mvcc::reader::scanner`)

A scanner steps one cursor over the write column family of its range, by user key and then newest version first, and one over
the lock column family.  The user key it deals with is the first of the two cursors' keys, in the order of the scan; what it
reads of the key is put out unless it is nothing.
-/
namespace Tikv
namespace Mvcc

open Lib List

structure WriteEntry where
  userKey : Bytes
  commitTs : Nat
  write : Write

/-- The entry comes before the version of `key` at `ts`: a newer version has the smaller key. -/
def WriteEntry.before (key : Bytes) (ts : Nat) (e : WriteEntry) : Bool :=
  e.userKey < key || (e.userKey = key && ts < e.commitTs)

abbrev UserKeys := List (Bytes × KeyState)

def Ascending (ks : UserKeys) : Prop := ks.Pairwise fun a b => a.1 < b.1

/-- **A snapshot**: the user keys in ascending order, each with its lock, records and values. -/
structure Snapshot where
  keys : UserKeys
  ascending : Ascending keys

def Snapshot.range (s : Snapshot) (lower upper : Option Bytes) : UserKeys :=
  s.keys.filter fun x => lower.all (· ≤ x.1) && upper.all (x.1 < ·)

theorem Snapshot.ascending_range (s : Snapshot) (lower upper : Option Bytes) : Ascending (s.range lower upper) :=
  s.ascending.filter _

def entriesOf (key : Bytes) (d : List (Nat × Write)) : List WriteEntry := d.map fun e => ⟨key, e.1, e.2⟩

def writeCf (ks : UserKeys) : List WriteEntry := ks.flatMap fun x => entriesOf x.1 x.2.writes.entries

def lockCf (ks : UserKeys) : List (Bytes × Lock) := ks.filterMap fun x => x.2.lock.map (Prod.mk x.1)

def defaultCf (ks : UserKeys) (key : Bytes) (startTs : Nat) : Option Bytes :=
  (ks.find? fun x => x.1 = key).bind fun x => x.2.values.lookup startTs

def lockCursor (cfg : ReadConfig) (ks : UserKeys) : List (Bytes × Lock) :=
  if needCheckLocks cfg.isolationLevel then lockCf ks else []

def currentUserKey (first : Bytes → Bytes → Bool) (writeKey lockKey : Option Bytes) : Option (Bytes × Bool × Bool) :=
  match writeKey, lockKey with
  | none, none => none
  | none, some lk => some (lk, false, true)
  | some wk, none => some (wk, true, false)
  | some wk, some lk =>
    if first wk lk then some (wk, true, false) else if first lk wk then some (lk, false, true) else some (wk, true, true)

def output (key : Bytes) : Except ReadError (Option Bytes) → Option (Bytes × Except ReadError Bytes)
  | .ok none => none
  | .ok (some v) => some (key, .ok v)
  | .error e => some (key, .error e)

def isMet (cfg : ReadConfig) (k : KeyState) : Bool := !k.writes.entries.isEmpty || (heldLock cfg k).isSome

/-! ## Entries and cursors -/

@[simp] theorem writeCf_nil : writeCf [] = [] := rfl

@[simp] theorem writeCf_cons (x : Bytes × KeyState) (ks : UserKeys) :
    writeCf (x :: ks) = entriesOf x.1 x.2.writes.entries ++ writeCf ks := rfl

theorem writeCf_append (ks ks' : UserKeys) : writeCf (ks ++ ks') = writeCf ks ++ writeCf ks' := flatMap_append

@[simp] theorem entriesOf_nil (key : Bytes) : entriesOf key [] = [] := rfl

@[simp] theorem entriesOf_cons (key : Bytes) (e : Nat × Write) (d : List (Nat × Write)) :
    entriesOf key (e :: d) = ⟨key, e.1, e.2⟩ :: entriesOf key d := rfl

variable {key : Bytes} {e : WriteEntry}

theorem mem_entriesOf {d : List (Nat × Write)} :
    e ∈ entriesOf key d ↔ e.userKey = key ∧ (e.commitTs, e.write) ∈ d := by
  unfold entriesOf
  rw [mem_map]
  constructor
  · rintro ⟨x, hx, rfl⟩
    exact ⟨rfl, hx⟩
  · rintro ⟨rfl, hx⟩
    exact ⟨_, hx, rfl⟩

variable {ks : UserKeys}

theorem exists_of_mem_writeCf (he : e ∈ writeCf ks) : ∃ x ∈ ks, e.userKey = x.1 := by
  obtain ⟨x, hx, hmem⟩ := mem_flatMap.1 he
  exact ⟨x, hx, (mem_entriesOf.1 hmem).1⟩

variable {cfg : ReadConfig}

theorem exists_of_mem_lockCursor {l : Bytes × Lock} (hl : l ∈ lockCursor cfg ks) : ∃ x ∈ ks, l.1 = x.1 := by
  unfold lockCursor at hl
  split at hl
  · obtain ⟨x, hx, hmap⟩ := mem_filterMap.1 hl
    obtain ⟨lock, _, rfl⟩ := Option.map_eq_some_iff.1 hmap
    exact ⟨x, hx, rfl⟩
  · cases hl

theorem lockCursor_cons (x : Bytes × KeyState) : lockCursor cfg (x :: ks) = match heldLock cfg x.2 with
      | some lock => (x.1, lock) :: lockCursor cfg ks
      | none => lockCursor cfg ks := by
  unfold lockCursor heldLock lockCf
  split
  · rw [filterMap_cons]
    cases x.2.lock <;> rfl
  · rfl

theorem lockCursor_append (ks ks' : UserKeys) :
    lockCursor cfg (ks ++ ks') = lockCursor cfg ks ++ lockCursor cfg ks' := by
  unfold lockCursor
  split
  · exact filterMap_append
  · rfl

variable {k : KeyState}

theorem defaultCf_eq (hks : Ascending ks) (hk : (key, k) ∈ ks) : defaultCf ks key = k.values.lookup := by
  unfold defaultCf
  induction ks with
  | nil => cases hk
  | cons x ks ih =>
    obtain ⟨hhead, htail⟩ := pairwise_cons.1 hks
    rcases mem_cons.1 hk with rfl | hk
    · rw [find?_cons_of_pos (by simp)]
      rfl
    rw [find?_cons_of_neg (by simpa using ne_of_lt (hhead _ hk))]
    exact ih htail hk

/-! ## The key of a turn -/

def AtOrLater (first : Bytes → Bytes → Bool) (key : Bytes) (has : Bool) (cursorKey : Option Bytes) : Prop :=
  if has then cursorKey = some key else ∀ k ∈ cursorKey, first key k = true ∧ first k key = false

theorem currentUserKey_eq {first : Bytes → Bytes → Bool} {hasWrite hasLock : Bool}
    {writeKey lockKey : Option Bytes} (hirrefl : first key key = false) (hw : AtOrLater first key hasWrite writeKey)
    (hl : AtOrLater first key hasLock lockKey) (hmet : (hasWrite || hasLock) = true) :
    currentUserKey first writeKey lockKey = some (key, hasWrite, hasLock) := by
  cases hasWrite with
  | true =>
    obtain rfl : writeKey = some key := hw
    cases hasLock with
    | true =>
      obtain rfl : lockKey = some key := hl
      dsimp only [currentUserKey]
      rw [hirrefl]
      rfl
    | false =>
      cases lockKey with
      | none => rfl
      | some lk => exact if_pos (hl lk rfl).1
  | false =>
    obtain rfl : hasLock = true := hmet
    obtain rfl : lockKey = some key := hl
    cases writeKey with
    | none => rfl
    | some wk =>
      obtain ⟨hfirst, hnot⟩ := hw wk rfl
      dsimp only [currentUserKey]
      rw [hnot, hfirst]
      rfl

/-! ## What is put out -/

theorem not_isMet : isMet cfg k = false ↔ k.writes.entries = [] ∧ heldLock cfg k = none := by
  unfold isMet
  rw [Bool.or_eq_false_iff, Bool.not_eq_false', List.isEmpty_iff, Option.isSome_eq_false_iff, Option.isNone_iff_eq_none]

theorem readKey_of_not_isMet (h : isMet cfg k = false) : readKey cfg key k = .ok none := by
  obtain ⟨hwrites, hheld⟩ := not_isMet.1 h
  unfold readKey lockRead
  rw [hheld]
  exact readVisible_of_nil hwrites

theorem filterMap_output :
    ((ks.filter fun x => isMet cfg x.2).map fun x => output x.1 (readKey cfg x.1 x.2)).filterMap id =
      ks.filterMap fun x => output x.1 (readKey cfg x.1 x.2) := by
  rw [filterMap_map, filterMap_filter]
  refine filterMap_congr fun x _ => ?_
  cases hmet : isMet cfg x.2 with
  | true => rfl
  | false =>
    rw [readKey_of_not_isMet hmet]
    rfl

end Mvcc
end Tikv
