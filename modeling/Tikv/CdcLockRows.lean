import Tikv.CdcLockTracker
import Tikv.LibTally
import Tikv.TxnKey
/-!
# CdcLockRows — the rows of a command and the locks they change (`delegate.rs`)

A command of the raft log puts records into the lock, write and default column families.  `sinkTxnPutRow` gathers what one
command does to a key in one row, and changes the lock tracker on the way; the row keeps by how much each start
timestamp's locks have changed.  `finishBuild` leaves out a row whose last lock is a Put without a value.

`unresolvedAfter` says which Put and Delete locks are unresolved after a put, from the records alone.  Along a command,
the counts of a key's row are the way of the key from its lock before the command to the one after it (`RowsInv`), and a
row that is left out has none (`incomplete_counts`).
-/
namespace Tikv
namespace Cdc
namespace Track

open Lib Txn List Track.Delegate Map

/-! ## Records -/

inductive LockType
  | put | delete | lock | pessimistic
deriving DecidableEq, Repr

structure LockRecord where
  lockType : LockType
  ts : Nat
  hasShortValue : Bool
  forUpdateTs : Nat
  txnSource : Nat
deriving DecidableEq, Repr

structure WriteRecord where
  writeType : WriteType
  startTs : Nat
  hasShortValue : Bool
  hasOverlappedRollback : Bool
  hasGcFence : Bool
  txnSource : Nat
deriving DecidableEq, Repr

inductive TxnPut
  | write (key : Bytes) (commitTs : Nat) (write : WriteRecord)
  | lock (key : Bytes) (lock : LockRecord)
  | default (key : Bytes) (startTs : Nat)
deriving DecidableEq, Repr

def TxnPut.key : TxnPut → Bytes
  | .write key _ _ => key
  | .lock key _ => key
  | .default key _ => key

/-- Why a delegate does not go on: an error, after which it is deregistered, or a failed assertion. -/
inductive Stop
  | memoryQuotaExceeded
  | oldValue
  | sink (downstream : Nat)
  | panic (message : String)
deriving DecidableEq, Repr

/-! ## Rows -/

inductive EventRowOpType
  | unknown | put | delete
deriving DecidableEq, Repr

inductive EventLogType
  | uninitialized | prewrite | commit | committed | rollback
deriving DecidableEq, Repr

structure EventRow where
  key : Bytes
  startTs : Nat
  commitTs : Nat
  opType : EventRowOpType
  rType : EventLogType
deriving DecidableEq, Repr

structure RowInBuilding where
  v : EventRow
  hasValue : Bool
  lockModifiedCounts : List LockModifiedCount
  needsOldValue : Option Nat
deriving DecidableEq, Repr

def RowInBuilding.default : RowInBuilding := ⟨⟨[], 0, 0, .unknown, .uninitialized⟩, false, [], none⟩

abbrev Rows := Map Bytes RowInBuilding

def decodeWrite (key : Bytes) (commitTs : Nat) (write : WriteRecord) (row : RowInBuilding) :
    Except Stop (RowInBuilding × Bool) :=
  if write.hasGcFence then
    -- the record was rewritten for a rollback at its commit timestamp
    if !write.hasOverlappedRollback then .error (.panic "assertion failed: write.has_overlapped_rollback")
    else if write.writeType = .rollback then .error (.panic "assertion failed: write.write_type != Rollback")
    else .ok ({ row with v := ⟨key, commitTs, 0, .unknown, .rollback⟩ }, false)
  else
    let hasValue := row.hasValue || write.hasShortValue
    match write.writeType with
    | .put => .ok ({ row with v := ⟨key, write.startTs, commitTs, .put, .commit⟩, hasValue }, false)
    | .delete => .ok ({ row with v := ⟨key, write.startTs, commitTs, .delete, .commit⟩, hasValue }, false)
    | .rollback =>
      if write.txnSource ≠ 0 then .error (.panic "assertion failed: write.txn_source == 0")
      else .ok ({ row with v := ⟨key, write.startTs, 0, .unknown, .rollback⟩, hasValue }, false)
    | .lock => .ok (row, true)

def decodeLock (key : Bytes) (lock : LockRecord) (row : RowInBuilding) : Except Stop (RowInBuilding × Bool) :=
  let decoded (opType : EventRowOpType) : Except Stop (RowInBuilding × Bool) :=
    let v : EventRow := { row.v with key, startTs := lock.ts, opType, rType := .prewrite }
    if lock.hasShortValue then
      if row.hasValue then .error (.panic "unexpected lock with value")
      else .ok ({ row with v, hasValue := true }, false)
    else .ok ({ row with v }, false)
  match lock.lockType with
  | .put => decoded .put
  | .delete => decoded .delete
  | .lock => .ok (row, true)
  | .pessimistic => .ok (row, true)

theorem length_le_add (bytes : Bytes) (n : Nat) : bytes.length ≤ bytes.length + n := Nat.le_add_right _ _

def lockKey (key : Bytes) : Key := ⟨fromRaw key, (fromRaw key).length + 8, length_le_add _ 8⟩

def writeKey (key : Bytes) : Key := ⟨fromRaw key, (fromRaw key).length + 16, length_le_add _ 16⟩

def addCounts (rows : Rows) (e : Bytes) (row : RowInBuilding) :
    Option (Delegate × Counts) → Except Stop (Delegate × Rows)
  | none => .error (.panic "internal error: entered unreachable code")
  | some (_, none) => .error .memoryQuotaExceeded
  | some (d, some modified) =>
    .ok (d, rows.insert e { row with lockModifiedCounts := row.lockModifiedCounts ++ modified })

/-- The part of `sink_txn_put` after the PCR one. -/
def sinkTxnPutRow (isOnePc : Bool) (d : Delegate) (rows : Rows) : TxnPut → Except Stop (Delegate × Rows)
  | .write key commitTs write =>
    let e := fromRaw key
    match decodeWrite key commitTs write ((rows.lookup e).getD .default) with
    | .error stop => .error stop
    | .ok (row, true) => .ok (d, rows.insert e row)
    | .ok (row, false) =>
      if isOnePc then
        if row.v.rType ≠ .commit then .error (.panic "assertion failed: row.v.r_type == Commit")
        else
          let v := { row.v with rType := .committed }
          .ok (d, rows.insert e { row with v, needsOldValue := some (row.v.commitTs - 1) })
      else addCounts rows e row (d.popLock (writeKey key) row.v.startTs)
  | .lock key lock =>
    let e := fromRaw key
    match decodeLock key lock ((rows.lookup e).getD .default) with
    | .error stop => .error stop
    | .ok (row, true) => .ok (d, rows.insert e row)
    | .ok (row, false) =>
      addCounts rows e { row with needsOldValue := some (max lock.forUpdateTs row.v.startTs) }
        (d.pushLock (lockKey key) ⟨row.v.startTs, lock.txnSource⟩)
  | .default key _ =>
    let e := fromRaw key
    .ok (d, rows.insert e { (rows.lookup e).getD .default with hasValue := true })

def sinkTxnPutRows (isOnePc : Bool) (d : Delegate) (puts : List TxnPut) : Except Stop (Delegate × Rows) :=
  puts.foldlM (fun s put => sinkTxnPutRow isOnePc s.1 s.2 put) (d, ∅)

def RowInBuilding.incomplete (row : RowInBuilding) : Bool :=
  decide (row.v.rType = .prewrite) && decide (row.v.opType = .put) && !row.hasValue

abbrev HashOrder := { order : List ((_ : Bytes) × RowInBuilding) → List ((_ : Bytes) × RowInBuilding) //
  ∀ l, (order l).Perm l }

def finishBuild (order : HashOrder) (rows : Rows) : List RowInBuilding :=
  ((order.1 rows.entries).map (·.2)).filter fun row => !row.incomplete

/-! ## Which locks are unresolved -/

def WriteRecord.resolves (write : WriteRecord) (commitTs : Nat) : Option Nat :=
  if write.hasGcFence then some commitTs else if write.writeType = .lock then none else some write.startTs

def LockRecord.tracked (lock : LockRecord) : Bool := decide (lock.lockType = .put) || decide (lock.lockType = .delete)

/-- **The unresolved Put and Delete locks after a put**, by encoded key: a lock takes the place of the one before it, and
a record of its transaction resolves it. -/
def unresolvedAfter (u : Map Bytes Nat) : TxnPut → Map Bytes Nat
  | .write key commitTs write =>
    match write.resolves commitTs with
    | some startTs => if u.lookup (fromRaw key) = some startTs then u.erase (fromRaw key) else u
    | none => u
  | .lock key lock => if lock.tracked then u.insert (fromRaw key) lock.ts else u
  | .default _ _ => u

def unresolvedAfterAll (u : Map Bytes Nat) (puts : List TxnPut) : Map Bytes Nat := puts.foldl unresolvedAfter u

def TxnPut.Opens (u : Map Bytes Nat) (e : Bytes) : TxnPut → Prop
  | .lock key l => fromRaw key = e ∧ l.tracked ∧ u.lookup e ≠ some l.ts
  | _ => False

def OpensAmong (u : Map Bytes Nat) (puts : List TxnPut) (e : Bytes) : Prop :=
  ∃ pre put post, puts = pre ++ put :: post ∧ put.Opens (unresolvedAfterAll u pre) e

def TxnPut.BringsValue (e : Bytes) : TxnPut → Prop
  | .lock key l => fromRaw key = e ∧ l.tracked ∧ l.hasShortValue
  | .default key _ => fromRaw key = e
  | .write _ _ _ => False

def TxnPut.LocksForPut (e : Bytes) : TxnPut → Prop
  | .lock key l => fromRaw key = e ∧ l.lockType = .put
  | _ => False

/-- **What the transactions' protocol makes of a command**: a command that locks a key for a Put anew brings its value,
and a one-phase commit finds no lock of its transaction. -/
structure Proper (u : Map Bytes Nat) (isOnePc : Bool) (puts : List TxnPut) : Prop where
  value : ∀ e, OpensAmong u puts e → (∃ put ∈ puts, put.LocksForPut e) → ∃ put ∈ puts, put.BringsValue e
  onePc : isOnePc = true → ∀ pre key commitTs write post, puts = pre ++ .write key commitTs write :: post →
    ∀ startTs, write.resolves commitTs = some startTs → (unresolvedAfterAll u pre).lookup (fromRaw key) ≠ some startTs

/-! ## The tracker follows the puts -/

def tsAt (locks : LockMap) (e : Bytes) : Option Nat := (locks.lookup e).map (·.2.ts)

/-- **The tracker has the unresolved locks**: once it is prepared, in its map; before, when its list is put onto the
locks that were there when it began. -/
def Tracks (scanned u : Map Bytes Nat) : LockTracker → Prop
  | .pending => False
  | .preparing delta => ∀ locks locks', (∀ e, tsAt locks e = scanned.lookup e) →
      delta.foldlM Delegate.applyPending locks = some locks' → ∀ e, tsAt locks' e = u.lookup e
  | .prepared _ locks => ∀ e, tsAt locks e = u.lookup e

def counts (l : List LockModifiedCount) : List (Nat × Int) := l.map fun m => (m.startTs, m.count)

variable {locks : LockMap} {e e' : Bytes} {held : Key × MiniLock}

theorem tsAt_insert : tsAt (locks.insert e held) e' = if e' = e then some held.2.ts else tsAt locks e' := by
  unfold tsAt
  rw [lookup_insert]
  split <;> rfl

theorem tsAt_erase : tsAt (locks.erase e) e' = if e' = e then none else tsAt locks e' := by
  unfold tsAt
  rw [lookup_erase]
  split <;> rfl

theorem tsAt_eq_some (h : locks.lookup e = some held) : tsAt locks e = some held.2.ts := by
  unfold tsAt
  rw [h]; rfl

theorem tsAt_eq_none (h : locks.lookup e = none) : tsAt locks e = none := by
  unfold tsAt
  rw [h]; rfl

variable {key : Key} {startTs : MiniLock} {locks' : LockMap}

theorem applyPending_track (h : applyPending locks (.track key startTs) = some locks') (e : Bytes) :
    tsAt locks' e = if e = key.bytes then some startTs.ts else tsAt locks e := by
  unfold applyPending at h
  dsimp only at h
  split at h
  · cases h
    exact tsAt_insert
  rename_i hl
  split at h
  · rename_i heq
    cases h
    split
    · rename_i he
      rw [he, tsAt_eq_some hl, heq]
    · rfl
  · cases h

theorem applyPending_untrack {startTs : Nat}
    (h : applyPending locks (.untrack key startTs) = some locks') (e : Bytes) :
    tsAt locks' e = if e = key.bytes ∧ tsAt locks key.bytes = some startTs then none else tsAt locks e := by
  unfold applyPending at h
  dsimp only at h
  split at h
  · rename_i hl
    rw [tsAt_eq_some hl]
    split at h
    · rename_i heq
      cases h
      rw [tsAt_erase, heq]
      simp
    · rename_i hne
      cases h
      simp [hne]
  · rename_i hl
    cases h
    rw [tsAt_eq_none hl]
    simp

def LockTracker.IsPrepared (t : LockTracker) : Prop := ∃ region locks, t = .prepared region locks

section

variable {scanned u : Map Bytes Nat} {d d' : Delegate} {modified : List LockModifiedCount}

theorem Tracks.append {u' : Map Bytes Nat} {delta : List PendingLock} {l : PendingLock}
    (ht : Tracks scanned u (.preparing delta))
    (hl : ∀ locks locks', (∀ e, tsAt locks e = u.lookup e) → applyPending locks l = some locks' →
      ∀ e, tsAt locks' e = u'.lookup e) : Tracks scanned u' (.preparing (delta ++ [l])) := by
  intro locks locks' hscan hfold
  rw [foldlM_append] at hfold
  obtain ⟨locks₁, h₁, h₂⟩ := Option.bind_eq_some_iff.1 hfold
  rw [foldlM_cons] at h₂
  obtain ⟨locks₂, h₂, h₃⟩ := Option.bind_eq_some_iff.1 h₂
  cases h₃
  exact hl locks₁ locks' (ht locks locks₁ hscan h₁) h₂

theorem pushLock_tracks (ht : Tracks scanned u d.lockTracker) (h : d.pushLock key startTs = some (d', some modified)) :
    Tracks scanned (u.insert key.bytes startTs.ts) d'.lockTracker ∧
      (d.lockTracker.IsPrepared → d'.lockTracker.IsPrepared ∧
        Walk (u.lookup key.bytes) (counts modified) (some startTs.ts) ∧
        (u.lookup key.bytes = some startTs.ts → modified = [])) := by
  obtain ⟨q, tracker⟩ := d
  unfold pushLock at h
  cases tracker with
  | pending => cases h
  | preparing delta =>
    dsimp only at h ht
    refine ⟨?_, fun ⟨region, locks, hp⟩ => by cases hp⟩
    split at h
    · cases h
    cases h
    refine ht.append fun locks locks' hlocks happly e => ?_
    rw [applyPending_track happly, lookup_insert, hlocks]
  | prepared region locks =>
    dsimp only at h ht
    have hkey : u.lookup key.bytes = tsAt locks key.bytes := (ht key.bytes).symm
    split at h
    · rename_i old hl
      rw [tsAt_eq_some hl] at hkey
      split at h
      · rename_i hne
        cases h
        refine ⟨fun e => ?_, fun _ => ⟨⟨region, _, rfl⟩, ?_, fun hsame => ?_⟩⟩
        · rw [tsAt_insert, lookup_insert, ht e]
        · rw [hkey]
          exact .leave (.enter (.nil _))
        · rw [hkey] at hsame
          exact absurd (Option.some.inj hsame) hne
      · rename_i hts
        cases h
        have hts : old.ts = startTs.ts := not_not.1 hts
        refine ⟨fun e => ?_, fun _ => ⟨⟨region, _, rfl⟩, ?_, fun _ => rfl⟩⟩
        · rw [lookup_insert]
          split
          · rename_i he
            rw [he, tsAt_eq_some hl, hts]
          · exact ht e
        · rw [hkey, hts]
          exact .nil _
    · rename_i hl
      rw [tsAt_eq_none hl] at hkey
      split at h
      · cases h
      cases h
      refine ⟨fun e => ?_, fun _ => ⟨⟨region, _, rfl⟩, ?_, fun hsame => ?_⟩⟩
      · rw [tsAt_insert, lookup_insert, ht e]
      · rw [hkey]
        exact .enter (.nil _)
      · rw [hkey] at hsame
        cases hsame

def resolved (u : Map Bytes Nat) (e : Bytes) (startTs : Nat) : Map Bytes Nat :=
  if u.lookup e = some startTs then u.erase e else u

theorem lookup_resolved {startTs : Nat} :
    (resolved u e startTs).lookup e' = if e' = e ∧ u.lookup e = some startTs then none else u.lookup e' := by
  unfold resolved
  split
  · rename_i h
    simp [lookup_erase, h]
  rename_i h
  rw [if_neg fun hc => h hc.2]

theorem popLock_tracks {startTs : Nat} (ht : Tracks scanned u d.lockTracker)
    (h : d.popLock key startTs = some (d', some modified)) :
    Tracks scanned (resolved u key.bytes startTs) d'.lockTracker ∧
      (d.lockTracker.IsPrepared → d'.lockTracker.IsPrepared ∧
        Walk (u.lookup key.bytes) (counts modified) ((resolved u key.bytes startTs).lookup key.bytes) ∧
        (modified ≠ [] → (resolved u key.bytes startTs).lookup key.bytes = none)) := by
  obtain ⟨q, tracker⟩ := d
  unfold popLock at h
  cases tracker with
  | pending => cases h
  | preparing delta =>
    dsimp only at h ht
    refine ⟨?_, fun ⟨region, locks, hp⟩ => by cases hp⟩
    split at h
    · cases h
    cases h
    refine ht.append fun locks locks' hlocks happly e => ?_
    rw [applyPending_untrack happly, lookup_resolved, hlocks, hlocks]
  | prepared region locks =>
    dsimp only at h ht
    have hkey : u.lookup key.bytes = tsAt locks key.bytes := (ht key.bytes).symm
    simp only [lookup_resolved, true_and, hkey]
    split at h
    on_goal 2 =>
      rename_i hl
      cases h
      rw [tsAt_eq_none hl] at hkey ⊢
      refine ⟨fun e => ?_, fun _ => ⟨⟨region, _, rfl⟩, .nil _, fun _ => by simp⟩⟩
      rw [lookup_resolved, hkey]
      simpa using ht e
    · rename_i hl
      rw [tsAt_eq_some hl] at hkey ⊢
      split at h
      · rename_i heq
        cases h
        subst heq
        rw [if_pos rfl]
        refine ⟨fun e => ?_, fun _ => ⟨⟨region, _, rfl⟩, .leave (.nil _), fun _ => rfl⟩⟩
        rw [lookup_resolved, tsAt_erase, hkey, ht e]
        simp
      · rename_i hne
        cases h
        refine ⟨fun e => ?_, fun _ => ⟨⟨region, _, rfl⟩, ?_, absurd rfl⟩⟩
        · rw [lookup_resolved, hkey]
          simpa [hne] using ht e
        · rw [if_neg (by simpa using hne)]
          exact .nil _

end

/-! ## What a record makes of a row -/

variable {row row' : RowInBuilding} {key : Bytes} {commitTs : Nat} {write : WriteRecord} {lock : LockRecord} {skip : Bool}

theorem decodeWrite_ok (h : decodeWrite key commitTs write row = .ok (row', skip)) :
    row'.lockModifiedCounts = row.lockModifiedCounts ∧ (row.hasValue = true → row'.hasValue = true) ∧
      if skip then row' = row ∧ write.resolves commitTs = none
      else row'.v.key = key ∧ write.resolves commitTs = some row'.v.startTs ∧ row'.v.rType ≠ .prewrite := by
  unfold decodeWrite at h
  unfold WriteRecord.resolves
  split at h
  · rename_i hfence
    split at h
    · cases h
    split at h
    · cases h
    cases h
    exact ⟨rfl, id, rfl, by rw [if_pos hfence], by simp⟩
  · rename_i hfence
    rw [if_neg hfence]
    have hor : row.hasValue = true → (row.hasValue || write.hasShortValue) = true := fun hv => by rw [hv]; rfl
    cases htype : write.writeType with
    | lock => rw [htype] at h; cases h; exact ⟨rfl, id, rfl, by simp⟩
    | rollback =>
      rw [htype] at h
      dsimp only at h
      split at h
      · cases h
      · cases h; exact ⟨rfl, hor, rfl, by simp, by simp⟩
    | _ => rw [htype] at h; cases h; exact ⟨rfl, hor, rfl, by simp, by simp⟩

theorem decodeLock_ok (h : decodeLock key lock row = .ok (row', skip)) :
    row'.lockModifiedCounts = row.lockModifiedCounts ∧ (row.hasValue = true → row'.hasValue = true) ∧
      if skip then row' = row ∧ lock.tracked = false
      else lock.tracked = true ∧ row'.v.key = key ∧ row'.v.startTs = lock.ts ∧
        (row'.v.opType = .put → lock.lockType = .put) ∧ (lock.hasShortValue = true → row'.hasValue = true) := by
  unfold decodeLock at h
  unfold LockRecord.tracked
  cases htype : lock.lockType with
  | put | delete =>
    rw [htype] at h
    split at h
    · split at h
      · cases h
      · cases h; exact ⟨rfl, fun _ => rfl, by simp, rfl, rfl, by simp, fun _ => rfl⟩
    · rename_i hshort
      cases h
      exact ⟨rfl, id, by simp, rfl, rfl, by simp, fun hs => absurd hs hshort⟩
  | _ => rw [htype] at h; cases h; exact ⟨rfl, id, rfl, by simp⟩

theorem addCounts_ok {rows rows' : Rows} {answer : Option (Delegate × Counts)}
    {d' : Delegate} (h : addCounts rows e row answer = .ok (d', rows')) :
    ∃ modified, answer = some (d', some modified) ∧
      rows' = rows.insert e { row with lockModifiedCounts := row.lockModifiedCounts ++ modified } := by
  unfold addCounts at h
  split at h
  · cases h
  · cases h
  cases h
  exact ⟨_, rfl, rfl⟩

/-! ## Along a command -/

theorem unresolvedAfterAll_append (u : Map Bytes Nat) (pre : List TxnPut) (put : TxnPut) :
    unresolvedAfterAll u (pre ++ [put]) = unresolvedAfter (unresolvedAfterAll u pre) put := by
  unfold unresolvedAfterAll
  rw [foldl_append]; rfl

variable {u : Map Bytes Nat} {put : TxnPut}

theorem unresolvedAfter_write : unresolvedAfter u (.write key commitTs write) = match write.resolves commitTs with
      | some startTs => resolved u (fromRaw key) startTs
      | none => u := rfl

theorem unresolvedAfter_lock :
    unresolvedAfter u (.lock key lock) = if lock.tracked then u.insert (fromRaw key) lock.ts else u := rfl

theorem lookup_unresolvedAfter_ne (h : e ≠ fromRaw put.key) :
    (unresolvedAfter u put).lookup e = u.lookup e := by
  cases put with
  | write key commitTs write =>
    rw [unresolvedAfter_write]
    cases write.resolves commitTs with
    | none => rfl
    | some startTs =>
      rw [lookup_resolved, if_neg fun hc => h hc.1]
  | lock key lock =>
    rw [unresolvedAfter_lock]
    split
    · exact lookup_insert.trans (if_neg h)
    · rfl
  | default key startTs => rfl

variable {pre : List TxnPut}

theorem OpensAmong.append (h : OpensAmong u pre e) : OpensAmong u (pre ++ [put]) e := by
  obtain ⟨l, p, r, rfl, hp⟩ := h
  exact ⟨l, p, r ++ [put], by simp, hp⟩

structure RowInv (u : Map Bytes Nat) (pre : List TxnPut) (e : Bytes) (row : RowInBuilding) : Prop where
  walk : Walk (u.lookup e) (counts row.lockModifiedCounts) ((unresolvedAfterAll u pre).lookup e)
  key : row.lockModifiedCounts ≠ [] → fromRaw row.v.key = e
  touched : row.lockModifiedCounts ≠ [] → ∃ put ∈ pre, fromRaw put.key = e
  opened : row.lockModifiedCounts ≠ [] → OpensAmong u pre e ∨ (unresolvedAfterAll u pre).lookup e = none
  prewrite : row.v.rType = .prewrite → (unresolvedAfterAll u pre).lookup e ≠ none
  forPut : row.v.rType = .prewrite → row.v.opType = .put → ∃ put ∈ pre, put.LocksForPut e
  value : ∀ put ∈ pre, put.BringsValue e → row.hasValue = true

section

variable (h : RowInv u pre e row)
include h

theorem RowInv.value_append (hkeep : row.hasValue = true → row'.hasValue = true)
    (hput : put.BringsValue e → row'.hasValue = true) : ∀ p ∈ pre ++ [put], p.BringsValue e → row'.hasValue = true :=
  forall_mem_append.2 ⟨fun p hp hv => hkeep (h.value p hp hv), forall_mem_singleton.2 hput⟩

theorem RowInv.same (hcounts : row'.lockModifiedCounts = row.lockModifiedCounts)
    (hlookup : (unresolvedAfterAll u (pre ++ [put])).lookup e = (unresolvedAfterAll u pre).lookup e)
    (hkey : row'.v.key = row.v.key ∨ fromRaw row'.v.key = e) (hr : row'.v = row.v ∨ row'.v.rType ≠ .prewrite)
    (hkeep : row.hasValue = true → row'.hasValue = true) (hput : put.BringsValue e → row'.hasValue = true) :
    RowInv u (pre ++ [put]) e row' := by
  refine ⟨?_, fun hc => ?_, fun hc => ?_, fun hc => ?_, fun hp => ?_, fun hp ho => ?_, h.value_append hkeep hput⟩
  · rw [hcounts, hlookup]
    exact h.walk
  · rcases hkey with hkey | hkey
    · rw [hkey]
      exact h.key (hcounts ▸ hc)
    · exact hkey
  · obtain ⟨p, hmem, hp⟩ := h.touched (hcounts ▸ hc)
    exact ⟨p, mem_append_left _ hmem, hp⟩
  · rw [hlookup]
    exact (h.opened (hcounts ▸ hc)).imp_left OpensAmong.append
  · rcases hr with hr | hr
    · rw [hlookup]
      exact h.prewrite (hr ▸ hp)
    · exact absurd hp hr
  · rcases hr with hr | hr
    · obtain ⟨p, hmem, hlock⟩ := h.forPut (hr ▸ hp) (hr ▸ ho)
      exact ⟨p, mem_append_left _ hmem, hlock⟩
    · exact absurd hp hr

theorem RowInv.other (hne : e ≠ fromRaw put.key) : RowInv u (pre ++ [put]) e row := by
  refine h.same rfl ?_ (.inl rfl) (.inl rfl) id fun hv => ?_
  · rw [unresolvedAfterAll_append, lookup_unresolvedAfter_ne hne]
  · cases put with
    | write key commitTs write => exact absurd hv id
    | lock key lock => exact absurd hv.1.symm hne
    | default key startTs => exact absurd hv.symm hne

end

def rowAt (rows : Rows) (e : Bytes) : RowInBuilding := (rows.lookup e).getD .default

theorem rowAt_insert {rows : Rows} : rowAt (rows.insert e row) e' = if e' = e then row else rowAt rows e' := by
  unfold rowAt
  rw [lookup_insert]
  split <;> rfl

def RowsInv (u : Map Bytes Nat) (pre : List TxnPut) (rows : Rows) : Prop := ∀ e, RowInv u pre e (rowAt rows e)

theorem rowsInv_nil (u : Map Bytes Nat) : RowsInv u [] ∅ := fun _ =>
  ⟨.nil _, absurd rfl, absurd rfl, absurd rfl, nofun, nofun, nofun⟩

theorem RowsInv.insert (h : RowsInv u pre rows) (put : TxnPut) (hrow : RowInv u (pre ++ [put]) (fromRaw put.key) row) :
    RowsInv u (pre ++ [put]) (rows.insert (fromRaw put.key) row) := by
  intro e
  rw [rowAt_insert]
  split
  · rename_i he
    rw [he]
    exact hrow
  · rename_i hne
    exact (h e).other hne

variable {scanned : Map Bytes Nat} {d d' : Delegate} {rows rows' : Rows} {isOnePc : Bool}

def FindsNoLock (isOnePc : Bool) (u : Map Bytes Nat) : TxnPut → Prop
  | .write key commitTs write => isOnePc = true → ∀ startTs, write.resolves commitTs = some startTs →
      u.lookup (fromRaw key) ≠ some startTs
  | _ => True

/-- **A put keeps the tracker to the unresolved locks**, and, once it has its map, the rows to the ways of their keys. -/
def KeptBy (scanned u : Map Bytes Nat) (pre : List TxnPut) (put : TxnPut) (d d' : Delegate) (rows rows' : Rows) : Prop :=
  Tracks scanned (unresolvedAfterAll u (pre ++ [put])) d'.lockTracker ∧
    (d.lockTracker.IsPrepared → RowsInv u pre rows → d'.lockTracker.IsPrepared ∧ RowsInv u (pre ++ [put]) rows')

section

variable {modified : List LockModifiedCount} (h : RowInv u pre (fromRaw key) row)
  (hcounts : row'.lockModifiedCounts = row.lockModifiedCounts) (hkeep : row.hasValue = true → row'.hasValue = true)
  (hkey : row'.v.key = key)
include h hcounts hkeep hkey

theorem RowInv.after_write (hrtype : row'.v.rType ≠ .prewrite)
    (hwalk : Walk ((unresolvedAfterAll u pre).lookup (fromRaw key)) (counts modified)
      ((unresolvedAfterAll u (pre ++ [.write key commitTs write])).lookup (fromRaw key)))
    (hnone : modified ≠ [] → (unresolvedAfterAll u (pre ++ [.write key commitTs write])).lookup (fromRaw key) = none) :
    RowInv u (pre ++ [.write key commitTs write]) (fromRaw key)
      { row' with lockModifiedCounts := row'.lockModifiedCounts ++ modified } := by
  refine ⟨?_, fun _ => congrArg fromRaw hkey, fun _ => ⟨_, mem_append_right _ mem_cons_self, rfl⟩, fun hc => ?_,
    fun hpre => absurd hpre hrtype, fun hpre => absurd hpre hrtype, h.value_append hkeep fun hv => hv.elim⟩
  · dsimp only
    unfold counts
    rw [hcounts, map_append]
    exact h.walk.append hwalk
  · by_cases hm : modified = []
    · -- nothing was resolved now, so the counts are older
      subst hm
      have hsame := hwalk.eq_of_nil
      rw [append_nil, hcounts] at hc
      exact (h.opened hc).imp OpensAmong.append hsame.symm.trans
    · exact .inr (hnone hm)

theorem RowInv.after_lock (htracked : lock.tracked = true) (hts : row'.v.startTs = lock.ts)
    (hop : row'.v.opType = .put → lock.lockType = .put) (hshort : lock.hasShortValue = true → row'.hasValue = true)
    (hnow : (unresolvedAfterAll u (pre ++ [.lock key lock])).lookup (fromRaw key) = some row'.v.startTs)
    (hwalk : Walk ((unresolvedAfterAll u pre).lookup (fromRaw key)) (counts modified) (some row'.v.startTs))
    (hagain : (unresolvedAfterAll u pre).lookup (fromRaw key) = some row'.v.startTs → modified = []) :
    RowInv u (pre ++ [.lock key lock]) (fromRaw key)
      { row' with lockModifiedCounts := row'.lockModifiedCounts ++ modified } := by
  refine ⟨?_, fun _ => congrArg fromRaw hkey, fun _ => ⟨_, mem_append_right _ mem_cons_self, rfl⟩, fun hc => .inl ?_,
    fun _ hnone => absurd (hnow.symm.trans hnone) nofun, fun _ ho => ⟨.lock key lock, by simp, rfl, hop ho⟩,
    h.value_append hkeep fun hv => hshort hv.2.2⟩
  · rw [hnow]
    unfold counts
    rw [hcounts, map_append]
    exact h.walk.append hwalk
  · by_cases hsame : (unresolvedAfterAll u pre).lookup (fromRaw key) = some row'.v.startTs
    · -- the transaction has the key locked: the counts are older
      rw [hagain hsame, append_nil, hcounts] at hc
      exact ((h.opened hc).resolve_right fun hnone => absurd (hsame.symm.trans hnone) nofun).append
    · exact ⟨pre, .lock key lock, [], rfl, rfl, htracked, hts ▸ hsame⟩

end

section

variable (ht : Tracks scanned (unresolvedAfterAll u pre) d.lockTracker)
include ht

theorem sinkTxnPutRow_write (hone : FindsNoLock isOnePc (unresolvedAfterAll u pre) (.write key commitTs write))
    (h : sinkTxnPutRow isOnePc d rows (.write key commitTs write) = .ok (d', rows')) :
    KeptBy scanned u pre (.write key commitTs write) d d' rows rows' := by
  have hafter := unresolvedAfterAll_append u pre (.write key commitTs write)
  rw [unresolvedAfter_write] at hafter
  unfold sinkTxnPutRow at h
  dsimp only at h
  split at h
  · cases h
  · rename_i row hdec
    cases h
    obtain ⟨-, -, rfl, hres⟩ := decodeWrite_ok hdec
    simp only [hres] at hafter
    refine ⟨hafter ▸ ht, fun hp hr => ⟨hp, hr.insert (.write key commitTs write) ?_⟩⟩
    exact (hr _).same rfl (by rw [hafter]) (.inl rfl) (.inl rfl) id fun hv => hv.elim
  · rename_i row hdec
    obtain ⟨hcounts, hkeep, hkey, hres, hrtype⟩ := decodeWrite_ok hdec
    simp only [hres] at hafter
    split at h
    · rename_i hpc
      split at h
      · cases h
      cases h
      rw [resolved, if_neg (hone hpc _ hres)] at hafter
      refine ⟨hafter ▸ ht, fun hp hr => ⟨hp, hr.insert (.write key commitTs write) ?_⟩⟩
      exact (hr _).same hcounts (by rw [hafter]) (.inr (congrArg fromRaw hkey)) (.inr (by simp)) hkeep fun hv => hv.elim
    · obtain ⟨modified, hpop, rfl⟩ := addCounts_ok h
      obtain ⟨ht', hprep⟩ := popLock_tracks ht hpop
      refine ⟨hafter ▸ ht', fun hp hr => ?_⟩
      obtain ⟨hp', hwalk, hnone⟩ := hprep hp
      exact ⟨hp', hr.insert (.write key commitTs write)
        ((hr (fromRaw key)).after_write hcounts hkeep hkey hrtype (hafter ▸ hwalk) (hafter ▸ hnone))⟩

theorem sinkTxnPutRow_lock (h : sinkTxnPutRow isOnePc d rows (.lock key lock) = .ok (d', rows')) :
    KeptBy scanned u pre (.lock key lock) d d' rows rows' := by
  have hafter := unresolvedAfterAll_append u pre (.lock key lock)
  rw [unresolvedAfter_lock] at hafter
  unfold sinkTxnPutRow at h
  dsimp only at h
  split at h
  · cases h
  · rename_i row hdec
    cases h
    obtain ⟨-, -, rfl, htracked⟩ := decodeLock_ok hdec
    rw [htracked, if_neg Bool.false_ne_true] at hafter
    refine ⟨hafter ▸ ht, fun hp hr => ⟨hp, hr.insert (.lock key lock) ?_⟩⟩
    exact (hr _).same rfl (by rw [hafter]) (.inl rfl) (.inl rfl) id fun hv =>
      absurd (htracked.symm.trans hv.2.1) Bool.false_ne_true
  · rename_i row hdec
    obtain ⟨hcounts, hkeep, htracked, hkey, hts, hop, hshort⟩ := decodeLock_ok hdec
    obtain ⟨modified, hpush, rfl⟩ := addCounts_ok h
    obtain ⟨ht', hprep⟩ := pushLock_tracks ht hpush
    rw [if_pos htracked, ← hts] at hafter
    refine ⟨hafter ▸ ht', fun hp hr => ?_⟩
    obtain ⟨hp', hwalk, hagain⟩ := hprep hp
    have hnow : (unresolvedAfterAll u (pre ++ [.lock key lock])).lookup (fromRaw key) = some row.v.startTs := by
      rw [hafter, lookup_insert, if_pos rfl]
    let asked : RowInBuilding := { row with needsOldValue := some (max lock.forUpdateTs row.v.startTs) }
    have hasked : asked.lockModifiedCounts = (rowAt rows (fromRaw key)).lockModifiedCounts := hcounts
    exact ⟨hp', hr.insert (.lock key lock)
      ((hr (fromRaw key)).after_lock hasked hkeep hkey htracked hts hop hshort hnow hwalk hagain)⟩

theorem sinkTxnPutRow_step (hone : FindsNoLock isOnePc (unresolvedAfterAll u pre) put)
    (h : sinkTxnPutRow isOnePc d rows put = .ok (d', rows')) : KeptBy scanned u pre put d d' rows rows' := by
  cases put with
  | write key commitTs write => exact sinkTxnPutRow_write ht hone h
  | lock key lock => exact sinkTxnPutRow_lock ht h
  | default key startTs =>
    cases h
    have hafter := unresolvedAfterAll_append u pre (.default key startTs)
    refine ⟨hafter ▸ ht, fun hp hr => ⟨hp, hr.insert (.default key startTs) ?_⟩⟩
    exact (hr _).same rfl (by rw [hafter]; rfl) (.inl rfl) (.inl rfl) (fun _ => rfl) fun _ => rfl

end

variable {puts : List TxnPut}

theorem Proper.findsNoLock {post : List TxnPut} (h : Proper u isOnePc puts) (hsplit : puts = pre ++ put :: post) :
    FindsNoLock isOnePc (unresolvedAfterAll u pre) put := by
  cases put with
  | write key commitTs write => exact fun hpc startTs hres => h.onePc hpc pre key commitTs write post hsplit startTs hres
  | lock | default => trivial

theorem sinkTxnPutRows_inv (hproper : Proper u isOnePc puts)
    (ht : Tracks scanned u d.lockTracker) (h : sinkTxnPutRows isOnePc d puts = .ok (d', rows')) :
    Tracks scanned (unresolvedAfterAll u puts) d'.lockTracker ∧
      (d.lockTracker.IsPrepared → d'.lockTracker.IsPrepared ∧ RowsInv u puts rows') := by
  -- by induction on the puts to come, `pre` being those that are in
  have hrun : ∀ (post pre : List TxnPut) (s : Delegate × Rows), puts = pre ++ post →
      post.foldlM (fun s put => sinkTxnPutRow isOnePc s.1 s.2 put) s = .ok (d', rows') →
      Tracks scanned (unresolvedAfterAll u pre) s.1.lockTracker →
      Tracks scanned (unresolvedAfterAll u puts) d'.lockTracker ∧
        (s.1.lockTracker.IsPrepared → RowsInv u pre s.2 → d'.lockTracker.IsPrepared ∧ RowsInv u puts rows') := by
    intro post
    induction post with
    | nil =>
      intro pre s hsplit hfold ht
      cases hfold
      rw [append_nil] at hsplit
      subst hsplit
      exact ⟨ht, fun hp hr => ⟨hp, hr⟩⟩
    | cons put post ih =>
      intro pre s hsplit hfold ht
      rw [foldlM_cons] at hfold
      cases hput : sinkTxnPutRow isOnePc s.1 s.2 put with
      | error stop => rw [hput] at hfold; cases hfold
      | ok s' =>
        rw [hput] at hfold
        obtain ⟨ht', hrows⟩ := sinkTxnPutRow_step ht (hproper.findsNoLock hsplit) hput
        obtain ⟨htail, hrows'⟩ := ih (pre ++ [put]) s' (by simp [hsplit]) hfold ht'
        refine ⟨htail, fun hp hr => ?_⟩
        obtain ⟨hp', hr'⟩ := hrows hp hr
        exact hrows' hp' hr'
  obtain ⟨htail, hrows⟩ := hrun puts [] (d, ∅) rfl h ht
  exact ⟨htail, fun hp => hrows hp (rowsInv_nil u)⟩

theorem incomplete_counts (hproper : Proper u isOnePc puts) (hr : RowsInv u puts rows)
    (hinc : (rowAt rows e).incomplete = true) : (rowAt rows e).lockModifiedCounts = [] := by
  unfold RowInBuilding.incomplete at hinc
  simp only [Bool.and_eq_true, decide_eq_true_eq, Bool.not_eq_true'] at hinc
  obtain ⟨⟨hpre, hop⟩, hvalue⟩ := hinc
  by_contra hc
  rcases (hr e).opened hc with ho | hnone
  · obtain ⟨put, hput, hv⟩ := hproper.value e ho ((hr e).forPut hpre hop)
    exact absurd ((hr e).value put hput hv) (by rw [hvalue]; exact Bool.false_ne_true)
  · exact (hr e).prewrite hpre hnone

end Track
end Cdc
end Tikv
