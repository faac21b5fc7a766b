import Tikv.LibChain
import Tikv.LibMap
import Tikv.TxnWrite
/-!
# MvccKey — one user key in the three column families (`txn_types`, `storage::mvcc`)

A user key has at most one lock, a chain of write records by commit timestamp and values by start timestamp.  The reader
looks for the record of a transaction (`getTxnCommitRecord`) and for the newest value (`getWriteWithCommitTs`), and a
command changes the key by a list of modifications.  Timestamps are natural numbers here; `TxnWrite` has
their bytes.
-/
namespace Tikv
namespace Mvcc

open Lib List

export Txn (WriteType)

def tsMax : Nat := 2 ^ 64 - 1

def physical (ts : Nat) : Nat := ts / 2 ^ 18

def logical (ts : Nat) : Nat := ts % 2 ^ 18

def compose (phys log : Nat) : Nat := phys * 2 ^ 18 % 2 ^ 64 + log

/-! ## Records and locks -/

inductive LastChange
  | unknown
  | exist (lastChangeTs : Nat) (estimatedVersions : Nat)
  | notExist
deriving DecidableEq

structure Write where
  writeType : WriteType
  startTs : Nat
  shortValue : Option Bytes
  hasOverlappedRollback : Bool
  gcFence : Option Nat
  lastChange : LastChange
  txnSource : Nat
deriving DecidableEq

namespace Write

def new (writeType : WriteType) (startTs : Nat) (shortValue : Option Bytes) : Write :=
  ⟨writeType, startTs, shortValue, false, none, .unknown, 0⟩

def protectedRollbackShortValue : Bytes := [0x70]

def newRollback (startTs : Nat) (protect : Bool) : Write :=
  new .rollback startTs (if protect then some protectedRollbackShortValue else none)

def isProtected (w : Write) : Bool :=
  w.writeType = .rollback && w.shortValue = some protectedRollbackShortValue

def setOverlappedRollback (w : Write) (gcFence : Option Nat) : Write :=
  { w with hasOverlappedRollback := true, gcFence }

def isData (w : Write) : Bool := w.writeType = .put || w.writeType = .delete

/-- `check_gc_fence_as_latest_version`: the version found as latest at `readTs` has not been fenced off. -/
def checkGcFence (w : Write) (readTs : Nat) : Bool :=
  match w.gcFence with
  | some fence => !(fence ≠ 0 && fence ≤ readTs)
  | none => true

end Write

inductive LockType
  | put | delete | lock | pessimistic
deriving DecidableEq, Repr

def WriteType.fromLockType : LockType → Option WriteType
  | .put => some .put
  | .delete => some .delete
  | .lock => some .lock
  | .pessimistic => none

structure Lock where
  lockType : LockType
  primary : Bytes
  ts : Nat
  ttl : Nat
  shortValue : Option Bytes
  forUpdateTs : Nat
  txnSize : Nat
  minCommitTs : Nat
  useAsyncCommit : Bool
  secondaries : List Bytes
  rollbackTs : List Nat
  lastChange : LastChange
  txnSource : Nat
  isLockedWithConflict : Bool
  useOnePc : Bool
  generation : Nat
deriving DecidableEq

namespace Lock

def new (lockType : LockType) (primary : Bytes) (ts : Nat) (ttl : Nat) (shortValue : Option Bytes)
    (forUpdateTs : Nat) (txnSize : Nat) (minCommitTs : Nat) (isLockedWithConflict : Bool) : Lock :=
  { lockType, primary, ts, ttl, shortValue, forUpdateTs, txnSize, minCommitTs, isLockedWithConflict
    useAsyncCommit := false, secondaries := [], rollbackTs := [], lastChange := .unknown, txnSource := 0
    useOnePc := false, generation := 0 }

def isPessimisticLock (l : Lock) : Bool := l.lockType = .pessimistic

theorem fromLockType_ne_none {l : Lock} (h : l.isPessimisticLock = false) : WriteType.fromLockType l.lockType ≠ none := by
  unfold isPessimisticLock at h
  cases hl : l.lockType with
  | pessimistic => rw [hl] at h; exact absurd h (by decide)
  | put | delete | lock => nofun

def isPessimisticLockWithConflict (l : Lock) : Bool := l.isPessimisticLock && l.isLockedWithConflict

def expired (l : Lock) (currentTs : Nat) : Bool := physical l.ts + l.ttl < physical currentTs

end Lock

/-! ## The key -/

abbrev Versions := Chain Nat Write

structure KeyState where
  lock : Option Lock
  writes : Versions
  values : Map Nat Bytes

def KeyState.empty : KeyState := ⟨none, .empty, ∅⟩

inductive Modify
  | putLock (lock : Lock)
  | unlockKey
  | putValue (ts : Nat) (value : Bytes)
  | deleteValue (ts : Nat)
  | putWrite (ts : Nat) (write : Write)
  | deleteWrite (ts : Nat)
deriving DecidableEq

def KeyState.modify (k : KeyState) : Modify → KeyState
  | .putLock lock => { k with lock := some lock }
  | .unlockKey => { k with lock := none }
  | .putValue ts value => { k with values := AList.insert ts value k.values }
  | .deleteValue ts => { k with values := AList.erase ts k.values }
  | .putWrite ts write => { k with writes := k.writes.insert ts write }
  | .deleteWrite ts => { k with writes := k.writes.erase ts }

def KeyState.apply (k : KeyState) (ms : List Modify) : KeyState := ms.foldl KeyState.modify k

@[simp] theorem KeyState.apply_nil (k : KeyState) : k.apply [] = k := rfl

@[simp] theorem KeyState.apply_cons (k : KeyState) (m : Modify) (ms : List Modify) :
    k.apply (m :: ms) = (k.modify m).apply ms := rfl

theorem KeyState.apply_append (k : KeyState) (ms ms' : List Modify) : k.apply (ms ++ ms') = (k.apply ms).apply ms' :=
  foldl_append ..

inductive PessimisticLockNotFoundReason
  | lockTsMismatch | lockMissingAmendFail | lockForUpdateTsMismatch | nonLockKeyConflict
deriving DecidableEq, Repr

inductive WriteConflictReason
  | optimistic | pessimisticRetry | selfRolledBack | lazyUniquenessCheck
deriving DecidableEq, Repr

/-- `mvcc::ErrorInner`, less the key and the start timestamp that every error of a command names, and the panics. -/
inductive MvccError
  | keyIsLocked (lock : Lock)
  | lockTypeNotMatch (pessimistic : Bool)
  | pessimisticLockNotFound (reason : PessimisticLockNotFoundReason)
  | pessimisticLockRolledBack
  | writeConflict (conflictStartTs conflictCommitTs : Nat) (reason : WriteConflictReason)
  | alreadyExist (existingStartTs : Nat)
  | assertionFailed (existingStartTs existingCommitTs : Nat)
  | generationOutOfOrder (generation : Nat) (lock : Lock)
  | lockIfExistsFailed
  | primaryMismatch (lock : Lock)
  | commitTsTooLarge (minCommitTs maxCommitTs : Nat)
  | commitTsExpired (commitTs minCommitTs : Nat)
  | invalidTxnTso (commitTs : Nat)
  | txnLockNotFound (commitTs : Nat)
  | txnNotFound
  | committed (commitTs : Nat)
  | invalidMaxTsUpdate (attemptedTs limit : Nat)
  | defaultNotFound
  | other (message : String)
  | panic (message : String)
deriving DecidableEq

/-! ## The reader -/

def newestWrite (v : Versions) : Option (Nat × Write) := v.entries.head?

def seekWrite (v : Versions) (ts : Nat) : Option (Nat × Write) := v.seek ts

structure OverlappedWrite where
  write : Write
  gcFence : Nat
deriving DecidableEq

inductive TxnCommitRecord
  | none (overlappedWrite : Option OverlappedWrite)
  | singleRecord (commitTs : Nat) (write : Write)
  | overlappedRollback (commitTs : Nat)
deriving DecidableEq

def TxnCommitRecord.info : TxnCommitRecord → Option (Nat × WriteType)
  | none _ => .none
  | singleRecord commitTs write => some (commitTs, write.writeType)
  | overlappedRollback commitTs => some (commitTs, .rollback)

/-- The loop of `get_txn_commit_record`: seeking at `commit_ts.prev()` is going on with the next older version. -/
def txnCommitRecordFrom (startTs : Nat) : (gcFence : Nat) → List (Nat × Write) → TxnCommitRecord
  | _, [] => .none none
  | gcFence, (commitTs, write) :: older =>
    if write.startTs = startTs then .singleRecord commitTs write
    else if commitTs = startTs then
      if write.hasOverlappedRollback then .overlappedRollback commitTs else .none (some ⟨write, gcFence⟩)
    else if commitTs < startTs then .none none
    else txnCommitRecordFrom startTs (if write.isData then commitTs else gcFence) older

/-- What the loop finds in the versions `l`: `gcFence` is the oldest PUT or DELETE above `startTs`, or `fence`, the one
seen before `l`, if `l` has none. -/
inductive FindsRecord (startTs fence : Nat) (l : List (Nat × Write)) : TxnCommitRecord → Prop
  | single {commitTs : Nat} {write : Write} (hmem : (commitTs, write) ∈ l) (hstart : write.startTs = startTs) :
      FindsRecord startTs fence l (.singleRecord commitTs write)
  | overlappedRollback {write : Write} (hmem : (startTs, write) ∈ l) (hstart : write.startTs ≠ startTs)
      (hflag : write.hasOverlappedRollback = true) (hnone : ∀ e ∈ l, startTs ≤ e.1 → e.2.startTs ≠ startTs) :
      FindsRecord startTs fence l (.overlappedRollback startTs)
  | overlapped {write : Write} {gcFence : Nat} (hmem : (startTs, write) ∈ l) (hstart : write.startTs ≠ startTs)
      (hflag : write.hasOverlappedRollback = false) (hnone : ∀ e ∈ l, startTs ≤ e.1 → e.2.startTs ≠ startTs)
      (hfence : gcFence = fence ∨ startTs < gcFence ∧ ∃ w, (gcFence, w) ∈ l ∧ w.isData = true)
      (hleast : ∀ e ∈ l, startTs < e.1 → e.2.isData = true → startTs < gcFence ∧ gcFence ≤ e.1) :
      FindsRecord startTs fence l (.none (some ⟨write, gcFence⟩))
  | none (hmem : ∀ e ∈ l, e.1 ≠ startTs) (hnone : ∀ e ∈ l, startTs ≤ e.1 → e.2.startTs ≠ startTs) :
      FindsRecord startTs fence l (.none none)

theorem findsRecord_from (startTs : Nat) : ∀ (fence : Nat) (l : List (Nat × Write)),
    (l.Pairwise fun a b => b.1 < a.1) → FindsRecord startTs fence l (txnCommitRecordFrom startTs fence l)
  | _, [], _ => .none nofun nofun
  | fence, (commitTs, write) :: older, hl => by
    obtain ⟨hhead, htail⟩ := pairwise_cons.1 hl
    unfold txnCommitRecordFrom
    split
    · rename_i hstart
      exact .single mem_cons_self hstart
    rename_i hstart
    split
    · rename_i heq
      subst heq
      -- everything older is below the start timestamp
      have hbelow : ∀ e ∈ (commitTs, write) :: older, commitTs ≤ e.1 → e = (commitTs, write) :=
        forall_mem_cons.2 ⟨fun _ => rfl, fun e he hle => absurd (hhead e he) (not_lt.2 hle)⟩
      have hnone : ∀ e ∈ (commitTs, write) :: older, commitTs ≤ e.1 → e.2.startTs ≠ commitTs := by
        intro e he hle
        rw [hbelow e he hle]
        exact hstart
      split
      · rename_i hflag
        exact .overlappedRollback mem_cons_self hstart hflag hnone
      rename_i hflag
      refine .overlapped mem_cons_self hstart (by simpa using hflag) hnone (.inl rfl) fun e he hlt _ => ?_
      rw [hbelow e he (le_of_lt hlt)] at hlt
      exact absurd hlt (lt_irrefl _)
    · rename_i hne
      split
      · rename_i hlt
        have hbelow : ∀ e ∈ (commitTs, write) :: older, e.1 < startTs :=
          forall_mem_cons.2 ⟨hlt, fun e he => lt_trans (hhead e he) hlt⟩
        exact .none (fun e he => ne_of_lt (hbelow e he)) fun e he hle => absurd (hbelow e he) (not_lt.2 hle)
      · have habove : startTs < commitTs := by omega
        have hrec := findsRecord_from startTs (if write.isData then commitTs else fence) older htail
        generalize hr : txnCommitRecordFrom startTs (if write.isData then commitTs else fence) older = r at hrec ⊢
        cases hrec with
        | single hmem hs => exact .single (mem_cons_of_mem _ hmem) hs
        | overlappedRollback hmem hs hflag hnone =>
          exact .overlappedRollback (mem_cons_of_mem _ hmem) hs hflag (forall_mem_cons.2 ⟨fun _ => hstart, hnone⟩)
        | overlapped hmem hs hflag hnone hfence hleast =>
          refine .overlapped (mem_cons_of_mem _ hmem) hs hflag (forall_mem_cons.2 ⟨fun _ => hstart, hnone⟩) ?_
            (forall_mem_cons.2 ⟨fun _ hdata => ?_, hleast⟩)
          · rcases hfence with h | ⟨h, w', hw', hdata⟩
            · split at h
              · rename_i hdata
                exact .inr ⟨h ▸ habove, write, h ▸ mem_cons_self, hdata⟩
              · exact .inl h
            · exact .inr ⟨h, w', mem_cons_of_mem _ hw', hdata⟩
          · rw [if_pos hdata] at hfence
            rcases hfence with h | ⟨h, w', hw', _⟩
            · omega
            have := hhead _ hw'
            omega
        | none hmem hnone =>
          exact .none (forall_mem_cons.2 ⟨hne, hmem⟩) (forall_mem_cons.2 ⟨fun _ => hstart, hnone⟩)

/-- **What the write column family says of the transaction** that started at `startTs`. -/
def getTxnCommitRecord (v : Versions) (startTs : Nat) : TxnCommitRecord := txnCommitRecordFrom startTs 0 v.entries

theorem findsRecord (v : Versions) (startTs : Nat) : FindsRecord startTs 0 v.entries (getTxnCommitRecord v startTs) :=
  findsRecord_from startTs 0 v.entries v.sorted

def seekBound : Nat := 8

def writeFrom (v : Versions) (gcFenceLimit : Nat) :
    List (Nat × Write) → Except MvccError (Option (Write × Nat))
  | [] => .ok none
  | (commitTs, write) :: older =>
    if write.checkGcFence gcFenceLimit = false then .ok none
    else match write.writeType with
      | .put => .ok (some (write, commitTs))
      | .delete => .ok none
      | .lock | .rollback =>
        match write.lastChange with
        | .notExist => .ok none
        | .unknown => writeFrom v gcFenceLimit older
        | .exist lastChangeTs estimatedVersions =>
          if estimatedVersions < seekBound then writeFrom v gcFenceLimit older
          else match v.lookup lastChangeTs with
            | none => .ok none
            | some last =>
              match last.writeType with
              | .put => .ok (if last.checkGcFence gcFenceLimit then some (last, lastChangeTs) else none)
              | .delete => .ok none
              | .lock | .rollback =>
                .error (.panic "Write record pointed by last_change_ts should be Put or Delete")

def getWriteWithCommitTs (v : Versions) (gcFenceLimit ts : Nat) : Except MvccError (Option (Write × Nat)) :=
  writeFrom v gcFenceLimit (v.entries.dropWhile fun e => decide (ts < e.1))

def loadData (k : KeyState) (write : Write) : Except MvccError Bytes :=
  match write.shortValue with
  | some v => .ok v
  | none =>
    match k.values.lookup write.startTs with
    | some v => .ok v
    | none => .error .defaultNotFound

end Mvcc
end Tikv
