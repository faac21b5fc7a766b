import Tikv.MvccPrewrite
/-!
# MvccResolve — committing and rolling back one key (`txn::actions`, `txn::commands`)

Commit, cleanup, the status check of a primary lock and the check of a secondary lock all ask the write column family
for the record of the transaction and act on its absence.  Each returns the modifications it makes, or the error with
which nothing is written.
-/
namespace Tikv
namespace Mvcc

open Lib

/-! ## Rollback records -/

/-- `make_rollback`: a commit record of another transaction at the same timestamp is kept, and marked if the rollback is
protected. -/
def makeRollback (startTs : Nat) (protect : Bool) : Option OverlappedWrite → Except MvccError (Option Write)
  | some ⟨write, gcFence⟩ =>
    if startTs ≤ write.startTs then .error (.panic "assertion failed: start_ts > write.start_ts")
    else .ok (if protect then some (write.setOverlappedRollback (some gcFence)) else none)
  | none => .ok (some (Write.newRollback startTs protect))

def putRollback (startTs : Nat) (write : Option Write) : List Modify := (write.map (Modify.putWrite startTs)).toList

def collapsePrevRollback (v : Versions) (startTs : Nat) : List Modify :=
  match seekWrite v startTs with
  | some (commitTs, write) => if write.writeType = .rollback ∧ write.isProtected = false then [.deleteWrite commitTs] else []
  | none => []

/-- `mark_rollback_on_mismatching_lock`: only a lock whose commit timestamp is calculated can come to overwrite the
rollback record. -/
def markRollbackOnMismatchingLock (startTs : Nat) (lock : Lock) (protect : Bool) : List Modify :=
  if protect = false ∨ startTs < lock.minCommitTs ∨ lock.useAsyncCommit = false then []
  else [.putLock { lock with rollbackTs := lock.rollbackTs ++ [startTs] }]

def markMismatchLock (startTs : Nat) (mismatchLock : Option Lock) (protect : Bool) : List Modify :=
  match mismatchLock with
  | some lock => markRollbackOnMismatchingLock startTs lock protect
  | none => []

def rollbackLock (key : Bytes) (v : Versions) (lock : Lock) (collapse : Bool) : Except MvccError (List Modify) :=
  match getTxnCommitRecord v lock.ts with
  | .none overlapped =>
    let protect := key = lock.primary || 0 < lock.generation
    match makeRollback lock.ts protect overlapped with
    | .error e => .error e
    | .ok write =>
      .ok ((if lock.shortValue = none ∧ lock.lockType = .put then [.deleteValue lock.ts] else []) ++
        putRollback lock.ts write ++ (if collapse then collapsePrevRollback v lock.ts else []) ++ [.unlockKey])
  | .singleRecord _ write =>
    if write.writeType = .rollback then .ok [.unlockKey] else .error (.panic "txn record found but not expected")
  | .overlappedRollback _ => .ok [.unlockKey]

/-! ## The status of a transaction -/

inductive TxnStatus
  | rolledBack
  | ttlExpire
  | pessimisticRollBack
  | lockNotExist
  | lockNotExistDoNothing
  | committed (commitTs : Nat)
  | uncommitted (lock : Lock) (minCommitTsPushed : Bool)
deriving DecidableEq

inductive MissingLockAction
  | rollback | protectedRollback | returnError
deriving DecidableEq

namespace MissingLockAction

def rollbackProtect (protectRollback : Bool) : MissingLockAction :=
  if protectRollback then protectedRollback else rollback

def rollbackIfNotExist (rollbackIfNotExist : Bool) : MissingLockAction :=
  if rollbackIfNotExist then protectedRollback else returnError

def protects : MissingLockAction → Bool
  | protectedRollback => true
  | rollback | returnError => false

end MissingLockAction

def TxnCommitRecord.status : TxnCommitRecord → Option TxnStatus
  | .none _ => Option.none
  | .singleRecord commitTs write => some (if write.writeType = .rollback then .rolledBack else .committed commitTs)
  | .overlappedRollback _ => some .rolledBack

/-- `check_txn_status_missing_lock`; the lock found on the key, if any, is another transaction's. -/
def checkTxnStatusMissingLock (v : Versions) (startTs : Nat) (mismatchLock : Option Lock) (action : MissingLockAction)
    (resolvingPessimisticLock : Bool) : Except MvccError (List Modify × TxnStatus) :=
  match getTxnCommitRecord v startTs with
  | .singleRecord commitTs write =>
    .ok ([], if write.writeType = .rollback then .rolledBack else .committed commitTs)
  | .overlappedRollback _ => .ok ([], .rolledBack)
  | .none overlapped =>
    if action = .returnError then .error .txnNotFound
    else if resolvingPessimisticLock then .ok ([], .lockNotExistDoNothing)
    else
      match makeRollback startTs action.protects overlapped with
      | .error e => .error e
      | .ok write =>
        .ok ((if action.protects then [] else collapsePrevRollback v startTs) ++
          (if overlapped.isSome then [] else markMismatchLock startTs mismatchLock action.protects) ++
          putRollback startTs write, .lockNotExist)

def KeyState.ownLock (k : KeyState) (startTs : Nat) : Option Lock := k.lock.filter fun lock => lock.ts = startTs

section

variable {k : KeyState} {startTs : Nat}

theorem ownLock_eq_some {lock : Lock} : k.ownLock startTs = some lock ↔ k.lock = some lock ∧ lock.ts = startTs := by
  simp [KeyState.ownLock]

theorem ownLock_eq_none : k.ownLock startTs = none ↔ ∀ lock, k.lock = some lock → lock.ts ≠ startTs := by
  simp [KeyState.ownLock]

end

structure CheckTxnStatus where
  startTs : Nat
  callerStartTs : Nat
  currentTs : Nat
  rollbackIfNotExist : Bool
  forceSyncCommit : Bool
  resolvingPessimisticLock : Bool
  verifyIsPrimary : Bool
deriving DecidableEq

namespace CheckTxnStatus

/-- A pessimistic primary lock decides the status when it is stale or expired. -/
def fromPessimisticPrimaryLock (q : CheckTxnStatus) (key : Bytes) (v : Versions) (lock : Lock) :
    Except MvccError (Option (List Modify × TxnStatus)) :=
  match (if lock.isPessimisticLockWithConflict then (getTxnCommitRecord v q.startTs).status else none) with
  | some status => .ok (some ([.unlockKey], status))
  | none =>
    if lock.expired q.currentTs then
      if q.resolvingPessimisticLock then .ok (some ([.unlockKey], .pessimisticRollBack))
      else (rollbackLock key v lock true).map fun ms => some (ms, .ttlExpire)
    else .ok none

def pushMinCommitTs (q : CheckTxnStatus) (lock : Lock) : List Modify × TxnStatus :=
  let push := lock.minCommitTs ≠ 0 ∧ q.callerStartTs ≠ tsMax ∧ lock.minCommitTs ≤ q.callerStartTs
  let lock' := if push then { lock with minCommitTs := max (q.callerStartTs + 1) q.currentTs } else lock
  let pushed := (q.callerStartTs ≠ 0 && q.callerStartTs < lock'.minCommitTs) || q.callerStartTs = tsMax
  (if push then [.putLock lock'] else [], .uncommitted lock' pushed)

def lockExists (q : CheckTxnStatus) (key : Bytes) (v : Versions) (lock : Lock) :
    Except MvccError (List Modify × TxnStatus) :=
  if q.verifyIsPrimary && key ≠ lock.primary then
    if !q.resolvingPessimisticLock && lock.isPessimisticLock then
      match checkTxnStatusMissingLock v q.startTs none (.rollbackIfNotExist q.rollbackIfNotExist)
          q.resolvingPessimisticLock with
      | .error e => .error e
      | .ok (ms, status) => .ok (ms ++ [.unlockKey], status)
    else .error (.primaryMismatch lock)
  else if lock.useAsyncCommit && !q.forceSyncCommit then .ok ([], .uncommitted lock false)
  else if lock.isPessimisticLock then
    match q.fromPessimisticPrimaryLock key v lock with
    | .error e => .error e
    | .ok (some res) => .ok res
    | .ok none => .ok (q.pushMinCommitTs lock)
  else if lock.expired q.currentTs then (rollbackLock key v lock true).map fun ms => (ms, .ttlExpire)
  else .ok (q.pushMinCommitTs lock)

def newMaxTs (q : CheckTxnStatus) : Nat :=
  let ts := if q.currentTs ≠ tsMax ∧ q.startTs < q.currentTs then q.currentTs else q.startTs
  if q.callerStartTs ≠ tsMax ∧ ts < q.callerStartTs then q.callerStartTs else ts

def run (q : CheckTxnStatus) (key : Bytes) (k : KeyState) : Except MvccError (List Modify × TxnStatus) :=
  match k.ownLock q.startTs with
  | some lock => q.lockExists key k.writes lock
  | none => checkTxnStatusMissingLock k.writes q.startTs k.lock (.rollbackIfNotExist q.rollbackIfNotExist)
      q.resolvingPessimisticLock

end CheckTxnStatus

/-! ## Commit and cleanup -/

/-- The record a lock is committed with; a rollback recorded in the lock at the same timestamp is kept in it. -/
def Lock.commitRecord (lock : Lock) (writeType : WriteType) (commitTs : Nat) : Write :=
  let write := { Write.new writeType lock.ts lock.shortValue with
    lastChange := lock.lastChange, txnSource := lock.txnSource }
  if commitTs ∈ lock.rollbackTs then write.setOverlappedRollback none else write

/-- **`commit`**; the answer says whether a lock was released. -/
def commit (k : KeyState) (startTs commitTs : Nat) : Except MvccError (List Modify × Bool) :=
  match k.ownLock startTs with
  | some lock =>
    if commitTs < lock.minCommitTs then .error (.commitTsExpired commitTs lock.minCommitTs)
    else
      match WriteType.fromLockType lock.lockType with
      | none => .ok ([.unlockKey], true)  -- a stale pessimistic lock is rolled back
      | some writeType => .ok ([.putWrite commitTs (lock.commitRecord writeType commitTs), .unlockKey], true)
  | none =>
    match (getTxnCommitRecord k.writes startTs).info with
    | none | some (_, .rollback) => .error (.txnLockNotFound commitTs)
    | some (_, .put) | some (_, .delete) | some (_, .lock) => .ok ([], false)

/-- **`cleanup`**; a zero `currentTs` rolls back a lock that is still alive, too. -/
def cleanup (key : Bytes) (k : KeyState) (startTs currentTs : Nat) (protectRollback : Bool) :
    Except MvccError (List Modify) :=
  match k.ownLock startTs with
  | some lock =>
    if currentTs ≠ 0 ∧ lock.expired currentTs = false then .error (.keyIsLocked lock)
    else rollbackLock key k.writes lock (!protectRollback)
  | none =>
    match checkTxnStatusMissingLock k.writes startTs k.lock (.rollbackProtect protectRollback) false with
    | .error e => .error e
    | .ok (_, .committed commitTs) => .error (.committed commitTs)
    | .ok (ms, _) => .ok ms

/-! ## Secondary locks -/

inductive SecondaryLockStatus
  | locked (lock : Lock)
  | committed (commitTs : Nat)
  | rolledBack
deriving DecidableEq

/-- The status a record determines, and what a rollback has to keep if none does. -/
def secondaryStatus (v : Versions) (startTs : Nat) : SecondaryLockStatus × Option (Option OverlappedWrite) :=
  match getTxnCommitRecord v startTs with
  | .singleRecord commitTs write => (if write.writeType = .rollback then .rolledBack else .committed commitTs, none)
  | .overlappedRollback _ => (.rolledBack, none)
  | .none overlapped => (.rolledBack, some overlapped)

def rollbackSecondary (v : Versions) (startTs : Nat) (mismatchLock : Option Lock) (overlapped : Option OverlappedWrite) :
    Except MvccError (List Modify) :=
  match makeRollback startTs true overlapped with
  | .error e => .error e
  | .ok write =>
    .ok (markMismatchLock startTs mismatchLock true ++ putRollback startTs write ++
      if write.isSome then collapsePrevRollback v startTs else [])

/-- **`CheckSecondaryLocks`** on one key: a lock that is not a prewritten one is rolled back for good. -/
def checkSecondaryLock (k : KeyState) (startTs : Nat) : Except MvccError (List Modify × SecondaryLockStatus) :=
  match k.ownLock startTs with
  | some lock =>
    if lock.isPessimisticLock then
      match secondaryStatus k.writes startTs with
      | (_, some overlapped) =>
        (rollbackSecondary k.writes startTs none overlapped).map fun ms => (.unlockKey :: ms, .rolledBack)
      | (status, none) =>
        if lock.isPessimisticLockWithConflict then .ok ([.unlockKey], status)
        else .error (.panic "txn record found but not expected")
    else .ok ([], .locked lock)
  | none =>
    match secondaryStatus k.writes startTs with
    | (status, some overlapped) => (rollbackSecondary k.writes startTs k.lock overlapped).map fun ms => (ms, status)
    | (status, none) => .ok ([], status)

/-! ## Heartbeats -/

def Lock.heartBeat (lock : Lock) (adviseTtl minCommitTs : Nat) : Lock :=
  { lock with
    ttl := if lock.ttl < adviseTtl then adviseTtl else lock.ttl
    minCommitTs :=
      if lock.useAsyncCommit = false ∧ 0 < lock.generation ∧ 0 < minCommitTs ∧ lock.minCommitTs < minCommitTs
      then minCommitTs else lock.minCommitTs }

/-- **`TxnHeartBeat`**: the ttl is only raised, the `min_commit_ts` only of a pipelined transaction. -/
def txnHeartBeat (k : KeyState) (startTs adviseTtl minCommitTs : Nat) : Except MvccError (List Modify × TxnStatus) :=
  match k.ownLock startTs with
  | some lock =>
    let lock' := lock.heartBeat adviseTtl minCommitTs
    .ok (if lock' = lock then [] else [.putLock lock'], .uncommitted lock' false)
  | none => .error .txnNotFound

def pessimisticRollback (k : KeyState) (startTs forUpdateTs : Nat) : List Modify :=
  match k.ownLock startTs with
  | some lock => if lock.isPessimisticLock ∧ lock.forUpdateTs ≤ forUpdateTs then [.unlockKey] else []
  | none => []

end Mvcc
end Tikv
