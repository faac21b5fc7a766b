import Tikv.MvccPrewrite
/-!
# MvccPessimistic — acquiring a pessimistic lock (`txn::actions::acquire_pessimistic_lock`)

A pessimistic lock is acquired on a key that has no newer version than the request's `for_update_ts`, or in spite of one
if the request allows that.  A request for a key the transaction has locked already rewrites the lock only with a larger
`for_update_ts`, and then with the values of the request.
-/
namespace Tikv
namespace Mvcc

open Lib

structure AcquirePessimisticLock where
  key : Bytes
  primary : Bytes
  startTs : Nat
  shouldNotExist : Bool
  lockTtl : Nat
  forUpdateTs : Nat
  needValue : Bool
  needCheckExistence : Bool
  minCommitTs : Nat
  needOldValue : Bool
  lockOnlyIfExists : Bool
  allowLockWithConflict : Bool
  canEnableLastChange : Bool
  nexts : Nat
deriving DecidableEq

inductive PessimisticLockKeyResult
  | empty
  | value (value : Option Bytes)
  | existence (exist : Bool)
  | lockedWithConflict (value : Option Bytes) (conflictTs : Nat)
deriving DecidableEq

namespace AcquirePessimisticLock

def success (q : AcquirePessimisticLock) (lockedWithConflictTs : Option Nat) (val : Option Bytes) :
    PessimisticLockKeyResult :=
  match lockedWithConflictTs with
  | some ts => .lockedWithConflict val ts
  | none => if q.needValue then .value val else if q.needCheckExistence then .existence val.isSome else .empty

def pessimisticLock (q : AcquirePessimisticLock) (forUpdateTs : Nat) (lastChange : LastChange)
    (isLockedWithConflict : Bool) : Lock :=
  { Lock.new .pessimistic q.primary q.startTs q.lockTtl none forUpdateTs 0 q.minCommitTs isLockedWithConflict with
    lastChange }

def needLoadValue (q : AcquirePessimisticLock) : Bool := q.needValue || (q.needCheckExistence && q.needOldValue)

/-- A constraint that fails on a version the request conflicts with is reported as the conflict. -/
def checkConstraint (q : AcquirePessimisticLock) (v : Versions) (write : Write) (commitTs : Nat)
    (conflict : Option (Nat × Nat)) : Except MvccError Unit :=
  match checkDataConstraint v q.startTs q.shouldNotExist write commitTs, conflict with
  | .error (.alreadyExist _), some (conflictStartTs, conflictCommitTs) =>
    .error (.writeConflict conflictStartTs conflictCommitTs .pessimisticRetry)
  | res, _ => res

/-- The key is locked by the transaction: a smaller `for_update_ts` is raised, a larger one answered as a conflict. -/
def overLock (q : AcquirePessimisticLock) (k : KeyState) (lock : Lock) :
    Except MvccError (List Modify × PessimisticLockKeyResult) :=
  if lock.ts ≠ q.startTs then .error (.keyIsLocked lock)
  else if !lock.isPessimisticLock then .error (.lockTypeNotMatch false)
  else
    let conflictTs := if q.allowLockWithConflict ∧ q.forUpdateTs < lock.forUpdateTs then some lock.forUpdateTs else none
    let forUpdateTs := conflictTs.getD q.forUpdateTs
    let needLoad := conflictTs.isSome || q.needLoadValue
    let val : Except MvccError (Option Bytes) :=
      if needLoad || q.needCheckExistence || q.shouldNotExist then
        match getWriteWithCommitTs k.writes q.startTs forUpdateTs with
        | .error e => .error e
        | .ok none => .ok none
        | .ok (some (write, commitTs)) =>
          let conflict := if q.forUpdateTs < commitTs then some (write.startTs, commitTs) else none
          match q.checkConstraint k.writes write commitTs conflict with
          | .error e => .error e
          | .ok () =>
            if needLoad then (loadData k write).map some
            else .ok (if q.needCheckExistence then some [] else none)
      else .ok none
    match val with
    | .error e => .error e
    | .ok val =>
      let modifies := if lock.forUpdateTs < forUpdateTs
        then [.putLock (q.pessimisticLock forUpdateTs lock.lastChange lock.isPessimisticLockWithConflict)] else []
      .ok (modifies, q.success conflictTs val)

/-- The rollback of the transaction may stand at the newest version, or under it. -/
def checkRolledBack (q : AcquirePessimisticLock) (v : Versions) (commitTs : Nat) (write : Write) :
    Except MvccError Unit :=
  if commitTs = q.startTs ∧ write.marksRollback = true then
    if write.hasOverlappedRollback ∨ write.startTs = commitTs then .error .pessimisticLockRolledBack
    else .error (.panic "assertion failed: write.has_overlapped_rollback || write.start_ts == commit_ts")
  else if q.startTs < commitTs then
    match seekWrite v q.startTs with
    | some (olderTs, older) =>
      if olderTs = q.startTs ∧ older.marksRollback = true then .error .pessimisticLockRolledBack else .ok ()
    | none => .ok ()
  else .ok ()

/-- The value the request reads on the way, from the newest version or from the one below a LOCK or Rollback record. -/
def readValue (q : AcquirePessimisticLock) (k : KeyState) (write : Write) (commitTs : Nat) (needLoad : Bool) :
    Except MvccError (Option Bytes) :=
  match write.writeType with
  | .put =>
    if write.checkGcFence q.startTs then (if needLoad then (loadData k write).map some else .ok (some []))
    else .ok none
  | .delete => .ok none
  | .lock | .rollback =>
    match getWriteWithCommitTs k.writes q.startTs (commitTs - 1) with
    | .error e => .error e
    | .ok none => .ok none
    | .ok (some (prev, _)) => if needLoad then (loadData k prev).map some else .ok (some [])

/-- What an unlocked key's newest version comes to: the conflict it is locked with, the value read, `last_change`. -/
def overVersion (q : AcquirePessimisticLock) (k : KeyState) (commitTs : Nat) (write : Write) :
    Except MvccError (Option (Nat × Nat) × Option Bytes × LastChange) :=
  if q.forUpdateTs < commitTs ∧ q.allowLockWithConflict = false then
    .error (.writeConflict write.startTs commitTs .pessimisticRetry)
  else
    let conflict := if q.forUpdateTs < commitTs then some (write.startTs, commitTs) else none
    match q.checkRolledBack k.writes commitTs write with
    | .error e => .error e
    | .ok () =>
      match q.checkConstraint k.writes write commitTs conflict with
      | .error e => .error e
      | .ok () =>
        match nextLastChangeInfo k.writes q.startTs q.nexts write commitTs with
        | .error e => .error e
        | .ok lastChange =>
          if q.needValue || q.needCheckExistence || conflict.isSome then
            (q.readValue k write commitTs (conflict.isSome || q.needLoadValue)).map (conflict, ·, lastChange)
          else .ok (conflict, none, lastChange)

def noLock (q : AcquirePessimisticLock) (k : KeyState) : Except MvccError (List Modify × PessimisticLockKeyResult) :=
  let read : Except MvccError (Option (Nat × Nat) × Option Bytes × LastChange) :=
    match newestWrite k.writes with
    | some (commitTs, write) => q.overVersion k commitTs write
    | none => .ok (none, none, .notExist)
  match read with
  | .error e => .error e
  | .ok (conflict, val, lastChange) =>
    let lastChange := if q.canEnableLastChange then lastChange else .unknown
    let lock := q.pessimisticLock ((conflict.map (·.2)).getD q.forUpdateTs) lastChange conflict.isSome
    if !q.lockOnlyIfExists || val.isSome then .ok ([.putLock lock], q.success (conflict.map (·.2)) val)
    else
      match conflict with
      | some (startTs, commitTs) => .error (.writeConflict startTs commitTs .pessimisticRetry)
      | none => .ok ([], q.success none val)

/-- **`acquire_pessimistic_lock`** on one key; a request that reads the value publishes its `for_update_ts`. -/
def run (q : AcquirePessimisticLock) (cm : ConcurrencyManager) (out : Outside) (k : KeyState) :
    ConcurrencyManager × Except MvccError (List Modify × PessimisticLockKeyResult) :=
  if q.lockOnlyIfExists && !q.needValue then (cm, .error .lockIfExistsFailed)
  else
    let (cm, updated) := if q.shouldNotExist || q.needValue || q.needCheckExistence
      then cm.updateMaxTs out q.forUpdateTs else (cm, .ok ())
    match updated with
    | .error e => (cm, .error e)
    | .ok () =>
      match k.lock with
      | some lock => (cm, q.overLock k lock)
      | none => (cm, q.noLock k)

end AcquirePessimisticLock

end Mvcc
end Tikv
