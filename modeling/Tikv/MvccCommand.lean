import Tikv.LibRun
import Tikv.MvccPessimistic
import Tikv.MvccResolve
/-!
# MvccCommand — the commands on one key of a store (`txn::commands`)

The scheduler's latches make the commands on a key take effect one after another.  A command reads the key, may publish a
timestamp, and writes its modifications, or nothing if it fails.  Of a command on several keys this is its share of one
key; a command that fails on another key writes nothing here either and is no step.
-/
namespace Tikv
namespace Mvcc

open Lib

structure Store where
  cm : ConcurrencyManager
  key : KeyState

/-- What the other keys of a prewrite come to: their greatest `min_commit_ts`, and whether one of them makes the request
fall back to the ordinary two phases after this key. -/
structure OtherKeys where
  minCommitTs : Nat
  fallsBack : Bool
deriving DecidableEq

/-- `Flush`: an optimistic prewrite of a generation, whose lock can be pushed. -/
structure Flush where
  key : Bytes
  mutation : Mutation
  assertion : Assertion
  generation : Nat
  startTs : Nat
  primary : Bytes
  lockTtl : Nat
  assertionLevel : AssertionLevel
  txnSource : Nat
  canEnableLastChange : Bool
  nexts : Nat
  isRetryRequest : Bool
deriving DecidableEq

def Flush.prewrite (q : Flush) : Prewrite where
  key := q.key
  mutation := q.mutation
  assertion := q.assertion
  secondaryKeys := none
  pessimisticAction := .skipPessimisticCheck
  expectedForUpdateTs := none
  generation := q.generation
  startTs := q.startTs
  kind := .optimistic false
  commitKind := .twoPc
  primary := q.primary
  txnSize := 2 ^ 64 - 1
  lockTtl := q.lockTtl
  minCommitTs := q.startTs + 1
  isRetryRequest := q.isRetryRequest
  assertionLevel := q.assertionLevel
  txnSource := q.txnSource
  canEnableLastChange := q.canEnableLastChange
  nexts := q.nexts

/-- `resolveLock` carries whether the lock its read phase found is a pessimistic one, a zero `commitTs` asks for the
rollback; `read` stands for any command of the store that publishes a timestamp and leaves the key alone. -/
inductive Command
  | prewrite (r : Prewrite) (others : OtherKeys)
  | flush (q : Flush)
  | acquirePessimisticLock (q : AcquirePessimisticLock)
  | pessimisticRollback (startTs forUpdateTs : Nat)
  | txnHeartBeat (startTs adviseTtl minCommitTs : Nat)
  | commit (startTs commitTs : Nat)
  | cleanup (startTs currentTs : Nat)
  | rollback (startTs : Nat)
  | resolveLock (startTs commitTs : Nat) (pessimistic : Bool)
  | resolveLockLite (startTs commitTs : Nat)
  | checkTxnStatus (q : CheckTxnStatus)
  | checkSecondaryLocks (startTs : Nat)
  | read (ts : Nat)
deriving DecidableEq

inductive Response
  | done
  | prewriteResult (minCommitTs : Nat)
  | txnStatus (status : TxnStatus)
  | secondaryLockStatus (status : SecondaryLockStatus)
  | pessimisticLock (res : PessimisticLockKeyResult)
deriving DecidableEq

/-- The transaction's commit record, for which an error of its prewrite is forgiven (`check_committed_record_on_err`). -/
def committedRecord (v : Versions) (startTs : Nat) : Option Nat :=
  match getTxnCommitRecord v startTs with
  | .singleRecord commitTs write => if write.writeType = .rollback then none else some commitTs
  | .none _ | .overlappedRollback _ => none

/-- The errors of a prewrite that are forgiven if the transaction turns out to be committed. -/
def MvccError.forgiven (startTs : Nat) : MvccError → Bool
  | .writeConflict _ conflictCommitTs _ => startTs < conflictCommitTs
  | .pessimisticLockNotFound _ | .commitTsTooLarge .. | .keyIsLocked _ => true
  | _ => false

def Lock.onePcRecord (lock : Lock) (writeType : WriteType) : Write :=
  { Write.new writeType lock.ts lock.shortValue with lastChange := lock.lastChange, txnSource := lock.txnSource }

/-- What becomes of the lock kept back for a one-phase commit: `handle_1pc_locks` or `fallback_1pc_locks`. -/
def onePcModifies (others : OtherKeys) (finalMinCommitTs : Nat) : Option (Lock × Bool) → List Modify
  | none => []
  | some (lock, deletePessimisticLock) =>
    if others.fallsBack then [.putLock { lock with useOnePc := false }]
    else
      match WriteType.fromLockType lock.lockType with
      | none => []
      | some writeType =>
        .putWrite finalMinCommitTs (lock.onePcRecord writeType) :: if deletePessimisticLock then [.unlockKey] else []

/-- The share of one key in `Prewriter::prewrite` and `write_result`: the modifications and the timestamp answered. -/
def prewriteModifies (r : Prewrite) (others : OtherKeys) (v : Versions) (p : Prewritten) :
    Except MvccError (List Modify × Nat) :=
  match p.result with
  | .ok ts =>
    let final := max ts others.minCommitTs
    .ok (p.modifies ++ onePcModifies others final p.lockForOnePc, final)
  | .error e =>
    if e.forgiven r.startTs then
      match committedRecord v r.startTs, e with
      | some commitTs, _ => .ok ([], commitTs)
      | none, .commitTsTooLarge .. => .ok (p.modifies, 0)
      | none, e => .error e
    else .error e

def flushModifies (q : Flush) (v : Versions) (p : Prewritten) : Except MvccError (List Modify) :=
  match p.result with
  | .ok _ => .ok p.modifies
  | .error (.generationOutOfOrder ..) => .ok []
  | .error e =>
    match e.forgiven q.startTs, committedRecord v q.startTs with
    | true, some _ => .ok []
    | _, _ => .error e

def Store.write (s : Store) (ms : List Modify) : Store := { s with key := s.key.apply ms }

def Store.finish (s : Store) {α : Type} (res : Except MvccError (List Modify × α)) (answer : α → Response) :
    Store × Except MvccError Response :=
  match res with
  | .ok (ms, a) => (s.write ms, .ok (answer a))
  | .error e => (s, .error e)

/-- A command that publishes `ts` first, and goes on with `next` if that is accepted. -/
def Store.publish (s : Store) (out : Outside) (ts : Nat) (next : Store → Store × Except MvccError Response) :
    Store × Except MvccError Response :=
  match s.cm.updateMaxTs out ts with
  | (cm, .ok ()) => next { s with cm }
  | (cm, .error e) => ({ s with cm }, .error e)

def resolve (key : Bytes) (k : KeyState) (startTs commitTs : Nat) : Except MvccError (List Modify) :=
  if commitTs = 0 then cleanup key k startTs 0 false else (commit k startTs commitTs).map (·.1)

def resolveFound (key : Bytes) (k : KeyState) (startTs commitTs : Nat) (pessimistic : Bool) :
    Except MvccError (List Modify) :=
  if commitTs ≠ 0 ∧ commitTs ≤ startTs then .error (.invalidTxnTso commitTs)
  else
    match resolve key k startTs commitTs with
    | .error (.txnLockNotFound ts) => if pessimistic then .ok [] else .error (.txnLockNotFound ts)
    | res => res

def Store.process (key : Bytes) (s : Store) (out : Outside) : Command → Store × Except MvccError Response
  | .prewrite r others =>
    let (cm, p) := prewrite r s.cm out s.key
    { s with cm }.finish (prewriteModifies r others s.key.writes p) .prewriteResult
  | .flush q =>
    if q.generation = 0 then (s, .error (.other "generation should be greater than 0 for Flush requests"))
    else
      let (cm, p) := prewriteWithGeneration q.prewrite s.cm out s.key
      { s with cm }.finish ((flushModifies q s.key.writes p).map (·, ())) fun _ => .done
  | .acquirePessimisticLock q =>
    let (cm, res) := q.run s.cm out s.key
    { s with cm }.finish res .pessimisticLock
  | .pessimisticRollback startTs forUpdateTs => (s.write (pessimisticRollback s.key startTs forUpdateTs), .ok .done)
  | .txnHeartBeat startTs adviseTtl minCommitTs =>
    s.finish (txnHeartBeat s.key startTs adviseTtl minCommitTs) .txnStatus
  | .commit startTs commitTs =>
    if commitTs ≤ startTs then (s, .error (.invalidTxnTso commitTs))
    else s.finish (commit s.key startTs commitTs) fun _ => .txnStatus (.committed commitTs)
  | .cleanup startTs currentTs =>
    s.publish out startTs fun s => s.finish ((cleanup key s.key startTs currentTs true).map (·, ())) fun _ => .done
  | .rollback startTs => s.finish ((cleanup key s.key startTs 0 false).map (·, ())) fun _ => .done
  | .resolveLock startTs commitTs pessimistic =>
    s.finish ((resolveFound key s.key startTs commitTs pessimistic).map (·, ())) fun _ => .done
  | .resolveLockLite startTs commitTs => s.finish ((resolve key s.key startTs commitTs).map (·, ())) fun _ => .done
  | .checkTxnStatus q => s.publish out q.newMaxTs fun s => s.finish (q.run key s.key) .txnStatus
  | .checkSecondaryLocks startTs =>
    s.publish out startTs fun s => s.finish (checkSecondaryLock s.key startTs) .secondaryLockStatus
  | .read ts => s.publish out ts fun s => (s, .ok .done)

end Mvcc
end Tikv
