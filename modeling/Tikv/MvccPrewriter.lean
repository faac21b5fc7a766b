import Tikv.MvccEffect
/-!
# MvccPrewriter — a prewrite request and its answer (`txn::commands::prewrite`)

A request prewrites its mutations one after another, on one snapshot.  It keeps the locks back while a one-phase commit is
still possible and falls back to the ordinary two phases when a key cannot have a commit timestamp of its own; at the end
the answer says what was written.  A request that meets a commit record of its own transaction writes nothing and answers
with that record.
-/
namespace Tikv
namespace Mvcc

open Lib

/-! ## The request -/

structure KeyMutation where
  key : Bytes
  mutation : Mutation
  assertion : Assertion
deriving DecidableEq

structure PrewriteFields where
  primary : Bytes
  startTs : Nat
  lockTtl : Nat
  txnSize : Nat
  minCommitTs : Nat
  maxCommitTs : Nat
  secondaryKeys : Option (List Bytes)
  tryOnePc : Bool
  assertionLevel : AssertionLevel
  isRetryRequest : Bool
  txnSource : Nat
deriving DecidableEq

/-- `Prewrite` and `PrewritePessimistic`; a constraint is an index and the `for_update_ts` expected there. -/
inductive PrewriteCommand
  | prewrite (fields : PrewriteFields) (mutations : List KeyMutation) (skipConstraintCheck : Bool)
  | prewritePessimistic (fields : PrewriteFields) (mutations : List (KeyMutation × PessimisticAction))
      (forUpdateTs : Nat) (forUpdateTsConstraints : List (Nat × Nat))
deriving DecidableEq

namespace PrewriteCommand

def fields : PrewriteCommand → PrewriteFields
  | prewrite fields .. | prewritePessimistic fields .. => fields

def mutations : PrewriteCommand → List KeyMutation
  | prewrite _ mutations _ => mutations
  | prewritePessimistic _ mutations .. => mutations.map (·.1)

end PrewriteCommand

/-- `PessimisticMutation`; a mutation of an optimistic request has no pessimistic check. -/
structure PessimisticMutation where
  item : KeyMutation
  pessimisticAction : PessimisticAction
  expectedForUpdateTs : Option Nat
deriving DecidableEq

inductive PrewriteError
  | mvcc (e : MvccError)
  | maxTimestampNotSynced (startTs : Nat)
  | invalidConstraint (index mutations : Nat)
deriving DecidableEq

structure Prewriter where
  kind : TransactionKind
  mutations : List PessimisticMutation
  fields : PrewriteFields
deriving DecidableEq

/-- What a request reads of its surroundings: whether the transaction status cache knows a commit of the transaction,
whether `max_ts` is synced, whether the write column family is found to have data between the first and the last key, and
what the update of `max_ts` and the cursors read. -/
structure PrewriteContext where
  knownCommitted : Bool
  isMaxTsSynced : Bool
  hasDataInRange : Bool
  outside : Outside
  canEnableLastChange : Bool
  nexts : Bytes → Nat

def setConstraints : List (Nat × Nat) → List PessimisticMutation → Except PrewriteError (List PessimisticMutation)
  | [], mutations => .ok mutations
  | (index, expected) :: rest, mutations =>
    if mutations.length ≤ index then .error (.invalidConstraint index mutations.length)
    else setConstraints rest (mutations.modify index fun m => { m with expectedForUpdateTs := some expected })

def PrewriteCommand.intoPrewriter : PrewriteCommand → Except PrewriteError Prewriter
  | .prewrite fields mutations skip =>
    .ok ⟨.optimistic skip, mutations.map fun m => ⟨m, .skipPessimisticCheck, none⟩, fields⟩
  | .prewritePessimistic fields mutations forUpdateTs constraints =>
    (setConstraints constraints (mutations.map fun m => ⟨m.1, m.2, none⟩)).map fun mutations =>
      ⟨.pessimistic forUpdateTs, mutations, fields⟩

/-! ## The loop -/

def forwardMinMutationsNum : Nat := 12

/-- `can_skip_constraint_check`: of an optimistic request with many mutations, which are sorted for it. -/
def Prewriter.canSkipConstraintCheck (ctx : PrewriteContext) (p : Prewriter) : Prewriter :=
  match p.kind with
  | .pessimistic _ => p
  | .optimistic skip =>
    if p.mutations.length ≤ forwardMinMutationsNum then p
    else { p with
      mutations := p.mutations.mergeSort fun a b => decide (a.item.key ≤ b.item.key)
      kind := .optimistic (skip || !ctx.hasDataInRange) }

/-- A pessimistic request whose transaction is known to be committed is dealt with as a retry. -/
def Prewriter.markRetry (ctx : PrewriteContext) (p : Prewriter) : Prewriter :=
  match p.kind with
  | .optimistic _ => p
  | .pessimistic _ =>
    if ctx.knownCommitted then { p with fields := { p.fields with isRetryRequest := true } } else p

def commitKindOf (maxCommitTs : Nat) : Option (List Bytes) → Bool → CommitKind
  | _, true => .onePc maxCommitTs
  | some _, false => .async maxCommitTs
  | none, false => .twoPc

structure PrewriterState where
  cm : ConcurrencyManager
  modifies : List (Bytes × Modify)
  locksForOnePc : List (Bytes × Lock × Bool)
  commitKind : CommitKind
  asyncCommitPk : Option Bytes
  secondaryKeys : Option (List Bytes)
  tryOnePc : Bool
  finalMinCommitTs : Nat
  locks : List MvccError
  assertionFailure : Option MvccError

def Prewriter.start (p : Prewriter) (cm : ConcurrencyManager) : PrewriterState where
  cm := cm
  modifies := []
  locksForOnePc := []
  commitKind := commitKindOf p.fields.maxCommitTs p.fields.secondaryKeys p.fields.tryOnePc
  asyncCommitPk := (p.fields.secondaryKeys.filter fun keys => !keys.isEmpty).map fun _ => p.fields.primary
  secondaryKeys := p.fields.secondaryKeys
  tryOnePc := p.fields.tryOnePc
  finalMinCommitTs := 0
  locks := []
  assertionFailure := none

/-- The mutation with the properties of the transaction; only the primary has the secondaries. -/
def Prewriter.request (p : Prewriter) (ctx : PrewriteContext) (st : PrewriterState) (m : PessimisticMutation) :
    Prewrite where
  key := m.item.key
  mutation := m.item.mutation
  assertion := m.item.assertion
  secondaryKeys :=
    if st.asyncCommitPk = some m.item.key then st.secondaryKeys else st.secondaryKeys.map fun _ => []
  pessimisticAction := m.pessimisticAction
  expectedForUpdateTs := m.expectedForUpdateTs
  generation := 0
  startTs := p.fields.startTs
  kind := p.kind
  commitKind := st.commitKind
  primary := p.fields.primary
  txnSize := p.fields.txnSize
  lockTtl := p.fields.lockTtl
  minCommitTs := p.fields.minCommitTs
  isRetryRequest := p.fields.isRetryRequest
  assertionLevel := p.fields.assertionLevel
  txnSource := p.fields.txnSource
  canEnableLastChange := ctx.canEnableLastChange
  nexts := ctx.nexts m.item.key

namespace PrewriterState

def needMinCommitTs (st : PrewriterState) : Bool := st.secondaryKeys.isSome || st.tryOnePc

/-- Later keys are prewritten in the old way; `fallback_1pc_locks` puts the locks that were kept back. -/
def fallBack (st : PrewriterState) : PrewriterState :=
  { st with
    modifies := st.modifies ++ st.locksForOnePc.map fun x => (x.1, .putLock { x.2.1 with useOnePc := false })
    locksForOnePc := []
    commitKind := .twoPc
    asyncCommitPk := none
    secondaryKeys := none
    tryOnePc := false
    finalMinCommitTs := 0 }

def committed (st : PrewriterState) (commitTs : Nat) : PrewriterState :=
  { st with modifies := [], locksForOnePc := [], locks := [], assertionFailure := none, finalMinCommitTs := commitTs }

def add (st : PrewriterState) (cm : ConcurrencyManager) (key : Bytes) (r : Prewritten) : PrewriterState :=
  { st with
    cm
    modifies := st.modifies ++ r.modifies.map fun m => (key, m)
    locksForOnePc := st.locksForOnePc ++ r.lockForOnePc.toList.map fun x => (key, x.1, x.2) }

end PrewriterState

inductive Turn
  | goOn (st : PrewriterState)
  | answer (st : PrewriterState)

def Prewriter.onError (p : Prewriter) (st : PrewriterState) (v : Versions) (e : MvccError) : Except MvccError Turn :=
  match e with
  | .writeConflict _ conflictCommitTs _ =>
    if p.fields.startTs < conflictCommitTs then
      match committedRecord v p.fields.startTs with
      | some commitTs => .ok (.answer (st.committed commitTs))
      | none => .error e
    else .error e
  | .pessimisticLockNotFound _ =>
    match committedRecord v p.fields.startTs with
    | some commitTs => .ok (.answer (st.committed commitTs))
    | none => .error e
  | .commitTsTooLarge .. =>
    -- a retry whose transaction is committed must not fall back
    match committedRecord v p.fields.startTs with
    | some commitTs => .ok (.answer (st.committed commitTs))
    | none => .ok (.goOn st.fallBack)
  | .keyIsLocked _ =>
    match committedRecord v p.fields.startTs with
    | some commitTs => .ok (.answer (st.committed commitTs))
    | none => .ok (.goOn { st with locks := st.locks ++ [e] })
  | .assertionFailed .. => .ok (.goOn { st with assertionFailure := st.assertionFailure.or (some e) })
  | e => .error e

def Prewriter.turn (p : Prewriter) (ctx : PrewriteContext) (state : Bytes → KeyState) (st : PrewriterState)
    (m : PessimisticMutation) : Except MvccError Turn :=
  let (cm, r) := prewrite (p.request ctx st m) st.cm ctx.outside (state m.item.key)
  let added := st.add cm m.item.key r
  match r.result with
  | .ok ts =>
    if st.needMinCommitTs && ts = 0 then .ok (.goOn added.fallBack)
    else if st.needMinCommitTs then .ok (.goOn { added with finalMinCommitTs := max st.finalMinCommitTs ts })
    else .ok (.goOn added)
  | .error e => p.onError added (state m.item.key).writes e

/-- **`Prewriter::prewrite`**; an assertion that failed is the error of the request if there is no other. -/
def Prewriter.prewrite (p : Prewriter) (ctx : PrewriteContext) (state : Bytes → KeyState) (st : PrewriterState) :
    List PessimisticMutation → Except MvccError PrewriterState
  | [] =>
    match st.assertionFailure with
    | some e => .error e
    | none => .ok st
  | m :: ms =>
    match p.turn ctx state st m with
    | .error e => .error e
    | .ok (.answer st) => .ok st
    | .ok (.goOn st) => p.prewrite ctx state st ms

/-! ## The answer -/

structure PrewriteResult where
  locks : List MvccError
  minCommitTs : Nat
  onePcCommitTs : Nat
deriving DecidableEq

def handleOnePcLocks (commitTs : Nat) (locks : List (Bytes × Lock × Bool)) : List (Bytes × Modify) :=
  locks.flatMap fun x =>
    match WriteType.fromLockType x.2.1.lockType with
    | none => []
    | some writeType =>
      (x.1, .putWrite commitTs (x.2.1.onePcRecord writeType)) :: if x.2.2 then [(x.1, .unlockKey)] else []

def onePcCommit (st : PrewriterState) : Except MvccError (List (Bytes × Modify) × Nat) :=
  if st.tryOnePc then
    if st.finalMinCommitTs = 0 then .error (.panic "assertion `left != right` failed")
    else .ok (st.modifies ++ handleOnePcLocks st.finalMinCommitTs st.locksForOnePc, st.finalMinCommitTs)
  else if st.locksForOnePc.isEmpty then .ok (st.modifies, 0)
  else .error (.panic "assertion failed: txn.locks_for_1pc.is_empty()")

def PrewriterState.asyncCommitTs (st : PrewriterState) : Nat :=
  if st.secondaryKeys.isSome then st.finalMinCommitTs else 0

/-- `Prewriter::write_result`: nothing is written if a key is locked. -/
def writeResult (st : PrewriterState) : Except MvccError (List (Bytes × Modify) × PrewriteResult) :=
  if st.locks.isEmpty then
    match onePcCommit st with
    | .error e => .error e
    | .ok (modifies, onePcCommitTs) => .ok (modifies, ⟨[], st.asyncCommitTs, onePcCommitTs⟩)
  else .ok ([], ⟨st.locks, st.asyncCommitTs, 0⟩)

structure PrewriteStore where
  cm : ConcurrencyManager
  state : Bytes → KeyState

def keyModifies (ms : List (Bytes × Modify)) (key : Bytes) : List Modify := (ms.filter fun x => x.1 = key).map (·.2)

def PrewriteStore.write (s : PrewriteStore) (ms : List (Bytes × Modify)) (key : Bytes) : KeyState :=
  (s.state key).apply (keyModifies ms key)

def Prewriter.checkMaxTsSynced (ctx : PrewriteContext) (p : Prewriter) : Except PrewriteError Unit :=
  if (p.fields.secondaryKeys.isSome || p.fields.tryOnePc) && !ctx.isMaxTsSynced then
    .error (.maxTimestampNotSynced p.fields.startTs)
  else .ok ()

def Prewriter.processWrite (ctx : PrewriteContext) (s : PrewriteStore) (p : Prewriter) :
    Except PrewriteError (List (Bytes × Modify) × PrewriteResult) :=
  let p := (p.markRetry ctx).canSkipConstraintCheck ctx
  match p.checkMaxTsSynced ctx with
  | .error e => .error e
  | .ok () =>
    match (p.prewrite ctx s.state (p.start s.cm) p.mutations).bind writeResult with
    | .error e => .error (.mvcc e)
    | .ok written => .ok written

/-- **A prewrite request**: the state of the keys after it and its answer.  An error writes nothing. -/
def PrewriteStore.process (s : PrewriteStore) (ctx : PrewriteContext) (command : PrewriteCommand) :
    (Bytes → KeyState) × Except PrewriteError PrewriteResult :=
  match command.intoPrewriter.bind (Prewriter.processWrite ctx s) with
  | .error e => (s.state, .error e)
  | .ok (ms, result) => (s.write ms, .ok result)

end Mvcc
end Tikv
