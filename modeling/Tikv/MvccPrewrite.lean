import Tikv.MvccMaxTs
/-!
# MvccPrewrite — prewriting one key (`txn::actions::prewrite`)

A prewrite checks the lock of the key, then, unless its mode lets it skip that, that no newer version is in the way and
that the transaction was not rolled back, then the assertion; only then it writes its lock.  All checks are `check`,
which writes nothing; `writeLock` is the writing part.
-/
namespace Tikv
namespace Mvcc

open Lib

/-! ## The request -/

inductive Mutation
  | put (value : Bytes)
  | delete
  | lock
  | insert (value : Bytes)
  | checkNotExists
deriving DecidableEq

namespace Mutation

def shouldNotExist : Mutation → Bool
  | insert _ | checkNotExists => true
  | put _ | delete | lock => false

def shouldNotWrite : Mutation → Bool
  | checkNotExists => true
  | put _ | delete | lock | insert _ => false

def lockType : Mutation → Option LockType
  | put _ | insert _ => some .put
  | delete => some .delete
  | lock => some .lock
  | checkNotExists => none

def value : Mutation → Option Bytes
  | put v | insert v => some v
  | delete | lock | checkNotExists => none

end Mutation

/-- The flag of an optimistic transaction is `skip_constraint_check`. -/
inductive TransactionKind
  | optimistic (skipConstraintCheck : Bool)
  | pessimistic (forUpdateTs : Nat)
deriving DecidableEq

inductive CommitKind
  | twoPc
  | onePc (maxCommitTs : Nat)
  | async (maxCommitTs : Nat)
deriving DecidableEq

inductive PessimisticAction
  | skipPessimisticCheck | doPessimisticCheck | doConstraintCheck
deriving DecidableEq

inductive Assertion
  | none | exist | notExist
deriving DecidableEq

inductive AssertionLevel
  | off | fast | strict
deriving DecidableEq

/-- A mutation with the properties of its transaction.  `canEnableLastChange` is the feature gate of `last_change`,
`nexts` the cursor statistic that estimates how far away the last change is. -/
structure Prewrite where
  key : Bytes
  mutation : Mutation
  assertion : Assertion
  secondaryKeys : Option (List Bytes)
  pessimisticAction : PessimisticAction
  expectedForUpdateTs : Option Nat
  generation : Nat
  startTs : Nat
  kind : TransactionKind
  commitKind : CommitKind
  primary : Bytes
  txnSize : Nat
  lockTtl : Nat
  minCommitTs : Nat
  isRetryRequest : Bool
  assertionLevel : AssertionLevel
  txnSource : Nat
  canEnableLastChange : Bool
  nexts : Nat
deriving DecidableEq

namespace Prewrite

def isPessimistic (r : Prewrite) : Bool :=
  match r.kind with
  | .optimistic _ => false
  | .pessimistic _ => true

def forUpdateTs (r : Prewrite) : Nat :=
  match r.kind with
  | .optimistic _ => 0
  | .pessimistic ts => ts

def tryOnePc (r : Prewrite) : Bool :=
  match r.commitKind with
  | .onePc _ => true
  | .twoPc | .async _ => false

def needMinCommitTs (r : Prewrite) : Bool :=
  match r.commitKind with
  | .onePc _ | .async _ => true
  | .twoPc => false

/-- Keys that were not locked pessimistically are checked again when the request is a retry. -/
def skipConstraintCheck (r : Prewrite) : Bool :=
  match r.kind with
  | .optimistic skip => skip
  | .pessimistic _ =>
    match r.pessimisticAction with
    | .doPessimisticCheck => true
    | .skipPessimisticCheck => !r.isRetryRequest
    | .doConstraintCheck => false

end Prewrite

/-- The record says that the transaction whose start timestamp is its commit timestamp was rolled back. -/
def Write.marksRollback (w : Write) : Bool := w.writeType = .rollback || w.hasOverlappedRollback

/-! ## Reading the versions below -/

/-- `check_data_constraint`; the gc fence of a latest version that points anywhere says that it was deleted. -/
def checkDataConstraint (v : Versions) (startTs : Nat) (shouldNotExist : Bool) (write : Write) (commitTs : Nat) :
    Except MvccError Unit :=
  if !shouldNotExist || write.writeType = .delete || write.gcFence.any (· ≠ 0) then .ok ()
  else if write.writeType = .put then .error (.alreadyExist write.startTs)
  else
    match getWriteWithCommitTs v startTs (commitTs - 1) with
    | .error e => .error e
    | .ok (some (prev, _)) => .error (.alreadyExist prev.startTs)
    | .ok none => .ok ()

def nextLastChangeInfo (v : Versions) (startTs nexts : Nat) (write : Write) (commitTs : Nat) :
    Except MvccError LastChange :=
  match write.writeType with
  | .put | .delete => .ok (.exist commitTs 1)
  | .lock | .rollback =>
    match write.lastChange with
    | .exist ts versions => .ok (.exist ts (versions + 1))
    | .notExist => .ok .notExist
    | .unknown =>
      match getWriteWithCommitTs v startTs commitTs with
      | .error e => .error e
      | .ok none => .ok .notExist
      | .ok (some (_, ts)) => .ok (.exist ts (nexts + 1))

/-- The loop of `check_for_newer_version`: only a newer Rollback record is passed over, and only by a pessimistic
transaction. -/
def newerVersionFrom (r : Prewrite) (v : Versions) :
    List (Nat × Write) → Except MvccError (Option (Write × Nat))
  | [] => .ok none
  | (commitTs, write) :: older =>
    if commitTs = r.startTs ∧ write.marksRollback = true then
      .error (.writeConflict write.startTs commitTs .selfRolledBack)
    else
      let found : Except MvccError (Option (Write × Nat)) :=
        match checkDataConstraint v r.startTs r.mutation.shouldNotExist write commitTs with
        | .error e => .error e
        | .ok () => .ok (some (write, commitTs))
      match r.kind with
      | .optimistic _ =>
        if r.startTs < commitTs then .error (.writeConflict write.startTs commitTs .optimistic) else found
      | .pessimistic forUpdateTs =>
        if r.pessimisticAction = .doConstraintCheck ∧ r.startTs < commitTs then
          .error (.writeConflict write.startTs commitTs .lazyUniquenessCheck)
        else if forUpdateTs < commitTs then
          if write.writeType = .rollback then newerVersionFrom r v older
          else .error (.pessimisticLockNotFound .nonLockKeyConflict)
        else found

/-- The newest version gives the `last_change` of the new lock; it is looked up once the newest version is known not to
be the transaction's own rollback. -/
def checkForNewerVersion (r : Prewrite) (v : Versions) : Except MvccError (Option (Write × Nat) × LastChange) :=
  match newestWrite v with
  | none => .ok (none, .notExist)
  | some (commitTs, write) =>
    if commitTs = r.startTs ∧ write.marksRollback = true then
      .error (.writeConflict write.startTs commitTs .selfRolledBack)
    else
      match nextLastChangeInfo v r.startTs r.nexts write commitTs with
      | .error e => .error e
      | .ok lastChange => (newerVersionFrom r v v.entries).map (·, lastChange)

/-- The version an assertion is checked on: the one loaded, unless it is not a PUT or a DELETE. -/
def assertedWrite (r : Prewrite) (v : Versions) (write : Option (Write × Nat)) (writeLoaded : Bool) :
    Except MvccError (Option (Write × Nat)) :=
  let write := if writeLoaded && write.any (fun w => w.1.gcFence.any (· ≠ 0)) then none else write
  if !writeLoaded || write.any (fun w => !w.1.isData) then
    getWriteWithCommitTs v r.startTs ((write.map (·.2)).getD tsMax)
  else .ok write

/-- An assertion that fails after a skipped constraint check may be due to a rollback, so the check is made up. -/
def checkAssertion (r : Prewrite) (v : Versions) (write : Option (Write × Nat)) (writeLoaded : Bool) :
    Except MvccError Unit :=
  if r.assertion = .none ∨ r.assertionLevel = .off ∨ (r.assertionLevel ≠ .strict ∧ writeLoaded = false) then .ok ()
  else
    let failed (startTs commitTs : Nat) : Except MvccError Unit :=
      if r.skipConstraintCheck then
        match checkForNewerVersion r v with
        | .error e => .error e
        | .ok _ => .error (.assertionFailed startTs commitTs)
      else .error (.assertionFailed startTs commitTs)
    match assertedWrite r v write writeLoaded with
    | .error e => .error e
    | .ok found =>
      match r.assertion, found with
      | .exist, none => failed 0 0
      | .exist, some (w, commitTs) => if w.writeType = .delete then failed w.startTs commitTs else .ok ()
      | .notExist, some (w, commitTs) => if w.writeType = .put then failed w.startTs commitTs else .ok ()
      | _, _ => .ok ()

/-! ## The checks -/

inductive LockStatus
  | locked (minCommitTs : Nat)
  | pessimistic (forUpdateTs : Nat)
  | none
deriving DecidableEq

def LockStatus.hasPessimisticLock : LockStatus → Bool
  | pessimistic _ => true
  | locked _ | none => false

structure Pending where
  lockTtl : Nat
  minCommitTs : Nat
  lastChange : LastChange
deriving DecidableEq

def Prewrite.checkLock (r : Prewrite) (lock : Lock) : Except MvccError (LockStatus × Pending) :=
  if lock.ts ≠ r.startTs then
    if r.pessimisticAction = .doPessimisticCheck then .error (.pessimisticLockNotFound .lockTsMismatch)
    else .error (.keyIsLocked (if r.isPessimistic then { lock with ttl := 0 } else lock))
  else if lock.isPessimisticLock then
    if !r.isPessimistic then .error (.lockTypeNotMatch true)
    else if r.expectedForUpdateTs.any (lock.forUpdateTs ≠ ·) then
      .error (.pessimisticLockNotFound .lockForUpdateTsMismatch)
    else
      -- the ttl and min_commit_ts of the lock may have been pushed forward
      .ok (.pessimistic lock.forUpdateTs, ⟨max r.lockTtl lock.ttl, max r.minCommitTs lock.minCommitTs, lock.lastChange⟩)
  else if 0 < r.generation ∧ r.generation ≤ lock.generation then
    .error (.generationOutOfOrder r.generation lock)
  else if 0 < lock.generation ∧ r.mutation.shouldNotExist = true ∧ lock.lockType = .put then
    .error (.alreadyExist lock.ts)
  else
    .ok (.locked (if lock.useAsyncCommit then lock.minCommitTs else 0), ⟨r.lockTtl, r.minCommitTs, lock.lastChange⟩)

/-- The pessimistic lock was lost, which is fine if the key has not changed since the transaction began. -/
def Prewrite.amendPessimisticLock (r : Prewrite) (v : Versions) : Except MvccError LastChange :=
  match newestWrite v with
  | some (commitTs, write) =>
    if r.startTs ≤ commitTs then .error (.pessimisticLockNotFound .lockMissingAmendFail)
    else
      match nextLastChangeInfo v r.startTs r.nexts write commitTs with
      | .error e => .error e
      | .ok lastChange => (checkAssertion r v (some (write, commitTs)) true).map fun _ => lastChange
  | none => (checkAssertion r v none true).map fun _ => .notExist

/-- The status of the lock, what it leaves to write, and whether a lost pessimistic lock was amended. -/
def Prewrite.lockStatus (r : Prewrite) (k : KeyState) : Except MvccError (LockStatus × Pending × Bool) :=
  match k.lock with
  | some lock => (r.checkLock lock).map fun (status, pending) => (status, pending, false)
  | none =>
    if r.pessimisticAction = .doPessimisticCheck then
      if r.generation ≠ 0 then .error (.panic "assertion failed: generation == 0")
      else (r.amendPessimisticLock k.writes).map fun lastChange =>
        (.none, ⟨r.lockTtl, r.minCommitTs, lastChange⟩, true)
    else .ok (.none, ⟨r.lockTtl, r.minCommitTs, .unknown⟩, false)

inductive Checked
  | duplicate (minCommitTs : Nat)
  | pass (status : LockStatus) (pending : Pending)
deriving DecidableEq

def Prewrite.checkVersions (r : Prewrite) (v : Versions) (status : LockStatus) (pending : Pending) (amended : Bool) :
    Except MvccError Checked :=
  let checked : Except MvccError (Option (Write × Nat) × LastChange) :=
    if r.skipConstraintCheck then .ok (none, pending.lastChange) else checkForNewerVersion r v
  match checked with
  | .error e => .error e
  | .ok (prevWrite, lastChange) =>
    -- of the flushes of one key only the first is asserted
    let asserted : Except MvccError Unit :=
      match amended, status with
      | true, _ => .ok ()
      | false, .locked _ =>
        if 0 < r.generation then .ok () else checkAssertion r v prevWrite (!r.skipConstraintCheck)
      | false, _ => checkAssertion r v prevWrite (!r.skipConstraintCheck)
    match asserted with
    | .error e => .error e
    | .ok () => .ok (.pass status { pending with lastChange })

def Prewrite.check (r : Prewrite) (k : KeyState) : Except MvccError Checked :=
  match r.lockStatus k with
  | .error e => .error e
  | .ok (status, pending, amended) =>
    match status with
    | .locked ts =>
      if r.generation = 0 then .ok (.duplicate ts) else r.checkVersions k.writes status pending amended
    | .pessimistic _ | .none => r.checkVersions k.writes status pending amended

inductive FindsLock (r : Prewrite) (k : KeyState) : LockStatus → Pending → Prop
  | pessimistic {lock : Lock} {pending : Pending} (hlock : k.lock = some lock) (hts : lock.ts = r.startTs)
      (htype : lock.isPessimisticLock = true) (hpending : pending.lockTtl = max r.lockTtl lock.ttl ∧
        pending.minCommitTs = max r.minCommitTs lock.minCommitTs) : FindsLock r k (.pessimistic lock.forUpdateTs) pending
  | locked {lock : Lock} {ts : Nat} {pending : Pending} (hlock : k.lock = some lock) (hts : lock.ts = r.startTs)
      (htype : lock.isPessimisticLock = false) (hgen : 0 < r.generation → lock.generation < r.generation)
      (hpending : pending.lockTtl = r.lockTtl ∧ pending.minCommitTs = r.minCommitTs) : FindsLock r k (.locked ts) pending
  | none {pending : Pending} (hlock : k.lock = none)
      (hamend : r.pessimisticAction = .doPessimisticCheck → ∃ lastChange, r.amendPessimisticLock k.writes = .ok lastChange)
      (hpending : pending.lockTtl = r.lockTtl ∧ pending.minCommitTs = r.minCommitTs) : FindsLock r k .none pending

variable {r : Prewrite} {status : LockStatus} {pending : Pending} {k : KeyState} {amended : Bool}

theorem findsLock (h : r.lockStatus k = .ok (status, pending, amended)) :
    FindsLock r k status pending ∧ (∀ ts, status = .pessimistic ts → r.isPessimistic = true) ∧
      ∀ ts lock, status = .locked ts → k.lock = some lock → ts = if lock.useAsyncCommit then lock.minCommitTs else 0 := by
  unfold Prewrite.lockStatus at h
  split at h
  · rename_i lock hlock
    unfold Prewrite.checkLock at h
    split at h
    · split at h <;> cases h
    rename_i hts
    have hts' : lock.ts = r.startTs := Decidable.not_not.1 hts
    split at h
    · rename_i htype
      split at h
      · cases h
      rename_i hpess
      split at h <;> cases h
      exact ⟨.pessimistic hlock hts' htype ⟨rfl, rfl⟩, fun _ _ => by simpa using hpess, nofun⟩
    · rename_i htype
      split at h
      · cases h
      split at h <;> cases h
      refine ⟨.locked hlock hts' (Bool.eq_false_iff.2 htype) (fun hpos => by omega) ⟨rfl, rfl⟩, nofun, ?_⟩
      rintro _ lock' ⟨⟩ hlock'
      cases hlock.symm.trans hlock'
      rfl
  · rename_i hlock
    split at h
    · split at h
      · cases h
      obtain ⟨lastChange, hamend, heq⟩ := map_ok h
      cases heq
      exact ⟨.none hlock (fun _ => ⟨lastChange, hamend⟩) ⟨rfl, rfl⟩, nofun, nofun⟩
    · rename_i hact
      cases h
      exact ⟨.none hlock (fun hact' => absurd hact' hact) ⟨rfl, rfl⟩, nofun, nofun⟩

variable {checked : Checked}

theorem checkVersions_ok {v : Versions} (h : r.checkVersions v status pending amended = .ok checked) :
    ∃ lastChange, checked = .pass status { pending with lastChange } ∧
      (r.skipConstraintCheck = false → ∃ found, checkForNewerVersion r v = .ok found) := by
  unfold Prewrite.checkVersions at h
  dsimp only at h
  split at h
  · cases h
  rename_i prevWrite lastChange hnewer
  split at h
  · cases h
  cases h
  refine ⟨lastChange, rfl, fun hskip => ?_⟩
  rw [if_neg (by rw [hskip]; nofun)] at hnewer
  exact ⟨_, hnewer⟩

theorem check_inv (h : r.check k = .ok checked) :
    ∃ status pending amended, r.lockStatus k = .ok (status, pending, amended) ∧
      ((∃ ts, status = .locked ts ∧ checked = .duplicate ts) ∨
        (r.generation = 0 → ∀ ts, status ≠ .locked ts) ∧ r.checkVersions k.writes status pending amended = .ok checked) := by
  unfold Prewrite.check at h
  split at h
  · cases h
  rename_i status pending amended hstatus
  refine ⟨status, pending, amended, hstatus, ?_⟩
  split at h
  · split at h
    · cases h
      exact .inl ⟨_, rfl, rfl⟩
    rename_i hgen
    exact .inr ⟨fun hzero => absurd hzero hgen, h⟩
  all_goals exact .inr ⟨fun _ _ => nofun, h⟩

/-- **A prewrite that passes its checks**: the lock is no obstacle and, unless skipped, the newer versions are none. -/
theorem check_pass (h : r.check k = .ok (.pass status pending)) :
    FindsLock r k status pending ∧ (r.skipConstraintCheck = false → ∃ found, checkForNewerVersion r k.writes = .ok found) ∧
      (r.generation = 0 → ∀ ts, status ≠ .locked ts) := by
  obtain ⟨status₀, pending₀, amended, hstatus, ⟨_, _, heq⟩ | ⟨hlocked, hversions⟩⟩ := check_inv h
  · cases heq
  · obtain ⟨lastChange, heq, hskip⟩ := checkVersions_ok hversions
    cases heq
    refine ⟨?_, hskip, hlocked⟩
    cases (findsLock hstatus).1 with
    | pessimistic hlock hts htype hpending => exact .pessimistic hlock hts htype hpending
    | locked hlock hts htype hgen hpending => exact .locked hlock hts htype hgen hpending
    | none hlock hamend hpending => exact .none hlock hamend hpending

/-! ## Writing the lock -/

/-- The modifications of a prewrite, the lock it keeps back for a one-phase commit (with whether a pessimistic lock is to
be deleted then), and its result.  `CommitTsTooLarge` is an error that comes with a lock. -/
structure Prewritten where
  modifies : List Modify
  lockForOnePc : Option (Lock × Bool)
  result : Except MvccError Nat

def shortValueMaxLen : Nat := 255

def Prewrite.lockToWrite (r : Prewrite) (lockType : LockType) (status : LockStatus) (p : Pending) : Lock :=
  let forUpdateTs := match status with
    | .pessimistic fromLock => max r.forUpdateTs fromLock
    | .locked _ | .none => r.forUpdateTs
  { Lock.new lockType r.primary r.startTs p.lockTtl
      (r.mutation.value.filter fun v => v.length ≤ shortValueMaxLen) forUpdateTs r.txnSize p.minCommitTs false with
    txnSource := r.txnSource
    generation := r.generation
    lastChange := if r.canEnableLastChange ∧ lockType = .lock then p.lastChange else .unknown
    useAsyncCommit := r.secondaryKeys.isSome
    secondaries := r.secondaryKeys.getD []
    useOnePc := r.secondaryKeys.isNone && r.tryOnePc }

def Prewrite.valueToWrite (r : Prewrite) : List Modify :=
  match r.mutation.value with
  | some v => if v.length ≤ shortValueMaxLen then [] else [.putValue r.startTs v]
  | none => []

def Prewrite.maxCommitTs (r : Prewrite) : Option Nat :=
  match r.commitKind with
  | .twoPc => none
  | .onePc ts | .async ts => some ts

def Prewrite.writeLock (r : Prewrite) (maxTs : Nat) (status : LockStatus) (p : Pending) : Prewritten :=
  match r.mutation.lockType with
  | none => ⟨[], none, .error (.panic "called `Option::unwrap()` on a `None` value")⟩
  | some lockType =>
    let lock := r.lockToWrite lockType status p
    if lock.useAsyncCommit || r.tryOnePc then
      match r.maxCommitTs with
      | none => ⟨[], none, .error (.panic "internal error: entered unreachable code")⟩
      | some maxCommitTs =>
        match asyncCommitTimestamps maxTs r.startTs r.forUpdateTs lock.minCommitTs maxCommitTs with
        | .ok m =>
          let lock := { lock with minCommitTs := m }
          if r.tryOnePc then ⟨r.valueToWrite, some (lock, status.hasPessimisticLock), .ok m⟩
          else ⟨r.valueToWrite ++ [.putLock lock], none, .ok m⟩
        | .error e =>
          let lock := { lock with useOnePc := false, useAsyncCommit := false, secondaries := [] }
          ⟨r.valueToWrite ++ [.putLock lock], none, .error e⟩
    else ⟨r.valueToWrite ++ [.putLock lock], none, .ok 0⟩

/-! ## The action -/

/-- **`prewrite_with_generation`** on one key, with the store's `max_ts` after it. -/
def prewriteWithGeneration (r : Prewrite) (cm : ConcurrencyManager) (out : Outside) (k : KeyState) :
    ConcurrencyManager × Prewritten :=
  if r.isPessimistic && r.mutation.shouldNotWrite then
    (cm, ⟨[], none, .error (.other "cannot handle checkNotExists in pessimistic prewrite")⟩)
  else
    let (cm, updated) := if r.mutation.shouldNotExist then cm.updateMaxTs out r.startTs else (cm, .ok ())
    match updated with
    | .error e => (cm, ⟨[], none, .error e⟩)
    | .ok () =>
      match r.check k with
      | .error e => (cm, ⟨[], none, .error e⟩)
      | .ok (.duplicate ts) => (cm, ⟨[], none, .ok ts⟩)
      | .ok (.pass status pending) =>
        if r.mutation.shouldNotWrite then
          match cm.updateMaxTs out r.startTs with
          | (cm, .error e) => (cm, ⟨[], none, .error e⟩)
          | (cm, .ok ()) => (cm, ⟨[], none, .ok (if r.needMinCommitTs then max r.minCommitTs (r.startTs + 1) else 0)⟩)
        else (cm, r.writeLock cm.maxTs status pending)

def prewrite (r : Prewrite) (cm : ConcurrencyManager) (out : Outside) (k : KeyState) : ConcurrencyManager × Prewritten :=
  prewriteWithGeneration { r with generation := 0 } cm out k

inductive Prewrites (r : Prewrite) (k : KeyState) : ConcurrencyManager × Prewritten → Prop
  | failed {cm : ConcurrencyManager} {e : MvccError} : Prewrites r k (cm, ⟨[], none, .error e⟩)
  | duplicate {cm : ConcurrencyManager} {ts : Nat} (hcheck : r.check k = .ok (.duplicate ts)) :
      Prewrites r k (cm, ⟨[], none, .ok ts⟩)
  | checked {cm : ConcurrencyManager} {status : LockStatus} {pending : Pending} {ts : Nat}
      (hcheck : r.check k = .ok (.pass status pending)) (hpess : r.isPessimistic = false)
      (hwrite : r.mutation.shouldNotWrite = true) : Prewrites r k (cm, ⟨[], none, .ok ts⟩)
  | writes {cm : ConcurrencyManager} {status : LockStatus} {pending : Pending}
      (hcheck : r.check k = .ok (.pass status pending)) : Prewrites r k (cm, r.writeLock cm.maxTs status pending)

theorem prewriteWithGeneration_spec (r : Prewrite) (cm : ConcurrencyManager) (out : Outside) (k : KeyState) :
    cm.maxTs ≤ (prewriteWithGeneration r cm out k).1.maxTs ∧ Prewrites r k (prewriteWithGeneration r cm out k) := by
  unfold prewriteWithGeneration
  split
  · exact ⟨le_rfl, .failed⟩
  rename_i hpess
  have hfirst := cm.le_maxTs_ite out (r.mutation.shouldNotExist = true) r.startTs
  generalize (if r.mutation.shouldNotExist = true then cm.updateMaxTs out r.startTs else (cm, .ok ())) = first at hfirst ⊢
  obtain ⟨cm₁, e | _⟩ := first
  · exact ⟨hfirst, .failed⟩
  dsimp only
  split
  · exact ⟨hfirst, .failed⟩
  · exact ⟨hfirst, .duplicate ‹_›⟩
  rename_i hcheck
  split
  · rename_i hwrite
    have hsecond := cm₁.le_maxTs_updateMaxTs out r.startTs
    split <;> rename_i heq <;> rw [heq] at hsecond
    · exact ⟨hfirst.trans hsecond, .failed⟩
    · exact ⟨hfirst.trans hsecond, .checked hcheck (by simpa [hwrite] using hpess) hwrite⟩
  · exact ⟨hfirst, .writes hcheck⟩

def samplePut (startTs : Nat) : Prewrite where
  key := []
  mutation := .put []
  assertion := .none
  secondaryKeys := none
  pessimisticAction := .skipPessimisticCheck
  expectedForUpdateTs := none
  generation := 0
  startTs := startTs
  kind := .optimistic false
  commitKind := .twoPc
  primary := []
  txnSize := 1
  lockTtl := 0
  minCommitTs := 0
  isRetryRequest := false
  assertionLevel := .off
  txnSource := 0
  canEnableLastChange := false
  nexts := 0

end Mvcc
end Tikv
