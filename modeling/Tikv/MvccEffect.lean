import Tikv.MvccCommand
/-!
# MvccEffect — what a command can do to a key

`Effect` lists what the commands do to the lock and the write records of a key, with what each of them has checked; every
command of `Store.process` has one of these effects (`process_effect`).  The invariants of whole histories are proved from
this list.
-/
namespace Tikv
namespace Mvcc

open Lib KeyState AcquirePessimisticLock Store Chain

/-! ## Reading a command -/

def Command.prewriteOf : Command → Option Prewrite
  | .prewrite r _ => some { r with generation := 0 }
  | .flush q => some q.prewrite
  | _ => none

def Command.commitOf : Command → Option (Nat × Nat)
  | .commit startTs commitTs => some (startTs, commitTs)
  | .resolveLock startTs commitTs _ | .resolveLockLite startTs commitTs =>
    if commitTs = 0 then none else some (startTs, commitTs)
  | _ => none

def Command.rollbackOf : Command → Option Nat
  | .cleanup startTs _ | .rollback startTs | .checkSecondaryLocks startTs => some startTs
  | .resolveLock startTs commitTs _ | .resolveLockLite startTs commitTs => if commitTs = 0 then some startTs else none
  | .checkTxnStatus q => some q.startTs
  | _ => none

/-- The command publishes the start timestamp of the transaction before it rolls it back. -/
def Command.publishesRollback : Command → Bool
  | .cleanup .. | .checkTxnStatus _ | .checkSecondaryLocks _ => true
  | _ => false

def Command.isSecondaryCheck : Command → Bool
  | .checkSecondaryLocks _ => true
  | _ => false

/-! ## The modifications of a rollback -/

def Modify.onLock : Modify → Bool
  | .putLock _ | .unlockKey => true
  | _ => false

def Modify.onWrites : Modify → Bool
  | .putWrite .. | .deleteWrite _ => true
  | _ => false

def Modify.onValues : Modify → Bool
  | .putValue .. | .deleteValue _ => true
  | _ => false

theorem apply_same {α : Type} {f : KeyState → α} {on : Modify → Bool}
    (hf : ∀ k m, on m = false → f (modify k m) = f k) (k : KeyState) :
    ∀ ms : List Modify, (∀ m ∈ ms, on m = false) → f (k.apply ms) = f k
  | [], _ => rfl
  | m :: ms, h => by
    rw [apply_cons, apply_same hf _ ms fun m' hm' => h m' (List.mem_cons_of_mem _ hm')]
    exact hf k m (h m List.mem_cons_self)

theorem lock_modify (k : KeyState) (m : Modify) (hm : m.onLock = false) : (k.modify m).lock = k.lock := by
  cases m <;> first | rfl | cases hm

theorem writes_modify (k : KeyState) (m : Modify) (hm : m.onWrites = false) : (k.modify m).writes = k.writes := by
  cases m <;> first | rfl | cases hm

variable {key : Bytes} {maxTs : Nat} {k k' : KeyState} {c : Command} {startTs : Nat} {lock : Lock} {v v' : Versions}
  {write : Option Write} {ms : List Modify} {protect : Bool} {overlapped : Option OverlappedWrite}

theorem lock_apply (h : ∀ m ∈ ms, m.onLock = false) : (k.apply ms).lock = k.lock :=
  apply_same lock_modify _ _ h

theorem writes_apply (h : ∀ m ∈ ms, m.onWrites = false) :
    (k.apply ms).writes = k.writes := apply_same writes_modify _ _ h

theorem values_apply (h : ∀ m ∈ ms, m.onValues = false) : (k.apply ms).values = k.values :=
  apply_same (fun k m hm => by cases m <;> first | rfl | cases hm) _ _ h

theorem on_putRollback : ∀ m ∈ putRollback startTs write, m.onLock = false ∧ m.onValues = false := by
  intro m hm
  cases write with
  | none => cases hm
  | some w => cases List.mem_singleton.1 hm; exact ⟨rfl, rfl⟩

theorem on_collapse (collapse : Bool) : ∀ m ∈ if collapse then collapsePrevRollback v startTs else [],
    m.onLock = false ∧ m.onValues = false := by
  intro m hm
  cases collapse with
  | false => cases hm
  | true =>
    unfold collapsePrevRollback at hm
    simp only [if_true] at hm
    split at hm
    · split at hm
      · cases List.mem_singleton.1 hm; exact ⟨rfl, rfl⟩
      · cases hm
    · cases hm

theorem onWrites_mark {lock : Option Lock} : ∀ m ∈ markMismatchLock startTs lock protect, m.onWrites = false := by
  intro m hm
  unfold markMismatchLock at hm
  split at hm
  · unfold markRollbackOnMismatchingLock at hm
    split at hm
    · cases hm
    · cases List.mem_singleton.1 hm; rfl
  · cases hm

theorem startTs_ne_of_le (hrec : getTxnCommitRecord v startTs = .none overlapped) :
    ∀ e ∈ v.entries, startTs ≤ e.1 → e.2.startTs ≠ startTs := by
  have hfinds := findsRecord v startTs
  rw [hrec] at hfinds
  cases hfinds with
  | overlapped _ _ _ hnone | none _ hnone => exact hnone

theorem overlapped_inv {ov : OverlappedWrite} (hrec : getTxnCommitRecord v startTs = .none (some ov)) :
    (startTs, ov.write) ∈ v.entries ∧ ov.write.startTs ≠ startTs ∧ ov.write.hasOverlappedRollback = false ∧
      (ov.gcFence = 0 ∨ startTs < ov.gcFence ∧ ∃ w, (ov.gcFence, w) ∈ v.entries ∧ w.isData = true) := by
  have hfinds := findsRecord v startTs
  rw [hrec] at hfinds
  cases hfinds with
  | overlapped hmem hstart hflag _ hfence _ => exact ⟨hmem, hstart, hflag, hfence⟩

theorem single_inv {commitTs : Nat} {w : Write} (hrec : getTxnCommitRecord v startTs = .singleRecord commitTs w) :
    (commitTs, w) ∈ v.entries ∧ w.startTs = startTs := by
  have hfinds := findsRecord v startTs
  rw [hrec] at hfinds
  cases hfinds with
  | single hmem hstart => exact ⟨hmem, hstart⟩

/-- Rollback records stand at the start timestamp of their transaction. -/
def RollbacksAtStart (v : Versions) : Prop := ∀ e ∈ v.entries, e.2.writeType = .rollback → e.2.startTs = e.1

/-- `v'` is `v` with the record `write` of a rollback at `startTs`, less at most an older unprotected rollback. -/
structure RollsBack (v v' : Versions) (startTs : Nat) (write : Option Write) : Prop where
  sub : ∀ e ∈ v'.entries, (e ∈ v.entries ∧ (e.1 = startTs → write = none)) ∨ (e.1 = startTs ∧ write = some e.2)
  keep : ∀ e ∈ v.entries, e.1 ≠ startTs ∨ write = none →
    e ∈ v'.entries ∨ (e.2.writeType = .rollback ∧ e.2.isProtected = false ∧ e.1 < startTs)
  new : ∀ w, write = some w → (startTs, w) ∈ v'.entries

theorem rollsBack_put : RollsBack k.writes (k.apply (putRollback startTs write)).writes startTs write := by
  cases write with
  | none => exact ⟨fun e he => .inl ⟨he, fun _ => rfl⟩, fun e he _ => .inl he, nofun⟩
  | some w =>
    refine ⟨fun e he => ?_, fun e he hne => .inl ?_, fun w' hw' => ?_⟩
    · rcases mem_insert.1 he with rfl | ⟨he, hne⟩
      · exact .inr ⟨rfl, rfl⟩
      · exact .inl ⟨he, fun h => absurd h hne⟩
    · rcases hne with hne | hne
      · exact mem_insert.2 (.inr ⟨he, hne⟩)
      · cases hne
    · cases hw'
      exact mem_insert.2 (.inl rfl)

theorem collapse_eq (hv : RollbacksAtStart v) (hrec : getTxnCommitRecord v startTs = .none overlapped) :
    collapsePrevRollback v startTs = [] ∨ ∃ e ∈ v.entries, collapsePrevRollback v startTs = [.deleteWrite e.1] ∧
      e.2.writeType = .rollback ∧ e.2.isProtected = false ∧ e.1 < startTs := by
  unfold collapsePrevRollback
  split
  · rename_i commitTs write hseek
    obtain ⟨hmem, hle, _⟩ := seek_eq_some.1 hseek
    split
    · rename_i hroll
      refine .inr ⟨(commitTs, write), hmem, rfl, hroll.1, hroll.2, ?_⟩
      have hstart := hv _ hmem hroll.1
      rcases lt_or_ge commitTs startTs with hlt | hge
      · exact hlt
      · exact absurd (hstart.trans (le_antisymm hle hge)) (startTs_ne_of_le hrec _ hmem hge)
    · exact .inl rfl
  · exact .inl rfl

section

variable {e : Nat × Write} (hv : e ∈ v.entries) (hroll : e.2.writeType = .rollback) (hprot : e.2.isProtected = false)
  (hlt : e.1 < startTs)

include hv hroll hprot hlt

theorem ne_or_dead {e' : Nat × Write} (he' : e' ∈ v.entries) :
    e'.1 ≠ e.1 ∨ e'.2.writeType = .rollback ∧ e'.2.isProtected = false ∧ e'.1 < startTs := by
  by_cases heq : e'.1 = e.1
  · obtain ⟨t, w⟩ := e
    subst heq
    rw [eq_of_mem he' hv]
    exact .inr ⟨hroll, hprot, hlt⟩
  · exact .inl heq

theorem RollsBack.erase (h : RollsBack v v' startTs write) : RollsBack v (v'.erase e.1) startTs write where
  sub e' he' := h.sub e' (mem_erase.1 he').1
  keep e' he' hne := by
    rcases h.keep e' he' hne with hmem | hdead
    · exact (ne_or_dead hv hroll hprot hlt he').imp_left fun hne => mem_erase.2 ⟨hmem, hne⟩
    · exact .inr hdead
  new w hw := mem_erase.2 ⟨h.new w hw, ne_of_gt hlt⟩

theorem RollsBack.of_erase (h : RollsBack (v.erase e.1) v' startTs write) : RollsBack v v' startTs write where
  sub e' he' := by
    rcases h.sub e' he' with ⟨hmem, hw⟩ | hnew
    · exact .inl ⟨(mem_erase.1 hmem).1, hw⟩
    · exact .inr hnew
  keep e' he' hne := by
    rcases ne_or_dead hv hroll hprot hlt he' with hne' | hdead
    · exact h.keep e' (mem_erase.2 ⟨he', hne'⟩) hne
    · exact .inr hdead
  new := h.new

end

section

variable (hv : RollbacksAtStart k.writes)
include hv

section

variable (hrec : getTxnCommitRecord k.writes startTs = .none overlapped)
include hrec

theorem rollsBack_put_collapse :
    RollsBack k.writes ((k.apply (putRollback startTs write)).apply (collapsePrevRollback k.writes startTs)).writes
      startTs write := by
  have h : RollsBack k.writes _ startTs write := rollsBack_put
  rcases collapse_eq hv hrec with heq | ⟨e, he, heq, hroll, hprot, hlt⟩ <;> rw [heq]
  · exact h
  exact h.erase he hroll hprot hlt

theorem rollsBack_collapse_put :
    RollsBack k.writes ((k.apply (collapsePrevRollback k.writes startTs)).apply (putRollback startTs write)).writes
      startTs write := by
  rcases collapse_eq hv hrec with heq | ⟨e, he, heq, hroll, hprot, hlt⟩ <;> rw [heq]
  · exact rollsBack_put
  exact .of_erase he hroll hprot hlt (rollsBack_put (k := k.apply [.deleteWrite e.1]))

end

/-! ## Effects -/

/-- The lock after a rollback of `startTs`: a lock of its own is gone, one that could overwrite a protected rollback knows
of it unless the rollback is marked in a commit record. -/
inductive AfterRollback (c : Command) (startTs : Nat) (protect : Bool) (overlapped : Option OverlappedWrite) :
    Option Lock → Option Lock → Prop
  | own {lock : Lock} (hts : lock.ts = startTs) : AfterRollback c startTs protect overlapped (some lock) none
  | other {lock : Option Lock} (hts : ∀ l, lock = some l → l.ts ≠ startTs)
      (hsafe : ∀ l, lock = some l → protect = true → l.useAsyncCommit = true → startTs < l.minCommitTs) :
      AfterRollback c startTs protect overlapped lock lock
  | overlapped {lock : Option Lock} (hts : ∀ l, lock = some l → l.ts ≠ startTs) (hsome : overlapped.isSome = true)
      (hc : c.isSecondaryCheck = false) : AfterRollback c startTs protect overlapped lock lock
  | mark {lock : Lock} (hts : lock.ts ≠ startTs) (hprotect : protect = true) :
      AfterRollback c startTs protect overlapped (some lock)
        (some { lock with rollbackTs := lock.rollbackTs ++ [startTs] })

structure NewLock (r : Prewrite) (maxTs : Nat) (pending : Pending) (new : Lock) : Prop where
  ts : new.ts = r.startTs
  notPessimistic : new.isPessimisticLock = false
  rollbackTs : new.rollbackTs = []
  async : new.useAsyncCommit = true → maxTs < new.minCommitTs ∧ r.startTs < new.minCommitTs
  ttl : new.ttl = pending.lockTtl
  minCommitTs : pending.minCommitTs ≤ new.minCommitTs

/-- **What a command can do to a key.** -/
inductive Effect (key : Bytes) (maxTs : Nat) (k : KeyState) (c : Command) (k' : KeyState) : Prop
  | same (hlock : k'.lock = k.lock) (hwrites : k'.writes = k.writes)
  | raise {old : Lock} {ttl minCommitTs : Nat} (hold : k.lock = some old) (httl : old.ttl ≤ ttl)
      (hmin : old.minCommitTs ≤ minCommitTs) (hlock : k'.lock = some { old with ttl, minCommitTs })
      (hwrites : k'.writes = k.writes)
  | acquire {q : AcquirePessimisticLock} {forUpdateTs : Nat} {lastChange : LastChange} {conflict : Bool}
      (hc : c = .acquirePessimisticLock q)
      (hold : ∀ old, k.lock = some old →
        old.ts = q.startTs ∧ old.isPessimisticLock = true ∧ old.forUpdateTs < q.forUpdateTs)
      (hlock : k'.lock = some (q.pessimisticLock forUpdateTs lastChange conflict)) (hwrites : k'.writes = k.writes)
  | lock {r : Prewrite} {status : LockStatus} {pending : Pending} {new : Lock} (hc : c.prewriteOf = some r)
      (hcheck : r.check k = .ok (.pass status pending)) (hnew : NewLock r maxTs pending new)
      (hlock : k'.lock = some new) (hwrites : k'.writes = k.writes)
  | onePc {r : Prewrite} {status : LockStatus} {pending : Pending} {commitTs : Nat} {new : Lock} {writeType : WriteType}
      (hc : c.prewriteOf = some r) (hgen : r.generation = 0) (hcheck : r.check k = .ok (.pass status pending))
      (hnew : NewLock r maxTs pending new) (hmax : maxTs < commitTs) (hmin : new.minCommitTs ≤ commitTs)
      (hstart : r.startTs < commitTs)
      (htype : WriteType.fromLockType new.lockType = some writeType) (hlock : k'.lock = none)
      (hwrites : k'.writes = k.writes.insert commitTs (new.onePcRecord writeType))
  | commit {startTs commitTs : Nat} {lock : Lock} {writeType : WriteType} (hc : c.commitOf = some (startTs, commitTs))
      (hold : k.lock = some lock) (hts : lock.ts = startTs) (hmin : lock.minCommitTs ≤ commitTs)
      (htype : WriteType.fromLockType lock.lockType = some writeType) (hlock : k'.lock = none)
      (hwrites : k'.writes = k.writes.insert commitTs (lock.commitRecord writeType commitTs))
  | unlock (hlock : k'.lock = none) (hwrites : k'.writes = k.writes)
  | rollback {startTs : Nat} {protect : Bool} {overlapped : Option OverlappedWrite} {write : Option Write}
      (hc : c.rollbackOf = some startTs) (hrec : getTxnCommitRecord k.writes startTs = .none overlapped)
      (hmake : makeRollback startTs protect overlapped = .ok write)
      (hprotect : protect = true → c.publishesRollback = true ∨
        ∃ lock, k.lock = some lock ∧ lock.ts = startTs ∧ (key = lock.primary ∨ 0 < lock.generation))
      (hlock : AfterRollback c startTs protect overlapped k.lock k'.lock)
      (hwrites : RollsBack k.writes k'.writes startTs write)

def TxnCommitRecord.isRollback : TxnCommitRecord → Bool
  | .none _ => false
  | .singleRecord _ write => write.writeType = .rollback
  | .overlappedRollback _ => true

/-- **What a command does to the key that rolls the transaction `startTs` back**, or finds it rolled back. -/
inductive RolledBack (key : Bytes) (k : KeyState) (c : Command) (startTs : Nat) (k' : KeyState) : Prop
  | already (hrec : (getTxnCommitRecord k.writes startTs).isRollback = true)
      (hts : ∀ lock, k.lock = some lock → lock.ts ≠ startTs) (hsame : k' = k)
  | unlock {lock : Lock} (hold : k.lock = some lock) (hts : lock.ts = startTs)
      (hrec : (getTxnCommitRecord k.writes startTs).isRollback = true) (hlock : k'.lock = none)
      (hwrites : k'.writes = k.writes)
  | now {protect : Bool} {overlapped : Option OverlappedWrite} {write : Option Write}
      (hrec : getTxnCommitRecord k.writes startTs = .none overlapped)
      (hmake : makeRollback startTs protect overlapped = .ok write)
      (hprotect : protect = true → c.publishesRollback = true ∨
        ∃ lock, k.lock = some lock ∧ lock.ts = startTs ∧ (key = lock.primary ∨ 0 < lock.generation))
      (hlock : AfterRollback c startTs protect overlapped k.lock k'.lock)
      (hwrites : RollsBack k.writes k'.writes startTs write)

inductive Quiet (k k' : KeyState) : Prop
  | same (hlock : k'.lock = k.lock) (hwrites : k'.writes = k.writes)
  | raise {old : Lock} {minCommitTs : Nat} (hold : k.lock = some old) (hmin : old.minCommitTs ≤ minCommitTs)
      (hlock : k'.lock = some { old with minCommitTs }) (hwrites : k'.writes = k.writes)
  | unlock (hlock : k'.lock = none) (hwrites : k'.writes = k.writes)

omit hv in
theorem RolledBack.effect (hc : c.rollbackOf = some startTs) (h : RolledBack key k c startTs k') :
    Effect key maxTs k c k' := by
  cases h with
  | already _ _ hsame => exact hsame ▸ .same rfl rfl
  | unlock _ _ _ hlock hwrites => exact .unlock hlock hwrites
  | now hrec hmake hprotect hlock hwrites => exact .rollback hc hrec hmake hprotect hlock hwrites

omit hv in
theorem Quiet.effect (h : Quiet k k') : Effect key maxTs k c k' := by
  cases h with
  | same hlock hwrites => exact .same hlock hwrites
  | raise hold hmin hlock hwrites => exact .raise hold le_rfl hmin hlock hwrites
  | unlock hlock hwrites => exact .unlock hlock hwrites

abbrev Decides (key : Bytes) (k : KeyState) (c : Command) (startTs : Nat) (rolledBack : Bool) (k' : KeyState) : Prop :=
  (rolledBack = true → RolledBack key k c startTs k') ∧ (rolledBack = false → Quiet k k')

/-! ## Rollback, commit, heartbeat -/

variable {collapse : Bool}

theorem rollbackLock_inv (h : rollbackLock key k.writes lock collapse = .ok ms) :
    (k.apply ms).lock = none ∧
    (((getTxnCommitRecord k.writes lock.ts).isRollback = true ∧ (k.apply ms).writes = k.writes ∧
        (k.apply ms).values = k.values) ∨
      ∃ protect overlapped write, getTxnCommitRecord k.writes lock.ts = .none overlapped ∧
        makeRollback lock.ts protect overlapped = .ok write ∧
        (protect = true → key = lock.primary ∨ 0 < lock.generation) ∧
        RollsBack k.writes (k.apply ms).writes lock.ts write ∧
        ∀ s, s ≠ lock.ts → (k.apply ms).values.lookup s = k.values.lookup s) := by
  unfold rollbackLock at h
  split at h
  · rename_i overlapped hrec
    dsimp only at h
    split at h
    · cases h
    rename_i write hmake
    cases h
    generalize hdel : (if lock.shortValue = none ∧ lock.lockType = .put then [Modify.deleteValue lock.ts] else []) = del
    have hdel' : (k.apply del).writes = k.writes ∧
        ∀ s, s ≠ lock.ts → (k.apply del).values.lookup s = k.values.lookup s := by
      rw [← hdel]
      split
      · exact ⟨rfl, fun s hs => Map.lookup_erase.trans (if_neg hs)⟩
      · exact ⟨rfl, fun _ _ => rfl⟩
    obtain ⟨hwrites, hvalues⟩ := hdel'
    rw [apply_append, apply_append, apply_append]
    refine ⟨rfl, .inr ⟨_, overlapped, write, hrec, hmake, fun hp => by simpa using hp, ?_, fun s hs => ?_⟩⟩
    · rw [← hwrites] at hv hrec ⊢
      cases collapse with
      | false => exact rollsBack_put (k := k.apply del)
      | true => exact rollsBack_put_collapse hv hrec
    · show (((k.apply del).apply _).apply _).values.lookup s = _
      rw [values_apply fun m hm => (on_collapse _ m hm).2, values_apply fun m hm => (on_putRollback m hm).2]
      exact hvalues s hs
  · rename_i hrec
    split at h
    · rename_i htype
      cases h
      exact ⟨rfl, .inl ⟨by rw [hrec]; exact decide_eq_true htype, rfl, rfl⟩⟩
    · cases h
  · rename_i hrec
    cases h
    exact ⟨rfl, .inl ⟨by rw [hrec]; rfl, rfl, rfl⟩⟩

theorem rollbackLock_rolledBack (hold : k.lock = some lock)
    (h : rollbackLock key k.writes lock collapse = .ok ms) : RolledBack key k c lock.ts (k.apply ms) := by
  obtain ⟨hlock, ⟨hrec, hwrites, -⟩ | ⟨protect, overlapped, write, hrec, hmake, hprotect, hroll, -⟩⟩ :=
    rollbackLock_inv hv h
  · exact .unlock hold rfl hrec hlock hwrites
  · refine .now hrec hmake (fun hp => .inr ⟨lock, hold, rfl, hprotect hp⟩) ?_ hroll
    rw [hlock, hold]
    exact .own rfl

end

/-- The lock that another transaction left is told of the rollback, if it is protected and the lock could overwrite it. -/
theorem afterRollback_mark (hts : ∀ l, k.lock = some l → l.ts ≠ startTs) :
    AfterRollback c startTs protect overlapped k.lock (k.apply (markMismatchLock startTs k.lock protect)).lock := by
  cases hlock : k.lock with
  | none =>
    dsimp only [markMismatchLock]
    rw [apply_nil, hlock]
    exact .other nofun nofun
  | some lock =>
    have hne := hts lock hlock
    dsimp only [markMismatchLock, markRollbackOnMismatchingLock]
    split
    · rename_i hno
      rw [apply_nil, hlock]
      refine .other (fun l hl => by cases hl; exact hne) fun l hl hp ha => ?_
      cases hl
      rcases hno with h | h | h
      · rw [hp] at h; cases h
      · exact h
      · rw [ha] at h; cases h
    · rename_i hyes
      refine .mark hne ?_
      cases protect with
      | false => exact absurd (.inl rfl) hyes
      | true => rfl

def TxnStatus.isRolledBack : TxnStatus → Bool
  | .rolledBack | .ttlExpire | .lockNotExist => true
  | .pessimisticRollBack | .lockNotExistDoNothing | .committed _ | .uncommitted .. => false

variable {mismatch : Option Lock} {action : MissingLockAction} {resolving : Bool} {status : TxnStatus}

theorem missingLock_inv (h : checkTxnStatusMissingLock v startTs mismatch action resolving = .ok (ms, status)) :
    (ms = [] ∧ status.isRolledBack = (getTxnCommitRecord v startTs).isRollback ∧
      (status.isRolledBack = true ∨ (∃ commitTs, status = .committed commitTs) ∨
        resolving = true ∧ status = .lockNotExistDoNothing)) ∨
    ∃ overlapped write, getTxnCommitRecord v startTs = .none overlapped ∧
      makeRollback startTs action.protects overlapped = .ok write ∧
      ms = (if action.protects then [] else collapsePrevRollback v startTs) ++
        (if overlapped.isSome then [] else markMismatchLock startTs mismatch action.protects) ++
        putRollback startTs write ∧ status = .lockNotExist := by
  unfold checkTxnStatusMissingLock at h
  split at h
  · rename_i commitTs write hrec
    cases h
    rw [hrec]
    by_cases htype : write.writeType = .rollback <;> simp [htype, TxnStatus.isRolledBack, TxnCommitRecord.isRollback]
  · rename_i hrec
    cases h
    exact .inl ⟨rfl, by rw [hrec]; rfl, .inl rfl⟩
  · rename_i overlapped hrec
    split at h
    · cases h
    split at h
    · rename_i hres
      cases h
      exact .inl ⟨rfl, by rw [hrec]; rfl, .inr (.inr ⟨hres, rfl⟩)⟩
    · split at h
      · cases h
      rename_i write hmake
      cases h
      exact .inr ⟨overlapped, write, hrec, hmake, rfl, rfl⟩

section

variable (hv : RollbacksAtStart k.writes)
include hv

theorem rollsBack_missingLock (hrec : getTxnCommitRecord k.writes startTs = .none overlapped) {mark : List Modify}
    (hmark : ∀ m ∈ mark, m.onWrites = false) :
    RollsBack k.writes (((k.apply (if protect then [] else collapsePrevRollback k.writes startTs)).apply mark).apply
      (putRollback startTs write)).writes startTs write := by
  generalize hk₁ : k.apply (if protect = true then [] else collapsePrevRollback k.writes startTs) = k₁
  have hwrites := writes_apply (k := k₁) hmark
  have hput : ((k₁.apply mark).apply (putRollback startTs write)).writes =
      (k₁.apply (putRollback startTs write)).writes := by
    cases write with
    | none => exact hwrites
    | some w =>
      show (k₁.apply mark).writes.insert startTs w = k₁.writes.insert startTs w
      rw [hwrites]
  rw [hput, ← hk₁]
  split
  · exact rollsBack_put
  · exact rollsBack_collapse_put hv hrec

theorem missingLock_cases (hsec : c.isSecondaryCheck = false)
    (hprotect : action.protects = true → c.publishesRollback = true)
    (hts : ∀ l, k.lock = some l → l.ts ≠ startTs)
    (h : checkTxnStatusMissingLock k.writes startTs k.lock action resolving = .ok (ms, status)) :
    Decides key k c startTs status.isRolledBack (k.apply ms) := by
  rcases missingLock_inv h with ⟨rfl, hstatus, _⟩ | ⟨overlapped, write, hrec, hmake, rfl, rfl⟩
  · exact ⟨fun hs => .already (hstatus ▸ hs) hts rfl, fun _ => .same rfl rfl⟩
  refine ⟨fun _ => ?_, nofun⟩
  rw [apply_append, apply_append]
  refine .now hrec hmake (fun hp => .inl (hprotect hp)) ?_ (rollsBack_missingLock hv hrec ?_)
  · rw [lock_apply fun m hm => (on_putRollback m hm).1]
    have hlock₁ : (k.apply (if action.protects then [] else collapsePrevRollback k.writes startTs)).lock = k.lock := by
      split
      · rfl
      · exact lock_apply fun m hm => (on_collapse true m hm).1
    generalize k.apply (if action.protects then [] else collapsePrevRollback k.writes startTs) = k₁ at hlock₁ ⊢
    rw [← hlock₁] at hts ⊢
    split
    · rename_i hsome
      exact .overlapped hts hsome hsec
    · exact afterRollback_mark hts
  · split
    · nofun
    · exact onWrites_mark

theorem missingLock_unlock_cases (hprotect : c.publishesRollback = true) (hold : k.lock = some lock)
    (h : checkTxnStatusMissingLock k.writes lock.ts none action resolving = .ok (ms, status)) :
    Decides key k c lock.ts status.isRolledBack (k.apply (ms ++ [.unlockKey])) := by
  rw [apply_append]
  rcases missingLock_inv h with ⟨rfl, hstatus, _⟩ | ⟨overlapped, write, hrec, hmake, rfl, rfl⟩
  · exact ⟨fun hs => .unlock hold rfl (hstatus ▸ hs) rfl rfl, fun _ => .unlock rfl rfl⟩
  refine ⟨fun _ => .now hrec hmake (fun _ => .inl hprotect) ?_ ?_, nofun⟩
  · rw [hold]
    exact .own rfl
  · rw [apply_append, apply_append]
    refine rollsBack_missingLock hv hrec ?_
    split <;> nofun

theorem cleanup_rolledBack {currentTs : Nat} (protect : Bool) (hsec : c.isSecondaryCheck = false)
    (hprotect : protect = true → c.publishesRollback = true)
    (h : cleanup key k startTs currentTs protect = .ok ms) : RolledBack key k c startTs (k.apply ms) := by
  unfold cleanup at h
  split at h
  · rename_i lock hown
    obtain ⟨hold, hts⟩ := ownLock_eq_some.1 hown
    split at h
    · cases h
    · exact hts ▸ rollbackLock_rolledBack hv hold h
  · rename_i hown
    split at h
    · cases h
    · cases h
    rename_i ms' status hcommitted heq
    cases h
    have hrolled : status.isRolledBack = true := by
      rcases missingLock_inv heq with ⟨_, _, hs | ⟨commitTs, rfl⟩ | ⟨hres, _⟩⟩ | ⟨_, _, _, _, _, rfl⟩
      · exact hs
      · exact absurd rfl (hcommitted commitTs)
      · cases hres
      · rfl
    refine (missingLock_cases hv hsec (fun hp => hprotect ?_) (ownLock_eq_none.1 hown) heq).1 hrolled
    cases protect with
    | true => rfl
    | false => cases hp

omit hv in
theorem pushMinCommitTs_quiet (q : CheckTxnStatus) (hold : k.lock = some lock) :
    (q.pushMinCommitTs lock).2.isRolledBack = false ∧ Quiet k (k.apply (q.pushMinCommitTs lock).1) := by
  refine ⟨rfl, ?_⟩
  dsimp only [CheckTxnStatus.pushMinCommitTs]
  split
  · have hmin : lock.minCommitTs ≤ max (q.callerStartTs + 1) q.currentTs := by omega
    exact .raise hold hmin rfl rfl
  · exact .same rfl rfl

omit hv in
theorem isRolledBack_status {record : TxnCommitRecord} (h : record.status = some status) :
    status.isRolledBack = record.isRollback := by
  cases record with
  | none overlapped => cases h
  | singleRecord commitTs write =>
    cases h
    by_cases htype : write.writeType = .rollback <;> simp [htype, TxnStatus.isRolledBack, TxnCommitRecord.isRollback]
  | overlappedRollback commitTs =>
    cases h
    rfl

variable {q : CheckTxnStatus}

theorem fromPessimisticPrimaryLock_cases (hold : k.lock = some lock)
    (hts : lock.ts = q.startTs) (h : q.fromPessimisticPrimaryLock key k.writes lock = .ok (some (ms, status))) :
    Decides key k c q.startTs status.isRolledBack (k.apply ms) := by
  unfold CheckTxnStatus.fromPessimisticPrimaryLock at h
  split at h
  · rename_i status' hstatus
    cases h
    split at hstatus
    · have heq := isRolledBack_status hstatus
      exact ⟨fun hs => .unlock hold hts (heq ▸ hs) rfl rfl, fun _ => .unlock rfl rfl⟩
    · cases hstatus
  · split at h
    · split at h
      · cases h
        exact ⟨nofun, fun _ => .unlock rfl rfl⟩
      obtain ⟨ms', hr, heq⟩ := map_ok h
      cases heq
      exact ⟨fun _ => hts ▸ rollbackLock_rolledBack hv hold hr, nofun⟩
    · cases h

theorem checkTxnStatus_cases (h : q.run key k = .ok (ms, status)) :
    Decides key k (.checkTxnStatus q) q.startTs status.isRolledBack (k.apply ms) := by
  unfold CheckTxnStatus.run at h
  split at h
  · rename_i lock hown
    obtain ⟨hold, hts⟩ := ownLock_eq_some.1 hown
    have hpush : ∀ {res : List Modify × TxnStatus}, q.pushMinCommitTs lock = res →
        Decides key k (.checkTxnStatus q) q.startTs res.2.isRolledBack (k.apply res.1) := by
      rintro res rfl
      obtain ⟨hno, hquiet⟩ := pushMinCommitTs_quiet q hold
      exact ⟨fun hs => absurd (hno.symm.trans hs) nofun, fun _ => hquiet⟩
    unfold CheckTxnStatus.lockExists at h
    split at h
    · split at h
      · split at h
        · cases h
        rename_i ms' status' heq
        cases h
        rw [← hts] at heq ⊢
        exact missingLock_unlock_cases hv rfl hold heq
      · cases h
    · split at h
      · cases h
        exact ⟨nofun, fun _ => .same rfl rfl⟩
      split at h
      · split at h
        · cases h
        · rename_i res heq
          cases h
          exact fromPessimisticPrimaryLock_cases hv hold hts heq
        · exact hpush (Except.ok.inj h)
      · split at h
        · obtain ⟨ms', hr, heq⟩ := map_ok h
          cases heq
          exact ⟨fun _ => hts ▸ rollbackLock_rolledBack hv hold hr, nofun⟩
        · exact hpush (Except.ok.inj h)
  · rename_i hown
    exact missingLock_cases hv rfl (fun _ => rfl) (ownLock_eq_none.1 hown) h

variable {commitTs : Nat}

omit hv in
theorem commit_effect {released : Bool} (hc : c.commitOf = some (startTs, commitTs))
    (h : commit k startTs commitTs = .ok (ms, released)) : Effect key maxTs k c (k.apply ms) := by
  unfold commit at h
  split at h
  · rename_i lock hown
    obtain ⟨hold, hts⟩ := ownLock_eq_some.1 hown
    split at h
    · cases h
    rename_i hmin
    split at h
    · cases h
      exact .unlock rfl rfl
    rename_i writeType htype
    cases h
    exact .commit hc hold hts (not_lt.1 hmin) htype rfl rfl
  · split at h
    · cases h
    · cases h
    all_goals
      cases h
      exact .same rfl rfl

theorem resolve_effect (hc : c.commitOf = if commitTs = 0 then none else some (startTs, commitTs))
    (hr : c.rollbackOf = if commitTs = 0 then some startTs else none) (hsec : c.isSecondaryCheck = false)
    (h : resolve key k startTs commitTs = .ok ms) : Effect key maxTs k c (k.apply ms) := by
  unfold resolve at h
  split at h
  · rename_i hzero
    rw [if_pos hzero] at hr
    exact (cleanup_rolledBack hv false hsec nofun h).effect hr
  · rename_i hzero
    rw [if_neg hzero] at hc
    obtain ⟨res, hcom, rfl⟩ := map_ok h
    exact commit_effect hc hcom

theorem resolveFound_effect {pessimistic : Bool} (h : resolveFound key k startTs commitTs pessimistic = .ok ms) :
    Effect key maxTs k (.resolveLock startTs commitTs pessimistic) (k.apply ms) := by
  unfold resolveFound at h
  split at h
  · cases h
  split at h
  · split at h
    · cases h
      exact .same rfl rfl
    · cases h
  · exact resolve_effect hv rfl rfl rfl h

theorem rollbackSecondary_rollsBack (hrec : getTxnCommitRecord k.writes startTs = .none overlapped)
    (h : rollbackSecondary k.writes startTs mismatch overlapped = .ok ms) :
    ∃ write, makeRollback startTs true overlapped = .ok write ∧ RollsBack k.writes (k.apply ms).writes startTs write ∧
      (k.apply ms).lock = (k.apply (markMismatchLock startTs mismatch true)).lock := by
  unfold rollbackSecondary at h
  split at h
  · cases h
  rename_i write hmake
  cases h
  refine ⟨write, hmake, ?_, ?_⟩
  · have hwrites : (k.apply (markMismatchLock startTs mismatch true)).writes = k.writes :=
      writes_apply onWrites_mark
    rw [apply_append, apply_append]
    rw [← hwrites] at hv hrec ⊢
    split
    · exact rollsBack_put_collapse hv hrec
    · exact rollsBack_put
  · rw [apply_append, apply_append]
    rw [lock_apply fun m hm => (on_collapse _ m hm).1, lock_apply fun m hm => (on_putRollback m hm).1]

end

theorem txnHeartBeat_effect {adviseTtl minCommitTs : Nat}
    (h : txnHeartBeat k startTs adviseTtl minCommitTs = .ok (ms, status)) :
    Effect key maxTs k c (k.apply ms) := by
  unfold txnHeartBeat at h
  split at h
  · rename_i lock hown
    obtain ⟨hold, _⟩ := ownLock_eq_some.1 hown
    cases h
    split
    · exact .same rfl rfl
    · exact .raise hold (by split <;> omega) (by split <;> omega) rfl rfl
  · cases h

def SecondaryLockStatus.isRolledBack : SecondaryLockStatus → Bool
  | .rolledBack => true
  | .locked _ | .committed _ => false

variable {status : SecondaryLockStatus}

theorem secondaryStatus_some (h : secondaryStatus v startTs = (status, some overlapped)) :
    getTxnCommitRecord v startTs = .none overlapped ∧ status.isRolledBack = true := by
  unfold secondaryStatus at h
  split at h
  · cases h
  · cases h
  rename_i heq
  cases h
  exact ⟨heq, rfl⟩

theorem secondaryStatus_none (h : secondaryStatus v startTs = (status, none)) :
    status.isRolledBack = (getTxnCommitRecord v startTs).isRollback := by
  unfold secondaryStatus at h
  split at h
  · rename_i commitTs write hrec
    cases h
    rw [hrec]
    by_cases htype : write.writeType = .rollback <;>
      simp [htype, SecondaryLockStatus.isRolledBack, TxnCommitRecord.isRollback]
  · rename_i hrec
    cases h
    rw [hrec]
    rfl
  · cases h

theorem checkSecondaryLock_cases (hv : RollbacksAtStart k.writes) (h : checkSecondaryLock k startTs = .ok (ms, status)) :
    Decides key k (.checkSecondaryLocks startTs) startTs status.isRolledBack (k.apply ms) := by
  unfold checkSecondaryLock at h
  split at h
  · rename_i lock hown
    obtain ⟨hold, hts⟩ := ownLock_eq_some.1 hown
    split at h
    · split at h
      · rename_i overlapped hsome
        obtain ⟨hrec, _⟩ := secondaryStatus_some hsome
        obtain ⟨ms', hr, heq⟩ := map_ok h
        cases heq
        refine ⟨fun _ => ?_, nofun⟩
        -- the own pessimistic lock is removed first
        obtain ⟨write, hmake, hroll, hlock⟩ := rollbackSecondary_rollsBack (k := k.modify .unlockKey) hv hrec hr
        refine .now hrec hmake (fun _ => .inl rfl) ?_ hroll
        rw [apply_cons, hlock, hold]
        exact .own hts
      · rename_i status' hnone
        split at h
        · cases h
          have heq := secondaryStatus_none hnone
          exact ⟨fun hs => .unlock hold hts (heq ▸ hs) rfl rfl, fun _ => .unlock rfl rfl⟩
        · cases h
    · cases h
      exact ⟨nofun, fun _ => .same rfl rfl⟩
  · rename_i hown
    split at h
    · rename_i status' overlapped hsome
      obtain ⟨hrec, hstatus⟩ := secondaryStatus_some hsome
      obtain ⟨ms', hr, heq⟩ := map_ok h
      cases heq
      refine ⟨fun _ => ?_, fun hs => absurd (hstatus.symm.trans hs) nofun⟩
      obtain ⟨write, hmake, hroll, hlock⟩ := rollbackSecondary_rollsBack hv hrec hr
      refine .now hrec hmake (fun _ => .inl rfl) ?_ hroll
      rw [hlock]
      exact afterRollback_mark (ownLock_eq_none.1 hown)
    · rename_i status' hnone
      cases h
      have heq := secondaryStatus_none hnone
      exact ⟨fun hs => .already (heq ▸ hs) (ownLock_eq_none.1 hown) rfl, fun _ => .same rfl rfl⟩

theorem pessimisticRollback_effect {forUpdateTs : Nat} :
    Effect key maxTs k c (k.apply (pessimisticRollback k startTs forUpdateTs)) := by
  unfold pessimisticRollback
  split
  · split
    · exact .unlock rfl rfl
    · exact .same rfl rfl
  · exact .same rfl rfl

/-! ## Prewrite -/

variable {r : Prewrite} {lockType : LockType}

theorem isPessimisticLock_lockToWrite (h : r.mutation.lockType = some lockType)
    (status : LockStatus) (p : Pending) : (r.lockToWrite lockType status p).isPessimisticLock = false := by
  unfold Mutation.lockType at h
  split at h <;> cases h <;> rfl

/-- **What is written for a key that passed its checks**: nothing, a lock, or a lock that is kept for one-phase commit. -/
inductive Writes (r : Prewrite) (maxTs : Nat) (status : LockStatus) (pending : Pending) : Prewritten → Prop
  | refused {e : MvccError} : Writes r maxTs status pending ⟨[], none, .error e⟩
  | fallback {new : Lock} {e : MvccError} (hnew : NewLock r maxTs pending new) :
      Writes r maxTs status pending ⟨r.valueToWrite ++ [.putLock new], none, .error e⟩
  | lock {new : Lock} {ts : Nat} (hnew : NewLock r maxTs pending new) (hone : r.tryOnePc = false)
      (hts : ts ≠ 0 → new.useAsyncCommit = true ∧ new.minCommitTs = ts) :
      Writes r maxTs status pending ⟨r.valueToWrite ++ [.putLock new], none, .ok ts⟩
  | onePc {new : Lock} (hnew : NewLock r maxTs pending new) (hone : r.tryOnePc = true) (hmax : maxTs < new.minCommitTs)
      (hstart : r.startTs < new.minCommitTs) :
      Writes r maxTs status pending ⟨r.valueToWrite, some (new, status.hasPessimisticLock), .ok new.minCommitTs⟩

theorem writeLock_spec (r : Prewrite) (maxTs : Nat) (status : LockStatus) (pending : Pending) :
    Writes r maxTs status pending (r.writeLock maxTs status pending) := by
  unfold Prewrite.writeLock
  split
  · exact .refused
  rename_i lockType htype
  have hpess := isPessimisticLock_lockToWrite htype status pending
  dsimp only
  split
  · rename_i hneed
    split
    · exact .refused
    split
    · rename_i m hm
      obtain ⟨hmax, hstart, hmin⟩ := asyncCommitTimestamps_ok hm
      have hnew : NewLock r maxTs pending { r.lockToWrite lockType status pending with minCommitTs := m } :=
        ⟨rfl, hpess, rfl, fun _ => ⟨hmax, hstart⟩, rfl, hmin⟩
      split
      · exact .onePc hnew ‹_› hmax hstart
      · rename_i hone
        have hasync := (Bool.or_eq_true_iff.1 hneed).resolve_right hone
        exact .lock hnew (Bool.eq_false_iff.2 hone) fun _ => ⟨hasync, rfl⟩
    · exact .fallback ⟨rfl, hpess, rfl, nofun, rfl, le_rfl⟩
  · rename_i hno
    simp only [Bool.or_eq_true, not_or, Bool.not_eq_true] at hno
    exact .lock ⟨rfl, hpess, rfl, fun h => absurd (hno.1.symm.trans h) nofun, rfl, le_rfl⟩ hno.2 fun h => absurd rfl h

theorem on_value : ∀ m ∈ r.valueToWrite, m.onLock = false ∧ m.onWrites = false := by
  intro m hm
  unfold Prewrite.valueToWrite at hm
  split at hm
  · split at hm
    · cases hm
    · cases List.mem_singleton.1 hm; exact ⟨rfl, rfl⟩
  · cases hm

theorem onWrites_value : ∀ m ∈ r.valueToWrite, m.onWrites = false := fun m hm => (on_value m hm).2

variable {pending : Pending} {new : Lock} {status : LockStatus}

theorem putLock_effect (hc : c.prewriteOf = some r) (hcheck : r.check k = .ok (.pass status pending))
    (hnew : NewLock r maxTs pending new) : Effect key maxTs k c (k.apply (r.valueToWrite ++ [.putLock new])) := by
  rw [apply_append]
  exact .lock hc hcheck hnew rfl (writes_apply onWrites_value)

theorem onePc_effect (hc : c.prewriteOf = some r) (hgen : r.generation = 0)
    (hcheck : r.check k = .ok (.pass status pending)) (hnew : NewLock r maxTs pending new)
    (hmax : maxTs < new.minCommitTs) (hstart : r.startTs < new.minCommitTs) (others : OtherKeys) :
    Effect key maxTs k c (k.apply (r.valueToWrite ++
      onePcModifies others (max new.minCommitTs others.minCommitTs) (some (new, status.hasPessimisticLock)))) := by
  dsimp only [onePcModifies]
  split
  · exact putLock_effect hc hcheck { hnew with }
  split
  · rename_i h
    exact absurd h (Lock.fromLockType_ne_none hnew.notPessimistic)
  rename_i writeType hwt
  rw [apply_append]
  have hwrites := writes_apply (k := k) (onWrites_value (r := r))
  have hlock := lock_apply (k := k) fun m hm => (on_value (r := r) m hm).1
  obtain ⟨hfinds, _, hlocked⟩ := check_pass hcheck
  have hle := le_max_left new.minCommitTs others.minCommitTs
  refine .onePc hc hgen hcheck hnew (hmax.trans_le hle) hle (hstart.trans_le hle) hwt ?_ ?_
  · cases hfinds with
    | pessimistic _ _ _ _ => rfl
    | locked _ _ _ _ _ => exact absurd rfl (hlocked hgen _)
    | none hnone _ _ => exact hlock.trans hnone
  · rw [← hwrites]
    cases hfinds <;> rfl

variable {others : OtherKeys} {ts : Nat}

theorem prewriteModifies_of_none {v : Versions} {res : Prewritten}
    (hone : res.lockForOnePc = none) (h : prewriteModifies r others v res = .ok (ms, ts)) :
    ms = [] ∨ ms = res.modifies := by
  unfold prewriteModifies at h
  split at h
  · cases h
    rw [hone]
    exact .inr (List.append_nil _)
  · split at h
    · split at h
      · cases h; exact .inl rfl
      · cases h; exact .inr rfl
      · cases h
    · cases h

variable {cm : ConcurrencyManager} {out : Outside}

theorem prewrite_effect (h : prewriteModifies r others k.writes (prewrite r cm out k).2 = .ok (ms, ts)) :
    Effect key (prewrite r cm out k).1.maxTs k (.prewrite r others) (k.apply ms) := by
  have hspec : Prewrites _ k (prewrite r cm out k) := (prewriteWithGeneration_spec { r with generation := 0 } cm out k).2
  generalize prewrite r cm out k = res at h hspec ⊢
  cases hspec with
  | failed | duplicate _ | checked _ _ _ =>
    rw [(prewriteModifies_of_none rfl h).elim id id]
    exact .same rfl rfl
  | @writes cm' status pending hcheck =>
    have hlock := writeLock_spec { r with generation := 0 } cm'.maxTs status pending
    generalize Prewrite.writeLock { r with generation := 0 } cm'.maxTs status pending = res at h hlock
    cases hlock with
    | refused =>
      rw [(prewriteModifies_of_none rfl h).elim id id]
      exact .same rfl rfl
    | fallback hnew | lock hnew _ _ =>
      rcases prewriteModifies_of_none rfl h with rfl | rfl
      · exact .same rfl rfl
      · exact putLock_effect rfl hcheck hnew
    | onePc hnew _ hmax hstart =>
      cases h
      exact onePc_effect rfl rfl hcheck hnew hmax hstart others

theorem flush_effect {q : Flush}
    (h : flushModifies q k.writes (prewriteWithGeneration q.prewrite cm out k).2 = .ok ms) :
    Effect key (prewriteWithGeneration q.prewrite cm out k).1.maxTs k (.flush q) (k.apply ms) := by
  have hcases : ms = [] ∨ ms = (prewriteWithGeneration q.prewrite cm out k).2.modifies := by
    unfold flushModifies at h
    split at h
    · cases h; exact .inr rfl
    · cases h; exact .inl rfl
    split at h
    · cases h; exact .inl rfl
    · cases h
  have hspec := (prewriteWithGeneration_spec q.prewrite cm out k).2
  generalize prewriteWithGeneration q.prewrite cm out k = res at hcases hspec ⊢
  rcases hcases with rfl | rfl
  · exact .same rfl rfl
  cases hspec with
  | failed | duplicate _ | checked _ _ _ => exact .same rfl rfl
  | @writes cm' status pending hcheck =>
    have hlock := writeLock_spec q.prewrite cm'.maxTs status pending
    generalize Prewrite.writeLock q.prewrite cm'.maxTs status pending = res at hlock ⊢
    cases hlock with
    | refused => exact .same rfl rfl
    | fallback hnew | lock hnew _ _ => exact putLock_effect rfl hcheck hnew
    | onePc _ hone _ _ => cases hone -- a flush is an ordinary two-phase prewrite

/-! ## Pessimistic locks -/

theorem acquire_effect {q : AcquirePessimisticLock}
    {res : PessimisticLockKeyResult} (h : (q.run cm out k).2 = .ok (ms, res)) :
    Effect key maxTs k (.acquirePessimisticLock q) (k.apply ms) := by
  unfold run at h
  split at h
  · cases h
  split at h
  split at h
  · cases h
  split at h
  · rename_i lock hlock
    unfold overLock at h
    dsimp only at h
    split at h
    · cases h
    rename_i hts
    split at h
    · cases h
    rename_i htype
    split at h
    · cases h
    cases h
    generalize hf : (if q.allowLockWithConflict = true ∧ q.forUpdateTs < lock.forUpdateTs then
      some lock.forUpdateTs else none).getD q.forUpdateTs = forUpdateTs
    split
    · rename_i hlt
      refine .acquire rfl (fun old hold => ?_) rfl rfl
      rw [hlock] at hold
      cases hold
      refine ⟨Decidable.not_not.1 hts, by simpa using htype, ?_⟩
      split at hf
      · cases hf
        exact absurd hlt (lt_irrefl _)
      cases hf
      exact hlt
    · exact .same rfl rfl
  · rename_i hlock
    unfold noLock at h
    dsimp only at h
    split at h
    · cases h
    split at h
    · cases h
      exact .acquire rfl (fun old hold => by rw [hlock] at hold; cases hold) rfl rfl
    split at h
    · cases h
    cases h
    exact .same rfl rfl

/-! ## Every command -/

variable {s : Store} {α : Type} {res : Except MvccError (List Modify × α)} {answer : α → Response}

theorem finish_effect (h : ∀ ms a, res = .ok (ms, a) → Effect key maxTs s.key c (s.key.apply ms)) :
    Effect key maxTs s.key c (s.finish res answer).1.key := by
  unfold finish
  split
  · exact h _ _ rfl
  · exact .same rfl rfl

theorem map_pair_ok {res : Except MvccError (List Modify)} {a : Unit}
    (h : res.map (·, ()) = .ok (ms, a)) : res = .ok ms := by
  obtain ⟨ms', hres, heq⟩ := map_ok h
  cases heq
  exact hres

variable {next : Store → Store × Except MvccError Response}

@[simp] theorem finish_cm : (s.finish res answer).1.cm = s.cm := by
  unfold finish
  split <;> rfl

/-! ## Answers to a rollback -/

def Response.isRolledBack : Response → Bool
  | .txnStatus status => status.isRolledBack
  | .secondaryLockStatus status => status.isRolledBack
  | .done | .prewriteResult _ | .pessimisticLock _ => true

def Command.rolledBackIn (c : Command) : Except MvccError Response → Option Nat
  | .ok answer => if answer.isRolledBack then c.rollbackOf else none
  | .error _ => none

def AnswersRollback (key : Bytes) (s : Store) (c : Command) (startTs : Nat) (res : Store × Except MvccError Response) :
    Prop :=
  (c.rolledBackIn res.2 = some startTs → RolledBack key s.key c startTs res.1.key) ∧
  (c.rolledBackIn res.2 = none → Quiet s.key res.1.key)

theorem finish_answers {s₁ : Store} (hc : c.rollbackOf = some startTs) (hkey : s₁.key = s.key)
    (h : ∀ ms a, res = .ok (ms, a) → Decides key s.key c startTs (answer a).isRolledBack (s.key.apply ms)) :
    AnswersRollback key s c startTs (s₁.finish res answer) := by
  unfold finish
  split
  · rename_i ms a
    obtain ⟨hrolled, hquiet⟩ := h ms a rfl
    dsimp only [AnswersRollback, Command.rolledBackIn, write]
    rw [hkey, hc]
    cases hans : (answer a).isRolledBack with
    | true => exact ⟨fun _ => hrolled hans, nofun⟩
    | false => exact ⟨nofun, fun _ => hquiet hans⟩
  · refine ⟨nofun, fun _ => ?_⟩
    rw [hkey]
    exact .same rfl rfl

theorem publish_answers (h : ∀ s₁ : Store, s₁.key = s.key → AnswersRollback key s c startTs (next s₁)) :
    AnswersRollback key s c startTs (s.publish out ts next) := by
  unfold publish
  split
  · exact h _ rfl
  · exact ⟨nofun, fun _ => .same rfl rfl⟩

theorem makeRollback_ne_txnLockNotFound : makeRollback startTs protect overlapped ≠ .error (.txnLockNotFound ts) := by
  intro h
  unfold makeRollback at h
  split at h
  · split at h <;> cases h
  · cases h

theorem cleanup_ne_txnLockNotFound {currentTs : Nat} :
    cleanup key k startTs currentTs protect ≠ .error (.txnLockNotFound ts) := by
  intro h
  unfold cleanup at h
  split at h
  · split at h
    · cases h
    unfold rollbackLock at h
    split at h
    · dsimp only at h
      split at h
      · rename_i hmake
        cases h
        exact makeRollback_ne_txnLockNotFound hmake
      · cases h
    · split at h <;> cases h
    · cases h
  · split at h
    · rename_i e hmissing
      cases h
      unfold checkTxnStatusMissingLock at hmissing
      split at hmissing
      · cases hmissing
      · cases hmissing
      split at hmissing
      · cases hmissing
      split at hmissing
      · cases hmissing
      split at hmissing
      · rename_i hmake
        cases hmissing
        exact makeRollback_ne_txnLockNotFound hmake
      · cases hmissing
    · cases h
    · cases h

/-- **A command that may roll a transaction back** has done so, or leaves the records alone, as it answers. -/
theorem process_answers (out : Outside) (hv : RollbacksAtStart s.key.writes) (hc : c.rollbackOf = some startTs) :
    AnswersRollback key s c startTs (s.process key out c) := by
  cases c with
  | cleanup a b =>
    cases hc
    refine publish_answers fun s₁ hs₁ => finish_answers rfl hs₁ fun ms _ h => ⟨fun _ => ?_, nofun⟩
    rw [← hs₁] at hv ⊢
    exact cleanup_rolledBack hv true rfl (fun _ => rfl) (map_pair_ok h)
  | rollback a =>
    cases hc
    exact finish_answers rfl rfl fun ms _ h => ⟨fun _ => cleanup_rolledBack hv false rfl nofun (map_pair_ok h), nofun⟩
  | resolveLock a b pessimistic =>
    obtain ⟨rfl, ⟨⟩⟩ := Option.ite_none_right_eq_some.1 hc
    refine finish_answers rfl rfl fun ms _ h => ⟨fun _ => ?_, nofun⟩
    have hres := map_pair_ok h
    unfold resolveFound at hres
    rw [if_neg fun h => h.1 rfl] at hres
    split at hres
    · rename_i ts herr
      exact absurd herr cleanup_ne_txnLockNotFound
    · exact cleanup_rolledBack hv false rfl nofun hres
  | resolveLockLite a b =>
    obtain ⟨rfl, ⟨⟩⟩ := Option.ite_none_right_eq_some.1 hc
    exact finish_answers rfl rfl fun ms _ h => ⟨fun _ => cleanup_rolledBack hv false rfl nofun (map_pair_ok h), nofun⟩
  | checkTxnStatus q =>
    cases hc
    refine publish_answers fun s₁ hs₁ => finish_answers rfl hs₁ fun ms status h => ?_
    rw [← hs₁] at hv ⊢
    exact checkTxnStatus_cases hv h
  | checkSecondaryLocks a =>
    cases hc
    refine publish_answers fun s₁ hs₁ => finish_answers rfl hs₁ fun ms status h => ?_
    rw [← hs₁] at hv ⊢
    exact checkSecondaryLock_cases hv h
  | _ => cases hc

theorem rolledBackIn_cases (c : Command) (res : Except MvccError Response) :
    c.rolledBackIn res = none ∨ c.rolledBackIn res = c.rollbackOf := by
  cases res with
  | error e => exact .inl rfl
  | ok answer =>
    dsimp only [Command.rolledBackIn]
    split
    · exact .inr rfl
    · exact .inl rfl

theorem AnswersRollback.effect {res : Store × Except MvccError Response} (hc : c.rollbackOf = some startTs)
    (h : AnswersRollback key s c startTs res) : Effect key maxTs s.key c res.1.key := by
  rcases rolledBackIn_cases c res.2 with hnone | hsome
  · exact (h.2 hnone).effect
  · exact (h.1 (hsome.trans hc)).effect hc

/-- **Every command has one of the effects**, on a key whose rollback records stand where they belong. -/
theorem process_effect (key : Bytes) (s : Store) (out : Outside) (c : Command) (hv : RollbacksAtStart s.key.writes) :
    Effect key (s.process key out c).1.cm.maxTs s.key c (s.process key out c).1.key := by
  cases c with
  | prewrite r others =>
    dsimp only [process]
    rw [finish_cm]
    exact finish_effect (s := { s with cm := (prewrite r s.cm out s.key).1 }) fun ms ts h => prewrite_effect h
  | flush q =>
    dsimp only [process]
    split
    · exact .same rfl rfl
    rw [finish_cm]
    exact finish_effect (s := { s with cm := (prewriteWithGeneration q.prewrite s.cm out s.key).1 })
      fun ms _ h => flush_effect (map_pair_ok h)
  | acquirePessimisticLock q =>
    exact finish_effect (s := { s with cm := (q.run s.cm out s.key).1 }) fun ms _ h => acquire_effect h
  | pessimisticRollback startTs forUpdateTs => exact pessimisticRollback_effect
  | txnHeartBeat startTs adviseTtl minCommitTs => exact finish_effect fun ms _ h => txnHeartBeat_effect h
  | commit startTs commitTs =>
    dsimp only [process]
    split
    · exact .same rfl rfl
    · exact finish_effect fun ms _ h => commit_effect rfl h
  | resolveLock startTs commitTs pessimistic =>
    exact finish_effect fun ms _ h => resolveFound_effect hv (map_pair_ok h)
  | resolveLockLite startTs commitTs =>
    exact finish_effect fun ms _ h => resolve_effect hv rfl rfl rfl (map_pair_ok h)
  | cleanup startTs | rollback startTs | checkTxnStatus q | checkSecondaryLocks startTs =>
    exact (process_answers out hv rfl).effect rfl
  | read ts =>
    dsimp only [process, publish]
    split <;> exact .same rfl rfl

/-! ## The published timestamp -/

theorem le_maxTs_acquire (q : AcquirePessimisticLock) (cm : ConcurrencyManager) (out : Outside) (k : KeyState) :
    cm.maxTs ≤ (q.run cm out k).1.maxTs := by
  unfold run
  split
  · exact le_rfl
  have hfirst := cm.le_maxTs_ite out ((q.shouldNotExist || q.needValue || q.needCheckExistence) = true) q.forUpdateTs
  generalize (if (q.shouldNotExist || q.needValue || q.needCheckExistence) = true then
    cm.updateMaxTs out q.forUpdateTs else (cm, .ok ())) = first at hfirst ⊢
  obtain ⟨cm₁, updated⟩ := first
  cases updated with
  | error e => exact hfirst
  | ok _ =>
    dsimp only
    split <;> exact hfirst

theorem le_maxTs_publish (hcm : ∀ s, (next s).1.cm = s.cm) : s.cm.maxTs ≤ (s.publish out ts next).1.cm.maxTs := by
  have h := s.cm.le_maxTs_updateMaxTs out ts
  unfold publish
  split
  · rename_i cm heq
    rw [heq] at h
    rw [hcm]
    exact h
  · rename_i cm e heq
    rw [heq] at h
    exact h

theorem le_maxTs_process (key : Bytes) (s : Store) (out : Outside) (c : Command) :
    s.cm.maxTs ≤ (s.process key out c).1.cm.maxTs := by
  cases c with
  | prewrite r others =>
    dsimp only [process]
    rw [finish_cm]
    exact (prewriteWithGeneration_spec _ s.cm out s.key).1
  | flush q =>
    dsimp only [process]
    split
    · exact le_rfl
    rw [finish_cm]
    exact (prewriteWithGeneration_spec _ s.cm out s.key).1
  | acquirePessimisticLock q =>
    dsimp only [process]
    rw [finish_cm]
    exact le_maxTs_acquire q s.cm out s.key
  | pessimisticRollback startTs forUpdateTs => exact le_rfl
  | commit startTs commitTs =>
    dsimp only [process]
    split
    · exact le_rfl
    · rw [finish_cm]
  | cleanup | checkTxnStatus | checkSecondaryLocks => exact le_maxTs_publish fun _ => finish_cm
  | read ts => exact le_maxTs_publish fun s' => rfl
  | _ => exact le_of_eq (by rw [process, finish_cm])

theorem publish_cases (hcm : ∀ s, (next s).1.cm = s.cm) (hmax : ts ≠ tsMax) :
    (s.publish out ts next).1.key = s.key ∨ ts ≤ (s.publish out ts next).1.cm.maxTs := by
  unfold publish
  split
  · rename_i cm heq
    right
    rw [hcm]
    have hok : (s.cm.updateMaxTs out ts).2 = .ok () := by rw [heq]
    have h := ConcurrencyManager.newTs_le_maxTs hmax hok
    rwa [heq] at h
  · exact .inl rfl

theorem CheckTxnStatus.startTs_le_newMaxTs (q : CheckTxnStatus) :
    q.startTs ≤ q.newMaxTs ∧ (q.startTs ≠ tsMax → q.newMaxTs ≠ tsMax) := by
  unfold CheckTxnStatus.newMaxTs
  dsimp only
  split <;> split <;> omega

/-- **A rollback that is published** is so before it is written. -/
theorem startTs_le_maxTs (hpub : c.publishesRollback = true) (hc : c.rollbackOf = some startTs) (hmax : startTs ≠ tsMax) :
    (s.process key out c).1.key = s.key ∨ startTs ≤ (s.process key out c).1.cm.maxTs := by
  cases c with
  | cleanup | checkSecondaryLocks =>
    cases hc
    exact publish_cases (fun _ => finish_cm) hmax
  | checkTxnStatus q =>
    cases hc
    obtain ⟨hle, hne⟩ := q.startTs_le_newMaxTs
    have h : (s.process key out (.checkTxnStatus q)).1.key = s.key ∨
        q.newMaxTs ≤ (s.process key out (.checkTxnStatus q)).1.cm.maxTs :=
      publish_cases (fun _ => finish_cm) (hne hmax)
    exact h.imp_right hle.trans
  | _ => cases hpub

/-! ## Histories -/

def Store.empty (cm : ConcurrencyManager) : Store := ⟨cm, .empty⟩

def Store.step (key : Bytes) (s : Store) (a : Outside × Command) (s' : Store) : Prop := s' = (s.process key a.1 a.2).1

theorem writeType_of_fromLockType {writeType : WriteType}
    (h : WriteType.fromLockType lockType = some writeType) : writeType ≠ .rollback := by
  cases lockType <;> cases h <;> nofun

section

variable {writeType : WriteType} {commitTs : Nat}

theorem startTs_commitRecord : (lock.commitRecord writeType commitTs).startTs = lock.ts := by
  unfold Lock.commitRecord
  split <;> rfl

theorem commitRecord_ne_rollback (h : WriteType.fromLockType lock.lockType = some writeType) :
    (lock.commitRecord writeType commitTs).writeType ≠ .rollback := by
  unfold Lock.commitRecord
  split <;> exact writeType_of_fromLockType h

theorem flag_commitRecord :
    (lock.commitRecord writeType commitTs).hasOverlappedRollback = true ↔ commitTs ∈ lock.rollbackTs := by
  unfold Lock.commitRecord
  split <;> simp_all [Write.setOverlappedRollback, Write.new]

end

variable {w : Write}

theorem makeRollback_some (h : makeRollback startTs protect overlapped = .ok (some w)) :
    (overlapped = none ∧ w = Write.newRollback startTs protect) ∨
    ∃ ov, overlapped = some ov ∧ protect = true ∧ ov.write.startTs < startTs ∧
      w = ov.write.setOverlappedRollback (some ov.gcFence) := by
  unfold makeRollback at h
  split at h
  · rename_i write gcFence
    split at h
    · cases h
    rename_i hlt
    cases protect with
    | false => cases h
    | true =>
      cases h
      exact .inr ⟨⟨write, gcFence⟩, rfl, rfl, lt_of_not_ge hlt, rfl⟩
  · cases h
    exact .inl ⟨rfl, rfl⟩

theorem RollbacksAtStart.insert (h : RollbacksAtStart v) {t : Nat}
    (hw : w.writeType ≠ .rollback) : RollbacksAtStart (v.insert t w) :=
  forall_mem_insert (fun hroll => absurd hroll hw) fun e he _ => h e he

/-- `w` is the commit record `old` at `startTs`, marked with a rollback there; the fence is a later version, or 0. -/
structure Marks (v : Versions) (startTs : Nat) (old w : Write) (f : Nat) : Prop where
  mem : (startTs, old) ∈ v.entries
  lt : old.startTs < startTs
  flag : old.hasOverlappedRollback = false
  fence : f = 0 ∨ startTs < f ∧ ∃ w', (f, w') ∈ v.entries ∧ w'.isData = true
  eq : w = old.setOverlappedRollback (some f)

/-- `v'` is `v` after the rollback of a transaction that had no record: the record put is its own, or the commit record in
its place marked. -/
structure Undone (v v' : Versions) (startTs : Nat) : Prop where
  sub : ∀ e ∈ v'.entries, e ∈ v.entries ∨ e.1 = startTs ∧
    ((∃ protect, e.2 = Write.newRollback startTs protect) ∨ ∃ old f, Marks v startTs old e.2 f)
  keep : ∀ e ∈ v.entries, e ∈ v'.entries ∨ (e.2.writeType = .rollback ∧ e.2.isProtected = false ∧ e.1 < startTs) ∨
    e.1 = startTs ∧ ∃ w f, (startTs, w) ∈ v'.entries ∧ Marks v startTs e.2 w f
  start : RollbacksAtStart v → ∃ w, (startTs, w) ∈ v'.entries

section

variable (hrec : getTxnCommitRecord v startTs = .none overlapped)
include hrec

theorem record_of_makeRollback (hmake : makeRollback startTs protect overlapped = .ok (some w)) :
    ((∀ e ∈ v.entries, e.1 ≠ startTs) ∧ w = Write.newRollback startTs protect) ∨
      ∃ old f, Marks v startTs old w f := by
  rcases makeRollback_some hmake with ⟨rfl, hw⟩ | ⟨ov, rfl, _, hlt, hw⟩
  · have hfinds := findsRecord v startTs
    rw [hrec] at hfinds
    cases hfinds with
    | none hmem _ => exact .inl ⟨hmem, hw⟩
  · obtain ⟨hmem, _, hflag, hfence⟩ := overlapped_inv hrec
    exact .inr ⟨_, _, hmem, hlt, hflag, hfence, hw⟩

theorem RollsBack.undone (hmake : makeRollback startTs protect overlapped = .ok write)
    (hroll : RollsBack v v' startTs write) : Undone v v' startTs := by
  refine ⟨fun e he => ?_, fun e he => ?_, fun hr => ?_⟩
  · rcases hroll.sub e he with ⟨hmem, _⟩ | ⟨hts, rfl⟩
    · exact .inl hmem
    · exact .inr ⟨hts, (record_of_makeRollback hrec hmake).imp_left fun h => ⟨_, h.2⟩⟩
  · by_cases hkept : e.1 ≠ startTs ∨ write = none
    · exact (hroll.keep e he hkept).imp_right .inl
    -- the record in the place of the rollback is put back with its mark
    rw [not_or, Decidable.not_not] at hkept
    obtain ⟨w, rfl⟩ := Option.ne_none_iff_exists'.1 hkept.2
    rcases record_of_makeRollback hrec hmake with ⟨hnone, _⟩ | ⟨_, f, hmarks⟩
    · exact absurd hkept.1 (hnone e he)
    obtain ⟨position, w₀⟩ := e
    obtain rfl : position = startTs := hkept.1
    cases eq_of_mem he hmarks.mem
    exact .inr (.inr ⟨rfl, w, f, hroll.new w rfl, hmarks⟩)
  · cases write with
    | some w => exact ⟨w, hroll.new w rfl⟩
    | none =>
      cases overlapped with
      | none => cases hmake
      | some ov =>
        obtain ⟨hmem, hstart, _⟩ := overlapped_inv hrec
        rcases hroll.keep _ hmem (.inr rfl) with hmem' | ⟨htype, _, _⟩
        · exact ⟨_, hmem'⟩
        · exact absurd (hr _ hmem htype) hstart

end

theorem RollbacksAtStart.undone (h : RollbacksAtStart v) (hundone : Undone v v' startTs) : RollbacksAtStart v' := by
  intro e he htype
  rcases hundone.sub e he with hmem | ⟨hts, ⟨_, hw⟩ | ⟨old, _, hmarks⟩⟩
  · exact h e hmem htype
  · rw [hw, hts]; rfl
  · rw [hmarks.eq] at htype
    exact absurd (h _ hmarks.mem htype) (ne_of_lt hmarks.lt)

theorem RollbacksAtStart.effect
    (h : RollbacksAtStart k.writes) (heff : Effect key maxTs k c k') : RollbacksAtStart k'.writes := by
  cases heff with
  | same _ hwrites => rwa [hwrites]
  | raise _ _ _ _ hwrites | acquire _ _ _ hwrites | lock _ _ _ _ hwrites | unlock _ hwrites => rwa [hwrites]
  | onePc _ _ _ _ _ _ _ htype _ hwrites =>
    rw [hwrites]
    exact h.insert (writeType_of_fromLockType htype)
  | commit _ _ _ _ htype _ hwrites =>
    rw [hwrites]
    exact h.insert (commitRecord_ne_rollback htype)
  | rollback _ hrec hmake _ _ hwrites => exact h.undone (hwrites.undone hrec hmake)

/-- **Rollback records stand at their start timestamps** in every history. -/
theorem rollbacksAtStart_of_run {ok : Store → Outside × Command → Prop} {s' : Store}
    {l : List (Outside × Command)} (h : Run (step key) ok s l s') (hs : RollbacksAtStart s.key.writes) :
    RollbacksAtStart s'.key.writes := by
  refine h.invariant (I := fun s => RollbacksAtStart s.key.writes) (fun s a s' hI _ hstep => ?_) hs
  subst hstep
  exact hI.effect (process_effect key s a.1 a.2 hI)

theorem rollbacksAtStart_empty (cm : ConcurrencyManager) : RollbacksAtStart (empty cm).key.writes := nofun

def sampleOutside : Outside := ⟨0, none⟩

def runSample (l : List Command) : Store :=
  l.foldl (fun s c => (s.process [] sampleOutside c).1) (.empty (.new 0 0 .log 0 0))

end Mvcc
end Tikv
