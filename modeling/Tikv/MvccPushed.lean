import Tikv.MvccExclude
/-!
# MvccPushed — a pushed `min_commit_ts` while the lock stays

A reader that finds a live lock pushes its `min_commit_ts` and reads past it.  While the transaction's lock stays on the
key, most commands keep or raise its ttl and `min_commit_ts`; a repeated pessimistic lock request and a later flush put
the values of the request in their place.  `KeepsPushed` asks that those values are not smaller, of the requests that
change the lock.
-/
namespace Tikv
namespace Mvcc

open Lib CheckTxnStatus Store Chain

/-- Where the command puts its own ttl and `min_commit_ts` into the lock, they are not smaller than the lock's. -/
def Command.keepsPushed (lock : Lock) : Command → Prop
  | .acquirePessimisticLock q =>
    q.startTs = lock.ts → lock.isPessimisticLock = true → lock.forUpdateTs < q.forUpdateTs →
      lock.ttl ≤ q.lockTtl ∧ lock.minCommitTs ≤ q.minCommitTs
  | .flush q =>
    q.startTs = lock.ts → lock.isPessimisticLock = false → lock.generation < q.generation →
      lock.ttl ≤ q.lockTtl ∧ lock.minCommitTs ≤ q.startTs + 1
  | _ => True

def KeepsPushed (key : Bytes) (s : Store) (a : Outside × Command) : Prop :=
  ∀ lock, s.key.lock = some lock → (s.process key a.1 a.2).1.key.lock = some lock ∨ a.2.keepsPushed lock

def Store.heldStep (key : Bytes) (startTs : Nat) (s : Store) (a : Outside × Command) (s' : Store) : Prop :=
  s.step key a s' ∧ ∃ lock, s'.key.lock = some lock ∧ lock.ts = startTs

/-! ## The lock over a command -/

/-- The lock of the same transaction, with no smaller ttl and `min_commit_ts`. -/
structure Lock.RaisedTo (old new : Lock) : Prop where
  ts : new.ts = old.ts
  ttl : old.ttl ≤ new.ttl
  minCommitTs : old.minCommitTs ≤ new.minCommitTs

theorem Lock.RaisedTo.refl (lock : Lock) : lock.RaisedTo lock := ⟨rfl, le_rfl, le_rfl⟩

theorem Lock.RaisedTo.trans {a b c : Lock} (h : a.RaisedTo b) (h' : b.RaisedTo c) : a.RaisedTo c :=
  ⟨h'.ts.trans h.ts, h.ttl.trans h'.ttl, h.minCommitTs.trans h'.minCommitTs⟩

variable {c : Command} {k : KeyState} {lock : Lock} {maxTs : Nat}

theorem raisedTo_prewrite {r : Prewrite} {status : LockStatus} {pending : Pending} {new : Lock} (hlock : k.lock = some lock)
    (hkeeps : 0 < r.generation → c.keepsPushed lock) (hc : c.prewriteOf = some r)
    (hcheck : r.check k = .ok (.pass status pending)) (hnew : NewLock r maxTs pending new) : lock.RaisedTo new := by
  have hmin := hnew.minCommitTs
  have httl := hnew.ttl
  obtain ⟨hfinds, _, hlocked⟩ := check_pass hcheck
  cases hfinds with
  | pessimistic hk hts htype hpending =>
    rw [hlock] at hk
    cases hk
    exact ⟨hnew.ts.trans hts.symm, by omega, by omega⟩
  | @locked found ts _ hk hts htype hgen hpending =>
    rw [hlock] at hk
    cases hk
    have hpos : 0 < r.generation := pos_of_ne_zero fun hzero => hlocked hzero ts rfl
    cases c with
    | flush q =>
      cases hc
      obtain ⟨hq, hq'⟩ := hkeeps hpos hts.symm htype (hgen hpos)
      rw [hpending.2] at hmin
      rw [hpending.1] at httl
      exact ⟨hnew.ts.trans hts.symm, httl ▸ hq, hq'.trans hmin⟩
    | prewrite r₀ others =>
      cases hc
      exact absurd hpos (lt_irrefl 0)
    | _ => cases hc
  | none hk _ _ =>
    rw [hlock] at hk
    cases hk

variable {key : Bytes}

theorem raisedTo_of_effect {k' : KeyState} {lock' : Lock}
    (heff : Effect key maxTs k c k') (hlock : k.lock = some lock) (hkeeps : c.keepsPushed lock)
    (hlock' : k'.lock = some lock') : lock.RaisedTo lock' := by
  cases heff with
  | same h _ =>
    rw [h, hlock] at hlock'
    cases hlock'
    exact .refl lock
  | raise hold httl hmin h _ =>
    rw [hlock] at hold
    cases hold
    rw [h] at hlock'
    cases hlock'
    exact ⟨rfl, httl, hmin⟩
  | acquire hc hold h _ =>
    subst hc
    obtain ⟨hts, htype, hlt⟩ := hold lock hlock
    obtain ⟨httl, hmin⟩ := hkeeps hts.symm htype hlt
    rw [h] at hlock'
    cases hlock'
    exact ⟨hts.symm, httl, hmin⟩
  | lock hc hcheck hnew h _ =>
    rw [h] at hlock'
    cases hlock'
    exact raisedTo_prewrite hlock (fun _ => hkeeps) hc hcheck hnew
  | onePc _ _ _ _ _ _ _ _ h _ | commit _ _ _ _ _ h _ | unlock h _ =>
    rw [h] at hlock'
    cases hlock'
  | rollback _ _ _ _ h _ =>
    rw [hlock, hlock'] at h
    cases h with
    | mark _ _ => exact ⟨rfl, le_rfl, le_rfl⟩
    | _ => exact .refl lock

variable {startTs : Nat} {s : Store}

theorem raisedTo_of_run {s' : Store} {l : List (Outside × Command)}
    (hrun : Run (heldStep key startTs) (KeepsPushed key) s l s') :
    RollbacksAtStart s.key.writes → ∀ {lock lock' : Lock}, s.key.lock = some lock → s'.key.lock = some lock' →
      lock.RaisedTo lock' := by
  induction hrun with
  | nil s =>
    intro _ lock lock' hlock hlock'
    rw [hlock] at hlock'
    cases hlock'
    exact .refl lock
  | @cons s s₁ _ a _ hok hstep _ ih =>
    intro hv lock lock' hlock hlock'
    obtain ⟨rfl, lock₁, hlock₁, _⟩ := hstep
    have heff := process_effect key s a.1 a.2 hv
    have hfirst : lock.RaisedTo lock₁ := by
      rcases hok lock hlock with hsame | hkeeps
      · cases hsame.symm.trans hlock₁
        exact .refl lock
      · exact raisedTo_of_effect heff hlock hkeeps hlock₁
    exact hfirst.trans (ih (hv.effect heff) hlock₁ hlock')

/-! ## The push and the commit -/

variable {ms : List Modify} {v : Versions}

theorem checkTxnStatusMissingLock_ne_uncommitted {mismatch : Option Lock}
    {action : MissingLockAction} {resolving : Bool} {pushed : Bool} :
    checkTxnStatusMissingLock v startTs mismatch action resolving ≠ .ok (ms, .uncommitted lock pushed) := by
  intro h
  rcases missingLock_inv h with ⟨_, _, hs | ⟨_, hs⟩ | ⟨_, hs⟩⟩ | ⟨_, _, _, _, _, hs⟩ <;> cases hs

variable {q : CheckTxnStatus} {pushed : Lock}

theorem pushMinCommitTs_pushed (hk : k.lock = some lock) (h : q.pushMinCommitTs lock = (ms, .uncommitted pushed true))
    (hcaller : q.callerStartTs ≠ tsMax) :
    (k.apply ms).lock = some pushed ∧ pushed.ts = lock.ts ∧ q.callerStartTs < pushed.minCommitTs := by
  dsimp only [pushMinCommitTs] at h
  have hms := congrArg Prod.fst h
  have hstatus := congrArg Prod.snd h
  injection hstatus with hlock hflag
  subst hms
  simp only [hlock, hcaller, decide_false, Bool.or_false, Bool.and_eq_true, decide_eq_true_eq] at hflag
  refine ⟨?_, ?_, hflag.2⟩
  · split
    · rw [if_pos ‹_›] at hlock
      subst hlock
      rfl
    · rw [if_neg ‹_›] at hlock
      subst hlock
      exact hk
  · rw [← hlock]
    split <;> rfl

theorem fromPessimisticPrimaryLock_ne_uncommitted {flag : Bool} :
    q.fromPessimisticPrimaryLock key v lock ≠ .ok (some (ms, .uncommitted pushed flag)) := by
  intro h
  unfold fromPessimisticPrimaryLock at h
  split at h
  · rename_i status hstatus
    cases h
    split at hstatus
    · generalize getTxnCommitRecord v q.startTs = record at hstatus
      cases record with
      | singleRecord commitTs write =>
        dsimp only [TxnCommitRecord.status] at hstatus
        split at hstatus <;> cases hstatus
      | _ => cases hstatus
    · cases hstatus
  · split at h
    · split at h
      · cases h
      cases hroll : rollbackLock key v lock true with
      | _ => rw [hroll] at h; cases h
    · cases h

theorem run_pushed (h : q.run key k = .ok (ms, .uncommitted pushed true)) (hcaller : q.callerStartTs ≠ tsMax) :
    (k.apply ms).lock = some pushed ∧ pushed.ts = q.startTs ∧ q.callerStartTs < pushed.minCommitTs := by
  unfold run at h
  split at h
  · rename_i lock hown
    obtain ⟨hk, hts⟩ := ownLock_eq_some.1 hown
    have hpush : Except.ok (q.pushMinCommitTs lock) = (.ok (ms, .uncommitted pushed true) : Except MvccError _) →
        (k.apply ms).lock = some pushed ∧ pushed.ts = q.startTs ∧ q.callerStartTs < pushed.minCommitTs := by
      intro h
      obtain ⟨h₁, h₂, h₃⟩ := pushMinCommitTs_pushed hk (Except.ok.inj h) hcaller
      exact ⟨h₁, h₂.trans hts, h₃⟩
    unfold lockExists at h
    split at h
    · split at h
      · split at h
        · cases h
        rename_i hmissing
        cases h
        exact absurd hmissing checkTxnStatusMissingLock_ne_uncommitted
      · cases h
    · split at h
      · cases h
      split at h
      · split at h
        · cases h
        · rename_i hprimary
          cases h
          exact absurd hprimary fromPessimisticPrimaryLock_ne_uncommitted
        · exact hpush h
      · split at h
        · cases hroll : rollbackLock key k.writes lock true with
          | _ => rw [hroll] at h; cases h
        · exact hpush h
  · exact absurd h checkTxnStatusMissingLock_ne_uncommitted

theorem process_pushed {out : Outside}
    (h : (s.process key out (.checkTxnStatus q)).2 = .ok (.txnStatus (.uncommitted pushed true)))
    (hcaller : q.callerStartTs ≠ tsMax) :
    (s.process key out (.checkTxnStatus q)).1.key.lock = some pushed ∧ q.callerStartTs < pushed.minCommitTs := by
  dsimp only [process, publish] at h ⊢
  split at h
  · cases hrun : q.run key s.key with
    | error e => rw [hrun] at h; cases h
    | ok res =>
      obtain ⟨ms, status⟩ := res
      rw [hrun] at h
      cases h
      obtain ⟨h₁, _, h₃⟩ := run_pushed hrun hcaller
      exact ⟨h₁, h₃⟩
  · cases h

theorem commitOf_error {commitTs : Nat}
    (hlock : s.key.lock = some lock) (hts : lock.ts = startTs) (hc : c.commitOf = some (startTs, commitTs))
    (hlt : commitTs < lock.minCommitTs) (out : Outside) : ∃ e, (s.process key out c).2 = .error e := by
  have hcommit : commit s.key startTs commitTs = .error (.commitTsExpired commitTs lock.minCommitTs) := by
    unfold commit
    rw [ownLock_eq_some.2 ⟨hlock, hts⟩]
    exact if_pos hlt
  have hresolve : ∀ {a b : Nat}, (if b = 0 then none else some (a, b)) = some (startTs, commitTs) →
      resolve key s.key a b = .error (.commitTsExpired commitTs lock.minCommitTs) := by
    intro a b h
    split at h
    · cases h
    rename_i hzero
    cases h
    unfold resolve
    rw [if_neg hzero, hcommit]
    rfl
  cases c with
  | commit a b =>
    cases hc
    dsimp only [process]
    split
    · exact ⟨_, rfl⟩
    rw [hcommit]
    exact ⟨_, rfl⟩
  | resolveLock a b pessimistic =>
    dsimp only [process, resolveFound]
    rw [hresolve hc]
    split <;> exact ⟨_, rfl⟩
  | resolveLockLite a b =>
    dsimp only [process]
    rw [hresolve hc]
    exact ⟨_, rfl⟩
  | _ => cases hc

/-- **A commit under a lock is not below its `min_commit_ts`**, of one phase or two. -/
theorem minCommitTs_le_of_commitAt {a : Outside × Command} {commitTs : Nat} (hv : RollbacksAtStart s.key.writes)
    (hlock : s.key.lock = some lock) (hnew : ¬ CommitAt s.key.writes commitTs startTs)
    (h : CommitAt (s.process key a.1 a.2).1.key.writes commitTs startTs) : lock.minCommitTs ≤ commitTs := by
  have heff := process_effect key s a.1 a.2 hv
  generalize (s.process key a.1 a.2).1.key = k' at h heff
  -- a record put in at another timestamp is not the one
  have hinsert {at' : Nat} {w : Write} (hwrites : k'.writes = s.key.writes.insert at' w) : at' = commitTs := by
    obtain ⟨w', hmem, hw'⟩ := h
    rw [hwrites] at hmem
    rcases mem_insert.1 hmem with heq | ⟨hmem, _⟩
    · exact (Prod.mk.inj heq).1.symm
    · exact absurd ⟨w', hmem, hw'⟩ hnew
  cases heff with
  | same _ hwrites | raise _ _ _ _ hwrites | acquire _ _ _ hwrites | lock _ _ _ _ hwrites | unlock _ hwrites =>
    exact absurd (hwrites ▸ h) hnew
  | onePc hc hgen hcheck hlocks _ hmin _ _ _ hwrites =>
    have hraised := raisedTo_prewrite hlock (fun hpos => absurd hgen (ne_of_gt hpos)) hc hcheck hlocks
    exact hinsert hwrites ▸ hraised.minCommitTs.trans hmin
  | commit _ hold _ hmin _ _ hwrites =>
    cases hlock.symm.trans hold
    exact hinsert hwrites ▸ hmin
  | rollback _ hrec hmake _ _ hwrites => exact absurd ((hwrites.undone hrec hmake).commitAt ▸ h) hnew

/-! ## Over a history -/

/-- **A pushed `min_commit_ts` is never taken back** while the lock stays, if no request puts in smaller values; and then
no commit at or below a caller that was told of the push succeeds, nor does a prewrite commit there in one phase. -/
theorem pushed_of_keepsPushed {key : Bytes} {startTs : Nat} {cm : ConcurrencyManager} {before : List (Outside × Command)}
    {s : Store} (hbefore : Run (Store.step key) always (.empty cm) before s) {lock : Lock}
    (hlock : s.key.lock = some lock) (hts : lock.ts = startTs) {l : List (Outside × Command)} {s' : Store}
    (hrun : Run (Store.heldStep key startTs) (KeepsPushed key) s l s') {lock' : Lock} (hlock' : s'.key.lock = some lock') :
    lock.ttl ≤ lock'.ttl ∧ lock.minCommitTs ≤ lock'.minCommitTs ∧
    ∀ (s₀ : Store) (out : Outside) (q : CheckTxnStatus) (pushed : Lock),
      s = (s₀.process key out (.checkTxnStatus q)).1 →
      (s₀.process key out (.checkTxnStatus q)).2 = .ok (.txnStatus (.uncommitted pushed true)) →
      q.callerStartTs ≠ tsMax →
      (∀ (c : Command) (commitTs : Nat) (out' : Outside), c.commitOf = some (startTs, commitTs) →
        commitTs ≤ q.callerStartTs → ∃ e, (s'.process key out' c).2 = .error e) ∧
      ∀ (a : Outside × Command) (commitTs : Nat), ¬ CommitAt s'.key.writes commitTs startTs →
        CommitAt (s'.process key a.1 a.2).1.key.writes commitTs startTs → q.callerStartTs < commitTs := by
  have hv := rollbacksAtStart_of_run hbefore (rollbacksAtStart_empty cm)
  have hraised := raisedTo_of_run hrun hv hlock hlock'
  refine ⟨hraised.ttl, hraised.minCommitTs, ?_⟩
  rintro s₀ out q pushed rfl hanswer hcaller
  obtain ⟨hpushed, hlt⟩ := process_pushed hanswer hcaller
  rw [hlock] at hpushed
  cases hpushed
  have hmin := hlt.trans_le hraised.minCommitTs
  have hts' := hraised.ts.trans hts
  refine ⟨fun c commitTs out' hc hle => commitOf_error hlock' hts' hc (hle.trans_lt hmin) out', fun a commitTs hnew h => ?_⟩
  have hv' := hrun.invariant (I := fun s => RollbacksAtStart s.key.writes)
    (fun s a s' hv _ hstep => hstep.1 ▸ hv.effect (process_effect key s a.1 a.2 hv)) hv
  exact hmin.trans_le (minCommitTs_le_of_commitAt hv' hlock' hnew h)

/-! ## A flush over a pushed lock -/

def sampleFlush (generation lockTtl : Nat) : Command :=
  .flush
    { key := [], mutation := .put [], assertion := .none, generation, startTs := 10, primary := [], lockTtl
      assertionLevel := .off, txnSource := 0, canEnableLastChange := false, nexts := 0, isRetryRequest := false }

def sampleCheck : CheckTxnStatus :=
  { startTs := 10, callerStartTs := 20, currentTs := 20, rollbackIfNotExist := false, forceSyncCommit := false
    resolvingPessimisticLock := false, verifyIsPrimary := true }

def flushed : Store := runSample [sampleFlush 1 100, .txnHeartBeat 10 200 0]

def pushedTo21 : Store := runSample [sampleFlush 1 100, .txnHeartBeat 10 200 0, .checkTxnStatus sampleCheck]

theorem run_pushedTo21 : Run (step []) always (.empty (.new 0 0 .log 0 0))
    [(sampleOutside, sampleFlush 1 100), (sampleOutside, .txnHeartBeat 10 200 0),
      (sampleOutside, .checkTxnStatus sampleCheck)] pushedTo21 :=
  .cons trivial rfl (.cons trivial rfl (.cons trivial rfl (.nil _)))

theorem pushed_of_keepsPushed_heartBeat : ∃ s' : Store,
    Run (Store.heldStep [] 10) (KeepsPushed []) pushedTo21 [(sampleOutside, .txnHeartBeat 10 300 0)] s' ∧
    ∃ e, (s'.process [] sampleOutside (.commit 10 15)).2 = .error e := by
  have hrun : Run (heldStep [] 10) (KeepsPushed []) pushedTo21 [(sampleOutside, .txnHeartBeat 10 300 0)] _ :=
    .cons (fun _ _ => .inr trivial) ⟨rfl, _, rfl, rfl⟩ (.nil _)
  refine ⟨_, hrun, ?_⟩
  obtain ⟨_, _, h⟩ := pushed_of_keepsPushed run_pushedTo21 rfl rfl hrun rfl
  exact (h flushed sampleOutside sampleCheck _ rfl rfl (by decide)).1 (.commit 10 15) 15 sampleOutside rfl (by decide)

/-- **The next flush takes the push back**: the lock of the transaction 10, with ttl 200 and pushed to 21 for the reader
20, has ttl 100 and `min_commit_ts` 11 again after it, and the commit at 15 succeeds. -/
theorem not_pushed_flush : ∃ (before : List (Outside × Command)) (lock lock' : Lock) (s' : Store),
    Run (Store.step []) always (.empty (.new 0 0 .log 0 0)) before pushedTo21 ∧
    pushedTo21 = (flushed.process [] sampleOutside (.checkTxnStatus sampleCheck)).1 ∧
    (flushed.process [] sampleOutside (.checkTxnStatus sampleCheck)).2 = .ok (.txnStatus (.uncommitted lock true)) ∧
    sampleCheck.callerStartTs = 20 ∧ pushedTo21.key.lock = some lock ∧ lock.ts = 10 ∧
    Run (Store.heldStep [] 10) always pushedTo21 [(sampleOutside, sampleFlush 2 100)] s' ∧ s'.key.lock = some lock' ∧
    ¬ lock.ttl ≤ lock'.ttl ∧ ¬ lock.minCommitTs ≤ lock'.minCommitTs ∧
    (s'.process [] sampleOutside (.commit 10 15)).2 = .ok (.txnStatus (.committed 15)) :=
  ⟨_, _, _, _, run_pushedTo21, rfl, rfl, rfl, rfl, rfl, .cons trivial ⟨rfl, _, rfl, rfl⟩ (.nil _), rfl, by decide,
    by decide, rfl⟩

end Mvcc
end Tikv
