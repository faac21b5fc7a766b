import Tikv.MvccPessimistic
import Tikv.MvccResolve
/-!
# MvccDead — a rolled-back transaction and its late requests

The rollback of a transaction is recorded in the write column family at its start timestamp.  Where a prewrite looks for
the record depends on its mode, and a mode that looks may still stop at a newer version; `seesRollback` says when the
record is seen.  Acquiring a pessimistic lock and committing always see it.
-/
namespace Tikv
namespace Mvcc

open Lib AcquirePessimisticLock List Prewrite

/-- The write column family says that the transaction `startTs` was rolled back. -/
def RolledBackAt (v : Versions) (startTs : Nat) : Prop := ∃ w, (startTs, w) ∈ v.entries ∧ w.marksRollback = true

/-- The prewrite looks for the rollback of its transaction and does not stop above it: a retried prewrite of a key that is
not locked pessimistically stops at the newest version that is not newer than its `for_update_ts`. -/
def Prewrite.seesRollback (r : Prewrite) (v : Versions) : Prop :=
  r.pessimisticAction = .doPessimisticCheck ∨
  (r.skipConstraintCheck = false ∧
    (r.isPessimistic = true → r.pessimisticAction = .skipPessimisticCheck →
      ∀ e ∈ v.entries, r.startTs < e.1 → r.forUpdateTs < e.1))

/-! ## Prewrite -/

variable {r : Prewrite} {v : Versions} {w : Write}

theorem newerVersionFrom_error (hmarks : w.marksRollback = true) (hskip : r.skipConstraintCheck = false) :
    ∀ l : List (Nat × Write), (l.Pairwise fun a b => b.1 < a.1) → (r.startTs, w) ∈ l →
      (r.isPessimistic = true → r.pessimisticAction = .skipPessimisticCheck →
        ∀ e ∈ l, r.startTs < e.1 → r.forUpdateTs < e.1) →
      ∃ e, newerVersionFrom r v l = .error e
  | [], _, hmem, _ => nomatch hmem
  | (commitTs, write) :: older, hl, hmem, habove => by
    obtain ⟨hhead, htail⟩ := pairwise_cons.1 hl
    unfold newerVersionFrom
    rcases mem_cons.1 hmem with heq | hmem
    · cases heq
      exact ⟨_, if_pos ⟨rfl, hmarks⟩⟩
    have hlt : r.startTs < commitTs := hhead _ hmem
    rw [if_neg fun h => ne_of_gt hlt h.1]
    cases hkind : r.kind with
    | optimistic skip => exact ⟨_, if_pos hlt⟩
    | pessimistic forUpdateTs =>
      dsimp only
      split
      · exact ⟨_, rfl⟩
      rename_i hconstraint
      have hpess : r.isPessimistic = true := by rw [isPessimistic, hkind]
      -- the two other actions skip the check, or fail on any newer version
      have hact : r.pessimisticAction = .skipPessimisticCheck := by
        cases hact : r.pessimisticAction with
        | skipPessimisticCheck => rfl
        | doPessimisticCheck => simp [skipConstraintCheck, hkind, hact] at hskip
        | doConstraintCheck => exact absurd ⟨hact, hlt⟩ hconstraint
      have hnewer : forUpdateTs < commitTs := by
        have h := habove hpess hact _ mem_cons_self hlt
        rwa [Prewrite.forUpdateTs, hkind] at h
      rw [if_pos hnewer]
      split
      · exact newerVersionFrom_error hmarks hskip older htail hmem fun hp ha e he =>
          habove hp ha e (mem_cons_of_mem _ he)
      · exact ⟨_, rfl⟩

theorem newestWrite_of_mem {t : Nat} (h : (t, w) ∈ v.entries) :
    ∃ commitTs write, newestWrite v = some (commitTs, write) ∧ (commitTs, write) ∈ v.entries ∧ t ≤ commitTs := by
  obtain ⟨l, hl⟩ := v
  cases l with
  | nil => cases h
  | cons e older =>
    refine ⟨e.1, e.2, rfl, mem_cons_self, ?_⟩
    rcases mem_cons.1 h with heq | hmem
    · rw [← heq]
    · exact le_of_lt ((pairwise_cons.1 hl).1 _ hmem)

theorem checkForNewerVersion_error (hdead : RolledBackAt v r.startTs) (hskip : r.skipConstraintCheck = false)
    (habove : r.isPessimistic = true → r.pessimisticAction = .skipPessimisticCheck →
      ∀ e ∈ v.entries, r.startTs < e.1 → r.forUpdateTs < e.1) : ∃ e, checkForNewerVersion r v = .error e := by
  obtain ⟨w, hmem, hmarks⟩ := hdead
  obtain ⟨commitTs, write, hnewest, _, _⟩ := newestWrite_of_mem hmem
  obtain ⟨e, he⟩ := newerVersionFrom_error (v := v) hmarks hskip v.entries v.sorted hmem habove
  unfold checkForNewerVersion
  rw [hnewest]
  dsimp only
  split
  · exact ⟨_, rfl⟩
  split
  · exact ⟨_, rfl⟩
  rw [he]
  exact ⟨e, rfl⟩

theorem amendPessimisticLock_error (hdead : RolledBackAt v r.startTs) : ∃ e, r.amendPessimisticLock v = .error e := by
  obtain ⟨w, hmem, _⟩ := hdead
  obtain ⟨commitTs, write, hnewest, _, hle⟩ := newestWrite_of_mem hmem
  unfold amendPessimisticLock
  rw [hnewest]
  exact ⟨_, if_pos hle⟩

variable {k : KeyState}

/-- **No check of a dead transaction's prewrite passes**, in a mode that sees the rollback. -/
theorem check_error (hdead : RolledBackAt k.writes r.startTs)
    (hlock : ∀ lock, k.lock = some lock → lock.ts ≠ r.startTs) (hsees : r.seesRollback k.writes) :
    ∃ e, r.check k = .error e := by
  unfold check
  cases hstatus : r.lockStatus k with
  | error e => exact ⟨e, rfl⟩
  | ok found =>
    obtain ⟨status, pending, amended⟩ := found
    -- the key is not locked, so the checks go on with its versions
    have hnone : status = .none := by
      cases (findsLock hstatus).1 with
      | pessimistic hk hts _ _ | locked hk hts _ _ _ => exact absurd hts (hlock _ hk)
      | none _ _ _ => rfl
    subst hnone
    rcases hsees with hact | ⟨hskip, habove⟩
    · cases (findsLock hstatus).1 with
      | none _ hamend _ =>
        obtain ⟨lastChange, hok⟩ := hamend hact
        obtain ⟨e, he⟩ := amendPessimisticLock_error hdead
        rw [he] at hok
        cases hok
    · cases hversions : r.checkVersions k.writes .none pending amended with
      | error e => exact ⟨e, hversions⟩
      | ok checked =>
        obtain ⟨_, _, hnewer⟩ := checkVersions_ok hversions
        obtain ⟨found, hfound⟩ := hnewer hskip
        obtain ⟨e, he⟩ := checkForNewerVersion_error hdead hskip habove
        rw [he] at hfound
        cases hfound

theorem prewriteWithGeneration_error (cm : ConcurrencyManager) (out : Outside) (hcheck : ∃ e, r.check k = .error e) :
    ∃ e, (prewriteWithGeneration r cm out k).2 = ⟨[], none, .error e⟩ := by
  obtain ⟨e, he⟩ := hcheck
  have hspec := (prewriteWithGeneration_spec r cm out k).2
  generalize prewriteWithGeneration r cm out k = res at hspec ⊢
  cases hspec with
  | failed => exact ⟨_, rfl⟩
  | duplicate hcheck | checked hcheck _ _ | writes hcheck => cases he.symm.trans hcheck

/-! ## Pessimistic locks and commits -/

variable {q : AcquirePessimisticLock}

theorem checkRolledBack_error (hdead : RolledBackAt v q.startTs)
    {commitTs : Nat} {write : Write} (hmem : (commitTs, write) ∈ v.entries) (hle : q.startTs ≤ commitTs) :
    ∃ e, q.checkRolledBack v commitTs write = .error e := by
  obtain ⟨w, hw, hmarks⟩ := hdead
  unfold checkRolledBack
  split
  · split <;> exact ⟨_, rfl⟩
  rename_i hnewest
  rcases lt_or_eq_of_le hle with hlt | heq
  · have hseek : seekWrite v q.startTs = some (q.startTs, w) :=
      Chain.seek_eq_some.2 ⟨hw, le_rfl, fun _ _ h => h⟩
    rw [if_pos hlt, hseek]
    exact ⟨_, if_pos ⟨rfl, hmarks⟩⟩
  · subst heq
    rw [Chain.eq_of_mem hmem hw] at hnewest
    exact absurd ⟨rfl, hmarks⟩ hnewest

theorem acquire_error (cm : ConcurrencyManager) (out : Outside)
    (hdead : RolledBackAt k.writes q.startTs) (hlock : ∀ lock, k.lock = some lock → lock.ts ≠ q.startTs) :
    ∃ e, (q.run cm out k).2 = .error e := by
  unfold run
  split
  · exact ⟨_, rfl⟩
  generalize (if (q.shouldNotExist || q.needValue || q.needCheckExistence) = true then
    cm.updateMaxTs out q.forUpdateTs else (cm, .ok ())) = published
  obtain ⟨cm', updated⟩ := published
  cases updated with
  | error e => exact ⟨e, rfl⟩
  | ok _ =>
    cases hk : k.lock with
    | some lock => exact ⟨_, if_pos (hlock lock hk)⟩
    | none =>
      obtain ⟨w, hmem, hmarks⟩ := hdead
      obtain ⟨commitTs, write, hnewest, hmem', hle⟩ := newestWrite_of_mem hmem
      obtain ⟨e, he⟩ := checkRolledBack_error (q := q) ⟨w, hmem, hmarks⟩ hmem' hle
      dsimp only [noLock]
      rw [hnewest]
      dsimp only [overVersion]
      split
      · exact ⟨_, rfl⟩
      rename_i hread
      rw [he] at hread
      split at hread <;> cases hread

theorem commit_error {startTs : Nat} (hlock : ∀ lock, k.lock = some lock → lock.ts ≠ startTs)
    (hrecords : ∀ e ∈ k.writes.entries, e.2.startTs = startTs → e.2.writeType = .rollback) (commitTs : Nat) :
    commit k startTs commitTs = .error (.txnLockNotFound commitTs) := by
  unfold commit
  rw [ownLock_eq_none.2 hlock]
  have hfinds := findsRecord k.writes startTs
  generalize getTxnCommitRecord k.writes startTs = record at hfinds ⊢
  cases hfinds with
  | single hmem hstart =>
    dsimp only [TxnCommitRecord.info]
    rw [hrecords _ hmem hstart]
  | _ => rfl

/-! ## The dead stay dead -/

/-- **A rolled-back transaction stays dead.** -/
theorem dead_of_rolledBack {k : KeyState} {startTs : Nat} (hdead : RolledBackAt k.writes startTs)
    (hlock : ∀ lock, k.lock = some lock → lock.ts ≠ startTs) (cm : ConcurrencyManager) (out : Outside) :
    (∀ r : Prewrite, r.startTs = startTs → r.seesRollback k.writes →
      ∃ e, (prewriteWithGeneration r cm out k).2 = ⟨[], none, .error e⟩) ∧
    (∀ q : AcquirePessimisticLock, q.startTs = startTs → ∃ e, (q.run cm out k).2 = .error e) ∧
    ((∀ e ∈ k.writes.entries, e.2.startTs = startTs → e.2.writeType = .rollback) →
      ∀ commitTs, ∃ e, commit k startTs commitTs = .error e) := by
  refine ⟨?_, ?_, ?_⟩
  · rintro r rfl hsees
    exact prewriteWithGeneration_error cm out (check_error hdead hlock hsees)
  · rintro q rfl
    exact acquire_error cm out hdead hlock
  · intro hrecords commitTs
    exact ⟨_, commit_error hlock hrecords commitTs⟩

def rolledBackTen : KeyState := { KeyState.empty with writes := Chain.empty.insert 10 (Write.newRollback 10 true) }

theorem dead_of_rolledBack_ten : RolledBackAt rolledBackTen.writes 10 ∧
    (∃ e, (prewriteWithGeneration (samplePut 10) (.new 0 0 .log 0 0) ⟨0, none⟩ rolledBackTen).2 = ⟨[], none, .error e⟩) ∧
    ∃ e, commit rolledBackTen 10 11 = .error e := by
  have hdead : RolledBackAt rolledBackTen.writes 10 := ⟨Write.newRollback 10 true, mem_cons_self, rfl⟩
  have hrecords : ∀ e ∈ rolledBackTen.writes.entries, e.2.startTs = 10 → e.2.writeType = .rollback := by
    intro e he _
    cases mem_singleton.1 he
    rfl
  obtain ⟨hprewrite, _, hcommit⟩ := dead_of_rolledBack hdead nofun (.new 0 0 .log 0 0) ⟨0, none⟩
  exact ⟨hdead, hprewrite (samplePut 10) rfl (.inr ⟨rfl, nofun⟩), hcommit hrecords 11⟩

/-- **A prewrite that skips the check comes back to life**: one of a pessimistic transaction, of a key it has not locked,
is locked although its rollback is there to be seen. -/
theorem not_dead_of_skipped : ¬ ∀ (k : KeyState) (startTs : Nat) (cm : ConcurrencyManager) (out : Outside) (r : Prewrite),
    RolledBackAt k.writes startTs → (∀ lock, k.lock = some lock → lock.ts ≠ startTs) → r.startTs = startTs →
    ∃ e, (prewrite r cm out k).2 = ⟨[], none, .error e⟩ := by
  intro h
  obtain ⟨e, he⟩ := h rolledBackTen 10 (.new 0 0 .log 0 0) ⟨0, none⟩ { samplePut 10 with kind := .pessimistic 20 }
    ⟨Write.newRollback 10 true, mem_cons_self, rfl⟩ nofun rfl
  cases congrArg Prewritten.result he

end Mvcc
end Tikv
