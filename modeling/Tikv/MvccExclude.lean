import Tikv.MvccDead
import Tikv.MvccEffect
import Tikv.MvccVisible
/-!
# MvccExclude — commit and rollback of one transaction on one key

An account of a key is its store together with the transactions that have been committed on it and those that have been
answered to be rolled back.  A rollback need not leave a record of its own, but it leaves one at or above the start
timestamp; that is what stops a late prewrite of the transaction, if its mode looks for newer versions.
-/
namespace Tikv
namespace Mvcc

open Lib List Write Chain

/-! ## Histories with their outcomes -/

def CommittedAt (v : Versions) (startTs : Nat) : Prop :=
  ∃ e ∈ v.entries, e.2.startTs = startTs ∧ e.2.writeType ≠ .rollback

def CommitAt (v : Versions) (p t : Nat) : Prop := ∃ w, (p, w) ∈ v.entries ∧ w.startTs = t ∧ w.writeType ≠ .rollback

def commitStarts (v : Versions) : List Nat := (v.entries.filter fun e => e.2.writeType ≠ .rollback).map (·.2.startTs)

variable {startTs : Nat} {v : Versions}

theorem committedAt_iff : CommittedAt v startTs ↔ ∃ p, CommitAt v p startTs :=
  ⟨fun ⟨e, he⟩ => ⟨e.1, e.2, he⟩, fun ⟨p, w, hw⟩ => ⟨(p, w), hw⟩⟩

theorem mem_commitStarts : startTs ∈ commitStarts v ↔ CommittedAt v startTs := by
  unfold commitStarts
  simp only [mem_map, mem_filter, decide_eq_true_eq]
  constructor
  · rintro ⟨e, ⟨he, htype⟩, rfl⟩
    exact ⟨e, he, rfl, htype⟩
  · rintro ⟨e, he, rfl, htype⟩
    exact ⟨e, ⟨he, htype⟩, rfl⟩

structure Account where
  store : Store
  committed : List Nat
  rolledBack : List Nat

def Command.committedIn (c : Command) : Except MvccError Response → Option Nat
  | .ok _ => c.commitOf.map (·.1)
  | .error _ => none

/-- `commitTs` gives every transaction its commit timestamp: the commit records stand there. -/
def AtCommitTs (commitTs : Nat → Nat) (v : Versions) : Prop :=
  ∀ e ∈ v.entries, e.2.writeType ≠ .rollback → e.1 = commitTs e.2.startTs

structure Account.step (key : Bytes) (commitTs : Nat → Nat) (h : Account) (a : Outside × Command) (h' : Account) :
    Prop where
  store : h'.store = (h.store.process key a.1 a.2).1
  committed : h'.committed =
    (a.2.committedIn (h.store.process key a.1 a.2).2).toList ++ commitStarts h'.store.key.writes ++ h.committed
  rolledBack : h'.rolledBack = (a.2.rolledBackIn (h.store.process key a.1 a.2).2).toList ++ h.rolledBack
  timestamps : AtCommitTs commitTs h'.store.key.writes

def Account.empty (cm : ConcurrencyManager) : Account := ⟨.empty cm, [], []⟩

/-- Prewrite, commit, cleanup, rollback, `CheckTxnStatus`, `CheckSecondaryLocks`, resolving, heartbeats and reads; no
command takes a pessimistic lock, so `ResolveLock` finds none. -/
def Command.listed : Command → Bool
  | .flush _ | .acquirePessimisticLock _ | .pessimisticRollback .. => false
  | .resolveLock _ _ pessimistic => !pessimistic
  | _ => true

/-- The prewrite fails on any version that is newer than its transaction. -/
def Prewrite.checksNewer (r : Prewrite) : Prop :=
  r.pessimisticAction = .doPessimisticCheck ∨
  (r.skipConstraintCheck = false ∧ (r.isPessimistic = true → r.pessimisticAction = .doConstraintCheck))

/-- A late prewrite of a transaction that is committed or rolled back checks for newer versions, and does not find an
unmarked commit record of another transaction at its start timestamp. -/
def Fresh (h : Account) (a : Outside × Command) : Prop :=
  ∀ r others, a.2 = .prewrite r others →
    (r.startTs ∈ h.committed → r.checksNewer) ∧
    (r.startTs ∈ h.rolledBack → r.checksNewer ∧ ∀ w, (r.startTs, w) ∈ h.store.key.writes.entries →
      w.marksRollback = true ∨ r.pessimisticAction = .doPessimisticCheck)

/-! ## Late prewrites -/

variable {r : Prewrite} {older : List (Nat × Write)} {write : Write}

theorem newest_le_of_newerVersionFrom {commitTs : Nat} {found : Option (Write × Nat)}
    (hact : r.isPessimistic = true → r.pessimisticAction = .doConstraintCheck)
    (h : newerVersionFrom r v ((commitTs, write) :: older) = .ok found) :
    commitTs ≤ r.startTs ∧ (commitTs = r.startTs → write.marksRollback = false) := by
  unfold newerVersionFrom at h
  split at h
  · cases h
  rename_i hself
  refine ⟨?_, fun heq => Bool.eq_false_iff.2 fun hmarks => hself ⟨heq, hmarks⟩⟩
  by_contra hlt
  rw [not_le] at hlt
  cases hkind : r.kind with
  | optimistic skip =>
    rw [hkind] at h
    dsimp only at h
    rw [if_pos hlt] at h
    cases h
  | pessimistic forUpdateTs =>
    have hpess : r.isPessimistic = true := by rw [Prewrite.isPessimistic, hkind]
    rw [hkind] at h
    dsimp only at h
    rw [if_pos ⟨hact hpess, hlt⟩] at h
    cases h

theorem head_max {e : Nat × Write}
    (h : (e :: older).Pairwise fun a b => b.1 < a.1) : ∀ e' ∈ e :: older, e' = e ∨ e'.1 < e.1 :=
  forall_mem_cons.2 ⟨.inl rfl, fun e' he' => .inr ((pairwise_cons.1 h).1 e' he')⟩

variable {k : KeyState} {status : LockStatus} {pending : Pending}

theorem below_of_check (hchecks : r.checksNewer) (hlock : k.lock = none) (h : r.check k = .ok (.pass status pending)) :
    ∀ e ∈ k.writes.entries, e.1 ≤ r.startTs ∧
      (e.1 = r.startTs → e.2.marksRollback = false ∧ r.pessimisticAction ≠ .doPessimisticCheck) := by
  obtain ⟨hfinds, hnewer, _⟩ := check_pass h
  have hamend : r.pessimisticAction = .doPessimisticCheck →
      ∃ lastChange, r.amendPessimisticLock k.writes = .ok lastChange := by
    cases hfinds with
    | pessimistic hk _ _ _ | locked hk _ _ _ _ => rw [hlock] at hk; cases hk
    | none _ hamend _ => exact hamend
  generalize k.writes = v at hnewer hamend ⊢
  obtain ⟨l, hl⟩ := v
  cases l with
  | nil => nofun
  | cons newest older =>
    obtain ⟨commitTs, write⟩ := newest
    by_cases hact : r.pessimisticAction = .doPessimisticCheck
    · -- the lost lock was amended, so that the newest version is older than the transaction
      obtain ⟨lastChange, hok⟩ := hamend hact
      have hlt : commitTs < r.startTs := by
        dsimp only [Prewrite.amendPessimisticLock, newestWrite, head?_cons] at hok
        split at hok
        · cases hok
        · omega
      intro e he
      rcases head_max hl e he with rfl | hlt'
      · exact ⟨le_of_lt hlt, fun heq => absurd heq (ne_of_lt hlt)⟩
      · exact ⟨le_of_lt (hlt'.trans hlt), fun heq => absurd heq (ne_of_lt (hlt'.trans hlt))⟩
    · obtain ⟨hskip, hconstraint⟩ := hchecks.resolve_left hact
      obtain ⟨found, hfound⟩ := hnewer hskip
      have hnewest : commitTs ≤ r.startTs ∧ (commitTs = r.startTs → write.marksRollback = false) := by
        dsimp only [checkForNewerVersion, newestWrite, head?_cons] at hfound
        split at hfound
        · cases hfound
        split at hfound
        · cases hfound
        obtain ⟨res, hfrom, -⟩ := map_ok hfound
        exact newest_le_of_newerVersionFrom hconstraint hfrom
      intro e he
      rcases head_max hl e he with rfl | hlt
      · exact ⟨hnewest.1, fun heq => ⟨hnewest.2 heq, hact⟩⟩
      exact ⟨by omega, fun heq => by omega⟩

/-! ## The invariant -/

/-- Committed and rolled-back transactions are not locked, keep apart, and leave what stops their late prewrites. -/
structure Exclusive (commitTs : Nat → Nat) (h : Account) : Prop where
  rollbacks : RollbacksAtStart h.store.key.writes
  timestamps : AtCommitTs commitTs h.store.key.writes
  fences : ∀ e ∈ h.store.key.writes.entries, e.2.hasOverlappedRollback = false → e.2.gcFence = none
  locked : ∀ lock, h.store.key.lock = some lock → lock.isPessimisticLock = false ∧
    ¬ CommittedAt h.store.key.writes lock.ts ∧ lock.ts ∉ h.rolledBack ∧ ∀ t ∈ lock.rollbackTs, t ∈ h.rolledBack
  recorded : ∀ t, CommittedAt h.store.key.writes t → t ∈ h.committed
  committed : ∀ t ∈ h.committed, CommittedAt h.store.key.writes t
  rolledBack : ∀ t ∈ h.rolledBack, ¬ CommittedAt h.store.key.writes t ∧ ∃ e ∈ h.store.key.writes.entries, t ≤ e.1
  marked : ∀ t, RolledBackAt h.store.key.writes t → t ∈ h.rolledBack

variable {commitTs : Nat → Nat}

theorem exclusive_empty (cm : ConcurrencyManager) : Exclusive commitTs (.empty cm) :=
  ⟨nofun, nofun, nofun, nofun, fun _ ⟨_, he, _⟩ => (nomatch he), nofun, nofun, fun _ ⟨_, hw, _⟩ => (nomatch hw)⟩

theorem rolledBackAt_of_isRollback (hv : RollbacksAtStart v)
    (h : (getTxnCommitRecord v startTs).isRollback = true) : RolledBackAt v startTs := by
  have hfinds := findsRecord v startTs
  generalize getTxnCommitRecord v startTs = record at h hfinds
  cases hfinds with
  | @single position write hmem hstart =>
    have htype : write.writeType = .rollback := of_decide_eq_true h
    have hpos : startTs = position := hstart.symm.trans (hv _ hmem htype)
    refine ⟨write, hpos ▸ hmem, ?_⟩
    unfold marksRollback
    rw [decide_eq_true htype, Bool.true_or]
  | overlappedRollback hmem _ hflag _ =>
    refine ⟨_, hmem, ?_⟩
    unfold marksRollback
    rw [hflag, Bool.or_true]
  | overlapped | none => cases h

variable {overlapped : Option OverlappedWrite}

theorem not_committedAt_of_none (hv : AtCommitTs commitTs v) (hts : ∀ t, t < commitTs t)
    (hrec : getTxnCommitRecord v startTs = .none overlapped) :
    ¬ CommittedAt v startTs := by
  rintro ⟨e, he, hstart, htype⟩
  refine startTs_ne_of_le hrec e he ?_ hstart
  rw [hv e he htype, hstart]
  exact le_of_lt (hts startTs)

/-! ## What the account adds -/

structure Records (h h' : Account) : Prop where
  recorded : ∀ t, CommittedAt h'.store.key.writes t → t ∈ h'.committed
  committed : ∀ t ∈ h'.committed, t ∈ h.committed ∨ CommittedAt h'.store.key.writes t

variable {h' h : Account}

theorem Exclusive.frame (hex : Exclusive commitTs h) (hrec : Records h h')
    (hwrites : h'.store.key.writes = h.store.key.writes) (hrolled : ∀ t, t ∈ h'.rolledBack ↔ t ∈ h.rolledBack)
    (hlock : ∀ lock', h'.store.key.lock = some lock' →
      (∃ lock, h.store.key.lock = some lock ∧ lock'.ts = lock.ts ∧ lock'.lockType = lock.lockType ∧
        lock'.rollbackTs = lock.rollbackTs) ∨
      (lock'.isPessimisticLock = false ∧ ¬ CommittedAt h.store.key.writes lock'.ts ∧ lock'.ts ∉ h.rolledBack ∧
        lock'.rollbackTs = [])) : Exclusive commitTs h' := by
  have hcommitted := hrec.committed
  constructor
  · rw [hwrites]
    exact hex.rollbacks
  · rw [hwrites]
    exact hex.timestamps
  · rw [hwrites]
    exact hex.fences
  · intro lock' hl
    rw [hwrites, hrolled]
    rcases hlock lock' hl with ⟨lock, hk, hts, htype, hmarks⟩ | ⟨hpess, hcom, hnot, hmarks⟩
    · obtain ⟨h₁, h₂, h₃, h₄⟩ := hex.locked lock hk
      refine ⟨?_, hts ▸ h₂, hts ▸ h₃, fun t ht => (hrolled t).2 (h₄ t (hmarks ▸ ht))⟩
      unfold Lock.isPessimisticLock at h₁ ⊢
      rwa [htype]
    · exact ⟨hpess, hcom, hnot, fun t ht => by rw [hmarks] at ht; cases ht⟩
  · exact hrec.recorded
  · intro t ht
    rcases hcommitted t ht with ht | ht
    · rw [hwrites]
      exact hex.committed t ht
    · exact ht
  · intro t ht
    rw [hwrites]
    exact hex.rolledBack t ((hrolled t).1 ht)
  · intro t ht
    rw [hwrites] at ht
    exact (hrolled t).2 (hex.marked t ht)

/-! ## Commits -/

variable {position t : Nat} {w : Write}

theorem committedAt_insert (h : CommittedAt (v.insert position w) t) : CommittedAt v t ∨ w.startTs = t := by
  obtain ⟨e, he, hstart, htype⟩ := h
  rcases mem_insert.1 he with rfl | ⟨he, _⟩
  · exact .inr hstart
  · exact .inl ⟨e, he, hstart, htype⟩

theorem rolledBackAt_insert (h : RolledBackAt (v.insert position w) t) :
    RolledBackAt v t ∨ (t = position ∧ w.marksRollback = true) := by
  obtain ⟨w', hw', hmarks⟩ := h
  rcases mem_insert.1 hw' with heq | ⟨hw', _⟩
  · cases heq
    exact .inr ⟨rfl, hmarks⟩
  · exact .inl ⟨w', hw', hmarks⟩

theorem Exclusive.insert (hex : Exclusive commitTs h) (hinj : Function.Injective commitTs)
    (hrec : Records h h') (hts' : AtCommitTs commitTs h'.store.key.writes)
    (hlock : h'.store.key.lock = none) (hwrites : h'.store.key.writes = h.store.key.writes.insert position w)
    (hrolled : ∀ t, t ∈ h'.rolledBack ↔ t ∈ h.rolledBack) (htype : w.writeType ≠ .rollback)
    (hnot : w.startTs ∉ h.rolledBack) (hfence : w.gcFence = none)
    (hmarks : w.hasOverlappedRollback = true → position ∈ h.rolledBack) : Exclusive commitTs h' := by
  have hnew : (position, w) ∈ h'.store.key.writes.entries := by
    rw [hwrites]
    exact mem_insert.2 (.inl rfl)
  have hkeep : ∀ t, CommittedAt h.store.key.writes t → CommittedAt h'.store.key.writes t := by
    rintro t ⟨e, he, hstart, hetype⟩
    by_cases hpos : e.1 = position
    · -- the record in its place is of the transaction with the same commit timestamp
      have hsame : commitTs t = commitTs w.startTs := by
        rw [← hstart, ← hex.timestamps e he hetype, hpos]
        exact hts' _ hnew htype
      exact ⟨_, hnew, (hinj hsame).symm, htype⟩
    · refine ⟨e, ?_, hstart, hetype⟩
      rw [hwrites]
      exact mem_insert.2 (.inr ⟨he, hpos⟩)
  constructor
  · rw [hwrites]
    exact hex.rollbacks.insert htype
  · exact hts'
  · rw [hwrites]
    exact forall_mem_insert (fun _ => hfence) fun e he _ => hex.fences e he
  · intro lock hl
    rw [hlock] at hl
    cases hl
  · exact hrec.recorded
  · intro t ht
    rcases hrec.committed t ht with ht | ht
    · exact hkeep t (hex.committed t ht)
    · exact ht
  · intro t ht
    rw [hrolled] at ht
    obtain ⟨hcom, e, he, hle⟩ := hex.rolledBack t ht
    refine ⟨fun hc => ?_, ?_⟩
    · rw [hwrites] at hc
      rcases committedAt_insert hc with hc | rfl
      · exact hcom hc
      · exact hnot ht
    · by_cases hpos : e.1 = position
      · exact ⟨_, hnew, hpos ▸ hle⟩
      refine ⟨e, ?_, hle⟩
      rw [hwrites]
      exact mem_insert.2 (.inr ⟨he, hpos⟩)
  · intro t ht
    rw [hwrites] at ht
    rw [hrolled]
    rcases rolledBackAt_insert ht with ht | ⟨rfl, hw⟩
    · exact hex.marked t ht
    refine hmarks ?_
    unfold marksRollback at hw
    rwa [decide_eq_false htype] at hw

/-! ## Rollbacks -/

section

variable {v v' : Versions} {startTs : Nat} (hundone : Undone v v' startTs)
include hundone

theorem Undone.commitAt : CommitAt v' = CommitAt v := by
  ext p t
  constructor
  · rintro ⟨w, hw, hstart, htype⟩
    rcases hundone.sub _ hw with hmem | ⟨heq, hnew⟩
    · exact ⟨w, hmem, hstart, htype⟩
    obtain rfl : p = startTs := heq
    obtain ⟨_, rfl⟩ | ⟨_, _, hmarks⟩ := hnew
    · exact absurd rfl htype
    · obtain rfl : w = _ := hmarks.eq
      exact ⟨_, hmarks.mem, hstart, htype⟩
  · rintro ⟨w, hw, hstart, htype⟩
    rcases hundone.keep _ hw with hmem | ⟨htype', _⟩ | ⟨rfl, _, _, hmem, hmarks⟩
    · exact ⟨w, hmem, hstart, htype⟩
    · exact absurd htype' htype
    · exact ⟨_, hmem, by rw [hmarks.eq]; exact hstart, by rw [hmarks.eq]; exact htype⟩

theorem Undone.committedAt : CommittedAt v' t ↔ CommittedAt v t := by
  simp only [committedAt_iff, hundone.commitAt]

theorem Undone.rolledBackAt (h : RolledBackAt v' t) : RolledBackAt v t ∨ t = startTs := by
  obtain ⟨w, hw, hmarks⟩ := h
  rcases hundone.sub _ hw with hmem | ⟨heq, _⟩
  · exact .inl ⟨w, hmem, hmarks⟩
  · exact .inr heq

theorem Undone.above (hr : RollbacksAtStart v) (h : ∃ e ∈ v.entries, t ≤ e.1) : ∃ e ∈ v'.entries, t ≤ e.1 := by
  obtain ⟨e, he, hle⟩ := h
  obtain ⟨w, hw⟩ := hundone.start hr
  rcases hundone.keep e he with hmem | ⟨_, _, hlt⟩ | ⟨heq, _⟩
  · exact ⟨e, hmem, hle⟩
  · exact ⟨_, hw, hle.trans (le_of_lt hlt)⟩
  · exact ⟨_, hw, heq ▸ hle⟩

theorem Undone.fences (hfences : ∀ e ∈ v.entries, e.2.hasOverlappedRollback = false → e.2.gcFence = none) :
    ∀ e ∈ v'.entries, e.2.hasOverlappedRollback = false → e.2.gcFence = none := by
  intro e he hflag
  rcases hundone.sub e he with hmem | ⟨_, ⟨_, hw⟩ | ⟨_, _, hmarks⟩⟩
  · exact hfences e hmem hflag
  · rw [hw]
    rfl
  · rw [hmarks.eq] at hflag
    cases hflag

end

variable {c : Command} {key : Bytes}

theorem Exclusive.rolledBack_step (hex : Exclusive commitTs h) (hts : ∀ t, t < commitTs t) (hrec : Records h h')
    (hts' : AtCommitTs commitTs h'.store.key.writes) (hrolls : RollbacksAtStart h'.store.key.writes)
    (hrolled : h'.rolledBack = startTs :: h.rolledBack)
    (heff : RolledBack key h.store.key c startTs h'.store.key) : Exclusive commitTs h' := by
  cases heff with
  | already hrec' _ hsame =>
    have hmem := hex.marked startTs (rolledBackAt_of_isRollback hex.rollbacks hrec')
    refine hex.frame hrec (by rw [hsame]) (fun t => ?_) fun lock' hl => .inl ⟨lock', ?_, rfl, rfl, rfl⟩
    · rw [hrolled, mem_cons]
      exact ⟨fun h => h.elim (fun heq => heq ▸ hmem) id, .inr⟩
    · rwa [hsame] at hl
  | unlock hold hlts hrec' _ _ =>
    have hmem := hex.marked startTs (rolledBackAt_of_isRollback hex.rollbacks hrec')
    exact absurd hmem (hlts ▸ (hex.locked _ hold).2.2.1)
  | now hrec' hmake _ hlock hwrites =>
    have hundone := hwrites.undone hrec' hmake
    have hcom : ∀ {t}, CommittedAt h'.store.key.writes t ↔ CommittedAt h.store.key.writes t := hundone.committedAt
    have hnot := not_committedAt_of_none hex.timestamps hts hrec'
    have hmem : ∀ {t}, t ∈ h.rolledBack → t ∈ h'.rolledBack := fun ht => hrolled ▸ mem_cons_of_mem _ ht
    have hself : startTs ∈ h'.rolledBack := hrolled ▸ mem_cons_self
    -- a lock that stays is another transaction's
    have hstays : ∀ {lock : Lock}, h.store.key.lock = some lock → lock.ts ≠ startTs →
        lock.isPessimisticLock = false ∧ ¬ CommittedAt h'.store.key.writes lock.ts ∧ lock.ts ∉ h'.rolledBack ∧
          ∀ t ∈ lock.rollbackTs, t ∈ h'.rolledBack := by
      intro lock hl hne
      obtain ⟨h₁, h₂, h₃, h₄⟩ := hex.locked lock hl
      refine ⟨h₁, fun hc => h₂ (hcom.1 hc), fun hm => ?_, fun t ht => hmem (h₄ t ht)⟩
      rw [hrolled, mem_cons] at hm
      exact hm.elim hne h₃
    constructor
    · exact hrolls
    · exact hts'
    · exact hundone.fences hex.fences
    · intro lock' hl
      generalize hk : h.store.key.lock = lock₀ at hlock
      rw [hl] at hlock
      cases hlock with
      | other hne _ | overlapped hne _ _ => exact hstays hk (hne _ rfl)
      | @mark lock hne _ =>
        obtain ⟨h₁, h₂, h₃, h₄⟩ := hstays hk hne
        exact ⟨h₁, h₂, h₃, forall_mem_append.2 ⟨h₄, forall_mem_singleton.2 hself⟩⟩
    · exact hrec.recorded
    · intro t ht
      exact (hrec.committed t ht).elim (fun ht => hcom.2 (hex.committed t ht)) id
    · intro t ht
      rw [hrolled, mem_cons] at ht
      rcases ht with rfl | ht
      · obtain ⟨w, hw⟩ := hundone.start hex.rollbacks
        exact ⟨fun hc => hnot (hcom.1 hc), _, hw, le_rfl⟩
      obtain ⟨hc, habove⟩ := hex.rolledBack t ht
      exact ⟨fun h => hc (hcom.1 h), hundone.above hex.rollbacks habove⟩
    · intro t ht
      rcases hundone.rolledBackAt ht with ht | rfl
      · exact hmem (hex.marked t ht)
      · exact hself

theorem Exclusive.quiet_step (hex : Exclusive commitTs h) (hrec : Records h h')
    (hrolled : h'.rolledBack = h.rolledBack) (heff : Quiet h.store.key h'.store.key) : Exclusive commitTs h' := by
  have hmem : ∀ t, t ∈ h'.rolledBack ↔ t ∈ h.rolledBack := fun t => by rw [hrolled]
  cases heff with
  | same hlock hwrites =>
    refine hex.frame hrec hwrites hmem fun lock' hl => .inl ⟨lock', ?_, rfl, rfl, rfl⟩
    rwa [hlock] at hl
  | raise hold _ hlock hwrites =>
    refine hex.frame hrec hwrites hmem fun lock' hl => .inl ⟨_, hold, ?_⟩
    rw [hlock] at hl
    cases hl
    exact ⟨rfl, rfl, rfl⟩
  | unlock hlock hwrites =>
    refine hex.frame hrec hwrites hmem fun lock' hl => ?_
    rw [hlock] at hl
    cases hl

/-! ## Answers to a commit -/

theorem committedAt_of_info {writeType : WriteType}
    (h : (getTxnCommitRecord v startTs).info = some (position, writeType)) (htype : writeType ≠ .rollback) :
    CommittedAt v startTs := by
  have hfinds := findsRecord v startTs
  generalize getTxnCommitRecord v startTs = record at h hfinds
  cases hfinds with
  | single hmem hstart =>
    cases h
    exact ⟨_, hmem, hstart, htype⟩
  | overlappedRollback _ _ _ _ =>
    cases h
    exact absurd rfl htype
  | overlapped | none => cases h

variable {ms : List Modify}

section

variable (hpess : ∀ lock, k.lock = some lock → lock.isPessimisticLock = false)
include hpess

theorem committedAt_of_commit {released : Bool} (h : commit k startTs position = .ok (ms, released)) :
    CommittedAt (k.apply ms).writes startTs := by
  unfold commit at h
  split at h
  · rename_i lock hown
    obtain ⟨hold, hts⟩ := ownLock_eq_some.1 hown
    split at h
    · cases h
    split at h
    · rename_i htype
      exact absurd htype (Lock.fromLockType_ne_none (hpess lock hold))
    rename_i writeType htype
    cases h
    exact ⟨_, mem_insert.2 (.inl rfl), startTs_commitRecord.trans hts, commitRecord_ne_rollback htype⟩
  · split at h
    · cases h
    · cases h
    all_goals
      rename_i hinfo
      cases h
      exact committedAt_of_info hinfo nofun

omit hpess in
theorem finish_ok {s : Store} {α : Type} {res : Except MvccError (List Modify × α)} {answer : α → Response}
    {a : Response} (h : (s.finish res answer).2 = .ok a) :
    ∃ ms b, res = .ok (ms, b) ∧ (s.finish res answer).1 = s.write ms := by
  unfold Store.finish at h ⊢
  split at h
  · exact ⟨_, _, rfl, rfl⟩
  · cases h

theorem committedAt_of_resolve (hpos : position ≠ 0)
    (h : resolve key k startTs position = .ok ms) : CommittedAt (k.apply ms).writes startTs := by
  unfold resolve at h
  rw [if_neg hpos] at h
  obtain ⟨res, hcommit, rfl⟩ := map_ok h
  exact committedAt_of_commit hpess hcommit

end

theorem committedAt_of_committedIn {s : Store} {out : Outside}
    (hpess : ∀ lock, s.key.lock = some lock → lock.isPessimisticLock = false) (hlisted : c.listed = true)
    (h : c.committedIn (s.process key out c).2 = some startTs) :
    CommittedAt (s.process key out c).1.key.writes startTs := by
  cases hans : (s.process key out c).2 with
  | error e => rw [hans] at h; cases h
  | ok answer =>
    rw [hans] at h
    obtain ⟨⟨t, position⟩, hc, rfl⟩ := Option.map_eq_some_iff.1 h
    cases c with
    | commit a b =>
      cases hc
      dsimp only [Store.process] at hans ⊢
      split at hans
      · cases hans
      rename_i hlt
      obtain ⟨ms, b, hres, hwrite⟩ := finish_ok hans
      rw [if_neg hlt, hwrite]
      exact committedAt_of_commit hpess hres
    | resolveLock a b pessimistic =>
      obtain ⟨ms, _, hres, hwrite⟩ := finish_ok hans
      have hres' := map_pair_ok hres
      obtain ⟨hpos, ⟨⟩⟩ := Option.ite_none_left_eq_some.1 hc
      have hp : pessimistic = false := by simpa [Command.listed] using hlisted
      unfold resolveFound at hres'
      split at hres'
      · cases hres'
      split at hres'
      · rw [hp] at hres'
        cases hres'
      rw [show (s.process key out (.resolveLock t position pessimistic)).1 = s.write ms from hwrite]
      exact committedAt_of_resolve hpess hpos hres'
    | resolveLockLite a b =>
      obtain ⟨ms, _, hres, hwrite⟩ := finish_ok hans
      have hres' := map_pair_ok hres
      obtain ⟨hpos, ⟨⟩⟩ := Option.ite_none_left_eq_some.1 hc
      rw [show (s.process key out (.resolveLockLite t position)).1 = s.write ms from hwrite]
      exact committedAt_of_resolve hpess hpos hres'
    | _ => cases hc

/-! ## One command, and a history -/

variable {a : Outside × Command}

section

variable (hex : Exclusive commitTs h)
include hex

theorem Account.step.records (hlisted : a.2.listed = true) (hstep : h.step key commitTs a h') : Records h h' := by
  constructor
  · intro t ht
    rw [hstep.committed]
    exact mem_append_left _ (mem_append_right _ (mem_commitStarts.2 ht))
  · intro t ht
    rw [hstep.committed] at ht
    rcases mem_append.1 ht with ht | ht
    · right
      rcases mem_append.1 ht with ht | ht
      · rw [hstep.store]
        exact committedAt_of_committedIn (fun lock hl => (hex.locked lock hl).1) hlisted (Option.mem_toList.1 ht)
      · exact mem_commitStarts.1 ht
    · exact .inl ht

variable (hts : ∀ t, t < commitTs t) (hlisted : a.2.listed = true) (hfresh : Fresh h a)
include hts hlisted hfresh

theorem Exclusive.fresh (hc : a.2.prewriteOf = some r) (hcheck : r.check h.store.key = .ok (.pass status pending)) :
    ¬ CommittedAt h.store.key.writes r.startTs ∧ r.startTs ∉ h.rolledBack := by
  obtain ⟨hfinds, _, hlocked⟩ := check_pass hcheck
  cases hcmd : a.2 with
  | prewrite r₀ others =>
    rw [hcmd] at hc
    cases hc
    obtain ⟨hcommitted, hrolled⟩ := hfresh r₀ others hcmd
    have hlock : h.store.key.lock = none := by
      cases hfinds with
      | pessimistic hk _ htype _ =>
        rw [(hex.locked _ hk).1] at htype
        cases htype
      | @locked _ ts _ _ _ _ _ _ => exact absurd rfl (hlocked rfl ts)
      | none hk _ _ => exact hk
    have hbelow : ∀ (hchecks : r₀.checksNewer), ∀ e ∈ h.store.key.writes.entries, e.1 ≤ r₀.startTs ∧
        (e.1 = r₀.startTs → e.2.marksRollback = false ∧ r₀.pessimisticAction ≠ .doPessimisticCheck) :=
      fun hchecks => below_of_check (r := { r₀ with generation := 0 }) hchecks hlock hcheck
    refine ⟨fun hcom => ?_, fun hmem => ?_⟩
    · obtain ⟨e, he, hstart, htype⟩ := hcom
      have hle := (hbelow (hcommitted (hex.recorded _ ⟨e, he, hstart, htype⟩)) e he).1
      rw [hex.timestamps e he htype, hstart] at hle
      exact absurd (hts _) (not_lt.2 hle)
    · obtain ⟨hchecks, hmarked⟩ := hrolled hmem
      obtain ⟨_, e, he, hle⟩ := hex.rolledBack _ hmem
      obtain ⟨hle', hno⟩ := hbelow hchecks e he
      have heq : e.1 = r₀.startTs := le_antisymm hle' hle
      obtain ⟨hmarks, hact⟩ := hno heq
      rcases hmarked e.2 (heq ▸ he) with hm | hm
      · rw [hmarks] at hm
        cases hm
      · exact hact hm
  | flush q => rw [hcmd] at hlisted; cases hlisted
  | _ => rw [hcmd] at hc; cases hc

theorem Exclusive.step (hinj : Function.Injective commitTs) (hstep : h.step key commitTs a h') : Exclusive commitTs h' := by
  have hrecords := hstep.records hex hlisted
  have heff := process_effect key h.store a.1 a.2 hex.rollbacks
  rw [← hstep.store] at heff
  have hrolls := hex.rollbacks.effect heff
  have hrolled := hstep.rolledBack
  cases hroll : a.2.rollbackOf with
  | some t =>
    have hanswers : AnswersRollback key h.store a.2 t (h.store.process key a.1 a.2) :=
      process_answers a.1 hex.rollbacks hroll
    obtain ⟨hdone, hquiet⟩ := hanswers
    rw [← hstep.store] at hdone hquiet
    rcases rolledBackIn_cases a.2 (h.store.process key a.1 a.2).2 with hnone | hsome
    · rw [hnone] at hrolled
      exact hex.quiet_step hrecords hrolled (hquiet hnone)
    rw [hsome, hroll] at hrolled
    exact hex.rolledBack_step hts hrecords hstep.timestamps hrolls hrolled (hdone (hsome.trans hroll))
  | none =>
    have hsame : h'.rolledBack = h.rolledBack := by
      rcases rolledBackIn_cases a.2 (h.store.process key a.1 a.2).2 with hnone | hsome
      · rw [hrolled, hnone]; rfl
      · rw [hrolled, hsome, hroll]; rfl
    have hmem : ∀ t, t ∈ h'.rolledBack ↔ t ∈ h.rolledBack := fun t => by rw [hsame]
    cases heff with
    | same hlock hwrites => exact hex.quiet_step hrecords hsame (.same hlock hwrites)
    | unlock hlock hwrites => exact hex.quiet_step hrecords hsame (.unlock hlock hwrites)
    | raise hold _ _ hlock hwrites =>
      refine hex.frame hrecords hwrites hmem fun lock' hl => .inl ⟨_, hold, ?_⟩
      rw [hlock] at hl
      cases hl
      exact ⟨rfl, rfl, rfl⟩
    | acquire hc _ _ _ =>
      rw [hc] at hlisted
      cases hlisted
    | lock hc hcheck hnew hlock hwrites =>
      obtain ⟨hcom, hnot⟩ := hex.fresh hts hlisted hfresh hc hcheck
      refine hex.frame hrecords hwrites hmem fun lock' hl => .inr ?_
      rw [hlock] at hl
      cases hl
      rw [hnew.ts]
      exact ⟨hnew.notPessimistic, hcom, hnot, hnew.rollbackTs⟩
    | @onePc r status pending position new writeType hc _ hcheck hnew _ _ _ htype hlock hwrites =>
      obtain ⟨_, hnot⟩ := hex.fresh hts hlisted hfresh hc hcheck
      have hstart : (new.onePcRecord writeType).startTs = r.startTs := hnew.ts
      exact hex.insert hinj hrecords hstep.timestamps hlock hwrites hmem (writeType_of_fromLockType htype) (hstart ▸ hnot)
        rfl nofun
    | @commit startTs position lock writeType hc hold hlts hmin htype hlock hwrites =>
      obtain ⟨_, _, hnot, hmarks⟩ := hex.locked lock hold
      refine hex.insert hinj hrecords hstep.timestamps hlock hwrites hmem (commitRecord_ne_rollback htype)
        (startTs_commitRecord ▸ hnot) ?_ fun hflag => hmarks position (flag_commitRecord.1 hflag)
      unfold Lock.commitRecord
      split <;> rfl
    | rollback hc _ _ _ _ _ =>
      rw [hroll] at hc
      cases hc

end

/-- The histories of the commands on the key, in which late prewrites check for newer versions. -/
def Regular (h : Account) (a : Outside × Command) : Prop := a.2.listed = true ∧ Fresh h a

theorem exclusive_of_run (hts : ∀ t, t < commitTs t) (hinj : Function.Injective commitTs)
    {cm : ConcurrencyManager} {l : List (Outside × Command)}
    (hrun : Run (Account.step key commitTs) Regular (.empty cm) l h) : Exclusive commitTs h :=
  hrun.invariant (fun _ _ _ hex hok hstep => hex.step hts hok.1 hok.2 hinj hstep) (exclusive_empty cm)

/-! ## Once more -/

theorem checkGcFence_of_latest {gcFence ts : Nat}
    (hfence : gcFence = 0 ∨ position < gcFence ∧ ∃ w', (gcFence, w') ∈ v.entries ∧ w'.isData = true)
    (hlatest : latestData v ts = some (position, w)) :
    (w.setOverlappedRollback (some gcFence)).checkGcFence ts = true := by
  obtain ⟨_, _, _, hmax⟩ := latestData_eq_some.1 hlatest
  have hts : gcFence ≠ 0 → ts < gcFence := by
    intro hne
    obtain ⟨hlt, w', hmem, hdata⟩ := hfence.resolve_left hne
    by_contra hle
    have := hmax _ hmem (not_lt.1 hle) hdata
    omega
  dsimp only [checkGcFence, setOverlappedRollback]
  by_cases hzero : gcFence = 0
  · simp [hzero]
  simp only [ne_eq, hzero, not_false_eq_true, decide_true, Bool.true_and, Bool.not_eq_true', decide_eq_false_iff_not]
  omega

theorem Undone.carriesReads {v' : Versions} (hundone : Undone v v' startTs)
    (hfences : ∀ e ∈ v.entries, e.2.hasOverlappedRollback = false → e.2.gcFence = none) :
    CarriesReads v v' ∧ CarriesReads v' v := by
  refine ⟨fun position w hmem hdata => ?_, fun position w hmem hdata => ?_⟩
  · rcases hundone.keep _ hmem with hmem' | ⟨htype, _⟩ | ⟨rfl, _, _, hw, hmarks⟩
    · exact ⟨w, hmem', rfl, rfl, rfl, fun _ _ hfence => hfence⟩
    · unfold isData at hdata
      rw [htype] at hdata
      exact absurd hdata (by decide)
    · obtain rfl := hmarks.eq
      exact ⟨_, hw, rfl, rfl, rfl, fun ts hlatest _ => checkGcFence_of_latest hmarks.fence hlatest⟩
  · rcases hundone.sub _ hmem with hmem' | ⟨hpos, ⟨_, hw⟩ | ⟨old, _, hmarks⟩⟩
    · exact ⟨w, hmem', rfl, rfl, rfl, fun _ _ hfence => hfence⟩
    · cases hw
      cases hdata
    · obtain rfl : position = startTs := hpos
      obtain rfl := hmarks.eq
      refine ⟨old, hmarks.mem, rfl, rfl, rfl, fun ts _ _ => ?_⟩
      unfold checkGcFence
      rw [hfences _ hmarks.mem hmarks.flag]

theorem readAt_rolledBack {k' : KeyState}
    (hfences : ∀ e ∈ k.writes.entries, e.2.hasOverlappedRollback = false → e.2.gcFence = none)
    (h : RolledBack key k c startTs k') (ts : Nat) : readAt k'.writes ts = readAt k.writes ts := by
  cases h with
  | already _ _ hsame => rw [hsame]
  | unlock _ _ _ _ hwrites => rw [hwrites]
  | now hrec hmake _ _ hroll =>
    obtain ⟨hto, hfrom⟩ := (hroll.undone hrec hmake).carriesReads hfences
    exact readAt_congr hto hfrom ts

section

variable {key : Bytes} {h : Account} (hex : Exclusive commitTs h)
include hex

theorem Exclusive.ownLock_eq_none (ht : t ∈ h.committed ∨ t ∈ h.rolledBack) : h.store.key.ownLock t = none := by
  refine Mvcc.ownLock_eq_none.2 fun lock hl hts => ?_
  obtain ⟨_, hcom, hrolled, _⟩ := hex.locked lock hl
  rw [hts] at hcom hrolled
  exact ht.elim (fun ht => hcom (hex.committed t ht)) hrolled

theorem Exclusive.apart (t : Nat) : ¬ (CommittedAt h.store.key.writes t ∧ RolledBackAt h.store.key.writes t) :=
  fun ⟨hcom, hmark⟩ => (hex.rolledBack t (hex.marked t hmark)).1 hcom

theorem Exclusive.status_of_rolledBack (ht : t ∈ h.rolledBack)
    (hrec : getTxnCommitRecord h.store.key.writes t = .singleRecord position write) : write.writeType = .rollback := by
  obtain ⟨hmem, hstart⟩ := single_inv hrec
  by_contra htype
  exact (hex.rolledBack t ht).1 ⟨_, hmem, hstart, htype⟩

variable (hts : ∀ t, t < commitTs t)
include hts

theorem Exclusive.makeRollback_ok (hrec : getTxnCommitRecord h.store.key.writes t = .none overlapped) (protect : Bool) :
    ∃ write, makeRollback t protect overlapped = .ok write := by
  cases overlapped with
  | none => exact ⟨_, rfl⟩
  | some ov =>
    obtain ⟨hmem, hstart, _⟩ := overlapped_inv hrec
    -- the other transaction began before it committed
    have htype : ov.write.writeType ≠ .rollback := fun htype => hstart (hex.rollbacks _ hmem htype)
    have hlt : ov.write.startTs < t := by
      have hpos : t = commitTs ov.write.startTs := hex.timestamps _ hmem htype
      rw [hpos]
      exact hts _
    exact ⟨_, if_neg (not_le.2 hlt)⟩

theorem Exclusive.missingLock_ok (ht : t ∈ h.rolledBack) (mismatch : Option Lock)
    {action : MissingLockAction} (haction : action ≠ .returnError) :
    ∃ ms status, checkTxnStatusMissingLock h.store.key.writes t mismatch action false = .ok (ms, status) ∧
      status.isRolledBack = true := by
  unfold checkTxnStatusMissingLock
  cases hrec : getTxnCommitRecord h.store.key.writes t with
  | singleRecord position write =>
    refine ⟨_, _, rfl, ?_⟩
    rw [if_pos (hex.status_of_rolledBack ht hrec)]
    rfl
  | overlappedRollback position => exact ⟨_, _, rfl, rfl⟩
  | none overlapped =>
    obtain ⟨write, hmake⟩ := hex.makeRollback_ok hts hrec action.protects
    dsimp only
    rw [if_neg haction, hmake]
    exact ⟨_, _, rfl, rfl⟩

theorem Exclusive.cleanup_again (ht : t ∈ h.rolledBack) (currentTs : Nat)
    (protect : Bool) : ∃ ms, cleanup key h.store.key t currentTs protect = .ok ms ∧
      ∀ ts, readAt (h.store.key.apply ms).writes ts = readAt h.store.key.writes ts := by
  have haction : MissingLockAction.rollbackProtect protect ≠ .returnError := by cases protect <;> nofun
  obtain ⟨ms, status, hmissing, hstatus⟩ := hex.missingLock_ok hts ht h.store.key.lock haction
  have hok : cleanup key h.store.key t currentTs protect = .ok ms := by
    unfold cleanup
    rw [hex.ownLock_eq_none (.inr ht), hmissing]
    cases status with
    | rolledBack | ttlExpire | lockNotExist => rfl
    | _ => cases hstatus
  have hroll : RolledBack key h.store.key (.cleanup t currentTs) t (h.store.key.apply ms) :=
    cleanup_rolledBack hex.rollbacks protect rfl (fun _ => rfl) hok
  exact ⟨ms, hok, readAt_rolledBack hex.fences hroll⟩

theorem Exclusive.checkTxnStatus_again {q : CheckTxnStatus} (ht : q.startTs ∈ h.rolledBack)
    (hroll : q.rollbackIfNotExist = true) (hres : q.resolvingPessimisticLock = false) :
    ∃ ms status, q.run key h.store.key = .ok (ms, status) ∧ status.isRolledBack = true ∧
      ∀ ts, readAt (h.store.key.apply ms).writes ts = readAt h.store.key.writes ts := by
  have haction : MissingLockAction.rollbackIfNotExist q.rollbackIfNotExist ≠ .returnError := by rw [hroll]; nofun
  obtain ⟨ms, status, hmissing, hstatus⟩ := hex.missingLock_ok hts ht h.store.key.lock haction
  have hok : q.run key h.store.key = .ok (ms, status) := by
    unfold CheckTxnStatus.run
    rw [hex.ownLock_eq_none (.inr ht), hres]
    exact hmissing
  exact ⟨ms, status, hok, hstatus, readAt_rolledBack hex.fences ((checkTxnStatus_cases hex.rollbacks hok).1 hstatus)⟩

theorem Exclusive.checkSecondaryLock_again (ht : t ∈ h.rolledBack) :
    ∃ ms, checkSecondaryLock h.store.key t = .ok (ms, .rolledBack) ∧
      ∀ ts, readAt (h.store.key.apply ms).writes ts = readAt h.store.key.writes ts := by
  have hok : ∃ ms, checkSecondaryLock h.store.key t = .ok (ms, .rolledBack) := by
    unfold checkSecondaryLock secondaryStatus
    rw [hex.ownLock_eq_none (.inr ht)]
    cases hrec : getTxnCommitRecord h.store.key.writes t with
    | singleRecord position write =>
      dsimp only
      rw [if_pos (hex.status_of_rolledBack ht hrec)]
      exact ⟨_, rfl⟩
    | overlappedRollback position => exact ⟨_, rfl⟩
    | none overlapped =>
      obtain ⟨write, hmake⟩ := hex.makeRollback_ok hts hrec true
      dsimp only [rollbackSecondary]
      rw [hmake]
      exact ⟨_, rfl⟩
  obtain ⟨ms, hok⟩ := hok
  have hroll : RolledBack [] h.store.key (.checkSecondaryLocks t) t (h.store.key.apply ms) :=
    (checkSecondaryLock_cases hex.rollbacks hok).1 rfl
  exact ⟨ms, hok, readAt_rolledBack hex.fences hroll⟩

section

variable (ht : t ∈ h.committed)
include ht

theorem Exclusive.record_of_committed :
    ∃ position write, getTxnCommitRecord h.store.key.writes t = .singleRecord position write ∧
      write.writeType ≠ .rollback := by
  have hcom := hex.committed t ht
  have hnot : (getTxnCommitRecord h.store.key.writes t).isRollback ≠ true :=
    fun hr => hex.apart t ⟨hcom, rolledBackAt_of_isRollback hex.rollbacks hr⟩
  cases hrec : getTxnCommitRecord h.store.key.writes t with
  | none overlapped => exact absurd hcom (not_committedAt_of_none hex.timestamps hts hrec)
  | singleRecord position write =>
    exact ⟨position, write, rfl, fun htype => hnot (by rw [hrec]; exact decide_eq_true htype)⟩
  | overlappedRollback position => exact absurd (by rw [hrec]; rfl) hnot

theorem Exclusive.commit_again (position : Nat) :
    commit h.store.key t position = .ok ([], false) := by
  obtain ⟨_, write, hrec, htype⟩ := hex.record_of_committed hts ht
  unfold commit
  rw [hex.ownLock_eq_none (.inl ht), hrec]
  dsimp only [TxnCommitRecord.info]
  cases hw : write.writeType with
  | rollback => exact absurd hw htype
  | put | delete | lock => rfl

theorem Exclusive.rollback_fails :
    ∃ position, (∀ currentTs protect, cleanup key h.store.key t currentTs protect = .error (.committed position)) ∧
      (∀ q : CheckTxnStatus, q.startTs = t → q.run key h.store.key = .ok ([], .committed position)) ∧
      checkSecondaryLock h.store.key t = .ok ([], .committed position) := by
  obtain ⟨position, write, hrec, htype⟩ := hex.record_of_committed hts ht
  have hown := hex.ownLock_eq_none (.inl ht)
  refine ⟨position, fun currentTs protect => ?_, ?_, ?_⟩
  · unfold cleanup checkTxnStatusMissingLock
    rw [hown, hrec]
    dsimp only
    rw [if_neg htype]
  · rintro q rfl
    unfold CheckTxnStatus.run checkTxnStatusMissingLock
    rw [hown, hrec]
    dsimp only
    rw [if_neg htype]
  · unfold checkSecondaryLock secondaryStatus
    rw [hown, hrec]
    dsimp only
    rw [if_neg htype]

end

omit hts in
theorem Exclusive.commit_fails (ht : t ∈ h.rolledBack) (position : Nat) :
    commit h.store.key t position = .error (.txnLockNotFound position) := by
  refine commit_error (Mvcc.ownLock_eq_none.1 (hex.ownLock_eq_none (.inr ht))) (fun e he hstart => ?_) position
  by_contra htype
  exact (hex.rolledBack t ht).1 ⟨e, he, hstart, htype⟩

theorem Exclusive.rollbackLock_ok {lock : Lock} (hlock : h.store.key.lock = some lock)
    (collapse : Bool) : ∃ ms, rollbackLock key h.store.key.writes lock collapse = .ok ms := by
  unfold rollbackLock
  cases hrec : getTxnCommitRecord h.store.key.writes lock.ts with
  | none overlapped =>
    obtain ⟨write, hmake⟩ := hex.makeRollback_ok hts hrec (key = lock.primary || 0 < lock.generation)
    dsimp only
    rw [hmake]
    exact ⟨_, rfl⟩
  | overlappedRollback position => exact ⟨_, rfl⟩
  | singleRecord position write =>
    obtain ⟨hmem, hstart⟩ := single_inv hrec
    have htype : write.writeType = .rollback := by
      by_contra htype
      exact (hex.locked lock hlock).2.1 ⟨_, hmem, hstart, htype⟩
    exact ⟨_, if_pos htype⟩

end

/-- **Commit and rollback of one transaction on one key exclude each other.** -/
theorem exclusive_of_regular {key : Bytes} (hts : ∀ t, t < commitTs t) (hinj : Function.Injective commitTs)
    {cm : ConcurrencyManager} {l : List (Outside × Command)} {h : Account}
    (hrun : Run (Account.step key commitTs) Regular (.empty cm) l h) :
    (∀ t, ¬ (CommittedAt h.store.key.writes t ∧ RolledBackAt h.store.key.writes t)) ∧
    (∀ t ∈ h.committed, (∀ position, commit h.store.key t position = .ok ([], false)) ∧
      ∃ position, (∀ currentTs protect, cleanup key h.store.key t currentTs protect = .error (.committed position)) ∧
        (∀ q : CheckTxnStatus, q.startTs = t → q.run key h.store.key = .ok ([], .committed position)) ∧
        checkSecondaryLock h.store.key t = .ok ([], .committed position)) ∧
    (∀ t ∈ h.rolledBack, (∀ position, commit h.store.key t position = .error (.txnLockNotFound position)) ∧
      (∀ currentTs protect, ∃ ms, cleanup key h.store.key t currentTs protect = .ok ms ∧
        ∀ ts, readAt (h.store.key.apply ms).writes ts = readAt h.store.key.writes ts) ∧
      (∀ q : CheckTxnStatus, q.startTs = t → q.rollbackIfNotExist = true → q.resolvingPessimisticLock = false →
        ∃ ms status, q.run key h.store.key = .ok (ms, status) ∧ status.isRolledBack = true ∧
          ∀ ts, readAt (h.store.key.apply ms).writes ts = readAt h.store.key.writes ts) ∧
      ∃ ms, checkSecondaryLock h.store.key t = .ok (ms, .rolledBack) ∧
        ∀ ts, readAt (h.store.key.apply ms).writes ts = readAt h.store.key.writes ts) ∧
    ∀ lock, h.store.key.lock = some lock → ∀ collapse,
      ∃ ms, rollbackLock key h.store.key.writes lock collapse = .ok ms := by
  have hex := exclusive_of_run hts hinj hrun
  refine ⟨hex.apart, fun t ht => ⟨hex.commit_again hts ht, hex.rollback_fails hts ht⟩, fun t ht => ⟨hex.commit_fails ht,
    hex.cleanup_again hts ht, ?_, hex.checkSecondaryLock_again hts ht⟩, fun lock hlock => hex.rollbackLock_ok hts hlock⟩
  rintro q rfl hroll hres
  exact hex.checkTxnStatus_again hts ht hroll hres

/-! ## Histories that are and are not regular -/

def Account.next (h : Account) (c : Command) : Account :=
  let res := h.store.process [] sampleOutside c
  ⟨res.1, (c.committedIn res.2).toList ++ commitStarts res.1.key.writes ++ h.committed,
    (c.rolledBackIn res.2).toList ++ h.rolledBack⟩

def sampleAccount (l : List Command) : Account := l.foldl Account.next (.empty (.new 0 0 .log 0 0))

def Account.Admits (commitTs : Nat → Nat) (ok : Account → Outside × Command → Prop) : Account → List Command → Prop
  | _, [] => True
  | h, c :: l => ok h (sampleOutside, c) ∧ AtCommitTs commitTs (h.next c).store.key.writes ∧ (h.next c).Admits commitTs ok l

theorem run_of_admits {ok : Account → Outside × Command → Prop} : ∀ (l : List Command) (h : Account),
    h.Admits commitTs ok l → Run (Account.step [] commitTs) ok h (l.map (sampleOutside, ·)) (l.foldl Account.next h)
  | [], h, _ => .nil h
  | c :: l, h, ⟨hok, hts, htail⟩ => .cons hok ⟨rfl, rfl, rfl, hts⟩ (run_of_admits l (h.next c) htail)

theorem fresh_of_new {others : OtherKeys} (hcom : r.startTs ∉ h.committed)
    (hroll : r.startTs ∉ h.rolledBack) : Regular h (sampleOutside, .prewrite r others) := by
  refine ⟨rfl, fun r' others' hc => ?_⟩
  cases hc
  exact ⟨fun hm => absurd hm hcom, fun hm => absurd hm hroll⟩

theorem fresh_of_other (hlisted : c.listed = true) (hother : c.prewriteOf = none) :
    Regular h (sampleOutside, c) := by
  refine ⟨hlisted, fun r others hc => ?_⟩
  replace hc : c = .prewrite r others := hc
  rw [hc] at hother
  cases hother

def sampleOutcomes : List Command := [.prewrite (samplePut 10) ⟨0, false⟩, .commit 10 11, .rollback 20]

theorem exclusive_of_regular_outcomes : commit (sampleAccount sampleOutcomes).store.key 10 11 = .ok ([], false) ∧
    commit (sampleAccount sampleOutcomes).store.key 20 21 = .error (.txnLockNotFound 21) := by
  have hrun : Run (Account.step [] (· + 1)) Regular (.empty (.new 0 0 .log 0 0)) (sampleOutcomes.map (sampleOutside, ·))
      (sampleAccount sampleOutcomes) := by
    refine run_of_admits _ _
      ⟨fresh_of_new nofun nofun, ?_, fresh_of_other rfl rfl, ?_, fresh_of_other rfl rfl, ?_, trivial⟩ <;>
      unfold AtCommitTs <;> decide
  obtain ⟨_, hcommitted, hrolled, _⟩ := exclusive_of_regular Nat.lt_succ_self (fun _ _ h => Nat.succ.inj h) hrun
  exact ⟨(hcommitted 10 (by decide)).1 11, (hrolled 20 (by decide)).1 21⟩

def skippingPut (startTs forUpdateTs : Nat) (isRetryRequest : Bool) : Command :=
  .prewrite { samplePut startTs with kind := .pessimistic forUpdateTs, isRetryRequest } ⟨0, false⟩

def rolledBackThenCommitted : List Command := [.rollback 10, skippingPut 10 10 false, .commit 10 11]

def committedThenLocked : List Command := [.prewrite (samplePut 10) ⟨0, false⟩, .commit 10 11, skippingPut 10 10 false]

/-- The transaction 5 commits at 10; the rollback of the transaction 10 leaves no mark on its record, and the late prewrite
of the transaction 10 finds nothing newer. -/
def rolledBackUnmarked : List Command :=
  [.prewrite (samplePut 5) ⟨0, false⟩, .commit 5 10, .rollback 10, .prewrite (samplePut 10) ⟨0, false⟩, .commit 10 21]

def sharedCommitTs : List Command :=
  [.prewrite (samplePut 5) ⟨0, false⟩, .commit 5 20, skippingPut 6 6 false, .commit 6 20]

/-- The rollback of the transaction 20 takes that of the transaction 10 away, and the late prewrite is a retried one. -/
def collapsedThenRetried : List Command := [.rollback 10, .rollback 20, skippingPut 10 15 true, .commit 10 11]

/-- **What late prewrites and shared commit timestamps undo**: a rollback and a commit of one transaction, the panic in
`rollback_lock`, a commit after a rollback that left no mark or whose record is gone, and a commit record that is
overwritten. -/
theorem not_exclusive_late :
    (∃ l h, Run (Account.step [] (· + 1)) (fun _ a => a.2.listed = true) (.empty (.new 0 0 .log 0 0)) l h ∧
      CommittedAt h.store.key.writes 10 ∧ RolledBackAt h.store.key.writes 10) ∧
    (∃ l h lock, Run (Account.step [] (· + 1)) (fun _ a => a.2.listed = true) (.empty (.new 0 0 .log 0 0)) l h ∧
      h.store.key.lock = some lock ∧
      rollbackLock [] h.store.key.writes lock true = .error (.panic "txn record found but not expected")) ∧
    (∃ l h, Run (Account.step [] fun t => if t = 5 then 10 else t + 11) (fun _ a => a.2.listed = true)
      (.empty (.new 0 0 .log 0 0)) l h ∧ 10 ∈ h.rolledBack ∧ CommittedAt h.store.key.writes 10) ∧
    (∃ h, Run (Account.step [] (· + 1)) (fun _ a => a.2.listed = true) (.empty (.new 0 0 .log 0 0))
      (collapsedThenRetried.map (sampleOutside, ·)) h ∧ 10 ∈ h.rolledBack ∧ CommittedAt h.store.key.writes 10) ∧
    ∃ l h, Run (Account.step [] fun t => t + 20 - t % 20) (fun _ a => a.2.listed = true) (.empty (.new 0 0 .log 0 0)) l h ∧
      5 ∈ h.committed ∧ commit h.store.key 5 20 = .error (.txnLockNotFound 20) := by
  refine ⟨⟨rolledBackThenCommitted.map (sampleOutside, ·), sampleAccount rolledBackThenCommitted,
      run_of_admits _ _ ⟨rfl, ?_, rfl, ?_, rfl, ?_, trivial⟩, ?_, ?_⟩,
    ⟨committedThenLocked.map (sampleOutside, ·), sampleAccount committedThenLocked, _,
      run_of_admits _ _ ⟨rfl, ?_, rfl, ?_, rfl, ?_, trivial⟩, rfl, rfl⟩,
    ⟨rolledBackUnmarked.map (sampleOutside, ·), sampleAccount rolledBackUnmarked,
      run_of_admits _ _ ⟨rfl, ?_, rfl, ?_, rfl, ?_, rfl, ?_, rfl, ?_, trivial⟩, by decide, ?_⟩,
    ⟨sampleAccount collapsedThenRetried, run_of_admits _ _ ⟨rfl, ?_, rfl, ?_, rfl, ?_, rfl, ?_, trivial⟩, by decide, ?_⟩,
    ⟨sharedCommitTs.map (sampleOutside, ·), sampleAccount sharedCommitTs,
      run_of_admits _ _ ⟨rfl, ?_, rfl, ?_, rfl, ?_, rfl, ?_, trivial⟩, by decide, rfl⟩⟩
  all_goals
    first
    | (unfold AtCommitTs; decide)
    | (unfold CommittedAt; decide)
    | exact ⟨newRollback 10 false, by decide, rfl⟩

end Mvcc
end Tikv
