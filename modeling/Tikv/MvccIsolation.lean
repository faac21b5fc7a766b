import Tikv.MvccExclude
import Tikv.MvccRead
/-!
# MvccIsolation — snapshot isolation on one key

A read publishes its timestamp in `max_ts` and is turned away by a lock that may commit below it.  From then on the store
itself keeps async and one-phase commits above the read and rollbacks out of its sight; only the timestamp of an ordinary
two-phase commit comes from outside (`repeatable_read`).  Prewrites that check for newer versions let no two transactions
with overlapping lifetimes commit (`lifetimes_disjoint`).
-/
namespace Tikv
namespace Mvcc

open Lib Chain Store

variable {v v' v₀ : Versions} {w : Write} {t floor startTs : Nat} {key : Bytes} {s s' : Store} {a : Outside × Command}

/-- **Where a lock comes from**: it was there before, is pessimistic, or is that of a prewrite that passed its checks. -/
theorem Effect.lock_cases {maxTs : Nat} {k k' : KeyState} {c : Command} {new : Lock} (heff : Effect key maxTs k c k')
    (hl : k'.lock = some new) :
    (∃ old, k.lock = some old ∧ old.ts = new.ts ∧ old.lockType = new.lockType ∧
      old.useAsyncCommit = new.useAsyncCommit ∧ old.minCommitTs ≤ new.minCommitTs) ∨
    (new.useAsyncCommit = false ∧ (∃ q, c = .acquirePessimisticLock q) ∧ ∀ old, k.lock = some old → old.ts = new.ts) ∨
    ∃ r status pending, c.prewriteOf = some r ∧ r.check k = .ok (.pass status pending) ∧ NewLock r maxTs pending new := by
  cases heff with
  | same hlock _ => exact .inl ⟨new, hlock ▸ hl, rfl, rfl, rfl, le_rfl⟩
  | raise hold _ hmin hlock _ =>
    cases hlock.symm.trans hl
    exact .inl ⟨_, hold, rfl, rfl, rfl, hmin⟩
  | acquire hc hold hlock _ =>
    cases hlock.symm.trans hl
    exact .inr (.inl ⟨rfl, ⟨_, hc⟩, fun old ho => (hold old ho).1⟩)
  | lock hc hcheck hnew hlock _ =>
    cases hlock.symm.trans hl
    exact .inr (.inr ⟨_, _, _, hc, hcheck, hnew⟩)
  | onePc _ _ _ _ _ _ _ _ hlock _ | commit _ _ _ _ _ hlock _ | unlock hlock _ => cases hlock.symm.trans hl
  | rollback _ _ _ _ hlock _ =>
    generalize k.lock = l at hlock ⊢
    rw [hl] at hlock
    cases hlock with
    | other | overlapped | mark => exact .inl ⟨_, rfl, rfl, rfl, rfl, le_rfl⟩

/-! ## Reads -/

structure ReadsAs (floor : Nat) (v₀ v : Versions) : Prop where
  fences : ∀ e ∈ v.entries, e.2.hasOverlappedRollback = false → e.2.gcFence = none
  reads : ∀ t < floor, readAt v t = readAt v₀ t

theorem ReadsAs.insert (h : ReadsAs floor v₀ v) (hfence : w.gcFence = none)
    (hsee : floor ≤ t ∨ w.isData = false ∧ ∀ e ∈ v.entries, e.1 = t → e.2.isData = false) :
    ReadsAs floor v₀ (v.insert t w) := by
  refine ⟨forall_mem_insert (fun _ => hfence) fun e he _ => h.fences e he, fun ts hts => ?_⟩
  have hlatest : latestData (v.insert t w) ts = latestData v ts := by
    refine latestData_congr fun e hdata => ?_
    rw [mem_insert]
    grind
  rw [← h.reads ts hts]
  unfold readAt visible
  rw [hlatest]

theorem ReadsAs.undone (h : ReadsAs floor v₀ v) (hundone : Undone v v' startTs) : ReadsAs floor v₀ v' := by
  obtain ⟨hto, hfrom⟩ := hundone.carriesReads h.fences
  exact ⟨hundone.fences h.fences, fun t ht => (readAt_congr hto hfrom t).trans (h.reads t ht)⟩

/-- No async or one-phase commit can come in below `floor`, where the key reads as `v₀`. -/
structure Settled (floor : Nat) (v₀ : Versions) (s : Store) : Prop where
  rollbacks : RollbacksAtStart s.key.writes
  published : floor ≤ s.cm.maxTs + 1
  async : ∀ lock, s.key.lock = some lock → lock.useAsyncCommit = true →
    lock.ts < lock.minCommitTs ∧ (lock.lockType ≠ .lock ∧ lock.lockType ≠ .pessimistic → floor ≤ lock.minCommitTs)
  records : ReadsAs floor v₀ s.key.writes

/-- What comes from outside: a commit below `floor` is an async commit, or that of a LOCK, which no read sees, in a place
of its own. -/
def CommitsAbove (floor : Nat) (s : Store) (a : Outside × Command) : Prop :=
  ∀ lock commitTs, s.key.lock = some lock → a.2.commitOf = some (lock.ts, commitTs) → commitTs < floor →
    if lock.lockType = .lock then ∀ e ∈ s.key.writes.entries, e.1 = commitTs → e.2.isData = false
    else lock.useAsyncCommit = true

theorem Settled.step (h : Settled floor v₀ s) (hok : CommitsAbove floor s a) (hstep : Store.step key s a s') :
    Settled floor v₀ s' := by
  subst hstep
  have heff := process_effect key s a.1 a.2 h.rollbacks
  have hmax := h.published.trans (Nat.succ_le_succ (le_maxTs_process key s a.1 a.2))
  generalize (s.process key a.1 a.2).1 = s' at heff hmax
  refine ⟨h.rollbacks.effect heff, hmax, fun new hl has => ?_, ?_⟩
  · rcases heff.lock_cases hl with ⟨old, hold, hts, htype, hasync, hmin⟩ | ⟨hnot, _⟩ | ⟨r, _, _, _, _, hnew⟩
    · obtain ⟨holdts, hfloor⟩ := h.async old hold (hasync.trans has)
      exact ⟨(hts ▸ holdts).trans_le hmin, fun hne => (hfloor (htype ▸ hne)).trans hmin⟩
    · rw [hnot] at has
      cases has
    · obtain ⟨hlt, hstart⟩ := hnew.async has
      exact ⟨hnew.ts ▸ hstart, fun _ => hmax.trans hlt⟩
  cases heff with
  | same _ hwrites => exact hwrites ▸ h.records
  | raise _ _ _ _ hwrites | acquire _ _ _ hwrites | lock _ _ _ _ hwrites | unlock _ hwrites => exact hwrites ▸ h.records
  | onePc _ _ _ _ hlt _ _ _ _ hwrites => exact hwrites ▸ h.records.insert rfl (.inl (hmax.trans hlt))
  | @commit _ commitTs lock writeType hc hold hts hmin htype _ hwrites =>
    subst hts
    rw [hwrites]
    refine h.records.insert ?_ ?_
    · unfold Lock.commitRecord
      split <;> rfl
    rcases le_or_gt floor commitTs with hle | hlt
    · exact .inl hle
    have hguard := hok lock commitTs hold hc hlt
    split at hguard
    · rename_i hkind
      refine .inr ⟨?_, hguard⟩
      rw [hkind] at htype
      cases htype
      unfold Lock.commitRecord
      split <;> rfl
    · rename_i hkind
      have hpess : lock.lockType ≠ .pessimistic := fun hp => by rw [hp] at htype; cases htype
      exact .inl (((h.async lock hold hguard).2 ⟨hkind, hpess⟩).trans hmin)
  | rollback _ hrec hmake _ _ hwrites => exact h.records.undone (hwrites.undone hrec hmake)

section

variable {s₀ : Store} {ts : Nat} {out : Outside}
  (hpass : ∀ lock, s₀.key.lock = some lock → lock.checkTsConflictSi key ts [] = .ok ()) (hts : ts ≠ tsMax)
  (hread : s₀.process key out (.read ts) = (s, .ok .done))
include hpass hts hread

/-- **A read that passes the lock** settles what is read up to its timestamp. -/
theorem Settled.read (h : Settled 0 v₀ s₀) : Settled (ts + 1) s₀.key.writes s := by
  have hpub := @ConcurrencyManager.newTs_le_maxTs s₀.cm out ts hts
  dsimp only [process, publish] at hread
  split at hread
  · rename_i heq
    cases hread
    rw [heq] at hpub
    refine ⟨h.rollbacks, Nat.succ_le_succ (hpub rfl), fun lock hl has => ?_, h.records.fences, fun _ _ => rfl⟩
    obtain ⟨hstart, _⟩ := h.async lock hl has
    refine ⟨hstart, fun ⟨hkind, hpess⟩ => ?_⟩
    by_contra hmin
    have hcheck := hpass lock hl
    have hnot : ¬ ts < lock.ts ∧ ¬ ts < lock.minCommitTs := by omega
    simp [Lock.checkTsConflictSi, Lock.isPessimisticLock, hkind, hpess, hnot, hts] at hcheck
  · cases hread

end

theorem run_sample {ok : Store → Outside × Command → Prop} : ∀ (l : List Command) (s : Store),
    (∀ s, ∀ c ∈ l, ok s (sampleOutside, c)) → Run (Store.step []) ok s (l.map (sampleOutside, ·))
      (l.foldl (fun s c => (s.process [] sampleOutside c).1) s)
  | [], s, _ => .nil s
  | _ :: l, _, h => .cons (h _ _ (.head _)) rfl (run_sample l _ fun s c hc => h s c (.tail _ hc))

def lateCommit : List Command :=
  [.prewrite (samplePut 5) ⟨0, false⟩, .commit 5 6, .read 15, .prewrite (samplePut 10) ⟨0, false⟩, .commit 10 16]

abbrev Store.Commits (s : Store) : Nat → Nat → Prop := CommitAt s.key.writes

/-- Committed transactions do not overlap, and none has committed since the lock's began. -/
structure Serial (s : Store) : Prop where
  rollbacks : RollbacksAtStart s.key.writes
  apart : ∀ p t, s.Commits p t → t < p ∧ ∀ p' t', s.Commits p' t' → p < p' → p ≤ t'
  locked : ∀ lock, s.key.lock = some lock → ∀ p t, s.Commits p t → p ≤ lock.ts

/-- No pessimistic locks; every prewrite looks for newer versions, and commits come after their start. -/
def Optimistic (_ : Store) (a : Outside × Command) : Prop :=
  (∀ q, a.2 ≠ .acquirePessimisticLock q) ∧ (∀ r, a.2.prewriteOf = some r → r.checksNewer) ∧
    ∀ startTs commitTs, a.2.commitOf = some (startTs, commitTs) → startTs < commitTs

section

variable (h : Serial s)
include h

theorem Serial.below {r : Prewrite} {status : LockStatus} {pending : Pending} (hchecks : r.checksNewer)
    (hcheck : r.check s.key = .ok (.pass status pending)) : ∀ p t, s.Commits p t → p ≤ r.startTs := by
  cases (check_pass hcheck).1 with
  | pessimistic hlock hts _ _ => exact hts ▸ h.locked _ hlock
  | locked hlock hts _ _ _ => exact hts ▸ h.locked _ hlock
  | none hlock _ _ => exact fun p t ⟨w, hw, _⟩ => (below_of_check hchecks hlock hcheck _ hw).1

theorem Serial.insert (hbelow : ∀ p t, s.Commits p t → p ≤ w.startTs) (hlt : w.startTs < t) (hlock : s'.key.lock = none)
    (hwrites : s'.key.writes = s.key.writes.insert t w) (hrolls : RollbacksAtStart s'.key.writes) :
    Serial s' ∧ s.Commits ≤ s'.Commits := by
  have hcases : ∀ {p u}, s'.Commits p u → p = t ∧ u = w.startTs ∨ s.Commits p u := by
    rintro p u ⟨w', hw', hstart, htype⟩
    rw [hwrites] at hw'
    rcases mem_insert.1 hw' with heq | ⟨hmem, _⟩
    · cases heq
      exact .inl ⟨rfl, hstart.symm⟩
    · exact .inr ⟨w', hmem, hstart, htype⟩
  have hstays : s.Commits ≤ s'.Commits := fun p u hc => by
    obtain ⟨w', hw', hcommit⟩ := id hc
    exact ⟨w', hwrites ▸ mem_insert.2 (.inr ⟨hw', ((hbelow p u hc).trans_lt hlt).ne⟩), hcommit⟩
  refine ⟨⟨hrolls, fun p u hc => ?_, fun lock hl => by rw [hlock] at hl; cases hl⟩, hstays⟩
  rcases hcases hc with ⟨rfl, rfl⟩ | hc
  · refine ⟨hlt, fun p' t' hc' hlt' => ?_⟩
    rcases hcases hc' with ⟨rfl, _⟩ | hc'
    · exact absurd hlt' (lt_irrefl _)
    · have := hbelow p' t' hc'
      omega
  · refine ⟨(h.apart p u hc).1, fun p' t' hc' hlt' => ?_⟩
    rcases hcases hc' with ⟨rfl, rfl⟩ | hc'
    · exact hbelow p u hc
    · exact (h.apart p u hc).2 p' t' hc' hlt'

theorem Serial.step (hok : Optimistic s a) (hstep : Store.step key s a s') : Serial s' ∧ s.Commits ≤ s'.Commits := by
  subst hstep
  obtain ⟨hacquire, hchecks, hafter⟩ := hok
  have heff := process_effect key s a.1 a.2 h.rollbacks
  have hrolls := h.rollbacks.effect heff
  generalize (s.process key a.1 a.2).1 = s' at heff hrolls
  have hlocked : ∀ lock, s'.key.lock = some lock → ∀ p t, s.Commits p t → p ≤ lock.ts := by
    intro new hl
    rcases heff.lock_cases hl with ⟨old, hold, hts, _⟩ | ⟨_, ⟨q, hc⟩, _⟩ | ⟨r, _, _, hc, hcheck, hnew⟩
    · exact hts ▸ h.locked old hold
    · exact absurd hc (hacquire q)
    · exact hnew.ts ▸ h.below (hchecks r hc) hcheck
  have hframe (hsame : s'.Commits = s.Commits) : Serial s' ∧ s.Commits ≤ s'.Commits :=
    ⟨⟨hrolls, hsame ▸ h.apart, hsame ▸ hlocked⟩, hsame.ge⟩
  cases heff with
  | same _ hwrites | raise _ _ _ _ hwrites | acquire _ _ _ hwrites | lock _ _ _ _ hwrites | unlock _ hwrites =>
    exact hframe (congrArg CommitAt hwrites)
  | @onePc r _ _ commitTs new writeType hc _ hcheck hnew _ _ hstart _ hlock hwrites =>
    have hts : (new.onePcRecord writeType).startTs = r.startTs := hnew.ts
    exact h.insert (hts ▸ h.below (hchecks r hc) hcheck) (hts ▸ hstart) hlock hwrites hrolls
  | @commit startTs commitTs lock writeType hc hold hts _ _ hlock hwrites =>
    have hstart : (lock.commitRecord writeType commitTs).startTs = lock.ts := startTs_commitRecord
    exact h.insert (hstart ▸ h.locked lock hold) (hstart ▸ hts ▸ hafter _ _ hc) hlock hwrites hrolls
  | rollback _ hrec hmake _ _ hwrites => exact hframe (hwrites.undone hrec hmake).commitAt

end

variable {cm : ConcurrencyManager} {l : List (Outside × Command)}

theorem serial_of_run (hrun : Run (Store.step key) Optimistic (.empty cm) l s) : Serial s :=
  hrun.invariant (I := Serial) (fun _ _ _ h hok hstep => (h.step hok hstep).1)
    ⟨rollbacksAtStart_empty cm, fun _ _ ⟨_, hw, _⟩ => (nomatch hw), nofun⟩

/-- **First committer wins**: whatever is prewritten, committed and rolled back in whatever order, of two transactions that
committed a version of the key one began when the other had committed. -/
theorem lifetimes_disjoint (hrun : Run (Store.step key) Optimistic (.empty cm) l s) {p t p' t' : Nat}
    (hc : s.Commits p t) (hc' : s.Commits p' t') : t < p ∧ (p ≤ t' ∨ p' ≤ t ∨ p = p') := by
  have h := serial_of_run hrun
  refine ⟨(h.apart p t hc).1, ?_⟩
  rcases lt_trichotomy p p' with hlt | heq | hlt
  · exact .inl ((h.apart p t hc).2 p' t' hc' hlt)
  · exact .inr (.inr heq)
  · exact .inr (.inl ((h.apart p' t' hc').2 p t hc hlt))

theorem optimistic_lateCommit (s : Store) (c : Command) (hc : c ∈ lateCommit) : Optimistic s (sampleOutside, c) := by
  simp only [lateCommit, List.mem_cons, List.not_mem_nil, or_false] at hc
  rcases hc with rfl | rfl | rfl | rfl | rfl
  · exact ⟨nofun, fun _ hr => Option.some.inj hr ▸ .inr ⟨rfl, nofun⟩, nofun⟩
  · exact ⟨nofun, fun _ hr => absurd hr.symm (Option.some_ne_none _), fun _ _ hc => by cases hc; decide⟩
  · exact ⟨nofun, fun _ hr => absurd hr.symm (Option.some_ne_none _), nofun⟩
  · exact ⟨nofun, fun _ hr => Option.some.inj hr ▸ .inr ⟨rfl, nofun⟩, nofun⟩
  · exact ⟨nofun, fun _ hr => absurd hr.symm (Option.some_ne_none _), fun _ _ hc => by cases hc; decide⟩

theorem lifetimes_disjoint_late : 5 < 6 ∧ (6 ≤ 10 ∨ 16 ≤ 5 ∨ 6 = 16) :=
  lifetimes_disjoint (run_sample _ (.empty (.new 0 0 .log 0 0)) optimistic_lateCommit)
    ⟨_, .tail _ (.head _), rfl, nofun⟩ ⟨_, .head _, rfl, nofun⟩

/-- **What is committed stays**: no further history takes the record away. -/
theorem committed_stays (hrun : Run (Store.step key) Optimistic (.empty cm) l s) {after : List (Outside × Command)}
    (hafter : Run (Store.step key) Optimistic s after s') {p t : Nat} (hc : s.Commits p t) :
    s'.Commits p t :=
  (hafter.invariant (I := fun s => Serial s ∧ s.Commits p t)
    (fun _ _ _ h hok hstep => (h.1.step hok hstep).imp_right (· p t h.2)) ⟨serial_of_run hrun, hc⟩).2

theorem committed_stays_late : (runSample (lateCommit ++ lateCommit)).Commits 16 10 :=
  committed_stays (run_sample _ _ optimistic_lateCommit) (run_sample _ (runSample lateCommit) optimistic_lateCommit)
    ⟨_, .head _, rfl, nofun⟩

/-- **A lock does not change hands**: in every history, a command that finds the key locked leaves it to the transaction
or unlocked. -/
theorem lock_exclusive (hrun : Run (Store.step key) always (.empty cm) l s) (hstep : Store.step key s a s') {old new : Lock}
    (hold : s.key.lock = some old) (hl : s'.key.lock = some new) : old.ts = new.ts := by
  subst hstep
  rcases (process_effect key s a.1 a.2 (rollbacksAtStart_of_run hrun (rollbacksAtStart_empty cm))).lock_cases hl with
    ⟨old', hold', hts, _⟩ | ⟨_, _, hacquire⟩ | ⟨r, _, _, _, hcheck, hnew⟩
  · cases hold'.symm.trans hold
    exact hts
  · exact hacquire old hold
  · rw [hnew.ts]
    cases (check_pass hcheck).1 with
    | pessimistic hlock hts _ _ | locked hlock hts _ _ _ => cases hlock.symm.trans hold; exact hts
    | none hlock _ _ => cases hlock.symm.trans hold

theorem lock_exclusive_late : ∃ old new, (runSample (lateCommit.take 4)).key.lock = some old ∧
    (runSample (lateCommit.take 4 ++ lateCommit.take 1)).key.lock = some new ∧ old.ts = new.ts :=
  ⟨_, _, rfl, rfl, lock_exclusive (run_sample (lateCommit.take 4) (.empty (.new 0 0 .log 0 0)) fun _ _ _ => trivial)
    (a := (sampleOutside, .prewrite (samplePut 5) ⟨0, false⟩)) rfl rfl rfl⟩

end Mvcc
end Tikv
