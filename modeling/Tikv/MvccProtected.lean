import Tikv.MvccEffect
/-!
# MvccProtected — protected rollbacks

A protected rollback of the transaction `t` is a Rollback record at `t` that is not collapsed, or a commit record of
another transaction at `t` marked with `has_overlapped_rollback`.  Only a commit whose timestamp is calculated can come to
stand at `t`.  It does not if `t` was published before the commit timestamp was calculated, and it carries the mark if the
lock was told of the rollback.
-/
namespace Tikv
namespace Mvcc

open Lib List

/-- The record at `t` is a protected rollback of the transaction `t`, alone or marked in a commit record. -/
def Protected (v : Versions) (t : Nat) : Prop :=
  ∃ w, (t, w) ∈ v.entries ∧ (w.isProtected = true ∨ w.hasOverlappedRollback = true)

def RollbackKept (v : Versions) (t : Nat) : Prop :=
  ∃ w, (t, w) ∈ v.entries ∧ ((w.writeType = .rollback ∧ w.startTs = t) ∨
    (w.writeType ≠ .rollback ∧ w.startTs ≠ t ∧ w.hasOverlappedRollback = true))

/-! ## Which histories -/

/-- `started` are the start timestamps of the transactions.  The commit timestamp of a transaction is one of them only if
it was calculated: by an async commit, or in the prewrite of a one-phase commit. -/
def Timely (started : Nat → Prop) (s : Store) (a : Outside × Command) : Prop :=
  (∀ t, a.2.rollbackOf = some t → started t) ∧
  ∀ t commitTs lock, a.2.commitOf = some (t, commitTs) → s.key.lock = some lock → lock.ts = t →
    lock.useAsyncCommit = false → ¬ started commitTs

/-- The rollback of the transaction `t` is published before it is written, and no async-commit lock that may still commit
at `t` is left without its mark. -/
structure Published (key : Bytes) (s : Store) (a : Outside × Command) : Prop where
  ownLock : ∀ t lock, a.2.rollbackOf = some t → a.2.publishesRollback = false → s.key.lock = some lock → lock.ts = t →
    key = lock.primary ∨ 0 < lock.generation → t ≤ s.cm.maxTs
  notMax : ∀ t, a.2.rollbackOf = some t → a.2.publishesRollback = true → t ≠ tsMax
  overlapped : ∀ t lock w, a.2.rollbackOf = some t → a.2.publishesRollback = true → a.2.isSecondaryCheck = false →
    s.key.lock = some lock → lock.ts ≠ t → lock.useAsyncCommit = true → lock.minCommitTs ≤ t →
    (t, w) ∈ s.key.writes.entries → w.startTs = t ∨ w.hasOverlappedRollback = true

/-! ## The invariant -/

/-- Every protected rollback is published, and known to the lock that could overwrite it. -/
structure Guarded (started : Nat → Prop) (s : Store) : Prop where
  rollbacks : RollbacksAtStart s.key.writes
  flagged : ∀ e ∈ s.key.writes.entries, e.2.hasOverlappedRollback = true → e.2.writeType ≠ .rollback ∧ e.2.startTs ≠ e.1
  published : ∀ t, Protected s.key.writes t → started t ∧ t ≤ s.cm.maxTs
  known : ∀ t lock, Protected s.key.writes t → s.key.lock = some lock → lock.useAsyncCommit = true →
    lock.minCommitTs ≤ t → t ∈ lock.rollbackTs
  marks : ∀ lock, s.key.lock = some lock → ∀ t ∈ lock.rollbackTs, t ≠ lock.ts ∧ Protected s.key.writes t

variable {started : Nat → Prop}

theorem guarded_empty (cm : ConcurrencyManager) : Guarded started (.empty cm) := by
  constructor
  · nofun
  · nofun
  · rintro t ⟨w, hw, _⟩
    cases hw
  · rintro t lock ⟨w, hw, _⟩
    cases hw
  · nofun

variable {s : Store} {t : Nat}

section

variable (h : Guarded started s)
include h

theorem Guarded.kept (ht : Protected s.key.writes t) : RollbackKept s.key.writes t := by
  obtain ⟨w, hw, hprot | hflag⟩ := ht
  · have hroll : w.writeType = .rollback := by
      unfold Write.isProtected at hprot
      simp only [Bool.and_eq_true, decide_eq_true_eq] at hprot
      exact hprot.1
    exact ⟨w, hw, .inl ⟨hroll, h.rollbacks _ hw hroll⟩⟩
  · exact ⟨w, hw, .inr ⟨(h.flagged _ hw hflag).1, (h.flagged _ hw hflag).2, hflag⟩⟩

variable {s' : Store}

/-- A command that leaves the records alone and the lock's marks, async commit and `min_commit_ts` in order. -/
theorem Guarded.frame (hwrites : s'.key.writes = s.key.writes) (hmax : s.cm.maxTs ≤ s'.cm.maxTs)
    (hlock : ∀ lock', s'.key.lock = some lock' →
      (∃ lock, s.key.lock = some lock ∧ lock'.ts = lock.ts ∧ lock'.rollbackTs = lock.rollbackTs ∧
        lock'.useAsyncCommit = lock.useAsyncCommit ∧ lock.minCommitTs ≤ lock'.minCommitTs) ∨
      (lock'.rollbackTs = [] ∧ (lock'.useAsyncCommit = true → s'.cm.maxTs < lock'.minCommitTs))) :
    Guarded started s' ∧ ∀ t, Protected s.key.writes t → Protected s'.key.writes t := by
  refine ⟨?_, fun t ht => hwrites ▸ ht⟩
  constructor
  · rw [hwrites]
    exact h.rollbacks
  · rw [hwrites]
    exact h.flagged
  · intro t ht
    rw [hwrites] at ht
    exact (h.published t ht).imp_right (·.trans hmax)
  · intro t lock' ht hl hasync hmin
    rw [hwrites] at ht
    rcases hlock lock' hl with ⟨lock, hk, _, hmarks, heq, hle⟩ | ⟨_, hnew⟩
    · rw [hmarks]
      exact h.known t lock ht hk (heq ▸ hasync) (hle.trans hmin)
    have := hnew hasync
    have := (h.published t ht).2
    omega
  · intro lock' hl t ht
    rw [hwrites]
    rcases hlock lock' hl with ⟨lock, hk, hts, hmarks, _, _⟩ | ⟨hnil, _⟩
    · rw [hmarks] at ht
      rw [hts]
      exact h.marks lock hk t ht
    · rw [hnil] at ht
      cases ht

/-! ## Commits -/

variable {v : Versions} {commitTs : Nat} {w : Write}

omit h in
theorem protected_insert : Protected (v.insert commitTs w) t ↔
      (t = commitTs ∧ (w.isProtected = true ∨ w.hasOverlappedRollback = true)) ∨ (t ≠ commitTs ∧ Protected v t) := by
  constructor
  · rintro ⟨w', hw', hprot⟩
    rcases Chain.mem_insert.1 hw' with heq | ⟨hmem, hne⟩
    · cases heq
      exact .inl ⟨rfl, hprot⟩
    · exact .inr ⟨hne, w', hmem, hprot⟩
  · rintro (⟨rfl, hprot⟩ | ⟨hne, w', hmem, hprot⟩)
    · exact ⟨w, Chain.mem_insert.2 (.inl rfl), hprot⟩
    · exact ⟨w', Chain.mem_insert.2 (.inr ⟨hmem, hne⟩), hprot⟩

theorem Guarded.insert (hlock : s'.key.lock = none)
    (hwrites : s'.key.writes = s.key.writes.insert commitTs w) (hmax : s.cm.maxTs ≤ s'.cm.maxTs)
    (htype : w.writeType ≠ .rollback)
    (hflag : w.hasOverlappedRollback = true → w.startTs ≠ commitTs ∧ Protected s.key.writes commitTs) :
    Guarded started s' := by
  have hprot : w.isProtected = false := by
    unfold Write.isProtected
    rw [decide_eq_false htype, Bool.false_and]
  have hsub : ∀ t, Protected s'.key.writes t → Protected s.key.writes t := by
    intro t ht
    rw [hwrites, protected_insert] at ht
    rcases ht with ⟨rfl, hw | hw⟩ | ⟨_, ht⟩
    · rw [hprot] at hw
      cases hw
    · exact (hflag hw).2
    · exact ht
  constructor
  · rw [hwrites]
    exact h.rollbacks.insert htype
  · rw [hwrites]
    exact Chain.forall_mem_insert (fun hf => ⟨htype, (hflag hf).1⟩) fun e he _ => h.flagged e he
  · intro t ht
    exact (h.published t (hsub t ht)).imp_right (·.trans hmax)
  · exact fun t lock' _ hl => nomatch hlock.symm.trans hl
  · exact fun lock' hl => nomatch hlock.symm.trans hl

/-! ## Rollbacks -/

variable {startTs : Nat} {protect : Bool} {overlapped : Option OverlappedWrite} {write : Option Write}

omit h in
theorem makeRollback_protected (h : makeRollback startTs protect overlapped = .ok write) :
    (protect = true → ∃ w, write = some w ∧ (w.isProtected = true ∨ w.hasOverlappedRollback = true)) ∧
    ∀ w, write = some w → w.isProtected = true ∨ w.hasOverlappedRollback = true → protect = true := by
  cases protect with
  | true =>
    refine ⟨fun _ => ?_, fun _ _ _ => rfl⟩
    unfold makeRollback at h
    split at h
    · split at h
      · cases h
      cases h
      exact ⟨_, rfl, .inr rfl⟩
    · cases h
      exact ⟨_, rfl, .inl rfl⟩
  | false =>
    refine ⟨nofun, ?_⟩
    rintro w rfl hw
    rcases makeRollback_some h with ⟨_, rfl⟩ | ⟨_, _, hprot, _, _⟩
    · rcases hw with hw | hw <;> cases hw
    · cases hprot

theorem Guarded.not_protected
    (hrec : getTxnCommitRecord s.key.writes startTs = .none overlapped) : ¬ Protected s.key.writes startTs := by
  intro ht
  obtain ⟨w, hw, hkept⟩ := h.kept ht
  have hfinds := findsRecord s.key.writes startTs
  rw [hrec] at hfinds
  cases hfinds with
  | none hmem _ => exact hmem _ hw rfl
  | overlapped hmem hstart hflag _ _ _ =>
    cases Chain.eq_of_mem hw hmem
    rcases hkept with ⟨_, hts⟩ | ⟨_, _, hf⟩
    · exact hstart hts
    rw [hflag] at hf
    cases hf

variable {v' : Versions}

theorem protected_rollsBack (hnot : ¬ Protected s.key.writes startTs) (hroll : RollsBack s.key.writes v' startTs write)
    (ht : Protected s.key.writes t) : Protected v' t := by
  obtain ⟨w, hw, hprot⟩ := ht
  have hne : t ≠ startTs := by
    rintro rfl
    exact hnot ⟨w, hw, hprot⟩
  rcases hroll.keep (t, w) hw (.inl hne) with hmem | ⟨htype, hunprot, _⟩
  · exact ⟨w, hmem, hprot⟩
  rcases hprot with hprot | hflag
  · rw [hunprot] at hprot
    cases hprot
  · exact absurd htype (h.flagged _ hw hflag).1

omit h in
theorem protected_of_rollsBack (hroll : RollsBack v v' startTs write) (ht : Protected v' t) :
    Protected v t ∨ (t = startTs ∧ ∃ w, write = some w ∧ (w.isProtected = true ∨ w.hasOverlappedRollback = true)) := by
  obtain ⟨w, hw, hprot⟩ := ht
  rcases hroll.sub _ hw with ⟨hmem, _⟩ | ⟨heq, hwrite⟩
  · exact .inl ⟨w, hmem, hprot⟩
  · exact .inr ⟨heq, w, hwrite, hprot⟩

theorem Guarded.flagged_undone (hundone : Undone s.key.writes v' startTs) :
    ∀ e ∈ v'.entries, e.2.hasOverlappedRollback = true → e.2.writeType ≠ .rollback ∧ e.2.startTs ≠ e.1 := by
  intro e he hf
  rcases hundone.sub e he with hmem | ⟨heq, ⟨_, hw⟩ | ⟨_, _, hmarks⟩⟩
  · exact h.flagged e hmem hf
  · rw [hw] at hf
    cases hf
  · rw [hmarks.eq, heq]
    exact ⟨fun htype => absurd (h.rollbacks _ hmarks.mem htype) (ne_of_lt hmarks.lt), ne_of_lt hmarks.lt⟩

variable {a : Outside × Command}

theorem Guarded.rollback (hmax : s.cm.maxTs ≤ s'.cm.maxTs)
    (hrec : getTxnCommitRecord s.key.writes startTs = .none overlapped)
    (hmake : makeRollback startTs protect overlapped = .ok write)
    (hlock : AfterRollback a.2 startTs protect overlapped s.key.lock s'.key.lock)
    (hwrites : RollsBack s.key.writes s'.key.writes startTs write)
    (hnew : protect = true → started startTs ∧ startTs ≤ s'.cm.maxTs)
    (hover : protect = true → a.2.isSecondaryCheck = false → overlapped.isSome = true → ∀ lock, s.key.lock = some lock →
      lock.ts ≠ startTs → lock.useAsyncCommit = true → startTs < lock.minCommitTs)
    (hroll : RollbacksAtStart s'.key.writes) : Guarded started s' := by
  obtain ⟨hputs, hprotects⟩ := makeRollback_protected hmake
  have hnot := h.not_protected hrec
  have hkeep : ∀ {t}, Protected s.key.writes t → Protected s'.key.writes t := protected_rollsBack h hnot hwrites
  have hcases : ∀ t, Protected s'.key.writes t → Protected s.key.writes t ∨ (t = startTs ∧ protect = true) := by
    intro t ht
    rcases protected_of_rollsBack hwrites ht with ht | ⟨heq, w, hw, hprot⟩
    · exact .inl ht
    · exact .inr ⟨heq, hprotects w hw hprot⟩
  have hpublished : ∀ t, Protected s'.key.writes t → started t ∧ t ≤ s'.cm.maxTs := by
    intro t ht
    rcases hcases t ht with ht | ⟨rfl, hp⟩
    · exact (h.published t ht).imp_right (·.trans hmax)
    · exact hnew hp
  have hflagged := h.flagged_undone (hwrites.undone hrec hmake)
  -- the same lock, with nothing to be told of
  have same : s'.key.lock = s.key.lock →
      (protect = true → ∀ lock, s.key.lock = some lock → lock.useAsyncCommit = true → startTs < lock.minCommitTs) →
      Guarded started s' := by
    intro hsame hsafe
    refine ⟨hroll, hflagged, hpublished, fun t lock ht hl hasync hmin => ?_, fun lock hl t ht => ?_⟩
    · rw [hsame] at hl
      rcases hcases t ht with ht | ⟨rfl, hp⟩
      · exact h.known t lock ht hl hasync hmin
      · exact absurd hmin (not_le.2 (hsafe hp lock hl hasync))
    · rw [hsame] at hl
      exact (h.marks lock hl t ht).imp_right hkeep
  generalize hk : s.key.lock = lock₀ at hlock
  generalize hk' : s'.key.lock = lock₁ at hlock
  cases hlock with
  | own _ =>
    exact ⟨hroll, hflagged, hpublished, fun t lock _ hl => (nomatch hk'.symm.trans hl),
      fun lock hl => (nomatch hk'.symm.trans hl)⟩
  | other hts hsafe =>
    refine same (hk'.trans hk.symm) fun hp lock hl hasync => hsafe lock ?_ hp hasync
    exact hk ▸ hl
  | overlapped hts hsome hsec =>
    refine same (hk'.trans hk.symm) fun hp lock hl hasync => hover hp hsec hsome lock hl (hts lock ?_) hasync
    exact hk ▸ hl
  | @mark lock hts hp =>
    obtain ⟨w, hw, hprot⟩ := hputs hp
    have hmarked : Protected s'.key.writes startTs := ⟨w, hwrites.new w hw, hprot⟩
    refine ⟨hroll, hflagged, hpublished, fun t lock' ht hl hasync hmin => ?_, fun lock' hl t ht => ?_⟩
    · rw [hk'] at hl
      cases hl
      rcases hcases t ht with ht | ⟨rfl, _⟩
      · exact mem_append_left _ (h.known t lock ht hk hasync hmin)
      · exact mem_append_right _ (mem_singleton.2 rfl)
    · rw [hk'] at hl
      cases hl
      rcases mem_append.1 ht with ht | ht
      · exact (h.marks lock hk t ht).imp_right hkeep
      cases mem_singleton.1 ht
      exact ⟨Ne.symm hts, hmarked⟩

/-! ## One command, and a history -/

variable {key : Bytes}

theorem Guarded.rolledBack (hstarted : started startTs) (hpub : Published key s a)
    (hc : a.2.rollbackOf = some startTs) (hrec : getTxnCommitRecord s.key.writes startTs = .none overlapped)
    (hmake : makeRollback startTs protect overlapped = .ok write)
    (hprotect : protect = true → a.2.publishesRollback = true ∨
      ∃ lock, s.key.lock = some lock ∧ lock.ts = startTs ∧ (key = lock.primary ∨ 0 < lock.generation))
    (hlock : AfterRollback a.2 startTs protect overlapped s.key.lock (s.process key a.1 a.2).1.key.lock)
    (hwrites : RollsBack s.key.writes (s.process key a.1 a.2).1.key.writes startTs write)
    (hrolls : RollbacksAtStart (s.process key a.1 a.2).1.key.writes) : Guarded started (s.process key a.1 a.2).1 := by
  have hmax := le_maxTs_process key s a.1 a.2
  have hover : a.2.publishesRollback = true → a.2.isSecondaryCheck = false → overlapped.isSome = true →
      ∀ lock, s.key.lock = some lock → lock.ts ≠ startTs → lock.useAsyncCommit = true → startTs < lock.minCommitTs := by
    intro hp hsec hsome lock hl hne hasync
    obtain ⟨ov, rfl⟩ := Option.isSome_iff_exists.1 hsome
    obtain ⟨hmem, hstart, hflag, _⟩ := overlapped_inv hrec
    by_contra hmin
    rcases hpub.overlapped startTs lock ov.write hc hp hsec hl hne hasync (not_lt.1 hmin) hmem with h₁ | h₁
    · exact hstart h₁
    rw [hflag] at h₁
    cases h₁
  cases hpubl : a.2.publishesRollback with
  | true =>
    rcases startTs_le_maxTs hpubl hc (hpub.notMax startTs hc hpubl) with hsame | hle
    · exact (h.frame (congrArg KeyState.writes hsame) hmax fun lock' hl =>
        .inl ⟨lock', hsame ▸ hl, rfl, rfl, rfl, le_rfl⟩).1
    · exact h.rollback hmax hrec hmake hlock hwrites (fun _ => ⟨hstarted, hle⟩) (fun _ => hover hpubl) hrolls
  | false =>
    -- such a rollback is protected only where the transaction's own lock is found
    have hown : protect = true → ∃ lock, s.key.lock = some lock ∧ lock.ts = startTs ∧
        (key = lock.primary ∨ 0 < lock.generation) := by
      intro hp
      rcases hprotect hp with hp | hown
      · rw [hpubl] at hp
        cases hp
      · exact hown
    refine h.rollback hmax hrec hmake hlock hwrites (fun hp => ?_) (fun hp _ _ lock hl hne => ?_) hrolls
    · obtain ⟨lock, hl, hts, hprimary⟩ := hown hp
      exact ⟨hstarted, (hpub.ownLock startTs lock hc hpubl hl hts hprimary).trans hmax⟩
    · obtain ⟨lock', hl', hts, _⟩ := hown hp
      rw [hl] at hl'
      cases hl'
      exact absurd hts hne

theorem Guarded.step (htimely : Timely started s a) (hpub : Published key s a) :
    Guarded started (s.process key a.1 a.2).1 ∧
      ∀ t, Protected s.key.writes t → Protected (s.process key a.1 a.2).1.key.writes t := by
  have hmax := le_maxTs_process key s a.1 a.2
  have heff := process_effect key s a.1 a.2 h.rollbacks
  have hrolls := h.rollbacks.effect heff
  cases heff with
  | same hlock hwrites =>
    exact h.frame hwrites hmax fun lock' hl => .inl ⟨lock', hlock ▸ hl, rfl, rfl, rfl, le_rfl⟩
  | raise hold _ hmin hlock hwrites =>
    refine h.frame hwrites hmax fun lock' hl => .inl ?_
    cases hlock.symm.trans hl
    exact ⟨_, hold, rfl, rfl, rfl, hmin⟩
  | acquire _ _ hlock hwrites =>
    refine h.frame hwrites hmax fun lock' hl => .inr ?_
    cases hlock.symm.trans hl
    exact ⟨rfl, nofun⟩
  | lock _ _ hnew hlock hwrites =>
    refine h.frame hwrites hmax fun lock' hl => .inr ?_
    cases hlock.symm.trans hl
    exact ⟨hnew.rollbackTs, fun hasync => (hnew.async hasync).1⟩
  | unlock hlock hwrites =>
    exact h.frame hwrites hmax fun lock' hl => nomatch hlock.symm.trans hl
  | onePc _ _ _ _ hcommit _ _ htype hlock hwrites =>
    refine ⟨h.insert hlock hwrites hmax (writeType_of_fromLockType htype) nofun, fun t ht => ?_⟩
    rw [hwrites, protected_insert]
    -- the commit timestamp is above everything published
    have := (h.published t ht).2
    exact .inr ⟨by omega, ht⟩
  | @commit startTs commitTs lock writeType hc hold hts hmin htype hlock hwrites =>
    refine ⟨h.insert hlock hwrites hmax (commitRecord_ne_rollback htype) fun hf => ?_, fun t ht => ?_⟩
    · rw [startTs_commitRecord]
      exact (h.marks lock hold commitTs (flag_commitRecord.1 hf)).imp_left Ne.symm
    · rw [hwrites, protected_insert]
      by_cases heq : t = commitTs
      · subst heq
        refine .inl ⟨rfl, .inr (flag_commitRecord.2 ?_)⟩
        cases hasync : lock.useAsyncCommit with
        | true => exact h.known t lock ht hold hasync hmin
        | false => exact absurd (h.published t ht).1 (htimely.2 startTs t lock hc hold hts hasync)
      · exact .inr ⟨heq, ht⟩
  | @rollback startTs protect overlapped write hc hrec hmake hprotect hlock hwrites =>
    exact ⟨h.rolledBack (htimely.1 startTs hc) hpub hc hrec hmake hprotect hlock hwrites hrolls,
      fun t ht => protected_rollsBack h (h.not_protected hrec) hwrites ht⟩

end

theorem guarded_of_run {l : List (Outside × Command)}
    (hrun : Run (Store.step key) (fun s a => Timely started s a ∧ Published key s a) s l s') :
    Guarded started s → Guarded started s' ∧ ∀ t, Protected s.key.writes t → Protected s'.key.writes t := by
  induction hrun with
  | nil s => exact fun h => ⟨h, fun _ ht => ht⟩
  | @cons s s₁ _ a _ hok hstep _ ih =>
    intro h
    subst hstep
    obtain ⟨h₁, hkeep⟩ := h.step hok.1 hok.2
    obtain ⟨h', hkeep'⟩ := ih h₁
    exact ⟨h', fun t ht => hkeep' t (hkeep t ht)⟩

/-- **A protected rollback is never lost**, in a history whose protected rollbacks are published. -/
theorem rollbackKept_of_published {key : Bytes} {cm : ConcurrencyManager} {before l : List (Outside × Command)}
    {s s' : Store} (hbefore : Run (Store.step key) (fun s a => Timely started s a ∧ Published key s a) (.empty cm) before s)
    {t : Nat} (ht : Protected s.key.writes t)
    (hrun : Run (Store.step key) (fun s a => Timely started s a ∧ Published key s a) s l s') :
    RollbackKept s'.key.writes t := by
  obtain ⟨h, _⟩ := guarded_of_run hbefore (guarded_empty cm)
  obtain ⟨h', hkeep⟩ := guarded_of_run hrun h
  exact h'.kept (hkeep t ht)

/-! ## A rollback that is not published -/

def sampleAsync : Prewrite :=
  { samplePut 6 with kind := .pessimistic 7, secondaryKeys := some [], commitKind := .async 0, minCommitTs := 8 }

def rolledBackBy (c : Command) : List Command := [.prewrite (samplePut 10) ⟨0, false⟩, c]

def asyncCommitAt (commitTs : Nat) : List Command := [.prewrite sampleAsync ⟨0, false⟩, .commit 6 commitTs]

def sixOrTen (t : Nat) : Prop := t = 6 ∨ t = 10

theorem timely_prewrite {r : Prewrite} {others : OtherKeys} :
    Timely sixOrTen s (sampleOutside, .prewrite r others) := ⟨fun _ h => (nomatch h), nofun⟩

theorem published_of_none (h : a.2.rollbackOf = none) : Published key s a := by
  constructor <;> simp [h]

theorem timely_asyncCommit (h : s.key.lock.map (·.useAsyncCommit) = some true) (commitTs : Nat) :
    Timely sixOrTen s (sampleOutside, .commit 6 commitTs) := by
  refine ⟨fun _ h => (nomatch h), fun t c lock _ hl _ hsync => ?_⟩
  rw [hl, Option.map_some, hsync] at h
  cases h

theorem rollbackKept_of_published_cleanup :
    RollbackKept (runSample (rolledBackBy (.cleanup 10 0) ++ asyncCommitAt 11)).key.writes 10 := by
  have hbefore : Run (Store.step []) (fun s a => Timely sixOrTen s a ∧ Published [] s a) (.empty (.new 0 0 .log 0 0))
      ((rolledBackBy (.cleanup 10 0)).map (sampleOutside, ·)) (runSample (rolledBackBy (.cleanup 10 0))) := by
    refine .cons ⟨timely_prewrite, published_of_none rfl⟩ rfl (.cons ⟨⟨fun t ht => ?_, nofun⟩,
      fun _ _ _ h => (nomatch h), fun t ht _ => ?_, ?_⟩ rfl (.nil _))
    · cases ht
      exact .inr rfl
    · cases ht
      decide
    · -- the lock is the transaction's own
      intro t lock w ht _ _ hl hne
      cases ht
      cases hl
      exact absurd rfl hne
  have hrun : Run (Store.step []) (fun s a => Timely sixOrTen s a ∧ Published [] s a)
      (runSample (rolledBackBy (.cleanup 10 0))) ((asyncCommitAt 11).map (sampleOutside, ·))
      (runSample (rolledBackBy (.cleanup 10 0) ++ asyncCommitAt 11)) :=
    .cons ⟨timely_prewrite, published_of_none rfl⟩ rfl
      (.cons ⟨timely_asyncCommit rfl 11, published_of_none rfl⟩ rfl (.nil _))
  exact rollbackKept_of_published hbefore ⟨Write.newRollback 10 true, mem_cons_self, .inl rfl⟩ hrun

/-- **A rollback by `Rollback` is not published**: the transaction 6 commits at 10 and the protected rollback of the
transaction 10 on its primary key is gone. -/
theorem not_rollbackKept_rollback : ¬ ∀ (key : Bytes) (started : Nat → Prop) (cm : ConcurrencyManager)
    (before l : List (Outside × Command)) (s s' : Store) (t : Nat),
    Run (Store.step key) (Timely started) (.empty cm) before s → Protected s.key.writes t →
    Run (Store.step key) (Timely started) s l s' → RollbackKept s'.key.writes t := by
  intro h
  have hbefore : Run (Store.step []) (Timely sixOrTen) (.empty (.new 0 0 .log 0 0))
      ((rolledBackBy (.rollback 10)).map (sampleOutside, ·)) (runSample (rolledBackBy (.rollback 10))) := by
    refine .cons timely_prewrite rfl (.cons ⟨fun t ht => ?_, nofun⟩ rfl (.nil _))
    cases ht
    exact .inr rfl
  have hrun : Run (Store.step []) (Timely sixOrTen) (runSample (rolledBackBy (.rollback 10)))
      ((asyncCommitAt 10).map (sampleOutside, ·)) (runSample (rolledBackBy (.rollback 10) ++ asyncCommitAt 10)) :=
    .cons timely_prewrite rfl (.cons (timely_asyncCommit rfl 10) rfl (.nil _))
  obtain ⟨w, hw, hkept⟩ := h _ _ _ _ _ _ _ 10 hbefore ⟨Write.newRollback 10 true, mem_cons_self, .inl rfl⟩ hrun
  cases mem_singleton.1 hw
  rcases hkept with ⟨htype, _⟩ | ⟨_, _, hflag⟩
  · cases htype
  · cases hflag

end Mvcc
end Tikv
