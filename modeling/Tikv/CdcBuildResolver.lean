import Tikv.CdcLockTracker
/-!
# CdcBuildResolver — which downstream scans the locks (`delegate.rs`, `endpoint.rs`, `initializer.rs`)

`InitDownstream` asks the delegate whether the downstream is to build the lock resolver.  The delegate says so when its
tracker is `pending`, and makes it `preparing`; the initializer of that downstream then scans the region's locks, and
`FinishScanLocks` makes it `prepared`.  The first downstream is asked for, and only it, exactly when the delegate starts
as `pending` (`handedOff_iff`).  `Delegate::new` makes it `preparing`.
-/
namespace Tikv
namespace Cdc
namespace Track

open Lib Track.Delegate

inductive Stage
  | pending | preparing | prepared
deriving DecidableEq, Repr

def Delegate.stage (d : Delegate) : Stage :=
  match d.lockTracker with
  | .pending => .pending
  | .preparing _ => .preparing
  | .prepared _ _ => .prepared

structure Initializers where
  delegate : Delegate
  buildResolver : List Bool
  scanned : List Nat
  finished : List Stage

inductive InitTask
  | initDownstream
  | pushLock (key : Key) (startTs : MiniLock)
  | popLock (key : Key) (startTs : Nat)
  | asyncIncrementalScan (downstream : Nat) (region : Region) (locks : LockMap)

namespace Initializers

def start (d : Delegate) : Initializers := ⟨d, [], [], []⟩

def run (s : Initializers) : InitTask → Option Initializers
  | .initDownstream =>
    let (delegate, buildResolver) := s.delegate.initLockTracker
    some { s with delegate, buildResolver := s.buildResolver ++ [buildResolver] }
  | .pushLock key startTs => (s.delegate.pushLock key startTs).map fun r => { s with delegate := r.1 }
  | .popLock key startTs => (s.delegate.popLock key startTs).map fun r => { s with delegate := r.1 }
  | .asyncIncrementalScan i region locks =>
    -- an initializer comes here once, after its task
    if i ∈ s.scanned then none
    else
      match s.buildResolver[i]? with
      | none => none
      | some false => some { s with scanned := i :: s.scanned }
      | some true =>
        (s.delegate.finishPrepareLockTracker region locks).map fun r =>
          ⟨r.1, s.buildResolver, i :: s.scanned, s.finished ++ [s.delegate.stage]⟩

def Step (s : Initializers) (t : InitTask) (s' : Initializers) : Prop := s.run t = some s'

/-- The quota has room for the scanned locks with the changes listed meanwhile; without it the delegate is deregistered. -/
def Admits (s : Initializers) : InitTask → Prop
  | .asyncIncrementalScan _ region scanned => ∀ delta locks, s.delegate.lockTracker = .preparing delta →
      delta.foldlM Delegate.applyPending scanned = some locks →
      (s.delegate.memoryQuota.free (LockTracker.preparing delta).heldBytes).alloc
        (LockTracker.prepared region locks).heldBytes ≠ none
  | _ => True

/-- **The first downstream builds the resolver, and no other**: once it has scanned, one `FinishScanLocks` has found the
tracker `preparing` and left it `prepared`. -/
def HandedOff (s : Initializers) : Prop :=
  (∃ n, s.buildResolver = true :: List.replicate n false) ∧
    (s.finished, s.delegate.stage) = if 0 ∈ s.scanned then ([.preparing], .prepared) else ([], .preparing)

end Initializers

/-! ## What a call does to the stage -/

section

variable {d d' : Delegate} {key : Key} {counts : Counts}

theorem observed_stage
    (h : (∃ lock, d.pushLock key lock = some (d', counts)) ∨ ∃ ts, d.popLock key ts = some (d', counts)) :
    d.stage ≠ .pending ∧ d'.stage = d.stage := by
  unfold pushLock popLock at h
  unfold stage
  cases ht : d.lockTracker <;> simp only [ht] at h <;> rcases h with ⟨_, h⟩ | ⟨_, h⟩
  all_goals
    repeat' split at h
    all_goals cases h
    all_goals simp [ht]

theorem stage_eq_pending : d.stage = .pending ↔ d.lockTracker = .pending := by
  unfold stage
  cases d.lockTracker <;> simp

theorem initLockTracker_of_ne (h : d.stage ≠ .pending) : d.initLockTracker = (d, false) := by
  unfold initLockTracker
  split
  · rename_i ht
    exact absurd (stage_eq_pending.2 ht) h
  · rfl

end

namespace Initializers

variable {s s' : Initializers} {t : InitTask}

inductive Change (s : Initializers) : Initializers → Prop
  | asked : Change s { s with
      delegate := s.delegate.initLockTracker.1, buildResolver := s.buildResolver ++ [s.delegate.initLockTracker.2] }
  | observed (d : Delegate) (hstage : s.delegate.stage ≠ .pending) (heq : d.stage = s.delegate.stage) :
      Change s { s with delegate := d }
  | skipped (i : Nat) (hflag : s.buildResolver[i]? = some false) : Change s { s with scanned := i :: s.scanned }
  | finished (i : Nat) (d : Delegate) (hi : i ∉ s.scanned) (hflag : s.buildResolver[i]? = some true)
      (hstage : s.delegate.stage = .preparing) (hd : d.stage = .prepared) :
      Change s ⟨d, s.buildResolver, i :: s.scanned, s.finished ++ [s.delegate.stage]⟩

theorem finishPrepareLockTracker_stage {i : Nat} {region : Region} {locks : LockMap} {r : Delegate × Bool}
    (hok : s.Admits (.asyncIncrementalScan i region locks))
    (h : s.delegate.finishPrepareLockTracker region locks = some r) :
    s.delegate.stage = .preparing ∧ r.1.stage = .prepared := by
  unfold finishPrepareLockTracker at h
  unfold stage
  cases ht : s.delegate.lockTracker with
  | preparing delta =>
    simp only [ht] at h
    split at h
    · cases h
    rename_i hfold
    split at h
    · rename_i hfull
      exact absurd hfull (hok delta _ ht hfold)
    cases h
    exact ⟨rfl, rfl⟩
  | _ => simp [ht] at h

theorem change_of_step (hok : s.Admits t) (hstep : s.Step t s') : s.Change s' := by
  cases t with
  | initDownstream => cases hstep; exact .asked
  | pushLock key startTs =>
    obtain ⟨⟨d, _⟩, hpush, rfl⟩ := Option.map_eq_some_iff.1 hstep
    obtain ⟨hne, hstage⟩ := observed_stage (.inl ⟨_, hpush⟩)
    exact .observed d hne hstage
  | popLock key startTs =>
    obtain ⟨⟨d, _⟩, hpop, rfl⟩ := Option.map_eq_some_iff.1 hstep
    obtain ⟨hne, hstage⟩ := observed_stage (.inr ⟨_, hpop⟩)
    exact .observed d hne hstage
  | asyncIncrementalScan i region locks =>
    simp only [Step, run] at hstep
    repeat' split at hstep
    · cases hstep
    · cases hstep
    · cases hstep
      exact .skipped i ‹_›
    · obtain ⟨r, hr, rfl⟩ := Option.map_eq_some_iff.1 hstep
      obtain ⟨hstage, hd⟩ := finishPrepareLockTracker_stage hok hr
      exact .finished i r.1 ‹_› ‹_› hstage hd

def Waiting (s : Initializers) : Prop :=
  s.buildResolver = [] ∧ s.scanned = [] ∧ s.finished = [] ∧ s.delegate.stage = .pending

theorem Waiting.handedOff (h : s.Waiting) (hc : s.Change s') : s'.HandedOff := by
  obtain ⟨hflags, hscanned, hfin, hstage⟩ := h
  cases hc with
  | asked =>
    have ht := stage_eq_pending.1 hstage
    unfold initLockTracker HandedOff
    simp [hflags, hscanned, hfin, ht, stage]
  | observed d hne _ => exact absurd hstage hne
  | _ => simp_all

theorem HandedOff.kept (h : s.HandedOff) (hc : s.Change s') : s'.HandedOff := by
  obtain ⟨⟨n, hflags⟩, hfin⟩ := h
  cases hc with
  | asked =>
    have hne : s.delegate.stage ≠ .pending := by
      have hstage := congrArg Prod.snd hfin
      split at hstage <;> simp_all
    rw [initLockTracker_of_ne hne]
    exact ⟨⟨n + 1, by simp [hflags, List.replicate_succ']⟩, hfin⟩
  | observed d _ heq => exact ⟨⟨n, hflags⟩, by rw [heq]; exact hfin⟩
  | skipped i hflag =>
    -- it is not the first downstream, whose flag is set
    have hne : 0 ≠ i := by rintro rfl; simp [hflags] at hflag
    exact ⟨⟨n, hflags⟩, by simpa [hne] using hfin⟩
  | finished i d hi hflag hstage hd =>
    have hzero : i = 0 := by
      cases i with
      | zero => rfl
      | succ i => simp [hflags, List.getElem?_replicate] at hflag
    subst hzero
    rw [if_neg hi, Prod.mk.injEq] at hfin
    exact ⟨⟨n, hflags⟩, by simp [hfin.1, hstage, hd]⟩

def Unasked (s : Initializers) : Prop := s.delegate.stage ≠ .pending ∧ true ∉ s.buildResolver

theorem Unasked.kept (h : s.Unasked) (hc : s.Change s') : s'.Unasked := by
  obtain ⟨hstage, hflags⟩ := h
  cases hc with
  | asked =>
    rw [initLockTracker_of_ne hstage]
    exact ⟨hstage, by simp [hflags]⟩
  | observed d _ heq => exact ⟨heq ▸ hstage, hflags⟩
  | skipped i _ => exact ⟨hstage, hflags⟩
  | finished i d _ hflag _ _ => exact absurd (List.mem_of_getElem? hflag) hflags

/-- **The resolver is handed to the first downstream exactly when the delegate starts as `pending`**, in every run with an
`InitDownstream` task. -/
theorem handedOff_iff {d : Delegate} {tasks : List InitTask} (h : Run Step Admits (start d) tasks s)
    (hinit : s.buildResolver ≠ []) : s.HandedOff ↔ d.lockTracker = .pending := by
  rw [← stage_eq_pending]
  constructor
  · rintro ⟨⟨n, hflags⟩, -⟩
    by_contra hstage
    have hun : s.Unasked :=
      h.invariant (fun _ _ _ hI hok hstep => hI.kept (change_of_step hok hstep)) ⟨hstage, List.not_mem_nil⟩
    exact hun.2 (by simp [hflags])
  · intro hstage
    have hinv : s.Waiting ∨ s.HandedOff := by
      refine h.invariant (I := fun s => s.Waiting ∨ s.HandedOff) (fun _ _ _ hI hok hstep => .inr ?_)
        (.inl ⟨rfl, rfl, rfl, hstage⟩)
      exact hI.elim (·.handedOff (change_of_step hok hstep)) (·.kept (change_of_step hok hstep))
    exact hinv.resolve_left fun hw => hinit hw.1

theorem handedOff_of_pending : ∃ s, Run Step Admits (start ⟨⟨0, 100⟩, .pending⟩)
    [.initDownstream, .initDownstream, .asyncIncrementalScan 0 Region.default ∅] s ∧ s.HandedOff := by
  have hrun : Run Step Admits (start ⟨⟨0, 100⟩, .pending⟩)
      [.initDownstream, .initDownstream, .asyncIncrementalScan 0 Region.default ∅]
      ⟨⟨⟨0, 100⟩, .prepared Region.default ∅⟩, [true, false], [0], [.preparing]⟩ := by
    refine .cons trivial rfl (.cons trivial rfl (.cons ?_ rfl (.nil _)))
    intro delta locks hdelta hlocks
    cases hdelta
    cases hlocks
    nofun
  exact ⟨_, hrun, (handedOff_iff hrun nofun).2 rfl⟩

/-- **A new delegate hands the resolver to no downstream.** -/
theorem not_handedOff_new : ∃ s, Run Step Admits (start (.new ⟨0, 100⟩)) [.initDownstream] s ∧
    s.buildResolver = [false] ∧ ¬ s.HandedOff := by
  refine ⟨⟨.new ⟨0, 100⟩, [false], [], []⟩, .cons trivial rfl (.nil _), rfl, ?_⟩
  rintro ⟨⟨n, h⟩, -⟩
  cases h

end Initializers
end Track
end Cdc
end Tikv
