import Tikv.IngestSstBatcher
import Tikv.LibRun
import Mathlib.Data.List.AList
/-!
# IngestCheckpoint — recording and loading the frontier (`checkpoint.rs`)

The frontier is kept in a local file, which is what a resume reads, and its minimum as a PD service safe point.  The
minimum is remembered before either is stored, so that a call whose step failed is not made up for by the next one
(`recordings_sound_iff`).
-/
namespace Tikv
namespace Ingest

open Lib

abbrev Frontier := AList (fun _ : Nat => Nat)

def globalMinTs (f : Frontier) : Option Nat := (f.entries.map Sigma.snd).min?

structure CheckpointManager where
  lastRecordedTs : Option Nat

def CheckpointManager.new : CheckpointManager := ⟨none⟩

structure RecordEnv where
  fsWrite : Except String Unit
  updateServiceSafePoint : Except String Unit

/-- `record_checkpoint`: the manager and the file after it, and its answer.  A file that cannot be written is only
warned of. -/
def CheckpointManager.recordCheckpoint (m : CheckpointManager) (env : RecordEnv) (frontier : Frontier)
    (file : Option Frontier) : CheckpointManager × Option Frontier × Except Error Unit :=
  if frontier.entries.isEmpty then (m, file, .ok ())
  else
    let minTs := (globalMinTs frontier).getD 0
    if m.lastRecordedTs = some minTs then (m, file, .ok ())
    else
      let file := match env.fsWrite with
        | .ok () => some frontier
        | .error _ => file
      match env.updateServiceSafePoint with
      | .error e => (⟨some minTs⟩, file, .error (.checkpointError s!"failed to update safe point: {e}"))
      | .ok () => (⟨some minTs⟩, file, .ok ())

def loadCheckpoint (file : Option Frontier) : Frontier := file.getD ∅

/-! ## What a call reports -/

structure Recording where
  manager : CheckpointManager
  file : Option Frontier
  safePoint : Option Nat

structure RecordCall where
  env : RecordEnv
  frontier : Frontier
  nonEmpty : frontier.entries ≠ []

def RecordEnv.Works (env : RecordEnv) : Prop := env.fsWrite = .ok () ∧ env.updateServiceSafePoint = .ok ()

def Recording.Attempts (s : Recording) (frontier : Frontier) : Prop :=
  frontier.entries.isEmpty = false ∧ s.manager.lastRecordedTs ≠ some ((globalMinTs frontier).getD 0)

instance instDecidableAttempts (s : Recording) (frontier : Frontier) : Decidable (s.Attempts frontier) :=
  inferInstanceAs (Decidable (_ ∧ _))

def Recording.answer (s : Recording) (c : RecordCall) : Except Error Unit :=
  (s.manager.recordCheckpoint c.env c.frontier s.file).2.2

def Recording.record (s : Recording) (c : RecordCall) : Recording where
  manager := (s.manager.recordCheckpoint c.env c.frontier s.file).1
  file := (s.manager.recordCheckpoint c.env c.frontier s.file).2.1
  safePoint :=
    if s.Attempts c.frontier then
      match c.env.updateServiceSafePoint with
      | .ok () => globalMinTs c.frontier
      | .error _ => s.safePoint
    else s.safePoint

/-- **A call reports the truth and stays retryable**: if it answers `Ok`, the file and the safe point have the minimum of
its frontier; and if a step of it failed, the same call comes to the steps again. -/
structure Recording.Sound (s : Recording) (c : RecordCall) : Prop where
  truth : s.answer c = .ok () → globalMinTs (loadCheckpoint (s.record c).file) = globalMinTs c.frontier ∧
    (s.record c).safePoint = globalMinTs c.frontier
  retryable : s.Attempts c.frontier → ¬ c.env.Works → (s.record c).Attempts c.frontier

def Recording.Unfailing (s : Recording) (c : RecordCall) : Prop := s.Attempts c.frontier → c.env.Works

def Recording.Stored (s : Recording) : Prop :=
  ∀ ts, s.manager.lastRecordedTs = some ts → globalMinTs (loadCheckpoint s.file) = some ts ∧ s.safePoint = some ts

theorem globalMinTs_eq {f : Frontier} (h : f.entries ≠ []) : globalMinTs f = some ((globalMinTs f).getD 0) := by
  cases hmin : globalMinTs f with
  | none => exact absurd (List.map_eq_nil_iff.1 (List.min?_eq_none_iff.1 hmin)) h
  | some ts => rfl

section

variable {s : Recording} {c : RecordCall}

theorem recordCheckpoint_attempts (h : s.Attempts c.frontier) :
    (s.record c).manager.lastRecordedTs = some ((globalMinTs c.frontier).getD 0) ∧
    (c.env.Works → (s.record c).file = some c.frontier ∧ (s.record c).safePoint = globalMinTs c.frontier) := by
  unfold Recording.record CheckpointManager.recordCheckpoint
  rw [h.1, if_neg h.2, if_pos h]
  constructor
  · cases c.env.updateServiceSafePoint <;> rfl
  · rintro ⟨hfs, hpd⟩
    rw [hfs, hpd]
    exact ⟨rfl, rfl⟩

theorem record_of_not_attempts (h : ¬ s.Attempts c.frontier) :
    s.manager.lastRecordedTs = some ((globalMinTs c.frontier).getD 0) ∧ s.record c = s := by
  have hempty : c.frontier.entries.isEmpty = false := by simpa using c.nonEmpty
  have hlast : s.manager.lastRecordedTs = some ((globalMinTs c.frontier).getD 0) :=
    Decidable.not_not.1 fun hne => h ⟨hempty, hne⟩
  refine ⟨hlast, ?_⟩
  unfold Recording.record CheckpointManager.recordCheckpoint
  rw [hempty, if_neg Bool.false_ne_true, if_pos hlast, if_neg h]

theorem sound_iff_unfailing (hs : s.Stored) : s.Sound c ↔ s.Unfailing c := by
  have hmin := globalMinTs_eq c.nonEmpty
  constructor
  · intro h hatt
    by_contra hfail
    exact (h.retryable hatt hfail).2 (recordCheckpoint_attempts hatt).1
  · intro h
    refine ⟨fun _ => ?_, fun hatt hfail => absurd (h hatt) hfail⟩
    by_cases hatt : s.Attempts c.frontier
    · obtain ⟨hfile, hsafe⟩ := (recordCheckpoint_attempts hatt).2 (h hatt)
      rw [hfile, hsafe]
      exact ⟨rfl, rfl⟩
    · obtain ⟨hlast, hsame⟩ := record_of_not_attempts hatt
      rw [hsame, hmin]
      exact hs _ hlast

theorem stored_record (hs : s.Stored) (h : s.Unfailing c) : (s.record c).Stored := by
  by_cases hatt : s.Attempts c.frontier
  · obtain ⟨hlast, hworks⟩ := recordCheckpoint_attempts hatt
    obtain ⟨hfile, hsafe⟩ := hworks (h hatt)
    intro ts hts
    rw [hlast, ← globalMinTs_eq c.nonEmpty] at hts
    rw [hfile, hsafe]
    exact ⟨hts, hts⟩
  · rw [(record_of_not_attempts hatt).2]
    exact hs

end

/-- **All calls are sound exactly in the runs in which no step fails**, whatever an earlier process left. -/
theorem recordings_sound_iff (file : Option Frontier) (safePoint : Option Nat) (calls : List RecordCall) (s : Recording) :
    Run (stepOf Recording.record) Recording.Sound ⟨.new, file, safePoint⟩ calls s ↔
      Run (stepOf Recording.record) Recording.Unfailing ⟨.new, file, safePoint⟩ calls s := by
  refine Run.guard_iff (I := Recording.Stored) (fun s c hs => sound_iff_unfailing hs)
    (fun s c s' hs hok hstep => ?_) calls ?_
  · rw [hstep]
    exact stored_record hs hok
  · nofun

def frontierAtFive (pd : Except String Unit) : RecordCall := ⟨⟨.ok (), pd⟩, AList.singleton 1 5, nofun⟩

/-- **After PD was down, the same checkpoint is answered `Ok` and is not at PD.** -/
theorem recording_unsound_pdDown : ∃ s, Run (stepOf Recording.record) always ⟨.new, none, none⟩
    [frontierAtFive (.error "unreachable")] s ∧ s.answer (frontierAtFive (.ok ())) = .ok () ∧
      ¬ s.Sound (frontierAtFive (.ok ())) := by
  refine ⟨_, .cons trivial rfl (.nil _), rfl, fun h => ?_⟩
  cases (h.truth rfl).2

end Ingest
end Tikv
