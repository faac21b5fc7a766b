import Tikv.MvccKey
/-!
# MvccMaxTs — the maximum read timestamp of a store (`concurrency_manager`)

Every read publishes its timestamp in `max_ts` before it looks for locks, and an async-commit or one-phase prewrite
computes its commit timestamp above what is published.  An update beyond the limit is double-checked against the
timestamp oracle and may be refused; one that is accepted is published (`maxTs_updateMaxTs`).
-/
namespace Tikv
namespace Mvcc

theorem map_ok {α β ε : Type} {r : Except ε α} {f : α → β} {b : β} (h : r.map f = .ok b) : ∃ a, r = .ok a ∧ f a = b := by
  cases r with
  | error e => cases h
  | ok a => exact ⟨a, rfl, Except.ok.inj h⟩

structure MaxTsLimit where
  limit : Nat
  updateTime : Nat
deriving DecidableEq

inductive ActionOnInvalidMaxTs
  | panic | error | log
deriving DecidableEq

structure ConcurrencyManager where
  maxTs : Nat
  maxTsLimit : MaxTsLimit
  limitValidDuration : Nat
  actionOnInvalidMaxTs : ActionOnInvalidMaxTs
  maxTsDriftAllowanceMs : Nat
deriving DecidableEq

structure Outside where
  now : Nat
  tso : Option Nat
deriving DecidableEq

namespace ConcurrencyManager

def new (latestTs limitValidDuration : Nat) (action : ActionOnInvalidMaxTs) (maxTsDriftAllowanceMs now : Nat) :
    ConcurrencyManager :=
  { maxTs := latestTs, maxTsLimit := ⟨0, now⟩, limitValidDuration, actionOnInvalidMaxTs := action
    maxTsDriftAllowanceMs }

def setMaxTsLimit (cm : ConcurrencyManager) (now tsFromTso : Nat) : ConcurrencyManager :=
  if tsFromTso = tsMax then cm
  else
    let limit := compose (physical tsFromTso + cm.maxTsDriftAllowanceMs) (logical tsFromTso)
    if limit ≤ cm.maxTsLimit.limit then cm else { cm with maxTsLimit := ⟨limit, now⟩ }

/-- An answer of the oracle is what confirms that an update is invalid. -/
def reportError (cm : ConcurrencyManager) (newTs : Nat) (tsoConfirmed : Bool) : Except MvccError Unit :=
  match cm.actionOnInvalidMaxTs with
  | .panic => if tsoConfirmed then .error (.panic "invalid max_ts update") else .ok ()
  | .error => if tsoConfirmed then .error (.invalidMaxTsUpdate newTs cm.maxTsLimit.limit) else .ok ()
  | .log => .ok ()

def doubleCheck (cm : ConcurrencyManager) (out : Outside) (newTs : Nat) : ConcurrencyManager × Except MvccError Unit :=
  let cm' := match out.tso with
    | some ts => cm.setMaxTsLimit out.now ts
    | none => cm
  (cm', if cm'.maxTsLimit.limit < newTs then cm'.reportError newTs out.tso.isSome else .ok ())

/-- The test of `update_max_ts` against the limit, fresh or extrapolated. -/
def checkLimit (cm : ConcurrencyManager) (out : Outside) (newTs : Nat) : ConcurrencyManager × Except MvccError Unit :=
  let limit := cm.maxTsLimit
  let elapsed := out.now - limit.updateTime
  if limit.limit ≠ 0 ∧ limit.limit < newTs then
    if elapsed < cm.limitValidDuration then cm.doubleCheck out newTs
    else if compose (physical limit.limit + elapsed / 1000000) (logical limit.limit) < newTs then
      cm.doubleCheck out newTs
    else (cm, .ok ())
  else (cm, .ok ())

/-- **`update_max_ts`**: no effect for the greatest timestamp, otherwise the limit is checked before `newTs` is
published. -/
def updateMaxTs (cm : ConcurrencyManager) (out : Outside) (newTs : Nat) : ConcurrencyManager × Except MvccError Unit :=
  if newTs = tsMax then (cm, .ok ())
  else
    match cm.checkLimit out newTs with
    | (cm', .ok ()) => ({ cm' with maxTs := max cm'.maxTs newTs }, .ok ())
    | (cm', .error e) => (cm', .error e)

section

variable (cm : ConcurrencyManager)
include cm

theorem maxTs_setMaxTsLimit (now ts : Nat) : (cm.setMaxTsLimit now ts).maxTs = cm.maxTs := by
  unfold setMaxTsLimit
  simp [apply_ite ConcurrencyManager.maxTs]

section

variable (out : Outside) (newTs : Nat)

theorem maxTs_doubleCheck : (cm.doubleCheck out newTs).1.maxTs = cm.maxTs := by
  unfold doubleCheck
  cases out.tso with
  | none => rfl
  | some ts => exact maxTs_setMaxTsLimit cm out.now ts

theorem maxTs_checkLimit : (cm.checkLimit out newTs).1.maxTs = cm.maxTs := by
  unfold checkLimit
  dsimp only
  split
  · split
    · exact maxTs_doubleCheck cm out newTs
    split
    · exact maxTs_doubleCheck cm out newTs
    · rfl
  · rfl

/-- **An accepted update is published**, a refused one changes nothing that is. -/
theorem maxTs_updateMaxTs : (cm.updateMaxTs out newTs).1.maxTs =
      if newTs = tsMax ∨ (cm.updateMaxTs out newTs).2 ≠ .ok () then cm.maxTs else max cm.maxTs newTs := by
  have hcheck := maxTs_checkLimit cm out newTs
  unfold updateMaxTs
  split
  · rename_i hmax
    rw [if_pos (.inl hmax)]
  rename_i hmax
  split
  · rename_i cm' heq
    rw [heq] at hcheck
    rw [if_neg (by simp [hmax])]
    rw [hcheck]
  · rename_i cm' e heq
    rw [heq] at hcheck
    rw [if_pos (.inr nofun)]
    exact hcheck

theorem le_maxTs_updateMaxTs : cm.maxTs ≤ (cm.updateMaxTs out newTs).1.maxTs := by
  rw [maxTs_updateMaxTs]
  split
  · exact le_rfl
  · exact le_max_left ..

theorem le_maxTs_ite (b : Prop) [Decidable b] (ts : Nat) :
    cm.maxTs ≤ (if b then cm.updateMaxTs out ts else (cm, .ok ())).1.maxTs := by
  split
  · exact cm.le_maxTs_updateMaxTs out ts
  · exact le_rfl

end

end

theorem newTs_le_maxTs {cm : ConcurrencyManager} {out : Outside} {newTs : Nat} (hmax : newTs ≠ tsMax)
    (hok : (cm.updateMaxTs out newTs).2 = .ok ()) : newTs ≤ (cm.updateMaxTs out newTs).1.maxTs := by
  rw [maxTs_updateMaxTs, if_neg (by simp [hmax, hok])]
  exact le_max_right ..

end ConcurrencyManager

/-- The critical section of `async_commit_timestamps`: the commit timestamp of an async-commit or one-phase prewrite is
above everything published, `CommitTsTooLarge` asks for the ordinary two phases. -/
def asyncCommitTimestamps (maxTs startTs forUpdateTs lockMinCommitTs maxCommitTs : Nat) : Except MvccError Nat :=
  let minCommitTs := max lockMinCommitTs (max (max maxTs startTs) forUpdateTs + 1)
  if maxCommitTs ≠ 0 ∧ maxCommitTs < minCommitTs then .error (.commitTsTooLarge minCommitTs maxCommitTs)
  else .ok minCommitTs

theorem asyncCommitTimestamps_ok {maxTs startTs forUpdateTs lockMinCommitTs maxCommitTs m : Nat}
    (h : asyncCommitTimestamps maxTs startTs forUpdateTs lockMinCommitTs maxCommitTs = .ok m) :
    maxTs < m ∧ startTs < m ∧ lockMinCommitTs ≤ m := by
  unfold asyncCommitTimestamps at h
  dsimp only at h
  split at h
  · cases h
  cases h
  omega

end Mvcc
end Tikv
