import Mathlib.Data.List.Sort
import Tikv.LibRun
/-!
# StorageLockWait — the requests that wait for the lock of a key (`lock_waiting_queue.rs`)

When the lock of a key is released one request is woken up, and a notification is scheduled that wakes up the others that
were there.  It takes them in the order of their start timestamps and stops at the first one that came later, so one that
comes with a smaller start timestamp keeps them from it (`stranded`).  As long as none such comes, whoever was there at a
release is woken up or has a notification to come (`no_waiter_stranded`).
-/
namespace Tikv
namespace LockWait

open Lib List

structure LockWaitEntry where
  startTs : Nat
  allowLockWithConflict : Bool
  lockWaitToken : Nat
  legacyWakeUpIndex : Option Nat
deriving DecidableEq

open LockWaitEntry

/-- The queue of a key in the order in which it is popped, with the id of the notification to come and the next id.  A
key that is not in the map is one with nothing in it. -/
structure LockWaitQueue where
  legacyWakeUpIndex : Nat
  queue : List LockWaitEntry
  delayedNotifyAllState : Option Nat
  idAllocated : Nat
deriving DecidableEq

/-- The entry was there before the last of `index` wake-ups. -/
def LockWaitEntry.older (index : Nat) (e : LockWaitEntry) : Bool := e.legacyWakeUpIndex.any (· < index)

namespace LockWaitQueue

def new : LockWaitQueue := ⟨0, [], none, 1⟩

def removeIfEmpty (s : LockWaitQueue) : LockWaitQueue :=
  if s.queue = [] then { s with legacyWakeUpIndex := 0, delayedNotifyAllState := none } else s

def pushLockWait (s : LockWaitQueue) (e : LockWaitEntry) (isCanceled : Bool) : LockWaitQueue :=
  if isCanceled then s
  else
    let e := { e with legacyWakeUpIndex := e.legacyWakeUpIndex.or (some s.legacyWakeUpIndex) }
    -- an entry of the same token is replaced
    let others := s.queue.filter (·.lockWaitToken ≠ e.lockWaitToken)
    { s with queue := others.orderedInsert (fun a b => a.startTs ≤ b.startTs) e }

def handleDelayedWakeUp (s : LockWaitQueue) : LockWaitQueue × Option Nat :=
  match s.delayedNotifyAllState with
  | some _ => (s, none)
  | none =>
    ({ s with delayedNotifyAllState := some s.idAllocated, idAllocated := s.idAllocated + 1 }, some s.idAllocated)

def popForWakingUp (s : LockWaitQueue) : LockWaitQueue × Option (LockWaitEntry × Option Nat) :=
  match s.queue with
  | [] => (s.removeIfEmpty, none)
  | e :: queue =>
    let s := { s with queue }
    if e.allowLockWithConflict then (s.removeIfEmpty, some (e, none))
    else
      let s := { s with legacyWakeUpIndex := s.legacyWakeUpIndex + 1 }
      if queue = [] then (s.removeIfEmpty, some (e, none))
      else (s.handleDelayedWakeUp.1, some (e, s.handleDelayedWakeUp.2))

/-- The loop of `delayed_notify_all`: those that are popped, a resumable one last, and those that stay. -/
def wakeUp (index : Nat) : List LockWaitEntry → List LockWaitEntry × List LockWaitEntry
  | [] => ([], [])
  | e :: queue =>
    -- "Keep it and other remaining items in the queue."
    if e.legacyWakeUpIndex.any (index ≤ ·) then ([], e :: queue)
    else if e.allowLockWithConflict then ([e], queue)
    else (e :: (wakeUp index queue).1, (wakeUp index queue).2)

def delayedNotifyAll (s : LockWaitQueue) (notifyId : Nat) : LockWaitQueue × List LockWaitEntry :=
  if s.delayedNotifyAllState ≠ some notifyId then (s, [])
  else
    let woken := wakeUp s.legacyWakeUpIndex s.queue
    ({ s with queue := woken.2, delayedNotifyAllState := none }.removeIfEmpty, woken.1)

def removeByToken (s : LockWaitQueue) (token : Nat) : LockWaitQueue × Option LockWaitEntry :=
  ({ s with queue := s.queue.filter (·.lockWaitToken ≠ token) }.removeIfEmpty, s.queue.find? (·.lockWaitToken = token))

inductive Action
  | pushLockWait (e : LockWaitEntry) (isCanceled : Bool)
  | popForWakingUp
  | removeByToken (token : Nat)
  | delayedNotifyAll (notifyId : Nat)

def run (s : LockWaitQueue) : Action → LockWaitQueue
  | .pushLockWait e isCanceled => s.pushLockWait e isCanceled
  | .popForWakingUp => s.popForWakingUp.1
  | .removeByToken token => (s.removeByToken token).1
  | .delayedNotifyAll notifyId => (s.delayedNotifyAll notifyId).1

/-- **A legacy request comes for the first time**, and behind those that were there before the last wake-up. -/
def InOrder (s : LockWaitQueue) : Action → Prop
  | .pushLockWait e _ => e.allowLockWithConflict = false ∧ e.legacyWakeUpIndex = none ∧
      ∀ a ∈ s.queue, a.older s.legacyWakeUpIndex = true → a.startTs < e.startTs
  | _ => True

/-- Of the legacy requests of the queue, those from before the last wake-up come first. -/
structure Lined (index : Nat) (queue : List LockWaitEntry) : Prop where
  sorted : queue.Pairwise fun a b => a.startTs ≤ b.startTs
  legacy : ∀ e ∈ queue, e.allowLockWithConflict = false ∧ ∃ i ≤ index, e.legacyWakeUpIndex = some i
  apart : ∀ a ∈ queue, ∀ b ∈ queue, a.older index = true → b.older index = false → a.startTs < b.startTs

structure Inv (s : LockWaitQueue) : Prop where
  lined : Lined s.legacyWakeUpIndex s.queue
  pending : ∀ e ∈ s.queue, e.older s.legacyWakeUpIndex = true → s.delayedNotifyAllState.isSome

variable {s : LockWaitQueue} {index : Nat} {queue queue' : List LockWaitEntry} {e : LockWaitEntry}

theorem Lined.sublist (h : Lined index queue) (hsub : queue' <+ queue) : Lined index queue' where
  sorted := h.sorted.sublist hsub
  legacy e he := h.legacy e (hsub.subset he)
  apart a ha b hb := h.apart a (hsub.subset ha) b (hsub.subset hb)

theorem Lined.push (h : Lined index queue) (hlegacy : e.allowLockWithConflict = false)
    (hindex : e.legacyWakeUpIndex = some index) (hts : ∀ a ∈ queue, a.older index = true → a.startTs < e.startTs) :
    Lined index (queue.orderedInsert (fun a b => a.startTs ≤ b.startTs) e) := by
  refine ⟨h.sorted.orderedInsert e _, fun a ha => ?_, fun a ha b hb hold hlate => ?_⟩
  · rcases (mem_orderedInsert _).1 ha with rfl | ha
    · exact ⟨hlegacy, index, le_rfl, hindex⟩
    · exact h.legacy a ha
  · rcases (mem_orderedInsert _).1 ha with heq | ha
    · simp [heq, older, hindex] at hold
    rcases (mem_orderedInsert _).1 hb with heq | hb
    · exact heq ▸ hts a ha hold
    · exact h.apart a ha b hb hold hlate

theorem Lined.pop (h : Lined index (e :: queue)) : Lined (index + 1) queue := by
  have h := h.sublist (sublist_cons_self e queue)
  refine ⟨h.sorted, fun a ha => ?_, fun a _ b hb _ hlate => ?_⟩
  · obtain ⟨hlegacy, i, hi, heq⟩ := h.legacy a ha
    exact ⟨hlegacy, i, Nat.le_succ_of_le hi, heq⟩
  · obtain ⟨-, i, hi, heq⟩ := h.legacy b hb
    simp [older, heq] at hlate
    omega

theorem wakeUp_spec : ∀ {queue : List LockWaitEntry}, Lined index queue →
    (wakeUp index queue).2 <+ queue ∧ ∀ e ∈ (wakeUp index queue).2, e.older index = false
  | [], _ => ⟨.slnil, nofun⟩
  | e :: queue, h => by
    obtain ⟨hlegacy, i, hi, heq⟩ := h.legacy e mem_cons_self
    unfold wakeUp
    split
    · rename_i hstop
      have hlate : e.older index = false := by simpa [older, heq] using hstop
      refine ⟨.refl _, forall_mem_cons.2 ⟨hlate, fun b hb => Bool.eq_false_iff.2 fun hold => ?_⟩⟩
      have hlt := h.apart b (mem_cons_of_mem _ hb) e mem_cons_self hold hlate
      exact not_le.2 hlt ((pairwise_cons.1 h.sorted).1 b hb)
    · rw [if_neg (by simp [hlegacy])]
      obtain ⟨hsub, hnone⟩ := wakeUp_spec (h.sublist (sublist_cons_self e queue))
      exact ⟨hsub.cons e, hnone⟩

theorem inv_of_nil {id : Option Nat} {next : Nat} : Inv ⟨index, [], id, next⟩ := ⟨⟨.nil, nofun, nofun⟩, nofun⟩

theorem inv_removeIfEmpty (h : Inv s) : Inv s.removeIfEmpty := by
  unfold removeIfEmpty
  split
  · rename_i hnil
    rw [hnil]
    exact inv_of_nil
  · exact h

theorem inv_push (h : Inv s) {isCanceled : Bool} (hok : InOrder s (.pushLockWait e isCanceled)) :
    Inv (s.pushLockWait e isCanceled) := by
  obtain ⟨hlegacy, hnone, hts⟩ := hok
  have hsub : s.queue.filter (·.lockWaitToken ≠ e.lockWaitToken) <+ s.queue := filter_sublist
  unfold pushLockWait
  split
  · exact h
  refine ⟨(h.lined.sublist hsub).push hlegacy (by rw [hnone]; rfl) fun a ha => hts a (hsub.subset ha), fun a ha hold => ?_⟩
  rcases (mem_orderedInsert _).1 ha with rfl | ha
  · simp [older, hnone] at hold
  · exact h.pending a (hsub.subset ha) hold

theorem inv_handleDelayedWakeUp (h : Lined s.legacyWakeUpIndex s.queue) : Inv s.handleDelayedWakeUp.1 := by
  unfold handleDelayedWakeUp
  split
  · rename_i hid
    exact ⟨h, fun _ _ _ => hid ▸ rfl⟩
  · exact ⟨h, fun _ _ _ => rfl⟩

theorem inv_pop (h : Inv s) : Inv s.popForWakingUp.1 := by
  have hlined := h.lined
  unfold popForWakingUp
  split
  · exact inv_removeIfEmpty h
  rename_i e queue hqueue
  rw [hqueue] at hlined
  rw [if_neg (by simp [(hlined.legacy e mem_cons_self).1])]
  split
  · rename_i hnil
    rw [hnil]
    exact inv_removeIfEmpty inv_of_nil
  · exact inv_handleDelayedWakeUp hlined.pop

theorem inv_run (h : Inv s) {a : Action} (hok : InOrder s a) : Inv (s.run a) := by
  cases a with
  | pushLockWait e isCanceled => exact inv_push h hok
  | popForWakingUp => exact inv_pop h
  | removeByToken token =>
    exact inv_removeIfEmpty ⟨h.lined.sublist filter_sublist, fun a ha => h.pending a (mem_of_mem_filter ha)⟩
  | delayedNotifyAll notifyId =>
    obtain ⟨hsub, hnone⟩ := wakeUp_spec h.lined
    dsimp only [run, delayedNotifyAll]
    split
    · exact h
    · exact inv_removeIfEmpty ⟨h.lined.sublist hsub, fun a ha hold => by rw [hnone a ha] at hold; cases hold⟩

/-- **No waiter is stranded** in a run all of whose requests come in order: whoever was there before the last wake-up has a
notification to come, and the notification leaves none of them. -/
theorem no_waiter_stranded {actions : List Action} {s : LockWaitQueue}
    (hrun : Run (stepOf run) InOrder .new actions s) :
    (∀ e ∈ s.queue, e.older s.legacyWakeUpIndex = true → s.delayedNotifyAllState.isSome) ∧
    ∀ notifyId, s.delayedNotifyAllState = some notifyId →
      ∀ e ∈ (s.delayedNotifyAll notifyId).1.queue, e.older s.legacyWakeUpIndex = false := by
  have h : Inv s := hrun.invariant (fun s a _ h hok hs => hs ▸ inv_run h hok) inv_of_nil
  refine ⟨h.pending, fun notifyId hid e he => (wakeUp_spec h.lined).2 e ?_⟩
  unfold delayedNotifyAll at he
  rw [if_neg (not_not.2 hid)] at he
  dsimp only [removeIfEmpty] at he
  split at he <;> exact he

def legacy (startTs : Nat) : Action := .pushLockWait ⟨startTs, false, startTs, none⟩ false

theorem no_waiter_stranded_three :
    ∃ s, Run (stepOf run) InOrder .new [legacy 20, legacy 30, .popForWakingUp, legacy 50] s ∧
      s.queue = [⟨30, false, 30, some 0⟩, ⟨50, false, 50, some 1⟩] ∧
      ∀ e ∈ (s.delayedNotifyAll 1).1.queue, e.older 1 = false := by
  have hrun : Run (stepOf run) InOrder .new [legacy 20, legacy 30, .popForWakingUp, legacy 50] _ :=
    .cons ⟨rfl, rfl, by decide⟩ rfl (.cons ⟨rfl, rfl, by decide⟩ rfl (.cons trivial rfl
      (.cons ⟨rfl, rfl, by decide⟩ rfl (.nil _))))
  exact ⟨_, hrun, by decide, (no_waiter_stranded hrun).2 1 (by decide)⟩

/-- 30 was there at the wake-up, and neither it is woken up nor a notification is to come. -/
theorem stranded : [legacy 20, legacy 30, .popForWakingUp, legacy 10, .delayedNotifyAll 1].foldl run .new =
    ⟨1, [⟨10, false, 10, some 1⟩, ⟨30, false, 30, some 0⟩], none, 2⟩ := by decide

end LockWaitQueue

end LockWait
end Tikv
