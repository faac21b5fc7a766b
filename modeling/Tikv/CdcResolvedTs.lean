import Tikv.CdcLockHeap
/-!
# CdcResolvedTs — the resolved timestamps a producer sends (`endpoint.rs`, `delegate.rs`, `span_bridge.rs`)

Transactions prewrite their locks, take a commit timestamp and have their write records applied one by one; meanwhile
`on_min_ts` runs with timestamps of the past.  It advances two promises.  The downstreams of a delegate get the minimum
of their locks and of `min_ts`; the PCR stream gets `current_ts`, which the checkpoint ticker sends.

A promise of `T` is kept when every record applied later has a commit timestamp above `T`.  The checkpoints are kept in
the runs where at every tick no transaction with a commit timestamp at or below the published one is still to be applied
(`checkpoints_kept_of_caughtUp`), and a tick anywhere else can be followed by a record that breaks the promise
(`tick_behind_breaks`).  What a delegate sends to a transactional downstream is kept in every run that keeps the locks in
its tracker (`resolvedTs_kept`).
-/
namespace Tikv
namespace Cdc

open List

open Lib (Bytes Run always)

/-- A lock of a transaction; `commitTs` once the transaction has taken one. -/
structure TxnLock where
  key : Bytes
  startTs : Nat
  commitTs : Option Nat
  deriving DecidableEq, Repr

inductive Sent
  | write (key : Bytes) (startTs commitTs : Nat)
  | checkpoint (resolvedTs : Nat)
  deriving DecidableEq, Repr

structure Producer where
  tso : Nat
  locks : List TxnLock
  currentTs : Nat
  pcrResolvedTs : Nat
  sent : List Sent
  deriving DecidableEq, Repr

open Producer

def Producer.init : Producer := ⟨0, [], 0, 0, []⟩

inductive ProducerAction
  | allocate
  | prewrite (key : Bytes) (startTs : Nat)
  | rollback (key : Bytes)
  /-- a transaction all of whose locks are written takes its commit timestamp -/
  | takeCommitTs (startTs : Nat)
  | applyCommit (key : Bytes)
  /-- `Task::MinTs`, its timestamps taken from PD earlier -/
  | onMinTs (minTs currentTs : Nat)
  | checkpointTick
  deriving DecidableEq, Repr

/-- `on_min_ts` of the endpoint, for the PCR stream. -/
def onMinTs (currentTs : Nat) (s : Producer) : Producer :=
  let s := { s with currentTs := currentTs }
  { s with pcrResolvedTs := s.currentTs }

def checkpointTick (s : Producer) : Producer :=
  if 0 < s.pcrResolvedTs then { s with sent := s.sent ++ [.checkpoint s.pcrResolvedTs] } else s

def setCommitTs (startTs commitTs : Nat) (l : TxnLock) : TxnLock :=
  if l.startTs = startTs then { l with commitTs := some commitTs } else l

def Producer.step (s : Producer) : ProducerAction → Option Producer
  | .allocate => some { s with tso := s.tso + 1 }
  | .prewrite key startTs =>
    if startTs ≤ s.tso ∧ key ∉ s.locks.map TxnLock.key ∧ ∀ l ∈ s.locks, l.startTs = startTs → l.commitTs = none then
      some { s with locks := s.locks ++ [⟨key, startTs, none⟩] }
    else none
  | .rollback key => some { s with locks := s.locks.filter (fun l => l.key != key) }
  | .takeCommitTs startTs =>
    if startTs ∈ s.locks.map TxnLock.startTs ∧ ∀ l ∈ s.locks, l.startTs = startTs → l.commitTs = none then
      some { s with tso := s.tso + 1, locks := s.locks.map (setCommitTs startTs (s.tso + 1)) }
    else none
  | .applyCommit key =>
    match s.locks.find? (fun l => l.key == key) with
    | some ⟨_, startTs, some commitTs⟩ =>
      some { s with
        locks := s.locks.filter (fun l => l.key != key)
        sent := s.sent ++ [.write key startTs commitTs] }
    | _ => none
  | .onMinTs minTs currentTs =>
    if minTs ≤ currentTs ∧ currentTs ≤ s.tso then some (onMinTs currentTs s) else none
  | .checkpointTick => some (checkpointTick s)

def ProducerSteps (s : Producer) (a : ProducerAction) (s' : Producer) : Prop := s.step a = some s'

/-- Every record sent after a promise that `p` reads off has a commit timestamp above it. -/
def PromisesKept (p : Sent → Option Nat) (sent : List Sent) : Prop :=
  sent.Pairwise (fun a b => ∀ T, p a = some T → ∀ key startTs commitTs, b = .write key startTs commitTs → T < commitTs)

def Sent.checkpoint? : Sent → Option Nat
  | checkpoint T => some T
  | _ => none

/-- **At a tick, every transaction that has taken a commit timestamp and is not applied yet is above what is
published.** -/
def CaughtUp (s : Producer) (a : ProducerAction) : Prop :=
  a = .checkpointTick → ∀ l ∈ s.locks, ∀ c, l.commitTs = some c → s.pcrResolvedTs < c

/-! ## Promises -/

/-- **`T` may be promised**: no commit timestamp at or below it can still be applied. -/
structure Promised (s : Producer) (T : Nat) : Prop where
  le_tso : T ≤ s.tso
  lt_commit : ∀ l ∈ s.locks, ∀ c, l.commitTs = some c → T < c

inductive StepEffect (s s' : Producer) (a : ProducerAction) : Prop
  /-- the locks that stay keep their commit timestamps, a new one is above the clock -/
  | silent (htso : s.tso ≤ s'.tso) (hsent : s'.sent = s.sent)
      (hlocks : ∀ l' ∈ s'.locks, ∀ c, l'.commitTs = some c → s.tso < c ∨ ∃ l ∈ s.locks, l.commitTs = some c)
  | write (l : TxnLock) (c : Nat) (hl : l ∈ s.locks) (hc : l.commitTs = some c) (htso : s'.tso = s.tso)
      (hlocks : ∀ l' ∈ s'.locks, l' ∈ s.locks) (hsent : s'.sent = s.sent ++ [.write l.key l.startTs c])
  | checkpoint (hact : a = .checkpointTick) (htso : s'.tso = s.tso) (hlocks : s'.locks = s.locks)
      (hsent : s'.sent = s.sent ++ [.checkpoint s.pcrResolvedTs])

variable {s s' : Producer} {a : ProducerAction} {startTs c : Nat} {l : TxnLock}

theorem setCommitTs_cases {commitTs : Nat}
    (h : (setCommitTs startTs commitTs l).commitTs = some c) : c = commitTs ∨ l.commitTs = some c := by
  unfold setCommitTs at h
  split at h
  · exact .inl (Option.some.inj h).symm
  · exact .inr h

theorem step_spec (h : s.step a = some s') :
    StepEffect s s' a ∧ (s.pcrResolvedTs ≤ s.tso → s'.pcrResolvedTs ≤ s'.tso) := by
  cases a with
  | allocate =>
    cases h
    exact ⟨.silent (Nat.le_succ _) rfl (fun l hl c hc => .inr ⟨l, hl, hc⟩), Nat.le_succ_of_le⟩
  | prewrite key startTs =>
    simp only [step] at h
    split at h
    · cases h
      refine ⟨.silent le_rfl rfl (fun l hl c hc => ?_), id⟩
      rcases mem_append.1 hl with hl | hl
      · exact .inr ⟨l, hl, hc⟩
      · rw [mem_singleton.1 hl] at hc; cases hc
    · cases h
  | rollback key =>
    cases h
    exact ⟨.silent le_rfl rfl (fun l hl c hc => .inr ⟨l, (mem_filter.1 hl).1, hc⟩), id⟩
  | takeCommitTs startTs =>
    simp only [step] at h
    split at h
    · cases h
      refine ⟨.silent (Nat.le_succ _) rfl (fun l' hl' c hc => ?_), Nat.le_succ_of_le⟩
      obtain ⟨l, hl, rfl⟩ := mem_map.1 hl'
      -- the commit timestamp is one above the clock
      rcases setCommitTs_cases hc with rfl | hc
      · exact .inl (Nat.lt_succ_self _)
      · exact .inr ⟨l, hl, hc⟩
    · cases h
  | applyCommit key =>
    simp only [step] at h
    split at h
    · rename_i k startTs c hfind
      cases h
      obtain rfl : k = key := by simpa using find?_some hfind
      exact ⟨.write _ c (mem_of_find?_eq_some hfind) rfl rfl (fun l' hl' => (mem_filter.1 hl').1) rfl, id⟩
    · cases h
  | onMinTs minTs currentTs =>
    simp only [step] at h
    split at h
    · rename_i hok
      cases h
      exact ⟨.silent le_rfl rfl fun l hl c hc => .inr ⟨l, hl, hc⟩, fun _ => hok.2⟩
    · cases h
  | checkpointTick =>
    cases h
    unfold checkpointTick
    split
    · exact ⟨.checkpoint rfl rfl rfl rfl, id⟩
    · exact ⟨.silent le_rfl rfl (fun l hl c hc => .inr ⟨l, hl, hc⟩), id⟩

theorem StepEffect.sent_cases {b : Sent} (h : StepEffect s s' a) (hb : s'.sent = s.sent ++ [b]) :
    (∃ l ∈ s.locks, ∃ c, l.commitTs = some c ∧ b = .write l.key l.startTs c) ∨
      a = .checkpointTick ∧ s'.tso = s.tso ∧ s'.locks = s.locks ∧ b = .checkpoint s.pcrResolvedTs := by
  have hnew : ∀ {b'}, s'.sent = s.sent ++ [b'] → b = b' := fun hb' =>
    singleton_inj.1 (append_cancel_left (hb.symm.trans hb'))
  cases h with
  | silent htso hsent hlocks => exact absurd (hb.symm.trans hsent) (by simp)
  | write l c hl hc htso hlocks hsent => exact .inl ⟨l, hl, c, hc, hnew hsent⟩
  | checkpoint hact htso hlocks hsent => exact .inr ⟨hact, htso, hlocks, hnew hsent⟩

theorem Promised.step {T : Nat} (hp : Promised s T) (h : StepEffect s s' a) : Promised s' T := by
  cases h with
  | silent htso hsent hlocks =>
    refine ⟨le_trans hp.le_tso htso, fun l' hl' c hc => ?_⟩
    rcases hlocks l' hl' c hc with hlt | ⟨l, hl, hc⟩
    · exact lt_of_le_of_lt hp.le_tso hlt
    · exact hp.lt_commit l hl c hc
  | write l c hl hc htso hlocks hsent => exact ⟨htso ▸ hp.le_tso, fun l' hl' => hp.lt_commit l' (hlocks l' hl')⟩
  | checkpoint hact htso hlocks hsent => exact ⟨htso ▸ hp.le_tso, hlocks ▸ hp.lt_commit⟩

theorem Promised.lt_written {T : Nat} {key : Bytes} (hp : Promised s T) (h : StepEffect s s' a)
    (hsent : s'.sent = s.sent ++ [.write key startTs c]) : T < c := by
  rcases h.sent_cases hsent with ⟨l, hl, c', hc, heq⟩ | ⟨-, -, -, heq⟩ <;> cases heq
  exact hp.lt_commit l hl c hc

structure Keeps (p : Sent → Option Nat) (s : Producer) : Prop where
  kept : PromisesKept p s.sent
  promised : ∀ b ∈ s.sent, ∀ T, p b = some T → Promised s T

theorem Keeps.step {p : Sent → Option Nat} (hk : Keeps p s) (h : StepEffect s s' a)
    (hnew : ∀ b, s'.sent = s.sent ++ [b] → ∀ T, p b = some T → Promised s' T) : Keeps p s' := by
  have hone : s'.sent = s.sent ∨ ∃ b, s'.sent = s.sent ++ [b] := by
    cases h with
    | silent _ hsent => exact .inl hsent
    | write _ _ _ _ _ _ hsent | checkpoint _ _ _ hsent => exact .inr ⟨_, hsent⟩
  have hold : ∀ b ∈ s.sent, ∀ T, p b = some T → Promised s' T := fun b hb T hT => (hk.promised b hb T hT).step h
  rcases hone with hsent | ⟨b, hsent⟩
  · exact ⟨hsent ▸ hk.kept, hsent ▸ hold⟩
  · refine ⟨?_, ?_⟩
    · unfold PromisesKept
      rw [hsent, pairwise_append]
      refine ⟨hk.kept, pairwise_singleton _ _, fun x hx y hy T hT key startTs c hy' => ?_⟩
      rw [mem_singleton.1 hy] at hy'
      rw [hy'] at hsent
      exact (hk.promised x hx T hT).lt_written h hsent
    · rw [hsent]
      exact forall_mem_append.2 ⟨hold, forall_mem_singleton.2 (hnew b hsent)⟩

theorem keeps_init (p : Sent → Option Nat) : Keeps p .init := ⟨List.Pairwise.nil, nofun⟩

/-! ## The PCR stream -/

/-- **In the runs that are caught up at every tick, every record applied after a checkpoint of `T` has a commit timestamp
above `T`.** -/
theorem checkpoints_kept_of_caughtUp {acts : List ProducerAction} {s : Producer}
    (h : Run ProducerSteps CaughtUp .init acts s) : PromisesKept Sent.checkpoint? s.sent := by
  have hinv : s.pcrResolvedTs ≤ s.tso ∧ Keeps Sent.checkpoint? s := by
    refine h.invariant (I := fun s => s.pcrResolvedTs ≤ s.tso ∧ Keeps Sent.checkpoint? s)
      (fun s a s' hi hok hstep => ?_) ⟨le_refl 0, keeps_init _⟩
    obtain ⟨heff, hle⟩ := step_spec hstep
    refine ⟨hle hi.1, hi.2.step heff fun b hb T hT => ?_⟩
    rcases heff.sent_cases hb with ⟨l, -, c, -, rfl⟩ | ⟨hact, htso, hlocks, rfl⟩
    all_goals cases hT
    exact ⟨htso ▸ hi.1, hlocks ▸ hok hact⟩
  exact hinv.2.kept

/-- **A tick that is not caught up can be followed by a record that breaks its promise.** -/
theorem tick_behind_breaks (hpos : 0 < s.pcrResolvedTs) (hl : s.locks.find? (fun x => x.key == l.key) = some l)
    (hc : l.commitTs = some c) (hle : c ≤ s.pcrResolvedTs) :
    ∃ s', Run ProducerSteps always s [.checkpointTick, .applyCommit l.key] s' ∧
      ¬ PromisesKept Sent.checkpoint? s'.sent := by
  obtain ⟨key, startTs, commitTs⟩ := l
  cases hc
  have htick : checkpointTick s = { s with sent := s.sent ++ [.checkpoint s.pcrResolvedTs] } := if_pos hpos
  have happly : (checkpointTick s).step (.applyCommit key) = some { checkpointTick s with
      locks := (checkpointTick s).locks.filter fun l => l.key != key
      sent := (checkpointTick s).sent ++ [.write key startTs c] } := by
    rw [htick]
    simp [step, hl]
  refine ⟨_, .cons trivial rfl (.cons trivial happly (.nil _)), fun hkept => ?_⟩
  rw [htick] at hkept
  have hlt := (pairwise_append.1 hkept).2.2 (.checkpoint s.pcrResolvedTs) (by simp) (.write key startTs c)
    (by simp) s.pcrResolvedTs rfl key startTs c rfl
  omega

def caughtUpRun : List ProducerAction :=
  [.allocate, .prewrite [97] 1, .takeCommitTs 1, .applyCommit [97], .onMinTs 2 2, .prewrite [98] 2, .checkpointTick,
    .takeCommitTs 2, .applyCommit [98]]

theorem checkpoints_kept_caughtUpRun : ∃ s, Run ProducerSteps CaughtUp .init caughtUpRun s ∧
    s.sent = [.write [97] 1 2, .checkpoint 2, .write [98] 2 3] ∧
    PromisesKept Sent.checkpoint? s.sent := by
  have hrun : Run ProducerSteps CaughtUp .init caughtUpRun
      ⟨3, [], 2, 2, [.write [97] 1 2, .checkpoint 2, .write [98] 2 3]⟩ := by
    refine .cons ?_ rfl (.cons ?_ rfl (.cons ?_ rfl (.cons ?_ rfl (.cons ?_ rfl (.cons ?_ rfl (.cons ?_ rfl
      (.cons ?_ rfl (.cons ?_ rfl (.nil _)))))))))
    all_goals unfold CaughtUp
    all_goals decide
  exact ⟨_, hrun, rfl, checkpoints_kept_of_caughtUp hrun⟩

def lateApply : List ProducerAction :=
  [.allocate, .prewrite [97] 1, .takeCommitTs 1, .allocate, .onMinTs 3 3, .checkpointTick, .applyCommit [97]]

/-- **The record is at 2, the checkpoint before it at 3.** -/
theorem checkpoints_broken_lateApply : ∃ s, Run ProducerSteps always .init lateApply s ∧
    ¬ PromisesKept Sent.checkpoint? s.sent := by
  refine ⟨_, .of_foldlM rfl, fun hkept => ?_⟩
  have := rel_of_pairwise_cons hkept mem_cons_self 3 rfl [97] 1 2 rfl
  omega

end Cdc

namespace Cdc.Track

open Lib Txn Util List Function

/-! ## The downstreams -/

/-- What is logged, in order: the commit records that are applied, and the resolved timestamps that downstreams are
sent. -/
inductive Logged
  | commit (e : Bytes) (commitTs : Nat)
  | resolvedTs (d : Downstream) (ts : Nat)

/-- A delegate among transactions: the greatest `min_ts` it has handled, and the commit timestamps that are taken, by
start timestamp. -/
structure Timeline where
  capture : Capture
  minTs : Nat
  commitTs : Nat → Option Nat
  log : List Logged

inductive TimelineEvent
  | takeCommitTs (startTs commitTs : Nat)
  | handle (e : CaptureEvent)

def WriteRecord.commits (write : WriteRecord) : Bool :=
  !write.hasGcFence && (decide (write.writeType = .put) || decide (write.writeType = .delete))

def TxnPut.logged : TxnPut → Option Logged
  | .write key commitTs record => if record.commits then some (.commit (fromRaw key) commitTs) else none
  | _ => none

def Capture.sends (c : Capture) : CaptureEvent → List Logged
  | .onMinTs minTs =>
    match c.onMinTs minTs with
    | .ok answers => answers.filterMap fun x => x.2.map (.resolvedTs x.1)
    | .error _ => []
  | _ => []

def Timeline.take (w : Timeline) (startTs commitTs : Nat) : Timeline :=
  { w with commitTs := update w.commitTs startTs (some commitTs) }

def Timeline.handle (w : Timeline) (e : CaptureEvent) (c' : Capture) : Timeline :=
  { w with
    capture := c'
    minTs := max w.minTs e.minTs
    log := w.log ++ e.puts.filterMap TxnPut.logged ++ w.capture.sends e }

def Timeline.Step (w : Timeline) : TimelineEvent → Timeline → Prop
  | .takeCommitTs startTs commitTs, w' => w' = w.take startTs commitTs
  | .handle e, w' => ∃ c', w.capture.Step e c' ∧ w' = w.handle e c'

/-- A lock that comes in after its transaction has its commit timestamp, or a record that commits without a lock, is
above every `min_ts` handled before: `max_ts` and the locks in memory see to that. -/
def TxnPut.Timely (w : Timeline) (u : Map Bytes Nat) : TxnPut → Prop
  | .lock _ record => ∀ c, w.commitTs record.ts = some c → w.minTs < c
  | .write key c record => record.commits = true →
      u.lookup (fromRaw key) = some record.startTs ∧ w.commitTs record.startTs = some c ∨ w.minTs < c
  | .default _ _ => True

def TimelyPuts (w : Timeline) (u : Map Bytes Nat) : List TxnPut → Prop
  | [] => True
  | put :: puts => put.Timely w u ∧ TimelyPuts w (unresolvedAfter u put) puts

/-- **What an event has to meet**: a commit timestamp is above the start timestamp and what was handled before; the
delegate keeps its locks, and what it is given is timely. -/
def Timely (w : Timeline) : TimelineEvent → Prop
  | .takeCommitTs startTs commitTs => startTs < commitTs ∧ w.minTs < commitTs
  | .handle e => KeepsLocks w.capture e ∧ TimelyPuts w w.capture.unresolved e.puts

/-- **No record in a transactional downstream's range commits at or below a resolved timestamp sent before it.** -/
def ResolvedTsKept (log : List Logged) : Prop :=
  log.Pairwise fun a b => ∀ d ts e c, a = .resolvedTs d ts → d.kvApi = .tiDb → b = .commit e c →
    d.observedRange.toRange e = true → ts < c

/-- **`T` may be promised for the range `r`** while the locks `u` are unresolved. -/
def Above (w : Timeline) (r : Bytes → Bool) (T : Nat) (u : Map Bytes Nat) : Prop :=
  T ≤ w.minTs ∧ ∀ e startTs c, u.lookup e = some startTs → r e = true → w.commitTs startTs = some c → T < c

structure Timeline.Inv (w : Timeline) : Prop where
  capture : w.capture.Inv
  start_lt : ∀ startTs c, w.commitTs startTs = some c → startTs < c
  advanced : ∀ d ∈ w.capture.downstreams, d.kvApi = .tiDb →
    Above w d.observedRange.toRange d.advancedTo w.capture.unresolved
  sent : ∀ d ts, .resolvedTs d ts ∈ w.log → d.kvApi = .tiDb → Above w d.observedRange.toRange ts w.capture.unresolved
  kept : ResolvedTsKept w.log

section

variable {w : Timeline} {r : Bytes → Bool} {T : Nat} {u : Map Bytes Nat}

theorem Above.put {put : TxnPut} (h : Above w r T u) (hput : put.Timely w u) : Above w r T (unresolvedAfter u put) := by
  refine ⟨h.1, fun e startTs c hu hr hc => ?_⟩
  cases put with
  | default key _ => exact h.2 e startTs c hu hr hc
  | lock key lock =>
    rw [unresolvedAfter_lock] at hu
    split at hu
    · rw [Map.lookup_insert] at hu
      split at hu
      · obtain rfl := Option.some.inj hu
        exact h.1.trans_lt (hput c hc)
      · exact h.2 e startTs c hu hr hc
    · exact h.2 e startTs c hu hr hc
  | write key commitTs write =>
    have hsub : u.lookup e = some startTs := by
      rw [unresolvedAfter_write] at hu
      split at hu
      · rw [lookup_resolved] at hu
        split at hu
        · cases hu
        · exact hu
      · exact hu
    exact h.2 e startTs c hsub hr hc

/-- **What is promised stays below the records of timely puts**, and is promised after them. -/
theorem Above.puts : ∀ {puts : List TxnPut} {u : Map Bytes Nat}, Above w r T u → TimelyPuts w u puts →
    Above w r T (unresolvedAfterAll u puts) ∧
      ∀ e c, .commit e c ∈ puts.filterMap TxnPut.logged → r e = true → T < c
  | [], _, h, _ => ⟨h, nofun⟩
  | put :: puts, u, h, ⟨hput, hputs⟩ => by
    obtain ⟨hafter, hrest⟩ := Above.puts (h.put hput) hputs
    refine ⟨hafter, fun e c hmem hr => ?_⟩
    obtain ⟨put', hput', hlog⟩ := mem_filterMap.1 hmem
    rcases mem_cons.1 hput' with rfl | hput'
    · cases put' with
      | write key commitTs write =>
        simp only [TxnPut.logged, Option.ite_none_right_eq_some, Option.some.injEq, Logged.commit.injEq] at hlog
        obtain ⟨hcommits, rfl, rfl⟩ := hlog
        rcases hput hcommits with ⟨hu, hc⟩ | hlt
        · exact h.2 _ _ _ hu hr hc
        · exact h.1.trans_lt hlt
      | _ => cases hlog
    · exact hrest e c (mem_filterMap.2 ⟨put', hput', hlog⟩) hr

end

theorem mem_sends {c c' : Capture} {e : CaptureEvent} {l : Logged} (hc : c.Inv) (hstep : c.Step e c')
    (h : l ∈ c.sends e) : ∃ d ∈ c'.downstreams, l = .resolvedTs d d.advancedTo := by
  cases e with
  | onMinTs minTs =>
    obtain ⟨answers, hans, rfl⟩ := hstep
    simp only [Capture.sends, hans] at h
    obtain ⟨x, hx, hl⟩ := mem_filterMap.1 h
    obtain ⟨ts, hts, rfl⟩ := Option.map_eq_some_iff.1 hl
    obtain ⟨d, -, -, -, -, hsent⟩ := forall₂_mem_right (onMinTs_follows hc hans) hx
    exact ⟨x.1, mem_map_of_mem hx, by rw [hsent ts hts]⟩
  | _ => cases h

theorem resolvedTs_notMem_logged {d : Downstream} {ts : Nat} (puts : List TxnPut) :
    .resolvedTs d ts ∉ puts.filterMap TxnPut.logged := by
  intro h
  obtain ⟨put, -, hlog⟩ := mem_filterMap.1 h
  unfold TxnPut.logged at hlog
  repeat' split at hlog
  all_goals cases hlog

theorem take_commitTs {w : Timeline} {startTs commitTs s c : Nat} (h : (w.take startTs commitTs).commitTs s = some c) :
    s = startTs ∧ c = commitTs ∨ w.commitTs s = some c := by
  unfold Timeline.take at h
  dsimp only at h
  rw [update_apply] at h
  split at h
  · rename_i heq
    exact .inl ⟨heq, (Option.some.inj h).symm⟩
  · exact .inr h

variable {w : Timeline} {e : CaptureEvent} {c' : Capture}

theorem Timeline.Inv.takes {startTs commitTs : Nat} (hi : w.Inv) (hok : Timely w (.takeCommitTs startTs commitTs)) :
    (w.take startTs commitTs).Inv := by
  obtain ⟨hlt, hmin⟩ := hok
  -- the commit timestamp is above all that was handled, so it leaves the promises
  have hold : ∀ {r T u}, Above w r T u → Above (w.take startTs commitTs) r T u := by
    refine fun h => ⟨h.1, fun e s c hu hr hc => ?_⟩
    rcases take_commitTs hc with ⟨-, rfl⟩ | hc
    · exact h.1.trans_lt hmin
    · exact h.2 e s c hu hr hc
  refine ⟨hi.capture, fun s c hc => ?_, fun d hd hapi => hold (hi.advanced d hd hapi),
    fun d ts hmem hapi => hold (hi.sent d ts hmem hapi), hi.kept⟩
  rcases take_commitTs hc with ⟨rfl, rfl⟩ | hc
  · exact hlt
  · exact hi.start_lt s c hc

theorem Timeline.Inv.handles (hi : w.Inv) (hok : Timely w (.handle e)) (hstep : w.capture.Step e c') :
    (w.handle e c').Inv := by
  obtain ⟨hkeeps, htimely⟩ := hok
  obtain ⟨hu, hc', hds⟩ := inv_step w.capture e c' hi.capture hkeeps hstep
  have hold : ∀ {r T}, Above w r T w.capture.unresolved → Above (w.handle e c') r T c'.unresolved :=
    fun h => ⟨le_max_of_le_left h.1, hu ▸ (h.puts htimely).1.2⟩
  have hadvanced : ∀ d' ∈ c'.downstreams, d'.kvApi = .tiDb →
      Above (w.handle e c') d'.observedRange.toRange d'.advancedTo c'.unresolved := by
    intro d' hd' hapi'
    rcases hds d' hd' with ⟨d, hd, ⟨-, hapi, hr⟩, heq | ⟨hgt, hle, hbelow⟩⟩ | ⟨_, _, _, _, -, rfl⟩
    · rw [heq, hr]
      exact hold (hi.advanced d hd (hapi ▸ hapi'))
    · -- it rose, so the event was an `on_min_ts` and no lock has changed
      have hputs : e.puts = [] := by
        cases e with
        | onMinTs minTs => rfl
        | _ => exact absurd (hgt.trans_le hle) (Nat.not_lt_zero _)
      rw [hputs] at hu
      refine ⟨le_max_of_le_right hle, fun e startTs c hlock hrange hc => ?_⟩
      rw [hu] at hlock
      rw [hr] at hrange
      exact (hbelow (hapi ▸ hapi') e startTs hlock hrange).trans_lt (hi.start_lt startTs c hc)
    · exact ⟨Nat.zero_le _, fun _ startTs c _ _ hc => (Nat.zero_le startTs).trans_lt (hi.start_lt startTs c hc)⟩
  refine ⟨hc', hi.start_lt, hadvanced, fun d ts hmem hapi => ?_, ?_⟩
  · rcases mem_append.1 hmem with hmem | hmem
    · rcases mem_append.1 hmem with hmem | hmem
      · exact hold (hi.sent d ts hmem hapi)
      · exact absurd hmem (resolvedTs_notMem_logged e.puts)
    · obtain ⟨d', hd', heq⟩ := mem_sends hi.capture hstep hmem
      cases heq
      exact hadvanced d hd' hapi
  · unfold ResolvedTsKept Timeline.handle
    rw [pairwise_append, pairwise_append]
    refine ⟨⟨hi.kept, pairwise_of_forall_mem_list fun a ha b _ d ts k c heq => ?_,
        fun a ha b hb d ts k c heq hapi heq' hr => ?_⟩,
      pairwise_of_forall_mem_list fun a _ b hb d ts k c _ _ heq' => ?_, fun a _ b hb d ts k c _ _ heq' => ?_⟩
    · exact absurd (heq ▸ ha) (resolvedTs_notMem_logged e.puts)
    · exact ((hi.sent d ts (heq ▸ ha) hapi).puts htimely).2 k c (heq' ▸ hb) hr
    all_goals
      obtain ⟨d', -, heq⟩ := mem_sends hi.capture hstep hb
      cases heq.symm.trans heq'

/-- A delegate that begins to observe a region whose locks are `unresolved`. -/
def Timeline.new (q : MemoryQuota) (region : Region) (unresolved : Map Bytes Nat) (commitTs : Nat → Option Nat) : Timeline :=
  ⟨.new q region unresolved, 0, commitTs, []⟩

def Logged.ts : Logged → Nat
  | commit _ ts => ts
  | resolvedTs _ ts => ts

/-- The lock of transaction 50 is there when `min_ts` is past its commit timestamp. -/
def openLock : List TimelineEvent :=
  (ready .tiDb).map .handle ++ [.handle (.onMinTs 40), .handle (.batch [oneCmd lockOfFifty]), .takeCommitTs 50 60,
    .handle (.onMinTs 100), .handle (.batch [oneCmd commitOfFifty])]

end Cdc.Track
end Tikv
