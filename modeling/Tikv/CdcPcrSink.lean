import Tikv.CdcEventBatcher
import Tikv.LibRun
/-!
# CdcPcrSink — from the delegate's batcher to the stream (`delegate.rs`)

The delegate flushes its batcher and sends the event to the sink it was last given.  The batch has left the batcher when
the send is tried, so an event sent to a dead sink is gone.  `Conserved` says that nothing is: what sinks accepted and
what is pending make up what was added, in order.  It holds after a sequence of operations exactly when every operation
that flushed a batch found a live sink (`conserved_iff_live`).
-/
namespace Tikv
namespace Cdc

open List

open Lib (Bytes Run stepOf always)

structure PcrFields where
  pcrBatcher : Option PcrEventBatcher
  pcrEventSink : Option Nat
deriving DecidableEq, Repr

/-- What `enable_pcr` makes of them: an existing batcher is kept. -/
def PcrFields.enablePcr (d : PcrFields) (eventSink bufferSize flushIntervalMs now : Nat) : PcrFields :=
  ⟨some (d.pcrBatcher.getD (.new bufferSize flushIntervalMs now)), some eventSink⟩

/-- A delegate's PCR with the sinks it was given.  `accepted` and `added` are for the record. -/
structure PcrDelegate extends PcrFields where
  alive : Nat → Bool
  accepted : List (Nat × PcrEvent)
  added : List PcrKv

open PcrDelegate

def PcrDelegate.init : PcrDelegate := ⟨⟨none, none⟩, fun _ => true, [], []⟩

def emitPcrEvent (d : PcrDelegate) (event : PcrEvent) : PcrDelegate :=
  match d.pcrEventSink with
  | none => d
  | some sink => if d.alive sink then { d with accepted := d.accepted ++ [(sink, event)] } else d

def flushAndEmit (d : PcrDelegate) (b : PcrEventBatcher) (now : Nat) : PcrDelegate :=
  match b.flush now with
  | (b', none) => { d with pcrBatcher := some b' }
  | (b', some event) => emitPcrEvent { d with pcrBatcher := some b' } event

def maybeFlushPcrBatcher (d : PcrDelegate) (now : Nat) : PcrDelegate :=
  match d.pcrBatcher with
  | none => d
  | some b => if b.shouldFlush now then flushAndEmit d b now else d

def forceFlush (d : PcrDelegate) (now : Nat) : PcrDelegate :=
  let d := maybeFlushPcrBatcher d now
  match d.pcrBatcher with
  | none => d
  | some b => if 0 < b.size then flushAndEmit d b now else d

inductive SinkOp
  | enablePcr (eventSink bufferSize flushIntervalMs now : Nat)
  | addKv (key value : Bytes) (op : OpType) (cf : Cf)
  | maybeFlush (now : Nat)
  | forceFlush (now : Nat)
  | dropReceiver (sink : Nat)

def sinkStep (d : PcrDelegate) : SinkOp → PcrDelegate
  | .enablePcr eventSink bufferSize flushIntervalMs now =>
    { d with toPcrFields := d.toPcrFields.enablePcr eventSink bufferSize flushIntervalMs now }
  | .addKv key value op cf =>
    match d.pcrBatcher with
    | none => d
    | some b => { d with pcrBatcher := some (b.addKv key value op cf), added := d.added ++ [⟨key, value, op, cf⟩] }
  | .maybeFlush now => maybeFlushPcrBatcher d now
  | .forceFlush now => forceFlush d now
  | .dropReceiver sink => { d with alive := Function.update d.alive sink false }

/-! ## Nothing is lost -/

def eventKvs (event : PcrEvent) : List PcrKv :=
  match event.event with
  | .kvBatch kvs => kvs
  | _ => []

def PcrDelegate.pending (d : PcrDelegate) : List PcrKv := d.pcrBatcher.elim [] PcrEventBatcher.batch

def PcrDelegate.held (d : PcrDelegate) : List PcrKv := d.accepted.flatMap (fun a => eventKvs a.2) ++ d.pending

/-- **Every pair added is in an accepted event or pending, in order and once.** -/
def Conserved (d : PcrDelegate) : Prop := d.held = d.added

instance (d : PcrDelegate) : Decidable (Conserved d) := inferInstanceAs (Decidable (d.held = d.added))

def SinkAlive (d : PcrDelegate) : Prop := ∃ sink, d.pcrEventSink = some sink ∧ d.alive sink = true

/-- **An operation that flushes a batch finds a live sink.** -/
def Live (d : PcrDelegate) : SinkOp → Prop
  | .maybeFlush now => ∀ b, d.pcrBatcher = some b → b.shouldFlush now = true → b.batch ≠ [] → SinkAlive d
  | .forceFlush now => ∀ b, d.pcrBatcher = some b → b.shouldFlush now = true ∨ 0 < b.size → b.batch ≠ [] → SinkAlive d
  | _ => True

variable {d : PcrDelegate} {b : PcrEventBatcher}

theorem flushAndEmit_empty (hb : d.pcrBatcher = some b) (h : b.batch = []) (now : Nat) : flushAndEmit d b now = d := by
  unfold flushAndEmit PcrEventBatcher.flush
  rw [h]
  show { d with pcrBatcher := some b } = d
  rw [← hb]

theorem flushAndEmit_cases (h : b.batch ≠ []) (now : Nat) : ∃ b' sent, b'.batch = [] ∧ b'.size = 0 ∧
    flushAndEmit d b now = { d with pcrBatcher := some b', accepted := d.accepted ++ sent } ∧
    (SinkAlive d ∧ sent.flatMap (fun a => eventKvs a.2) = b.batch ∨ ¬ SinkAlive d ∧ sent = []) := by
  obtain ⟨b', event, hflush, hempty, hsize, hkvs⟩ : ∃ b' event, b.flush now = (b', some event) ∧ b'.batch = [] ∧
      b'.size = 0 ∧ eventKvs event = b.batch := by
    rw [PcrEventBatcher.flush, if_neg (by simpa using h)]
    exact ⟨_, _, rfl, rfl, rfl, rfl⟩
  unfold flushAndEmit emitPcrEvent SinkAlive
  rw [hflush]
  cases hs : d.pcrEventSink with
  | none => exact ⟨b', [], hempty, hsize, by simp, .inr ⟨by simp, rfl⟩⟩
  | some sink =>
    cases hal : d.alive sink with
    | true => exact ⟨b', [(sink, event)], hempty, hsize, by simp [hal], .inl ⟨⟨sink, rfl, hal⟩, by simpa using hkvs⟩⟩
    | false => exact ⟨b', [], hempty, hsize, by simp [hal], .inr ⟨by simp [hal], rfl⟩⟩

section

variable (hb : d.pcrBatcher = some b)
include hb

theorem flushAndEmit_held (h : b.batch ≠ []) (now : Nat) : (flushAndEmit d b now).added = d.added ∧
    (SinkAlive d ∧ (flushAndEmit d b now).held = d.held ∨
      ¬ SinkAlive d ∧ (flushAndEmit d b now).held.length < d.held.length) := by
  obtain ⟨b', sent, hempty, -, heq, hsent⟩ := flushAndEmit_cases (d := d) h now
  have hlen : 0 < b.batch.length := length_pos_of_ne_nil h
  rw [heq]
  refine ⟨rfl, hsent.imp (And.imp_right fun hkvs => ?_) (And.imp_right fun hnil => ?_)⟩
  · simp [held, pending, hb, hempty, hkvs]
  · simp [held, pending, hb, hempty, hnil, hlen]

theorem forceFlush_eq (now : Nat) :
    forceFlush d now = if b.shouldFlush now = true ∨ 0 < b.size then flushAndEmit d b now else d := by
  unfold forceFlush maybeFlushPcrBatcher
  rw [hb]
  dsimp only
  cases hsf : b.shouldFlush now with
  | false =>
    rw [if_neg Bool.false_ne_true, hb]
    simp
  | true =>
    rw [if_pos rfl, if_pos (.inl rfl)]
    by_cases hempty : b.batch = []
    · rw [flushAndEmit_empty hb hempty, hb]
      dsimp only
      rw [flushAndEmit_empty hb hempty, ite_self]
    · obtain ⟨b', sent, -, hsize, heq, -⟩ := flushAndEmit_cases (d := d) hempty now
      rw [heq]
      dsimp only
      rw [hsize, if_neg (lt_irrefl 0)]

theorem flush_effect {d' : PcrDelegate} {now : Nat} {P : Prop} [Decidable P]
    (hd' : d' = if P then flushAndEmit d b now else d) :
    ((P → b.batch ≠ [] → SinkAlive d) → d'.held = d.held ∧ d'.added = d.added) ∧
      (¬ (P → b.batch ≠ [] → SinkAlive d) → d'.held.length < d.held.length ∧ d'.added = d.added) := by
  by_cases hP : P
  · rw [if_pos hP] at hd'
    by_cases hempty : b.batch = []
    · rw [flushAndEmit_empty hb hempty] at hd'
      rw [hd']
      exact ⟨fun _ => ⟨rfl, rfl⟩, fun h => absurd (fun _ hne => absurd hempty hne) h⟩
    · obtain ⟨hadd, ⟨hal, hheld⟩ | ⟨hdead, hheld⟩⟩ := flushAndEmit_held hb hempty now
      · exact ⟨fun _ => hd' ▸ ⟨hheld, hadd⟩, fun h => absurd (fun _ _ => hal) h⟩
      · exact ⟨fun h => absurd (h hP hempty) hdead, fun _ => hd' ▸ ⟨hheld, hadd⟩⟩
  · rw [if_neg hP] at hd'
    rw [hd']
    exact ⟨fun _ => ⟨rfl, rfl⟩, fun h => absurd (fun hp => absurd hp hP) h⟩

end

/-! ## Every operation -/

theorem sinkStep_live {op : SinkOp} (h : Live d op) :
    ∃ new, (sinkStep d op).held = d.held ++ new ∧ (sinkStep d op).added = d.added ++ new := by
  have hsame : ∀ d' : PcrDelegate, d'.held = d.held ∧ d'.added = d.added →
      ∃ new, d'.held = d.held ++ new ∧ d'.added = d.added ++ new := by
    rintro d' ⟨hh, ha⟩
    exact ⟨[], by rw [hh, append_nil], by rw [ha, append_nil]⟩
  cases op with
  | enablePcr eventSink bufferSize flushIntervalMs now =>
    refine hsame _ ⟨?_, rfl⟩
    unfold sinkStep PcrFields.enablePcr held pending
    cases d.pcrBatcher <;> rfl
  | addKv key value op cf =>
    unfold sinkStep
    cases hb : d.pcrBatcher with
    | none => exact hsame d ⟨rfl, rfl⟩
    | some b =>
      refine ⟨[⟨key, value, op, cf⟩], ?_, rfl⟩
      unfold held pending
      rw [hb, append_assoc]
      rfl
  | maybeFlush now =>
    unfold sinkStep maybeFlushPcrBatcher
    cases hb : d.pcrBatcher with
    | none => exact hsame d ⟨rfl, rfl⟩
    | some b => exact hsame _ ((flush_effect hb rfl).1 (h b hb))
  | forceFlush now =>
    show ∃ new, (forceFlush d now).held = d.held ++ new ∧ (forceFlush d now).added = d.added ++ new
    cases hb : d.pcrBatcher with
    | none =>
      have : forceFlush d now = d := by simp [forceFlush, maybeFlushPcrBatcher, hb]
      exact hsame _ (by rw [this]; exact ⟨rfl, rfl⟩)
    | some b => exact hsame _ ((flush_effect hb (forceFlush_eq hb now)).1 (h b hb))
  | dropReceiver sink => exact hsame _ ⟨rfl, rfl⟩

theorem sinkStep_not_live {op : SinkOp} (h : ¬ Live d op) :
    (sinkStep d op).held.length < d.held.length ∧ (sinkStep d op).added = d.added := by
  cases op with
  | maybeFlush now =>
    obtain ⟨b, hb⟩ := not_forall.1 h
    obtain ⟨hb, hlive⟩ := Classical.not_imp.1 hb
    have : maybeFlushPcrBatcher d now = if b.shouldFlush now = true then flushAndEmit d b now else d := by
      unfold maybeFlushPcrBatcher
      rw [hb]
    exact (flush_effect hb this).2 hlive
  | forceFlush now =>
    obtain ⟨b, hb⟩ := not_forall.1 h
    obtain ⟨hb, hlive⟩ := Classical.not_imp.1 hb
    exact (flush_effect hb (forceFlush_eq hb now)).2 hlive
  | _ => exact absurd trivial h

theorem sinkStep_missing (d : PcrDelegate) (op : SinkOp) :
    d.added.length + (sinkStep d op).held.length ≤ d.held.length + (sinkStep d op).added.length := by
  by_cases hl : Live d op
  · obtain ⟨new, hh, ha⟩ := sinkStep_live hl
    rw [hh, ha, length_append, length_append]
    omega
  · obtain ⟨hh, ha⟩ := sinkStep_not_live hl
    rw [ha]
    omega

theorem foldl_missing : ∀ (ops : List SinkOp) (d : PcrDelegate),
    d.added.length + (ops.foldl sinkStep d).held.length ≤ d.held.length + (ops.foldl sinkStep d).added.length
  | [], d => by rw [foldl_nil]; omega
  | op :: ops, d => by
    rw [foldl_cons]
    have h1 := sinkStep_missing d op
    have h2 := foldl_missing ops (sinkStep d op)
    omega

/-- **After any operations nothing is lost exactly when each of them that flushed a batch found a live sink.** -/
theorem conserved_iff_live (ops : List SinkOp) : Conserved (ops.foldl sinkStep .init) ↔
    Run (stepOf sinkStep) Live .init ops (ops.foldl sinkStep .init) := by
  constructor
  · -- a conserved end means a conserved start and no loss on the way
    have h : ∀ (ops : List SinkOp) (d : PcrDelegate), Conserved d → Conserved (ops.foldl sinkStep d) →
        Run (stepOf sinkStep) Live d ops (ops.foldl sinkStep d) := by
      intro ops
      induction ops with
      | nil => exact fun d _ _ => .nil d
      | cons op ops ih =>
        intro d hd hend
        rw [foldl_cons] at hend ⊢
        have hlive : Live d op := by
          by_contra hl
          obtain ⟨hh, ha⟩ := sinkStep_not_live hl
          have hm := foldl_missing ops (sinkStep d op)
          rw [hend, ha, ← hd] at hm
          omega
        refine .cons hlive rfl (ih _ ?_ hend)
        obtain ⟨new, hh, ha⟩ := sinkStep_live hlive
        unfold Conserved
        rw [hh, ha, hd]
    exact h ops .init rfl
  · intro h
    refine h.invariant (fun d op d' hd hlive hstep => ?_) rfl
    obtain ⟨new, hh, ha⟩ := sinkStep_live hlive
    unfold Conserved at hd ⊢
    rw [hstep, hh, ha, hd]

/-- **A pair flushed after the receiver was dropped and before the next `enable_pcr` is lost.** -/
theorem not_conserved_disconnect : ¬ Conserved ([.enablePcr 0 1024 150 0, .addKv [122, 97] [1] .put .default,
    .dropReceiver 0, .forceFlush 1, .enablePcr 1 1024 150 2].foldl sinkStep .init) := by
  decide

end Cdc
end Tikv
