import Tikv.IngestInflight
import Mathlib.Data.Fintype.Basic
import Mathlib.Tactic.FinCases
/-!
# IngestOrder — the order of the events of one key

Events of one key may go to different workers, which flush on their own; the engine ends with the value of the last event
of the key when every step is orderly: an event is handed to a worker only while no other worker has one of its slots in
flight.  Without that the workers' schedule decides.
-/
namespace Tikv
namespace Ingest

open List MvccKeyValue

open Lib (Patch Run always)

def Drained (c : Consumer) : Prop :=
  c.stream = [] ∧ ∀ i, (c.workers i).rx = [] ∧ (c.workers i).batcher.kvBuffer = [] ∧
    (c.workers i).batcher.rangeBuffer = []

/-- **Of two events with an entry for one slot, the later one's value is in the engine**: its last entry for the slot,
if no event after it changes the slot. -/
def KeyOrder (c : Consumer) : Prop :=
  ∀ pre e₁ mid e₂ post kv₁ l kv₂ r, c.received = pre ++ e₁ :: (mid ++ e₂ :: post) →
    kv₁ ∈ eventKvs e₁ → eventKvs e₂ = l ++ kv₂ :: r → kv₁.slot = kv₂.slot → (∀ kv ∈ r, kv.slot ≠ kv₂.slot) →
    (∀ p ∈ streamOps post, p kv₂.slot = none) → c.engine kv₂.slot = some kv₂.value

variable {c : Consumer}

theorem Drained.pending (h : Drained c) (i : Fin ingestWorkers) : (c.workers i).pending = Patch.skip := by
  obtain ⟨hrx, hk, hr⟩ := h.2 i
  unfold Worker.pending Worker.ops SstBatcher.patches
  rw [hrx, hk, hr]
  rfl

variable {ev : PcrEventWithMeta} {l r : List MvccKeyValue} {kv : MvccKeyValue}

theorem eventPatches_of_kvs (h : eventKvs ev = l ++ kv :: r) : eventPatches ev = (l ++ kv :: r).map patch := by
  have hrg : eventRanges ev = [] := by
    unfold eventRanges
    unfold eventKvs at h
    cases hev : ev.event.event with
    | deleteRange startKey endKey ts =>
      rw [hev] at h
      exact absurd h (append_ne_nil_of_right_ne_nil _ (by simp)).symm
    | _ => rfl
  unfold eventPatches
  rw [h, hrg, map_nil, append_nil]

-- A stream around one entry of one of its events.
theorem streamOps_at {pre post : List PcrEventWithMeta}
    (h : eventKvs ev = l ++ kv :: r) : streamOps (pre ++ ev :: post) =
      (streamOps pre ++ l.map patch) ++ kv.patch :: (r.map patch ++ streamOps post) := by
  rw [streamOps_append, streamOps_cons, eventPatches_of_kvs h]
  simp

theorem seqAll_streamOps_at {pre post : List PcrEventWithMeta} (h : eventKvs ev = l ++ kv :: r)
    (hafter : ∀ p ∈ r.map patch ++ streamOps post, p kv.slot = none) :
    Patch.seqAll (streamOps (pre ++ ev :: post)) kv.slot = some (some kv.value) := by
  have hput : kv.patch kv.slot = some (some kv.value) := if_pos rfl
  rw [streamOps_at h, Patch.seqAll_of_last _ (by rw [hput]; exact Option.some_ne_none _) hafter, hput]

/-- **In an orderly run, in span mode or not, the events of one key are ingested in stream order.** -/
theorem keyOrder_of_orderly {cfg : Config} {e : Engine} {acts : List Action} {c : Consumer}
    (h : Run (Steps cfg) Orderly (Consumer.init cfg e) acts c) (hd : Drained c) : KeyOrder c := by
  intro pre e₁ mid e₂ post kv₁ l kv₂ r hrec _ hkv₂ _ hr hpost
  have hinv : Inv c := h.invariant (fun _ _ _ hi hok hstep => step_inv hi hok hstep) (init_inv cfg e)
  have hafter : ∀ p ∈ r.map patch ++ streamOps post, p kv₂.slot = none := by
    rw [forall_mem_append, forall_mem_map]
    exact ⟨fun kv hkv => if_neg (hr kv hkv).symm, hpost⟩
  have hlast : Patch.seqAll (streamOps c.received) kv₂.slot = some (some kv₂.value) := by
    rw [hrec, ← cons_append, ← append_assoc]
    exact seqAll_streamOps_at hkv₂ hafter
  rcases hinv.carries.landed _ _ hlast with hm | ⟨i, hi⟩
  · exact hm
  · exact absurd (congrFun (hd.pending i) _) hi

/-! ## Two events of one key -/

def putEvent (v : UInt8) : PcrEventWithMeta := ⟨⟨0, .kvBatch [⟨[122, 97], [v], .put, .write⟩], false⟩, 0⟩

def LoopEnv.ideal : LoopEnv := ⟨0, .ideal 0, .ideal 0⟩

theorem LoopEnv.ideal_works : LoopEnv.ideal.Works := ⟨FlushEnv.ideal_works 0, FlushEnv.ideal_works 0⟩

def RecordEnv.ideal : RecordEnv := ⟨.ok (), .ok ()⟩

def flushEach : Config := ⟨0, 0, 0⟩

def oneByOne : List Action :=
  [.start true [putEvent 1, putEvent 2] 0, .receive .ideal, .work 0 .ideal, .receive .ideal, .work 1 .ideal]

theorem conflictFree_of_idle (hd : c.draining = []) (hw : ∀ i, (c.workers i).ops = []) (v : UInt8) :
    ConflictFree c (putEvent v) := by
  refine ⟨fun j _ => ?_, ?_⟩
  · rw [hw j]
    exact nofun
  · rw [hd]
    exact nofun

theorem oneByOne_run : ∃ c, Run (Steps flushEach) Orderly (Consumer.init flushEach (fun _ => none)) oneByOne c ∧
    Drained c ∧ c.received = [putEvent 1, putEvent 2] := by
  refine ⟨_, .cons trivial rfl (.cons (fun ev rest hst => ?_) rfl (.cons ⟨LoopEnv.ideal_works, fun ev rest hst => ?_⟩ rfl
    (.cons (fun ev rest hst => ?_) rfl (.cons ⟨LoopEnv.ideal_works, fun ev rest hst => ?_⟩ rfl (.nil _))))),
    ⟨rfl, fun i => ?_⟩, rfl⟩
  · obtain ⟨rfl, -⟩ := cons.inj hst
    exact conflictFree_of_idle rfl (fun _ => rfl) 1
  · obtain ⟨rfl, -⟩ := cons.inj hst
    exact pairwise_singleton _ _
  · obtain ⟨rfl, -⟩ := cons.inj hst
    exact conflictFree_of_idle rfl (fun i => by fin_cases i <;> rfl) 2
  · obtain ⟨rfl, -⟩ := cons.inj hst
    exact pairwise_singleton _ _
  · fin_cases i <;> exact ⟨rfl, rfl, rfl⟩

theorem keyOrder_oneByOne : ∃ c, Run (Steps flushEach) Orderly (Consumer.init flushEach (fun _ => none)) oneByOne c ∧
    Drained c ∧ c.engine (.write, [122, 97]) = some [2] := by
  obtain ⟨c, hrun, hd, hrec⟩ := oneByOne_run
  exact ⟨c, hrun, hd, keyOrder_of_orderly hrun hd [] (putEvent 1) [] (putEvent 2) [] ⟨[122, 97], [1], .write⟩ []
    ⟨[122, 97], [2], .write⟩ [] hrec (mem_singleton.2 rfl) rfl rfl (by simp) (by simp [streamOps])⟩

def secondFirst : List Action :=
  [.start true [putEvent 1, putEvent 2] 0, .receive .ideal, .receive .ideal, .work 1 .ideal, .work 0 .ideal]

/-- **In span mode the first event's value can be the one left**: the two events are with two workers at once. -/
theorem not_keyOrder_secondFirst : ∃ c,
    Run (Steps flushEach) always (Consumer.init flushEach (fun _ => none)) secondFirst c ∧
      Drained c ∧ (∀ ev ∈ c.received, ev.regionId = 0) ∧ ¬ KeyOrder c := by
  refine ⟨_, .of_foldlM rfl, ⟨rfl, fun i => ?_⟩, ?_, fun h => ?_⟩
  · fin_cases i <;> exact ⟨rfl, rfl, rfl⟩
  · decide
  · have hval := h [] (putEvent 1) [] (putEvent 2) [] ⟨[122, 97], [1], .write⟩ [] ⟨[122, 97], [2], .write⟩ [] rfl
    revert hval
    decide

end Ingest
end Tikv
