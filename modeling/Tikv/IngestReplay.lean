import Tikv.IngestWorker
/-!
# IngestReplay — one worker's run against the replay of its stream

The stream is a list of batches of operations and means their fold over the engine (`replay`).  A worker fed the stream,
however it is timed, ends with that engine exactly when every operation is a put and no slot is written twice: it puts
the value of a delete, and a slot met twice in one buffer makes the SST writer refuse the column family, whose pairs have
left the buffer by then.
-/
namespace Tikv
namespace Ingest

open List SstBatcher MvccKeyValue FlushEnv

open Lib (Bytes Patch)

inductive WorkerStep
  | recv (t : LoopEnv) (ev : PcrEventWithMeta)
  | idle (env : FlushEnv)

def WorkerStep.Works : WorkerStep → Prop
  | recv t _ => t.Works
  | idle env => env.Works

def WorkerStep.event? : WorkerStep → Option PcrEventWithMeta
  | recv _ ev => some ev
  | idle _ => none

def workerStep (flushIntervalMs : Nat) (s : SstBatcher × Engine) : WorkerStep → SstBatcher × Engine
  | .recv t ev => workerRecv flushIntervalMs t ev s.1 s.2
  | .idle env => workerIdle env s.1 s.2

def delivered (steps : List WorkerStep) : List PcrEventWithMeta := steps.filterMap WorkerStep.event?

def opPatch (kv : PcrKv) : EnginePatch :=
  match kv.op with
  | .put => Patch.put (ofPcrKv kv).slot kv.value
  | .delete => Patch.del (ofPcrKv kv).slot

/-- **The stream's meaning**: its operations, one by one. -/
def replay (ops : List PcrKv) (e : Engine) : Engine := ops.foldl (fun e kv => (opPatch kv).apply e) e

/-- **A worker replays the batches**: from every engine, with every configuration, timing, hash order and region ids,
and with RocksDB, the file system and PD working, once its buffer is empty the engine is the replay of the stream. -/
def ReplaysStream (batches : List (List PcrKv)) : Prop :=
  ∀ (flushIntervalMs maxKvBufferSize maxRangeBufferSize now : Nat) (e : Engine) (steps : List WorkerStep),
    (∀ st ∈ steps, st.Works) → (delivered steps).map (fun ev => ev.event.event) = batches.map .kvBatch →
    (steps.foldl (workerStep flushIntervalMs) (SstBatcher.new maxKvBufferSize maxRangeBufferSize now, e)).1.kvBuffer = [] →
    (steps.foldl (workerStep flushIntervalMs) (SstBatcher.new maxKvBufferSize maxRangeBufferSize now, e)).2 =
      replay batches.flatten e

theorem replay_eq (ops : List PcrKv) (e : Engine) : replay ops e = (Patch.seqAll (ops.map opPatch)).apply e := by
  rw [← Patch.foldl_apply, foldl_map]
  rfl

/-! ## Whole runs -/

theorem delivered_cons (st : WorkerStep) (steps : List WorkerStep) :
    delivered (st :: steps) = st.event?.toList ++ delivered steps := by
  cases st <;> rfl

theorem workerStep_absorbs (flushIntervalMs : Nat) {st : WorkerStep} (hst : st.Works) {b : SstBatcher}
    (hnd : ((b.kvBuffer ++ st.event?.toList.flatMap eventKvs).map slot).Nodup) (e : Engine) :
    Absorbs b e (st.event?.toList.flatMap eventKvs) (st.event?.toList.flatMap eventRanges)
      (workerStep flushIntervalMs (b, e) st).1 (workerStep flushIntervalMs (b, e) st).2 := by
  cases st with
  | recv t ev =>
    have hkv : (WorkerStep.recv t ev).event?.toList.flatMap eventKvs = eventKvs ev := append_nil _
    have hrg : (WorkerStep.recv t ev).event?.toList.flatMap eventRanges = eventRanges ev := append_nil _
    rw [hkv] at hnd
    rw [hkv, hrg]
    exact workerRecv_absorbs hst hnd
  | idle env => exact workerIdle_absorbs hst (by simpa [WorkerStep.event?] using hnd)

theorem workerSteps_absorb (flushIntervalMs : Nat) : ∀ (steps : List WorkerStep) (b : SstBatcher) (e : Engine),
    (∀ st ∈ steps, st.Works) →
    ((b.kvBuffer ++ (delivered steps).flatMap eventKvs).map slot).Nodup →
    Absorbs b e ((delivered steps).flatMap eventKvs) ((delivered steps).flatMap eventRanges)
      (steps.foldl (workerStep flushIntervalMs) (b, e)).1 (steps.foldl (workerStep flushIntervalMs) (b, e)).2
  | [], b, e, _, _ => Absorbs.of_buffered (by simp [delivered]) (by simp [delivered])
  | st :: steps, b, e, hw, hnd => by
    obtain ⟨hst, hsteps⟩ := forall_mem_cons.1 hw
    rw [delivered_cons, flatMap_append] at hnd
    rw [delivered_cons, flatMap_append, flatMap_append]
    have hfst : ((b.kvBuffer ++ st.event?.toList.flatMap eventKvs).map slot).Nodup := by
      rw [← append_assoc, map_append] at hnd
      exact List.Nodup.of_append_left hnd
    have h := workerStep_absorbs flushIntervalMs hst hfst e
    exact h.trans (workerSteps_absorb flushIntervalMs steps _ _ hsteps (h.nodup_rest hnd))

variable {batches : List (List PcrKv)}

theorem flatMap_kvBatch {evs : List PcrEventWithMeta} (h : evs.map (fun ev => ev.event.event) = batches.map .kvBatch) :
    evs.flatMap eventKvs = batches.flatten.map ofPcrKv ∧ evs.flatMap eventRanges = [] := by
  induction evs generalizing batches with
  | nil =>
    rw [map_nil, eq_comm, map_eq_nil_iff] at h
    subst h
    exact ⟨rfl, rfl⟩
  | cons ev evs ih =>
    cases batches with
    | nil => cases h
    | cons kvs batches =>
      obtain ⟨hev, hevs⟩ := cons.inj h
      dsimp only at hev
      obtain ⟨ihk, ihr⟩ := ih hevs
      rw [flatMap_cons, flatMap_cons, ihk, ihr, flatten_cons, map_append]
      unfold eventKvs eventRanges
      rw [hev]
      exact ⟨rfl, rfl⟩

def session (flushIntervalMs maxKv maxRange now : Nat) (e : Engine) (steps : List WorkerStep) : SstBatcher × Engine :=
  steps.foldl (workerStep flushIntervalMs) (new maxKv maxRange now, e)

variable {flushIntervalMs maxKv maxRange now : Nat} {e : Engine} {steps : List WorkerStep}

theorem session_absorbs (hslots : ((batches.flatten.map ofPcrKv).map slot).Nodup) (hw : ∀ st ∈ steps, st.Works)
    (hdel : (delivered steps).map (fun ev => ev.event.event) = batches.map .kvBatch) :
    ∃ fk fl, batches.flatten.map ofPcrKv = fk ++ (session flushIntervalMs maxKv maxRange now e steps).1.kvBuffer ∧
      fl.Perm (fk.map patch) ∧ (session flushIntervalMs maxKv maxRange now e steps).2 = (Patch.seqAll fl).apply e := by
  obtain ⟨hkv, hrg⟩ := flatMap_kvBatch hdel
  obtain ⟨fk, fr, fl, hk, hr, hp, he⟩ := workerSteps_absorb flushIntervalMs steps (new maxKv maxRange now) e hw
    (by rw [hkv]; exact hslots)
  rw [hkv] at hk
  rw [hrg] at hr
  have hfr : fr = [] := (append_eq_nil_iff.1 hr.symm).1
  rw [hfr, map_nil, append_nil] at hp
  exact ⟨fk, fl, hk, hp, he⟩

theorem replays_of_puts (hput : ∀ kv ∈ batches.flatten, kv.op = .put)
    (hnd : (batches.flatten.map (fun kv => (ofPcrKv kv).slot)).Nodup) : ReplaysStream batches := by
  intro flushIntervalMs maxKv maxRange now e steps hw hdel hempty
  have hslots : ((batches.flatten.map ofPcrKv).map slot).Nodup := by rwa [map_map]
  obtain ⟨fk, fl, hk, hp, he⟩ := session_absorbs hslots hw hdel
  -- nothing was buffered at first and nothing is at the end: all of the stream was flushed
  replace hk : _ = fk ++ [] := hempty ▸ hk
  have hops : batches.flatten.map opPatch = (batches.flatten.map ofPcrKv).map patch := by
    rw [map_map]
    refine map_congr_left fun kv hmem => ?_
    unfold opPatch
    rw [hput kv hmem]
    rfl
  rw [append_nil] at hk
  rw [← hk] at hp
  rw [replay_eq, hops, Patch.seqAll_perm hp.symm (pairwise_apart_of_nodup hslots)]
  exact he

/-! ## Streams that are not replayed -/

def bufferAll (batches : List (List PcrKv)) : List WorkerStep :=
  batches.map (fun kvs => .recv ⟨0, .ideal 0, .ideal 0⟩ ⟨⟨0, .kvBatch kvs, false⟩, 0⟩) ++ [.idle (.ideal 0)]

theorem bufferAll_works (batches : List (List PcrKv)) : ∀ st ∈ bufferAll batches, st.Works := by
  refine forall_mem_append.2 ⟨forall_mem_map.2 fun kvs _ => ?_, forall_mem_singleton.2 (ideal_works 0)⟩
  exact ⟨ideal_works 0, ideal_works 0⟩

theorem bufferAll_delivered : ∀ batches : List (List PcrKv),
    (delivered (bufferAll batches)).map (fun ev => ev.event.event) = batches.map .kvBatch
  | [] => rfl
  | kvs :: batches => congrArg (PcrEventOneof.kvBatch kvs :: ·) (bufferAll_delivered batches)

def kvBytes (kvs : List PcrKv) : Nat := (kvs.map (fun kv => kv.key.length + kv.value.length)).sum

theorem onKvBatch_quiet {t : LoopEnv} {kvs : List PcrKv} {b : SstBatcher} (hreg : b.currentRegionId = 0)
    (hsize : b.kvBufferSize + kvBytes kvs < b.maxKvBufferSize) (e : Engine) :
    onKvBatch 0 t 0 kvs b e = (kvs.foldl (fun b kv => b.addKv (ofPcrKv kv)) b, e) := by
  have hb : { b with currentRegionId := 0 } = b := by rw [← hreg]
  have hfull : (kvs.foldl (fun b kv => b.addKv (ofPcrKv kv)) b).shouldFlush .bufferFull = false := by
    obtain ⟨_, _, hfold⟩ := foldl_addKv kvs b
    rw [hfold]
    exact decide_eq_false (not_le.2 hsize)
  unfold onKvBatch
  simp [hreg, hb, hfull]

theorem bufferAll_run {maxKv : Nat} : ∀ (batches : List (List PcrKv)) (b : SstBatcher) (e : Engine),
    b.currentRegionId = 0 → b.maxKvBufferSize = maxKv → b.kvBufferSize + kvBytes batches.flatten < maxKv →
    ∃ b', b'.kvBuffer = b.kvBuffer ++ batches.flatten.map ofPcrKv ∧ b'.rangeBuffer = b.rangeBuffer ∧
      (bufferAll batches).foldl (workerStep 0) (b, e) = workerIdle (.ideal 0) b' e
  | [], b, e, _, _, _ => ⟨b, by simp, rfl, rfl⟩
  | kvs :: batches, b, e, hreg, hmax, hsize => by
    have hbytes : kvBytes (kvs :: batches).flatten = kvBytes kvs + kvBytes batches.flatten := by
      unfold kvBytes
      rw [flatten_cons, map_append, sum_append_nat]
    have hquiet : onKvBatch 0 ⟨0, .ideal 0, .ideal 0⟩ 0 kvs b e = _ := onKvBatch_quiet hreg (by omega) e
    obtain ⟨_, _, hfold⟩ := foldl_addKv kvs b
    have ih := @bufferAll_run maxKv batches (kvs.foldl (fun b kv => b.addKv (ofPcrKv kv)) b) e
    rw [hfold] at hquiet ih
    obtain ⟨b', hk, hr, hrun⟩ := ih hreg hmax (by show b.kvBufferSize + kvBytes kvs + _ < maxKv; omega)
    refine ⟨b', ?_, hr, ?_⟩
    · rw [hk, flatten_cons, map_append, append_assoc]
    · rw [← hrun, ← hquiet]
      rfl

theorem not_replays_of_flush (hne : batches.flatten ≠ []) {e : Engine}
    (h : ∀ b : SstBatcher, b.kvBuffer = batches.flatten.map ofPcrKv → b.rangeBuffer = [] →
      (flushQuiet (.ideal 0) b e).2 ≠ replay batches.flatten e) : ¬ ReplaysStream batches := by
  intro hrep
  obtain ⟨b, hk, hr, hrun⟩ := bufferAll_run batches (new (kvBytes batches.flatten + 1) 1 0) e rfl rfl
    (by show 0 + kvBytes batches.flatten < kvBytes batches.flatten + 1; omega)
  replace hk : b.kvBuffer = batches.flatten.map ofPcrKv := hk
  have hpend : 0 < b.pendingKvs := by
    unfold pendingKvs
    rw [hk, length_map]
    exact length_pos_of_ne_nil hne
  have hidle : workerIdle (.ideal 0) b e = flushQuiet (.ideal 0) b e := if_pos hpend
  have hempty : (flushQuiet (.ideal 0) b e).1.kvBuffer = [] := flushQuiet_kvBuffer _ _ _
  have := hrep 0 (kvBytes batches.flatten + 1) 1 0 e (bufferAll batches) (bufferAll_works batches)
    (bufferAll_delivered batches) (by rw [hrun, hidle]; exact hempty)
  rw [hrun, hidle] at this
  exact h b hk hr this

theorem opPatch_slot (kv : PcrKv) : ∃ v, opPatch kv (ofPcrKv kv).slot = some v := by
  unfold opPatch
  cases kv.op <;> exact ⟨_, if_pos rfl⟩

/-- **A slot written twice is not replayed**: one buffer holds both, and its flush leaves the slot as it was. -/
theorem not_replays_of_repeat
    (hrep : ¬ (batches.flatten.map (fun kv => (ofPcrKv kv).slot)).Nodup) : ¬ ReplaysStream batches := by
  obtain ⟨s, hs⟩ : ∃ s, 1 < (batches.flatten.map fun kv => (ofPcrKv kv).slot).count s := by
    by_contra hno
    exact hrep (nodup_iff_count_le_one.2 fun s => not_lt.1 fun hlt => hno ⟨s, hlt⟩)
  obtain ⟨kv, hkv, rfl⟩ := mem_map.1 (count_pos_iff.1 (lt_trans Nat.zero_lt_one hs))
  -- the stream changes the slot, so some engine disagrees with it there
  obtain ⟨v, hv⟩ : ∃ v, Patch.seqAll (batches.flatten.map opPatch) (ofPcrKv kv).slot = some v := by
    refine Option.ne_none_iff_exists'.1 fun hnone => ?_
    obtain ⟨v, hv⟩ := opPatch_slot kv
    rw [Patch.seqAll_eq_none.1 hnone _ (mem_map_of_mem hkv)] at hv
    cases hv
  obtain ⟨w, hw⟩ : ∃ w : Option Bytes, w ≠ v := by
    cases v with
    | none => exact ⟨some [], nofun⟩
    | some _ => exact ⟨none, nofun⟩
  refine not_replays_of_flush (e := fun _ => w) (ne_nil_of_mem hkv) fun b hk hr heq => hw ?_
  have hkeep := flush_of_repeat (.ideal 0) hr (s := (ofPcrKv kv).slot)
    (by rw [hk, map_map]; exact hs) fun _ => w
  have hval := congrFun heq (ofPcrKv kv).slot
  rw [replay_eq] at hval
  unfold Patch.apply at hval
  rw [hv] at hval
  exact hkeep.symm.trans hval

theorem not_replays_of_delete
    (hnd : (batches.flatten.map (fun kv => (ofPcrKv kv).slot)).Nodup) {kv : PcrKv} (hkv : kv ∈ batches.flatten)
    (hdel : kv.op = .delete) : ¬ ReplaysStream batches := by
  refine not_replays_of_flush (e := fun _ => none) (ne_nil_of_mem hkv) fun b hk hr heq => ?_
  have hslots : (b.kvBuffer.map slot).Nodup := by rw [hk, map_map]; exact hnd
  obtain ⟨b', e', r, hflush⟩ := flush_of_works (ideal_works 0) hslots fun _ => none
  obtain ⟨-, he, -, -⟩ := flush_ok (ideal_works 0).deleteRangesCf hflush
  have hval := congrFun heq (ofPcrKv kv).slot
  unfold flushQuiet at hval
  rw [hflush, replay_eq] at hval
  dsimp only at hval
  rw [he, patches, hk, hr, map_nil, append_nil, map_map] at hval
  -- the operation is the only one on its slot
  obtain ⟨pre, post, hsplit⟩ := append_of_mem hkv
  rw [hsplit, map_append, map_cons, nodup_append'] at hnd
  have hpost : ∀ x ∈ post, (ofPcrKv x).slot ≠ (ofPcrKv kv).slot := fun x hx heq =>
    (nodup_cons.1 hnd.2.1).1 (heq ▸ mem_map_of_mem hx)
  have hput : ∀ x ∈ post.map (patch ∘ ofPcrKv), x (ofPcrKv kv).slot = none :=
    forall_mem_map.2 fun x hx => if_neg (hpost x hx).symm
  have hop : ∀ x ∈ post.map opPatch, x (ofPcrKv kv).slot = none := by
    refine forall_mem_map.2 fun x hx => ?_
    unfold opPatch
    cases x.op <;> exact if_neg (hpost x hx).symm
  have hwrote : (patch ∘ ofPcrKv) kv (ofPcrKv kv).slot = some (some kv.value) := if_pos rfl
  have hremoved : opPatch kv (ofPcrKv kv).slot = some none := by
    unfold opPatch
    rw [hdel]
    exact if_pos rfl
  unfold Patch.apply at hval
  rw [hsplit, map_append, map_cons, Patch.seqAll_of_last _ (by rw [hwrote]; exact Option.some_ne_none _) hput,
    map_append, map_cons, Patch.seqAll_of_last _ (by rw [hremoved]; exact Option.some_ne_none _) hop,
    hwrote, hremoved] at hval
  cases hval

/-- **One worker replays a stream exactly when it is puts of distinct slots.** -/
theorem replaysStream_iff (batches : List (List PcrKv)) : ReplaysStream batches ↔
    (∀ kv ∈ batches.flatten, kv.op = .put) ∧ (batches.flatten.map (fun kv => (ofPcrKv kv).slot)).Nodup := by
  constructor
  · intro h
    by_cases hnd : (batches.flatten.map fun kv => (ofPcrKv kv).slot).Nodup
    · refine ⟨fun kv hkv => ?_, hnd⟩
      cases hop : kv.op with
      | put => rfl
      | delete => exact absurd h (not_replays_of_delete hnd hkv hop)
    · exact absurd h (not_replays_of_repeat hnd)
  · rintro ⟨hput, hnd⟩
    exact replays_of_puts hput hnd

/-- The delete of one default-CF key, as the source emits it for a committed delete, is not replayed. -/
theorem not_replaysStream_delete : ¬ ReplaysStream [[⟨[122, 97], [], .delete, .default⟩]] :=
  not_replays_of_delete (nodup_singleton _) (mem_singleton.2 rfl) rfl

/-! ## Redelivery -/

section

variable {front : List (List PcrKv)} (hfront : front <+: batches)
  (hnd : ((batches.flatten.map ofPcrKv).map slot).Nodup) {lost : List WorkerStep} (hlost : ∀ st ∈ lost, st.Works)
  (hfed : (delivered lost).map (fun ev => ev.event.event) = front.map .kvBatch)
include hfront hnd hlost hfed

/-- **What a front of the stream has changed, the stream changes again.** -/
theorem replay_session :
    replay batches.flatten (session flushIntervalMs maxKv maxRange now e lost).2 = replay batches.flatten e := by
  obtain ⟨rest, rfl⟩ := hfront
  rw [flatten_append, map_append, map_append] at hnd
  obtain ⟨fk, fl, hk, hp, he⟩ := session_absorbs hnd.of_append_left hlost hfed
  rw [flatten_append, replay_eq, replay_eq, he]
  funext s
  unfold Patch.apply
  cases hs : Patch.seqAll ((front.flatten ++ rest.flatten).map opPatch) s with
  | some v => rfl
  | none =>
    refine Patch.apply_of_none (fun p hmem => ?_) e
    obtain ⟨x, hx, rfl⟩ := mem_map.1 (hp.mem_iff.1 hmem)
    obtain ⟨kv, hkv, rfl⟩ := mem_map.1 (hk ▸ mem_append_left _ hx)
    refine if_neg fun heq => ?_
    obtain ⟨v, hv⟩ := opPatch_slot kv
    cases hv.symm.trans (heq ▸ Patch.seqAll_eq_none.1 hs _ (mem_map_of_mem (mem_append_left _ hkv)))

/-- **A stream given again from its start makes up for a lost worker**: however much of a front of it the first worker had
flushed, once the second has flushed all of it the engine is the replay. -/
theorem redelivery_recovers (hput : ∀ kv ∈ batches.flatten, kv.op = .put) (hw : ∀ st ∈ steps, st.Works)
    (hdel : (delivered steps).map (fun ev => ev.event.event) = batches.map .kvBatch) {i n m t : Nat}
    (hempty : (session i n m t (session flushIntervalMs maxKv maxRange now e lost).2 steps).1.kvBuffer = []) :
    (session i n m t (session flushIntervalMs maxKv maxRange now e lost).2 steps).2 = replay batches.flatten e :=
  (replays_of_puts hput (by rwa [map_map] at hnd) _ _ _ _ _ steps hw hdel hempty).trans
    (replay_session hfront hnd hlost hfed)

end

def twoPuts : List (List PcrKv) := [[⟨[122, 97], [1], .put, .default⟩], [⟨[122, 98], [2], .put, .default⟩]]

theorem redelivery_recovers_twoPuts : (session 0 9 9 0 (session 0 1 1 0 (fun _ => none) (bufferAll (twoPuts.take 1))).2
    (bufferAll twoPuts)).2 = replay twoPuts.flatten fun _ => none :=
  redelivery_recovers ( take_prefix 1 _) (by decide) (bufferAll_works _) (bufferAll_delivered _) (by decide)
    (bufferAll_works _) (bufferAll_delivered _) rfl

end Ingest
end Tikv
