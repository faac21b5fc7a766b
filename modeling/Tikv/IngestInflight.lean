import Tikv.IngestConsumer
import Tikv.LibInflight
/-!
# IngestInflight — what a step of the consumer does to the changes in flight

A change is in flight while it is in a channel or in a buffer.  Whatever fails, a step leaves a slot of the engine as it
is or puts there what a change in flight puts there (`step_moves`).

An orderly step (`Orderly`) hands an event to a worker only while no other worker has a change to one of its slots,
buffers no two changes to one slot, and flushes only where RocksDB, the file system and PD work.  Along orderly steps the
workers carry what the session received to the engine in order (`Inv`).
-/
namespace Tikv
namespace Ingest

open List MvccKeyValue Consumer Worker Function

open Lib (Bytes Patch Run)

def streamOps (evs : List PcrEventWithMeta) : List EnginePatch := evs.flatMap eventPatches

theorem streamOps_append (a b : List PcrEventWithMeta) : streamOps (a ++ b) = streamOps a ++ streamOps b :=
  flatMap_append

theorem streamOps_cons (ev : PcrEventWithMeta) (evs : List PcrEventWithMeta) :
    streamOps (ev :: evs) = eventPatches ev ++ streamOps evs := flatMap_cons

theorem streamOps_singleton (ev : PcrEventWithMeta) : streamOps [ev] = eventPatches ev := flatMap_singleton ..

def Worker.ops (w : Worker) : List EnginePatch := w.batcher.patches ++ streamOps w.rx

def Worker.pending (w : Worker) : EnginePatch := Patch.seqAll w.ops

/-! ## A worker's turn, whatever fails -/

section

/-- What a turn puts into the engine and what it leaves in the buffer is in `fly`. -/
def Leaves (fly : Set EnginePatch) (e : Engine) (s : SstBatcher × Engine) : Prop :=
  Patch.Writes fly e s.2 ∧ ∀ p ∈ s.1.patches, p ∈ fly

variable {fly : Set EnginePatch} {b : SstBatcher} {env : FlushEnv} {t : LoopEnv} {e : Engine}

theorem applyDeleteRange_writes {r : RangeDelete} (hr : r.patch ∈ fly) (env : FlushEnv) (e : Engine) :
    Patch.Writes fly e (applyDeleteRange env r.startKey r.endKey e) := by
  refine Patch.Writes.foldl (fun cf hcf e => ?_) e
  split
  · exact .refl fly e
  intro s
  unfold Patch.apply eraseRange Patch.erase
  dsimp only
  cases hs : s.1 == cf && decide (r.startKey ≤ s.2) && decide (s.2 < r.endKey) with
  | false => exact .inl rfl
  | true =>
    refine .inr ⟨_, hr, ?_⟩
    simp only [Bool.and_eq_true, beq_iff_eq, decide_eq_true_eq] at hs
    have hcov : r.covers s = true := by
      unfold RangeDelete.covers
      rw [hs.1.1, decide_eq_true hs.1.2, decide_eq_true hs.2]
      simp only [mem_cons, not_mem_nil, or_false] at hcf
      rcases hcf with rfl | rfl | rfl <;> rfl
    unfold RangeDelete.patch Patch.erase
    rw [hcov]
    rfl

theorem written_subset {kvs : List MvccKeyValue} {kv : MvccKeyValue} (h : kv ∈ env.written kvs) : kv ∈ kvs := by
  obtain ⟨g, hg, hkv⟩ := mem_flatMap.1 h
  exact (order_groupByCf_perm env kvs).mem_iff.1 (mem_flatMap.2 ⟨g, (takeWhile_sublist _).subset hg, hkv⟩)

theorem flushQuiet_leaves (hb : ∀ p ∈ b.patches, p ∈ fly) (env : FlushEnv) (e : Engine) :
    Leaves fly e (flushQuiet env b e) := by
  obtain ⟨hkvs, hranges⟩ := forall_mem_append.1 hb
  rw [forall_mem_map] at hkvs hranges
  have hing : Patch.Writes fly e (ingestGroups env (env.order (groupByCf b.kvBuffer)) e (0, 0)).1 := by
    rw [(ingestGroups_order env b.kvBuffer e).1]
    exact Patch.writes_seqAll (forall_mem_map.2 fun kv hkv => hkvs kv (written_subset hkv)) e
  unfold flushQuiet SstBatcher.flush
  split
  · exact ⟨.refl fly e, hb⟩
  split
  · rename_i e' err heq
    rw [heq] at hing
    exact ⟨hing, forall_mem_map.2 hranges⟩
  · rename_i e' regionId totalBytes heq
    rw [heq] at hing
    exact ⟨hing.trans (Patch.Writes.foldl (fun r hr => applyDeleteRange_writes (hranges r hr) env) e'), nofun⟩

variable (flushIntervalMs : Nat) (t : LoopEnv) (e : Engine)

theorem onKvBatch_leaves (regionId : Nat) {kvs : List PcrKv} (hb : ∀ p ∈ b.patches, p ∈ fly)
    (hkvs : ∀ kv ∈ kvs.map ofPcrKv, kv.patch ∈ fly) : Leaves fly e (onKvBatch flushIntervalMs t regionId kvs b e) := by
  unfold onKvBatch
  have hbound : ∀ s : SstBatcher × Engine, s = (if b.currentRegionId != regionId && b.shouldFlush .rangeBoundary then
      flushQuiet t.boundary b e else (b, e)) → Leaves fly e s := by
    rintro s rfl
    split
    · exact flushQuiet_leaves hb t.boundary e
    · exact ⟨.refl fly e, hb⟩
  generalize hs : (if b.currentRegionId != regionId && b.shouldFlush .rangeBoundary then
      flushQuiet t.boundary b e else (b, e)) = s
  obtain ⟨hw, hs⟩ := hbound s hs.symm
  obtain ⟨_, _, hfold⟩ := foldl_addKv kvs { s.1 with currentRegionId := regionId }
  dsimp only
  generalize kvs.foldl (fun b kv => b.addKv (ofPcrKv kv)) { s.1 with currentRegionId := regionId } = b₁ at hfold
  have hb₁ : ∀ p ∈ b₁.patches, p ∈ fly := by
    obtain ⟨hbuf, hranges⟩ := forall_mem_append.1 hs
    rw [hfold]
    unfold SstBatcher.patches
    rw [map_append]
    exact forall_mem_append.2 ⟨forall_mem_append.2 ⟨hbuf, forall_mem_map.2 hkvs⟩, hranges⟩
  split
  · exact (flushQuiet_leaves hb₁ t.after s.2).imp_left hw.trans
  · exact ⟨hw, hb₁⟩

theorem workerRecv_leaves {ev : PcrEventWithMeta} (hb : ∀ p ∈ b.patches ++ eventPatches ev, p ∈ fly) :
    Leaves fly e (workerRecv flushIntervalMs t ev b e) := by
  obtain ⟨hb, hev⟩ := forall_mem_append.1 hb
  obtain ⟨hkvs, hranges⟩ := forall_mem_append.1 hev
  unfold eventKvs at hkvs
  unfold eventRanges at hranges
  unfold workerRecv
  split
  · rename_i kvs heq
    rw [heq] at hkvs
    exact onKvBatch_leaves flushIntervalMs t e ev.regionId hb (forall_mem_map.1 hkvs)
  · rename_i startKey endKey ts heq
    rw [heq] at hranges
    have hb₁ : ∀ p ∈ ({ b with currentRegionId := ev.regionId }.addDeleteRange startKey endKey ts).patches, p ∈ fly := by
      unfold SstBatcher.addDeleteRange SstBatcher.patches
      rw [map_append, ← append_assoc]
      exact forall_mem_append.2 ⟨hb, hranges⟩
    unfold onDeleteRange
    dsimp only
    split
    · exact flushQuiet_leaves hb₁ t.after e
    · exact ⟨.refl fly e, hb₁⟩
  · exact ⟨.refl fly e, hb⟩

theorem workerIdle_leaves (env : FlushEnv) (hb : ∀ p ∈ b.patches, p ∈ fly) :
    Leaves fly e (workerIdle env b e) := by
  unfold workerIdle
  split
  · exact flushQuiet_leaves hb env e
  · exact ⟨.refl fly e, hb⟩

end

/-! ## A step, whatever fails -/

def Consumer.sessions (c : Consumer) : List (List PcrEventWithMeta) := c.past ++ [c.received]

def Consumer.flying (c : Consumer) : Set EnginePatch :=
  fun p => (∃ i, p ∈ (c.workers i).ops) ∨ ∃ w ∈ c.draining, p ∈ w.ops

/-- **What a step does to the engine and to what is in flight.** -/
inductive Moves (c : Consumer) (a : Action) (c' : Consumer) : Prop
  | land (hsess : c'.sessions = c.sessions) (heng : Patch.Writes c.flying c.engine c'.engine)
      (hfly : c'.flying ⊆ c.flying)
  | issue (ev : PcrEventWithMeta) (hact : ∃ env, a = .receive env) (hst : ∃ rest, c.stream = ev :: rest)
      (hpast : c'.past = c.past) (hrec : c'.received = c.received ++ [ev]) (heng : c'.engine = c.engine)
      (hfly : ∀ p ∈ c'.flying, p ∈ c.flying ∨ p ∈ eventPatches ev)
  | close (hsess : c'.sessions = c.sessions ++ [[]]) (heng : c'.engine = c.engine) (hfly : c'.flying ⊆ c.flying)

variable {cfg : Config} {c c' : Consumer} {a : Action} {i : Fin ingestWorkers} {w : Worker}

theorem ops_cons (ev : PcrEventWithMeta) (rest : List PcrEventWithMeta) (b : SstBatcher) :
    ops ⟨ev :: rest, b⟩ = b.patches ++ eventPatches ev ++ streamOps rest := by
  unfold ops
  rw [streamOps_cons, append_assoc]

theorem flying_update {ws : Fin ingestWorkers → Worker} {e : Engine} (hws : ∀ j, ∀ p ∈ (ws j).ops, p ∈ c.flying) :
    ({ c with workers := ws, engine := e } : Consumer).flying ⊆ c.flying := by
  rintro p (⟨j, hj⟩ | hp)
  · exact hws j p hj
  · exact .inr hp

theorem workers_update {fly : Set EnginePatch} (hw : ∀ p ∈ w.ops, p ∈ fly)
    (hws : ∀ j, ∀ p ∈ (c.workers j).ops, p ∈ fly) : ∀ j, ∀ p ∈ (update c.workers i w j).ops, p ∈ fly :=
  (forall_update_iff c.workers fun _ w => ∀ p ∈ w.ops, p ∈ fly).2 ⟨hw, fun j _ => hws j⟩

theorem workers_flying (c : Consumer) : ∀ j, ∀ p ∈ (c.workers j).ops, p ∈ c.flying := fun j _ hp => .inl ⟨j, hp⟩

theorem workerTurn_moves {t : LoopEnv} (h : workerTurn cfg i t c = some c') : Moves c a c' := by
  unfold workerTurn at h
  split at h
  · rename_i ev rest hrun hrx
    have hw : (c.workers i).ops = (c.workers i).batcher.patches ++ eventPatches ev ++ streamOps rest := by
      rw [← ops_cons, ← hrx]
    have hfly := workers_flying c i
    rw [hw, forall_mem_append] at hfly
    obtain ⟨heng, hleft⟩ := workerRecv_leaves cfg.flushIntervalMs t c.engine hfly.1
    cases h
    exact .land rfl heng (flying_update (workers_update (forall_mem_append.2 ⟨hleft, hfly.2⟩) (workers_flying c)))
  · cases h

theorem workerTimeout_moves {env : FlushEnv} (h : workerTimeout i env c = some c') : Moves c a c' := by
  unfold workerTimeout at h
  split at h
  · obtain ⟨hbuf, hrx⟩ := forall_mem_append.1 (workers_flying c i)
    obtain ⟨heng, hleft⟩ := workerIdle_leaves c.engine env hbuf
    cases h
    exact .land rfl heng (flying_update (workers_update (forall_mem_append.2 ⟨hleft, hrx⟩) (workers_flying c)))
  · cases h

theorem drainTurn_moves {j : Nat} {t : LoopEnv} (h : drainTurn cfg j t c = some c') : Moves c a c' := by
  unfold drainTurn at h
  split at h
  · cases h
  · rename_i ev rest b hj
    have hfly : ∀ p ∈ ops ⟨ev :: rest, b⟩, p ∈ c.flying := fun p hp => .inr ⟨_, mem_of_getElem? hj, hp⟩
    rw [ops_cons, forall_mem_append] at hfly
    obtain ⟨heng, hleft⟩ := workerRecv_leaves cfg.flushIntervalMs t c.engine hfly.1
    cases h
    refine .land rfl heng ?_
    rintro p (hp | ⟨w, hw, hp⟩)
    · exact .inl hp
    rcases mem_or_eq_of_mem_set hw with hw | rfl
    · exact .inr ⟨w, hw, hp⟩
    · exact forall_mem_append.2 ⟨hleft, hfly.2⟩ p hp
  · rename_i b hj
    have hfly : ∀ p ∈ b.patches, p ∈ c.flying :=
      fun p hp => .inr ⟨_, mem_of_getElem? hj, mem_append_left _ hp⟩
    cases h
    refine .land rfl (workerIdle_leaves c.engine t.after hfly).1 ?_
    rintro p (hp | ⟨w, hw, hp⟩)
    · exact .inl hp
    · exact .inr ⟨w, mem_of_mem_eraseIdx hw, hp⟩

theorem receiveEvent_moves {env : RecordEnv} (h : receiveEvent env c = some c') : Moves c (.receive env) c' := by
  unfold receiveEvent at h
  split at h
  · rename_i ev rest hrun hst
    cases h
    unfold handleEvent
    cases hev : ev.event.event with
    | checkpoint | split => exact .issue ev ⟨env, rfl⟩ ⟨rest, hst⟩ rfl rfl rfl fun p hp => .inl hp
    | _ =>
      refine .issue ev ⟨env, rfl⟩ ⟨rest, hst⟩ rfl rfl rfl ?_
      have hws : ∀ j, ∀ p ∈ (update c.workers (c.idx ev) ⟨(c.workers (c.idx ev)).rx ++ [ev],
          (c.workers (c.idx ev)).batcher⟩ j).ops, p ∈ {p | p ∈ c.flying ∨ p ∈ eventPatches ev} := by
        refine workers_update ?_ fun j p hp => .inl (.inl ⟨j, hp⟩)
        unfold ops
        rw [streamOps_append, streamOps_singleton, ← append_assoc]
        exact forall_mem_append.2 ⟨fun p hp => .inl (workers_flying c _ p hp), fun p hp => .inr hp⟩
      rintro p (⟨j, hp⟩ | hp)
      · exact hws j p hp
      · exact .inl (.inr hp)
  · cases h

theorem createComponents_moves {draining : List Worker} (hfly : ∀ w ∈ draining, ∀ p ∈ w.ops, p ∈ c.flying) {d : Consumer}
    (hpast : d.past = c.past) (hrec : d.received = c.received) (heng : d.engine = c.engine) :
    Moves c a (createComponents cfg draining d) := by
  refine .close ?_ heng ?_
  · unfold sessions createComponents
    rw [hpast, hrec]
  · rintro p (⟨i, hi⟩ | ⟨w, hw, hp⟩)
    · cases hi
    · exact hfly w hw p hp

theorem mem_draining_ofFn (hw : w ∈ c.draining ++ ofFn c.workers) : w ∈ c.draining ∨ ∃ i, c.workers i = w :=
  (mem_append.1 hw).imp_right mem_ofFn.1

theorem step_moves (h : step cfg c a = some c') : Moves c a c' := by
  cases a with
  | start forceFullScan stream now =>
    change spawnEventLoop cfg forceFullScan stream now c = some c' at h
    unfold spawnEventLoop at h
    split at h
    · cases h
    cases h
    refine .land rfl (.refl _ _) ?_
    rintro p (⟨i, hi⟩ | hp)
    · cases hi
    · exact .inr hp
  | receive env => exact receiveEvent_moves h
  | work i t => exact workerTurn_moves h
  | idle i env => exact workerTimeout_moves h
  | rediscover pdRegions =>
    change rediscover pdRegions c = some c' at h
    unfold rediscover at h
    repeat' split at h
    all_goals cases h
    all_goals exact .land rfl (.refl _ _) subset_rfl
  | stop env =>
    change stopEventLoop cfg env c = some c' at h
    unfold stopEventLoop at h
    split at h
    · cases h
      refine createComponents_moves (fun w hw p hp => ?_) rfl rfl rfl
      rcases mem_draining_ofFn hw with hw | ⟨i, rfl⟩
      · exact .inr ⟨w, hw, hp⟩
      · exact .inl ⟨i, hp⟩
    · cases h
  | drain j t => exact drainTurn_moves h
  | crash =>
    cases h
    exact createComponents_moves (fun w hw => by cases hw) rfl rfl rfl

/-! ## Orderly steps -/

/-- What is buffered together changes no slot twice. -/
def Takes (b : SstBatcher) (ev : PcrEventWithMeta) : Prop := (b.patches ++ eventPatches ev).Pairwise Patch.Apart

/-- No worker but the one that is given the event has a change to one of its slots in flight. -/
structure ConflictFree (c : Consumer) (ev : PcrEventWithMeta) : Prop where
  workers : ∀ j, j ≠ c.idx ev → ∀ p ∈ (c.workers j).ops, ∀ q ∈ eventPatches ev, Patch.Apart p q
  draining : ∀ w ∈ c.draining, ∀ p ∈ w.ops, ∀ q ∈ eventPatches ev, Patch.Apart p q

/-- **An orderly step**: a received event conflicts with nothing another worker has in flight, a worker buffers no slot
twice, and what a flush calls works. -/
def Orderly (c : Consumer) : Action → Prop
  | .receive _ => ∀ ev rest, c.stream = ev :: rest → ConflictFree c ev
  | .work i t => t.Works ∧ ∀ ev rest, (c.workers i).rx = ev :: rest → Takes (c.workers i).batcher ev
  | .idle _ env => env.Works
  | .drain j t => t.Works ∧ ∀ ev rest b, c.draining[j]? = some ⟨ev :: rest, b⟩ → Takes b ev
  | _ => True

/-- **What a worker's turn does**: the front of what it has in flight lands, and what is left in its buffer changes no
slot twice. -/
def Worker.Lands (w : Worker) (e : Engine) (w' : Worker) (e' : Engine) : Prop :=
  ∃ F : EnginePatch, e' = F.apply e ∧ w.pending = F.seq w'.pending ∧ w'.batcher.patches.Pairwise Patch.Apart

section

variable {rest : List PcrEventWithMeta} {b b' : SstBatcher} {e e' : Engine}

theorem Absorbs.lands {kvs : List MvccKeyValue} {rs : List RangeDelete} (h : Absorbs b e kvs rs b' e')
    (hap : (b.patches ++ (kvs.map patch ++ rs.map RangeDelete.patch)).Pairwise Patch.Apart) {rx : List PcrEventWithMeta}
    (hrx : streamOps rx = kvs.map patch ++ rs.map RangeDelete.patch ++ streamOps rest) :
    Lands ⟨rx, b⟩ e ⟨rest, b'⟩ e' := by
  obtain ⟨fk, fr, fl, hk, hr, hp, he⟩ := h
  have hperm : (b.patches ++ (kvs.map patch ++ rs.map RangeDelete.patch)).Perm (fl ++ b'.patches) := by
    refine (append_append_perm _ _ _ _).trans ?_
    rw [← map_append, ← map_append, hk, hr, map_append, map_append]
    exact (append_append_perm _ _ _ _).trans (List.Perm.append_right _ hp.symm)
  refine ⟨Patch.seqAll fl, he, ?_, (pairwise_append.1 (hap.perm hperm Patch.Apart.symm)).2.1⟩
  unfold pending ops
  rw [hrx, ← append_assoc, Patch.seqAll_append, Patch.seqAll_perm hperm hap, Patch.seqAll_append, Patch.seq_assoc,
    ← Patch.seqAll_append]

theorem recv_lands (rest : List PcrEventWithMeta) (flushIntervalMs : Nat) {t : LoopEnv} (ht : t.Works)
    {ev : PcrEventWithMeta} (hok : Takes b ev) (e : Engine) :
    Lands ⟨ev :: rest, b⟩ e ⟨rest, (workerRecv flushIntervalMs t ev b e).1⟩ (workerRecv flushIntervalMs t ev b e).2 := by
  have hnd : ((b.kvBuffer ++ eventKvs ev).map slot).Nodup := by
    refine nodup_of_pairwise_apart (hok.sublist ?_)
    rw [map_append]
    exact (sublist_append_left _ _).append (sublist_append_left _ _)
  exact (workerRecv_absorbs ht hnd).lands hok (streamOps_cons ev rest)

theorem idle_lands {env : FlushEnv} (henv : env.Works) {w : Worker} (hap : w.batcher.patches.Pairwise Patch.Apart)
    (e : Engine) : Lands w e ⟨w.rx, (workerIdle env w.batcher e).1⟩ (workerIdle env w.batcher e).2 := by
  have hnd : (w.batcher.kvBuffer.map slot).Nodup := nodup_of_pairwise_apart (hap.sublist (sublist_append_left _ _))
  exact (workerIdle_absorbs henv hnd).lands (by simpa using hap) (by simp)

end

/-- **The workers carry what the session received to the engine**, and those of earlier sessions have nothing for its
slots. -/
structure Inv (c : Consumer) : Prop where
  workers : ∀ i, (c.workers i).batcher.patches.Pairwise Patch.Apart
  draining : ∀ w ∈ c.draining, w.batcher.patches.Pairwise Patch.Apart
  earlier : ∀ w ∈ c.draining, Patch.Apart w.pending (Patch.seqAll (streamOps c.received))
  carries : Patch.Carries (streamOps c.received) (fun i => (c.workers i).pending) c.engine
  stopped : c.running = false → c.received = []

theorem pending_update (ws : Fin ingestWorkers → Worker) (i : Fin ingestWorkers) (w : Worker) :
    (fun j => (update ws i w j).pending) = update (fun j => (ws j).pending) i w.pending :=
  funext fun j => apply_update (fun _ w => w.pending) ws i w j

section

variable (hi : Inv c)
include hi

theorem Inv.land {e : Engine} (h : (c.workers i).Lands c.engine w e) :
    Inv { c with workers := update c.workers i w, engine := e } := by
  obtain ⟨F, rfl, hp, hap⟩ := h
  refine ⟨(forall_update_iff c.workers fun _ w => w.batcher.patches.Pairwise Patch.Apart).2
    ⟨hap, fun j _ => hi.workers j⟩, hi.draining, hi.earlier, ?_, hi.stopped⟩
  rw [pending_update]
  exact hi.carries.land i hp

theorem Inv.drain {e : Engine} {w' : Worker} (hw : w ∈ c.draining) (h : w.Lands c.engine w' e) :
    Patch.Carries (streamOps c.received) (fun i => (c.workers i).pending) e ∧ w'.batcher.patches.Pairwise Patch.Apart ∧
      Patch.Apart w'.pending (Patch.seqAll (streamOps c.received)) := by
  obtain ⟨F, rfl, hp, hap⟩ := h
  have hparts : ∀ k, F k = none ∧ w'.pending k = none ∨ Patch.seqAll (streamOps c.received) k = none := by
    intro k
    refine (hi.earlier w hw k).imp_left fun hk => ?_
    rw [hp] at hk
    exact (Option.or_eq_none_iff.1 hk).symm
  exact ⟨hi.carries.elsewhere fun k => (hparts k).imp_left And.left, hap, fun k => (hparts k).imp_left And.right⟩

theorem workerTurn_inv {t : LoopEnv} (hok : Orderly c (.work i t)) (h : workerTurn cfg i t c = some c') : Inv c' := by
  unfold workerTurn at h
  split at h
  · rename_i ev rest hrun hrx
    have hw : c.workers i = ⟨ev :: rest, (c.workers i).batcher⟩ := by rw [← hrx]
    have hl := recv_lands rest cfg.flushIntervalMs hok.1 (hok.2 ev rest hrx) c.engine
    rw [← hw] at hl
    cases h
    exact hi.land hl
  · cases h

theorem workerTimeout_inv {env : FlushEnv} (hok : env.Works) (h : workerTimeout i env c = some c') : Inv c' := by
  unfold workerTimeout at h
  split at h
  · cases h
    exact hi.land (idle_lands hok (hi.workers i) c.engine)
  · cases h

theorem drainTurn_inv {j : Nat} {t : LoopEnv} (hok : Orderly c (.drain j t)) (h : drainTurn cfg j t c = some c') :
    Inv c' := by
  unfold drainTurn at h
  split at h
  · cases h
  · rename_i ev rest b hj
    obtain ⟨hc, hap, hearlier⟩ := hi.drain (mem_of_getElem? hj)
      (recv_lands rest cfg.flushIntervalMs hok.1 (hok.2 ev rest b hj) c.engine)
    cases h
    refine ⟨hi.workers, fun w hw => ?_, fun w hw => ?_, hc, hi.stopped⟩
    all_goals rcases mem_or_eq_of_mem_set hw with hw | rfl
    · exact hi.draining w hw
    · exact hap
    · exact hi.earlier w hw
    · exact hearlier
  · rename_i b hj
    have hmem := mem_of_getElem? hj
    have hl := hi.drain hmem (idle_lands hok.1.after (hi.draining _ hmem) c.engine)
    cases h
    exact ⟨hi.workers, fun w hw => hi.draining w (mem_of_mem_eraseIdx hw),
      fun w hw => hi.earlier w (mem_of_mem_eraseIdx hw), hl.1, hi.stopped⟩

theorem dispatch_inv {ev : PcrEventWithMeta} {rest : List PcrEventWithMeta} (hrun : c.running = true)
    (hok : ConflictFree c ev) :
    Inv (handleDataEvent ev { c with stream := rest, received := c.received ++ [ev] }) := by
  refine ⟨?_, hi.draining, fun w hw => ?_, ?_, fun h => ?_⟩
  · exact (forall_update_iff c.workers fun _ w => w.batcher.patches.Pairwise Patch.Apart).2
      ⟨hi.workers _, fun j _ => hi.workers j⟩
  · show Patch.Apart w.pending (Patch.seqAll (streamOps (c.received ++ [ev])))
    rw [streamOps_append, streamOps_singleton, Patch.seqAll_append]
    intro k
    rcases hi.earlier w hw k with hk | hk
    · exact .inl hk
    · exact (Patch.apart_seqAll (hok.draining w hw) k).imp_right fun hk' => by unfold Patch.seq; rw [hk, hk']; rfl
  · show Patch.Carries (streamOps (c.received ++ [ev])) (fun i => (update c.workers _ _ i).pending) c.engine
    have hpush : pending ⟨(c.workers (c.idx ev)).rx ++ [ev], (c.workers (c.idx ev)).batcher⟩ =
        (c.workers (c.idx ev)).pending.seq (Patch.seqAll (eventPatches ev)) := by
      unfold pending ops
      rw [streamOps_append, streamOps_singleton, ← append_assoc, Patch.seqAll_append]
    have hc := hi.carries.issue (c.idx ev) fun j hj => Patch.apart_seqAll (hok.workers j hj)
    rw [← hpush, ← pending_update, ← streamOps_singleton, ← streamOps_append] at hc
    exact hc
  · cases hrun.symm.trans h

theorem receiveEvent_inv {env : RecordEnv} (hok : Orderly c (.receive env)) (h : receiveEvent env c = some c') :
    Inv c' := by
  unfold receiveEvent at h
  split at h
  · rename_i ev rest hrun hst
    cases h
    unfold handleEvent
    cases hev : ev.event.event with
    | checkpoint | split =>
      have hsame : streamOps (c.received ++ [ev]) = streamOps c.received := by
        rw [streamOps_append, streamOps_singleton, eventPatches, eventKvs, eventRanges, hev]
        exact append_nil _
      exact ⟨hi.workers, hi.draining, fun w hw => hsame ▸ hi.earlier w hw, hsame ▸ hi.carries,
        fun h => by cases hrun.symm.trans h⟩
    | _ => exact dispatch_inv hi hrun (hok ev rest hst)
  · cases h

theorem step_inv (hok : Orderly c a) (h : step cfg c a = some c') : Inv c' := by
  have hfresh : ∀ (e : Engine) (now : Nat), Patch.Carries (streamOps []) (fun _ : Fin ingestWorkers =>
      (Worker.new cfg now).pending) e := fun e _ => Patch.carries_nil (fun _ => rfl) e
  have hnone : ∀ p : EnginePatch, Patch.Apart p (Patch.seqAll (streamOps [])) := fun _ _ => .inr rfl
  cases a with
  | start forceFullScan stream now =>
    change spawnEventLoop cfg forceFullScan stream now c = some c' at h
    unfold spawnEventLoop at h
    split at h
    · cases h
    rename_i hrun
    have hrec := hi.stopped (Bool.eq_false_iff.2 hrun)
    cases h
    refine ⟨fun _ => .nil, hi.draining, hi.earlier, ?_, nofun⟩
    rw [hrec]
    exact hfresh c.engine now
  | receive env => exact receiveEvent_inv hi hok h
  | work i t => exact workerTurn_inv hi hok h
  | idle i env => exact workerTimeout_inv hi hok h
  | rediscover pdRegions =>
    change rediscover pdRegions c = some c' at h
    unfold rediscover at h
    repeat' split at h
    all_goals cases h
    all_goals exact ⟨hi.workers, hi.draining, hi.earlier, hi.carries, hi.stopped⟩
  | stop env =>
    change stopEventLoop cfg env c = some c' at h
    unfold stopEventLoop at h
    split at h
    · cases h
      refine ⟨fun _ => .nil, fun w hw => ?_, fun w _ => hnone _, hfresh c.engine 0, fun _ => rfl⟩
      rcases mem_draining_ofFn hw with hw | ⟨i, rfl⟩
      · exact hi.draining w hw
      · exact hi.workers i
    · cases h
  | drain j t => exact drainTurn_inv hi hok h
  | crash =>
    cases h
    exact ⟨fun _ => .nil, nofun, nofun, hfresh c.engine 0, fun _ => rfl⟩

end

theorem init_inv (cfg : Config) (e : Engine) : Inv (init cfg e) :=
  ⟨fun _ => .nil, nofun, nofun, Patch.carries_nil (fun _ => rfl) e, fun _ => rfl⟩

end Ingest
end Tikv
