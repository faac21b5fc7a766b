import Tikv.ControlTask
/-!
# ControlCutover — when a cutover completes

A cutover waits for the done signal of its event loop and takes any signal for success; the loop also sends it when its
subscription failed or its channel closed.  The cell with the target is not cleared by a new start, so the next loop may
leave through the cutover branch at once.  In the runs that avoid both (`CleanCutover`) a completed cutover reached its
target, and a loop leaves for a cutover only when one was accepted after it started (`cutoverSound_of_clean`).
-/
namespace Tikv
namespace Control

open List Process Option

open Lib (Run stepOf always)
open Ingest (Frontier RecordEnv globalMinTs)

def Reached (T : Nat) (frontier : Frontier) : Prop := ∃ m, globalMinTs frontier = some m ∧ T ≤ m

/-- **A completed cutover had reached its target when its loop ended, and a loop ended for a cutover only after one was
accepted since its start.** -/
structure CutoverSound (p : Process) : Prop where
  reached : ∀ c ∈ p.completions, 0 < c.1 → c.1 < toLatest → Reached c.1 c.2.frontier
  accepted : ∀ l ∈ p.loops, l.exited = some .cutover → l.cutoverSince = true

/-- **What a run has to avoid**: a start that finds a target in the cell, a cutover of a loop that has ended, and a loop
that loses its stream while a cutover waits for it. -/
def CleanCutover (p : Process) : Event → Prop
  | .exec _ => ∀ t forceFullScan rest, p.running = some (t, .spawnEventLoop forceFullScan :: rest) → p.cutoverTs = 0
  | .take (.cutover _) => ∀ l, p.awaited = some l → l.exited = none
  | .loopTurn i event _ =>
    event = .subscribed false ∨ event = .channelClosed →
      ∀ T r, p.running = some (.cutover T, r) → p.doneRx ≠ some i
  | _ => True

/-! ## One turn of a loop -/

variable {T : Nat} {frontier : Frontier}

section

variable (h : isCutoverReady T frontier = true)
include h

theorem isCutoverReady_reached (hT : T < toLatest) : Reached T frontier := by
  unfold isCutoverReady at h
  split at h
  · cases h
  dsimp only at h
  split at h
  · cases h
  rename_i hmin
  rw [if_neg hT.ne, decide_eq_true_eq] at h
  cases hg : globalMinTs frontier with
  | none =>
    rw [hg] at hmin
    exact absurd rfl hmin
  | some m =>
    rw [hg] at h
    exact ⟨m, hg, h⟩

theorem isCutoverReady_ne_zero : T ≠ 0 := by
  rintro rfl
  cases h

end

inductive Turned (l l' : EventLoop) (cutoverTs : Nat) (event : LoopEvent) : Prop
  | goesOn (h : l'.exited = none)
  | panicked (h : l'.exited = some .panicked)
  | lost (h : l'.exited = some .subscriptionFailed ∨ l'.exited = some .channelClosed)
      (he : event = .subscribed false ∨ event = .channelClosed)
  | cancelled (h : l'.exited = some .cancelled) (hc : l.cancel = true)
  | cutover (h : l'.exited = some .cutover) (hr : isCutoverReady cutoverTs l'.frontier = true)

section Turn

variable (l : EventLoop) (cutoverTs : Nat) (env : RecordEnv) (file : Option Frontier) (event : LoopEvent)

theorem turn_flags : (l.turn cutoverTs env file event).1.cancel = l.cancel ∧
    (l.turn cutoverTs env file event).1.cutoverSince = l.cutoverSince := by
  unfold EventLoop.turn EventLoop.leave
  cases event <;> grind

theorem turn_of_exited (h : l.exited ≠ none) : (l.turn cutoverTs env file event).1 = l := by
  have hs : l.exited.isSome = true := isSome_iff_ne_none.2 h
  unfold EventLoop.turn
  cases event <;> simp [hs]

theorem turn_turned (h : l.exited = none) : Turned l (l.turn cutoverTs env file event).1 cutoverTs event := by
  unfold EventLoop.turn
  cases event
  case panic => exact .panicked (by simp [h])
  all_goals
    dsimp only
    split
    · exact .goesOn h
  case subscribed =>
    split
    · exact .goesOn h
    rename_i hok
    exact .lost (.inl rfl) (.inl (by simpa using hok))
  case cancelChanged =>
    split
    · rename_i hc
      exact .cancelled rfl hc
    · exact .goesOn h
  case cutoverCheck =>
    split
    · rename_i hr
      exact .cutover rfl hr
    · exact .goesOn h
  case rediscover => split <;> exact .goesOn h
  case checkpoint =>
    split
    · exact .goesOn h
    split
    · rename_i hr
      exact .cutover rfl hr
    · exact .goesOn h
  case split => exact .goesOn h
  case channelClosed => exact .lost (.inr rfl) (.inr rfl)

end Turn

/-! ## Where the control thread is -/

def finalState (state : TaskState) : List Effect → TaskState
  | [] => state
  | .setState state' :: rest => finalState state' rest
  | _ :: rest => finalState state rest

def plain : List Effect → Bool
  | [] => true
  | .sendCancel :: rest => rest.contains .awaitStopped && plain rest
  | .storeCutoverTs _ :: _ => false
  | .awaitCutover _ :: _ => false
  | _ :: rest => plain rest

structure Plain (p : Process) (r : List Effect) : Prop where
  plain : plain r = true
  clear : finalState p.state r = .subscribing → p.cutoverTs = 0 ∨ ∃ b, .spawnEventLoop b ∈ r
  cancelled : ∀ l, p.awaited = some l → l.cancel = true → .awaitStopped ∈ r

def cutoverEffects (T : Nat) : List Effect :=
  [.storeCutoverTs T, .setState .cuttingOver, .persistState, .awaitCutover T]

structure Cutting (T : Nat) (p : Process) (r : List Effect) : Prop where
  suffix : r <:+ cutoverEffects T
  nonempty : r ≠ []
  cell : p.cutoverTs = if .storeCutoverTs T ∈ r then 0 else T
  final : finalState p.state r = .cuttingOver
  since : ∀ l ∈ p.loops, l.cutoverSince = true
  waits : ∀ l, p.awaited = some l → l.cancel = false ∧
    (l.exited = none ∨ l.exited = some .panicked ∨ l.exited = some .cutover ∧ (T < toLatest → Reached T l.frontier))

def remaining (p : Process) : List Effect := p.running.elim [] Prod.snd

structure CutoverInv (p : Process) : Prop where
  sound : CutoverSound p
  since : p.cutoverTs ≠ 0 → ∀ l ∈ p.loops, l.exited = none → l.cutoverSince = true
  place : Plain p (remaining p) ∨ ∃ T r, p.running = some (.cutover T, r) ∧ Cutting T p r

/-! ## The loops take a turn -/

section LoopTurn

variable {p : Process} {i : Nat} {event : LoopEvent} {env : RecordEnv} {l' : EventLoop}

theorem loopTurn_mem (h : l' ∈ (p.loopTurn i event env).loops) :
    l' ∈ p.loops ∨ ∃ l ∈ p.loops, l' = (l.turn p.cutoverTs env p.checkpointFile event).1 := by
  unfold loopTurn at h
  split at h
  · exact .inl h
  rename_i l hl
  rcases mem_or_eq_of_mem_set h with hmem | heq
  · exact .inl hmem
  · exact .inr ⟨l, mem_of_getElem? hl, heq⟩

theorem loopTurn_awaited (h : (p.loopTurn i event env).awaited = some l') : ∃ l, p.awaited = some l ∧
      (l' = l ∨ p.doneRx = some i ∧ l' = (l.turn p.cutoverTs env p.checkpointFile event).1) := by
  unfold loopTurn at h
  split at h
  · exact ⟨l', h, .inl rfl⟩
  rename_i l hl
  unfold awaited at h ⊢
  cases hd : p.doneRx with
  | none => rw [hd] at h; cases h
  | some j =>
    rw [hd, bind_some, getElem?_set] at h
    split at h
    · rename_i hij
      split at h
      · cases h
        exact ⟨l, by rw [← hij]; exact hl, .inr ⟨by rw [hij], rfl⟩⟩
      · cases h
    · exact ⟨l', h, .inl rfl⟩

theorem loopTurn_accepted (h : CutoverInv p) {l : EventLoop} (hl : l ∈ p.loops)
    (he : (l.turn p.cutoverTs env p.checkpointFile event).1.exited = some .cutover ∨
      (l.turn p.cutoverTs env p.checkpointFile event).1.exited = none ∧ p.cutoverTs ≠ 0) :
    (l.turn p.cutoverTs env p.checkpointFile event).1.cutoverSince = true := by
  rw [(turn_flags l p.cutoverTs env p.checkpointFile event).2]
  by_cases hx : l.exited = none
  · rcases he with he | ⟨_, hne⟩
    · cases turn_turned l p.cutoverTs env p.checkpointFile event hx with
      | cutover _ hr => exact h.since (isCutoverReady_ne_zero hr) l hl hx
      | goesOn h' | panicked h' | cancelled h' => cases h'.symm.trans he
      | lost h' => rcases h' with h' | h' <;> cases h'.symm.trans he
    · exact h.since hne l hl hx
  · rw [turn_of_exited l p.cutoverTs env p.checkpointFile event hx] at he
    rcases he with he | ⟨he, _⟩
    · exact h.sound.accepted l hl he
    · exact absurd he hx

theorem cutting_loopTurn {r : List Effect} (hrun : p.running = some (.cutover T, r)) (h : Cutting T p r)
    (hok : CleanCutover p (.loopTurn i event env)) : Cutting T (p.loopTurn i event env) r := by
  obtain ⟨loops, file, heq⟩ := p.loopTurn_frame i event env
  refine ⟨h.suffix, h.nonempty, by rw [heq]; exact h.cell, by rw [heq]; exact h.final, ?_, ?_⟩
  · intro l' hl'
    rcases loopTurn_mem hl' with hl | ⟨l, hl, rfl⟩
    · exact h.since l' hl
    · rw [(turn_flags ..).2]; exact h.since l hl
  · intro l' hl'
    obtain ⟨l, hl, rfl | ⟨hi, rfl⟩⟩ := loopTurn_awaited hl'
    · exact h.waits _ hl
    obtain ⟨hc, hex⟩ := h.waits l hl
    refine ⟨by rw [(turn_flags ..).1]; exact hc, ?_⟩
    by_cases hx : l.exited = none
    · cases turn_turned l p.cutoverTs env p.checkpointFile event hx with
      | goesOn h' => exact .inl h'
      | panicked h' => exact .inr (.inl h')
      | lost _ he => exact absurd hi (hok he T r hrun)
      | cancelled _ hc' => cases hc.symm.trans hc'
      | cutover h' hr =>
        -- the target is in the cell, or the loop could not have left
        refine .inr (.inr ⟨h', fun hT => ?_⟩)
        have hcell := h.cell
        split at hcell
        · exact absurd hcell (isCutoverReady_ne_zero hr)
        rw [hcell] at hr
        rw [hcell]
        exact isCutoverReady_reached hr hT
    · rw [turn_of_exited l p.cutoverTs env p.checkpointFile event hx]
      exact hex

theorem cutoverInv_loopTurn (h : CutoverInv p) (hok : CleanCutover p (.loopTurn i event env)) :
    CutoverInv (p.loopTurn i event env) := by
  obtain ⟨loops, file, heq⟩ := p.loopTurn_frame i event env
  refine ⟨⟨?_, ?_⟩, ?_, ?_⟩
  · rw [heq]; exact h.sound.reached
  · intro l' hl' hx
    rcases loopTurn_mem hl' with hl | ⟨l, hl, rfl⟩
    · exact h.sound.accepted l' hl hx
    · exact loopTurn_accepted h hl (.inl hx)
  · intro hne l' hl' hx
    replace hne : p.cutoverTs ≠ 0 := by rw [heq] at hne; exact hne
    rcases loopTurn_mem hl' with hl | ⟨l, hl, rfl⟩
    · exact h.since hne l' hl hx
    · exact loopTurn_accepted h hl (.inr ⟨hx, hne⟩)
  · rcases h.place with hp | ⟨T, r, hrun, hc⟩
    · refine .inl ?_
      have hrem : remaining (p.loopTurn i event env) = remaining p := by rw [heq]; rfl
      rw [hrem]
      refine ⟨hp.plain, by rw [heq]; exact hp.clear, fun l' hl' hcan => ?_⟩
      obtain ⟨l, hl, rfl | ⟨_, rfl⟩⟩ := loopTurn_awaited hl'
      · exact hp.cancelled _ hl hcan
      · rw [(turn_flags ..).1] at hcan
        exact hp.cancelled l hl hcan
    · exact .inr ⟨T, r, by rw [heq]; exact hrun, cutting_loopTurn hrun hc hok⟩

end LoopTurn

/-! ## A task is taken -/

variable {t : Task}

theorem plain_effects (ht : ∀ T, t ≠ .cutover T) (state : TaskState) : plain (t.effects state) = true ∧
      (finalState state (t.effects state) = .subscribing →
        t.effects state = [] ∨ ∃ b, .spawnEventLoop b ∈ t.effects state) := by
  cases t with
  | cutover T => exact absurd rfl (ht T)
  | startReplication | createReplication =>
    cases state <;> exact ⟨rfl, fun _ => by simp [Task.effects, replicate]⟩
  | resumeReplication => cases state <;> exact ⟨rfl, fun _ => by simp [Task.effects]⟩
  | configChange | startSubscription => exact ⟨rfl, fun _ => .inl rfl⟩
  | pauseReplication | shutdown | activate =>
    cases state <;> exact ⟨rfl, fun h => by first | exact .inl rfl | cases h⟩

variable {p : Process}

theorem plain_of_running_none (h : CutoverInv p) (hrun : p.running = none) : Plain p [] := by
  rcases h.place with hp | ⟨T, r, hr, _⟩
  · rw [remaining, hrun] at hp
    exact hp
  · cases hrun.symm.trans hr

theorem cutoverInv_take (h : CutoverInv p) (hok : CleanCutover p (.take t)) :
    CutoverInv (p.take t) := by
  rcases p.take_cases t with heq | ⟨hrun, hne, heq⟩
  · rw [heq]; exact h
  have hp := plain_of_running_none h hrun
  have hnc {l : EventLoop} (hl : p.awaited = some l) : l.cancel = false := by
    cases hc : l.cancel with
    | false => rfl
    | true => cases hp.cancelled l hl hc
  rw [heq]
  by_cases ht : ∀ T, t ≠ .cutover T
  · -- the loops are as they were
    have hloops : p.marked t = p.loops := by
      cases t with
      | cutover T => exact absurd rfl (ht T)
      | _ => rfl
    rw [hloops]
    obtain ⟨hplain, hsub⟩ := plain_effects ht p.state
    refine ⟨⟨h.sound.reached, h.sound.accepted⟩, h.since, .inl ⟨hplain, fun hf => .inr ?_, fun l hl hc => ?_⟩⟩
    · exact (hsub hf).resolve_left hne
    · rw [hnc hl] at hc
      cases hc
  · rw [not_forall_not] at ht
    obtain ⟨T, rfl⟩ := ht
    have hstate : p.state = .subscribing := by
      by_contra hs
      exact hne (if_pos hs)
    have heff : Task.effects p.state (.cutover T) = cutoverEffects T := by rw [hstate]; rfl
    have hmark : ∀ l' ∈ p.marked (.cutover T), l'.cutoverSince = true := by
      intro l' hl'
      obtain ⟨l, _, rfl⟩ := mem_map.1 hl'
      rfl
    refine ⟨⟨h.sound.reached, fun l' hl' _ => hmark l' hl'⟩, fun _ l' hl' _ => hmark l' hl', .inr ⟨T, _, rfl, ?_⟩⟩
    rw [heff]
    refine ⟨suffix_refl _, cons_ne_nil _ _, ?_, rfl, hmark, fun l' hl' => ?_⟩
    · rw [if_pos (show _ ∈ cutoverEffects T from mem_cons_self ..)]
      exact (hp.clear hstate).resolve_right fun ⟨b, hb⟩ => by cases hb
    · -- the loop it will wait for was running
      unfold awaited marked at hl'
      cases hd : p.doneRx with
      | none => rw [hd] at hl'; cases hl'
      | some i =>
        rw [hd, bind_some, getElem?_map, map_eq_some_iff] at hl'
        obtain ⟨l, hl, rfl⟩ := hl'
        have haw : p.awaited = some l := by rw [awaited, hd]; exact hl
        exact ⟨hnc (l := l) haw, .inl (hok l haw)⟩

/-! ## An effect is done -/

theorem plain_cons {e : Effect} {rest : List Effect} (h : plain (e :: rest) = true) :
    plain rest = true ∧ (e = .sendCancel → .awaitStopped ∈ rest) ∧ (∀ T, e ≠ .storeCutoverTs T) ∧
      ∀ T, e ≠ .awaitCutover T := by
  cases e with
  | sendCancel =>
    rw [plain, Bool.and_eq_true, contains_iff_mem] at h
    exact ⟨h.2, fun _ => h.1, by rintro _ ⟨⟩, by rintro _ ⟨⟩⟩
  | storeCutoverTs T | awaitCutover T => cases h
  | _ => exact ⟨h, by rintro ⟨⟩, by rintro _ ⟨⟩, by rintro _ ⟨⟩⟩

structure PlainEffect (p p' : Process) (more rest : List Effect) : Prop where
  more : more = []
  place : Plain p' rest
  completions : p'.completions = p.completions
  cutoverTs : p'.cutoverTs = p.cutoverTs
  loops : ∀ l' ∈ p'.loops, l'.exited = none ∧ p.cutoverTs = 0 ∨
    ∃ l ∈ p.loops, l'.exited = l.exited ∧ l'.cutoverSince = l.cutoverSince

section Perform

variable {p p' : Process} {env : EffectEnv} {e : Effect} {rest more : List Effect}

theorem PlainEffect.of_frame (h : Plain p (e :: rest)) (hfin : finalState p'.state rest = finalState p.state (e :: rest))
    (hspawn : ∀ b, e ≠ .spawnEventLoop b) (hawait : e = .awaitStopped → p'.awaited = none)
    (hsame : p'.awaited = p.awaited ∨ p'.awaited = none)
    (hcomp : p'.completions = p.completions) (hcell : p'.cutoverTs = p.cutoverTs) (hloops : p'.loops = p.loops) :
    PlainEffect p p' [] rest := by
  obtain ⟨hplain, _, _, _⟩ := plain_cons h.plain
  refine ⟨rfl, ⟨hplain, fun hs => ?_, fun l hl hc => ?_⟩, hcomp, hcell, fun l' hl' => .inr ⟨l', hloops ▸ hl', rfl, rfl⟩⟩
  · rw [hcell]
    refine (h.clear (hfin ▸ hs)).imp_right fun ⟨b, hb⟩ => ⟨b, (mem_cons.1 hb).resolve_left ?_⟩
    exact fun heq => hspawn b heq.symm
  · rcases hsame with hsame | hnone
    · rw [hsame] at hl
      refine (mem_cons.1 (h.cancelled l hl hc)).resolve_left fun heq => ?_
      rw [hsame.symm.trans (hawait heq.symm)] at hl
      cases hl
    · rw [hnone] at hl
      cases hl

theorem plainEffect_of_perform (h : Plain p (e :: rest)) (hclear : ∀ b, e = .spawnEventLoop b → p.cutoverTs = 0)
    (hperf : p.perform env e = some (p', more)) : PlainEffect p p' more rest := by
  obtain ⟨hplain, hcancel, hstore, hwait⟩ := plain_cons h.plain
  cases e with
  | storeCutoverTs T => exact absurd rfl (hstore T)
  | awaitCutover T => exact absurd rfl (hwait T)
  | setState | setSourcePd | storeWriteGuard =>
    cases hperf
    exact .of_frame h rfl (by rintro _ ⟨⟩) (by rintro ⟨⟩) (.inl rfl) rfl rfl rfl
  | writeSourcePd | persistState | clearCheckpoint | removeStateFile =>
    cases hperf
    cases env.ok <;> exact .of_frame h rfl (by rintro _ ⟨⟩) (by rintro ⟨⟩) (.inl rfl) rfl rfl rfl
  | awaitStopped =>
    dsimp only [perform] at hperf
    split at hperf
    · cases hperf
      exact .of_frame h rfl (by rintro _ ⟨⟩) (fun _ => rfl) (.inr rfl) rfl rfl rfl
    split at hperf <;> cases hperf
    exact .of_frame h rfl (by rintro _ ⟨⟩) (fun _ => rfl) (.inr rfl) rfl rfl rfl
  | spawnEventLoop b =>
    cases hperf
    have hcell := hclear b rfl
    refine ⟨rfl, ⟨hplain, fun _ => .inl hcell, fun l hl hc => ?_⟩, rfl, rfl, fun l' hl' => ?_⟩
    · -- the new loop is the one waited for
      have hnew : (p.spawnEventLoop b env).awaited = (p.spawnEventLoop b env).loops[p.loops.length]? := rfl
      rw [hnew, spawnEventLoop, getElem?_concat_length] at hl
      cases hl
      cases hc
    · rcases mem_append.1 hl' with hl | hl
      · exact .inr ⟨l', hl, rfl, rfl⟩
      rw [mem_singleton.1 hl]
      exact .inl ⟨rfl, hcell⟩
  | sendCancel =>
    have hin := hcancel rfl
    dsimp only [perform] at hperf
    split at hperf
    · cases hperf
      exact .of_frame h rfl (by rintro _ ⟨⟩) (by rintro ⟨⟩) (.inl rfl) rfl rfl rfl
    cases hperf
    refine ⟨rfl, ⟨hplain, fun hs => ?_, fun _ _ _ => hin⟩, rfl, rfl, fun l' hl' => .inr ?_⟩
    · refine (h.clear hs).imp_right fun ⟨b, hb⟩ => ⟨b, (mem_cons.1 hb).resolve_left (by rintro ⟨⟩)⟩
    · obtain ⟨j, hj⟩ := mem_iff_getElem?.1 hl'
      rw [getElem?_modify, Option.map_eq_map, map_eq_some_iff] at hj
      obtain ⟨l, hl, rfl⟩ := hj
      refine ⟨l, mem_of_getElem? hl, ?_⟩
      split <;> exact ⟨rfl, rfl⟩

theorem plain_of_awaitCutover (h : Cutting T p [.awaitCutover T])
    (hperf : p.perform env (.awaitCutover T) = some (p', more)) :
    Plain p' more ∧ p'.loops = p.loops ∧
      (p'.completions = p.completions ∨
        ∃ l, p'.completions = p.completions ++ [(T, l)] ∧ (T < toLatest → Reached T l.frontier)) := by
  have hstate : p.state = .cuttingOver := h.final
  -- after it no loop is waited for
  have hplace {q : Process} {r : List Effect} (hr : plain r = true) (hf : finalState q.state r ≠ .subscribing)
      (hd : q.doneRx = none) : Plain q r := by
    refine ⟨hr, fun hs => absurd hs hf, fun l hl => ?_⟩
    rw [awaited, hd] at hl
    cases hl
  dsimp only [perform] at hperf
  split at hperf
  · cases hperf
    exact ⟨hplace rfl (by rw [hstate]; decide) rfl, rfl, .inl rfl⟩
  rename_i l hl
  split at hperf
  · cases hperf
    exact ⟨hplace rfl (by rw [hstate]; decide) rfl, rfl, .inl rfl⟩
  · rename_i cause hne hx
    cases hperf
    refine ⟨hplace rfl (by simp [finalState]) rfl, rfl, .inr ⟨l, rfl, ?_⟩⟩
    rcases (h.waits l hl).2 with hw | hw | hw
    · cases hx.symm.trans hw
    · exact absurd (some.inj (hx.symm.trans hw)) hne
    · exact hw.2
  · split at hperf <;> cases hperf
    exact ⟨hplace rfl (by simp [finalState]) rfl, rfl, .inl rfl⟩

theorem cutting_perform (h : Cutting T p (e :: rest)) (hne : rest ≠ []) (hperf : p.perform env e = some (p', more)) :
    more = [] ∧ Cutting T p' rest ∧ p'.completions = p.completions := by
  have hsuf := h.suffix
  rw [cutoverEffects, suffix_cons_iff, suffix_cons_iff, suffix_cons_iff, suffix_cons_iff, suffix_nil] at hsuf
  have hcell := h.cell
  rcases hsuf with heq | heq | heq | heq | heq
  · cases heq
    cases hperf
    exact ⟨rfl, ⟨suffix_cons .., hne, (if_neg (by simp)).symm, h.final, h.since, h.waits⟩, rfl⟩
  · cases heq
    cases hperf
    refine ⟨rfl, ⟨(suffix_cons ..).trans h.suffix, hne, ?_, h.final, h.since, h.waits⟩, rfl⟩
    simpa using hcell
  · cases heq
    cases hperf
    have hcell' : p.cutoverTs = if .storeCutoverTs T ∈ [Effect.awaitCutover T] then 0 else T := by simpa using hcell
    cases env.ok <;> exact ⟨rfl, ⟨(suffix_cons ..).trans h.suffix, hne, hcell', h.final, h.since, h.waits⟩, rfl⟩
  · exact absurd (cons.inj heq).2 hne
  · cases heq

end Perform

variable {env : EffectEnv} {p' : Process}

theorem exec_frame {r : List Effect}
    (h : r = [] ∧ p.exec env = p'.complete t ∨ r ≠ [] ∧ p.exec env = { p' with running := some (t, r) }) :
    ∃ running created, p.exec env = { p' with running, created } ∧ running.elim [] Prod.snd = r ∧
      (r ≠ [] → running = some (t, r)) := by
  rcases h with ⟨rfl, heq⟩ | ⟨_, heq⟩
  · exact ⟨none, _, heq, rfl, absurd rfl⟩
  · exact ⟨some (t, r), _, heq, rfl, fun _ => rfl⟩

theorem cutoverInv_of_plainEffect {more rest : List Effect} (h : CutoverInv p)
    (he : PlainEffect p p' more rest) {running : Option (Task × List Effect)} {created : Bool}
    (hrem : running.elim [] Prod.snd = more ++ rest) : CutoverInv { p' with running, created } := by
  rw [he.more] at hrem
  refine ⟨⟨?_, fun l' hl' hx => ?_⟩, fun hne l' hl' hx => ?_, .inl ?_⟩
  · rw [he.completions]
    exact h.sound.reached
  · rcases he.loops l' hl' with ⟨hnone, _⟩ | ⟨l, hl, hex, hsince⟩
    · cases hnone.symm.trans hx
    rw [hsince]
    exact h.sound.accepted l hl (hex ▸ hx)
  · rw [he.cutoverTs] at hne
    rcases he.loops l' hl' with ⟨_, hcell⟩ | ⟨l, hl, hex, hsince⟩
    · exact absurd hcell hne
    rw [hsince]
    exact h.since hne l hl (hex ▸ hx)
  · rw [remaining, hrem]
    exact ⟨he.place.plain, he.place.clear, he.place.cancelled⟩

theorem cutoverInv_exec (h : CutoverInv p) (hok : CleanCutover p (.exec env)) :
    CutoverInv (p.exec env) := by
  rcases p.exec_cases env with heq | ⟨t, e, rest, p', more, hrun, hperf, hend⟩
  · rw [heq]; exact h
  obtain ⟨running, created, heq, hrem, hrunning⟩ := exec_frame hend
  rw [heq]
  rcases h.place with hp | ⟨T, r, hr, hc⟩
  · rw [remaining, hrun] at hp
    have hclear (b : Bool) (he : e = .spawnEventLoop b) : p.cutoverTs = 0 := hok t b rest (he ▸ hrun)
    exact cutoverInv_of_plainEffect h (plainEffect_of_perform hp hclear hperf) hrem
  · cases hr.symm.trans hrun
    by_cases hne : rest = []
    · subst hne
      -- the last effect of a cutover is its wait
      obtain rfl : e = .awaitCutover T := by
        have hsuf := hc.suffix
        simpa [cutoverEffects, suffix_cons_iff] using hsuf
      obtain ⟨hplain, hloops, hcomp⟩ := plain_of_awaitCutover hc hperf
      rw [append_nil] at hrem
      refine ⟨⟨fun c hcmem h0 hT => ?_, ?_⟩, fun _ l hl _ => hc.since l (hloops ▸ hl), .inl ?_⟩
      · rcases hcomp with hsame | ⟨l, hadd, hreach⟩
        · exact h.sound.reached c (hsame ▸ hcmem) h0 hT
        rw [hadd, mem_append, mem_singleton] at hcmem
        rcases hcmem with hold | rfl
        · exact h.sound.reached c hold h0 hT
        · exact hreach hT
      · exact fun l hl _ => hc.since l (hloops ▸ hl)
      · rw [remaining, hrem]
        exact ⟨hplain.plain, hplain.clear, hplain.cancelled⟩
    · obtain ⟨rfl, hc', hcomp⟩ := cutting_perform hc hne hperf
      refine ⟨⟨?_, fun l hl _ => hc'.since l hl⟩, fun _ l hl _ => hc'.since l hl, .inr ⟨T, rest, hrunning hne, ?_⟩⟩
      · rw [hcomp]
        exact h.sound.reached
      · exact ⟨hc'.suffix, hc'.nonempty, hc'.cell, hc'.final, hc'.since, hc'.waits⟩

/-! ## Every run -/

theorem cutoverInv_start (enable : Bool) (stateFile sourcePdFile : Option String) (checkpointFile : Option Frontier)
    (created : Bool) {completions : List (Nat × EventLoop)}
    (h : ∀ c ∈ completions, 0 < c.1 → c.1 < toLatest → Reached c.1 c.2.frontier) :
    CutoverInv (.start enable stateFile sourcePdFile checkpointFile created completions) := by
  refine ⟨⟨h, nofun⟩, absurd rfl, .inl ⟨rfl, fun _ => .inl rfl, nofun⟩⟩

theorem cutoverInv_step {ev : Event} (h : CutoverInv p) (hok : CleanCutover p ev) :
    CutoverInv (p.step ev) := by
  cases ev with
  | take t => exact cutoverInv_take h hok
  | exec env => exact cutoverInv_exec h hok
  | loopTurn i event env => exact cutoverInv_loopTurn h hok
  | restart => exact cutoverInv_start _ _ _ _ _ h.sound.reached

/-- **In every clean run** a completed cutover had reached its target, and a loop ended for a cutover only when one was
accepted after its start. -/
theorem cutoverSound_of_clean {enable : Bool} {stateFile sourcePdFile : Option String}
    {checkpointFile : Option Frontier} {l : List Event} {p : Process}
    (h : Run (stepOf Process.step) CleanCutover (.init enable stateFile sourcePdFile checkpointFile) l p) :
    CutoverSound p := by
  have hinv : CutoverInv p := by
    refine h.invariant (I := CutoverInv) ?_ (cutoverInv_start _ _ _ _ _ fun c hc => by cases hc)
    rintro p ev _ hp hok rfl
    exact cutoverInv_step hp hok
  exact hinv.sound

def createAndReplicate (i : Nat) : List Event :=
  .take (.createReplication "pd" "pcr_default") :: List.replicate 6 (.exec ⟨true, false⟩) ++
    [.loopTurn i (.subscribed true) ⟨.ok (), .ok ()⟩, .loopTurn i (.checkpoint 10 [1]) ⟨.ok (), .ok ()⟩]

def cutOver (i : Nat) : List Event :=
  .take (.cutover 5) :: List.replicate 3 (.exec ⟨true, false⟩) ++
    .loopTurn i .cutoverCheck ⟨.ok (), .ok ()⟩ :: List.replicate 3 (.exec ⟨true, false⟩)

theorem cutoverSound_of_clean_cutOver :
    ∃ p, Run (stepOf Process.step) CleanCutover (.init true none none none) (createAndReplicate 0 ++ cutOver 0) p ∧
      p.state = .completed ∧ CutoverSound p := by
  refine Exists.imp (fun p (h : Run _ _ _ _ p ∧ p.state = .completed) => ⟨h.1, h.2, cutoverSound_of_clean h.1⟩)
    ⟨_, .cons trivial rfl <| .cons ?_ rfl <| .cons ?_ rfl <| .cons ?_ rfl <| .cons ?_ rfl <| .cons ?_ rfl <|
      .cons ?_ rfl <| .cons (fun h => ?_) rfl <| .cons (fun h => ?_) rfl <| .cons ?_ rfl <| .cons ?_ rfl <|
      .cons ?_ rfl <| .cons ?_ rfl <| .cons (fun h => ?_) rfl <| .cons ?_ rfl <| .cons ?_ rfl <| .cons ?_ rfl <|
      .nil _, rfl⟩
  case refine_7 | refine_8 | refine_13 => rcases h with h | h <;> cases h
  case refine_9 => rintro _ ⟨⟩; rfl
  all_goals first | exact fun _ _ _ _ => rfl | (rintro _ _ _ ⟨⟩)

def loseThenCutOver : List Event :=
  .take (.createReplication "pd" "pcr_default") :: List.replicate 6 (.exec ⟨true, false⟩) ++
    .loopTurn 0 (.subscribed false) ⟨.ok (), .ok ()⟩ :: .take (.cutover 5) :: List.replicate 6 (.exec ⟨true, false⟩)

/-- A cutover completes with nothing replicated; and after one that was reached the next replication's loop leaves at its
first checkpoint, although no cutover was asked for since. -/
theorem not_cutoverSound_lost_or_stale :
    ¬ CutoverSound (loseThenCutOver.foldl Process.step (.init true none none none)) ∧
      ¬ CutoverSound ((createAndReplicate 0 ++ cutOver 0 ++ createAndReplicate 1).foldl Process.step
        (.init true none none none)) := by
  constructor
  · intro h
    obtain ⟨m, hm, _⟩ := h.reached (5, _) (mem_singleton.2 rfl) (by decide) (by decide)
    cases hm
  · intro h
    have hlast := h.accepted _ (mem_of_getElem? (i := 1) rfl)
    exact absurd (hlast (by decide)) (by decide)

end Control
end Tikv
