import Tikv.ControlTask
/-!
# ControlGuard — the write guard between creation and activation

The storage refuses user writes while the guard is up.  It goes up in the middle of `StartReplication` and
`CreateReplication` and down as the last effect of `Activate`; it is in no file, and a process comes up with it down.
So it is up from creation to activation exactly in the runs that have no restart in between (`protected_iff`).
-/
namespace Tikv
namespace Control

open Process

open Lib (Run stepOf invariant_prefix_iff always)

/-- **A created replication that no activation has completed since is write protected.** -/
def Protected (p : Process) : Prop := p.created = true → p.writeGuard = true

def RestartsUncreated (p : Process) : Event → Prop
  | .restart => p.created = false
  | _ => True

def Task.Creates : Task → Bool
  | .startReplication _ _ => true
  | .createReplication _ _ => true
  | _ => false

/-- What is left to do of a task lowers the guard at its end or not at all. -/
def lowersLast (t : Task) : List Effect → Bool
  | [] => true
  | .storeWriteGuard false :: rest => decide (t = .activate) && rest.isEmpty
  | _ :: rest => lowersLast t rest

variable {t : Task} {e : Effect} {rest : List Effect}

theorem lowersLast_cons (h : lowersLast t (e :: rest) = true) :
    lowersLast t rest = true ∧ (e = .storeWriteGuard false → t = .activate ∧ rest = []) := by
  unfold lowersLast at h
  split at h
  · cases ‹_ :: _ = []›
  · rename_i heq
    cases heq
    rw [Bool.and_eq_true, decide_eq_true_eq, List.isEmpty_iff] at h
    refine ⟨?_, fun _ => h⟩
    rw [h.2]; rfl
  · rename_i hne heq
    cases heq
    exact ⟨h, fun he => (hne he).elim⟩

theorem lowersLast_effects (state : TaskState) (t : Task) : lowersLast t (t.effects state) = true := by
  cases t <;> cases state <;> rfl

theorem raises_effects (h : t.Creates = true) (state : TaskState) (hne : t.effects state ≠ []) :
    .storeWriteGuard true ∈ t.effects state := by
  cases t with
  | startReplication sourcePd _ | createReplication sourcePd _ =>
    cases state <;> first | exact absurd rfl hne | simp [Task.effects, replicate]
  | _ => cases h

def Fits (writeGuard : Bool) : Option (Task × List Effect) → Prop
  | none => True
  | some (t, r) => lowersLast t r = true ∧ (t.Creates = true → writeGuard = true ∨ .storeWriteGuard true ∈ r)

structure GuardInv (p : Process) : Prop where
  fits : Fits p.writeGuard p.running
  up : Protected p

variable {p : Process} {more : List Effect} {env : EffectEnv} {p' : Process}

theorem perform_guard (h : p.perform env e = some (p', more)) :
    p'.created = p.created ∧
      (∀ t rest, lowersLast t (more ++ rest) = lowersLast t rest) ∧
      (p'.writeGuard = p.writeGuard ∧ (∀ v, e ≠ .storeWriteGuard v) ∨
        e = .storeWriteGuard p'.writeGuard ∧ more = []) := by
  unfold perform at h
  cases e <;> grind [lowersLast, spawnEventLoop]

theorem fits_step (h : Fits p.writeGuard p.running) (ev : Event) :
    Fits (p.step ev).writeGuard (p.step ev).running := by
  cases ev with
  | take t =>
    rcases p.take_cases t with heq | ⟨_, hne, heq⟩
    · rw [step, heq]; exact h
    rw [step, heq]
    exact ⟨lowersLast_effects p.state t, fun hc => .inr (raises_effects hc p.state hne)⟩
  | exec env =>
    rcases p.exec_cases env with heq | ⟨t, e, rest, p', more, hrun, hperf, hdone | hmore⟩
    · rw [step, heq]; exact h
    · rw [step, hdone.2]; trivial
    rw [step, hmore.2]
    rw [hrun] at h
    obtain ⟨_, hlow, hguard⟩ := perform_guard hperf
    obtain ⟨hrest, hlast⟩ := lowersLast_cons h.1
    refine ⟨(hlow t rest).trans hrest, fun hc => ?_⟩
    rcases hguard with ⟨hsame, hno⟩ | ⟨rfl, _⟩
    · rcases h.2 hc with hup | hin
      · exact .inl (hsame.trans hup)
      refine .inr (List.mem_append_right more ((List.mem_cons.1 hin).resolve_left ?_))
      exact fun he => hno true he.symm
    · cases hv : p'.writeGuard with
      | true => exact .inl rfl
      | false =>
        rw [(hlast (by rw [hv])).1] at hc
        cases hc
  | loopTurn i event env =>
    obtain ⟨loops, checkpointFile, heq⟩ := p.loopTurn_frame i event env
    rw [step, heq]; exact h
  | restart => trivial

theorem guard_down
    (hlow : lowersLast t (e :: rest) = true) (hperf : p.perform env e = some (p', more)) (hup : p.writeGuard = true)
    (hdown : p'.writeGuard = false) : t = .activate ∧ more ++ rest = [] := by
  rcases (perform_guard hperf).2.2 with ⟨hsame, _⟩ | ⟨he, hmore⟩
  · rw [hsame, hup] at hdown
    cases hdown
  obtain ⟨ht, hrest⟩ := (lowersLast_cons hlow).2 (hdown ▸ he)
  exact ⟨ht, by rw [hmore, hrest]; rfl⟩

theorem complete_created (h : (p.complete t).created = true) :
    t.Creates = true ∨ t ≠ .activate ∧ p.created = true := by
  cases t with
  | startReplication | createReplication => exact .inl rfl
  | activate => cases h
  | _ => exact .inr ⟨by rintro ⟨⟩, h⟩

theorem guardInv_exec (h : GuardInv p) (env : EffectEnv) : Protected (p.exec env) := by
  rcases p.exec_cases env with heq | ⟨t, e, rest, p', more, hrun, hperf, hdone | hmore⟩
  · rw [heq]; exact h.up
  · -- the task is done: it created the replication, or activated, or left `created` as it was
    rw [hdone.2]
    obtain ⟨hcreated, _, hguard⟩ := perform_guard hperf
    have hfit := h.fits
    rw [hrun] at hfit
    intro hc
    rcases complete_created hc with hcr | ⟨hact, hold⟩
    · rcases hguard with ⟨hsame, hno⟩ | ⟨he, _⟩
      · rcases hfit.2 hcr with hup | hin
        · exact hsame.trans hup
        rw [(List.append_eq_nil_iff.1 hdone.1).2, List.mem_singleton] at hin
        exact absurd hin.symm (hno true)
      · by_contra hdown
        rw [Bool.not_eq_true] at hdown
        rw [((lowersLast_cons hfit.1).2 (hdown ▸ he)).1] at hcr
        cases hcr
    · by_contra hdown
      rw [Bool.not_eq_true] at hdown
      exact hact (guard_down hfit.1 hperf (h.up (hcreated ▸ hold)) hdown).1
  · rw [hmore.2]
    have hcreated := (perform_guard hperf).1
    have hfit := h.fits
    rw [hrun] at hfit
    intro hc
    by_contra hdown
    rw [Bool.not_eq_true] at hdown
    exact hmore.1 (guard_down hfit.1 hperf (h.up (hcreated ▸ hc)) hdown).2

/-- **One step**: the guard stays up from creation to activation unless the process restarts in between. -/
theorem guardInv_step (ev : Event) (h : GuardInv p) : GuardInv (p.step ev) ↔ RestartsUncreated p ev := by
  refine ⟨fun h' => ?_, fun hok => ⟨fits_step h.fits ev, ?_⟩⟩
  · cases ev with
    | restart =>
      cases hc : p.created with
      | false => exact hc
      | true => cases h'.up hc
    | _ => trivial
  · cases ev with
    | take t =>
      rcases p.take_cases t with heq | ⟨_, _, heq⟩ <;> rw [step, heq] <;> exact h.up
    | exec env => exact guardInv_exec h env
    | loopTurn i event env =>
      obtain ⟨loops, checkpointFile, heq⟩ := p.loopTurn_frame i event env
      rw [step, heq]; exact h.up
    | restart =>
      intro hc
      cases hok.symm.trans hc

theorem fits_foldl : ∀ (l : List Event) {p : Process}, Fits p.writeGuard p.running →
    Fits (l.foldl step p).writeGuard (l.foldl step p).running
  | [], _, h => h
  | ev :: l, _, h => fits_foldl l (fits_step h ev)

/-- **The guard is up from creation to activation all along a run exactly when no restart falls in between.** -/
theorem protected_iff (enable : Bool) (stateFile sourcePdFile : Option String)
    (checkpointFile : Option Ingest.Frontier) (l : List Event) :
    (∀ l', l' <+: l → Protected (l'.foldl Process.step (.init enable stateFile sourcePdFile checkpointFile))) ↔
      Run (stepOf Process.step) RestartsUncreated (.init enable stateFile sourcePdFile checkpointFile) l
        (l.foldl Process.step (.init enable stateFile sourcePdFile checkpointFile)) := by
  have hinit : GuardInv (.init enable stateFile sourcePdFile checkpointFile) := ⟨trivial, nofun⟩
  rw [← invariant_prefix_iff (fun p ev => guardInv_step ev) l _ hinit]
  refine forall_congr' fun l' => imp_congr_right fun _ => ?_
  exact ⟨fun h => ⟨fits_foldl l' hinit.fits, h⟩, GuardInv.up⟩

def createThenRestart : List Event :=
  .take (.createReplication "pd" "pcr_default") :: List.replicate 6 (.exec ⟨true, false⟩) ++ [.restart]

theorem not_protected_createThenRestart :
    ¬ Protected (createThenRestart.foldl Process.step (.init true none none none)) := by
  intro h
  exact absurd (h (by decide)) (by decide)

end Control
end Tikv
