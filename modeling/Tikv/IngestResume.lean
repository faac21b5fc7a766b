import Tikv.IngestOrder
/-!
# IngestResume — what a recorded checkpoint promises

A resume asks the source for what is newer than the minimum of the checkpoint file, so what came before the checkpoint
event of that minimum must be in the engine.  The loop records a checkpoint as it arrives and waits for no worker; the
promise holds in the runs whose checkpoints arrive when what the session received has landed (`Settled`), whatever fails
or comes in another order besides.
-/
namespace Tikv
namespace Ingest

open List Consumer

open Lib (Patch Run always)

/-- **A pair is in the engine**, or a later received change put there what is. -/
def Present (e : Engine) (kv : MvccKeyValue) (later : List EnginePatch) : Prop :=
  e kv.slot = some kv.value ∨ ∃ q ∈ later, q kv.slot = some (e kv.slot)

/-- **With `T` the minimum of the checkpoint file, every pair received in a session before a checkpoint event of `T` is
present.** -/
def CheckpointSafe (c : Consumer) : Prop :=
  ∀ T, c.file.bind globalMinTs = some T →
    ∀ before s after, c.sessions = before ++ s :: after →
    ∀ pre ev post regionIds, s = pre ++ ev :: post → ev.event.event = .checkpoint T regionIds →
    ∀ pre₁ evk pre₂ l kv r, pre = pre₁ ++ evk :: pre₂ → eventKvs evk = l ++ kv :: r →
      Present c.engine kv (r.map MvccKeyValue.patch ++ streamOps (pre₂ ++ ev :: post ++ after.flatten))

def isCheckpoint (ev : PcrEventWithMeta) : Bool :=
  match ev.event.event with
  | .checkpoint _ _ => true
  | _ => false

/-- **A checkpoint is received when what the session received before it has landed**, and nothing in flight will put
something else there. -/
def Settled (c : Consumer) (a : Action) : Prop :=
  ∀ env, a = .receive env → ∀ ev rest, c.stream = ev :: rest → isCheckpoint ev = true →
    Patch.Kept (streamOps c.received) [] c.engine ∧ ∀ p ∈ c.flying, Patch.Agrees p (streamOps c.received)

/-! ## What was before a checkpoint is kept -/

/-- What `pre` says is kept, and what is in flight agrees with it or came later. -/
def KeptFrom (pre later : List PcrEventWithMeta) (fly : Set EnginePatch) (e : Engine) : Prop :=
  Patch.Kept (streamOps pre) (streamOps later) e ∧
    ∀ p ∈ fly, p ∈ streamOps later ∨ Patch.Agrees p (streamOps pre)

def KeptAll (sessions : List (List PcrEventWithMeta)) (fly : Set EnginePatch) (e : Engine) : Prop :=
  ∀ before s after, sessions = before ++ s :: after → ∀ pre ev post, s = pre ++ ev :: post → isCheckpoint ev = true →
    KeptFrom pre (ev :: post ++ after.flatten) fly e

variable {sessions : List (List PcrEventWithMeta)} {fly fly' : Set EnginePatch} {e e' : Engine}

theorem keptAll_land (hk : KeptAll sessions fly e) (hw : Patch.Writes fly e e') (hfly : fly' ⊆ fly) :
    KeptAll sessions fly' e' := by
  intro before s after hs pre ev post hsplit hcp
  obtain ⟨hkept, hagrees⟩ := hk before s after hs pre ev post hsplit hcp
  exact ⟨hkept.writes hw hagrees, fun p hp => hagrees p (hfly hp)⟩

theorem split_last {α : Type} {past before after : List α} {s t : α} (h : past ++ [t] = before ++ s :: after) :
    (after = [] ∧ s = t ∧ past = before) ∨ ∃ after', after = after' ++ [t] ∧ past = before ++ s :: after' := by
  rcases eq_nil_or_concat after with rfl | ⟨after', u, rfl⟩
  · obtain ⟨hp, hst⟩ := append_inj' h rfl
    exact .inl ⟨rfl, (cons.inj hst).1.symm, hp⟩
  rw [concat_eq_append] at h ⊢
  rw [← cons_append, ← append_assoc] at h
  obtain ⟨hp, hu⟩ := append_inj' h rfl
  exact .inr ⟨after', by rw [(cons.inj hu).1], hp⟩

theorem keptAll_issue {past : List (List PcrEventWithMeta)} {received : List PcrEventWithMeta} {ev : PcrEventWithMeta}
    (hk : KeptAll (past ++ [received]) fly e) (hfly : ∀ p ∈ fly', p ∈ fly ∨ p ∈ eventPatches ev)
    (hcp : isCheckpoint ev = true → Patch.Kept (streamOps received) [] e ∧ ∀ p ∈ fly, Patch.Agrees p (streamOps received)) :
    KeptAll (past ++ [received ++ [ev]]) fly' e := by
  intro before s after hs pre x post hsplit hx
  -- for a checkpoint before the new event, `later` becomes `later'`, which has the event as well
  have hold : ∀ (later : List PcrEventWithMeta) {later' : List PcrEventWithMeta}, later' = later ++ [ev] →
      KeptFrom pre later fly e → KeptFrom pre later' fly' e := by
    rintro later _ rfl ⟨hkept, hagrees⟩
    unfold KeptFrom
    rw [streamOps_append, streamOps_singleton]
    refine ⟨hkept.later fun q hq => mem_append_left _ hq, fun p hp => ?_⟩
    rcases hfly p hp with hp | hp
    · exact (hagrees p hp).imp_left (mem_append_left _)
    · exact .inl (mem_append_right _ hp)
  rcases split_last hs with ⟨rfl, rfl, rfl⟩ | ⟨after', rfl, hpast⟩
  · rcases eq_nil_or_concat post with rfl | ⟨post', y, rfl⟩
    -- the new event is the checkpoint
    · obtain ⟨hrec, hxe⟩ := append_inj' hsplit rfl
      obtain rfl := (cons.inj hxe).1
      obtain rfl := hrec
      obtain ⟨hkept, hagrees⟩ := hcp hx
      exact hold [] rfl ⟨hkept, fun p hp => .inr (hagrees p hp)⟩
    -- or it comes after one
    · rw [concat_eq_append, ← cons_append, ← append_assoc] at hsplit
      obtain ⟨hrec, hye⟩ := append_inj' hsplit rfl
      obtain rfl := (cons.inj hye).1
      refine hold _ ?_ (hk past received [] rfl pre x post' hrec hx)
      simp
  · refine hold _ ?_ (hk before s (after' ++ [received]) (by rw [hpast]; simp) pre x post hsplit hx)
    simp

theorem keptAll_close (hk : KeptAll sessions fly e) (hfly : fly' ⊆ fly) : KeptAll (sessions ++ [[]]) fly' e := by
  intro before s after hs pre ev post hsplit hcp
  rcases split_last hs with ⟨-, rfl, -⟩ | ⟨after', rfl, hpast⟩
  · exact absurd hsplit (by simp)
  obtain ⟨hkept, hagrees⟩ := hk before s after' hpast pre ev post hsplit hcp
  rw [flatten_append, flatten_singleton, append_nil]
  exact ⟨hkept, fun p hp => hagrees p (hfly hp)⟩

variable {c : Consumer}

theorem keptAll_step {c' : Consumer} {a : Action} (hk : KeptAll c.sessions c.flying c.engine) (hok : Settled c a)
    (hm : Moves c a c') : KeptAll c'.sessions c'.flying c'.engine := by
  cases hm with
  | land hsess heng hfly =>
    rw [hsess]
    exact keptAll_land hk heng hfly
  | issue ev hact hst hpast hrec heng hfly =>
    obtain ⟨env, hact⟩ := hact
    obtain ⟨rest, hst⟩ := hst
    unfold sessions
    rw [hpast, hrec, heng]
    exact keptAll_issue hk hfly (hok env hact ev rest hst)
  | close hsess heng hfly =>
    rw [hsess, heng]
    exact keptAll_close hk hfly

theorem run_keptAll {cfg : Config} {acts : List Action}
    (h : Run (Steps cfg) Settled (init cfg e) acts c) : KeptAll c.sessions c.flying c.engine := by
  refine h.invariant (I := fun c => KeptAll c.sessions c.flying c.engine)
    (fun _ _ _ hk hok hstep => keptAll_step hk hok (step_moves hstep)) ?_
  intro before s after hs pre ev post hsplit _
  have hs : [] ++ [(init cfg e).received] = before ++ s :: after := hs
  rcases split_last hs with ⟨-, rfl, -⟩ | ⟨after', -, hpast⟩
  · exact absurd hsplit (by simp [init])
  · exact absurd hpast (by simp)

def checkpointEvent : PcrEventWithMeta := ⟨⟨1, .checkpoint 10 [1], false⟩, 0⟩

def flushedFirst : List Action :=
  [.start true [putEvent 1, checkpointEvent] 0, .receive .ideal, .work 0 .ideal, .receive .ideal, .crash,
    .start false [] 0]

theorem flushedFirst_run : ∃ c, Run (Steps flushEach) Settled (init flushEach (fun _ => none)) flushedFirst c ∧
      c.file.bind globalMinTs = some 10 := by
  refine ⟨_, .cons nofun rfl (.cons ?_ rfl (.cons nofun rfl (.cons (fun env _ ev rest hst _ => ⟨?_, ?_⟩) rfl
    (.cons nofun rfl (.cons nofun rfl (.nil _)))))), rfl⟩
  · intro env _ ev rest hst hcp
    obtain ⟨rfl, -⟩ := cons.inj hst
    cases hcp
  · intro s v hv
    by_cases hs : s = (.write, [122, 97])
    · subst hs
      cases hv
      exact .inl rfl
    · have hnone : Patch.seqAll (streamOps [putEvent 1]) s = none :=
        Patch.seqAll_eq_none.2 (forall_mem_singleton.2 (if_neg hs))
      cases hnone.symm.trans hv
  · rintro p (⟨i, hi⟩ | ⟨w, hw, -⟩)
    · fin_cases i <;> cases hi
    · cases hw

def recordedFirst : List Action :=
  [.start true [putEvent 1, checkpointEvent] 0, .receive .ideal, .receive .ideal, .crash, .start false [] 0]

end Ingest
end Tikv
