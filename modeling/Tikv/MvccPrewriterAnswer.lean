import Tikv.MvccPrewriter
/-!
# MvccPrewriterAnswer — what the answer to a prewrite request says of the keys

One key first: what its prewrite has put into the transaction (`KeyOutcome`).  Then the loop, whose invariant (`LoopOk`)
says how each mutation so far was dealt with as long as the request still needs a `min_commit_ts`; then what is written.
-/
namespace Tikv
namespace Mvcc

open Lib List Prewriter

/-! ## One key -/

variable {k : KeyState} {ts : Nat} {pending : Pending} {status : LockStatus} {r : Prewrite}

theorem check_duplicate (h : r.check k = .ok (.duplicate ts)) :
    ∃ lock, k.lock = some lock ∧ lock.ts = r.startTs ∧ lock.isPessimisticLock = false ∧
      ts = if lock.useAsyncCommit then lock.minCommitTs else 0 := by
  obtain ⟨_, _, _, hstatus, ⟨ts', hlocked, heq⟩ | ⟨_, hversions⟩⟩ := check_inv h
  · cases heq
    subst hlocked
    obtain ⟨hfinds, -, hts⟩ := findsLock hstatus
    cases hfinds with
    | locked hlock hts' htype => exact ⟨_, hlock, hts', htype, hts ts _ rfl hlock⟩
  · obtain ⟨_, heq, _⟩ := checkVersions_ok hversions
    cases heq

theorem check_pass_pessimistic (h : r.check k = .ok (.pass (.pessimistic ts) pending)) : r.isPessimistic = true := by
  obtain ⟨_, _, _, hstatus, ⟨_, _, heq⟩ | ⟨_, hversions⟩⟩ := check_inv h
  · cases heq
  · obtain ⟨_, heq, _⟩ := checkVersions_ok hversions
    cases heq
    exact (findsLock hstatus).2.1 ts rfl

def Lockable (startTs : Nat) (k : KeyState) (deletePessimisticLock : Bool) : Prop :=
  if deletePessimisticLock then ∃ lock, k.lock = some lock ∧ lock.ts = startTs ∧ lock.isPessimisticLock = true
  else k.lock = none

theorem Lockable.isPessimistic {startTs : Nat} {del : Bool} {lock : Lock} (h : Lockable startTs k del)
    (hlock : k.lock = some lock) : lock.isPessimisticLock = true := by
  cases del with
  | false => cases hlock.symm.trans h
  | true =>
    obtain ⟨old, hold, _, hpess⟩ := h
    cases hold.symm.trans hlock
    exact hpess

theorem check_lockable (hgen : r.generation = 0)
    (h : r.check k = .ok (.pass status pending)) : Lockable r.startTs k status.hasPessimisticLock := by
  obtain ⟨hfinds, _, hlocked⟩ := check_pass h
  cases hfinds with
  | pessimistic hlock hts htype _ => exact ⟨_, hlock, hts, htype⟩
  | locked _ _ _ _ _ => exact absurd rfl (hlocked hgen _)
  | none hlock _ _ => exact hlock

inductive KeyOutcome (r : Prewrite) (k : KeyState) : Prewritten → Prop
  | failed {ms : List Modify} {e : MvccError} (hms : ∀ m ∈ ms, m.onWrites = false) : KeyOutcome r k ⟨ms, none, .error e⟩
  | duplicate {lock : Lock} (hlock : k.lock = some lock) (hts : lock.ts = r.startTs)
      (htype : lock.isPessimisticLock = false) :
      KeyOutcome r k ⟨[], none, .ok (if lock.useAsyncCommit then lock.minCommitTs else 0)⟩
  | checked {ts : Nat} (hwrite : r.mutation.shouldNotWrite = true) (hlock : k.lock = none) :
      KeyOutcome r k ⟨[], none, .ok ts⟩
  | locked {new : Lock} {ts : Nat} {del : Bool} (hk : Lockable r.startTs k del) (hone : r.tryOnePc = false)
      (hts : new.ts = r.startTs) (hasync : ts ≠ 0 → new.useAsyncCommit = true ∧ new.minCommitTs = ts) :
      KeyOutcome r k ⟨r.valueToWrite ++ [.putLock new], none, .ok ts⟩
  | kept {new : Lock} {del : Bool} (hk : Lockable r.startTs k del) (hone : r.tryOnePc = true) (hts : new.ts = r.startTs)
      (htype : new.isPessimisticLock = false) : KeyOutcome r k ⟨r.valueToWrite, some (new, del), .ok new.minCommitTs⟩

theorem prewrite_outcome (r : Prewrite) (cm : ConcurrencyManager) (out : Outside) (k : KeyState) (hgen : r.generation = 0) :
    KeyOutcome r k (prewrite r cm out k).2 := by
  have hr : { r with generation := 0 } = r := by rw [← hgen]
  unfold prewrite
  rw [hr]
  have hspec := (prewriteWithGeneration_spec r cm out k).2
  generalize prewriteWithGeneration r cm out k = res at hspec ⊢
  cases hspec with
  | failed => exact .failed nofun
  | duplicate hcheck =>
    obtain ⟨lock, hlock, hts, htype, rfl⟩ := check_duplicate hcheck
    exact .duplicate hlock hts htype
  | @checked _ status _ _ hcheck hpess hwrite =>
    have hk := check_lockable hgen hcheck
    refine .checked hwrite ?_
    cases status with
    | pessimistic ts => cases hpess.symm.trans (check_pass_pessimistic hcheck)
    | locked | none => exact hk
  | @writes cm status pending hcheck =>
    have hk := check_lockable hgen hcheck
    have hlock := writeLock_spec r cm.maxTs status pending
    generalize r.writeLock cm.maxTs status pending = res at hlock ⊢
    cases hlock with
    | refused => exact .failed nofun
    | fallback _ => exact .failed (forall_mem_append.2 ⟨onWrites_value, forall_mem_singleton.2 rfl⟩)
    | lock hnew hone hts => exact .locked hk hone hnew.ts hts
    | onePc hnew hone _ _ => exact .kept hk hone hnew.ts hnew.notPessimistic

/-! ## The loop -/

def AsyncLock (startTs ts : Nat) (lock : Lock) : Prop :=
  lock.ts = startTs ∧ lock.useAsyncCommit = true ∧ lock.minCommitTs ≤ ts

variable {startTs : Nat} {lock : Lock}

theorem AsyncLock.mono {ts' : Nat} (h : AsyncLock startTs ts lock) (hle : ts ≤ ts') :
    AsyncLock startTs ts' lock := ⟨h.1, h.2.1, h.2.2.trans hle⟩

/-- How a mutation was dealt with: it had been prewritten before, it only checks, its lock is kept back, or its lock is
put. -/
inductive Handled (startTs : Nat) (state : Bytes → KeyState) (st : PrewriterState) (m : PessimisticMutation) : Prop
  | duplicate {lock : Lock} (hlock : (state m.item.key).lock = some lock) (htype : lock.isPessimisticLock = false)
      (hasync : AsyncLock startTs st.finalMinCommitTs lock)
  | checked (hwrite : m.item.mutation.shouldNotWrite = true) (hlock : (state m.item.key).lock = none)
  | kept (lock : Lock) (del : Bool) (hone : st.tryOnePc = true) (hmem : (m.item.key, lock, del) ∈ st.locksForOnePc)
  | put (lock : Lock) (hone : st.tryOnePc = false) (hmem : (m.item.key, .putLock lock) ∈ st.modifies)

/-- The request still needs a `min_commit_ts` and no key has failed. -/
structure Active (startTs : Nat) (state : Bytes → KeyState) (done : List PessimisticMutation) (st : PrewriterState) :
    Prop where
  handled : ∀ m ∈ done, Handled startTs state st m
  puts : ∀ x ∈ st.modifies, x.2.onLock = true →
    ∃ lock, x.2 = .putLock lock ∧ AsyncLock startTs st.finalMinCommitTs lock ∧ st.tryOnePc = false
  kept : ∀ x ∈ st.locksForOnePc, Lockable startTs (state x.1) x.2.2 ∧ x.2.1.ts = startTs ∧
    x.2.1.isPessimisticLock = false

structure LoopOk (p : Prewriter) (state : Bytes → KeyState) (done : List PessimisticMutation) (st : PrewriterState) :
    Prop where
  commitKind : st.commitKind = commitKindOf p.fields.maxCommitTs st.secondaryKeys st.tryOnePc
  onWrites : ∀ x ∈ st.modifies, x.2.onWrites = false
  kept : st.tryOnePc = false → st.locksForOnePc = []
  active : st.needMinCommitTs = true → st.locks = [] → st.assertionFailure = none →
    Active p.fields.startTs state done st

section Loop

variable {p : Prewriter} {ctx : PrewriteContext} {state : Bytes → KeyState} {done : List PessimisticMutation}
  {st : PrewriterState} {m : PessimisticMutation} {cm : ConcurrencyManager} {r : Prewritten}

theorem LoopOk.start : LoopOk p state [] (p.start cm) :=
  ⟨rfl, nofun, fun _ => rfl, fun _ _ _ => ⟨nofun, nofun, nofun⟩⟩

theorem tryOnePc_request (ctx : PrewriteContext) (m : PessimisticMutation) (h : LoopOk p state done st) :
    (p.request ctx st m).tryOnePc = st.tryOnePc := by
  unfold request
  rw [h.commitKind]
  cases st.tryOnePc <;> cases st.secondaryKeys <;> rfl

variable {q : Prewrite}

theorem KeyOutcome.onWrites (h : KeyOutcome q k r) : ∀ x ∈ r.modifies, x.onWrites = false := by
  cases h with
  | failed hms => exact hms
  | locked hk hone hts hasync =>
    exact forall_mem_append.2 ⟨onWrites_value, forall_mem_singleton.2 rfl⟩
  | kept hk hone hts htype => exact onWrites_value
  | _ => nofun

theorem KeyOutcome.lockForOnePc (h : KeyOutcome q k r) (hone : q.tryOnePc = false) :
    r.lockForOnePc = none := by
  cases h with
  | kept hk hone' hts htype => rw [hone] at hone'; cases hone'
  | _ => rfl

variable {st' : PrewriterState} {t : Turn}

theorem LoopOk.fallBack (hw : ∀ x ∈ st'.modifies, x.2.onWrites = false) :
    LoopOk p state done st'.fallBack :=
  ⟨rfl, forall_mem_append.2 ⟨hw, forall_mem_map.2 fun _ _ => rfl⟩, fun _ => rfl, nofun⟩

theorem Handled.mono (h : Handled startTs state st m)
    (hts : st.finalMinCommitTs ≤ st'.finalMinCommitTs) (hone : st'.tryOnePc = st.tryOnePc)
    (hkept : ∀ x ∈ st.locksForOnePc, x ∈ st'.locksForOnePc) (hms : ∀ x ∈ st.modifies, x ∈ st'.modifies) :
    Handled startTs state st' m := by
  cases h with
  | duplicate hlock htype hasync => exact .duplicate hlock htype (hasync.mono hts)
  | checked hwrite hlock => exact .checked hwrite hlock
  | kept lock del h1 hmem => exact .kept lock del (hone.trans h1) (hkept _ hmem)
  | put lock h1 hmem => exact .put lock (hone.trans h1) (hms _ hmem)

inductive AfterTurn (p : Prewriter) (state : Bytes → KeyState) (done : List PessimisticMutation) (m : PessimisticMutation) :
    Turn → Prop
  | goOn {st : PrewriterState} (h : LoopOk p state (done ++ [m]) st) : AfterTurn p state done m (.goOn st)
  | answer {st : PrewriterState} {ts : Nat}
      (hrecord : committedRecord (state m.item.key).writes p.fields.startTs = some ts) :
      AfterTurn p state done m (.answer (st.committed ts))

theorem onError_spec (added : PrewriterState) {e : MvccError}
    (hkind : added.commitKind = commitKindOf p.fields.maxCommitTs added.secondaryKeys added.tryOnePc)
    (hwrites : ∀ x ∈ added.modifies, x.2.onWrites = false) (hkept : added.tryOnePc = false → added.locksForOnePc = [])
    (h : p.onError added (state m.item.key).writes e = .ok t) : AfterTurn p state done m t := by
  unfold onError at h
  split at h
  · split at h
    · split at h
      · rename_i hrecord
        cases h
        exact .answer hrecord
      · cases h
    · cases h
  · split at h
    · rename_i hrecord
      cases h
      exact .answer hrecord
    · cases h
  · split at h
    · rename_i hrecord
      cases h
      exact .answer hrecord
    · cases h
      exact .goOn (.fallBack hwrites)
  · split at h
    · rename_i hrecord
      cases h
      exact .answer hrecord
    · cases h
      exact .goOn ⟨hkind, hwrites, hkept, fun _ hlocks => absurd hlocks (by simp)⟩
  · cases h
    refine .goOn ⟨hkind, hwrites, hkept, fun _ _ hnone => ?_⟩
    exact absurd hnone (by simp)
  · cases h

section

variable (h : LoopOk p state done st) (cm : ConcurrencyManager)
  (hout : KeyOutcome (p.request ctx st m) (state m.item.key) r)
include h hout

theorem LoopOk.add_onWrites : ∀ x ∈ (st.add cm m.item.key r).modifies, x.2.onWrites = false :=
  forall_mem_append.2 ⟨h.onWrites, forall_mem_map.2 hout.onWrites⟩

theorem LoopOk.add_kept (hone : st.tryOnePc = false) : (st.add cm m.item.key r).locksForOnePc = [] := by
  have hnone := hout.lockForOnePc ((tryOnePc_request ctx m h).trans hone)
  show st.locksForOnePc ++ _ = []
  rw [h.kept hone, hnone]
  rfl

theorem Active.step (ha : Active p.fields.startTs state done st) (hres : r.result = .ok ts) (hts : ts ≠ 0) :
    Active p.fields.startTs state (done ++ [m])
      { st.add cm m.item.key r with finalMinCommitTs := max st.finalMinCommitTs ts } := by
  have hone := tryOnePc_request ctx m h
  have hold : ∀ x ∈ done, Handled p.fields.startTs state
      { st.add cm m.item.key r with finalMinCommitTs := max st.finalMinCommitTs ts } x := fun x hx =>
    (ha.handled x hx).mono (le_max_left _ _) rfl (fun _ => mem_append_left _) fun _ => mem_append_left _
  have holdPuts : ∀ x ∈ st.modifies, x.2.onLock = true → ∃ lock, x.2 = .putLock lock ∧
      AsyncLock p.fields.startTs (max st.finalMinCommitTs ts) lock ∧ st.tryOnePc = false := by
    intro x hx hlock
    obtain ⟨lock, heq, hasync, hno⟩ := ha.puts x hx hlock
    exact ⟨lock, heq, hasync.mono (le_max_left _ _), hno⟩
  -- the new part: how `m` was dealt with, which locks are put for it and which is kept back
  suffices hnew : Handled p.fields.startTs state
        { st.add cm m.item.key r with finalMinCommitTs := max st.finalMinCommitTs ts } m ∧
      (∀ x ∈ r.modifies, x.onLock = true → ∃ lock, x = .putLock lock ∧
        AsyncLock p.fields.startTs (max st.finalMinCommitTs ts) lock ∧ st.tryOnePc = false) ∧
      (∀ x ∈ r.lockForOnePc, Lockable p.fields.startTs (state m.item.key) x.2 ∧ x.1.ts = p.fields.startTs ∧
        x.1.isPessimisticLock = false) by
    constructor
    · exact forall_mem_append.2 ⟨hold, forall_mem_singleton.2 hnew.1⟩
    · exact forall_mem_append.2 ⟨holdPuts, forall_mem_map.2 hnew.2.1⟩
    · exact forall_mem_append.2 ⟨ha.kept, forall_mem_map.2 fun y hy => hnew.2.2 y (Option.mem_toList.1 hy)⟩
  cases hout with
  | failed hms => cases hres
  | @duplicate lock hlock hlts htype =>
    cases hres
    by_cases ha : lock.useAsyncCommit = true
    · have hle : lock.minCommitTs ≤ max st.finalMinCommitTs (if lock.useAsyncCommit then lock.minCommitTs else 0) := by
        rw [if_pos ha]; exact le_max_right _ _
      exact ⟨.duplicate hlock htype ⟨hlts, ha, hle⟩, nofun, nofun⟩
    · exact absurd (if_neg ha) hts
  | checked hwrite hlock => exact ⟨.checked hwrite hlock, nofun, nofun⟩
  | @locked new ts' del hk hno hnts hasync =>
    cases hres
    obtain ⟨huse, hmin⟩ := hasync hts
    have hno' : st.tryOnePc = false := hone.symm.trans hno
    refine ⟨.put new hno' ?_, fun x hx hlock => ?_, nofun⟩
    · exact mem_append_right _ (mem_map.2 ⟨_, mem_append_right _ (mem_singleton.2 rfl), rfl⟩)
    · rcases mem_append.1 hx with hx | hx
      · rw [(on_value x hx).1] at hlock; cases hlock
      cases mem_singleton.1 hx
      exact ⟨new, rfl, ⟨hnts, huse, hmin ▸ le_max_right _ _⟩, hno'⟩
  | @kept new del hk hyes hnts htype =>
    refine ⟨.kept new del (hone.symm.trans hyes) ?_, fun x hx hlock => ?_, fun x hx => ?_⟩
    · exact mem_append_right _ (mem_singleton.2 rfl)
    · rw [(on_value x hx).1] at hlock; cases hlock
    · cases hx
      exact ⟨hk, hnts, htype⟩

end

theorem turn_spec (h : LoopOk p state done st) (ht : p.turn ctx state st m = .ok t) :
    AfterTurn p state done m t := by
  have hout := prewrite_outcome (p.request ctx st m) st.cm ctx.outside (state m.item.key) rfl
  unfold turn at ht
  generalize prewrite (p.request ctx st m) st.cm ctx.outside (state m.item.key) = res at hout ht
  obtain ⟨cm, r⟩ := res
  dsimp only at hout ht
  have hw := h.add_onWrites cm hout
  have hk := h.add_kept cm hout
  split at ht
  · rename_i ts hres
    by_cases hneed : st.needMinCommitTs = true
    · by_cases hts : ts = 0
      · simp only [hneed, hts] at ht
        cases ht
        exact .goOn (.fallBack hw)
      · simp only [hneed, hts] at ht
        cases ht
        exact .goOn ⟨h.commitKind, hw, hk, fun _ hl hf => (h.active hneed hl hf).step h cm hout hres hts⟩
    · simp only [Bool.eq_false_iff.2 hneed] at ht
      cases ht
      exact .goOn ⟨h.commitKind, hw, hk, fun hneed' => absurd hneed' hneed⟩
  · exact onError_spec (st.add cm m.item.key r) h.commitKind hw hk ht

/-- **The loop**: its invariant for all mutations, or an answer from a commit record. -/
theorem prewrite_spec : ∀ {ms done : List PessimisticMutation} {st st' : PrewriterState}, LoopOk p state done st →
    p.prewrite ctx state st ms = .ok st' →
    (LoopOk p state (done ++ ms) st' ∧ st'.assertionFailure = none) ∨
    ∃ m ∈ ms, ∃ (st₀ : PrewriterState) (ts : Nat), st' = st₀.committed ts ∧
      committedRecord (state m.item.key).writes p.fields.startTs = some ts
  | [], done, st, st', h, hp => by
    unfold Prewriter.prewrite at hp
    split at hp
    · cases hp
    rename_i hnone
    cases hp
    exact .inl ⟨(append_nil done).symm ▸ h, hnone⟩
  | m :: ms, done, st, st', h, hp => by
    unfold Prewriter.prewrite at hp
    split at hp
    · cases hp
    · rename_i st₁ ht
      cases hp
      generalize hturn : Turn.answer _ = t at ht
      cases turn_spec h ht with
      | goOn h' => cases hturn
      | answer hrecord =>
        cases hturn
        exact .inr ⟨m, mem_cons_self, _, _, rfl, hrecord⟩
    · rename_i st₁ ht
      generalize hturn : Turn.goOn _ = t at ht
      cases turn_spec h ht with
      | answer hrecord => cases hturn
      | goOn h' =>
        cases hturn
        rcases prewrite_spec h' hp with hok | ⟨m', hm', hrecord⟩
        · left
          rwa [append_assoc] at hok
        · exact .inr ⟨m', mem_cons_of_mem _ hm', hrecord⟩

end Loop

/-! ## What is written -/

variable {ms : List (Bytes × Modify)} {key : Bytes}

theorem mem_keyModifies {m : Modify} : m ∈ keyModifies ms key ↔ (key, m) ∈ ms := by
  simp [keyModifies]

theorem apply_establishes {α : Type} {f : KeyState → α} {on : Modify → Bool} {P : α → Prop}
    (hf : ∀ k m, on m = false → f (KeyState.modify k m) = f k) : ∀ (ms : List Modify) (k : KeyState),
    (∀ m ∈ ms, on m = true → ∀ k, P (f (KeyState.modify k m))) → (P (f k) ∨ ∃ m ∈ ms, on m = true) → P (f (k.apply ms))
  | [], _, _, h => h.resolve_right nofun
  | m :: ms, k, hms, h => by
    refine apply_establishes hf ms _ (fun m' hm' => hms m' (mem_cons_of_mem _ hm')) ?_
    by_cases hm : on m = true
    · exact .inl (hms m mem_cons_self hm k)
    rcases h with hP | ⟨m', hm', hon⟩
    · left
      rwa [hf k m (Bool.eq_false_iff.2 hm)]
    rcases mem_cons.1 hm' with rfl | hm'
    · exact absurd hon hm
    · exact .inr ⟨m', hm', hon⟩

/-- The commit of a transaction in one phase: its record, and the pessimistic lock gone. -/
inductive OnePcModify (commitTs : Nat) (x : Bytes × Lock × Bool) : Bytes × Modify → Prop
  | record {writeType : WriteType} (htype : WriteType.fromLockType x.2.1.lockType = some writeType) :
      OnePcModify commitTs x (x.1, .putWrite commitTs (x.2.1.onePcRecord writeType))
  | unlock (hdel : x.2.2 = true) : OnePcModify commitTs x (x.1, .unlockKey)

variable {locks : List (Bytes × Lock × Bool)}

theorem mem_handleOnePcLocks {commitTs : Nat} {y : Bytes × Modify}
    (h : y ∈ handleOnePcLocks commitTs locks) : ∃ x ∈ locks, OnePcModify commitTs x y := by
  obtain ⟨x, hx, hy⟩ := mem_flatMap.1 h
  refine ⟨x, hx, ?_⟩
  split at hy
  · cases hy
  rename_i writeType htype
  rcases mem_cons.1 hy with rfl | hy
  · exact .record htype
  split at hy
  · rename_i hdel
    cases mem_singleton.1 hy
    exact .unlock hdel
  · cases hy

theorem handleOnePcLocks_of_mem (commitTs : Nat) {x : Bytes × Lock × Bool}
    (hx : x ∈ locks) (htype : x.2.1.isPessimisticLock = false) :
    (∃ w, (x.1, .putWrite commitTs w) ∈ handleOnePcLocks commitTs locks) ∧
      (x.2.2 = true → (x.1, .unlockKey) ∈ handleOnePcLocks commitTs locks) := by
  obtain ⟨writeType, hwt⟩ := Option.ne_none_iff_exists'.1 (Lock.fromLockType_ne_none htype)
  refine ⟨⟨x.2.1.onePcRecord writeType, mem_flatMap.2 ⟨x, hx, ?_⟩⟩, fun hdel => mem_flatMap.2 ⟨x, hx, ?_⟩⟩
  · rw [hwt]; exact mem_cons_self
  · rw [hwt, hdel]; exact mem_cons_of_mem _ mem_cons_self

section Written

variable {p : Prewriter} {s : PrewriteStore} {done : List PessimisticMutation} {st : PrewriterState}
  {m : PessimisticMutation}

def CommitRecord (startTs : Nat) (w : Write) : Prop := w.startTs = startTs ∧ w.writeType ≠ .rollback

theorem commitRecord_onePc {writeType : WriteType} (hts : lock.ts = startTs)
    (htype : WriteType.fromLockType lock.lockType = some writeType) : CommitRecord startTs (lock.onePcRecord writeType) := by
  refine ⟨hts, fun hrollback => ?_⟩
  rw [show writeType = .rollback from hrollback] at htype
  cases hl : lock.lockType <;> rw [hl] at htype <;> cases htype

abbrev PrewriterState.onePcModifies (st : PrewriterState) : List (Bytes × Modify) :=
  st.modifies ++ handleOnePcLocks st.finalMinCommitTs st.locksForOnePc

theorem mem_onePc (ha : Active p.fields.startTs s.state done st) (hone : st.tryOnePc = true) {y : Modify}
    (hy : y ∈ keyModifies st.onePcModifies key) :
    (y.onLock = true → y = .unlockKey ∧ ∃ x ∈ st.locksForOnePc, x.1 = key ∧ x.2.2 = true) ∧
      ((∃ x ∈ st.modifies, x.2 = y) ∨
        (y.onWrites = true → ∃ w, y = .putWrite st.finalMinCommitTs w ∧ CommitRecord p.fields.startTs w)) := by
  rcases mem_append.1 (mem_keyModifies.1 hy) with hmem | hmem
  · refine ⟨fun hlock => ?_, .inl ⟨_, hmem, rfl⟩⟩
    obtain ⟨_, _, _, hno⟩ := ha.puts _ hmem hlock
    rw [hone] at hno; cases hno
  · obtain ⟨x, hx, hmod⟩ := mem_handleOnePcLocks hmem
    generalize hxy : (key, y) = z at hmod
    cases hmod with
    | record htype =>
      cases hxy
      exact ⟨nofun, .inr fun _ => ⟨_, rfl, commitRecord_onePc (ha.kept x hx).2.1 htype⟩⟩
    | unlock hdel =>
      cases hxy
      exact ⟨fun _ => ⟨rfl, x, hx, rfl, hdel⟩, .inr nofun⟩

/-- The key holds an async-commit lock with which the transaction prewrote it. -/
def PrewrittenAsync (startTs : Nat) (k : KeyState) : Prop :=
  ∃ lock, k.lock = some lock ∧ lock.ts = startTs ∧ lock.useAsyncCommit = true ∧ lock.isPessimisticLock = false

section

variable (ha : Active p.fields.startTs s.state done st)
include ha

section

variable (hone : st.tryOnePc = true) (hm : m ∈ done)
  (hfresh : ¬ PrewrittenAsync p.fields.startTs (s.state m.item.key))
include hone

theorem lock_onePc_duplicate (hlock : (s.state key).lock = some lock) (htype : lock.isPessimisticLock = false) :
    (s.write st.onePcModifies key).lock = some lock := by
  refine (lock_apply fun y hy => ?_).trans hlock
  refine Bool.eq_false_iff.2 fun hon => ?_
  obtain ⟨_, ⟨key', new, del⟩, hx, rfl, rfl⟩ := (mem_onePc ha hone hy).1 hon
  cases htype.symm.trans ((ha.kept _ hx).1.isPessimistic hlock)

include hm hfresh

theorem handled_onePc : (m.item.mutation.shouldNotWrite = true ∧ (s.state m.item.key).lock = none) ∨
      ∃ lock del, (m.item.key, lock, del) ∈ st.locksForOnePc := by
  cases ha.handled m hm with
  | duplicate hlock htype hasync => exact absurd ⟨_, hlock, hasync.1, hasync.2.1, htype⟩ hfresh
  | checked hwrite hlock => exact .inl ⟨hwrite, hlock⟩
  | put lock hno hmem => rw [hone] at hno; cases hno
  | kept lock del _ hmem => exact .inr ⟨lock, del, hmem⟩

theorem lock_onePc : (s.write st.onePcModifies m.item.key).lock = none := by
  refine apply_establishes (P := (· = none)) lock_modify _ _ (fun y hy hon k => ?_) ?_
  · rw [((mem_onePc ha hone hy).1 hon).1]
    rfl
  rcases handled_onePc ha hone hm hfresh with ⟨_, hlock⟩ | ⟨lock, del, hmem⟩
  · exact .inl hlock
  have hkept := ha.kept _ hmem
  cases del with
  | false => exact .inl hkept.1
  | true =>
    have hunlock := (handleOnePcLocks_of_mem st.finalMinCommitTs hmem hkept.2.2).2 rfl
    exact .inr ⟨_, mem_keyModifies.2 (mem_append_right _ hunlock), rfl⟩

theorem record_onePc (h : LoopOk p s.state done st) (hwrite : m.item.mutation.shouldNotWrite = false) :
    ∃ w, (s.write st.onePcModifies m.item.key).writes.lookup
      st.finalMinCommitTs = some w ∧ CommitRecord p.fields.startTs w := by
  refine apply_establishes (P := fun v : Versions => ∃ w, v.lookup st.finalMinCommitTs = some w ∧
    CommitRecord p.fields.startTs w) writes_modify _ _ (fun y hy hon k => ?_) (.inr ?_)
  · rcases (mem_onePc ha hone hy).2 with ⟨x, hx, rfl⟩ | hrecord
    · rw [h.onWrites x hx] at hon; cases hon
    obtain ⟨w, rfl, hw⟩ := hrecord hon
    exact ⟨w, Chain.lookup_insert.trans (if_pos rfl), hw⟩
  · rcases handled_onePc ha hone hm hfresh with ⟨hwrite', _⟩ | ⟨lock, del, hmem⟩
    · rw [hwrite] at hwrite'; cases hwrite'
    obtain ⟨w, hw⟩ := (handleOnePcLocks_of_mem st.finalMinCommitTs hmem (ha.kept _ hmem).2.2).1
    exact ⟨_, mem_keyModifies.2 (mem_append_right _ hw), rfl⟩

omit hfresh in
theorem async_onePc (hlock : (s.write st.onePcModifies m.item.key).lock = some lock) :
    AsyncLock p.fields.startTs st.finalMinCommitTs lock := by
  by_cases hold : PrewrittenAsync p.fields.startTs (s.state m.item.key)
  · obtain ⟨old, hold, _, _, htype⟩ := hold
    cases (lock_onePc_duplicate ha hone hold htype).symm.trans hlock
    cases ha.handled m hm with
    | duplicate hold' _ hasync =>
      cases hold.symm.trans hold'
      exact hasync
    | checked _ hnone => cases hnone.symm.trans hold
    | put lock' hno _ => cases hone.symm.trans hno
    | kept lock' del _ hmem => cases htype.symm.trans ((ha.kept _ hmem).1.isPessimistic hold)
  · cases (lock_onePc ha hone hm hold).symm.trans hlock

end

theorem lock_async (hm : m ∈ done)
    (hlock : (s.write st.modifies m.item.key).lock = some lock) (hone : st.tryOnePc = false) :
    AsyncLock p.fields.startTs st.finalMinCommitTs lock := by
  by_cases hon : ∃ y ∈ keyModifies st.modifies m.item.key, y.onLock = true
  · refine apply_establishes (P := fun l => l = some lock → AsyncLock p.fields.startTs st.finalMinCommitTs lock) lock_modify
      _ _ (fun y hy hon k heq => ?_) (.inr hon) hlock
    obtain ⟨lock', rfl, hasync, _⟩ := ha.puts _ (mem_keyModifies.1 hy) hon
    cases heq
    exact hasync
  · have hno : ∀ y ∈ keyModifies st.modifies m.item.key, y.onLock = false :=
      fun y hy => Bool.eq_false_iff.2 fun h => hon ⟨y, hy, h⟩
    have hold := (lock_apply (k := s.state m.item.key) hno).symm.trans hlock
    cases ha.handled m hm with
    | duplicate hlock' htype hasync =>
      cases hold.symm.trans hlock'
      exact hasync
    | checked hwrite hnone => rw [hnone] at hold; cases hold
    | kept lock' del hyes hmem => rw [hone] at hyes; cases hyes
    | put lock' _ hmem => exact absurd (hno _ (mem_keyModifies.2 hmem)) (by simp [Modify.onLock])

end

end Written

/-! ## The answer -/

structure FromRecord (s : PrewriteStore) (command : PrewriteCommand) (after : Bytes → KeyState) (ts : Nat) : Prop where
  same : after = s.state
  record : ∃ m ∈ command.mutations, committedRecord (s.state m.key).writes command.fields.startTs = some ts

/-- **What an answer says of the keys**, `after` being their state after the request. -/
structure Describes (s : PrewriteStore) (command : PrewriteCommand) (after : Bytes → KeyState) (r : PrewriteResult) :
    Prop where
  keyErrors : r.locks ≠ [] → after = s.state
  onePc : r.onePcCommitTs ≠ 0 → FromRecord s command after r.onePcCommitTs ∨ ∀ m ∈ command.mutations,
    ¬ PrewrittenAsync command.fields.startTs (s.state m.key) →
      (∀ lock, (after m.key).lock = some lock → lock.ts ≠ command.fields.startTs) ∧
      (m.mutation.shouldNotWrite = false →
        ∃ w, (after m.key).writes.lookup r.onePcCommitTs = some w ∧ CommitRecord command.fields.startTs w)
  async : r.minCommitTs ≠ 0 → r.locks = [] → FromRecord s command after r.minCommitTs ∨ ∀ m ∈ command.mutations,
    ∀ lock, (after m.key).lock = some lock → AsyncLock command.fields.startTs r.minCommitTs lock
  twoPc : r.minCommitTs = 0 → r.onePcCommitTs = 0 → ∀ key, (after key).writes = (s.state key).writes

structure WorksOn (p : Prewriter) (command : PrewriteCommand) : Prop where
  startTs : p.fields.startTs = command.fields.startTs
  mutations : ∀ m, m ∈ command.mutations ↔ ∃ x ∈ p.mutations, x.item = m

theorem items_setConstraints : ∀ {constraints : List (Nat × Nat)} {ms ms' : List PessimisticMutation},
    setConstraints constraints ms = .ok ms' → ms'.map (·.item) = ms.map (·.item)
  | [], _, _, h => by cases h; rfl
  | (index, expected) :: rest, ms, ms', h => by
    unfold setConstraints at h
    split at h
    · cases h
    rw [items_setConstraints h]
    apply ext_getElem?
    intro i
    rw [getElem?_map, getElem?_modify]
    split <;> simp [Function.comp_def]

variable {command : PrewriteCommand} {p : Prewriter}

theorem worksOn_intoPrewriter (h : command.intoPrewriter = .ok p) : WorksOn p command := by
  cases command with
  | prewrite fields mutations skip =>
    cases h
    refine ⟨rfl, fun m => ?_⟩
    simp [PrewriteCommand.mutations]
  | prewritePessimistic fields mutations forUpdateTs constraints =>
    dsimp only [PrewriteCommand.intoPrewriter] at h
    cases hset : setConstraints constraints (mutations.map fun m => ⟨m.1, m.2, none⟩) with
    | error e => rw [hset] at h; cases h
    | ok ms =>
      rw [hset] at h
      cases h
      refine ⟨rfl, fun m => ?_⟩
      rw [← mem_map, items_setConstraints hset, map_map]
      exact Iff.rfl

theorem WorksOn.canSkipConstraintCheck (h : WorksOn p command)
    (ctx : PrewriteContext) : WorksOn (p.canSkipConstraintCheck ctx) command := by
  unfold Prewriter.canSkipConstraintCheck
  split
  · exact h
  split
  · exact h
  refine ⟨h.startTs, fun m => ?_⟩
  simp only [mem_mergeSort]
  exact h.mutations m

theorem WorksOn.markRetry (h : WorksOn p command) (ctx : PrewriteContext) :
    WorksOn (p.markRetry ctx) command := by
  unfold Prewriter.markRetry
  split
  · exact h
  split
  · exact ⟨h.startTs, h.mutations⟩
  · exact h

inductive Answered (st : PrewriterState) : List (Bytes × Modify) → PrewriteResult → Prop
  | onePc (hlocks : st.locks = []) (hone : st.tryOnePc = true) (hts : st.finalMinCommitTs ≠ 0) :
      Answered st (st.modifies ++ handleOnePcLocks st.finalMinCommitTs st.locksForOnePc)
        ⟨[], st.asyncCommitTs, st.finalMinCommitTs⟩
  | locks (hlocks : st.locks = []) (hone : st.tryOnePc = false) : Answered st st.modifies ⟨[], st.asyncCommitTs, 0⟩
  | keyErrors (hlocks : st.locks ≠ []) : Answered st [] ⟨st.locks, st.asyncCommitTs, 0⟩

variable {st : PrewriterState} {r : PrewriteResult}

theorem answered (h : writeResult st = .ok (ms, r)) : Answered st ms r := by
  unfold writeResult at h
  split at h
  · rename_i hlocks
    have hnil := isEmpty_iff.1 hlocks
    split at h
    · cases h
    rename_i modifies onePcCommitTs hcommit
    cases h
    unfold onePcCommit at hcommit
    split at hcommit
    · rename_i hone
      split at hcommit
      · cases hcommit
      rename_i hts
      cases hcommit
      exact .onePc hnil hone hts
    · rename_i hone
      split at hcommit
      · cases hcommit
        exact .locks hnil (Bool.eq_false_iff.2 hone)
      · cases hcommit
  · rename_i hlocks
    cases h
    exact .keyErrors fun hnil => hlocks (isEmpty_iff.2 hnil)

theorem asyncCommitTs_of_ne_zero (h : st.asyncCommitTs ≠ 0) :
    st.secondaryKeys.isSome = true ∧ st.asyncCommitTs = st.finalMinCommitTs := by
  by_cases hsome : st.secondaryKeys.isSome = true
  · exact ⟨hsome, if_pos hsome⟩
  · exact absurd (if_neg hsome) h

variable {s : PrewriteStore}

theorem describes_committed (hw : WorksOn p command) {m : PessimisticMutation} (hm : m ∈ p.mutations)
    (hrecord : committedRecord (s.state m.item.key).writes p.fields.startTs = some ts)
    (h : Answered (st.committed ts) ms r) :
    Describes s command (s.write ms) r := by
  have hfrom : FromRecord s command s.state ts :=
    ⟨rfl, m.item, (hw.mutations _).2 ⟨m, hm, rfl⟩, hw.startTs ▸ hrecord⟩
  have hasync : (st.committed ts).asyncCommitTs ≠ 0 → FromRecord s command s.state (st.committed ts).asyncCommitTs := by
    intro hne
    rw [(asyncCommitTs_of_ne_zero hne).2]
    exact hfrom
  cases h with
  | onePc _ _ hts =>
    exact ⟨absurd rfl, fun _ => .inl hfrom, fun hne _ => .inl (hasync hne), fun _ hzero => absurd hzero hts⟩
  | locks _ _ =>
    exact ⟨absurd rfl, absurd rfl, fun hne _ => .inl (hasync hne), fun _ _ _ => rfl⟩
  | keyErrors hlocks => exact absurd rfl hlocks

theorem describes_done (hw : WorksOn p command)
    (h : LoopOk p s.state p.mutations st) (hnone : st.assertionFailure = none)
    (hres : Answered st ms r) : Describes s command (s.write ms) r := by
  cases hres with
  | onePc hlocks hone hts =>
    have ha := h.active (by unfold PrewriterState.needMinCommitTs; rw [hone, Bool.or_true]) hlocks hnone
    refine ⟨absurd rfl, fun _ => .inr ?_, fun hne _ => .inr ?_, fun _ hzero => absurd hzero hts⟩
    · intro m hm hfresh
      obtain ⟨x, hx, rfl⟩ := (hw.mutations m).1 hm
      rw [← hw.startTs] at hfresh ⊢
      have hunlocked := lock_onePc ha hone hx hfresh
      exact ⟨fun lock hlock => (by rw [hunlocked] at hlock; cases hlock), record_onePc ha hone hx hfresh h⟩
    · intro m hm lock hlock
      obtain ⟨x, hx, rfl⟩ := (hw.mutations m).1 hm
      rw [(asyncCommitTs_of_ne_zero hne).2, ← hw.startTs]
      exact async_onePc ha hone hx hlock
  | locks hlocks hone =>
    refine ⟨absurd rfl, absurd rfl, fun hne _ => .inr ?_, fun _ _ key => ?_⟩
    · intro m hm lock hlock
      obtain ⟨x, hx, rfl⟩ := (hw.mutations m).1 hm
      obtain ⟨hsome, heq⟩ := asyncCommitTs_of_ne_zero hne
      have ha := h.active (by unfold PrewriterState.needMinCommitTs; rw [hsome, Bool.true_or]) hlocks hnone
      rw [heq, ← hw.startTs]
      exact lock_async ha hx hlock hone
    · exact writes_apply fun y hy => h.onWrites _ (mem_keyModifies.1 hy)
  | keyErrors hlocks =>
    exact ⟨fun _ => rfl, absurd rfl, fun _ hnil => absurd hnil hlocks, fun _ _ _ => rfl⟩

/-- **The answer to a prewrite request describes what was written**: a request that fails writes nothing; a successful one
is described by its answer. -/
theorem describes_process (s : PrewriteStore) (ctx : PrewriteContext) (command : PrewriteCommand) :
    (∀ e, (s.process ctx command).2 = .error e → (s.process ctx command).1 = s.state) ∧
      ∀ r, (s.process ctx command).2 = .ok r → Describes s command (s.process ctx command).1 r := by
  unfold PrewriteStore.process
  split
  · exact ⟨fun _ _ => rfl, nofun⟩
  rename_i ms result h
  refine ⟨nofun, fun r hr => ?_⟩
  cases hr
  cases hp : command.intoPrewriter with
  | error e => rw [hp] at h; cases h
  | ok p =>
    rw [hp] at h
    change processWrite ctx s p = _ at h
    have hw := ((worksOn_intoPrewriter hp).markRetry ctx).canSkipConstraintCheck ctx
    unfold processWrite at h
    dsimp only at h
    generalize (p.markRetry ctx).canSkipConstraintCheck ctx = q at h hw
    split at h
    · cases h
    split at h
    · cases h
    rename_i written hbind
    cases h
    cases hloop : q.prewrite ctx s.state (q.start s.cm) q.mutations with
    | error e => rw [hloop] at hbind; cases hbind
    | ok st =>
      rw [hloop] at hbind
      rcases prewrite_spec LoopOk.start hloop with ⟨hok, hnone⟩ | ⟨m, hm, st₀, ts, rfl, hrecord⟩
      · exact describes_done hw hok hnone (answered hbind)
      · exact describes_committed hw hm hrecord (answered hbind)

/-! ## Where an answer says less -/

def sampleRequest (secondaryKeys : Option (List Bytes)) (tryOnePc : Bool) (keys : List Bytes) : PrewriteCommand :=
  .prewrite ⟨[1], 10, 0, 0, 0, 0, secondaryKeys, tryOnePc, .off, false, 0⟩ (keys.map fun key => ⟨key, .put [], .none⟩) false

def sampleContext : PrewriteContext := ⟨false, true, true, ⟨0, none⟩, false, fun _ => 0⟩

def sampleManager : ConcurrencyManager := .new 0 0 .log 0 0

def sampleLock (startTs minCommitTs : Nat) : Lock :=
  { Lock.new .put [1] startTs 0 (some []) 0 0 minCommitTs false with useAsyncCommit := decide (minCommitTs ≠ 0) }

def halfCommitted : PrewriteStore where
  cm := sampleManager
  state key :=
    if key = [1] then KeyState.empty.apply [.putWrite 20 (.new .put 10 (some []))]
    else if key = [2] then KeyState.empty.apply [.putLock (sampleLock 10 0)]
    else .empty

def lockedBy (startTs minCommitTs : Nat) : PrewriteStore where
  cm := sampleManager
  state key := if key = [1] then KeyState.empty.apply [.putLock (sampleLock startTs minCommitTs)] else .empty

/-- **An answer that is made from a commit record, after a duplicate, or with key errors, says less.**  The record of one
key answers for a request whose other key is still locked; a key that was prewritten with async commit stays locked and
without a record when the request is tried in one phase; and with a key error the `min_commit_ts` of the keys before is
answered, while the locked key is locked by another transaction. -/
theorem answer_says_less :
    ((halfCommitted.process sampleContext (sampleRequest none true [[1], [2]])).2 = .ok ⟨[], 0, 20⟩ ∧
      ((halfCommitted.process sampleContext (sampleRequest none true [[1], [2]])).1 [2]).lock = some (sampleLock 10 0) ∧
      ((halfCommitted.process sampleContext (sampleRequest none true [[1], [2]])).1 [2]).writes.lookup 20 = none) ∧
    (((lockedBy 10 15).process sampleContext (sampleRequest none true [[1]])).2 = .ok ⟨[], 0, 15⟩ ∧
      (((lockedBy 10 15).process sampleContext (sampleRequest none true [[1]])).1 [1]).lock = some (sampleLock 10 15) ∧
      (((lockedBy 10 15).process sampleContext (sampleRequest none true [[1]])).1 [1]).writes.lookup 15 = none) ∧
    (((lockedBy 5 0).process sampleContext (sampleRequest (some []) false [[2], [1]])).2 =
        .ok ⟨[.keyIsLocked (sampleLock 5 0)], 11, 0⟩ ∧
      (((lockedBy 5 0).process sampleContext (sampleRequest (some []) false [[2], [1]])).1 [1]).lock =
        some (sampleLock 5 0)) := by
  decide

end Mvcc
end Tikv
