import Tikv.LibRun
import Tikv.MvccMaxTs
/-!
# MvccAsyncRead — readers against async-commit and one-phase prewriters

A reader publishes its timestamp, checks the in-memory locks of its keys and takes its snapshot; a prewriter of a key
takes the key's handle, reads `max_ts`, stores its lock in the handle, writes to the storage and drops the handle.  The
lock store of a handle is held from the reading of `max_ts` to the storing of the lock, so that no check of the key falls
between.  Under every interleaving a reader that has its snapshot was told of the prewriter, sees its write, or reads
below its commit timestamp (`told_or_seen_or_below`); the greatest timestamp is never published and is the exception.
-/
namespace Tikv
namespace Mvcc
namespace AsyncRead

open Lib Function

/-- What a prewriter brings: `minCommitTs` is that of its lock, `maxCommitTs` zero for no bound. -/
structure Request (κ : Type) where
  key : κ
  startTs : Nat
  forUpdateTs : Nat
  minCommitTs : Nat
  maxCommitTs : Nat
  tryOnePc : Bool

/-- Any number of prewriters and readers; a reader reads a key or a range of keys. -/
structure Parties (κ ι ρ : Type) where
  request : ι → Request κ
  readTs : ρ → Nat
  reads : ρ → κ → Bool

inductive Phase
  | idle
  | keyLocked
  | computed (minCommitTs : Nat)
  | stored (minCommitTs : Nat)
  | applied (commitTs : Nat)
  | released (commitTs : Nat)
  | failed
deriving DecidableEq

/-- The timestamp a prewriter that has not failed commits at, or above. -/
def Phase.ts : Phase → Option Nat
  | idle | keyLocked | failed => none
  | computed m | stored m | applied m | released m => some m

def Phase.holdsKey : Phase → Bool
  | keyLocked | computed _ | stored _ | applied _ => true
  | idle | released _ | failed => false

def Phase.inMemory : Phase → Bool
  | stored _ | applied _ => true
  | idle | keyLocked | computed _ | released _ | failed => false

def Phase.written : Phase → Bool
  | applied _ | released _ => true
  | idle | keyLocked | computed _ | stored _ | failed => false

structure Reader (κ ι : Type) where
  updated : Bool
  checked : κ → Bool
  told : ι → Bool
  snapshot : Option (ι → Bool)

structure State (κ ι ρ : Type) where
  cm : ConcurrencyManager
  owner : κ → Option ι
  lockStore : κ → Option ι
  phase : ι → Phase
  storage : ι → Bool
  reader : ρ → Reader κ ι

inductive Action (κ ι ρ : Type)
  | lockKey (p : ι)
  | compute (p : ι)
  | store (p : ι)
  | apply (p : ι) (commitTs : Nat)
  | drop (p : ι)
  | abandon (p : ι)
  | updateMaxTs (x : ρ) (out : Outside)
  | check (x : ρ) (part : κ → Bool)
  | snapshot (x : ρ)

variable {κ ι ρ : Type}

def init (cm : ConcurrencyManager) : State κ ι ρ :=
  { cm, owner := fun _ => none, lockStore := fun _ => none, phase := fun _ => .idle, storage := fun _ => false
    reader := fun _ => ⟨false, fun _ => false, fun _ => false, none⟩ }

/-- When an action can be taken.  A one-phase commit takes the greatest timestamp of the keys of its request; a range is
checked part by part. -/
def Enabled (P : Parties κ ι ρ) (s : State κ ι ρ) : Action κ ι ρ → Prop
  | .lockKey p => s.phase p = .idle ∧ s.owner (P.request p).key = none
  | .compute p => s.phase p = .keyLocked
  | .store p => ∃ m, s.phase p = .computed m
  | .apply p commitTs => ∃ m, s.phase p = .stored m ∧
      if (P.request p).tryOnePc then m ≤ commitTs else commitTs = m
  | .drop p => ∃ m, s.phase p = .applied m
  | .abandon p => s.phase p = .keyLocked ∨ ∃ m, s.phase p = .stored m
  | .updateMaxTs x _ => (s.reader x).updated = false
  | .check x part => (s.reader x).updated = true ∧ ∀ p, part (P.request p).key = true → ∀ m, s.phase p ≠ .computed m
  | .snapshot x => (s.reader x).updated = true ∧ (s.reader x).snapshot = none ∧
      ∀ k, P.reads x k = true → (s.reader x).checked k = true

/-- What a reader knows of a prewriter of one of its keys that commits at or above `m`. -/
def Knows (P : Parties κ ι ρ) (s : State κ ι ρ) (x : ρ) (p : ι) (m : Nat) : Prop :=
  P.readTs x < m ∨ (s.reader x).checked (P.request p).key = false ∨ (s.reader x).told p = true ∨
    match (s.reader x).snapshot with
    | none => s.storage p = true
    | some seen => seen p = true

structure Inv (P : Parties κ ι ρ) (s : State κ ι ρ) : Prop where
  owner : ∀ p, (s.phase p).holdsKey = true → s.owner (P.request p).key = some p
  memory : ∀ p, (s.phase p).inMemory = true → s.lockStore (P.request p).key = some p
  written : ∀ p, (s.phase p).written = true → s.storage p = true
  fresh : ∀ x, (s.reader x).updated = false → (∀ k, (s.reader x).checked k = false) ∧ (s.reader x).snapshot = none
  covered : ∀ x, (s.reader x).snapshot ≠ none → ∀ k, P.reads x k = true → (s.reader x).checked k = true
  published : ∀ x, (s.reader x).updated = true → P.readTs x ≠ tsMax → P.readTs x ≤ s.cm.maxTs
  knows : ∀ x p m, (s.reader x).updated = true → P.readTs x ≠ tsMax → P.reads x (P.request p).key = true →
    (s.phase p).ts = some m → Knows P s x p m

theorem inv_init (P : Parties κ ι ρ) (cm : ConcurrencyManager) : Inv P (init cm) where
  owner _ h := by cases h
  memory _ h := by cases h
  written _ h := by cases h
  fresh _ _ := ⟨fun _ => rfl, rfl⟩
  covered _ h := absurd rfl h
  published _ h := by cases h
  knows _ _ _ h := by cases h

variable {ph : Phase}

theorem Phase.holdsKey_of_inMemory (h : ph.inMemory = true) : ph.holdsKey = true := by
  cases ph <;> first | rfl | cases h

variable {P : Parties κ ι ρ} {s s' : State κ ι ρ} {x : ρ} {p : ι} {m m' : Nat}

theorem Knows.of_eq (h : Knows P s x p m)
    (hreader : s'.reader x = s.reader x) (hstorage : s.storage p = true → s'.storage p = true) (hm : m ≤ m') :
    Knows P s' x p m' := by
  unfold Knows at h ⊢
  rw [hreader]
  rcases h with h | h | h | h
  · exact .inl (lt_of_lt_of_le h hm)
  · exact .inr (.inl h)
  · exact .inr (.inr (.inl h))
  refine .inr (.inr (.inr ?_))
  cases hs : (s.reader x).snapshot with
  | none => rw [hs] at h; exact hstorage h
  | some seen => rw [hs] at h; exact h

variable (h : Inv P s)
include h

theorem Inv.alone {q : ι} (hne : q ≠ p) (hp : (s.phase p).holdsKey = true ∨ s.owner (P.request p).key = none)
    (hq : (s.phase q).holdsKey = true) : (P.request q).key ≠ (P.request p).key := by
  intro hkey
  have howner := h.owner q hq
  rw [hkey] at howner
  rcases hp with hp | hp
  · rw [h.owner p hp] at howner
    exact hne (Option.some.inj howner).symm
  · rw [hp] at howner; cases howner

theorem Inv.knows_of_ts (hts : (s.phase p).ts = some m) (hph : ph.ts = some m') (hm : m ≤ m')
    (hreader : s'.reader = s.reader) (hstorage : s.storage p = true → s'.storage p = true) :
    ∀ x n, (s.reader x).updated = true → P.readTs x ≠ tsMax → P.reads x (P.request p).key = true →
      ph.ts = some n → Knows P s' x p n := by
  intro x n hx hmax hreads hn
  rw [hph] at hn
  cases hn
  exact (h.knows x p m hx hmax hreads hts).of_eq (congrFun hreader x) hstorage hm

variable [DecidableEq ι]

theorem Inv.advance (hp : (s.phase p).holdsKey = true ∨ s.owner (P.request p).key = none)
    (hphase : s'.phase = update s.phase p ph) (hreader : s'.reader = s.reader) (hcm : s'.cm = s.cm)
    (howner : ∀ k, k ≠ (P.request p).key → s'.owner k = s.owner k)
    (hown : ph.holdsKey = true → s'.owner (P.request p).key = some p)
    (hstore : ∀ k, k ≠ (P.request p).key → s'.lockStore k = s.lockStore k)
    (hmem : ph.inMemory = true → s'.lockStore (P.request p).key = some p)
    (hstorage : ∀ q, s.storage q = true → s'.storage q = true) (hwritten : ph.written = true → s'.storage p = true)
    (hknows : ∀ x m, (s.reader x).updated = true → P.readTs x ≠ tsMax → P.reads x (P.request p).key = true →
      ph.ts = some m → Knows P s' x p m) : Inv P s' where
  owner q hq := by
    rw [hphase] at hq
    by_cases he : q = p
    · subst he
      rw [update_self] at hq
      exact hown hq
    · rw [update_of_ne he] at hq
      rw [howner _ (h.alone he hp hq)]
      exact h.owner q hq
  memory q hq := by
    rw [hphase] at hq
    by_cases he : q = p
    · subst he
      rw [update_self] at hq
      exact hmem hq
    · rw [update_of_ne he] at hq
      rw [hstore _ (h.alone he hp (Phase.holdsKey_of_inMemory hq))]
      exact h.memory q hq
  written q hq := by
    rw [hphase] at hq
    by_cases he : q = p
    · subst he
      rw [update_self] at hq
      exact hwritten hq
    · rw [update_of_ne he] at hq
      exact hstorage q (h.written q hq)
  fresh x := by rw [hreader]; exact h.fresh x
  covered x := by rw [hreader]; exact h.covered x
  published x := by rw [hreader, hcm]; exact h.published x
  knows x q m hx hmax hreads hts := by
    rw [hreader] at hx
    rw [hphase] at hts
    by_cases he : q = p
    · subst he
      rw [update_self] at hts
      exact hknows x m hx hmax hreads hts
    · rw [update_of_ne he] at hts
      exact (h.knows x q m hx hmax hreads hts).of_eq (congrFun hreader x) (hstorage q) (le_refl m)

variable [DecidableEq κ] [DecidableEq ρ]

def State.setPhase (s : State κ ι ρ) (p : ι) (ph : Phase) : State κ ι ρ :=
  { s with phase := Function.update s.phase p ph }

def State.dropHandle (s : State κ ι ρ) (k : κ) : State κ ι ρ :=
  { s with owner := Function.update s.owner k none, lockStore := Function.update s.lockStore k none }

def exec (P : Parties κ ι ρ) (s : State κ ι ρ) : Action κ ι ρ → State κ ι ρ
  | .lockKey p => { s.setPhase p .keyLocked with owner := Function.update s.owner (P.request p).key (some p) }
  | .compute p =>
    let q := P.request p
    match asyncCommitTimestamps s.cm.maxTs q.startTs q.forUpdateTs q.minCommitTs q.maxCommitTs with
    | .ok m => s.setPhase p (.computed m)
    | .error _ => (s.dropHandle q.key).setPhase p .failed
  | .store p =>
    match s.phase p with
    | .computed m => { s.setPhase p (.stored m) with
        lockStore := Function.update s.lockStore (P.request p).key (some p) }
    | _ => s
  | .apply p commitTs => { s.setPhase p (.applied commitTs) with storage := Function.update s.storage p true }
  | .drop p =>
    match s.phase p with
    | .applied m => (s.dropHandle (P.request p).key).setPhase p (.released m)
    | _ => s
  | .abandon p => (s.dropHandle (P.request p).key).setPhase p .failed
  | .updateMaxTs x out =>
    match s.cm.updateMaxTs out (P.readTs x) with
    | (cm, .ok ()) => { s with cm, reader := Function.update s.reader x { s.reader x with updated := true } }
    | (cm, .error _) => { s with cm }
  | .check x part =>
    let r := s.reader x
    { s with reader := Function.update s.reader x { r with
        checked := fun k => r.checked k || part k
        told := fun p => r.told p || (part (P.request p).key && s.lockStore (P.request p).key = some p) } }
  | .snapshot x =>
    { s with reader := Function.update s.reader x { s.reader x with snapshot := some s.storage } }

def step (P : Parties κ ι ρ) (s : State κ ι ρ) (a : Action κ ι ρ) (s' : State κ ι ρ) : Prop :=
  Enabled P s a ∧ s' = exec P s a

/-! ## The invariant along a run -/

omit [DecidableEq ρ] in
theorem Inv.drop (hp : (s.phase p).holdsKey = true) (hhold : ph.holdsKey = false) (hmem : ph.inMemory = false)
    (hwritten : ph.written = true → s.storage p = true)
    (hknows : ∀ x m, (s.reader x).updated = true → P.readTs x ≠ tsMax → P.reads x (P.request p).key = true →
      ph.ts = some m → Knows P ((s.dropHandle (P.request p).key).setPhase p ph) x p m) :
    Inv P ((s.dropHandle (P.request p).key).setPhase p ph) :=
  h.advance (.inl hp) rfl rfl rfl (fun _ hk => update_of_ne hk ..) fun hc => by rw [hhold] at hc; cases hc
    (fun _ hk => update_of_ne hk ..) (fun hc => by rw [hmem] at hc; cases hc) (fun _ => id) hwritten hknows

theorem Inv.compute (hp : s.phase p = .keyLocked) : Inv P (exec P s (.compute p)) := by
  have hhold : (s.phase p).holdsKey = true := by rw [hp]; rfl
  dsimp only [exec]
  split
  · rename_i m hm
    refine h.advance (.inl hhold) rfl rfl rfl (fun _ _ => rfl) (fun _ => h.owner p hhold) (fun _ _ => rfl) nofun
      (fun _ => id) nofun fun x n hx hmax _ hn => .inl ?_
    cases hn
    exact lt_of_le_of_lt (h.published x hx hmax) (asyncCommitTimestamps_ok hm).1
  · exact h.drop hhold rfl rfl nofun nofun

theorem Inv.store (hp : s.phase p = .computed m) : Inv P (exec P s (.store p)) := by
  have hhold : (s.phase p).holdsKey = true := by rw [hp]; rfl
  dsimp only [exec]
  rw [hp]
  refine h.advance (.inl hhold) rfl rfl rfl (fun _ _ => rfl) (fun _ => h.owner p hhold)
    (fun _ hk => update_of_ne hk ..) (fun _ => update_self ..) (fun _ => id) nofun ?_
  exact h.knows_of_ts (m := m) (by rw [hp]; rfl) rfl (le_refl m) rfl id

theorem Inv.apply {commitTs : Nat} (hp : s.phase p = .stored m) (hm : m ≤ commitTs) :
    Inv P (exec P s (.apply p commitTs)) := by
  have hhold : (s.phase p).holdsKey = true := by rw [hp]; rfl
  have hstorage : ∀ q, s.storage q = true → update s.storage p true q = true := by
    intro q hq
    by_cases he : q = p
    · rw [he, update_self]
    · rwa [update_of_ne he]
  refine h.advance (.inl hhold) rfl rfl rfl (fun _ _ => rfl) (fun _ => h.owner p hhold) (fun _ _ => rfl)
    (fun _ => h.memory p (by rw [hp]; rfl)) hstorage (fun _ => update_self ..) ?_
  exact h.knows_of_ts (m := m) (by rw [hp]; rfl) rfl hm rfl (hstorage p)

omit [DecidableEq ι] [DecidableEq κ] in
theorem Inv.atReader {cm : ConcurrencyManager} {r : Reader κ ι} (hup : r.updated = true) (hle : s.cm.maxTs ≤ cm.maxTs)
    (hcov : r.snapshot ≠ none → ∀ k, P.reads x k = true → r.checked k = true)
    (hpub : P.readTs x ≠ tsMax → P.readTs x ≤ cm.maxTs)
    (hknows : ∀ p m, P.readTs x ≠ tsMax → P.reads x (P.request p).key = true → (s.phase p).ts = some m →
      Knows P { s with cm, reader := update s.reader x r } x p m) :
    Inv P { s with cm, reader := update s.reader x r } where
  owner := h.owner
  memory := h.memory
  written := h.written
  fresh y hy := by
    by_cases he : y = x
    · subst he
      simp only [update_self, hup] at hy
      cases hy
    · simp only [update_of_ne he] at hy ⊢
      exact h.fresh y hy
  covered y := by
    by_cases he : y = x
    · subst he
      simpa only [update_self] using hcov
    · simpa only [update_of_ne he] using h.covered y
  published y hy hmax := by
    by_cases he : y = x
    · subst he
      exact hpub hmax
    simp only [update_of_ne he] at hy
    exact le_trans (h.published y hy hmax) hle
  knows y p m hy hmax hreads hts := by
    by_cases he : y = x
    · subst he
      exact hknows p m hmax hreads hts
    simp only [update_of_ne he] at hy
    exact (h.knows y p m hy hmax hreads hts).of_eq (update_of_ne he ..) id (le_refl m)

/-- **A reader checks a part of its keys**: a prewriter of the part is not inside its lock store, so it has not read
`max_ts` yet, is in memory or has written. -/
theorem Inv.check {part : κ → Bool}
    (hx : (s.reader x).updated = true) (hpart : ∀ p, part (P.request p).key = true → ∀ m, s.phase p ≠ .computed m) :
    Inv P (exec P s (.check x part)) := by
  refine h.atReader hx le_rfl (fun hsnap k hk => ?_) (h.published x hx) fun p m hmax hreads hts => ?_
  · exact Bool.or_eq_true_iff.2 (.inl (h.covered x hsnap k hk))
  · have hold := h.knows x p m hx hmax hreads hts
    unfold Knows at hold ⊢
    simp only [update_self]
    rcases hold with hold | hold | hold | hold
    · exact .inl hold
    · cases hk : part (P.request p).key with
      | false => rw [hold]; exact .inr (.inl rfl)
      | true =>
        -- the key is checked now
        have hsnap : (s.reader x).snapshot = none := by
          by_contra hsnap
          rw [h.covered x hsnap _ hreads] at hold; cases hold
        rw [hsnap]
        cases hph : s.phase p with
        | computed n => exact absurd hph (hpart p hk n)
        | stored n =>
          have := h.memory p (by rw [hph]; rfl)
          exact .inr (.inr (.inl (by simp [this])))
        | applied n | released n => exact .inr (.inr (.inr (h.written p (by rw [hph]; rfl))))
        | _ => rw [hph] at hts; cases hts
    · exact .inr (.inr (.inl (by rw [hold]; rfl)))
    · exact .inr (.inr (.inr hold))

theorem Inv.snapshot (hx : (s.reader x).updated = true)
    (hnone : (s.reader x).snapshot = none) (hall : ∀ k, P.reads x k = true → (s.reader x).checked k = true) :
    Inv P (exec P s (.snapshot x)) := by
  refine h.atReader hx le_rfl (fun _ => hall) (h.published x hx) fun p m hmax hreads hts => ?_
  have hold := h.knows x p m hx hmax hreads hts
  unfold Knows at hold ⊢
  simp only [update_self]
  rwa [hnone] at hold

theorem Inv.updateMaxTs (out : Outside)
    (hx : (s.reader x).updated = false) : Inv P (exec P s (.updateMaxTs x out)) := by
  have hle := s.cm.le_maxTs_updateMaxTs out (P.readTs x)
  have hnew := @ConcurrencyManager.newTs_le_maxTs s.cm out (P.readTs x)
  dsimp only [exec]
  split
  · rename_i cm heq
    rw [heq] at hle hnew
    refine h.atReader rfl hle (h.covered x) (fun hmax => hnew hmax rfl) fun p m _ _ _ => .inr (.inl ?_)
    simp only [update_self]
    exact (h.fresh x hx).1 _
  · rename_i cm e heq
    rw [heq] at hle
    exact { h with published := fun y hy hmax => le_trans (h.published y hy hmax) hle }

theorem Inv.step {a : Action κ ι ρ} (hstep : step P s a s') : Inv P s' := by
  obtain ⟨hen, rfl⟩ := hstep
  cases a with
  | lockKey p =>
    refine h.advance (.inr hen.2) rfl rfl rfl (fun _ hk => update_of_ne hk ..)
      (fun _ => update_self ..) (fun _ _ => rfl) nofun (fun _ => id) nofun nofun
  | compute p => exact h.compute hen
  | store p => exact h.store hen.choose_spec
  | apply p commitTs =>
    obtain ⟨m, hp, hm⟩ := hen
    refine h.apply hp ?_
    split at hm
    · exact hm
    · exact le_of_eq hm.symm
  | drop p =>
    obtain ⟨m, hp⟩ := hen
    dsimp only [exec]
    rw [hp]
    refine h.drop (by rw [hp]; rfl) rfl rfl (fun _ => h.written p (by rw [hp]; rfl)) ?_
    exact h.knows_of_ts (m := m) (by rw [hp]; rfl) rfl (le_refl m) rfl id
  | abandon p =>
    refine h.drop ?_ rfl rfl nofun nofun
    rcases hen with hp | ⟨m, hp⟩ <;> rw [hp] <;> rfl
  | updateMaxTs x out => exact h.updateMaxTs out hen
  | check x part => exact h.check hen.1 hen.2
  | snapshot x => exact h.snapshot hen.1 hen.2.1 hen.2.2

omit h

/-- **No async commit and no one-phase commit under a finished read**: under every interleaving, a reader that has its
snapshot was told of the prewriter of one of its keys, sees its write, or reads below its commit timestamp. -/
theorem told_or_seen_or_below (P : Parties κ ι ρ) (cm : ConcurrencyManager) (acts : List (Action κ ι ρ))
    (s : State κ ι ρ) (hrun : Run (step P) always (init cm) acts s) (x : ρ) (p : ι) (seen : ι → Bool) (m : Nat)
    (hmax : P.readTs x ≠ tsMax) (hreads : P.reads x (P.request p).key = true)
    (hsnap : (s.reader x).snapshot = some seen) (hts : (s.phase p).ts = some m) :
    (s.reader x).told p = true ∨ seen p = true ∨ P.readTs x < m := by
  have h : Inv P s := hrun.invariant (fun _ _ _ h _ => h.step) (inv_init P cm)
  have hx : (s.reader x).updated = true := by
    by_contra hx
    have := (h.fresh x (Bool.eq_false_iff.2 hx)).2
    rw [hsnap] at this; cases this
  have hk := h.covered x (by rw [hsnap]; nofun) _ hreads
  rcases h.knows x p m hx hmax hreads hts with h | h | h | h
  · exact .inr (.inr h)
  · rw [hk] at h; cases h
  · exact .inl h
  rw [hsnap] at h
  exact .inr (.inl h)

def onePair (readTs : Nat) : Parties Unit Unit Unit where
  request _ := ⟨(), 3, 0, 0, 0, false⟩
  readTs _ := readTs
  reads _ _ := true

def freshStore : ConcurrencyManager := .new 0 0 .error 0 0

def readFirst : List (Action Unit Unit Unit) :=
  [.updateMaxTs () ⟨0, none⟩, .check () fun _ => true, .snapshot (), .lockKey (), .compute ()]

def afterReadFirst (readTs : Nat) : State Unit Unit Unit := readFirst.foldl (exec (onePair readTs)) (init freshStore)

theorem run_readFirst {t : Nat} (ht : t = 5 ∨ t = tsMax) :
    Run (step (onePair t)) always (init freshStore) readFirst (afterReadFirst t) := by
  rcases ht with rfl | rfl <;> exact .cons trivial ⟨rfl, rfl⟩ (.cons trivial ⟨⟨rfl, fun _ _ _ => nofun⟩, rfl⟩
    (.cons trivial ⟨⟨rfl, rfl, fun _ _ => rfl⟩, rfl⟩ (.cons trivial ⟨⟨rfl, rfl⟩, rfl⟩
      (.cons trivial ⟨rfl, rfl⟩ (.nil _)))))

theorem told_or_seen_or_below_five : Run (step (onePair 5)) always (init freshStore) readFirst (afterReadFirst 5) ∧
    ((afterReadFirst 5).phase ()).ts = some 6 ∧ 5 < 6 := by
  have hrun := run_readFirst (.inl rfl)
  refine ⟨hrun, rfl, ?_⟩
  rcases told_or_seen_or_below (onePair 5) freshStore readFirst _ hrun () () (fun _ => false) 6 (by decide) rfl rfl rfl
    with h | h | h
  · cases h
  · cases h
  · exact h

/-- **A read at the greatest timestamp publishes nothing**: it ends without having been told of the prewriter or having
seen it, and the prewriter commits at 4. -/
theorem not_told_or_seen_or_below_max : ¬ ∀ (P : Parties Unit Unit Unit) (cm : ConcurrencyManager)
    (acts : List (Action Unit Unit Unit)) (s : State Unit Unit Unit), Run (step P) always (init cm) acts s →
    ∀ (x p : Unit) (seen : Unit → Bool) (m : Nat), P.reads x (P.request p).key = true →
      (s.reader x).snapshot = some seen → (s.phase p).ts = some m →
      (s.reader x).told p = true ∨ seen p = true ∨ P.readTs x < m := by
  intro h
  rcases h (onePair tsMax) freshStore readFirst _ (run_readFirst (.inr rfl)) () () (fun _ => false) 4 rfl rfl rfl
    with h | h | h
  · cases h
  · cases h
  · exact absurd h (by decide)

end AsyncRead
end Mvcc
end Tikv
